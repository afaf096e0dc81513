import DarwinCore.Verification.Network.ClientCalls
import DarwinCore.Verification.Network.OrderlyClose

/-! # The order of a client's events

`SetConnection` submits `kConnected` after it has registered the descriptor and set
`has_connection_`. While the loop submits nothing in between, `kConnected` comes first for every
connection, and a client whose connection is gone is not connected. -/

namespace DarwinCore.Network

open ClientReactor

/-! ## Events by connection -/

/-- The number of connections that have been set, and the events that have been submitted, each
with the number of connections set before it. -/
structure Submissions where
  connections : ℕ := 0
  events : List (ℕ × NetworkEvent) := []

/-- `kConnected` comes before the other events of a connection. -/
def Announced (events : List (ℕ × NetworkEvent)) : Prop :=
  ∀ before n event after, events = before ++ (n, event) :: after → event.isConnected = false →
    ∃ announcement, (n, announcement) ∈ before ∧ announcement.isConnected = true

theorem Announced.left {events later : List (ℕ × NetworkEvent)}
    (h : Announced (events ++ later)) : Announced events := by
  rintro before n event after rfl hevent
  exact h before n event (after ++ later) (List.append_assoc _ _ _) hevent

theorem Announced.snoc {events : List (ℕ × NetworkEvent)} {n : ℕ} {event : NetworkEvent}
    (h : Announced events) (hevent : event.isConnected = false →
      ∃ announcement, (n, announcement) ∈ events ∧ announcement.isConnected = true) :
    Announced (events ++ [(n, event)]) := by
  intro before n' event' after heq hevent'
  rcases List.eq_nil_or_concat after with rfl | ⟨rest, last, rfl⟩
  · obtain ⟨rfl, hlast⟩ := List.append_inj' heq rfl
    cases hlast
    exact hevent hevent'
  · have hsplit : events ++ [(n, event)] = (before ++ (n', event') :: rest) ++ [last] := by
      rw [heq, List.concat_eq_append, List.append_assoc, List.cons_append]
    obtain ⟨rfl, -⟩ := List.append_inj' hsplit rfl
    exact h before n' event' rest rfl hevent'

def NetworkEvent.state (state : ClientState) : NetworkEvent → ClientState
  | connected _ _ => .connected
  | data _ _ => state
  | disconnected _ => .disconnected
  | error _ _ _ => .disconnected

def ClientState.later (state : ClientState) (events : List NetworkEvent) : ClientState :=
  events.foldl NetworkEvent.state state

namespace ClientState

variable {state state' : ClientState} {events : List NetworkEvent}

theorem later_ne_connected (h : state.later events ≠ .connected) (hstate : state' ≠ .connected) :
    state'.later events ≠ .connected := by
  induction events generalizing state state' with
  | nil => exact hstate
  | cons event events ih =>
    cases event with
    | connected id peer => exact h
    | data id payload => exact ih h hstate
    | disconnected id => exact h
    | error id error code => exact h

theorem later_snoc (event : NetworkEvent) :
    state.later (events ++ [event]) = event.state (state.later events) := by
  rw [later, List.foldl_append]
  rfl

end ClientState

namespace Client

def raises (c c' : Client) : Bool :=
  match c.reactor, c'.reactor with
  | some s, some t => s.raises t
  | _, _ => false

def submits (c c' : Client) : List NetworkEvent :=
  match c.reactor, c'.reactor with
  | some s, some t => s.submits t
  | _, _ => []

/-- `SetConnection` has set the connection and has still to submit `kConnected`. -/
def Announcing (c : Client) : Prop :=
  ∃ s, c.reactor = some s ∧ ∃ fd peer, .setting fd peer .connecting ∈ s.owners

def Overtakes (c c' : Client) : Prop :=
  c.Announcing ∧ ∃ event ∈ c.submits c', event.isConnected = false

/-- There is no connection, nobody is in `SetConnection` after that has set one or in
`RemoveConnection`, and neither `GracefulShutdown` nor `Disconnect` is stopping the reactor. -/
structure Unconnected (c : Client) : Prop where
  reactor : ∀ s, c.reactor = some s → s.reactor.hasConnection = false ∧ ¬s.loop.Owes
  announced : ¬c.Announcing
  calls : ∀ graceful, c.call ≠ .stopping graceful ∧ c.call ≠ .draining graceful ∧
    c.call ≠ .storing graceful

end Client

def submittingClients : TransitionSystem (Client × Submissions) :=
  clients.withAuxiliary {} fun c c' submissions =>
    { connections := submissions.connections + (c.raises c').toNat
      events := submissions.events ++ (c.submits c').map (Prod.mk submissions.connections) }

def Submissions.delivered (submissions : Submissions) (c : Client) : List (ℕ × NetworkEvent) :=
  submissions.events.take c.received.length

/-! ## What holds in every good run -/

/-- The events are in order so far, and will be. -/
structure Client.InOrder (c : Client) (submissions : Submissions) : Prop where
  announced : Announced submissions.events
  current : c.Announcing ∨ submissions.connections = 0 ∨
    ∃ event, (submissions.connections, event) ∈ submissions.events ∧ event.isConnected = true
  engaged : ∀ s, c.reactor = some s → s.reactor.hasConnection = true ∨ s.loop.Closes ∨
    s.loop.Owes ∨ s.loop.Reads → submissions.connections ≠ 0
  announcing : c.Announcing → ∀ s, c.reactor = some s →
    s.reactor.hasConnection = true ∨ s.loop.Owes
  settled : c.Unconnected → c.state.later c.events ≠ .connected

namespace Client

variable {c c' : Client} {s t : ClientSystem} {submissions : Submissions}

theorem submits_eq (hreactor : c.reactor = some s) (hreactor' : c'.reactor = some t) :
    c.submits c' = s.submits t := by
  rw [submits, hreactor, hreactor']

theorem raises_eq (hreactor : c.reactor = some s) (hreactor' : c'.reactor = some t) :
    c.raises c' = s.raises t := by
  rw [raises, hreactor, hreactor']

theorem announcing_iff (hreactor : c.reactor = some s) :
    c.Announcing ↔ ∃ fd peer, .setting fd peer .connecting ∈ s.owners := by
  constructor
  · rintro ⟨s', hs', hannouncing⟩
    rw [hreactor] at hs'
    cases hs'
    exact hannouncing
  · exact fun hannouncing => ⟨s, hreactor, hannouncing⟩

theorem not_announcing_of_nil (h : ∀ s, c.reactor = some s → s.owners = []) : ¬c.Announcing := by
  rintro ⟨s, hs, fd, peer, hmem⟩
  rw [h s hs] at hmem
  cases hmem

/-- Outside `SetConnection` nobody has still to submit `kConnected`. -/
theorem Wired.not_announcing (h : c.Wired) (hcall : ∀ fd, c.call ≠ .setting fd) :
    ¬c.Announcing :=
  not_announcing_of_nil fun s hs => (attends_ordinary hcall).mp (h.owners s hs)

/-- How the reactor may change in a step that submits nothing and sets no connection. -/
structure Silent (c c' : Client) : Prop where
  submits : c.submits c' = []
  raises : c.raises c' = false
  reactor : ∀ t, c'.reactor = some t →
    (∃ s, c.reactor = some s ∧ t.reactor.hasConnection = s.reactor.hasConnection ∧
      t.loop = s.loop) ∨ c.reactor = none ∧ t.reactor.hasConnection = false ∧ t.loop.IsPlain
  announcing : c'.Announcing ↔ c.Announcing

theorem Silent.of_same (h : c'.reactor = c.reactor) : c.Silent c' := by
  refine ⟨?_, ?_, fun t ht => .inl ⟨t, h ▸ ht, rfl, rfl⟩, ?_⟩
  · cases hreactor : c.reactor with
    | none => rw [Client.submits, hreactor]
    | some s => exact (submits_eq hreactor (h.trans hreactor)).trans (ClientSystem.submits_same rfl)
  · cases hreactor : c.reactor with
    | none => rw [Client.raises, hreactor]
    | some s =>
      rw [raises_eq hreactor (h.trans hreactor), ClientSystem.raises]
      cases s.reactor.hasConnection <;> rfl
  · rw [Announcing, Announcing, h]

theorem Silent.of_reactor (hreactor : c.reactor = some s) (hreactor' : c'.reactor = some t)
    (hlog : t.reactor.log = s.reactor.log)
    (hhas : t.reactor.hasConnection = s.reactor.hasConnection) (hloop : t.loop = s.loop)
    (hannouncing : c'.Announcing ↔ c.Announcing) : c.Silent c' := by
  refine ⟨(submits_eq hreactor hreactor').trans (ClientSystem.submits_same hlog), ?_,
    fun t' ht' => ?_, hannouncing⟩
  · rw [raises_eq hreactor hreactor', ClientSystem.raises, hhas]
    cases s.reactor.hasConnection <;> rfl
  · rw [hreactor'] at ht'
    cases ht'
    exact .inl ⟨s, hreactor, hhas, hloop⟩

theorem Silent.of_new (hreactor : c.reactor = none) (hreactor' : c'.reactor = some t)
    (howners : t.owners = []) (hhas : t.reactor.hasConnection = false) (hloop : t.loop.IsPlain) :
    c.Silent c' := by
  refine ⟨by rw [Client.submits, hreactor], by rw [Client.raises, hreactor], fun t' ht' => ?_, ?_⟩
  · rw [hreactor'] at ht'
    cases ht'
    exact .inr ⟨hreactor, hhas, hloop⟩
  · refine iff_of_false (not_announcing_of_nil fun t' ht' => ?_)
      (not_announcing_of_nil fun s hs => ?_)
    · rw [hreactor'] at ht'
      cases ht'
      exact howners
    · rw [hreactor] at hs
      cases hs

theorem Silent.of_gone (hreactor' : c'.reactor = none) (hannouncing : ¬c.Announcing) :
    c.Silent c' := by
  have hvacuous {t : ClientSystem} (ht : c'.reactor = some t) : False := by
    rw [hreactor'] at ht
    cases ht
  refine ⟨?_, ?_, fun t ht => (hvacuous ht).elim, ?_⟩
  · rw [Client.submits, hreactor']
    cases c.reactor <;> rfl
  · rw [Client.raises, hreactor']
    cases c.reactor <;> rfl
  · exact iff_of_false (not_announcing_of_nil fun t ht => (hvacuous ht).elim) hannouncing

/-- A silent step. -/
theorem InOrder.silent (h : c.InOrder submissions) (hsilent : c.Silent c')
    (hsettled : c'.Unconnected → c'.state.later c'.events ≠ .connected) :
    c'.InOrder {
      connections := submissions.connections + (c.raises c').toNat
      events := submissions.events ++ (c.submits c').map (Prod.mk submissions.connections) } := by
  rw [hsilent.submits, hsilent.raises, List.map_nil, List.append_nil]
  refine ⟨h.announced, ?_, fun t ht hengaged => ?_,
    fun hannouncing t ht => ?_, hsettled⟩
  · rw [hsilent.announcing]
    exact h.current
  · rcases hsilent.reactor t ht with ⟨s, hs, hhas, hloop⟩ | ⟨-, hhas, hloop⟩
    · rw [hhas, hloop] at hengaged
      exact h.engaged s hs hengaged
    · rcases hengaged with hhas' | hcloses | howes | hreads
      · exact absurd hhas' (Bool.eq_false_iff.mp hhas)
      · exact absurd hcloses hloop.not_closes
      · exact absurd howes hloop.not_owes
      · exact absurd hreads hloop.not_reads
  · have hbefore := hsilent.announcing.mp hannouncing
    rcases hsilent.reactor t ht with ⟨s, hs, hhas, hloop⟩ | ⟨hnone, -, -⟩
    · rw [hhas, hloop]
      exact h.announcing hbefore s hs
    · obtain ⟨s, hs, -⟩ := hbefore
      rw [hnone] at hs
      cases hs

theorem Silent.unconnected (h : c.Silent c') (hreactor : c.reactor.isSome → c'.reactor.isSome)
    (hcalls : ∀ graceful, c.call ≠ .stopping graceful ∧ c.call ≠ .draining graceful ∧
      c.call ≠ .storing graceful) (hafter : c'.Unconnected) : c.Unconnected := by
  refine ⟨fun s hs => ?_, fun hannouncing => hafter.announced (h.announcing.mpr hannouncing),
    hcalls⟩
  obtain ⟨t, ht⟩ := Option.isSome_iff_exists.mp (hreactor (hs ▸ rfl))
  obtain ⟨hhas', howes'⟩ := hafter.reactor t ht
  rcases h.reactor t ht with ⟨s', hs', hhas, hloop⟩ | ⟨hnone, -, -⟩
  · rw [hs] at hs'
    cases hs'
    exact ⟨hhas ▸ hhas', hloop ▸ howes'⟩
  · rw [hnone] at hs
    cases hs

theorem InOrder.goesOn (h : c.InOrder submissions) (hsilent : c.Silent c')
    (hevents : c'.events = c.events)
    (hreactor : c.reactor.isSome → c'.reactor.isSome)
    (hcalls : ∀ graceful, c.call ≠ .stopping graceful ∧ c.call ≠ .draining graceful ∧
      c.call ≠ .storing graceful)
    (hstate : c'.state = c.state ∨ c'.state ≠ .connected) :
    c'.InOrder {
      connections := submissions.connections + (c.raises c').toNat
      events := submissions.events ++ (c.submits c').map (Prod.mk submissions.connections) } := by
  refine h.silent hsilent fun hunconnected => ?_
  have hbefore := h.settled (hsilent.unconnected hreactor hcalls hunconnected)
  rw [hevents]
  rcases hstate with hsame | hnot
  · exact hsame ▸ hbefore
  · exact ClientState.later_ne_connected hbefore hnot

/-! ## Inside the reactor -/

/-- What is to be shown of a step inside the reactor. -/
theorem InOrder.reacted (hreactor : c.reactor = some s)
    {events : List NetworkEvent} {raised : ℕ} (hevents : s.submits t = events)
    (hraised : (s.raises t).toNat = raised)
    (hannounced : Announced
      (submissions.events ++ events.map (Prod.mk submissions.connections)))
    (hcurrent : (∃ fd peer, .setting fd peer .connecting ∈ t.owners) ∨
      submissions.connections + raised = 0 ∨
      ∃ event, (submissions.connections + raised, event) ∈
        submissions.events ++ events.map (Prod.mk submissions.connections) ∧
        event.isConnected = true)
    (hengaged : t.reactor.hasConnection = true ∨ t.loop.Closes ∨ t.loop.Owes ∨ t.loop.Reads →
      submissions.connections + raised ≠ 0)
    (hannouncing : (∃ fd peer, .setting fd peer .connecting ∈ t.owners) →
      t.reactor.hasConnection = true ∨ t.loop.Owes)
    (hsettled : (c.react s t).Unconnected → c.state.later (c.events ++ events) ≠ .connected) :
    (c.react s t).InOrder {
      connections := submissions.connections + (c.raises (c.react s t)).toNat
      events := submissions.events ++
        (c.submits (c.react s t)).map (Prod.mk submissions.connections) } := by
  have hafter : (c.react s t).reactor = some t := rfl
  rw [submits_eq hreactor hafter, raises_eq hreactor hafter, hevents, hraised]
  have hiff := announcing_iff hafter
  refine ⟨hannounced, hcurrent.imp_left hiff.mpr, fun t' ht' => ?_, fun hann t' ht' => ?_, ?_⟩
  · cases ht'
    exact hengaged
  · cases ht'
    exact hannouncing (hiff.mp hann)
  · rw [← hevents] at hsettled
    exact hsettled

/-- Nobody but `SetConnection` submits while `kConnected` has still to be submitted, so that it
has been submitted when somebody else does. -/
theorem InOrder.announces (h : c.InOrder submissions) (hnot : ¬c.Announcing)
    (hengaged : submissions.connections ≠ 0) :
    ∃ event, (submissions.connections, event) ∈ submissions.events ∧ event.isConnected = true :=
  (h.current.resolve_left hnot).resolve_left hengaged

/-- A step of `SetConnection`. -/
theorem InOrder.sets (h : c.InOrder submissions) (hreactor : c.reactor = some s) {fd : ℤ}
    {peer : SockAddr} {phase phase' : Setting} (howners : s.owners = [.setting fd peer phase])
    (howners' : t.owners = [.setting fd peer phase']) (hloop : t.loop = s.loop)
    (hnone : phase.isUndone = true → s.reactor.hasConnection = false)
    (hturn : s.SettingTurn t fd phase phase') :
    (c.react s t).InOrder {
      connections := submissions.connections + (c.raises (c.react s t)).toNat
      events := submissions.events ++
        (c.submits (c.react s t)).map (Prod.mk submissions.connections) } := by
  have hiff := announcing_iff hreactor
  have hafter : (c.react s t).reactor = some t := rfl
  have hnil : Announced
      (submissions.events ++ ([] : List NetworkEvent).map (Prod.mk submissions.connections)) := by
    rw [List.map_nil, List.append_nil]
    exact h.announced
  have hphase {phase : Setting} (hphase : phase ≠ .connecting) :
      ¬∃ fd' peer', ConnectionCaller.setting fd' peer' .connecting ∈
        [ConnectionCaller.setting fd peer phase] := by
    rintro ⟨fd', peer', hmem⟩
    cases List.mem_singleton.mp hmem
    exact hphase rfl
  -- `SetConnection` goes on without setting the connection.
  have hwaits (hhas : t.reactor.hasConnection = s.reactor.hasConnection)
      (hsubmits : s.submits t = []) (hbefore : phase ≠ .connecting)
      (hafter' : phase' ≠ .connecting) :
      (c.react s t).InOrder {
        connections := submissions.connections + (c.raises (c.react s t)).toNat
        events := submissions.events ++
          (c.submits (c.react s t)).map (Prod.mk submissions.connections) } := by
    have hnot : ¬c.Announcing := by
      rw [hiff, howners]
      exact hphase hbefore
    have hzero : (s.raises t).toNat = 0 := by
      rw [ClientSystem.raises, hhas]
      cases s.reactor.hasConnection <;> rfl
    refine InOrder.reacted hreactor hsubmits hzero hnil (.inr ?_) ?_ (fun hannouncing => ?_)
      fun hunconnected => ?_
    · rw [List.map_nil, List.append_nil]
      exact h.current.resolve_left hnot
    · rw [hhas, hloop]
      exact h.engaged s hreactor
    · rw [howners'] at hannouncing
      exact absurd hannouncing (hphase hafter')
    · obtain ⟨hhas', howes'⟩ := hunconnected.reactor t hafter
      rw [List.append_nil]
      refine h.settled ⟨fun s' hs' => ?_, hnot, hunconnected.calls⟩
      rw [hreactor] at hs'
      cases hs'
      exact ⟨hhas ▸ hhas', hloop ▸ howes'⟩
  cases hturn with
  | prepares hbefore hafter' hhas hsubmits =>
    have hpending {setting : Setting} (hsetting : setting.IsPending) : setting ≠ .connecting := by
      rintro rfl
      exact hsetting
    exact hwaits hhas hsubmits (hpending hbefore) (hpending hafter'.1)
  | rejects hbefore hhas hsubmits =>
    refine hwaits hhas hsubmits ?_ (by simp)
    rcases hbefore with ⟨rfl, -⟩ | rfl <;> simp
  | raises hhas hsubmits =>
    have hraised : (s.raises t).toNat = 1 := by
      rw [ClientSystem.raises, hnone rfl, hhas]
      rfl
    refine InOrder.reacted hreactor hsubmits hraised hnil (.inl ⟨fd, peer, ?_⟩)
      (fun _ => Nat.succ_ne_zero _) (fun _ => .inl hhas)
      fun hunconnected => absurd hhas (Bool.eq_false_iff.mp (hunconnected.reactor t hafter).1)
    rw [howners']
    exact List.mem_singleton_self _
  | announces hhas hsubmits =>
    obtain ⟨id, peer', hsubmits⟩ := hsubmits
    have hannouncing : c.Announcing := by
      rw [hiff, howners]
      exact ⟨fd, peer, List.mem_singleton_self _⟩
    have hzero : (s.raises t).toNat = 0 := by
      rw [ClientSystem.raises, hhas]
      cases s.reactor.hasConnection <;> rfl
    have hthere := h.announcing hannouncing s hreactor
    refine InOrder.reacted hreactor hsubmits hzero ?_
      (.inr (.inr ⟨.connected id peer', ?_, rfl⟩)) ?_
      (fun hannouncing' => ?_) fun hunconnected => ?_
    · exact h.announced.snoc fun hconnected => by cases hconnected
    · exact List.mem_append_right _ (List.mem_singleton_self _)
    · rw [hhas, hloop]
      exact h.engaged s hreactor
    · rw [howners'] at hannouncing'
      exact absurd hannouncing' (hphase (by simp))
    · obtain ⟨hhas', howes'⟩ := hunconnected.reactor t hafter
      rw [← hhas, ← hloop] at hthere
      rcases hthere with hthere | howes
      · exact absurd hthere (Bool.eq_false_iff.mp hhas')
      · exact absurd howes howes'
  | waits hreactor' =>
    exact hwaits (hreactor' ▸ rfl)
      (ClientSystem.submits_same (congrArg ClientReactor.log hreactor'))
      (by simp) (by simp)

theorem InOrder.reacts (h : c.InOrder submissions) (hwired : c.Wired)
    (hreactor : c.reactor = some s)
    (hhoused : s.Housed) (hinner : s.Inner t) (hgood : ¬c.Overtakes (c.react s t)) :
    (c.react s t).InOrder {
      connections := submissions.connections + (c.raises (c.react s t)).toNat
      events := submissions.events ++
        (c.submits (c.react s t)).map (Prod.mk submissions.connections) } := by
  have hattends := hwired.owners s hreactor
  obtain ⟨hlone, hremoveless⟩ := hattends.lone
  have hone : s.connections ≤ 1 := (connections_le hreactor).trans hwired.one
  have hturn := hinner.turn hlone hhoused.returns hhoused.pool
  have hafter : (c.react s t).reactor = some t := rfl
  have hiff := announcing_iff hreactor
  have hengaged := h.engaged s hreactor
  -- An event other than `kConnected` is submitted only when nobody has still to announce.
  have hquiet {event : NetworkEvent} (hsubmits : s.submits t = [event])
      (hevent : event.isConnected = false) : ¬c.Announcing := by
    refine fun hannouncing => hgood ⟨hannouncing, event, ?_, hevent⟩
    rw [submits_eq hreactor hafter, hsubmits]
    exact List.mem_singleton_self event
  have hraises (hhas : t.reactor.hasConnection = true → s.reactor.hasConnection = true) :
      (s.raises t).toNat = 0 := by
    rw [ClientSystem.raises]
    cases hs : s.reactor.hasConnection with
    | true => rfl
    | false =>
      cases ht : t.reactor.hasConnection with
      | false => rfl
      | true => exact absurd (hhas ht) (by simp [hs])
  have hsnoc {event : NetworkEvent} (hsubmits : s.submits t = [event])
      (hevent : event.isConnected = false) (hengaged : submissions.connections ≠ 0) :
      Announced (submissions.events ++ [event].map (Prod.mk submissions.connections)) :=
    h.announced.snoc fun _ => h.announces (hquiet hsubmits hevent) hengaged
  have hnil : Announced
      (submissions.events ++ ([] : List NetworkEvent).map (Prod.mk submissions.connections)) := by
    rw [List.map_nil, List.append_nil]
    exact h.announced
  have hcurrent {events : List NetworkEvent} (howners : t.owners = s.owners) :
      (∃ fd peer, .setting fd peer .connecting ∈ t.owners) ∨ submissions.connections + 0 = 0 ∨
        ∃ event, (submissions.connections + 0, event) ∈
          submissions.events ++ events.map (Prod.mk submissions.connections) ∧
          event.isConnected = true := by
    rw [howners, ← hiff]
    refine h.current.imp_right (Or.imp_right ?_)
    rintro ⟨event, hmem, hevent⟩
    exact ⟨event, List.mem_append_left _ hmem, hevent⟩
  have hbefore (howners : t.owners = s.owners) (hhas : t.reactor.hasConnection =
      s.reactor.hasConnection) (howes : t.loop.Owes ↔ s.loop.Owes)
      (hunconnected : (c.react s t).Unconnected) : c.Unconnected := by
    obtain ⟨hhas', howes'⟩ := hunconnected.reactor t hafter
    refine ⟨fun s' hs' => ?_, fun hannouncing => hunconnected.announced ?_, hunconnected.calls⟩
    · rw [hreactor] at hs'
      cases hs'
      exact ⟨hhas ▸ hhas', fun hs => howes' (howes.mpr hs)⟩
    · rw [announcing_iff hafter, howners, ← hiff]
      exact hannouncing
  cases hturn with
  | rests hhas howners hcloses howes hreads hsubmits =>
    have hzero := hraises fun ht => hhas ▸ ht
    have hengaged' : t.reactor.hasConnection = true ∨ t.loop.Closes ∨ t.loop.Owes ∨ t.loop.Reads →
        submissions.connections + 0 ≠ 0 := by
      rw [hhas, hcloses, howes]
      rintro (hhas' | hcloses' | howes' | hreads')
      · exact hengaged (.inl hhas')
      · exact hengaged (.inr (.inl hcloses'))
      · exact hengaged (.inr (.inr (.inl howes')))
      · rcases hreads hreads' with hreads' | hhas'
        · exact hengaged (.inr (.inr (.inr hreads')))
        · exact hengaged (.inl hhas')
    have hannouncing : (∃ fd peer, .setting fd peer .connecting ∈ t.owners) →
        t.reactor.hasConnection = true ∨ t.loop.Owes := by
      rw [howners, hhas, howes, ← hiff]
      exact fun hannouncing => h.announcing hannouncing s hreactor
    rcases hsubmits with hnone | ⟨hreading, id, payload, hdata⟩
    · refine InOrder.reacted hreactor hnone hzero hnil (hcurrent howners) hengaged' hannouncing
        fun hunconnected => ?_
      rw [List.append_nil]
      exact h.settled (hbefore howners hhas howes hunconnected)
    · refine InOrder.reacted hreactor hdata hzero
        (hsnoc hdata rfl (hengaged (.inr (.inr (.inr hreading))))) (hcurrent howners) hengaged'
        hannouncing fun hunconnected => ?_
      rw [ClientState.later_snoc]
      exact h.settled (hbefore howners hhas howes hunconnected)
  | begins hhas hreactor' howners hbefore' hafter' =>
    have hhas' : t.reactor.hasConnection = true := hreactor' ▸ hhas
    exact InOrder.reacted hreactor
      (ClientSystem.submits_same (congrArg ClientReactor.log hreactor'))
      (hraises fun _ => hhas) hnil (hcurrent howners) (fun _ => hengaged (.inl hhas))
      (fun _ => .inl hhas')
      fun hunconnected => absurd hhas' (Bool.eq_false_iff.mp (hunconnected.reactor t hafter).1)
  | clears hhas howners hbefore' hafter' hsubmits =>
    exact InOrder.reacted hreactor hsubmits
      (hraises fun ht => absurd ht (Bool.eq_false_iff.mp hhas))
      hnil (hcurrent howners) (fun _ => hengaged (.inr (.inl hbefore'.1)))
      (fun _ => .inr hafter'.2.1)
      fun hunconnected => absurd hafter'.2.1 (hunconnected.reactor t hafter).2
  | tells hhas howners hbefore' hafter' hsubmits =>
    obtain ⟨id, hsubmits⟩ := hsubmits
    have hset := hengaged (.inr (.inr (.inl hbefore')))
    refine InOrder.reacted hreactor hsubmits (hraises fun ht => hhas ▸ ht) (hsnoc hsubmits rfl hset)
      (hcurrent howners) (fun _ => hset) (fun hannouncing => ?_) fun _ => ?_
    · rw [howners, ← hiff] at hannouncing
      exact absurd hannouncing (hquiet hsubmits rfl)
    · rw [ClientState.later_snoc]
      simp [NetworkEvent.state]
  | @sets env fd peer phase howners ht =>
    have hsetting := ClientSystem.Turn.setting env howners ht hone hremoveless hhoused.pool
      hinner.accepted
    exact h.sets hreactor howners (congrArg ClientSystem.owners ht) (by rw [ht])
      (fun hundone => (ClientSystem.finds_none hone howners hundone).1) hsetting
  | ends hhas howners hloop hsubmits hstopping =>
    obtain ⟨graceful, hcall⟩ := (hwired.stopping s hreactor).resolve_left (by simp [hstopping])
    have hnot : ¬c.Announcing := hwired.not_announcing (by simp [hcall])
    refine InOrder.reacted hreactor hsubmits (hraises hhas) hnil (hcurrent howners) ?_
      (fun hannouncing => ?_) fun hunconnected => absurd hcall (hunconnected.calls graceful).1
    · rw [hloop]
      exact fun hafter' => hengaged (hafter'.imp_left hhas)
    · rw [howners, ← hiff] at hannouncing
      exact absurd hannouncing hnot

end Client

open Client in
theorem Client.Step.inOrder {c c' : Client} {submissions : Submissions} (hstep : Client.Step c c')
    (h : c.InOrder submissions) (hwired : c.Wired) (hhoused : ∀ s, c.reactor = some s → s.Housed)
    (hgood : ¬c.Overtakes c') :
    c'.InOrder {
      connections := submissions.connections + (c.raises c').toNat
      events := submissions.events ++ (c.submits c').map (Prod.mk submissions.connections) } := by
  -- A step that leaves the reactor alone.
  have hkeeps {c' : Client} (hkeeps : c.Keeps c') (hcall : c.call.IsOrdinary)
      (hstate : c'.state = c.state ∨ c'.state ≠ .connected) :
      c'.InOrder {
        connections := submissions.connections + (c.raises c').toNat
        events := submissions.events ++ (c.submits c').map (Prod.mk submissions.connections) } := by
    refine h.goesOn (.of_same hkeeps.reactor) hkeeps.events
      (hkeeps.reactor ▸ id) (fun graceful => ⟨?_, ?_, ?_⟩) hstate <;>
    · intro heq
      rw [heq] at hcall
      exact hcall
  have hsame {c' : Client} (hreactor : c'.reactor = c.reactor) (hevents : c'.events = c.events)
      (hcall : c'.call = c.call) (hstate : c'.state = c.state) :
      c'.InOrder {
        connections := submissions.connections + (c.raises c').toNat
        events := submissions.events ++ (c.submits c').map (Prod.mk submissions.connections) } := by
    have hsilent : c.Silent c' := .of_same hreactor
    refine h.silent hsilent fun hunconnected => ?_
    rw [hevents, hstate]
    exact h.settled (hsilent.unconnected (hreactor ▸ id) (hcall ▸ hunconnected.calls) hunconnected)
  -- The calls that do not let the connection rest.
  have hbusy {c' : Client} {graceful : Bool} (hcall : c'.call = .stopping graceful ∨
      c'.call = .draining graceful ∨ c'.call = .storing graceful) (hunconnected : c'.Unconnected) :
      False := by
    obtain ⟨hstopping, hdraining, hstoring⟩ := hunconnected.calls graceful
    rcases hcall with hcall | hcall | hcall
    · exact hstopping hcall
    · exact hdraining hcall
    · exact hstoring hcall
  cases hstep with
  | refuse hcall => exact hkeeps ⟨rfl, rfl, rfl⟩ (hcall ▸ trivial) (.inl rfl)
  | openSocket fd addr hfd hcall => exact hkeeps ⟨rfl, rfl, rfl⟩ (hcall ▸ trivial) (.inl rfl)
  | exchange hcall =>
    exact hkeeps (exchange_keeps _ _ c) (hcall ▸ trivial) (.inr (by simp [exchange_state]))
  | connect success hcall =>
    exact hkeeps (connect_keeps _ _ success c) (hcall ▸ trivial) (.inl (connect_state _ _ _ c))
  | initReactor success hcall =>
    exact hkeeps (initReactor_keeps _ success c) (hcall ▸ trivial)
      (.inl (initReactor_state _ _ c))
  | startReactor fds hcall =>
    exact h.goesOn (.of_new (hwired.starting _ hcall) rfl rfl rfl trivial) rfl (fun _ => rfl)
      (fun graceful => by simp [hcall]) (.inl rfl)
  | startFails kqueueOpen hcall =>
    exact h.goesOn (.of_new (hwired.starting _ hcall) rfl rfl rfl trivial) rfl (fun _ => rfl)
      (fun graceful => by simp [hcall]) (.inl rfl)
  | setConnection hreactor hcall =>
    have hnot : ¬c.Announcing := hwired.not_announcing (by simp [hcall])
    have howners := (attends_ordinary (by simp [hcall])).mp (hwired.owners _ hreactor)
    refine h.goesOn (.of_reactor hreactor rfl rfl rfl rfl (iff_of_false ?_ hnot)) rfl
      (fun _ => rfl) (fun graceful => by simp [hcall]) (.inl rfl)
    rw [announcing_iff rfl, howners]
    rintro ⟨fd, peer, hmem⟩
    cases List.mem_singleton.mp hmem
  | @setConnectionReturned s fd peer success before after hreactor howners hcall =>
    have hattends := hwired.owners s hreactor
    rw [Attends, hcall] at hattends
    obtain ⟨peer', phase, hone, -⟩ := hattends
    obtain ⟨rfl, rfl⟩ : before = [] ∧ after = [] :=
      ClientSystem.eq_singleton (by simp [hone]) howners
    have hafter := afterSetConnection_keeps fd success
      { c with reactor := some { s with owners := [] ++ [] } }
    have hreactor' : (Client.afterSetConnection fd success
        { c with reactor := some { s with owners := [] ++ [] } }).reactor =
        some { s with owners := [] ++ [] } := hafter.reactor
    refine h.goesOn (.of_reactor hreactor hreactor' rfl rfl rfl (iff_of_false ?_ ?_)) hafter.events
      (fun _ => Option.isSome_iff_exists.mpr ⟨_, hreactor'⟩)
      (fun graceful => by simp [hcall]) (.inl (afterSetConnection_state fd success _))
    · rw [announcing_iff hreactor']
      rintro ⟨fd', peer'', hmem⟩
      cases hmem
    · rw [announcing_iff hreactor, howners]
      rintro ⟨fd', peer'', hmem⟩
      cases List.mem_singleton.mp hmem
  | fail hcall => exact hkeeps ⟨rfl, rfl, rfl⟩ (hcall ▸ trivial) (.inr (by simp))
  | connectReturned hcall => exact hkeeps ⟨rfl, rfl, rfl⟩ (hcall ▸ trivial) (.inl rfl)
  | shutDown timeout hcall => exact hkeeps ⟨rfl, rfl, rfl⟩ (hcall ▸ trivial) (.inl rfl)
  | swap hcall =>
    refine hkeeps (swap_keeps _ c) (hcall ▸ trivial) ((swap_state _ c).imp_right fun hclosing => ?_)
    simp [hclosing]
  | poll elapsed hcall =>
    exact hkeeps (poll_keeps _ elapsed c) (hcall ▸ trivial) (.inl (poll_state _ _ c))
  | stop hreactor hrunning hcall =>
    exact h.silent (.of_reactor hreactor rfl rfl rfl rfl
      (by rw [announcing_iff hreactor, announcing_iff rfl]))
      fun hunconnected => (hbusy (.inl rfl) hunconnected).elim
  | reset hreactor hcall =>
    exact h.silent (.of_gone rfl (hwired.not_announcing (by simp [hcall])))
      fun hunconnected => (hbusy (.inr (.inl rfl)) hunconnected).elim
  | stopped hreactor hstopped hcall =>
    exact h.silent (.of_gone rfl (hwired.not_announcing (by simp [hcall])))
      fun hunconnected => (hbusy (.inr (.inl rfl)) hunconnected).elim
  | drained hevents hcall =>
    exact h.silent (.of_same rfl)
      fun hunconnected => (hbusy (.inr (.inr rfl)) hunconnected).elim
  | @finish graceful hcall =>
    refine h.silent (.of_same rfl) fun _ => ?_
    have hevents : (c.finish graceful).events = [] := by
      refine (hwired.absent (hwired.gone graceful (.inr hcall))).resolve_right ?_
      simp [hcall]
    rw [hevents]
    rintro ⟨⟩
  | shutdownReturned hcall => exact hkeeps ⟨rfl, rfl, rfl⟩ (hcall ▸ trivial) (.inl rfl)
  | @deliver event rest hevents =>
    have hafter := onNetworkEvent_keeps event c
    have hsilent : c.Silent (c.deliver event rest) := .of_same hafter.reactor
    have hcall : (c.deliver event rest).call = c.call := by cases event <;> rfl
    have hstate : (c.deliver event rest).state = event.state c.state := by cases event <;> rfl
    refine h.silent hsilent fun hunconnected => ?_
    have hbefore := h.settled (hsilent.unconnected (fun hsome => hafter.reactor ▸ hsome)
      (hcall ▸ hunconnected.calls) hunconnected)
    rw [hevents] at hbefore
    rw [hstate]
    exact hbefore
  | sendData data hconnected hreactor => exact hsame rfl rfl rfl rfl
  | sendAsync data callback hconnected hreactor => exact hsame rfl rfl rfl rfl
  | measure hreactor hsenders => exact hsame rfl rfl rfl rfl
  | requestRefused hreactor hsenders hrequest => exact hsame rfl rfl rfl rfl
  | @request s req op before after hreactor hsenders hsized hrequest =>
    have hsilent : c.Silent { c with
        reactor := some { s with
          callers := .enqueueing op :: s.callers
          nextPromise := s.nextPromise + 1 }
        senders := before ++ after } :=
      .of_reactor hreactor rfl rfl rfl rfl (by rw [announcing_iff hreactor, announcing_iff rfl])
    exact h.silent hsilent fun hunconnected =>
      h.settled (hsilent.unconnected (fun _ => rfl) hunconnected.calls hunconnected)
  | react hreactor hinner =>
    exact h.reacts hwired hreactor (hhoused _ hreactor) hinner hgood

theorem submittingClients_inOrder {states : List (Client × Submissions)}
    (hrun : submittingClients.Run states)
    (hgood : ∀ x y, [y, x] <:+: states → ¬x.1.Overtakes y.1) :
    ∀ x ∈ states, x.1.InOrder x.2 := by
  have hwired : ∀ x ∈ states, x.1.Wired := hrun.forget_invariant fun _ => clients_wired
  have hhoused : ∀ x ∈ states, ∀ s, x.1.reactor = some s → s.Housed :=
    hrun.forget_invariant fun _ => clients_housed
  have hsteps : ∀ x y, [y, x] <:+: states → x.1.Wired ∧
      (∀ s, x.1.reactor = some s → s.Housed) ∧ ¬x.1.Overtakes y.1 := by
    intro x y hxy
    have hx : x ∈ states := hxy.mem (by simp)
    exact ⟨hwired x hx, hhoused x hx, hgood x y hxy⟩
  refine hrun.invariant_along ?_ ?_ hsteps
  · rintro ⟨c, submissions⟩ ⟨hc, hsubmissions⟩
    dsimp only at hc hsubmissions
    obtain rfl : c = {} := hc
    rw [hsubmissions]
    have hnone : ¬(({} : Client).Announcing) :=
      Client.not_announcing_of_nil fun s hs => (Option.some_ne_none s hs.symm).elim
    refine ⟨fun before n event after heq => ?_, .inr (.inl rfl),
      fun s hs => (Option.some_ne_none s hs.symm).elim, fun hannouncing => (hnone hannouncing).elim,
      fun _ => nofun⟩
    exact absurd heq.symm (by simp)
  · rintro ⟨c, submissions⟩ ⟨c', submissions'⟩ h ⟨hstep, hsubmissions⟩ ⟨hwired, hhoused, hgood⟩
    dsimp only at hstep hsubmissions
    rw [hsubmissions]
    exact Client.Step.inOrder hstep h hwired hhoused hgood

/-! ## What is delivered -/

open Client in
/-- What is submitted is delivered or waits for the worker. -/
theorem Client.Step.delivers {c c' : Client} (hstep : Client.Step c c') :
    c'.received ++ c'.events = c.received ++ c.events ++ c.submits c' := by
  have hquiet {c' : Client} (hsubmits : c.submits c' = [])
      (hkeeps : c'.received ++ c'.events = c.received ++ c.events) :
      c'.received ++ c'.events = c.received ++ c.events ++ c.submits c' := by
    rw [hsubmits, List.append_nil, hkeeps]
  have hkeeps {c' : Client} (hkeeps : c.Keeps c') :
      c'.received ++ c'.events = c.received ++ c.events ++ c.submits c' :=
    hquiet (Silent.of_same hkeeps.reactor).submits (by rw [hkeeps.received, hkeeps.events])
  have hlog {c' : Client} {s t : ClientSystem} (hreactor : c.reactor = some s)
      (hreactor' : c'.reactor = some t) (hlog : t.reactor.log = s.reactor.log) :
      c.submits c' = [] :=
    (submits_eq hreactor hreactor').trans (ClientSystem.submits_same hlog)
  -- Nothing has been submitted to a new reactor.
  have hnew {c' : Client} {t : ClientSystem} (hreactor' : c'.reactor = some t)
      (hlog : t.reactor.log = []) : c.submits c' = [] := by
    cases hreactor : c.reactor with
    | none => rw [Client.submits, hreactor]
    | some s =>
      have hnothing : t.reactor.submitted = [] := by
        rw [ClientReactor.submitted, hlog]
        rfl
      rw [submits_eq hreactor hreactor', ClientSystem.submits, hnothing, List.drop_nil]
  have hgone {c' : Client} (hreactor' : c'.reactor = none) : c.submits c' = [] := by
    rw [Client.submits, hreactor']
    cases c.reactor <;> rfl
  cases hstep with
  | exchange hcall => exact hkeeps (exchange_keeps _ _ c)
  | connect success hcall => exact hkeeps (connect_keeps _ _ success c)
  | initReactor success hcall => exact hkeeps (initReactor_keeps _ success c)
  | startReactor fds hcall => exact hquiet (hnew rfl rfl) rfl
  | startFails kqueueOpen hcall => exact hquiet (hnew rfl rfl) rfl
  | setConnection hreactor hcall => exact hquiet (hlog hreactor rfl rfl) rfl
  | @setConnectionReturned s fd peer success before after hreactor howners hcall =>
    have hafter := afterSetConnection_keeps fd success
      { c with reactor := some { s with owners := before ++ after } }
    exact hquiet (hlog hreactor hafter.reactor rfl) (by rw [hafter.received, hafter.events])
  | swap hcall => exact hkeeps (swap_keeps _ c)
  | poll elapsed hcall => exact hkeeps (poll_keeps _ elapsed c)
  | stop hreactor hrunning hcall => exact hquiet (hlog hreactor rfl rfl) rfl
  | reset hreactor hcall => exact hquiet (hgone rfl) rfl
  | stopped hreactor hstopped hcall => exact hquiet (hgone rfl) rfl
  | @deliver event rest hevents =>
    have hdelivered : (c.deliver event rest).received ++ (c.deliver event rest).events =
        c.received ++ c.events := by
      rw [hevents]
      exact List.append_assoc c.received [event] rest
    exact hquiet (Silent.of_same (onNetworkEvent_keeps event c).reactor).submits hdelivered
  | request hreactor hsenders hsized hrequest => exact hquiet (hlog hreactor rfl rfl) rfl
  | @react s t hreactor hinner =>
    have hsubmits : c.submits (c.react s t) = s.submits t := submits_eq hreactor rfl
    rw [hsubmits]
    exact (List.append_assoc c.received c.events (s.submits t)).symm
  | _ => exact hkeeps ⟨rfl, rfl, rfl⟩

/-- What has been delivered is what was submitted first, in every run. -/
theorem submittingClients_delivered {states : List (Client × Submissions)}
    (hrun : submittingClients.Run states) :
    ∀ x ∈ states, (x.2.delivered x.1).map Prod.snd = x.1.received := by
  have hsubmitted : ∀ x ∈ states, x.2.events.map Prod.snd = x.1.received ++ x.1.events := by
    refine hrun.invariant ?_ ?_
    · rintro ⟨c, submissions⟩ ⟨hc, hsubmissions⟩
      dsimp only at hc hsubmissions
      obtain rfl : c = {} := hc
      rw [hsubmissions]
      rfl
    · rintro ⟨c, submissions⟩ ⟨c', submissions'⟩ h ⟨hstep, hsubmissions⟩
      dsimp only at h hstep hsubmissions ⊢
      have hsnd : ((c.submits c').map (Prod.mk submissions.connections)).map Prod.snd =
          c.submits c' := by simp
      rw [hsubmissions, List.map_append, hsnd, h]
      exact (Client.Step.delivers hstep).symm
  intro x hx
  rw [Submissions.delivered, List.map_take, hsubmitted x hx, List.take_left]

/-- While the loop submits nothing between the assignment to `has_connection_` in `SetConnection`
and the submission of `kConnected`, what has been delivered has for each connection `kConnected`
before everything else, and a client whose connection has been removed and whose events have been
delivered is not connected. -/
theorem client_events_in_order {states : List (Client × Submissions)}
    (hrun : submittingClients.Run states)
    (hgood : ∀ x y, [y, x] <:+: states → ¬x.1.Overtakes y.1) :
    ∀ x ∈ states, (x.2.delivered x.1).map Prod.snd = x.1.received ∧
      Announced (x.2.delivered x.1) ∧
      (x.1.Unconnected → x.1.events = [] → x.1.state ≠ .connected) := by
  intro x hx
  have h := submittingClients_inOrder hrun hgood x hx
  refine ⟨submittingClients_delivered hrun x hx, ?_, fun hunconnected hevents => ?_⟩
  · have hannounced := h.announced
    rw [← List.take_append_drop x.1.received.length x.2.events] at hannounced
    exact hannounced.left
  · have hsettled := h.settled hunconnected
    rw [hevents] at hsettled
    exact hsettled

/-! ## A first connection -/

/-- In `SetConnection`, before the submission of `kConnected`. -/
def ConnectionCaller.isAnnouncing : ConnectionCaller → Bool
  | .setting _ _ .connecting => true
  | _ => false

/-- Nothing has been submitted, and no connection has been set. -/
def Client.isBlank (c : Client) : Bool :=
  c.events.isEmpty &&
    match c.reactor, c.call with
    | none, .exchanging _ _ => c.state = .disconnected
    | none, _ => true
    | some _, .exchanging _ _ => false
    | some _, .initializing _ => false
    | some s, _ => !s.reactor.hasConnection && s.reactor.sendOperations.isEmpty &&
        !s.owners.any ConnectionCaller.isAnnouncing

theorem Client.not_announcing_of_isBlank {c : Client} (h : c.isBlank = true) : ¬c.Announcing := by
  rintro ⟨s, hs, fd, peer, hmem⟩
  have hany : s.owners.any ConnectionCaller.isAnnouncing = true :=
    List.any_eq_true.mpr ⟨_, hmem, rfl⟩
  unfold Client.isBlank at h
  rw [hs] at h
  cases hcall : c.call <;> simp [hcall, hany] at h

def samplePeer : SockAddr :=
  ⟨List.replicate 128 0⟩

/-- `SetConnection` for descriptor 5 stands at `phase`. -/
def sampleInside (r : ClientReactor) (phase : Setting) (loop : ClientLoop) : ClientSystem :=
  { reactor := r, owners := [.setting 5 samplePeer phase], loop := loop }

/-- `ConnectInternal` waits for `SetConnection`. -/
def sampleWaits (s : ClientSystem) (events : List NetworkEvent) : Client :=
  { workerPool := true
    reactor := some s
    state := .connecting
    call := .setting 5
    events := events
    log := [.opened 5] }

def sampleFresh : ClientReactor :=
  .started .workerPool ∅

/-- `ConnectInternal` is about to call `SetConnection`. -/
def sampleCalls : Client :=
  { sampleWaits { reactor := sampleFresh } [] with call := .calling 5 }

def sampleWatched : ClientReactor :=
  (sampleFresh.monitor sampleEnvironment 5 .addRead).2

def sampleJoined : ClientReactor :=
  (sampleWatched.setConnection sampleEnvironment 5 samplePeer .assigning).2

def sampleLive : ClientReactor :=
  { sampleJoined with hasConnection := true }

def ClientReactor.AcceptsAll (r : ClientReactor) : Prop :=
  ∀ event, .refused event ∉ r.log

theorem ClientReactor.AcceptsAll.cons {r r' : ClientReactor} {e : ClientEffect} (h : r.AcceptsAll)
    (hlog : r'.log = e :: r.log) (he : ∀ event, e ≠ .refused event) : r'.AcceptsAll := by
  intro event hmem
  rw [hlog] at hmem
  rcases List.mem_cons.mp hmem with heq | hold
  · exact he event heq.symm
  · exact h event hold

theorem sampleWaits_step {s t : ClientSystem} {events : List NetworkEvent}
    (hstep : ClientSystem.Step s t) (hcallers : t.callers = s.callers)
    (howners : t.owners.length = s.owners.length) (hstopping : t.stopping = s.stopping)
    (haccepted : t.reactor.AcceptsAll) :
    Client.Step (sampleWaits s events) (sampleWaits t (events ++ s.submits t)) :=
  .react rfl ⟨hstep, (congrArg List.length hcallers).le, howners, fun h => hstopping.trans h,
    haccepted⟩

theorem sampleInside_step {r : ClientReactor} (phase : Setting) (loop : ClientLoop)
    {events : List NetworkEvent}
    (haccepted : (r.setConnection sampleEnvironment 5 samplePeer phase).2.AcceptsAll) :
    Client.Step (sampleWaits (sampleInside r phase loop) events)
      (sampleWaits (sampleInside (r.setConnection sampleEnvironment 5 samplePeer phase).2
        (r.setConnection sampleEnvironment 5 samplePeer phase).1 loop)
        (events ++ (sampleInside r phase loop).submits
          (sampleInside (r.setConnection sampleEnvironment 5 samplePeer phase).2
            (r.setConnection sampleEnvironment 5 samplePeer phase).1 loop))) := by
  have howners : (sampleInside r phase loop).owners = [] ++ [.setting 5 samplePeer phase] := rfl
  exact sampleWaits_step (.setting sampleEnvironment howners) rfl rfl rfl haccepted

theorem sample_accepts : sampleFresh.AcceptsAll ∧ sampleWatched.AcceptsAll := by
  have hfresh : sampleFresh.AcceptsAll := fun _ => List.not_mem_nil
  exact ⟨hfresh, hfresh.cons rfl nofun⟩

/-- Descriptor 5 has become the connection, and `kConnected` has still to be submitted. -/
theorem sample_live {Good : Client → Client → Prop}
    (hgood : ∀ c c', clients.step c c' → c.isBlank = true → Good c c') :
    clients.Leads Good (sampleWaits (sampleInside sampleLive .connecting .top) []) := by
  obtain ⟨hfresh, hwatched⟩ := sample_accepts
  have hnext {c c' : Client} (h : clients.Leads Good c) (hstep : Client.Step c c')
      (hblank : c.isBlank = true) : clients.Leads Good c' :=
    h.next hstep (hgood c c' hstep hblank)
  have hstart : clients.Leads Good {} := .start rfl
  have hopened := hnext hstart (.openSocket 5 ⟨[]⟩ (by decide) rfl) rfl
  have hexchanged := hnext hopened (.exchange rfl) rfl
  have hconnected := hnext hexchanged (.connect true rfl) rfl
  have hpool := hnext hconnected (.initReactor true rfl) rfl
  have hstarted : clients.Leads Good sampleCalls := hnext hpool (.startReactor ∅ rfl) rfl
  have hcalled : clients.Leads Good (sampleWaits (sampleInside sampleFresh .entering .top) []) :=
    hnext hstarted (@Client.Step.setConnection sampleCalls { reactor := sampleFresh } 5 rfl rfl) rfl
  have hentered : clients.Leads Good (sampleWaits (sampleInside sampleFresh .checking .top) []) :=
    hnext hcalled (sampleInside_step _ _ hfresh) rfl
  have hchecked : clients.Leads Good (sampleWaits (sampleInside sampleFresh .monitoring .top) []) :=
    hnext hentered (sampleInside_step _ _ hfresh) rfl
  have hregistered : clients.Leads Good
      (sampleWaits (sampleInside sampleWatched .assigning .top) []) :=
    hnext hchecked (sampleInside_step _ _ hwatched) rfl
  have hassigned : clients.Leads Good (sampleWaits (sampleInside sampleJoined .raising .top) []) :=
    hnext hregistered (sampleInside_step _ _ hwatched) rfl
  exact hnext hassigned (sampleInside_step _ _ hwatched) rfl

/-- The loop goes from one point to the next while `SetConnection` stands still. -/
theorem sample_loops {Good : Client → Client → Prop} {r r' : ClientReactor} {phase : Setting}
    {loop loop' : ClientLoop} {events : List NetworkEvent}
    (h : clients.Leads Good (sampleWaits (sampleInside r phase loop) events))
    (hstep : ClientLoop.Step (r, loop) (r', loop')) (haccepted : r'.AcceptsAll)
    (hgood : Good (sampleWaits (sampleInside r phase loop) events)
      (sampleWaits (sampleInside r' phase loop')
        (events ++ (sampleInside r phase loop).submits (sampleInside r' phase loop')))) :
    clients.Leads Good (sampleWaits (sampleInside r' phase loop')
      (events ++ (sampleInside r phase loop).submits (sampleInside r' phase loop'))) :=
  h.next (sampleWaits_step (.loop hstep) rfl rfl rfl haccepted) hgood

/-- The loop has removed the connection, and `kDisconnected` is still to be dispatched. -/
def sampleDropped : ClientReactor :=
  ((sampleLive.closeFd 5).removeConnection sampleEnvironment .clearing).2

def sampleDeparted : ClientReactor :=
  (sampleDropped.removeConnection sampleEnvironment .disconnecting).2

def sampleLate : ClientReactor :=
  (sampleDeparted.setConnection sampleEnvironment 5 samplePeer .connecting).2

theorem early_disconnect_run : ∃ c, clients.Leads (fun _ _ => True) c ∧
    (∃ id peer, c.received = [.disconnected id, .connected id peer]) ∧ c.Unconnected ∧
      c.events = [] ∧ c.state = .connected := by
  have hlive : clients.Leads (fun _ _ => True) _ := sample_live fun _ _ _ _ => trivial
  have haccepts : sampleLive.AcceptsAll := sample_accepts.2
  have hclosed : (sampleLive.closeFd 5).AcceptsAll := haccepts.cons rfl nofun
  have hdeparted : sampleDeparted.AcceptsAll :=
    AcceptsAll.cons (r := sampleDropped) (e := .dispatched (.disconnected
      sampleLive.connection.connectionId)) hclosed rfl nofun
  have hlate : sampleLate.AcceptsAll :=
    hdeparted.cons (e := .dispatched (.connected sampleLive.connection.connectionId samplePeer))
      rfl nofun
  have hentered := sample_loops hlive (.enter rfl) haccepts trivial
  have hdrained := sample_loops hentered (.drained (.inr rfl)) haccepts trivial
  have hwoken := sample_loops hdrained (.woken [sampleEof] (by decide)) haccepts trivial
  have hhandled := sample_loops hwoken (.handle sampleEnvironment rfl) haccepts trivial
  have hbegun := sample_loops hhandled (.remove sampleEnvironment rfl) haccepts trivial
  have hclosing := sample_loops hbegun (.remove sampleEnvironment rfl) hclosed trivial
  have hcleared := sample_loops hclosing (.remove sampleEnvironment rfl) hclosed trivial
  have htold := sample_loops hcleared (.remove sampleEnvironment rfl) hdeparted trivial
  have hannounced := htold.next (sampleInside_step .connecting (.handling []) hlate) trivial
  have hfirst := hannounced.next (Client.Step.deliver rfl) trivial
  have hsecond := hfirst.next (Client.Step.deliver rfl) trivial
  refine ⟨_, hsecond, ⟨sampleLive.connection.connectionId, samplePeer, rfl⟩,
    ⟨fun s hs => ?_, ?_, fun graceful => ⟨nofun, nofun, nofun⟩⟩, rfl, rfl⟩
  · obtain rfl : sampleInside sampleLate (.returned true) (.handling []) = s := Option.some.inj hs
    exact ⟨rfl, not_false⟩
  · rintro ⟨s, hs, fd, peer, hmem⟩
    obtain rfl : sampleInside sampleLate (.returned true) (.handling []) = s := Option.some.inj hs
    cases List.mem_singleton.mp hmem

/-- `kDisconnected` is delivered before `kConnected`, and the client stays connected. -/
theorem disconnected_overtakes : ∃ states, submittingClients.Run states ∧ ∃ x ∈ states,
    (x.2.delivered x.1).map Prod.snd = x.1.received ∧ ¬Announced (x.2.delivered x.1) ∧
      x.1.Unconnected ∧ x.1.events = [] ∧ x.1.state = .connected := by
  obtain ⟨c, hleads, ⟨id, peer, hreceived⟩, hunconnected, hevents, hstate⟩ := early_disconnect_run
  obtain ⟨submissions, past, hrun, -⟩ := hleads.record
  have hdelivered := submittingClients_delivered hrun _ List.mem_cons_self
  refine ⟨_, hrun, _, List.mem_cons_self, hdelivered, fun hannounced => ?_, hunconnected, hevents,
    hstate⟩
  dsimp only at hdelivered
  rw [hreceived] at hdelivered
  obtain ⟨⟨n, event⟩, rest, heq, hevent, -⟩ := List.map_eq_cons_iff.mp hdelivered
  obtain rfl : event = .disconnected id := hevent
  obtain ⟨announcement, hmem, -⟩ := hannounced [] n (.disconnected id) rest heq rfl
  cases hmem

def sampleAnnounced : ClientReactor :=
  (sampleLive.setConnection sampleEnvironment 5 samplePeer .connecting).2

theorem sampleAnnounced_accepts : sampleAnnounced.AcceptsAll :=
  sample_accepts.2.cons (r := sampleWatched) (e := .dispatched (.connected
    sampleLive.connection.connectionId samplePeer)) rfl nofun

theorem sample_announced :
    clients.Leads (fun c c' => ¬c.Overtakes c')
      (sampleWaits (sampleInside sampleAnnounced (.returned true) .top)
        [.connected sampleLive.connection.connectionId samplePeer]) := by
  have hlive : clients.Leads (fun c c' => ¬c.Overtakes c') _ :=
    sample_live fun c c' _ hblank hovertakes => Client.not_announcing_of_isBlank hblank hovertakes.1
  refine hlive.next (sampleInside_step .connecting .top sampleAnnounced_accepts) ?_
  rintro ⟨-, event, hmem, hevent⟩
  obtain rfl : event = .connected sampleLive.connection.connectionId samplePeer :=
    List.mem_singleton.mp hmem
  cases hevent

theorem sampleInside_quiet {c c' : Client} {r : ClientReactor} {loop : ClientLoop}
    (h : c.reactor = some (sampleInside r (.returned true) loop)) : ¬c.Overtakes c' := by
  rintro ⟨⟨s, hs, fd, peer, hmem⟩, -⟩
  obtain rfl : sampleInside r (.returned true) loop = s := Option.some.inj (h.symm.trans hs)
  cases List.mem_singleton.mp hmem

/-- Two bytes have been received. -/
def sampleHeard : ClientReactor :=
  (sampleAnnounced.receive sampleEnvironment 5 (.received [1, 2] (by decide))).2

def sampleOver : ClientReactor :=
  let cleared := ((sampleHeard.closeFd 5).removeConnection sampleEnvironment .clearing).2
  (cleared.removeConnection sampleEnvironment .disconnecting).2

/-- The loop submits nothing before `kConnected`. Then it receives two bytes and the end, and
everything is delivered. -/
theorem client_events_in_order_first : ∃ x past,
    submittingClients.Run (x :: past) ∧ x.1.received =
        [.connected sampleLive.connection.connectionId samplePeer,
          .data sampleLive.connection.connectionId [1, 2],
          .disconnected sampleLive.connection.connectionId] ∧
      (x.2.delivered x.1).map Prod.snd = x.1.received ∧ Announced (x.2.delivered x.1) ∧
      x.1.state ≠ .connected := by
  have hannounced : sampleAnnounced.AcceptsAll := sampleAnnounced_accepts
  have hread : (sampleAnnounced.emit (.received 5 [1, 2])).AcceptsAll := hannounced.cons rfl nofun
  have hheard : sampleHeard.AcceptsAll :=
    hread.cons (e := .dispatched (.data sampleLive.connection.connectionId [1, 2])) rfl nofun
  have hclosed : (sampleHeard.closeFd 5).AcceptsAll := hheard.cons rfl nofun
  have hover : sampleOver.AcceptsAll :=
    hclosed.cons (e := .dispatched (.disconnected sampleLive.connection.connectionId)) rfl nofun
  have hentered := sample_loops sample_announced (.enter rfl) hannounced (sampleInside_quiet rfl)
  have hdrained := sample_loops hentered (.drained (.inr rfl)) hannounced (sampleInside_quiet rfl)
  have hwoken := sample_loops hdrained (.woken [{ ident := 5, filter := .read }] (by decide))
    hannounced (sampleInside_quiet rfl)
  have hreading := sample_loops hwoken (.handle sampleEnvironment rfl) hannounced
    (sampleInside_quiet rfl)
  have hreceived := sample_loops hreading
    (.receive sampleEnvironment (.received [1, 2] (by decide))) hheard (sampleInside_quiet rfl)
  have hended := sample_loops hreceived (.receive sampleEnvironment .closed) hheard
    (sampleInside_quiet rfl)
  have hbegun := sample_loops hended (.remove sampleEnvironment rfl) hheard (sampleInside_quiet rfl)
  have hclosing := sample_loops hbegun (.remove sampleEnvironment rfl) hclosed
    (sampleInside_quiet rfl)
  have hcleared := sample_loops hclosing (.remove sampleEnvironment rfl) hclosed
    (sampleInside_quiet rfl)
  have htold := sample_loops hcleared (.remove sampleEnvironment rfl) hover (sampleInside_quiet rfl)
  have hfirst := htold.next (Client.Step.deliver rfl) (sampleInside_quiet rfl)
  have hsecond := hfirst.next (Client.Step.deliver rfl) (sampleInside_quiet rfl)
  have hthird := hsecond.next (Client.Step.deliver rfl) (sampleInside_quiet rfl)
  obtain ⟨submissions, past, hrun, hgood⟩ := hthird.record
  obtain ⟨hdelivered, hinOrder, hsettled⟩ :=
    client_events_in_order hrun hgood _ List.mem_cons_self
  refine ⟨_, past, hrun, rfl, hdelivered, hinOrder, hsettled ⟨fun s hs => ?_, ?_, fun graceful =>
    ⟨nofun, nofun, nofun⟩⟩ rfl⟩
  · obtain rfl : sampleInside sampleOver (.returned true) (.handling []) = s := Option.some.inj hs
    exact ⟨rfl, not_false⟩
  · rintro ⟨s, hs, fd, peer, hmem⟩
    obtain rfl : sampleInside sampleOver (.returned true) (.handling []) = s := Option.some.inj hs
    cases List.mem_singleton.mp hmem

end DarwinCore.Network
