import DarwinCore.Verification.Network.Batches
import DarwinCore.Verification.Network.ClientDelivery

/-! # When the peer closes its side

`EV_EOF` is acted on before the bytes are read that arrived with it. They are lost in both
reactors; the end of the stream that `recv` tells loses nothing. -/

namespace DarwinCore.Network

open History Relation Streams

namespace ClientReactor

/-- An event makes the loop remove the connection only if it is one of its socket. -/
theorem processKqueueEvent_removes (env : Environment) (event : KEvent) (r : ClientReactor)
    (h : (r.processKqueueEvent env event).1 = .removing) :
    r.hasConnection = true ∧ r.connection.fileDescriptor = event.ident := by
  unfold processKqueueEvent at h
  split at h
  · cases h
  · rename_i hvalid
    rw [not_or, not_not, not_not] at hvalid
    exact ⟨hvalid.1, hvalid.2.symm⟩

theorem receive_removes (env : Environment) (fd : ℤ) (outcome : RecvOutcome)
    (r : ClientReactor) (h : (r.receive env fd outcome).1 = .removing) :
    (r.receive env fd outcome).2 = r := by
  cases outcome with
  | received data hdata => cases h
  | closed => rfl
  | failed code => cases code <;> rfl

end ClientReactor

namespace ClientSystem

open ClientReactor

def SeesEnd (s t : ClientSystem) (fd : ℤ) : Prop :=
  (∃ event events, s.loop = .handling (event :: events) ∧ event.eof = true ∧
    event.ident = fd) ∧ t.loop.IsRemoving

variable {s t : ClientSystem} {fd : ℤ}

/-- The step in which `RemoveConnection` is called is one of the loop. -/
theorem Step.loops (hstep : ClientSystem.Step s t) (hloop : t.loop ≠ s.loop) :
    ClientLoop.Step (s.reactor, s.loop) (t.reactor, t.loop) := by
  cases hstep with
  | loop h => exact h
  | _ => exact absurd rfl hloop

/-- When the loop learns the end of the stream, there is a connection on it, and nothing is
received. -/
theorem Step.learns (hstep : ClientSystem.Step s t) (h : s.Accounted)
    (hlearns : s.SeesEnd t fd ∨ s.HearsEnd t fd) :
    s.reactor.hasConnection = true ∧ s.reactor.connection.fileDescriptor = fd ∧
      Grows ClientEffect.Moot s.reactor t.reactor := by
  rcases hlearns with ⟨⟨event, events, hs, heof, rfl⟩, removal, next, ht⟩ |
    ⟨⟨events, hs⟩, removal, next, ht⟩
  · have hloop := hstep.loops (by simp [hs, ht])
    rw [hs, ht] at hloop
    generalize ht' : ClientLoop.removing removal next = loop at hloop
    generalize t.reactor = r at hloop ⊢
    cases hloop with
    | @handle _ env _ _ =>
      have hremoves : (s.reactor.processKqueueEvent env event).1 = .removing := by
        cases hreaction : (s.reactor.processKqueueEvent env event).1 with
        | removing => rfl
        | _ =>
          rw [hreaction] at ht'
          cases ht'
      obtain ⟨hhas, hfd⟩ := processKqueueEvent_removes env event _ hremoves
      refine ⟨hhas, hfd, ?_⟩
      exact (processKqueueEvent_grows env event s.reactor).mono fun _ => sends_moot
    | skip => cases ht'
  · obtain ⟨hhas, hfd⟩ := h.reading fd events hs
    have hloop := hstep.loops (by simp [hs, ht])
    rw [hs, ht] at hloop
    generalize ht' : ClientLoop.removing removal next = loop at hloop
    generalize t.reactor = r at hloop ⊢
    cases hloop with
    | receive env outcome =>
      have hremoves : (s.reactor.receive env fd outcome).1 = .removing := by
        cases hreaction : (s.reactor.receive env fd outcome).1 with
        | removing => rfl
        | _ =>
          rw [hreaction] at ht'
          cases ht'
      refine ⟨hhas, hfd, .of_eq ?_⟩
      rw [receive_removes env fd outcome _ hremoves]

/-- While the loop removes the connection, nothing is received. -/
theorem Step.removing_moot (hstep : ClientSystem.Step s t) (hundisturbed : s.Undisturbed)
    (hs : s.loop.IsRemoving) : Grows ClientEffect.Moot s.reactor t.reactor := by
  cases hstep with
  | @setting env fd peer setting before after howners =>
    obtain ⟨rfl, rfl, -⟩ := hundisturbed.only howners
    have hsettled := hundisturbed.settled (.inr hs) howners
    refine (setConnection_grows env fd peer setting s.reactor).mono fun _ => sets_moot ?_
    rintro rfl
    exact hsettled
  | @removing env removal before after howners =>
    exact (removeConnection_grows env removal s.reactor).mono fun _ => removes_moot
  | @loop r loop hloop =>
    obtain ⟨removal, next, hs⟩ := hs
    rw [hs] at hloop
    cases hloop with
    | @remove _ _ env _ following _ hremove =>
      have hgrows := removeConnection_grows env removal s.reactor
      rw [hremove] at hgrows
      exact hgrows.mono fun _ => removes_moot
  | stopShutdown =>
    dsimp only [shutdownConnection]
    split
    · exact .cons rfl trivial
    · exact .of_eq rfl
  | stopClose =>
    dsimp only [closeConnection]
    split
    · exact .cons rfl trivial
    · exact .of_eq rfl
  | _ => exact .of_eq rfl

end ClientSystem

/-- The quiet part of a wired run: nothing is received, and only the peer may write. -/
def Idles (fd : ℤ) (x y : ClientSystem × (ℤ → Stream UInt8)) : Prop :=
  ClientReactor.Grows ClientEffect.Moot x.1.reactor y.1.reactor ∧ (x.2 fd).Flows [] (y.2 fd)

theorem idles_of_grows {fd : ℤ} {x y : ClientSystem × (ℤ → Stream UInt8)}
    (hstep : ClientSystem.wiring.Step ClientSystem.Step x y)
    (hgrows : ClientReactor.Grows ClientEffect.Moot x.1.reactor y.1.reactor) : Idles fd x y :=
  ⟨hgrows, hstep.flows (hgrows.mono fun _ he => ⟨he.registers, he.received⟩)⟩

/-- When the peer has closed its side and the local side leaves the connection alone, every byte
that the peer wrote has been dispatched, while `RemoveConnection` goes on, if and only if none
was unread when `EV_EOF` was seen and the worker pool has refused none. -/
theorem clientReactors_deliver_iff {receiver : Receiver}
    {states : List (ClientSystem × (ℤ → Stream UInt8))}
    (hrun : (ClientSystem.wiring.wired (clientReactors receiver)).Run states)
    (hreceiver : ∀ x ∈ states, x.1.reactor.receiver ≠ .nobody)
    (hundisturbed : ∀ x ∈ states, x.1.Undisturbed)
    {x y : ClientSystem × (ℤ → Stream UInt8)} {later : List (ClientSystem × (ℤ → Stream UInt8))}
    (hsegment : later ++ [y, x] <:+: states) {fd : ℤ}
    (hlearns : x.1.SeesEnd y.1 fd ∨ x.1.HearsEnd y.1 fd)
    (hclosed : x.1.SeesEnd y.1 fd → (x.2 fd).closed = true)
    (hremoving : ∀ z ∈ later, z.1.loop.IsRemoving) {z : ClientSystem × (ℤ → Stream UInt8)}
    (hz : z ∈ later ++ [y]) :
    z.1.reactor.delivered x.1.reactor.connection.connectionId fd = (z.2 fd).written ↔
      (x.1.SeesEnd y.1 fd → (x.2 fd).unread = []) ∧
        z.1.reactor.lost x.1.reactor.connection.connectionId fd = [] := by
  have hmem {u : ClientSystem × (ℤ → Stream UInt8)} (hu : u ∈ later ++ [y, x]) : u ∈ states :=
    hsegment.mem hu
  have hx : x ∈ states := hmem (by simp)
  have hlast : [y, x] <:+: states :=
    ((List.suffix_append later [y, x]).isInfix).trans hsegment
  obtain ⟨past, hpast, hfst⟩ := Wiring.run_fst hrun x hx
  have haccounted : x.1.Accounted := by
    refine clientReactors_accounted hpast (fun s hs => ?_) (fun s hs => ?_) x.1 List.mem_cons_self
    · obtain ⟨u, hu, rfl⟩ := List.mem_map.mp (hfst s hs)
      exact hundisturbed u hu
    · obtain ⟨u, hu, rfl⟩ := List.mem_map.mp (hfst s hs)
      exact hreceiver u hu
  have hstep : ClientSystem.wiring.Step ClientSystem.Step x y := hrun.step_of_infix hlast
  have hy : y.1.loop.IsRemoving := hlearns.elim And.right And.right
  have hnot : ¬x.1.loop.IsRemoving := by
    rintro ⟨removal, next, hloop⟩
    rcases hlearns with ⟨⟨event, events, hs, -⟩, -⟩ | ⟨⟨events, hs⟩, -⟩ <;> simp [hs] at hloop
  have hmoved : x.1 ≠ y.1 := fun heq => hnot (heq ▸ hy)
  obtain ⟨hhas, hfd, hgrows⟩ :=
    ClientSystem.Step.learns (hstep.fst.resolve_left (Ne.symm hmoved)) haccounted hlearns
  have hend : (y.2 fd).closed = true ∧
      ((y.2 fd).unread = [] ↔ (x.1.SeesEnd y.1 fd → (x.2 fd).unread = [])) := by
    by_cases hsees : x.1.SeesEnd y.1 fd
    · obtain ⟨-, hunread, hclosed'⟩ := (idles_of_grows hstep hgrows).2.still (hclosed hsees)
      exact ⟨hclosed', by simp [hunread, hsees]⟩
    · obtain ⟨hunread, hclosed'⟩ := hstep.ended hmoved (hlearns.resolve_left hsees)
      exact ⟨hclosed', by simp [hunread, hsees]⟩
  have hpath : ReflTransGen (Idles fd) y z := by
    rcases List.mem_append.mp hz with hz | hz
    · obtain ⟨newer, older, rfl⟩ := List.append_of_mem hz
      have hinfix : z :: older ++ [y] <:+: states := by
        refine List.IsInfix.trans ⟨newer, [x], ?_⟩ hsegment
        simp
      refine hrun.path hinfix fun u v hu hv hmem hstep => ?_
      have hu' : u.1.loop.IsRemoving := by
        rcases hu with rfl | hu
        · exact hy
        · exact hremoving u (List.mem_append_right newer hu)
      refine idles_of_grows hstep ?_
      rcases Wiring.Step.fst hstep with hsame | hstep
      · exact .of_eq (by rw [hsame])
      · exact hstep.removing_moot (hundisturbed u hmem) hu'
    · rw [List.mem_singleton.mp hz]
  have hquiet : ClientReactor.Grows ClientEffect.Moot y.1.reactor z.1.reactor ∧
      (z.2 fd).closed = true ∧ (z.2 fd).unread = (y.2 fd).unread := by
    refine hpath.rec ⟨.of_eq rfl, hend.1, rfl⟩ fun _ hidles ih => ?_
    obtain ⟨hgrown, hclosed', hunread⟩ := ih
    obtain ⟨-, hunread', hclosed''⟩ := hidles.2.still hclosed'
    exact ⟨hgrown.trans hidles.1, hclosed'', hunread'.trans hunread⟩
  obtain ⟨hgrown, -, hunread⟩ := hquiet
  have hdelivers := haccounted.table hhas
  rw [hfd] at hdelivers
  have hz' : z ∈ states := hmem (by simp only [List.mem_append, List.mem_cons] at hz ⊢; tauto)
  have hwritten : (z.2 fd).written = z.1.reactor.got fd ++ (z.2 fd).unread := by
    refine Wiring.conserved ?_ hrun z hz' fd
    rintro s ⟨fds, rfl⟩
    rfl
  rw [hwritten, ((hdelivers.moot hgrows).moot hgrown).kept_eq_iff, hunread, hend.2]

/-! ## Both reactors -/

/-- When the peer has closed its side, the connection ends without an error, and the local side
has not removed it, then every byte that the peer wrote has been dispatched if and only if none
was unread when `EV_EOF` was seen and the worker pool has refused none. -/
theorem orderly_close_delivers_iff (receiver : Receiver) :
    (∀ reactorId states,
      (System.wiring.wired (reactors reactorId receiver)).Run states →
      (∀ x ∈ states, x.1.reactor.receiver ≠ .nobody) →
      ∀ x y, [y, x] <:+: states → ∀ event id, x.1.Finishes y.1 event id →
      (event.eof = true → (x.2 event.ident).closed = true) →
        (y.1.reactor.delivered id = (y.2 event.ident).written ↔
          (event.eof = true → (x.2 event.ident).unread = []) ∧ y.1.reactor.lost id = [])) ∧
    ∀ states, (ClientSystem.wiring.wired (clientReactors receiver)).Run states →
      (∀ x ∈ states, x.1.reactor.receiver ≠ .nobody) → (∀ x ∈ states, x.1.Undisturbed) →
      ∀ later x y fd, later ++ [y, x] <:+: states →
      (x.1.SeesEnd y.1 fd ∨ x.1.HearsEnd y.1 fd) →
      (x.1.SeesEnd y.1 fd → (x.2 fd).closed = true) → (∀ z ∈ later, z.1.loop.IsRemoving) →
      ∀ z ∈ later ++ [y],
        (z.1.reactor.delivered x.1.reactor.connection.connectionId fd = (z.2 fd).written ↔
          (x.1.SeesEnd y.1 fd → (x.2 fd).unread = []) ∧
            z.1.reactor.lost x.1.reactor.connection.connectionId fd = []) :=
  ⟨fun _ _ hrun hreceiver _ _ hxy _ _ hfinishes hclosed =>
      reactors_deliver_iff hrun hreceiver hxy hfinishes hclosed,
    fun _ hrun hreceiver hundisturbed _ _ _ _ hsegment hlearns hclosed hremoving _ hz =>
      clientReactors_deliver_iff hrun hreceiver hundisturbed hsegment hlearns hclosed hremoving hz⟩

/-- A peer has written one byte and closed its side. -/
def sampleStream : Stream UInt8 :=
  { written := [7], unread := [7], closed := true }

def sampleOpened : Option Reactor :=
  let r := (((Reactor.started 0 .workerPool 60).accept 5).addConnection 5 ⟨[]⟩).2
  ((r.push (.add 5 ⟨[]⟩)).dequeue (.add 5 ⟨[]⟩) []).processOperation sampleEnvironment
    (.add 5 ⟨[]⟩)

/-- The event that says that the peer has closed its side. -/
def sampleEof : KEvent :=
  { ident := 5, filter := .read, eof := true }

def sampleWaiting (r : Reactor) : Reactor :=
  r.count fun s => { s with totalOpsProcessed := s.totalOpsProcessed + 1 }

theorem sampleStream_flows : ({} : Stream UInt8).Flows [] sampleStream :=
  ⟨[7], rfl, rfl, nofun⟩

theorem sampleStream_still : sampleStream.Flows [] sampleStream :=
  ⟨[], rfl, rfl, fun _ => ⟨rfl, rfl⟩⟩

theorem workerPool_receives {reactorId : ℤ} {states : List (System × (ℤ → Stream UInt8))}
    (hrun : (System.wiring.wired (reactors reactorId .workerPool)).Run states) :
    ∀ x ∈ states, x.1.reactor.receiver ≠ .nobody := by
  intro x hx
  obtain ⟨past, hpast, -⟩ := Wiring.run_fst hrun x hx
  rw [reactors_workerPool hpast x.1 List.mem_cons_self]
  exact nofun

/-- `EV_EOF` is seen on a connection of a reactor while a byte is unread. -/
theorem early_eof_run : ∃ states x y,
    (System.wiring.wired (reactors 0 .workerPool)).Run states ∧ [y, x] <:+: states ∧
      x.1.Finishes y.1 sampleEof sampleId ∧ x.2 5 = sampleStream ∧ y.2 5 = sampleStream ∧
      y.1.reactor.delivered sampleId = [] ∧ y.1.reactor.lost sampleId = [] := by
  have hopened : sampleOpened.isSome = true := by decide +kernel
  obtain ⟨r, hr⟩ := Option.isSome_iff_exists.mp hopened
  have hlog : sampleOpened.map (fun r => (r.pendingOperations, r.log)) = some ([],
      [.dispatched (.connected sampleId ⟨[]⟩), .added sampleId 5, .kevent 5 .addRead true,
        .took (.add 5 ⟨[]⟩), .opened 5]) := by decide +kernel
  have hlookup : sampleOpened.map (fun r => (r.connections.lookup sampleId).map
      ReactorConnection.fileDescriptor) = some (some 5) := by decide +kernel
  have hclosed : sampleOpened.map (fun r =>
      ((sampleWaiting r).processKqueueEvent sampleEnvironment sampleEof).log) =
      some [.closed 5, .dispatched (.disconnected sampleId),
        .dispatched (.connected sampleId ⟨[]⟩), .added sampleId 5, .kevent 5 .addRead true,
        .took (.add 5 ⟨[]⟩), .opened 5] := by decide +kernel
  have hgone : sampleOpened.map (fun r =>
      ((sampleWaiting r).processKqueueEvent sampleEnvironment sampleEof).connections.keys.card) =
      some 0 := by decide +kernel
  rw [hr, Option.map_some, Option.some.injEq] at hlog hlookup hclosed hgone
  rw [Prod.mk.injEq] at hlog
  have hidle {s t : System} (hloop : ∀ events, s.loop ≠ .handling events) (fd : ℤ) :
      ¬System.wiring.ends s t fd :=
    fun ⟨_, event, ⟨rest, hs, _⟩, _⟩ => hloop (event :: rest) hs
  have hstart : (System.wiring.wired (reactors 0 .workerPool)).Run [(_, fun _ => {})] :=
    .start ⟨⟨60, rfl⟩, fun _ => rfl⟩
  have haccept := Wiring.run_silent hstart
    (System.Step.accept 5 ⟨[]⟩ (by decide) (by decide) rfl)
    ⟨[.opened 5], rfl, by simp [System.wiring, Effect.receivedOn]⟩ (hidle nofun)
  have henqueue := Wiring.run_silent haccept
    (System.Step.enqueue (List.nil_append _).symm nofun) (.of_eq rfl) (hidle nofun)
  have henter := Wiring.run_silent henqueue (System.Step.loop (Loop.Step.enter rfl)) (.of_eq rfl)
    (hidle nofun)
  have hadd := Wiring.run_silent henter
    (System.Step.loop (Loop.Step.process sampleEnvironment (by decide) rfl hr))
    ⟨_, hlog.2.trans (List.append_cons [_, _, _] _ [_]),
      by simp [System.wiring, Effect.receivedOn]⟩ (hidle nofun)
  have hdrained := Wiring.run_silent hadd (System.Step.loop (Loop.Step.drained (.inr hlog.1)))
    (.of_eq rfl) (hidle nofun)
  have hwaiting := Wiring.run_silent hdrained (System.Step.loop Loop.Step.notDue) (.of_eq rfl)
    (hidle nofun)
  have hwoken := Wiring.run_silent hwaiting
    (System.Step.loop (Loop.Step.woken [sampleEof] (by decide))) (.of_eq rfl) (hidle nofun)
  have hwritten := hwoken.next (Wiring.Step.senders fun _ => sampleStream_flows)
  have hended := hwritten.next (Wiring.Step.system
    [.closed 5, .dispatched (.disconnected sampleId)]
    (System.Step.loop (Loop.Step.handle sampleEnvironment)) (hclosed.trans ?_)
    (fun _ => sampleStream_still) fun fd hends => ?_)
  · refine ⟨_, _, _, hended, (List.prefix_append [_, _] _).isInfix, ?_, rfl, rfl, ?_, ?_⟩
    · obtain ⟨conn, hconn, hfd⟩ := Option.map_eq_some_iff.mp hlookup
      refine ⟨⟨sampleEnvironment, [], rfl, rfl, rfl⟩, ⟨conn, hconn, hfd⟩, fun hmem => ?_, ?_⟩
      · have hpos := Finset.card_pos.mpr ⟨sampleId, Finmap.mem_keys.mpr hmem⟩
        exact absurd hgone (Nat.ne_of_gt hpos)
      · rintro ⟨extra, hextra, e, he, herror⟩
        have heq := hclosed.symm.trans hextra
        have hentry := heq.symm ▸ List.mem_append_left _ he
        simp only [List.mem_cons, List.not_mem_nil, or_false] at hentry
        rcases hentry with rfl | rfl | rfl | rfl | rfl | rfl | rfl <;> exact herror
    · exact (congrArg (fun log => collect (Effect.dispatchedFor sampleId)
        (since (Effect.adds sampleId) log)) hclosed).trans (by decide +kernel)
    · exact (congrArg (fun log => collect (Effect.refusedFor sampleId)
        (since (Effect.adds sampleId) log)) hclosed).trans (by decide +kernel)
  · exact (congrArg ([.closed 5, .dispatched (.disconnected sampleId)] ++ ·) hlog.2).symm
  · obtain ⟨_, event, ⟨rest, hs, -⟩, -, -, heof, -⟩ := hends
    cases hs
    cases heof

namespace ClientSystem

/-- Nobody has written anything on the way to `s`, the local side leaves the connection alone,
and there is somebody to receive the events. -/
def Awaits (s : ClientSystem) : Prop :=
  ∃ past, (wiring.wired (clientReactors .workerPool)).Run ((s, fun _ => {}) :: past) ∧
    ∀ z ∈ (s, fun _ => {}) :: past, z.1.reactor.receiver ≠ .nobody ∧ z.1.Undisturbed

variable {s t : ClientSystem}

theorem Awaits.next (h : s.Awaits) (hstep : ClientSystem.Step s t)
    (hloop : ∀ fd events, s.loop ≠ .reading fd events)
    (hgrows : ClientReactor.Grows ClientEffect.Moot s.reactor t.reactor ∨ ∃ fd success,
      t.reactor.log = .kevent fd .addRead success :: s.reactor.log)
    (hreceiver : t.reactor.receiver ≠ .nobody) (hundisturbed : t.Undisturbed) : t.Awaits := by
  obtain ⟨past, hrun, hall⟩ := h
  refine ⟨_, Wiring.run_silent hrun hstep ?_ fun fd ⟨⟨events, hs⟩, _⟩ => hloop fd events hs,
    List.forall_mem_cons.mpr ⟨⟨hreceiver, hundisturbed⟩, hall⟩⟩
  rcases hgrows with hmoot | ⟨fd, success, hlog⟩
  · exact hmoot.mono fun _ he _ => he.received
  · exact .cons hlog fun _ => rfl

/-- `SetConnection` for descriptor 5 stands at `setting`. -/
def sampleAt (r : ClientReactor) (setting : ClientReactor.Setting) (loop : ClientLoop) :
    ClientSystem :=
  { reactor := r, owners := [.setting 5 ⟨[]⟩ setting], loop := loop }

theorem sampleAt_undisturbed {r : ClientReactor} {setting : ClientReactor.Setting}
    {loop : ClientLoop} (h : (sampleAt r setting loop).Engaged → setting.IsSettled) :
    (sampleAt r setting loop).Undisturbed :=
  ⟨.inr ⟨5, ⟨[]⟩, setting, rfl, h⟩, .inl rfl⟩

theorem sampleAt_step (r : ClientReactor) (setting : ClientReactor.Setting) (loop : ClientLoop) :
    ClientSystem.Step (sampleAt r setting loop)
      (sampleAt (r.setConnection sampleEnvironment 5 ⟨[]⟩ setting).2
        (r.setConnection sampleEnvironment 5 ⟨[]⟩ setting).1 loop) := by
  have howners : (sampleAt r setting loop).owners = [] ++ [.setting 5 ⟨[]⟩ setting] := rfl
  exact .setting sampleEnvironment howners

def sampleRegistered : ClientReactor :=
  ((ClientReactor.started .workerPool ∅).monitor sampleEnvironment 5 .addRead).2

def sampleAssigned : ClientReactor :=
  (sampleRegistered.setConnection sampleEnvironment 5 ⟨[]⟩ .assigning).2

/-- Descriptor 5 has become the connection. -/
def sampleConnected : ClientReactor :=
  { sampleAssigned with hasConnection := true }

theorem sample_connected : (sampleAt sampleConnected .connecting .top).Awaits := by
  have hfree {r : ClientReactor} {setting : ClientReactor.Setting}
      (h : r.hasConnection = false) : (sampleAt r setting .top).Undisturbed := by
    refine sampleAt_undisturbed fun hengaged => ?_
    rcases hengaged with hhas | ⟨removal, next, hloop⟩
    · exact absurd hhas (Bool.eq_false_iff.mp h)
    · cases hloop
  have hstart : Awaits { reactor := ClientReactor.started .workerPool ∅ } := by
    refine ⟨[], .start ⟨⟨∅, rfl⟩, fun _ => rfl⟩, fun z hz => ?_⟩
    obtain rfl := List.mem_singleton.mp hz
    exact ⟨nofun, .inl rfl, .inl rfl⟩
  have henter : (sampleAt (ClientReactor.started .workerPool ∅) .entering .top).Awaits :=
    hstart.next (.setConnection 5 ⟨[]⟩) nofun (.inl (.of_eq rfl)) nofun (hfree rfl)
  have hcheck : (sampleAt (ClientReactor.started .workerPool ∅) .checking .top).Awaits :=
    henter.next (sampleAt_step _ _ _) nofun (.inl (.of_eq rfl))
      nofun (hfree rfl)
  have hmonitor : (sampleAt (ClientReactor.started .workerPool ∅) .monitoring .top).Awaits :=
    hcheck.next (sampleAt_step _ _ _) nofun (.inl (.of_eq rfl))
      nofun (hfree rfl)
  have hassign : (sampleAt sampleRegistered .assigning .top).Awaits :=
    hmonitor.next (sampleAt_step _ _ _) nofun
      (.inr ⟨5, true, rfl⟩) nofun (hfree rfl)
  have hraise : (sampleAt sampleAssigned .raising .top).Awaits :=
    hassign.next (sampleAt_step _ _ _) nofun (.inl (.of_eq rfl))
      nofun (hfree rfl)
  exact hraise.next (sampleAt_step _ _ _) nofun
    (.inl (.of_eq rfl)) nofun (sampleAt_undisturbed fun _ => trivial)

/-- The loop has been told of `EV_EOF`. -/
theorem sample_told : (sampleAt sampleConnected .connecting (.handling [sampleEof])).Awaits := by
  have hsettled (loop : ClientLoop) :
      (sampleAt sampleConnected .connecting loop).Undisturbed :=
    sampleAt_undisturbed fun _ => trivial
  have henter : (sampleAt sampleConnected .connecting (.draining 0)).Awaits :=
    sample_connected.next (.loop (.enter rfl)) nofun (.inl (.of_eq rfl)) nofun (hsettled _)
  have hdrained : (sampleAt sampleConnected .connecting .waiting).Awaits :=
    henter.next (.loop (.drained (.inr rfl))) nofun (.inl (.of_eq rfl)) nofun (hsettled _)
  exact hdrained.next (.loop (.woken [sampleEof] (by decide))) nofun (.inl (.of_eq rfl)) nofun
    (hsettled _)

/-- `EV_EOF` is seen on the connection of a client reactor while a byte is unread. -/
theorem client_early_eof_run : ∃ states x y,
    (wiring.wired (clientReactors .workerPool)).Run states ∧
      (∀ z ∈ states, z.1.reactor.receiver ≠ .nobody) ∧ (∀ z ∈ states, z.1.Undisturbed) ∧
      [y, x] <:+: states ∧ x.1.SeesEnd y.1 5 ∧ x.2 5 = sampleStream ∧ y.2 5 = sampleStream ∧
      y.1.reactor.delivered x.1.reactor.connection.connectionId 5 = [] ∧
      y.1.reactor.lost x.1.reactor.connection.connectionId 5 = [] := by
  obtain ⟨past, hrun, hall⟩ := sample_told
  have hwritten := hrun.next (Wiring.Step.senders fun _ => sampleStream_flows)
  have hended : (wiring.wired (clientReactors .workerPool)).Run
      ((sampleAt sampleConnected .connecting (.removing .checking (.handling [])),
        fun _ => sampleStream) :: _ :: _) :=
    hwritten.next (Wiring.Step.system [] (.loop (.handle sampleEnvironment rfl)) rfl
      (fun _ => sampleStream_still) fun fd ⟨⟨events, hs⟩, _⟩ => by cases hs)
  have htold := List.forall_mem_cons.mp hall
  have hsettled : (sampleAt sampleConnected .connecting
      (.removing .checking (.handling []))).Undisturbed :=
    sampleAt_undisturbed fun _ => trivial
  refine ⟨_, _, _, hended, ?_, ?_, (List.prefix_append [_, _] _).isInfix, ?_, rfl, rfl, ?_⟩
  · exact List.forall_mem_cons.mpr ⟨nofun, List.forall_mem_cons.mpr
      ⟨htold.1.1, fun z hz => (hall z hz).1⟩⟩
  · exact List.forall_mem_cons.mpr ⟨hsettled, List.forall_mem_cons.mpr
      ⟨htold.1.2, fun z hz => (hall z hz).2⟩⟩
  · exact ⟨⟨sampleEof, [], rfl, rfl, rfl⟩, .checking, .handling [], rfl⟩
  · decide +kernel

end ClientSystem

/-- The byte is dispatched by neither reactor. -/
theorem early_eof_drops :
    (∃ states x y, (System.wiring.wired (reactors 0 .workerPool)).Run states ∧
      (∀ z ∈ states, z.1.reactor.receiver ≠ .nobody) ∧ [y, x] <:+: states ∧
      x.1.Finishes y.1 sampleEof sampleId ∧ (x.2 sampleEof.ident).closed = true ∧
      y.1.reactor.lost sampleId = [] ∧
      y.1.reactor.delivered sampleId ≠ (y.2 sampleEof.ident).written) ∧
    ∃ states x y, (ClientSystem.wiring.wired (clientReactors .workerPool)).Run states ∧
      (∀ z ∈ states, z.1.reactor.receiver ≠ .nobody) ∧ (∀ z ∈ states, z.1.Undisturbed) ∧
      [y, x] <:+: states ∧ x.1.SeesEnd y.1 5 ∧ (x.2 5).closed = true ∧
      y.1.reactor.lost x.1.reactor.connection.connectionId 5 = [] ∧
      y.1.reactor.delivered x.1.reactor.connection.connectionId 5 ≠ (y.2 5).written := by
  refine ⟨?_, ?_⟩
  · obtain ⟨states, x, y, hrun, hxy, hfinishes, hx, hy, hdelivered, hlost⟩ := early_eof_run
    refine ⟨states, x, y, hrun, workerPool_receives hrun, hxy, hfinishes, ?_, hlost, ?_⟩
    · exact congrArg Stream.closed hx
    · rw [hdelivered, show y.2 sampleEof.ident = sampleStream from hy]
      decide
  · obtain ⟨states, x, y, hrun, hreceiver, hundisturbed, hxy, hsees, hx, hy, hdelivered, hlost⟩ :=
      ClientSystem.client_early_eof_run
    refine ⟨states, x, y, hrun, hreceiver, hundisturbed, hxy, hsees, ?_, hlost, ?_⟩
    · rw [hx, sampleStream]
    · rw [hdelivered, hy]
      decide

/-- The byte was unread when the end was seen. -/
theorem early_eof_unread :
    (∃ states x y, (System.wiring.wired (reactors 0 .workerPool)).Run states ∧
      [y, x] <:+: states ∧ x.1.Finishes y.1 sampleEof sampleId ∧
      ¬((sampleEof.eof = true → (x.2 5).unread = []) ∧ y.1.reactor.lost sampleId = [])) ∧
    ∃ states x y, (ClientSystem.wiring.wired (clientReactors .workerPool)).Run states ∧
      [y, x] <:+: states ∧ x.1.SeesEnd y.1 5 ∧
      ¬((x.1.SeesEnd y.1 5 → (x.2 5).unread = []) ∧
        y.1.reactor.lost x.1.reactor.connection.connectionId 5 = []) := by
  refine ⟨?_, ?_⟩
  · obtain ⟨states, x, y, hrun, hxy, hfinishes, hx, hy, hdelivered, -⟩ := early_eof_run
    refine ⟨states, x, y, hrun, hxy, hfinishes, fun hcondition => ?_⟩
    have hall := ((orderly_close_delivers_iff .workerPool).1 0 states hrun
      (workerPool_receives hrun) x y hxy sampleEof sampleId hfinishes
      fun _ => congrArg Stream.closed hx).mpr hcondition
    rw [hdelivered, show y.2 sampleEof.ident = sampleStream from hy] at hall
    exact absurd hall (by decide)
  · obtain ⟨states, x, y, hrun, hreceiver, hundisturbed, hxy, hsees, hx, hy, hdelivered, -⟩ :=
      ClientSystem.client_early_eof_run
    refine ⟨states, x, y, hrun, hxy, hsees, fun hcondition => ?_⟩
    have hall := ((orderly_close_delivers_iff .workerPool).2 states hrun hreceiver hundisturbed
      [] x y 5 hxy (.inl hsees) (fun _ => by rw [hx, sampleStream]) (fun z hz => by cases hz) y
      (by simp)).mpr hcondition
    rw [hdelivered, hy] at hall
    exact absurd hall (by decide)

end DarwinCore.Network
