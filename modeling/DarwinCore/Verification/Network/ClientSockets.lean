import DarwinCore.Verification.Network.ClientCalls

/-! # The sockets of a client

In every run of a client, each socket that it has opened and that is not closed is on its way to
`SetConnection` or is that of the connection. -/

namespace DarwinCore.Network

open ClientReactor

/-! ## The sockets of a client -/

def added (log log' : List ClientEffect) : List ClientEffect :=
  log'.take (log'.length - log.length)

theorem added_append (extra log : List ClientEffect) : added log (extra ++ log) = extra := by
  rw [added, List.length_append, Nat.add_sub_cancel, List.take_left]

theorem added_cons (e : ClientEffect) (log : List ClientEffect) : added log (e :: log) = [e] :=
  added_append [e] log

theorem added_self (log : List ClientEffect) : added log log = [] :=
  added_append [] log

namespace Client

def inside (c : Client) : List ClientEffect :=
  c.reactor.elim [] fun s => s.reactor.log

def Closes (c c' : Client) (fd : ℤ) : Prop :=
  .closed fd ∈ added c.log c'.log ∨ .closed fd ∈ added c.inside c'.inside

/-- The sockets that are open after a step. The client opens them itself. -/
def sockets (c c' : Client) (before : Set ℤ) : Set ℤ :=
  {fd | .opened fd ∈ added c.log c'.log ∨ fd ∈ before ∧ ¬c.Closes c' fd}

end Client

/-- A client and the sockets that it has opened and that have not been closed. -/
def socketClients : TransitionSystem (Client × Set ℤ) :=
  clients.withAuxiliary ∅ Client.sockets

/-! ## Who holds a socket -/

/-- The socket that `ConnectInternal` has not passed to `SetConnection`. -/
def ClientCall.socket : ClientCall → Option ℤ
  | exchanging fd _ => some fd
  | connecting fd _ => some fd
  | initializing fd => some fd
  | starting fd => some fd
  | calling fd => some fd
  | _ => none

/-- `fd` is being set, or is that of the connection and not closed. -/
def ClientSystem.Holds (s : ClientSystem) (fd : ℤ) : Prop :=
  (∃ peer phase, .setting fd peer phase ∈ s.owners ∧ phase.isUndone = true) ∨
    s.reactor.hasConnection = true ∧ s.reactor.connection.fileDescriptor = fd ∧ ¬s.loop.Clearing

def Client.Holds (c : Client) (fd : ℤ) : Prop :=
  c.call.socket = some fd ∨ ∃ s, c.reactor = some s ∧ s.Holds fd

/-- A thread that does nothing to a reactor that is not running. -/
def ConnectionCaller.IsIdle : ConnectionCaller → Prop
  | setting _ _ .entering => True
  | setting _ _ (.returned false) => True
  | removing .checking => True
  | _ => False

namespace ClientSystem

/-- A reactor that has not been started does nothing. -/
structure Idle (s : ClientSystem) : Prop where
  isRunning : s.reactor.isRunning = false
  hasConnection : s.reactor.hasConnection = false
  loop : s.loop = .exited
  stopping : s.stopping = .notCalled
  owners : ∀ owner ∈ s.owners, owner.IsIdle

variable {s t : ClientSystem}

theorem Step.idle (hstep : ClientSystem.Step s t) (h : s.Idle) : t.Idle := by
  have howned {owners : List ConnectionCaller} (hidle : ∀ owner ∈ owners, owner.IsIdle) :
      Idle { s with owners := owners } :=
    ⟨h.isRunning, h.hasConnection, h.loop, h.stopping, hidle⟩
  have hsplit {owner : ConnectionCaller} {before after : List ConnectionCaller}
      (howners : s.owners = before ++ owner :: after) : owner.IsIdle ∧
        (∀ owner ∈ before, owner.IsIdle) ∧ ∀ owner ∈ after, owner.IsIdle := by
    have hall := h.owners
    rw [howners, List.forall_mem_append, List.forall_mem_cons] at hall
    exact ⟨hall.2.1, hall.1, hall.2.2⟩
  have hnever {stopping : ClientStopping} (heq : s.stopping = stopping)
      (hne : stopping ≠ .notCalled) : t.Idle :=
    absurd (heq.symm.trans h.stopping) hne
  cases hstep with
  | request req hsized hrequest =>
    exact ⟨h.isRunning, h.hasConnection, h.loop, h.stopping, h.owners⟩
  | enqueue hcallers hqueue => exact ⟨h.isRunning, h.hasConnection, h.loop, h.stopping, h.owners⟩
  | enqueueRejected hcallers hqueue =>
    exact ⟨h.isRunning, h.hasConnection, h.loop, h.stopping, h.owners⟩
  | wake hcallers => exact ⟨h.isRunning, h.hasConnection, h.loop, h.stopping, h.owners⟩
  | setConnection fd peer => exact howned (List.forall_mem_cons.mpr ⟨trivial, h.owners⟩)
  | @setting env fd peer phase before after howners =>
    obtain ⟨hidle, hbefore, hafter⟩ := hsplit howners
    have hset : s.reactor.setConnection env fd peer phase = (.returned false, s.reactor) := by
      cases phase with
      | entering => exact if_pos (.inr (by simp [h.isRunning]))
      | returned success =>
        cases success with
        | false => rfl
        | true => exact hidle.elim
      | _ => exact hidle.elim
    rw [hset]
    refine howned (List.forall_mem_append.mpr ⟨hbefore, ?_⟩)
    exact List.forall_mem_cons.mpr ⟨trivial, hafter⟩
  | setConnectionReturned howners =>
    obtain ⟨hidle, hbefore, hafter⟩ := hsplit howners
    exact howned (List.forall_mem_append.mpr ⟨hbefore, hafter⟩)
  | removeConnection => exact howned (List.forall_mem_cons.mpr ⟨trivial, h.owners⟩)
  | @removing env removal before after howners =>
    obtain ⟨hidle, hbefore, hafter⟩ := hsplit howners
    have hremove : s.reactor.removeConnection env removal = (none, s.reactor) := by
      cases removal with
      | checking => exact if_pos (by simp [h.hasConnection])
      | _ => exact hidle.elim
    rw [hremove, Option.map_none, Option.toList_none, List.append_nil]
    exact howned (List.forall_mem_append.mpr ⟨hbefore, hafter⟩)
  | loop hloop => exact absurd h.loop hloop.flags.2.2.2
  | stop hrunning => exact absurd (h.isRunning.symm.trans hrunning) Bool.false_ne_true
  | stopQueue hstopping => exact hnever hstopping nofun
  | stopWake hstopping => exact hnever hstopping nofun
  | stopShutdown hstopping => exact hnever hstopping nofun
  | stopMonitor hjoined hstopping => exact hnever hstopping nofun
  | stopClose hstopping => exact hnever hstopping nofun

/-- What a step inside the reactor does with its sockets. -/
inductive SocketTurn (s t : ClientSystem) : Prop where
  | keeps (hsteady : s.reactor.Steady t.reactor) (howners : t.owners = s.owners)
      (hclearing : t.loop.Clearing → s.loop.Clearing)
      (hclosing : ∀ fd next, t.loop = .removing (.closing fd) next →
        s.loop = t.loop ∨ s.reactor.connection.fileDescriptor = fd)
      (hreturned : t.stopping = .returned → s.stopping = .returned)
  /-- `RemoveConnection` closes the socket. -/
  | closes {fd : ℤ} {next : ClientLoop} (hbefore : s.loop = .removing (.closing fd) next)
      (ht : t = { s with reactor := s.reactor.closeFd fd, loop := .removing .clearing next })
  /-- And says that there is no connection. -/
  | clears {next : ClientLoop} (hbefore : s.loop = .removing .clearing next)
      (hhas : t.reactor.hasConnection = false) (howners : t.owners = s.owners)
      (hafter : t.loop = .removing .disconnecting next)
  | sets (env : Environment) {fd : ℤ} {peer : SockAddr} {setting : Setting}
      (howners : s.owners = [.setting fd peer setting])
      (ht : t = { s with
        reactor := (s.reactor.setConnection env fd peer setting).2
        owners := [.setting fd peer (s.reactor.setConnection env fd peer setting).1] })
  /-- `Stop` closes the connection. -/
  | ends (hbefore : s.stopping = .closing)
      (ht : t = { s with reactor := s.reactor.closeConnection, stopping := .returned })

end ClientSystem

theorem ClientLoop.Clearing.closes {loop : ClientLoop} (h : loop.Clearing) : loop.Closes := by
  cases loop with
  | removing removal next =>
    cases removal with
    | clearing => trivial
    | _ => exact h.elim
  | _ => exact h.elim

theorem ClientLoop.after_not_clearing (removes : Bool) {next : ClientLoop} (h : next.IsPlain) :
    ¬(after removes next).Clearing := by
  cases removes with
  | false => exact h.not_clearing
  | true => exact not_false

theorem ClientLoop.after_not_closing (removes : Bool) {next : ClientLoop} (h : next.IsPlain)
    (fd : ℤ) (next' : ClientLoop) : after removes next ≠ .removing (.closing fd) next' := by
  cases removes with
  | false =>
    rintro rfl
    exact h.elim
  | true => exact nofun

theorem ClientLoop.Step.socketTurn {s : ClientSystem} {r : ClientReactor} {loop : ClientLoop}
    (hstep : ClientLoop.Step (s.reactor, s.loop) (r, loop)) (hreturns : s.loop.Returns) :
    s.SocketTurn { s with reactor := r, loop := loop } := by
  obtain ⟨reactor, callers, owners, before, stopping, nextPromise⟩ := s
  have hkeeps (hsteady : reactor.Steady r) (hclearing : ¬loop.Clearing)
      (hclosing : ∀ fd next, loop ≠ .removing (.closing fd) next) :
      ClientSystem.SocketTurn ⟨reactor, callers, owners, before, stopping, nextPromise⟩
        ⟨r, callers, owners, loop, stopping, nextPromise⟩ :=
    .keeps hsteady rfl (fun h => absurd h hclearing)
      (fun fd next h => absurd h (hclosing fd next)) id
  have hplain (hsteady : reactor.Steady r) (hloop : loop.IsPlain) :
      ClientSystem.SocketTurn ⟨reactor, callers, owners, before, stopping, nextPromise⟩
        ⟨r, callers, owners, loop, stopping, nextPromise⟩ :=
    hkeeps hsteady hloop.not_clearing fun fd next heq => by
      subst heq
      exact hloop
  cases hstep with
  | enter h => exact hplain (.refl _) trivial
  | leave h => exact hplain (.refl _) trivial
  | @process _ _ processed env op rest success removes hbatch hqueue hdo =>
    have hnext : (completing (processed + 1) op success).IsPlain := trivial
    have htaken : reactor.Steady (reactor.dequeue op rest) := ⟨rfl, rfl, rfl⟩
    exact hkeeps (htaken.trans (doSend_steady env hdo)) (after_not_clearing removes hnext)
      (after_not_closing removes hnext)
  | @complete _ processed op success => exact hplain (complete_steady op success reactor) trivial
  | drained h =>
    refine hplain (.refl _) ?_
    split <;> trivial
  | flush env =>
    have hnext : waiting.IsPlain := trivial
    exact hkeeps (trySendDirect_steady env reactor) (after_not_clearing _ hnext)
      (after_not_closing _ hnext)
  | interrupted => exact hplain (.refl _) trivial
  | failed => exact hplain (.refl _) trivial
  | woken events hevents =>
    refine hplain ?_ trivial
    split <;> exact ⟨rfl, rfl, rfl⟩
  | @handle _ env event events hevent =>
    refine hkeeps (processKqueueEvent_steady env event reactor) ?_ ?_
    · cases (reactor.processKqueueEvent env event).1 <;> exact not_false
    · cases (reactor.processKqueueEvent env event).1 <;> exact nofun
  | skip h => exact hplain (.refl _) trivial
  | handled => exact hplain (.refl _) trivial
  | @receive _ env outcome fd events =>
    refine hkeeps (receive_steady env fd outcome reactor) ?_ ?_
    · cases (reactor.receive env fd outcome).1 <;> exact not_false
    · cases (reactor.receive env fd outcome).1 <;> exact nofun
  | @remove _ _ env removal following next hremove =>
    have hnext : next.IsPlain := hreturns removal next rfl
    cases removal with
    | checking =>
      unfold removeConnection at hremove
      dsimp only at hremove
      split at hremove
      · cases hremove
        exact hplain (.refl _) hnext
      · cases hremove
        refine .keeps (.refl _) rfl (fun h => h.elim) (fun fd next' heq => .inr ?_) id
        cases heq
        rfl
    | closing fd =>
      cases hremove
      exact .closes rfl rfl
    | clearing =>
      cases hremove
      exact .clears rfl rfl rfl rfl
    | disconnecting =>
      cases hremove
      exact hplain (dispatchEvent_steady env _ reactor) hnext

namespace ClientSystem

variable {s t : ClientSystem}

theorem Inner.socketTurn (h : s.Inner t) (hlone : s.Lone) (hreturns : s.loop.Returns) :
    s.SocketTurn t := by
  obtain ⟨hstep, -, howners, -, -⟩ := h
  have hsame {t : ClientSystem} (hsteady : s.reactor.Steady t.reactor)
      (howners : t.owners = s.owners) (hloop : t.loop = s.loop)
      (hreturned : t.stopping = .returned → s.stopping = .returned) :
      s.SocketTurn t :=
    .keeps hsteady howners (hloop ▸ id) (fun _ _ _ => .inl hloop.symm) hreturned
  cases hstep with
  | request req hsized hrequest => exact hsame (.refl _) rfl rfl id
  | enqueue hcallers hqueue => exact hsame ⟨rfl, rfl, rfl⟩ rfl rfl id
  | enqueueRejected hcallers hqueue => exact hsame (.refl _) rfl rfl id
  | wake hcallers => exact hsame ⟨rfl, rfl, rfl⟩ rfl rfl id
  | setConnection fd peer => exact absurd howners (by simp)
  | @setting env fd peer setting before after hsetting =>
    obtain ⟨rfl, rfl⟩ := eq_singleton hlone.length_le hsetting
    exact .sets env hsetting rfl
  | setConnectionReturned hreturned =>
    dsimp only at howners
    rw [hreturned] at howners
    simp at howners
  | removeConnection => exact absurd howners (by simp)
  | @removing env removal before after hremoving =>
    have hmem : ConnectionCaller.removing removal ∈ s.owners := by simp [hremoving]
    exact absurd hmem (hlone.not_removing removal)
  | loop hloop => exact hloop.socketTurn hreturns
  | stop hrunning => exact hsame ⟨rfl, rfl, rfl⟩ rfl rfl nofun
  | stopQueue hstopping => exact hsame ⟨rfl, rfl, rfl⟩ rfl rfl nofun
  | stopWake hstopping => exact hsame ⟨rfl, rfl, rfl⟩ rfl rfl nofun
  | stopShutdown hstopping =>
    exact hsame (shutdownConnection_unmoved s.reactor).steady rfl rfl nofun
  | stopMonitor hjoined hstopping => exact hsame ⟨rfl, rfl, rfl⟩ rfl rfl nofun
  | stopClose hstopping => exact .ends hstopping rfl

/-- The descriptors are where the threads look for them. -/
structure Placed (s : ClientSystem) : Prop where
  nonneg : s.reactor.hasConnection = true → 0 ≤ s.reactor.connection.fileDescriptor
  setting : ∀ fd peer phase, .setting fd peer phase ∈ s.owners → phase.IsPending →
    phase ≠ .entering → 0 ≤ fd
  raising : ∀ fd peer, .setting fd peer .raising ∈ s.owners →
    s.reactor.connection.fileDescriptor = fd
  closing : ∀ fd next, s.loop = .removing (.closing fd) next →
    s.reactor.connection.fileDescriptor = fd
  returned : s.stopping = .returned → s.reactor.hasConnection = false

theorem Placed.calls (h : s.Placed) (hhas : t.reactor.hasConnection = s.reactor.hasConnection)
    (hconnection : t.reactor.connection = s.reactor.connection) (hloop : t.loop = s.loop)
    (howners : ∀ fd peer phase, .setting fd peer phase ∈ t.owners →
      phase = .entering ∨ .setting fd peer phase ∈ s.owners)
    (hreturned : t.stopping = .returned → s.stopping = .returned) : t.Placed := by
  refine ⟨fun ht => ?_, fun fd peer phase hmem hpending hnot => ?_, fun fd peer hmem => ?_,
    fun fd next ht => ?_, fun ht => ?_⟩
  · rw [hconnection]
    exact h.nonneg (hhas ▸ ht)
  · exact h.setting fd peer phase ((howners fd peer phase hmem).resolve_left hnot) hpending hnot
  · rw [hconnection]
    exact h.raising fd peer ((howners fd peer _ hmem).resolve_left nofun)
  · rw [hconnection]
    exact h.closing fd next (hloop ▸ ht)
  · rw [hhas]
    exact h.returned (hreturned ht)

/-- What the rest of the client grants to its reactor. -/
structure Hosted (s : ClientSystem) : Prop where
  lone : s.Lone
  removeless : s.Removeless
  one : s.connections ≤ 1
  closes : s.loop.Closes → s.reactor.hasConnection = true
  owners : s.stopping ≠ .notCalled → s.owners = []
  joined : s.stopping.Joined → s.loop = .exited

/-- `SetConnection` finds no connection, and none is being removed. -/
theorem Hosted.finds_none (hs : s.Hosted) {fd : ℤ} {peer : SockAddr} {phase : Setting}
    (howners : s.owners = [.setting fd peer phase]) (hundone : phase.isUndone = true) :
    s.reactor.hasConnection = false ∧ ¬s.loop.Closes := by
  obtain ⟨hnone, -⟩ := ClientSystem.finds_none hs.one howners hundone
  exact ⟨hnone, fun hcloses => by simp [hs.closes hcloses] at hnone⟩

theorem Hosted.notCalled (hs : s.Hosted) {owner : ConnectionCaller} (howners : s.owners = [owner]) :
    s.stopping = .notCalled := by
  by_contra hcalled
  rw [hs.owners hcalled] at howners
  cases howners

/-- `SetConnection` goes on from one point to the next. -/
theorem Placed.sets (h : s.Placed) (hs : s.Hosted) (env : Environment) {fd : ℤ} {peer : SockAddr}
    {phase : Setting} (howners : s.owners = [.setting fd peer phase]) :
    Placed { s with
      reactor := (s.reactor.setConnection env fd peer phase).2
      owners := [.setting fd peer (s.reactor.setConnection env fd peer phase).1] } := by
  have hmem : ConnectionCaller.setting fd peer phase ∈ s.owners := by simp [howners]
  have hplaced {r : ClientReactor} {phase' : Setting}
      (hnonneg : r.hasConnection = true → 0 ≤ r.connection.fileDescriptor)
      (hpending : phase'.IsPending → phase' ≠ .entering → 0 ≤ fd)
      (hraising : phase' = .raising → r.connection.fileDescriptor = fd)
      (hclosing : s.loop.Closes →
        r.connection.fileDescriptor = s.reactor.connection.fileDescriptor) :
      Placed { s with reactor := r, owners := [.setting fd peer phase'] } := by
    refine ⟨hnonneg, fun fd' peer' phase'' hmem' => ?_, fun fd' peer' hmem' => ?_,
      fun fd' next hloop => ?_, fun hreturned => ?_⟩
    · cases List.mem_singleton.mp hmem'
      exact hpending
    · cases List.mem_singleton.mp hmem'
      exact hraising rfl
    · have hcloses : s.loop.Closes := by
        have hloop' : s.loop = .removing (.closing fd') next := hloop
        exact hloop' ▸ trivial
      exact (hclosing hcloses).trans (h.closing fd' next hloop)
    · have hnotCalled := hs.notCalled howners
      rw [hnotCalled] at hreturned
      cases hreturned
  have hsteady {r : ClientReactor} {phase' : Setting} (hr : s.reactor.Steady r)
      (hpending : phase'.IsPending → phase' ≠ .entering → 0 ≤ fd) (hraising : phase' ≠ .raising) :
      Placed { s with reactor := r, owners := [.setting fd peer phase'] } := by
    refine hplaced (fun hhas => ?_) hpending (fun heq => absurd heq hraising) fun _ => hr.fd
    rw [hr.fd]
    exact h.nonneg (hr.hasConnection ▸ hhas)
  cases phase with
  | entering =>
    unfold setConnection
    dsimp only
    split
    · exact hsteady (.refl _) (fun hpending => hpending.elim) nofun
    · rename_i hvalid
      exact hsteady (.refl _) (fun _ _ => Int.not_lt.mp fun hneg => hvalid (.inl hneg)) nofun
  | checking =>
    have hfd := h.setting fd peer _ hmem trivial nofun
    unfold setConnection
    dsimp only
    split
    · exact hsteady (.refl _) (fun _ _ => hfd) nofun
    · exact hsteady (.refl _) (fun _ _ => hfd) nofun
  | removing removal => exact absurd hmem (hs.removeless fd peer removal)
  | monitoring =>
    have hfd := h.setting fd peer _ hmem trivial nofun
    unfold setConnection
    dsimp only
    split
    · exact hsteady ⟨rfl, rfl, rfl⟩ (fun hpending => hpending.elim) nofun
    · exact hsteady ⟨rfl, rfl, rfl⟩ (fun _ _ => hfd) nofun
  | assigning =>
    obtain ⟨hnone, hcloses⟩ := hs.finds_none howners rfl
    have hfd := h.setting fd peer _ hmem trivial nofun
    exact hplaced (fun _ => hfd) (fun _ _ => hfd) (fun _ => rfl) fun hclosing =>
      absurd hclosing hcloses
  | raising =>
    have hfd := h.setting fd peer _ hmem trivial nofun
    exact hplaced (fun _ => (h.raising fd peer hmem).symm ▸ hfd) (fun hpending => hpending.elim)
      nofun fun _ => rfl
  | connecting =>
    exact hsteady (dispatchEvent_steady env _ _) (fun hpending => hpending.elim) nofun
  | returned success => exact hsteady (.refl _) (fun hpending => hpending.elim) nofun

theorem SocketTurn.placed (hturn : s.SocketTurn t) (h : s.Placed) (hs : s.Hosted) : t.Placed := by
  cases hturn with
  | keeps hsteady howners hclearing hclosing hreturned =>
    refine ⟨fun hhas => ?_, howners ▸ h.setting, fun fd peer hmem => ?_, fun fd next hloop => ?_,
      fun ht => ?_⟩
    · rw [hsteady.fd]
      exact h.nonneg (hsteady.hasConnection ▸ hhas)
    · rw [hsteady.fd]
      exact h.raising fd peer (howners ▸ hmem)
    · rw [hsteady.fd]
      rcases hclosing fd next hloop with hsame | hfd
      · exact h.closing fd next (hsame.trans hloop)
      · exact hfd
    · rw [hsteady.hasConnection]
      exact h.returned (hreturned ht)
  | closes hbefore ht =>
    subst ht
    exact ⟨h.nonneg, h.setting, h.raising, nofun, h.returned⟩
  | clears hbefore hhas howners hafter =>
    have hclosing : s.loop.Closes := hbefore ▸ trivial
    refine ⟨fun ht => absurd ht (by simp [hhas]), howners ▸ h.setting, fun fd peer hmem => ?_,
      fun fd next hloop => ?_, fun _ => hhas⟩
    · obtain hone : s.owners = [.setting fd peer .raising] :=
        hs.lone.eq_singleton (howners ▸ hmem)
      exact absurd hclosing (hs.finds_none hone rfl).2
    · rw [hafter] at hloop
      cases hloop
  | sets env howners ht => exact ht ▸ h.sets hs env howners
  | ends hbefore ht =>
    have howners : t.owners = [] := ht ▸ hs.owners (by simp [hbefore])
    have hexited : t.loop = .exited := ht ▸ hs.joined (hbefore ▸ trivial)
    have hnone : t.reactor.hasConnection = false := by
      subst ht
      dsimp only
      unfold closeConnection
      split
      · rfl
      · rename_i hopen
        exact Bool.eq_false_iff.mpr fun hhas => hopen ⟨hhas, h.nonneg hhas⟩
    refine ⟨fun hhas => absurd hhas (by simp [hnone]), fun fd peer phase hmem => ?_,
      fun fd peer hmem => ?_, fun fd next hloop => ?_, fun _ => hnone⟩
    · rw [howners] at hmem
      cases hmem
    · rw [howners] at hmem
      cases hmem
    · rw [hexited] at hloop
      cases hloop

/-- The socket that `SetConnection` sets is that of the connection in the end. -/
theorem Placed.sets_holds (h : s.Placed) (hs : s.Hosted) (env : Environment) {fd fd' : ℤ}
    {peer : SockAddr} {phase : Setting} (howners : s.owners = [.setting fd peer phase])
    (hholds : s.Holds fd') :
    Holds { s with
      reactor := (s.reactor.setConnection env fd peer phase).2
      owners := [.setting fd peer (s.reactor.setConnection env fd peer phase).1] } fd' := by
  have hundone {r : ClientReactor} {phase' : Setting} (hbefore : phase.isUndone = true)
      (hafter : phase'.isUndone = true) :
      Holds { s with reactor := r, owners := [.setting fd peer phase'] } fd' := by
    rcases hholds with ⟨peer', phase'', hmem, -⟩ | ⟨hhas, -⟩
    · rw [howners, List.mem_singleton] at hmem
      cases hmem
      exact .inl ⟨peer, phase', List.mem_singleton_self _, hafter⟩
    · exact absurd hhas (by simp [(hs.finds_none howners hbefore).1])
  have hdone {r : ClientReactor} {phase' : Setting} (hbefore : phase.isUndone = false)
      (hr : s.reactor.Steady r) :
      Holds { s with reactor := r, owners := [.setting fd peer phase'] } fd' := by
    rcases hholds with ⟨peer', phase'', hmem, hundone⟩ | ⟨hhas, hfd, hclearing⟩
    · rw [howners, List.mem_singleton] at hmem
      cases hmem
      exact absurd hundone (by simp [hbefore])
    · exact .inr ⟨hr.hasConnection.trans hhas, hr.fd.trans hfd, hclearing⟩
  cases phase with
  | entering =>
    unfold setConnection
    dsimp only
    split <;> exact hundone rfl rfl
  | checking =>
    unfold setConnection
    dsimp only
    split <;> exact hundone rfl rfl
  | removing removal => exact absurd (by simp [howners]) (hs.removeless fd peer removal)
  | monitoring =>
    unfold setConnection
    dsimp only
    split <;> exact hundone rfl rfl
  | assigning => exact hundone rfl rfl
  | raising =>
    obtain ⟨hnone, hcloses⟩ := hs.finds_none howners rfl
    have hfd := h.raising fd peer (by simp [howners])
    rcases hholds with ⟨peer', phase', hmem, -⟩ | ⟨hhas, -⟩
    · rw [howners, List.mem_singleton] at hmem
      cases hmem
      exact .inr ⟨rfl, hfd, fun hclearing => hcloses (ClientLoop.Clearing.closes hclearing)⟩
    · exact absurd hhas (by simp [hnone])
  | connecting => exact hdone rfl (dispatchEvent_steady env _ _)
  | returned success =>
    cases success with
    | false => exact hundone rfl rfl
    | true => exact hdone rfl (.refl _)

/-- Who holds a socket goes on holding it, or it is closed. -/
theorem SocketTurn.holds (hturn : s.SocketTurn t) (h : s.Placed) (hs : s.Hosted) {fd : ℤ}
    (hholds : s.Holds fd) :
    t.Holds fd ∨ .closed fd ∈ added s.reactor.log t.reactor.log := by
  cases hturn with
  | keeps hsteady howners hclearing hclosing hreturned =>
    refine .inl (hholds.imp (fun hset => ?_) fun hopen => ?_)
    · exact howners ▸ hset
    · obtain ⟨hhas, hfd, hnot⟩ := hopen
      exact ⟨hsteady.hasConnection.trans hhas, hsteady.fd.trans hfd,
        fun ht => hnot (hclearing ht)⟩
  | closes hbefore ht =>
    subst ht
    rcases hholds with hset | ⟨hhas, hfd, hnot⟩
    · exact .inl (.inl hset)
    · obtain rfl := (h.closing _ _ hbefore).symm.trans hfd
      exact .inr (by simp [closeFd, added_cons])
  | clears hbefore hhas howners hafter =>
    rcases hholds with hset | ⟨-, -, hnot⟩
    · exact .inl (.inl (howners ▸ hset))
    · exact absurd (hbefore ▸ trivial) hnot
  | sets env howners ht => exact .inl (ht ▸ h.sets_holds hs env howners hholds)
  | ends hbefore ht =>
    subst ht
    have howners : s.owners = [] := hs.owners (by simp [hbefore])
    rcases hholds with ⟨peer, phase, hmem, -⟩ | ⟨hhas, rfl, -⟩
    · rw [howners] at hmem
      cases hmem
    · have hopen : s.reactor.closeConnection.log =
          .closed s.reactor.connection.fileDescriptor :: s.reactor.log := by
        rw [closeConnection, if_pos ⟨hhas, h.nonneg hhas⟩]
        rfl
      exact .inr (by simp [hopen, added_cons])

end ClientSystem

/-! ## The ledger of a client -/

namespace Client

variable {c c' : Client}

theorem Wired.hosted (h : c.Wired) {s : ClientSystem} (hreactor : c.reactor = some s)
    (hhoused : s.Housed) : s.Hosted := by
  have hattends := h.owners s hreactor
  obtain ⟨hlone, hremoveless⟩ := hattends.lone
  refine ⟨hlone, hremoveless, (connections_le hreactor).trans h.one, h.closes s hreactor,
    fun hcalled => ?_, hhoused.joined⟩
  obtain ⟨graceful, hcall⟩ := (h.stopping s hreactor).resolve_left hcalled
  exact (attends_ordinary fun fd heq => by rw [hcall] at heq; cases heq).mp hattends

def Started (c : Client) : Prop :=
  ∀ s, c.reactor = some s → s.Phase ∨ s.Idle

theorem Step.started (hstep : Client.Step c c') (h : c.Started) : c'.Started := by
  refine hstep.embeds (I := fun s => s.Phase ∨ s.Idle) (fun fds => ?_) (fun kqueueOpen => ?_)
    (fun s t hs hst => ?_) h
  · exact .inl (started_clientPhase .workerPool fds)
  · exact .inr ⟨rfl, rfl, rfl, rfl, nofun⟩
  · exact hs.imp hst.phase hst.idle

/-- What is known of the reactor of a client between two steps. -/
structure Sound (c : Client) : Prop where
  wired : c.Wired
  housed : ∀ s, c.reactor = some s → s.Housed
  started : c.Started
  placed : ∀ s, c.reactor = some s → s.Placed

/-- A reactor without threads that set the connection, and without a connection, holds nothing. -/
theorem not_holds {s : ClientSystem} (howners : s.owners = [])
    (hhas : s.reactor.hasConnection = false) (fd : ℤ) : ¬s.Holds fd := by
  rintro (⟨peer, phase, hmem, -⟩ | ⟨hopen, -⟩)
  · rw [howners] at hmem
    cases hmem
  · rw [hhas] at hopen
    cases hopen

theorem Step.placed (hstep : Client.Step c c') (h : c.Sound) :
    ∀ s, c'.reactor = some s → s.Placed := by
  have hkeeps (hkeeps : c.Keeps c') (s : ClientSystem) (hs : c'.reactor = some s) : s.Placed :=
    h.placed s (hkeeps.reactor ▸ hs)
  cases hstep with
  | exchange hcall => exact hkeeps (exchange_keeps _ _ c)
  | connect success hcall => exact hkeeps (connect_keeps _ _ success c)
  | initReactor success hcall => exact hkeeps (initReactor_keeps _ success c)
  | startReactor fds hcall =>
    intro s hs
    cases hs
    exact ⟨nofun, nofun, nofun, nofun, nofun⟩
  | startFails kqueueOpen hcall =>
    intro s hs
    cases hs
    exact ⟨nofun, nofun, nofun, nofun, nofun⟩
  | setConnection hreactor hcall =>
    intro t ht
    cases ht
    refine (h.placed _ hreactor).calls rfl rfl rfl (fun fd peer phase hmem => ?_) id
    exact (List.mem_cons.mp hmem).imp_left fun heq => by cases heq; rfl
  | @setConnectionReturned s fd peer success before after hreactor howners hcall =>
    rw [(afterSetConnection_keeps fd success _).reactor]
    intro t ht
    cases ht
    refine (h.placed _ hreactor).calls rfl rfl rfl (fun fd peer phase hmem => .inr ?_) id
    rw [howners]
    exact ((List.sublist_cons_self _ _).append_left before).subset hmem
  | swap hcall => exact hkeeps (swap_keeps _ c)
  | poll elapsed hcall => exact hkeeps (poll_keeps _ elapsed c)
  | stop hreactor hrunning hcall =>
    intro t ht
    cases ht
    exact (h.placed _ hreactor).calls rfl rfl rfl (fun _ _ _ => .inr) nofun
  | reset hreactor hcall => exact fun s hs => (Option.some_ne_none _ hs.symm).elim
  | stopped hreactor hstopped hcall => exact fun s hs => (Option.some_ne_none _ hs.symm).elim
  | @deliver event rest hevents => exact (onNetworkEvent_keeps event c).reactor ▸ h.placed
  | request hreactor hsenders hsized hrequest =>
    intro t ht
    cases ht
    exact (h.placed _ hreactor).calls rfl rfl rfl (fun _ _ _ => .inr) id
  | react hreactor hinner =>
    intro t ht
    cases ht
    have hhosted := h.wired.hosted hreactor (h.housed _ hreactor)
    have hturn := hinner.socketTurn hhosted.lone (h.housed _ hreactor).returns
    exact hturn.placed (h.placed _ hreactor) hhosted
  | _ => exact h.placed

theorem Step.sound (hstep : Client.Step c c') (h : c.Sound) : c'.Sound :=
  ⟨hstep.wired h.wired h.housed, hstep.housed h.housed, hstep.started h.started, hstep.placed h⟩

/-- `ConnectInternal` goes on with its socket, or closes it. -/
def PassesOn (fd : ℤ) (c c' : Client) : Prop :=
  c'.log = c.log ∧ c'.call.socket = some fd ∨ c'.log = .closed fd :: c.log

theorem exchange_passesOn (fd : ℤ) (addr : SockAddr) (c : Client) :
    PassesOn fd c (c.exchange fd addr) := by
  unfold exchange
  split
  · exact .inr rfl
  · exact .inl ⟨rfl, rfl⟩

theorem connect_passesOn (fd : ℤ) (addr : SockAddr) (success : Bool) (c : Client) :
    PassesOn fd c (c.connect fd addr success) := by
  unfold connect
  split
  · exact .inr rfl
  · exact .inl ⟨rfl, rfl⟩

theorem initReactor_passesOn (fd : ℤ) (success : Bool) (c : Client) :
    PassesOn fd c (c.initReactor fd success) := by
  unfold initReactor
  split
  · exact .inl ⟨rfl, rfl⟩
  · split
    · exact .inr rfl
    · exact .inl ⟨rfl, rfl⟩

theorem swap_log (timeout : Option ℤ) (c : Client) :
    (c.swap timeout).log = c.log := by
  unfold swap
  dsimp only
  split <;> rfl

theorem poll_log (timeout : ℤ) (elapsed : Bool) (c : Client) :
    (c.poll timeout elapsed).log = c.log := by
  unfold poll
  split
  · rfl
  · split
    · rfl
    · split <;> rfl

/-- Only `ConnectInternal` opens sockets. -/
theorem Step.opened (hstep : Client.Step c c') {fd : ℤ}
    (hopened : .opened fd ∈ added c.log c'.log) : c'.call.socket = some fd := by
  have hsame {c' : Client} (hlog : c'.log = c.log) (hopened : .opened fd ∈ added c.log c'.log) :
      c'.call.socket = some fd := by
    rw [hlog, added_self] at hopened
    cases hopened
  have hclosed {c' : Client} {fd' : ℤ} (hlog : c'.log = .closed fd' :: c.log)
      (hopened : .opened fd ∈ added c.log c'.log) : c'.call.socket = some fd := by
    rw [hlog, added_cons, List.mem_singleton] at hopened
    cases hopened
  have hpasses {c' : Client} {fd' : ℤ} (hpasses : PassesOn fd' c c')
      (hopened : .opened fd ∈ added c.log c'.log) : c'.call.socket = some fd := by
    rcases hpasses with ⟨hlog, -⟩ | hlog
    · exact hsame hlog hopened
    · exact hclosed hlog hopened
  cases hstep with
  | openSocket fd' addr hfd hcall =>
    have hlog : (c.openSocket fd' addr).log = .opened fd' :: c.log := rfl
    rw [hlog, added_cons, List.mem_singleton] at hopened
    cases hopened
    rfl
  | exchange hcall => exact hpasses (exchange_passesOn _ _ c) hopened
  | connect success hcall => exact hpasses (connect_passesOn _ _ success c) hopened
  | initReactor success hcall => exact hpasses (initReactor_passesOn _ success c) hopened
  | startFails kqueueOpen hcall => exact hclosed rfl hopened
  | @setConnectionReturned s fd' peer success before after hreactor howners hcall =>
    cases success with
    | false => exact hclosed rfl hopened
    | true => exact hsame rfl hopened
  | swap hcall => exact hsame (swap_log _ c) hopened
  | poll elapsed hcall => exact hsame (poll_log _ elapsed c) hopened
  | @deliver event rest hevents => exact hsame (by cases event <;> rfl) hopened
  | _ => exact hsame rfl hopened

theorem PassesOn.holds {fd fd' : ℤ} (hpasses : PassesOn fd c c') (hreactor : c'.reactor = c.reactor)
    (hcall : c.call.socket = some fd) (hholds : c.Holds fd') : c'.Holds fd' ∨ c.Closes c' fd' := by
  rcases hholds with hsocket | hinside
  · obtain rfl : fd = fd' := Option.some.inj (hcall.symm.trans hsocket)
    rcases hpasses with ⟨-, hnext⟩ | hlog
    · exact .inl (.inl hnext)
    · exact .inr (.inl (by simp [hlog, added_cons]))
  · exact .inl (.inr (hreactor ▸ hinside))

/-- What is held stays held, or is closed. -/
theorem Step.holds (hstep : Client.Step c c') (h : c.Sound) {fd : ℤ} (hholds : c.Holds fd) :
    c'.Holds fd ∨ c.Closes c' fd := by
  have hkeeps {c' : Client} (hreactor : c'.reactor = c.reactor) (hcall : c.call.socket = none) :
      c'.Holds fd ∨ c.Closes c' fd := by
    refine .inl (.inr (hreactor ▸ hholds.resolve_left fun hsocket => ?_))
    rw [hcall] at hsocket
    cases hsocket
  have hvacuous (hcall : c.call.socket = none) (hnone : ∀ s, c.reactor = some s → ¬s.Holds fd) :
      c'.Holds fd ∨ c.Closes c' fd := by
    rcases hholds with hsocket | ⟨s, hreactor, hinside⟩
    · rw [hcall] at hsocket
      cases hsocket
    · exact absurd hinside (hnone s hreactor)
  have hinside {s t : ClientSystem} (hreactor : c.reactor = some s) (hcall : c.call.socket = none)
      {c' : Client} (hreactor' : c'.reactor = some t) (hst : s.Holds fd → t.Holds fd) :
      c'.Holds fd ∨ c.Closes c' fd := by
    rcases hholds with hsocket | ⟨s', hs', hinside⟩
    · rw [hcall] at hsocket
      cases hsocket
    · cases hreactor.symm.trans hs'
      exact .inl (.inr ⟨t, hreactor', hst hinside⟩)
  have hplain {call : ClientCall} (hcall : c.call = call) (hsocket : call.socket = none) :
      c.call.socket = none :=
    (congrArg ClientCall.socket hcall).trans hsocket
  cases hstep with
  | refuse hcall => exact hkeeps rfl (hplain hcall rfl)
  | openSocket fd' addr hfd hcall => exact hkeeps rfl (hplain hcall rfl)
  | exchange hcall =>
    exact (exchange_passesOn _ _ c).holds (exchange_keeps _ _ c).reactor (hcall ▸ rfl) hholds
  | connect success hcall =>
    exact (connect_passesOn _ _ success c).holds (connect_keeps _ _ success c).reactor
      (hcall ▸ rfl) hholds
  | initReactor success hcall =>
    exact (initReactor_passesOn _ success c).holds (initReactor_keeps _ success c).reactor
      (hcall ▸ rfl) hholds
  | startReactor fds hcall =>
    rcases hholds with hsocket | ⟨s, hs, -⟩
    · exact .inl (.inl ((congrArg ClientCall.socket hcall).symm.trans hsocket))
    · exact (Option.some_ne_none _ (hs.symm.trans (h.wired.starting _ hcall))).elim
  | startFails kqueueOpen hcall =>
    rcases hholds with hsocket | ⟨s, hs, -⟩
    · obtain rfl := Option.some.inj ((congrArg ClientCall.socket hcall).symm.trans hsocket)
      exact .inr (.inl (by simp [closeSocket, added_cons]))
    · exact (Option.some_ne_none _ (hs.symm.trans (h.wired.starting _ hcall))).elim
  | setConnection hreactor hcall =>
    rcases hholds with hsocket | ⟨s, hs, hset | hopen⟩
    · obtain rfl := Option.some.inj ((congrArg ClientCall.socket hcall).symm.trans hsocket)
      exact .inl (.inr ⟨_, rfl, .inl ⟨c.peer, .entering, List.mem_cons_self, rfl⟩⟩)
    · cases hreactor.symm.trans hs
      obtain ⟨peer, phase, hmem, hundone⟩ := hset
      exact .inl (.inr ⟨_, rfl, .inl ⟨peer, phase, List.mem_cons_of_mem _ hmem, hundone⟩⟩)
    · cases hreactor.symm.trans hs
      exact .inl (.inr ⟨_, rfl, .inr hopen⟩)
  | @setConnectionReturned s fd' peer success before after hreactor howners hcall =>
    have hreactor' := (afterSetConnection_keeps fd' success
      { c with reactor := some { s with owners := before ++ after } }).reactor
    have hmem : ConnectionCaller.setting fd' peer (.returned success) ∈ s.owners := by
      simp [howners]
    rcases hholds with hsocket | ⟨s', hs', ⟨peer', phase, hset, hundone⟩ | hopen⟩
    · rw [hcall] at hsocket
      cases hsocket
    · cases hreactor.symm.trans hs'
      have hlone := (h.wired.owners s hreactor).lone.1
      rw [hlone.eq_singleton hmem, List.mem_singleton] at hset
      cases hset
      cases success with
      | false => exact .inr (.inl (by simp [afterSetConnection, closeSocket, added_cons]))
      | true => cases hundone
    · cases hreactor.symm.trans hs'
      exact .inl (.inr ⟨_, hreactor', .inr hopen⟩)
  | fail hcall => exact hkeeps rfl (hplain hcall rfl)
  | connectReturned hcall => exact hkeeps rfl (hplain hcall rfl)
  | shutDown timeout hcall => exact hkeeps rfl (hplain hcall rfl)
  | swap hcall => exact hkeeps (swap_keeps _ c).reactor (hplain hcall rfl)
  | poll elapsed hcall => exact hkeeps (poll_keeps _ elapsed c).reactor (hplain hcall rfl)
  | stop hreactor hrunning hcall => exact hinside hreactor (hplain hcall rfl) rfl id
  | reset hreactor hcall =>
    refine hvacuous (hplain hcall rfl) fun s hs => ?_
    have howners : s.owners = [] :=
      (attends_ordinary fun fd' heq => by rw [hcall] at heq; cases heq).mp (h.wired.owners s hs)
    refine not_holds howners ?_ fd
    rcases h.started s hs with hphase | hidle
    · have hnotCalled : s.stopping = .notCalled := by
        refine (h.wired.stopping s hs).resolve_right ?_
        rintro ⟨graceful', heq⟩
        rw [hcall] at heq
        cases heq
      exact absurd (hphase.running.mpr hnotCalled) (hreactor s hs)
    · exact hidle.hasConnection
  | @stopped s graceful hreactor hstopped hcall =>
    refine hvacuous (hplain hcall rfl) fun s' hs' => ?_
    cases hreactor.symm.trans hs'
    have howners : s.owners = [] :=
      (attends_ordinary fun fd' heq => by rw [hcall] at heq; cases heq).mp (h.wired.owners s hs')
    exact not_holds howners ((h.placed s hs').returned hstopped) fd
  | drained hevents hcall => exact hkeeps rfl (hplain hcall rfl)
  | finish hcall => exact hkeeps rfl (hplain hcall rfl)
  | shutdownReturned hcall => exact hkeeps rfl (hplain hcall rfl)
  | @deliver event rest hevents =>
    have hcall : (c.deliver event rest).call = c.call := by cases event <;> rfl
    have hreactor : (c.deliver event rest).reactor = c.reactor :=
      (onNetworkEvent_keeps event c).reactor
    exact .inl (hholds.imp (fun hsocket => hcall ▸ hsocket) fun hinside => hreactor ▸ hinside)
  | sendData data hconnected hreactor => exact .inl hholds
  | sendAsync data callback hconnected hreactor => exact .inl hholds
  | measure hreactor hsenders => exact .inl hholds
  | requestRefused hreactor hsenders hrequest => exact .inl hholds
  | request hreactor hsenders hsized hrequest =>
    refine .inl (hholds.imp_right ?_)
    rintro ⟨s', hs', hinside⟩
    cases hreactor.symm.trans hs'
    exact ⟨_, rfl, hinside⟩
  | @react s t hreactor hinner =>
    have hhosted := h.wired.hosted hreactor (h.housed _ hreactor)
    have hturn := hinner.socketTurn hhosted.lone (h.housed _ hreactor).returns
    rcases hholds with hsocket | ⟨s', hs', hinside⟩
    · exact .inl (.inl hsocket)
    · cases hreactor.symm.trans hs'
      rcases hturn.holds (h.placed s hreactor) hhosted hinside with ht | hclosed
      · exact .inl (.inr ⟨t, rfl, ht⟩)
      · refine .inr (.inr ?_)
        rw [inside, inside, hreactor]
        exact hclosed

end Client

theorem socketClients_sound {states : List (Client × Set ℤ)} (hrun : socketClients.Run states) :
    ∀ x ∈ states, x.1.Sound ∧ ∀ fd ∈ x.2, x.1.Holds fd := by
  refine hrun.invariant ?_ ?_
  · rintro ⟨c, sockets⟩ ⟨hc, hsockets⟩
    obtain rfl : c = {} := hc
    obtain rfl : sockets = ∅ := hsockets
    have hwired : Client.Wired {} := clients_wired (.start rfl) _ List.mem_cons_self
    have hvacuous {s : ClientSystem} (hs : none = some s) : False := Option.some_ne_none s hs.symm
    exact ⟨⟨hwired, fun _ hs => (hvacuous hs).elim, fun _ hs => (hvacuous hs).elim,
      fun _ hs => (hvacuous hs).elim⟩, fun _ hmem => hmem.elim⟩
  · rintro ⟨c, sockets⟩ ⟨c', sockets'⟩ ⟨hsound, hholds⟩ ⟨hstep, hsockets⟩
    obtain rfl : sockets' = c.sockets c' sockets := hsockets
    have hstep' : Client.Step c c' := hstep
    refine ⟨hstep'.sound hsound, fun fd hmem => ?_⟩
    rcases hmem with hopened | ⟨hopen, hnot⟩
    · exact .inl (hstep'.opened hopened)
    · exact (hstep'.holds hsound (hholds fd hopen)).resolve_right hnot

end DarwinCore.Network
