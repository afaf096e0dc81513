import DarwinCore.Verification.Network.ClientSockets
import DarwinCore.Verification.Network.EventOrder

/-! # When `Disconnect` disconnects

`Disconnect` ends the connection and stops the threads of the client if it finds the client
connected or connecting, and does nothing otherwise. A client whose peer has closed the connection,
or whose `GracefulShutdown` has timed out, keeps its reactor and its worker. -/

namespace DarwinCore.Network

open ClientReactor

namespace Client

variable {c c' : Client}

/-! ## From the test to the return -/

/-- Where `Disconnect` is once it has passed its test. -/
def Ending (c : Client) : Prop :=
  match c.call with
  | .cleaning false => True
  | .stopping false => True
  | .draining false => True
  | .storing false => c.workerPool = false
  | _ => False

/-- A thread that is in none of the calls that set and end the connection takes a step. -/
structure Aside (c c' : Client) : Prop where
  call : c'.call = c.call
  workerPool : c'.workerPool = c.workerPool

theorem Aside.ending (h : c.Aside c') (hc : c.Ending) : c'.Ending := by
  unfold Ending at hc ⊢
  rw [h.call, h.workerPool]
  exact hc

theorem deliver_aside (event : NetworkEvent) (rest : List NetworkEvent) (c : Client) :
    c.Aside (c.deliver event rest) := by
  cases event <;> exact ⟨rfl, rfl⟩

/-- The test of `state_` is the next step of `Disconnect`. -/
theorem Step.tests (hstep : Client.Step c c') (hcall : c.call = .swapping none) :
    c'.call = .swapping none ∨ c' = c.swap none := by
  have hnot {call : ClientCall} (heq : c.call = call) (hne : call ≠ .swapping none) :
      c'.call = .swapping none ∨ c' = c.swap none :=
    absurd (heq.symm.trans hcall) hne
  cases hstep with
  | refuse h => exact hnot h nofun
  | openSocket fd addr hfd h => exact hnot h nofun
  | exchange h => exact hnot h nofun
  | connect success h => exact hnot h nofun
  | initReactor success h => exact hnot h nofun
  | startReactor fds h => exact hnot h nofun
  | startFails kqueueOpen h => exact hnot h nofun
  | setConnection hreactor h => exact hnot h nofun
  | setConnectionReturned hreactor howners h => exact hnot h nofun
  | fail h => exact hnot h nofun
  | connectReturned h => exact hnot h nofun
  | shutDown timeout h => exact hnot h nofun
  | swap h =>
    cases h.symm.trans hcall
    exact .inr rfl
  | poll elapsed h => exact hnot h nofun
  | stop hreactor hrunning h => exact hnot h nofun
  | reset hreactor h => exact hnot h nofun
  | stopped hreactor hstopped h => exact hnot h nofun
  | drained hevents h => exact hnot h nofun
  | finish h => exact hnot h nofun
  | shutdownReturned h => exact hnot h nofun
  | @deliver event rest hevents => exact .inl ((deliver_aside event rest c).call.trans hcall)
  | _ => exact .inl hcall

theorem Step.ending (hstep : Client.Step c c') (h : c.Ending) :
    c'.Ending ∨ c.call = .storing false ∧ c.workerPool = false ∧ c' = c.finish false := by
  have hnot {call : ClientCall} (hcall : c.call = call)
      (hending : ¬Ending { c with call := call }) :
      c'.Ending ∨ c.call = .storing false ∧ c.workerPool = false ∧ c' = c.finish false := by
    subst hcall
    exact absurd h hending
  cases hstep with
  | refuse h => exact hnot h not_false
  | openSocket fd addr hfd h => exact hnot h not_false
  | exchange h => exact hnot h not_false
  | connect success h => exact hnot h not_false
  | initReactor success h => exact hnot h not_false
  | startReactor fds h => exact hnot h not_false
  | startFails kqueueOpen h => exact hnot h not_false
  | setConnection hreactor h => exact hnot h not_false
  | setConnectionReturned hreactor howners h => exact hnot h not_false
  | fail h => exact hnot h not_false
  | connectReturned h => exact hnot h not_false
  | shutDown timeout h => exact hnot h not_false
  | swap h => exact hnot h not_false
  | poll elapsed h => exact hnot h not_false
  | @stop s graceful hreactor hrunning hcall =>
    cases graceful with
    | false => exact .inl trivial
    | true => exact hnot hcall not_false
  | @reset graceful hreactor hcall =>
    cases graceful with
    | false => exact .inl trivial
    | true => exact hnot hcall not_false
  | @stopped s graceful hreactor hstopped hcall =>
    cases graceful with
    | false => exact .inl trivial
    | true => exact hnot hcall not_false
  | @drained graceful hevents hcall =>
    cases graceful with
    | false => exact .inl rfl
    | true => exact hnot hcall not_false
  | @finish graceful hcall =>
    cases graceful with
    | false =>
      rw [Ending, hcall] at h
      exact .inr ⟨hcall, h, rfl⟩
    | true => exact hnot hcall not_false
  | shutdownReturned h => exact hnot h not_false
  | @deliver event rest hevents => exact .inl ((deliver_aside event rest c).ending h)
  | _ => exact .inl (Aside.ending ⟨rfl, rfl⟩ h)

/-- The state in which `Disconnect` passes its test. -/
def IsOpen (c : Client) : Prop :=
  c.state = .connected ∨ c.state = .connecting

theorem swap_ending (h : c.IsOpen) : (c.swap none).Ending := by
  rcases h with hstate | hstate
  · rw [swap, hstate]
    trivial
  · rw [swap, hstate]
    trivial

theorem swap_idle (h : ¬c.IsOpen) : c.swap none = { c with call := .idle } := by
  rw [IsOpen, not_or] at h
  unfold swap
  dsimp only
  split
  · rename_i hstate
    exact absurd hstate h.1
  · rename_i hstate
    exact absurd hstate h.2
  · rfl

section Paths

variable {states : List Client} {s t : Client} {mid : List Client}

/-- `Disconnect` that has passed its test is on its way, or has just returned. -/
theorem ending_path (hrun : clients.Run states) (hpath : t :: mid ++ [s] <:+: states)
    (hcall : s.call = .swapping none) (hopen : s.IsOpen)
    (htested : ∀ u ∈ t :: mid, u.call ≠ .swapping none) (hinside : ∀ u ∈ mid, u.call ≠ .idle) :
    t.Ending ∨
      ∃ u ∈ states, u.call = .storing false ∧ u.workerPool = false ∧ t = u.finish false := by
  induction mid generalizing t with
  | nil =>
    have hstep : Client.Step s t := hrun.step_of_infix hpath
    have ht : t = s.swap none := (hstep.tests hcall).resolve_left (htested t List.mem_cons_self)
    exact .inl (ht ▸ swap_ending hopen)
  | cons v mid ih =>
    have hlast : [t, v] <:+: t :: v :: mid ++ [s] := (List.prefix_append [t, v] _).isInfix
    have hstep : Client.Step v t := hrun.step_of_infix (hlast.trans hpath)
    have hv : v ∈ states := hpath.mem (by simp)
    rcases ih ((List.infix_cons List.infix_rfl).trans hpath)
      (fun u hu => htested u (List.mem_cons_of_mem t hu))
      (fun u hu => hinside u (List.mem_cons_of_mem v hu)) with hending | ⟨u, -, -, -, hreturned⟩
    · exact (hstep.ending hending).imp_right fun ⟨hstoring, hpool, ht⟩ =>
        ⟨v, hv, hstoring, hpool, ht⟩
    · exact absurd (hreturned ▸ rfl) (hinside v List.mem_cons_self)

/-- `Disconnect` that has not passed its test returns at once. -/
theorem idle_path (hrun : clients.Run states) (hpath : t :: mid ++ [s] <:+: states)
    (hcall : s.call = .swapping none) (hopen : ¬s.IsOpen)
    (htested : ∀ u ∈ t :: mid, u.call ≠ .swapping none) (hinside : ∀ u ∈ mid, u.call ≠ .idle) :
    t = { s with call := .idle } := by
  have hfirst {u : Client} (hu : u ∈ t :: mid) (hus : [u, s] <:+: states) :
      u = { s with call := .idle } := by
    have hstep : Client.Step s u := hrun.step_of_infix hus
    exact ((hstep.tests hcall).resolve_left (htested u hu)).trans (swap_idle hopen)
  rcases List.eq_nil_or_concat mid with rfl | ⟨rest, u, rfl⟩
  · exact hfirst List.mem_cons_self hpath
  · have hu : u ∈ rest.concat u := by simp
    have hus : [u, s] <:+: t :: rest.concat u ++ [s] := ⟨t :: rest, [], by simp⟩
    have hidle := hfirst (List.mem_cons_of_mem t hu) (hus.trans hpath)
    exact absurd (hidle ▸ rfl) (hinside u hu)

end Paths

/-! ## Connecting again -/

/-- A step of the next `Connect`, whose system calls succeed, or of another thread. -/
structure Succeeds (c c' : Client) : Prop where
  step : Client.Step c c'
  returned : ∀ success, c.call ≠ .connectReturned success
  shutDown : ∀ timeout, c'.call ≠ .swapping timeout
  opened : c.call = .idle → c'.call ≠ .connectReturned false
  connected : ∀ fd addr, c.call = .connecting fd addr → c'.call ≠ .failing
  pool : ∀ fd, c.call = .initializing fd → c'.call ≠ .failing
  started : ∀ fd, c.call = .starting fd → c'.call ≠ .failing
  monitored : ∀ fd, .kevent fd .addRead false ∉ added c.inside c'.inside

structure Ended (c : Client) : Prop where
  state : c.state = .disconnected
  reactor : c.reactor = none
  events : c.events = []

end Client

/-- `SetConnection` has not failed. -/
structure ClientSystem.Sets (s : ClientSystem) (fd : ℤ) : Prop where
  phase : s.Phase
  stopping : s.stopping = .notCalled
  accepts : s.reactor.AcceptsAll
  owners : ∃ peer phase, s.owners = [.setting fd peer phase] ∧ phase ≠ .returned false ∧
    (phase = .entering → 0 ≤ fd)

def Client.Connects (c : Client) : Prop :=
  match c.call with
  | .idle => c.Ended
  | .exchanging fd _ => c.Ended ∧ 0 ≤ fd
  | .connecting fd _ => c.reactor = none ∧ 0 ≤ fd
  | .initializing fd => c.reactor = none ∧ 0 ≤ fd
  | .starting fd => 0 ≤ fd
  | .calling fd => 0 ≤ fd ∧ ∃ s, c.reactor = some s ∧ s.Phase ∧ s.stopping = .notCalled ∧
      s.reactor.AcceptsAll
  | .setting fd => ∃ s, c.reactor = some s ∧ s.Sets fd
  | .connectReturned success => success = true
  | _ => False

/-- If the read event can be registered, `SetConnection` does not fail once it is there. -/
theorem ClientReactor.setConnection_succeeds (env : Environment) {fd : ℤ} (peer : SockAddr)
    {phase : Setting} {r : ClientReactor} (hrunning : r.isRunning = true)
    (hphase : phase ≠ .returned false) (hfd : phase = .entering → 0 ≤ fd)
    (hmonitored :
      .kevent fd .addRead false ∉ added r.log (r.setConnection env fd peer phase).2.log) :
    (r.setConnection env fd peer phase).1 ≠ .returned false ∧
      (r.setConnection env fd peer phase).1 ≠ .entering := by
  cases phase with
  | entering =>
    have hvalid : ¬(fd < 0 ∨ ¬r.isRunning = true) :=
      not_or.mpr ⟨Int.not_lt.mpr (hfd rfl), not_not.mpr hrunning⟩
    rw [setConnection, if_neg hvalid]
    simp
  | checking =>
    unfold setConnection
    dsimp only
    split <;> simp
  | removing removal =>
    unfold setConnection
    dsimp only
    split <;> simp
  | monitoring =>
    unfold setConnection at hmonitored ⊢
    dsimp only at hmonitored ⊢
    split at hmonitored
    · rename_i hfailed
      have hlog : ((r.monitor env fd .addRead).2.closeFd fd).log =
          [.closed fd, .kevent fd .addRead false] ++ r.log := by
        have hresult : (r.kernel.kqueueOpen && env.kevent r.log.length) = false :=
          Bool.eq_false_iff.mpr hfailed
        simp [closeFd, monitor, hresult]
      rw [hlog, added_append] at hmonitored
      exact absurd (by simp) hmonitored
    · rename_i hregistered
      rw [if_neg hregistered]
      simp
  | assigning => simp [setConnection]
  | raising => simp [setConnection]
  | connecting => simp [setConnection]
  | returned success => simpa [setConnection] using hphase

/-- The threads inside the reactor do not make `SetConnection` fail. -/
theorem ClientSystem.Sets.enters {s t : ClientSystem} {fd : ℤ} (h : s.Sets fd) (hinner : s.Inner t)
    (hturn : s.SocketTurn t)
    (hmonitored : .kevent fd .addRead false ∉ added s.reactor.log t.reactor.log) : t.Sets fd := by
  have hkept (howners : t.owners = s.owners) : t.Sets fd :=
    ⟨hinner.step.phase h.phase, hinner.stopping h.stopping, hinner.accepted, howners ▸ h.owners⟩
  cases hturn with
  | keeps hsteady howners hclearing hclosing hreturned => exact hkept howners
  | closes hbefore ht => exact hkept (ht ▸ rfl)
  | clears hbefore hhas howners hafter => exact hkept howners
  | @sets env fd' peer phase howners ht =>
    obtain ⟨peer', phase', hone, hphase, hfd⟩ := h.owners
    rw [howners] at hone
    cases hone
    have hlogs : .kevent fd .addRead false ∉
        added s.reactor.log (s.reactor.setConnection env fd peer phase).2.log := by
      rw [ht] at hmonitored
      exact hmonitored
    obtain ⟨hnext, hentered⟩ := setConnection_succeeds env peer
      (h.phase.running.mpr h.stopping) hphase hfd hlogs
    exact ⟨hinner.step.phase h.phase, hinner.stopping h.stopping, hinner.accepted, peer, _,
      ht ▸ rfl, hnext, fun hentering => absurd hentering hentered⟩
  | ends hbefore ht =>
    rw [h.stopping] at hbefore
    cases hbefore

namespace Client

variable {c c' : Client}

theorem Connects.frame (h : c.Connects) (hcall : c'.call = c.call)
    (hreactor : c'.reactor = c.reactor) (hended : c.Ended → c'.Ended) : c'.Connects := by
  unfold Connects at h ⊢
  rw [hcall, hreactor]
  cases hcase : c.call with
  | idle =>
    rw [hcase] at h
    exact hended h
  | exchanging fd addr =>
    rw [hcase] at h
    exact ⟨hended h.1, h.2⟩
  | _ =>
    rw [hcase] at h
    exact h

/-- The reactor of a client that has not started it, or where `SetConnection` is called. -/
theorem Connects.inside (h : c.Connects) (hsound : c.Sound) {s : ClientSystem}
    (hreactor : c.reactor = some s) :
    (∃ fd, c.call = .calling fd ∧ 0 ≤ fd ∧ s.Phase ∧ s.stopping = .notCalled ∧
        s.reactor.AcceptsAll) ∨
      (∃ fd, c.call = .setting fd ∧ s.Sets fd) ∨ c.call = .connectReturned true := by
  have hnone (hnone : c.reactor = none) : False :=
    Option.some_ne_none s (hreactor.symm.trans hnone)
  unfold Connects at h
  split at h
  · exact (hnone h.reactor).elim
  · exact (hnone h.1.reactor).elim
  · exact (hnone h.1).elim
  · exact (hnone h.1).elim
  · rename_i fd hcall
    exact (hnone (hsound.wired.starting fd hcall)).elim
  · rename_i fd hcall
    obtain ⟨hfd, s', hs', hphase⟩ := h
    cases hreactor.symm.trans hs'
    exact .inl ⟨fd, hcall, hfd, hphase⟩
  · rename_i fd hcall
    obtain ⟨s', hs', hsets⟩ := h
    cases hreactor.symm.trans hs'
    exact .inr (.inl ⟨fd, hcall, hsets⟩)
  · rename_i success hcall
    exact .inr (.inr (h ▸ hcall))
  · exact h.elim

theorem Connects.enters (h : c.Connects) (hsound : c.Sound) {s t : ClientSystem}
    (hreactor : c.reactor = some s) (hreactor' : c'.reactor = some t) (hcall : c'.call = c.call)
    (hphase : s.Phase → t.Phase) (hstopping : s.stopping = .notCalled → t.stopping = .notCalled)
    (haccepts : s.reactor.AcceptsAll → t.reactor.AcceptsAll)
    (hsets : ∀ fd, s.Sets fd → t.Sets fd) : c'.Connects := by
  rcases h.inside hsound hreactor with ⟨fd, hc, hfd, hs, hnotCalled, hall⟩ | ⟨fd, hc, hs⟩ | hc
  · rw [Connects, hcall, hc]
    exact ⟨hfd, t, hreactor', hphase hs, hstopping hnotCalled, haccepts hall⟩
  · rw [Connects, hcall, hc]
    exact ⟨t, hreactor', hsets fd hs⟩
  · rw [Connects, hcall, hc]

theorem Succeeds.connects (hstep : c.Succeeds c') (hsound : c.Sound) (h : c.Connects) :
    c'.Connects := by
  obtain ⟨hstep, hreturned, hshutDown, hopened, hconnected, hpool, hstarted, hmonitored⟩ := hstep
  have hcalled {call : ClientCall} (hcall : c.call = call) : Connects { c with call := call } := by
    subst hcall
    exact h
  cases hstep with
  | refuse hcall => exact absurd rfl (hopened hcall)
  | openSocket fd addr hfd hcall =>
    obtain ⟨hstate, hreactor, hevents⟩ : Ended { c with call := .idle } := hcalled hcall
    exact ⟨⟨hstate, hreactor, hevents⟩, hfd⟩
  | @exchange fd addr hcall =>
    obtain ⟨⟨hstate, hreactor, -⟩, hfd⟩ : Ended { c with call := .exchanging fd addr } ∧ 0 ≤ fd :=
      hcalled hcall
    rw [Client.exchange, if_neg (not_not.mpr hstate)]
    exact ⟨hreactor, hfd⟩
  | @connect fd addr success hcall =>
    cases success with
    | false => exact absurd rfl (hconnected fd addr hcall)
    | true => exact hcalled hcall
  | @initReactor fd success hcall =>
    obtain ⟨hnone, hfd⟩ : c.reactor = none ∧ 0 ≤ fd := hcalled hcall
    have hnot : ¬c.reactor.isSome = true := by simp [hnone]
    rw [Client.initReactor, if_neg hnot] at hpool ⊢
    cases success with
    | false => exact absurd rfl (hpool fd hcall)
    | true => exact hfd
  | startReactor fds hcall =>
    exact ⟨hcalled hcall, _, rfl, started_clientPhase .workerPool fds, rfl,
      fun _ => List.not_mem_nil⟩
  | startFails kqueueOpen hcall => exact absurd rfl (hstarted _ hcall)
  | @setConnection s fd hreactor hcall =>
    have howners : s.owners = [] :=
      (attends_ordinary fun fd' heq => by rw [hcall] at heq; cases heq).mp
        (hsound.wired.owners s hreactor)
    obtain ⟨hfd, s', hs', hphase, hstopping, haccepts⟩ : 0 ≤ fd ∧ ∃ s, c.reactor = some s ∧
      s.Phase ∧ s.stopping = .notCalled ∧ s.reactor.AcceptsAll := hcalled hcall
    cases hreactor.symm.trans hs'
    refine ⟨_, rfl, hphase.sameControl (.refl _) rfl id, hstopping, haccepts, c.peer, .entering,
      ?_, nofun, fun _ => hfd⟩
    rw [howners]
  | @setConnectionReturned s fd peer success before after hreactor howners hcall =>
    obtain ⟨s', hs', hsets⟩ : ∃ s, c.reactor = some s ∧ s.Sets fd := hcalled hcall
    cases hreactor.symm.trans hs'
    obtain ⟨peer', phase, hone, hphase, -⟩ := hsets.owners
    have hmem : ConnectionCaller.setting fd peer (.returned success) ∈ s.owners := by
      simp [howners]
    rw [hone, List.mem_singleton] at hmem
    cases hmem
    cases success with
    | false => exact absurd rfl hphase
    | true => exact rfl
  | fail hcall => exact (hcalled hcall).elim
  | connectReturned hcall => exact absurd hcall (hreturned _)
  | shutDown timeout hcall => exact absurd rfl (hshutDown timeout)
  | swap hcall => exact (hcalled hcall).elim
  | poll elapsed hcall => exact (hcalled hcall).elim
  | stop hreactor hrunning hcall => exact (hcalled hcall).elim
  | reset hreactor hcall => exact (hcalled hcall).elim
  | stopped hreactor hstopped hcall => exact (hcalled hcall).elim
  | drained hevents hcall => exact (hcalled hcall).elim
  | finish hcall => exact (hcalled hcall).elim
  | shutdownReturned hcall => exact (hcalled hcall).elim
  | @deliver event rest hevents =>
    refine h.frame (deliver_aside event rest c).call (onNetworkEvent_keeps event c).reactor
      fun hended => ?_
    rw [hended.events] at hevents
    cases hevents
  | sendData data hstate hreactor =>
    exact h.frame rfl rfl fun hended => ⟨hended.state, hended.reactor, hended.events⟩
  | sendAsync data callback hstate hreactor =>
    exact h.frame rfl rfl fun hended => ⟨hended.state, hended.reactor, hended.events⟩
  | measure hreactor hsenders =>
    exact h.frame rfl rfl fun hended => ⟨hended.state, hended.reactor, hended.events⟩
  | requestRefused hreactor hsenders hrequest =>
    exact h.frame rfl rfl fun hended => ⟨hended.state, hended.reactor, hended.events⟩
  | request hreactor hsenders hsized hrequest =>
    refine h.enters hsound hreactor rfl rfl (·.sameControl (.refl _) rfl id) id id
      fun fd hsets => ?_
    exact ⟨hsets.phase.sameControl (.refl _) rfl id, hsets.stopping, hsets.accepts, hsets.owners⟩
  | @react s t hreactor hinner =>
    refine h.enters hsound hreactor rfl rfl hinner.step.phase hinner.stopping
      (fun _ => hinner.accepted) fun fd hsets => ?_
    have hlogs : ∀ fd, .kevent fd .addRead false ∉ added s.reactor.log t.reactor.log := by
      rw [Client.inside, Client.inside, hreactor] at hmonitored
      exact hmonitored
    have hhosted := hsound.wired.hosted hreactor (hsound.housed s hreactor)
    exact hsets.enters hinner (hinner.socketTurn hhosted.lone (hsound.housed s hreactor).returns)
      (hlogs fd)

end Client

/-! ## `Connect` can always return -/

/-- How far `SetConnection` has to go. -/
def ClientReactor.Setting.remaining : Setting → ℕ
  | .entering => 6
  | .checking => 5
  | .removing _ => 5
  | .monitoring => 4
  | .assigning => 3
  | .raising => 2
  | .connecting => 1
  | .returned _ => 0

def ClientEffect.Obliges (e : ClientEffect) : Prop :=
  (∀ fd, e ≠ .kevent fd .addRead false) ∧ ∀ event, e ≠ .refused event

namespace ClientReactor

variable {r : ClientReactor} {phase : Setting}

theorem setConnection_obliges (fd : ℤ) (peer : SockAddr) (hopen : r.kernel.kqueueOpen = true)
    (hpool : r.receiver = .workerPool) (hnone : phase = .checking → r.hasConnection = false)
    (hremoving : ∀ removal, phase ≠ .removing removal)
    (hreturned : ∀ success, phase ≠ .returned success) :
    Grows ClientEffect.Obliges r (r.setConnection sampleEnvironment fd peer phase).2 ∧
      (r.setConnection sampleEnvironment fd peer phase).1.remaining < phase.remaining := by
  cases phase with
  | entering =>
    unfold setConnection
    dsimp only
    split
    · exact ⟨.of_eq rfl, Nat.succ_pos 5⟩
    · exact ⟨.of_eq rfl, Nat.lt_succ_self 5⟩
  | checking =>
    rw [setConnection, hnone rfl, if_neg Bool.false_ne_true]
    exact ⟨.of_eq rfl, Nat.lt_succ_self 4⟩
  | removing removal => exact absurd rfl (hremoving removal)
  | monitoring =>
    have hregistered : (r.monitor sampleEnvironment fd .addRead).1 = true := by
      rw [monitor, hopen]
      rfl
    have hlog : (r.monitor sampleEnvironment fd .addRead).2.log =
        .kevent fd .addRead true :: r.log := by
      rw [monitor, hopen]
      rfl
    unfold setConnection
    dsimp only
    rw [hregistered, if_neg (not_not.mpr rfl)]
    exact ⟨.cons hlog (by simp [ClientEffect.Obliges]), Nat.lt_succ_self 3⟩
  | assigning => exact ⟨.of_eq rfl, Nat.lt_succ_self 2⟩
  | raising => exact ⟨.of_eq rfl, Nat.lt_succ_self 1⟩
  | connecting =>
    refine ⟨?_, Nat.lt_succ_self 0⟩
    have hdispatched (event : NetworkEvent) :
        (r.dispatchEvent sampleEnvironment event).log = .dispatched event :: r.log := by
      rw [dispatchEvent, hpool]
      rfl
    exact .cons (hdispatched _) (by simp [ClientEffect.Obliges])
  | returned success => exact absurd rfl (hreturned success)

theorem Grows.added {P : ClientEffect → Prop} {r' : ClientReactor} (h : Grows P r r') :
    ∀ e ∈ added r.log r'.log, P e := by
  obtain ⟨extra, hlog, hall⟩ := h
  rw [hlog, added_append]
  exact hall

theorem Grows.acceptsAll {r' : ClientReactor} (h : Grows ClientEffect.Obliges r r')
    (haccepts : r.AcceptsAll) : r'.AcceptsAll := by
  obtain ⟨extra, hlog, hall⟩ := h
  intro event hmem
  rw [hlog] at hmem
  rcases List.mem_append.mp hmem with hnew | hold
  · exact (hall _ hnew).2 event rfl
  · exact haccepts event hold

end ClientReactor

/-- `SetConnection` can go on. -/
theorem ClientSystem.Sets.goesOn {s : ClientSystem} {fd : ℤ} {peer : SockAddr} {phase : Setting}
    (h : s.Sets fd) (hhosted : s.Hosted) (hhoused : s.Housed)
    (howners : s.owners = [.setting fd peer phase])
    (hreturned : ∀ success, phase ≠ .returned success) :
    ∃ t phase', s.Inner t ∧ t.Sets fd ∧ t.owners = [.setting fd peer phase'] ∧
      phase'.remaining < phase.remaining ∧
        ∀ fd', .kevent fd' .addRead false ∉ added s.reactor.log t.reactor.log := by
  have hremoving (removal : Removal) : phase ≠ .removing removal := by
    rintro rfl
    exact hhosted.removeless fd peer removal (howners ▸ List.mem_cons_self)
  have hnone (hchecking : phase = .checking) : s.reactor.hasConnection = false :=
    (hhosted.finds_none howners (hchecking ▸ rfl)).1
  have hkqueue : s.reactor.kernel.kqueueOpen = true :=
    h.phase.kqueueOpen (by rw [h.stopping]; exact id)
  obtain ⟨hgrows, hless⟩ :=
    setConnection_obliges fd peer hkqueue hhoused.pool hnone hremoving hreturned
  have hmonitored (fd' : ℤ) : .kevent fd' .addRead false ∉ added s.reactor.log
      (s.reactor.setConnection sampleEnvironment fd peer phase).2.log :=
    fun hmem => (hgrows.added _ hmem).1 fd' rfl
  have hinner : s.Inner { s with
      reactor := (s.reactor.setConnection sampleEnvironment fd peer phase).2
      owners := [.setting fd peer (s.reactor.setConnection sampleEnvironment fd peer phase).1] } :=
    ⟨@ClientSystem.Step.setting s sampleEnvironment fd peer phase [] [] howners,
      Nat.le_refl _, by rw [howners]; rfl, id, hgrows.acceptsAll h.accepts⟩
  have hturn := hinner.socketTurn hhosted.lone hhoused.returns
  exact ⟨_, _, hinner, h.enters hinner hturn (hmonitored fd), rfl, hless, hmonitored⟩

namespace Client

variable {c c' : Client}

def Completes (c : Client) : Prop :=
  ∃ w, Relation.ReflTransGen Succeeds c w ∧ w.call = .connectReturned true

theorem Completes.head (h : c'.Completes) (hstep : c.Succeeds c') : c.Completes := by
  obtain ⟨w, hpath, hw⟩ := h
  exact ⟨w, .head hstep hpath, hw⟩

/-- A step of `Connect` that does not fail. -/
theorem Step.succeeds {call : ClientCall} (hstep : Client.Step c c') (hcall : c.call = call)
    (hreturned : ∀ success, call ≠ .connectReturned success)
    (hnext : c'.call ≠ .connectReturned false ∧ c'.call ≠ .failing)
    (hshutDown : ∀ timeout, c'.call ≠ .swapping timeout)
    (hmonitored : ∀ fd, .kevent fd .addRead false ∉ added c.inside c'.inside) : c.Succeeds c' :=
  ⟨hstep, fun success heq => hreturned success (hcall.symm.trans heq), hshutDown, fun _ => hnext.1,
    fun _ _ _ => hnext.2, fun _ _ => hnext.2, fun _ _ => hnext.2, hmonitored⟩

/-- `SetConnection` can return. -/
theorem setting_completes {s : ClientSystem} {fd : ℤ} {peer : SockAddr} {phase : Setting}
    (hsound : c.Sound) (hreactor : c.reactor = some s) (hcall : c.call = .setting fd)
    (hsets : s.Sets fd) (howners : s.owners = [.setting fd peer phase]) : c.Completes := by
  induction hn : phase.remaining using Nat.strong_induction_on generalizing c s phase with
  | _ n ih =>
    have hinside : c.inside = s.reactor.log := by rw [inside, hreactor]; rfl
    by_cases hreturned : ∃ success, phase = .returned success
    · obtain ⟨success, rfl⟩ := hreturned
      obtain ⟨peer', phase', hone, hphase, -⟩ := hsets.owners
      rw [howners] at hone
      cases hone
      cases success with
      | false => exact absurd rfl hphase
      | true =>
        have hstep : Client.Step c (Client.afterSetConnection fd true
            { c with reactor := some { s with owners := [] ++ [] } }) :=
          @Client.Step.setConnectionReturned c s fd peer true [] [] hreactor howners hcall
        refine ⟨_, .single (hstep.succeeds hcall (by simp) ?_ ?_ fun fd' hmem => ?_), rfl⟩
        · simp [Client.afterSetConnection]
        · simp [Client.afterSetConnection]
        have hkept : (Client.afterSetConnection fd true
            { c with reactor := some { s with owners := [] ++ [] } }).inside = c.inside :=
          hinside.symm
        rw [hkept, added_self] at hmem
        cases hmem
    · have hhosted := hsound.wired.hosted hreactor (hsound.housed s hreactor)
      obtain ⟨t, phase', hinner, ht, howners', hless, hmonitored⟩ := hsets.goesOn hhosted
        (hsound.housed s hreactor) howners fun success heq => hreturned ⟨success, heq⟩
      have hstep : Client.Step c (c.react s t) := .react hreactor hinner
      have hnext : (c.react s t).call = .setting fd := hcall
      refine (ih _ (hn ▸ hless) (hstep.sound hsound) rfl hnext ht howners' rfl).head
        (hstep.succeeds hcall (by simp) ?_ ?_ ?_)
      · rw [hnext]
        simp
      · rw [hnext]
        simp
      · rw [hinside]
        exact hmonitored

/-- A step of `Connect` that does not fail, outside the reactor. -/
theorem Step.succeeds_outside {call : ClientCall} (hstep : Client.Step c c') (hcall : c.call = call)
    (hreturned : ∀ success, call ≠ .connectReturned success)
    (hnext : c'.call ≠ .connectReturned false ∧ c'.call ≠ .failing)
    (hshutDown : ∀ timeout, c'.call ≠ .swapping timeout) (hinside : c'.inside = c.inside) :
    c.Succeeds c' :=
  hstep.succeeds hcall hreturned hnext hshutDown fun fd hmem => by
    rw [hinside, added_self] at hmem
    cases hmem

theorem calling_completes {fd : ℤ} (hsound : c.Sound) (h : c.Connects)
    (hcall : c.call = .calling fd) : c.Completes := by
  have hcalling := h
  rw [Connects, hcall] at hcalling
  obtain ⟨hfd, s, hreactor, -⟩ := hcalling
  have hstep : Client.Step c _ := .setConnection hreactor hcall
  have hsucceeds := hstep.succeeds_outside hcall nofun ⟨nofun, nofun⟩ nofun (by
    rw [inside, inside, hreactor]
    rfl)
  obtain ⟨t, ht, hsets⟩ : ∃ t : ClientSystem,
    some { s with owners := .setting fd c.peer .entering :: s.owners } = some t ∧ t.Sets fd :=
    hsucceeds.connects hsound h
  obtain ⟨peer, phase, howners, -⟩ := hsets.owners
  exact (setting_completes (hstep.sound hsound) ht rfl hsets howners).head hsucceeds

theorem starting_completes {fd : ℤ} (hsound : c.Sound) (h : c.Connects)
    (hcall : c.call = .starting fd) : c.Completes := by
  have hstep : Client.Step c _ := .startReactor ∅ hcall
  have hsucceeds := hstep.succeeds_outside hcall nofun ⟨nofun, nofun⟩ nofun (by
    rw [inside, inside, hsound.wired.starting fd hcall]
    rfl)
  exact (calling_completes (hstep.sound hsound) (hsucceeds.connects hsound h) rfl).head hsucceeds

theorem initializing_completes {fd : ℤ} (hsound : c.Sound) (h : c.Connects)
    (hcall : c.call = .initializing fd) : c.Completes := by
  have hinitializing := h
  rw [Connects, hcall] at hinitializing
  have hstep : Client.Step c (c.initReactor fd true) := .initReactor true hcall
  have hnext : c.initReactor fd true = { c with workerPool := true, call := .starting fd } := by
    rw [initReactor, hinitializing.1]
    rfl
  rw [hnext] at hstep
  have hsucceeds := hstep.succeeds_outside hcall nofun ⟨nofun, nofun⟩ nofun rfl
  exact (starting_completes (hstep.sound hsound) (hsucceeds.connects hsound h) rfl).head hsucceeds

theorem connecting_completes {fd : ℤ} {addr : SockAddr} (hsound : c.Sound) (h : c.Connects)
    (hcall : c.call = .connecting fd addr) : c.Completes := by
  have hstep : Client.Step c (c.connect fd addr true) := .connect true hcall
  have hsucceeds := hstep.succeeds_outside hcall nofun ⟨nofun, nofun⟩ nofun rfl
  have hnext := hsucceeds.connects hsound h
  exact (initializing_completes (hstep.sound hsound) hnext rfl).head hsucceeds

theorem exchanging_completes {fd : ℤ} {addr : SockAddr} (hsound : c.Sound) (h : c.Connects)
    (hcall : c.call = .exchanging fd addr) : c.Completes := by
  have hexchanging := h
  rw [Connects, hcall] at hexchanging
  have hstep : Client.Step c (c.exchange fd addr) := .exchange hcall
  rw [exchange, if_neg (not_not.mpr hexchanging.1.state)] at hstep
  have hsucceeds := hstep.succeeds_outside hcall nofun ⟨nofun, nofun⟩ nofun rfl
  exact (connecting_completes (hstep.sound hsound) (hsucceeds.connects hsound h) rfl).head hsucceeds

/-- `Connect` can always return. -/
theorem Connects.completes (h : c.Connects) (hsound : c.Sound) : c.Completes := by
  have hconnects := h
  unfold Connects at hconnects
  split at hconnects
  · rename_i hcall
    have hstep : Client.Step c (c.openSocket 0 ⟨[]⟩) := .openSocket 0 ⟨[]⟩ (Int.le_refl 0) hcall
    have hsucceeds := hstep.succeeds_outside hcall nofun ⟨nofun, nofun⟩ nofun rfl
    have hnext := hsucceeds.connects hsound h
    exact (exchanging_completes (hstep.sound hsound) hnext rfl).head hsucceeds
  · rename_i fd addr hcall
    exact exchanging_completes hsound h hcall
  · rename_i fd addr hcall
    exact connecting_completes hsound h hcall
  · rename_i fd hcall
    exact initializing_completes hsound h hcall
  · rename_i fd hcall
    exact starting_completes hsound h hcall
  · rename_i fd hcall
    exact calling_completes hsound h hcall
  · rename_i fd hcall
    obtain ⟨s, hreactor, hsets⟩ := hconnects
    obtain ⟨peer, phase, howners, -⟩ := hsets.owners
    exact setting_completes hsound hreactor hcall hsets howners
  · rename_i success hcall
    exact ⟨c, .refl, hconnects ▸ hcall⟩
  · exact hconnects.elim

/-- After any steps in which its system calls succeed, `Connect` can return, and it does not return
false. -/
def Reconnects (c : Client) : Prop :=
  ∀ w, Relation.ReflTransGen Succeeds c w →
    (∀ success, w.call = .connectReturned success → success = true) ∧ w.Completes

theorem Ended.reconnects (h : c.Ended) (hidle : c.call = .idle) (hsound : c.Sound) :
    c.Reconnects := by
  intro w hpath
  have hall : w.Sound ∧ w.Connects := by
    induction hpath with
    | refl =>
      refine ⟨hsound, ?_⟩
      rw [Connects, hidle]
      exact h
    | tail hpath hstep ih => exact ⟨hstep.step.sound ih.1, hstep.connects ih.1 ih.2⟩
  refine ⟨fun success hcall => ?_, hall.2.completes hall.1⟩
  have hconnects := hall.2
  rw [Connects, hcall] at hconnects
  exact hconnects

end Client

/-! ## `Disconnect` -/

/-- What `Disconnect` is for: the client is disconnected, no thread of it is left, its sockets are
closed, and it can connect again. -/
structure Disconnected (x : Client × Set ℤ) : Prop where
  state : x.1.state = .disconnected
  reactor : x.1.reactor = none
  workerPool : x.1.workerPool = false
  sockets : x.2 = ∅
  reconnects : x.1.Reconnects

def Client.Live (c : Client) : Prop :=
  ∃ s, c.reactor = some s ∧ (s.reactor.isRunning = true ∨ s.reactor.hasConnection = true)

/-- `Disconnect`, which makes its test in `x`, returns in `y`. -/
structure DisconnectReturns (x y : Client × Set ℤ) (mid : List (Client × Set ℤ)) : Prop where
  tests : x.1.call = .swapping none
  tested : ∀ z ∈ y :: mid, z.1.call ≠ .swapping none
  inside : ∀ z ∈ mid, z.1.call ≠ .idle
  returns : y.1.call = .idle

/-- `Disconnect` disconnects a client exactly if it finds it connected or connecting. -/
theorem disconnects_iff {states mid : List (Client × Set ℤ)} {x y : Client × Set ℤ}
    (hrun : socketClients.Run states) (hpath : y :: mid ++ [x] <:+: states)
    (h : DisconnectReturns x y mid) (hlive : x.1.Live) :
    Disconnected y ↔ x.1.state = .connected ∨ x.1.state = .connecting := by
  have hclients : clients.Run (states.map Prod.fst) := hrun.forget
  have hpath' : y.1 :: mid.map Prod.fst ++ [x.1] <:+: states.map Prod.fst := by
    simpa using hpath.map Prod.fst
  have htested : ∀ u ∈ y.1 :: mid.map Prod.fst, u.call ≠ .swapping none := by
    simpa using h.tested
  have hinside : ∀ u ∈ mid.map Prod.fst, u.call ≠ .idle := by
    simpa using h.inside
  constructor
  · intro hdisconnected
    by_contra hopen
    obtain ⟨s, hreactor, -⟩ := hlive
    have hkept := Client.idle_path hclients hpath' h.tests hopen htested hinside
    have hleft : y.1.reactor = some s := (congrArg Client.reactor hkept).trans hreactor
    exact Option.some_ne_none s (hleft.symm.trans hdisconnected.reactor)
  · intro hopen
    have hy : y ∈ states := hpath.mem (by simp)
    obtain ⟨hsound, hholds⟩ := socketClients_sound hrun y hy
    rcases Client.ending_path hclients hpath' h.tests hopen htested hinside with
      hending | ⟨u, hu, hstoring, hpool, hreturned⟩
    · rw [Client.Ending, h.returns] at hending
      exact hending.elim
    · have hwired := clients_wired hclients u hu
      have hgone : u.reactor = none := hwired.gone false (.inr hstoring)
      have hevents : u.events = [] := by
        refine (hwired.absent hgone).resolve_right ?_
        rintro ⟨graceful, hdraining⟩
        rw [hstoring] at hdraining
        cases hdraining
      have hended : y.1.Ended := by
        rw [hreturned]
        exact ⟨rfl, hgone, hevents⟩
      refine ⟨hended.state, hended.reactor, ?_, ?_, hended.reconnects h.returns hsound⟩
      · rw [hreturned]
        exact hpool
      · refine Set.eq_empty_iff_forall_notMem.mpr fun fd hmem => ?_
        rcases hholds fd hmem with hsocket | ⟨s, hs, -⟩
        · rw [h.returns] at hsocket
          cases hsocket
        · exact Option.some_ne_none s (hs.symm.trans hended.reactor)

/-! ## A `GracefulShutdown` that has timed out -/

def sampleOperation : SendOperation where
  data := [1, 2, 3]
  promise := some 0

/-- The kernel has taken two of the three bytes. -/
def sampleStuck : Option (Bool × Bool × ClientReactor) :=
  ((sampleAnnounced.push sampleOperation).dequeue sampleOperation []).doSend sampleEnvironment
    sampleOperation.data

def sampleOpen (s : ClientSystem) : Client :=
  { sampleWaits s [] with
    state := .connected
    connectionId := sampleLive.connection.connectionId
    call := .idle
    received := [.connected sampleLive.connection.connectionId samplePeer] }

def sampleStanding (r : ClientReactor) : ClientSystem where
  reactor := r
  callers := [.waking]
  loop := .completing 1 sampleOperation true
  nextPromise := 1

/-- One byte is in the send buffer, and `Disconnect` is called after `GracefulShutdown` has given
up. -/
def sampleLeft (r : ClientReactor) : Client :=
  { sampleOpen (sampleStanding r) with state := .closing, call := .swapping none }

/-- A step in the reactor that submits nothing. -/
theorem react_silent {c : Client} {s t : ClientSystem} (h : clients.Leads (fun _ _ => True) c)
    (hreactor : c.reactor = some s) (hstep : ClientSystem.Step s t)
    (hcallers : t.callers.length = s.callers.length) (howners : t.owners = s.owners)
    (hstopping : t.stopping = s.stopping) (haccepted : t.reactor.AcceptsAll)
    (hsame : t.reactor.submitted = s.reactor.submitted) :
    clients.Leads (fun _ _ => True) { c with reactor := some t } := by
  have hnext := h.next (.react hreactor ⟨hstep, hcallers.le, congrArg List.length howners,
    fun h => hstopping.trans h, haccepted⟩) trivial
  rwa [Client.react, ClientSystem.submits, hsame, List.drop_length, List.append_nil] at hnext

theorem sample_left : ∃ r, r.hasConnection = true ∧
    clients.Leads (fun _ _ => True) (sampleLeft r) := by
  have hsends : sampleStuck.map (fun x => (x.1, x.2.1, x.2.2.getSendBufferSize,
      x.2.2.hasConnection, x.2.2.log)) = some (true, false, 1, true,
        [.kevent 5 .addWrite true, .sent 5 [1, 2], .took sampleOperation,
          .dispatched (.connected sampleLive.connection.connectionId samplePeer),
          .kevent 5 .addRead true]) := by
    decide +kernel
  obtain ⟨⟨success, removes, r⟩, hsend, hsent⟩ := Option.map_eq_some_iff.mp hsends
  obtain ⟨rfl, rfl, hsize, hconnection, hlog⟩ : success = true ∧ removes = false ∧
      r.getSendBufferSize = 1 ∧ r.hasConnection = true ∧ r.log = _ := by
    simpa using hsent
  have hlive : clients.Leads (fun _ _ => True) _ := sample_live fun _ _ _ _ => trivial
  have hannounced : sampleAnnounced.AcceptsAll := sampleAnnounced_accepts
  have haccepts : r.AcceptsAll := by
    rw [ClientReactor.AcceptsAll, hlog]
    simp
  have hset := hlive.next (sampleInside_step .connecting .top hannounced) trivial
  have hreturned := hset.next (@Client.Step.setConnectionReturned _
    (sampleInside sampleAnnounced (.returned true) .top) 5 samplePeer true [] [] rfl rfl rfl)
    trivial
  have hidle := hreturned.next (Client.Step.connectReturned rfl) trivial
  have hdelivered := hidle.next (Client.Step.deliver rfl) trivial
  have hopen : clients.Leads (fun _ _ => True) (sampleOpen { reactor := sampleAnnounced }) :=
    hdelivered
  have hsending := hopen.next (Client.Step.sendData [1, 2, 3] rfl rfl) trivial
  have hrequested := hsending.next (Client.Step.request rfl (List.nil_append _).symm
    (by simp [SendRequest.data]) rfl) trivial
  have hqueued := react_silent hrequested rfl
    (.enqueue (List.nil_append _).symm (by decide)) rfl rfl
    rfl hannounced rfl
  have hentered := react_silent hqueued rfl (.loop (.enter rfl)) rfl rfl rfl hannounced rfl
  have hready : clients.Leads (fun _ _ => True) (sampleOpen { sampleStanding
      (sampleAnnounced.push sampleOperation) with loop := .draining 0 }) := hentered
  have hprocessed : ClientLoop.Step (sampleAnnounced.push sampleOperation, .draining 0)
      (r, .completing 1 sampleOperation true) := .process sampleEnvironment (by decide) rfl hsend
  have hsubmitted : r.submitted = sampleAnnounced.submitted := by
    rw [ClientReactor.submitted, hlog]
    rfl
  have hbuffered : clients.Leads (fun _ _ => True) (sampleOpen (sampleStanding r)) :=
    react_silent hready rfl (.loop hprocessed) rfl rfl rfl haccepts hsubmitted
  have hcalled := hbuffered.next (Client.Step.shutDown (some 1) rfl) trivial
  have hclosing := hcalled.next (Client.Step.swap rfl) trivial
  have hpolled := hclosing.next (Client.Step.poll true rfl) trivial
  have hgaveUp : Client.poll 1 true { sampleLeft r with call := .polling 1 } =
      { sampleLeft r with call := .shutdownReturned false } := by
    rw [Client.poll]
    exact (if_neg (hsize.symm ▸ Nat.one_ne_zero)).trans (if_pos ⟨Int.one_pos, rfl⟩)
  have hshut : clients.Leads (fun _ _ => True)
      { sampleLeft r with call := .shutdownReturned false } := hgaveUp ▸ hpolled
  have hfree := hshut.next (Client.Step.shutdownReturned rfl) trivial
  exact ⟨r, hconnection, hfree.next (Client.Step.shutDown none rfl) trivial⟩

/-- `Disconnect` has returned at once. -/
def sampleStays (r : ClientReactor) : Client :=
  { sampleLeft r with call := .idle }

theorem sample_stays (r : ClientReactor) : Client.Step (sampleLeft r) (sampleStays r) := by
  have hnot : ¬(sampleLeft r).IsOpen := not_or.mpr ⟨nofun, nofun⟩
  have hstep : Client.Step (sampleLeft r) ((sampleLeft r).swap none) := .swap rfl
  rw [Client.swap_idle hnot] at hstep
  exact hstep

theorem left_run : ∃ states x y r, socketClients.Run states ∧ y :: [] ++ [x] <:+: states ∧
    DisconnectReturns x y [] ∧ x.1 = sampleLeft r ∧ y.1 = sampleStays r ∧
      r.hasConnection = true := by
  obtain ⟨r, hconnection, hleft⟩ := sample_left
  obtain ⟨sockets, past, hrun, -⟩ : ∃ sockets past,
      socketClients.Run ((sampleLeft r, sockets) :: past) ∧ _ := hleft.record
  have hreturned : socketClients.Run
      ((sampleStays r, (sampleLeft r).sockets (sampleStays r) sockets) ::
        (sampleLeft r, sockets) :: past) := hrun.next ⟨sample_stays r, rfl⟩
  have hreturns : DisconnectReturns (sampleLeft r, sockets)
      (sampleStays r, (sampleLeft r).sockets (sampleStays r) sockets) [] := by
    refine ⟨rfl, fun z hz => ?_, fun z hz => absurd hz List.not_mem_nil, rfl⟩
    have hcall : (sampleStays r).call ≠ .swapping none := ClientCall.noConfusion
    exact List.mem_singleton.mp hz ▸ hcall
  exact ⟨_, _, _, r, hreturned, (List.prefix_append [_, _] past).isInfix, hreturns, rfl, rfl,
    hconnection⟩

theorem disconnects_left : ∃ states, ∃ x y : Client × Set ℤ, ∃ r, socketClients.Run states ∧
    x.1 = sampleLeft r ∧ r.hasConnection = true ∧
      (Disconnected y ↔ x.1.state = .connected ∨ x.1.state = .connecting) := by
  obtain ⟨states, x, y, r, hrun, hpath, hreturns, hx, -, hconnection⟩ := left_run
  have hlive : x.1.Live := hx ▸ ⟨_, rfl, .inr hconnection⟩
  exact ⟨states, x, y, r, hrun, hx, hconnection, disconnects_iff hrun hpath hreturns hlive⟩

/-- A client whose `GracefulShutdown` has timed out keeps its connection, its reactor and its
worker. -/
theorem closing_stays : ¬∀ states mid x y, socketClients.Run states → y :: mid ++ [x] <:+: states →
    DisconnectReturns x y mid → x.1.Live → Disconnected y := by
  intro hall
  obtain ⟨states, x, y, r, hrun, hpath, hreturns, hx, hy, hconnection⟩ := left_run
  have hlive : x.1.Live := hx ▸ ⟨_, rfl, .inr hconnection⟩
  have hnone := (hall states [] x y hrun hpath hreturns hlive).reactor
  rw [hy] at hnone
  cases hnone

end DarwinCore.Network
