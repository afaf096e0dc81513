import DarwinCore.Verification.Network.Steps

/-! # The flags and the queue of a reactor

What the thread of the reactor does for connections touches neither the queue nor the flags,
and the flags say how far `Stop` has come. -/

namespace DarwinCore.Network

open Relation

namespace Reactor

structure SameControl (r r' : Reactor) : Prop where
  isRunning : r'.isRunning = r.isRunning
  queueStopped : r'.queueStopped = r.queueStopped
  queue : r'.pendingOperations = r.pendingOperations
  wakeup : r'.kernel.wakeup = r.kernel.wakeup
  kqueueOpen : r'.kernel.kqueueOpen = r.kernel.kqueueOpen

variable {may : Lapse → Prop} {held : List Operation} {r r' r'' : Reactor} {id : UInt64} {fd : ℤ}

theorem SameControl.refl (r : Reactor) : r.SameControl r :=
  ⟨rfl, rfl, rfl, rfl, rfl⟩

theorem SameControl.trans (h : r.SameControl r') (h' : r'.SameControl r'') : r.SameControl r'' :=
  ⟨h'.isRunning.trans h.isRunning, h'.queueStopped.trans h.queueStopped,
    h'.queue.trans h.queue, h'.wakeup.trans h.wakeup, h'.kqueueOpen.trans h.kqueueOpen⟩

/-- Changes elsewhere, before something that is known to keep the control. -/
theorem SameControl.after (h' : r'.SameControl r'') (h : r.SameControl r') : r.SameControl r'' :=
  h.trans h'

theorem accept_sameControl (fd : ℤ) (r : Reactor) : r.SameControl (r.accept fd) :=
  ⟨rfl, rfl, rfl, rfl, rfl⟩

theorem closeFd_sameControl (fd : ℤ) (r : Reactor) : r.SameControl (r.closeFd fd) :=
  ⟨rfl, rfl, rfl, rfl, rfl⟩

theorem monitor_sameControl (env : Environment) (fd : ℤ) (change : Change) (r : Reactor) :
    r.SameControl (r.monitor env fd change).2 := by
  unfold monitor
  dsimp only
  split
  · cases change <;> exact ⟨rfl, rfl, rfl, rfl, rfl⟩
  · exact ⟨rfl, rfl, rfl, rfl, rfl⟩

theorem dispatchEvent_sameControl (env : Environment) (event : NetworkEvent) (r : Reactor) :
    r.SameControl (r.dispatchEvent env event) := by
  rcases dispatchEvent_cases env event r with ⟨-, h⟩ | h | h <;> rw [h] <;>
    exact ⟨rfl, rfl, rfl, rfl, rfl⟩

theorem doRemoveConnection_sameControl (id : UInt64) (r : Reactor) :
    r.SameControl (r.doRemoveConnection id).2 := by
  unfold doRemoveConnection
  split <;> exact ⟨rfl, rfl, rfl, rfl, rfl⟩

theorem ConnMove.sameControl (h : ConnMove may id fd r r') : r.SameControl r' := by
  cases h with
  | settled howns hkey hfd hvalid hmonitored =>
    have hcontrol : r.SameControl _ := hmonitored.keeps
      (fun _ env change h => h.trans (monitor_sameControl env fd change _)) (.refl r)
    exact hcontrol.trans ⟨rfl, rfl, rfl, rfl, rfl⟩
  | received env time data =>
    exact (dispatchEvent_sameControl env (.data id data) _).after ⟨rfl, rfl, rfl, rfl, rfl⟩
  | close env =>
    exact (dispatchEvent_sameControl env _ r).trans (doRemoveConnection_sameControl _ _)
  | error env code =>
    exact ((dispatchEvent_sameControl env _ r).trans (dispatchEvent_sameControl env _ _)).trans
      (doRemoveConnection_sameControl _ _)
  | _ => exact ⟨rfl, rfl, rfl, rfl, rfl⟩

theorem ConnMoves.sameControl (h : ConnMoves may id fd r r') : r.SameControl r' := by
  induction h with
  | refl => exact .refl r
  | tail _ hmove ih => exact ih.trans hmove.sameControl

theorem nextSeq_sameControl (r : Reactor) : r.SameControl r.nextSeq.2 := by
  unfold nextSeq
  split <;> exact ⟨rfl, rfl, rfl, rfl, rfl⟩

theorem AddCase.sameControl {env : Environment} {peer : SockAddr} {result : UInt64 × Reactor}
    (h : AddCase env fd peer r result) : r.SameControl result.2 := by
  have hmonitored := r.nextSeq_sameControl.trans (monitor_sameControl env fd .addRead _)
  cases h with
  | ignored => exact .refl r
  | collided => exact r.nextSeq_sameControl.trans (closeFd_sameControl fd _)
  | unmonitored => exact hmonitored.trans (closeFd_sameControl fd _)
  | @added id =>
    refine hmonitored.trans ?_
    exact (dispatchEvent_sameControl env (.connected id peer) _).after ⟨rfl, rfl, rfl, rfl, rfl⟩

/-- Processing an operation takes it from the queue, and leaves the control alone. -/
theorem AtRest.processOperation_sameControl (env : Environment) {op : Operation}
    {rest : List Operation} (h : r.AtRest held) (hqueue : r.pendingOperations = op :: rest)
    (hprocess : (r.dequeue op rest).processOperation env op = some r') :
    (r.dequeue op rest).SameControl r' := by
  have htables := h.tables.dequeue hqueue
  have hcount {r r' : Reactor} {p : Prop} [Decidable p] {f : ReactorStats → ReactorStats}
      (h : r.SameControl r') : r.SameControl (if p then r'.count f else r') := by
    split
    · exact h.trans ⟨rfl, rfl, rfl, rfl, rfl⟩
    · exact h
  unfold Reactor.processOperation at hprocess
  cases op with
  | add fd peer =>
    obtain rfl := Option.some.inj hprocess
    exact hcount (doAddConnection_cases env fd peer _).sameControl
  | remove id =>
    obtain rfl := Option.some.inj hprocess
    exact hcount (doRemoveConnection_sameControl id _)
  | send id data =>
    obtain ⟨⟨success, r₁⟩, hsend, rfl⟩ := Option.map_eq_some_iff.mp hprocess
    have hsized : (Operation.send id data).Sized := htables.sized _ List.mem_cons_self
    refine hcount ?_
    have hcase := htables.doSendData_cases env hsized hsend
    have hmoves : r₁ = _ ∨ ∃ fd, ConnMoves (fun _ => True) id fd _ r₁ :=
      hcase.connMoves fun _ _ _ _ _ => trivial
    rcases hmoves with hsame | ⟨fd, hconn⟩
    · rw [hsame]
      exact .refl _
    · exact ConnMoves.sameControl hconn
  | getSendBufferSize id promise =>
    obtain rfl := Option.some.inj hprocess
    exact ⟨rfl, rfl, rfl, rfl, rfl⟩

theorem AtRest.processKqueueEvent_sameControl (env : Environment) (event : KEvent)
    (h : r.AtRest held) : r.SameControl (r.processKqueueEvent env event) := by
  have hcase := h.tables.processKqueueEvent_cases env event
  have hmoves : r.processKqueueEvent env event = r ∨ ∃ id conn, r.Owns id event.ident conn ∧
      ConnMoves (fun _ => True) id event.ident r (r.processKqueueEvent env event) :=
    hcase.connMoves fun _ => trivial
  rcases hmoves with hsame | ⟨id, conn, -, hconn⟩
  · rw [hsame]
    exact .refl r
  · exact ConnMoves.sameControl hconn

theorem closeById_sameControl (env : Environment) (r : Reactor) (id : UInt64) :
    r.SameControl (closeById env r id) := by
  unfold closeById
  split
  · exact .refl r
  · exact (dispatchEvent_sameControl env _ r).trans (doRemoveConnection_sameControl _ _)

theorem checkTimeouts_sameControl (env : Environment) (r : Reactor) :
    r.SameControl (r.checkTimeouts env) := by
  have hall (ids : List UInt64) : ∀ r : Reactor, r.SameControl (ids.foldl (closeById env) r) := by
    induction ids with
    | nil => exact .refl
    | cons id ids ih => exact fun r => (closeById_sameControl env r id).trans (ih _)
  unfold checkTimeouts
  split
  · exact .refl r
  · exact hall _ r

theorem closeOnly_sameControl (r : Reactor) (id : UInt64) : r.SameControl (closeOnly r id) := by
  unfold closeOnly
  split
  · exact .refl r
  · exact ⟨rfl, rfl, rfl, rfl, rfl⟩

theorem cleanupAllConnections_sameControl (env : Environment) (r : Reactor) :
    r.SameControl (r.cleanupAllConnections env) := by
  have hall (ids : List UInt64) : ∀ r : Reactor, r.SameControl (ids.foldl closeOnly r) := by
    induction ids with
    | nil => exact .refl
    | cons id ids ih => exact fun r => (closeOnly_sameControl r id).trans (ih _)
  exact (hall env.order r).trans ⟨rfl, rfl, rfl, rfl, rfl⟩

theorem addConnection_sameControl (fd : ℤ) (peer : SockAddr) (r : Reactor) :
    r.SameControl (r.addConnection fd peer).2 := by
  unfold addConnection
  dsimp only
  split <;> exact ⟨rfl, rfl, rfl, rfl, rfl⟩

theorem request_sameControl (promise : ℕ) (req : Request) (r : Reactor) :
    r.SameControl (r.request promise req).2 := by
  unfold request
  cases req with
  | removeConnection id =>
    dsimp only
    split <;> exact ⟨rfl, rfl, rfl, rfl, rfl⟩
  | sendData id data =>
    dsimp only
    split <;> exact ⟨rfl, rfl, rfl, rfl, rfl⟩
  | getSendBufferSize id =>
    dsimp only
    split <;> exact .refl r

theorem reject_sameControl (op : Operation) (r : Reactor) : r.SameControl (r.reject op) := by
  cases op with
  | getSendBufferSize id promise => exact .refl r
  | _ => exact ⟨rfl, rfl, rfl, rfl, rfl⟩

end Reactor

/-! ## How far `Stop` has come -/

structure System.Phase (s : System) : Prop where
  running : s.reactor.isRunning = true ↔ s.stopping = .notCalled
  stopped : s.reactor.queueStopped = true ↔ s.stopping ≠ .notCalled ∧ s.stopping ≠ .flagged
  kqueueOpen : s.stopping ≠ .returned → s.reactor.kernel.kqueueOpen = true
  joined : s.stopping = .returned → s.loop = .exited

/-- A step of the loop keeps the flags. The loop does not run once it has left. -/
theorem Loop.Step.flags {held : List Operation} {state state' : Reactor × Loop}
    (hstep : Loop.Step state state') (h : state.1.AtRest held) :
    state'.1.isRunning = state.1.isRunning ∧ state'.1.queueStopped = state.1.queueStopped ∧
      state'.1.kernel.kqueueOpen = state.1.kernel.kqueueOpen ∧ state.2 ≠ .exited := by
  cases hstep with
  | process env hbatch hqueue hprocess =>
    have hsame := h.processOperation_sameControl env hqueue hprocess
    exact ⟨hsame.isRunning, hsame.queueStopped, hsame.kqueueOpen, nofun⟩
  | @due r env =>
    have hsame := r.checkTimeouts_sameControl env
    exact ⟨hsame.isRunning, hsame.queueStopped, hsame.kqueueOpen, nofun⟩
  | woken events =>
    dsimp only
    split <;> exact ⟨rfl, rfl, rfl, nofun⟩
  | @handle r env event =>
    dsimp only
    split
    · exact ⟨rfl, rfl, rfl, nofun⟩
    · have hsame := h.processKqueueEvent_sameControl env event
      exact ⟨hsame.isRunning, hsame.queueStopped, hsame.kqueueOpen, nofun⟩
  | _ => exact ⟨rfl, rfl, rfl, nofun⟩

/-- What a step is to the flags and to `Stop`. -/
inductive System.FlagMove (s t : System) : Prop where
  | same (hrunning : t.reactor.isRunning = s.reactor.isRunning)
      (hqueue : t.reactor.queueStopped = s.reactor.queueStopped)
      (hkqueue : t.reactor.kernel.kqueueOpen = s.reactor.kernel.kqueueOpen)
      (hstopping : t.stopping = s.stopping) (hloop : s.loop = .exited → t.loop = .exited)
  | stop (hs : s.reactor.isRunning = true) (hrunning : t.reactor.isRunning = false)
      (hqueue : t.reactor.queueStopped = s.reactor.queueStopped)
      (hkqueue : t.reactor.kernel.kqueueOpen = s.reactor.kernel.kqueueOpen)
      (ht : t.stopping = .flagged)
  | stopQueue (hs : s.stopping = .flagged)
      (hrunning : t.reactor.isRunning = s.reactor.isRunning)
      (hqueue : t.reactor.queueStopped = true)
      (hkqueue : t.reactor.kernel.kqueueOpen = s.reactor.kernel.kqueueOpen)
      (ht : t.stopping = .notified)
  | stopWake (hs : s.stopping = .notified)
      (hrunning : t.reactor.isRunning = s.reactor.isRunning)
      (hqueue : t.reactor.queueStopped = s.reactor.queueStopped)
      (hkqueue : t.reactor.kernel.kqueueOpen = s.reactor.kernel.kqueueOpen)
      (ht : t.stopping = .joining)
  | stopCleanup (hs : s.stopping = .joining)
      (hrunning : t.reactor.isRunning = s.reactor.isRunning)
      (hqueue : t.reactor.queueStopped = s.reactor.queueStopped) (ht : t.stopping = .returned)
      (hloop : t.loop = .exited)

theorem System.FlagMove.of_sameControl {s t : System} (h : s.reactor.SameControl t.reactor)
    (hstopping : t.stopping = s.stopping) (hloop : t.loop = s.loop) : s.FlagMove t :=
  .same h.isRunning h.queueStopped h.kqueueOpen hstopping hloop.trans

theorem System.Step.flagMove {s t : System} (hstep : System.Step s t) (hrest : s.AtRest) :
    s.FlagMove t := by
  cases hstep with
  | accept fd peer hfd hfresh hadd =>
    have hsame := Reactor.addConnection_sameControl fd peer (s.reactor.accept fd)
    rw [hadd] at hsame
    exact .of_sameControl ((Reactor.accept_sameControl fd _).trans hsame) rfl rfl
  | @acceptRejected r fd peer hfd hfresh hadd =>
    have hsame := Reactor.addConnection_sameControl fd peer (s.reactor.accept fd)
    rw [hadd] at hsame
    have hclosed := hsame.trans (Reactor.closeFd_sameControl fd r)
    exact .of_sameControl ((Reactor.accept_sameControl fd _).trans hclosed) rfl rfl
  | addInvalid fd peer hfd hadd =>
    have hsame := Reactor.addConnection_sameControl fd peer s.reactor
    rw [hadd] at hsame
    exact .of_sameControl hsame rfl rfl
  | request req hsized hreq =>
    have hsame := Reactor.request_sameControl s.nextPromise req s.reactor
    rw [hreq] at hsame
    exact .of_sameControl hsame rfl rfl
  | requestRejected req hsized hreq =>
    have hsame := Reactor.request_sameControl s.nextPromise req s.reactor
    rw [hreq] at hsame
    exact .of_sameControl hsame rfl rfl
  | @enqueueRejected op => exact .of_sameControl (Reactor.reject_sameControl op _) rfl rfl
  | loop hloop =>
    obtain ⟨hrunning, hstopped, hkqueue, hloops⟩ := hloop.flags hrest
    exact .same hrunning hstopped hkqueue rfl fun hexited => absurd hexited hloops
  | stop hrunning => exact .stop hrunning rfl rfl rfl rfl
  | stopQueue hflagged => exact .stopQueue hflagged rfl rfl rfl rfl
  | stopWake hnotified => exact .stopWake hnotified rfl rfl rfl rfl
  | stopCleanup env hjoined horder hjoining =>
    have hsame := Reactor.cleanupAllConnections_sameControl env
      { s.reactor with kernel := s.reactor.kernel.closeQueue }
    exact .stopCleanup hjoining hsame.isRunning hsame.queueStopped rfl hjoined
  | _ => exact .same rfl rfl rfl rfl id

theorem System.Step.phase {s t : System} (hstep : System.Step s t) (hrest : s.AtRest)
    (h : s.Phase) : t.Phase := by
  have hcalled : s.stopping ≠ .notCalled → ¬s.reactor.isRunning = true :=
    fun hne hrunning => hne (h.running.mp hrunning)
  cases hstep.flagMove hrest with
  | same hrunning hqueue hkqueue hstopping hloop =>
    refine ⟨?_, ?_, ?_, fun hreturned => hloop (h.joined (hstopping ▸ hreturned))⟩
    · rw [hrunning, hstopping]
      exact h.running
    · rw [hqueue, hstopping]
      exact h.stopped
    · rw [hkqueue, hstopping]
      exact h.kqueueOpen
  | stop hs hrunning hqueue hkqueue ht =>
    have hnotCalled := h.running.mp hs
    refine ⟨by simp [hrunning, ht], ?_, fun _ => hkqueue.trans (h.kqueueOpen ?_), by simp [ht]⟩
    · rw [hqueue, h.stopped, hnotCalled, ht]
      decide
    · rw [hnotCalled]
      decide
  | stopQueue hs hrunning hqueue hkqueue ht =>
    have hdown := hcalled (by simp [hs])
    refine ⟨by simp [hrunning, hdown, ht], by simp [hqueue, ht],
      fun _ => hkqueue.trans (h.kqueueOpen ?_), by simp [ht]⟩
    rw [hs]
    decide
  | stopWake hs hrunning hqueue hkqueue ht =>
    have hdown := hcalled (by simp [hs])
    refine ⟨by simp [hrunning, hdown, ht], ?_, fun _ => hkqueue.trans (h.kqueueOpen ?_),
      by simp [ht]⟩
    · rw [hqueue, h.stopped, hs, ht]
      decide
    · rw [hs]
      decide
  | stopCleanup hs hrunning hqueue ht hloop =>
    have hdown := hcalled (by simp [hs])
    refine ⟨by simp [hrunning, hdown, ht], ?_, fun hne => absurd ht hne, fun _ => hloop⟩
    rw [hqueue, h.stopped, hs, ht]
    decide

theorem started_phase (reactorId : ℤ) (receiver : Receiver) (timeout : ℤ) :
    System.Phase { reactor := Reactor.started reactorId receiver timeout } where
  running := iff_of_true rfl rfl
  stopped := iff_of_false Bool.false_ne_true (by simp)
  kqueueOpen _ := rfl
  joined := nofun

/-- In every state of every run, a reactor is at rest, and its flags say how far `Stop` has
come. -/
theorem reactors_phase {reactorId : ℤ} {receiver : Receiver} {states : List System}
    (hrun : (reactors reactorId receiver).Run states) : ∀ s ∈ states, s.AtRest ∧ s.Phase := by
  refine hrun.invariant ?_ fun s t h (hstep : System.Step s t) =>
    ⟨hstep.atRest h.1, hstep.phase h.1 h.2⟩
  rintro s ⟨timeout, rfl⟩
  exact ⟨started_atRest reactorId receiver timeout, started_phase reactorId receiver timeout⟩

/-- `Stop` never starts again. -/
theorem System.Step.stays_returned {s t : System} (hstep : System.Step s t) (h : s.Phase)
    (hreturned : s.stopping = .returned) : t.stopping = .returned := by
  cases hstep with
  | stop hrunning =>
    rw [h.running.mp hrunning] at hreturned
    cases hreturned
  | stopQueue hflagged => cases hflagged.symm.trans hreturned
  | stopWake hnotified => cases hnotified.symm.trans hreturned
  | stopCleanup => rfl
  | _ => exact hreturned

end DarwinCore.Network
