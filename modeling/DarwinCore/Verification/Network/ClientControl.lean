import DarwinCore.Verification.Network.ClientFrame

/-! # The flags and the queue of a client reactor

What is done for the connection touches neither the queue nor the flags, and the flags say how
far `Stop` has come. -/

namespace DarwinCore.Network

namespace ClientReactor

structure SameControl (r r' : ClientReactor) : Prop where
  isRunning : r'.isRunning = r.isRunning
  queueStopped : r'.queueStopped = r.queueStopped
  queue : r'.sendOperations = r.sendOperations
  wakeup : r'.kernel.wakeup = r.kernel.wakeup
  kqueueOpen : r'.kernel.kqueueOpen = r.kernel.kqueueOpen

variable {r r' r'' : ClientReactor}

theorem SameControl.refl (r : ClientReactor) : r.SameControl r :=
  ⟨rfl, rfl, rfl, rfl, rfl⟩

theorem SameControl.trans (h : r.SameControl r') (h' : r'.SameControl r'') :
    r.SameControl r'' :=
  ⟨h'.isRunning.trans h.isRunning, h'.queueStopped.trans h.queueStopped,
    h'.queue.trans h.queue, h'.wakeup.trans h.wakeup, h'.kqueueOpen.trans h.kqueueOpen⟩

theorem emit_sameControl (e : ClientEffect) (r : ClientReactor) : r.SameControl (r.emit e) :=
  ⟨rfl, rfl, rfl, rfl, rfl⟩

theorem assign_sameControl (f : ClientConnection → ClientConnection) (r : ClientReactor) :
    r.SameControl (r.assign f) :=
  ⟨rfl, rfl, rfl, rfl, rfl⟩

theorem closeFd_sameControl (fd : ℤ) (r : ClientReactor) : r.SameControl (r.closeFd fd) :=
  ⟨rfl, rfl, rfl, rfl, rfl⟩

theorem monitor_sameControl (env : Environment) (fd : ℤ) (change : Change) (r : ClientReactor) :
    r.SameControl (r.monitor env fd change).2 := by
  unfold monitor
  dsimp only
  split
  · cases change <;> exact ⟨rfl, rfl, rfl, rfl, rfl⟩
  · exact ⟨rfl, rfl, rfl, rfl, rfl⟩

theorem dispatchEvent_sameControl (env : Environment) (event : NetworkEvent)
    (r : ClientReactor) : r.SameControl (r.dispatchEvent env event) := by
  rcases dispatchEvent_cases env event r with ⟨-, h⟩ | h | h <;> rw [h] <;>
    exact ⟨rfl, rfl, rfl, rfl, rfl⟩

theorem removeConnection_sameControl (env : Environment) (removal : Removal)
    (r : ClientReactor) : r.SameControl (r.removeConnection env removal).2 := by
  cases removal with
  | checking =>
    unfold removeConnection
    dsimp only
    split <;> exact .refl r
  | closing fd => exact closeFd_sameControl fd r
  | clearing => exact ⟨rfl, rfl, rfl, rfl, rfl⟩
  | disconnecting => exact dispatchEvent_sameControl env _ r

theorem setConnection_sameControl (env : Environment) (fd : ℤ) (peer : SockAddr)
    (setting : Setting) (r : ClientReactor) :
    r.SameControl (r.setConnection env fd peer setting).2 := by
  cases setting with
  | entering =>
    unfold setConnection
    dsimp only
    split <;> exact .refl r
  | checking =>
    unfold setConnection
    dsimp only
    split <;> exact .refl r
  | removing removal =>
    have hsame := r.removeConnection_sameControl env removal
    unfold setConnection
    dsimp only
    split
    · rename_i heq
      rw [heq] at hsame
      exact hsame
    · rename_i heq
      rw [heq] at hsame
      exact hsame
  | monitoring =>
    have hsame := r.monitor_sameControl env fd .addRead
    unfold setConnection
    dsimp only
    split
    · exact hsame.trans (closeFd_sameControl fd _)
    · exact hsame
  | assigning => exact ⟨rfl, rfl, rfl, rfl, rfl⟩
  | raising => exact ⟨rfl, rfl, rfl, rfl, rfl⟩
  | connecting => exact dispatchEvent_sameControl env _ r
  | returned success => exact .refl r

theorem awaitWritable_sameControl (env : Environment) (fd : ℤ) (r : ClientReactor) :
    r.SameControl (r.awaitWritable env fd) := by
  unfold awaitWritable
  split
  · exact (r.monitor_sameControl env fd .addWrite).trans (assign_sameControl _ _)
  · exact .refl r

theorem stopWriting_sameControl (env : Environment) (fd : ℤ) (r : ClientReactor) :
    r.SameControl (r.stopWriting env fd) := by
  unfold stopWriting
  split
  · exact (r.monitor_sameControl env fd .deleteWrite).trans (assign_sameControl _ _)
  · exact .refl r

theorem trySendDirect_sameControl (env : Environment) (r : ClientReactor) :
    r.SameControl (r.trySendDirect env).2 := by
  unfold trySendDirect
  dsimp only
  split
  · exact .refl r
  · split
    · exact ⟨rfl, rfl, rfl, rfl, rfl⟩
    · refine SameControl.trans ?_ ((awaitWritable_sameControl env _ _).trans
        (stopWriting_sameControl env _ _))
      split <;> exact ⟨rfl, rfl, rfl, rfl, rfl⟩

theorem doSend_sameControl (env : Environment) {data : List UInt8} {success removes : Bool}
    (h : r.doSend env data = some (success, removes, r')) : r.SameControl r' := by
  unfold doSend at h
  split at h
  · cases h
    exact .refl r
  · split at h
    · cases h
    · cases h
      exact assign_sameControl _ r
    · rename_i buffer hwrite
      have hsame := (r.assign_sameControl fun c => { c with sendBuffer := buffer }).trans
        (trySendDirect_sameControl env _)
      obtain ⟨-, hresult⟩ := Prod.mk.inj (Option.some.inj h)
      rw [hresult] at hsame
      exact hsame

theorem complete_sameControl (op : SendOperation) (success : Bool) (r : ClientReactor) :
    r.SameControl (r.complete op success) := by
  unfold complete
  cases op.callback with
  | none => cases op.promise <;> exact ⟨rfl, rfl, rfl, rfl, rfl⟩
  | some callback => cases op.promise <;> exact ⟨rfl, rfl, rfl, rfl, rfl⟩

theorem processKqueueEvent_sameControl (env : Environment) (event : KEvent)
    (r : ClientReactor) : r.SameControl (r.processKqueueEvent env event).2 := by
  have hsent := r.trySendDirect_sameControl env
  unfold processKqueueEvent
  split
  · exact .refl r
  · split
    · exact .refl r
    · split
      · exact .refl r
      · cases event.filter with
        | write => exact hsent
        | _ => exact .refl r

theorem receive_sameControl (env : Environment) (fd : ℤ) (outcome : RecvOutcome)
    (r : ClientReactor) : r.SameControl (r.receive env fd outcome).2 := by
  cases outcome with
  | received data hdata =>
    refine SameControl.trans ?_ (dispatchEvent_sameControl env _ _)
    exact ⟨rfl, rfl, rfl, rfl, rfl⟩
  | closed => exact .refl r
  | failed code => cases code <;> exact .refl r

theorem shutdownConnection_sameControl (r : ClientReactor) :
    r.SameControl r.shutdownConnection := by
  unfold shutdownConnection
  split
  · exact emit_sameControl _ r
  · exact .refl r

theorem closeConnection_sameControl (r : ClientReactor) : r.SameControl r.closeConnection := by
  unfold closeConnection
  split <;> exact ⟨rfl, rfl, rfl, rfl, rfl⟩

end ClientReactor

/-! ## How far `Stop` has come -/

/-- `Stop` has joined the thread of the reactor. -/
def ClientStopping.Joined : ClientStopping → Prop
  | closing => True
  | returned => True
  | _ => False

structure ClientSystem.Phase (s : ClientSystem) : Prop where
  running : s.reactor.isRunning = true ↔ s.stopping = .notCalled
  stopped : s.reactor.queueStopped = true ↔ s.stopping ≠ .notCalled ∧ s.stopping ≠ .flagged
  kqueueOpen : ¬s.stopping.Joined → s.reactor.kernel.kqueueOpen = true
  joined : s.stopping.Joined → s.loop = .exited

theorem ClientSystem.Phase.sameControl {s t : ClientSystem} (h : s.Phase)
    (hr : s.reactor.SameControl t.reactor) (hstopping : t.stopping = s.stopping)
    (hloop : s.loop = .exited → t.loop = .exited) : t.Phase where
  running := by
    rw [hr.isRunning, hstopping]
    exact h.running
  stopped := by
    rw [hr.queueStopped, hstopping]
    exact h.stopped
  kqueueOpen := by
    rw [hr.kqueueOpen, hstopping]
    exact h.kqueueOpen
  joined hjoined := hloop (h.joined (hstopping ▸ hjoined))

/-- `Stop` goes on, once the queue is stopped. -/
theorem ClientSystem.Phase.advance {s t : ClientSystem} (h : s.Phase)
    (hs : s.stopping ≠ .notCalled ∧ s.stopping ≠ .flagged)
    (ht : t.stopping ≠ .notCalled ∧ t.stopping ≠ .flagged)
    (hrunning : t.reactor.isRunning = s.reactor.isRunning)
    (hqueue : t.reactor.queueStopped = s.reactor.queueStopped)
    (hkqueue : ¬t.stopping.Joined → t.reactor.kernel.kqueueOpen = true)
    (hjoined : t.stopping.Joined → t.loop = .exited) : t.Phase where
  running := by
    rw [hrunning, h.running]
    exact iff_of_false hs.1 ht.1
  stopped := by
    rw [hqueue, h.stopped]
    exact iff_of_true hs ht
  kqueueOpen := hkqueue
  joined := hjoined

/-- What a step of the loop does to the flags. The loop does not run once it has left. -/
theorem ClientLoop.Step.flags {state state' : ClientReactor × ClientLoop}
    (hstep : ClientLoop.Step state state') :
    state'.1.isRunning = state.1.isRunning ∧ state'.1.queueStopped = state.1.queueStopped ∧
      state'.1.kernel.kqueueOpen = state.1.kernel.kqueueOpen ∧ state.2 ≠ .exited := by
  have hkeeps {r r' : ClientReactor} {loop : ClientLoop} (h : r.SameControl r')
      (hloop : loop ≠ .exited) : r'.isRunning = r.isRunning ∧ r'.queueStopped = r.queueStopped ∧
        r'.kernel.kqueueOpen = r.kernel.kqueueOpen ∧ loop ≠ .exited :=
    ⟨h.isRunning, h.queueStopped, h.kqueueOpen, hloop⟩
  cases hstep with
  | process env hbatch hqueue hprocess =>
    have hsame := ClientReactor.doSend_sameControl env hprocess
    exact ⟨hsame.isRunning, hsame.queueStopped, hsame.kqueueOpen, nofun⟩
  | complete => exact hkeeps (ClientReactor.complete_sameControl _ _ _) nofun
  | flush env => exact hkeeps (ClientReactor.trySendDirect_sameControl env _) nofun
  | woken events =>
    dsimp only
    split <;> exact ⟨rfl, rfl, rfl, nofun⟩
  | handle env => exact hkeeps (ClientReactor.processKqueueEvent_sameControl env _ _) nofun
  | receive env outcome => exact hkeeps (ClientReactor.receive_sameControl env _ outcome _) nofun
  | @remove r r' env removal following next hremove =>
    have hsame := r.removeConnection_sameControl env removal
    rw [hremove] at hsame
    exact hkeeps hsame nofun
  | _ => exact ⟨rfl, rfl, rfl, nofun⟩

theorem ClientSystem.Step.stays_exited {s t : ClientSystem} (hstep : ClientSystem.Step s t)
    (hexited : s.loop = .exited) : t.loop = .exited := by
  cases hstep with
  | loop hloop => exact absurd hexited hloop.flags.2.2.2
  | _ => exact hexited

theorem ClientSystem.Step.phase {s t : ClientSystem} (hstep : ClientSystem.Step s t)
    (h : s.Phase) : t.Phase := by
  cases hstep with
  | request => exact ⟨h.running, h.stopped, h.kqueueOpen, h.joined⟩
  | enqueue => exact ⟨h.running, h.stopped, h.kqueueOpen, h.joined⟩
  | enqueueRejected => exact ⟨h.running, h.stopped, h.kqueueOpen, h.joined⟩
  | wake => exact ⟨h.running, h.stopped, h.kqueueOpen, h.joined⟩
  | setConnection => exact ⟨h.running, h.stopped, h.kqueueOpen, h.joined⟩
  | setting env =>
    exact h.sameControl (ClientReactor.setConnection_sameControl env _ _ _ _) rfl id
  | setConnectionReturned => exact ⟨h.running, h.stopped, h.kqueueOpen, h.joined⟩
  | removeConnection => exact ⟨h.running, h.stopped, h.kqueueOpen, h.joined⟩
  | removing env =>
    exact h.sameControl (ClientReactor.removeConnection_sameControl env _ _) rfl id
  | loop hloop =>
    obtain ⟨hrunning, hstopped, hkqueue, hloops⟩ := hloop.flags
    refine ⟨hrunning ▸ h.running, hstopped ▸ h.stopped, hkqueue ▸ h.kqueueOpen, ?_⟩
    exact fun hjoined => absurd (h.joined hjoined) hloops
  | stop hrunning =>
    have hcalled := h.running.mp hrunning
    have hqueue : s.reactor.queueStopped ≠ true := fun hstopped =>
      (h.stopped.mp hstopped).1 hcalled
    refine ⟨by simp, iff_of_false hqueue (by simp), fun _ => h.kqueueOpen ?_, nofun⟩
    rw [hcalled]
    exact id
  | stopQueue hflagged =>
    have hrunning : ¬s.reactor.isRunning = true := fun hrunning => by
      rw [h.running.mp hrunning] at hflagged
      cases hflagged
    refine ⟨iff_of_false hrunning (by simp), by simp, fun _ => h.kqueueOpen ?_, nofun⟩
    rw [hflagged]
    exact id
  | stopWake hnotified =>
    have hs : s.stopping ≠ .notCalled ∧ s.stopping ≠ .flagged := by simp [hnotified]
    refine h.advance hs (by simp) rfl rfl (fun _ => h.kqueueOpen ?_) nofun
    rw [hnotified]
    exact id
  | stopShutdown hwoken =>
    have hs : s.stopping ≠ .notCalled ∧ s.stopping ≠ .flagged := by simp [hwoken]
    have hsame := s.reactor.shutdownConnection_sameControl
    refine h.advance hs (by simp) hsame.isRunning hsame.queueStopped (fun _ => ?_) nofun
    refine hsame.kqueueOpen.trans (h.kqueueOpen ?_)
    rw [hwoken]
    exact id
  | stopMonitor hexited hjoining =>
    have hs : s.stopping ≠ .notCalled ∧ s.stopping ≠ .flagged := by simp [hjoining]
    exact h.advance hs (by simp) rfl rfl (fun hnot => absurd trivial hnot) fun _ => hexited
  | stopClose hclosing =>
    have hs : s.stopping ≠ .notCalled ∧ s.stopping ≠ .flagged := by simp [hclosing]
    have hsame := s.reactor.closeConnection_sameControl
    refine h.advance hs (by simp) hsame.isRunning hsame.queueStopped
      (fun hnot => absurd trivial hnot) fun _ => h.joined ?_
    rw [hclosing]
    trivial

theorem started_clientPhase (receiver : Receiver) (fds : Finset ℤ) :
    ClientSystem.Phase { reactor := ClientReactor.started receiver fds } where
  running := iff_of_true rfl rfl
  stopped := iff_of_false Bool.false_ne_true (by simp)
  kqueueOpen _ := rfl
  joined := nofun

/-- In every state of every run, the flags of a client reactor say how far `Stop` has come. -/
theorem clientReactors_phase {receiver : Receiver} {states : List ClientSystem}
    (hrun : (clientReactors receiver).Run states) : ∀ s ∈ states, s.Phase := by
  refine hrun.invariant ?_ fun s t h (hstep : ClientSystem.Step s t) => hstep.phase h
  rintro s ⟨fds, rfl⟩
  exact started_clientPhase receiver fds

end DarwinCore.Network
