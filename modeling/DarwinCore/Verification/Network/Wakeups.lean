import DarwinCore.Library.Threads
import DarwinCore.Verification.Network.ClientControl
import DarwinCore.Verification.Network.Control

/-! # No wakeup is lost before the batches fill up

The loop of a reactor takes two batches of operations at most after it is woken, and that of a
client reactor one. -/

namespace DarwinCore.Network

/-! ## `Reactor` -/

/-- How many operations the loop takes before it waits, if there are as many. -/
def Loop.budget : Loop → ℕ
  | top => maxBatchSize
  | draining .beforeEvents processed => maxBatchSize - processed
  | draining .afterEvents processed => 2 * maxBatchSize - processed
  | checkingTimeouts => 0
  | waiting => 0
  | handling _ => 2 * maxBatchSize
  | exited => 0

namespace System

def wakeup (s : System) : Wakeup where
  queued := s.reactor.pendingOperations.length
  waking := s.callers.count .waking
  armed := s.reactor.kernel.wakeup
  budget := s.loop.budget

/-- The loop is woken by the wakeup event when more is queued than it takes before it waits
again, and nobody is going to wake it once more. -/
def WakesLate (s t : System) : Prop :=
  s.loop = .waiting ∧ (∃ events, t.loop = .handling events ∧ events.any KEvent.isWakeup) ∧
    .waking ∉ s.callers ∧ 2 * maxBatchSize < s.reactor.pendingOperations.length

/-- A loop that waits while the reactor is running is going to be woken for whatever is
queued. -/
def NoLostWakeup (s : System) : Prop :=
  s.loop = .waiting → s.reactor.isRunning = true → .waking ∉ s.callers →
    s.reactor.pendingOperations = [] ∨ s.reactor.kernel.wakeup = true

variable {s t : System}

theorem wakeup_same (hcontrol : s.reactor.SameControl t.reactor)
    (hcallers : t.callers.count .waking = s.callers.count .waking)
    (hbudget : s.loop.budget ≤ t.loop.budget ∨ s.reactor.pendingOperations = []) :
    Wakeup.Step s.wakeup t.wakeup :=
  .renew (congrArg List.length hcontrol.queue) hcallers hcontrol.wakeup
    (hbudget.imp_right (congrArg List.length))

theorem wakeup_take {op : Operation} {rest : List Operation}
    (hqueue : s.reactor.pendingOperations = op :: rest)
    (hcontrol : (s.reactor.dequeue op rest).SameControl t.reactor)
    (hcallers : t.callers = s.callers) (hbudget : s.loop.budget = t.loop.budget + 1) :
    Wakeup.Step s.wakeup t.wakeup := by
  have hrest : t.reactor.pendingOperations.length = rest.length :=
    congrArg List.length hcontrol.queue
  refine .take ?_ (congrArg (List.count _) hcallers) hcontrol.wakeup hbudget
  exact (congrArg List.length hqueue).trans (congrArg (· + 1) hrest.symm)

end System

theorem Loop.budget_draining_lt {which : Drain} {processed : ℕ} (h : processed < maxBatchSize) :
    (draining which processed).budget = (draining which (processed + 1)).budget + 1 := by
  unfold maxBatchSize at h
  cases which with
  | beforeEvents =>
    simp only [budget, maxBatchSize]
    omega
  | afterEvents =>
    simp only [budget, maxBatchSize]
    omega

theorem Loop.budget_next_ge (which : Drain) :
    (draining which maxBatchSize).budget ≤ which.next.budget := by
  cases which with
  | beforeEvents => exact Nat.le_of_eq (Nat.sub_self _)
  | afterEvents => decide

/-- What a step of the loop is to the queue and the wakeup, unless the loop exits. -/
theorem Loop.Step.wakeup {s : System} {r : Reactor} {loop : Loop}
    (hstep : Loop.Step (s.reactor, s.loop) (r, loop)) (hrest : s.AtRest)
    (hgood : ¬s.WakesLate { s with reactor := r, loop := loop }) (hloop : loop ≠ .exited) :
    Wakeup.Step s.wakeup { s with reactor := r, loop := loop }.wakeup := by
  obtain ⟨reactor, callers, before, stopping, nextPromise⟩ := s
  cases hstep with
  | enter => exact System.wakeup_same (.refl reactor) rfl (.inl le_rfl)
  | leave => exact absurd rfl hloop
  | process env hbatch hqueue hprocess =>
    have hsame := hrest.processOperation_sameControl env hqueue hprocess
    exact System.wakeup_take hqueue hsame rfl (budget_draining_lt hbatch)
  | @drained _ which processed hdone =>
    refine System.wakeup_same ⟨rfl, rfl, rfl, rfl, rfl⟩ rfl ?_
    rcases hdone with rfl | hempty
    · exact .inl (budget_next_ge which)
    · exact .inr hempty
  | notDue => exact System.wakeup_same (.refl reactor) rfl (.inl le_rfl)
  | due env => exact System.wakeup_same (reactor.checkTimeouts_sameControl env) rfl (.inl le_rfl)
  | interrupted => exact System.wakeup_same (.refl reactor) rfl (.inl (Nat.zero_le _))
  | failed => exact absurd rfl hloop
  | woken events =>
    split
    · rename_i hwoken
      refine .clear rfl rfl ?_
      by_contra hlate
      rw [not_or, Nat.not_le, Nat.not_lt] at hlate
      refine hgood ⟨rfl, ⟨events, rfl, hwoken⟩, ?_, hlate.1⟩
      exact List.count_eq_zero.mp (Nat.le_zero.mp hlate.2)
    · exact System.wakeup_same (.refl reactor) rfl (.inl (Nat.zero_le _))
  | @handle _ env event =>
    refine System.wakeup_same ?_ rfl (.inl le_rfl)
    split
    · exact .refl reactor
    · exact hrest.processKqueueEvent_sameControl env event
  | handled => exact System.wakeup_same (.refl reactor) rfl (.inl le_rfl)

theorem System.Step.stays_exited {s t : System} (hstep : System.Step s t)
    (hexited : s.loop = .exited) : t.loop = .exited := by
  cases hstep with
  | loop hloop =>
    rw [hexited] at hloop
    cases hloop
  | _ => exact hexited

theorem System.Step.wakeup {s t : System} (hstep : System.Step s t) (hrest : s.AtRest)
    (hphase : s.Phase) (hs : s.loop ≠ .exited) (ht : t.loop ≠ .exited) (hgood : ¬s.WakesLate t) :
    Wakeup.Step s.wakeup t.wakeup := by
  have hopen : s.reactor.kernel.kqueueOpen = true :=
    hphase.kqueueOpen fun hreturned => hs (hphase.joined hreturned)
  cases hstep with
  | accept fd peer hfd hfresh hadd =>
    have hsame := Reactor.addConnection_sameControl fd peer (s.reactor.accept fd)
    rw [hadd] at hsame
    exact wakeup_same ((Reactor.accept_sameControl fd _).trans hsame) (by simp) (.inl le_rfl)
  | @acceptRejected r fd peer hfd hfresh hadd =>
    have hsame := Reactor.addConnection_sameControl fd peer (s.reactor.accept fd)
    rw [hadd] at hsame
    have hclosed := hsame.trans (Reactor.closeFd_sameControl fd r)
    exact wakeup_same ((Reactor.accept_sameControl fd _).trans hclosed) rfl (.inl le_rfl)
  | addInvalid fd peer hfd hadd =>
    have hsame := Reactor.addConnection_sameControl fd peer s.reactor
    rw [hadd] at hsame
    exact wakeup_same hsame rfl (.inl le_rfl)
  | request req hsized hreq =>
    have hsame := Reactor.request_sameControl s.nextPromise req s.reactor
    rw [hreq] at hsame
    exact wakeup_same hsame (by simp) (.inl le_rfl)
  | requestRejected req hsized hreq =>
    have hsame := Reactor.request_sameControl s.nextPromise req s.reactor
    rw [hreq] at hsame
    exact wakeup_same hsame rfl (.inl le_rfl)
  | enqueue hcallers =>
    exact .put List.length_append (by simp [System.wakeup, hcallers]; omega) rfl rfl
  | @enqueueRejected op before after hcallers =>
    exact wakeup_same (Reactor.reject_sameControl op _) (by simp [hcallers]) (.inl le_rfl)
  | wake => exact .arm rfl hopen rfl
  | setConnectionTimeout timeout => exact wakeup_same ⟨rfl, rfl, rfl, rfl, rfl⟩ rfl (.inl le_rfl)
  | setEventCallback receiver => exact wakeup_same ⟨rfl, rfl, rfl, rfl, rfl⟩ rfl (.inl le_rfl)
  | loop hloop => exact hloop.wakeup hrest hgood ht
  | stop => exact .renew rfl rfl rfl (.inl le_rfl)
  | stopQueue => exact .renew rfl rfl rfl (.inl le_rfl)
  | stopWake => exact .arm rfl hopen rfl
  | stopCleanup env hjoined => exact absurd hjoined hs

/-- In every run in which the loop is never woken late, no wakeup is lost. -/
theorem reactors_noLostWakeup {reactorId : ℤ} {receiver : Receiver} {states : List System}
    (hrun : (reactors reactorId receiver).Run states)
    (hgood : ∀ s t, [t, s] <:+: states → ¬s.WakesLate t) : ∀ s ∈ states, s.NoLostWakeup := by
  have hcovered : ∀ s ∈ states,
      (s.AtRest ∧ s.Phase) ∧ (s.loop ≠ .exited → s.wakeup.Covered) := by
    refine hrun.invariant_along ?_ (fun s t h (hstep : System.Step s t) hst => ?_) hgood
    · rintro s ⟨timeout, rfl⟩
      exact ⟨⟨started_atRest reactorId receiver timeout, started_phase reactorId receiver timeout⟩,
        fun _ => .inr (.inr (Nat.zero_le _))⟩
    · refine ⟨⟨hstep.atRest h.1.1, hstep.phase h.1.1 h.1.2⟩, fun ht => ?_⟩
      have hs : s.loop ≠ .exited := fun hexited => ht (hstep.stays_exited hexited)
      exact (hstep.wakeup h.1.1 h.1.2 hs ht hst).covered (h.2 hs)
  intro s hs hwaiting hrunning hwaking
  have hwaits := (hcovered s hs).2 (by simp [hwaiting])
  have hbudget : s.wakeup.budget = 0 := congrArg Loop.budget hwaiting
  rcases hwaits.waiting (List.count_eq_zero.mpr hwaking) hbudget with hempty | harmed
  · exact .inl (List.length_eq_zero_iff.mp hempty)
  · exact .inr harmed

/-! ## `ClientReactor` -/

/-- How many operations the loop takes before it waits, if there are as many. -/
def ClientLoop.budget : ClientLoop → ℕ
  | top => maxBatchSize
  | draining processed => maxBatchSize - processed
  | completing processed _ _ => maxBatchSize - processed
  | flushing => 0
  | waiting => 0
  | handling _ => maxBatchSize
  | reading _ _ => maxBatchSize
  | removing _ next => next.budget
  | exited => 0

theorem ClientLoop.budget_after (removes : Bool) (next : ClientLoop) :
    (after removes next).budget = next.budget := by
  cases removes <;> rfl

theorem ClientReactor.Reaction.budget_next (reaction : Reaction) (events : List KEvent) :
    (reaction.next events).budget = maxBatchSize := by
  cases reaction <;> rfl

namespace ClientSystem

def wakeup (s : ClientSystem) : Wakeup where
  queued := s.reactor.sendOperations.length
  waking := s.callers.count .waking
  armed := s.reactor.kernel.wakeup
  budget := s.loop.budget

/-- The loop is woken by the wakeup event when more is queued than it takes before it waits
again, and nobody is going to wake it once more. -/
def WakesLate (s t : ClientSystem) : Prop :=
  s.loop = .waiting ∧ (∃ events, t.loop = .handling events ∧ events.any KEvent.isClientWakeup) ∧
    .waking ∉ s.callers ∧ maxBatchSize < s.reactor.sendOperations.length

/-- A loop that waits while the reactor is running is going to be woken for whatever is
queued. -/
def NoLostWakeup (s : ClientSystem) : Prop :=
  s.loop = .waiting → s.reactor.isRunning = true → .waking ∉ s.callers →
    s.reactor.sendOperations = [] ∨ s.reactor.kernel.wakeup = true

variable {s t : ClientSystem}

theorem wakeup_same (hcontrol : s.reactor.SameControl t.reactor)
    (hcallers : t.callers.count .waking = s.callers.count .waking)
    (hbudget : s.loop.budget ≤ t.loop.budget ∨ s.reactor.sendOperations = []) :
    Wakeup.Step s.wakeup t.wakeup :=
  .renew (congrArg List.length hcontrol.queue) hcallers hcontrol.wakeup
    (hbudget.imp_right (congrArg List.length))

theorem wakeup_take {op : SendOperation} {rest : List SendOperation}
    (hqueue : s.reactor.sendOperations = op :: rest)
    (hcontrol : (s.reactor.dequeue op rest).SameControl t.reactor)
    (hcallers : t.callers = s.callers) (hbudget : s.loop.budget = t.loop.budget + 1) :
    Wakeup.Step s.wakeup t.wakeup := by
  have hrest : t.reactor.sendOperations.length = rest.length := congrArg List.length hcontrol.queue
  refine .take ?_ (congrArg (List.count _) hcallers) hcontrol.wakeup hbudget
  exact (congrArg List.length hqueue).trans (congrArg (· + 1) hrest.symm)

end ClientSystem

/-- What a step of the loop is to the queue and the wakeup, unless the loop exits. -/
theorem ClientLoop.Step.wakeup {s : ClientSystem} {r : ClientReactor} {loop : ClientLoop}
    (hstep : ClientLoop.Step (s.reactor, s.loop) (r, loop))
    (hgood : ¬s.WakesLate { s with reactor := r, loop := loop }) (hloop : loop ≠ .exited) :
    Wakeup.Step s.wakeup { s with reactor := r, loop := loop }.wakeup := by
  obtain ⟨reactor, callers, before, stopping, nextPromise⟩ := s
  cases hstep with
  | enter => exact ClientSystem.wakeup_same (.refl reactor) rfl (.inl le_rfl)
  | leave => exact absurd rfl hloop
  | @process _ _ processed env op rest success removes hbatch hqueue hprocess =>
    have hsame := ClientReactor.doSend_sameControl env hprocess
    refine ClientSystem.wakeup_take hqueue hsame rfl ?_
    rw [budget_after]
    simp only [budget]
    omega
  | complete =>
    exact ClientSystem.wakeup_same (ClientReactor.complete_sameControl _ _ reactor) rfl
      (.inl le_rfl)
  | @drained _ processed hdone =>
    refine ClientSystem.wakeup_same (.refl reactor) rfl ?_
    rcases hdone with rfl | hempty
    · exact .inl ((Nat.le_of_eq (Nat.sub_self _)).trans (Nat.zero_le _))
    · exact .inr hempty
  | flush env =>
    exact ClientSystem.wakeup_same (reactor.trySendDirect_sameControl env) rfl
      (.inl (Nat.zero_le _))
  | interrupted => exact ClientSystem.wakeup_same (.refl reactor) rfl (.inl (Nat.zero_le _))
  | failed => exact absurd rfl hloop
  | woken events =>
    split
    · rename_i hwoken
      refine .clear rfl rfl ?_
      by_contra hlate
      rw [not_or, Nat.not_le, Nat.not_lt] at hlate
      refine hgood ⟨rfl, ⟨events, rfl, hwoken⟩, ?_, hlate.1⟩
      exact List.count_eq_zero.mp (Nat.le_zero.mp hlate.2)
    · exact ClientSystem.wakeup_same (.refl reactor) rfl (.inl (Nat.zero_le _))
  | @handle _ env event events =>
    refine ClientSystem.wakeup_same (reactor.processKqueueEvent_sameControl env event) rfl (.inl ?_)
    exact Nat.le_of_eq (ClientReactor.Reaction.budget_next _ _).symm
  | skip => exact ClientSystem.wakeup_same (.refl reactor) rfl (.inl le_rfl)
  | handled => exact ClientSystem.wakeup_same (.refl reactor) rfl (.inl le_rfl)
  | @receive _ env outcome fd events =>
    refine ClientSystem.wakeup_same (reactor.receive_sameControl env fd outcome) rfl (.inl ?_)
    exact Nat.le_of_eq (ClientReactor.Reaction.budget_next _ _).symm
  | @remove _ _ env removal following next hremove =>
    have hsame := reactor.removeConnection_sameControl env removal
    rw [hremove] at hsame
    refine ClientSystem.wakeup_same hsame rfl ?_
    cases following <;> exact .inl le_rfl

theorem ClientSystem.Step.wakeup {s t : ClientSystem} (hstep : ClientSystem.Step s t)
    (hphase : s.Phase) (hs : s.loop ≠ .exited) (ht : t.loop ≠ .exited) (hgood : ¬s.WakesLate t) :
    Wakeup.Step s.wakeup t.wakeup := by
  have hopen : s.reactor.kernel.kqueueOpen = true :=
    hphase.kqueueOpen fun hjoined => hs (hphase.joined hjoined)
  cases hstep with
  | request => exact wakeup_same (.refl _) (by simp) (.inl le_rfl)
  | enqueue hcallers =>
    exact .put List.length_append (by simp [ClientSystem.wakeup, hcallers]; omega) rfl rfl
  | enqueueRejected hcallers => exact wakeup_same (.refl _) (by simp [hcallers]) (.inl le_rfl)
  | wake => exact .arm rfl hopen rfl
  | setConnection => exact .renew rfl rfl rfl (.inl le_rfl)
  | setting env =>
    exact wakeup_same (ClientReactor.setConnection_sameControl env _ _ _ _) rfl (.inl le_rfl)
  | setConnectionReturned => exact .renew rfl rfl rfl (.inl le_rfl)
  | removeConnection => exact .renew rfl rfl rfl (.inl le_rfl)
  | removing env =>
    exact wakeup_same (ClientReactor.removeConnection_sameControl env _ _) rfl (.inl le_rfl)
  | loop hloop => exact hloop.wakeup hgood ht
  | stop => exact .renew rfl rfl rfl (.inl le_rfl)
  | stopQueue => exact .renew rfl rfl rfl (.inl le_rfl)
  | stopWake => exact .arm rfl hopen rfl
  | stopShutdown => exact wakeup_same s.reactor.shutdownConnection_sameControl rfl (.inl le_rfl)
  | stopMonitor hexited => exact absurd hexited hs
  | stopClose hclosing =>
    refine absurd (hphase.joined ?_) hs
    rw [hclosing]
    trivial

/-- In every run in which the loop is never woken late, no wakeup is lost. -/
theorem clientReactors_noLostWakeup {receiver : Receiver} {states : List ClientSystem}
    (hrun : (clientReactors receiver).Run states)
    (hgood : ∀ s t, [t, s] <:+: states → ¬s.WakesLate t) : ∀ s ∈ states, s.NoLostWakeup := by
  have hcovered : ∀ s ∈ states, s.Phase ∧ (s.loop ≠ .exited → s.wakeup.Covered) := by
    refine hrun.invariant_along ?_ (fun s t h (hstep : ClientSystem.Step s t) hst => ?_) hgood
    · rintro s ⟨fds, rfl⟩
      exact ⟨started_clientPhase receiver fds, fun _ => .inr (.inr (Nat.zero_le _))⟩
    · refine ⟨hstep.phase h.1, fun ht => ?_⟩
      have hs : s.loop ≠ .exited := fun hexited => ht (hstep.stays_exited hexited)
      exact (hstep.wakeup h.1 hs ht hst).covered (h.2 hs)
  intro s hs hwaiting hrunning hwaking
  have hwaits := (hcovered s hs).2 (by simp [hwaiting])
  have hbudget : s.wakeup.budget = 0 := congrArg ClientLoop.budget hwaiting
  rcases hwaits.waiting (List.count_eq_zero.mpr hwaking) hbudget with hempty | harmed
  · exact .inl (List.length_eq_zero_iff.mp hempty)
  · exact .inr harmed

/-! ## A burst of operations

As many operations as the batches hold are done when the loop is woken for them. The rest of a
larger burst is left in the queue while the loop waits, with nobody to wake it. -/

namespace System

/-- `queued` requests to remove a connection that does not exist are queued, and no thread is
inside a request function. -/
structure Flooded (loop : Loop) (queued : ℕ) (armed : Bool) (s : System) : Prop where
  loop : s.loop = loop
  queue : s.reactor.pendingOperations = List.replicate queued (.remove 0)
  armed : s.reactor.kernel.wakeup = armed
  callers : s.callers = []
  stopping : s.stopping = .notCalled

/-- A run that comes past what is to be `seen` leads there; if the loop is ever woken late, then
`late`. -/
def Floods (late : Prop) (seen : System → Prop) (loop : Loop) (queued : ℕ) (armed : Bool) : Prop :=
  ∃ s, (reactors 0 .workerPool).Passes (fun u v => u.WakesLate v → late) seen s ∧
    s.Flooded loop queued armed

variable {late : Prop} {seen : System → Prop} {loop : Loop} {queued processed : ℕ} {which : Drain}
  {armed : Bool}

theorem floods_start : Floods late (Flooded .top 0 false) .top 0 false := by
  have hleads : (reactors 0 .workerPool).Leads (fun u v => u.WakesLate v → late) _ :=
    .start ⟨60, rfl⟩
  exact ⟨_, hleads.passes ⟨rfl, rfl, rfl, rfl, rfl⟩, rfl, rfl, rfl, rfl, rfl⟩

theorem not_late_of_waiting {s t : System} (h : t.loop = s.loop) (hlate : s.WakesLate t) :
    late := by
  obtain ⟨hwaiting, ⟨events, hevents, -⟩, -⟩ := hlate
  rw [h, hwaiting] at hevents
  cases hevents

theorem Floods.request (h : Floods late seen loop queued armed) :
    Floods late seen loop (queued + 1) true := by
  obtain ⟨s, hpasses, hflooded⟩ := h
  obtain ⟨past, hrun, -⟩ := id hpasses
  obtain ⟨hrest, hphase⟩ := reactors_phase hrun s List.mem_cons_self
  have hrunning := hphase.running.mpr hflooded.stopping
  have hopen : s.reactor.kernel.kqueueOpen = true :=
    hphase.kqueueOpen (by simp [hflooded.stopping])
  have hqueue : ¬s.reactor.queueStopped = true := by simp [hphase.stopped, hflooded.stopping]
  have hrequest := hpasses.next (System.Step.request (.removeConnection 0) trivial
    (if_neg (not_not.mpr hrunning))) (not_late_of_waiting rfl)
  have henqueue := hrequest.next (System.Step.enqueue (List.nil_append _).symm hqueue)
    (not_late_of_waiting rfl)
  have hwake := henqueue.next (System.Step.wake (List.nil_append _).symm) (not_late_of_waiting rfl)
  refine ⟨_, hwake, hflooded.loop, ?_, hopen, hflooded.callers, hflooded.stopping⟩
  rw [List.replicate_succ', ← hflooded.queue]
  rfl

theorem Floods.requests (h : Floods late seen loop 0 armed) :
    ∀ queued, Floods late seen loop (queued + 1) true
  | 0 => h.request
  | queued + 1 => (h.requests queued).request

theorem Floods.look (h : Floods late seen loop queued armed) :
    Floods late (Flooded loop queued armed) loop queued armed := by
  obtain ⟨s, ⟨past, hrun, hall, -⟩, hflooded⟩ := h
  exact ⟨s, ⟨past, hrun, hall, s, List.mem_cons_self, hflooded⟩, hflooded⟩

theorem Floods.steps {loop' : Loop} {queued' : ℕ} {armed' : Bool}
    (h : Floods late seen loop queued armed) (hlate : loop ≠ .waiting ∨
      (∀ events, loop' ≠ .handling events) ∨ queued ≤ 2 * maxBatchSize ∨ late)
    (hstep : ∀ s : System, s.AtRest → s.reactor.isRunning = true → s.Flooded loop queued armed →
      ∃ r, Loop.Step (s.reactor, loop) (r, loop') ∧
        r.pendingOperations = List.replicate queued' (.remove 0) ∧ r.kernel.wakeup = armed') :
    Floods late seen loop' queued' armed' := by
  obtain ⟨s, hpasses, hflooded⟩ := h
  obtain ⟨past, hrun, -⟩ := id hpasses
  obtain ⟨hrest, hphase⟩ := reactors_phase hrun s List.mem_cons_self
  have hrunning := hphase.running.mpr hflooded.stopping
  obtain ⟨r, hloop, hqueue, hbit⟩ := hstep s hrest hrunning hflooded
  rw [← hflooded.loop] at hloop
  refine ⟨_, hpasses.next (System.Step.loop hloop) ?_, rfl, hqueue, hbit, hflooded.callers,
    hflooded.stopping⟩
  rintro ⟨hwaiting, ⟨events, hevents, -⟩, -, hmany⟩
  rcases hlate with hloop | hloop' | hfew | hlate
  · exact absurd (hflooded.loop ▸ hwaiting) hloop
  · exact absurd hevents (hloop' events)
  · rw [hflooded.queue, List.length_replicate] at hmany
    exact absurd hfew hmany.not_ge
  · exact hlate

theorem Floods.enter (h : Floods late seen .top queued armed) :
    Floods late seen (.draining .beforeEvents 0) queued armed :=
  h.steps (.inl nofun) fun s _ hrunning hflooded =>
    ⟨s.reactor, .enter hrunning, hflooded.queue, hflooded.armed⟩

theorem Floods.process (h : Floods late seen (.draining which processed) (queued + 1) armed)
    (hbatch : processed < maxBatchSize) :
    Floods late seen (.draining which (processed + 1)) queued armed := by
  refine h.steps (.inl nofun) fun s hrest _ hflooded => ?_
  have hqueue : s.reactor.pendingOperations = .remove 0 :: List.replicate queued (.remove 0) :=
    hflooded.queue
  obtain ⟨r, hprocess, -⟩ := hrest.processOperation sampleEnvironment hqueue
  have hsame := hrest.processOperation_sameControl sampleEnvironment hqueue hprocess
  exact ⟨r, .process sampleEnvironment hbatch hqueue hprocess, hsame.queue,
    hsame.wakeup.trans hflooded.armed⟩

theorem Floods.batch (h : Floods late seen (.draining which 0) (queued + processed) armed)
    (hbatch : processed ≤ maxBatchSize) :
    Floods late seen (.draining which processed) queued armed := by
  induction processed generalizing queued with
  | zero => exact h
  | succ processed ih =>
    have hbefore : Floods late seen (.draining which processed) (queued + 1) armed :=
      ih (by rwa [Nat.add_right_comm]) (Nat.le_of_succ_le hbatch)
    exact hbefore.process hbatch

theorem Floods.drained (h : Floods late seen (.draining which processed) queued armed)
    (hdone : processed = maxBatchSize ∨ queued = 0) :
    Floods late seen which.next queued armed := by
  refine h.steps (.inl nofun) fun s _ _ hflooded => ?_
  refine ⟨_, .drained (hdone.imp_right ?_), hflooded.queue, hflooded.armed⟩
  rintro rfl
  exact hflooded.queue

theorem Floods.notDue (h : Floods late seen .checkingTimeouts queued armed) :
    Floods late seen .waiting queued armed :=
  h.steps (.inl nofun) fun s _ _ hflooded =>
    ⟨s.reactor, .notDue, hflooded.queue, hflooded.armed⟩

theorem Floods.woken (h : Floods late seen .waiting queued armed)
    (hlate : queued ≤ 2 * maxBatchSize ∨ late) :
    Floods late seen (.draining .afterEvents 0) queued false := by
  have hwoken : Floods late seen (.handling [{ ident := wakeupIdent, filter := .user }]) queued
      false :=
    h.steps (.inr (.inr hlate)) fun s _ _ hflooded => ⟨_, .woken _ (by decide), hflooded.queue, rfl⟩
  have hhandled : Floods late seen (.handling []) queued false :=
    hwoken.steps (.inl nofun) fun s _ _ hflooded =>
      ⟨_, .handle sampleEnvironment, hflooded.queue, hflooded.armed⟩
  exact hhandled.steps (.inl nofun) fun s _ _ hflooded =>
    ⟨_, .handled, hflooded.queue, hflooded.armed⟩

/-- Whatever is queued beyond two batches when the loop is woken is left. -/
theorem floods_waiting (left : ℕ) (hlate : left = 0 ∨ late) :
    Floods late (Flooded .waiting
      (left + maxBatchSize + maxBatchSize) true) .waiting left false := by
  have hempty : Floods late _ .waiting 0 false := (floods_start.enter.drained (.inr rfl)).notDue
  have hqueued : Floods late _ .waiting (left + maxBatchSize + maxBatchSize) true :=
    (hempty.requests (left + maxBatchSize + 99)).look
  have hwoken := hqueued.woken (hlate.imp_left fun hzero => by rw [hzero]; decide)
  have hfirst := (hwoken.batch le_rfl).drained (.inl rfl)
  exact ((hfirst.enter.batch le_rfl).drained (.inl rfl)).notDue

end System

namespace ClientSystem

/-- `queued` sends are queued, there is no connection to send on, and no thread is inside a
function that sends. -/
structure Flooded (loop : ClientLoop) (queued : ℕ) (armed : Bool) (s : ClientSystem) : Prop where
  loop : s.loop = loop
  queue : s.reactor.sendOperations = List.replicate queued { data := [0] }
  armed : s.reactor.kernel.wakeup = armed
  callers : s.callers = []
  stopping : s.stopping = .notCalled
  connection : s.reactor.hasConnection = false

/-- A run that comes past what is to be `seen` leads there; if the loop is ever woken late, then
`late`. -/
def Floods (late : Prop) (seen : ClientSystem → Prop) (loop : ClientLoop) (queued : ℕ)
    (armed : Bool) : Prop :=
  ∃ s, (clientReactors .workerPool).Passes (fun u v => u.WakesLate v → late) seen s ∧
    s.Flooded loop queued armed

variable {late : Prop} {seen : ClientSystem → Prop} {loop : ClientLoop} {queued processed : ℕ}
  {armed : Bool}

theorem floods_start : Floods late (Flooded .top 0 false) .top 0 false := by
  have hleads : (clientReactors .workerPool).Leads (fun u v => u.WakesLate v → late) _ :=
    .start ⟨∅, rfl⟩
  exact ⟨_, hleads.passes ⟨rfl, rfl, rfl, rfl, rfl, rfl⟩, rfl, rfl, rfl, rfl, rfl, rfl⟩

theorem not_late_of_waiting {s t : ClientSystem} (h : t.loop = s.loop) (hlate : s.WakesLate t) :
    late := by
  obtain ⟨hwaiting, ⟨events, hevents, -⟩, -⟩ := hlate
  rw [h, hwaiting] at hevents
  cases hevents

theorem Floods.request (h : Floods late seen loop queued armed) :
    Floods late seen loop (queued + 1) true := by
  obtain ⟨s, hpasses, hflooded⟩ := h
  obtain ⟨past, hrun, -⟩ := id hpasses
  have hphase := clientReactors_phase hrun s List.mem_cons_self
  have hrunning := hphase.running.mpr hflooded.stopping
  have hopen : s.reactor.kernel.kqueueOpen = true := by
    apply hphase.kqueueOpen
    rw [hflooded.stopping]
    exact id
  have hqueue : ¬s.reactor.queueStopped = true := by simp [hphase.stopped, hflooded.stopping]
  have hrequest := hpasses.next (ClientSystem.Step.request (.async [0]) (by decide)
    (if_neg (not_or.mpr ⟨List.cons_ne_nil 0 [], not_not.mpr hrunning⟩))) (not_late_of_waiting rfl)
  have henqueue := hrequest.next (ClientSystem.Step.enqueue (List.nil_append _).symm hqueue)
    (not_late_of_waiting rfl)
  have hwake := henqueue.next (ClientSystem.Step.wake (List.nil_append _).symm)
    (not_late_of_waiting rfl)
  refine ⟨_, hwake, hflooded.loop, ?_, hopen, hflooded.callers, hflooded.stopping,
    hflooded.connection⟩
  rw [List.replicate_succ', ← hflooded.queue]
  rfl

theorem Floods.requests (h : Floods late seen loop 0 armed) :
    ∀ queued, Floods late seen loop (queued + 1) true
  | 0 => h.request
  | queued + 1 => (h.requests queued).request

theorem Floods.look (h : Floods late seen loop queued armed) :
    Floods late (Flooded loop queued armed) loop queued armed := by
  obtain ⟨s, ⟨past, hrun, hall, -⟩, hflooded⟩ := h
  exact ⟨s, ⟨past, hrun, hall, s, List.mem_cons_self, hflooded⟩, hflooded⟩

theorem Floods.steps {loop' : ClientLoop} {queued' : ℕ} {armed' : Bool}
    (h : Floods late seen loop queued armed) (hlate : loop ≠ .waiting ∨
      queued ≤ maxBatchSize ∨ late)
    (hstep : ∀ s : ClientSystem, s.reactor.isRunning = true → s.Flooded loop queued armed →
      ∃ r, ClientLoop.Step (s.reactor, loop) (r, loop') ∧
        r.sendOperations = List.replicate queued' { data := [0] } ∧ r.kernel.wakeup = armed' ∧
        r.hasConnection = false) :
    Floods late seen loop' queued' armed' := by
  obtain ⟨s, hpasses, hflooded⟩ := h
  obtain ⟨past, hrun, -⟩ := id hpasses
  have hphase := clientReactors_phase hrun s List.mem_cons_self
  have hrunning := hphase.running.mpr hflooded.stopping
  obtain ⟨r, hloop, hqueue, hbit, hconnection⟩ := hstep s hrunning hflooded
  rw [← hflooded.loop] at hloop
  refine ⟨_, hpasses.next (ClientSystem.Step.loop hloop) ?_, rfl, hqueue, hbit, hflooded.callers,
    hflooded.stopping, hconnection⟩
  rintro ⟨hwaiting, -, -, hmany⟩
  rcases hlate with hloop | hfew | hlate
  · exact absurd (hflooded.loop ▸ hwaiting) hloop
  · rw [hflooded.queue, List.length_replicate] at hmany
    exact absurd hfew hmany.not_ge
  · exact hlate

theorem Floods.enter (h : Floods late seen .top queued armed) :
    Floods late seen (.draining 0) queued armed :=
  h.steps (.inl nofun) fun s hrunning hflooded =>
    ⟨s.reactor, .enter hrunning, hflooded.queue, hflooded.armed, hflooded.connection⟩

theorem Floods.process (h : Floods late seen (.draining processed) (queued + 1) armed)
    (hbatch : processed < maxBatchSize) :
    Floods late seen (.draining (processed + 1)) queued armed := by
  have hprocessed : Floods late seen (.completing (processed + 1) { data := [0] } false) queued
      armed := by
    refine h.steps (.inl nofun) fun s _ hflooded => ?_
    have hsend (r : ClientReactor) (hnone : r.hasConnection = false) :
        r.doSend sampleEnvironment [0] = some (false, false, r) :=
      if_pos (by simp [hnone])
    exact ⟨_, .process sampleEnvironment hbatch hflooded.queue (hsend _ hflooded.connection), rfl,
      hflooded.armed, hflooded.connection⟩
  exact hprocessed.steps (.inl nofun) fun s _ hflooded =>
    ⟨_, .complete, hflooded.queue, hflooded.armed, hflooded.connection⟩

theorem Floods.batch (h : Floods late seen (.draining 0) (queued + processed) armed)
    (hbatch : processed ≤ maxBatchSize) : Floods late seen (.draining processed) queued armed := by
  induction processed generalizing queued with
  | zero => exact h
  | succ processed ih =>
    have hbefore : Floods late seen (.draining processed) (queued + 1) armed :=
      ih (by rwa [Nat.add_right_comm]) (Nat.le_of_succ_le hbatch)
    exact hbefore.process hbatch

theorem Floods.drained (h : Floods late seen (.draining maxBatchSize) queued armed) :
    Floods late seen .waiting queued armed := by
  have hflushing : Floods late seen .flushing queued armed :=
    h.steps (.inl nofun) fun s _ hflooded =>
      ⟨s.reactor, .drained (.inl rfl), hflooded.queue, hflooded.armed, hflooded.connection⟩
  refine hflushing.steps (.inl nofun) fun s _ hflooded => ?_
  have hnothing : s.reactor.trySendDirect sampleEnvironment = (false, s.reactor) :=
    if_pos (.inl (by simp [hflooded.connection]))
  have hflush : ClientLoop.Step (s.reactor, .flushing) _ := .flush sampleEnvironment
  rw [hnothing] at hflush
  exact ⟨s.reactor, hflush, hflooded.queue, hflooded.armed, hflooded.connection⟩

theorem Floods.empty (h : Floods late seen (.draining 0) 0 armed) :
    Floods late seen .waiting 0 armed :=
  h.steps (.inl nofun) fun s _ hflooded =>
    ⟨s.reactor, .drained (.inr hflooded.queue), hflooded.queue, hflooded.armed,
      hflooded.connection⟩

theorem Floods.woken (h : Floods late seen .waiting queued armed)
    (hlate : queued ≤ maxBatchSize ∨ late) : Floods late seen .top queued false := by
  have hwoken : Floods late seen (.handling [{ ident := clientWakeupIdent, filter := .user }])
      queued false :=
    h.steps (.inr hlate) fun s _ hflooded =>
      ⟨_, .woken _ (by decide), hflooded.queue, rfl, hflooded.connection⟩
  have hskipped : Floods late seen (.handling []) queued false :=
    hwoken.steps (.inl nofun) fun s _ hflooded =>
      ⟨_, .skip (by decide), hflooded.queue, hflooded.armed, hflooded.connection⟩
  exact hskipped.steps (.inl nofun) fun s _ hflooded =>
    ⟨_, .handled, hflooded.queue, hflooded.armed, hflooded.connection⟩

/-- Whatever is queued beyond one batch when the loop is woken is left. -/
theorem floods_waiting (left : ℕ) (hlate : left = 0 ∨ late) :
    Floods late (Flooded .waiting (left + maxBatchSize) true) .waiting left false := by
  have hempty : Floods late _ .waiting 0 false := floods_start.enter.empty
  have hqueued : Floods late _ .waiting (left + maxBatchSize) true :=
    (hempty.requests (left + 99)).look
  have hwoken := hqueued.woken (hlate.imp_left fun hzero => by rw [hzero]; decide)
  exact (hwoken.enter.batch le_rfl).drained

end ClientSystem

/-- With one operation more than the batches hold queued when the loop is woken, one is left in
the queue while the loop waits: the last of two hundred and one requests to a reactor, and of
one hundred and one sends of a client. -/
theorem lost_wakeup :
    (∃ s past, (reactors 0 .workerPool).Run (s :: past) ∧ ¬s.NoLostWakeup) ∧
      ∃ s past, (clientReactors .workerPool).Run (s :: past) ∧ ¬s.NoLostWakeup := by
  constructor
  · obtain ⟨s, ⟨past, hrun, -⟩, hflooded⟩ := System.floods_waiting 1 (.inr trivial)
    have hrunning := (reactors_phase hrun s List.mem_cons_self).2.running.mpr hflooded.stopping
    refine ⟨s, past, hrun, fun hsafe => ?_⟩
    rcases hsafe hflooded.loop hrunning (by simp [hflooded.callers]) with hempty | harmed
    · rw [hflooded.queue] at hempty
      cases hempty
    · rw [hflooded.armed] at harmed
      cases harmed
  · obtain ⟨s, ⟨past, hrun, -⟩, hflooded⟩ := ClientSystem.floods_waiting 1 (.inr trivial)
    have hrunning := (clientReactors_phase hrun s List.mem_cons_self).running.mpr hflooded.stopping
    refine ⟨s, past, hrun, fun hsafe => ?_⟩
    rcases hsafe hflooded.loop hrunning (by simp [hflooded.callers]) with hempty | harmed
    · rw [hflooded.queue] at hempty
      cases hempty
    · rw [hflooded.armed] at harmed
      cases harmed

/-- In every run in which the loop is never woken late, no wakeup is lost. -/
theorem no_lost_wakeup (receiver : Receiver) :
    (∀ reactorId states, (reactors reactorId receiver).Run states →
      (∀ s t, [t, s] <:+: states → ¬s.WakesLate t) → ∀ s ∈ states, s.NoLostWakeup) ∧
    ∀ states, (clientReactors receiver).Run states →
      (∀ s t, [t, s] <:+: states → ¬s.WakesLate t) → ∀ s ∈ states, s.NoLostWakeup :=
  ⟨fun _ _ hrun hgood => reactors_noLostWakeup hrun hgood,
    fun _ hrun hgood => clientReactors_noLostWakeup hrun hgood⟩

/-- While the loops wait, two hundred requests are made to a reactor and one hundred sends of a
client, and the loops are woken, do them all and wait again. -/
theorem no_lost_wakeup_burst :
    (∃ s past, (reactors 0 .workerPool).Run (s :: past) ∧ s.Flooded .waiting 0 false ∧
      (∃ u ∈ s :: past, u.Flooded .waiting 200 true) ∧ ∀ u ∈ s :: past, u.NoLostWakeup) ∧
    ∃ s past, (clientReactors .workerPool).Run (s :: past) ∧ s.Flooded .waiting 0 false ∧
      (∃ u ∈ s :: past, u.Flooded .waiting 100 true) ∧ ∀ u ∈ s :: past, u.NoLostWakeup := by
  constructor
  · obtain ⟨s, ⟨past, hrun, hgood, hseen⟩, hflooded⟩ := System.floods_waiting 0 (.inl rfl)
    exact ⟨s, past, hrun, hflooded, hseen, (no_lost_wakeup .workerPool).1 0 _ hrun hgood⟩
  · obtain ⟨s, ⟨past, hrun, hgood, hseen⟩, hflooded⟩ := ClientSystem.floods_waiting 0 (.inl rfl)
    exact ⟨s, past, hrun, hflooded, hseen, (no_lost_wakeup .workerPool).2 _ hrun hgood⟩

end DarwinCore.Network
