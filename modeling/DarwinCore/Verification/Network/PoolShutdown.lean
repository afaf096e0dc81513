import DarwinCore.Verification.Network.WorkerPool

/-! # What `Stop` leaves behind

`SubmitEvent` tests `is_running_` and then enqueues; the workers drain their queues once
`is_running_` is cleared, and the queues are stopped only after that. An event can be accepted in
between, when its worker has left. The queues stay stopped when the pool is started again. -/

namespace DarwinCore.Network

namespace WorkerPool

/-- `SubmitEvent` enqueues an event for a worker that has left its loops. -/
def Strands (p p' : WorkerPool) : Prop :=
  ∃ submission ∈ p'.accepted, submission ∉ p.accepted ∧ submission.tried = false ∧
    p.workers (submission.worker p.workerCount) = .exited

/-- Nothing from `SubmitEvent` is left in the queue of worker `i`. -/
def Cleared (p : WorkerPool) (i : ℕ) : Prop :=
  ∀ submission ∈ (p.eventQueues i).queue, submission.tried = true

/-- How far `Stop` has come. -/
def Stopping (p : WorkerPool) : Prop :=
  match p.control with
  | .notifying notified => ∀ i < notified, (p.eventQueues i).isStopped = true
  | .joining joined =>
      (∀ i < p.workerCount, (p.eventQueues i).isStopped = true) ∧ ∀ i < joined, p.Cleared i
  | .stopped => ∀ i < p.workerCount, (p.eventQueues i).isStopped = true ∧ p.Cleared i
  | _ => True

/-- Workers that have left and queues that are stopped hold nothing more. -/
structure Drained (p : WorkerPool) : Prop where
  positive : 0 < p.workerCount
  returning : ∀ submission, .returning submission true ∈ p.submitters → submission ∈ p.accepted
  submitted : ∀ submission ∈ p.submitted, submission ∈ p.accepted
  exited : ∀ i, p.workers i = .exited → p.Cleared i
  stopping : p.Stopping

variable {p p' : WorkerPool} {i : ℕ}

/-- A worker leaves when its queue is empty. -/
theorem WorkerStep.exits (hstep : WorkerStep i p p') (h : p'.workers i = .exited) :
    (p'.eventQueues i).queue = [] := by
  cases hstep with
  | test h' =>
    rw [setWorker_self] at h
    split at h <;> cases h
  | @waitDequeue timedOut result q h' hqueue =>
    rw [setWorker_self] at h
    cases result <;> cases h
  | @call submission h' =>
    rw [setWorker_self] at h
    cases h
  | @tryDequeue result q h' hqueue =>
    rw [setWorker_self] at h
    obtain ⟨htaken, -, hempty⟩ := ConcurrentQueue.tryDequeue_queue hqueue
    cases result with
    | none =>
      rw [hempty rfl] at htaken
      refine (congrArg ConcurrentQueue.queue setQueue_self).trans ?_
      exact (List.append_eq_nil_iff.mp htaken.symm).2
    | some submission => cases h
  | @callRemaining submission h' =>
    rw [setWorker_self] at h
    cases h

/-- `Stop` goes on as before when the stopped queues stay stopped and get nothing new. -/
theorem Stopping.of_same (h : p.Stopping) (hcount : p'.workerCount = p.workerCount)
    (hcontrol : p'.control = p.control)
    (hstopped : ∀ i, (p'.eventQueues i).isStopped = (p.eventQueues i).isStopped)
    (hcleared : ∀ i, (p.eventQueues i).isStopped = true → p.Cleared i → p'.Cleared i)
    (hbound : ∀ joined, p.control = .joining joined → joined ≤ p.workerCount) :
    p'.Stopping := by
  unfold Stopping at h ⊢
  rw [hcontrol]
  cases hc : p.control with
  | notifying notified =>
    rw [hc] at h
    exact fun i hi => (hstopped i).trans (h i hi)
  | joining joined =>
    rw [hc] at h
    refine ⟨fun i hi => (hstopped i).trans (h.1 i (hcount ▸ hi)), fun i hi => ?_⟩
    exact hcleared i (h.1 i (Nat.lt_of_lt_of_le hi (hbound joined hc))) (h.2 i hi)
  | stopped =>
    rw [hc] at h
    intro i hi
    obtain ⟨hstop, hclear⟩ := h i (hcount ▸ hi)
    exact ⟨(hstopped i).trans hstop, hcleared i hstop hclear⟩
  | _ => trivial

theorem WorkerStep.drained (hstep : WorkerStep i p p') (h : p.Drained) (hstaffed : p.Staffed) :
    p'.Drained := by
  obtain ⟨hcount, -, -, hcontrol, haccepted, hsubmitted, hsubmitters, -⟩ := hstep.frame
  obtain ⟨taken, passed, htaken, -, -, hstopped, hqueues⟩ := hstep.move
  obtain ⟨-, -, hworkers⟩ := hstep.present
  have hcleared (j : ℕ) (hclear : p.Cleared j) : p'.Cleared j := by
    by_cases hj : j = i
    · subst hj
      exact fun submission hmem =>
        hclear submission (htaken ▸ List.mem_append_right taken hmem)
    · unfold Cleared
      rw [hqueues j hj]
      exact hclear
  refine ⟨hcount ▸ h.positive, ?_, ?_, fun j hj => ?_, ?_⟩
  · rw [hsubmitters, haccepted]
    exact h.returning
  · rw [hsubmitted, haccepted]
    exact h.submitted
  · by_cases hji : j = i
    · subst hji
      intro submission hmem
      rw [hstep.exits hj] at hmem
      cases hmem
    · exact hcleared j (h.exited j (hworkers j hji ▸ hj))
  · exact h.stopping.of_same hcount hcontrol hstopped (fun j _ => hcleared j)
      fun joined => hstaffed.joined_le

/-- What returns true has been accepted. -/
theorem SubmitStep.returns (hstep : SubmitStep p p') (h : p.Drained) :
    (∀ submission, .returning submission true ∈ p'.submitters → submission ∈ p'.accepted) ∧
      ∀ submission ∈ p'.submitted, submission ∈ p'.accepted := by
  have hreturning := h.returning
  cases hstep with
  | submit event => exact ⟨fun submission hmem => hreturning submission (by simpa using hmem),
      h.submitted⟩
  | trySubmit event => exact ⟨fun submission hmem => hreturning submission (by simpa using hmem),
      h.submitted⟩
  | @test tested before after hsubmitters =>
    rw [hsubmitters] at hreturning
    refine ⟨fun submission hmem => hreturning submission ?_, h.submitted⟩
    simp only [List.mem_append, List.mem_cons] at hmem ⊢
    refine hmem.imp_right (Or.imp_left fun heq => ?_)
    split at heq <;> cases heq
  | @enqueue enqueued before after success q hsubmitters hqueue =>
    rw [hsubmitters] at hreturning
    have hkeep {submission : Submission} (hmem : submission ∈ p.accepted) :
        submission ∈ if success then p.accepted ++ [enqueued] else p.accepted := by
      split
      · exact List.mem_append_left _ hmem
      · exact hmem
    refine ⟨fun submission hmem => ?_, fun submission hmem => hkeep (h.submitted _ hmem)⟩
    rcases List.mem_append.mp hmem with hbefore | hmem
    · exact hkeep (hreturning submission (List.mem_append_left _ hbefore))
    · rcases List.mem_cons.mp hmem with heq | hafter
      · cases heq
        simp
      · exact hkeep (hreturning submission (by simp [hafter]))
  | @ret returned before after success hsubmitters =>
    obtain ⟨failures, heq⟩ := countFailure_eq success p
    rw [hsubmitters] at hreturning
    rw [heq]
    refine ⟨fun submission hmem => hreturning submission ?_, fun submission hmem => ?_⟩
    · simp only [List.mem_append, List.mem_cons] at hmem ⊢
      tauto
    · dsimp only at hmem
      split at hmem
      · rename_i hsuccess
        rcases List.mem_append.mp hmem with hold | hnew
        · exact h.submitted submission hold
        · rw [List.mem_singleton.mp hnew]
          exact hreturning returned (by simp [hsuccess])
      · exact h.submitted submission hmem

theorem SubmitStep.drained (hstep : SubmitStep p p') (h : p.Drained) (hconserved : p.Conserved)
    (hgood : ¬Strands p p') : p'.Drained := by
  obtain ⟨hcount, -, -, hcontrol, hworkers, -⟩ := hstep.frame
  obtain ⟨added, haccepted, hqueues, hstopped, hopen⟩ := hstep.move
  obtain ⟨hreturning, hsubmitted⟩ := hstep.returns h
  have hnew {submission : Submission} (hmem : submission ∈ added) : submission ∉ p.accepted := by
    have hnodup := (hstep.conserved hconserved).accepted_nodup.of_map
    rw [haccepted] at hnodup
    exact fun hold => List.disjoint_of_nodup_append hnodup hold hmem
  refine ⟨hcount ▸ h.positive, hreturning, hsubmitted, fun i hi submission hmem => ?_, ?_⟩
  · rw [hworkers] at hi
    rw [hqueues] at hmem
    rcases List.mem_append.mp hmem with hold | hadded
    · exact h.exited i hi submission hold
    · obtain ⟨hadded, hfor⟩ := List.mem_filter.mp hadded
      by_contra htried
      refine hgood ⟨submission, ?_, hnew hadded, by simpa using htried, ?_⟩
      · rw [haccepted]
        exact List.mem_append_right _ hadded
      · rw [of_decide_eq_true hfor, hi]
  · refine h.stopping.of_same hcount hcontrol hstopped (fun i hstop hclear => ?_)
      fun joined => hconserved.staffed.joined_le
    intro submission hmem
    rw [hqueues] at hmem
    rcases List.mem_append.mp hmem with hold | hadded
    · exact hclear submission hold
    · obtain ⟨hadded, hfor⟩ := List.mem_filter.mp hadded
      have hrefused := hopen submission hadded
      rw [of_decide_eq_true hfor, hstop] at hrefused
      cases hrefused

theorem ControlStep.drained (hstep : ControlStep p p') (h : p.Drained) (hstaffed : p.Staffed) :
    p'.Drained := by
  obtain ⟨hcount, -, haccepted, -, hsubmitted, hsubmitters, -⟩ := hstep.frame
  obtain ⟨hqueues, -, hstopped⟩ := hstep.move hstaffed
  have hcleared (i : ℕ) (hclear : p.Cleared i) : p'.Cleared i := by
    unfold Cleared
    rw [hqueues i]
    exact hclear
  have hexited (i : ℕ) (hi : p'.workers i = .exited) : p.workers i = .exited := by
    have hset (j : ℕ) (phase : WorkerPhase) (hphase : phase ≠ .exited)
        (h' : (p.setWorker j phase).workers i = .exited) : p.workers i = .exited := by
      by_cases hij : i = j
      · rw [hij, setWorker_self] at h'
        exact absurd h' hphase
      · rw [setWorker_ne hij] at h'
        exact h'
    cases hstep with
    | create hcontrol hcreated => exact hset _ .testing nofun hi
    | joinFailed hcontrol hworker => exact hset _ .absent nofun hi
    | join hcontrol hjoined hworker => exact hset _ .absent nofun hi
    | _ => exact hi
  refine ⟨hcount ▸ h.positive, ?_, ?_, fun i hi => hcleared i (h.exited i (hexited i hi)), ?_⟩
  · rw [hsubmitters, haccepted]
    exact h.returning
  · rw [hsubmitted, haccepted]
    exact h.submitted
  · have hstopping := h.stopping
    unfold Stopping at hstopping
    cases hstep with
    | stop hcontrol hrunning => exact fun i hi => absurd hi (Nat.not_lt_zero i)
    | @notifyStop notified hcontrol hnotified =>
      rw [hcontrol] at hstopping
      intro i hi
      by_cases hnow : i = notified
      · rw [hnow]
        exact congrArg ConcurrentQueue.isStopped setQueue_self
      · exact hstopped i (hstopping i (by omega))
    | notified hcontrol =>
      rw [hcontrol] at hstopping
      exact ⟨hstopping, fun i hi => absurd hi (Nat.not_lt_zero i)⟩
    | @join joined hcontrol hjoined hworker =>
      rw [hcontrol] at hstopping
      refine ⟨hstopping.1, fun i hi => hcleared i ?_⟩
      by_cases hnow : i = joined
      · exact h.exited i (hnow ▸ hworker)
      · exact hstopping.2 i (by omega)
    | stopped hcontrol =>
      rw [hcontrol] at hstopping
      exact fun i hi => ⟨hstopping.1 i hi, hstopping.2 i hi⟩
    | _ => trivial

theorem Step.drained (hstep : Step p p') (h : p.Drained) (hconserved : p.Conserved)
    (hgood : ¬Strands p p') : p'.Drained := by
  cases hstep with
  | worker i hstep => exact hstep.drained h hconserved.staffed
  | submitter hstep => exact hstep.drained h hconserved hgood
  | control hstep => exact hstep.drained h hconserved.staffed

theorem construct_drained (workerCount maxQueueSize : ℕ) (hasCallback : Bool) :
    (construct workerCount maxQueueSize hasCallback).Drained where
  positive := by
    dsimp only [construct]
    split
    · decide
    · omega
  returning := nofun
  submitted := nofun
  exited := nofun
  stopping := trivial

end WorkerPool

/-- In a run in which `SubmitEvent` never enqueues an event for a worker that has left, every
event for which it has returned true has been passed to the callback exactly once whenever
`Stop` has returned. -/
theorem submitted_events_handled {workerCount maxQueueSize : ℕ} {states : List WorkerPool}
    (hrun : (workerPools workerCount maxQueueSize true).Run states)
    (hgood : ∀ p p', [p', p] <:+: states → ¬WorkerPool.Strands p p') :
    ∀ p ∈ states, p.control = .stopped → ∀ submission ∈ p.submitted, submission.tried = false →
      (p.delivered.map Prod.snd).count submission = 1 := by
  have hconserved := WorkerPool.workerPools_conserved hrun
  have hcallback : ∀ p ∈ states, p.hasCallback = true :=
    hrun.invariant (fun p hp => hp ▸ rfl) fun p p' h (hstep : WorkerPool.Step p p') =>
      hstep.hasCallback.trans h
  have hdrained : ∀ p ∈ states, p.Conserved ∧ p.Drained := by
    refine hrun.invariant_along ?_ (fun p p' h (hstep : WorkerPool.Step p p') hst => ?_) hgood
    · rintro p rfl
      exact ⟨WorkerPool.construct_conserved _ _ _, WorkerPool.construct_drained _ _ _⟩
    · exact ⟨hstep.conserved h.1, hstep.drained h.2 h.1 hst⟩
  intro p hp hstopped submission hsubmission htried
  obtain ⟨hconserved, hdrained⟩ := hdrained p hp
  have hworker : submission.worker p.workerCount < p.workerCount :=
    Nat.mod_lt _ hdrained.positive
  have hstopping := hdrained.stopping
  unfold WorkerPool.Stopping at hstopping
  rw [hstopped] at hstopping
  have hline : submission ∈ p.line (submission.worker p.workerCount) := by
    rw [hconserved.lines (hcallback p hp)]
    exact List.mem_filter.mpr ⟨hdrained.submitted submission hsubmission, decide_eq_true rfl⟩
  have hmem : submission ∈ p.delivered.map Prod.snd := by
    rw [WorkerPool.line, hconserved.staffed.absent hstopped, List.append_assoc] at hline
    rcases List.mem_append.mp hline with hdelivered | hleft
    · exact (List.mem_filter.mp hdelivered).1
    · have hclear := (hstopping _ hworker).2 submission hleft
      rw [htried] at hclear
      cases hclear
  exact List.count_eq_one_of_mem hconserved.delivered_nodup hmem

/-! ## Two runs of one worker -/

def samplePool : WorkerPool :=
  { WorkerPool.construct 1 0 true with
    isRunning := true
    workers := Function.update (fun _ => .absent) 0 .testing
    submitters := [.enqueueing sampleSubmission]
    control := .started
    nextSubmission := 1 }

namespace WorkerPool

/-- A run to `p` in which no event is stranded. -/
def Spared (p : WorkerPool) : Prop :=
  ∃ past, (workerPools 1 0 true).Run (p :: past) ∧
    ∀ q q', [q', q] <:+: p :: past → ¬Strands q q'

variable {p p' : WorkerPool}

theorem Spared.next (h : p.Spared) (hstep : Step p p') (hspared : ¬Strands p p') : p'.Spared :=
  TransitionSystem.Leads.next h hstep hspared

theorem not_strands (h : p'.accepted = p.accepted) : ¬Strands p p' := by
  rintro ⟨submission, hmem, hnot, -⟩
  exact hnot (h ▸ hmem)

theorem samplePool_spared : samplePool.Spared := by
  have hstart : (construct 1 0 true).Spared := TransitionSystem.Leads.start rfl
  have hstarted := hstart.next (.control (.start rfl rfl)) (not_strands rfl)
  have hcreated := hstarted.next (.control (.create rfl Nat.one_pos)) (not_strands rfl)
  have hready := hcreated.next (.control (.started rfl)) (not_strands rfl)
  have hsubmit := hready.next (.submitter (.submit (.data 7 [1]))) (not_strands rfl)
  have htested := hsubmit.next (.submitter (.test (List.nil_append _).symm)) (not_strands rfl)
  exact htested

theorem handled_run : ∃ p : WorkerPool, p.Spared ∧ p.control = .stopped ∧
    p.submitted = [sampleSubmission] ∧ p.delivered = [(0, sampleSubmission)] := by
  have haccept := samplePool_spared.next
    (.submitter (.enqueue (List.nil_append _).symm rfl))
    (fun ⟨submission, hmem, _, _, hexited⟩ => by
      rw [List.mem_singleton.mp hmem] at hexited
      cases hexited)
  have hret := haccept.next (.submitter (.ret (List.nil_append _).symm)) (not_strands rfl)
  have hstop := hret.next (.control (.stop rfl rfl)) (not_strands rfl)
  have hnotify := hstop.next (.control (.notifyStop rfl Nat.one_pos)) (not_strands rfl)
  have hnotified := hnotify.next (.control (.notified rfl)) (not_strands rfl)
  have hdrain := hnotified.next (.worker 0 (.test rfl)) (not_strands rfl)
  have htake := hdrain.next (.worker 0 (.tryDequeue rfl rfl)) (not_strands rfl)
  have hcall := htake.next (.worker 0 (.callRemaining rfl)) (not_strands rfl)
  have hempty := hcall.next (.worker 0 (.tryDequeue rfl rfl)) (not_strands rfl)
  have hjoin := hempty.next (.control (.join rfl Nat.one_pos rfl)) (not_strands rfl)
  have hstopped := hjoin.next (.control (.stopped rfl)) (not_strands rfl)
  exact ⟨_, hstopped, rfl, rfl, rfl⟩

theorem stranded_run : ∃ p past, (workerPools 1 0 true).Run (p :: past) ∧ p.control = .stopped ∧
    p.submitted = [sampleSubmission] ∧ p.delivered = [] := by
  obtain ⟨past, hrun, -⟩ := samplePool_spared
  have hstop := hrun.next (.control (.stop rfl rfl))
  have hdrain := hstop.next (.worker 0 (.test rfl))
  have hempty := hdrain.next (.worker 0 (.tryDequeue rfl rfl))
  have haccept := hempty.next (.submitter (.enqueue (List.nil_append _).symm rfl))
  have hret := haccept.next (.submitter (.ret (List.nil_append _).symm))
  have hnotify := hret.next (.control (.notifyStop rfl Nat.one_pos))
  have hnotified := hnotify.next (.control (.notified rfl))
  have hjoin := hnotified.next (.control (.join rfl Nat.one_pos rfl))
  have hstopped := hjoin.next (.control (.stopped rfl))
  exact ⟨_, _, hstopped, rfl, rfl, rfl⟩

end WorkerPool

/-- An event for which `SubmitEvent` has returned true is still in the queue when `Stop` has
returned. -/
theorem submitted_event_stranded :
    ∃ states, (workerPools 1 0 true).Run states ∧ ∃ p ∈ states, p.control = .stopped ∧
      ∃ submission ∈ p.submitted, submission.tried = false ∧
        (p.delivered.map Prod.snd).count submission = 0 := by
  obtain ⟨p, past, hrun, hstopped, hsubmitted, hdelivered⟩ := WorkerPool.stranded_run
  refine ⟨_, hrun, p, List.mem_cons_self, hstopped, sampleSubmission, ?_, rfl, ?_⟩
  · rw [hsubmitted]
    exact List.mem_cons_self
  · rw [hdelivered]
    rfl

/-- The event of the other run is handled. -/
theorem submitted_events_handled_one :
    ∃ p : WorkerPool, p.control = .stopped ∧ p.submitted = [sampleSubmission] ∧
      (p.delivered.map Prod.snd).count sampleSubmission = 1 := by
  obtain ⟨p, ⟨past, hrun, hgood⟩, hstopped, hsubmitted, -⟩ := WorkerPool.handled_run
  refine ⟨p, hstopped, hsubmitted, ?_⟩
  refine submitted_events_handled hrun hgood p List.mem_cons_self hstopped sampleSubmission ?_ rfl
  rw [hsubmitted]
  exact List.mem_cons_self

/-! ## A pool that is started again -/

/-- `Enqueue` does not have to wait. -/
def ConcurrentQueue.HasRoom {α : Type*} (q : ConcurrentQueue α) : Prop :=
  q.maxSize = 0 ∨ q.queue.length < q.maxSize

/-- As long as the queue is not stopped, `Enqueue` waits for room and then returns true. -/
theorem ConcurrentQueue.enqueue_open {α : Type*} {q : ConcurrentQueue α}
    (h : q.isStopped = false) (value : α) :
    (q.HasRoom → q.enqueue value = some (true, { q with queue := q.queue ++ [value] })) ∧
      (¬q.HasRoom → q.enqueue value = none) := by
  unfold enqueue HasRoom
  rw [h]
  constructor
  · intro hroom
    rw [if_neg (by simp; omega), if_neg Bool.false_ne_true]
  · intro hfull
    exact if_pos (by simp; omega)

/-- Once the queue is stopped, `Enqueue` returns false. -/
theorem ConcurrentQueue.enqueue_stopped {α : Type*} {q : ConcurrentQueue α}
    (h : q.isStopped = true) (value : α) : q.enqueue value = some (false, q) := by
  unfold enqueue
  rw [h, if_neg (by simp), if_pos rfl]

/-- It is in the main loop of `WorkerLoop`, if there is a thread. -/
def WorkerPhase.InLoop : WorkerPhase → Prop
  | absent => True
  | testing => True
  | waiting => True
  | calling _ => True
  | _ => False

/-- How many turns the worker takes before it waits for an event. -/
def WorkerPhase.turnsLeft : WorkerPhase → ℕ
  | testing => 1
  | calling _ => 2
  | _ => 0

/-- `Stop` is stopping the queues or joining the workers. -/
def PoolControl.isStopping : PoolControl → Bool
  | notifying _ => true
  | joining _ => true
  | _ => false

namespace WorkerPool

/-- `SubmitEvent` passes its test of `is_running_`. A queue that is not full takes the event, and
for a full one `Enqueue` waits. -/
structure Accepts (p : WorkerPool) : Prop where
  isRunning : p.isRunning = true
  enqueue : ∀ submission : Submission, submission.tried = false →
    ∀ q, p.eventQueues (submission.worker p.workerCount) = q →
      (q.HasRoom → enqueue submission q = some
        (true, { q with queue := q.queue ++ [submission] })) ∧
        (¬q.HasRoom → enqueue submission q = none)

/-- A step before the next `Stop`. -/
def GoesOn (p p' : WorkerPool) : Prop :=
  Step p p' ∧ p'.control = .started

/-- Worker `i` passes the event to the callback, if there is one. -/
def Handles (i : ℕ) (submission : Submission) (p p' : WorkerPool) : Prop :=
  p.workers i = .calling submission ∧ p'.workers i = .testing

/-- Whatever the other threads do, worker `i` comes to handle the event. -/
def WillHandle (i : ℕ) (submission : Submission) : WorkerPool → Prop :=
  TransitionSystem.Served GoesOn (WorkerStep i) (Handles i submission)

structure Works (p : WorkerPool) : Prop where
  accepts : p.Accepts
  handles : ∀ i < p.workerCount, ∀ submission ∈ (p.eventQueues i).queue,
    WillHandle i submission p

variable {p p' : WorkerPool} {past : List WorkerPool} {i : ℕ} {submission : Submission}

/-! ## The main loops -/

/-- While the pool is running, no worker leaves its main loop. -/
def Looping (p : WorkerPool) : Prop :=
  p.isRunning = true → ∀ i, (p.workers i).InLoop

theorem Looping.set {phase : WorkerPhase} {j : ℕ} (h : ∀ i, (p.workers i).InLoop)
    (hphase : phase.InLoop) (i : ℕ) : ((p.setWorker j phase).workers i).InLoop := by
  by_cases hi : i = j
  · rw [hi, setWorker_self]
    exact hphase
  · rw [setWorker_ne hi]
    exact h i

theorem WorkerStep.looping (hstep : WorkerStep i p p') (h : p.Looping) : p'.Looping := by
  obtain ⟨-, -, hrunning, -⟩ := hstep.frame
  intro hup
  have hall := h (hrunning.symm.trans hup)
  have hmine := hall i
  obtain ⟨-, -, hothers⟩ := hstep.present
  intro j
  by_cases hj : j = i
  · rw [hj]
    cases hstep with
    | test hphase =>
      rw [setWorker_self, if_pos (hrunning.symm.trans hup)]
      trivial
    | @waitDequeue timedOut result q hphase hqueue =>
      rw [setWorker_self]
      cases result <;> trivial
    | call hphase =>
      rw [setWorker_self]
      trivial
    | tryDequeue hphase hqueue =>
      rw [hphase] at hmine
      exact hmine.elim
    | callRemaining hphase =>
      rw [hphase] at hmine
      exact hmine.elim
  · rw [hothers j hj]
    exact hall j

theorem ControlStep.looping (hstep : ControlStep p p') (h : p.Looping) (hstaffed : p.Staffed) :
    p'.Looping := by
  cases hstep with
  | start hcontrol hrunning =>
    intro _ i
    have habsent : p.workers i = .absent := hstaffed.nobody hcontrol hrunning i
    exact habsent ▸ trivial
  | create hcontrol hcreated => exact fun hup => Looping.set (h hup) trivial
  | joinFailed hcontrol hworker => exact fun hup => Looping.set (h hup) trivial
  | join hcontrol hjoined hworker => exact fun hup => Looping.set (h hup) trivial
  | throw => exact nofun
  | stop => exact nofun
  | _ => exact h

theorem Step.looping (hstep : Step p p') (h : p.Looping) (hstaffed : p.Staffed) : p'.Looping := by
  cases hstep with
  | worker i hstep => exact hstep.looping h
  | submitter hstep =>
    obtain ⟨-, -, hrunning, -, hworkers, -⟩ := hstep.frame
    intro hup
    rw [hworkers]
    exact h (hrunning.symm.trans hup)
  | control hstep => exact hstep.looping h hstaffed

/-! ## The queues are stopped once and for all -/

def Notified (p : WorkerPool) : Prop :=
  match p.control with
  | .notifying notified => ∀ i < notified, (p.eventQueues i).isStopped = true
  | .joining _ => ∀ i < p.workerCount, (p.eventQueues i).isStopped = true
  | _ => True

structure Remembers (p : WorkerPool) (past : List WorkerPool) : Prop where
  staffed : p.Staffed
  looping : p.Looping
  positive : 0 < p.workerCount
  notified : p.Notified
  stopped : ∀ q ∈ p :: past, q.control = .stopped →
    ∀ i < p.workerCount, (p.eventQueues i).isStopped = true
  cause : ∀ i, (p.eventQueues i).isStopped = true →
    p.control.isStopping = true ∨ ∃ q ∈ p :: past, q.control = .stopped

/-- A step that leaves the owner where it is stops no queue. -/
theorem Remembers.same (h : p.Remembers past) (hstep : Step p p')
    (hcount : p'.workerCount = p.workerCount) (hcontrol : p'.control = p.control)
    (hstopped : ∀ i, (p'.eventQueues i).isStopped = (p.eventQueues i).isStopped) :
    p'.Remembers (p :: past) where
  staffed := hstep.staffed h.staffed
  looping := hstep.looping h.looping h.staffed
  positive := hcount ▸ h.positive
  notified := by
    have hnotified := h.notified
    unfold Notified at hnotified ⊢
    simp only [hcontrol, hcount, hstopped]
    exact hnotified
  stopped q hq hreturned i hi := by
    rw [hstopped]
    rw [hcount] at hi
    rcases List.mem_cons.mp hq with rfl | hearlier
    · exact h.stopped p List.mem_cons_self (hcontrol.symm.trans hreturned) i hi
    · exact h.stopped q hearlier hreturned i hi
  cause i hi := by
    rw [hstopped] at hi
    rw [hcontrol]
    exact (h.cause i hi).imp_right fun ⟨q, hq, hreturned⟩ =>
      ⟨q, List.mem_cons_of_mem p' hq, hreturned⟩

/-- What a step of the owner has to say about the queues. -/
theorem Remembers.owner (h : p.Remembers past) (hstep : ControlStep p p')
    (hnotified : p'.Notified)
    (hreturns : p'.control = .stopped → p.control = .stopped ∨
      ∃ joined, p.control = .joining joined)
    (hstopping : p.control.isStopping = true → p'.control.isStopping = true ∨ p'.control = .stopped)
    (hnew : ∀ i, (p'.eventQueues i).isStopped = true →
      (p.eventQueues i).isStopped = true ∨ p'.control.isStopping = true) :
    p'.Remembers (p :: past) := by
  obtain ⟨hcount, -⟩ := hstep.frame
  obtain ⟨-, -, hsticky⟩ := hstep.move h.staffed
  refine ⟨hstep.staffed h.staffed, hstep.looping h.looping h.staffed, hcount ▸ h.positive,
    hnotified, fun q hq hreturned i hi => hsticky i ?_, fun i hi => ?_⟩
  · rw [hcount] at hi
    rcases List.mem_cons.mp hq with rfl | hearlier
    · rcases hreturns hreturned with hbefore | ⟨joined, hjoining⟩
      · exact h.stopped p List.mem_cons_self hbefore i hi
      · have hall := h.notified
        rw [Notified, hjoining] at hall
        exact hall i hi
    · exact h.stopped q hearlier hreturned i hi
  · rcases hnew i hi with hbefore | hnow
    · rcases h.cause i hbefore with hstops | ⟨q, hq, hreturned⟩
      · exact (hstopping hstops).imp_right fun hreturned => ⟨p', List.mem_cons_self, hreturned⟩
      · exact .inr ⟨q, List.mem_cons_of_mem p' hq, hreturned⟩
    · exact .inl hnow

theorem ControlStep.remembers (hstep : ControlStep p p') (h : p.Remembers past) :
    p'.Remembers (p :: past) := by
  have hnotified := h.notified
  unfold Notified at hnotified
  have houtside (hcontrol : p.control.isOutside = true) : ¬p.control.isStopping = true := by
    cases hc : p.control <;> simp_all [PoolControl.isOutside, PoolControl.isStopping]
  cases hstep with
  | start hcontrol hrunning =>
    exact h.owner (.start hcontrol hrunning) trivial nofun
      (fun hstops => absurd hstops (houtside hcontrol)) fun _ => .inl
  | create hcontrol hcreated =>
    exact h.owner (.create hcontrol hcreated) trivial nofun
      (fun hstops => by simp [hcontrol, PoolControl.isStopping] at hstops) fun _ => .inl
  | started hcontrol =>
    exact h.owner (.started hcontrol) trivial nofun
      (fun hstops => by simp [hcontrol, PoolControl.isStopping] at hstops) fun _ => .inl
  | throw hcontrol hcreated =>
    exact h.owner (.throw hcontrol hcreated) trivial nofun
      (fun hstops => by simp [hcontrol, PoolControl.isStopping] at hstops) fun _ => .inl
  | joinFailed hcontrol hworker =>
    exact h.owner (.joinFailed hcontrol hworker) trivial nofun
      (fun hstops => by simp [hcontrol, PoolControl.isStopping] at hstops) fun _ => .inl
  | failed hcontrol hworker =>
    exact h.owner (.failed hcontrol hworker) trivial nofun
      (fun hstops => by simp [hcontrol, PoolControl.isStopping] at hstops) fun _ => .inl
  | stop hcontrol hrunning =>
    exact h.owner (.stop hcontrol hrunning) (fun i hi => absurd hi (Nat.not_lt_zero i)) nofun
      (fun _ => .inl rfl) fun _ _ => .inr rfl
  | @notifyStop notified hcontrol hlt =>
    have hstep := ControlStep.notifyStop hcontrol hlt
    rw [hcontrol] at hnotified
    refine h.owner hstep (fun i hi => ?_) nofun (fun _ => .inl rfl) fun _ _ => .inr rfl
    by_cases hnow : i = notified
    · rw [hnow]
      exact congrArg ConcurrentQueue.isStopped setQueue_self
    · exact (hstep.move h.staffed).2.2 i (hnotified i (by omega))
  | notified hcontrol =>
    rw [hcontrol] at hnotified
    exact h.owner (.notified hcontrol) hnotified nofun (fun _ => .inl rfl) fun _ _ => .inr rfl
  | join hcontrol hjoined hworker =>
    rw [hcontrol] at hnotified
    exact h.owner (.join hcontrol hjoined hworker) hnotified nofun (fun _ => .inl rfl)
      fun _ _ => .inr rfl
  | stopped hcontrol =>
    exact h.owner (.stopped hcontrol) trivial (fun _ => .inr ⟨_, hcontrol⟩) (fun _ => .inr rfl)
      fun _ => .inl

theorem Step.remembers (hstep : Step p p') (h : p.Remembers past) : p'.Remembers (p :: past) := by
  cases hstep with
  | worker i hstep =>
    obtain ⟨hcount, -, -, hcontrol, -⟩ := hstep.frame
    obtain ⟨-, -, -, -, -, hstopped, -⟩ := hstep.move
    exact h.same (.worker i hstep) hcount hcontrol hstopped
  | submitter hstep =>
    obtain ⟨hcount, -, -, hcontrol, -⟩ := hstep.frame
    obtain ⟨-, -, -, hstopped, -⟩ := hstep.move
    exact h.same (.submitter hstep) hcount hcontrol hstopped
  | control hstep => exact hstep.remembers h

theorem workerPools_remember {workerCount maxQueueSize : ℕ} {hasCallback : Bool}
    {states : List WorkerPool}
    (hrun : (workerPools workerCount maxQueueSize hasCallback).Run states) :
    ∀ p past, p :: past <:+ states → p.Remembers past := by
  refine hrun.invariant_past ?_ fun p p' past h (hstep : Step p p') => hstep.remembers h
  rintro p rfl
  refine ⟨(construct_conserved workerCount maxQueueSize hasCallback).staffed, nofun,
    (construct_drained workerCount maxQueueSize hasCallback).positive, trivial,
    fun q hq hreturned => ?_, nofun⟩
  obtain rfl := List.mem_singleton.mp hq
  cases hreturned

/-! ## What is enqueued is handled -/

structure Waits (i : ℕ) (submission : Submission) (turns : ℕ) (p : WorkerPool) : Prop where
  started : p.control = .started
  isRunning : p.isRunning = true
  isOpen : (p.eventQueues i).isStopped = false
  inLoop : (p.workers i).InLoop
  present : p.workers i ≠ .absent
  place : p.workers i = .calling submission ∨
    ∃ before after, (p.eventQueues i).queue = before ++ submission :: after ∧
      3 * (before.length + 1) + (p.workers i).turnsLeft ≤ turns

variable {turns : ℕ}

/-- The event waits as before when its worker stays where it is and its queue only grows. -/
theorem Waits.same (h : p.Waits i submission turns) (hstarted : p'.control = .started)
    (hrunning : p'.isRunning = p.isRunning) (hworker : p'.workers i = p.workers i)
    (hstopped : (p'.eventQueues i).isStopped = (p.eventQueues i).isStopped)
    {added : List Submission}
    (hqueue : (p'.eventQueues i).queue = (p.eventQueues i).queue ++ added) :
    p'.Waits i submission turns where
  started := hstarted
  isRunning := hrunning.trans h.isRunning
  isOpen := hstopped.trans h.isOpen
  inLoop := hworker.symm ▸ h.inLoop
  present := hworker.symm ▸ h.present
  place := by
    rw [hworker, hqueue]
    refine h.place.imp_right fun ⟨before, after, hsplit, hturns⟩ => ?_
    refine ⟨before, after ++ added, ?_, hturns⟩
    rw [hsplit, List.append_assoc, List.cons_append]

/-- A turn of the worker brings the event nearer to the front. -/
theorem Waits.turn (h : p.Waits i submission turns) (hstep : WorkerStep i p p')
    (hmiss : ¬Handles i submission p p') : ∃ turns' < turns, p'.Waits i submission turns' := by
  obtain ⟨-, -, hrunning, hcontrol, -⟩ := hstep.frame
  obtain ⟨-, -, -, -, -, hstopped, -⟩ := hstep.move
  obtain ⟨-, hpresent, -⟩ := hstep.present
  have hstarted := hcontrol.trans h.started
  have hup := hrunning.trans h.isRunning
  have hopen := (hstopped i).trans h.isOpen
  have hinLoop := h.inLoop
  cases hstep with
  | test hphase =>
    rcases h.place with hcalling | ⟨before, after, hqueue, hturns⟩
    · cases hphase.symm.trans hcalling
    · have hnext : (p.setWorker i (if p.isRunning then .waiting else .draining)).workers i =
          .waiting := by
        rw [setWorker_self, if_pos h.isRunning]
      rw [hphase] at hturns
      refine ⟨3 * (before.length + 1), ?_, hstarted, hup, hopen, ?_, hpresent, .inr ?_⟩
      · simp only [WorkerPhase.turnsLeft] at hturns
        omega
      · rw [hnext]
        trivial
      · refine ⟨before, after, hqueue, ?_⟩
        rw [hnext]
        exact Nat.le_refl _
  | @waitDequeue timedOut result q hphase htaken =>
    rcases h.place with hcalling | ⟨before, after, hqueue, hturns⟩
    · cases hphase.symm.trans hcalling
    · obtain ⟨first, rest, hsplit⟩ : ∃ first rest, (p.eventQueues i).queue = first :: rest := by
        rw [hqueue]
        cases before with
        | nil => exact ⟨_, _, rfl⟩
        | cons first before => exact ⟨_, _, rfl⟩
      have hresult : (p.eventQueues i).waitDequeue timedOut =
          some (some first, { p.eventQueues i with queue := rest }) := by
        simp [ConcurrentQueue.waitDequeue, ConcurrentQueue.tryDequeue, hsplit, h.isOpen]
      obtain ⟨rfl, rfl⟩ := Prod.mk.inj (Option.some.inj (htaken.symm.trans hresult))
      rw [hphase] at hturns
      have hnext : (((p.setQueue i { p.eventQueues i with queue := rest }).setWorker i
          (.afterWait (some first))).workers i) = .calling first := setWorker_self
      have hlater : (((p.setQueue i { p.eventQueues i with queue := rest }).setWorker i
          (.afterWait (some first))).eventQueues i).queue = rest :=
        congrArg ConcurrentQueue.queue setQueue_self
      refine ⟨3 * before.length + 2, by simp only [WorkerPhase.turnsLeft] at hturns; omega,
        hstarted, hup, hopen, ?_, hpresent, ?_⟩
      · rw [hnext]
        trivial
      · rw [hqueue] at hsplit
        cases before with
        | nil =>
          obtain ⟨rfl, -⟩ := List.cons.inj hsplit
          exact .inl hnext
        | cons first' before =>
          obtain ⟨rfl, rfl⟩ := List.cons.inj hsplit
          refine .inr ⟨before, after, hlater, ?_⟩
          rw [hnext]
          exact Nat.le_refl _
  | @call handled hphase =>
    rcases h.place with hcalling | ⟨before, after, hqueue, hturns⟩
    · exact absurd ⟨hcalling, setWorker_self⟩ hmiss
    · obtain ⟨delivered, heq⟩ := handle_eq p i handled
      have hnext : ((p.handle i handled).setWorker i .testing).workers i = .testing :=
        setWorker_self
      rw [hphase] at hturns
      refine ⟨3 * (before.length + 1) + 1, ?_, hstarted, hup, hopen, ?_, hpresent, .inr ?_⟩
      · simp only [WorkerPhase.turnsLeft] at hturns
        omega
      · rw [hnext]
        trivial
      · refine ⟨before, after, ?_, ?_⟩
        · rw [heq]
          exact hqueue
        · rw [hnext]
          exact Nat.le_refl _
  | tryDequeue hphase htaken =>
    rw [hphase] at hinLoop
    exact hinLoop.elim
  | callRemaining hphase =>
    rw [hphase] at hinLoop
    exact hinLoop.elim

/-- The other threads leave the event where it is. -/
theorem Waits.others (h : p.Waits i submission turns) (hgoes : GoesOn p p')
    (hmiss : ¬Handles i submission p p') : ∃ turns' ≤ turns, p'.Waits i submission turns' := by
  obtain ⟨hstep, hstarted⟩ := hgoes
  cases hstep with
  | worker j hstep =>
    by_cases hj : i = j
    · subst hj
      obtain ⟨turns', hless, hwaits⟩ := h.turn hstep hmiss
      exact ⟨turns', Nat.le_of_lt hless, hwaits⟩
    · obtain ⟨-, -, hrunning, -⟩ := hstep.frame
      obtain ⟨-, -, hworkers⟩ := hstep.present
      obtain ⟨-, -, -, -, -, hstopped, hqueues⟩ := hstep.move
      have hqueue := (congrArg ConcurrentQueue.queue (hqueues i hj)).trans (List.append_nil _).symm
      exact ⟨turns, Nat.le_refl _,
        h.same hstarted hrunning (hworkers i hj) (hstopped i) hqueue⟩
  | submitter hstep =>
    obtain ⟨-, -, hrunning, -, hworkers, -⟩ := hstep.frame
    obtain ⟨added, -, hqueues, hstopped, -⟩ := hstep.move
    exact ⟨turns, Nat.le_refl _,
      h.same hstarted hrunning (congrFun hworkers i) (hstopped i) (hqueues i)⟩
  | control hstep =>
    -- From here the owner can only call `Stop`.
    have hbefore := h.started
    cases hstep with
    | start hcontrol hdown => cases hdown.symm.trans h.isRunning
    | started hcontrol => cases hcontrol.symm.trans hbefore
    | _ => cases hstarted

theorem Waits.exists_turn (h : p.Waits i submission turns) : ∃ p', WorkerStep i p p' := by
  have hinLoop := h.inLoop
  cases hphase : p.workers i with
  | absent => exact absurd hphase h.present
  | testing => exact ⟨_, .test hphase⟩
  | waiting =>
    have hnext : ∃ result q, (p.eventQueues i).waitDequeue true = some (result, q) := by
      unfold ConcurrentQueue.waitDequeue
      simp only [Bool.not_true, Bool.and_false, Bool.false_eq_true, if_false]
      split
      · exact ⟨_, _, rfl⟩
      · exact ⟨_, _, rfl⟩
    obtain ⟨result, q, htaken⟩ := hnext
    exact ⟨_, .waitDequeue hphase htaken⟩
  | calling handled => exact ⟨_, .call hphase⟩
  | _ =>
    rw [hphase] at hinLoop
    exact hinLoop.elim

theorem Waits.willHandle (h : p.Waits i submission turns) : WillHandle i submission p :=
  TransitionSystem.served_of_within (Waits i submission) h
    (fun _ _ _ hwaits hothers hmiss => hwaits.others hothers hmiss)
    (fun _ _ _ hwaits hturn hmiss => hwaits.turn hturn hmiss)
    fun _ _ hwaits => hwaits.exists_turn

/-- A started pool works exactly if no `Stop` has returned before. -/
theorem works_iff {workerCount maxQueueSize : ℕ} {hasCallback : Bool} {states : List WorkerPool}
    (hrun : (workerPools workerCount maxQueueSize hasCallback).Run states)
    (hp : p :: past <:+ states) (hstarted : p.control = .started) :
    p.Works ↔ ∀ q ∈ past, q.control ≠ .stopped := by
  have h := workerPools_remember hrun p past hp
  constructor
  · intro hworks q hq hreturned
    let first : Submission := ⟨0, .disconnected 0, false⟩
    have hworker : first.worker p.workerCount = 0 := Nat.zero_mod _
    have hstopped := h.stopped q (List.mem_cons_of_mem p hq) hreturned 0 h.positive
    obtain ⟨htaken, hwaits⟩ := hworks.accepts.enqueue first rfl _ rfl
    have hrefused : enqueue first (p.eventQueues 0) = some (false, p.eventQueues 0) :=
      ConcurrentQueue.enqueue_stopped hstopped first
    rw [hworker, hrefused] at htaken hwaits
    by_cases hroom : (p.eventQueues 0).HasRoom
    · cases htaken hroom
    · cases hwaits hroom
  · intro hnever
    have hopen (i : ℕ) : (p.eventQueues i).isStopped = false := by
      rw [← Bool.not_eq_true]
      intro hstopped
      rcases h.cause i hstopped with hstops | ⟨q, hq, hreturned⟩
      · rw [hstarted] at hstops
        cases hstops
      · rcases List.mem_cons.mp hq with rfl | hearlier
        · cases hstarted.symm.trans hreturned
        · exact hnever q hearlier hreturned
    refine ⟨⟨(h.staffed.all_present hstarted h.positive).1, fun submission htried q hq => ?_⟩,
      fun i hi submission hqueued => ?_⟩
    · unfold enqueue
      rw [htried]
      exact ConcurrentQueue.enqueue_open (hq ▸ hopen _) submission
    · obtain ⟨hrunning, hpresent⟩ := h.staffed.all_present hstarted hi
      obtain ⟨before, after, hsplit⟩ := List.append_of_mem hqueued
      exact Waits.willHandle ⟨hstarted, hrunning, hopen i, h.looping hrunning i, hpresent,
        .inr ⟨before, after, hsplit, Nat.le_refl _⟩⟩

end WorkerPool

end DarwinCore.Network
