import DarwinCore.Model.Network.WorkerPool
import DarwinCore.Verification.Network.ConcurrentQueue
import Mathlib.Data.List.Perm.Subperm

/-! # The worker pool keeps the order of each connection

An event is in one line from its acceptance to the callback: the queue of its worker, and then
the hands of this worker. -/

namespace DarwinCore.Network

/-! ## Threads that exist -/

/-- The workers from `lo` up to `hi` have a thread. -/
def PoolControl.fits (workerCount : ℕ) (isRunning : Bool) (lo hi : ℕ) : PoolControl → Prop
  | idle => isRunning = false ∧ lo = hi
  | starting created => isRunning = true ∧ lo = 0 ∧ hi = created
  | failing joined => isRunning = false ∧ lo = joined
  | started => isRunning = true ∧ lo = 0 ∧ hi = workerCount
  | notifying _ => isRunning = false ∧ lo = 0 ∧ hi = workerCount
  | joining joined => isRunning = false ∧ lo = joined ∧ hi = workerCount
  | stopped => isRunning = false ∧ lo = workerCount ∧ hi = workerCount

namespace WorkerPool

/-- There are the threads that the owner has created and not joined. -/
def Staffed (p : WorkerPool) : Prop :=
  ∃ lo hi, lo ≤ hi ∧ hi ≤ p.workerCount ∧
    (∀ i, p.workers i ≠ .absent ↔ lo ≤ i ∧ i < hi) ∧
    p.control.fits p.workerCount p.isRunning lo hi

variable {p p' : WorkerPool} {i j : ℕ} {phase : WorkerPhase} {submission : Submission}

/-! ## What does not change -/

@[simp] theorem setWorker_self : (p.setWorker i phase).workers i = phase := by
  simp [setWorker]

theorem setWorker_ne (h : j ≠ i) : (p.setWorker i phase).workers j = p.workers j := by
  simp [setWorker, h]

@[simp] theorem setQueue_self {q : ConcurrentQueue Submission} :
    (p.setQueue i q).eventQueues i = q := by
  simp [setQueue]

theorem setQueue_ne {q : ConcurrentQueue Submission} (h : j ≠ i) :
    (p.setQueue i q).eventQueues j = p.eventQueues j := by
  simp [setQueue, h]

theorem countFailure_eq (success : Bool) (p : WorkerPool) :
    ∃ failures, p.countFailure success = { p with submitFailures := failures } := by
  unfold countFailure
  split
  · exact ⟨_, rfl⟩
  · exact ⟨_, rfl⟩

theorem handle_eq (p : WorkerPool) (i : ℕ) (submission : Submission) :
    ∃ delivered, p.handle i submission = { p with delivered := delivered } := by
  unfold handle
  split
  · exact ⟨_, rfl⟩
  · exact ⟨_, rfl⟩

/-- What a step of a worker leaves alone. -/
theorem WorkerStep.frame (h : WorkerStep i p p') :
    p'.workerCount = p.workerCount ∧ p'.hasCallback = p.hasCallback ∧
      p'.isRunning = p.isRunning ∧ p'.control = p.control ∧ p'.accepted = p.accepted ∧
      p'.submitted = p.submitted ∧ p'.submitters = p.submitters ∧
      p'.nextSubmission = p.nextSubmission := by
  cases h with
  | test h => exact ⟨rfl, rfl, rfl, rfl, rfl, rfl, rfl, rfl⟩
  | waitDequeue h hqueue => exact ⟨rfl, rfl, rfl, rfl, rfl, rfl, rfl, rfl⟩
  | call h =>
    rename_i submission
    obtain ⟨delivered, heq⟩ := handle_eq p i submission
    rw [heq]
    exact ⟨rfl, rfl, rfl, rfl, rfl, rfl, rfl, rfl⟩
  | tryDequeue h hqueue => exact ⟨rfl, rfl, rfl, rfl, rfl, rfl, rfl, rfl⟩
  | callRemaining h =>
    rename_i submission
    obtain ⟨delivered, heq⟩ := handle_eq p i submission
    rw [heq]
    exact ⟨rfl, rfl, rfl, rfl, rfl, rfl, rfl, rfl⟩

theorem SubmitStep.frame (h : SubmitStep p p') :
    p'.workerCount = p.workerCount ∧ p'.hasCallback = p.hasCallback ∧
      p'.isRunning = p.isRunning ∧ p'.control = p.control ∧ p'.workers = p.workers ∧
      p'.delivered = p.delivered := by
  cases h with
  | ret hsubmitters =>
    rename_i submission before after success
    obtain ⟨failures, heq⟩ := countFailure_eq success p
    rw [heq]
    exact ⟨rfl, rfl, rfl, rfl, rfl, rfl⟩
  | _ => exact ⟨rfl, rfl, rfl, rfl, rfl, rfl⟩

theorem ControlStep.frame (h : ControlStep p p') :
    p'.workerCount = p.workerCount ∧ p'.hasCallback = p.hasCallback ∧
      p'.accepted = p.accepted ∧ p'.delivered = p.delivered ∧ p'.submitted = p.submitted ∧
      p'.submitters = p.submitters ∧ p'.nextSubmission = p.nextSubmission := by
  cases h <;> exact ⟨rfl, rfl, rfl, rfl, rfl, rfl, rfl⟩

/-! ## The threads -/

/-- A worker that takes a step is there, and stays there. -/
theorem WorkerStep.present (h : WorkerStep i p p') :
    p.workers i ≠ .absent ∧ p'.workers i ≠ .absent ∧ ∀ j ≠ i, p'.workers j = p.workers j := by
  cases h with
  | test h =>
    refine ⟨by simp [h], ?_, fun j hj => setWorker_ne hj⟩
    rw [setWorker_self]
    split <;> simp
  | @waitDequeue timedOut result q h hqueue =>
    refine ⟨by simp [h], ?_, fun j hj => setWorker_ne hj⟩
    cases result <;> simp [WorkerPhase.afterWait]
  | @call submission h =>
    obtain ⟨delivered, heq⟩ := handle_eq p i submission
    rw [heq]
    exact ⟨by simp [h], by simp, fun j hj => setWorker_ne hj⟩
  | @tryDequeue result q h hqueue =>
    refine ⟨by simp [h], ?_, fun j hj => setWorker_ne hj⟩
    cases result <;> simp [WorkerPhase.afterTry]
  | @callRemaining submission h =>
    obtain ⟨delivered, heq⟩ := handle_eq p i submission
    rw [heq]
    exact ⟨by simp [h], by simp, fun j hj => setWorker_ne hj⟩

theorem Staffed.of_same (h : p.Staffed) (hcount : p'.workerCount = p.workerCount)
    (hrunning : p'.isRunning = p.isRunning) (hcontrol : p'.control = p.control)
    (hworkers : ∀ i, p'.workers i ≠ .absent ↔ p.workers i ≠ .absent) : p'.Staffed := by
  obtain ⟨lo, hi, hle, hhi, hstaff, hfits⟩ := h
  refine ⟨lo, hi, hle, hcount ▸ hhi, fun i => (hworkers i).trans (hstaff i), ?_⟩
  rw [hcontrol, hcount, hrunning]
  exact hfits

/-- There are no threads before `Start`. -/
theorem Staffed.nobody (h : p.Staffed) (hcontrol : p.control.isOutside)
    (hrunning : p.isRunning = false) (i : ℕ) : p.workers i = .absent := by
  obtain ⟨lo, hi, -, -, hstaff, hfits⟩ := h
  have hnobody : lo = hi := by
    cases hc : p.control with
    | idle =>
      rw [hc] at hfits
      exact hfits.2
    | stopped =>
      rw [hc] at hfits
      exact hfits.2.1.trans hfits.2.2.symm
    | started =>
      rw [hc] at hfits
      exact absurd hfits.1 (by simp [hrunning])
    | _ =>
      rw [hc] at hcontrol
      cases hcontrol
  by_contra hpresent
  have hin := (hstaff i).mp hpresent
  omega

theorem Staffed.all_present (h : p.Staffed) (hcontrol : p.control = .started)
    (hi : i < p.workerCount) : p.isRunning = true ∧ p.workers i ≠ .absent := by
  obtain ⟨lo, hi', -, -, hstaff, hfits⟩ := h
  rw [hcontrol] at hfits
  obtain ⟨hrunning, rfl, rfl⟩ := hfits
  exact ⟨hrunning, (hstaff i).mpr ⟨Nat.zero_le i, hi⟩⟩

theorem Staffed.joined_le (h : p.Staffed) {joined : ℕ} (hcontrol : p.control = .joining joined) :
    joined ≤ p.workerCount := by
  obtain ⟨lo, hi, hle, hhi, -, hfits⟩ := h
  rw [hcontrol] at hfits
  obtain ⟨-, rfl, rfl⟩ := hfits
  exact hle

/-- When `Stop` has returned, there are no threads. -/
theorem Staffed.absent (h : p.Staffed) (hcontrol : p.control = .stopped) (i : ℕ) :
    p.workers i = .absent := by
  obtain ⟨lo, hi, -, -, hstaff, hfits⟩ := h
  rw [hcontrol] at hfits
  obtain ⟨-, rfl, rfl⟩ := hfits
  by_contra hpresent
  have hin := (hstaff i).mp hpresent
  omega

/-- The owner creates and joins the threads one by one. -/
theorem ControlStep.staffed (hstep : ControlStep p p') (h : p.Staffed) : p'.Staffed := by
  have hstaffed : p.Staffed := h
  obtain ⟨lo, hi, hle, hhi, hstaff, hfits⟩ := h
  cases hstep with
  | start hcontrol hrunning =>
    have hnobody := hstaffed.nobody hcontrol hrunning
    refine ⟨0, 0, Nat.le_refl 0, Nat.zero_le _, fun i => ?_, rfl, rfl, rfl⟩
    exact iff_of_false (not_not_intro (hnobody i)) (by omega)
  | @create created hcontrol hcreated =>
    rw [hcontrol] at hfits
    obtain ⟨hrunning, rfl, rfl⟩ := hfits
    refine ⟨0, hi + 1, Nat.zero_le _, hcreated, fun i => ?_, hrunning, rfl, rfl⟩
    by_cases hi' : i = hi
    · simp [hi']
    · refine (iff_of_eq (congrArg (· ≠ .absent) (setWorker_ne hi'))).trans ((hstaff i).trans ?_)
      omega
  | started hcontrol =>
    rw [hcontrol] at hfits
    exact ⟨lo, hi, hle, hhi, hstaff, hfits⟩
  | throw hcontrol hcreated =>
    rw [hcontrol] at hfits
    exact ⟨lo, hi, hle, hhi, hstaff, rfl, hfits.2.1⟩
  | @joinFailed joined hcontrol hworker =>
    rw [hcontrol] at hfits
    obtain ⟨hrunning, rfl⟩ := hfits
    have hpresent := (hstaff lo).mp (by simp [hworker])
    refine ⟨lo + 1, hi, hpresent.2, hhi, fun i => ?_, hrunning, rfl⟩
    by_cases hi' : i = lo
    · exact iff_of_false (by simp [hi']) (by omega)
    · refine (iff_of_eq (congrArg (· ≠ .absent) (setWorker_ne hi'))).trans ((hstaff i).trans ?_)
      omega
  | @failed joined hcontrol hworker =>
    rw [hcontrol] at hfits
    obtain ⟨hrunning, rfl⟩ := hfits
    have hnobody : ¬lo < hi := fun hlt => (hstaff lo).mpr ⟨Nat.le_refl _, hlt⟩ hworker
    exact ⟨lo, hi, hle, hhi, hstaff, hrunning, by omega⟩
  | stop hcontrol hrunning =>
    cases hc : p.control with
    | started =>
      rw [hc] at hfits
      exact ⟨lo, hi, hle, hhi, hstaff, rfl, hfits.2⟩
    | idle =>
      rw [hc] at hfits
      exact absurd hfits.1 (by simp [hrunning])
    | stopped =>
      rw [hc] at hfits
      exact absurd hfits.1 (by simp [hrunning])
    | _ =>
      rw [hc] at hcontrol
      cases hcontrol
  | notifyStop hcontrol hnotified =>
    rw [hcontrol] at hfits
    exact ⟨lo, hi, hle, hhi, hstaff, hfits⟩
  | notified hcontrol =>
    rw [hcontrol] at hfits
    exact ⟨lo, hi, hle, hhi, hstaff, hfits⟩
  | @join joined hcontrol hjoined hworker =>
    rw [hcontrol] at hfits
    obtain ⟨hrunning, rfl, rfl⟩ := hfits
    refine ⟨lo + 1, p.workerCount, hjoined, Nat.le_refl _, fun i => ?_, hrunning, rfl, rfl⟩
    by_cases hi' : i = lo
    · exact iff_of_false (by simp [hi']) (by omega)
    · refine (iff_of_eq (congrArg (· ≠ .absent) (setWorker_ne hi'))).trans ((hstaff i).trans ?_)
      omega
  | stopped hcontrol =>
    rw [hcontrol] at hfits
    obtain ⟨hrunning, rfl, rfl⟩ := hfits
    exact ⟨p.workerCount, p.workerCount, hle, hhi, hstaff, hrunning, rfl, rfl⟩

theorem Step.staffed (hstep : Step p p') (h : p.Staffed) : p'.Staffed := by
  cases hstep with
  | worker i hstep =>
    obtain ⟨hcount, -, hrunning, hcontrol, -⟩ := hstep.frame
    obtain ⟨hbefore, hafter, hothers⟩ := hstep.present
    refine h.of_same hcount hrunning hcontrol fun j => ?_
    by_cases hj : j = i
    · rw [hj]
      exact iff_of_true hafter hbefore
    · rw [hothers j hj]
  | submitter hstep =>
    obtain ⟨hcount, -, hrunning, hcontrol, hworkers, -⟩ := hstep.frame
    exact h.of_same hcount hrunning hcontrol fun i => by rw [hworkers]
  | control hstep => exact hstep.staffed h

/-! ## The lines -/

end WorkerPool

/-- The event that the worker has in its hands. -/
def WorkerPhase.held : WorkerPhase → List Submission
  | calling submission => [submission]
  | callingRemaining submission => [submission]
  | _ => []

/-- The submission, if it may still be accepted. -/
def Submitter.pending : Submitter → Option Submission
  | testing submission => some submission
  | enqueueing submission => some submission
  | returning _ _ => none

def Submission.isFor (workerCount i : ℕ) (submission : Submission) : Bool :=
  submission.worker workerCount = i

namespace ConcurrentQueue

variable {α : Type*} {q q' : ConcurrentQueue α}

theorem tryDequeue_queue {result : Option α} (h : q.tryDequeue = (result, q')) :
    q.queue = result.toList ++ q'.queue ∧ q'.isStopped = q.isStopped ∧
      (result = none → q.queue = []) := by
  unfold tryDequeue at h
  split at h
  · obtain ⟨rfl, rfl⟩ := Prod.mk.inj h
    rename_i hqueue
    exact ⟨rfl, rfl, fun _ => hqueue⟩
  · obtain ⟨rfl, rfl⟩ := Prod.mk.inj h
    rename_i hqueue
    exact ⟨hqueue, rfl, nofun⟩

theorem waitDequeue_queue {timedOut : Bool} {result : Option α}
    (h : q.waitDequeue timedOut = some (result, q')) :
    q.queue = result.toList ++ q'.queue ∧ q'.isStopped = q.isStopped := by
  unfold waitDequeue at h
  dsimp only at h
  split at h
  · cases h
  · split at h
    · obtain ⟨rfl, rfl⟩ := Prod.mk.inj (Option.some.inj h)
      exact ⟨rfl, rfl⟩
    · obtain ⟨hqueue, hstopped, -⟩ := tryDequeue_queue (Option.some.inj h)
      exact ⟨hqueue, hstopped⟩

/-- What is accepted is the last element, and the queue is not stopped then. -/
theorem tryEnqueue_queue {value : α} {success : Bool} (h : q.tryEnqueue value = (success, q')) :
    q'.queue = q.queue ++ (if success then [value] else []) ∧ q'.isStopped = q.isStopped ∧
      (success = true → q.isStopped = false) := by
  unfold tryEnqueue at h
  split at h
  · obtain ⟨rfl, rfl⟩ := Prod.mk.inj h
    exact ⟨(List.append_nil _).symm, rfl, nofun⟩
  · split at h
    · obtain ⟨rfl, rfl⟩ := Prod.mk.inj h
      exact ⟨(List.append_nil _).symm, rfl, nofun⟩
    · rename_i hopen
      obtain ⟨rfl, rfl⟩ := Prod.mk.inj h
      exact ⟨rfl, rfl, fun _ => Bool.eq_false_iff.mpr hopen⟩

theorem enqueue_queue {value : α} {success : Bool} (h : q.enqueue value = some (success, q')) :
    q'.queue = q.queue ++ (if success then [value] else []) ∧ q'.isStopped = q.isStopped ∧
      (success = true → q.isStopped = false) := by
  unfold enqueue at h
  split at h
  · cases h
  · split at h
    · obtain ⟨rfl, rfl⟩ := Prod.mk.inj (Option.some.inj h)
      exact ⟨(List.append_nil _).symm, rfl, nofun⟩
    · rename_i hopen
      obtain ⟨rfl, rfl⟩ := Prod.mk.inj (Option.some.inj h)
      exact ⟨rfl, rfl, fun _ => Bool.eq_false_iff.mpr hopen⟩

end ConcurrentQueue

namespace WorkerPool

variable {p p' : WorkerPool} {i j : ℕ} {submission : Submission}

theorem enqueue_queue {q q' : ConcurrentQueue Submission} {success : Bool}
    (h : enqueue submission q = some (success, q')) :
    q'.queue = q.queue ++ (if success then [submission] else []) ∧
      q'.isStopped = q.isStopped ∧ (success = true → q.isStopped = false) := by
  unfold enqueue at h
  split at h
  · exact ConcurrentQueue.tryEnqueue_queue (Option.some.inj h)
  · exact ConcurrentQueue.enqueue_queue h

/-- What a step of a worker does to its line. -/
theorem WorkerStep.move (hstep : WorkerStep i p p') :
    ∃ taken passed,
      (p.eventQueues i).queue = taken ++ (p'.eventQueues i).queue ∧
      (p.workers i).held ++ taken = passed ++ (p'.workers i).held ∧
      p'.delivered = p.delivered ++ (if p.hasCallback then passed.map (Prod.mk i) else []) ∧
      (∀ j, (p'.eventQueues j).isStopped = (p.eventQueues j).isStopped) ∧
      ∀ j ≠ i, p'.eventQueues j = p.eventQueues j := by
  have hcalls (submission : Submission) (phase : WorkerPhase) (hphase : phase.held = [])
      (hheld : (p.workers i).held = [submission]) : ∃ taken passed,
      (p.eventQueues i).queue = taken ++ (((p.handle i submission).setWorker i phase).eventQueues
        i).queue ∧
      (p.workers i).held ++ taken =
        passed ++ (((p.handle i submission).setWorker i phase).workers i).held ∧
      ((p.handle i submission).setWorker i phase).delivered =
        p.delivered ++ (if p.hasCallback then passed.map (Prod.mk i) else []) ∧
      (∀ j, (((p.handle i submission).setWorker i phase).eventQueues j).isStopped =
        (p.eventQueues j).isStopped) ∧
      ∀ j ≠ i, ((p.handle i submission).setWorker i phase).eventQueues j = p.eventQueues j := by
    refine ⟨[], [submission], ?_⟩
    rw [setWorker_self, hphase, hheld]
    unfold handle setWorker
    cases p.hasCallback <;> exact ⟨rfl, rfl, by simp, fun _ => rfl, fun _ _ => rfl⟩
  have hstopped {q : ConcurrentQueue Submission} (hq : q.isStopped = (p.eventQueues i).isStopped)
      (j : ℕ) : ((p.setQueue i q).eventQueues j).isStopped = (p.eventQueues j).isStopped := by
    by_cases hj : j = i
    · rw [hj, setQueue_self, hq]
    · rw [setQueue_ne hj]
  cases hstep with
  | test h =>
    refine ⟨[], [], rfl, ?_, by simp [setWorker], fun _ => rfl, fun _ _ => rfl⟩
    rw [h, setWorker_self]
    split <;> rfl
  | @waitDequeue timedOut result q h hqueue =>
    obtain ⟨htaken, hsame⟩ := ConcurrentQueue.waitDequeue_queue hqueue
    refine ⟨result.toList, [], ?_, ?_, by simp [setWorker, setQueue], hstopped hsame, fun j hj =>
      setQueue_ne hj⟩
    · exact htaken.trans (congrArg _ (congrArg _ setQueue_self.symm))
    · rw [h, setWorker_self]
      cases result <;> rfl
  | @call submission h => exact hcalls submission .testing rfl (by rw [h, WorkerPhase.held])
  | @tryDequeue result q h hqueue =>
    obtain ⟨htaken, hsame, -⟩ := ConcurrentQueue.tryDequeue_queue hqueue
    refine ⟨result.toList, [], ?_, ?_, by simp [setWorker, setQueue], hstopped hsame, fun j hj =>
      setQueue_ne hj⟩
    · exact htaken.trans (congrArg _ (congrArg _ setQueue_self.symm))
    · rw [h, setWorker_self]
      cases result <;> rfl
  | @callRemaining submission h =>
    exact hcalls submission .draining rfl (by rw [h, WorkerPhase.held])

/-- The events for worker `i` that have been passed to the callback, and those on their way. -/
def line (p : WorkerPool) (i : ℕ) : List Submission :=
  (p.delivered.map Prod.snd).filter (Submission.isFor p.workerCount i) ++ (p.workers i).held ++
    (p.eventQueues i).queue

def numbers (p : WorkerPool) : List ℕ :=
  (p.submitters.filterMap Submitter.pending ++ p.accepted).map Submission.number

structure Conserved (p : WorkerPool) : Prop where
  staffed : p.Staffed
  lines : p.hasCallback = true → ∀ i,
    p.line i = p.accepted.filter (Submission.isFor p.workerCount i)
  silent : p.hasCallback = false → p.delivered = []
  own : ∀ d ∈ p.delivered, d.2.worker p.workerCount = d.1
  nodup : p.numbers.Nodup
  old : ∀ n ∈ p.numbers, n < p.nextSubmission

/-- What is in line `i` is for worker `i`. -/
theorem Conserved.line_own (h : p.Conserved) (hcallback : p.hasCallback = true)
    (hline : submission ∈ p.line i) : submission.worker p.workerCount = i := by
  rw [h.lines hcallback i] at hline
  exact of_decide_eq_true (List.mem_filter.mp hline).2

/-- Events pass through the hands of a worker in their order. -/
theorem WorkerStep.conserved (hstep : WorkerStep i p p') (h : p.Conserved) : p'.Conserved := by
  obtain ⟨hcount, hcallback', hrunning, hcontrol, haccepted, hsubmitted, hsubmitters, hnext⟩ :=
    hstep.frame
  obtain ⟨taken, passed, htaken, hpassed, hdelivered, -, hqueues⟩ := hstep.move
  obtain ⟨-, -, hworkers⟩ := hstep.present
  have hnumbers : p'.numbers = p.numbers := by rw [numbers, numbers, hsubmitters, haccepted]
  have hown (hcallback : p.hasCallback = true) :
      ∀ submission ∈ passed, submission.worker p.workerCount = i := by
    intro submission hmem
    refine h.line_own hcallback ?_
    have hheld : submission ∈ (p.workers i).held ++ (p.eventQueues i).queue := by
      rw [htaken, ← List.append_assoc, hpassed]
      exact List.mem_append_left _ (List.mem_append_left _ hmem)
    rw [line, List.append_assoc]
    exact List.mem_append_right _ hheld
  refine ⟨Step.staffed (.worker i hstep) h.staffed, ?_, ?_, ?_, hnumbers ▸ h.nodup, ?_⟩
  · intro hcallback j
    rw [hcallback'] at hcallback
    rw [haccepted, hcount, ← h.lines hcallback j, line, line, hdelivered, hcount,
      if_pos hcallback, List.map_append, List.filter_append]
    have hmap : (passed.map (Prod.mk i)).map Prod.snd = passed := by
      rw [List.map_map]
      exact List.map_id passed
    rw [hmap]
    by_cases hj : j = i
    · rw [hj, htaken]
      have hall : passed.filter (Submission.isFor p.workerCount i) = passed :=
        List.filter_eq_self.mpr fun submission hmem => decide_eq_true (hown hcallback _ hmem)
      rw [hall, List.append_assoc _ passed, ← hpassed]
      simp only [List.append_assoc]
    · have hnone : passed.filter (Submission.isFor p.workerCount j) = [] := by
        apply List.filter_eq_nil_iff.mpr
        intro submission hmem hfor
        exact hj ((of_decide_eq_true hfor).symm.trans (hown hcallback _ hmem))
      rw [hnone, List.append_nil, hworkers j hj, hqueues j hj]
  · intro hcallback
    rw [hcallback'] at hcallback
    rw [hdelivered, h.silent hcallback, hcallback]
    rfl
  · intro d hd
    rw [hdelivered] at hd
    rw [hcount]
    rcases List.mem_append.mp hd with hold | hnew
    · exact h.own d hold
    · split at hnew
      · rename_i hcallback
        obtain ⟨submission, hmem, rfl⟩ := List.mem_map.mp hnew
        exact hown hcallback submission hmem
      · cases hnew
  · rw [hnumbers, hnext]
    exact h.old

/-- What a submitting thread does to the lines. -/
theorem SubmitStep.move (hstep : SubmitStep p p') :
    ∃ added, p'.accepted = p.accepted ++ added ∧
      (∀ i, (p'.eventQueues i).queue =
        (p.eventQueues i).queue ++ added.filter (Submission.isFor p.workerCount i)) ∧
      (∀ i, (p'.eventQueues i).isStopped = (p.eventQueues i).isStopped) ∧
      ∀ submission ∈ added,
        (p.eventQueues (submission.worker p.workerCount)).isStopped = false := by
  cases hstep with
  | submit event => exact ⟨[], by simp, by simp, fun _ => rfl, nofun⟩
  | trySubmit event => exact ⟨[], by simp, by simp, fun _ => rfl, nofun⟩
  | test hsubmitters => exact ⟨[], by simp, by simp, fun _ => rfl, nofun⟩
  | @enqueue submission before after success q hsubmitters hqueue =>
    obtain ⟨hadded, hsame, hopen⟩ := enqueue_queue hqueue
    refine ⟨if success then [submission] else [], by split <;> simp, fun i => ?_, fun i => ?_, ?_⟩
    · by_cases hi : submission.worker p.workerCount = i
      · subst hi
        refine (congrArg ConcurrentQueue.queue setQueue_self).trans (hadded.trans ?_)
        split <;> simp [Submission.isFor]
      · refine (congrArg ConcurrentQueue.queue (setQueue_ne (Ne.symm hi))).trans ?_
        split <;> simp [Submission.isFor, hi]
    · by_cases hi : i = submission.worker p.workerCount
      · rw [hi]
        exact (congrArg ConcurrentQueue.isStopped setQueue_self).trans hsame
      · exact congrArg ConcurrentQueue.isStopped (setQueue_ne hi)
    · intro submission' hmem
      split at hmem
      · rename_i hsuccess
        rw [List.mem_singleton.mp hmem]
        exact hopen hsuccess
      · cases hmem
  | @ret submission before after success hsubmitters =>
    obtain ⟨failures, heq⟩ := countFailure_eq success p
    rw [heq]
    exact ⟨[], by simp, by simp, fun _ => rfl, nofun⟩

/-- A submission keeps its number; the number of a new one is new. -/
theorem SubmitStep.numbers (hstep : SubmitStep p p') :
    (p'.numbers = p.nextSubmission :: p.numbers ∧ p'.nextSubmission = p.nextSubmission + 1) ∨
      (p'.numbers.Subperm p.numbers ∧ p'.nextSubmission = p.nextSubmission) := by
  have hsub {l l' : List Submission} (h : l'.Subperm l) :
      (l'.map Submission.number).Subperm (l.map Submission.number) := by
    obtain ⟨_, hperm, hsublist⟩ := h
    exact ⟨_, hperm.map _, hsublist.map _⟩
  cases hstep with
  | submit event => exact .inl ⟨rfl, rfl⟩
  | trySubmit event => exact .inl ⟨rfl, rfl⟩
  | test hsubmitters =>
    refine .inr ⟨hsub (List.Sublist.subperm ?_), rfl⟩
    rw [hsubmitters]
    split
    · simp only [List.filterMap_append, List.filterMap_cons, Submitter.pending]
      exact List.Sublist.refl _
    · simp only [List.filterMap_append, List.filterMap_cons, Submitter.pending]
      exact ((List.sublist_cons_self _ _).append_left _).append_right _
  | @enqueue submission before after success q hsubmitters hqueue =>
    refine .inr ⟨hsub ?_, rfl⟩
    rw [hsubmitters]
    simp only [List.filterMap_append, List.filterMap_cons, Submitter.pending]
    split
    · refine List.Perm.subperm ?_
      rw [← List.append_assoc]
      refine List.perm_append_comm.trans (List.Perm.trans ?_ (List.perm_middle.symm.append_right _))
      exact List.Perm.refl _
    · exact (((List.sublist_cons_self _ _).append_left _).append_right _).subperm
  | @ret submission before after success hsubmitters =>
    obtain ⟨failures, heq⟩ := countFailure_eq success p
    refine .inr ⟨hsub ?_, by rw [heq]⟩
    rw [hsubmitters, heq]
    simp only [List.filterMap_append, List.filterMap_cons, Submitter.pending]
    exact List.Subperm.refl _

theorem SubmitStep.conserved (hstep : SubmitStep p p') (h : p.Conserved) : p'.Conserved := by
  obtain ⟨hcount, hcallback', hrunning, hcontrol, hworkers, hdelivered⟩ := hstep.frame
  obtain ⟨added, haccepted, hqueues, -, -⟩ := hstep.move
  have hnumbers : p'.numbers.Nodup ∧ ∀ n ∈ p'.numbers, n < p'.nextSubmission := by
    rcases hstep.numbers with ⟨hnew, hnext⟩ | ⟨⟨_, hperm, hsub⟩, hnext⟩
    · rw [hnew, hnext]
      refine ⟨List.nodup_cons.mpr ⟨fun hmem => Nat.lt_irrefl _ (h.old _ hmem), h.nodup⟩, ?_⟩
      refine List.forall_mem_cons.mpr ⟨Nat.lt_succ_self _, fun n hn => ?_⟩
      exact Nat.lt_succ_of_lt (h.old n hn)
    · rw [hnext]
      exact ⟨hperm.nodup_iff.mp (h.nodup.sublist hsub), fun n hn =>
        h.old n (hsub.subset (hperm.mem_iff.mpr hn))⟩
  refine ⟨Step.staffed (.submitter hstep) h.staffed, ?_, ?_, ?_, hnumbers.1, hnumbers.2⟩
  · intro hcallback i
    rw [hcallback'] at hcallback
    rw [line, hdelivered, hcount, hworkers, hqueues, haccepted, List.filter_append,
      ← h.lines hcallback i, line, List.append_assoc _ (p.eventQueues i).queue]
  · rw [hcallback', hdelivered]
    exact h.silent
  · rw [hdelivered, hcount]
    exact h.own

/-- The owner only touches threads with nothing in their hands. -/
theorem ControlStep.move (hstep : ControlStep p p') (h : p.Staffed) :
    (∀ i, (p'.eventQueues i).queue = (p.eventQueues i).queue) ∧
      (∀ i, (p'.workers i).held = (p.workers i).held) ∧
      ∀ i, (p.eventQueues i).isStopped = true → (p'.eventQueues i).isStopped = true := by
  have hset {j : ℕ} {phase : WorkerPhase} (hphase : phase.held = [])
      (hheld : (p.workers j).held = []) (i : ℕ) :
      ((p.setWorker j phase).workers i).held = (p.workers i).held := by
    by_cases hi : i = j
    · rw [hi, setWorker_self, hphase, hheld]
    · rw [setWorker_ne hi]
  cases hstep with
  | @create created hcontrol hcreated =>
    refine ⟨fun _ => rfl, hset rfl ?_, fun _ hstopped => hstopped⟩
    obtain ⟨lo, hi, -, -, hstaff, hfits⟩ := h
    rw [hcontrol] at hfits
    obtain ⟨-, rfl, rfl⟩ := hfits
    have hlate : ¬(0 ≤ hi ∧ hi < hi) := fun hlt => Nat.lt_irrefl _ hlt.2
    have habsent := not_ne_iff.mp fun hpresent => hlate ((hstaff hi).mp hpresent)
    exact congrArg WorkerPhase.held habsent
  | joinFailed hcontrol hworker =>
    exact ⟨fun _ => rfl, hset rfl (congrArg WorkerPhase.held hworker), fun _ hstopped => hstopped⟩
  | join hcontrol hjoined hworker =>
    exact ⟨fun _ => rfl, hset rfl (congrArg WorkerPhase.held hworker), fun _ hstopped => hstopped⟩
  | @notifyStop notified hcontrol hnotified =>
    refine ⟨fun i => ?_, fun _ => rfl, fun i hstopped => ?_⟩
    · by_cases hi : i = notified
      · rw [hi]
        exact (congrArg ConcurrentQueue.queue setQueue_self).trans rfl
      · exact congrArg ConcurrentQueue.queue (setQueue_ne hi)
    · by_cases hi : i = notified
      · rw [hi]
        exact congrArg ConcurrentQueue.isStopped setQueue_self
      · exact (congrArg ConcurrentQueue.isStopped (setQueue_ne hi)).trans hstopped
  | _ => exact ⟨fun _ => rfl, fun _ => rfl, fun _ hstopped => hstopped⟩

theorem ControlStep.conserved (hstep : ControlStep p p') (h : p.Conserved) : p'.Conserved := by
  obtain ⟨hcount, hcallback', haccepted, hdelivered, hsubmitted, hsubmitters, hnext⟩ := hstep.frame
  obtain ⟨hqueues, hheld, -⟩ := hstep.move h.staffed
  have hnumbers : p'.numbers = p.numbers := by rw [numbers, numbers, hsubmitters, haccepted]
  refine ⟨hstep.staffed h.staffed, ?_, ?_, ?_, hnumbers ▸ h.nodup, ?_⟩
  · intro hcallback i
    rw [hcallback'] at hcallback
    rw [line, hdelivered, hcount, hheld, hqueues, haccepted, ← h.lines hcallback i, line]
  · rw [hcallback', hdelivered]
    exact h.silent
  · rw [hdelivered, hcount]
    exact h.own
  · rw [hnumbers, hnext]
    exact h.old

theorem Step.conserved (hstep : Step p p') (h : p.Conserved) : p'.Conserved := by
  cases hstep with
  | worker i hstep => exact hstep.conserved h
  | submitter hstep => exact hstep.conserved h
  | control hstep => exact hstep.conserved h

theorem Step.hasCallback (hstep : Step p p') : p'.hasCallback = p.hasCallback := by
  cases hstep with
  | worker i hstep => exact hstep.frame.2.1
  | submitter hstep => exact hstep.frame.2.1
  | control hstep => exact hstep.frame.2.1

theorem construct_conserved (workerCount maxQueueSize : ℕ) (hasCallback : Bool) :
    (construct workerCount maxQueueSize hasCallback).Conserved where
  staffed := by
    refine ⟨0, 0, Nat.le_refl 0, Nat.zero_le _, fun i => ?_, rfl, rfl⟩
    exact iff_of_false (fun hpresent => hpresent rfl) (by omega)
  lines _ _ := rfl
  silent _ := rfl
  own := nofun
  nodup := List.nodup_nil
  old := nofun

theorem workerPools_conserved {workerCount maxQueueSize : ℕ} {hasCallback : Bool}
    {states : List WorkerPool}
    (hrun : (workerPools workerCount maxQueueSize hasCallback).Run states) :
    ∀ p ∈ states, p.Conserved := by
  refine hrun.invariant ?_ fun p p' h (hstep : Step p p') => hstep.conserved h
  rintro p rfl
  exact construct_conserved workerCount maxQueueSize hasCallback

/-- The events that a worker has passed to the callback are the first of those accepted for
it. -/
theorem Conserved.takenFirst (h : p.Conserved) (i : ℕ) :
    (p.delivered.map Prod.snd).filter (Submission.isFor p.workerCount i) <+:
      p.accepted.filter (Submission.isFor p.workerCount i) := by
  cases hcallback : p.hasCallback with
  | true =>
    rw [← h.lines hcallback i, line, List.append_assoc]
    exact List.prefix_append _ _
  | false =>
    rw [h.silent hcallback]
    exact List.nil_prefix

theorem Conserved.accepted_nodup (h : p.Conserved) :
    (p.accepted.map Submission.number).Nodup := by
  have hnodup := h.nodup
  rw [numbers, List.map_append] at hnodup
  exact hnodup.of_append_right

theorem Conserved.delivered_nodup (h : p.Conserved) : (p.delivered.map Prod.snd).Nodup := by
  refine List.nodup_iff_count_le_one.mpr fun submission => ?_
  have hfor : Submission.isFor p.workerCount (submission.worker p.workerCount) submission = true :=
    decide_eq_true rfl
  rw [← List.count_filter hfor]
  have hsub := (h.takenFirst (submission.worker p.workerCount)).sublist.trans List.filter_sublist
  exact Nat.le_trans (hsub.count_le _) (List.nodup_iff_count_le_one.mp h.accepted_nodup.of_map _)

/-! ## The order of each connection -/

end WorkerPool

/-- For every connection, the events passed to the callback are the first of those accepted, in
the same order; none is passed twice; and one worker passes them all. -/
theorem worker_pool_keeps_order {workerCount maxQueueSize : ℕ} {hasCallback : Bool}
    {states : List WorkerPool}
    (hrun : (workerPools workerCount maxQueueSize hasCallback).Run states) :
    ∀ p ∈ states, ∀ id : UInt64,
      ((p.delivered.map Prod.snd).filter fun submission =>
        submission.event.connectionId = id) <+:
        (p.accepted.filter fun submission => submission.event.connectionId = id) ∧
      (p.accepted.map Submission.number).Nodup ∧ (p.delivered.map Prod.snd).Nodup ∧
      ∀ d ∈ p.delivered, d.2.event.connectionId = id → d.1 = id.toNat % p.workerCount := by
  intro p hp id
  have h := WorkerPool.workerPools_conserved hrun p hp
  refine ⟨?_, h.accepted_nodup, h.delivered_nodup, fun d hd hid => ?_⟩
  · have hprefix := (h.takenFirst (id.toNat % p.workerCount)).filter fun submission =>
      submission.event.connectionId = id
    have hboth (l : List Submission) :
        ((l.filter (Submission.isFor p.workerCount (id.toNat % p.workerCount))).filter
          fun submission => submission.event.connectionId = id) =
          l.filter fun submission => submission.event.connectionId = id := by
      rw [List.filter_filter]
      refine List.filter_congr fun submission _ => ?_
      by_cases hid : submission.event.connectionId = id
      · simp [Submission.isFor, Submission.worker, hid]
      · simp [hid]
    rw [hboth, hboth] at hprefix
    exact hprefix
  · rw [← h.own d hd, Submission.worker, hid]

def sampleSubmission : Submission :=
  ⟨0, .data 7 [1], false⟩

/-- Of two workers one passes on an event of connection 8 between the two events of connection 7,
which the other one passes on. -/
theorem WorkerPool.delivered_run : ∃ p past, (workerPools 2 0 true).Run (p :: past) ∧
    p.delivered = [(1, sampleSubmission), (0, ⟨1, .data 8 [2], true⟩),
      (1, ⟨2, .data 7 [3], false⟩)] ∧
      p.accepted =
        [sampleSubmission, ⟨1, .data 8 [2], true⟩, ⟨2, .data 7 [3], false⟩,
          ⟨3, .data 7 [4], true⟩] := by
  have hstart : (workerPools 2 0 true).Run [construct 2 0 true] := .start rfl
  have hstarted := hstart.next (.control (.start rfl rfl))
  have hcreated := hstarted.next (.control (.create rfl Nat.two_pos))
  have hboth := hcreated.next (.control (.create rfl Nat.one_lt_two))
  have hready := hboth.next (.control (.started rfl))
  have hsubmit := hready.next (.submitter (.submit (.data 7 [1])))
  have htested := hsubmit.next (.submitter (.test (List.nil_append _).symm))
  have hfirst := htested.next (.submitter (.enqueue (List.nil_append _).symm rfl))
  have hother := hfirst.next (.submitter (.trySubmit (.data 8 [2])))
  have hsecond := hother.next (.submitter (.enqueue (List.nil_append _).symm rfl))
  have hagain := hsecond.next (.submitter (.submit (.data 7 [3])))
  have htested := hagain.next (.submitter (.test (List.nil_append _).symm))
  have hthird := htested.next (.submitter (.enqueue (List.nil_append _).symm rfl))
  have hlast := hthird.next (.submitter (.trySubmit (.data 7 [4])))
  have hfourth := hlast.next (.submitter (.enqueue (List.nil_append _).symm rfl))
  -- both workers hold an event when the first one is passed on
  have hwait := hfourth.next (.worker 1 (.test rfl))
  have htaken : (workerPools 2 0 true).Run (_ :: _) :=
    hwait.next (.worker 1 (.waitDequeue (show _ = WorkerPhase.waiting from rfl)
      (show ConcurrentQueue.waitDequeue false _ = _ from rfl)))
  have hwait := htaken.next (.worker 0 (.test rfl))
  have htaken : (workerPools 2 0 true).Run (_ :: _) :=
    hwait.next (.worker 0 (.waitDequeue (show _ = WorkerPhase.waiting from rfl)
      (show ConcurrentQueue.waitDequeue false _ = _ from rfl)))
  have hcalled := htaken.next (.worker 1 (.call rfl))
  have hcalled := hcalled.next (.worker 0 (.call rfl))
  have hwait := hcalled.next (.worker 1 (.test rfl))
  have htaken : (workerPools 2 0 true).Run (_ :: _) :=
    hwait.next (.worker 1 (.waitDequeue (show _ = WorkerPhase.waiting from rfl)
      (show ConcurrentQueue.waitDequeue false _ = _ from rfl)))
  have hcalled := htaken.next (.worker 1 (.call rfl))
  exact ⟨_, _, hcalled, rfl, rfl⟩

/-- The first two of three events of a connection, beside one of another. -/
theorem worker_pool_keeps_order_two :
    ∃ p : WorkerPool, p.delivered =
        [(1, sampleSubmission), (0, ⟨1, .data 8 [2], true⟩), (1, ⟨2, .data 7 [3], false⟩)] ∧
      [sampleSubmission, ⟨2, .data 7 [3], false⟩] <+: p.accepted.filter fun submission =>
        submission.event.connectionId = 7 := by
  obtain ⟨p, past, hrun, hdelivered, -⟩ := WorkerPool.delivered_run
  have horder := (worker_pool_keeps_order hrun p List.mem_cons_self 7).1
  rw [hdelivered] at horder
  exact ⟨p, hdelivered, horder⟩

end DarwinCore.Network
