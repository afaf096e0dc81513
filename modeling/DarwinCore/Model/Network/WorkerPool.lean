import DarwinCore.Model.Network.ConcurrentQueue
import DarwinCore.Model.Network.Kernel
import Mathlib.Logic.Function.Basic

/-! # `WorkerPool`

The workers with their queues, the threads that submit events, and the owner of the pool, who
calls `Start` and `Stop` one after another. A thread that waits on a condition variable of a
queue may go on whenever the queue lets it: it can be woken at any time. -/

namespace DarwinCore.Network

/-! ## Threads -/

/-- An event on its way. The number tells submissions of equal events apart. -/
structure Submission where
  number : ℕ
  event : NetworkEvent
  /-- By `TrySubmitEvent`. -/
  tried : Bool
  deriving DecidableEq, Repr

/-- The worker that an event is for, out of `workerCount`. -/
def Submission.worker (workerCount : ℕ) (submission : Submission) : ℕ :=
  submission.event.connectionId.toNat % workerCount

/-- Where a thread is that submits an event. -/
inductive Submitter where
  /-- In `SubmitEvent`, at the test of `is_running_`. -/
  | testing (submission : Submission)
  /-- In `Enqueue` or `TryEnqueue`. -/
  | enqueueing (submission : Submission)
  | returning (submission : Submission) (success : Bool)
  deriving DecidableEq, Repr

/-- Where `WorkerLoop` is. -/
inductive WorkerPhase where
  /-- There is no thread. -/
  | absent
  /-- At the test of `is_running_`. -/
  | testing
  /-- In `WaitDequeue`. -/
  | waiting
  /-- At the call of `event_callback_`. -/
  | calling (submission : Submission)
  /-- At `TryDequeue`, after the loop. -/
  | draining
  /-- At the call of `event_callback_` for an event that was left. -/
  | callingRemaining (submission : Submission)
  | exited
  deriving DecidableEq, Repr

/-- Where the owner of the pool is. -/
inductive PoolControl where
  /-- Nothing has been started, or `Start` has failed. -/
  | idle
  /-- In `Start`, with so many threads created. -/
  | starting (created : ℕ)
  /-- In `Start` after an exception, with so many threads joined. -/
  | failing (joined : ℕ)
  /-- `Start` has succeeded. -/
  | started
  /-- In `Stop`, with so many queues stopped. -/
  | notifying (notified : ℕ)
  /-- In `Stop`, with so many threads joined. -/
  | joining (joined : ℕ)
  /-- `Stop` has returned. -/
  | stopped
  deriving DecidableEq, Repr

/-- The owner is in neither of the two functions. -/
def PoolControl.isOutside : PoolControl → Bool
  | idle => true
  | started => true
  | stopped => true
  | _ => false

/-! ## The pool -/

def kDefaultWorkerCount : ℕ := 4

/-- `WorkerPool`, with the events that its queues have accepted, those that it has passed to the
callback with the worker that did so, and those whose submission has returned true. -/
structure WorkerPool where
  workerCount : ℕ
  hasCallback : Bool
  eventQueues : ℕ → ConcurrentQueue Submission
  isRunning : Bool := false
  submitFailures : ℕ := 0
  workers : ℕ → WorkerPhase := fun _ => .absent
  submitters : List Submitter := []
  control : PoolControl := .idle
  /-- The number of the next submission. -/
  nextSubmission : ℕ := 0
  accepted : List Submission := []
  delivered : List (ℕ × Submission) := []
  submitted : List Submission := []

namespace WorkerPool

/-- The constructor, and `SetEventCallback` if there is a callback. -/
def construct (workerCount maxQueueSize : ℕ) (hasCallback : Bool) : WorkerPool :=
  { workerCount := if workerCount = 0 then kDefaultWorkerCount else workerCount
    hasCallback := hasCallback
    eventQueues := fun _ => { maxSize := maxQueueSize } }

/-- `Enqueue` or `TryEnqueue`, as the event was submitted. -/
def enqueue (submission : Submission) (q : ConcurrentQueue Submission) :
    Option (Bool × ConcurrentQueue Submission) :=
  if submission.tried then some (q.tryEnqueue submission) else q.enqueue submission

def setQueue (p : WorkerPool) (i : ℕ) (q : ConcurrentQueue Submission) : WorkerPool :=
  { p with eventQueues := Function.update p.eventQueues i q }

def setWorker (p : WorkerPool) (i : ℕ) (phase : WorkerPhase) : WorkerPool :=
  { p with workers := Function.update p.workers i phase }

/-- What the worker does with an event. -/
def handle (p : WorkerPool) (i : ℕ) (submission : Submission) : WorkerPool :=
  if p.hasCallback then { p with delivered := p.delivered ++ [(i, submission)] } else p

/-- `submit_failures_` after a submission. -/
def countFailure (success : Bool) (p : WorkerPool) : WorkerPool :=
  if success then p else { p with submitFailures := p.submitFailures + 1 }

end WorkerPool

/-- Where the worker goes on after `WaitDequeue`. -/
def WorkerPhase.afterWait : Option Submission → WorkerPhase
  | none => testing
  | some submission => calling submission

/-- Where the worker goes on after `TryDequeue`. -/
def WorkerPhase.afterTry : Option Submission → WorkerPhase
  | none => exited
  | some submission => callingRemaining submission

/-- The steps of the worker with index `i`. -/
inductive WorkerPool.WorkerStep (i : ℕ) : WorkerPool → WorkerPool → Prop where
  | test {p : WorkerPool} (h : p.workers i = .testing) :
      WorkerStep i p (p.setWorker i (if p.isRunning then .waiting else .draining))
  | waitDequeue {p : WorkerPool} {timedOut : Bool} {result : Option Submission}
      {q : ConcurrentQueue Submission} (h : p.workers i = .waiting)
      (hqueue : (p.eventQueues i).waitDequeue timedOut = some (result, q)) :
      WorkerStep i p ((p.setQueue i q).setWorker i (.afterWait result))
  | call {p : WorkerPool} {submission : Submission} (h : p.workers i = .calling submission) :
      WorkerStep i p ((p.handle i submission).setWorker i .testing)
  | tryDequeue {p : WorkerPool} {result : Option Submission} {q : ConcurrentQueue Submission}
      (h : p.workers i = .draining) (hqueue : (p.eventQueues i).tryDequeue = (result, q)) :
      WorkerStep i p ((p.setQueue i q).setWorker i (.afterTry result))
  | callRemaining {p : WorkerPool} {submission : Submission}
      (h : p.workers i = .callingRemaining submission) :
      WorkerStep i p ((p.handle i submission).setWorker i .draining)

/-- The steps of the threads that submit events. -/
inductive WorkerPool.SubmitStep : WorkerPool → WorkerPool → Prop where
  | submit {p : WorkerPool} (event : NetworkEvent) :
      SubmitStep p { p with
        submitters := .testing ⟨p.nextSubmission, event, false⟩ :: p.submitters
        nextSubmission := p.nextSubmission + 1 }
  | trySubmit {p : WorkerPool} (event : NetworkEvent) :
      SubmitStep p { p with
        submitters := .enqueueing ⟨p.nextSubmission, event, true⟩ :: p.submitters
        nextSubmission := p.nextSubmission + 1 }
  | test {p : WorkerPool} {submission : Submission} {before after : List Submitter}
      (hsubmitters : p.submitters = before ++ .testing submission :: after) :
      SubmitStep p { p with
        submitters := before ++
          (if p.isRunning then .enqueueing submission else .returning submission false) :: after }
  | enqueue {p : WorkerPool} {submission : Submission} {before after : List Submitter}
      {success : Bool} {q : ConcurrentQueue Submission}
      (hsubmitters : p.submitters = before ++ .enqueueing submission :: after)
      (h : enqueue submission (p.eventQueues (submission.worker p.workerCount)) =
        some (success, q)) :
      SubmitStep p { p.setQueue (submission.worker p.workerCount) q with
        submitters := before ++ .returning submission success :: after
        accepted := if success then p.accepted ++ [submission] else p.accepted }
  | ret {p : WorkerPool} {submission : Submission} {before after : List Submitter}
      {success : Bool}
      (hsubmitters : p.submitters = before ++ .returning submission success :: after) :
      SubmitStep p { p.countFailure success with
        submitters := before ++ after
        submitted := if success then p.submitted ++ [submission] else p.submitted }

/-- The steps of the owner. -/
inductive WorkerPool.ControlStep : WorkerPool → WorkerPool → Prop where
  | start {p : WorkerPool} (hcontrol : p.control.isOutside) (h : p.isRunning = false) :
      ControlStep p { p with isRunning := true, control := .starting 0 }
  | create {p : WorkerPool} {created : ℕ} (hcontrol : p.control = .starting created)
      (h : created < p.workerCount) :
      ControlStep p { p.setWorker created .testing with control := .starting (created + 1) }
  | started {p : WorkerPool} (hcontrol : p.control = .starting p.workerCount) :
      ControlStep p { p with control := .started }
  /-- A thread cannot be created. -/
  | throw {p : WorkerPool} {created : ℕ} (hcontrol : p.control = .starting created)
      (h : created < p.workerCount) :
      ControlStep p { p with isRunning := false, control := .failing 0 }
  | joinFailed {p : WorkerPool} {joined : ℕ} (hcontrol : p.control = .failing joined)
      (h : p.workers joined = .exited) :
      ControlStep p { p.setWorker joined .absent with control := .failing (joined + 1) }
  | failed {p : WorkerPool} {joined : ℕ} (hcontrol : p.control = .failing joined)
      (h : p.workers joined = .absent) : ControlStep p { p with control := .idle }
  | stop {p : WorkerPool} (hcontrol : p.control.isOutside) (h : p.isRunning = true) :
      ControlStep p { p with isRunning := false, control := .notifying 0 }
  | notifyStop {p : WorkerPool} {notified : ℕ} (hcontrol : p.control = .notifying notified)
      (h : notified < p.workerCount) :
      ControlStep p { p.setQueue notified (p.eventQueues notified).notifyStop with
        control := .notifying (notified + 1) }
  | notified {p : WorkerPool} (hcontrol : p.control = .notifying p.workerCount) :
      ControlStep p { p with control := .joining 0 }
  | join {p : WorkerPool} {joined : ℕ} (hcontrol : p.control = .joining joined)
      (h : joined < p.workerCount) (hworker : p.workers joined = .exited) :
      ControlStep p { p.setWorker joined .absent with control := .joining (joined + 1) }
  | stopped {p : WorkerPool} (hcontrol : p.control = .joining p.workerCount) :
      ControlStep p { p with control := .stopped }

inductive WorkerPool.Step (p p' : WorkerPool) : Prop where
  | worker (i : ℕ) (h : WorkerStep i p p')
  | submitter (h : SubmitStep p p')
  | control (h : ControlStep p p')

/-- The runs of a pool from its construction on. -/
def workerPools (workerCount maxQueueSize : ℕ) (hasCallback : Bool) :
    TransitionSystem WorkerPool where
  init p := p = .construct workerCount maxQueueSize hasCallback
  step := WorkerPool.Step

end DarwinCore.Network
