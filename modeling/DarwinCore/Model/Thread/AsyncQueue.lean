import DarwinCore.Library.Locks
import DarwinCore.Library.TransitionSystem

/-! # `AsyncQueue`

The task queue from the end of its constructor on: the workers, any number of threads that call
`submit`, and one call of the destructor. A task may submit further tasks before it ends. Each
operation on the mutex or the condition variable is a step of its own; what a thread does with the
members while it holds the mutex is another. A thread that waits may wake up for no reason. -/

namespace DarwinCore.Thread

open Monitor

inductive QueueThread where
  | worker (i : ℕ)
  | submitter (i : ℕ)
  | destructor
  deriving DecidableEq

/-- A task, with the number of tasks that have been queued before it. -/
structure QueuedTask (τ : Type*) where
  number : ℕ
  task : τ

/-- The members, and the numbers of the tasks that have been queued, taken out, and called. -/
structure AsyncQueue (τ : Type*) where
  queueSize : ℕ
  isRunning : Bool := true
  taskQueue : List (QueuedTask τ) := []
  /-- The thread that holds `mQueueMutex`. -/
  mutex : Option QueueThread := none
  queued : ℕ := 0
  dequeued : List ℕ := []
  called : List ℕ := []

namespace AsyncQueue

variable {τ : Type*} (q : AsyncQueue τ)

def lock (me : QueueThread) : AsyncQueue τ :=
  { q with mutex := some me }

def unlock : AsyncQueue τ :=
  { q with mutex := none }

/-- `mTaskQueue.emplace`. -/
def emplace (task : τ) : AsyncQueue τ :=
  { q with taskQueue := q.taskQueue ++ [⟨q.queued, task⟩], queued := q.queued + 1 }

/-- `front` and `pop`, where `t` is the front and `rest` what is behind it. -/
def pop (t : QueuedTask τ) (rest : List (QueuedTask τ)) : AsyncQueue τ :=
  { q with taskQueue := rest, dequeued := q.dequeued ++ [t.number] }

/-- `task()`. -/
def call (t : QueuedTask τ) : AsyncQueue τ :=
  { q with called := q.called ++ [t.number] }

/-- What the workers wait for. -/
def Ready : Prop :=
  q.isRunning = false ∨ q.taskQueue ≠ []

end AsyncQueue

variable {τ : Type*}

/-! ## Where the threads are -/

/-- In `submit`. -/
inductive SubmitPhase (τ : Type*) where
  | entering (task : τ)
  /-- With the mutex, before the test of `isRunning`. -/
  | holding (task : τ)
  /-- With the mutex, after the task has been queued. -/
  | pushed
  /-- With the mutex, when the queue does not run any more. -/
  | refused
  /-- At `notify_one`. -/
  | notifying

/-- In the loop of a worker. -/
inductive WorkerPhase (τ : Type*) where
  | entering
  /-- With the mutex, before the test of the predicate. -/
  | testing
  /-- With the mutex, between the test and the wait. -/
  | blocking
  | waiting
  /-- Woken, and before it takes the mutex again. -/
  | woken
  /-- With the mutex, after the wait. -/
  | deciding
  /-- With the mutex, when there was no task. -/
  | leaving
  /-- With the mutex and a task. -/
  | taken (t : QueuedTask τ)
  /-- At the call of the task. -/
  | calling (t : QueuedTask τ)
  /-- In the task, and where that is in a call of `submit`. -/
  | executing (t : QueuedTask τ) (p : Option (SubmitPhase τ))
  | exited

def WorkerPhase.isWaiting (p : WorkerPhase τ) : Prop :=
  p = .waiting

/-- In the destructor. -/
inductive DestructorPhase where
  /-- Before the call. -/
  | alive
  | entering
  /-- With the mutex, before the store to `isRunning`. -/
  | holding
  /-- With the mutex, at `notify_one`. -/
  | stored
  /-- With the mutex, after it. -/
  | notified
  /-- At `notify_all`. -/
  | notifying
  /-- At the `join` of the next thread. -/
  | joining (joined : ℕ)
  | returned

/-- The queue with all threads. Workers are numbered below `queueSize`. -/
structure QueueSystem (τ : Type*) where
  queue : AsyncQueue τ
  workers : ℕ → WorkerPhase τ := fun _ => .entering
  submitters : ℕ → Option (SubmitPhase τ) := fun _ => none
  destructor : DestructorPhase := .alive

namespace QueueSystem

variable (s : QueueSystem τ)

def setQueue (q : AsyncQueue τ) : QueueSystem τ :=
  { s with queue := q }

def setWorker (i : ℕ) (p : WorkerPhase τ) : QueueSystem τ :=
  { s with workers := Function.update s.workers i p }

def setSubmitter (i : ℕ) (p : Option (SubmitPhase τ)) : QueueSystem τ :=
  { s with submitters := Function.update s.submitters i p }

def setWorkers (workers : ℕ → WorkerPhase τ) : QueueSystem τ :=
  { s with workers := workers }

/-- `notify_one`. -/
def Notifies (workers : ℕ → WorkerPhase τ) : Prop :=
  NotifyOne WorkerPhase.isWaiting (fun _ => .woken) s.workers workers

end QueueSystem

/-- What `notify_all` does to a worker. -/
def WorkerPhase.notified : WorkerPhase τ → WorkerPhase τ
  | waiting => woken
  | p => p

/-! ## Steps of one thread -/

/-- `submit` but for its notification; no phase is left when it returns. -/
inductive SubmitStep (me : QueueThread) (q : AsyncQueue τ) :
    SubmitPhase τ → AsyncQueue τ → Option (SubmitPhase τ) → Prop where
  | lock {task : τ} (h : q.mutex = none) :
      SubmitStep me q (.entering task) (q.lock me) (some (.holding task))
  | push {task : τ} (h : q.isRunning = true) :
      SubmitStep me q (.holding task) (q.emplace task) (some .pushed)
  | refuse {task : τ} (h : q.isRunning = false) :
      SubmitStep me q (.holding task) q (some .refused)
  | unlock : SubmitStep me q .pushed q.unlock (some .notifying)
  | ret : SubmitStep me q .refused q.unlock none

/-- The loop of worker `i` up to the call of a task. -/
inductive WorkerStep (i : ℕ) (q : AsyncQueue τ) :
    WorkerPhase τ → AsyncQueue τ → WorkerPhase τ → Prop where
  | lock (h : q.mutex = none) : WorkerStep i q .entering (q.lock (.worker i)) .testing
  | testTrue (h : q.Ready) : WorkerStep i q .testing q .deciding
  | testFalse (h : ¬q.Ready) : WorkerStep i q .testing q .blocking
  | wait : WorkerStep i q .blocking q.unlock .waiting
  | wake : WorkerStep i q .waiting q .woken
  | relock (h : q.mutex = none) : WorkerStep i q .woken (q.lock (.worker i)) .testing
  | ignore (h : q.taskQueue = []) : WorkerStep i q .deciding q .leaving
  | pop {t : QueuedTask τ} {rest : List (QueuedTask τ)} (h : q.taskQueue = t :: rest) :
      WorkerStep i q .deciding (q.pop t rest) (.taken t)
  | exit : WorkerStep i q .leaving q.unlock .exited
  | unlock {t : QueuedTask τ} : WorkerStep i q (.taken t) q.unlock (.calling t)
  | call {t : QueuedTask τ} : WorkerStep i q (.calling t) (q.call t) (.executing t none)

/-! ## Steps of the system -/

namespace QueueSystem

/-- What the queue does with the tasks it has been given. -/
inductive ServeStep : QueueSystem τ → QueueSystem τ → Prop where
  | work {s : QueueSystem τ} {i : ℕ} {q : AsyncQueue τ} {p : WorkerPhase τ}
      (hi : i < s.queue.queueSize) (hstep : WorkerStep i s.queue (s.workers i) q p) :
      ServeStep s ((s.setQueue q).setWorker i p)
  | submit {s : QueueSystem τ} {i : ℕ} {p : SubmitPhase τ} {q : AsyncQueue τ}
      {p' : Option (SubmitPhase τ)} (h : s.submitters i = some p)
      (hstep : SubmitStep (.submitter i) s.queue p q p') :
      ServeStep s ((s.setQueue q).setSubmitter i p')
  | notify {s : QueueSystem τ} {i : ℕ} {workers : ℕ → WorkerPhase τ}
      (h : s.submitters i = some .notifying) (hnotify : s.Notifies workers) :
      ServeStep s ((s.setWorkers workers).setSubmitter i none)

/-- What a task does that runs on a worker. -/
inductive TaskStep : QueueSystem τ → QueueSystem τ → Prop where
  | call {s : QueueSystem τ} {i : ℕ} {t : QueuedTask τ} (task : τ)
      (h : s.workers i = .executing t none) :
      TaskStep s (s.setWorker i (.executing t (some (.entering task))))
  | submit {s : QueueSystem τ} {i : ℕ} {t : QueuedTask τ} {p : SubmitPhase τ} {q : AsyncQueue τ}
      {p' : Option (SubmitPhase τ)} (h : s.workers i = .executing t (some p))
      (hstep : SubmitStep (.worker i) s.queue p q p') :
      TaskStep s ((s.setQueue q).setWorker i (.executing t p'))
  | notify {s : QueueSystem τ} {i : ℕ} {t : QueuedTask τ} {workers : ℕ → WorkerPhase τ}
      (h : s.workers i = .executing t (some .notifying)) (hnotify : s.Notifies workers) :
      TaskStep s ((s.setWorkers workers).setWorker i (.executing t none))
  | finish {s : QueueSystem τ} {i : ℕ} {t : QueuedTask τ} (h : s.workers i = .executing t none) :
      TaskStep s (s.setWorker i .entering)

/-- The destructor. -/
inductive DestroyStep : QueueSystem τ → QueueSystem τ → Prop where
  | call {s : QueueSystem τ} (h : s.destructor = .alive) :
      DestroyStep s { s with destructor := .entering }
  | lock {s : QueueSystem τ} (h : s.destructor = .entering) (hfree : s.queue.mutex = none) :
      DestroyStep s { s.setQueue (s.queue.lock .destructor) with destructor := .holding }
  | store {s : QueueSystem τ} (h : s.destructor = .holding) :
      DestroyStep s { s.setQueue { s.queue with isRunning := false } with destructor := .stored }
  | notifyOne {s : QueueSystem τ} {workers : ℕ → WorkerPhase τ} (h : s.destructor = .stored)
      (hnotify : s.Notifies workers) :
      DestroyStep s { s.setWorkers workers with destructor := .notified }
  | unlock {s : QueueSystem τ} (h : s.destructor = .notified) :
      DestroyStep s { s.setQueue s.queue.unlock with destructor := .notifying }
  | notifyAll {s : QueueSystem τ} (h : s.destructor = .notifying) :
      DestroyStep s { s.setWorkers (fun i => (s.workers i).notified) with
        destructor := .joining 0 }
  | join {s : QueueSystem τ} {joined : ℕ} (h : s.destructor = .joining joined)
      (hjoined : joined < s.queue.queueSize) (hworker : s.workers joined = .exited) :
      DestroyStep s { s with destructor := .joining (joined + 1) }
  | ret {s : QueueSystem τ} (h : s.destructor = .joining s.queue.queueSize) :
      DestroyStep s { s with destructor := .returned }

inductive Step : QueueSystem τ → QueueSystem τ → Prop where
  | callSubmit {s : QueueSystem τ} {i : ℕ} (task : τ) (h : s.submitters i = none) :
      Step s (s.setSubmitter i (some (.entering task)))
  | serve {s t : QueueSystem τ} (h : ServeStep s t) : Step s t
  | task {s t : QueueSystem τ} (h : TaskStep s t) : Step s t
  | destroy {s t : QueueSystem τ} (h : DestroyStep s t) : Step s t

end QueueSystem

/-- The runs of a queue with so many workers from the end of the constructor on. -/
def asyncQueues (τ : Type*) (queueSize : ℕ) : TransitionSystem (QueueSystem τ) where
  init s := s = { queue := { queueSize := queueSize } }
  step := QueueSystem.Step

end DarwinCore.Thread
