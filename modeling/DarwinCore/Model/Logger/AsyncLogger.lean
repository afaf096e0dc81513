import DarwinCore.Library.TransitionSystem
import Mathlib.Logic.Function.Basic

/-! # `AsyncLogger`

The logger from the end of `start` on: any number of threads that call `log` and `flush`, the
worker and one call of `stop`. Each access to `running_` and each operation on the mutex or a
condition variable is a step of its own; what a thread does with the queue while it holds the
mutex is another. A thread that waits on a condition variable may wake up for no reason. -/

namespace DarwinCore.Log

inductive LoggerThread where
  | worker
  | stopper
  | caller (i : ℕ)
deriving DecidableEq

/-- The members of the logger, with what its sink has been given. -/
structure AsyncLogger (α : Type*) where
  maxQueueSize : UInt64
  blockWhenFull : Bool
  running : Bool := true
  queue : List α := []
  /-- The thread that holds the mutex. -/
  mutex : Option LoggerThread := none
  droppedCount : ℕ := 0
  written : List α := []

namespace AsyncLogger

variable {α : Type*} (l : AsyncLogger α)

/-- `queue_.size() >= maxQueueSize_`. -/
def isFull : Prop :=
  l.maxQueueSize.toNat ≤ l.queue.length

instance : Decidable l.isFull :=
  inferInstanceAs (Decidable (_ ≤ _))

/-- The entries that the worker takes at once. -/
def batch : List α :=
  l.queue.take 100

def takeBatch : AsyncLogger α :=
  { l with queue := l.queue.drop 100 }

/-- `wasFull`, once the batch has been taken. -/
def wasFull : Bool :=
  (l.maxQueueSize - UInt64.ofNat l.batch.length).toNat ≤ l.takeBatch.queue.length

def push (entry : α) : AsyncLogger α :=
  { l with queue := l.queue ++ [entry] }

def lock (me : LoggerThread) : AsyncLogger α :=
  { l with mutex := some me }

def unlock : AsyncLogger α :=
  { l with mutex := none }

/-- `sink_->write`. -/
def write (entry : α) : AsyncLogger α :=
  { l with written := l.written ++ [entry] }

end AsyncLogger

variable {α : Type*}

/-! ## Where the threads are -/

/-- In `flush`. -/
inductive FlushPhase (α : Type*) where
  | entering
  /-- At the test of the loop, with the mutex. -/
  | holding
  /-- With the mutex and an entry from the queue. -/
  | popped (entry : α)
  | writing (entry : α)
  /-- After `sink_->flush`, with the mutex. -/
  | flushed

/-- In `log`. -/
inductive LogPhase (α : Type*) where
  /-- Before the test of `running_`. -/
  | starting (entry : α)
  /-- At the write of a logger that does not run. -/
  | direct (entry : α)
  | entering (entry : α)
  /-- With the mutex, before the test of the size. -/
  | holding (entry : α)
  /-- With the mutex, before the test of the predicate. -/
  | testing (entry : α)
  /-- With the mutex, between the test and the wait. -/
  | blocking (entry : α)
  /-- In the wait on `fullCondition_`. -/
  | waiting (entry : α)
  /-- Woken, and before it takes the mutex again. -/
  | woken (entry : α)
  /-- With the mutex, after the push. -/
  | pushed
  /-- At `condition_.notify_one`. -/
  | notifying
  /-- With the mutex, after an entry has been dropped. -/
  | dropped

/-- A thread that calls `log` and `flush`. -/
inductive CallPhase (α : Type*) where
  | idle
  | logging (p : LogPhase α)
  | flushing (p : FlushPhase α)

/-- In `stop`. -/
inductive StopPhase (α : Type*) where
  /-- Before the test of `running_`. -/
  | starting
  /-- At the store to `running_`. -/
  | storing
  /-- At `condition_.notify_one`. -/
  | notifying
  | joining
  | flushing (p : FlushPhase α)
  | returned

/-- In `workerLoop`. -/
inductive WorkerPhase (α : Type*) where
  /-- At the test of `running_` in the loop. -/
  | looping
  /-- At the test of the queue in the loop. -/
  | checking
  | entering
  /-- With the mutex, before the test of the predicate. -/
  | testing
  /-- With the mutex, between the test and the wait. -/
  | blocking
  /-- In the wait on `condition_`. -/
  | waiting
  /-- Woken, and before it takes the mutex again. -/
  | woken
  /-- With the mutex, before it takes a batch. -/
  | taking
  /-- With the mutex and a batch. -/
  | taken (batch : List α) (wasFull : Bool)
  /-- At `fullCondition_.notify_all`. -/
  | notifying (batch : List α)
  | writing (batch : List α)
  | exited

/-- What a notification on `fullCondition_` does to a thread. -/
def CallPhase.notified : CallPhase α → CallPhase α
  | logging (.waiting entry) => logging (.woken entry)
  | p => p

/-- What a notification on `condition_` does to the worker. -/
def WorkerPhase.notified : WorkerPhase α → WorkerPhase α
  | waiting => woken
  | p => p

/-! ## Steps of one thread -/

/-- `flush`; no phase is left when it returns. -/
inductive FlushStep (me : LoggerThread) (l : AsyncLogger α) :
    FlushPhase α → AsyncLogger α → Option (FlushPhase α) → Prop where
  | lock (h : l.mutex = none) : FlushStep me l .entering (l.lock me) (some .holding)
  | pop {entry : α} {rest : List α} (h : l.queue = entry :: rest) :
      FlushStep me l .holding { l with queue := rest } (some (.popped entry))
  | unlock {entry : α} : FlushStep me l (.popped entry) l.unlock (some (.writing entry))
  | write {entry : α} : FlushStep me l (.writing entry) (l.write entry) (some .entering)
  | finish (h : l.queue = []) : FlushStep me l .holding l (some .flushed)
  | ret : FlushStep me l .flushed l.unlock none

/-- `log` but for its notification. -/
inductive LogStep (me : LoggerThread) (l : AsyncLogger α) :
    LogPhase α → AsyncLogger α → Option (LogPhase α) → Prop where
  | notRunning {entry : α} (h : l.running = false) :
      LogStep me l (.starting entry) l (some (.direct entry))
  | direct {entry : α} : LogStep me l (.direct entry) (l.write entry) none
  | running {entry : α} (h : l.running = true) :
      LogStep me l (.starting entry) l (some (.entering entry))
  | lock {entry : α} (h : l.mutex = none) :
      LogStep me l (.entering entry) (l.lock me) (some (.holding entry))
  | room {entry : α} (h : ¬l.isFull) :
      LogStep me l (.holding entry) (l.push entry) (some .pushed)
  | full {entry : α} (h : l.isFull) (hblock : l.blockWhenFull = true) :
      LogStep me l (.holding entry) l (some (.testing entry))
  | drop {entry : α} (h : l.isFull) (hblock : l.blockWhenFull = false) :
      LogStep me l (.holding entry) { l with droppedCount := l.droppedCount + 1 } (some .dropped)
  | testTrue {entry : α} (h : ¬l.isFull) :
      LogStep me l (.testing entry) (l.push entry) (some .pushed)
  | testFalse {entry : α} (h : l.isFull) :
      LogStep me l (.testing entry) l (some (.blocking entry))
  | wait {entry : α} : LogStep me l (.blocking entry) l.unlock (some (.waiting entry))
  | wake {entry : α} : LogStep me l (.waiting entry) l (some (.woken entry))
  | relock {entry : α} (h : l.mutex = none) :
      LogStep me l (.woken entry) (l.lock me) (some (.testing entry))
  | unlock : LogStep me l .pushed l.unlock (some .notifying)
  | ret : LogStep me l .dropped l.unlock none

/-- `workerLoop` but for its notification. -/
inductive WorkerStep (l : AsyncLogger α) :
    WorkerPhase α → AsyncLogger α → WorkerPhase α → Prop where
  | running (h : l.running = true) : WorkerStep l .looping l .entering
  | notRunning (h : l.running = false) : WorkerStep l .looping l .checking
  | more (h : l.queue ≠ []) : WorkerStep l .checking l .entering
  | exit (h : l.queue = []) : WorkerStep l .checking l .exited
  | lock (h : l.mutex = none) : WorkerStep l .entering (l.lock .worker) .testing
  | testTrue (h : l.queue ≠ [] ∨ l.running = false) : WorkerStep l .testing l .taking
  | testFalse (h : l.queue = []) (hrunning : l.running = true) : WorkerStep l .testing l .blocking
  | wait : WorkerStep l .blocking l.unlock .waiting
  | wake : WorkerStep l .waiting l .woken
  | relock (h : l.mutex = none) : WorkerStep l .woken (l.lock .worker) .testing
  | take : WorkerStep l .taking l.takeBatch (.taken l.batch l.wasFull)
  | unlockFull {batch : List α} : WorkerStep l (.taken batch true) l.unlock (.notifying batch)
  | unlock {batch : List α} : WorkerStep l (.taken batch false) l.unlock (.writing batch)
  | write {entry : α} {batch : List α} :
      WorkerStep l (.writing (entry :: batch)) (l.write entry) (.writing batch)
  | done : WorkerStep l (.writing []) l .looping

/-! ## The system -/

structure LoggerSystem (α : Type*) where
  logger : AsyncLogger α
  worker : WorkerPhase α := .looping
  stopper : StopPhase α := .starting
  callers : ℕ → CallPhase α := fun _ => .idle

/-- Where a caller is after a step of `log`. -/
def CallPhase.ofLog : Option (LogPhase α) → CallPhase α
  | some p => logging p
  | none => idle

/-- Where a caller is after a step of `flush`. -/
def CallPhase.ofFlush : Option (FlushPhase α) → CallPhase α
  | some p => flushing p
  | none => idle

/-- Where `stop` is after a step of its `flush`. -/
def StopPhase.ofFlush : Option (FlushPhase α) → StopPhase α
  | some p => flushing p
  | none => returned

namespace LoggerSystem

variable (s : LoggerSystem α)

def setCaller (i : ℕ) (p : CallPhase α) : LoggerSystem α :=
  { s with callers := Function.update s.callers i p }

def setLogger (l : AsyncLogger α) : LoggerSystem α :=
  { s with logger := l }

inductive Step : LoggerSystem α → LoggerSystem α → Prop where
  | callLog {s : LoggerSystem α} {i : ℕ} (entry : α) (h : s.callers i = .idle) :
      Step s (s.setCaller i (.logging (.starting entry)))
  | callFlush {s : LoggerSystem α} {i : ℕ} (h : s.callers i = .idle) :
      Step s (s.setCaller i (.flushing .entering))
  | log {s : LoggerSystem α} {i : ℕ} {p : LogPhase α} {l : AsyncLogger α}
      {p' : Option (LogPhase α)} (h : s.callers i = .logging p)
      (hstep : LogStep (.caller i) s.logger p l p') :
      Step s ((s.setLogger l).setCaller i (.ofLog p'))
  | logNotify {s : LoggerSystem α} {i : ℕ} (h : s.callers i = .logging .notifying) :
      Step s { s.setCaller i .idle with worker := s.worker.notified }
  | flush {s : LoggerSystem α} {i : ℕ} {p : FlushPhase α} {l : AsyncLogger α}
      {p' : Option (FlushPhase α)} (h : s.callers i = .flushing p)
      (hstep : FlushStep (.caller i) s.logger p l p') :
      Step s ((s.setLogger l).setCaller i (.ofFlush p'))
  | stop {s : LoggerSystem α} (h : s.stopper = .starting) :
      Step s { s with stopper := if s.logger.running then .storing else .returned }
  | stopStore {s : LoggerSystem α} (h : s.stopper = .storing) :
      Step s { s with logger := { s.logger with running := false }, stopper := .notifying }
  | stopNotify {s : LoggerSystem α} (h : s.stopper = .notifying) :
      Step s { s with worker := s.worker.notified, stopper := .joining }
  | stopJoin {s : LoggerSystem α} (h : s.stopper = .joining) (hworker : s.worker = .exited) :
      Step s { s with stopper := .flushing .entering }
  | stopFlush {s : LoggerSystem α} {p : FlushPhase α} {l : AsyncLogger α}
      {p' : Option (FlushPhase α)} (h : s.stopper = .flushing p)
      (hstep : FlushStep .stopper s.logger p l p') :
      Step s { s.setLogger l with stopper := .ofFlush p' }
  | work {s : LoggerSystem α} {l : AsyncLogger α} {p : WorkerPhase α}
      (hstep : WorkerStep s.logger s.worker l p) : Step s { s.setLogger l with worker := p }
  | workNotify {s : LoggerSystem α} {batch : List α} (h : s.worker = .notifying batch) :
      Step s { s with
        worker := .writing batch
        callers := fun i => (s.callers i).notified }

end LoggerSystem

/-- The runs of a logger from the end of `start` on. -/
def loggers (α : Type*) (maxQueueSize : UInt64) (blockWhenFull : Bool) :
    TransitionSystem (LoggerSystem α) where
  init s := s = { logger := { maxQueueSize := maxQueueSize, blockWhenFull := blockWhenFull } }
  step := LoggerSystem.Step

end DarwinCore.Log
