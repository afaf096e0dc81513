import DarwinCore.Library.Locks
import DarwinCore.Model.Network.ConcurrentQueue
import DarwinCore.Model.Network.Kernel
import Mathlib.Algebra.Ring.Nat

/-! # The threads at a `WorkerPool`

Threads that submit events to a pool one after another, and the workers of the pool, with their
waits on the condition variables of the queues. A thread that waits is woken by a notification, or
by the clock in `WaitDequeue`. That it may wake up for no reason is a kind of step of its own. What
`event_callback_` does is left to the user of the pool. -/

namespace DarwinCore.Network

/-! ## Where a thread is -/

/-- In `SubmitEvent`. -/
inductive SubmitPhase where
  /-- At the test of `is_running_`. -/
  | testing
  /-- In `Enqueue`, before it takes the mutex. -/
  | entering
  /-- In the wait on `not_full_`. -/
  | blocked
  /-- Woken, and before it takes the mutex again. -/
  | woken
  /-- At `not_empty_.notify_one`. -/
  | notifying
  deriving DecidableEq, Repr

/-- It is about to take the mutex. -/
def SubmitPhase.locks : SubmitPhase → Bool
  | entering => true
  | woken => true
  | _ => false

/-- The events that a thread has to submit. It is in `SubmitEvent` with the first one. -/
structure Dispatch where
  events : List NetworkEvent := []
  phase : SubmitPhase := .testing
  deriving DecidableEq, Repr

/-- In `WaitDequeue`. -/
inductive DequeuePhase where
  /-- Before it takes the mutex. -/
  | entering
  /-- In the wait on `not_empty_`. -/
  | blocked
  /-- Woken, and before it takes the mutex again. -/
  | woken (timedOut : Bool)
  deriving DecidableEq, Repr

/-- It is about to take the mutex. -/
def DequeuePhase.locks : DequeuePhase → Bool → Prop
  | entering, timedOut => timedOut = false
  | woken timedOut', timedOut => timedOut = timedOut'
  | blocked, _ => False

/-- In `WorkerLoop`; `γ` says where `event_callback_` is. -/
inductive WorkerPlace (γ : Type*) where
  /-- At the test of `is_running_`. -/
  | testing
  | waiting (phase : DequeuePhase)
  /-- In `event_callback_`, in the loop or after it. -/
  | calling (callback : γ) (remaining : Bool)
  /-- At `TryDequeue`, after the loop. -/
  | draining
  | exited
  deriving DecidableEq, Repr

/-- The worker that an event is for, out of `n`. -/
def NetworkEvent.worker (n : ℕ) [NeZero n] (event : NetworkEvent) : Fin n :=
  Fin.ofNat n event.connectionId.toNat

namespace Dispatch

variable {n : ℕ} [NeZero n]

/-- The worker whose queue the first event is for. -/
def target (n : ℕ) [NeZero n] (d : Dispatch) : Option (Fin n) :=
  d.events.head?.map (NetworkEvent.worker n)

/-- It waits on `not_full_` of the queue of `w`. -/
def isBlockedOn (w : Fin n) (d : Dispatch) : Bool :=
  d.phase = .blocked && d.target n = some w

/-- It has been woken in `Enqueue` of the queue of `w`. -/
def isWokenOn (w : Fin n) (d : Dispatch) : Bool :=
  d.phase = .woken && d.target n = some w

def wake (d : Dispatch) : Dispatch :=
  { d with phase := .woken }

end Dispatch

/-- `not_empty_.notify_one` and `not_empty_.notify_all`, where nobody but the worker waits. -/
def WorkerPlace.notify {γ : Type*} : WorkerPlace γ → WorkerPlace γ
  | waiting .blocked => waiting (.woken false)
  | place => place

/-! ## The pool -/

/-- `WorkerPool` with `n` workers, and the threads at it. -/
structure PoolThreads (ι : Type*) (n : ℕ) (γ : Type*) where
  isRunning : Bool := true
  eventQueues : Fin n → ConcurrentQueue NetworkEvent
  dispatches : ι → Dispatch := fun _ => {}
  workers : Fin n → WorkerPlace γ := fun _ => .testing

namespace PoolThreads

variable {ι γ : Type*} {n : ℕ} [DecidableEq ι]

def setQueue (w : Fin n) (q : ConcurrentQueue NetworkEvent) (p : PoolThreads ι n γ) :
    PoolThreads ι n γ :=
  { p with eventQueues := Function.update p.eventQueues w q }

def setDispatch (i : ι) (d : Dispatch) (p : PoolThreads ι n γ) : PoolThreads ι n γ :=
  { p with dispatches := Function.update p.dispatches i d }

def setWorker (w : Fin n) (place : WorkerPlace γ) (p : PoolThreads ι n γ) : PoolThreads ι n γ :=
  { p with workers := Function.update p.workers w place }

variable [NeZero n]

/-- What becomes of the dispatches when an element has been taken out of the queue of `w`. -/
def NotifyNotFull (w : Fin n) (p : PoolThreads ι n γ) (dispatches : ι → Dispatch) : Prop :=
  if 0 < (p.eventQueues w).maxSize then
    Monitor.NotifyOne (fun d => d.isBlockedOn w = true) Dispatch.wake p.dispatches dispatches
  else dispatches = p.dispatches

/-- The steps of a thread that submits events. -/
inductive DispatchStep (i : ι) (p : PoolThreads ι n γ) : PoolThreads ι n γ → Prop where
  | test {event : NetworkEvent} {rest : List NetworkEvent}
      (h : p.dispatches i = ⟨event :: rest, .testing⟩) :
      DispatchStep i p
        (p.setDispatch i (if p.isRunning then ⟨event :: rest, .entering⟩ else ⟨rest, .testing⟩))
  | wait {event : NetworkEvent} {rest : List NetworkEvent} {phase : SubmitPhase}
      (h : p.dispatches i = ⟨event :: rest, phase⟩) (hphase : phase.locks)
      (hqueue : (p.eventQueues (event.worker n)).enqueue event = none) :
      DispatchStep i p (p.setDispatch i ⟨event :: rest, .blocked⟩)
  | enqueue {event : NetworkEvent} {rest : List NetworkEvent} {phase : SubmitPhase}
      {success : Bool} {q : ConcurrentQueue NetworkEvent}
      (h : p.dispatches i = ⟨event :: rest, phase⟩) (hphase : phase.locks)
      (hqueue : (p.eventQueues (event.worker n)).enqueue event = some (success, q)) :
      DispatchStep i p
        ((p.setQueue (event.worker n) q).setDispatch i
          (if success then ⟨event :: rest, .notifying⟩ else ⟨rest, .testing⟩))
  | notify {event : NetworkEvent} {rest : List NetworkEvent}
      (h : p.dispatches i = ⟨event :: rest, .notifying⟩) :
      DispatchStep i p
        ((p.setWorker (event.worker n) (p.workers (event.worker n)).notify).setDispatch i
          ⟨rest, .testing⟩)

/-- The steps of a worker, where `Starts` says how a callback may begin, and `Finished` whether it
has come to its end. -/
inductive WorkerStep (Starts : NetworkEvent → γ → Prop) (Finished : γ → Prop) (w : Fin n)
    (p : PoolThreads ι n γ) : PoolThreads ι n γ → Prop where
  | test (h : p.workers w = .testing) :
      WorkerStep Starts Finished w p
        (p.setWorker w (if p.isRunning then .waiting .entering else .draining))
  | wait {phase : DequeuePhase} {timedOut : Bool} (h : p.workers w = .waiting phase)
      (hphase : phase.locks timedOut) (hqueue : (p.eventQueues w).waitDequeue timedOut = none) :
      WorkerStep Starts Finished w p (p.setWorker w (.waiting .blocked))
  | timeOut (h : p.workers w = .waiting .blocked) :
      WorkerStep Starts Finished w p (p.setWorker w (.waiting (.woken true)))
  | returnEmpty {phase : DequeuePhase} {timedOut : Bool} {q : ConcurrentQueue NetworkEvent}
      (h : p.workers w = .waiting phase) (hphase : phase.locks timedOut)
      (hqueue : (p.eventQueues w).waitDequeue timedOut = some (none, q)) :
      WorkerStep Starts Finished w p ((p.setQueue w q).setWorker w .testing)
  | take {phase : DequeuePhase} {timedOut : Bool} {q : ConcurrentQueue NetworkEvent}
      {event : NetworkEvent} {callback : γ} {dispatches : ι → Dispatch}
      (h : p.workers w = .waiting phase) (hphase : phase.locks timedOut)
      (hqueue : (p.eventQueues w).waitDequeue timedOut = some (some event, q))
      (hstarts : Starts event callback) (hnotify : p.NotifyNotFull w dispatches) :
      WorkerStep Starts Finished w p
        ((({ p with dispatches := dispatches }).setQueue w q).setWorker w (.calling callback false))
  | exit {q : ConcurrentQueue NetworkEvent} (h : p.workers w = .draining)
      (hqueue : (p.eventQueues w).tryDequeue = (none, q)) :
      WorkerStep Starts Finished w p ((p.setQueue w q).setWorker w .exited)
  | takeRemaining {q : ConcurrentQueue NetworkEvent} {event : NetworkEvent} {callback : γ}
      {dispatches : ι → Dispatch} (h : p.workers w = .draining)
      (hqueue : (p.eventQueues w).tryDequeue = (some event, q))
      (hstarts : Starts event callback) (hnotify : p.NotifyNotFull w dispatches) :
      WorkerStep Starts Finished w p
        ((({ p with dispatches := dispatches }).setQueue w q).setWorker w (.calling callback true))
  | ret {callback : γ} {remaining : Bool} (h : p.workers w = .calling callback remaining)
      (hfinished : Finished callback) :
      WorkerStep Starts Finished w p (p.setWorker w (if remaining then .draining else .testing))

/-- A thread wakes up for no reason. -/
inductive SpuriousStep (p : PoolThreads ι n γ) : PoolThreads ι n γ → Prop where
  | dispatch {i : ι} (h : (p.dispatches i).phase = .blocked) :
      SpuriousStep p (p.setDispatch i (p.dispatches i).wake)
  | worker {w : Fin n} (h : p.workers w = .waiting .blocked) :
      SpuriousStep p (p.setWorker w (.waiting (.woken false)))

/-- `NotifyStop` on the queue of `w`, with its mutex. -/
def stopQueue (w : Fin n) (p : PoolThreads ι n γ) : PoolThreads ι n γ :=
  p.setQueue w (p.eventQueues w).notifyStop

/-- Its `not_empty_.notify_all`. -/
def notifyNotEmpty (w : Fin n) (p : PoolThreads ι n γ) : PoolThreads ι n γ :=
  p.setWorker w (p.workers w).notify

/-- Its `not_full_.notify_all`. -/
def notifyNotFull (w : Fin n) (p : PoolThreads ι n γ) : PoolThreads ι n γ :=
  { p with dispatches := fun i =>
      if (p.dispatches i).isBlockedOn w then (p.dispatches i).wake else p.dispatches i }

end PoolThreads

end DarwinCore.Network
