import DarwinCore.Library.Linearization
import DarwinCore.Library.TransitionSystem

/-! # `ConcurrentQueue`

The queue that hands events to the workers. What a function does with the mutex held is one
step; a thread that waits on a condition variable has released it and takes it again when it
has been woken, by a notification, by the clock or for no reason. -/

namespace DarwinCore.Network

open Linearization

/-! ## With the mutex held -/

/-- `ConcurrentQueue<T>`. -/
structure ConcurrentQueue (α : Type*) where
  maxSize : ℕ
  queue : List α := []
  isStopped : Bool := false

namespace ConcurrentQueue

variable {α : Type*}

/-- `Enqueue`. `none` says that it waits on `not_full_`. -/
def enqueue (value : α) (q : ConcurrentQueue α) : Option (Bool × ConcurrentQueue α) :=
  if 0 < q.maxSize ∧ ¬(q.queue.length < q.maxSize ∨ q.isStopped) then none
  else if q.isStopped then some (false, q)
  else some (true, { q with queue := q.queue ++ [value] })

def tryEnqueue (value : α) (q : ConcurrentQueue α) : Bool × ConcurrentQueue α :=
  if 0 < q.maxSize ∧ q.maxSize ≤ q.queue.length then (false, q)
  else if q.isStopped then (false, q)
  else (true, { q with queue := q.queue ++ [value] })

def tryDequeue (q : ConcurrentQueue α) : Option α × ConcurrentQueue α :=
  match q.queue with
  | [] => (none, q)
  | value :: rest => (some value, { q with queue := rest })

/-- `WaitDequeue`. `none` says that it waits on `not_empty_`, until `timedOut`. -/
def waitDequeue (timedOut : Bool) (q : ConcurrentQueue α) :
    Option (Option α × ConcurrentQueue α) :=
  let success := !q.queue.isEmpty || q.isStopped
  if !success && !timedOut then none
  else if !success || q.isStopped || q.queue.isEmpty then some (none, q)
  else some q.tryDequeue

def notifyStop (q : ConcurrentQueue α) : ConcurrentQueue α :=
  { q with isStopped := true }

def reset (q : ConcurrentQueue α) : ConcurrentQueue α :=
  { q with isStopped := false }

end ConcurrentQueue

/-! ## Calls -/

inductive QueueOperation (α : Type*) where
  | enqueue (value : α)
  | tryEnqueue (value : α)
  | tryDequeue
  | waitDequeue
  | notifyStop
  | reset

inductive QueueResult (α : Type*) where
  /-- What `Enqueue` and `TryEnqueue` return. -/
  | accepted (success : Bool)
  /-- What `TryDequeue` and `WaitDequeue` return, with the element. -/
  | taken (value : Option α)
  | done

/-- Where a call is. -/
inductive QueuePhase (α : Type*) where
  /-- Before it takes the mutex. -/
  | entering
  /-- In the wait on its condition variable. -/
  | blocked
  /-- Woken, and before it takes the mutex again. -/
  | woken (timedOut : Bool)
  /-- At `not_empty_.notify_one` or `not_empty_.notify_all`. -/
  | notifying (result : QueueResult α)
  /-- At `not_full_.notify_all`. -/
  | notifyingFull (result : QueueResult α)
  | returning (result : QueueResult α)

structure QueueCall (α : Type*) where
  number : ℕ
  operation : QueueOperation α
  phase : QueuePhase α

section Calls

variable {α : Type*}

/-- The operation with the mutex held; `timedOut` says that its time is over. `none` says that
it waits. -/
def QueueOperation.run (operation : QueueOperation α) (timedOut : Bool)
    (q : ConcurrentQueue α) : Option (QueueResult α × ConcurrentQueue α) :=
  match operation with
  | enqueue value => (q.enqueue value).map fun (success, q) => (.accepted success, q)
  | tryEnqueue value => some (.accepted (q.tryEnqueue value).1, (q.tryEnqueue value).2)
  | tryDequeue => some (.taken q.tryDequeue.1, q.tryDequeue.2)
  | waitDequeue => (q.waitDequeue timedOut).map fun (value, q) => (.taken value, q)
  | notifyStop => some (.done, q.notifyStop)
  | reset => some (.done, q.reset)

/-- It is about to take the mutex. -/
def QueuePhase.locks : QueuePhase α → Bool → Prop
  | entering, timedOut => timedOut = false
  | woken timedOut', timedOut => timedOut = timedOut'
  | _, _ => False

/-- Where the call goes on once the mutex is released. -/
def QueueOperation.after (operation : QueueOperation α) (result : QueueResult α) :
    QueuePhase α :=
  match operation, result with
  | enqueue _, .accepted true => .notifying result
  | tryEnqueue _, .accepted true => .notifying result
  | notifyStop, _ => .notifying result
  | _, _ => .returning result

/-- With the mutex held, a thread that has taken an element notifies one that waits for room. -/
def QueueResult.notifiesFull (maxSize : ℕ) : QueueResult α → Bool
  | .taken (some _) => 0 < maxSize
  | _ => false

namespace QueueCall

def isEnqueue (call : QueueCall α) : Bool :=
  match call.operation with
  | .enqueue _ => true
  | _ => false

def isBlocked (call : QueueCall α) : Bool :=
  match call.phase with
  | .blocked => true
  | _ => false

def isWoken (call : QueueCall α) : Bool :=
  match call.phase with
  | .woken _ => true
  | _ => false

/-- It waits on `not_full_`. -/
def onNotFull (call : QueueCall α) : Bool :=
  call.isEnqueue && call.isBlocked

/-- It waits on `not_empty_`. -/
def onNotEmpty (call : QueueCall α) : Bool :=
  match call.operation with
  | .waitDequeue => call.isBlocked
  | _ => false

/-- `NotifyStop` between its critical section and the end of `not_full_.notify_all`. -/
def outstanding (call : QueueCall α) : Bool :=
  match call.operation, call.phase with
  | .notifyStop, .notifying _ => true
  | .notifyStop, .notifyingFull _ => true
  | _, _ => false

def wake (timedOut : Bool) (call : QueueCall α) : QueueCall α :=
  { call with phase := .woken timedOut }

end QueueCall

/-- `notify_one`: one of the threads that wait wakes up, if there is any. -/
inductive NotifyOne (waits : QueueCall α → Bool) : List (QueueCall α) → List (QueueCall α) → Prop
  where
  | nobody {calls : List (QueueCall α)} (h : calls.any waits = false) :
      NotifyOne waits calls calls
  | one {before after : List (QueueCall α)} {call : QueueCall α} (h : waits call = true) :
      NotifyOne waits (before ++ call :: after) (before ++ call.wake false :: after)

/-- `notify_all`. -/
def notifyAll (waits : QueueCall α → Bool) (calls : List (QueueCall α)) : List (QueueCall α) :=
  calls.map fun call => if waits call then call.wake false else call

end Calls

/-! ## The system -/

structure QueueSystem (α : Type*) where
  queue : ConcurrentQueue α
  calls : List (QueueCall α) := []
  /-- The number of the next call. -/
  nextCall : ℕ := 0
  log : List (CallEvent (QueueOperation α) (QueueResult α)) := []

variable {α : Type*}

inductive QueueSystem.Step : QueueSystem α → QueueSystem α → Prop where
  | call {s : QueueSystem α} (operation : QueueOperation α) :
      Step s { s with
        calls := ⟨s.nextCall, operation, .entering⟩ :: s.calls
        nextCall := s.nextCall + 1
        log := .call s.nextCall operation :: s.log }
  | wait {s : QueueSystem α} {before after : List (QueueCall α)} {c : ℕ}
      {operation : QueueOperation α} {phase : QueuePhase α} {timedOut : Bool}
      (hcalls : s.calls = before ++ ⟨c, operation, phase⟩ :: after)
      (hphase : phase.locks timedOut) (h : operation.run timedOut s.queue = none) :
      Step s { s with calls := before ++ ⟨c, operation, .blocked⟩ :: after }
  | commit {s : QueueSystem α} {before after calls : List (QueueCall α)} {c : ℕ}
      {operation : QueueOperation α} {phase : QueuePhase α} {timedOut : Bool}
      {result : QueueResult α} {q : ConcurrentQueue α}
      (hcalls : s.calls = before ++ ⟨c, operation, phase⟩ :: after)
      (hphase : phase.locks timedOut) (h : operation.run timedOut s.queue = some (result, q))
      (hnotify : NotifyOne
        (fun call => result.notifiesFull s.queue.maxSize && call.onNotFull)
        (before ++ ⟨c, operation, operation.after result⟩ :: after) calls) :
      Step s { s with queue := q, calls := calls, log := .commit c operation result :: s.log }
  | notify {s : QueueSystem α} {before after calls : List (QueueCall α)} {c : ℕ}
      {operation : QueueOperation α} {result : QueueResult α}
      (hcalls : s.calls = before ++ ⟨c, operation, .notifying result⟩ :: after)
      (hone : operation ≠ .notifyStop)
      (hnotify : NotifyOne QueueCall.onNotEmpty
        (before ++ ⟨c, operation, .returning result⟩ :: after) calls) :
      Step s { s with calls := calls }
  | notifyEmpty {s : QueueSystem α} {before after : List (QueueCall α)} {c : ℕ}
      {result : QueueResult α}
      (hcalls : s.calls = before ++ ⟨c, .notifyStop, .notifying result⟩ :: after) :
      Step s { s with
        calls := notifyAll QueueCall.onNotEmpty
          (before ++ ⟨c, .notifyStop, .notifyingFull result⟩ :: after) }
  | notifyFull {s : QueueSystem α} {before after : List (QueueCall α)} {c : ℕ}
      {result : QueueResult α}
      (hcalls : s.calls = before ++ ⟨c, .notifyStop, .notifyingFull result⟩ :: after) :
      Step s { s with
        calls := notifyAll QueueCall.onNotFull
          (before ++ ⟨c, .notifyStop, .returning result⟩ :: after) }
  /-- For no reason, or because the time of `WaitDequeue` is over. -/
  | wakeup {s : QueueSystem α} {before after : List (QueueCall α)} {call : QueueCall α}
      {timedOut : Bool} (hcalls : s.calls = before ++ call :: after)
      (hblocked : call.isBlocked = true) (htimed : timedOut = true → call.onNotEmpty = true) :
      Step s { s with calls := before ++ call.wake timedOut :: after }
  | ret {s : QueueSystem α} {before after : List (QueueCall α)} {c : ℕ}
      {operation : QueueOperation α} {result : QueueResult α}
      (hcalls : s.calls = before ++ ⟨c, operation, .returning result⟩ :: after) :
      Step s { s with calls := before ++ after, log := .ret c result :: s.log }

/-- The runs of a queue from its construction on. -/
def queues (α : Type*) (maxSize : ℕ) : TransitionSystem (QueueSystem α) where
  init s := s = { queue := { maxSize := maxSize } }
  step := QueueSystem.Step

end DarwinCore.Network
