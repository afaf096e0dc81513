import DarwinCore.Library.Linearization
import DarwinCore.Library.Tickets
import DarwinCore.Library.TransitionSystem
import Mathlib.Algebra.Group.Nat.Defs

/-! # `SPSCRingQueue` and `MPMCRingQueue`

Threads take their steps in any order; a load, a store or a compare-exchange of an atomic
variable is one step. The assignment to an element takes any number of steps, in which the
element has any value, until the last one gives it its own. -/

namespace DarwinCore.Container

open Linearization

variable {α : Type*}

/-- `nextPowerOfTwo`, in a `size_t`. -/
def nextPowerOfTwo (n : ℕ) : ℕ :=
  if n = 0 then 1
  else
    let n := n - 1
    let n := n ||| n >>> 1
    let n := n ||| n >>> 2
    let n := n ||| n >>> 4
    let n := n ||| n >>> 8
    let n := n ||| n >>> 16
    let n := n ||| n >>> 32
    (n + 1) % 2 ^ 64

inductive RingOperation (α : Type*) where
  | push (value : α)
  | pop

inductive RingResult (α : Type*) where
  /-- What `push` returns. -/
  | pushed (success : Bool)
  /-- What `pop` returns. -/
  | popped (value : Option α)

/-! ## One producer and one consumer -/

/-- `SPSCRingQueue<T>`. -/
structure SPSCRingQueue (α : Type*) where
  capacity_ : ℕ
  buffer : List α
  head : ℕ := 0
  tail : ℕ := 0

namespace SPSCRingQueue

/-- `mask_`. -/
def mask (q : SPSCRingQueue α) : ℕ :=
  q.capacity_ - 1

def capacity (q : SPSCRingQueue α) : ℕ :=
  q.capacity_ - 1

/-- `(index + 1) & mask_`. -/
def next (index : ℕ) (q : SPSCRingQueue α) : ℕ :=
  (index + 1) % 2 ^ 64 &&& q.mask

/-- `buffer_[index] = value`. -/
def assign (index : ℕ) (value : α) (q : SPSCRingQueue α) : SPSCRingQueue α :=
  { q with buffer := q.buffer.set index value }

end SPSCRingQueue

/-- Where the producer is in `push`. -/
inductive Producer (α : Type*) where
  | idle
  | loadingTail (value : α)
  | loadingHead (value : α) (currentTail : ℕ)
  | writing (value : α) (currentTail : ℕ)
  | storing (value : α) (currentTail : ℕ)
  | returning (success : Bool)

/-- Where the consumer is in `pop`. -/
inductive Consumer (α : Type*) where
  | idle
  | loadingHead
  | loadingTail (currentHead : ℕ)
  | reading (currentHead : ℕ)
  | storing (value : α) (currentHead : ℕ)
  | returning (value : Option α)

structure SPSCSystem (α : Type*) where
  queue : SPSCRingQueue α
  producer : Producer α := .idle
  consumer : Consumer α := .idle
  /-- The number of the call of `push`. -/
  pushCall : ℕ := 0
  /-- The number of the call of `pop`. -/
  popCall : ℕ := 0
  /-- The number of the next call. -/
  nextCall : ℕ := 0
  log : List (CallEvent (RingOperation α) (RingResult α)) := []

inductive SPSCSystem.Step : SPSCSystem α → SPSCSystem α → Prop where
  | callPush {s : SPSCSystem α} (value : α) (h : s.producer = .idle) :
      Step s { s with
        producer := .loadingTail value
        pushCall := s.nextCall
        nextCall := s.nextCall + 1
        log := .call s.nextCall (.push value) :: s.log }
  | pushLoadTail {s : SPSCSystem α} {value : α} (h : s.producer = .loadingTail value) :
      Step s { s with producer := .loadingHead value s.queue.tail }
  /-- The load of `head_`, if the queue is full. -/
  | refuse {s : SPSCSystem α} {value : α} {currentTail : ℕ}
      (h : s.producer = .loadingHead value currentTail)
      (hfull : s.queue.next currentTail = s.queue.head) :
      Step s { s with
        producer := .returning false
        log := .commit s.pushCall (.push value) (.pushed false) :: s.log }
  | pushLoadHead {s : SPSCSystem α} {value : α} {currentTail : ℕ}
      (h : s.producer = .loadingHead value currentTail)
      (hroom : s.queue.next currentTail ≠ s.queue.head) :
      Step s { s with producer := .writing value currentTail }
  | write {s : SPSCSystem α} {value : α} {currentTail : ℕ} (unfinished : α)
      (h : s.producer = .writing value currentTail) :
      Step s { s with queue := s.queue.assign currentTail unfinished }
  | written {s : SPSCSystem α} {value : α} {currentTail : ℕ}
      (h : s.producer = .writing value currentTail) :
      Step s { s with
        queue := s.queue.assign currentTail value
        producer := .storing value currentTail }
  | storeTail {s : SPSCSystem α} {value : α} {currentTail : ℕ}
      (h : s.producer = .storing value currentTail) :
      Step s { s with
        queue := { s.queue with tail := s.queue.next currentTail }
        producer := .returning true
        log := .commit s.pushCall (.push value) (.pushed true) :: s.log }
  | returnPush {s : SPSCSystem α} {success : Bool} (h : s.producer = .returning success) :
      Step s { s with producer := .idle, log := .ret s.pushCall (.pushed success) :: s.log }
  | callPop {s : SPSCSystem α} (h : s.consumer = .idle) :
      Step s { s with
        consumer := .loadingHead
        popCall := s.nextCall
        nextCall := s.nextCall + 1
        log := .call s.nextCall .pop :: s.log }
  | popLoadHead {s : SPSCSystem α} (h : s.consumer = .loadingHead) :
      Step s { s with consumer := .loadingTail s.queue.head }
  /-- The load of `tail_`, if the queue is empty. -/
  | nothing {s : SPSCSystem α} {currentHead : ℕ} (h : s.consumer = .loadingTail currentHead)
      (hempty : currentHead = s.queue.tail) :
      Step s { s with
        consumer := .returning none
        log := .commit s.popCall .pop (.popped none) :: s.log }
  | popLoadTail {s : SPSCSystem α} {currentHead : ℕ} (h : s.consumer = .loadingTail currentHead)
      (hsome : currentHead ≠ s.queue.tail) :
      Step s { s with consumer := .reading currentHead }
  /-- The end of the move from the element, whose value then is any. -/
  | read {s : SPSCSystem α} {currentHead : ℕ} {value : α} (moved : α)
      (h : s.consumer = .reading currentHead)
      (hvalue : s.queue.buffer[currentHead]? = some value) :
      Step s { s with
        queue := s.queue.assign currentHead moved
        consumer := .storing value currentHead }
  | storeHead {s : SPSCSystem α} {value : α} {currentHead : ℕ}
      (h : s.consumer = .storing value currentHead) :
      Step s { s with
        queue := { s.queue with head := s.queue.next currentHead }
        consumer := .returning (some value)
        log := .commit s.popCall .pop (.popped (some value)) :: s.log }
  | returnPop {s : SPSCSystem α} {value : Option α} (h : s.consumer = .returning value) :
      Step s { s with consumer := .idle, log := .ret s.popCall (.popped value) :: s.log }

/-- The runs of a queue from its construction on, with one producer and one consumer. -/
def spscQueues (α : Type*) (capacity : ℕ) : TransitionSystem (SPSCSystem α) where
  init s := ∃ buffer, buffer.length = nextPowerOfTwo capacity ∧
    s = { queue := { capacity_ := nextPowerOfTwo capacity, buffer := buffer } }
  step := SPSCSystem.Step

/-! ## Any number of threads -/

/-- `MPMCRingQueue<T>::Cell`. -/
structure Cell (α : Type*) where
  sequence : ℕ
  data : α

/-- `MPMCRingQueue<T>`. -/
structure MPMCRingQueue (α : Type*) where
  capacity_ : ℕ
  buffer : List (Cell α)
  head : ℕ := 0
  tail : ℕ := 0

namespace MPMCRingQueue

/-- `mask_`. -/
def mask (q : MPMCRingQueue α) : ℕ :=
  q.capacity_ - 1

/-- `buffer_[pos & mask_]`. -/
def cell (pos : ℕ) (q : MPMCRingQueue α) : Option (Cell α) :=
  q.buffer[pos &&& q.mask]?

def modifyCell (pos : ℕ) (f : Cell α → Cell α) (q : MPMCRingQueue α) : MPMCRingQueue α :=
  { q with buffer := q.buffer.modify (pos &&& q.mask) f }

/-- `cell->data = value`. -/
def assign (pos : ℕ) (value : α) : MPMCRingQueue α → MPMCRingQueue α :=
  modifyCell pos fun cell => { cell with data := value }

/-- `cell->sequence.store(sequence)`. -/
def publish (pos sequence : ℕ) : MPMCRingQueue α → MPMCRingQueue α :=
  modifyCell pos fun cell => { cell with sequence := sequence }

end MPMCRingQueue

/-- `static_cast<intptr_t>`. -/
def intptr (n : ℕ) : ℤ :=
  (n : ℤ).bmod (2 ^ 64)

/-- The sum of two `size_t`. -/
def addSize (m n : ℕ) : ℕ :=
  (m + n) % 2 ^ 64

/-- Where a call is, in `push` or in `pop`. -/
inductive RingCall (α : Type*) where
  /-- Before it loads `tail_`. -/
  | loadingTail (value : α)
  /-- Before it loads the sequence number of the cell. -/
  | checkingPush (value : α) (pos : ℕ)
  /-- Before the compare-exchange of `tail_`. -/
  | claimingPush (value : α) (pos : ℕ)
  | writing (value : α) (pos : ℕ)
  /-- Before it stores the sequence number of the cell. -/
  | publishing (value : α) (pos : ℕ)
  /-- Before it loads `head_`. -/
  | loadingHead
  | checkingPop (pos : ℕ)
  | claimingPop (pos : ℕ)
  | reading (pos : ℕ)
  | releasing (data : α) (pos : ℕ)

/-- The beginning of a call. -/
def RingOperation.start : RingOperation α → RingCall α
  | push value => .loadingTail value
  | pop => .loadingHead

open Tickets in
/-- A step of a call: the queue before, where the call is, the queue after, where the call then is
unless it has returned, and what has happened. -/
inductive RingCall.Step : MPMCRingQueue α → RingCall α → MPMCRingQueue α → Option (RingCall α) →
    Option (Event α) → Prop where
  | loadTail {q : MPMCRingQueue α} {value : α} :
      Step q (.loadingTail value) q (some (.checkingPush value q.tail)) none
  | free {q : MPMCRingQueue α} {value : α} {pos : ℕ} {cell : Cell α}
      (hcell : q.cell pos = some cell) (hdiff : intptr cell.sequence - intptr pos = 0) :
      Step q (.checkingPush value pos) q (some (.claimingPush value pos)) none
  | full {q : MPMCRingQueue α} {value : α} {pos : ℕ} {cell : Cell α}
      (hcell : q.cell pos = some cell) (hdiff : intptr cell.sequence - intptr pos < 0) :
      Step q (.checkingPush value pos) q none (some .refused)
  | pushLate {q : MPMCRingQueue α} {value : α} {pos : ℕ} {cell : Cell α}
      (hcell : q.cell pos = some cell) (hdiff : 0 < intptr cell.sequence - intptr pos) :
      Step q (.checkingPush value pos) q (some (.loadingTail value)) none
  | claimPush {q : MPMCRingQueue α} {value : α} {pos : ℕ} (htail : q.tail = pos) :
      Step q (.claimingPush value pos) { q with tail := addSize pos 1 }
        (some (.writing value pos)) (some (.claimPush pos value))
  /-- The compare-exchange fails, for no reason or because another thread was faster. -/
  | failPush {q : MPMCRingQueue α} {value : α} {pos : ℕ} :
      Step q (.claimingPush value pos) q (some (.checkingPush value q.tail)) none
  | write {q : MPMCRingQueue α} {value : α} {pos : ℕ} (unfinished : α) :
      Step q (.writing value pos) (q.assign pos unfinished) (some (.writing value pos)) none
  | written {q : MPMCRingQueue α} {value : α} {pos : ℕ} :
      Step q (.writing value pos) (q.assign pos value) (some (.publishing value pos))
        (some (.written pos value))
  | publish {q : MPMCRingQueue α} {value : α} {pos : ℕ} :
      Step q (.publishing value pos) (q.publish pos (addSize pos 1)) none
        (some (.pushed pos value))
  | loadHead {q : MPMCRingQueue α} :
      Step q .loadingHead q (some (.checkingPop q.head)) none
  | ready {q : MPMCRingQueue α} {pos : ℕ} {cell : Cell α} (hcell : q.cell pos = some cell)
      (hdiff : intptr cell.sequence - intptr (addSize pos 1) = 0) :
      Step q (.checkingPop pos) q (some (.claimingPop pos)) none
  | empty {q : MPMCRingQueue α} {pos : ℕ} {cell : Cell α} (hcell : q.cell pos = some cell)
      (hdiff : intptr cell.sequence - intptr (addSize pos 1) < 0) :
      Step q (.checkingPop pos) q none (some .nothing)
  | popLate {q : MPMCRingQueue α} {pos : ℕ} {cell : Cell α} (hcell : q.cell pos = some cell)
      (hdiff : 0 < intptr cell.sequence - intptr (addSize pos 1)) :
      Step q (.checkingPop pos) q (some .loadingHead) none
  | claimPop {q : MPMCRingQueue α} {pos : ℕ} (hhead : q.head = pos) :
      Step q (.claimingPop pos) { q with head := addSize pos 1 } (some (.reading pos))
        (some (.claimPop pos))
  | failPop {q : MPMCRingQueue α} {pos : ℕ} :
      Step q (.claimingPop pos) q (some (.checkingPop q.head)) none
  /-- The end of the move from the element, whose value then is any. -/
  | read {q : MPMCRingQueue α} {pos : ℕ} {cell : Cell α} (moved : α)
      (hcell : q.cell pos = some cell) :
      Step q (.reading pos) (q.assign pos moved) (some (.releasing cell.data pos))
        (some (.read pos cell.data))
  | release {q : MPMCRingQueue α} {data : α} {pos : ℕ} :
      Step q (.releasing data pos) (q.publish pos (addSize (addSize pos q.mask) 1)) none
        (some (.popped pos data))

structure MPMCSystem (α : Type*) where
  queue : MPMCRingQueue α
  /-- The calls that have not returned, of any number of threads. -/
  calls : List (RingCall α) := []
  /-- The number of calls that have begun. -/
  begun : ℕ := 0
  log : List (Tickets.Event α) := []

inductive MPMCSystem.Step : MPMCSystem α → MPMCSystem α → Prop where
  | call {s : MPMCSystem α} (operation : RingOperation α) :
      Step s { s with calls := operation.start :: s.calls, begun := s.begun + 1 }
  | goOn {s : MPMCSystem α} {before after : List (RingCall α)} {call : RingCall α}
      {q : MPMCRingQueue α} {call' : Option (RingCall α)} {event : Option (Tickets.Event α)}
      (hcalls : s.calls = before ++ call :: after) (h : call.Step s.queue q call' event) :
      Step s { s with
        queue := q
        calls := before ++ call'.toList ++ after
        log := event.toList ++ s.log }

/-- The runs of a queue from its construction on. -/
def mpmcQueues (α : Type*) (capacity : ℕ) : TransitionSystem (MPMCSystem α) where
  init s := ∃ buffer : List (Cell α),
    buffer.map Cell.sequence = List.range (nextPowerOfTwo capacity) ∧
      s = { queue := { capacity_ := nextPowerOfTwo capacity, buffer := buffer } }
  step := MPMCSystem.Step

/-! ## One thread

No other call runs meanwhile. The compare-exchange of a call may fail a number of times for no
reason; a loop runs at most `fuel` times. -/

/-- The difference of two `intptr_t`, if it is one. -/
def intptrDifference (seq pos : ℕ) : Option ℤ :=
  let diff := intptr seq - intptr pos
  if -9223372036854775808 ≤ diff ∧ diff ≤ 9223372036854775807 then some diff else none

/-- A call whose compare-exchange fails `spurious` times for no reason. An element that a value is
moved from is `moved` afterwards. -/
inductive SequentialCall (α : Type*) where
  | push (value : α) (spurious : ℕ)
  | pop (moved : α) (spurious : ℕ)

namespace MPMCRingQueue

/-- The loop of `push` and of `pop`, where `counter` is `tail_` or `head_` and the sequence number
of a cell has to be `due`: the position that it claims, if there is one. -/
def claim (q : MPMCRingQueue α) (counter : ℕ) (due : ℕ → ℕ) : ℕ → ℕ → ℕ → Option (Option ℕ)
  | 0, _, _ => none
  | fuel + 1, spurious, pos => do
      let seq ← (q.cell pos).map Cell.sequence
      let diff ← intptrDifference seq (due pos)
      if diff = 0 then
        if spurious = 0 ∧ counter = pos then some (some pos)
        else claim q counter due fuel (spurious - 1) counter
      else if diff < 0 then some none
      else claim q counter due fuel spurious counter

def push (fuel : ℕ) (value : α) (spurious : ℕ) (q : MPMCRingQueue α) :
    Option (RingResult α × MPMCRingQueue α) :=
  match q.claim q.tail id fuel spurious q.tail with
  | none => none
  | some none => some (.pushed false, q)
  | some (some pos) =>
      let q := { q with tail := addSize pos 1 }
      some (.pushed true, (q.assign pos value).publish pos (addSize pos 1))

def pop (fuel : ℕ) (moved : α) (spurious : ℕ) (q : MPMCRingQueue α) :
    Option (RingResult α × MPMCRingQueue α) :=
  match q.claim q.head (addSize · 1) fuel spurious q.head with
  | none => none
  | some none => some (.popped none, q)
  | some (some pos) =>
      let q := { q with head := addSize pos 1 }
      match q.cell pos with
      | none => none
      | some cell =>
          some (.popped (some cell.data),
            (q.assign pos moved).publish pos (addSize (addSize pos q.mask) 1))

def runCall (fuel : ℕ) : SequentialCall α → MPMCRingQueue α →
    Option (RingResult α × MPMCRingQueue α)
  | .push value spurious => push fuel value spurious
  | .pop moved spurious => pop fuel moved spurious

/-- What the calls return, and the queue after them. -/
def runCalls (fuel : ℕ) : List (SequentialCall α) → MPMCRingQueue α →
    Option (List (RingResult α) × MPMCRingQueue α)
  | [], q => some ([], q)
  | call :: calls, q => do
      let (result, q) ← q.runCall fuel call
      let (results, q) ← runCalls fuel calls q
      return (result :: results, q)

end MPMCRingQueue

end DarwinCore.Container
