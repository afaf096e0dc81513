import Mathlib.Algebra.Group.Nat.Defs
import Mathlib.Logic.Function.Basic

/-! # `CircularBuffer` -/

namespace DarwinCore.Container

variable {α : Type*}

structure CircularBuffer (α : Type*) where
  buffer : List α
  capacity : ℕ
  head : ℕ
  tail : ℕ
  size : ℕ
  deriving DecidableEq

namespace CircularBuffer

/-- A buffer that was moved from. -/
def movedFrom : CircularBuffer α :=
  ⟨[], 0, 0, 0, 0⟩

/-- The constructor. A vector has at most `PTRDIFF_MAX` elements. -/
def ofCapacity [Inhabited α] (capacity : ℕ) : Except String (CircularBuffer α) :=
  if 2 ^ 63 ≤ capacity then .error "vector"
  else if capacity = 0 then .error "CircularBuffer capacity must be greater than 0"
  else .ok ⟨List.replicate capacity default, capacity, 0, 0, 0⟩

/-- `(pos + offset) % capacity_` in a `size_t`. -/
def position (pos offset : ℕ) (b : CircularBuffer α) : ℕ :=
  (pos + offset) % 2 ^ 64 % b.capacity

/-! ## Operations -/

def empty (b : CircularBuffer α) : Bool :=
  b.size = 0

def full (b : CircularBuffer α) : Bool :=
  b.size = b.capacity

/-- `push`: whether nothing was overwritten, and the buffer. -/
def push (value : α) (b : CircularBuffer α) : Bool × CircularBuffer α :=
  (!b.full,
    { b with
      buffer := b.buffer.set b.tail value
      head := if b.full then b.position b.head 1 else b.head
      tail := b.position b.tail 1
      size := if b.full then b.size else b.size + 1 })

/-- `pop`, which leaves a moved-from value in the slot. -/
def pop (moved : α → α) (b : CircularBuffer α) : Option α × CircularBuffer α :=
  if b.empty then (none, b)
  else
    (b.buffer[b.head]?,
      { b with
        buffer := b.buffer.modify b.head moved
        head := b.position b.head 1
        size := b.size - 1 })

def clear (b : CircularBuffer α) : CircularBuffer α :=
  { b with head := 0, tail := 0, size := 0 }

/-! ## Reading -/

def front (b : CircularBuffer α) : Option α :=
  if b.empty then none else b.buffer[b.head]?

def back (b : CircularBuffer α) : Option α :=
  if b.empty then none else b.buffer[(b.tail + b.capacity - 1) % 2 ^ 64 % b.capacity]?

/-- `operator[]`, which reads no element beyond the vector. -/
def subscript (index : ℕ) (b : CircularBuffer α) : Option α :=
  b.buffer[b.position b.head index]?

/-- `at`. -/
def get (index : ℕ) (b : CircularBuffer α) : Except String (Option α) :=
  if b.size ≤ index then .error "CircularBuffer index out of range"
  else .ok (b.subscript index)

/-! ## Iterators -/

/-- `iterator` and `const_iterator`. -/
structure Iterator where
  pos : ℕ
  count : ℕ
  deriving DecidableEq

def begin (b : CircularBuffer α) : Iterator :=
  ⟨b.head, 0⟩

/-- `end`. -/
def finish (b : CircularBuffer α) : Iterator :=
  ⟨b.tail, b.size⟩

/-- `operator++`. -/
def next (it : Iterator) (b : CircularBuffer α) : Iterator :=
  ⟨b.position it.pos 1, it.count + 1⟩

/-- `operator*`. -/
def deref (it : Iterator) (b : CircularBuffer α) : Option α :=
  b.buffer[it.pos]?

/-- `operator==`. -/
def Iterator.equals (it other : Iterator) : Bool :=
  it.count = other.count

/-- What is read from `it` to `end`, with `none` if more than `fuel` elements would be read. -/
def traverse (b : CircularBuffer α) : ℕ → Iterator → Option (List (Option α))
  | fuel, it =>
      if it.equals b.finish then some []
      else match fuel with
        | 0 => none
        | fuel + 1 => (b.traverse fuel (b.next it)).map (b.deref it :: ·)

end CircularBuffer

/-! ## Calls -/

/-- Calls on the buffers of a program. -/
inductive BufferCall (ι α : Type*) where
  | construct (i : ι) (capacity : ℕ)
  | push (i : ι) (value : α)
  | pop (i : ι)
  | clear (i : ι)
  /-- `j` is constructed from `std::move(i)`. -/
  | moveConstruct (i j : ι)
  /-- `j = std::move(i)`. -/
  | moveAssign (i j : ι)

/-- What a call returns. -/
inductive BufferReply (α : Type*) where
  | done
  | pushed (stored : Bool)
  | popped (value : Option α)
  deriving DecidableEq

/-- What a call returns or throws, and the buffers. -/
def BufferCall.run {ι : Type*} [DecidableEq ι] [Inhabited α] (moved : α → α)
    (buffers : ι → CircularBuffer α) :
    BufferCall ι α → Except String (BufferReply α) × (ι → CircularBuffer α)
  | construct i capacity =>
      match CircularBuffer.ofCapacity capacity with
      | .error e => (.error e, buffers)
      | .ok b => (.ok .done, Function.update buffers i b)
  | push i value =>
      ((buffers i).push value).map (fun stored => .ok (.pushed stored)) (Function.update buffers i)
  | pop i =>
      ((buffers i).pop moved).map (fun value => .ok (.popped value)) (Function.update buffers i)
  | clear i => (.ok .done, Function.update buffers i (buffers i).clear)
  | moveConstruct i j =>
      (.ok .done, Function.update (Function.update buffers i .movedFrom) j (buffers i))
  | moveAssign i j =>
      if i = j then (.ok .done, buffers)
      else (.ok .done, Function.update (Function.update buffers i .movedFrom) j (buffers i))

end DarwinCore.Container
