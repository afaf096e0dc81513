import DarwinCore.Library.TransitionSystem
import DarwinCore.Model.Network.Kernel
import Mathlib.Algebra.Group.Nat.Defs

/-! # `SendBuffer`

The linear send buffer. Sums and differences of `size_t` wrap. The doubling loop of
`EnsureWritableSpace` runs on fuel, and `none` says that it never ends. -/

namespace DarwinCore.Network

/-! ## `size_t` and vectors -/

def sizeBound : ℕ := 2 ^ 64

def addSize (a b : ℕ) : ℕ := (a + b) % sizeBound

def subSize (a b : ℕ) : ℕ := (sizeBound + a - b) % sizeBound

/-- `memcpy` and `memmove` of `ys` to position `pos`. -/
def overwrite (xs : List UInt8) (pos : ℕ) (ys : List UInt8) : List UInt8 :=
  xs.take pos ++ ys ++ xs.drop (pos + ys.length)

def resize (xs : List UInt8) (n : ℕ) : List UInt8 :=
  xs.take n ++ List.replicate (n - xs.length) 0

/-! ## The buffer -/

def initialCapacity : ℕ := 4096
def highWaterMark : ℕ := 8 * 1024 * 1024
def lowWaterMark : ℕ := 4 * 1024 * 1024
def maxCapacity : ℕ := 32 * 1024 * 1024

structure SendBuffer where
  buffer : List UInt8
  readPos : ℕ
  writePos : ℕ
  deriving DecidableEq, Repr

namespace SendBuffer

/-- The constructor `SendBuffer::SendBuffer`. -/
def fresh : SendBuffer := ⟨List.replicate initialCapacity 0, 0, 0⟩

def size (b : SendBuffer) : ℕ := subSize b.writePos b.readPos

def isEmpty (b : SendBuffer) : Bool := b.readPos = b.writePos

def isHighWaterMark (b : SendBuffer) : Bool := highWaterMark ≤ b.size

def isLowWaterMark (b : SendBuffer) : Bool := b.size < lowWaterMark

/-- The `ContiguousReadableBytes()` bytes at `ReadPtr()`. -/
def readable (b : SendBuffer) : List UInt8 := (b.buffer.drop b.readPos).take b.size

def compact (b : SendBuffer) : SendBuffer :=
  if b.readPos = 0 then b
  else
    { buffer := if 0 < b.size then overwrite b.buffer 0 b.readable else b.buffer
      readPos := 0
      writePos := b.size }

def clear (b : SendBuffer) : SendBuffer := { b with readPos := 0, writePos := 0 }

/-- The local `writable`. -/
def writable (b : SendBuffer) : ℕ := subSize b.buffer.length b.writePos

/-- At most `fuel` tests of the doubling loop. -/
def growCapacity (required : ℕ) : ℕ → ℕ → Option ℕ
  | 0, _ => none
  | fuel + 1, capacity =>
      if capacity < required ∧ capacity < maxCapacity then
        growCapacity required fuel (2 * capacity % sizeBound)
      else some capacity

/-- From the doubling loop to the end of `EnsureWritableSpace`. A positive capacity reaches
the maximum in fewer than 64 doublings (`growCapacity_eq_some`). -/
def enlarge (b : SendBuffer) (required : ℕ) : Option (Bool × SendBuffer) :=
  match growCapacity required 64 b.buffer.length with
  | none => none
  | some capacity =>
      let capacity := if maxCapacity < capacity then maxCapacity else capacity
      some (true, { b with buffer := resize b.buffer capacity })

/-- `EnsureWritableSpace` from the computation of `required_size` on. -/
def expand (b : SendBuffer) (size : ℕ) : Option (Bool × SendBuffer) :=
  if maxCapacity < addSize b.writePos size then
    let b := if 0 < b.readPos then b.compact else b
    if maxCapacity < addSize b.writePos size then some (false, b)
    else b.enlarge (addSize b.writePos size)
  else b.enlarge (addSize b.writePos size)

def ensureWritableSpace (b : SendBuffer) (size : ℕ) : Option (Bool × SendBuffer) :=
  if size ≤ b.writable then some (true, b)
  else if 0 < b.readPos then
    if size ≤ b.compact.writable then some (true, b.compact) else b.compact.expand size
  else b.expand size

/-- `SendBuffer::Write`. The null pointer, refused like a size of zero, is the empty list. -/
def write (b : SendBuffer) (data : List UInt8) : Option (Bool × SendBuffer) :=
  if data.length = 0 then some (false, b)
  else
    match b.ensureWritableSpace data.length with
    | none => none
    | some (false, b) => some (false, b)
    | some (true, b) =>
        some (true, { b with
          buffer := overwrite b.buffer b.writePos data
          writePos := addSize b.writePos data.length })

/-- What `SendToSocket` does when the kernel took `count` bytes. -/
def consume (b : SendBuffer) (count : ℕ) : SendBuffer :=
  let b := { b with readPos := addSize b.readPos count }
  if b.readPos = b.writePos then { b with readPos := 0, writePos := 0 }
  else if b.buffer.length / 2 < b.readPos then b.compact
  else b

/-- `SendBuffer::SendToSocket`, with its result. -/
def sendToSocket (b : SendBuffer) (fd : ℤ) (send : Send) : ℤ × SendBuffer :=
  if fd < 0 then (-1, b)
  else if b.size = 0 then (0, b)
  else
    match send b.size with
    | .accepted 0 _ => (0, b)
    | .accepted count _ => (count, b.consume count)
    | .failed .eagain => (0, b)
    | .failed .eintr => (0, b)
    | .failed _ => (-1, b)

/-! ## Sequences of calls -/

/-- A call of one of the public operations, with the answer of the socket. -/
inductive Call where
  | write (data : List UInt8)
  | sendToSocket (fd : ℤ) (send : Send)
  | compact
  | clear

/-- What a call returns. -/
inductive Reply where
  | wrote (success : Bool)
  | sent (count : ℤ)
  | done
  deriving DecidableEq, Repr

def call (b : SendBuffer) : Call → Option (Reply × SendBuffer)
  | .write data => (b.write data).map fun (success, b) => (.wrote success, b)
  | .sendToSocket fd send =>
      let (count, b) := b.sendToSocket fd send
      some (.sent count, b)
  | .compact => some (.done, b.compact)
  | .clear => some (.done, b.clear)

/-- Successive calls. -/
def calls : SendBuffer → List Call → Option (List Reply × SendBuffer)
  | b, [] => some ([], b)
  | b, c :: rest =>
      match b.call c with
      | none => none
      | some (reply, b) => (calls b rest).map fun (replies, b) => (reply :: replies, b)

/-- The data of a call have a size that C++ can express. -/
def Call.Sized : Call → Prop
  | .write data => data.length < 2 ^ 63
  | _ => True

/-! ## Moves -/

/-- What a move leaves behind: the vector is empty. -/
def movedFrom : SendBuffer := ⟨[], 0, 0⟩

section Moves

variable {ι : Type*} [DecidableEq ι]

/-- The buffer `b` goes from `i` to `j`. -/
def move (s : ι → Option SendBuffer) (i j : ι) (b : SendBuffer) : ι → Option SendBuffer :=
  Function.update (Function.update s i (some movedFrom)) j (some b)

/-- The steps of a program on its buffers. A call that does not end makes no step. -/
inductive Step (s : ι → Option SendBuffer) : (ι → Option SendBuffer) → Prop where
  | construct {i} (hi : s i = none) : Step s (Function.update s i (some fresh))
  | call {i b c reply b'} (hi : s i = some b) (hsized : Call.Sized c)
      (hcall : b.call c = some (reply, b')) : Step s (Function.update s i (some b'))
  /-- `SendBuffer(SendBuffer &&other)`. -/
  | moveConstruct {i j b} (hi : s i = some b) (hj : s j = none) : Step s (move s i j b)
  /-- `operator=(SendBuffer &&other)`, which does nothing if `this == &other`. -/
  | moveAssign {i j b} (hi : s i = some b) (hj : (s j).isSome) (hij : i ≠ j) :
      Step s (move s i j b)
  | destroy {i} : Step s (Function.update s i none)

/-- A program that starts without buffers. -/
def program (ι : Type*) [DecidableEq ι] : TransitionSystem (ι → Option SendBuffer) where
  init s := s = fun _ => none
  step := Step

end Moves

end SendBuffer

end DarwinCore.Network
