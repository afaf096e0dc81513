import DarwinCore.Library.WordArray
import Mathlib.Logic.Function.Basic

/-! # `BitSet` -/

namespace DarwinCore.Container

structure BitSet where
  size : ℕ := 0
  bits : List (BitVec 64) := []
  deriving DecidableEq

namespace BitSet

/-- `(size + 63) / 64` in a `size_t`. -/
def wordCount (size : ℕ) : ℕ :=
  (size + 63) % 2 ^ 64 / 64

/-- The constructor. -/
def ofSize (size : ℕ) : BitSet where
  size := size
  bits := List.replicate (wordCount size) 0

def checkBounds (pos : ℕ) (b : BitSet) : Except String Unit :=
  if b.size ≤ pos then .error "BitSet index out of range" else .ok ()

/-! ## Single bits -/

/-- `checkBounds`, then an assignment to the word of `pos`: how it ends, and the bit set. -/
def assign (pos : ℕ) (f : BitVec 64 → BitVec 64) (b : BitSet) : Except String Unit × BitSet :=
  match b.checkBounds pos with
  | .error e => (.error e, b)
  | .ok () => (.ok (), { b with bits := b.bits.modify (pos / 64) f })

def set (pos : ℕ) (value : Bool) (b : BitSet) : Except String Unit × BitSet :=
  if value then b.assign pos (· ||| (1#64 <<< (pos % 64)))
  else b.assign pos (· &&& ~~~(1#64 <<< (pos % 64)))

def flip (pos : ℕ) (b : BitSet) : Except String Unit × BitSet :=
  b.assign pos (· ^^^ (1#64 <<< (pos % 64)))

/-- `get`, and `operator[]`. -/
def get (pos : ℕ) (b : BitSet) : Except String Bool := do
  b.checkBounds pos
  return (b.bits.getD (pos / 64) 0 >>> (pos % 64)) &&& 1 ≠ 0

/-! ## All bits -/

def clearUnusedBits (b : BitSet) : BitSet :=
  if b.size % 64 ≠ 0 ∧ b.bits ≠ [] then
    { b with bits := b.bits.modify (b.bits.length - 1) (· &&& ((1#64 <<< (b.size % 64)) - 1#64)) }
  else b

def flipAll (b : BitSet) : BitSet :=
  clearUnusedBits { b with bits := b.bits.map (~~~·) }

def setAll (b : BitSet) : BitSet :=
  clearUnusedBits { b with bits := b.bits.map fun _ => ~~~0 }

def reset (b : BitSet) : BitSet :=
  { b with bits := b.bits.map fun _ => 0 }

def resize (newSize : ℕ) (b : BitSet) : BitSet :=
  clearUnusedBits
    { size := newSize
      bits := b.bits.take (wordCount newSize) ++
        List.replicate (wordCount newSize - b.bits.length) 0 }

/-! ## Two bit sets -/

/-- `operator&`. -/
def and (b other : BitSet) : BitSet :=
  let size := max b.size other.size
  let minWords := min b.bits.length other.bits.length
  { size := size
    bits := (List.range (wordCount size)).map fun i =>
      if i < minWords then b.bits.getD i 0 &&& other.bits.getD i 0 else 0 }

/-- `operator|` and `operator^`. -/
def combine (op : BitVec 64 → BitVec 64 → BitVec 64) (b other : BitSet) : BitSet :=
  let size := max b.size other.size
  { size := size
    bits := (List.range (wordCount size)).map fun i =>
      op (if i < b.bits.length then b.bits.getD i 0 else 0)
        (if i < other.bits.length then other.bits.getD i 0 else 0) }

/-- `operator|`. -/
def or : BitSet → BitSet → BitSet :=
  combine (· ||| ·)

/-- `operator^`. -/
def xor : BitSet → BitSet → BitSet :=
  combine (· ^^^ ·)

/-! ## Queries -/

def count (b : BitSet) : ℕ :=
  (b.bits.map fun word => word.cpop.toNat).sum

def any (b : BitSet) : Bool :=
  b.bits.any fun word => word ≠ 0

def none (b : BitSet) : Bool :=
  !b.any

def all (b : BitSet) : Bool :=
  b.count = b.size

def toString (b : BitSet) : Except String (List Char) :=
  (List.range b.size).foldlM (fun result i => do
    return if ← b.get i then result.set (b.size - 1 - i) '1' else result)
    (List.replicate b.size '0')

def findFirst (b : BitSet) : ℕ :=
  match WordArray.firstFrom 0 b.bits with
  | some pos => if pos < b.size then pos else b.size
  | .none => b.size

end BitSet

/-! ## Calls -/

/-- Calls on the bit sets of a program. -/
inductive BitSetCall (ι : Type*) where
  | construct (i : ι) (size : ℕ)
  | set (i : ι) (pos : ℕ) (value : Bool)
  | flip (i : ι) (pos : ℕ)
  | flipAll (i : ι)
  | setAll (i : ι)
  | reset (i : ι)
  | resize (i : ι) (newSize : ℕ)
  /-- `k = i & j`. -/
  | and (i j k : ι)
  | or (i j k : ι)
  | xor (i j k : ι)

/-- How a call ends, and the bit sets. -/
def BitSetCall.run {ι : Type*} [DecidableEq ι] (sets : ι → BitSet) :
    BitSetCall ι → Except String Unit × (ι → BitSet)
  | construct i size => (.ok (), Function.update sets i (.ofSize size))
  | set i pos value => ((sets i).set pos value).map id (Function.update sets i)
  | flip i pos => ((sets i).flip pos).map id (Function.update sets i)
  | flipAll i => (.ok (), Function.update sets i (sets i).flipAll)
  | setAll i => (.ok (), Function.update sets i (sets i).setAll)
  | reset i => (.ok (), Function.update sets i (sets i).reset)
  | resize i newSize => (.ok (), Function.update sets i ((sets i).resize newSize))
  | and i j k => (.ok (), Function.update sets k ((sets i).and (sets j)))
  | or i j k => (.ok (), Function.update sets k ((sets i).or (sets j)))
  | xor i j k => (.ok (), Function.update sets k ((sets i).xor (sets j)))

end DarwinCore.Container
