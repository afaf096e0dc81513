import DarwinCore.Library.Regions
import DarwinCore.Library.TransitionSystem

/-! # `MemoryPool`

Pointers are words of eight bytes, and a free block holds the pointer to the next one. Which
chunk `operator new` returns is a parameter. -/

namespace DarwinCore.Container

open ByteOrder

/-- `ALIGN`. -/
def blockAlign : ℕ := 8

/-- `MAX_BLOCK`. -/
def maxBlock : ℕ := 128

/-- The free lists, the memory, and the chunks of the pool that `operator delete` has not got
back. -/
structure MemoryPool where
  freeLists : List ℕ
  memory : ℕ → UInt8
  chunks : List Region

namespace MemoryPool

/-- `(size + ALIGN - 1) / ALIGN - 1`. -/
def index (size : ℕ) : ℕ :=
  ((size + blockAlign - 1) % 2 ^ 64 / blockAlign + 2 ^ 64 - 1) % 2 ^ 64

/-- `(index + 1) * ALIGN`. -/
def blockSize (index : ℕ) : ℕ :=
  (index + 1) * blockAlign

/-- `::operator new`, where `chunk` is the result for each size: none if it throws. -/
def operatorNew (chunk : ℕ → Option ℕ) (size : ℕ) (s : MemoryPool) : Option (ℕ × MemoryPool) :=
  (chunk size).map fun p => (p, { s with chunks := ⟨p, size⟩ :: s.chunks })

/-- `::operator delete`. -/
def operatorDelete (p : ℕ) (s : MemoryPool) : MemoryPool :=
  { s with chunks := s.chunks.filter (·.start ≠ p) }

/-- `block->next = free_lists[index]; free_lists[index] = block`, none if the index is outside of
the array. -/
def push (host : Endian) (index block : ℕ) (s : MemoryPool) : Option MemoryPool :=
  s.freeLists[index]?.map fun head =>
    { s with
      memory := storeWord host 8 s.memory block head
      freeLists := s.freeLists.set index block }

/-- `block = free_lists[index]; free_lists[index] = block->next`, none also for the null
pointer. -/
def pop (host : Endian) (index : ℕ) (s : MemoryPool) : Option (ℕ × MemoryPool) :=
  match s.freeLists[index]? with
  | none => none
  | some block =>
      if block = 0 then none
      else some (block,
        { s with freeLists := s.freeLists.set index (loadWord host 8 s.memory block) })

/-- The loop of `refill` over a chunk. -/
def split (host : Endian) (index chunk : ℕ) (s : MemoryPool) : Option MemoryPool :=
  (List.range 10).foldlM (fun s i => s.push host index (chunk + i * blockSize index)) s

/-- What a call comes to: `bad_alloc`, or a result. -/
inductive Outcome (α : Type*) where
  | thrown
  | done (result : α)

/-- `refill`; none if it leaves the array. -/
def refill (host : Endian) (chunk : ℕ → Option ℕ) (index : ℕ) (s : MemoryPool) :
    Option (Outcome MemoryPool) :=
  match s.operatorNew chunk (blockSize index * 10) with
  | none => some .thrown
  | some (p, s) => (s.split host index p).map .done

/-- `allocate`; none if it leaves the array or reads through the null pointer. -/
def allocate (host : Endian) (chunk : ℕ → Option ℕ) (size : ℕ) (s : MemoryPool) :
    Option (Outcome (ℕ × MemoryPool)) :=
  if maxBlock < size then
    match s.operatorNew chunk size with
    | none => some .thrown
    | some result => some (.done result)
  else
    match s.freeLists[index size]? with
    | none => none
    | some head =>
        if head = 0 then
          match s.refill host chunk (index size) with
          | none => none
          | some .thrown => some .thrown
          | some (.done s) => (s.pop host (index size)).map .done
        else (s.pop host (index size)).map .done

def deallocate (host : Endian) (p size : ℕ) (s : MemoryPool) : Option MemoryPool :=
  if maxBlock < size then some (s.operatorDelete p) else s.push host (index size) p

/-! ## Programs -/

/-- `operator new` returns a chunk of memory that is not in use by the pool. -/
def Fresh (chunk : ℕ → Option ℕ) (s : MemoryPool) : Prop :=
  ∀ size, ∀ p ∈ chunk size,
    0 < p ∧ p + size ≤ 2 ^ 64 ∧ ∀ used ∈ s.chunks, Region.Apart ⟨p, size⟩ used

end MemoryPool

/-- The pool, and the blocks that were handed out: each the pointer and the size that was asked
for. -/
structure PoolUser where
  pool : MemoryPool
  live : List Region

namespace PoolUser

/-- The program may write to its blocks and to memory that is not the pool's. -/
def MayWrite (s : PoolUser) (x : ℕ) : Prop :=
  (∃ block ∈ s.live, block.Holds x) ∨ ∀ chunk ∈ s.pool.chunks, ¬chunk.Holds x

/-- The steps of a program. -/
inductive Step (host : Endian) (s : PoolUser) : PoolUser → Prop where
  | allocate {chunk size p pool} (hsize : 1 ≤ size) (hlt : size < 2 ^ 64)
      (hfresh : s.pool.Fresh chunk)
      (hcall : s.pool.allocate host chunk size = some (.done (p, pool))) :
      Step host s ⟨pool, ⟨p, size⟩ :: s.live⟩
  /-- A live block is returned with its size. -/
  | deallocate {p size pool} (hlive : ⟨p, size⟩ ∈ s.live)
      (hcall : s.pool.deallocate host p size = some pool) :
      Step host s ⟨pool, s.live.erase ⟨p, size⟩⟩
  | write {x byte} (hx : s.MayWrite x) :
      Step host s ⟨{ s.pool with memory := Function.update s.pool.memory x byte }, s.live⟩

/-- The free lists are empty at the start. -/
def program (host : Endian) : TransitionSystem PoolUser where
  init s := s.pool.freeLists = List.replicate (maxBlock / blockAlign) 0 ∧ s.pool.chunks = [] ∧
    s.live = []
  step := Step host

end PoolUser

end DarwinCore.Container
