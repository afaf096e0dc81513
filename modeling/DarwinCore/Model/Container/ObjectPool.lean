import Mathlib.Logic.Function.Iterate
import Mathlib.Data.Nat.Notation

/-! # `ObjectPool`

The objects are numbered in the order in which they are made. -/

namespace DarwinCore.Container

variable {τ : Type*}

/-- An object of a pool. -/
structure PoolObject (τ : Type*) where
  number : ℕ
  value : τ
  deriving DecidableEq

/-- `ObjectPool::PooledObject`: the object, and whether there is a pool to give it back to. -/
structure PooledObject (τ : Type*) where
  object : Option (PoolObject τ)
  pool : Bool
  deriving DecidableEq

/-- A handle without an object. -/
def PooledObject.null : PooledObject τ :=
  ⟨none, false⟩

/-- `ObjectPool`, whose create function gives the objects one after another. -/
structure ObjectPool (τ : Type*) where
  createFunc : ℕ → τ
  resetFunc : Option (τ → τ)
  maxSize : ℕ
  createdCount : ℕ := 0
  pool : List (PoolObject τ) := []
  made : ℕ := 0

namespace ObjectPool

/-- `createFunc_(); ++createdCount_`. -/
def create (p : ObjectPool τ) : PoolObject τ × ObjectPool τ :=
  (⟨p.made, p.createFunc p.made⟩,
    { p with createdCount := p.createdCount + 1, made := p.made + 1 })

/-- `pool_.push`. -/
def push (object : PoolObject τ) (p : ObjectPool τ) : ObjectPool τ :=
  { p with pool := object :: p.pool }

/-- `pool_.push(createFunc_()); ++createdCount_`. -/
def pushCreated (p : ObjectPool τ) : ObjectPool τ :=
  p.create.2.push p.create.1

/-- The constructor, with a create function. -/
def ofSize (initialSize : ℕ) (createFunc : ℕ → τ) (resetFunc : Option (τ → τ)) (maxSize : ℕ) :
    ObjectPool τ :=
  Nat.iterate pushCreated initialSize { createFunc, resetFunc, maxSize }

/-- The constructor. -/
def construct (initialSize : ℕ) (createFunc : Option (ℕ → τ)) (resetFunc : Option (τ → τ))
    (maxSize : ℕ) : Except String (ObjectPool τ) :=
  match createFunc with
  | none => .error "ObjectPool requires a create function"
  | some createFunc => .ok (ofSize initialSize createFunc resetFunc maxSize)

def tryAcquire (p : ObjectPool τ) : PooledObject τ × ObjectPool τ :=
  match p.pool with
  | [] => (.null, p)
  | object :: rest => (⟨some object, true⟩, { p with pool := rest })

def acquire (p : ObjectPool τ) : PooledObject τ × ObjectPool τ :=
  match p.pool with
  | object :: rest => (⟨some object, true⟩, { p with pool := rest })
  | [] =>
      if p.maxSize = 0 ∨ p.createdCount < p.maxSize then
        p.create.map (fun object => ⟨some object, true⟩) id
      else (.null, p)

def totalCreated (p : ObjectPool τ) : ℕ :=
  p.createdCount

def borrowed (p : ObjectPool τ) : ℕ :=
  p.createdCount - p.pool.length

def clear (p : ObjectPool τ) : ObjectPool τ :=
  { p with pool := [], createdCount := p.createdCount - p.pool.length }

/-- The loop of `warmUp`, at most `fuel` times. -/
def warmUpLoop (count : ℕ) : ℕ → ObjectPool τ → ObjectPool τ
  | 0, p => p
  | fuel + 1, p =>
      if p.pool.length < count then
        if 0 < p.maxSize ∧ p.maxSize ≤ p.createdCount then p
        else warmUpLoop count fuel p.pushCreated
      else p

/-- `warmUp`. Each turn of the loop adds an object, so that it ends after `count` turns. -/
def warmUp (count : ℕ) (p : ObjectPool τ) : ObjectPool τ :=
  warmUpLoop count count p

def release (object : PoolObject τ) (p : ObjectPool τ) : ObjectPool τ :=
  p.push { object with value := (p.resetFunc.getD id) object.value }

/-- `if (object_ && pool_) pool_->release(std::move(object_))`. -/
def takeBack (handle : PooledObject τ) (p : ObjectPool τ) : ObjectPool τ :=
  match handle.object, handle.pool with
  | some object, true => p.release object
  | _, _ => p

end ObjectPool

/-! ## Calls -/

/-- A pool, the handles that are alive, and the objects that were detached. -/
structure PoolProgram (ι τ : Type*) where
  pool : ObjectPool τ
  handles : ι → Option (PooledObject τ) := fun _ => none
  detached : List (PoolObject τ) := []

/-- Calls of a program. -/
inductive PoolCall (ι : Type*) where
  /-- `i = pool.acquire()`, where the handle may be a new one. -/
  | acquire (i : ι)
  | tryAcquire (i : ι)
  | warmUp (count : ℕ)
  | clear
  | destroy (i : ι)
  /-- A new handle `j` is constructed from `std::move(i)`. -/
  | moveConstruct (i j : ι)
  /-- `j = std::move(i)`. -/
  | moveAssign (i j : ι)
  /-- `i.release()`. -/
  | detach (i : ι)

namespace PoolProgram

variable {ι : Type*} [DecidableEq ι]

/-- The handle `i` is assigned to, if it is alive, or constructed. -/
def assign (i : ι) (handle : PooledObject τ) (s : PoolProgram ι τ) : PoolProgram ι τ :=
  { s with
    pool := match s.handles i with
      | none => s.pool
      | some old => s.pool.takeBack old
    handles := Function.update s.handles i (some handle) }

/-- `assign` from a handle that is alive, which is then without an object. -/
def moveFrom (i j : ι) (s : PoolProgram ι τ) : PoolProgram ι τ :=
  match s.handles i with
  | none => s
  | some handle =>
      assign j handle { s with handles := Function.update s.handles i (some .null) }

/-- The state after a call, and the handle that the pool returns. A call on a handle that is not
alive, or that constructs one that is, is not made. -/
def run (s : PoolProgram ι τ) : PoolCall ι → Option (PooledObject τ) × PoolProgram ι τ
  | .acquire i =>
      (some s.pool.acquire.1, assign i s.pool.acquire.1 { s with pool := s.pool.acquire.2 })
  | .tryAcquire i =>
      (some s.pool.tryAcquire.1,
        assign i s.pool.tryAcquire.1 { s with pool := s.pool.tryAcquire.2 })
  | .warmUp count => (none, { s with pool := s.pool.warmUp count })
  | .clear => (none, { s with pool := s.pool.clear })
  | .destroy i => match s.handles i with
      | none => (none, s)
      | some handle =>
          (none, { s with
            pool := s.pool.takeBack handle
            handles := Function.update s.handles i none })
  | .moveConstruct i j =>
      if (s.handles j).isSome then (none, s) else (none, s.moveFrom i j)
  | .moveAssign i j =>
      if i = j ∨ s.handles j = none then (none, s) else (none, s.moveFrom i j)
  | .detach i => match s.handles i with
      | none => (none, s)
      | some handle =>
          (none, { s with
            handles := Function.update s.handles i (some .null)
            detached := handle.object.toList ++ s.detached })

end PoolProgram

end DarwinCore.Container
