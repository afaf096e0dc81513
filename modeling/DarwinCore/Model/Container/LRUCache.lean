import Mathlib.Data.Finmap

/-! # `LRUCache`

The nodes of the list are numbered in the order in which they are made: the number of a node is the
iterator that points to it. -/

namespace DarwinCore.Container

universe u

variable {κ ν φ : Type u}

/-- A node of `list_`. -/
structure CacheNode (κ ν : Type*) where
  it : ℕ
  key : κ
  value : ν
  deriving DecidableEq

/-- What a reference to a value refers to: an object of the caller's, or a value in the cache, in
which a move leaves `rest`. -/
inductive ValueRef (ι ν : Type*) where
  | own (value : ν)
  | stored (place : ι)
  | moved (place : ι) (rest : ν)

def ValueRef.place {ι : Type*} : ValueRef ι ν → Option ι
  | own _ => none
  | stored place => some place
  | moved place _ => some place

/-- `LRUCache`. `φ` are the callbacks. -/
structure LRUCache (κ ν φ : Type u) where
  capacity : ℕ
  list : List (CacheNode κ ν) := []
  map : Finmap fun _ : κ => ℕ := ∅
  evictionCallback : Option φ := none
  made : ℕ := 0

/-- A call of an eviction callback. -/
structure Eviction (κ ν φ : Type*) where
  callback : φ
  key : κ
  value : ν
  deriving DecidableEq

namespace LRUCache

/-- The constructor. -/
def ofCapacity (capacity : ℕ) : Except String (LRUCache κ ν φ) :=
  if capacity = 0 then .error "LRUCache capacity must be greater than 0"
  else .ok { capacity := capacity }

def size (c : LRUCache κ ν φ) : ℕ :=
  c.map.keys.card

/-! ## The list -/

/-- `it->second`, if the iterator points to a node. -/
def valueAt (it : ℕ) (c : LRUCache κ ν φ) : Option ν :=
  (c.list.find? fun node => node.it = it).map CacheNode.value

/-- `it->second = value`. -/
def assign (it : ℕ) (value : ν) (c : LRUCache κ ν φ) : LRUCache κ ν φ :=
  { c with list := c.list.map fun node => if node.it = it then { node with value } else node }

/-- `list_.splice(list_.begin(), list_, it)`. -/
def splice (it : ℕ) (c : LRUCache κ ν φ) : LRUCache κ ν φ :=
  { c with
    list := c.list.filter (fun node => node.it = it) ++ c.list.filter fun node => node.it ≠ it }

/-- What a reference reads, if its object has not been destroyed. -/
def read (value : ValueRef ℕ ν) (c : LRUCache κ ν φ) : Option ν :=
  match value with
  | .own v => some v
  | .stored it => c.valueAt it
  | .moved it _ => c.valueAt it

/-- What a move leaves in the object. -/
def leave (value : ValueRef ℕ ν) (c : LRUCache κ ν φ) : LRUCache κ ν φ :=
  match value with
  | .moved it rest => c.assign it rest
  | _ => c

variable [DecidableEq κ]

/-- `list_.emplace_front(key, value); map_[key] = list_.begin()`. -/
def emplaceFront (key : κ) (value : ν) (c : LRUCache κ ν φ) : LRUCache κ ν φ :=
  { c with
    list := ⟨c.made, key, value⟩ :: c.list
    map := c.map.insert key c.made
    made := c.made + 1 }

/-! ## Evictions -/

/-- `evict`: the calls of the callback, and the cache. -/
def evict (c : LRUCache κ ν φ) : List (Eviction κ ν φ) × LRUCache κ ν φ :=
  match c.list.getLast? with
  | none => ([], c)
  | some back =>
      (c.evictionCallback.toList.map (⟨·, back.key, back.value⟩),
        { c with map := c.map.erase back.key, list := c.list.dropLast })

/-- `while (map_.size() > newCapacity) evict()`, at most `fuel` times. -/
def evictDownTo (newCapacity : ℕ) :
    ℕ → LRUCache κ ν φ → List (Eviction κ ν φ) × LRUCache κ ν φ
  | 0, c => ([], c)
  | fuel + 1, c =>
      if newCapacity < c.size then
        let (first, c) := c.evict
        (evictDownTo newCapacity fuel c).map (first ++ ·) id
      else ([], c)

/-- `if (map_.size() >= capacity_) evict()`. -/
def makeRoom (c : LRUCache κ ν φ) : List (Eviction κ ν φ) × LRUCache κ ν φ :=
  if c.capacity ≤ c.size then c.evict else ([], c)

/-! ## Operations

Each returns or throws something, and leaves the calls of the callback and the cache. -/

def get (key : κ) (c : LRUCache κ ν φ) : Option ν × LRUCache κ ν φ :=
  match c.map.lookup key with
  | none => (none, c)
  | some it => (c.valueAt it, c.splice it)

/-- `at`. -/
def fetch (key : κ) (c : LRUCache κ ν φ) : Except String (Option ν) × LRUCache κ ν φ :=
  match c.map.lookup key with
  | none => (.error "Key not found in LRUCache", c)
  | some it => (.ok (c.valueAt it), c.splice it)

/-- `at` of a `const` cache. -/
def peek (key : κ) (c : LRUCache κ ν φ) : Except String (Option ν) :=
  match c.map.lookup key with
  | none => .error "Key not found in LRUCache"
  | some it => .ok (c.valueAt it)

/-- Both overloads of `put`. There is no cache if the value has been destroyed before it is read:
the behaviour is undefined then. -/
def put (key : κ) (value : ValueRef ℕ ν) (c : LRUCache κ ν φ) :
    List (Eviction κ ν φ) × Option (LRUCache κ ν φ) :=
  match c.map.lookup key with
  | some it => ([], (c.read value).map fun v => ((c.assign it v).splice it).leave value)
  | none => c.makeRoom.map id fun c =>
      (c.read value).map fun v => (c.emplaceFront key v).leave value

def contains (key : κ) (c : LRUCache κ ν φ) : Bool :=
  (c.map.lookup key).isSome

def erase (key : κ) (c : LRUCache κ ν φ) : Bool × LRUCache κ ν φ :=
  match c.map.lookup key with
  | none => (false, c)
  | some it =>
      (true, { c with
        list := c.list.filter fun node => node.it ≠ it
        map := c.map.erase key })

def clear (c : LRUCache κ ν φ) : LRUCache κ ν φ :=
  { c with list := [], map := ∅ }

/-- `resize`. The loop ends after as many turns as there are entries. -/
def resize (newCapacity : ℕ) (c : LRUCache κ ν φ) :
    Except String Unit × List (Eviction κ ν φ) × LRUCache κ ν φ :=
  if newCapacity = 0 then (.error "LRUCache capacity must be greater than 0", [], c)
  else (.ok (), (evictDownTo newCapacity c.size c).map id fun c =>
      { c with capacity := newCapacity })

/-- `getOrInsert`. The factory is called between the eviction and the insertion. -/
def getOrInsert (key : κ) (factory : Except String ν) (c : LRUCache κ ν φ) :
    Except String (Option ν) × List (Eviction κ ν φ) × LRUCache κ ν φ :=
  match c.map.lookup key with
  | some it => (.ok (c.valueAt it), [], c.splice it)
  | none => match factory with
    | .error e => (.error e, c.makeRoom)
    | .ok value => (.ok (some value), c.makeRoom.map id (emplaceFront key value))

end LRUCache

/-! ## Calls -/

/-- Calls on a cache. `put` may be given a reference to the value of a key that is in the cache. -/
inductive CacheCall (κ ν φ : Type*) where
  | setEvictionCallback (callback : Option φ)
  | get (key : κ)
  | fetch (key : κ)
  | peek (key : κ)
  | put (key : κ) (value : ValueRef κ ν)
  | contains (key : κ)
  | erase (key : κ)
  | clear
  | size
  | resize (newCapacity : ℕ)
  | getOrInsert (key : κ) (factory : Except String ν)
  /-- A write through the reference to the value of a key that is in the cache. -/
  | write (key : κ) (value : ν)

/-- What a call returns. -/
inductive CacheReply (ν : Type*) where
  | done
  /-- The behaviour is undefined. -/
  | undefined
  | value (found : Option ν)
  | flag (answer : Bool)
  | number (n : ℕ)
  deriving DecidableEq

/-- The object of a reference, if the key is in the cache. -/
def ValueRef.locate [DecidableEq κ] (c : LRUCache κ ν φ) : ValueRef κ ν → Option (ValueRef ℕ ν)
  | own value => some (.own value)
  | stored key => (c.map.lookup key).map .stored
  | moved key rest => (c.map.lookup key).map fun it => .moved it rest

/-- What a call returns or throws and the callbacks made, and the cache. -/
def CacheCall.run [DecidableEq κ] (c : LRUCache κ ν φ) :
    CacheCall κ ν φ → (Except String (CacheReply ν) × List (Eviction κ ν φ)) × LRUCache κ ν φ
  | setEvictionCallback callback => ((.ok .done, []), { c with evictionCallback := callback })
  | get key => ((.ok (.value (c.get key).1), []), (c.get key).2)
  | fetch key => (((c.fetch key).1.map .value, []), (c.fetch key).2)
  | peek key => (((c.peek key).map .value, []), c)
  | put key value => match value.locate c with
      | none => ((.ok .undefined, []), c)
      | some value => match c.put key value with
          | (evictions, some c) => ((.ok .done, evictions), c)
          | (evictions, none) => ((.ok .undefined, evictions), c.makeRoom.2)
  | contains key => ((.ok (.flag (c.contains key)), []), c)
  | erase key => ((.ok (.flag (c.erase key).1), []), (c.erase key).2)
  | clear => ((.ok .done, []), c.clear)
  | size => ((.ok (.number c.size), []), c)
  | resize newCapacity =>
      let (outcome, evictions, c) := c.resize newCapacity
      ((outcome.map fun _ => .done, evictions), c)
  | getOrInsert key factory =>
      let (outcome, evictions, c) := c.getOrInsert key factory
      ((outcome.map .value, evictions), c)
  | write key value => match c.map.lookup key with
      | none => ((.ok .done, []), c)
      | some it => ((.ok .done, []), c.assign it value)

end DarwinCore.Container
