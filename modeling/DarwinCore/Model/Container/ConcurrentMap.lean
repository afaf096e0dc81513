import DarwinCore.Library.Linearization
import DarwinCore.Library.Locks
import DarwinCore.Library.TransitionSystem
import Mathlib.Data.Finmap

/-! # `ConcurrentMap`

Threads take their steps in any order: to take or release the mutex, to look at the map or to
change it with the mutex held, and to call the factory, which may take any time. -/

namespace DarwinCore.Container

open Linearization

/-- `ConcurrentMap<Key, Value>`. -/
structure ConcurrentMap (ι Key Value : Type*) where
  mutex_ : SharedMutex ι := {}
  map_ : Finmap fun _ : Key => Value := ∅

/-- `getOrInsert` comes with a factory. -/
inductive MapOperation (Key Value : Type*) where
  | insert (key : Key) (value : Value)
  | get (key : Key)
  | erase (key : Key)
  | clear
  | getOrInsert (key : Key)

inductive MapResult (Value : Type*) where
  | done
  /-- What `get` returns. -/
  | got (value : Option Value)
  /-- What `erase` returns. -/
  | erased (success : Bool)
  /-- What `getOrInsert` returns, and whether it is the value that the factory has made. -/
  | value (value : Value) (made : Bool)

/-- It begins with a `std::shared_lock`. -/
def MapOperation.shares {Key Value : Type*} : MapOperation Key Value → Bool
  | get _ => true
  | getOrInsert _ => true
  | _ => false

open SharedMutex (Mode)

/-- Where a call is. -/
inductive MapPhase (Value : Type*) where
  /-- Before it takes the mutex. -/
  | entering
  /-- Before it looks for the key, with the mutex shared. -/
  | reading
  /-- `getOrInsert` has not found the key, and still shares the mutex. -/
  | missing
  /-- Before `getOrInsert` takes the mutex alone. -/
  | reentering
  /-- Before it changes the map, or `getOrInsert` looks again, with the mutex alone. -/
  | writing
  /-- In the factory. -/
  | making
  /-- Before `emplace`. -/
  | storing (value : Value)
  /-- Before it releases the mutex. -/
  | leaving (mode : Mode) (result : MapResult Value)
  | returning (result : MapResult Value)

/-- What it holds of the mutex. -/
def MapPhase.held {Value : Type*} : MapPhase Value → Option Mode
  | entering => none
  | reading => some .shared
  | missing => some .shared
  | reentering => none
  | writing => some .exclusive
  | making => some .exclusive
  | storing _ => some .exclusive
  | leaving mode _ => some mode
  | returning _ => none

structure MapCall (Key Value : Type*) where
  number : ℕ
  operation : MapOperation Key Value
  phase : MapPhase Value := .entering

section Steps

variable {ι Key Value : Type*} [DecidableEq ι] [DecidableEq Key]

/-- A step of a call of the thread `i`: the map before, the call, the map after, where the call
then is, and its result if it takes effect. -/
inductive MapCall.Step (i : ι) : ConcurrentMap ι Key Value → MapCall Key Value →
    ConcurrentMap ι Key Value → MapPhase Value → Option (MapResult Value) → Prop where
  | lockShared {m : ConcurrentMap ι Key Value} {mutex : SharedMutex ι} {c : ℕ}
      {op : MapOperation Key Value} (hop : op.shares = true)
      (hlock : SharedMutex.Step i m.mutex_ none mutex (some .shared)) :
      Step i m ⟨c, op, .entering⟩ { m with mutex_ := mutex } .reading none
  | lock {m : ConcurrentMap ι Key Value} {mutex : SharedMutex ι} {c : ℕ}
      {op : MapOperation Key Value} (hop : op.shares = false)
      (hlock : SharedMutex.Step i m.mutex_ none mutex (some .exclusive)) :
      Step i m ⟨c, op, .entering⟩ { m with mutex_ := mutex } .writing none
  | get {m : ConcurrentMap ι Key Value} {c : ℕ} {key : Key} :
      Step i m ⟨c, .get key, .reading⟩ m (.leaving .shared (.got (m.map_.lookup key)))
        (some (.got (m.map_.lookup key)))
  | insert {m : ConcurrentMap ι Key Value} {c : ℕ} {key : Key} {value : Value} :
      Step i m ⟨c, .insert key value, .writing⟩ { m with map_ := m.map_.insert key value }
        (.leaving .exclusive .done) (some .done)
  | erase {m : ConcurrentMap ι Key Value} {c : ℕ} {key : Key} :
      Step i m ⟨c, .erase key, .writing⟩ { m with map_ := m.map_.erase key }
        (.leaving .exclusive (.erased (m.map_.lookup key).isSome))
        (some (.erased (m.map_.lookup key).isSome))
  | clear {m : ConcurrentMap ι Key Value} {c : ℕ} :
      Step i m ⟨c, .clear, .writing⟩ { m with map_ := ∅ } (.leaving .exclusive .done) (some .done)
  /-- The first look of `getOrInsert`. -/
  | found {m : ConcurrentMap ι Key Value} {c : ℕ} {key : Key} {value : Value}
      (hvalue : m.map_.lookup key = some value) :
      Step i m ⟨c, .getOrInsert key, .reading⟩ m (.leaving .shared (.value value false))
        (some (.value value false))
  | notFound {m : ConcurrentMap ι Key Value} {c : ℕ} {key : Key}
      (hvalue : m.map_.lookup key = none) :
      Step i m ⟨c, .getOrInsert key, .reading⟩ m .missing none
  | unlockShared {m : ConcurrentMap ι Key Value} {mutex : SharedMutex ι} {c : ℕ} {key : Key}
      (hunlock : SharedMutex.Step i m.mutex_ (some .shared) mutex none) :
      Step i m ⟨c, .getOrInsert key, .missing⟩ { m with mutex_ := mutex } .reentering none
  | relock {m : ConcurrentMap ι Key Value} {mutex : SharedMutex ι} {c : ℕ} {key : Key}
      (hlock : SharedMutex.Step i m.mutex_ none mutex (some .exclusive)) :
      Step i m ⟨c, .getOrInsert key, .reentering⟩ { m with mutex_ := mutex } .writing none
  /-- The second look. -/
  | foundAgain {m : ConcurrentMap ι Key Value} {c : ℕ} {key : Key} {value : Value}
      (hvalue : m.map_.lookup key = some value) :
      Step i m ⟨c, .getOrInsert key, .writing⟩ m (.leaving .exclusive (.value value false))
        (some (.value value false))
  | callFactory {m : ConcurrentMap ι Key Value} {c : ℕ} {key : Key}
      (hvalue : m.map_.lookup key = none) :
      Step i m ⟨c, .getOrInsert key, .writing⟩ m .making none
  /-- The factory returns a value. -/
  | made {m : ConcurrentMap ι Key Value} {c : ℕ} {key : Key} (value : Value) :
      Step i m ⟨c, .getOrInsert key, .making⟩ m (.storing value) none
  | emplace {m : ConcurrentMap ι Key Value} {c : ℕ} {key : Key} {value : Value}
      (hvalue : m.map_.lookup key = none) :
      Step i m ⟨c, .getOrInsert key, .storing value⟩ { m with map_ := m.map_.insert key value }
        (.leaving .exclusive (.value value true)) (some (.value value true))
  /-- `emplace` leaves an element that is there. -/
  | emplaceHeld {m : ConcurrentMap ι Key Value} {c : ℕ} {key : Key} {value held : Value}
      (hvalue : m.map_.lookup key = some held) :
      Step i m ⟨c, .getOrInsert key, .storing value⟩ m
        (.leaving .exclusive (.value held false)) (some (.value held false))
  | unlock {m : ConcurrentMap ι Key Value} {mutex : SharedMutex ι} {c : ℕ}
      {op : MapOperation Key Value} {mode : Mode} {result : MapResult Value}
      (hunlock : SharedMutex.Step i m.mutex_ (some mode) mutex none) :
      Step i m ⟨c, op, .leaving mode result⟩ { m with mutex_ := mutex } (.returning result) none

structure MapSystem (ι Key Value : Type*) where
  map : ConcurrentMap ι Key Value := {}
  /-- The calls that have not returned, at most one of each thread. -/
  calls : ι → Option (MapCall Key Value) := fun _ => none
  /-- The number of the next call. -/
  nextCall : ℕ := 0
  log : List (CallEvent (MapOperation Key Value) (MapResult Value)) := []

inductive MapSystem.Step : MapSystem ι Key Value → MapSystem ι Key Value → Prop where
  | call {s : MapSystem ι Key Value} (i : ι) (op : MapOperation Key Value)
      (h : s.calls i = none) :
      Step s { s with
        calls := Function.update s.calls i (some { number := s.nextCall, operation := op })
        nextCall := s.nextCall + 1
        log := .call s.nextCall op :: s.log }
  | goOn {s : MapSystem ι Key Value} {i : ι} {call : MapCall Key Value}
      {m : ConcurrentMap ι Key Value} {phase : MapPhase Value} {result : Option (MapResult Value)}
      (h : s.calls i = some call) (hstep : call.Step i s.map m phase result) :
      Step s { s with
        map := m
        calls := Function.update s.calls i (some { call with phase := phase })
        log := (result.map (.commit call.number call.operation)).toList ++ s.log }
  | ret {s : MapSystem ι Key Value} {i : ι} {c : ℕ} {op : MapOperation Key Value}
      {result : MapResult Value} (h : s.calls i = some ⟨c, op, .returning result⟩) :
      Step s { s with
        calls := Function.update s.calls i none
        log := .ret c result :: s.log }

/-- The runs of a map from its construction on. -/
def concurrentMaps (ι Key Value : Type*) [DecidableEq ι] [DecidableEq Key] :
    TransitionSystem (MapSystem ι Key Value) where
  init s := s = {}
  step := MapSystem.Step

end Steps

end DarwinCore.Container
