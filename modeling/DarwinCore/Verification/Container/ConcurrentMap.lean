import DarwinCore.Library.Lists
import DarwinCore.Model.Container.ConcurrentMap

/-! # Calls of `getOrInsert` that race

Each call takes effect while it holds the mutex, so that the calls are linearizable: between its
second look and `emplace` a call of `getOrInsert` has the map for itself. -/

namespace DarwinCore.Container

open Linearization
open SharedMutex (Mode)

variable {ι Key Value : Type*}

/-! ## A map -/

section Sequential

variable [DecidableEq Key]

/-- What the operations do when they are called one after another. -/
inductive MapStep : MapOperation Key Value → (Finmap fun _ : Key => Value) → MapResult Value →
    (Finmap fun _ : Key => Value) → Prop where
  | insert {map : Finmap fun _ : Key => Value} {key : Key} {value : Value} :
      MapStep (.insert key value) map .done (map.insert key value)
  | get {map : Finmap fun _ : Key => Value} {key : Key} :
      MapStep (.get key) map (.got (map.lookup key)) map
  | erase {map : Finmap fun _ : Key => Value} {key : Key} :
      MapStep (.erase key) map (.erased (map.lookup key).isSome) (map.erase key)
  | clear {map : Finmap fun _ : Key => Value} : MapStep .clear map .done ∅
  | held {map : Finmap fun _ : Key => Value} {key : Key} {value : Value}
      (h : map.lookup key = some value) :
      MapStep (.getOrInsert key) map (.value value false) map
  | made {map : Finmap fun _ : Key => Value} {key : Key} {value : Value}
      (h : map.lookup key = none) :
      MapStep (.getOrInsert key) map (.value value true) (map.insert key value)

def sequentialMap (Key Value : Type*) [DecidableEq Key] :
    SequentialObject (MapOperation Key Value) (MapResult Value) (Finmap fun _ : Key => Value) where
  init := ∅
  step := MapStep

inductive StoresKey (key : Key) : ℕ × MapOperation Key Value × MapResult Value → Prop where
  | inserted (c : ℕ) (value : Value) : StoresKey key (c, .insert key value, .done)
  | made (c : ℕ) (value : Value) : StoresKey key (c, .getOrInsert key, .value value true)

inductive RemovesKey (key : Key) : ℕ × MapOperation Key Value × MapResult Value → Prop where
  | erased (c : ℕ) : RemovesKey key (c, .erase key, .erased true)
  | cleared (c : ℕ) : RemovesKey key (c, .clear, .done)

variable {map map' : Finmap fun _ : Key => Value} {key : Key} {result : MapResult Value}
  {newer between older : List (ℕ × MapOperation Key Value × MapResult Value)}
  {x : ℕ × MapOperation Key Value × MapResult Value} {c : ℕ} {op : MapOperation Key Value}

/-- `getOrInsert` returns what the map then has. -/
theorem MapStep.returns (h : MapStep (.getOrInsert key) map result map') :
    ∃ value made, result = .value value made ∧ map'.lookup key = some value := by
  cases h with
  | held h => exact ⟨_, false, rfl, h⟩
  | made h => exact ⟨_, true, rfl, Finmap.lookup_insert map⟩

theorem MapStep.stores (h : MapStep op map result map') (hstores : StoresKey key (c, op, result)) :
    key ∈ map' := by
  cases hstores with
  | inserted =>
    cases h
    exact Finmap.mem_insert.mpr (.inl rfl)
  | made =>
    cases h
    exact Finmap.mem_insert.mpr (.inl rfl)

theorem MapStep.keeps (h : MapStep op map result map') (hkeeps : ¬RemovesKey key (c, op, result))
    (hmem : key ∈ map) : key ∈ map' := by
  cases h with
  | insert => exact Finmap.mem_insert.mpr (.inr hmem)
  | get => exact hmem
  | @erase _ other =>
    refine Finmap.mem_erase.mpr ⟨?_, hmem⟩
    rintro rfl
    refine hkeeps ?_
    rw [Finmap.lookup_isSome.mpr hmem]
    exact .erased c
  | clear => exact absurd (.cleared c) hkeeps
  | held => exact hmem
  | made => exact Finmap.mem_insert.mpr (.inr hmem)

theorem mem_of_stores (hlegal : (sequentialMap Key Value).Legal (between ++ x :: older) map)
    (hstores : StoresKey key x) (hkeeps : ∀ y ∈ between, ¬RemovesKey key y) : key ∈ map := by
  induction between generalizing map with
  | nil =>
    cases hlegal with
    | cons h hstep => exact MapStep.stores hstep hstores
  | cons y between ih =>
    obtain ⟨hy, hbetween⟩ := List.forall_mem_cons.mp hkeeps
    cases hlegal with
    | cons h hstep => exact MapStep.keeps hstep hy (ih h hbetween)

/-- Between two moments in which a key is stored, the second time from a factory, the key is
removed. -/
theorem removed_between {value : Value}
    (hlegal : (sequentialMap Key Value).Legal
      (newer ++ (c, .getOrInsert key, .value value true) :: (between ++ x :: older)) map)
    (hstores : StoresKey key x) : ∃ y ∈ between, RemovesKey key y := by
  obtain ⟨map', hmade⟩ := hlegal.of_append
  by_contra hnone
  push Not at hnone
  cases hmade with
  | cons h hstep =>
    have hmem := mem_of_stores h hstores hnone
    have hstep' : MapStep (.getOrInsert key) _ (.value value true) map' := hstep
    cases hstep' with
    | made habsent => exact Finmap.lookup_eq_none.mp habsent hmem

end Sequential

/-! ## How far a call has come -/

/-- The result, once the call has taken effect. -/
def MapPhase.result : MapPhase Value → Option (MapResult Value)
  | leaving _ result => some result
  | returning result => some result
  | _ => none

/-- How many steps are left at most, the return among them. -/
def MapPhase.left : MapPhase Value → ℕ
  | entering => 9
  | reading => 8
  | missing => 7
  | reentering => 6
  | writing => 5
  | making => 4
  | storing _ => 3
  | leaving _ _ => 2
  | returning _ => 1

/-- The log says how far the call has come. -/
def MapCall.Recorded (call : MapCall Key Value)
    (log : List (CallEvent (MapOperation Key Value) (MapResult Value))) : Prop :=
  match call.phase.result with
  | some result => .commit call.number call.operation result ∈ log
  | none => Pending log call.number call.operation

theorem MapCall.Recorded.cons {call : MapCall Key Value}
    {log : List (CallEvent (MapOperation Key Value) (MapResult Value))}
    {e : CallEvent (MapOperation Key Value) (MapResult Value)} (h : call.Recorded log)
    (hother : ∀ op result, e ≠ .commit call.number op result) : call.Recorded (e :: log) := by
  unfold Recorded at h ⊢
  split at h
  · exact List.mem_cons_of_mem e h
  · exact Pending.cons h hother

namespace MapSystem

def held (calls : ι → Option (MapCall Key Value)) (i : ι) : Option Mode :=
  (calls i).bind fun call => call.phase.held

section Update

variable [DecidableEq ι] {i : ι} {calls : ι → Option (MapCall Key Value)}
  {new : Option (MapCall Key Value)}

theorem held_update (calls : ι → Option (MapCall Key Value)) (i : ι)
    (new : Option (MapCall Key Value)) : held (Function.update calls i new) =
      Function.update (held calls) i (new.bind fun call => call.phase.held) := by
  funext j
  by_cases hji : j = i
  · subst hji
    simp [held]
  · simp [held, Function.update_of_ne hji]

/-- Where the call of one thread changes, the calls of the others are the same as before. -/
theorem forall_update {P : ι → MapCall Key Value → Prop}
    (hnew : ∀ call, new = some call → P i call)
    (hothers : ∀ j call, j ≠ i → calls j = some call → P j call) :
    ∀ j call, Function.update calls i new j = some call → P j call := by
  intro j call hj
  by_cases hji : j = i
  · subst hji
    rw [Function.update_self] at hj
    exact hnew call hj
  · rw [Function.update_of_ne hji] at hj
    exact hothers j call hji hj

end Update

end MapSystem

/-! ## The steps of a call -/

variable [DecidableEq Key]

def MapOperation.Effect (op : MapOperation Key Value) (map : Finmap fun _ : Key => Value) :
    Option (MapResult Value) → (Finmap fun _ : Key => Value) → Prop
  | some result, map' => MapStep op map result map'
  | none, map' => map' = map

/-- What a call relies on. From its second look on, `getOrInsert` relies on the key to be
absent. -/
def MapCall.Relies (call : MapCall Key Value) (map : Finmap fun _ : Key => Value) : Prop :=
  match call.phase with
  | .reading => call.operation.shares = true
  | .missing => ∃ key, call.operation = .getOrInsert key
  | .reentering => ∃ key, call.operation = .getOrInsert key
  | .writing => ∀ key, call.operation ≠ .get key
  | .making => ∃ key, call.operation = .getOrInsert key ∧ map.lookup key = none
  | .storing _ => ∃ key, call.operation = .getOrInsert key ∧ map.lookup key = none
  | _ => True

namespace MapSystem

/-- The calls take effect one at a time, each of them once, and rely on what is so. -/
structure Sound (s : MapSystem ι Key Value) : Prop where
  ordered : Ordered s.log
  legal : (sequentialMap Key Value).Legal (commits s.log) s.map.map_
  recorded : ∀ i call, s.calls i = some call → call.Recorded s.log
  relies : ∀ i call, s.calls i = some call → call.Relies s.map.map_
  distinct : ∀ i j call call', s.calls i = some call → s.calls j = some call' →
    call.number = call'.number → i = j
  old : ∀ c op, .call c op ∈ s.log → c < s.nextCall
  mutex : s.map.mutex_.Agrees (held s.calls)

theorem sound_init : ({} : MapSystem ι Key Value).Sound where
  ordered := .nil
  legal := .nil
  recorded i call hcall := by cases hcall
  relies i call hcall := by cases hcall
  distinct i j call call' hcall := by cases hcall
  old c op hmem := by cases hmem
  mutex := SharedMutex.agrees_init

theorem Sound.number_lt {s : MapSystem ι Key Value} {i : ι} {call : MapCall Key Value}
    (h : s.Sound) (hcall : s.calls i = some call) : call.number < s.nextCall := by
  have hrecorded := h.recorded i call hcall
  unfold MapCall.Recorded at hrecorded
  split at hrecorded
  · exact h.old _ _ (h.ordered.called hrecorded)
  · exact h.old _ _ hrecorded.1

end MapSystem

variable [DecidableEq ι]

namespace MapCall.Step

variable {i : ι} {m m' : ConcurrentMap ι Key Value} {call : MapCall Key Value}
  {phase : MapPhase Value} {result : Option (MapResult Value)}

theorem effect (h : call.Step i m m' phase result) :
    call.operation.Effect m.map_ result m'.map_ := by
  cases h with
  | get => exact .get
  | insert => exact .insert
  | erase => exact .erase
  | clear => exact .clear
  | found hvalue => exact .held hvalue
  | foundAgain hvalue => exact .held hvalue
  | emplace hvalue => exact .made hvalue
  | emplaceHeld hvalue => exact .held hvalue
  | _ => rfl

theorem result_eq (h : call.Step i m m' phase result) :
    phase.result = result.or call.phase.result ∧ (result ≠ none → call.phase.result = none) := by
  cases h <;> exact ⟨rfl, by simp [MapPhase.result]⟩

theorem mutex (h : call.Step i m m' phase result) :
    (m'.mutex_ = m.mutex_ ∧ phase.held = call.phase.held) ∨
      SharedMutex.Step i m.mutex_ call.phase.held m'.mutex_ phase.held := by
  cases h with
  | lockShared hop hlock => exact .inr hlock
  | lock hop hlock => exact .inr hlock
  | unlockShared hunlock => exact .inr hunlock
  | relock hlock => exact .inr hlock
  | unlock hunlock => exact .inr hunlock
  | _ => exact .inl ⟨rfl, rfl⟩

theorem alone (h : call.Step i m m' phase result) :
    m'.map_ = m.map_ ∨ call.phase.held = some .exclusive := by
  cases h with
  | insert => exact .inr rfl
  | erase => exact .inr rfl
  | clear => exact .inr rfl
  | emplace => exact .inr rfl
  | _ => exact .inl rfl

theorem relies (h : call.Step i m m' phase result) (hrelies : call.Relies m.map_) :
    ({ call with phase := phase } : MapCall Key Value).Relies m'.map_ := by
  cases h with
  | lockShared hop => exact hop
  | @lock _ _ op hop =>
    intro key heq
    obtain rfl : op = .get key := heq
    cases hop
  | notFound => exact ⟨_, rfl⟩
  | unlockShared => exact ⟨_, rfl⟩
  | relock => exact nofun
  | callFactory hvalue => exact ⟨_, rfl, hvalue⟩
  | made => exact hrelies
  | _ => trivial

theorem left_lt (h : call.Step i m m' phase result) : phase.left < call.phase.left := by
  cases h <;> simp [MapPhase.left]

/-- What `getOrInsert` has made is stored. -/
theorem storing {value : Value} (h : call.Step i m m' phase result)
    (hphase : call.phase = .storing value) (hrelies : call.Relies m.map_) :
    result = some (.value value true) ∧
      ∃ key, call.operation = .getOrInsert key ∧ m'.map_.lookup key = some value := by
  cases h with
  | emplace hvalue =>
    cases hphase
    exact ⟨rfl, _, rfl, Finmap.lookup_insert m.map_⟩
  | emplaceHeld hvalue =>
    obtain ⟨key, hkey, habsent⟩ := hrelies
    cases hkey
    rw [habsent] at hvalue
    cases hvalue
  | _ => cases hphase

end MapCall.Step

/-! ## Linearizability -/

namespace MapSystem

variable {s t : MapSystem ι Key Value} {i j : ι} {call other : MapCall Key Value}

/-- The calls keep different numbers, as long as a new one has another number. -/
theorem Sound.distinct_update (h : s.Sound) {new : Option (MapCall Key Value)}
    (hnew : ∀ call j other, new = some call → j ≠ i → s.calls j = some other →
      call.number ≠ other.number) (j k : ι) (call call' : MapCall Key Value)
    (hj : Function.update s.calls i new j = some call)
    (hk : Function.update s.calls i new k = some call') (heq : call.number = call'.number) :
    j = k := by
  by_cases hji : j = i <;> by_cases hki : k = i
  · rw [hji, hki]
  · rw [hji, Function.update_self] at hj
    rw [Function.update_of_ne hki] at hk
    exact absurd heq (hnew call k call' hj hki hk)
  · rw [hki, Function.update_self] at hk
    rw [Function.update_of_ne hji] at hj
    exact absurd heq.symm (hnew call' j call hk hji hj)
  · rw [Function.update_of_ne hji] at hj
    rw [Function.update_of_ne hki] at hk
    exact h.distinct j k call call' hj hk heq

/-- A call begins. -/
theorem Sound.called (h : s.Sound) (op : MapOperation Key Value) (hidle : s.calls i = none) :
    ({ s with
      calls := Function.update s.calls i (some { number := s.nextCall, operation := op })
      nextCall := s.nextCall + 1
      log := .call s.nextCall op :: s.log } : MapSystem ι Key Value).Sound where
  ordered := h.ordered.call fun op' hmem => Nat.lt_irrefl _ (h.old _ op' hmem)
  legal := h.legal
  recorded := by
    refine forall_update (fun call heq => ?_) fun j call _ hj => ?_
    · cases heq
      exact h.ordered.pending (fun op' hmem => Nat.lt_irrefl _ (h.old _ op' hmem)) op
    · exact (h.recorded j call hj).cons fun _ _ => nofun
  relies := by
    refine forall_update (fun call heq => ?_) fun j call _ hj => h.relies j call hj
    cases heq
    trivial
  distinct := h.distinct_update fun call j other heq _ hj => by
    cases heq
    exact (Nat.ne_of_lt (h.number_lt hj)).symm
  old c op' hmem := by
    rcases List.mem_cons.mp hmem with heq | hlog
    · cases heq
      exact Nat.lt_succ_self _
    · exact Nat.lt_succ_of_lt (h.old c op' hlog)
  mutex := by
    have hsame : held s.calls i = none := by rw [held, hidle, Option.bind_none]
    rw [held_update, Option.bind_some, MapPhase.held, ← hsame, Function.update_eq_self]
    exact h.mutex

theorem Sound.ret (h : s.Sound) {c : ℕ} {op : MapOperation Key Value} {result : MapResult Value}
    (hcall : s.calls i = some ⟨c, op, .returning result⟩) :
    ({ s with
      calls := Function.update s.calls i none
      log := .ret c result :: s.log } : MapSystem ι Key Value).Sound where
  ordered := h.ordered.ret (h.recorded i _ hcall)
  legal := h.legal
  recorded := forall_update (fun _ heq => by cases heq) fun j call _ hj =>
    (h.recorded j call hj).cons fun _ _ heq => by cases heq
  relies := forall_update (fun _ heq => by cases heq) fun j call _ hj => h.relies j call hj
  distinct := h.distinct_update fun _ _ _ heq => by cases heq
  old c op hmem := h.old c op (by simpa using hmem)
  mutex := by
    have hsame : held s.calls i = none := by
      rw [held, hcall, Option.bind_some, MapPhase.held]
    rw [held_update, Option.bind_none, ← hsame, Function.update_eq_self]
    exact h.mutex

/-- What another thread relies on is not changed. -/
theorem Sound.relies_of_ne (h : s.Sound) {m : ConcurrentMap ι Key Value} {phase : MapPhase Value}
    {result : Option (MapResult Value)} (hcall : s.calls i = some call)
    (hstep : call.Step i s.map m phase result) (hji : j ≠ i) (hother : s.calls j = some other) :
    other.Relies m.map_ := by
  have hrelies := h.relies j other hother
  rcases hstep.alone with hmap | hheld
  · rw [hmap]
    exact hrelies
  · -- the other thread holds nothing, so that it relies on nothing in the map
    have hfree : other.phase.held = none := by
      by_contra hsome
      have hi : held s.calls i = some .exclusive := by rw [held, hcall, Option.bind_some, hheld]
      have hj : held s.calls j ≠ none := by rwa [held, hother, Option.bind_some]
      exact hji (h.mutex.eq hi hj).symm
    obtain ⟨c, op, phase⟩ := other
    cases phase with
    | making => cases hfree
    | storing => cases hfree
    | _ => exact hrelies

/-- A call takes a step of its own. -/
theorem Sound.goOn (h : s.Sound) {m : ConcurrentMap ι Key Value} {phase : MapPhase Value}
    {result : Option (MapResult Value)} (hcall : s.calls i = some call)
    (hstep : call.Step i s.map m phase result) :
    ({ s with
      map := m
      calls := Function.update s.calls i (some { call with phase := phase })
      log := (result.map (.commit call.number call.operation)).toList ++ s.log } :
        MapSystem ι Key Value).Sound := by
  have hrecorded := h.recorded i call hcall
  obtain ⟨hresult, hfirst⟩ := hstep.result_eq
  have hrelies : ∀ j call', Function.update s.calls i (some { call with phase := phase }) j =
      some call' → call'.Relies m.map_ := by
    refine forall_update (fun call' heq => ?_) fun j call' hji hj => ?_
    · cases heq
      exact hstep.relies (h.relies i call hcall)
    · exact h.relies_of_ne hcall hstep hji hj
  have hnumber : ∀ call' j other, some { call with phase := phase } = some call' → j ≠ i →
      s.calls j = some other → call'.number ≠ other.number := by
    intro call' j other heq hji hj
    cases heq
    exact fun hnumber => hji (h.distinct i j call other hcall hj hnumber).symm
  have hdistinct := h.distinct_update hnumber
  have hmutex : m.mutex_.Agrees
      (held (Function.update s.calls i (some { call with phase := phase }))) := by
    have hheld : held s.calls i = call.phase.held := by rw [held, hcall, Option.bind_some]
    rw [held_update, Option.bind_some]
    rcases hstep.mutex with ⟨hsame, hphase⟩ | htakes
    · rw [hsame, hphase, ← hheld, Function.update_eq_self]
      exact h.mutex
    · exact h.mutex.step hheld htakes
  have heffect := hstep.effect
  cases result with
  | none =>
    refine ⟨h.ordered, ?_, ?_, hrelies, hdistinct, h.old, hmutex⟩
    · have hsame : m.map_ = s.map.map_ := heffect
      rw [hsame]
      exact h.legal
    · refine forall_update (fun call' heq => ?_) fun j call' _ hj => h.recorded j call' hj
      cases heq
      unfold MapCall.Recorded at hrecorded ⊢
      rw [hresult]
      exact hrecorded
  | some result =>
    have hpending : Pending s.log call.number call.operation := by
      unfold MapCall.Recorded at hrecorded
      rwa [hfirst (Option.some_ne_none result)] at hrecorded
    refine ⟨hpending.commit h.ordered result, .cons h.legal heffect, ?_, hrelies, hdistinct,
      fun c op hmem => ?_, hmutex⟩
    · refine forall_update (fun call' heq => ?_) fun j call' hji hj => ?_
      · cases heq
        unfold MapCall.Recorded
        rw [hresult]
        exact List.mem_cons_self
      · refine (h.recorded j call' hj).cons fun op' result' heq => ?_
        exact hji (h.distinct j i call' call hj hcall (CallEvent.commit.inj heq).1.symm)
    · exact h.old c op (by simpa using hmem)

theorem Step.sound (hstep : MapSystem.Step s t) (h : s.Sound) : t.Sound := by
  cases hstep with
  | call i op hidle => exact h.called op hidle
  | goOn hcall hstep => exact h.goOn hcall hstep
  | ret hcall => exact h.ret hcall

end MapSystem

/-! ## Calls return -/

namespace MapCall

variable {i : ι} {m : ConcurrentMap ι Key Value} {call : MapCall Key Value}

/-- A call that holds the mutex can go on, unless its factory has yet to return. -/
theorem can_goOn (hrelies : call.Relies m.map_) (hheld : call.phase.held ≠ none)
    (hmaking : call.phase ≠ .making) : ∃ m' phase result, call.Step i m m' phase result := by
  obtain ⟨c, op, phase⟩ := call
  cases phase with
  | entering => exact absurd rfl hheld
  | reading =>
    cases op with
    | get key => exact ⟨_, _, _, .get⟩
    | getOrInsert key =>
      cases hvalue : m.map_.lookup key with
      | none => exact ⟨_, _, _, .notFound hvalue⟩
      | some value => exact ⟨_, _, _, .found hvalue⟩
    | _ => cases hrelies
  | missing =>
    obtain ⟨key, rfl⟩ : ∃ key, op = .getOrInsert key := hrelies
    exact ⟨_, _, _, .unlockShared .unlockShared⟩
  | reentering => exact absurd rfl hheld
  | writing =>
    cases op with
    | insert key value => exact ⟨_, _, _, .insert⟩
    | get key => exact absurd rfl (hrelies key)
    | erase key => exact ⟨_, _, _, .erase⟩
    | clear => exact ⟨_, _, _, .clear⟩
    | getOrInsert key =>
      cases hvalue : m.map_.lookup key with
      | none => exact ⟨_, _, _, .callFactory hvalue⟩
      | some value => exact ⟨_, _, _, .foundAgain hvalue⟩
  | making => exact absurd rfl hmaking
  | storing value =>
    obtain ⟨key, rfl, habsent⟩ : ∃ key, op = .getOrInsert key ∧ m.map_.lookup key = none :=
      hrelies
    exact ⟨_, _, _, .emplace habsent⟩
  | leaving mode result =>
    cases mode with
    | shared => exact ⟨_, _, _, .unlock .unlockShared⟩
    | exclusive => exact ⟨_, _, _, .unlock .unlock⟩
  | returning result => exact absurd rfl hheld

theorem can_lock (hrelies : call.Relies m.map_) (hheld : call.phase.held = none)
    (hfree : m.mutex_.writer = none ∧ m.mutex_.readers = ∅)
    (hpending : call.phase.result = none) : ∃ m' phase result, call.Step i m m' phase result := by
  obtain ⟨c, op, phase⟩ := call
  cases phase with
  | entering =>
    cases hop : op.shares with
    | false => exact ⟨_, _, _, .lock hop (.lock hfree.1 hfree.2)⟩
    | true => exact ⟨_, _, _, .lockShared hop (.lockShared hfree.1)⟩
  | reentering =>
    obtain ⟨key, rfl⟩ : ∃ key, op = .getOrInsert key := hrelies
    exact ⟨_, _, _, .relock (.lock hfree.1 hfree.2)⟩
  | returning result => cases hpending
  | _ => cases hheld

end MapCall

namespace MapSystem

variable {s t : MapSystem ι Key Value} {i : ι} {call : MapCall Key Value}

def Continues (s t : MapSystem ι Key Value) : Prop :=
  MapSystem.Step s t ∧ t.nextCall = s.nextCall

/-- Nobody waits for nothing: while calls are pending, and no factory has yet to return, one of
them can go on. -/
theorem Sound.continues (h : s.Sound) (hcall : s.calls i = some call)
    (hfactories : ∀ j other, s.calls j = some other → other.phase ≠ .making) :
    ∃ t, Continues s t := by
  by_cases hholder : ∃ j, held s.calls j ≠ none
  · obtain ⟨j, hheld⟩ := hholder
    obtain ⟨other, hother⟩ := Option.ne_none_iff_exists'.mp fun hnone : s.calls j = none => by
      rw [held, hnone] at hheld
      exact hheld rfl
    rw [held, hother, Option.bind_some] at hheld
    obtain ⟨m, phase, result, hstep⟩ :=
      MapCall.can_goOn (i := j) (h.relies j other hother) hheld (hfactories j other hother)
    exact ⟨_, .goOn hother hstep, rfl⟩
  · push Not at hholder
    have hfree := h.mutex.free hholder
    have hheld : call.phase.held = none := by
      have hi := hholder i
      rwa [held, hcall, Option.bind_some] at hi
    obtain ⟨c, op, phase⟩ := call
    cases hresult : phase.result with
    | none =>
      obtain ⟨m, phase, result, hstep⟩ :=
        MapCall.can_lock (i := i) (h.relies i _ hcall) hheld hfree hresult
      exact ⟨_, .goOn hcall hstep, rfl⟩
    | some result =>
      cases phase with
      | leaving mode result => cases hheld
      | returning result => exact ⟨_, .ret hcall, rfl⟩
      | _ => cases hresult

/-- How many steps the call of a thread has left at most. -/
def left (s : MapSystem ι Key Value) (i : ι) : ℕ := (s.calls i).elim 0 fun call => call.phase.left

theorem Continues.left_lt (h : Continues s t) :
    ∃ i, t.left i < s.left i ∧ ∀ j, j ≠ i → t.left j = s.left j := by
  obtain ⟨hstep, hnext⟩ := h
  cases hstep with
  | call i op hidle => exact absurd hnext (Nat.succ_ne_self _)
  | @goOn i call m phase result hcall hstep =>
    refine ⟨i, ?_, fun j hji => by simp [left, Function.update_of_ne hji]⟩
    simpa [left, hcall] using hstep.left_lt
  | @ret i c op result hcall =>
    refine ⟨i, ?_, fun j hji => by simp [left, Function.update_of_ne hji]⟩
    simp [left, hcall, MapPhase.left]

theorem Step.finite (hstep : MapSystem.Step s t)
    (h : ∃ active : Finset ι, ∀ i, i ∉ active → s.calls i = none) :
    ∃ active : Finset ι, ∀ i, i ∉ active → t.calls i = none := by
  obtain ⟨active, hactive⟩ := h
  have hupdate (i : ι) (new : Option (MapCall Key Value)) (j : ι) (hj : j ∉ insert i active) :
      Function.update s.calls i new j = none := by
    rw [Finset.mem_insert, not_or] at hj
    rw [Function.update_of_ne hj.1, hactive j hj.2]
  cases hstep with
  | call i op hidle => exact ⟨insert i active, hupdate i _⟩
  | @goOn i call m phase result hcall hstep => exact ⟨insert i active, hupdate i _⟩
  | @ret i c op result hcall => exact ⟨insert i active, hupdate i _⟩

end MapSystem

/-! ## What holds of every run -/

namespace MapSystem

variable {s t : MapSystem ι Key Value} {states : List (MapSystem ι Key Value)}

theorem Step.log (hstep : MapSystem.Step s t) : t.log = s.log ∨ ∃ e, t.log = e :: s.log := by
  cases hstep with
  | call i op hidle => exact .inr ⟨_, rfl⟩
  | @goOn i call m phase result hcall hstep =>
    cases result with
    | none => exact .inl rfl
    | some result => exact .inr ⟨_, rfl⟩
  | ret hcall => exact .inr ⟨_, rfl⟩

theorem sound_of_run (hrun : (concurrentMaps ι Key Value).Run states) :
    ∀ s ∈ states, s.Sound ∧ ∃ active : Finset ι, ∀ i, i ∉ active → s.calls i = none := by
  refine hrun.invariant ?_ fun s t h (hstep : MapSystem.Step s t) =>
    ⟨hstep.sound h.1, hstep.finite h.2⟩
  rintro s rfl
  exact ⟨sound_init, ∅, fun _ _ => rfl⟩

/-- What a factory has made is stored by the next step of its thread. -/
theorem storing_stored (h : s.Sound) (hstep : MapSystem.Step s t) {i : ι} {c : ℕ}
    {op : MapOperation Key Value} {value : Value}
    (hcall : s.calls i = some ⟨c, op, .storing value⟩) :
    t.calls i = s.calls i ∨ ∃ key, op = .getOrInsert key ∧
      t.log = .commit c op (.value value true) :: s.log ∧
      t.map.map_.lookup key = some value := by
  cases hstep with
  | call j op' hidle =>
    refine .inl (Function.update_of_ne ?_ _ _)
    rintro rfl
    rw [hcall] at hidle
    cases hidle
  | @goOn j call m phase result hother hstep =>
    by_cases hij : i = j
    · subst hij
      obtain rfl := Option.some.inj (hcall.symm.trans hother)
      obtain ⟨rfl, key, hkey, hlookup⟩ := hstep.storing rfl (h.relies i _ hcall)
      exact .inr ⟨key, hkey, rfl, hlookup⟩
    · exact .inl (Function.update_of_ne hij _ _)
  | @ret j c' op' result hother =>
    refine .inl (Function.update_of_ne ?_ _ _)
    rintro rfl
    rw [hcall] at hother
    cases hother

/-- A call of `getOrInsert` that has returned had a moment of its own, right after which the map
has what it returns. -/
theorem returned_moment (hrun : (concurrentMaps ι Key Value).Run states) {s : MapSystem ι Key Value}
    (hs : s ∈ states) {c : ℕ} {key : Key} {result : MapResult Value}
    (hcall : .call c (.getOrInsert key) ∈ s.log) (hret : .ret c result ∈ s.log) :
    ∃ u t, [t, u] <:+: states ∧ .call c (.getOrInsert key) ∈ u.log ∧
      (∀ result, .ret c result ∉ t.log) ∧
      ∃ value made, result = .value value made ∧ t.map.map_.lookup key = some value := by
  have hsound := (sound_of_run hrun s hs).1
  obtain ⟨op, hcommit⟩ := hsound.ordered.returned hret
  obtain rfl := hsound.ordered.call_unique hcall (hsound.ordered.called hcommit)
  obtain ⟨u, t, hut, hlog⟩ := hrun.logged MapSystem.log (fun s hinit => by cases hinit; rfl)
    (fun _ _ hstep => Step.log hstep) s hs _ hcommit
  have hmoment := (sound_of_run hrun t (hut.mem (by simp))).1
  have hduring := (hlog ▸ hmoment.ordered).during
  have hlegal := hmoment.legal
  rw [hlog] at hlegal
  refine ⟨u, t, hut, hduring.1, fun result hmem => ?_, ?_⟩
  · exact hduring.2 result (by simpa [hlog] using hmem)
  · cases hlegal with
    | cons h hstep => exact MapStep.returns hstep

end MapSystem

/-- However calls race, they are linearizable. `getOrInsert` returns what the map has for the key
at a moment of the call. Its factory runs while the key is absent, and what the factory makes is
stored; where the key has been stored before, it has been removed since. When no new calls come,
those that are pending take finitely many steps, and as long as there are some, and no factory
has yet to return, one of them can go on. -/
theorem getOrInsert_atomic {states : List (MapSystem ι Key Value)}
    (hrun : (concurrentMaps ι Key Value).Run states) :
    (∀ s ∈ states,
      (sequentialMap Key Value).Linearizes (commits s.log) (visible s.log) ∧
      (∀ c key result, .call c (.getOrInsert key) ∈ s.log → .ret c result ∈ s.log →
        ∃ u t, [t, u] <:+: states ∧ .call c (.getOrInsert key) ∈ u.log ∧
          (∀ result, .ret c result ∉ t.log) ∧
          ∃ value made, result = .value value made ∧ t.map.map_.lookup key = some value) ∧
      (∀ i c op, s.calls i = some ⟨c, op, .making⟩ →
        ∃ key, op = .getOrInsert key ∧ s.map.map_.lookup key = none) ∧
      (∀ newer c key value between x older, commits s.log =
        newer ++ (c, .getOrInsert key, .value value true) :: (between ++ x :: older) →
          StoresKey key x → ∃ y ∈ between, RemovesKey key y) ∧
      Acc (fun t s => MapSystem.Continues s t) s ∧
      ((∃ i, s.calls i ≠ none) → (∀ i call, s.calls i = some call → call.phase ≠ .making) →
        ∃ t, MapSystem.Continues s t)) ∧
    ∀ s t, [t, s] <:+: states → ∀ i c op value, s.calls i = some ⟨c, op, .storing value⟩ →
      t.calls i = s.calls i ∨ ∃ key, op = .getOrInsert key ∧
        t.log = .commit c op (.value value true) :: s.log ∧
        t.map.map_.lookup key = some value := by
  have hall := MapSystem.sound_of_run hrun
  refine ⟨fun s hs => ?_, fun s t hst i c op value hcall => ?_⟩
  · obtain ⟨hsound, active, hactive⟩ := hall s hs
    refine ⟨hsound.ordered.linearizes hsound.legal,
      fun c key result => MapSystem.returned_moment hrun hs, fun i c op hcall => ?_, ?_, ?_, ?_⟩
    · exact hsound.relies i _ hcall
    · intro newer c key value between x older heq hstores
      exact removed_between (heq ▸ hsound.legal) hstores
    · have hidle : ∀ i, i ∉ active → s.left i = 0 := fun i hi => by
        rw [MapSystem.left, hactive i hi, Option.elim_none]
      exact TransitionSystem.acc_of_work (fun _ _ => MapSystem.Continues.left_lt) hidle
    · rintro ⟨i, hcall⟩ hfactories
      obtain ⟨call, hcall⟩ := Option.ne_none_iff_exists'.mp hcall
      exact hsound.continues hcall hfactories
  · exact MapSystem.storing_stored (hall s (hst.mem (by simp))).1 (hrun.step_of_infix hst) hcall

/-- Two threads race to make the value of a key: both have missed it before one of them makes
it. -/
theorem race_run : ∃ s past, (concurrentMaps ℕ ℕ ℕ).Run (s :: past) ∧
    s.log = [.ret 1 (.value 7 false), .commit 1 (.getOrInsert 5) (.value 7 false),
      .ret 0 (.value 7 true), .commit 0 (.getOrInsert 5) (.value 7 true),
      .call 1 (.getOrInsert 5), .call 0 (.getOrInsert 5)] := by
  have hstart : (concurrentMaps ℕ ℕ ℕ).Run [{}] := .start rfl
  have hcall := hstart.next (.call 0 (.getOrInsert 5) rfl)
  have hcalls := hcall.next (.call 1 (.getOrInsert 5) rfl)
  have hshared := hcalls.next (.goOn (i := 0) rfl (.lockShared rfl (.lockShared rfl)))
  have hshared' := hshared.next (.goOn (i := 1) rfl (.lockShared rfl (.lockShared rfl)))
  have hmissed := hshared'.next (.goOn (i := 0) rfl (.notFound rfl))
  have hmissed' := hmissed.next (.goOn (i := 1) rfl (.notFound rfl))
  have hleft := hmissed'.next (.goOn (i := 0) rfl (.unlockShared .unlockShared))
  have hleft' := hleft.next (.goOn (i := 1) rfl (.unlockShared .unlockShared))
  have hlocked := hleft'.next (.goOn (i := 0) rfl (.relock (.lock rfl rfl)))
  have hfactory := hlocked.next (.goOn (i := 0) rfl (.callFactory rfl))
  have hmade := hfactory.next (.goOn (i := 0) rfl (.made 7))
  have hstored := hmade.next (.goOn (i := 0) rfl (.emplace rfl))
  have hunlocked := hstored.next (.goOn (i := 0) rfl (.unlock .unlock))
  have hreturned := hunlocked.next (.ret (i := 0) rfl)
  have hlocked' := hreturned.next (.goOn (i := 1) rfl (.relock (.lock rfl rfl)))
  have hfound := hlocked'.next (.goOn (i := 1) rfl (.foundAgain rfl))
  have hunlocked' := hfound.next (.goOn (i := 1) rfl (.unlock .unlock))
  have hreturned' := hunlocked'.next (.ret (i := 1) rfl)
  exact ⟨_, _, hreturned', rfl⟩

/-- The other one returns what the first has made. -/
theorem getOrInsert_atomic_race : ∃ states, (concurrentMaps ℕ ℕ ℕ).Run states ∧
    ∃ u t, [t, u] <:+: states ∧ .call 1 (.getOrInsert 5) ∈ u.log ∧
      t.map.map_.lookup 5 = some 7 := by
  obtain ⟨s, past, hrun, hlog⟩ := race_run
  obtain ⟨-, hreturns, -⟩ := (getOrInsert_atomic hrun).1 s List.mem_cons_self
  obtain ⟨u, t, hut, hcalled, -, value, made, hvalue, hlookup⟩ :=
    hreturns 1 5 (.value 7 false) (by simp [hlog]) (by simp [hlog])
  cases hvalue
  exact ⟨_, hrun, u, t, hut, hcalled, hlookup⟩

end DarwinCore.Container
