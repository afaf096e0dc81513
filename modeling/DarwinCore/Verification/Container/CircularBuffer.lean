import DarwinCore.Library.TransitionSystem
import DarwinCore.Library.Ring
import DarwinCore.Model.Container.CircularBuffer

/-! # Circular buffers

A circular buffer is a queue that drops its oldest element for a new one when it is full. -/

namespace DarwinCore.Container

variable {α : Type*}

/-! ## The latest elements -/

/-- At most `capacity` elements, the oldest first. -/
structure Latest (α : Type*) where
  capacity : ℕ
  items : List α
  positive : 0 < capacity
  fits : items.length ≤ capacity

namespace Latest

def empty (capacity : ℕ) (h : 0 < capacity) : Latest α :=
  ⟨capacity, [], h, Nat.zero_le _⟩

/-- Whether no element was dropped, and the elements. -/
def push (value : α) (q : Latest α) : Bool × Latest α :=
  if h : q.items.length < q.capacity then
    (true, { q with
      items := q.items ++ [value]
      fits := by rw [List.length_append]; exact h })
  else
    (false, { q with
      items := q.items.tail ++ [value]
      fits := by
        have hpositive := q.positive
        have hfits := q.fits
        rw [List.length_append, List.length_tail, List.length_singleton]
        omega })

def pop (q : Latest α) : Option α × Latest α :=
  (q.items.head?, { q with
    items := q.items.tail
    fits := by
      have hfits := q.fits
      rw [List.length_tail]
      omega })

theorem pop_fst (q : Latest α) : q.pop.1 = q.items.head? :=
  rfl

theorem pop_items (q : Latest α) : q.pop.2.items = q.items.tail :=
  rfl

theorem pop_of_nil {q : Latest α} (h : q.items = []) : q.pop = (none, q) := by
  obtain ⟨capacity, items, positive, fits⟩ := q
  obtain rfl : items = [] := h
  rfl

def clear (q : Latest α) : Latest α :=
  empty q.capacity q.positive

end Latest

/-- What a call does to the latest elements, of the buffers that were not moved from. -/
def BufferCall.spec {ι : Type*} [DecidableEq ι] (queues : ι → Option (Latest α)) :
    BufferCall ι α → Except String (BufferReply α) × (ι → Option (Latest α))
  | construct i capacity =>
      if 2 ^ 63 ≤ capacity then (.error "vector", queues)
      else if h : 0 < capacity then (.ok .done, Function.update queues i (some (.empty capacity h)))
      else (.error "CircularBuffer capacity must be greater than 0", queues)
  | push i value => match queues i with
      | none => (.ok .done, queues)
      | some q => (q.push value).map (fun stored => .ok (.pushed stored))
          fun q => Function.update queues i (some q)
  | pop i => match queues i with
      | none => (.ok .done, queues)
      | some q => q.pop.map (fun value => .ok (.popped value))
          fun q => Function.update queues i (some q)
  | clear i => (.ok .done, Function.update queues i ((queues i).map .clear))
  | moveConstruct i j =>
      (.ok .done, Function.update (Function.update queues i none) j (queues i))
  | moveAssign i j =>
      if i = j then (.ok .done, queues)
      else (.ok .done, Function.update (Function.update queues i none) j (queues i))

/-- A buffer is not used after it was moved from, except to move another one into it. -/
def BufferCall.Allowed {ι : Type*} (queues : ι → Option (Latest α)) : BufferCall ι α → Prop
  | construct _ _ => True
  | push i _ => (queues i).isSome
  | pop i => (queues i).isSome
  | clear i => (queues i).isSome
  | moveConstruct i j => i ≠ j ∧ (queues i).isSome
  | moveAssign i _ => (queues i).isSome

/-! ## What a buffer represents -/

namespace CircularBuffer

/-- The elements are around the ring from `head` to `tail`. -/
structure Represents (b : CircularBuffer α) (q : Latest α) : Prop where
  capacity : b.capacity = q.capacity
  small : b.capacity < 2 ^ 63
  length : b.buffer.length = b.capacity
  size : b.size = q.items.length
  head : b.head < b.capacity
  tail : b.tail = (b.head + b.size) % b.capacity
  holds : Ring.Holds b.buffer b.head q.items

variable {b : CircularBuffer α} {q : Latest α}

theorem ofCapacity_represents [Inhabited α] {capacity : ℕ} (hsmall : capacity < 2 ^ 63)
    (hpositive : 0 < capacity) :
    Represents (⟨List.replicate capacity default, capacity, 0, 0, 0⟩ : CircularBuffer α)
      (.empty capacity hpositive) where
  capacity := rfl
  small := hsmall
  length := List.length_replicate
  size := rfl
  head := hpositive
  tail := (Nat.zero_mod _).symm
  holds := Ring.holds_nil

namespace Represents

theorem size_le (h : b.Represents q) : b.size ≤ b.capacity := by
  rw [h.size, h.capacity]
  exact q.fits

theorem positive (h : b.Represents q) : 0 < b.capacity :=
  h.capacity ▸ q.positive

theorem tail_lt (h : b.Represents q) : b.tail < b.capacity := by
  rw [h.tail]
  exact Nat.mod_lt _ h.positive

theorem position_eq (h : b.Represents q) {pos offset : ℕ} (hpos : pos < b.capacity)
    (hoffset : offset ≤ b.capacity) : b.position pos offset = (pos + offset) % b.capacity := by
  have hsmall := h.small
  have hsum : pos + offset < 2 ^ 64 := by omega
  rw [position, Nat.mod_eq_of_lt hsum]

theorem full_iff (h : b.Represents q) : b.full = true ↔ q.items.length = q.capacity := by
  rw [full, decide_eq_true_iff, h.size, h.capacity]

theorem empty_iff (h : b.Represents q) : b.empty = true ↔ q.items = [] := by
  rw [empty, decide_eq_true_iff, h.size, List.length_eq_zero_iff]

/-! ## Operations -/

theorem tail_slot (h : b.Represents q) :
    b.tail = (b.head + q.items.length) % b.buffer.length := by
  rw [h.tail, h.size, h.length]

theorem push (h : b.Represents q) (value : α) :
    (b.push value).1 = (q.push value).1 ∧ (b.push value).2.Represents (q.push value).2 := by
  have hfits := q.fits
  have hpositive := h.positive
  have hcapacity := h.capacity
  have hhead := h.head
  have hnext : b.position b.tail 1 = (b.tail + 1) % b.capacity := h.position_eq h.tail_lt hpositive
  rw [CircularBuffer.push, Latest.push]
  by_cases hfull : q.items.length < q.capacity
  · have hnot : b.full = false := by
      rw [← Bool.not_eq_true, h.full_iff]
      omega
    rw [dif_pos hfull, hnot]
    refine ⟨rfl, h.capacity, h.small, ?_, ?_, h.head, ?_, ?_⟩
    · exact (List.length_set ..).trans h.length
    · simp [h.size]
    · change b.position b.tail 1 = (b.head + (b.size + 1)) % b.capacity
      rw [hnext, h.tail, Nat.mod_add_mod, Nat.add_assoc]
    · rw [h.tail_slot]
      exact h.holds.push (by rw [h.length, hcapacity]; exact hfull)
  · have hyes : b.full = true := by
      rw [h.full_iff]
      omega
    have hfullsize : b.size = b.capacity := by
      rw [h.size, hcapacity]
      omega
    have hround : b.tail = b.head := by
      rw [h.tail, hfullsize, Nat.add_mod_right, Nat.mod_eq_of_lt hhead]
    have hhead' : b.position b.head 1 = (b.head + 1) % b.capacity := h.position_eq hhead hpositive
    obtain ⟨x, rest, hitems⟩ := List.exists_cons_of_length_pos (l := q.items) (by omega)
    have hlength : q.capacity = rest.length + 1 := by
      rw [hitems, List.length_cons] at hfull hfits
      omega
    rw [dif_neg hfull, hyes]
    refine ⟨rfl, h.capacity, h.small, ?_, ?_, ?_, ?_, ?_⟩
    · exact (List.length_set ..).trans h.length
    · simp [hitems, hfullsize, hcapacity, hlength]
    · simp only [if_true, hhead']
      exact Nat.mod_lt _ hpositive
    · simp [hhead', hround, hfullsize]
    · have hroom : rest.length < b.buffer.length := by
        rw [h.length, hcapacity, hlength]
        exact Nat.lt_succ_self _
      have hslot : b.tail = (b.head + 1 + rest.length) % b.buffer.length := by
        rw [h.tail_slot, hitems, List.length_cons, Nat.add_assoc, Nat.add_comm 1]
      have hholds := h.holds
      rw [hitems] at hholds
      have hpushed := hholds.tail.push (v := value) hroom
      rw [← hslot, ← Ring.holds_mod, List.length_set, h.length, ← hhead'] at hpushed
      simp only [hitems, if_true, List.tail_cons]
      exact hpushed

theorem pop (h : b.Represents q) (moved : α → α) :
    (b.pop moved).1 = q.pop.1 ∧ (b.pop moved).2.Represents q.pop.2 := by
  have hcapacity := h.capacity
  have hhead' : b.position b.head 1 = (b.head + 1) % b.capacity :=
    h.position_eq h.head h.positive
  rw [CircularBuffer.pop]
  by_cases hempty : q.items = []
  · rw [if_pos (h.empty_iff.mpr hempty), Latest.pop_of_nil hempty]
    exact ⟨rfl, h⟩
  · obtain ⟨x, rest, hitems⟩ := List.exists_cons_of_ne_nil hempty
    have hholds := h.holds
    have hsize := h.size
    have hsizele := h.size_le
    rw [hitems] at hholds hsize
    rw [List.length_cons] at hsize
    have hslot : b.head % b.buffer.length = b.head := by
      rw [h.length, Nat.mod_eq_of_lt h.head]
    have hfirst := hholds.first
    rw [hslot] at hfirst
    rw [if_neg (mt h.empty_iff.mp hempty)]
    refine ⟨?_, h.capacity, h.small, ?_, ?_, ?_, ?_, ?_⟩
    · rw [Latest.pop_fst, hitems]
      exact hfirst
    · exact (List.length_modify ..).trans h.length
    · rw [Latest.pop_items, hitems, List.tail_cons]
      exact Nat.sub_eq_of_eq_add hsize
    · change b.position b.head 1 < b.capacity
      rw [hhead']
      exact Nat.mod_lt _ h.positive
    · change b.tail = (b.position b.head 1 + (b.size - 1)) % b.capacity
      rw [hhead', h.tail, hsize, Nat.mod_add_mod, Nat.add_sub_cancel, Nat.add_assoc, Nat.add_comm 1]
    · have hroom : rest.length < b.buffer.length := by
        rw [h.length]
        omega
      have hpopped := hholds.tail.modify_gone (f := moved) hroom
      rw [hslot, ← Ring.holds_mod, List.length_modify, h.length, ← hhead'] at hpopped
      rw [Latest.pop_items, hitems, List.tail_cons]
      exact hpopped

theorem clear (h : b.Represents q) : b.clear.Represents q.clear where
  capacity := h.capacity
  small := h.small
  length := h.length
  size := rfl
  head := h.positive
  tail := (Nat.zero_mod _).symm
  holds := Ring.holds_nil

/-! ## Reading -/

theorem slot (h : b.Represents q) {k : ℕ} (hk : k < q.items.length) :
    b.buffer[(b.head + k) % b.capacity]? = q.items[k]? := by
  rw [← h.length]
  exact h.holds k hk

theorem subscript (h : b.Represents q) {k : ℕ} (hk : k < q.items.length) :
    b.subscript k = q.items[k]? := by
  have hle : k ≤ b.capacity := Nat.le_trans (Nat.le_of_lt hk) (h.size ▸ h.size_le)
  rw [CircularBuffer.subscript, h.position_eq h.head hle, h.slot hk]

theorem get (h : b.Represents q) (k : ℕ) : b.get k =
    if k < q.items.length then .ok q.items[k]?
    else .error "CircularBuffer index out of range" := by
  rw [CircularBuffer.get, h.size]
  by_cases hk : k < q.items.length
  · rw [if_neg (Nat.not_le_of_lt hk), if_pos hk, h.subscript hk]
  · rw [if_pos (Nat.le_of_not_lt hk), if_neg hk]

theorem front (h : b.Represents q) : b.front = q.items.head? := by
  rw [CircularBuffer.front]
  by_cases hempty : q.items = []
  · rw [if_pos (h.empty_iff.mpr hempty), hempty]
    rfl
  · have hfirst := h.slot (List.length_pos_iff.mpr hempty)
    rw [Nat.add_zero, Nat.mod_eq_of_lt h.head] at hfirst
    rw [if_neg (mt h.empty_iff.mp hempty), hfirst, List.head?_eq_getElem?]

theorem back (h : b.Represents q) : b.back = q.items.getLast? := by
  rw [CircularBuffer.back]
  by_cases hempty : q.items = []
  · rw [if_pos (h.empty_iff.mpr hempty), hempty]
    rfl
  · have hpositive : 0 < q.items.length := List.length_pos_iff.mpr hempty
    have hsmall := h.small
    have htail := h.tail_lt
    have hwide : b.tail + b.capacity - 1 < 2 ^ 64 := by omega
    have hlast : (b.tail + b.capacity - 1) % b.capacity =
        (b.head + (q.items.length - 1)) % b.capacity := by
      have hone : b.capacity = 1 + (b.capacity - 1) := by omega
      have hsize : b.head + b.size + (b.capacity - 1) =
          b.head + (q.items.length - 1) + b.capacity := by
        rw [h.size]
        omega
      rw [Nat.add_sub_assoc h.positive, h.tail, Nat.mod_add_mod, hsize, Nat.add_mod_right]
    rw [if_neg (mt h.empty_iff.mp hempty), Nat.mod_eq_of_lt hwide, hlast,
      h.slot (by omega), List.getLast?_eq_getElem?]

theorem equals_finish {it : Iterator} : it.equals b.finish = true ↔ it.count = b.size :=
  decide_eq_true_iff

/-- From the place of element `k` to the end, the elements from `k` on are read. -/
theorem traverse_from (h : b.Represents q) (fuel k : ℕ) (hk : k ≤ q.items.length)
    (hfuel : q.items.length - k ≤ fuel) :
    b.traverse fuel ⟨(b.head + k) % b.capacity, k⟩ = some ((q.items.drop k).map some) := by
  induction fuel generalizing k with
  | zero =>
    have hend : k = b.size := by
      rw [h.size]
      omega
    rw [CircularBuffer.traverse, if_pos (equals_finish.mpr hend), hend, h.size, List.drop_length]
    rfl
  | succ fuel ih =>
    rw [CircularBuffer.traverse]
    by_cases hend : k = b.size
    · rw [if_pos (equals_finish.mpr hend), hend, h.size, List.drop_length]
      rfl
    · have hlt : k < q.items.length := by
        rw [h.size] at hend
        omega
      have hnext : b.next ⟨(b.head + k) % b.capacity, k⟩ =
          ⟨(b.head + (k + 1)) % b.capacity, k + 1⟩ := by
        rw [next, h.position_eq (Nat.mod_lt _ h.positive) h.positive, Nat.mod_add_mod,
          Nat.add_assoc]
      rw [if_neg (mt equals_finish.mp hend), hnext, ih (k + 1) hlt (by omega), deref, h.slot hlt,
        List.drop_eq_getElem_cons hlt,
        List.getElem?_eq_getElem hlt]
      rfl

theorem traverse (h : b.Represents q) {fuel : ℕ} (hfuel : b.size ≤ fuel) :
    b.traverse fuel b.begin = some (q.items.map some) := by
  rw [h.size] at hfuel
  have hfrom := h.traverse_from fuel 0 (Nat.zero_le _) hfuel
  rw [Nat.add_zero, Nat.mod_eq_of_lt h.head] at hfrom
  exact hfrom

end Represents

end CircularBuffer

/-! ## Sequences of calls -/

section Calls

variable {ι : Type*}

/-- Every buffer that was not moved from represents its elements. -/
def HoldsLatest (buffers : ι → CircularBuffer α) (queues : ι → Option (Latest α)) : Prop :=
  ∀ i q, queues i = some q → (buffers i).Represents q

variable [DecidableEq ι] {buffers : ι → CircularBuffer α} {queues : ι → Option (Latest α)}

theorem HoldsLatest.update (h : HoldsLatest buffers queues) {i : ι} {b : CircularBuffer α}
    {o : Option (Latest α)} (hi : ∀ q, o = some q → b.Represents q) :
    HoldsLatest (Function.update buffers i b) (Function.update queues i o) := by
  intro j q hq
  by_cases hj : j = i
  · subst hj
    rw [Function.update_self] at hq ⊢
    exact hi q hq
  · rw [Function.update_of_ne hj] at hq ⊢
    exact h j q hq

theorem HoldsLatest.step [Inhabited α] (moved : α → α) (call : BufferCall ι α)
    (h : HoldsLatest buffers queues) (hallowed : call.Allowed queues) :
    (call.run moved buffers).1 = (call.spec queues).1 ∧
      HoldsLatest (call.run moved buffers).2 (call.spec queues).2 := by
  have hmoved {i j : ι} : HoldsLatest
      (Function.update (Function.update buffers i .movedFrom) j (buffers i))
      (Function.update (Function.update queues i none) j (queues i)) :=
    (h.update (by simp)).update (h i)
  cases call with
  | construct i capacity =>
    rw [BufferCall.run, BufferCall.spec, CircularBuffer.ofCapacity]
    by_cases hsmall : 2 ^ 63 ≤ capacity
    · rw [if_pos hsmall, if_pos hsmall]
      exact ⟨rfl, h⟩
    · by_cases hpositive : 0 < capacity
      · rw [if_neg hsmall, if_neg hsmall, if_neg (Nat.ne_of_gt hpositive), dif_pos hpositive]
        refine ⟨rfl, h.update fun q hq => ?_⟩
        obtain rfl := Option.some.inj hq
        exact CircularBuffer.ofCapacity_represents (Nat.lt_of_not_le hsmall) hpositive
      · rw [if_neg hsmall, if_neg hsmall, if_pos (by omega), dif_neg hpositive]
        exact ⟨rfl, h⟩
  | push i value =>
    obtain ⟨q, hq⟩ := Option.isSome_iff_exists.mp hallowed
    obtain ⟨hreply, hpush⟩ := (h i q hq).push value
    rw [BufferCall.run, BufferCall.spec, hq]
    refine ⟨congrArg (Except.ok ∘ BufferReply.pushed) hreply, h.update fun q' hq' => ?_⟩
    exact Option.some.inj hq' ▸ hpush
  | pop i =>
    obtain ⟨q, hq⟩ := Option.isSome_iff_exists.mp hallowed
    obtain ⟨hreply, hpop⟩ := (h i q hq).pop moved
    rw [BufferCall.run, BufferCall.spec, hq]
    refine ⟨congrArg (Except.ok ∘ BufferReply.popped) hreply, h.update fun q' hq' => ?_⟩
    exact Option.some.inj hq' ▸ hpop
  | clear i =>
    obtain ⟨q, hq⟩ := Option.isSome_iff_exists.mp hallowed
    rw [BufferCall.run, BufferCall.spec, hq]
    refine ⟨rfl, h.update fun q' hq' => ?_⟩
    exact Option.some.inj hq' ▸ (h i q hq).clear
  | moveConstruct i j => exact ⟨rfl, hmoved⟩
  | moveAssign i j =>
    rw [BufferCall.run, BufferCall.spec]
    by_cases hsame : i = j
    · rw [if_pos hsame, if_pos hsame]
      exact ⟨rfl, h⟩
    · rw [if_neg hsame, if_neg hsame]
      exact ⟨rfl, hmoved⟩

theorem HoldsLatest.run [Inhabited α] (moved : α → α) (h : HoldsLatest buffers queues)
    {calls : List (BufferCall ι α)}
    (hallowed : Calls.Permitted BufferCall.spec BufferCall.Allowed queues calls) :
    (Calls.run (BufferCall.run moved) buffers calls).1 =
        (Calls.run BufferCall.spec queues calls).1 ∧
      HoldsLatest (Calls.run (BufferCall.run moved) buffers calls).2
        (Calls.run BufferCall.spec queues calls).2 := by
  refine Calls.run_refines (fun s t call hrel hcall => ?_) h hallowed
  exact hrel.step moved call hcall

/-- Buffers that were not moved from hold the latest elements, in whichever way they are read, and
return and throw what the queues do. -/
theorem circular_buffers_refine [Inhabited α] (moved : α → α) (calls : List (BufferCall ι α))
    (hallowed : Calls.Permitted BufferCall.spec BufferCall.Allowed (fun _ => none) calls) :
    let after := Calls.run (BufferCall.run moved) (fun _ => .movedFrom) calls
    let expected := Calls.run BufferCall.spec (fun _ => none) calls
    after.1 = expected.1 ∧ ∀ i q, expected.2 i = some q → let b := after.2 i
      b.size = q.items.length ∧ b.size ≤ b.capacity ∧ b.capacity = q.capacity ∧
      b.buffer.length = b.capacity ∧ b.head < b.capacity ∧ b.tail < b.capacity ∧
      (∀ k < b.size, b.get k = .ok q.items[k]? ∧ b.subscript k = q.items[k]?) ∧
      (∀ k, b.size ≤ k → b.get k = .error "CircularBuffer index out of range") ∧
      b.front = q.items.head? ∧ b.back = q.items.getLast? ∧
      ∀ fuel, b.size ≤ fuel → b.traverse fuel b.begin = some (q.items.map some) := by
  have hinit : HoldsLatest (fun _ : ι => (CircularBuffer.movedFrom : CircularBuffer α))
      fun _ => none := by
    intro i q hq
    cases hq
  obtain ⟨hreplies, hall⟩ := hinit.run moved hallowed
  refine ⟨hreplies, fun i q hq => ?_⟩
  have hi := hall i q hq
  refine ⟨hi.size, hi.size_le, hi.capacity, hi.length, hi.head, hi.tail_lt, fun k hk => ?_,
    fun k hk => ?_, hi.front, hi.back, fun fuel => hi.traverse⟩
  · have hin : k < q.items.length := hi.size ▸ hk
    rw [hi.get, if_pos hin]
    exact ⟨rfl, hi.subscript hin⟩
  · rw [hi.get, if_neg (Nat.not_lt.mpr (hi.size ▸ hk))]

end Calls

/-- Three elements are pushed into a buffer of two, which is then moved. -/
theorem circular_buffers_refine_two :
    ((Calls.run (BufferCall.run id) (fun _ => .movedFrom)
      [.construct true 2, .push true 5, .push true 6, .push true 7,
        .moveConstruct true false]).2 false).front = some 6 := by
  obtain ⟨-, hall⟩ := circular_buffers_refine id
    [.construct true 2, .push true 5, .push true 6, .push true 7, .moveConstruct true false]
    (by simp [Calls.Permitted, BufferCall.Allowed, BufferCall.spec, Latest.empty, Latest.push])
  exact (hall false _ rfl).2.2.2.2.2.2.2.2.1

end DarwinCore.Container
