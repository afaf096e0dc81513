import Mathlib.Algebra.Ring.Nat
import Mathlib.Data.List.Basic
import Mathlib.Data.Nat.Log
import Mathlib.Data.Nat.Notation

/-! # Rings -/

/-! ## Rounding up to a power of two

Steps of doubling width set all bits of a number below its highest one; the next number is a
power of two. -/

namespace PowerOfTwo

variable {n width x : ℕ}

/-- A bit of `x` is set if it or one of the next ones, `width` in all, is set in `n`. -/
def Smeared (n width x : ℕ) : Prop :=
  ∀ i, x.testBit i = true ↔ ∃ j, i ≤ j ∧ j < i + width ∧ n.testBit j = true

theorem smeared_self (n : ℕ) : Smeared n 1 n := by
  intro i
  constructor
  · intro hi
    exact ⟨i, le_rfl, Nat.lt_succ_self i, hi⟩
  · rintro ⟨j, hle, hlt, hj⟩
    obtain rfl : i = j := by omega
    exact hj

theorem Smeared.double (h : Smeared n width x) : Smeared n (width + width) (x ||| x >>> width) := by
  intro i
  rw [Nat.testBit_or, Nat.testBit_shiftRight, Bool.or_eq_true, h, h]
  constructor
  · rintro (⟨j, hle, hlt, hj⟩ | ⟨j, hle, hlt, hj⟩)
    · exact ⟨j, hle, by omega, hj⟩
    · exact ⟨j, by omega, by omega, hj⟩
  · rintro ⟨j, hle, hlt, hj⟩
    by_cases hnear : j < i + width
    · exact .inl ⟨j, hle, hnear, hj⟩
    · exact .inr ⟨j, by omega, by omega, hj⟩

theorem Smeared.eq_sub_one (h : Smeared n width x) (hn : n < 2 ^ width) :
    x = 2 ^ Nat.clog 2 (n + 1) - 1 := by
  refine Nat.eq_of_testBit_eq fun i => ?_
  rw [Nat.testBit_two_pow_sub_one, Bool.eq_iff_iff, h, decide_eq_true_iff,
    Nat.lt_clog_iff_pow_lt Nat.one_lt_two]
  constructor
  · rintro ⟨j, hle, -, hj⟩
    have hij : 2 ^ i ≤ 2 ^ j := Nat.pow_le_pow_right Nat.two_pos hle
    have hjn : 2 ^ j ≤ n := Nat.ge_two_pow_of_testBit hj
    omega
  · intro hi
    obtain ⟨j, hle, hj⟩ := Nat.exists_ge_and_testBit_of_ge_two_pow (Nat.le_of_lt_succ hi)
    have hjn : 2 ^ j ≤ n := Nat.ge_two_pow_of_testBit hj
    have hj' : j < width :=
      (Nat.pow_lt_pow_iff_right Nat.one_lt_two).mp (lt_of_le_of_lt hjn hn)
    exact ⟨j, hle, by omega, hj⟩

theorem Smeared.succ (h : Smeared n width x) (hn : n < 2 ^ width) :
    x + 1 = 2 ^ Nat.clog 2 (n + 1) := by
  have hpos : 0 < 2 ^ Nat.clog 2 (n + 1) := Nat.two_pow_pos _
  rw [h.eq_sub_one hn]
  omega

end PowerOfTwo

/-! ## Rings of slots

A list of slots is used around and around. -/

namespace Ring

variable {α : Type*} {slots : List α} {start : ℕ} {items : List α} {v : α}

/-- Two positions less than a round apart have the same slot only if they are the same. -/
theorem eq_of_mod_eq {n i j : ℕ} (hle : i ≤ j) (hlt : j < i + n) (h : i % n = j % n) : i = j := by
  have hn : 0 < n := by omega
  have hi := Nat.div_add_mod i n
  have hj := Nat.div_add_mod j n
  have hsub : (j - i) % n = 0 := Nat.sub_mod_eq_zero_of_mod_eq h.symm
  rw [Nat.mod_eq_of_lt (by omega)] at hsub
  omega

def Holds (slots : List α) (start : ℕ) (items : List α) : Prop :=
  ∀ k < items.length, slots[(start + k) % slots.length]? = items[k]?

theorem holds_nil : Holds slots start [] :=
  fun _ hk => absurd hk (Nat.not_lt_zero _)

theorem holds_mod : Holds slots (start % slots.length) items ↔ Holds slots start items := by
  rw [Holds, Holds]
  simp only [Nat.mod_add_mod]

theorem Holds.first {x : α} (h : Holds slots start (x :: items)) :
    slots[start % slots.length]? = some x :=
  h 0 (Nat.succ_pos _)

theorem Holds.tail {x : α} (h : Holds slots start (x :: items)) :
    Holds slots (start + 1) items := by
  intro k hk
  have hnext := h (k + 1) (Nat.succ_lt_succ hk)
  rw [List.getElem?_cons_succ] at hnext
  rw [← hnext, Nat.add_right_comm, Nat.add_assoc]

theorem Holds.of_ne {slots' : List α} (h : Holds slots start items) {i : ℕ}
    (hlength : slots'.length = slots.length) (hsame : ∀ j, j ≠ i → slots'[j]? = slots[j]?)
    (hi : ∀ k < items.length, (start + k) % slots.length ≠ i) : Holds slots' start items := by
  intro k hk
  rw [hlength, hsame _ (hi k hk)]
  exact h k hk

theorem slot_ne {n k m : ℕ} (hk : k < m) (hm : m < n) : (start + k) % n ≠ (start + m) % n := by
  intro heq
  have := eq_of_mod_eq (Nat.add_le_add_left (Nat.le_of_lt hk) start) (by omega) heq
  omega

theorem Holds.snoc (h : Holds slots start items)
    (hlast : slots[(start + items.length) % slots.length]? = some v) :
    Holds slots start (items ++ [v]) := by
  intro k hk
  rw [List.length_append, List.length_singleton] at hk
  rcases Nat.lt_succ_iff_lt_or_eq.mp hk with hlt | rfl
  · rw [List.getElem?_append_left hlt]
    exact h k hlt
  · rw [hlast, List.getElem?_concat_length]

theorem Holds.set (h : Holds slots start items) (hroom : items.length < slots.length) (v : α) :
    Holds (slots.set ((start + items.length) % slots.length) v) start items :=
  h.of_ne (List.length_set ..) (fun _ hj => List.getElem?_set_ne hj.symm)
    fun _ hk => slot_ne hk hroom

theorem Holds.push (h : Holds slots start items) (hroom : items.length < slots.length) :
    Holds (slots.set ((start + items.length) % slots.length) v) start (items ++ [v]) := by
  refine (h.set hroom v).snoc ?_
  rw [List.length_set, List.getElem?_set_self (Nat.mod_lt _ (by omega))]

theorem gone_ne {n k m : ℕ} (hk : k < m) (hm : m < n) : (start + 1 + k) % n ≠ start % n := by
  intro heq
  have := eq_of_mod_eq (Nat.le_add_right start (1 + k)) (by omega)
    (heq.symm.trans (congrArg (· % _) (Nat.add_assoc ..)))
  omega

theorem Holds.modify_gone {f : α → α} (h : Holds slots (start + 1) items)
    (hroom : items.length < slots.length) :
    Holds (slots.modify (start % slots.length) f) (start + 1) items :=
  h.of_ne (List.length_modify ..) (fun _ hj => List.getElem?_modify_ne f _ hj.symm)
    fun _ hk => gone_ne hk hroom

theorem Holds.set_gone (h : Holds slots (start + 1) items) (hroom : items.length < slots.length)
    (v : α) : Holds (slots.set (start % slots.length) v) (start + 1) items :=
  h.of_ne (List.length_set ..) (fun _ hj => List.getElem?_set_ne hj.symm)
    fun _ hk => gone_ne hk hroom

end Ring
