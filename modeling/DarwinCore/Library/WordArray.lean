import Mathlib.Algebra.Ring.Nat
import Mathlib.Data.Finset.Card
import Mathlib.Data.Finset.Range
import Mathlib.Data.List.Basic

/-! # Bits in arrays of words

Bit `j` of an array of words of `w` bits is bit `j % w` of word `j / w`. -/

namespace WordArray

variable {w : ℕ} {words words' : List (BitVec w)} {j k : ℕ}

/-- Bit `j`, which is not set beyond the last word. -/
def bitAt (words : List (BitVec w)) (j : ℕ) : Bool :=
  (words.getD (j / w) 0).getLsbD (j % w)

theorem bitAt_of_length_le (h : words.length ≤ j / w) : bitAt words j = false := by
  rw [bitAt, List.getD_eq_getElem?_getD, List.getElem?_eq_none h]
  exact BitVec.getLsbD_zero

theorem bitAt_of_getElem (h : j / w < words.length) :
    bitAt words j = words[j / w].getLsbD (j % w) := by
  rw [bitAt, List.getD_eq_getElem?_getD, List.getElem?_eq_getElem h, Option.getD_some]

/-! ## Words by words -/

theorem bitAt_replicate_zero (n : ℕ) : bitAt (List.replicate n (0 : BitVec w)) j = false := by
  by_cases h : j / w < n
  · rw [bitAt_of_getElem (by rwa [List.length_replicate]), List.getElem_replicate]
    exact BitVec.getLsbD_zero
  · exact bitAt_of_length_le (by rw [List.length_replicate]; omega)

theorem bitAt_map {f : BitVec w → BitVec w} (h : j / w < words.length) :
    bitAt (words.map f) j = (f words[j / w]).getLsbD (j % w) := by
  rw [bitAt_of_getElem (by rwa [List.length_map]), List.getElem_map]

theorem bitAt_ofFn {n : ℕ} {f : ℕ → BitVec w} (h : j / w < n) :
    bitAt ((List.range n).map f) j = (f (j / w)).getLsbD (j % w) := by
  rw [bitAt_of_getElem (by rwa [List.length_map, List.length_range]), List.getElem_map,
    List.getElem_range]

theorem bitAt_modify {f : BitVec w → BitVec w} {i : ℕ} (h : j / w < words.length) :
    bitAt (words.modify i f) j =
      if i = j / w then (f words[j / w]).getLsbD (j % w) else bitAt words j := by
  rw [bitAt_of_getElem (by rwa [List.length_modify]), List.getElem_modify, bitAt_of_getElem h]
  split <;> rfl

/-- Positions are the same if their words and their places in them are. -/
theorem eq_iff : j = k ↔ k / w = j / w ∧ j % w = k % w := by
  constructor
  · rintro rfl
    exact ⟨rfl, rfl⟩
  · rintro ⟨hdiv, hmod⟩
    rw [← Nat.div_add_mod j w, ← Nat.div_add_mod k w, hdiv, hmod]

/-! ## Single bits -/

theorem getLsbD_one_shiftLeft {r i : ℕ} (hi : i < w) :
    (1#w <<< r).getLsbD i = decide (i = r) := by
  rw [BitVec.getLsbD_shiftLeft, BitVec.getLsbD_one, Bool.eq_iff_iff]
  simp
  omega

theorem getLsbD_mask {r i : ℕ} (hr : r < w) :
    ((1#w <<< r) - 1#w).getLsbD i = decide (i < r) := by
  have hone : (1#w).toNat = 1 := by
    rw [BitVec.toNat_ofNat]
    exact Nat.mod_eq_of_lt (Nat.one_lt_two_pow (by omega))
  have hpow : (1#w <<< r).toNat = 2 ^ r := by
    rw [BitVec.toNat_shiftLeft, hone, Nat.shiftLeft_eq, Nat.one_mul]
    exact Nat.mod_eq_of_lt (Nat.pow_lt_pow_right (by decide) hr)
  have hle : 1#w ≤ 1#w <<< r := by
    rw [BitVec.le_def, hone, hpow]
    exact Nat.one_le_two_pow
  rw [BitVec.getLsbD, BitVec.toNat_sub_of_le hle, hone, hpow]
  exact Nat.testBit_two_pow_sub_one r i

theorem shifted_and_one (word : BitVec w) (r : ℕ) :
    (word >>> r) &&& 1#w ≠ 0#w ↔ word.getLsbD r = true := by
  rw [BitVec.and_one_eq_setWidth_ofBool_getLsbD, BitVec.getLsbD_ushiftRight, Nat.add_zero]
  cases hbit : word.getLsbD r with
  | false => simp
  | true =>
    have hw : 0 < w := Nat.zero_lt_of_lt (BitVec.lt_of_getLsbD hbit)
    refine iff_of_true (fun hzero => ?_) rfl
    have hfirst := congrArg (fun v => BitVec.getLsbD v 0) hzero
    simp [hw] at hfirst

section Single

variable (hk : k / w < words.length) (hw : 0 < w)

include hk hw

theorem bitAt_single {f : BitVec w → BitVec w} {g : Bool → Bool}
    (hf : ∀ word i, i < w → (f word).getLsbD i =
      if i = k % w then g (word.getLsbD i) else word.getLsbD i) :
    bitAt (words.modify (k / w) f) j = if j = k then g (bitAt words j) else bitAt words j := by
  by_cases hj : j / w < words.length
  · rw [bitAt_modify hj, hf _ _ (Nat.mod_lt j hw), bitAt_of_getElem hj]
    by_cases hdiv : k / w = j / w
    · simp only [eq_iff (w := w) (j := j), hdiv, true_and, if_true]
    · have hne : j ≠ k := fun heq => hdiv (heq ▸ rfl)
      rw [if_neg hdiv, if_neg hne]
  · have hne : j ≠ k := fun heq => hj (heq ▸ hk)
    rw [if_neg hne, bitAt_of_length_le (by rw [List.length_modify]; omega),
      bitAt_of_length_le (by omega)]

theorem bitAt_insert : bitAt (words.modify (k / w) (· ||| (1#w <<< (k % w)))) j =
    if j = k then true else bitAt words j := by
  refine bitAt_single (g := fun _ => true) hk hw fun word i hi => ?_
  rw [BitVec.getLsbD_or, getLsbD_one_shiftLeft hi]
  by_cases h : i = k % w <;> simp [h]

theorem bitAt_remove : bitAt (words.modify (k / w) (· &&& ~~~(1#w <<< (k % w)))) j =
    if j = k then false else bitAt words j := by
  refine bitAt_single (g := fun _ => false) hk hw fun word i hi => ?_
  rw [BitVec.getLsbD_and, BitVec.getLsbD_not, getLsbD_one_shiftLeft hi]
  by_cases h : i = k % w <;> simp [h, hi]

theorem bitAt_toggle : bitAt (words.modify (k / w) (· ^^^ (1#w <<< (k % w)))) j =
    if j = k then !bitAt words j else bitAt words j := by
  refine bitAt_single (g := not) hk hw fun word i hi => ?_
  rw [BitVec.getLsbD_xor, getLsbD_one_shiftLeft hi]
  by_cases h : i = k % w <;> simp [h]

end Single

/-! ## Sizes -/

/-- In the words needed for `n` bits, the bits beyond them are cleared. -/
theorem bitAt_mask {n : ℕ} (hw : 0 < w) (hlength : words.length = n / w + 1) :
    bitAt (words.modify (words.length - 1) (· &&& ((1#w <<< (n % w)) - 1#w))) j =
      (decide (j < n) && bitAt words j) := by
  have hlast : words.length - 1 = n / w := by rw [hlength, Nat.add_sub_cancel]
  have hj := Nat.div_add_mod j w
  have hn := Nat.div_add_mod n w
  have hjmod := Nat.mod_lt j hw
  have hnmod := Nat.mod_lt n hw
  by_cases hin : j / w < words.length
  · rw [bitAt_modify hin, hlast, bitAt_of_getElem hin]
    by_cases hdiv : n / w = j / w
    · rw [if_pos hdiv, BitVec.getLsbD_and, getLsbD_mask hnmod, Bool.and_comm]
      have hiff : w * (j / w) + j % w < w * (j / w) + n % w ↔ j % w < n % w :=
        Nat.add_lt_add_iff_left
      rw [hdiv] at hn
      rw [hj, hn] at hiff
      exact congrArg (· && _) (decide_eq_decide.mpr hiff.symm)
    · have hlt : j / w < n / w := by omega
      have hbelow : j < n := Nat.lt_of_div_lt_div hlt
      rw [if_neg hdiv, decide_eq_true hbelow, Bool.true_and]
  · rw [bitAt_of_length_le (by rw [List.length_modify]; omega), bitAt_of_length_le (by omega),
      Bool.and_false]

theorem bitAt_resize {n : ℕ} (hw : 0 < w) :
    bitAt (words.take n ++ List.replicate (n - words.length) 0) j =
      (decide (j < n * w) && bitAt words j) := by
  have hiff : j / w < n ↔ j < n * w := Nat.div_lt_iff_lt_mul hw
  by_cases hj : j / w < n
  · rw [decide_eq_true (hiff.mp hj), Bool.true_and, bitAt, bitAt, List.getD_eq_getElem?_getD,
      List.getD_eq_getElem?_getD]
    by_cases hin : j / w < words.length
    · rw [List.getElem?_append_left (by rw [List.length_take]; omega), List.getElem?_take_of_lt hj]
    · rw [List.getElem?_append_right (by rw [List.length_take]; omega), List.getElem?_replicate,
        List.getElem?_eq_none (Nat.le_of_not_lt hin)]
      split <;> rfl
  · rw [decide_eq_false fun h => hj (hiff.mpr h), Bool.false_and]
    exact bitAt_of_length_le (by simp; omega)

/-! ## Counting and searching -/

theorem bitAt_cons (word : BitVec w) (hw : 0 < w) : bitAt (word :: words) j =
    if j < w then word.getLsbD j else bitAt words (j - w) := by
  split
  · next h => rw [bitAt, Nat.div_eq_of_lt h, Nat.mod_eq_of_lt h, List.getD_cons_zero]
  · next h =>
      have hle : w ≤ j := Nat.le_of_not_lt h
      rw [bitAt, bitAt, Nat.div_eq_sub_div hw hle, Nat.mod_eq_sub_mod hle, List.getD_cons_succ]

theorem cpop_eq_countP (word : BitVec w) :
    word.cpop.toNat = (List.range w).countP word.getLsbD := by
  have hall : ∀ n acc, word.cpopNatRec n acc = acc + (List.range n).countP word.getLsbD := by
    intro n
    induction n with
    | zero => exact fun acc => rfl
    | succ n ih =>
      intro acc
      rw [BitVec.cpopNatRec_succ, ih, List.range_succ, List.countP_append, List.countP_singleton]
      cases word.getLsbD n with
      | false => rfl
      | true => exact Nat.add_right_comm acc 1 _
  rw [BitVec.toNat_cpop, hall, Nat.zero_add]

theorem sum_cpop (hw : 0 < w) : (words.map fun word => word.cpop.toNat).sum =
    (List.range (words.length * w)).countP (bitAt words) := by
  induction words with
  | nil => simp
  | cons word words ih =>
    have hfirst : (List.range w).countP (bitAt (word :: words)) =
        (List.range w).countP word.getLsbD :=
      List.countP_congr fun j hj => by rw [bitAt_cons word hw, if_pos (List.mem_range.mp hj)]
    have hrest : ((List.range (words.length * w)).map (w + ·)).countP (bitAt (word :: words)) =
        (List.range (words.length * w)).countP (bitAt words) := by
      rw [List.countP_map]
      refine List.countP_congr fun j _ => ?_
      rw [Function.comp_apply, bitAt_cons word hw, if_neg (by omega), Nat.add_sub_cancel_left]
    rw [List.map_cons, List.sum_cons, ih, List.length_cons, Nat.succ_mul, Nat.add_comm _ w,
      List.range_add, List.countP_append, hfirst, hrest, cpop_eq_countP]

/-- The first bit that is set, in the words from number `i` on. -/
def firstFrom : ℕ → List (BitVec w) → Option ℕ
  | _, [] => none
  | i, word :: words => if word ≠ 0 then some (i * w + word.ctz.toNat) else firstFrom (i + 1) words

theorem firstFrom_isSome (i : ℕ) : (firstFrom i words).isSome = words.any fun word => word ≠ 0 := by
  induction words generalizing i with
  | nil => rfl
  | cons word words ih =>
    rw [firstFrom, List.any_cons]
    by_cases hword : word = 0
    · rw [if_neg (not_not.mpr hword), ih, decide_eq_false (not_not.mpr hword), Bool.false_or]
    · rw [if_pos hword, decide_eq_true hword, Bool.true_or]
      rfl

theorem firstFrom_spec (hw : 0 < w) (i : ℕ) :
    (firstFrom i words = none ∧ ∀ j, bitAt words j = false) ∨
      ∃ j, firstFrom i words = some (i * w + j) ∧ bitAt words j = true ∧
        ∀ k < j, bitAt words k = false := by
  induction words generalizing i with
  | nil => exact .inl ⟨rfl, fun j => bitAt_of_length_le (Nat.zero_le _)⟩
  | cons word words ih =>
    rw [firstFrom]
    by_cases hword : word = 0
    · have hzero : ∀ k, bitAt (word :: words) k = (decide (w ≤ k) && bitAt words (k - w)) := by
        intro k
        rw [bitAt_cons word hw, hword]
        by_cases hk : k < w
        · rw [if_pos hk, decide_eq_false (by omega), Bool.false_and]
          exact BitVec.getLsbD_zero
        · rw [if_neg hk, decide_eq_true (by omega), Bool.true_and]
      rw [if_neg (not_not.mpr hword)]
      rcases ih (i + 1) with ⟨hnone, hall⟩ | ⟨j, hsome, hj, hbefore⟩
      · exact .inl ⟨hnone, fun k => by rw [hzero, hall, Bool.and_false]⟩
      · refine .inr ⟨w + j, ?_, ?_, fun k hk => ?_⟩
        · rw [hsome, Nat.succ_mul, Nat.add_assoc]
        · rw [hzero, decide_eq_true (by omega), Nat.add_sub_cancel_left, hj]
          rfl
        · rw [hzero]
          by_cases hle : w ≤ k
          · rw [hbefore (k - w) (by omega), Bool.and_false]
          · rw [decide_eq_false hle, Bool.false_and]
    · have hlt : word.ctz.toNat < w := by
        simpa using BitVec.lt_def.mp (BitVec.ctz_lt_iff_ne_zero.mpr hword)
      rw [if_pos hword]
      refine .inr ⟨word.ctz.toNat, rfl, ?_, fun k hk => ?_⟩
      · rw [bitAt_cons word hw, if_pos hlt, BitVec.getLsbD_true_ctz_of_ne_zero hword]
      · rw [bitAt_cons word hw, if_pos (hk.trans hlt), BitVec.getLsbD_false_of_lt_ctz hk]

end WordArray
