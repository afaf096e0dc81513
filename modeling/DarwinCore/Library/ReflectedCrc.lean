import Mathlib.Data.List.Basic
import Mathlib.Data.BitVec
import Mathlib.Logic.Function.Iterate
import Mathlib.Tactic.Ring

/-! # Reflected cyclic redundancy checks

A reflected CRC register of `w` bits takes its input least significant bit first: each
bit shifts the register right and adds the polynomial when a one leaves it. The register
is linear over exclusive or, and a polynomial whose top bit is set makes it invertible,
so a burst no longer than the register cannot go unnoticed. -/

namespace ReflectedCrc

variable {w : ℕ} (p : BitVec w)

def bitStep (s : BitVec w) : BitVec w :=
  if s.getLsbD 0 then (s >>> 1) ^^^ p else s >>> 1

/-- Take in one byte, least significant bit first. -/
def byteStep (s : BitVec w) (b : UInt8) : BitVec w :=
  (bitStep p)^[8] (s ^^^ b.toBitVec.setWidth w)

def run (s : BitVec w) (bytes : List UInt8) : BitVec w :=
  bytes.foldl (byteStep p) s

@[simp] theorem run_nil (s : BitVec w) : run p s [] = s := rfl

@[simp] theorem run_cons (s : BitVec w) (b : UInt8) (bytes : List UInt8) :
    run p s (b :: bytes) = run p (byteStep p s b) bytes := rfl

theorem run_append (s : BitVec w) (xs ys : List UInt8) :
    run p s (xs ++ ys) = run p (run p s xs) ys :=
  List.foldl_append

/-! ## Linearity -/

theorem bitStep_xor (a b : BitVec w) :
    bitStep p (a ^^^ b) = bitStep p a ^^^ bitStep p b := by
  have hshift : (a ^^^ b) >>> 1 = (a >>> 1) ^^^ (b >>> 1) :=
    BitVec.ushiftRight_xor_distrib a b 1
  unfold bitStep
  rw [BitVec.getLsbD_xor, hshift]
  cases a.getLsbD 0 <;> cases b.getLsbD 0
  · simp
  · simp [BitVec.xor_assoc]
  · simp only [Bool.xor_false, ite_true, Bool.false_eq_true, ite_false]
    rw [BitVec.xor_assoc, BitVec.xor_comm (b >>> 1) p, BitVec.xor_assoc]
  · simp only [Bool.xor_self, Bool.false_eq_true, ite_false, ite_true]
    rw [BitVec.xor_assoc (a >>> 1) p, ← BitVec.xor_assoc p, BitVec.xor_comm p (b >>> 1),
      BitVec.xor_assoc (b >>> 1), BitVec.xor_self, BitVec.xor_zero]

theorem iterate_bitStep_xor (n : ℕ) (a b : BitVec w) :
    (bitStep p)^[n] (a ^^^ b) = (bitStep p)^[n] a ^^^ (bitStep p)^[n] b := by
  induction n generalizing a b with
  | zero => rfl
  | succ n ih => simp only [Function.iterate_succ_apply, bitStep_xor, ih]

/-! ## Invertibility -/

/-- A set top bit of the polynomial marks the steps that shifted a one out. -/
theorem bitStep_eq_zero (hp : p.msb = true) {s : BitVec w} (h : bitStep p s = 0) : s = 0 := by
  unfold bitStep at h
  split at h
  · have hmsb : ((s >>> 1) ^^^ p).msb = true := by
      rw [BitVec.msb_xor, hp, BitVec.msb_ushiftRight]
      simp
    rw [h] at hmsb
    simp at hmsb
  · rename_i hlow
    apply BitVec.eq_of_getLsbD_eq
    intro i _
    cases i with
    | zero => simpa using hlow
    | succ i =>
      have hbit := congrArg (fun x : BitVec w => x.getLsbD i) h
      simpa [Nat.add_comm] using hbit

theorem bitStep_injective (hp : p.msb = true) : Function.Injective (bitStep p) := by
  intro a b h
  have hzero : bitStep p (a ^^^ b) = 0 := by
    rw [bitStep_xor, h, BitVec.xor_self]
    rfl
  exact BitVec.xor_eq_zero_iff.mp (bitStep_eq_zero p hp hzero)

theorem byteStep_injective (hp : p.msb = true) (b : UInt8) :
    Function.Injective fun s => byteStep p s b := by
  intro s t h
  have hx := (bitStep_injective p hp).iterate 8 h
  simpa using hx

theorem run_injective (hp : p.msb = true) (bytes : List UInt8) :
    Function.Injective fun s => run p s bytes := by
  induction bytes with
  | nil => exact fun s t h => h
  | cons b bytes ih => exact fun s t h => byteStep_injective p hp b (ih h)

/-! ## Shifting bytes through -/

theorem bitStep_shiftLeft_one {x : BitVec w} (h : x.msb = false) : bitStep p (x <<< 1) = x := by
  have hlow : (x <<< 1).getLsbD 0 = false := by simp
  unfold bitStep
  rw [hlow]
  simp only [Bool.false_eq_true, ite_false]
  apply BitVec.eq_of_getLsbD_eq
  intro i hi
  by_cases hlast : 1 + i < w
  · simp only [BitVec.getLsbD_ushiftRight, BitVec.getLsbD_shiftLeft]
    simp [hlast]
  · have hi' : i = w - 1 := by omega
    have hmsb : x.getLsbD i = false := by rw [hi', ← BitVec.msb_eq_getLsbD_last]; exact h
    simp [hlast, hmsb]

/-- Bits that start `k` places up reach the bottom unchanged after `k` steps. -/
theorem iterate_bitStep_shiftLeft (k : ℕ) {x : BitVec w}
    (h : ∀ i, w ≤ i + k → x.getLsbD i = false) : (bitStep p)^[k] (x <<< k) = x := by
  induction k with
  | zero => simp
  | succ k ih =>
    have hmsb : (x <<< k).msb = false := by
      rw [BitVec.msb_eq_getLsbD_last, BitVec.getLsbD_shiftLeft]
      rcases Nat.lt_or_ge (w - 1) k with hk | hk
      · simp [hk]
      · rw [h (w - 1 - k) (by omega), Bool.and_false]
    rw [Function.iterate_succ_apply, BitVec.shiftLeft_add, bitStep_shiftLeft_one p hmsb]
    exact ih fun i hi => h i (by omega)

/-- The contribution of the low byte, read off a table by table-driven code, and the rest
of the register moved down. -/
theorem iterate_bitStep_eight (s : BitVec w) :
    (bitStep p)^[8] s = (bitStep p)^[8] ((s.setWidth 8).setWidth w) ^^^ (s >>> 8) := by
  have hsplit : s = (s.setWidth 8).setWidth w ^^^ ((s >>> 8) <<< 8) := by
    apply BitVec.eq_of_getLsbD_eq
    intro i hi
    by_cases h8 : i < 8
    · simp [h8, hi]
    · have hi8 : 8 + (i - 8) = i := by omega
      simp [h8, hi, hi8]
  have hhigh : (bitStep p)^[8] ((s >>> 8) <<< 8) = s >>> 8 := by
    apply iterate_bitStep_shiftLeft
    intro i hi
    rw [BitVec.getLsbD_ushiftRight]
    exact BitVec.getLsbD_of_ge s (8 + i) (by omega)
  calc
    (bitStep p)^[8] s = (bitStep p)^[8] ((s.setWidth 8).setWidth w ^^^ ((s >>> 8) <<< 8)) := by
      rw [← hsplit]
    _ = (bitStep p)^[8] ((s.setWidth 8).setWidth w) ^^^ (s >>> 8) := by
      rw [iterate_bitStep_xor, hhigh]

/-! ## Windows no longer than the register -/

/-- The bytes laid out in the register, the first one lowest. -/
def leWord (w : ℕ) : List UInt8 → BitVec w
  | [] => 0
  | b :: bytes => b.toBitVec.setWidth w ^^^ (leWord w bytes <<< 8)

theorem getLsbD_leWord (bytes : List UInt8) (i : ℕ) :
    (leWord w bytes).getLsbD i =
      (decide (i < w) && (bytes.getD (i / 8) 0).toBitVec.getLsbD (i % 8)) := by
  induction bytes generalizing i with
  | nil => simp [leWord]
  | cons b bytes ih =>
    rw [leWord, BitVec.getLsbD_xor, BitVec.getLsbD_shiftLeft, ih, BitVec.getLsbD_setWidth]
    by_cases h8 : i < 8
    · simp [h8, Nat.div_eq_of_lt h8, Nat.mod_eq_of_lt h8]
    · obtain ⟨j, rfl⟩ : ∃ j, i = j + 8 := ⟨i - 8, by omega⟩
      have hlt : j + 8 < w → j < w := by omega
      by_cases hw : j + 8 < w
      · simp [hw, hlt hw]
      · simp [hw]

theorem leWord_high (bytes : List UInt8) {i : ℕ} (h : 8 * bytes.length ≤ i) :
    (leWord w bytes).getLsbD i = false := by
  have hnone : bytes[i / 8]? = none := List.getElem?_eq_none (by omega)
  simp [getLsbD_leWord, List.getD, hnone]

theorem leWord_injective {xs ys : List UInt8} (hlen : xs.length = ys.length)
    (hw : 8 * xs.length ≤ w) (h : leWord w xs = leWord w ys) : xs = ys := by
  apply List.ext_getElem hlen
  intro j hx hy
  apply UInt8.toBitVec_inj.mp
  apply BitVec.eq_of_getLsbD_eq
  intro k hk
  have hbit := congrArg (fun x : BitVec w => x.getLsbD (8 * j + k)) h
  have hdiv : (8 * j + k) / 8 = j := by omega
  have hmod : (8 * j + k) % 8 = k := by omega
  have hlt : 8 * j + k < w := by omega
  simp only [getLsbD_leWord, hdiv, hmod, hlt, decide_true, Bool.true_and] at hbit
  simpa [hx, hy] using hbit

theorem run_eq_iterate (s : BitVec w) (bytes : List UInt8) (hw : 8 * bytes.length ≤ w) :
    run p s bytes = (bitStep p)^[8 * bytes.length] (s ^^^ leWord w bytes) := by
  induction bytes generalizing s with
  | nil => simp [leWord]
  | cons b bytes ih =>
    rw [List.length_cons] at hw
    have hshift : (bitStep p)^[8] (leWord w bytes <<< 8) = leWord w bytes := by
      apply iterate_bitStep_shiftLeft
      intro i hi
      exact leWord_high bytes (by omega)
    have hfirst : byteStep p s b ^^^ leWord w bytes =
        (bitStep p)^[8] (s ^^^ leWord w (b :: bytes)) := by
      rw [leWord, ← BitVec.xor_assoc, iterate_bitStep_xor, hshift]
      rfl
    rw [run_cons, ih _ (by omega), hfirst, ← Function.iterate_add_apply, List.length_cons]
    rfl

/-- Strings that differ only inside a window no longer than the register, and end with the
same register, are equal. -/
theorem run_window_injective (hp : p.msb = true) (s : BitVec w) (front back : List UInt8)
    {xs ys : List UInt8} (hlen : xs.length = ys.length) (hw : 8 * xs.length ≤ w)
    (h : run p s (front ++ xs ++ back) = run p s (front ++ ys ++ back)) : xs = ys := by
  simp only [run_append] at h
  have hmid : run p (run p s front) xs = run p (run p s front) ys := run_injective p hp back h
  rw [run_eq_iterate p _ xs hw, run_eq_iterate p _ ys (hlen ▸ hw), ← hlen] at hmid
  have hword := (bitStep_injective p hp).iterate _ hmid
  exact leWord_injective hlen hw (by simpa using hword)

/-! ## The residue -/

/-- The register reached after any string that is followed by its own complemented check. -/
def residue : BitVec w := (bitStep p)^[w] (BitVec.allOnes w)

/-- A trailer of register width is the complemented check of what precedes it exactly when
the register ends in the residue. -/
theorem run_trailer (hp : p.msb = true) (s : BitVec w) {trailer : List UInt8}
    (hlen : 8 * trailer.length = w) :
    run p s trailer = residue p ↔ leWord w trailer = ~~~s := by
  have hrun : run p s trailer = (bitStep p)^[w] (s ^^^ leWord w trailer) := by
    rw [run_eq_iterate p s trailer hlen.le, hlen]
  have hones : s ^^^ ~~~s = BitVec.allOnes w := by
    apply BitVec.eq_of_getLsbD_eq
    intro i hi
    simp [hi]
  rw [hrun, residue]
  constructor
  · intro h
    have hx := (bitStep_injective p hp).iterate w h
    rw [← hones] at hx
    simpa using hx
  · intro h
    rw [h, hones]

end ReflectedCrc
