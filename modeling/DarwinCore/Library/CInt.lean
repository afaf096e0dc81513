import Mathlib.Algebra.Order.Ring.Int

/-! # Arithmetic on `int`

Expressions of type `int` with 32 bits: an operation whose result is not in the range, and a
division by zero, has no value. -/

/-- The values of type `int`. -/
abbrev InIntRange (n : ℤ) : Prop :=
  -2147483648 ≤ n ∧ n ≤ 2147483647

/-- What an expression of type `int` evaluates to, if it has a value. -/
@[ext] structure CInt where
  value : Option ℤ
  inRange : ∀ n ∈ value, InIntRange n

namespace CInt

def undefined : CInt :=
  ⟨none, by simp⟩

/-- The expression whose value is `n`. -/
def of (n : ℤ) : CInt :=
  if h : InIntRange n then ⟨some n, by simpa using h⟩ else undefined

/-- An expression that goes on with the value of `x`. -/
def bind (x : CInt) (f : ℤ → CInt) : CInt :=
  match x.value with
  | none => undefined
  | some n => f n

instance : Add CInt := ⟨fun x y => x.bind fun a => y.bind fun b => of (a + b)⟩

instance : Sub CInt := ⟨fun x y => x.bind fun a => y.bind fun b => of (a - b)⟩

instance : Mul CInt := ⟨fun x y => x.bind fun a => y.bind fun b => of (a * b)⟩

instance : Div CInt :=
  ⟨fun x y => x.bind fun a => y.bind fun b => if b = 0 then undefined else of (a.tdiv b)⟩

/-- The remainder has a value if the quotient has one. -/
instance : Mod CInt :=
  ⟨fun x y => x.bind fun a => y.bind fun b =>
    if b = 0 then undefined else (of (a.tdiv b)).bind fun _ => of (a.tmod b)⟩

instance (n : ℕ) : OfNat CInt n := ⟨of n⟩

variable {a b n : ℤ} {f : ℤ → CInt}

theorem value_of (h : InIntRange n) : (of n).value = some n := by
  rw [of, dif_pos h]

theorem eq_of_value {m : ℤ} (h : (of n).value = some m) : n = m := by
  rw [of] at h
  by_cases hn : InIntRange n
  · rw [dif_pos hn] at h
    exact Option.some.inj h
  · rw [dif_neg hn] at h
    cases h

theorem of_inj (ha : InIntRange a) (hb : InIntRange b) (h : of a = of b) : a = b := by
  have hvalue := congrArg CInt.value h
  rw [value_of ha, value_of hb] at hvalue
  exact Option.some.inj hvalue

theorem ofNat_eq (k : ℕ) [k.AtLeastTwo] : (OfNat.ofNat k : CInt) = of (OfNat.ofNat k : ℤ) :=
  rfl

theorem one_eq : (1 : CInt) = of 1 :=
  rfl

theorem of_bind (h : InIntRange n) : (of n).bind f = f n := by
  rw [bind, value_of h]

theorem of_add (ha : InIntRange a) (hb : InIntRange b) : of a + of b = of (a + b) :=
  (of_bind ha).trans (of_bind hb)

theorem of_sub (ha : InIntRange a) (hb : InIntRange b) : of a - of b = of (a - b) :=
  (of_bind ha).trans (of_bind hb)

theorem of_mul (ha : InIntRange a) (hb : InIntRange b) : of a * of b = of (a * b) :=
  (of_bind ha).trans (of_bind hb)

theorem of_tdiv (ha : InIntRange a) (hb : InIntRange b) (hpos : 0 < b) :
    of a / of b = of (a.tdiv b) :=
  ((of_bind ha).trans (of_bind hb)).trans (if_neg hpos.ne')

theorem of_div (hnonneg : 0 ≤ a) (ha : InIntRange a) (hb : InIntRange b) (hpos : 0 < b) :
    of a / of b = of (a / b) := by
  rw [of_tdiv ha hb hpos, Int.tdiv_eq_ediv_of_nonneg hnonneg]

theorem inRange_tdiv (ha : InIntRange a) (hpos : 0 < b) : InIntRange (a.tdiv b) := by
  have hle := Int.natAbs_tdiv_le_natAbs a b
  rcases Int.le_total 0 a with hsign | hsign
  · have hquot := Int.tdiv_nonneg hsign hpos.le
    omega
  · have hquot := Int.tdiv_nonneg (Int.neg_nonneg_of_nonpos hsign) hpos.le
    rw [Int.neg_tdiv] at hquot
    omega

theorem of_tmod (ha : InIntRange a) (hb : InIntRange b) (hpos : 0 < b) :
    of a % of b = of (a.tmod b) := by
  have hmod : of a % of b =
      if b = 0 then undefined else (of (a.tdiv b)).bind fun _ => of (a.tmod b) :=
    (of_bind ha).trans (of_bind hb)
  rw [hmod, if_neg hpos.ne', of_bind (inRange_tdiv ha hpos)]

theorem of_mod (hnonneg : 0 ≤ a) (ha : InIntRange a) (hb : InIntRange b) (hpos : 0 < b) :
    of a % of b = of (a % b) := by
  rw [of_tmod ha hb hpos, Int.tmod_eq_emod_of_nonneg hnonneg]

end CInt
