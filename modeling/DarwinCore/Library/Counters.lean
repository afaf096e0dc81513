import Mathlib.Algebra.BigOperators.Group.Finset.Basic
import Mathlib.Algebra.BigOperators.Group.Finset.Piecewise
import Mathlib.Algebra.Order.BigOperators.Group.Finset
import Mathlib.Data.Fintype.BigOperators
import Mathlib.Data.Nat.Notation
import Mathlib.Logic.Function.Basic

/-! # Counting -/

/-! ## Counters

A counter that is to be the sum of what each thread contributes. -/

namespace Counters

variable {ι : Type*} [Fintype ι] [DecidableEq ι] {f g : ι → ℕ} {counter counter' : ℕ} {me : ι}

/-- If only one thread's contribution changes, the sum changes with it. -/
theorem sum_add_of_agree (hothers : ∀ i, i ≠ me → g i = f i) :
    ∑ i, g i + f me = ∑ i, f i + g me := by
  have hrest : ∑ i ∈ Finset.univ.erase me, g i = ∑ i ∈ Finset.univ.erase me, f i :=
    Finset.sum_congr rfl fun i hi => hothers i (Finset.ne_of_mem_erase hi)
  rw [← Finset.sum_erase_add _ _ (Finset.mem_univ me), hrest,
    ← Finset.sum_erase_add _ f (Finset.mem_univ me)]
  omega

/-- A step of a thread that changes the counter and the thread's contribution alike. -/
theorem step (h : counter = ∑ i, f i) (me : ι) (hstep : counter' + f me = counter + g me)
    (hothers : ∀ i, i ≠ me → g i = f i) : counter' = ∑ i, g i := by
  have hsum := sum_add_of_agree hothers
  omega

omit [DecidableEq ι] in
theorem le_counter (h : counter = ∑ i, f i) (i : ι) : f i ≤ counter := by
  rw [h]
  exact Finset.single_le_sum (fun _ _ => Nat.zero_le _) (Finset.mem_univ i)

omit [DecidableEq ι] in
theorem card_filter (p : ι → Bool) :
    (Finset.univ.filter fun i => p i = true).card = ∑ i, (p i).toNat := by
  rw [Finset.card_filter]
  refine Finset.sum_congr rfl fun i _ => ?_
  cases p i <;> rfl

/-! ### Counting -/

section Count

variable {σ : Type*} {p q : σ → Bool} {x y : ι → σ}

/-- How many threads are in a state of some kind. -/
def count {ι : Type*} [Fintype ι] (p : σ → Bool) (x : ι → σ) : ℕ :=
  ∑ i, (p (x i)).toNat

theorem count_update (p : σ → Bool) (x : ι → σ) (me : ι) (s : σ) :
    count p (Function.update x me s) + (p (x me)).toNat = count p x + (p s).toNat := by
  have hothers : ∀ i, i ≠ me → (p (Function.update x me s i)).toNat = (p (x i)).toNat := by
    intro i hi
    rw [Function.update_of_ne hi]
  have hsum := sum_add_of_agree hothers
  rwa [Function.update_self] at hsum

omit [DecidableEq ι] in
theorem count_le (h : ∀ i, p (x i) = true → q (y i) = true) : count p x ≤ count q y := by
  refine Finset.sum_le_sum fun i _ => ?_
  have hi := h i
  cases hp : p (x i) with
  | false => simp
  | true => simp [hi hp]

omit [DecidableEq ι] in
theorem count_pos_iff : 0 < count p x ↔ ∃ i, p (x i) = true := by
  rw [count, Finset.sum_pos_iff]
  simp only [Finset.mem_univ, true_and]
  refine exists_congr fun i => ?_
  cases p (x i) <;> simp

end Count

/-! ### Sums by keys -/

section Keys

variable {α κ M : Type*} [DecidableEq κ] {key : α → κ} {l : List α}

theorem sum_by_key [AddCommMonoid M] (weight : α → M) {keys : Finset κ}
    (hkeys : ∀ a ∈ l, key a ∈ keys) :
    (l.map weight).sum = ∑ k ∈ keys, ((l.filter fun a => key a = k).map weight).sum := by
  induction l with
  | nil => simp
  | cons a l ih =>
    obtain ⟨ha, hl⟩ := List.forall_mem_cons.mp hkeys
    have hone (k : κ) : (((a :: l).filter fun a => key a = k).map weight).sum =
        (if key a = k then weight a else 0) +
          ((l.filter fun a => key a = k).map weight).sum := by
      by_cases hk : key a = k
      · simp [hk]
      · simp [hk]
    rw [List.map_cons, List.sum_cons, ih hl, Finset.sum_congr rfl fun k _ => hone k,
      Finset.sum_add_distrib, Finset.sum_ite_eq, if_pos ha]

theorem sum_nonneg_of_key [AddCommMonoid M] [PartialOrder M] [IsOrderedAddMonoid M]
    {weight : α → M} (h : ∀ k, 0 ≤ ((l.filter fun a => key a = k).map weight).sum) :
    0 ≤ (l.map weight).sum := by
  have hkeys : ∀ a ∈ l, key a ∈ (l.map key).toFinset := fun a ha =>
    List.mem_toFinset.mpr (List.mem_map_of_mem ha)
  rw [sum_by_key weight hkeys]
  exact Finset.sum_nonneg fun k _ => h k

end Keys

end Counters

/-! ## Numbers that are given out once

A counter gives out numbers. Whoever has one uses it once, or puts it down. -/

/-- Numbers in hand have not been used, and no two have the same. -/
structure FreshNumbers {ι : Type*} (inHand : ι → Option ℕ) (isUsed : ℕ → Bool) (last : ℕ) :
    Prop where
  fresh : ∀ i n, inHand i = some n → isUsed n = false ∧ n ≤ last
  distinct : ∀ i j n, inHand i = some n → inHand j = some n → i = j
  used : ∀ n, isUsed n = true → n ≤ last

namespace FreshNumbers

variable {ι : Type*} [DecidableEq ι] {inHand : ι → Option ℕ} {isUsed : ℕ → Bool} {last n : ℕ}

omit [DecidableEq ι] in
theorem start : FreshNumbers (fun _ : ι => none) (fun _ => false) 0 where
  fresh := by simp
  distinct := by simp
  used := by simp

theorem putDown (h : FreshNumbers inHand isUsed last) (i : ι) :
    FreshNumbers (Function.update inHand i none) isUsed last := by
  have hkept {j : ι} {n : ℕ} (hj : Function.update inHand i none j = some n) :
      inHand j = some n := by
    by_cases hij : j = i
    · rw [hij, Function.update_self] at hj
      cases hj
    · rwa [Function.update_of_ne hij] at hj
  constructor
  · exact fun j n hj => h.fresh j n (hkept hj)
  · exact fun j k n hj hk => h.distinct j k n (hkept hj) (hkept hk)
  · exact h.used

theorem draw (h : FreshNumbers inHand isUsed last) (i : ι) :
    FreshNumbers (Function.update inHand i (some (last + 1))) isUsed (last + 1) := by
  have hcases {j : ι} {n : ℕ} (hj : Function.update inHand i (some (last + 1)) j = some n) :
      j = i ∧ n = last + 1 ∨ inHand j = some n ∧ n ≤ last := by
    by_cases hij : j = i
    · rw [hij, Function.update_self] at hj
      exact .inl ⟨hij, (Option.some.inj hj).symm⟩
    · rw [Function.update_of_ne hij] at hj
      exact .inr ⟨hj, (h.fresh j n hj).2⟩
  constructor
  · intro j n hj
    rcases hcases hj with ⟨-, rfl⟩ | ⟨hold, hle⟩
    · refine ⟨?_, Nat.le_refl _⟩
      by_contra hused
      have hle := h.used (last + 1) (by simpa using hused)
      omega
    · exact ⟨(h.fresh j n hold).1, Nat.le_succ_of_le hle⟩
  · intro j k n hj hk
    rcases hcases hj with ⟨rfl, rfl⟩ | ⟨hold, hle⟩
    · rcases hcases hk with ⟨rfl, -⟩ | ⟨-, hle⟩
      · rfl
      · omega
    · rcases hcases hk with ⟨-, rfl⟩ | ⟨hold', -⟩
      · omega
      · exact h.distinct j k n hold hold'
  · exact fun n hn => Nat.le_succ_of_le (h.used n hn)

/-- The number in hand is used. -/
theorem use (h : FreshNumbers inHand isUsed last) {i : ι} (hi : inHand i = some n) :
    FreshNumbers (Function.update inHand i none) (Function.update isUsed n true) last := by
  constructor
  · intro j m hj
    by_cases hij : j = i
    · rw [hij, Function.update_self] at hj
      cases hj
    · rw [Function.update_of_ne hij] at hj
      have hne : m ≠ n := by
        rintro rfl
        exact hij (h.distinct j i m hj hi)
      rw [Function.update_of_ne hne]
      exact h.fresh j m hj
  · exact (h.putDown i).distinct
  · intro m hm
    by_cases hmn : m = n
    · exact hmn ▸ (h.fresh i n hi).2
    · rw [Function.update_of_ne hmn] at hm
      exact h.used m hm

end FreshNumbers
