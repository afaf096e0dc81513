import Mathlib.Data.Finset.Card
import Mathlib.Logic.Function.Basic
import Mathlib.Logic.Relation

/-! # Forests

Nodes with links to their parents, and how many nodes of a set are below each node. -/

namespace Forest

open Relation

variable {ι : Type*} {parent : ι → Option ι} {a b c : ι}

/-! ## Ancestors -/

def Link (parent : ι → Option ι) (a b : ι) : Prop :=
  parent a = some b

/-- `b` is an ancestor of `a`. -/
def Below (parent : ι → Option ι) : ι → ι → Prop :=
  TransGen (Link parent)

/-- `b` is `a` or an ancestor of `a`. -/
def Within (parent : ι → Option ι) : ι → ι → Prop :=
  ReflTransGen (Link parent)

theorem below_iff : Below parent a b ↔ ∃ p, parent a = some p ∧ Within parent p b :=
  TransGen.head'_iff

theorem within_iff : Within parent a b ↔ a = b ∨ Below parent a b :=
  reflTransGen_iff_eq_or_transGen.trans (or_congr_left eq_comm)

theorem Below.trans (h : Below parent a b) (h' : Below parent b c) : Below parent a c :=
  TransGen.trans h h'

/-- What is closed under going to the parent is closed under going to any ancestor. -/
theorem Within.closed {P : ι → Prop} (h : Within parent a b)
    (hclosed : ∀ a b, P a → parent a = some b → P b) (ha : P a) : P b := by
  induction h with
  | refl => exact ha
  | tail _ hlink ih => exact hclosed _ _ ih hlink

/-- In a forest whose parents come before their children, so do all ancestors. -/
theorem Below.lt [Preorder ι] (hdown : ∀ a b, parent a = some b → b < a)
    (h : Below parent a b) : b < a := by
  induction h with
  | single hlink => exact hdown _ _ hlink
  | tail _ hlink ih => exact (hdown _ _ hlink).trans ih

/-! ## A new leaf -/

section Update

variable [DecidableEq ι] {q : Option ι}

/-- A link to a new leaf changes nothing elsewhere. -/
theorem within_update (hfresh : ∀ x, parent x ≠ some a) (hb : b ≠ a) :
    Within (Function.update parent a q) b c ↔ Within parent b c := by
  have hne {x : ι} (h : Within parent b x) : x ≠ a := by
    rcases reflTransGen_iff_eq_or_transGen.mp h with rfl | h
    · exact hb
    · obtain ⟨y, -, hlink⟩ := TransGen.tail'_iff.mp h
      rintro rfl
      exact hfresh y hlink
  constructor
  · intro h
    induction h with
    | refl => exact .refl
    | @tail x y _ hlink ih =>
      refine ih.tail ?_
      rw [Link, Function.update_of_ne (hne ih)] at hlink
      exact hlink
  · intro h
    induction h with
    | refl => exact .refl
    | @tail x y hx hlink ih =>
      refine ih.tail ?_
      rw [Link, Function.update_of_ne (hne hx)]
      exact hlink

theorem below_update (hfresh : ∀ x, parent x ≠ some a) (hb : b ≠ a) :
    Below (Function.update parent a q) b c ↔ Below parent b c := by
  rw [below_iff, below_iff, Function.update_of_ne hb]
  refine exists_congr fun p => and_congr_right fun hp => ?_
  exact within_update hfresh fun heq => hfresh b (heq ▸ hp)

/-- The ancestors of the new leaf are its parent and the ancestors of its parent. -/
theorem below_update_self (hfresh : ∀ x, parent x ≠ some a) (hq : q ≠ some a) :
    Below (Function.update parent a q) a c ↔ ∃ p, q = some p ∧ Within parent p c := by
  rw [below_iff, Function.update_self]
  refine exists_congr fun p => and_congr_right fun hp => ?_
  exact within_update hfresh fun heq => hq (heq ▸ hp)

end Update

/-! ## Counting what is below -/

section Tally

open scoped Classical in
/-- How many nodes of `S` are below `b`. -/
noncomputable def tally (parent : ι → Option ι) (S : Finset ι) (b : ι) : ℕ :=
  (S.filter fun a => Below parent a b).card

variable {S : Finset ι}

open scoped Classical in
theorem tally_pos : 0 < tally parent S b ↔ ∃ a ∈ S, Below parent a b := by
  rw [tally, Finset.card_pos]
  constructor
  · rintro ⟨a, ha⟩
    obtain ⟨hmem, hbelow⟩ := Finset.mem_filter.mp ha
    exact ⟨a, hmem, hbelow⟩
  · rintro ⟨a, hmem, hbelow⟩
    exact ⟨a, Finset.mem_filter.mpr ⟨hmem, hbelow⟩⟩

open scoped Classical in
theorem tally_congr {parent' : ι → Option ι}
    (h : ∀ a ∈ S, Below parent' a b ↔ Below parent a b) :
    tally parent' S b = tally parent S b := by
  rw [tally, tally]
  exact congrArg Finset.card (Finset.filter_congr h)

variable [DecidableEq ι]

open scoped Classical in
theorem tally_insert (ha : a ∉ S) :
    tally parent (insert a S) b = tally parent S b + if Below parent a b then 1 else 0 := by
  rw [tally, tally, Finset.filter_insert]
  split
  · refine Finset.card_insert_of_notMem fun hmem => ha ?_
    exact (Finset.mem_filter.mp hmem).1
  · rfl

open scoped Classical in
theorem tally_erase (ha : a ∈ S) :
    tally parent (S.erase a) b + (if Below parent a b then 1 else 0) = tally parent S b := by
  rw [← tally_insert (Finset.notMem_erase a S), Finset.insert_erase ha]

end Tally

end Forest
