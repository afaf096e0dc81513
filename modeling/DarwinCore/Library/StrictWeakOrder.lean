import Mathlib.Data.List.Basic
import Mathlib.Order.Defs.Unbundled
import Mathlib.Order.Lattice

/-! # Strict weak orders

Comparison functions that may find different elements equivalent. A list that is ordered by one is
determined by the order of its equivalent elements. -/

namespace StrictWeakOrder

variable {α : Type*} {comp : α → α → Bool} {x y z : α} {xs ys : List α}

/-- `comp x y` says that `x` comes before `y`. -/
abbrev IsComparison (comp : α → α → Bool) : Prop :=
  IsStrictWeakOrder α fun x y => comp x y = true

theorem isComparison_key {β : Type*} [LinearOrder β] (key : α → β) :
    IsComparison fun x y : α => decide (key x < key y) where
  irrefl x := by simp
  trans x y z hxy hyz := by simpa using lt_trans (of_decide_eq_true hxy) (of_decide_eq_true hyz)
  incomp_trans x y z hxy hyz := by
    simp only [decide_eq_true_eq, not_lt] at *
    exact ⟨le_trans hyz.1 hxy.1, le_trans hxy.2 hyz.2⟩

theorem isComparison_lt (α : Type*) [LinearOrder α] :
    IsComparison fun x y : α => decide (x < y) :=
  isComparison_key id

def equivalent (comp : α → α → Bool) (x y : α) : Bool :=
  !comp x y && !comp y x

/-- No element comes before one that stands in front of it. -/
def Ordered (comp : α → α → Bool) (xs : List α) : Prop :=
  xs.Pairwise fun x y => comp y x = false

instance : Decidable (Ordered comp xs) :=
  inferInstanceAs (Decidable (xs.Pairwise _))

theorem ordered_of_length_le_one (h : xs.length ≤ 1) : Ordered comp xs := by
  match xs, h with
  | [], _ => exact .nil
  | [x], _ => exact List.pairwise_singleton _ x

theorem equivalent_iff : equivalent comp x y = true ↔ comp x y = false ∧ comp y x = false := by
  simp [equivalent]

theorem equivalent_comm : equivalent comp x y = equivalent comp y x :=
  Bool.and_comm _ _

namespace IsComparison

variable (hcomp : IsComparison comp)

include hcomp

theorem irrefl (x : α) : comp x x = false :=
  Bool.eq_false_iff.mpr (hcomp.toIsStrictOrder.irrefl x)

theorem comp_trans (hxy : comp x y = true) (hyz : comp y z = true) : comp x z = true :=
  hcomp.toIsStrictOrder.trans x y z hxy hyz

theorem asymm (h : comp x y = true) : comp y x = false := by
  refine Bool.eq_false_iff.mpr fun h' => ?_
  simpa [hcomp.irrefl] using hcomp.comp_trans h h'

theorem comp_or (h : comp x z = true) (y : α) : comp x y = true ∨ comp y z = true := by
  by_contra hneither
  obtain ⟨hxy, hyz⟩ := not_or.mp hneither
  have hyx : ¬comp y x = true := fun hyx => hyz (hcomp.comp_trans hyx h)
  have hzy : ¬comp z y = true := fun hzy => hxy (hcomp.comp_trans h hzy)
  exact (hcomp.incomp_trans x y z ⟨hxy, hyx⟩ ⟨hyz, hzy⟩).1 h

theorem not_comp_trans (hyx : comp y x = false) (hzy : comp z y = false) : comp z x = false := by
  refine Bool.eq_false_iff.mpr fun hzx => ?_
  rcases hcomp.comp_or hzx y with h | h
  · simp [h] at hzy
  · simp [h] at hyx

theorem comp_of_comp_of_not (hxy : comp x y = true) (hzy : comp z y = false) :
    comp x z = true := by
  rcases hcomp.comp_or hxy z with h | h
  · exact h
  · simp [h] at hzy

theorem comp_of_not_of_comp (hyx : comp y x = false) (hyz : comp y z = true) :
    comp x z = true := by
  rcases hcomp.comp_or hyz x with h | h
  · simp [h] at hyx
  · exact h

theorem equivalent_self (x : α) : equivalent comp x x = true := by
  simp [equivalent, hcomp.irrefl]

theorem equivalent_trans (hxy : equivalent comp x y = true) (hyz : equivalent comp y z = true) :
    equivalent comp x z = true := by
  rw [equivalent_iff] at *
  exact ⟨hcomp.not_comp_trans hyz.1 hxy.1, hcomp.not_comp_trans hxy.2 hyz.2⟩

theorem mem_iff_of_filter
    (h : ∀ a, xs.filter (equivalent comp a) = ys.filter (equivalent comp a)) (x : α) :
    x ∈ xs ↔ x ∈ ys := by
  have hself (zs : List α) : x ∈ zs ↔ x ∈ zs.filter (equivalent comp x) := by
    simp [hcomp.equivalent_self]
  rw [hself xs, hself ys, h]

/-- What is in order stands in front only of what does not come before it. -/
theorem not_comp_head {x y : α} {xs : List α} (h : Ordered comp (x :: xs)) (hy : y ∈ x :: xs) :
    comp y x = false := by
  rcases List.mem_cons.mp hy with rfl | hy
  · exact hcomp.irrefl y
  · exact (List.pairwise_cons.mp h).1 y hy

/-- Two lists in order are the same if they have the same equivalent elements in the same
order. -/
theorem eq_of_filter (hxs : Ordered comp xs) (hys : Ordered comp ys)
    (h : ∀ a, xs.filter (equivalent comp a) = ys.filter (equivalent comp a)) : xs = ys := by
  induction xs generalizing ys with
  | nil =>
    refine (List.eq_nil_iff_forall_not_mem.mpr fun y hy => ?_).symm
    simpa using (hcomp.mem_iff_of_filter h y).mpr hy
  | cons x xs ih =>
    cases ys with
    | nil => simpa using (hcomp.mem_iff_of_filter h x).mp List.mem_cons_self
    | cons y ys =>
      -- each of the first elements is first in its list, so they are equivalent
      have hyx := hcomp.not_comp_head hxs ((hcomp.mem_iff_of_filter h y).mpr List.mem_cons_self)
      have hxy := hcomp.not_comp_head hys ((hcomp.mem_iff_of_filter h x).mp List.mem_cons_self)
      have hfirst := h x
      rw [List.filter_cons_of_pos (hcomp.equivalent_self x),
        List.filter_cons_of_pos (equivalent_iff.mpr ⟨hxy, hyx⟩)] at hfirst
      obtain ⟨rfl, -⟩ := List.cons.inj hfirst
      refine congrArg (x :: ·) (ih hxs.of_cons hys.of_cons fun a => ?_)
      have ha := h a
      rw [List.filter_cons, List.filter_cons] at ha
      split_ifs at ha
      · exact (List.cons.inj ha).2
      · exact ha

/-! ## Inserting and merging -/

theorem ordered_insert {front back : List α} (h : Ordered comp (front ++ back))
    (hfront : ∀ y ∈ front, comp x y = false) (hback : ∀ y ∈ back, comp x y = true) :
    Ordered comp (front ++ x :: back) := by
  obtain ⟨hordered, hordered', hacross⟩ := List.pairwise_append.mp h
  refine List.pairwise_append.mpr ⟨hordered, List.pairwise_cons.mpr
    ⟨fun y hy => hcomp.asymm (hback y hy), hordered'⟩, fun y hy z hz => ?_⟩
  rcases List.mem_cons.mp hz with rfl | hz
  · exact hfront y hy
  · exact hacross y hy z hz

theorem filter_insert {front back : List α} (hback : ∀ y ∈ back, comp x y = true) (a : α) :
    (front ++ x :: back).filter (equivalent comp a) =
      (front ++ back ++ [x]).filter (equivalent comp a) := by
  by_cases hx : equivalent comp a x = true
  · have hnone : back.filter (equivalent comp a) = [] := by
      refine List.filter_eq_nil_iff.mpr fun y hy hay => ?_
      have hxy := hcomp.equivalent_trans (equivalent_comm.trans hx) hay
      simpa [hback y hy] using equivalent_iff.mp hxy
    simp [List.filter_append, List.filter_cons_of_pos hx, hnone]
  · simp [List.filter_append, List.filter_cons_of_neg hx]

theorem ordered_merge (hxs : Ordered comp xs) (hys : Ordered comp ys) :
    Ordered comp (xs.merge ys comp) := by
  induction xs generalizing ys with
  | nil => simpa using hys
  | cons x xs ihx =>
    induction ys with
    | nil => simpa using hxs
    | cons y ys ihy =>
      rw [List.cons_merge_cons]
      split
      · next hxy =>
          refine List.pairwise_cons.mpr ⟨fun z hz => ?_, ihx hxs.of_cons hys⟩
          rcases List.mem_merge.mp hz with hz | hz
          · exact (List.pairwise_cons.mp hxs).1 z hz
          · exact hcomp.not_comp_trans (hcomp.asymm hxy) (hcomp.not_comp_head hys hz)
      · next hxy =>
          refine List.pairwise_cons.mpr ⟨fun z hz => ?_, ihy hys.of_cons⟩
          rcases List.mem_merge.mp hz with hz | hz
          · exact hcomp.not_comp_trans (Bool.eq_false_iff.mpr hxy) (hcomp.not_comp_head hxs hz)
          · exact (List.pairwise_cons.mp hys).1 z hz

/-- A merge that takes from the right unless the left one comes before puts equivalent elements of
the right list in front. -/
theorem filter_merge (hys : Ordered comp ys) (a : α) :
    (xs.merge ys comp).filter (equivalent comp a) =
      ys.filter (equivalent comp a) ++ xs.filter (equivalent comp a) := by
  induction xs generalizing ys with
  | nil => simp
  | cons x xs ihx =>
    induction ys with
    | nil => simp
    | cons y ys ihy =>
      rw [List.cons_merge_cons]
      split
      · next hxy =>
          by_cases hx : equivalent comp a x = true
          · have hnone : (y :: ys).filter (equivalent comp a) = [] := by
              refine List.filter_eq_nil_iff.mpr fun z hz haz => ?_
              have hxz := hcomp.comp_of_comp_of_not hxy (hcomp.not_comp_head hys hz)
              have heq := hcomp.equivalent_trans (equivalent_comm.trans hx) haz
              simpa [hxz] using equivalent_iff.mp heq
            rw [List.filter_cons_of_pos hx, ihx hys, hnone, List.filter_cons_of_pos hx]
            rfl
          · rw [List.filter_cons_of_neg hx, ihx hys, List.filter_cons_of_neg hx]
      · rw [List.filter_cons, ihy hys.of_cons, List.filter_cons (x := y)]
        split <;> rfl

end IsComparison

end StrictWeakOrder
