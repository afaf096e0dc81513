import DarwinCore.Library.StrictWeakOrder

/-! # Binary heaps in a list

The children of position `i` are at `2 * i + 1` and `2 * i + 2`, and do not come after it. -/

namespace BinaryHeap

open StrictWeakOrder

variable {α : Type*} {comp : α → α → Bool} {heap heap' : List α} {p q c i l lo : ℕ}

/-- The parent of a position behind the first. -/
def parent (c : ℕ) : ℕ :=
  (c - 1) / 2

theorem parent_eq_iff (hc : 0 < c) : parent c = i ↔ c = 2 * i + 1 ∨ c = 2 * i + 2 := by
  rw [parent]
  omega

/-- The element at `p` does not come before the one at `c`, if there are such. -/
def Above (comp : α → α → Bool) (heap : List α) (p c : ℕ) : Prop :=
  ∀ x ∈ heap[p]?, ∀ y ∈ heap[c]?, comp x y = false

theorem Above.congr {p' c' : ℕ} (h : Above comp heap p c) (hp : heap'[p']? = heap[p]?)
    (hc : heap'[c']? = heap[c]?) : Above comp heap' p' c' := by
  rw [Above, hp, hc]
  exact h

theorem above_of_length_le (h : heap.length ≤ c) : Above comp heap p c := by
  rw [Above, List.getElem?_eq_none h]
  exact nofun

theorem above_self (hcomp : IsComparison comp) : Above comp heap p p := by
  intro x hx y hy
  obtain rfl : x = y := Option.mem_unique hx hy
  exact hcomp.irrefl x

theorem Above.trans (hcomp : IsComparison comp) (hpq : Above comp heap p q)
    (hqc : Above comp heap q c) (hq : q < heap.length) : Above comp heap p c :=
  fun x hx y hy => hcomp.not_comp_trans (hqc _ (List.getElem?_eq_getElem hq) y hy)
    (hpq x hx _ (List.getElem?_eq_getElem hq))

/-- The positions from `lo` on are above their children. -/
def HeapFrom (comp : α → α → Bool) (heap : List α) (lo : ℕ) : Prop :=
  ∀ c, 0 < c → lo ≤ parent c → Above comp heap (parent c) c

/-- Only `hole` may have children that come after it; its parent is above them. -/
structure HeapExcept (comp : α → α → Bool) (heap : List α) (lo hole : ℕ) : Prop where
  except : ∀ c, 0 < c → lo ≤ parent c → parent c ≠ hole → Above comp heap (parent c) c
  grand : ∀ c, 0 < c → parent c = hole → 0 < hole → lo ≤ parent hole →
    Above comp heap (parent hole) c

theorem heapFrom_half (h : heap.length ≤ 2 * lo + 1) : HeapFrom comp heap lo := by
  intro c hc hlo
  refine above_of_length_le ?_
  rw [parent] at hlo
  omega

theorem HeapFrom.except (h : HeapFrom comp heap (lo + 1)) : HeapExcept comp heap lo lo where
  except c hc hlo hne := h c hc (by omega)
  grand c _ _ hpos hlo := by
    rw [parent] at hlo
    omega

theorem HeapFrom.root (hcomp : IsComparison comp) (h : HeapFrom comp heap 0)
    (hc : c < heap.length) : Above comp heap 0 c := by
  induction c using Nat.strongRecOn with
  | ind c ih =>
    rcases Nat.eq_zero_or_pos c with rfl | hpos
    · exact above_self hcomp
    · have hparent : parent c < c := by
        rw [parent]
        omega
      have hlength := Nat.lt_trans hparent hc
      exact (ih _ hparent hlength).trans hcomp (h c hpos (Nat.zero_le _)) hlength

namespace HeapExcept

theorem finish (h : HeapExcept comp heap lo i) (hleft : Above comp heap i (2 * i + 1))
    (hright : Above comp heap i (2 * i + 2)) : HeapFrom comp heap lo := by
  intro c hc hlo
  by_cases hhole : parent c = i
  · rw [hhole]
    rcases (parent_eq_iff hc).mp hhole with rfl | rfl
    · exact hleft
    · exact hright
  · exact h.except c hc hlo hhole

/-- The hole moves to the child that changes places with it, if that is above both others. -/
theorem move (h : HeapExcept comp heap lo i) (hlo : lo ≤ i) (hl : l = 2 * i + 1 ∨ l = 2 * i + 2)
    (hhole : Above comp heap l i) (hleft : Above comp heap l (2 * i + 1))
    (hright : Above comp heap l (2 * i + 2)) (hi : heap'[i]? = heap[l]?)
    (hchild : heap'[l]? = heap[i]?) (hother : ∀ k, k ≠ i → k ≠ l → heap'[k]? = heap[k]?) :
    HeapExcept comp heap' lo l where
  except c hc hcLo hne := by
    have hparent : parent l = i := (parent_eq_iff (by omega)).mpr hl
    by_cases hci : parent c = i
    · rw [hci]
      by_cases hcl : c = l
      · subst hcl
        exact hhole.congr hi hchild
      · have hcne : c ≠ i := by
          rcases (parent_eq_iff hc).mp hci with rfl | rfl <;> omega
        refine Above.congr (p := l) (c := c) ?_ hi (hother c hcne hcl)
        rcases (parent_eq_iff hc).mp hci with rfl | rfl
        · exact hleft
        · exact hright
    · have hcl : c ≠ l := fun hcl => hci (hcl ▸ hparent)
      by_cases hcne : c = i
      · subst hcne
        exact (h.grand l (by omega) hparent hc hcLo).congr (hother _ hci hne) hi
      · exact (h.except c hc hcLo hci).congr (hother _ hci hne) (hother c hcne hcl)
  grand c hc hcl hpos _ := by
    have hparent : parent l = i := (parent_eq_iff hpos).mpr hl
    have hrange := (parent_eq_iff hc).mp hcl
    have habove := h.except c hc (by omega) (by omega)
    rw [hcl] at habove
    rw [hparent]
    exact habove.congr hi (hother c (by omega) (by omega))

end HeapExcept

end BinaryHeap
