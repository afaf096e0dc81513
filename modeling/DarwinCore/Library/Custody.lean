import Mathlib.Data.Finset.Card
import Mathlib.Data.List.Nodup
import Mathlib.Logic.Function.Basic

/-! # Custody

Items, numbered as they are made, lie on a stack or are held by somebody, each in one place. -/

/-- Every item is on the stack or is held once; `count` items are. -/
structure Custody {ι : Type*} (held : ι → Option ℕ) (stack : List ℕ) (made count : ℕ) : Prop where
  holders : ∃ holders : Finset ι, (∀ i, i ∈ holders ↔ (held i).isSome) ∧
    stack.length + holders.card = count
  nodup : stack.Nodup
  apart : ∀ i item, held i = some item → item ∉ stack
  single : ∀ i j item, held i = some item → held j = some item → i = j
  stackMade : ∀ item ∈ stack, item < made
  heldMade : ∀ i item, held i = some item → item < made

namespace Custody

variable {ι : Type*} {held : ι → Option ℕ} {stack : List ℕ} {made count item : ℕ}

theorem empty : Custody (fun _ : ι => none) [] 0 0 where
  holders := ⟨∅, by simp, rfl⟩
  nodup := List.nodup_nil
  apart := by simp
  single := by simp
  stackMade := by simp
  heldMade := by simp

theorem perm {stack' : List ℕ} (h : Custody held stack made count) (hperm : stack'.Perm stack) :
    Custody held stack' made count where
  holders := by
    rw [hperm.length_eq]
    exact h.holders
  nodup := hperm.nodup_iff.mpr h.nodup
  apart i item hheld hmem := h.apart i item hheld (hperm.mem_iff.mp hmem)
  single := h.single
  stackMade item hmem := h.stackMade item (hperm.mem_iff.mp hmem)
  heldMade := h.heldMade

theorem create (h : Custody held stack made count) :
    Custody held (made :: stack) (made + 1) (count + 1) where
  holders := by
    obtain ⟨holders, hmem, hcount⟩ := h.holders
    refine ⟨holders, hmem, ?_⟩
    rw [List.length_cons]
    omega
  nodup := List.nodup_cons.mpr ⟨fun hmem => lt_irrefl _ (h.stackMade made hmem), h.nodup⟩
  apart i item hheld hmem := by
    rcases List.mem_cons.mp hmem with rfl | hmem
    · exact lt_irrefl _ (h.heldMade i item hheld)
    · exact h.apart i item hheld hmem
  single := h.single
  stackMade item hmem := by
    rcases List.mem_cons.mp hmem with rfl | hmem
    · exact Nat.lt_succ_self _
    · exact (h.stackMade item hmem).trans (Nat.lt_succ_self _)
  heldMade i item hheld := (h.heldMade i item hheld).trans (Nat.lt_succ_self _)

theorem pop (h : Custody held (item :: stack) made (count + 1)) :
    Custody held stack made count where
  holders := by
    obtain ⟨holders, hmem, hcount⟩ := h.holders
    refine ⟨holders, hmem, ?_⟩
    rw [List.length_cons] at hcount
    omega
  nodup := (List.nodup_cons.mp h.nodup).2
  apart i item hheld hmem := h.apart i item hheld (List.mem_cons_of_mem _ hmem)
  single := h.single
  stackMade item hmem := h.stackMade item (List.mem_cons_of_mem _ hmem)
  heldMade := h.heldMade

theorem popAll {top : List ℕ} (h : Custody held (top ++ stack) made (count + top.length)) :
    Custody held stack made count := by
  induction top with
  | nil => exact h
  | cons item top ih => exact ih h.pop

/-- If nobody holds an item and none has been thrown away, all are on the stack. -/
theorem perm_range (h : Custody held stack made made) (hheld : ∀ i, held i = none) :
    stack.Perm (List.range made) := by
  obtain ⟨holders, hmem, hcount⟩ := h.holders
  have hempty : holders = ∅ := by
    refine Finset.eq_empty_of_forall_notMem fun i hi => ?_
    rw [hmem, hheld] at hi
    cases hi
  rw [hempty, Finset.card_empty, Nat.add_zero] at hcount
  have hsub : stack ⊆ List.range made :=
    fun item hitem => List.mem_range.mpr (h.stackMade item hitem)
  refine (List.subperm_of_subset h.nodup hsub).perm_of_length_le ?_
  rw [List.length_range, hcount]

variable [DecidableEq ι] {i : ι}

/-- The item on top of the stack is taken. -/
theorem take (h : Custody held (item :: stack) made count) (hi : held i = none) :
    Custody (Function.update held i (some item)) stack made count := by
  have hcases {k : ι} {x : ℕ} (hk : Function.update held i (some item) k = some x) :
      k = i ∧ x = item ∨ k ≠ i ∧ held k = some x := by
    by_cases hki : k = i
    · subst hki
      rw [Function.update_self] at hk
      exact .inl ⟨rfl, (Option.some.inj hk).symm⟩
    · rw [Function.update_of_ne hki] at hk
      exact .inr ⟨hki, hk⟩
  obtain ⟨hnew, hnodup⟩ := List.nodup_cons.mp h.nodup
  refine ⟨?_, hnodup, ?_, ?_, ?_, ?_⟩
  · obtain ⟨holders, hmem, hcount⟩ := h.holders
    have hnot : i ∉ holders := by
      rw [hmem, hi]
      exact Bool.false_ne_true
    refine ⟨insert i holders, fun k => ?_, ?_⟩
    · rw [Finset.mem_insert, hmem, Function.update_apply]
      by_cases hk : k = i <;> simp [hk]
    · rw [List.length_cons] at hcount
      rw [Finset.card_insert_of_notMem hnot]
      omega
  · intro k x hk hmem
    rcases hcases hk with ⟨-, rfl⟩ | ⟨-, hk⟩
    · exact hnew hmem
    · exact h.apart k x hk (List.mem_cons_of_mem _ hmem)
  · intro k l x hk hl
    rcases hcases hk with ⟨hki, hx⟩ | ⟨-, hk'⟩
    · rcases hcases hl with ⟨hli, -⟩ | ⟨-, hl'⟩
      · exact hki.trans hli.symm
      · exact absurd (hx ▸ List.mem_cons_self) (h.apart l x hl')
    · rcases hcases hl with ⟨-, hx⟩ | ⟨-, hl'⟩
      · exact absurd (hx ▸ List.mem_cons_self) (h.apart k x hk')
      · exact h.single k l x hk' hl'
  · exact fun x hmem => h.stackMade x (List.mem_cons_of_mem _ hmem)
  · intro k x hk
    rcases hcases hk with ⟨-, rfl⟩ | ⟨-, hk⟩
    · exact h.stackMade x List.mem_cons_self
    · exact h.heldMade k x hk

/-- An item that was held is put on the stack. -/
theorem give (h : Custody held stack made count) (hi : held i = some item) :
    Custody (Function.update held i none) (item :: stack) made count := by
  have hcases {k : ι} {x : ℕ} (hk : Function.update held i none k = some x) :
      k ≠ i ∧ held k = some x := by
    by_cases hki : k = i
    · subst hki
      rw [Function.update_self] at hk
      cases hk
    · rw [Function.update_of_ne hki] at hk
      exact ⟨hki, hk⟩
  refine ⟨?_, List.nodup_cons.mpr ⟨h.apart i item hi, h.nodup⟩, ?_, ?_, ?_, ?_⟩
  · obtain ⟨holders, hmem, hcount⟩ := h.holders
    have hin : i ∈ holders := by
      rw [hmem, hi]
      rfl
    refine ⟨holders.erase i, fun k => ?_, ?_⟩
    · rw [Finset.mem_erase, hmem, Function.update_apply]
      by_cases hk : k = i <;> simp [hk]
    · have hpos : 0 < holders.card := Finset.card_pos.mpr ⟨i, hin⟩
      rw [Finset.card_erase_of_mem hin, List.length_cons]
      omega
  · intro k x hk hmem
    obtain ⟨hki, hk⟩ := hcases hk
    rcases List.mem_cons.mp hmem with rfl | hmem
    · exact hki (h.single k i x hk hi)
    · exact h.apart k x hk hmem
  · exact fun k l x hk hl => h.single k l x (hcases hk).2 (hcases hl).2
  · intro x hmem
    rcases List.mem_cons.mp hmem with rfl | hmem
    · exact h.heldMade i x hi
    · exact h.stackMade x hmem
  · exact fun k x hk => h.heldMade k x (hcases hk).2

theorem vacate (h : Custody held stack made count) (i : ι) :
    Custody (Function.update held i none) ((held i).toList ++ stack) made count := by
  cases hi : held i with
  | none =>
    have hsame : Function.update held i none = held := by rw [← hi, Function.update_eq_self]
    rw [hsame]
    exact h
  | some item => exact h.give hi

theorem occupy {top : Option ℕ} (h : Custody held (top.toList ++ stack) made count)
    (hi : held i = none) : Custody (Function.update held i top) stack made count := by
  cases top with
  | none =>
    rw [← hi, Function.update_eq_self]
    exact h
  | some item => exact h.take hi

theorem exchange {top : Option ℕ} (h : Custody held (top.toList ++ stack) made count) (i : ι) :
    Custody (Function.update held i top) ((held i).toList ++ stack) made count := by
  have hvacated := h.vacate i
  rw [← List.append_assoc] at hvacated
  have hswap : (top.toList ++ (held i).toList).Perm ((held i).toList ++ top.toList) :=
    List.perm_append_comm
  have hperm := hswap.append_right stack
  rw [List.append_assoc] at hperm
  have hoccupied := (hvacated.perm hperm).occupy (Function.update_self ..)
  rwa [Function.update_idem] at hoccupied

end Custody
