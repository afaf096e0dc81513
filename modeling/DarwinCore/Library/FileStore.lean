import Mathlib.Data.List.Basic
import Mathlib.Logic.Function.Basic

/-! # Regular files by path

A store of regular files that nobody else touches, and numbered files in it: moving each one up
makes room for a new first one. -/

namespace FileStore

variable {α : Type*}

abbrev Path := List Char

abbrev Store (α : Type*) := Path → Option α

def Store.put (s : Store α) (p : Path) (a : α) : Store α :=
  Function.update s p (some a)

def Store.remove (s : Store α) (p : Path) : Store α :=
  Function.update s p none

/-- What is at the target is replaced; a missing file is not moved. -/
def Store.rename (s : Store α) (p q : Path) : Store α :=
  match s p with
  | none => s
  | some a => (s.remove p).put q a

variable {s s' : Store α} {p q r : Path} {a : α}

@[simp]
theorem put_self : s.put p a p = some a := by
  simp [Store.put]

theorem put_of_ne (h : q ≠ p) : s.put p a q = s q := by
  simp [Store.put, h]

@[simp]
theorem remove_self : s.remove p p = none := by
  simp [Store.remove]

theorem remove_of_ne (h : q ≠ p) : s.remove p q = s q := by
  simp [Store.remove, h]

theorem rename_source (h : p ≠ q) : s.rename p q p = none := by
  unfold Store.rename
  cases hp : s p with
  | none => exact hp
  | some a => simp [put_of_ne h]

theorem rename_target (h : s p = some a) : s.rename p q q = some a := by
  simp [Store.rename, h]

theorem rename_of_ne (hp : r ≠ p) (hq : r ≠ q) : s.rename p q r = s r := by
  unfold Store.rename
  cases s p with
  | none => rfl
  | some a => simp only [put_of_ne hq, remove_of_ne hp]

theorem rename_remove (h : p ≠ q) : (s.remove q).rename p q = if (s p).isSome then s.rename p q
    else s.remove q := by
  unfold Store.rename
  rw [remove_of_ne h]
  cases s p with
  | none => rfl
  | some a =>
    simp only [Store.put, Store.remove, Option.isSome_some, if_true]
    rw [Function.update_comm h, Function.update_idem, Function.update_comm h]

/-! ## Numbered files -/

section Numbered

variable {name : ℕ → Path} {past : List α} {most n k i : ℕ} {x : α}

/-- The files with the numbers from 1 on are the first `most` of a list. -/
def Numbered (name : ℕ → Path) (most : ℕ) (s : Store α) (past : List α) : Prop :=
  ∀ i, s (name (i + 1)) = (past.take most)[i]?

/-- Each file from number `n` down to the first is moved up by one. -/
def shift (name : ℕ → Path) : ℕ → Store α → Store α
  | 0, s => s
  | n + 1, s => shift name n (s.rename (name (n + 1)) (name (n + 2)))

theorem Numbered.congr (h : Numbered name most s past)
    (hs : ∀ i, s' (name (i + 1)) = s (name (i + 1))) : Numbered name most s' past :=
  fun i => (hs i).trans (h i)

theorem shift_other (h : ∀ i, r ≠ name i) (n : ℕ) (s : Store α) : shift name n s r = s r := by
  induction n generalizing s with
  | zero => rfl
  | succ n ih => rw [shift, ih, rename_of_ne (h _) (h _)]

theorem shift_none (h : ∀ i, s (name (i + 1)) = none) (n : ℕ) : shift name n s = s := by
  induction n with
  | zero => rfl
  | succ n ih => simp only [shift, Store.rename, h, ih]

theorem shift_above (hname : name.Injective) (h : n + 1 < i) (s : Store α) :
    shift name n s (name i) = s (name i) := by
  induction n generalizing s with
  | zero => rfl
  | succ n ih =>
    have hne : name i ≠ name (n + 1) := hname.ne (by omega)
    have hne' : name i ≠ name (n + 2) := hname.ne (by omega)
    rw [shift, ih (by omega), rename_of_ne hne hne']

/-- A file below the last number moves up; the one at the last number goes if one follows it. -/
theorem shift_next (hname : name.Injective) (hi : i < n) (s : Store α)
    (h : i + 1 = n → s (name (i + 1)) = none → s (name (i + 2)) = none) :
    shift name n s (name (i + 2)) = s (name (i + 1)) := by
  induction n generalizing s with
  | zero => omega
  | succ n ih =>
    rw [shift]
    have hup : name (n + 1) ≠ name (n + 2) := hname.ne (by omega)
    by_cases hlast : i = n
    · subst hlast
      rw [shift_above hname (by omega)]
      cases hs : s (name (i + 1)) with
      | some a => exact rename_target hs
      | none =>
        have hnone := h rfl hs
        simpa [Store.rename, hs] using hnone
    · have hne : name (i + 1) ≠ name (n + 1) := hname.ne (by omega)
      have hne' : name (i + 1) ≠ name (n + 2) := hname.ne (by omega)
      rw [ih (by omega), rename_of_ne hne hne']
      intro hlast' _
      subst hlast'
      exact rename_source hup

/-- Moving the numbered files up and putting a new first one keeps the newest ones. -/
theorem Numbered.push (h : Numbered name (most + 1) s past) (hname : name.Injective)
    (hs : ∀ i, s' (name (i + 2)) = shift name most s (name (i + 2)))
    (hfirst : s' (name 1) = some x) : Numbered name (most + 1) s' (x :: past) := by
  intro i
  rw [List.take_succ_cons]
  cases i with
  | zero => simpa using hfirst
  | succ i =>
    rw [List.getElem?_cons_succ, hs]
    by_cases hi : i < most
    · rw [shift_next hname hi, h]
      · simp [hi, Nat.lt_succ_of_lt hi]
      · intro hlast hnone
        rw [h, List.getElem?_eq_none_iff, List.length_take] at hnone ⊢
        omega
    · rw [shift_above hname (by omega), h, List.getElem?_eq_none_iff.mpr,
        List.getElem?_eq_none_iff.mpr]
      all_goals
        rw [List.length_take]
        omega

end Numbered

end FileStore
