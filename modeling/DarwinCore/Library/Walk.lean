import Mathlib.Data.Finset.Card
import Mathlib.Data.List.Nodup
import Mathlib.Logic.Relation

/-! # Following links

Where links lead from, and a walk that stops at the first key that it has met before, so that it
ends even when the links go round in circles. -/

namespace Walk

open Relation

variable {α κ : Type*} {next next' : α → Option α} {cur cur' last last' : Option α} {a b : α}
  {l l' : List α}

/-! ## Paths -/

/-- The links lead from `cur` through the members of the list to `last`. -/
def Path (next : α → Option α) : Option α → List α → Option α → Prop
  | cur, [], last => cur = last
  | cur, a :: l, last => cur = some a ∧ Path next (next a) l last

/-- What holds of the first member and goes over along the links holds of all. -/
theorem Path.forall {P : α → Prop} (h : Path next cur l last) (hcur : ∀ a, cur = some a → P a)
    (hnext : ∀ a b, P a → next a = some b → P b) :
    (∀ a ∈ l, P a) ∧ ∀ b, last = some b → P b := by
  induction l generalizing cur with
  | nil =>
    obtain rfl : cur = last := h
    exact ⟨nofun, hcur⟩
  | cons a l ih =>
    obtain ⟨rfl, hrest⟩ := h
    have ha : P a := hcur a rfl
    obtain ⟨hmem, hlast⟩ := ih hrest fun b hb => hnext a b ha hb
    exact ⟨List.forall_mem_cons.mpr ⟨ha, hmem⟩, hlast⟩

theorem Path.congr {P : α → Prop} (h : Path next cur l last) (hcur : ∀ a, cur = some a → P a)
    (hnext : ∀ a b, P a → next a = some b → P b) (heq : ∀ a, P a → next' a = next a) :
    Path next' cur l last := by
  induction l generalizing cur with
  | nil => exact h
  | cons a l ih =>
    obtain ⟨rfl, hrest⟩ := h
    have ha : P a := hcur a rfl
    refine ⟨rfl, ?_⟩
    rw [heq a ha]
    exact ih hrest fun b hb => hnext a b ha hb

theorem Path.linked (h : Path next cur l (some b)) :
    ∀ a ∈ l, TransGen (fun a b => next a = some b) a b := by
  induction l generalizing cur with
  | nil => exact nofun
  | cons a l ih =>
    obtain ⟨-, hrest⟩ := h
    refine List.forall_mem_cons.mpr ⟨?_, ih hrest⟩
    cases l with
    | nil => exact .single hrest
    | cons c l => exact .head hrest.1 (ih hrest c List.mem_cons_self)

/-! ## Walks -/

section Follow

variable {key : α → κ} {fuel : ℕ} {visited : List κ}

structure Cut (next : α → Option α) (key : α → κ) (visited : List κ) (cur : Option α)
    (l : List α) (last : Option α) : Prop where
  path : Path next cur l last
  distinct : (l.map key).Nodup
  fresh : ∀ a ∈ l, key a ∉ visited
  met : ∀ b, last = some b → key b ∈ visited ∨ key b ∈ l.map key

theorem Cut.cons (h : Cut next key (key a :: visited) (next a) l last)
    (ha : key a ∉ visited) : Cut next key visited (some a) (a :: l) last where
  path := ⟨rfl, h.path⟩
  distinct := by
    rw [List.map_cons, List.nodup_cons]
    refine ⟨fun hmem => ?_, h.distinct⟩
    obtain ⟨b, hb, heq⟩ := List.mem_map.mp hmem
    exact h.fresh b hb (heq ▸ List.mem_cons_self)
  fresh := List.forall_mem_cons.mpr
    ⟨ha, fun b hb hmem => h.fresh b hb (List.mem_cons_of_mem _ hmem)⟩
  met b hb := by
    rw [List.map_cons, List.mem_cons]
    rcases h.met b hb with hmet | hmet
    · rcases List.mem_cons.mp hmet with heq | hold
      · exact .inr (.inl heq)
      · exact .inl hold
    · exact .inr (.inr hmet)

variable [DecidableEq κ]

/-- The nodes from `cur` on, up to the first one whose key has been met. -/
def follow (next : α → Option α) (key : α → κ) : ℕ → Option α → List κ → Option (List α)
  | 0, _, _ => none
  | _ + 1, none, _ => some []
  | fuel + 1, some a, visited =>
      if key a ∈ visited then some []
      else (follow next key fuel (next a) (key a :: visited)).map (a :: ·)

theorem follow_cut (h : follow next key fuel cur visited = some l) :
    ∃ last, Cut next key visited cur l last := by
  induction fuel generalizing cur visited l with
  | zero => cases h
  | succ fuel ih =>
    cases cur with
    | none =>
      obtain rfl : [] = l := Option.some.inj h
      exact ⟨none, rfl, List.nodup_nil, nofun, nofun⟩
    | some a =>
      rw [follow] at h
      by_cases ha : key a ∈ visited
      · rw [if_pos ha] at h
        obtain rfl : [] = l := Option.some.inj h
        refine ⟨some a, rfl, List.nodup_nil, nofun, ?_⟩
        rintro b heq
        exact .inl (Option.some.inj heq ▸ ha)
      · rw [if_neg ha] at h
        obtain ⟨rest, hrest, rfl⟩ := Option.map_eq_some_iff.mp h
        obtain ⟨last, hcut⟩ := ih hrest
        exact ⟨last, hcut.cons ha⟩

theorem follow_mono (h : follow next key fuel cur visited = some l) {fuel' : ℕ}
    (hle : fuel ≤ fuel') : follow next key fuel' cur visited = some l := by
  induction fuel generalizing cur visited l fuel' with
  | zero => cases h
  | succ fuel ih =>
    obtain ⟨fuel', rfl⟩ : ∃ n, fuel' = n + 1 := ⟨fuel' - 1, by omega⟩
    cases cur with
    | none => exact h
    | some a =>
      rw [follow] at h ⊢
      by_cases ha : key a ∈ visited
      · rw [if_pos ha] at h ⊢
        exact h
      · rw [if_neg ha] at h ⊢
        obtain ⟨rest, hrest, rfl⟩ := Option.map_eq_some_iff.mp h
        rw [ih hrest (Nat.le_of_succ_le_succ hle)]
        rfl

/-- A walk among finitely many keys ends. -/
theorem follow_ends (visited : List κ) {P : α → Prop} {K : Finset κ}
    (hcur : ∀ a, cur = some a → P a)
    (hnext : ∀ a b, P a → next a = some b → P b) (hK : ∀ a, P a → key a ∈ K)
    (hfuel : (K \ visited.toFinset).card < fuel) :
    ∃ l, follow next key fuel cur visited = some l := by
  induction fuel generalizing cur visited with
  | zero => exact absurd hfuel (Nat.not_lt_zero _)
  | succ fuel ih =>
    cases cur with
    | none => exact ⟨[], rfl⟩
    | some a =>
      have ha : P a := hcur a rfl
      rw [follow]
      by_cases hmet : key a ∈ visited
      · exact ⟨[], if_pos hmet⟩
      · have hmem : key a ∈ K \ visited.toFinset := by
          rw [Finset.mem_sdiff, List.mem_toFinset]
          exact ⟨hK a ha, hmet⟩
        have hless : K \ (key a :: visited).toFinset = (K \ visited.toFinset).erase (key a) := by
          rw [List.toFinset_cons, Finset.sdiff_insert]
        have hcard := Finset.card_erase_of_mem hmem
        rw [← hless] at hcard
        have hpos := Finset.card_pos.mpr ⟨_, hmem⟩
        obtain ⟨rest, hrest⟩ := ih (key a :: visited) (fun b hb => hnext a b ha hb)
          (by omega : (K \ (key a :: visited).toFinset).card < fuel)
        exact ⟨a :: rest, by rw [if_neg hmet, hrest]; rfl⟩

end Follow

end Walk
