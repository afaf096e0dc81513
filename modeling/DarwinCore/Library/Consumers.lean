import Mathlib.Logic.Function.Basic

/-! # Consumers of a queue

Consumers take items out of one queue and pass them on when they are ready. If none passes an item
on while another still has one that was taken earlier, the items are passed on in the order of the
queue. -/

/-- What has been queued, what has been taken out and by whom, and what has been passed on. -/
structure Consumers (κ α : Type*) where
  queued : List α := []
  /-- What has been taken and not passed on, in the order of taking. -/
  taken : List (κ × α) := []
  passed : List α := []

namespace Consumers

variable {κ α : Type*} (c : Consumers κ α)

def push (x : α) : Consumers κ α :=
  { c with queued := c.queued ++ [x] }

def take (me : κ) (xs : List α) : Consumers κ α :=
  { c with taken := c.taken ++ xs.map (Prod.mk me) }

/-- What was taken first is passed on first. -/
def pass [DecidableEq κ] (me : κ) (x : α) : Consumers κ α :=
  { c with taken := c.taken.eraseP fun p => p.1 = me, passed := c.passed ++ [x] }

/-- What a consumer has taken and not passed on. -/
def hand [DecidableEq κ] (me : κ) : List α :=
  (c.taken.filter fun p => p.1 = me).map Prod.snd

/-- Nobody else has an item that was taken before those of the consumer. -/
def Turn (me : κ) : Prop :=
  ∀ p ∈ c.taken.head?, p.1 = me

/-- Everything is where it belongs, in the order of the queue. -/
def Orderly (queue : List α) : Prop :=
  c.queued = c.passed ++ (c.taken.map Prod.snd ++ queue)

variable {c} {me other : κ} {x : α} {xs queue rest : List α}

section Hand

variable [DecidableEq κ]

theorem hand_take_self : (c.take me xs).hand me = c.hand me ++ xs := by
  have hall : (xs.map (Prod.mk me)).filter (fun p => p.1 = me) = xs.map (Prod.mk me) := by
    rw [List.filter_eq_self]
    simp
  rw [hand, take, List.filter_append, hall, List.map_append, List.map_map]
  simp [hand, Function.comp_def]

theorem hand_take_of_ne (h : other ≠ me) : (c.take me xs).hand other = c.hand other := by
  have hnone : (xs.map (Prod.mk me)).filter (fun p => p.1 = other) = [] := by
    rw [List.filter_eq_nil_iff]
    simp [h.symm]
  rw [hand, take, List.filter_append, hnone, List.append_nil]
  rfl

theorem hand_pass_of_ne (h : other ≠ me) : (c.pass me x).hand other = c.hand other := by
  unfold hand pass
  induction c.taken with
  | nil => rfl
  | cons p taken ih =>
    by_cases hp : p.1 = me
    · simp [hp, h.symm]
    · by_cases hother : p.1 = other
      · simpa [hp, hother, h, List.filter_cons] using ih
      · simpa [hp, hother, List.filter_cons] using ih

theorem hand_pass_self : (c.pass me x).hand me = (c.hand me).tail := by
  unfold hand pass
  induction c.taken with
  | nil => rfl
  | cons p taken ih =>
    by_cases hp : p.1 = me
    · simp [hp]
    · simpa [hp] using ih

end Hand

/-! ## The order -/

theorem Orderly.push (h : c.Orderly queue) : (c.push x).Orderly (queue ++ [x]) := by
  unfold Orderly at h
  simp [Orderly, Consumers.push, h]

theorem Orderly.take (h : c.Orderly (xs ++ queue)) : (c.take me xs).Orderly queue := by
  unfold Orderly at h
  simp [Orderly, Consumers.take, h, Function.comp_def]

theorem Orderly.pass [DecidableEq κ] (h : c.Orderly queue) (hturn : c.Turn me)
    (hhand : c.hand me = x :: rest) : (c.pass me x).Orderly queue := by
  unfold Orderly at h ⊢
  unfold hand at hhand
  cases htaken : c.taken with
  | nil => simp [htaken] at hhand
  | cons p taken =>
    have hp : p.1 = me := hturn p (by simp [htaken])
    rw [htaken, List.filter_cons_of_pos (by simpa using hp), List.map_cons] at hhand
    obtain ⟨rfl, -⟩ := List.cons.inj hhand
    rw [htaken, List.map_cons] at h
    simp [Consumers.pass, htaken, hp, h]

/-- When nothing is in the queue nor in anyone's hands, all has been passed on. -/
theorem Orderly.passed_eq (h : c.Orderly []) (htaken : c.taken = []) : c.passed = c.queued := by
  rw [h, htaken]
  simp

end Consumers
