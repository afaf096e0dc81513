import Mathlib.Data.List.Basic

/-! # Bounded queues

A first-in first-out queue of bounded size, described by its past: all that was ever
admitted, in order, and how much of it is gone. What it holds is the rest. -/

/-- A queue that never holds more than `capacity` items. -/
structure BoundedQueue (α : Type*) (capacity : ℕ) where
  admitted : List α
  gone : ℕ
  gone_le : gone ≤ admitted.length
  fits : admitted.length - gone ≤ capacity

namespace BoundedQueue

variable {α : Type*} {capacity : ℕ}

def contents (q : BoundedQueue α capacity) : List α :=
  q.admitted.drop q.gone

def empty : BoundedQueue α capacity :=
  ⟨[], 0, Nat.le_refl 0, Nat.zero_le _⟩

def push (q : BoundedQueue α capacity) (xs : List α) : BoundedQueue α capacity :=
  if h : q.contents.length + xs.length ≤ capacity then
    { admitted := q.admitted ++ xs
      gone := q.gone
      gone_le := by
        have hgone := q.gone_le
        rw [List.length_append]
        omega
      fits := by
        have hgone := q.gone_le
        rw [contents, List.length_drop] at h
        rw [List.length_append]
        omega }
  else q

/-- Let the first `n` items go. -/
def pop (q : BoundedQueue α capacity) (n : ℕ) : BoundedQueue α capacity :=
  { admitted := q.admitted
    gone := min (q.gone + n) q.admitted.length
    gone_le := Nat.min_le_right _ _
    fits := by
      have hfits := q.fits
      omega }

def clear (q : BoundedQueue α capacity) : BoundedQueue α capacity :=
  q.pop q.admitted.length

theorem contents_push (q : BoundedQueue α capacity) (xs : List α) :
    (q.push xs).contents =
      if q.contents.length + xs.length ≤ capacity then q.contents ++ xs else q.contents := by
  by_cases h : q.contents.length + xs.length ≤ capacity
  · rw [push, dif_pos h, if_pos h, contents, contents, List.drop_append_of_le_length q.gone_le]
  · rw [push, dif_neg h, if_neg h]

@[simp] theorem contents_pop (q : BoundedQueue α capacity) (n : ℕ) :
    (q.pop n).contents = q.contents.drop n := by
  change q.admitted.drop (min (q.gone + n) q.admitted.length) = (q.admitted.drop q.gone).drop n
  rw [List.drop_drop]
  rcases Nat.le_total (q.gone + n) q.admitted.length with hle | hle
  · rw [Nat.min_eq_left hle]
  · rw [Nat.min_eq_right hle, List.drop_length, List.drop_of_length_le hle]

@[simp] theorem contents_clear (q : BoundedQueue α capacity) : q.clear.contents = [] := by
  rw [clear, contents_pop, contents, List.drop_drop]
  exact List.drop_of_length_le (Nat.le_add_left _ _)

end BoundedQueue
