import DarwinCore.Library.TransitionSystem
import Mathlib.Logic.Function.Basic

/-! # Pipelines

Senders number their messages and put one after the other into a pipeline, where messages keep
their order and may be dropped. -/

/-- What is in the pipeline and in the hands of the senders, and what has been sent and dropped. -/
structure Pipeline (ι μ : Type*) where
  pipe : List μ := []
  hand : ι → Option μ := fun _ => none
  calls : ι → ℕ := fun _ => 0
  sent : List μ := []
  dropped : List μ := []

namespace Pipeline

variable {ι μ : Type*} (sender : μ → ι) (number : μ → ℕ)

inductive Step [DecidableEq ι] : Pipeline ι μ → Pipeline ι μ → Prop where
  | send {p : Pipeline ι μ} (m : μ) (hhand : p.hand (sender m) = none)
      (hnumber : number m = p.calls (sender m)) :
      Step p { p with
        hand := Function.update p.hand (sender m) (some m)
        calls := Function.update p.calls (sender m) (p.calls (sender m) + 1)
        sent := p.sent ++ [m] }
  | put {p : Pipeline ι μ} {i : ι} {m : μ} (h : p.hand i = some m) :
      Step p { p with pipe := p.pipe ++ [m], hand := Function.update p.hand i none }
  | drop {p : Pipeline ι μ} {m : μ} {before after : List μ} (h : p.pipe = before ++ m :: after) :
      Step p { p with pipe := before ++ after, dropped := p.dropped ++ [m] }

/-- Of two messages of one sender, the first has the smaller number. -/
def Before (m m' : μ) : Prop :=
  sender m = sender m' → number m < number m'

/-- The messages of a sender are in the order of their numbers, and what has been sent is there. -/
structure Ordered (p : Pipeline ι μ) : Prop where
  pairwise : p.pipe.Pairwise (Before sender number)
  counted : ∀ m ∈ p.pipe, number m < p.calls (sender m)
  hand : ∀ i m, p.hand i = some m → sender m = i ∧ number m + 1 = p.calls i ∧
    ∀ m' ∈ p.pipe, sender m' = i → number m' < number m
  complete : ∀ m ∈ p.sent, m ∈ p.pipe ∨ m ∈ p.dropped ∨ p.hand (sender m) = some m
  known : (∀ m ∈ p.pipe, m ∈ p.sent) ∧ ∀ i m, p.hand i = some m → m ∈ p.sent

/-- A message comes only after those its sender has sent before, but for dropped ones. -/
def InOrder (p : Pipeline ι μ) : Prop :=
  ∀ before m after, p.pipe = before ++ m :: after → ∀ m' ∈ p.sent, sender m' = sender m →
    number m' < number m → m' ∈ before ∨ m' ∈ p.dropped

variable {sender number}

theorem ordered_empty : Ordered sender number {} where
  pairwise := .nil
  counted := by simp
  hand := by simp
  complete := by simp
  known := by simp

theorem Ordered.inOrder {p : Pipeline ι μ} (h : Ordered sender number p) :
    InOrder sender number p := by
  intro before m after hpipe m' hm' hsender hnumber
  have hpairwise := h.pairwise
  rw [hpipe, List.pairwise_append, List.pairwise_cons] at hpairwise
  rcases h.complete m' hm' with hmem | hdropped | hheld
  · rw [hpipe, List.mem_append, List.mem_cons] at hmem
    rcases hmem with hbefore | rfl | hafter
    · exact .inl hbefore
    · exact absurd hnumber (Nat.lt_irrefl _)
    · exact absurd (hpairwise.2.1.1 m' hafter hsender.symm) (Nat.lt_asymm hnumber)
  · exact .inr hdropped
  · obtain ⟨-, -, hall⟩ := h.hand _ _ hheld
    exact absurd (hall m (hpipe ▸ by simp) hsender.symm) (Nat.lt_asymm hnumber)

variable [DecidableEq ι]

theorem Step.ordered {p p' : Pipeline ι μ} (hstep : Step sender number p p')
    (h : Ordered sender number p) : Ordered sender number p' := by
  cases hstep with
  | send m hhand hnumber =>
    refine ⟨h.pairwise, fun m' hm' => ?_, fun i m' hm' => ?_, fun m' hm' => ?_,
      fun m' hm' => List.mem_append_left _ (h.known.1 m' hm'), fun i m' hm' => ?_⟩
    · have hlt := h.counted m' hm'
      by_cases hsender : sender m' = sender m
      · rw [hsender] at hlt
        simpa [hsender] using Nat.lt_succ_of_lt hlt
      · simpa [hsender] using hlt
    · change Function.update p.hand (sender m) (some m) i = some m' at hm'
      by_cases hi : i = sender m
      · subst hi
        rw [Function.update_self] at hm'
        cases hm'
        refine ⟨rfl, by simp [hnumber], fun m' hm' hsender => ?_⟩
        rw [hnumber, ← hsender]
        exact h.counted m' hm'
      · rw [Function.update_of_ne hi] at hm'
        obtain ⟨hsender, hlast, hall⟩ := h.hand i m' hm'
        exact ⟨hsender, by simpa [hi] using hlast, hall⟩
    · rcases List.mem_append.mp hm' with hold | hnew
      · rcases h.complete m' hold with hpipe | hdropped | hheld
        · exact .inl hpipe
        · exact .inr (.inl hdropped)
        · have hne : sender m' ≠ sender m := by
            intro heq
            rw [heq, hhand] at hheld
            cases hheld
          exact .inr (.inr (by simpa [hne] using hheld))
      · rw [List.mem_singleton.mp hnew]
        exact .inr (.inr (by simp))
    · change Function.update p.hand (sender m) (some m) i = some m' at hm'
      rw [Function.update_apply] at hm'
      split_ifs at hm' with hi
      · cases hm'
        simp
      · exact List.mem_append_left _ (h.known.2 i m' hm')
  | @put i m hi =>
    obtain ⟨hsender, hlast, hall⟩ := h.hand i m hi
    refine ⟨?_, fun m' hm' => ?_, fun j m' hm' => ?_, fun m' hm' => ?_, fun m' hm' => ?_,
      fun j m' hm' => ?_⟩
    · rw [List.pairwise_append]
      refine ⟨h.pairwise, List.pairwise_singleton _ _, fun m' hm' m'' hm'' hsame => ?_⟩
      rw [List.mem_singleton.mp hm''] at hsame ⊢
      exact hall m' hm' (hsame.trans hsender)
    · rcases List.mem_append.mp hm' with hold | hnew
      · exact h.counted m' hold
      · rw [List.mem_singleton.mp hnew, hsender, ← hlast]
        exact Nat.lt_succ_self _
    · change Function.update p.hand i none j = some m' at hm'
      have hne : j ≠ i := by
        rintro rfl
        rw [Function.update_self] at hm'
        cases hm'
      rw [Function.update_of_ne hne] at hm'
      obtain ⟨hsender', hlast', hall'⟩ := h.hand j m' hm'
      refine ⟨hsender', hlast', fun m'' hm'' hsame => ?_⟩
      rcases List.mem_append.mp hm'' with hold | hnew
      · exact hall' m'' hold hsame
      · rw [List.mem_singleton.mp hnew, hsender] at hsame
        exact absurd hsame.symm hne
    · rcases h.complete m' hm' with hpipe | hdropped | hheld
      · exact .inl (List.mem_append_left _ hpipe)
      · exact .inr (.inl hdropped)
      · by_cases hj : sender m' = i
        · rw [hj, hi] at hheld
          cases hheld
          exact .inl (by simp)
        · exact .inr (.inr (by simpa [hj] using hheld))
    · rcases List.mem_append.mp hm' with hold | hnew
      · exact h.known.1 m' hold
      · rw [List.mem_singleton.mp hnew]
        exact h.known.2 i m hi
    · change Function.update p.hand i none j = some m' at hm'
      rw [Function.update_apply] at hm'
      split_ifs at hm' with hj
      exact h.known.2 j m' hm'
  | @drop m before after hpipe =>
    have hsub : (before ++ after).Sublist p.pipe := by
      rw [hpipe]
      exact (List.sublist_cons_self m after).append_left before
    refine ⟨h.pairwise.sublist hsub, fun m' hm' => h.counted m' (hsub.subset hm'),
      fun i m' hm' => ?_, fun m' hm' => ?_, fun m' hm' => h.known.1 m' (hsub.subset hm'),
      h.known.2⟩
    · obtain ⟨hsender, hlast, hall⟩ := h.hand i m' hm'
      exact ⟨hsender, hlast, fun m'' hm'' => hall m'' (hsub.subset hm'')⟩
    · rcases h.complete m' hm' with hold | hdropped | hheld
      · rw [hpipe, List.mem_append, List.mem_cons] at hold
        rcases hold with hb | rfl | ha
        · exact .inl (List.mem_append_left _ hb)
        · exact .inr (.inl (by simp))
        · exact .inl (List.mem_append_right _ ha)
      · exact .inr (.inl (List.mem_append_left _ hdropped))
      · exact .inr (.inr hheld)

end Pipeline
