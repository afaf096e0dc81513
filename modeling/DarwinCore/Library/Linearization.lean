import Mathlib.Data.List.Nodup
import Mathlib.Data.Nat.Notation

/-! # Linearization

Concurrent calls of the operations of an object. A history, the newest entry first, says when
calls begin and return. It is linearizable if the calls can be put in an order in which they
would give the same results one after another, and which agrees with the order of calls that do
not overlap. Where each call takes effect at one moment, the order of these moments will do. -/

namespace Linearization

variable {ω ρ τ : Type*}

/-! ## Objects and histories -/

/-- What an object does when its operations are called one after another. -/
structure SequentialObject (ω ρ τ : Type*) where
  init : τ
  /-- The operation leads from one state to another and returns a result. -/
  step : ω → τ → ρ → τ → Prop

/-- An entry of a history. Calls are known by their numbers. -/
inductive CallEvent (ω ρ : Type*) where
  | call (c : ℕ) (op : ω)
  /-- The call takes effect, which is not seen from outside. -/
  | commit (c : ℕ) (op : ω) (res : ρ)
  | ret (c : ℕ) (res : ρ)

def CallEvent.isVisible : CallEvent ω ρ → Bool
  | commit _ _ _ => false
  | _ => true

def CallEvent.committed : CallEvent ω ρ → Option (ℕ × ω × ρ)
  | commit c op res => some (c, op, res)
  | _ => none

/-- The calls in the order in which they took effect. -/
def commits (log : List (CallEvent ω ρ)) : List (ℕ × ω × ρ) :=
  log.filterMap CallEvent.committed

def visible (log : List (CallEvent ω ρ)) : List (CallEvent ω ρ) :=
  log.filter CallEvent.isVisible

namespace SequentialObject

/-- The calls can be made one after another, the last one first. -/
inductive Legal (O : SequentialObject ω ρ τ) : List (ℕ × ω × ρ) → τ → Prop where
  | nil : Legal O [] O.init
  | cons {order : List (ℕ × ω × ρ)} {t t' : τ} {c : ℕ} {op : ω} {res : ρ}
      (h : Legal O order t) (hstep : O.step op t res t') : Legal O ((c, op, res) :: order) t'

theorem Legal.of_append {O : SequentialObject ω ρ τ} {newer older : List (ℕ × ω × ρ)} {t : τ}
    (h : O.Legal (newer ++ older) t) : ∃ t', O.Legal older t' := by
  induction newer generalizing t with
  | nil => exact ⟨t, h⟩
  | cons x newer ih =>
    cases h with
    | cons h hstep => exact ih h

/-- The calls can be made one after another in this order, the last one first. -/
structure Linearizes (O : SequentialObject ω ρ τ) (order : List (ℕ × ω × ρ))
    (history : List (CallEvent ω ρ)) : Prop where
  nodup : (order.map Prod.fst).Nodup
  legal : ∃ t, O.Legal order t
  called : ∀ c op res, (c, op, res) ∈ order → .call c op ∈ history
  returned : ∀ c res, .ret c res ∈ history → ∃ op, (c, op, res) ∈ order
  /-- A call that begins after another has returned comes after it. -/
  inOrder : ∀ c d op res, List.Sublist [.call d op, .ret c res] history → ∀ x ∈ order, x.1 = d →
    ∃ y, y.1 = c ∧ List.Sublist [x, y] order

end SequentialObject

/-! ## Moments of effect -/

/-- Every call takes effect once, after it begins and before it returns. -/
inductive Ordered : List (CallEvent ω ρ) → Prop where
  | nil : Ordered []
  | call {log : List (CallEvent ω ρ)} {c : ℕ} {op : ω} (h : Ordered log)
      (hnew : ∀ op, .call c op ∉ log) : Ordered (.call c op :: log)
  | commit {log : List (CallEvent ω ρ)} {c : ℕ} {op : ω} {res : ρ} (h : Ordered log)
      (hcalled : .call c op ∈ log) (hnew : ∀ op res, .commit c op res ∉ log) :
      Ordered (.commit c op res :: log)
  | ret {log : List (CallEvent ω ρ)} {c : ℕ} {op : ω} {res : ρ} (h : Ordered log)
      (hcommitted : .commit c op res ∈ log) : Ordered (.ret c res :: log)

variable {log : List (CallEvent ω ρ)} {c d : ℕ} {op : ω} {res : ρ}

theorem mem_commits : (c, op, res) ∈ commits log ↔ .commit c op res ∈ log := by
  rw [commits, List.mem_filterMap]
  refine ⟨fun ⟨e, he, heq⟩ => ?_, fun h => ⟨_, h, rfl⟩⟩
  cases e with
  | commit c' op' res' =>
    obtain ⟨rfl, rfl, rfl⟩ : c' = c ∧ op' = op ∧ res' = res := by
      simpa [CallEvent.committed] using heq
    exact he
  | _ => cases heq

theorem mem_visible {e : CallEvent ω ρ} : e ∈ visible log ↔ e ∈ log ∧ e.isVisible = true :=
  List.mem_filter

theorem Ordered.called (h : Ordered log) (hcommit : .commit c op res ∈ log) :
    .call c op ∈ log := by
  induction h with
  | nil => cases hcommit
  | call h hnew ih => exact List.mem_cons_of_mem _ (ih (by simpa using hcommit))
  | @commit log c' op' res' h hcalled hnew ih =>
    rcases List.mem_cons.mp hcommit with heq | hlog
    · obtain ⟨rfl, rfl, rfl⟩ : c = c' ∧ op = op' ∧ res = res' := by simpa using heq
      exact List.mem_cons_of_mem _ hcalled
    · exact List.mem_cons_of_mem _ (ih hlog)
  | ret h hcommitted ih => exact List.mem_cons_of_mem _ (ih (by simpa using hcommit))

theorem Ordered.call_unique (h : Ordered log) {op' : ω} (hcall : .call c op ∈ log)
    (hcall' : .call c op' ∈ log) : op = op' := by
  induction h with
  | nil => cases hcall
  | @call log d opd h hnew ih =>
    rcases List.mem_cons.mp hcall with heq | hlog <;>
      rcases List.mem_cons.mp hcall' with heq' | hlog'
    · obtain ⟨-, rfl⟩ := CallEvent.call.inj heq
      obtain ⟨-, rfl⟩ := CallEvent.call.inj heq'
      rfl
    · obtain ⟨rfl, -⟩ := CallEvent.call.inj heq
      exact absurd hlog' (hnew op')
    · obtain ⟨rfl, -⟩ := CallEvent.call.inj heq'
      exact absurd hlog (hnew op)
    · exact ih hlog hlog'
  | commit h hcalled hnew ih => exact ih (by simpa using hcall) (by simpa using hcall')
  | ret h hcommitted ih => exact ih (by simpa using hcall) (by simpa using hcall')

theorem Ordered.returned (h : Ordered log) (hret : .ret c res ∈ log) :
    ∃ op, .commit c op res ∈ log := by
  induction h with
  | nil => cases hret
  | call h hnew ih =>
    obtain ⟨op, hop⟩ := ih (by simpa using hret)
    exact ⟨op, List.mem_cons_of_mem _ hop⟩
  | commit h hcalled hnew ih =>
    obtain ⟨op, hop⟩ := ih (by simpa using hret)
    exact ⟨op, List.mem_cons_of_mem _ hop⟩
  | @ret log c' op' res' h hcommitted ih =>
    rcases List.mem_cons.mp hret with heq | hlog
    · obtain ⟨rfl, rfl⟩ : c = c' ∧ res = res' := by simpa using heq
      exact ⟨op', List.mem_cons_of_mem _ hcommitted⟩
    · obtain ⟨op, hop⟩ := ih hlog
      exact ⟨op, List.mem_cons_of_mem _ hop⟩

theorem Ordered.during (h : Ordered (.commit c op res :: log)) :
    .call c op ∈ log ∧ ∀ res, .ret c res ∉ log := by
  cases h with
  | commit h hcalled hnew =>
    refine ⟨hcalled, fun res hret => ?_⟩
    obtain ⟨op, hcommitted⟩ := h.returned hret
    exact hnew op res hcommitted

theorem Ordered.nodup (h : Ordered log) : ((commits log).map Prod.fst).Nodup := by
  induction h with
  | nil => exact List.nodup_nil
  | call h hnew ih => exact ih
  | @commit log c op res h hcalled hnew ih =>
    refine List.nodup_cons.mpr ⟨fun hmem => ?_, ih⟩
    obtain ⟨⟨c', op', res'⟩, hcommit, hc⟩ := List.mem_map.mp hmem
    obtain rfl : c' = c := hc
    exact hnew op' res' (mem_commits.mp hcommit)
  | ret h hcommitted ih => exact ih

/-- Calls that do not overlap take effect in the order of the calls. -/
theorem Ordered.inOrder (h : Ordered log) (hbefore : List.Sublist [.call d op, .ret c res] log)
    {x : ℕ × ω × ρ} (hx : x ∈ commits log) (hd : x.1 = d) :
    ∃ y, y.1 = c ∧ List.Sublist [x, y] (commits log) := by
  induction h with
  | nil => cases hx
  | @call log d' op' h hnew ih =>
    cases hbefore with
    | cons _ hlog => exact ih hlog hx
    | cons_cons _ hlog =>
      -- the call is a new one, so that it cannot have taken effect
      obtain ⟨d', op', res'⟩ := x
      obtain rfl : d' = d := hd
      exact absurd (h.called (mem_commits.mp hx)) (hnew op')
  | @commit log c' op' res' h hcalled hnew ih =>
    have hlog : List.Sublist [.call d op, .ret c res] log := by
      cases hbefore with
      | cons _ hlog => exact hlog
    rcases List.mem_cons.mp hx with rfl | hx
    · have hret : .ret c res ∈ log := hlog.subset (List.mem_cons_of_mem _ List.mem_cons_self)
      obtain ⟨op'', hcommitted⟩ := h.returned hret
      refine ⟨(c, op'', res), rfl, List.Sublist.cons_cons _ ?_⟩
      exact List.singleton_sublist.mpr (mem_commits.mpr hcommitted)
    · obtain ⟨y, hy, hsub⟩ := ih hlog hx
      exact ⟨y, hy, hsub.cons _⟩
  | ret h hcommitted ih =>
    cases hbefore with
    | cons _ hlog => exact ih hlog hx

/-- The order in which calls take effect is one of those that linearize the history. -/
theorem Ordered.linearizes {O : SequentialObject ω ρ τ} {t : τ} (h : Ordered log)
    (hlegal : O.Legal (commits log) t) : O.Linearizes (commits log) (visible log) where
  nodup := h.nodup
  legal := ⟨t, hlegal⟩
  called c op res hmem := mem_visible.mpr ⟨h.called (mem_commits.mp hmem), rfl⟩
  returned c res hret := by
    obtain ⟨op, hop⟩ := h.returned (mem_visible.mp hret).1
    exact ⟨op, mem_commits.mpr hop⟩
  inOrder c d op res hbefore x hx hd :=
    h.inOrder (hbefore.trans List.filter_sublist) hx hd

/-! ## Pending calls -/

/-- The call has begun and has not taken effect. -/
def Pending (log : List (CallEvent ω ρ)) (c : ℕ) (op : ω) : Prop :=
  .call c op ∈ log ∧ ∀ op res, .commit c op res ∉ log

theorem Ordered.pending (h : Ordered log) (hnew : ∀ op, .call c op ∉ log) (op : ω) :
    Pending (.call c op :: log) c op := by
  refine ⟨List.mem_cons_self, fun op' res hmem => ?_⟩
  have hlog : .commit c op' res ∈ log := by simpa using hmem
  exact hnew op' (h.called hlog)

theorem Pending.cons {e : CallEvent ω ρ} (h : Pending log c op)
    (hother : ∀ op res, e ≠ .commit c op res) : Pending (e :: log) c op := by
  refine ⟨List.mem_cons_of_mem e h.1, fun op' res hmem => ?_⟩
  rcases List.mem_cons.mp hmem with heq | hlog
  · exact hother op' res heq.symm
  · exact h.2 op' res hlog

theorem Pending.ne {op' : ω} (h : Pending log c op) (hordered : Ordered log)
    (h' : Pending log d op') (hne : op ≠ op') : c ≠ d := by
  rintro rfl
  exact hne (hordered.call_unique h.1 h'.1)

theorem Pending.commit (h : Pending log c op) (hordered : Ordered log) (res : ρ) :
    Ordered (.commit c op res :: log) :=
  hordered.commit h.1 h.2

end Linearization
