import DarwinCore.Library.Lists
import DarwinCore.Library.TransitionSystem
import Mathlib.Data.List.Nodup
import Mathlib.Data.List.Perm.Basic
import Mathlib.Data.Nat.Notation

/-! # Requests and their answers

Callers number their requests and hand them to a server, which answers them one by one until it
leaves. A request that is accepted and then left behind is never answered. -/

/-- The requests by how far they have come. -/
structure Requests where
  /-- Made, and not yet accepted. -/
  calling : List ℕ := []
  /-- Accepted, and not yet answered. -/
  waiting : List ℕ := []
  answered : List ℕ := []
  /-- The number of the next request. -/
  next : ℕ := 0
  /-- The server is still there. -/
  served : Bool := true

namespace Requests

inductive Step (r r' : Requests) : Prop where
  | call (hcalling : r'.calling = r.next :: r.calling) (hwaiting : r'.waiting = r.waiting)
      (hanswered : r'.answered = r.answered) (hnext : r'.next = r.next + 1)
      (hserved : r'.served = r.served)
  | accept (p : ℕ) (hcalling : r.calling.Perm (p :: r'.calling))
      (hwaiting : r'.waiting = r.waiting ++ [p]) (hanswered : r'.answered = r.answered)
      (hnext : r'.next = r.next) (hserved : r'.served = r.served)
  | answer (p : ℕ) (hcalling : r'.calling = r.calling) (hwaiting : r.waiting = p :: r'.waiting)
      (hanswered : r'.answered = p :: r.answered) (hnext : r'.next = r.next)
      (hserved : r.served = true ∧ r'.served = true)
  /-- A request may be rejected, and the server may leave. -/
  | other (hcalling : r'.calling.Sublist r.calling) (hwaiting : r'.waiting = r.waiting)
      (hanswered : r'.answered = r.answered) (hnext : r.next ≤ r'.next)
      (hserved : r'.served = true → r.served = true)

def system : TransitionSystem Requests where
  init r := r = {}
  step := Step

/-- Somebody is left behind: the server leaves while requests wait, or a request is accepted
after it has left. -/
def Strands (r r' : Requests) : Prop :=
  (r.served = true ∧ r'.served = false ∧ r.waiting ≠ []) ∨
    (r.served = false ∧ ∃ p, r'.waiting = r.waiting ++ [p])

structure Distinct (r : Requests) : Prop where
  nodup : (r.calling ++ (r.waiting ++ r.answered)).Nodup
  old : ∀ p ∈ r.calling ++ (r.waiting ++ r.answered), p < r.next

variable {r r' s : Requests} {past : List Requests}

theorem Distinct.perm (h : r.Distinct)
    (hperm : (r'.calling ++ (r'.waiting ++ r'.answered)).Subperm
      (r.calling ++ (r.waiting ++ r.answered)))
    (hnext : r.next ≤ r'.next) : r'.Distinct where
  nodup := by
    obtain ⟨_, hsame, hsub⟩ := hperm
    exact hsame.nodup_iff.mp (h.nodup.sublist hsub)
  old p hp := Nat.lt_of_lt_of_le (h.old p (hperm.subset hp)) hnext

theorem Step.distinct (hstep : Step r r') (h : r.Distinct) : r'.Distinct := by
  cases hstep with
  | call hcalling hwaiting hanswered hnext hserved =>
    have hfresh : r.next ∉ r.calling ++ (r.waiting ++ r.answered) := fun hmem =>
      Nat.lt_irrefl _ (h.old _ hmem)
    refine ⟨?_, ?_⟩
    · rw [hcalling, hwaiting, hanswered, List.cons_append, List.nodup_cons]
      exact ⟨hfresh, h.nodup⟩
    · intro p hp
      rw [hcalling, hwaiting, hanswered, List.cons_append, List.mem_cons] at hp
      rw [hnext]
      rcases hp with rfl | hp
      · exact Nat.lt_succ_self _
      · exact Nat.lt_succ_of_lt (h.old p hp)
  | accept p hcalling hwaiting hanswered hnext hserved =>
    refine h.perm (List.Perm.subperm ?_) (Nat.le_of_eq hnext.symm)
    rw [hwaiting, hanswered, List.append_assoc, List.singleton_append]
    have hmoved : (r'.calling ++ (r.waiting ++ p :: r.answered)).Perm
        (r'.calling ++ p :: (r.waiting ++ r.answered)) := List.perm_middle.append_left _
    exact (hmoved.trans List.perm_middle).trans (hcalling.symm.append_right _)
  | answer p hcalling hwaiting hanswered hnext hserved =>
    refine h.perm (List.Perm.subperm ?_) (Nat.le_of_eq hnext.symm)
    rw [hcalling, hwaiting, hanswered]
    exact List.perm_middle.append_left _
  | other hcalling hwaiting hanswered hnext hserved =>
    refine h.perm (List.Sublist.subperm ?_) hnext
    rw [hwaiting, hanswered]
    exact hcalling.append_right _

theorem run_distinct {states : List Requests} (hrun : system.Run states) :
    ∀ r ∈ states, r.Distinct := by
  refine hrun.invariant ?_ fun r r' h (hstep : Step r r') => hstep.distinct h
  rintro r rfl
  exact ⟨List.nodup_nil, by simp⟩

theorem Step.accepted (hstep : Step r r') {p : ℕ} (h : p ∈ r.waiting ∨ p ∈ r.answered) :
    p ∈ r'.waiting ∨ p ∈ r'.answered := by
  cases hstep with
  | call hcalling hwaiting hanswered =>
    rw [hwaiting, hanswered]
    exact h
  | accept q hcalling hwaiting hanswered =>
    rw [hwaiting, hanswered]
    exact h.imp_left (List.mem_append_left _)
  | answer q hcalling hwaiting hanswered =>
    rw [hwaiting, List.mem_cons] at h
    rw [hanswered, List.mem_cons]
    tauto
  | other hcalling hwaiting hanswered =>
    rw [hwaiting, hanswered]
    exact h

theorem run_accepted (hrun : system.Run (s :: past)) :
    ∀ u ∈ s :: past, ∀ p ∈ u.waiting, p ∈ s.waiting ∨ p ∈ s.answered := by
  generalize hstates : s :: past = states at hrun
  induction hrun generalizing s past with
  | start hinit =>
    obtain ⟨rfl, rfl⟩ := List.cons.inj hstates
    intro u hu p hp
    rw [List.mem_singleton.mp hu] at hp
    exact .inl hp
  | next hrun hstep ih =>
    obtain ⟨rfl, rfl⟩ := List.cons.inj hstates
    intro u hu p hp
    rcases List.mem_cons.mp hu with rfl | hu
    · exact .inl hp
    · exact Step.accepted hstep (ih rfl u hu p hp)

theorem Step.waiting_of_unserved (hstep : Step r r') (hserved : r'.served = false) :
    r'.waiting = r.waiting ∨ (r.served = false ∧ ∃ p, r'.waiting = r.waiting ++ [p]) := by
  cases hstep with
  | call hcalling hwaiting => exact .inl hwaiting
  | accept p hcalling hwaiting hanswered hnext hsame => exact .inr ⟨hsame ▸ hserved, p, hwaiting⟩
  | answer p hcalling hwaiting hanswered hnext hthere =>
    rw [hthere.2] at hserved
    cases hserved
  | other hcalling hwaiting => exact .inl hwaiting

theorem Step.stays_unserved (hstep : Step r r') (hleft : r.served = false) :
    r'.served = false := by
  cases hstep with
  | call hcalling hwaiting hanswered hnext hserved => rw [hserved, hleft]
  | accept q hcalling hwaiting hanswered hnext hserved => rw [hserved, hleft]
  | answer q hcalling hwaiting hanswered hnext hserved =>
    rw [hserved.1] at hleft
    cases hleft
  | other hcalling hwaiting hanswered hnext hserved =>
    by_contra hthere
    rw [hserved (by simpa using hthere)] at hleft
    cases hleft

theorem Step.stays (hstep : Step r r') (hleft : r.served = false) {p : ℕ} (h : p ∈ r.waiting) :
    r'.served = false ∧ p ∈ r'.waiting := by
  have hleft' := hstep.stays_unserved hleft
  refine ⟨hleft', ?_⟩
  rcases hstep.waiting_of_unserved hleft' with hsame | ⟨-, q, hmore⟩
  · rw [hsame]
    exact h
  · rw [hmore]
    exact List.mem_append_left _ h

theorem run_stays (hrun : system.Run (s :: past)) {u : Requests} (hu : u ∈ s :: past) {p : ℕ}
    (hleft : u.served = false) (h : p ∈ u.waiting) : p ∈ s.waiting := by
  have hboth : s.served = false ∧ p ∈ s.waiting := by
    generalize hstates : s :: past = states at hrun hu
    induction hrun generalizing s past with
    | start hinit =>
      obtain ⟨rfl, rfl⟩ := List.cons.inj hstates
      rw [List.mem_singleton.mp hu] at hleft h
      exact ⟨hleft, h⟩
    | next hrun hstep ih =>
      obtain ⟨rfl, rfl⟩ := List.cons.inj hstates
      rcases List.mem_cons.mp hu with rfl | hu
      · exact ⟨hleft, h⟩
      · obtain ⟨hleft', h'⟩ := ih rfl hu
        exact Step.stays hstep hleft' h'
  exact hboth.2

theorem Strands.waits (h : Strands r r') (hstep : Step r r') :
    r'.served = false ∧ ∃ p, p ∈ r'.waiting := by
  rcases h with ⟨hthere, hleft, hsome⟩ | ⟨hleft, p, hmore⟩
  · refine ⟨hleft, List.exists_mem_of_ne_nil _ ?_⟩
    rcases hstep.waiting_of_unserved hleft with hsame | ⟨hgone, -⟩
    · rw [hsame]
      exact hsome
    · rw [hthere] at hgone
      cases hgone
  · exact ⟨hstep.stays_unserved hleft, p, by simp [hmore]⟩

/-- When the server has left, every request accepted so far has been answered if and only if
nobody was left behind. -/
theorem answered_iff (hrun : system.Run (s :: past)) (hleft : s.served = false) :
    (∀ u ∈ s :: past, ∀ p ∈ u.waiting, p ∈ s.answered) ↔
      ∀ r r', [r', r] <:+: s :: past → ¬Strands r r' := by
  constructor
  · intro hall r r' hst hstrands
    obtain ⟨hserved, p, hp⟩ := hstrands.waits (hrun.step_of_infix hst)
    have hmem : r' ∈ s :: past := hst.mem List.mem_cons_self
    have hwaits := run_stays hrun hmem hserved hp
    have hnodup := (run_distinct hrun s List.mem_cons_self).nodup.of_append_right
    exact List.disjoint_of_nodup_append hnodup hwaits (hall r' hmem p hp)
  · intro hgood u hu p hp
    have hempty : ∀ r ∈ s :: past, r.served = false → r.waiting = [] := by
      refine hrun.invariant_along ?_ (fun r r' h (hstep : Step r r') hst hserved => ?_) hgood
      · rintro r rfl hserved
        cases hserved
      · rcases hstep.waiting_of_unserved hserved with hsame | hmore
        · rw [hsame]
          cases hbefore : r.served with
          | false => exact h hbefore
          | true =>
            by_contra hsome
            exact hst (.inl ⟨hbefore, hserved, hsome⟩)
        · exact absurd (.inr hmore) hst
    rcases run_accepted hrun u hu p hp with hwaits | hanswered
    · rw [hempty s List.mem_cons_self hleft] at hwaits
      cases hwaits
    · exact hanswered

/-- The same of a system whose steps are such steps. `J` is an invariant to rely on. -/
theorem answered_iff_of_map {σ : Type*} {T : TransitionSystem σ} (f : σ → Requests)
    {J : σ → Prop} (hinit : ∀ s, T.init s → f s = {})
    (hstep : ∀ s t, J s → T.step s t → Step (f s) (f t)) {s : σ} {past : List σ}
    (hrun : T.Run (s :: past)) (hJ : ∀ u ∈ s :: past, J u) (hleft : (f s).served = false) :
    (∀ u ∈ s :: past, ∀ p ∈ (f u).waiting, p ∈ (f s).answered) ↔
      ∀ u v, [v, u] <:+: s :: past → ¬Strands (f u) (f v) := by
  have hmapped : system.Run (f s :: past.map f) := hrun.map f hinit hstep hJ
  rw [← Lists.forall_successive_map (P := fun r r' => ¬Strands r r')]
  refine Iff.trans ?_ (answered_iff hmapped hleft)
  rw [← List.map_cons, List.forall_mem_map]

end Requests
