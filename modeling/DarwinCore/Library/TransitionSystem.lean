import Mathlib.Algebra.Order.BigOperators.Group.Finset
import Mathlib.Data.List.Basic
import Mathlib.Logic.Relation

/-! # Transition systems, their runs and invariants -/

structure TransitionSystem (σ : Type*) where
  init : σ → Prop
  step : σ → σ → Prop

namespace TransitionSystem

variable {σ : Type*} {T : TransitionSystem σ}

/-- The states of a run, the current one first. -/
inductive Run (T : TransitionSystem σ) : List σ → Prop where
  | start {s} (h : T.init s) : Run T [s]
  | next {s t past} (h : Run T (s :: past)) (hstep : T.step s t) : Run T (t :: s :: past)

/-- What holds at the start and is kept by every step from a good state holds throughout a
run through good states. -/
theorem Run.invariant_of {I Good : σ → Prop} (hinit : ∀ s, T.init s → I s)
    (hstep : ∀ s t, I s → Good s → T.step s t → I t) {states : List σ} (h : T.Run states)
    (hgood : ∀ s ∈ states, Good s) : ∀ s ∈ states, I s := by
  induction h with
  | start h => simpa using hinit _ h
  | @next s t past hrun hst ih =>
    have hpast := ih fun x hx => hgood x (List.mem_cons_of_mem _ hx)
    have hs : I s := hpast s List.mem_cons_self
    have ht := hstep s t hs (hgood s (List.mem_cons_of_mem _ List.mem_cons_self)) hst
    exact List.forall_mem_cons.mpr ⟨ht, hpast⟩

/-- What holds at the start and is kept by every step holds throughout every run. -/
theorem Run.invariant {I : σ → Prop} (hinit : ∀ s, T.init s → I s)
    (hstep : ∀ s t, I s → T.step s t → I t) {states : List σ} (h : T.Run states) :
    ∀ s ∈ states, I s :=
  h.invariant_of hinit (fun s t hs (_ : True) => hstep s t hs) fun _ _ => trivial

/-- A map under which every step is a step of `U` takes runs to runs of `U`. `J` is an invariant
to rely on. -/
theorem Run.map {τ : Type*} {U : TransitionSystem τ} (f : σ → τ) {J : σ → Prop}
    (hinit : ∀ s, T.init s → U.init (f s))
    (hstep : ∀ s t, J s → T.step s t → U.step (f s) (f t)) {states : List σ} (h : T.Run states)
    (hJ : ∀ s ∈ states, J s) : U.Run (states.map f) := by
  induction h with
  | start h => exact .start (hinit _ h)
  | @next s t past hrun hst ih =>
    have hpast := ih fun x hx => hJ x (List.mem_cons_of_mem _ hx)
    have hs : J s := hJ s (List.mem_cons_of_mem _ List.mem_cons_self)
    exact hpast.next (hstep s t hs hst)

/-! ## Successive states -/

theorem Run.step_of_infix {states : List σ} (h : T.Run states) {s t : σ}
    (hst : [t, s] <:+: states) : T.step s t := by
  induction h with
  | start h =>
    have hle := hst.length_le
    simp at hle
  | @next s' t' past hrun hstep ih =>
    rcases List.infix_cons_iff.mp hst with hprefix | hlater
    · obtain ⟨ht, hrest⟩ := List.cons_prefix_cons.mp hprefix
      obtain ⟨hs, -⟩ := List.cons_prefix_cons.mp hrest
      rw [ht, hs]
      exact hstep
    · exact ih hlater

/-- A run leads from any of its states to any later one, through the states between. -/
theorem Run.path {states : List σ} (h : T.Run states) {s t : σ} {mid : List σ}
    (hpath : t :: mid ++ [s] <:+: states) {R : σ → σ → Prop}
    (hstep : ∀ u v, u = s ∨ u ∈ t :: mid → v ∈ t :: mid → u ∈ states → T.step u v → R u v) :
    Relation.ReflTransGen R s t := by
  induction mid generalizing t with
  | nil =>
    have hs : s ∈ states := hpath.mem (by simp)
    exact .single (hstep s t (.inl rfl) (by simp) hs (h.step_of_infix hpath))
  | cons v mid ih =>
    have hlast : [t, v] <:+: t :: v :: mid ++ [s] := (List.prefix_append [t, v] _).isInfix
    have hv : v ∈ states := hpath.mem (by simp)
    refine (ih ((List.infix_cons List.infix_rfl).trans hpath) fun u w hu hw => ?_).tail ?_
    · exact hstep u w (hu.imp_right (List.mem_cons_of_mem t)) (List.mem_cons_of_mem t hw)
    · exact hstep v t (by simp) (by simp) hv (h.step_of_infix (hlast.trans hpath))

/-- What holds at the start and is kept by every good step holds throughout a run of good
steps. -/
theorem Run.invariant_along {I : σ → Prop} {Good : σ → σ → Prop} (hinit : ∀ s, T.init s → I s)
    (hstep : ∀ s t, I s → T.step s t → Good s t → I t) {states : List σ} (h : T.Run states)
    (hgood : ∀ s t, [t, s] <:+: states → Good s t) : ∀ s ∈ states, I s := by
  induction h with
  | start h => simpa using hinit _ h
  | @next s t past hrun hst ih =>
    have hpast := ih fun s' t' hlater => hgood s' t' (List.infix_cons hlater)
    have hlast : Good s t := hgood s t (List.prefix_append [t, s] past).isInfix
    have ht := hstep s t (hpast s List.mem_cons_self) hst hlast
    exact List.forall_mem_cons.mpr ⟨ht, hpast⟩

/-- What holds at the start, is kept by every good step and broken by every other one holds
throughout exactly the runs of good steps. `J` is an invariant to rely on. -/
theorem Run.invariant_iff_along {I J : σ → Prop} {Good : σ → σ → Prop}
    (hinit : ∀ s, T.init s → I s) (hgood : ∀ s t, J s → I s → T.step s t → Good s t → I t)
    (hbad : ∀ s t, J s → I s → T.step s t → I t → Good s t) {states : List σ} (h : T.Run states)
    (hJ : ∀ s ∈ states, J s) :
    (∀ s ∈ states, I s) ↔ ∀ s t, [t, s] <:+: states → Good s t := by
  have hmem {s t : σ} (hst : [t, s] <:+: states) : s ∈ states ∧ t ∈ states :=
    ⟨hst.mem (by simp), hst.mem (by simp)⟩
  refine ⟨fun hI s t hst => ?_, fun hsteps => ?_⟩
  · obtain ⟨hs, ht⟩ := hmem hst
    exact hbad s t (hJ s hs) (hI s hs) (h.step_of_infix hst) (hI t ht)
  · have hboth : ∀ s t, [t, s] <:+: states → J s ∧ Good s t :=
      fun s t hst => ⟨hJ s (hmem hst).1, hsteps s t hst⟩
    exact h.invariant_along hinit (fun s t hs hst hst' => hgood s t hst'.1 hs hst hst'.2) hboth

/-- The same where the invariant is more than what is looked at: a step that is not good breaks
what is looked at. -/
theorem Run.shown_iff_along {I P : σ → Prop} {Good : σ → σ → Prop} (hinit : ∀ s, T.init s → I s)
    (hshown : ∀ s, I s → P s) (hgood : ∀ s t, I s → T.step s t → Good s t → I t)
    (hbad : ∀ s t, I s → T.step s t → P t → Good s t) {states : List σ} (h : T.Run states) :
    (∀ s ∈ states, P s) ↔ ∀ s t, [t, s] <:+: states → Good s t := by
  constructor
  · intro hP
    have hpast {s t : σ} (hst : [t, s] <:+: states) : P t := hP t (hst.mem (by simp))
    have hI := h.invariant_along hinit
      (fun s t hs hst ht => hgood s t hs hst (hbad s t hs hst ht)) fun s t => hpast
    intro s t hst
    exact hbad s t (hI s (hst.mem (by simp))) (h.step_of_infix hst) (hpast hst)
  · intro hsteps s hs
    exact hshown s (h.invariant_along hinit hgood hsteps s hs)

/-- What holds of the start and is kept by every step, of each state and those before it. -/
theorem Run.invariant_past {I : σ → List σ → Prop} (hinit : ∀ s, T.init s → I s [])
    (hstep : ∀ s t past, I s past → T.step s t → I t (s :: past)) {states : List σ}
    (h : T.Run states) : ∀ s past, s :: past <:+ states → I s past := by
  induction h with
  | @start s' h =>
    intro s past hsuffix
    obtain ⟨rfl, rfl⟩ : s = s' ∧ past = [] := by simpa [List.suffix_cons_iff] using hsuffix
    exact hinit s h
  | @next s' t past' hrun hst ih =>
    intro s past hsuffix
    rcases List.suffix_cons_iff.mp hsuffix with heq | hearlier
    · obtain ⟨rfl, rfl⟩ := List.cons_eq_cons.mp heq
      exact hstep s' s past' (ih s' past' List.suffix_rfl) hst
    · exact ih s past hearlier

/-- Where each step adds at most one entry to a log, each entry has been added by a step. -/
theorem Run.logged {ε : Type*} (log : σ → List ε) (hinit : ∀ s, T.init s → log s = [])
    (hstep : ∀ s t, T.step s t → log t = log s ∨ ∃ e, log t = e :: log s) {states : List σ}
    (h : T.Run states) : ∀ s ∈ states, ∀ e ∈ log s, ∃ u t, [t, u] <:+: states ∧
      log t = e :: log u := by
  induction h with
  | @start s h =>
    intro s' hs e he
    rw [List.mem_singleton.mp hs, hinit s h] at he
    cases he
  | @next s t past hrun hst ih =>
    have hpast : ∀ s' ∈ s :: past, ∀ e ∈ log s', ∃ u v, [v, u] <:+: t :: s :: past ∧
        log v = e :: log u := fun s' hs e he => by
      obtain ⟨u, v, huv, hlog⟩ := ih s' hs e he
      exact ⟨u, v, List.infix_cons huv, hlog⟩
    refine List.forall_mem_cons.mpr ⟨fun e he => ?_, hpast⟩
    rcases hstep s t hst with hsame | ⟨e', hnew⟩
    · rw [hsame] at he
      exact hpast s List.mem_cons_self e he
    · rw [hnew] at he
      rcases List.mem_cons.mp he with rfl | hlater
      · exact ⟨s, t, (List.prefix_append [t, s] past).isInfix, hnew⟩
      · exact hpast s List.mem_cons_self e hlater

/-! ## Work that is left -/

/-- Of finitely many threads, each step lowers the work that one has left and leaves the others
theirs: it does not go on forever. -/
theorem acc_of_work {ι : Type*} {R : σ → σ → Prop} {work : σ → ι → ℕ}
    (hstep : ∀ s t, R s t → ∃ i, work t i < work s i ∧ ∀ j, j ≠ i → work t j = work s j)
    {active : Finset ι} {s : σ} (hactive : ∀ i, i ∉ active → work s i = 0) :
    Acc (fun t s => R s t) s := by
  generalize hsum : ∑ i ∈ active, work s i = n
  induction n using Nat.strong_induction_on generalizing s with
  | _ n ih =>
    refine .intro s fun t hst => ?_
    obtain ⟨i, hlt, hothers⟩ := hstep s t hst
    have hi : i ∈ active := by
      by_contra hi
      rw [hactive i hi] at hlt
      exact Nat.not_lt_zero _ hlt
    have hle : ∀ j, work t j ≤ work s j := fun j => by
      by_cases hji : j = i
      · rw [hji]
        exact Nat.le_of_lt hlt
      · exact Nat.le_of_eq (hothers j hji)
    have hless : ∑ j ∈ active, work t j < n :=
      hsum ▸ Finset.sum_lt_sum (fun j _ => hle j) ⟨i, hi, hlt⟩
    exact ih _ hless (fun j hj => Nat.eq_zero_of_le_zero (hactive j hj ▸ hle j)) rfl

/-! ## The turns of a server -/

section Service

variable {Others Server Hit : σ → σ → Prop} {s : σ}

/-- Steps from `s` on, none of which is a hit. So many of them are turns of the server. -/
inductive Turns (Others Server Hit : σ → σ → Prop) (s : σ) : ℕ → σ → Prop where
  | refl : Turns Others Server Hit s 0 s
  | others {n t u} (h : Turns Others Server Hit s n t) (hstep : Others t u) (hmiss : ¬Hit t u) :
      Turns Others Server Hit s n u
  | server {n t u} (h : Turns Others Server Hit s n t) (hstep : Server t u) (hmiss : ¬Hit t u) :
      Turns Others Server Hit s (n + 1) u

/-- The server hits after a bounded number of its turns, whatever the others do meanwhile: until
then it can always take a turn. -/
def Served (Others Server Hit : σ → σ → Prop) (s : σ) : Prop :=
  ∃ bound, ∀ n t, Turns Others Server Hit s n t → n < bound ∧ ∃ u, Server t u

/-- A number of turns that are left, which the others do not raise and each turn lowers. -/
theorem served_of_within (Within : ℕ → σ → Prop) {r : ℕ} (hs : Within r s)
    (hothers : ∀ r t u, Within r t → Others t u → ¬Hit t u → ∃ r' ≤ r, Within r' u)
    (hserver : ∀ r t u, Within r t → Server t u → ¬Hit t u → ∃ r' < r, Within r' u)
    (hcan : ∀ r t, Within r t → ∃ u, Server t u) : Served Others Server Hit s := by
  have hleft (n : ℕ) (t : σ) (h : Turns Others Server Hit s n t) :
      ∃ r', n + r' ≤ r ∧ Within r' t := by
    induction h with
    | refl => exact ⟨r, by omega, hs⟩
    | others h hstep hmiss ih =>
      obtain ⟨r', hle, hwithin⟩ := ih
      obtain ⟨r'', hless, hnext⟩ := hothers r' _ _ hwithin hstep hmiss
      exact ⟨r'', by omega, hnext⟩
    | server h hstep hmiss ih =>
      obtain ⟨r', hle, hwithin⟩ := ih
      obtain ⟨r'', hless, hnext⟩ := hserver r' _ _ hwithin hstep hmiss
      exact ⟨r'', by omega, hnext⟩
  refine ⟨r + 1, fun n t h => ?_⟩
  obtain ⟨r', hle, hwithin⟩ := hleft n t h
  exact ⟨by omega, hcan r' t hwithin⟩

end Service

/-! ## Runs of good steps -/

def Leads (T : TransitionSystem σ) (Good : σ → σ → Prop) (s : σ) : Prop :=
  ∃ past, T.Run (s :: past) ∧ ∀ u v, [v, u] <:+: s :: past → Good u v

section Leads

variable {Good : σ → σ → Prop} {s t : σ}

theorem Leads.start (h : T.init s) : T.Leads Good s := by
  refine ⟨[], .start h, fun u v huv => ?_⟩
  have hle := huv.length_le
  simp at hle

theorem successive_cons {past : List σ} (h : ∀ u v, [v, u] <:+: s :: past → Good u v)
    (hgood : Good s t) : ∀ u v, [v, u] <:+: t :: s :: past → Good u v := by
  intro u v huv
  rcases List.infix_cons_iff.mp huv with hfirst | hlater
  · obtain ⟨rfl, hrest⟩ := List.cons_prefix_cons.mp hfirst
    obtain ⟨rfl, -⟩ := List.cons_prefix_cons.mp hrest
    exact hgood
  · exact h u v hlater

theorem Leads.next (h : T.Leads Good s) (hstep : T.step s t) (hgood : Good s t) :
    T.Leads Good t := by
  obtain ⟨past, hrun, hall⟩ := h
  exact ⟨s :: past, hrun.next hstep, successive_cons hall hgood⟩

/-- A run of good steps leads to `s`, and has come past what is to be `seen`. -/
def Passes (T : TransitionSystem σ) (Good : σ → σ → Prop) (seen : σ → Prop) (s : σ) : Prop :=
  ∃ past, T.Run (s :: past) ∧ (∀ u v, [v, u] <:+: s :: past → Good u v) ∧ ∃ u ∈ s :: past, seen u

theorem Leads.passes {seen : σ → Prop} (h : T.Leads Good s) (hs : seen s) :
    T.Passes Good seen s := by
  obtain ⟨past, hrun, hall⟩ := h
  exact ⟨past, hrun, hall, s, List.mem_cons_self, hs⟩

theorem Passes.next {seen : σ → Prop} (h : T.Passes Good seen s) (hstep : T.step s t)
    (hgood : Good s t) : T.Passes Good seen t := by
  obtain ⟨past, hrun, hall, u, hu, hseen⟩ := h
  exact ⟨s :: past, hrun.next hstep, successive_cons hall hgood, u, List.mem_cons_of_mem t hu,
    hseen⟩

end Leads

/-! ## Auxiliary variables -/

/-- The system with a variable that only records: each step updates it. -/
def withAuxiliary {γ : Type*} (T : TransitionSystem σ) (initial : γ) (update : σ → σ → γ → γ) :
    TransitionSystem (σ × γ) where
  init x := T.init x.1 ∧ x.2 = initial
  step x y := T.step x.1 y.1 ∧ y.2 = update x.1 y.1 x.2

section Auxiliary

variable {γ : Type*} {initial : γ} {update : σ → σ → γ → γ}

theorem Run.forget {states : List (σ × γ)} (h : (T.withAuxiliary initial update).Run states) :
    T.Run (states.map Prod.fst) := by
  refine h.map Prod.fst (J := fun _ => True) ?_ ?_ fun _ _ => trivial
  · intro x hinit
    exact hinit.1
  · intro x y _ hstep
    exact hstep.1

theorem Run.record {states : List σ} (h : T.Run states) :
    ∃ recorded, (T.withAuxiliary initial update).Run recorded ∧ recorded.map Prod.fst = states := by
  induction h with
  | @start s h => exact ⟨[(s, initial)], .start ⟨h, rfl⟩, rfl⟩
  | @next s t past hrun hstep ih =>
    obtain ⟨recorded, hrecorded, hmap⟩ := ih
    obtain ⟨x, rest, rfl, rfl, hrest⟩ := List.map_eq_cons_iff.mp hmap
    refine ⟨(t, update x.1 t x.2) :: x :: rest, hrecorded.next ⟨hstep, rfl⟩, ?_⟩
    rw [List.map_cons, hmap]

theorem Leads.record {Good : σ → σ → Prop} {s : σ} (h : T.Leads Good s) :
    ∃ recorded past, (T.withAuxiliary initial update).Run ((s, recorded) :: past) ∧
      ∀ x y, [y, x] <:+: (s, recorded) :: past → Good x.1 y.1 := by
  obtain ⟨past, hrun, hall⟩ := h
  obtain ⟨states, hstates, hmap⟩ : ∃ states, (T.withAuxiliary initial update).Run states ∧
      states.map Prod.fst = s :: past := hrun.record
  obtain ⟨⟨s', recorded⟩, rest, rfl, hs, hrest⟩ := List.map_eq_cons_iff.mp hmap
  obtain rfl : s' = s := hs
  refine ⟨recorded, rest, hstates, fun x y hxy => hall x.1 y.1 ?_⟩
  exact hmap ▸ hxy.map Prod.fst

theorem Run.forget_invariant {I : σ → Prop} (hI : ∀ states, T.Run states → ∀ s ∈ states, I s)
    {states : List (σ × γ)} (h : (T.withAuxiliary initial update).Run states) :
    ∀ x ∈ states, I x.1 := by
  intro x hx
  exact hI _ h.forget x.1 (List.mem_map_of_mem hx)

end Auxiliary

/-! ## Ghost state -/

/-- The system with a state that only observes: a step may change it in more than one way. -/
def withGhost {γ : Type*} (T : TransitionSystem σ) (initial : γ) (observe : σ × γ → σ × γ → Prop) :
    TransitionSystem (σ × γ) where
  init x := T.init x.1 ∧ x.2 = initial
  step x y := T.step x.1 y.1 ∧ observe x y

/-- If every step can be observed, every run is one with the ghost state. `I` is an invariant to
rely on. -/
theorem Run.observed {γ : Type*} {initial : γ} {observe : σ × γ → σ × γ → Prop} {I : σ × γ → Prop}
    (hinit : ∀ s, T.init s → I (s, initial))
    (hstep : ∀ x y, I x → (T.withGhost initial observe).step x y → I y)
    (hobserve : ∀ s t c, I (s, c) → T.step s t → ∃ c', observe (s, c) (t, c')) {states : List σ}
    (h : T.Run states) :
    ∃ observed, (T.withGhost initial observe).Run observed ∧ observed.map Prod.fst = states ∧
      ∀ x ∈ observed, I x := by
  induction h with
  | @start s h => exact ⟨[(s, initial)], .start ⟨h, rfl⟩, rfl, by simpa using hinit s h⟩
  | @next s t past hrun hst ih =>
    obtain ⟨observed, hobserved, hmap, hI⟩ := ih
    obtain ⟨⟨s', c⟩, rest, rfl, rfl, hrest⟩ := List.map_eq_cons_iff.mp hmap
    have hs := hI _ List.mem_cons_self
    obtain ⟨c', hc⟩ := hobserve _ t c hs hst
    have hxy : (T.withGhost initial observe).step (s', c) (t, c') := ⟨hst, hc⟩
    refine ⟨(t, c') :: (s', c) :: rest, hobserved.next hxy, ?_, ?_⟩
    · rw [List.map_cons, hmap]
    · exact List.forall_mem_cons.mpr ⟨hstep _ _ hs hxy, hI⟩

end TransitionSystem

/-! ## Calls one after another

An object is given by what a call returns and the state it leaves. -/

namespace Calls

variable {σ τ γ ρ : Type*}

/-- What the calls return, and the state after them. -/
def run (step : σ → γ → ρ × σ) : σ → List γ → List ρ × σ
  | s, [] => ([], s)
  | s, call :: calls =>
      ((step s call).1 :: (run step (step s call).2 calls).1, (run step (step s call).2 calls).2)

/-- Every call is allowed in the state in which it is made. -/
def Permitted (step : σ → γ → ρ × σ) (Allowed : σ → γ → Prop) : σ → List γ → Prop
  | _, [] => True
  | s, call :: calls => Allowed s call ∧ Permitted step Allowed (step s call).2 calls

variable {step : σ → γ → ρ × σ} {spec : τ → γ → ρ × τ} {Allowed : τ → γ → Prop}
  {R : σ → τ → Prop} {s : σ} {t : τ} {calls : List γ}

theorem permitted_of_forall {P : γ → Prop} (h : ∀ call ∈ calls, P call) :
    Permitted spec (fun _ => P) t calls := by
  induction calls generalizing t with
  | nil => trivial
  | cons call calls ih =>
    rw [List.forall_mem_cons] at h
    exact ⟨h.1, ih h.2⟩

theorem Permitted.of_prefix {Allowed : σ → γ → Prop} {before : List γ}
    (h : Permitted step Allowed s calls) (hbefore : before <+: calls) :
    Permitted step Allowed s before := by
  induction before generalizing s calls with
  | nil => trivial
  | cons call before ih =>
    obtain ⟨rest, rfl⟩ := hbefore
    exact ⟨h.1, ih h.2 (List.prefix_append before rest)⟩

theorem Permitted.and {Allowed Allowed' : σ → γ → Prop} (h : Permitted step Allowed s calls)
    (h' : Permitted step Allowed' s calls) :
    Permitted step (fun s call => Allowed s call ∧ Allowed' s call) s calls := by
  induction calls generalizing s with
  | nil => trivial
  | cons call calls ih => exact ⟨⟨h.1, h'.1⟩, ih h.2 h'.2⟩

theorem Permitted.last {Allowed : σ → γ → Prop} {before : List γ} {call : γ}
    (h : Permitted step Allowed s (before ++ [call])) : Allowed (run step s before).2 call := by
  induction before generalizing s with
  | nil => exact h.1
  | cons first before ih => exact ih h.2

theorem run_concat (s : σ) (calls : List γ) (call : γ) :
    (run step s (calls ++ [call])).2 = (step (run step s calls).2 call).2 := by
  induction calls generalizing s with
  | nil => rfl
  | cons first calls ih => exact ih (step s first).2

/-- If every allowed call returns the same and keeps the relation, so do any number of them. -/
theorem run_refines
    (hstep : ∀ s t call, R s t → Allowed t call →
      (step s call).1 = (spec t call).1 ∧ R (step s call).2 (spec t call).2)
    (h : R s t) (hcalls : Permitted spec Allowed t calls) :
    (run step s calls).1 = (run spec t calls).1 ∧ R (run step s calls).2 (run spec t calls).2 := by
  induction calls generalizing s t with
  | nil => exact ⟨rfl, h⟩
  | cons call calls ih =>
    obtain ⟨hreturn, hrel⟩ := hstep s t call h hcalls.1
    obtain ⟨hreturns, hlast⟩ := ih hrel hcalls.2
    refine ⟨?_, hlast⟩
    rw [run, run, hreturn, hreturns]

theorem run_invariant {I : σ → Prop} {Allowed : σ → γ → Prop}
    (hstep : ∀ s call, I s → Allowed s call → I (step s call).2) (h : I s)
    (hcalls : Permitted step Allowed s calls) : I (run step s calls).2 := by
  induction calls generalizing s with
  | nil => exact h
  | cons call calls ih => exact ih (hstep s call h hcalls.1) hcalls.2

end Calls
