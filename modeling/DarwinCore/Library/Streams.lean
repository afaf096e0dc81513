import DarwinCore.Library.History
import DarwinCore.Library.TransitionSystem

/-! # Streams

One direction of a connection, from its sender to its receiver. A system whose history tells
what it has read is wired to the streams that it reads from; the senders act at any time. -/

namespace Streams

open History

variable {σ ε ι α : Type*}

/-- What the sender has written, what of it is unread, and whether the sender has closed its
side. -/
structure Stream (α : Type*) where
  written : List α := []
  unread : List α := []
  closed : Bool := false

/-- The receiver reads `read`, while the sender may write and close its side. -/
def Stream.Flows (read : List α) (stream stream' : Stream α) : Prop :=
  ∃ data, stream'.written = stream.written ++ data ∧
    stream.unread ++ data = read ++ stream'.unread ∧
    (stream.closed = true → data = [] ∧ stream'.closed = true)

theorem Stream.Flows.written_eq {read got : List α} {stream stream' : Stream α}
    (h : stream.Flows read stream') (hgot : stream.written = got ++ stream.unread) :
    stream'.written = got ++ read ++ stream'.unread := by
  obtain ⟨data, hwritten, hread, -⟩ := h
  rw [hwritten, hgot, List.append_assoc, hread, List.append_assoc]

/-- Nothing changes once the sender has closed its side and nothing is read. -/
theorem Stream.Flows.still {stream stream' : Stream α} (h : stream.Flows [] stream')
    (hclosed : stream.closed = true) :
    stream'.written = stream.written ∧ stream'.unread = stream.unread ∧
      stream'.closed = true := by
  obtain ⟨data, hwritten, hread, hend⟩ := h
  obtain ⟨rfl, hclosed'⟩ := hend hclosed
  rw [List.append_nil] at hwritten hread
  exact ⟨hwritten, hread.symm, hclosed'⟩

/-! ## Wiring -/

structure Wiring (σ ε ι α : Type*) where
  history : σ → List ε
  /-- With this entry the stream is a new one. -/
  opens : ι → ε → Bool
  reads : ι → ε → List α
  /-- In this step the receiver is told that the stream has ended. -/
  ends : σ → σ → ι → Prop

namespace Wiring

variable {W : Wiring σ ε ι α} {T : TransitionSystem σ}

/-- What has been read from the stream since it was new. -/
def got (W : Wiring σ ε ι α) (i : ι) (s : σ) : List α :=
  collect (W.reads i) (since (W.opens i) (W.history s))

inductive Step (W : Wiring σ ε ι α) (step : σ → σ → Prop) :
    σ × (ι → Stream α) → σ × (ι → Stream α) → Prop where
  | senders {s : σ} {streams streams' : ι → Stream α}
      (h : ∀ i, (streams i).Flows [] (streams' i)) : Step W step (s, streams) (s, streams')
  /-- The end of a stream is told only when it is reached. -/
  | system {s t : σ} {streams streams' : ι → Stream α} (extra : List ε) (h : step s t)
      (hhistory : W.history t = extra ++ W.history s)
      (hflows : ∀ i, (if extra.any (W.opens i) then {} else streams i).Flows
        (collect (W.reads i) (since (W.opens i) extra)) (streams' i))
      (hends : ∀ i, W.ends s t i → (streams' i).unread = [] ∧ (streams' i).closed = true) :
      Step W step (s, streams) (t, streams')

section Step

variable {step : σ → σ → Prop} {x y : σ × (ι → Stream α)} {i : ι}

theorem Step.fst (h : W.Step step x y) : y.1 = x.1 ∨ step x.1 y.1 := by
  cases h with
  | senders => exact .inl rfl
  | system extra h => exact .inr h

theorem Step.flows (h : W.Step step x y) (hquiet : Extends
    (fun e => W.opens i e = false ∧ W.reads i e = []) (W.history x.1) (W.history y.1)) :
    (x.2 i).Flows [] (y.2 i) := by
  cases h with
  | senders hflows => exact hflows i
  | @system s t streams streams' extra h hhistory hflows =>
    obtain ⟨extra', hextra, hall⟩ := hquiet
    obtain rfl : extra = extra' := List.append_cancel_right (hhistory.symm.trans hextra)
    have hflow := hflows i
    have hunmarked : extra.any (W.opens i) = false :=
      List.any_eq_false.mpr fun e he => by simp [(hall e he).1]
    have hnone : collect (W.reads i) extra = [] := collect_eq_nil fun e he => (hall e he).2
    rw [hunmarked, since_eq_self hunmarked, hnone] at hflow
    exact hflow

theorem Step.ended (h : W.Step step x y) (hmoved : x.1 ≠ y.1) (hends : W.ends x.1 y.1 i) :
    (y.2 i).unread = [] ∧ (y.2 i).closed = true := by
  cases h with
  | senders => exact absurd rfl hmoved
  | system extra h hhistory hflows hall => exact hall i hends

end Step

/-- The system with the streams that it reads from. -/
def wired (W : Wiring σ ε ι α) (T : TransitionSystem σ) :
    TransitionSystem (σ × (ι → Stream α)) where
  init x := T.init x.1 ∧ ∀ i, x.2 i = {}
  step := W.Step T.step

/-- The system takes a step on its own while nobody has written anything. -/
theorem run_silent {s t : σ} {past : List (σ × (ι → Stream α))}
    (h : (W.wired T).Run ((s, fun _ => {}) :: past)) (hstep : T.step s t)
    (hgrows : Extends (fun e => ∀ i, W.reads i e = []) (W.history s) (W.history t))
    (hends : ∀ i, ¬W.ends s t i) :
    (W.wired T).Run ((t, fun _ => {}) :: (s, fun _ => {}) :: past) := by
  obtain ⟨extra, hhistory, hnone⟩ := hgrows
  have hread (i : ι) : collect (W.reads i) (since (W.opens i) extra) = [] :=
    collect_eq_nil fun e he => hnone e ((List.takeWhile_sublist _).mem he) i
  refine h.next (Step.system extra hstep hhistory (fun i => ?_) fun i hi => absurd hi (hends i))
  rw [hread, ite_self]
  exact ⟨[], rfl, rfl, nofun⟩

/-- A state of the wired system is reached by the system alone, through the same states. -/
theorem run_fst {states : List (σ × (ι → Stream α))} (h : (W.wired T).Run states) :
    ∀ x ∈ states, ∃ past, T.Run (x.1 :: past) ∧ ∀ s ∈ x.1 :: past, s ∈ states.map Prod.fst := by
  induction h with
  | @start x hinit =>
    intro y hy
    obtain rfl := List.mem_singleton.mp hy
    exact ⟨[], .start hinit.1, by simp⟩
  | @next x y past hrun hstep ih =>
    have hlater {s : σ} (hs : ∃ states', T.Run (s :: states') ∧
        ∀ u ∈ s :: states', u ∈ (x :: past).map Prod.fst) :
        ∃ states', T.Run (s :: states') ∧
          ∀ u ∈ s :: states', u ∈ (y :: x :: past).map Prod.fst := by
      obtain ⟨states', hrun', hmem⟩ := hs
      exact ⟨states', hrun', fun u hu => List.mem_cons_of_mem _ (hmem u hu)⟩
    have hx := ih x List.mem_cons_self
    intro z hz
    rcases List.mem_cons.mp hz with rfl | hz
    · cases hstep with
      | senders => exact hlater hx
      | @system s t streams streams' extra h =>
        obtain ⟨states', hrun', hmem⟩ := hx
        refine ⟨s :: states', hrun'.next h, fun u hu => ?_⟩
        rcases List.mem_cons.mp hu with rfl | hu
        · exact List.mem_cons_self
        · exact List.mem_cons_of_mem _ (hmem u hu)
    · exact hlater (ih z hz)

/-- Every byte written has been read or is unread. -/
theorem conserved (hinit : ∀ s, T.init s → W.history s = [])
    {states : List (σ × (ι → Stream α))} (h : (W.wired T).Run states) :
    ∀ x ∈ states, ∀ i, (x.2 i).written = W.got i x.1 ++ (x.2 i).unread := by
  refine h.invariant ?_ ?_
  · rintro ⟨s, streams⟩ ⟨hs, hstreams⟩ i
    rw [got, hinit s hs, hstreams]
    rfl
  · intro x y hx hstep i
    cases hstep with
    | senders hflows =>
      have hgot := (hflows i).written_eq (hx i)
      rw [List.append_nil] at hgot
      exact hgot
    | @system s t streams streams' extra h hhistory hflows =>
      have hflow := hflows i
      dsimp only
      rw [got, hhistory]
      cases hnew : extra.any (W.opens i) with
      | false =>
        rw [hnew] at hflow
        rw [since_append_unmarked hnew, collect_append]
        rw [since_eq_self hnew] at hflow
        exact hflow.written_eq (hx i)
      | true =>
        rw [hnew] at hflow
        rw [since_append_marked hnew]
        exact hflow.written_eq (List.nil_append _).symm

end Wiring

/-! ## Keeping and losing -/

/-- Of `all`, some is kept, in its order, and the rest is lost. -/
structure Shares (all kept lost : List α) : Prop where
  sublist : kept.Sublist all
  length : kept.length + lost.length = all.length

namespace Shares

variable {all kept lost : List α}

theorem nil : Shares ([] : List α) [] [] :=
  ⟨.slnil, rfl⟩

theorem keep (h : Shares all kept lost) (data : List α) :
    Shares (all ++ data) (kept ++ data) lost := by
  refine ⟨h.sublist.append_right data, ?_⟩
  rw [List.length_append, List.length_append, ← h.length]
  omega

theorem lose (h : Shares all kept lost) (data : List α) :
    Shares (all ++ data) kept (lost ++ data) := by
  refine ⟨h.sublist.trans (List.sublist_append_left all data), ?_⟩
  rw [List.length_append, List.length_append, ← h.length]
  omega

/-- Everything is kept exactly if nothing is unread and nothing is lost. -/
theorem kept_eq_iff (h : Shares all kept lost) {unread : List α} :
    kept = all ++ unread ↔ unread = [] ∧ lost = [] := by
  have hlength := h.length
  constructor
  · intro hall
    have hlen := congrArg List.length hall
    rw [List.length_append] at hlen
    exact ⟨List.length_eq_zero_iff.mp (by omega), List.length_eq_zero_iff.mp (by omega)⟩
  · rintro ⟨rfl, rfl⟩
    rw [List.append_nil]
    exact h.sublist.eq_of_length hlength

end Shares

end Streams
