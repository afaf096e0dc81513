import Mathlib.Data.List.Basic

/-! # Histories

A history lists what has happened, newest first. It grows at the front, so that what came
after some mark is an initial segment. -/

namespace History

variable {α β : Type*}

/-- The entries after the last one marked by `p`. -/
def since (p : α → Bool) (history : List α) : List α :=
  history.takeWhile (!p ·)

/-- What the entries contribute, oldest first. -/
def collect (f : α → List β) : List α → List β
  | [] => []
  | e :: history => collect f history ++ f e

section Cons

variable {p : α → Bool} {f : α → List β} {e : α} {history : List α}

theorem since_cons_marked (h : p e = true) : since p (e :: history) = [] := by
  simp [since, h]

theorem since_cons_unmarked (h : p e = false) :
    since p (e :: history) = e :: since p history := by
  simp [since, h]

/-- Nothing is contributed by the mark itself nor by anything before it. -/
theorem collect_since_marked (h : p e = true) : collect f (since p (e :: history)) = [] := by
  rw [since_cons_marked h, collect]

theorem collect_since_unmarked (h : p e = false) :
    collect f (since p (e :: history)) = collect f (since p history) ++ f e := by
  rw [since_cons_unmarked h, collect]

end Cons

section Append

variable {p : α → Bool} {f : α → List β} {extra history : List α}

theorem since_eq_self (h : extra.any p = false) : since p extra = extra := by
  induction extra with
  | nil => rfl
  | cons e extra ih =>
    rw [List.any_cons, Bool.or_eq_false_iff] at h
    rw [since_cons_unmarked h.1, ih h.2]

theorem since_append_unmarked (h : extra.any p = false) :
    since p (extra ++ history) = extra ++ since p history := by
  induction extra with
  | nil => rfl
  | cons e extra ih =>
    rw [List.any_cons, Bool.or_eq_false_iff] at h
    rw [List.cons_append, since_cons_unmarked h.1, ih h.2, List.cons_append]

theorem since_append_marked (h : extra.any p = true) :
    since p (extra ++ history) = since p extra := by
  induction extra with
  | nil => cases h
  | cons e extra ih =>
    cases he : p e with
    | true => rw [List.cons_append, since_cons_marked he, since_cons_marked he]
    | false =>
      rw [List.any_cons, he, Bool.false_or] at h
      rw [List.cons_append, since_cons_unmarked he, since_cons_unmarked he, ih h]

theorem collect_eq_nil (h : ∀ e ∈ history, f e = []) : collect f history = [] := by
  induction history with
  | nil => rfl
  | cons e history ih =>
    obtain ⟨he, hrest⟩ := List.forall_mem_cons.mp h
    rw [collect, ih hrest, he, List.append_nil]

theorem collect_append (extra history : List α) :
    collect f (extra ++ history) = collect f history ++ collect f extra := by
  induction extra with
  | nil => rw [List.nil_append, collect, List.append_nil]
  | cons e extra ih => rw [List.cons_append, collect, collect, ih, List.append_assoc]

end Append

/-! ## Growing -/

/-- `history'` is `history` with entries of one kind added. -/
def Extends (P : α → Prop) (history history' : List α) : Prop :=
  ∃ extra, history' = extra ++ history ∧ ∀ e ∈ extra, P e

section Extends

variable {P Q : α → Prop} {history history' history'' : List α}

theorem Extends.of_eq (h : history' = history) : Extends P history history' :=
  ⟨[], h, fun _ he => absurd he List.not_mem_nil⟩

theorem Extends.cons {e : α} (h : history' = e :: history) (he : P e) :
    Extends P history history' :=
  ⟨[e], h, fun _ hmem => List.mem_singleton.mp hmem ▸ he⟩

theorem Extends.trans (h : Extends P history history') (h' : Extends P history' history'') :
    Extends P history history'' := by
  obtain ⟨extra, hlog, hall⟩ := h
  obtain ⟨extra', hlog', hall'⟩ := h'
  refine ⟨extra' ++ extra, by rw [hlog', hlog, List.append_assoc], fun e he => ?_⟩
  rcases List.mem_append.mp he with he | he
  · exact hall' e he
  · exact hall e he

theorem Extends.mono (hPQ : ∀ e, P e → Q e) (h : Extends P history history') :
    Extends Q history history' := by
  obtain ⟨extra, hlog, hall⟩ := h
  exact ⟨extra, hlog, fun e he => hPQ e (hall e he)⟩

theorem Extends.suffix (h : Extends P history history') : history <:+ history' := by
  obtain ⟨extra, hlog, -⟩ := h
  exact ⟨extra, hlog.symm⟩

theorem Extends.collect_since {p : α → Bool} {f : α → List β}
    (hP : ∀ e, P e → p e = false ∧ f e = []) (h : Extends P history history') :
    collect f (since p history') = collect f (since p history) := by
  obtain ⟨extra, rfl, hall⟩ := h
  induction extra with
  | nil => rfl
  | cons e extra ih =>
    obtain ⟨hmark, hnone⟩ := hP e (hall e List.mem_cons_self)
    rw [List.cons_append, collect_since_unmarked hmark, hnone, List.append_nil]
    exact ih fun e he => hall e (List.mem_cons_of_mem _ he)

theorem Extends.filterMap {f : α → Option β} (hf : ∀ e, P e → f e = none)
    (h : Extends P history history') : history'.filterMap f = history.filterMap f := by
  obtain ⟨extra, hlog, hall⟩ := h
  have hnone : extra.filterMap f = [] :=
    List.filterMap_eq_nil_iff.mpr fun e he => hf e (hall e he)
  rw [hlog, List.filterMap_append, hnone, List.nil_append]

end Extends

/-! ## Entries and what was before them -/

theorem forall_suffix_cons {P : α → List α → Prop} {a : α} {history : List α} :
    (∀ e past, e :: past <:+ a :: history → P e past) ↔
      P a history ∧ ∀ e past, e :: past <:+ history → P e past := by
  constructor
  · intro h
    exact ⟨h a history List.suffix_rfl, fun e past hlater => h e past (hlater.trans
      (List.suffix_cons a history))⟩
  · rintro ⟨hhead, hrest⟩ e past hsuffix
    rcases List.suffix_cons_iff.mp hsuffix with heq | hlater
    · obtain ⟨rfl, rfl⟩ := List.cons_eq_cons.mp heq
      exact hhead
    · exact hrest e past hlater

theorem not_suffix_nil {e : α} {past : List α} : ¬e :: past <:+ [] := by
  intro h
  cases List.eq_nil_of_suffix_nil h

/-- There is a marked entry, and all that has happened since is quiet. -/
def Lately (Marked Quiet : α → Prop) (history : List α) : Prop :=
  ∃ newer e older, history = newer ++ e :: older ∧ Marked e ∧ ∀ x ∈ newer, Quiet x

section Lately

variable {Marked Quiet : α → Prop} {e : α} {history : List α}

theorem not_lately_nil : ¬Lately Marked Quiet [] := by
  rintro ⟨newer, e, older, h, -⟩
  cases newer <;> cases h

theorem lately_cons :
    Lately Marked Quiet (e :: history) ↔ Marked e ∨ Quiet e ∧ Lately Marked Quiet history := by
  constructor
  · rintro ⟨newer, x, older, h, hmarked, hquiet⟩
    cases newer with
    | nil =>
      obtain ⟨rfl, rfl⟩ := List.cons_eq_cons.mp h
      exact .inl hmarked
    | cons y newer =>
      obtain ⟨rfl, rfl⟩ := List.cons_eq_cons.mp h
      obtain ⟨hy, hquiet⟩ := List.forall_mem_cons.mp hquiet
      exact .inr ⟨hy, newer, x, older, rfl, hmarked, hquiet⟩
  · rintro (hmarked | ⟨hquiet, newer, x, older, rfl, hmarked, hall⟩)
    · exact ⟨[], e, history, rfl, hmarked, by simp⟩
    · exact ⟨e :: newer, x, older, rfl, hmarked, List.forall_mem_cons.mpr ⟨hquiet, hall⟩⟩

end Lately

end History
