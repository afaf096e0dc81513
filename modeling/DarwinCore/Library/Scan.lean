import Mathlib.Data.List.Basic
import Mathlib.Data.List.Infix
import Mathlib.Data.Nat.Find

/-! # Scanning a list

Loops that look at what is left of a list and go on after as many elements as they have used. -/

namespace Scan

variable {α ι ρ σ : Type*}

/-- One pass of a loop: it leaves the loop, or goes on after `count` elements. -/
inductive Pass (ρ σ : Type*) where
  | leave (result : ρ)
  | advance (count : ℕ) (state : σ)

/-- The loop: a pass is given the next element and those after it. There is no result if the loop
takes `fuel` passes or more. -/
def run (pass : α → List α → σ → Pass ρ σ) (finish : σ → ρ) : ℕ → List α → σ → Option ρ
  | 0, _, _ => none
  | _ + 1, [], state => some (finish state)
  | fuel + 1, x :: rest, state =>
      match pass x rest state with
      | .leave result => some result
      | .advance count state => run pass finish fuel ((x :: rest).drop count) state

variable {pass : α → List α → σ → Pass ρ σ} {finish : σ → ρ} {fuel : ℕ} {state : σ}
  {code : ι → List α} {read : σ → ι → σ}

/-- A pass takes the item `u` from the front of what is left. -/
def Takes (pass : α → List α → σ → Pass ρ σ) (code : ι → List α) (read : σ → ι → σ) (u : ι)
    (rest : List α) : Prop :=
  ∃ x xs, code u = x :: xs ∧
    ∀ state, pass x (xs ++ rest) state = .advance (code u).length (read state u)

theorem run_item {u : ι} {rest : List α} (h : Takes pass code read u rest) :
    run pass finish (fuel + 1) (code u ++ rest) state =
      run pass finish fuel rest (read state u) := by
  obtain ⟨x, xs, hcode, hpass⟩ := h
  have hdrop : (x :: (xs ++ rest)).drop (code u).length = rest := by
    rw [← List.cons_append, ← hcode, List.drop_left]
  conv_lhs => rw [hcode]
  rw [List.cons_append, run, hpass]
  simp only [hdrop]

/-- A loop that takes items which can be told from what follows reads a list of them. -/
theorem run_flatMap {items : List ι} (h : ∀ u ∈ items, ∀ rest, Takes pass code read u rest)
    (hfuel : items.length < fuel) :
    run pass finish fuel (items.flatMap code) state = some (finish (items.foldl read state)) := by
  induction items generalizing fuel state with
  | nil =>
    obtain ⟨fuel, rfl⟩ : ∃ n, fuel = n + 1 := ⟨fuel - 1, by omega⟩
    rfl
  | cons u items ih =>
    obtain ⟨fuel, rfl⟩ : ∃ n, fuel = n + 1 := ⟨fuel - 1, by omega⟩
    rw [List.flatMap_cons, run_item (h u List.mem_cons_self _)]
    exact ih (fun v hv => h v (List.mem_cons_of_mem u hv)) (Nat.lt_of_succ_lt_succ hfuel)

/-- A loop that always takes some item reads every list as items. -/
theorem run_items {P : ι → Prop} (left : List α)
    (h : ∀ x xs, ∃ u rest, P u ∧ code u ++ rest = x :: xs ∧ Takes pass code read u rest) :
    ∃ items : List ι, (∀ u ∈ items, P u) ∧ items.flatMap code = left ∧
      ∀ fuel state, left.length < fuel →
        run pass finish fuel left state = some (finish (items.foldl read state)) := by
  induction hn : left.length using Nat.strongRecOn generalizing left with
  | ind n ih =>
    cases left with
    | nil =>
      refine ⟨[], nofun, rfl, fun fuel state hfuel => ?_⟩
      obtain ⟨fuel, rfl⟩ : ∃ m, fuel = m + 1 := ⟨fuel - 1, by omega⟩
      rfl
    | cons x xs =>
      obtain ⟨u, rest, hu, hsplit, htakes⟩ := h x xs
      have hlength := congrArg List.length hsplit
      obtain ⟨y, ys, hcode, -⟩ := id htakes
      rw [List.length_append, hcode, List.length_cons] at hlength
      obtain ⟨items, hall, hitems, hrun⟩ := ih rest.length (by omega) rest rfl
      refine ⟨u :: items, List.forall_mem_cons.mpr ⟨hu, hall⟩, ?_, fun fuel state hfuel => ?_⟩
      · rw [List.flatMap_cons, hitems, hsplit]
      · obtain ⟨fuel, rfl⟩ : ∃ m, fuel = m + 1 := ⟨fuel - 1, by omega⟩
        rw [← hsplit, run_item htakes]
        exact hrun fuel _ (by omega)

theorem length_le_flatMap {items : List ι} (h : ∀ u ∈ items, code u ≠ []) :
    items.length ≤ (items.flatMap code).length := by
  induction items with
  | nil => exact Nat.zero_le _
  | cons u items ih =>
    have hpos := List.length_pos_iff.mpr (h u List.mem_cons_self)
    have hrest := ih fun v hv => h v (List.mem_cons_of_mem u hv)
    rw [List.flatMap_cons, List.length_append, List.length_cons]
    omega

/-! ## Pieces -/

/-- A loop that stands at `left` with `state` comes to stand at `left'` with `state'`. -/
inductive Reaches (pass : α → List α → σ → Pass ρ σ) : List α → σ → List α → σ → Prop where
  | refl (left : List α) (state : σ) : Reaches pass left state left state
  | pass {x : α} {rest left' : List α} {state state' state'' : σ} {count : ℕ}
      (hpass : pass x rest state = .advance count state')
      (hrest : Reaches pass ((x :: rest).drop count) state' left' state'') :
      Reaches pass (x :: rest) state left' state''

/-- What every pass keeps of what is left holds wherever the loop stands. -/
theorem Reaches.invariant {P : List α → Prop} {left left' : List α} {state' : σ}
    (h : Reaches pass left state left' state')
    (hpass : ∀ x rest state count state', P (x :: rest) →
      pass x rest state = .advance count state' → P ((x :: rest).drop count))
    (hleft : P left) : P left' := by
  induction h with
  | refl => exact hleft
  | pass hstep _ ih => exact ih (hpass _ _ _ _ _ hleft hstep)

/-- A piece has as many elements as its first one asks for. -/
def Piece (size : α → ℕ) (piece : List α) : Prop :=
  ∃ x xs, piece = x :: xs ∧ size x = piece.length

def Cut (size : α → ℕ) (left : List α) : Prop :=
  ∃ pieces : List (List α), pieces.flatten = left ∧ ∀ piece ∈ pieces, Piece size piece

variable {size : α → ℕ} {p q l m : List α}

theorem Piece.eq_of_append_eq (hp : Piece size p) (hq : Piece size q) (h : p ++ l = q ++ m) :
    p = q ∧ l = m := by
  obtain ⟨x, xs, rfl, hx⟩ := hp
  obtain ⟨y, ys, rfl, hy⟩ := hq
  have hhead : x = y := (List.cons.inj h).1
  subst hhead
  exact List.append_inj h (hx.symm.trans hy)

/-- There is one way to cut a list. -/
theorem pieces_unique {ps qs : List (List α)} (hps : ∀ p ∈ ps, Piece size p)
    (hqs : ∀ q ∈ qs, Piece size q) (h : ps.flatten = qs.flatten) : ps = qs := by
  induction ps generalizing qs with
  | nil =>
    cases qs with
    | nil => rfl
    | cons q qs =>
      obtain ⟨y, ys, rfl, -⟩ := hqs q List.mem_cons_self
      simp at h
  | cons p ps ih =>
    cases qs with
    | nil =>
      obtain ⟨x, xs, rfl, -⟩ := hps p List.mem_cons_self
      simp at h
    | cons q qs =>
      rw [List.flatten_cons, List.flatten_cons] at h
      obtain ⟨rfl, hrest⟩ :=
        (hps p List.mem_cons_self).eq_of_append_eq (hqs q List.mem_cons_self) h
      rw [ih (fun p hp => hps p (List.mem_cons_of_mem _ hp))
        (fun q hq => hqs q (List.mem_cons_of_mem _ hq)) hrest]

theorem cut_nil : Cut size [] :=
  ⟨[], rfl, by simp⟩

theorem Cut.cons (hp : Piece size p) (hl : Cut size l) : Cut size (p ++ l) := by
  obtain ⟨pieces, rfl, hpieces⟩ := hl
  exact ⟨p :: pieces, rfl, List.forall_mem_cons.mpr ⟨hp, hpieces⟩⟩

theorem Cut.split {x : α} {xs : List α} (h : Cut size (x :: xs)) :
    0 < size x ∧ size x ≤ (x :: xs).length ∧ Cut size ((x :: xs).drop (size x)) := by
  obtain ⟨pieces, hflat, hpieces⟩ := h
  cases pieces with
  | nil => simp at hflat
  | cons p ps =>
    obtain ⟨hp, hps⟩ := List.forall_mem_cons.mp hpieces
    obtain ⟨y, ys, rfl, hy⟩ := hp
    rw [List.flatten_cons] at hflat
    obtain rfl : y = x := (List.cons.inj hflat).1
    rw [← hflat, hy]
    refine ⟨by simp, by simp, ?_⟩
    rw [List.drop_left]
    exact ⟨ps, rfl, hps⟩

/-- A loop that goes on after at least one element at each pass has a result. `P` holds of what is
left wherever the loop stands. -/
theorem run_spec {P : List α → Prop} {Q : ρ → Prop} (hfinish : ∀ state, Q (finish state))
    (hleave : ∀ x rest state result, P (x :: rest) → pass x rest state = .leave result → Q result)
    (hadvance : ∀ x rest state count state', P (x :: rest) →
      pass x rest state = .advance count state' → 0 < count ∧ P ((x :: rest).drop count))
    {left : List α} (hleft : P left) (hfuel : left.length < fuel) :
    ∃ result, run pass finish fuel left state = some result ∧ Q result := by
  induction fuel generalizing left state with
  | zero => exact absurd hfuel (Nat.not_lt_zero _)
  | succ fuel ih =>
    cases left with
    | nil => exact ⟨_, rfl, hfinish state⟩
    | cons x rest =>
      rw [run]
      cases hcase : pass x rest state with
      | leave result => exact ⟨result, rfl, hleave x rest state result hleft hcase⟩
      | advance count state' =>
        obtain ⟨hpos, hrest⟩ := hadvance x rest state count state' hleft hcase
        rw [List.length_cons] at hfuel
        refine ih hrest ?_
        rw [List.length_drop, List.length_cons]
        omega

theorem foldl_append {β : Type*} (f : ι → List β) (items : List ι) (result : List β) :
    items.foldl (fun result u => result ++ f u) result = result ++ items.flatMap f := by
  induction items generalizing result with
  | nil => rw [List.foldl_nil, List.flatMap_nil, List.append_nil]
  | cons u items ih => rw [List.foldl_cons, ih, List.flatMap_cons, List.append_assoc]

end Scan

/-! ## Cutting a list at a separator

The pieces between the leftmost occurrences of a list of separating elements. -/

namespace Separator

variable {α : Type*} {separator text piece after : List α} {pieces pieces' : List (List α)}

/-- No occurrence of the separator begins in `piece`, if one follows it. -/
def Leftmost (separator piece after : List α) : Prop :=
  ∀ before rest, before ++ separator ++ rest = piece ++ separator ++ after →
    piece.length ≤ before.length

/-- The pieces between consecutive leftmost occurrences that do not overlap. -/
inductive Cut (separator : List α) : List α → List (List α) → Prop where
  | last {text : List α} (hfree : ¬ separator <:+: text) : Cut separator text [text]
  | piece {piece after : List α} {pieces : List (List α)} (hleft : Leftmost separator piece after)
      (hafter : Cut separator after pieces) :
      Cut separator (piece ++ separator ++ after) (piece :: pieces)

theorem exists_leftmost (h : separator <:+: text) :
    ∃ piece after, piece ++ separator ++ after = text ∧ Leftmost separator piece after := by
  classical
  have hlength : ∃ n, ∃ piece after, piece ++ separator ++ after = text ∧ piece.length = n := by
    obtain ⟨piece, after, htext⟩ := h
    exact ⟨_, piece, after, htext, rfl⟩
  obtain ⟨piece, after, htext, hpiece⟩ := Nat.find_spec hlength
  refine ⟨piece, after, htext, fun before rest hrest => ?_⟩
  rw [hpiece]
  exact Nat.find_min' hlength ⟨before, rest, hrest.trans htext, rfl⟩

theorem exists_cut (hseparator : separator ≠ []) (text : List α) :
    ∃ pieces, Cut separator text pieces := by
  induction hn : text.length using Nat.strongRecOn generalizing text with
  | ind n ih =>
    by_cases hinside : separator <:+: text
    · obtain ⟨piece, after, rfl, hleft⟩ := exists_leftmost hinside
      have hpos := List.length_pos_iff.mpr hseparator
      obtain ⟨pieces, hpieces⟩ := ih after.length (by simp at hn; omega) after rfl
      exact ⟨_, .piece hleft hpieces⟩
    · exact ⟨_, .last hinside⟩

theorem Cut.unique (h : Cut separator text pieces) (h' : Cut separator text pieces') :
    pieces = pieces' := by
  induction h generalizing pieces' with
  | last hfree =>
    cases h' with
    | last => rfl
    | piece => exact absurd ⟨_, _, rfl⟩ hfree
  | @piece piece after pieces hleft _ ih =>
    generalize htext : piece ++ separator ++ after = text at h'
    cases h' with
    | last hfree => exact absurd ⟨_, _, htext⟩ hfree
    | @piece piece' after' pieces' hleft' hafter' =>
      have hle := hleft piece' after' htext.symm
      have hge := hleft' piece after htext
      obtain ⟨hpiece, hafter⟩ := List.append_inj (by simpa using htext) (le_antisymm hle hge)
      rw [List.append_cancel_left_eq] at hafter
      subst hpiece hafter
      rw [ih hafter']

theorem Cut.ne_nil (h : Cut separator text pieces) : pieces ≠ [] := by
  cases h <;> exact List.cons_ne_nil _ _

/-- Nothing is lost: the separators are all that is between the pieces. -/
theorem Cut.intercalate (h : Cut separator text pieces) : separator.intercalate pieces = text := by
  induction h with
  | last => simp
  | piece _ hafter ih =>
    obtain ⟨next, pieces, rfl⟩ := List.exists_cons_of_ne_nil hafter.ne_nil
    rw [List.intercalate_cons_cons, ih]

theorem Cut.separated (hseparator : separator ≠ []) (h : Cut separator text pieces) :
    ∀ piece ∈ pieces, ¬ separator <:+: piece := by
  induction h with
  | last hfree => simpa using hfree
  | @piece _ after _ hleft _ ih =>
    refine List.forall_mem_cons.mpr ⟨?_, ih⟩
    rintro ⟨before, rest, rfl⟩
    have hle := hleft before (rest ++ separator ++ after) (by simp)
    have hpos := List.length_pos_iff.mpr hseparator
    simp only [List.length_append] at hle
    omega

/-- A single element cuts where `splitOn` does. -/
theorem cut_splitOn [BEq α] [LawfulBEq α] (a : α) (text : List α) :
    Cut [a] text (text.splitOn a) := by
  induction hn : text.length using Nat.strongRecOn generalizing text with
  | ind n ih =>
    by_cases hmem : a ∈ text
    · obtain ⟨before, after, rfl, hbefore⟩ := List.eq_append_cons_of_mem hmem
      rw [List.splitOn_append_cons_self_of_not_mem hbefore]
      have hcut := ih after.length (by simp at hn; omega) after rfl
      rw [List.append_cons]
      refine .piece (fun before' rest heq => ?_) hcut
      by_contra hlt
      have hfront : before' ++ [a] <+: before ++ [a] ++ after := ⟨rest, heq⟩
      have hbegins : before' ++ [a] <+: before :=
        List.prefix_of_prefix_length_le hfront ⟨[a] ++ after, by simp⟩ (by simp; omega)
      exact hbefore (hbegins.subset (by simp))
    · rw [List.splitOn_eq_singleton hmem]
      exact .last fun hinside => hmem (hinside.subset (List.mem_singleton_self a))

end Separator
