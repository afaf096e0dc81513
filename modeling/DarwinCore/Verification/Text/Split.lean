import DarwinCore.Model.Text.StringUtils

/-! # `split` and the separator

`split` looks for a byte of the separator and goes on after the length of the separator. -/

namespace DarwinCore.Text

open Scan Separator

variable {α : Type*} [DecidableEq α] {str separator : List α} {pieces result : List (List α)}
  {fuel : ℕ}

theorem findFirstOf_eq_none (h : ∀ c ∈ str, c ∉ separator) : findFirstOf str separator = none := by
  simpa [findFirstOf] using h

private theorem findFirstOf_eq_some {piece : List α} (h : ∀ c ∈ piece, c ∉ separator)
    (hseparator : separator ≠ []) (after : List α) :
    findFirstOf (piece ++ separator ++ after) separator = some piece.length := by
  obtain ⟨c, separator, rfl⟩ := List.exists_cons_of_ne_nil hseparator
  have hpiece := findFirstOf_eq_none h
  rw [findFirstOf] at hpiece ⊢
  rw [List.append_assoc, List.findIdx?_append, hpiece]
  simp [List.findIdx?_cons]

/-- What is found lies behind characters that are not in the separator. -/
theorem not_mem_of_mem_take {n : ℕ} (h : findFirstOf str separator = some n) :
    ∀ c ∈ str.take n, c ∉ separator := by
  intro c hc
  obtain ⟨i, hi, rfl⟩ := List.getElem_of_mem hc
  rw [List.length_take] at hi
  rw [findFirstOf, List.findIdx?_eq_some_iff_getElem] at h
  simpa using h.2.2 i (by omega)

/-! ## The loop -/

/-- Where the pieces have no character of the separator, the loop finds those that are not
empty. -/
theorem run_splitPass (hseparator : separator ≠ []) (hcut : Cut separator str pieces)
    (hpieces : ∀ piece ∈ pieces, ∀ c ∈ piece, c ∉ separator) (hfuel : str.length < fuel) :
    run (splitPass separator) some fuel str result =
      some (some (result ++ pieces.filter (· ≠ []))) := by
  induction hcut generalizing fuel result with
  | @last text _ =>
    obtain ⟨fuel, rfl⟩ := Nat.exists_eq_add_one_of_ne_zero (Nat.ne_zero_of_lt hfuel)
    cases text with
    | nil => simp [run]
    | cons c rest =>
      rw [run, splitPass, findFirstOf_eq_none (hpieces _ (List.mem_singleton_self _))]
      simp
  | @piece piece after pieces _ _ ih =>
    obtain ⟨fuel, rfl⟩ := Nat.exists_eq_add_one_of_ne_zero (Nat.ne_zero_of_lt hfuel)
    obtain ⟨hpiece, hpieces⟩ := List.forall_mem_cons.mp hpieces
    have hpos := List.length_pos_iff.mpr hseparator
    obtain ⟨c, rest, htext⟩ := List.exists_cons_of_ne_nil (l := piece ++ separator ++ after)
      (by simp [hseparator])
    have hfind := findFirstOf_eq_some hpiece hseparator after
    have hdrop : (c :: rest).drop (piece.length + separator.length) = after := by
      rw [← htext, ← List.length_append, List.drop_left]
    have htake : (c :: rest).take piece.length = piece := by
      rw [← htext, List.append_assoc, List.take_left]
    have hlength := congrArg List.length htext
    rw [htext] at hfind
    simp only [List.length_append] at hlength hfuel
    rw [htext, run, splitPass, hfind]
    simp only [htake]
    rw [if_neg (by omega)]
    simp only [hdrop]
    rw [ih hpieces (by omega)]
    cases piece <;> simp

/-- The loop adds pieces that have no character of the separator. -/
private theorem not_mem_of_mem_run (hrun : run (splitPass separator) some fuel str result =
    some (some pieces)) (hresult : ∀ piece ∈ result, ∀ c ∈ piece, c ∉ separator) :
    ∀ piece ∈ pieces, ∀ c ∈ piece, c ∉ separator := by
  induction fuel generalizing str result with
  | zero => cases hrun
  | succ fuel ih =>
    cases str with
    | nil =>
      obtain rfl : result = pieces := by simpa [run] using hrun
      exact hresult
    | cons c rest =>
      rw [run, splitPass] at hrun
      cases hfind : findFirstOf (c :: rest) separator with
      | none =>
        rw [hfind] at hrun
        obtain rfl : result ++ [c :: rest] = pieces := by simpa using hrun
        have hfree : ∀ x ∈ c :: rest, x ∉ separator := by simpa [findFirstOf] using hfind
        exact List.forall_mem_append.mpr ⟨hresult, by simpa using hfree⟩
      | some n =>
        rw [hfind] at hrun
        dsimp only at hrun
        by_cases hthrow : n + separator.length > (c :: rest).length
        · rw [if_pos hthrow] at hrun
          simp at hrun
        · rw [if_neg hthrow] at hrun
          refine ih hrun ?_
          split_ifs
          · exact hresult
          · exact List.forall_mem_append.mpr
              ⟨hresult, by simpa using not_mem_of_mem_take hfind⟩

/-! ## The pieces -/

theorem split_eq_filter (hseparator : separator ≠ []) (hcut : Cut separator str pieces)
    (hpieces : ∀ piece ∈ pieces, ∀ c ∈ piece, c ∉ separator) :
    split str separator = some (pieces.filter (· ≠ [])) := by
  rw [split]
  by_cases hstr : str = []
  · subst hstr
    rw [if_pos (by simp), hcut.unique (.last fun h => hseparator (List.infix_nil.mp h))]
    rfl
  · rw [if_neg (by simp [hseparator, hstr]), run_splitPass hseparator hcut hpieces
      (Nat.lt_succ_self _)]
    rfl

private theorem not_mem_of_mem_split (h : split str separator = some result) :
    ∀ piece ∈ result, ∀ c ∈ piece, c ∉ separator := by
  rw [split] at h
  by_cases hempty : separator.isEmpty ∨ str.isEmpty
  · rw [if_pos hempty] at h
    cases h
    exact nofun
  · rw [if_neg hempty, Option.join_eq_some_iff] at h
    exact not_mem_of_mem_run h nofun

/-- The pieces between the leftmost occurrences of the separator are determined, contain none and
make up the string. `split` finds those that are not empty iff the string has no other bytes of the
separator. -/
theorem split_cuts_iff (str : List UInt8) {separator : List UInt8} (hseparator : separator ≠ []) :
    ∃ pieces, (∀ pieces', Cut separator str pieces' ↔ pieces' = pieces) ∧
      separator.intercalate pieces = str ∧ (∀ piece ∈ pieces, ¬ separator <:+: piece) ∧
      (split str separator = some (pieces.filter (· ≠ [])) ↔
        ∀ piece ∈ pieces, ∀ c ∈ piece, c ∉ separator) := by
  obtain ⟨pieces, hcut⟩ := exists_cut hseparator str
  refine ⟨pieces, fun pieces' => ⟨fun h => h.unique hcut, fun h => h ▸ hcut⟩, hcut.intercalate,
    hcut.separated hseparator, fun hsplit piece hpiece c hc => ?_,
    split_eq_filter hseparator hcut⟩
  have hne : piece ≠ [] := List.ne_nil_of_mem hc
  exact not_mem_of_mem_split hsplit piece (List.mem_filter.mpr ⟨hpiece, by simpa using hne⟩) c hc

/-- The bytes of `->`. -/
def arrow : List UInt8 :=
  [0x2D, 0x3E]

/-- `a->b`. -/
theorem split_cuts_iff_arrow :
    ∃ pieces, (∀ pieces', Cut arrow [0x61, 0x2D, 0x3E, 0x62] pieces' ↔ pieces' = pieces) ∧
      arrow.intercalate pieces = [0x61, 0x2D, 0x3E, 0x62] ∧
      (∀ piece ∈ pieces, ¬ arrow <:+: piece) ∧
      (split [0x61, 0x2D, 0x3E, 0x62] arrow = some (pieces.filter (· ≠ [])) ↔
        ∀ piece ∈ pieces, ∀ c ∈ piece, c ∉ arrow) :=
  split_cuts_iff [0x61, 0x2D, 0x3E, 0x62] (by decide)

/-- A lone `-` in front of a byte loses it, at the end of the string it throws. -/
theorem split_partial_match :
    Cut arrow [0x61, 0x2D, 0x62] [[0x61, 0x2D, 0x62]] ∧
      split [0x61, 0x2D, 0x62] arrow = some [[0x61]] ∧ split [0x61, 0x2D] arrow = none :=
  ⟨.last (by decide), by decide, by decide⟩

end DarwinCore.Text
