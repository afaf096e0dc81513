import DarwinCore.Verification.Algorithm.QuickSort

/-! # `mergeSort`

Equivalent elements change sides in every merge: the sort leaves them in the reverse order. -/

namespace DarwinCore.Algorithm

open StrictWeakOrder

variable {α : Type} {comp : α → α → Bool}
  {pre post seg xs ys arr temp before between after junk : List α} {i j k left mid right fuel : ℕ}

/-! ## The loops of `merge` -/

private theorem copyLoop_spec (pre seg post before junk after : List α) (hi : i = pre.length)
    (hbefore : before.length = pre.length) (hjunk : junk.length = seg.length)
    (hright : right + 1 = (pre ++ seg).length) (hfuel : seg.length < fuel) :
    copyLoop (pre ++ seg ++ post) right fuel (before ++ junk ++ after) i =
      some (before ++ seg ++ after) := by
  induction seg generalizing i pre before junk fuel with
  | nil =>
    obtain ⟨fuel, rfl⟩ := Nat.exists_eq_add_one_of_ne_zero (Nat.ne_zero_of_lt hfuel)
    rw [List.eq_nil_of_length_eq_zero hjunk, copyLoop, if_neg (by simp at hright; omega)]
  | cons x seg ih =>
    obtain ⟨fuel, rfl⟩ := Nat.exists_eq_add_one_of_ne_zero (Nat.ne_zero_of_lt hfuel)
    obtain ⟨z, junk, rfl⟩ := List.exists_cons_of_length_eq_add_one hjunk
    have hrun := ih (pre ++ [x]) (before ++ [x]) junk (i := i + 1) (by simp [hi])
      (by simp [hbefore]) (by simpa using hjunk)
      (by simpa using hright) (Nat.lt_of_succ_lt_succ hfuel)
    have hget : (pre ++ x :: seg ++ post)[i]? = some x := by
      rw [List.append_assoc]
      exact getElem?_middle _ _ _ hi
    have hassign : assign (before ++ z :: junk ++ after) i x =
        some (before ++ [x] ++ junk ++ after) := by
      simpa using assign_middle before (junk ++ after) z x (hi.trans hbefore.symm)
    rw [copyLoop, if_pos (by simp at hright; omega), hget]
    simp only [Option.bind_eq_bind, Option.bind_some, hassign]
    simpa using hrun

private theorem restLoop_spec (before xs after pre junk post : List α)
    (htemp : temp = before ++ xs ++ after) (hi : i = before.length)
    (hmid : mid + 1 = (before ++ xs).length)
    (hk : k = pre.length) (hjunk : junk.length = xs.length) (hfuel : xs.length < fuel) :
    restLoop temp mid fuel (pre ++ junk ++ post) i k = some (pre ++ xs ++ post) := by
  subst htemp
  induction xs generalizing i k pre before junk fuel with
  | nil =>
    obtain ⟨fuel, rfl⟩ := Nat.exists_eq_add_one_of_ne_zero (Nat.ne_zero_of_lt hfuel)
    rw [List.eq_nil_of_length_eq_zero hjunk, restLoop, if_neg (by simp at hmid; omega)]
  | cons x xs ih =>
    obtain ⟨fuel, rfl⟩ := Nat.exists_eq_add_one_of_ne_zero (Nat.ne_zero_of_lt hfuel)
    obtain ⟨z, junk, rfl⟩ := List.exists_cons_of_length_eq_add_one hjunk
    have hrun := ih (before ++ [x]) (pre ++ [x]) junk (i := i + 1) (k := k + 1) (by simp [hi])
      (by simpa using hmid) (by simp [hk]) (by simpa using hjunk) (Nat.lt_of_succ_lt_succ hfuel)
    have hget : (before ++ x :: xs ++ after)[i]? = some x := by
      rw [List.append_assoc]
      exact getElem?_middle _ _ _ hi
    have hassign : assign (pre ++ z :: junk ++ post) k x =
        some (pre ++ [x] ++ junk ++ post) := by
      simpa using assign_middle pre (junk ++ post) z x hk
    rw [restLoop, if_pos (by simp at hmid; omega), hget]
    simp only [Option.bind_eq_bind, Option.bind_some, hassign]
    simpa using hrun

/-- The part that is still to be filled is as long as what is left of the left half; behind it
stands what is left of the right half. -/
theorem mergeLoop_spec (comp : α → α → Bool) (before xs between ys after pre junk post : List α)
    (htemp : temp = before ++ xs ++ between ++ ys ++ after)
    (hi : i = before.length) (hmid : mid + 1 = (before ++ xs).length)
    (hj : j = (before ++ xs ++ between).length)
    (hright : right + 1 = (before ++ xs ++ between ++ ys).length) (hk : k = pre.length)
    (hjunk : junk.length = xs.length) (hfuel : xs.length + ys.length < fuel) :
    ∃ arr i' k', mergeLoop comp temp mid right fuel (pre ++ junk ++ ys ++ post) i j k =
        some (arr, i', k') ∧
      ∀ fuel', xs.length < fuel' →
        restLoop temp mid fuel' arr i' k' = some (pre ++ xs.merge ys comp ++ post) := by
  induction fuel generalizing i j k pre before between xs ys junk with
  | zero => exact absurd hfuel (Nat.not_lt_zero _)
  | succ fuel ih =>
    rw [mergeLoop]
    simp only [List.length_append] at hmid hj hright
    cases xs with
    | nil =>
      rw [if_neg (by simp at hmid; omega)]
      refine ⟨_, _, _, rfl, fun fuel' hfuel' => ?_⟩
      rw [List.append_assoc, restLoop_spec before [] _ pre junk _ (by simpa using htemp) hi
        (by simpa using hmid) hk hjunk hfuel']
      simp
    | cons x xs =>
      cases ys with
      | nil =>
        rw [if_neg (by simp at hj hright; omega)]
        refine ⟨_, _, _, rfl, fun fuel' hfuel' => ?_⟩
        rw [List.append_nil, List.merge_right, restLoop_spec before (x :: xs) _ pre junk _
          (by simpa using htemp) hi (by simpa using hmid) hk hjunk hfuel']
      | cons y ys =>
        obtain ⟨z, junk, rfl⟩ := List.exists_cons_of_length_eq_add_one hjunk
        simp only [List.length_cons] at hmid hj hright hjunk hfuel
        have hx : temp[i]? = some x := by
          rw [htemp]
          simpa using getElem?_middle before (xs ++ (between ++ (y :: (ys ++ after)))) x hi
        have hy : temp[j]? = some y := by
          rw [htemp]
          simpa using getElem?_middle (before ++ x :: xs ++ between) (ys ++ after) y
            (by simp; omega)
        have hassign (w : α) : assign (pre ++ z :: junk ++ y :: ys ++ post) k w =
            some (pre ++ [w] ++ junk ++ y :: ys ++ post) := by
          simpa using assign_middle pre (junk ++ (y :: (ys ++ post))) z w hk
        rw [if_pos (by omega), hx, hy]
        simp only [Option.bind_eq_bind, Option.bind_some, hassign, List.cons_merge_cons]
        by_cases hxy : comp x y = true
        · simp only [if_pos hxy]
          obtain ⟨arr, i', k', hrun, hrest⟩ := ih (before ++ [x]) xs between (y :: ys)
            (pre ++ [x]) junk (i := i + 1) (j := j) (k := k + 1) (by simpa using htemp)
            (by simp [hi]) (by simp; omega) (by simp; omega) (by simp; omega) (by simp [hk])
            (by omega) (by simp; omega)
          refine ⟨arr, i', k', hrun, fun fuel' hfuel' => ?_⟩
          rw [hrest fuel' (by simp at hfuel'; omega)]
          simp
        · simp only [if_neg hxy]
          obtain ⟨arr, i', k', hrun, hrest⟩ := ih before (x :: xs) (between ++ [y]) ys
            (pre ++ [y]) (junk ++ [y]) (j := j + 1) (k := k + 1) (by simpa using htemp) hi
            (by simp; omega) (by simp; omega) (by simp; omega) (by simp [hk])
            (by simp; omega) (by simp; omega)
          refine ⟨arr, i', k', by simpa using hrun, fun fuel' hfuel' => ?_⟩
          rw [hrest fuel' hfuel']
          simp

/-! ## The sort -/

private theorem merge_spec (comp : α → α → Bool) (pre xs ys post : List α)
    (htemp : temp.length = (pre ++ xs ++ ys ++ post).length) (hmid : mid + 1 = (pre ++ xs).length)
    (hright : right + 1 = (pre ++ xs ++ ys).length) (hfuel : xs.length + ys.length < fuel) :
    ∃ temp', temp'.length = temp.length ∧
      merge comp fuel (pre ++ xs ++ ys ++ post) temp pre.length mid right =
        some (pre ++ xs.merge ys comp ++ post, temp') := by
  obtain ⟨before, junk, after, rfl, hbefore, hjunk⟩ : ∃ before junk after,
      before ++ junk ++ after = temp ∧ before.length = pre.length ∧
        junk.length = (xs ++ ys).length := by
    refine ⟨temp.take pre.length, (temp.drop pre.length).take (xs ++ ys).length,
      (temp.drop pre.length).drop (xs ++ ys).length, ?_, ?_, ?_⟩
    · rw [List.append_assoc, List.take_append_drop, List.take_append_drop]
    · simp [htemp]
    · simp [htemp]
  have hcopied : right + 1 = (pre ++ (xs ++ ys)).length := by simpa using hright
  have hcopy := copyLoop_spec pre (xs ++ ys) post before junk after rfl hbefore hjunk hcopied
    (by simpa using hfuel)
  have hregroup : before ++ (xs ++ ys) ++ after = before ++ xs ++ [] ++ ys ++ after := by simp
  have hleft : mid + 1 = (before ++ xs).length := by simpa [hbefore] using hmid
  have hbetween : mid + 1 = (before ++ xs ++ []).length := by simpa using hleft
  have hend : right + 1 = (before ++ xs ++ [] ++ ys).length := by simpa [hbefore] using hright
  obtain ⟨arr, i, k, hloop, hrest⟩ := mergeLoop_spec comp before xs [] ys after pre xs post
    hregroup hbefore.symm hleft hbetween hend rfl rfl hfuel
  refine ⟨before ++ (xs ++ ys) ++ after, by simp [hjunk, Nat.add_assoc], ?_⟩
  rw [merge, List.append_assoc pre, hcopy]
  rw [List.append_assoc pre] at hloop
  simp only [Option.bind_eq_bind, Option.bind_some, hloop, hrest fuel (by omega)]
  rfl

theorem eq_reverse_of_length_le_one (h : xs.length ≤ 1) : xs = xs.reverse := by
  match xs, h with
  | [], _ => rfl
  | [x], _ => rfl

/-- A call sorts its segment and turns the order of equivalent elements round. -/
theorem mergeSortImpl_spec (pre seg post : List α) (hcomp : IsComparison comp) (hseg : seg ≠ [])
    (htemp : temp.length = (pre ++ seg ++ post).length)
    (hright : right + 1 = (pre ++ seg).length) (hfuel : seg.length < fuel) :
    ∃ sorted temp', temp'.length = temp.length ∧
      mergeSortImpl comp fuel (pre ++ seg ++ post) temp pre.length right =
        some (pre ++ sorted ++ post, temp') ∧
      sorted.Perm seg ∧ Ordered comp sorted ∧
      ∀ a, sorted.filter (equivalent comp a) = (seg.filter (equivalent comp a)).reverse := by
  induction fuel generalizing pre seg post right temp with
  | zero => exact absurd hfuel (Nat.not_lt_zero _)
  | succ fuel ih =>
    have hpos := List.length_pos_iff.mpr hseg
    rw [List.length_append] at hright
    rw [mergeSortImpl]
    by_cases hshort : seg.length ≤ 1
    · refine ⟨seg, temp, rfl, if_pos (by omega), .refl _, ordered_of_length_le_one hshort,
        fun a => eq_reverse_of_length_le_one ?_⟩
      exact (List.length_filter_le _ _).trans hshort
    rw [if_neg (by omega)]
    obtain ⟨xs, ys, rfl, hxs⟩ : ∃ xs ys, xs ++ ys = seg ∧
        xs.length = (right - pre.length) / 2 + 1 :=
      ⟨_, _, List.take_append_drop ((right - pre.length) / 2 + 1) seg, by simp; omega⟩
    simp only [List.length_append] at hright hfuel hshort
    have hhalf : pre.length + (right - pre.length) / 2 + 1 = (pre ++ xs).length := by
      rw [List.length_append]
      omega
    obtain ⟨sortedXs, temp₁, htemp₁, hleft, hpermXs, horderedXs, hfilterXs⟩ :=
      ih pre xs (ys ++ post) (List.ne_nil_of_length_eq_add_one hxs) (by simpa using htemp) hhalf
        (by omega)
    have hroom₁ : temp₁.length = (pre ++ sortedXs ++ ys ++ post).length := by
      simpa [htemp₁, hpermXs.length_eq] using htemp
    have hend : right + 1 = (pre ++ sortedXs ++ ys).length := by
      simp [hpermXs.length_eq]
      omega
    obtain ⟨sortedYs, temp₂, htemp₂, hrightCall, hpermYs, horderedYs, hfilterYs⟩ :=
      ih (pre ++ sortedXs) ys post (List.ne_nil_of_length_pos (by omega)) hroom₁ hend (by omega)
    have hroom₂ : temp₂.length = (pre ++ sortedXs ++ sortedYs ++ post).length := by
      simpa [htemp₂, hpermYs.length_eq] using hroom₁
    have hstart : pre.length + (right - pre.length) / 2 + 1 = (pre ++ sortedXs).length := by
      rw [hhalf, List.length_append, List.length_append, hpermXs.length_eq]
    have hboth : right + 1 = (pre ++ sortedXs ++ sortedYs).length := by
      simpa [hpermYs.length_eq] using hend
    have hshorter : sortedXs.length + sortedYs.length < fuel + 1 := by
      rw [hpermXs.length_eq, hpermYs.length_eq]
      omega
    obtain ⟨temp₃, htemp₃, hmerge⟩ := merge_spec comp pre sortedXs sortedYs post
      hroom₂ hstart hboth hshorter
    refine ⟨sortedXs.merge sortedYs comp, temp₃, by omega, ?_,
      (List.merge_perm_append _).trans (hpermXs.append hpermYs),
      hcomp.ordered_merge horderedXs horderedYs, fun a => ?_⟩
    · rw [← List.append_assoc, List.append_assoc (pre ++ xs)]
      simp only [Option.bind_eq_bind, hleft, Option.bind_some]
      rw [← List.append_assoc, hstart, hrightCall, Option.bind_some, hmerge]
    · rw [hcomp.filter_merge horderedYs, hfilterXs, hfilterYs, List.filter_append,
        List.reverse_append]

theorem mergeSort_spec [Inhabited α] (hcomp : IsComparison comp) (hsize : arr.length < sizeRange)
    (hfuel : arr.length < fuel) :
    ∃ sorted, mergeSort comp fuel arr = some sorted ∧ sorted.Perm arr ∧ Ordered comp sorted ∧
      ∀ a, sorted.filter (equivalent comp a) = (arr.filter (equivalent comp a)).reverse := by
  rw [mergeSort]
  by_cases hshort : arr.length ≤ 1
  · refine ⟨arr, if_pos hshort, .refl _, ordered_of_length_le_one hshort,
      fun a => eq_reverse_of_length_le_one ?_⟩
    exact (List.length_filter_le _ _).trans hshort
  · rw [if_neg hshort, sizePred_eq (by omega) hsize.le]
    have htemp : (List.replicate arr.length (default : α)).length = ([] ++ arr ++ []).length := by
      simp
    have hend : arr.length - 1 + 1 = ([] ++ arr).length := by simp; omega
    obtain ⟨sorted, temp, -, hrun, hspec⟩ :=
      mergeSortImpl_spec [] arr [] hcomp (List.ne_nil_of_length_pos (by omega)) htemp hend hfuel
    refine ⟨sorted, ?_, hspec⟩
    rw [List.nil_append, List.append_nil, List.nil_append, List.append_nil, List.length_nil] at hrun
    rw [hrun]
    rfl

/-- The sort keeps the order of equivalent elements, and then agrees with `insertionSort`, iff that
order reads the same backwards. -/
theorem mergeSort_stable_iff [Inhabited α] (hcomp : IsComparison comp)
    (hsize : arr.length < sizeRange) (hfuel : arr.length < fuel) :
    ∃ merged inserted, mergeSort comp fuel arr = some merged ∧
      insertionSort comp fuel arr = some inserted ∧
      ((∀ a, merged.filter (equivalent comp a) = arr.filter (equivalent comp a)) ∧
        merged = inserted ↔
          ∀ a, (arr.filter (equivalent comp a)).reverse = arr.filter (equivalent comp a)) := by
  obtain ⟨merged, hmerged, -, hordered, hfilter⟩ := mergeSort_spec hcomp hsize hfuel
  obtain ⟨inserted, hinserted, -, hordered', hfilter'⟩ := insertionSort_spec hcomp hfuel
  refine ⟨merged, inserted, hmerged, hinserted, fun h a => (hfilter a).symm.trans (h.1 a),
    fun h => ?_⟩
  have hstable a : merged.filter (equivalent comp a) = arr.filter (equivalent comp a) :=
    (hfilter a).trans (h a)
  exact ⟨hstable, hcomp.eq_of_filter hordered hordered' fun a =>
    (hstable a).trans (hfilter' a).symm⟩

theorem mergeSort_stable_iff_distinct :
    ∃ merged inserted, mergeSort (fun x y => decide (x < y)) 3 [5, 2] = some merged ∧
      insertionSort (fun x y => decide (x < y)) 3 [5, 2] = some inserted ∧
      ((∀ a, merged.filter (equivalent (fun x y => decide (x < y)) a) =
          [5, 2].filter (equivalent (fun x y => decide (x < y)) a)) ∧ merged = inserted ↔
        ∀ a, ([5, 2].filter (equivalent (fun x y => decide (x < y)) a)).reverse =
          [5, 2].filter (equivalent (fun x y => decide (x < y)) a)) :=
  mergeSort_stable_iff (isComparison_lt ℕ) (by decide) (by decide)

/-- Two pairs with the same key change places. -/
theorem mergeSort_swaps_equivalent :
    IsComparison (fun x y : ℕ × ℕ => decide (x.1 < y.1)) ∧
      equivalent (fun x y : ℕ × ℕ => decide (x.1 < y.1)) (7, 0) (7, 1) = true ∧
      mergeSort (fun x y => decide (x.1 < y.1)) 3 [(7, 0), (7, 1)] = some [(7, 1), (7, 0)] ∧
      insertionSort (fun x y => decide (x.1 < y.1)) 3 [(7, 0), (7, 1)] = some [(7, 0), (7, 1)] :=
  ⟨isComparison_key Prod.fst, by decide, by decide, by decide⟩

end DarwinCore.Algorithm
