import DarwinCore.Library.BinaryHeap
import DarwinCore.Verification.Algorithm.MergeSort

/-! # `heapSort` and the four sorts -/

namespace DarwinCore.Algorithm

open StrictWeakOrder BinaryHeap

variable {α : Type} {comp : α → α → Bool} {heap tail sorted arr : List α}
  {i j n lo largest depth fuel : ℕ}

/-! ## `heapify` -/

private theorem largerChild_spec (tail : List α) (child : ℕ) (hcomp : IsComparison comp)
    (hlargest : largest < heap.length) :
    ∃ l < heap.length, largerChild comp heap.length (heap ++ tail) largest child = some l ∧
      (l = largest ∨ l = child) ∧ Above comp heap l largest ∧ Above comp heap l child := by
  rw [largerChild]
  by_cases hchild : child < heap.length
  · have hget {k : ℕ} (hk : k < heap.length) : (heap ++ tail)[k]? = some heap[k] := by
      rw [List.getElem?_append_left hk, List.getElem?_eq_getElem hk]
    rw [if_pos hchild, hget hlargest, hget hchild]
    by_cases hlt : comp heap[largest] heap[child] = true
    · refine ⟨child, hchild, by simp [hlt], .inr rfl, ?_, above_self hcomp⟩
      intro x hx y hy
      rw [List.getElem?_eq_getElem hchild] at hx
      rw [List.getElem?_eq_getElem hlargest] at hy
      cases hx
      cases hy
      exact hcomp.asymm hlt
    · refine ⟨largest, hlargest, by simp [hlt], .inl rfl, above_self hcomp, ?_⟩
      intro x hx y hy
      rw [List.getElem?_eq_getElem hlargest] at hx
      rw [List.getElem?_eq_getElem hchild] at hy
      cases hx
      cases hy
      exact Bool.eq_false_iff.mpr hlt
  · rw [if_neg hchild]
    exact ⟨largest, hlargest, rfl, .inl rfl, above_self hcomp,
      above_of_length_le (Nat.le_of_not_lt hchild)⟩

private theorem swap_spec (tail : List α) (hi : i < heap.length) (hj : j < heap.length) :
    ∃ heap', swap (heap ++ tail) i j = some (heap' ++ tail) ∧ heap'.Perm heap ∧
      heap'[i]? = heap[j]? ∧ heap'[j]? = heap[i]? ∧
      ∀ k, k ≠ i → k ≠ j → heap'[k]? = heap[k]? := by
  refine ⟨(heap.set i heap[j]).set j heap[i], ?_, List.set_set_perm hi hj, ?_, ?_, ?_⟩
  · rw [swap, List.getElem?_append_left hi, List.getElem?_append_left hj,
      List.getElem?_eq_getElem hi, List.getElem?_eq_getElem hj]
    simp only [Option.bind_eq_bind, Option.bind_some]
    rw [assign, if_pos (by simp; omega), Option.bind_some, assign, if_pos (by simp; omega),
      List.set_append_left _ _ hi, List.set_append_left _ _ (by simpa using hj)]
  · by_cases hij : j = i
    · subst hij
      simp
    · rw [List.getElem?_set_ne hij, List.getElem?_set_self hi, List.getElem?_eq_getElem hj]
  · rw [List.getElem?_set_self (by simpa using hj), List.getElem?_eq_getElem hi]
  · intro k hki hkj
    rw [List.getElem?_set_ne hkj.symm, List.getElem?_set_ne hki.symm]

/-- A call repairs the heap in front of `tail`. -/
theorem heapify_spec (tail : List α) (hcomp : IsComparison comp) (h : HeapExcept comp heap lo i)
    (hlo : lo ≤ i) (hi : i < heap.length) (hfuel : heap.length ≤ i + fuel) :
    ∃ heap', heapify comp heap.length fuel (heap ++ tail) i = some (heap' ++ tail) ∧
      heap'.Perm heap ∧ HeapFrom comp heap' lo := by
  induction fuel generalizing heap i with
  | zero => omega
  | succ fuel ih =>
    obtain ⟨l₁, hl₁, hcall₁, hcase₁, hi₁, hleft₁⟩ :=
      largerChild_spec tail (2 * i + 1) hcomp hi
    obtain ⟨l, hl, hcall, hcase, hl₁l, hright⟩ :=
      largerChild_spec tail (2 * i + 2) hcomp hl₁
    have hhole := hl₁l.trans hcomp hi₁ hl₁
    have hleft := hl₁l.trans hcomp hleft₁ hl₁
    rw [heapify]
    simp only [Option.bind_eq_bind, hcall₁, Option.bind_some, hcall]
    by_cases hstop : l = i
    · subst hstop
      exact ⟨heap, if_neg (by simp), .refl _, h.finish hleft hright⟩
    · have hchild : l = 2 * i + 1 ∨ l = 2 * i + 2 := by omega
      obtain ⟨heap', hswap, hperm, hnew, hold, hother⟩ := swap_spec tail hi hl
      obtain ⟨heap'', hrun, hperm', hheap⟩ := ih
        (h.move hlo hchild hhole hleft hright hnew hold hother) (by omega)
        (hl.trans_eq hperm.length_eq.symm) (by rw [hperm.length_eq]; omega)
      rw [hperm.length_eq] at hrun
      refine ⟨heap'', ?_, hperm'.trans hperm, hheap⟩
      rw [if_pos hstop, hswap, Option.bind_some, hrun]

/-! ## The loops -/

private theorem buildLoop_spec (hcomp : IsComparison comp) (h : HeapFrom comp arr lo)
    (hlo : lo ≤ arr.length) (hdepth : arr.length ≤ depth) (hfuel : lo < fuel) :
    ∃ heap, buildLoop comp depth fuel arr ((lo : ℤ) - 1) = some heap ∧ heap.Perm arr ∧
      HeapFrom comp heap 0 := by
  induction lo generalizing arr fuel with
  | zero =>
    obtain ⟨fuel, rfl⟩ := Nat.exists_eq_add_one_of_ne_zero (Nat.ne_zero_of_lt hfuel)
    exact ⟨arr, if_neg (by simp), .refl _, h⟩
  | succ lo ih =>
    obtain ⟨fuel, rfl⟩ := Nat.exists_eq_add_one_of_ne_zero (Nat.ne_zero_of_lt hfuel)
    have hindex : ((lo + 1 : ℕ) : ℤ) - 1 = (lo : ℤ) := by omega
    obtain ⟨arr', hcall, hperm, hheap⟩ :=
      heapify_spec [] hcomp h.except le_rfl hlo (by omega : arr.length ≤ lo + depth)
    obtain ⟨heap, hrun, hperm', hheap'⟩ := ih hheap (by rw [hperm.length_eq]; omega)
      (by rw [hperm.length_eq]; exact hdepth) (Nat.lt_of_succ_lt_succ hfuel)
    simp only [List.append_nil] at hcall
    refine ⟨heap, ?_, hperm'.trans hperm, hheap'⟩
    rw [hindex, buildLoop, if_pos (by omega), Int.toNat_natCast]
    simp only [Option.bind_eq_bind, hcall, Option.bind_some, hrun]

/-- The last of the heap goes to the front of what is sorted. -/
private theorem extractLoop_spec (hcomp : IsComparison comp) (hheap : HeapFrom comp heap 0)
    (hsorted : Ordered comp sorted) (hacross : ∀ x ∈ heap, ∀ y ∈ sorted, comp y x = false)
    (hlength : heap.length = i + 1) (hdepth : heap.length ≤ depth) :
    ∃ sorted', extractLoop comp depth (heap ++ sorted) i = some sorted' ∧
      sorted'.Perm (heap ++ sorted) ∧ Ordered comp sorted' := by
  induction i generalizing heap sorted with
  | zero =>
    obtain ⟨x, rfl⟩ := List.length_eq_one_iff.mp hlength
    exact ⟨_, rfl, .refl _, List.pairwise_cons.mpr ⟨by simpa using hacross x, hsorted⟩⟩
  | succ i ih =>
    obtain ⟨x, rest, rfl⟩ := List.exists_cons_of_length_eq_add_one hlength
    obtain ⟨mid, y, rfl⟩ := (List.eq_nil_or_concat' rest).resolve_left (by
      rintro rfl
      simp at hlength)
    simp only [List.length_cons, List.length_append, List.length_nil] at hlength hdepth
    have hswap : swap (x :: (mid ++ [y]) ++ sorted) 0 (i + 1) =
        some (y :: mid ++ x :: sorted) := by
      have hlast : (x :: mid ++ y :: sorted)[i + 1]? = some y :=
        getElem?_middle _ _ _ (by simp; omega)
      have hassign : assign (y :: mid ++ y :: sorted) (i + 1) x = some (y :: mid ++ x :: sorted) :=
        assign_middle _ _ _ _ (by simp; omega)
      rw [List.cons_append, List.append_assoc, List.singleton_append, ← List.cons_append, swap,
        hlast]
      simpa [assign] using hassign
    have hsame {k : ℕ} (hk : 0 < k) (hklt : k < (y :: mid).length) :
        (y :: mid)[k]? = (x :: (mid ++ [y]))[k]? := by
      obtain ⟨k, rfl⟩ := Nat.exists_eq_add_one_of_ne_zero hk.ne'
      rw [List.getElem?_cons_succ, List.getElem?_cons_succ,
        List.getElem?_append_left (by simpa using hklt)]
    have hexcept : HeapExcept comp (y :: mid) 0 0 := by
      refine ⟨fun c hc _ hne => ?_, fun c _ _ hpos => absurd hpos (Nat.lt_irrefl _)⟩
      rcases Nat.lt_or_ge c (y :: mid).length with hlt | hge
      · have hparent : parent c < c := by
          rw [parent]
          omega
        exact (hheap c hc (Nat.zero_le _)).congr
          (hsame (Nat.pos_of_ne_zero hne) (lt_trans hparent hlt)) (hsame hc hlt)
      · exact above_of_length_le hge
    have hroot : ∀ z ∈ x :: (mid ++ [y]), comp x z = false := by
      intro z hz
      obtain ⟨c, hc, rfl⟩ := List.getElem_of_mem hz
      exact hheap.root hcomp hc x rfl _ (List.getElem?_eq_getElem hc)
    have hsteps : (y :: mid).length ≤ 0 + depth := by
      rw [List.length_cons]
      omega
    obtain ⟨heap, hcall, hperm, hheap'⟩ := heapify_spec (x :: sorted) hcomp hexcept
      le_rfl (by simp) hsteps
    have hlast : (y :: mid).Perm (mid ++ [y]) := (List.perm_append_singleton y mid).symm
    have hmem {z : α} (hz : z ∈ heap) : z ∈ mid ++ [y] := hlast.mem_iff.mp (hperm.mem_iff.mp hz)
    obtain ⟨sorted', hrun, hperm', hsorted'⟩ := ih hheap'
      (List.pairwise_cons.mpr ⟨hacross x List.mem_cons_self, hsorted⟩)
      (fun z hz => List.forall_mem_cons.mpr ⟨hroot z (List.mem_cons_of_mem x (hmem hz)),
        hacross z (List.mem_cons_of_mem x (hmem hz))⟩)
      (by rw [hperm.length_eq]; simp; omega) (by rw [hperm.length_eq]; simp; omega)
    have hbound : i + 1 = (y :: mid).length := by
      rw [List.length_cons]
      omega
    refine ⟨sorted', ?_, hperm'.trans ?_, hsorted'⟩
    · rw [extractLoop, hswap]
      simp only [Option.bind_eq_bind, Option.bind_some]
      rw [hbound, hcall, Option.bind_some, hrun]
    · rw [List.cons_append]
      exact List.perm_middle.trans (((hperm.trans hlast).append_right sorted).cons x)

theorem lt_sizeRange (h : n < 2 ^ 31) : n < sizeRange :=
  Nat.lt_trans h (by norm_num [sizeRange])

private theorem toInt_half (h : n < 2 ^ 31) (hpos : 0 < n / 2) :
    toInt (sizePred (n / 2)) = ((n / 2 : ℕ) : ℤ) - 1 := by
  rw [sizePred_eq hpos (lt_sizeRange (Nat.lt_of_le_of_lt (Nat.div_le_self n 2) h)).le]
  unfold toInt
  rw [Int.bmod_eq_of_le] <;> omega

private theorem heapSort_spec (hcomp : IsComparison comp) (hsize : arr.length < 2 ^ 31)
    (hfuel : arr.length < fuel) :
    ∃ sorted, heapSort comp fuel arr = some sorted ∧ sorted.Perm arr ∧ Ordered comp sorted := by
  rw [heapSort]
  by_cases hshort : arr.length ≤ 1
  · exact ⟨arr, if_pos hshort, .refl _, ordered_of_length_le_one hshort⟩
  have hpos : 0 < arr.length / 2 := by omega
  have hhalf : HeapFrom comp arr (arr.length / 2) := heapFrom_half (by omega)
  have hstart : arr.length / 2 < fuel := by omega
  obtain ⟨heap, hbuild, hperm, hheap⟩ := buildLoop_spec hcomp hhalf (by omega) hfuel.le hstart
  have hlength : heap.length = arr.length - 1 + 1 := by
    rw [hperm.length_eq]
    omega
  have hdepth : heap.length ≤ fuel := hperm.length_eq.trans_le hfuel.le
  have hnil : Ordered comp ([] : List α) := .nil
  obtain ⟨sorted, hextract, hperm', hsorted⟩ :=
    extractLoop_spec hcomp hheap hnil (fun _ _ => nofun) hlength hdepth
  rw [List.append_nil] at hextract hperm'
  refine ⟨sorted, ?_, hperm'.trans hperm, hsorted⟩
  rw [if_neg hshort, toInt_half hsize hpos, hbuild, Option.bind_eq_bind, Option.bind_some,
    hperm.length_eq, sizePred_eq (by omega) (lt_sizeRange hsize).le, hextract]

/-! ## The sorts -/

/-- Each of the four sorts ends, stays inside the vector and leaves a permutation that is in
order. -/
theorem sorts_sort [Inhabited α] (hcomp : IsComparison comp) (hsize : arr.length < 2 ^ 31)
    (hfuel : arr.length < fuel) :
    ∀ sort ∈ [quickSort comp fuel, mergeSort comp fuel, heapSort comp fuel,
        insertionSort comp fuel],
      ∃ sorted, sort arr = some sorted ∧ sorted.Perm arr ∧ Ordered comp sorted := by
  have hsize' := lt_sizeRange hsize
  obtain ⟨merged, hmerged, hpermM, horderedM, -⟩ := mergeSort_spec hcomp hsize' hfuel
  obtain ⟨inserted, hinserted, hpermI, horderedI, -⟩ := insertionSort_spec hcomp hfuel
  have hquick := quickSort_spec hcomp hsize' hfuel
  have hheap := heapSort_spec hcomp hsize hfuel
  simp only [List.forall_mem_cons]
  exact ⟨hquick, ⟨merged, hmerged, hpermM, horderedM⟩, hheap,
    ⟨inserted, hinserted, hpermI, horderedI⟩, nofun⟩

theorem sorts_sort_five :
    List.Forall (fun sort => ∃ sorted, sort [3, 1, 2, 3, 0] = some sorted ∧
        sorted.Perm [3, 1, 2, 3, 0] ∧ Ordered (fun x y => decide (x < y)) sorted)
      [quickSort (fun x y => decide (x < y)) 6, mergeSort (fun x y => decide (x < y)) 6,
        heapSort (fun x y => decide (x < y)) 6, insertionSort (fun x y : ℕ => decide (x < y)) 6] :=
  List.forall_iff_forall_mem.mpr (sorts_sort (isComparison_lt ℕ) (by norm_num) (by decide))

end DarwinCore.Algorithm
