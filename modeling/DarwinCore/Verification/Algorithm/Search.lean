import DarwinCore.Library.StrictWeakOrder
import DarwinCore.Model.Algorithm.Search
import Mathlib.Tactic.Linarith
import Mathlib.Tactic.FieldSimp

/-! # Searching in order

The binary searches find the ends of the range of equivalent elements. The interpolation search
finds an element unless all elements equal it. -/

namespace DarwinCore.Algorithm

open StrictWeakOrder

variable {α : Type*} {comp : α → α → Bool} {arr : List α} {target x : α} {p : α → Bool}
  {fuel left right i : ℕ}

/-! ## Where a property ends -/

/-- If a property does not begin again, an element has it if it is one of the first. -/
theorem lt_countP_iff (h : arr.Pairwise fun x y => p y = true → p x = true)
    (hi : arr[i]? = some x) : p x = true ↔ i < arr.countP p := by
  induction arr generalizing i with
  | nil => simp at hi
  | cons y arr ih =>
    obtain ⟨hy, harr⟩ := List.pairwise_cons.mp h
    cases hpy : p y with
    | true =>
      rw [List.countP_cons_of_pos hpy]
      cases i with
      | zero =>
        obtain rfl : y = x := by simpa using hi
        simp [hpy]
      | succ i =>
        rw [Nat.succ_lt_succ_iff]
        exact ih harr (by simpa using hi)
    | false =>
      have hnone (z : α) (hz : z ∈ y :: arr) : ¬p z = true := by
        rcases List.mem_cons.mp hz with rfl | hz
        · simp [hpy]
        · intro hpz
          simp [hy z hz hpz] at hpy
      rw [List.countP_eq_zero.mpr hnone]
      exact iff_of_false (hnone x (List.mem_of_getElem? hi)) (Nat.not_lt_zero i)

private theorem boundLoop_eq (h : arr.Pairwise fun x y => p y = true → p x = true)
    (hleft : left ≤ arr.countP p) (hright : arr.countP p ≤ right) (hlength : right ≤ arr.length)
    (hfuel : right - left < fuel) : boundLoop p arr fuel left right = some (arr.countP p) := by
  induction fuel generalizing left right with
  | zero => omega
  | succ fuel ih =>
    rw [boundLoop]
    split_ifs with hlt
    · obtain ⟨x, hx⟩ : ∃ x, arr[left + (right - left) / 2]? = some x :=
        ⟨_, List.getElem?_eq_getElem (by omega)⟩
      have hiff := lt_countP_iff h hx
      simp only [hx]
      split_ifs with hpx
      · have hlow := hiff.mp hpx
        exact ih (by omega) hright hlength (by omega)
      · have hhigh := Nat.le_of_not_lt fun hlow => hpx (hiff.mpr hlow)
        exact ih hleft hhigh (by omega) (by omega)
    · exact congrArg some (by omega)

/-! ## The range of the equivalent elements -/

/-- What comes before the target comes first in a vector that is in order. -/
theorem pairwise_before (hcomp : IsComparison comp) (harr : Ordered comp arr) (target : α) :
    arr.Pairwise fun x y => comp y target = true → comp x target = true :=
  harr.imp fun hyx hy => hcomp.comp_of_not_of_comp hyx hy

private theorem pairwise_upTo (hcomp : IsComparison comp) (harr : Ordered comp arr) (target : α) :
    arr.Pairwise fun x y => (!comp target y) = true → (!comp target x) = true := by
  refine harr.imp fun hyx hy => ?_
  rw [Bool.not_eq_true'] at hy ⊢
  exact hcomp.not_comp_trans hyx hy

private theorem binarySearchLoop_spec {lower upper : ℕ}
    (hlower : ∀ i x, arr[i]? = some x → (comp x target = true ↔ i < lower))
    (hupper : ∀ i x, arr[i]? = some x → (comp target x = true ↔ upper ≤ i))
    (hleft : left ≤ lower) (hright : upper ≤ right) (hlength : right ≤ arr.length)
    (hfuel : right - left < fuel) :
    ∃ result, binarySearchLoop comp arr target fuel left right = some result ∧
      (∀ i, result = some i → lower ≤ i ∧ i < upper) ∧ (result = none → upper ≤ lower) := by
  induction fuel generalizing left right with
  | zero => omega
  | succ fuel ih =>
    rw [binarySearchLoop]
    split_ifs with hlt
    · obtain ⟨x, hx⟩ : ∃ x, arr[left + (right - left) / 2]? = some x :=
        ⟨_, List.getElem?_eq_getElem (by omega)⟩
      have hbefore := hlower _ x hx
      have hafter := hupper _ x hx
      simp only [hx]
      split_ifs with hless hgreater
      · have hlow := hbefore.mp hless
        exact ih (by omega) hright hlength (by omega)
      · have hhigh := hafter.mp hgreater
        exact ih hleft hhigh (by omega) (by omega)
      · refine ⟨_, rfl, fun i hi => ?_, by simp⟩
        obtain rfl := Option.some.inj hi
        exact ⟨Nat.le_of_not_lt fun h => hless (hbefore.mpr h),
          Nat.lt_of_not_le fun h => hgreater (hafter.mpr h)⟩
    · exact ⟨none, rfl, by simp, fun _ => by omega⟩

/-- The searches in a vector that is in order agree on the range of the elements that are
equivalent to the target. -/
theorem searches_delimit_equal_range (hcomp : IsComparison comp) (harr : Ordered comp arr)
    (target : α) (hfuel : arr.length < fuel) : ∃ lower upper result,
      lowerBound comp fuel arr target = some lower ∧
      upperBound comp fuel arr target = some upper ∧
      binarySearch comp fuel arr target = some result ∧
      lower = arr.countP (fun x => comp x target) ∧
      upper = arr.countP (fun x => !comp target x) ∧
      (∀ i x, arr[i]? = some x → ((lower ≤ i ∧ i < upper) ↔ equivalent comp x target = true)) ∧
      (∀ i, result = some i → lower ≤ i ∧ i < upper) ∧ (result = none ↔ upper ≤ lower) := by
  have hbefore := pairwise_before hcomp harr target
  have hupTo := pairwise_upTo hcomp harr target
  have hlower (i : ℕ) (x : α) (hx : arr[i]? = some x) := lt_countP_iff hbefore hx
  have hupper (i : ℕ) (x : α) (hx : arr[i]? = some x) :
      comp target x = true ↔ arr.countP (fun x => !comp target x) ≤ i := by
    rw [← Nat.not_lt, ← lt_countP_iff hupTo hx]
    simp
  have hlength : ∀ p : α → Bool, arr.countP p ≤ arr.length := fun p => List.countP_le_length
  obtain ⟨result, hresult, hfound, hnone⟩ : ∃ result,
      binarySearch comp fuel arr target = some result ∧
      (∀ i, result = some i → arr.countP (fun x => comp x target) ≤ i ∧
        i < arr.countP (fun x => !comp target x)) ∧
      (result = none → arr.countP (fun x => !comp target x) ≤
        arr.countP (fun x => comp x target)) := by
    unfold binarySearch
    split_ifs with hempty
    · obtain rfl := List.isEmpty_iff.mp hempty
      exact ⟨none, rfl, by simp, fun _ => le_rfl⟩
    · exact binarySearchLoop_spec hlower hupper (Nat.zero_le _) (hlength _) le_rfl (by omega)
  refine ⟨_, _, result, boundLoop_eq hbefore (Nat.zero_le _) (hlength _) le_rfl (by omega),
    boundLoop_eq hupTo (Nat.zero_le _) (hlength _) le_rfl (by omega), hresult, rfl, rfl,
    fun i x hx => ?_, hfound, hnone, fun hle => ?_⟩
  · rw [equivalent_iff, ← Nat.not_lt, ← hlower i x hx, ← Nat.not_le, ← hupper i x hx]
    simp
  · cases result with
    | none => rfl
    | some i =>
        have hi := hfound i rfl
        omega

/-- A target that occurs twice. -/
theorem searches_delimit_equal_range_twice : ∃ i,
    binarySearch (fun x y : ℕ => decide (x < y)) 5 [1, 3, 3, 7] 3 = some (some i) ∧
      1 ≤ i ∧ i < 3 := by
  have hordered : Ordered (fun x y : ℕ => decide (x < y)) [1, 3, 3, 7] := by decide
  obtain ⟨lower, upper, result, -, -, hresult, rfl, rfl, -, hfound, hnone⟩ :=
    searches_delimit_equal_range (isComparison_lt ℕ) hordered 3 (by decide : _ < 5)
  cases result with
  | none => exact absurd (hnone.mp rfl) (by decide)
  | some i => exact ⟨i, hresult, hfound i rfl⟩

/-! ## Interpolation -/

section Interpolation

variable {arr : List ℤ} {target first last x : ℤ} {pos : ℕ} {q : ℚ} {probes : List Probe}

theorem sizePred_eq {n : ℕ} (hpos : 0 < n) (hn : n ≤ sizeRange) : sizePred n = n - 1 := by
  unfold sizePred
  unfold sizeRange at *
  omega

private theorem sizeSucc_eq {n : ℕ} (hn : n + 1 < sizeRange) : sizeSucc n = n + 1 :=
  Nat.mod_eq_of_lt hn

theorem element_eq (h : arr[pos]? = some x) : element arr pos = .ok x := by
  rw [element, h]

private theorem toSize_eq (hnonneg : 0 ≤ q) (hq : ⌊q⌋ < sizeRange) : toSize q = .ok ⌊q⌋.toNat := by
  have hfloor : q.num.tdiv q.den = ⌊q⌋ := by
    rw [Rat.floor_def', Int.tdiv_eq_ediv_of_nonneg (Rat.num_nonneg.mpr hnonneg)]
  rw [toSize, hfloor]
  exact if_pos ⟨Int.floor_nonneg.mpr hnonneg, hq⟩

/-- A probe lies between the bounds, and at one of them if the target is there. -/
theorem probePosition_spec (hdiffer : first < last) (htarget : first ≤ target ∧ target ≤ last)
    (hle : left ≤ right) (hright : right < sizeRange) :
    ∃ pos, probePosition left right first last target = .ok pos ∧ left ≤ pos ∧ pos ≤ right ∧
      (target = first → pos = left) ∧ (target = last → pos = right) := by
  have hne : last - first ≠ 0 := by omega
  have hwidth : (0 : ℚ) < ((last - first : ℤ) : ℚ) := by
    exact_mod_cast (by omega : 0 < last - first)
  have hlow : (0 : ℚ) ≤ ((target - first : ℤ) : ℚ) := by
    exact_mod_cast (by omega : 0 ≤ target - first)
  have hhigh : ((target - first : ℤ) : ℚ) ≤ ((last - first : ℤ) : ℚ) := by
    exact_mod_cast (by omega : target - first ≤ last - first)
  have hspan : (0 : ℚ) ≤ (right : ℚ) - (left : ℚ) := sub_nonneg.mpr (by exact_mod_cast hle)
  have hstep : (0 : ℚ) ≤ ((right : ℚ) - (left : ℚ)) / ((last - first : ℤ) : ℚ) :=
    div_nonneg hspan hwidth.le
  have hcancel : ((right : ℚ) - (left : ℚ)) / ((last - first : ℤ) : ℚ) * ((last - first : ℤ) : ℚ) =
      (right : ℚ) - (left : ℚ) := div_mul_cancel₀ _ hwidth.ne'
  obtain ⟨q, hq⟩ : ∃ q : ℚ, q = (left : ℚ) +
      ((right : ℚ) - (left : ℚ)) / ((last - first : ℤ) : ℚ) * ((target - first : ℤ) : ℚ) :=
    ⟨_, rfl⟩
  have hqleft : ((left : ℤ) : ℚ) ≤ q := by
    have hmove := mul_nonneg hstep hlow
    push_cast
    linarith
  have hqright : q ≤ ((right : ℤ) : ℚ) := by
    have hmove := mul_le_mul_of_nonneg_left hhigh hstep
    push_cast
    linarith
  have hfloor : (left : ℤ) ≤ ⌊q⌋ := Int.le_floor.mpr hqleft
  have hfloor' : ⌊q⌋ ≤ (right : ℤ) := Int.floor_le_iff.mpr (by linarith)
  have hnonneg : (0 : ℚ) ≤ q := le_trans (by positivity) hqleft
  refine ⟨⌊q⌋.toNat, ?_, by omega, by omega, fun hfirst => ?_, fun hlast => ?_⟩
  · rw [probePosition, if_neg hne, ← hq]
    exact toSize_eq hnonneg (by omega)
  · have hend : q = ((left : ℤ) : ℚ) := by
      rw [hq, hfirst, sub_self]
      push_cast
      ring
    rw [hend, Int.floor_intCast, Int.toNat_natCast]
  · subst hlast
    have hend : q = ((right : ℤ) : ℚ) := by
      rw [hq, hcancel]
      push_cast
      ring
    rw [hend, Int.floor_intCast, Int.toNat_natCast]

/-- The probe and the bound that is next to it are in range. -/
structure Probe.Sound (arr : List ℤ) (target : ℤ) (probe : Probe) : Prop where
  inside : probe.left ≤ probe.pos ∧ probe.pos ≤ probe.right
  succ : ∀ x, arr[probe.pos]? = some x → x < target → probe.pos + 1 < sizeRange
  pred : ∀ x, arr[probe.pos]? = some x → target < x → 0 < probe.pos

/-- Where the loop stands: the target is not outside the bounds, and not at both of them. -/
structure Bracketed (arr : List ℤ) (target : ℤ) (left right : ℕ) : Prop where
  right_lt : right < arr.length
  inside : ∀ i, arr[i]? = some target → left ≤ i ∧ i ≤ right
  differ : left < right → arr[left]? = some target → arr[right]? ≠ some target

theorem le_of_ascending (harr : arr.Pairwise (· ≤ ·)) {i j : ℕ} {x y : ℤ} (hij : i ≤ j)
    (hi : arr[i]? = some x) (hj : arr[j]? = some y) : x ≤ y := by
  obtain ⟨hi', rfl⟩ := List.getElem?_eq_some_iff.mp hi
  obtain ⟨hj', rfl⟩ := List.getElem?_eq_some_iff.mp hj
  rcases Nat.lt_or_eq_of_le hij with hlt | rfl
  · exact List.pairwise_iff_getElem.mp harr i j hi' hj' hlt
  · exact le_rfl

theorem Bracketed.above (h : Bracketed arr target left right) (harr : arr.Pairwise (· ≤ ·))
    (hx : arr[pos]? = some x) (hless : x < target) (hlast : arr[right]? ≠ some target) :
    Bracketed arr target (pos + 1) right := by
  refine ⟨h.right_lt, fun i hi => ⟨?_, (h.inside i hi).2⟩, fun _ _ => hlast⟩
  refine Nat.lt_of_not_le fun hle => ?_
  have := le_of_ascending harr hle hi hx
  omega

theorem Bracketed.below (h : Bracketed arr target left right) (harr : arr.Pairwise (· ≤ ·))
    (hx : arr[pos]? = some x) (hgreater : target < x) (hright : pos ≤ right)
    (hfirst : arr[left]? ≠ some target) : Bracketed arr target left (pos - 1) := by
  have hlt := h.right_lt
  refine ⟨by omega, fun i hi => ⟨(h.inside i hi).1, ?_⟩, fun _ hleft => absurd hleft hfirst⟩
  refine Nat.le_sub_one_of_lt (Nat.lt_of_not_le fun hle => ?_)
  have := le_of_ascending harr hle hx hi
  omega

theorem Bracketed.not_mem (h : Bracketed arr target left right)
    (hout : ∀ i, left ≤ i → i ≤ right → arr[i]? ≠ some target) : target ∉ arr := by
  intro hmem
  obtain ⟨i, hi⟩ := List.mem_iff_getElem?.mp hmem
  exact hout i (h.inside i hi).1 (h.inside i hi).2 hi

/-- What a round does that looks at both ends. -/
theorem interpolationLoop_round (hle : left ≤ right) (hfirst : arr[left]? = some first)
    (hlast : arr[right]? = some last) :
    interpolationLoop arr target (fuel + 1) left right probes =
      if target < first ∨ last < target then .ok (none, probes)
      else if left = right then .ok (if first = target then some left else none, probes)
      else
        (probePosition left right first last target).bind fun pos =>
          (element arr pos).bind fun x =>
            if x = target then .ok (some pos, probes ++ [⟨left, right, pos⟩])
            else if x < target then
              interpolationLoop arr target fuel (sizeSucc pos) right
                (probes ++ [⟨left, right, pos⟩])
            else
              interpolationLoop arr target fuel left (sizePred pos)
                (probes ++ [⟨left, right, pos⟩]) := by
  rw [interpolationLoop, if_neg (Nat.not_lt.mpr hle), element_eq hfirst, element_eq hlast]
  by_cases hbelow : target < first
  · simp [hbelow, bind, Except.bind]
  · simp [hbelow, bind, Except.bind]

def Answers (arr : List ℤ) (target : ℤ) (outcome : Except SearchFault (Option ℕ × List Probe)) :
    Prop :=
  ∃ result probes, outcome = .ok (result, probes) ∧
    (∀ probe ∈ probes, probe.Sound arr target) ∧
    (∀ i, result = some i → arr[i]? = some target) ∧ (result = none → target ∉ arr)

private theorem interpolationLoop_spec (harr : arr.Pairwise (· ≤ ·))
    (hsize : arr.length < sizeRange)
    (h : Bracketed arr target left right) (hprobes : ∀ probe ∈ probes, probe.Sound arr target)
    (hfuel : right + 1 - left < fuel) :
    Answers arr target (interpolationLoop arr target fuel left right probes) := by
  induction fuel generalizing left right probes with
  | zero => omega
  | succ fuel ih =>
    have hright := h.right_lt
    by_cases hover : right < left
    · rw [interpolationLoop, if_pos hover]
      exact ⟨none, probes, rfl, hprobes, by simp, fun _ => h.not_mem fun i hl hr => by omega⟩
    obtain ⟨first, hfirst⟩ : ∃ first, arr[left]? = some first :=
      ⟨_, List.getElem?_eq_getElem (by omega)⟩
    obtain ⟨last, hlast⟩ : ∃ last, arr[right]? = some last :=
      ⟨_, List.getElem?_eq_getElem hright⟩
    rw [interpolationLoop_round (Nat.le_of_not_lt hover) hfirst hlast]
    by_cases hout : target < first ∨ last < target
    · rw [if_pos hout]
      refine ⟨none, probes, rfl, hprobes, by simp, fun _ => h.not_mem fun i hl hr hi => ?_⟩
      have hle := le_of_ascending harr hl hfirst hi
      have hle' := le_of_ascending harr hr hi hlast
      omega
    rw [if_neg hout]
    by_cases hsingle : left = right
    · subst hsingle
      rw [if_pos rfl]
      refine ⟨_, probes, rfl, hprobes, fun i hi => ?_, fun hnone => h.not_mem fun i hl hr hi => ?_⟩
      · split_ifs at hi with heq
        obtain rfl := Option.some.inj hi
        rwa [heq] at hfirst
      · split_ifs at hnone with heq
        obtain rfl : left = i := by omega
        exact heq (Option.some.inj (hfirst.symm.trans hi))
    rw [if_neg hsingle]
    have hordered := le_of_ascending harr (Nat.le_of_not_lt hover) hfirst hlast
    have hdiffer : first < last := by
      refine lt_of_le_of_ne hordered fun heq => ?_
      obtain rfl : first = target := by omega
      exact h.differ (by omega) hfirst (heq ▸ hlast)
    obtain ⟨pos, hpos, hlow, hhigh, hatFirst, hatLast⟩ :=
      probePosition_spec hdiffer (by omega : first ≤ target ∧ target ≤ last)
        (Nat.le_of_not_lt hover) (by omega)
    obtain ⟨x, hx⟩ : ∃ x, arr[pos]? = some x := ⟨_, List.getElem?_eq_getElem (by omega)⟩
    have hend : x ≠ target → arr[left]? ≠ some target ∧ arr[right]? ≠ some target := by
      intro hne
      constructor
      · intro hleft
        obtain rfl := hatFirst (Option.some.inj (hleft.symm.trans hfirst))
        exact hne (Option.some.inj (hx.symm.trans hleft))
      · intro hright
        obtain rfl := hatLast (Option.some.inj (hright.symm.trans hlast))
        exact hne (Option.some.inj (hx.symm.trans hright))
    have hpositive : target < x → 0 < pos := by
      intro hgreater
      refine Nat.pos_of_ne_zero fun hzero => ?_
      have hle := le_of_ascending harr (show pos ≤ left by omega) hx hfirst
      omega
    have hsound : (⟨left, right, pos⟩ : Probe).Sound arr target := by
      refine ⟨⟨hlow, hhigh⟩, fun _ _ _ => by simp only; omega, fun y hy hgreater => ?_⟩
      exact hpositive (by rwa [Option.some.inj (hx.symm.trans hy)])
    have hprobes' : ∀ probe ∈ probes ++ [⟨left, right, pos⟩], probe.Sound arr target :=
      List.forall_mem_append.mpr ⟨hprobes, List.forall_mem_singleton.mpr hsound⟩
    rw [hpos, Except.bind, element_eq hx, Except.bind]
    split_ifs with heq hless
    · exact ⟨some pos, _, rfl, hprobes', fun i hi => by rw [← Option.some.inj hi, hx, heq],
        by simp⟩
    · rw [sizeSucc_eq (by omega)]
      exact ih (h.above harr hx hless (hend heq).2) hprobes' (by omega)
    · have hgreater : target < x := lt_of_le_of_ne (Int.not_lt.mp hless) (Ne.symm heq)
      rw [sizePred_eq (hpositive hgreater) (by omega)]
      exact ih (h.below harr hx hgreater hhigh (hend heq).1) hprobes'
        (by have := hpositive hgreater; omega)

theorem interpolationLoop_flat (hlt : left < right) (hleft : arr[left]? = some target)
    (hright : arr[right]? = some target) :
    interpolationLoop arr target (fuel + 1) left right probes = .error .divisionByZero := by
  rw [interpolationLoop_round hlt.le hleft hright, if_neg (by simp), if_neg hlt.ne, probePosition,
    if_pos (Int.sub_self target)]
  rfl

/-- The interpolation search divides by zero if the target is both the first and the last of
several elements; otherwise it is right. -/
theorem interpolationSearch_answers_iff (harr : arr.Pairwise (· ≤ ·))
    (hsize : arr.length < sizeRange) (hfuel : arr.length < fuel) :
    Answers arr target (interpolationSearch fuel arr target) ↔
      ¬(2 ≤ arr.length ∧ arr.head? = some target ∧ arr.getLast? = some target) := by
  unfold interpolationSearch
  by_cases hempty : arr = []
  · subst hempty
    simp [Answers]
  have hpos : 0 < arr.length := List.length_pos_iff.mpr hempty
  rw [if_neg (by simpa using hempty), sizePred_eq hpos hsize.le, List.head?_eq_getElem?,
    List.getLast?_eq_getElem?]
  constructor
  · rintro ⟨result, probes, hresult, -⟩ ⟨htwo, hfirst, hlast⟩
    obtain ⟨fuel, rfl⟩ : ∃ n, fuel = n + 1 := ⟨fuel - 1, by omega⟩
    rw [interpolationLoop_flat (by omega) hfirst hlast] at hresult
    cases hresult
  · intro hends
    refine interpolationLoop_spec harr hsize ⟨by omega, fun i hi => ?_, fun hlt hfirst hlast => ?_⟩
      (by simp) (by omega)
    · obtain ⟨hi, -⟩ := List.getElem?_eq_some_iff.mp hi
      omega
    · exact hends ⟨by omega, hfirst, hlast⟩

/-- A target between the elements. -/
theorem interpolationSearch_answers_between :
    Answers [2, 4, 4, 9] 4 (interpolationSearch 5 [2, 4, 4, 9] 4) :=
  (interpolationSearch_answers_iff (by decide) (by decide) (by decide)).mpr (by decide)

/-- Two equal elements. -/
theorem interpolationSearch_divides_by_zero : [5, 5].Pairwise (· ≤ · : ℤ → ℤ → Prop) ∧
    ∀ fuel, ¬Answers [5, 5] 5 (interpolationSearch fuel [5, 5] 5) := by
  refine ⟨by decide, fun fuel => ?_⟩
  rintro ⟨result, probes, hresult, -⟩
  cases fuel with
  | zero => cases hresult
  | succ fuel =>
      have hloop : interpolationSearch (fuel + 1) [5, 5] 5 =
          interpolationLoop [5, 5] 5 (fuel + 1) 0 1 [] := rfl
      rw [hloop, interpolationLoop_flat Nat.zero_lt_one rfl rfl] at hresult
      cases hresult

end Interpolation

end DarwinCore.Algorithm
