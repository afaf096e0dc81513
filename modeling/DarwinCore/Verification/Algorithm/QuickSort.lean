import DarwinCore.Model.Algorithm.Sort
import DarwinCore.Verification.Algorithm.Search
import Mathlib.Data.List.Induction

/-! # `insertionSort` and `quickSort` -/

namespace DarwinCore.Algorithm

open StrictWeakOrder

variable {α : Type} {comp : α → α → Bool} {xs front back rest : List α} {x y key : α}
  {i j fuel : ℕ}

/-! ## Positions -/

theorem getElem?_middle (front back : List α) (x : α) (h : i = front.length) :
    (front ++ x :: back)[i]? = some x := by
  subst h
  simp

theorem assign_middle (front back : List α) (x y : α) (h : i = front.length) :
    assign (front ++ x :: back) i y = some (front ++ y :: back) := by
  subst h
  rw [assign, if_pos (by simp)]
  simp

/-- An element that changes places with the first of those in front of it. -/
theorem swap_front (front xs back : List α) (x : α) (hi : i = front.length)
    (hj : j = front.length + xs.length) :
    ∃ xs', xs'.Perm xs ∧
      swap (front ++ xs ++ x :: back) i j = some (front ++ x :: (xs' ++ back)) := by
  have hx : (front ++ xs ++ x :: back)[j]? = some x := getElem?_middle _ _ _ (by simpa using hj)
  cases xs with
  | nil =>
    rw [List.append_nil, List.length_nil, Nat.add_zero] at *
    obtain rfl : i = j := hi.trans hj.symm
    refine ⟨[], .refl _, ?_⟩
    simp [swap, hx, assign_middle _ _ _ _ hi]
  | cons z xs =>
    refine ⟨xs ++ [z], List.perm_append_singleton z xs, ?_⟩
    rw [swap, hx]
    rw [List.append_assoc, List.cons_append, getElem?_middle _ _ _ hi]
    simp only [Option.bind_eq_bind, Option.bind_some, assign_middle _ _ _ _ hi]
    have hregroup : front ++ x :: (xs ++ x :: back) = front ++ x :: xs ++ x :: back := by simp
    rw [hregroup, assign_middle _ _ _ _ (by simpa using hj)]
    simp

/-! ## The inner loop -/

/-- The key goes behind those of the elements in front of it that it does not come before. -/
theorem insertLoop_spec (key x : α) (rest : List α) (hcomp : IsComparison comp)
    (hxs : Ordered comp xs) :
    ∃ front back, front ++ back = xs ∧ (∀ y ∈ front, comp key y = false) ∧
      (∀ y ∈ back, comp key y = true) ∧
      insertLoop comp key (xs ++ x :: rest) xs.length = some (front ++ key :: back ++ rest) := by
  induction xs using List.reverseRecOn generalizing x rest with
  | nil => exact ⟨[], [], rfl, nofun, nofun, rfl⟩
  | append_singleton xs y ih =>
    have hget : (xs ++ [y] ++ x :: rest)[xs.length]? = some y := by simp
    have hassign (z : α) : assign (xs ++ [y] ++ x :: rest) (xs.length + 1) z =
        some (xs ++ [y] ++ z :: rest) := assign_middle _ _ _ _ (by simp)
    rw [List.length_append, List.length_singleton, insertLoop, hget]
    simp only [Option.bind_eq_bind, Option.bind_some, hassign]
    by_cases hkey : comp key y = true
    · obtain ⟨front, back, rfl, hfront, hback, hrun⟩ :=
        ih y (y :: rest) (List.pairwise_append.mp hxs).1
      refine ⟨front, back ++ [y], by simp, hfront, ?_, ?_⟩
      · exact List.forall_mem_append.mpr ⟨hback, by simpa using hkey⟩
      · simpa [hkey] using hrun
    · refine ⟨xs ++ [y], [], by simp, ?_, nofun, by simp [hkey]⟩
      rw [Bool.not_eq_true] at hkey
      refine List.forall_mem_append.mpr ⟨fun z hz => ?_, by simpa using hkey⟩
      exact hcomp.not_comp_trans ((List.pairwise_append.mp hxs).2.2 z hz y (by simp)) hkey

/-! ## The sort -/

/-- The loop keeps what it has passed in order, equivalent elements as they stood. -/
theorem insertionSortLoop_spec (hcomp : IsComparison comp) (hxs : Ordered comp xs)
    (hfuel : rest.length < fuel) :
    ∃ sorted, insertionSortLoop comp fuel (xs ++ rest) xs.length = some sorted ∧
      sorted.Perm (xs ++ rest) ∧ Ordered comp sorted ∧
      ∀ a, sorted.filter (equivalent comp a) = (xs ++ rest).filter (equivalent comp a) := by
  induction rest generalizing fuel xs with
  | nil =>
    obtain ⟨fuel, rfl⟩ := Nat.exists_eq_add_one_of_ne_zero (Nat.ne_zero_of_lt hfuel)
    rw [List.append_nil]
    exact ⟨xs, by simp [insertionSortLoop], .refl _, hxs, fun _ => rfl⟩
  | cons key rest ih =>
    obtain ⟨fuel, rfl⟩ := Nat.exists_eq_add_one_of_ne_zero (Nat.ne_zero_of_lt hfuel)
    obtain ⟨front, back, rfl, hfront, hback, hrun⟩ :=
      insertLoop_spec key key rest hcomp hxs
    obtain ⟨sorted, hsorted, hperm, hordered, hfilter⟩ :=
      ih (hcomp.ordered_insert hxs hfront hback) (Nat.lt_of_succ_lt_succ hfuel)
    have hlength : (front ++ key :: back).length = (front ++ back).length + 1 := by
      simp [Nat.add_assoc]
    rw [hlength] at hsorted
    have hget : (front ++ back ++ key :: rest)[(front ++ back).length]? = some key :=
      getElem?_middle _ _ _ rfl
    refine ⟨sorted, ?_, ?_, hordered, fun a => ?_⟩
    · rw [insertionSortLoop, if_pos (by simp), hget]
      simp only [Option.bind_eq_bind, Option.bind_some, hrun, hsorted]
    · refine hperm.trans ?_
      rw [List.append_assoc, List.append_assoc]
      exact List.perm_middle.symm.append_left front
    · rw [hfilter a, List.filter_append, hcomp.filter_insert hback a, ← List.filter_append]
      simp

theorem insertionSort_spec (hcomp : IsComparison comp) {arr : List α} (hfuel : arr.length < fuel) :
    ∃ sorted, insertionSort comp fuel arr = some sorted ∧ sorted.Perm arr ∧
      Ordered comp sorted ∧
      ∀ a, sorted.filter (equivalent comp a) = arr.filter (equivalent comp a) := by
  cases arr with
  | nil =>
    obtain ⟨fuel, rfl⟩ := Nat.exists_eq_add_one_of_ne_zero (Nat.ne_zero_of_lt hfuel)
    exact ⟨[], rfl, .refl _, .nil, fun _ => rfl⟩
  | cons x rest =>
    have hone : Ordered comp [x] := List.pairwise_singleton _ x
    exact insertionSortLoop_spec hcomp hone (Nat.lt_of_succ_lt hfuel)

/-! ## `quickSort` -/

variable {pre post seg lows highs todo : List α} {pivot : α} {right : ℕ}

/-! ### The partition -/

/-- The loop has the elements that come before the pivot in front of those that do not. -/
theorem partitionLoop_spec (comp : α → α → Bool) (pivot : α) (pre lows highs todo post : List α)
    (hi : i = (pre ++ lows).length) (hj : j = (pre ++ lows ++ highs).length)
    (hright : right = (pre ++ lows ++ highs ++ todo).length) (hfuel : todo.length < fuel)
    (hlows : ∀ x ∈ lows, comp x pivot = true) (hhighs : ∀ x ∈ highs, comp x pivot = false) :
    ∃ lows' highs', (lows' ++ highs').Perm (lows ++ highs ++ todo) ∧
      (∀ x ∈ lows', comp x pivot = true) ∧ (∀ x ∈ highs', comp x pivot = false) ∧
      partitionLoop comp pivot right fuel (pre ++ lows ++ highs ++ (todo ++ post)) i j =
        some (pre ++ lows' ++ (highs' ++ post), (pre ++ lows').length) := by
  induction fuel generalizing i j lows highs todo with
  | zero => exact absurd hfuel (Nat.not_lt_zero _)
  | succ fuel ih =>
    cases todo with
    | nil =>
      refine ⟨lows, highs, by simp, hlows, hhighs, ?_⟩
      rw [partitionLoop, if_neg (by simp [hj, hright]), hi]
      simp
    | cons x todo =>
      have hget : (pre ++ lows ++ highs ++ (x :: todo ++ post))[j]? = some x :=
        getElem?_middle _ _ _ hj
      rw [partitionLoop, if_pos (by simp [hj, hright]), hget]
      simp only [Option.bind_eq_bind, Option.bind_some]
      by_cases hx : comp x pivot = true
      · rw [if_pos hx]
        obtain ⟨moved, hmoved, hswap⟩ := swap_front (pre ++ lows) highs (todo ++ post) x hi
          (j := j) (by simpa [hi, Nat.add_assoc] using hj)
        obtain ⟨lows', highs', hperm, hlows', hhighs', hrun⟩ :=
          ih (lows ++ [x]) moved todo (i := i + 1) (j := j + 1)
            (by simp [hi, Nat.add_assoc]) (by simp [hj, hmoved.length_eq]; omega)
            (by simp [hright, hmoved.length_eq]; omega) (Nat.lt_of_succ_lt_succ hfuel)
            (List.forall_mem_append.mpr ⟨hlows, by simpa using hx⟩)
            fun y hy => hhighs y (hmoved.mem_iff.mp hy)
        refine ⟨lows', highs', hperm.trans ?_, hlows', hhighs', ?_⟩
        · rw [List.append_assoc, List.append_assoc, List.append_assoc]
          refine List.Perm.append_left lows ?_
          exact (List.Perm.cons x (hmoved.append_right todo)).trans List.perm_middle.symm
        · rw [List.cons_append, hswap, Option.bind_some, ← hrun]
          simp
      · rw [if_neg hx]
        rw [Bool.not_eq_true] at hx
        obtain ⟨lows', highs', hperm, hlows', hhighs', hrun⟩ :=
          ih lows (highs ++ [x]) todo (j := j + 1) hi
            (by simp [hj, Nat.add_assoc]) (by simp [hright])
            (Nat.lt_of_succ_lt_succ hfuel) hlows
            (List.forall_mem_append.mpr ⟨hhighs, by simpa using hx⟩)
        refine ⟨lows', highs', by simpa using hperm, hlows', hhighs', ?_⟩
        rw [← hrun]
        simp

private theorem partition_spec (comp : α → α → Bool) (pre seg post : List α) (pivot : α)
    (hright : right = (pre ++ seg).length) (hfuel : seg.length < fuel) :
    ∃ lows highs, (lows ++ highs).Perm seg ∧ (∀ x ∈ lows, comp x pivot = true) ∧
      (∀ x ∈ highs, comp x pivot = false) ∧
      partition comp fuel (pre ++ seg ++ pivot :: post) pre.length right =
        some (pre ++ lows ++ pivot :: (highs ++ post), (pre ++ lows).length) := by
  have hseg : right = (pre ++ [] ++ [] ++ seg).length := by simpa using hright
  obtain ⟨lows, highs, hperm, hlows, hhighs, hrun⟩ :=
    partitionLoop_spec comp pivot pre [] [] seg (pivot :: post) (i := pre.length)
      (j := pre.length) (by simp) (by simp) hseg hfuel nofun nofun
  have hlength := hperm.length_eq
  simp only [List.length_append, List.nil_append] at hlength
  have hend : right = (pre ++ lows).length + highs.length := by
    simp only [hright, List.length_append]
    omega
  obtain ⟨moved, hmoved, hswap⟩ := swap_front (pre ++ lows) highs post pivot rfl hend
  refine ⟨lows, moved, (hmoved.append_left lows).trans hperm, hlows,
    fun x hx => hhighs x (hmoved.mem_iff.mp hx), ?_⟩
  have hget : (pre ++ seg ++ pivot :: post)[right]? = some pivot := getElem?_middle _ _ _ hright
  simp only [List.append_nil] at hrun
  rw [← List.append_assoc, ← List.append_assoc (pre ++ lows)] at hrun
  rw [partition, hget]
  simp only [Option.bind_eq_bind, Option.bind_some, hrun, hswap]
  rfl

/-! ### The sort -/

private theorem ordered_partition (hcomp : IsComparison comp) {sortedLows sortedHighs : List α}
    (hsortedLows : Ordered comp sortedLows) (hsortedHighs : Ordered comp sortedHighs)
    (hlows : ∀ x ∈ sortedLows, comp x pivot = true)
    (hhighs : ∀ x ∈ sortedHighs, comp x pivot = false) :
    Ordered comp (sortedLows ++ pivot :: sortedHighs) := by
  refine List.pairwise_append.mpr ⟨hsortedLows, List.pairwise_cons.mpr ⟨hhighs, hsortedHighs⟩,
    fun x hx y hy => ?_⟩
  rcases List.mem_cons.mp hy with rfl | hy
  · exact hcomp.asymm (hlows x hx)
  · exact hcomp.asymm (hcomp.comp_of_comp_of_not (hlows x hx) (hhighs y hy))

/-- A call sorts its segment and leaves the others as they are. -/
private theorem quickSortImpl_spec (pre seg post : List α) (hcomp : IsComparison comp)
    (hright : right + 1 = (pre ++ seg).length) (hsize : (pre ++ seg).length < sizeRange)
    (hfuel : seg.length ≤ fuel) (hpos : 0 < fuel) :
    ∃ sorted, quickSortImpl comp fuel (pre ++ seg ++ post) pre.length right =
        some (pre ++ sorted ++ post) ∧ sorted.Perm seg ∧ Ordered comp sorted := by
  induction fuel generalizing pre seg post right with
  | zero => exact absurd hpos (Nat.lt_irrefl _)
  | succ fuel ih =>
    rw [quickSortImpl]
    by_cases hshort : seg.length ≤ 1
    · rw [List.length_append] at hright
      exact ⟨seg, if_pos (by omega), .refl _, ordered_of_length_le_one hshort⟩
    obtain ⟨seg, pivot, rfl⟩ := List.eq_nil_or_concat' seg |>.resolve_left (by
      rintro rfl
      simp at hshort)
    simp only [List.length_append, List.length_singleton] at hright hsize hfuel hshort
    rw [if_neg (by omega)]
    have hlast : right = (pre ++ seg).length := by simp; omega
    obtain ⟨lows, highs, hperm, hlows, hhighs, hpartition⟩ :=
      partition_spec comp pre seg post pivot hlast (by omega : seg.length < fuel + 1)
    have hlength := hperm.length_eq
    rw [List.length_append] at hlength
    have hregroup : pre ++ (seg ++ [pivot]) ++ post = pre ++ seg ++ pivot :: post := by simp
    rw [hregroup, hpartition]
    simp only [Option.bind_eq_bind, Option.bind_some]
    -- the left call, which is left out where the pivot is the first element of the vector
    obtain ⟨sortedLows, hleft, hpermLows, hsortedLows⟩ : ∃ sortedLows,
        (if (pre ++ lows).length > 0 then
          quickSortImpl comp fuel (pre ++ lows ++ pivot :: (highs ++ post)) pre.length
            (sizePred (pre ++ lows).length)
        else some (pre ++ lows ++ pivot :: (highs ++ post))) =
          some (pre ++ sortedLows ++ pivot :: (highs ++ post)) ∧ sortedLows.Perm lows ∧
            Ordered comp sortedLows := by
      by_cases hfirst : (pre ++ lows).length > 0
      · rw [if_pos hfirst, sizePred_eq hfirst (by simp; omega)]
        exact ih pre lows _ (by omega) (by simp; omega) (by omega) (by omega)
      · rw [if_neg hfirst]
        have hempty : lows = [] := by simp at hfirst; exact hfirst.2
        exact ⟨lows, rfl, .refl _, hempty ▸ .nil⟩
    rw [hleft, Option.bind_some]
    have hend : right + 1 = (pre ++ sortedLows ++ [pivot] ++ highs).length := by
      simp [hpermLows.length_eq]
      omega
    obtain ⟨sortedHighs, hrun, hpermHighs, hsortedHighs⟩ :=
      ih (pre ++ sortedLows ++ [pivot]) highs post hend
        (by simp [hpermLows.length_eq]; omega) (by omega) (by omega)
    refine ⟨sortedLows ++ pivot :: sortedHighs, ?_, ?_, ?_⟩
    · have hstart : (pre ++ lows).length + 1 = (pre ++ sortedLows ++ [pivot]).length := by
        simp [hpermLows.length_eq, Nat.add_assoc]
      rw [hstart]
      simpa using hrun
    · refine List.perm_middle.trans (List.Perm.trans ?_ (List.perm_append_singleton pivot seg).symm)
      exact ((hpermLows.append hpermHighs).trans hperm).cons pivot
    · exact ordered_partition hcomp hsortedLows hsortedHighs
        (fun x hx => hlows x (hpermLows.mem_iff.mp hx))
        fun x hx => hhighs x (hpermHighs.mem_iff.mp hx)

theorem quickSort_spec (hcomp : IsComparison comp) {arr : List α} (hsize : arr.length < sizeRange)
    (hfuel : arr.length < fuel) :
    ∃ sorted, quickSort comp fuel arr = some sorted ∧ sorted.Perm arr ∧ Ordered comp sorted := by
  rw [quickSort]
  by_cases hshort : arr.length ≤ 1
  · exact ⟨arr, if_pos hshort, .refl _, ordered_of_length_le_one hshort⟩
  · rw [if_neg hshort, sizePred_eq (by omega) hsize.le]
    have hend : arr.length - 1 + 1 = ([] ++ arr).length := by simp; omega
    obtain ⟨sorted, hrun, hperm, hordered⟩ :=
      quickSortImpl_spec [] arr [] hcomp hend hsize hfuel.le (by omega)
    exact ⟨sorted, by simpa using hrun, hperm, hordered⟩

end DarwinCore.Algorithm
