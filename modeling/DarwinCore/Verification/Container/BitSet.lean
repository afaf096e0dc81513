import DarwinCore.Library.TransitionSystem
import DarwinCore.Model.Container.BitSet
import Mathlib.Data.Finset.SymmDiff
import Mathlib.Data.Finset.Sort

/-! # Bit sets

A bit set is a finite set of positions below its size. -/

namespace DarwinCore.Container

open WordArray

/-! ## Sets of positions -/

structure Positions where
  size : ℕ
  members : Finset ℕ
  below : ∀ pos ∈ members, pos < size

namespace Positions

def restrict (size : ℕ) (members : Finset ℕ) : Positions where
  size := size
  members := members.filter (· < size)
  below _ hpos := (Finset.mem_filter.mp hpos).2

def change (pos : ℕ) (f : Finset ℕ → Finset ℕ) (s : Positions) : Except String Unit × Positions :=
  if pos < s.size then (.ok (), restrict s.size (f s.members))
  else (.error "BitSet index out of range", s)

def set (pos : ℕ) (value : Bool) : Positions → Except String Unit × Positions :=
  change pos fun members => if value then insert pos members else members.erase pos

def flip (pos : ℕ) : Positions → Except String Unit × Positions :=
  change pos fun members => symmDiff members {pos}

def flipAll (s : Positions) : Positions :=
  restrict s.size (Finset.range s.size \ s.members)

def setAll (s : Positions) : Positions :=
  restrict s.size (Finset.range s.size)

def reset (s : Positions) : Positions :=
  restrict s.size ∅

def resize (newSize : ℕ) (s : Positions) : Positions :=
  restrict newSize s.members

def combine (op : Finset ℕ → Finset ℕ → Finset ℕ) (s other : Positions) : Positions :=
  restrict (max s.size other.size) (op s.members other.members)

theorem mem_restrict {size pos : ℕ} {members : Finset ℕ} :
    pos ∈ (restrict size members).members ↔ pos < size ∧ pos ∈ members := by
  rw [restrict, Finset.mem_filter, and_comm]

end Positions

def BitSetCall.spec {ι : Type*} [DecidableEq ι] (sets : ι → Positions) :
    BitSetCall ι → Except String Unit × (ι → Positions)
  | construct i size => (.ok (), Function.update sets i (.restrict size ∅))
  | set i pos value => ((sets i).set pos value).map id (Function.update sets i)
  | flip i pos => ((sets i).flip pos).map id (Function.update sets i)
  | flipAll i => (.ok (), Function.update sets i (sets i).flipAll)
  | setAll i => (.ok (), Function.update sets i (sets i).setAll)
  | reset i => (.ok (), Function.update sets i (sets i).reset)
  | resize i newSize => (.ok (), Function.update sets i ((sets i).resize newSize))
  | and i j k => (.ok (), Function.update sets k ((sets i).combine (· ∩ ·) (sets j)))
  | or i j k => (.ok (), Function.update sets k ((sets i).combine (· ∪ ·) (sets j)))
  | xor i j k => (.ok (), Function.update sets k ((sets i).combine symmDiff (sets j)))

/-! ## What a bit set represents -/

structure BitSet.Represents (b : BitSet) (s : Positions) : Prop where
  size : b.size = s.size
  bounded : b.size < 2 ^ 64 - 64
  words : b.bits.length = (b.size + 63) / 64
  bits : ∀ j, bitAt b.bits j = decide (j ∈ s.members)

namespace BitSet

variable {b other : BitSet} {s t : Positions} {pos : ℕ}

theorem wordCount_eq {size : ℕ} (h : size < 2 ^ 64 - 64) : wordCount size = (size + 63) / 64 := by
  rw [wordCount]
  omega

theorem assign_of_size_le (h : b.size ≤ pos) (f : BitVec 64 → BitVec 64) :
    b.assign pos f = (.error "BitSet index out of range", b) := by
  rw [assign, checkBounds, if_pos h]

theorem ofSize_represents {size : ℕ} (h : size < 2 ^ 64 - 64) :
    (ofSize size).Represents (.restrict size ∅) where
  size := rfl
  bounded := h
  words := by
    rw [ofSize, List.length_replicate]
    exact wordCount_eq h
  bits j := by
    rw [ofSize, bitAt_replicate_zero, eq_comm, decide_eq_false_iff_not, Positions.mem_restrict]
    simp

namespace Represents

theorem assign (h : b.Represents s) {f : BitVec 64 → BitVec 64} {g : Finset ℕ → Finset ℕ}
    (hbits : pos < b.size → ∀ j, bitAt (b.bits.modify (pos / 64) f) j =
      decide (j < s.size ∧ j ∈ g s.members)) :
    (b.assign pos f).1 = (s.change pos g).1 ∧ (b.assign pos f).2.Represents (s.change pos g).2 := by
  rw [BitSet.assign, checkBounds, Positions.change]
  by_cases hpos : pos < s.size
  · have hin : pos < b.size := h.size ▸ hpos
    rw [if_neg (Nat.not_le_of_lt hin), if_pos hpos]
    refine ⟨rfl, h.size, h.bounded, ?_, fun j => ?_⟩
    · exact (List.length_modify ..).trans h.words
    · rw [hbits hin]
      exact decide_eq_decide.mpr Positions.mem_restrict.symm
  · rw [if_pos (h.size ▸ Nat.le_of_not_lt hpos), if_neg hpos]
    exact ⟨rfl, h⟩

theorem word_lt (h : b.Represents s) (hpos : pos < b.size) : pos / 64 < b.bits.length := by
  rw [h.words]
  omega

theorem set (h : b.Represents s) (pos : ℕ) (value : Bool) :
    (b.set pos value).1 = (s.set pos value).1 ∧
      (b.set pos value).2.Represents (s.set pos value).2 := by
  have hbelow (j : ℕ) : j ∈ s.members → j < s.size := s.below j
  cases value with
  | true =>
    refine h.assign fun hpos j => ?_
    rw [bitAt_insert (h.word_lt hpos) (by decide), h.bits]
    rw [h.size] at hpos
    by_cases hj : j = pos
    · simp [hj, hpos]
    · simpa [hj] using hbelow j
  | false =>
    refine h.assign fun hpos j => ?_
    rw [bitAt_remove (h.word_lt hpos) (by decide), h.bits]
    by_cases hj : j = pos
    · simp [hj]
    · simpa [hj] using hbelow j

theorem flip (h : b.Represents s) (pos : ℕ) :
    (b.flip pos).1 = (s.flip pos).1 ∧ (b.flip pos).2.Represents (s.flip pos).2 := by
  refine h.assign fun hpos j => ?_
  rw [bitAt_toggle (h.word_lt hpos) (by decide), h.bits]
  rw [h.size] at hpos
  by_cases hj : j = pos
  · simp [hj, hpos, Finset.mem_symmDiff]
  · simpa [hj, Finset.mem_symmDiff] using s.below j

/-- The bits beyond the size are cleared. -/
theorem clear {size : ℕ} {bits : List (BitVec 64)} {members : Finset ℕ}
    (hbounded : size < 2 ^ 64 - 64) (hwords : bits.length = (size + 63) / 64)
    (hbits : ∀ j < size, bitAt bits j = decide (j ∈ members)) :
    (clearUnusedBits ⟨size, bits⟩).Represents (.restrict size members) := by
  have hmember (j : ℕ) : decide (j ∈ (Positions.restrict size members).members) =
      (decide (j < size) && decide (j ∈ members)) := by
    rw [← Bool.decide_and]
    exact decide_eq_decide.mpr Positions.mem_restrict
  have hmasked (j : ℕ) : (decide (j < size) && bitAt bits j) =
      decide (j ∈ (Positions.restrict size members).members) := by
    rw [hmember]
    by_cases hj : j < size
    · rw [hbits j hj]
    · rw [decide_eq_false hj, Bool.false_and, Bool.false_and]
  rw [clearUnusedBits]
  by_cases hfull : size % 64 ≠ 0
  · have hlength : bits.length = size / 64 + 1 := by omega
    have hnonempty : bits ≠ [] := List.ne_nil_of_length_eq_add_one hlength
    rw [if_pos ⟨hfull, hnonempty⟩]
    refine ⟨rfl, hbounded, (List.length_modify ..).trans hwords, fun j => ?_⟩
    exact (bitAt_mask (by decide) hlength).trans (hmasked j)
  · rw [if_neg fun hboth => hfull hboth.1]
    refine ⟨rfl, hbounded, hwords, fun j => (?_ : bitAt bits j = _).trans (hmasked j)⟩
    by_cases hj : j < size
    · rw [decide_eq_true hj, Bool.true_and]
    · rw [decide_eq_false hj, Bool.false_and]
      exact bitAt_of_length_le (by omega)

theorem flipAll (h : b.Represents s) : b.flipAll.Represents s.flipAll := by
  rw [BitSet.flipAll, Positions.flipAll, ← h.size]
  refine clear h.bounded ((List.length_map _).trans h.words) fun j hj => ?_
  have hword := h.word_lt hj
  have hbit := h.bits j
  rw [bitAt_of_getElem hword] at hbit
  rw [bitAt_map hword, BitVec.getLsbD_not, hbit, decide_eq_true (Nat.mod_lt j (by decide))]
  simp [hj]

theorem setAll (h : b.Represents s) : b.setAll.Represents s.setAll := by
  rw [BitSet.setAll, Positions.setAll, ← h.size]
  refine clear h.bounded ((List.length_map _).trans h.words) fun j hj => ?_
  rw [bitAt_map (h.word_lt hj), BitVec.getLsbD_not, decide_eq_true (Nat.mod_lt j (by decide))]
  simp [hj]

theorem reset (h : b.Represents s) : b.reset.Represents s.reset where
  size := h.size
  bounded := h.bounded
  words := (List.length_map _).trans h.words
  bits j := by
    have hzero : b.reset.bits = List.replicate b.bits.length 0 := List.map_const' ..
    rw [hzero, bitAt_replicate_zero, eq_comm, decide_eq_false_iff_not, Positions.reset,
      Positions.mem_restrict]
    simp

theorem bitAt_of_size_le (h : b.Represents s) {j : ℕ} (hj : b.size ≤ j) :
    bitAt b.bits j = false := by
  rw [h.bits, decide_eq_false_iff_not]
  intro hmem
  have hlt := s.below j hmem
  rw [← h.size] at hlt
  exact absurd hj (Nat.not_le_of_lt hlt)

/-- Shrinking keeps the positions below the new size, and growing adds none. -/
theorem resize (h : b.Represents s) {newSize : ℕ} (hbounded : newSize < 2 ^ 64 - 64) :
    (b.resize newSize).Represents (s.resize newSize) := by
  have hcount : wordCount newSize = (newSize + 63) / 64 := wordCount_eq hbounded
  rw [BitSet.resize, Positions.resize, hcount]
  refine clear hbounded ?_ fun j hj => ?_
  · rw [List.length_append, List.length_take, List.length_replicate]
    omega
  · rw [bitAt_resize (by decide), h.bits, decide_eq_true (by omega), Bool.true_and]

/-- An operation word by word. -/
theorem combineWords (h : b.Represents s) (h' : other.Represents t) {f : ℕ → BitVec 64}
    {op : Finset ℕ → Finset ℕ → Finset ℕ} (hsubset : op s.members t.members ⊆ s.members ∪ t.members)
    (hop : ∀ j, (f (j / 64)).getLsbD (j % 64) = decide (j ∈ op s.members t.members)) :
    (BitSet.mk (max b.size other.size)
      ((List.range (wordCount (max b.size other.size))).map f)).Represents (s.combine op t) := by
  have hbounded : max b.size other.size < 2 ^ 64 - 64 := Nat.max_lt.mpr ⟨h.bounded, h'.bounded⟩
  have hsize : max b.size other.size = max s.size t.size := by rw [h.size, h'.size]
  have hbelow (j : ℕ) (hj : j ∈ op s.members t.members) : j < max s.size t.size := by
    rcases Finset.mem_union.mp (hsubset hj) with hj | hj
    · exact lt_of_lt_of_le (s.below j hj) (Nat.le_max_left ..)
    · exact lt_of_lt_of_le (t.below j hj) (Nat.le_max_right ..)
  rw [wordCount_eq hbounded]
  refine ⟨hsize, hbounded, by rw [List.length_map, List.length_range], fun j => ?_⟩
  have hmember : j ∈ (s.combine op t).members ↔ j ∈ op s.members t.members :=
    Positions.mem_restrict.trans ⟨And.right, fun hj => ⟨hbelow j hj, hj⟩⟩
  rw [decide_eq_decide.mpr hmember]
  by_cases hj : j / 64 < (max b.size other.size + 63) / 64
  · rw [bitAt_ofFn hj, hop]
  · rw [bitAt_of_length_le (by rw [List.length_map, List.length_range]; omega), eq_comm,
      decide_eq_false_iff_not]
    intro hin
    have hlt := hbelow j hin
    omega

theorem getD_bits (h : b.Represents s) (j : ℕ) :
    (b.bits.getD (j / 64) 0).getLsbD (j % 64) = decide (j ∈ s.members) :=
  h.bits j

theorem getD_of_le {words : List (BitVec 64)} {i : ℕ} (h : words.length ≤ i) :
    words.getD i 0 = 0 := by
  rw [List.getD_eq_getElem?_getD, List.getElem?_eq_none h]
  rfl

theorem and (h : b.Represents s) (h' : other.Represents t) :
    (b.and other).Represents (s.combine (· ∩ ·) t) := by
  have hword (i : ℕ) : (if i < min b.bits.length other.bits.length then
      b.bits.getD i 0 &&& other.bits.getD i 0 else 0) =
        b.bits.getD i 0 &&& other.bits.getD i 0 := by
    split
    · rfl
    · next hout =>
        rw [Nat.lt_min, not_and_or, Nat.not_lt, Nat.not_lt] at hout
        rcases hout with hout | hout
        · rw [getD_of_le hout]
          exact BitVec.zero_and.symm
        · rw [getD_of_le hout]
          exact BitVec.and_zero.symm
  refine h.combineWords h' (fun j hj => ?_) fun j => ?_
  · exact Finset.mem_union_left _ (Finset.mem_of_mem_inter_left hj)
  · rw [hword, BitVec.getLsbD_and, h.getD_bits, h'.getD_bits, ← Bool.decide_and]
    exact decide_eq_decide.mpr Finset.mem_inter.symm

theorem combine (h : b.Represents s) (h' : other.Represents t)
    {op : BitVec 64 → BitVec 64 → BitVec 64} {f : Bool → Bool → Bool}
    {g : Finset ℕ → Finset ℕ → Finset ℕ} (hsubset : g s.members t.members ⊆ s.members ∪ t.members)
    (hop : ∀ x y i, (op x y).getLsbD i = f (x.getLsbD i) (y.getLsbD i))
    (hg : ∀ j, f (decide (j ∈ s.members)) (decide (j ∈ t.members)) =
      decide (j ∈ g s.members t.members)) :
    (BitSet.combine op b other).Represents (s.combine g t) := by
  have hword (words : List (BitVec 64)) (i : ℕ) :
      (if i < words.length then words.getD i 0 else 0) = words.getD i 0 := by
    split
    · rfl
    · next hout => rw [getD_of_le (Nat.le_of_not_lt hout)]
  refine h.combineWords h' hsubset fun j => ?_
  rw [hword, hword, hop, h.getD_bits, h'.getD_bits, hg]

theorem or (h : b.Represents s) (h' : other.Represents t) :
    (b.or other).Represents (s.combine (· ∪ ·) t) := by
  refine h.combine h' (f := fun x y => x || y) (fun _ hj => hj)
    (fun _ _ _ => BitVec.getLsbD_or) fun j => ?_
  rw [← Bool.decide_or]
  exact decide_eq_decide.mpr Finset.mem_union.symm

theorem xor (h : b.Represents s) (h' : other.Represents t) :
    (b.xor other).Represents (s.combine symmDiff t) := by
  refine h.combine h' (f := fun x y => x ^^ y) (fun j hj => ?_)
    (fun _ _ _ => BitVec.getLsbD_xor) fun j => ?_
  · rcases Finset.mem_symmDiff.mp hj with ⟨hj, -⟩ | ⟨hj, -⟩
    · exact Finset.mem_union_left _ hj
    · exact Finset.mem_union_right _ hj
  · by_cases hs : j ∈ s.members <;> by_cases ht : j ∈ t.members <;>
      simp [hs, ht, Finset.mem_symmDiff]

/-! ## Queries -/

theorem get (h : b.Represents s) (pos : ℕ) : b.get pos =
    if pos < s.size then .ok (decide (pos ∈ s.members))
    else .error "BitSet index out of range" := by
  rw [BitSet.get, checkBounds, h.size]
  by_cases hpos : pos < s.size
  · rw [if_neg (Nat.not_le_of_lt hpos), if_pos hpos, ← h.getD_bits]
    refine congrArg Except.ok ?_
    rw [Bool.eq_iff_iff, decide_eq_true_iff]
    exact shifted_and_one _ _
  · rw [if_pos (Nat.le_of_not_lt hpos), if_neg hpos]
    rfl

theorem mem_range (h : b.Represents s) {j : ℕ} (hj : j ∈ s.members) : j < b.bits.length * 64 := by
  have hlt := s.below j hj
  have hsize := h.size
  have hwords := h.words
  omega

theorem count (h : b.Represents s) : b.count = s.members.card := by
  have hfilter : s.members = (Finset.range (b.bits.length * 64)).filter
      fun j => bitAt b.bits j = true := by
    ext j
    rw [Finset.mem_filter, Finset.mem_range, h.bits, decide_eq_true_iff]
    exact ⟨fun hj => ⟨h.mem_range hj, hj⟩, And.right⟩
  rw [BitSet.count, sum_cpop (by decide), hfilter, List.countP_eq_length_filter]
  refine congrArg List.length (List.filter_congr fun j _ => ?_)
  exact Bool.decide_eq_true.symm

theorem all (h : b.Represents s) : b.all = decide (s.members = Finset.range s.size) := by
  rw [BitSet.all, h.count, h.size]
  refine decide_eq_decide.mpr ⟨fun hcard => ?_, fun heq => by rw [heq, Finset.card_range]⟩
  have hsubset : s.members ⊆ Finset.range s.size := fun j hj => Finset.mem_range.mpr (s.below j hj)
  refine Finset.eq_of_subset_of_card_le hsubset ?_
  rw [Finset.card_range, hcard]

/-- The first bit that is set is the least member. -/
theorem first (h : b.Represents s) :
    (firstFrom 0 b.bits = .none ∧ s.members = ∅) ∨ ∃ hne : s.members.Nonempty,
      firstFrom 0 b.bits = some (s.members.min' hne) := by
  rcases firstFrom_spec (w := 64) (by decide) 0 with ⟨hnone, hall⟩ | ⟨j, hsome, hj, hbefore⟩
  · refine .inl ⟨hnone, Finset.eq_empty_of_forall_notMem fun j hj => ?_⟩
    have hbit := h.bits j
    rw [hall, decide_eq_true hj] at hbit
    cases hbit
  · have hmem : j ∈ s.members := by
      rw [h.bits, decide_eq_true_iff] at hj
      exact hj
    refine .inr ⟨⟨j, hmem⟩, ?_⟩
    rw [hsome, Nat.zero_mul, Nat.zero_add]
    refine congrArg some (le_antisymm (Finset.le_min' _ _ _ fun k hk => ?_)
      (Finset.min'_le _ _ hmem))
    by_contra hlt
    have hbit := hbefore k (Nat.lt_of_not_le hlt)
    rw [h.bits, decide_eq_false_iff_not] at hbit
    exact hbit hk

theorem any (h : b.Represents s) : b.any = decide s.members.Nonempty := by
  rw [BitSet.any, ← firstFrom_isSome 0]
  rcases h.first with ⟨hnone, hempty⟩ | ⟨hne, hsome⟩
  · rw [hnone, hempty]
    rfl
  · rw [hsome, decide_eq_true hne]
    rfl

theorem findFirst (h : b.Represents s) : b.findFirst =
    if hne : s.members.Nonempty then s.members.min' hne else s.size := by
  rw [BitSet.findFirst]
  rcases h.first with ⟨hnone, hempty⟩ | ⟨hne, hsome⟩
  · rw [hnone, dif_neg (by simp [hempty])]
    exact h.size
  · rw [hsome, dif_pos hne]
    exact if_pos (h.size ▸ s.below _ (Finset.min'_mem _ hne))

theorem none (h : b.Represents s) : b.none = decide (s.members = ∅) := by
  rw [BitSet.none, h.any, ← decide_not]
  exact decide_eq_decide.mpr Finset.not_nonempty_iff_eq_empty

/-- A string whose characters are marked from the right. -/
theorem foldl_mark (size : ℕ) (members : Finset ℕ) (n : ℕ) (hn : n ≤ size) :
    (List.range n).foldl
        (fun result i => if i ∈ members then result.set (size - 1 - i) '1' else result)
        (List.replicate size '0') = (List.range size).map fun k =>
        if size - 1 - k < n ∧ size - 1 - k ∈ members then '1' else '0' := by
  induction n with
  | zero => simp [List.map_const']
  | succ n ih =>
    rw [List.range_succ, List.foldl_append, ih (by omega), List.foldl_cons, List.foldl_nil]
    refine List.ext_getElem (by split <;> simp) fun k hk hk' => ?_
    rw [List.length_map, List.length_range] at hk'
    have hplace : size - 1 - k = n ↔ size - 1 - n = k := by omega
    have hcond : (size - 1 - k < n + 1 ∧ size - 1 - k ∈ members) ↔
        (size - 1 - n = k ∧ n ∈ members) ∨ (size - 1 - k < n ∧ size - 1 - k ∈ members) := by
      rw [← hplace, Nat.lt_succ_iff_lt_or_eq]
      constructor
      · rintro ⟨hlt | rfl, hmem⟩
        · exact .inr ⟨hlt, hmem⟩
        · exact .inl ⟨rfl, hmem⟩
      · rintro (⟨rfl, hmem⟩ | ⟨hlt, hmem⟩)
        · exact ⟨.inr rfl, hmem⟩
        · exact ⟨.inl hlt, hmem⟩
    simp only [List.getElem_map, List.getElem_range, hcond]
    by_cases hmem : n ∈ members
    · simp only [if_pos hmem, List.getElem_set, List.getElem_map, List.getElem_range]
      by_cases heq : size - 1 - n = k
      · rw [if_pos heq, if_pos (.inl ⟨heq, hmem⟩)]
      · rw [if_neg heq]
        simp only [heq, false_and, false_or]
    · simp only [hmem, if_false, List.getElem_map, List.getElem_range, and_false, false_or]

/-- The last character is that of position 0. -/
theorem toString (h : b.Represents s) : b.toString =
    .ok ((List.range s.size).map fun j => if j ∈ s.members then '1' else '0').reverse := by
  have hfold (positions : List ℕ) (result : List Char) (hpositions : ∀ i ∈ positions, i < s.size) :
      positions.foldlM (fun result i => do
        return if ← b.get i then result.set (s.size - 1 - i) '1' else result) result =
      (.ok (positions.foldl (fun result i =>
        if i ∈ s.members then result.set (s.size - 1 - i) '1' else result) result) :
          Except String (List Char)) := by
    induction positions generalizing result with
    | nil => rfl
    | cons i positions ih =>
      rw [List.forall_mem_cons] at hpositions
      rw [List.foldlM_cons, h.get, if_pos hpositions.1, List.foldl_cons]
      refine (ih _ hpositions.2).trans ?_
      simp only [decide_eq_true_eq]
  rw [BitSet.toString, h.size, hfold _ _ fun i hi => List.mem_range.mp hi,
    foldl_mark _ _ _ le_rfl]
  refine congrArg Except.ok (List.ext_getElem (by simp) fun k hk hk' => ?_)
  have hin : s.size - 1 - k < s.size := by
    rw [List.length_map, List.length_range] at hk
    omega
  simp [hin]

end Represents

end BitSet

/-! ## Sequences of calls -/

def BitSetCall.Fits {ι : Type*} : BitSetCall ι → Prop
  | construct _ size => size < 2 ^ 64 - 64
  | resize _ newSize => newSize < 2 ^ 64 - 64
  | _ => True

section Calls

variable {ι : Type*} [DecidableEq ι]

def RepresentsAll (sets : ι → BitSet) (positions : ι → Positions) : Prop :=
  ∀ i, (sets i).Represents (positions i)

theorem RepresentsAll.update {sets : ι → BitSet} {positions : ι → Positions}
    (h : RepresentsAll sets positions) {i : ι} {b : BitSet} {s : Positions}
    (hi : b.Represents s) :
    RepresentsAll (Function.update sets i b) (Function.update positions i s) := by
  intro j
  by_cases hj : j = i
  · subst hj
    rw [Function.update_self, Function.update_self]
    exact hi
  · rw [Function.update_of_ne hj, Function.update_of_ne hj]
    exact h j

theorem RepresentsAll.step {sets : ι → BitSet} {positions : ι → Positions} (call : BitSetCall ι)
    (h : RepresentsAll sets positions) (hfits : call.Fits) :
    (call.run sets).1 = (call.spec positions).1 ∧
      RepresentsAll (call.run sets).2 (call.spec positions).2 := by
  cases call with
  | construct i size => exact ⟨rfl, h.update (BitSet.ofSize_represents hfits)⟩
  | set i pos value =>
    obtain ⟨hreturn, hset⟩ := (h i).set pos value
    exact ⟨hreturn, h.update hset⟩
  | flip i pos =>
    obtain ⟨hreturn, hset⟩ := (h i).flip pos
    exact ⟨hreturn, h.update hset⟩
  | flipAll i => exact ⟨rfl, h.update (h i).flipAll⟩
  | setAll i => exact ⟨rfl, h.update (h i).setAll⟩
  | reset i => exact ⟨rfl, h.update (h i).reset⟩
  | resize i newSize => exact ⟨rfl, h.update ((h i).resize hfits)⟩
  | and i j k => exact ⟨rfl, h.update ((h i).and (h j))⟩
  | or i j k => exact ⟨rfl, h.update ((h i).or (h j))⟩
  | xor i j k => exact ⟨rfl, h.update ((h i).xor (h j))⟩

theorem RepresentsAll.run {sets : ι → BitSet} {positions : ι → Positions}
    (h : RepresentsAll sets positions) {calls : List (BitSetCall ι)}
    (hfits : ∀ call ∈ calls, call.Fits) :
    (Calls.run BitSetCall.run sets calls).1 = (Calls.run BitSetCall.spec positions calls).1 ∧
      RepresentsAll (Calls.run BitSetCall.run sets calls).2
        (Calls.run BitSetCall.spec positions calls).2 := by
  refine Calls.run_refines (fun s t call hrel hcall => ?_) h (Calls.permitted_of_forall hfits)
  exact hrel.step call hcall

/-- After any calls on any bit sets, with the same errors: no bit is set from the size on, an
access beyond it throws and changes nothing, and all queries are those of the sets of positions. -/
theorem bit_sets_refine (calls : List (BitSetCall ι)) (hfits : ∀ call ∈ calls, call.Fits) :
    let after := Calls.run BitSetCall.run (fun _ => {}) calls
    let expected := Calls.run BitSetCall.spec (fun _ => .restrict 0 ∅) calls
    after.1 = expected.1 ∧ ∀ i, let b := after.2 i; let s := expected.2 i
      b.size = s.size ∧
      (∀ j, b.size ≤ j → bitAt b.bits j = false) ∧
      (∀ pos, b.get pos = if pos < b.size then .ok (decide (pos ∈ s.members))
        else .error "BitSet index out of range") ∧
      (∀ pos, b.size ≤ pos → (∀ value, b.set pos value = (.error "BitSet index out of range", b)) ∧
        b.flip pos = (.error "BitSet index out of range", b)) ∧
      b.count = s.members.card ∧ b.any = decide s.members.Nonempty ∧
      b.none = decide (s.members = ∅) ∧ b.all = decide (s.members = Finset.range s.size) ∧
      (b.findFirst = if hne : s.members.Nonempty then s.members.min' hne else s.size) ∧
      b.toString =
        .ok ((List.range s.size).map fun j => if j ∈ s.members then '1' else '0').reverse := by
  have hinit : RepresentsAll (fun _ : ι => ({} : BitSet)) fun _ => .restrict 0 ∅ :=
    fun _ => BitSet.ofSize_represents (by decide)
  obtain ⟨hreturns, hall⟩ := hinit.run hfits
  refine ⟨hreturns, fun i => ?_⟩
  have hi := hall i
  refine ⟨hi.size, fun j => hi.bitAt_of_size_le, fun pos => ?_, fun pos hpos =>
    ⟨fun value => ?_, ?_⟩,
    hi.count, hi.any, hi.none, hi.all, hi.findFirst, hi.toString⟩
  · rw [hi.get, hi.size]
  · rw [BitSet.set, BitSet.assign_of_size_le hpos, BitSet.assign_of_size_le hpos, ite_self]
  · exact BitSet.assign_of_size_le hpos _

end Calls

/-- A bit set of 65 positions is filled, shrunk to three and grown again. -/
theorem bit_sets_refine_three :
    ((Calls.run BitSetCall.run (fun _ : Unit => {})
      [.construct () 65, .setAll (), .resize () 3, .resize () 70]).2 ()).count = 3 := by
  have hfits : ∀ call ∈ ([.construct () 65, .setAll (), .resize () 3, .resize () 70] :
      List (BitSetCall Unit)), call.Fits := by
    simp [BitSetCall.Fits]
  refine ((bit_sets_refine _ hfits).2 ()).2.2.2.2.1.trans ?_
  decide +kernel

end DarwinCore.Container
