import DarwinCore.Library.Lists
import DarwinCore.Model.Algorithm.Hash
import DarwinCore.Verification.Protocol.Burst

/-! # Bloom filters

A filter is determined by what has been added to it, in any order. -/

namespace DarwinCore.Algorithm

open ByteOrder

namespace BloomFilter

variable {host : Endian} {n k : ℕ} {data : List UInt8} {contents contents' : List (List UInt8)}

/-! ## Filters and what has been added to them -/

/-- The indices of a byte string among `n` bits. -/
def indices (host : Endian) (n k : ℕ) (data : List UInt8) : List ℕ :=
  (List.range k).map fun i =>
    ((doubleHash host data).1 + UInt64.ofNat i * (doubleHash host data).2).toNat % n

/-- The filter of `n` bits and `k` hash functions that has the given contents. -/
def filled (host : Endian) (n k : ℕ) (contents : List (List UInt8)) : BloomFilter where
  numHashes := k
  bits := Marks.ofPred n fun j => contents.any fun data => (indices host n k data).contains j
  count := UInt64.ofNat contents.length

theorem filled_nil : filled host n k [] = ofCounts n k := by
  rw [ofCounts, Marks.replicate_eq]
  rfl

private theorem filled_perm (h : contents.Perm contents') :
    filled host n k contents = filled host n k contents' := by
  rw [filled, filled, h.length_eq]
  refine congrArg (fun bits => BloomFilter.mk k bits _) (Marks.ofPred_congr fun j _ => ?_)
  rw [Bool.eq_iff_iff, List.any_eq_true, List.any_eq_true]
  simp only [h.mem_iff]

theorem length_filled : (filled host n k contents).bits.length = n :=
  Marks.length_ofPred

/-! ## What the operations do -/

theorem add_filled :
    (filled host n k contents).add host data = filled host n k (contents ++ [data]) := by
  have hset : (List.range k).foldl
      (fun bits i => bits.set ((filled host n k contents).index host data i) true)
      (filled host n k contents).bits =
        (indices host n k data).foldl (fun bits j => bits.set j true)
          (filled host n k contents).bits := by
    rw [indices, List.foldl_map]
    simp only [index, length_filled]
  have hcount : UInt64.ofNat contents.length + 1 = UInt64.ofNat (contents ++ [data]).length := by
    rw [List.length_append, UInt64.ofNat_add]
    rfl
  rw [add, show (filled host n k contents).numHashes = k from rfl, hset]
  rw [filled, filled, Marks.ofPred_foldl_set, hcount]
  refine congrArg (fun bits => BloomFilter.mk k bits _) (Marks.ofPred_congr fun j _ => ?_)
  simp

private theorem clear_filled : (filled host n k contents).clear = filled host n k [] := by
  rw [clear, length_filled, Marks.replicate_eq]
  rfl

private theorem merge_filled : (filled host n k contents).merge (filled host n k contents') =
    (.ok (), filled host n k (contents ++ contents')) := by
  have hsame : ¬((filled host n k contents).bits.length ≠
      (filled host n k contents').bits.length ∨ (filled host n k contents).numHashes ≠
        (filled host n k contents').numHashes) := by
    rw [length_filled, length_filled]
    exact not_or.mpr ⟨not_not.mpr rfl, not_not.mpr rfl⟩
  rw [merge, if_neg hsame]
  rw [filled, filled, filled, Marks.ofPred_zipWith_or, List.length_append, UInt64.ofNat_add]
  refine congrArg (fun bits => (_, BloomFilter.mk k bits _)) (Marks.ofPred_congr fun j _ => ?_)
  rw [List.any_append]

private theorem merge_differs {f other : BloomFilter}
    (h : (f.bits.length, f.numHashes) ≠ (other.bits.length, other.numHashes)) :
    f.merge other = (.error "Cannot merge BloomFilters with different parameters", f) := by
  rw [merge, if_pos]
  by_contra hsame
  rw [not_or, not_not, not_not] at hsame
  exact h (Prod.ext hsame.1 hsame.2)

private theorem mightContain_filled (hn : 0 < n) (hmem : data ∈ contents) :
    (filled host n k contents).mightContain host data = true := by
  rw [mightContain, List.all_eq_true]
  intro i hi
  have hlt : (filled host n k contents).index host data i <
      (filled host n k contents).bits.length := by
    rw [index]
    exact Nat.mod_lt _ (length_filled ▸ hn)
  have hindex : (filled host n k contents).index host data i ∈ indices host n k data := by
    refine List.mem_map.mpr ⟨i, hi, ?_⟩
    rw [index, length_filled]
  rw [List.getD_eq_getElem?_getD, List.getElem?_eq_getElem hlt, Option.getD_some]
  refine (Marks.getElem_ofPred hlt).trans (List.any_eq_true.mpr ⟨data, hmem, ?_⟩)
  exact List.contains_iff_mem.mpr hindex

/-- An empty filter to which all of them are added. -/
def addAll (host : Endian) (contents : List (List UInt8)) (f : BloomFilter) : BloomFilter :=
  contents.foldl (fun f data => f.add host data) f

private theorem addAll_ofCounts :
    addAll host contents (ofCounts n k) = filled host n k contents := by
  have hall : ∀ before, addAll host contents (filled host n k before) =
      filled host n k (before ++ contents) := by
    induction contents with
    | nil => exact fun before => by rw [List.append_nil]; rfl
    | cons data contents ih =>
      intro before
      rw [addAll, List.foldl_cons, add_filled]
      refine (ih (before ++ [data])).trans ?_
      rw [List.append_assoc, List.singleton_append]
  have hnil : filled host n k [] = ofCounts n k := filled_nil
  rw [← hnil]
  exact hall []

end BloomFilter

open BloomFilter

/-! ## Any number of filters -/

/-- Filters, each with what has been added to it or to the filters merged into it, as often, since
it was last cleared. -/
structure Recorded (ι : Type*) where
  filters : ι → BloomFilter
  contents : ι → List (List UInt8)

section Calls

variable {ι : Type*} [DecidableEq ι] {host : Endian} {params : ι → ℕ × ℕ}

/-- What is contained after a call. A merge that throws adds nothing. -/
def FilterCall.record (s : Recorded ι) : FilterCall ι → ι → List (List UInt8)
  | add i data => Function.update s.contents i (s.contents i ++ [data])
  | clear i => Function.update s.contents i []
  | merge i j =>
      match ((s.filters i).merge (s.filters j)).1 with
      | .ok () => Function.update s.contents i (s.contents i ++ s.contents j)
      | .error _ => s.contents

def FilterCall.step (host : Endian) (s : Recorded ι) (call : FilterCall ι) : Recorded ι :=
  ⟨call.run host s.filters, call.record s⟩

/-- New filters, each with its numbers of bits and of hash functions, after some calls. -/
def Recorded.after (host : Endian) (params : ι → ℕ × ℕ) (calls : List (FilterCall ι)) :
    Recorded ι :=
  calls.foldl (FilterCall.step host) ⟨fun i => ofCounts (params i).1 (params i).2, fun _ => []⟩

def Recorded.Sound (host : Endian) (params : ι → ℕ × ℕ) (s : Recorded ι) : Prop :=
  ∀ i, s.filters i = filled host (params i).1 (params i).2 (s.contents i)

omit [DecidableEq ι] in
theorem Recorded.Sound.merge {s : Recorded ι} (h : s.Sound host params) (i j : ι) :
    (params i = params j → (s.filters i).merge (s.filters j) =
      (.ok (), filled host (params i).1 (params i).2 (s.contents i ++ s.contents j))) ∧
    (params i ≠ params j → (s.filters i).merge (s.filters j) =
      (.error "Cannot merge BloomFilters with different parameters", s.filters i)) := by
  refine ⟨fun hsame => ?_, fun hother => ?_⟩
  · rw [h i, h j, ← hsame, merge_filled]
  · refine merge_differs ?_
    rw [h i, h j, length_filled, length_filled]
    exact hother

theorem Recorded.Sound.step {s : Recorded ι} (h : s.Sound host params) (call : FilterCall ι) :
    (call.step host s).Sound host params := by
  intro x
  change call.run host s.filters x = filled host _ _ (call.record s x)
  cases call with
  | add i data =>
    rw [FilterCall.run, FilterCall.record]
    by_cases hx : x = i
    · rw [hx, Function.update_self, Function.update_self, h i, add_filled]
    · rw [Function.update_of_ne hx, Function.update_of_ne hx, h x]
  | clear i =>
    rw [FilterCall.run, FilterCall.record]
    by_cases hx : x = i
    · rw [hx, Function.update_self, Function.update_self, h i, clear_filled]
    · rw [Function.update_of_ne hx, Function.update_of_ne hx, h x]
  | merge i j =>
    obtain ⟨hsame, hother⟩ := h.merge i j
    rw [FilterCall.run, FilterCall.record]
    by_cases hparams : params i = params j
    · rw [hsame hparams]
      dsimp only
      by_cases hx : x = i
      · rw [hx, Function.update_self, Function.update_self]
      · rw [Function.update_of_ne hx, Function.update_of_ne hx, h x]
    · rw [hother hparams, Function.update_eq_self, h x]

theorem Recorded.after_sound (calls : List (FilterCall ι)) :
    (Recorded.after host params calls).Sound host params := by
  induction calls using List.reverseRecOn with
  | nil => exact fun i => filled_nil.symm
  | append_singleton calls call ih =>
    rw [Recorded.after, List.foldl_append]
    exact ih.step call

/-- After any calls on any filters of at least one bit: what is contained in a filter is not denied;
a filter is the empty one to which its contents are added, in any order; merging filters of the
same parameters gives the filter with the contents of both; and merging others throws and changes
nothing. -/
theorem bloom_filters_sound (hbits : ∀ i, 1 ≤ (params i).1) (calls : List (FilterCall ι)) :
    let s := Recorded.after host params calls
    (∀ i, ∀ data ∈ s.contents i, (s.filters i).mightContain host data = true) ∧
    (∀ i contents, contents.Perm (s.contents i) →
      s.filters i = addAll host contents (ofCounts (params i).1 (params i).2)) ∧
    (∀ i j, params i = params j → ∃ merged, (s.filters i).merge (s.filters j) = (.ok (), merged) ∧
      ∀ contents, contents.Perm (s.contents i ++ s.contents j) →
        merged = addAll host contents (ofCounts (params i).1 (params i).2)) ∧
    ∀ i j, params i ≠ params j → (s.filters i).merge (s.filters j) =
      (.error "Cannot merge BloomFilters with different parameters", s.filters i) := by
  dsimp only
  have hsound : (Recorded.after host params calls).Sound host params :=
    Recorded.after_sound calls
  generalize Recorded.after host params calls = s at hsound
  refine ⟨fun i data hmem => ?_, fun i contents hperm => ?_, fun i j hsame => ?_,
    fun i j => (hsound.merge i j).2⟩
  · rw [hsound i]
    exact mightContain_filled (hbits i) hmem
  · rw [hsound i, addAll_ofCounts]
    exact (filled_perm hperm).symm
  · refine ⟨_, (hsound.merge i j).1 hsame, fun contents hperm => ?_⟩
    rw [addAll_ofCounts]
    exact (filled_perm hperm).symm

end Calls

/-- One byte is added to the first of two filters, which is then merged into the second. -/
theorem bloom_filters_sound_two :
    ((Recorded.after .little (fun _ : Bool => (64, 3))
      [.add false [7], .merge true false]).filters true).mightContain .little [7] = true :=
  (bloom_filters_sound (fun _ => by decide) _).1 true [7] (by decide +kernel)

/-! ## The two CRC-32 implementations

Both tables are the table of the polynomial, so both loops are the bit-by-bit register. -/

open Protocol ReflectedCrc

private theorem crc32Table_eq_crcTable : crc32Table = crcTable := by
  decide +kernel

private theorem crc32_eq_calculateCrc32 (data : List UInt8) : crc32 data = calculateCrc32 data := by
  rw [crc32, calculateCrc32, crc32Table_eq_crcTable]
  rfl

/-- Both are the reflected CRC of eight bit steps a byte, from all ones, complemented. -/
theorem crc32_implementations_standard (data : List UInt8) :
    crc32 data = calculateCrc32 data ∧
      (calculateCrc32 data).toBitVec = ~~~run 0xEDB88320#32 0xFFFFFFFF#32 data :=
  ⟨crc32_eq_calculateCrc32 data, calculateCrc32_eq_run data⟩

end DarwinCore.Algorithm
