import Mathlib.Data.List.Nodup
import Mathlib.Data.Nat.Notation
import Mathlib.Logic.Function.Basic

/-! # Recency lists

Entries with keys, the most recently used first. For a new entry in a full list, the last one
goes. -/

/-- At most `capacity` entries, whose keys differ. -/
structure Recency (κ ν : Type*) where
  capacity : ℕ
  entries : List (κ × ν)
  positive : 0 < capacity
  nodup : (entries.map Prod.fst).Nodup
  fits : entries.length ≤ capacity

namespace Recency

variable {κ ν : Type*}

def empty (capacity : ℕ) (h : 0 < capacity) : Recency κ ν :=
  ⟨capacity, [], h, List.nodup_nil, Nat.zero_le _⟩

theorem nodup_sublist {xs ys : List (κ × ν)} (h : List.Sublist xs ys)
    (hys : (ys.map Prod.fst).Nodup) : (xs.map Prod.fst).Nodup :=
  (h.map Prod.fst).nodup hys

/-- A part of the entries, in the same order. -/
def part (q : Recency κ ν) (entries : List (κ × ν)) (h : List.Sublist entries q.entries) :
    Recency κ ν where
  capacity := q.capacity
  entries := entries
  positive := q.positive
  nodup := nodup_sublist h q.nodup
  fits := Nat.le_trans h.length_le q.fits

/-- Only the `n` latest entries are kept: those that go, the last one first, and the rest. -/
def resize (n : ℕ) (h : 0 < n) (q : Recency κ ν) : List (κ × ν) × Recency κ ν :=
  ((q.entries.drop n).reverse,
    { capacity := n
      entries := q.entries.take n
      positive := h
      nodup := nodup_sublist (List.take_sublist ..) q.nodup
      fits := List.length_take_le .. })

def clear (q : Recency κ ν) : Recency κ ν :=
  q.part [] (List.nil_sublist _)

/-- The entry of the key goes for the next new one. -/
def IsNext (key : κ) (q : Recency κ ν) : Prop :=
  q.entries.length = q.capacity ∧ q.entries.getLast?.map Prod.fst = some key

variable [DecidableEq κ]

instance (key : κ) (q : Recency κ ν) : Decidable (q.IsNext key) :=
  inferInstanceAs (Decidable (_ ∧ _))

def valueOf (entries : List (κ × ν)) (key : κ) : Option ν :=
  (entries.find? fun entry => entry.1 = key).map Prod.snd

def find (key : κ) (q : Recency κ ν) : Option ν :=
  valueOf q.entries key

def others (key : κ) (q : Recency κ ν) : List (κ × ν) :=
  q.entries.filter fun entry => entry.1 ≠ key

theorem valueOf_eq_none {entries : List (κ × ν)} {key : κ} :
    valueOf entries key = none ↔ key ∉ entries.map Prod.fst := by
  rw [valueOf, Option.map_eq_none_iff, List.find?_eq_none, List.mem_map, not_exists]
  refine forall_congr' fun entry => ?_
  rw [not_and, decide_eq_true_iff]

theorem notMem_others (key : κ) (q : Recency κ ν) : key ∉ (q.others key).map Prod.fst := by
  simp [others]

/-- An entry is put in front: the one that goes for it, if any, and the list. -/
def store (key : κ) (value : ν) (q : Recency κ ν) : List (κ × ν) × Recency κ ν :=
  if h : (q.others key).length < q.capacity then
    ([], { q with
      entries := (key, value) :: q.others key
      nodup := List.nodup_cons.mpr
        ⟨q.notMem_others key, nodup_sublist List.filter_sublist q.nodup⟩
      fits := h })
  else
    ((q.others key).getLast?.toList, { q with
      entries := (key, value) :: (q.others key).dropLast
      nodup := by
        have hsub : List.Sublist (q.others key).dropLast (q.others key) :=
          List.dropLast_sublist _
        refine List.nodup_cons.mpr ⟨fun hmem => ?_, ?_⟩
        · exact q.notMem_others key ((hsub.map Prod.fst).subset hmem)
        · exact nodup_sublist (hsub.trans List.filter_sublist) q.nodup
      fits := by
        have hpositive := q.positive
        have hfits := q.fits
        have hothers : (q.others key).length ≤ q.entries.length := List.length_filter_le ..
        rw [List.length_cons, List.length_dropLast]
        omega })

section Store

variable {q : Recency κ ν} {key : κ} (value : ν)

theorem store_capacity : (q.store key value).2.capacity = q.capacity := by
  rw [store]
  split <;> rfl

theorem others_of_absent (h : q.find key = none) : q.others key = q.entries := by
  refine List.filter_eq_self.mpr fun entry hentry => decide_eq_true fun heq => ?_
  exact valueOf_eq_none.mp h (heq ▸ List.mem_map_of_mem hentry)

theorem store_of_present (h : (q.find key).isSome) : (q.store key value).1 = [] ∧
    (q.store key value).2.entries = (key, value) :: q.others key := by
  have hlt : (q.others key).length < q.capacity := by
    refine Nat.lt_of_lt_of_le ?_ q.fits
    refine List.length_filter_lt_length_iff_exists.mpr ?_
    obtain ⟨found, hfound⟩ := Option.isSome_iff_exists.mp h
    obtain ⟨entry, hentry, -⟩ := Option.map_eq_some_iff.mp hfound
    refine ⟨entry, List.mem_of_find?_eq_some hentry, ?_⟩
    simpa using List.find?_some hentry
  rw [store, dif_pos hlt]
  exact ⟨rfl, rfl⟩

theorem store_of_room (h : q.find key = none) (hroom : q.entries.length < q.capacity) :
    (q.store key value).1 = [] ∧ (q.store key value).2.entries = (key, value) :: q.entries := by
  have hothers := others_of_absent h
  rw [store, dif_pos (hothers ▸ hroom)]
  exact ⟨rfl, congrArg _ hothers⟩

theorem store_of_full (h : q.find key = none) (hfull : q.entries.length = q.capacity)
    {before : List (κ × ν)} {last : κ × ν} (hlast : q.entries = before ++ [last]) :
    (q.store key value).1 = [last] ∧ (q.store key value).2.entries = (key, value) :: before := by
  have hothers : q.others key = before ++ [last] := (others_of_absent h).trans hlast
  have hnot : ¬ (q.others key).length < q.capacity := by
    rw [hothers, ← hlast, hfull]
    exact Nat.lt_irrefl _
  rw [store, dif_neg hnot]
  refine ⟨?_, congrArg (List.cons (key, value)) ?_⟩
  · simp [hothers]
  · rw [hothers, List.dropLast_concat]

end Store

/-- An entry is looked up, and is then the latest. -/
def use (key : κ) (q : Recency κ ν) : Option ν × Recency κ ν :=
  match q.find key with
  | none => (none, q)
  | some value => (some value, (q.store key value).2)

/-- Whether there was an entry, and the list without it. -/
def remove (key : κ) (q : Recency κ ν) : Bool × Recency κ ν :=
  ((q.find key).isSome, q.part (q.others key) List.filter_sublist)

/-- The value of an entry changes, which stays where it is. -/
def write (key : κ) (value : ν) (q : Recency κ ν) : Recency κ ν :=
  have hkeys : (q.entries.map fun entry => if entry.1 = key then (key, value) else entry).map
      Prod.fst = q.entries.map Prod.fst := by
    rw [List.map_map]
    refine List.map_congr_left fun entry _ => ?_
    rw [Function.comp_apply]
    split
    · next h => exact h.symm
    · rfl
  { q with
    entries := q.entries.map fun entry => if entry.1 = key then (key, value) else entry
    nodup := hkeys ▸ q.nodup
    fits := by
      rw [List.length_map]
      exact q.fits }

theorem filter_write (entries : List (κ × ν)) (key : κ) (value : ν) :
    (entries.map fun entry => if entry.1 = key then (key, value) else entry).filter
      (fun entry => entry.1 ≠ key) = entries.filter fun entry => entry.1 ≠ key := by
  induction entries with
  | nil => rfl
  | cons entry entries ih =>
    by_cases h : entry.1 = key
    · simpa [h] using ih
    · simpa [h] using ih

theorem write_of_absent {q : Recency κ ν} {key : κ} {value : ν} (h : q.find key = none) :
    (q.write key value).entries = q.entries := by
  have hsame (entry : κ × ν) (hentry : entry ∈ q.entries) :
      (if entry.1 = key then (key, value) else entry) = id entry := by
    refine if_neg fun heq => valueOf_eq_none.mp h ?_
    exact List.mem_map.mpr ⟨entry, hentry, heq⟩
  exact (List.map_congr_left hsame).trans (List.map_id _)

theorem valueOf_write {entries : List (κ × ν)} {key : κ} {value : ν}
    (h : (valueOf entries key).isSome) :
    valueOf (entries.map fun entry => if entry.1 = key then (key, value) else entry) key =
      some value := by
  induction entries with
  | nil => cases h
  | cons entry entries ih =>
    by_cases heq : entry.1 = key
    · simp [valueOf, heq]
    · have hrest : valueOf (entry :: entries) key = valueOf entries key := by
        rw [valueOf, List.find?_cons_of_neg (by simpa using heq), valueOf]
      rw [List.map_cons, if_neg heq, valueOf, List.find?_cons_of_neg (by simpa using heq)]
      exact ih (hrest ▸ h)

/-! ## The order of last use -/

def Ordered (time : κ → ℕ) (q : Recency κ ν) : Prop :=
  q.entries.Pairwise fun entry later => time later.1 < time entry.1

variable {q : Recency κ ν} {time : κ → ℕ} {now : ℕ} {key : κ} {value : ν}

omit [DecidableEq κ] in
theorem Ordered.part (h : q.Ordered time) {entries : List (κ × ν)}
    (hsub : List.Sublist entries q.entries) : (q.part entries hsub).Ordered time :=
  h.sublist hsub

omit [DecidableEq κ] in
theorem Ordered.resize (h : q.Ordered time) (n : ℕ) (hn : 0 < n) :
    (q.resize n hn).2.Ordered time :=
  h.sublist (List.take_sublist ..)

theorem Ordered.write (h : q.Ordered time) : (q.write key value).Ordered time := by
  refine List.pairwise_map.mpr (h.imp fun {entry later} hlt => ?_)
  split <;> split <;> simp_all

theorem Ordered.store (h : q.Ordered time) (hnow : ∀ k, time k < now) :
    (q.store key value).2.Ordered (Function.update time key now) := by
  have hfront (entries : List (κ × ν)) (hsub : List.Sublist entries (q.others key)) :
      ((key, value) :: entries).Pairwise fun entry later =>
        Function.update time key now later.1 < Function.update time key now entry.1 := by
    have hne (entry : κ × ν) (hmem : entry ∈ entries) : entry.1 ≠ key := by
      simpa using (List.mem_filter.mp (hsub.subset hmem)).2
    refine List.pairwise_cons.mpr ⟨fun entry hmem => ?_, ?_⟩
    · rw [Function.update_self, Function.update_of_ne (hne entry hmem)]
      exact hnow entry.1
    · have hold : entries.Pairwise fun entry later => time later.1 < time entry.1 :=
        h.sublist (hsub.trans List.filter_sublist)
      refine hold.imp_of_mem fun {entry later} hentry hlater hlt => ?_
      rwa [Function.update_of_ne (hne entry hentry), Function.update_of_ne (hne later hlater)]
  rw [Recency.store]
  split
  · exact hfront _ (List.Sublist.refl _)
  · exact hfront _ (List.dropLast_sublist _)

theorem Ordered.of_absent (h : q.Ordered time) (habsent : q.find key = none) (t : ℕ) :
    q.Ordered (Function.update time key t) := by
  have hne (entry : κ × ν) (hmem : entry ∈ q.entries) : entry.1 ≠ key := by
    have hnot := valueOf_eq_none.mp habsent
    exact fun heq => hnot (heq ▸ List.mem_map_of_mem hmem)
  refine List.Pairwise.imp_of_mem (fun {entry later} hentry hlater hlt => ?_) h
  rwa [Function.update_of_ne (hne entry hentry), Function.update_of_ne (hne later hlater)]

theorem Ordered.use (h : q.Ordered time) (hnow : ∀ k, time k < now) :
    (q.use key).2.Ordered (Function.update time key now) := by
  rw [Recency.use]
  cases hfind : q.find key with
  | none => exact h.of_absent hfind now
  | some value => exact h.store hnow

end Recency
