import Mathlib.Data.Finset.Card
import Mathlib.Data.Finset.Range
import Mathlib.Data.List.Dedup

/-! # Reassembly of messages from slices

Slices of many messages arrive in any order and any number of times. The history of a
message, its newest slice first, says which sequence numbers have arrived, when the message
is complete and what it holds. -/

namespace Reassembly

universe u v

structure Slice (β : Type u) where
  index : ℕ
  data : List β
  deriving DecidableEq

section History

variable {β : Type u} {total : ℕ}

/-! ## What a history says -/

/-- The sequence numbers that have arrived. -/
def indices (xs : List (Slice β)) : Finset ℕ :=
  (xs.map Slice.index).toFinset

/-- Every sequence number below `total` has arrived, and no other. -/
def Complete (total : ℕ) (xs : List (Slice β)) : Prop :=
  indices xs = Finset.range total

instance (total : ℕ) (xs : List (Slice β)) : Decidable (Complete total xs) :=
  inferInstanceAs (Decidable (_ = _))

/-- The number of sequence numbers that have not arrived. -/
def missing (total : ℕ) (xs : List (Slice β)) : ℕ :=
  (Finset.range total \ indices xs).card

/-- The first payload that arrived for a sequence number. -/
def firstFor : List (Slice β) → ℕ → List β
  | [], _ => []
  | x :: xs, i => if x.index = i ∧ i ∉ indices xs then x.data else firstFor xs i

/-- The first payloads in the order of their sequence numbers. -/
def assemble (total : ℕ) (xs : List (Slice β)) : List β :=
  (List.range total).flatMap (firstFor xs)

/-- The slice came before, and always without data. -/
def RepeatsEmpty (x : Slice β) (xs : List (Slice β)) : Prop :=
  x.index ∈ indices xs ∧ ∀ y ∈ xs, y.index = x.index → y.data = []

instance (x : Slice β) (xs : List (Slice β)) : Decidable (RepeatsEmpty x xs) :=
  inferInstanceAs (Decidable (_ ∧ _))

/-- How often a slice was repeated that had always been empty. -/
def emptyRepeats : List (Slice β) → ℕ
  | [] => 0
  | x :: xs => emptyRepeats xs + if RepeatsEmpty x xs then 1 else 0

@[simp] theorem indices_nil : indices ([] : List (Slice β)) = ∅ := rfl

@[simp] theorem indices_cons (x : Slice β) (xs : List (Slice β)) :
    indices (x :: xs) = insert x.index (indices xs) := by
  simp [indices]

theorem mem_indices {xs : List (Slice β)} {i : ℕ} : i ∈ indices xs ↔ ∃ x ∈ xs, x.index = i := by
  simp [indices]

theorem card_add_missing {xs : List (Slice β)} (h : indices xs ⊆ Finset.range total) :
    (indices xs).card + missing total xs = total := by
  rw [missing, Finset.card_sdiff_of_subset h, Finset.card_range]
  have hle := Finset.card_le_card h
  rw [Finset.card_range] at hle
  omega

theorem complete_iff_missing {xs : List (Slice β)} (h : indices xs ⊆ Finset.range total) :
    Complete total xs ↔ missing total xs = 0 := by
  rw [missing, Finset.card_eq_zero, Finset.sdiff_eq_empty_iff_subset]
  exact ⟨fun hc => hc.symm.subset, fun hs => h.antisymm hs⟩

/-- Where no sequence number arrived twice, each has the one payload that arrived for it. -/
theorem firstFor_of_nodup {xs : List (Slice β)} (h : (xs.map Slice.index).Nodup) {x : Slice β}
    (hx : x ∈ xs) : firstFor xs x.index = x.data := by
  induction xs with
  | nil => simp at hx
  | cons y ys ih =>
    rw [List.map_cons, List.nodup_cons] at h
    have hy : y.index ∉ indices ys := by simpa [indices] using h.1
    rcases List.mem_cons.mp hx with rfl | hx
    · rw [firstFor, if_pos ⟨rfl, hy⟩]
    · rw [firstFor, if_neg, ih h.2 hx]
      rintro ⟨-, hnot⟩
      exact hnot (mem_indices.mpr ⟨x, hx, rfl⟩)

/-! ## Counting free slots

A slot that counts as free while it is empty keeps the first payload that has data. -/

def kept : List (Slice β) → ℕ → List β
  | [], _ => []
  | x :: xs, i => if x.index = i ∧ kept xs i = [] then x.data else kept xs i

/-- How often a slice has found its slot free. -/
def counted (xs : List (Slice β)) : ℕ :=
  (indices xs).card + emptyRepeats xs

theorem kept_eq_nil_iff {xs : List (Slice β)} {i : ℕ} :
    kept xs i = [] ↔ ∀ y ∈ xs, y.index = i → y.data = [] := by
  induction xs with
  | nil => simp [kept]
  | cons x xs ih =>
    simp only [kept, List.forall_mem_cons]
    split <;> grind

theorem counted_cons_of_free {x : Slice β} {xs : List (Slice β)} (h : kept xs x.index = []) :
    counted (x :: xs) = counted xs + 1 := by
  have hdata := kept_eq_nil_iff.mp h
  rw [counted, counted, indices_cons, emptyRepeats]
  by_cases hx : x.index ∈ indices xs
  · rw [Finset.insert_eq_of_mem hx, if_pos ⟨hx, hdata⟩]
    omega
  · rw [Finset.card_insert_of_notMem hx, if_neg fun hr => hx hr.1]
    omega

theorem counted_cons_of_full {x : Slice β} {xs : List (Slice β)} (h : kept xs x.index ≠ []) :
    counted (x :: xs) = counted xs := by
  have hnot : ¬ ∀ y ∈ xs, y.index = x.index → y.data = [] := fun hall =>
    h (kept_eq_nil_iff.mpr hall)
  have hx : x.index ∈ indices xs := by
    rw [mem_indices]
    push Not at hnot
    obtain ⟨y, hy, hindex, -⟩ := hnot
    exact ⟨y, hy, hindex⟩
  rw [counted, counted, indices_cons, Finset.insert_eq_of_mem hx, emptyRepeats,
    if_neg fun hr => hnot hr.2, Nat.add_zero]

theorem kept_eq_firstFor {xs : List (Slice β)} (h : emptyRepeats xs = 0) (i : ℕ) :
    kept xs i = firstFor xs i := by
  induction xs with
  | nil => rfl
  | cons x xs ih =>
    rw [emptyRepeats, Nat.add_eq_zero_iff] at h
    have hrepeat : ¬ RepeatsEmpty x xs := by
      intro hr
      simp [hr] at h
    rw [kept, firstFor, ih h.1]
    by_cases hi : x.index = i
    · subst i
      have hiff : firstFor xs x.index = [] ↔ x.index ∉ indices xs := by
        rw [← ih h.1, kept_eq_nil_iff]
        refine ⟨fun hall hx => hrepeat ⟨hx, hall⟩, fun hx y hy hindex => ?_⟩
        exact absurd (mem_indices.mpr ⟨y, hy, hindex⟩) hx
      simp [hiff]
    · simp [hi]

/-- The count meets the total when as many empty slices were repeated as are missing. -/
theorem counted_eq_total_iff {xs : List (Slice β)} (h : indices xs ⊆ Finset.range total) :
    counted xs = total ↔ missing total xs = emptyRepeats xs := by
  have hcard := card_add_missing h
  rw [counted]
  omega

/-- A count that stays within the total is exact once the message is complete. -/
theorem counted_of_complete {xs : List (Slice β)} (hle : counted xs ≤ total)
    (h : Complete total xs) : counted xs = total ∧ emptyRepeats xs = 0 := by
  have hcard : (indices xs).card = total := by rw [h, Finset.card_range]
  rw [counted] at hle ⊢
  omega

end History

/-! ## Many messages -/

/-- A slice of message `id`, which has `total` of them. -/
structure Part (κ : Type v) (β : Type u) extends Slice β where
  id : κ
  total : ℕ

deriving instance DecidableEq for Part

/-- The histories of the messages under way, and the completed messages. -/
structure State (κ : Type v) (β : Type u) where
  pending : κ → List (Slice β)
  completed : List (κ × List β)

section Run

variable {κ : Type v} {β : Type u} [DecidableEq κ]

def State.empty : State κ β := ⟨fun _ => [], []⟩

/-- The history of its message once the part has arrived. -/
def State.history (s : State κ β) (p : Part κ β) : List (Slice β) :=
  p.toSlice :: s.pending p.id

/-- A part arrives: its message is delivered when nothing is missing. -/
def State.arrive (s : State κ β) (p : Part κ β) : State κ β :=
  if Complete p.total (s.history p) then
    ⟨Function.update s.pending p.id [],
      s.completed ++ [(p.id, assemble p.total (s.history p))]⟩
  else
    ⟨Function.update s.pending p.id (s.history p), s.completed⟩

def State.run (s : State κ β) (ps : List (Part κ β)) : State κ β :=
  ps.foldl State.arrive s

@[simp] theorem State.run_nil (s : State κ β) : s.run [] = s := rfl

@[simp] theorem State.run_cons (s : State κ β) (p : Part κ β) (ps : List (Part κ β)) :
    s.run (p :: ps) = (s.arrive p).run ps := rfl

theorem State.run_append (s : State κ β) (ps qs : List (Part κ β)) :
    s.run (ps ++ qs) = (s.run ps).run qs :=
  List.foldl_append

/-- With the part, as many empty slices of its message have been repeated as are missing. -/
def State.Masked (s : State κ β) (p : Part κ β) : Prop :=
  0 < missing p.total (s.history p) ∧
    missing p.total (s.history p) = emptyRepeats (s.history p)

instance (s : State κ β) (p : Part κ β) : Decidable (s.Masked p) :=
  inferInstanceAs (Decidable (_ ∧ _))

/-- No part, when it arrives, finds its message masked. -/
def State.NeverMasked (s : State κ β) : List (Part κ β) → Prop
  | [] => True
  | p :: ps => ¬ s.Masked p ∧ (s.arrive p).NeverMasked ps

instance State.decidableNeverMasked :
    (ps : List (Part κ β)) → (s : State κ β) → Decidable (s.NeverMasked ps)
  | [], _ => isTrue trivial
  | p :: ps, s =>
      have := decidableNeverMasked ps (s.arrive p)
      inferInstanceAs (Decidable (_ ∧ _))

/-- The slices of one message among the parts, newest first. -/
def slicesOf (ps : List (Part κ β)) (id : κ) : List (Slice β) :=
  ((ps.filter fun p => p.id = id).map Part.toSlice).reverse

theorem slicesOf_eq_nil {ps : List (Part κ β)} {id : κ} (h : id ∉ ps.map Part.id) :
    slicesOf ps id = [] := by
  simp only [slicesOf, List.reverse_eq_nil_iff, List.map_eq_nil_iff, List.filter_eq_nil_iff,
    decide_eq_true_eq]
  intro p hp hid
  exact h (hid ▸ List.mem_map_of_mem hp)

theorem mem_slicesOf {ps : List (Part κ β)} {id : κ} {x : Slice β} :
    x ∈ slicesOf ps id ↔ ∃ p ∈ ps, p.id = id ∧ p.toSlice = x := by
  simp [slicesOf, and_assoc]

theorem slicesOf_cons_append (s : State κ β) (p : Part κ β) (ps : List (Part κ β)) (id : κ) :
    slicesOf (p :: ps) id ++ s.pending id =
      slicesOf ps id ++ Function.update s.pending p.id (s.history p) id := by
  by_cases hid : id = p.id
  · subst hid
    simp [slicesOf, State.history]
  · simp [slicesOf, Function.update_of_ne hid, Ne.symm hid]

theorem State.arrive_of_complete {s : State κ β} {p : Part κ β}
    (h : Complete p.total (s.history p)) :
    s.arrive p = ⟨Function.update s.pending p.id [],
      s.completed ++ [(p.id, assemble p.total (s.history p))]⟩ :=
  if_pos h

theorem State.arrive_of_missing {s : State κ β} {p : Part κ β}
    (h : ¬ Complete p.total (s.history p)) :
    s.arrive p = ⟨Function.update s.pending p.id (s.history p), s.completed⟩ :=
  if_neg h

theorem State.pending_arrive_sublist (s : State κ β) (p : Part κ β) (id : κ) :
    List.Sublist ((s.arrive p).pending id)
      (Function.update s.pending p.id (s.history p) id) := by
  by_cases hcomplete : Complete p.total (s.history p)
  · rw [State.arrive_of_complete hcomplete]
    by_cases hid : id = p.id
    · subst hid
      simp
    · simp [Function.update_of_ne hid]
  · rw [State.arrive_of_missing hcomplete]

section Exact

/-! ## Slices that arrive once -/

def State.Once (s : State κ β) (ps : List (Part κ β)) : Prop :=
  ∀ id, ((slicesOf ps id ++ s.pending id).map Slice.index).Nodup

theorem State.Once.tail {s : State κ β} {p : Part κ β} {ps : List (Part κ β)}
    (h : s.Once (p :: ps)) : (s.arrive p).Once ps := by
  intro id
  have hid := h id
  rw [slicesOf_cons_append] at hid
  exact hid.sublist (((List.Sublist.refl _).append (s.pending_arrive_sublist p id)).map _)

theorem State.Once.history {s : State κ β} {p : Part κ β} {ps : List (Part κ β)}
    (h : s.Once (p :: ps)) : ((slicesOf ps p.id ++ s.history p).map Slice.index).Nodup := by
  have hid := h p.id
  rwa [slicesOf_cons_append, Function.update_self] at hid

theorem emptyRepeats_of_nodup {xs : List (Slice β)} (h : (xs.map Slice.index).Nodup) :
    emptyRepeats xs = 0 := by
  induction xs with
  | nil => rfl
  | cons x xs ih =>
    rw [List.map_cons, List.nodup_cons] at h
    rw [emptyRepeats, ih h.2, if_neg]
    rintro ⟨hx, -⟩
    exact h.1 (by simpa [indices] using hx)

theorem State.Once.neverMasked {s : State κ β} {ps : List (Part κ β)} (h : s.Once ps) :
    s.NeverMasked ps := by
  induction ps generalizing s with
  | nil => trivial
  | cons p ps ih =>
    refine ⟨fun hmask => ?_, ih h.tail⟩
    have hnodup := h.history
    rw [List.map_append] at hnodup
    rw [State.Masked, emptyRepeats_of_nodup hnodup.of_append_right] at hmask
    exact hmask.1.ne' hmask.2

theorem State.Once.not_complete {s : State κ β} {p : Part κ β} {ps : List (Part κ β)} {n : ℕ}
    (h : s.Once (p :: ps)) (hlater : p.id ∈ ps.map Part.id)
    (hall : Complete n (slicesOf ps p.id ++ s.history p)) : ¬ Complete n (s.history p) := by
  intro hc
  obtain ⟨q, hq, hid⟩ := List.mem_map.mp hlater
  have hqmem : q.toSlice ∈ slicesOf ps p.id := mem_slicesOf.mpr ⟨q, hq, hid, rfl⟩
  have hindex : q.index ∈ indices (s.history p) := by
    rw [hc, ← hall]
    exact mem_indices.mpr ⟨_, List.mem_append_left _ hqmem, rfl⟩
  obtain ⟨x, hx, hxi⟩ := mem_indices.mp hindex
  have hnodup := h.history
  rw [List.map_append, List.nodup_append] at hnodup
  exact hnodup.2.2 _ (List.mem_map_of_mem hqmem) _ (List.mem_map_of_mem hx) hxi.symm

/-- What is pending once the later parts have run, if the first part either is not the last
of its message or has left nothing pending. -/
theorem pending_after {ps : List (Part κ β)} {p : Part κ β} {pending : κ → List (Slice β)}
    {xs : List (Slice β)} {id : κ} (h : p.id ∉ ps.map Part.id → xs = []) :
    (if id ∈ ps.map Part.id then [] else Function.update pending p.id xs id) =
      if id ∈ (p :: ps).map Part.id then [] else pending id := by
  by_cases hid : id = p.id
  · subst hid
    by_cases hlater : p.id ∈ ps.map Part.id
    · simp [hlater]
    · simp [h hlater]
  · simp [hid]

/-- Messages all of whose slices arrive exactly once are delivered in the order in which
their last slices arrive. -/
theorem State.Once.run {total : κ → ℕ} {ps : List (Part κ β)} {s : State κ β} (h : s.Once ps)
    (htotal : ∀ p ∈ ps, p.total = total p.id)
    (hcomplete : ∀ id ∈ ps.map Part.id, Complete (total id) (slicesOf ps id ++ s.pending id)) :
    (s.run ps).completed = s.completed ++ (ps.map Part.id).dedup.map (fun id =>
        (id, assemble (total id) (slicesOf ps id ++ s.pending id))) ∧
      ∀ id, (s.run ps).pending id = if id ∈ ps.map Part.id then [] else s.pending id := by
  induction ps generalizing s with
  | nil => simp
  | cons p ps ih =>
    have hp := htotal p List.mem_cons_self
    have htotal' : ∀ q ∈ ps, q.total = total q.id := fun q hq =>
      htotal q (List.mem_cons_of_mem _ hq)
    simp only [slicesOf_cons_append] at hcomplete ⊢
    have hall := hcomplete p.id (by simp)
    rw [Function.update_self] at hall
    by_cases hlater : p.id ∈ ps.map Part.id
    · have harrive := State.arrive_of_missing (hp ▸ h.not_complete hlater hall)
      have hpending : Function.update s.pending p.id (s.history p) = (s.arrive p).pending := by
        rw [harrive]
      rw [hpending] at hcomplete ⊢
      obtain ⟨hdone, hpend⟩ := ih h.tail htotal' fun id hid =>
        hcomplete id (List.mem_cons_of_mem _ hid)
      refine ⟨?_, fun id => ?_⟩
      · rw [State.run_cons, hdone, List.map_cons, List.dedup_cons_of_mem hlater]
        rw [harrive]
      · rw [State.run_cons, hpend, harrive]
        exact pending_after fun habsent => absurd hlater habsent
    · rw [slicesOf_eq_nil hlater, List.nil_append] at hall
      have harrive := State.arrive_of_complete (hp ▸ hall)
      have hpending : ∀ id ∈ ps.map Part.id,
          Function.update s.pending p.id (s.history p) id = (s.arrive p).pending id := by
        intro id hid
        have hne : id ≠ p.id := fun heq => hlater (heq ▸ hid)
        simp [harrive, Function.update_of_ne hne]
      obtain ⟨hdone, hpend⟩ := ih h.tail htotal' fun id hid => by
        rw [← hpending id hid]
        exact hcomplete id (List.mem_cons_of_mem _ hid)
      refine ⟨?_, fun id => ?_⟩
      · have hmap : ∀ id ∈ (ps.map Part.id).dedup,
            (id, assemble (total id) (slicesOf ps id ++ (s.arrive p).pending id)) =
              (id, assemble (total id)
                (slicesOf ps id ++ Function.update s.pending p.id (s.history p) id)) := by
          intro id hid
          rw [hpending id (List.mem_dedup.mp hid)]
        rw [State.run_cons, hdone, List.map_congr_left hmap, List.map_cons,
          List.dedup_cons_of_notMem hlater, List.map_cons, slicesOf_eq_nil hlater, harrive, hp]
        simp
      · rw [State.run_cons, hpend, harrive]
        exact pending_after fun _ => rfl

theorem State.once_empty {ps : List (Part κ β)} (h : (ps.map fun p => (p.id, p.index)).Nodup) :
    (State.empty : State κ β).Once ps := by
  intro id
  rw [State.empty, List.append_nil, slicesOf, List.map_reverse, List.nodup_reverse, List.map_map]
  have hfilter := h.sublist (List.filter_sublist.map _ : List.Sublist
    ((ps.filter fun p => p.id = id).map fun p => (p.id, p.index)) _)
  refine List.Nodup.of_map (fun i => (id, i)) ?_
  rw [List.map_map]
  convert hfilter using 1
  refine List.map_congr_left fun p hp => ?_
  rw [← of_decide_eq_true (List.mem_filter.mp hp).2]
  rfl

end Exact

/-! ## Slices with data -/

theorem emptyRepeats_of_data {xs : List (Slice β)} (h : ∀ x ∈ xs, x.data ≠ []) :
    emptyRepeats xs = 0 := by
  induction xs with
  | nil => rfl
  | cons x xs ih =>
    obtain ⟨-, hxs⟩ := List.forall_mem_cons.mp h
    rw [emptyRepeats, ih hxs, if_neg]
    rintro ⟨hx, hempty⟩
    obtain ⟨y, hy, hindex⟩ := mem_indices.mp hx
    exact hxs y hy (hempty y hy hindex)

omit [DecidableEq κ] in
theorem State.not_masked_of_data {s : State κ β} {p : Part κ β} (hp : p.data ≠ [])
    (h : ∀ x ∈ s.pending p.id, x.data ≠ []) : ¬ s.Masked p := by
  have hrepeats : emptyRepeats (s.history p) = 0 :=
    emptyRepeats_of_data (List.forall_mem_cons.mpr ⟨hp, h⟩)
  rintro ⟨hmissing, heq⟩
  omega

theorem State.mem_pending_run {ps : List (Part κ β)} {id : κ} {x : Slice β}
    (h : x ∈ ((State.empty : State κ β).run ps).pending id) :
    ∃ p ∈ ps, p.id = id ∧ p.toSlice = x := by
  induction ps using List.reverseRecOn with
  | nil => cases h
  | append_singleton ps p ih =>
    rw [State.run_append] at h
    have hmem := (State.pending_arrive_sublist _ p id).subset h
    by_cases hid : id = p.id
    · subst hid
      rw [Function.update_self] at hmem
      rcases List.mem_cons.mp hmem with rfl | hold
      · exact ⟨p, by simp, rfl, rfl⟩
      · obtain ⟨q, hq, hqx⟩ := ih hold
        exact ⟨q, List.mem_append_left _ hq, hqx⟩
    · rw [Function.update_of_ne hid] at hmem
      obtain ⟨q, hq, hqx⟩ := ih hmem
      exact ⟨q, List.mem_append_left _ hq, hqx⟩

/-! ## What is delivered -/

/-- A message that is delivered is assembled from parts of it that have arrived. -/
theorem State.mem_completed_run {ps : List (Part κ β)} {c : κ × List β}
    (h : c ∈ ((State.empty : State κ β).run ps).completed) :
    ∃ p ∈ ps, ∃ xs, p.id = c.1 ∧ (∀ x ∈ xs, ∃ q ∈ ps, q.id = c.1 ∧ q.toSlice = x) ∧
      Complete p.total xs ∧ c.2 = assemble p.total xs := by
  induction ps using List.reverseRecOn with
  | nil => cases h
  | append_singleton ps p ih =>
    have hold (hc : c ∈ ((State.empty : State κ β).run ps).completed) :
        ∃ q ∈ ps ++ [p], ∃ xs, q.id = c.1 ∧
          (∀ x ∈ xs, ∃ r ∈ ps ++ [p], r.id = c.1 ∧ r.toSlice = x) ∧
          Complete q.total xs ∧ c.2 = assemble q.total xs := by
      obtain ⟨q, hq, xs, hid, hxs, hdone⟩ := ih hc
      refine ⟨q, List.mem_append_left _ hq, xs, hid, fun x hx => ?_, hdone⟩
      obtain ⟨r, hr, hrx⟩ := hxs x hx
      exact ⟨r, List.mem_append_left _ hr, hrx⟩
    rw [State.run_append, State.run_cons, State.run_nil] at h
    by_cases hcomplete : Complete p.total (((State.empty : State κ β).run ps).history p)
    · rw [State.arrive_of_complete hcomplete] at h
      rcases List.mem_append.mp h with hc | hnew
      · exact hold hc
      · obtain rfl := List.mem_singleton.mp hnew
        refine ⟨p, by simp, _, rfl, fun x hx => ?_, hcomplete, rfl⟩
        rcases List.mem_cons.mp hx with rfl | hx
        · exact ⟨p, by simp, rfl, rfl⟩
        · obtain ⟨q, hq, hqx⟩ := State.mem_pending_run hx
          exact ⟨q, List.mem_append_left _ hq, hqx⟩
    · rw [State.arrive_of_missing hcomplete] at h
      exact hold h

/-- How often message `id` was delivered, and once more if its slice `i` is waiting. -/
def State.deliveries (s : State κ β) (id : κ) (i : ℕ) : ℕ :=
  s.completed.countP (fun c => decide (c.1 = id)) + if i ∈ indices (s.pending id) then 1 else 0

theorem State.deliveries_arrive_of_ne {s : State κ β} {p : Part κ β} {id : κ} (i : ℕ)
    (hid : p.id ≠ id) : (s.arrive p).deliveries id i = s.deliveries id i := by
  unfold State.deliveries
  by_cases hcomplete : Complete p.total (s.history p)
  · simp [State.arrive_of_complete hcomplete, hid, Function.update_of_ne (Ne.symm hid)]
  · simp [State.arrive_of_missing hcomplete, Function.update_of_ne (Ne.symm hid)]

theorem State.deliveries_arrive {s : State κ β} {p : Part κ β} {i : ℕ} (hi : i < p.total) :
    (s.arrive p).deliveries p.id i ≤ s.deliveries p.id i + if p.index = i then 1 else 0 := by
  have hindex : i ∈ indices (s.history p) ↔ p.index = i ∨ i ∈ indices (s.pending p.id) := by
    rw [State.history, indices_cons, Finset.mem_insert, eq_comm]
  unfold State.deliveries
  by_cases hcomplete : Complete p.total (s.history p)
  · have hhere : p.index = i ∨ i ∈ indices (s.pending p.id) := by
      rw [← hindex, hcomplete]
      exact Finset.mem_range.mpr hi
    have hone : 1 ≤ (if i ∈ indices (s.pending p.id) then 1 else 0) +
        if p.index = i then 1 else 0 := by
      rcases hhere with h | h <;> simp [h]
    rw [State.arrive_of_complete hcomplete]
    simp only [List.countP_append, List.countP_singleton, Function.update_self, decide_true,
      indices_nil, Finset.notMem_empty, if_false, if_true]
    omega
  · rw [State.arrive_of_missing hcomplete]
    simp only [Function.update_self, hindex]
    by_cases h : p.index = i
    · simp only [h, true_or, if_true]
      omega
    · simp only [h, false_or, if_false]
      omega

/-- A message is delivered at most as often as any one of its slices has arrived. -/
theorem State.deliveries_run_le {ps : List (Part κ β)} {id : κ} {i : ℕ}
    (htotal : ∀ p ∈ ps, p.id = id → i < p.total) :
    ((State.empty : State κ β).run ps).deliveries id i ≤
      ps.countP fun p => decide (p.id = id ∧ p.index = i) := by
  induction ps using List.reverseRecOn with
  | nil => simp [State.deliveries, State.empty]
  | append_singleton ps p ih =>
    obtain ⟨hps, hp⟩ := List.forall_mem_append.mp htotal
    have hsofar := ih hps
    rw [State.run_append, State.run_cons, State.run_nil, List.countP_append,
      List.countP_singleton]
    simp only [decide_eq_true_eq]
    by_cases hid : p.id = id
    · subst hid
      simp only [true_and]
      have hstep :=
        ((State.empty : State κ β).run ps).deliveries_arrive (hp p List.mem_cons_self rfl)
      omega
    · rw [State.deliveries_arrive_of_ne i hid]
      omega

theorem firstFor_of_agree {xs : List (Slice β)} {i : ℕ} {data : List β}
    (hi : i ∈ indices xs) (h : ∀ x ∈ xs, x.index = i → x.data = data) :
    firstFor xs i = data := by
  induction xs with
  | nil => simp at hi
  | cons x xs ih =>
    obtain ⟨hx, hxs⟩ := List.forall_mem_cons.mp h
    rw [firstFor]
    split
    · rename_i hhere
      exact hx hhere.1
    · rename_i hnot
      refine ih ?_ hxs
      rw [indices_cons, Finset.mem_insert] at hi
      by_contra habsent
      exact hnot ⟨(hi.resolve_right habsent).symm, habsent⟩

/-! ## Forgetting what is under way -/

/-- The messages that are under way under some names are given up. -/
def State.forget (s : State κ β) (ids : κ → Bool) : State κ β :=
  ⟨fun id => if ids id then [] else s.pending id, s.completed⟩

theorem State.forget_arrive_missing {s : State κ β} {p : Part κ β} {ids : κ → Bool}
    (hid : ids p.id = true) (h : ¬Complete p.total (s.history p)) :
    (s.arrive p).forget ids = s.forget ids := by
  rw [State.arrive_of_missing h, State.forget, State.forget, State.mk.injEq]
  refine ⟨funext fun id => ?_, rfl⟩
  by_cases hne : id = p.id
  · subst hne
    rw [if_pos hid, if_pos hid]
  · dsimp only
    rw [Function.update_of_ne hne]

/-- Giving up others does not matter to a part. -/
theorem State.forget_arrive {s : State κ β} {p : Part κ β} {ids : κ → Bool}
    (hid : ids p.id = false) : (s.arrive p).forget ids = (s.forget ids).arrive p := by
  have hhistory : (s.forget ids).history p = s.history p := by
    simp [State.history, State.forget, hid]
  by_cases h : Complete p.total (s.history p)
  · rw [State.arrive_of_complete h, State.arrive_of_complete (hhistory ▸ h), hhistory, State.forget,
      State.mk.injEq]
    refine ⟨funext fun id => ?_, rfl⟩
    by_cases hne : id = p.id
    · subst hne
      simp
    · simp [State.forget, Function.update_of_ne hne]
  · rw [State.arrive_of_missing h, State.arrive_of_missing (hhistory ▸ h), hhistory, State.forget,
      State.mk.injEq]
    refine ⟨funext fun id => ?_, rfl⟩
    by_cases hne : id = p.id
    · subst hne
      simp [hid]
    · simp [State.forget, Function.update_of_ne hne]

/-- What is left after giving up is what comes of some of the parts. -/
theorem State.exists_run_forget (ps : List (Part κ β)) (ids : κ → Bool) :
    ∃ kept : List (Part κ β), kept.Sublist ps ∧
      (State.empty : State κ β).run kept = ((State.empty : State κ β).run ps).forget ids := by
  induction ps using List.reverseRecOn generalizing ids with
  | nil =>
    refine ⟨[], List.Sublist.refl [], ?_⟩
    rw [State.run_nil, State.forget, State.empty, State.mk.injEq]
    exact ⟨funext fun id => (ite_self _).symm, rfl⟩
  | append_singleton ps p ih =>
    rw [State.run_append, State.run_cons, State.run_nil]
    obtain ⟨s, hs⟩ : ∃ s, s = (State.empty : State κ β).run ps := ⟨_, rfl⟩
    rw [← hs] at ih ⊢
    have hstays (others : κ → Bool) (hother : others p.id = false)
        (hsame : (s.arrive p).forget others = (s.arrive p).forget ids) :
        ∃ kept : List (Part κ β), kept.Sublist (ps ++ [p]) ∧
          (State.empty : State κ β).run kept = (s.arrive p).forget ids := by
      obtain ⟨kept, hkept, hrun⟩ := ih others
      refine ⟨kept ++ [p], hkept.append_right [p], ?_⟩
      rw [State.run_append, hrun, ← hsame, State.forget_arrive hother]
      rfl
    cases hid : ids p.id with
    | false => exact hstays ids hid rfl
    | true =>
      by_cases hcomplete : Complete p.total (s.history p)
      · -- The part completes its message, of which nothing is under way afterwards.
        refine hstays (fun id => ids id && decide (id ≠ p.id)) (by simp) ?_
        rw [State.arrive_of_complete hcomplete, State.forget, State.forget, State.mk.injEq]
        refine ⟨funext fun id => ?_, rfl⟩
        by_cases hne : id = p.id
        · subst hne
          simp
        · simp [hne]
      · obtain ⟨kept, hkept, hrun⟩ := ih ids
        refine ⟨kept, hkept.trans (List.sublist_append_left ps [p]), ?_⟩
        rw [hrun, State.forget_arrive_missing hid hcomplete]

end Run

end Reassembly
