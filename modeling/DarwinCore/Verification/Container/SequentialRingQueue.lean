import DarwinCore.Verification.Container.MPMCRingQueue

/-! # `MPMCRingQueue` in one thread

A cell that is free for a position has its sequence number, one that holds a value the next one.
A ring of one cell cannot tell the one from the other. -/

namespace DarwinCore.Container

variable {α : Type*}

/-! ## A FIFO that counts -/

/-- A FIFO, with the number of values that have been popped. -/
structure CountingFifo (α : Type*) where
  popped : ℕ := 0
  unread : List α := []

def SequentialCall.operation : SequentialCall α → RingOperation α
  | push value _ => .push value
  | pop _ _ => .pop

def SequentialCall.spurious : SequentialCall α → ℕ
  | push _ spurious => spurious
  | pop _ spurious => spurious

namespace CountingFifo

/-- A call of a FIFO of at most `capacity` values. -/
def apply (capacity : ℕ) (s : CountingFifo α) : RingOperation α → RingResult α × CountingFifo α
  | .push value =>
      if s.unread.length < capacity then
        (.pushed true, { s with unread := s.unread ++ [value] })
      else (.pushed false, s)
  | .pop =>
      match s.unread with
      | [] => (.popped none, s)
      | value :: unread => (.popped (some value), ⟨s.popped + 1, unread⟩)

def applyAll (capacity : ℕ) :
    CountingFifo α → List (RingOperation α) → List (RingResult α) × CountingFifo α
  | s, [] => ([], s)
  | s, operation :: operations =>
      let (result, s) := s.apply capacity operation
      let (results, s) := applyAll capacity s operations
      (result :: results, s)

end CountingFifo

/-! ## Sequence numbers -/

/-- Between the positions `pos - d` and `pos`, as `intptr_t`, the sign changes. -/
def Crosses (pos d : ℕ) : Prop :=
  2 ^ 63 ≤ pos % 2 ^ 64 ∧ pos % 2 ^ 64 < 2 ^ 63 + d

instance (pos d : ℕ) : Decidable (Crosses pos d) :=
  inferInstanceAs (Decidable (_ ∧ _))

private theorem intptr_of_le {n : ℕ} (hle : 2 ^ 63 ≤ n) (hlt : n < 2 ^ 64) :
    intptr n = n - 2 ^ 64 := by
  unfold intptr
  rw [← Int.sub_bmod_right]
  refine Int.bmod_eq_of_le_mul_two ?_ ?_
  · omega
  · omega

theorem intptrDifference_self (n : ℕ) : intptrDifference n n = some 0 := by
  unfold intptrDifference
  rw [Int.sub_self]
  rfl

private theorem intptr_sub {a b d : ℕ} (ha : a < 2 ^ 64) (hb : b < 2 ^ 64) (hd : d < 2 ^ 63)
    (hsum : b = a + d ∨ b + 2 ^ 64 = a + d) :
    intptr a - intptr b =
      if 2 ^ 63 ≤ b ∧ b < 2 ^ 63 + d then 2 ^ 64 - (d : ℤ) else -(d : ℤ) := by
  rcases Nat.lt_or_ge a (2 ^ 63) with halow | hahigh
  · rcases Nat.lt_or_ge b (2 ^ 63) with hblow | hbhigh
    · rw [intptr_eq halow, intptr_eq hblow]
      split_ifs <;> omega
    · rw [intptr_eq halow, intptr_of_le hbhigh hb]
      split_ifs <;> omega
  · rcases Nat.lt_or_ge b (2 ^ 63) with hblow | hbhigh
    · rw [intptr_of_le hahigh ha, intptr_eq hblow]
      split_ifs <;> omega
    · rw [intptr_of_le hahigh ha, intptr_of_le hbhigh hb]
      split_ifs <;> omega

theorem intptr_mod_sub {n d : ℕ} (hd : d < 2 ^ 63) :
    intptr (n % 2 ^ 64) - intptr ((n + d) % 2 ^ 64) =
      if Crosses (n + d) d then 2 ^ 64 - (d : ℤ) else -(d : ℤ) :=
  intptr_sub (Nat.mod_lt _ (Nat.two_pow_pos 64)) (Nat.mod_lt _ (Nat.two_pow_pos 64)) hd (by omega)

theorem intptrDifference_add {n d : ℕ} (hd : d < 2 ^ 63) (hcross : ¬Crosses (n + d) d) :
    intptrDifference (n % 2 ^ 64) ((n + d) % 2 ^ 64) = some (-(d : ℤ)) := by
  unfold intptrDifference
  simp only [intptr_mod_sub hd, if_neg hcross]
  rw [if_pos (by omega)]

theorem intptrDifference_crosses {n d : ℕ} (hd : d < 2 ^ 63) (hcross : Crosses (n + d) d) :
    intptrDifference (n % 2 ^ 64) ((n + d) % 2 ^ 64) = none := by
  unfold intptrDifference
  simp only [intptr_mod_sub hd, if_pos hcross]
  rw [if_neg (by omega)]

/-- A call can tell a full or an empty ring from others: there is more than one cell, and the
difference of the sequence number and the position is an `intptr_t`. -/
def CountingFifo.Safe (capacity : ℕ) (s : CountingFifo α) : RingOperation α → Prop
  | .push _ => s.unread.length = capacity →
      capacity ≠ 1 ∧ ¬Crosses (s.popped + capacity) (capacity - 1)
  | .pop => s.unread = [] → ¬Crosses (s.popped + 1) 1

namespace MPMCRingQueue

variable {q : MPMCRingQueue α} {s : CountingFifo α} {cell : Cell α} {due : ℕ → ℕ}
  {k n pos fuel spurious seq : ℕ} {value : α}

/-! ## Cells -/

theorem cell_eq (h : q.capacity_ = 2 ^ k) (pos : ℕ) : q.cell pos = q.buffer[pos % 2 ^ k]? := by
  rw [cell, and_mask h]

theorem cell_mod (h : q.capacity_ = 2 ^ k) (hk : k ≤ 64) (pos : ℕ) :
    q.cell (pos % 2 ^ 64) = q.cell pos := by
  rw [cell_eq h, cell_eq h, Nat.mod_mod_of_dvd _ (Nat.pow_dvd_pow 2 hk)]

theorem cell_fill (pos : ℕ) (value : α) (seq n : ℕ) (h : q.capacity_ = 2 ^ k) :
    ((q.assign pos value).publish pos seq).cell n =
      if n % 2 ^ k = pos % 2 ^ k then (q.cell n).map fun _ => ⟨seq, value⟩ else q.cell n := by
  have hmask (q' : MPMCRingQueue α) (h' : q'.capacity_ = 2 ^ k) (f : Cell α → Cell α) :
      (q'.modifyCell pos f).cell n =
        if n % 2 ^ k = pos % 2 ^ k then (q'.cell n).map f else q'.cell n := by
    rw [cell_eq (q := q'.modifyCell pos f) h', cell_eq h', modifyCell, and_mask h',
      List.getElem?_modify]
    by_cases hn : n % 2 ^ k = pos % 2 ^ k
    · simp [hn]
    · simp [hn, Ne.symm hn]
  rw [publish, hmask (q.assign pos value) h, assign, hmask q h]
  split_ifs with hn
  · rw [Option.map_map]
    rfl
  · rfl

/-! ## The loop -/

theorem claim_of_zero (hcell : q.cell pos = some cell)
    (hdiff : intptrDifference cell.sequence (due pos) = some 0) (hfuel : spurious < fuel) :
    q.claim pos due fuel spurious pos = some (some pos) := by
  induction spurious generalizing fuel with
  | zero =>
    obtain ⟨fuel, rfl⟩ := Nat.exists_eq_add_one_of_ne_zero (Nat.ne_zero_of_lt hfuel)
    rw [claim, hcell, Option.map_some, Option.bind_eq_bind, Option.bind_some, hdiff,
      Option.bind_eq_bind, Option.bind_some, if_pos rfl, if_pos ⟨rfl, rfl⟩]
  | succ spurious ih =>
    obtain ⟨fuel, rfl⟩ := Nat.exists_eq_add_one_of_ne_zero (Nat.ne_zero_of_lt hfuel)
    rw [claim, hcell, Option.map_some, Option.bind_eq_bind, Option.bind_some, hdiff,
      Option.bind_eq_bind, Option.bind_some, if_pos rfl,
      if_neg fun h => Nat.succ_ne_zero _ h.1, Nat.add_sub_cancel]
    exact ih (Nat.lt_of_succ_lt_succ hfuel)

theorem claim_of_neg {diff : ℤ} (due : ℕ → ℕ) (hcell : q.cell pos = some cell)
    (hdiff : intptrDifference cell.sequence (due pos) = some diff) (hneg : diff < 0)
    (hfuel : spurious < fuel) : q.claim pos due fuel spurious pos = some none := by
  obtain ⟨fuel, rfl⟩ := Nat.exists_eq_add_one_of_ne_zero (Nat.ne_zero_of_lt hfuel)
  rw [claim, hcell, Option.map_some, Option.bind_eq_bind, Option.bind_some, hdiff,
    Option.bind_eq_bind, Option.bind_some, if_neg (Int.ne_of_lt hneg), if_pos hneg]

theorem claim_of_none (due : ℕ → ℕ) (hcell : q.cell pos = some cell)
    (hdiff : intptrDifference cell.sequence (due pos) = none) :
    q.claim pos due fuel spurious pos = none := by
  cases fuel with
  | zero => rfl
  | succ fuel =>
    rw [claim, hcell, Option.map_some, Option.bind_eq_bind, Option.bind_some, hdiff]
    rfl

private theorem claim_of_pos {diff : ℤ} (due : ℕ → ℕ) (hcell : q.cell pos = some cell)
    (hdiff : intptrDifference cell.sequence (due pos) = some diff) (hpos : 0 < diff) :
    q.claim pos due fuel spurious pos = none := by
  induction fuel with
  | zero => rfl
  | succ fuel ih =>
    rw [claim, hcell, Option.map_some, Option.bind_eq_bind, Option.bind_some, hdiff,
      Option.bind_eq_bind, Option.bind_some, if_neg (Int.ne_of_gt hpos), if_neg (by omega), ih]

/-! ## The queue and the FIFO -/

/-- From `head_` on, the cells hold the values that have not been read, and the others are free
for the positions after them. -/
structure Fits (k : ℕ) (s : CountingFifo α) (q : MPMCRingQueue α) : Prop where
  capacity_eq : q.capacity_ = 2 ^ k
  head : q.head = s.popped % 2 ^ 64
  tail : q.tail = (s.popped + s.unread.length) % 2 ^ 64
  room : s.unread.length ≤ 2 ^ k
  holding : ∀ i value, s.unread[i]? = some value →
    q.cell (s.popped + i) = some ⟨(s.popped + i + 1) % 2 ^ 64, value⟩
  free : ∀ i, s.unread.length ≤ i → i < 2 ^ k →
    ∃ data, q.cell (s.popped + i) = some ⟨(s.popped + i) % 2 ^ 64, data⟩

namespace Fits

theorem push (h : q.Fits k s) (hk : k ≤ 62) (hfuel : spurious < fuel)
    (hroom : s.unread.length < 2 ^ k) :
    ∃ q', q.push fuel value spurious = some (.pushed true, q') ∧
      q'.Fits k { s with unread := s.unread ++ [value] } := by
  obtain ⟨data, hcell⟩ := h.free s.unread.length le_rfl hroom
  have hclaim : q.claim q.tail id fuel spurious q.tail = some (some q.tail) := by
    rw [h.tail]
    exact claim_of_zero ((cell_mod h.capacity_eq (by omega) _).trans hcell)
      (intptrDifference_self _) hfuel
  have hfill (i : ℕ) := cell_fill (q := { q with tail := addSize q.tail 1 }) q.tail value
    (addSize q.tail 1) (s.popped + i) h.capacity_eq
  have hslot : q.tail % 2 ^ k = (s.popped + s.unread.length) % 2 ^ k := by
    rw [h.tail, Nat.mod_mod_of_dvd _ (Nat.pow_dvd_pow 2 (by omega))]
  have hnext : addSize q.tail 1 = (s.popped + s.unread.length + 1) % 2 ^ 64 := by
    rw [addSize, h.tail, Nat.mod_add_mod]
  refine ⟨(({ q with tail := addSize q.tail 1 } : MPMCRingQueue α).assign q.tail value).publish
    q.tail (addSize q.tail 1), by rw [MPMCRingQueue.push, hclaim],
    ⟨h.capacity_eq, h.head, ?_, ?_, ?_, ?_⟩⟩
  · rw [List.length_append, List.length_singleton, ← Nat.add_assoc]
    exact hnext
  · rw [List.length_append, List.length_singleton]
    exact hroom
  · intro i v hv
    rw [hfill, hslot]
    have hi := (List.getElem?_eq_some_iff.mp hv).1
    rw [List.length_append, List.length_singleton] at hi
    rcases Nat.lt_succ_iff_lt_or_eq.mp hi with hlt | rfl
    · rw [List.getElem?_append_left hlt] at hv
      rw [if_neg (Ring.slot_ne hlt hroom)]
      exact h.holding i v hv
    · rw [List.getElem?_concat_length] at hv
      cases hv
      rw [if_pos rfl, hnext]
      exact congrArg (Option.map _) hcell
  · intro i hi hlt
    rw [List.length_append, List.length_singleton] at hi
    rw [hfill, hslot, if_neg (Ring.slot_ne hi hlt).symm]
    exact h.free i (Nat.le_of_succ_le hi) hlt

private theorem push_again (value : α) (h : q.Fits 0 s) (hfuel : spurious < fuel)
    (hfull : s.unread.length = 1) :
    ∃ q', q.push fuel value spurious = some (.pushed true, q') := by
  obtain ⟨v, hv⟩ := List.length_eq_one_iff.mp hfull
  have hcell := h.holding 0 v (by rw [hv]; rfl)
  have htail : q.tail = (s.popped + 1) % 2 ^ 64 := by
    rw [h.tail, hfull]
  have hsame : q.cell q.tail = q.cell (s.popped + 0) := by
    rw [cell_eq h.capacity_eq, cell_eq h.capacity_eq, pow_zero, Nat.mod_one, Nat.mod_one]
  have hclaim : q.claim q.tail id fuel spurious q.tail = some (some q.tail) := by
    refine claim_of_zero (hsame.trans hcell) ?_ hfuel
    rw [htail]
    exact intptrDifference_self _
  rw [MPMCRingQueue.push, hclaim]
  exact ⟨_, rfl⟩

theorem full (h : q.Fits k s) (hk : k ≤ 62) (hfull : s.unread.length = 2 ^ k) :
    ∃ value, q.cell q.tail = some ⟨(s.popped + 1) % 2 ^ 64, value⟩ ∧
      q.tail = (s.popped + 1 + (2 ^ k - 1)) % 2 ^ 64 := by
  have hpos : 0 < s.unread.length := hfull ▸ Nat.two_pow_pos k
  have hcell := h.holding 0 _ (List.getElem?_eq_getElem hpos)
  refine ⟨s.unread[0], ?_, ?_⟩
  · rw [h.tail, cell_mod h.capacity_eq (by omega), cell_eq h.capacity_eq, hfull, Nat.add_mod_right,
      ← cell_eq h.capacity_eq]
    exact hcell
  · rw [h.tail, hfull, Nat.add_assoc, Nat.add_sub_cancel' (Nat.two_pow_pos k)]

private theorem push_full (h : q.Fits k s) (hk : k ≤ 62) (hfuel : spurious < fuel)
    (hfull : s.unread.length = 2 ^ k) (hone : 2 ^ k ≠ 1)
    (hcross : ¬Crosses (s.popped + 2 ^ k) (2 ^ k - 1)) :
    q.push fuel value spurious = some (.pushed false, q) := by
  obtain ⟨v, hcell, htail⟩ := h.full hk hfull
  have hpos := Nat.two_pow_pos k
  have hsmall : 2 ^ k ≤ 2 ^ 62 := Nat.pow_le_pow_right Nat.two_pos hk
  have hposition : s.popped + 1 + (2 ^ k - 1) = s.popped + 2 ^ k := by omega
  have hdiff : intptrDifference ((s.popped + 1) % 2 ^ 64) q.tail =
      some (-((2 ^ k - 1 : ℕ) : ℤ)) := by
    rw [htail]
    rw [← hposition] at hcross
    exact intptrDifference_add (n := s.popped + 1) (d := 2 ^ k - 1) (by omega) hcross
  rw [MPMCRingQueue.push, claim_of_neg id hcell hdiff (by omega) hfuel]

private theorem push_crosses (h : q.Fits k s) (hk : k ≤ 62) (hfull : s.unread.length = 2 ^ k)
    (hcross : Crosses (s.popped + 2 ^ k) (2 ^ k - 1)) : q.push fuel value spurious = none := by
  obtain ⟨v, hcell, htail⟩ := h.full hk hfull
  have hpos := Nat.two_pow_pos k
  have hsmall : 2 ^ k ≤ 2 ^ 62 := Nat.pow_le_pow_right Nat.two_pos hk
  have hposition : s.popped + 1 + (2 ^ k - 1) = s.popped + 2 ^ k := by omega
  have hdiff : intptrDifference ((s.popped + 1) % 2 ^ 64) q.tail = none := by
    rw [htail]
    rw [← hposition] at hcross
    exact intptrDifference_crosses (n := s.popped + 1) (d := 2 ^ k - 1) (by omega) hcross
  rw [MPMCRingQueue.push, claim_of_none id hcell hdiff]

theorem pop (h : q.Fits k s) (hk : k ≤ 62) (hfuel : spurious < fuel) {moved : α}
    {unread : List α} (hunread : s.unread = value :: unread) :
    ∃ q', q.pop fuel moved spurious = some (.popped (some value), q') ∧
      q'.Fits k ⟨s.popped + 1, unread⟩ := by
  have hcell : q.cell s.popped = some ⟨(s.popped + 1) % 2 ^ 64, value⟩ :=
    h.holding 0 value (by rw [hunread]; rfl)
  have hhead : q.cell q.head = some ⟨(s.popped + 1) % 2 ^ 64, value⟩ := by
    rw [h.head, cell_mod h.capacity_eq (by omega), hcell]
  have hnext : addSize q.head 1 = (s.popped + 1) % 2 ^ 64 := by
    rw [addSize, h.head, Nat.mod_add_mod]
  have hclaim : q.claim q.head (addSize · 1) fuel spurious q.head = some (some q.head) := by
    refine claim_of_zero hhead ?_ hfuel
    rw [hnext]
    exact intptrDifference_self _
  have hlength : s.unread.length = unread.length + 1 := by rw [hunread, List.length_cons]
  have hroom := h.room
  have hpos := Nat.two_pow_pos k
  have hfree : addSize (addSize q.head q.mask) 1 = (s.popped + 2 ^ k) % 2 ^ 64 := by
    rw [addSize, addSize, h.head, mask, h.capacity_eq, Nat.mod_add_mod, Nat.add_assoc,
      Nat.sub_add_cancel hpos, Nat.mod_add_mod]
  have hfill (i : ℕ) := cell_fill (q := { q with head := addSize q.head 1 }) q.head moved
    ((s.popped + 2 ^ k) % 2 ^ 64) (s.popped + 1 + i) h.capacity_eq
  have hslot : q.head % 2 ^ k = s.popped % 2 ^ k := by
    rw [h.head, Nat.mod_mod_of_dvd _ (Nat.pow_dvd_pow 2 (by omega))]
  refine ⟨(({ q with head := addSize q.head 1 } : MPMCRingQueue α).assign q.head moved).publish
    q.head ((s.popped + 2 ^ k) % 2 ^ 64), ?_, ⟨h.capacity_eq, hnext, ?_, ?_, ?_, ?_⟩⟩
  · have hcell' : MPMCRingQueue.cell q.head { q with head := addSize q.head 1 } =
        some ⟨(s.popped + 1) % 2 ^ 64, value⟩ := hhead
    rw [MPMCRingQueue.pop, hclaim]
    simp only [hcell']
    rw [← hfree]
    rfl
  · rw [Nat.add_right_comm, Nat.add_assoc, ← hlength]
    exact h.tail
  · exact Nat.le_of_succ_le (hlength.symm.trans_le hroom)
  · intro i v hv
    have hi : i < unread.length := (List.getElem?_eq_some_iff.mp hv).1
    rw [hfill, hslot, if_neg (Ring.gone_ne hi (by omega))]
    have hold := h.holding (i + 1) v (by rw [hunread]; simpa using hv)
    rw [← Nat.add_assoc, Nat.add_right_comm s.popped] at hold
    exact hold
  · intro i hi hlt
    have hi' : unread.length ≤ i := hi
    by_cases hlast : i + 1 = 2 ^ k
    · have hindex : s.popped + 1 + i = s.popped + 2 ^ k := by omega
      refine ⟨moved, ?_⟩
      have hold : q.cell (s.popped + 2 ^ k) = q.cell s.popped := by
        rw [cell_eq h.capacity_eq, cell_eq h.capacity_eq, Nat.add_mod_right]
      rw [hfill, hslot, hindex, if_pos (Nat.add_mod_right _ _)]
      exact congrArg (Option.map _) (hold.trans hcell)
    · obtain ⟨data, hdata⟩ := h.free (i + 1) (by omega) (by omega)
      rw [← Nat.add_assoc, Nat.add_right_comm s.popped] at hdata
      refine ⟨data, ?_⟩
      rw [hfill, hslot, if_neg]
      · exact hdata
      · exact Ring.gone_ne (m := i + 1) (by omega) (by omega)

theorem empty (h : q.Fits k s) (hk : k ≤ 62) (hempty : s.unread = []) :
    ∃ data, q.cell q.head = some ⟨s.popped % 2 ^ 64, data⟩ ∧
      addSize q.head 1 = (s.popped + 1) % 2 ^ 64 := by
  obtain ⟨data, hdata⟩ := h.free 0 (by rw [hempty]; exact Nat.le_refl 0) (Nat.two_pow_pos k)
  refine ⟨data, ?_, ?_⟩
  · rw [h.head, cell_mod h.capacity_eq (by omega)]
    exact hdata
  · rw [addSize, h.head, Nat.mod_add_mod]

private theorem pop_empty (h : q.Fits k s) (hk : k ≤ 62) (hfuel : spurious < fuel) {moved : α}
    (hempty : s.unread = []) (hcross : ¬Crosses (s.popped + 1) 1) :
    q.pop fuel moved spurious = some (.popped none, q) := by
  obtain ⟨data, hcell, hnext⟩ := h.empty hk hempty
  have hdiff : intptrDifference (s.popped % 2 ^ 64) (addSize q.head 1) = some (-((1 : ℕ) : ℤ)) := by
    rw [hnext]
    exact intptrDifference_add (n := s.popped) (d := 1) (by omega) hcross
  rw [MPMCRingQueue.pop, claim_of_neg (addSize · 1) hcell hdiff (by omega) hfuel]

private theorem pop_crosses (h : q.Fits k s) (hk : k ≤ 62) {moved : α} (hempty : s.unread = [])
    (hcross : Crosses (s.popped + 1) 1) : q.pop fuel moved spurious = none := by
  obtain ⟨data, hcell, hnext⟩ := h.empty hk hempty
  have hdiff : intptrDifference (s.popped % 2 ^ 64) (addSize q.head 1) = none := by
    rw [hnext]
    exact intptrDifference_crosses (n := s.popped) (d := 1) (by omega) hcross
  rw [MPMCRingQueue.pop, claim_of_none (addSize · 1) hcell hdiff]

end Fits

/-! ## Calls -/

variable {call : SequentialCall α} {calls : List (SequentialCall α)}

/-- A call that can tell what it finds does what the FIFO does. -/
theorem Fits.runCall (h : q.Fits k s) (hk : k ≤ 62) (hfuel : call.spurious < fuel)
    (hsafe : s.Safe (2 ^ k) call.operation) :
    ∃ q', q.runCall fuel call = some ((s.apply (2 ^ k) call.operation).1, q') ∧
      q'.Fits k (s.apply (2 ^ k) call.operation).2 := by
  cases call with
  | push value spurious =>
    rw [SequentialCall.operation, CountingFifo.apply]
    by_cases hroom : s.unread.length < 2 ^ k
    · rw [if_pos hroom]
      exact h.push hk hfuel hroom
    · rw [if_neg hroom]
      have hfull : s.unread.length = 2 ^ k := by
        have hle := h.room
        omega
      obtain ⟨hone, hcross⟩ := hsafe hfull
      exact ⟨q, h.push_full hk hfuel hfull hone hcross, h⟩
  | pop moved spurious =>
    rw [SequentialCall.operation, CountingFifo.apply]
    cases hunread : s.unread with
    | nil => exact ⟨q, h.pop_empty hk hfuel hunread (hsafe hunread), h⟩
    | cons value unread => exact h.pop hk hfuel hunread

theorem Fits.safe_of_runCall (h : q.Fits k s) (hk : k ≤ 62) (hfuel : call.spurious < fuel)
    {q' : MPMCRingQueue α}
    (hrun : q.runCall fuel call = some ((s.apply (2 ^ k) call.operation).1, q')) :
    s.Safe (2 ^ k) call.operation := by
  cases call with
  | push value spurious =>
    intro hfull
    rw [SequentialCall.operation, CountingFifo.apply, if_neg (by omega)] at hrun
    refine ⟨fun hone => ?_, fun hcross => ?_⟩
    · obtain rfl : k = 0 := by simpa using hone
      obtain ⟨q'', hagain⟩ := h.push_again value hfuel hfull
      have heq : some (RingResult.pushed true, q'') = some (RingResult.pushed false, q') :=
        hagain.symm.trans hrun
      simp at heq
    · exact Option.some_ne_none _ (hrun.symm.trans (h.push_crosses hk hfull hcross))
  | pop moved spurious =>
    intro hempty hcross
    exact Option.some_ne_none _ (hrun.symm.trans (h.pop_crosses hk hempty hcross))

/-- Each of the calls can tell what it finds. -/
def SafeCalls (k : ℕ) (s : CountingFifo α) (calls : List (SequentialCall α)) : Prop :=
  ∀ before operation after, calls.map SequentialCall.operation = before ++ operation :: after →
    (s.applyAll (2 ^ k) before).2.Safe (2 ^ k) operation

theorem Fits.runCalls (h : q.Fits k s) (hk : k ≤ 62)
    (hfuel : ∀ call ∈ calls, call.spurious < fuel) (hsafe : SafeCalls k s calls) :
    ∃ q', q.runCalls fuel calls =
        some ((s.applyAll (2 ^ k) (calls.map SequentialCall.operation)).1, q') ∧
      q'.Fits k (s.applyAll (2 ^ k) (calls.map SequentialCall.operation)).2 := by
  induction calls generalizing q s with
  | nil => exact ⟨q, rfl, h⟩
  | cons call calls ih =>
    obtain ⟨hcall, hcalls⟩ := List.forall_mem_cons.mp hfuel
    obtain ⟨q', hrun, hfits⟩ := h.runCall hk hcall (hsafe [] _ _ rfl)
    obtain ⟨q'', hrun', hfits'⟩ := ih hfits hcalls fun before operation after heq =>
      hsafe (call.operation :: before) operation after (by rw [List.map_cons, heq]; rfl)
    refine ⟨q'', ?_, hfits'⟩
    rw [MPMCRingQueue.runCalls, hrun]
    simp only [Option.bind_eq_bind, Option.bind_some, hrun']
    rfl

theorem Fits.safe_of_runCalls (h : q.Fits k s) (hk : k ≤ 62)
    (hfuel : ∀ call ∈ calls, call.spurious < fuel) {q' : MPMCRingQueue α}
    (hrun : q.runCalls fuel calls =
      some ((s.applyAll (2 ^ k) (calls.map SequentialCall.operation)).1, q')) :
    SafeCalls k s calls := by
  induction calls generalizing q s with
  | nil =>
    intro before operation after heq
    simp at heq
  | cons call calls ih =>
    intro before operation after heq
    obtain ⟨hcall, hcalls⟩ := List.forall_mem_cons.mp hfuel
    rw [MPMCRingQueue.runCalls] at hrun
    obtain ⟨⟨result, q₁⟩, hfirst, hrest⟩ := Option.bind_eq_some_iff.mp hrun
    obtain ⟨⟨results, q₂⟩, hrest, hresults⟩ := Option.bind_eq_some_iff.mp hrest
    obtain ⟨hlist, rfl⟩ := Prod.mk.inj (Option.some.inj hresults)
    obtain ⟨rfl, rfl⟩ := List.cons.inj hlist
    have hsafe := h.safe_of_runCall hk hcall hfirst
    cases before with
    | nil =>
      obtain ⟨rfl, -⟩ := List.cons.inj heq
      exact hsafe
    | cons first before =>
      obtain ⟨rfl, htail⟩ := List.cons.inj heq
      obtain ⟨q₁', hfirst', hfits⟩ := h.runCall hk hcall hsafe
      obtain ⟨-, rfl⟩ := Prod.mk.inj (Option.some.inj (hfirst.symm.trans hfirst'))
      exact ih hfits hcalls hrest before operation after htail

private theorem init_fits {buffer : List (Cell α)}
    (hbuffer : buffer.map Cell.sequence = List.range (2 ^ k)) (hk : k ≤ 62) :
    ({ capacity_ := 2 ^ k, buffer := buffer } : MPMCRingQueue α).Fits k {} where
  capacity_eq := rfl
  head := rfl
  tail := rfl
  room := Nat.zero_le _
  holding i value hvalue := by simp at hvalue
  free i _ hi := by
    have hlength : buffer.length = 2 ^ k := by
      rw [← List.length_map, hbuffer, List.length_range]
    have hseq : buffer[i].sequence = i := by
      have hget : (buffer.map Cell.sequence)[i]? = some i := by
        rw [hbuffer, List.getElem?_range hi]
      rw [List.getElem?_map, List.getElem?_eq_getElem (hlength ▸ hi)] at hget
      exact Option.some.inj hget
    have hsmall : 2 ^ k ≤ 2 ^ 62 := Nat.pow_le_pow_right Nat.two_pos hk
    refine ⟨buffer[i].data, ?_⟩
    rw [cell_eq rfl, Nat.zero_add, Nat.mod_eq_of_lt hi, Nat.mod_eq_of_lt (by omega),
      List.getElem?_eq_getElem (hlength ▸ hi)]
    exact congrArg some (congrArg (Cell.mk · _) hseq)

end MPMCRingQueue

/-- A queue for up to `2 ^ 62` values has the least power of two of cells that is enough. In one
thread its calls end and are those of a FIFO of that capacity, and the unread values stay in their
cells, iff no call meets a full ring of one cell, and none a full or an empty ring where the
difference of the sequence number and the position is no `intptr_t`. -/
theorem mpmc_sequential_iff {n fuel : ℕ} (hn : n ≤ 2 ^ 62) {buffer : List (Cell α)}
    (hbuffer : buffer.map Cell.sequence = List.range (nextPowerOfTwo n))
    {calls : List (SequentialCall α)} (hfuel : ∀ call ∈ calls, call.spurious < fuel) :
    ∃ capacity, nextPowerOfTwo n = capacity ∧ max n 1 ≤ capacity ∧ (∃ k, capacity = 2 ^ k) ∧
      (∀ k, max n 1 ≤ 2 ^ k → capacity ≤ 2 ^ k) ∧
      ((∃ q : MPMCRingQueue α,
        MPMCRingQueue.runCalls fuel calls { capacity_ := nextPowerOfTwo n, buffer := buffer } =
          some ((CountingFifo.applyAll capacity {} (calls.map SequentialCall.operation)).1, q) ∧
        ∀ i value, (CountingFifo.applyAll capacity {}
            (calls.map SequentialCall.operation)).2.unread[i]? = some value →
          (q.cell (q.head + i)).map Cell.data = some value) ↔
        ∀ before operation after,
          calls.map SequentialCall.operation = before ++ operation :: after →
            (CountingFifo.applyAll capacity {} before).2.Safe capacity operation) := by
  have heq : nextPowerOfTwo n = 2 ^ Nat.clog 2 n := nextPowerOfTwo_eq (Nat.le_trans hn (by decide))
  have hk : Nat.clog 2 n ≤ 62 := clog_le hn
  rw [heq] at hbuffer
  refine ⟨2 ^ Nat.clog 2 n, heq, Nat.max_le.mpr ⟨Nat.le_pow_clog Nat.one_lt_two n,
    Nat.two_pow_pos _⟩, ⟨_, rfl⟩, fun k hle => ?_, ?_⟩
  · exact Nat.pow_le_pow_right Nat.two_pos (clog_le (Nat.le_trans (Nat.le_max_left n 1) hle))
  · have hinit := MPMCRingQueue.init_fits hbuffer hk
    rw [heq]
    refine ⟨fun ⟨q, hrun, _⟩ => hinit.safe_of_runCalls hk hfuel hrun, fun hsafe => ?_⟩
    obtain ⟨q, hrun, hfits⟩ := hinit.runCalls hk hfuel hsafe
    refine ⟨q, hrun, fun i value hvalue => ?_⟩
    have hcell := hfits.holding i value hvalue
    rw [MPMCRingQueue.cell_eq hfits.capacity_eq] at hcell ⊢
    rw [hfits.head, Nat.add_mod, Nat.mod_mod_of_dvd _ (Nat.pow_dvd_pow 2 (by omega)), ← Nat.add_mod,
      hcell]
    rfl

theorem mpmc_sequential_iff_two :
    ∃ capacity, nextPowerOfTwo 2 = capacity ∧ max 2 1 ≤ capacity ∧ (∃ k, capacity = 2 ^ k) ∧
      (∀ k, max 2 1 ≤ 2 ^ k → capacity ≤ 2 ^ k) ∧
      ((∃ q : MPMCRingQueue ℕ,
        MPMCRingQueue.runCalls 1 [.push 7 0, .pop 0 0]
            { capacity_ := nextPowerOfTwo 2, buffer := [⟨0, 0⟩, ⟨1, 0⟩] } =
          some ((CountingFifo.applyAll capacity {} [.push 7, .pop]).1, q) ∧
        ∀ i value, (CountingFifo.applyAll capacity {} [.push 7, .pop]).2.unread[i]? = some value →
          (q.cell (q.head + i)).map Cell.data = some value) ↔
        ∀ before operation after,
          [.push 7, .pop] = before ++ operation :: after →
            (CountingFifo.applyAll capacity {} before).2.Safe capacity operation) := by
  have hbuffer : ([⟨0, 0⟩, ⟨1, 0⟩] : List (Cell ℕ)).map Cell.sequence =
      List.range (nextPowerOfTwo 2) := rfl
  have hfuel : ∀ call ∈ ([.push 7 0, .pop 0 0] : List (SequentialCall ℕ)), call.spurious < 1 := by
    decide
  exact mpmc_sequential_iff (by omega) hbuffer hfuel

/-- A ring of one cell takes a second value, which overwrites the first; then `pop` does not
end. -/
theorem mpmc_one_cell_overwrites :
    nextPowerOfTwo 1 = 1 ∧
      (CountingFifo.applyAll 1 {} [.push 5, .push 6]).1 = [.pushed true, .pushed false] ∧
      MPMCRingQueue.runCalls 1 [.push 5 0, .push 6 0]
          { capacity_ := 1, buffer := [⟨0, 0⟩] } =
        some ([.pushed true, .pushed true],
          { capacity_ := 1, buffer := [⟨2, 6⟩], head := 0, tail := 2 }) ∧
      ∀ fuel, MPMCRingQueue.pop fuel 0 0
        { capacity_ := 1, buffer := [⟨2, 6⟩], head := 0, tail := 2 } = none := by
  refine ⟨rfl, rfl, rfl, fun fuel => ?_⟩
  have hdiff : intptrDifference 2 (addSize 0 1) = some 1 := rfl
  have hcell : MPMCRingQueue.cell 0 { capacity_ := 1, buffer := [⟨2, 6⟩], head := 0, tail := 2 } =
      some (⟨2, 6⟩ : Cell ℕ) := rfl
  rw [MPMCRingQueue.pop, MPMCRingQueue.claim_of_pos (addSize · 1) hcell hdiff Int.one_pos]

end DarwinCore.Container
