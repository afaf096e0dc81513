import DarwinCore.Verification.Container.SPSCRingQueue
import Mathlib.Data.Nat.ModEq

/-! # `MPMCRingQueue` as a queue with tickets

The sequence number of a cell says how far the last ticket of its slot has come. Whoever claims
a ticket has seen that its slot is free, or filled, for just this ticket, and nobody else can
have claimed it since. -/

namespace DarwinCore.Container

open Tickets

variable {α : Type*}

/-! ## Cells -/

theorem intptr_eq {n : ℕ} (hn : n < 2 ^ 63) : intptr n = n := by
  refine Int.bmod_eq_of_le_mul_two ?_ ?_
  · omega
  · omega

theorem addSize_eq {m n : ℕ} (h : m + n < 2 ^ 64) : addSize m n = m + n :=
  Nat.mod_eq_of_lt h

/-- The sequence number of slot `i` counts the tickets of the slot. -/
structure Counts (c : ℕ) (log : List (Event α)) (i sequence : ℕ) : Prop where
  start : i ≤ sequence
  residue : sequence % c = i ∨ sequence % c = (i + 1) % c
  pushed : ∀ t, t % c = i → (Pushed log t ↔ t < sequence)
  popped : ∀ t, t % c = i → (Popped log t ↔ t + c ≤ sequence)

/-- Slot `i` holds the value that was written to it and has not been read. -/
def Stores (c : ℕ) (log : List (Event α)) (i : ℕ) (data : α) : Prop :=
  ∀ t v, t % c = i → .claimPush t v ∈ log → Written log t → ¬Read log t → data = v

/-- The cell of slot `i` is as the history says. -/
structure Cell.Fits (c : ℕ) (log : List (Event α)) (i : ℕ) (cell : Cell α) : Prop where
  counts : Counts c log i cell.sequence
  stores : Stores c log i cell.data

section Cells

variable {c i t sequence : ℕ} {log : List (Event α)} {e : Event α} {data v : α}

theorem Counts.cons (h : Counts c log i sequence)
    (hpushed : ∀ t v, e = .pushed t v → t % c ≠ i)
    (hpopped : ∀ t v, e = .popped t v → t % c ≠ i) : Counts c (e :: log) i sequence where
  start := h.start
  residue := h.residue
  pushed t ht := by
    rw [← h.pushed t ht]
    refine ⟨fun ⟨v, hv⟩ => ?_, fun hold => hold.mono (List.subset_cons_self e log)⟩
    rcases List.mem_cons.mp hv with heq | hlog
    · exact absurd ht (hpushed t v heq.symm)
    · exact ⟨v, hlog⟩
  popped t ht := by
    rw [← h.popped t ht]
    refine ⟨fun ⟨v, hv⟩ => ?_, fun hold => hold.mono (List.subset_cons_self e log)⟩
    rcases List.mem_cons.mp hv with heq | hlog
    · exact absurd ht (hpopped t v heq.symm)
    · exact ⟨v, hlog⟩

/-- A ticket of the slot is pushed. -/
theorem Counts.push (h : Counts c log (t % c) t) (hc : 2 ≤ c) :
    Counts c (.pushed t v :: log) (t % c) (t + 1) where
  start := Nat.le_succ_of_le h.start
  residue := .inr (Nat.mod_add_mod t c 1).symm
  pushed u hu := by
    constructor
    · rintro ⟨w, hw⟩
      rcases List.mem_cons.mp hw with heq | hlog
      · obtain ⟨rfl, -⟩ := Event.pushed.inj heq
        exact Nat.lt_succ_self _
      · exact Nat.lt_succ_of_lt ((h.pushed u hu).mp ⟨w, hlog⟩)
    · intro hlt
      rcases Nat.lt_succ_iff_lt_or_eq.mp hlt with hlt | rfl
      · exact ((h.pushed u hu).mpr hlt).mono (List.subset_cons_self _ log)
      · exact ⟨v, List.mem_cons_self⟩
  popped u hu := by
    have hiff : Popped (.pushed t v :: log) u ↔ Popped log u := by
      simp [Popped]
    rw [hiff, h.popped u hu]
    refine ⟨Nat.le_succ_of_le, fun hle => ?_⟩
    by_contra hnot
    -- a whole number of rounds is not one more than another
    have heq : u + c = t + 1 := by omega
    have hmod : (u + 1) % c = u % c := by
      rw [Nat.add_mod u 1, hu, ← Nat.add_mod, ← heq, Nat.add_mod_right, hu]
    have := Ring.eq_of_mod_eq (Nat.le_succ u) (by omega) hmod.symm
    omega

/-- A slot is released. -/
theorem Counts.pop (h : Counts c log (t % c) (t + 1)) (hc : 0 < c) :
    Counts c (.popped t v :: log) (t % c) (t + c) where
  start := Nat.le_trans (Nat.mod_le t c) (Nat.le_add_right t c)
  residue := .inl (Nat.add_mod_right t c)
  pushed u hu := by
    have hiff : Pushed (.popped t v :: log) u ↔ Pushed log u := by
      simp [Pushed]
    rw [hiff, h.pushed u hu]
    refine ⟨fun hlt => by omega, fun hlt => ?_⟩
    by_contra hnot
    have := Ring.eq_of_mod_eq (by omega) hlt hu.symm
    omega
  popped u hu := by
    constructor
    · rintro ⟨w, hw⟩
      rcases List.mem_cons.mp hw with heq | hlog
      · obtain ⟨rfl, -⟩ := Event.popped.inj heq
        exact le_rfl
      · have := (h.popped u hu).mp ⟨w, hlog⟩
        omega
    · intro hle
      rcases Nat.lt_or_eq_of_le (Nat.le_of_add_le_add_right hle) with hlt | rfl
      · refine Popped.mono ((h.popped u hu).mpr ?_) (List.subset_cons_self _ log)
        by_contra hnear
        have := Ring.eq_of_mod_eq (Nat.le_of_lt hlt) (by omega) hu
        omega
      · exact ⟨v, List.mem_cons_self⟩

theorem Stores.cons (h : Stores c log i data)
    (hclaim : ∀ t v, e = .claimPush t v → ¬Written log t)
    (hwritten : ∀ t v, e = .written t v → t % c ≠ i) : Stores c (e :: log) i data := by
  intro t v ht hpush ⟨w, hw⟩ hread
  have hwrites : Written log t := by
    rcases List.mem_cons.mp hw with heq | hlog
    · exact absurd ht (hwritten t w heq.symm)
    · exact ⟨w, hlog⟩
  have hpush' : .claimPush t v ∈ log := by
    rcases List.mem_cons.mp hpush with heq | hlog
    · exact absurd hwrites (hclaim t v heq.symm)
    · exact hlog
  exact h t v ht hpush' hwrites fun hold => hread (hold.mono (List.subset_cons_self e log))

theorem Stores.of_alone (hlawful : Lawful c log) (hclaim : .claimPush t v ∈ log)
    (hpopped : ¬Popped log t) (hdata : Written log t → ¬Read log t → data = v) :
    Stores c log (t % c) data := by
  intro u w hu hpush hwritten hread
  obtain rfl := hlawful.alone hpush hclaim hu (mt hlawful.read hread) hpopped
  rw [hdata hwritten hread]
  exact hlawful.claimPush_unique hclaim hpush

/-- With fewer than `2 ^ 63` claims, the sequence numbers are signed numbers. -/
theorem Counts.lt (h : Counts c log i sequence) (hlawful : Lawful c log) (hc : c ≤ 2 ^ 62)
    (hbound : pushes log + pops log < 2 ^ 63) (hi : i < c) : sequence < 2 ^ 63 := by
  have hle := hlawful.pops_le
  rcases h.residue with hfree | hfull
  · by_cases hfirst : sequence < c
    · omega
    · have hlast : (sequence - c) % c = i := by
        rw [← hfree, Nat.mod_eq_sub_mod (Nat.le_of_not_lt hfirst)]
      have hpopped := (h.popped (sequence - c) hlast).mpr (by omega)
      obtain ⟨v, hv⟩ := hlawful.read hpopped
      have := hlawful.claimPop_lt (hlawful.claims_of_read hv).1
      omega
  · cases sequence with
    | zero => omega
    | succ t =>
      have hlast : t % c = i := by
        have hmod : t % c = i % c := Nat.ModEq.add_right_cancel' 1 hfull
        rw [hmod, Nat.mod_eq_of_lt hi]
      obtain ⟨v, hv⟩ := (h.pushed t hlast).mpr (Nat.lt_succ_self t)
      have := hlawful.claimPush_lt (hlawful.claimPush_of_written (hlawful.written_of_pushed hv))
      omega

theorem Counts.eq_of_claimPush (h : Counts c log (t % c) sequence) (hlawful : Lawful c log)
    (hclaim : .claimPush t v ∈ log) (hpushed : ¬Pushed log t) : sequence = t := by
  have hle : t ≤ sequence := by
    by_cases hfirst : t < c
    · have hstart := h.start
      rw [Nat.mod_eq_of_lt hfirst] at hstart
      exact hstart
    · have hback : t - c + c = t := Nat.sub_add_cancel (Nat.le_of_not_lt hfirst)
      have hlast : (t - c) % c = t % c := (Nat.mod_eq_sub_mod (Nat.le_of_not_lt hfirst)).symm
      have hle := (h.popped (t - c) hlast).mp (hlawful.reuse (hback.symm ▸ hclaim))
      omega
  have hlt := mt (h.pushed t rfl).mpr hpushed
  omega

theorem Counts.eq_of_claimPop (h : Counts c log (t % c) sequence)
    (hpushed : Pushed log t) (hpopped : ¬Popped log t) : sequence = t + 1 := by
  have hlt := (h.pushed t rfl).mp hpushed
  have hnear := mt (h.popped t rfl).mpr hpopped
  rcases h.residue with hfree | hfull
  · have := Ring.eq_of_mod_eq (Nat.le_of_lt hlt) (by omega) hfree.symm
    omega
  · rw [Nat.mod_add_mod] at hfull
    exact (Ring.eq_of_mod_eq hlt (by omega) hfull.symm).symm

end Cells

/-! ## The queue -/

namespace MPMCRingQueue

variable {k pos i : ℕ} {q : MPMCRingQueue α} {log : List (Event α)} {e : Event α} {v : α}
  {cell : Cell α}

structure Reflects (k : ℕ) (log : List (Event α)) (q : MPMCRingQueue α) : Prop where
  capacity_eq : q.capacity_ = 2 ^ k
  length_eq : q.buffer.length = 2 ^ k
  lawful : Lawful (2 ^ k) log
  tail : q.tail = pushes log
  head : q.head = pops log
  cells : ∀ i (cell : Cell α), q.buffer[i]? = some cell → cell.Fits (2 ^ k) log i

theorem and_mask (h : q.capacity_ = 2 ^ k) (pos : ℕ) : pos &&& q.mask = pos % 2 ^ k := by
  rw [mask, h, Nat.and_two_pow_sub_one_eq_mod]

theorem Reflects.cell_eq (h : q.Reflects k log) (pos : ℕ) :
    q.cell pos = q.buffer[pos % 2 ^ k]? := by
  rw [cell, and_mask h.capacity_eq]

theorem Reflects.fits (h : q.Reflects k log) (hcell : q.cell pos = some cell) :
    cell.Fits (2 ^ k) log (pos % 2 ^ k) :=
  h.cells _ cell ((h.cell_eq pos).symm.trans hcell)

theorem Reflects.cons (h : q.Reflects k log) {q' : MPMCRingQueue α}
    (hcapacity : q'.capacity_ = q.capacity_) (hbuffer : q'.buffer = q.buffer)
    (hallowed : e.Allowed (2 ^ k) log) (htail : q'.tail = pushes (e :: log))
    (hhead : q'.head = pops (e :: log))
    (hfits : ∀ i (cell : Cell α), cell.Fits (2 ^ k) log i → cell.Fits (2 ^ k) (e :: log) i) :
    q'.Reflects k (e :: log) where
  capacity_eq := hcapacity.trans h.capacity_eq
  length_eq := by rw [hbuffer, h.length_eq]
  lawful := h.lawful.cons hallowed
  tail := htail
  head := hhead
  cells i cell hcell := hfits i cell (h.cells i cell (by rw [← hbuffer, hcell]))

/-- A cell changes. -/
theorem Reflects.modify (h : q.Reflects k log) {log' : List (Event α)} {f : Cell α → Cell α}
    (hlawful : Lawful (2 ^ k) log') (hpushes : pushes log' = pushes log)
    (hpops : pops log' = pops log)
    (hown : ∀ cell : Cell α, cell.Fits (2 ^ k) log (pos % 2 ^ k) →
      (f cell).Fits (2 ^ k) log' (pos % 2 ^ k))
    (hother : ∀ i (cell : Cell α), i ≠ pos % 2 ^ k → cell.Fits (2 ^ k) log i →
      cell.Fits (2 ^ k) log' i) :
    (q.modifyCell pos f).Reflects k log' where
  capacity_eq := h.capacity_eq
  length_eq := (List.length_modify ..).trans h.length_eq
  lawful := hlawful
  tail := h.tail.trans hpushes.symm
  head := h.head.trans hpops.symm
  cells i cell hcell := by
    rw [modifyCell, and_mask h.capacity_eq] at hcell
    by_cases hi : i = pos % 2 ^ k
    · subst hi
      rw [List.getElem?_modify_eq] at hcell
      obtain ⟨old, hold, rfl⟩ := Option.map_eq_some_iff.mp hcell
      exact hown old (h.cells _ old hold)
    · rw [List.getElem?_modify_ne f _ (Ne.symm hi)] at hcell
      exact hother i cell hi (h.cells i cell hcell)

theorem Reflects.claimPush (h : q.Reflects k log) (hbound : pushes log + pops log < 2 ^ 63)
    (htail : q.tail = pos) (hfree : ∀ t, t + 2 ^ k = pos → Popped log t) :
    Reflects k (.claimPush pos v :: log) { q with tail := addSize pos 1 } := by
  have hpos : pos = pushes log := htail.symm.trans h.tail
  refine h.cons rfl rfl ⟨hpos, hfree⟩ ?_ ?_ fun i cell hcell => ?_
  · rw [pushes_cons, ← hpos]
    exact addSize_eq (by omega)
  · rw [pops_cons]
    exact h.head
  · refine ⟨hcell.counts.cons (by simp) (by simp), hcell.stores.cons ?_ (by simp)⟩
    rintro t w heq ⟨w', hw'⟩
    obtain ⟨rfl, -⟩ := Event.claimPush.inj heq
    have := h.lawful.claimPush_lt (h.lawful.claimPush_of_written hw')
    omega

theorem Reflects.claimPop (h : q.Reflects k log) (hbound : pushes log + pops log < 2 ^ 63)
    (hhead : q.head = pos) (hpushed : Pushed log pos) :
    Reflects k (.claimPop pos :: log) { q with head := addSize pos 1 } := by
  have hpos : pos = pops log := hhead.symm.trans h.head
  refine h.cons rfl rfl ⟨hpos, hpushed⟩ ?_ ?_ fun i cell hcell => ?_
  · rw [pushes_cons]
    exact h.tail
  · rw [pops_cons, ← hpos]
    exact addSize_eq (by omega)
  · exact ⟨hcell.counts.cons (by simp) (by simp), hcell.stores.cons (by simp) (by simp)⟩

theorem Reflects.fail (h : q.Reflects k log) (he : e = .refused ∨ e = .nothing) :
    q.Reflects k (e :: log) := by
  rcases he with rfl | rfl
  · exact h.cons rfl rfl trivial h.tail h.head fun i cell hcell =>
      ⟨hcell.counts.cons (by simp) (by simp), hcell.stores.cons (by simp) (by simp)⟩
  · exact h.cons rfl rfl trivial h.tail h.head fun i cell hcell =>
      ⟨hcell.counts.cons (by simp) (by simp), hcell.stores.cons (by simp) (by simp)⟩

theorem Reflects.write (h : q.Reflects k log) (hclaim : .claimPush pos v ∈ log)
    (hwritten : ¬Written log pos) (unfinished : α) : (q.assign pos unfinished).Reflects k log := by
  refine h.modify h.lawful rfl rfl (fun cell hcell => ⟨hcell.counts, ?_⟩) fun _ _ _ hcell => hcell
  have hpopped := mt h.lawful.read (mt h.lawful.pushed (mt h.lawful.written hwritten))
  exact .of_alone h.lawful hclaim hpopped fun hold => absurd hold hwritten

theorem Reflects.written (h : q.Reflects k log) (hclaim : .claimPush pos v ∈ log)
    (hwritten : ¬Written log pos) : (q.assign pos v).Reflects k (.written pos v :: log) := by
  have hlawful := h.lawful.cons (e := .written pos v) ⟨hclaim, hwritten⟩
  refine h.modify hlawful (pushes_cons _) (pops_cons _) (fun cell hcell => ?_)
    fun i cell hi hcell => ?_
  · refine ⟨hcell.counts.cons (by simp) (by simp), ?_⟩
    have hpopped := mt h.lawful.read (mt h.lawful.pushed (mt h.lawful.written hwritten))
    exact .of_alone hlawful (List.mem_cons_of_mem _ hclaim) (by simpa [Popped] using hpopped)
      fun _ _ => rfl
  · refine ⟨hcell.counts.cons (by simp) (by simp), hcell.stores.cons (by simp) ?_⟩
    rintro t w heq
    obtain ⟨rfl, -⟩ := Event.written.inj heq
    exact hi.symm

theorem Reflects.publish (h : q.Reflects k log) (hk : 1 ≤ k)
    (hbound : pushes log + pops log < 2 ^ 63) (hwritten : .written pos v ∈ log)
    (hpushed : ¬Pushed log pos) :
    (q.publish pos (addSize pos 1)).Reflects k (.pushed pos v :: log) := by
  have hlawful := h.lawful.cons (e := .pushed pos v) ⟨hwritten, hpushed⟩
  have hclaim := h.lawful.claimPush_of_written hwritten
  refine h.modify hlawful (pushes_cons _) (pops_cons _) (fun cell hcell => ?_)
    fun i cell hi hcell => ?_
  · have hlt := h.lawful.claimPush_lt hclaim
    have hcounts := hcell.counts
    rw [hcounts.eq_of_claimPush h.lawful hclaim hpushed] at hcounts
    refine ⟨?_, hcell.stores.cons (by simp) (by simp)⟩
    rw [addSize_eq (by omega)]
    exact hcounts.push (Nat.pow_le_pow_right Nat.two_pos hk)
  · refine ⟨hcell.counts.cons ?_ (by simp), hcell.stores.cons (by simp) (by simp)⟩
    rintro t w heq
    obtain ⟨rfl, -⟩ := Event.pushed.inj heq
    exact hi.symm

theorem Reflects.read (h : q.Reflects k log) (hcell : q.cell pos = some cell)
    (hclaim : .claimPop pos ∈ log) (hread : ¬Read log pos) (moved : α) :
    (q.assign pos moved).Reflects k (.read pos cell.data :: log) := by
  obtain ⟨v, hpushed⟩ := h.lawful.pushed_of_claimPop hclaim
  have hwritten := h.lawful.written_of_pushed hpushed
  have hpush := h.lawful.claimPush_of_written hwritten
  obtain rfl : cell.data = v := (h.fits hcell).stores pos v rfl hpush ⟨v, hwritten⟩ hread
  have hlawful := h.lawful.cons (e := .read pos cell.data) ⟨hclaim, hpush, hread⟩
  refine h.modify hlawful (pushes_cons _) (pops_cons _) (fun other hother => ?_)
    fun i other _ hother => ?_
  · refine ⟨hother.counts.cons (by simp) (by simp), ?_⟩
    have hpopped := mt h.lawful.read hread
    exact .of_alone hlawful (List.mem_cons_of_mem _ hpush) (by simpa [Popped] using hpopped)
      fun _ hnot => absurd ⟨_, List.mem_cons_self⟩ hnot
  · exact ⟨hother.counts.cons (by simp) (by simp), hother.stores.cons (by simp) (by simp)⟩

theorem Reflects.release (h : q.Reflects k log) (hk : k ≤ 62)
    (hbound : pushes log + pops log < 2 ^ 63) (hread : .read pos v ∈ log)
    (hpopped : ¬Popped log pos) :
    (q.publish pos (addSize (addSize pos q.mask) 1)).Reflects k (.popped pos v :: log) := by
  have hlawful := h.lawful.cons (e := .popped pos v) ⟨hread, hpopped⟩
  have hclaim := (h.lawful.claims_of_read hread).1
  have hpow := Nat.pow_le_pow_right Nat.two_pos hk
  have hpos := Nat.two_pow_pos k
  refine h.modify hlawful (pushes_cons _) (pops_cons _) (fun cell hcell => ?_)
    fun i cell hi hcell => ?_
  · have hlt := h.lawful.claimPop_lt hclaim
    have hcounts := hcell.counts
    rw [hcounts.eq_of_claimPop (h.lawful.pushed_of_claimPop hclaim) hpopped] at hcounts
    refine ⟨?_, hcell.stores.cons (by simp) (by simp)⟩
    have hmask : addSize pos q.mask = pos + (2 ^ k - 1) := by
      rw [mask, h.capacity_eq]
      exact addSize_eq (by omega)
    have hsum : addSize (addSize pos q.mask) 1 = pos + 2 ^ k := by
      rw [hmask, addSize_eq (by omega)]
      omega
    rw [hsum]
    exact hcounts.pop hpos
  · refine ⟨hcell.counts.cons (by simp) ?_, hcell.stores.cons (by simp) (by simp)⟩
    rintro t w heq
    obtain ⟨rfl, -⟩ := Event.popped.inj heq
    exact hi.symm

/-- A sequence number equal to the position says that the slot is free for the ticket. -/
theorem Reflects.free (h : q.Reflects k log) (hk : k ≤ 62)
    (hbound : pushes log + pops log < 2 ^ 63) (hpos : pos ≤ pushes log)
    (hcell : q.cell pos = some cell) (hdiff : intptr cell.sequence - intptr pos = 0) (t : ℕ)
    (ht : t + 2 ^ k = pos) : Popped log t := by
  have hcounts := (h.fits hcell).counts
  have hlt := hcounts.lt h.lawful (Nat.pow_le_pow_right Nat.two_pos hk) hbound
    (Nat.mod_lt _ (Nat.two_pow_pos k))
  rw [intptr_eq hlt, intptr_eq (by omega)] at hdiff
  refine (hcounts.popped t ?_).mpr (by omega)
  rw [← ht, Nat.add_mod_right]

/-- A sequence number equal to the next position says that the ticket is pushed. -/
theorem Reflects.ready (h : q.Reflects k log) (hk : k ≤ 62)
    (hbound : pushes log + pops log < 2 ^ 63) (hpos : pos ≤ pops log)
    (hcell : q.cell pos = some cell)
    (hdiff : intptr cell.sequence - intptr (addSize pos 1) = 0) : Pushed log pos := by
  have hcounts := (h.fits hcell).counts
  have hle := h.lawful.pops_le
  have hlt := hcounts.lt h.lawful (Nat.pow_le_pow_right Nat.two_pos hk) hbound
    (Nat.mod_lt _ (Nat.two_pow_pos k))
  rw [addSize_eq (by omega), intptr_eq hlt, intptr_eq (by omega)] at hdiff
  exact (hcounts.pushed pos rfl).mpr (by omega)

end MPMCRingQueue

/-! ## Calls -/

namespace RingCall

def Knows (c : ℕ) (log : List (Event α)) : RingCall α → Prop
  | checkingPush _ pos => pos ≤ pushes log
  | claimingPush _ pos => ∀ t, t + c = pos → Popped log t
  | writing value pos => .claimPush pos value ∈ log ∧ ¬Written log pos
  | publishing value pos => .written pos value ∈ log ∧ ¬Pushed log pos
  | checkingPop pos => pos ≤ pops log
  | claimingPop pos => Pushed log pos
  | reading pos => .claimPop pos ∈ log ∧ ¬Read log pos
  | releasing data pos => .read pos data ∈ log ∧ ¬Popped log pos
  | _ => True

def pushTicket : RingCall α → Option ℕ
  | writing _ pos => some pos
  | publishing _ pos => some pos
  | _ => none

def popTicket : RingCall α → Option ℕ
  | reading pos => some pos
  | releasing _ pos => some pos
  | _ => none

def isUnclaimed (call : RingCall α) : Bool :=
  call.pushTicket.isNone && call.popTicket.isNone

variable {c k : ℕ} {q q' : MPMCRingQueue α} {call other : RingCall α}
  {call' : Option (RingCall α)} {event : Option (Event α)} {log : List (Event α)}

/-- What happens to the ticket of one call is nothing to the others. -/
theorem Knows.cons (h : other.Knows c log) {e : Event α}
    (hpush : ∀ t v, e = .written t v ∨ e = .pushed t v → other.pushTicket ≠ some t)
    (hpop : ∀ t v, e = .read t v ∨ e = .popped t v → other.popTicket ≠ some t) :
    other.Knows c (e :: log) := by
  have hsub := List.subset_cons_self e log
  cases other with
  | checkingPush value pos =>
    refine Nat.le_trans h ?_
    rw [pushes_cons]
    exact Nat.le_add_right _ _
  | claimingPush value pos => exact fun t ht => (h t ht).mono hsub
  | writing value pos =>
    refine ⟨hsub h.1, fun ⟨v, hv⟩ => ?_⟩
    rcases List.mem_cons.mp hv with heq | hlog
    · exact hpush pos v (.inl heq.symm) rfl
    · exact h.2 ⟨v, hlog⟩
  | publishing value pos =>
    refine ⟨hsub h.1, fun ⟨v, hv⟩ => ?_⟩
    rcases List.mem_cons.mp hv with heq | hlog
    · exact hpush pos v (.inr heq.symm) rfl
    · exact h.2 ⟨v, hlog⟩
  | checkingPop pos =>
    refine Nat.le_trans h ?_
    rw [pops_cons]
    exact Nat.le_add_right _ _
  | claimingPop pos => exact Pushed.mono h hsub
  | reading pos =>
    refine ⟨hsub h.1, fun ⟨v, hv⟩ => ?_⟩
    rcases List.mem_cons.mp hv with heq | hlog
    · exact hpop pos v (.inl heq.symm) rfl
    · exact h.2 ⟨v, hlog⟩
  | releasing data pos =>
    refine ⟨hsub h.1, fun ⟨v, hv⟩ => ?_⟩
    rcases List.mem_cons.mp hv with heq | hlog
    · exact hpop pos v (.inr heq.symm) rfl
    · exact h.2 ⟨v, hlog⟩
  | _ => trivial

/-- A step of a call leaves the queue as the history says, and the call knows what it needs. -/
theorem Step.reflects (hstep : Step q call q' call' event) (hk : 1 ≤ k) (hk' : k ≤ 62)
    (h : q.Reflects k log) (hbound : pushes log + pops log < 2 ^ 63)
    (hcall : call.Knows (2 ^ k) log) :
    q'.Reflects k (event.toList ++ log) ∧
      ∀ next, call' = some next → next.Knows (2 ^ k) (event.toList ++ log) := by
  cases hstep with
  | loadTail =>
    refine ⟨h, ?_⟩
    rintro _ ⟨rfl⟩
    exact Nat.le_of_eq h.tail
  | free hcell hdiff =>
    refine ⟨h, ?_⟩
    rintro _ ⟨rfl⟩
    exact h.free hk' hbound hcall hcell hdiff
  | full hcell hdiff => exact ⟨h.fail (.inl rfl), by simp⟩
  | pushLate hcell hdiff =>
    refine ⟨h, ?_⟩
    rintro _ ⟨rfl⟩
    trivial
  | @claimPush value pos htail =>
    refine ⟨h.claimPush hbound htail hcall, ?_⟩
    rintro _ ⟨rfl⟩
    refine ⟨List.mem_cons_self, fun ⟨w, hw⟩ => ?_⟩
    have hold : .written pos w ∈ log := by simpa using hw
    have := h.lawful.claimPush_lt (h.lawful.claimPush_of_written hold)
    have := h.tail
    omega
  | failPush =>
    refine ⟨h, ?_⟩
    rintro _ ⟨rfl⟩
    exact Nat.le_of_eq h.tail
  | write unfinished =>
    refine ⟨h.write hcall.1 hcall.2 unfinished, ?_⟩
    rintro _ ⟨rfl⟩
    exact hcall
  | @written value pos =>
    refine ⟨h.written hcall.1 hcall.2, ?_⟩
    rintro _ ⟨rfl⟩
    refine ⟨List.mem_cons_self, fun ⟨w, hw⟩ => hcall.2 ?_⟩
    exact h.lawful.written ⟨w, by simpa using hw⟩
  | publish => exact ⟨h.publish hk hbound hcall.1 hcall.2, by simp⟩
  | loadHead =>
    refine ⟨h, ?_⟩
    rintro _ ⟨rfl⟩
    exact Nat.le_of_eq h.head
  | ready hcell hdiff =>
    refine ⟨h, ?_⟩
    rintro _ ⟨rfl⟩
    exact h.ready hk' hbound hcall hcell hdiff
  | empty hcell hdiff => exact ⟨h.fail (.inr rfl), by simp⟩
  | popLate hcell hdiff =>
    refine ⟨h, ?_⟩
    rintro _ ⟨rfl⟩
    trivial
  | @claimPop pos hhead =>
    refine ⟨h.claimPop hbound hhead hcall, ?_⟩
    rintro _ ⟨rfl⟩
    refine ⟨List.mem_cons_self, fun ⟨w, hw⟩ => ?_⟩
    have hold : .read pos w ∈ log := by simpa using hw
    have := h.lawful.claimPop_lt (h.lawful.claims_of_read hold).1
    have := h.head
    omega
  | failPop =>
    refine ⟨h, ?_⟩
    rintro _ ⟨rfl⟩
    exact Nat.le_of_eq h.head
  | read moved hcell =>
    refine ⟨h.read hcell hcall.1 hcall.2 moved, ?_⟩
    rintro _ ⟨rfl⟩
    refine ⟨List.mem_cons_self, fun ⟨w, hw⟩ => hcall.2 ?_⟩
    exact h.lawful.read ⟨w, by simpa using hw⟩
  | release => exact ⟨h.release hk' hbound hcall.1 hcall.2, by simp⟩

theorem Step.claims (hstep : Step q call q' call' event) :
    pushes event.toList + pops event.toList + call'.toList.countP isUnclaimed ≤
      [call].countP isUnclaimed := by
  cases hstep <;>
    simp [pushes, pops, isUnclaimed, RingCall.pushTicket, RingCall.popTicket, Event.isClaimPush,
      Event.isClaimPop]

theorem Step.holds (hstep : Step q call q' call' event) {e : Event α} (he : event = some e) :
    (∀ t v, e = .written t v ∨ e = .pushed t v → call.pushTicket = some t) ∧
      ∀ t v, e = .read t v ∨ e = .popped t v → call.popTicket = some t := by
  cases hstep <;> cases he <;> simp [RingCall.pushTicket, RingCall.popTicket]

theorem Step.pushTicket (hstep : Step q call q' call' event) :
    (call'.toList.filterMap RingCall.pushTicket).Sublist ([call].filterMap RingCall.pushTicket) ∨
      (call.pushTicket = none ∧ call'.toList.filterMap RingCall.pushTicket = [q.tail]) := by
  cases hstep with
  | claimPush htail => exact .inr ⟨rfl, htail ▸ rfl⟩
  | publish => exact .inl (List.nil_sublist _)
  | _ => exact .inl (List.Sublist.refl _)

theorem Step.popTicket (hstep : Step q call q' call' event) :
    (call'.toList.filterMap RingCall.popTicket).Sublist ([call].filterMap RingCall.popTicket) ∨
      (call.popTicket = none ∧ call'.toList.filterMap RingCall.popTicket = [q.head]) := by
  cases hstep with
  | claimPop hhead => exact .inr ⟨rfl, hhead ▸ rfl⟩
  | release => exact .inl (List.nil_sublist _)
  | _ => exact .inl (List.Sublist.refl _)

end RingCall

/-! ## The system -/

/-- Where one element keeps its ticket, gives it back or gets a new one, no two have the same. -/
theorem tickets_nodup {β : Type*} {f : β → Option ℕ} {before after new : List β} {b : β} {t : ℕ}
    (h : ((before ++ b :: after).filterMap f).Nodup)
    (hnew : (new.filterMap f).Sublist ([b].filterMap f) ∨ (f b = none ∧ new.filterMap f = [t]))
    (ht : ∀ x ∈ before ++ b :: after, f x ≠ some t) :
    ((before ++ new ++ after).filterMap f).Nodup := by
  rw [← List.singleton_append, List.filterMap_append, List.filterMap_append] at h
  rw [List.filterMap_append, List.filterMap_append, List.append_assoc]
  rcases hnew with hsub | ⟨hnone, heq⟩
  · exact h.sublist (.append (.refl _) (.append hsub (.refl _)))
  · rw [List.filterMap_cons_none hnone, List.filterMap_nil, List.nil_append] at h
    rw [heq, List.singleton_append, List.nodup_middle]
    refine List.nodup_cons.mpr ⟨fun hmem => ?_, h⟩
    rcases List.mem_append.mp hmem with hmem | hmem
    · obtain ⟨x, hx, hxt⟩ := List.mem_filterMap.mp hmem
      exact ht x (List.mem_append_left _ hx) hxt
    · obtain ⟨x, hx, hxt⟩ := List.mem_filterMap.mp hmem
      exact ht x (List.mem_append_right _ (List.mem_cons_of_mem b hx)) hxt

theorem ticket_ne {β : Type*} {f : β → Option ℕ} {before after : List β} {a b : β} {t : ℕ}
    (h : ((before ++ b :: after).filterMap f).Nodup) (hb : f b = some t)
    (ha : a ∈ before ++ after) : f a ≠ some t := by
  rw [List.filterMap_append, List.filterMap_cons_some hb, List.nodup_middle] at h
  intro hat
  refine (List.nodup_cons.mp h).1 ?_
  rw [← List.filterMap_append]
  exact List.mem_filterMap.mpr ⟨a, ha, hat⟩

namespace MPMCSystem

/-- The calls hold different tickets, and each knows what it needs. -/
structure Sound (k : ℕ) (s : MPMCSystem α) : Prop where
  queue : s.queue.Reflects k s.log
  begun : pushes s.log + pops s.log + s.calls.countP RingCall.isUnclaimed ≤ s.begun
  calls : ∀ call ∈ s.calls, call.Knows (2 ^ k) s.log
  pushing : (s.calls.filterMap RingCall.pushTicket).Nodup
  popping : (s.calls.filterMap RingCall.popTicket).Nodup

variable {k : ℕ} {s t : MPMCSystem α} {before after : List (RingCall α)} {call : RingCall α}

theorem Sound.pushTicket_lt (h : s.Sound k) (hcall : call ∈ s.calls) {pos : ℕ}
    (hpos : call.pushTicket = some pos) : pos < s.queue.tail := by
  have hknows := h.calls call hcall
  rw [h.queue.tail]
  cases call with
  | writing value pos' =>
    obtain rfl := Option.some.inj hpos
    exact h.queue.lawful.claimPush_lt hknows.1
  | publishing value pos' =>
    obtain rfl := Option.some.inj hpos
    exact h.queue.lawful.claimPush_lt (h.queue.lawful.claimPush_of_written hknows.1)
  | _ => cases hpos

theorem Sound.popTicket_lt (h : s.Sound k) (hcall : call ∈ s.calls) {pos : ℕ}
    (hpos : call.popTicket = some pos) : pos < s.queue.head := by
  have hknows := h.calls call hcall
  rw [h.queue.head]
  cases call with
  | reading pos' =>
    obtain rfl := Option.some.inj hpos
    exact h.queue.lawful.claimPop_lt hknows.1
  | releasing data pos' =>
    obtain rfl := Option.some.inj hpos
    exact h.queue.lawful.claimPop_lt (h.queue.lawful.claims_of_read hknows.1).1
  | _ => cases hpos

theorem Sound.goOn (h : s.Sound k) (hk : 1 ≤ k) (hk' : k ≤ 62) (hbegun : s.begun < 2 ^ 63)
    {q : MPMCRingQueue α} {call' : Option (RingCall α)} {event : Option (Event α)}
    (hcalls : s.calls = before ++ call :: after) (hstep : call.Step s.queue q call' event) :
    Sound k { s with
      queue := q
      calls := before ++ call'.toList ++ after
      log := event.toList ++ s.log } := by
  have hbound := h.begun
  have hmem : call ∈ s.calls := hcalls ▸ List.mem_append_right _ List.mem_cons_self
  obtain ⟨hreflects, hknows⟩ := hstep.reflects hk hk' h.queue (by omega) (h.calls call hmem)
  have hpushing := h.pushing
  have hpopping := h.popping
  rw [hcalls] at hpushing hpopping hbound
  have hold (other : RingCall α) (hother : other ∈ before ++ after) :
      other.Knows (2 ^ k) (event.toList ++ s.log) := by
    have hknown : other.Knows (2 ^ k) s.log := by
      refine h.calls other (hcalls ▸ ?_)
      rcases List.mem_append.mp hother with hother | hother
      · exact List.mem_append_left _ hother
      · exact List.mem_append_right _ (List.mem_cons_of_mem _ hother)
    cases event with
    | none => exact hknown
    | some e =>
      obtain ⟨hpush, hpop⟩ := hstep.holds rfl
      exact hknown.cons (fun t v he => ticket_ne hpushing (hpush t v he) hother)
        fun t v he => ticket_ne hpopping (hpop t v he) hother
  refine ⟨hreflects, ?_, fun other hother => ?_, ?_, ?_⟩
  · have hclaims := hstep.claims
    have hpushes : pushes (event.toList ++ s.log) = pushes event.toList + pushes s.log :=
      List.countP_append
    have hpops : pops (event.toList ++ s.log) = pops event.toList + pops s.log :=
      List.countP_append
    rw [← List.singleton_append, List.countP_append, List.countP_append] at hbound
    change pushes (event.toList ++ s.log) + pops (event.toList ++ s.log) +
      (before ++ call'.toList ++ after).countP RingCall.isUnclaimed ≤ s.begun
    rw [hpushes, hpops, List.countP_append, List.countP_append]
    omega
  · rw [List.append_assoc] at hother
    rcases List.mem_append.mp hother with hbefore | hrest
    · exact hold other (List.mem_append_left _ hbefore)
    · rcases List.mem_append.mp hrest with hnew | hafter
      · exact hknows other (Option.mem_toList.mp hnew)
      · exact hold other (List.mem_append_right _ hafter)
  · refine tickets_nodup hpushing hstep.pushTicket fun other hother hpos => ?_
    exact Nat.lt_irrefl _ (h.pushTicket_lt (hcalls ▸ hother) hpos)
  · refine tickets_nodup hpopping hstep.popTicket fun other hother hpos => ?_
    exact Nat.lt_irrefl _ (h.popTicket_lt (hcalls ▸ hother) hpos)

theorem Step.sound (h : s.Sound k) (hk : 1 ≤ k) (hk' : k ≤ 62) (hbegun : s.begun < 2 ^ 63)
    (hstep : Step s t) : t.Sound k := by
  cases hstep with
  | call operation =>
    have hbound := h.begun
    have hknows : ∀ call ∈ operation.start :: s.calls, call.Knows (2 ^ k) s.log := by
      refine List.forall_mem_cons.mpr ⟨?_, h.calls⟩
      cases operation <;> trivial
    refine ⟨h.queue, ?_, hknows, ?_, ?_⟩
    · have hle : (operation.start :: s.calls).countP RingCall.isUnclaimed ≤
          s.calls.countP RingCall.isUnclaimed + 1 := by
        rw [List.countP_cons]
        split <;> omega
      exact Nat.le_trans (Nat.add_le_add_left hle _) (Nat.succ_le_succ hbound)
    · cases operation <;> exact h.pushing
    · cases operation <;> exact h.popping
  | goOn hcalls hcall => exact h.goOn hk hk' hbegun hcalls hcall

/-! ## Runs -/

private theorem init_fits {c i : ℕ} {cell : Cell α} (hi : i < c) (hcell : cell.sequence = i) :
    cell.Fits c [] i := by
  refine ⟨⟨Nat.le_of_eq hcell.symm, ?_, fun t ht => ?_, fun t ht => ?_⟩, ?_⟩
  · rw [hcell]
    exact .inl (Nat.mod_eq_of_lt hi)
  · rw [hcell]
    refine iff_of_false (by simp [Pushed]) fun hlt => ?_
    rw [Nat.mod_eq_of_lt (Nat.lt_trans hlt hi)] at ht
    omega
  · rw [hcell]
    exact iff_of_false (by simp [Popped]) (by omega)
  · intro t v _ hclaim
    cases hclaim

private theorem init_sound {buffer : List (Cell α)}
    (hbuffer : buffer.map Cell.sequence = List.range (2 ^ k)) :
    Sound k { queue := { capacity_ := 2 ^ k, buffer := buffer } } := by
  have hlength : buffer.length = 2 ^ k := by
    have heq := congrArg List.length hbuffer
    rw [List.length_map, List.length_range] at heq
    exact heq
  have hcells (i : ℕ) (cell : Cell α) (hcell : buffer[i]? = some cell) :
      cell.Fits (2 ^ k) [] i := by
    obtain ⟨hi, -⟩ := List.getElem?_eq_some_iff.mp hcell
    have hmap : (buffer.map Cell.sequence)[i]? = some cell.sequence := by
      rw [List.getElem?_map, hcell, Option.map_some]
    rw [hbuffer, List.getElem?_range (hlength ▸ hi)] at hmap
    exact init_fits (hlength ▸ hi) (Option.some.inj hmap).symm
  exact ⟨⟨rfl, hlength, .nil, rfl, rfl, hcells⟩, Nat.zero_le _, by simp, List.nodup_nil,
    List.nodup_nil⟩

/-- While a call writes an element, the earlier values of the slot have been read, and no other
call writes or reads it. -/
def Exclusive (s : MPMCSystem α) : Prop :=
  ∀ before after value pos, s.calls = before ++ .writing value pos :: after →
    (∀ t < pos, t &&& s.queue.mask = pos &&& s.queue.mask → Read s.log t) ∧
    ∀ other ∈ before ++ after,
      (∀ value' pos', other = .writing value' pos' →
        pos' &&& s.queue.mask ≠ pos &&& s.queue.mask) ∧
      ∀ pos', other = .reading pos' → pos' &&& s.queue.mask ≠ pos &&& s.queue.mask

theorem Sound.exclusive (h : s.Sound k) : s.Exclusive := by
  intro before after value pos hcalls
  have hlawful := h.queue.lawful
  obtain ⟨hclaim, hwritten⟩ : RingCall.Knows (2 ^ k) s.log (.writing value pos) :=
    h.calls _ (hcalls ▸ List.mem_append_right _ List.mem_cons_self)
  have hpopped := mt hlawful.read (mt hlawful.pushed (mt hlawful.written hwritten))
  have hknows (other : RingCall α) (hother : other ∈ before ++ after) :
      other.Knows (2 ^ k) s.log := by
    refine h.calls other (hcalls ▸ ?_)
    rcases List.mem_append.mp hother with hother | hother
    · exact List.mem_append_left _ hother
    · exact List.mem_append_right _ (List.mem_cons_of_mem _ hother)
  have hmask := MPMCRingQueue.and_mask h.queue.capacity_eq
  simp only [hmask]
  refine ⟨fun t ht hslot => hlawful.read (hlawful.popped_of_lt ht hslot hclaim),
    fun other hother => ⟨?_, ?_⟩⟩
  · rintro value' pos' rfl hslot
    obtain ⟨hclaim', hwritten'⟩ := hknows _ hother
    have hpopped' := mt hlawful.read (mt hlawful.pushed (mt hlawful.written hwritten'))
    have heq := hlawful.alone hclaim' hclaim hslot hpopped' hpopped
    have hpushing := h.pushing
    rw [hcalls] at hpushing
    exact ticket_ne hpushing rfl hother (congrArg some heq)
  · rintro pos' rfl hslot
    obtain ⟨hclaim', hread⟩ := hknows _ hother
    obtain ⟨v, hpushed⟩ := hlawful.pushed_of_claimPop hclaim'
    have hwritten' := hlawful.written_of_pushed hpushed
    have heq := hlawful.alone (hlawful.claimPush_of_written hwritten') hclaim hslot
      (mt hlawful.read hread) hpopped
    exact hwritten (heq ▸ ⟨v, hwritten'⟩)

private theorem mpmcQueues_sound {capacity : ℕ} (hlow : 2 ≤ capacity) (hhigh : capacity ≤ 2 ^ 62)
    {states : List (MPMCSystem α)} (h : (mpmcQueues α capacity).Run states)
    (hbegun : ∀ s ∈ states, s.begun < 2 ^ 63) :
    ∀ s ∈ states, s.Sound (Nat.clog 2 capacity) := by
  have hk : 1 ≤ Nat.clog 2 capacity := Nat.clog_pos Nat.one_lt_two hlow
  have hk' : Nat.clog 2 capacity ≤ 62 := clog_le hhigh
  refine h.invariant_of ?_ (fun s t hs hbound hstep => Step.sound hs hk hk' hbound hstep) hbegun
  rintro s ⟨buffer, hbuffer, rfl⟩
  rw [nextPowerOfTwo_eq (Nat.le_trans hhigh (by decide))] at hbuffer ⊢
  exact init_sound hbuffer

end MPMCSystem

/-- In every run of a queue for 2 up to `2 ^ 62` values with fewer than `2 ^ 63` calls: `tail_` and
`head_` count the tickets claimed; every ticket is claimed once and popped at most once, with the
value that it was claimed for; at most `capacity_` more tickets are claimed to push than to pop;
and an element is written only after its earlier values have been read, by one call at a time. -/
theorem mpmc_queue_keeps_tickets {capacity : ℕ} (hlow : 2 ≤ capacity)
    (hhigh : capacity ≤ 2 ^ 62) {states : List (MPMCSystem α)}
    (h : (mpmcQueues α capacity).Run states) (hbegun : ∀ s ∈ states, s.begun < 2 ^ 63) :
    ∀ s ∈ states,
      s.queue.capacity_ = 2 ^ Nat.clog 2 capacity ∧ (∀ pos, (s.queue.cell pos).isSome) ∧
      s.queue.tail = pushes s.log ∧ s.queue.head = pops s.log ∧
      (s.log.filterMap Event.claimedPush).Nodup ∧ (s.log.filterMap Event.releasedPop).Nodup ∧
      (∀ t v, .popped t v ∈ s.log → .claimPush t v ∈ s.log) ∧
      pushes s.log ≤ pops s.log + s.queue.capacity_ ∧ s.Exclusive := by
  intro s hs
  have hsound := MPMCSystem.mpmcQueues_sound hlow hhigh h hbegun s hs
  have hlawful := hsound.queue.lawful
  refine ⟨hsound.queue.capacity_eq, fun pos => ?_, hsound.queue.tail, hsound.queue.head,
    hlawful.claimedPush_nodup, hlawful.releasedPop_nodup, fun t v hpopped => ?_, ?_,
    hsound.exclusive⟩
  · rw [hsound.queue.cell_eq, List.getElem?_eq_getElem, Option.isSome_some]
    rw [hsound.queue.length_eq]
    exact Nat.mod_lt _ (Nat.two_pow_pos _)
  · exact (hlawful.claims_of_read (hlawful.read_of_popped hpopped)).2
  · rw [hsound.queue.capacity_eq]
    exact hlawful.pushes_le

section Check

variable {q q' : MPMCRingQueue ℕ} {other call : RingCall ℕ} {after : List (RingCall ℕ)}
  {call' : Option (RingCall ℕ)} {event : Option (Event ℕ)} {n : ℕ} {log : List (Event ℕ)}

private theorem mpmc_first_step (h : call.Step q q' call' event) :
    MPMCSystem.Step { queue := q, calls := call :: after, begun := n, log := log }
      { queue := q', calls := call'.toList ++ after, begun := n, log := event.toList ++ log } :=
  .goOn (s := ⟨q, call :: after, n, log⟩) (List.nil_append (call :: after)).symm h

private theorem mpmc_second_step (h : call.Step q q' call' event) :
    MPMCSystem.Step { queue := q, calls := [other, call], begun := n, log := log }
      { queue := q', calls := other :: call'.toList, begun := n, log := event.toList ++ log } := by
  have hstep := MPMCSystem.Step.goOn (s := ⟨q, [other, call], n, log⟩)
    (List.singleton_append (l := [call])).symm h
  rw [List.append_nil] at hstep
  exact hstep

/-- Of two pushes that have loaded the same ticket one takes it, and the other one takes the next
and publishes first. Meanwhile another push and a pop are refused. -/
theorem mpmc_sample_run : ∃ s past, (mpmcQueues ℕ 2).Run (s :: past) ∧
    (∀ t ∈ s :: past, t.begun < 2 ^ 63) ∧ .popped 0 8 ∈ s.log ∧ .popped 1 7 ∈ s.log ∧
      .refused ∈ s.log ∧ .nothing ∈ s.log := by
  have hinit : (mpmcQueues ℕ 2).init
      { queue := { capacity_ := 2, buffer := [⟨0, 0⟩, ⟨1, 0⟩] } } :=
    ⟨[⟨0, 0⟩, ⟨1, 0⟩], rfl, rfl⟩
  have hfirst := (((TransitionSystem.Run.start hinit).next (.call (.push 7))).next
    (mpmc_first_step .loadTail)).next (mpmc_first_step (.free rfl (Int.sub_self _)))
  have hsecond := ((hfirst.next (.call (.push 8))).next (mpmc_first_step .loadTail)).next
    (mpmc_first_step (.free rfl (Int.sub_self _)))
  have hclaimed := hsecond.next (mpmc_first_step (.claimPush rfl))
  have hlate := ((hclaimed.next (mpmc_second_step .failPush)).next
    (mpmc_second_step (.free rfl (Int.sub_self _)))).next (mpmc_second_step (.claimPush rfl))
  have hpublished := (hlate.next (mpmc_second_step .written)).next (mpmc_second_step .publish)
  have hfull := ((hpublished.next (.call (.push 9))).next (mpmc_first_step .loadTail)).next
    (mpmc_first_step (.full rfl (by decide)))
  have hempty := ((hfull.next (.call .pop)).next (mpmc_first_step .loadHead)).next
    (mpmc_first_step (.empty rfl (by decide)))
  have hpushed := (hempty.next (mpmc_first_step .written)).next (mpmc_first_step .publish)
  have hready := ((hpushed.next (.call .pop)).next (mpmc_first_step .loadHead)).next
    (mpmc_first_step (.ready rfl (Int.sub_self _)))
  have hpopped := ((hready.next (mpmc_first_step (.claimPop rfl))).next
    (mpmc_first_step (.read 0 rfl))).next (mpmc_first_step .release)
  have hready := ((hpopped.next (.call .pop)).next (mpmc_first_step .loadHead)).next
    (mpmc_first_step (.ready rfl (Int.sub_self _)))
  have hlast := ((hready.next (mpmc_first_step (.claimPop rfl))).next
    (mpmc_first_step (.read 0 rfl))).next (mpmc_first_step .release)
  exact ⟨_, _, hlast, by simp, List.mem_of_getElem? (i := 3) rfl, List.mem_cons_self,
    List.mem_of_getElem? (i := 9) rfl, List.mem_of_getElem? (i := 8) rfl⟩

theorem mpmc_queue_keeps_tickets_two : ∃ s past, (mpmcQueues ℕ 2).Run (s :: past) ∧
    .refused ∈ s.log ∧ .nothing ∈ s.log ∧ .popped 0 8 ∈ s.log ∧ .claimPush 0 8 ∈ s.log ∧
      .popped 1 7 ∈ s.log ∧ .claimPush 1 7 ∈ s.log ∧
      pushes s.log ≤ pops s.log + s.queue.capacity_ := by
  obtain ⟨s, past, hrun, hbegun, hzero, hone, hrefused, hnothing⟩ := mpmc_sample_run
  obtain ⟨-, -, -, -, -, -, hvalue, hle, -⟩ :=
    mpmc_queue_keeps_tickets le_rfl (by decide) hrun hbegun s List.mem_cons_self
  exact ⟨s, past, hrun, hrefused, hnothing, hzero, hvalue 0 8 hzero, hone, hvalue 1 7 hone, hle⟩

end Check

end DarwinCore.Container
