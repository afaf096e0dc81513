import DarwinCore.Library.BoundedQueue
import DarwinCore.Model.Network.SendBuffer
import Mathlib.Tactic.Ring

/-! # The send buffer is a bounded queue of bytes -/

namespace DarwinCore.Network

/-! ## `size_t` and vectors -/

theorem addSize_of_lt {a b : ℕ} (h : a + b < sizeBound) : addSize a b = a + b :=
  Nat.mod_eq_of_lt h

theorem subSize_of_le {a b : ℕ} (h : b ≤ a) (ha : a < sizeBound) : subSize a b = a - b := by
  rw [subSize, Nat.add_sub_assoc h, Nat.add_mod_left]
  exact Nat.mod_eq_of_lt (by omega)

theorem overwrite_length {xs ys : List UInt8} {pos : ℕ} (h : pos + ys.length ≤ xs.length) :
    (overwrite xs pos ys).length = xs.length := by
  simp only [overwrite, List.length_append, List.length_take, List.length_drop]
  omega

theorem overwrite_take {xs ys : List UInt8} {pos : ℕ} (h : pos + ys.length ≤ xs.length) :
    (overwrite xs pos ys).take (pos + ys.length) = xs.take pos ++ ys := by
  have hlen : (xs.take pos ++ ys).length = pos + ys.length := by
    rw [List.length_append, List.length_take]
    omega
  rw [overwrite, ← hlen, List.take_left']
  rfl

theorem resize_length (xs : List UInt8) {n : ℕ} (h : xs.length ≤ n) :
    (resize xs n).length = n := by
  simp only [resize, List.length_append, List.length_take, List.length_replicate]
  omega

theorem resize_take (xs : List UInt8) {n k : ℕ} (h : xs.length ≤ n) (hk : k ≤ xs.length) :
    (resize xs n).take k = xs.take k := by
  rw [resize, List.take_of_length_le h, List.take_append_of_le_length hk]

namespace SendBuffer

/-! ## The invariant -/

/-- The positions are in order and within the buffer, which is neither empty nor too
large. -/
structure Valid (b : SendBuffer) : Prop where
  read_le : b.readPos ≤ b.writePos
  write_le : b.writePos ≤ b.buffer.length
  length_le : b.buffer.length ≤ maxCapacity
  length_pos : 0 < b.buffer.length

theorem fresh_valid : fresh.Valid where
  read_le := Nat.le_refl 0
  write_le := Nat.zero_le _
  length_le := by rw [fresh, List.length_replicate]; decide
  length_pos := by rw [fresh, List.length_replicate]; decide

theorem maxCapacity_lt : maxCapacity < sizeBound := by
  simp [maxCapacity, sizeBound]

section Valid

variable {b : SendBuffer} (h : b.Valid)

include h

theorem Valid.lt_sizeBound {n : ℕ} (hn : n ≤ b.buffer.length) : n < sizeBound :=
  Nat.lt_of_le_of_lt (Nat.le_trans hn h.length_le) maxCapacity_lt

theorem Valid.size_eq : b.size = b.writePos - b.readPos :=
  subSize_of_le h.read_le (h.lt_sizeBound h.write_le)

theorem Valid.writable_eq : b.writable = b.buffer.length - b.writePos :=
  subSize_of_le h.write_le (h.lt_sizeBound (Nat.le_refl _))

theorem Valid.readable_eq : b.readable = (b.buffer.take b.writePos).drop b.readPos := by
  rw [readable, h.size_eq, List.drop_take]

theorem Valid.readable_length : b.readable.length = b.size := by
  have hread := h.read_le
  have hwrite := h.write_le
  rw [h.readable_eq, List.length_drop, List.length_take, h.size_eq]
  omega

theorem Valid.readable_eq_nil (hempty : b.isEmpty) : b.readable = [] := by
  have hpos : b.readPos = b.writePos := of_decide_eq_true hempty
  apply List.eq_nil_of_length_eq_zero
  rw [h.readable_length, h.size_eq, hpos, Nat.sub_self]

theorem Valid.isEmpty_iff : b.isEmpty = true ↔ b.readable = [] := by
  refine ⟨h.readable_eq_nil, fun hnil => decide_eq_true ?_⟩
  have hlength := h.readable_length
  have hread := h.read_le
  rw [hnil, h.size_eq, List.length_nil] at hlength
  omega

theorem Valid.size_le : b.size ≤ b.writePos := by
  rw [h.size_eq]
  exact Nat.sub_le _ _

end Valid

theorem fresh_readable : fresh.readable = [] :=
  fresh_valid.readable_eq_nil (decide_eq_true rfl)

/-! ## Compaction and clearing -/

theorem compact_readPos (b : SendBuffer) : b.compact.readPos = 0 := by
  unfold compact
  split <;> simp [*]

/-- Nothing is moved when nothing is readable, which comes to the same. -/
theorem Valid.compact_eq {b : SendBuffer} (h : b.Valid) (hread : b.readPos ≠ 0) :
    b.compact = ⟨overwrite b.buffer 0 b.readable, 0, b.size⟩ := by
  rw [SendBuffer.compact, if_neg hread]
  rcases Nat.eq_zero_or_pos b.size with hsize | hsize
  · have hnil : b.readable = [] := List.eq_nil_of_length_eq_zero (h.readable_length.trans hsize)
    simp [hsize, hnil, overwrite]
  · rw [if_pos hsize]

theorem Valid.compact {b : SendBuffer} (h : b.Valid) :
    b.compact.Valid ∧ b.compact.writePos = b.size ∧
      b.compact.buffer.length = b.buffer.length ∧ b.compact.readable = b.readable := by
  have hsize := h.size_eq
  have hwrite := h.write_le
  by_cases hread : b.readPos = 0
  · have hself : b.compact = b := if_pos hread
    rw [hself]
    exact ⟨h, by omega, rfl, rfl⟩
  · have hfit : 0 + b.readable.length ≤ b.buffer.length := by
      rw [h.readable_length]
      omega
    have hlength := overwrite_length hfit
    have hvalid : Valid ⟨overwrite b.buffer 0 b.readable, 0, b.size⟩ := by
      constructor
      · exact Nat.zero_le _
      · change b.size ≤ (overwrite b.buffer 0 b.readable).length
        omega
      · exact Nat.le_trans (Nat.le_of_eq hlength) h.length_le
      · exact hlength ▸ h.length_pos
    rw [h.compact_eq hread]
    refine ⟨hvalid, rfl, hlength, ?_⟩
    have htake := overwrite_take hfit
    rw [h.readable_length, Nat.zero_add, List.take_zero, List.nil_append] at htake
    rw [hvalid.readable_eq]
    exact htake

theorem Valid.clear {b : SendBuffer} (h : b.Valid) :
    b.clear.Valid ∧ b.clear.readable = [] := by
  have hvalid : b.clear.Valid := ⟨Nat.le_refl _, Nat.zero_le _, h.length_le, h.length_pos⟩
  refine ⟨hvalid, ?_⟩
  rw [hvalid.readable_eq]
  rfl

/-! ## Growth -/

/-- A positive capacity, doubled often enough, ends at the required size or at least at the
maximum. -/
theorem growCapacity_eq_some (required : ℕ) {fuel capacity : ℕ} (hpos : 0 < capacity)
    (hfuel : maxCapacity ≤ capacity * 2 ^ fuel) :
    ∃ grown, growCapacity required (fuel + 1) capacity = some grown ∧ capacity ≤ grown ∧
      (required ≤ grown ∨ maxCapacity ≤ grown) := by
  induction fuel generalizing capacity with
  | zero =>
    rw [pow_zero, Nat.mul_one] at hfuel
    refine ⟨capacity, ?_, Nat.le_refl _, .inr hfuel⟩
    rw [growCapacity, if_neg (by omega)]
  | succ fuel ih =>
    rw [growCapacity]
    by_cases hmore : capacity < required ∧ capacity < maxCapacity
    · have hdouble : 2 * capacity % sizeBound = 2 * capacity := by
        apply Nat.mod_eq_of_lt
        simp only [maxCapacity, sizeBound] at hmore ⊢
        omega
      have henough : maxCapacity ≤ 2 * capacity * 2 ^ fuel := by
        calc maxCapacity ≤ capacity * 2 ^ (fuel + 1) := hfuel
          _ = 2 * capacity * 2 ^ fuel := by rw [pow_succ]; ring
      obtain ⟨grown, hgrown, hle, hbound⟩ := ih (Nat.mul_pos (by decide) hpos) henough
      rw [if_pos hmore, hdouble]
      exact ⟨grown, hgrown, by omega, hbound⟩
    · rw [if_neg hmore]
      exact ⟨capacity, rfl, Nat.le_refl _, by omega⟩

/-- `b'` holds what `b` holds, with `n` bytes free after it if they fit. -/
structure Prepared (b : SendBuffer) (n : ℕ) (b' : SendBuffer) : Prop where
  valid : b'.Valid
  readable : b'.readable = b.readable
  room : b.size + n ≤ maxCapacity → b'.writePos + n ≤ b'.buffer.length

theorem Valid.enlarge {b : SendBuffer} (h : b.Valid) {required : ℕ}
    (hrequired : required ≤ maxCapacity) :
    ∃ b', b.enlarge required = some (true, b') ∧ b'.Valid ∧ b'.readPos = b.readPos ∧
      b'.writePos = b.writePos ∧ b'.readable = b.readable ∧ required ≤ b'.buffer.length := by
  have hfuel : maxCapacity ≤ b.buffer.length * 2 ^ 63 := by
    have hpos := h.length_pos
    simp only [maxCapacity]
    omega
  obtain ⟨grown, hgrown, hle, hbound⟩ := growCapacity_eq_some required h.length_pos hfuel
  have hmax := h.length_le
  have hwrite := h.write_le
  obtain ⟨capacity, hcapacity, hlower, hupper, henough⟩ :
      ∃ capacity, (if maxCapacity < grown then maxCapacity else grown) = capacity ∧
        b.buffer.length ≤ capacity ∧ capacity ≤ maxCapacity ∧ required ≤ capacity :=
    ⟨_, rfl, by split <;> omega, by split <;> omega, by split <;> omega⟩
  have hlength := resize_length b.buffer hlower
  have hvalid : Valid { b with buffer := resize b.buffer capacity } := by
    constructor
    · exact h.read_le
    · change b.writePos ≤ (resize b.buffer capacity).length
      omega
    · change (resize b.buffer capacity).length ≤ maxCapacity
      omega
    · have hpos := h.length_pos
      change 0 < (resize b.buffer capacity).length
      omega
  refine ⟨{ b with buffer := resize b.buffer capacity }, ?_, hvalid, rfl, rfl, ?_, ?_⟩
  · rw [SendBuffer.enlarge, hgrown, ← hcapacity]
  · rw [hvalid.readable_eq, h.readable_eq, resize_take _ hlower hwrite]
  · change required ≤ (resize b.buffer capacity).length
    omega

/-- Once compacted, the buffer can be expanded exactly when the total fits. -/
theorem Valid.expand {b : SendBuffer} (h : b.Valid) (hread : b.readPos = 0) {n : ℕ}
    (hn : b.size + n < sizeBound) :
    ∃ b', b.expand n = some (decide (b.size + n ≤ maxCapacity), b') ∧ b.Prepared n b' := by
  have hsize : b.size = b.writePos := by rw [h.size_eq, hread, Nat.sub_zero]
  have hrequired : addSize b.writePos n = b.size + n := hsize ▸ addSize_of_lt hn
  rw [SendBuffer.expand, if_neg (by omega : ¬0 < b.readPos)]
  simp only [hrequired]
  by_cases hfits : b.size + n ≤ maxCapacity
  · obtain ⟨b', heq, hvalid, -, hwrite, hreadable, hroom⟩ := h.enlarge hfits
    refine ⟨b', ?_, hvalid, hreadable, fun _ => by omega⟩
    rw [if_neg (by omega), heq, decide_eq_true hfits]
  · refine ⟨b, ?_, h, rfl, fun hle => absurd hle hfits⟩
    rw [if_pos (by omega), if_pos (by omega), decide_eq_false hfits]

/-- Room is made exactly when the total fits, without touching the contents. -/
theorem Valid.ensureWritableSpace {b : SendBuffer} (h : b.Valid) {n : ℕ}
    (hn : b.size + n < sizeBound) :
    ∃ b', b.ensureWritableSpace n = some (decide (b.size + n ≤ maxCapacity), b') ∧
      b.Prepared n b' := by
  have hmax := h.length_le
  have hwrite := h.write_le
  have hle := h.size_le
  obtain ⟨hvalid, hcwrite, hlength, hreadable⟩ := h.compact
  have hcsize : b.compact.size = b.size := by
    rw [hvalid.size_eq, compact_readPos, hcwrite, Nat.sub_zero]
  rw [SendBuffer.ensureWritableSpace, h.writable_eq, hvalid.writable_eq, hcwrite, hlength]
  by_cases hnow : n ≤ b.buffer.length - b.writePos
  · refine ⟨b, ?_, h, rfl, fun _ => by omega⟩
    rw [if_pos hnow, decide_eq_true (by omega)]
  · rw [if_neg hnow]
    by_cases hread : 0 < b.readPos
    · rw [if_pos hread]
      by_cases hthen : n ≤ b.buffer.length - b.size
      · refine ⟨b.compact, ?_, hvalid, hreadable, fun _ => by omega⟩
        rw [if_pos hthen, decide_eq_true (by omega)]
      · obtain ⟨b', heq, hprepared⟩ := hvalid.expand (compact_readPos b) (hcsize ▸ hn)
        rw [hcsize] at heq
        rw [if_neg hthen]
        exact ⟨b', heq, hprepared.valid, hprepared.readable.trans hreadable,
          hcsize ▸ hprepared.room⟩
    · rw [if_neg hread]
      exact h.expand (by omega) hn

/-- Data of a size that C++ can express fit into a `size_t` together with the contents. -/
theorem Valid.size_add_lt {b : SendBuffer} (h : b.Valid) {n : ℕ} (hn : n < 2 ^ 63) :
    b.size + n < sizeBound := by
  have hmax := h.length_le
  have hwrite := h.write_le
  have hle := h.size_le
  simp only [maxCapacity, sizeBound] at hmax ⊢
  omega

/-! ## Writing -/

/-- Copying to the write position appends to the contents. -/
theorem Valid.append {b : SendBuffer} (h : b.Valid) {data : List UInt8}
    (hroom : b.writePos + data.length ≤ b.buffer.length) :
    Valid ⟨overwrite b.buffer b.writePos data, b.readPos, addSize b.writePos data.length⟩ ∧
      readable ⟨overwrite b.buffer b.writePos data, b.readPos,
        addSize b.writePos data.length⟩ = b.readable ++ data := by
  have hread := h.read_le
  have hlength := overwrite_length hroom
  rw [addSize_of_lt (h.lt_sizeBound hroom)]
  have hvalid : Valid ⟨overwrite b.buffer b.writePos data, b.readPos,
      b.writePos + data.length⟩ := by
    constructor
    · exact Nat.le_trans hread (Nat.le_add_right _ _)
    · exact Nat.le_trans hroom (Nat.le_of_eq hlength.symm)
    · exact Nat.le_trans (Nat.le_of_eq hlength) h.length_le
    · exact hlength ▸ h.length_pos
  refine ⟨hvalid, ?_⟩
  have hmid : b.readPos ≤ (b.buffer.take b.writePos).length := by
    rw [List.length_take]
    omega
  rw [hvalid.readable_eq, h.readable_eq]
  change ((overwrite b.buffer b.writePos data).take (b.writePos + data.length)).drop b.readPos = _
  rw [overwrite_take hroom, List.drop_append_of_le_length hmid]

/-- `Write` appends all of the data when the total fits, and nothing otherwise. -/
theorem Valid.write {b : SendBuffer} (h : b.Valid) {data : List UInt8} (hpos : 1 ≤ data.length)
    (hlt : data.length < 2 ^ 63) :
    ∃ b', b.write data = some (decide (b.size + data.length ≤ maxCapacity), b') ∧ b'.Valid ∧
      b'.readable =
        if b.size + data.length ≤ maxCapacity then b.readable ++ data else b.readable := by
  obtain ⟨b', heq, hvalid, hreadable, hroom⟩ := h.ensureWritableSpace (h.size_add_lt hlt)
  rw [SendBuffer.write, if_neg (by omega), heq]
  by_cases hfits : b.size + data.length ≤ maxCapacity
  · rw [decide_eq_true hfits, if_pos hfits, ← hreadable]
    obtain ⟨hdone, happend⟩ := hvalid.append (hroom hfits)
    exact ⟨_, rfl, hdone, happend⟩
  · rw [decide_eq_false hfits, if_neg hfits]
    exact ⟨b', rfl, hvalid, hreadable⟩

/-! ## Sending -/

/-- Advancing the read position drops what the kernel took, whichever way the positions are
reset afterwards. -/
theorem Valid.consume {b : SendBuffer} (h : b.Valid) {count : ℕ} (hcount : count ≤ b.size) :
    (b.consume count).Valid ∧ (b.consume count).readable = b.readable.drop count := by
  have hread := h.read_le
  have hwrite := h.write_le
  rw [h.size_eq] at hcount
  have hadd : addSize b.readPos count = b.readPos + count :=
    addSize_of_lt (h.lt_sizeBound (by omega))
  have hvalid : Valid ⟨b.buffer, b.readPos + count, b.writePos⟩ :=
    ⟨by change b.readPos + count ≤ b.writePos; omega, hwrite, h.length_le, h.length_pos⟩
  have hdrop : readable ⟨b.buffer, b.readPos + count, b.writePos⟩ = b.readable.drop count := by
    rw [hvalid.readable_eq, h.readable_eq, List.drop_drop]
  rw [SendBuffer.consume, hadd]
  dsimp only
  split
  · rename_i hall
    obtain ⟨hclear, hnil⟩ := hvalid.clear
    refine ⟨hclear, hnil.trans ?_⟩
    rw [← hdrop, hvalid.readable_eq, hall, List.drop_of_length_le]
    exact List.length_take_le _ _
  · split
    · obtain ⟨hcompact, -, -, hsame⟩ := hvalid.compact
      exact ⟨hcompact, hsame.trans hdrop⟩
    · exact ⟨hvalid, hdrop⟩

/-- `SendToSocket` removes exactly what the kernel took. -/
theorem Valid.sendToSocket {b : SendBuffer} (h : b.Valid) {fd : ℤ} (hfd : 0 ≤ fd)
    (send : Send) :
    (b.sendToSocket fd send).2.Valid ∧
      (b.sendToSocket fd send).2.readable = b.readable.drop (send b.size).taken := by
  have hnothing : b.readable.drop 0 = b.readable := List.drop_zero
  rw [SendBuffer.sendToSocket, if_neg (by omega)]
  by_cases hempty : b.size = 0
  · rw [if_pos hempty]
    have hnil : b.readable = [] := List.eq_nil_of_length_eq_zero (h.readable_length.trans hempty)
    exact ⟨h, by rw [hnil, List.drop_nil]⟩
  · rw [if_neg hempty]
    match send b.size with
    | .accepted 0 _ => exact ⟨h, hnothing.symm⟩
    | .accepted (count + 1) hcount => exact h.consume hcount
    | .failed error => cases error <;> exact ⟨h, hnothing.symm⟩

/-- The result of `SendToSocket` is positive exactly when the kernel took something, and then
says how much. -/
theorem Valid.sendToSocket_count {b : SendBuffer} (h : b.Valid) {fd : ℤ} (hfd : 0 ≤ fd)
    (send : Send) :
    (0 < (b.sendToSocket fd send).1 →
        (b.sendToSocket fd send).1.toNat = (b.readable.take (send b.size).taken).length) ∧
      (¬0 < (b.sendToSocket fd send).1 → b.readable.take (send b.size).taken = []) := by
  rw [SendBuffer.sendToSocket, if_neg (by omega)]
  by_cases hempty : b.size = 0
  · rw [if_pos hempty]
    have hnil : b.readable = [] := List.eq_nil_of_length_eq_zero (h.readable_length.trans hempty)
    exact ⟨fun hpos => absurd hpos (lt_irrefl 0), fun _ => by rw [hnil, List.take_nil]⟩
  · rw [if_neg hempty]
    match send b.size with
    | .accepted 0 _ => exact ⟨fun hpos => absurd hpos (lt_irrefl 0), fun _ => rfl⟩
    | .accepted (count + 1) hcount =>
      refine ⟨fun _ => ?_, fun hnot => absurd (by simp) hnot⟩
      rw [List.length_take, h.readable_length]
      exact (Nat.min_eq_left hcount).symm
    | .failed error =>
      refine ⟨fun hpos => ?_, fun _ => rfl⟩
      cases error <;> simp at hpos

/-! ## The refinement -/

/-- The call on the abstract queue. A negative descriptor offers nothing to the kernel. -/
def Call.onQueue (q : BoundedQueue UInt8 maxCapacity) : Call → BoundedQueue UInt8 maxCapacity
  | .write data => q.push data
  | .sendToSocket fd send => if fd < 0 then q else q.pop (send q.contents.length).taken
  | .compact => q
  | .clear => q.clear

/-- The buffer is valid and holds what the queue holds. -/
structure Refines (b : SendBuffer) (q : BoundedQueue UInt8 maxCapacity) : Prop where
  valid : b.Valid
  contents : b.readable = q.contents

theorem Refines.size_eq {b : SendBuffer} {q : BoundedQueue UInt8 maxCapacity}
    (h : b.Refines q) : b.size = q.contents.length := by
  rw [← h.valid.readable_length, h.contents]

theorem fresh_refines : fresh.Refines BoundedQueue.empty where
  valid := fresh_valid
  contents := fresh_readable

/-- One call returns and keeps the refinement. -/
theorem Refines.call {b : SendBuffer} {q : BoundedQueue UInt8 maxCapacity} (h : b.Refines q)
    {c : Call} (hc : c.Sized) :
    ∃ reply b', b.call c = some (reply, b') ∧ b'.Refines (c.onQueue q) := by
  cases c with
  | write data =>
    rcases Nat.eq_zero_or_pos data.length with hzero | hpos
    · have hnil : data = [] := List.eq_nil_of_length_eq_zero hzero
      refine ⟨.wrote false, b, by rw [SendBuffer.call, SendBuffer.write, if_pos hzero]; rfl,
        h.valid, ?_⟩
      rw [h.contents, Call.onQueue, BoundedQueue.contents_push, hnil, List.append_nil, ite_self]
    · obtain ⟨b', heq, hvalid, hreadable⟩ := h.valid.write hpos hc
      refine ⟨_, b', by rw [SendBuffer.call, heq]; rfl, hvalid, ?_⟩
      rw [hreadable, h.size_eq, h.contents, Call.onQueue, BoundedQueue.contents_push]
  | sendToSocket fd send =>
    refine ⟨.sent (b.sendToSocket fd send).1, (b.sendToSocket fd send).2, rfl, ?_⟩
    by_cases hfd : fd < 0
    · have hself : b.sendToSocket fd send = (-1, b) := if_pos hfd
      rw [hself, Call.onQueue, if_pos hfd]
      exact h
    · obtain ⟨hvalid, hreadable⟩ := h.valid.sendToSocket (by omega : 0 ≤ fd) send
      refine ⟨hvalid, ?_⟩
      rw [hreadable, Call.onQueue, if_neg hfd, BoundedQueue.contents_pop, h.contents, h.size_eq]
  | compact =>
    obtain ⟨hvalid, -, -, hreadable⟩ := h.valid.compact
    exact ⟨_, _, rfl, hvalid, hreadable.trans h.contents⟩
  | clear =>
    obtain ⟨hvalid, hreadable⟩ := h.valid.clear
    exact ⟨_, _, rfl, hvalid, hreadable.trans (BoundedQueue.contents_clear q).symm⟩

theorem Refines.calls {cs : List Call} (hcs : ∀ c ∈ cs, c.Sized) :
    ∀ {b : SendBuffer} {q : BoundedQueue UInt8 maxCapacity}, b.Refines q →
      ∃ replies b', b.calls cs = some (replies, b') ∧ b'.Refines (cs.foldl Call.onQueue q) := by
  induction cs with
  | nil => exact fun {b q} h => ⟨[], b, rfl, h⟩
  | cons c cs ih =>
    intro b q h
    obtain ⟨hc, hrest⟩ := List.forall_mem_cons.mp hcs
    obtain ⟨reply, b₁, hcall, h₁⟩ := h.call hc
    obtain ⟨replies, b₂, hcalls, h₂⟩ := ih hrest h₁
    exact ⟨reply :: replies, b₂, by simp [SendBuffer.calls, hcall, hcalls], h₂⟩

/-- The queue that a sequence of calls describes. -/
def queueAfter (cs : List Call) : BoundedQueue UInt8 maxCapacity :=
  cs.foldl Call.onQueue BoundedQueue.empty

/-- Whatever was called on a fresh buffer, every call has returned, the readable region is
what was written and is not gone, the positions are in order and within a buffer of bounded
size, a write appends exactly when the total fits, and sending removes what the kernel
took. -/
theorem calls_refine (cs : List Call) (hcs : ∀ c ∈ cs, c.Sized) :
    ∃ replies b, fresh.calls cs = some (replies, b) ∧
      b.readable = (queueAfter cs).contents ∧ b.size = b.readable.length ∧
      (b.readPos ≤ b.writePos ∧ b.writePos ≤ b.buffer.length ∧ b.buffer.length ≤ maxCapacity) ∧
      (∀ data : List UInt8, 1 ≤ data.length → data.length < 2 ^ 63 →
        ∃ b', b.write data = some (decide (b.size + data.length ≤ maxCapacity), b') ∧
          b'.readable =
            if b.size + data.length ≤ maxCapacity then b.readable ++ data else b.readable) ∧
      (∀ fd : ℤ, 0 ≤ fd → ∀ send : Send,
        (b.sendToSocket fd send).2.readable = b.readable.drop (send b.size).taken) := by
  obtain ⟨replies, b, hcalls, hvalid, hcontents⟩ := fresh_refines.calls hcs
  refine ⟨replies, b, hcalls, hcontents, hvalid.readable_length.symm,
    ⟨hvalid.read_le, hvalid.write_le, hvalid.length_le⟩, ?_, ?_⟩
  · intro data hpos hlt
    obtain ⟨b', heq, -, hreadable⟩ := hvalid.write hpos hlt
    exact ⟨b', heq, hreadable⟩
  · intro fd hfd send
    exact (hvalid.sendToSocket hfd send).2

/-- A kernel that takes at most `limit` bytes. -/
def takesAtMost (limit : ℕ) : Send :=
  fun offered => .accepted (min limit offered) (Nat.min_le_right _ _)

/-- Three bytes are written, the kernel takes two of them, and the buffer is compacted. -/
def partialSend : List Call :=
  [.write [1, 2, 3], .sendToSocket 5 (takesAtMost 2), .compact]

theorem partialSend_leaves_rest :
    ∃ replies b, fresh.calls partialSend = some (replies, b) ∧ b.readable = [3] := by
  have hsized : ∀ c ∈ partialSend, c.Sized := by simp [partialSend, Call.Sized]
  obtain ⟨replies, b, hcalls, hcontents, -⟩ := calls_refine partialSend hsized
  exact ⟨replies, b, hcalls, hcontents.trans (by decide)⟩

end SendBuffer

/-! ## The growth of send buffers that are moved

A buffer that was moved from has the capacity zero, which doubling does not raise. -/

namespace SendBuffer

/-- `EnsureWritableSpace` returns, and if it returns true there is room for `n` bytes. -/
def EnsuresRoom (b : SendBuffer) (n : ℕ) : Prop :=
  ∃ success b', b.ensureWritableSpace n = some (success, b') ∧
    (success = true → b'.writePos + n ≤ b'.buffer.length)

/-! ### Buffers that are not moved from -/

/-- The sum `write_pos_ + size` wraps to what is there already, which is then taken for
enough. -/
theorem Valid.ensureWritableSpace_of_wrap {b : SendBuffer} (h : b.Valid) {n : ℕ}
    (hn : n < sizeBound) (hwrap : sizeBound ≤ b.size + n) :
    ∃ b', b.ensureWritableSpace n = some (true, b') ∧ b'.buffer.length < n := by
  have hmax := h.length_le
  have hwrite := h.write_le
  have hle := h.size_le
  have hlarge : maxCapacity < n := by
    simp only [maxCapacity, sizeBound] at hmax hwrap ⊢
    omega
  have hexpand : ∀ c : SendBuffer, c.Valid → c.readPos = 0 → c.size = b.size →
      ∃ b', c.expand n = some (true, b') ∧ b'.buffer.length < n := by
    intro c hc hread hsize
    have hcsize := hc.size_eq
    have hcwrite := hc.write_le
    have hcmax := hc.length_le
    have hrequired : addSize c.writePos n ≤ maxCapacity := by
      have hmod : addSize c.writePos n = c.writePos + n - sizeBound := by
        rw [addSize, Nat.mod_eq_sub_mod (by omega), Nat.mod_eq_of_lt (by omega)]
      omega
    obtain ⟨b', heq, hvalid, -⟩ := hc.enlarge hrequired
    have hlength := hvalid.length_le
    exact ⟨b', by rw [SendBuffer.expand, if_neg (by omega), heq], by omega⟩
  obtain ⟨hvalid, hcwrite, hlength, -⟩ := h.compact
  rw [SendBuffer.ensureWritableSpace, h.writable_eq, if_neg (by omega)]
  by_cases hread : 0 < b.readPos
  · rw [if_pos hread, hvalid.writable_eq, if_neg (by omega)]
    refine hexpand b.compact hvalid (compact_readPos b) ?_
    rw [hvalid.size_eq, compact_readPos, hcwrite, Nat.sub_zero]
  · rw [if_neg hread]
    exact hexpand b h (by omega) rfl

theorem Valid.ensuresRoom {b : SendBuffer} (h : b.Valid) {n : ℕ} (hn : n < sizeBound) :
    b.EnsuresRoom n ↔ b.size + n < sizeBound := by
  constructor
  · rintro ⟨success, b', heq, hroom⟩
    by_contra hwrap
    obtain ⟨b'', heq', hshort⟩ := h.ensureWritableSpace_of_wrap hn (Nat.le_of_not_lt hwrap)
    obtain ⟨rfl, rfl⟩ : success = true ∧ b' = b'' := by simpa [heq] using heq'
    have hle := hroom rfl
    omega
  · intro hsum
    obtain ⟨b', heq, hprepared⟩ := h.ensureWritableSpace hsum
    exact ⟨_, b', heq, fun hfits => hprepared.room (of_decide_eq_true hfits)⟩

/-! ### Buffers that are moved from -/

theorem growCapacity_zero {required : ℕ} (hpos : 0 < required) (fuel : ℕ) :
    growCapacity required fuel 0 = none := by
  induction fuel with
  | zero => rfl
  | succ fuel ih => rw [growCapacity, if_pos ⟨hpos, by decide⟩, Nat.mul_zero, Nat.zero_mod, ih]

theorem movedFrom_ensureWritableSpace {n : ℕ} (hn : n < sizeBound) :
    movedFrom.ensureWritableSpace n =
      if n = 0 then some (true, movedFrom)
      else if maxCapacity < n then some (false, movedFrom) else none := by
  have hrequired : addSize movedFrom.writePos n = n := by
    have hzero : movedFrom.writePos = 0 := rfl
    rw [hzero, addSize_of_lt (by omega), Nat.zero_add]
  have hwritable : movedFrom.writable = 0 := by decide
  have hread : ¬0 < movedFrom.readPos := by decide
  rw [ensureWritableSpace, hwritable, if_neg hread]
  by_cases hzero : n = 0
  · rw [if_pos (by omega), if_pos hzero]
  · have hnone : growCapacity n 64 movedFrom.buffer.length = none :=
      growCapacity_zero (by omega) 64
    rw [if_neg (by omega), if_neg hzero, expand, if_neg hread, hrequired]
    by_cases hlarge : maxCapacity < n
    · rw [if_pos hlarge, if_pos hlarge]
      exact if_pos (hrequired.symm ▸ hlarge)
    · rw [if_neg hlarge, if_neg hlarge, enlarge, hnone]

theorem movedFrom_ensuresRoom_iff {n : ℕ} (hn : n < sizeBound) :
    movedFrom.EnsuresRoom n ↔ n = 0 ∨ maxCapacity < n := by
  rw [EnsuresRoom, movedFrom_ensureWritableSpace hn]
  by_cases hzero : n = 0
  · simp [hzero, movedFrom]
  · by_cases hlarge : maxCapacity < n <;> simp [hzero, hlarge]

/-- A call on a buffer that was moved from leaves it as it is, if it ends. -/
theorem movedFrom_call {c : Call} (hc : c.Sized) {reply : Reply} {b : SendBuffer}
    (hcall : movedFrom.call c = some (reply, b)) : b = movedFrom := by
  cases c with
  | write data =>
    have hn : data.length < sizeBound := Nat.lt_trans hc (by decide)
    rw [call, write, movedFrom_ensureWritableSpace hn] at hcall
    by_cases hzero : data.length = 0
    · simp only [hzero, if_true, Option.map_some, Option.some.injEq, Prod.mk.injEq] at hcall
      exact hcall.2.symm
    · by_cases hlarge : maxCapacity < data.length
      · simp only [hzero, hlarge, if_true, if_false, Option.map_some, Option.some.injEq,
          Prod.mk.injEq] at hcall
        exact hcall.2.symm
      · simp [hzero, hlarge] at hcall
  | sendToSocket fd send =>
    have hkeep : (movedFrom.sendToSocket fd send).2 = movedFrom := by
      rw [sendToSocket, if_pos (by decide : movedFrom.size = 0)]
      split <;> rfl
    simp only [call, Option.some.injEq, Prod.mk.injEq] at hcall
    exact hcall.2.symm.trans hkeep
  | compact => exact (Prod.mk.inj (Option.some.inj hcall)).2.symm
  | clear => exact (Prod.mk.inj (Option.some.inj hcall)).2.symm

/-! ### Every run -/

def Sound (b : SendBuffer) : Prop :=
  b.Valid ∨ b = movedFrom

theorem Valid.exists_refines {b : SendBuffer} (h : b.Valid) : ∃ q, b.Refines q := by
  have hle := h.size_le
  have hwrite := h.write_le
  have hmax := h.length_le
  refine ⟨⟨b.readable, 0, Nat.zero_le _, ?_⟩, h, List.drop_zero.symm⟩
  rw [h.readable_length]
  omega

theorem Sound.call {b : SendBuffer} (h : b.Sound) {c : Call} (hc : c.Sized) {reply : Reply}
    {b' : SendBuffer} (hcall : b.call c = some (reply, b')) : b'.Sound := by
  rcases h with hvalid | rfl
  · obtain ⟨q, hrefines⟩ := hvalid.exists_refines
    obtain ⟨reply', b'', heq, hnext⟩ := hrefines.call hc
    obtain ⟨-, rfl⟩ : reply = reply' ∧ b' = b'' := by simpa [hcall] using heq
    exact .inl hnext.valid
  · exact .inr (movedFrom_call hc hcall)

section Program

variable {ι : Type*} [DecidableEq ι] {s t : ι → Option SendBuffer}

def AllSound (s : ι → Option SendBuffer) : Prop :=
  ∀ i, ∀ b ∈ s i, b.Sound

theorem AllSound.update (h : AllSound s) (i : ι) {o : Option SendBuffer}
    (ho : ∀ b ∈ o, b.Sound) : AllSound (Function.update s i o) := by
  intro j b hb
  by_cases hj : j = i
  · rw [hj, Function.update_self] at hb
    exact ho b hb
  · rw [Function.update_of_ne hj] at hb
    exact h j b hb

theorem AllSound.move (h : AllSound s) {i : ι} (j : ι) {b : SendBuffer} (hi : s i = some b) :
    AllSound (move s i j b) := by
  have hsource : AllSound (Function.update s i (some movedFrom)) :=
    h.update i fun b' hb' => .inr (Option.some.inj hb').symm
  exact hsource.update j fun b' hb' => Option.some.inj hb' ▸ h i b hi

theorem AllSound.step (h : AllSound s) (hstep : Step s t) : AllSound t := by
  cases hstep with
  | construct hi =>
    exact h.update _ fun b hb => .inl (Option.some.inj hb ▸ fresh_valid)
  | @call i b c reply b' hi hsized hcall =>
    exact h.update i fun b'' hb'' => Option.some.inj hb'' ▸ (h i b hi).call hsized hcall
  | moveConstruct hi hj => exact h.move _ hi
  | moveAssign hi hj hij => exact h.move _ hi
  | destroy => exact h.update _ fun b hb => by cases hb

theorem run_allSound {states : List (ι → Option SendBuffer)} (hrun : (program ι).Run states) :
    ∀ s ∈ states, AllSound s := by
  refine hrun.invariant ?_ fun s t hs hstep => hs.step hstep
  rintro s rfl i b hb
  cases hb

/-- In every run of calls and moves, room is ensured in exactly the buffers and for exactly the
sizes that this says. The loop for a buffer without capacity never ends, however long it runs. -/
theorem ensuresRoom_iff {states : List (ι → Option SendBuffer)} (hrun : (program ι).Run states)
    (hs : s ∈ states) {i : ι} {b : SendBuffer} (hb : s i = some b) {n : ℕ} (hn : n < sizeBound) :
    (b.EnsuresRoom n ↔
      b.size + n < sizeBound ∧ (b.buffer.length = 0 → n = 0 ∨ maxCapacity < n)) ∧
    (b.buffer.length = 0 → 0 < n → ∀ fuel, growCapacity n fuel b.buffer.length = none) := by
  refine ⟨?_, fun hzero hpos fuel => hzero ▸ growCapacity_zero hpos fuel⟩
  rcases run_allSound hrun s hs i b hb with hvalid | rfl
  · have hlength : b.buffer.length ≠ 0 := Nat.pos_iff_ne_zero.mp hvalid.length_pos
    rw [hvalid.ensuresRoom hn]
    exact ⟨fun hsum => ⟨hsum, fun hzero => absurd hzero hlength⟩, And.left⟩
  · have hsize : movedFrom.size = 0 := by decide
    rw [movedFrom_ensuresRoom_iff hn, hsize, Nat.zero_add]
    exact ⟨fun hroom => ⟨hn, fun _ => hroom⟩, fun hboth => hboth.2 rfl⟩

end Program

/-- One buffer is constructed and another one is constructed from it by a move. -/
theorem moved_run : (program Bool).Run
    [move (Function.update (fun _ => none) false (some fresh)) false true fresh,
      Function.update (fun _ => none) false (some fresh), fun _ => none] :=
  ((TransitionSystem.Run.start rfl).next (Step.construct rfl)).next (Step.moveConstruct rfl rfl)

theorem ensuresRoom_iff_fresh : fresh.EnsuresRoom 5 :=
  (ensuresRoom_iff moved_run List.mem_cons_self (i := true) (b := fresh) rfl
    (n := 5) (by decide)).1.mpr ⟨by decide +kernel, fun hzero => absurd hzero (by decide +kernel)⟩

/-- A write of one byte to a buffer that was moved from does not end. -/
theorem moved_from_write_hangs : ∃ states, (program Bool).Run states ∧ ∃ s ∈ states,
    s false = some movedFrom ∧ ¬movedFrom.EnsuresRoom 1 ∧ movedFrom.write [1] = none ∧
      ∀ fuel, growCapacity 1 fuel movedFrom.buffer.length = none := by
  refine ⟨_, moved_run, _, List.mem_cons_self, rfl, ?_, by decide +kernel,
    growCapacity_zero (by decide)⟩
  rw [movedFrom_ensuresRoom_iff (by decide)]
  decide

end SendBuffer

end DarwinCore.Network
