import DarwinCore.Library.Reassembly
import DarwinCore.Verification.Protocol.Stream

/-! # Whole frames

On a stream of whole frames the loop makes one turn for each frame, and what it does
with a frame depends on the frame alone. -/

namespace DarwinCore.Protocol

open ByteOrder

/-! ## Frames that reach the decoder -/

namespace Frame

/-- The header passes the checks at the top of the loop and tells the length of the payload. -/
structure Passes (f : Frame) : Prop where
  magic1 : f.header.magic1 = Protocol.magic1
  magic2 : f.header.magic2 = Protocol.magic2
  version : f.header.version = Protocol.version
  bound : f.header.payloadLen.toNat ≤ maxFramePayload
  length : f.payload.length = f.header.payloadLen.toNat

/-- Moreover the payload without its trailer holds the sub-header. -/
structure WellFormed (f : Frame) : Prop extends f.Passes where
  sized : f.header.WellSized

/-- The trailer is there and does not fit the data. -/
def spoiled (e : Endian) (f : Frame) : Bool :=
  f.header.crcMismatch e f.payload

def content (e : Endian) (f : Frame) : Body :=
  body e f.header f.payload

def stream (e : Endian) (fs : List Frame) : List UInt8 :=
  (fs.map (serialize e)).flatten

@[simp] theorem stream_nil (e : Endian) : stream e [] = [] := rfl

@[simp] theorem stream_cons (e : Endian) (f : Frame) (fs : List Frame) :
    stream e (f :: fs) = f.serialize e ++ stream e fs := rfl

theorem front_serialize (e : Endian) {f : Frame} (hf : f.Passes) (rest : List UInt8) :
    front e (f.serialize e ++ rest) = .complete f.header := by
  have hload : FrameHeader.load e (f.serialize e ++ rest) = f.header := by
    rw [serialize, List.append_assoc, FrameHeader.load_bytes]
  have hlen : (f.serialize e ++ rest).length =
      frameHeaderSize + f.header.payloadLen.toNat + rest.length := by
    rw [List.length_append, length_serialize, hf.length]
  have hbound := hf.bound
  unfold front
  simp only [hload, hlen]
  rw [if_neg (by omega), if_neg (by simp [hf.magic1, hf.magic2]), if_neg (by simp [hf.version]),
    if_neg (by omega), if_neg (by omega)]

theorem drop_serialize (e : Endian) {f : Frame} (hf : f.Passes) (rest : List UInt8) :
    (f.serialize e ++ rest).drop f.header.frameSize = rest := by
  apply List.drop_left'
  rw [length_serialize, hf.length, FrameHeader.frameSize]

theorem payload_serialize (e : Endian) (f : Frame) (rest : List UInt8) :
    (f.serialize e ++ rest).drop frameHeaderSize = f.payload ++ rest := by
  rw [serialize, List.append_assoc]
  exact List.drop_left' (FrameHeader.length_bytes e f.header)

theorem wellSized_stream (e : Endian) {fs : List Frame} (hfs : ∀ f ∈ fs, f.WellFormed) :
    WellSizedStream e (stream e fs) := by
  induction fs with
  | nil => exact .of_front fun hdr h => by simp [front, frameHeaderSize] at h
  | cons f fs ih =>
    have hf := hfs f List.mem_cons_self
    refine .cons (front_serialize e hf.toPasses _) hf.sized ?_
    rw [stream_cons, drop_serialize e hf.toPasses]
    exact ih fun g hg => hfs g (List.mem_cons_of_mem _ hg)

end Frame

/-! ## The loop over frames -/

namespace Decoder

/-- What the loop does with a frame, the buffer aside. -/
def takeFrame (e : Endian) (now : ℕ) (d : Decoder) (f : Frame) : Ending :=
  if f.spoiled e then .next d.countFrame.countCrcError
  else d.countFrame.deliver now (f.content e)

/-- The loop over a list of frames, the buffer aside. -/
def takeFrames (e : Endian) : (ℕ → ℕ) → Decoder → List Frame → FeedResult
  | _, d, [] => .normal d
  | clock, d, f :: fs =>
      match d.takeFrame e (clock 0) f with
      | .wait d => .normal d
      | .next d => takeFrames e (fun i => clock (i + 1)) d fs
      | .throws error d => .error error d
      | .fault d => .fault d

def withBuffer (d : Decoder) (bytes : List UInt8) : Decoder :=
  { d with buffer := bytes }

@[simp] theorem withBuffer_buffer (d : Decoder) (bytes : List UInt8) :
    (d.withBuffer bytes).buffer = bytes := rfl

theorem finishSlice_withBuffer (d : Decoder) (bytes : List UInt8) (id : UInt64)
    (m : MessageAssembly) :
    (d.withBuffer bytes).finishSlice id m = (d.finishSlice id m).withBuffer bytes := by
  unfold finishSlice
  split <;> rfl

theorem deliver_withBuffer (now : ℕ) (d : Decoder) (bytes : List UInt8) (b : Body) :
    (d.withBuffer bytes).deliver now b = (d.deliver now b).map (withBuffer · bytes) :=
  deliver_map (withBuffer · bytes) (fun _ => rfl) (finishSlice_withBuffer d bytes)
    (fun _ => rfl) b

theorem turn_frame (e : Endian) (now : ℕ) (d : Decoder) {f : Frame} (hf : f.WellFormed)
    (rest : List UInt8) :
    ((d.withBuffer (f.serialize e ++ rest)).turn e now).ending =
      match d.takeFrame e now f with
      | .next d' => .next (d'.withBuffer rest)
      | ending => ending.map (withBuffer · (f.serialize e ++ rest)) := by
  have hpayload : f.header.payloadLen.toNat ≤ f.payload.length := hf.length.ge
  rw [turn_of_complete (d := d.withBuffer _) (Frame.front_serialize e hf.toPasses rest) hf.sized,
    withBuffer_buffer, Frame.payload_serialize, crcMismatch_append e _ _ rest hpayload,
    body_append e _ _ rest hpayload, takeFrame, Frame.spoiled, Frame.content]
  cases f.header.crcMismatch e f.payload with
  | true =>
    simp only [ite_true]
    exact congrArg (fun bytes => Ending.next (d.countFrame.countCrcError.withBuffer bytes))
      (Frame.drop_serialize e hf.toPasses rest)
  | false =>
    rw [if_neg Bool.false_ne_true, if_neg Bool.false_ne_true,
      show (d.withBuffer (f.serialize e ++ rest)).countFrame =
        d.countFrame.withBuffer (f.serialize e ++ rest) from rfl, deliver_withBuffer]
    cases d.countFrame.deliver now (body e f.header f.payload) with
    | next d' =>
      exact congrArg (fun bytes => Ending.next (d'.withBuffer bytes))
        (Frame.drop_serialize e hf.toPasses rest)
    | _ => rfl

theorem deliver_ne_wait (now : ℕ) (d d' : Decoder) (b : Body) : d.deliver now b ≠ .wait d' := by
  intro h
  have hb := deliver_delivery now d b
  rw [h] at hb
  nomatch hb

/-- The loop over the bytes of whole frames is the loop over the frames. -/
theorem tryDecode_stream {e : Endian} {rest : List UInt8} (hrest : front e rest = .incomplete)
    {fs : List Frame} (hfs : ∀ f ∈ fs, f.WellFormed) (clock : ℕ → ℕ) (d : Decoder) :
    ∃ bytes, (d.withBuffer (Frame.stream e fs ++ rest)).tryDecode e clock =
        (d.takeFrames e clock fs).map (withBuffer · bytes) ∧
      ∀ d', d.takeFrames e clock fs = .normal d' → bytes = rest := by
  induction fs generalizing clock d with
  | nil =>
    refine ⟨rest, ?_, fun _ _ => rfl⟩
    rw [tryDecode_of_incomplete _ (by simpa using hrest)]
    rfl
  | cons f fs ih =>
    have hf := hfs f List.mem_cons_self
    rw [tryDecode_eq, Frame.stream_cons, List.append_assoc, turn_frame e _ d hf, takeFrames]
    cases hend : d.takeFrame e (clock 0) f with
    | wait d' =>
      unfold takeFrame at hend
      split at hend
      · cases hend
      · exact absurd hend (deliver_ne_wait _ _ _ _)
    | next d' => exact ih (fun g hg => hfs g (List.mem_cons_of_mem _ hg)) _ d'
    | throws error d' => exact ⟨_, rfl, fun _ h => by cases h⟩
    | fault d' => exact ⟨_, rfl, fun _ h => by cases h⟩

theorem takeFrames_receive (e : Endian) (clock : ℕ → ℕ) (d : Decoder) (more : List UInt8)
    (fs : List Frame) :
    (d.receive more).takeFrames e clock fs = (d.takeFrames e clock fs).map (receive · more) := by
  induction fs generalizing clock d with
  | nil => rfl
  | cons f fs ih =>
    have hstep : (d.receive more).takeFrame e (clock 0) f =
        (d.takeFrame e (clock 0) f).map (receive · more) := by
      unfold takeFrame
      split
      · rfl
      · exact deliver_receive (clock 0) d.countFrame more (f.content e)
    rw [takeFrames, takeFrames, hstep]
    cases d.takeFrame e (clock 0) f with
    | next d' => exact ih _ d'
    | _ => rfl

/-- What a fresh decoder makes of the bytes of whole frames, however they are cut. -/
theorem feedAll_stream {e : Endian} {fs : List Frame} (hfs : ∀ f ∈ fs, f.WellFormed) (ms : UInt32)
    {chunks : List Chunk} (hinput : input chunks = Frame.stream e fs) :
    ∃ bytes, FeedResult.Agrees (feedAll e (fresh ms) chunks)
        (((fresh 0).takeFrames e (fun _ => 0) fs).map fun d =>
          (d.receive (Frame.stream e fs)).withBuffer bytes) ∧
      ∀ d, (fresh 0).takeFrames e (fun _ => 0) fs = .normal d → bytes = [] := by
  obtain ⟨bytes, htry, hnormal⟩ := tryDecode_stream
    (show front e [] = .incomplete from rfl) hfs (fun _ => 0)
      ((fresh 0).receive (Frame.stream e fs))
  rw [takeFrames_receive] at htry hnormal
  refine ⟨bytes, ?_, fun d hd => hnormal _ (congrArg (FeedResult.map (receive · _)) hd)⟩
  have hmap : ∀ x : FeedResult, (x.map (receive · (Frame.stream e fs))).map (withBuffer · bytes) =
      x.map fun d => (d.receive (Frame.stream e fs)).withBuffer bytes := by
    intro x
    cases x <;> rfl
  rw [← hmap, ← htry, List.append_nil, ← hinput]
  refine feedAll_agrees_tryDecode chunks (fresh_alike ms 0) rfl ?_
  rw [hinput]
  exact Frame.wellSized_stream e hfs

end Decoder

/-! ## Assemblies follow their histories

An assembly keeps slots and a counter, not the history of its message. Slots and counter
are functions of that history, and the counter is exact as long as no repeat of an empty
slice stands in for a slice that is missing. -/

open Reassembly

/-! ### Slots and counter -/

namespace MessageAssembly

structure Fits (m : MessageAssembly) (total : UInt16) (xs : List (Slice UInt8)) : Prop where
  count : m.total = total
  slots : m.slices = (List.range total.toNat).map (kept xs)
  received : m.received.toNat = counted xs
  bound : indices xs ⊆ Finset.range total.toNat

variable {m : MessageAssembly} {total : UInt16} {xs : List (Slice UInt8)}

theorem Fits.length (h : m.Fits total xs) : m.slices.length = total.toNat := by
  rw [h.slots, List.length_map, List.length_range]

theorem Fits.slot (h : m.Fits total xs) {i : ℕ} (hi : i < total.toNat) :
    m.slices.getD i [] = kept xs i := by
  rw [h.slots, List.getD_eq_getElem?_getD, List.getElem?_map, List.getElem?_range hi]
  rfl

theorem Fits.bound_cons (h : m.Fits total xs) {x : Slice UInt8} (hx : x.index < total.toNat) :
    indices (x :: xs) ⊆ Finset.range total.toNat := by
  rw [indices_cons]
  exact Finset.insert_subset (Finset.mem_range.mpr hx) h.bound

/-- A slice whose slot is free is stored and counted. -/
theorem Fits.store (h : m.Fits total xs) {x : Slice UInt8} (hx : x.index < total.toNat)
    (hfree : m.slices.getD x.index [] = []) (hopen : counted xs < total.toNat) :
    Fits { m with slices := m.slices.set x.index x.data, received := m.received + 1 }
      total (x :: xs) := by
  rw [h.slot hx] at hfree
  have hlt : total.toNat < 2 ^ 16 := total.toNat_lt
  refine ⟨h.count, ?_, ?_, h.bound_cons hx⟩
  · apply List.ext_getElem
    · simp [h.length]
    · intro i hi _
      rw [List.length_set, h.length] at hi
      simp only [h.slots, List.getElem_set, List.getElem_map, List.getElem_range, kept]
      by_cases hix : x.index = i
      · subst hix
        simp [hfree]
      · simp [hix]
  · rw [counted_cons_of_free hfree, UInt16.toNat_add, h.received]
    exact Nat.mod_eq_of_lt (by simp; omega)

theorem Fits.keep (h : m.Fits total xs) {x : Slice UInt8} (hx : x.index < total.toNat)
    (hfull : m.slices.getD x.index [] ≠ []) : m.Fits total (x :: xs) := by
  rw [h.slot hx] at hfull
  refine ⟨h.count, ?_, ?_, h.bound_cons hx⟩
  · rw [h.slots]
    apply List.map_congr_left
    intro i _
    rw [kept, if_neg]
    rintro ⟨rfl, hempty⟩
    exact hfull hempty
  · rw [counted_cons_of_full hfull, h.received]

/-- The slots of a message that is complete, no empty slice of which was repeated. -/
theorem Fits.flatten (h : m.Fits total xs) (hrepeat : emptyRepeats xs = 0) :
    m.slices.flatten = assemble total.toNat xs := by
  rw [h.slots, assemble, List.flatMap]
  congr 1
  exact List.map_congr_left fun i _ => kept_eq_firstFor hrepeat i

end MessageAssembly

/-! ### The decoder and the histories -/

def slicePart (mh : MessageHeader) (data : List UInt8) : Part UInt64 UInt8 :=
  { index := mh.sequence.toNat, data := data, id := mh.messageId, total := mh.totalSlices.toNat }

def emitted (c : UInt64 × List UInt8) : MessageComplete :=
  ⟨c.1, c.2⟩

namespace Decoder

/-- An entry of the map of pending assemblies fits the history of its message. -/
def EntryFits (total : UInt16) (xs : List (Slice UInt8)) : Option MessageAssembly → Prop
  | none => xs = []
  | some m => xs ≠ [] ∧ m.Fits total xs ∧ counted xs < total.toNat

/-- The pending assemblies fit the histories, and what was delivered is the same. -/
structure Tracks (total : UInt64 → UInt16) (d : Decoder) (s : State UInt64 UInt8) : Prop where
  pending : ∀ id, EntryFits (total id) (s.pending id) (d.messages.lookup id)
  completed : d.completedMessages = s.completed.map emitted

variable {total : UInt64 → UInt16} {d d' : Decoder} {s : State UInt64 UInt8}
  {mh : MessageHeader} {data : List UInt8}

theorem Tracks.congr (h : Tracks total d s) (hm : d'.messages = d.messages)
    (hc : d'.completedMessages = d.completedMessages) : Tracks total d' s :=
  ⟨hm ▸ h.pending, hc ▸ h.completed⟩

theorem Tracks.countFrame (h : Tracks total d s) : Tracks total d.countFrame s :=
  h.congr rfl rfl

theorem Tracks.assembly (h : Tracks total d s) (now : ℕ)
    (htotal : total mh.messageId = mh.totalSlices) (hseq : mh.sequence < mh.totalSlices) :
    (d.assembly now mh).Fits mh.totalSlices (s.pending mh.messageId) ∧
      counted (s.pending mh.messageId) < mh.totalSlices.toNat := by
  have hpos : 0 < mh.totalSlices.toNat := Nat.zero_lt_of_lt (UInt16.lt_iff_toNat_lt.mp hseq)
  have hentry := h.pending mh.messageId
  unfold Decoder.assembly
  cases hm : d.messages.lookup mh.messageId with
  | none =>
    rw [hm] at hentry
    rw [show s.pending mh.messageId = [] from hentry]
    refine ⟨⟨rfl, ?_, rfl, by simp⟩, hpos⟩
    simp only [Option.getD_none, ite_true, kept, List.map_const', List.length_range]
  | some m =>
    rw [hm, htotal] at hentry
    obtain ⟨-, hfits, hopen⟩ := hentry
    have hslices : m.slices ≠ [] := by
      rw [← List.length_pos_iff, hfits.length]
      exact hpos
    simp only [Option.getD_some, if_neg hslices]
    exact ⟨hfits, hopen⟩

/-- A slice with a valid index is filed, and slots and counter follow its history. -/
theorem Tracks.deliver (h : Tracks total d s) (now : ℕ)
    (htotal : total mh.messageId = mh.totalSlices) (hseq : mh.sequence < mh.totalSlices) :
    ∃ m : MessageAssembly, d.deliver now (.slice mh data) = .next (d.finishSlice mh.messageId m) ∧
      m.Fits mh.totalSlices (s.history (slicePart mh data)) ∧
      counted (s.history (slicePart mh data)) ≤ mh.totalSlices.toNat := by
  obtain ⟨hfits, hopen⟩ := h.assembly now htotal hseq
  have hindex : mh.sequence.toNat < mh.totalSlices.toNat := UInt16.lt_iff_toNat_lt.mp hseq
  have hd := deliver_delivery now d (.slice mh data)
  generalize hend : d.deliver now (.slice mh data) = ending at hd ⊢
  cases hd with
  | badSequence hbad => exact absurd hseq (UInt16.not_lt.mpr hbad)
  | outside _ hslot =>
    rw [hfits.length] at hslot
    omega
  | stored _ _ hempty =>
    refine ⟨_, rfl, hfits.store (x := (slicePart mh data).toSlice) hindex hempty hopen, ?_⟩
    have hfree : kept (s.pending mh.messageId) (slicePart mh data).index = [] :=
      (hfits.slot hindex).symm.trans hempty
    exact (counted_cons_of_free hfree).trans_le hopen
  | repeated _ _ hfull =>
    refine ⟨_, rfl, hfits.keep (x := (slicePart mh data).toSlice) hindex hfull, ?_⟩
    have hkept : kept (s.pending mh.messageId) (slicePart mh data).index ≠ [] :=
      fun hempty => hfull ((hfits.slot hindex).trans hempty)
    exact (counted_cons_of_full hkept).trans_le hopen.le

section Finish

variable {p : Part UInt64 UInt8} {m : MessageAssembly}

private theorem received_eq_total (hfits : m.Fits (total p.id) (s.history p)) :
    m.received = m.total ↔ counted (s.history p) = (total p.id).toNat := by
  rw [← UInt16.toNat_inj, hfits.received, hfits.count]

/-- Where no missing slice is masked, the counter closes the assembly when it should. -/
theorem Tracks.finish (h : Tracks total d s) (htotal : (total p.id).toNat = p.total)
    (hfits : m.Fits (total p.id) (s.history p)) (hle : counted (s.history p) ≤ (total p.id).toNat)
    (hmask : ¬ s.Masked p) : Tracks total (d.finishSlice p.id m) (s.arrive p) := by
  have hclose := received_eq_total hfits
  have hbound := hfits.bound
  unfold finishSlice State.arrive
  by_cases hcomplete : Complete p.total (s.history p)
  · obtain ⟨hcount, hrepeat⟩ := counted_of_complete (htotal ▸ hle) hcomplete
    rw [if_pos hcomplete, if_pos (hclose.mpr (hcount.trans htotal.symm))]
    refine ⟨fun id => ?_, by simp [h.completed, emitted, hfits.flatten hrepeat, htotal]⟩
    by_cases hne : id = p.id
    · subst hne
      simp [EntryFits]
    · simpa [Finmap.lookup_erase_ne hne, Function.update_of_ne hne] using h.pending id
  · have hcount : counted (s.history p) ≠ (total p.id).toNat := by
      intro hc
      have hmiss := (counted_eq_total_iff hbound).mp hc
      rw [htotal] at hmiss hbound
      refine hmask ⟨Nat.pos_of_ne_zero fun hzero => ?_, hmiss⟩
      exact hcomplete ((complete_iff_missing hbound).mpr hzero)
    rw [if_neg hcomplete, if_neg (mt hclose.mp hcount)]
    refine ⟨fun id => ?_, h.completed⟩
    by_cases hne : id = p.id
    · subst hne
      simpa [EntryFits, State.history] using ⟨hfits, lt_of_le_of_ne hle hcount⟩
    · simpa [Finmap.lookup_insert_of_ne _ hne, Function.update_of_ne hne] using h.pending id

/-- Where a missing slice is masked, the counter delivers a message that is not complete. -/
theorem Tracks.finish_masked (h : Tracks total d s) (htotal : (total p.id).toNat = p.total)
    (hfits : m.Fits (total p.id) (s.history p)) (hmask : s.Masked p) :
    (d.finishSlice p.id m).completedMessages ≠ (s.arrive p).completed.map emitted := by
  have hbound := hfits.bound
  have hcount := (counted_eq_total_iff hbound).mpr (htotal ▸ hmask.2)
  have hnot : ¬ Complete p.total (s.history p) := by
    rw [htotal] at hbound
    rw [complete_iff_missing hbound]
    exact hmask.1.ne'
  unfold finishSlice State.arrive
  rw [if_pos ((received_eq_total hfits).mpr hcount), if_neg hnot]
  simp [h.completed]

end Finish

end Decoder

end DarwinCore.Protocol
