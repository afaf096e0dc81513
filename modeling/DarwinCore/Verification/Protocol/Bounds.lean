import DarwinCore.Verification.Protocol.Turn

/-! # Bounds -/

/-! ## Reads outside the payload

Nothing compares the length of a payload with the size of the sub-header that is read from
it, so only the CRC check can keep a short frame from being interpreted. -/

namespace DarwinCore.Protocol

open ByteOrder

/-! ### Sessions and calls of `Feed` -/

/-! ### The payload accesses of a turn -/

namespace Decoder

/-- The sub-header, the slot and the data after the sub-header. -/
theorem onMessage_accesses (e : Endian) (now : ℕ) (d : Decoder) (payload : List UInt8) (len : ℕ) :
    .payload 0 messageHeaderSize len ∈ (d.onMessage e now payload len).accesses ∧
      (d.onMessage e now payload len).accesses ⊆
        [.payload 0 messageHeaderSize len,
          .slot (MessageHeader.load e payload).sequence.toNat
            (d.assembly now (MessageHeader.load e payload)).slices.length,
          .payload messageHeaderSize len len] := by
  unfold onMessage
  simp only
  split
  · simp
  · split
    · simp
    · split
      · simp
      · split
        · split <;> simp
        · simp

theorem onStream_accesses (e : Endian) (d : Decoder) {type : FrameType}
    (htype : type ≠ .message) (payload : List UInt8) (len : ℕ) :
    (0 < type.subHeaderSize →
        .payload 0 type.subHeaderSize len ∈ (d.onStream e type payload len).accesses) ∧
      (d.onStream e type payload len).accesses ⊆
        [.payload 0 type.subHeaderSize len, .payload type.subHeaderSize len len] := by
  unfold onStream
  simp only
  split
  · simp
  · cases type with
    | message => exact absurd rfl htype
    | streamChunk =>
      simp only
      split <;> simp [FrameType.subHeaderSize]
    | _ => simp [FrameType.subHeaderSize]

/-- The payload accesses of a turn over a frame whose trailer does not tell against it. -/
theorem turn_accesses {e : Endian} (now : ℕ) {d : Decoder} {hdr : FrameHeader}
    (hfront : front e d.buffer = .complete hdr)
    (hcrc : hdr.crcMismatch e (d.buffer.drop frameHeaderSize) = false) :
    (0 < (FrameType.ofByte hdr.type).subHeaderSize →
        .payload 0 (FrameType.ofByte hdr.type).subHeaderSize hdr.dataLen ∈
          (d.turn e now).accesses) ∧
      ∀ lo hi limit, .payload lo hi limit ∈ (d.turn e now).accesses →
        (lo = 0 ∧ hi = (FrameType.ofByte hdr.type).subHeaderSize ∧ limit = hdr.dataLen) ∨
          (lo = (FrameType.ofByte hdr.type).subHeaderSize ∧ hi = hdr.dataLen ∧
            limit = hdr.dataLen) := by
  have hturn : (d.turn e now).accesses =
      (d.countFrame.onBody e now hdr (d.buffer.drop frameHeaderSize)).accesses := by
    simp only [turn, hfront, onFrame, hcrc, Bool.false_eq_true, ite_false, Turn.mapNext]
  rw [hturn, onBody]
  by_cases htype : FrameType.ofByte hdr.type = .message
  · rw [if_pos htype, htype]
    obtain ⟨hmem, hsub⟩ := onMessage_accesses e now d.countFrame
      (d.buffer.drop frameHeaderSize) hdr.dataLen
    refine ⟨fun _ => hmem, fun lo hi limit h => ?_⟩
    have hread := hsub h
    simp only [List.mem_cons, Access.payload.injEq, reduceCtorEq, List.not_mem_nil, false_or,
      or_false] at hread
    exact hread
  · rw [if_neg htype]
    obtain ⟨hmem, hsub⟩ := onStream_accesses e d.countFrame htype
      (d.buffer.drop frameHeaderSize) hdr.dataLen
    refine ⟨hmem, fun lo hi limit h => ?_⟩
    simpa using hsub h

/-! ### Short frames -/

/-- The turn reads nothing outside the payload, and rejects or skips a frame whose payload
is shorter than its sub-header. -/
structure TurnInside (e : Endian) (now : ℕ) (d : Decoder) : Prop where
  reads : ∀ lo hi limit, .payload lo hi limit ∈ (d.turn e now).accesses → lo ≤ hi ∧ hi ≤ limit
  refuses : ∀ hdr, front e d.buffer = .complete hdr → ¬ hdr.WellSized →
    (∃ error d', (d.turn e now).ending = .throws error d') ∨
      (d.turn e now).ending = .next (d.countFrame.countCrcError.popFrame hdr)

/-- The front frame, if it is too short for its sub-header, has a trailer that does not fit. -/
def ShortFrameSpoiled (e : Endian) (d : Decoder) : Prop :=
  ∀ hdr, front e d.buffer = .complete hdr → ¬ hdr.WellSized →
    hdr.crcMismatch e (d.buffer.drop frameHeaderSize) = true

theorem turn_accesses_of_stop {e : Endian} {now : ℕ} {d : Decoder}
    (hfront : ∀ hdr, front e d.buffer ≠ .complete hdr) : (d.turn e now).accesses = [] := by
  unfold turn
  cases hcase : front e d.buffer with
  | complete hdr => exact absurd hcase (hfront hdr)
  | _ => rfl

theorem turn_of_mismatch {e : Endian} (now : ℕ) {d : Decoder} {hdr : FrameHeader}
    (hfront : front e d.buffer = .complete hdr)
    (hcrc : hdr.crcMismatch e (d.buffer.drop frameHeaderSize) = true) :
    d.turn e now = ⟨[], .next (d.countFrame.countCrcError.popFrame hdr)⟩ := by
  simp only [turn, hfront, onFrame, hcrc, ite_true]

theorem turnInside_iff (e : Endian) (now : ℕ) (d : Decoder) :
    d.TurnInside e now ↔ d.ShortFrameSpoiled e := by
  constructor
  · intro h hdr hfront hshort
    by_contra hcrc
    rw [Bool.not_eq_true] at hcrc
    unfold FrameHeader.WellSized at hshort
    have hread := (turn_accesses now hfront hcrc).1 (by omega)
    exact hshort (h.reads _ _ _ hread).2
  · intro h
    by_cases hfront : ∃ hdr, front e d.buffer = .complete hdr
    · obtain ⟨hdr, hfront⟩ := hfront
      cases hcrc : hdr.crcMismatch e (d.buffer.drop frameHeaderSize) with
      | true =>
        have hturn := turn_of_mismatch now hfront hcrc
        refine ⟨fun lo hi limit hmem => ?_, fun hdr' hfront' _ => .inr ?_⟩
        · rw [hturn] at hmem
          simp at hmem
        · obtain rfl : hdr = hdr' := by simpa [hfront] using hfront'
          rw [hturn]
      | false =>
        have hsize : hdr.WellSized := by
          by_contra hshort
          rw [h hdr hfront hshort] at hcrc
          cases hcrc
        refine ⟨fun lo hi limit hmem => ?_, fun hdr' hfront' hshort => ?_⟩
        · unfold FrameHeader.WellSized at hsize
          have hread := (turn_accesses now hfront hcrc).2 lo hi limit hmem
          omega
        · obtain rfl : hdr = hdr' := by simpa [hfront] using hfront'
          exact absurd hsize hshort
    · have hnone : ∀ hdr, front e d.buffer ≠ .complete hdr := fun hdr hc => hfront ⟨hdr, hc⟩
      refine ⟨fun lo hi limit hmem => ?_, fun hdr hc => absurd hc (hnone hdr)⟩
      rw [turn_accesses_of_stop hnone] at hmem
      simp at hmem

end Decoder

/-- In every session the loop stays inside the payloads exactly when each complete frame
that is too short for its sub-header has a trailer that does not fit. -/
theorem session_turnInside_iff {e : Endian} {ms : UInt32} {states : List Session}
    (_hrun : (sessions e ms).Run states) :
    (∀ s ∈ states, ∀ d, s.phase = .decoding d → ∀ now, d.TurnInside e now) ↔
      ∀ s ∈ states, ∀ d, s.phase = .decoding d → d.ShortFrameSpoiled e := by
  refine forall₂_congr fun s _ => forall₂_congr fun d _ => ?_
  exact ⟨fun h => (Decoder.turnInside_iff e 0 d).mp (h 0),
    fun h now => (Decoder.turnInside_iff e now d).mpr h⟩

/-- A frame too short for its sub-header, which the trailer gives away. -/
theorem session_turnInside_spoiled : ∃ states, (sessions .little 0).Run states ∧
    ∀ s ∈ states, ∀ d, s.phase = .decoding d → ∀ now, d.TurnInside .little now := by
  let bytes : List UInt8 := [0x5A, 0x5C, 1, 1, 1, 0, 4, 0, 0, 0, 0, 0, 0, 0, 0, 0, 1, 2, 3, 4]
  have hrun : (sessions .little 0).Run
      [⟨bytes, .decoding ((Decoder.fresh 0).receive bytes)⟩, ⟨[], .idle (Decoder.fresh 0)⟩] :=
    .next (.start rfl) (.feed bytes)
  refine ⟨_, hrun, (session_turnInside_iff hrun).mpr ?_⟩
  rintro s (_ | ⟨_, _ | ⟨_, ⟨⟩⟩⟩) d hd
  · obtain rfl : (Decoder.fresh 0).receive bytes = d := by simpa using hd
    intro hdr hfront _
    obtain ⟨rfl, -, -⟩ := front_complete hfront
    decide +kernel
  · cases hd

/-- A message frame without payload: the bytes behind it are taken for its header, and the
data range ends before it begins. -/
theorem short_frame_read : ∃ states, (sessions .little 0).Run states ∧
    ¬ ∀ s ∈ states, ∀ d, s.phase = .decoding d → ∀ now, d.TurnInside .little now := by
  let bytes : List UInt8 := [0x5A, 0x5C, 1, 1, 0, 0, 0, 0, 0, 0, 0, 0, 0, 0, 0, 0,
    7, 0, 0, 0, 0, 0, 0, 0, 1, 0, 0, 0]
  refine ⟨[⟨bytes, .decoding ((Decoder.fresh 0).receive bytes)⟩, ⟨[], .idle (Decoder.fresh 0)⟩],
    .next (.start rfl) (.feed bytes), fun h => ?_⟩
  have hinside := h _ List.mem_cons_self _ rfl 0
  have hread : Access.payload messageHeaderSize 0 0 ∈
      (((Decoder.fresh 0).receive bytes).turn .little 0).accesses := by decide +kernel
  exact absurd (hinside.reads _ _ _ hread).1 (by decide)

/-! ## Slots of an assembly

Every pending assembly has as many slots as its total and misses at least one slice. The
slot index of a frame is checked against the frame's own total, so it fits the assembly
exactly when the total that opened the assembly allows it. -/

/-! ### The assembly invariant -/

/-- There is a slot for each slice, and a slice is missing. -/
structure MessageAssembly.Sound (m : MessageAssembly) : Prop where
  slots : m.slices.length = m.total.toNat
  nonempty : 0 < m.total
  unfinished : m.received < m.total

namespace Decoder

def AssembliesSound (d : Decoder) : Prop :=
  ∀ id m, d.messages.lookup id = some m → m.Sound

theorem AssembliesSound.congr {d d' : Decoder} (h : d.AssembliesSound)
    (hm : d'.messages = d.messages) : d'.AssembliesSound := by
  unfold AssembliesSound
  rw [hm]
  exact h

theorem AssembliesSound.countFrame {d : Decoder} (h : d.AssembliesSound) :
    d.countFrame.AssembliesSound :=
  h

theorem fresh_sound (ms : UInt32) : (fresh ms).AssembliesSound := by
  intro id m hm
  simp [fresh] at hm

theorem AssembliesSound.assembly {d : Decoder} (h : d.AssembliesSound) (now : ℕ)
    {mh : MessageHeader} (hseq : mh.sequence < mh.totalSlices) : (d.assembly now mh).Sound := by
  have hpos : 0 < mh.totalSlices := UInt16.lt_of_le_of_lt (UInt16.zero_le) hseq
  unfold Decoder.assembly
  cases hm : d.messages.lookup mh.messageId with
  | none => exact ⟨by simp, hpos, hpos⟩
  | some m =>
    have hsound := h _ m hm
    have hslices : m.slices ≠ [] := by
      rw [← List.length_pos_iff, hsound.slots]
      exact UInt16.lt_iff_toNat_lt.mp hsound.nonempty
    simpa only [Option.getD_some, if_neg hslices] using hsound

theorem AssembliesSound.finishSlice {d : Decoder} (h : d.AssembliesSound) (id : UInt64)
    {m : MessageAssembly} (hslots : m.slices.length = m.total.toNat) (hpos : 0 < m.total)
    (hle : m.received ≤ m.total) : (d.finishSlice id m).AssembliesSound := by
  unfold Decoder.finishSlice
  split
  · intro i m' hm'
    by_cases hi : i = id
    · subst hi
      simp at hm'
    · rw [Finmap.lookup_erase_ne hi] at hm'
      exact h i m' hm'
  · rename_i hne
    intro i m' hm'
    by_cases hi : i = id
    · subst hi
      obtain rfl : m = m' := by simpa using hm'
      exact ⟨hslots, hpos, UInt16.lt_of_le_of_ne hle hne⟩
    · rw [Finmap.lookup_insert_of_ne _ hi] at hm'
      exact h i m' hm'

end Decoder

theorem Delivery.sound {now : ℕ} {d d' : Decoder} {b : Body} (h : Delivery now d b (.next d'))
    (hd : d.AssembliesSound) : d'.AssembliesSound := by
  cases h with
  | event => exact hd.congr rfl
  | repeated hseq hslot hfull =>
    have hm := hd.assembly now hseq
    exact hd.finishSlice _ hm.slots hm.nonempty (UInt16.le_of_lt hm.unfinished)
  | @stored mh data hseq hslot hempty =>
    have hm := hd.assembly now hseq
    refine hd.finishSlice _ (by simpa using hm.slots) hm.nonempty ?_
    have hlt := UInt16.lt_iff_toNat_lt.mp hm.unfinished
    have hbound : (d.assembly now mh).total.toNat < 2 ^ 16 := UInt16.toNat_lt _
    rw [UInt16.le_iff_toNat_le, UInt16.toNat_add]
    simp only [UInt16.toNat_one]
    omega

/-- The assembly invariant, unless undefined behaviour has ended the session. -/
def Session.Sound (s : Session) : Prop :=
  match s.phase with
  | .idle d => d.AssembliesSound
  | .decoding d => d.AssembliesSound
  | .crashed _ => True

theorem Decoder.AssembliesSound.turn {e : Endian} {now : ℕ} {d : Decoder}
    (h : d.AssembliesSound) (fed : List UInt8) :
    Session.Sound ⟨fed, (d.turn e now).ending.phase⟩ := by
  have hd := Decoder.turn_derivation e now d
  generalize (d.turn e now).ending = ending at hd
  cases hd with
  | wait => exact h
  | reject => exact h
  | skip => exact h.congr rfl
  | fault => trivial
  | faultEvent => trivial
  | throws _ _ hb =>
    have heq := hb.throws_eq
    exact h.congr (by rw [heq]; rfl)
  | next _ _ hb =>
    have hdone := hb.sound h.countFrame
    exact hdone.congr rfl

/-- Whatever is fed, and whatever errors came before, the assemblies are sound. -/
theorem session_sound {e : Endian} {ms : UInt32} {states : List Session}
    (hrun : (sessions e ms).Run states) : ∀ s ∈ states, s.Sound := by
  refine hrun.invariant ?_ ?_
  · rintro s rfl
    exact Decoder.fresh_sound ms
  · intro s t hs hstep
    cases hstep with
    | feed data => exact Decoder.AssembliesSound.congr hs rfl
    | turn now => exact Decoder.AssembliesSound.turn hs _

/-! ### Slot indices -/

namespace Decoder

/-- A turn over a message frame that is long enough indexes only slots that exist. -/
def SlotsInside (e : Endian) (now : ℕ) (d : Decoder) : Prop :=
  ∀ hdr, front e d.buffer = .complete hdr → FrameType.ofByte hdr.type = .message →
    hdr.WellSized → ∀ i n, .slot i n ∈ (d.turn e now).accesses → i < n

/-- If the message of the front frame is under way, the total with which it was opened allows
the frame's sequence number. -/
def TotalAllows (e : Endian) (d : Decoder) : Prop :=
  ∀ hdr, front e d.buffer = .complete hdr → FrameType.ofByte hdr.type = .message →
    hdr.WellSized → hdr.crcMismatch e (d.buffer.drop frameHeaderSize) = false →
    let mh := MessageHeader.load e (d.buffer.drop frameHeaderSize)
    mh.sequence < mh.totalSlices →
    ∀ m, d.messages.lookup mh.messageId = some m → mh.sequence < m.total

theorem slot_mem_onMessage (e : Endian) (now : ℕ) (d : Decoder) {payload : List UInt8} (len : ℕ)
    (hlen : messageHeaderSize ≤ payload.length)
    (hseq : (MessageHeader.load e payload).sequence < (MessageHeader.load e payload).totalSlices) :
    .slot (MessageHeader.load e payload).sequence.toNat
        (d.assembly now (MessageHeader.load e payload)).slices.length ∈
      (d.onMessage e now payload len).accesses := by
  unfold onMessage
  rw [if_neg (by omega)]
  simp only
  rw [if_neg (UInt16.not_le.mpr hseq)]
  split
  · simp
  · split
    · split <;> simp
    · simp

theorem slot_of_mem_onMessage {e : Endian} {now : ℕ} {d : Decoder} {payload : List UInt8}
    {len i n : ℕ} (h : .slot i n ∈ (d.onMessage e now payload len).accesses) :
    (MessageHeader.load e payload).sequence < (MessageHeader.load e payload).totalSlices ∧
      i = (MessageHeader.load e payload).sequence.toNat ∧
      n = (d.assembly now (MessageHeader.load e payload)).slices.length := by
  have hsub := (onMessage_accesses e now d payload len).2 h
  simp only [List.mem_cons, reduceCtorEq, Access.slot.injEq, List.not_mem_nil, false_or,
    or_false] at hsub
  refine ⟨?_, hsub⟩
  by_contra hseq
  unfold onMessage at h
  simp only [if_pos (UInt16.not_lt.mp hseq)] at h
  split at h <;> simp at h

theorem AssembliesSound.assembly_length {d : Decoder} (h : d.AssembliesSound) (now : ℕ)
    (mh : MessageHeader) :
    (d.assembly now mh).slices.length =
      (((d.messages.lookup mh.messageId).map MessageAssembly.total).getD mh.totalSlices).toNat := by
  unfold Decoder.assembly
  cases hm : d.messages.lookup mh.messageId with
  | none => simp
  | some m =>
    have hsound := h _ m hm
    have hslices : m.slices ≠ [] := by
      rw [← List.length_pos_iff, hsound.slots]
      exact UInt16.lt_iff_toNat_lt.mp hsound.nonempty
    simp only [Option.getD_some, if_neg hslices, Option.map_some, hsound.slots]

theorem AssembliesSound.slotsInside_iff {e : Endian} {now : ℕ} {d : Decoder}
    (h : d.AssembliesSound) : d.SlotsInside e now ↔ d.TotalAllows e := by
  refine forall_congr' fun hdr => forall_congr' fun hfront => forall_congr' fun htype =>
    forall_congr' fun hsize => ?_
  cases hcrc : hdr.crcMismatch e (d.buffer.drop frameHeaderSize) with
  | true =>
    refine iff_of_true (fun i n hmem => ?_) (fun hfalse => by cases hfalse)
    rw [turn_of_mismatch now hfront hcrc] at hmem
    simp at hmem
  | false =>
    have hturn : (d.turn e now).accesses =
        (d.countFrame.onMessage e now (d.buffer.drop frameHeaderSize) hdr.dataLen).accesses := by
      rw [Decoder.turn, hfront]
      simp only [onFrame, hcrc, Bool.false_eq_true, ite_false, Turn.mapNext, onBody, htype,
        ite_true]
    have hlen : messageHeaderSize ≤ (d.buffer.drop frameHeaderSize).length := by
      obtain ⟨-, -, hframe⟩ := front_complete hfront
      have hdata := hdr.dataLen_le
      rw [FrameHeader.WellSized, htype] at hsize
      rw [FrameHeader.frameSize] at hframe
      rw [List.length_drop]
      exact hsize.trans (hdata.trans (by omega))
    have hassembly :=
      h.countFrame.assembly_length now (MessageHeader.load e (d.buffer.drop frameHeaderSize))
    rw [hturn]
    constructor
    · intro hslots _ mh hseq m hm
      have hlt := hslots _ _ (slot_mem_onMessage e now d.countFrame hdr.dataLen hlen hseq)
      rw [hassembly, show d.countFrame.messages.lookup mh.messageId = some m from hm] at hlt
      exact UInt16.lt_iff_toNat_lt.mpr hlt
    · intro hallows i n hmem
      obtain ⟨hseq, rfl, rfl⟩ := slot_of_mem_onMessage hmem
      rw [hassembly]
      cases hm : d.countFrame.messages.lookup
          (MessageHeader.load e (d.buffer.drop frameHeaderSize)).messageId with
      | none => exact UInt16.lt_iff_toNat_lt.mp hseq
      | some m => exact UInt16.lt_iff_toNat_lt.mp (hallows rfl hseq m hm)

end Decoder

/-- In every session the assemblies are sound, and the slots that are indexed exist exactly
when the totals that opened the assemblies allow the sequence numbers. -/
theorem session_slots_iff {e : Endian} {ms : UInt32} {states : List Session}
    (hrun : (sessions e ms).Run states) :
    (∀ s ∈ states, s.Sound ∧ ∀ d, s.phase = .decoding d → ∀ now, d.SlotsInside e now) ↔
      ∀ s ∈ states, ∀ d, s.phase = .decoding d → d.TotalAllows e := by
  have hsound := session_sound hrun
  refine forall₂_congr fun s hs => ?_
  have hd : ∀ d, s.phase = .decoding d → d.AssembliesSound := by
    intro d hphase
    have hs := hsound s hs
    rwa [Session.Sound, hphase] at hs
  constructor
  · intro h d hphase
    exact (hd d hphase).slotsInside_iff.mp (h.2 d hphase 0)
  · intro h
    exact ⟨hsound s hs, fun d hphase now => (hd d hphase).slotsInside_iff.mpr (h d hphase)⟩

/-- A session up to the first slice of a message. -/
theorem session_slots_first : ∃ states, (sessions .little 0).Run states ∧
    ∀ s ∈ states, s.Sound ∧ ∀ d, s.phase = .decoding d → ∀ now, d.SlotsInside .little now := by
  let bytes := (sliceFrame 2 0 [0x41]).serialize .little
  have hrun : (sessions .little 0).Run
      [⟨bytes, .decoding ((Decoder.fresh 0).receive bytes)⟩, ⟨[], .idle (Decoder.fresh 0)⟩] :=
    .next (.start rfl) (.feed bytes)
  refine ⟨_, hrun, (session_slots_iff hrun).mpr ?_⟩
  rintro s (_ | ⟨_, _ | ⟨_, ⟨⟩⟩⟩) d hd
  · obtain rfl : (Decoder.fresh 0).receive bytes = d := by simpa using hd
    intro hdr _ _ _ _ mh _ m hm
    simp [Decoder.receive, Decoder.fresh] at hm
  · cases hd

/-- Message 1 is opened with a total of two slices, then slice 4 of five of it arrives: the
slot with index 4 of an array of two is written. -/
theorem second_total_overruns : ∃ states, (sessions .little 0).Run states ∧
    ¬ ∀ s ∈ states, s.Sound ∧ ∀ d, s.phase = .decoding d → ∀ now, d.SlotsInside .little now := by
  let bytes := (sliceFrame 2 0 [0x41]).serialize .little ++
    (sliceFrame 5 4 [0x42]).serialize .little
  let start := (Decoder.fresh 0).receive bytes
  have hrun : (sessions .little 0).Run [⟨bytes, (start.turn .little 0).ending.phase⟩,
      ⟨bytes, .decoding start⟩, ⟨[], .idle (Decoder.fresh 0)⟩] :=
    .next (.next (.start rfl) (.feed bytes)) (.turn 0)
  refine ⟨_, hrun, fun h => ?_⟩
  have hslots := (h _ List.mem_cons_self).2
  have hoverrun : (match (start.turn .little 0).ending.phase with
      | .decoding d =>
          match front .little d.buffer with
          | .complete hdr => decide (FrameType.ofByte hdr.type = .message ∧ hdr.WellSized ∧
              .slot 4 2 ∈ (d.turn .little 0).accesses)
          | _ => false
      | _ => false) = true := by decide +kernel
  split at hoverrun
  · rename_i d hphase
    split at hoverrun
    · rename_i hdr hfront
      obtain ⟨htype, hsize, hmem⟩ := of_decide_eq_true hoverrun
      exact absurd (hslots d hphase 0 hdr hfront htype hsize 4 2 hmem) (by decide)
    · cases hoverrun
  · cases hoverrun

end DarwinCore.Protocol
