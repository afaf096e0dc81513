import DarwinCore.Model.Protocol.Decoder
import DarwinCore.Verification.Protocol.Layout

/-! # Turns of the loop -/

/-! ## One turn of the decoder

A turn over a frame whose payload holds the sub-header of its type depends on that payload
alone: it is the delivery of the frame's `Body`. -/

namespace DarwinCore.Protocol

open ByteOrder

/-! ### The front of the buffer -/

theorem front_complete {e : Endian} {buffer : List UInt8} {hdr : FrameHeader}
    (h : front e buffer = .complete hdr) :
    hdr = FrameHeader.load e buffer ∧ hdr.payloadLen.toNat ≤ maxFramePayload ∧
      hdr.frameSize ≤ buffer.length := by
  unfold front at h
  simp only at h
  split at h
  · cases h
  · split at h
    · cases h
    · split at h
      · cases h
      · split at h
        · cases h
        · split at h
          · cases h
          · rename_i hmax hlen
            obtain rfl : FrameHeader.load e buffer = hdr := by simpa using h
            exact ⟨rfl, by omega, by rw [FrameHeader.frameSize]; omega⟩

theorem FrameHeader.frameHeaderSize_le (h : FrameHeader) : frameHeaderSize ≤ h.frameSize :=
  Nat.le_add_right _ _

/-- A decided front is not changed by bytes that arrive later. -/
theorem front_append {e : Endian} {buffer : List UInt8} (more : List UInt8)
    (h : front e buffer ≠ .incomplete) : front e (buffer ++ more) = front e buffer := by
  have hlen : frameHeaderSize ≤ buffer.length := by
    by_contra hlt
    exact h (by rw [front, if_pos (by omega)])
  have hload : FrameHeader.load e (buffer ++ more) = FrameHeader.load e buffer :=
    FrameHeader.load_append e more hlen
  unfold front at h ⊢
  simp only [hload, List.length_append]
  simp only at h
  rw [if_neg (by omega : ¬ buffer.length < frameHeaderSize)] at h ⊢
  rw [if_neg (by omega)]
  split <;> try rfl
  split <;> try rfl
  split <;> try rfl
  rename_i hmagic hversion hmax
  rw [if_neg hmagic, if_neg hversion, if_neg hmax] at h
  split at h
  · exact absurd rfl h
  · rename_i hsize
    rw [if_neg hsize, if_neg (by omega)]

/-! ### The body of a frame -/

namespace FrameHeader

/-- The payload, without its trailer, holds the sub-header of the frame's type. -/
def WellSized (h : FrameHeader) : Prop :=
  (FrameType.ofByte h.type).subHeaderSize ≤ h.dataLen

instance (h : FrameHeader) : Decidable h.WellSized :=
  inferInstanceAs (Decidable (_ ≤ _))

theorem dataLen_le (h : FrameHeader) : h.dataLen ≤ h.payloadLen.toNat := by
  unfold dataLen
  split <;> omega

end FrameHeader

inductive Body where
  | slice (header : MessageHeader) (data : List UInt8)
  | event (ev : StreamEvent)
  deriving DecidableEq, Repr

/-- The body of a frame of the given type, read from its payload without the trailer. -/
def Body.read (e : Endian) (type : FrameType) (data : List UInt8) : Body :=
  match type with
  | .message => .slice (MessageHeader.load e data) (data.drop messageHeaderSize)
  | .streamStart =>
      let ss := StreamStartPayload.load e data
      .event { type := .streamStart, streamId := ss.streamId, totalSize := ss.totalSize }
  | .streamChunk =>
      let sc := StreamChunkPayload.load e data
      .event { type := .streamChunk, streamId := sc.streamId, offset := sc.offset
               data := data.drop streamChunkSize }
  | .streamEnd =>
      let se := StreamEndPayload.load e data
      .event { type := .streamEnd, streamId := se.streamId, crc32 := se.crc32 }
  | .unknown value => .event { type := .unknown value }

def body (e : Endian) (h : FrameHeader) (payload : List UInt8) : Body :=
  .read e (FrameType.ofByte h.type) (payload.take h.dataLen)

theorem body_append (e : Endian) (h : FrameHeader) (payload more : List UInt8)
    (hlen : h.payloadLen.toNat ≤ payload.length) :
    body e h (payload ++ more) = body e h payload := by
  have htake : (payload ++ more).take h.dataLen = payload.take h.dataLen :=
    List.take_append_of_le_length (h.dataLen_le.trans hlen)
  rw [body, body, htake]

theorem crcMismatch_append (e : Endian) (h : FrameHeader) (payload more : List UInt8)
    (hlen : h.payloadLen.toNat ≤ payload.length) :
    h.crcMismatch e (payload ++ more) = h.crcMismatch e payload := by
  have htake : (payload ++ more).take h.dataLen = payload.take h.dataLen :=
    List.take_append_of_le_length (h.dataLen_le.trans hlen)
  unfold FrameHeader.crcMismatch
  cases htrailer : h.hasTrailer with
  | false => rfl
  | true =>
    have hdata : h.dataLen + 4 ≤ payload.length := by
      have hsize : crcSize ≤ h.payloadLen.toNat := by
        simp only [FrameHeader.hasTrailer, Bool.and_eq_true, decide_eq_true_eq] at htrailer
        exact htrailer.2
      rw [FrameHeader.dataLen, if_pos htrailer]
      rw [crcSize] at hsize ⊢
      omega
    rw [loadU32_inside e payload more hdata, htake]

/-! ### Delivery -/

namespace Decoder

def acceptSlice (now : ℕ) (d : Decoder) (mh : MessageHeader) (data : List UInt8) : Ending :=
  let m := d.assembly now mh
  let i := mh.sequence.toNat
  if m.slices.length ≤ i then .fault d
  else if m.slices.getD i [] = [] then
    .next (d.finishSlice mh.messageId
      { m with slices := m.slices.set i data, received := m.received + 1 })
  else .next (d.finishSlice mh.messageId m)

/-- What the loop does with the body of a frame. -/
def deliver (now : ℕ) (d : Decoder) : Body → Ending
  | .slice mh data =>
      if mh.sequence ≥ mh.totalSlices then .throws ⟨"bad slice index"⟩ d
      else d.acceptSlice now mh data
  | .event ev => .next (d.countEvent.pushEvent ev)

theorem onMessage_ending (e : Endian) (now : ℕ) (d : Decoder) {payload : List UInt8} {len : ℕ}
    (hlen : len ≤ payload.length) (hsize : messageHeaderSize ≤ len) :
    (d.onMessage e now payload len).ending =
      d.deliver now (.slice (MessageHeader.load e (payload.take len))
        ((payload.take len).drop messageHeaderSize)) := by
  have hload : MessageHeader.load e payload = MessageHeader.load e (payload.take len) := by
    conv_lhs => rw [← List.take_append_drop len payload]
    exact MessageHeader.load_append e _ (by simp; omega)
  have hdata : (payload.drop messageHeaderSize).take (len - messageHeaderSize) =
      (payload.take len).drop messageHeaderSize := List.take_drop.trans (by congr 2; omega)
  unfold onMessage deliver acceptSlice
  rw [if_neg (by omega), hload, hdata]
  simp only
  split
  · rfl
  · split
    · rfl
    · split
      · rw [if_neg (by omega)]
      · rfl

theorem onStream_ending (e : Endian) (d : Decoder) {h : FrameHeader} {payload : List UInt8}
    (hlen : h.dataLen ≤ payload.length) (hsize : h.WellSized)
    (htype : FrameType.ofByte h.type ≠ .message) (now : ℕ) :
    (d.onStream e (FrameType.ofByte h.type) payload h.dataLen).ending =
      d.deliver now (body e h payload) := by
  have hsplit : payload = payload.take h.dataLen ++ payload.drop h.dataLen :=
    (List.take_append_drop _ _).symm
  have htake : (payload.take h.dataLen).length = h.dataLen := by simp; omega
  unfold FrameHeader.WellSized at hsize
  unfold body Body.read onStream deliver
  rw [if_neg (by omega)]
  cases htag : FrameType.ofByte h.type with
  | message => exact absurd htag htype
  | streamStart =>
    simp only [htag, FrameType.subHeaderSize] at hsize
    have hload : StreamStartPayload.load e payload =
        StreamStartPayload.load e (payload.take h.dataLen) := by
      conv_lhs => rw [hsplit]
      exact StreamStartPayload.load_append e _ (by omega)
    simp only [hload]
  | streamChunk =>
    simp only [htag, FrameType.subHeaderSize] at hsize
    have hload : StreamChunkPayload.load e payload =
        StreamChunkPayload.load e (payload.take h.dataLen) := by
      conv_lhs => rw [hsplit]
      exact StreamChunkPayload.load_append e _ (by omega)
    have hdata : (payload.drop streamChunkSize).take (h.dataLen - streamChunkSize) =
        (payload.take h.dataLen).drop streamChunkSize :=
      List.take_drop.trans (by congr 2; omega)
    simp only [hload, hdata]
    rw [if_neg (by omega)]
  | streamEnd =>
    simp only [htag, FrameType.subHeaderSize] at hsize
    have hload : StreamEndPayload.load e payload =
        StreamEndPayload.load e (payload.take h.dataLen) := by
      conv_lhs => rw [hsplit]
      exact StreamEndPayload.load_append e _ (by omega)
    simp only [hload]
  | unknown value => rfl

/-- A turn over a well-sized frame skips it or delivers its body. -/
theorem turn_of_complete {e : Endian} {now : ℕ} {d : Decoder} {hdr : FrameHeader}
    (hfront : front e d.buffer = .complete hdr) (hsize : hdr.WellSized) :
    (d.turn e now).ending =
      if hdr.crcMismatch e (d.buffer.drop frameHeaderSize) then
        .next (d.countFrame.countCrcError.popFrame hdr)
      else
        (d.countFrame.deliver now (body e hdr (d.buffer.drop frameHeaderSize))).mapNext
          (popFrame · hdr) := by
  obtain ⟨_, _, hframe⟩ := front_complete hfront
  have hlen : hdr.dataLen ≤ (d.buffer.drop frameHeaderSize).length := by
    have hdata := hdr.dataLen_le
    rw [FrameHeader.frameSize] at hframe
    rw [List.length_drop]
    omega
  unfold turn
  rw [hfront]
  simp only [onFrame]
  split
  · rfl
  · unfold onBody
    simp only [Turn.mapNext]
    by_cases htype : FrameType.ofByte hdr.type = .message
    · have hmin : messageHeaderSize ≤ hdr.dataLen := by
        rwa [FrameHeader.WellSized, htype] at hsize
      rw [if_pos htype, onMessage_ending e now d.countFrame hlen hmin, body, htype, Body.read]
    · rw [if_neg htype, onStream_ending e d.countFrame hlen hsize htype now]

end Decoder

/-! ## The decoding loop

Inversion rules say once what a turn can do. Every turn that goes on removes one whole
frame, so the loop ends and its fuel is never used up. -/

/-! ### What delivery can do -/

/-- The ways in which the delivery of a body ends. -/
inductive Delivery (now : ℕ) (d : Decoder) : Body → Ending → Prop where
  | badSequence {mh data} (hseq : mh.totalSlices ≤ mh.sequence) :
      Delivery now d (.slice mh data) (.throws ⟨"bad slice index"⟩ d)
  | outside {mh data} (hseq : mh.sequence < mh.totalSlices)
      (hslot : (d.assembly now mh).slices.length ≤ mh.sequence.toNat) :
      Delivery now d (.slice mh data) (.fault d)
  | stored {mh data} (hseq : mh.sequence < mh.totalSlices)
      (hslot : mh.sequence.toNat < (d.assembly now mh).slices.length)
      (hempty : (d.assembly now mh).slices.getD mh.sequence.toNat [] = []) :
      Delivery now d (.slice mh data) (.next (d.finishSlice mh.messageId
        { d.assembly now mh with
          slices := (d.assembly now mh).slices.set mh.sequence.toNat data
          received := (d.assembly now mh).received + 1 }))
  | repeated {mh data} (hseq : mh.sequence < mh.totalSlices)
      (hslot : mh.sequence.toNat < (d.assembly now mh).slices.length)
      (hfull : (d.assembly now mh).slices.getD mh.sequence.toNat [] ≠ []) :
      Delivery now d (.slice mh data) (.next (d.finishSlice mh.messageId (d.assembly now mh)))
  | event {ev} : Delivery now d (.event ev) (.next (d.countEvent.pushEvent ev))

theorem deliver_delivery (now : ℕ) (d : Decoder) (b : Body) :
    Delivery now d b (d.deliver now b) := by
  cases b with
  | event ev => exact .event
  | slice mh data =>
    rw [Decoder.deliver]
    by_cases hseq : mh.sequence ≥ mh.totalSlices
    · rw [if_pos hseq]
      exact .badSequence hseq
    · rw [if_neg hseq, Decoder.acceptSlice]
      have hlt : mh.sequence < mh.totalSlices := UInt16.not_le.mp hseq
      by_cases hslot : (d.assembly now mh).slices.length ≤ mh.sequence.toNat
      · rw [if_pos hslot]
        exact .outside hlt hslot
      · rw [if_neg hslot]
        split
        · rename_i hempty
          exact .stored hlt (by omega) hempty
        · rename_i hfull
          exact .repeated hlt (by omega) hfull

/-! ### What a turn can do -/

/-- The ways in which a turn ends, whatever bytes are in the buffer. -/
inductive TurnDerivation (e : Endian) (now : ℕ) (d : Decoder) : Ending → Prop where
  | wait (hfront : front e d.buffer = .incomplete) : TurnDerivation e now d (.wait d)
  | reject {error} (hfront : front e d.buffer = .rejected error) :
      TurnDerivation e now d (.throws error d)
  | skip {hdr} (hfront : front e d.buffer = .complete hdr)
      (hcrc : hdr.crcMismatch e (d.buffer.drop frameHeaderSize) = true) :
      TurnDerivation e now d (.next (d.countFrame.countCrcError.popFrame hdr))
  | fault {hdr} (hfront : front e d.buffer = .complete hdr)
      (hcrc : hdr.crcMismatch e (d.buffer.drop frameHeaderSize) = false) :
      TurnDerivation e now d (.fault d.countFrame)
  | faultEvent {hdr} (hfront : front e d.buffer = .complete hdr)
      (hcrc : hdr.crcMismatch e (d.buffer.drop frameHeaderSize) = false) :
      TurnDerivation e now d (.fault d.countFrame.countEvent)
  | throws {hdr b error d'} (hfront : front e d.buffer = .complete hdr)
      (hcrc : hdr.crcMismatch e (d.buffer.drop frameHeaderSize) = false)
      (hb : Delivery now d.countFrame b (.throws error d')) :
      TurnDerivation e now d (.throws error d')
  | next {hdr b d'} (hfront : front e d.buffer = .complete hdr)
      (hcrc : hdr.crcMismatch e (d.buffer.drop frameHeaderSize) = false)
      (hb : Delivery now d.countFrame b (.next d')) :
      TurnDerivation e now d (.next (d'.popFrame hdr))

namespace Decoder

theorem onMessage_cases (e : Endian) (now : ℕ) (d : Decoder) (payload : List UInt8) (len : ℕ) :
    (d.onMessage e now payload len).ending = .fault d ∨
      ∃ mh data, (d.onMessage e now payload len).ending = d.deliver now (.slice mh data) := by
  unfold onMessage
  split
  · exact .inl rfl
  · simp only
    let mh := MessageHeader.load e payload
    let data := (payload.drop messageHeaderSize).take (len - messageHeaderSize)
    by_cases hseq : mh.sequence ≥ mh.totalSlices
    · refine .inr ⟨mh, data, ?_⟩
      rw [if_pos hseq, deliver, if_pos hseq]
    · rw [if_neg hseq]
      split
      · exact .inl rfl
      · rename_i hslot
        split
        · rename_i hempty
          split
          · exact .inl rfl
          · refine .inr ⟨mh, data, ?_⟩
            rw [deliver, if_neg hseq, acceptSlice]
            simp only
            rw [if_neg hslot, if_pos hempty]
        · rename_i hfull
          refine .inr ⟨mh, data, ?_⟩
          rw [deliver, if_neg hseq, acceptSlice]
          simp only
          rw [if_neg hslot, if_neg hfull]

theorem onStream_cases (e : Endian) (now : ℕ) (d : Decoder) (type : FrameType)
    (payload : List UInt8) (len : ℕ) :
    (d.onStream e type payload len).ending = .fault d.countEvent ∨
      ∃ ev, (d.onStream e type payload len).ending = d.deliver now (.event ev) := by
  unfold onStream
  split
  · exact .inl rfl
  · cases type with
    | streamChunk =>
      simp only
      split
      · exact .inl rfl
      · exact .inr ⟨_, rfl⟩
    | _ => exact .inr ⟨_, rfl⟩

private theorem delivered_derivation {e : Endian} {now : ℕ} {d : Decoder} {hdr : FrameHeader}
    (hfront : front e d.buffer = .complete hdr)
    (hcrc : hdr.crcMismatch e (d.buffer.drop frameHeaderSize) = false) (b : Body) :
    TurnDerivation e now d ((d.countFrame.deliver now b).mapNext (popFrame · hdr)) := by
  have hb := deliver_delivery now d.countFrame b
  cases hend : d.countFrame.deliver now b with
  | wait d' => rw [hend] at hb; cases hb
  | next d' => exact .next hfront hcrc (hend ▸ hb)
  | throws error d' => exact .throws hfront hcrc (hend ▸ hb)
  | fault d' =>
    rw [hend] at hb
    cases hb with
    | outside => exact .fault hfront hcrc

theorem turn_derivation (e : Endian) (now : ℕ) (d : Decoder) :
    TurnDerivation e now d (d.turn e now).ending := by
  unfold turn
  cases hfront : front e d.buffer with
  | incomplete => exact .wait hfront
  | rejected error => exact .reject hfront
  | complete hdr =>
    simp only [onFrame]
    cases hcrc : hdr.crcMismatch e (d.buffer.drop frameHeaderSize) with
    | true => exact .skip hfront hcrc
    | false =>
      simp only [Bool.false_eq_true, ite_false, Turn.mapNext, onBody]
      split
      · rcases onMessage_cases e now d.countFrame (d.buffer.drop frameHeaderSize) hdr.dataLen
          with hend | ⟨mh, data, hend⟩
        · rw [hend]
          exact .fault hfront hcrc
        · rw [hend]
          exact delivered_derivation hfront hcrc _
      · rcases onStream_cases e now d.countFrame (FrameType.ofByte hdr.type)
          (d.buffer.drop frameHeaderSize) hdr.dataLen with hend | ⟨ev, hend⟩
        · rw [hend]
          exact .faultEvent hfront hcrc
        · rw [hend]
          exact delivered_derivation hfront hcrc _

/-! ### The buffer -/

@[simp] theorem countFrame_buffer (d : Decoder) : d.countFrame.buffer = d.buffer := rfl
@[simp] theorem countCrcError_buffer (d : Decoder) : d.countCrcError.buffer = d.buffer := rfl
@[simp] theorem countEvent_buffer (d : Decoder) : d.countEvent.buffer = d.buffer := rfl

@[simp] theorem pushEvent_buffer (d : Decoder) (ev : StreamEvent) :
    (d.pushEvent ev).buffer = d.buffer := rfl

@[simp] theorem popFrame_buffer (d : Decoder) (hdr : FrameHeader) :
    (d.popFrame hdr).buffer = d.buffer.drop hdr.frameSize := rfl

@[simp] theorem finishSlice_buffer (d : Decoder) (id : UInt64) (m : MessageAssembly) :
    (d.finishSlice id m).buffer = d.buffer := by
  unfold finishSlice
  split <;> rfl

end Decoder

theorem Delivery.next_buffer {now : ℕ} {d d' : Decoder} {b : Body}
    (h : Delivery now d b (.next d')) : d'.buffer = d.buffer := by
  cases h <;> simp

theorem Delivery.throws_eq {now : ℕ} {d d' : Decoder} {b : Body} {error : ProtocolError}
    (h : Delivery now d b (.throws error d')) : d' = d := by
  cases h
  rfl

namespace Decoder

/-- A turn after which the loop goes on removed the whole frame at the front. -/
theorem turn_next_buffer {e : Endian} {now : ℕ} {d d' : Decoder}
    (h : (d.turn e now).ending = .next d') :
    ∃ hdr, front e d.buffer = .complete hdr ∧ d'.buffer = d.buffer.drop hdr.frameSize := by
  have hd := turn_derivation e now d
  rw [h] at hd
  cases hd with
  | skip hfront => exact ⟨_, hfront, rfl⟩
  | next hfront _ hb => exact ⟨_, hfront, by simp [hb.next_buffer]⟩

theorem turn_stop_buffer {e : Endian} {now : ℕ} {d d' : Decoder}
    (h : (d.turn e now).ending = .wait d' ∨ ∃ error, (d.turn e now).ending = .throws error d') :
    d'.buffer = d.buffer := by
  have hd := turn_derivation e now d
  rcases h with h | ⟨error, h⟩
  · rw [h] at hd
    cases hd
    rfl
  · rw [h] at hd
    cases hd with
    | reject => rfl
    | throws _ _ hb => rw [hb.throws_eq, countFrame_buffer]

theorem turn_next_length {e : Endian} {now : ℕ} {d d' : Decoder}
    (h : (d.turn e now).ending = .next d') : d'.buffer.length < d.buffer.length := by
  obtain ⟨hdr, hfront, hbuffer⟩ := turn_next_buffer h
  obtain ⟨_, _, hsize⟩ := front_complete hfront
  have hmin := hdr.frameHeaderSize_le
  rw [hbuffer, List.length_drop]
  rw [frameHeaderSize] at hmin
  omega

/-! ### The loop -/

theorem decodeLoop_fuel (e : Endian) {fuel fuel' : ℕ} (clock : ℕ → ℕ) (d : Decoder)
    (h : d.buffer.length < fuel) (h' : d.buffer.length < fuel') :
    decodeLoop e fuel clock d = decodeLoop e fuel' clock d := by
  induction fuel generalizing fuel' clock d with
  | zero => omega
  | succ fuel ih =>
    cases fuel' with
    | zero => omega
    | succ fuel' =>
      rw [decodeLoop, decodeLoop]
      cases hend : (d.turn e (clock 0)).ending with
      | next d' =>
        have hlen := turn_next_length hend
        exact ih _ d' (by omega) (by omega)
      | _ => rfl

/-- `TryDecode` is its loop, unrolled once. -/
theorem tryDecode_eq (e : Endian) (clock : ℕ → ℕ) (d : Decoder) :
    d.tryDecode e clock =
      match (d.turn e (clock 0)).ending with
      | .wait d => .normal d
      | .next d => d.tryDecode e fun i => clock (i + 1)
      | .throws error d => .error error d
      | .fault d => .fault d := by
  rw [tryDecode, decodeLoop]
  cases hend : (d.turn e (clock 0)).ending with
  | next d' =>
    have hlen := turn_next_length hend
    exact decodeLoop_fuel e _ d' hlen (Nat.lt_succ_self _)
  | _ => rfl

theorem turn_induction {e : Endian} {motive : Decoder → Prop}
    (step : ∀ d, (∀ now d', (d.turn e now).ending = .next d' → motive d') → motive d)
    (d : Decoder) : motive d := by
  induction hlen : d.buffer.length using Nat.strong_induction_on generalizing d with
  | h n ih =>
    apply step
    intro now d' h
    exact ih d'.buffer.length (hlen ▸ turn_next_length h) d' rfl

end Decoder

end DarwinCore.Protocol
