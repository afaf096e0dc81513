import DarwinCore.Library.Lists
import DarwinCore.Verification.Protocol.Frames

/-! # Encoding and `Deserialize` -/

/-! ## The two parsers of a frame

`Frame::Deserialize` copies the header into `out` before it checks it, and knows no longest
payload. -/

namespace DarwinCore.Protocol

open ByteOrder

variable {e : Endian} {data : List UInt8} {out : Frame}

/-! ### What the parsers look at -/

namespace FrameHeader

/-- The magic numbers and the version are right. -/
def Recognised (h : FrameHeader) : Prop :=
  h.magic1 = Protocol.magic1 ∧ h.magic2 = Protocol.magic2 ∧ h.version = Protocol.version

/-- Both parsers know the header, and all of its payload is there. -/
def Whole (e : Endian) (data : List UInt8) : Prop :=
  (FrameHeader.load e data).Recognised ∧ (FrameHeader.load e data).frameSize ≤ data.length

theorem Whole.size (h : Whole e data) : frameHeaderSize ≤ data.length :=
  (FrameHeader.load e data).frameHeaderSize_le.trans h.2

end FrameHeader

def Frame.atFront (e : Endian) (data : List UInt8) : Frame where
  header := FrameHeader.load e data
  payload := (data.take (FrameHeader.load e data).frameSize).drop frameHeaderSize

theorem front_complete_iff {hdr : FrameHeader} : front e data = .complete hdr ↔
    hdr = FrameHeader.load e data ∧ FrameHeader.Whole e data ∧
      hdr.payloadLen.toNat ≤ maxFramePayload := by
  constructor
  · intro h
    obtain ⟨rfl, hmax, hsize⟩ := front_complete h
    refine ⟨rfl, ⟨?_, hsize⟩, hmax⟩
    unfold front at h
    simp only at h
    split_ifs at h with hshort hmagic hversion
    rw [not_or, not_not, not_not] at hmagic
    exact ⟨hmagic.1, hmagic.2, not_not.mp hversion⟩
  · rintro ⟨rfl, hwhole, hmax⟩
    obtain ⟨⟨hmagic1, hmagic2, hversion⟩, hsize⟩ := hwhole
    rw [FrameHeader.frameSize] at hsize
    unfold front
    simp [hmagic1, hmagic2, hversion, Nat.not_lt_of_le hsize, Nat.not_lt_of_le hmax,
      Nat.not_lt_of_le ((Nat.le_add_right _ _).trans hsize)]

theorem Frame.deserialize_short (h : data.length < frameHeaderSize) :
    Frame.deserialize e data out = (false, out) := by
  rw [deserialize, if_pos h]

theorem Frame.deserialize_whole (h : FrameHeader.Whole e data) :
    Frame.deserialize e data out = (true, Frame.atFront e data) := by
  obtain ⟨⟨hmagic1, hmagic2, hversion⟩, hsize⟩ := h
  rw [FrameHeader.frameSize] at hsize
  rw [deserialize, if_neg (by omega)]
  simp only [hmagic1, hmagic2, hversion, ne_eq, not_true_eq_false, or_self, if_false]
  rw [if_neg (by omega)]
  split_ifs with hpayload
  · rfl
  · have hzero : (FrameHeader.load e data).payloadLen.toNat = 0 := by omega
    rw [Frame.atFront, FrameHeader.frameSize, hzero, Nat.add_zero,
      List.drop_of_length_le (List.length_take_le ..)]

/-- A header that is refused stands in `out` all the same. -/
theorem Frame.deserialize_refused (hlong : frameHeaderSize ≤ data.length)
    (h : ¬FrameHeader.Whole e data) :
    Frame.deserialize e data out = (false, { out with header := FrameHeader.load e data }) := by
  rw [deserialize, if_neg (by omega)]
  simp only
  split_ifs with hmagic hversion hsize
  · rfl
  · rfl
  · rfl
  all_goals
    rw [not_or, not_not, not_not] at hmagic
    exact absurd ⟨⟨hmagic.1, hmagic.2, not_not.mp hversion⟩, Nat.le_of_not_lt hsize⟩ h

theorem Frame.serialize_atFront (h : FrameHeader.Whole e data) :
    (Frame.atFront e data).serialize e = data.take (FrameHeader.load e data).frameSize := by
  have hle := (FrameHeader.load e data).frameHeaderSize_le
  have hheader : data.take frameHeaderSize =
      (data.take (FrameHeader.load e data).frameSize).take frameHeaderSize := by
    rw [List.take_take, Nat.min_eq_left hle]
  rw [serialize, Frame.atFront, FrameHeader.bytes_load e h.size, hheader, List.take_append_drop]

/-! ### Agreement -/

/-- `Deserialize` accepts what the decoder accepts, and takes the same frame from it; otherwise it
leaves `out` alone. -/
structure Frame.AgreesWithDecoder (e : Endian) (data : List UInt8) (out : Frame) : Prop where
  accepts : (Frame.deserialize e data out).1 = true ↔ ∃ hdr, front e data = .complete hdr
  header : ∀ hdr, front e data = .complete hdr → (Frame.deserialize e data out).2.header = hdr
  payload : ∀ hdr, front e data = .complete hdr →
    (Frame.deserialize e data out).2.payload =
      (data.drop frameHeaderSize).take hdr.payloadLen.toNat
  consumed : ∀ hdr, front e data = .complete hdr →
    (Frame.deserialize e data out).2.serialize e = data.take hdr.frameSize
  unchanged : (Frame.deserialize e data out).1 = false → (Frame.deserialize e data out).2 = out

/-- The data start with a whole frame whose payload is longer than the decoder allows. -/
def Frame.Oversized (e : Endian) (data : List UInt8) : Prop :=
  FrameHeader.Whole e data ∧ maxFramePayload < (FrameHeader.load e data).payloadLen.toNat

theorem Frame.not_agrees_of_oversized (h : Frame.Oversized e data) :
    ¬Frame.AgreesWithDecoder e data out := by
  intro hagrees
  have haccepts := hagrees.accepts.mp (by rw [Frame.deserialize_whole h.1])
  obtain ⟨hdr, hfront⟩ := haccepts
  obtain ⟨rfl, -, hmax⟩ := front_complete_iff.mp hfront
  exact Nat.not_lt_of_le hmax h.2

theorem Frame.agrees_of_complete {hdr : FrameHeader} (h : front e data = .complete hdr) :
    Frame.AgreesWithDecoder e data out := by
  obtain ⟨rfl, hwhole, -⟩ := front_complete_iff.mp h
  have hsame {hdr} (hfront : front e data = .complete hdr) : hdr = FrameHeader.load e data :=
    (front_complete_iff.mp hfront).1
  have hframe : Frame.deserialize e data out = _ := Frame.deserialize_whole hwhole
  refine ⟨?_, fun hdr hfront => ?_, fun hdr hfront => ?_, fun hdr hfront => ?_, ?_⟩
  · simp [hframe, h]
  · rw [hframe, hsame hfront]
    rfl
  · rw [hframe, hsame hfront, List.take_drop]
    rfl
  · rw [hframe, hsame hfront]
    exact Frame.serialize_atFront hwhole
  · simp [hframe]

/-- What is refused is as it was exactly if `out` holds the header already. -/
theorem Frame.agrees_of_refused (h : ¬FrameHeader.Whole e data) :
    Frame.AgreesWithDecoder e data out ↔
      data.length < frameHeaderSize ∨ FrameHeader.load e data = out.header := by
  have hnone (hdr) : front e data ≠ .complete hdr := fun hfront =>
    h (front_complete_iff.mp hfront).2.1
  constructor
  · intro hagrees
    by_contra hneither
    rw [not_or, Nat.not_lt] at hneither
    have hrefused : Frame.deserialize e data out = _ := Frame.deserialize_refused hneither.1 h
    have hsame := hagrees.unchanged (by rw [hrefused])
    rw [hrefused] at hsame
    exact hneither.2 (congrArg Frame.header hsame)
  · intro hsame
    have hout : Frame.deserialize e data out = (false, out) := by
      rcases Nat.lt_or_ge data.length frameHeaderSize with hshort | hlong
      · exact Frame.deserialize_short hshort
      · rw [Frame.deserialize_refused hlong h, hsame.resolve_left (Nat.not_lt_of_le hlong)]
    exact ⟨by simp [hout, hnone], fun hdr hfront => absurd hfront (hnone hdr),
      fun hdr hfront => absurd hfront (hnone hdr), fun hdr hfront => absurd hfront (hnone hdr),
      fun _ => by rw [hout]⟩

/-- The parsers agree exactly where the decoder accepts a frame, there is no header yet, or the
header is in `out` already and belongs to no oversized frame. -/
theorem Frame.agreesWithDecoder_iff (e : Endian) (data : List UInt8) (out : Frame) :
    Frame.AgreesWithDecoder e data out ↔
      (∃ hdr, front e data = .complete hdr) ∨ data.length < frameHeaderSize ∨
        FrameHeader.load e data = out.header ∧ ¬Frame.Oversized e data := by
  by_cases hwhole : FrameHeader.Whole e data
  · by_cases hover : Frame.Oversized e data
    · have hnone (hdr) : front e data ≠ .complete hdr := fun hfront => by
        obtain ⟨rfl, -, hmax⟩ := front_complete_iff.mp hfront
        exact Nat.not_lt_of_le hmax hover.2
      simp [Frame.not_agrees_of_oversized hover, hnone, Nat.not_lt_of_le hwhole.size, hover]
    · have hmax := Nat.le_of_not_lt fun hlt => hover ⟨hwhole, hlt⟩
      have hfront := front_complete_iff.mpr ⟨rfl, hwhole, hmax⟩
      exact iff_of_true (Frame.agrees_of_complete hfront) (.inl ⟨_, hfront⟩)
  · have hnone (hdr) : front e data ≠ .complete hdr := fun hfront =>
      hwhole (front_complete_iff.mp hfront).2.1
    have hover : ¬Frame.Oversized e data := fun h => hwhole h.1
    rw [Frame.agrees_of_refused hwhole]
    simp [hnone, hover]

/-- The header of zeros replaces the one that was in `out`, and a frame with one byte more than the
decoder allows is taken. -/
theorem Frame.deserialize_disagrees :
    ¬Frame.AgreesWithDecoder .little (List.replicate frameHeaderSize 0) (sliceFrame 1 0 [7]) ∧
      ¬Frame.AgreesWithDecoder .little
        ([0x5A, 0x5C, 1, 2, 0, 0, 1, 0, 4, 0, 0, 0, 0, 0, 0, 0] ++
          List.replicate (maxFramePayload + 1) 0) (sliceFrame 1 0 [7]) := by
  refine ⟨fun h => ?_, Frame.not_agrees_of_oversized ⟨⟨?_, ?_⟩, ?_⟩⟩
  · have hheader := congrArg Frame.header (h.unchanged (by decide))
    revert hheader
    decide
  all_goals rw [FrameHeader.load_append .little _ (by decide)]
  · exact ⟨by decide, by decide, by decide⟩
  · rw [List.length_append, List.length_replicate]
    decide
  · decide

/-! ## What the encoder builds

Every frame that the encoder builds is well formed and says what was encoded. -/

/-- A well-formed frame of the given type, with a fitting trailer if any, that holds `data`. -/
structure Frame.Carries (e : Endian) (type : FrameType) (data : List UInt8) (f : Frame) : Prop where
  wellFormed : f.WellFormed
  tag : f.header.type = type.toByte
  fitting : f.spoiled e = false
  content : f.content e = .read e type data

namespace Encoder

theorem makeFrame_carries (e : Endian) {type : FrameType} {payload : List UInt8} {crc : Bool}
    (htype : FrameType.ofByte type.toByte = type) (hsize : type.subHeaderSize ≤ payload.length)
    (hlen : payload.length + (if crc then crcSize else 0) ≤ maxFramePayload) :
    ∃ f, makeFrame e type payload crc = .ok f ∧ f.Carries e type payload := by
  rw [makeFrame, if_neg (by omega)]
  have hmax : maxFramePayload < 4294967296 := by decide
  cases crc with
  | false =>
    rw [if_neg Bool.false_ne_true, Nat.add_zero] at hlen
    have hmod : payload.length % 4294967296 = payload.length := Nat.mod_eq_of_lt (by omega)
    have htrailer : (0 &&& flagCrc32 : UInt16) = 0 := by decide
    refine ⟨_, rfl, ⟨⟨rfl, rfl, rfl, ?_, ?_⟩, ?_⟩, rfl, ?_, ?_⟩
    · simpa [hmod] using hlen
    · simp [hmod]
    · simp [FrameHeader.WellSized, FrameHeader.dataLen, FrameHeader.hasTrailer, htrailer, htype,
        hmod, hsize]
    · simp [Frame.spoiled, FrameHeader.crcMismatch, FrameHeader.hasTrailer, htrailer]
    · simp [Frame.content, body, FrameHeader.dataLen, FrameHeader.hasTrailer, htrailer, htype,
        hmod]
  | true =>
    rw [if_pos rfl, crcSize] at hlen
    have hmod : (payload.length + 4) % 4294967296 = payload.length + 4 :=
      Nat.mod_eq_of_lt (by omega)
    have hflag : flagCrc32 ≠ 0 := by decide
    simp only [List.length_append, length_storeU32, ite_true]
    refine ⟨_, rfl, ⟨⟨rfl, rfl, rfl, ?_, ?_⟩, ?_⟩, rfl, ?_, ?_⟩
    · simpa [hmod] using hlen
    · simp [hmod]
    · simp [FrameHeader.WellSized, FrameHeader.dataLen, FrameHeader.hasTrailer, hflag, htype,
        hmod, crcSize, hsize]
    · have hload : loadU32 e (payload ++ storeU32 e (calculateCrc32 payload)) payload.length =
          calculateCrc32 payload := by
        rw [loadU32_skip e payload _ le_rfl, Nat.sub_self,
          ← List.append_nil (storeU32 e (calculateCrc32 payload)), loadU32_store]
      simp [Frame.spoiled, FrameHeader.crcMismatch, FrameHeader.hasTrailer, hflag, hmod,
        FrameHeader.dataLen, crcSize, hload]
    · simp [Frame.content, body, FrameHeader.dataLen, FrameHeader.hasTrailer, hflag, htype,
        hmod, crcSize]

/-- The frame without trailer that holds `payload`. -/
def plainFrame (type : FrameType) (payload : List UInt8) : Frame where
  header :=
    { magic1 := magic1, magic2 := magic2, version := version, type := type.toByte, flags := 0
      payloadLen := UInt32.ofNat payload.length, reserved := 0, reserved2 := 0 }
  payload := payload

theorem makeFrame_plain {e : Endian} {type : FrameType} {payload : List UInt8} {f : Frame}
    (h : makeFrame e type payload false = .ok f) :
    payload.length ≤ maxFramePayload ∧ f = plainFrame type payload := by
  rw [makeFrame] at h
  split at h
  · cases h
  · cases h
    exact ⟨by omega, rfl⟩

theorem makeFrame_prefix {e : Endian} {type : FrameType} {payload : List UInt8} {crc : Bool}
    {f : Frame} (h : makeFrame e type payload crc = .ok f) :
    f.header.type = type.toByte ∧ payload <+: f.payload := by
  rw [makeFrame] at h
  split at h
  · cases h
  · cases crc with
    | false =>
      cases h
      exact ⟨rfl, List.prefix_refl _⟩
    | true =>
      cases h
      exact ⟨rfl, List.prefix_append _ _⟩

/-! ### Messages -/

/-- The number of slices of a message, before the cast to sixteen bits. -/
def slicesNeeded (length : ℕ) (enableCrc : Bool) : ℕ :=
  (length + slicePayload enableCrc - 1) / slicePayload enableCrc

def piece (data : List UInt8) (enableCrc : Bool) (i : ℕ) : List UInt8 :=
  (data.drop (i * slicePayload enableCrc)).take (slicePayload enableCrc)

theorem take_min_eq_piece (data : List UInt8) (crc : Bool) (i : ℕ) :
    (data.drop (i * slicePayload crc)).take
      (min (slicePayload crc) (data.length - i * slicePayload crc)) = piece data crc i := by
  rw [piece, ← List.length_drop, List.take_eq_take_iff]
  simp

def sliceHeader (messageId : UInt64) (length : ℕ) (enableCrc : Bool) (i : ℕ) : MessageHeader where
  messageId := messageId
  totalSlices := UInt16.ofNat (slicesNeeded length enableCrc)
  sequence := UInt16.ofNat i

theorem slicePayload_pos (crc : Bool) : 0 < slicePayload crc := by
  cases crc <;> decide

theorem slicePayload_add (crc : Bool) :
    messageHeaderSize + slicePayload crc + (if crc then crcSize else 0) = maxFramePayload := by
  cases crc <;> decide

theorem slicesNeeded_pos {length : ℕ} (crc : Bool) (h : 0 < length) :
    0 < slicesNeeded length crc :=
  Nat.div_pos (by omega) (slicePayload_pos crc)

theorem length_le_slices (length : ℕ) (crc : Bool) :
    length ≤ slicesNeeded length crc * slicePayload crc := by
  have hdiv := Nat.div_add_mod (length + slicePayload crc - 1) (slicePayload crc)
  have hmod := Nat.mod_lt (length + slicePayload crc - 1) (slicePayload_pos crc)
  rw [slicesNeeded, Nat.mul_comm]
  omega

theorem flatMap_piece (data : List UInt8) (crc : Bool) :
    (List.range (slicesNeeded data.length crc)).flatMap (piece data crc) = data := by
  unfold piece
  rw [Lists.flatMap_pieces, List.take_of_length_le (length_le_slices data.length crc)]

theorem encodeSlice_carries (e : Endian) (messageId : UInt64) (data : List UInt8) (crc : Bool)
    (i : ℕ) :
    ∃ f, encodeSlice e messageId data crc (sliceTotal data.length crc) i = .ok f ∧
      f.Carries e .message
        ((sliceHeader messageId data.length crc i).bytes e ++ piece data crc i) := by
  have hlen : (piece data crc i).length ≤ slicePayload crc := List.length_take_le _ _
  have hmax := slicePayload_add crc
  rw [encodeSlice]
  simp only [take_min_eq_piece]
  refine makeFrame_carries e rfl ?_ ?_
  · simp [FrameType.subHeaderSize]
  · rw [List.length_append, MessageHeader.length_bytes]
    omega

/-- A message that needs at most 65535 slices is encoded as its slices. -/
theorem encodeMessage_carries (e : Endian) (messageId : UInt64) {data : List UInt8} {crc : Bool}
    (hdata : data ≠ []) (hfit : slicesNeeded data.length crc ≤ 65535) :
    ∃ fs, encodeMessage e messageId data crc = .ok fs ∧
      List.Forall₂ (fun i f => f.Carries e .message
          ((sliceHeader messageId data.length crc i).bytes e ++ piece data crc i))
        (List.range (slicesNeeded data.length crc)) fs := by
  have hpos := slicesNeeded_pos crc (List.length_pos_iff.mpr hdata)
  have htotal : (sliceTotal data.length crc).toNat = slicesNeeded data.length crc :=
    UInt16.toNat_ofNat_of_lt' (by rw [UInt16.size]; exact Nat.lt_succ_of_le hfit)
  have hguard :
      ¬ (sliceTotal data.length crc = 0 ∨ sliceTotal data.length crc > maxMessageSlices) := by
    rintro (hzero | hmax)
    · rw [hzero] at htotal
      exact hpos.ne htotal
    · have hlt := UInt16.lt_iff_toNat_lt.mp hmax
      rw [htotal] at hlt
      exact absurd hfit (Nat.not_le_of_lt hlt)
  have hslices : ∀ i ∈ List.range (slicesNeeded data.length crc), ∃ f,
      encodeSlice e messageId data crc (sliceTotal data.length crc) i = .ok f :=
    fun i _ => (encodeSlice_carries e messageId data crc i).imp fun _ h => h.1
  obtain ⟨fs, hfs⟩ := Lists.exists_mapM_ok hslices
  refine ⟨fs, ?_, (Lists.mapM_ok_iff.mp hfs).imp fun i f hf => ?_⟩
  · rw [encodeMessage]
    simp only [if_neg hguard, htotal]
    exact hfs
  · obtain ⟨g, hg, hcarries⟩ := encodeSlice_carries e messageId data crc i
    rw [hg] at hf
    cases hf
    exact hcarries

end Encoder

/-! ### Stream frames -/

/-- A call of one of the three stream encoders. -/
inductive StreamItem where
  | start (streamId totalSize : UInt64)
  | chunk (streamId offset : UInt64) (data : List UInt8)
  | finish (streamId : UInt64) (crc32 : UInt32)
  deriving DecidableEq, Repr

namespace StreamItem

def encode (e : Endian) : StreamItem → Except ProtocolError Frame
  | start streamId totalSize => Encoder.encodeStreamStart e streamId totalSize
  | chunk streamId offset data => Encoder.encodeStreamChunk e streamId offset data
  | finish streamId crc32 => Encoder.encodeStreamEnd e streamId crc32

def type : StreamItem → FrameType
  | start _ _ => .streamStart
  | chunk _ _ _ => .streamChunk
  | finish _ _ => .streamEnd

def payload (e : Endian) : StreamItem → List UInt8
  | start streamId totalSize => StreamStartPayload.bytes e ⟨streamId, totalSize⟩
  | chunk streamId offset data => StreamChunkPayload.bytes e ⟨streamId, offset⟩ ++ data
  | finish streamId crc32 => StreamEndPayload.bytes e ⟨streamId, crc32⟩

def event : StreamItem → StreamEvent
  | start streamId totalSize =>
      { type := .streamStart, streamId := streamId, totalSize := totalSize }
  | chunk streamId offset data =>
      { type := .streamChunk, streamId := streamId, offset := offset, data := data }
  | finish streamId crc32 => { type := .streamEnd, streamId := streamId, crc32 := crc32 }

theorem encode_carries {e : Endian} {item : StreamItem} {f : Frame} (h : item.encode e = .ok f) :
    f.Carries e item.type (item.payload e) := by
  have hmake : ∃ g, item.encode e = .ok g ∧ g.Carries e item.type (item.payload e) := by
    cases item with
    | start streamId totalSize =>
      exact Encoder.makeFrame_carries e rfl (by simp [FrameType.subHeaderSize])
        (by simp [streamStartSize, maxFramePayload])
    | chunk streamId offset data =>
      simp only [encode, Encoder.encodeStreamChunk] at h ⊢
      split at h
      · cases h
      · rename_i hlen
        rw [if_neg hlen]
        exact Encoder.makeFrame_carries e rfl (by simp [FrameType.subHeaderSize])
          (by simp; omega)
    | finish streamId crc32 =>
      exact Encoder.makeFrame_carries e rfl (by simp [FrameType.subHeaderSize])
        (by simp [streamEndSize, maxFramePayload])
  obtain ⟨g, hg, hcarries⟩ := hmake
  rw [h] at hg
  cases hg
  exact hcarries

theorem read_payload (e : Endian) (item : StreamItem) :
    Body.read e item.type (item.payload e) = .event item.event := by
  cases item with
  | start streamId totalSize =>
    have hload := StreamStartPayload.load_bytes e ⟨streamId, totalSize⟩ []
    rw [List.append_nil] at hload
    simp [Body.read, type, payload, event, hload]
  | chunk streamId offset data =>
    have hdrop : (StreamChunkPayload.bytes e ⟨streamId, offset⟩ ++ data).drop streamChunkSize =
        data := List.drop_left' (StreamChunkPayload.length_bytes e _)
    simp [Body.read, type, payload, event, StreamChunkPayload.load_bytes, hdrop]
  | finish streamId crc32 =>
    have hload := StreamEndPayload.load_bytes e ⟨streamId, crc32⟩ []
    rw [List.append_nil] at hload
    simp [Body.read, type, payload, event, hload]

end StreamItem

/-! ## Slicing

The number of slices is cast to sixteen bits before it is compared with the maximum, so a message
is refused only if the number is a multiple of 65536. -/

namespace Encoder

/-- What a frame of a message holds between the message header and the trailer. -/
def sliceData (enableCrc : Bool) (f : Frame) : List UInt8 :=
  (f.payload.drop messageHeaderSize).take
    (f.payload.length - messageHeaderSize - (if enableCrc then crcSize else 0))

structure Slices (e : Endian) (messageId : UInt64) (data : List UInt8) (enableCrc : Bool)
    (frames : List Frame) : Prop where
  data : frames.flatMap (sliceData enableCrc) = data
  messageId : ∀ f ∈ frames, (MessageHeader.load e f.payload).messageId = messageId
  totalSlices : ∀ f ∈ frames, (MessageHeader.load e f.payload).totalSlices.toNat = frames.length
  sequence : frames.map (fun f => (MessageHeader.load e f.payload).sequence.toNat) =
    List.range frames.length
  bounded : ∀ f ∈ frames, f.payload.length ≤ maxFramePayload

/-- A message is refused exactly if it needs more than 65535 slices, and is sliced otherwise. -/
structure SlicesOrRefuses (e : Endian) (messageId : UInt64) (data : List UInt8)
    (enableCrc : Bool) : Prop where
  refuses : (∃ err, encodeMessage e messageId data enableCrc = .error err) ↔
    65535 < slicesNeeded data.length enableCrc
  slices : ∀ frames, encodeMessage e messageId data enableCrc = .ok frames →
    Slices e messageId data enableCrc frames

/-! ### One slice -/

def trailer (e : Endian) (enableCrc : Bool) (payload : List UInt8) : List UInt8 :=
  if enableCrc then storeU32 e (calculateCrc32 payload) else []

theorem length_trailer (e : Endian) (enableCrc : Bool) (payload : List UInt8) :
    (trailer e enableCrc payload).length = if enableCrc then crcSize else 0 := by
  cases enableCrc <;> simp [trailer, crcSize]

theorem makeFrame_payload {e : Endian} {type : FrameType} {payload : List UInt8} {crc : Bool}
    {f : Frame} (h : makeFrame e type payload crc = .ok f) :
    f.payload = payload ++ trailer e crc payload := by
  rw [makeFrame] at h
  split at h
  · cases h
  · cases crc with
    | false =>
      cases h
      exact (List.append_nil payload).symm
    | true =>
      cases h
      rfl

theorem encodeSlice_payload {e : Endian} {messageId : UInt64} {data : List UInt8} {crc : Bool}
    {total : UInt16} {i : ℕ} {f : Frame} (h : encodeSlice e messageId data crc total i = .ok f) :
    let head := MessageHeader.bytes e ⟨messageId, total, UInt16.ofNat i⟩ ++ piece data crc i
    f.payload = head ++ trailer e crc head := by
  rw [encodeSlice] at h
  simp only [take_min_eq_piece] at h
  exact makeFrame_payload h

section Slice

variable {messageId : UInt64} {crc : Bool} {total : UInt16} {i : ℕ} {f : Frame}

theorem load_encodeSlice (h : encodeSlice e messageId data crc total i = .ok f) :
    MessageHeader.load e f.payload = ⟨messageId, total, UInt16.ofNat i⟩ := by
  rw [encodeSlice_payload h, List.append_assoc, MessageHeader.load_bytes]

theorem sliceData_encodeSlice (h : encodeSlice e messageId data crc total i = .ok f) :
    sliceData crc f = piece data crc i := by
  have hdrop : f.payload.drop messageHeaderSize = piece data crc i ++ trailer e crc
      (MessageHeader.bytes e ⟨messageId, total, UInt16.ofNat i⟩ ++ piece data crc i) := by
    rw [encodeSlice_payload h, List.append_assoc]
    exact List.drop_left' (MessageHeader.length_bytes e _)
  have hlength : f.payload.length - messageHeaderSize - (if crc then crcSize else 0) =
      (piece data crc i).length := by
    rw [← List.length_drop, hdrop, List.length_append, length_trailer, Nat.add_sub_cancel_right]
  rw [sliceData, hlength, hdrop, List.take_left']
  rfl

theorem length_encodeSlice (h : encodeSlice e messageId data crc total i = .ok f) :
    f.payload.length ≤ maxFramePayload := by
  have hlen : (piece data crc i).length ≤ slicePayload crc := List.length_take_le _ _
  rw [encodeSlice_payload h, List.length_append, length_trailer, List.length_append,
    MessageHeader.length_bytes, ← slicePayload_add crc]
  omega

end Slice

/-! ### The message -/

/-- Whatever the cast has made of the number of slices, the loop builds that many frames. -/
theorem encodeMessage_eq (e : Endian) (messageId : UInt64) {data : List UInt8} {crc : Bool}
    (h : sliceTotal data.length crc ≠ 0) :
    ∃ frames, encodeMessage e messageId data crc = .ok frames ∧
      List.Forall₂ (fun i f => encodeSlice e messageId data crc (sliceTotal data.length crc) i =
        .ok f) (List.range (sliceTotal data.length crc).toNat) frames := by
  have hguard :
      ¬ (sliceTotal data.length crc = 0 ∨ sliceTotal data.length crc > maxMessageSlices) := by
    rintro (hzero | hmax)
    · exact h hzero
    · have hlt := UInt16.lt_iff_toNat_lt.mp hmax
      exact absurd (sliceTotal data.length crc).toNat_lt (Nat.not_lt_of_le hlt)
  have hslice (i : ℕ) : ∃ f, encodeSlice e messageId data crc (sliceTotal data.length crc) i =
      .ok f := (encodeSlice_carries e messageId data crc i).imp fun _ h => h.1
  obtain ⟨frames, hframes⟩ : ∃ frames, (List.range (sliceTotal data.length crc).toNat).mapM
      (encodeSlice e messageId data crc (sliceTotal data.length crc)) = .ok frames :=
    Lists.exists_mapM_ok fun i _ => hslice i
  refine ⟨frames, ?_, Lists.mapM_ok_iff.mp hframes⟩
  rw [encodeMessage]
  simp only [if_neg hguard]
  exact hframes

theorem sliceTotal_toNat (length : ℕ) (crc : Bool) :
    (sliceTotal length crc).toNat = slicesNeeded length crc % 65536 := by
  simp [sliceTotal, slicesNeeded]

theorem sliceTotal_eq_zero {length : ℕ} {crc : Bool} :
    sliceTotal length crc = 0 ↔ 65536 ∣ slicesNeeded length crc := by
  rw [← UInt16.toNat_inj, sliceTotal_toNat, Nat.dvd_iff_mod_eq_zero]
  rfl

/-- A message that fits is sliced. -/
theorem encodeMessage_slices {e : Endian} {messageId : UInt64} {data : List UInt8} {crc : Bool}
    {frames : List Frame} (hfit : slicesNeeded data.length crc ≤ 65535)
    (hframes : List.Forall₂ (fun i f => encodeSlice e messageId data crc
      (sliceTotal data.length crc) i = .ok f)
      (List.range (sliceTotal data.length crc).toNat) frames) :
    Slices e messageId data crc frames := by
  have htotal : (sliceTotal data.length crc).toNat = slicesNeeded data.length crc := by
    rw [sliceTotal_toNat, Nat.mod_eq_of_lt (Nat.lt_succ_of_le hfit)]
  rw [htotal] at hframes
  have hlength : frames.length = slicesNeeded data.length crc := by
    rw [← hframes.length_eq, List.length_range]
  have hmem {f : Frame} (hf : f ∈ frames) : ∃ i < frames.length,
      encodeSlice e messageId data crc (sliceTotal data.length crc) i = .ok f := by
    obtain ⟨i, hi, hslice⟩ := Lists.exists_left_of_mem hframes hf
    exact ⟨i, hlength ▸ List.mem_range.mp hi, hslice⟩
  refine ⟨?_, fun f hf => ?_, fun f hf => ?_, ?_, fun f hf => ?_⟩
  · have hpieces : frames.map (sliceData crc) =
        (List.range (slicesNeeded data.length crc)).map (piece data crc) :=
      Lists.map_eq_map hframes fun i _ f hslice => sliceData_encodeSlice hslice
    rw [List.flatMap_def, hpieces, ← List.flatMap_def, flatMap_piece]
  · obtain ⟨i, -, hslice⟩ := hmem hf
    rw [load_encodeSlice hslice]
  · obtain ⟨i, -, hslice⟩ := hmem hf
    rw [load_encodeSlice hslice, htotal, hlength]
  · have hsequence : frames.map (fun f => (MessageHeader.load e f.payload).sequence.toNat) =
        (List.range (slicesNeeded data.length crc)).map id := by
      refine Lists.map_eq_map hframes fun i hi f hslice => ?_
      have hlt : i < UInt16.size := (List.mem_range.mp hi).trans_le (hfit.trans (by decide))
      rw [load_encodeSlice hslice, UInt16.toNat_ofNat_of_lt' hlt, id]
    rw [hsequence, List.map_id, hlength]
  · obtain ⟨i, -, hslice⟩ := hmem hf
    exact length_encodeSlice hslice

/-- Exactly where the cast loses nothing or leaves zero, a message is sliced or refused. -/
theorem slicesOrRefuses_iff (e : Endian) (messageId : UInt64) {data : List UInt8}
    (hdata : data ≠ []) (crc : Bool) : SlicesOrRefuses e messageId data crc ↔
      slicesNeeded data.length crc ≤ 65535 ∨ 65536 ∣ slicesNeeded data.length crc := by
  have hpos := slicesNeeded_pos crc (List.length_pos_iff.mpr hdata)
  by_cases hdvd : 65536 ∣ slicesNeeded data.length crc
  · have herror : encodeMessage e messageId data crc = .error ⟨"message too large"⟩ := by
      rw [encodeMessage]
      exact if_pos (.inl (sliceTotal_eq_zero.mpr hdvd))
    refine iff_of_true ⟨iff_of_true ⟨_, herror⟩ ?_, fun frames hframes => ?_⟩ (.inr hdvd)
    · exact Nat.lt_of_succ_le (Nat.le_of_dvd hpos hdvd)
    · rw [herror] at hframes
      cases hframes
  · obtain ⟨frames, hok, hslices⟩ := encodeMessage_eq e messageId
      fun hzero => hdvd (sliceTotal_eq_zero.mp hzero)
    have hnot : ¬ ∃ err, encodeMessage e messageId data crc = .error err := by
      rintro ⟨err, herr⟩
      rw [hok] at herr
      cases herr
    constructor
    · intro h
      exact .inl (Nat.le_of_not_lt fun hlt => hnot (h.refuses.mpr hlt))
    · rintro (hfit | hdvd')
      · refine ⟨iff_of_false hnot (Nat.not_lt_of_le hfit), fun frames' hframes' => ?_⟩
        rw [hok] at hframes'
        cases hframes'
        exact encodeMessage_slices hfit hslices
      · exact absurd hdvd' hdvd

theorem slicesOrRefuses_iff_byte : SlicesOrRefuses .little 1 [7] true ↔
    slicesNeeded [7].length true ≤ 65535 ∨ 65536 ∣ slicesNeeded [7].length true :=
  slicesOrRefuses_iff .little 1 (by simp) true

/-- A message of 65537 slices is sent as one slice. -/
theorem long_message_truncated :
    ¬ SlicesOrRefuses .little 1 (List.replicate (65536 * slicePayload false + 1) 0) false := by
  intro h
  have hneeded : slicesNeeded (65536 * slicePayload false + 1) false = 65537 := by decide
  have htotal : sliceTotal (65536 * slicePayload false + 1) false = 1 := by decide
  have hnonzero :
      sliceTotal (List.replicate (65536 * slicePayload false + 1)
        (0 : UInt8)).length false ≠ 0 := by
    rw [List.length_replicate, htotal]
    decide
  obtain ⟨frames, hok, -⟩ := encodeMessage_eq .little 1 hnonzero
  obtain ⟨err, herr⟩ := h.refuses.mpr (by
    rw [List.length_replicate, hneeded]
    decide)
  rw [hok] at herr
  cases herr

end Encoder

end DarwinCore.Protocol
