import DarwinCore.Verification.Protocol.RoundTrip

/-! # Network byte order

The header comment promises network byte order, but every field is copied in the order of
the host. Hosts of both kinds agree only on fields that read the same both ways. -/

namespace DarwinCore.Protocol

open ByteOrder

/-! ## Multi-byte fields -/

/-- Offset and width of the fields of the sub-header, from the start of the frame. -/
def FrameType.fieldPositions : FrameType → List (ℕ × ℕ)
  | message => [(16, 8), (24, 2), (26, 2)]
  | streamStart => [(16, 8), (24, 8)]
  | streamChunk => [(16, 8), (24, 8)]
  | streamEnd => [(16, 8), (24, 4)]
  | unknown _ => []

namespace Frame

/-- Offset and width of `flags`, `payload_len`, the fields of the sub-header and the trailer. -/
def fieldPositions (f : Frame) : List (ℕ × ℕ) :=
  [(4, 2), (6, 4)] ++ (FrameType.ofByte f.header.type).fieldPositions ++
    if f.header.hasTrailer then [(frameHeaderSize + f.header.dataLen, crcSize)] else []

/-- The bytes of every field are the big-endian representation of the value that the host
holds there. -/
def NetworkOrder (e : Endian) (f : Frame) : Prop :=
  ∀ position ∈ f.fieldPositions,
    Endian.big.load position.2 (f.serialize e) position.1 =
      e.load position.2 (f.serialize e) position.1

end Frame

/-- Hosts of both kinds store the integer alike. -/
def StoredAlike (w n : ℕ) : Prop :=
  Endian.little.encode w n = Endian.big.encode w n

instance (w n : ℕ) : Decidable (StoredAlike w n) :=
  inferInstanceAs (Decidable (_ = _))

theorem loads_agree_iff {w n offset : ℕ} {bytes : List UInt8} (front rest : List UInt8)
    (h : n < 256 ^ w)
    (hbytes : bytes = front ++ (Endian.little.encode w n ++ rest))
    (hoffset : front.length = offset) :
    Endian.big.load w bytes offset = Endian.little.load w bytes offset ↔ StoredAlike w n := by
  subst hbytes hoffset
  rw [Endian.load_encode_at, Endian.load_encode_at, Endian.decode_encode .little h,
    Endian.decode_big_encode_little_iff h]
  rfl

theorem storedAlike_two {n : ℕ} (h : n < 65536) : StoredAlike 2 n ↔ n % 256 = n / 256 := by
  simp [StoredAlike, Endian.encode, leBytes, ← UInt8.toNat_inj]
  omega

theorem storedAlike_four {n : ℕ} (h : 0 < n) (hmax : n ≤ maxFramePayload) :
    StoredAlike 4 n ↔ n = 65792 ∨ n = 131584 ∨ n = 197376 := by
  have hbound : n ≤ 262144 := hmax
  have htop : n / 256 / 256 / 256 = 0 := by omega
  have hdigits : StoredAlike 4 n ↔ n % 256 = 0 ∧ n / 256 % 256 = n / 256 / 256 := by
    simp [StoredAlike, Endian.encode, leBytes, ← UInt8.toNat_inj, htop]
    omega
  rw [hdigits]
  omega

/-! ## Frames of messages -/

theorem Frame.NetworkOrder.slice {f : Frame} {mh : MessageHeader}
    (h : f.NetworkOrder .little) (htype : f.header.type = FrameType.message.toByte)
    (hpayload : mh.bytes .little <+: f.payload) :
    StoredAlike 2 mh.totalSlices.toNat ∧ StoredAlike 2 mh.sequence.toNat := by
  obtain ⟨rest, hrest⟩ := hpayload
  have hfield : ∀ p ∈ FrameType.message.fieldPositions, p ∈ f.fieldPositions := by
    intro p hp
    rw [fieldPositions, htype]
    exact List.mem_append_left _ (List.mem_append_right _ hp)
  constructor
  · refine (loads_agree_iff (f.header.bytes .little ++ storeU64 .little mh.messageId)
      (storeU16 .little mh.sequence ++ rest) mh.totalSlices.toNat_lt ?_ ?_).mp
      (h (24, 2) (hfield _ (by simp [FrameType.fieldPositions])))
    · simp [serialize, ← hrest, MessageHeader.bytes, storeU16]
    · simp [frameHeaderSize]
  · refine (loads_agree_iff (f.header.bytes .little ++ storeU64 .little mh.messageId ++
        storeU16 .little mh.totalSlices) rest mh.sequence.toNat_lt ?_ ?_).mp
      (h (26, 2) (hfield _ (by simp [FrameType.fieldPositions])))
    · simp [serialize, ← hrest, MessageHeader.bytes, storeU16]
    · simp [frameHeaderSize]

/-- The frames of an encoded message start with the headers of its slices. -/
theorem Outgoing.slice_of_encode {e : Endian} {m : Outgoing} {fs : List Frame}
    (h : m.encode e = .ok fs) : ∃ total : UInt16, total ≠ 0 ∧ ∀ i < total.toNat, ∃ f ∈ fs,
      f.header.type = FrameType.message.toByte ∧
        MessageHeader.bytes e ⟨m.messageId, total, UInt16.ofNat i⟩ <+: f.payload := by
  rw [Outgoing.encode, Encoder.encodeMessage] at h
  split at h
  · cases h
  · rename_i hguard
    refine ⟨_, fun hzero => hguard (.inl hzero), fun i hi => ?_⟩
    have hslices := List.Forall₂.flip (Lists.mapM_ok_iff.mp h)
    obtain ⟨f, hf, hencode⟩ := Lists.exists_left_of_mem hslices (List.mem_range.mpr hi)
    obtain ⟨htype, hprefix⟩ := Encoder.makeFrame_prefix hencode
    exact ⟨f, hf, htype, (List.prefix_append _ _).trans hprefix⟩

/-- Some frame of every encoded message has a field that is not in network order: the total,
or the sequence number of the second slice. -/
theorem Outgoing.exists_not_networkOrder {m : Outgoing} {fs : List Frame}
    (h : m.encode .little = .ok fs) : ∃ f ∈ fs, ¬ f.NetworkOrder .little := by
  obtain ⟨total, hzero, hslice⟩ := Outgoing.slice_of_encode h
  have hpos : 0 < total.toNat := by
    rw [Nat.pos_iff_ne_zero]
    exact fun h0 => hzero (UInt16.toNat_inj.mp h0)
  by_contra hall
  push Not at hall
  obtain ⟨f, hf, htype, hpayload⟩ := hslice 0 hpos
  have htotal : StoredAlike 2 total.toNat := ((hall f hf).slice htype hpayload).1
  rw [storedAlike_two total.toNat_lt] at htotal
  obtain ⟨g, hg, htype', hpayload'⟩ := hslice 1 (by omega)
  have hsequence : StoredAlike 2 1 := ((hall g hg).slice htype' hpayload').2
  exact absurd hsequence (by decide)

/-! ## Frames of stream items -/

section Plain

variable {type : FrameType} {payload : List UInt8}

theorem Encoder.serialize_plainFrame (e : Endian) (type : FrameType) (payload : List UInt8) :
    (plainFrame type payload).serialize e = [magic1, magic2, version, type.toByte] ++
      (e.encode 2 0 ++ (e.encode 4 (payload.length % 4294967296) ++
        (e.encode 4 0 ++ (e.encode 2 0 ++ payload)))) := by
  simp [plainFrame, Frame.serialize, FrameHeader.bytes, storeU16, storeU32]

/-- Without a trailer, the fields are those of the header and of the sub-header. -/
theorem Encoder.networkOrder_plainFrame (htype : FrameType.ofByte type.toByte = type)
    (hlen : payload.length ≤ maxFramePayload) :
    (plainFrame type payload).NetworkOrder .little ↔ StoredAlike 4 payload.length ∧
      ∀ position ∈ type.fieldPositions,
        Endian.big.load position.2 ((plainFrame type payload).serialize .little) position.1 =
          Endian.little.load position.2 ((plainFrame type payload).serialize .little)
            position.1 := by
  have hbytes := serialize_plainFrame .little type payload
  have hmod : payload.length % 4294967296 = payload.length :=
    Nat.mod_eq_of_lt (hlen.trans_lt (by decide))
  have hflags : Endian.big.load 2 ((plainFrame type payload).serialize .little) 4 =
      Endian.little.load 2 ((plainFrame type payload).serialize .little) 4 :=
    (loads_agree_iff _ _ (by decide) hbytes rfl).mpr (by decide)
  have hlength : Endian.big.load 4 ((plainFrame type payload).serialize .little) 6 =
      Endian.little.load 4 ((plainFrame type payload).serialize .little) 6 ↔
        StoredAlike 4 payload.length :=
    loads_agree_iff ([magic1, magic2, version, type.toByte] ++ Endian.little.encode 2 0) _
      (hlen.trans_lt (by decide)) (by rw [hbytes, hmod, List.append_assoc]) rfl
  have hpositions : (plainFrame type payload).fieldPositions =
      [(4, 2), (6, 4)] ++ type.fieldPositions := by
    have htrailer : (plainFrame type payload).header.hasTrailer = false := by
      have hflag : (0 &&& flagCrc32 : UInt16) = 0 := by decide
      simp [FrameHeader.hasTrailer, plainFrame, hflag]
    rw [Frame.fieldPositions, htrailer]
    simp [plainFrame, htype]
  rw [Frame.NetworkOrder, hpositions]
  simp only [List.cons_append, List.nil_append, List.forall_mem_cons, hflags, true_and, hlength]

end Plain

namespace StreamItem

/-- A chunk whose frame both hosts store alike: its length, stream id and offset read the same
both ways. -/
def Symmetric : StreamItem → Prop
  | chunk streamId offset data =>
      (data.length = 65776 ∨ data.length = 131568 ∨ data.length = 197360) ∧
        StoredAlike 8 streamId.toNat ∧ StoredAlike 8 offset.toNat
  | _ => False

theorem encode_plainFrame {e : Endian} {item : StreamItem} {f : Frame}
    (h : item.encode e = .ok f) : (item.payload e).length ≤ maxFramePayload ∧
      f = Encoder.plainFrame item.type (item.payload e) := by
  cases item with
  | start streamId totalSize => exact Encoder.makeFrame_plain h
  | finish streamId crc32 => exact Encoder.makeFrame_plain h
  | chunk streamId offset data =>
    simp only [encode, Encoder.encodeStreamChunk] at h
    split at h
    · cases h
    · exact Encoder.makeFrame_plain h

theorem networkOrder_iff {item : StreamItem} {f : Frame} (h : item.encode .little = .ok f) :
    f.NetworkOrder .little ↔ item.Symmetric := by
  obtain ⟨hlen, rfl⟩ := encode_plainFrame h
  have htype : FrameType.ofByte item.type.toByte = item.type := by cases item <;> rfl
  rw [Encoder.networkOrder_plainFrame htype hlen]
  cases item with
  | start streamId totalSize =>
    refine iff_of_false (fun hboth => ?_) id
    have hsixteen : StoredAlike 4 16 := by simpa [payload, streamStartSize] using hboth.1
    exact absurd hsixteen (by decide)
  | finish streamId crc32 =>
    refine iff_of_false (fun hboth => ?_) id
    have htwelve : StoredAlike 4 12 := by simpa [payload, streamEndSize] using hboth.1
    exact absurd htwelve (by decide)
  | chunk streamId offset data =>
    let frame := Encoder.plainFrame .streamChunk (payload .little (chunk streamId offset data))
    have hbytes : frame.serialize .little = frame.header.bytes .little ++
        (storeU64 .little streamId ++ (storeU64 .little offset ++ data)) := by
      simp [frame, Frame.serialize, Encoder.plainFrame, payload, StreamChunkPayload.bytes]
    have hid : Endian.big.load 8 (frame.serialize .little) 16 =
        Endian.little.load 8 (frame.serialize .little) 16 ↔ StoredAlike 8 streamId.toNat :=
      loads_agree_iff _ _ streamId.toNat_lt hbytes (by simp [frameHeaderSize])
    have hoffset : Endian.big.load 8 (frame.serialize .little) 24 =
        Endian.little.load 8 (frame.serialize .little) 24 ↔ StoredAlike 8 offset.toNat :=
      loads_agree_iff (frame.header.bytes .little ++ storeU64 .little streamId) data
        offset.toNat_lt (by rw [hbytes, List.append_assoc]; rfl)
        (by simp [frameHeaderSize])
    have hlength : (payload .little (chunk streamId offset data)).length = data.length + 16 := by
      simp [payload, streamChunkSize, Nat.add_comm]
    rw [hlength] at hlen ⊢
    rw [storedAlike_four (by omega) hlen, Symmetric]
    simp only [type, FrameType.fieldPositions, List.forall_mem_cons, List.not_mem_nil,
      false_implies, implies_true, and_true]
    refine and_congr (by omega) (and_congr hid hoffset)

end StreamItem

/-! ## Hosts of both kinds -/

/-- On both hosts every field of every frame is in network order, and what one host encodes is
decoded by the other to the same messages and events. -/
structure HostIndependent (originals : List Outgoing) (items : List StreamItem) : Prop where
  networkOrder : ∀ e messageFrames streamFrames,
    originals.mapM (Outgoing.encode e) = .ok messageFrames →
    items.mapM (StreamItem.encode e) = .ok streamFrames →
    ∀ f ∈ messageFrames.flatten ++ streamFrames, f.NetworkOrder e
  across : ∀ e e' messageFrames streamFrames,
    originals.mapM (Outgoing.encode e) = .ok messageFrames →
    items.mapM (StreamItem.encode e) = .ok streamFrames →
    ∀ fs : List Frame, fs.Perm (messageFrames.flatten ++ streamFrames) →
      fs.filter Frame.isStream = streamFrames →
      ∀ ms chunks, Decoder.input chunks = (Encoder.serializeFrames e fs).flatten →
        ∃ d, Decoder.feedAll e' (Decoder.fresh ms) chunks = .normal d ∧
          d.completedMessages.Perm (originals.map Outgoing.complete) ∧
          d.streamEvents = items.map StreamItem.event

theorem Frame.networkOrder_big (f : Frame) : f.NetworkOrder .big :=
  fun _ _ => rfl

theorem StoredAlike.encode_eq {w n : ℕ} (h : StoredAlike w n) (e e' : Endian) :
    e.encode w n = e'.encode w n := by
  cases e <;> cases e' <;> first | rfl | exact h | exact h.symm

/-- Symmetric chunks are the same bytes on both hosts. -/
theorem StreamItem.Symmetric.serialize {item : StreamItem} (h : item.Symmetric) (e e' : Endian) :
    (Encoder.plainFrame item.type (item.payload e)).serialize e =
      (Encoder.plainFrame item.type (item.payload e')).serialize e' := by
  cases item with
  | start _ _ => exact h.elim
  | finish _ _ => exact h.elim
  | chunk streamId offset data =>
    obtain ⟨hlen, hid, hoffset⟩ := h
    have hpayload : payload e (chunk streamId offset data) =
        payload e' (chunk streamId offset data) := by
      simp only [payload, StreamChunkPayload.bytes, storeU64, hid.encode_eq e e',
        hoffset.encode_eq e e']
    have hzero : ∀ w ∈ [2, 4], e.encode w 0 = e'.encode w 0 := by
      cases e <;> cases e' <;> decide
    have hlength : e.encode 4 ((payload e' (chunk streamId offset data)).length % 4294967296) =
        e'.encode 4 ((payload e' (chunk streamId offset data)).length % 4294967296) := by
      have hsize : (payload e' (chunk streamId offset data)).length = 16 + data.length := by
        simp [payload, streamChunkSize]
      rw [hsize]
      apply StoredAlike.encode_eq
      rcases hlen with hlen | hlen | hlen <;> rw [hlen] <;> decide
    rw [hpayload, Encoder.serialize_plainFrame, Encoder.serialize_plainFrame, hlength,
      hzero 2 (by simp), hzero 4 (by simp)]

theorem StreamItem.mapM_encode {e : Endian} {items : List StreamItem} {fs : List Frame}
    (h : items.mapM (StreamItem.encode e) = .ok fs) :
    fs = items.map fun item => Encoder.plainFrame item.type (item.payload e) := by
  rw [← List.filterMap_some (l := fs)]
  exact Lists.filterMap_eq_map (fun _ _ hencode => congrArg some (encode_plainFrame hencode).2)
    (Lists.mapM_ok_iff.mp h)

theorem StreamItem.stream_frames {e : Endian} {items : List StreamItem} {fs : List Frame}
    (h : items.mapM (StreamItem.encode e) = .ok fs) : fs.filter Frame.isStream = fs := by
  refine List.filter_eq_self.mpr fun f hf => ?_
  obtain ⟨item, -, hdeliver⟩ := Lists.exists_left_of_mem (encode_items h) hf
  simpa [Frame.isStream] using hdeliver.tag

/-- Symmetric chunks are understood by the other host. -/
theorem across_of_symmetric {items : List StreamItem} (h : ∀ item ∈ items, item.Symmetric)
    (hitems : ∀ e, ∃ fs, items.mapM (StreamItem.encode e) = .ok fs) {e : Endian} (e' : Endian)
    {streamFrames fs : List Frame} (hstream : items.mapM (StreamItem.encode e) = .ok streamFrames)
    (hperm : fs.Perm streamFrames) (ms : UInt32) {chunks : List Decoder.Chunk}
    (horder : fs.filter Frame.isStream = streamFrames)
    (hinput : Decoder.input chunks = (Encoder.serializeFrames e fs).flatten) :
    ∃ d, Decoder.feedAll e' (Decoder.fresh ms) chunks = .normal d ∧
      d.completedMessages = [] ∧ d.streamEvents = items.map StreamItem.event := by
  obtain ⟨streamFrames', hstream'⟩ := hitems e'
  obtain rfl : fs = streamFrames := by
    have hsub : streamFrames.Sublist fs := horder ▸ List.filter_sublist
    exact (hsub.eq_of_length hperm.length_eq.symm).symm
  have hbytes : Decoder.input chunks = Frame.stream e' streamFrames' := by
    rw [hinput, Encoder.serializeFrames, Frame.stream, StreamItem.mapM_encode hstream,
      StreamItem.mapM_encode hstream', List.map_map, List.map_map]
    refine congrArg List.flatten (List.map_congr_left fun item hitem => ?_)
    exact (h item hitem).serialize e e'
  have hnone : List.Forall₂ (Frame.DeliversPart e')
      (([] : List Outgoing).flatMap Outgoing.parts) [] := .nil
  obtain ⟨d, hfeed, hdelivered⟩ := Decoder.feedAll_interleaved (by simp) (by simp) hnone
    (encode_items hstream')
    (List.Perm.refl streamFrames') (StreamItem.stream_frames hstream') ms hbytes
  exact ⟨d, hfeed, hdelivered.messages.eq_nil, hdelivered.events⟩

/-- Hosts of both kinds understand each other exactly where no message is sent and every
stream item is a symmetric chunk. -/
theorem hostIndependent_iff {originals : List Outgoing} {items : List StreamItem}
    (hmessages : ∀ e, ∃ fss, originals.mapM (Outgoing.encode e) = .ok fss)
    (hitems : ∀ e, ∃ fs, items.mapM (StreamItem.encode e) = .ok fs) :
    HostIndependent originals items ↔ originals = [] ∧ ∀ item ∈ items, item.Symmetric := by
  constructor
  · intro h
    obtain ⟨fss, hfss⟩ := hmessages .little
    obtain ⟨fs, hfs⟩ := hitems .little
    have hall := h.networkOrder .little fss fs hfss hfs
    constructor
    · rw [List.eq_nil_iff_forall_not_mem]
      intro m hm
      obtain ⟨frames, hframes, hencode⟩ := Lists.exists_left_of_mem
        (List.Forall₂.flip (Lists.mapM_ok_iff.mp hfss)) hm
      obtain ⟨f, hf, hnot⟩ := Outgoing.exists_not_networkOrder hencode
      exact hnot (hall f (List.mem_append_left _ (List.mem_flatten_of_mem hframes hf)))
    · intro item hitem
      obtain ⟨f, hf, hencode⟩ := Lists.exists_left_of_mem
        (List.Forall₂.flip (Lists.mapM_ok_iff.mp hfs)) hitem
      exact (StreamItem.networkOrder_iff hencode).mp (hall f (List.mem_append_right _ hf))
  · rintro ⟨rfl, hsymmetric⟩
    refine ⟨fun e fss fs hfss hfs f hf => ?_, fun e e' fss sfs hfss hsfs fs hperm horder ms chunks
      hinput => ?_⟩
    · cases hfss
      cases e with
      | big => exact f.networkOrder_big
      | little =>
          obtain ⟨item, hitem, hencode⟩ := Lists.exists_left_of_mem (Lists.mapM_ok_iff.mp hfs) hf
          exact (StreamItem.networkOrder_iff hencode).mpr (hsymmetric item hitem)
    · cases hfss
      obtain ⟨d, hfeed, hnone, hevents⟩ :=
        across_of_symmetric hsymmetric hitems e' hsfs hperm ms horder hinput
      exact ⟨d, hfeed, by rw [hnone]; rfl, hevents⟩

/-- One of the chunks that are understood. -/
theorem hostIndependent_chunk :
    HostIndependent [] [.chunk 0 0 (List.replicate 65776 0x41)] := by
  generalize hdata : List.replicate 65776 (0x41 : UInt8) = data
  have hlen : data.length = 65776 := by rw [← hdata, List.length_replicate]
  refine (hostIndependent_iff (fun _ => ⟨[], rfl⟩) fun e => ?_).mpr ⟨rfl, ?_⟩
  · refine Lists.exists_mapM_ok fun item hitem => ?_
    obtain rfl := List.mem_singleton.mp hitem
    rw [StreamItem.encode, Encoder.encodeStreamChunk, if_neg (by rw [hlen]; decide)]
    have hmake : ∃ f, Encoder.makeFrame e .streamChunk
        (StreamChunkPayload.bytes e ⟨0, 0⟩ ++ data) false = .ok f ∧ _ :=
      Encoder.makeFrame_carries e rfl (by simp [FrameType.subHeaderSize])
        (by rw [List.length_append, StreamChunkPayload.length_bytes, hlen]; decide)
    exact hmake.imp fun _ h => h.1
  · intro item hitem
    obtain rfl := List.mem_singleton.mp hitem
    exact ⟨.inl hlen, by decide, by decide⟩

/-- A message of one byte is not. -/
theorem letter_not_hostIndependent : ¬ HostIndependent [⟨1, [0x41], false⟩] [] := by
  intro h
  obtain ⟨frames, hencode⟩ : ∃ frames,
      Outgoing.encode .little ⟨1, [0x41], false⟩ = .ok frames := ⟨_, rfl⟩
  obtain ⟨f, hf, hnot⟩ := Outgoing.exists_not_networkOrder hencode
  refine hnot (h.networkOrder .little [frames] [] ?_ rfl f (by simpa using hf))
  exact Lists.mapM_ok_iff.mpr (.cons hencode .nil)

end DarwinCore.Protocol
