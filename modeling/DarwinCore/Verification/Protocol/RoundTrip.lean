import DarwinCore.Verification.Protocol.Completion
import DarwinCore.Verification.Protocol.Encoding

/-! # Round trip of the codec

What the encoder makes of messages and stream items comes out of the decoder again, for
every interleaving of the frames and every way of cutting the bytes. -/

namespace DarwinCore.Protocol

open ByteOrder Reassembly

/-! ## Frames that deliver parts and events -/

namespace Frame

structure DeliversPart (e : Endian) (p : Part UInt64 UInt8) (f : Frame) : Prop where
  wellFormed : f.WellFormed
  tag : f.header.type = FrameType.message.toByte
  fitting : f.spoiled e = false
  part : f.part? e = some p
  event : f.event? e = none

structure DeliversEvent (e : Endian) (ev : StreamEvent) (f : Frame) : Prop where
  wellFormed : f.WellFormed
  tag : f.header.type ≠ FrameType.message.toByte
  fitting : f.spoiled e = false
  part : f.part? e = none
  event : f.event? e = some ev

variable {e : Endian} {f : Frame}

theorem Carries.deliversPart {mh : MessageHeader} {data : List UInt8}
    (h : f.Carries e .message (mh.bytes e ++ data)) : f.DeliversPart e (slicePart mh data) := by
  have hdrop : (mh.bytes e ++ data).drop messageHeaderSize = data :=
    List.drop_left' (MessageHeader.length_bytes e mh)
  have hcontent : f.content e = .slice mh data := by
    rw [h.content, Body.read, MessageHeader.load_bytes, hdrop]
  exact ⟨h.wellFormed, h.tag, h.fitting, by simp [part?, h.fitting, hcontent],
    by simp [event?, h.fitting, hcontent]⟩

theorem Carries.deliversEvent {item : StreamItem}
    (h : f.Carries e item.type (item.payload e)) : f.DeliversEvent e item.event := by
  have hcontent : f.content e = .event item.event := by
    rw [h.content, item.read_payload]
  refine ⟨h.wellFormed, ?_, h.fitting, by simp [part?, h.fitting, hcontent],
    by simp [event?, h.fitting, hcontent]⟩
  rw [h.tag]
  cases item <;> simp [StreamItem.type, FrameType.toByte]

end Frame

/-! ## Messages to be sent -/

/-- The arguments of a call of `EncodeMessage`. -/
structure Outgoing where
  messageId : UInt64
  data : List UInt8
  enableCrc : Bool
  deriving DecidableEq, Repr

namespace Outgoing

def encode (e : Endian) (m : Outgoing) : Except ProtocolError (List Frame) :=
  Encoder.encodeMessage e m.messageId m.data m.enableCrc

def complete (m : Outgoing) : MessageComplete :=
  ⟨m.messageId, m.data⟩

def slices (m : Outgoing) : ℕ :=
  Encoder.slicesNeeded m.data.length m.enableCrc

/-- The message is not empty and short enough to need at most 65535 slices. -/
def Sendable (m : Outgoing) : Prop :=
  m.data ≠ [] ∧ m.slices ≤ 65535

def part (m : Outgoing) (i : ℕ) : Part UInt64 UInt8 where
  index := i
  data := Encoder.piece m.data m.enableCrc i
  id := m.messageId
  total := m.slices

def parts (m : Outgoing) : List (Part UInt64 UInt8) :=
  (List.range m.slices).map m.part

theorem Sendable.slices_pos {m : Outgoing} (h : m.Sendable) : 0 < m.slices :=
  Encoder.slicesNeeded_pos _ (List.length_pos_iff.mpr h.1)

theorem part_eq_slicePart {m : Outgoing} (h : m.Sendable) {i : ℕ} (hi : i < m.slices) :
    slicePart (Encoder.sliceHeader m.messageId m.data.length m.enableCrc i)
      (Encoder.piece m.data m.enableCrc i) = m.part i := by
  have hslices := h.2
  have hindex : (UInt16.ofNat i).toNat = i :=
    UInt16.toNat_ofNat_of_lt' (by rw [UInt16.size]; omega)
  have htotal : (UInt16.ofNat m.slices).toNat = m.slices :=
    UInt16.toNat_ofNat_of_lt' (by rw [UInt16.size]; omega)
  rw [part, ← htotal]
  simp only [slicePart, Encoder.sliceHeader, hindex]
  rfl

/-- A message that can be sent is encoded, and its frames deliver its parts. -/
theorem Sendable.encode {m : Outgoing} (h : m.Sendable) (e : Endian) :
    ∃ fs, m.encode e = .ok fs ∧ List.Forall₂ (Frame.DeliversPart e) m.parts fs := by
  obtain ⟨fs, hencode, hcarries⟩ := Encoder.encodeMessage_carries e m.messageId h.1 h.2
  refine ⟨fs, hencode, ?_⟩
  rw [parts, List.forall₂_map_left_iff]
  have hbelow : ∀ i ∈ List.range m.slices, i < m.slices := fun i hi => List.mem_range.mp hi
  refine ((List.forall₂_and_left _ _).mpr ⟨hbelow, hcarries⟩).imp fun i f hf => ?_
  rw [← part_eq_slicePart h hf.1]
  exact hf.2.deliversPart

/-! ## All slices in any order -/

/-- Messages with distinct ids are known from the list of their ids and a table of data. -/
theorem perm_complete {originals : List Outgoing} {ids : List UInt64}
    {data : UInt64 → List UInt8} (hids : (originals.map Outgoing.messageId).Nodup)
    (hnodup : ids.Nodup) (hmem : ∀ id, id ∈ ids ↔ ∃ m ∈ originals, m.messageId = id)
    (hdata : ∀ m ∈ originals, data m.messageId = m.data) :
    (ids.map (emitted ∘ fun id => (id, data id))).Perm (originals.map Outgoing.complete) := by
  have hleft : (ids.map (emitted ∘ fun id => (id, data id))).Nodup :=
    hnodup.map fun id id' h => congrArg MessageComplete.messageId h
  have hright : (originals.map Outgoing.complete).Nodup :=
    List.Nodup.of_map MessageComplete.messageId (by rw [List.map_map]; exact hids)
  refine (List.perm_ext_iff_of_nodup hleft hright).mpr fun c => ?_
  simp only [List.mem_map, Function.comp_apply]
  constructor
  · rintro ⟨id, hid, rfl⟩
    obtain ⟨m, hm, rfl⟩ := (hmem id).mp hid
    exact ⟨m, hm, by rw [hdata m hm]; rfl⟩
  · rintro ⟨m, hm, rfl⟩
    exact ⟨m.messageId, (hmem _).mpr ⟨m, hm, rfl⟩, by rw [hdata m hm]; rfl⟩

section Interleaved

variable {originals : List Outgoing} {ps : List (Part UInt64 UInt8)}
  (hids : (originals.map Outgoing.messageId).Nodup)
  (hperm : ps.Perm (originals.flatMap Outgoing.parts))

include hperm

theorem mem_interleaved {p : Part UInt64 UInt8} :
    p ∈ ps ↔ ∃ m ∈ originals, ∃ i < m.slices, m.part i = p := by
  simp [hperm.mem_iff, parts]

include hids

theorem once_interleaved : (State.empty : State UInt64 UInt8).Once ps := by
  apply State.once_empty
  rw [(hperm.map _).nodup_iff, List.map_flatMap, List.nodup_flatMap]
  constructor
  · intro m _
    rw [parts, List.map_map]
    exact List.nodup_range.map fun i j hij => (Prod.mk.inj hij).2
  · refine (List.pairwise_map.mp hids).imp fun {m m'} hne => ?_
    intro x hx hx'
    simp only [parts, List.map_map, List.mem_map] at hx hx'
    obtain ⟨i, -, rfl⟩ := hx
    obtain ⟨j, -, hj⟩ := hx'
    exact hne (Prod.mk.inj hj).1.symm

theorem complete_interleaved {m : Outgoing} (hm : m ∈ originals) :
    Complete m.slices (slicesOf ps m.messageId) := by
  ext i
  simp only [mem_indices, mem_slicesOf, mem_interleaved hperm, Finset.mem_range]
  constructor
  · rintro ⟨x, ⟨p, ⟨m', hm', j, hj, rfl⟩, hid, rfl⟩, rfl⟩
    obtain rfl := List.inj_on_of_nodup_map hids hm' hm hid
    exact hj
  · intro hi
    exact ⟨_, ⟨m.part i, ⟨m, hm, i, hi, rfl⟩, rfl, rfl⟩, rfl⟩

theorem assemble_interleaved {m : Outgoing} (hm : m ∈ originals) :
    assemble m.slices (slicesOf ps m.messageId) = m.data := by
  have honce := once_interleaved hids hperm m.messageId
  rw [State.empty, List.append_nil] at honce
  have hfirst : ∀ i ∈ List.range m.slices, firstFor (slicesOf ps m.messageId) i =
      Encoder.piece m.data m.enableCrc i := by
    intro i hi
    have hpart : m.part i ∈ ps :=
      (mem_interleaved hperm).mpr ⟨m, hm, i, List.mem_range.mp hi, rfl⟩
    exact firstFor_of_nodup honce (x := (m.part i).toSlice)
      (mem_slicesOf.mpr ⟨_, hpart, rfl, rfl⟩)
  rw [assemble, List.flatMap_congr hfirst]
  exact Encoder.flatMap_piece m.data m.enableCrc

/-- The messages are delivered in the order in which their last slices arrive. -/
theorem run_interleaved (hsend : ∀ m ∈ originals, m.Sendable) :
    (((State.empty : State UInt64 UInt8).run ps).completed.map emitted).Perm
        (originals.map Outgoing.complete) ∧
      ((State.empty : State UInt64 UInt8).run ps).completed.map Prod.fst =
        (ps.map Part.id).dedup ∧
      ∀ id, ((State.empty : State UInt64 UInt8).run ps).pending id = [] := by
  obtain ⟨slices, hslices⟩ := Lists.exists_table Outgoing.slices hids
  obtain ⟨data, hdata⟩ := Lists.exists_table Outgoing.data hids
  have hmem : ∀ id, id ∈ ps.map Part.id ↔ ∃ m ∈ originals, m.messageId = id := by
    intro id
    simp only [List.mem_map, mem_interleaved hperm]
    constructor
    · rintro ⟨p, ⟨m, hm, i, -, rfl⟩, rfl⟩
      exact ⟨m, hm, rfl⟩
    · rintro ⟨m, hm, rfl⟩
      exact ⟨m.part 0, ⟨m, hm, 0, (hsend m hm).slices_pos, rfl⟩, rfl⟩
  have htotal : ∀ p ∈ ps, p.total = slices p.id := by
    intro p hp
    obtain ⟨m, hm, i, -, rfl⟩ := (mem_interleaved hperm).mp hp
    exact (hslices m hm).symm
  have hcomplete : ∀ id ∈ ps.map Part.id,
      Complete (slices id) (slicesOf ps id ++ (State.empty : State UInt64 UInt8).pending id) := by
    intro id hid
    obtain ⟨m, hm, rfl⟩ := (hmem id).mp hid
    rw [hslices m hm, State.empty, List.append_nil]
    exact complete_interleaved hids hperm hm
  obtain ⟨hdone, hpending⟩ := (once_interleaved hids hperm).run htotal hcomplete
  have hvalue : ∀ id ∈ (ps.map Part.id).dedup,
      (id, assemble (slices id)
        (slicesOf ps id ++ (State.empty : State UInt64 UInt8).pending id)) = (id, data id) := by
    intro id hid
    obtain ⟨m, hm, rfl⟩ := (hmem id).mp (List.mem_dedup.mp hid)
    rw [hslices m hm, hdata m hm, State.empty, List.append_nil,
      assemble_interleaved hids hperm hm]
  rw [List.map_congr_left hvalue] at hdone
  have hdone' : ((State.empty : State UInt64 UInt8).run ps).completed =
      (ps.map Part.id).dedup.map fun id => (id, data id) := hdone.trans (List.nil_append _)
  refine ⟨?_, ?_, fun id => by rw [hpending]; simp [State.empty]⟩
  · rw [hdone', List.map_map]
    refine perm_complete hids (List.nodup_dedup _) (fun id => ?_) hdata
    rw [List.mem_dedup, hmem]
  · rw [hdone', List.map_map]
    exact List.map_id _

end Interleaved

end Outgoing

/-! ## The round trip -/

namespace Frame

def isStream (f : Frame) : Bool :=
  f.header.type ≠ FrameType.message.toByte

def messageIds (e : Endian) (fs : List Frame) : List UInt64 :=
  (fs.filterMap (part? e)).map Part.id

end Frame

theorem encode_originals (e : Endian) {originals : List Outgoing}
    (hsend : ∀ m ∈ originals, m.Sendable) :
    ∃ fss, originals.mapM (Outgoing.encode e) = .ok fss ∧
      List.Forall₂ (Frame.DeliversPart e) (originals.flatMap Outgoing.parts) fss.flatten := by
  obtain ⟨fss, hfss⟩ := Lists.exists_mapM_ok fun m hm =>
    ((hsend m hm).encode e).imp fun _ h => h.1
  refine ⟨fss, hfss, List.rel_flatten (List.forall₂_map_left_iff.mpr ?_)⟩
  refine ((List.forall₂_and_left _ _).mpr ⟨hsend, Lists.mapM_ok_iff.mp hfss⟩).imp ?_
  rintro m fs ⟨hm, hencode⟩
  obtain ⟨fs', hencode', hparts⟩ := hm.encode e
  rw [hencode] at hencode'
  cases hencode'
  exact hparts

theorem encode_items {e : Endian} {items : List StreamItem} {fs : List Frame}
    (h : items.mapM (StreamItem.encode e) = .ok fs) :
    List.Forall₂ (fun item f => f.DeliversEvent e item.event) items fs :=
  (Lists.mapM_ok_iff.mp h).imp fun _ _ hencode =>
    (StreamItem.encode_carries hencode).deliversEvent

section Interleaving

variable {e : Endian} {ps : List (Part UInt64 UInt8)} {items : List StreamItem}
  {messageFrames streamFrames fs : List Frame}
  (hparts : List.Forall₂ (Frame.DeliversPart e) ps messageFrames)
  (hitems : List.Forall₂ (fun item f => f.DeliversEvent e item.event) items streamFrames)
  (hperm : fs.Perm (messageFrames ++ streamFrames))

include hparts hitems hperm

theorem delivers_of_mem {f : Frame} (hf : f ∈ fs) :
    (∃ p ∈ ps, f.DeliversPart e p) ∨ ∃ item ∈ items, f.DeliversEvent e item.event := by
  rcases List.mem_append.mp (hperm.mem_iff.mp hf) with hf | hf
  · exact .inl (Lists.exists_left_of_mem hparts hf)
  · exact .inr (Lists.exists_left_of_mem hitems hf)

theorem wellFormed_of_mem {f : Frame} (hf : f ∈ fs) : f.WellFormed ∧ f.spoiled e = false := by
  rcases delivers_of_mem hparts hitems hperm hf with ⟨p, -, h⟩ | ⟨item, -, h⟩
  · exact ⟨h.wellFormed, h.fitting⟩
  · exact ⟨h.wellFormed, h.fitting⟩

theorem filterMap_part?_perm : (fs.filterMap (Frame.part? e)).Perm ps := by
  have hmessage : messageFrames.filterMap (Frame.part? e) = ps.map id :=
    Lists.filterMap_eq_map (fun _ _ h => h.part) hparts
  have hstream : streamFrames.filterMap (Frame.part? e) = [] :=
    List.filterMap_eq_nil_iff.mpr fun f hf => by
      obtain ⟨item, -, h⟩ := Lists.exists_left_of_mem hitems hf
      exact h.part
  have happend : (messageFrames ++ streamFrames).filterMap (Frame.part? e) = ps := by
    rw [List.filterMap_append, hmessage, hstream, List.map_id, List.append_nil]
  exact happend ▸ hperm.filterMap _

theorem filterMap_event? (horder : fs.filter Frame.isStream = streamFrames) :
    fs.filterMap (Frame.event? e) = items.map StreamItem.event := by
  rw [← Lists.filterMap_eq_map (fun _ _ h => h.event) hitems, ← horder, List.filterMap_filter]
  refine List.filterMap_congr fun f hf => ?_
  rcases delivers_of_mem hparts hitems hperm hf with ⟨p, -, h⟩ | ⟨item, -, h⟩
  · simp [Frame.isStream, h.tag, h.event]
  · simp [Frame.isStream, h.tag]

end Interleaving

namespace Decoder

theorem Tracks.messages_eq_empty {total : UInt64 → UInt16} {d : Decoder}
    {s : State UInt64 UInt8} (h : Tracks total d s) (hs : ∀ id, s.pending id = []) :
    d.messages = ∅ := by
  refine Finmap.ext_lookup fun id => ?_
  have hentry := h.pending id
  rw [hs id] at hentry
  rw [Finmap.lookup_empty]
  cases hm : d.messages.lookup id with
  | none => rfl
  | some m =>
    rw [hm] at hentry
    exact absurd rfl hentry.1

/-- The decoder after a run over the frames `fs`, which interleave those of the messages and
of the stream items: each message has been delivered once, in the order of the last frames,
the events are those of the items, in order, and nothing is left over. -/
structure Delivered (e : Endian) (originals : List Outgoing) (items : List StreamItem)
    (fs : List Frame) (d : Decoder) : Prop where
  messages : d.completedMessages.Perm (originals.map Outgoing.complete)
  order : d.completedMessages.map MessageComplete.messageId = (Frame.messageIds e fs).dedup
  events : d.streamEvents = items.map StreamItem.event
  buffer : d.buffer = []
  pending : d.messages = ∅
  crcErrors : d.stats.crcErrors = 0

/-- A run over any interleaving of frames that deliver the slices of messages with distinct
ids and the events of stream items, however the bytes are cut. -/
theorem feedAll_interleaved {e : Endian} {originals : List Outgoing} {items : List StreamItem}
    {messageFrames streamFrames fs : List Frame}
    (hids : (originals.map Outgoing.messageId).Nodup) (hsend : ∀ m ∈ originals, m.Sendable)
    (hparts : List.Forall₂ (Frame.DeliversPart e) (originals.flatMap Outgoing.parts) messageFrames)
    (hitems : List.Forall₂ (fun item f => f.DeliversEvent e item.event) items streamFrames)
    (hperm : fs.Perm (messageFrames ++ streamFrames))
    (horder : fs.filter Frame.isStream = streamFrames) (ms : UInt32) {chunks : List Chunk}
    (hinput : input chunks = Frame.stream e fs) :
    ∃ d, feedAll e (fresh ms) chunks = .normal d ∧ d.Delivered e originals items fs := by
  have hps := filterMap_part?_perm hparts hitems hperm
  have hgood := fun f hf => wellFormed_of_mem hparts hitems hperm (f := f) hf
  obtain ⟨total, htable⟩ := Lists.exists_table (fun m => UInt16.ofNat (Outgoing.slices m)) hids
  have hpart : ∀ f ∈ fs, ∀ p, f.part? e = some p →
      (total p.id).toNat = p.total ∧ p.index < p.total := by
    intro f hf p hp
    obtain ⟨m, hm, i, hi, rfl⟩ := (Outgoing.mem_interleaved hps).mp
      (List.mem_filterMap.mpr ⟨f, hf, hp⟩)
    refine ⟨?_, hi⟩
    rw [show (m.part i).id = m.messageId from rfl, htable m hm]
    exact UInt16.toNat_ofNat_of_lt' (Nat.lt_succ_of_le (hsend m hm).2)
  obtain ⟨d, htake, htrack, hevents, herrors⟩ := (tracks_fresh total 0).takeFrames
    (fun _ => 0) (fun f hf p hp => (hpart f hf p hp).1)
    (fun f hf p hp => (hpart f hf p hp).2)
    (Outgoing.once_interleaved hids hps).neverMasked
  obtain ⟨hdone, hlast, hpending⟩ := Outgoing.run_interleaved hids hps hsend
  obtain ⟨bytes, hagrees, hbytes⟩ := feedAll_stream (fun f hf => (hgood f hf).1) ms hinput
  obtain rfl := hbytes d htake
  rw [htake] at hagrees
  have hmessages := htrack.messages_eq_empty hpending
  cases hfeed : feedAll e (fresh ms) chunks with
  | error err x => rw [hfeed] at hagrees; exact hagrees.elim
  | fault x => rw [hfeed] at hagrees; exact hagrees.elim
  | normal x =>
    rw [hfeed] at hagrees
    have hx : Alike x ((d.receive (Frame.stream e fs)).withBuffer []) := hagrees
    have hcompleted : x.completedMessages = _ := hx.output.messages.trans htrack.completed
    refine ⟨x, rfl, ?_, ?_, ?_, hx.buffer, ?_, ?_⟩
    · rw [hcompleted]
      exact hdone
    · rw [hcompleted, List.map_map]
      exact hlast
    · rw [hx.output.events]
      exact (hevents.trans (List.nil_append _)).trans
        (filterMap_event? hparts hitems hperm horder)
    · refine Finmap.ext_lookup fun id => ?_
      have hid := hx.pending id
      rw [show ((d.receive (Frame.stream e fs)).withBuffer []).messages = d.messages from rfl,
        hmessages] at hid
      simpa using hid
    · rw [hx.stats]
      refine herrors.trans ?_
      rw [List.countP_eq_zero.mpr fun f hf => by simp [(hgood f hf).2]]
      rfl

/-- What has been encoded is delivered: for messages with distinct ids and any stream items,
for every interleaving of their frames and every way of cutting the bytes. -/
theorem feedAll_roundTrip (e : Endian) {originals : List Outgoing} {items : List StreamItem}
    {streamFrames : List Frame} (hids : (originals.map Outgoing.messageId).Nodup)
    (hsend : ∀ m ∈ originals, m.Sendable)
    (hstream : items.mapM (StreamItem.encode e) = .ok streamFrames) :
    ∃ messageFrames, originals.mapM (Outgoing.encode e) = .ok messageFrames ∧
      ∀ fs : List Frame, fs.Perm (messageFrames.flatten ++ streamFrames) →
        fs.filter Frame.isStream = streamFrames →
        ∀ ms chunks, input chunks = (Encoder.serializeFrames e fs).flatten →
          ∃ d, feedAll e (fresh ms) chunks = .normal d ∧ d.Delivered e originals items fs := by
  obtain ⟨messageFrames, hencode, hparts⟩ := encode_originals e hsend
  exact ⟨messageFrames, hencode, fun fs hperm horder ms chunks hinput =>
    feedAll_interleaved hids hsend hparts (encode_items hstream) hperm horder ms hinput⟩

/-- Two messages and a stream start, from a little-endian host. -/
theorem feedAll_roundTrip_two :
    ∃ messageFrames, [⟨7, [0x41], true⟩, ⟨9, [0x42, 0x43], false⟩].mapM (Outgoing.encode .little) =
        .ok messageFrames ∧
      ∀ fs : List Frame,
        fs.Perm (messageFrames.flatten ++ [⟨⟨0x5A, 0x5C, 1, 2, 0, 16, 0, 0⟩,
          [3, 0, 0, 0, 0, 0, 0, 0, 2, 0, 0, 0, 0, 0, 0, 0]⟩]) →
        fs.filter Frame.isStream = [⟨⟨0x5A, 0x5C, 1, 2, 0, 16, 0, 0⟩,
          [3, 0, 0, 0, 0, 0, 0, 0, 2, 0, 0, 0, 0, 0, 0, 0]⟩] →
        ∀ ms chunks, input chunks = (Encoder.serializeFrames .little fs).flatten →
          ∃ d, feedAll .little (fresh ms) chunks = .normal d ∧
            d.Delivered .little [⟨7, [0x41], true⟩, ⟨9, [0x42, 0x43], false⟩] [.start 3 2] fs := by
  refine feedAll_roundTrip .little (by decide) ?_ (by decide +kernel)
  rintro m (_ | ⟨_, _ | ⟨_, ⟨⟩⟩⟩)
  · exact ⟨by simp, by decide⟩
  · exact ⟨by simp, by decide⟩

end Decoder

end DarwinCore.Protocol
