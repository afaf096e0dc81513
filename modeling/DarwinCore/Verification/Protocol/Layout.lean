import DarwinCore.Model.Protocol.Frame

/-! # Round trips of the packed structures -/

namespace DarwinCore.Protocol

open ByteOrder

/-! ## Sizes -/

@[simp] theorem length_storeU16 (e : Endian) (v : UInt16) : (storeU16 e v).length = 2 := by
  simp [storeU16]

@[simp] theorem length_storeU32 (e : Endian) (v : UInt32) : (storeU32 e v).length = 4 := by
  simp [storeU32]

@[simp] theorem length_storeU64 (e : Endian) (v : UInt64) : (storeU64 e v).length = 8 := by
  simp [storeU64]

@[simp] theorem FrameHeader.length_bytes (e : Endian) (h : FrameHeader) :
    (h.bytes e).length = frameHeaderSize := by
  simp [FrameHeader.bytes, frameHeaderSize]

@[simp] theorem MessageHeader.length_bytes (e : Endian) (h : MessageHeader) :
    (h.bytes e).length = messageHeaderSize := by
  simp [MessageHeader.bytes, messageHeaderSize]

@[simp] theorem StreamStartPayload.length_bytes (e : Endian) (p : StreamStartPayload) :
    (p.bytes e).length = streamStartSize := by
  simp [StreamStartPayload.bytes, streamStartSize]

@[simp] theorem StreamChunkPayload.length_bytes (e : Endian) (p : StreamChunkPayload) :
    (p.bytes e).length = streamChunkSize := by
  simp [StreamChunkPayload.bytes, streamChunkSize]

@[simp] theorem StreamEndPayload.length_bytes (e : Endian) (p : StreamEndPayload) :
    (p.bytes e).length = streamEndSize := by
  simp [StreamEndPayload.bytes, streamEndSize]

@[simp] theorem Frame.length_serialize (e : Endian) (f : Frame) :
    (f.serialize e).length = frameHeaderSize + f.payload.length := by
  simp [Frame.serialize]

/-! ## Loads of single fields -/

theorem loadU16_store (e : Endian) (v : UInt16) (rest : List UInt8) :
    loadU16 e (storeU16 e v ++ rest) 0 = v := by
  have hv : v.toNat < 256 ^ 2 := v.toNat_lt
  rw [loadU16, storeU16, e.load_encode hv, UInt16.ofNat_toNat]

theorem loadU32_store (e : Endian) (v : UInt32) (rest : List UInt8) :
    loadU32 e (storeU32 e v ++ rest) 0 = v := by
  have hv : v.toNat < 256 ^ 4 := v.toNat_lt
  rw [loadU32, storeU32, e.load_encode hv, UInt32.ofNat_toNat]

theorem loadU64_store (e : Endian) (v : UInt64) (rest : List UInt8) :
    loadU64 e (storeU64 e v ++ rest) 0 = v := by
  have hv : v.toNat < 256 ^ 8 := v.toNat_lt
  rw [loadU64, storeU64, e.load_encode hv, UInt64.ofNat_toNat]

@[simp] theorem loadU16_cons (e : Endian) (b : UInt8) (rest : List UInt8) (off : ℕ) :
    loadU16 e (b :: rest) (off + 1) = loadU16 e rest off := rfl

@[simp] theorem loadU32_cons (e : Endian) (b : UInt8) (rest : List UInt8) (off : ℕ) :
    loadU32 e (b :: rest) (off + 1) = loadU32 e rest off := rfl

section Skip

variable (e : Endian) (front rest : List UInt8) {off : ℕ}

theorem loadU16_skip (h : front.length ≤ off) :
    loadU16 e (front ++ rest) off = loadU16 e rest (off - front.length) := by
  rw [loadU16, e.load_append_right 2 front rest h]
  rfl

theorem loadU32_skip (h : front.length ≤ off) :
    loadU32 e (front ++ rest) off = loadU32 e rest (off - front.length) := by
  rw [loadU32, e.load_append_right 4 front rest h]
  rfl

theorem loadU64_skip (h : front.length ≤ off) :
    loadU64 e (front ++ rest) off = loadU64 e rest (off - front.length) := by
  rw [loadU64, e.load_append_right 8 front rest h]
  rfl

theorem loadU16_inside (h : off + 2 ≤ front.length) :
    loadU16 e (front ++ rest) off = loadU16 e front off := by
  rw [loadU16, e.load_append_left 2 front rest h]
  rfl

theorem loadU32_inside (h : off + 4 ≤ front.length) :
    loadU32 e (front ++ rest) off = loadU32 e front off := by
  rw [loadU32, e.load_append_left 4 front rest h]
  rfl

theorem loadU64_inside (h : off + 8 ≤ front.length) :
    loadU64 e (front ++ rest) off = loadU64 e front off := by
  rw [loadU64, e.load_append_left 8 front rest h]
  rfl

end Skip

/-! ## Structures read back -/

theorem FrameHeader.load_bytes (e : Endian) (h : FrameHeader) (rest : List UInt8) :
    FrameHeader.load e (h.bytes e ++ rest) = h := by
  cases h
  simp [FrameHeader.load, FrameHeader.bytes, loadU16_skip, loadU32_skip, loadU16_store,
    loadU32_store]

theorem MessageHeader.load_bytes (e : Endian) (h : MessageHeader) (rest : List UInt8) :
    MessageHeader.load e (h.bytes e ++ rest) = h := by
  cases h
  simp [MessageHeader.load, MessageHeader.bytes, loadU16_skip, loadU16_store, loadU64_store]

theorem StreamStartPayload.load_bytes (e : Endian) (p : StreamStartPayload) (rest : List UInt8) :
    StreamStartPayload.load e (p.bytes e ++ rest) = p := by
  cases p
  simp [StreamStartPayload.load, StreamStartPayload.bytes, loadU64_skip, loadU64_store]

theorem StreamChunkPayload.load_bytes (e : Endian) (p : StreamChunkPayload) (rest : List UInt8) :
    StreamChunkPayload.load e (p.bytes e ++ rest) = p := by
  cases p
  simp [StreamChunkPayload.load, StreamChunkPayload.bytes, loadU64_skip, loadU64_store]

theorem StreamEndPayload.load_bytes (e : Endian) (p : StreamEndPayload) (rest : List UInt8) :
    StreamEndPayload.load e (p.bytes e ++ rest) = p := by
  cases p
  simp [StreamEndPayload.load, StreamEndPayload.bytes, loadU32_skip, loadU32_store,
    loadU64_store]

/-! ## Bytes given back -/

section Store

variable (e : Endian) {mem : List UInt8} {off : ℕ}

theorem storeU16_load (h : off + 2 ≤ mem.length) :
    storeU16 e (loadU16 e mem off) = (mem.drop off).take 2 := by
  have hlt : e.load 2 mem off < 2 ^ 16 := e.load_lt 2 mem off
  rw [storeU16, loadU16, UInt16.toNat_ofNat_of_lt' hlt, e.encode_load h]

theorem storeU32_load (h : off + 4 ≤ mem.length) :
    storeU32 e (loadU32 e mem off) = (mem.drop off).take 4 := by
  have hlt : e.load 4 mem off < 2 ^ 32 := e.load_lt 4 mem off
  rw [storeU32, loadU32, UInt32.toNat_ofNat_of_lt' hlt, e.encode_load h]

end Store

theorem FrameHeader.bytes_load (e : Endian) {mem : List UInt8} (h : frameHeaderSize ≤ mem.length) :
    (FrameHeader.load e mem).bytes e = mem.take frameHeaderSize := by
  rw [frameHeaderSize] at h ⊢
  have hbytes : [mem.getD 0 0, mem.getD 1 0, mem.getD 2 0, mem.getD 3 0] = mem.take 4 := by
    match mem, h with
    | _ :: _ :: _ :: _ :: _, _ => rfl
  rw [FrameHeader.bytes, FrameHeader.load]
  simp only [hbytes]
  rw [storeU16_load e (by omega), storeU32_load e (by omega), storeU32_load e (by omega),
    storeU16_load e (by omega), ← List.take_add, ← List.take_add, ← List.take_add, ← List.take_add]

/-! ## Reads that ignore what follows -/

theorem FrameHeader.load_append (e : Endian) {mem : List UInt8} (rest : List UInt8)
    (h : frameHeaderSize ≤ mem.length) :
    FrameHeader.load e (mem ++ rest) = FrameHeader.load e mem := by
  rw [frameHeaderSize] at h
  have hget : ∀ i, i < 4 → (mem ++ rest).getD i 0 = mem.getD i 0 := by
    intro i hi
    rw [List.getD_eq_getElem?_getD, List.getElem?_append_left (by omega),
      ← List.getD_eq_getElem?_getD]
  rw [FrameHeader.load, FrameHeader.load, hget 0 (by decide), hget 1 (by decide),
    hget 2 (by decide), hget 3 (by decide), loadU16_inside e mem rest (by omega),
    loadU32_inside e mem rest (by omega), loadU32_inside e mem rest (by omega),
    loadU16_inside e mem rest (by omega)]

theorem MessageHeader.load_append (e : Endian) {mem : List UInt8} (rest : List UInt8)
    (h : messageHeaderSize ≤ mem.length) :
    MessageHeader.load e (mem ++ rest) = MessageHeader.load e mem := by
  rw [messageHeaderSize] at h
  rw [MessageHeader.load, MessageHeader.load, loadU64_inside e mem rest (by omega),
    loadU16_inside e mem rest (by omega), loadU16_inside e mem rest (by omega)]

theorem StreamStartPayload.load_append (e : Endian) {mem : List UInt8} (rest : List UInt8)
    (h : streamStartSize ≤ mem.length) :
    StreamStartPayload.load e (mem ++ rest) = StreamStartPayload.load e mem := by
  rw [streamStartSize] at h
  rw [StreamStartPayload.load, StreamStartPayload.load, loadU64_inside e mem rest (by omega),
    loadU64_inside e mem rest (by omega)]

theorem StreamChunkPayload.load_append (e : Endian) {mem : List UInt8} (rest : List UInt8)
    (h : streamChunkSize ≤ mem.length) :
    StreamChunkPayload.load e (mem ++ rest) = StreamChunkPayload.load e mem := by
  rw [streamChunkSize] at h
  rw [StreamChunkPayload.load, StreamChunkPayload.load, loadU64_inside e mem rest (by omega),
    loadU64_inside e mem rest (by omega)]

theorem StreamEndPayload.load_append (e : Endian) {mem : List UInt8} (rest : List UInt8)
    (h : streamEndSize ≤ mem.length) :
    StreamEndPayload.load e (mem ++ rest) = StreamEndPayload.load e mem := by
  rw [streamEndSize] at h
  rw [StreamEndPayload.load, StreamEndPayload.load, loadU64_inside e mem rest (by omega),
    loadU32_inside e mem rest (by omega)]

/-! ## A sample -/

/-- A slice of message 1, without trailer, from a little-endian host. -/
def sliceFrame (total sequence : UInt16) (data : List UInt8) : Frame :=
  let payload := MessageHeader.bytes .little ⟨1, total, sequence⟩ ++ data
  { header := { magic1 := magic1, magic2 := magic2, version := version
                type := FrameType.message.toByte, flags := 0
                payloadLen := UInt32.ofNat payload.length, reserved := 0, reserved2 := 0 }
    payload := payload }

end DarwinCore.Protocol
