import DarwinCore.Library.ByteOrder

/-! # Frames -/

/-! ## `CalculateCRC32`

The table-driven CRC-32 of `protocol.cpp`. -/

namespace DarwinCore.Protocol

/-- `CRC_TABLE`. -/
def crcTable : List UInt32 := [
    0x00000000, 0x77073096, 0xee0e612c, 0x990951ba, 0x076dc419, 0x706af48f, 0xe963a535, 0x9e6495a3,
    0x0edb8832, 0x79dcb8a4, 0xe0d5e91e, 0x97d2d988, 0x09b64c2b, 0x7eb17cbd, 0xe7b82d07, 0x90bf1d91,
    0x1db71064, 0x6ab020f2, 0xf3b97148, 0x84be41de, 0x1adad47d, 0x6ddde4eb, 0xf4d4b551, 0x83d385c7,
    0x136c9856, 0x646ba8c0, 0xfd62f97a, 0x8a65c9ec, 0x14015c4f, 0x63066cd9, 0xfa0f3d63, 0x8d080df5,
    0x3b6e20c8, 0x4c69105e, 0xd56041e4, 0xa2677172, 0x3c03e4d1, 0x4b04d447, 0xd20d85fd, 0xa50ab56b,
    0x35b5a8fa, 0x42b2986c, 0xdbbbc9d6, 0xacbcf940, 0x32d86ce3, 0x45df5c75, 0xdcd60dcf, 0xabd13d59,
    0x26d930ac, 0x51de003a, 0xc8d75180, 0xbfd06116, 0x21b4f4b5, 0x56b3c423, 0xcfba9599, 0xb8bda50f,
    0x2802b89e, 0x5f058808, 0xc60cd9b2, 0xb10be924, 0x2f6f7c87, 0x58684c11, 0xc1611dab, 0xb6662d3d,
    0x76dc4190, 0x01db7106, 0x98d220bc, 0xefd5102a, 0x71b18589, 0x06b6b51f, 0x9fbfe4a5, 0xe8b8d433,
    0x7807c9a2, 0x0f00f934, 0x9609a88e, 0xe10e9818, 0x7f6a0dbb, 0x086d3d2d, 0x91646c97, 0xe6635c01,
    0x6b6b51f4, 0x1c6c6162, 0x856530d8, 0xf262004e, 0x6c0695ed, 0x1b01a57b, 0x8208f4c1, 0xf50fc457,
    0x65b0d9c6, 0x12b7e950, 0x8bbeb8ea, 0xfcb9887c, 0x62dd1ddf, 0x15da2d49, 0x8cd37cf3, 0xfbd44c65,
    0x4db26158, 0x3ab551ce, 0xa3bc0074, 0xd4bb30e2, 0x4adfa541, 0x3dd895d7, 0xa4d1c46d, 0xd3d6f4fb,
    0x4369e96a, 0x346ed9fc, 0xad678846, 0xda60b8d0, 0x44042d73, 0x33031de5, 0xaa0a4c5f, 0xdd0d7cc9,
    0x5005713c, 0x270241aa, 0xbe0b1010, 0xc90c2086, 0x5768b525, 0x206f85b3, 0xb966d409, 0xce61e49f,
    0x5edef90e, 0x29d9c998, 0xb0d09822, 0xc7d7a8b4, 0x59b33d17, 0x2eb40d81, 0xb7bd5c3b, 0xc0ba6cad,
    0xedb88320, 0x9abfb3b6, 0x03b6e20c, 0x74b1d29a, 0xead54739, 0x9dd277af, 0x04db2615, 0x73dc1683,
    0xe3630b12, 0x94643b84, 0x0d6d6a3e, 0x7a6a5aa8, 0xe40ecf0b, 0x9309ff9d, 0x0a00ae27, 0x7d079eb1,
    0xf00f9344, 0x8708a3d2, 0x1e01f268, 0x6906c2fe, 0xf762575d, 0x806567cb, 0x196c3671, 0x6e6b06e7,
    0xfed41b76, 0x89d32be0, 0x10da7a5a, 0x67dd4acc, 0xf9b9df6f, 0x8ebeeff9, 0x17b7be43, 0x60b08ed5,
    0xd6d6a3e8, 0xa1d1937e, 0x38d8c2c4, 0x4fdff252, 0xd1bb67f1, 0xa6bc5767, 0x3fb506dd, 0x48b2364b,
    0xd80d2bda, 0xaf0a1b4c, 0x36034af6, 0x41047a60, 0xdf60efc3, 0xa867df55, 0x316e8eef, 0x4669be79,
    0xcb61b38c, 0xbc66831a, 0x256fd2a0, 0x5268e236, 0xcc0c7795, 0xbb0b4703, 0x220216b9, 0x5505262f,
    0xc5ba3bbe, 0xb2bd0b28, 0x2bb45a92, 0x5cb36a04, 0xc2d7ffa7, 0xb5d0cf31, 0x2cd99e8b, 0x5bdeae1d,
    0x9b64c2b0, 0xec63f226, 0x756aa39c, 0x026d930a, 0x9c0906a9, 0xeb0e363f, 0x72076785, 0x05005713,
    0x95bf4a82, 0xe2b87a14, 0x7bb12bae, 0x0cb61b38, 0x92d28e9b, 0xe5d5be0d, 0x7cdcefb7, 0x0bdbdf21,
    0x86d3d2d4, 0xf1d4e242, 0x68ddb3f8, 0x1fda836e, 0x81be16cd, 0xf6b9265b, 0x6fb077e1, 0x18b74777,
    0x88085ae6, 0xff0f6a70, 0x66063bca, 0x11010b5c, 0x8f659eff, 0xf862ae69, 0x616bffd3, 0x166ccf45,
    0xa00ae278, 0xd70dd2ee, 0x4e048354, 0x3903b3c2, 0xa7672661, 0xd06016f7, 0x4969474d, 0x3e6e77db,
    0xaed16a4a, 0xd9d65adc, 0x40df0b66, 0x37d83bf0, 0xa9bcae53, 0xdebb9ec5, 0x47b2cf7f, 0x30b5ffe9,
    0xbdbdf21c, 0xcabac28a, 0x53b39330, 0x24b4a3a6, 0xbad03605, 0xcdd70693, 0x54de5729, 0x23d967bf,
    0xb3667a2e, 0xc4614ab8, 0x5d681b02, 0x2a6f2b94, 0xb40bbe37, 0xc30c8ea1, 0x5a05df1b, 0x2d02ef8d]

/-- One iteration of the loop: the index is masked to eight bits, so the table lookup never
leaves the table. -/
def crcStep (crc : UInt32) (b : UInt8) : UInt32 :=
  crcTable.getD ((crc ^^^ b.toUInt32) &&& 0xFF).toNat 0 ^^^ (crc >>> 8)

def calculateCrc32 (data : List UInt8) : UInt32 :=
  data.foldl crcStep 0xFFFFFFFF ^^^ 0xFFFFFFFF

/-- The check value of the catalogued CRC-32, over the digits one to nine. -/
example : calculateCrc32 [0x31, 0x32, 0x33, 0x34, 0x35, 0x36, 0x37, 0x38, 0x39] = 0xCBF43926 := by
  decide +kernel

/-! ## Wire structures

The packed structures of `protocol.h` and `Frame::Serialize` / `Frame::Deserialize`.
Multi-byte fields are copied as they stand in memory, so every layout depends on the byte
order of the host that runs the code. -/

open ByteOrder

/-! ### Constants -/

def magic1 : UInt8 := 0x5A
def magic2 : UInt8 := 0x5C
def version : UInt8 := 0x01

/-- `MAX_FRAME_PAYLOAD`, 256 KB. -/
def maxFramePayload : ℕ := 256 * 1024

/-- `MAX_MESSAGE_SLICES`. -/
def maxMessageSlices : UInt16 := 65535

/-- `FLAG_CRC32`: the payload ends with a CRC-32. -/
def flagCrc32 : UInt16 := 0x0001

/-- `sizeof(FrameHeader)`, fixed by a static assertion. -/
def frameHeaderSize : ℕ := 16

/-- `sizeof(MessageHeader)`. -/
def messageHeaderSize : ℕ := 12

/-- `sizeof(StreamStartPayload)`. -/
def streamStartSize : ℕ := 16

/-- `sizeof(StreamChunkPayload)`. -/
def streamChunkSize : ℕ := 16

/-- `sizeof(StreamEndPayload)`. -/
def streamEndSize : ℕ := 12

/-- `sizeof(uint32_t)`, the size of the CRC trailer. -/
def crcSize : ℕ := 4

/-- The exception `ProtocolError` with its text. -/
structure ProtocolError where
  what : String
  deriving DecidableEq, Repr

/-! ### Frame types -/

/-- `enum class FrameType : uint8_t`. A byte cast to it need not be one of the named values. -/
inductive FrameType where
  | message
  | streamStart
  | streamChunk
  | streamEnd
  | unknown (value : UInt8)
  deriving DecidableEq, Repr

/-- `static_cast<FrameType>`. -/
def FrameType.ofByte (b : UInt8) : FrameType :=
  if b = 0x01 then .message
  else if b = 0x02 then .streamStart
  else if b = 0x03 then .streamChunk
  else if b = 0x04 then .streamEnd
  else .unknown b

/-- `static_cast<uint8_t>`. -/
def FrameType.toByte : FrameType → UInt8
  | message => 0x01
  | streamStart => 0x02
  | streamChunk => 0x03
  | streamEnd => 0x04
  | unknown value => value

/-- The size of the structure the payload of a frame starts with. -/
def FrameType.subHeaderSize : FrameType → ℕ
  | message => messageHeaderSize
  | streamStart => streamStartSize
  | streamChunk => streamChunkSize
  | streamEnd => streamEndSize
  | unknown _ => 0

/-! ### Integers in memory -/

def storeU16 (e : Endian) (v : UInt16) : List UInt8 := e.encode 2 v.toNat
def storeU32 (e : Endian) (v : UInt32) : List UInt8 := e.encode 4 v.toNat
def storeU64 (e : Endian) (v : UInt64) : List UInt8 := e.encode 8 v.toNat

def loadU16 (e : Endian) (mem : List UInt8) (off : ℕ) : UInt16 := UInt16.ofNat (e.load 2 mem off)
def loadU32 (e : Endian) (mem : List UInt8) (off : ℕ) : UInt32 := UInt32.ofNat (e.load 4 mem off)
def loadU64 (e : Endian) (mem : List UInt8) (off : ℕ) : UInt64 := UInt64.ofNat (e.load 8 mem off)

/-! ### Packed structures -/

structure FrameHeader where
  magic1 : UInt8
  magic2 : UInt8
  version : UInt8
  type : UInt8
  flags : UInt16
  payloadLen : UInt32
  reserved : UInt32
  reserved2 : UInt16
  deriving DecidableEq, Repr

/-- The sixteen bytes of the header in memory. -/
def FrameHeader.bytes (e : Endian) (h : FrameHeader) : List UInt8 :=
  [h.magic1, h.magic2, h.version, h.type] ++ storeU16 e h.flags ++ storeU32 e h.payloadLen ++
    storeU32 e h.reserved ++ storeU16 e h.reserved2

/-- Memory read through a `FrameHeader` pointer. -/
def FrameHeader.load (e : Endian) (mem : List UInt8) : FrameHeader where
  magic1 := mem.getD 0 0
  magic2 := mem.getD 1 0
  version := mem.getD 2 0
  type := mem.getD 3 0
  flags := loadU16 e mem 4
  payloadLen := loadU32 e mem 6
  reserved := loadU32 e mem 10
  reserved2 := loadU16 e mem 14

structure MessageHeader where
  messageId : UInt64
  totalSlices : UInt16
  sequence : UInt16
  deriving DecidableEq, Repr

def MessageHeader.bytes (e : Endian) (h : MessageHeader) : List UInt8 :=
  storeU64 e h.messageId ++ storeU16 e h.totalSlices ++ storeU16 e h.sequence

def MessageHeader.load (e : Endian) (mem : List UInt8) : MessageHeader where
  messageId := loadU64 e mem 0
  totalSlices := loadU16 e mem 8
  sequence := loadU16 e mem 10

structure StreamStartPayload where
  streamId : UInt64
  totalSize : UInt64
  deriving DecidableEq, Repr

def StreamStartPayload.bytes (e : Endian) (p : StreamStartPayload) : List UInt8 :=
  storeU64 e p.streamId ++ storeU64 e p.totalSize

def StreamStartPayload.load (e : Endian) (mem : List UInt8) : StreamStartPayload where
  streamId := loadU64 e mem 0
  totalSize := loadU64 e mem 8

structure StreamChunkPayload where
  streamId : UInt64
  offset : UInt64
  deriving DecidableEq, Repr

def StreamChunkPayload.bytes (e : Endian) (p : StreamChunkPayload) : List UInt8 :=
  storeU64 e p.streamId ++ storeU64 e p.offset

def StreamChunkPayload.load (e : Endian) (mem : List UInt8) : StreamChunkPayload where
  streamId := loadU64 e mem 0
  offset := loadU64 e mem 8

structure StreamEndPayload where
  streamId : UInt64
  crc32 : UInt32
  deriving DecidableEq, Repr

def StreamEndPayload.bytes (e : Endian) (p : StreamEndPayload) : List UInt8 :=
  storeU64 e p.streamId ++ storeU32 e p.crc32

def StreamEndPayload.load (e : Endian) (mem : List UInt8) : StreamEndPayload where
  streamId := loadU64 e mem 0
  crc32 := loadU32 e mem 8

/-! ### Frames -/

structure Frame where
  header : FrameHeader
  payload : List UInt8
  deriving DecidableEq, Repr

def Frame.serialize (e : Endian) (f : Frame) : List UInt8 :=
  f.header.bytes e ++ f.payload

/-- `Frame::Deserialize`: what it returns, and what is then in `out`. -/
def Frame.deserialize (e : Endian) (data : List UInt8) (out : Frame) : Bool × Frame :=
  if data.length < frameHeaderSize then (false, out)
  else
    let out := { out with header := FrameHeader.load e data }
    if out.header.magic1 ≠ magic1 ∨ out.header.magic2 ≠ magic2 then (false, out)
    else if out.header.version ≠ version then (false, out)
    else
      let expectedSize := frameHeaderSize + out.header.payloadLen.toNat
      if data.length < expectedSize then (false, out)
      else if out.header.payloadLen.toNat > 0 then
        (true, { out with payload := (data.take expectedSize).drop frameHeaderSize })
      else (true, { out with payload := [] })

/-! ## `Encoder`

Frames as the encoder builds them on a host of byte order `e`. A `throw` is an error
result; a `ProtocolError` carries the text of the source. -/

namespace Encoder

/-- `Encoder::MakeFrame`. The length check precedes the CRC trailer. -/
def makeFrame (e : Endian) (type : FrameType) (payload : List UInt8) (crc : Bool) :
    Except ProtocolError Frame :=
  if payload.length > maxFramePayload then
    .error ⟨"payload too large"⟩
  else
    let header : FrameHeader :=
      { magic1 := magic1, magic2 := magic2, version := version, type := type.toByte
        flags := if crc then flagCrc32 else 0
        payloadLen := UInt32.ofNat payload.length
        reserved := 0, reserved2 := 0 }
    if crc then
      let withTrailer := payload ++ storeU32 e (calculateCrc32 payload)
      .ok ⟨{ header with payloadLen := UInt32.ofNat withTrailer.length }, withTrailer⟩
    else
      .ok ⟨header, payload⟩

/-- The local `slice_payload` of `EncodeMessage`. -/
def slicePayload (enableCrc : Bool) : ℕ :=
  maxFramePayload - messageHeaderSize - (if enableCrc then crcSize else 0)

/-- The local `total` of `EncodeMessage`, after its cast to sixteen bits. -/
def sliceTotal (length : ℕ) (enableCrc : Bool) : UInt16 :=
  UInt16.ofNat ((length + slicePayload enableCrc - 1) / slicePayload enableCrc)

/-- The loop body of `EncodeMessage` for slice `i`. -/
def encodeSlice (e : Endian) (messageId : UInt64) (data : List UInt8) (enableCrc : Bool)
    (total : UInt16) (i : ℕ) : Except ProtocolError Frame :=
  let offset := i * slicePayload enableCrc
  let chunk := min (slicePayload enableCrc) (data.length - offset)
  let header : MessageHeader :=
    { messageId := messageId, totalSlices := total, sequence := UInt16.ofNat i }
  makeFrame e .message (header.bytes e ++ (data.drop offset).take chunk) enableCrc

def encodeMessage (e : Endian) (messageId : UInt64) (data : List UInt8) (enableCrc : Bool) :
    Except ProtocolError (List Frame) :=
  let total := sliceTotal data.length enableCrc
  if total = 0 ∨ total > maxMessageSlices then
    .error ⟨"message too large"⟩
  else
    (List.range total.toNat).mapM (encodeSlice e messageId data enableCrc total)

def encodeStreamStart (e : Endian) (streamId totalSize : UInt64) : Except ProtocolError Frame :=
  makeFrame e .streamStart (StreamStartPayload.bytes e ⟨streamId, totalSize⟩) false

def encodeStreamChunk (e : Endian) (streamId offset : UInt64) (data : List UInt8) :
    Except ProtocolError Frame :=
  if data.length + streamChunkSize > maxFramePayload then
    .error ⟨"stream chunk too large"⟩
  else
    makeFrame e .streamChunk (StreamChunkPayload.bytes e ⟨streamId, offset⟩ ++ data) false

def encodeStreamEnd (e : Endian) (streamId : UInt64) (crc32 : UInt32) :
    Except ProtocolError Frame :=
  makeFrame e .streamEnd (StreamEndPayload.bytes e ⟨streamId, crc32⟩) false

def serializeFrames (e : Endian) (frames : List Frame) : List (List UInt8) :=
  frames.map (Frame.serialize e)

end Encoder

end DarwinCore.Protocol
