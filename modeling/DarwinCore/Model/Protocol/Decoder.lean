import DarwinCore.Library.TransitionSystem
import DarwinCore.Model.Protocol.Frame
import Mathlib.Data.Finmap

/-! # `Decoder` -/

/-! ## `Decoder`

The streaming decoder on a host of byte order `e`. Each iteration of the loop of
`TryDecode` is one `turn`; a turn reports the parts of the payload it dereferences and the
slot it indexes, so that memory safety can be stated. Undefined behaviour (a read past the
end of the buffer, a range whose end precedes its begin, an index outside the slot array)
ends a turn in a fault. -/

namespace DarwinCore.Protocol

open ByteOrder

structure MessageComplete where
  messageId : UInt64
  data : List UInt8
  deriving DecidableEq, Repr

/-- `StreamEvent`, with the defaults of its declaration. -/
structure StreamEvent where
  type : FrameType
  streamId : UInt64 := 0
  offset : UInt64 := 0
  totalSize : UInt64 := 0
  crc32 : UInt32 := 0
  data : List UInt8 := []
  deriving DecidableEq, Repr

/-- `DecoderStats`, less the two fields that `GetStats` computes from the decoder. -/
structure DecoderStats where
  framesReceived : ℕ := 0
  messagesCompleted : ℕ := 0
  streamEvents : ℕ := 0
  bytesReceived : ℕ := 0
  crcErrors : ℕ := 0
  timeoutCleanups : ℕ := 0
  deriving DecidableEq, Repr

/-- `DecoderStats` as `GetStats` returns it. -/
structure DecoderReport extends DecoderStats where
  pendingMessages : ℕ
  bufferSize : ℕ
  deriving DecidableEq, Repr

structure MessageAssembly where
  total : UInt16 := 0
  slices : List (List UInt8) := []
  received : UInt16 := 0
  firstSeen : ℕ := 0
  deriving DecidableEq, Repr

structure Decoder where
  buffer : List UInt8 := []
  messages : Finmap fun _ : UInt64 => MessageAssembly := ∅
  completedMessages : List MessageComplete := []
  streamEvents : List StreamEvent := []
  messageTimeoutMs : UInt32 := 30000
  stats : DecoderStats := {}

/-! ### The front of the buffer -/

/-- What the checks at the top of the loop make of the front of the buffer. -/
inductive Front where
  | incomplete
  | rejected (error : ProtocolError)
  | complete (header : FrameHeader)
  deriving DecidableEq, Repr

/-- The checks on magic numbers, version, length and completeness, in their order. -/
def front (e : Endian) (buffer : List UInt8) : Front :=
  if buffer.length < frameHeaderSize then .incomplete
  else
    let hdr := FrameHeader.load e buffer
    if hdr.magic1 ≠ magic1 ∨ hdr.magic2 ≠ magic2 then .rejected ⟨"bad magic"⟩
    else if hdr.version ≠ version then .rejected ⟨"unsupported version"⟩
    else if hdr.payloadLen.toNat > maxFramePayload then .rejected ⟨"payload too large"⟩
    else if buffer.length < frameHeaderSize + hdr.payloadLen.toNat then .incomplete
    else .complete hdr

namespace FrameHeader

/-- The local `frame_size`. -/
def frameSize (h : FrameHeader) : ℕ := frameHeaderSize + h.payloadLen.toNat

/-- The CRC flag is set and the payload is long enough to hold the trailer. -/
def hasTrailer (h : FrameHeader) : Bool :=
  h.flags &&& flagCrc32 ≠ 0 && crcSize ≤ h.payloadLen.toNat

/-- The local `payload_data_len`. -/
def dataLen (h : FrameHeader) : ℕ :=
  if h.hasTrailer then h.payloadLen.toNat - crcSize else h.payloadLen.toNat

/-- The trailer is there and differs from the CRC of the data before it. -/
def crcMismatch (e : Endian) (h : FrameHeader) (payload : List UInt8) : Bool :=
  h.hasTrailer && loadU32 e payload h.dataLen ≠ calculateCrc32 (payload.take h.dataLen)

end FrameHeader

/-! ### One turn of the loop -/

/-- A use of memory whose bounds matter. -/
inductive Access where
  /-- Payload bytes `lo` up to `hi`, where the payload without its trailer has `limit`. -/
  | payload (lo hi limit : ℕ)
  /-- Slot `index` of an assembly that has `slots` slots. -/
  | slot (index slots : ℕ)
  deriving DecidableEq, Repr

/-- How a turn ends. -/
inductive Ending where
  | wait (d : Decoder)
  | next (d : Decoder)
  | throws (error : ProtocolError) (d : Decoder)
  | fault (d : Decoder)

structure Turn where
  accesses : List Access
  ending : Ending

/-- Change the state with which the loop goes on. -/
def Ending.mapNext (f : Decoder → Decoder) : Ending → Ending
  | next d => next (f d)
  | ending => ending

def Turn.mapNext (f : Decoder → Decoder) (t : Turn) : Turn :=
  ⟨t.accesses, t.ending.mapNext f⟩

namespace Decoder

/-- `stats_.frames_received++`. -/
def countFrame (d : Decoder) : Decoder :=
  { d with stats := { d.stats with framesReceived := d.stats.framesReceived + 1 } }

/-- `stats_.crc_errors++`. -/
def countCrcError (d : Decoder) : Decoder :=
  { d with stats := { d.stats with crcErrors := d.stats.crcErrors + 1 } }

/-- `stats_.stream_events++`. -/
def countEvent (d : Decoder) : Decoder :=
  { d with stats := { d.stats with streamEvents := d.stats.streamEvents + 1 } }

/-- The tail of the `Message` branch: deliver the message when the counter says so. -/
def finishSlice (d : Decoder) (id : UInt64) (m : MessageAssembly) : Decoder :=
  if m.received = m.total then
    { d with
      completedMessages := d.completedMessages ++ [⟨id, m.slices.flatten⟩]
      messages := d.messages.erase id
      stats := { d.stats with messagesCompleted := d.stats.messagesCompleted + 1 } }
  else
    { d with messages := d.messages.insert id m }

/-- `messages_[id]`, sized by the first frame that opens it. -/
def assembly (now : ℕ) (d : Decoder) (mh : MessageHeader) : MessageAssembly :=
  let m := (d.messages.lookup mh.messageId).getD {}
  if m.slices = [] then
    { m with
      total := mh.totalSlices
      slices := List.replicate mh.totalSlices.toNat []
      firstSeen := now }
  else m

/-- The `Message` branch. An empty slot counts as not yet received. -/
def onMessage (e : Endian) (now : ℕ) (d : Decoder) (payload : List UInt8) (dataLen : ℕ) : Turn :=
  let header := Access.payload 0 messageHeaderSize dataLen
  if payload.length < messageHeaderSize then ⟨[header], .fault d⟩
  else
    let mh := MessageHeader.load e payload
    if mh.sequence ≥ mh.totalSlices then ⟨[header], .throws ⟨"bad slice index"⟩ d⟩
    else
      let m := d.assembly now mh
      let i := mh.sequence.toNat
      let slot := Access.slot i m.slices.length
      if m.slices.length ≤ i then ⟨[header, slot], .fault d⟩
      else if m.slices.getD i [] = [] then
        let range := Access.payload messageHeaderSize dataLen dataLen
        if dataLen < messageHeaderSize then ⟨[header, slot, range], .fault d⟩
        else
          let data := (payload.drop messageHeaderSize).take (dataLen - messageHeaderSize)
          let m' := { m with slices := m.slices.set i data, received := m.received + 1 }
          ⟨[header, slot, range], .next (d.finishSlice mh.messageId m')⟩
      else ⟨[header, slot], .next (d.finishSlice mh.messageId m)⟩

/-- `stream_events_.push_back`. -/
def pushEvent (d : Decoder) (ev : StreamEvent) : Decoder :=
  { d with streamEvents := d.streamEvents ++ [ev] }

/-- The other branch. Only the three stream types read a sub-header. -/
def onStream (e : Endian) (d : Decoder) (type : FrameType) (payload : List UInt8)
    (dataLen : ℕ) : Turn :=
  let d := d.countEvent
  let header := Access.payload 0 type.subHeaderSize dataLen
  if payload.length < type.subHeaderSize then ⟨[header], .fault d⟩
  else
    match type with
    | .streamChunk =>
        let sc := StreamChunkPayload.load e payload
        let range := Access.payload streamChunkSize dataLen dataLen
        if dataLen < streamChunkSize then ⟨[header, range], .fault d⟩
        else
          let data := (payload.drop streamChunkSize).take (dataLen - streamChunkSize)
          ⟨[header, range], .next (d.pushEvent
            { type := type, streamId := sc.streamId, offset := sc.offset, data := data })⟩
    | .streamStart =>
        let ss := StreamStartPayload.load e payload
        ⟨[header], .next (d.pushEvent
          { type := type, streamId := ss.streamId, totalSize := ss.totalSize })⟩
    | .streamEnd =>
        let se := StreamEndPayload.load e payload
        ⟨[header], .next (d.pushEvent
          { type := type, streamId := se.streamId, crc32 := se.crc32 })⟩
    | type => ⟨[], .next (d.pushEvent { type := type })⟩

/-- `buffer_.erase` of the front frame. -/
def popFrame (d : Decoder) (hdr : FrameHeader) : Decoder :=
  { d with buffer := d.buffer.drop hdr.frameSize }

/-- The two branches on the frame type. -/
def onBody (e : Endian) (now : ℕ) (d : Decoder) (hdr : FrameHeader) (payload : List UInt8) :
    Turn :=
  let type := FrameType.ofByte hdr.type
  if type = .message then d.onMessage e now payload hdr.dataLen
  else d.onStream e type payload hdr.dataLen

/-- The body of the loop once a whole frame is there. -/
def onFrame (e : Endian) (now : ℕ) (d : Decoder) (hdr : FrameHeader) : Turn :=
  let payload := d.buffer.drop frameHeaderSize
  if hdr.crcMismatch e payload then ⟨[], .next (d.countFrame.countCrcError.popFrame hdr)⟩
  else (d.countFrame.onBody e now hdr payload).mapNext (popFrame · hdr)

/-- One iteration of the loop of `TryDecode`. -/
def turn (e : Endian) (now : ℕ) (d : Decoder) : Turn :=
  match front e d.buffer with
  | .incomplete => ⟨[], .wait d⟩
  | .rejected error => ⟨[], .throws error d⟩
  | .complete hdr => d.onFrame e now hdr

end Decoder

/-! ### Feeding -/

/-- How a call of `Feed` ends. -/
inductive FeedResult where
  | normal (d : Decoder)
  | error (error : ProtocolError) (d : Decoder)
  | fault (d : Decoder)

namespace Decoder

/-- At most `fuel` turns, the `i`-th at time `clock i`. -/
def decodeLoop (e : Endian) : ℕ → (ℕ → ℕ) → Decoder → FeedResult
  | 0, _, d => .normal d
  | fuel + 1, clock, d =>
      match (d.turn e (clock 0)).ending with
      | .wait d => .normal d
      | .next d => decodeLoop e fuel (fun i => clock (i + 1)) d
      | .throws error d => .error error d
      | .fault d => .fault d

/-- `Decoder::TryDecode`. Every turn but the last shortens the buffer, so that one turn more
than it has bytes is never used up (`tryDecode_eq`). -/
def tryDecode (e : Endian) (clock : ℕ → ℕ) (d : Decoder) : FeedResult :=
  decodeLoop e (d.buffer.length + 1) clock d

/-- The first two lines of `Decoder::Feed`. -/
def receive (d : Decoder) (data : List UInt8) : Decoder :=
  { d with
    buffer := d.buffer ++ data
    stats := { d.stats with bytesReceived := d.stats.bytesReceived + data.length } }

def feed (e : Endian) (clock : ℕ → ℕ) (d : Decoder) (data : List UInt8) : FeedResult :=
  (d.receive data).tryDecode e clock

def getStats (d : Decoder) : DecoderReport :=
  { d.stats with
    pendingMessages := d.messages.keys.card
    bufferSize := d.buffer.length }

/-- The constructor `Decoder::Decoder`. -/
def fresh (messageTimeoutMs : UInt32) : Decoder :=
  { messageTimeoutMs := messageTimeoutMs }

/-- One part of the input, and the clock while it is fed. -/
structure Chunk where
  clock : ℕ → ℕ
  data : List UInt8

/-- Successive calls of `Feed`, up to the first that does not return normally. -/
def feedAll (e : Endian) : Decoder → List Chunk → FeedResult
  | d, [] => .normal d
  | d, c :: rest =>
      match d.feed e c.clock c.data with
      | .normal d => feedAll e d rest
      | result => result

end Decoder

/-! ## A decoder in use

The caller feeds one decoder again and again, and goes on after a `ProtocolError`, as the
data handler of the echo server does. The loop of `TryDecode` is seen turn by turn. -/

/-- Between two calls of `Feed`, at the top of the loop, or after undefined behaviour. -/
inductive Phase where
  | idle (d : Decoder)
  | decoding (d : Decoder)
  | crashed (d : Decoder)

/-- Where a turn leads when the caller catches what it throws. -/
def Ending.phase : Ending → Phase
  | wait d => .idle d
  | next d => .decoding d
  | throws _ d => .idle d
  | fault d => .crashed d

/-- All the bytes fed so far, and where the decoder is. -/
structure Session where
  fed : List UInt8
  phase : Phase

inductive Session.Step (e : Endian) : Session → Session → Prop where
  | feed {fed d} (data : List UInt8) :
      Step e ⟨fed, .idle d⟩ ⟨fed ++ data, .decoding (d.receive data)⟩
  | turn {fed d} (now : ℕ) :
      Step e ⟨fed, .decoding d⟩ ⟨fed, (d.turn e now).ending.phase⟩

/-- A fresh decoder fed with anything. -/
def sessions (e : Endian) (messageTimeoutMs : UInt32) : TransitionSystem Session where
  init s := s = ⟨[], .idle (Decoder.fresh messageTimeoutMs)⟩
  step := Session.Step e

/-! ## The other functions of a decoder

What the caller does between two calls of `Feed`. `CleanupTimeoutMessages` is given the order in
which it meets the pending assemblies. Times are in nanoseconds. -/

namespace MessageAssembly

/-- The local `age`, in milliseconds. -/
def age (now : ℕ) (m : MessageAssembly) : ℤ :=
  ((now : ℤ) - m.firstSeen).tdiv 1000000

/-- `age >= message_timeout_ms_` -/
def isTimeout (timeoutMs : UInt32) (now : ℕ) (m : MessageAssembly) : Bool :=
  (timeoutMs.toNat : ℤ) ≤ m.age now

end MessageAssembly

namespace Decoder

/-- `GetMessage`, if it returns true. -/
def getMessage (d : Decoder) : Option (MessageComplete × Decoder) :=
  match d.completedMessages with
  | [] => none
  | message :: rest => some (message, { d with completedMessages := rest })

/-- `GetStreamEvent`, if it returns true. -/
def getStreamEvent (d : Decoder) : Option (StreamEvent × Decoder) :=
  match d.streamEvents with
  | [] => none
  | event :: rest => some (event, { d with streamEvents := rest })

/-- The loop body of `CleanupTimeoutMessages`, with the local `cleaned`. -/
def cleanupTurn (now : ℕ) (cleaned : ℕ) (d : Decoder) (id : UInt64) : ℕ × Decoder :=
  match d.messages.lookup id with
  | none => (cleaned, d)
  | some m =>
      if m.isTimeout d.messageTimeoutMs now then
        (cleaned + 1, { d with
          messages := d.messages.erase id
          stats := { d.stats with timeoutCleanups := d.stats.timeoutCleanups + 1 } })
      else (cleaned, d)

/-- The loop of `CleanupTimeoutMessages`. -/
def cleanupLoop (now : ℕ) : ℕ → Decoder → List UInt64 → ℕ × Decoder
  | cleaned, d, [] => (cleaned, d)
  | cleaned, d, id :: rest =>
      let (cleaned, d) := cleanupTurn now cleaned d id
      cleanupLoop now cleaned d rest

def cleanupTimeoutMessages (now : ℕ) (order : List UInt64) (d : Decoder) : ℕ × Decoder :=
  cleanupLoop now 0 d order

def reset (d : Decoder) : Decoder :=
  { messageTimeoutMs := d.messageTimeoutMs }

end Decoder

/-- A decoder with all that has been fed to it and got from it. -/
structure DecoderUse where
  phase : Phase
  fed : List UInt8 := []
  messages : List MessageComplete := []
  events : List StreamEvent := []

inductive DecoderUse.Step (e : Endian) : DecoderUse → DecoderUse → Prop where
  | feed {u : DecoderUse} {d : Decoder} (data : List UInt8) (h : u.phase = .idle d) :
      Step e u { u with phase := .decoding (d.receive data), fed := u.fed ++ data }
  | turn {u : DecoderUse} {d : Decoder} (now : ℕ) (h : u.phase = .decoding d) :
      Step e u { u with phase := (d.turn e now).ending.phase }
  | getMessage {u : DecoderUse} {d d' : Decoder} {message : MessageComplete}
      (h : u.phase = .idle d) (hget : d.getMessage = some (message, d')) :
      Step e u { u with phase := .idle d', messages := u.messages ++ [message] }
  | getStreamEvent {u : DecoderUse} {d d' : Decoder} {event : StreamEvent}
      (h : u.phase = .idle d) (hget : d.getStreamEvent = some (event, d')) :
      Step e u { u with phase := .idle d', events := u.events ++ [event] }
  | cleanupTimeoutMessages {u : DecoderUse} {d d' : Decoder} {cleaned : ℕ} (now : ℕ)
      (order : List UInt64) (h : u.phase = .idle d) (hnodup : order.Nodup)
      (horder : ∀ id, id ∈ order ↔ id ∈ d.messages)
      (hclean : d.cleanupTimeoutMessages now order = (cleaned, d')) :
      Step e u { u with phase := .idle d' }

/-- The uses of a fresh decoder up to its next reset. -/
def decoderUses (e : Endian) (messageTimeoutMs : UInt32) : TransitionSystem DecoderUse where
  init u := u = { phase := .idle (Decoder.fresh messageTimeoutMs) }
  step := DecoderUse.Step e

end DarwinCore.Protocol
