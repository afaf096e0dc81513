import DarwinCore.Verification.Protocol.Turn

/-! # The decoder on a stream

Bytes that arrive later do not change what the loop makes of the bytes it has, and the
clock decides nothing but the time stamps of pending assemblies. -/

namespace DarwinCore.Protocol

open ByteOrder

/-! ## Frame boundaries -/

/-- `rest` is what remains of the stream after some of its complete frames. -/
inductive FrameBoundary (e : Endian) : List UInt8 → List UInt8 → Prop where
  | here (stream) : FrameBoundary e stream stream
  | after {stream rest hdr} (hfront : front e stream = .complete hdr)
      (h : FrameBoundary e (stream.drop hdr.frameSize) rest) : FrameBoundary e stream rest

/-- Each complete frame's payload, without its trailer, is at least as long as the
sub-header of its type. -/
def WellSizedStream (e : Endian) (stream : List UInt8) : Prop :=
  ∀ rest hdr, FrameBoundary e stream rest → front e rest = .complete hdr → hdr.WellSized

theorem front_append_complete {e : Endian} {buffer : List UInt8} {hdr : FrameHeader}
    (more : List UInt8) (h : front e buffer = .complete hdr) :
    front e (buffer ++ more) = .complete hdr := by
  rw [front_append more (by rw [h]; simp), h]

theorem drop_frame_append {e : Endian} {buffer : List UInt8} {hdr : FrameHeader}
    (more : List UInt8) (h : front e buffer = .complete hdr) :
    (buffer ++ more).drop hdr.frameSize = buffer.drop hdr.frameSize ++ more :=
  List.drop_append_of_le_length (front_complete h).2.2

theorem FrameBoundary.append {e : Endian} {stream rest : List UInt8} (more : List UInt8)
    (h : FrameBoundary e stream rest) : FrameBoundary e (stream ++ more) (rest ++ more) := by
  induction h with
  | here => exact .here _
  | after hfront _ ih =>
    refine .after (front_append_complete more hfront) ?_
    rwa [drop_frame_append more hfront]

theorem WellSizedStream.left {e : Endian} {stream more : List UInt8}
    (h : WellSizedStream e (stream ++ more)) : WellSizedStream e stream :=
  fun rest hdr hb hfront =>
    h (rest ++ more) hdr (hb.append more) (front_append_complete more hfront)

theorem WellSizedStream.front {e : Endian} {stream : List UInt8} {hdr : FrameHeader}
    (h : WellSizedStream e stream) (hfront : Protocol.front e stream = .complete hdr) :
    hdr.WellSized :=
  h stream hdr (.here stream) hfront

theorem WellSizedStream.tail {e : Endian} {stream : List UInt8} {hdr : FrameHeader}
    (h : WellSizedStream e stream) (hfront : Protocol.front e stream = .complete hdr) :
    WellSizedStream e (stream.drop hdr.frameSize) :=
  fun rest hdr' hb hfront' => h rest hdr' (.after hfront hb) hfront'

theorem WellSizedStream.cons {e : Endian} {stream : List UInt8} {hdr : FrameHeader}
    (hfront : Protocol.front e stream = .complete hdr) (hsize : hdr.WellSized)
    (h : WellSizedStream e (stream.drop hdr.frameSize)) : WellSizedStream e stream := by
  intro rest hdr' hb hfront'
  cases hb with
  | here =>
    obtain rfl : hdr' = hdr := by simpa [hfront'] using hfront
    exact hsize
  | @after _ _ hdr'' hfirst hb =>
    obtain rfl : hdr'' = hdr := by simpa [hfirst] using hfront
    exact h rest hdr' hb hfront'

theorem WellSizedStream.of_front {e : Endian} {stream : List UInt8}
    (h : ∀ hdr, Protocol.front e stream ≠ .complete hdr) : WellSizedStream e stream := by
  intro rest hdr hb hfront
  cases hb with
  | here => exact absurd hfront (h hdr)
  | after hfirst => exact absurd hfirst (h _)

theorem WellSizedStream.boundary {e : Endian} {stream rest : List UInt8}
    (h : WellSizedStream e stream) (hb : FrameBoundary e stream rest) : WellSizedStream e rest := by
  induction hb with
  | here => exact h
  | after hfront _ ih => exact ih (h.tail hfront)

/-! ## Later bytes -/

/-- Change the state of the decoder, however the turn ends. -/
def Ending.map (f : Decoder → Decoder) : Ending → Ending
  | wait d => wait (f d)
  | next d => next (f d)
  | throws error d => throws error (f d)
  | fault d => fault (f d)

/-- Change the state of the decoder, however the call ends. -/
def FeedResult.map (f : Decoder → Decoder) : FeedResult → FeedResult
  | normal d => normal (f d)
  | error err d => error err (f d)
  | fault d => fault (f d)

namespace Decoder

@[simp] theorem receive_buffer (d : Decoder) (data : List UInt8) :
    (d.receive data).buffer = d.buffer ++ data := rfl

@[simp] theorem receive_nil (d : Decoder) : d.receive [] = d := by
  simp [receive]

theorem receive_append (d : Decoder) (xs ys : List UInt8) :
    d.receive (xs ++ ys) = (d.receive xs).receive ys := by
  simp [receive, Nat.add_assoc]

theorem finishSlice_receive (d : Decoder) (more : List UInt8) (id : UInt64)
    (m : MessageAssembly) :
    (d.receive more).finishSlice id m = (d.finishSlice id m).receive more := by
  unfold finishSlice
  split <;> rfl

theorem deliver_map (f : Decoder → Decoder) {now : ℕ} {d : Decoder}
    (hassembly : ∀ mh, (f d).assembly now mh = d.assembly now mh)
    (hfinish : ∀ id m, (f d).finishSlice id m = f (d.finishSlice id m))
    (hevent : ∀ ev, (f d).countEvent.pushEvent ev = f (d.countEvent.pushEvent ev)) (b : Body) :
    (f d).deliver now b = (d.deliver now b).map f := by
  cases b with
  | event ev => exact congrArg Ending.next (hevent ev)
  | slice mh data =>
    simp only [deliver, acceptSlice, hassembly, hfinish]
    split
    · rfl
    · split
      · rfl
      · split <;> rfl

theorem deliver_receive (now : ℕ) (d : Decoder) (more : List UInt8) (b : Body) :
    (d.receive more).deliver now b = (d.deliver now b).map (receive · more) :=
  deliver_map (receive · more) (fun _ => rfl) (finishSlice_receive d more) (fun _ => rfl) b

theorem popFrame_receive {d : Decoder} {hdr : FrameHeader} (more : List UInt8)
    (hlen : hdr.frameSize ≤ d.buffer.length) :
    (d.receive more).popFrame hdr = (d.popFrame hdr).receive more := by
  simp [popFrame, receive, List.drop_append_of_le_length hlen]

/-- A turn that does not wait is not changed by bytes that arrive later. -/
theorem turn_receive {e : Endian} {now : ℕ} {d : Decoder} (more : List UInt8)
    (hfront : front e d.buffer ≠ .incomplete)
    (hsize : ∀ hdr, front e d.buffer = .complete hdr → hdr.WellSized) :
    ((d.receive more).turn e now).ending = (d.turn e now).ending.map (receive · more) := by
  have happend := front_append more hfront
  cases hcase : front e d.buffer with
  | incomplete => exact absurd hcase hfront
  | rejected error =>
    rw [hcase] at happend
    simp only [turn, receive_buffer, happend, hcase]
    rfl
  | complete hdr =>
    rw [hcase] at happend
    obtain ⟨_, _, hframe⟩ := front_complete hcase
    have hpayload : hdr.payloadLen.toNat ≤ (d.buffer.drop frameHeaderSize).length := by
      rw [FrameHeader.frameSize] at hframe
      rw [List.length_drop]
      omega
    have hdrop : (d.buffer ++ more).drop frameHeaderSize =
        d.buffer.drop frameHeaderSize ++ more :=
      List.drop_append_of_le_length (hdr.frameHeaderSize_le.trans hframe)
    rw [turn_of_complete hcase (hsize hdr hcase),
      turn_of_complete (d := d.receive more) happend (hsize hdr hcase), receive_buffer, hdrop,
      crcMismatch_append e hdr _ more hpayload, body_append e hdr _ more hpayload]
    split
    · exact congrArg Ending.next
        (popFrame_receive (d := d.countFrame.countCrcError) more hframe)
    · rw [show (d.receive more).countFrame = d.countFrame.receive more from rfl,
        deliver_receive]
      cases hend : d.countFrame.deliver now (body e hdr (d.buffer.drop frameHeaderSize)) with
      | next d' =>
        have hd := deliver_delivery now d.countFrame
          (body e hdr (d.buffer.drop frameHeaderSize))
        rw [hend] at hd
        have hlen : hdr.frameSize ≤ d'.buffer.length := by
          rw [hd.next_buffer]
          exact hframe
        exact congrArg Ending.next (popFrame_receive more hlen)
      | _ => rfl

/-- Decoding a stream in two parts. -/
theorem tryDecode_receive {e : Endian} (now : ℕ) (d : Decoder) (more : List UInt8)
    (hsize : WellSizedStream e d.buffer) :
    (d.receive more).tryDecode e (fun _ => now) =
      match d.tryDecode e fun _ => now with
      | .normal d' => (d'.receive more).tryDecode e fun _ => now
      | .error err d' => .error err (d'.receive more)
      | .fault d' => .fault (d'.receive more) := by
  induction d using turn_induction (e := e) with
  | step d ih =>
    by_cases hfront : front e d.buffer = .incomplete
    · have hwait : (d.turn e now).ending = .wait d := by
        simp only [turn, hfront]
      rw [tryDecode_eq e _ d, hwait]
    · rw [tryDecode_eq e _ d, tryDecode_eq e _ (d.receive more),
        turn_receive more hfront fun hdr h => hsize.front h]
      cases hend : (d.turn e now).ending with
      | next d' =>
        obtain ⟨hdr, hcomplete, hbuffer⟩ := turn_next_buffer hend
        exact ih now d' hend (hbuffer ▸ hsize.tail hcomplete)
      | wait d' =>
        have hd := turn_derivation e now d
        rw [hend] at hd
        cases hd with
        | wait h => exact absurd h hfront
      | _ => rfl

/-- The buffer a call leaves behind starts at a frame boundary. -/
theorem tryDecode_boundary {e : Endian} {clock : ℕ → ℕ} {d d' : Decoder}
    (h : d.tryDecode e clock = .normal d' ∨ ∃ err, d.tryDecode e clock = .error err d') :
    FrameBoundary e d.buffer d'.buffer := by
  induction d using turn_induction (e := e) generalizing clock with
  | step d ih =>
    rw [tryDecode_eq] at h
    cases hend : (d.turn e (clock 0)).ending with
    | wait x =>
      rw [hend] at h
      obtain rfl : x = d' := by simpa using h
      rw [turn_stop_buffer (.inl hend)]
      exact .here _
    | next x =>
      rw [hend] at h
      obtain ⟨hdr, hfront, hbuffer⟩ := turn_next_buffer hend
      exact .after hfront (hbuffer ▸ ih _ x hend h)
    | throws err x =>
      rw [hend] at h
      obtain rfl : x = d' := by simpa using h
      rw [turn_stop_buffer (.inr ⟨err, hend⟩)]
      exact .here _
    | fault x =>
      rw [hend] at h
      simp at h

end Decoder

/-! ## Independence of chunking and of the clock -/

/-! ### Decoders that differ in time stamps -/

def MessageAssembly.timeless (m : MessageAssembly) : MessageAssembly :=
  { m with firstSeen := 0 }

namespace Decoder

/-- The pending assemblies agree apart from `first_seen`. -/
def SamePending (d d' : Decoder) : Prop :=
  ∀ id, (d.messages.lookup id).map MessageAssembly.timeless =
    (d'.messages.lookup id).map MessageAssembly.timeless

structure SameOutput (d d' : Decoder) : Prop where
  messages : d.completedMessages = d'.completedMessages
  events : d.streamEvents = d'.streamEvents

/-- Both decoders agree apart from `first_seen` and the timeout. -/
structure Alike (d d' : Decoder) : Prop where
  output : SameOutput d d'
  buffer : d.buffer = d'.buffer
  pending : SamePending d d'
  stats : d.stats = d'.stats

theorem fresh_alike (ms ms' : UInt32) : Alike (fresh ms) (fresh ms') :=
  ⟨⟨rfl, rfl⟩, rfl, fun _ => rfl, rfl⟩

theorem Alike.receive {d d' : Decoder} (h : Alike d d') (data : List UInt8) :
    Alike (d.receive data) (d'.receive data) :=
  ⟨⟨h.output.messages, h.output.events⟩, by simp [h.buffer], h.pending,
    by simp [Decoder.receive, h.stats]⟩

theorem Alike.countFrame {d d' : Decoder} (h : Alike d d') :
    Alike d.countFrame d'.countFrame :=
  ⟨⟨h.output.messages, h.output.events⟩, h.buffer, h.pending,
    by simp [Decoder.countFrame, h.stats]⟩

theorem Alike.countCrcError {d d' : Decoder} (h : Alike d d') :
    Alike d.countCrcError d'.countCrcError :=
  ⟨⟨h.output.messages, h.output.events⟩, h.buffer, h.pending,
    by simp [Decoder.countCrcError, h.stats]⟩

theorem Alike.popFrame {d d' : Decoder} (h : Alike d d') (hdr : FrameHeader) :
    Alike (d.popFrame hdr) (d'.popFrame hdr) :=
  ⟨⟨h.output.messages, h.output.events⟩, by simp [h.buffer], h.pending, h.stats⟩

theorem Alike.acceptEvent {d d' : Decoder} (h : Alike d d') (ev : StreamEvent) :
    Alike (d.countEvent.pushEvent ev) (d'.countEvent.pushEvent ev) :=
  ⟨⟨h.output.messages, by simp [pushEvent, countEvent, h.output.events]⟩, h.buffer, h.pending,
    by simp [pushEvent, countEvent, h.stats]⟩

/-- Only the time stamp of an assembly depends on the clock. -/
theorem Alike.assembly {d d' : Decoder} (h : Alike d d') (now now' : ℕ) (mh : MessageHeader) :
    (d.assembly now mh).timeless = (d'.assembly now' mh).timeless := by
  have hp := h.pending mh.messageId
  unfold Decoder.assembly
  cases hm : d.messages.lookup mh.messageId with
  | none =>
    cases hm' : d'.messages.lookup mh.messageId with
    | none => simp [MessageAssembly.timeless]
    | some m' => simp [hm, hm'] at hp
  | some m =>
    cases hm' : d'.messages.lookup mh.messageId with
    | none => simp [hm, hm'] at hp
    | some m' =>
      obtain ⟨total, slices, received, seen⟩ := m
      obtain ⟨total', slices', received', seen'⟩ := m'
      simp only [hm, hm', Option.map_some, Option.some.injEq, MessageAssembly.timeless,
        MessageAssembly.mk.injEq] at hp
      obtain ⟨rfl, rfl, rfl, -⟩ := hp
      simp only [Option.getD_some]
      split <;> simp [MessageAssembly.timeless]

theorem Alike.finishSlice {d d' : Decoder} (h : Alike d d') (id : UInt64)
    {m m' : MessageAssembly} (hm : m.timeless = m'.timeless) :
    Alike (d.finishSlice id m) (d'.finishSlice id m') := by
  obtain ⟨total, slices, received, seen⟩ := m
  obtain ⟨total', slices', received', seen'⟩ := m'
  simp only [MessageAssembly.timeless, MessageAssembly.mk.injEq] at hm
  obtain ⟨rfl, rfl, rfl, -⟩ := hm
  unfold Decoder.finishSlice
  simp only
  split
  · refine ⟨⟨by simp [h.output.messages], h.output.events⟩, h.buffer, ?_, by simp [h.stats]⟩
    intro i
    by_cases hi : i = id
    · subst i
      simp
    · simpa [Finmap.lookup_erase_ne hi] using h.pending i
  · refine ⟨⟨h.output.messages, h.output.events⟩, h.buffer, ?_, h.stats⟩
    intro i
    by_cases hi : i = id
    · subst i
      simp [MessageAssembly.timeless]
    · simpa [Finmap.lookup_insert_of_ne _ hi] using h.pending i

end Decoder

/-- Turns that end the same way, up to time stamps. -/
inductive Ending.Alike : Ending → Ending → Prop where
  | wait {d d'} (h : Decoder.Alike d d') : Alike (.wait d) (.wait d')
  | next {d d'} (h : Decoder.Alike d d') : Alike (.next d) (.next d')
  | throws {error d d'} (h : Decoder.Alike d d') : Alike (.throws error d) (.throws error d')
  | fault {d d'} (h : Decoder.Alike d d') : Alike (.fault d) (.fault d')

theorem Ending.Alike.mapNext {f : Decoder → Decoder}
    (hf : ∀ d d', Decoder.Alike d d' → Decoder.Alike (f d) (f d')) {x y : Ending}
    (h : Ending.Alike x y) : Ending.Alike (x.mapNext f) (y.mapNext f) := by
  cases h with
  | wait h => exact .wait h
  | next h => exact .next (hf _ _ h)
  | throws h => exact .throws h
  | fault h => exact .fault h

namespace Decoder

theorem Alike.deliver {d d' : Decoder} (h : Alike d d') (now now' : ℕ) (b : Body) :
    Ending.Alike (d.deliver now b) (d'.deliver now' b) := by
  cases b with
  | event ev => exact .next (h.acceptEvent ev)
  | slice mh data =>
    have hm := h.assembly now now' mh
    have hslices : (d.assembly now mh).slices = (d'.assembly now' mh).slices := by
      change (d.assembly now mh).timeless.slices = (d'.assembly now' mh).timeless.slices
      rw [hm]
    simp only [Decoder.deliver, Decoder.acceptSlice, hslices]
    split
    · exact .throws h
    · split
      · exact .fault h
      · split
        · refine .next (h.finishSlice _ ?_)
          simp only [MessageAssembly.timeless, MessageAssembly.mk.injEq] at hm ⊢
          simp [hm]
        · exact .next (h.finishSlice _ hm)

theorem Alike.turn {e : Endian} {d d' : Decoder} (h : Alike d d') (now now' : ℕ)
    (hsize : ∀ hdr, front e d.buffer = .complete hdr → hdr.WellSized) :
    Ending.Alike (d.turn e now).ending (d'.turn e now').ending := by
  cases hfront : front e d.buffer with
  | incomplete =>
    have hfront' : front e d'.buffer = .incomplete := h.buffer ▸ hfront
    simpa only [Decoder.turn, hfront, hfront'] using Ending.Alike.wait h
  | rejected error =>
    have hfront' : front e d'.buffer = .rejected error := h.buffer ▸ hfront
    simpa only [Decoder.turn, hfront, hfront'] using Ending.Alike.throws h
  | complete hdr =>
    have hfront' : front e d'.buffer = .complete hdr := h.buffer ▸ hfront
    rw [turn_of_complete hfront (hsize hdr hfront),
      turn_of_complete hfront' (hsize hdr hfront), h.buffer]
    split
    · exact .next (h.countFrame.countCrcError.popFrame hdr)
    · exact (h.countFrame.deliver now now' _).mapNext fun _ _ hd => hd.popFrame hdr

end Decoder

/-- Calls that end the same way, up to time stamps. -/
inductive FeedResult.Alike : FeedResult → FeedResult → Prop where
  | normal {d d'} (h : Decoder.Alike d d') : Alike (.normal d) (.normal d')
  | error {err d d'} (h : Decoder.Alike d d') : Alike (.error err d) (.error err d')
  | fault {d d'} (h : Decoder.Alike d d') : Alike (.fault d) (.fault d')

namespace Decoder

theorem Alike.tryDecode {e : Endian} {d d' : Decoder} (h : Alike d d') (clock clock' : ℕ → ℕ)
    (hsize : WellSizedStream e d.buffer) :
    FeedResult.Alike (d.tryDecode e clock) (d'.tryDecode e clock') := by
  induction d using turn_induction (e := e) generalizing d' clock clock' with
  | step d ih =>
    have hturn := h.turn (clock 0) (clock' 0) fun hdr hf => hsize.front hf
    rw [tryDecode_eq, tryDecode_eq]
    generalize hx : (d.turn e (clock 0)).ending = x at hturn ⊢
    generalize (d'.turn e (clock' 0)).ending = y at hturn ⊢
    cases hturn with
    | wait h => exact .normal h
    | next h =>
      obtain ⟨hdr, hfront, hbuffer⟩ := turn_next_buffer hx
      exact ih _ _ hx h _ _ (hbuffer ▸ hsize.tail hfront)
    | throws h => exact .error h
    | fault h => exact .fault h

end Decoder

/-! ### Chunking -/

/-- What a run that stops at the first protocol error or fault lets its caller see. -/
def FeedResult.Agrees : FeedResult → FeedResult → Prop
  | normal d, normal d' => d.Alike d'
  | error err d, error err' d' => err = err' ∧ d.SameOutput d'
  | fault d, fault d' => d.SameOutput d'
  | _, _ => False

namespace Decoder

theorem SameOutput.symm {d d' : Decoder} (h : SameOutput d d') : SameOutput d' d :=
  ⟨h.messages.symm, h.events.symm⟩

theorem SameOutput.trans {d d' d'' : Decoder} (h : SameOutput d d') (h' : SameOutput d' d'') :
    SameOutput d d'' :=
  ⟨h.messages.trans h'.messages, h.events.trans h'.events⟩

theorem Alike.symm {d d' : Decoder} (h : Alike d d') : Alike d' d :=
  ⟨h.output.symm, h.buffer.symm, fun id => (h.pending id).symm, h.stats.symm⟩

theorem Alike.trans {d d' d'' : Decoder} (h : Alike d d') (h' : Alike d' d'') : Alike d d'' :=
  ⟨h.output.trans h'.output, h.buffer.trans h'.buffer,
    fun id => (h.pending id).trans (h'.pending id), h.stats.trans h'.stats⟩

end Decoder

namespace FeedResult.Agrees

theorem symm {x y : FeedResult} (h : Agrees x y) : Agrees y x := by
  cases x <;> cases y <;> try exact h.elim
  · exact Decoder.Alike.symm h
  · exact ⟨h.1.symm, h.2.symm⟩
  · exact Decoder.SameOutput.symm h

theorem trans {x y z : FeedResult} (h : Agrees x y) (h' : Agrees y z) : Agrees x z := by
  cases x <;> cases y <;> try exact h.elim
  all_goals cases z <;> try exact h'.elim
  · exact Decoder.Alike.trans h h'
  · exact ⟨h.1.trans h'.1, h.2.trans h'.2⟩
  · exact Decoder.SameOutput.trans h h'

end FeedResult.Agrees

namespace Decoder

theorem tryDecode_normal_front {e : Endian} {clock : ℕ → ℕ} {d d' : Decoder}
    (h : d.tryDecode e clock = .normal d') : front e d'.buffer = .incomplete := by
  induction d using turn_induction (e := e) generalizing clock with
  | step d ih =>
    rw [tryDecode_eq] at h
    have hd := turn_derivation e (clock 0) d
    cases hend : (d.turn e (clock 0)).ending with
    | wait x =>
      rw [hend] at h hd
      cases h
      cases hd with
      | wait hfront => exact hfront
    | next x =>
      rw [hend] at h
      exact ih _ x hend h
    | throws err x => rw [hend] at h; cases h
    | fault x => rw [hend] at h; cases h

theorem tryDecode_of_incomplete {e : Endian} (clock : ℕ → ℕ) {d : Decoder}
    (h : front e d.buffer = .incomplete) : d.tryDecode e clock = .normal d := by
  simp only [tryDecode_eq, turn, h]

def input (chunks : List Chunk) : List UInt8 := (chunks.map Chunk.data).flatten

/-- A run over any chunks agrees with a single call that gets all the bytes. -/
theorem feedAll_agrees_tryDecode {e : Endian} (chunks : List Chunk) {d d' : Decoder}
    (h : Alike d d') (hfront : front e d.buffer = .incomplete)
    (hsize : WellSizedStream e (d.buffer ++ input chunks)) :
    FeedResult.Agrees (feedAll e d chunks)
      ((d'.receive (input chunks)).tryDecode e fun _ => 0) := by
  induction chunks generalizing d d' with
  | nil =>
    have hnil : d'.receive (input []) = d' := d'.receive_nil
    rw [hnil, tryDecode_of_incomplete _ (h.buffer ▸ hfront)]
    exact h
  | cons c chunks ih =>
    have hinput : input (c :: chunks) = c.data ++ input chunks := rfl
    rw [hinput, ← List.append_assoc] at hsize
    rw [hinput, receive_append, tryDecode_receive 0 (d'.receive c.data) (input chunks)
      (by rw [receive_buffer, ← h.buffer]; exact hsize.left)]
    have halike := (h.receive c.data).tryDecode (e := e) c.clock (fun _ => 0) hsize.left
    simp only [feedAll, feed]
    generalize hx : (d.receive c.data).tryDecode e c.clock = x at halike ⊢
    generalize (d'.receive c.data).tryDecode e (fun _ => 0) = y at halike ⊢
    cases halike with
    | normal hxy =>
      have hb := (tryDecode_boundary (.inl hx)).append (input chunks)
      exact ih hxy (tryDecode_normal_front hx) (hsize.boundary hb)
    | error hxy => exact ⟨rfl, hxy.output.messages, hxy.output.events⟩
    | fault hxy => exact ⟨hxy.output.messages, hxy.output.events⟩

/-- Any two ways of cutting a well-sized stream end the same way, with the same output. -/
theorem feedAll_chunking {e : Endian} {stream : List UInt8} (hsize : WellSizedStream e stream)
    (ms ms' : UInt32) {xs ys : List Chunk} (hx : input xs = stream) (hy : input ys = stream) :
    FeedResult.Agrees (feedAll e (fresh ms) xs) (feedAll e (fresh ms') ys) := by
  have whole : ∀ (ms : UInt32) (cs : List Chunk), input cs = stream →
      FeedResult.Agrees (feedAll e (fresh ms) cs)
        (((fresh 0).receive stream).tryDecode e fun _ => 0) := by
    rintro ms cs rfl
    exact feedAll_agrees_tryDecode cs (fresh_alike ms 0) rfl hsize
  exact (whole ms xs hx).trans (whole ms' ys hy).symm

/-- A message of one byte, cut inside its header. -/
theorem feedAll_chunking_header :
    FeedResult.Agrees
      (feedAll .little (fresh 0) [⟨fun _ => 0, [0x5A, 0x5C, 0x01, 0x01, 0, 0, 13]⟩,
        ⟨fun i => i + 7, [0, 0, 0, 0, 0, 0, 0, 0, 0, 7, 0, 0, 0, 0, 0, 0, 0, 1, 0, 0, 0, 0x41]⟩])
      (feedAll .little (fresh 30000) [⟨fun _ => 3, [0x5A, 0x5C, 0x01, 0x01, 0, 0, 13, 0, 0, 0, 0, 0,
        0, 0, 0, 0, 7, 0, 0, 0, 0, 0, 0, 0, 1, 0, 0, 0, 0x41]⟩]) := by
  have hfront : front .little [0x5A, 0x5C, 0x01, 0x01, 0, 0, 13, 0, 0, 0, 0, 0,
      0, 0, 0, 0, 7, 0, 0, 0, 0, 0, 0, 0, 1, 0, 0, 0, 0x41] =
      .complete ⟨0x5A, 0x5C, 0x01, 0x01, 0, 13, 0, 0⟩ := by decide +kernel
  have hrest : ∀ hdr, front .little [] ≠ .complete hdr := fun hdr h => by
    simp [front, frameHeaderSize] at h
  exact feedAll_chunking (.cons hfront (by decide) (.of_front hrest)) 0 30000 rfl rfl

end Decoder

end DarwinCore.Protocol
