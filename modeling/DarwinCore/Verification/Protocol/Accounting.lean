import DarwinCore.Verification.Protocol.Retention

/-! # The decoder's books

The counters against the frames that were removed from the buffer. A frame is counted before its
slice index is looked at, and is counted again with every call of `Feed` if that index is bad. -/

namespace DarwinCore.Protocol

open ByteOrder

variable {e : Endian} {ms : UInt32} {now : ℕ} {d d' : Decoder} {hdr : FrameHeader}

/-! ## Removed frames -/

inductive FrameFate where
  | corrupted
  | message
  | event
  deriving DecidableEq, Repr

structure RemovedFrame where
  size : ℕ
  fate : FrameFate
  deriving DecidableEq, Repr

/-- The frame at the front of the buffer, once it is processed. -/
def Decoder.processed (e : Endian) (d : Decoder) (hdr : FrameHeader) : RemovedFrame where
  size := hdr.frameSize
  fate :=
    if hdr.crcMismatch e (d.buffer.drop frameHeaderSize) then .corrupted
    else if FrameType.ofByte hdr.type = .message then .message
    else .event

/-- The frame that a turn after which the loop goes on removes. -/
def Decoder.removes (e : Endian) (d : Decoder) : List RemovedFrame :=
  match front e d.buffer with
  | .complete hdr => [d.processed e hdr]
  | _ => []

def Session.record (e : Endian) (s t : Session) (removed : List RemovedFrame) :
    List RemovedFrame :=
  match s.phase, t.phase with
  | .decoding d, .decoding _ => removed ++ d.removes e
  | _, _ => removed

def recordedSessions (e : Endian) (ms : UInt32) : TransitionSystem (Session × List RemovedFrame) :=
  (sessions e ms).withAuxiliary [] (Session.record e)

structure Decoder.Accounts (d : Decoder) (removed : List RemovedFrame) : Prop where
  bytes : d.getStats.bytesReceived = d.getStats.bufferSize + (removed.map RemovedFrame.size).sum
  frames : d.getStats.framesReceived = removed.length
  fates : d.getStats.framesReceived = d.getStats.crcErrors + d.getStats.streamEvents +
    (removed.filter fun frame => frame.fate = .message).length

/-- The frame at the front is a whole message frame with a fitting trailer and a bad slice
index. -/
def Decoder.BadSlice (e : Endian) (d : Decoder) : Prop :=
  ∃ hdr, front e d.buffer = .complete hdr ∧
    hdr.crcMismatch e (d.buffer.drop frameHeaderSize) = false ∧
    FrameType.ofByte hdr.type = .message ∧
    messageHeaderSize ≤ (d.buffer.drop frameHeaderSize).length ∧
    (MessageHeader.load e (d.buffer.drop frameHeaderSize)).totalSlices ≤
      (MessageHeader.load e (d.buffer.drop frameHeaderSize)).sequence

/-! ## Counters in a turn -/

namespace Decoder

@[simp] theorem finishSlice_bytesReceived (d : Decoder) (id : UInt64) (m : MessageAssembly) :
    (d.finishSlice id m).stats.bytesReceived = d.stats.bytesReceived := by
  unfold finishSlice
  split <;> rfl

@[simp] theorem finishSlice_framesReceived (d : Decoder) (id : UInt64) (m : MessageAssembly) :
    (d.finishSlice id m).stats.framesReceived = d.stats.framesReceived := by
  unfold finishSlice
  split <;> rfl

@[simp] theorem finishSlice_stats_crcErrors (d : Decoder) (id : UInt64) (m : MessageAssembly) :
    (d.finishSlice id m).stats.crcErrors = d.stats.crcErrors := by
  unfold finishSlice
  split <;> rfl

@[simp] theorem finishSlice_stats_streamEvents (d : Decoder) (id : UInt64) (m : MessageAssembly) :
    (d.finishSlice id m).stats.streamEvents = d.stats.streamEvents := by
  unfold finishSlice
  split <;> rfl

theorem deliver_slice_stats {mh : MessageHeader} {data : List UInt8}
    (h : d.deliver now (.slice mh data) = .next d') :
    d'.stats.bytesReceived = d.stats.bytesReceived ∧
      d'.stats.framesReceived = d.stats.framesReceived ∧
      d'.stats.crcErrors = d.stats.crcErrors ∧ d'.stats.streamEvents = d.stats.streamEvents := by
  have hdelivery := deliver_delivery now d (.slice mh data)
  rw [h] at hdelivery
  cases hdelivery <;> simp

/-- What a turn after which the loop goes on does to the counters. -/
theorem turn_next_stats (h : (d.turn e now).ending = .next d') :
    ∃ hdr, front e d.buffer = .complete hdr ∧ d'.buffer = d.buffer.drop hdr.frameSize ∧
      d'.stats.bytesReceived = d.stats.bytesReceived ∧
      d'.stats.framesReceived = d.stats.framesReceived + 1 ∧
      d'.stats.crcErrors + d'.stats.streamEvents +
          (if (d.processed e hdr).fate = .message then 1 else 0) =
        d.stats.crcErrors + d.stats.streamEvents + 1 := by
  obtain ⟨hdr, hfront, hbuffer⟩ := turn_next_buffer h
  refine ⟨hdr, hfront, hbuffer, ?_⟩
  simp only [turn, hfront, onFrame] at h
  cases hcrc : hdr.crcMismatch e (d.buffer.drop frameHeaderSize) with
  | true =>
    rw [hcrc] at h
    obtain rfl : (d.countFrame.countCrcError.popFrame hdr) = d' := by simpa using h
    refine ⟨rfl, rfl, ?_⟩
    simp [processed, hcrc, popFrame, countCrcError, countFrame]
    omega
  | false =>
    simp only [hcrc, Bool.false_eq_true, if_false, Turn.mapNext, onBody] at h
    split at h
    · rename_i htype
      rcases onMessage_cases e now d.countFrame (d.buffer.drop frameHeaderSize) hdr.dataLen with
        hend | ⟨mh, data, hend⟩
      · rw [hend] at h
        cases h
      · rw [hend] at h
        cases hdeliver : d.countFrame.deliver now (.slice mh data) with
        | next x =>
          rw [hdeliver] at h
          obtain rfl : x.popFrame hdr = d' := by simpa [Ending.mapNext] using h
          obtain ⟨hbytes, hframes, hcrcs, hevents⟩ := deliver_slice_stats hdeliver
          refine ⟨hbytes, hframes, ?_⟩
          simp [processed, hcrc, htype, popFrame, hcrcs, hevents, countFrame]
        | _ => rw [hdeliver] at h; cases h
    · rename_i htype
      rcases onStream_cases e now d.countFrame (FrameType.ofByte hdr.type)
        (d.buffer.drop frameHeaderSize) hdr.dataLen with hend | ⟨ev, hend⟩
      · rw [hend] at h
        cases h
      · rw [hend] at h
        obtain rfl : (d.countFrame.countEvent.pushEvent ev).popFrame hdr = d' := by
          simpa [deliver, Ending.mapNext] using h
        refine ⟨rfl, rfl, ?_⟩
        simp [processed, hcrc, htype, popFrame, pushEvent, countEvent, countFrame]
        omega

/-- A turn that throws has counted the frame exactly if its slice index is bad. -/
theorem turn_throws_cases {error : ProtocolError} (h : (d.turn e now).ending = .throws error d') :
    (d' = d ∧ ¬d.BadSlice e) ∨ (d' = d.countFrame ∧ d.BadSlice e) := by
  have hderivation := turn_derivation e now d
  rw [h] at hderivation
  cases hderivation with
  | reject hfront =>
    refine .inl ⟨rfl, ?_⟩
    rintro ⟨hdr, hcomplete, -⟩
    rw [hfront] at hcomplete
    cases hcomplete
  | @throws hdr b _ _ hfront hcrc hb =>
    refine .inr ⟨hb.throws_eq, hdr, hfront, hcrc, ?_⟩
    have hrejected := turn_throws_rejected h []
    rw [List.append_nil] at hrejected
    obtain ⟨error', hcomplete⟩ | ⟨hdr', hcomplete, -, htype, hseq⟩ := hrejected
    · rw [hfront] at hcomplete
      cases hcomplete
    · rw [hfront] at hcomplete
      obtain rfl := Front.complete.inj hcomplete
      refine ⟨htype, ?_, hseq⟩
      by_contra hshort
      have hfault : (d.turn e now).ending = .fault d.countFrame := by
        simp only [turn, hfront, onFrame, hcrc, Bool.false_eq_true, if_false, Turn.mapNext,
          onBody, htype, if_true, onMessage]
        rw [if_pos (Nat.lt_of_not_le hshort)]
        rfl
      rw [hfault] at h
      cases h

theorem BadSlice.turn (h : d.BadSlice e) :
    (d.turn e now).ending = .throws ⟨"bad slice index"⟩ d.countFrame := by
  obtain ⟨hdr, hfront, hcrc, htype, hlong, hseq⟩ := h
  simp only [Decoder.turn, hfront, onFrame, hcrc, Bool.false_eq_true, if_false, Turn.mapNext,
    onBody, htype, if_true, onMessage]
  rw [if_neg (Nat.not_lt_of_le hlong), if_pos hseq]
  rfl

end Decoder

/-! ## Steps -/

section Steps

variable {removed : List RemovedFrame}

theorem Decoder.Accounts.fresh (ms : UInt32) : (Decoder.fresh ms).Accounts [] :=
  ⟨rfl, rfl, rfl⟩

theorem Decoder.Accounts.receive (h : d.Accounts removed) (data : List UInt8) :
    (d.receive data).Accounts removed := by
  obtain ⟨hbytes, hframes, hfates⟩ := h
  refine ⟨?_, hframes, hfates⟩
  simp only [getStats, Decoder.receive, List.length_append] at hbytes ⊢
  omega

/-- A frame that is removed is booked in every column. -/
theorem Decoder.Accounts.turn (h : d.Accounts removed) (hnext : (d.turn e now).ending = .next d') :
    d'.Accounts (removed ++ d.removes e) := by
  obtain ⟨hdr, hfront, hbuffer, hreceived, hcounted, hbooked⟩ := d.turn_next_stats hnext
  obtain ⟨hbytes, hframes, hfates⟩ := h
  have hsize : hdr.frameSize ≤ d.buffer.length := (front_complete hfront).2.2
  have hremoves : d.removes e = [d.processed e hdr] := by rw [removes, hfront]
  simp only [getStats] at hbytes hframes hfates
  rw [hremoves]
  constructor
  · have hlast : (d.processed e hdr).size = hdr.frameSize := rfl
    simp only [getStats, hreceived, hbuffer, List.length_drop, List.map_append, List.map_cons,
      List.map_nil, List.sum_append, List.sum_cons, List.sum_nil, hlast]
    omega
  · simp only [getStats, hcounted, hframes, List.length_append, List.length_singleton]
  · simp only [getStats, hcounted, List.filter_append, List.length_append]
    by_cases hfate : (d.processed e hdr).fate = .message
    · rw [if_pos hfate] at hbooked
      simp only [List.filter_cons, hfate, decide_true, if_true, List.filter_nil,
        List.length_singleton]
      omega
    · rw [if_neg hfate] at hbooked
      simp only [List.filter_cons, hfate, decide_false, Bool.false_eq_true, if_false,
        List.filter_nil, List.length_nil]
      omega

theorem Decoder.Accounts.not_countFrame (h : d.Accounts removed) :
    ¬d.countFrame.Accounts removed := by
  intro hcounted
  have hframes := h.frames
  have hframes' := hcounted.frames
  simp only [getStats, countFrame] at hframes hframes'
  omega

end Steps

/-! ## Runs -/

/-- The books are right unless the decoder has run into undefined behaviour. -/
def Phase.Accounts (removed : List RemovedFrame) : Phase → Prop
  | .idle d => d.Accounts removed
  | .decoding d => d.Accounts removed
  | .crashed _ => True

/-- The loop does not come upon a bad slice index. -/
def Session.Fitting (e : Endian) (s : Session) : Prop :=
  ∀ d, s.phase = .decoding d → ¬d.BadSlice e

theorem session_accounts_step {x y : Session × List RemovedFrame} (hx : x.1.phase.Accounts x.2)
    (hstep : (recordedSessions e ms).step x y) (hfit : x.1.Fitting e) :
    y.1.phase.Accounts y.2 := by
  obtain ⟨s, removed⟩ := x
  obtain ⟨t, removed'⟩ := y
  obtain ⟨hst, hremoved⟩ := hstep
  simp only at hst hremoved hx hfit
  cases hst with
  | @feed fed d data =>
    subst hremoved
    exact Decoder.Accounts.receive hx data
  | @turn fed d now =>
    have hd : d.Accounts removed := hx
    have hbooks := Decoder.turn_derivation e now d
    cases hend : (d.turn e now).ending with
    | wait d' =>
      rw [hend] at hbooks hremoved
      subst hremoved
      cases hbooks
      exact hd
    | next d' =>
      rw [hend] at hremoved
      subst hremoved
      exact hd.turn hend
    | throws error d' =>
      rw [hend] at hremoved
      subst hremoved
      rcases d.turn_throws_cases hend with ⟨rfl, -⟩ | ⟨-, hbad⟩
      · exact hd
      · exact absurd hbad (hfit d rfl)
    | fault d' => trivial

theorem session_unfitting_step {x y : Session × List RemovedFrame} (hx : x.1.phase.Accounts x.2)
    (hstep : (recordedSessions e ms).step x y)
    (hy : ∀ d, y.1.phase = .idle d → d.Accounts y.2) : x.1.Fitting e := by
  obtain ⟨s, removed⟩ := x
  obtain ⟨t, removed'⟩ := y
  obtain ⟨hst, hremoved⟩ := hstep
  simp only at hst hremoved hx hy
  intro d hphase hbad
  cases hst with
  | feed data => cases hphase
  | @turn fed d now =>
    obtain rfl := Phase.decoding.inj hphase
    rw [hbad.turn] at hremoved hy
    subst hremoved
    exact Decoder.Accounts.not_countFrame hx (hy _ rfl)

/-- Between two calls of `Feed` the books are right exactly in the runs in which no whole
message frame with a fitting trailer has a slice index outside its message. -/
theorem session_accounts_iff {states : List (Session × List RemovedFrame)}
    (hrun : (recordedSessions e ms).Run states) :
    (∀ x ∈ states, ∀ d, x.1.phase = .idle d → d.Accounts x.2) ↔
      ∀ x y, [y, x] <:+: states → x.1.Fitting e := by
  refine hrun.shown_iff_along (I := fun x => x.1.phase.Accounts x.2) ?_ ?_ ?_ ?_
  · rintro ⟨s, removed⟩ ⟨hinit, hremoved⟩
    simp only at hinit hremoved
    subst hinit hremoved
    exact Decoder.Accounts.fresh ms
  · intro x hx d hphase
    rw [hphase] at hx
    exact hx
  · exact fun x y hx hstep hfit => session_accounts_step hx hstep hfit
  · exact fun x y hx hstep hy => session_unfitting_step hx hstep hy

def fedSlice (total sequence : UInt16) : Decoder :=
  (Decoder.fresh 0).receive ((sliceFrame total sequence [7]).serialize .little)

/-- The only slice of a message is removed and booked. -/
theorem session_accounts_slice : ∃ states, (recordedSessions .little 0).Run states ∧
    ∀ x ∈ states, ∀ d, x.1.phase = .idle d → d.Accounts x.2 := by
  let bytes := (sliceFrame 1 0 [7]).serialize .little
  have hrun : (recordedSessions .little 0).Run
      [(⟨bytes, ((fedSlice 1 0).turn .little 0).ending.phase⟩, _),
        (⟨bytes, .decoding (fedSlice 1 0)⟩, _), (⟨[], .idle (Decoder.fresh 0)⟩, _)] :=
    .next (.next (.start ⟨rfl, rfl⟩) ⟨.feed bytes, rfl⟩) ⟨.turn 0, rfl⟩
  refine ⟨_, hrun, (session_accounts_iff hrun).mpr fun x y hxy d hphase hbad => ?_⟩
  have hseq : (MessageHeader.load .little ((fedSlice 1 0).buffer.drop frameHeaderSize)).sequence <
      (MessageHeader.load .little
        ((fedSlice 1 0).buffer.drop frameHeaderSize)).totalSlices := by
    decide +kernel
  have hx : x.1.phase = .decoding (fedSlice 1 0) ∨ x.1.phase = .idle (Decoder.fresh 0) := by
    rcases List.infix_cons_iff.mp hxy with hfirst | hlater
    · obtain ⟨-, hrest⟩ := List.cons_prefix_cons.mp hfirst
      obtain ⟨rfl, -⟩ := List.cons_prefix_cons.mp hrest
      exact .inl rfl
    · rcases List.infix_cons_iff.mp hlater with hfirst | hlater
      · obtain ⟨-, hrest⟩ := List.cons_prefix_cons.mp hfirst
        obtain ⟨rfl, -⟩ := List.cons_prefix_cons.mp hrest
        exact .inr rfl
      · have hle := hlater.length_le
        simp at hle
  rcases hx with hdecoding | hidle
  · rw [hdecoding] at hphase
    obtain rfl := Phase.decoding.inj hphase
    obtain ⟨hdr, -, -, -, -, hle⟩ := hbad
    exact absurd hseq (UInt16.not_lt.mpr hle)
  · rw [hidle] at hphase
    cases hphase

/-- Slice 1 of a message of one slice is counted and stays in the buffer. -/
theorem bad_slice_counted : ∃ states, (recordedSessions .little 0).Run states ∧
    ¬∀ x ∈ states, ∀ d, x.1.phase = .idle d → d.Accounts x.2 := by
  let bytes := (sliceFrame 1 1 [7]).serialize .little
  have hbad : (fedSlice 1 1).BadSlice .little :=
    ⟨FrameHeader.load .little (fedSlice 1 1).buffer, by decide +kernel⟩
  have hrun : (recordedSessions .little 0).Run
      [(⟨bytes, ((fedSlice 1 1).turn .little 0).ending.phase⟩, _),
        (⟨bytes, .decoding (fedSlice 1 1)⟩, _), (⟨[], .idle (Decoder.fresh 0)⟩, _)] :=
    .next (.next (.start ⟨rfl, rfl⟩) ⟨.feed bytes, rfl⟩) ⟨.turn 0, rfl⟩
  rw [hbad.turn] at hrun
  refine ⟨_, hrun, fun h => ?_⟩
  have hframes := (h _ List.mem_cons_self _ rfl).frames
  simp [Decoder.getStats, fedSlice, Decoder.receive, Decoder.fresh, Decoder.countFrame] at hframes

end DarwinCore.Protocol
