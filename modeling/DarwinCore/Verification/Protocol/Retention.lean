import DarwinCore.Verification.Protocol.Stream
import DarwinCore.Verification.Protocol.Bounds

/-! # What a decoder retains after an error

No path on which the loop throws removes the offending bytes, so the decoder never gets
past the first frame that it rejects, and keeps everything that arrives after it. -/

namespace DarwinCore.Protocol

open ByteOrder

/-! ## Rejected and passed frames -/

/-- The loop throws at the front of these bytes: the header is bad, or the slice index of a
message frame is. -/
def Rejected (e : Endian) (bytes : List UInt8) : Prop :=
  (∃ error, front e bytes = .rejected error) ∨
    ∃ hdr, front e bytes = .complete hdr ∧
      hdr.crcMismatch e (bytes.drop frameHeaderSize) = false ∧
      FrameType.ofByte hdr.type = .message ∧
      (MessageHeader.load e (bytes.drop frameHeaderSize)).totalSlices ≤
        (MessageHeader.load e (bytes.drop frameHeaderSize)).sequence

/-- `rest` is what remains of the stream after complete frames none of which is rejected. -/
inductive Passed (e : Endian) : List UInt8 → List UInt8 → Prop where
  | here (stream) : Passed e stream stream
  | after {stream rest hdr} (hfront : front e stream = .complete hdr)
      (hgood : ¬ Rejected e stream) (h : Passed e (stream.drop hdr.frameSize) rest) :
      Passed e stream rest

/-- The same where later bytes cannot change the verdict. -/
inductive Settled (e : Endian) : List UInt8 → List UInt8 → Prop where
  | here (stream) : Settled e stream stream
  | after {stream rest hdr} (hfront : front e stream = .complete hdr)
      (hgood : ∀ more, ¬ Rejected e (stream ++ more))
      (h : Settled e (stream.drop hdr.frameSize) rest) : Settled e stream rest

theorem Settled.append {e : Endian} {stream rest : List UInt8} (more : List UInt8)
    (h : Settled e stream rest) : Settled e (stream ++ more) (rest ++ more) := by
  induction h with
  | here => exact .here _
  | after hfront hgood _ ih =>
    refine .after (front_append_complete more hfront) (fun later => ?_) ?_
    · rw [List.append_assoc]
      exact hgood _
    · rwa [drop_frame_append more hfront]

theorem Settled.trans {e : Endian} {stream mid rest : List UInt8} (h : Settled e stream mid)
    (h' : Settled e mid rest) : Settled e stream rest := by
  induction h with
  | here => exact h'
  | after hfront hgood _ ih => exact .after hfront hgood (ih h')

theorem Settled.passed {e : Endian} {stream rest : List UInt8} (h : Settled e stream rest) :
    Passed e stream rest := by
  induction h with
  | here => exact .here _
  | after hfront hgood _ ih => exact .after hfront (by simpa using hgood []) ih

/-- The frames passed lead to one place only where the loop can stop. -/
theorem Settled.eq_of_rejected {e : Endian} {stream rest rest' : List UInt8}
    (h : Settled e stream rest) (hstop : front e rest = .incomplete ∨ Rejected e rest)
    (h' : Passed e stream rest') (hrej : Rejected e rest') : rest' = rest := by
  induction h with
  | here =>
    cases h' with
    | here => rfl
    | after hfront hgood =>
      rcases hstop with hstop | hstop
      · rw [hstop] at hfront
        cases hfront
      · exact absurd hstop hgood
  | after hfront hgood _ ih =>
    cases h' with
    | here => exact absurd hrej (by simpa using hgood [])
    | after hfront' _ hrest =>
      rw [hfront] at hfront'
      cases hfront'
      exact ih hstop hrest

theorem length_of_incomplete {e : Endian} {bytes : List UInt8}
    (h : front e bytes = .incomplete) : bytes.length < frameHeaderSize + maxFramePayload := by
  unfold front at h
  simp only at h
  split at h
  · rename_i hlen
    exact hlen.trans_le (Nat.le_add_right _ _)
  · split at h
    · cases h
    · split at h
      · cases h
      · split at h
        · cases h
        · split at h
          · omega
          · cases h

/-! ## Turns -/

namespace Decoder

variable {e : Endian} {now : ℕ} {d d' : Decoder}

private theorem onMessage_throws {payload : List UInt8} {len : ℕ} {error : ProtocolError}
    (h : (d.onMessage e now payload len).ending = .throws error d') :
    messageHeaderSize ≤ payload.length ∧
      (MessageHeader.load e payload).totalSlices ≤ (MessageHeader.load e payload).sequence := by
  unfold onMessage at h
  simp only at h
  split at h
  · cases h
  · rename_i hlen
    split at h
    · rename_i hseq
      exact ⟨by omega, hseq⟩
    · split at h
      · cases h
      · split at h
        · split at h <;> cases h
        · cases h

private theorem onMessage_next {payload : List UInt8} {len : ℕ}
    (h : (d.onMessage e now payload len).ending = .next d') :
    messageHeaderSize ≤ payload.length ∧
      ¬ (MessageHeader.load e payload).totalSlices ≤
        (MessageHeader.load e payload).sequence := by
  unfold onMessage at h
  simp only at h
  split at h
  · cases h
  · rename_i hlen
    split at h
    · cases h
    · rename_i hseq
      exact ⟨by omega, hseq⟩

theorem onStream_ne_throws {type : FrameType} {payload : List UInt8} {len : ℕ}
    {error : ProtocolError} : (d.onStream e type payload len).ending ≠ .throws error d' := by
  intro h
  rcases onStream_cases e 0 d type payload len with hend | ⟨ev, hend⟩
  · rw [hend] at h
    cases h
  · rw [hend] at h
    cases h

/-- The front frame is complete, and so is its message header unless the CRC tells against it. -/
def HeaderThere (e : Endian) (d : Decoder) (hdr : FrameHeader) : Prop :=
  hdr.crcMismatch e (d.buffer.drop frameHeaderSize) = false →
    FrameType.ofByte hdr.type = .message →
    messageHeaderSize ≤ (d.buffer.drop frameHeaderSize).length

theorem rejected_append_iff {hdr : FrameHeader} (hfront : front e d.buffer = .complete hdr)
    (hthere : d.HeaderThere e hdr) (more : List UInt8) :
    Rejected e (d.buffer ++ more) ↔ hdr.crcMismatch e (d.buffer.drop frameHeaderSize) = false ∧
      FrameType.ofByte hdr.type = .message ∧
      (MessageHeader.load e (d.buffer.drop frameHeaderSize)).totalSlices ≤
        (MessageHeader.load e (d.buffer.drop frameHeaderSize)).sequence := by
  obtain ⟨-, -, hframe⟩ := front_complete hfront
  have hfront' := front_append_complete more hfront
  have hdrop : (d.buffer ++ more).drop frameHeaderSize = d.buffer.drop frameHeaderSize ++ more :=
    List.drop_append_of_le_length (hdr.frameHeaderSize_le.trans hframe)
  have hlen : hdr.payloadLen.toNat ≤ (d.buffer.drop frameHeaderSize).length := by
    rw [FrameHeader.frameSize] at hframe
    rw [List.length_drop]
    omega
  have hcrc := crcMismatch_append e hdr (d.buffer.drop frameHeaderSize) more hlen
  constructor
  · rintro (⟨error, herror⟩ | ⟨hdr', hcomplete, hmatch, htype, hseq⟩)
    · rw [hfront'] at herror
      cases herror
    · rw [hfront'] at hcomplete
      cases hcomplete
      rw [hdrop, hcrc] at hmatch
      rw [hdrop, MessageHeader.load_append e more (hthere hmatch htype)] at hseq
      exact ⟨hmatch, htype, hseq⟩
  · rintro ⟨hmatch, htype, hseq⟩
    refine .inr ⟨hdr, hfront', ?_, htype, ?_⟩
    · rw [hdrop, hcrc, hmatch]
    · rw [hdrop, MessageHeader.load_append e more (hthere hmatch htype)]
      exact hseq

/-- What is rejected stays rejected. -/
theorem turn_throws_rejected {error : ProtocolError}
    (h : (d.turn e now).ending = .throws error d') (more : List UInt8) :
    Rejected e (d.buffer ++ more) := by
  unfold turn at h
  cases hfront : front e d.buffer with
  | incomplete => rw [hfront] at h; cases h
  | rejected err =>
    refine .inl ⟨err, ?_⟩
    rw [front_append more (by rw [hfront]; simp), hfront]
  | complete hdr =>
    rw [hfront] at h
    simp only [onFrame] at h
    split at h
    · cases h
    · rename_i hcrc
      simp only [Turn.mapNext, onBody] at h
      split at h
      · rename_i htype
        cases hend : (d.countFrame.onMessage e now (d.buffer.drop frameHeaderSize)
            hdr.dataLen).ending with
        | throws err x =>
          obtain ⟨hlen, hseq⟩ := onMessage_throws hend
          exact (rejected_append_iff hfront (fun _ _ => hlen) more).mpr
            ⟨by simpa using hcrc, htype, hseq⟩
        | _ => rw [hend] at h; cases h
      · cases hend : (d.countFrame.onStream e (FrameType.ofByte hdr.type)
            (d.buffer.drop frameHeaderSize) hdr.dataLen).ending with
        | throws err x => exact absurd hend onStream_ne_throws
        | _ => rw [hend] at h; cases h

/-- What is passed stays passed. -/
theorem turn_next_passed (h : (d.turn e now).ending = .next d') :
    ∃ hdr, front e d.buffer = .complete hdr ∧ d'.buffer = d.buffer.drop hdr.frameSize ∧
      ∀ more, ¬ Rejected e (d.buffer ++ more) := by
  obtain ⟨hdr, hfront, hbuffer⟩ := turn_next_buffer h
  refine ⟨hdr, hfront, hbuffer, ?_⟩
  simp only [turn, hfront, onFrame] at h
  cases hcrc : hdr.crcMismatch e (d.buffer.drop frameHeaderSize) with
  | true =>
    intro more hrej
    have hmatch := ((rejected_append_iff hfront (fun hfalse => by simp [hcrc] at hfalse) more).mp
      hrej).1
    rw [hcrc] at hmatch
    cases hmatch
  | false =>
    rw [hcrc, if_neg Bool.false_ne_true] at h
    simp only [Turn.mapNext, onBody] at h
    split at h
    · rename_i htype
      cases hend : (d.countFrame.onMessage e now (d.buffer.drop frameHeaderSize)
          hdr.dataLen).ending with
      | next x =>
        obtain ⟨hlen, hseq⟩ := onMessage_next hend
        exact fun more hrej =>
          hseq ((rejected_append_iff hfront (fun _ _ => hlen) more).mp hrej).2.2
      | _ => rw [hend] at h; cases h
    · rename_i htype
      exact fun more hrej => htype ((rejected_append_iff hfront
        (fun _ hmessage => absurd hmessage htype) more).mp hrej).2.1

end Decoder

/-! ## Sessions -/

/-- The buffer is what remains of all the bytes fed after the frames that were passed. -/
def Session.Remains (e : Endian) (s : Session) : Prop :=
  match s.phase with
  | .idle d => Settled e s.fed d.buffer ∧
      (front e d.buffer = .incomplete ∨ ∀ more, Rejected e (d.buffer ++ more))
  | .decoding d => Settled e s.fed d.buffer
  | .crashed _ => True

theorem session_remains {e : Endian} {ms : UInt32} {states : List Session}
    (hrun : (sessions e ms).Run states) : ∀ s ∈ states, s.Remains e := by
  refine hrun.invariant ?_ ?_
  · rintro s rfl
    exact ⟨.here _, .inl rfl⟩
  · intro s t hs hstep
    cases hstep with
    | feed data => exact Settled.append data hs.1
    | @turn fed d now =>
      change Settled e fed d.buffer at hs
      cases hend : (d.turn e now).ending with
      | wait d' =>
        have hd := d.turn_derivation e now
        rw [hend] at hd
        cases hd with
        | wait hfront => exact ⟨hs, .inl hfront⟩
      | next d' =>
        obtain ⟨hdr, hfront, hbuffer, hgood⟩ := d.turn_next_passed hend
        refine hs.trans (.after hfront hgood ?_)
        rw [hbuffer]
        exact .here _
      | throws error d' =>
        have hbuffer := Decoder.turn_stop_buffer (.inr ⟨error, hend⟩)
        refine ⟨hbuffer ▸ hs, .inr fun more => ?_⟩
        rw [hbuffer]
        exact d.turn_throws_rejected hend more
      | fault d' => trivial

theorem fed_prefix {e : Endian} {ms : UInt32} {s : Session} {past : List Session}
    (hrun : (sessions e ms).Run (s :: past)) : ∀ t ∈ s :: past, t.fed <+: s.fed := by
  generalize hstates : s :: past = states at hrun
  induction hrun generalizing s past with
  | start =>
    cases hstates
    simp
  | @next s' t past' hrun hstep ih =>
    cases hstates
    have hlast : s'.fed <+: t.fed := by
      cases hstep with
      | feed data => exact List.prefix_append _ _
      | turn now => exact List.prefix_refl _
    exact List.forall_mem_cons.mpr
      ⟨List.prefix_refl _, fun x hx => (ih rfl x hx).trans hlast⟩

/-- A session stays bounded exactly when less than one maximal frame has been fed from the
start of the first frame that is rejected on. -/
theorem session_bounded_iff {e : Endian} {ms : UInt32} {s : Session} {past : List Session}
    (hrun : (sessions e ms).Run (s :: past)) {d : Decoder} (hidle : s.phase = .idle d) :
    (∀ t ∈ s :: past, ∀ d, t.phase = .idle d →
        d.buffer.length < frameHeaderSize + maxFramePayload) ↔
      ∀ rest, Passed e s.fed rest → Rejected e rest →
        rest.length < frameHeaderSize + maxFramePayload := by
  have hremains := session_remains hrun
  constructor
  · intro hbound rest hpassed hrej
    have hs := hremains s List.mem_cons_self
    rw [Session.Remains, hidle] at hs
    obtain rfl := hs.1.eq_of_rejected (hs.2.imp_right fun h => by simpa using h []) hpassed hrej
    exact hbound s List.mem_cons_self d hidle
  · intro hbound t ht d' hphase
    obtain ⟨more, hfed⟩ := fed_prefix hrun t ht
    have hr := hremains t ht
    rw [Session.Remains, hphase] at hr
    rcases hr.2 with hfront | hrej
    · exact length_of_incomplete hfront
    · have hlen := hbound _ (hfed ▸ (hr.1.append more).passed) (hrej more)
      rw [List.length_append] at hlen
      omega

theorem front_zeros (e : Endian) {n : ℕ} (h : frameHeaderSize ≤ n) :
    front e (List.replicate n 0) = .rejected ⟨"bad magic"⟩ := by
  have hmagic : (FrameHeader.load e (List.replicate n 0)).magic1 = 0 := by
    simp only [FrameHeader.load, List.getD_eq_getElem?_getD, List.getElem?_replicate]
    split <;> rfl
  unfold front
  simp only [List.length_replicate]
  rw [if_neg (by omega), if_pos (.inl (by rw [hmagic]; decide))]

theorem run_zeros {n : ℕ} (h : frameHeaderSize ≤ n) : (sessions .little 0).Run
    [⟨List.replicate n 0, .idle ((Decoder.fresh 0).receive (List.replicate n 0))⟩,
      ⟨List.replicate n 0, .decoding ((Decoder.fresh 0).receive (List.replicate n 0))⟩,
      ⟨[], .idle (Decoder.fresh 0)⟩] := by
  have hturn : (((Decoder.fresh 0).receive (List.replicate n 0)).turn .little 0).ending =
      .throws ⟨"bad magic"⟩ ((Decoder.fresh 0).receive (List.replicate n 0)) := by
    rw [Decoder.turn, show ((Decoder.fresh 0).receive (List.replicate n 0)).buffer =
      List.replicate n 0 from rfl, front_zeros .little h]
  have hrun := (TransitionSystem.Run.next (.start rfl) (.feed (List.replicate n 0)) :
    (sessions .little 0).Run _).next (.turn 0)
  rw [hturn] at hrun
  exact hrun

/-- As few zeros as make up a header are harmless. -/
theorem session_bounded_header : ∃ states, (sessions .little 0).Run states ∧
    ∀ t ∈ states, ∀ d, t.phase = .idle d →
      d.buffer.length < frameHeaderSize + maxFramePayload := by
  have hrun := run_zeros (Nat.le_refl frameHeaderSize)
  refine ⟨_, hrun, (session_bounded_iff hrun rfl).mpr ?_⟩
  intro rest hpassed _
  cases hpassed with
  | here => simp [maxFramePayload]
  | after hfront =>
      rw [front_zeros .little (Nat.le_refl frameHeaderSize)] at hfront
      cases hfront

/-- After a bad magic number, bytes pile up to the size of a maximal frame and beyond. -/
theorem zeros_pile_up : ∃ states, (sessions .little 0).Run states ∧
    ¬ ∀ t ∈ states, ∀ d, t.phase = .idle d →
      d.buffer.length < frameHeaderSize + maxFramePayload := by
  refine ⟨_, run_zeros (n := frameHeaderSize + maxFramePayload) (Nat.le_add_right _ _), fun h => ?_⟩
  have hlen := h _ List.mem_cons_self _ rfl
  simp [Decoder.fresh] at hlen

end DarwinCore.Protocol
