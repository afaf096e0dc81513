import DarwinCore.Verification.Protocol.Accounting
import DarwinCore.Verification.Protocol.RoundTrip

/-! # A decoder in use

Messages and events may be taken out of the queues between any two calls of `Feed`: together
with what is left they are what a decoder that nobody drains would hold. Every assembly that is
opened is completed, dropped after its timeout, or still pending. -/

namespace DarwinCore.Protocol

open ByteOrder Maps

variable {e : Endian} {ms : UInt32} {now : ℕ} {d d' : Decoder} {hdr : FrameHeader}

/-! ## What a turn does to the rest of the decoder -/

namespace Decoder

theorem onMessage_passes {payload : List UInt8} {len : ℕ}
    (h : (d.onMessage e now payload len).ending = .next d') :
    ∃ m, d' = d.finishSlice (MessageHeader.load e payload).messageId m := by
  unfold onMessage at h
  dsimp only at h
  split at h
  · cases h
  · split at h
    · cases h
    · split at h
      · cases h
      · split at h
        · split at h
          · cases h
          · exact ⟨_, (Ending.next.inj h).symm⟩
        · exact ⟨_, (Ending.next.inj h).symm⟩

theorem onStream_passes {type : FrameType} {payload : List UInt8} {len : ℕ}
    (h : (d.onStream e type payload len).ending = .next d') :
    ∃ ev, d' = d.countEvent.pushEvent ev := by
  rcases onStream_cases e 0 d type payload len with hfault | ⟨ev, hev⟩
  · rw [hfault] at h
    cases h
  · rw [hev] at h
    exact ⟨ev, (Ending.next.inj h).symm⟩

/-- The three ways in which the loop goes on. -/
inductive Passes (e : Endian) (d : Decoder) : Decoder → Prop where
  | spoiled {hdr : FrameHeader} (hfront : front e d.buffer = .complete hdr)
      (hcrc : hdr.crcMismatch e (d.buffer.drop frameHeaderSize) = true) :
      Passes e d (d.countFrame.countCrcError.popFrame hdr)
  | message {hdr : FrameHeader} (hfront : front e d.buffer = .complete hdr)
      (hcrc : hdr.crcMismatch e (d.buffer.drop frameHeaderSize) = false)
      (htype : FrameType.ofByte hdr.type = .message) (m : MessageAssembly) :
      Passes e d ((d.countFrame.finishSlice
        (MessageHeader.load e (d.buffer.drop frameHeaderSize)).messageId m).popFrame hdr)
  | event {hdr : FrameHeader} (hfront : front e d.buffer = .complete hdr)
      (hcrc : hdr.crcMismatch e (d.buffer.drop frameHeaderSize) = false)
      (htype : FrameType.ofByte hdr.type ≠ .message) (ev : StreamEvent) :
      Passes e d ((d.countFrame.countEvent.pushEvent ev).popFrame hdr)

theorem passes_of_next (h : (d.turn e now).ending = .next d') : Passes e d d' := by
  have hmapped {x : Ending} {hdr : FrameHeader} (hx : x.mapNext (popFrame · hdr) = .next d') :
      ∃ d'', x = .next d'' ∧ d''.popFrame hdr = d' := by
    cases x with
    | next d'' => exact ⟨d'', rfl, Ending.next.inj hx⟩
    | _ => cases hx
  unfold turn at h
  cases hfront : front e d.buffer with
  | incomplete =>
    rw [hfront] at h
    cases h
  | rejected error =>
    rw [hfront] at h
    cases h
  | complete hdr =>
    rw [hfront] at h
    dsimp only [onFrame] at h
    cases hcrc : hdr.crcMismatch e (d.buffer.drop frameHeaderSize) with
    | true =>
      rw [hcrc] at h
      cases h
      exact .spoiled hfront hcrc
    | false =>
      rw [hcrc, if_neg Bool.false_ne_true] at h
      obtain ⟨d'', hbody, rfl⟩ := hmapped h
      unfold onBody at hbody
      dsimp only at hbody
      by_cases htype : FrameType.ofByte hdr.type = .message
      · rw [if_pos htype] at hbody
        obtain ⟨m, rfl⟩ := onMessage_passes hbody
        exact .message hfront hcrc htype m
      · rw [if_neg htype] at hbody
        obtain ⟨ev, rfl⟩ := onStream_passes hbody
        exact .event hfront hcrc htype ev

/-! ## What a turn leaves alone -/

/-- Neither the timeout nor the count of what was dropped has changed. -/
structure SameDrops (d d' : Decoder) : Prop where
  timeout : d'.messageTimeoutMs = d.messageTimeoutMs
  cleanups : d'.stats.timeoutCleanups = d.stats.timeoutCleanups

theorem finishSlice_sameDrops (d : Decoder) (id : UInt64) (m : MessageAssembly) :
    SameDrops d (d.finishSlice id m) := by
  unfold finishSlice
  split <;> exact ⟨rfl, rfl⟩

theorem Passes.sameDrops (h : Passes e d d') : SameDrops d d' := by
  cases h with
  | spoiled => exact ⟨rfl, rfl⟩
  | message hfront hcrc htype m =>
    have hfinish := finishSlice_sameDrops d.countFrame
      (MessageHeader.load e (d.buffer.drop frameHeaderSize)).messageId m
    exact ⟨hfinish.timeout, hfinish.cleanups⟩
  | event => exact ⟨rfl, rfl⟩

structure Extends (d d' : Decoder) : Prop where
  messages : d.completedMessages <+: d'.completedMessages
  events : d.streamEvents <+: d'.streamEvents

theorem Extends.trans {d'' : Decoder} (h : Extends d d') (h' : Extends d' d'') : Extends d d'' :=
  ⟨h.messages.trans h'.messages, h.events.trans h'.events⟩

theorem Passes.extends (h : Passes e d d') : Extends d d' := by
  cases h with
  | spoiled => exact ⟨List.prefix_rfl, List.prefix_rfl⟩
  | message hfront hcrc htype m =>
    refine ⟨?_, ?_⟩
    · change d.completedMessages <+: (d.countFrame.finishSlice _ m).completedMessages
      unfold finishSlice
      split
      · exact List.prefix_append _ _
      · exact List.prefix_rfl
    · change d.streamEvents <+: (d.countFrame.finishSlice _ m).streamEvents
      rw [finishSlice_streamEvents]
      exact List.prefix_rfl
  | event hfront hcrc htype ev => exact ⟨List.prefix_rfl, List.prefix_append _ _⟩

theorem tryDecode_extends {clock : ℕ → ℕ} (h : d.tryDecode e clock = .normal d') :
    Extends d d' := by
  induction d using turn_induction (e := e) generalizing clock with
  | step d ih =>
    rw [tryDecode_eq] at h
    cases hend : (d.turn e (clock 0)).ending with
    | wait x =>
      have hd := turn_derivation e (clock 0) d
      rw [hend] at hd h
      cases h
      cases hd
      exact ⟨List.prefix_rfl, List.prefix_rfl⟩
    | next x =>
      rw [hend] at h
      exact (passes_of_next hend).extends.trans (ih _ x hend h)
    | throws error x =>
      rw [hend] at h
      cases h
    | fault x =>
      rw [hend] at h
      cases h

/-! ## Taking out of the queues -/

/-- The decoder as if the messages and the events had not been taken out. -/
def undrained (messages : List MessageComplete) (events : List StreamEvent) (d : Decoder) :
    Decoder :=
  { d with
    completedMessages := messages ++ d.completedMessages
    streamEvents := events ++ d.streamEvents }

variable (messages : List MessageComplete) (events : List StreamEvent)

theorem finishSlice_undrained (d : Decoder) (id : UInt64) (m : MessageAssembly) :
    (d.undrained messages events).finishSlice id m =
      (d.finishSlice id m).undrained messages events := by
  unfold finishSlice
  split
  · simp [undrained]
  · rfl

theorem pushEvent_undrained (d : Decoder) (ev : StreamEvent) :
    (d.undrained messages events).pushEvent ev =
      (d.pushEvent ev).undrained messages events := by
  simp [undrained, pushEvent]

theorem onMessage_undrained (d : Decoder) (payload : List UInt8) (len : ℕ) :
    ((d.undrained messages events).onMessage e now payload len).ending =
      (d.onMessage e now payload len).ending.map (undrained messages events) := by
  have hassembly : ∀ mh, (d.undrained messages events).assembly now mh = d.assembly now mh :=
    fun _ => rfl
  unfold onMessage
  simp only [hassembly, finishSlice_undrained]
  split
  · rfl
  · split
    · rfl
    · split
      · rfl
      · split
        · split <;> rfl
        · rfl

theorem onStream_undrained (d : Decoder) (type : FrameType) (payload : List UInt8) (len : ℕ) :
    ((d.undrained messages events).onStream e type payload len).ending =
      (d.onStream e type payload len).ending.map (undrained messages events) := by
  have hcount : (d.undrained messages events).countEvent = d.countEvent.undrained messages events :=
    rfl
  unfold onStream
  simp only [hcount, pushEvent_undrained]
  split
  · rfl
  · cases type with
    | streamChunk =>
      simp only
      split <;> rfl
    | _ => rfl

/-- The loop does not look at the queues. -/
theorem turn_undrained (now : ℕ) (d : Decoder) :
    ((d.undrained messages events).turn e now).ending =
      (d.turn e now).ending.map (undrained messages events) := by
  have hmap (x : Ending) (hdr : FrameHeader) :
      (x.map (undrained messages events)).mapNext (popFrame · hdr) =
        (x.mapNext (popFrame · hdr)).map (undrained messages events) := by
    cases x <;> rfl
  have hbuffer : (d.undrained messages events).buffer = d.buffer := rfl
  unfold turn
  rw [hbuffer]
  cases front e d.buffer with
  | incomplete => rfl
  | rejected error => rfl
  | complete hdr =>
    simp only [onFrame, hbuffer]
    split
    · rfl
    · simp only [Turn.mapNext, onBody, ← hmap]
      congr 1
      split
      · exact onMessage_undrained messages events d.countFrame _ _
      · exact onStream_undrained messages events d.countFrame _ _ _

theorem tryDecode_undrained (clock : ℕ → ℕ) (d : Decoder) :
    (d.undrained messages events).tryDecode e clock =
      (d.tryDecode e clock).map (undrained messages events) := by
  induction d using turn_induction (e := e) generalizing clock with
  | step d ih =>
    rw [tryDecode_eq, tryDecode_eq, turn_undrained]
    cases hend : (d.turn e (clock 0)).ending with
    | next d' => exact ih _ d' hend _
    | _ => rfl

/-! ## Cleaning up -/

/-- What cleaning up makes of the assemblies in `order`: those that have timed out are dropped and
counted, and everything else stays. -/
structure Cleaned (now : ℕ) (order : List UInt64) (d : Decoder) (count : ℕ) (d' : Decoder) :
    Prop where
  same : d' = { d with
    messages := d'.messages
    stats := { d.stats with timeoutCleanups := d.stats.timeoutCleanups + count } }
  lookup : ∀ id, d'.messages.lookup id = (d.messages.lookup id).filter fun m =>
    !(decide (id ∈ order) && m.isTimeout d.messageTimeoutMs now)
  card : d'.messages.keys.card + count = d.messages.keys.card
  idle : count = 0 → d' = d

theorem cleaned_nil : Cleaned now [] d 0 d where
  same := rfl
  lookup id := by cases d.messages.lookup id <;> rfl
  card := rfl
  idle _ := rfl

/-- An assembly that is dropped, and then the others. -/
theorem Cleaned.cons_dropped {id : UInt64} {order : List UInt64} {m : MessageAssembly} {count : ℕ}
    (hid : d.messages.lookup id = some m) (htimeout : m.isTimeout d.messageTimeoutMs now = true)
    (h : Cleaned now order { d with
      messages := d.messages.erase id
      stats := { d.stats with timeoutCleanups := d.stats.timeoutCleanups + 1 } } count d') :
    Cleaned now (id :: order) d (count + 1) d' where
  same := by
    rw [h.same]
    simp only [Nat.add_assoc, Nat.add_comm 1]
  lookup i := by
    rw [h.lookup]
    by_cases hi : i = id
    · subst hi
      simp [hid, htimeout, Option.filter]
    · simp [hi, Finmap.lookup_erase_ne hi]
  card := by
    have hrest := h.card
    have herase := card_erase_of_some hid
    dsimp only at hrest
    omega
  idle := nofun

theorem Cleaned.cons_kept {id : UInt64} {order : List UInt64} {count : ℕ} (hnew : id ∉ order)
    (hkept : ∀ m, d.messages.lookup id = some m → m.isTimeout d.messageTimeoutMs now = false)
    (h : Cleaned now order d count d') : Cleaned now (id :: order) d count d' where
  same := h.same
  lookup i := by
    rw [h.lookup]
    by_cases hi : i = id
    · subst hi
      cases hm : d.messages.lookup i with
      | none => rfl
      | some m => simp [hnew, hkept m hm, Option.filter]
    · simp [hi]
  card := h.card
  idle := h.idle

theorem cleanupLoop_cleaned {order : List UInt64} (hnodup : order.Nodup) (cleaned : ℕ)
    (d : Decoder) : ∃ count d', cleanupLoop now cleaned d order = (cleaned + count, d') ∧
      Cleaned now order d count d' := by
  induction order generalizing cleaned d with
  | nil => exact ⟨0, d, rfl, cleaned_nil⟩
  | cons id order ih =>
    obtain ⟨hnew, hrest⟩ := List.nodup_cons.mp hnodup
    rw [cleanupLoop]
    unfold cleanupTurn
    cases hm : d.messages.lookup id with
    | none =>
      obtain ⟨count, d', hloop, hclean⟩ := ih hrest cleaned d
      exact ⟨count, d', hloop, hclean.cons_kept hnew (by simp [hm])⟩
    | some m =>
      cases htimeout : m.isTimeout d.messageTimeoutMs now with
      | false =>
        obtain ⟨count, d', hloop, hclean⟩ := ih hrest cleaned d
        refine ⟨count, d', ?_, hclean.cons_kept hnew ?_⟩
        · simpa only [htimeout, Bool.false_eq_true, if_false] using hloop
        · rintro m' hm'
          rw [hm] at hm'
          exact Option.some.inj hm' ▸ htimeout
      | true =>
        obtain ⟨count, d', hloop, hclean⟩ := ih hrest (cleaned + 1) _
        refine ⟨count + 1, d', ?_, hclean.cons_dropped hm htimeout⟩
        simp only [htimeout, if_true]
        rw [hloop, Nat.add_assoc, Nat.add_comm 1]

/-- Of a whole map, exactly the assemblies that have timed out are dropped. -/
theorem cleanupTimeoutMessages_cleaned {order : List UInt64} {cleaned : ℕ}
    (hnodup : order.Nodup)
    (hclean : d.cleanupTimeoutMessages now order = (cleaned, d')) :
    Cleaned now order d cleaned d' := by
  have hcleaned : ∃ count d'', cleanupLoop now 0 d order = (0 + count, d'') ∧
      Cleaned now order d count d'' := cleanupLoop_cleaned hnodup 0 d
  obtain ⟨count, d'', hloop, h⟩ := hcleaned
  rw [cleanupTimeoutMessages, hloop, Nat.zero_add] at hclean
  obtain ⟨rfl, rfl⟩ := Prod.mk.inj hclean
  exact h

theorem Cleaned.sameTimeout {order : List UInt64} {count : ℕ} (h : Cleaned now order d count d') :
    d'.messageTimeoutMs = d.messageTimeoutMs := by
  rw [h.same]

theorem Cleaned.stats {order : List UInt64} {count : ℕ} (h : Cleaned now order d count d') :
    d'.stats = { d.stats with timeoutCleanups := d.stats.timeoutCleanups + count } := by
  rw [h.same]

theorem Cleaned.queues {order : List UInt64} {count : ℕ} (h : Cleaned now order d count d') :
    d'.buffer = d.buffer ∧ d'.completedMessages = d.completedMessages ∧
      d'.streamEvents = d.streamEvents := by
  rw [h.same]
  exact ⟨rfl, rfl, rfl⟩

end Decoder

/-! ## Uses and sessions -/

def Phase.decoder : Phase → Decoder
  | idle d => d
  | decoding d => d
  | crashed d => d

def Phase.map (f : Decoder → Decoder) : Phase → Phase
  | idle d => .idle (f d)
  | decoding d => .decoding (f d)
  | crashed d => .crashed (f d)

theorem Phase.decoder_map (f : Decoder → Decoder) (phase : Phase) :
    (phase.map f).decoder = f phase.decoder := by
  cases phase <;> rfl

theorem Ending.phase_map (f : Decoder → Decoder) (x : Ending) :
    (x.map f).phase = x.phase.map f := by
  cases x <;> rfl

namespace DecoderUse

variable {u v : DecoderUse}

/-- The session in which nothing is taken out of the queues. -/
def session (u : DecoderUse) : Session :=
  ⟨u.fed, u.phase.map (Decoder.undrained u.messages u.events)⟩

def whole (u : DecoderUse) : Decoder :=
  u.phase.decoder.undrained u.messages u.events

/-- As long as nothing has been dropped, the session is one of a fresh decoder. -/
structure Follows (e : Endian) (ms : UInt32) (u : DecoderUse) : Prop where
  timeout : u.phase.decoder.messageTimeoutMs = ms
  runs : u.phase.decoder.stats.timeoutCleanups = 0 →
    ∃ past, (sessions e ms).Run (u.session :: past)

theorem session_of_idle (h : u.phase = .idle d) :
    u.session = ⟨u.fed, .idle (d.undrained u.messages u.events)⟩ := by
  rw [session, h]
  rfl

theorem session_of_decoding (h : u.phase = .decoding d) :
    u.session = ⟨u.fed, .decoding (d.undrained u.messages u.events)⟩ := by
  rw [session, h]
  rfl

end DecoderUse

namespace Decoder

theorem turn_sameDrops (now : ℕ) (d : Decoder) :
    SameDrops d (d.turn e now).ending.phase.decoder := by
  have hd := turn_derivation e now d
  cases hend : (d.turn e now).ending with
  | next d' => exact (passes_of_next hend).sameDrops
  | wait d' =>
    rw [hend] at hd
    cases hd
    exact ⟨rfl, rfl⟩
  | throws error d' =>
    rw [hend] at hd
    cases hd with
    | reject => exact ⟨rfl, rfl⟩
    | throws hfront hcrc hb =>
      rw [hb.throws_eq]
      exact ⟨rfl, rfl⟩
  | fault d' =>
    rw [hend] at hd
    cases hd <;> exact ⟨rfl, rfl⟩

theorem getMessage_eq {message : MessageComplete} (h : d.getMessage = some (message, d')) :
    d = { d' with completedMessages := message :: d'.completedMessages } := by
  unfold getMessage at h
  split at h
  · cases h
  · rename_i first rest hqueue
    cases h
    rw [← hqueue]

theorem getStreamEvent_eq {event : StreamEvent} (h : d.getStreamEvent = some (event, d')) :
    d = { d' with streamEvents := event :: d'.streamEvents } := by
  unfold getStreamEvent at h
  split at h
  · cases h
  · rename_i first rest hqueue
    cases h
    rw [← hqueue]

end Decoder

namespace DecoderUse

variable {u v : DecoderUse}

theorem Step.follows (hstep : Step e u v) (h : u.Follows e ms) : v.Follows e ms := by
  obtain ⟨htimeout, hruns⟩ := h
  cases hstep with
  | @feed d data hphase =>
    rw [hphase] at htimeout hruns
    refine ⟨htimeout, fun hnone => ?_⟩
    obtain ⟨past, hrun⟩ := hruns hnone
    rw [session_of_idle hphase] at hrun
    exact ⟨_, hrun.next (.feed data)⟩
  | @turn d now hphase =>
    have hsame := d.turn_sameDrops (e := e) now
    rw [hphase] at htimeout hruns
    refine ⟨hsame.timeout.trans htimeout, fun hnone => ?_⟩
    obtain ⟨past, hrun⟩ := hruns (hsame.cleanups.symm.trans hnone)
    rw [session_of_decoding hphase] at hrun
    have hnext := hrun.next (.turn now)
    rw [Decoder.turn_undrained, Ending.phase_map] at hnext
    exact ⟨_, hnext⟩
  | @getMessage d d' message hphase hget =>
    obtain rfl := Decoder.getMessage_eq hget
    rw [hphase] at htimeout hruns
    refine ⟨htimeout, fun hnone => ?_⟩
    obtain ⟨past, hrun⟩ := hruns hnone
    rw [session_of_idle hphase] at hrun
    refine ⟨past, ?_⟩
    rw [session_of_idle rfl]
    simpa only [Decoder.undrained, List.append_assoc, List.singleton_append] using hrun
  | @getStreamEvent d d' event hphase hget =>
    obtain rfl := Decoder.getStreamEvent_eq hget
    rw [hphase] at htimeout hruns
    refine ⟨htimeout, fun hnone => ?_⟩
    obtain ⟨past, hrun⟩ := hruns hnone
    rw [session_of_idle hphase] at hrun
    refine ⟨past, ?_⟩
    rw [session_of_idle rfl]
    simpa only [Decoder.undrained, List.append_assoc, List.singleton_append] using hrun
  | @cleanupTimeoutMessages d d' cleaned now order hphase hnodup horder hclean =>
    have hcleaned := Decoder.cleanupTimeoutMessages_cleaned hnodup hclean
    rw [hphase] at htimeout hruns
    refine ⟨hcleaned.sameTimeout.trans htimeout, fun hnone => ?_⟩
    have hcleanups := congrArg DecoderStats.timeoutCleanups hcleaned.stats
    rw [show d'.stats.timeoutCleanups = 0 from hnone] at hcleanups
    obtain rfl := hcleaned.idle (Nat.eq_zero_of_add_eq_zero_left hcleanups.symm)
    obtain ⟨past, hrun⟩ := hruns hnone
    exact ⟨past, hphase ▸ hrun⟩

end DecoderUse

/-- Where nothing has been dropped, a use of a decoder is a session together with what has been
taken out. -/
theorem uses_follow {states : List DecoderUse} (hrun : (decoderUses e ms).Run states) :
    ∀ u ∈ states, u.Follows e ms := by
  refine hrun.invariant ?_ fun u v h (hstep : DecoderUse.Step e u v) => hstep.follows h
  rintro u rfl
  exact ⟨rfl, fun _ => ⟨[], .start rfl⟩⟩

/-! ## The rest of a stream -/

/-- With the rest of the stream the decoder ends up like `final`. -/
structure Decoder.LeadsTo (e : Endian) (d : Decoder) (rest : List UInt8) (final : Decoder) :
    Prop where
  sized : WellSizedStream e (d.buffer ++ rest)
  agrees : FeedResult.Agrees ((d.receive rest).tryDecode e fun _ => 0) (.normal final)

def Phase.LeadsTo (e : Endian) (rest : List UInt8) (final : Decoder) : Phase → Prop
  | idle d => front e d.buffer = .incomplete ∧ d.LeadsTo e rest final
  | decoding d => d.LeadsTo e rest final
  | crashed _ => False

theorem Phase.LeadsTo.decoder {rest : List UInt8} {final : Decoder} {phase : Phase}
    (h : phase.LeadsTo e rest final) : phase.decoder.LeadsTo e rest final := by
  cases phase with
  | idle d => exact h.2
  | decoding d => exact h
  | crashed d => exact h.elim

namespace Decoder

variable {rest : List UInt8} {final : Decoder}

theorem agrees_clock (hsized : WellSizedStream e d.buffer) {clock : ℕ → ℕ} (clock' : ℕ → ℕ)
    (h : FeedResult.Agrees (d.tryDecode e clock) (.normal final)) :
    FeedResult.Agrees (d.tryDecode e clock') (.normal final) := by
  have hself : Alike d d := ⟨⟨rfl, rfl⟩, rfl, fun _ => rfl, rfl⟩
  have halike := hself.tryDecode clock' clock hsized
  generalize d.tryDecode e clock = x at h halike
  generalize d.tryDecode e clock' = y at halike ⊢
  cases halike with
  | normal hxy => exact Alike.trans hxy h
  | error => exact h.elim
  | fault => exact h.elim

theorem LeadsTo.receive (data : List UInt8) (h : d.LeadsTo e (data ++ rest) final) :
    (d.receive data).LeadsTo e rest final := by
  refine ⟨?_, ?_⟩
  · rw [receive_buffer, List.append_assoc]
    exact h.sized
  · rw [← receive_append]
    exact h.agrees

/-- The loop waits or goes on. -/
theorem LeadsTo.turn (h : d.LeadsTo e rest final) (now : ℕ) :
    ((d.turn e now).ending = .wait d ∧ front e d.buffer = .incomplete) ∨
      ∃ d', (d.turn e now).ending = .next d' ∧ d'.LeadsTo e rest final := by
  by_cases hfront : front e d.buffer = .incomplete
  · exact .inl ⟨by simp only [Decoder.turn, hfront], hfront⟩
  · have hturn : ((d.receive rest).turn e now).ending =
        (d.turn e now).ending.map (Decoder.receive · rest) :=
      turn_receive rest hfront fun hdr hcomplete => h.sized.left.front hcomplete
    have hagrees := agrees_clock (d := d.receive rest) h.sized (fun _ => now) h.agrees
    rw [tryDecode_eq, hturn] at hagrees
    right
    cases hend : (d.turn e now).ending with
    | wait d' =>
      have hd := turn_derivation e now d
      rw [hend] at hd
      cases hd with
      | wait hincomplete => exact absurd hincomplete hfront
    | next d' =>
      rw [hend] at hagrees
      obtain ⟨hdr, hcomplete, hbuffer⟩ := turn_next_buffer hend
      have hsized : WellSizedStream e (d'.buffer ++ rest) := by
        rw [hbuffer, ← drop_frame_append rest hcomplete]
        exact h.sized.tail (front_append_complete rest hcomplete)
      exact ⟨d', rfl, hsized, agrees_clock (d := d'.receive rest) hsized (fun _ => 0) hagrees⟩
    | throws error d' =>
      rw [hend] at hagrees
      exact hagrees.elim
    | fault d' =>
      rw [hend] at hagrees
      exact hagrees.elim

/-- On the way nothing is thrown, whatever has been taken out of the queues. -/
theorem LeadsTo.not_throws {messages : List MessageComplete} {events : List StreamEvent}
    (h : (d.undrained messages events).LeadsTo e rest final) (now : ℕ) (error : ProtocolError)
    (d' : Decoder) : (d.turn e now).ending ≠ .throws error d' := by
  intro hthrows
  have hturn := h.turn now
  rw [turn_undrained, hthrows] at hturn
  rcases hturn with ⟨hwait, -⟩ | ⟨d'', hnext, -⟩
  · cases hwait
  · cases hnext

theorem LeadsTo.tryDecode (h : d.LeadsTo e rest final) (clock : ℕ → ℕ) :
    ∃ d', d.tryDecode e clock = .normal d' ∧ front e d'.buffer = .incomplete ∧
      d'.LeadsTo e rest final := by
  induction d using turn_induction (e := e) generalizing clock with
  | step d ih =>
    rw [tryDecode_eq]
    rcases h.turn (clock 0) with ⟨hwait, hfront⟩ | ⟨d', hnext, hd'⟩
    · rw [hwait]
      exact ⟨d, rfl, hfront, h⟩
    · rw [hnext]
      exact ih _ d' hnext hd' _

theorem LeadsTo.extends (h : d.LeadsTo e rest final) : Extends d final := by
  have hagrees := h.agrees
  cases htry : (d.receive rest).tryDecode e fun _ => 0 with
  | normal x =>
    rw [htry] at hagrees
    have hx := tryDecode_extends htry
    exact ⟨hagrees.output.messages ▸ hx.messages, hagrees.output.events ▸ hx.events⟩
  | error err x =>
    rw [htry] at hagrees
    exact hagrees.elim
  | fault x =>
    rw [htry] at hagrees
    exact hagrees.elim

theorem LeadsTo.arrived (h : d.LeadsTo e [] final) (hfront : front e d.buffer = .incomplete) :
    SameOutput d final := by
  have hagrees := h.agrees
  rw [receive_nil, tryDecode_of_incomplete _ hfront] at hagrees
  exact hagrees.output

end Decoder

/-- Whenever a fresh decoder is fed with the beginning of a stream, the rest leads to where the
whole stream leads. -/
theorem session_leadsTo {stream : List UInt8} {final : Decoder}
    (hstart : (Decoder.fresh ms).LeadsTo e stream final) {states : List Session}
    (hrun : (sessions e ms).Run states) :
    ∀ s ∈ states, ∀ rest, s.fed ++ rest = stream → s.phase.LeadsTo e rest final := by
  refine hrun.invariant ?_ ?_
  · rintro s rfl rest rfl
    exact ⟨rfl, hstart⟩
  · rintro s t h (hstep : Session.Step e s t) rest hrest
    cases hstep with
    | @feed fed d data =>
      dsimp only at hrest
      rw [List.append_assoc] at hrest
      exact (h (data ++ rest) hrest).2.receive data
    | @turn fed d now =>
      have hleads : d.LeadsTo e rest final := h rest hrest
      rcases hleads.turn now with ⟨hwait, hfront⟩ | ⟨d', hnext, hd'⟩
      · rw [hwait]
        exact ⟨hfront, hleads⟩
      · rw [hnext]
        exact hd'

/-- Every interleaving of the frames of encoded messages and stream items leads a fresh decoder to
where all of them have been delivered. -/
theorem interleaved_leadsTo {originals : List Outgoing} {items : List StreamItem}
    {messageFrames : List (List Frame)} {streamFrames fs : List Frame}
    (hids : (originals.map Outgoing.messageId).Nodup) (hsend : ∀ m ∈ originals, m.Sendable)
    (hparts : List.Forall₂ (Frame.DeliversPart e) (originals.flatMap Outgoing.parts)
      messageFrames.flatten)
    (hstream : items.mapM (StreamItem.encode e) = .ok streamFrames)
    (hperm : fs.Perm (messageFrames.flatten ++ streamFrames))
    (horder : fs.filter Frame.isStream = streamFrames) :
    ∃ final : Decoder, final.Delivered e originals items fs ∧
      ∀ ms, (Decoder.fresh ms).LeadsTo e (Frame.stream e fs) final := by
  have hitems := encode_items hstream
  have hgood : ∀ f ∈ fs, f.WellFormed := fun f hf =>
    (wellFormed_of_mem hparts hitems hperm hf).1
  have hsized : WellSizedStream e (Frame.stream e fs) := Frame.wellSized_stream e hgood
  have hinput : Decoder.input [⟨fun _ => 0, Frame.stream e fs⟩] = Frame.stream e fs :=
    List.append_nil _
  obtain ⟨final, hfeed, hdelivered⟩ := Decoder.feedAll_interleaved hids hsend hparts hitems hperm
    horder 0 hinput
  have hwhole : ((Decoder.fresh 0).receive (Frame.stream e fs)).tryDecode e (fun _ => 0) =
      .normal final := by
    rw [Decoder.feedAll, Decoder.feed] at hfeed
    cases htry : ((Decoder.fresh 0).receive (Frame.stream e fs)).tryDecode e (fun _ => 0) with
    | normal d =>
      rw [htry] at hfeed
      exact hfeed
    | error err d =>
      rw [htry] at hfeed
      cases hfeed
    | fault d =>
      rw [htry] at hfeed
      cases hfeed
  refine ⟨final, hdelivered, fun ms => ⟨hsized, ?_⟩⟩
  have halike := ((Decoder.fresh_alike ms 0).receive (Frame.stream e fs)).tryDecode (e := e)
    (fun _ => 0) (fun _ => 0) hsized
  rw [hwhole] at halike
  generalize ((Decoder.fresh ms).receive (Frame.stream e fs)).tryDecode e (fun _ => 0) = x
    at halike ⊢
  cases halike with
  | normal h => exact h

/-- However a decoder is drained while the bytes of encoded messages and stream items arrive in
any parts, nothing is thrown, what is taken out are the messages and the events in the order in
which they become complete, and with what is left in the queues they are all of them in the end. -/
theorem uses_roundTrip (e : Endian) {originals : List Outgoing} {items : List StreamItem}
    {streamFrames : List Frame} (hids : (originals.map Outgoing.messageId).Nodup)
    (hsend : ∀ m ∈ originals, m.Sendable)
    (hstream : items.mapM (StreamItem.encode e) = .ok streamFrames) :
    ∃ messageFrames, originals.mapM (Outgoing.encode e) = .ok messageFrames ∧
      ∀ fs : List Frame, fs.Perm (messageFrames.flatten ++ streamFrames) →
        fs.filter Frame.isStream = streamFrames →
        ∃ final : Decoder, final.Delivered e originals items fs ∧
          ∀ ms states, (decoderUses e ms).Run states → ∀ u ∈ states, ∀ rest,
            u.fed ++ rest = (Encoder.serializeFrames e fs).flatten →
            u.phase.decoder.stats.timeoutCleanups = 0 →
            (∀ d, u.phase ≠ .crashed d) ∧
              (∀ d now error d', u.phase = .decoding d → (d.turn e now).ending ≠ .throws error d') ∧
              u.messages <+: final.completedMessages ∧
              u.events <+: final.streamEvents ∧
              (rest = [] → ∀ d, u.phase = .idle d →
                u.messages ++ d.completedMessages = final.completedMessages ∧
                  u.events ++ d.streamEvents = final.streamEvents) := by
  obtain ⟨messageFrames, hencode, hparts⟩ := encode_originals e hsend
  refine ⟨messageFrames, hencode, fun fs hperm horder => ?_⟩
  obtain ⟨final, hdelivered, hstart⟩ :=
    interleaved_leadsTo hids hsend hparts hstream hperm horder
  refine ⟨final, hdelivered, fun ms states hrun u hu rest hrest hnone => ?_⟩
  obtain ⟨past, hsession⟩ := (uses_follow hrun u hu).runs hnone
  have hleads := session_leadsTo (hstart ms) hsession _ List.mem_cons_self rest hrest
  have hextends := hleads.decoder.extends
  rw [DecoderUse.session, Phase.decoder_map] at hextends
  refine ⟨fun d hcrashed => ?_, fun d now error d' hdecoding => ?_,
    (List.prefix_append _ _).trans hextends.messages,
    (List.prefix_append _ _).trans hextends.events, fun hend d hidle => ?_⟩
  · rw [DecoderUse.session, hcrashed] at hleads
    exact hleads
  · rw [DecoderUse.session_of_decoding hdecoding] at hleads
    exact Decoder.LeadsTo.not_throws hleads now error d'
  · subst hend
    rw [DecoderUse.session_of_idle hidle] at hleads
    have hsame := hleads.2.arrived hleads.1
    exact ⟨hsame.messages, hsame.events⟩

/-- Two messages and a stream start, from a little-endian host. -/
theorem uses_roundTrip_two :
    ∃ messageFrames, [⟨7, [0x41], true⟩, ⟨9, [0x42, 0x43], false⟩].mapM (Outgoing.encode .little) =
        .ok messageFrames ∧
      ∀ fs : List Frame,
        fs.Perm (messageFrames.flatten ++ [⟨⟨0x5A, 0x5C, 1, 2, 0, 16, 0, 0⟩,
          [3, 0, 0, 0, 0, 0, 0, 0, 2, 0, 0, 0, 0, 0, 0, 0]⟩]) →
        fs.filter Frame.isStream = [⟨⟨0x5A, 0x5C, 1, 2, 0, 16, 0, 0⟩,
          [3, 0, 0, 0, 0, 0, 0, 0, 2, 0, 0, 0, 0, 0, 0, 0]⟩] →
        ∃ final : Decoder, final.Delivered .little [⟨7, [0x41], true⟩, ⟨9, [0x42, 0x43], false⟩]
            [.start 3 2] fs ∧
          ∀ ms states, (decoderUses .little ms).Run states → ∀ u ∈ states, ∀ rest,
            u.fed ++ rest = (Encoder.serializeFrames .little fs).flatten →
            u.phase.decoder.stats.timeoutCleanups = 0 →
            (∀ d, u.phase ≠ .crashed d) ∧
              (∀ d now error d', u.phase = .decoding d →
                (d.turn .little now).ending ≠ .throws error d') ∧
              u.messages <+: final.completedMessages ∧
              u.events <+: final.streamEvents ∧
              (rest = [] → ∀ d, u.phase = .idle d →
                u.messages ++ d.completedMessages = final.completedMessages ∧
                  u.events ++ d.streamEvents = final.streamEvents) := by
  refine uses_roundTrip .little (by decide) ?_ (by decide +kernel)
  rintro m (_ | ⟨_, _ | ⟨_, ⟨⟩⟩⟩)
  · exact ⟨by simp, by decide⟩
  · exact ⟨by simp, by decide⟩

/-! ## The accounts -/

def Decoder.opens (e : Endian) (d : Decoder) : Bool :=
  match front e d.buffer with
  | .complete hdr =>
      !hdr.crcMismatch e (d.buffer.drop frameHeaderSize) &&
        decide (FrameType.ofByte hdr.type = .message) &&
        decide ((MessageHeader.load e (d.buffer.drop frameHeaderSize)).messageId ∉ d.messages)
  | _ => false

def DecoderUse.countOpened (e : Endian) (u v : DecoderUse) (opened : ℕ) : ℕ :=
  match u.phase, v.phase with
  | .decoding d, .decoding _ => opened + (d.opens e).toNat
  | _, _ => opened

/-- Uses with the number of assemblies opened so far. -/
def countingUses (e : Endian) (ms : UInt32) : TransitionSystem (DecoderUse × ℕ) :=
  (decoderUses e ms).withAuxiliary 0 (DecoderUse.countOpened e)

/-- The statistics are those of what has been taken out and what is there. Each assembly that was
opened has been completed or dropped, or is pending. -/
structure Decoder.Balanced (d : Decoder) (messages events opened : ℕ) : Prop where
  messages : d.getStats.messagesCompleted = messages + d.completedMessages.length
  events : d.getStats.streamEvents = events + d.streamEvents.length
  opened : opened = d.getStats.messagesCompleted + d.getStats.timeoutCleanups +
    d.getStats.pendingMessages

namespace Decoder

/-- A slice that opens an assembly adds one that is completed or pending. -/
theorem finishSlice_count (d : Decoder) (id : UInt64) (m : MessageAssembly) :
    (d.finishSlice id m).stats.messagesCompleted + (d.finishSlice id m).messages.keys.card =
      d.stats.messagesCompleted + d.messages.keys.card + (decide (id ∉ d.messages)).toNat ∧
    (d.finishSlice id m).stats.messagesCompleted + d.completedMessages.length =
      d.stats.messagesCompleted + (d.finishSlice id m).completedMessages.length := by
  have hmem : id ∈ d.messages ↔ ∃ old, d.messages.lookup id = some old := Finmap.mem_iff
  unfold finishSlice
  cases hid : d.messages.lookup id with
  | none =>
    have hnot : id ∉ d.messages := by simp [hmem, hid]
    have herase : d.messages.erase id = d.messages := by
      refine Finmap.ext_lookup fun i => ?_
      by_cases hi : i = id
      · subst hi
        rw [Finmap.lookup_erase, hid]
      · rw [Finmap.lookup_erase_ne hi]
    split
    · simp [hnot, herase]
      omega
    · simp [hnot, card_insert_of_none hid]
      omega
  | some old =>
    have hin : id ∈ d.messages := by simp [hmem, hid]
    have hcard := card_erase_of_some hid
    rw [Finmap.keys_erase] at hcard
    split
    · simp [hin]
      omega
    · simp [hin, card_insert_of_some hid]

variable {messages events opened : ℕ}

theorem Passes.counts (h : Passes e d d') :
    d'.stats.messagesCompleted + d.completedMessages.length =
        d.stats.messagesCompleted + d'.completedMessages.length ∧
      d'.stats.streamEvents + d.streamEvents.length =
        d.stats.streamEvents + d'.streamEvents.length ∧
      d'.stats.messagesCompleted + d'.messages.keys.card =
        d.stats.messagesCompleted + d.messages.keys.card + (d.opens e).toNat := by
  cases h with
  | spoiled hfront hcrc =>
    have hopens : d.opens e = false := by simp [opens, hfront, hcrc]
    rw [hopens]
    exact ⟨rfl, rfl, rfl⟩
  | message hfront hcrc htype m =>
    have hopens : d.opens e = decide ((MessageHeader.load e
        (d.buffer.drop frameHeaderSize)).messageId ∉ d.messages) := by
      simp [opens, hfront, hcrc, htype]
    obtain ⟨hpending, hqueue⟩ := finishSlice_count d.countFrame
      (MessageHeader.load e (d.buffer.drop frameHeaderSize)).messageId m
    rw [hopens]
    refine ⟨hqueue, ?_, hpending⟩
    simp [popFrame, countFrame]
  | event hfront hcrc htype ev =>
    have hopens : d.opens e = false := by simp [opens, hfront, hcrc, htype]
    rw [hopens]
    refine ⟨rfl, ?_, rfl⟩
    simp [countFrame, countEvent, pushEvent, popFrame]
    omega

theorem Balanced.passes (h : d.Balanced messages events opened) (hpasses : Passes e d d') :
    d'.Balanced messages events (opened + (d.opens e).toNat) := by
  obtain ⟨hcompleted, hstream, hpending⟩ := hpasses.counts
  have hcleanups := hpasses.sameDrops.cleanups
  obtain ⟨hmessages, hevents, hopened⟩ := h
  simp only [getStats] at hmessages hevents hopened
  refine ⟨?_, ?_, ?_⟩ <;> simp only [getStats] <;> omega

theorem Balanced.cleaned {order : List UInt64} {count : ℕ} (h : d.Balanced messages events opened)
    (hcleaned : Cleaned now order d count d') : d'.Balanced messages events opened := by
  have hcard := hcleaned.card
  obtain ⟨-, hcompleted, hstream⟩ := hcleaned.queues
  obtain ⟨hmessages, hevents, hopened⟩ := h
  simp only [getStats] at hmessages hevents hopened
  refine ⟨?_, ?_, ?_⟩ <;> simp only [getStats, hcleaned.stats, hcompleted, hstream] <;> omega

end Decoder

namespace DecoderUse

variable {u v : DecoderUse} {messages events opened : ℕ}

/-- The accounts of a use that has not ended in undefined behaviour. -/
def Accounts (u : DecoderUse) (opened : ℕ) : Prop :=
  ∀ d, u.phase = .idle d ∨ u.phase = .decoding d →
    d.Balanced u.messages.length u.events.length opened

theorem turn_balanced (h : d.Balanced messages events opened) (now : ℕ) :
    match (d.turn e now).ending with
    | .wait d' => d'.Balanced messages events opened
    | .next d' => d'.Balanced messages events (opened + (d.opens e).toNat)
    | .throws _ d' => d'.Balanced messages events opened
    | .fault _ => True := by
  have hd := Decoder.turn_derivation e now d
  cases hend : (d.turn e now).ending with
  | wait d' =>
    rw [hend] at hd
    cases hd
    exact h
  | next d' => exact h.passes (Decoder.passes_of_next hend)
  | throws error d' =>
    rw [hend] at hd
    cases hd with
    | reject => exact h
    | throws hfront hcrc hb =>
      rw [hb.throws_eq]
      exact ⟨h.messages, h.events, h.opened⟩
  | fault d' => trivial

theorem Step.accounts (hstep : Step e u v) (h : u.Accounts opened) :
    v.Accounts (u.countOpened e v opened) := by
  have hidle {d : Decoder} (hphase : u.phase = .idle d) : u.countOpened e v opened = opened := by
    rw [countOpened, hphase]
  cases hstep with
  | @feed d data hphase =>
    rintro x (hx | hx) <;> cases hx
    have hbalanced := h d (.inl hphase)
    rw [hidle hphase]
    exact ⟨hbalanced.messages, hbalanced.events, hbalanced.opened⟩
  | @turn d now hphase =>
    have hturn := turn_balanced (e := e) (h d (.inr hphase)) now
    unfold countOpened
    rw [hphase]
    cases hend : (d.turn e now).ending with
    | wait d' | next d' | throws error d' =>
      rw [hend] at hturn
      rintro x (hx | hx) <;> cases hx
      exact hturn
    | fault d' => rintro x (hx | hx) <;> cases hx
  | @getMessage d d' message hphase hget =>
    obtain rfl := Decoder.getMessage_eq hget
    rintro x (hx | hx) <;> cases hx
    obtain ⟨hmessages, hevents, hopened⟩ := h _ (.inl hphase)
    rw [hidle hphase]
    refine ⟨hmessages.trans ?_, hevents, hopened⟩
    simp
    omega
  | @getStreamEvent d d' event hphase hget =>
    obtain rfl := Decoder.getStreamEvent_eq hget
    rintro x (hx | hx) <;> cases hx
    obtain ⟨hmessages, hevents, hopened⟩ := h _ (.inl hphase)
    rw [hidle hphase]
    refine ⟨hmessages, hevents.trans ?_, hopened⟩
    simp
    omega
  | @cleanupTimeoutMessages d d' cleaned now order hphase hnodup horder hclean =>
    rintro x (hx | hx) <;> cases hx
    rw [hidle hphase]
    exact (h d (.inl hphase)).cleaned (Decoder.cleanupTimeoutMessages_cleaned hnodup hclean)

end DecoderUse

/-- In every use the counters of messages and events agree with what was taken out and what is
left, and every assembly that was opened has been completed or dropped, or is pending. -/
theorem uses_account {states : List (DecoderUse × ℕ)} (hrun : (countingUses e ms).Run states) :
    ∀ x ∈ states, x.1.Accounts x.2 := by
  refine hrun.invariant ?_ ?_
  · rintro ⟨u, opened⟩ ⟨rfl, rfl⟩ d (hd | hd) <;> cases hd
    exact ⟨rfl, rfl, rfl⟩
  · rintro ⟨u, opened⟩ ⟨v, opened'⟩ h ⟨hstep, hopened⟩
    dsimp only at hopened h ⊢
    rw [hopened]
    exact hstep.accounts h

/-- The first slice of a message opens an assembly. -/
theorem uses_account_slice : ∃ states, (countingUses .little 0).Run states ∧
    (∃ x ∈ states, x.2 = 1) ∧ ∀ x ∈ states, x.1.Accounts x.2 := by
  let bytes := (sliceFrame 2 0 [7]).serialize .little
  have hcount : DecoderUse.countOpened .little { phase := .decoding (fedSlice 2 0) }
      { phase := ((fedSlice 2 0).turn .little 0).ending.phase } 0 = 1 := by
    decide +kernel
  cases hend : ((fedSlice 2 0).turn .little 0).ending.phase with
  | idle d | crashed d =>
      rw [hend] at hcount
      cases hcount
  | decoding d =>
      rw [hend] at hcount
      have hrun : (countingUses .little 0).Run [({ phase := .decoding d, fed := bytes }, 1),
          ({ phase := .decoding (fedSlice 2 0), fed := bytes }, 0),
          ({ phase := .idle (Decoder.fresh 0) }, 0)] := by
        refine .next (.next (.start ⟨rfl, rfl⟩) ⟨.feed bytes rfl, rfl⟩) ⟨?_, hcount.symm⟩
        exact hend ▸ .turn 0 rfl
      exact ⟨_, hrun, ⟨_, List.mem_cons_self, rfl⟩, uses_account hrun⟩

end DarwinCore.Protocol
