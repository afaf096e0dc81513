import DarwinCore.Verification.Protocol.DecoderUse

/-! # Lost, repeated and late frames

An assembly that times out is given up, and its later slices open a new one. Whatever becomes of
the frames on their way, no message is put together that was not sent. -/

namespace DarwinCore.Protocol

open ByteOrder Reassembly

variable {e : Endian} {ms : UInt32} {now : ℕ} {d d' : Decoder}

/-! ## What has been read -/

namespace Decoder

variable {total : UInt64 → UInt16} {fs : List Frame} {rest : List UInt8}

/-- The decoder has read the first of the frames and the rest of the bytes completes the others.
What it holds is made of some of the parts it has read. -/
def HasRead (e : Endian) (total : UInt64 → UInt16) (fs : List Frame) (rest : List UInt8)
    (d : Decoder) : Prop :=
  ∃ gs hs kept, gs ++ hs = fs ∧ d.buffer ++ rest = Frame.stream e hs ∧
    kept.Sublist (gs.filterMap (Frame.part? e)) ∧ Tracks total d (State.empty.run kept) ∧
    d.streamEvents = gs.filterMap (Frame.event? e)

/-- Well-formed frames with parts that fit, none of them empty. -/
structure Fitting (e : Endian) (total : UInt64 → UInt16) (f : Frame) : Prop where
  wellFormed : f.WellFormed
  part : ∀ p, f.part? e = some p → (total p.id).toNat = p.total ∧ p.index < p.total ∧ p.data ≠ []

theorem Tracks.takes {s : State UInt64 UInt8} {f : Frame} (h : Tracks total d s) (now : ℕ)
    (hf : Fitting e total f) (hdata : ∀ id, ∀ x ∈ s.pending id, x.data ≠ []) :
    ∃ d', d.takeFrame e now f = .next d' ∧ Tracks total d' (s.run (f.part? e).toList) ∧
      d'.streamEvents = d.streamEvents ++ (f.event? e).toList := by
  cases hpart : f.part? e with
  | none =>
    obtain ⟨d', htake, hmessages, hcompleted, hevents, -⟩ := takeFrame_other now d hpart
    exact ⟨d', htake, h.congr hmessages hcompleted, hevents⟩
  | some p =>
    obtain ⟨htotal, hindex, hp⟩ := hf.part p hpart
    obtain ⟨hspoiled, mh, data, hcontent, -⟩ := Frame.part?_eq_some hpart
    obtain ⟨m, htake, hfits, hle⟩ := h.takeFrame now hpart hindex htotal
    have hevent : f.event? e = none := by simp [Frame.event?, hspoiled, hcontent]
    refine ⟨_, htake, ?_, ?_⟩
    · exact h.countFrame.finish htotal hfits hle (State.not_masked_of_data hp (hdata p.id))
    · rw [finishSlice_streamEvents, hevent]
      exact (List.append_nil _).symm

theorem HasRead.receive (data : List UInt8) (h : d.HasRead e total fs (data ++ rest)) :
    (d.receive data).HasRead e total fs rest := by
  obtain ⟨gs, hs, kept, hfs, hbytes, hkept, htracks, hevents⟩ := h
  refine ⟨gs, hs, kept, hfs, ?_, hkept, htracks.congr rfl rfl, hevents⟩
  rw [receive_buffer, List.append_assoc, hbytes]

theorem HasRead.turn (hfitting : ∀ f ∈ fs, Fitting e total f) (h : d.HasRead e total fs rest)
    (now : ℕ) :
    (d.turn e now).ending = .wait d ∨
      ∃ d', (d.turn e now).ending = .next d' ∧ d'.HasRead e total fs rest := by
  by_cases hfront : front e d.buffer = .incomplete
  · exact .inl (by simp only [Decoder.turn, hfront])
  · obtain ⟨gs, hs, kept, hfs, hbytes, hkept, htracks, hevents⟩ := h
    cases hs with
    | nil =>
      rw [Frame.stream_nil, List.append_eq_nil_iff] at hbytes
      rw [hbytes.1] at hfront
      exact absurd rfl hfront
    | cons f hs =>
      have hf := hfitting f (hfs ▸ by simp)
      have hcomplete : front e (d.buffer ++ rest) = .complete f.header := by
        rw [hbytes, Frame.stream_cons]
        exact Frame.front_serialize e hf.wellFormed.toPasses _
      have hheader : ∀ hdr, front e d.buffer = .complete hdr → hdr.WellSized := by
        intro hdr hhdr
        rw [front_append_complete rest hhdr] at hcomplete
        exact Front.complete.inj hcomplete ▸ hf.wellFormed.sized
      have hdata : ∀ id, ∀ x ∈ ((State.empty : State UInt64 UInt8).run kept).pending id,
          x.data ≠ [] := by
        intro id x hx
        obtain ⟨p, hp, -, rfl⟩ := State.mem_pending_run hx
        obtain ⟨g, hg, hpart⟩ := List.mem_filterMap.mp (hkept.subset hp)
        exact ((hfitting g (hfs ▸ List.mem_append_left _ hg)).part p hpart).2.2
      have hwhole : d.receive rest =
          (d.receive rest).withBuffer (f.serialize e ++ Frame.stream e hs) := by
        rw [← Frame.stream_cons, ← hbytes]
        rfl
      have hreceived : Tracks total (d.receive rest) (State.empty.run kept) :=
        htracks.congr rfl rfl
      obtain ⟨d₁, htake, htracks', hevents'⟩ := hreceived.takes now hf hdata
      have hturn : ((d.receive rest).turn e now).ending =
          (d.turn e now).ending.map (Decoder.receive · rest) :=
        turn_receive rest hfront hheader
      rw [hwhole, turn_frame e now _ hf.wellFormed, htake] at hturn
      right
      cases hend : (d.turn e now).ending with
      | next d' =>
        rw [hend] at hturn
        have hd' : d₁.withBuffer (Frame.stream e hs) = d'.receive rest :=
          Ending.next.inj hturn
        have hmessages : d'.messages = d₁.messages := (congrArg messages hd').symm
        have hcompleted : d'.completedMessages = d₁.completedMessages :=
          (congrArg completedMessages hd').symm
        have hstream : d'.streamEvents = d₁.streamEvents := (congrArg streamEvents hd').symm
        refine ⟨d', rfl, gs ++ [f], hs, kept ++ (f.part? e).toList, by simpa using hfs,
          (congrArg buffer hd').symm, ?_, ?_, ?_⟩
        · rw [List.filterMap_append, Lists.filterMap_singleton]
          exact hkept.append_right _
        · rw [State.run_append]
          exact htracks'.congr hmessages hcompleted
        · rw [hstream, hevents', List.filterMap_append, Lists.filterMap_singleton]
          exact congrArg (· ++ _) hevents
      | wait d' | throws err d' | fault d' =>
        rw [hend] at hturn
        cases hturn

/-- Giving up assemblies that have timed out gives up some of the parts. -/
theorem HasRead.cleaned {order : List UInt64} {count : ℕ} {messages : List MessageComplete}
    {events : List StreamEvent} (h : (d.undrained messages events).HasRead e total fs rest)
    (hcleaned : Cleaned now order d count d') :
    (d'.undrained messages events).HasRead e total fs rest := by
  obtain ⟨gs, hs, kept, hfs, hbytes, hkept, htracks, hevents⟩ := h
  obtain ⟨hbuffer, hcompleted, hstream⟩ := hcleaned.queues
  let gone (id : UInt64) : Bool := (d.messages.lookup id).any fun m =>
    decide (id ∈ order) && m.isTimeout d.messageTimeoutMs now
  obtain ⟨kept', hkept', hrun⟩ := State.exists_run_forget kept gone
  refine ⟨gs, hs, kept', hfs, ?_, hkept'.trans hkept, ⟨fun id => ?_, ?_⟩, ?_⟩
  · exact (congrArg (· ++ rest) hbuffer).trans hbytes
  · have hentry : EntryFits (total id) ((State.empty.run kept).pending id)
        (d.messages.lookup id) := htracks.pending id
    have hlookup : (d'.undrained messages events).messages.lookup id =
        (d.messages.lookup id).filter fun m =>
          !(decide (id ∈ order) && m.isTimeout d.messageTimeoutMs now) := hcleaned.lookup id
    rw [hlookup, hrun]
    cases hm : d.messages.lookup id with
    | none =>
      rw [hm] at hentry
      simpa [State.forget, gone, hm] using hentry
    | some m =>
      rw [hm] at hentry
      cases htimeout : decide (id ∈ order) && m.isTimeout d.messageTimeoutMs now with
      | true => simp [State.forget, gone, hm, htimeout, EntryFits, Option.filter]
      | false => simpa [State.forget, gone, hm, htimeout, Option.filter] using hentry
  · rw [hrun]
    exact (congrArg (messages ++ ·) hcompleted).trans htracks.completed
  · exact (congrArg (events ++ ·) hstream).trans hevents

end Decoder

namespace DecoderUse

variable {u v : DecoderUse} {total : UInt64 → UInt16} {fs : List Frame}

/-- What has been fed is the beginning of the frames, and it has been read as such. -/
def Reads (e : Endian) (total : UInt64 → UInt16) (fs : List Frame) (u : DecoderUse) : Prop :=
  ∀ rest, u.fed ++ rest = Frame.stream e fs →
    (∀ d, u.phase ≠ .crashed d) ∧ u.whole.HasRead e total fs rest

theorem whole_of_idle (h : u.phase = .idle d) :
    u.whole = d.undrained u.messages u.events := by
  rw [whole, h]
  rfl

theorem whole_of_decoding (h : u.phase = .decoding d) :
    u.whole = d.undrained u.messages u.events := by
  rw [whole, h]
  rfl

theorem not_crashed_of_idle (h : u.phase = .idle d) (d' : Decoder) : u.phase ≠ .crashed d' := by
  rw [h]
  intro hcrashed
  cases hcrashed

theorem not_crashed_of_decoding (h : u.phase = .decoding d) (d' : Decoder) :
    u.phase ≠ .crashed d' := by
  rw [h]
  intro hcrashed
  cases hcrashed

theorem Step.reads (hfitting : ∀ f ∈ fs, Decoder.Fitting e total f) (hstep : Step e u v)
    (h : u.Reads e total fs) : v.Reads e total fs := by
  intro rest hrest
  cases hstep with
  | @feed d data hphase =>
    rw [List.append_assoc] at hrest
    obtain ⟨-, hread⟩ := h _ hrest
    rw [whole_of_idle hphase] at hread
    exact ⟨not_crashed_of_decoding rfl, hread.receive data⟩
  | @turn d now hphase =>
    obtain ⟨-, hread⟩ := h _ hrest
    rw [whole_of_decoding hphase] at hread
    have hturn := hread.turn hfitting now
    rw [Decoder.turn_undrained] at hturn
    rcases hturn with hwait | ⟨d', hnext, hd'⟩
    · cases hend : (d.turn e now).ending with
      | wait d' =>
        rw [hend] at hwait
        refine ⟨not_crashed_of_idle rfl, ?_⟩
        rw [whole_of_idle rfl, Ending.wait.inj hwait]
        exact hread
      | next d' | throws err d' | fault d' =>
        rw [hend] at hwait
        cases hwait
    · cases hend : (d.turn e now).ending with
      | next d'' =>
        rw [hend] at hnext
        refine ⟨not_crashed_of_decoding rfl, ?_⟩
        rw [whole_of_decoding rfl, Ending.next.inj hnext]
        exact hd'
      | wait d'' | throws err d'' | fault d'' =>
        rw [hend] at hnext
        cases hnext
  | @getMessage d d' message hphase hget =>
    obtain ⟨-, hread⟩ := h _ hrest
    obtain rfl := Decoder.getMessage_eq hget
    rw [whole_of_idle hphase] at hread
    refine ⟨not_crashed_of_idle rfl, ?_⟩
    rw [whole_of_idle rfl]
    simpa only [Decoder.undrained, List.append_assoc, List.singleton_append] using hread
  | @getStreamEvent d d' event hphase hget =>
    obtain ⟨-, hread⟩ := h _ hrest
    obtain rfl := Decoder.getStreamEvent_eq hget
    rw [whole_of_idle hphase] at hread
    refine ⟨not_crashed_of_idle rfl, ?_⟩
    rw [whole_of_idle rfl]
    simpa only [Decoder.undrained, List.append_assoc, List.singleton_append] using hread
  | @cleanupTimeoutMessages d d' cleaned now order hphase hnodup horder hclean =>
    obtain ⟨-, hread⟩ := h _ hrest
    rw [whole_of_idle hphase] at hread
    exact ⟨not_crashed_of_idle rfl,
      hread.cleaned (Decoder.cleanupTimeoutMessages_cleaned hnodup hclean)⟩

end DecoderUse

theorem uses_read {total : UInt64 → UInt16} {fs : List Frame} {states : List DecoderUse}
    (hfitting : ∀ f ∈ fs, Decoder.Fitting e total f) (hrun : (decoderUses e ms).Run states) :
    ∀ u ∈ states, u.Reads e total fs := by
  refine hrun.invariant ?_ fun u v h (hstep : DecoderUse.Step e u v) => hstep.reads hfitting h
  rintro u rfl rest hrest
  exact ⟨DecoderUse.not_crashed_of_idle rfl, [], fs, [], rfl, hrest, List.Sublist.refl [],
    Decoder.tracks_fresh total ms, rfl⟩

/-! ## What was sent -/

namespace Outgoing

variable {originals : List Outgoing} {ps : List (Part UInt64 UInt8)}

theorem piece_ne_nil {m : Outgoing} {i : ℕ} (hi : i < m.slices) :
    Encoder.piece m.data m.enableCrc i ≠ [] := by
  have hpos := Encoder.slicePayload_pos m.enableCrc
  have hbelow : i * Encoder.slicePayload m.enableCrc < m.data.length := by
    have hmul := Nat.mul_le_of_le_div _ _ _ (show i + 1 ≤ _ from hi)
    rw [Nat.add_mul, Nat.one_mul] at hmul
    omega
  rw [← List.length_pos_iff, Encoder.piece, List.length_take, List.length_drop]
  omega

section Sent

variable (hids : (originals.map messageId).Nodup)
  (hps : ∀ p ∈ ps, ∃ m ∈ originals, ∃ i < m.slices, m.part i = p)

include hids hps

/-- Only messages that were sent are put together from parts that were sent. -/
theorem mem_completed {c : UInt64 × List UInt8}
    (hc : c ∈ ((State.empty : State UInt64 UInt8).run ps).completed) :
    emitted c ∈ originals.map complete := by
  obtain ⟨p, hp, xs, hid, hxs, hcomplete, hdata⟩ := State.mem_completed_run hc
  obtain ⟨m, hm, i, hi, rfl⟩ := hps p hp
  have hfirst : ∀ j ∈ List.range m.slices, firstFor xs j =
      Encoder.piece m.data m.enableCrc j := by
    intro j hj
    refine firstFor_of_agree ?_ fun x hx hindex => ?_
    · rw [hcomplete]
      exact Finset.mem_range.mpr (List.mem_range.mp hj)
    · obtain ⟨q, hq, hqid, rfl⟩ := hxs x hx
      obtain ⟨m', hm', k, hk, rfl⟩ := hps q hq
      obtain rfl := List.inj_on_of_nodup_map hids hm' hm (hqid.trans hid.symm)
      exact congrArg (Encoder.piece m'.data m'.enableCrc) hindex
  have hall : c.2 = m.data := by
    rw [hdata]
    exact (List.flatMap_congr hfirst).trans (Encoder.flatMap_piece m.data m.enableCrc)
  refine List.mem_map.mpr ⟨m, hm, ?_⟩
  rw [complete, emitted, ← hid, hall]
  rfl

/-- A message is put together at most as often as any one of its parts has arrived. -/
theorem count_completed_le {m : Outgoing} (hm : m ∈ originals) {i : ℕ} (hi : i < m.slices) :
    (((State.empty : State UInt64 UInt8).run ps).completed.map emitted).count m.complete ≤
      ps.countP fun p => decide (p = m.part i) := by
  have htotal : ∀ p ∈ ps, p.id = m.messageId → i < p.total := by
    rintro p hp hid
    obtain ⟨m', hm', k, hk, rfl⟩ := hps p hp
    obtain rfl := List.inj_on_of_nodup_map hids hm' hm hid
    exact hi
  have hpart : ∀ p ∈ ps, decide (p.id = m.messageId ∧ p.index = i) = true →
      decide (p = m.part i) = true := by
    rintro p hp h
    obtain ⟨hid, hindex⟩ := of_decide_eq_true h
    obtain ⟨m', hm', k, hk, rfl⟩ := hps p hp
    obtain rfl := List.inj_on_of_nodup_map hids hm' hm hid
    exact decide_eq_true (congrArg m'.part hindex)
  have hcount : (((State.empty : State UInt64 UInt8).run ps).completed.map emitted).count
      m.complete ≤ ((State.empty : State UInt64 UInt8).run ps).completed.countP
        fun c => decide (c.1 = m.messageId) := by
    rw [List.count, List.countP_map]
    refine List.countP_mono_left fun c _ hc => ?_
    exact decide_eq_true (congrArg MessageComplete.messageId (eq_of_beq hc))
  calc (((State.empty : State UInt64 UInt8).run ps).completed.map emitted).count m.complete
      ≤ ((State.empty : State UInt64 UInt8).run ps).deliveries m.messageId i :=
        hcount.trans (Nat.le_add_right _ _)
    _ ≤ ps.countP fun p => decide (p.id = m.messageId ∧ p.index = i) :=
        State.deliveries_run_le htotal
    _ ≤ ps.countP fun p => decide (p = m.part i) := List.countP_mono_left hpart

end Sent

end Outgoing

/-- Whatever frames of encoded messages and stream items get lost, are repeated or come in
another order, however the bytes are cut and whenever assemblies time out: only messages that
were sent are got, each at most as often as any one of its slices arrives, and the events are
those of the stream frames, in order. -/
theorem uses_deliver_what_was_sent (e : Endian) {originals : List Outgoing}
    {items : List StreamItem} {streamFrames : List Frame}
    (hids : (originals.map Outgoing.messageId).Nodup) (hsend : ∀ m ∈ originals, m.Sendable)
    (hstream : items.mapM (StreamItem.encode e) = .ok streamFrames) :
    ∃ messageFrames, originals.mapM (Outgoing.encode e) = .ok messageFrames ∧
      ∀ fs : List Frame, (∀ f ∈ fs, f ∈ messageFrames.flatten ++ streamFrames) →
        ∀ ms states, (decoderUses e ms).Run states → ∀ u ∈ states, ∀ rest,
          u.fed ++ rest = (Encoder.serializeFrames e fs).flatten →
            (∀ d, u.phase ≠ .crashed d) ∧
            (∀ c ∈ u.messages ++ u.phase.decoder.completedMessages,
              c ∈ originals.map Outgoing.complete) ∧
            (∀ m ∈ originals, ∀ i < m.slices,
              (u.messages ++ u.phase.decoder.completedMessages).count m.complete ≤
                fs.countP fun f => decide (f.part? e = some (m.part i))) ∧
            (u.events ++ u.phase.decoder.streamEvents) <+: fs.filterMap (Frame.event? e) := by
  obtain ⟨messageFrames, hencode, hparts⟩ := encode_originals e hsend
  refine ⟨messageFrames, hencode, fun fs hfs ms states hrun u hu rest hrest => ?_⟩
  have hitems := encode_items hstream
  obtain ⟨total, htable⟩ := Lists.exists_table (fun m => UInt16.ofNat (Outgoing.slices m)) hids
  have hframe : ∀ f ∈ fs, f.WellFormed ∧ ∀ p, f.part? e = some p →
      ∃ m ∈ originals, ∃ i < m.slices, m.part i = p := by
    intro f hf
    rcases List.mem_append.mp (hfs f hf) with hmessage | hevent
    · obtain ⟨q, hq, hdelivers⟩ := Lists.exists_left_of_mem hparts hmessage
      refine ⟨hdelivers.wellFormed, fun p hp => ?_⟩
      obtain rfl : q = p := Option.some.inj (hdelivers.part.symm.trans hp)
      exact (Outgoing.mem_interleaved (List.Perm.refl _)).mp hq
    · obtain ⟨item, -, hdelivers⟩ := Lists.exists_left_of_mem hitems hevent
      refine ⟨hdelivers.wellFormed, fun p hp => ?_⟩
      rw [hdelivers.part] at hp
      cases hp
  have hfitting : ∀ f ∈ fs, Decoder.Fitting e total f := by
    intro f hf
    refine ⟨(hframe f hf).1, fun p hp => ?_⟩
    obtain ⟨m, hm, i, hi, rfl⟩ := (hframe f hf).2 p hp
    refine ⟨?_, hi, Outgoing.piece_ne_nil hi⟩
    rw [show (m.part i).id = m.messageId from rfl, htable m hm]
    exact UInt16.toNat_ofNat_of_lt' (Nat.lt_succ_of_le (hsend m hm).2)
  obtain ⟨hcrash, gs, hs, kept, rfl, -, hkept, htracks, hevents⟩ :=
    uses_read hfitting hrun u hu rest hrest
  have hsent : ∀ p ∈ kept, ∃ m ∈ originals, ∃ i < m.slices, m.part i = p := by
    intro p hp
    obtain ⟨f, hf, hpart⟩ := List.mem_filterMap.mp (hkept.subset hp)
    exact (hframe f (List.mem_append_left _ hf)).2 p hpart
  have hmessages : u.messages ++ u.phase.decoder.completedMessages =
      (State.empty.run kept).completed.map emitted := htracks.completed
  rw [hmessages]
  refine ⟨hcrash, fun c hc => ?_, fun m hm i hi => ?_, ?_⟩
  · obtain ⟨c', hc', rfl⟩ := List.mem_map.mp hc
    exact Outgoing.mem_completed hids hsent hc'
  · refine (Outgoing.count_completed_le hids hsent hm hi).trans (hkept.countP_le.trans ?_)
    rw [List.countP_filterMap, List.countP_append]
    refine le_trans (List.countP_mono_left fun f _ hf => ?_) (Nat.le_add_right _ _)
    cases hpart : f.part? e with
    | none => simp [hpart] at hf
    | some p => simpa [hpart] using hf
  · rw [List.filterMap_append]
    exact (show u.events ++ u.phase.decoder.streamEvents = _ from hevents) ▸ List.prefix_append _ _

/-- Two messages and a stream start, from a little-endian host. -/
theorem uses_deliver_what_was_sent_two :
    ∃ messageFrames, [⟨7, [0x41], true⟩, ⟨9, [0x42, 0x43], false⟩].mapM (Outgoing.encode .little) =
        .ok messageFrames ∧
      ∀ fs : List Frame, (∀ f ∈ fs, f ∈ messageFrames.flatten ++
          [⟨⟨0x5A, 0x5C, 1, 2, 0, 16, 0, 0⟩, [3, 0, 0, 0, 0, 0, 0, 0, 2, 0, 0, 0, 0, 0, 0, 0]⟩]) →
        ∀ ms states, (decoderUses .little ms).Run states → ∀ u ∈ states, ∀ rest,
          u.fed ++ rest = (Encoder.serializeFrames .little fs).flatten →
            (∀ d, u.phase ≠ .crashed d) ∧
            (∀ c ∈ u.messages ++ u.phase.decoder.completedMessages,
              c ∈ [⟨7, [0x41], true⟩, ⟨9, [0x42, 0x43], false⟩].map Outgoing.complete) ∧
            (∀ m ∈ [⟨7, [0x41], true⟩, ⟨9, [0x42, 0x43], false⟩], ∀ i < Outgoing.slices m,
              (u.messages ++ u.phase.decoder.completedMessages).count m.complete ≤
                fs.countP fun f => decide (f.part? .little = some (m.part i))) ∧
            (u.events ++ u.phase.decoder.streamEvents) <+:
              fs.filterMap (Frame.event? .little) := by
  have hstream : [StreamItem.start 3 2].mapM (StreamItem.encode .little) =
      .ok [⟨⟨0x5A, 0x5C, 1, 2, 0, 16, 0, 0⟩,
        [3, 0, 0, 0, 0, 0, 0, 0, 2, 0, 0, 0, 0, 0, 0, 0]⟩] := by
    decide +kernel
  refine uses_deliver_what_was_sent .little (by decide) ?_ hstream
  rintro m (_ | ⟨_, _ | ⟨_, ⟨⟩⟩⟩)
  · exact ⟨by simp, by decide⟩
  · exact ⟨by simp, by decide⟩

end DarwinCore.Protocol
