import DarwinCore.Verification.Protocol.Frames

/-! # When messages complete

The counter of an assembly is bumped whenever its slot is still empty. It decides as the
set of sequence numbers would, unless repeats of empty slices stand in for slices that are
missing. -/

namespace DarwinCore.Protocol

open ByteOrder Reassembly

/-! ## What a frame contributes -/

namespace Frame

/-- The part that a frame delivers: nothing where the trailer does not fit. -/
def part? (e : Endian) (f : Frame) : Option (Part UInt64 UInt8) :=
  if f.spoiled e then none
  else
    match f.content e with
    | .slice mh data => some (slicePart mh data)
    | .event _ => none

def event? (e : Endian) (f : Frame) : Option StreamEvent :=
  if f.spoiled e then none
  else
    match f.content e with
    | .slice _ _ => none
    | .event ev => some ev

/-- The parts that frames deliver, up to the first with a bad slice index. -/
def accepted (e : Endian) (fs : List Frame) : List (Part UInt64 UInt8) :=
  (fs.filterMap (part? e)).takeWhile fun p => p.index < p.total

section Accepted

variable {e : Endian} {f : Frame} {p : Part UInt64 UInt8}

theorem accepted_cons_of_other (hf : f.part? e = none) (fs : List Frame) :
    accepted e (f :: fs) = accepted e fs := by
  rw [accepted, List.filterMap_cons_none hf, accepted]

theorem accepted_cons_of_part (hf : f.part? e = some p) (hp : p.index < p.total)
    (fs : List Frame) : accepted e (f :: fs) = p :: accepted e fs := by
  rw [accepted, List.filterMap_cons_some hf, List.takeWhile_cons_of_pos (by simpa using hp),
    accepted]

theorem accepted_cons_of_bad (hf : f.part? e = some p) (hp : ¬p.index < p.total)
    (fs : List Frame) : accepted e (f :: fs) = [] := by
  rw [accepted, List.filterMap_cons_some hf, List.takeWhile_cons_of_neg (by simpa using hp)]

end Accepted

theorem part?_eq_some {e : Endian} {f : Frame} {p : Part UInt64 UInt8}
    (h : f.part? e = some p) :
    f.spoiled e = false ∧ ∃ mh data, f.content e = .slice mh data ∧ p = slicePart mh data := by
  unfold part? at h
  split at h
  · cases h
  · rename_i hspoiled
    refine ⟨by simpa using hspoiled, ?_⟩
    cases hc : f.content e with
    | event ev => simp [hc] at h
    | slice mh data =>
      rw [hc] at h
      exact ⟨mh, data, rfl, (Option.some.inj h).symm⟩

end Frame

def FeedResult.decoder : FeedResult → Decoder
  | normal d => d
  | error _ d => d
  | fault d => d

namespace Decoder

variable {e : Endian} {total : UInt64 → UInt16} {d : Decoder} {s : State UInt64 UInt8}
  {f : Frame} {p : Part UInt64 UInt8}

@[simp] theorem finishSlice_streamEvents (d : Decoder) (id : UInt64) (m : MessageAssembly) :
    (d.finishSlice id m).streamEvents = d.streamEvents := by
  unfold finishSlice
  split <;> rfl

@[simp] theorem finishSlice_crcErrors (d : Decoder) (id : UInt64) (m : MessageAssembly) :
    (d.finishSlice id m).stats.crcErrors = d.stats.crcErrors := by
  unfold finishSlice
  split <;> rfl

/-! ## One frame -/

theorem takeFrame_other (now : ℕ) (d : Decoder) (h : f.part? e = none) :
    ∃ d', d.takeFrame e now f = .next d' ∧ d'.messages = d.messages ∧
      d'.completedMessages = d.completedMessages ∧
      d'.streamEvents = d.streamEvents ++ (f.event? e).toList ∧
      d'.stats.crcErrors = d.stats.crcErrors + if f.spoiled e then 1 else 0 := by
  unfold takeFrame Frame.event?
  unfold Frame.part? at h
  cases hspoiled : f.spoiled e with
  | true => exact ⟨_, rfl, rfl, rfl, by simp [countFrame, countCrcError], rfl⟩
  | false =>
    rw [hspoiled] at h
    cases hc : f.content e with
    | slice mh data => simp [hc] at h
    | event ev => exact ⟨_, rfl, rfl, rfl, rfl, rfl⟩

theorem takeFrame_bad (now : ℕ) (d : Decoder) (h : f.part? e = some p) (hp : p.total ≤ p.index) :
    d.takeFrame e now f = .throws ⟨"bad slice index"⟩ d.countFrame := by
  obtain ⟨hspoiled, mh, data, hc, rfl⟩ := Frame.part?_eq_some h
  have hseq : mh.totalSlices ≤ mh.sequence := UInt16.le_iff_toNat_le.mpr hp
  rw [takeFrame, hspoiled, if_neg Bool.false_ne_true, hc, deliver, if_pos hseq]

theorem Tracks.takeFrame (h : Tracks total d s) (now : ℕ) (hf : f.part? e = some p)
    (hp : p.index < p.total) (htotal : (total p.id).toNat = p.total) :
    ∃ m : MessageAssembly, d.takeFrame e now f = .next (d.countFrame.finishSlice p.id m) ∧
      m.Fits (total p.id) (s.history p) ∧ counted (s.history p) ≤ (total p.id).toNat := by
  obtain ⟨hspoiled, mh, data, hc, rfl⟩ := Frame.part?_eq_some hf
  have hseq : mh.sequence < mh.totalSlices := UInt16.lt_iff_toNat_lt.mpr hp
  have hmh : total mh.messageId = mh.totalSlices := UInt16.toNat_inj.mp htotal
  rw [Decoder.takeFrame, hspoiled, if_neg Bool.false_ne_true, hc,
    show total (slicePart mh data).id = mh.totalSlices from hmh]
  exact h.countFrame.deliver now hmh hseq

/-! ## Runs of frames -/

/-- At every prefix of the frames exactly the messages that are complete have been delivered. -/
def Follows (e : Endian) (clock : ℕ → ℕ) (d : Decoder) (s : State UInt64 UInt8)
    (fs : List Frame) : Prop :=
  ∀ gs, gs <+: fs → (d.takeFrames e clock gs).decoder.completedMessages =
    (s.run (Frame.accepted e gs)).completed.map emitted

theorem follows_cons_of_next {clock : ℕ → ℕ} {d' : Decoder} {s' : State UInt64 UInt8}
    {fs : List Frame} (hd : d.takeFrame e (clock 0) f = .next d')
    (hs : ∀ gs, s.run (Frame.accepted e (f :: gs)) = s'.run (Frame.accepted e gs))
    (hstart : d.completedMessages = s.completed.map emitted) :
    Follows e clock d s (f :: fs) ↔ Follows e (fun i => clock (i + 1)) d' s' fs := by
  have hstep : ∀ gs, d.takeFrames e clock (f :: gs) =
      d'.takeFrames e (fun i => clock (i + 1)) gs := fun gs => by rw [takeFrames, hd]
  constructor
  · intro h gs hgs
    rw [← hstep, ← hs]
    exact h (f :: gs) ((List.prefix_cons_inj f).mpr hgs)
  · intro h gs hgs
    rcases List.prefix_cons_iff.mp hgs with rfl | ⟨gs, rfl, htail⟩
    · exact hstart
    · rw [hstep, hs]
      exact h gs htail

/-- The decoder delivers what is complete unless a missing slice is masked. -/
theorem Tracks.follows_iff (clock : ℕ → ℕ) {fs : List Frame} (h : Tracks total d s)
    (htotal : ∀ f ∈ fs, ∀ p, f.part? e = some p → (total p.id).toNat = p.total) :
    Follows e clock d s fs ↔ s.NeverMasked (Frame.accepted e fs) := by
  induction fs generalizing clock d s with
  | nil =>
    simp only [Follows, List.prefix_nil, forall_eq]
    exact iff_of_true h.completed trivial
  | cons f fs ih =>
    have htail : ∀ g ∈ fs, ∀ p, g.part? e = some p → (total p.id).toNat = p.total :=
      fun g hg => htotal g (List.mem_cons_of_mem _ hg)
    cases hf : f.part? e with
    | none =>
      obtain ⟨d', hd, hm, hc, -, -⟩ := takeFrame_other (clock 0) d hf
      have haccepted := Frame.accepted_cons_of_other hf
      rw [follows_cons_of_next hd (fun gs => by rw [haccepted]) h.completed, haccepted]
      exact ih _ (h.congr hm hc) htail
    | some p =>
      by_cases hp : p.index < p.total
      · obtain ⟨m, hd, hfits, hle⟩ :=
          h.takeFrame (clock 0) hf hp (htotal f List.mem_cons_self p hf)
        have hcount := h.countFrame
        have hptotal := htotal f List.mem_cons_self p hf
        have haccepted := Frame.accepted_cons_of_part hf hp
        by_cases hmask : s.Masked p
        · -- the message is delivered one frame too early
          refine iff_of_false (fun hfollow => ?_)
            (by simp [haccepted, State.NeverMasked, hmask])
          have hone := hfollow [f] ((List.prefix_cons_inj f).mpr List.nil_prefix)
          rw [haccepted, takeFrames, hd] at hone
          exact hcount.finish_masked hptotal hfits hmask hone
        · rw [follows_cons_of_next hd (fun gs => by rw [haccepted, State.run_cons]) h.completed,
            haccepted, State.NeverMasked, and_iff_right hmask]
          exact ih _ (hcount.finish hptotal hfits hle hmask) htail
      · have hd := takeFrame_bad (clock 0) d hf (Nat.le_of_not_lt hp)
        have haccepted := Frame.accepted_cons_of_bad hf hp
        refine iff_of_true (fun gs hgs => ?_) (by simp [haccepted, State.NeverMasked])
        rcases List.prefix_cons_iff.mp hgs with rfl | ⟨gs, rfl, -⟩
        · exact h.completed
        · rw [haccepted, takeFrames, hd]
          exact h.completed

/-- A run over frames all of which are in order keeps track of messages and events. -/
theorem Tracks.takeFrames (clock : ℕ → ℕ) {fs : List Frame} (h : Tracks total d s)
    (htotal : ∀ f ∈ fs, ∀ p, f.part? e = some p → (total p.id).toNat = p.total)
    (hindex : ∀ f ∈ fs, ∀ p, f.part? e = some p → p.index < p.total)
    (hmask : s.NeverMasked (fs.filterMap (Frame.part? e))) :
    ∃ d', d.takeFrames e clock fs = .normal d' ∧
      Tracks total d' (s.run (fs.filterMap (Frame.part? e))) ∧
      d'.streamEvents = d.streamEvents ++ fs.filterMap (Frame.event? e) ∧
      d'.stats.crcErrors = d.stats.crcErrors + fs.countP (Frame.spoiled e) := by
  induction fs generalizing clock d s with
  | nil => exact ⟨d, rfl, h, by simp, rfl⟩
  | cons f fs ih =>
    have htotal' : ∀ g ∈ fs, ∀ p, g.part? e = some p → (total p.id).toNat = p.total :=
      fun g hg => htotal g (List.mem_cons_of_mem _ hg)
    have hindex' : ∀ g ∈ fs, ∀ p, g.part? e = some p → p.index < p.total :=
      fun g hg => hindex g (List.mem_cons_of_mem _ hg)
    cases hf : f.part? e with
    | none =>
      rw [List.filterMap_cons_none hf] at hmask ⊢
      obtain ⟨d₁, hd, hm, hc, hev, hcrc⟩ := takeFrame_other (clock 0) d hf
      obtain ⟨d', htake, htrack, hevents, herrors⟩ :=
        ih (fun i => clock (i + 1)) (h.congr hm hc) htotal' hindex' hmask
      refine ⟨d', by rw [Decoder.takeFrames, hd]; exact htake, htrack, ?_, ?_⟩
      · rw [hevents, hev, List.append_assoc]
        cases hev : f.event? e <;> simp [hev]
      · rw [herrors, hcrc, List.countP_cons]
        omega
    | some p =>
      have hp := hindex f List.mem_cons_self p hf
      have hptotal := htotal f List.mem_cons_self p hf
      obtain ⟨hspoiled, mh, data, hcontent, -⟩ := Frame.part?_eq_some hf
      obtain ⟨m, hd, hfits, hle⟩ := h.takeFrame (clock 0) hf hp hptotal
      have hevent : f.event? e = none := by
        simp [Frame.event?, hspoiled, hcontent]
      rw [List.filterMap_cons_some hf] at hmask ⊢
      have hnext := h.countFrame.finish hptotal hfits hle hmask.1
      obtain ⟨d', htake, htrack, hevents, herrors⟩ :=
        ih (fun i => clock (i + 1)) hnext htotal' hindex' hmask.2
      refine ⟨d', by rw [Decoder.takeFrames, hd]; exact htake, htrack, ?_, ?_⟩
      · rw [hevents, finishSlice_streamEvents, List.filterMap_cons_none hevent]
        rfl
      · rw [herrors, finishSlice_crcErrors,
          List.countP_cons_of_neg (by simp [hspoiled])]
        rfl

theorem tracks_fresh (total : UInt64 → UInt16) (ms : UInt32) :
    Tracks total (fresh ms) State.empty :=
  ⟨fun _ => rfl, rfl⟩

/-- What has been delivered at the end of a run does not depend on how the bytes were cut. -/
theorem feedAll_completedMessages {fs : List Frame} (hfs : ∀ f ∈ fs, f.WellFormed) (ms : UInt32)
    {chunks : List Chunk} (hinput : input chunks = Frame.stream e fs) :
    (feedAll e (fresh ms) chunks).decoder.completedMessages =
      ((fresh 0).takeFrames e (fun _ => 0) fs).decoder.completedMessages := by
  obtain ⟨bytes, hagrees, -⟩ := feedAll_stream hfs ms hinput
  generalize feedAll e (fresh ms) chunks = x at hagrees ⊢
  generalize (fresh 0).takeFrames e (fun _ => 0) fs = y at hagrees ⊢
  cases x <;> cases y <;> try exact hagrees.elim
  · exact hagrees.output.messages
  · exact hagrees.2.messages
  · exact hagrees.messages

/-- However the bytes of the frames are cut: after each frame exactly the messages have been
delivered of which every slice has arrived, with the first payload of each slice. -/
def DeliversWhenComplete (e : Endian) (fs : List Frame) : Prop :=
  ∀ gs, gs <+: fs → ∀ ms chunks, input chunks = Frame.stream e gs →
    (feedAll e (fresh ms) chunks).decoder.completedMessages =
      (State.empty.run (Frame.accepted e gs)).completed.map emitted

/-- All frames of one message carry the same total. -/
def ConsistentTotals (e : Endian) (fs : List Frame) : Prop :=
  ∀ f ∈ fs, ∀ g ∈ fs, ∀ mh mh' data data', f.content e = .slice mh data →
    g.content e = .slice mh' data' → mh.messageId = mh'.messageId →
    mh.totalSlices = mh'.totalSlices

theorem ConsistentTotals.exists_total {fs : List Frame} (h : ConsistentTotals e fs) :
    ∃ total : UInt64 → UInt16, ∀ f ∈ fs, ∀ p, f.part? e = some p →
      (total p.id).toNat = p.total := by
  classical
  let carries := fun (id : UInt64) (t : UInt16) => ∃ f ∈ fs, ∃ mh data,
    f.content e = .slice mh data ∧ mh.messageId = id ∧ mh.totalSlices = t
  refine ⟨fun id => if hid : ∃ t, carries id t then hid.choose else 0, ?_⟩
  intro f hf p hp
  obtain ⟨-, mh, data, hc, rfl⟩ := Frame.part?_eq_some hp
  have hid : ∃ t, carries (slicePart mh data).id t := ⟨_, f, hf, mh, data, hc, rfl, rfl⟩
  obtain ⟨g, hg, mh', data', hc', hmid, htotal⟩ := hid.choose_spec
  simp only [dif_pos hid, ← htotal]
  exact congrArg UInt16.toNat (h g hg f hf _ _ _ _ hc' hc hmid)

/-- Messages are delivered when they are complete, and not before, exactly on the streams
in which repeats of empty slices never make up for slices that are missing. -/
theorem deliversWhenComplete_iff {fs : List Frame} (hfs : ∀ f ∈ fs, f.WellFormed)
    (htotals : ConsistentTotals e fs) :
    DeliversWhenComplete e fs ↔ State.empty.NeverMasked (Frame.accepted e fs) := by
  obtain ⟨total, htotal⟩ := htotals.exists_total
  rw [← (tracks_fresh total 0).follows_iff (fun _ => 0) htotal]
  refine forall₂_congr fun gs hgs => ?_
  have hwf : ∀ f ∈ gs, f.WellFormed := fun f hf => hfs f (hgs.subset hf)
  constructor
  · intro h
    have hinput : input [⟨fun _ => 0, Frame.stream e gs⟩] = Frame.stream e gs := by
      simp [input]
    rw [← feedAll_completedMessages hwf 0 hinput]
    exact h 0 _ hinput
  · intro h ms chunks hinput
    rw [feedAll_completedMessages hwf ms hinput]
    exact h

/-- An empty slice is no obstacle as long as it comes once. -/
theorem deliversWhenComplete_empty_slice :
    DeliversWhenComplete .little [sliceFrame 2 0 [], sliceFrame 2 1 [0x41]] := by
  refine (deliversWhenComplete_iff ?_ ?_).mpr (by decide +kernel)
  · rintro f (_ | ⟨_, _ | ⟨_, ⟨⟩⟩⟩)
    · exact ⟨⟨rfl, rfl, rfl, by decide, rfl⟩, by decide⟩
    · exact ⟨⟨rfl, rfl, rfl, by decide, rfl⟩, by decide⟩
  · rintro f (_ | ⟨_, _ | ⟨_, ⟨⟩⟩⟩) g (_ | ⟨_, _ | ⟨_, ⟨⟩⟩⟩) mh mh' data data' hf hg -
    all_goals cases hf; cases hg; rfl

/-- The same empty slice twice completes a message whose other slice never came. -/
theorem repeated_empty_slice_completes :
    (∀ f ∈ [sliceFrame 2 0 [], sliceFrame 2 0 []], f.WellFormed) ∧
      ConsistentTotals .little [sliceFrame 2 0 [], sliceFrame 2 0 []] ∧
      ¬ DeliversWhenComplete .little [sliceFrame 2 0 [], sliceFrame 2 0 []] := by
  refine ⟨?_, ?_, fun h => ?_⟩
  · rintro f (_ | ⟨_, _ | ⟨_, ⟨⟩⟩⟩) <;> exact ⟨⟨rfl, rfl, rfl, by decide, rfl⟩, by decide⟩
  · rintro f (_ | ⟨_, _ | ⟨_, ⟨⟩⟩⟩) g (_ | ⟨_, _ | ⟨_, ⟨⟩⟩⟩) mh mh' data data' hf hg -
    all_goals cases hf; cases hg; rfl
  · have hrun := h _ (List.prefix_refl _) 0
      [⟨fun _ => 0, Frame.stream .little [sliceFrame 2 0 [], sliceFrame 2 0 []]⟩] (by simp [input])
    revert hrun
    decide +kernel

end Decoder

end DarwinCore.Protocol
