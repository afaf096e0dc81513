import DarwinCore.Verification.Network.Cases

/-! # Back-pressure

The flags of a connection, its buffer and the filters of its descriptor agree, as long as
the calls of `kevent` succeed. -/

namespace DarwinCore.Network

open Relation

/-- Reading is paused between the marks: from the high one on until below the low one. -/
structure ReadSide (k : Kernel) (conn : ReactorConnection) : Prop where
  reading : conn.fileDescriptor ∈ k.readFilters ↔ conn.readPaused = false
  high : highWaterMark ≤ conn.sendBuffer.size → conn.readPaused = true
  low : conn.readPaused = true → lowWaterMark ≤ conn.sendBuffer.size

/-- A write event is awaited as long as something is buffered. -/
structure WriteSide (k : Kernel) (conn : ReactorConnection) : Prop where
  pending : conn.writePending = true ↔ conn.sendBuffer.isEmpty = false
  writing : conn.fileDescriptor ∈ k.writeFilters ↔ conn.writePending = true

structure Pressure (k : Kernel) (conn : ReactorConnection) : Prop extends
  ReadSide k conn, WriteSide k conn

theorem Pressure.awaits {k : Kernel} {conn : ReactorConnection} (h : Pressure k conn)
    (hvalid : conn.sendBuffer.Valid) (hpaused : conn.readPaused = true) :
    conn.fileDescriptor ∈ k.writeFilters := by
  have hlow := h.low hpaused
  rw [h.writing, h.pending]
  refine Bool.eq_false_iff.mpr fun hempty => ?_
  have hnil := hvalid.readable_eq_nil hempty
  rw [← hvalid.readable_length, hnil] at hlow
  exact absurd hlow (by decide)

/-- Another connection with the same flags and as much in its buffer. -/
theorem Pressure.congr {k : Kernel} {conn conn' : ReactorConnection} (h : Pressure k conn)
    (hfd : conn'.fileDescriptor = conn.fileDescriptor)
    (hpaused : conn'.readPaused = conn.readPaused)
    (hpending : conn'.writePending = conn.writePending) (hvalid : conn.sendBuffer.Valid)
    (hvalid' : conn'.sendBuffer.Valid)
    (hreadable : conn'.sendBuffer.readable = conn.sendBuffer.readable) : Pressure k conn' := by
  have hsize : conn'.sendBuffer.size = conn.sendBuffer.size := by
    rw [← hvalid.readable_length, ← hvalid'.readable_length, hreadable]
  have hempty : conn'.sendBuffer.isEmpty = conn.sendBuffer.isEmpty := by
    rw [Bool.eq_iff_iff, hvalid.isEmpty_iff, hvalid'.isEmpty_iff, hreadable]
  refine ⟨⟨?_, ?_, ?_⟩, ?_, ?_⟩
  · rw [hfd, hpaused]
    exact h.reading
  · rw [hsize, hpaused]
    exact h.high
  · rw [hsize, hpaused]
    exact h.low
  · rw [hempty, hpending]
    exact h.pending
  · rw [hfd, hpending]
    exact h.writing

theorem ReadSide.congr {k k' : Kernel} {conn conn' : ReactorConnection} (h : ReadSide k conn)
    (hfilters : k'.readFilters = k.readFilters)
    (hfd : conn'.fileDescriptor = conn.fileDescriptor)
    (hpaused : conn'.readPaused = conn.readPaused)
    (hbuffer : conn'.sendBuffer = conn.sendBuffer) : ReadSide k' conn' where
  reading := by
    rw [hfilters, hfd, hpaused]
    exact h.reading
  high := by
    rw [hbuffer, hpaused]
    exact h.high
  low := by
    rw [hbuffer, hpaused]
    exact h.low

namespace Reactor

/-- Every call of `kevent` has succeeded. -/
def Flawless (r : Reactor) : Prop :=
  ∀ fd change, Effect.kevent fd change false ∉ r.log

/-- Only filters of `fd` are registered or deleted. -/
def Monitored (fd : ℤ) : Reactor → Reactor → Prop :=
  ReflTransGen fun r r' => ∃ env change, r' = (r.monitor env fd change).2

variable {r r' : Reactor} {id : UInt64} {fd : ℤ} {conn conn' : ReactorConnection}

theorem Flawless.of_cons {e : Effect} (hlog : r'.log = e :: r.log) (h : r'.Flawless) :
    r.Flawless := by
  intro fd change hmem
  refine h fd change ?_
  rw [hlog]
  exact List.mem_cons_of_mem _ hmem

theorem monitor_kernel_or (env : Environment) (fd : ℤ) (change : Change) (r : Reactor) :
    (r.monitor env fd change).2.kernel = r.kernel ∨
      (r.monitor env fd change).2.kernel = r.kernel.apply fd change := by
  unfold monitor
  dsimp only
  split
  · exact .inr rfl
  · exact .inl rfl

theorem monitor_kernel (env : Environment) (fd : ℤ) (change : Change)
    (h : (r.monitor env fd change).2.Flawless) :
    (r.monitor env fd change).2.kernel = r.kernel.apply fd change := by
  unfold monitor at h ⊢
  dsimp only at h ⊢
  split
  · rfl
  · rename_i hfailed
    rw [Bool.not_eq_true] at hfailed
    rw [hfailed] at h
    exact absurd List.mem_cons_self (h fd change)

theorem Monitored.single (env : Environment) (change : Change) :
    Monitored fd r (r.monitor env fd change).2 :=
  ReflTransGen.single ⟨env, change, rfl⟩

theorem Monitored.trans {r'' : Reactor} (h : Monitored fd r r') (h' : Monitored fd r' r'') :
    Monitored fd r r'' :=
  ReflTransGen.trans h h'

theorem Monitored.keeps {P : Reactor → Prop}
    (hcall : ∀ r env change, P r → P (r.monitor env fd change).2) (h : Monitored fd r r')
    (hr : P r) : P r' := by
  induction h with
  | refl => exact hr
  | tail _ hcalled ih =>
    obtain ⟨env, change, rfl⟩ := hcalled
    exact hcall _ env change ih

theorem Monitored.quiet (h : Monitored fd r r') : r.Quiet r' :=
  h.keeps (fun _ env change hq => hq.trans (quiet_monitor env fd change _)) (.refl r)

theorem Monitored.flawless (h : Monitored fd r r') (hflawless : r'.Flawless) : r.Flawless := by
  have hback : r'.Flawless → r.Flawless :=
    h.keeps (P := fun r' => r'.Flawless → r.Flawless)
      (fun _ env change hr hcalled => hr (hcalled.of_cons rfl)) id
  exact hback hflawless

/-! ## The four places where a flag changes -/

theorem monitored_ite (env : Environment) (change : Change) (b : Bool)
    {new old : ReactorConnection} :
    Monitored fd r (if b then (new, (r.monitor env fd change).2) else (old, r)).2 := by
  cases b with
  | false => exact .refl
  | true => exact .single env change

theorem pauseReading_monitored (env : Environment) (conn : ReactorConnection) (r : Reactor) :
    Monitored conn.fileDescriptor r (r.pauseReading env conn).2 :=
  monitored_ite env .deleteRead _

theorem resumeReading_monitored (env : Environment) (fd : ℤ) (conn : ReactorConnection)
    (r : Reactor) :
    Monitored fd r (r.resumeReading env fd conn).2 :=
  monitored_ite env .addRead _

theorem awaitWritable_monitored (env : Environment) (conn : ReactorConnection) (r : Reactor) :
    Monitored conn.fileDescriptor r (r.awaitWritable env conn).2 :=
  monitored_ite env .addWrite _

theorem stopWriting_monitored (env : Environment) (fd : ℤ) (conn : ReactorConnection)
    (r : Reactor) :
    Monitored fd r (r.stopWriting env fd conn).2 :=
  monitored_ite env .deleteWrite _

theorem pauseReading_readSide (env : Environment)
    (hreading : conn.fileDescriptor ∈ r.kernel.readFilters ↔ conn.readPaused = false)
    (hlow : conn.readPaused = true → lowWaterMark ≤ conn.sendBuffer.size)
    (h : (r.pauseReading env conn).2.Flawless) :
    ReadSide (r.pauseReading env conn).2.kernel (r.pauseReading env conn).1 := by
  unfold pauseReading at h ⊢
  split
  · rename_i hpause
    rw [if_pos hpause] at h
    have hkernel := monitor_kernel env _ _ h
    rw [Bool.and_eq_true, SendBuffer.isHighWaterMark, decide_eq_true_eq] at hpause
    rw [hkernel]
    refine ⟨?_, fun _ => rfl, fun _ => ?_⟩
    · simp [Kernel.apply]
    · exact le_trans (by decide) hpause.1
  · rename_i hpause
    rw [Bool.and_eq_true, SendBuffer.isHighWaterMark, decide_eq_true_eq] at hpause
    refine ⟨hreading, fun hhigh => ?_, hlow⟩
    simpa using fun hnot => hpause ⟨hhigh, hnot⟩

theorem resumeReading_readSide (env : Environment) (hfd : conn.fileDescriptor = fd)
    (hreading : conn.fileDescriptor ∈ r.kernel.readFilters ↔ conn.readPaused = false)
    (hhigh : highWaterMark ≤ conn.sendBuffer.size → conn.readPaused = true)
    (h : (r.resumeReading env fd conn).2.Flawless) :
    ReadSide (r.resumeReading env fd conn).2.kernel (r.resumeReading env fd conn).1 := by
  unfold resumeReading at h ⊢
  split
  · rename_i hresume
    rw [if_pos hresume] at h
    have hkernel := monitor_kernel env _ _ h
    rw [Bool.and_eq_true, SendBuffer.isLowWaterMark, decide_eq_true_eq] at hresume
    rw [hkernel]
    refine ⟨?_, fun hhigh => ?_, nofun⟩
    · simp [Kernel.apply, hfd]
    · exact absurd (lt_of_lt_of_le hresume.2 (by decide)) (not_lt_of_ge hhigh)
  · rename_i hresume
    rw [Bool.and_eq_true, SendBuffer.isLowWaterMark, decide_eq_true_eq] at hresume
    exact ⟨hreading, hhigh, fun hpaused => not_lt.mp fun hlow => hresume ⟨hpaused, hlow⟩⟩

theorem awaitWritable_writeSide (env : Environment)
    (hwriting : conn.fileDescriptor ∈ r.kernel.writeFilters ↔ conn.writePending = true)
    (hbusy : conn.sendBuffer.isEmpty = false) (h : (r.awaitWritable env conn).2.Flawless) :
    WriteSide (r.awaitWritable env conn).2.kernel (r.awaitWritable env conn).1 := by
  unfold awaitWritable at h ⊢
  split
  · rename_i hawait
    rw [if_pos hawait] at h
    rw [monitor_kernel env _ _ h]
    refine ⟨iff_of_true rfl hbusy, ?_⟩
    simp [Kernel.apply]
  · rename_i hawait
    exact ⟨iff_of_true (by simpa using hawait) hbusy, hwriting⟩

theorem stopWriting_writeSide (env : Environment) (hfd : conn.fileDescriptor = fd)
    (hwriting : conn.fileDescriptor ∈ r.kernel.writeFilters ↔ conn.writePending = true)
    (hpending : conn.sendBuffer.isEmpty = false → conn.writePending = true)
    (h : (r.stopWriting env fd conn).2.Flawless) :
    WriteSide (r.stopWriting env fd conn).2.kernel (r.stopWriting env fd conn).1 := by
  unfold stopWriting at h ⊢
  split
  · rename_i hstop
    rw [if_pos hstop] at h
    rw [Bool.and_eq_true] at hstop
    rw [monitor_kernel env _ _ h]
    refine ⟨iff_of_false Bool.false_ne_true (by simp [hstop.1]), ?_⟩
    simp [Kernel.apply, hfd]
  · rename_i hstop
    rw [Bool.and_eq_true] at hstop
    refine ⟨⟨fun hset => ?_, hpending⟩, hwriting⟩
    exact Bool.eq_false_iff.mpr fun hempty => hstop ⟨hempty, hset⟩

/-! ## Each of them leaves the other side alone -/

theorem pauseReading_keeps (env : Environment) (conn : ReactorConnection) (r : Reactor) :
    (r.pauseReading env conn).1.writePending = conn.writePending ∧
      (r.pauseReading env conn).2.kernel.writeFilters = r.kernel.writeFilters := by
  unfold pauseReading
  split
  · refine ⟨rfl, ?_⟩
    rcases monitor_kernel_or env conn.fileDescriptor .deleteRead r with h | h <;> rw [h]
    rfl
  · exact ⟨rfl, rfl⟩

theorem resumeReading_keeps (env : Environment) (fd : ℤ) (conn : ReactorConnection) (r : Reactor) :
    (r.resumeReading env fd conn).1.writePending = conn.writePending ∧
      (r.resumeReading env fd conn).2.kernel.writeFilters = r.kernel.writeFilters := by
  unfold resumeReading
  split
  · refine ⟨rfl, ?_⟩
    rcases monitor_kernel_or env fd .addRead r with h | h <;> rw [h]
    rfl
  · exact ⟨rfl, rfl⟩

theorem awaitWritable_keeps (env : Environment) (conn : ReactorConnection) (r : Reactor) :
    (r.awaitWritable env conn).1.readPaused = conn.readPaused ∧
      (r.awaitWritable env conn).2.kernel.readFilters = r.kernel.readFilters := by
  unfold awaitWritable
  split
  · refine ⟨rfl, ?_⟩
    rcases monitor_kernel_or env conn.fileDescriptor .addWrite r with h | h <;> rw [h]
    rfl
  · exact ⟨rfl, rfl⟩

theorem stopWriting_keeps (env : Environment) (fd : ℤ) (conn : ReactorConnection) (r : Reactor) :
    (r.stopWriting env fd conn).1.readPaused = conn.readPaused ∧
      (r.stopWriting env fd conn).2.kernel.readFilters = r.kernel.readFilters := by
  unfold stopWriting
  split
  · refine ⟨rfl, ?_⟩
    rcases monitor_kernel_or env fd .deleteWrite r with h | h <;> rw [h]
    rfl
  · exact ⟨rfl, rfl⟩

/-! ## Both sides -/

/-- After more has been buffered. -/
theorem buffered_pressure (env : Environment) {paused awaiting : ReactorConnection × Reactor}
    (hpaused : paused = r.pauseReading env conn)
    (hawaiting : awaiting = paused.2.awaitWritable env paused.1)
    (hreading : conn.fileDescriptor ∈ r.kernel.readFilters ↔ conn.readPaused = false)
    (hlow : conn.readPaused = true → lowWaterMark ≤ conn.sendBuffer.size)
    (hwriting : conn.fileDescriptor ∈ r.kernel.writeFilters ↔ conn.writePending = true)
    (hbusy : conn.sendBuffer.isEmpty = false) (hflawless : awaiting.2.Flawless) :
    Pressure awaiting.2.kernel awaiting.1 := by
  subst hpaused hawaiting
  have hpause := pauseReading_flagged env conn r
  have hawait := awaitWritable_flagged env (r.pauseReading env conn).1 (r.pauseReading env conn).2
  obtain ⟨hsame, hfilters⟩ := pauseReading_keeps env conn r
  obtain ⟨hpaused, hreads⟩ := awaitWritable_keeps env (r.pauseReading env conn).1
    (r.pauseReading env conn).2
  have hread := pauseReading_readSide env hreading hlow
    ((awaitWritable_monitored env _ _).flawless hflawless)
  refine ⟨hread.congr hreads hawait.fd hpaused hawait.buffer, ?_⟩
  refine awaitWritable_writeSide env ?_ ?_ hflawless
  · rw [hfilters, hpause.fd, hsame]
    exact hwriting
  · rw [hpause.buffer]
    exact hbusy

theorem stopWriting_pressure (env : Environment) (hfd : conn.fileDescriptor = fd)
    (hread : ReadSide r.kernel conn)
    (hwriting : conn.fileDescriptor ∈ r.kernel.writeFilters ↔ conn.writePending = true)
    (hpending : conn.sendBuffer.isEmpty = false → conn.writePending = true)
    (hflawless : (r.stopWriting env fd conn).2.Flawless) :
    Pressure (r.stopWriting env fd conn).2.kernel (r.stopWriting env fd conn).1 := by
  have hstop := stopWriting_flagged env fd conn r
  obtain ⟨hpaused, hreads⟩ := stopWriting_keeps env fd conn r
  exact ⟨hread.congr hreads hstop.fd hpaused hstop.buffer,
    stopWriting_writeSide env hfd hwriting hpending hflawless⟩

theorem flushed_pressure (env : Environment) {resumed stopped : ReactorConnection × Reactor}
    (hresumed : resumed = r.resumeReading env fd conn)
    (hstopped : stopped = resumed.2.stopWriting env fd resumed.1)
    (hfd : conn.fileDescriptor = fd)
    (hreading : conn.fileDescriptor ∈ r.kernel.readFilters ↔ conn.readPaused = false)
    (hhigh : highWaterMark ≤ conn.sendBuffer.size → conn.readPaused = true)
    (hwriting : conn.fileDescriptor ∈ r.kernel.writeFilters ↔ conn.writePending = true)
    (hpending : conn.sendBuffer.isEmpty = false → conn.writePending = true)
    (hflawless : stopped.2.Flawless) : Pressure stopped.2.kernel stopped.1 := by
  subst hresumed hstopped
  have hresume := resumeReading_flagged env fd conn r
  obtain ⟨hsame, hfilters⟩ := resumeReading_keeps env fd conn r
  have hread := resumeReading_readSide env hfd hreading hhigh
    ((stopWriting_monitored env _ _ _).flawless hflawless)
  refine stopWriting_pressure env (hresume.fd.trans hfd) hread ?_ ?_ hflawless
  · rw [hfilters, hresume.fd, hsame]
    exact hwriting
  · rw [hresume.buffer, hsame]
    exact hpending

end Reactor

end DarwinCore.Network
