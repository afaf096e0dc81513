import DarwinCore.Library.Counters
import DarwinCore.Model.Thread.ReadWriteLock

/-! # `ReadWriteLock` excludes and strands nobody

The counters say how many threads hold the lock and how many are in line to write. Readers wait
only while somebody writes or is in line for it, and when nobody holds the lock, some writer in
line is awake. -/

namespace DarwinCore.Thread

open Monitor

variable {ι : Type*}

/-! ## Phases -/

namespace LockPhase

def holds : LockPhase → Bool
  | outside => false
  | lockRead p => p ∈ [.arriving, .testing, .blocking, .granting, .granted]
  | lockWrite p => p ∈ [.arriving, .testing, .blocking, .granting, .granted]
  | unlockRead p => p ∈ [.holding, .released]
  | unlockWrite p => p ∈ [.holding, .released]

/-- The thread has entered `lockWrite` and does not have the lock yet. -/
def inLine : LockPhase → Bool
  | lockWrite p => p ∈ [.testing, .blocking, .waiting, .woken, .granting]
  | _ => false

def isBlocked (p : LockPhase) : Prop :=
  p = lockRead .waiting ∨ p = lockWrite .waiting

/-- The thread is going to write as soon as it finds the lock free. -/
def goesToWrite : LockPhase → Bool
  | lockWrite p => p ∈ [.testing, .woken, .granting]
  | _ => false

/-- The thread is going to read as soon as it finds that it may. -/
def goesToRead : LockPhase → Bool
  | lockRead p => p ∈ [.testing, .woken, .granting]
  | _ => false

theorem inLine_cases {p : LockPhase} (h : p.inLine = true) :
    p.goesToWrite = true ∨ p = lockWrite .waiting ∨ p = lockWrite .blocking := by
  cases p with
  | lockWrite p => cases p <;> simp_all [goesToWrite, inLine]
  | _ => cases h

end LockPhase

/-! ## What one thread does -/

/-- What the thread has found, while it keeps the mutex. -/
def Tested (l : ReadWriteLock ι) : LockPhase → Prop
  | .lockRead .blocking => l.ReadBusy
  | .lockRead .granting => ¬l.ReadBusy
  | .lockWrite .blocking => l.WriteBusy
  | .lockWrite .granting => ¬l.WriteBusy
  | _ => True

/-- A thread unlocks only what it has locked. -/
def Matched (t : LockThread) : Prop :=
  (t.phase = .unlockRead .entering ∨ t.phase = .unlockRead .holding → 0 < t.reads) ∧
    (t.phase = .unlockWrite .entering ∨ t.phase = .unlockWrite .holding → 0 < t.writes)

structure Counted (l : ReadWriteLock ι) (t : LockThread) : Prop where
  reads : t.reads ≤ l.readers
  writes : t.writes ≤ l.writers
  inLine : t.phase.inLine.toNat ≤ l.waitWriters

section ThreadStep

variable {me : ι} {l l' : ReadWriteLock ι} {t t' : LockThread} {n : Notification}

theorem ThreadStep.mutex (h : ThreadStep me l t l' t' n) :
    MutexStep me t.phase.holds t'.phase.holds l.mutex l'.mutex := by
  cases h with
  | enterLockRead h hfree => exact .acquire hfree rfl rfl
  | enterLockWrite h hfree => exact .acquire hfree rfl rfl
  | enterUnlockRead h hfree => exact .acquire hfree rfl rfl
  | enterUnlockWrite h hfree => exact .acquire hfree rfl rfl
  | lockRead h hloop =>
    rw [h]
    cases hloop with
    | wait => exact .release rfl rfl rfl
    | relock hfree => exact .acquire hfree rfl rfl
    | _ => exact .keep rfl rfl
  | lockWrite h hloop =>
    rw [h]
    cases hloop with
    | wait => exact .release rfl rfl rfl
    | relock hfree => exact .acquire hfree rfl rfl
    | _ => exact .keep rfl rfl
  | unlockRead h =>
    rw [h]
    refine .keep ?_ rfl
    unfold ReadWriteLock.unlockRead
    split_ifs <;> rfl
  | unlockWrite h =>
    rw [h]
    refine .keep ?_ rfl
    unfold ReadWriteLock.unlockWrite
    split_ifs <;> rfl
  | returnLockRead h => rw [h]; exact .release rfl rfl rfl
  | returnLockWrite h => rw [h]; exact .release rfl rfl rfl
  | returnUnlockRead h => rw [h]; exact .release rfl rfl rfl
  | returnUnlockWrite h => rw [h]; exact .release rfl rfl rfl
  | grantRead h => rw [h]; exact .keep rfl rfl
  | grantWrite h => rw [h]; exact .keep rfl rfl
  | arrive h => rw [h]; exact .keep rfl rfl
  | callLockRead h => rw [h]; exact .keep rfl rfl
  | callLockWrite h => rw [h]; exact .keep rfl rfl
  | callUnlockRead h => rw [h]; exact .keep rfl rfl
  | callUnlockWrite h => rw [h]; exact .keep rfl rfl

theorem ThreadStep.frame (h : ThreadStep me l t l' t' n) (hfree : t.phase.holds = false) :
    l'.waitWriters = l.waitWriters ∧ l'.readers = l.readers ∧ l'.writers = l.writers ∧
      n = .nobody := by
  cases h with
  | lockRead h hloop => cases hloop <;> exact ⟨rfl, rfl, rfl, rfl⟩
  | lockWrite h hloop => cases hloop <;> exact ⟨rfl, rfl, rfl, rfl⟩
  | grantRead h => simp [h, LockPhase.holds] at hfree
  | grantWrite h => simp [h, LockPhase.holds] at hfree
  | arrive h => simp [h, LockPhase.holds] at hfree
  | unlockRead h => simp [h, LockPhase.holds] at hfree
  | unlockWrite h => simp [h, LockPhase.holds] at hfree
  | _ => exact ⟨rfl, rfl, rfl, rfl⟩

theorem ThreadStep.matched (h : ThreadStep me l t l' t' n) (hmatched : Matched t) : Matched t' := by
  cases h <;> simp_all [Matched, LockThread.moveTo]

theorem ThreadStep.tested (h : ThreadStep me l t l' t' n) : Tested l' t'.phase := by
  cases h with
  | lockRead h hloop =>
    cases hloop with
    | testTrue hbusy => exact hbusy
    | testFalse hbusy => exact hbusy
    | _ => trivial
  | lockWrite h hloop =>
    cases hloop with
    | testTrue hbusy => exact hbusy
    | testFalse hbusy => exact hbusy
    | _ => trivial
  | _ => trivial

theorem unlockRead_readers (l : ReadWriteLock ι) (h : 0 < l.readers) :
    l.unlockRead.1.readers + 1 = l.readers := by
  unfold ReadWriteLock.unlockRead
  split_ifs <;> simp only <;> omega

theorem unlockRead_writers (l : ReadWriteLock ι) :
    l.unlockRead.1.writers = l.writers ∧ l.unlockRead.1.waitWriters = l.waitWriters := by
  unfold ReadWriteLock.unlockRead
  split_ifs <;> exact ⟨rfl, rfl⟩

theorem unlockWrite_writers (l : ReadWriteLock ι) (h : 0 < l.writers) :
    l.unlockWrite.1.writers + 1 = l.writers := by
  unfold ReadWriteLock.unlockWrite
  split_ifs <;> simp only <;> omega

theorem unlockWrite_readers (l : ReadWriteLock ι) :
    l.unlockWrite.1.readers = l.readers ∧ l.unlockWrite.1.waitWriters = l.waitWriters := by
  unfold ReadWriteLock.unlockWrite
  split_ifs <;> exact ⟨rfl, rfl⟩

/-- The counters change with what the thread contributes to them. -/
theorem ThreadStep.counts (h : ThreadStep me l t l' t' n) (hmatched : Matched t)
    (hcounted : Counted l t) :
    l'.readers + t.reads = l.readers + t'.reads ∧
      l'.writers + t.writes = l.writers + t'.writes ∧
      l'.waitWriters + t.phase.inLine.toNat = l.waitWriters + t'.phase.inLine.toNat := by
  have hreads := hcounted.reads
  have hwrites := hcounted.writes
  have hinLine := hcounted.inLine
  cases h with
  | unlockRead h =>
    have hheld : 0 < t.reads := hmatched.1 (.inr h)
    have hreaders := unlockRead_readers l (Nat.lt_of_lt_of_le hheld hreads)
    obtain ⟨hwriters, hwait⟩ := unlockRead_writers l
    refine ⟨?_, by rw [hwriters], by rw [hwait, h]; rfl⟩
    simp only
    omega
  | unlockWrite h =>
    have hheld : 0 < t.writes := hmatched.2 (.inr h)
    have hwriters := unlockWrite_writers l (Nat.lt_of_lt_of_le hheld hwrites)
    obtain ⟨hreaders, hwait⟩ := unlockWrite_readers l
    refine ⟨by rw [hreaders], ?_, by rw [hwait, h]; rfl⟩
    simp only
    omega
  | grantRead h =>
    refine ⟨?_, rfl, by rw [h]; rfl⟩
    simp only [ReadWriteLock.grantRead]
    omega
  | grantWrite h =>
    rw [h] at hinLine ⊢
    have hone : 1 ≤ l.waitWriters := hinLine
    refine ⟨rfl, ?_, ?_⟩
    · simp only [ReadWriteLock.grantWrite]
      omega
    · simp only [ReadWriteLock.grantWrite, LockPhase.inLine]
      simp
      omega
  | arrive h => exact ⟨rfl, rfl, by rw [h]; rfl⟩
  | lockRead h hloop => rw [h]; cases hloop <;> exact ⟨rfl, rfl, rfl⟩
  | lockWrite h hloop => rw [h]; cases hloop <;> exact ⟨rfl, rfl, rfl⟩
  | _ h => exact ⟨rfl, rfl, by rw [h]; rfl⟩

/-- What a thread has found stays true as long as nobody changes the counters. -/
theorem Tested.congr {p : LockPhase} (h : Tested l p)
    (hsame : p.holds = true → l'.waitWriters = l.waitWriters ∧ l'.readers = l.readers ∧
      l'.writers = l.writers) : Tested l' p := by
  unfold Tested at h ⊢
  split
  all_goals first
    | trivial
    | obtain ⟨hwait, hreaders, hwriters⟩ := hsame rfl
      simpa only [ReadWriteLock.ReadBusy, ReadWriteLock.WriteBusy, hwait, hreaders,
        hwriters] using h

theorem ThreadStep.notifies (h : ThreadStep me l t l' t' n) (hwaiting : t.isWaitingToWrite) :
    n ≠ .oneWriter := by
  have hfree : t.phase.holds = false := by
    rw [hwaiting]
    rfl
  obtain ⟨-, -, -, hn⟩ := h.frame hfree
  rw [hn]
  simp

/-- A step keeps writers alone. -/
theorem ThreadStep.exclusive (h : ThreadStep me l t l' t' n) (htested : Tested l t.phase)
    (hexclusive : l.writers ≤ 1 ∧ (0 < l.writers → l.readers = 0)) :
    l'.writers ≤ 1 ∧ (0 < l'.writers → l'.readers = 0) := by
  cases h with
  | grantRead h =>
    rw [h] at htested
    simp only [Tested, ReadWriteLock.ReadBusy] at htested
    simp only [ReadWriteLock.grantRead]
    omega
  | grantWrite h =>
    rw [h] at htested
    simp only [Tested, ReadWriteLock.WriteBusy] at htested
    simp only [ReadWriteLock.grantWrite]
    omega
  | unlockRead h =>
    unfold ReadWriteLock.unlockRead
    split_ifs <;> simp only <;> omega
  | unlockWrite h =>
    unfold ReadWriteLock.unlockWrite
    split_ifs <;> simp only <;> omega
  | lockRead h hloop => cases hloop <;> exact hexclusive
  | lockWrite h hloop => cases hloop <;> exact hexclusive
  | _ => exact hexclusive

/-- A thread waits for writers only, and the last of them notifies. -/
theorem ThreadStep.readers (h : ThreadStep me l t l' t' n) (htested : Tested l t.phase) :
    l'.ReadBusy ∨
      t'.phase ≠ .lockRead .waiting ∧ (n = .allReaders ∨ (l.ReadBusy → l'.ReadBusy)) := by
  cases h with
  | lockRead h hloop =>
    rw [h] at htested
    cases hloop with
    | wait => exact .inl htested
    | _ => exact .inr ⟨by simp [LockThread.moveTo], .inr id⟩
  | lockWrite h hloop => cases hloop <;> exact .inr ⟨by simp [LockThread.moveTo], .inr id⟩
  | arrive h => exact .inl (.inl (Nat.succ_pos _))
  | grantWrite h => exact .inl (.inr (Nat.succ_pos _))
  | unlockWrite h =>
    unfold ReadWriteLock.unlockWrite
    split_ifs with hnone hlast
    · exact .inr ⟨by simp, .inr id⟩
    · exact .inr ⟨by simp, .inl rfl⟩
    · left
      simp only [ReadWriteLock.ReadBusy]
      omega
  | unlockRead h =>
    obtain ⟨hwriters, hwait⟩ := unlockRead_writers l
    exact .inr ⟨by simp, .inr (by simp [ReadWriteLock.ReadBusy, hwriters, hwait])⟩
  | _ => exact .inr ⟨by simp [LockThread.moveTo], .inr id⟩

/-- A writer waits for those who have the lock, and the last of them notifies. -/
theorem ThreadStep.writers (h : ThreadStep me l t l' t' n) (htested : Tested l t.phase) :
    l'.WriteBusy ∨ t'.phase.goesToWrite = true ∨ t'.phase ≠ .lockWrite .waiting ∧
      (n = .oneWriter ∨ l.waitWriters = 0 ∨
        t.phase.goesToWrite = false ∧ (l.WriteBusy → l'.WriteBusy)) := by
  cases h with
  | lockWrite h hloop =>
    rw [h] at htested
    cases hloop with
    | testTrue hbusy => exact .inl hbusy
    | wait => exact .inl htested
    | _ => exact .inr (.inl rfl)
  | arrive h => exact .inr (.inl rfl)
  | grantWrite h => exact .inl (.inr (Nat.succ_pos _))
  | grantRead h => exact .inl (.inl (Nat.succ_pos _))
  | unlockWrite h =>
    refine .inr (.inr ⟨by simp, ?_⟩)
    unfold ReadWriteLock.unlockWrite
    split_ifs with hnone hlast
    · exact .inr (.inr ⟨by rw [h]; rfl, id⟩)
    · exact .inr (.inl hlast.2)
    · exact .inl rfl
  | unlockRead h =>
    unfold ReadWriteLock.unlockRead
    split_ifs with hnone hlast
    · exact .inr (.inr ⟨by simp, .inr (.inr ⟨by rw [h]; rfl, id⟩)⟩)
    · exact .inr (.inr ⟨by simp, .inl rfl⟩)
    · refine .inl (.inl ?_)
      simp only
      omega
  | lockRead h hloop =>
    refine .inr (.inr ⟨by simp [LockThread.moveTo], .inr (.inr ⟨by rw [h]; rfl, ?_⟩)⟩)
    cases hloop <;> exact id
  | _ h =>
    refine .inr (.inr ⟨by simp [LockThread.moveTo], .inr (.inr ⟨by rw [h]; rfl, ?_⟩)⟩)
    exact id

theorem LockThread.readerNotified_phase_ne (t : LockThread) :
    t.readerNotified.phase ≠ .lockRead .waiting := by
  unfold LockThread.readerNotified
  split_ifs with hwaiting
  · simp [LockThread.moveTo]
  · exact hwaiting

end ThreadStep

/-! ## What a step does to the others -/

/-- The thread is as before, or it has been woken. -/
inductive Woken (t : LockThread) : LockThread → Prop where
  | same : Woken t t
  | reader (h : t.phase = .lockRead .waiting) : Woken t (t.moveTo (.lockRead .woken))
  | writer (h : t.phase = .lockWrite .waiting) : Woken t (t.moveTo (.lockWrite .woken))

section Woken

variable {t t' : LockThread} {l : ReadWriteLock ι}

theorem Woken.holds (h : Woken t t') : t'.phase.holds = t.phase.holds := by
  cases h with
  | same => rfl
  | reader h => rw [h]; rfl
  | writer h => rw [h]; rfl

theorem Woken.contributes (h : Woken t t') :
    t'.reads = t.reads ∧ t'.writes = t.writes ∧ t'.phase.inLine = t.phase.inLine := by
  cases h with
  | same => exact ⟨rfl, rfl, rfl⟩
  | reader h => exact ⟨rfl, rfl, by rw [h]; rfl⟩
  | writer h => exact ⟨rfl, rfl, by rw [h]; rfl⟩

theorem Woken.matched (h : Woken t t') (hmatched : Matched t) : Matched t' := by
  cases h with
  | same => exact hmatched
  | reader h => simp [Matched, LockThread.moveTo]
  | writer h => simp [Matched, LockThread.moveTo]

theorem Woken.tested (h : Woken t t') (htested : Tested l t.phase) : Tested l t'.phase := by
  cases h with
  | same => exact htested
  | reader h => trivial
  | writer h => trivial

theorem Woken.goesToWrite (h : Woken t t') (hgoes : t.phase.goesToWrite = true) :
    t'.phase.goesToWrite = true := by
  cases h with
  | same => exact hgoes
  | reader h => rw [h] at hgoes; cases hgoes
  | writer h => rfl

theorem Woken.isBlocked {p : LockPhase} (h : Woken t t') (hp : p.isBlocked) (ht' : t'.phase = p) :
    t.phase = p := by
  cases h with
  | same => exact ht'
  | reader h => subst ht'; rcases hp with hp | hp <;> cases hp
  | writer h => subst ht'; rcases hp with hp | hp <;> cases hp

end Woken

theorem Notifies.woken [DecidableEq ι] {threads threads' : ι → LockThread} {n : Notification}
    (h : Notifies threads n threads') (i : ι) : Woken (threads i) (threads' i) := by
  cases h with
  | nobody => exact .same
  | allReaders =>
    simp only [LockThread.readerNotified]
    split_ifs with hwaiting
    · exact .reader hwaiting
    · exact .same
  | oneWriter h =>
    rcases h.eq_or i with hsame | ⟨hwaiting, hwoken⟩
    · rw [hsame]
      exact .same
    · rw [hwoken]
      exact .writer hwaiting

/-! ## The invariant -/

namespace LockSystem

variable {s t : LockSystem ι}

def readSignal (s : LockSystem ι) : Signal where
  waiting := ∃ i, (s.threads i).phase = .lockRead .waiting
  ready := ¬s.lock.ReadBusy
  coming := False

/-- Somebody waits in `lockWrite`, and may write; somebody is awake there. -/
def writeSignal (s : LockSystem ι) : Signal where
  waiting := ∃ i, (s.threads i).phase = .lockWrite .waiting
  ready := ¬s.lock.WriteBusy
  coming := ∃ i, (s.threads i).phase.goesToWrite = true

variable [Fintype ι]

/-- The counters are right, writers are alone, and those who wait do so for a reason. -/
structure Consistent (s : LockSystem ι) : Prop where
  owned : Owned (fun i => (s.threads i).phase.holds) s.lock.mutex
  readers : s.lock.readers = ∑ i, (s.threads i).reads
  writers : s.lock.writers = ∑ i, (s.threads i).writes
  waitWriters : s.lock.waitWriters = ∑ i, (s.threads i).phase.inLine.toNat
  matched : ∀ i, Matched (s.threads i)
  tested : ∀ i, Tested s.lock (s.threads i).phase
  exclusive : s.lock.writers ≤ 1 ∧ (0 < s.lock.writers → s.lock.readers = 0)
  readSignal : s.readSignal.Attended
  writeSignal : s.writeSignal.Attended

theorem Consistent.counted (h : s.Consistent) (i : ι) : Counted s.lock (s.threads i) where
  reads := Counters.le_counter h.readers i
  writes := Counters.le_counter h.writers i
  inLine := Counters.le_counter h.waitWriters i

section Step

variable [DecidableEq ι] {i : ι} {l : ReadWriteLock ι} {t : LockThread} {n : Notification}
  {threads : ι → LockThread}

omit [Fintype ι] in
/-- Nobody waits who has not waited before, but for the thread that takes the step. -/
theorem waiting_before {p : LockPhase} (hp : p.isBlocked) (hnotify : Notifies s.threads n threads)
    (ht : t.phase ≠ p) {j : ι} (hj : (Function.update threads i t j).phase = p) :
    (s.threads j).phase = p ∧ j ≠ i := by
  have hne : j ≠ i := by
    rintro rfl
    rw [Function.update_self] at hj
    exact ht hj
  rw [Function.update_of_ne hne] at hj
  exact ⟨(hnotify.woken j).isBlocked hp hj, hne⟩

theorem readSignal_step (h : s.Consistent) (hthread : ThreadStep i s.lock (s.threads i) l t n)
    (hnotify : Notifies s.threads n threads) :
    Signal.Step s.readSignal
      (readSignal { lock := l, threads := Function.update threads i t }) := by
  rcases hthread.readers (h.tested i) with hbusy | ⟨hphase, hnotified | hkept⟩
  · exact .wait fun hready => hready hbusy
  · subst hnotified
    refine .notify ?_
    rintro ⟨j, hj⟩
    obtain ⟨-, hne⟩ := waiting_before (.inl rfl) hnotify hphase hj
    change (Function.update threads i t j).phase = _ at hj
    rw [Function.update_of_ne hne] at hj
    cases hnotify
    exact LockThread.readerNotified_phase_ne _ hj
  · refine .other ?_ (fun hready hbusy => hready (hkept hbusy)) id
    rintro ⟨j, hj⟩
    exact ⟨j, (waiting_before (.inl rfl) hnotify hphase hj).1⟩

/-- While nobody has the lock, some writer in line is awake. -/
theorem writeSignal_step (h : s.Consistent) (hthread : ThreadStep i s.lock (s.threads i) l t n)
    (hnotify : Notifies s.threads n threads) :
    Signal.Step s.writeSignal
      (writeSignal { lock := l, threads := Function.update threads i t }) := by
  rcases hthread.writers (h.tested i) with
    hbusy | hgoes | ⟨hphase, hnotified | hnone | ⟨hold, hkept⟩⟩
  · exact .wait fun hready => hready hbusy
  · exact .announce ⟨i, by simpa using hgoes⟩
  · subst hnotified
    cases hnotify with
    | oneWriter hone =>
      cases hone with
      | nobody hnobody hsame =>
        refine .notify ?_
        rintro ⟨j, hj⟩
        have hkept : Notifies s.threads .oneWriter threads := .oneWriter (.nobody hnobody hsame)
        exact hnobody j (waiting_before (.inr rfl) hkept hphase hj).1
      | one j hj hwoken =>
        have hne : j ≠ i := by
          rintro rfl
          exact hthread.notifies hj rfl
        refine .announce ⟨j, ?_⟩
        change (Function.update threads i t j).phase.goesToWrite = true
        rw [Function.update_of_ne hne, hwoken, Function.update_self]
        rfl
  · refine .notify ?_
    rintro ⟨j, hj⟩
    obtain ⟨hwaiting, -⟩ := waiting_before (.inr rfl) hnotify hphase hj
    have hinLine := (h.counted j).inLine
    rw [hwaiting, hnone] at hinLine
    cases hinLine
  · refine .other ?_ (fun hready hbusy => hready (hkept hbusy)) ?_
    · rintro ⟨j, hj⟩
      exact ⟨j, (waiting_before (.inr rfl) hnotify hphase hj).1⟩
    · rintro ⟨j, hj⟩
      have hne : j ≠ i := by
        rintro rfl
        exact Bool.false_ne_true (hold.symm.trans hj)
      exact ⟨j, by simpa [hne] using (hnotify.woken j).goesToWrite hj⟩

theorem Consistent.thread (h : s.Consistent) (hthread : ThreadStep i s.lock (s.threads i) l t n)
    (hnotify : Notifies s.threads n threads) :
    Consistent { lock := l, threads := Function.update threads i t } := by
  have hother (j : ι) (hj : j ≠ i) : Woken (s.threads j) (Function.update threads i t j) := by
    rw [Function.update_of_ne hj]
    exact hnotify.woken j
  obtain ⟨hreaders, hwriters, hinLine⟩ := hthread.counts (h.matched i) (h.counted i)
  constructor
  · refine h.owned.step i ?_ fun j hj => (hother j hj).holds
    simpa using hthread.mutex
  · refine Counters.step h.readers i (by simpa using hreaders) fun j hj => ?_
    exact (hother j hj).contributes.1
  · refine Counters.step h.writers i (by simpa using hwriters) fun j hj => ?_
    exact (hother j hj).contributes.2.1
  · refine Counters.step h.waitWriters i (by simpa using hinLine) fun j hj => ?_
    rw [(hother j hj).contributes.2.2]
  · intro j
    by_cases hj : j = i
    · subst hj
      simpa using hthread.matched (h.matched j)
    · exact (hother j hj).matched (h.matched j)
  · intro j
    by_cases hj : j = i
    · subst hj
      simpa using hthread.tested
    · refine (hother j hj).tested ((h.tested j).congr fun hholds => ?_)
      have hfree : (s.threads i).phase.holds = false := by
        by_contra hheld
        exact hj (h.owned.unique hholds (by simpa using hheld))
      obtain ⟨hwait, hreaders, hwriters, -⟩ := hthread.frame hfree
      exact ⟨hwait, hreaders, hwriters⟩
  · exact hthread.exclusive (h.tested i) h.exclusive
  · exact (readSignal_step h hthread hnotify).attended h.readSignal
  · exact (writeSignal_step h hthread hnotify).attended h.writeSignal

theorem Step.consistent {s' : LockSystem ι} (hstep : Step s s') (h : s.Consistent) :
    s'.Consistent := by
  cases hstep with
  | thread hthread hnotify => exact h.thread hthread hnotify

end Step

theorem consistent_init : Consistent ({} : LockSystem ι) where
  owned _ := by simp [LockPhase.holds]
  readers := by simp
  writers := by simp
  waitWriters := by simp [LockPhase.inLine]
  matched _ := by simp [Matched]
  tested _ := trivial
  exclusive := ⟨Nat.zero_le _, fun h => absurd h (Nat.lt_irrefl 0)⟩
  readSignal := by simp [Signal.Attended, LockSystem.readSignal]
  writeSignal := by simp [Signal.Attended, LockSystem.writeSignal]

/-! ## What the lock guarantees -/

/-- A thread inside `lockRead` or `lockWrite` is awake, and finds that it may go on. -/
def Goes (s : LockSystem ι) (i : ι) : Prop :=
  (s.threads i).phase.goesToRead = true ∧ ¬s.lock.ReadBusy ∨
    (s.threads i).phase.goesToWrite = true ∧ ¬s.lock.WriteBusy

structure Guarantees (s : LockSystem ι) : Prop where
  oneWriter : ∀ i j, 0 < (s.threads i).writes → 0 < (s.threads j).writes → i = j
  onlyOnce : ∀ i, (s.threads i).writes ≤ 1
  noReader : ∀ i j, 0 < (s.threads i).writes → (s.threads j).reads = 0
  readers : s.lock.readers = ∑ i, (s.threads i).reads
  writers : s.lock.writers = ∑ i, (s.threads i).writes
  waitWriters : s.lock.waitWriters =
    (Finset.univ.filter fun i => (s.threads i).phase.inLine = true).card
  progress : (∀ i, (s.threads i).reads = 0 ∧ (s.threads i).writes = 0) →
    (∃ i, (s.threads i).phase.isBlocked) → ∃ i, s.Goes i

theorem Consistent.writes_le (h : s.Consistent) [DecidableEq ι] {i j : ι} (hij : i ≠ j) :
    (s.threads i).writes + (s.threads j).writes ≤ 1 := by
  have hpair : ∑ k ∈ {i, j}, (s.threads k).writes ≤ ∑ k, (s.threads k).writes :=
    Finset.sum_le_sum_of_subset (Finset.subset_univ _)
  rw [Finset.sum_pair hij, ← h.writers] at hpair
  exact hpair.trans h.exclusive.1

theorem Consistent.writer_goes (h : s.Consistent) (hfree : ¬s.lock.WriteBusy)
    (hline : ∃ i, (s.threads i).phase.inLine = true) : ∃ i, s.Goes i := by
  obtain ⟨i, hi⟩ := hline
  rcases LockPhase.inLine_cases hi with hgoes | hwaiting | hblocking
  · exact ⟨i, .inr ⟨hgoes, hfree⟩⟩
  · obtain ⟨j, hj⟩ := h.writeSignal ⟨i, hwaiting⟩ hfree
    exact ⟨j, .inr ⟨hj, hfree⟩⟩
  · have htested := h.tested i
    rw [hblocking] at htested
    exact absurd htested hfree

theorem Consistent.progress (h : s.Consistent)
    (hnobody : ∀ i, (s.threads i).reads = 0 ∧ (s.threads i).writes = 0)
    (hblocked : ∃ i, (s.threads i).phase.isBlocked) : ∃ i, s.Goes i := by
  have hreaders : s.lock.readers = 0 := by
    rw [h.readers]
    exact Finset.sum_eq_zero fun i _ => (hnobody i).1
  have hwriters : s.lock.writers = 0 := by
    rw [h.writers]
    exact Finset.sum_eq_zero fun i _ => (hnobody i).2
  have hfree : ¬s.lock.WriteBusy := by
    simp [ReadWriteLock.WriteBusy, hreaders, hwriters]
  obtain ⟨i, hread | hwrite⟩ := hblocked
  · by_cases hline : ∃ j, (s.threads j).phase.inLine = true
    · exact h.writer_goes hfree hline
    · -- Without a writer in line, no reader would be waiting.
      have hnone : s.lock.waitWriters = 0 := by
        rw [h.waitWriters]
        exact Finset.sum_eq_zero fun j _ => by simpa using fun hj => hline ⟨j, hj⟩
      have hmay : ¬s.lock.ReadBusy := by
        simp [ReadWriteLock.ReadBusy, hnone, hwriters]
      exact (h.readSignal ⟨i, hread⟩ hmay).elim
  · exact h.writer_goes hfree ⟨i, by rw [hwrite]; rfl⟩

theorem Consistent.guarantees (h : s.Consistent) [DecidableEq ι] : s.Guarantees where
  oneWriter i j hi hj := by
    by_contra hij
    have hle := h.writes_le hij
    omega
  onlyOnce i := (h.counted i).writes.trans h.exclusive.1
  noReader i j hi := by
    have hnone := h.exclusive.2 (hi.trans_le (h.counted i).writes)
    exact Nat.le_zero.mp (hnone ▸ (h.counted j).reads)
  readers := h.readers
  writers := h.writers
  waitWriters := h.waitWriters.trans (Counters.card_filter _).symm
  progress := h.progress

end LockSystem

/-- In every run, at every moment: writers are alone, the counters are right, and nobody is left
waiting for a lock that is free. -/
theorem lock_guarantees [Fintype ι] [DecidableEq ι] {states : List (LockSystem ι)}
    (h : (readWriteLocks ι).Run states) : ∀ s ∈ states, s.Guarantees := by
  have hconsistent : ∀ s ∈ states, s.Consistent := by
    refine h.invariant (fun s hinit => ?_) fun s t hs hstep => ?_
    · obtain rfl : s = _ := hinit
      exact LockSystem.consistent_init
    · exact LockSystem.Step.consistent hstep hs
  exact fun s hs => (hconsistent s hs).guarantees

/-- Two threads wait for one that writes. It unlocks and notifies one of them: nobody holds the
lock, one still waits, and the other one gets it. -/
theorem lock_guarantees_three : ∃ states, (readWriteLocks (Fin 3)).Run states ∧
    (∃ s ∈ states, s.lock.waitWriters = 2 ∧ (s.threads 2).phase.isBlocked ∧
      (∀ i, (s.threads i).reads = 0 ∧ (s.threads i).writes = 0) ∧ ∃ i, s.Goes i) ∧
    (∃ s ∈ states, (s.threads 1).writes = 1) ∧ ∀ s ∈ states, s.Guarantees := by
  have hfree {l : ReadWriteLock (Fin 3)} (hreaders : l.readers = 0) (hwriters : l.writers = 0) :
      ¬l.WriteBusy := by
    simp [ReadWriteLock.WriteBusy, hreaders, hwriters]
  have hstart : (readWriteLocks (Fin 3)).Leads (fun _ _ => True) {} := .start rfl
  have hcalled := hstart.next (.thread (i := 0) (.callLockWrite rfl) .nobody) trivial
  have hlocked := hcalled.next (.thread (i := 0) (.enterLockWrite rfl rfl) .nobody) trivial
  have harrived := hlocked.next (.thread (i := 0) (.arrive rfl) .nobody) trivial
  have htested := harrived.next
    (.thread (i := 0) (.lockWrite rfl (.testFalse (hfree rfl rfl))) .nobody) trivial
  have hgranted := htested.next (.thread (i := 0) (.grantWrite rfl) .nobody) trivial
  have hwrites := hgranted.next (.thread (i := 0) (.returnLockWrite rfl) .nobody) trivial
  -- two threads wait
  have hcalled := hwrites.next (.thread (i := 1) (.callLockWrite rfl) .nobody) trivial
  have hlocked := hcalled.next (.thread (i := 1) (.enterLockWrite rfl rfl) .nobody) trivial
  have harrived := hlocked.next (.thread (i := 1) (.arrive rfl) .nobody) trivial
  have htested := harrived.next
    (.thread (i := 1) (.lockWrite rfl (.testTrue (.inr Nat.one_pos))) .nobody) trivial
  have hwaits := htested.next (.thread (i := 1) (.lockWrite rfl .wait) .nobody) trivial
  have hcalled := hwaits.next (.thread (i := 2) (.callLockWrite rfl) .nobody) trivial
  have hlocked := hcalled.next (.thread (i := 2) (.enterLockWrite rfl rfl) .nobody) trivial
  have harrived := hlocked.next (.thread (i := 2) (.arrive rfl) .nobody) trivial
  have htested := harrived.next
    (.thread (i := 2) (.lockWrite rfl (.testTrue (.inr Nat.one_pos))) .nobody) trivial
  have hwaits := htested.next (.thread (i := 2) (.lockWrite rfl .wait) .nobody) trivial
  -- one of them is notified
  have hcalled := hwaits.next (.thread (i := 0) (.callUnlockWrite rfl Nat.one_pos) .nobody) trivial
  have hlocked := hcalled.next (.thread (i := 0) (.enterUnlockWrite rfl rfl) .nobody) trivial
  have hunlocked := hlocked.next
    (.thread (i := 0) (.unlockWrite rfl) (.oneWriter (.one 1 rfl rfl))) trivial
  have hseen : (readWriteLocks (Fin 3)).Passes (fun _ _ => True) (fun s => s.lock.waitWriters = 2 ∧
      (s.threads 2).phase.isBlocked ∧ ∀ i, (s.threads i).reads = 0 ∧ (s.threads i).writes = 0) _ :=
    hunlocked.passes ⟨rfl, .inr rfl, by decide⟩
  have hreleased := hseen.next (.thread (i := 0) (.returnUnlockWrite rfl) .nobody) trivial
  have hwoken := hreleased.next (.thread (i := 1) (.lockWrite rfl (.relock rfl)) .nobody) trivial
  have htested := hwoken.next
    (.thread (i := 1) (.lockWrite rfl (.testFalse (hfree rfl rfl))) .nobody) trivial
  obtain ⟨past, hrun, -, s, hs, hwaiting, hblocked, hnobody⟩ := htested.next
    (.thread (i := 1) (.grantWrite rfl) .nobody) trivial
  have hall := lock_guarantees hrun
  exact ⟨_, hrun, ⟨s, hs, hwaiting, hblocked, hnobody, (hall s hs).progress hnobody ⟨2, hblocked⟩⟩,
    ⟨_, List.mem_cons_self, rfl⟩, hall⟩

end DarwinCore.Thread
