import DarwinCore.Library.Locks
import DarwinCore.Library.TransitionSystem

/-! # `ReadWriteLock`

A lock and threads that lock and unlock it. A thread unlocks what it has locked, and it may lock
once more before that. Each operation on the mutex is a step of its own, and so are each test and
each change of the counters. A notification is always given with the mutex, and is one step with the
change that it is about. A thread that waits may wake up for no reason. -/

namespace DarwinCore.Thread

open Monitor

/-- The members. -/
structure ReadWriteLock (ι : Type*) where
  waitWriters : ℕ := 0
  readers : ℕ := 0
  writers : ℕ := 0
  /-- The thread that holds `_mutex`. -/
  mutex : Option ι := none

/-- Whom a thread notifies. -/
inductive Notification where
  | nobody
  /-- `_cv_reader.notify_all`. -/
  | allReaders
  /-- `_cv_writer.notify_one`. -/
  | oneWriter
  deriving DecidableEq

namespace ReadWriteLock

variable {ι : Type*} (l : ReadWriteLock ι)

def acquire (me : ι) : ReadWriteLock ι :=
  { l with mutex := some me }

def release : ReadWriteLock ι :=
  { l with mutex := none }

/-- What `lockWrite` waits for to end. -/
def WriteBusy : Prop :=
  0 < l.readers ∨ 0 < l.writers

/-- What `lockRead` waits for to end. -/
def ReadBusy : Prop :=
  0 < l.waitWriters ∨ 0 < l.writers

/-- `lockWrite` before its loop. -/
def arrive : ReadWriteLock ι :=
  { l with waitWriters := l.waitWriters + 1 }

/-- `lockWrite` after its loop. -/
def grantWrite : ReadWriteLock ι :=
  { l with writers := l.writers + 1, waitWriters := l.waitWriters - 1 }

/-- `lockRead` after its loop. -/
def grantRead : ReadWriteLock ι :=
  { l with readers := l.readers + 1 }

/-- `unlockWrite` with the mutex. -/
def unlockWrite : ReadWriteLock ι × Notification :=
  if l.writers = 0 then (l, .nobody)
  else if l.writers - 1 = 0 ∧ l.waitWriters = 0 then
    ({ l with writers := l.writers - 1 }, .allReaders)
  else ({ l with writers := l.writers - 1 }, .oneWriter)

/-- `unlockRead` with the mutex. -/
def unlockRead : ReadWriteLock ι × Notification :=
  if l.readers = 0 then (l, .nobody)
  else if l.readers - 1 = 0 then ({ l with readers := l.readers - 1 }, .oneWriter)
  else ({ l with readers := l.readers - 1 }, .nobody)

end ReadWriteLock

/-! ## Where a thread is -/

/-- In `lockRead` or `lockWrite`. -/
inductive LockingPhase where
  | entering
  /-- With the mutex, before `lockWrite` counts the thread. -/
  | arriving
  /-- With the mutex, before the test of the loop. -/
  | testing
  /-- With the mutex, between the test and the wait. -/
  | blocking
  | waiting
  /-- Woken, and before it takes the mutex again. -/
  | woken
  /-- With the mutex, after the loop. -/
  | granting
  /-- With the mutex, at the end. -/
  | granted
  deriving DecidableEq

/-- In `unlockRead` or `unlockWrite`. -/
inductive UnlockingPhase where
  | entering
  /-- With the mutex. -/
  | holding
  /-- With the mutex, at the end. -/
  | released
  deriving DecidableEq

inductive LockPhase where
  | outside
  | lockRead (p : LockingPhase)
  | lockWrite (p : LockingPhase)
  | unlockRead (p : UnlockingPhase)
  | unlockWrite (p : UnlockingPhase)
  deriving DecidableEq

/-- A thread, and how often it holds the lock. -/
structure LockThread where
  phase : LockPhase := .outside
  reads : ℕ := 0
  writes : ℕ := 0

namespace LockThread

variable (t : LockThread)

def moveTo (p : LockPhase) : LockThread :=
  { t with phase := p }

def isWaitingToWrite : Prop :=
  t.phase = .lockWrite .waiting

def writerNotified : LockThread :=
  t.moveTo (.lockWrite .woken)

/-- What `_cv_reader.notify_all` does to a thread. -/
def readerNotified : LockThread :=
  if t.phase = .lockRead .waiting then t.moveTo (.lockRead .woken) else t

end LockThread

variable {ι : Type*}

/-! ## Steps of one thread -/

/-- The loop of `lockRead` and `lockWrite`. -/
inductive LoopStep (me : ι) (Busy : ReadWriteLock ι → Prop) (l : ReadWriteLock ι) :
    LockingPhase → ReadWriteLock ι → LockingPhase → Prop where
  | testTrue (h : Busy l) : LoopStep me Busy l .testing l .blocking
  | testFalse (h : ¬Busy l) : LoopStep me Busy l .testing l .granting
  | wait : LoopStep me Busy l .blocking l.release .waiting
  | wake : LoopStep me Busy l .waiting l .woken
  | relock (h : l.mutex = none) : LoopStep me Busy l .woken (l.acquire me) .testing

/-- What a thread does to the lock and to itself, and whom it notifies. -/
inductive ThreadStep (me : ι) (l : ReadWriteLock ι) (t : LockThread) :
    ReadWriteLock ι → LockThread → Notification → Prop where
  | callLockRead (h : t.phase = .outside) :
      ThreadStep me l t l (t.moveTo (.lockRead .entering)) .nobody
  | enterLockRead (h : t.phase = .lockRead .entering) (hfree : l.mutex = none) :
      ThreadStep me l t (l.acquire me) (t.moveTo (.lockRead .testing)) .nobody
  | lockRead {p p' : LockingPhase} {l' : ReadWriteLock ι} (h : t.phase = .lockRead p)
      (hloop : LoopStep me ReadWriteLock.ReadBusy l p l' p') :
      ThreadStep me l t l' (t.moveTo (.lockRead p')) .nobody
  | grantRead (h : t.phase = .lockRead .granting) :
      ThreadStep me l t l.grantRead
        { t with phase := .lockRead .granted, reads := t.reads + 1 } .nobody
  | returnLockRead (h : t.phase = .lockRead .granted) :
      ThreadStep me l t l.release (t.moveTo .outside) .nobody
  | callLockWrite (h : t.phase = .outside) :
      ThreadStep me l t l (t.moveTo (.lockWrite .entering)) .nobody
  | enterLockWrite (h : t.phase = .lockWrite .entering) (hfree : l.mutex = none) :
      ThreadStep me l t (l.acquire me) (t.moveTo (.lockWrite .arriving)) .nobody
  | arrive (h : t.phase = .lockWrite .arriving) :
      ThreadStep me l t l.arrive (t.moveTo (.lockWrite .testing)) .nobody
  | lockWrite {p p' : LockingPhase} {l' : ReadWriteLock ι} (h : t.phase = .lockWrite p)
      (hloop : LoopStep me ReadWriteLock.WriteBusy l p l' p') :
      ThreadStep me l t l' (t.moveTo (.lockWrite p')) .nobody
  | grantWrite (h : t.phase = .lockWrite .granting) :
      ThreadStep me l t l.grantWrite
        { t with phase := .lockWrite .granted, writes := t.writes + 1 } .nobody
  | returnLockWrite (h : t.phase = .lockWrite .granted) :
      ThreadStep me l t l.release (t.moveTo .outside) .nobody
  | callUnlockRead (h : t.phase = .outside) (hheld : 0 < t.reads) :
      ThreadStep me l t l (t.moveTo (.unlockRead .entering)) .nobody
  | enterUnlockRead (h : t.phase = .unlockRead .entering) (hfree : l.mutex = none) :
      ThreadStep me l t (l.acquire me) (t.moveTo (.unlockRead .holding)) .nobody
  | unlockRead (h : t.phase = .unlockRead .holding) :
      ThreadStep me l t l.unlockRead.1
        { t with phase := .unlockRead .released, reads := t.reads - 1 } l.unlockRead.2
  | returnUnlockRead (h : t.phase = .unlockRead .released) :
      ThreadStep me l t l.release (t.moveTo .outside) .nobody
  | callUnlockWrite (h : t.phase = .outside) (hheld : 0 < t.writes) :
      ThreadStep me l t l (t.moveTo (.unlockWrite .entering)) .nobody
  | enterUnlockWrite (h : t.phase = .unlockWrite .entering) (hfree : l.mutex = none) :
      ThreadStep me l t (l.acquire me) (t.moveTo (.unlockWrite .holding)) .nobody
  | unlockWrite (h : t.phase = .unlockWrite .holding) :
      ThreadStep me l t l.unlockWrite.1
        { t with phase := .unlockWrite .released, writes := t.writes - 1 } l.unlockWrite.2
  | returnUnlockWrite (h : t.phase = .unlockWrite .released) :
      ThreadStep me l t l.release (t.moveTo .outside) .nobody

/-! ## Steps of the system -/

/-- The lock and the threads. -/
structure LockSystem (ι : Type*) where
  lock : ReadWriteLock ι := {}
  threads : ι → LockThread := fun _ => {}

/-- What a notification does to the threads. -/
inductive Notifies [DecidableEq ι] (threads : ι → LockThread) :
    Notification → (ι → LockThread) → Prop where
  | nobody : Notifies threads .nobody threads
  | allReaders : Notifies threads .allReaders fun i => (threads i).readerNotified
  | oneWriter {threads' : ι → LockThread}
      (h : NotifyOne LockThread.isWaitingToWrite LockThread.writerNotified threads threads') :
      Notifies threads .oneWriter threads'

inductive LockSystem.Step [DecidableEq ι] : LockSystem ι → LockSystem ι → Prop where
  | thread {s : LockSystem ι} {i : ι} {l : ReadWriteLock ι} {t : LockThread} {n : Notification}
      {threads : ι → LockThread} (hthread : ThreadStep i s.lock (s.threads i) l t n)
      (hnotify : Notifies s.threads n threads) :
      Step s { lock := l, threads := Function.update threads i t }

/-- The runs of a new lock. -/
def readWriteLocks (ι : Type*) [DecidableEq ι] : TransitionSystem (LockSystem ι) where
  init s := s = {}
  step := LockSystem.Step

end DarwinCore.Thread
