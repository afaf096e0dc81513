import DarwinCore.Library.CInt
import DarwinCore.Library.TransitionSystem
import Mathlib.Logic.Function.Basic

/-! # `Timer` and `TimerManager`

The timing thread, any number of threads that start and stop timers, and the tasks that `doTask`
submits. The tasks run at any time and in any order. Each operation on the mutex is a step of its
own, and so is each access of a task to its timer. The ids are values of an `int` that wraps: the
number of the call of `start` tells a timer from another one with its id. -/

namespace DarwinCore.Timers

/-- `Timer`. A callback may be empty. -/
structure Timer (κ : Type*) where
  callback : Option κ
  interval : ℤ
  running : Bool
  repeats : Bool
  id : ℤ
  remainTime : ℤ
  /-- Which call of `TimerManager::start` has made it. -/
  number : ℕ

variable {κ : Type*}

namespace Timer

def start (t : Timer κ) : Timer κ :=
  if t.running then t else { t with running := true }

def stop (t : Timer κ) : Timer κ :=
  if t.running then { t with callback := none } else t

/-- The constructor, unless the multiplication overflows. -/
def new (number : ℕ) (id interval : ℤ) (repeats : Bool) (callback : Option κ) : Option (Timer κ) :=
  (CInt.of interval * 1000).value.map fun remainTime =>
    start { id, interval, repeats, callback, running := false, remainTime, number }

/-- What the tick does to a timer that runs, and whether it submits a task. -/
def tick (t : Timer κ) : Timer κ × Bool :=
  if t.remainTime = 0 then ({ t with remainTime := -1 }, t.callback.isSome)
  else if 0 < t.remainTime then ({ t with remainTime := t.remainTime - 1 }, false)
  else (t, false)

/-- What a task does at last to a timer that repeats, unless the multiplication overflows. -/
def rearm (t : Timer κ) : Option (Timer κ) :=
  (CInt.of t.interval * 1000).value.map fun remainTime => { t with remainTime }

end Timer

/-! ## Where the threads are -/

inductive TimerThread where
  | timing
  | caller (i : ℕ)
  deriving DecidableEq

/-- Where a task is that `doTask` has submitted. -/
inductive TaskPhase where
  | submitted
  /-- In the callback. -/
  | calling
  /-- At the test of `_repeat`. -/
  | called
  /-- At `stop`. -/
  | stopping
  /-- At the store to `_remainTime`. -/
  | rearming
  /-- Finished, or ended by an exception; it may have called the callback. -/
  | ended (hasCalled : Bool)
  deriving DecidableEq

/-- The next step of the task accesses the timer. -/
def TaskPhase.accesses : TaskPhase → Prop
  | submitted | called | stopping | rearming => True
  | calling | ended _ => False

/-- A task and the timer it refers to. -/
structure TimerTask where
  id : ℤ
  number : ℕ
  phase : TaskPhase := .submitted
  deriving DecidableEq

/-- In `run`. -/
inductive TimingPhase where
  | sleeping
  /-- With the mutex, and past the timers with ids below. -/
  | visiting (next : ℤ)
  deriving DecidableEq

/-- A thread that starts and stops timers. -/
inductive TimerCaller (κ : Type*) where
  | idle
  /-- In `start`, before it calls the constructor. -/
  | constructing (number : ℕ) (id interval : ℤ) (repeats : Bool) (callback : Option κ)
  /-- In `start`, before it takes the mutex. -/
  | starting (t : Timer κ)
  /-- In `start`, with the mutex. -/
  | inserting (t : Timer κ)
  /-- In `start`, with the mutex, after the insertion. -/
  | inserted
  /-- In `stop`, before it takes the mutex. -/
  | stopping (id : ℤ)
  /-- In `clean`, before it looks for the timer. -/
  | cleaning (id : ℤ)
  /-- In `clean`, after the call of `Timer::stop`. -/
  | erasing (id : ℤ)
  /-- In `stop`, with the mutex, after `clean`. -/
  | stopped (id : ℤ)

/-- The members, and what has happened to the timers. -/
structure TimerManager (κ : Type*) where
  currentId : ℤ := 0
  timerMap : ℤ → Option (Timer κ) := fun _ => none
  /-- The thread that holds `_timerMapMutex`. -/
  mutex : Option TimerThread := none
  timing : TimingPhase := .sleeping
  callers : ℕ → TimerCaller κ := fun _ => .idle
  tasks : List TimerTask := []
  /-- How many calls of `start` there have been. -/
  calls : ℕ := 0
  /-- The timers that have been put into the map, by their numbers. -/
  started : ℕ → Option (Timer κ) := fun _ => none
  /-- The numbers of those timers for which a call of `stop` has returned. -/
  isStopped : ℕ → Bool := fun _ => false
  /-- A task has accessed a timer that is not in the map any more, or an `int` has overflowed. -/
  faulted : Bool := false

namespace TimerManager

variable (s : TimerManager κ)

/-- `++currentId`. -/
def nextId : ℤ :=
  (s.currentId + 1).bmod 4294967296

/-- The timer that a task refers to, if it is in the map. -/
def timer (task : TimerTask) : Option (Timer κ) :=
  (s.timerMap task.id).filter fun t => t.number = task.number

def setCaller (i : ℕ) (p : TimerCaller κ) : TimerManager κ :=
  { s with callers := Function.update s.callers i p }

def setTimer (id : ℤ) (t : Option (Timer κ)) : TimerManager κ :=
  { s with timerMap := Function.update s.timerMap id t }

def setTask (k : ℕ) (task : TimerTask) : TimerManager κ :=
  { s with tasks := s.tasks.set k task }

def lock (me : TimerThread) : TimerManager κ :=
  { s with mutex := some me }

def unlock : TimerManager κ :=
  { s with mutex := none }

def insert (t : Timer κ) : TimerManager κ :=
  { s.setTimer t.id (some t) with started := Function.update s.started t.number (some t) }

def submit (id : ℤ) (number : ℕ) : TimerManager κ :=
  { s with tasks := s.tasks ++ [{ id, number }] }

/-- A call of `stop` returns. -/
def markStopped (id : ℤ) : TimerManager κ :=
  { s with isStopped := fun n => s.isStopped n || (s.started n).any fun t => t.id = id }

/-- Undefined behaviour. -/
def fault : TimerManager κ :=
  { s with faulted := true }

/-- `start` and `stop`. -/
inductive CallStep : TimerManager κ → TimerManager κ → Prop where
  | start {s : TimerManager κ} {i : ℕ} (interval : ℤ) (repeats : Bool) (callback : Option κ)
      (h : s.callers i = .idle) (hinterval : InIntRange interval) :
      CallStep s ({ s with currentId := s.nextId, calls := s.calls + 1 }.setCaller i
        (.constructing (s.calls + 1) s.nextId interval repeats callback))
  | construct {s : TimerManager κ} {i number : ℕ} {id interval : ℤ} {repeats : Bool}
      {callback : Option κ} {t : Timer κ}
      (h : s.callers i = .constructing number id interval repeats callback)
      (hnew : Timer.new number id interval repeats callback = some t) :
      CallStep s (s.setCaller i (.starting t))
  | overflow {s : TimerManager κ} {i number : ℕ} {id interval : ℤ} {repeats : Bool}
      {callback : Option κ} (h : s.callers i = .constructing number id interval repeats callback)
      (hnew : Timer.new number id interval repeats callback = none) :
      CallStep s (s.fault.setCaller i .idle)
  | startLock {s : TimerManager κ} {i : ℕ} {t : Timer κ} (h : s.callers i = .starting t)
      (hfree : s.mutex = none) : CallStep s ((s.lock (.caller i)).setCaller i (.inserting t))
  | startInsert {s : TimerManager κ} {i : ℕ} {t : Timer κ} (h : s.callers i = .inserting t)
      (hnone : s.timerMap t.id = none) : CallStep s ((s.insert t).setCaller i .inserted)
  /-- `insert` leaves a timer that is there with this id. -/
  | startPresent {s : TimerManager κ} {i : ℕ} {t : Timer κ} (h : s.callers i = .inserting t)
      (hsome : s.timerMap t.id ≠ none) : CallStep s (s.setCaller i .inserted)
  | startUnlock {s : TimerManager κ} {i : ℕ} (h : s.callers i = .inserted) :
      CallStep s (s.unlock.setCaller i .idle)
  | stop {s : TimerManager κ} {i : ℕ} (id : ℤ) (h : s.callers i = .idle) :
      CallStep s (s.setCaller i (.stopping id))
  | stopLock {s : TimerManager κ} {i : ℕ} {id : ℤ} (h : s.callers i = .stopping id)
      (hfree : s.mutex = none) : CallStep s ((s.lock (.caller i)).setCaller i (.cleaning id))
  | cleanNothing {s : TimerManager κ} {i : ℕ} {id : ℤ} (h : s.callers i = .cleaning id)
      (hnone : s.timerMap id = none) : CallStep s (s.setCaller i (.stopped id))
  | cleanStop {s : TimerManager κ} {i : ℕ} {id : ℤ} {t : Timer κ} (h : s.callers i = .cleaning id)
      (htimer : s.timerMap id = some t) :
      CallStep s ((s.setTimer id (some t.stop)).setCaller i (.erasing id))
  | cleanErase {s : TimerManager κ} {i : ℕ} {id : ℤ} (h : s.callers i = .erasing id) :
      CallStep s ((s.setTimer id none).setCaller i (.stopped id))
  | stopUnlock {s : TimerManager κ} {i : ℕ} {id : ℤ} (h : s.callers i = .stopped id) :
      CallStep s ((s.unlock.markStopped id).setCaller i .idle)

/-- The loop of `run`, from the least `int` on. -/
inductive TimingStep : TimerManager κ → TimerManager κ → Prop where
  | lock {s : TimerManager κ} (h : s.timing = .sleeping) (hfree : s.mutex = none) :
      TimingStep s { s.lock .timing with timing := .visiting (-2147483648) }
  | erase {s : TimerManager κ} {next id : ℤ} {t : Timer κ} (h : s.timing = .visiting next)
      (hid : next ≤ id) (hfirst : ∀ j, next ≤ j → j < id → s.timerMap j = none)
      (htimer : s.timerMap id = some t) (hrunning : t.running = false) :
      TimingStep s { s.setTimer id none with timing := .visiting (id + 1) }
  | pass {s : TimerManager κ} {next id : ℤ} {t : Timer κ} (h : s.timing = .visiting next)
      (hid : next ≤ id) (hfirst : ∀ j, next ≤ j → j < id → s.timerMap j = none)
      (htimer : s.timerMap id = some t) (hrunning : t.running = true) (htick : t.tick.2 = false) :
      TimingStep s { s.setTimer id (some t.tick.1) with timing := .visiting (id + 1) }
  | submit {s : TimerManager κ} {next id : ℤ} {t : Timer κ} (h : s.timing = .visiting next)
      (hid : next ≤ id) (hfirst : ∀ j, next ≤ j → j < id → s.timerMap j = none)
      (htimer : s.timerMap id = some t) (hrunning : t.running = true) (htick : t.tick.2 = true) :
      TimingStep s { (s.setTimer id (some t.tick.1)).submit id t.number with
        timing := .visiting (id + 1) }
  | unlock {s : TimerManager κ} {next : ℤ} (h : s.timing = .visiting next)
      (hlast : ∀ j, next ≤ j → s.timerMap j = none) :
      TimingStep s { s.unlock with timing := .sleeping }

/-- A task whose timer is in the map. A callback may throw. -/
inductive TaskStep (t : Timer κ) : TaskPhase → Timer κ → TaskPhase → Prop where
  | call {callback : κ} (h : t.callback = some callback) : TaskStep t .submitted t .calling
  | empty (h : t.callback = none) : TaskStep t .submitted t (.ended false)
  | once (h : t.repeats = false) : TaskStep t .called t .stopping
  | again (h : t.repeats = true) : TaskStep t .called t .rearming
  | stop : TaskStep t .stopping t.stop (.ended true)
  | rearm {t' : Timer κ} (h : t.rearm = some t') : TaskStep t .rearming t' (.ended true)

inductive Step : TimerManager κ → TimerManager κ → Prop where
  | call {s s' : TimerManager κ} (h : CallStep s s') : Step s s'
  | timing {s s' : TimerManager κ} (h : TimingStep s s') : Step s s'
  | task {s : TimerManager κ} {k : ℕ} {task : TimerTask} {t t' : Timer κ} {p' : TaskPhase}
      (h : s.tasks[k]? = some task) (htimer : s.timer task = some t)
      (hstep : TaskStep t task.phase t' p') :
      Step s ((s.setTimer task.id (some t')).setTask k { task with phase := p' })
  /-- The callback returns. -/
  | called {s : TimerManager κ} {k : ℕ} {task : TimerTask} (h : s.tasks[k]? = some task)
      (hphase : task.phase = .calling) : Step s (s.setTask k { task with phase := .called })
  /-- The callback throws, and the task keeps the exception. -/
  | thrown {s : TimerManager κ} {k : ℕ} {task : TimerTask} (h : s.tasks[k]? = some task)
      (hphase : task.phase = .calling) : Step s (s.setTask k { task with phase := .ended true })
  /-- The task uses a timer that is not there any more: anything may come of it. -/
  | fault {s : TimerManager κ} {k : ℕ} {task : TimerTask} (p' : TaskPhase)
      (h : s.tasks[k]? = some task) (hp : task.phase.accesses) (hgone : s.timer task = none) :
      Step s (s.fault.setTask k { task with phase := p' })
  | overflow {s : TimerManager κ} {k : ℕ} {task : TimerTask} {t : Timer κ} (p' : TaskPhase)
      (h : s.tasks[k]? = some task) (htimer : s.timer task = some t)
      (hphase : task.phase = .rearming) (hrearm : t.rearm = none) :
      Step s (s.fault.setTask k { task with phase := p' })

end TimerManager

/-- The runs of a new manager. -/
def timerManagers (κ : Type*) : TransitionSystem (TimerManager κ) where
  init s := s = {}
  step := TimerManager.Step

end DarwinCore.Timers
