import DarwinCore.Library.TransitionSystem
import Mathlib.Data.Int.Notation
import Mathlib.Logic.Function.Basic

/-! # `Throttle`

The worker and any number of threads that submit. The clock is read before the mutex is taken, and
each is a step of its own, as is the visit of each event in a pass. The callback does not call the
throttle. -/

namespace DarwinCore.Thread

/-- `EventItem`, without its key. -/
structure EventItem where
  intervalSeconds : ℤ
  nextCallTime : ℤ := 0

/-- Who holds `mutex_event_map`. -/
inductive ThrottleThread where
  | worker
  | submitter (i : ℕ)
  deriving DecidableEq

/-- In `run`. -/
inductive PassPhase where
  | sleeping
  /-- Before it takes the mutex. -/
  | timed (currentTime : ℤ)
  /-- With the mutex, and before the events that are left. -/
  | visiting (currentTime : ℤ) (left : List ℤ)
  deriving DecidableEq

/-- In `submit`. -/
inductive ThrottlePhase where
  | outside
  /-- Before it takes the mutex. -/
  | timed (eventId currentTime : ℤ)
  /-- With the mutex. -/
  | holding (eventId currentTime : ℤ)
  /-- With the mutex, at the end. -/
  | finished
  deriving DecidableEq

/-- What has happened. -/
inductive ThrottleEntry where
  /-- A registered event is submitted, and is armed for a time then. -/
  | submitted (eventId armed : ℤ)
  | began (currentTime : ℤ)
  /-- A pass comes to an event, and may call the callback. -/
  | visited (eventId currentTime : ℤ) (fired : Bool)
  | ended (currentTime : ℤ)
  deriving DecidableEq

/-- The members, the clock, and what has happened, the newest first. -/
structure Throttle where
  eventMap : ℤ → Option EventItem
  hasCall : Bool
  mutex : Option ThrottleThread := none
  worker : PassPhase := .sleeping
  submitters : ℕ → ThrottlePhase := fun _ => .outside
  clock : ℤ
  log : List ThrottleEntry := []

namespace Throttle

variable (s : Throttle)

def setSubmitter (i : ℕ) (p : ThrottlePhase) : Throttle :=
  { s with submitters := Function.update s.submitters i p }

def setTime (eventId : ℤ) (item : EventItem) (nextCallTime : ℤ) : Throttle :=
  { s with eventMap := Function.update s.eventMap eventId (some { item with nextCallTime }) }

def record (e : ThrottleEntry) : Throttle :=
  { s with log := e :: s.log }

/-- `submit` with the mutex. -/
def arm (eventId currentTime : ℤ) : Throttle :=
  match s.eventMap eventId with
  | none => s
  | some item =>
      if item.nextCallTime = 0 then
        (s.setTime eventId item (currentTime + item.intervalSeconds)).record
          (.submitted eventId (currentTime + item.intervalSeconds))
      else s.record (.submitted eventId item.nextCallTime)

/-- The body of the loop over the events. -/
def visit (eventId currentTime : ℤ) : Throttle :=
  match s.eventMap eventId with
  | none => s
  | some item =>
      if s.hasCall ∧ 0 < item.nextCallTime ∧ item.nextCallTime ≤ currentTime then
        (s.setTime eventId item 0).record (.visited eventId currentTime true)
      else s.record (.visited eventId currentTime false)

/-- The steps, where `ids` are the keys of the map in their order. -/
inductive Step (ids : List ℤ) (s : Throttle) : Throttle → Prop where
  | tick {now} (hnow : s.clock ≤ now) : Step ids s { s with clock := now }
  /-- `submit` reads the clock. -/
  | submit {i eventId} (hi : s.submitters i = .outside) :
      Step ids s (s.setSubmitter i (.timed eventId s.clock))
  | submitLock {i eventId currentTime} (hi : s.submitters i = .timed eventId currentTime)
      (hmutex : s.mutex = none) :
      Step ids s { s.setSubmitter i (.holding eventId currentTime) with
        mutex := some (.submitter i) }
  | submitArm {i eventId currentTime} (hi : s.submitters i = .holding eventId currentTime) :
      Step ids s ((s.arm eventId currentTime).setSubmitter i .finished)
  | submitUnlock {i} (hi : s.submitters i = .finished) :
      Step ids s { s.setSubmitter i .outside with mutex := none }
  /-- A pass reads the clock. -/
  | wake (hworker : s.worker = .sleeping) : Step ids s { s with worker := .timed s.clock }
  | passLock {currentTime} (hworker : s.worker = .timed currentTime) (hmutex : s.mutex = none) :
      Step ids s { s.record (.began currentTime) with
        worker := .visiting currentTime ids, mutex := some .worker }
  | passVisit {currentTime eventId left}
      (hworker : s.worker = .visiting currentTime (eventId :: left)) :
      Step ids s { s.visit eventId currentTime with worker := .visiting currentTime left }
  | passUnlock {currentTime} (hworker : s.worker = .visiting currentTime []) :
      Step ids s { s.record (.ended currentTime) with worker := .sleeping, mutex := none }

/-- Events are registered with their intervals, and a callback, before anything is submitted. -/
def throttles (ids : List ℤ) (interval : ℤ → ℤ) : TransitionSystem Throttle where
  init s := ∃ clock, 0 < clock ∧ s =
    { eventMap := fun id => if id ∈ ids then some ⟨interval id, 0⟩ else none, hasCall := true,
      clock }
  step := Step ids

end Throttle

end DarwinCore.Thread
