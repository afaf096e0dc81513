import DarwinCore.Library.Consumers
import DarwinCore.Model.Logger.AsyncLogger
import Mathlib.Data.Multiset.AddSub

/-! # What happens to the entries of the logger

The steps of the logger with the events that they are, and a record of these events. -/

namespace DarwinCore.Log

variable {α : Type*}

/-! ## Events -/

inductive LogEvent (α : Type*) where
  /-- `log` is called. -/
  | called (entry : α)
  | queued (entry : α)
  | dropped (entry : α)
  /-- The sink is given an entry by `log` itself. -/
  | direct (entry : α)
  /-- A thread calls `flush`. -/
  | flushing (i : ℕ)
  | took (me : LoggerThread) (entries : List α)
  /-- The sink is given an entry that has been queued. -/
  | passed (me : LoggerThread) (entry : α)
  /-- A `flush` has found the queue empty. -/
  | ended (me : LoggerThread)
  /-- `stop` returns to its caller. -/
  | stopped
  | other

def LogPhase.event : LogPhase α → Option (LogPhase α) → LogEvent α
  | holding entry, some .pushed => .queued entry
  | testing entry, some .pushed => .queued entry
  | holding entry, some .dropped => .dropped entry
  | direct entry, none => .direct entry
  | _, _ => .other

def FlushPhase.event (me : LoggerThread) : FlushPhase α → Option (FlushPhase α) → LogEvent α
  | holding, some (.popped entry) => .took me [entry]
  | writing entry, some .entering => .passed me entry
  | holding, some .flushed => .ended me
  | _, _ => .other

def WorkerPhase.event : WorkerPhase α → WorkerPhase α → LogEvent α
  | taking, taken batch _ => .took .worker batch
  | writing (entry :: _), writing _ => .passed .worker entry
  | _, _ => .other

namespace LoggerSystem

/-- The steps of the logger, each with its event. -/
inductive Does : LoggerSystem α → LogEvent α → LoggerSystem α → Prop where
  | callLog {s : LoggerSystem α} {i : ℕ} (entry : α) (h : s.callers i = .idle) :
      Does s (.called entry) (s.setCaller i (.logging (.starting entry)))
  | callFlush {s : LoggerSystem α} {i : ℕ} (h : s.callers i = .idle) :
      Does s (.flushing i) (s.setCaller i (.flushing .entering))
  | log {s : LoggerSystem α} {i : ℕ} {p : LogPhase α} {l : AsyncLogger α}
      {p' : Option (LogPhase α)} (h : s.callers i = .logging p)
      (hstep : LogStep (.caller i) s.logger p l p') :
      Does s (p.event p') ((s.setLogger l).setCaller i (.ofLog p'))
  | logNotify {s : LoggerSystem α} {i : ℕ} (h : s.callers i = .logging .notifying) :
      Does s .other { s.setCaller i .idle with worker := s.worker.notified }
  | flush {s : LoggerSystem α} {i : ℕ} {p : FlushPhase α} {l : AsyncLogger α}
      {p' : Option (FlushPhase α)} (h : s.callers i = .flushing p)
      (hstep : FlushStep (.caller i) s.logger p l p') :
      Does s (p.event (.caller i) p') ((s.setLogger l).setCaller i (.ofFlush p'))
  | stop {s : LoggerSystem α} (h : s.stopper = .starting) :
      Does s .other { s with stopper := if s.logger.running then .storing else .returned }
  | stopStore {s : LoggerSystem α} (h : s.stopper = .storing) :
      Does s .other { s with logger := { s.logger with running := false }, stopper := .notifying }
  | stopNotify {s : LoggerSystem α} (h : s.stopper = .notifying) :
      Does s .other { s with worker := s.worker.notified, stopper := .joining }
  | stopJoin {s : LoggerSystem α} (h : s.stopper = .joining) (hworker : s.worker = .exited) :
      Does s .other { s with stopper := .flushing .entering }
  | stopFlush {s : LoggerSystem α} {p : FlushPhase α} {l : AsyncLogger α}
      {p' : Option (FlushPhase α)} (h : s.stopper = .flushing p)
      (hstep : FlushStep .stopper s.logger p l p') :
      Does s (p.event .stopper p') { s.setLogger l with stopper := .ofFlush p' }
  | work {s : LoggerSystem α} {l : AsyncLogger α} {p : WorkerPhase α}
      (hstep : WorkerStep s.logger s.worker l p) :
      Does s (s.worker.event p) { s.setLogger l with worker := p }
  | workNotify {s : LoggerSystem α} {batch : List α} (h : s.worker = .notifying batch) :
      Does s .other { s with
        worker := .writing batch
        callers := fun i => (s.callers i).notified }

theorem Does.step {s t : LoggerSystem α} {e : LogEvent α} (h : Does s e t) : Step s t := by
  cases h with
  | callLog entry h => exact .callLog entry h
  | callFlush h => exact .callFlush h
  | log h hstep => exact .log h hstep
  | logNotify h => exact .logNotify h
  | flush h hstep => exact .flush h hstep
  | stop h => exact .stop h
  | stopStore h => exact .stopStore h
  | stopNotify h => exact .stopNotify h
  | stopJoin h hworker => exact .stopJoin h hworker
  | stopFlush h hstep => exact .stopFlush h hstep
  | work hstep => exact .work hstep
  | workNotify h => exact .workNotify h

theorem Step.does {s t : LoggerSystem α} (h : Step s t) : ∃ e, Does s e t := by
  cases h with
  | callLog entry h => exact ⟨_, .callLog entry h⟩
  | callFlush h => exact ⟨_, .callFlush h⟩
  | log h hstep => exact ⟨_, .log h hstep⟩
  | logNotify h => exact ⟨_, .logNotify h⟩
  | flush h hstep => exact ⟨_, .flush h hstep⟩
  | stop h => exact ⟨_, .stop h⟩
  | stopStore h => exact ⟨_, .stopStore h⟩
  | stopNotify h => exact ⟨_, .stopNotify h⟩
  | stopJoin h hworker => exact ⟨_, .stopJoin h hworker⟩
  | stopFlush h hstep => exact ⟨_, .stopFlush h hstep⟩
  | work hstep => exact ⟨_, .work hstep⟩
  | workNotify h => exact ⟨_, .workNotify h⟩

end LoggerSystem

/-! ## The record -/

structure LogRecord (α : Type*) where
  /-- The entries with which `log` has been called. -/
  called : Multiset α := 0
  dropped : Multiset α := 0
  entries : Consumers LoggerThread α := {}
  /-- What the sink has been given, and whether it had been queued. -/
  sink : List (α × Bool) := []
  /-- How many entries had been queued when a thread called `flush`. -/
  before : ℕ → ℕ := fun _ => 0
  stopped : Bool := false
  last : LogEvent α := .other

namespace LogRecord

variable (r : LogRecord α)

def update : LogEvent α → LogRecord α
  | .called entry => { r with called := entry ::ₘ r.called }
  | .queued entry => { r with entries := r.entries.push entry }
  | .dropped entry => { r with dropped := entry ::ₘ r.dropped }
  | .direct entry => { r with sink := r.sink ++ [(entry, false)] }
  | .flushing i => { r with before := Function.update r.before i r.entries.queued.length }
  | .took me entries => { r with entries := r.entries.take me entries }
  | .passed me entry => { r with
      entries := r.entries.pass me entry
      sink := r.sink ++ [(entry, true)] }
  | .stopped => { r with stopped := true }
  | .ended _ => r
  | .other => r

def next (e : LogEvent α) : LogRecord α :=
  { r.update e with last := e }

end LogRecord

structure RecordedLogger (α : Type*) where
  system : LoggerSystem α
  record : LogRecord α := {}

namespace RecordedLogger

inductive Step : RecordedLogger α → RecordedLogger α → Prop where
  | does {x : RecordedLogger α} {t : LoggerSystem α} {e : LogEvent α} (h : x.system.Does e t) :
      Step x { system := t, record := x.record.next e }
  /-- `stop` has left its mutex and returns. -/
  | stopReturns {x : RecordedLogger α} (h : x.system.stopper = .returned)
      (hstopped : x.record.stopped = false) :
      Step x { x with record := x.record.next .stopped }

end RecordedLogger

def recordedLoggers (α : Type*) (maxQueueSize : UInt64) (blockWhenFull : Bool) :
    TransitionSystem (RecordedLogger α) where
  init x := x = { system := { logger := { maxQueueSize, blockWhenFull } } }
  step := RecordedLogger.Step

section Runs

variable {maxQueueSize : UInt64} {blockWhenFull : Bool}

theorem exists_record {states : List (LoggerSystem α)}
    (h : (loggers α maxQueueSize blockWhenFull).Run states) :
    ∃ recorded, (recordedLoggers α maxQueueSize blockWhenFull).Run recorded ∧
      recorded.map RecordedLogger.system = states := by
  induction h with
  | start hinit =>
    obtain rfl := hinit
    exact ⟨_, .start rfl, rfl⟩
  | next hrun hstep ih =>
    obtain ⟨recorded, hrecorded, hmap⟩ := ih
    obtain ⟨x, rest, rfl, rfl, rfl⟩ := List.map_eq_cons_iff.mp hmap
    obtain ⟨e, hdoes⟩ := LoggerSystem.Step.does hstep
    exact ⟨_, hrecorded.next (.does hdoes), rfl⟩

theorem reachable_of_record {recorded : List (RecordedLogger α)}
    (h : (recordedLoggers α maxQueueSize blockWhenFull).Run recorded) :
    ∀ x ∈ recorded, ∃ states, (loggers α maxQueueSize blockWhenFull).Run states ∧
      x.system ∈ states.head? := by
  refine h.invariant (fun x hinit => ?_) fun x y hx hstep => ?_
  · obtain rfl : x = _ := hinit
    exact ⟨_, .start rfl, rfl⟩
  · obtain ⟨states, hstates, hhead⟩ := hx
    cases hstep with
    | does hdoes =>
      cases hstates with
      | start hinit =>
        obtain rfl : _ = x.system := Option.some.inj hhead
        exact ⟨_, (TransitionSystem.Run.start hinit).next hdoes.step, rfl⟩
      | next hrun hlast =>
        obtain rfl : _ = x.system := Option.some.inj hhead
        exact ⟨_, (hrun.next hlast).next hdoes.step, rfl⟩
    | stopReturns hstopped => exact ⟨states, hstates, hhead⟩

end Runs

end DarwinCore.Log
