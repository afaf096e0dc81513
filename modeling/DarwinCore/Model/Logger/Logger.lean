import DarwinCore.Model.Thread.AsyncQueue
import DarwinCore.Model.File.FileManager

/-! # `Logger`

A logger once it has been constructed: any number of threads that call `log` and `setLevel`, the
workers of the shared `AsyncQueue`, and the logger's own thread in `run`. -/

namespace DarwinCore.Log

open DarwinCore.Thread Monitor

inductive Level where
  | TRACE | DEBUG | INFO | WARNING | ERROR | FATAL | OFF
  deriving DecidableEq, Repr

def Level.toNat : Level → ℕ
  | TRACE => 0
  | DEBUG => 1
  | INFO => 2
  | WARNING => 3
  | ERROR => 4
  | FATAL => 5
  | OFF => 6

/-- `LogObj`, with the thread that has logged it and how often it had logged before. -/
structure LogObj where
  level : Level
  caller : ℕ
  number : ℕ
  deriving DecidableEq, Repr

inductive LogThread where
  | worker (i : ℕ)
  | logger
  deriving DecidableEq

/-- The members, with what has been written to the file. -/
structure Logger where
  level : Level := .INFO
  logs : List LogObj := []
  /-- The thread that holds `_logMutex`. -/
  logMutex : Option LogThread := none
  written : List LogObj := []

/-- Where a task is that `log` has submitted. -/
inductive BodyPhase where
  | entering
  /-- With the mutex, before the object is queued. -/
  | holding
  /-- With the mutex, at `notify_one`. -/
  | emplaced
  /-- With the mutex, after it. -/
  | notified
  deriving DecidableEq

/-- In `run`. -/
inductive RunPhase where
  | entering
  /-- With the mutex, before the test of the predicate. -/
  | testing
  /-- With the mutex, between the test and the wait. -/
  | blocking
  | waiting
  /-- Woken, and before it takes the mutex again. -/
  | woken
  /-- With the mutex, after the wait. -/
  | taking
  /-- With the mutex and an object. -/
  | taken (obj : LogObj)
  /-- With the mutex, at the end of the loop body. -/
  | done
  deriving DecidableEq

/-- What `notify_one` does to the thread. -/
def RunPhase.notified : RunPhase → RunPhase
  | waiting => woken
  | p => p

/-- The logger, the shared queue and all threads. -/
structure LogSystem where
  logger : Logger := {}
  pool : QueueSystem LogObj
  /-- Where the task is that a worker runs. -/
  bodies : ℕ → BodyPhase := fun _ => .entering
  run : RunPhase := .entering
  /-- How often a thread has logged. -/
  calls : ℕ → ℕ := fun _ => 0
  logged : List LogObj := []
  /-- What `run` has passed over because of its level. -/
  discarded : List LogObj := []

namespace LogSystem

variable (s : LogSystem)

def setBody (i : ℕ) (p : BodyPhase) : LogSystem :=
  { s with bodies := Function.update s.bodies i p }

def lock (me : LogThread) : LogSystem :=
  { s with logger := { s.logger with logMutex := some me } }

def unlock : LogSystem :=
  { s with logger := { s.logger with logMutex := none } }

/-- The object that thread `i` logs next. -/
def nextObj (i : ℕ) (level : Level) : LogObj :=
  { level := level, caller := i, number := s.calls i }

/-- The start of `log`: what is submitted to the queue. -/
def submit (i : ℕ) (obj : LogObj) : LogSystem :=
  { s with
    pool := s.pool.setSubmitter i (some (.entering obj))
    calls := Function.update s.calls i (s.calls i + 1)
    logged := s.logged ++ [obj] }

/-- The steps of the task that worker `i` runs. -/
inductive BodyStep : LogSystem → LogSystem → Prop where
  | lock {s : LogSystem} {i : ℕ} {t : QueuedTask LogObj}
      (h : s.pool.workers i = .executing t none) (hbody : s.bodies i = .entering)
      (hfree : s.logger.logMutex = none) :
      BodyStep s ((s.lock (.worker i)).setBody i .holding)
  | emplace {s : LogSystem} {i : ℕ} {t : QueuedTask LogObj}
      (h : s.pool.workers i = .executing t none) (hbody : s.bodies i = .holding) :
      BodyStep s ({ s with
        logger := { s.logger with logs := s.logger.logs ++ [t.task] } }.setBody i .emplaced)
  | notify {s : LogSystem} {i : ℕ} (hbody : s.bodies i = .emplaced) :
      BodyStep s ({ s with run := s.run.notified }.setBody i .notified)
  | finish {s : LogSystem} {i : ℕ} {t : QueuedTask LogObj}
      (h : s.pool.workers i = .executing t none) (hbody : s.bodies i = .notified) :
      BodyStep s ({ s.unlock with pool := s.pool.setWorker i .entering }.setBody i .entering)

/-- The steps of `run`. -/
inductive RunStep : LogSystem → LogSystem → Prop where
  | lock {s : LogSystem} (h : s.run = .entering) (hfree : s.logger.logMutex = none) :
      RunStep s { s.lock .logger with run := .testing }
  | testTrue {s : LogSystem} (h : s.run = .testing) (hlogs : s.logger.logs ≠ []) :
      RunStep s { s with run := .taking }
  | testFalse {s : LogSystem} (h : s.run = .testing) (hlogs : s.logger.logs = []) :
      RunStep s { s with run := .blocking }
  | wait {s : LogSystem} (h : s.run = .blocking) : RunStep s { s.unlock with run := .waiting }
  | wake {s : LogSystem} (h : s.run = .waiting) : RunStep s { s with run := .woken }
  | relock {s : LogSystem} (h : s.run = .woken) (hfree : s.logger.logMutex = none) :
      RunStep s { s.lock .logger with run := .testing }
  | pop {s : LogSystem} {obj : LogObj} {rest : List LogObj} (h : s.run = .taking)
      (hlogs : s.logger.logs = obj :: rest) :
      RunStep s { s with logger := { s.logger with logs := rest }, run := .taken obj }
  /-- `console`, `syslog` and `write`. -/
  | write {s : LogSystem} {obj : LogObj} (h : s.run = .taken obj)
      (hlevel : s.logger.level.toNat ≤ obj.level.toNat) :
      RunStep s { s with
        logger := { s.logger with written := s.logger.written ++ [obj] }, run := .done }
  | discard {s : LogSystem} {obj : LogObj} (h : s.run = .taken obj)
      (hlevel : obj.level.toNat < s.logger.level.toNat) :
      RunStep s { s with discarded := s.discarded ++ [obj], run := .done }
  | unlock {s : LogSystem} (h : s.run = .done) : RunStep s { s.unlock with run := .entering }

inductive Step : LogSystem → LogSystem → Prop where
  /-- With a level below that of the logger, `log` returns at once. -/
  | log {s : LogSystem} {i : ℕ} (level : Level) (h : s.pool.submitters i = none)
      (hlevel : s.logger.level.toNat ≤ level.toNat) : Step s (s.submit i (s.nextObj i level))
  | setLevel {s : LogSystem} (level : Level) :
      Step s { s with logger := { s.logger with level := level } }
  | serve {s : LogSystem} {pool : QueueSystem LogObj} (h : s.pool.ServeStep pool) :
      Step s { s with pool := pool }
  | body {s t : LogSystem} (h : BodyStep s t) : Step s t
  | run {s t : LogSystem} (h : RunStep s t) : Step s t

end LogSystem

/-- The runs of a logger with a shared queue of so many workers. -/
def queueLoggers (queueSize : ℕ) : TransitionSystem LogSystem where
  init s := s = { pool := { queue := { queueSize := queueSize } } }
  step := LogSystem.Step

/-! ## `Logger::openLogFile`

What the tree holds of a file is the file itself: a file that is opened for the first time is
`created`, of no bytes, and none of those that are there. -/

open FileTree DarwinCore.File

/-- The members of `Logger` that are read here. -/
structure LogFileConfig where
  logFile : List Char
  maxFileSize : ℕ
  rollbackCount : ℕ

namespace LogFileConfig

variable {α : Type*} (limit : ℕ) (cwd : Location) (fuel : ℕ) (config : LogFileConfig)

/-- `from` and `to` in `openLogFile`: the paths of the log file and of what it has been before. -/
def generationPath (i : ℕ) : List Char :=
  let fp := FilePath.ofString config.logFile
  let parentDir := fp.parent
  let name := fp.name
  let ext := fp.extensionName
  if i = 0 then parentDir.append (name ++ ['.'] ++ ext)
  else parentDir.append (name ++ ['.'] ++ Nat.toDigits 10 i ++ ['.'] ++ ext)

/-- The loop from `i - 1` down to 0; `fds` descriptors are left for directories. -/
def rollbackFrom : ℕ → ℕ → Volume α → Option (Volume α)
  | 0, _, t => some t
  | i + 1, fds, t => do
      let (t, fds) ←
        if (isItemExistsAtPath limit cwd t (config.generationPath i)).isSome then do
          let (t, fds, _) ← moveItem limit cwd fuel fds t (config.generationPath i)
            (config.generationPath (i + 1)) true
          some (t, fds)
        else some (t, fds)
      rollbackFrom i fds t

/-- `size` of a `FileHandle` that is not open. -/
def fileSize (size : α → ℕ) (t : Volume α) (path : List Char) : ℕ :=
  match t.openFile limit cwd path with
  | none => 0
  | some (_, content) => size content

/-- `openLogFile`: the tree, and where the file is and how long it is if it could be opened. -/
def openLogFile (size : α → ℕ) (created : α) (fds : ℕ) (t : Volume α) (force : Bool) :
    Option (Volume α × Option (Location × ℕ)) := do
  let filePath := config.logFile
  let rollback :=
    if ¬force ∧ (isItemExistsAtPath limit cwd t filePath).isSome then
      decide (config.maxFileSize ≤ fileSize limit cwd size t filePath)
    else force
  let t ←
    if rollback then rollbackFrom limit cwd fuel config config.rollbackCount fds t else some t
  let (t, fileHandle) := t.openAppend limit cwd filePath created
  some (t, fileHandle.map fun (l, content) => (l, size content))

end LogFileConfig

end DarwinCore.Log
