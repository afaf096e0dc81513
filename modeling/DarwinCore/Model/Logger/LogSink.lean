import DarwinCore.Model.File.FileManager
import Mathlib.Data.Int.Notation

/-! # Sinks of the logger -/

/-! ## Log entries

`LogFormatter` is an interface: the sinks take its `format` as a parameter. -/

namespace DarwinCore.Log

inductive LogLevel where
  | trace
  | debug
  | info
  | warning
  | error
  | fatal
deriving DecidableEq, Repr

/-- The cast of a level to `int`. -/
def LogLevel.toInt : LogLevel → ℤ
  | trace => 0
  | debug => 1
  | info => 2
  | warning => 3
  | error => 4
  | fatal => 5

/-- `LogEntry`; the timestamp is in ticks of the system clock. -/
structure LogEntry where
  level : LogLevel := .info
  message : List UInt8 := []
  file : List UInt8 := []
  line : ℤ := 0
  function : List UInt8 := []
  timestamp : ℤ := 0
  threadId : ℤ := 0

/-! ## Log files

What the file system keeps of a log file, cut where the sink's writes put it, and the system's
part in writing, compressing and timing it. -/

open FileStore

/-- One write: the bytes and when they were written, in ticks of the system clock. -/
structure Line where
  bytes : List UInt8
  time : ℤ

/-- A file that the sink has found or created; `compressed` tells that the bytes are `gzip`'s
for this content. -/
structure LogFile where
  prior : List UInt8 := []
  lines : List Line := []
  mtime : ℤ
  compressed : Bool := false

abbrev Files := Store LogFile

def LogFile.content (f : LogFile) : List UInt8 :=
  f.prior ++ f.lines.flatMap Line.bytes

/-- `st_size` of a file that is not compressed. -/
def LogFile.size (f : LogFile) : ℕ :=
  f.content.length

/-- The content before the last write. -/
def LogFile.beforeLast (f : LogFile) : LogFile :=
  { f with lines := f.lines.dropLast }

/-- A tick of `system_clock` is a microsecond. -/
def ticksPerSecond : ℤ := 1000000

/-- `st_mtime` of a file written at a time. -/
def toTimeT (now : ℤ) : ℤ := now / ticksPerSecond

/-- `from_time_t`. -/
def fromTimeT (seconds : ℤ) : ℤ := seconds * ticksPerSecond

/-- The largest `off_t`, beyond which no file grows. -/
def maxOffset : ℕ := 0x7FFFFFFFFFFFFFFF

/-- Opening a stream to append to a file, which creates it if it is missing. -/
def openAppend (files : Files) (path : Path) (now : ℤ) : Option Files :=
  if path.isEmpty then none
  else if (files path).isSome then some files
  else some (files.put path { mtime := toTimeT now })

/-- Writing to the end of a file. -/
def append (files : Files) (path : Path) (bytes : List UInt8) (now : ℤ) : Option Files := do
  let file ← files path
  if maxOffset < file.size + bytes.length then none
  else some (files.put path
    { file with lines := file.lines ++ [⟨bytes, now⟩], mtime := toTimeT now })

/-- `gzip -f`. -/
def gzip (files : Files) (path : Path) : Files :=
  match files path with
  | none => files
  | some file => (files.remove path).put (path ++ ['.', 'g', 'z']) { file with compressed := true }

/-! ## `LogRotate` -/

open File.Regular

inductive RotatePolicy where
  | size
  | daily
  | hourly
  | never
deriving DecidableEq, Repr

structure RotateConfig where
  policy : RotatePolicy := .size
  maxFileSize : UInt64 := 10 * 1024 * 1024
  maxFiles : ℤ := 5
  compress : Bool := false

structure LogRotate where
  logPath : Path
  config : RotateConfig
  currentSize : UInt64
  lastRotateTime : ℤ

/-- The constructor. -/
def LogRotate.create (logPath : Path) (config : RotateConfig) (now : ℤ) (files : Files) :
    LogRotate where
  logPath := logPath
  config := config
  currentSize := match files logPath with
    | some file => UInt64.ofNat file.size
    | none => 0
  lastRotateTime := now

/-- The path with a number, as `std::to_string` writes it. -/
def rotatedPath (logPath : Path) (index : ℕ) : Path :=
  logPath ++ '.' :: Nat.toDigits 10 index

namespace LogRotate

variable (r : LogRotate)

def getRotatedPath (index : ℕ) : Path :=
  rotatedPath r.logPath index

/-- `std::chrono::hours` in ticks of the system clock. -/
def hours (n : ℤ) : ℤ := n * 3600 * ticksPerSecond

def shouldRotateByTime (period now : ℤ) (files : Files) : Bool :=
  match files r.logPath with
  | none => false
  | some file => now - fromTimeT file.mtime ≥ period

def shouldRotate (now : ℤ) (files : Files) : Bool :=
  match r.config.policy with
  | .never => false
  | .size => r.currentSize ≥ r.config.maxFileSize
  | .daily => r.shouldRotateByTime (hours 24) now files
  | .hourly => r.shouldRotateByTime (hours 1) now files

/-- The loop of `rotate`, from a number down to 1. -/
def moveUp : ℕ → Files → Files
  | 0, files => files
  | i + 1, files =>
      let fromPath := r.getRotatedPath (i + 1)
      let toPath := r.getRotatedPath (i + 2)
      moveUp i <|
        if isItemExistsAtPath files fromPath then
          if (i : ℤ) + 2 > r.config.maxFiles then (removeItemAtPath files fromPath).1
          else (moveItem files fromPath toPath true).1
        else files

def compressFile (files : Files) (path : Path) : Files :=
  gzip files path

def rotate (now : ℤ) (files : Files) : LogRotate × Files × Bool :=
  if ¬isItemExistsAtPath files r.logPath then (r, files, true)
  else
    let files := r.moveUp (r.config.maxFiles - 1).toNat files
    let rotatedPath := r.getRotatedPath 1
    let (files, moved) := moveItem files r.logPath rotatedPath true
    if ¬moved then (r, files, false)
    else
      let files := if r.config.compress then compressFile files rotatedPath else files
      ({ r with currentSize := 0, lastRotateTime := now }, files, true)

def recordWrite (bytes : ℕ) : LogRotate :=
  { r with currentSize := r.currentSize + UInt64.ofNat bytes }

end LogRotate

/-! ## `FileSink` -/

structure FileSink where
  path : Path
  rotator : Option LogRotate
  formatter : LogEntry → List UInt8
  minLevel : LogLevel := .trace

namespace FileSink

/-- The constructor with a configuration for the rotation. -/
def create (path : Path) (rotateConfig : RotateConfig) (formatter : LogEntry → List UInt8)
    (minLevel : LogLevel) (now : ℤ) (files : Files) : Option (FileSink × Files) := do
  let rotator := LogRotate.create path rotateConfig now files
  let files ← openAppend files path now
  some (⟨path, some rotator, formatter, minLevel⟩, files)

variable (s : FileSink)

def shouldLog (level : LogLevel) : Bool :=
  level.toInt ≥ s.minLevel.toInt

/-- Whether a write starts with a rotation. -/
def rotates (now : ℤ) (files : Files) : Bool :=
  s.rotator.any fun rotator => rotator.shouldRotate now files

/-- The first part of `write`: the rotator and the files after the file has been opened again. -/
def checkRotation (now : ℤ) (files : Files) : Option (Option LogRotate × Files) :=
  match s.rotator with
  | none => some (none, files)
  | some rotator =>
      if ¬rotator.shouldRotate now files then some (some rotator, files)
      else do
        let (rotator, files, _) := rotator.rotate now files
        let files ← openAppend files s.path now
        some (some rotator, files)

/-- `write`, with the time it takes place; there is no result if the system fails it. -/
def write (now : ℤ) (entry : LogEntry) (files : Files) : Option (FileSink × Files) :=
  if ¬s.shouldLog entry.level then some (s, files)
  else do
    let (rotator, files) ← s.checkRotation now files
    let formatted := s.formatter entry
    -- `std::endl` ends the line.
    let files ← append files s.path (formatted ++ [0x0A]) now
    some ({ s with rotator := rotator.map fun r => r.recordWrite (formatted.length + 1) }, files)

/-- Entries that are written one after the other, each at its time. -/
def writeAll : List (ℤ × LogEntry) → FileSink → Files → Option (FileSink × Files)
  | [], s, files => some (s, files)
  | (now, entry) :: entries, s, files => do
      let (s, files) ← s.write now entry files
      writeAll entries s files

end FileSink

end DarwinCore.Log
