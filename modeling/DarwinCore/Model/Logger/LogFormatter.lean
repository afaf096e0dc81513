import DarwinCore.Model.Date.DateTime
import DarwinCore.Model.Date.Duration
import DarwinCore.Model.Logger.LogSink
import DarwinCore.Library.Json

/-! # `JsonFormatter`

The literals of the program and what the streams write are characters in UTF-8. -/

namespace DarwinCore.Log

/-- The bytes of characters. -/
def utf8 (text : List Char) : List UInt8 :=
  text.flatMap String.utf8EncodeChar

/-- A string literal. -/
def literal (s : String) : List UInt8 :=
  utf8 s.toList

/-- `localtime_r` of the time of an entry, and what `<<` writes for the id of a thread, which has
neither quotation marks nor backslashes nor control characters. -/
structure Runtime where
  localtime : ℤ → Tm
  threadText : ℤ → List Char
  threadText_plain : ∀ id, ∀ c ∈ threadText id, Json.Plain c

def logLevelName : LogLevel → String
  | .trace => "TRACE"
  | .debug => "DEBUG"
  | .info => "INFO"
  | .warning => "WARN"
  | .error => "ERROR"
  | .fatal => "FATAL"

namespace JsonFormatter

/-- A number of at least two digits. -/
def twoDigits (n : ℤ) : List Char :=
  if 0 ≤ n ∧ n < 10 then '0' :: Duration.write n else Duration.write n

/-- `std::put_time(&tm, "%Y-%m-%dT%H:%M:%S")`. -/
def putTime (tm : Tm) : List Char :=
  Duration.write (tm.tm_year + 1900) ++ ['-'] ++ twoDigits (tm.tm_mon + 1) ++ ['-'] ++
    twoDigits tm.tm_mday ++ ['T'] ++ twoDigits tm.tm_hour ++ [':'] ++ twoDigits tm.tm_min ++
    [':'] ++ twoDigits tm.tm_sec

def formatTime (runtime : Runtime) (timestamp : ℤ) : List UInt8 :=
  utf8 (putTime (runtime.localtime timestamp))

/-- The cases of the switch in `escapeJson`. -/
def escapeByte (c : UInt8) : List UInt8 :=
  if c = 34 then literal "\\\""
  else if c = 92 then literal "\\\\"
  else if c = 10 then literal "\\n"
  else if c = 13 then literal "\\r"
  else if c = 9 then literal "\\t"
  else [c]

def escapeJson (str : List UInt8) : List UInt8 :=
  str.flatMap escapeByte

def format (runtime : Runtime) (entry : LogEntry) : List UInt8 :=
  let oss := literal "\x7b"
  let oss := oss ++ literal "\"timestamp\":\"" ++ formatTime runtime entry.timestamp ++
    literal "\","
  let oss := oss ++ literal "\"level\":\"" ++ literal (logLevelName entry.level) ++ literal "\","
  let oss := oss ++ literal "\"message\":\"" ++ escapeJson entry.message ++ literal "\""
  let oss :=
    if entry.file.isEmpty then oss
    else
      oss ++ literal ",\"file\":\"" ++ entry.file ++ literal "\"" ++ literal ",\"line\":" ++
        utf8 (Duration.write entry.line)
  let oss :=
    if entry.function.isEmpty then oss
    else oss ++ literal ",\"function\":\"" ++ entry.function ++ literal "\""
  oss ++ literal ",\"thread\":\"" ++ utf8 (runtime.threadText entry.threadId) ++ literal "\"" ++
    literal "\x7d"

end JsonFormatter

end DarwinCore.Log
