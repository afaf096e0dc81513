import DarwinCore.Model.Date.Calendar
import Mathlib.Logic.Function.Iterate

/-! # `DateTime`

The functions of the C library go by the dates of the calendar, in a local time that is always the
same number of seconds ahead of UTC. A loop runs at most `fuel` times. -/

namespace DarwinCore

open Calendar CInt

/-! ## The C library -/

namespace Calendar.Date

/-- The day before. -/
def previous (d : Date) : Date :=
  if 1 < d.day then ⟨d.year, d.month, d.day - 1⟩
  else if 1 < d.month then ⟨d.year, d.month - 1, monthDays d.year (d.month - 1)⟩
  else ⟨d.year - 1, 12, 31⟩

def epoch : Date :=
  ⟨1970, 1, 1⟩

/-- The date so many days after the epoch. -/
def ofDays : ℤ → Date
  | .ofNat k => next^[k] epoch
  | .negSucc k => previous^[k + 1] epoch

def days (d : Date) : ℤ :=
  d.dayNumber - epoch.dayNumber

end Calendar.Date

structure Tm where
  tm_sec : ℤ
  tm_min : ℤ
  tm_hour : ℤ
  tm_mday : ℤ
  tm_mon : ℤ
  tm_year : ℤ

/-- The clock counts `ticks` in a second; the local time is `offset` seconds ahead. -/
structure Zone where
  ticks : ℤ
  ticks_pos : 0 < ticks
  offset : ℤ

namespace Zone

/-- `localtime_r`, which fails if the year is no `int`. -/
def localtime (zone : Zone) (t : ℤ) : Option Tm :=
  let second := (t + zone.offset) % 86400
  let date := Date.ofDays ((t + zone.offset) / 86400)
  if InIntRange (date.year - 1900) then
    some
      { tm_sec := second % 60
        tm_min := second / 60 % 60
        tm_hour := second / 3600
        tm_mday := date.day
        tm_mon := date.month - 1
        tm_year := date.year - 1900 }
  else none

/-- `mktime`: days count on from the first of the month, months from the first of the year. -/
def mktime (zone : Zone) (tm : Tm) : ℤ :=
  let first : Date := ⟨tm.tm_year + 1900 + tm.tm_mon / 12, tm.tm_mon % 12 + 1, 1⟩
  86400 * (first.days + tm.tm_mday - 1) + 3600 * tm.tm_hour + 60 * tm.tm_min + tm.tm_sec -
    zone.offset

end Zone

/-! ## The program -/

/-- The values of type `int64_t`. -/
abbrev InInt64Range (n : ℤ) : Prop :=
  -9223372036854775808 ≤ n ∧ n ≤ 9223372036854775807

structure DateTime where
  timePoint : ℤ
  inRange : InInt64Range timePoint
deriving DecidableEq

namespace DateTime

variable (zone : Zone)

/-- `fromTimestamp`, if the clock has this time. -/
def fromTimestamp (seconds : ℤ) : Option DateTime :=
  if h : InInt64Range (zone.ticks * seconds) then some ⟨zone.ticks * seconds, h⟩ else none

def fromComponents (year month day hour minute second : ℤ) : Option DateTime := do
  let tm_year ← (of year - 1900).value
  let tm_mon ← (of month - 1).value
  fromTimestamp zone (zone.mktime
    { tm_sec := second
      tm_min := minute
      tm_hour := hour
      tm_mday := day
      tm_mon := tm_mon
      tm_year := tm_year })

/-- `localTm`; `to_time_t` truncates. -/
def localTm (dt : DateTime) : Option Tm :=
  zone.localtime (dt.timePoint.tdiv zone.ticks)

def year (dt : DateTime) : Option ℤ := do
  (of (← dt.localTm zone).tm_year + 1900).value

def month (dt : DateTime) : Option ℤ := do
  (of (← dt.localTm zone).tm_mon + 1).value

def day (dt : DateTime) : Option ℤ :=
  (dt.localTm zone).map Tm.tm_mday

def hour (dt : DateTime) : Option ℤ :=
  (dt.localTm zone).map Tm.tm_hour

def minute (dt : DateTime) : Option ℤ :=
  (dt.localTm zone).map Tm.tm_min

def second (dt : DateTime) : Option ℤ :=
  (dt.localTm zone).map Tm.tm_sec

def addMonths (fuel : ℕ) (dt : DateTime) (months : ℤ) : Option DateTime := do
  let newMonth ← (of (← dt.month zone) + of months).value
  let newYear ← dt.year zone
  let (newYear, newMonth) ← carryYears fuel newYear newMonth
  let (newYear, newMonth) ← borrowYears fuel newYear newMonth
  fromComponents zone newYear newMonth (← dt.day zone) (← dt.hour zone) (← dt.minute zone)
    (← dt.second zone)

end DateTime

end DarwinCore
