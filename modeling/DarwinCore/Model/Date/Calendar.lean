import DarwinCore.Library.CInt

/-! # `Calendar` -/

namespace DarwinCore.Calendar

open CInt

def isLeapYear (year : ℤ) : Bool :=
  (year.tmod 4 = 0 && year.tmod 100 ≠ 0) || year.tmod 400 = 0

/-- An element of a table with `int` values. -/
def entry (table : List ℤ) (i : ℤ) : CInt :=
  if i < 0 then undefined
  else
    match table[i.toNat]? with
    | none => undefined
    | some n => of n

def daysInMonth (year month : ℤ) : CInt :=
  let days := [0, 31, 28, 31, 30, 31, 30, 31, 31, 30, 31, 30, 31]
  if month < 1 ∨ month > 12 then 0
  else if month = 2 ∧ isLeapYear year then 29
  else entry days month

def dayOfWeek (year month day : ℤ) : CInt :=
  let (year, month) :=
    if month < 3 then (of year - 1, of month + 12) else (of year, of month)
  let k := year % 100
  let j := year / 100
  let h := (of day + (13 * (month + 1)) / 5 + k + k / 4 + j / 4 - 2 * j) % 7
  (h + 6) % 7

def dayOfYear (year month day : ℤ) : CInt :=
  let daysBeforeMonth := [0, 0, 31, 59, 90, 120, 151, 181, 212, 243, 273, 304, 334]
  let doy := entry daysBeforeMonth month + of day
  if month > 2 ∧ isLeapYear year then doy + 1 else doy

/-- The first loop of `addMonths`, which makes years of the months above twelve. -/
def carryYears : ℕ → ℤ → ℤ → Option (ℤ × ℤ)
  | 0, _, _ => none
  | fuel + 1, year, month =>
      if month > 12 then do
        let month ← (of month - 12).value
        carryYears fuel (← (of year + 1).value) month
      else some (year, month)

/-- The second loop, for the months below one. -/
def borrowYears : ℕ → ℤ → ℤ → Option (ℤ × ℤ)
  | 0, _, _ => none
  | fuel + 1, year, month =>
      if month < 1 then do
        let month ← (of month + 12).value
        borrowYears fuel (← (of year - 1).value) month
      else some (year, month)

/-- `addMonths`: the year, the month and the day that it assigns, if the loops run at most `fuel`
times and no computation leaves the range of `int`. -/
def addMonths (fuel : ℕ) (year month day months : ℤ) : Option (ℤ × ℤ × ℤ) := do
  let month ← (of month + of months).value
  let (year, month) ← carryYears fuel year month
  let (year, month) ← borrowYears fuel year month
  let maxDay ← (daysInMonth year month).value
  return (year, month, if day > maxDay then maxDay else day)

/-- `weekOfYear`, which has no value if it calls itself `fuel` times or more. -/
def weekOfYear : ℕ → ℤ → ℤ → ℤ → CInt
  | 0, _, _, _ => undefined
  | fuel + 1, year, month, day =>
      let doy := dayOfYear year month day
      let dow := dayOfWeek year month day
      ((10 + doy - dow) / 7).bind fun woy =>
        if woy = 0 then (of year - 1).bind fun year => weekOfYear fuel year 12 31
        else if woy = 53 then
          ((of year + 1).bind fun year => dayOfWeek year 1 1).bind fun jan1dow =>
            if jan1dow ≤ 4 then 1 else of woy
        else of woy

def toJulianDay (year month day : CInt) : CInt :=
  let a := (14 - month) / 12
  let y := year + 4800 - a
  let m := month + 12 * a - 3
  day + (153 * m + 2) / 5 + 365 * y + y / 4 - y / 100 + y / 400 - 32045

/-- The year, the month and the day that `fromJulianDay` assigns. -/
def fromJulianDay (jd : CInt) : CInt × CInt × CInt :=
  let a := jd + 32044
  let b := (4 * a + 3) / 146097
  let c := a - 146097 * b / 4
  let d := (4 * c + 3) / 1461
  let e := c - 1461 * d / 4
  let m := (5 * e + 2) / 153
  let day := e - (153 * m + 2) / 5 + 1
  let month := m + 3 - 12 * (m / 10)
  let year := 100 * b + d - 4800 + m / 10
  (year, month, day)

/-- `addDays`: what it assigns to its first three arguments. -/
def addDays (year month day days : CInt) : CInt × CInt × CInt :=
  let jd := toJulianDay year month day + days
  fromJulianDay jd

/-! ## The dates of the calendar -/

/-- How many days `daysInMonth` gives a month. -/
def monthDays (year month : ℤ) : ℤ :=
  (daysInMonth year month).value.getD 0

structure Date where
  year : ℤ
  month : ℤ
  day : ℤ
deriving DecidableEq

namespace Date

def next (d : Date) : Date :=
  if d.day < monthDays d.year d.month then ⟨d.year, d.month, d.day + 1⟩
  else if d.month < 12 then ⟨d.year, d.month + 1, 1⟩
  else ⟨d.year + 1, 1, 1⟩

/-- The years that begin with March, from the year -4800 on. -/
def marchYear (d : Date) : ℤ :=
  if d.month ≤ 2 then d.year + 4799 else d.year + 4800

def marchMonth (d : Date) : ℤ :=
  if d.month ≤ 2 then d.month + 9 else d.month - 3

/-- The number of the day in its year, from March on. -/
def marchDay (d : Date) : ℤ :=
  (153 * d.marchMonth + 2) / 5 + d.day - 1

def dayNumber (d : Date) : ℤ :=
  d.marchDay + 365 * d.marchYear + d.marchYear / 4 - d.marchYear / 100 + d.marchYear / 400 - 32044

end Date

end DarwinCore.Calendar
