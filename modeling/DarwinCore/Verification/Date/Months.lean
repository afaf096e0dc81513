import DarwinCore.Model.Date.DateTime
import DarwinCore.Verification.Date.Weekday

/-! # Adding months

`Calendar` stays in the month it comes to; the C library counts days beyond its end into the next
month. -/

namespace DarwinCore

open Calendar CInt

namespace Calendar.Date

variable {d e : Date}

/-! ## Days from the epoch -/

private theorem previous_spec (hd : d.Valid) : d.previous.Valid ∧ d.previous.next = d := by
  obtain ⟨hmonth, hday⟩ := hd
  obtain ⟨year, month, day⟩ := d
  dsimp only at hmonth hday
  rw [previous]
  by_cases hinner : 1 < day
  · rw [if_pos hinner]
    refine ⟨⟨hmonth, by dsimp only; omega⟩, ?_⟩
    rw [next, if_pos (by dsimp only; omega)]
    simp
  rw [if_neg hinner]
  obtain rfl : day = 1 := by omega
  by_cases hlater : 1 < month
  · have hbefore : 1 ≤ month - 1 ∧ month - 1 ≤ 12 := by omega
    have hlength : 1 ≤ monthDays year (month - 1) := by
      rw [monthDays_eq year hbefore]
      split_ifs <;> decide
    rw [if_pos hlater]
    refine ⟨⟨hbefore, hlength, le_rfl⟩, ?_⟩
    rw [next, if_neg (lt_irrefl _), if_pos (by dsimp only; omega)]
    simp
  · obtain rfl : month = 1 := by omega
    have htwelve : (1 : ℤ) ≤ 12 ∧ (12 : ℤ) ≤ 12 := by decide
    have hdecember : monthDays (year - 1) 12 = 31 := monthDays_eq _ htwelve
    have hone : (1 : ℤ) ≤ 31 := by decide
    rw [if_neg hlater]
    refine ⟨⟨htwelve, hone, hdecember.ge⟩, ?_⟩
    rw [next, if_neg (by dsimp only; omega), if_neg (lt_irrefl _)]
    simp

theorem epoch_valid : epoch.Valid :=
  newYear_valid 1970

private theorem iterate_previous (k : ℕ) :
    (previous^[k] epoch).Valid ∧ (previous^[k] epoch).days = -k := by
  induction k with
  | zero => exact ⟨epoch_valid, Int.sub_self _⟩
  | succ k ih =>
    rw [Function.iterate_succ_apply']
    obtain ⟨hvalid, hnext⟩ := previous_spec ih.1
    have hnumber := dayNumber_next hvalid
    have hdays := ih.2
    rw [hnext] at hnumber
    refine ⟨hvalid, ?_⟩
    rw [days] at hdays ⊢
    push_cast
    omega

theorem ofDays_spec (n : ℤ) : (ofDays n).Valid ∧ (ofDays n).days = n := by
  cases n with
  | ofNat k =>
    obtain ⟨hvalid, hnumber⟩ := iterate_next epoch_valid k
    refine ⟨hvalid, ?_⟩
    rw [days, ofDays, hnumber, Int.ofNat_eq_natCast]
    omega
  | negSucc k =>
    rw [Int.negSucc_eq]
    exact iterate_previous (k + 1)

private theorem day_le (hd : d.Valid) : d.day ≤ 31 := by
  obtain ⟨hmonth, hday⟩ := hd
  rw [monthDays_eq _ hmonth] at hday
  split_ifs at hday <;> omega

/-- A day number belongs to one date. -/
private theorem eq_of_days (hd : d.Valid) (he : e.Valid) (hyear : 1 ≤ d.year ∧ d.year ≤ 1000001)
    (h : d.days = e.days) : d = e := by
  have hnumber : d.dayNumber = e.dayNumber := by
    rw [days, days] at h
    omega
  have hdyear := newYear_le hd
  have heyear := newYear_le he
  have hsame : d.year = e.year := by
    rcases lt_trichotomy d.year e.year with hlt | heq | hlt
    · have := newYear_mono (Int.add_one_le_of_lt hlt)
      omega
    · exact heq
    · have := newYear_mono (Int.add_one_le_of_lt hlt)
      omega
  have hints := fromJulianDay_dayNumber hd ⟨by omega, by omega⟩
  rw [hnumber, fromJulianDay_dayNumber he ⟨by omega, by omega⟩] at hints
  obtain ⟨-, hrest⟩ := Prod.mk.inj hints
  obtain ⟨hmonth, hday⟩ := Prod.mk.inj hrest
  have hdmonth := hd.month
  have hemonth := he.month
  have hdday := hd.day.1
  have heday := he.day.1
  have hdlast := day_le hd
  have helast := day_le he
  have hmonths := of_inj (by omega) (by omega) hmonth
  have hdays := of_inj (by omega) (by omega) hday
  cases d
  cases e
  exact congr (congr (congrArg Date.mk hsame) hmonths.symm) hdays.symm

theorem days_eq (year month day : ℤ) :
    (⟨year, month, day⟩ : Date).days = (⟨year, month, 1⟩ : Date).days + day - 1 := by
  simp only [days, dayNumber, marchDay, marchMonth, marchYear]
  omega

end Calendar.Date

/-! ## The loops -/

namespace Calendar

variable {year month months : ℤ} {fuel : ℕ}

private theorem carryYears_spec (year month : ℤ) (hyear : 1 ≤ year)
    (hlast : 12 * year + month ≤ 12000012) (hfuel : 0 < fuel) (hmonth : month ≤ 12 * fuel)
    (hrange : InIntRange month) :
    ∃ year' month', carryYears fuel year month = some (year', month') ∧
      12 * year' + month' = 12 * year + month ∧ 1 ≤ year' ∧ month' ≤ 12 ∧ min month 1 ≤ month' := by
  induction fuel generalizing year month with
  | zero => exact absurd hfuel (Nat.lt_irrefl _)
  | succ fuel ih =>
    rw [carryYears]
    by_cases habove : month > 12
    · obtain ⟨year', month', hrun, hindex, hpos, htwelve, hmin⟩ :=
        ih (year + 1) (month - 12) (by omega) (by omega) (by omega) (by omega) (by omega)
      refine ⟨year', month', ?_, by omega, hpos, htwelve, by omega⟩
      rw [if_pos habove, ofNat_eq, one_eq, of_sub hrange (by decide), of_add (by omega) (by decide),
        value_of (by omega), value_of (by omega)]
      exact hrun
    · exact ⟨year, month, if_neg habove, rfl, hyear, by omega, min_le_left _ _⟩

private theorem borrowYears_spec (year month : ℤ) (hfirst : 13 ≤ 12 * year + month)
    (hyear : year ≤ 1000001) (hfuel : 0 < fuel) (hmonth : 13 ≤ month + 12 * fuel)
    (htwelve : month ≤ 12) :
    ∃ year' month', borrowYears fuel year month = some (year', month') ∧
      12 * year' + month' = 12 * year + month ∧ 1 ≤ month' ∧ month' ≤ 12 := by
  induction fuel generalizing year month with
  | zero => exact absurd hfuel (Nat.lt_irrefl _)
  | succ fuel ih =>
    rw [borrowYears]
    by_cases hbelow : month < 1
    · obtain ⟨year', month', hrun, hindex, hone, hle⟩ :=
        ih (year - 1) (month + 12) (by omega) (by omega) (by omega) (by omega) (by omega)
      refine ⟨year', month', ?_, by omega, hone, hle⟩
      rw [if_pos hbelow, ofNat_eq, one_eq, of_add (by omega) (by decide),
        of_sub (by omega) (by decide),
        value_of (by omega), value_of (by omega)]
      exact hrun
    · exact ⟨year, month, if_neg hbelow, rfl, by omega, htwelve⟩

private theorem loops_spec (hyear : 1 ≤ year ∧ year ≤ 1000000) (hmonth : 1 ≤ month ∧ month ≤ 12)
    (htarget : 12 ≤ 12 * year + (month - 1) + months ∧
      12 * year + (month - 1) + months < 12000012) (hfuel : months.natAbs < fuel) :
    ∃ year₁ month₁ year' month', (of month + of months).value = some (month + months) ∧
      carryYears fuel year (month + months) = some (year₁, month₁) ∧
      borrowYears fuel year₁ month₁ = some (year', month') ∧
      12 * year' + (month' - 1) = 12 * year + (month - 1) + months ∧
      (1 ≤ year' ∧ year' ≤ 1000000) ∧ (1 ≤ month' ∧ month' ≤ 12) := by
  have hfuel' : 0 < fuel := Nat.zero_lt_of_lt hfuel
  obtain ⟨year₁, month₁, hcarry, hindex₁, hpos, htwelve, hmin⟩ :=
    carryYears_spec year (month + months) hyear.1 (by omega) hfuel' (by omega) (by omega)
  obtain ⟨year', month', hborrow, hindex, hone, hle⟩ :=
    borrowYears_spec year₁ month₁ (by omega) (by omega) hfuel' (by omega) htwelve
  refine ⟨year₁, month₁, year', month', ?_, hcarry, hborrow, by omega, by omega, hone, hle⟩
  rw [of_add (by omega) (by omega), value_of (by omega)]

private theorem daysInMonth_eq (year : ℤ) (hmonth : 1 ≤ month ∧ month ≤ 12) :
    (daysInMonth year month).value = some (monthDays year month) := by
  obtain ⟨hle, hge⟩ := hmonth
  unfold monthDays daysInMonth
  interval_cases month <;> cases isLeapYear year <;> rfl

/-- `addMonths` stays in the month that the loops find. -/
theorem addMonths_eq {year₁ month₁ year' month' : ℤ}
    (hsum : (of month + of months).value = some (month + months))
    (hcarry : carryYears fuel year (month + months) = some (year₁, month₁))
    (hborrow : borrowYears fuel year₁ month₁ = some (year', month'))
    (hmonth' : 1 ≤ month' ∧ month' ≤ 12) (day : ℤ) :
    addMonths fuel year month day months =
      some (year', month', min day (monthDays year' month')) := by
  rw [addMonths, hsum]
  simp only [Option.bind_eq_bind, Option.bind_some, hcarry, hborrow, daysInMonth_eq year' hmonth']
  rw [min_def]
  by_cases hday : day ≤ monthDays year' month'
  · rw [if_neg (by omega), if_pos hday]
    rfl
  · rw [if_pos (by omega), if_neg hday]
    rfl

end Calendar

/-! ## Local times -/

/-- What the components of a `DateTime` tell. -/
structure LocalTime where
  date : Calendar.Date
  hour : ℤ
  minute : ℤ
  second : ℤ
deriving DecidableEq

namespace LocalTime

/-- The local time so many seconds after the beginning of the epoch's day. -/
def ofSeconds (n : ℤ) : LocalTime :=
  { date := Date.ofDays (n / 86400)
    hour := n % 86400 / 3600
    minute := n % 86400 / 60 % 60
    second := n % 86400 % 60 }

def secondOfDay (t : LocalTime) : ℤ :=
  3600 * t.hour + 60 * t.minute + t.second

def seconds (t : LocalTime) : ℤ :=
  86400 * t.date.days + t.secondOfDay

def tm (t : LocalTime) : Tm where
  tm_sec := t.second
  tm_min := t.minute
  tm_hour := t.hour
  tm_mday := t.date.day
  tm_mon := t.date.month - 1
  tm_year := t.date.year - 1900

private theorem mktime_tm (zone : Zone) (t : LocalTime)
    (hmonth : 1 ≤ t.date.month ∧ t.date.month ≤ 12) :
    zone.mktime t.tm = t.seconds - zone.offset := by
  have hyear : t.date.year - 1900 + 1900 + (t.date.month - 1) / 12 = t.date.year := by omega
  have hmonth' : (t.date.month - 1) % 12 + 1 = t.date.month := by omega
  have hdays : t.date.days = (⟨t.date.year, t.date.month, 1⟩ : Date).days + t.date.day - 1 :=
    Date.days_eq t.date.year t.date.month t.date.day
  simp only [Zone.mktime, tm, seconds, secondOfDay, hyear, hmonth', hdays]
  omega

structure InDay (t : LocalTime) : Prop where
  hour : 0 ≤ t.hour ∧ t.hour < 24
  minute : 0 ≤ t.minute ∧ t.minute < 60
  second : 0 ≤ t.second ∧ t.second < 60

variable {t : LocalTime}

private theorem ofSeconds_inDay (n : ℤ) : (ofSeconds n).InDay where
  hour := by
    simp only [ofSeconds]
    omega
  minute := by
    simp only [ofSeconds]
    omega
  second := by
    simp only [ofSeconds]
    omega

private theorem ofSeconds_eq (ht : t.InDay) (days : ℤ) :
    ofSeconds (86400 * days + t.secondOfDay) = { t with date := Date.ofDays days } := by
  obtain ⟨⟨hhour, hhour'⟩, ⟨hminute, hminute'⟩, ⟨hsecond, hsecond'⟩⟩ := ht
  have hday : (86400 * days + t.secondOfDay) / 86400 = days := by
    rw [secondOfDay]
    omega
  have hrest : (86400 * days + t.secondOfDay) % 86400 = t.secondOfDay := by
    rw [secondOfDay]
    omega
  rw [ofSeconds, hday, hrest]
  simp only [LocalTime.mk.injEq, true_and]
  rw [secondOfDay]
  omega

end LocalTime

def Zone.Has (zone : Zone) (t : LocalTime) : Prop :=
  InInt64Range (zone.ticks * (t.seconds - zone.offset))

namespace DateTime

variable {zone : Zone} {dt dt' : DateTime} {t : LocalTime} {seconds : ℤ} {fuel : ℕ} {months : ℤ}

/-- What the accessors of the components return, if all of them have a value. -/
def localTime (zone : Zone) (dt : DateTime) : Option LocalTime := do
  let year ← dt.year zone
  let month ← dt.month zone
  let day ← dt.day zone
  let hour ← dt.hour zone
  let minute ← dt.minute zone
  let second ← dt.second zone
  return { date := ⟨year, month, day⟩, hour := hour, minute := minute, second := second }

def fraction (zone : Zone) (dt : DateTime) : ℤ :=
  dt.timePoint.tmod zone.ticks

def localSeconds (zone : Zone) (dt : DateTime) : ℤ :=
  dt.timePoint.tdiv zone.ticks + zone.offset

theorem components (h : dt.localTime zone = some t) :
    dt.year zone = some t.date.year ∧ dt.month zone = some t.date.month ∧
      dt.day zone = some t.date.day ∧ dt.hour zone = some t.hour ∧
      dt.minute zone = some t.minute ∧ dt.second zone = some t.second := by
  simp only [localTime, Option.bind_eq_bind, Option.bind_eq_some_iff] at h
  obtain ⟨year, hyear, month, hmonth, day, hday, hour, hhour, minute, hminute, second, hsecond,
    h⟩ := h
  cases h
  exact ⟨hyear, hmonth, hday, hhour, hminute, hsecond⟩

/-- The components are those of the local time, if they are of type `int`. -/
theorem localTm_eq (zone : Zone) (dt : DateTime) :
    dt.localTm zone =
      if InIntRange ((LocalTime.ofSeconds (dt.localSeconds zone)).date.year - 1900) then
        some (LocalTime.ofSeconds (dt.localSeconds zone)).tm
      else none :=
  rfl

private theorem localTime_eq (ht : LocalTime.ofSeconds (dt.localSeconds zone) = t)
    (hyear : 1 ≤ t.date.year ∧ t.date.year ≤ 1000001) : dt.localTime zone = some t := by
  have hmonth : 1 ≤ t.date.month ∧ t.date.month ≤ 12 := by
    rw [← ht]
    exact (Date.ofDays_spec _).1.month
  have htm : dt.localTm zone = some t.tm := by
    rw [localTm_eq, ht, if_pos (by omega)]
  have hmonth' : (of (t.date.month - 1) + of 1).value = some t.date.month := by
    rw [of_add (by omega) (by decide), Int.sub_add_cancel, value_of (by omega)]
  have hyear' : (of (t.date.year - 1900) + of 1900).value = some t.date.year := by
    rw [of_add (by omega) (by decide), Int.sub_add_cancel, value_of (by omega)]
  simp only [localTime, year, month, day, hour, minute, second, htm, Option.bind_eq_bind,
    Option.bind_some, Option.map_some, ofNat_eq, one_eq, LocalTime.tm, hmonth', hyear']
  rfl

theorem ofSeconds_of_localTime (h : dt.localTime zone = some t) :
    LocalTime.ofSeconds (dt.localSeconds zone) = t := by
  obtain ⟨hyear, hmonth, hday, hhour, hminute, hsecond⟩ := components h
  have hrange : 1 ≤ (LocalTime.ofSeconds (dt.localSeconds zone)).date.month ∧
      (LocalTime.ofSeconds (dt.localSeconds zone)).date.month ≤ 12 := (Date.ofDays_spec _).1.month
  simp only [year, month, day, hour, minute, second, localTm_eq] at *
  generalize LocalTime.ofSeconds (dt.localSeconds zone) = n at *
  by_cases hint : InIntRange (n.date.year - 1900)
  · simp only [if_pos hint, Option.map_some, Option.some.injEq, Option.bind_eq_bind,
      Option.bind_some, ofNat_eq, one_eq, LocalTime.tm] at *
    rw [of_add hint (by decide), Int.sub_add_cancel] at hyear
    rw [of_add (by omega) (by decide), Int.sub_add_cancel] at hmonth
    obtain ⟨⟨year, month, day⟩, hour, minute, second⟩ := n
    obtain rfl := eq_of_value hyear
    obtain rfl := eq_of_value hmonth
    subst hday hhour hminute hsecond
    rfl
  · simp [if_neg hint] at hday

/-! ## Months -/

private theorem fromComponents_eq (zone : Zone) (t : LocalTime)
    (hyear : 1 ≤ t.date.year ∧ t.date.year ≤ 1000000)
    (hmonth : 1 ≤ t.date.month ∧ t.date.month ≤ 12) :
    fromComponents zone t.date.year t.date.month t.date.day t.hour t.minute t.second =
      fromTimestamp zone (t.seconds - zone.offset) := by
  rw [← LocalTime.mktime_tm zone t hmonth, fromComponents, ofNat_eq, one_eq,
    of_sub (by omega) (by decide), of_sub (by omega) (by decide), value_of (by omega),
    value_of (by omega)]
  rfl

/-- `addMonths` makes the time of the same day of the month it comes to, whether it has that day
or not. -/
theorem addMonths_eq (ht : dt.localTime zone = some t)
    (hyear : 1 ≤ t.date.year ∧ t.date.year ≤ 1000000)
    (htarget : 12 ≤ 12 * t.date.year + (t.date.month - 1) + months ∧
      12 * t.date.year + (t.date.month - 1) + months < 12000012) (hfuel : months.natAbs < fuel) :
    ∃ target : Calendar.Date,
      Calendar.addMonths fuel t.date.year t.date.month t.date.day months =
        some (target.year, target.month, target.day) ∧
      target.Valid ∧ (1 ≤ target.year ∧ target.year ≤ 1000000) ∧
      12 * target.year + (target.month - 1) = 12 * t.date.year + (t.date.month - 1) + months ∧
      target.day = min t.date.day (monthDays target.year target.month) ∧
      dt.addMonths zone fuel months =
        fromTimestamp zone
          (86400 * (target.days + (t.date.day - target.day)) + t.secondOfDay - zone.offset) := by
  have hvalid : t.date.Valid := by
    rw [← ofSeconds_of_localTime ht]
    exact (Date.ofDays_spec _).1
  obtain ⟨hyears, hmonths, hday, hhour, hminute, hsecond⟩ := components ht
  obtain ⟨year₁, month₁, year', month', hsum, hcarry, hborrow, hindex, hyear', hmonth'⟩ :=
    loops_spec hyear hvalid.month htarget hfuel
  have hlength : 28 ≤ monthDays year' month' := by
    rw [monthDays_eq year' hmonth']
    split_ifs <;> decide
  have hone := hvalid.day.1
  refine ⟨⟨year', month', min t.date.day (monthDays year' month')⟩,
    Calendar.addMonths_eq hsum hcarry hborrow hmonth' _,
    ⟨hmonth', by dsimp only; omega, min_le_right _ _⟩,
    hyear', hindex, rfl, ?_⟩
  rw [addMonths, hmonths]
  simp only [Option.bind_eq_bind, Option.bind_some, hsum, hyears, hcarry, hborrow, hday, hhour,
    hminute, hsecond]
  have hcomponents := fromComponents_eq zone { t with date := ⟨year', month', t.date.day⟩ } hyear'
    hmonth'
  have hdays := Date.days_eq year' month' t.date.day
  have hdays' := Date.days_eq year' month' (min t.date.day (monthDays year' month'))
  have hseconds : LocalTime.seconds { t with date := ⟨year', month', t.date.day⟩ } =
      86400 * ((⟨year', month', min t.date.day (monthDays year' month')⟩ : Calendar.Date).days +
        (t.date.day - min t.date.day (monthDays year' month'))) + t.secondOfDay := by
    rw [LocalTime.seconds, hdays, hdays']
    simp only [LocalTime.secondOfDay]
    omega
  rw [hcomponents, hseconds]

private theorem fromTimestamp_spec (h : fromTimestamp zone seconds = some dt) :
    InInt64Range (zone.ticks * seconds) ∧ dt.localSeconds zone = seconds + zone.offset ∧
      dt.fraction zone = 0 := by
  rw [fromTimestamp] at h
  by_cases hrange : InInt64Range (zone.ticks * seconds)
  · rw [dif_pos hrange] at h
    cases h
    refine ⟨hrange, ?_, ?_⟩
    · rw [localSeconds, Int.mul_tdiv_cancel_left _ zone.ticks_pos.ne']
    · exact Int.mul_tmod_right _ _
  · rw [dif_neg hrange] at h
    cases h

/-- Both functions come to the month with the right number, and `Calendar` to a date of it. The
local time that `DateTime` makes has this date, and the time of the day, iff the month has the
day at all and the clock has the time; and all of the time of the day, iff besides no fraction of
a second was there to lose. -/
theorem addMonths_agree_iff (ht : dt.localTime zone = some t)
    (hyear : 1 ≤ t.date.year ∧ t.date.year ≤ 1000000)
    (htarget : 12 ≤ 12 * t.date.year + (t.date.month - 1) + months ∧
      12 * t.date.year + (t.date.month - 1) + months < 12000012) (hfuel : months.natAbs < fuel) :
    ∃ target : Calendar.Date,
      Calendar.addMonths fuel t.date.year t.date.month t.date.day months =
        some (target.year, target.month, target.day) ∧
      target.Valid ∧
      12 * target.year + (target.month - 1) = 12 * t.date.year + (t.date.month - 1) + months ∧
      ((∃ dt', dt.addMonths zone fuel months = some dt' ∧
          dt'.localTime zone = some { t with date := target }) ↔
        t.date.day ≤ monthDays target.year target.month ∧ zone.Has { t with date := target }) ∧
      ((∃ dt', dt.addMonths zone fuel months = some dt' ∧
          dt'.localTime zone = some { t with date := target } ∧
          dt'.fraction zone = dt.fraction zone) ↔
        (t.date.day ≤ monthDays target.year target.month ∧ zone.Has { t with date := target }) ∧
          dt.fraction zone = 0) := by
  obtain ⟨target, hcalendar, hvalid, hyear', hindex, hday, hrun⟩ :=
    addMonths_eq ht hyear htarget hfuel
  have hinDay : t.InDay := by
    rw [← ofSeconds_of_localTime ht]
    exact LocalTime.ofSeconds_inDay _
  have hclock (days : ℤ) : LocalTime.ofSeconds
      (86400 * days + t.secondOfDay - zone.offset + zone.offset) =
        { t with date := Date.ofDays days } := by
    rw [Int.sub_add_cancel, LocalTime.ofSeconds_eq hinDay]
  have hfraction dt' (h : dt.addMonths zone fuel months = some dt') : dt'.fraction zone = 0 :=
    (fromTimestamp_spec (hrun.symm.trans h)).2.2
  have hiff : (∃ dt', dt.addMonths zone fuel months = some dt' ∧
      dt'.localTime zone = some { t with date := target }) ↔
        t.date.day ≤ monthDays target.year target.month ∧ zone.Has { t with date := target } := by
    constructor
    · rintro ⟨dt', hmade, htime⟩
      obtain ⟨hrange, hseconds, -⟩ := fromTimestamp_spec (hrun.symm.trans hmade)
      have hsame := ofSeconds_of_localTime htime
      rw [hseconds, hclock] at hsame
      have hdate : Date.ofDays (target.days + (t.date.day - target.day)) = target :=
        congrArg LocalTime.date hsame
      have hdays := (Date.ofDays_spec (target.days + (t.date.day - target.day))).2
      rw [hdate] at hdays
      have hstays : t.date.day = target.day := by omega
      rw [hstays, Int.sub_self, Int.add_zero] at hrange
      exact ⟨by omega, hrange⟩
    · rintro ⟨hle, hhas⟩
      have hstays : t.date.day = target.day := by omega
      rw [hstays, Int.sub_self, Int.add_zero] at hrun
      have hmade : fromTimestamp zone (86400 * target.days + t.secondOfDay - zone.offset) = _ :=
        dif_pos hhas
      refine ⟨_, hrun.trans hmade, localTime_eq ?_ ⟨hyear'.1, by dsimp only; omega⟩⟩
      obtain ⟨-, hseconds, -⟩ := fromTimestamp_spec hmade
      have hdate : Date.ofDays target.days = target :=
        (Date.eq_of_days hvalid (Date.ofDays_spec _).1 ⟨hyear'.1, by omega⟩
          (Date.ofDays_spec _).2.symm).symm
      rw [hseconds, hclock, hdate]
  refine ⟨target, hcalendar, hvalid, hindex, hiff, ?_⟩
  rw [← hiff]
  constructor
  · rintro ⟨dt', hmade, htime, hsame⟩
    exact ⟨⟨dt', hmade, htime⟩, hsame.symm.trans (hfraction dt' hmade)⟩
  · rintro ⟨⟨dt', hmade, htime⟩, hzero⟩
    exact ⟨dt', hmade, htime, (hfraction dt' hmade).trans hzero.symm⟩

/-- A clock of nanoseconds, eight hours ahead. -/
theorem addMonths_agree_iff_shanghai :
    ∃ target : Calendar.Date,
      Calendar.addMonths 2 1970 1 15 1 = some (target.year, target.month, target.day) ∧
      target.Valid ∧ 12 * target.year + (target.month - 1) = 12 * 1970 + (1 - 1) + 1 ∧
      ((∃ dt', DateTime.addMonths ⟨1000000000, by decide, 28800⟩ 2
            ⟨1210800000000000, by decide⟩ 1 = some dt' ∧
          dt'.localTime ⟨1000000000, by decide, 28800⟩ = some ⟨target, 8, 20, 0⟩) ↔
        15 ≤ monthDays target.year target.month ∧
          Zone.Has ⟨1000000000, by decide, 28800⟩ ⟨target, 8, 20, 0⟩) ∧
      ((∃ dt', DateTime.addMonths ⟨1000000000, by decide, 28800⟩ 2
            ⟨1210800000000000, by decide⟩ 1 = some dt' ∧
          dt'.localTime ⟨1000000000, by decide, 28800⟩ = some ⟨target, 8, 20, 0⟩ ∧
          dt'.fraction ⟨1000000000, by decide, 28800⟩ =
            DateTime.fraction ⟨1000000000, by decide, 28800⟩ ⟨1210800000000000, by decide⟩) ↔
        (15 ≤ monthDays target.year target.month ∧
          Zone.Has ⟨1000000000, by decide, 28800⟩ ⟨target, 8, 20, 0⟩) ∧
          DateTime.fraction ⟨1000000000, by decide, 28800⟩ ⟨1210800000000000, by decide⟩ = 0) := by
  have ht : DateTime.localTime ⟨1000000000, by decide, 28800⟩ ⟨1210800000000000, by decide⟩ =
      some ⟨⟨1970, 1, 15⟩, 8, 20, 0⟩ := by decide +kernel
  have hfuel : (1 : ℤ).natAbs < 2 := by decide
  exact addMonths_agree_iff ht (by decide) (by decide) hfuel

/-- The 31st of January and a month are the 28th of February, and the third of March. -/
theorem addMonths_overflows :
    DateTime.localTime ⟨1000000000, by decide, 0⟩ ⟨2592000000000000, by decide⟩ =
        some ⟨⟨1970, 1, 31⟩, 0, 0, 0⟩ ∧
      Calendar.addMonths 2 1970 1 31 1 = some (1970, 2, 28) ∧
      ∃ dt', DateTime.addMonths ⟨1000000000, by decide, 0⟩ 2 ⟨2592000000000000, by decide⟩ 1 =
          some dt' ∧
        dt'.localTime ⟨1000000000, by decide, 0⟩ = some ⟨⟨1970, 3, 3⟩, 0, 0, 0⟩ :=
  ⟨by decide +kernel, rfl, ⟨5270400000000000, by decide⟩, by decide +kernel, by decide +kernel⟩

end DateTime

end DarwinCore
