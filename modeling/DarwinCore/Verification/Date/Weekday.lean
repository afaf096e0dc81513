import DarwinCore.Verification.Date.Calendar

/-! # The day of the week, the day of the year and the week of the year -/

namespace DarwinCore.Calendar

open CInt

private theorem shifted_remainder {s : ℤ} (hs : InIntRange s) :
    (of s % of 7 + of 6) % of 7 = of ((s + 6) % 7) := by
  have hmod : s.tmod 7 = s % 7 ∨ s.tmod 7 = s % 7 - 7 := by
    rw [Int.tmod_eq_emod]
    split_ifs
    · exact .inl (Int.sub_zero _)
    · exact .inr rfl
  have hrange : -6 ≤ s.tmod 7 ∧ s.tmod 7 ≤ 6 := by
    have hlt := Int.tmod_lt_of_pos s (by decide : (0 : ℤ) < 7)
    have hgt := Int.lt_tmod_of_pos s (by decide : (0 : ℤ) < 7)
    omega
  rw [of_tmod hs (by decide) (by decide), of_add (by omega) (by decide),
    of_mod (by omega) (by omega) (by decide) (by decide)]
  congr 1
  omega

/-- The sum that `dayOfWeek` forms and the day number, for the months from March on. -/
theorem weekday_congruence {year month : ℤ} (day : ℤ) (hmonth : 3 ≤ month ∧ month ≤ 14) :
    (day + 13 * (month + 1) / 5 + year % 100 + year % 100 / 4 + year / 100 / 4 -
      2 * (year / 100) + 6) % 7 =
    ((153 * (month - 3) + 2) / 5 + day - 1 + 365 * (year + 4800) + (year + 4800) / 4 -
      (year + 4800) / 100 + (year + 4800) / 400 - 32044 + 1) % 7 := by
  have hyear : year = 100 * (year / 100) + year % 100 := by omega
  have hfour : (year + 4800) / 4 = 1200 + 25 * (year / 100) + year % 100 / 4 := by omega
  have hcentury : (year + 4800) / 100 = 48 + year / 100 := by omega
  have hcycle : (year + 4800) / 400 = 12 + year / 100 / 4 := by omega
  rw [hfour, hcentury, hcycle]
  generalize year / 100 = century at *
  generalize year % 100 = inCentury at *
  obtain ⟨hle, hge⟩ := hmonth
  interval_cases month <;> simp <;> omega

namespace Date

variable {d : Date}

theorem dayOfWeek_eq (hd : d.Valid) (hyear : 1 ≤ d.year ∧ d.year ≤ 1000001) :
    dayOfWeek d.year d.month d.day = of ((d.dayNumber + 1) % 7) := by
  obtain ⟨⟨hle, hge⟩, hday⟩ := hd
  have hday : 1 ≤ d.day ∧ d.day ≤ 31 := by
    rw [monthDays_eq _ ⟨hle, hge⟩] at hday
    split_ifs at hday <;> omega
  unfold dayOfWeek
  split_ifs with hmarch
  · simp (disch := omega) only [ofNat_eq, one_eq, of_add, of_sub, of_mul, of_div, of_mod]
    rw [shifted_remainder (by omega)]
    unfold dayNumber marchDay marchMonth marchYear
    rw [weekday_congruence d.day (by omega), if_pos (by omega), if_pos (by omega),
      show d.year + 4799 = d.year - 1 + 4800 by omega,
      show d.month + 9 = d.month + 12 - 3 by omega]
  · simp (disch := omega) only [ofNat_eq, one_eq, of_add, of_sub, of_mul, of_div, of_mod]
    rw [shifted_remainder (by omega)]
    unfold dayNumber marchDay marchMonth marchYear
    rw [weekday_congruence d.day (by omega), if_neg (by omega), if_neg (by omega)]

private theorem daysBeforeMonth_eq {month : ℤ} (hmonth : 1 ≤ month ∧ month ≤ 12) :
    entry [0, 0, 31, 59, 90, 120, 151, 181, 212, 243, 273, 304, 334] month =
      of (if month ≤ 2 then 31 * (month - 1) else (153 * (month - 3) + 2) / 5 + 59) := by
  obtain ⟨hle, hge⟩ := hmonth
  interval_cases month <;> rfl

/-- The day of the year is the distance to its first day. -/
theorem dayOfYear_eq (hd : d.Valid) :
    dayOfYear d.year d.month d.day =
      of (d.dayNumber - (⟨d.year, 1, 1⟩ : Date).dayNumber + 1) := by
  obtain ⟨⟨hle, hge⟩, hday⟩ := hd
  have hday : 1 ≤ d.day ∧ d.day ≤ 31 := by
    rw [monthDays_eq _ ⟨hle, hge⟩] at hday
    split_ifs at hday <;> omega
  have hleap := isLeapYear_iff d.year
  rw [dayOfYear, daysBeforeMonth_eq ⟨hle, hge⟩]
  simp only [dayNumber, marchDay, marchMonth, marchYear]
  by_cases hmarch : d.month ≤ 2
  · rw [if_pos hmarch, if_neg (by omega), of_add (by omega) (by omega), if_pos hmarch,
      if_pos hmarch]
    congr 1
    simp
    omega
  · rw [if_neg hmarch, if_neg hmarch, if_neg hmarch, of_add (by omega) (by omega), one_eq,
      of_add (by omega) (by omega)]
    cases h : isLeapYear d.year <;> simp [h] at hleap ⊢
    · congr 1
      omega
    · rw [if_pos (by omega)]
      congr 1
      omega

theorem newYear_valid (year : ℤ) : (⟨year, 1, 1⟩ : Date).Valid := by
  refine ⟨by simp, le_rfl, ?_⟩
  rw [monthDays_eq _ (by simp)]
  simp

/-- The three computations of days agree. -/
theorem calendar_days_agree (hd : d.Valid) (hyear : 1 ≤ d.year ∧ d.year ≤ 1000000) :
    ∃ jd first, d.julianDay.value = some jd ∧
      (⟨d.year, 1, 1⟩ : Date).julianDay.value = some first ∧
      (dayOfWeek d.year d.month d.day).value = some ((jd + 1) % 7) ∧
      (0 ≤ (jd + 1) % 7 ∧ (jd + 1) % 7 ≤ 6) ∧
      (dayOfYear d.year d.month d.day).value = some (jd - first + 1) := by
  have hfirst := newYear_valid d.year
  have hyear' : -4799 ≤ (⟨d.year, 1, 1⟩ : Date).year ∧ (⟨d.year, 1, 1⟩ : Date).year ≤ 1000001 := by
    simp only
    omega
  have hbounds := dayNumber_bounds hd (by omega)
  have hbounds' := dayNumber_bounds hfirst hyear'
  refine ⟨d.dayNumber, (⟨d.year, 1, 1⟩ : Date).dayNumber, ?_, ?_, ?_, by omega, ?_⟩
  · rw [julianDay_eq hd (by omega), value_of (by omega)]
  · rw [julianDay_eq hfirst hyear', value_of (by omega)]
  · rw [dayOfWeek_eq hd (by omega), value_of (by omega)]
  · rw [dayOfYear_eq hd, value_of (by omega)]

/-- The first of March 2000, a Wednesday. -/
theorem calendar_days_agree_leap : (dayOfWeek 2000 3 1).value = some 3 := by
  have hd : (⟨2000, 3, 1⟩ : Date).Valid := ⟨by decide, by decide⟩
  obtain ⟨jd, first, hjd, -, hweekday, -⟩ := calendar_days_agree hd (by decide)
  have hvalue : jd = 2451605 := Option.some.inj (hjd.symm.trans (by decide))
  rw [hvalue] at hweekday
  exact hweekday

/-! ## Weeks -/

def newYear (year : ℤ) : ℤ :=
  (⟨year, 1, 1⟩ : Date).dayNumber

theorem newYear_eq (year : ℤ) : newYear year =
    365 * year + (year + 4799) / 4 - (year + 4799) / 100 + (year + 4799) / 400 + 1719897 := by
  simp only [newYear, dayNumber, marchDay, marchMonth, marchYear]
  simp
  omega

theorem newYear_mono {a b : ℤ} (h : a ≤ b) : newYear a ≤ newYear b := by
  rw [newYear_eq, newYear_eq]
  omega

theorem newYear_succ (year : ℤ) :
    newYear (year + 1) = newYear year + 365 ∨ newYear (year + 1) = newYear year + 366 := by
  rw [newYear_eq, newYear_eq]
  omega

private theorem dayNumber_eq (d : Date) :
    d.dayNumber = newYear (if d.month ≤ 2 then d.year else d.year + 1) + d.marchDay - 306 := by
  rw [newYear_eq, dayNumber, marchYear]
  split_ifs
  · omega
  · rw [show d.year + 1 + 4799 = d.year + 4800 by omega]
    omega

theorem newYear_le (hd : d.Valid) :
    newYear d.year ≤ d.dayNumber ∧ d.dayNumber < newYear (d.year + 1) := by
  obtain ⟨hnonneg, hle, -⟩ := marchDay_bounds hd
  have hsucc := newYear_succ d.year
  obtain ⟨⟨hfirst, htwelve⟩, hday⟩ := hd
  have hday : 1 ≤ d.day ∧ d.day ≤ 31 := by
    rw [monthDays_eq _ ⟨hfirst, htwelve⟩] at hday
    split_ifs at hday <;> omega
  rw [dayNumber_eq]
  by_cases hmarch : d.month ≤ 2
  · have hlate : 306 ≤ d.marchDay := by
      rw [marchDay, marchMonth, if_pos hmarch]
      omega
    rw [if_pos hmarch]
    omega
  · have hearly : d.marchDay ≤ 305 := by
      rw [marchDay, marchMonth, if_neg hmarch]
      omega
    rw [if_neg hmarch]
    omega

/-- Weeks begin on Mondays, the days whose numbers are divisible by 7, and are numbered in the
year of their Thursday, from the week of its first Thursday on. -/
def IsoWeek (d : Date) (week : ℤ) : Prop :=
  ∃ year first, first % 7 = 3 ∧ newYear year ≤ first ∧ first < newYear year + 7 ∧ 1 ≤ week ∧
    first + 7 * (week - 1) < newYear (year + 1) ∧
    first + 7 * (week - 1) - 3 ≤ d.dayNumber ∧ d.dayNumber ≤ first + 7 * (week - 1) + 3

/-- What `weekOfYear` computes first. -/
def woy (d : Date) : ℤ :=
  (11 + d.dayNumber - newYear d.year - (d.dayNumber + 1) % 7) / 7

private theorem dayOfWeek_newYear {year : ℤ} (hyear : 1 ≤ year ∧ year ≤ 1000001) :
    dayOfWeek year 1 1 = of ((newYear year + 1) % 7) := by
  have hdow := dayOfWeek_eq (newYear_valid year) hyear
  rwa [← newYear] at hdow

theorem weekOfYear_round (hd : d.Valid) (hyear : 1 ≤ d.year ∧ d.year ≤ 1000000) (fuel : ℕ) :
    weekOfYear (fuel + 1) d.year d.month d.day =
      if d.woy = 0 then weekOfYear fuel (d.year - 1) 12 31
      else if d.woy = 53 ∧ (newYear (d.year + 1) + 1) % 7 ≤ 4 then 1 else of d.woy := by
  have hle := newYear_le hd
  have hsucc := newYear_succ d.year
  have hdow : dayOfWeek (d.year + 1) 1 1 = of ((newYear (d.year + 1) + 1) % 7) :=
    dayOfWeek_newYear (by omega)
  have hquot : (10 + of (d.dayNumber - newYear d.year + 1) - of ((d.dayNumber + 1) % 7)) / 7 =
      of d.woy := by
    simp (disch := omega) only [ofNat_eq, of_add, of_sub, of_div]
    unfold woy
    congr 2
    omega
  have hrange : InIntRange d.woy := by
    unfold woy
    omega
  have hdoy : dayOfYear d.year d.month d.day = of (d.dayNumber - newYear d.year + 1) :=
    dayOfYear_eq hd
  rw [weekOfYear]
  simp only [hdoy, dayOfWeek_eq hd (by omega), hquot, one_eq]
  rw [of_bind hrange]
  by_cases hzero : d.woy = 0
  · rw [if_pos hzero, if_pos hzero, of_sub (by omega) (by decide), of_bind (by omega)]
  · rw [if_neg hzero, if_neg hzero, of_add (by omega) (by decide), of_bind (by omega), hdow,
      of_bind (by omega)]
    by_cases hlast : d.woy = 53
    · simp [hlast]
    · simp [hlast]

def eve (d : Date) : Date :=
  ⟨d.year - 1, 12, 31⟩

theorem eve_valid (d : Date) : d.eve.Valid := by
  refine ⟨by simp [eve], by simp [eve], ?_⟩
  rw [monthDays_eq _ (by simp [eve])]
  simp [eve]

theorem dayNumber_eve (d : Date) : d.eve.dayNumber = newYear d.year - 1 := by
  have hnext := dayNumber_next (eve_valid d)
  have hyear : d.eve.next = ⟨d.year, 1, 1⟩ := by
    unfold next
    rw [monthDays_eq _ (by simp [eve])]
    simp [eve]
  rw [hyear, ← newYear] at hnext
  omega

def IsSunday (d : Date) : Prop :=
  d.dayNumber % 7 = 6

/-- The week in the year of the date, or the last week of the year before. -/
theorem weekOfYear_eq (hd : d.Valid) (hyear : 2 ≤ d.year ∧ d.year ≤ 1000000) {fuel : ℕ}
    (hfuel : 2 ≤ fuel) (hsunday : ¬d.IsSunday) :
    weekOfYear fuel d.year d.month d.day =
      if d.woy = 0 then of d.eve.woy
      else if d.woy = 53 ∧ (newYear (d.year + 1) + 1) % 7 ≤ 4 then 1 else of d.woy := by
  obtain ⟨fuel, rfl⟩ : ∃ n, fuel = n + 2 := ⟨fuel - 2, by omega⟩
  rw [weekOfYear_round hd (by omega)]
  by_cases hzero : d.woy = 0
  · have heve := weekOfYear_round (eve_valid d) (by simp only [eve]; omega) fuel
    have hnumber := dayNumber_eve d
    have hle := newYear_le hd
    have hsucc := newYear_succ (d.year - 1)
    rw [Int.sub_add_cancel] at hsucc
    have heveYear : d.eve.year = d.year - 1 := rfl
    rw [if_pos hzero, if_pos hzero]
    have hlate : ¬(d.eve.woy = 53 ∧ (newYear (d.eve.year + 1) + 1) % 7 ≤ 4) := by
      rintro ⟨-, hfour⟩
      rw [heveYear, Int.sub_add_cancel] at hfour
      have hsunday : d.dayNumber % 7 ≠ 6 := hsunday
      unfold woy at hzero
      omega
    have hpositive : d.eve.woy ≠ 0 := by
      unfold woy
      rw [hnumber, heveYear]
      omega
    rw [if_neg hpositive, if_neg hlate] at heve
    exact heve
  · rw [if_neg hzero, if_neg hzero]

/-- On the other days of the week that is the week of ISO 8601. -/
private theorem isoWeek_of_not_sunday (hd : d.Valid) (hsunday : ¬d.IsSunday) :
    d.IsoWeek (if d.woy = 0 then d.eve.woy
      else if d.woy = 53 ∧ (newYear (d.year + 1) + 1) % 7 ≤ 4 then 1 else d.woy) := by
  have hle := newYear_le hd
  have hsucc := newYear_succ d.year
  have hbefore := newYear_succ (d.year - 1)
  rw [Int.sub_add_cancel] at hbefore
  have hnumber := dayNumber_eve d
  have heveYear : d.eve.year = d.year - 1 := rfl
  have hafter := newYear_succ (d.year + 1)
  unfold IsSunday at hsunday
  split_ifs with hzero hlast
  · refine ⟨d.year - 1, newYear (d.year - 1) + (3 - newYear (d.year - 1)) % 7, ?_⟩
    rw [Int.sub_add_cancel]
    unfold woy at *
    rw [hnumber, heveYear]
    generalize newYear (d.year - 1) = before at *
    generalize newYear d.year = year at *
    omega
  · refine ⟨d.year + 1, newYear (d.year + 1) + (3 - newYear (d.year + 1)) % 7, ?_⟩
    unfold woy at *
    generalize newYear (d.year + 1 + 1) = later at *
    generalize newYear (d.year + 1) = next at *
    generalize newYear d.year = year at *
    omega
  · refine ⟨d.year, newYear d.year + (3 - newYear d.year) % 7, ?_⟩
    unfold woy at *
    generalize newYear (d.year + 1) = next at *
    generalize newYear d.year = year at *
    omega

/-- On a Sunday the week is not that of ISO 8601. -/
theorem not_isoWeek_of_sunday (hd : d.Valid) (hsunday : d.IsSunday) : d.woy ≠ 0 ∧
    ¬d.IsoWeek (if d.woy = 53 ∧ (newYear (d.year + 1) + 1) % 7 ≤ 4 then 1 else d.woy) := by
  have hle := newYear_le hd
  have hsucc := newYear_succ d.year
  have hbefore := newYear_succ (d.year - 1)
  rw [Int.sub_add_cancel] at hbefore
  unfold IsSunday at hsunday
  have hwoy : d.woy = (11 + d.dayNumber - newYear d.year) / 7 := by
    unfold woy
    congr 1
    omega
  refine ⟨by rw [hwoy]; omega, ?_⟩
  generalize hvalue : (if d.woy = 53 ∧ (newYear (d.year + 1) + 1) % 7 ≤ 4 then 1 else d.woy) = week
  rintro ⟨year, first, hmod, hfirst, hfirst', hweek, hthursday, hmonday, hsun⟩
  -- the Thursday of the week lies in the year of the date or in the one before
  have hyear : year = d.year ∨ year = d.year - 1 := by
    have hlow : d.year - 1 ≤ year := by
      refine Int.le_of_sub_one_lt (Int.lt_of_not_ge fun hge => ?_)
      have hmono := newYear_mono (show year + 1 ≤ d.year - 1 by omega)
      omega
    have hhigh : year ≤ d.year := by
      refine Int.not_lt.mp fun hlt => ?_
      have hmono := newYear_mono (show d.year + 1 ≤ year by omega)
      omega
    omega
  rw [hwoy] at hvalue
  rcases hyear with rfl | rfl
  · generalize newYear (d.year + 1) = next at *
    generalize newYear d.year = year at *
    split_ifs at hvalue <;> omega
  · rw [Int.sub_add_cancel] at hthursday
    generalize newYear (d.year - 1) = before at *
    generalize newYear (d.year + 1) = next at *
    generalize newYear d.year = year at *
    split_ifs at hvalue <;> omega

/-- The week of the year is that of ISO 8601 except on Sundays. -/
theorem weekOfYear_iso_iff (hd : d.Valid) (hyear : 2 ≤ d.year ∧ d.year ≤ 1000000) {fuel : ℕ}
    (hfuel : 2 ≤ fuel) :
    (∃ week, (weekOfYear fuel d.year d.month d.day).value = some week ∧ d.IsoWeek week) ↔
      ¬d.IsSunday := by
  have hle := newYear_le hd
  have hsucc := newYear_succ d.year
  have hrange : InIntRange d.woy := by
    unfold woy
    omega
  by_cases hsunday : d.IsSunday
  · refine iff_of_false ?_ (not_not.mpr hsunday)
    rintro ⟨week, hvalue, hweek⟩
    obtain ⟨hzero, hnot⟩ := not_isoWeek_of_sunday hd hsunday
    obtain ⟨fuel, rfl⟩ : ∃ n, fuel = n + 1 := ⟨fuel - 1, by omega⟩
    rw [weekOfYear_round hd (by omega), if_neg hzero] at hvalue
    refine hnot ?_
    split_ifs at hvalue ⊢
    · rwa [← Option.some.inj hvalue] at hweek
    · rw [value_of hrange] at hvalue
      rwa [← Option.some.inj hvalue] at hweek
  · refine iff_of_true ⟨_, ?_, isoWeek_of_not_sunday hd hsunday⟩ hsunday
    have heve : InIntRange d.eve.woy := by
      have heveYear : d.eve.year = d.year - 1 := rfl
      have hbefore := newYear_succ (d.year - 1)
      rw [Int.sub_add_cancel] at hbefore
      unfold woy
      rw [dayNumber_eve, heveYear]
      omega
    rw [weekOfYear_eq hd hyear hfuel hsunday]
    split_ifs
    · exact value_of heve
    · rfl
    · exact value_of hrange

/-- The first of January 2021, a Friday in the last week of 2020. -/
theorem weekOfYear_iso_friday : (weekOfYear 2 2021 1 1).value = some 53 ∧
    (⟨2021, 1, 1⟩ : Date).IsoWeek 53 := by
  have hd : (⟨2021, 1, 1⟩ : Date).Valid := ⟨by decide, by decide⟩
  have hvalue : (weekOfYear 2 2021 1 1).value = some 53 := by decide
  obtain ⟨week, hweek, hiso⟩ :=
    (weekOfYear_iso_iff hd (by decide) le_rfl).mpr (by unfold IsSunday; decide)
  obtain rfl := Option.some.inj (hweek.symm.trans hvalue)
  exact ⟨hvalue, hiso⟩

/-- The third of January 2021, a Sunday in the last week of 2020. -/
theorem weekOfYear_sunday : (⟨2021, 1, 3⟩ : Date).Valid ∧
    (weekOfYear 2 2021 1 3).value = some 1 ∧ ¬(⟨2021, 1, 3⟩ : Date).IsoWeek 1 := by
  have hd : (⟨2021, 1, 3⟩ : Date).Valid := ⟨by decide, by decide⟩
  exact ⟨hd, by decide, (not_isoWeek_of_sunday hd (by unfold IsSunday; decide)).2⟩

end Date

end DarwinCore.Calendar
