import DarwinCore.Model.Date.Calendar
import Mathlib.Tactic.IntervalCases

/-! # Dates and day numbers -/

namespace DarwinCore.Calendar

open CInt

/-! ## Months -/

theorem isLeapYear_iff (year : ℤ) :
    isLeapYear year = true ↔ (year % 4 = 0 ∧ year % 100 ≠ 0) ∨ year % 400 = 0 := by
  have hmod (k : ℤ) : year.tmod k = 0 ↔ year % k = 0 := by
    rw [← Int.dvd_iff_tmod_eq_zero, Int.dvd_iff_emod_eq_zero]
  simp [isLeapYear, hmod]

theorem monthDays_eq (year : ℤ) {month : ℤ} (hmonth : 1 ≤ month ∧ month ≤ 12) :
    monthDays year month =
      if month = 2 then if isLeapYear year then 29 else 28
      else if month = 4 ∨ month = 6 ∨ month = 9 ∨ month = 11 then 30 else 31 := by
  obtain ⟨hle, hge⟩ := hmonth
  unfold monthDays daysInMonth
  interval_cases month <;> cases isLeapYear year <;> rfl

namespace Date

structure Valid (d : Date) : Prop where
  month : 1 ≤ d.month ∧ d.month ≤ 12
  day : 1 ≤ d.day ∧ d.day ≤ monthDays d.year d.month

/-- The day number that the program computes. -/
def julianDay (d : Date) : CInt :=
  toJulianDay (of d.year) (of d.month) (of d.day)

variable {d : Date}

theorem julianDay_eq (hd : d.Valid) (hyear : -4799 ≤ d.year ∧ d.year ≤ 1000001) :
    d.julianDay = of d.dayNumber := by
  obtain ⟨hmonth, hday⟩ := hd
  rw [monthDays_eq _ hmonth] at hday
  have hday : d.day ≤ 31 := by
    split_ifs at hday <;> omega
  have ha : (14 - d.month) / 12 = if d.month ≤ 2 then 1 else 0 := by
    split_ifs <;> omega
  unfold julianDay toJulianDay dayNumber marchDay marchMonth marchYear
  simp (disch := omega) only [ofNat_eq, of_add, of_sub, of_mul, of_div]
  rw [ha]
  congr 1
  split_ifs <;> omega

theorem marchDay_bounds (hd : d.Valid) : 0 ≤ d.marchDay ∧ d.marchDay ≤ 365 ∧
    (d.marchDay = 365 → (d.marchYear + 1) % 4 = 0 ∧
      ((d.marchYear + 1) % 100 = 0 → (d.marchYear + 1) % 400 = 0)) := by
  obtain ⟨hmonth, hday⟩ := hd
  rw [monthDays_eq _ hmonth] at hday
  have hleap := isLeapYear_iff d.year
  unfold marchDay marchMonth marchYear
  split_ifs at hday <;> split_ifs <;> simp_all <;> omega

end Date

theorem cycles {q r t : ℤ} (hr : 0 ≤ r ∧ r < 100) (ht : 0 ≤ t ∧ t ≤ 365)
    (hleap : t = 365 → r % 4 = 3 ∧ (r = 99 → q % 4 = 3)) :
    (4 * (146097 * q / 4 + (1461 * r / 4 + t)) + 3) / 146097 = q ∧
      (4 * (1461 * r / 4 + t) + 3) / 1461 = r := by
  constructor <;> omega

namespace Date

variable {d : Date}

private theorem marchMonth_eq (hd : d.Valid) : (5 * d.marchDay + 2) / 153 = d.marchMonth := by
  obtain ⟨year, month, day⟩ := d
  obtain ⟨hmonth, hday⟩ := hd
  rw [monthDays_eq _ hmonth] at hday
  obtain ⟨hle, hge⟩ := hmonth
  simp only at hle hge hday
  unfold marchDay marchMonth
  interval_cases month <;> simp at hday ⊢ <;> try split_ifs at hday
  all_goals omega

theorem fromJulianDay_dayNumber (hd : d.Valid) (hyear : -4799 ≤ d.year ∧ d.year ≤ 1000001) :
    fromJulianDay (of d.dayNumber) = (of d.year, of d.month, of d.day) := by
  obtain ⟨hnonneg, hle, hlast⟩ := marchDay_bounds hd
  have hmonth := marchMonth_eq hd
  have hy : 0 ≤ d.marchYear ∧ d.marchYear ≤ 1004801 := by
    unfold marchYear
    split_ifs <;> omega
  have hleap : d.marchDay = 365 →
      d.marchYear % 100 % 4 = 3 ∧ (d.marchYear % 100 = 99 → d.marchYear / 100 % 4 = 3) := by
    omega
  obtain ⟨hb, hc⟩ := cycles ⟨by omega, by omega⟩ ⟨hnonneg, hle⟩ hleap
  have hnumber : d.dayNumber + 32044 = 146097 * (d.marchYear / 100) / 4 +
      (1461 * (d.marchYear % 100) / 4 + d.marchDay) := by
    have hfour : d.marchYear / 4 = 25 * (d.marchYear / 100) + d.marchYear % 100 / 4 := by omega
    have hcentury : 146097 * (d.marchYear / 100) / 4 =
        36524 * (d.marchYear / 100) + d.marchYear / 400 := by omega
    have hyears : 1461 * (d.marchYear % 100) / 4 =
        365 * (d.marchYear % 100) + d.marchYear % 100 / 4 := by omega
    unfold dayNumber
    omega
  generalize d.dayNumber = n at hnumber
  unfold fromJulianDay
  simp (disch := omega) only [ofNat_eq, one_eq, of_add, of_sub, of_mul, of_div]
  rw [hnumber, hb, add_sub_cancel_left, hc, add_sub_cancel_left, hmonth]
  obtain ⟨⟨hfirst, htwelve⟩, -⟩ := hd
  unfold marchDay marchYear marchMonth
  congr <;> split_ifs <;> omega

/-! ## The next day -/

theorem next_valid (hd : d.Valid) : d.next.Valid := by
  obtain ⟨hmonth, hday⟩ := hd
  have hfirst (year : ℤ) {month : ℤ} (h : 1 ≤ month ∧ month ≤ 12) :
      1 ≤ monthDays year month := by
    rw [monthDays_eq year h]
    split_ifs <;> decide
  unfold next
  split_ifs with hlast hyear
  · exact ⟨hmonth, by simp only; omega⟩
  · have hnext : 1 ≤ d.month + 1 ∧ d.month + 1 ≤ 12 := by omega
    exact ⟨hnext, le_rfl, hfirst _ hnext⟩
  · exact ⟨⟨le_rfl, by simp⟩, le_rfl, hfirst _ ⟨le_rfl, by simp⟩⟩

private theorem dayNumber_nextMonth (year : ℤ) {month : ℤ} (hmonth : 1 ≤ month ∧ month < 12) :
    dayNumber ⟨year, month + 1, 1⟩ = dayNumber ⟨year, month, monthDays year month⟩ + 1 := by
  rw [monthDays_eq year ⟨hmonth.1, hmonth.2.le⟩]
  obtain ⟨hle, hlt⟩ := hmonth
  have hleap := isLeapYear_iff year
  unfold dayNumber marchDay marchMonth marchYear
  -- only February depends on the year
  by_cases hfebruary : month = 2
  · subst hfebruary
    cases h : isLeapYear year <;> simp [h] at hleap ⊢ <;> omega
  · interval_cases month <;> simp at hfebruary ⊢ <;> omega

theorem dayNumber_next (hd : d.Valid) : d.next.dayNumber = d.dayNumber + 1 := by
  obtain ⟨⟨hle, hge⟩, hday⟩ := hd
  unfold next
  split_ifs with hlast hyear
  · simp only [dayNumber, marchDay, marchMonth, marchYear]
    omega
  · rw [dayNumber_nextMonth d.year ⟨hle, hyear⟩, ← le_antisymm hday.2 (Int.not_lt.mp hlast)]
  · have htwelve : d.month = 12 := by omega
    have hthirtyone : d.day = 31 := by
      rw [htwelve, monthDays_eq _ ⟨by decide, by decide⟩] at hlast hday
      simp at hlast hday
      omega
    simp only [dayNumber, marchDay, marchMonth, marchYear, htwelve, hthirtyone]
    simp
    omega

/-! ## Days apart -/

/-- `e` is the date `n` days after `d`; before it if `n` is negative. -/
def Later (n : ℤ) (d e : Date) : Prop :=
  ∃ k : ℕ, (n = k ∧ next^[k] d = e) ∨ (n = -k ∧ next^[k] e = d)

theorem iterate_next (hd : d.Valid) (k : ℕ) :
    (next^[k] d).Valid ∧ (next^[k] d).dayNumber = d.dayNumber + k := by
  induction k with
  | zero => simpa using hd
  | succ k ih =>
    rw [Function.iterate_succ_apply']
    refine ⟨next_valid ih.1, ?_⟩
    rw [dayNumber_next ih.1, ih.2]
    push_cast
    omega

private theorem dayNumber_later {n : ℤ} {e : Date} (hd : d.Valid) (he : e.Valid) (h : Later n d e) :
    e.dayNumber = d.dayNumber + n := by
  obtain ⟨k, ⟨rfl, rfl⟩ | ⟨rfl, rfl⟩⟩ := h
  · exact (iterate_next hd k).2
  · rw [(iterate_next he k).2]
    omega

/-! ## The dates of the program -/

/-- A date of the calendar in the years from -4799 to 1000000. -/
structure Ranged (d : Date) : Prop extends d.Valid where
  year : -4799 ≤ d.year ∧ d.year ≤ 1000000

def ints (d : Date) : CInt × CInt × CInt :=
  (of d.year, of d.month, of d.day)

end Date

def plus (date : CInt × CInt × CInt) (days : CInt) : CInt × CInt × CInt :=
  addDays date.1 date.2.1 date.2.2 days

namespace Date

variable {d : Date}

theorem dayNumber_bounds (hd : d.Valid) (hyear : -4799 ≤ d.year ∧ d.year ≤ 1000001) :
    -32044 ≤ d.dayNumber ∧ d.dayNumber ≤ 400000000 := by
  obtain ⟨hnonneg, hle, -⟩ := marchDay_bounds hd
  have hy : 0 ≤ d.marchYear ∧ d.marchYear ≤ 1004801 := by
    unfold marchYear
    split_ifs <;> omega
  unfold dayNumber
  omega

private theorem plus_eq {n : ℤ} {e : Date} (hd : d.Ranged) (he : e.Ranged)
    (h : e.dayNumber = d.dayNumber + n) : InIntRange n ∧ plus d.ints (of n) = e.ints := by
  have hdyear := hd.year
  have heyear := he.year
  have hbounds := dayNumber_bounds hd.toValid ⟨hdyear.1, by omega⟩
  have hbounds' := dayNumber_bounds he.toValid ⟨heyear.1, by omega⟩
  have hjulian : toJulianDay d.ints.1 d.ints.2.1 d.ints.2.2 = of d.dayNumber :=
    julianDay_eq hd.toValid ⟨hdyear.1, by omega⟩
  refine ⟨by omega, ?_⟩
  rw [plus, addDays, hjulian, of_add (by omega) (by omega), ← h]
  exact fromJulianDay_dayNumber he.toValid ⟨heyear.1, by omega⟩

private theorem next_year_le (d : Date) : d.year ≤ d.next.year ∧ d.next.year ≤ d.year + 1 := by
  unfold next
  split_ifs <;> simp

/-- The day numbers are exact, and no computation leaves the range of `int`. -/
theorem calendar_days_exact (hd : d.Ranged) :
    (∃ jd, d.julianDay.value = some jd ∧ d.next.julianDay.value = some (jd + 1) ∧
      fromJulianDay (of jd) = d.ints) ∧
    (∀ a e, e.Ranged → Later a d e → plus d.ints (of a) = e.ints) ∧
    ∀ a b e f, e.Ranged → f.Ranged → Later a d e → Later (a + b) d f →
      plus (plus d.ints (of a)) (of b) = f.ints ∧ plus d.ints (of a + of b) = f.ints := by
  have hyear := hd.year
  have hnextYear := d.next_year_le
  have hvalid := hd.toValid
  have hnextValid := next_valid hvalid
  refine ⟨⟨d.dayNumber, ?_, ?_, fromJulianDay_dayNumber hvalid (by omega)⟩, ?_, ?_⟩
  · have hbounds := dayNumber_bounds hvalid (by omega)
    rw [julianDay_eq hvalid (by omega), value_of (by omega)]
  · have hbounds := dayNumber_bounds hnextValid (by omega)
    rw [julianDay_eq hnextValid (by omega), ← dayNumber_next hvalid, value_of (by omega)]
  · intro a e he hlater
    exact (plus_eq hd he (dayNumber_later hvalid he.toValid hlater)).2
  · intro a b e f he hf ha hab
    have hnumber := dayNumber_later hvalid he.toValid ha
    have hnumber' := dayNumber_later hvalid hf.toValid hab
    obtain ⟨hrange, hfirst⟩ := plus_eq hd he hnumber
    obtain ⟨hrange', hsecond⟩ := plus_eq he hf (by omega : f.dayNumber = e.dayNumber + b)
    rw [hfirst, of_add hrange hrange']
    exact ⟨hsecond, (plus_eq hd hf hnumber').2⟩

/-- The day before the first of March in a year with 366 days. -/
theorem calendar_days_exact_leap :
    (⟨2000, 2, 29⟩ : Date).Ranged ∧
      plus (ints ⟨2000, 2, 29⟩) (of 1) = ints ⟨2000, 3, 1⟩ := by
  have hd : (⟨2000, 2, 29⟩ : Date).Ranged := ⟨⟨by decide, by decide⟩, by decide⟩
  have he : (⟨2000, 3, 1⟩ : Date).Ranged := ⟨⟨by decide, by decide⟩, by decide⟩
  exact ⟨hd, (calendar_days_exact hd).2.1 1 _ he ⟨1, .inl ⟨rfl, by decide⟩⟩⟩

end Date

end DarwinCore.Calendar
