import DarwinCore.Model.Date.Duration
import Mathlib.Algebra.Order.Group.Abs
import Mathlib.Algebra.Order.Group.Int
import Mathlib.Data.List.Basic

/-! # ISO 8601 durations

The text of a duration tells the number of its whole seconds, but not their sign. -/

namespace DarwinCore.Duration

/-! ## Reading -/

/-- A number with its designator, if the text begins with them, and what is left. -/
def readComponent (designator : Char) (text : List Char) : Option ℕ × List Char :=
  match text.takeWhile Char.isDigit, text.dropWhile Char.isDigit with
  | digit :: digits, c :: rest =>
      if c = designator then (some (Nat.ofDigitChars 10 (digit :: digits) 0), rest)
      else (none, text)
  | _, _ => (none, text)

/-- Hours, minutes and seconds: at least one of them, and nothing else. -/
def readTime (text : List Char) : Option ℕ :=
  let (hours, text) := readComponent 'H' text
  let (minutes, text) := readComponent 'M' text
  let (seconds, text) := readComponent 'S' text
  if text = [] ∧ (hours.isSome ∨ minutes.isSome ∨ seconds.isSome) then
    some (3600 * hours.getD 0 + 60 * minutes.getD 0 + seconds.getD 0)
  else none

def readPeriod (text : List Char) : Option ℕ :=
  let (days, text) := readComponent 'D' text
  match text with
  | [] => days.map (86400 * ·)
  | 'T' :: text => (readTime text).map (86400 * days.getD 0 + ·)
  | _ => none

/-- The seconds of a duration in ISO 8601, with a minus sign in front if it is negative. -/
def readISO8601 (text : List Char) : Option ℤ :=
  match text with
  | 'P' :: text => (readPeriod text).map fun n => (n : ℤ)
  | '-' :: 'P' :: text => (readPeriod text).map fun n => -(n : ℤ)
  | _ => none

variable {designator c : Char} {n : ℕ} {text : List Char}

private theorem isDigit_of_mem_toDigits (hc : c ∈ Nat.toDigits 10 n) : c.isDigit = true :=
  Nat.isDigit_of_mem_toDigits (by decide) (by decide) hc

private theorem span_toDigits (n : ℕ) (text : List Char) (hc : c.isDigit = false) :
    (Nat.toDigits 10 n ++ c :: text).takeWhile Char.isDigit = Nat.toDigits 10 n ∧
      (Nat.toDigits 10 n ++ c :: text).dropWhile Char.isDigit = c :: text := by
  rw [List.takeWhile_append_of_pos fun _ => isDigit_of_mem_toDigits,
    List.dropWhile_append_of_pos fun _ => isDigit_of_mem_toDigits]
  simp [hc]

theorem readComponent_number (n : ℕ) (text : List Char) (hc : c.isDigit = false) :
    readComponent designator (Nat.toDigits 10 n ++ c :: text) =
      if c = designator then (some n, text) else (none, Nat.toDigits 10 n ++ c :: text) := by
  obtain ⟨htake, hdrop⟩ := span_toDigits n text hc
  obtain ⟨digit, digits, hdigits⟩ :=
    List.exists_cons_of_ne_nil (Nat.toDigits_ne_nil (n := n) (b := 10))
  unfold readComponent
  rw [htake, hdrop, hdigits]
  simp only
  rw [← hdigits, Nat.ofDigitChars_ten_toDigits]

/-- The text does not begin with such a component. -/
def Lacks (designator : Char) (text : List Char) : Prop :=
  readComponent designator text = (none, text)

theorem lacks_number (n : ℕ) (text : List Char) (hc : c.isDigit = false) (hne : c ≠ designator) :
    Lacks designator (Nat.toDigits 10 n ++ c :: text) := by
  rw [Lacks, readComponent_number n text hc, if_neg hne]

private theorem lacks_nil : Lacks designator [] :=
  rfl

private theorem lacks_cons (hc : c.isDigit = false) : Lacks designator (c :: text) := by
  unfold Lacks readComponent
  simp [hc]

/-- A component that is left out where it would be zero. -/
def component (n : ℕ) (designator : Char) : List Char :=
  if 0 < n then Nat.toDigits 10 n ++ [designator] else []

theorem readComponent_component (n : ℕ) (designator : Char)
    (hdesignator : designator.isDigit = false) (h : Lacks designator text) : ∃ value,
      readComponent designator (component n designator ++ text) = (value, text) ∧
        value.getD 0 = n ∧ (0 < n → value.isSome) := by
  unfold component
  split_ifs with hpos
  · refine ⟨some n, ?_, rfl, fun _ => rfl⟩
    rw [List.append_assoc, List.singleton_append, readComponent_number n text hdesignator,
      if_pos rfl]
  · refine ⟨none, h, ?_, fun h => absurd h hpos⟩
    simp
    omega

private theorem lacks_component (n : ℕ) (hc : c.isDigit = false) (hne : c ≠ designator)
    (h : Lacks designator text) : Lacks designator (component n c ++ text) := by
  unfold component
  split_ifs
  · rw [List.append_assoc, List.singleton_append]
    exact lacks_number n text hc hne
  · exact h

private theorem readTime_components (h m s : ℕ) :
    readTime (component h 'H' ++ (component m 'M' ++ (Nat.toDigits 10 s ++ ['S']))) =
      some (3600 * h + 60 * m + s) := by
  have hseconds (designator : Char) (hne : 'S' ≠ designator) :
      Lacks designator (Nat.toDigits 10 s ++ ['S']) := lacks_number s [] rfl hne
  obtain ⟨hours, hhours, rfl, -⟩ := readComponent_component h 'H' rfl
    (lacks_component (c := 'M') m rfl (by decide) (hseconds 'H' (by decide)))
  obtain ⟨minutes, hminutes, rfl, -⟩ := readComponent_component m 'M' rfl
    (hseconds 'M' (by decide))
  unfold readTime
  simp only [hhours, hminutes]
  rw [readComponent_number s [] rfl, if_pos rfl]
  simp

private theorem readPeriod_time {n : ℕ} (d : ℕ) (h : readTime text = some n) :
    readPeriod (component d 'D' ++ 'T' :: text) = some (86400 * d + n) := by
  have htime : Lacks 'D' ('T' :: text) := lacks_cons rfl
  obtain ⟨days, hdays, rfl, -⟩ :=
    readComponent_component d 'D' rfl htime
  unfold readPeriod
  rw [hdays]
  simp [h]

private theorem readPeriod_days {d : ℕ} (hd : 0 < d) :
    readPeriod (component d 'D') = some (86400 * d) := by
  obtain ⟨days, hdays, hvalue, hsome⟩ :=
    readComponent_component d 'D' rfl lacks_nil
  obtain ⟨value, rfl⟩ := Option.isSome_iff_exists.mp (hsome hd)
  rw [List.append_nil] at hdays
  obtain rfl : value = d := hvalue
  unfold readPeriod
  rw [hdays]
  rfl

/-! ## Writing -/

theorem write_natCast (n : ℕ) : write (n : ℤ) = Nat.toDigits 10 n := by
  rw [write, if_neg (by omega), Int.natAbs_natCast]

private theorem toInt_natCast (hn : n < 2147483648) : toInt (n : ℤ) = n := by
  unfold toInt
  rw [Int.bmod_eq_of_le] <;> omega

/-- The text after the `P`. -/
def period (n : ℕ) : List Char :=
  component (n / 86400) 'D' ++
    if 0 < n % 86400 ∨ n / 86400 = 0 then
      'T' :: (component (n % 86400 / 3600) 'H' ++
        (component (n % 86400 % 3600 / 60) 'M' ++
          (Nat.toDigits 10 (n % 86400 % 3600 % 60) ++ ['S'])))
    else []

private theorem readPeriod_period (n : ℕ) : readPeriod (period n) = some n := by
  unfold period
  split_ifs with htime
  · rw [readPeriod_time _ (readTime_components _ _ _)]
    exact congrArg some (by omega)
  · rw [List.append_nil, readPeriod_days (by omega)]
    exact congrArg some (by omega)

private theorem append_component (oss : List Char) (n : ℕ) (designator : Char) :
    (if (n : ℤ) > 0 then oss ++ write n ++ [designator] else oss) =
      oss ++ component n designator := by
  unfold component
  by_cases hpos : 0 < n
  · rw [if_pos (by omega), if_pos hpos, write_natCast, List.append_assoc]
  · rw [if_neg (by omega), if_neg hpos, List.append_nil]

private theorem natAbs_toSeconds_le (d : Duration) : d.toSeconds.natAbs ≤ 9223372036 := by
  have hrange := d.inRange
  have hquot : d.toSeconds.natAbs = d.nanos.natAbs / 1000000000 := Int.natAbs_tdiv _ _
  omega

theorem toISO8601_eq (d : Duration) : d.toISO8601 = 'P' :: period d.toSeconds.natAbs := by
  have hle := natAbs_toSeconds_le d
  unfold toISO8601
  rw [show |d.toSeconds| = (d.toSeconds.natAbs : ℤ) from Int.abs_eq_natAbs _]
  generalize d.toSeconds.natAbs = n at hle
  have hdiv (a b : ℕ) : (a : ℤ).tdiv b = ((a / b : ℕ) : ℤ) := rfl
  have hmod (a b : ℕ) : (a : ℤ).tmod b = ((a % b : ℕ) : ℤ) := rfl
  have hday : (86400 : ℤ) = ((86400 : ℕ) : ℤ) := rfl
  have hhour : (3600 : ℤ) = ((3600 : ℕ) : ℤ) := rfl
  have hminute : (60 : ℤ) = ((60 : ℕ) : ℤ) := rfl
  simp only [hday, hhour, hminute, hdiv, hmod]
  rw [toInt_natCast (by omega), toInt_natCast (by omega), toInt_natCast (by omega)]
  simp only [append_component]
  rw [write_natCast]
  unfold period
  by_cases htime : 0 < n % 86400 ∨ n / 86400 = 0
  · rw [if_pos (by omega), if_pos htime]
    simp
  · rw [if_neg (by omega), if_neg htime]
    simp

private theorem readISO8601_toISO8601 (d : Duration) :
    readISO8601 d.toISO8601 = some |d.toSeconds| := by
  rw [toISO8601_eq, readISO8601, readPeriod_period, Int.abs_eq_natAbs]
  rfl

/-- A duration is read back if it is not negative in whole seconds, and two durations that differ
in whole seconds print alike if one is the negative of the other. -/
theorem toISO8601_reads_back_iff (d : Duration) :
    (readISO8601 d.toISO8601 = some d.toSeconds ↔ 0 ≤ d.toSeconds) ∧
      ∀ e : Duration, d.toSeconds ≠ e.toSeconds →
        (d.toISO8601 ≠ e.toISO8601 ↔ d.toSeconds ≠ -e.toSeconds) := by
  refine ⟨?_, fun e hne => not_congr ?_⟩
  · rw [readISO8601_toISO8601, Option.some.injEq, abs_eq_self]
  · constructor
    · intro htext
      have hread := congrArg readISO8601 htext
      rw [readISO8601_toISO8601, readISO8601_toISO8601, Option.some.injEq, abs_eq_abs] at hread
      exact hread.resolve_left hne
    · intro hneg
      rw [toISO8601_eq, toISO8601_eq, hneg, Int.natAbs_neg]

/-- Five seconds before and five seconds after. -/
theorem toISO8601_loses_sign : ∃ before after : Duration,
    before.toSeconds = -5 ∧ after.toSeconds = 5 ∧
      readISO8601 before.toISO8601 = some 5 ∧ before.toISO8601 = after.toISO8601 :=
  ⟨⟨-5000000000, by decide⟩, ⟨5000000000, by decide⟩, by decide, by decide, by decide, by decide⟩

end DarwinCore.Duration
