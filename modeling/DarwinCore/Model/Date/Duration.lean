import Mathlib.Algebra.Order.Group.Unbundled.Int

/-! # `Duration` -/

namespace DarwinCore

/-- A number of nanoseconds in 64 bits. -/
structure Duration where
  nanos : ℤ
  inRange : -9223372036854775808 ≤ nanos ∧ nanos ≤ 9223372036854775807

namespace Duration

/-- `toSeconds`: `duration_cast` truncates. -/
def toSeconds (d : Duration) : ℤ :=
  d.nanos.tdiv 1000000000

/-- `static_cast<int>`. -/
def toInt (n : ℤ) : ℤ :=
  n.bmod 4294967296

/-- What `<<` writes for an integer. -/
def write (n : ℤ) : List Char :=
  if n < 0 then '-' :: Nat.toDigits 10 n.natAbs else Nat.toDigits 10 n.natAbs

def toISO8601 (duration : Duration) : List Char :=
  let oss := ['P']
  let secs := |duration.toSeconds|
  let d := toInt (secs.tdiv 86400)
  let secs := secs.tmod 86400
  let oss := if d > 0 then oss ++ write d ++ ['D'] else oss
  if secs > 0 ∨ d = 0 then
    let oss := oss ++ ['T']
    let h := toInt (secs.tdiv 3600)
    let secs := secs.tmod 3600
    let m := toInt (secs.tdiv 60)
    let secs := secs.tmod 60
    let oss := if h > 0 then oss ++ write h ++ ['H'] else oss
    let oss := if m > 0 then oss ++ write m ++ ['M'] else oss
    oss ++ write secs ++ ['S']
  else oss

end Duration

end DarwinCore
