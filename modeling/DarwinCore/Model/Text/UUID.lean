import Mathlib.Algebra.Ring.Int.Defs
import Mathlib.Data.Int.Basic
import Mathlib.Data.List.Basic

/-! # `UUID`

The texts are lists of bytes. -/

namespace DarwinCore

/-- The 16 bytes of `data_`. -/
structure UUID where
  data : List UInt8
  length_data : data.length = 16
  deriving DecidableEq

namespace UUID

/-! ## `std::stoi` to the base 16 -/

def isSpace (c : UInt8) : Bool :=
  c = 32 ∨ 9 ≤ c ∧ c ≤ 13

/-- The value of a hexadecimal digit of either case. -/
def hexValue (c : UInt8) : Option ℕ :=
  if 48 ≤ c ∧ c ≤ 57 then some (c.toNat - 48)
  else if 65 ≤ c ∧ c ≤ 70 then some (c.toNat - 55)
  else if 97 ≤ c ∧ c ≤ 102 then some (c.toNat - 87)
  else none

def isHexDigit (c : UInt8) : Bool :=
  (hexValue c).isSome

/-- `+` or `-`. -/
def isSign (c : UInt8) : Bool :=
  c = 43 ∨ c = 45

/-- `0x` before a digit. -/
def skipPrefix : List UInt8 → List UInt8
  | zero :: x :: digit :: rest =>
      if zero = 48 ∧ (x = 120 ∨ x = 88) ∧ isHexDigit digit then digit :: rest
      else zero :: x :: digit :: rest
  | text => text

/-- The digits from the start of the text, if there are any. -/
def readDigits (text : List UInt8) : Option ℕ :=
  match text.takeWhile isHexDigit with
  | [] => none
  | digits => some (digits.foldl (fun n c => 16 * n + (hexValue c).getD 0) 0)

/-- `strtol` to the base 16, without its bounds. What follows the digits is ignored. -/
def strtol (text : List UInt8) : Option ℤ :=
  match text.dropWhile isSpace with
  | [] => none
  | sign :: rest =>
      if isSign sign then
        (readDigits (skipPrefix rest)).map fun n => if sign = 45 then -(n : ℤ) else n
      else (readDigits (skipPrefix (sign :: rest))).map fun n => (n : ℤ)

/-- `std::stoi(text, nullptr, 16)`; none if it throws. -/
def stoi (text : List UInt8) : Option ℤ :=
  (strtol text).filter fun value => -2 ^ 31 ≤ value ∧ value < 2 ^ 31

/-! ## The class -/

/-- The local `clean`. -/
def clean (str : List UInt8) : List UInt8 :=
  str.filter (· ≠ 45)

/-- `static_cast<uint8_t>`. -/
def toByte (value : ℤ) : UInt8 :=
  UInt8.ofNat (value % 256).toNat

/-- So many turns of the loop of `parse`. -/
def parseBytes : (turns : ℕ) → List UInt8 → Option {bytes : List UInt8 // bytes.length = turns}
  | 0, _ => some ⟨[], rfl⟩
  | turns + 1, clean =>
      match stoi (clean.take 2) with
      | none => none
      | some value =>
          (parseBytes turns (clean.drop 2)).map fun bytes =>
            ⟨toByte value :: bytes.1, by rw [List.length_cons, bytes.2]⟩

def parse (str : List UInt8) : Option UUID :=
  if (clean str).length ≠ 32 then none
  else (parseBytes 16 (clean str)).map fun bytes => ⟨bytes.1, bytes.2⟩

def hexDigit (d : ℕ) : UInt8 :=
  UInt8.ofNat (if d < 10 then 48 + d else 87 + d)

/-- `oss << std::setw(2) << static_cast<int>(byte)`, with `std::hex` and filled with zeros. -/
def writeByte (byte : UInt8) : List UInt8 :=
  [hexDigit (byte.toNat / 16), hexDigit (byte.toNat % 16)]

/-- The loop over `data_[first]` to `data_[last - 1]`. -/
def writeBytes (uuid : UUID) (first last : ℕ) : List UInt8 :=
  ((uuid.data.take last).drop first).flatMap writeByte

def toString (uuid : UUID) : List UInt8 :=
  uuid.writeBytes 0 4 ++ [45] ++ uuid.writeBytes 4 6 ++ [45] ++ uuid.writeBytes 6 8 ++ [45] ++
    uuid.writeBytes 8 10 ++ [45] ++ uuid.writeBytes 10 16

def toCompactString (uuid : UUID) : List UInt8 :=
  uuid.data.flatMap writeByte

end UUID

end DarwinCore
