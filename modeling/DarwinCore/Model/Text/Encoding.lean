import DarwinCore.Library.Scan

/-! # `EncodingConverter`

The loops see what is left of the string from `i` on. -/

namespace DarwinCore.Text

open Scan

/-! ## Code points -/

def utf8CharLength (c : UInt8) : ℕ :=
  if c &&& 0x80 = 0 then 1
  else if c &&& 0xE0 = 0xC0 then 2
  else if c &&& 0xF0 = 0xE0 then 3
  else if c &&& 0xF8 = 0xF0 then 4
  else 0

/-- The code point of a form of two bytes. -/
def twoBytes (c c₁ : UInt8) : UInt32 :=
  ((c &&& 0x1F).toUInt32 <<< 6) ||| (c₁ &&& 0x3F).toUInt32

def threeBytes (c c₁ c₂ : UInt8) : UInt32 :=
  ((c &&& 0x0F).toUInt32 <<< 12) ||| ((c₁ &&& 0x3F).toUInt32 <<< 6) ||| (c₂ &&& 0x3F).toUInt32

def fourBytes (c c₁ c₂ c₃ : UInt8) : UInt32 :=
  ((c &&& 0x07).toUInt32 <<< 18) ||| ((c₁ &&& 0x3F).toUInt32 <<< 12) |||
    ((c₂ &&& 0x3F).toUInt32 <<< 6) ||| (c₃ &&& 0x3F).toUInt32

/-- `str[i + k]`: the null character after the last byte can be read, what follows cannot. -/
def charAt (left : List UInt8) (k : ℕ) : Option UInt8 :=
  (left ++ [0])[k]?

/-- `decodeUtf8Char`: the code point and by how much `i` grows. -/
def decodeUtf8Char (left : List UInt8) : Option (UInt32 × ℕ) := do
  let c ← charAt left 0
  match utf8CharLength c with
  | 1 => some (c.toUInt32, 1)
  | 2 => do
      let c₁ ← charAt left 1
      some (twoBytes c c₁, 2)
  | 3 => do
      let c₁ ← charAt left 1
      let c₂ ← charAt left 2
      some (threeBytes c c₁ c₂, 3)
  | 4 => do
      let c₁ ← charAt left 1
      let c₂ ← charAt left 2
      let c₃ ← charAt left 3
      some (fourBytes c c₁ c₂ c₃, 4)
  | len => some (0, len)

/-- The bytes of `encodeUtf8Char`. -/
def leadByte (mark bits : UInt32) : UInt8 :=
  (mark ||| bits).toUInt8

def tailByte (bits : UInt32) : UInt8 :=
  (0x80 ||| (bits &&& 0x3F)).toUInt8

/-- `encodeUtf8Char`: what it appends. -/
def encodeUtf8Char (cp : UInt32) : List UInt8 :=
  if cp < 0x80 then [cp.toUInt8]
  else if cp < 0x800 then [leadByte 0xC0 (cp >>> 6), tailByte cp]
  else if cp < 0x10000 then [leadByte 0xE0 (cp >>> 12), tailByte (cp >>> 6), tailByte cp]
  else
    [leadByte 0xF0 (cp >>> 18), tailByte (cp >>> 12), tailByte (cp >>> 6), tailByte cp]

/-! ## UTF-16 -/

/-- The code point that `utf8ToUtf16` finds, unless the form is not complete. -/
def completeForm (c : UInt8) (rest : List UInt8) : Option UInt32 :=
  match utf8CharLength c, rest with
  | 1, _ => some c.toUInt32
  | 2, c₁ :: _ => some (twoBytes c c₁)
  | 3, c₁ :: c₂ :: _ => some (threeBytes c c₁ c₂)
  | 4, c₁ :: c₂ :: c₃ :: _ => some (fourBytes c c₁ c₂ c₃)
  | _, _ => none

/-- What `utf8ToUtf16` appends for a code point. -/
def utf16Units (codepoint : UInt32) : List UInt16 :=
  if codepoint ≤ 0xFFFF then [codepoint.toUInt16]
  else
    let codepoint := codepoint - 0x10000
    [((0xD800 : UInt32) + (codepoint >>> 10)).toUInt16,
      ((0xDC00 : UInt32) + (codepoint &&& 0x3FF)).toUInt16]

def utf8ToUtf16Pass (c : UInt8) (rest : List UInt8) (result : List UInt16) :
    Pass (List UInt16) (List UInt16) :=
  match completeForm c rest with
  | none => .advance 1 result
  | some codepoint => .advance (utf8CharLength c) (result ++ utf16Units codepoint)

def utf8ToUtf16 (fuel : ℕ) (utf8 : List UInt8) : Option (List UInt16) :=
  run utf8ToUtf16Pass id fuel utf8 []

/-- The code point at the front of what `utf16ToUtf8` has left, and how many units it takes. -/
def surrogatePair (unit : UInt16) (rest : List UInt16) : UInt32 × ℕ :=
  match rest with
  | [] => (unit.toUInt32, 1)
  | low :: _ =>
      if (0xD800 ≤ unit ∧ unit ≤ 0xDBFF) ∧ 0xDC00 ≤ low ∧ low ≤ 0xDFFF then
        ((0x10000 : UInt32) + ((unit.toUInt32 - 0xD800) <<< 10) + (low.toUInt32 - 0xDC00), 2)
      else (unit.toUInt32, 1)

def utf16ToUtf8Pass (unit : UInt16) (rest : List UInt16) (result : List UInt8) :
    Pass (List UInt8) (List UInt8) :=
  .advance (surrogatePair unit rest).2 (result ++ encodeUtf8Char (surrogatePair unit rest).1)

def utf16ToUtf8 (fuel : ℕ) (utf16 : List UInt16) : Option (List UInt8) :=
  run utf16ToUtf8Pass id fuel utf16 []

/-! ## UTF-32 -/

def utf8ToUtf32Pass (c : UInt8) (rest : List UInt8) (result : List UInt32) :
    Pass (Option (List UInt32)) (List UInt32) :=
  match decodeUtf8Char (c :: rest) with
  | none => .leave none
  | some (cp, len) => .advance len (result ++ [cp])

/-- `utf8ToUtf32`: `some none` stands for a read that is not defined. -/
def utf8ToUtf32 (fuel : ℕ) (utf8 : List UInt8) : Option (Option (List UInt32)) :=
  run utf8ToUtf32Pass some fuel utf8 []

def utf32ToUtf8 (utf32 : List UInt32) : List UInt8 :=
  utf32.foldl (fun result cp => result ++ encodeUtf8Char cp) []

/-! ## Checks -/

def isValidUtf8Pass (c : UInt8) (rest : List UInt8) (_ : Unit) : Pass Bool Unit :=
  let len := utf8CharLength c
  if len = 0 ∨ (c :: rest).length < len then .leave false
  else if (rest.take (len - 1)).any fun byte => byte &&& 0xC0 ≠ 0x80 then .leave false
  else .advance len ()

def isValidUtf8 (fuel : ℕ) (str : List UInt8) : Option Bool :=
  run isValidUtf8Pass (fun _ => true) fuel str ()

def utf8CharCountPass (c : UInt8) (_ : List UInt8) (count : ℕ) : Pass ℕ ℕ :=
  let len := utf8CharLength c
  if len = 0 then .leave count else .advance len (count + 1)

def utf8CharCount (fuel : ℕ) (str : List UInt8) : Option ℕ :=
  run utf8CharCountPass id fuel str 0

end DarwinCore.Text
