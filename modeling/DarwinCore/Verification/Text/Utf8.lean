import DarwinCore.Model.Text.Encoding
import Mathlib.Tactic.NormNum

/-! # The UTF-8 forms

What `encodeUtf8Char` makes of a code point, and how its bytes lead back to it. -/

namespace DarwinCore.Text

open Scan

/-! ## Bits as numbers -/

theorem or_toNat {a b : UInt32} (m k : ℕ) (ha : a.toNat = m * 2 ^ k) (hb : b.toNat < 2 ^ k) :
    (a ||| b).toNat = a.toNat + b.toNat := by
  rw [UInt32.toNat_or, ha, ← Nat.shiftLeft_eq, Nat.shiftLeft_add_eq_or_of_lt hb]

theorem masked_toNat (c : UInt8) {m : UInt8} (j : ℕ) (hm : m.toNat = 2 ^ j - 1) :
    (c &&& m).toUInt32.toNat = c.toNat % 2 ^ j := by
  rw [UInt8.toNat_toUInt32, UInt8.toNat_and, hm]
  exact Nat.and_two_pow_sub_one_eq_mod c.toNat j

theorem shifted_toNat (c : UInt8) {m : UInt8} (j : ℕ) {k : UInt32} (hm : m.toNat = 2 ^ j - 1)
    (hk : k.toNat < 32) (hjk : j + k.toNat ≤ 32) :
    ((c &&& m).toUInt32 <<< k).toNat = c.toNat % 2 ^ j * 2 ^ k.toNat := by
  have hlow : c.toNat % 2 ^ j < 2 ^ j := Nat.mod_lt _ (Nat.two_pow_pos j)
  have hfits : c.toNat % 2 ^ j * 2 ^ k.toNat < 2 ^ 32 := by
    calc c.toNat % 2 ^ j * 2 ^ k.toNat < 2 ^ j * 2 ^ k.toNat :=
          Nat.mul_lt_mul_of_pos_right hlow (Nat.two_pow_pos _)
      _ = 2 ^ (j + k.toNat) := (Nat.pow_add 2 j k.toNat).symm
      _ ≤ 2 ^ 32 := Nat.pow_le_pow_right (by decide) hjk
  rw [UInt32.toNat_shiftLeft, masked_toNat c j hm, Nat.mod_eq_of_lt hk, Nat.shiftLeft_eq,
    Nat.mod_eq_of_lt hfits]

theorem shiftRight_toNat (a : UInt32) {k : UInt32} (hk : k.toNat < 32) :
    (a >>> k).toNat = a.toNat / 2 ^ k.toNat := by
  rw [UInt32.toNat_shiftRight, Nat.mod_eq_of_lt hk, Nat.shiftRight_eq_div_pow]

/-! ## Reading the forms -/

private theorem twoBytes_toNat (c c₁ : UInt8) :
    (twoBytes c c₁).toNat = c.toNat % 32 * 64 + c₁.toNat % 64 := by
  have hc := shifted_toNat c 5 (m := 0x1F) (k := 6) rfl (by decide) (by decide)
  have hc₁ := masked_toNat c₁ 6 (m := 0x3F) rfl
  have hlow : c₁.toNat % 2 ^ 6 < 2 ^ 6 := Nat.mod_lt _ (by decide)
  rw [twoBytes, or_toNat _ 6 hc (hc₁ ▸ hlow), hc, hc₁]
  rfl

private theorem threeBytes_toNat (c c₁ c₂ : UInt8) :
    (threeBytes c c₁ c₂).toNat =
      c.toNat % 16 * 4096 + c₁.toNat % 64 * 64 + c₂.toNat % 64 := by
  have hc := shifted_toNat c 4 (m := 0x0F) (k := 12) rfl (by decide) (by decide)
  have hc₁ := shifted_toNat c₁ 6 (m := 0x3F) (k := 6) rfl (by decide) (by decide)
  have hc₂ := masked_toNat c₂ 6 (m := 0x3F) rfl
  rw [show (12 : UInt32).toNat = 12 from rfl] at hc
  rw [show (6 : UInt32).toNat = 6 from rfl] at hc₁
  have hhigh := or_toNat (c.toNat % 2 ^ 4) 12 hc
    (by omega : ((c₁ &&& 0x3F).toUInt32 <<< 6).toNat < 2 ^ 12)
  have hall := or_toNat (c.toNat % 2 ^ 4 * 2 ^ 6 + c₁.toNat % 2 ^ 6) 6
    (by omega : (((c &&& 0x0F).toUInt32 <<< 12) ||| ((c₁ &&& 0x3F).toUInt32 <<< 6)).toNat = _)
    (by omega : (c₂ &&& 0x3F).toUInt32.toNat < 2 ^ 6)
  rw [threeBytes]
  omega

private theorem fourBytes_toNat (c c₁ c₂ c₃ : UInt8) :
    (fourBytes c c₁ c₂ c₃).toNat = c.toNat % 8 * 262144 + c₁.toNat % 64 * 4096 +
      c₂.toNat % 64 * 64 + c₃.toNat % 64 := by
  have hc := shifted_toNat c 3 (m := 0x07) (k := 18) rfl (by decide) (by decide)
  have hc₁ := shifted_toNat c₁ 6 (m := 0x3F) (k := 12) rfl (by decide) (by decide)
  have hc₂ := shifted_toNat c₂ 6 (m := 0x3F) (k := 6) rfl (by decide) (by decide)
  have hc₃ := masked_toNat c₃ 6 (m := 0x3F) rfl
  rw [show (18 : UInt32).toNat = 18 from rfl] at hc
  rw [show (12 : UInt32).toNat = 12 from rfl] at hc₁
  rw [show (6 : UInt32).toNat = 6 from rfl] at hc₂
  have hhigh := or_toNat (c.toNat % 2 ^ 3) 18 hc
    (by omega : ((c₁ &&& 0x3F).toUInt32 <<< 12).toNat < 2 ^ 18)
  have hmid := or_toNat (c.toNat % 2 ^ 3 * 2 ^ 6 + c₁.toNat % 2 ^ 6) 12
    (by omega : (((c &&& 0x07).toUInt32 <<< 18) ||| ((c₁ &&& 0x3F).toUInt32 <<< 12)).toNat = _)
    (by omega : ((c₂ &&& 0x3F).toUInt32 <<< 6).toNat < 2 ^ 12)
  have hall := or_toNat
    (c.toNat % 2 ^ 3 * 2 ^ 12 + c₁.toNat % 2 ^ 6 * 2 ^ 6 + c₂.toNat % 2 ^ 6) 6
    (by omega : (((c &&& 0x07).toUInt32 <<< 18) ||| ((c₁ &&& 0x3F).toUInt32 <<< 12) |||
      ((c₂ &&& 0x3F).toUInt32 <<< 6)).toNat = _)
    (by omega : (c₃ &&& 0x3F).toUInt32.toNat < 2 ^ 6)
  rw [fourBytes]
  omega

theorem utf8CharLength_eq (c : UInt8) : utf8CharLength c =
    if c.toNat < 0x80 then 1 else if c.toNat < 0xC0 then 0 else if c.toNat < 0xE0 then 2
    else if c.toNat < 0xF0 then 3 else if c.toNat < 0xF8 then 4 else 0 := by
  have hall : ∀ n : Fin 256, utf8CharLength (UInt8.ofNat n) =
      if (n : ℕ) < 0x80 then 1 else if (n : ℕ) < 0xC0 then 0 else if (n : ℕ) < 0xE0 then 2
      else if (n : ℕ) < 0xF0 then 3 else if (n : ℕ) < 0xF8 then 4 else 0 := by decide +kernel
  have hc := hall ⟨c.toNat, c.toNat_lt⟩
  rwa [UInt8.ofNat_toNat] at hc

theorem isTail_iff (c : UInt8) : c &&& 0xC0 = 0x80 ↔ 0x80 ≤ c.toNat ∧ c.toNat < 0xC0 := by
  have hall : ∀ n : Fin 256, UInt8.ofNat n &&& 0xC0 = 0x80 ↔ 0x80 ≤ (n : ℕ) ∧ (n : ℕ) < 0xC0 := by
    decide +kernel
  have hc := hall ⟨c.toNat, c.toNat_lt⟩
  rwa [UInt8.ofNat_toNat] at hc

/-! ## Writing the forms -/

private theorem leadByte_toNat {mark bits : UInt32} (m k : ℕ) (hmark : mark.toNat = m * 2 ^ k)
    (hbits : bits.toNat < 2 ^ k) (hfits : mark.toNat + bits.toNat < 256) :
    (leadByte mark bits).toNat = mark.toNat + bits.toNat := by
  rw [leadByte, UInt32.toNat_toUInt8, or_toNat m k hmark hbits]
  exact Nat.mod_eq_of_lt hfits

private theorem tailByte_toNat (bits : UInt32) :
    (tailByte bits).toNat = 0x80 + bits.toNat % 64 := by
  have hlow : (bits &&& 0x3F).toNat = bits.toNat % 64 := by
    rw [UInt32.toNat_and]
    exact Nat.and_two_pow_sub_one_eq_mod bits.toNat 6
  have hmark : (0x80 : UInt32).toNat = 2 * 2 ^ 6 := rfl
  have hor := or_toNat 2 6 hmark (by omega : (bits &&& 0x3F).toNat < 2 ^ 6)
  rw [tailByte, UInt32.toNat_toUInt8, hor]
  omega

/-- `bytes` is the form of a code point below `0x200000`. -/
inductive Form (cp : UInt32) : List UInt8 → Prop where
  | one {c : UInt8} (hcp : cp.toNat < 0x80) (hc : c.toNat = cp.toNat) : Form cp [c]
  | two {c c₁ : UInt8} (hle : 0x80 ≤ cp.toNat) (hlt : cp.toNat < 0x800)
      (hc : c.toNat = 0xC0 + cp.toNat / 64) (hc₁ : c₁.toNat = 0x80 + cp.toNat % 64) :
      Form cp [c, c₁]
  | three {c c₁ c₂ : UInt8} (hle : 0x800 ≤ cp.toNat) (hlt : cp.toNat < 0x10000)
      (hc : c.toNat = 0xE0 + cp.toNat / 4096) (hc₁ : c₁.toNat = 0x80 + cp.toNat / 64 % 64)
      (hc₂ : c₂.toNat = 0x80 + cp.toNat % 64) : Form cp [c, c₁, c₂]
  | four {c c₁ c₂ c₃ : UInt8} (hle : 0x10000 ≤ cp.toNat) (hlt : cp.toNat < 0x200000)
      (hc : c.toNat = 0xF0 + cp.toNat / 262144) (hc₁ : c₁.toNat = 0x80 + cp.toNat / 4096 % 64)
      (hc₂ : c₂.toNat = 0x80 + cp.toNat / 64 % 64) (hc₃ : c₃.toNat = 0x80 + cp.toNat % 64) :
      Form cp [c, c₁, c₂, c₃]

theorem encodeUtf8Char_form {cp : UInt32} (hcp : cp.toNat < 0x200000) :
    Form cp (encodeUtf8Char cp) := by
  have hsix : (cp >>> 6).toNat = cp.toNat / 64 := shiftRight_toNat cp (by decide)
  have htwelve : (cp >>> 12).toNat = cp.toNat / 4096 := shiftRight_toNat cp (by decide)
  have heighteen : (cp >>> 18).toNat = cp.toNat / 262144 := shiftRight_toNat cp (by decide)
  rw [encodeUtf8Char]
  split_ifs with h1 h2 h3
  · have hlt : cp.toNat < 0x80 := UInt32.lt_iff_toNat_lt.mp h1
    refine .one hlt ?_
    rw [UInt32.toNat_toUInt8]
    omega
  · have hle : 0x80 ≤ cp.toNat := Nat.le_of_not_lt fun h => h1 (UInt32.lt_iff_toNat_lt.mpr h)
    have hlt : cp.toNat < 0x800 := UInt32.lt_iff_toNat_lt.mp h2
    refine .two hle hlt ?_ (tailByte_toNat cp)
    rw [leadByte_toNat 6 5 rfl (by omega)
      (by rw [show (0xC0 : UInt32).toNat = 0xC0 from rfl]; omega),
      hsix]
    rfl
  · have hle : 0x800 ≤ cp.toNat := Nat.le_of_not_lt fun h => h2 (UInt32.lt_iff_toNat_lt.mpr h)
    have hlt : cp.toNat < 0x10000 := UInt32.lt_iff_toNat_lt.mp h3
    refine .three hle hlt ?_ ?_ (tailByte_toNat cp)
    · rw [leadByte_toNat 14 4 rfl (by omega)
        (by rw [show (0xE0 : UInt32).toNat = 0xE0 from rfl]; omega), htwelve]
      rfl
    · rw [tailByte_toNat, hsix]
  · have hle : 0x10000 ≤ cp.toNat := Nat.le_of_not_lt fun h => h3 (UInt32.lt_iff_toNat_lt.mpr h)
    refine .four hle hcp ?_ ?_ ?_ (tailByte_toNat cp)
    · rw [leadByte_toNat 30 3 rfl (by omega)
        (by rw [show (0xF0 : UInt32).toNat = 0xF0 from rfl]; omega), heighteen]
      rfl
    · rw [tailByte_toNat, htwelve]
    · rw [tailByte_toNat, hsix]

namespace Form

variable {cp : UInt32} {c : UInt8} {bytes tail : List UInt8}

/-- The first byte of a form gives its length, and the others are marked. -/
theorem split (h : Form cp bytes) : ∃ c tail, bytes = c :: tail ∧
    utf8CharLength c = bytes.length ∧ ∀ byte ∈ tail, byte &&& 0xC0 = 0x80 := by
  have htail {byte : UInt8} {n : ℕ} (hbyte : byte.toNat = 0x80 + n % 64) :
      byte &&& 0xC0 = 0x80 := by
    rw [isTail_iff]
    omega
  cases h with
  | @one c hcp hc =>
    refine ⟨c, [], rfl, ?_, nofun⟩
    rw [utf8CharLength_eq, if_pos (by omega)]
    rfl
  | @two c c₁ hle hlt hc hc₁ =>
    refine ⟨c, [c₁], rfl, ?_, by simpa using htail hc₁⟩
    rw [utf8CharLength_eq, if_neg (by omega), if_neg (by omega), if_pos (by omega)]
    rfl
  | @three c c₁ c₂ hle hlt hc hc₁ hc₂ =>
    refine ⟨c, [c₁, c₂], rfl, ?_, by simpa using ⟨htail hc₁, htail hc₂⟩⟩
    rw [utf8CharLength_eq, if_neg (by omega), if_neg (by omega), if_neg (by omega),
      if_pos (by omega)]
    rfl
  | @four c c₁ c₂ c₃ hle hlt hc hc₁ hc₂ hc₃ =>
    refine ⟨c, [c₁, c₂, c₃], rfl, ?_, by simpa using ⟨htail hc₁, htail hc₂, htail hc₃⟩⟩
    rw [utf8CharLength_eq, if_neg (by omega), if_neg (by omega), if_neg (by omega),
      if_neg (by omega), if_pos (by omega)]
    rfl

theorem length (h : Form cp (c :: tail)) : utf8CharLength c = (c :: tail).length := by
  obtain ⟨c', tail', heq, hlength, -⟩ := h.split
  obtain ⟨rfl, rfl⟩ := List.cons.inj heq
  exact hlength

/-- Both decoders find the code point, whatever follows. -/
theorem decodes (h : Form cp (c :: tail)) (rest : List UInt8) :
    completeForm c (tail ++ rest) = some cp ∧
      decodeUtf8Char (c :: (tail ++ rest)) = some (cp, (c :: tail).length) := by
  have hlength := h.length
  have hfirst (left : List UInt8) : charAt (c :: left) 0 = some c := rfl
  unfold completeForm decodeUtf8Char
  rw [hfirst, Option.bind_eq_bind, Option.bind_some, hlength]
  cases h with
  | one hcp hc =>
    obtain rfl : c.toUInt32 = cp := UInt32.toNat_inj.mp ((UInt8.toNat_toUInt32 c).trans hc)
    exact ⟨rfl, rfl⟩
  | @two _ c₁ hle hlt hc hc₁ =>
    obtain rfl : twoBytes c c₁ = cp := by
      refine UInt32.toNat_inj.mp ?_
      rw [twoBytes_toNat]
      omega
    exact ⟨rfl, rfl⟩
  | @three _ c₁ c₂ hle hlt hc hc₁ hc₂ =>
    obtain rfl : threeBytes c c₁ c₂ = cp := by
      refine UInt32.toNat_inj.mp ?_
      rw [threeBytes_toNat]
      omega
    exact ⟨rfl, rfl⟩
  | @four _ c₁ c₂ c₃ hle hlt hc hc₁ hc₂ hc₃ =>
    obtain rfl : fourBytes c c₁ c₂ c₃ = cp := by
      refine UInt32.toNat_inj.mp ?_
      rw [fourBytes_toNat]
      omega
    exact ⟨rfl, rfl⟩

end Form

end DarwinCore.Text
