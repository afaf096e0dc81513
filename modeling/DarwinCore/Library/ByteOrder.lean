import Mathlib.Data.List.Basic
import Mathlib.Data.List.Palindrome
import Mathlib.Tactic.Ring

/-! # Fixed-width integers in memory

An integer of `w` bytes is laid out least significant byte first on a little-endian
host and most significant byte first on a big-endian one. -/

namespace ByteOrder

/-! ## Little-endian digits -/

/-- The low `w` base-256 digits of `n`, least significant first. -/
def leBytes : ℕ → ℕ → List UInt8
  | 0, _ => []
  | w + 1, n => UInt8.ofNat n :: leBytes w (n / 256)

/-- The number whose base-256 digits, least significant first, are given. -/
def leValue : List UInt8 → ℕ
  | [] => 0
  | b :: bs => b.toNat + 256 * leValue bs

@[simp] theorem length_leBytes (w n : ℕ) : (leBytes w n).length = w := by
  induction w generalizing n with
  | zero => rfl
  | succ w ih => simp [leBytes, ih]

theorem leValue_leBytes (w n : ℕ) : leValue (leBytes w n) = n % 256 ^ w := by
  induction w generalizing n with
  | zero => simp [leBytes, leValue, Nat.mod_one]
  | succ w ih =>
    have hb : (UInt8.ofNat n).toNat = n % 256 := by simp
    rw [leBytes, leValue, ih, hb, pow_succ, mul_comm (256 ^ w) 256, Nat.mod_mul]

theorem leValue_lt (bs : List UInt8) : leValue bs < 256 ^ bs.length := by
  induction bs with
  | nil => simp [leValue]
  | cons b bs ih =>
    have hb : b.toNat < 256 := b.toNat_lt
    rw [leValue, List.length_cons, pow_succ]
    omega

theorem leBytes_leValue (bs : List UInt8) : leBytes bs.length (leValue bs) = bs := by
  induction bs with
  | nil => rfl
  | cons b bs ih =>
    have hb : b.toNat < 256 := b.toNat_lt
    have hdiv : (b.toNat + 256 * leValue bs) / 256 = leValue bs := by omega
    have hmod : UInt8.ofNat (b.toNat + 256 * leValue bs) = b := by
      apply UInt8.toNat_inj.mp
      simp
    rw [List.length_cons, leBytes, leValue, hdiv, hmod, ih]

/-! ## Host byte order -/

inductive Endian where
  | little
  | big
  deriving DecidableEq, Repr

namespace Endian

/-- The `w` bytes that represent `n` in memory. -/
def encode : Endian → ℕ → ℕ → List UInt8
  | little, w, n => leBytes w n
  | big, w, n => (leBytes w n).reverse

/-- The integer that the given bytes of memory represent. -/
def decode : Endian → List UInt8 → ℕ
  | little, bs => leValue bs
  | big, bs => leValue bs.reverse

@[simp] theorem length_encode (e : Endian) (w n : ℕ) : (e.encode w n).length = w := by
  cases e <;> simp [encode]

theorem decode_encode (e : Endian) {w n : ℕ} (h : n < 256 ^ w) :
    e.decode (e.encode w n) = n := by
  cases e <;> simp [encode, decode, leValue_leBytes, Nat.mod_eq_of_lt h]

theorem encode_decode (e : Endian) (bs : List UInt8) :
    e.encode bs.length (e.decode bs) = bs := by
  cases e with
  | little => exact leBytes_leValue bs
  | big =>
    have h := leBytes_leValue bs.reverse
    rw [List.length_reverse] at h
    rw [encode, decode, h, List.reverse_reverse]

theorem decode_lt (e : Endian) (bs : List UInt8) : e.decode bs < 256 ^ bs.length := by
  cases e with
  | little => exact leValue_lt bs
  | big => simpa [decode] using leValue_lt bs.reverse

/-! ## Reading an integer at an offset -/

/-- The `w`-byte integer stored at offset `off`. -/
def load (e : Endian) (w : ℕ) (mem : List UInt8) (off : ℕ) : ℕ :=
  e.decode ((mem.drop off).take w)

theorem load_encode (e : Endian) {w n : ℕ} (h : n < 256 ^ w) (rest : List UInt8) :
    e.load w (e.encode w n ++ rest) 0 = n := by
  have htake : (e.encode w n ++ rest).take w = e.encode w n :=
    List.take_left' (length_encode e w n)
  rw [load, List.drop_zero, htake, decode_encode e h]

theorem load_lt (e : Endian) (w : ℕ) (mem : List UInt8) (off : ℕ) :
    e.load w mem off < 256 ^ w := by
  have hlt := decode_lt e ((mem.drop off).take w)
  have hlength : ((mem.drop off).take w).length ≤ w := List.length_take_le ..
  exact hlt.trans_le (Nat.pow_le_pow_right (by decide) hlength)

theorem encode_load (e : Endian) {w off : ℕ} {mem : List UInt8} (h : off + w ≤ mem.length) :
    e.encode w (e.load w mem off) = (mem.drop off).take w := by
  have hlength : ((mem.drop off).take w).length = w := by
    rw [List.length_take, List.length_drop]
    omega
  have hdecode := encode_decode e ((mem.drop off).take w)
  rwa [hlength] at hdecode

theorem load_append_right (e : Endian) (w : ℕ) (front rest : List UInt8) {off : ℕ}
    (h : front.length ≤ off) :
    e.load w (front ++ rest) off = e.load w rest (off - front.length) := by
  rw [load, load, List.drop_append, List.drop_eq_nil_of_le h, List.nil_append]

theorem load_append_left (e : Endian) (w : ℕ) (front rest : List UInt8) {off : ℕ}
    (h : off + w ≤ front.length) :
    e.load w (front ++ rest) off = e.load w front off := by
  have hoff : off ≤ front.length := by omega
  have hw : w ≤ (front.drop off).length := by simp; omega
  rw [load, load, List.drop_append_of_le_length hoff, List.take_append_of_le_length hw]

/-! ## Representations shared by both hosts -/

theorem load_encode_at (e e' : Endian) (w n : ℕ) (front rest : List UInt8) :
    e'.load w (front ++ (e.encode w n ++ rest)) front.length = e'.decode (e.encode w n) := by
  rw [load, List.drop_left' rfl, List.take_left' (length_encode e w n)]

/-- A big-endian host reads `n` from what a little-endian host stored exactly when both store
it alike. -/
theorem decode_big_encode_little_iff {w n : ℕ} (h : n < 256 ^ w) :
    big.decode (little.encode w n) = n ↔ little.encode w n = big.encode w n := by
  constructor
  · intro hdecode
    have hencode := encode_decode big (little.encode w n)
    rw [length_encode, hdecode] at hencode
    exact hencode.symm
  · intro hsame
    rw [hsame, decode_encode big h]

end Endian

end ByteOrder
