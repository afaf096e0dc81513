import DarwinCore.Verification.Text.Utf8

/-! # The converters

Each loop reads the forms that the others write, one code point after the other. -/

namespace DarwinCore.Text

open Scan

/-! ## Reading UTF-8 -/

section Utf8

variable {cp : UInt32} {cps : List UInt32} {fuel : ℕ}

theorem takes_form {ρ σ : Type*} {pass : UInt8 → List UInt8 → σ → Pass ρ σ}
    {read : σ → UInt32 → σ} (hcp : cp.toNat < 0x200000) (rest : List UInt8)
    (hpass : ∀ c tail state, Form cp (c :: tail) →
      pass c (tail ++ rest) state = .advance (c :: tail).length (read state cp)) :
    Takes pass encodeUtf8Char read cp rest := by
  have hform := encodeUtf8Char_form hcp
  obtain ⟨c, tail, heq, -⟩ := hform.split
  rw [heq] at hform
  exact ⟨c, tail, heq, fun state => heq ▸ hpass c tail state hform⟩

theorem utf8ToUtf16_takes (hcp : cp.toNat < 0x200000) (rest : List UInt8) :
    Takes utf8ToUtf16Pass encodeUtf8Char (fun result cp => result ++ utf16Units cp) cp rest := by
  refine takes_form hcp rest fun c tail result hform => ?_
  rw [utf8ToUtf16Pass, (hform.decodes rest).1, hform.length]

theorem utf8ToUtf32_takes (hcp : cp.toNat < 0x200000) (rest : List UInt8) :
    Takes utf8ToUtf32Pass encodeUtf8Char (fun result cp => result ++ [cp]) cp rest := by
  refine takes_form hcp rest fun c tail result hform => ?_
  rw [utf8ToUtf32Pass, (hform.decodes rest).2]

/-- The bytes that `isValidUtf8` takes in a pass. -/
def Group (g : List UInt8) : Prop :=
  ∃ c tail, g = c :: tail ∧ utf8CharLength c = g.length ∧ ∀ byte ∈ tail, byte &&& 0xC0 = 0x80

theorem isValidUtf8Pass_group {c : UInt8} {tail rest : List UInt8} (hg : Group (c :: tail)) :
    isValidUtf8Pass c (tail ++ rest) () = .advance (c :: tail).length () := by
  obtain ⟨c', tail', heq, hlength, htail⟩ := hg
  obtain ⟨rfl, rfl⟩ := List.cons.inj heq
  have hmarked : ((tail ++ rest).take tail.length).any (fun byte => byte &&& 0xC0 ≠ 0x80) =
      false := by
    rw [List.take_left, List.any_eq_false]
    intro byte hbyte
    simpa using htail byte hbyte
  rw [isValidUtf8Pass, hlength]
  simp only [List.length_cons, Nat.add_sub_cancel, hmarked]
  simp

theorem isValidUtf8_takes (hcp : cp.toNat < 0x200000) (rest : List UInt8) :
    Takes isValidUtf8Pass encodeUtf8Char (fun _ _ => ()) cp rest :=
  takes_form hcp rest fun _ _ _ hform => isValidUtf8Pass_group hform.split

theorem utf8CharCount_takes (hcp : cp.toNat < 0x200000) (rest : List UInt8) :
    Takes utf8CharCountPass encodeUtf8Char (fun count _ => count + 1) cp rest := by
  refine takes_form hcp rest fun c tail count hform => ?_
  rw [utf8CharCountPass, hform.length]
  rfl

theorem length_le_encoded (hcps : ∀ cp ∈ cps, cp.toNat < 0x200000) :
    cps.length ≤ (cps.flatMap encodeUtf8Char).length := by
  refine length_le_flatMap fun cp hcp => ?_
  obtain ⟨c, tail, heq, -⟩ := (encodeUtf8Char_form (hcps cp hcp)).split
  rw [heq]
  exact List.cons_ne_nil c tail

theorem run_encoded {ρ σ : Type*} {pass : UInt8 → List UInt8 → σ → Pass ρ σ} {finish : σ → ρ}
    {read : σ → UInt32 → σ} {state : σ} (hcps : ∀ cp ∈ cps, cp.toNat < 0x200000)
    (htakes : ∀ cp : UInt32, cp.toNat < 0x200000 → ∀ rest,
      Takes pass encodeUtf8Char read cp rest)
    (hfuel : (cps.flatMap encodeUtf8Char).length < fuel) :
    run pass finish fuel (cps.flatMap encodeUtf8Char) state =
      some (finish (cps.foldl read state)) :=
  run_flatMap (fun cp hcp rest => htakes cp (hcps cp hcp) rest)
    (lt_of_le_of_lt (length_le_encoded hcps) hfuel)

theorem utf8ToUtf16_encoded (hcps : ∀ cp ∈ cps, cp.toNat < 0x200000)
    (hfuel : (cps.flatMap encodeUtf8Char).length < fuel) :
    utf8ToUtf16 fuel (cps.flatMap encodeUtf8Char) = some (cps.flatMap utf16Units) := by
  rw [utf8ToUtf16, run_encoded hcps (fun _ => utf8ToUtf16_takes) hfuel, foldl_append]
  rfl

theorem utf8ToUtf32_encoded (hcps : ∀ cp ∈ cps, cp.toNat < 0x200000)
    (hfuel : (cps.flatMap encodeUtf8Char).length < fuel) :
    utf8ToUtf32 fuel (cps.flatMap encodeUtf8Char) = some (some cps) := by
  rw [utf8ToUtf32, run_encoded hcps (fun _ => utf8ToUtf32_takes) hfuel, foldl_append,
    List.nil_append, List.flatMap_singleton']

theorem isValidUtf8_encoded (hcps : ∀ cp ∈ cps, cp.toNat < 0x200000)
    (hfuel : (cps.flatMap encodeUtf8Char).length < fuel) :
    isValidUtf8 fuel (cps.flatMap encodeUtf8Char) = some true := by
  rw [isValidUtf8, run_encoded hcps (fun _ => isValidUtf8_takes) hfuel]

theorem utf8CharCount_encoded (hcps : ∀ cp ∈ cps, cp.toNat < 0x200000)
    (hfuel : (cps.flatMap encodeUtf8Char).length < fuel) :
    utf8CharCount fuel (cps.flatMap encodeUtf8Char) = some cps.length := by
  rw [utf8CharCount, run_encoded hcps (fun _ => utf8CharCount_takes) hfuel, List.foldl_add_const,
    Nat.zero_add, Nat.one_mul]
  rfl

end Utf8

/-! ## Reading UTF-16 -/

/-- `units` is the form of a code point: one unit, which may be a lone surrogate, or a pair. -/
inductive Units (cp : UInt32) : List UInt16 → Prop where
  | one {unit : UInt16} (hunit : unit.toNat = cp.toNat) : Units cp [unit]
  | pair {high low : UInt16} (hle : 0x10000 ≤ cp.toNat) (hlt : cp.toNat < 0x110000)
      (hhigh : high.toNat = 0xD800 + (cp.toNat - 0x10000) / 0x400)
      (hlow : low.toNat = 0xDC00 + (cp.toNat - 0x10000) % 0x400) : Units cp [high, low]

section Utf16

variable {cp : UInt32} {units units' : List UInt16}

theorem Units.unique (h : Units cp units) (h' : Units cp units') : units = units' := by
  cases h with
  | @one unit hunit =>
    have hfits := unit.toNat_lt
    cases h' with
    | one hunit' => rw [UInt16.toNat_inj.mp (hunit.trans hunit'.symm)]
    | pair hle hlt hhigh hlow => omega
  | pair hle hlt hhigh hlow =>
    cases h' with
    | @one unit hunit =>
      have hfits := unit.toNat_lt
      omega
    | pair hle' hlt' hhigh' hlow' =>
      rw [UInt16.toNat_inj.mp (hhigh.trans hhigh'.symm),
        UInt16.toNat_inj.mp (hlow.trans hlow'.symm)]

theorem utf16Units_units (hcp : cp.toNat < 0x110000) : Units cp (utf16Units cp) := by
  rw [utf16Units]
  split_ifs with hle
  · have hle : cp.toNat ≤ 0xFFFF := UInt32.le_iff_toNat_le.mp hle
    refine .one ?_
    rw [UInt32.toNat_toUInt16]
    omega
  · have hlt : 0xFFFF < cp.toNat := Nat.lt_of_not_le fun h => hle (UInt32.le_iff_toNat_le.mpr h)
    have hsub : (cp - 0x10000).toNat = cp.toNat - 0x10000 :=
      UInt32.toNat_sub_of_le _ _ (UInt32.le_iff_toNat_le.mpr hlt)
    have hshift : ((cp - 0x10000) >>> 10).toNat = (cp.toNat - 0x10000) / 0x400 := by
      rw [← hsub]
      exact shiftRight_toNat _ (by decide)
    have hmask : ((cp - 0x10000) &&& 0x3FF).toNat = (cp.toNat - 0x10000) % 0x400 := by
      rw [← hsub, UInt32.toNat_and]
      exact Nat.and_two_pow_sub_one_eq_mod _ 10
    refine .pair hlt hcp ?_ ?_
    · rw [UInt32.toNat_toUInt16, UInt32.toNat_add, hshift,
        show (0xD800 : UInt32).toNat = 0xD800 from rfl]
      omega
    · rw [UInt32.toNat_toUInt16, UInt32.toNat_add, hmask,
        show (0xDC00 : UInt32).toNat = 0xDC00 from rfl]
      omega

def IsHigh (unit : UInt16) : Prop :=
  0xD800 ≤ unit.toNat ∧ unit.toNat ≤ 0xDBFF

def IsLow (unit : UInt16) : Prop :=
  0xDC00 ≤ unit.toNat ∧ unit.toNat ≤ 0xDFFF

theorem surrogates_iff (high low : UInt16) :
    ((0xD800 ≤ high ∧ high ≤ 0xDBFF) ∧ 0xDC00 ≤ low ∧ low ≤ 0xDFFF) ↔ IsHigh high ∧ IsLow low := by
  simp only [UInt16.le_iff_toNat_le]
  exact Iff.rfl

theorem joined_toNat {high low : UInt16} (hhigh : IsHigh high) (hlow : IsLow low) :
    ((0x10000 : UInt32) + ((high.toUInt32 - 0xD800) <<< 10) + (low.toUInt32 - 0xDC00)).toNat =
      0x10000 + (high.toNat - 0xD800) * 0x400 + (low.toNat - 0xDC00) := by
  obtain ⟨hhigh, hhigh'⟩ := hhigh
  obtain ⟨hlow, hlow'⟩ := hlow
  have hlast : (low.toUInt32 - 0xDC00).toNat = low.toNat - 0xDC00 :=
    UInt32.toNat_sub_of_le _ _ (UInt32.le_iff_toNat_le.mpr hlow)
  have hfirst : (high.toUInt32 - 0xD800).toNat = high.toNat - 0xD800 :=
    UInt32.toNat_sub_of_le _ _ (UInt32.le_iff_toNat_le.mpr hhigh)
  have hshift : ((high.toUInt32 - 0xD800) <<< 10).toNat = (high.toNat - 0xD800) * 0x400 := by
    rw [UInt32.toNat_shiftLeft, hfirst, Nat.shiftLeft_eq]
    exact Nat.mod_eq_of_lt (by omega : (high.toNat - 0xD800) * 0x400 < 2 ^ 32)
  rw [UInt32.toNat_add, UInt32.toNat_add, hlast, hshift,
    show (0x10000 : UInt32).toNat = 0x10000 from rfl]
  omega

/-- What is found at the front of a string is a code point in its form. -/
theorem surrogatePair_units (unit : UInt16) (rest : List UInt16) :
    ∃ cp : UInt32, ∃ units left, cp.toNat < 0x110000 ∧ Units cp units ∧
      unit :: rest = units ++ left ∧ surrogatePair unit rest = (cp, units.length) := by
  have hsingle : unit.toUInt32.toNat = unit.toNat := UInt16.toNat_toUInt32 unit
  have hfits := unit.toNat_lt
  cases rest with
  | nil => exact ⟨unit.toUInt32, [unit], [], by omega, .one hsingle.symm, rfl, rfl⟩
  | cons low rest =>
    rw [surrogatePair]
    by_cases h : IsHigh unit ∧ IsLow low
    · rw [if_pos ((surrogates_iff unit low).mpr h)]
      have hcp := joined_toNat h.1 h.2
      obtain ⟨⟨hhigh, hhigh'⟩, hlow, hlow'⟩ := h
      refine ⟨_, [unit, low], rest, ?_, .pair ?_ ?_ ?_ ?_, rfl, rfl⟩ <;> rw [hcp] <;> omega
    · rw [if_neg fun hboth => h ((surrogates_iff unit low).mp hboth)]
      exact ⟨unit.toUInt32, [unit], low :: rest, by omega, .one hsingle.symm, rfl, rfl⟩

/-- The form of a code point that is no surrogate can be told from what follows. -/
theorem surrogatePair_scalar (hunits : Units cp units)
    (hscalar : cp.toNat < 0xD800 ∨ 0xE000 ≤ cp.toNat) (rest : List UInt16) :
    ∃ unit others, units = unit :: others ∧
      surrogatePair unit (others ++ rest) = (cp, units.length) := by
  cases hunits with
  | @one unit hunit =>
    refine ⟨unit, [], rfl, ?_⟩
    have hvalue : unit.toUInt32 = cp :=
      UInt32.toNat_inj.mp ((UInt16.toNat_toUInt32 unit).trans hunit)
    cases rest with
    | nil =>
      rw [List.nil_append, surrogatePair, hvalue]
      rfl
    | cons low rest =>
      have hnot : ¬(IsHigh unit ∧ IsLow low) := by
        rintro ⟨⟨hhigh, hhigh'⟩, -⟩
        omega
      rw [List.nil_append, surrogatePair,
        if_neg fun hboth => hnot ((surrogates_iff unit low).mp hboth), hvalue]
      rfl
  | @pair high low hle hlt hhigh hlow =>
    refine ⟨high, [low], rfl, ?_⟩
    have hIsHigh : IsHigh high := ⟨by omega, by omega⟩
    have hIsLow : IsLow low := ⟨by omega, by omega⟩
    have hcp := joined_toNat hIsHigh hIsLow
    rw [List.singleton_append, surrogatePair,
      if_pos ((surrogates_iff high low).mpr ⟨hIsHigh, hIsLow⟩)]
    refine Prod.ext (UInt32.toNat_inj.mp (hcp.trans ?_)) rfl
    dsimp only
    omega

theorem utf16ToUtf8_takes (unit : UInt16) (rest : List UInt16) :
    ∃ cp left, cp.toNat < 0x110000 ∧ utf16Units cp ++ left = unit :: rest ∧
      Takes utf16ToUtf8Pass utf16Units (fun result cp => result ++ encodeUtf8Char cp) cp left := by
  obtain ⟨cp, units, left, hcp, hunits, hsplit, hpair⟩ := surrogatePair_units unit rest
  obtain rfl := hunits.unique (utf16Units_units hcp)
  refine ⟨cp, left, hcp, hsplit.symm, ?_⟩
  cases hform : utf16Units cp with
  | nil =>
    rw [hform] at hunits
    cases hunits
  | cons first others =>
    rw [hform, List.cons_append] at hsplit
    obtain ⟨rfl, rfl⟩ := List.cons.inj hsplit
    refine ⟨unit, others, hform, fun result => ?_⟩
    rw [utf16ToUtf8Pass, hpair]

/-- Every string is the UTF-16 form of some code points, which go into UTF-8. -/
theorem utf16ToUtf8_spec (utf16 : List UInt16) :
    ∃ cps : List UInt32, (∀ cp ∈ cps, cp.toNat < 0x110000) ∧ cps.flatMap utf16Units = utf16 ∧
      ∀ fuel, utf16.length < fuel →
        utf16ToUtf8 fuel utf16 = some (cps.flatMap encodeUtf8Char) := by
  obtain ⟨cps, hcps, hsplit, hrun⟩ := run_items utf16 utf16ToUtf8_takes
  refine ⟨cps, hcps, hsplit, fun fuel hfuel => ?_⟩
  rw [utf16ToUtf8, hrun fuel [] hfuel, foldl_append]
  rfl

theorem utf16ToUtf8_takes_scalar (hcp : cp.toNat < 0x110000)
    (hscalar : cp.toNat < 0xD800 ∨ 0xE000 ≤ cp.toNat) (rest : List UInt16) :
    Takes utf16ToUtf8Pass utf16Units (fun result cp => result ++ encodeUtf8Char cp) cp rest := by
  obtain ⟨unit, others, hform, hpair⟩ :=
    surrogatePair_scalar (utf16Units_units hcp) hscalar rest
  refine ⟨unit, others, hform, fun result => ?_⟩
  rw [utf16ToUtf8Pass, hpair]

end Utf16

/-! ## Round trips -/

/-- A string of UTF-16 comes back from UTF-8. -/
theorem utf16_round_trip (s : List UInt16) :
    ∃ b, (∀ fuel, s.length < fuel → utf16ToUtf8 fuel s = some b) ∧
      ∀ fuel, b.length < fuel → utf8ToUtf16 fuel b = some s := by
  obtain ⟨cps, hcps, rfl, hrun⟩ := utf16ToUtf8_spec s
  have hsmall : ∀ cp ∈ cps, cp.toNat < 0x200000 := fun cp hcp => by
    have hlt := hcps cp hcp
    omega
  exact ⟨_, hrun, fun fuel hfuel => utf8ToUtf16_encoded hsmall hfuel⟩

/-- A lone surrogate at the end. -/
example : utf16ToUtf8 3 [0x41, 0xD800] = some [0x41, 0xED, 0xA0, 0x80] ∧
    utf8ToUtf16 5 [0x41, 0xED, 0xA0, 0x80] = some [0x41, 0xD800] := by
  decide

def standardUtf16 (c : Char) : List UInt16 :=
  if c.toNat < 0x10000 then [UInt16.ofNat c.toNat]
  else
    [UInt16.ofNat (0xD800 + (c.toNat - 0x10000) / 0x400),
      UInt16.ofNat (0xDC00 + (c.toNat - 0x10000) % 0x400)]

theorem scalar_bounds (c : Char) :
    c.val.toNat < 0x110000 ∧ (c.val.toNat < 0xD800 ∨ 0xE000 ≤ c.val.toNat) := by
  rcases c.valid with h | ⟨h, h'⟩
  · exact ⟨by omega, .inl h⟩
  · exact ⟨h', .inr h⟩

theorem utf16Units_standard (c : Char) : utf16Units c.val = standardUtf16 c := by
  obtain ⟨hlt, -⟩ := scalar_bounds c
  refine (utf16Units_units hlt).unique ?_
  rw [standardUtf16]
  change c.val.toNat < 0x110000 at hlt
  have hsame : c.toNat = c.val.toNat := rfl
  have hsize : UInt16.size = 0x10000 := rfl
  split_ifs with h
  · exact .one (UInt16.toNat_ofNat_of_lt' (by omega))
  · exact .pair (by omega) hlt (UInt16.toNat_ofNat_of_lt' (by omega))
      (UInt16.toNat_ofNat_of_lt' (by omega))

/-- The converters agree on Unicode text. -/
theorem converters_agree (u : List Char) :
    ∃ b, b = utf32ToUtf8 (u.map Char.val) ∧
      (∀ fuel, b.length < fuel →
        utf8ToUtf32 fuel b = some (some (u.map Char.val)) ∧ isValidUtf8 fuel b = some true ∧
          utf8CharCount fuel b = some u.length ∧
          utf8ToUtf16 fuel b = some (u.flatMap standardUtf16)) ∧
      ∀ fuel, (u.flatMap standardUtf16).length < fuel →
        utf16ToUtf8 fuel (u.flatMap standardUtf16) = some b := by
  have hb : utf32ToUtf8 (u.map Char.val) = (u.map Char.val).flatMap encodeUtf8Char := by
    rw [utf32ToUtf8, foldl_append, List.nil_append]
  have hunits : u.flatMap standardUtf16 = (u.map Char.val).flatMap utf16Units := by
    rw [List.flatMap_map]
    exact List.flatMap_congr fun c _ => (utf16Units_standard c).symm
  have hbounds : ∀ cp ∈ u.map Char.val,
      cp.toNat < 0x110000 ∧ (cp.toNat < 0xD800 ∨ 0xE000 ≤ cp.toNat) := by
    intro cp hcp
    obtain ⟨c, -, rfl⟩ := List.mem_map.mp hcp
    exact scalar_bounds c
  have hsmall : ∀ cp ∈ u.map Char.val, cp.toNat < 0x200000 := fun cp hcp => by
    have hlt := (hbounds cp hcp).1
    omega
  refine ⟨_, rfl, ?_⟩
  rw [hb, hunits]
  refine ⟨fun fuel hfuel => ⟨utf8ToUtf32_encoded hsmall hfuel, isValidUtf8_encoded hsmall hfuel,
    ?_, utf8ToUtf16_encoded hsmall hfuel⟩, fun fuel hfuel => ?_⟩
  · rw [utf8CharCount_encoded hsmall hfuel, List.length_map]
  · have hlength : (u.map Char.val).length < fuel := by
      refine lt_of_le_of_lt (length_le_flatMap fun cp hcp => ?_) hfuel
      have hform := utf16Units_units (hbounds cp hcp).1
      intro hnil
      rw [hnil] at hform
      cases hform
    rw [utf16ToUtf8, run_flatMap (fun cp hcp rest =>
      utf16ToUtf8_takes_scalar (hbounds cp hcp).1 (hbounds cp hcp).2 rest) hlength, foldl_append]
    rfl

/-! ## Decoding -/

/-! ### Decoding any bytes

`utf8ToUtf32` takes as many bytes as the first byte of each form asks for, without a look at what
is there. -/

/-! #### What is read -/

/-- `decodeUtf8Char` for a string whose characters are found by `read`. -/
def decodeWith (read : ℕ → Option UInt8) : Option (UInt32 × ℕ) := do
  let c ← read 0
  match utf8CharLength c with
  | 1 => some (c.toUInt32, 1)
  | 2 => do
      let c₁ ← read 1
      some (twoBytes c c₁, 2)
  | 3 => do
      let c₁ ← read 1
      let c₂ ← read 2
      some (threeBytes c c₁ c₂, 3)
  | 4 => do
      let c₁ ← read 1
      let c₂ ← read 2
      let c₃ ← read 3
      some (fourBytes c c₁ c₂ c₃, 4)
  | len => some (0, len)

theorem decodeUtf8Char_eq (left : List UInt8) : decodeUtf8Char left = decodeWith (charAt left) :=
  rfl

theorem utf8CharLength_le (c : UInt8) : utf8CharLength c ≤ 4 := by
  rw [utf8CharLength_eq]
  split_ifs <;> omega

section Reading

variable {read : ℕ → Option UInt8} {c : UInt8} {rest : List UInt8} {cp : UInt32} {len : ℕ}

/-- The decoder reads the form that the first byte asks for, and nothing else. -/
theorem decodeWith_length (hc : read 0 = some c) :
    (decodeWith read).map Prod.snd =
      if ∀ k < utf8CharLength c, (read k).isSome then some (utf8CharLength c) else none := by
  have hle := utf8CharLength_le c
  unfold decodeWith
  rw [hc, Option.bind_eq_bind, Option.bind_some]
  obtain h | h | h | h | h : utf8CharLength c = 0 ∨ utf8CharLength c = 1 ∨ utf8CharLength c = 2 ∨
      utf8CharLength c = 3 ∨ utf8CharLength c = 4 := by omega
  · simp [h]
  · simp [h, hc]
  · simp only [h, Nat.forall_lt_succ_right]
    cases h1 : read 1 <;> simp [hc]
  · simp only [h, Nat.forall_lt_succ_right]
    cases h1 : read 1 <;> cases h2 : read 2 <;> simp [hc]
  · simp only [h, Nat.forall_lt_succ_right]
    cases h1 : read 1 <;> cases h2 : read 2 <;> cases h3 : read 3 <;> simp [hc]

/-- The reads stay inside the string if the form that the first byte asks for is there. -/
theorem decodeWith_inside : ((decodeWith fun k => (c :: rest)[k]?).map Prod.snd = some len) ↔
    len = utf8CharLength c ∧ len ≤ (c :: rest).length := by
  rw [decodeWith_length rfl]
  constructor
  · intro h
    split_ifs at h with hread
    obtain rfl := Option.some.inj h
    refine ⟨rfl, Nat.le_of_not_lt fun hlt => ?_⟩
    simpa using hread _ hlt
  · rintro ⟨rfl, hle⟩
    rw [if_pos]
    intro k hk
    simpa using Nat.lt_of_lt_of_le hk hle

theorem decodeUtf8Char_length (h : decodeUtf8Char (c :: rest) = some (cp, len)) :
    len = utf8CharLength c := by
  have hlength := decodeWith_length (show charAt (c :: rest) 0 = some c from rfl)
  rw [← decodeUtf8Char_eq, h] at hlength
  split_ifs at hlength
  · simpa using hlength
  · simp at hlength

theorem decodeUtf8Char_complete (hle : utf8CharLength c ≤ (c :: rest).length) :
    ∃ cp, decodeUtf8Char (c :: rest) = some (cp, utf8CharLength c) := by
  have hlength := decodeWith_length (show charAt (c :: rest) 0 = some c from rfl)
  rw [if_pos, ← decodeUtf8Char_eq, Option.map_eq_some_iff] at hlength
  · obtain ⟨⟨cp, len⟩, h, rfl⟩ := hlength
    exact ⟨cp, h⟩
  · intro k hk
    simp only [charAt, List.cons_append, List.length_cons] at hle ⊢
    simp
    omega

theorem utf8ToUtf32Pass_advance {result result' : List UInt32} {count : ℕ}
    (h : utf8ToUtf32Pass c rest result = .advance count result') : count = utf8CharLength c := by
  rw [utf8ToUtf32Pass] at h
  split at h
  · cases h
  · next hdecode =>
      cases h
      exact decodeUtf8Char_length hdecode

end Reading

/-! #### Whole strings -/

section Whole

variable {s : List UInt8}

/-- What decoding promises for `s`: both loops end, `utf8ToUtf32` reads inside the string wherever
it stands, and takes a byte for each code point. -/
structure DecodesSafely (s : List UInt8) : Prop where
  decoded : ∃ fuel result, utf8ToUtf32 fuel s = some (some result)
  counted : ∃ fuel count, utf8CharCount fuel s = some count
  inside : ∀ c rest result, Reaches utf8ToUtf32Pass s [] (c :: rest) result →
    ∃ cp len, decodeWith (fun k => (c :: rest)[k]?) = some (cp, len) ∧ 0 < len

/-- `utf8CharCount` leaves the loop where it would stand still. -/
theorem utf8CharCount_total (s : List UInt8) :
    ∃ count, utf8CharCount (s.length + 1) s = some count := by
  refine (run_spec (P := fun _ => True) (Q := fun _ => True) (by simp) (by simp)
    (fun c rest count step count' _ h => ?_) trivial (Nat.lt_succ_self s.length)).imp
    fun _ h => h.1
  rw [utf8CharCountPass] at h
  split_ifs at h
  cases h
  exact ⟨by omega, trivial⟩

theorem utf8ToUtf32_cut (h : Cut utf8CharLength s) :
    ∃ cps, utf8ToUtf32 (s.length + 1) s = some (some cps) := by
  have hrun : ∃ result, utf8ToUtf32 (s.length + 1) s = some result ∧ result.isSome := by
    refine run_spec (Q := fun result : Option (List UInt32) => result.isSome) (by simp)
      (fun c rest cps result hcut hleave => ?_) (fun c rest cps count cps' hcut hadvance => ?_) h
      (Nat.lt_succ_self s.length)
    · obtain ⟨cp, hdecode⟩ := decodeUtf8Char_complete hcut.split.2.1
      rw [utf8ToUtf32Pass, hdecode] at hleave
      cases hleave
    · obtain rfl := utf8ToUtf32Pass_advance hadvance
      exact ⟨hcut.split.1, hcut.split.2.2⟩
  obtain ⟨result, hrun, hresult⟩ := hrun
  obtain ⟨cps, rfl⟩ := Option.isSome_iff_exists.mp hresult
  exact ⟨cps, hrun⟩

theorem cut_of_reaches {left : List UInt8} {result : List UInt32} (h : Cut utf8CharLength s)
    (hreach : Reaches utf8ToUtf32Pass s [] left result) : Cut utf8CharLength left := by
  refine hreach.invariant (fun c rest cps count cps' hcut hpass => ?_) h
  obtain rfl := utf8ToUtf32Pass_advance hpass
  exact hcut.split.2.2

/-- If every form is there where the loop stands, the string falls into forms. -/
theorem cut_of_inside (result : List UInt32) (h : ∀ c rest result',
    Reaches utf8ToUtf32Pass s result (c :: rest) result' →
      ∃ cp len, decodeWith (fun k => (c :: rest)[k]?) = some (cp, len) ∧ 0 < len) :
    Cut utf8CharLength s := by
  induction hn : s.length using Nat.strongRecOn generalizing s result with
  | ind n ih =>
    cases s with
    | nil => exact cut_nil
    | cons c rest =>
      obtain ⟨cp, len, hdecode, hpos⟩ := h c rest result (.refl _ _)
      obtain ⟨rfl, hle⟩ := decodeWith_inside.mp (congrArg (Option.map Prod.snd) hdecode)
      obtain ⟨cp', hcp⟩ := decodeUtf8Char_complete hle
      have hpass : utf8ToUtf32Pass c rest result =
          .advance (utf8CharLength c) (result ++ [cp']) := by
        rw [utf8ToUtf32Pass, hcp]
      have hpiece : Piece utf8CharLength ((c :: rest).take (utf8CharLength c)) := by
        refine ⟨c, rest.take (utf8CharLength c - 1), ?_, ?_⟩
        · rw [List.take_cons hpos]
        · rw [List.length_take, Nat.min_eq_left hle]
      rw [← List.take_append_drop (utf8CharLength c) (c :: rest)]
      refine .cons hpiece (ih _ ?_ (result ++ [cp'])
        (fun d left result' hreach => ?_) rfl)
      · rw [← hn, List.length_drop]
        simp only [List.length_cons]
        omega
      · exact h d left result' (.pass hpass hreach)

/-- Decoding is safe on the strings that fall into forms, each as long as its first byte says. -/
theorem decodesSafely_iff_cut (s : List UInt8) : DecodesSafely s ↔ Cut utf8CharLength s := by
  constructor
  · intro h
    exact cut_of_inside [] h.inside
  · intro h
    refine ⟨⟨_, utf8ToUtf32_cut h⟩, ⟨_, utf8CharCount_total s⟩, fun c rest result hreach => ?_⟩
    obtain ⟨hpos, hle, -⟩ := (cut_of_reaches h hreach).split
    have hlength : (decodeWith fun k => (c :: rest)[k]?).map Prod.snd =
        some (utf8CharLength c) := decodeWith_inside.mpr ⟨rfl, hle⟩
    obtain ⟨⟨cp, len⟩, hdecode, rfl⟩ := Option.map_eq_some_iff.mp hlength
    exact ⟨cp, _, hdecode, hpos⟩

/-- At a byte that starts no form the loop stands still and appends zeros. -/
theorem lone_tail_never_decoded :
    (∀ fuel, utf8ToUtf32 fuel [0x80] = none) ∧ ¬DecodesSafely [0x80] := by
  have hloop (fuel : ℕ) (result : List UInt32) :
      run utf8ToUtf32Pass some fuel [0x80] result = none := by
    induction fuel generalizing result with
    | zero => rfl
    | succ fuel ih => exact ih (result ++ [0])
  refine ⟨fun fuel => hloop fuel [], fun h => ?_⟩
  obtain ⟨fuel, result, hresult⟩ := h.decoded
  rw [utf8ToUtf32, hloop] at hresult
  cases hresult

/-- The form that is cut off ends with a read of the null character after the last byte. -/
example : utf8ToUtf32 3 [0xC3] = some (some [0xC0]) ∧
    decodeWith (fun k => ([0xC3] : List UInt8)[k]?) = none := by
  decide

end Whole

/-! ### `isValidUtf8`

The check takes a first byte with as many bytes of the form `10xxxxxx` as it asks for. Not all of
these groups are forms of scalar values. -/

/-! #### Groups -/

/-- The groups that are no shortest form of a scalar value. -/
inductive Illegal : List UInt8 → Prop where
  | overlongTwo {c c₁ : UInt8} (hc : c.toNat < 0xC2) : Illegal [c, c₁]
  | overlongThree {c₁ c₂ : UInt8} (hc₁ : c₁.toNat < 0xA0) : Illegal [0xE0, c₁, c₂]
  | surrogate {c₁ c₂ : UInt8} (hc₁ : 0xA0 ≤ c₁.toNat) : Illegal [0xED, c₁, c₂]
  | overlongFour {c₁ c₂ c₃ : UInt8} (hc₁ : c₁.toNat < 0x90) : Illegal [0xF0, c₁, c₂, c₃]
  | beyond {c₁ c₂ c₃ : UInt8} (hc₁ : 0x90 ≤ c₁.toNat) : Illegal [0xF4, c₁, c₂, c₃]
  | farBeyond {c c₁ c₂ c₃ : UInt8} (hc : 0xF5 ≤ c.toNat) : Illegal [c, c₁, c₂, c₃]

/-- Well-formed UTF-8: the shortest forms of some scalar values. -/
def WellFormed (s : List UInt8) : Prop :=
  ∃ u : List Char, u.flatMap String.utf8EncodeChar = s

section Groups

variable {g h : List UInt8} {c : UInt8} {tail : List UInt8} {cp : UInt32}

theorem Group.piece (hg : Group g) : Piece utf8CharLength g := by
  obtain ⟨c, tail, rfl, hlength, -⟩ := hg
  exact ⟨c, tail, rfl, hlength⟩

theorem Form.group (h : Form cp g) : Group g :=
  h.split

theorem Form.unique (hg : Form cp g) (hh : Form cp h) : g = h := by
  cases hg <;> cases hh <;> first
    | omega
    | simp only [← UInt8.toNat_inj, List.cons.injEq, and_true]
      omega

theorem utf8EncodeChar_form (u : Char) : Form u.val (String.utf8EncodeChar u) := by
  obtain ⟨hlt, -⟩ := scalar_bounds u
  rw [String.utf8EncodeChar]
  split_ifs with h1 h2 h3
  · refine .one (by omega) ?_
    rw [UInt8.toNat_ofNat']
    omega
  · refine .two (by omega) (by omega) ?_ ?_ <;> rw [UInt8.toNat_ofNat'] <;> omega
  · refine .three (by omega) (by omega) ?_ ?_ ?_ <;> rw [UInt8.toNat_ofNat'] <;> omega
  · refine .four (by omega) (by omega) ?_ ?_ ?_ ?_ <;> rw [UInt8.toNat_ofNat'] <;> omega

theorem not_illegal_utf8EncodeChar (u : Char) : ¬Illegal (String.utf8EncodeChar u) := by
  obtain ⟨hlt, hscalar⟩ := scalar_bounds u
  have hform := utf8EncodeChar_form u
  generalize String.utf8EncodeChar u = g at hform
  intro hillegal
  cases hillegal <;> cases hform <;> first
    | omega
    | simp only [UInt8.reduceToNat] at *
      omega

theorem exists_scalar {n : ℕ} (hlt : n < 0x110000) (hscalar : n < 0xD800 ∨ 0xE000 ≤ n) :
    ∃ u : Char, u.val.toNat = n :=
  ⟨Char.ofNatAux n (by rw [Nat.isValidChar]; omega), rfl⟩

/-- The scalar value of a group that is legal. -/
theorem exists_form_of_legal (hg : Group g) (hlegal : ¬Illegal g) :
    ∃ u : Char, String.utf8EncodeChar u = g := by
  suffices h : ∃ n, n < 0x110000 ∧ (n < 0xD800 ∨ 0xE000 ≤ n) ∧
      ∀ cp : UInt32, cp.toNat = n → Form cp g by
    obtain ⟨n, hlt, hscalar, hform⟩ := h
    obtain ⟨u, hu⟩ := exists_scalar hlt hscalar
    exact ⟨u, (utf8EncodeChar_form u).unique (hform u.val hu)⟩
  obtain ⟨c, tail, rfl, hlength, htail⟩ := hg
  rw [utf8CharLength_eq] at hlength
  simp only [isTail_iff] at htail
  match tail with
  | [] =>
    rw [List.length_singleton] at hlength
    refine ⟨c.toNat, ?_, ?_, fun cp hcp => .one ?_ ?_⟩ <;> split_ifs at hlength <;> omega
  | [c₁] =>
    have hc : 0xC2 ≤ c.toNat := Nat.le_of_not_lt fun h => hlegal (.overlongTwo h)
    have hc₁ := htail c₁ (by simp)
    have hlt : c.toNat < 0xE0 := by
      simp only [List.length_cons, List.length_nil] at hlength
      split_ifs at hlength <;> omega
    refine ⟨(c.toNat - 0xC0) * 64 + (c₁.toNat - 0x80), by omega, by omega,
      fun cp hcp => .two ?_ ?_ ?_ ?_⟩ <;> omega
  | [c₁, c₂] =>
    have hlow (h : c.toNat = 0xE0) : 0xA0 ≤ c₁.toNat := by
      obtain rfl : c = 0xE0 := UInt8.toNat_inj.mp h
      exact Nat.le_of_not_lt fun h => hlegal (.overlongThree h)
    have hsurrogate (h : c.toNat = 0xED) : c₁.toNat < 0xA0 := by
      obtain rfl : c = 0xED := UInt8.toNat_inj.mp h
      exact Nat.lt_of_not_le fun h => hlegal (.surrogate h)
    have hc₁ := htail c₁ (by simp)
    have hc₂ := htail c₂ (by simp)
    have hc : 0xE0 ≤ c.toNat ∧ c.toNat < 0xF0 := by
      simp only [List.length_cons, List.length_nil] at hlength
      split_ifs at hlength <;> omega
    refine ⟨(c.toNat - 0xE0) * 4096 + (c₁.toNat - 0x80) * 64 + (c₂.toNat - 0x80), by omega,
      by omega, fun cp hcp => .three ?_ ?_ ?_ ?_ ?_⟩ <;> omega
  | [c₁, c₂, c₃] =>
    have hlow (h : c.toNat = 0xF0) : 0x90 ≤ c₁.toNat := by
      obtain rfl : c = 0xF0 := UInt8.toNat_inj.mp h
      exact Nat.le_of_not_lt fun h => hlegal (.overlongFour h)
    have hbeyond (h : c.toNat = 0xF4) : c₁.toNat < 0x90 := by
      obtain rfl : c = 0xF4 := UInt8.toNat_inj.mp h
      exact Nat.lt_of_not_le fun h => hlegal (.beyond h)
    have hlt : c.toNat < 0xF5 := Nat.lt_of_not_le fun h => hlegal (.farBeyond h)
    have hc₁ := htail c₁ (by simp)
    have hc₂ := htail c₂ (by simp)
    have hc₃ := htail c₃ (by simp)
    have hc : 0xF0 ≤ c.toNat := by
      simp only [List.length_cons, List.length_nil] at hlength
      split_ifs at hlength <;> omega
    refine ⟨(c.toNat - 0xF0) * 262144 + (c₁.toNat - 0x80) * 4096 + (c₂.toNat - 0x80) * 64 +
      (c₃.toNat - 0x80), by omega, by omega, fun cp hcp => .four ?_ ?_ ?_ ?_ ?_ ?_⟩ <;> omega
  | c₁ :: c₂ :: c₃ :: c₄ :: tail =>
    simp only [List.length_cons] at hlength
    split_ifs at hlength <;> omega

theorem wellFormed_iff (s : List UInt8) : WellFormed s ↔ ∃ groups : List (List UInt8),
    groups.flatten = s ∧ ∀ g ∈ groups, Group g ∧ ¬Illegal g := by
  constructor
  · rintro ⟨u, rfl⟩
    refine ⟨u.map String.utf8EncodeChar, rfl, fun g hg => ?_⟩
    obtain ⟨c, -, rfl⟩ := List.mem_map.mp hg
    exact ⟨(utf8EncodeChar_form c).group, not_illegal_utf8EncodeChar c⟩
  · rintro ⟨groups, rfl, hgroups⟩
    induction groups with
    | nil => exact ⟨[], rfl⟩
    | cons g groups ih =>
      obtain ⟨⟨hgroup, hlegal⟩, hothers⟩ := List.forall_mem_cons.mp hgroups
      obtain ⟨c, rfl⟩ := exists_form_of_legal hgroup hlegal
      obtain ⟨u, hu⟩ := ih hothers
      exact ⟨c :: u, by rw [List.flatMap_cons, hu, List.flatten_cons]⟩

end Groups

/-! #### The check -/

section Check

variable {s : List UInt8} {c : UInt8} {tail rest : List UInt8}

theorem group_of_advance {count : ℕ} (h : isValidUtf8Pass c rest () = .advance count ()) :
    ∃ tail rest', rest = tail ++ rest' ∧ Group (c :: tail) ∧ count = (c :: tail).length := by
  rw [isValidUtf8Pass] at h
  split_ifs at h with hlength hmarked
  cases h
  rw [List.length_cons, not_or, Nat.not_lt] at hlength
  have hcount : (c :: rest.take (utf8CharLength c - 1)).length = utf8CharLength c := by
    rw [List.length_cons, List.length_take]
    omega
  refine ⟨rest.take (utf8CharLength c - 1), rest.drop (utf8CharLength c - 1), by simp,
    ⟨c, _, rfl, hcount.symm, fun byte hbyte => ?_⟩, hcount.symm⟩
  simp only [List.any_eq_true, not_exists, not_and] at hmarked
  simpa using hmarked byte hbyte

theorem first_group {groups : List (List UInt8)} (hflat : groups.flatten = c :: rest)
    (hgroups : ∀ g ∈ groups, Group g) : ∃ tail rest', rest = tail ++ rest' ∧ Group (c :: tail) ∧
      ∃ groups : List (List UInt8), groups.flatten = rest' ∧ ∀ g ∈ groups, Group g := by
  cases groups with
  | nil => simp at hflat
  | cons g groups =>
    obtain ⟨hg, hothers⟩ := List.forall_mem_cons.mp hgroups
    obtain ⟨c', tail, rfl, -⟩ := id hg
    obtain ⟨rfl, rfl⟩ := List.cons.inj hflat
    exact ⟨tail, groups.flatten, rfl, hg, groups, rfl, hothers⟩

/-- The check accepts the strings that are made of groups. -/
theorem isValidUtf8_groups (s : List UInt8) {fuel : ℕ} (hfuel : s.length < fuel) :
    ∃ valid, isValidUtf8 fuel s = some valid ∧
      (valid = true ↔ ∃ groups : List (List UInt8), groups.flatten = s ∧
        ∀ g ∈ groups, Group g) := by
  unfold isValidUtf8
  induction fuel generalizing s with
  | zero => exact absurd hfuel (Nat.not_lt_zero _)
  | succ fuel ih =>
    cases s with
    | nil => exact ⟨true, rfl, iff_of_true rfl ⟨[], by simp⟩⟩
    | cons c rest =>
      rw [run]
      cases hpass : isValidUtf8Pass c rest () with
      | leave result =>
        refine ⟨result, rfl, iff_of_false ?_ ?_⟩
        · rw [isValidUtf8Pass] at hpass
          split_ifs at hpass <;> cases hpass <;> simp
        · rintro ⟨groups, hflat, hgroups⟩
          obtain ⟨tail, rest, rfl, hgroup, -⟩ := first_group hflat hgroups
          rw [isValidUtf8Pass_group hgroup] at hpass
          cases hpass
      | advance count state =>
        obtain ⟨tail, rest', rfl, hgroup, rfl⟩ := group_of_advance hpass
        rw [List.length_cons, List.length_append] at hfuel
        obtain ⟨valid, hrun, hvalid⟩ := ih rest' (by omega)
        refine ⟨valid, ?_, hvalid.trans ?_⟩
        · simpa using hrun
        · constructor
          · rintro ⟨groups, rfl, hgroups⟩
            exact ⟨(c :: tail) :: groups, rfl, List.forall_mem_cons.mpr ⟨hgroup, hgroups⟩⟩
          · rintro ⟨groups, hflat, hgroups⟩
            obtain ⟨tail', rest, hrest, hfirst, hothers⟩ := first_group hflat hgroups
            have heq : (c :: tail) ++ rest' = (c :: tail') ++ rest := congrArg _ hrest
            rwa [(hgroup.piece.eq_of_append_eq hfirst.piece heq).2]

/-- `isValidUtf8` is exact on a string unless the string is made of groups one of which is
illegal. -/
theorem isValidUtf8_exact_iff (s : List UInt8) : ∃ valid,
    (∀ fuel, s.length < fuel → isValidUtf8 fuel s = some valid) ∧
      ((valid = true ↔ WellFormed s) ↔
        ∀ groups : List (List UInt8), groups.flatten = s → (∀ g ∈ groups, Group g) →
          ∀ g ∈ groups, ¬Illegal g) := by
  obtain ⟨valid, -, hvalid⟩ := isValidUtf8_groups s (Nat.lt_succ_self _)
  refine ⟨valid, fun fuel hfuel => ?_, ?_⟩
  · obtain ⟨valid', hrun, hvalid'⟩ := isValidUtf8_groups s hfuel
    rw [hrun, Bool.eq_iff_iff.mpr (hvalid'.trans hvalid.symm)]
  · rw [hvalid, wellFormed_iff]
    constructor
    · intro h groups hflat hgroups
      obtain ⟨legal, hlegal, hall⟩ := h.mp ⟨groups, hflat, hgroups⟩
      obtain rfl : groups = legal := pieces_unique (fun g hg => (hgroups g hg).piece)
        (fun g hg => (hall g hg).1.piece) (hflat.trans hlegal.symm)
      exact fun g hg => (hall g hg).2
    · intro h
      constructor
      · rintro ⟨groups, hflat, hgroups⟩
        exact ⟨groups, hflat, fun g hg => ⟨hgroups g hg, h groups hflat hgroups g hg⟩⟩
      · rintro ⟨groups, hflat, hgroups⟩
        exact ⟨groups, hflat, fun g hg => (hgroups g hg).1⟩

/-- An overlong form is accepted. -/
theorem overlong_accepted : isValidUtf8 3 [0xC0, 0x80] = some true ∧ ¬WellFormed [0xC0, 0x80] := by
  refine ⟨by decide, fun h => ?_⟩
  obtain ⟨groups, hflat, hgroups⟩ := (wellFormed_iff _).mp h
  have hgroup : Group [0xC0, 0x80] :=
    ⟨0xC0, [0x80], rfl, by decide, List.forall_mem_singleton.mpr (by decide)⟩
  have hpieces : ∀ g ∈ groups, Piece utf8CharLength g := fun g hg => (hgroups g hg).1.piece
  obtain rfl : groups = [[0xC0, 0x80]] :=
    pieces_unique hpieces (by simpa using hgroup.piece) hflat
  exact (hgroups _ List.mem_cons_self).2 (.overlongTwo (by decide))

end Check

end DarwinCore.Text
