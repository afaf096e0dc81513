import DarwinCore.Model.Text.UUID
import Mathlib.Tactic.Linarith
import Mathlib.Tactic.Ring

/-! # What `UUID::parse` accepts -/

namespace DarwinCore.UUID

variable {a b c : UInt8} {text str : List UInt8}

/-! ## Digits -/

def digit (c : UInt8) : ℕ :=
  (hexValue c).getD 0

theorem isHexDigit_iff :
    isHexDigit c = true ↔ 48 ≤ c ∧ c ≤ 57 ∨ 65 ≤ c ∧ c ≤ 70 ∨ 97 ≤ c ∧ c ≤ 102 := by
  rw [isHexDigit, hexValue]
  split <;> [skip; split <;> [skip; split]] <;> simp [*]

theorem not_isSpace (h : isHexDigit c) : isSpace c = false := by
  rw [isHexDigit_iff] at h
  simp only [isSpace, decide_eq_false_iff_not, UInt8.le_iff_toNat_le, ← UInt8.toNat_inj] at h ⊢
  simp at h ⊢
  omega

theorem not_isSign (h : isHexDigit c) : isSign c = false := by
  rw [isHexDigit_iff] at h
  simp only [isSign, decide_eq_false_iff_not, UInt8.le_iff_toNat_le, ← UInt8.toNat_inj] at h ⊢
  simp at h ⊢
  omega

private theorem not_isSign_of_isSpace (h : isSpace c) : isSign c = false := by
  simp only [isSpace, isSign, decide_eq_true_eq, decide_eq_false_iff_not, UInt8.le_iff_toNat_le,
    ← UInt8.toNat_inj] at h ⊢
  simp at h ⊢
  omega

theorem digit_lt (c : UInt8) : digit c < 16 := by
  rw [digit, hexValue]
  simp only [UInt8.le_iff_toNat_le]
  simp
  split <;> [skip; split <;> [skip; split]] <;> simp <;> omega

/-! ## Pairs of characters -/

/-- What is converted of two characters: they begin with a digit, or have one behind a space or
a sign. -/
def Converts (a b : UInt8) : Prop :=
  isHexDigit a ∨ (isSpace a ∨ isSign a) ∧ isHexDigit b

theorem readDigits_eq_none (h : isHexDigit c = false) (text : List UInt8) :
    readDigits (c :: text) = none := by
  rw [readDigits, List.takeWhile_cons, h]
  rfl

theorem readDigits_one (h : isHexDigit c) : readDigits [c] = some (digit c) := by
  simp [readDigits, h, digit]

private theorem readDigits_two (h : isHexDigit a) :
    readDigits [a, b] = some (if isHexDigit b then 16 * digit a + digit b else digit a) := by
  by_cases hb : isHexDigit b <;> simp [readDigits, h, hb, digit]

theorem strtol_of_isHexDigit (h : isHexDigit a) : strtol [a, b] =
    some (if isHexDigit b then 16 * digit a + digit b else digit a : ℕ) := by
  have hskip : skipPrefix [a, b] = [a, b] := rfl
  simp [strtol, not_isSpace h, not_isSign h, hskip, readDigits_two h]

private theorem strtol_of_isSpace (h : isSpace a) :
    strtol [a, b] = if isHexDigit b then some (digit b : ℤ) else none := by
  have hskip : skipPrefix [b] = [b] := rfl
  by_cases hb : isHexDigit b
  · simp [strtol, h, not_isSpace hb, not_isSign hb, hskip, readDigits_one hb, hb]
  · have hb : isHexDigit b = false := Bool.eq_false_iff.mpr hb
    have hempty : readDigits (skipPrefix []) = none := rfl
    cases hspace : isSpace b <;> cases hsign : isSign b <;>
      simp [strtol, h, hspace, hsign, hskip, readDigits_eq_none hb, hb, hempty]

private theorem strtol_of_isSign (h : isSign a) : strtol [a, b] =
    if isHexDigit b then some (if a = 45 then -(digit b : ℤ) else digit b) else none := by
  have hspace : isSpace a = false := by
    by_contra hspace
    simp [not_isSign_of_isSpace (by simpa using hspace)] at h
  have hskip : skipPrefix [b] = [b] := rfl
  by_cases hb : isHexDigit b
  · simp [strtol, h, hspace, hskip, readDigits_one hb, hb]
  · have hb : isHexDigit b = false := Bool.eq_false_iff.mpr hb
    simp [strtol, h, hspace, hskip, readDigits_eq_none hb, hb]

/-- What `strtol` makes of two characters is small. -/
theorem strtol_two_cases (a b : UInt8) :
    (Converts a b ∧ ∃ value, strtol [a, b] = some value ∧ -256 < value ∧ value < 256) ∨
      ¬Converts a b ∧ strtol [a, b] = none := by
  have ha := digit_lt a
  have hb := digit_lt b
  by_cases hdigit : isHexDigit a
  · refine .inl ⟨.inl hdigit, _, strtol_of_isHexDigit hdigit, ?_⟩
    split <;> omega
  · by_cases hspace : isSpace a
    · rw [strtol_of_isSpace hspace, Converts]
      by_cases hnext : isHexDigit b
      · refine .inl ⟨.inr ⟨.inl hspace, hnext⟩, _, if_pos hnext, by omega, by omega⟩
      · exact .inr ⟨by simp [hdigit, hnext], if_neg hnext⟩
    · by_cases hsign : isSign a
      · rw [strtol_of_isSign hsign, Converts]
        by_cases hnext : isHexDigit b
        · refine .inl ⟨.inr ⟨.inr hsign, hnext⟩, _, if_pos hnext, ?_⟩
          split <;> omega
        · exact .inr ⟨by simp [hdigit, hnext], if_neg hnext⟩
      · have hdigit : isHexDigit a = false := Bool.eq_false_iff.mpr hdigit
        have hskip : skipPrefix [a, b] = [a, b] := rfl
        refine .inr ⟨by simp [Converts, hdigit, hspace, hsign], ?_⟩
        simp [strtol, hspace, hsign, hskip, readDigits_eq_none hdigit]

/-- The bounds of `int` are never met. -/
theorem stoi_two (a b : UInt8) : stoi [a, b] = strtol [a, b] := by
  rcases strtol_two_cases a b with ⟨-, value, heq, hlower, hupper⟩ | ⟨-, heq⟩
  · rw [stoi, heq, Option.filter_some, if_pos]
    simp only [decide_eq_true_eq]
    omega
  · rw [stoi, heq, Option.filter_none]

private theorem stoi_isSome_iff : (stoi [a, b]).isSome ↔ Converts a b := by
  rw [stoi_two]
  rcases strtol_two_cases a b with ⟨hconverts, value, heq, -⟩ | ⟨hnot, heq⟩ <;> simp [*]

private theorem toByte_stoi (ha : isHexDigit a) (hb : isHexDigit b) :
    ∃ value, stoi [a, b] = some value ∧
    (toByte value).toNat = 16 * digit a + digit b := by
  have hda := digit_lt a
  have hdb := digit_lt b
  refine ⟨_, (stoi_two a b).trans (strtol_of_isHexDigit ha), ?_⟩
  rw [if_pos hb, toByte, UInt8.toNat_ofNat']
  omega

/-! ## The loop -/

def pairs {α : Type*} : List α → List (α × α)
  | a :: b :: rest => (a, b) :: pairs rest
  | _ => []

private theorem parseBytes_isSome_iff {turns : ℕ} (h : text.length = 2 * turns) :
    (parseBytes turns text).isSome ↔ ∀ p ∈ pairs text, Converts p.1 p.2 := by
  induction turns generalizing text with
  | zero =>
    rw [List.eq_nil_of_length_eq_zero h]
    simp [parseBytes, pairs]
  | succ turns ih =>
    match text, h with
    | a :: b :: rest, h =>
      have hrest : rest.length = 2 * turns := by
        simp only [List.length_cons] at h
        omega
      have htake : (a :: b :: rest).take 2 = [a, b] := rfl
      have hdrop : (a :: b :: rest).drop 2 = rest := rfl
      rw [pairs, List.forall_mem_cons, ← ih hrest, ← stoi_isSome_iff, parseBytes, htake, hdrop]
      cases stoi [a, b] <;> simp

/-- Where all characters are digits, the bytes are the values of the pairs. -/
theorem parseBytes_of_digits {turns : ℕ} (h : text.length = 2 * turns)
    (hdigits : ∀ c ∈ text, isHexDigit c) : ∃ bytes, parseBytes turns text = some bytes ∧
      bytes.1.map UInt8.toNat = (pairs text).map fun p => 16 * digit p.1 + digit p.2 := by
  induction turns generalizing text with
  | zero =>
    rw [List.eq_nil_of_length_eq_zero h]
    exact ⟨⟨[], rfl⟩, rfl, rfl⟩
  | succ turns ih =>
    match text, h with
    | a :: b :: rest, h =>
      have hrest : rest.length = 2 * turns := by
        simp only [List.length_cons] at h
        omega
      simp only [List.forall_mem_cons] at hdigits
      obtain ⟨ha, hb, hdigits⟩ := hdigits
      obtain ⟨value, hvalue, hbyte⟩ := toByte_stoi ha hb
      obtain ⟨bytes, hbytes, hmap⟩ := ih hrest hdigits
      have htake : (a :: b :: rest).take 2 = [a, b] := rfl
      have hdrop : (a :: b :: rest).drop 2 = rest := rfl
      refine ⟨_, by rw [parseBytes, htake, hdrop, hvalue, hbytes]; rfl, ?_⟩
      rw [List.map_cons, hbyte, hmap, pairs, List.map_cons]

/-! ## Texts of a UUID -/

/-- Apart from the hyphens, 32 hexadecimal digits. -/
def IsText (str : List UInt8) : Prop :=
  (clean str).length = 32 ∧ ∀ c ∈ clean str, isHexDigit c

/-- `parse` succeeds exactly on the text of a UUID, and then with the values of the pairs of
digits in order. -/
def ParsesExactly (str : List UInt8) : Prop :=
  ((parse str).isSome ↔ IsText str) ∧ ∀ uuid, parse str = some uuid → IsText str →
    uuid.data.map UInt8.toNat = (pairs (clean str)).map fun p => 16 * digit p.1 + digit p.2

private theorem parse_isSome_iff (str : List UInt8) : (parse str).isSome ↔
    (clean str).length = 32 ∧ ∀ p ∈ pairs (clean str), Converts p.1 p.2 := by
  rw [parse]
  by_cases hlength : (clean str).length = 32
  · rw [if_neg (not_not_intro hlength), Option.isSome_map, parseBytes_isSome_iff hlength]
    exact (and_iff_right hlength).symm
  · rw [if_pos hlength]
    simp [hlength]

theorem parse_of_isText (h : IsText str) : ∃ uuid, parse str = some uuid ∧
    uuid.data.map UInt8.toNat = (pairs (clean str)).map fun p => 16 * digit p.1 + digit p.2 := by
  obtain ⟨bytes, hbytes, hmap⟩ := @parseBytes_of_digits _ 16 h.1 h.2
  exact ⟨⟨bytes.1, bytes.2⟩, by rw [parse, if_neg (not_not_intro h.1), hbytes]; rfl, hmap⟩

/-! ## Printing -/

theorem digit_hexDigit {d : ℕ} (h : d < 16) :
    isHexDigit (hexDigit d) = true ∧ digit (hexDigit d) = d ∧ hexDigit d ≠ 45 := by
  have hall : ∀ i : Fin 16, isHexDigit (hexDigit i) = true ∧ digit (hexDigit i) = i ∧
      hexDigit i ≠ 45 := by decide
  exact hall ⟨d, h⟩

theorem nibbles_lt (byte : UInt8) : byte.toNat / 16 < 16 ∧ byte.toNat % 16 < 16 := by
  have hlt := byte.toNat_lt
  omega

private theorem clean_writeByte (byte : UInt8) : clean (writeByte byte) = writeByte byte := by
  obtain ⟨hhigh, hlow⟩ := nibbles_lt byte
  simp [clean, writeByte, (digit_hexDigit hhigh).2.2, (digit_hexDigit hlow).2.2]

theorem clean_flatMap (bytes : List UInt8) :
    clean (bytes.flatMap writeByte) = bytes.flatMap writeByte := by
  induction bytes with
  | nil => rfl
  | cons byte bytes ih =>
    rw [List.flatMap_cons, clean, List.filter_append]
    exact congrArg₂ _ (clean_writeByte byte) ih

private theorem pairs_flatMap (bytes : List UInt8) :
    (pairs (bytes.flatMap writeByte)).map (fun p => 16 * digit p.1 + digit p.2) =
      bytes.map UInt8.toNat := by
  induction bytes with
  | nil => rfl
  | cons byte bytes ih =>
    obtain ⟨hhigh, hlow⟩ := nibbles_lt byte
    rw [List.flatMap_cons, writeByte, List.cons_append, List.cons_append, List.nil_append, pairs,
      List.map_cons, ih, List.map_cons, (digit_hexDigit hhigh).2.1, (digit_hexDigit hlow).2.1,
      Nat.div_add_mod]

private theorem clean_toCompactString (uuid : UUID) :
    clean uuid.toCompactString = uuid.toCompactString :=
  clean_flatMap uuid.data

private theorem clean_toString (uuid : UUID) : clean uuid.toString = uuid.toCompactString := by
  have hpiece (first last : ℕ) : clean (uuid.writeBytes first last) = uuid.writeBytes first last :=
    clean_flatMap _
  have happend (xs ys : List UInt8) : clean (xs ++ ys) = clean xs ++ clean ys :=
    List.filter_append xs ys
  have hhyphen : clean [45] = [] := rfl
  obtain ⟨data, hlength⟩ := uuid
  simp only [toString, happend, hpiece, hhyphen, List.append_nil]
  match data, hlength with
  | [_, _, _, _, _, _, _, _, _, _, _, _, _, _, _, _], _ =>
    simp [writeBytes, toCompactString]

/-- What reads as the printed digits of a UUID is parsed as it. -/
private theorem parse_of_clean {uuid : UUID} (h : clean str = uuid.toCompactString) :
    parse str = some uuid := by
  have htext : IsText str := by
    constructor
    · have htwo : ∀ byte, (writeByte byte).length = 2 := fun _ => rfl
      rw [h, toCompactString, List.length_flatMap]
      simp [htwo, uuid.length_data]
    · intro c hc
      rw [h, toCompactString, List.mem_flatMap] at hc
      obtain ⟨byte, -, hc⟩ := hc
      obtain ⟨hhigh, hlow⟩ := nibbles_lt byte
      rw [writeByte, List.mem_pair] at hc
      rcases hc with rfl | rfl
      · exact (digit_hexDigit hhigh).1
      · exact (digit_hexDigit hlow).1
  obtain ⟨parsed, hparse, hmap⟩ := parse_of_isText htext
  rw [h, toCompactString, pairs_flatMap] at hmap
  have hdata : parsed.data = uuid.data :=
    List.map_injective_iff.mpr (fun _ _ => UInt8.toNat_inj.mp) hmap
  rw [hparse]
  cases parsed
  cases uuid
  simpa using hdata

/-! ## Every text -/

/-- `parse` accepts what it should and no more, unless a text of the right length has a
character that is no digit, but only where `stoi` converts the pair all the same. A printed UUID
is parsed as itself. -/
theorem parsesExactly_iff (str : List UInt8) (uuid : UUID) :
    (ParsesExactly str ↔ ¬((clean str).length = 32 ∧
      (∀ p ∈ pairs (clean str), Converts p.1 p.2) ∧ ∃ c ∈ clean str, ¬isHexDigit c)) ∧
    parse uuid.toString = some uuid ∧ parse uuid.toCompactString = some uuid := by
  refine ⟨?_, parse_of_clean (clean_toString uuid), parse_of_clean (clean_toCompactString uuid)⟩
  constructor
  · rintro ⟨hiff, -⟩ ⟨hlength, hconverts, c, hc, hnot⟩
    have htext := hiff.mp ((parse_isSome_iff str).mpr ⟨hlength, hconverts⟩)
    exact hnot (htext.2 c hc)
  · intro hcondition
    refine ⟨⟨fun hsome => ?_, fun htext => ?_⟩, fun uuid hparse htext => ?_⟩
    · obtain ⟨hlength, hconverts⟩ := (parse_isSome_iff str).mp hsome
      refine ⟨hlength, fun c hc => ?_⟩
      by_contra hnot
      exact hcondition ⟨hlength, hconverts, c, hc, hnot⟩
    · obtain ⟨uuid, hparse, -⟩ := parse_of_isText htext
      rw [hparse]
      rfl
    · obtain ⟨parsed, hparsed, hmap⟩ := parse_of_isText htext
      obtain rfl : parsed = uuid := Option.some.inj (hparsed.symm.trans hparse)
      exact hmap

/-- A space and a digit sixteen times over. -/
def spacedText : List UInt8 :=
  (List.replicate 16 [32, 53]).flatten

/-- It is no text of a UUID, and is parsed as one. -/
theorem spacedText_parses : ¬IsText spacedText ∧ (parse spacedText).isSome ∧
    ¬ParsesExactly spacedText := by
  have hnot : ¬IsText spacedText := fun h => by
    have hspace : (32 : UInt8) ∈ clean spacedText := by decide
    exact absurd (h.2 32 hspace) (by decide)
  have hsome : (parse spacedText).isSome = true := by decide
  exact ⟨hnot, hsome, fun h => hnot (h.1.mp hsome)⟩

end DarwinCore.UUID
