import Mathlib.Data.List.Basic

/-! # JSON texts

A parser for the grammar of RFC 8259 over the characters of a text, and what it reads of strings. A
`\u` escape that is half of no pair of surrogates is read as U+FFFD. -/

namespace Json

/-- A value. Numbers are kept as they are written, and the members of an object in order. -/
inductive Value where
  | null
  | bool (b : Bool)
  | number (text : List Char)
  | string (s : List Char)
  | array (items : List Value)
  | object (members : List (List Char × Value))

def isSpace (c : Char) : Bool :=
  c = ' ' ∨ c = '\t' ∨ c = '\n' ∨ c = '\r'

def skip (text : List Char) : List Char :=
  text.dropWhile isSpace

/-! ## Strings -/

def hexDigit (c : Char) : Option ℕ :=
  if c.isDigit then some (c.toNat - 48)
  else if 'a' ≤ c ∧ c ≤ 'f' then some (c.toNat - 87)
  else if 'A' ≤ c ∧ c ≤ 'F' then some (c.toNat - 55)
  else none

def hex4 (a b c d : Char) : Option ℕ :=
  match hexDigit a, hexDigit b, hexDigit c, hexDigit d with
  | some a, some b, some c, some d => some (4096 * a + 256 * b + 16 * c + d)
  | _, _, _, _ => none

/-- The characters that stand behind a backslash, and for what. -/
def escaped (c : Char) : Option Char :=
  if c = '"' ∨ c = '\\' ∨ c = '/' then some c
  else if c = 'b' then some '\x08'
  else if c = 'f' then some '\x0c'
  else if c = 'n' then some '\n'
  else if c = 'r' then some '\r'
  else if c = 't' then some '\t'
  else none

/-- A character of a string, or the code unit of UTF-16 that `\u` gives. -/
inductive Piece where
  | char (c : Char)
  | unit (n : ℕ)

/-- The pieces up to the quotation mark that ends the string, and what is behind it. -/
def scanPieces : List Char → Option (List Piece × List Char)
  | [] => none
  | c :: rest =>
      if c = '"' then some ([], rest)
      else if c = '\\' then
        match rest with
        | [] => none
        | e :: rest =>
            if e = 'u' then
              match rest with
              | a :: b :: c :: d :: rest =>
                  match hex4 a b c d with
                  | none => none
                  | some n => (scanPieces rest).map fun (pieces, rest) => (.unit n :: pieces, rest)
              | _ => none
            else
              match escaped e with
              | none => none
              | some c => (scanPieces rest).map fun (pieces, rest) => (.char c :: pieces, rest)
      else if c.toNat < 32 then none
      else (scanPieces rest).map fun (pieces, rest) => (.char c :: pieces, rest)

/-- Two surrogates that stand for one character. -/
def surrogates (n m : ℕ) : Bool :=
  0xD800 ≤ n ∧ n < 0xDC00 ∧ 0xDC00 ≤ m ∧ m < 0xE000

def single (n : ℕ) : Char :=
  if 0xD800 ≤ n ∧ n < 0xE000 then '\uFFFD' else Char.ofNat n

/-- The characters: pairs of surrogates are joined. -/
def join : List Piece → List Char
  | [] => []
  | .char c :: pieces => c :: join pieces
  | .unit n :: .unit m :: pieces =>
      if surrogates n m then
        Char.ofNat (0x10000 + 0x400 * (n - 0xD800) + (m - 0xDC00)) :: join pieces
      else single n :: join (.unit m :: pieces)
  | .unit n :: pieces => single n :: join pieces

/-- A string behind its first quotation mark. -/
def scanString (text : List Char) : Option (List Char × List Char) :=
  (scanPieces text).map fun (pieces, rest) => (join pieces, rest)

/-! ## Numbers -/

def scanDigits (text : List Char) : Option (List Char × List Char) :=
  match text.takeWhile Char.isDigit with
  | [] => none
  | digits => some (digits, text.dropWhile Char.isDigit)

/-- Nothing, unless the text begins with the mark of the part; then the part. -/
def scanPart (marks : List Char) (part : List Char → Option (List Char × List Char))
    (text : List Char) : Option (List Char × List Char) :=
  match text with
  | [] => some ([], [])
  | c :: rest =>
      if c ∈ marks then (part rest).map fun (digits, rest) => (c :: digits, rest)
      else some ([], c :: rest)

/-- Zero, or digits that do not begin with it. -/
def scanInt (text : List Char) : Option (List Char × List Char) :=
  match text with
  | '0' :: rest => some (['0'], rest)
  | text => scanDigits text

/-- A sign that need not be there, and digits. -/
def scanExponent (text : List Char) : Option (List Char × List Char) :=
  match text with
  | '+' :: rest => (scanDigits rest).map fun (digits, rest) => ('+' :: digits, rest)
  | '-' :: rest => (scanDigits rest).map fun (digits, rest) => ('-' :: digits, rest)
  | text => scanDigits text

def scanUnsigned (text : List Char) : Option (List Char × List Char) := do
  let (int, text) ← scanInt text
  let (frac, text) ← scanPart ['.'] scanDigits text
  let (exp, text) ← scanPart ['e', 'E'] scanExponent text
  some (int ++ frac ++ exp, text)

def scanNumber (text : List Char) : Option (List Char × List Char) :=
  match text with
  | '-' :: rest => (scanUnsigned rest).map fun (number, rest) => ('-' :: number, rest)
  | text => scanUnsigned text

/-! ## Values -/

/-- What follows an item: the closing bracket, or a comma and more items. -/
def scanMore {α : Type} (close : Char) (next : List Char → Option (List α × List Char)) (item : α)
    (text : List Char) : Option (List α × List Char) :=
  match skip text with
  | [] => none
  | c :: rest =>
      if c = close then some ([item], rest)
      else if c = ',' then (next rest).map fun (items, rest) => (item :: items, rest)
      else none

/-- The items of an array or object behind the opening bracket. -/
def scanItems {α : Type} (close : Char) (next : List Char → Option (List α × List Char))
    (text : List Char) : Option (List α × List Char) :=
  match skip text with
  | [] => none
  | c :: rest => if c = close then some ([], rest) else next (c :: rest)

def scanName (name : List Char) (value : Value) (text : List Char) : Option (Value × List Char) :=
  if name <+: text then some (value, text.drop name.length) else none

mutual

/-- A value at the start of the text and what is behind it, in values nested less than `fuel`
deep. -/
def scanValue : ℕ → List Char → Option (Value × List Char)
  | 0, _ => none
  | fuel + 1, text =>
      match skip text with
      | [] => none
      | c :: rest =>
          if c = '"' then (scanString rest).map fun (s, rest) => (.string s, rest)
          else if c = '{' then
            (scanItems '}' (scanMembers fuel) rest).map fun (members, rest) =>
              (.object members, rest)
          else if c = '[' then
            (scanItems ']' (scanElements fuel) rest).map fun (items, rest) => (.array items, rest)
          else if c = 'n' then scanName ['n', 'u', 'l', 'l'] .null (c :: rest)
          else if c = 't' then scanName ['t', 'r', 'u', 'e'] (.bool true) (c :: rest)
          else if c = 'f' then scanName ['f', 'a', 'l', 's', 'e'] (.bool false) (c :: rest)
          else (scanNumber (c :: rest)).map fun (number, rest) => (.number number, rest)

/-- The members of an object from one of them on. -/
def scanMembers : ℕ → List Char → Option (List (List Char × Value) × List Char)
  | 0, _ => none
  | fuel + 1, text =>
      match skip text with
      | [] => none
      | c :: rest =>
          if c = '"' then
            match scanString rest with
            | none => none
            | some (name, rest) =>
                match skip rest with
                | [] => none
                | c :: rest =>
                    if c = ':' then
                      match scanValue fuel rest with
                      | none => none
                      | some (value, rest) => scanMore '}' (scanMembers fuel) (name, value) rest
                    else none
          else none

/-- The values of an array from one of them on. -/
def scanElements : ℕ → List Char → Option (List Value × List Char)
  | 0, _ => none
  | fuel + 1, text =>
      match scanValue fuel text with
      | none => none
      | some (value, rest) => scanMore ']' (scanElements fuel) value rest

end

def Parses (text : List Char) (value : Value) : Prop :=
  ∃ fuel rest, scanValue fuel text = some (value, rest) ∧ skip rest = []

/-! ## Strings that are read as they stand -/

/-- A character that stands for itself in a string. -/
def Plain (c : Char) : Prop :=
  c ≠ '"' ∧ c ≠ '\\' ∧ 32 ≤ c.toNat

instance : DecidablePred Plain := fun c =>
  inferInstanceAs (Decidable (c ≠ '"' ∧ c ≠ '\\' ∧ 32 ≤ c.toNat))

theorem plain_of_all {text : List Char} (h : text.all fun c => decide (Plain c)) :
    ∀ c ∈ text, Plain c :=
  fun c hc => of_decide_eq_true (List.all_eq_true.mp h c hc)

section Strings

variable {s rest r : List Char} {pieces : List Piece} {c : Char}

theorem scanPieces_plain_cons (h : Plain c) (rest : List Char) :
    scanPieces (c :: rest) =
      (scanPieces rest).map fun (pieces, rest) => (.char c :: pieces, rest) := by
  rw [scanPieces.eq_def]
  dsimp only
  rw [if_neg h.1, if_neg h.2.1, if_neg (Nat.not_lt.mpr h.2.2)]

theorem scanPieces_escape {e : Char} (h : escaped e = some c) (rest : List Char) :
    scanPieces ('\\' :: e :: rest) =
      (scanPieces rest).map fun (pieces, rest) => (.char c :: pieces, rest) := by
  have hu : e ≠ 'u' := by
    rintro rfl
    have hnone : escaped 'u' = none := by decide
    rw [hnone] at h
    cases h
  rw [scanPieces.eq_def]
  dsimp only
  rw [if_neg (by decide), if_pos rfl, if_neg hu, h]

theorem scanPieces_plain (h : ∀ c ∈ s, Plain c) (rest : List Char) :
    scanPieces (s ++ '"' :: rest) = some (s.map .char, rest) := by
  induction s with
  | nil =>
    rw [List.nil_append, scanPieces.eq_def]
    exact if_pos rfl
  | cons c s ih =>
    obtain ⟨hc, hs⟩ := List.forall_mem_cons.mp h
    rw [List.cons_append, scanPieces_plain_cons hc, ih hs]
    rfl

theorem join_map_char (s : List Char) : join (s.map .char) = s := by
  induction s with
  | nil => rfl
  | cons c s ih => rw [List.map_cons, join, ih]

theorem scanString_plain (h : ∀ c ∈ s, Plain c) (rest : List Char) :
    scanString (s ++ '"' :: rest) = some (s, rest) := by
  rw [scanString, scanPieces_plain h, Option.map_some]
  exact congrArg (fun s => some (s, rest)) (join_map_char s)

private theorem join_length_le (pieces : List Piece) : (join pieces).length ≤ pieces.length := by
  fun_induction join pieces with
  | case1 => exact Nat.le_refl 0
  | case2 c pieces ih => exact Nat.succ_le_succ ih
  | case3 n m pieces h ih =>
    simp only [List.length_cons]
    omega
  | case4 n m pieces h ih => exact Nat.succ_le_succ ih
  | case5 n pieces h ih => exact Nat.succ_le_succ ih

private theorem join_concat (pieces : List Piece) (c : Char) :
    join (pieces ++ [.char c]) = join pieces ++ [c] := by
  fun_induction join pieces with
  | case1 => rfl
  | case2 d pieces ih => rw [List.cons_append, join, ih, List.cons_append]
  | case3 n m pieces h ih =>
    rw [List.cons_append, List.cons_append, join, if_pos h, ih, List.cons_append]
  | case4 n m pieces h ih =>
    rw [List.cons_append] at ih
    rw [List.cons_append, List.cons_append, join, if_neg h, ih, List.cons_append]
  | case5 n pieces h ih =>
    match pieces with
    | [] => rfl
    | .char d :: pieces =>
      have hfirst : join (.unit n :: .char d :: (pieces ++ [.char c])) =
          single n :: join (.char d :: (pieces ++ [.char c])) := rfl
      rw [List.cons_append] at ih
      rw [List.cons_append, List.cons_append, hfirst, ih, List.cons_append]
    | .unit m :: pieces => exact absurd rfl (h m pieces)

/-- The escapes that are scanned behind a backslash. -/
private theorem scanPieces_backslash {text : List Char}
    (h : scanPieces ('\\' :: text) = some (pieces, r)) :
    (∃ e c after, text = e :: after ∧ escaped e = some c ∧
      (scanPieces after).map (fun (pieces, rest) => (.char c :: pieces, rest)) =
        some (pieces, r)) ∨
      ∃ a b c d after n, text = 'u' :: a :: b :: c :: d :: after ∧ hex4 a b c d = some n ∧
        (scanPieces after).map (fun (pieces, rest) => (.unit n :: pieces, rest)) =
          some (pieces, r) := by
  rw [scanPieces.eq_def] at h
  dsimp only at h
  rw [if_neg (by decide), if_pos rfl] at h
  cases text with
  | nil => cases h
  | cons e text =>
    dsimp only at h
    by_cases hu : e = 'u'
    · rw [if_pos hu] at h
      match text with
      | a :: b :: c :: d :: after =>
        dsimp only at h
        cases hhex : hex4 a b c d with
        | none =>
          rw [hhex] at h
          cases h
        | some n =>
          rw [hhex] at h
          exact .inr ⟨a, b, c, d, after, n, by rw [hu], hhex, h⟩
      | [] | [_] | [_, _] | [_, _, _] => cases h
    · rw [if_neg hu] at h
      cases hescaped : escaped e with
      | none =>
        rw [hescaped] at h
        cases h
      | some c =>
        rw [hescaped] at h
        exact .inl ⟨e, c, text, rfl, hescaped, h⟩

private theorem hex4_quote {a b c d : Char} {n : ℕ} (h : hex4 a b c d = some n) :
    a ≠ '"' ∧ b ≠ '"' ∧ c ≠ '"' ∧ d ≠ '"' := by
  have hquote : hexDigit '"' = none := by decide
  refine ⟨?_, ?_, ?_, ?_⟩ <;> rintro rfl <;> simp [hex4, hquote] at h

/-- How the pieces can come from a string: they are fewer than its characters, or these stand for
themselves, or the last of them escapes the quotation mark and a comma behind it is read, too. -/
def Accounts (s : List Char) (pieces : List Piece) : Prop :=
  pieces.length < s.length ∨ (∀ c ∈ s, Plain c) ∨
    s.getLast? = some '\\' ∧ ∃ front, pieces = front ++ [.char ',']

theorem Accounts.escape {before after : List Char} {piece : Piece} (h : Accounts after pieces)
    (hscan : scanPieces (after ++ '"' :: rest) = some (pieces, r)) (htwo : 2 ≤ before.length) :
    Accounts (before ++ after) (piece :: pieces) := by
  rw [Accounts, List.length_append, List.length_cons]
  rcases h with hless | hplain | ⟨hlast, front, rfl⟩
  · exact .inl (by omega)
  · rw [scanPieces_plain hplain] at hscan
    obtain ⟨rfl, -⟩ := Prod.mk.inj (Option.some.inj hscan)
    rw [List.length_map]
    exact .inl (by omega)
  · refine .inr (.inr ⟨?_, piece :: front, rfl⟩)
    rw [List.getLast?_append, hlast, Option.some_or]

theorem Accounts.plain_cons (h : Accounts s pieces) (hc : Plain c) :
    Accounts (c :: s) (.char c :: pieces) := by
  rcases h with hless | hplain | ⟨hlast, front, rfl⟩
  · exact .inl (Nat.succ_lt_succ hless)
  · exact .inr (.inl (List.forall_mem_cons.mpr ⟨hc, hplain⟩))
  · refine .inr (.inr ⟨?_, .char c :: front, rfl⟩)
    have hcons := @List.getLast?_append _ [c] s
    rw [List.singleton_append] at hcons
    rw [hcons, hlast, Option.some_or]

/-- Four digits behind `\u` end before a quotation mark does. -/
theorem split_of_hex4 {a b c d : Char} {after tail : List Char} {n : ℕ}
    (htext : s ++ '"' :: tail = 'u' :: a :: b :: c :: d :: after) (h : hex4 a b c d = some n) :
    5 ≤ s.length ∧ s.drop 5 ++ '"' :: tail = after := by
  obtain ⟨ha, hb, hc, hd⟩ := hex4_quote h
  have hfive : 5 ≤ s.length := by
    by_contra hfive
    -- The quotation mark would be one of the digits.
    have hmark := congrArg (·[s.length]?) htext
    simp only [List.getElem?_append_right (Nat.le_refl _), Nat.sub_self,
      List.getElem?_cons_zero] at hmark
    have hlt : s.length < 5 := Nat.lt_of_not_le hfive
    generalize s.length = k at hmark hlt
    match k, hlt with
    | 0, _ => exact absurd (Option.some.inj hmark) (by decide)
    | 1, _ => exact absurd (Option.some.inj hmark).symm ha
    | 2, _ => exact absurd (Option.some.inj hmark).symm hb
    | 3, _ => exact absurd (Option.some.inj hmark).symm hc
    | 4, _ => exact absurd (Option.some.inj hmark).symm hd
  refine ⟨hfive, ?_⟩
  rw [← List.drop_append_of_le_length hfive, htext]
  rfl

/-- What is scanned of a text that goes on after the quotation mark with a comma and another
one. -/
theorem scanPieces_accounts (n : ℕ) : ∀ {s pieces}, s.length = n →
    scanPieces (s ++ '"' :: ',' :: '"' :: rest) = some (pieces, r) → Accounts s pieces := by
  induction n using Nat.strongRecOn with
  | ind n ih =>
    intro s pieces hlength h
    -- The pieces that are scanned behind the first one.
    have hlater : ∀ {before after : List Char} {piece : Piece}, 2 ≤ before.length →
        s = before ++ after → ((scanPieces (after ++ '"' :: ',' :: '"' :: rest)).map
          fun (pieces, rest) => (piece :: pieces, rest)) = some (pieces, r) →
        Accounts s pieces := by
      intro before after piece htwo hs hscan
      obtain ⟨⟨pieces', r'⟩, hafter, heq⟩ := Option.map_eq_some_iff.mp hscan
      obtain ⟨rfl, rfl⟩ := Prod.mk.inj heq
      have hshort : after.length < n := by
        rw [← hlength, hs, List.length_append]
        omega
      exact hs ▸ (ih _ hshort rfl hafter).escape hafter htwo
    cases s with
    | nil => exact .inr (.inl (by simp))
    | cons c s =>
      rw [List.cons_append] at h
      by_cases hquote : c = '"'
      · rw [hquote, scanPieces.eq_def] at h
        obtain ⟨rfl, -⟩ := Prod.mk.inj (Option.some.inj h)
        exact .inl (Nat.succ_pos _)
      · by_cases hbackslash : c = '\\'
        · subst hbackslash
          rcases scanPieces_backslash h with ⟨e, c, after, htext, hescaped, hscan⟩ |
            ⟨x₁, x₂, x₃, x₄, after, k, htext, hhex, hscan⟩
          · cases s with
            | nil =>
              obtain ⟨rfl, rfl⟩ := List.cons_eq_cons.mp htext
              have hself : escaped '"' = some '"' := by decide
              obtain rfl : '"' = c := Option.some.inj (hself.symm.trans hescaped)
              have hcomma : Plain ',' := by decide
              rw [scanPieces_plain_cons hcomma, scanPieces.eq_def] at hscan
              obtain ⟨rfl, -⟩ := Prod.mk.inj (Option.some.inj hscan)
              exact .inr (.inr ⟨rfl, [.char '"'], rfl⟩)
            | cons e' s =>
              obtain ⟨rfl, rfl⟩ := List.cons_eq_cons.mp htext
              exact @hlater ['\\', e'] _ _ (by simp) rfl hscan
          · obtain ⟨hfive, rfl⟩ := split_of_hex4 htext hhex
            refine @hlater ('\\' :: s.take 5) (s.drop 5) _ ?_ ?_ hscan
            · rw [List.length_cons, List.length_take]
              omega
            · rw [List.cons_append, List.take_append_drop]
        · by_cases hcontrol : c.toNat < 32
          · rw [scanPieces.eq_def] at h
            dsimp only at h
            rw [if_neg hquote, if_neg hbackslash, if_pos hcontrol] at h
            cases h
          · have hplain : Plain c := ⟨hquote, hbackslash, Nat.not_lt.mp hcontrol⟩
            rw [scanPieces_plain_cons hplain] at h
            obtain ⟨⟨pieces', r'⟩, hafter, heq⟩ := Option.map_eq_some_iff.mp h
            obtain ⟨rfl, rfl⟩ := Prod.mk.inj heq
            have hshort : s.length < n := by
              rw [← hlength, List.length_cons]
              omega
            exact (ih _ hshort rfl hafter).plain_cons hplain

/-- A string that is read as it stands, before a comma and another quotation mark, has plain
characters only. -/
theorem plain_of_scanString (h : scanString (s ++ '"' :: ',' :: '"' :: rest) = some (s, r)) :
    ∀ c ∈ s, Plain c := by
  rw [scanString, Option.map_eq_some_iff] at h
  obtain ⟨⟨pieces, r'⟩, hscan, heq⟩ := h
  obtain ⟨hjoin, -⟩ := Prod.mk.inj heq
  rcases scanPieces_accounts _ rfl hscan with hless | hplain | ⟨hlast, front, rfl⟩
  · have hle := join_length_le pieces
    rw [hjoin] at hle
    omega
  · exact hplain
  · rw [join_concat] at hjoin
    rw [← hjoin, List.getLast?_concat] at hlast
    exact absurd hlast (by decide)

end Strings

/-! ## Members of an object -/

section Members

variable {fuel : ℕ} {name rest : List Char} {c : Char}

theorem skip_cons (h : isSpace c = false) (rest : List Char) : skip (c :: rest) = c :: rest :=
  List.dropWhile_cons_of_neg (by simp [h])

private theorem scanMore_comma {α : Type} {next : List Char → Option (List α × List Char)}
    {item : α} :
    scanMore '}' next item (',' :: rest) =
      (next rest).map fun (items, rest) => (item :: items, rest) := by
  rw [scanMore, skip_cons (by decide)]
  rfl

private theorem scanMore_close {α : Type} {next : List Char → Option (List α × List Char)}
    {item : α} :
    scanMore '}' next item ('}' :: rest) = some ([item], rest) := by
  rw [scanMore, skip_cons (by decide)]
  rfl

private theorem scanMore_head {α : Type} {close : Char}
    {next : List Char → Option (List α × List Char)}
    {item : α} {text r : List Char} {items : List α}
    (h : scanMore close next item text = some (items, r)) : ∃ later, items = item :: later := by
  rw [scanMore] at h
  split at h
  · cases h
  · split at h
    · obtain ⟨rfl, -⟩ := Prod.mk.inj (Option.some.inj h)
      exact ⟨[], rfl⟩
    · split at h
      · obtain ⟨⟨later, r'⟩, -, heq⟩ := Option.map_eq_some_iff.mp h
        obtain ⟨rfl, -⟩ := Prod.mk.inj heq
        exact ⟨later, rfl⟩
      · cases h

def member (name text : List Char) : List Char :=
  '"' :: (name ++ '"' :: ':' :: text)

def stringMember (name raw text : List Char) : List Char :=
  member name ('"' :: (raw ++ '"' :: text))

def Members (text : List Char) (members : List (List Char × Value)) : Prop :=
  ∃ fuel rest, scanMembers fuel text = some (members, rest) ∧ skip rest = []

theorem scanMembers_member (hname : ∀ c ∈ name, Plain c) (text : List Char) :
    scanMembers (fuel + 1) (member name text) =
      (scanValue fuel text).bind fun (v, rest) =>
        scanMore '}' (scanMembers fuel) (name, v) rest := by
  rw [member, scanMembers, skip_cons (by decide)]
  dsimp only
  rw [if_pos rfl, scanString_plain hname]
  dsimp only
  rw [skip_cons (by decide)]
  dsimp only
  rw [if_pos rfl]
  cases scanValue fuel text <;> rfl

theorem scanMembers_value (hname : ∀ c ∈ name, Plain c) {text : List Char} {value : Value}
    (hvalue : scanValue fuel text = some (value, rest)) :
    scanMembers (fuel + 1) (member name text) =
      scanMore '}' (scanMembers fuel) (name, value) rest := by
  rw [scanMembers_member hname, hvalue]
  rfl

theorem scanValue_string (raw : List Char) :
    scanValue (fuel + 1) ('"' :: raw) =
      (scanString raw).map fun (s, rest) => (.string s, rest) := by
  rw [scanValue, skip_cons (by decide)]
  rfl

private theorem scanValue_object {first : Char} (hfirst : first ≠ '}')
    (hspace : isSpace first = false) :
    scanValue (fuel + 1) ('{' :: first :: rest) =
      (scanMembers fuel (first :: rest)).map fun (members, rest) => (.object members, rest) := by
  rw [scanValue, skip_cons (by decide)]
  dsimp only
  rw [if_neg (by decide), if_pos rfl, scanItems, skip_cons hspace]
  dsimp only
  rw [if_neg hfirst]

/-! ## Numbers -/

/-- Digits of a number that has no fraction and no exponent. -/
structure Numeral (digits : List Char) : Prop where
  isDigit : ∀ c ∈ digits, c.isDigit = true
  ne_nil : digits ≠ []
  zero : digits.head? = some '0' → digits = ['0']

theorem numeral_toDigits (n : ℕ) : Numeral (Nat.toDigits 10 n) := by
  refine ⟨fun c => Nat.isDigit_of_mem_toDigits (by decide) (by decide), Nat.toDigits_ne_nil,
    fun hhead => ?_⟩
  -- The first digit is zero for zero only.
  have hzero : n = 0 := by
    induction n using Nat.strongRecOn with
    | ind n ih =>
      rw [Nat.toDigits_eq_if (by decide)] at hhead
      split at hhead
      · rename_i hlt
        have hall : ∀ i : Fin 10, Nat.digitChar i = '0' → i = 0 := by decide
        exact congrArg Fin.val (hall ⟨n, hlt⟩ (Option.some.inj hhead))
      · rename_i hge
        have hne := Nat.toDigits_ne_nil (b := 10) (n := n / 10)
        rw [List.head?_append_of_ne_nil _ hne] at hhead
        have hdiv := ih (n / 10) (by omega) hhead
        omega
  rw [hzero]
  rfl

section Numeral

variable {digits : List Char}

theorem Numeral.scanUnsigned (h : Numeral digits) (rest : List Char) :
    scanUnsigned (digits ++ ',' :: rest) = some (digits, ',' :: rest) := by
  obtain ⟨c, tail, rfl⟩ := List.exists_cons_of_ne_nil h.ne_nil
  have hscan : scanDigits (c :: tail ++ ',' :: rest) = some (c :: tail, ',' :: rest) := by
    rw [scanDigits, List.takeWhile_append_of_pos h.isDigit, List.dropWhile_append_of_pos h.isDigit]
    simp
  have hint : scanInt (c :: tail ++ ',' :: rest) = some (c :: tail, ',' :: rest) := by
    by_cases hc : c = '0'
    · subst hc
      obtain ⟨-, rfl⟩ := List.cons_eq_cons.mp (h.zero rfl)
      rfl
    · rw [List.cons_append] at hscan ⊢
      rw [scanInt, hscan]
      intro rest' heq
      exact hc (List.cons_eq_cons.mp heq).1
  have hpart : ∀ marks part, ',' ∉ marks →
      scanPart marks part (',' :: rest) = some ([], ',' :: rest) :=
    fun marks part hmarks => if_neg hmarks
  rw [Json.scanUnsigned, hint]
  simp [hpart]

theorem scanValue_number (hfirst : c = '-' ∨ c.isDigit = true) :
    scanValue (fuel + 1) (c :: rest) =
      (scanNumber (c :: rest)).map fun (number, rest) => (.number number, rest) := by
  have hne : ∀ d : Char, d ≠ '-' → d.isDigit = false → c ≠ d := by
    rintro d hd hdigit rfl
    simp [hd, hdigit] at hfirst
  have hspace : isSpace c = false := by
    simp [isSpace, hne ' ' (by decide) (by decide), hne '\t' (by decide) (by decide),
      hne '\n' (by decide) (by decide), hne '\r' (by decide) (by decide)]
  rw [scanValue, skip_cons hspace]
  dsimp only
  rw [if_neg (hne _ (by decide) (by decide)), if_neg (hne _ (by decide) (by decide)),
    if_neg (hne _ (by decide) (by decide)), if_neg (hne _ (by decide) (by decide)),
    if_neg (hne _ (by decide) (by decide)), if_neg (hne _ (by decide) (by decide))]

theorem Numeral.scanValue (h : Numeral digits) (rest : List Char) :
    scanValue (fuel + 1) (digits ++ ',' :: rest) = some (.number digits, ',' :: rest) := by
  have hscan := h.scanUnsigned rest
  obtain ⟨c, tail, rfl⟩ := List.exists_cons_of_ne_nil h.ne_nil
  have hdigit : c.isDigit = true := h.isDigit c List.mem_cons_self
  rw [List.cons_append] at hscan ⊢
  rw [scanValue_number (.inr hdigit), scanNumber, hscan]
  · rfl
  · intro rest' heq
    obtain ⟨rfl, -⟩ := List.cons_eq_cons.mp heq
    exact absurd hdigit (by decide)

theorem Numeral.scanValue_minus (h : Numeral digits) (rest : List Char) :
    Json.scanValue (fuel + 1) ('-' :: (digits ++ ',' :: rest)) =
      some (.number ('-' :: digits), ',' :: rest) := by
  rw [scanValue_number (.inl rfl), scanNumber, h.scanUnsigned]
  rfl

end Numeral

/-! ## Objects -/

section Objects

variable {members : List (List Char × Value)} {raw s text : List Char} {value : Value}

theorem not_members_fuel_zero {r : List Char} : scanMembers 0 text ≠ some (members, r) := by
  rw [scanMembers]
  exact nofun

/-- A member that is read up to a comma. -/
theorem members_member_iff (hname : ∀ c ∈ name, Plain c)
    (hvalue : ∀ fuel, scanValue (fuel + 1) text = some (value, ',' :: rest)) :
    Members (member name text) members ↔
      ∃ later, members = (name, value) :: later ∧ Members rest later := by
  constructor
  · rintro ⟨fuel, after, hscan, hafter⟩
    match fuel with
    | 0 => exact absurd hscan not_members_fuel_zero
    | 1 =>
      rw [scanMembers_member hname, scanValue] at hscan
      cases hscan
    | fuel + 2 =>
      rw [scanMembers_value hname (hvalue fuel), scanMore_comma] at hscan
      obtain ⟨⟨later, r⟩, hlater, heq⟩ := Option.map_eq_some_iff.mp hscan
      obtain ⟨rfl, rfl⟩ := Prod.mk.inj heq
      exact ⟨later, rfl, _, r, hlater, hafter⟩
  · rintro ⟨later, rfl, fuel, after, hscan, hafter⟩
    match fuel with
    | 0 => exact absurd hscan not_members_fuel_zero
    | fuel + 1 =>
      refine ⟨fuel + 2, after, ?_, hafter⟩
      rw [scanMembers_value hname (hvalue fuel), scanMore_comma, hscan]
      rfl

theorem members_string_iff (hname : ∀ c ∈ name, Plain c)
    (hraw : scanString (raw ++ '"' :: ',' :: rest) = some (s, ',' :: rest)) :
    Members (stringMember name raw (',' :: rest)) members ↔
      ∃ later, members = (name, .string s) :: later ∧ Members rest later := by
  refine members_member_iff hname fun fuel => ?_
  rw [scanValue_string, hraw]
  rfl

theorem members_last (hname : ∀ c ∈ name, Plain c) (hraw : ∀ c ∈ raw, Plain c) :
    Members (stringMember name raw ['}']) [(name, .string raw)] := by
  refine ⟨2, [], ?_, rfl⟩
  have hvalue : scanValue 1 ('"' :: (raw ++ '"' :: ['}'])) = some (.string raw, ['}']) := by
    rw [scanValue_string, scanString_plain hraw]
    rfl
  rw [stringMember, scanMembers_value hname hvalue]
  exact scanMore_close

/-- However a string is written, it is scanned, and it is the first of the members. -/
theorem Members.string (hname : ∀ c ∈ name, Plain c)
    (h : Members (stringMember name raw text) members) :
    ∃ s rest later, scanString (raw ++ '"' :: text) = some (s, rest) ∧
      members = (name, .string s) :: later := by
  obtain ⟨fuel, after, hscan, -⟩ := h
  match fuel with
  | 0 => exact absurd hscan not_members_fuel_zero
  | 1 =>
    rw [stringMember, scanMembers_member hname, scanValue] at hscan
    cases hscan
  | fuel + 2 =>
    rw [stringMember, scanMembers_member hname, scanValue_string, Option.bind_eq_some_iff]
      at hscan
    obtain ⟨⟨v, rest⟩, hvalue, hmore⟩ := hscan
    obtain ⟨⟨s, rest'⟩, hs, heq⟩ := Option.map_eq_some_iff.mp hvalue
    obtain ⟨rfl, rfl⟩ := Prod.mk.inj heq
    obtain ⟨later, hlater⟩ := scanMore_head hmore
    exact ⟨s, rest', later, hs, hlater⟩

theorem parses_object_iff :
    Parses ('{' :: member name text) (.object members) ↔ Members (member name text) members := by
  constructor
  · rintro ⟨fuel, after, hscan, hafter⟩
    match fuel with
    | 0 =>
      rw [scanValue] at hscan
      cases hscan
    | fuel + 1 =>
      rw [member, scanValue_object (by decide) (by decide)] at hscan
      obtain ⟨⟨members', r⟩, hmembers, heq⟩ := Option.map_eq_some_iff.mp hscan
      obtain ⟨hobject, rfl⟩ := Prod.mk.inj heq
      obtain rfl : members' = members := Value.object.inj hobject
      exact ⟨fuel, r, hmembers, hafter⟩
  · rintro ⟨fuel, after, hscan, hafter⟩
    refine ⟨fuel + 1, after, ?_, hafter⟩
    rw [member] at hscan ⊢
    rw [scanValue_object (by decide) (by decide), hscan]
    rfl

end Objects

end Members

end Json
