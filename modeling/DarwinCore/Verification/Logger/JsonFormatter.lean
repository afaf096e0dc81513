import DarwinCore.Model.Logger.LogFormatter

/-! # Log entries in JSON -/

namespace DarwinCore.Log

open Json

variable {message file function text : List Char} {c : Char}

/-! ## Characters and bytes -/

private theorem utf8_append (text text' : List Char) :
    utf8 (text ++ text') = utf8 text ++ utf8 text' :=
  List.flatMap_append

theorem utf8_injective {text text' : List Char} (h : utf8 text = utf8 text') : text = text' := by
  have hbytes : (String.ofList text).toByteArray = (String.ofList text').toByteArray := by
    rw [String.toByteArray_ofList, String.toByteArray_ofList]
    exact congrArg List.toByteArray h
  exact String.ofList_injective (String.toByteArray_inj.mp hbytes)

private theorem utf8_eq_nil_iff : utf8 text = [] ↔ text = [] := by
  refine ⟨fun h => utf8_injective (h.trans rfl), fun h => h ▸ rfl⟩

private theorem le_of_mem_utf8EncodeChar (h : 128 ≤ c.toNat) :
    ∀ b ∈ String.utf8EncodeChar c, 128 ≤ b := by
  intro b hb
  have hval : c.val.toNat = c.toNat := rfl
  simp only [String.utf8EncodeChar, hval] at hb
  rw [UInt8.le_iff_toNat_le]
  split at hb
  · omega
  · split at hb <;> [skip; split at hb] <;>
      simp only [List.mem_cons, List.not_mem_nil, or_false] at hb <;>
      rcases hb with rfl | rfl | rfl | rfl <;> simp <;> omega

namespace JsonFormatter

/-! ## The text -/

def timestampKey : List Char := ['t', 'i', 'm', 'e', 's', 't', 'a', 'm', 'p']
def levelKey : List Char := ['l', 'e', 'v', 'e', 'l']
def messageKey : List Char := ['m', 'e', 's', 's', 'a', 'g', 'e']
def fileKey : List Char := ['f', 'i', 'l', 'e']
def lineKey : List Char := ['l', 'i', 'n', 'e']
def functionKey : List Char := ['f', 'u', 'n', 'c', 't', 'i', 'o', 'n']
def threadKey : List Char := ['t', 'h', 'r', 'e', 'a', 'd']

theorem plain_keys : ∀ key ∈ [timestampKey, levelKey, messageKey, fileKey, lineKey, functionKey,
    threadKey], ∀ c ∈ key, Plain c := by
  have hall : [timestampKey, levelKey, messageKey, fileKey, lineKey, functionKey, threadKey].all
      fun key => key.all fun c => decide (Plain c) := by decide
  exact fun key hkey => plain_of_all (List.all_eq_true.mp hall key hkey)

/-- What stands for a character of the message. -/
def escapeChar (c : Char) : List Char :=
  if c = '"' then ['\\', '"']
  else if c = '\\' then ['\\', '\\']
  else if c = '\n' then ['\\', 'n']
  else if c = '\r' then ['\\', 'r']
  else if c = '\t' then ['\\', 't']
  else [c]

/-- The bytes of a character are escaped as the character is. -/
private theorem escapeJson_utf8EncodeChar (c : Char) :
    (String.utf8EncodeChar c).flatMap escapeByte = utf8 (escapeChar c) := by
  by_cases hascii : c.toNat < 128
  · have hall : ∀ n < 128, (String.utf8EncodeChar (Char.ofNat n)).flatMap escapeByte =
        utf8 (escapeChar (Char.ofNat n)) := by decide +kernel
    have hc := hall c.toNat hascii
    rwa [Char.ofNat_toNat] at hc
  · have hbytes : ∀ b ∈ String.utf8EncodeChar c, escapeByte b = [b] := by
      intro b hb
      have hle := le_of_mem_utf8EncodeChar (Nat.le_of_not_lt hascii) b hb
      have hne : ∀ k : UInt8, k < 128 → b ≠ k := by
        rintro k hk rfl
        exact absurd hle (UInt8.not_le.mpr hk)
      simp [escapeByte, hne 34 (by decide), hne 92 (by decide), hne 10 (by decide),
        hne 13 (by decide), hne 9 (by decide)]
    have hne : ∀ k : Char, k.toNat < 128 → c ≠ k := by
      rintro k hk rfl
      exact hascii hk
    have hself : escapeChar c = [c] := by
      simp [escapeChar, hne '"' (by decide), hne '\\' (by decide), hne '\n' (by decide),
        hne '\r' (by decide), hne '\t' (by decide)]
    rw [hself, List.flatMap_congr hbytes]
    simp [utf8, List.flatMap_singleton']

private theorem escapeJson_utf8 (text : List Char) :
    escapeJson (utf8 text) = utf8 (text.flatMap escapeChar) := by
  rw [escapeJson, utf8, utf8, List.flatMap_assoc, List.flatMap_assoc]
  exact List.flatMap_congr fun c _ => escapeJson_utf8EncodeChar c

def threadMember (runtime : Runtime) (entry : LogEntry) : List Char :=
  stringMember threadKey (runtime.threadText entry.threadId) ['}']

def functionMembers (runtime : Runtime) (entry : LogEntry) (function : List Char) : List Char :=
  if function = [] then threadMember runtime entry
  else stringMember functionKey function (',' :: threadMember runtime entry)

def fileMembers (runtime : Runtime) (entry : LogEntry) (file function : List Char) : List Char :=
  if file = [] then functionMembers runtime entry function
  else
    stringMember fileKey file
      (',' :: member lineKey
        (Duration.write entry.line ++ ',' :: functionMembers runtime entry function))

def messageMembers (runtime : Runtime) (entry : LogEntry) (message file function : List Char) :
    List Char :=
  stringMember messageKey (message.flatMap escapeChar)
    (',' :: fileMembers runtime entry file function)

def lineText (runtime : Runtime) (entry : LogEntry) (message file function : List Char) :
    List Char :=
  '{' :: stringMember timestampKey (putTime (runtime.localtime entry.timestamp))
    (',' :: stringMember levelKey (logLevelName entry.level).toList
      (',' :: messageMembers runtime entry message file function))

def withTexts (entry : LogEntry) (message file function : List Char) : LogEntry :=
  { entry with message := utf8 message, file := utf8 file, function := utf8 function }

theorem format_eq (runtime : Runtime) (entry : LogEntry) (message file function : List Char) :
    format runtime (withTexts entry message file function) =
      utf8 (lineText runtime entry message file function) := by
  have hempty (text : List Char) : (utf8 text).isEmpty = true ↔ text = [] :=
    List.isEmpty_iff.trans utf8_eq_nil_iff
  simp only [format, withTexts, hempty, literal, formatTime, escapeJson_utf8, ← utf8_append]
  by_cases hf : file = [] <;> by_cases hg : function = [] <;>
    simp only [hf, hg, if_true, if_false, ← utf8_append] <;>
    refine congrArg utf8 ?_ <;>
    simp [lineText, messageMembers, fileMembers, functionMembers, threadMember, stringMember,
      member, hf, hg, timestampKey, levelKey, messageKey, fileKey, lineKey, functionKey, threadKey]

/-! ## What is written plainly -/

private theorem plain_of_isDigit (h : c.isDigit = true) : Plain c := by
  rw [Char.isDigit_iff_toNat] at h
  have hzero : 48 ≤ c.toNat := h.1
  have hnine : c.toNat ≤ 57 := h.2
  refine ⟨?_, ?_, by omega⟩
  · rintro rfl
    exact absurd hzero (by decide)
  · rintro rfl
    exact absurd hnine (by decide)

theorem plain_write (n : ℤ) : ∀ c ∈ Duration.write n, Plain c := by
  have hdigits : ∀ c ∈ Nat.toDigits 10 n.natAbs, Plain c := fun c hc =>
    plain_of_isDigit ((numeral_toDigits _).isDigit c hc)
  rw [Duration.write]
  split
  · exact List.forall_mem_cons.mpr ⟨by decide, hdigits⟩
  · exact hdigits

private theorem plain_twoDigits (n : ℤ) : ∀ c ∈ twoDigits n, Plain c := by
  rw [twoDigits]
  split
  · exact List.forall_mem_cons.mpr ⟨by decide, plain_write n⟩
  · exact plain_write n

theorem plain_putTime (tm : Tm) : ∀ c ∈ putTime tm, Plain c := by
  have hsigns : ∀ c ∈ ['-', 'T', ':'], Plain c := plain_of_all (by decide)
  intro c hc
  simp only [putTime, List.mem_append, List.mem_singleton] at hc
  rcases hc with (((((((((hc | hc) | hc) | hc) | hc) | hc) | hc) | hc) | hc) | hc) | hc
  · exact plain_write _ c hc
  · exact hsigns c (by simp [hc])
  · exact plain_twoDigits _ c hc
  · exact hsigns c (by simp [hc])
  · exact plain_twoDigits _ c hc
  · exact hsigns c (by simp [hc])
  · exact plain_twoDigits _ c hc
  · exact hsigns c (by simp [hc])
  · exact plain_twoDigits _ c hc
  · exact hsigns c (by simp [hc])
  · exact plain_twoDigits _ c hc

theorem plain_logLevelName (level : LogLevel) : ∀ c ∈ (logLevelName level).toList, Plain c := by
  cases level <;> exact plain_of_all (by decide)

/-! ## The message -/

/-- A character that `escapeJson` leaves or makes one of those of a string. -/
def Written (c : Char) : Prop :=
  32 ≤ c.toNat ∨ c = '\n' ∨ c = '\r' ∨ c = '\t'

instance : DecidablePred Written := fun c =>
  inferInstanceAs (Decidable (32 ≤ c.toNat ∨ c = '\n' ∨ c = '\r' ∨ c = '\t'))

/-- A character is escaped, and can be, or it stands for itself. -/
theorem escapeChar_cases (c : Char) :
    (∃ e, escapeChar c = ['\\', e] ∧ escaped e = some c ∧ Written c ∧ 32 ≤ e.toNat) ∨
      escapeChar c = [c] ∧ c ≠ '"' ∧ c ≠ '\\' ∧ c ≠ '\n' ∧ c ≠ '\r' ∧ c ≠ '\t' := by
  by_cases hquote : c = '"'
  · subst hquote
    exact .inl ⟨'"', by decide⟩
  by_cases hbackslash : c = '\\'
  · subst hbackslash
    exact .inl ⟨'\\', by decide⟩
  by_cases hn : c = '\n'
  · subst hn
    exact .inl ⟨'n', by decide⟩
  by_cases hr : c = '\r'
  · subst hr
    exact .inl ⟨'r', by decide⟩
  by_cases ht : c = '\t'
  · subst ht
    exact .inl ⟨'t', by decide⟩
  refine .inr ⟨?_, hquote, hbackslash, hn, hr, ht⟩
  rw [escapeChar, if_neg hquote, if_neg hbackslash, if_neg hn, if_neg hr, if_neg ht]

theorem scanPieces_escapeChar (h : Written c) (rest : List Char) :
    scanPieces (escapeChar c ++ rest) =
      (scanPieces rest).map fun (pieces, rest) => (.char c :: pieces, rest) := by
  rcases escapeChar_cases c with ⟨e, he, hc, -⟩ | ⟨hself, hquote, hbackslash, hn, hr, ht⟩
  · rw [he]
    exact scanPieces_escape hc rest
  · have hlarge : 32 ≤ c.toNat := by simpa [Written, hn, hr, ht] using h
    rw [hself]
    exact scanPieces_plain_cons ⟨hquote, hbackslash, hlarge⟩ rest

private theorem scanPieces_control (h : ¬Written c) (rest : List Char) :
    scanPieces (escapeChar c ++ rest) = none := by
  rcases escapeChar_cases c with ⟨-, -, -, hwritten, -⟩ | ⟨hself, hquote, hbackslash, -⟩
  · exact absurd hwritten h
  · have hsmall : c.toNat < 32 := Nat.lt_of_not_le fun hlarge => h (.inl hlarge)
    rw [hself, List.singleton_append, scanPieces.eq_def]
    dsimp only
    rw [if_neg hquote, if_neg hbackslash, if_pos hsmall]

theorem scanString_escape (h : ∀ c ∈ message, Written c) (rest : List Char) :
    scanString (message.flatMap escapeChar ++ '"' :: rest) = some (message, rest) := by
  have hpieces : scanPieces (message.flatMap escapeChar ++ '"' :: rest) =
      some (message.map .char, rest) := by
    induction message with
    | nil =>
      rw [List.flatMap_nil, List.nil_append, scanPieces.eq_def]
      exact if_pos rfl
    | cons c message ih =>
      obtain ⟨hc, hmessage⟩ := List.forall_mem_cons.mp h
      rw [List.flatMap_cons, List.append_assoc, scanPieces_escapeChar hc, ih hmessage]
      rfl
  rw [scanString, hpieces, Option.map_some]
  exact congrArg (fun s => some (s, rest)) (join_map_char message)

private theorem written_of_scanString {rest : List Char} {result : List Char × List Char}
    (h : scanString (message.flatMap escapeChar ++ '"' :: rest) = some result) :
    ∀ c ∈ message, Written c := by
  obtain ⟨scanned, hscanned, -⟩ := Option.map_eq_some_iff.mp h
  clear h
  induction message generalizing scanned with
  | nil => simp
  | cons c message ih =>
    rw [List.flatMap_cons, List.append_assoc] at hscanned
    by_cases hc : Written c
    · rw [scanPieces_escapeChar hc, Option.map_eq_some_iff] at hscanned
      obtain ⟨scanned', hscanned', -⟩ := hscanned
      exact List.forall_mem_cons.mpr ⟨hc, ih scanned' hscanned'⟩
    · rw [scanPieces_control hc] at hscanned
      cases hscanned

/-- A line has no control characters, if the message has none but those that are escaped. -/
theorem large_of_mem_escapeChar (h : Written c) : ∀ d ∈ escapeChar c, 32 ≤ d.toNat := by
  rcases escapeChar_cases c with ⟨e, he, -, -, hlarge⟩ | ⟨hself, -, -, hn, hr, ht⟩
  · rw [he]
    exact List.forall_mem_cons.mpr ⟨by decide, List.forall_mem_singleton.mpr hlarge⟩
  · rw [hself]
    exact List.forall_mem_singleton.mpr (by simpa [Written, hn, hr, ht] using h)

/-! ## The members -/

/-- The string of the first member of the name; a member that is left out stands for the empty
string. -/
def field (members : List (List Char × Value)) (name : List Char) : Option (List Char) :=
  match members.lookup name with
  | none => some []
  | some (.string s) => some s
  | some _ => none

section Members

variable {runtime : Runtime} {entry : LogEntry} {members : List (List Char × Value)}
  {name key : List Char} {value : Value}

theorem field_cons_self (s : List Char) :
    field ((name, .string s) :: members) name = some s := by
  rw [field, List.lookup_cons_self]

theorem field_cons_ne (h : key ≠ name) :
    field ((name, value) :: members) key = field members key := by
  rw [field, List.lookup_cons, beq_false_of_ne h, field]

theorem scanValue_write {fuel : ℕ} (n : ℤ) (rest : List Char) :
    scanValue (fuel + 1) (Duration.write n ++ ',' :: rest) =
      some (.number (Duration.write n), ',' :: rest) := by
  rw [Duration.write]
  split
  · exact (numeral_toDigits _).scanValue_minus rest
  · exact (numeral_toDigits _).scanValue rest

private theorem members_thread :
    Members (threadMember runtime entry)
      [(threadKey, .string (runtime.threadText entry.threadId))] :=
  members_last (plain_keys _ (by simp)) (runtime.threadText_plain _)

private theorem function_shown (runtime : Runtime) (entry : LogEntry)
    (h : ∀ c ∈ function, Plain c) :
    ∃ members, Members (functionMembers runtime entry function) members ∧
      field members functionKey = some function ∧ field members fileKey = some [] := by
  by_cases hempty : function = []
  · rw [functionMembers, if_pos hempty, hempty]
    exact ⟨_, members_thread, rfl, rfl⟩
  · rw [functionMembers, if_neg hempty]
    refine ⟨_, (members_string_iff (plain_keys _ (by simp)) (scanString_plain h _)).mpr
      ⟨_, rfl, members_thread⟩, field_cons_self function, rfl⟩

private theorem plain_of_function_shown
    (hmembers : Members (functionMembers runtime entry function) members)
    (hfield : field members functionKey = some function) : ∀ c ∈ function, Plain c := by
  by_cases hempty : function = []
  · simp [hempty]
  · rw [functionMembers, if_neg hempty] at hmembers
    obtain ⟨s, rest, later, hscan, rfl⟩ := hmembers.string (plain_keys _ (by simp))
    rw [field_cons_self, Option.some_inj] at hfield
    rw [hfield] at hscan
    exact plain_of_scanString hscan

private theorem file_shown (runtime : Runtime) (entry : LogEntry) (hfile : ∀ c ∈ file, Plain c)
    (hfunction : ∀ c ∈ function, Plain c) :
    ∃ members, Members (fileMembers runtime entry file function) members ∧
      field members fileKey = some file ∧ field members functionKey = some function := by
  obtain ⟨later, hlater, hshown, habsent⟩ :=
    function_shown runtime entry hfunction
  by_cases hempty : file = []
  · rw [fileMembers, if_pos hempty, hempty]
    exact ⟨later, hlater, habsent, hshown⟩
  · rw [fileMembers, if_neg hempty]
    have hline := (members_member_iff (plain_keys lineKey (by simp))
      fun _ => scanValue_write entry.line _).mpr ⟨later, rfl, hlater⟩
    refine ⟨_, (members_string_iff (plain_keys _ (by simp)) (scanString_plain hfile _)).mpr
      ⟨_, rfl, hline⟩, field_cons_self file, ?_⟩
    rw [field_cons_ne (by decide), field_cons_ne (by decide), hshown]

private theorem plain_of_file_shown
    (hmembers : Members (fileMembers runtime entry file function) members)
    (hfile : field members fileKey = some file)
    (hfunction : field members functionKey = some function) :
    (∀ c ∈ file, Plain c) ∧ ∀ c ∈ function, Plain c := by
  by_cases hempty : file = []
  · rw [fileMembers, if_pos hempty] at hmembers
    exact ⟨by simp [hempty], plain_of_function_shown hmembers hfunction⟩
  · rw [fileMembers, if_neg hempty] at hmembers
    obtain ⟨s, rest, later, hscan, hcons⟩ := hmembers.string (plain_keys _ (by simp))
    rw [hcons, field_cons_self, Option.some_inj] at hfile
    rw [hfile] at hscan
    have hplain : ∀ c ∈ file, Plain c := plain_of_scanString hscan
    obtain ⟨later, rfl, hline⟩ :=
      (members_string_iff (plain_keys _ (by simp)) (scanString_plain hplain _)).mp hmembers
    obtain ⟨later, rfl, hlater⟩ := (members_member_iff (plain_keys _ (by simp))
      fun _ => scanValue_write entry.line _).mp hline
    rw [field_cons_ne (by decide), field_cons_ne (by decide)] at hfunction
    exact ⟨hplain, plain_of_function_shown hlater hfunction⟩

theorem parses_lineText_iff :
    Parses (lineText runtime entry message file function) (.object members) ↔
      ∃ later, members =
          (timestampKey, .string (putTime (runtime.localtime entry.timestamp))) ::
            (levelKey, .string (logLevelName entry.level).toList) :: later ∧
        Members (messageMembers runtime entry message file function) later := by
  rw [lineText, stringMember, parses_object_iff, ← stringMember,
    members_string_iff (plain_keys _ (by simp)) (scanString_plain (plain_putTime _) _)]
  constructor
  · rintro ⟨later, rfl, hlevel⟩
    rw [members_string_iff (plain_keys _ (by simp)) (scanString_plain (plain_logLevelName _) _)]
      at hlevel
    obtain ⟨later, rfl, hlater⟩ := hlevel
    exact ⟨later, rfl, hlater⟩
  · rintro ⟨later, rfl, hlater⟩
    refine ⟨_, rfl, ?_⟩
    rw [members_string_iff (plain_keys _ (by simp)) (scanString_plain (plain_logLevelName _) _)]
    exact ⟨later, rfl, hlater⟩

end Members

/-! ## The line -/

/-- There are no control characters in a text. -/
def Large (text : List Char) : Prop :=
  ∀ c ∈ text, 32 ≤ c.toNat

section Large

variable {key raw text : List Char}

theorem large_of_plain (h : ∀ c ∈ raw, Plain c) : Large raw :=
  fun c hc => (h c hc).2.2

theorem Large.cons (h : Large text) (hc : 32 ≤ c.toNat) : Large (c :: text) :=
  List.forall_mem_cons.mpr ⟨hc, h⟩

theorem Large.append (hraw : Large raw) (h : Large text) : Large (raw ++ text) :=
  List.forall_mem_append.mpr ⟨hraw, h⟩

theorem Large.member (h : Large text) (hkey : ∀ c ∈ key, Plain c) : Large (member key text) :=
  ((large_of_plain hkey).append ((h.cons (by decide)).cons (by decide))).cons (by decide)

theorem Large.stringMember (h : Large text) (hkey : ∀ c ∈ key, Plain c) (hraw : Large raw) :
    Large (stringMember key raw (',' :: text)) := by
  have htext : Large ('"' :: ',' :: text) := (h.cons (by decide)).cons (by decide)
  exact Large.member ((hraw.append htext).cons (by decide)) hkey

end Large

/-- The members have no control characters if the strings that stand in them have none. -/
theorem large_lineText (runtime : Runtime) (entry : LogEntry)
    (hmessage : ∀ c ∈ message, Written c) (hfile : ∀ c ∈ file, Plain c)
    (hfunction : ∀ c ∈ function, Plain c) :
    Large (lineText runtime entry message file function) := by
  have hend : Large ['"', '}'] :=
    ((large_of_plain (List.forall_mem_nil _)).cons (by decide)).cons (by decide)
  have hthread : Large (threadMember runtime entry) :=
    Large.member (((large_of_plain (runtime.threadText_plain _)).append hend).cons (by decide))
      (plain_keys _ (by simp))
  have hfunctions : Large (functionMembers runtime entry function) := by
    rw [functionMembers]
    split
    · exact hthread
    · exact hthread.stringMember (plain_keys _ (by simp)) (large_of_plain hfunction)
  have hfiles : Large (fileMembers runtime entry file function) := by
    rw [fileMembers]
    split
    · exact hfunctions
    · have hline : Large (Duration.write entry.line ++ ',' ::
          functionMembers runtime entry function) :=
        (large_of_plain (plain_write _)).append (hfunctions.cons (by decide))
      exact (hline.member (plain_keys lineKey (by simp))).stringMember (plain_keys _ (by simp))
        (large_of_plain hfile)
  have hescaped : Large (message.flatMap escapeChar) := by
    intro d hd
    obtain ⟨c, hc, hd⟩ := List.mem_flatMap.mp hd
    exact large_of_mem_escapeChar (hmessage c hc) d hd
  have hmessages : Large (messageMembers runtime entry message file function) :=
    hfiles.stringMember (plain_keys _ (by simp)) hescaped
  have hlevel := hmessages.stringMember (plain_keys levelKey (by simp))
    (large_of_plain (plain_logLevelName entry.level))
  have htimestamp := hlevel.stringMember (plain_keys timestampKey (by simp))
    (large_of_plain (plain_putTime (runtime.localtime entry.timestamp)))
  exact htimestamp.cons (by decide)

/-- The line is one object without line breaks, and its members are the strings of the entry. -/
def ShowsEntry (runtime : Runtime) (entry : LogEntry) (message file function : List Char) : Prop :=
  ∃ text members, format runtime (withTexts entry message file function) = utf8 text ∧
    (∀ c ∈ text, c ≠ '\n' ∧ c ≠ '\r') ∧ Parses text (.object members) ∧
    field members messageKey = some message ∧ field members fileKey = some file ∧
    field members functionKey = some function

section Shows

variable {runtime : Runtime} {entry : LogEntry}

theorem ShowsEntry.written (h : ShowsEntry runtime entry message file function) :
    (∀ c ∈ message, Written c) ∧ (∀ c ∈ file, Plain c) ∧ ∀ c ∈ function, Plain c := by
  obtain ⟨text, members, htext, -, hparses, hmessage, hfile, hfunction⟩ := h
  rw [format_eq] at htext
  obtain rfl := utf8_injective htext
  obtain ⟨later, rfl, hlater⟩ := parses_lineText_iff.mp hparses
  rw [field_cons_ne (by decide), field_cons_ne (by decide)] at hmessage hfile hfunction
  have hwritten : ∀ c ∈ message, Written c := by
    obtain ⟨s, rest, later, hscan, -⟩ := hlater.string (plain_keys _ (by simp))
    exact written_of_scanString hscan
  obtain ⟨files, rfl, hfiles⟩ :=
    (members_string_iff (plain_keys _ (by simp)) (scanString_escape hwritten _)).mp hlater
  rw [field_cons_ne (by decide)] at hfile hfunction
  exact ⟨hwritten, plain_of_file_shown hfiles hfile hfunction⟩

private theorem showsEntry_of_written (hmessage : ∀ c ∈ message, Written c)
    (hfile : ∀ c ∈ file, Plain c)
    (hfunction : ∀ c ∈ function, Plain c) : ShowsEntry runtime entry message file function := by
  obtain ⟨files, hfiles, hshownFile, hshownFunction⟩ :=
    file_shown runtime entry hfile hfunction
  have hmembers := (members_string_iff (plain_keys messageKey (by simp))
    (scanString_escape hmessage _)).mpr ⟨files, rfl, hfiles⟩
  refine ⟨_, _, format_eq runtime entry message file function, ?_,
    parses_lineText_iff.mpr ⟨_, rfl, hmembers⟩, ?_, ?_, ?_⟩
  · intro c hc
    have hlarge := large_lineText runtime entry hmessage hfile hfunction c hc
    constructor <;> rintro rfl <;> exact absurd hlarge (by decide)
  · rw [field_cons_ne (by decide), field_cons_ne (by decide), field_cons_self]
  · rw [field_cons_ne (by decide), field_cons_ne (by decide), field_cons_ne (by decide),
      hshownFile]
  · rw [field_cons_ne (by decide), field_cons_ne (by decide), field_cons_ne (by decide),
      hshownFunction]

end Shows

/-- Exactly the strings for which a line shows the entry. -/
theorem showsEntry_iff (runtime : Runtime) (entry : LogEntry) (message file function : List Char) :
    ShowsEntry runtime entry message file function ↔
      (∀ c ∈ message, Written c) ∧ (∀ c ∈ file, Plain c) ∧ ∀ c ∈ function, Plain c :=
  ⟨ShowsEntry.written, fun ⟨hmessage, hfile, hfunction⟩ =>
    showsEntry_of_written hmessage hfile hfunction⟩

def epochRuntime : Runtime where
  localtime _ := ⟨0, 0, 0, 1, 0, 70⟩
  threadText _ := ['1']
  threadText_plain _ := plain_of_all (by decide)

/-- A control character in a message, and a backslash in the path of a file. -/
theorem entries_not_shown :
    ¬ShowsEntry epochRuntime {} ['\x01'] [] [] ∧
      ¬ShowsEntry epochRuntime {} [] ['a', '\\', 'b'] [] := by
  constructor <;> intro hshows
  · exact absurd (hshows.written.1 '\x01' List.mem_cons_self) (by decide)
  · exact absurd (hshows.written.2.1 '\\' (by simp)) (by decide)

end JsonFormatter

end DarwinCore.Log
