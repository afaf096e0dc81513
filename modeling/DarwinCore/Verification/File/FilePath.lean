import DarwinCore.Library.FileTree
import DarwinCore.Model.File.FilePath
import DarwinCore.Verification.Text.Split

/-! # `FilePath` as a location

A path names a location below the root; the components of a `FilePath` name the same one. -/

namespace DarwinCore.File

open Text Scan FileTree

/-! ## Splitting at one character -/

theorem slash_of_mem_splitOn {path segment : List Char} (h : segment ∈ path.splitOn '/') :
    '/' ∉ segment := fun hslash =>
  (Separator.cut_splitOn '/' path).separated (List.cons_ne_nil _ _) segment h
    ((List.singleton_infix_iff _ _).mpr hslash)

/-- `split` finds the pieces between the separators that are not empty. -/
theorem split_slash (str : List Char) :
    split str filePathSeparator = some ((str.splitOn '/').filter (· ≠ [])) := by
  refine split_eq_filter (List.cons_ne_nil _ _) (Separator.cut_splitOn '/' str)
    fun piece hpiece c hc hslash => ?_
  obtain rfl : c = '/' := by simpa [filePathSeparator] using hslash
  exact slash_of_mem_splitOn hpiece hc

private theorem exists_append_of_splitOn {path name : List Char} {init : List (List Char)}
    (h : path.splitOn '/' = init ++ [name]) : ∃ before, path = before ++ name := by
  have hcut := (Separator.cut_splitOn '/' path).intercalate
  rw [h] at hcut
  clear h
  induction init generalizing path with
  | nil => exact ⟨[], by rw [← hcut, List.nil_append, List.intercalate_singleton]; rfl⟩
  | cons first init ih =>
    obtain ⟨before, hbefore⟩ := ih rfl
    refine ⟨first ++ ['/'] ++ before, ?_⟩
    rw [← hcut, List.cons_append, List.intercalate_cons_of_ne_nil (by simp), hbefore]
    simp only [List.append_assoc]

theorem getLast?_ne_slash {path name : List Char} {init : List (List Char)}
    (h : path.splitOn '/' = init ++ [name]) (hname : name ≠ []) : path.getLast? ≠ some '/' := by
  have hmem : name ∈ path.splitOn '/' := by simp [h]
  have hslash : '/' ∉ name := slash_of_mem_splitOn hmem
  obtain ⟨before, rfl⟩ := exists_append_of_splitOn h
  rw [List.getLast?_append_of_ne_nil _ hname]
  exact fun hlast => hslash (List.mem_of_getLast? hlast)

/-! ## Locations -/

/-- Where a segment of a path leads; `..` at the root stays there. -/
def follow (location : List (List Char)) (segment : List Char) : List (List Char) :=
  if segment = [] ∨ segment = ['.'] then location
  else if segment = ['.', '.'] then location.dropLast
  else location ++ [segment]

/-- The location that segments name from the root. -/
def resolve (segments : List (List Char)) : List (List Char) :=
  segments.foldl follow []

/-- The components of a `FilePath`: `..` comes first if at all. -/
structure Normal (components : List (List Char)) : Prop where
  name : ∀ c ∈ components, c ≠ [] ∧ c ≠ ['.'] ∧ '/' ∉ c
  dotDot : ['.', '.'] ∉ components.tail

section Normal

variable {components stack : List (List Char)} {name : List Char}

private theorem normal_nil : Normal [] :=
  ⟨by simp, by simp⟩

theorem Normal.dropLast (h : Normal stack) : Normal stack.dropLast := by
  refine ⟨fun c hc => h.name c (List.dropLast_subset _ hc), fun hmem => h.dotDot ?_⟩
  rw [List.tail_dropLast] at hmem
  exact List.dropLast_subset _ hmem

theorem Normal.push (h : Normal stack) (hslash : '/' ∉ name) : Normal (pushName stack name) := by
  unfold pushName
  split_ifs with hempty hback hdot
  · exact h
  · exact h.dropLast
  · rw [List.isEmpty_iff] at hempty
    refine ⟨fun c hc => ?_, fun hmem => ?_⟩
    · rcases List.mem_append.mp hc with hc | hc
      · exact h.name c hc
      · obtain rfl := List.mem_singleton.mp hc
        exact ⟨hempty, hdot, hslash⟩
    · cases stack with
      | nil => simp at hmem
      | cons first others =>
        rcases List.mem_append.mp hmem with hmem | hmem
        · exact h.dotDot hmem
        · exact hback ⟨(List.mem_singleton.mp hmem).symm, by simp⟩
  · exact h

private theorem foldl_pushName (h : Normal components) :
    components.foldl pushName [] = components := by
  induction components using List.reverseRecOn with
  | nil => rfl
  | append_singleton components name ih =>
    have hpre := h.dropLast
    rw [List.dropLast_concat] at hpre
    obtain ⟨hempty, hdot, -⟩ := h.name name (by simp)
    rw [List.foldl_concat, ih hpre, pushName]
    have hback : ¬(name = ['.', '.'] ∧ ¬components.isEmpty = true) := by
      rintro ⟨rfl, hne⟩
      refine h.dotDot ?_
      cases components with
      | nil => exact absurd rfl hne
      | cons first others => simp
    rw [if_neg (by simpa using hempty), if_neg hback, if_pos hdot]

/-- The stack names the location, `..` at its bottom standing for the root. -/
theorem resolve_pushName (h : Normal stack) (name : List Char) :
    resolve (pushName stack name) = follow (resolve stack) name := by
  unfold pushName
  split_ifs with hempty hback hdot
  · simp [follow, List.isEmpty_iff.mp hempty]
  · obtain ⟨rfl, hne⟩ := hback
    cases stack using List.reverseRecOn with
    | nil => simp at hne
    | append_singleton init last =>
      have hlast : resolve (init ++ [last]) = follow (resolve init) last := List.foldl_concat ..
      rw [List.dropLast_concat, hlast]
      obtain ⟨hnil, hdot, -⟩ := h.name last (by simp)
      by_cases hdots : last = ['.', '.']
      · -- two dots are the only component
        subst hdots
        cases init with
        | nil => rfl
        | cons first others => exact absurd (by simp) h.dotDot
      · simp [follow, hnil, hdot, hdots]
  · exact List.foldl_concat ..
  · simp [follow, not_not.mp hdot]

private theorem resolve_foldl_pushName {segments : List (List Char)} (h : Normal stack)
    (hslash : ∀ s ∈ segments, '/' ∉ s) :
    resolve (segments.foldl pushName stack) = segments.foldl follow (resolve stack) ∧
      Normal (segments.foldl pushName stack) := by
  induction segments generalizing stack with
  | nil => exact ⟨rfl, h⟩
  | cons segment segments ih =>
    obtain ⟨hfirst, hothers⟩ := List.forall_mem_cons.mp hslash
    rw [List.foldl_cons, List.foldl_cons, ← resolve_pushName h]
    exact ih (h.push hfirst) hothers

private theorem foldl_follow_filter (segments location : List (List Char)) :
    (segments.filter (· ≠ [])).foldl follow location = segments.foldl follow location := by
  induction segments generalizing location with
  | nil => rfl
  | cons segment segments ih =>
    by_cases h : segment = []
    · rw [List.filter_cons_of_neg (by simpa using h), ih, List.foldl_cons]
      simp [h, follow]
    · rw [List.filter_cons_of_pos (by simpa using h), List.foldl_cons, ih, List.foldl_cons]

end Normal

/-! ## `FilePath` -/

section FilePath

variable {components : List (List Char)} {path name : List Char} {p q : FilePath}

theorem extractPathComponents_eq (path : List Char) :
    extractPathComponents path = ((path.splitOn '/').filter (· ≠ [])).foldl pushName [] := by
  rw [extractPathComponents, split_slash]
  rfl

theorem extract_spec (path : List Char) : Normal (extractPathComponents path) ∧
    resolve (extractPathComponents path) = resolve (path.splitOn '/') := by
  rw [extractPathComponents_eq]
  have hslash : ∀ s ∈ (path.splitOn '/').filter (· ≠ []), '/' ∉ s :=
    fun s hs => slash_of_mem_splitOn (List.mem_of_mem_filter hs)
  obtain ⟨hresolve, hnormal⟩ := resolve_foldl_pushName normal_nil hslash
  exact ⟨hnormal, hresolve.trans (foldl_follow_filter _ _)⟩

theorem assemblyPath_eq (components : List (List Char)) :
    assemblyPath components = filePathSeparator.intercalate ([] :: components) := by
  rw [assemblyPath, foldl_append, List.nil_append]
  induction components with
  | nil => rfl
  | cons c components ih =>
    rw [List.flatMap_cons, ih]
    cases components <;> simp

private theorem extract_assemblyPath (h : Normal components) :
    extractPathComponents (assemblyPath components) = components := by
  have hslash : ∀ c ∈ [] :: components, '/' ∉ c :=
    List.forall_mem_cons.mpr ⟨by simp, fun c hc => (h.name c hc).2.2⟩
  have hne : components.filter (· ≠ []) = components :=
    List.filter_eq_self.mpr fun c hc => by simpa using (h.name c hc).1
  rw [extractPathComponents_eq, assemblyPath_eq, filePathSeparator,
    List.splitOn_intercalate '/' hslash (by simp), List.filter_cons_of_neg (by simp), hne,
    foldl_pushName h]

theorem toString_eq (p : FilePath) : p.toString = assemblyPath p.mPathComponents := by
  rw [FilePath.toString]
  split_ifs with h
  · rw [List.isEmpty_iff.mp h]
    rfl
  · rfl

theorem ofString_assemblyPath (h : Normal components) :
    FilePath.ofString (assemblyPath components) = ⟨components⟩ := by
  rw [FilePath.ofString, extract_assemblyPath h]

theorem append_eq (q : FilePath) (name : List Char) :
    q.append name = assemblyPath (q.mPathComponents ++ [name]) := by
  rw [FilePath.append, toString_eq, assemblyPath, assemblyPath, List.foldl_concat,
    List.append_assoc]

theorem Normal.concat (h : Normal components) (hname : PlainName name) :
    Normal (components ++ [name]) := by
  have hpush := h.push hname.slash
  rwa [pushName, if_neg (by simpa using hname.ne_nil), if_neg (by simp [hname.dotDot]),
    if_pos hname.dot] at hpush

private theorem ofString_slash : FilePath.ofString filePathSeparator = ⟨[]⟩ :=
  rfl

theorem parent_eq (q : FilePath) : q.parent = ⟨q.mPathComponents.dropLast⟩ := by
  obtain ⟨components⟩ := q
  match components with
  | [] => rfl
  | [c] => exact ofString_slash
  | c :: c' :: components => rfl

private theorem ofString_parentDir (hq : Normal q.mPathComponents) :
    FilePath.ofString q.parentDir = q.parent := by
  obtain ⟨components⟩ := q
  match components with
  | [] => rfl
  | [c] => rfl
  | c :: c' :: components => exact ofString_assemblyPath hq.dropLast

/-- The components name the location that the string names, and string and components go along. -/
theorem filePath_consistent (path : List Char) :
    FilePath.ofString (FilePath.ofString path).toString = FilePath.ofString path ∧
      (∀ c ∈ (FilePath.ofString path).mPathComponents, c ≠ [] ∧ c ≠ ['.']) ∧
      ['.', '.'] ∉ (FilePath.ofString path).mPathComponents.tail ∧
      resolve (FilePath.ofString path).mPathComponents = resolve (path.splitOn '/') ∧
      FilePath.ofString (FilePath.ofString path).parentDir = (FilePath.ofString path).parent ∧
      ∀ name, PlainName name →
        FilePath.ofString ((FilePath.ofString path).append name) =
          (FilePath.ofString path).appendNode name ∧
        ((FilePath.ofString path).appendNode name).parent = FilePath.ofString path := by
  obtain ⟨hnormal, hresolve⟩ := extract_spec path
  refine ⟨?_, fun c hc => ⟨(hnormal.name c hc).1, (hnormal.name c hc).2.1⟩, hnormal.dotDot,
    hresolve, ofString_parentDir hnormal, fun name hname => ?_⟩
  · rw [toString_eq]
    exact ofString_assemblyPath hnormal
  · have hnode : (FilePath.ofString path).appendNode name =
        ⟨extractPathComponents path ++ [name]⟩ := by
      exact if_neg (by simpa using hname.ne_nil)
    rw [hnode, append_eq, parent_eq, List.dropLast_concat]
    exact ⟨ofString_assemblyPath (hnormal.concat hname), rfl⟩

end FilePath

end DarwinCore.File
