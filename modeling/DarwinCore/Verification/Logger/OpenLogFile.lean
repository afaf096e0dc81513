import DarwinCore.Model.Logger.Logger
import DarwinCore.Verification.File.Moving

/-! # Rollback

The files of the generations lie side by side; the loop goes from the oldest of them to the log
file. -/

namespace DarwinCore

open FileTree FileTree.Volume

namespace File

variable {α : Type*} {limit : ℕ} {cwd : Location} {t t' : Volume α} {path : List Char}
  {components : List Name} {d l m : Location} {name a b : Name} {content : α}

/-! ## Names and extensions -/

private theorem findLastOf_eq_some {c : Char} {str : List Char} {iter : ℕ}
    (h : findLastOf c str = some iter) :
    iter < str.length ∧ str.take iter ++ c :: str.drop (iter + 1) = str := by
  induction str generalizing iter with
  | nil => cases h
  | cons d str ih =>
    rw [findLastOf] at h
    cases hlast : findLastOf c str with
    | none =>
      simp only [hlast] at h
      split_ifs at h with hd
      obtain rfl := Option.some.inj h
      exact ⟨Nat.succ_pos _, by simp [hd]⟩
    | some later =>
      simp only [hlast] at h
      obtain rfl := Option.some.inj h
      obtain ⟨hlt, heq⟩ := ih hlast
      exact ⟨Nat.succ_lt_succ hlt, congrArg (d :: ·) heq⟩

/-- The name and the extension: they lie around the last dot, or there is no extension. -/
theorem name_cases (p : FilePath) : p.extensionName = [] ∧ p.name = p.displayName ∨
    p.extensionName ≠ [] ∧ p.name ++ '.' :: p.extensionName = p.displayName := by
  unfold FilePath.extensionName FilePath.name
  dsimp only
  cases hlast : findLastOf '.' p.displayName with
  | none => exact .inl ⟨rfl, rfl⟩
  | some iter =>
    obtain ⟨hlt, heq⟩ := findLastOf_eq_some hlast
    by_cases hend : iter = p.displayName.length - 1
    · exact .inl ⟨if_pos hend, if_pos hend⟩
    · refine .inr ?_
      dsimp only
      rw [if_neg hend, if_neg hend]
      refine ⟨fun hnil => ?_, heq⟩
      have hle := List.drop_eq_nil_iff.mp hnil
      omega

/-! ## The last name of a path -/

/-- Where a file is: its name is the last component, and it is in a directory. -/
theorem location_of_file (hpath : t.resolve limit cwd false path = some l)
    (hfile : t.find l = some (.file content)) :
    ∃ d init segments, l = d ++ [(FilePath.ofString path).displayName] ∧ t.find d = some .dir ∧
      PlainName (FilePath.ofString path).displayName ∧
      (FilePath.ofString path).mPathComponents = init ++ [(FilePath.ofString path).displayName] ∧
      path.splitOn '/' = segments ++ [(FilePath.ofString path).displayName] := by
  obtain ⟨hne, hroot, hwalk⟩ := resolve_eq_some_iff.mp hpath
  obtain ⟨segments, name, hsegments, hproper⟩ :=
    hwalk.last_name (find_start hroot) (by simp [hfile])
  have hskip := not_or.mp hproper.1
  have hmem : name ∈ path.splitOn '/' := by simp [hsegments]
  have hplain : PlainName name := ⟨hskip.1, slash_of_mem_splitOn hmem, hskip.2, hproper.2⟩
  rw [hsegments] at hwalk
  obtain ⟨d, -, hdir, rfl⟩ := hwalk.parent hproper (find_start hroot)
  have hcomponents : (FilePath.ofString path).mPathComponents =
      (segments.filter (· ≠ [])).foldl pushName [] ++ [name] := by
    have hfilter : (segments ++ [name]).filter (· ≠ []) = segments.filter (· ≠ []) ++ [name] := by
      simp [List.filter_append, hplain.ne_nil]
    rw [FilePath.ofString, extractPathComponents_eq, hsegments, hfilter, List.foldl_concat,
      pushName, if_neg (by simpa using hplain.ne_nil), if_neg (by simp [hplain.dotDot]),
      if_pos hplain.dot]
  have hdisplay : (FilePath.ofString path).displayName = name := by
    rw [FilePath.displayName, hcomponents]
    simp
  rw [hdisplay]
  exact ⟨d, _, segments, rfl, hdir, hplain, hcomponents, hsegments⟩

/-! ## Entries of a directory -/

/-- The names lead to the directory from the root. -/
structure Leads (limit : ℕ) (t : Volume α) (components : List Name) (d : Location) : Prop where
  normal : Normal components
  walks : Walks t true limit [] components d
  dir : t.find d = some .dir

/-- The two trees have the same directories and symbolic links. -/
def SameDirs (t t' : Volume α) : Prop :=
  ∀ l e, (∀ content, e ≠ .file content) → (t'.find l = some e ↔ t.find l = some e)

theorem SameDirs.of_find {e : Option (Entry α)}
    (hfind : ∀ m, t'.find m = if m = l then e else t.find m)
    (hold : ∀ e', t.find l = some e' → ∃ old, e' = .file old)
    (hnew : ∀ e', e = some e' → ∃ new, e' = .file new) : SameDirs t t' := by
  intro m e' he
  rw [hfind]
  split_ifs with hm
  · subst hm
    refine iff_of_false (fun h => ?_) fun h => ?_
    · obtain ⟨new, rfl⟩ := hnew e' h
      exact he new rfl
    · obtain ⟨old, rfl⟩ := hold e' h
      exact he old rfl
  · rfl

theorem Leads.of_same (h : Leads limit t components d) (hsame : SameDirs t t') :
    Leads limit t' components d :=
  ⟨h.normal, h.walks.of_same h.dir fun l e he hfind => (hsame l e he).mpr hfind,
    (hsame d .dir (by simp)).mpr h.dir⟩

theorem Leads.resolve_iff (h : Leads limit t components d) (hname : PlainName name) :
    t.resolve limit cwd false (assemblyPath (components ++ [name])) = some m ↔
      m = d ++ [name] ∧ (t.find m).isSome := by
  rw [resolve_assemblyPath (h.normal.concat hname)]
  constructor
  · intro hwalk
    obtain ⟨e, he⟩ := hwalk.found find_nil
    obtain ⟨d', hwalk', -, rfl⟩ := hwalk.parent hname.proper find_nil
    rw [he, hwalk'.unique h.walks]
    exact ⟨rfl, rfl⟩
  · rintro ⟨rfl, hfound⟩
    obtain ⟨e, he⟩ := Option.isSome_iff_exists.mp hfound
    exact h.walks.child h.dir he

theorem Leads.lstat (h : Leads limit t components d) (hname : PlainName name) :
    t.lstat limit cwd (assemblyPath (components ++ [name])) = t.find (d ++ [name]) := by
  refine Option.ext fun e => ?_
  rw [lstat_eq_some_iff]
  constructor
  · rintro ⟨l, hl, he⟩
    rw [← ((h.resolve_iff hname).mp hl).1, he]
  · intro he
    exact ⟨_, (h.resolve_iff hname).mpr ⟨rfl, by simp [he]⟩, he⟩

theorem segments_assemblyPath (h : Normal components) (hname : PlainName name) :
    lastSegment (assemblyPath (components ++ [name])) = name ∧
      parentSegments (assemblyPath (components ++ [name])) = [] :: components := by
  refine segments_concat ?_ hname.ne_nil
  rw [splitOn_assemblyPath (h.concat hname), List.cons_append]

theorem assemblyPath_concat_ne_nil (components : List Name) (name : Name) :
    assemblyPath (components ++ [name]) ≠ [] := by
  intro hnil
  have hhead := head?_assemblyPath components name
  rw [hnil] at hhead
  cases hhead

private theorem place_assemblyPath_iff (h : Normal components) (hname : PlainName name) :
    t.place limit cwd (assemblyPath (components ++ [name])) = some m ↔
      ∃ d, Leads limit t components d ∧ m = d ++ [name] := by
  obtain ⟨hlast, hparent⟩ := segments_assemblyPath h hname
  rw [place_eq_some_iff, hlast, hparent, start, if_pos (head?_assemblyPath components name)]
  constructor
  · rintro ⟨-, -, d, hwalk, hdir, rfl⟩
    exact ⟨d, ⟨h, (walks_skip (.inl rfl)).mp hwalk, hdir⟩, rfl⟩
  · rintro ⟨d, hleads, rfl⟩
    exact ⟨assemblyPath_concat_ne_nil _ _, hname.proper, d, .skip (.inl rfl) hleads.walks,
      hleads.dir, rfl⟩

theorem Leads.place (h : Leads limit t components d) (hname : PlainName name) :
    t.place limit cwd (assemblyPath (components ++ [name])) = some (d ++ [name]) :=
  (place_assemblyPath_iff h.normal hname).mpr ⟨d, h, rfl⟩

private theorem lstat_of_not_leads (h : Normal components) (hname : PlainName name)
    (hnone : ∀ d, ¬Leads limit t components d) :
    t.lstat limit cwd (assemblyPath (components ++ [name])) = none := by
  refine Option.eq_none_iff_forall_not_mem.mpr fun e he => ?_
  obtain ⟨l, hl, -⟩ := lstat_eq_some_iff.mp he
  obtain ⟨d, hwalk, hdir, -⟩ :=
    ((resolve_assemblyPath (h.concat hname)).mp hl).parent hname.proper find_nil
  exact hnone d ⟨h, hwalk, hdir⟩

theorem isItemExistsAtPath_of_lstat_none (h : t.lstat limit cwd path = none) :
    isItemExistsAtPath limit cwd t path = none := by
  by_contra hsome
  obtain ⟨e, he⟩ := exists_of_isItemExistsAtPath (Option.isSome_iff_ne_none.mpr hsome)
  obtain ⟨m, hm, -⟩ := resolve_last he
  obtain ⟨entry, hentry⟩ := resolve_found hm
  rw [lstat_eq_some_iff.mpr ⟨m, hm, hentry⟩] at h
  cases h

theorem isItemExistsAtPath_of_file (hpath : t.resolve limit cwd false path = some l)
    (hfile : t.find l = some (.file content)) :
    isItemExistsAtPath limit cwd t path = some false := by
  have hresolve := resolve_follow hpath (by simp [hfile])
  rw [isItemExistsAtPath, stat_eq_some_iff.mpr ⟨l, hresolve, hfile⟩]
  rfl

private theorem leaf_of_file (hfile : t.find l = some (.file content)) : t.Leaf l :=
  leaf_of_find fun _ hm hne => find_below (by simp [hfile]) hm hne

private theorem getLast?_assemblyPath (hname : PlainName name) :
    (assemblyPath (components ++ [name])).getLast? ≠ some '/' := by
  rw [assemblyPath, List.foldl_concat, ← List.append_assoc,
    List.getLast?_append_of_ne_nil _ hname.ne_nil]
  exact fun hlast => hname.slash (List.mem_of_getLast? hlast)

section Files

theorem removeItemAtPath_file (h : Leads limit t components d) (hname : PlainName name)
    (hfile : t.find (d ++ [name]) = some (.file content)) :
    ∃ t', (∀ fuel fds, removeItemAtPath limit cwd (fuel + 1) fds t
        (assemblyPath (components ++ [name])) = some (t', fds, true)) ∧
      ∀ m, t'.find m = if m = d ++ [name] then none else t.find m := by
  have hresolve : t.resolve limit cwd false (assemblyPath (components ++ [name])) =
      some (d ++ [name]) := (h.resolve_iff hname).mpr ⟨rfl, by simp [hfile]⟩
  have hlast : lastSegment (assemblyPath (components ++ [name])) ≠ ['.'] := by
    rw [(segments_assemblyPath h.normal hname).1]
    exact hname.dot
  obtain ⟨t', hremove, hfind⟩ :=
    remove_of_removable hlast hresolve ⟨by simp, leaf_of_file hfile⟩
  refine ⟨t', fun fuel fds => ?_, hfind⟩
  rw [removeItemAtPath, isItemExistsAtPath_of_file hresolve hfile]
  simp [hremove]

/-- A file goes to a name that is free. -/
private theorem renameItem_file (h : Leads limit t components d) (ha : PlainName a)
    (hb : PlainName b)
    (hfile : t.find (d ++ [a]) = some (.file content)) (hfree : t.find (d ++ [b]) = none) :
    ∃ t', renameItem limit cwd t (assemblyPath (components ++ [a]))
        (assemblyPath (components ++ [b])) = (t', true) ∧
      ∀ m, t'.find m =
        if m = d ++ [b] then some (.file content) else if m = d ++ [a] then none else t.find m := by
  have hsource : t.resolve limit cwd false (assemblyPath (components ++ [a])) = some (d ++ [a]) :=
    (h.resolve_iff ha).mpr ⟨rfl, by simp [hfile]⟩
  have hlast := (segments_assemblyPath h.normal ha).1
  have hne : d ++ [a] ≠ d ++ [b] := by
    intro heq
    rw [heq, hfree] at hfile
    cases hfile
  have hmovable : t.Movable (d ++ [a]) (d ++ [b]) := by
    refine ⟨by simp, fun hpre => hne (hpre.eq_of_length (by simp)), leaf_of_find fun m hm hne =>
      find_below (by simp [hfree]) hm hne, ⟨b, by simp, hb⟩, ?_⟩
    rw [List.dropLast_concat]
    exact h.dir
  have hkind : Replaceable (t.find (d ++ [a])) (t.find (d ++ [b]))
      (decide ((assemblyPath (components ++ [b])).getLast? = some '/')) := by
    rw [hfile, hfree, decide_eq_false (getLast?_assemblyPath hb)]
    rfl
  have hrename : Renamable limit cwd t (assemblyPath (components ++ [a]))
      (assemblyPath (components ++ [b])) (d ++ [a]) (d ++ [b]) :=
    ⟨by rw [hlast]; exact ⟨ha.dot, ha.dotDot⟩, hsource, h.place hb, hkind, hmovable⟩
  have htarget : isItemExistsAtPath limit cwd t (assemblyPath (components ++ [b])) = none :=
    isItemExistsAtPath_of_lstat_none ((h.lstat hb).trans hfree)
  refine ⟨t.move _ _ hmovable, ?_, fun m => ?_⟩
  · rw [renameItem, if_neg (by simp [assemblyPath_concat_ne_nil]),
      isItemExistsAtPath_of_file hsource hfile, htarget, if_neg (by simp), if_neg (by simp),
      rename_of_renamable hrename]
  · rw [find_move]
    by_cases hm : d ++ [b] <+: m
    · rw [if_pos hm]
      obtain ⟨r, rfl⟩ := hm
      rw [List.drop_left]
      by_cases hr : r = []
      · rw [hr, List.append_nil, List.append_nil, if_pos rfl, hfile]
      · -- there is nothing below a file, nor below what is not there
        rw [if_neg (by simpa using hr), if_neg, find_below (by simp [hfile])
          (List.prefix_append _ r) (by simpa using hr), find_below (by simp [hfree])
          (List.prefix_append _ r) (by simpa using hr)]
        intro heq
        have hlength := congrArg List.length heq
        simp only [List.length_append, List.length_singleton] at hlength
        have hpos := List.length_pos_iff.mpr hr
        omega
    · have hmb : m ≠ d ++ [b] := fun heq => hm (heq ▸ List.prefix_refl _)
      rw [if_neg hm, if_neg hmb]
      split_ifs with hpre heq heq
      · rfl
      · exact (find_below (by simp [hfile]) hpre heq).symm
      · exact absurd (heq ▸ List.prefix_refl _) hpre
      · rfl

/-- A file goes to a name in its directory, in place of a file or of nothing. -/
theorem moveItem_file (h : Leads limit t components d) (ha : PlainName a) (hb : PlainName b)
    (hne : a ≠ b) (hfile : t.find (d ++ [a]) = some (.file content))
    (hover : ∀ e, t.find (d ++ [b]) = some e → ∃ old, e = .file old) :
    ∃ t', (∀ fuel fds, moveItem limit cwd (fuel + 1) fds t (assemblyPath (components ++ [a]))
        (assemblyPath (components ++ [b])) true = some (t', fds, true)) ∧
      ∀ m, t'.find m =
        if m = d ++ [b] then some (.file content) else if m = d ++ [a] then none else t.find m := by
  cases hfound : t.find (d ++ [b]) with
  | none =>
    obtain ⟨t', hrename, hfind⟩ := renameItem_file h ha hb hfile hfound
    refine ⟨t', fun fuel fds => ?_, hfind⟩
    rw [moveItem, isItemExistsAtPath_of_lstat_none ((h.lstat hb).trans hfound),
      if_neg (by simp), hrename]
  | some e =>
    obtain ⟨old, rfl⟩ := hover e hfound
    have hresolve : t.resolve limit cwd false (assemblyPath (components ++ [b])) =
        some (d ++ [b]) := (h.resolve_iff hb).mpr ⟨rfl, by simp [hfound]⟩
    obtain ⟨t₁, hremove, hfind⟩ := @removeItemAtPath_file _ _ cwd _ _ _ _ _ h hb hfound
    have hleads : Leads limit t₁ components d := h.of_same (.of_find hfind hover (by simp))
    have hfile₁ : t₁.find (d ++ [a]) = some (.file content) := by
      rw [hfind, if_neg (by simpa using hne), hfile]
    obtain ⟨t₂, hrename, hfind₂⟩ :=
      @renameItem_file _ _ cwd _ _ _ _ _ _ hleads ha hb hfile₁ ((hfind _).trans (if_pos rfl))
    refine ⟨t₂, fun fuel fds => ?_, fun m => ?_⟩
    · rw [moveItem, isItemExistsAtPath_of_file hresolve hfound, Option.isSome_some, if_pos rfl,
        if_neg (by simp), hremove]
      simp [hrename]
    · rw [hfind₂, hfind]
      split_ifs <;> rfl

end Files

end File

namespace Log.LogFileConfig

open DarwinCore.File

/-! ## Generations -/

section Names

variable (config : LogFileConfig)

/-- The names of the directory in which the generations are looked for. -/
def directory : List Name :=
  (FilePath.ofString config.logFile).mPathComponents.dropLast

def generationName (i : ℕ) : Name :=
  let fp := FilePath.ofString config.logFile
  if i = 0 then fp.name ++ ['.'] ++ fp.extensionName
  else fp.name ++ ['.'] ++ Nat.toDigits 10 i ++ ['.'] ++ fp.extensionName

theorem generationPath_eq (i : ℕ) : config.generationPath i =
    assemblyPath (config.directory ++ [config.generationName i]) := by
  rw [generationPath, generationName, directory, parent_eq]
  split_ifs <;> exact append_eq _ _

theorem normal_directory : Normal config.directory :=
  (normal_ofString config.logFile).dropLast

variable {i j : ℕ}

private theorem toDigits_injective (h : Nat.toDigits 10 i = Nat.toDigits 10 j) : i = j := by
  rw [← Nat.ofDigitChars_ten_toDigits (n := i), h, Nat.ofDigitChars_ten_toDigits]

theorem length_generationName_zero_lt (h : i ≠ 0) :
    (config.generationName 0).length + 1 < (config.generationName i).length := by
  have hpos := List.length_pos_iff.mpr (Nat.toDigits_ne_nil (b := 10) (n := i))
  simp only [generationName, if_neg h, if_true, List.length_append, List.length_singleton]
  omega

variable {config}

theorem generationName_injective (h : config.generationName i = config.generationName j) :
    i = j := by
  have hlength := congrArg List.length h
  by_cases hi : i = 0
  · by_cases hj : j = 0
    · rw [hi, hj]
    · have hlt := config.length_generationName_zero_lt hj
      rw [hi] at hlength
      omega
  · by_cases hj : j = 0
    · have hlt := config.length_generationName_zero_lt hi
      rw [hj] at hlength
      omega
    · simp only [generationName, if_neg hi, if_neg hj, List.append_assoc,
        List.append_cancel_left_eq] at h
      exact toDigits_injective (List.append_cancel_right h)

/-- With an extension generation 0 has the name of the log file, without one it has a dot more. -/
theorem generationName_zero : config.generationName 0 =
    if (FilePath.ofString config.logFile).extensionName = [] then
      (FilePath.ofString config.logFile).displayName ++ ['.']
    else (FilePath.ofString config.logFile).displayName := by
  obtain ⟨hext, hname⟩ | ⟨hext, hname⟩ := name_cases (FilePath.ofString config.logFile)
  · rw [if_pos hext, generationName, if_pos rfl, hname, hext, List.append_nil]
  · rw [if_neg hext, generationName, if_pos rfl, ← hname, List.append_assoc]
    rfl

private theorem generationName_ne_displayName (hi : i ≠ 0) :
    config.generationName i ≠ (FilePath.ofString config.logFile).displayName := by
  intro heq
  have hlt := config.length_generationName_zero_lt hi
  rw [heq, generationName_zero] at hlt
  split_ifs at hlt
  · rw [List.length_append] at hlt
    omega
  · omega

theorem plainName_generationName (h : PlainName (FilePath.ofString config.logFile).displayName)
    (i : ℕ) : PlainName (config.generationName i) := by
  have hpos := List.length_pos_iff.mpr h.ne_nil
  have hzero : PlainName (config.generationName 0) := by
    rw [generationName_zero]
    split_ifs
    · refine ⟨by simp, by simp [h.slash], fun heq => ?_, fun heq => ?_⟩
      · exact h.ne_nil (List.append_inj_left' (heq.trans (List.nil_append ['.']).symm) rfl)
      · exact h.dot (List.append_inj_left' heq rfl)
    · exact h
  by_cases hi : i = 0
  · rwa [hi]
  · have hlt := config.length_generationName_zero_lt hi
    have hpos := List.length_pos_iff.mpr hzero.ne_nil
    refine ⟨?_, ?_, ?_, ?_⟩
    · exact List.ne_nil_of_length_pos (by omega)
    · have hslash := hzero.slash
      simp only [generationName, if_true, List.mem_append, not_or] at hslash
      simp only [generationName, if_neg hi, List.mem_append, not_or]
      refine ⟨⟨⟨hslash.1, fun hdigit => ?_⟩, hslash.1.2⟩, hslash.2⟩
      exact absurd (Nat.isDigit_of_mem_toDigits (by decide) (by decide) hdigit) (by decide)
    · intro heq
      rw [heq, List.length_singleton] at hlt
      omega
    · intro heq
      rw [heq] at hlt
      simp only [List.length_cons, List.length_nil] at hlt
      omega

end Names

/-! ## The loop -/

variable {α : Type*} {limit : ℕ} {cwd : Location} {t t' t₁ : Volume α} {config : LogFileConfig}
  {d l m : Location} {content : α} {fuel fds n i j : ℕ}

/-- The generations from `j` on, up to `n`, have moved to the next one. -/
structure Shifted (g : ℕ → Location) (n j : ℕ) (t t' : Volume α) : Prop where
  moved : ∀ k, j ≤ k → k < n → t'.find (g (k + 1)) =
    if (t.find (g k)).isSome then t.find (g k) else if k + 1 = n then t.find (g n) else none
  vacated : t'.find (g j) = if j < n then none else t.find (g n)
  others : ∀ m, (∀ k, j ≤ k → k ≤ n → m ≠ g k) → t'.find m = t.find m

/-- There is a file at the location, if anything is. -/
def FileOrNone (t : Volume α) (l : Location) : Prop :=
  ∀ e, t.find l = some e → ∃ content, e = .file content

section Shifted

variable {g : ℕ → Location}

private theorem shifted_refl (t : Volume α) : Shifted g n n t t :=
  ⟨fun k hk hlt => absurd hlt (Nat.not_lt.mpr hk), by simp, fun _ _ => rfl⟩

theorem Shifted.fileOrNone (h : Shifted g n j t t')
    (hfiles : ∀ k, j ≤ k → k ≤ n → FileOrNone t (g k))
    {k : ℕ} (hj : j ≤ k) (hk : k ≤ n) : FileOrNone t' (g k) := by
  intro e he
  rcases Nat.eq_or_lt_of_le hj with rfl | hlt
  · rw [h.vacated] at he
    split_ifs at he with hlt
    exact hfiles n (by omega) le_rfl e he
  · obtain ⟨k, rfl⟩ : ∃ i, k = i + 1 := ⟨k - 1, by omega⟩
    rw [h.moved k (by omega) hk] at he
    split_ifs at he with hfound hlast
    · exact hfiles k (by omega) (by omega) e he
    · exact hfiles n (by omega) le_rfl e he

theorem Shifted.sameDirs (h : Shifted g n j t t')
    (hfiles : ∀ k, j ≤ k → k ≤ n → FileOrNone t (g k)) : SameDirs t t' := by
  intro l e he
  by_cases hl : ∃ k, j ≤ k ∧ k ≤ n ∧ l = g k
  · obtain ⟨k, hj, hk, rfl⟩ := hl
    constructor <;> intro hfind
    · obtain ⟨content, rfl⟩ := h.fileOrNone hfiles hj hk e hfind
      exact absurd rfl (he content)
    · obtain ⟨content, rfl⟩ := hfiles k hj hk e hfind
      exact absurd rfl (he content)
  · rw [h.others l fun k hj hk heq => hl ⟨k, hj, hk, heq⟩]

end Shifted

/-- The location of a generation in the directory `d`. -/
def generation (config : LogFileConfig) (d : Location) (i : ℕ) : Location :=
  d ++ [config.generationName i]

theorem generation_injective (h : config.generation d i = config.generation d j) : i = j :=
  generationName_injective (List.singleton_inj.mp (List.append_cancel_left h))

section Loop

variable (hplain : PlainName (FilePath.ofString config.logFile).displayName)
include hplain

theorem lstat_generationPath (hleads : Leads limit t config.directory d) (i : ℕ) :
    t.lstat limit cwd (config.generationPath i) = t.find (config.generation d i) := by
  rw [generationPath_eq]
  exact hleads.lstat (plainName_generationName hplain i)

theorem exists_generation (hleads : Leads limit t config.directory d)
    (hfile : t.find (config.generation d j) = some (.file content)) :
    isItemExistsAtPath limit cwd t (config.generationPath j) = some false := by
  have hresolve : t.resolve limit cwd false (config.generationPath j) =
      some (config.generation d j) := by
    rw [generationPath_eq, hleads.resolve_iff (plainName_generationName hplain j)]
    exact ⟨rfl, by rw [hfile]; rfl⟩
  exact isItemExistsAtPath_of_file hresolve hfile

private theorem moveItem_generation (hleads : Leads limit t config.directory d)
    (hfile : t.find (config.generation d j) = some (.file content))
    (hover : FileOrNone t (config.generation d (j + 1))) :
    ∃ t', (∀ fuel fds, moveItem limit cwd (fuel + 1) fds t (config.generationPath j)
        (config.generationPath (j + 1)) true = some (t', fds, true)) ∧
      ∀ m, t'.find m =
        if m = config.generation d (j + 1) then some (.file content)
        else if m = config.generation d j then none else t.find m := by
  have hne : config.generationName j ≠ config.generationName (j + 1) := by
    intro heq
    have hsucc := generationName_injective heq
    omega
  rw [generationPath_eq, generationPath_eq]
  exact moveItem_file hleads (plainName_generationName hplain j)
    (plainName_generationName hplain (j + 1)) hne hfile hover

private theorem rollbackFrom_step (hleads : Leads limit t config.directory d)
    (hfiles : ∀ k, j ≤ k → k ≤ n → FileOrNone t (config.generation d k)) (hj : j < n)
    (h : Shifted (config.generation d) n (j + 1) t t₁) :
    ∃ t₂, (∀ fuel fds, rollbackFrom limit cwd (fuel + 1) config (j + 1) fds t₁ =
        rollbackFrom limit cwd (fuel + 1) config j fds t₂) ∧
      Shifted (config.generation d) n j t t₂ := by
  have hlater : ∀ k, j + 1 ≤ k → k ≤ n → FileOrNone t (config.generation d k) :=
    fun k hk => hfiles k (by omega)
  have hleads₁ := hleads.of_same (h.sameDirs hlater)
  have hself : t₁.find (config.generation d j) = t.find (config.generation d j) := by
    refine h.others _ fun k hk _ heq => ?_
    have hjk := generation_injective heq
    omega
  cases hfound : t.find (config.generation d j) with
  | none =>
    have hlstat : t₁.lstat limit cwd (config.generationPath j) = none :=
      (lstat_generationPath hplain hleads₁ j).trans (hself.trans hfound)
    refine ⟨t₁, fun fuel fds => by
      rw [rollbackFrom, isItemExistsAtPath_of_lstat_none hlstat]; rfl,
      fun k hk hlt => ?_, by rw [hself, hfound, if_pos hj],
      fun m hm => h.others m fun k hk => hm k (by omega)⟩
    rcases Nat.eq_or_lt_of_le hk with rfl | hk
    · rw [h.vacated, hfound]
      by_cases hlast : j + 1 = n
      · rw [if_neg (by omega), if_neg (by simp), if_pos hlast]
      · rw [if_pos (by omega), if_neg (by simp), if_neg hlast]
    · exact h.moved k hk hlt
  | some e =>
    obtain ⟨content, rfl⟩ := hfiles j le_rfl hj.le e hfound
    have hfile := hself.trans hfound
    obtain ⟨t₂, hmove, hfind⟩ := @moveItem_generation _ limit cwd _ _ _ _ _ hplain hleads₁
      hfile (h.fileOrNone hlater le_rfl hj)
    refine ⟨t₂, fun fuel fds => ?_, fun k hk hlt => ?_, ?_, fun m hm => ?_⟩
    · rw [rollbackFrom, exists_generation hplain hleads₁ hfile, hmove]
      rfl
    · rw [hfind]
      rcases Nat.eq_or_lt_of_le hk with rfl | hk
      · rw [if_pos rfl, hfound]
        rfl
      · rw [if_neg fun heq => ?_, if_neg fun heq => ?_, h.moved k hk hlt]
        · have hsucc : k + 1 = j := generation_injective heq
          omega
        · have hsucc : k + 1 = j + 1 := generation_injective heq
          omega
    · rw [hfind, if_neg fun heq => ?_, if_pos rfl, if_pos hj]
      have hsucc : j = j + 1 := generation_injective heq
      omega
    · rw [hfind, if_neg (hm (j + 1) (by omega) hj), if_neg (hm j le_rfl hj.le)]
      exact h.others m fun k hk => hm k (by omega)

/-- The rounds down to `j` move the generations from `j` on. -/
theorem rollbackFrom_shifted (hleads : Leads limit t config.directory d) (hj : j ≤ n)
    (hfiles : ∀ k, j ≤ k → k ≤ n → FileOrNone t (config.generation d k)) :
    ∃ t₁, (∀ fuel fds, rollbackFrom limit cwd (fuel + 1) config n fds t =
        rollbackFrom limit cwd (fuel + 1) config j fds t₁) ∧
      Shifted (config.generation d) n j t t₁ := by
  induction hj using Nat.decreasingInduction with
  | self => exact ⟨t, fun _ _ => rfl, shifted_refl t⟩
  | of_succ j hj ih =>
    obtain ⟨t₁, hrun, hshifted⟩ := ih fun k hk => hfiles k (by omega)
    obtain ⟨t₂, hrun', hshifted'⟩ := rollbackFrom_step hplain hleads hfiles hj hshifted
    exact ⟨t₂, fun fuel fds => (hrun fuel fds).trans (hrun' fuel fds), hshifted'⟩

private theorem rollbackFrom_of_not_leads (hnone : ∀ d, ¬Leads limit t config.directory d) (n : ℕ) :
    rollbackFrom limit cwd fuel config n fds t = some t := by
  induction n with
  | zero => rfl
  | succ n ih =>
    have hlstat : t.lstat limit cwd (config.generationPath n) = none := by
      rw [generationPath_eq]
      exact lstat_of_not_leads config.normal_directory (plainName_generationName hplain n) hnone
    rw [rollbackFrom, isItemExistsAtPath_of_lstat_none hlstat]
    exact ih

end Loop

/-! ## The log file -/

/-- What a rollback promises: the log file and the generations move on, but for the last of them,
nothing else is touched, and the log file is a new one and open. -/
structure RollsBack (limit : ℕ) (cwd : Location) (config : LogFileConfig) (created : α)
    (t t' : Volume α) (l : Location) (opened : Option Location) : Prop where
  live : t'.find l = some (.file created)
  opened : opened = some l
  first : t'.lstat limit cwd (config.generationPath 1) = t.find l
  moved : ∀ k, 1 ≤ k → k < config.rollbackCount →
    t'.lstat limit cwd (config.generationPath (k + 1)) =
      if (t.lstat limit cwd (config.generationPath k)).isSome then
        t.lstat limit cwd (config.generationPath k)
      else if k + 1 = config.rollbackCount then
        t.lstat limit cwd (config.generationPath config.rollbackCount)
      else none
  others : ∀ m, m ≠ l →
    (∀ k, 1 ≤ k → k ≤ config.rollbackCount →
      t.place limit cwd (config.generationPath k) ≠ some m) →
    t'.find m = t.find m

section Live

variable {size : α → ℕ} {created : α} {force : Bool} {path fromPath toPath : List Char}

/-- The file is where it was, or its directory is not. -/
def Unmoved (t : Volume α) (l : Location) (content : α) : Prop :=
  t.find l = some (.file content) ∨ t.find l = none ∧ t.find l.dropLast ≠ some .dir

/-- A renaming of something else moves a file at most with a directory above it. -/
theorem renameItem_unmoved (hfile : t.find l = some (.file content))
    (hfrom : t.resolve limit cwd false fromPath ≠ some l)
    (hto : t.place limit cwd toPath ≠ some l) :
    Unmoved (renameItem limit cwd t fromPath toPath).1 l content := by
  unfold renameItem
  split_ifs
  · exact .inl hfile
  · exact .inl hfile
  · exact .inl hfile
  · obtain hfails | ⟨f, d, hf, hd, -, ⟨-, hself⟩ | ⟨hmovable, hmove⟩⟩ :=
      @rename_spec α limit cwd t fromPath toPath
    · rw [hfails]
      exact .inl hfile
    · rw [hself]
      exact .inl hfile
    · have hfl : f ≠ l := fun heq => hfrom (heq ▸ hf)
      have hdl : ¬d <+: l := by
        intro hpre
        have hnone := hmovable.leaf.find hpre fun heq => hto (heq ▸ hd)
        rw [hfile] at hnone
        cases hnone
      have hdl' : ¬d <+: l.dropLast := fun hpre => hdl (hpre.trans (List.dropLast_prefix l))
      rw [hmove, Unmoved, find_move, find_move, if_neg hdl, if_neg hdl']
      by_cases hpre : f <+: l
      · have habove : f <+: l.dropLast := by
          rcases List.eq_nil_or_concat l with rfl | ⟨init, last, rfl⟩
          · exact absurd (List.prefix_nil.mp hpre) hfl
          · rw [List.concat_eq_append] at hpre hfl ⊢
            rw [List.dropLast_concat]
            exact (List.prefix_concat_iff.mp hpre).resolve_left hfl
        rw [if_pos hpre, if_pos habove]
        exact .inr ⟨rfl, by simp⟩
      · rw [if_neg hpre]
        exact .inl hfile

/-- Where a file is or its directory is not, none is created. -/
private theorem openAppend_unmoved (h : Unmoved t l content) (hnew : content ≠ created) :
    (t.openAppend limit cwd path created).1.find l ≠ some (.file created) := by
  have hfind : t.find l ≠ some (.file created) := by
    rcases h with hfile | ⟨hnone, -⟩
    · rw [hfile]
      simpa using hnew
    · simp [hnone]
  unfold Volume.openAppend
  split
  · split <;> exact hfind
  · split
    · exact hfind
    · split_ifs with hfree
      · rw [find_insert, if_neg]
        · exact hfind
        · rintro rfl
          rcases h with hfile | ⟨-, hdir⟩
          · rw [hfree.absent] at hfile
            cases hfile
          · exact hdir hfree.parent
      · exact hfind

/-- A file is created at the place where one has been. -/
private theorem openAppend_creates {segments : List Name} {name : Name}
    (hpath : path.splitOn '/' = segments ++ [name]) (hname : PlainName name)
    (hplace : t.place limit cwd path = some l) (hnone : t.find l = none) :
    ∃ t', t.openAppend limit cwd path created = (t', some (l, created)) ∧
      ∀ m, t'.find m = if m = l then some (.file created) else t.find m := by
  have hresolve : t.resolve limit cwd true path = none := by
    refine Option.eq_none_iff_forall_not_mem.mpr fun e he => ?_
    obtain ⟨m, hm, -⟩ := resolve_last he
    obtain ⟨entry, hentry⟩ := resolve_found hm
    obtain rfl : m = l :=
      Option.some.inj ((place_of_resolve hpath hname hm).symm.trans hplace)
    rw [hnone] at hentry
    cases hentry
  have hnew : t.newPlace limit cwd path = some l := by
    rw [newPlace, if_neg (getLast?_ne_slash hpath hname.ne_nil), hplace]
    simp only
    rw [hnone]
  have hfree : t.Free l := by
    obtain ⟨-, -, d, -, hdir, hl⟩ := place_eq_some_iff.mp hplace
    rw [(segments_concat hpath hname.ne_nil).1] at hl
    subst hl
    exact ⟨hnone, ⟨name, by simp, hname⟩, by rwa [List.dropLast_concat]⟩
  refine ⟨t.insert l (.file created) hfree, ?_, find_insert hfree⟩
  rw [Volume.openAppend, hresolve, hnew]
  exact dif_pos hfree

private theorem place_of_same (hsame : SameDirs t t') (h : t.place limit cwd path = some l) :
    t'.place limit cwd path = some l := by
  obtain ⟨hpath, hname, d, hwalk, hdir, hl⟩ := place_eq_some_iff.mp h
  refine place_eq_some_iff.mpr ⟨hpath, hname, d, ?_, (hsame d .dir (by simp)).mpr hdir, hl⟩
  exact hwalk.of_same hdir fun m e he hfind => (hsame m e he).mpr hfind

theorem openLogFile_eq (hlive : t.resolve limit cwd false config.logFile = some l)
    (hfile : t.find l = some (.file content))
    (hrollback : force = true ∨ config.maxFileSize ≤ size content) :
    openLogFile limit cwd fuel config size created fds t force =
      (rollbackFrom limit cwd fuel config config.rollbackCount fds t).bind fun t =>
        some ((t.openAppend limit cwd config.logFile created).1,
          (t.openAppend limit cwd config.logFile created).2.map
            fun (l, content) => (l, size content)) := by
  rw [openLogFile]
  cases force with
  | true => rfl
  | false =>
    have hsize : config.maxFileSize ≤ size content := hrollback.resolve_left (by simp)
    have hopen : t.openFile limit cwd config.logFile = some (l, content) :=
      openFile_eq_some_iff.mpr ⟨resolve_follow hlive (by simp [hfile]), hfile⟩
    have hfileSize : config.maxFileSize ≤ fileSize limit cwd size t config.logFile := by
      rw [fileSize, hopen]
      exact hsize
    rw [isItemExistsAtPath_of_file hlive hfile]
    simp only [Bool.false_eq_true, not_false_eq_true, Option.isSome_some, and_self, if_true,
      decide_eq_true hfileSize]
    rfl

private theorem rollbackFrom_one_unmoved
    (hplain : PlainName (FilePath.ofString config.logFile).displayName)
    (hleads : Leads limit t config.directory d) (hfile : t.find l = some (.file content))
    (hover : FileOrNone t (config.generation d 1)) (hfrom : config.generation d 0 ≠ l)
    (hto : config.generation d 1 ≠ l)
    (hrun : rollbackFrom limit cwd (fuel + 1) config 1 fds t = some t') : Unmoved t' l content := by
  -- the renaming, in a tree with the directory and the file
  have hrename {t₁ : Volume α} (hleads : Leads limit t₁ config.directory d)
      (hfile : t₁.find l = some (.file content)) : Unmoved (renameItem limit cwd t₁
        (config.generationPath 0) (config.generationPath 1)).1 l content := by
    refine renameItem_unmoved hfile ?_ ?_
    · rw [generationPath_eq, ne_eq, hleads.resolve_iff (plainName_generationName hplain 0)]
      exact fun h => hfrom h.1.symm
    · rw [generationPath_eq, hleads.place (plainName_generationName hplain 1)]
      exact fun h => hto (Option.some.inj h)
  rw [rollbackFrom] at hrun
  split_ifs at hrun with hexists
  · rw [moveItem] at hrun
    cases hfound : t.find (config.generation d 1) with
    | none =>
      rw [isItemExistsAtPath_of_lstat_none
        ((lstat_generationPath hplain hleads 1).trans hfound)] at hrun
      obtain rfl := Option.some.inj hrun
      exact hrename hleads hfile
    | some e =>
      obtain ⟨old, rfl⟩ := hover e hfound
      obtain ⟨t₁, hremove, hfind⟩ := @removeItemAtPath_file _ limit cwd _ _ _ _ _ hleads
        (plainName_generationName hplain 1) hfound
      rw [← generationPath_eq] at hremove
      rw [exists_generation hplain hleads hfound, hremove] at hrun
      obtain rfl := Option.some.inj hrun
      have hsame : SameDirs t t₁ := .of_find hfind hover (by simp)
      exact hrename (hleads.of_same hsame) ((hfind l).trans ((if_neg (Ne.symm hto)).trans hfile))
  · obtain rfl := Option.some.inj hrun
    exact .inl hfile

variable (hlive : t.resolve limit cwd false config.logFile = some l)
  (hfile : t.find l = some (.file content)) (hcount : 1 ≤ config.rollbackCount)
  (hfiles : ∀ k, 1 ≤ k → k ≤ config.rollbackCount → ∀ e,
    t.lstat limit cwd (config.generationPath k) = some e → ∃ old, e = .file old)
  (hrollback : force = true ∨ config.maxFileSize ≤ size content)
include hlive hfile hcount hfiles hrollback

/-- With an extension, and a path that the components name, the generations move on. -/
theorem openLogFile_rollsBack (hext : (FilePath.ofString config.logFile).extensionName ≠ [])
    (hbuilt : t.resolve limit cwd false (FilePath.ofString config.logFile).toString = some l) :
    ∃ t' opened, (∀ fuel, openLogFile limit cwd (fuel + 1) config size created fds t force =
        some (t', opened)) ∧
      RollsBack limit cwd config created t t' l (opened.map Prod.fst) := by
  obtain ⟨-, init, segments, -, -, hplain, hcomponents, hsegments⟩ := location_of_file hlive hfile
  have hdirectory : config.directory = init := by
    rw [directory, hcomponents, List.dropLast_concat]
  have hzero : config.generationName 0 = (FilePath.ofString config.logFile).displayName := by
    rw [generationName_zero, if_neg hext]
  have hnormal : Normal (init ++ [(FilePath.ofString config.logFile).displayName]) :=
    hcomponents ▸ normal_ofString config.logFile
  obtain ⟨d, hleads, rfl⟩ : ∃ d, Leads limit t config.directory d ∧ l = config.generation d 0 := by
    rw [toString_eq, hcomponents, resolve_assemblyPath hnormal] at hbuilt
    obtain ⟨d, hwalk, hdir, rfl⟩ := hbuilt.parent hplain.proper find_nil
    refine ⟨d, ⟨config.normal_directory, hdirectory ▸ hwalk, hdir⟩, ?_⟩
    rw [LogFileConfig.generation, hzero]
  have hgenerations : ∀ k, 0 ≤ k → k ≤ config.rollbackCount →
      FileOrNone t (config.generation d k) := by
    intro k _ hk e he
    rcases Nat.eq_zero_or_pos k with rfl | hpos
    · rw [hfile] at he
      exact ⟨content, (Option.some.inj he).symm⟩
    · exact hfiles k hpos hk e ((lstat_generationPath hplain hleads k).trans he)
  obtain ⟨t₁, hloop, hshifted⟩ := @rollbackFrom_shifted _ limit cwd _ _ _ _ _ hplain hleads
    (Nat.zero_le config.rollbackCount) hgenerations
  have hsame := hshifted.sameDirs hgenerations
  have hgone : t₁.find (config.generation d 0) = none := by
    exact hshifted.vacated.trans (if_pos hcount)
  obtain ⟨t', hopen, hfind⟩ := @openAppend_creates _ limit cwd _ _ created _ _ _ hsegments hplain
    (place_of_same hsame (place_of_resolve hsegments hplain hlive)) hgone
  have hsame₁ : SameDirs t₁ t' := .of_find hfind (by simp [hgone]) (by simp)
  have hsame' : SameDirs t t' := fun m e he => (hsame₁ m e he).trans (hsame m e he)
  have hne {k : ℕ} (hk : k ≠ 0) : config.generation d k ≠ config.generation d 0 :=
    fun heq => hk (generation_injective heq)
  have hlstat (k : ℕ) (hk : k ≠ 0) :
      t'.lstat limit cwd (config.generationPath k) = t₁.find (config.generation d k) := by
    rw [lstat_generationPath hplain (hleads.of_same hsame') k, hfind, if_neg (hne hk)]
  refine ⟨t', some (config.generation d 0, size created), fun fuel => ?_, ?_, rfl, ?_, ?_, ?_⟩
  · rw [openLogFile_eq hlive hfile hrollback, hloop, rollbackFrom, Option.bind_some, hopen]
    rfl
  · rw [hfind, if_pos rfl]
  · rw [hlstat 1 (by decide), hshifted.moved 0 le_rfl hcount, hfile]
    rfl
  · intro k hk hlt
    rw [hlstat (k + 1) (Nat.succ_ne_zero k), hshifted.moved k (Nat.zero_le k) hlt]
    simp only [lstat_generationPath hplain hleads]
  · intro m hm hothers
    rw [hfind, if_neg hm]
    refine hshifted.others m fun k _ hk heq => ?_
    rcases Nat.eq_zero_or_pos k with rfl | hpos
    · exact hm heq
    · refine hothers k hpos hk ?_
      rw [generationPath_eq, hleads.place (plainName_generationName hplain k), heq]
      rfl

private theorem not_rollsBack {opened : Option (Location × ℕ)} (hnew : content ≠ created)
    (hbuilt : ¬((FilePath.ofString config.logFile).extensionName ≠ [] ∧
      t.resolve limit cwd false (FilePath.ofString config.logFile).toString = some l))
    (hrun : openLogFile limit cwd (fuel + 1) config size created fds t force = some (t', opened)) :
    t'.find l ≠ some (.file created) := by
  obtain ⟨d, init, segments, hl, -, hplain, hcomponents, -⟩ := location_of_file hlive hfile
  rw [openLogFile_eq hlive hfile hrollback, Option.bind_eq_some_iff] at hrun
  obtain ⟨t₂, hloop, hresult⟩ := hrun
  obtain ⟨rfl, -⟩ := Prod.mk.inj (Option.some.inj hresult)
  refine openAppend_unmoved ?_ hnew
  by_cases hsome : ∃ d, Leads limit t config.directory d
  · obtain ⟨d', hleads⟩ := hsome
    have hne (k : ℕ) : config.generation d' k ≠ l := by
      intro heq
      have hname := List.append_inj_right' (heq.trans hl) rfl
      have hname := List.singleton_inj.mp hname
      by_cases hk : k = 0
      · -- the log file would be where it is looked for
        rw [hk, generationName_zero] at hname
        split_ifs at hname with hext
        · have hlength := congrArg List.length hname
          rw [List.length_append, List.length_singleton] at hlength
          omega
        · refine hbuilt ⟨hext, ?_⟩
          have hdirectory : config.directory = init := by
            rw [directory, hcomponents, List.dropLast_concat]
          rw [toString_eq, hcomponents, ← hdirectory, hleads.resolve_iff hplain, hfile]
          refine ⟨?_, rfl⟩
          rw [← heq, hk, LogFileConfig.generation, generationName_zero, if_neg hext]
      · exact generationName_ne_displayName hk hname
    have hgenerations : ∀ k, 1 ≤ k → k ≤ config.rollbackCount →
        FileOrNone t (config.generation d' k) := fun k hpos hk e he =>
      hfiles k hpos hk e ((lstat_generationPath hplain hleads k).trans he)
    obtain ⟨t₁, hrounds, hshifted⟩ := @rollbackFrom_shifted _ limit cwd _ _ _ _ _ hplain hleads
      hcount hgenerations
    rw [hrounds] at hloop
    refine rollbackFrom_one_unmoved hplain
      (hleads.of_same (hshifted.sameDirs hgenerations)) ?_
      (hshifted.fileOrNone hgenerations le_rfl hcount) (hne 0) (hne 1) hloop
    rw [hshifted.others l fun k _ _ heq => hne k heq.symm, hfile]
  · rw [rollbackFrom_of_not_leads hplain fun d hleads => hsome ⟨d, hleads⟩] at hloop
    obtain rfl := Option.some.inj hloop
    exact .inl hfile

/-- A rollback keeps every generation exactly for paths with an extension whose components name
the log file from the root. -/
theorem openLogFile_rollsBack_iff (hnew : content ≠ created) :
    (∃ t' opened, (∀ fuel, openLogFile limit cwd (fuel + 1) config size created fds t force =
        some (t', opened)) ∧
      RollsBack limit cwd config created t t' l (opened.map Prod.fst)) ↔
    (FilePath.ofString config.logFile).extensionName ≠ [] ∧
      t.resolve limit cwd false (FilePath.ofString config.logFile).toString = some l := by
  constructor
  · rintro ⟨t', opened, hrun, hrolls⟩
    by_contra hbuilt
    exact not_rollsBack hlive hfile hcount hfiles hrollback hnew hbuilt (hrun 0) hrolls.live
  · rintro ⟨hext, hbuilt⟩
    exact openLogFile_rollsBack hlive hfile hcount hfiles hrollback hext hbuilt

end Live

def oneGeneration : Volume ℕ where
  entries := [(["v".toList], .dir), (["v".toList, "a.log".toList], .file 1),
    (["v".toList, "a.1.log".toList], .file 2)]
  nodup := by decide
  plain := by decide
  closed := by decide

/-- Two generations are kept of `/v/a.log`. -/
theorem openLogFile_rollsBack_iff_absolute :
    (∃ t' opened, (∀ fuel, openLogFile 8 [] (fuel + 1) ⟨"/v/a.log".toList, 100, 2⟩ id 0 4
        oneGeneration true = some (t', opened)) ∧
      RollsBack 8 [] ⟨"/v/a.log".toList, 100, 2⟩ 0 oneGeneration t'
        ["v".toList, "a.log".toList] (opened.map Prod.fst)) ↔
    (FilePath.ofString "/v/a.log".toList).extensionName ≠ [] ∧
      oneGeneration.resolve 8 [] false (FilePath.ofString "/v/a.log".toList).toString =
        some ["v".toList, "a.log".toList] := by
  have hlog : oneGeneration.find ["v".toList, "a.log".toList] = some (.file 1) := by decide
  refine openLogFile_rollsBack_iff (by decide) hlog (by decide) (fun k hk hle e he => ?_)
    (.inl rfl) (by decide)
  have hfile : e = .file 2 := by
    have hk : k = 1 ∨ k = 2 := by
      have hle : k ≤ 2 := hle
      omega
    rcases hk with rfl | rfl
    · have hfound : oneGeneration.lstat 8 []
          (generationPath ⟨"/v/a.log".toList, 100, 2⟩ 1) = some (.file 2) := by decide
      exact Option.some.inj (he.symm.trans hfound)
    · have hnone : oneGeneration.lstat 8 []
          (generationPath ⟨"/v/a.log".toList, 100, 2⟩ 2) = none := by decide
      rw [hnone] at he
      cases he
  exact ⟨2, hfile⟩

/-- With a relative path nothing is rolled back: the generations are looked for at the root. -/
theorem relative_path_not_rolled_back : ¬∃ t' opened,
    openLogFile 8 ["v".toList] 1 ⟨"a.log".toList, 100, 2⟩ id 0 4 oneGeneration true =
        some (t', opened) ∧
      RollsBack 8 ["v".toList] ⟨"a.log".toList, 100, 2⟩ 0 oneGeneration t'
        ["v".toList, "a.log".toList] (opened.map Prod.fst) := by
  rintro ⟨t', opened, hrun, hrolls⟩
  have hkept : (openLogFile 8 ["v".toList] 1 ⟨"a.log".toList, 100, 2⟩ id 0 4 oneGeneration true).map
      (fun r => r.1.find ["v".toList, "a.log".toList]) = some (some (.file 1)) := by decide
  rw [hrun, Option.map_some, Option.some_inj, hrolls.live] at hkept
  exact absurd hkept (by decide)

end Log.LogFileConfig

end DarwinCore
