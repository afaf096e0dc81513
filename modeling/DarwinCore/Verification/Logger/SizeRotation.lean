import DarwinCore.Verification.Logger.Rotation

/-! # Rotation by size

Uncompressed, the newest files stay under the numbers from 1 on. Compressed ones leave these
names, so nothing moves them up and each rotation overwrites the last. -/

namespace DarwinCore.Log

open FileStore

/-! ### Where the rotated files are -/

def rotatedFiles (files : Files) (path : Path) (index : ℕ) : List LogFile :=
  (files (rotatedPath path index)).toList ++ (files (gzPath path index)).toList

/-- The rotated files with the numbers from 1 to `n`, the oldest first. -/
def generations (files : Files) (path : Path) (n : ℕ) : List LogFile :=
  ((List.range n).flatMap fun i => rotatedFiles files path (i + 1)).reverse

def LogFile.zipped (f : LogFile) : LogFile :=
  { f with compressed := true }

/-- How many rotated files the names keep apart. -/
def RotateConfig.kept (config : RotateConfig) : ℕ :=
  if config.compress then 1 else config.maxFiles.toNat

/-- The rotated files are the newest of those in `past`. -/
def Layout (config : RotateConfig) (path : Path) (files : Files) (past : List LogFile) : Prop :=
  if config.compress then
    Numbered (gzPath path) 1 files (past.map LogFile.zipped) ∧
      ∀ i, files (rotatedPath path (i + 1)) = none
  else
    Numbered (rotatedPath path) config.maxFiles.toNat files past ∧
      ∀ i, files (gzPath path (i + 1)) = none

section Layout

variable {config : RotateConfig} {path : Path} {files : Files} {past : List LogFile}
  {live x : LogFile} {n : ℕ}

theorem Layout.put (h : Layout config path files past) :
    Layout config path (files.put path x) past := by
  have hplain : ∀ i, files.put path x (rotatedPath path i) = files (rotatedPath path i) :=
    fun i => put_of_ne (logPath_ne_rotatedPath i).symm
  have hgz : ∀ i, files.put path x (gzPath path i) = files (gzPath path i) :=
    fun i => put_of_ne (logPath_ne_gzPath i).symm
  unfold Layout at h ⊢
  split_ifs at h ⊢
  · exact ⟨h.1.congr fun i => hgz _, fun i => (hplain _).trans (h.2 i)⟩
  · exact ⟨h.1.congr fun i => hplain _, fun i => (hgz _).trans (h.2 i)⟩

/-- A rotation makes the live file the newest rotated one. -/
theorem Layout.rotate (h : Layout config path files past) (hfiles : 1 ≤ config.maxFiles)
    (hlive : files path = some live) :
    Layout config path (rotateFiles config path files) (live :: past) := by
  unfold Layout rotateFiles at *
  by_cases hcompress : config.compress
  · simp only [hcompress, if_true] at h ⊢
    obtain ⟨hgz, hplain⟩ := h
    rw [shift_none hplain]
    have hfirst : files.rename path (rotatedPath path 1) (rotatedPath path 1) = some live :=
      rename_target hlive
    simp only [gzip, hfirst]
    constructor
    · intro i
      cases i with
      | zero =>
        change Store.put _ (gzPath path 1) _ (gzPath path 1) = _
        simp [LogFile.zipped]
      | succ i =>
        have hne : gzPath path (i + 2) ≠ gzPath path 1 := (gzPath_injective path).ne (by omega)
        change Store.put _ (gzPath path 1) _ (gzPath path (i + 2)) = _
        rw [put_of_ne hne, remove_of_ne (gzPath_ne_rotatedPath _ _),
          rename_of_ne (logPath_ne_gzPath _).symm (gzPath_ne_rotatedPath _ _), hgz (i + 1),
          List.getElem?_eq_none_iff.mpr, List.getElem?_eq_none_iff.mpr]
        all_goals
          rw [List.length_take]
          omega
    · intro i
      change Store.put _ (gzPath path 1) _ (rotatedPath path (i + 1)) = _
      rw [put_of_ne (gzPath_ne_rotatedPath _ _).symm]
      by_cases hi : i = 0
      · subst hi
        exact remove_self
      · have hne : rotatedPath path (i + 1) ≠ rotatedPath path 1 :=
          (rotatedPath_injective path).ne (by omega)
        rw [remove_of_ne hne, rename_of_ne (logPath_ne_rotatedPath _).symm hne, hplain]
  · simp only [hcompress, if_false, Bool.false_eq_true] at h ⊢
    obtain ⟨hplain, hgz⟩ := h
    obtain ⟨most, hmost⟩ : ∃ most : ℕ, config.maxFiles = most + 1 :=
      ⟨(config.maxFiles - 1).toNat, by omega⟩
    have hshift : (config.maxFiles - 1).toNat = most := by omega
    have htoNat : config.maxFiles.toNat = most + 1 := by omega
    rw [hshift]
    rw [htoNat] at hplain ⊢
    constructor
    · refine hplain.push (rotatedPath_injective path) (fun i => ?_) (rename_target ?_)
      · exact rename_of_ne (logPath_ne_rotatedPath _).symm
          ((rotatedPath_injective path).ne (by omega))
      · rw [shift_other (@logPath_ne_rotatedPath path), hlive]
    · intro i
      rw [rename_of_ne (logPath_ne_gzPath _).symm (gzPath_ne_rotatedPath _ _),
        shift_other fun j => gzPath_ne_rotatedPath _ j, hgz]

theorem Layout.rotatedFiles (h : Layout config path files past) (i : ℕ) :
    (rotatedFiles files path (i + 1)).map LogFile.content =
      (((past.take config.kept)[i]?).toList).map LogFile.content := by
  unfold Layout at h
  unfold Log.rotatedFiles RotateConfig.kept
  split_ifs at h ⊢
  · rw [h.2, h.1, ← List.map_take, List.getElem?_map]
    cases (past.take 1)[i]? <;> rfl
  · rw [h.1, h.2]
    simp

theorem flatMap_range_getElem? {α : Type*} (l : List α) (n : ℕ) :
    (List.range n).flatMap (fun i => (l[i]?).toList) = l.take n := by
  induction n with
  | zero => simp
  | succ n ih =>
    rw [List.range_succ, List.flatMap_append, ih, List.take_add_one]
    simp

/-- The rotated files, decompressed, are the newest of those moved away. -/
theorem Layout.generations (h : Layout config path files past) (hn : config.kept ≤ n) :
    (generations files path n).map LogFile.content =
      ((past.take config.kept).reverse).map LogFile.content := by
  unfold Log.generations
  rw [List.map_reverse, List.map_flatMap, List.map_reverse]
  congr 1
  simp only [h.rotatedFiles]
  rw [← List.map_flatMap, flatMap_range_getElem?, List.take_take, Nat.min_eq_right hn]

theorem Layout.rotatedFiles_eq_nil (h : Layout config path files past) {i : ℕ}
    (hi : config.kept < i) : Log.rotatedFiles files path i = [] := by
  obtain ⟨j, rfl⟩ : ∃ j, i = j + 1 := ⟨i - 1, by omega⟩
  have hnone : (past.take config.kept)[j]? = none := by
    rw [List.getElem?_eq_none_iff, List.length_take]
    omega
  have hcontents := h.rotatedFiles j
  rw [hnone] at hcontents
  simpa using hcontents

end Layout

/-! ### Runs -/

/-- What the sink's files have to do with what has been written. -/
structure Sized (config : RotateConfig) (base : FileSink) (initial : List UInt8)
    (past : List LogFile) (live : LogFile) (files : Files) (done : List (ℤ × LogEntry)) : Prop where
  layout : Layout config base.path files past
  content : past.reverse.flatMap LogFile.content ++ live.content =
    initial ++ done.flatMap fun e => base.line e.2
  full : ∀ g ∈ past, config.maxFileSize.toNat ≤ g.size ∧ g.size ≤ maxOffset
  early : 0 < config.maxFileSize → ∀ g ∈ live :: past, g.lines ≠ [] →
    g.beforeLast.size < config.maxFileSize.toNat

section Runs

variable {config : RotateConfig} {base s s' : FileSink} {files files' : Files} {live : LogFile}
  {past : List LogFile} {initial : List UInt8} {done entries : List (ℤ × LogEntry)} {now : ℤ}
  {entry : LogEntry}

theorem Tracks.path_eq (h : Tracks config base s files live) : s.path = base.path := by
  obtain ⟨last, rfl⟩ := h.sink
  rfl

theorem Tracks.line_eq (h : Tracks config base s files live) : s.line entry = base.line entry := by
  obtain ⟨last, rfl⟩ := h.sink
  rfl

theorem Tracks.rotates_size_iff (h : Tracks config base s files live)
    (hpolicy : config.policy = .size) (now : ℤ) :
    s.rotates now files ↔ config.maxFileSize.toNat ≤ live.size := by
  obtain ⟨last, rfl⟩ := h.sink
  have hfits : live.size < UInt64.size := by
    have hfits := h.fits
    unfold maxOffset at hfits
    exact Nat.lt_of_le_of_lt hfits (by decide)
  simp [FileSink.rotates, LogRotate.shouldRotate, hpolicy, UInt64.le_iff_toNat_le,
    Nat.mod_eq_of_lt hfits]

theorem Sized.next (h : Sized config base initial past live files done)
    (htracks : Tracks config base s files live) (hpolicy : config.policy = .size)
    (hfiles : 1 ≤ config.maxFiles) :
    Sized config base initial (if s.rotates now files then live :: past else past)
      (nextLive s files live now entry) (nextFiles config s files live now entry)
      (done ++ [(now, entry)]) := by
  have hrotates := htracks.rotates_size_iff hpolicy now
  have hcontent := h.content
  have hearly := h.early
  constructor
  · unfold nextFiles around
    rw [htracks.path_eq]
    split_ifs
    · exact (h.layout.rotate hfiles htracks.file).put
    · exact h.layout.put
  · unfold nextLive target
    rw [htracks.line_eq, List.flatMap_append, ← List.append_assoc, ← hcontent]
    split_ifs <;> simp
  · split_ifs with hrotate
    · exact List.forall_mem_cons.mpr ⟨⟨hrotates.mp hrotate, htracks.fits⟩, h.full⟩
    · exact h.full
  · intro hpos
    have hpos' : 0 < config.maxFileSize.toNat := by
      simpa [UInt64.lt_iff_toNat_lt] using hpos
    have hnext : (nextLive s files live now entry).beforeLast.size < config.maxFileSize.toNat := by
      unfold nextLive LogFile.size target
      rw [beforeLast_add]
      split_ifs with hrotate
      · simpa using hpos'
      · rw [hrotates] at hrotate
        exact Nat.lt_of_not_le hrotate
    refine List.forall_mem_cons.mpr ⟨fun _ => hnext, ?_⟩
    split_ifs
    · exact hearly hpos
    · exact (List.forall_mem_cons.mp (hearly hpos)).2

/-- The files that a run has rotated, and the state it ends in. -/
theorem Sized.run {path : Path} {formatter : LogEntry → List UInt8} {minLevel : LogLevel}
    {start : ℤ} {files₀ : Files} (hpolicy : config.policy = .size) (hfiles : 1 ≤ config.maxFiles)
    (hrotated : ∀ i, rotatedFiles files path (i + 1) = [])
    (hlive : ∀ f, files path = some f → f.Unwritten)
    (hcreate : FileSink.create path config formatter minLevel start files = some (s, files₀))
    (hrun : s.writeAll entries files₀ = some (s', files')) :
    ∃ live', files' path = some live' ∧
      Sized config s (((files path).map LogFile.content).getD [])
        (rotatedOut entries s files₀).reverse live' files' (s.logged entries) := by
  obtain ⟨rfl, -, -, live, hlive, hunwritten, rfl, htracks⟩ := create_tracks hcreate hlive
  have hlayout : Layout config s.path files [] := by
    have hnone : ∀ i, files (rotatedPath s.path (i + 1)) = none ∧
        files (gzPath s.path (i + 1)) = none := by
      simpa [rotatedFiles] using hrotated
    unfold Layout
    split_ifs
    · exact ⟨fun i => by simp [(hnone i).2], fun i => (hnone i).1⟩
    · exact ⟨fun i => by simp [(hnone i).1], fun i => (hnone i).2⟩
  have hstart : Sized config s (((files s.path).map LogFile.content).getD []) [] live
      (files.put s.path live) [] := by
    refine ⟨hlayout.put, ?_, by simp, fun _ g hg => ?_⟩
    · subst hlive
      cases files s.path <;> simp
    · obtain rfl : g = live := by simpa using hg
      simp [hunwritten.lines]
  obtain ⟨live', htracks', hend⟩ := writeAll_invariant
    (fun past live files done => Sized config s _ past live files done)
    (fun htracks h => h.next htracks hpolicy hfiles) htracks hstart hrun
  rw [List.append_nil, List.nil_append] at hend
  exact ⟨live', htracks'.file, hend⟩

end Runs

/-- What is left of a run with its rotations: the newest of what was written, in as many files as
asked for, each cut when it was full. -/
structure KeepsNewest (config : RotateConfig) (path : Path) (files : Files)
    (rotations : List LogFile) (written : List UInt8) : Prop where
  suffix : ∃ live, files path = some live ∧
    (generations files path config.maxFiles.toNat).flatMap LogFile.content ++ live.content <:+
      written
  newest : (rotations.drop (rotations.length - config.maxFiles.toNat)).map LogFile.content <:+
    (generations files path config.maxFiles.toNat).map LogFile.content
  bounded : (generations files path config.maxFiles.toNat).length ≤ config.maxFiles.toNat ∧
    ∀ i : ℕ, config.maxFiles < i → rotatedFiles files path i = []
  full : ∀ g ∈ rotations, config.maxFileSize.toNat ≤ g.size ∧
    (g.lines ≠ [] → g.beforeLast.size < config.maxFileSize.toNat)

/-- Every run of a new sink keeps the newest entries. -/
def KeepsNewestEntries (config : RotateConfig) : Prop :=
  ∀ (path : Path) (formatter : LogEntry → List UInt8) (minLevel : LogLevel) (start : ℤ)
    (files files₀ files' : Files) (s₀ s : FileSink) (entries : List (ℤ × LogEntry)),
    (∀ i, rotatedFiles files path (i + 1) = []) → (∀ f, files path = some f → f.Unwritten) →
    FileSink.create path config formatter minLevel start files = some (s₀, files₀) →
    s₀.writeAll entries files₀ = some (s, files') →
    KeepsNewest config path files' (rotatedOut entries s₀ files₀)
      (((files path).map LogFile.content).getD [] ++
        (s₀.logged entries).flatMap fun e => s₀.line e.2)

section Runs

variable {config : RotateConfig}

theorem RotateConfig.kept_le (hfiles : 1 ≤ config.maxFiles) :
    config.kept ≤ config.maxFiles.toNat := by
  unfold RotateConfig.kept
  split_ifs <;> omega

theorem keepsNewestEntries_of_kept (hpolicy : config.policy = .size) (hfiles : 1 ≤ config.maxFiles)
    (h : 0 < config.maxFileSize ∧ config.kept = config.maxFiles.toNat ∨
      maxOffset < config.maxFileSize.toNat) : KeepsNewestEntries config := by
  intro path formatter minLevel start files files₀ files' s₀ s entries hrotated hlive hcreate hrun
  obtain ⟨live, hfile, hsized⟩ := Sized.run hpolicy hfiles hrotated hlive hcreate hrun
  obtain ⟨rfl, -⟩ := create_tracks hcreate hlive
  have hle := RotateConfig.kept_le hfiles
  have hgenerations := hsized.layout.generations hle
  generalize rotatedOut entries s₀ files₀ = rotations at hsized hgenerations ⊢
  have hnone : maxOffset < config.maxFileSize.toNat → rotations = [] := by
    intro hlarge
    refine List.eq_nil_iff_forall_not_mem.mpr fun g hg => ?_
    have hfull := hsized.full g (List.mem_reverse.mpr hg)
    omega
  have hkept : (rotations.reverse.take config.kept).reverse =
      rotations.drop (rotations.length - config.maxFiles.toNat) := by
    rcases h with ⟨-, hkept⟩ | hlarge
    · rw [hkept, List.take_reverse, List.reverse_reverse]
    · simp [hnone hlarge]
  rw [hkept] at hgenerations
  refine ⟨⟨live, hfile, ?_⟩, ?_, ⟨?_, ?_⟩, ?_⟩
  · rw [← hsized.content, List.reverse_reverse, List.flatMap_def, hgenerations, ← List.flatMap_def]
    refine ⟨(rotations.take (rotations.length - config.maxFiles.toNat)).flatMap LogFile.content, ?_⟩
    rw [← List.append_assoc, ← List.flatMap_append, List.take_append_drop]
  · exact hgenerations.symm ▸ List.suffix_rfl
  · have hlength := congrArg List.length hgenerations
    rw [List.length_map, List.length_map, List.length_drop] at hlength
    omega
  · intro i hi
    exact hsized.layout.rotatedFiles_eq_nil (by omega)
  · intro g hg
    have hpos : 0 < config.maxFileSize := by
      rcases h with ⟨hpos, -⟩ | hlarge
      · exact hpos
      · rw [UInt64.lt_iff_toNat_lt]
        exact Nat.lt_of_le_of_lt (Nat.zero_le _) hlarge
    exact ⟨(hsized.full g (List.mem_reverse.mpr hg)).1,
      hsized.early hpos g (List.mem_cons_of_mem _ (List.mem_reverse.mpr hg))⟩

variable {base s : FileSink} {files : Files} {live : LogFile} {now : ℤ} {entry : LogEntry}

/-- Lines as long as the live file, which is full, rotate it each time. -/
theorem Tracks.writeAll_replicate (h : Tracks config base s files live)
    (hpolicy : config.policy = .size) (hlog : base.shouldLog entry.level)
    (hsize : (base.line entry).length = live.size) (hfull : config.maxFileSize.toNat ≤ live.size)
    (now : ℤ) (n : ℕ) :
    ∃ s' files', s.writeAll (List.replicate n (now, entry)) files = some (s', files') ∧
      (rotatedOut (List.replicate n (now, entry)) s files).length = n ∧
      (0 < n → live ∈ rotatedOut (List.replicate n (now, entry)) s files) := by
  induction n generalizing s files live with
  | zero => exact ⟨s, files, rfl, rfl, by simp⟩
  | succ n ih =>
    have hrotates := (h.rotates_size_iff hpolicy now).mpr hfull
    have hlevel : s.shouldLog entry.level := by
      obtain ⟨last, rfl⟩ := h.sink
      exact hlog
    have hnext : (nextLive s files live now entry).size = live.size := by
      simpa [nextLive, target, hrotates, LogFile.size, h.line_eq] using hsize
    obtain ⟨s₁, heq, htracks⟩ := h.write hlevel now
    have hfits := h.fits
    rw [if_neg (by omega)] at heq
    obtain ⟨s', files', hrun, hlength, -⟩ :=
      ih (htracks (by omega)) (hsize.trans hnext.symm) (hnext ▸ hfull)
    have hfile : files s.path = some live := by rw [h.path_eq, h.file]
    refine ⟨s', files', ?_, ?_, ?_⟩
    · rw [List.replicate_succ, FileSink.writeAll, heq]
      exact hrun
    · rw [List.replicate_succ, rotatedOut, heq]
      simp [hlevel, hrotates, hfile, hlength]
    · intro _
      rw [List.replicate_succ, rotatedOut]
      simp [hlevel, hrotates, hfile]

/-- Three lines that each fill a file: the last two make a rotation. -/
theorem fullLines_run (hpolicy : config.policy = .size)
    (hmax : config.maxFileSize.toNat ≤ maxOffset) :
    ∃ formatter s files s' files', ∃ live : LogFile,
      FileSink.create ['a'] config formatter .trace 0 noFiles = some (s, files) ∧
      s.writeAll (List.replicate 3 (0, {})) files = some (s', files') ∧ live.lines ≠ [] ∧
      live ∈ rotatedOut (List.replicate 3 (0, {})) s files ∧
      2 ≤ (rotatedOut (List.replicate 3 (0, {})) s files).length := by
  obtain ⟨long, hlong⟩ : ∃ long, config.maxFileSize.toNat - 1 = long := ⟨_, rfl⟩
  obtain ⟨s, files, hcreate⟩ : ∃ s files, FileSink.create ['a'] config
      (fun _ => List.replicate long 0) .trace 0 noFiles = some (s, files) := ⟨_, _, rfl⟩
  obtain ⟨-, hformatter, hlevel, live, hlive, -, -, htracks⟩ :=
    create_tracks hcreate (by simp [noFiles])
  obtain rfl : live = .opened 0 := hlive
  have hline : (s.line {}).length = long + 1 := by simp [FileSink.line, hformatter]
  have hlog : s.shouldLog (LogEntry.level {}) := by
    rw [FileSink.shouldLog, hlevel]
    decide
  have hbound : long + 1 ≤ maxOffset := by
    have hpos : 0 < maxOffset := by decide
    omega
  have hnext : (nextLive s files (.opened 0) 0 {}).size = long + 1 := by
    unfold nextLive target LogFile.size
    split_ifs <;> simp [hline]
  have hfull : config.maxFileSize.toNat ≤ (nextLive s files (.opened 0) 0 {}).size := by omega
  obtain ⟨s₁, hwrite, htracks₁⟩ := htracks.write hlog 0
  rw [if_neg (by omega)] at hwrite
  obtain ⟨s', files', hrun, hlength, hmem⟩ := (htracks₁ (by omega)).writeAll_replicate hpolicy
    hlog (hline.trans hnext.symm) hfull 0 2
  refine ⟨_, s, files, s', files', nextLive s files (.opened 0) 0 {}, hcreate, ?_, ?_, ?_, ?_⟩
  · rw [List.replicate_succ, FileSink.writeAll, hwrite]
    exact hrun
  · simp [nextLive, LogFile.add]
  · rw [List.replicate_succ, rotatedOut, hwrite]
    exact List.mem_append_right _ (hmem (by omega))
  · rw [List.replicate_succ, rotatedOut, hwrite, List.length_append]
    exact Nat.le_add_left_of_le (Nat.le_of_eq hlength.symm)

/-- They are enough to lose one that must be kept, or to cut a file too late. -/
theorem not_keepsNewestEntries (hpolicy : config.policy = .size) (hfiles : 1 ≤ config.maxFiles)
    (hmax : config.maxFileSize.toNat ≤ maxOffset)
    (h : config.maxFileSize = 0 ∨ config.kept < config.maxFiles.toNat) :
    ¬KeepsNewestEntries config := by
  intro hkeeps
  obtain ⟨formatter, s, files, s', files', live, hcreate, hrun, hlines, hmem, hmany⟩ :=
    fullLines_run hpolicy hmax
  have hnoFile : ∀ f, noFiles ['a'] = some f → f.Unwritten := by
    intro f hf
    cases hf
  have hnewest := hkeeps _ _ _ _ _ _ _ _ _ _ (fun i => rfl) hnoFile hcreate hrun
  rcases h with hzero | hkept
  · have hearly := (hnewest.full _ hmem).2 hlines
    rw [hzero] at hearly
    exact Nat.not_lt_zero _ hearly
  · obtain ⟨live', -, hsized⟩ := Sized.run hpolicy hfiles (fun i => rfl) hnoFile hcreate hrun
    have hgenerations := congrArg List.length
      (hsized.layout.generations (RotateConfig.kept_le hfiles))
    have hsuffix := hnewest.newest.length_le
    have hone : config.kept = 1 := by
      unfold RotateConfig.kept at hkept ⊢
      split_ifs at hkept ⊢
      · rfl
      · omega
    rw [(create_tracks hcreate hnoFile).1, hone] at hgenerations
    simp only [List.length_map, List.length_drop, List.length_reverse, List.length_take]
      at hgenerations hsuffix
    omega

/-- Rotation by size keeps the newest entries exactly if the limit is positive and compression is
not asked to keep several files, or if no file ever reaches the limit. -/
theorem keepsNewestEntries_iff (hpolicy : config.policy = .size) (hfiles : 1 ≤ config.maxFiles) :
    KeepsNewestEntries config ↔
      0 < config.maxFileSize ∧ (config.compress = false ∨ config.maxFiles = 1) ∨
        maxOffset < config.maxFileSize.toNat := by
  have hkept : config.kept = config.maxFiles.toNat ↔
      config.compress = false ∨ config.maxFiles = 1 := by
    unfold RotateConfig.kept
    cases config.compress <;> simp
    omega
  rw [← hkept]
  constructor
  · intro h
    by_contra hcontra
    rw [not_or, not_and_or, Nat.not_lt] at hcontra
    refine not_keepsNewestEntries hpolicy hfiles hcontra.2 ?_ h
    have hle := RotateConfig.kept_le hfiles
    rcases hcontra.1 with hzero | hne
    · left
      simpa using hzero
    · right
      omega
  · exact keepsNewestEntries_of_kept hpolicy hfiles

theorem keepsNewestEntries_default : KeepsNewestEntries {} :=
  (keepsNewestEntries_iff rfl (by decide)).mpr (by decide)

end Runs

/-- With two compressed files to keep, the second one overwrites the first. -/
theorem compressed_file_overwritten : ∃ s₀ files₀ s files',
    FileSink.create ['a'] { maxFileSize := 1, maxFiles := 2, compress := true } LogEntry.message
      .trace 0 noFiles = some (s₀, files₀) ∧
    s₀.writeAll [(0, {}), (1, {}), (2, {})] files₀ = some (s, files') ∧
    ¬KeepsNewest { maxFileSize := 1, maxFiles := 2, compress := true } ['a'] files'
      (rotatedOut [(0, {}), (1, {}), (2, {})] s₀ files₀) [0x0A, 0x0A, 0x0A] := by
  refine ⟨_, _, _, _, rfl, rfl, fun h => ?_⟩
  have hlength := h.newest.length_le
  revert hlength
  decide

end DarwinCore.Log
