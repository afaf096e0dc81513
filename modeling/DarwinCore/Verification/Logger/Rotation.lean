import DarwinCore.Library.Lists
import DarwinCore.Model.Logger.LogSink

/-! # What a write does

The paths that a rotation uses are all different, so the live file becomes the first numbered one
and the others move up. -/

namespace DarwinCore

open FileStore

namespace File.Regular

variable {α : Type*} {files : Store α} {p q : Path} {a : α}

/-- With `cover`, moving a file that is there is a renaming. -/
theorem moveItem_cover (hp : p ≠ []) (hq : q ≠ []) (hpq : p ≠ q) (h : files p = some a) :
    moveItem files p q true = (files.rename p q, true) := by
  have hsource : (files.remove q) p = some a := by rw [remove_of_ne hpq, h]
  by_cases hexists : (files q).isSome
  · have hremoved : (files.remove q).rename p q = files.rename p q := by simp [rename_remove hpq, h]
    simp [moveItem, isItemExistsAtPath, removeItemAtPath, renameItem, hexists, hsource, hp, hq,
      hremoved]
  · simp [moveItem, isItemExistsAtPath, renameItem, hexists, h, hp, hq]

end File.Regular

namespace Log

open File.Regular

/-! ### The paths of the rotated files -/

section Paths

variable (logPath : Path)

/-- The path of a rotated file after its compression. -/
def gzPath (index : ℕ) : Path :=
  rotatedPath logPath index ++ ['.', 'g', 'z']

theorem rotatedPath_injective : (rotatedPath logPath).Injective := by
  intro i j h
  have hdigits : Nat.toDigits 10 i = Nat.toDigits 10 j := by simpa [rotatedPath] using h
  rw [← Nat.ofDigitChars_ten_toDigits (n := i), hdigits, Nat.ofDigitChars_ten_toDigits]

theorem gzPath_injective : (gzPath logPath).Injective :=
  (List.append_left_injective _).comp (rotatedPath_injective logPath)

variable {logPath}

theorem logPath_ne_rotatedPath (i : ℕ) : logPath ≠ rotatedPath logPath i := by
  simp [rotatedPath]

theorem logPath_ne_gzPath (i : ℕ) : logPath ≠ gzPath logPath i := by
  simp [gzPath, rotatedPath]

theorem gzPath_ne_rotatedPath (i j : ℕ) : gzPath logPath i ≠ rotatedPath logPath j := by
  intro h
  have hdigits : Nat.toDigits 10 i ++ ['.', 'g', 'z'] = Nat.toDigits 10 j := by
    simpa [gzPath, rotatedPath] using h
  have hz : 'z' ∈ Nat.toDigits 10 j := by simp [← hdigits]
  have hdigit := Nat.isDigit_of_mem_toDigits (by decide) (by decide) hz
  revert hdigit
  decide

theorem rotatedPath_ne_nil (i : ℕ) : rotatedPath logPath i ≠ [] := by
  simp [rotatedPath]

end Paths

/-! ### The rotation -/

section Rotate

variable {config : RotateConfig} {path : Path} {files : Files} {live : LogFile} {r : LogRotate}

/-- The files after a rotation, before the live file is opened again. -/
def rotateFiles (config : RotateConfig) (path : Path) (files : Files) : Files :=
  let files := (shift (rotatedPath path) (config.maxFiles - 1).toNat files).rename path
    (rotatedPath path 1)
  if config.compress then gzip files (rotatedPath path 1) else files

theorem moveUp_eq_shift {n : ℕ} (h : 0 < n → (n : ℤ) + 1 ≤ r.config.maxFiles) (files : Files) :
    r.moveUp n files = shift (rotatedPath r.logPath) n files := by
  induction n generalizing files with
  | zero => rfl
  | succ n ih =>
    have hlast := h (Nat.succ_pos n)
    have hle : ¬(n : ℤ) + 2 > r.config.maxFiles := by
      push_cast at hlast
      omega
    have hne : rotatedPath r.logPath (n + 1) ≠ rotatedPath r.logPath (n + 2) :=
      (rotatedPath_injective _).ne (by omega)
    rw [LogRotate.moveUp, shift, ih (by omega)]
    simp only [LogRotate.getRotatedPath, isItemExistsAtPath, if_neg hle]
    congr 1
    cases hfrom : files (rotatedPath r.logPath (n + 1)) with
    | none => simp [Store.rename, hfrom]
    | some file =>
      simp [moveItem_cover (rotatedPath_ne_nil _) (rotatedPath_ne_nil _) hne hfrom]

theorem rotate_eq (hpath : r.logPath ≠ []) (h : files r.logPath = some live) (now : ℤ) :
    r.rotate now files =
      ({ r with currentSize := 0, lastRotateTime := now }, rotateFiles r.config r.logPath files,
        true) := by
  have hshift := shift_other (@logPath_ne_rotatedPath r.logPath)
    (r.config.maxFiles - 1).toNat files
  have hmove := moveItem_cover hpath (@rotatedPath_ne_nil r.logPath 1)
    (logPath_ne_rotatedPath 1) (hshift.trans h)
  unfold LogRotate.rotate rotateFiles
  rw [moveUp_eq_shift (by omega)]
  generalize (r.config.maxFiles - 1).toNat = n at hmove ⊢
  simp [isItemExistsAtPath, h, LogRotate.getRotatedPath, hmove, LogRotate.compressFile]

theorem gzip_of_ne {q p : Path} (h : q ≠ p) (h' : q ≠ p ++ ['.', 'g', 'z']) :
    gzip files p q = files q := by
  unfold gzip
  cases files p with
  | none => rfl
  | some file => simp only [put_of_ne h', remove_of_ne h]

theorem rotateFiles_path : rotateFiles config path files path = none := by
  have hrename : ((shift (rotatedPath path) (config.maxFiles - 1).toNat files).rename path
      (rotatedPath path 1)) path = none := rename_source (logPath_ne_rotatedPath 1)
  unfold rotateFiles
  split_ifs
  · rw [gzip_of_ne (logPath_ne_rotatedPath 1) (logPath_ne_gzPath 1), hrename]
  · exact hrename

end Rotate

/-! ### A write -/

def LogFile.opened (now : ℤ) : LogFile :=
  { mtime := toTimeT now }

def LogFile.add (now : ℤ) (bytes : List UInt8) (f : LogFile) : LogFile :=
  { f with lines := f.lines ++ [⟨bytes, now⟩], mtime := toTimeT now }

@[simp]
theorem content_opened (now : ℤ) : (LogFile.opened now).content = [] := rfl

@[simp]
theorem content_add (now : ℤ) (bytes : List UInt8) (f : LogFile) :
    (f.add now bytes).content = f.content ++ bytes := by
  simp [LogFile.add, LogFile.content]

@[simp]
theorem beforeLast_add (now : ℤ) (bytes : List UInt8) (f : LogFile) :
    (f.add now bytes).beforeLast.content = f.content := by
  simp [LogFile.add, LogFile.beforeLast, LogFile.content]

def FileSink.line (s : FileSink) (entry : LogEntry) : List UInt8 :=
  s.formatter entry ++ [0x0A]

/-- The sink is `base` with a rotator whose books agree with the live file. -/
structure Tracks (config : RotateConfig) (base s : FileSink) (files : Files) (live : LogFile) :
    Prop where
  sink : ∃ last, s =
    { base with rotator := some ⟨base.path, config, UInt64.ofNat live.size, last⟩ }
  path_ne : base.path ≠ []
  file : files base.path = some live
  plain : live.compressed = false
  fits : live.size ≤ maxOffset

section Write

variable {config : RotateConfig} {base s s' : FileSink} {files files' : Files} {live : LogFile}
  {now : ℤ} {entry : LogEntry}

def target (s : FileSink) (files : Files) (live : LogFile) (now : ℤ) : LogFile :=
  if s.rotates now files then .opened now else live

def around (config : RotateConfig) (s : FileSink) (files : Files) (now : ℤ) : Files :=
  if s.rotates now files then rotateFiles config s.path files else files

def nextLive (s : FileSink) (files : Files) (live : LogFile) (now : ℤ) (entry : LogEntry) :
    LogFile :=
  (target s files live now).add now (s.line entry)

def nextFiles (config : RotateConfig) (s : FileSink) (files : Files) (live : LogFile) (now : ℤ)
    (entry : LogEntry) : Files :=
  (around config s files now).put s.path (nextLive s files live now entry)

theorem Tracks.checkRotation (h : Tracks config base s files live) (now : ℤ) :
    ∃ last, s.checkRotation now files =
      some (some ⟨s.path, config, UInt64.ofNat (target s files live now).size, last⟩,
        (around config s files now).put s.path (target s files live now)) := by
  obtain ⟨last, rfl⟩ := h.sink
  have hfile := h.file
  unfold FileSink.checkRotation target around FileSink.rotates
  by_cases hrotate :
      (LogRotate.mk base.path config (UInt64.ofNat live.size) last).shouldRotate now files
  · have heq := rotate_eq (r := ⟨base.path, config, UInt64.ofNat live.size, last⟩) h.path_ne hfile
      now
    simp only [hrotate, heq, Option.any_some, openAppend, rotateFiles_path]
    exact ⟨now, by simp [h.path_ne, LogFile.opened, LogFile.size, LogFile.content]⟩
  · refine ⟨last, ?_⟩
    have hput : files.put base.path live = files := by
      rw [Store.put, ← hfile, Function.update_eq_self]
    simp [hrotate, hput]

/-- A write adds its line to the live file, after a rotation if there is one; nothing stops it
but the largest size. -/
theorem Tracks.write (h : Tracks config base s files live) (hlog : s.shouldLog entry.level)
    (now : ℤ) :
    ∃ s', s.write now entry files =
        (if maxOffset < (nextLive s files live now entry).size then none
        else some (s', nextFiles config s files live now entry)) ∧
      (¬maxOffset < (nextLive s files live now entry).size →
        Tracks config base s' (nextFiles config s files live now entry)
          (nextLive s files live now entry)) := by
  obtain ⟨last, hcheck⟩ := h.checkRotation now
  have hsize : (nextLive s files live now entry).size =
      (target s files live now).size + (s.line entry).length := by
    simp [nextLive, LogFile.size]
  refine ⟨{ s with rotator := some ⟨s.path, config,
    UInt64.ofNat (nextLive s files live now entry).size, last⟩ }, ?_, ?_⟩
  · have hbooks : UInt64.ofNat (target s files live now).size +
        UInt64.ofNat ((s.formatter entry).length + 1) =
        UInt64.ofNat (nextLive s files live now entry).size := by
      rw [← UInt64.ofNat_add, hsize]
      simp [FileSink.line]
    simp only [FileSink.write, hlog, hcheck, append, not_true_eq_false, if_false,
      Option.bind_eq_bind, Option.bind_some, put_self]
    rw [show s.formatter entry ++ [0x0A] = s.line entry from rfl, ← hsize]
    split_ifs
    · rfl
    · simp only [LogRotate.recordWrite, Option.bind_some, Option.map_some, hbooks]
      simp [Store.put, LogFile.add, nextLive, nextFiles]
  · intro hle
    obtain ⟨last', rfl⟩ := h.sink
    exact {
      sink := ⟨last, rfl⟩
      path_ne := h.path_ne
      file := put_self
      plain := by
        unfold nextLive target
        split_ifs
        · rfl
        · exact h.plain
      fits := by omega }

theorem Tracks.write_cases (h : Tracks config base s files live)
    (hwrite : s.write now entry files = some (s', files')) :
    (¬base.shouldLog entry.level ∧ s' = s ∧ files' = files) ∨
      (base.shouldLog entry.level ∧ files' = nextFiles config s files live now entry ∧
        Tracks config base s' files' (nextLive s files live now entry)) := by
  have hlevel : s.shouldLog entry.level = base.shouldLog entry.level := by
    obtain ⟨last, rfl⟩ := h.sink
    rfl
  by_cases hlog : s.shouldLog entry.level
  · obtain ⟨s₁, heq, htracks⟩ := h.write hlog now
    rw [heq] at hwrite
    split_ifs at hwrite with hfits
    obtain ⟨rfl, rfl⟩ := Prod.mk.inj (Option.some.inj hwrite)
    exact .inr ⟨hlevel ▸ hlog, rfl, htracks hfits⟩
  · rw [FileSink.write, if_pos hlog] at hwrite
    obtain ⟨rfl, rfl⟩ := Prod.mk.inj (Option.some.inj hwrite)
    exact .inl ⟨hlevel ▸ hlog, rfl, rfl⟩

end Write

/-! ### Runs -/

/-- What a file is to a sink that has not written to it. -/
structure LogFile.Unwritten (f : LogFile) : Prop where
  lines : f.lines = []
  plain : f.compressed = false
  fits : f.size ≤ maxOffset

def noFiles : Files := fun _ => none

theorem unwritten_opened (now : ℤ) : (LogFile.opened now).Unwritten where
  lines := rfl
  plain := rfl
  fits := Nat.zero_le _

/-- The live file of a new sink is what was there, or an empty file. -/
theorem create_tracks {path : Path} {config : RotateConfig} {formatter : LogEntry → List UInt8}
    {minLevel : LogLevel} {start : ℤ} {files files' : Files} {s : FileSink}
    (hcreate : FileSink.create path config formatter minLevel start files = some (s, files'))
    (hlive : ∀ f, files path = some f → f.Unwritten) :
    s.path = path ∧ s.formatter = formatter ∧ s.minLevel = minLevel ∧
      ∃ live, live = (files path).getD (.opened start) ∧ live.Unwritten ∧
        files' = files.put path live ∧ Tracks config s s files' live := by
  unfold FileSink.create openAppend at hcreate
  simp only [Option.bind_eq_bind, Option.bind_eq_some_iff, Option.some.injEq,
    Prod.mk.injEq] at hcreate
  obtain ⟨opened, hopen, rfl, rfl⟩ := hcreate
  split_ifs at hopen with hpath hexists
  · obtain ⟨live, hfile⟩ := Option.isSome_iff_exists.mp hexists
    obtain rfl : files = opened := Option.some.inj hopen
    have hunwritten := hlive live hfile
    refine ⟨rfl, rfl, rfl, live, by simp [hfile], hunwritten, ?_, ?_⟩
    · rw [Store.put, ← hfile, Function.update_eq_self]
    · exact {
        sink := ⟨start, by simp [LogRotate.create, hfile]⟩
        path_ne := by simpa using hpath
        file := hfile
        plain := hunwritten.plain
        fits := hunwritten.fits }
  · obtain rfl : files.put path (.opened start) = opened := Option.some.inj hopen
    have hnone : files path = none := by simpa using hexists
    have hunwritten := unwritten_opened start
    refine ⟨rfl, rfl, rfl, .opened start, by simp [hnone], hunwritten, rfl, ?_⟩
    exact {
      sink := ⟨start, by simp [LogRotate.create, hnone, LogFile.size]⟩
      path_ne := by simpa using hpath
      file := put_self
      plain := hunwritten.plain
      fits := hunwritten.fits }

section Runs

variable {config : RotateConfig} {base s s' : FileSink} {files files' : Files} {live : LogFile}
  {past : List LogFile} {entries done : List (ℤ × LogEntry)}

/-- The files that the rotations of a run move away, the oldest first. -/
def rotatedOut : List (ℤ × LogEntry) → FileSink → Files → List LogFile
  | [], _, _ => []
  | (now, entry) :: entries, s, files =>
      (if s.shouldLog entry.level ∧ s.rotates now files then (files s.path).toList else []) ++
        match s.write now entry files with
        | none => []
        | some (s, files) => rotatedOut entries s files

def FileSink.logged (s : FileSink) (entries : List (ℤ × LogEntry)) : List (ℤ × LogEntry) :=
  entries.filter fun e => s.shouldLog e.2.level

/-- What every written entry keeps holds after a run; `past` lists what has been moved away, the
newest first. -/
theorem writeAll_invariant
    (Inv : List LogFile → LogFile → Files → List (ℤ × LogEntry) → Prop)
    (hstep : ∀ {s files live past done now entry}, Tracks config base s files live →
      Inv past live files done →
      Inv (if s.rotates now files then live :: past else past) (nextLive s files live now entry)
        (nextFiles config s files live now entry) (done ++ [(now, entry)]))
    (h : Tracks config base s files live) (hinv : Inv past live files done)
    (hrun : s.writeAll entries files = some (s', files')) :
    ∃ live', Tracks config base s' files' live' ∧
      Inv ((rotatedOut entries s files).reverse ++ past) live' files'
        (done ++ base.logged entries) := by
  induction entries generalizing s files live past done with
  | nil =>
    obtain ⟨rfl, rfl⟩ := Prod.mk.inj (Option.some.inj hrun)
    exact ⟨live, h, by simpa [rotatedOut, FileSink.logged] using hinv⟩
  | cons e entries ih =>
    obtain ⟨now, entry⟩ := e
    rw [FileSink.writeAll, Option.bind_eq_bind, Option.bind_eq_some_iff] at hrun
    obtain ⟨⟨s₁, files₁⟩, hwrite, hrest⟩ := hrun
    have hlevel : s.shouldLog entry.level = base.shouldLog entry.level := by
      obtain ⟨last, rfl⟩ := h.sink
      rfl
    simp only [rotatedOut, hwrite, hlevel]
    rcases h.write_cases hwrite with ⟨hlog, rfl, rfl⟩ | ⟨hlog, rfl, htracks⟩
    · simpa [FileSink.logged, hlog] using ih h hinv hrest
    · obtain ⟨live', htracks', hinv'⟩ := ih htracks (hstep h hinv) hrest
      refine ⟨live', htracks', ?_⟩
      have hpath : files s.path = some live := by
        obtain ⟨last, rfl⟩ := h.sink
        exact h.file
      by_cases hrotate : s.rotates now files
      · simpa [FileSink.logged, hlog, hrotate, hpath] using hinv'
      · simpa [FileSink.logged, hlog, hrotate] using hinv'

end Runs

/-! ## Rotation by time

The file's modification time is that of its last write, so a rotation comes from the gap between
two writes and not from the age of the file. -/

open Stretches

def RotatePolicy.period : RotatePolicy → Option ℤ
  | daily => some (LogRotate.hours 24)
  | hourly => some (LogRotate.hours 1)
  | size => none
  | never => none

/-- A write follows the one before it closely: less than a period after its whole second. -/
def Close (period a b : ℤ) : Prop :=
  b < fromTimeT (toTimeT a) + period

/-- No entry comes a period or more after the first one. -/
def WithinPeriod (period : ℤ) (f : LogFile) : Prop :=
  ∀ first ∈ f.lines.head?, ∀ l ∈ f.lines, l.time < first.time + period

/-- Of two writes a period or more apart, two neighbours from the one to the other are not
close. -/
def Interrupted (period : ℤ) (times : List ℤ) : Prop :=
  ∀ first between last, first :: between ++ [last] <:+: times → first + period ≤ last →
    ¬(first :: between ++ [last]).IsChain (Close period)

theorem RotatePolicy.period_pos {policy : RotatePolicy} {period : ℤ}
    (h : policy.period = some period) : 0 < period := by
  cases policy <;> cases h <;> decide

section Steps

variable {period t : ℤ} {times seg : List ℤ}

/-- A further write stays in the period of the stretch it goes on with. -/
theorem interrupted_concat (hpos : 0 < period) (hsorted : (times ++ [t]).Pairwise (· ≤ ·))
    (hseg : LastStretch (Close period) (times ++ [t]) seg) :
    Interrupted period (times ++ [t]) ↔
      Interrupted period times ∧ ∀ first ∈ seg.head?, t < first + period := by
  constructor
  · intro h
    refine ⟨fun first between last hwithin =>
      h first between last (hwithin.trans (List.prefix_append _ _).isInfix), fun first hfirst => ?_⟩
    by_contra hlate
    obtain ⟨rest, rfl⟩ : ∃ rest, seg = first :: rest := by
      cases seg with
      | nil => cases hfirst
      | cons a rest => exact ⟨rest, by rw [Option.some.inj hfirst]⟩
    rcases List.suffix_concat_iff.mp hseg.suffix with hnil | ⟨front, hfront, -⟩
    · cases hnil
    · cases front with
      | nil =>
        obtain ⟨rfl, -⟩ := List.cons.inj hfront
        omega
      | cons a between =>
        obtain ⟨rfl, rfl⟩ := List.cons.inj hfront
        exact h first between t hseg.suffix.isInfix (by omega) hseg.chain
  · rintro ⟨h, hhead⟩ first between last hwithin hlate hchain
    rcases List.infix_concat_iff.mp hwithin with hsuffix | hwithin
    · have hlast : t = last := by
        have hlasts := getLast?_of_suffix (a := last) hsuffix List.getLast?_concat
        simpa using hlasts
      subst hlast
      have hsub := hseg.longest _ hsuffix hchain
      obtain ⟨front, rfl⟩ := hsub
      obtain ⟨rest, hrest⟩ := hseg.suffix
      rw [← hrest] at hsorted
      have hsorted' := (List.pairwise_append.mp hsorted).2.1
      cases front with
      | nil =>
        have hbound := hhead first rfl
        omega
      | cons a front =>
        have hbound := hhead a rfl
        have hle : a ≤ first := (List.pairwise_cons.mp hsorted').1 first (by simp)
        omega
    · exact h first between last hwithin hlate hchain

end Steps

/-- What the sink's files have to do with the times of the writes. -/
structure Timed (period : ℤ) (past : List LogFile) (live : LogFile) (times : List ℤ) : Prop where
  stretch : LastStretch (Close period) times (live.lines.map Line.time)
  mtime : ∀ t ∈ times.getLast?, live.mtime = toTimeT t
  within : times.Pairwise (· ≤ ·) →
    ((∀ f ∈ live :: past, WithinPeriod period f) ↔ Interrupted period times)

section Runs

variable {config : RotateConfig} {base s : FileSink} {files : Files} {live : LogFile}
  {past : List LogFile} {period now : ℤ} {times : List ℤ} {entry : LogEntry}

theorem Tracks.rotates_iff (h : Tracks config base s files live)
    (hperiod : config.policy.period = some period) :
    s.rotates now files ↔ fromTimeT live.mtime + period ≤ now := by
  obtain ⟨last, rfl⟩ := h.sink
  have hfile := h.file
  have hsub : ∀ p : ℤ, p ≤ now - fromTimeT live.mtime ↔ fromTimeT live.mtime + p ≤ now := by
    intro p
    omega
  cases hpolicy : config.policy <;> rw [hpolicy] at hperiod <;> cases hperiod <;>
    simp [FileSink.rotates, LogRotate.shouldRotate, LogRotate.shouldRotateByTime, hpolicy, hfile,
      hsub]

theorem withinPeriod_concat {lines : List Line} {l : Line} {f : LogFile}
    (hlines : f.lines = lines ++ [l]) :
    WithinPeriod period f ↔ WithinPeriod period f.beforeLast ∧
      ∀ first ∈ (f.lines.map Line.time).head?, l.time < first + period := by
  simp only [WithinPeriod, LogFile.beforeLast, hlines, List.dropLast_concat]
  cases lines with
  | nil => simp
  | cons a rest =>
    simp
    grind

/-- The next write. -/
theorem Timed.next (h : Timed period past live times) (htracks : Tracks config base s files live)
    (hperiod : config.policy.period = some period) :
    Timed period (if s.rotates now files then live :: past else past)
      (nextLive s files live now entry) (times ++ [now]) := by
  have hpos := RotatePolicy.period_pos hperiod
  have hlines : (nextLive s files live now entry).lines =
      (target s files live now).lines ++ [⟨s.line entry, now⟩] := rfl
  have hstretch : LastStretch (Close period) (times ++ [now])
      ((nextLive s files live now entry).lines.map Line.time) := by
    rw [hlines, List.map_append]
    unfold target
    split_ifs with hrotates
    · refine LastStretch.fresh fun a ha hclose => ?_
      rw [htracks.rotates_iff hperiod, h.mtime a ha] at hrotates
      unfold Close at hclose
      omega
    · refine h.stretch.concat fun a ha => ?_
      rw [htracks.rotates_iff hperiod, h.mtime a ha] at hrotates
      unfold Close
      omega
  refine ⟨hstretch, ?_, fun hsorted => ?_⟩
  · intro t ht
    obtain rfl : now = t := by simpa using ht
    rfl
  · rw [interrupted_concat hpos hsorted hstretch,
      ← h.within (List.pairwise_append.mp hsorted).1]
    have hconcat := @withinPeriod_concat period _ _ _ hlines
    have hbefore : WithinPeriod period (nextLive s files live now entry).beforeLast ↔
        WithinPeriod period (target s files live now) := by
      simp [WithinPeriod, LogFile.beforeLast, hlines]
    rw [List.forall_mem_cons, List.forall_mem_cons, hconcat, hbefore]
    unfold target
    split_ifs with hrotates
    · have hopened : WithinPeriod period (.opened now) := by simp [WithinPeriod, LogFile.opened]
      simp only [List.forall_mem_cons]
      tauto
    · tauto

end Runs

/-- Among the files that a sink writes to, none gets an entry a period or more after its first one
if and only if the times of the writes are interrupted. -/
theorem no_late_entry_iff {path : Path} {config : RotateConfig}
    {formatter : LogEntry → List UInt8} {minLevel : LogLevel} {start period : ℤ}
    {files files₀ files' : Files} {s₀ s : FileSink} {entries : List (ℤ × LogEntry)}
    (hperiod : config.policy.period = some period)
    (hlive : ∀ f, files path = some f → f.Unwritten)
    (hcreate : FileSink.create path config formatter minLevel start files = some (s₀, files₀))
    (hsorted : (entries.map Prod.fst).Pairwise (· ≤ ·))
    (hrun : s₀.writeAll entries files₀ = some (s, files')) :
    (∀ f ∈ rotatedOut entries s₀ files₀ ++ (files' path).toList, WithinPeriod period f) ↔
      Interrupted period ((s₀.logged entries).map Prod.fst) := by
  obtain ⟨rfl, -, -, live, -, hunwritten, -, htracks⟩ := create_tracks hcreate hlive
  have hstart : Timed period [] live (([] : List (ℤ × LogEntry)).map Prod.fst) := by
    refine ⟨by rw [hunwritten.lines]; exact lastStretch_nil, by simp, fun _ => ?_⟩
    simp [WithinPeriod, Interrupted, hunwritten.lines]
  obtain ⟨live', htracks', hend⟩ := writeAll_invariant
    (fun past live _ done => Timed period past live (done.map Prod.fst))
    (fun htracks h => by simpa using h.next htracks hperiod) htracks hstart hrun
  have hlogged : ((s₀.logged entries).map Prod.fst).Pairwise (· ≤ ·) :=
    hsorted.sublist (List.filter_sublist.map _)
  have hwithin := hend.within (by simpa using hlogged)
  rw [List.nil_append, List.append_nil] at hwithin
  rw [← hwithin, htracks'.file]
  simp [or_comm]

section Check

/-- Three entries, each thirteen hours after the one before. -/
def thirteenHours : List (ℤ × LogEntry) :=
  [(0, {}), (LogRotate.hours 13, {}), (LogRotate.hours 26, {})]

/-- A sink for the file `a` that rotates every day. -/
def dailySink : Option (FileSink × Files) :=
  FileSink.create ['a'] { policy := .daily } LogEntry.message .trace 0 noFiles

theorem no_late_entry_iff_daily : ∃ s₀ files₀ s files', dailySink = some (s₀, files₀) ∧
    s₀.writeAll thirteenHours files₀ = some (s, files') ∧
      ((∀ f ∈ rotatedOut thirteenHours s₀ files₀ ++ (files' ['a']).toList,
          WithinPeriod (LogRotate.hours 24) f) ↔
        Interrupted (LogRotate.hours 24) ((s₀.logged thirteenHours).map Prod.fst)) := by
  refine ⟨_, _, _, _, rfl, rfl, ?_⟩
  refine no_late_entry_iff ?_ ?_ (show dailySink = _ from rfl) (by decide) rfl
  · rfl
  · intro f hf
    cases hf

/-- An entry more than a day after the first one goes to the same file. -/
theorem third_entry_late : ∃ s₀ files₀ s files', dailySink = some (s₀, files₀) ∧
    s₀.writeAll thirteenHours files₀ = some (s, files') ∧
      ∃ f ∈ files' ['a'], ¬WithinPeriod (LogRotate.hours 24) f := by
  refine ⟨_, _, _, _, rfl, rfl, _, rfl, fun h => ?_⟩
  have hlate := h _ rfl ⟨[0x0A], LogRotate.hours 26⟩ (by simp)
  revert hlate
  decide

end Check

end Log

end DarwinCore
