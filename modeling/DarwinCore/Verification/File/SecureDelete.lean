import DarwinCore.Verification.File.FileDeletion
import Mathlib.Data.List.Sort

/-! # `deleteDirectory`

A symbolic link to a regular file is listed as a file, and the passes go over what it leads to.
They stay inside the directory unless such a link leads out of it. -/

namespace DarwinCore.File

open FileTree FileTree.Volume

variable {limit : ℕ} {cwd : Location} {t t' g : Volume (List UInt8)} {path : List Char}
  {d e l m w : Location} {name : Name} {mode : SecureDeleteMode} {devices : ℕ → Device}
  {draws : ℕ → Digits} {disk disk' : Disk} {content : List UInt8} {deleted : Bool}
  {files : List (List Char)} {size : ℕ} {changes : List Change}

/-! ## The files -/

/-- The file has been overwritten in every pass, and nothing has taken it away before. -/
def Overwritten (mode : SecureDeleteMode) (l : Location) (size : ℕ) (changes : List Change) :
    Prop :=
  ∃ before after, ∃ sweeps : List (List (ℕ × List UInt8)),
    changes = before ++ writesAt l sweeps.flatten ++ after ∧
      sweeps.length = passCount mode ∧ (∀ sweep ∈ sweeps, Covers 0 size sweep) ∧
      ∀ change ∈ before, ¬change.Unlinks l

theorem Overwritten.mono {later : List Change} (h : Overwritten mode l size changes)
    (hle : changes <+: later) : Overwritten mode l size later := by
  obtain ⟨more, rfl⟩ := hle
  obtain ⟨before, after, sweeps, rfl, hsweeps⟩ := h
  exact ⟨before, after ++ more, sweeps, by simp, hsweeps⟩

def NewNames (t : Volume (List UInt8)) (draws : ℕ → Digits) : Prop :=
  ∀ n e, t.find (e ++ [randomName (draws n)]) = none

/-- What was unlinked is gone, and nothing has come. -/
structure Sound (t : Volume (List UInt8)) (disk : Disk) : Prop where
  within : Within disk.volume t
  unlinked : ∀ change ∈ disk.changes, ∀ m, change.Unlinks m → disk.volume.find m = none

structure Deleted (limit : ℕ) (cwd : Location) (t : Volume (List UInt8)) (mode : SecureDeleteMode)
    (draws : ℕ → Digits) (files : List (List Char)) (disk disk' : Disk) : Prop where
  sound : Sound t disk'
  grown : disk.changes <+: disk'.changes
  overwritten : ∀ file ∈ files, ∀ l content, t.resolve limit cwd false file = some l →
    t.find l = some (.file content) → Overwritten mode l content.length disk'.changes
  only : NewNames t draws → ∀ m, disk'.volume.find m = none →
    disk.volume.find m = none ∨ ∃ file ∈ files, t.resolve limit cwd false file = some m

theorem Deleted.cons {file : List Char} {between : Disk}
    (h : Deleted limit cwd t mode draws [file] disk between)
    (h' : Deleted limit cwd t mode draws files between disk') :
    Deleted limit cwd t mode draws (file :: files) disk disk' := by
  refine ⟨h'.sound, h.grown.trans h'.grown, List.forall_mem_cons.mpr ⟨?_, h'.overwritten⟩, ?_⟩
  · intro l content hl hfind
    exact (h.overwritten file List.mem_cons_self l content hl hfind).mono h'.grown
  · intro hnew m hm
    obtain hbetween | ⟨other, hmem, hother⟩ := h'.only hnew m hm
    · obtain hdisk | ⟨first, hfirst, hresolve⟩ := h.only hnew m hbetween
      · exact .inl hdisk
      · obtain rfl := List.mem_singleton.mp hfirst
        exact .inr ⟨first, List.mem_cons_self, hresolve⟩
    · exact .inr ⟨other, List.mem_cons_of_mem _ hmem, hother⟩

private theorem not_unlinks_writesAt {pieces : List (ℕ × List UInt8)} :
    ∀ change ∈ writesAt l pieces, ¬change.Unlinks m := by
  intro change hchange
  obtain ⟨piece, -, rfl⟩ := List.mem_map.mp hchange
  exact id

/-- The outcome of one successful deletion. -/
theorem deleted_of_deletion {parent : List Char} {device : Device} {n : ℕ}
    (h : Deletion device mode (draws n) d (e ++ [name]) disk disk' true w content)
    (hlists : Lists limit cwd t d path parent e name) (hsound : Sound t disk)
    (hopen : disk.volume.openFile limit cwd path = some (w, content)) :
    Deleted limit cwd t mode draws [path] disk disk' := by
  obtain ⟨hpath, hw⟩ := openFile_eq_some_iff.mp hopen
  have hspec : Overwrote device _ { content := content } _ _ _ := overwrite_spec mode rfl
  have hresembles := resembles_put hw hspec.length
  have hunlinked := h.unlinked rfl
  have hwithin := (Within.of_sub hunlinked.kept).trans hresembles.within
  obtain ⟨more, hmore, hgone⟩ := hunlinked.changes
  obtain ⟨sweeps, hsweeps, hcount, hcovers⟩ := hspec.passes (h.passes rfl)
  refine ⟨⟨hwithin.trans hsound.within, ?_⟩, ?_, ?_, fun hnew m hm => ?_⟩
  · rw [hmore, List.append_assoc]
    refine List.forall_mem_append.mpr ⟨fun change hchange m hm => ?_,
      List.forall_mem_append.mpr ⟨fun change hchange m hm => ?_, hgone⟩⟩
    · exact hwithin.find_none (hsound.unlinked change hchange m hm)
    · exact absurd hm (not_unlinks_writesAt change hchange)
  · rw [hmore, List.append_assoc]
    exact List.prefix_append _ _
  · refine List.forall_mem_singleton.mpr fun l first hl hfind => ?_
    -- a regular file is what its own path opens
    have hfollow := resolve_follow hl (by simp [hfind])
    obtain rfl : w = l := Option.some.inj ((hsound.within.resolve hpath).symm.trans hfollow)
    obtain ⟨c, hc, hlength⟩ := hsound.within.find_file hw
    obtain rfl : first = c := by simpa [hfind] using hc
    refine ⟨disk.changes, more, sweeps, ?_, hcount, hlength ▸ hcovers, fun change hchange hm => ?_⟩
    · rw [hmore, hsweeps, List.nil_append]
    · rw [hsound.unlinked change hchange w hm] at hw
      cases hw
  · by_cases hme : m = e ++ [name]
    · subst hme
      exact .inr ⟨path, List.mem_cons_self, hlists.resolve⟩
    · have hnone (e' : Location) := (hresembles.within.trans hsound.within).find_none (hnew n e')
      rw [hunlinked.only hnone m hme] at hm
      exact .inl (hresembles.symm.within.find_none hm)

def Listed (limit : ℕ) (cwd : Location) (t : Volume (List UInt8)) (d : Location)
    (files : List (List Char)) : Prop :=
  ∀ file ∈ files, ∃ parent e name, Lists limit cwd t d file parent e name

theorem sound_start (t : Volume (List UInt8)) : Sound t { volume := t } :=
  ⟨Within.of_sub (Sub.refl t), by simp⟩

theorem deleteFiles_deleted {n : ℕ} (hlisted : Listed limit cwd t d files) (hsound : Sound t disk)
    (hrun : deleteFiles limit cwd devices draws mode n disk files = (disk', true)) :
    Deleted limit cwd t mode draws files disk disk' := by
  induction files generalizing n disk with
  | nil =>
    obtain rfl := congrArg Prod.fst hrun
    exact ⟨hsound, List.prefix_refl _, by simp, fun _ m hm => .inl hm⟩
  | cons file files ih =>
    obtain ⟨⟨parent, e, name, hlists⟩, hothers⟩ := List.forall_mem_cons.mp hlisted
    obtain ⟨between, deleted, hfile⟩ : ∃ between deleted,
        deleteFile (devices n) limit cwd mode (draws n) disk file = (between, deleted) :=
      ⟨_, _, rfl⟩
    simp only [deleteFiles, hfile] at hrun
    cases deleted with
    | false => simp at hrun
    | true =>
      simp only [not_true_eq_false, if_false] at hrun
      obtain ⟨-, -, hfails⟩ | ⟨w, content, hopen, hdeletion⟩ :=
        deleteFile_spec hlists hsound.within hfile
      · cases hfails
      · have hfirst := deleted_of_deletion hdeletion hlists hsound hopen
        exact hfirst.cons (ih hothers hfirst.sound hrun)

/-- What holds of everything outside the directory is kept if the passes over what is opened there
keep it. -/
theorem deleteFiles_outside {Q : Location → Option (Entry (List UInt8)) → Prop} {n : ℕ}
    (hlisted : Listed limit cwd t d files) (hwithin : Within disk.volume t)
    (hcall : ∀ k, ∀ file ∈ files, ∀ w content content', ¬d <+: w →
      t.openFile limit cwd file = some (w, content) → content'.length = content.length →
      Q w (some (.file content')) →
      Q w (some (.file
        (overwrite (devices k) content'.length mode { content := content' }).1.content)))
    (hQ : ∀ m, ¬d <+: m → Q m (disk.volume.find m))
    (hrun : deleteFiles limit cwd devices draws mode n disk files = (disk', deleted)) :
    ∀ m, ¬d <+: m → Q m (disk'.volume.find m) := by
  induction files generalizing n disk with
  | nil =>
    obtain rfl := congrArg Prod.fst hrun
    exact hQ
  | cons file files ih =>
    obtain ⟨⟨parent, e, name, hlists⟩, hothers⟩ := List.forall_mem_cons.mp hlisted
    obtain ⟨hfirst, hrest⟩ : (∀ k w content content', ¬d <+: w →
        t.openFile limit cwd file = some (w, content) → content'.length = content.length →
        Q w (some (.file content')) → Q w (some (.file
          (overwrite (devices k) content'.length mode { content := content' }).1.content))) ∧ _ :=
      ⟨fun k => hcall k file List.mem_cons_self,
        fun k other hmem => hcall k other (List.mem_cons_of_mem _ hmem)⟩
    obtain ⟨between, first, hfile⟩ : ∃ between first,
        deleteFile (devices n) limit cwd mode (draws n) disk file = (between, first) :=
      ⟨_, _, rfl⟩
    have hbetween : (∀ m, ¬d <+: m → Q m (between.volume.find m)) ∧
        (first = true → Within between.volume t) := by
      obtain ⟨-, rfl, rfl⟩ | ⟨w, content, hopen, hdeletion⟩ :=
        deleteFile_spec hlists hwithin hfile
      · exact ⟨hQ, by simp⟩
      · obtain ⟨hpath, hw⟩ := openFile_eq_some_iff.mp hopen
        have hspec : Overwrote (devices n) _ { content := content } _ _ _ :=
          overwrite_spec mode rfl
        have hresembles := resembles_put hw hspec.length
        refine ⟨fun m hm => ?_, fun htrue => ((Within.of_sub
          (hdeletion.unlinked htrue).kept).trans hresembles.within).trans hwithin⟩
        rw [hdeletion.outside m hm, find_put_file hw]
        split_ifs with hmw
        · subst hmw
          obtain ⟨c, hc, hlength⟩ := hwithin.find_file hw
          exact hfirst n m c content hm (openFile_eq_some_iff.mpr ⟨hwithin.resolve hpath, hc⟩)
            hlength.symm (hw ▸ hQ m hm)
        · exact hQ m hm
    simp only [deleteFiles, hfile] at hrun
    cases first with
    | false =>
      obtain rfl := congrArg Prod.fst hrun
      exact hbetween.1
    | true =>
      simp only [not_true_eq_false, if_false] at hrun
      exact ih hothers (hbetween.2 rfl) hrest hbetween.1 hrun

/-! ## The directories -/

/-- What the removal of directories inside `d` does. -/
structure Cleared (d : Location) (disk disk' : Disk) : Prop where
  outside : ∀ m, ¬d <+: m → disk'.volume.find m = disk.volume.find m
  kept : disk'.volume.Sub disk.volume
  grown : disk.changes <+: disk'.changes
  only : ∀ m, disk'.volume.find m = none →
    disk.volume.find m = none ∨ disk.volume.find m = some .dir

theorem Cleared.refl (d : Location) (disk : Disk) : Cleared d disk disk :=
  ⟨fun _ _ => rfl, Sub.refl _, List.prefix_refl _, fun _ h => .inl h⟩

theorem Cleared.trans {between : Disk} (h : Cleared d disk between) (h' : Cleared d between disk') :
    Cleared d disk disk' := by
  refine ⟨fun m hm => (h'.outside m hm).trans (h.outside m hm), h'.kept.trans h.kept,
    h.grown.trans h'.grown, fun m hm => ?_⟩
  obtain hnone | hdir := h'.only m hm
  · exact h.only m hnone
  · exact .inr (h.kept m _ hdir)

/-- A directory that is removed is below `d` if the path leads to one below `d`. -/
theorem rmdir_cleared (hwithin : Within disk.volume t)
    (hbelow : ∀ l, t.resolve limit cwd false path = some l → t.find l = some .dir → d <+: l) :
    Cleared d disk (disk.rmdir limit cwd path).1 := by
  have hspec : disk.rmdir limit cwd path = (disk, false) ∨ _ := rmdir_disk_spec
  obtain hfails | ⟨l, hl, hdir, -, hchanges, hafter⟩ := hspec
  · rw [hfails]
    exact .refl d disk
  · have hd := hbelow l (hwithin.resolve hl) (hwithin.find_dir hdir)
    refine ⟨fun m hm => ?_, fun m entry hfind => ?_, ⟨_, hchanges.symm⟩, fun m hm => ?_⟩
    · have hml : m ≠ l := by
        rintro rfl
        exact hm hd
      rw [hafter, if_neg hml]
    · rw [hafter] at hfind
      split_ifs at hfind
      exact hfind
    · rw [hafter] at hm
      split_ifs at hm with hml
      · exact .inr (hml ▸ hdir)
      · exact .inl hm

private theorem removeDirectories_cleared {dirs : List (List Char)}
    (hlisted : Listed limit cwd t d dirs)
    (hwithin : Within disk.volume t) :
    Cleared d disk (removeDirectories limit cwd disk dirs).1 := by
  induction dirs generalizing disk with
  | nil => exact .refl d disk
  | cons dir dirs ih =>
    obtain ⟨⟨parent, e, name, hlists⟩, hothers⟩ := List.forall_mem_cons.mp hlisted
    have hfirst : Cleared d disk (disk.rmdir limit cwd dir).1 := by
      refine rmdir_cleared hwithin fun l hl _ => ?_
      obtain rfl := Option.some.inj (hlists.resolve.symm.trans hl)
      exact hlists.below_entry
    rw [removeDirectories]
    cases hdir : disk.rmdir limit cwd dir with
    | mk between removed =>
      rw [hdir] at hfirst
      cases removed with
      | false => exact hfirst
      | true => exact hfirst.trans (ih hothers ((Within.of_sub hfirst.kept).trans hwithin))

/-! ## The whole directory -/

theorem listed_of_known {root : List Char} {entries : List DirectoryEntry}
    {p : DirectoryEntry → Prop} [DecidablePred p]
    (hknown : ∀ entry ∈ entries, Known limit cwd t root d entry) :
    Listed limit cwd t d ((entries.filter fun e => p e).map DirectoryEntry.path) := by
  intro file hfile
  obtain ⟨entry, hentry, rfl⟩ := List.mem_map.mp hfile
  exact (hknown entry (List.mem_of_mem_filter hentry)).lists

/-- After the files there is nothing but directories to remove. -/
theorem deleteDirectory_cleared {bySize : LengthSort} {entries : List DirectoryEntry}
    (hpath : t.resolve limit cwd true path = some d)
    (hentries : ({ rootPath := path, recursive := true } : DirectoryIterator).iterate limit cwd t =
      some entries)
    (hknown : ∀ entry ∈ entries, Known limit cwd t path d entry)
    (hrun : deleteDirectory limit cwd devices draws mode bySize t path = some (disk', deleted)) :
    ∃ between first,
      deleteFiles limit cwd devices draws mode 0 { volume := t } (filesOf entries) =
        (between, first) ∧
      Cleared d between disk' ∧ (deleted = true → first = true ∧ disk'.volume.find d = none) := by
  obtain ⟨between, first, hfiles⟩ : ∃ between first,
      deleteFiles limit cwd devices draws mode 0 { volume := t } (filesOf entries) =
        (between, first) := ⟨_, _, rfl⟩
  refine ⟨between, first, hfiles, ?_⟩
  simp only [deleteDirectory, hentries, hfiles, Option.bind_eq_bind, Option.bind_some] at hrun
  cases first with
  | false =>
    obtain ⟨rfl, rfl⟩ := Prod.mk.inj (Option.some.inj hrun)
    exact ⟨.refl d between, by simp⟩
  | true =>
    have hwithin : Within between.volume t :=
      (deleteFiles_deleted (listed_of_known hknown) (sound_start t) hfiles).sound.within
    have hdirs : Listed limit cwd t d (bySize.sort (directoriesOf path entries)) := fun dir hdir =>
      listed_of_known hknown dir ((bySize.perm _).mem_iff.mp hdir)
    have hcleared := removeDirectories_cleared hdirs hwithin
    simp only [not_true_eq_false, if_false] at hrun
    cases hremoved : removeDirectories limit cwd between
        (bySize.sort (directoriesOf path entries)) with
    | mk emptied removed =>
      rw [hremoved] at hcleared hrun
      cases removed with
      | false =>
        obtain ⟨rfl, rfl⟩ := Prod.mk.inj (Option.some.inj hrun)
        exact ⟨hcleared, by simp⟩
      | true =>
        have hrun : emptied.rmdir limit cwd path = (disk', deleted) := Option.some.inj hrun
        -- the path of a directory does not end with a link
        have hroot (l : Location) (hl : t.resolve limit cwd false path = some l)
            (hdir : t.find l = some .dir) : l = d :=
          Option.some.inj ((resolve_follow hl (by simp [hdir])).symm.trans hpath)
        have hemptied : Within emptied.volume t := (Within.of_sub hcleared.kept).trans hwithin
        have hlast : Cleared d emptied (emptied.rmdir limit cwd path).1 :=
          rmdir_cleared hemptied fun l hl hdir => hroot l hl hdir ▸ List.prefix_refl l
        have hspec : emptied.rmdir limit cwd path = (emptied, false) ∨ _ := rmdir_disk_spec
        rw [hrun] at hlast hspec
        refine ⟨hcleared.trans hlast, fun htrue => ⟨rfl, ?_⟩⟩
        subst htrue
        obtain hfails | ⟨l, hl, hdir, -, -, hafter⟩ := hspec
        · cases congrArg Prod.snd hfails
        · obtain rfl := hroot l (hemptied.resolve hl) (hemptied.find_dir hdir)
          exact (hafter l).trans (if_pos rfl)

/-- No link below the directory of a path leads to a file elsewhere that has any content. -/
def Enclosed (limit : ℕ) (cwd : Location) (t : Volume (List UInt8)) (path : List Char)
    (d : Location) : Prop :=
  ∀ names target w content, t.find (d ++ names) = some (.link target) →
    t.openFile limit cwd (pathBelow path names) = some (w, content) → content ≠ [] → d <+: w

/-- The deletion of a directory has changed nothing outside, and if it succeeds the directory is
gone and every file in it was overwritten before. A link that leads nowhere ends the listing; then
the last holds if no random name is taken. -/
structure ErasedInside (limit : ℕ) (cwd : Location) (mode : SecureDeleteMode) (draws : ℕ → Digits)
    (t : Volume (List UInt8)) (path : List Char) (d : Location) (disk : Disk) (deleted : Bool) :
    Prop where
  outside : ∀ m, ¬d <+: m → disk.volume.find m = t.find m
  gone : deleted = true → disk.volume.find d = none
  overwritten : deleted = true → NewNames t draws ∨ NoDangling limit cwd t path d →
    ∀ names content, t.find (d ++ names) = some (.file content) →
      Overwritten mode (d ++ names) content.length disk.changes

/-- The same whatever the order in which directories list their entries. -/
def ErasesInside (limit : ℕ) (cwd : Location) (t : Volume (List UInt8)) (path : List Char)
    (d : Location) : Prop :=
  ∀ t' : Volume (List UInt8), (∀ m, t'.find m = t.find m) → ∀ devices draws mode bySize,
    ∃ disk deleted,
      deleteDirectory limit cwd devices draws mode bySize t' path = some (disk, deleted) ∧
        ErasedInside limit cwd mode draws t' path d disk deleted

theorem Enclosed.congr (h : Enclosed limit cwd t path d) (hfind : ∀ m, t'.find m = t.find m) :
    Enclosed limit cwd t' path d := by
  intro names target w content hlink hopen
  rw [hfind] at hlink
  rw [openFile_congr hfind] at hopen
  exact h names target w content hlink hopen

private theorem exists_run {bySize : LengthSort} (hpath : t.resolve limit cwd true path = some d)
    (hdir : t.find d = some .dir) : ∃ entries disk deleted,
      ({ rootPath := path, recursive := true } : DirectoryIterator).iterate limit cwd t =
        some entries ∧
      deleteDirectory limit cwd devices draws mode bySize t path = some (disk, deleted) := by
  obtain ⟨entries, hentries⟩ := Option.isSome_iff_exists.mp
    (iterate_isSome ({ rootPath := path, recursive := true } : DirectoryIterator) hpath hdir)
  obtain ⟨⟨disk, deleted⟩, hrun⟩ : ∃ result,
      deleteDirectory limit cwd devices draws mode bySize t path = some result := by
    simp only [deleteDirectory, hentries, Option.bind_eq_bind, Option.bind_some]
    split_ifs
    · exact ⟨_, rfl⟩
    · exact ⟨_, rfl⟩
    · exact ⟨_, rfl⟩
  exact ⟨entries, disk, deleted, hentries, hrun⟩

private theorem overwrite_nil {device : Device} :
    (overwrite device 0 mode { content := [] }).1.content = [] := by
  have hspec : Overwrote device _ { content := [] } _ _ _ := overwrite_spec mode rfl
  exact List.length_eq_zero_iff.mp hspec.length

/-- A file that is opened outside is reached through a link, and has no content. -/
theorem Enclosed.outside {entry : DirectoryEntry} (h : Enclosed limit cwd t path d)
    (hknown : Known limit cwd t path d entry)
    (hopen : t.openFile limit cwd entry.path = some (w, content)) (hw : ¬d <+: w) :
    content = [] := by
  obtain ⟨names, hnames, hresolve⟩ := hknown.names
  obtain ⟨reached, hreached⟩ := resolve_found hresolve
  by_contra hcontent
  by_cases hlink : ∃ target, reached = .link target
  · obtain ⟨target, rfl⟩ := hlink
    exact hw (h names target w content hreached (hnames ▸ hopen) hcontent)
  · have hfollow := resolve_follow hresolve
      (fun target htarget => hlink ⟨target, Option.some.inj (hreached.symm.trans htarget)⟩)
    obtain rfl := Option.some.inj (hfollow.symm.trans (openFile_eq_some_iff.mp hopen).1)
    exact hw (List.prefix_append d names)

private theorem mem_filesOf {entries : List DirectoryEntry} {file : List Char} :
    file ∈ filesOf entries ↔ ⟨file, .file⟩ ∈ entries := by
  simp only [filesOf, List.mem_map, List.mem_filter, decide_eq_true_eq]
  constructor
  · rintro ⟨⟨entry, type⟩, ⟨hmem, rfl⟩, rfl⟩
    exact hmem
  · exact fun hmem => ⟨_, ⟨hmem, rfl⟩, rfl⟩

/-- Where links stay inside, so does the deletion. -/
theorem Enclosed.erasedInside {bySize : LengthSort} {entries : List DirectoryEntry}
    (h : Enclosed limit cwd t path d) (hpath : t.resolve limit cwd true path = some d)
    (hdir : t.find d = some .dir)
    (hentries : ({ rootPath := path, recursive := true } : DirectoryIterator).iterate limit cwd t =
      some entries)
    (hrun : deleteDirectory limit cwd devices draws mode bySize t path = some (disk', deleted)) :
    ErasedInside limit cwd mode draws t path d disk' deleted := by
  have hknown := known_of_iterate hpath hdir hentries
  have hlisted : Listed limit cwd t d (filesOf entries) := listed_of_known hknown
  obtain ⟨between, first, hfiles, hcleared, hgone⟩ :=
    deleteDirectory_cleared hpath hentries hknown hrun
  refine ⟨fun m hm => (hcleared.outside m hm).trans ?_, fun htrue => (hgone htrue).2,
    fun htrue hsafe names content hfile => ?_⟩
  · refine deleteFiles_outside (Q := fun m found => found = t.find m) hlisted
      (sound_start t).within (fun k file hfile w content content' hw hopen hlength hQ => ?_)
      (fun _ _ => rfl) hfiles m hm
    have hnil := h.outside (hknown _ (mem_filesOf.mp hfile)) hopen hw
    obtain rfl : content' = [] := List.length_eq_zero_iff.mp (by rw [hlength, hnil]; rfl)
    rw [← hQ]
    exact congrArg (fun c => some (Entry.file c)) overwrite_nil
  · obtain ⟨rfl, hnone⟩ := hgone htrue
    have hdeleted := deleteFiles_deleted hlisted (sound_start t) hfiles
    have hnames : names ≠ [] := by
      rintro rfl
      rw [List.append_nil, hdir] at hfile
      cases hfile
    obtain ⟨file, hmem, hresolve⟩ : ∃ file ∈ filesOf entries,
        t.resolve limit cwd false file = some (d ++ names) := by
      obtain hnew | hlinks := hsafe
      · -- what is gone was removed by the loop over the files
        have hgone : disk'.volume.find (d ++ names) = none :=
          find_below (by simp [hnone]) (List.prefix_append d names) (by simpa using hnames)
        obtain hbetween | hbetween := hcleared.only _ hgone
        · exact (hdeleted.only hnew _ hbetween).resolve_left (by simp [hfile])
        · rw [hdeleted.sound.within.find_dir hbetween] at hfile
          cases hfile
      · obtain ⟨listing, hlisting, rfl⟩ := Option.map_eq_some_iff.mp hentries
        have hcomplete := (complete_of_iterateDirectory hpath hdir hlinks hlisting).2
        exact ⟨_, mem_filesOf.mpr (hcomplete names content hfile),
          resolve_pathBelow hpath hdir hfile hnames⟩
    exact (hdeleted.overwritten file hmem _ content hresolve hfile).mono hcleared.grown

/-- A device that takes all bytes and has one byte as noise. -/
def steadyDevice (b : UInt8) : Device where
  taken _ := some (64 * 1024)
  noise _ := b

private theorem overwrite_steady (b : UInt8) (content : List UInt8) :
    (overwrite (steadyDevice b) content.length .doD { content := content }).1.content =
      List.replicate content.length b := by
  have hspec : Overwrote (steadyDevice b) _ { content := content } _ _ _ := overwrite_spec .doD rfl
  refine List.eq_replicate_iff.mpr ⟨hspec.length, fun x hx => ?_⟩
  obtain ⟨n, hnoise⟩ := hspec.bytes (hspec.complete fun _ => rfl) x hx
  exact hnoise.symm

def lengthSort : LengthSort where
  sort := List.insertionSort fun a b => b.length ≤ a.length
  perm := List.perm_insertionSort _
  sorted paths := by
    have : Std.Total fun a b : List Char => b.length ≤ a.length := ⟨fun a b => Nat.le_total _ _⟩
    have : IsTrans (List Char) fun a b => b.length ≤ a.length :=
      ⟨fun _ _ _ h h' => Nat.le_trans h' h⟩
    exact List.pairwise_insertionSort _ paths

/-- Where a link leads outside and is listed first, what it leads to is overwritten. -/
theorem overwritten_outside {names : List Name} {target : List Char} {b : UInt8}
    (hpath : t.resolve limit cwd true path = some d) (hdir : t.find d = some .dir)
    (hfirst : ∀ before name rest, names = before ++ name :: rest →
      ∃ others, t.children (d ++ before) = name :: others)
    (hlink : t.find (d ++ names) = some (.link target))
    (hopen : t.openFile limit cwd (pathBelow path names) = some (w, content)) (hw : ¬d <+: w)
    (hrun : deleteDirectory limit cwd (fun _ => steadyDevice b) draws .doD lengthSort t path =
      some (disk', deleted)) :
    disk'.volume.find w = some (.file (List.replicate content.length b)) := by
  obtain ⟨hresolve, hcontent⟩ := openFile_eq_some_iff.mp hopen
  obtain ⟨entries, hentries⟩ := Option.isSome_iff_exists.mp
    (iterate_isSome ({ rootPath := path, recursive := true } : DirectoryIterator) hpath hdir)
  have hknown := known_of_iterate hpath hdir hentries
  have hlisted : Listed limit cwd t d (filesOf entries) := listed_of_known hknown
  obtain ⟨rest, hrest⟩ : ∃ rest, filesOf entries = pathBelow path names :: rest := by
    obtain ⟨listing, hlisting, rfl⟩ := Option.map_eq_some_iff.mp hentries
    obtain ⟨before, hbefore, more, hmore⟩ := first_of_iterateDirectory hpath hdir hfirst hlink
      (by simp) (stat_eq_some_iff.mpr ⟨w, hresolve, hcontent⟩) hlisting
    have hnone : before.filter (fun e => decide (e.type = .file)) = [] := by
      simpa [List.filter_eq_nil_iff] using hbefore
    refine ⟨filesOf more, ?_⟩
    simp only [filesOf, ← hmore, List.filter_append, hnone]
    rfl
  obtain ⟨between, first, hfiles, hcleared, -⟩ :=
    deleteDirectory_cleared hpath hentries hknown hrun
  rw [hcleared.outside w hw]
  obtain ⟨⟨parent, e, name, hlists⟩, hothers⟩ := List.forall_mem_cons.mp (hrest ▸ hlisted)
  obtain ⟨once, deletedOnce, hfile⟩ : ∃ once deletedOnce,
      deleteFile (steadyDevice b) limit cwd .doD (draws 0) { volume := t } (pathBelow path names) =
        (once, deletedOnce) := ⟨_, _, rfl⟩
  rw [hrest] at hfiles
  simp only [deleteFiles, hfile] at hfiles
  obtain ⟨hnone, -⟩ | ⟨w', content', hopen', hdeletion⟩ :=
    deleteFile_spec hlists (sound_start t).within hfile
  · rw [hopen] at hnone
    cases hnone
  · obtain ⟨rfl, rfl⟩ : w = w' ∧ content = content' := by
      simpa using Option.some.inj (hopen.symm.trans hopen')
    have honce : once.volume.find w = some (.file (List.replicate content.length b)) := by
      rw [hdeletion.outside w hw, overwrite_steady, find_put_file hcontent, if_pos rfl]
    cases deletedOnce with
    | false =>
      obtain rfl := congrArg Prod.fst hfiles
      exact honce
    | true =>
      simp only [not_true_eq_false, if_false] at hfiles
      have hwithin := (deleted_of_deletion hdeletion hlists (sound_start t) hopen).sound.within
      refine deleteFiles_outside (Q := fun m found => m = w →
          found = some (.file (List.replicate content.length b))) hothers hwithin
        (fun k file hmem w' c c' _ _ _ hQ heq => ?_) (fun m _ heq => heq ▸ honce) hfiles w hw rfl
      obtain rfl : c' = List.replicate content.length b := by simpa using hQ heq
      rw [overwrite_steady, List.length_replicate]

private theorem find_on_way {before rest : List Name} {entry : Entry (List UInt8)}
    (h : t.find (d ++ (before ++ name :: rest)) = some entry) :
    ∃ entry, t.find (d ++ before ++ [name]) = some entry := by
  rw [List.append_cons, ← List.append_assoc, ← List.append_assoc] at h
  by_cases hrest : rest = []
  · exact ⟨entry, by simpa [hrest] using h⟩
  · exact ⟨.dir, find_above h hrest⟩

/-- The links decide whether the deletion stays inside its directory. -/
theorem erasesInside_iff (hpath : t.resolve limit cwd true path = some d)
    (hdir : t.find d = some .dir) :
    ErasesInside limit cwd t path d ↔ Enclosed limit cwd t path d := by
  constructor
  · intro herases names target w content hlink hopen hcontent
    by_contra hw
    obtain ⟨b, rest, rfl⟩ := List.exists_cons_of_ne_nil hcontent
    obtain ⟨t', hfind, hfirst⟩ := exists_first t (d ++ names)
    obtain ⟨disk, deleted, hrun, herased⟩ := herases t' hfind (fun _ => steadyDevice (b + 1))
      (fun _ _ => 0) .doD lengthSort
    have hlink' := (hfind _).trans hlink
    have hopen' := (openFile_congr hfind).trans hopen
    have hover := overwritten_outside ((resolve_congr hfind true).trans hpath)
      ((hfind d).trans hdir) (fun before name rest hnames => ?_) hlink' hopen' hw hrun
    · rw [herased.outside w hw, (openFile_eq_some_iff.mp hopen').2] at hover
      -- no byte is its own successor
      simp [List.replicate_succ] at hover
    · subst hnames
      obtain ⟨entry, hentry⟩ := find_on_way hlink
      exact hfirst (d ++ before) name rest entry (List.append_assoc ..).symm hentry
  · intro henclosed t' hfind devices draws mode bySize
    have hpath' := (resolve_congr hfind true).trans hpath
    have hdir' := (hfind d).trans hdir
    obtain ⟨entries, disk, deleted, hentries, hrun⟩ := exists_run hpath' hdir'
    exact ⟨disk, deleted, hrun, (henclosed.congr hfind).erasedInside hpath' hdir' hentries hrun⟩

def plainTree : Volume (List UInt8) where
  entries := [([['d']], .dir), ([['d'], ['f']], .file [5]), ([['s']], .file [7])]
  nodup := by decide
  plain := by decide
  closed := by decide

theorem erasesInside_iff_plain :
    ErasesInside 8 [] plainTree ['/', 'd'] [['d']] ↔
      Enclosed 8 [] plainTree ['/', 'd'] [['d']] :=
  erasesInside_iff (by decide) (by decide)

def linkedTree : Volume (List UInt8) where
  entries := [([['d']], .dir), ([['d'], ['l']], .link ['/', 's']), ([['s']], .file [7])]
  nodup := by decide
  plain := by decide
  closed := by decide

/-- The deletion of `/d` succeeds, and the file `/s` is overwritten. -/
theorem linked_file_overwritten : ∃ disk,
    deleteDirectory 8 [] (fun _ => steadyDevice 0) (fun _ _ => 0) .simple lengthSort linkedTree
        ['/', 'd'] = some (disk, true) ∧
      linkedTree.find [['s']] = some (.file [7]) ∧ disk.volume.find [['s']] = some (.file [0]) ∧
      ¬ErasesInside 8 [] linkedTree ['/', 'd'] [['d']] := by
  have hrun : (deleteDirectory 8 [] (fun _ => steadyDevice 0) (fun _ _ => 0) .simple lengthSort
      linkedTree ['/', 'd']).map (fun r => (r.1.volume.find [['s']], r.2)) =
        some (some (.file [0]), true) := by decide
  obtain ⟨⟨disk, deleted⟩, hresult, hfind⟩ := Option.map_eq_some_iff.mp hrun
  obtain ⟨hfind, rfl⟩ := Prod.mk.inj hfind
  refine ⟨disk, hresult, by decide, hfind, fun herases => ?_⟩
  obtain ⟨disk', deleted, hresult', herased⟩ := herases linkedTree (fun _ => rfl)
    (fun _ => steadyDevice 0) (fun _ _ => 0) .simple lengthSort
  obtain ⟨rfl, -⟩ := Prod.mk.inj (Option.some.inj (hresult.symm.trans hresult'))
  have hsame := herased.outside [['s']] (by decide)
  rw [hfind] at hsame
  revert hsame
  decide

end DarwinCore.File
