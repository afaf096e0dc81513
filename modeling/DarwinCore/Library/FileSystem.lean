import DarwinCore.Library.PathWalk
import Mathlib.Data.List.DropRight

/-! # Calls on a file system

`limit` is how many symbolic links a path may lead through and `cwd` the working directory;
permissions are not modelled. -/

namespace FileTree

def lastSegment (path : List Char) : Name :=
  ((path.splitOn '/').filter (· ≠ [])).getLast?.getD []

def parentSegments (path : List Char) : List Name :=
  ((path.splitOn '/').rdropWhile (· = [])).dropLast

instance (segment : Name) : Decidable (Proper segment) :=
  inferInstanceAs (Decidable (_ ∧ _))

namespace Volume

variable {α : Type*} (limit : ℕ) (cwd : Location) (t : Volume α) (path : List Char)

def stat : Option (Entry α) :=
  (t.resolve limit cwd true path).bind t.find

def lstat : Option (Entry α) :=
  (t.resolve limit cwd false path).bind t.find

def openFile : Option (Location × α) :=
  match t.resolve limit cwd true path with
  | none => none
  | some l =>
      match t.find l with
      | some (.file content) => some (l, content)
      | _ => none

def readdir : Option (List Name) :=
  match t.resolve limit cwd true path with
  | none => none
  | some l =>
      match t.find l with
      | some .dir => some (['.'] :: ['.', '.'] :: t.children l)
      | _ => none

/-- `opendir` with so many descriptors left: the names in the directory, and one descriptor less. -/
def opendir (fds : ℕ) : Option (List Name × ℕ) :=
  match fds with
  | 0 => none
  | fds + 1 => (t.readdir limit cwd path).map fun names => (names, fds)

/-- An entry can be removed: it is not the root, and nothing is below. -/
def Removable (t : Volume α) (l : Location) : Prop :=
  l ≠ [] ∧ t.Leaf l

instance (t : Volume α) (l : Location) : Decidable (t.Removable l) :=
  inferInstanceAs (Decidable (_ ∧ _))

/-- `remove`: a symbolic link is removed itself, a directory if it is empty. -/
def remove : Volume α × Bool :=
  if lastSegment path = ['.'] then (t, false)
  else
    match t.resolve limit cwd false path with
    | none => (t, false)
    | some l => if h : t.Removable l then (t.erase l h.2, true) else (t, false)

instance (entry : Option (Entry α)) : Decidable (entry = some .dir) :=
  match entry with
  | none => isFalse (by simp)
  | some .dir => isTrue rfl
  | some (.file _) => isFalse (by simp)
  | some (.link _) => isFalse (by simp)

/-- `rmdir`: the same for directories only. -/
def rmdir : Volume α × Bool :=
  match t.lstat limit cwd path with
  | some .dir => t.remove limit cwd path
  | _ => (t, false)

/-- Where a path says that an entry should be: in a directory that is there. -/
def place : Option Location :=
  if path = [] ∨ ¬Proper (lastSegment path) then none
  else
    match t.walk true limit (start cwd path) (parentSegments path) with
    | none => none
    | some d => if t.find d = some .dir then some (d ++ [lastSegment path]) else none

/-- The kinds of entries and whether the new path ends with a separator: a directory replaces a
directory only, anything else no directory. -/
def Replaceable (source target : Option (Entry α)) (slash : Bool) : Prop :=
  match source, target with
  | some .dir, none => True
  | some .dir, some .dir => True
  | some .dir, _ => False
  | _, some .dir => False
  | _, _ => slash = false

instance (source target : Option (Entry α)) (slash : Bool) :
    Decidable (Replaceable source target slash) := by
  unfold Replaceable
  split <;> infer_instance

instance (t : Volume α) (f d : Location) : Decidable (t.Movable f d) :=
  decidable_of_iff (f ≠ [] ∧ ¬f <+: d ∧ t.Leaf d ∧ (∃ name ∈ d.getLast?, PlainName name) ∧
      t.find d.dropLast = some .dir)
    ⟨fun ⟨h₁, h₂, h₃, h₄, h₅⟩ => ⟨h₁, h₂, h₃, h₄, h₅⟩,
      fun ⟨h₁, h₂, h₃, h₄, h₅⟩ => ⟨h₁, h₂, h₃, h₄, h₅⟩⟩

def rename (old new : List Char) : Volume α × Bool :=
  if lastSegment old = ['.'] ∨ lastSegment old = ['.', '.'] then (t, false)
  else
    match t.resolve limit cwd false old, t.place limit cwd new with
    | some f, some d =>
        if Replaceable (t.find f) (t.find d) (new.getLast? = some '/') then
          if f = d then (t, true)
          else if h : t.Movable f d then (t.move f d h, true) else (t, false)
        else (t, false)
    | _, _ => (t, false)

instance (t : Volume α) (l : Location) : Decidable (t.Free l) :=
  decidable_of_iff (t.find l = none ∧ (∃ name ∈ l.getLast?, PlainName name) ∧
      t.find l.dropLast = some .dir)
    ⟨fun ⟨h₁, h₂, h₃⟩ => ⟨h₁, h₂, h₃⟩, fun ⟨h₁, h₂, h₃⟩ => ⟨h₁, h₂, h₃⟩⟩

/-- Where `open` makes a new file: a link at the end of the path is followed. The links on the way
and those at the end are counted apart. -/
def newPlace (t : Volume α) : ℕ → Location → List Char → Option Location
  | limit, cwd, path =>
      if path.getLast? = some '/' then none
      else
        match t.place limit cwd path with
        | none => none
        | some d =>
            match t.find d, limit with
            | some (.link target), limit + 1 => newPlace t limit d.dropLast target
            | some (.link _), 0 => none
            | _, _ => some d

/-- `open` for writing at the end: the file at the path, or a new one. -/
def openAppend (created : α) : Volume α × Option (Location × α) :=
  match t.resolve limit cwd true path with
  | some l =>
      match t.find l with
      | some (.file content) => (t, some (l, content))
      | _ => (t, none)
  | none =>
      match t.newPlace limit cwd path with
      | none => (t, none)
      | some d =>
          if h : t.Free d then (t.insert d (.file created) h, some (d, created)) else (t, none)

variable {limit cwd t path} {l m : Location} {names : List Name} {name : Name}

theorem stat_eq_some_iff {e : Entry α} : t.stat limit cwd path = some e ↔
    ∃ l, t.resolve limit cwd true path = some l ∧ t.find l = some e := by
  rw [stat, Option.bind_eq_some_iff]

theorem lstat_eq_some_iff {e : Entry α} : t.lstat limit cwd path = some e ↔
    ∃ l, t.resolve limit cwd false path = some l ∧ t.find l = some e := by
  rw [lstat, Option.bind_eq_some_iff]

theorem openFile_eq_some_iff {content : α} : t.openFile limit cwd path = some (l, content) ↔
    t.resolve limit cwd true path = some l ∧ t.find l = some (.file content) := by
  unfold openFile
  cases hresolve : t.resolve limit cwd true path with
  | none => simp
  | some m =>
    simp only [Option.some.injEq]
    constructor
    · intro h
      split at h
      · obtain ⟨rfl, rfl⟩ := Prod.mk.inj (Option.some.inj h)
        exact ⟨rfl, ‹_›⟩
      · cases h
    · rintro ⟨rfl, hfind⟩
      simp [hfind]

theorem readdir_eq (h : t.resolve limit cwd true path = some l) (hdir : t.find l = some .dir) :
    t.readdir limit cwd path = some (['.'] :: ['.', '.'] :: t.children l) := by
  rw [readdir, h]
  simp only
  rw [hdir]

theorem resolve_congr {t' : Volume α} (h : ∀ m, t'.find m = t.find m) (followLast : Bool) :
    t'.resolve limit cwd followLast path = t.resolve limit cwd followLast path :=
  Option.ext fun _ => ⟨resolve_mono fun m _ he => (h m).symm.trans he,
    resolve_mono fun m _ he => (h m).trans he⟩

theorem openFile_congr {t' : Volume α} (h : ∀ m, t'.find m = t.find m) :
    t'.openFile limit cwd path = t.openFile limit cwd path := by
  simp only [openFile, resolve_congr h, h]

/-- A removal that succeeds takes one entry away, and one that fails takes none. -/
theorem remove_spec : (t.remove limit cwd path = (t, false)) ∨
    ∃ l, t.resolve limit cwd false path = some l ∧ l ≠ [] ∧ (t.remove limit cwd path).2 = true ∧
      ∀ m, (t.remove limit cwd path).1.find m = if m = l then none else t.find m := by
  unfold remove
  split_ifs with hdot
  · exact .inl rfl
  · cases hresolve : t.resolve limit cwd false path with
    | none => exact .inl rfl
    | some l =>
      simp only
      split_ifs with hremovable
      · exact .inr ⟨l, rfl, hremovable.1, rfl, find_erase hremovable.2 hremovable.1⟩
      · exact .inl rfl

theorem rmdir_spec : t.rmdir limit cwd path = (t, false) ∨
    ∃ l, t.resolve limit cwd false path = some l ∧ t.find l = some .dir ∧
      (t.rmdir limit cwd path).2 = true ∧
      ∀ m, (t.rmdir limit cwd path).1.find m = if m = l then none else t.find m := by
  unfold rmdir
  split
  · rename_i hdir
    obtain ⟨d, hd, hfind⟩ := lstat_eq_some_iff.mp hdir
    refine Or.imp id ?_ (remove_spec (t := t))
    rintro ⟨l, hl, -, hremoved, hafter⟩
    obtain rfl := Option.some.inj (hd.symm.trans hl)
    exact ⟨d, hd, hfind, hremoved, hafter⟩
  · exact .inl rfl

theorem remove_of_removable (hdot : lastSegment path ≠ ['.'])
    (hresolve : t.resolve limit cwd false path = some l) (h : t.Removable l) :
    ∃ t', t.remove limit cwd path = (t', true) ∧
      ∀ m, t'.find m = if m = l then none else t.find m := by
  refine ⟨t.erase l h.2, ?_, find_erase h.2 h.1⟩
  rw [remove, if_neg hdot, hresolve]
  exact dif_pos h

theorem place_eq_some_iff {d : Location} : t.place limit cwd path = some d ↔
    path ≠ [] ∧ Proper (lastSegment path) ∧
      ∃ l, Walks t true limit (start cwd path) (parentSegments path) l ∧
        t.find l = some .dir ∧ d = l ++ [lastSegment path] := by
  simp only [← walk_eq_some_iff]
  unfold place
  by_cases hpath : path = []
  · simp [hpath]
  by_cases hname : Proper (lastSegment path)
  · rw [if_neg (by simp [hpath, hname])]
    cases hwalk : t.walk true limit (start cwd path) (parentSegments path) with
    | none => simp
    | some l =>
      simp only [Option.some.injEq]
      split_ifs with hdir
      · simp [hpath, hname, hdir, eq_comm]
      · simp [hdir]
  · simp [hname]

theorem place_mono {t' : Volume α} (hsub : t'.Sub t) {d : Location}
    (h : t'.place limit cwd path = some d) : t.place limit cwd path = some d := by
  rw [place_eq_some_iff] at h ⊢
  obtain ⟨hpath, hname, l, hwalk, hfind, rfl⟩ := h
  exact ⟨hpath, hname, l, hwalk.mono hsub, hsub _ _ hfind, rfl⟩

theorem segments_concat {segments : List Name} (h : path.splitOn '/' = segments ++ [name])
    (hname : name ≠ []) : lastSegment path = name ∧ parentSegments path = segments := by
  constructor
  · simp [lastSegment, h, List.filter_append, hname]
  · rw [parentSegments, h, List.rdropWhile_concat_neg _ _ _ (by simpa using hname),
      List.dropLast_concat]

theorem place_of_resolve {segments : List Name} {d : Location}
    (hpath : path.splitOn '/' = segments ++ [name]) (hname : PlainName name)
    (hresolve : t.resolve limit cwd false path = some d) : t.place limit cwd path = some d := by
  obtain ⟨hne, hroot, hwalk⟩ := resolve_eq_some_iff.mp hresolve
  obtain ⟨hlast, hparent⟩ := segments_concat hpath hname.ne_nil
  rw [hpath] at hwalk
  obtain ⟨l, hfirst, hdir, rfl⟩ := hwalk.parent hname.proper (find_start hroot)
  refine place_eq_some_iff.mpr ⟨hne, hlast ▸ hname.proper, l, hparent ▸ hfirst, hdir, ?_⟩
  rw [hlast]

/-- A renaming that succeeds moves an entry, unless both paths say the same place. -/
theorem rename_spec {old new : List Char} : t.rename limit cwd old new = (t, false) ∨
    ∃ f d, t.resolve limit cwd false old = some f ∧ t.place limit cwd new = some d ∧
      (t.rename limit cwd old new).2 = true ∧
      ((f = d ∧ (t.rename limit cwd old new).1 = t) ∨
        ∃ h : t.Movable f d, (t.rename limit cwd old new).1 = t.move f d h) := by
  unfold rename
  split_ifs with hname
  · exact .inl rfl
  · cases hold : t.resolve limit cwd false old with
    | none => exact .inl rfl
    | some f =>
      cases hnew : t.place limit cwd new with
      | none => exact .inl rfl
      | some d =>
        simp only
        split_ifs with hkind hsame hmovable
        · exact .inr ⟨f, d, rfl, rfl, rfl, .inl ⟨hsame, rfl⟩⟩
        · exact .inr ⟨f, d, rfl, rfl, rfl, .inr ⟨hmovable, rfl⟩⟩
        · exact .inl rfl
        · exact .inl rfl

/-- `rename` can move what is at `f` to `d`. -/
structure Renamable (limit : ℕ) (cwd : Location) (t : Volume α) (old new : List Char)
    (f d : Location) : Prop where
  last : lastSegment old ≠ ['.'] ∧ lastSegment old ≠ ['.', '.']
  source : t.resolve limit cwd false old = some f
  target : t.place limit cwd new = some d
  kind : Replaceable (t.find f) (t.find d) (new.getLast? = some '/')
  movable : t.Movable f d

theorem rename_of_renamable {old new : List Char} {f d : Location}
    (h : Renamable limit cwd t old new f d) :
    t.rename limit cwd old new = (t.move f d h.movable, true) := by
  have hne : f ≠ d := fun hfd => h.movable.outside (hfd ▸ List.prefix_refl f)
  rw [rename, if_neg (by simpa using h.last), h.source, h.target]
  simp only
  rw [if_pos h.kind, if_neg hne, dif_pos h.movable]

theorem Renamable.congr {t' : Volume α} {old new : List Char} {f d : Location}
    (h : Renamable limit cwd t old new f d) (hfind : ∀ m, t'.find m = t.find m) :
    Renamable limit cwd t' old new f d := by
  have hsub : t.Sub t' := fun m e he => (hfind m).trans he
  refine ⟨h.last, resolve_mono hsub h.source, place_mono hsub h.target, ?_,
    h.movable.congr hfind⟩
  rw [hfind, hfind]
  exact h.kind

end Volume

end FileTree
