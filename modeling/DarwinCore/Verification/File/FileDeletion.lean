import DarwinCore.Verification.File.DirectoryIterator
import DarwinCore.Verification.File.Overwriting

/-! # `deleteFile`

A file that is deleted is opened through its path, which may be a link to it; what is renamed and
removed is what the path itself names. A random name may be taken. -/

namespace DarwinCore.File

open FileTree FileTree.Volume

variable {limit : ℕ} {cwd : Location} {t t' g : Volume (List UInt8)} {path parent : List Char}
  {d e f l m w x : Location} {name : Name} {mode : SecureDeleteMode} {device : Device}
  {digits : Digits} {disk disk' : Disk} {content : List UInt8} {deleted : Bool}

/-! ## Random names -/

def randomName (digits : Digits) : Name :=
  List.ofFn fun i => hexDigit (digits i)

private theorem hexDigit_ne (i : Fin 16) : hexDigit i ≠ '/' ∧ hexDigit i ≠ '.' := by
  revert i
  decide

theorem plainName_randomName (digits : Digits) : PlainName (randomName digits) := by
  have hmem (c : Char) (hc : c ∈ randomName digits) : c ≠ '/' ∧ c ≠ '.' := by
    obtain ⟨i, rfl⟩ := List.mem_ofFn.mp hc
    exact hexDigit_ne _
  have hdot (h : '.' ∈ randomName digits) : False := (hmem '.' h).2 rfl
  refine ⟨?_, fun h => (hmem '/' h).1 rfl, fun h => hdot (by simp [h]), fun h => hdot (by simp [h])⟩
  simp [randomName]

/-- A random name is in the directory of the path, and in the working directory for a path of the
root. -/
theorem generateRandomName_eq (digits : Digits) (parent : List Char) (h : '/' ∉ name) :
    generateRandomName digits (parent ++ '/' :: name) =
      if parent = [] then randomName digits else parent ++ '/' :: randomName digits := by
  have hdrop : (parent ++ '/' :: name).rdropWhile (· ≠ '/') = parent ++ ['/'] := by
    rw [List.rdropWhile, List.reverse_append, List.reverse_cons, List.append_assoc,
      List.dropWhile_append_of_pos]
    · simp
    · intro c hc
      have hmem := List.mem_reverse.mp hc
      simp only [ne_eq, decide_eq_true_eq]
      rintro rfl
      exact h hmem
  unfold generateRandomName
  rw [hdrop, List.dropLast_concat]
  simp only [List.isEmpty_iff]
  rfl

theorem splitOn_generateRandomName (digits : Digits) (parent : List Char) (h : '/' ∉ name) :
    (generateRandomName digits (parent ++ '/' :: name)).splitOn '/' =
      (if parent = [] then [] else parent.splitOn '/') ++ [randomName digits] := by
  have hplain := plainName_randomName digits
  rw [generateRandomName_eq digits parent h]
  split_ifs with hparent
  · exact List.splitOn_eq_singleton hplain.slash
  · rw [List.splitOn_append_cons_self, List.splitOn_eq_singleton hplain.slash]

/-! ## Calls -/

/-- Nothing has changed but what is kept of the contents. -/
def Resembles (t' t : Volume (List UInt8)) : Prop :=
  ∀ m, (t'.map List.length).find m = (t.map List.length).find m

/-- Nothing has come, and no file has become longer or shorter. -/
def Within (t' t : Volume (List UInt8)) : Prop :=
  (t'.map List.length).Sub (t.map List.length)

theorem Resembles.within (h : Resembles t' t) : Within t' t :=
  fun m _ he => (h m).symm.trans he

theorem Resembles.symm (h : Resembles t' t) : Resembles t t' :=
  fun m => (h m).symm

theorem Within.trans {t'' : Volume (List UInt8)} (h : Within t'' t') (h' : Within t' t) :
    Within t'' t :=
  Sub.trans h h'

theorem Within.of_sub (h : t'.Sub t) : Within t' t := by
  intro m entry hfind
  rw [find_map, Option.map_eq_some_iff] at hfind ⊢
  obtain ⟨entry, hfind, rfl⟩ := hfind
  exact ⟨entry, h m entry hfind, rfl⟩

theorem Within.walks (h : Within t' t) {followLast : Bool} {segments : List Name}
    (hwalk : Walks t' followLast limit l segments m) : Walks t followLast limit l segments m :=
  (hwalk.map.mono h).of_map

theorem Within.resolve (h : Within t' t) {followLast : Bool}
    (hpath : t'.resolve limit cwd followLast path = some m) :
    t.resolve limit cwd followLast path = some m := by
  rw [← resolve_map List.length] at hpath ⊢
  exact resolve_mono h hpath

theorem Resembles.resolve (h : Resembles t' t) {followLast : Bool} :
    t'.resolve limit cwd followLast path = t.resolve limit cwd followLast path :=
  Option.ext fun _ => ⟨h.within.resolve, h.symm.within.resolve⟩

private theorem find_lengths_eq_file {n : ℕ} : (t.map List.length).find m = some (.file n) ↔
    ∃ content, t.find m = some (.file content) ∧ content.length = n := by
  rw [find_map, Option.map_eq_some_iff]
  constructor
  · rintro ⟨entry, hfind, he⟩
    obtain ⟨content, rfl, hlength⟩ := Entry.map_eq_file.mp he
    exact ⟨content, hfind, hlength⟩
  · rintro ⟨content, hfind, rfl⟩
    exact ⟨_, hfind, rfl⟩

private theorem find_lengths_eq_dir :
    (t.map List.length).find m = some .dir ↔ t.find m = some .dir := by
  simp [find_map]

theorem Within.find_file (h : Within t' t) (hfile : t'.find m = some (.file content)) :
    ∃ c, t.find m = some (.file c) ∧ c.length = content.length :=
  find_lengths_eq_file.mp (h m _ (find_lengths_eq_file.mpr ⟨content, hfile, rfl⟩))

theorem Within.find_dir (h : Within t' t) (hdir : t'.find m = some .dir) : t.find m = some .dir :=
  find_lengths_eq_dir.mp (h m _ (find_lengths_eq_dir.mpr hdir))

theorem Within.find_none (h : Within t' t) (hnone : t.find m = none) : t'.find m = none := by
  cases hfind : t'.find m with
  | none => rfl
  | some entry =>
    have hlength := h m _ (by rw [find_map, hfind]; rfl)
    rw [find_map, hnone] at hlength
    cases hlength

/-- A call that fails changes nothing, and one that succeeds takes an entry away. -/
theorem remove_disk_spec : disk.remove limit cwd path = (disk, false) ∨
    ∃ l, disk.volume.resolve limit cwd false path = some l ∧
      (disk.remove limit cwd path).2 = true ∧
      (disk.remove limit cwd path).1.changes = disk.changes ++ [.remove l] ∧
      ∀ m, (disk.remove limit cwd path).1.volume.find m =
        if m = l then none else disk.volume.find m := by
  unfold Disk.remove Disk.removeBy
  have hspec : disk.volume.remove limit cwd path = (disk.volume, false) ∨ _ := remove_spec
  obtain hfails | ⟨l, hl, -, hremoved, hafter⟩ := hspec
  · rw [hfails]
    exact .inl rfl
  · generalize disk.volume.remove limit cwd path = result at hremoved hafter
    obtain ⟨volume, removed⟩ := result
    obtain rfl : removed = true := hremoved
    rw [hl]
    exact .inr ⟨l, rfl, rfl, rfl, hafter⟩

theorem rmdir_disk_spec : disk.rmdir limit cwd path = (disk, false) ∨
    ∃ l, disk.volume.resolve limit cwd false path = some l ∧ disk.volume.find l = some .dir ∧
      (disk.rmdir limit cwd path).2 = true ∧
      (disk.rmdir limit cwd path).1.changes = disk.changes ++ [.remove l] ∧
      ∀ m, (disk.rmdir limit cwd path).1.volume.find m =
        if m = l then none else disk.volume.find m := by
  unfold Disk.rmdir Disk.removeBy
  have hspec : disk.volume.rmdir limit cwd path = (disk.volume, false) ∨ _ := rmdir_spec
  obtain hfails | ⟨l, hl, hdir, hremoved, hafter⟩ := hspec
  · rw [hfails]
    exact .inl rfl
  · generalize disk.volume.rmdir limit cwd path = result at hremoved hafter
    obtain ⟨volume, removed⟩ := result
    obtain rfl : removed = true := hremoved
    rw [hl]
    exact .inr ⟨l, rfl, hdir, rfl, rfl, hafter⟩

private theorem rename_disk_spec {new : List Char} :
    disk.rename limit cwd path new = (disk, false) ∨
    ∃ f d, disk.volume.resolve limit cwd false path = some f ∧
      disk.volume.place limit cwd new = some d ∧
      (disk.rename limit cwd path new).1.changes = disk.changes ++ [.rename f d] ∧
      ((f = d ∧ (disk.rename limit cwd path new).1.volume = disk.volume) ∨
        ∃ h : disk.volume.Movable f d,
          (disk.rename limit cwd path new).1.volume = disk.volume.move f d h) := by
  unfold Disk.rename
  have hspec : disk.volume.rename limit cwd path new = (disk.volume, false) ∨ _ := rename_spec
  obtain hfails | ⟨f, d, hf, hd, hrenamed, hmoved⟩ := hspec
  · rw [hfails]
    exact .inl rfl
  · generalize disk.volume.rename limit cwd path new = result at hrenamed hmoved
    obtain ⟨volume, renamed⟩ := result
    obtain rfl : renamed = true := hrenamed
    rw [hf, hd]
    exact .inr ⟨f, d, rfl, rfl, rfl, hmoved⟩

/-! ## The random name in the tree -/

/-- The random name for a listed path is one of its directory, unless this is the root. -/
theorem place_generateRandomName (hlists : Lists limit cwd t d path parent e name)
    (hwithin : Within g t)
    (hplace : g.place limit cwd (generateRandomName digits path) = some x) :
    ∃ e', x = e' ++ [randomName digits] ∧ d <+: x ∧ (parent = [] ∨ e' = e) := by
  have hslash := hlists.name_ne.slash
  have hplain := plainName_randomName digits
  obtain ⟨-, -, e', hwalk, -, rfl⟩ := place_eq_some_iff.mp hplace
  rw [hlists.eq] at hwalk ⊢
  obtain ⟨hlast, hparent⟩ :=
    segments_concat (splitOn_generateRandomName digits parent hslash) hplain.ne_nil
  rw [hparent] at hwalk
  rw [hlast]
  by_cases hroot : parent = []
  · exact ⟨e', rfl, by simp [hlists.root hroot], .inl hroot⟩
  · have hstart : start cwd (generateRandomName digits (parent ++ '/' :: name)) =
        start cwd path := by
      obtain ⟨c, rest, rfl⟩ := List.exists_cons_of_ne_nil hroot
      rw [generateRandomName_eq digits _ hslash, if_neg hroot, hlists.eq]
      rfl
    rw [if_neg hroot, hstart] at hwalk
    obtain rfl := (hwithin.walks hwalk).unique hlists.walk
    exact ⟨e', rfl, hlists.below.trans (List.prefix_append e' _), .inr rfl⟩

/-- Once the file has the random name, this leads to it or to nothing. -/
private theorem resolve_moved (hlists : Lists limit cwd t d path parent e name)
    (hwithin : Within g t)
    (hend : g.DeadEnd (e ++ [name]))
    (hplace : g.place limit cwd (generateRandomName digits path) = some x)
    (hmovable : g.Movable (e ++ [name]) x)
    (hresolve : (g.move (e ++ [name]) x hmovable).resolve limit cwd false
      (generateRandomName digits path) = some l) : l = x := by
  have hslash := hlists.name_ne.slash
  have hplain := plainName_randomName digits
  obtain ⟨e', hx, -, he'⟩ := place_generateRandomName hlists hwithin hplace
  obtain ⟨-, hrooted, -⟩ := resolve_eq_some_iff.mp hresolve
  have hsplit := splitOn_generateRandomName digits parent hslash
  rw [← hlists.eq] at hsplit
  obtain ⟨hlast, hparent⟩ := segments_concat hsplit hplain.ne_nil
  have hmoved := place_of_resolve hsplit hplain hresolve
  obtain ⟨-, -, e₁, hwalk₁, -, hx₁⟩ := place_eq_some_iff.mp hplace
  obtain ⟨-, -, e₂, hwalk₂, hdir₂, rfl⟩ := place_eq_some_iff.mp hmoved
  rw [hparent] at hwalk₁ hwalk₂
  rw [hx₁]
  congr 1
  by_cases hroot : parent = []
  · rw [if_pos hroot] at hwalk₁ hwalk₂
    cases hwalk₁
    cases hwalk₂
    rfl
  · obtain rfl := he'.resolve_left hroot
    -- both names are in one directory, so a link leads where it did
    have hsame : x.dropLast = (e' ++ [name]).dropLast := by
      rw [hx, List.dropLast_concat, List.dropLast_concat]
    have hbefore := hwalk₂.unmoved (find_start hrooted) hdir₂ hend (find_move_target hmovable)
      hsame fun m entry hm hfind => find_of_move hmovable hend hm hfind
    exact hbefore.unique hwalk₁

/-! ## Unlinking a file -/

/-- The change takes away what is at a location, or something else comes in its place. -/
def Change.Unlinks : Change → Location → Prop
  | .write _ _ _, _ => False
  | .rename source target, m => m = source ∨ m = target
  | .remove l, m => m = l

/-- What the renaming has done where the random name now leads to `l`. -/
structure Renamed (f l : Location) (disk disk' : Disk) : Prop where
  kept : ∀ m entry, m ≠ l → disk'.volume.find m = some entry → disk.volume.find m = some entry
  changes : ∃ more, disk'.changes = disk.changes ++ more ∧
    ∀ change ∈ more, ∀ m, change.Unlinks m → m = l ∨ disk'.volume.find m = none
  only : disk.volume.find l = none → ∀ m, m ≠ f → m ≠ l →
    disk'.volume.find m = disk.volume.find m

theorem Renamed.refl : Renamed f l disk disk :=
  ⟨fun _ _ _ h => h, ⟨[], by simp, by simp⟩, fun _ _ _ _ => rfl⟩

/-- The renaming stays inside the directory, whether or not the random name is taken. -/
theorem rename_spec_listed (hlists : Lists limit cwd t d path parent e name)
    (hwithin : Within disk.volume t)
    (hpath : disk.volume.resolve limit cwd true path = some w)
    (hw : disk.volume.find w = some (.file content))
    (hrun : (disk.rename limit cwd path (generateRandomName digits path)).1 = disk') :
    (∀ m, ¬d <+: m → disk'.volume.find m = disk.volume.find m) ∧
      ∀ l, disk'.volume.resolve limit cwd false (generateRandomName digits path) = some l →
        disk.volume.place limit cwd (generateRandomName digits path) = some l ∧
          Renamed (e ++ [name]) l disk disk' := by
  have hsplit := splitOn_generateRandomName digits parent hlists.name_ne.slash
  rw [← hlists.eq] at hsplit
  have hplain := plainName_randomName digits
  have hspec : disk.rename limit cwd path (generateRandomName digits path) = (disk, false) ∨ _ :=
    rename_disk_spec
  obtain hfails | ⟨f, x, hf, hx, hchanges, hmoved⟩ := hspec
  · rw [hfails] at hrun
    subst hrun
    exact ⟨fun _ _ => rfl, fun l hl => ⟨place_of_resolve hsplit hplain hl, .refl⟩⟩
  · rw [hrun] at hchanges hmoved
    obtain rfl : f = e ++ [name] :=
      Option.some.inj ((hwithin.resolve hf).symm.trans hlists.resolve)
    obtain ⟨entry, hentry⟩ := resolve_found hf
    obtain ⟨hsame, hvolume⟩ | ⟨hmovable, hvolume⟩ := hmoved
    · refine ⟨fun m _ => by rw [hvolume], fun l hl => ?_⟩
      rw [hvolume] at hl
      have hplace := place_of_resolve hsplit hplain hl
      obtain rfl : x = l := Option.some.inj (hx.symm.trans hplace)
      refine ⟨hx, fun m entry _ hfind => by rwa [hvolume] at hfind, ⟨_, hchanges, ?_⟩,
        fun _ m _ _ => by rw [hvolume]⟩
      refine List.forall_mem_singleton.mpr fun m hm => .inl ?_
      exact hm.elim (fun h => h.trans hsame) id
    · obtain ⟨-, -, hbelow, -⟩ := place_generateRandomName hlists hwithin hx
      have hend := deadEnd_of_resolve hpath hw hf
      refine ⟨fun m hm => ?_, fun l hl => ?_⟩
      · rw [hvolume]
        exact find_move_outside hmovable (fun h => hm (hbelow.trans h))
          fun h => hm (hlists.below_entry.trans h)
      · rw [hvolume] at hl
        obtain rfl := resolve_moved hlists hwithin hend hx hmovable hl
        refine ⟨hx, fun m entry hm hfind => ?_, ⟨_, hchanges, ?_⟩, fun hfree m hmf hml => ?_⟩
        · rw [hvolume] at hfind
          exact find_of_move hmovable hend hm hfind
        · refine List.forall_mem_singleton.mpr fun m hm => ?_
          obtain rfl | rfl := hm
          · rw [hvolume]
            exact .inr (find_move_source hmovable hentry)
          · exact .inl rfl
        · rw [hvolume]
          exact find_move_elsewhere hmovable hend hfree hmf hml

/-- What the renaming and the removal have done if they succeed. -/
structure Unlinked (digits : Digits) (f : Location) (disk disk' : Disk) : Prop where
  kept : disk'.volume.Sub disk.volume
  changes : ∃ more, disk'.changes = disk.changes ++ more ∧
    ∀ change ∈ more, ∀ m, change.Unlinks m → disk'.volume.find m = none
  only : (∀ e, disk.volume.find (e ++ [randomName digits]) = none) → ∀ m, m ≠ f →
    disk'.volume.find m = disk.volume.find m

private theorem rename_remove_spec (hlists : Lists limit cwd t d path parent e name)
    (hwithin : Within disk.volume t)
    (hpath : disk.volume.resolve limit cwd true path = some w)
    (hw : disk.volume.find w = some (.file content))
    (hrun : (disk.rename limit cwd path (generateRandomName digits path)).1.remove limit cwd
      (generateRandomName digits path) = (disk', deleted)) :
    (∀ m, ¬d <+: m → disk'.volume.find m = disk.volume.find m) ∧
      (deleted = true → Unlinked digits (e ++ [name]) disk disk') := by
  obtain ⟨houtside, hfound⟩ := rename_spec_listed hlists hwithin hpath hw rfl
  generalize (disk.rename limit cwd path (generateRandomName digits path)).1 = between
    at hrun houtside hfound
  have hspec : between.remove limit cwd (generateRandomName digits path) = (between, false) ∨ _ :=
    remove_disk_spec
  rw [hrun] at hspec
  obtain hfails | ⟨l, hl, -, hchanges, hafter⟩ := hspec
  · obtain ⟨rfl, rfl⟩ := Prod.mk.inj hfails
    exact ⟨houtside, by simp⟩
  · obtain ⟨hplace, hrenamed⟩ := hfound l hl
    obtain ⟨e', hname, hbelow, -⟩ := place_generateRandomName hlists hwithin hplace
    simp only at hchanges hafter
    refine ⟨fun m hm => ?_, fun _ => ⟨fun m entry hfind => ?_, ?_, fun hnew m hm => ?_⟩⟩
    · have hml : m ≠ l := by
        rintro rfl
        exact hm hbelow
      rw [hafter, if_neg hml, houtside m hm]
    · rw [hafter] at hfind
      split_ifs at hfind with hml
      exact hrenamed.kept m entry hml hfind
    · obtain ⟨more, hmore, hunlinks⟩ := hrenamed.changes
      refine ⟨more ++ [.remove l], by rw [hchanges, hmore, List.append_assoc], ?_⟩
      refine List.forall_mem_append.mpr ⟨fun change hchange m hm => ?_,
        List.forall_mem_singleton.mpr fun m hm => (hafter m).trans (if_pos hm)⟩
      rw [hafter]
      split_ifs with hml
      · rfl
      · exact (hunlinks change hchange m hm).resolve_left hml
    · have hfree : disk.volume.find l = none := hname ▸ hnew e'
      rw [hafter]
      split_ifs with hml
      · rw [hml, hfree]
      · exact hrenamed.only hfree m hm hml

/-! ## Deleting a file -/

theorem resembles_put {c : List UInt8} (h : t.find w = some (.file c))
    (hlength : content.length = c.length) : Resembles (t.put w content) t :=
  find_map_put h hlength

/-- What a call of `deleteFile` does that opens `w`. -/
structure Deletion (device : Device) (mode : SecureDeleteMode) (digits : Digits) (d f : Location)
    (disk disk' : Disk) (deleted : Bool) (w : Location) (content : List UInt8) : Prop where
  outside : ∀ m, ¬d <+: m → disk'.volume.find m =
    (disk.volume.put w (overwrite device content.length mode
      { content := content }).1.content).find m
  passes : deleted = true → (overwrite device content.length mode { content := content }).2 = true
  unlinked : deleted = true → Unlinked digits f
    { volume := disk.volume.put w
        (overwrite device content.length mode { content := content }).1.content
      changes := disk.changes ++
        writesAt w (overwrite device content.length mode { content := content }).1.writes } disk'

theorem deleteFile_spec (hlists : Lists limit cwd t d path parent e name)
    (hwithin : Within disk.volume t)
    (hrun : deleteFile device limit cwd mode digits disk path = (disk', deleted)) :
    (disk.volume.openFile limit cwd path = none ∧ disk' = disk ∧ deleted = false) ∨ ∃ w content,
      disk.volume.openFile limit cwd path = some (w, content) ∧
        Deletion device mode digits d (e ++ [name]) disk disk' deleted w content := by
  unfold deleteFile at hrun
  cases hopen : disk.volume.openFile limit cwd path with
  | none =>
    rw [hopen] at hrun
    obtain ⟨rfl, rfl⟩ := Prod.mk.inj hrun
    exact .inl ⟨rfl, rfl, rfl⟩
  | some opened =>
    obtain ⟨w, content⟩ := opened
    refine .inr ⟨w, content, rfl, ?_⟩
    obtain ⟨hpath, hw⟩ := openFile_eq_some_iff.mp hopen
    have hspec : Overwrote device _ { content := content } _ _ _ := overwrite_spec mode rfl
    have hresembles := resembles_put hw hspec.length
    simp only [hopen] at hrun
    split_ifs at hrun with hsuccess
    · obtain ⟨houtside, hunlinked⟩ := rename_remove_spec hlists
        (hresembles.within.trans hwithin) (hresembles.resolve.trans hpath)
        ((find_put_file hw w).trans (if_pos rfl)) hrun
      exact ⟨houtside, fun _ => hsuccess, hunlinked⟩
    · obtain ⟨rfl, rfl⟩ := Prod.mk.inj hrun
      exact ⟨fun _ _ => rfl, by simp, by simp⟩

end DarwinCore.File
