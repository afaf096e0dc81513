import DarwinCore.Model.File.DirectoryIterator

/-! # What `DirectoryIterator` lists

Every path that is listed names an entry below the directory, and leads there through directories
only once the directory itself is reached. -/

namespace DarwinCore.File

open FileTree FileTree.Volume

variable {α : Type*} {limit : ℕ} {cwd : Location} {t : Volume α} {path : List Char}
  {d e m : Location} {name : Name} {recursive completed : Bool} {entries : List DirectoryEntry}

/-- The path names an entry of a directory at or below `d`. -/
structure Lists (limit : ℕ) (cwd : Location) (t : Volume α) (d : Location) (path : List Char)
    (parent : List Char) (e : Location) (name : Name) : Prop where
  eq : path = parent ++ '/' :: name
  below : d <+: e
  dir : t.find e = some .dir
  rooted : path.head? = some '/' ∨ t.find cwd = some .dir
  walk : Walks t true limit (start cwd path) (parent.splitOn '/') e
  root : parent = [] → d = []
  found : ∃ entry, t.find (e ++ [name]) = some entry

namespace Lists

variable {parent : List Char}

theorem name_ne (h : Lists limit cwd t d path parent e name) : PlainName name :=
  plainName h.found.choose_spec

theorem splitOn (h : Lists limit cwd t d path parent e name) :
    path.splitOn '/' = parent.splitOn '/' ++ [name] := by
  rw [h.eq, List.splitOn_append_cons_self, List.splitOn_eq_singleton h.name_ne.slash]

theorem resolve (h : Lists limit cwd t d path parent e name) :
    t.resolve limit cwd false path = some (e ++ [name]) := by
  obtain ⟨entry, hfind⟩ := h.found
  refine resolve_eq_some_iff.mpr ⟨?_, h.rooted, ?_⟩
  · rw [h.eq]
    simp
  · rw [h.splitOn]
    exact h.walk.child h.dir hfind

theorem below_entry (h : Lists limit cwd t d path parent e name) : d <+: e ++ [name] :=
  h.below.trans (List.prefix_append e [name])

end Lists

/-- What is joined to the path of a directory is listed. -/
theorem lists_joinPath (hresolve : t.resolve limit cwd true path = some e)
    (hdir : t.find e = some .dir) (hbelow : d <+: e) (hname : name ∈ t.children e) :
    ∃ parent, Lists limit cwd t d (joinPath path name) parent e name := by
  obtain ⟨hpath, hstart, hwalk⟩ := resolve_eq_some_iff.mp hresolve
  have hfound := mem_children.mp hname
  by_cases hslash : path.getLast? = some '/'
  · obtain ⟨parent, rfl⟩ : ∃ parent, path = parent ++ ['/'] := by
      obtain ⟨parent, last, rfl⟩ := List.eq_nil_or_concat path |>.resolve_left hpath
      refine ⟨parent, ?_⟩
      simpa using hslash
    have hjoin : joinPath (parent ++ ['/']) name = parent ++ '/' :: name := by simp [joinPath]
    have hhead : (parent ++ '/' :: name).head? = (parent ++ ['/']).head? := by
      cases parent <;> rfl
    have hsame : start cwd (parent ++ '/' :: name) = start cwd (parent ++ ['/']) := by
      rw [start, start, hhead]
    have hwalk' : Walks t true limit (start cwd (parent ++ ['/'])) (parent.splitOn '/') e := by
      refine Walks.of_trailing ?_
      rwa [List.splitOn_append_cons_self, List.splitOn_nil] at hwalk
    rw [hjoin]
    refine ⟨parent, ⟨rfl, hbelow, hdir, by rwa [hhead], by rwa [hsame], ?_, hfound⟩⟩
    rintro rfl
    have he : e = [] := by
      cases hwalk' with
      | skip _ hrest =>
        cases hrest
        rfl
      | dir hproper => exact absurd (.inl rfl) hproper.1
      | file hproper => exact absurd (.inl rfl) hproper.1
      | link hproper => exact absurd (.inl rfl) hproper.1
      | jump hproper => exact absurd (.inl rfl) hproper.1
    subst he
    exact List.prefix_nil.mp hbelow
  · have hjoin : joinPath path name = path ++ '/' :: name := by simp [joinPath, hpath, hslash]
    have hhead : (path ++ '/' :: name).head? = path.head? := by
      obtain ⟨c, rest, rfl⟩ := List.exists_cons_of_ne_nil hpath
      rfl
    have hsame : start cwd (path ++ '/' :: name) = start cwd path := by
      rw [start, start, hhead]
    rw [hjoin]
    exact ⟨path, ⟨rfl, hbelow, hdir, by rwa [hhead], by rwa [hsame], fun h => absurd h hpath,
      hfound⟩⟩

private theorem lists_of_iterateNames {visit : Name → Option Listing} {names : List Name}
    {P : DirectoryEntry → Prop}
    (hvisit : ∀ name ∈ names, ∀ listing, visit name = some listing → ∀ e ∈ listing.1, P e)
    {listing : Listing} (h : iterateNames visit names = some listing) : ∀ e ∈ listing.1, P e := by
  induction names generalizing listing with
  | nil =>
    obtain rfl := Option.some.inj h
    simp
  | cons name names ih =>
    obtain ⟨hfirst, hothers⟩ := List.forall_mem_cons.mp hvisit
    rw [iterateNames, Option.bind_eq_bind, Option.bind_eq_some_iff] at h
    obtain ⟨⟨entries, completed⟩, hname, hrest⟩ := h
    cases completed with
    | false =>
      obtain rfl := Option.some.inj hrest
      exact hfirst _ hname
    | true =>
      simp only [not_true_eq_false, if_false, Option.bind_eq_some_iff] at hrest
      obtain ⟨⟨more, completed⟩, hmore, hresult⟩ := hrest
      obtain rfl := Option.some.inj hresult
      exact List.forall_mem_append.mpr ⟨hfirst _ hname, ih hothers hmore⟩

private theorem iterateNames_isSome {visit : Name → Option Listing} {names : List Name}
    (hvisit : ∀ name ∈ names, (visit name).isSome) : (iterateNames visit names).isSome := by
  induction names with
  | nil => rfl
  | cons name names ih =>
    obtain ⟨hfirst, hothers⟩ := List.forall_mem_cons.mp hvisit
    obtain ⟨⟨entries, completed⟩, hname⟩ := Option.isSome_iff_exists.mp hfirst
    obtain ⟨⟨more, rest⟩, hmore⟩ := Option.isSome_iff_exists.mp (ih hothers)
    cases completed <;> simp [iterateNames, hname, hmore]

def pathBelow (path : List Char) (names : List Name) : List Char :=
  names.foldl joinPath path

private theorem pathBelow_concat (path : List Char) (names : List Name) (name : Name) :
    pathBelow path (names ++ [name]) = joinPath (pathBelow path names) name :=
  List.foldl_concat ..

/-- What is known of an entry that is passed to the callback. -/
structure Known (limit : ℕ) (cwd : Location) (t : Volume α) (root : List Char) (d : Location)
    (entry : DirectoryEntry) : Prop where
  lists : ∃ parent e name, Lists limit cwd t d entry.path parent e name
  names : ∃ names, entry.path = pathBelow root names ∧
    t.resolve limit cwd false entry.path = some (d ++ names)
  file : entry.type = .file → (t.openFile limit cwd entry.path).isSome

private theorem known_of_processEntry {root parent : List Char} {names : List Name}
    {entry : DirectoryEntry} (hlists : Lists limit cwd t d path parent e name)
    (hpath : path = pathBelow root names) (hnames : e ++ [name] = d ++ names)
    (h : processEntry limit cwd t path = some entry) : Known limit cwd t root d entry := by
  unfold processEntry at h
  split_ifs at h with hstat
  obtain rfl := Option.some.inj h
  refine ⟨⟨parent, e, name, hlists⟩, ⟨names, hpath, hnames ▸ hlists.resolve⟩, fun hfile => ?_⟩
  simp only [entryType] at hfile
  split at hfile
  · rename_i content hcontent
    obtain ⟨l, hresolve, hfind⟩ := stat_eq_some_iff.mp hcontent
    exact Option.isSome_iff_exists.mpr ⟨_, openFile_eq_some_iff.mpr ⟨hresolve, hfind⟩⟩
  · cases hfile
  · split_ifs at hfile

/-- What the loop over the names does with one of them. -/
def visitName (limit : ℕ) (cwd : Location) (t : Volume α) (recursive : Bool) (fuel : ℕ)
    (path : List Char) (name : Name) : Option Listing :=
  match processEntry limit cwd t (joinPath path name) with
  | none => some ([], false)
  | some entry =>
      if recursive ∧ t.lstat limit cwd (joinPath path name) = some .dir then do
        let (entries, completed) ← iterateDirectory limit cwd t recursive fuel (joinPath path name)
        some (entry :: entries, completed)
      else some ([entry], true)

theorem iterateDirectory_succ {fuel : ℕ} (hresolve : t.resolve limit cwd true path = some e)
    (hdir : t.find e = some .dir) : iterateDirectory limit cwd t recursive (fuel + 1) path =
      iterateNames (visitName limit cwd t recursive fuel path) (t.children e) := by
  have hkept : (t.children e).filter (fun name => decide (name ≠ ['.'] ∧ name ≠ ['.', '.'])) =
      t.children e := by
    refine List.filter_eq_self.mpr fun name hname => ?_
    obtain ⟨entry, hentry⟩ := mem_children.mp hname
    have hplain := plainName hentry
    simp [hplain.dot, hplain.dotDot]
  rw [iterateDirectory, readdir_eq hresolve hdir]
  simp only
  rw [List.filter_cons_of_neg (by simp), List.filter_cons_of_neg (by simp), hkept]
  rfl

theorem Lists.resolve_dir {parent : List Char} (h : Lists limit cwd t d path parent e name)
    (hstat : t.lstat limit cwd path = some .dir) :
    t.resolve limit cwd true path = some (e ++ [name]) ∧ t.find (e ++ [name]) = some .dir := by
  obtain ⟨l, hl, hdir⟩ := lstat_eq_some_iff.mp hstat
  obtain rfl := Option.some.inj (h.resolve.symm.trans hl)
  exact ⟨resolve_follow hl (by simp [hdir]), hdir⟩

private theorem known_of_iterateDirectory {fuel : ℕ} {root : List Char} {names : List Name}
    {listing : Listing} (hresolve : t.resolve limit cwd true path = some (d ++ names))
    (hpath : path = pathBelow root names) (hdir : t.find (d ++ names) = some .dir)
    (h : iterateDirectory limit cwd t recursive fuel path = some listing) :
    ∀ entry ∈ listing.1, Known limit cwd t root d entry := by
  induction fuel generalizing path names listing with
  | zero => cases h
  | succ fuel ih =>
    rw [iterateDirectory_succ hresolve hdir] at h
    refine lists_of_iterateNames (fun name hname listing hvisit => ?_) h
    obtain ⟨parent, hlists⟩ := lists_joinPath hresolve hdir (List.prefix_append d names) hname
    unfold visitName at hvisit
    have hjoin : joinPath path name = pathBelow root (names ++ [name]) := by
      rw [pathBelow_concat, hpath]
    cases hentry : processEntry limit cwd t (joinPath path name) with
    | none =>
      rw [hentry] at hvisit
      obtain rfl := Option.some.inj hvisit
      simp
    | some entry =>
      have hknown := known_of_processEntry hlists hjoin (List.append_assoc ..) hentry
      simp only [hentry] at hvisit
      split_ifs at hvisit with hrecursive
      · obtain ⟨⟨entries, completed⟩, hmore, hresult⟩ := Option.bind_eq_some_iff.mp hvisit
        obtain rfl := Option.some.inj hresult
        obtain ⟨hchild, hchilddir⟩ := hlists.resolve_dir hrecursive.2
        rw [List.append_assoc] at hchild hchilddir
        exact List.forall_mem_cons.mpr ⟨hknown, ih hchild hjoin hchilddir hmore⟩
      · obtain rfl := Option.some.inj hvisit
        simpa using hknown

/-- The directories are not nested deeper than the tree. -/
private theorem iterateDirectory_isSome {fuel : ℕ}
    (hresolve : t.resolve limit cwd true path = some e)
    (hdir : t.find e = some .dir) (hfuel : t.depth < fuel + e.length) :
    (iterateDirectory limit cwd t recursive fuel path).isSome := by
  induction fuel generalizing path e with
  | zero =>
    have hle := length_le_depth hdir
    omega
  | succ fuel ih =>
    rw [iterateDirectory_succ hresolve hdir]
    refine iterateNames_isSome fun name hname => ?_
    obtain ⟨parent, hlists⟩ := lists_joinPath hresolve hdir (List.prefix_refl e) hname
    unfold visitName
    cases processEntry limit cwd t (joinPath path name) with
    | none => rfl
    | some entry =>
      simp only
      split_ifs with hrecursive
      · obtain ⟨hchild, hchilddir⟩ := hlists.resolve_dir hrecursive.2
        obtain ⟨listing, hlisting⟩ := Option.isSome_iff_exists.mp
          (ih hchild hchilddir (by rw [List.length_append, List.length_singleton]; omega))
        rw [hlisting]
        rfl
      · rfl

theorem iterate_isSome (iter : DirectoryIterator)
    (hresolve : t.resolve limit cwd true iter.rootPath = some d) (hdir : t.find d = some .dir) :
    (iter.iterate limit cwd t).isSome := by
  rw [DirectoryIterator.iterate, Option.isSome_map]
  exact iterateDirectory_isSome hresolve hdir (by omega)

theorem known_of_iterate {iter : DirectoryIterator}
    (hresolve : t.resolve limit cwd true iter.rootPath = some d) (hdir : t.find d = some .dir)
    (h : iter.iterate limit cwd t = some entries) :
    ∀ entry ∈ entries, Known limit cwd t iter.rootPath d entry := by
  obtain ⟨listing, hlisting, rfl⟩ := Option.map_eq_some_iff.mp h
  rw [← List.append_nil d] at hresolve hdir
  exact known_of_iterateDirectory hresolve rfl hdir hlisting

/-! ## What is listed for sure -/

/-- What is below a directory is found by its path. -/
theorem resolve_pathBelow {names : List Name} {entry : Entry α}
    (hresolve : t.resolve limit cwd true path = some e) (hdir : t.find e = some .dir)
    (hfind : t.find (e ++ names) = some entry) (hnames : names ≠ []) :
    t.resolve limit cwd false (pathBelow path names) = some (e ++ names) := by
  induction names generalizing path e with
  | nil => exact absurd rfl hnames
  | cons name names ih =>
    have hname : e ++ name :: names = (e ++ [name]) ++ names := by simp
    rw [hname] at hfind ⊢
    by_cases hlast : names = []
    · subst hlast
      rw [List.append_nil] at hfind ⊢
      obtain ⟨parent, hlists⟩ := lists_joinPath hresolve hdir (List.prefix_refl e)
        (mem_children.mpr ⟨entry, hfind⟩)
      exact hlists.resolve
    · have hchild := find_above hfind hlast
      obtain ⟨parent, hlists⟩ := lists_joinPath hresolve hdir (List.prefix_refl e)
        (mem_children.mpr ⟨.dir, hchild⟩)
      exact ih (resolve_follow hlists.resolve (by simp [hchild])) hchild hfind hlast

/-- No link below the directory of a path leads nowhere. -/
def NoDangling (limit : ℕ) (cwd : Location) (t : Volume α) (path : List Char) (d : Location) :
    Prop :=
  ∀ names target, t.find (d ++ names) = some (.link target) →
    (t.stat limit cwd (pathBelow path names)).isSome

private theorem iterateNames_begins {visit : Name → Option Listing} {names : List Name}
    {listing : Listing} (h : iterateNames visit (name :: names) = some listing) :
    ∃ first, visit name = some first ∧ first.1 <+: listing.1 := by
  rw [iterateNames, Option.bind_eq_bind, Option.bind_eq_some_iff] at h
  obtain ⟨⟨entries, completed⟩, hname, hrest⟩ := h
  refine ⟨_, hname, ?_⟩
  cases completed with
  | false =>
    obtain rfl := Option.some.inj hrest
    exact List.prefix_refl entries
  | true =>
    simp only [not_true_eq_false, if_false, Option.bind_eq_some_iff] at hrest
    obtain ⟨⟨more, completed⟩, -, hresult⟩ := hrest
    obtain rfl := Option.some.inj hresult
    exact List.prefix_append entries more

private theorem iterateNames_complete {visit : Name → Option Listing} {names : List Name}
    (hvisit : ∀ name ∈ names, ∀ listing, visit name = some listing → listing.2 = true)
    {listing : Listing} (h : iterateNames visit names = some listing) :
    listing.2 = true ∧ ∀ name ∈ names, ∃ part, visit name = some part ∧ part.1 ⊆ listing.1 := by
  induction names generalizing listing with
  | nil =>
    obtain rfl := Option.some.inj h
    exact ⟨rfl, by simp⟩
  | cons name names ih =>
    obtain ⟨hfirst, hothers⟩ := List.forall_mem_cons.mp hvisit
    rw [iterateNames, Option.bind_eq_bind, Option.bind_eq_some_iff] at h
    obtain ⟨⟨entries, completed⟩, hname, hrest⟩ := h
    obtain rfl : completed = true := hfirst _ hname
    simp only [not_true_eq_false, if_false, Option.bind_eq_some_iff] at hrest
    obtain ⟨⟨more, completed⟩, hmore, hresult⟩ := hrest
    obtain rfl := Option.some.inj hresult
    obtain ⟨hcompleted, hparts⟩ := ih hothers hmore
    refine ⟨hcompleted, List.forall_mem_cons.mpr
      ⟨⟨_, hname, List.subset_append_left entries more⟩, fun name hmem => ?_⟩⟩
    obtain ⟨part, hpart, hsub⟩ := hparts name hmem
    exact ⟨part, hpart, List.subset_append_of_subset_right entries hsub⟩

theorem visitName_of_dir {fuel : ℕ} {part : Listing}
    (hlstat : t.lstat limit cwd (joinPath path name) = some .dir)
    (hstat : t.stat limit cwd (joinPath path name) = some .dir)
    (h : visitName limit cwd t true fuel path name = some part) :
    ∃ inner, iterateDirectory limit cwd t true fuel (joinPath path name) = some inner ∧
      part = (⟨joinPath path name, .directory⟩ :: inner.1, inner.2) := by
  have hentry : processEntry limit cwd t (joinPath path name) =
      some ⟨joinPath path name, .directory⟩ := by
    simp [processEntry, entryType, hstat]
  simp only [visitName, hentry, hlstat, and_self, if_true] at h
  obtain ⟨inner, hinner, hresult⟩ := Option.bind_eq_some_iff.mp h
  exact ⟨inner, hinner, (Option.some.inj hresult).symm⟩

theorem visitName_of_ne {fuel : ℕ} {entry : Entry α}
    (hlstat : t.lstat limit cwd (joinPath path name) ≠ some .dir)
    (hstat : t.stat limit cwd (joinPath path name) = some entry) :
    visitName limit cwd t recursive fuel path name =
      some ([⟨joinPath path name, entryType limit cwd t (joinPath path name)⟩], true) := by
  have hentry : processEntry limit cwd t (joinPath path name) =
      some ⟨joinPath path name, entryType limit cwd t (joinPath path name)⟩ := by
    simp [processEntry, hstat]
  simp only [visitName, hentry, hlstat, and_false, if_false]

theorem visitName_of_file {fuel : ℕ} {content : α}
    (hlstat : t.lstat limit cwd (joinPath path name) ≠ some .dir)
    (hstat : t.stat limit cwd (joinPath path name) = some (.file content)) :
    visitName limit cwd t recursive fuel path name =
      some ([⟨joinPath path name, .file⟩], true) := by
  rw [visitName_of_ne hlstat hstat]
  simp [entryType, hstat]

theorem lstat_joinPath {entry : Entry α} (hresolve : t.resolve limit cwd true path = some e)
    (hdir : t.find e = some .dir) (hfind : t.find (e ++ [name]) = some entry) :
    t.resolve limit cwd false (joinPath path name) = some (e ++ [name]) ∧
      t.lstat limit cwd (joinPath path name) = some entry := by
  obtain ⟨parent, hlists⟩ := lists_joinPath hresolve hdir (List.prefix_refl e)
    (mem_children.mpr ⟨entry, hfind⟩)
  exact ⟨hlists.resolve, lstat_eq_some_iff.mpr ⟨_, hlists.resolve, hfind⟩⟩

theorem stat_joinPath {entry : Entry α} (hresolve : t.resolve limit cwd true path = some e)
    (hdir : t.find e = some .dir) (hfind : t.find (e ++ [name]) = some entry)
    (hlink : ∀ target, entry ≠ .link target) :
    t.resolve limit cwd true (joinPath path name) = some (e ++ [name]) ∧
      t.stat limit cwd (joinPath path name) = some entry := by
  have hchild := (lstat_joinPath hresolve hdir hfind).1
  have hfollow := resolve_follow hchild (by simpa [hfind] using hlink)
  exact ⟨hfollow, stat_eq_some_iff.mpr ⟨_, hfollow, hfind⟩⟩

/-- Where no link leads nowhere, every regular file below is listed. -/
theorem complete_of_iterateDirectory {fuel : ℕ} {listing : Listing}
    (hresolve : t.resolve limit cwd true path = some e) (hdir : t.find e = some .dir)
    (hlinks : NoDangling limit cwd t path e)
    (h : iterateDirectory limit cwd t true fuel path = some listing) :
    listing.2 = true ∧ ∀ names content, t.find (e ++ names) = some (.file content) →
      ⟨pathBelow path names, .file⟩ ∈ listing.1 := by
  induction fuel generalizing path e listing with
  | zero => cases h
  | succ fuel ih =>
    rw [iterateDirectory_succ hresolve hdir] at h
    -- the visit of a subdirectory comes to its end and lists the files
    have hinner (name : Name) (hchild : t.find (e ++ [name]) = some .dir) (part : Listing)
        (hpart : visitName limit cwd t true fuel path name = some part) :
        part.2 = true ∧ ∀ names content, t.find (e ++ name :: names) = some (.file content) →
          ⟨pathBelow path (name :: names), .file⟩ ∈ part.1 := by
      obtain ⟨-, hlstat⟩ := lstat_joinPath hresolve hdir hchild
      obtain ⟨hfollow, hstat⟩ := stat_joinPath hresolve hdir hchild (by simp)
      obtain ⟨inner, hmore, rfl⟩ := visitName_of_dir hlstat hstat hpart
      obtain ⟨hcompleted, hfiles⟩ := ih hfollow hchild
        (fun names target hlink => hlinks (name :: names) target (by simpa using hlink)) hmore
      refine ⟨hcompleted, fun names content hfile => List.mem_cons_of_mem _ ?_⟩
      rw [List.append_cons] at hfile
      exact hfiles names content hfile
    have hcompleted : ∀ name ∈ t.children e, ∀ part,
        visitName limit cwd t true fuel path name = some part → part.2 = true := by
      intro name hname part hpart
      obtain ⟨entry, hentry⟩ := mem_children.mp hname
      obtain ⟨-, hlstat⟩ := lstat_joinPath hresolve hdir hentry
      cases entry with
      | dir => exact (hinner name hentry part hpart).1
      | file content =>
        obtain ⟨-, hstat⟩ := stat_joinPath hresolve hdir hentry (by simp)
        rw [visitName_of_ne (by simp [hlstat]) hstat] at hpart
        obtain rfl := Option.some.inj hpart
        rfl
      | link target =>
        obtain ⟨reached, hstat⟩ := Option.isSome_iff_exists.mp (hlinks [name] target hentry)
        rw [visitName_of_ne (by simp [hlstat]) hstat] at hpart
        obtain rfl := Option.some.inj hpart
        rfl
    obtain ⟨hlast, hparts⟩ := iterateNames_complete hcompleted h
    refine ⟨hlast, fun names content hfile => ?_⟩
    cases names with
    | nil =>
      rw [List.append_nil, hdir] at hfile
      cases hfile
    | cons name names =>
      by_cases hnil : names = []
      · subst hnil
        obtain ⟨part, hpart, hsub⟩ := hparts name (mem_children.mpr ⟨_, hfile⟩)
        obtain ⟨-, hlstat⟩ := lstat_joinPath hresolve hdir hfile
        obtain ⟨-, hstat⟩ := stat_joinPath hresolve hdir hfile (by simp)
        rw [visitName_of_file (by simp [hlstat]) hstat] at hpart
        obtain rfl := Option.some.inj hpart
        exact hsub List.mem_cons_self
      · have hchild : t.find (e ++ [name]) = some .dir := by
          rw [List.append_cons] at hfile
          exact find_above hfile hnil
        obtain ⟨part, hpart, hsub⟩ := hparts name (mem_children.mpr ⟨_, hchild⟩)
        exact hsub ((hinner name hchild part hpart).2 names content hfile)

/-- A file, or a link to one, is listed before all other files if the way to it comes first. -/
theorem first_of_iterateDirectory {fuel : ℕ} {names : List Name} {entry : Entry α} {content : α}
    {listing : Listing} (hresolve : t.resolve limit cwd true path = some e)
    (hdir : t.find e = some .dir)
    (hfirst : ∀ before name rest, names = before ++ name :: rest →
      ∃ others, t.children (e ++ before) = name :: others)
    (hfind : t.find (e ++ names) = some entry) (hentry : entry ≠ .dir)
    (hstat : t.stat limit cwd (pathBelow path names) = some (.file content))
    (h : iterateDirectory limit cwd t true fuel path = some listing) :
    ∃ before, (∀ other ∈ before, other.type ≠ .file) ∧
      before ++ [⟨pathBelow path names, .file⟩] <+: listing.1 := by
  induction fuel generalizing path e names listing with
  | zero => cases h
  | succ fuel ih =>
    cases names with
    | nil =>
      rw [List.append_nil, hdir] at hfind
      exact absurd (Option.some.inj hfind).symm hentry
    | cons name names =>
      obtain ⟨others, hothers⟩ := hfirst [] name names rfl
      rw [List.append_nil] at hothers
      rw [iterateDirectory_succ hresolve hdir, hothers] at h
      obtain ⟨part, hpart, hbegins⟩ := iterateNames_begins h
      by_cases hnil : names = []
      · subst hnil
        obtain ⟨-, hlstat⟩ := lstat_joinPath hresolve hdir hfind
        have hne : t.lstat limit cwd (joinPath path name) ≠ some .dir := by
          simpa [hlstat] using hentry
        rw [visitName_of_file hne hstat] at hpart
        obtain rfl := Option.some.inj hpart
        exact ⟨[], by simp, hbegins⟩
      · have hchild : t.find (e ++ [name]) = some .dir := by
          rw [List.append_cons] at hfind
          exact find_above hfind hnil
        obtain ⟨-, hlstat⟩ := lstat_joinPath hresolve hdir hchild
        obtain ⟨hfollow, hstatdir⟩ := stat_joinPath hresolve hdir hchild (by simp)
        obtain ⟨inner, hmore, rfl⟩ := visitName_of_dir hlstat hstatdir hpart
        obtain ⟨before, hbefore, hinner⟩ := ih hfollow hchild
          (fun before next rest hnames => by
            simpa using hfirst (name :: before) next rest (by rw [hnames, List.cons_append]))
          (by simpa using hfind) hstat hmore
        refine ⟨⟨joinPath path name, .directory⟩ :: before,
          List.forall_mem_cons.mpr ⟨by simp, hbefore⟩, ?_⟩
        exact ((List.prefix_cons_inj _).mpr hinner).trans hbegins

end DarwinCore.File
