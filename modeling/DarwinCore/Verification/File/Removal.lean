import DarwinCore.Model.File.FileManager
import DarwinCore.Verification.File.FilePath

/-! # `removeItemAtPath`

The paths of what a directory holds are built from the components of its own path, and whether a
path leads to a directory is asked through symbolic links. -/

namespace DarwinCore.File

open FileTree FileTree.Volume

variable {α : Type*} {limit : ℕ} {cwd : Location} {t t' : Volume α} {path : List Char}
  {components : List Name} {d e m : Location} {name : Name}

/-! ## Paths from the root -/

theorem splitOn_assemblyPath (h : Normal components) :
    (assemblyPath components).splitOn '/' = [] :: components := by
  have hslash : ∀ c ∈ [] :: components, '/' ∉ c :=
    List.forall_mem_cons.mpr ⟨by simp, fun c hc => (h.name c hc).2.2⟩
  rw [assemblyPath_eq, filePathSeparator, List.splitOn_intercalate '/' hslash (by simp)]

theorem head?_assemblyPath (components : List Name) (name : Name) :
    (assemblyPath (components ++ [name])).head? = some '/' := by
  rw [assemblyPath_eq]
  cases components <;> simp [filePathSeparator]

theorem resolve_assemblyPath {followLast : Bool} (h : Normal (components ++ [name])) :
    t.resolve limit cwd followLast (assemblyPath (components ++ [name])) = some m ↔
      Walks t followLast limit [] (components ++ [name]) m := by
  have hhead := head?_assemblyPath components name
  have hpath : assemblyPath (components ++ [name]) ≠ [] := by
    intro hnil
    rw [hnil] at hhead
    cases hhead
  rw [resolve_eq_some_iff, splitOn_assemblyPath h, start, if_pos hhead,
    walks_skip (.inl rfl)]
  exact ⟨fun hwalk => hwalk.2.2, fun hwalk => ⟨hpath, .inl hhead, hwalk⟩⟩

/-! ## What is listed -/

/-- The entry is one of those that `subpathsAtPath` gives. -/
def Visible (name : Name) : Prop :=
  name ∉ skippedNames

theorem mem_shown {names : List Name} :
    name ∈ names.filter (· ∉ skippedNames) ↔ name ∈ names ∧ Visible name := by
  simp [Visible]

theorem isItemExistsAtPath_eq_some_true :
    isItemExistsAtPath limit cwd t path = some true ↔
      ∃ e, t.resolve limit cwd true path = some e ∧ t.find e = some .dir := by
  simp only [isItemExistsAtPath, Option.map_eq_some_iff, stat_eq_some_iff]
  constructor
  · rintro ⟨entry, ⟨e, hresolve, hfind⟩, hdir⟩
    cases entry with
    | dir => exact ⟨e, hresolve, hfind⟩
    | file content => cases hdir
    | link target => cases hdir
  · rintro ⟨e, hresolve, hfind⟩
    exact ⟨.dir, ⟨e, hresolve, hfind⟩, rfl⟩

/-- Without a descriptor a directory seems to be empty. -/
theorem subpathsAtPath_zero : subpathsAtPath limit cwd 0 t path = ([], 0) := by
  rw [subpathsAtPath, opendir]
  split_ifs <;> rfl

theorem subpathsAtPath_succ (hresolve : t.resolve limit cwd true path = some e)
    (hdir : t.find e = some .dir) (fds : ℕ) : subpathsAtPath limit cwd (fds + 1) t path =
      (((t.children e).filter (· ∉ skippedNames)).map fun name =>
        assemblyPath ((FilePath.ofString path).mPathComponents ++ [name]), fds) := by
  have hpath := (resolve_eq_some_iff.mp hresolve).1
  have hexists := isItemExistsAtPath_eq_some_true.mpr ⟨e, hresolve, hdir⟩
  rw [subpathsAtPath, if_neg (by simp [hpath, hexists]), opendir, readdir_eq hresolve hdir]
  simp only [Option.map_some]
  rw [List.filter_cons_of_neg (by simp [skippedNames]),
    List.filter_cons_of_neg (by simp [skippedNames])]
  exact congrArg (·, fds) (List.map_congr_left fun name _ => append_eq _ name)

/-! ## The calls of a removal -/

/-- What a call of `removeItemAtPath` finds: the descriptors left, the tree and its path. -/
structure Call (α : Type*) where
  fds : ℕ
  tree : Volume α
  path : List Char

/-- The first call is, or makes itself or through others, the second one: those for the paths that
are listed before have succeeded. -/
inductive Makes (limit : ℕ) (cwd : Location) : Call α → Call α → Prop where
  | self (c : Call α) : Makes limit cwd c c
  | nested {fuel : ℕ} {c c' c'' : Call α} {before after : List (List Char)}
      (hlisted : (subpathsAtPath limit cwd c.fds c.tree c.path).1 = before ++ c'.path :: after)
      (hbefore : removeAll (removeItemAtPath limit cwd fuel)
        (subpathsAtPath limit cwd c.fds c.tree c.path).2 c.tree before =
          some (c'.tree, c'.fds, true))
      (hcall : Makes limit cwd c' c'') : Makes limit cwd c c''

theorem Makes.trans {c c' c'' : Call α} (h : Makes limit cwd c c') (h' : Makes limit cwd c' c'') :
    Makes limit cwd c c'' := by
  induction h with
  | self => exact h'
  | nested hlisted hbefore _ ih => exact .nested hlisted hbefore (ih h')

theorem makes_child {build : Name → List Char} {names before after : List Name}
    {fuel fds fds₁ fds₂ : ℕ} {t₁ : Volume α}
    (hlisted : subpathsAtPath limit cwd fds t path = (names.map build, fds₁))
    (hnames : names = before ++ name :: after)
    (hbefore : removeAll (removeItemAtPath limit cwd fuel)
      (names.map build, fds₁).2 t (before.map build) = some (t₁, fds₂, true)) :
    Makes limit cwd ⟨fds, t, path⟩ ⟨fds₂, t₁, build name⟩ := by
  have hsubpaths : (subpathsAtPath limit cwd fds t path).1 =
      before.map build ++ build name :: after.map build := by
    rw [hlisted, hnames, List.map_append, List.map_cons]
  rw [← hlisted] at hbefore
  exact .nested hsubpaths hbefore (.self _)

/-- The call finds a directory with visible entries at `e`. -/
structure FindsFull (limit : ℕ) (cwd : Location) (c : Call α) (e : Location) : Prop where
  stat : c.tree.resolve limit cwd true c.path = some e
  dir : c.tree.find e = some .dir
  visible : ∃ name ∈ c.tree.children e, Visible name

/-- If the call finds a directory with visible entries, and a descriptor for it, its path names that
directory itself, and the components of the path lead to it from the root. -/
def Straight (limit : ℕ) (cwd : Location) (c : Call α) : Prop :=
  0 < c.fds → ∀ e, FindsFull limit cwd c e →
    c.tree.resolve limit cwd false c.path = some e ∧
      Walks c.tree true limit [] (FilePath.ofString c.path).mPathComponents e

/-- No call leads the removal astray, to what a link leads to or to a path that is built wrong. -/
def Contained (limit : ℕ) (cwd : Location) (c : Call α) : Prop :=
  ∀ c', Makes limit cwd c c' → Straight limit cwd c'

theorem contained_of_nothing {c : Call α}
    (h : (subpathsAtPath limit cwd c.fds c.tree c.path).1 = []) : Contained limit cwd c := by
  intro c' hc
  cases hc with
  | nested hlisted => exact absurd (h.symm.trans hlisted) (by simp)
  | self =>
    rintro hfds e ⟨hresolve, hdir, name, hname, hvisible⟩
    obtain ⟨fds, hfds⟩ := Nat.exists_eq_add_of_lt hfds
    rw [hfds, Nat.zero_add, subpathsAtPath_succ hresolve hdir, List.map_eq_nil_iff] at h
    exact absurd (mem_shown.mpr ⟨hname, hvisible⟩) (h ▸ List.not_mem_nil)

/-! ## What is removed -/

/-- From `t` to `t'` entries at or below the item have gone, and nothing else has changed. -/
structure RemovedBelow (t t' : Volume α) (d : Location) (removed : Bool) : Prop where
  sub : t'.Sub t
  kept : ∀ m, ¬d <+: m → t'.find m = t.find m
  gone : removed = true → t'.find d = none

theorem removedBelow_refl (t : Volume α) (d : Location) : RemovedBelow t t d false :=
  ⟨.refl t, fun _ _ => rfl, by simp⟩

theorem removeAll_below {removeItem : ℕ → Volume α → List Char → Option (Volume α × ℕ × Bool)}
    {path : Name → List Char} {names : List Name} {fds : ℕ} (ht : t'.Sub t)
    (h : ∀ before name after fds₁ t₁, names = before ++ name :: after →
      removeAll removeItem fds t' (before.map path) = some (t₁, fds₁, true) → t₁.Sub t →
      ∃ t₂ fds₂ removed, removeItem fds₁ t₁ (path name) = some (t₂, fds₂, removed) ∧
        RemovedBelow t₁ t₂ (d ++ [name]) removed) :
    ∃ t'' fds'' removed, removeAll removeItem fds t' (names.map path) = some (t'', fds'', removed) ∧
      t''.Sub t' ∧ ∀ m, ¬d <+: m → t''.find m = t'.find m := by
  induction names generalizing fds t' with
  | nil => exact ⟨t', fds, true, rfl, .refl t', fun _ _ => rfl⟩
  | cons name names ih =>
    obtain ⟨t₁, fds₁, removed, hrun, hbelow⟩ := h [] name names fds t' rfl rfl ht
    have hkept (m : Location) (hm : ¬d <+: m) : t₁.find m = t'.find m :=
      hbelow.kept m fun hpre => hm ((List.prefix_append d [name]).trans hpre)
    rw [List.map_cons, removeAll, hrun]
    cases removed with
    | false => exact ⟨t₁, fds₁, false, rfl, hbelow.sub, hkept⟩
    | true =>
      obtain ⟨t₂, fds₂, removed, hrun', hsub, hkept'⟩ := ih (hbelow.sub.trans ht)
        fun before next after fds₂ t₂ hnames hbefore => by
          refine h (name :: before) next after fds₂ t₂ (congrArg _ hnames) ?_
          rw [List.map_cons, removeAll, hrun]
          exact hbefore
      exact ⟨t₂, fds₂, removed, hrun', hsub.trans hbelow.sub,
        fun m hm => (hkept' m hm).trans (hkept m hm)⟩

theorem RemovedBelow.after {t₁ t₂ : Volume α} {removed : Bool} (h : RemovedBelow t₁ t₂ d removed)
    (hsub : t₁.Sub t) (hkept : ∀ m, ¬d <+: m → t₁.find m = t.find m) :
    RemovedBelow t t₂ d removed :=
  ⟨h.sub.trans hsub, fun m hm => (h.kept m hm).trans (hkept m hm), h.gone⟩

theorem removedBelow_remove (ht : t'.Sub t) (hitem : t.resolve limit cwd false path = some d) :
    RemovedBelow t' (t'.remove limit cwd path).1 d (t'.remove limit cwd path).2 := by
  obtain hfails | ⟨l, hresolve, -, -, hfind⟩ := @remove_spec α limit cwd t' path
  · rw [hfails]
    exact removedBelow_refl t' d
  · obtain rfl : l = d := Option.some.inj ((resolve_mono ht hresolve).symm.trans hitem)
    refine ⟨fun m e he => ?_, fun m hm => ?_, fun _ => ?_⟩
    · rw [hfind] at he
      split_ifs at he
      exact he
    · rw [hfind, if_neg]
      rintro rfl
      exact hm (List.prefix_refl _)
    · rw [hfind, if_pos rfl]

theorem removeItemAtPath_below {fuel fds : ℕ} (ht : t'.Sub t)
    (hpath : Contained limit cwd ⟨fds, t', path⟩)
    (hitem : t.resolve limit cwd false path = some d) (hfuel : t.depth < fuel + d.length) :
    ∃ t'' fds' removed,
      removeItemAtPath limit cwd fuel fds t' path = some (t'', fds', removed) ∧
        RemovedBelow t' t'' d removed := by
  induction fuel generalizing fds t' path d with
  | zero =>
    obtain ⟨e, he⟩ := resolve_found hitem
    have hle := length_le_depth he
    omega
  | succ fuel ih =>
    rw [removeItemAtPath]
    cases hexists : isItemExistsAtPath limit cwd t' path with
    | none => exact ⟨t', fds, false, rfl, removedBelow_refl t' d⟩
    | some isDir =>
      cases isDir with
      | false => exact ⟨_, _, _, rfl, removedBelow_remove ht hitem⟩
      | true =>
        obtain ⟨e, hresolve, hdir⟩ := isItemExistsAtPath_eq_some_true.mp hexists
        obtain ⟨t₁, fds₁, removed, hrun, hsub, hkept⟩ : ∃ t₁ fds₁ removed,
            removeAll (removeItemAtPath limit cwd fuel) (subpathsAtPath limit cwd fds t' path).2 t'
              (subpathsAtPath limit cwd fds t' path).1 = some (t₁, fds₁, removed) ∧
            t₁.Sub t' ∧ ∀ m, ¬d <+: m → t₁.find m = t'.find m := by
          cases fds with
          | zero =>
            rw [subpathsAtPath_zero]
            exact ⟨t', 0, true, rfl, .refl t', fun _ _ => rfl⟩
          | succ fds =>
            have hlisted := subpathsAtPath_succ hresolve hdir fds
            rw [hlisted]
            refine removeAll_below ht fun before name after fds₁ t₁ hnames hbefore ht₁ => ?_
            obtain ⟨hname, hvisible⟩ :=
              mem_shown.mp (hnames ▸ List.mem_append_right before List.mem_cons_self)
            obtain ⟨hself, hwalk⟩ :=
              hpath _ (.self _) (Nat.succ_pos fds) e ⟨hresolve, hdir, name, hname, hvisible⟩
            obtain rfl : e = d := Option.some.inj ((resolve_mono ht hself).symm.trans hitem)
            obtain ⟨entry, hfind⟩ := mem_children.mp (ht.children hname)
            have hnormal := (extract_spec path).1.concat (plainName hfind)
            have hmakes := makes_child hlisted hnames hbefore
            refine ih ht₁ (fun c hc => hpath c (hmakes.trans hc))
              ((resolve_assemblyPath hnormal).mpr ((hwalk.mono ht).child (ht _ _ hdir) hfind)) ?_
            rw [List.length_append, List.length_singleton]
            omega
        simp only [if_true, hrun]
        cases removed with
        | false => exact ⟨t₁, fds₁, false, rfl, hsub, hkept, by simp⟩
        | true =>
          exact ⟨_, _, _, rfl, (removedBelow_remove (hsub.trans ht) hitem).after hsub hkept⟩

theorem removeAll_mono {f g : ℕ → Volume α → List Char → Option (Volume α × ℕ × Bool)}
    (h : ∀ fds t path r, f fds t path = some r → g fds t path = some r) {fds : ℕ} {t : Volume α}
    {paths : List (List Char)} {r : Volume α × ℕ × Bool} (hrun : removeAll f fds t paths = some r) :
    removeAll g fds t paths = some r := by
  induction paths generalizing fds t with
  | nil => exact hrun
  | cons path paths ih =>
    rw [removeAll, Option.bind_eq_bind, Option.bind_eq_some_iff] at hrun ⊢
    obtain ⟨⟨t₁, fds₁, removed⟩, hfirst, hrest⟩ := hrun
    refine ⟨(t₁, fds₁, removed), h _ _ _ _ hfirst, ?_⟩
    cases removed with
    | false => exact hrest
    | true => exact ih hrest

theorem removeItemAtPath_mono {fuel fuel' fds : ℕ} {r : Volume α × ℕ × Bool} (hle : fuel ≤ fuel')
    (hrun : removeItemAtPath limit cwd fuel fds t path = some r) :
    removeItemAtPath limit cwd fuel' fds t path = some r := by
  induction fuel generalizing fuel' fds t path r with
  | zero => cases hrun
  | succ fuel ih =>
    obtain ⟨fuel', rfl⟩ : ∃ k, fuel' = k + 1 := ⟨fuel' - 1, by omega⟩
    have hmono (fds : ℕ) (t : Volume α) (path : List Char) (r : Volume α × ℕ × Bool) :
        removeItemAtPath limit cwd fuel fds t path = some r →
          removeItemAtPath limit cwd fuel' fds t path = some r := ih (by omega)
    rw [removeItemAtPath] at hrun ⊢
    cases hexists : isItemExistsAtPath limit cwd t path with
    | none => simpa [hexists] using hrun
    | some isDir =>
      rw [hexists] at hrun
      cases isDir with
      | false => exact hrun
      | true =>
        simp only [if_true, Option.bind_eq_bind, Option.bind_eq_some_iff] at hrun ⊢
        obtain ⟨r₁, hloop, hrest⟩ := hrun
        exact ⟨r₁, removeAll_mono hmono hloop, hrest⟩

/-- What removal promises: only entries at or below the item have gone, and it if the call says
so. -/
structure OnlyTarget (limit : ℕ) (cwd : Location) (t : Volume α) (path : List Char) (t' : Volume α)
    (removed : Bool) : Prop where
  only : ∀ m, t'.find m ≠ t.find m → t'.find m = none ∧
    ∃ d, t.resolve limit cwd false path = some d ∧ d <+: m
  gone : removed = true → ∃ d, t.resolve limit cwd false path = some d ∧ t'.find d = none

theorem RemovedBelow.onlyTarget {removed : Bool} (h : RemovedBelow t t' d removed)
    (hitem : t.resolve limit cwd false path = some d) :
    OnlyTarget limit cwd t path t' removed := by
  refine ⟨fun m hm => ⟨?_, d, hitem, ?_⟩, fun hremoved => ⟨d, hitem, h.gone hremoved⟩⟩
  · cases hfind : t'.find m with
    | none => rfl
    | some e => exact absurd (hfind.trans (h.sub m e hfind).symm) hm
  · by_contra hpre
    exact hm (h.kept m hpre)

/-- Removal touches only its target, and if it succeeds the target is gone. -/
theorem removal_touches_target {fds : ℕ} (hpath : Contained limit cwd ⟨fds, t, path⟩) :
    ∃ t' fds' removed,
      (∀ fuel, t.depth < fuel →
        removeItemAtPath limit cwd fuel fds t path = some (t', fds', removed)) ∧
        OnlyTarget limit cwd t path t' removed := by
  suffices h : ∃ t' fds' removed,
      removeItemAtPath limit cwd (t.depth + 1) fds t path = some (t', fds', removed) ∧
        OnlyTarget limit cwd t path t' removed by
    obtain ⟨t', fds', removed, hrun, honly⟩ := h
    exact ⟨t', fds', removed, fun fuel hfuel => removeItemAtPath_mono hfuel hrun, honly⟩
  cases hitem : t.resolve limit cwd false path with
  | none =>
      have hexists : isItemExistsAtPath limit cwd t path = none := by
        cases hresolve : t.resolve limit cwd true path with
        | none => simp [isItemExistsAtPath, stat, hresolve]
        | some e =>
            obtain ⟨m, hm, -⟩ := resolve_last hresolve
            rw [hitem] at hm
            cases hm
      exact ⟨t, fds, false, by rw [removeItemAtPath, hexists], by simp, by simp⟩
  | some d =>
      obtain ⟨t', fds', removed, hrun, hbelow⟩ :=
        removeItemAtPath_below (.refl t) hpath hitem (by omega : t.depth < t.depth + 1 + d.length)
      exact ⟨t', fds', removed, hrun, hbelow.onlyTarget hitem⟩

/-- In `/d` a file is listed first, then a directory that cannot be removed, then a link to `/e`. -/
def stuck : Volume ℕ where
  entries := [([['d']], .dir), ([['d'], ['b']], .file 0), ([['d'], ['a']], .dir),
    ([['d'], ['a'], ['.', 'D', 'S', '_', 'S', 't', 'o', 'r', 'e']], .file 1),
    ([['d'], ['z']], .link ['/', 'e']), ([['e']], .dir), ([['e'], ['x']], .file 2)]
  nodup := by decide
  plain := by decide
  closed := by decide

/-- Once the file is gone. -/
def stuckThen : Volume ℕ :=
  (stuck.remove 8 [] ['/', 'd', '/', 'b']).1

theorem stuck_first {fuel fds : ℕ} {t : Volume ℕ} {removed : Bool}
    (h : removeItemAtPath 8 [] fuel 4 stuck ['/', 'd', '/', 'b'] = some (t, fds, removed)) :
    t = stuckThen ∧ fds = 4 ∧ removed = true := by
  cases fuel with
  | zero => cases h
  | succ fuel =>
    have hexists : isItemExistsAtPath 8 [] stuck ['/', 'd', '/', 'b'] = some false := by decide
    rw [removeItemAtPath, hexists] at h
    simp only [Bool.false_eq_true, not_true_eq_false, if_false, Option.bind_eq_bind,
      Option.bind_some] at h
    obtain ⟨htree, hresult⟩ := Prod.mk.inj (Option.some.inj h)
    obtain ⟨rfl, rfl⟩ := Prod.mk.inj hresult
    exact ⟨htree.symm, rfl, by decide⟩

theorem stuck_second {fuel fds : ℕ} {t : Volume ℕ} {removed : Bool}
    (h : removeItemAtPath 8 [] fuel 4 stuckThen ['/', 'd', '/', 'a'] = some (t, fds, removed)) :
    removed = false := by
  cases fuel with
  | zero => cases h
  | succ fuel =>
    have hexists : isItemExistsAtPath 8 [] stuckThen ['/', 'd', '/', 'a'] = some true := by decide
    have hlisted : subpathsAtPath 8 [] 4 stuckThen ['/', 'd', '/', 'a'] = ([], 3) := by decide
    have hremove : (stuckThen.remove 8 [] ['/', 'd', '/', 'a']).2 = false := by decide
    rw [removeItemAtPath, hexists] at h
    simp only [if_true, hlisted, removeAll, Option.bind_eq_bind, Option.bind_some] at h
    simpa [hremove] using (congrArg (fun r => r.2.2) (Option.some.inj h)).symm

theorem stuck_contained : Contained 8 [] ⟨5, stuck, ['/', 'd']⟩ := by
  intro c hc
  cases hc with
  | self =>
    rintro _ e ⟨hresolve, -, -⟩
    have he : stuck.resolve 8 [] true ['/', 'd'] = some [['d']] := by decide
    obtain rfl := Option.some.inj (he.symm.trans hresolve)
    exact ⟨by decide, walks_of_walk (by decide)⟩
  | @nested fuel _ c' _ before after hlisted hbefore hcall =>
    have hsubpaths : subpathsAtPath 8 [] 5 stuck ['/', 'd'] =
        ([['/', 'd', '/', 'b'], ['/', 'd', '/', 'a'], ['/', 'd', '/', 'z']], 4) := by decide
    simp only [hsubpaths] at hlisted hbefore
    obtain ⟨fds, t, path⟩ := c'
    -- the call for the file, the call for the directory, which fails, and no other
    rcases before with - | ⟨first, before⟩
    · obtain ⟨rfl, -⟩ := List.cons.inj hlisted
      obtain ⟨rfl, rfl⟩ : stuck = t ∧ 4 = fds := by simpa [removeAll] using hbefore
      exact contained_of_nothing (by decide) c hcall
    · obtain ⟨hfile, hlisted⟩ := List.cons.inj hlisted
      rw [removeAll, Option.bind_eq_bind, Option.bind_eq_some_iff] at hbefore
      obtain ⟨⟨t₁, fds₁, removed⟩, hfirst, hrest⟩ := hbefore
      obtain ⟨rfl, rfl, rfl⟩ := stuck_first (hfile ▸ hfirst)
      rcases before with - | ⟨second, before⟩
      · obtain ⟨rfl, -⟩ := List.cons.inj hlisted
        obtain ⟨rfl, rfl⟩ : stuckThen = t ∧ 4 = fds := by simpa [removeAll] using hrest
        exact contained_of_nothing (by decide) c hcall
      · obtain ⟨hdir, -⟩ := List.cons.inj hlisted
        simp only [not_true_eq_false, if_false, removeAll, Option.bind_eq_bind,
          Option.bind_eq_some_iff] at hrest
        obtain ⟨⟨t₂, fds₂, removed⟩, hsecond, hrest⟩ := hrest
        obtain rfl := stuck_second (hdir ▸ hsecond)
        simp at hrest

/-- The file is removed and the link never come to. -/
theorem removal_touches_target_stuck :
    ∃ t' fds' removed, (∀ fuel, stuck.depth < fuel →
      removeItemAtPath 8 [] fuel 5 stuck ['/', 'd'] = some (t', fds', removed)) ∧
        OnlyTarget 8 [] stuck ['/', 'd'] t' removed :=
  removal_touches_target stuck_contained

/-- Two directories of one name, one of them in the working directory. -/
def sameNames : Volume ℕ where
  entries := [([['a']], .dir), ([['a'], ['d']], .dir), ([['a'], ['d'], ['x']], .file 1),
    ([['d']], .dir), ([['d'], ['x']], .file 2)]
  nodup := by decide
  plain := by decide
  closed := by decide

/-- With a relative path a file of the same name elsewhere is removed. -/
theorem relative_path_removes_elsewhere :
    ∃ t' fds' removed,
      removeItemAtPath 8 [['a']] 3 5 sameNames ['d'] = some (t', fds', removed) ∧
        ¬OnlyTarget 8 [['a']] sameNames ['d'] t' removed := by
  have hrun : (removeItemAtPath 8 [['a']] 3 5 sameNames ['d']).map
      (fun r => r.1.find [['d'], ['x']]) = some none := by decide
  obtain ⟨⟨t', fds', removed⟩, hresult, hfind⟩ := Option.map_eq_some_iff.mp hrun
  refine ⟨t', fds', removed, hresult, fun honly => ?_⟩
  have hchanged : t'.find [['d'], ['x']] ≠ sameNames.find [['d'], ['x']] := by
    rw [show t'.find [['d'], ['x']] = none from hfind]
    decide
  obtain ⟨-, d, hitem, hpre⟩ := honly.only _ hchanged
  have hd : sameNames.resolve 8 [['a']] false ['d'] = some [['a'], ['d']] := by decide
  obtain rfl := Option.some.inj (hd.symm.trans hitem)
  revert hpre
  decide

end DarwinCore.File
