import DarwinCore.Verification.File.Removal

/-! # `moveItem`

What is at the destination is removed before anything is known about the source. -/

namespace DarwinCore.File

open FileTree FileTree.Volume

variable {α : Type*} {limit : ℕ} {cwd : Location} {t t' : Volume α} {path : List Char}
  {components names : List Name} {d e f m : Location} {name : Name} {fuel fds : ℕ}

/-! ## Trees without an item -/

/-- The tree without the entries at or below `d`. -/
def without (t : Volume α) (d : Location) : Volume α :=
  t.restrict (fun l => ¬d <+: l) fun l hl hpre => hl (hpre.trans (List.dropLast_prefix l))

private theorem find_without (hd : d ≠ []) (m : Location) :
    (without t d).find m = if d <+: m then none else t.find m := by
  rw [without, find_restrict _ (by simpa using hd)]
  split_ifs <;> rfl

/-- The tree without the entries below `d`. -/
def emptied (t : Volume α) (d : Location) : Volume α :=
  t.restrict (fun l => d <+: l → l = d) fun l hl hpre => by
    obtain rfl := hl (hpre.trans (List.dropLast_prefix l))
    exact hpre.eq_of_length_le (by simp) |>.symm

private theorem find_emptied (m : Location) :
    (emptied t d).find m = if d <+: m ∧ m ≠ d then none else t.find m := by
  rw [emptied, find_restrict _ fun hd => (List.prefix_nil.mp hd).symm]
  by_cases hm : d <+: m <;> by_cases hd : m = d <;> simp [hm, hd]

theorem normal_ofString (path : List Char) : Normal (FilePath.ofString path).mPathComponents :=
  (extract_spec path).1

private theorem lastSegment_assemblyPath (h : Normal (components ++ [name])) :
    lastSegment (assemblyPath (components ++ [name])) = name := by
  have hne : (components ++ [name]).filter (· ≠ []) = components ++ [name] :=
    List.filter_eq_self.mpr fun c hc => by simpa using (h.name c hc).1
  rw [lastSegment, splitOn_assemblyPath h, List.filter_cons_of_neg (by simp), hne]
  simp

/-! ## A removal that succeeds -/

theorem exists_of_isItemExistsAtPath (h : (isItemExistsAtPath limit cwd t path).isSome) :
    ∃ e, t.resolve limit cwd true path = some e := by
  rw [isItemExistsAtPath, Option.isSome_map] at h
  obtain ⟨entry, hentry⟩ := Option.isSome_iff_exists.mp h
  obtain ⟨e, he, -⟩ := stat_eq_some_iff.mp hentry
  exact ⟨e, he⟩

/-- The call can do its part: its path names something, and does so too once what is below is gone;
it lists all there is below; and if it finds a directory with entries, a descriptor is left, and the
directory is the item itself, to which the components of the path lead. -/
structure Able (limit : ℕ) (cwd : Location) (c : Call α) : Prop where
  found : (isItemExistsAtPath limit cwd c.tree c.path).isSome
  lasting : ∀ m, c.tree.resolve limit cwd false c.path = some m →
    (emptied c.tree m).resolve limit cwd false c.path = some m
  shown : ∀ m, c.tree.resolve limit cwd false c.path = some m →
    ∀ name ∈ c.tree.children m, Visible name
  descriptor : ∀ e, FindsFull limit cwd c e → 0 < c.fds
  straight : Straight limit cwd c

/-- All calls of the removal can do their parts. -/
def Clear (limit : ℕ) (cwd : Location) (c : Call α) : Prop :=
  ∀ c', Makes limit cwd c c' → Able limit cwd c'

private theorem subpathsAtPath_eq (hresolve : t.resolve limit cwd true path = some e)
    (hdir : t.find e = some .dir) (hfds : (∃ name ∈ t.children e, Visible name) → 0 < fds) :
    subpathsAtPath limit cwd fds t path =
      (((t.children e).filter (· ∉ skippedNames)).map fun name =>
        assemblyPath ((FilePath.ofString path).mPathComponents ++ [name]), fds - 1) := by
  cases fds with
  | succ fds => exact subpathsAtPath_succ hresolve hdir fds
  | zero =>
    have hnone : (t.children e).filter (· ∉ skippedNames) = [] :=
      List.eq_nil_iff_forall_not_mem.mpr fun name hname =>
        absurd (hfds ⟨name, mem_shown.mp hname⟩) (Nat.lt_irrefl 0)
    rw [subpathsAtPath_zero, hnone]
    rfl

private theorem sub_of_find {p : Location → Prop} [DecidablePred p]
    (h : ∀ m, t'.find m = if p m then none else t.find m) : t'.Sub t := by
  intro m entry hentry
  rw [h] at hentry
  split_ifs at hentry
  exact hentry

private theorem removeAll_all {removeItem : ℕ → Volume α → List Char → Option (Volume α × ℕ × Bool)}
    {build : Name → List Char} {names : List Name} (ht : t'.Sub t)
    (h : ∀ before name after fds₁ t₁, names = before ++ name :: after →
      removeAll removeItem fds t' (before.map build) = some (t₁, fds₁, true) → t₁.Sub t →
      ∃ t₂ fds₂, removeItem fds₁ t₁ (build name) = some (t₂, fds₂, true) ∧
        ∀ m, t₂.find m = if d ++ [name] <+: m then none else t₁.find m) :
    ∃ t'' fds'', removeAll removeItem fds t' (names.map build) = some (t'', fds'', true) ∧
      ∀ m, t''.find m = if ∃ name ∈ names, d ++ [name] <+: m then none else t'.find m := by
  induction names generalizing fds t' with
  | nil => exact ⟨t', fds, rfl, by simp⟩
  | cons name names ih =>
    obtain ⟨t₁, fds₁, hrun, hfind⟩ := h [] name names fds t' rfl rfl ht
    have hnext (before : List Name) (r : Option (Volume α × ℕ × Bool))
        (hbefore : removeAll removeItem fds₁ t₁ (before.map build) = r) :
        removeAll removeItem fds t' ((name :: before).map build) = r := by
      rw [List.map_cons, removeAll, hrun]
      exact hbefore
    obtain ⟨t₂, fds₂, hrun', hfind'⟩ := ih ((sub_of_find hfind).trans ht)
      fun before next after fds₂ t₂ hnames hbefore =>
        h (name :: before) next after fds₂ t₂ (congrArg _ hnames) (hnext before _ hbefore)
    refine ⟨t₂, fds₂, hnext names _ hrun', fun m => ?_⟩
    rw [hfind', hfind]
    simp only [List.mem_cons, exists_eq_or_imp]
    by_cases h1 : d ++ [name] <+: m <;> simp [h1]

/-- An entry below comes with an entry in the directory. -/
theorem exists_child {entry : Entry α} (hfind : t.find m = some entry) (hpre : d <+: m)
    (hne : m ≠ d) :
    ∃ name ∈ t.children d, d ++ [name] <+: m := by
  obtain ⟨r, rfl⟩ := hpre
  cases r with
  | nil => exact absurd (List.append_nil d) hne
  | cons name r =>
    rw [List.append_cons] at hfind
    refine ⟨name, mem_children.mpr ?_, r, by simp⟩
    cases r with
    | nil => exact ⟨entry, by simpa using hfind⟩
    | cons next r => exact ⟨.dir, find_above hfind (by simp)⟩

/-- Without the children there is nothing below. -/
theorem find_childless {t₁ : Volume α} (h : ∀ m, t₁.find m =
    if ∃ name ∈ t.children d, d ++ [name] <+: m then none else t.find m) (m : Location) :
    t₁.find m = if d <+: m ∧ m ≠ d then none else t.find m := by
  rw [h]
  by_cases hm : d <+: m ∧ m ≠ d
  · rw [if_pos hm]
    split_ifs with hchild
    · rfl
    · refine Option.eq_none_iff_forall_not_mem.mpr fun entry hentry => hchild ?_
      exact exists_child hentry hm.1 hm.2
  · rw [if_neg hm, if_neg]
    rintro ⟨name, -, hpre⟩
    refine hm ⟨(List.prefix_append d _).trans hpre, ?_⟩
    rintro rfl
    have hlength := hpre.length_le
    rw [List.length_append, List.length_singleton] at hlength
    omega

private theorem removeItemAtPath_clear (ht : t'.Sub t) (hclear : Clear limit cwd ⟨fds, t', path⟩)
    (hitem : t.resolve limit cwd false path = some d) (hd : d ≠ [])
    (hdot : lastSegment path ≠ ['.']) (hfuel : t.depth < fuel + d.length) :
    ∃ t'' fds', removeItemAtPath limit cwd fuel fds t' path = some (t'', fds', true) ∧
      ∀ m, t''.find m = if d <+: m then none else t'.find m := by
  induction fuel generalizing fds t' path d with
  | zero =>
    obtain ⟨e, he⟩ := resolve_found hitem
    have hle := length_le_depth he
    omega
  | succ fuel ih =>
    obtain ⟨hfound, hlasting, hshown, hdescriptor, hstraight⟩ := hclear _ (.self _)
    obtain ⟨isDir, hexists⟩ := Option.isSome_iff_exists.mp hfound
    obtain ⟨e, hresolve⟩ := exists_of_isItemExistsAtPath hfound
    obtain ⟨m, hm, hlast⟩ := resolve_last hresolve
    obtain rfl : d = m := Option.some.inj (hitem.symm.trans (resolve_mono ht hm))
    -- what is left to do once nothing is below
    have hremove {t₁ : Volume α} (ht₁ : ∀ l, t₁.find l =
        if d <+: l ∧ l ≠ d then none else t'.find l) : ∃ t'',
          t₁.remove limit cwd path = (t'', true) ∧
            ∀ l, t''.find l = if d <+: l then none else t'.find l := by
      have hsub : (emptied t' d).Sub t₁ := fun l entry hentry => by
        rwa [ht₁, ← find_emptied]
      obtain ⟨t'', hremoved, hfind⟩ := remove_of_removable hdot
        (resolve_mono hsub (hlasting d hm)) ⟨hd, leaf_of_find fun l hpre hne => by
          rw [ht₁, if_pos ⟨hpre, hne⟩]⟩
      refine ⟨t'', hremoved, fun l => ?_⟩
      rw [hfind, ht₁]
      by_cases hl : l = d
      · rw [if_pos hl, if_pos (hl ▸ List.prefix_refl _)]
      · simp [hl]
    have hbare (h : t'.find d = some .dir → ∀ name, name ∉ t'.children d) (l : Location) :
        t'.find l = if d <+: l ∧ l ≠ d then none else t'.find l := by
      split_ifs with hl
      · by_cases hdir : t'.find d = some .dir
        · refine Option.eq_none_iff_forall_not_mem.mpr fun entry hentry => ?_
          obtain ⟨name, hname, -⟩ := exists_child hentry hl.1 hl.2
          exact h hdir name hname
        · exact find_below hdir hl.1 hl.2
      · rfl
    have hself (hdir : t'.find d = some .dir) : d = e := by
      refine hlast.resolve_right ?_
      rintro ⟨target, -, -, hlink, -⟩
      rw [hdir] at hlink
      cases hlink
    rw [removeItemAtPath, hexists]
    cases isDir with
    | false =>
      have hnone : t'.find d ≠ some .dir := by
        intro hdir
        obtain rfl := hself hdir
        have htrue := isItemExistsAtPath_eq_some_true.mpr ⟨d, hresolve, hdir⟩
        rw [hexists] at htrue
        cases htrue
      obtain ⟨t'', hremoved, hfind⟩ := hremove (hbare fun hdir => absurd hdir hnone)
      exact ⟨t'', fds, by simp [hremoved], hfind⟩
    | true =>
      obtain ⟨e', hresolve', hdir⟩ := isItemExistsAtPath_eq_some_true.mp hexists
      obtain rfl : e' = e := Option.some.inj (hresolve'.symm.trans hresolve)
      have hlisted := subpathsAtPath_eq hresolve hdir fun hvisible =>
        hdescriptor e' ⟨hresolve, hdir, hvisible⟩
      obtain ⟨t₁, fds₁, hloop, ht₁⟩ : ∃ t₁ fds₁, removeAll (removeItemAtPath limit cwd fuel)
          (subpathsAtPath limit cwd fds t' path).2 t' (subpathsAtPath limit cwd fds t' path).1 =
            some (t₁, fds₁, true) ∧
          ∀ l, t₁.find l = if d <+: l ∧ l ≠ d then none else t'.find l := by
        rw [hlisted]
        by_cases hfull : ∃ name ∈ t'.children e', Visible name
        · have hfinds : FindsFull limit cwd ⟨fds, t', path⟩ e' := ⟨hresolve, hdir, hfull⟩
          obtain ⟨hitem', hwalk⟩ := hstraight (hdescriptor e' hfinds) e' hfinds
          obtain rfl : d = e' := Option.some.inj (hm.symm.trans hitem')
          have hall : (t'.children d).filter (· ∉ skippedNames) = t'.children d :=
            List.filter_eq_self.mpr fun name hname => decide_eq_true (hshown d hm name hname)
          rw [hall] at hlisted ⊢
          refine Exists.imp (fun t₁ => Exists.imp fun fds₁ => And.imp_right find_childless)
            (removeAll_all ht fun before name after fds₁ t₁ hnames hbefore ht₁ => ?_)
          have hname : name ∈ t'.children d :=
            hnames ▸ List.mem_append_right before List.mem_cons_self
          obtain ⟨entry, hentry⟩ := mem_children.mp (ht.children hname)
          have hnormal := (normal_ofString path).concat (plainName hentry)
          have hmakes := makes_child hlisted hnames hbefore
          refine ih ht₁ (fun c hc => hclear c (hmakes.trans hc))
            ((resolve_assemblyPath hnormal).mpr ((hwalk.mono ht).child (ht _ _ hdir) hentry))
            (by simp) ?_ ?_
          · rw [lastSegment_assemblyPath hnormal]
            exact (plainName hentry).dot
          · rw [List.length_append, List.length_singleton]
            omega
        · have hempty : (t'.children e').filter (· ∉ skippedNames) = [] :=
            List.eq_nil_iff_forall_not_mem.mpr fun name hname =>
              hfull ⟨name, mem_shown.mp hname⟩
          rw [hempty]
          refine ⟨t', fds - 1, rfl, hbare fun hdir' name hname => hfull ⟨name, ?_, ?_⟩⟩
          · rwa [← hself hdir']
          · exact hshown d hm name hname
      obtain ⟨t'', hremoved, hfind⟩ := hremove ht₁
      refine ⟨t'', fds₁, ?_, hfind⟩
      simp only [if_true, hloop]
      simp [hremoved]

/-! ## A removal that fails at once -/

/-- The removal fails before anything is gone: what is first come to cannot be removed. -/
inductive Stuck (limit : ℕ) (cwd : Location) : Call α → Prop where
  | missing {c : Call α} (h : isItemExistsAtPath limit cwd c.tree c.path = none) :
      Stuck limit cwd c
  | kept {c : Call α} (hlisted : (subpathsAtPath limit cwd c.fds c.tree c.path).1 = [])
      (hremove : c.tree.remove limit cwd c.path = (c.tree, false)) : Stuck limit cwd c
  | first {c : Call α} {sp : List Char} {rest : List (List Char)}
      (hlisted : (subpathsAtPath limit cwd c.fds c.tree c.path).1 = sp :: rest)
      (h : Stuck limit cwd ⟨(subpathsAtPath limit cwd c.fds c.tree c.path).2, c.tree, sp⟩) :
      Stuck limit cwd c

private theorem isItemExistsAtPath_of_listed {sp : List Char} {rest : List (List Char)}
    (h : (subpathsAtPath limit cwd fds t path).1 = sp :: rest) :
    isItemExistsAtPath limit cwd t path = some true := by
  by_contra hnone
  rw [subpathsAtPath, if_pos (.inr hnone)] at h
  cases h

theorem Stuck.fails {c : Call α} (h : Stuck limit cwd c) : ∃ n fds', ∀ fuel, n ≤ fuel →
    removeItemAtPath limit cwd fuel c.fds c.tree c.path = some (c.tree, fds', false) := by
  induction h with
  | @missing c h =>
    refine ⟨1, c.fds, fun fuel hfuel => ?_⟩
    obtain ⟨fuel, rfl⟩ := Nat.exists_eq_add_of_le' hfuel
    rw [removeItemAtPath, h]
  | @kept c hlisted hremove =>
    have hrun : ∃ fds', ∀ fuel,
        removeItemAtPath limit cwd (fuel + 1) c.fds c.tree c.path = some (c.tree, fds', false) := by
      cases hexists : isItemExistsAtPath limit cwd c.tree c.path with
      | none => exact ⟨c.fds, fun fuel => by rw [removeItemAtPath, hexists]⟩
      | some isDir =>
        cases isDir with
        | false =>
          refine ⟨c.fds, fun fuel => ?_⟩
          rw [removeItemAtPath, hexists]
          simp [hremove]
        | true =>
          refine ⟨(subpathsAtPath limit cwd c.fds c.tree c.path).2, fun fuel => ?_⟩
          rw [removeItemAtPath, hexists]
          simp [hlisted, removeAll, hremove]
    obtain ⟨fds', hrun⟩ := hrun
    refine ⟨1, fds', fun fuel hfuel => ?_⟩
    obtain ⟨fuel, rfl⟩ := Nat.exists_eq_add_of_le' hfuel
    exact hrun fuel
  | @first c sp rest hlisted h ih =>
    obtain ⟨n, fds', hrun⟩ := ih
    refine ⟨n + 1, fds', fun fuel hfuel => ?_⟩
    obtain ⟨fuel, rfl⟩ := Nat.exists_eq_add_of_le' (Nat.one_le_of_lt hfuel)
    rw [removeItemAtPath, isItemExistsAtPath_of_listed hlisted]
    simp only [if_true, hlisted, removeAll, hrun fuel (by omega)]
    rfl

/-! ## Moving -/

section Moving

variable {fromPath toPath : List Char} {cover : Bool}

/-- What `moveItem` promises: all or nothing. -/
structure MoveOutcome (limit : ℕ) (cwd : Location) (t : Volume α) (fromPath toPath : List Char)
    (t' : Volume α) (moved : Bool) : Prop where
  failed : moved = false → ∀ m, t'.find m = t.find m
  moved : moved = true → ∃ f d, t.resolve limit cwd false fromPath = some f ∧
    t.place limit cwd toPath = some d ∧ f ≠ d ∧ t'.find f = none ∧ ∀ m, t'.find m =
      if d <+: m then t.find (f ++ m.drop d.length) else if f <+: m then none else t.find m

/-- The destination can be swept away, and then the source can be renamed to it. -/
def Coverable (limit : ℕ) (cwd : Location) (fds : ℕ) (t : Volume α)
    (fromPath toPath : List Char) : Prop :=
  ∃ f d, t.resolve limit cwd false toPath = some d ∧ d ≠ [] ∧ lastSegment toPath ≠ ['.'] ∧
    Clear limit cwd ⟨fds, t, toPath⟩ ∧
    (isItemExistsAtPath limit cwd (without t d) fromPath).isSome ∧
    Renamable limit cwd (without t d) fromPath toPath f d

/-- Where `moveItem` does what it promises: nothing is at the destination, which is not the place of
the source, or what is there is not to be covered, or it can be. -/
def MoveSafe (limit : ℕ) (cwd : Location) (fds : ℕ) (t : Volume α) (fromPath toPath : List Char)
    (cover : Bool) : Prop :=
  if (isItemExistsAtPath limit cwd t toPath).isSome then
    cover = false ∨ Stuck limit cwd ⟨fds, t, toPath⟩ ∨ Coverable limit cwd fds t fromPath toPath
  else
    (isItemExistsAtPath limit cwd t fromPath).isSome →
      ∀ f, t.resolve limit cwd false fromPath = some f → t.place limit cwd toPath ≠ some f

theorem moveOutcome_refl (t : Volume α) : MoveOutcome limit cwd t fromPath toPath t false :=
  ⟨fun _ _ => rfl, by simp⟩

private theorem renameItem_outcome (h : (isItemExistsAtPath limit cwd t fromPath).isSome →
    ∀ f, t.resolve limit cwd false fromPath = some f → t.place limit cwd toPath ≠ some f) :
    MoveOutcome limit cwd t fromPath toPath (renameItem limit cwd t fromPath toPath).1
      (renameItem limit cwd t fromPath toPath).2 := by
  unfold renameItem
  split_ifs with hempty hsource htarget
  · exact moveOutcome_refl t
  · exact moveOutcome_refl t
  · exact moveOutcome_refl t
  · obtain hfails | ⟨f, d, hf, hd, hresult, ⟨rfl, -⟩ | ⟨hmovable, hmove⟩⟩ :=
      @rename_spec α limit cwd t fromPath toPath
    · rw [hfails]
      exact moveOutcome_refl t
    · exact absurd hd (h (Option.isSome_iff_ne_none.mpr (by simpa using hsource)) f hf)
    · rw [hresult, hmove]
      obtain ⟨entry, hentry⟩ := resolve_found hf
      refine ⟨by simp, fun _ => ⟨f, d, hf, hd, hmovable.ne, ?_, find_move hmovable⟩⟩
      rw [find_move, if_neg (hmovable.not_above hentry), if_pos (List.prefix_refl f)]

private theorem isItemExistsAtPath_mono (hsub : t'.Sub t)
    (h : (isItemExistsAtPath limit cwd t' path).isSome) :
    (isItemExistsAtPath limit cwd t path).isSome := by
  obtain ⟨e, he⟩ := exists_of_isItemExistsAtPath h
  have he := resolve_mono hsub he
  obtain ⟨entry, hentry⟩ := resolve_found he
  rw [isItemExistsAtPath, stat_eq_some_iff.mpr ⟨e, he, hentry⟩]
  rfl

/-- The renaming after the destination has been swept away. -/
private theorem renameItem_covering (hd : d ≠ [])
    (hitem : t.resolve limit cwd false toPath = some d)
    (hexists : (isItemExistsAtPath limit cwd (without t d) fromPath).isSome)
    (hrename : Renamable limit cwd (without t d) fromPath toPath f d)
    (hfind : ∀ m, t'.find m = if d <+: m then none else t.find m) :
    MoveOutcome limit cwd t fromPath toPath (renameItem limit cwd t' fromPath toPath).1
      (renameItem limit cwd t' fromPath toPath).2 := by
  have hsame (m : Location) : t'.find m = (without t d).find m := by
    rw [hfind, find_without hd]
  have hsub : t'.Sub t := by
    intro m entry hentry
    rw [hfind] at hentry
    split_ifs at hentry
    exact hentry
  have hrename' := hrename.congr hsame
  obtain ⟨entry, hentry⟩ := resolve_found hrename'.source
  have hsource : (isItemExistsAtPath limit cwd t' fromPath).isSome :=
    isItemExistsAtPath_mono (fun m e he => (hsame m).trans he) hexists
  have htarget : isItemExistsAtPath limit cwd t' toPath = none := by
    by_contra hsome
    obtain ⟨e, hstat⟩ := exists_of_isItemExistsAtPath (Option.isSome_iff_ne_none.mpr hsome)
    obtain ⟨m, hm, -⟩ := resolve_last hstat
    obtain rfl : m = d := Option.some.inj ((resolve_mono hsub hm).symm.trans hitem)
    obtain ⟨entry, hentry⟩ := resolve_found hm
    rw [hfind, if_pos (List.prefix_refl m)] at hentry
    cases hentry
  have hpaths : ¬(fromPath.isEmpty ∨ toPath.isEmpty) := by
    simp [(resolve_eq_some_iff.mp hrename'.source).1, (place_eq_some_iff.mp hrename'.target).1]
  have hmovable := hrename'.movable
  rw [renameItem, if_neg hpaths, if_neg (by simpa [Option.isSome_iff_ne_none] using hsource),
    if_neg (by simp [htarget]), rename_of_renamable hrename']
  refine ⟨by simp, fun _ => ⟨f, d, resolve_mono hsub hrename'.source,
    place_mono hsub hrename'.target, hmovable.ne, ?_, fun m => ?_⟩⟩
  · rw [find_move, if_neg (hmovable.not_above hentry), if_pos (List.prefix_refl f)]
  · rw [find_move]
    split_ifs with hm hm'
    · rw [hfind, if_neg]
      intro hpre
      exact (List.prefix_or_prefix_of_prefix hpre (List.prefix_append f _)).elim
        (hmovable.not_above hentry) hmovable.outside
    · rfl
    · rw [hfind, if_neg hm]

def dirAndFile : Volume ℕ where
  entries := [([['a']], .dir), ([['a'], ['x']], .file 1), ([['b']], .file 2)]
  nodup := by decide
  plain := by decide
  closed := by decide

private theorem dirAndFile_clear : Clear 8 [] ⟨1, dirAndFile, ['/', 'a']⟩ := by
  intro c hc
  cases hc with
  | self =>
    have hitem : dirAndFile.resolve 8 [] false ['/', 'a'] = some [['a']] := by decide
    refine ⟨by decide, fun m hm => ?_, fun m hm => ?_, fun _ _ => Nat.one_pos, fun _ e hfull => ?_⟩
    · obtain rfl := Option.some.inj (hitem.symm.trans hm)
      decide
    · obtain rfl := Option.some.inj (hitem.symm.trans hm)
      simp [dirAndFile, children, Visible, skippedNames]
    · have he : dirAndFile.resolve 8 [] true ['/', 'a'] = some [['a']] := by decide
      obtain rfl := Option.some.inj (he.symm.trans hfull.stat)
      exact ⟨hitem, walks_of_walk (by decide)⟩
  | @nested _ _ c' _ before _ hlisted hbefore hcall =>
    have hsubpaths : subpathsAtPath 8 [] 1 dirAndFile ['/', 'a'] = ([['/', 'a', '/', 'x']], 0) := by
      decide
    simp only [hsubpaths] at hlisted hbefore
    obtain ⟨fds, t, path⟩ := c'
    cases before with
    | cons first before => simp at hlisted
    | nil =>
      -- the call for the file, which lists nothing
      obtain ⟨rfl, -⟩ := List.cons.inj hlisted
      obtain ⟨rfl, rfl⟩ : dirAndFile = t ∧ 0 = fds := by simpa [removeAll] using hbefore
      cases hcall with
      | nested hlisted => simp [subpathsAtPath_zero] at hlisted
      | self =>
        have hitem : dirAndFile.resolve 8 [] false ['/', 'a', '/', 'x'] = some [['a'], ['x']] := by
          decide
        have he : dirAndFile.resolve 8 [] true ['/', 'a', '/', 'x'] =
          some [['a'], ['x']] := by decide
        refine ⟨by decide, fun m hm => ?_, fun m hm => ?_, fun e hfull => ?_,
          fun hfds => absurd hfds (Nat.lt_irrefl 0)⟩
        · obtain rfl := Option.some.inj (hitem.symm.trans hm)
          decide
        · obtain rfl := Option.some.inj (hitem.symm.trans hm)
          simp [dirAndFile, children]
        · obtain rfl := Option.some.inj (he.symm.trans hfull.stat)
          exact absurd hfull.dir (by decide)

end Moving

end DarwinCore.File
