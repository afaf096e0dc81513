import DarwinCore.Library.FileSystem

/-! # The contents of files

Where a path leads does not depend on what the files hold. -/

namespace FileTree

variable {α β : Type*}

def Entry.map (f : α → β) : Entry α → Entry β
  | .dir => .dir
  | .file content => .file (f content)
  | .link target => .link target

@[simp] theorem Entry.map_eq_dir {f : α → β} {e : Entry α} : e.map f = .dir ↔ e = .dir := by
  cases e <;> simp [Entry.map]

@[simp] theorem Entry.map_eq_link {f : α → β} {e : Entry α} {target : List Char} :
    e.map f = .link target ↔ e = .link target := by
  cases e <;> simp [Entry.map]

theorem Entry.map_eq_file {f : α → β} {e : Entry α} {content : β} :
    e.map f = .file content ↔ ∃ c, e = .file c ∧ f c = content := by
  cases e <;> simp [Entry.map]

namespace Volume

variable {t t' : Volume α} {l m d w : Location} {segments rest : List Name} {followLast : Bool}
  {limit n : ℕ} {content : α}

/-! ## Other contents -/

/-- The tree in which every content is replaced. -/
def map (f : α → β) (t : Volume α) : Volume β where
  entries := t.entries.map fun e => (e.1, e.2.map f)
  nodup := by
    rw [List.map_map]
    exact t.nodup
  plain e he := by
    obtain ⟨e, hmem, rfl⟩ := List.mem_map.mp he
    exact t.plain e hmem
  closed e he := by
    obtain ⟨e, hmem, rfl⟩ := List.mem_map.mp he
    exact (t.closed e hmem).imp id fun hdir => List.mem_map.mpr ⟨_, hdir, rfl⟩

theorem find_map (f : α → β) (t : Volume α) (l : Location) :
    (t.map f).find l = (t.find l).map (Entry.map f) := by
  by_cases hl : l = []
  · subst hl
    rfl
  · simp only [find, if_neg hl, map, List.find?_map, Option.map_map]
    rfl

/-- The tree with another content of a file. -/
def put (t : Volume α) (l : Location) (content : α) : Volume α where
  entries := t.entries.map fun e => (e.1, if e.1 = l then e.2.map fun _ => content else e.2)
  nodup := by
    rw [List.map_map]
    exact t.nodup
  plain e he := by
    obtain ⟨e, hmem, rfl⟩ := List.mem_map.mp he
    exact t.plain e hmem
  closed e he := by
    obtain ⟨e, hmem, rfl⟩ := List.mem_map.mp he
    refine (t.closed e hmem).imp id fun hdir => List.mem_map.mpr ⟨_, hdir, ?_⟩
    split <;> rfl

theorem find_put (t : Volume α) (l : Location) (content : α) (m : Location) :
    (t.put l content).find m =
      if m = l then (t.find l).map (Entry.map fun _ => content) else t.find m := by
  by_cases hm : m = []
  · subst hm
    split_ifs with hl
    · subst hl
      rfl
    · rfl
  · split_ifs with hl
    · subst hl
      refine Option.ext fun e => ?_
      rw [find_eq_some_iff hm, Option.map_eq_some_iff]
      simp only [find_eq_some_iff hm, put, List.mem_map, Prod.mk.injEq, Prod.exists]
      constructor
      · rintro ⟨_, e, hmem, rfl, he⟩
        exact ⟨e, hmem, by simpa using he⟩
      · rintro ⟨e, hmem, he⟩
        exact ⟨m, e, hmem, rfl, by simpa using he⟩
    · refine Option.ext fun e => ?_
      simp only [find_eq_some_iff hm, put, List.mem_map, Prod.mk.injEq, Prod.exists]
      constructor
      · rintro ⟨_, e, hmem, rfl, he⟩
        rwa [← he, if_neg hl]
      · intro hmem
        exact ⟨m, e, hmem, rfl, by rw [if_neg hl]⟩

theorem find_put_file {c : α} (h : t.find l = some (.file c)) (m : Location) :
    (t.put l content).find m = if m = l then some (.file content) else t.find m := by
  rw [find_put, h]
  rfl

/-- What is kept of the contents is the same if it is the same for the new one. -/
theorem find_map_put {f : α → β} {c : α} (h : t.find l = some (.file c)) (hf : f content = f c)
    (m : Location) : ((t.put l content).map f).find m = (t.map f).find m := by
  rw [find_map, find_map, find_put_file h]
  split_ifs with hm
  · subst hm
    rw [h]
    exact congrArg (fun b => some (Entry.file b)) hf
  · rfl

/-! ## Walks -/

theorem Walks.map {f : α → β} (h : Walks t followLast limit l segments m) :
    Walks (t.map f) followLast limit l segments m := by
  induction h with
  | done => exact .done _ _
  | skip hname _ ih => exact .skip hname ih
  | up _ ih => exact .up ih
  | dir hname hfind _ ih => exact .dir hname (by rw [find_map, hfind]; rfl) ih
  | file hname hfind => exact .file hname (by rw [find_map, hfind]; rfl)
  | link hname hfind hlast => exact .link hname (by rw [find_map, hfind]; rfl) hlast
  | jump hname hfind hfollow htarget _ ih =>
    exact .jump hname (by rw [find_map, hfind]; rfl) hfollow htarget ih

theorem Walks.of_map {f : α → β} (h : Walks (t.map f) followLast limit l segments m) :
    Walks t followLast limit l segments m := by
  induction h with
  | done => exact .done _ _
  | skip hname _ ih => exact .skip hname ih
  | up _ ih => exact .up ih
  | dir hname hfind _ ih =>
    refine .dir hname ?_ ih
    simpa [find_map] using hfind
  | file hname hfind =>
    rw [find_map, Option.map_eq_some_iff] at hfind
    obtain ⟨e, hfind, he⟩ := hfind
    obtain ⟨c, rfl, -⟩ := Entry.map_eq_file.mp he
    exact .file hname hfind
  | @link limit l name target hname hfind hlast =>
    have hlink : t.find (l ++ [name]) = some (.link target) := by simpa [find_map] using hfind
    exact .link hname hlink hlast
  | @jump limit l name rest m target hname hfind hfollow htarget _ ih =>
    have hlink : t.find (l ++ [name]) = some (.link target) := by simpa [find_map] using hfind
    exact .jump hname hlink hfollow htarget ih

theorem resolve_map (f : α → β) (t : Volume α) (cwd : Location) (path : List Char) :
    (t.map f).resolve limit cwd followLast path = t.resolve limit cwd followLast path := by
  refine Option.ext fun m => ?_
  rw [resolve_eq_some_iff, resolve_eq_some_iff]
  refine and_congr_right fun _ => and_congr (or_congr_right ?_) ⟨Walks.of_map, Walks.map⟩
  simp [find_map]

/-- A walk that arrives at what is no directory does not go on. -/
theorem Walks.blocked (h : Walks t true limit l segments w) (hl : t.find l = some .dir)
    (hw : t.find w ≠ some .dir) (hrest : rest ≠ []) :
    ¬Walks t followLast n l (segments ++ rest) m := by
  induction h generalizing n with
  | done => exact absurd hl hw
  | skip hname _ ih =>
    intro hmore
    exact ih hl hw ((walks_skip hname).mp hmore)
  | @up limit l names w _ ih =>
    intro hmore
    refine ih (find_dropLast hl) hw (n := n) ?_
    rw [← walk_eq_some_iff, List.cons_append, walk_cons, if_neg (by simp), if_pos rfl,
      walk_eq_some_iff] at hmore
    exact hmore
  | dir hname hfind _ ih =>
    intro hmore
    refine ih hfind hw (n := n) ?_
    rw [← walk_eq_some_iff, List.cons_append, walk_cons, if_neg hname.1, if_neg hname.2, hfind,
      walk_eq_some_iff] at hmore
    exact hmore
  | file hname hfind =>
    intro hmore
    rw [← walk_eq_some_iff, List.cons_append, walk_cons, if_neg hname.1, if_neg hname.2,
      hfind] at hmore
    simp [hrest] at hmore
  | link hname hfind hlast => cases hlast
  | @jump limit l name names w target hname hfind hfollow htarget _ ih =>
    intro hmore
    rw [← walk_eq_some_iff, List.cons_append, walk_cons, if_neg hname.1, if_neg hname.2,
      hfind] at hmore
    simp only [List.append_eq_nil_iff, hrest, and_false, false_and, if_false, htarget] at hmore
    cases n with
    | zero => cases hmore
    | succ n =>
      refine ih (find_start (.inr hl)) hw (n := n) ?_
      rw [List.append_assoc, ← walk_eq_some_iff]
      exact hmore

/-- A separator at the end can be left out. -/
theorem Walks.of_trailing (h : Walks t true limit l (segments ++ [[]]) m) :
    Walks t true limit l segments m := by
  generalize hsegments : segments ++ [[]] = all at h
  induction h generalizing segments with
  | done => simp at hsegments
  | @skip limit l name rest m hname hrest ih =>
    cases segments with
    | nil =>
      obtain ⟨rfl, rfl⟩ := List.cons.inj hsegments
      exact hrest
    | cons segment segments =>
      obtain ⟨rfl, hrest⟩ := List.cons.inj hsegments
      exact .skip hname (ih hrest)
  | @up limit l rest m _ ih =>
    cases segments with
    | nil => simp at hsegments
    | cons segment segments =>
      obtain ⟨rfl, hrest⟩ := List.cons.inj hsegments
      exact .up (ih hrest)
  | @dir limit l name rest m hname hfind _ ih =>
    cases segments with
    | nil =>
      obtain ⟨rfl, -⟩ := List.cons.inj hsegments
      exact absurd (.inl rfl) hname.1
    | cons segment segments =>
      obtain ⟨rfl, hrest⟩ := List.cons.inj hsegments
      exact .dir hname hfind (ih hrest)
  | @file limit l name content hname hfind =>
    obtain ⟨-, hlast⟩ := List.append_inj' (hsegments.trans (List.nil_append [name]).symm) rfl
    obtain rfl : [] = name := List.singleton_inj.mp hlast
    exact absurd (.inl rfl) hname.1
  | link _ _ hlast => cases hlast
  | @jump limit l name rest m target hname hfind _ htarget _ ih =>
    cases segments with
    | nil =>
      obtain ⟨rfl, -⟩ := List.cons.inj hsegments
      exact absurd (.inl rfl) hname.1
    | cons segment segments =>
      obtain ⟨rfl, hrest⟩ := List.cons.inj hsegments
      refine .jump hname hfind (by simp) htarget (ih ?_)
      exact (List.append_assoc _ _ _).trans (congrArg _ hrest)

/-- What a path leads through at `f` leads to a file. -/
def DeadEnd (t : Volume α) (f : Location) : Prop :=
  ∃ content, t.find f = some (.file content) ∨ ∃ target limit w, t.find f = some (.link target) ∧
    Walks t true limit (start f.dropLast target) (target.splitOn '/') w ∧
      t.find w = some (.file content)

theorem DeadEnd.not_dir {f : Location} {target : List Char} (hf : t.DeadEnd f)
    (hlink : t.find f = some (.link target)) (hparent : t.find f.dropLast = some .dir)
    (h : Walks t true limit (start f.dropLast target) (target.splitOn '/' ++ rest) d) :
    t.find d ≠ some .dir := by
  obtain ⟨content, hfile | ⟨target', n, w, hlink', hwalk, hw⟩⟩ := hf
  · rw [hlink] at hfile
    cases hfile
  · obtain rfl : target = target' := by simpa [hlink] using hlink'
    cases rest with
    | nil =>
      rw [List.append_nil] at h
      obtain rfl := (h.limit_le (Nat.le_max_left limit n)).unique
        (hwalk.limit_le (Nat.le_max_right limit n))
      simp [hw]
    | cons next rest =>
      exact absurd h (hwalk.blocked (find_start (.inr hparent)) (by simp [hw])
        (List.cons_ne_nil next rest))

theorem DeadEnd.find_ne (h : t.DeadEnd l) : t.find l ≠ some .dir := by
  obtain ⟨content, hfile | ⟨target, limit', w, hlink, -⟩⟩ := h
  · simp [hfile]
  · simp [hlink]

/-- A walk to a directory is the same before a dead end was moved within its directory. -/
theorem Walks.unmoved (h : Walks t' true limit l segments d) (hl : t'.find l = some .dir)
    (hd : t'.find d = some .dir) {f x : Location} (hf : t.DeadEnd f)
    (hx : t'.find x = t.find f) (hparent : x.dropLast = f.dropLast)
    (hkept : ∀ m e, m ≠ x → t'.find m = some e → t.find m = some e) :
    Walks t true limit l segments d := by
  have hdir (m : Location) (hm : t'.find m = some .dir) : t.find m = some .dir := by
    refine hkept m _ ?_ hm
    rintro rfl
    rw [hx] at hm
    exact hf.find_ne hm
  induction h with
  | done => exact .done _ _
  | skip hname _ ih => exact .skip hname (ih hl hd)
  | up _ ih => exact .up (ih (find_dropLast hl) hd)
  | dir hname hfind _ ih => exact .dir hname (hdir _ hfind) (ih hfind hd)
  | file hname hfind =>
    rw [hfind] at hd
    cases hd
  | link hname hfind hlast => cases hlast
  | @jump limit l name rest d target hname hfind hfollow htarget _ ih =>
    have hrest := ih (find_start (.inr hl)) hd
    refine .jump hname (hkept _ _ ?_ hfind) hfollow htarget hrest
    rintro rfl
    -- the link has been at `f`, in the same directory
    rw [List.dropLast_concat] at hparent
    exact hf.not_dir (hx.symm.trans hfind) (hparent ▸ hdir l hl) (hparent ▸ hrest) (hdir _ hd)

theorem deadEnd_of_resolve {cwd f : Location} {path : List Char}
    (hpath : t.resolve limit cwd true path = some w) (hw : t.find w = some (.file content))
    (hf : t.resolve limit cwd false path = some f) : t.DeadEnd f := by
  obtain ⟨m, hm, hlast⟩ := resolve_last hpath
  obtain rfl := Option.some.inj (hm.symm.trans hf)
  obtain rfl | ⟨target, limit', -, hlink, -, hwalk⟩ := hlast
  · exact ⟨content, .inl hw⟩
  · exact ⟨content, .inr ⟨target, limit', w, hlink, hwalk, hw⟩⟩

/-! ## Moving a dead end -/

section Moved

variable {f : Location} {e : Entry α}

theorem find_move_target (h : t.Movable f d) : (t.move f d h).find d = t.find f := by
  rw [find_move, if_pos (List.prefix_refl d), List.drop_length, List.append_nil]

theorem find_move_source (h : t.Movable f d) (hf : t.find f = some e) :
    (t.move f d h).find f = none := by
  rw [find_move, if_neg (h.not_above hf), if_pos (List.prefix_refl f)]

theorem find_move_outside (h : t.Movable f d) (hd : ¬d <+: m) (hf : ¬f <+: m) :
    (t.move f d h).find m = t.find m := by
  rw [find_move, if_neg hd, if_neg hf]

theorem find_of_move (h : t.Movable f d) (hf : t.DeadEnd f) (hm : m ≠ d)
    (hfind : (t.move f d h).find m = some e) : t.find m = some e := by
  rw [find_move] at hfind
  split_ifs at hfind with hpre
  · obtain ⟨rest, rfl⟩ := hpre
    rw [List.drop_left, find_below hf.find_ne (List.prefix_append f rest) (by simpa using hm)]
      at hfind
    cases hfind
  · exact hfind

theorem find_move_elsewhere (h : t.Movable f d) (hf : t.DeadEnd f) (hd : t.find d = none)
    (hm : m ≠ f) (hmd : m ≠ d) : (t.move f d h).find m = t.find m := by
  rw [find_move]
  split_ifs with hpre hbelow
  · -- there is nothing below a file or a link, and nothing below nothing
    rw [find_below (by simp [hd]) hpre hmd]
    obtain ⟨rest, rfl⟩ := hpre
    rw [List.drop_left]
    exact find_below hf.find_ne (List.prefix_append f rest) (by simpa using hmd)
  · exact (find_below hf.find_ne hbelow hm).symm
  · rfl

end Moved

end Volume

end FileTree
