import DarwinCore.Library.FileTree

/-! # Resolving paths

A path is followed segment by segment; a symbolic link is replaced by its target. -/

namespace FileTree

def Proper (segment : Name) : Prop :=
  ¬(segment = [] ∨ segment = ['.']) ∧ segment ≠ ['.', '.']

theorem PlainName.proper {name : Name} (h : PlainName name) : Proper name :=
  ⟨fun h' => h'.elim h.ne_nil h.dot, h.dotDot⟩

namespace Volume

variable {α : Type*}

/-- Where a path that is read in the directory `l` starts. -/
def start (l : Location) (path : List Char) : Location :=
  if path.head? = some '/' then [] else l

/-- Follows segments from the directory `l`; `jump` goes on where a symbolic link leads. A link
that is the last segment is followed if `followLast` says so. -/
def walkFrom (t : Volume α) (followLast : Bool) (jump : Location → List Name → Option Location) :
    Location → List Name → Option Location
  | l, [] => some l
  | l, segment :: rest =>
      if segment = [] ∨ segment = ['.'] then walkFrom t followLast jump l rest
      else if segment = ['.', '.'] then walkFrom t followLast jump l.dropLast rest
      else
        match t.find (l ++ [segment]) with
        | none => none
        | some .dir => walkFrom t followLast jump (l ++ [segment]) rest
        | some (.file _) => if rest = [] then some (l ++ [segment]) else none
        | some (.link target) =>
            if rest = [] ∧ ¬followLast then some (l ++ [segment])
            else if target = [] then none
            else jump (start l target) (target.splitOn '/' ++ rest)

/-- Follows segments through at most `limit` symbolic links. -/
def walk (t : Volume α) (followLast : Bool) : ℕ → Location → List Name → Option Location
  | 0 => walkFrom t followLast fun _ _ => none
  | limit + 1 => walkFrom t followLast (walk t followLast limit)

/-- What a path names in the working directory `cwd`. -/
def resolve (t : Volume α) (limit : ℕ) (cwd : Location) (followLast : Bool) (path : List Char) :
    Option Location :=
  if path = [] then none
  else if path.head? ≠ some '/' ∧ ¬(t.find cwd matches some .dir) then none
  else walk t followLast limit (start cwd path) (path.splitOn '/')

/-! ## Walks that arrive -/

/-- The walk arrives at `m`. -/
inductive Walks (t : Volume α) (followLast : Bool) :
    ℕ → Location → List Name → Location → Prop where
  | done (limit : ℕ) (l : Location) : Walks t followLast limit l [] l
  | skip {limit l name rest m} (hname : name = [] ∨ name = ['.'])
      (hrest : Walks t followLast limit l rest m) :
      Walks t followLast limit l (name :: rest) m
  | up {limit l rest m} (hrest : Walks t followLast limit l.dropLast rest m) :
      Walks t followLast limit l (['.', '.'] :: rest) m
  | dir {limit l name rest m} (hname : Proper name) (hfind : t.find (l ++ [name]) = some .dir)
      (hrest : Walks t followLast limit (l ++ [name]) rest m) :
      Walks t followLast limit l (name :: rest) m
  | file {limit l name} {content : α} (hname : Proper name)
      (hfind : t.find (l ++ [name]) = some (.file content)) :
      Walks t followLast limit l [name] (l ++ [name])
  | link {limit l name} {target : List Char} (hname : Proper name)
      (hfind : t.find (l ++ [name]) = some (.link target)) (hlast : followLast = false) :
      Walks t followLast limit l [name] (l ++ [name])
  | jump {limit l name rest m} {target : List Char} (hname : Proper name)
      (hfind : t.find (l ++ [name]) = some (.link target))
      (hfollow : ¬(rest = [] ∧ followLast = false)) (htarget : target ≠ [])
      (hrest : Walks t followLast limit (start l target) (target.splitOn '/' ++ rest) m) :
      Walks t followLast (limit + 1) l (name :: rest) m

variable {t t' : Volume α} {l m d : Location} {segments rest : List Name} {name : Name}
  {e : Entry α} {followLast : Bool} {limit n : ℕ}

/-- What goes on after a link, if the limit has not been reached. -/
def jumps (t : Volume α) (followLast : Bool) : ℕ → Location → List Name → Option Location
  | 0 => fun _ _ => none
  | limit + 1 => walk t followLast limit

theorem walk_eq (limit : ℕ) :
    walk t followLast limit = walkFrom t followLast (jumps t followLast limit) := by
  cases limit <;> rfl

theorem walk_nil : walk t followLast limit l [] = some l := by
  cases limit <;> rfl

theorem walk_cons : walk t followLast limit l (name :: rest) =
    if name = [] ∨ name = ['.'] then walk t followLast limit l rest
    else if name = ['.', '.'] then walk t followLast limit l.dropLast rest
    else
      match t.find (l ++ [name]) with
      | none => none
      | some .dir => walk t followLast limit (l ++ [name]) rest
      | some (.file _) => if rest = [] then some (l ++ [name]) else none
      | some (.link target) =>
        if rest = [] ∧ ¬followLast then some (l ++ [name])
        else if target = [] then none
        else jumps t followLast limit (start l target) (target.splitOn '/' ++ rest) := by
  rw [walk_eq, walkFrom]

theorem walks_of_walk (h : walk t followLast limit l segments = some m) :
    Walks t followLast limit l segments m := by
  induction limit using Nat.strongRecOn generalizing l segments m with
  | ind limit ihlimit =>
    induction segments generalizing l with
    | nil =>
      rw [walk_nil] at h
      obtain rfl := Option.some.inj h
      exact .done limit l
    | cons name rest ih =>
      rw [walk_cons] at h
      by_cases hskip : name = [] ∨ name = ['.']
      · rw [if_pos hskip] at h
        exact .skip hskip (ih h)
      rw [if_neg hskip] at h
      by_cases hup : name = ['.', '.']
      · rw [if_pos hup] at h
        exact hup ▸ .up (ih h)
      rw [if_neg hup] at h
      cases hfind : t.find (l ++ [name]) with
      | none => simp [hfind] at h
      | some e =>
        rw [hfind] at h
        cases e with
        | dir => exact .dir ⟨hskip, hup⟩ hfind (ih h)
        | file content =>
          simp only at h
          split_ifs at h with hrest
          subst hrest
          obtain rfl := Option.some.inj h
          exact .file ⟨hskip, hup⟩ hfind
        | link target =>
          simp only at h
          split_ifs at h with hlast htarget
          · obtain ⟨rfl, hlast⟩ := hlast
            obtain rfl := Option.some.inj h
            exact .link ⟨hskip, hup⟩ hfind (by simpa using hlast)
          · cases limit with
            | zero => cases h
            | succ limit =>
              exact .jump ⟨hskip, hup⟩ hfind (by simpa using hlast) htarget
                (ihlimit limit (Nat.lt_succ_self _) h)

theorem walk_of_walks (h : Walks t followLast limit l segments m) :
    walk t followLast limit l segments = some m := by
  induction h with
  | done => exact walk_nil
  | skip hname hrest ih => rw [walk_cons, if_pos hname, ih]
  | up hrest ih => rw [walk_cons, if_neg (by simp), if_pos rfl, ih]
  | dir hname hfind hrest ih =>
    rw [walk_cons, if_neg hname.1, if_neg hname.2, hfind]
    exact ih
  | file hname hfind =>
    rw [walk_cons, if_neg hname.1, if_neg hname.2, hfind]
    simp
  | link hname hfind hlast =>
    rw [walk_cons, if_neg hname.1, if_neg hname.2, hfind]
    simp [hlast]
  | jump hname hfind hfollow htarget hrest ih =>
    rw [walk_cons, if_neg hname.1, if_neg hname.2, hfind]
    simp only
    rw [if_neg (by simpa using hfollow), if_neg htarget]
    exact ih

theorem walk_eq_some_iff :
    walk t followLast limit l segments = some m ↔ Walks t followLast limit l segments m :=
  ⟨walks_of_walk, walk_of_walks⟩

theorem walks_skip (h : name = [] ∨ name = ['.']) :
    Walks t followLast limit l (name :: rest) m ↔ Walks t followLast limit l rest m := by
  rw [← walk_eq_some_iff, walk_cons, if_pos h, walk_eq_some_iff]

/-! ## What walks have in common -/

theorem find_start {path : List Char} (h : path.head? = some '/' ∨ t.find l = some .dir) :
    t.find (start l path) = some .dir := by
  unfold start
  split_ifs with hroot
  · rfl
  · exact h.resolve_left hroot

namespace Walks

theorem mono (h : Walks t' followLast limit l segments m) (hsub : t'.Sub t) :
    Walks t followLast limit l segments m := by
  induction h with
  | done => exact .done _ _
  | skip hname _ ih => exact .skip hname ih
  | up _ ih => exact .up ih
  | dir hname hfind _ ih => exact .dir hname (hsub _ _ hfind) ih
  | file hname hfind => exact .file hname (hsub _ _ hfind)
  | link hname hfind hlast => exact .link hname (hsub _ _ hfind) hlast
  | jump hname hfind hfollow htarget _ ih => exact .jump hname (hsub _ _ hfind) hfollow htarget ih

theorem limit_le {limit' : ℕ} (h : Walks t followLast limit l segments m) (hle : limit ≤ limit') :
    Walks t followLast limit' l segments m := by
  induction h generalizing limit' with
  | done => exact .done _ _
  | skip hname _ ih => exact .skip hname (ih hle)
  | up _ ih => exact .up (ih hle)
  | dir hname hfind _ ih => exact .dir hname hfind (ih hle)
  | file hname hfind => exact .file hname hfind
  | link hname hfind hlast => exact .link hname hfind hlast
  | jump hname hfind hfollow htarget _ ih =>
    obtain ⟨limit', rfl⟩ : ∃ k, limit' = k + 1 := ⟨limit' - 1, by omega⟩
    exact .jump hname hfind hfollow htarget (ih (by omega))

/-- The way to a directory leads through directories and symbolic links only. -/
theorem of_same (h : Walks t followLast limit l segments m) (hdir : t.find m = some .dir)
    (hsame : ∀ l e, (∀ content, e ≠ .file content) → t.find l = some e → t'.find l = some e) :
    Walks t' followLast limit l segments m := by
  induction h with
  | done => exact .done _ _
  | skip hname _ ih => exact .skip hname (ih hdir)
  | up _ ih => exact .up (ih hdir)
  | dir hname hfind _ ih => exact .dir hname (hsame _ _ (by simp) hfind) (ih hdir)
  | file hname hfind =>
    rw [hfind] at hdir
    cases hdir
  | link hname hfind hlast => exact .link hname (hsame _ _ (by simp) hfind) hlast
  | jump hname hfind hfollow htarget _ ih =>
    exact .jump hname (hsame _ _ (by simp) hfind) hfollow htarget (ih hdir)

theorem unique {m' : Location} (h : Walks t followLast limit l segments m)
    (h' : Walks t followLast limit l segments m') : m = m' :=
  Option.some.inj ((walk_of_walks h).symm.trans (walk_of_walks h'))

/-- A walk that follows its last link passes the link. -/
theorem last (h : Walks t true limit l segments m) : ∃ m', Walks t false limit l segments m' ∧
    (m' = m ∨ ∃ target limit', limit' < limit ∧ t.find m' = some (.link target) ∧ target ≠ [] ∧
      Walks t true limit' (start m'.dropLast target) (target.splitOn '/') m) := by
  induction h with
  | done => exact ⟨_, .done _ _, .inl rfl⟩
  | skip hname _ ih =>
    obtain ⟨m', hm', hlink⟩ := ih
    exact ⟨m', .skip hname hm', hlink⟩
  | up _ ih =>
    obtain ⟨m', hm', hlink⟩ := ih
    exact ⟨m', .up hm', hlink⟩
  | dir hname hfind _ ih =>
    obtain ⟨m', hm', hlink⟩ := ih
    exact ⟨m', .dir hname hfind hm', hlink⟩
  | file hname hfind => exact ⟨_, .file hname hfind, .inl rfl⟩
  | link hname hfind hlast => cases hlast
  | @jump limit l name rest m target hname hfind hfollow htarget hrest ih =>
    cases rest with
    | nil =>
      refine ⟨_, .link hname hfind rfl, .inr ⟨target, limit, Nat.lt_succ_self _, hfind,
        htarget, ?_⟩⟩
      simpa using hrest
    | cons next rest =>
      obtain ⟨m', hm', hlink⟩ := ih
      refine ⟨m', .jump hname hfind (by simp) htarget hm', hlink.imp id ?_⟩
      rintro ⟨target', limit', hlt, hmore⟩
      exact ⟨target', limit', by omega, hmore⟩

/-- A walk to a directory goes on with further segments. -/
theorem append {tail : List Name} (h : Walks t true limit l segments d)
    (hdir : t.find d = some .dir) (htail : tail ≠ []) :
    ∃ limit' ≤ limit, ∀ m, Walks t followLast limit' d tail m →
      Walks t followLast limit l (segments ++ tail) m := by
  induction h with
  | done limit l => exact ⟨limit, le_rfl, fun _ h => h⟩
  | skip hname _ ih =>
    obtain ⟨limit', hle, hgo⟩ := ih hdir
    exact ⟨limit', hle, fun m h => .skip hname (hgo m h)⟩
  | up _ ih =>
    obtain ⟨limit', hle, hgo⟩ := ih hdir
    exact ⟨limit', hle, fun m h => .up (hgo m h)⟩
  | dir hname hfind _ ih =>
    obtain ⟨limit', hle, hgo⟩ := ih hdir
    exact ⟨limit', hle, fun m h => .dir hname hfind (hgo m h)⟩
  | file hname hfind =>
    rw [hfind] at hdir
    cases hdir
  | link hname hfind hlast => cases hlast
  | jump hname hfind hfollow htarget _ ih =>
    obtain ⟨limit', hle, hgo⟩ := ih hdir
    refine ⟨limit', Nat.le_succ_of_le hle, fun m h => ?_⟩
    refine .jump hname hfind (fun hnil => htail (List.append_eq_nil_iff.mp hnil.1).2) htarget ?_
    have hrest := hgo m h
    rwa [List.append_assoc] at hrest

theorem child (h : Walks t true limit l segments d) (hdir : t.find d = some .dir)
    (hfind : t.find (d ++ [name]) = some e) :
    Walks t false limit l (segments ++ [name]) (d ++ [name]) := by
  obtain ⟨limit', -, hgo⟩ := h.append hdir (List.cons_ne_nil name [])
  have hname := (plainName hfind).proper
  refine hgo _ ?_
  cases e with
  | dir => exact .dir hname hfind (.done _ _)
  | file content => exact .file hname hfind
  | link target => exact .link hname hfind rfl

theorem found (h : Walks t followLast limit l segments m) (hl : t.find l = some .dir) :
    ∃ e, t.find m = some e := by
  induction h with
  | done => exact ⟨_, hl⟩
  | skip _ _ ih => exact ih hl
  | up _ ih => exact ih (find_dropLast hl)
  | dir _ hfind _ ih => exact ih hfind
  | file _ hfind => exact ⟨_, hfind⟩
  | link _ hfind => exact ⟨_, hfind⟩
  | jump _ _ _ _ _ ih => exact ih (find_start (.inr hl))

/-- A walk that does not end with a link does not depend on whether such a link is followed. -/
theorem follow (h : Walks t false limit l segments m)
    (hm : ∀ target, t.find m ≠ some (.link target)) : Walks t true limit l segments m := by
  induction h with
  | done => exact .done _ _
  | skip hname _ ih => exact .skip hname (ih hm)
  | up _ ih => exact .up (ih hm)
  | dir hname hfind _ ih => exact .dir hname hfind (ih hm)
  | file hname hfind => exact .file hname hfind
  | link hname hfind _ => exact absurd hfind (hm _)
  | jump hname hfind _ htarget _ ih => exact .jump hname hfind (by simp) htarget (ih hm)

/-- A walk to an entry comes to its directory before. -/
theorem parent (h : Walks t false limit l (segments ++ [name]) m) (hname : Proper name)
    (hl : t.find l = some .dir) :
    ∃ d, Walks t true limit l segments d ∧ t.find d = some .dir ∧ m = d ++ [name] := by
  generalize hsegments : segments ++ [name] = all at h
  induction h generalizing segments with
  | done => simp at hsegments
  | @skip limit l segment rest m hskip _ ih =>
    cases segments with
    | nil =>
      obtain ⟨rfl, -⟩ := List.cons.inj hsegments
      exact absurd hskip hname.1
    | cons first segments =>
      obtain ⟨rfl, hrest⟩ := List.cons.inj hsegments
      obtain ⟨d, hwalk, hdir, hm⟩ := ih hl hrest
      exact ⟨d, .skip hskip hwalk, hdir, hm⟩
  | @up limit l rest m _ ih =>
    cases segments with
    | nil =>
      obtain ⟨rfl, -⟩ := List.cons.inj hsegments
      exact absurd rfl hname.2
    | cons first segments =>
      obtain ⟨rfl, hrest⟩ := List.cons.inj hsegments
      obtain ⟨d, hwalk, hdir, hm⟩ := ih (find_dropLast hl) hrest
      exact ⟨d, .up hwalk, hdir, hm⟩
  | @dir limit l segment rest m hproper hfind hrest' ih =>
    cases segments with
    | nil =>
      obtain ⟨rfl, rfl⟩ := List.cons.inj hsegments
      cases hrest'
      exact ⟨l, .done _ _, hl, rfl⟩
    | cons first segments =>
      obtain ⟨rfl, hrest⟩ := List.cons.inj hsegments
      obtain ⟨d, hwalk, hdir, hm⟩ := ih hfind hrest
      exact ⟨d, .dir hproper hfind hwalk, hdir, hm⟩
  | @file limit l segment content hproper hfind =>
    obtain ⟨rfl, hlast⟩ := List.append_inj' (hsegments.trans (List.nil_append [segment]).symm) rfl
    obtain rfl : name = segment := List.singleton_inj.mp hlast
    exact ⟨l, .done _ _, hl, rfl⟩
  | @link limit l segment target hproper hfind =>
    obtain ⟨rfl, hlast⟩ := List.append_inj' (hsegments.trans (List.nil_append [segment]).symm) rfl
    obtain rfl : name = segment := List.singleton_inj.mp hlast
    exact ⟨l, .done _ _, hl, rfl⟩
  | @jump limit l segment rest m target hproper hfind hfollow htarget _ ih =>
    cases segments with
    | nil =>
      obtain ⟨-, rfl⟩ := List.cons.inj hsegments
      exact absurd ⟨rfl, rfl⟩ hfollow
    | cons first segments =>
      obtain ⟨rfl, rfl⟩ := List.cons.inj hsegments
      obtain ⟨d, hwalk, hdir, hm⟩ := ih (find_start (.inr hl)) (List.append_assoc _ _ _)
      exact ⟨d, .jump hproper hfind (by simp) htarget hwalk, hdir, hm⟩

/-- A walk to what is not a directory ends with the name of it. -/
theorem last_name (h : Walks t false limit l segments m) (hl : t.find l = some .dir)
    (hm : t.find m ≠ some .dir) : ∃ init name, segments = init ++ [name] ∧ Proper name := by
  induction h with
  | done => exact absurd hl hm
  | @skip limit l segment rest m _ _ ih =>
    obtain ⟨init, name, rfl, hname⟩ := ih hl hm
    exact ⟨segment :: init, name, rfl, hname⟩
  | up _ ih =>
    obtain ⟨init, name, rfl, hname⟩ := ih (find_dropLast hl) hm
    exact ⟨['.', '.'] :: init, name, rfl, hname⟩
  | @dir limit l segment rest m _ hfind _ ih =>
    obtain ⟨init, name, rfl, hname⟩ := ih hfind hm
    exact ⟨segment :: init, name, rfl, hname⟩
  | @file limit l segment _ hname _ => exact ⟨[], segment, rfl, hname⟩
  | @link limit l segment _ hname _ _ => exact ⟨[], segment, rfl, hname⟩
  | @jump limit l segment rest m target _ _ hfollow _ _ ih =>
    obtain ⟨init, name, heq, hname⟩ := ih (find_start (.inr hl)) hm
    cases rest using List.reverseRecOn with
    | nil => exact absurd ⟨rfl, rfl⟩ hfollow
    | append_singleton rest last =>
      rw [← List.append_assoc] at heq
      obtain rfl : last = name := List.singleton_inj.mp (List.append_inj_right' heq rfl)
      exact ⟨segment :: rest, last, rfl, hname⟩

end Walks

/-! ## Paths -/

section Resolve

variable {cwd : Location} {path : List Char}

theorem resolve_eq_some_iff : t.resolve limit cwd followLast path = some m ↔
    path ≠ [] ∧ (path.head? = some '/' ∨ t.find cwd = some .dir) ∧
      Walks t followLast limit (start cwd path) (path.splitOn '/') m := by
  rw [resolve, ← walk_eq_some_iff]
  by_cases hpath : path = []
  · simp [hpath]
  by_cases hroot : path.head? = some '/'
  · simp [hpath, hroot]
  rcases hcwd : t.find cwd with _ | _ | _ | _ <;> simp [hpath, hroot]

theorem resolve_mono (hsub : t'.Sub t) (h : t'.resolve limit cwd followLast path = some m) :
    t.resolve limit cwd followLast path = some m := by
  rw [resolve_eq_some_iff] at h ⊢
  exact ⟨h.1, h.2.1.imp id (hsub _ _), h.2.2.mono hsub⟩

theorem resolve_found (h : t.resolve limit cwd followLast path = some m) :
    ∃ e, t.find m = some e := by
  obtain ⟨-, hstart, hwalk⟩ := resolve_eq_some_iff.mp h
  exact hwalk.found (find_start hstart)

/-- A path whose last link can be followed names something, the link if it ends with one. -/
theorem resolve_last (h : t.resolve limit cwd true path = some m) :
    ∃ m', t.resolve limit cwd false path = some m' ∧
      (m' = m ∨ ∃ target limit', limit' < limit ∧ t.find m' = some (.link target) ∧ target ≠ [] ∧
        Walks t true limit' (start m'.dropLast target) (target.splitOn '/') m) := by
  obtain ⟨hpath, hstart, hwalk⟩ := resolve_eq_some_iff.mp h
  obtain ⟨m', hwalk', hlink⟩ := hwalk.last
  exact ⟨m', resolve_eq_some_iff.mpr ⟨hpath, hstart, hwalk'⟩, hlink⟩

theorem resolve_follow (h : t.resolve limit cwd false path = some m)
    (hm : ∀ target, t.find m ≠ some (.link target)) :
    t.resolve limit cwd true path = some m := by
  obtain ⟨hpath, hstart, hwalk⟩ := resolve_eq_some_iff.mp h
  exact resolve_eq_some_iff.mpr ⟨hpath, hstart, hwalk.follow hm⟩

end Resolve

end Volume

end FileTree
