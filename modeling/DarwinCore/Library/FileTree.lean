import Mathlib.Data.List.Basic
import Mathlib.Data.List.Induction
import Mathlib.Data.List.Infix
import Mathlib.Data.List.Nodup

/-! # Trees of files

Directories, files and symbolic links, each at its location below the root. -/

namespace FileTree

abbrev Name := List Char

abbrev Location := List Name

structure PlainName (name : Name) : Prop where
  ne_nil : name ≠ []
  slash : '/' ∉ name
  dot : name ≠ ['.']
  dotDot : name ≠ ['.', '.']

instance (name : Name) : Decidable (PlainName name) :=
  decidable_of_iff (name ≠ [] ∧ '/' ∉ name ∧ name ≠ ['.'] ∧ name ≠ ['.', '.'])
    ⟨fun ⟨h₁, h₂, h₃, h₄⟩ => ⟨h₁, h₂, h₃, h₄⟩, fun ⟨h₁, h₂, h₃, h₄⟩ => ⟨h₁, h₂, h₃, h₄⟩⟩

inductive Entry (α : Type*) where
  | dir
  | file (content : α)
  | link (target : List Char)
deriving DecidableEq

/-- A tree lists its entries; the root, a directory, is not one of them. -/
structure Volume (α : Type*) where
  entries : List (Location × Entry α)
  nodup : (entries.map Prod.fst).Nodup
  plain : ∀ e ∈ entries, ∃ name ∈ e.1.getLast?, PlainName name
  closed : ∀ e ∈ entries, e.1.dropLast = [] ∨ (e.1.dropLast, Entry.dir) ∈ entries

namespace Volume

variable {α : Type*} {t t' : Volume α} {l m d : Location} {name : Name} {e e' : Entry α}

def find (t : Volume α) (l : Location) : Option (Entry α) :=
  if l = [] then some .dir else (t.entries.find? fun e => e.1 = l).map Prod.snd

def children (t : Volume α) (l : Location) : List Name :=
  t.entries.filterMap fun e => if e.1.dropLast = l then e.1.getLast? else none

def Leaf (t : Volume α) (l : Location) : Prop :=
  ∀ e ∈ t.entries, l <+: e.1 → e.1 = l

instance : Decidable (t.Leaf l) :=
  inferInstanceAs (Decidable (∀ e ∈ t.entries, l <+: e.1 → e.1 = l))

theorem find_nil : t.find [] = some .dir :=
  rfl

theorem ne_nil_of_mem (h : (l, e) ∈ t.entries) : l ≠ [] := by
  obtain ⟨name, hname, -⟩ := t.plain _ h
  rintro rfl
  cases hname

theorem find_eq_some_iff (hl : l ≠ []) : t.find l = some e ↔ (l, e) ∈ t.entries := by
  rw [find, if_neg hl, Option.map_eq_some_iff]
  constructor
  · rintro ⟨⟨l', e'⟩, hfind, rfl⟩
    obtain rfl : l' = l := by simpa using List.find?_some hfind
    exact List.mem_of_find?_eq_some hfind
  · intro hmem
    cases hfind : t.entries.find? fun e => e.1 = l with
    | none => exact absurd (List.find?_eq_none.mp hfind _ hmem) (by simp)
    | some found =>
      obtain ⟨l', e'⟩ := found
      obtain rfl : l' = l := by simpa using List.find?_some hfind
      have hfound := List.mem_of_find?_eq_some hfind
      exact ⟨_, rfl, congrArg Prod.snd (List.inj_on_of_nodup_map t.nodup hfound hmem rfl)⟩

theorem find_dropLast (h : t.find l = some e) : t.find l.dropLast = some .dir := by
  by_cases hl : l = []
  · subst hl
    rfl
  · rcases t.closed _ ((find_eq_some_iff hl).mp h) with hroot | hdir
    · rw [show l.dropLast = [] from hroot, find_nil]
    · exact (find_eq_some_iff (ne_nil_of_mem hdir)).mpr hdir

theorem find_above {r : Location} (h : t.find (l ++ r) = some e) (hr : r ≠ []) :
    t.find l = some .dir := by
  induction r using List.reverseRecOn generalizing e with
  | nil => exact absurd rfl hr
  | append_singleton r name ih =>
    have hparent := find_dropLast h
    rw [← List.append_assoc, List.dropLast_concat] at hparent
    by_cases hnil : r = []
    · rwa [hnil, List.append_nil] at hparent
    · exact ih hparent hnil

theorem find_below (h : t.find l ≠ some .dir) (hm : l <+: m) (hne : m ≠ l) : t.find m = none := by
  obtain ⟨r, rfl⟩ := hm
  cases hfind : t.find (l ++ r) with
  | none => rfl
  | some e => exact absurd (find_above hfind fun hr => hne (by rw [hr, List.append_nil])) h

theorem Leaf.find (h : t.Leaf l) (hm : l <+: m) (hne : m ≠ l) : t.find m = none := by
  have hm0 : m ≠ [] := by
    rintro rfl
    exact hne (List.prefix_nil.mp hm).symm
  cases hfind : t.find m with
  | none => rfl
  | some e => exact absurd (h _ ((find_eq_some_iff hm0).mp hfind) hm) hne

theorem leaf_of_find (h : ∀ m, l <+: m → m ≠ l → t.find m = none) : t.Leaf l := by
  rintro ⟨m, e⟩ hmem hpre
  by_contra hne
  have hfind := (find_eq_some_iff (ne_nil_of_mem hmem)).mpr hmem
  rw [h m hpre hne] at hfind
  cases hfind

theorem mem_children : name ∈ t.children l ↔ ∃ e, t.find (l ++ [name]) = some e := by
  have hne : l ++ [name] ≠ [] := by simp
  simp only [find_eq_some_iff hne, children, List.mem_filterMap]
  constructor
  · rintro ⟨⟨m, e⟩, hmem, hname⟩
    split_ifs at hname with hdrop
    obtain rfl : m = l ++ [name] := by
      rw [← hdrop]
      exact (List.dropLast_append_getLast? _ hname).symm
    exact ⟨e, hmem⟩
  · rintro ⟨e, hmem⟩
    exact ⟨_, hmem, by simp⟩

theorem plainName (h : t.find (l ++ [name]) = some e) : PlainName name := by
  obtain ⟨last, hlast, hplain⟩ := t.plain _ ((find_eq_some_iff (by simp)).mp h)
  rw [List.getLast?_concat] at hlast
  rwa [Option.some.inj hlast]

/-! ## Taking entries away -/

def Sub (t' t : Volume α) : Prop :=
  ∀ l e, t'.find l = some e → t.find l = some e

theorem Sub.refl (t : Volume α) : t.Sub t :=
  fun _ _ h => h

theorem Sub.trans {t'' : Volume α} (h : t''.Sub t') (h' : t'.Sub t) : t''.Sub t :=
  fun l e he => h' l e (h l e he)

theorem Sub.children (h : t'.Sub t) (hname : name ∈ t'.children l) : name ∈ t.children l := by
  obtain ⟨e, he⟩ := mem_children.mp hname
  exact mem_children.mpr ⟨e, h _ e he⟩

/-- The tree without the entry at a location that has nothing below. -/
def erase (t : Volume α) (l : Location) (hleaf : t.Leaf l) : Volume α where
  entries := t.entries.filter fun e => e.1 ≠ l
  nodup := t.nodup.sublist (List.filter_sublist.map _)
  plain e he := t.plain e (List.mem_of_mem_filter he)
  closed e he := by
    obtain ⟨hmem, hne⟩ := List.mem_filter.mp he
    have hne : e.1 ≠ l := by simpa using hne
    rcases t.closed e hmem with hroot | hdir
    · exact .inl hroot
    · refine .inr (List.mem_filter.mpr ⟨hdir, ?_⟩)
      suffices h : e.1.dropLast ≠ l by simpa using h
      -- an entry below the location would not let it be a leaf
      intro hparent
      exact hne (hleaf e hmem (hparent ▸ List.dropLast_prefix e.1))

theorem find_erase (hleaf : t.Leaf l) (hl : l ≠ []) (m : Location) :
    (t.erase l hleaf).find m = if m = l then none else t.find m := by
  by_cases hm : m = []
  · subst hm
    rw [if_neg (Ne.symm hl)]
    rfl
  · refine Option.ext fun e => ?_
    rw [find_eq_some_iff hm]
    split_ifs with h
    · simp [erase, h]
    · simp [erase, h, find_eq_some_iff hm]

/-- The tree of the entries in a set of locations that has all directories above its members. -/
def restrict (t : Volume α) (p : Location → Prop) [DecidablePred p] (hp : ∀ l, p l → p l.dropLast) :
    Volume α where
  entries := t.entries.filter fun e => p e.1
  nodup := t.nodup.sublist (List.filter_sublist.map _)
  plain e he := t.plain e (List.mem_of_mem_filter he)
  closed e he := by
    obtain ⟨hmem, hin⟩ := List.mem_filter.mp he
    have hin : p e.1 := by simpa using hin
    rcases t.closed e hmem with hroot | hdir
    · exact .inl hroot
    · exact .inr (List.mem_filter.mpr ⟨hdir, by simpa using hp e.1 hin⟩)

theorem find_restrict {p : Location → Prop} [DecidablePred p] (hp : ∀ l, p l → p l.dropLast)
    (hroot : p []) (m : Location) :
    (t.restrict p hp).find m = if p m then t.find m else none := by
  by_cases hm : m = []
  · subst hm
    rw [if_pos hroot]
    rfl
  · refine Option.ext fun e => ?_
    rw [find_eq_some_iff hm]
    split_ifs with h
    · simp [restrict, h, find_eq_some_iff hm]
    · simp [restrict, h]

/-! ## Moving an entry -/

/-- What is at or below `f` goes to `d`. -/
def rebase (f d l : Location) : Location :=
  if f <+: l then d ++ l.drop f.length else l

/-- An entry can go to `d`: there is nothing below, and `d` is in a directory outside `f`. -/
structure Movable (t : Volume α) (f d : Location) : Prop where
  source : f ≠ []
  outside : ¬f <+: d
  leaf : t.Leaf d
  name : ∃ name ∈ d.getLast?, PlainName name
  parent : t.find d.dropLast = some .dir

theorem Movable.congr {f d : Location} (h : t.Movable f d) (hfind : ∀ m, t'.find m = t.find m) :
    t'.Movable f d :=
  ⟨h.source, h.outside, leaf_of_find fun m hm hne => (hfind m).trans (h.leaf.find hm hne), h.name,
    (hfind _).trans h.parent⟩

theorem rebase_append (f d l : Location) : rebase f d (f ++ l) = d ++ l := by
  rw [rebase, if_pos (List.prefix_append f l), List.drop_left]

theorem rebase_of_outside {f d l : Location} (h : ¬f <+: l) : rebase f d l = l :=
  if_neg h

section Movable

variable {f d : Location}

theorem Movable.target_ne (h : t.Movable f d) : d ≠ [] := by
  obtain ⟨name, hname, -⟩ := h.name
  rintro rfl
  cases hname

theorem Movable.ne (h : t.Movable f d) : f ≠ d := by
  rintro rfl
  exact h.outside (List.prefix_refl f)

theorem Movable.not_above (h : t.Movable f d) (hf : t.find f = some e) : ¬d <+: f := by
  intro hpre
  rw [h.leaf.find hpre h.ne] at hf
  cases hf

theorem Movable.dropLast_ne (h : t.Movable f d) : d.dropLast ≠ d := by
  intro heq
  have hlength := congrArg List.length heq
  have hpos := List.length_pos_iff.mpr h.target_ne
  rw [List.length_dropLast] at hlength
  omega

/-- Only what was below `f` comes to be below `d`. -/
theorem Movable.prefix_of_rebase (h : t.Movable f d) {l : Location} {e : Entry α}
    (hmem : (l, e) ∈ t.entries) (hne : l ≠ d) (hpre : d <+: rebase f d l) : f <+: l := by
  by_contra hf
  rw [rebase_of_outside hf] at hpre
  exact hne (h.leaf _ hmem hpre)

theorem rebase_injOn (h : t.Movable f d) {l l' : Location} {e e' : Entry α}
    (hl : (l, e) ∈ t.entries) (hl' : (l', e') ∈ t.entries) (hne : l ≠ d) (hne' : l' ≠ d)
    (heq : rebase f d l = rebase f d l') : l = l' := by
  by_cases hf : f <+: l
  · obtain ⟨r, rfl⟩ := hf
    have hf' : f <+: l' := h.prefix_of_rebase hl' hne'
      (by rw [← heq, rebase_append]; exact List.prefix_append d r)
    obtain ⟨r', rfl⟩ := hf'
    rw [rebase_append, rebase_append] at heq
    rw [List.append_cancel_left heq]
  · by_cases hf' : f <+: l'
    · obtain ⟨r', rfl⟩ := hf'
      exact absurd (h.prefix_of_rebase hl hne
        (by rw [heq, rebase_append]; exact List.prefix_append d r')) hf
    · rwa [rebase_of_outside hf, rebase_of_outside hf'] at heq

theorem dropLast_rebase {l : Location} (hl : l ≠ f) :
    (rebase f d l).dropLast = rebase f d l.dropLast := by
  by_cases hf : f <+: l
  · obtain ⟨r, rfl⟩ := hf
    have hr : r ≠ [] := by
      rintro rfl
      exact hl (List.append_nil f)
    rw [rebase_append, List.dropLast_append_of_ne_nil hr, List.dropLast_append_of_ne_nil hr,
      rebase_append]
  · rw [rebase_of_outside hf, rebase_of_outside]
    exact fun hpre => hf (hpre.trans (List.dropLast_prefix l))

end Movable

/-- The tree in which what is at `f` has gone to `d`; what was at `d` is gone. -/
def move (t : Volume α) (f d : Location) (h : t.Movable f d) : Volume α where
  entries := (t.entries.filter fun e => e.1 ≠ d).map fun e => (rebase f d e.1, e.2)
  nodup := by
    rw [List.map_map]
    refine List.Nodup.map_on ?_ (List.Nodup.filter _ (List.Nodup.of_map _ t.nodup))
    rintro ⟨l, e⟩ hl ⟨l', e'⟩ hl' heq
    obtain ⟨hmem, hne⟩ := List.mem_filter.mp hl
    obtain ⟨hmem', hne'⟩ := List.mem_filter.mp hl'
    have hsame := rebase_injOn h hmem hmem' (by simpa using hne) (by simpa using hne') heq
    exact List.inj_on_of_nodup_map t.nodup hmem hmem' hsame
  plain e he := by
    obtain ⟨⟨l, e⟩, hmem, rfl⟩ := List.mem_map.mp he
    obtain ⟨name, hname, hplain⟩ := t.plain _ (List.mem_of_mem_filter hmem)
    by_cases hf : f <+: l
    · obtain ⟨r, rfl⟩ := hf
      rw [rebase_append]
      by_cases hr : r = []
      · rw [hr, List.append_nil]
        exact h.name
      · rw [List.getLast?_append_of_ne_nil _ hr] at hname ⊢
        exact ⟨name, hname, hplain⟩
    · rw [rebase_of_outside hf]
      exact ⟨name, hname, hplain⟩
  closed e he := by
    obtain ⟨⟨l, e⟩, hmem, rfl⟩ := List.mem_map.mp he
    obtain ⟨hmem, hne⟩ := List.mem_filter.mp hmem
    have hne : l ≠ d := by simpa using hne
    have hkeep {l' : Location} (hl' : (l', Entry.dir) ∈ t.entries) (hne' : l' ≠ d) :
        (rebase f d l', Entry.dir) ∈
          (t.entries.filter fun e => e.1 ≠ d).map fun e => (rebase f d e.1, e.2) :=
      List.mem_map.mpr ⟨(l', .dir), List.mem_filter.mpr ⟨hl', by simpa using hne'⟩, rfl⟩
    by_cases hl : l = f
    · -- the entry itself: its new directory is there
      subst hl
      have hself : rebase l d l = d := by simpa using rebase_append l d []
      simp only [hself]
      by_cases hroot : d.dropLast = []
      · exact .inl hroot
      · have hparent := hkeep ((find_eq_some_iff hroot).mp h.parent) h.dropLast_ne
        rw [rebase_of_outside fun hpre => h.outside
          (hpre.trans (List.dropLast_prefix d))] at hparent
        exact .inr hparent
    · simp only [dropLast_rebase hl]
      rcases t.closed _ hmem with hroot | hdir
      · refine .inl ?_
        rw [show l.dropLast = [] from hroot, rebase_of_outside]
        simpa using h.source
      · refine .inr (hkeep hdir ?_)
        intro hparent
        exact hne (h.leaf _ hmem (hparent ▸ List.dropLast_prefix l))

theorem mem_move {f d : Location} (h : t.Movable f d) : (m, e) ∈ (t.move f d h).entries ↔
    ∃ l, (l, e) ∈ t.entries ∧ l ≠ d ∧ rebase f d l = m := by
  simp only [move, List.mem_map, List.mem_filter, decide_eq_true_eq, Prod.exists, Prod.mk.injEq]
  constructor
  · rintro ⟨l, e, ⟨hmem, hne⟩, hm, rfl⟩
    exact ⟨l, hmem, hne, hm⟩
  · rintro ⟨l, hmem, hne, hm⟩
    exact ⟨l, e, ⟨hmem, hne⟩, hm, rfl⟩

theorem find_move {f d : Location} (h : t.Movable f d) (m : Location) :
    (t.move f d h).find m =
      if d <+: m then t.find (f ++ m.drop d.length) else if f <+: m then none else t.find m := by
  by_cases hm : m = []
  · subst hm
    rw [if_neg (by simpa using h.target_ne), if_neg (by simpa using h.source)]
    rfl
  · refine Option.ext fun e => ?_
    rw [find_eq_some_iff hm, mem_move]
    split_ifs with hd hf
    · obtain ⟨r, rfl⟩ := hd
      rw [List.drop_left, find_eq_some_iff (by simp [h.source])]
      constructor
      · rintro ⟨l, hmem, hne, hl⟩
        obtain ⟨r', rfl⟩ := h.prefix_of_rebase hmem hne (hl ▸ List.prefix_append d r)
        rw [rebase_append] at hl
        rwa [← List.append_cancel_left hl]
      · intro hmem
        exact ⟨f ++ r, hmem, fun heq => h.outside (heq ▸ List.prefix_append f r),
          rebase_append f d r⟩
    · simp only [iff_false]
      rintro ⟨l, hmem, hne, rfl⟩
      by_cases hl : f <+: l
      · obtain ⟨r, rfl⟩ := hl
        exact hd (rebase_append f d r ▸ List.prefix_append d r)
      · rw [rebase_of_outside hl] at hf
        exact hl hf
    · rw [find_eq_some_iff hm]
      constructor
      · rintro ⟨l, hmem, hne, rfl⟩
        by_cases hl : f <+: l
        · obtain ⟨r, rfl⟩ := hl
          exact absurd (rebase_append f d r ▸ List.prefix_append d r) hd
        · rwa [rebase_of_outside hl]
      · intro hmem
        exact ⟨m, hmem, fun heq => hd (heq ▸ List.prefix_refl m), rebase_of_outside hf⟩

/-! ## New entries -/

/-- An entry can come to `l`: there is none, and the directory is there. -/
structure Free (t : Volume α) (l : Location) : Prop where
  absent : t.find l = none
  name : ∃ name ∈ l.getLast?, PlainName name
  parent : t.find l.dropLast = some .dir

theorem Free.ne_nil (h : t.Free l) : l ≠ [] := by
  rintro rfl
  have habsent := h.absent
  rw [find_nil] at habsent
  cases habsent

def insert (t : Volume α) (l : Location) (e : Entry α) (h : t.Free l) : Volume α where
  entries := t.entries ++ [(l, e)]
  nodup := by
    rw [List.map_append, List.map_singleton]
    refine t.nodup.append (List.nodup_singleton l) (List.disjoint_singleton.mpr fun hmem => ?_)
    obtain ⟨⟨l', e'⟩, hentry, hl⟩ := List.mem_map.mp hmem
    obtain rfl : l' = l := hl
    have hfind := (find_eq_some_iff h.ne_nil).mpr hentry
    rw [h.absent] at hfind
    cases hfind
  plain := List.forall_mem_append.mpr ⟨t.plain, List.forall_mem_singleton.mpr h.name⟩
  closed := by
    refine List.forall_mem_append.mpr ⟨fun e' he' => ?_, List.forall_mem_singleton.mpr ?_⟩
    · exact (t.closed e' he').imp id (List.mem_append_left _)
    · by_cases hroot : l.dropLast = []
      · exact .inl hroot
      · exact .inr (List.mem_append_left _ ((find_eq_some_iff hroot).mp h.parent))

theorem find_insert (h : t.Free l) (m : Location) :
    (t.insert l e h).find m = if m = l then some e else t.find m := by
  by_cases hm : m = []
  · subst hm
    rw [if_neg h.ne_nil.symm]
    rfl
  · refine Option.ext fun e' => ?_
    rw [find_eq_some_iff hm, insert, List.mem_append, List.mem_singleton, Prod.mk.injEq]
    split_ifs with hl
    · subst hl
      rw [← find_eq_some_iff hm, h.absent]
      simp [eq_comm]
    · simp [hl, find_eq_some_iff hm]

/-! ## The order of the entries -/

/-- The tree with its entries in another order. -/
def reorder (t : Volume α) (entries : List (Location × Entry α)) (h : entries.Perm t.entries) :
    Volume α where
  entries := entries
  nodup := (h.map Prod.fst).nodup_iff.mpr t.nodup
  plain e he := t.plain e (h.mem_iff.mp he)
  closed e he := (t.closed e (h.mem_iff.mp he)).imp id h.mem_iff.mpr

theorem find_reorder {entries : List (Location × Entry α)} (h : entries.Perm t.entries)
    (m : Location) : (t.reorder entries h).find m = t.find m := by
  by_cases hm : m = []
  · rw [hm, find_nil, find_nil]
  · refine Option.ext fun e => ?_
    rw [find_eq_some_iff hm, find_eq_some_iff hm]
    exact h.mem_iff

/-- In some order every directory on the way to `l` has the next one on the way first. -/
theorem exists_first (t : Volume α) (l : Location) : ∃ t' : Volume α, (∀ m, t'.find m = t.find m) ∧
    ∀ d name rest e, l = d ++ name :: rest → t.find (d ++ [name]) = some e →
      ∃ others, t'.children d = name :: others := by
  have hperm : (t.entries.filter (fun e => decide (e.1 <+: l)) ++
      t.entries.filter fun e => !decide (e.1 <+: l)).Perm t.entries :=
    List.filter_append_perm _ t.entries
  refine ⟨t.reorder _ hperm, find_reorder hperm, ?_⟩
  rintro d name rest e rfl hfind
  have hmem := (find_eq_some_iff (by simp)).mp hfind
  simp only [children, reorder, List.filterMap_append]
  generalize hnames : (t.entries.filter fun e => decide (e.1 <+: d ++ name :: rest)).filterMap
    (fun e => if e.1.dropLast = d then e.1.getLast? else none) = names
  have hname : name ∈ names := by
    rw [← hnames, List.mem_filterMap]
    refine ⟨_, List.mem_filter.mpr ⟨hmem, ?_⟩, by simp⟩
    simp
  cases names with
  | nil => cases hname
  | cons first names =>
    have hfirst : first ∈ first :: names := List.mem_cons_self
    rw [← hnames, List.mem_filterMap] at hfirst
    obtain ⟨⟨m, entry⟩, hm, hlast⟩ := hfirst
    obtain ⟨-, hbegins⟩ := List.mem_filter.mp hm
    split_ifs at hlast with hdrop
    obtain rfl : m = d ++ [first] := by
      rw [← hdrop]
      exact (List.dropLast_append_getLast? _ hlast).symm
    obtain rfl : first = name := by simpa using hbegins
    exact ⟨_, List.cons_append⟩

/-! ## Depth -/

/-- How far below the root there are entries. -/
def depth (t : Volume α) : ℕ :=
  (t.entries.map fun e => e.1.length).foldr max 0

theorem length_le_depth (h : t.find l = some e) : l.length ≤ t.depth := by
  by_cases hl : l = []
  · subst hl
    exact Nat.zero_le _
  · have hmem := (find_eq_some_iff hl).mp h
    unfold depth
    generalize t.entries = entries at hmem
    induction entries with
    | nil => simp at hmem
    | cons first entries ih =>
      rw [List.map_cons, List.foldr_cons]
      rcases List.mem_cons.mp hmem with rfl | hmem
      · exact Nat.le_max_left _ _
      · exact (ih hmem).trans (Nat.le_max_right _ _)

end Volume

end FileTree
