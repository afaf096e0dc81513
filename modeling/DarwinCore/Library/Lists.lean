import Mathlib.Data.List.Basic
import Mathlib.Data.List.Chain
import Mathlib.Data.List.Forall2
import Mathlib.Data.Finmap

/-! # Lists -/

/-! ## Lists: traversals that may fail, cutting into pieces, tables -/

namespace Lists

universe u v w

variable {α : Type u} {β : Type v} {ε : Type w}

/-! ### Traversals that may fail -/

/-- A traversal succeeds when it succeeds on each element. -/
theorem mapM_ok_iff {f : α → Except ε β} {xs : List α} {ys : List β} :
    xs.mapM f = .ok ys ↔ List.Forall₂ (fun x y => f x = .ok y) xs ys := by
  induction xs generalizing ys with
  | nil => cases ys <;> simp [pure, Except.pure]
  | cons x xs ih =>
    rw [List.mapM_cons]
    cases hx : f x with
    | error err => cases ys <;> simp [hx, bind, Except.bind]
    | ok y =>
      cases hxs : xs.mapM f with
      | error err =>
        refine iff_of_false (by simp [bind, Except.bind]) fun h => ?_
        cases h with
        | cons _ htail =>
          rw [← ih, hxs] at htail
          cases htail
      | ok zs =>
        rw [hxs] at ih
        cases ys with
        | nil => simp [bind, Except.bind, pure, Except.pure]
        | cons y' ys =>
          simp [bind, Except.bind, pure, Except.pure, hx, ← ih]

theorem exists_mapM_ok {f : α → Except ε β} {xs : List α} (h : ∀ x ∈ xs, ∃ y, f x = .ok y) :
    ∃ ys, xs.mapM f = .ok ys := by
  induction xs with
  | nil => exact ⟨[], rfl⟩
  | cons x xs ih =>
    obtain ⟨y, hy⟩ := h x List.mem_cons_self
    obtain ⟨ys, hys⟩ := ih fun x' hx' => h x' (List.mem_cons_of_mem _ hx')
    exact ⟨y :: ys, mapM_ok_iff.mpr (.cons hy (mapM_ok_iff.mp hys))⟩

/-- A prefix that is longer than the first part of a list ends in the second. -/
theorem prefix_past {xs before rest : List α} {first : α}
    (h : xs <+: before ++ first :: rest) (hlen : before.length < xs.length) :
    ∃ data more, xs = before ++ first :: data ∧ rest = data ++ more := by
  rcases List.prefix_or_prefix_of_prefix h (List.prefix_append before _) with hle | ⟨ys, rfl⟩
  · exact absurd hle.length_le (Nat.not_le_of_lt hlen)
  · have hys := (List.prefix_append_right_inj before).mp h
    cases ys with
    | nil => simp at hlen
    | cons y data =>
      obtain ⟨rfl, more, hmore⟩ := List.cons_prefix_cons.mp hys
      exact ⟨data, more, rfl, hmore.symm⟩

theorem filterMap_singleton (f : α → Option β) (x : α) : [x].filterMap f = (f x).toList := by
  cases h : f x <;> simp [h]

/-- Lists with distinct keys that differ in their order only, but not in that of the keys. -/
theorem eq_of_perm_of_map_eq {f : α → β} {xs ys : List α} (hperm : xs.Perm ys)
    (hmap : xs.map f = ys.map f) (hnodup : (ys.map f).Nodup) : xs = ys := by
  refine List.ext_getElem hperm.length_eq fun i hi hi' => ?_
  refine List.inj_on_of_nodup_map hnodup (hperm.subset (List.getElem_mem hi))
    (List.getElem_mem hi') ?_
  rw [← List.getElem_map f (h := by simpa using hi), ← List.getElem_map f (h := by simpa using hi')]
  simp only [hmap]

theorem dedup_replicate_append [DecidableEq α] {x : α} {xs : List α} (h : x ∉ xs)
    (n : ℕ) : (List.replicate (n + 1) x ++ xs).dedup = x :: xs.dedup := by
  induction n with
  | zero => exact List.dedup_cons_of_notMem h
  | succ n ih =>
    rw [List.replicate_succ, List.cons_append, List.dedup_cons_of_mem, ih]
    simp [List.replicate_succ]

/-! ### Related lists -/

section Related

variable {R : α → β → Prop} {xs : List α} {ys : List β}

theorem exists_left_of_mem (h : List.Forall₂ R xs ys) {y : β} (hy : y ∈ ys) :
    ∃ x ∈ xs, R x y := by
  induction h with
  | nil => simp at hy
  | @cons x y' xs ys hxy _ ih =>
    rcases List.mem_cons.mp hy with rfl | hy
    · exact ⟨x, List.mem_cons_self, hxy⟩
    · obtain ⟨x', hx', hR⟩ := ih hy
      exact ⟨x', List.mem_cons_of_mem _ hx', hR⟩

theorem filterMap_eq_map {γ : Type*} {f : β → Option γ} {g : α → γ}
    (hR : ∀ x y, R x y → f y = some (g x)) (h : List.Forall₂ R xs ys) :
    ys.filterMap f = xs.map g := by
  induction h with
  | nil => rfl
  | cons hxy _ ih => rw [List.filterMap_cons_some (hR _ _ hxy), ih, List.map_cons]

theorem map_eq_map {γ : Type*} {f : β → γ} {g : α → γ} (h : List.Forall₂ R xs ys)
    (hR : ∀ x ∈ xs, ∀ y, R x y → f y = g x) : ys.map f = xs.map g := by
  induction h with
  | nil => rfl
  | @cons x y xs ys hxy _ ih =>
    rw [List.forall_mem_cons] at hR
    rw [List.map_cons, List.map_cons, hR.1 y hxy, ih hR.2]

theorem forall₂_split {before after : List α} {front back : List β} {x : α} {y : β}
    (h : List.Forall₂ R (before ++ x :: after) (front ++ y :: back))
    (hplace : front.length = before.length) :
    List.Forall₂ R before front ∧ R x y ∧ List.Forall₂ R after back := by
  induction before generalizing front with
  | nil =>
    obtain rfl := List.eq_nil_of_length_eq_zero hplace
    rw [List.nil_append, List.nil_append, List.forall₂_cons] at h
    exact ⟨.nil, h⟩
  | cons x' before ih =>
    cases front with
    | nil => cases hplace
    | cons y' front =>
      rw [List.cons_append, List.cons_append, List.forall₂_cons] at h
      obtain ⟨hbefore, hrest⟩ := ih h.2 (Nat.succ.inj hplace)
      exact ⟨.cons h.1 hbefore, hrest⟩

theorem forall₂_append_cons {before after : List α} {x : α}
    (h : List.Forall₂ R (before ++ x :: after) ys) :
    ∃ front y back, ys = front ++ y :: back ∧ front.length = before.length := by
  have hlt : before.length < ys.length := by
    rw [← h.length_eq, List.length_append, List.length_cons]
    omega
  refine ⟨ys.take before.length, ys[before.length], ys.drop (before.length + 1), ?_, ?_⟩
  · rw [List.getElem_cons_drop, List.take_append_drop]
  · rw [List.length_take]
    omega

end Related

/-! ### Pieces -/

/-- Consecutive pieces of one size put the front of the list together again. -/
theorem flatMap_pieces (xs : List α) (size count : ℕ) :
    (List.range count).flatMap (fun i => (xs.drop (i * size)).take size) =
      xs.take (count * size) := by
  induction count with
  | zero => simp
  | succ count ih =>
    rw [List.range_succ, List.flatMap_append, ih, Nat.succ_mul, List.take_add]
    simp

/-- What is numbered in order is numbered in order in every piece of it. -/
theorem map_infix_eq_range {f : α → β} {g : ℕ → β} {xs window : List α} {n : ℕ}
    (h : xs.map f = (List.range' n xs.length).map g) (hwindow : window <:+: xs) :
    ∃ m, window.map f = (List.range' m window.length).map g := by
  obtain ⟨front, back, rfl⟩ := hwindow
  refine ⟨n + front.length, ?_⟩
  have hlength : (front ++ window ++ back).length =
      front.length + window.length + back.length := by
    rw [List.length_append, List.length_append]
  rw [hlength, ← List.range'_append_1, ← List.range'_append_1, List.map_append, List.map_append,
    List.map_append, List.map_append] at h
  have hboth := List.append_inj h (by simp)
  exact (List.append_inj hboth.1 (by simp)).2

theorem forall_successive_map {f : α → β} {xs : List α} {P : β → β → Prop} :
    (∀ y z, [z, y] <:+: xs.map f → P y z) ↔ ∀ u v, [v, u] <:+: xs → P (f u) (f v) := by
  constructor
  · intro h u v huv
    exact h (f u) (f v) (huv.map f)
  · intro h y z hyz
    obtain ⟨window, hwindow, hsame⟩ := List.infix_map_iff.mp hyz
    obtain ⟨v, rest, rfl, rfl, hrest⟩ := List.map_eq_cons_iff.mp hsame.symm
    obtain ⟨u, nothing, rfl, rfl, hnothing⟩ := List.map_eq_cons_iff.mp hrest
    obtain rfl := List.map_eq_nil_iff.mp hnothing
    exact h u v hwindow

/-- In a list that starts with unmarked elements, whatever stands before a marked one starts
with them. -/
theorem append_eq_append_marked {p : α → Prop} {extra xs newer older : List α} {x : α}
    (hextra : ∀ e ∈ extra, ¬p e) (hx : p x) (h : extra ++ xs = newer ++ x :: older) :
    ∃ newer', newer = extra ++ newer' ∧ xs = newer' ++ x :: older := by
  rcases List.append_eq_append_iff.mp h with ⟨rest, hrest, hxs⟩ | ⟨rest, hrest, holder⟩
  · exact ⟨rest, hrest, hxs⟩
  · cases rest with
    | nil => exact ⟨[], by simpa using hrest.symm, by simpa using holder.symm⟩
    | cons y rest =>
      obtain ⟨rfl, -⟩ := List.cons_eq_cons.mp holder
      exact absurd hx (hextra x (by rw [hrest]; simp))

/-! ### Changing one element -/

theorem map_set_eq_modify {f : α → β} {g : β → β} {xs : List α} {i : ℕ} {x y : α}
    (hx : xs[i]? = some x) (hy : f y = g (f x)) :
    (xs.set i y).map f = (xs.map f).modify i g := by
  refine List.ext_getElem? fun j => ?_
  by_cases hij : i = j
  · subst hij
    have hlt := (List.getElem?_eq_some_iff.mp hx).1
    rw [List.getElem?_map, List.getElem?_set_self hlt, List.getElem?_modify_eq,
      List.getElem?_map, hx]
    exact congrArg some hy
  · rw [List.getElem?_modify_ne g _ hij, List.getElem?_map, List.getElem?_map,
      List.getElem?_set_ne hij]

theorem modify_inj {g : α → α} (hg : ∀ x, g x ≠ x) {xs : List α} {i j : ℕ} (hj : j < xs.length) :
    xs.modify i g = xs.modify j g ↔ i = j := by
  constructor
  · intro h
    by_contra hij
    have hsame := congrArg (·[j]?) h
    rw [List.getElem?_modify_ne g _ hij, List.getElem?_modify_eq,
      List.getElem?_eq_getElem hj] at hsame
    exact hg _ (Option.some.inj hsame).symm
  · rintro rfl
    rfl

/-! ### Tables -/

theorem exists_table {key : α → β} {γ : Type*} [Inhabited γ] [DecidableEq β] (value : α → γ)
    {xs : List α} (h : (xs.map key).Nodup) :
    ∃ table : β → γ, ∀ x ∈ xs, table (key x) = value x := by
  induction xs with
  | nil => exact ⟨fun _ => default, by simp⟩
  | cons x xs ih =>
    rw [List.map_cons, List.nodup_cons] at h
    obtain ⟨table, htable⟩ := ih h.2
    refine ⟨Function.update table (key x) (value x), ?_⟩
    rintro y (_ | ⟨_, hy⟩)
    · simp
    · have hne : key y ≠ key x := fun heq => h.1 (heq ▸ List.mem_map_of_mem hy)
      rw [Function.update_of_ne hne, htable y hy]

theorem filter_eq_singleton [DecidableEq β] {key : α → β} {xs : List α}
    (h : (xs.map key).Nodup) {x : α} (hx : x ∈ xs) :
    (xs.filter fun y => key y = key x) = [x] := by
  induction xs with
  | nil => cases hx
  | cons y xs ih =>
    rw [List.map_cons, List.nodup_cons] at h
    rcases List.mem_cons.mp hx with rfl | hx
    · have hrest : (xs.filter fun y => key y = key x) = [] := by
        rw [List.filter_eq_nil_iff]
        intro y hy heq
        exact h.1 (List.mem_map.mpr ⟨y, hy, of_decide_eq_true heq⟩)
      rw [List.filter_cons_of_pos (by simp), hrest]
    · have hne : key y ≠ key x := fun heq => h.1 (heq ▸ List.mem_map_of_mem hx)
      rw [List.filter_cons_of_neg (by simpa using hne)]
      exact ih h.2 hx

end Lists

/-! ## Stretches of a list

A relation links some neighbours of a list; where it does not, the list falls apart. The last
stretch is the part since then. -/

namespace Stretches

variable {α : Type*} {R : α → α → Prop} {l seg s : List α} {x a : α}

/-- The longest part at the end of the list in which all neighbours are linked. -/
structure LastStretch (R : α → α → Prop) (l seg : List α) : Prop where
  chain : seg.IsChain R
  suffix : seg <:+ l
  longest : ∀ s, s <:+ l → s.IsChain R → s <:+ seg

theorem lastStretch_nil : LastStretch R [] [] where
  chain := .nil
  suffix := List.suffix_rfl
  longest := fun _ hs _ => hs

theorem getLast?_of_suffix (h : s <:+ l) (ha : a ∈ s.getLast?) : a ∈ l.getLast? := by
  obtain ⟨rest, rfl⟩ := h
  rw [List.getLast?_append, Option.mem_def.mp ha]
  rfl

theorem LastStretch.concat (h : LastStretch R l seg) (hlink : ∀ a ∈ l.getLast?, R a x) :
    LastStretch R (l ++ [x]) (seg ++ [x]) where
  chain := by
    rw [List.isChain_append]
    refine ⟨h.chain, .singleton x, fun a ha y hy => ?_⟩
    obtain rfl : x = y := by simpa using hy
    exact hlink a (getLast?_of_suffix h.suffix ha)
  suffix := (List.suffix_append_inj_of_length_eq rfl).mpr ⟨h.suffix, rfl⟩
  longest := by
    intro s hs hchain
    rcases List.suffix_concat_iff.mp hs with rfl | ⟨t, rfl, ht⟩
    · exact List.nil_suffix
    · have hsub := h.longest t ht (List.isChain_append.mp hchain).1
      obtain ⟨rest, rfl⟩ := hsub
      exact ⟨rest, by simp⟩

theorem LastStretch.fresh (hbreak : ∀ a ∈ l.getLast?, ¬R a x) :
    LastStretch R (l ++ [x]) [x] where
  chain := .singleton x
  suffix := List.suffix_append l [x]
  longest := by
    intro s hs hchain
    rcases List.suffix_concat_iff.mp hs with rfl | ⟨t, rfl, ht⟩
    · exact List.nil_suffix
    · cases hlast : t.getLast? with
      | none => simp [List.getLast?_eq_none_iff.mp hlast]
      | some a =>
        have hlink := (List.isChain_append.mp hchain).2.2 a hlast x rfl
        exact absurd hlink (hbreak a (getLast?_of_suffix ht hlast))

end Stretches

/-! ## Marked positions

Lists of flags as the positions that are marked in them. -/

namespace Marks

variable {n k : ℕ} {p q : ℕ → Bool} {ks : List ℕ}

/-- The positions below `n` that `p` marks. -/
def ofPred (n : ℕ) (p : ℕ → Bool) : List Bool :=
  (List.range n).map p

@[simp] theorem length_ofPred : (ofPred n p).length = n := by
  simp [ofPred]

@[simp] theorem getElem_ofPred {i : ℕ} (h : i < (ofPred n p).length) : (ofPred n p)[i] = p i := by
  simp [ofPred]

theorem ofPred_congr (h : ∀ i < n, p i = q i) : ofPred n p = ofPred n q :=
  List.map_congr_left fun i hi => h i (List.mem_range.mp hi)

theorem replicate_eq : List.replicate n false = ofPred n fun _ => false := by
  rw [ofPred, List.map_const', List.length_range]

theorem ofPred_set : (ofPred n p).set k true = ofPred n fun i => p i || i == k := by
  refine List.ext_getElem (by simp) fun i hi hi' => ?_
  rw [List.getElem_set, getElem_ofPred, getElem_ofPred]
  by_cases h : k = i
  · simp [h]
  · simp [h, Ne.symm h]

theorem ofPred_foldl_set : ks.foldl (fun flags k => flags.set k true) (ofPred n p) =
    ofPred n fun i => p i || ks.contains i := by
  induction ks generalizing p with
  | nil => exact ofPred_congr fun i _ => (Bool.or_false (p i)).symm
  | cons k ks ih =>
    rw [List.foldl_cons, ofPred_set, ih]
    refine ofPred_congr fun i _ => ?_
    rw [List.contains_cons, Bool.or_assoc]

theorem ofPred_zipWith_or :
    List.zipWith (· || ·) (ofPred n p) (ofPred n q) = ofPred n fun i => p i || q i := by
  rw [ofPred, ofPred, ofPred, List.zipWith_map, List.zipWith_self]

end Marks

/-! ## Finite maps: what is found after a change -/

namespace Maps

universe u v

variable {α : Type u} {β : Type v} [DecidableEq α] {m : Finmap fun _ : α => β} {a b : α}
  {x y : β}

theorem ne_of_lookup (ha : m.lookup a = none) (hb : m.lookup b = some x) : b ≠ a := by
  rintro rfl
  rw [ha] at hb
  cases hb

theorem lookup_erase_eq_some : (m.erase a).lookup b = some x ↔ b ≠ a ∧ m.lookup b = some x := by
  by_cases h : b = a
  · subst h
    simp
  · simp [Finmap.lookup_erase_ne h, h]

theorem lookup_insert_eq_some :
    (m.insert a y).lookup b = some x ↔ b = a ∧ y = x ∨ b ≠ a ∧ m.lookup b = some x := by
  by_cases h : b = a
  · subst h
    simp
  · simp [Finmap.lookup_insert_of_ne _ h, h]

/-! ### The number of keys -/

theorem card_insert_of_none (h : m.lookup a = none) :
    (m.insert a y).keys.card = m.keys.card + 1 := by
  have hkeys : (m.insert a y).keys = insert a m.keys := by
    ext b
    simp [Finmap.mem_keys, Finmap.mem_insert]
  rw [hkeys, Finset.card_insert_of_notMem]
  rw [Finmap.mem_keys, Finmap.mem_iff]
  simp [h]

theorem card_insert_of_some (h : m.lookup a = some x) :
    (m.insert a y).keys.card = m.keys.card := by
  have hmem : a ∈ m.keys := Finmap.mem_keys.mpr (Finmap.mem_of_lookup_eq_some h)
  have hkeys : (m.insert a y).keys = insert a m.keys := by
    ext b
    simp [Finmap.mem_keys, Finmap.mem_insert]
  rw [hkeys, Finset.insert_eq_self.mpr hmem]

theorem card_erase_of_some (h : m.lookup a = some x) :
    (m.erase a).keys.card + 1 = m.keys.card := by
  have hmem : a ∈ m.keys := Finmap.mem_keys.mpr (Finmap.mem_of_lookup_eq_some h)
  rw [Finmap.keys_erase, Finset.card_erase_add_one hmem]

end Maps
