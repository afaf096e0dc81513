import DarwinCore.Library.Forest
import DarwinCore.Model.Process.ProcessTree
import Mathlib.Data.List.Nodup

/-! # Links and adding -/

/-! ## The links of a process tree

Parents are made before their children, so that the loops over the ancestors of a node end, and
a node that nobody points to any more can be erased. -/

namespace DarwinCore.Process

open Forest

namespace ProcessTree

/-! ### The nodes in the tree -/

def parentOf (t : ProcessTree) (node : ℕ) : Option ℕ :=
  (t.heap node).parent

def ids (t : ProcessTree) : List ℕ :=
  t.nodes.map Prod.snd

def alive (t : ProcessTree) : Finset ℕ :=
  t.ids.toFinset.filter fun node => (t.heap node).state = .alive

variable {t t' : ProcessTree} {node n p x : ℕ} {f : ProcessNode → ProcessNode}

theorem mem_ids {entry : ProcKey × ℕ} (h : entry ∈ t.nodes) : entry.2 ∈ t.ids :=
  List.mem_map_of_mem h

theorem mem_alive : node ∈ t.alive ↔ node ∈ t.ids ∧ (t.heap node).state = .alive := by
  rw [alive, Finset.mem_filter, List.mem_toFinset]

theorem modify_self : (t.modify node f).heap node = f (t.heap node) := by
  simp [modify]

theorem modify_ne (h : x ≠ node) : (t.modify node f).heap x = t.heap x := by
  simp [modify, h]

@[simp] theorem modify_nodes : (t.modify node f).nodes = t.nodes :=
  rfl

@[simp] theorem modify_ids : (t.modify node f).ids = t.ids :=
  rfl

theorem modify_parentOf (hf : ∀ n, (f n).parent = n.parent) :
    (t.modify node f).parentOf = t.parentOf := by
  funext x
  by_cases hx : x = node
  · rw [parentOf, hx, modify_self, hf, parentOf]
  · rw [parentOf, modify_ne hx, parentOf]

/-- The tree and the objects agree on the keys. -/
structure Keyed (t : ProcessTree) : Prop where
  key : ∀ entry ∈ t.nodes, (t.heap entry.2).key = entry.1
  old : ∀ node ∈ t.ids, node < t.made
  distinct : (t.nodes.map Prod.fst).Nodup

theorem Keyed.eq_of_key (h : t.Keyed) {e e' : ProcKey × ℕ} (he : e ∈ t.nodes) (he' : e' ∈ t.nodes)
    (hkey : e.1 = e'.1) : e = e' :=
  List.inj_on_of_nodup_map h.distinct he he' hkey

/-- The links to parents, and the lists of children. -/
structure Linked (t : ProcessTree) : Prop where
  down : ∀ node p, t.parentOf node = some p → p < node
  unmade : ∀ node, t.made ≤ node → t.parentOf node = none
  parents : ∀ node ∈ t.ids, ∀ p, t.parentOf node = some p → p ∈ t.ids
  children : ∀ p ∈ t.ids, ∀ node,
    (t.heap p).children.count node = if node ∈ t.ids ∧ t.parentOf node = some p then 1 else 0

def Counted (t : ProcessTree) : Prop :=
  ∀ node ∈ t.ids, (t.heap node).aliveDescendantCount = tally t.parentOf t.alive node

/-- Dead nodes have something alive below them. -/
def Swept (t : ProcessTree) : Prop :=
  ∀ node ∈ t.ids, (t.heap node).state = .dead → 0 < (t.heap node).aliveDescendantCount

/-! ### Weak links -/

theorem lockParent_eq (h : ∀ p, t.parentOf node = some p → p ∈ t.ids) :
    t.lockParent node = t.parentOf node := by
  rw [lockParent, ← parentOf]
  cases hp : t.parentOf node with
  | none => rfl
  | some p =>
    obtain ⟨entry, hentry, heq⟩ := List.mem_map.mp (h p hp)
    refine Option.filter_some_pos ?_
    rw [isHeld, List.any_eq_true]
    exact ⟨entry, hentry, by simp [heq]⟩

theorem climb_none (fuel : ℕ) (t : ProcessTree) : climb f fuel none t = t := by
  cases fuel <;> rfl

/-- The loop reaches a node and all of its ancestors, and ends. -/
theorem climb_spec (hf : ∀ n, (f n).parent = n.parent) {fuel : ℕ} (hfuel : node < fuel)
    (hdown : ∀ a b, t.parentOf a = some b → b < a)
    (hup : ∀ a ∈ t.ids, ∀ b, t.parentOf a = some b → b ∈ t.ids) (hnode : node ∈ t.ids) :
    (climb f fuel (some node) t).nodes = t.nodes ∧
      (climb f fuel (some node) t).made = t.made ∧
      ∀ x, (Within t.parentOf node x → (climb f fuel (some node) t).heap x = f (t.heap x)) ∧
        (¬Within t.parentOf node x → (climb f fuel (some node) t).heap x = t.heap x) := by
  induction fuel generalizing node t with
  | zero => exact absurd hfuel (Nat.not_lt_zero node)
  | succ fuel ih =>
    have hparentOf : (t.modify node f).parentOf = t.parentOf := modify_parentOf hf
    have hlock : (t.modify node f).lockParent node = t.parentOf node := by
      rw [lockParent_eq, hparentOf]
      rw [hparentOf]
      exact hup node hnode
    rw [climb, hlock]
    cases hp : t.parentOf node with
    | none =>
      have hroot (x : ℕ) : Within t.parentOf node x ↔ node = x := by
        rw [within_iff, below_iff, hp]
        simp
      rw [climb_none]
      refine ⟨rfl, rfl, fun x => ⟨fun hx => ?_, fun hx => ?_⟩⟩
      · rw [← (hroot x).mp hx, modify_self]
      · exact modify_ne fun heq => hx ((hroot x).mpr heq.symm)
    | some p =>
      have hlt : p < node := hdown node p hp
      have hsplit (x : ℕ) : Within t.parentOf node x ↔ node = x ∨ Within t.parentOf p x := by
        rw [within_iff, below_iff, hp]
        simp
      have hbelow (x : ℕ) (hx : Within t.parentOf p x) : x < node := by
        rcases within_iff.mp hx with rfl | hx
        · exact hlt
        · exact (hx.lt hdown).trans hlt
      have hdown' : ∀ a b, (t.modify node f).parentOf a = some b → b < a := by rwa [hparentOf]
      have hup' : ∀ a ∈ (t.modify node f).ids, ∀ b, (t.modify node f).parentOf a = some b →
          b ∈ (t.modify node f).ids := by rwa [hparentOf]
      have hrest := ih (by omega : p < fuel) hdown' hup' (hup node hnode p hp)
      rw [hparentOf] at hrest
      obtain ⟨hnodes, hmade, hheap⟩ := hrest
      refine ⟨hnodes, hmade, fun x => ⟨fun hx => ?_, fun hx => ?_⟩⟩
      · rcases (hsplit x).mp hx with rfl | hx
        · rw [(hheap node).2 fun hself => Nat.lt_irrefl _ (hbelow node hself), modify_self]
        · rw [(hheap x).1 hx, modify_ne (Nat.ne_of_lt (hbelow x hx))]
      · rw [hsplit, not_or] at hx
        rw [(hheap x).2 hx.2, modify_ne (Ne.symm hx.1)]

end ProcessTree

/-! ## A process is added

The new node is a leaf: it changes one list of children, and the counters of its ancestors. -/

namespace ProcessTree

variable {t : ProcessTree} {info : ProcessInfo} {key : ProcKey} {node : ℕ}

theorem mem_of_find (h : t.find key = some node) : (key, node) ∈ t.nodes := by
  rw [find, Option.map_eq_some_iff] at h
  obtain ⟨entry, hfind, rfl⟩ := h
  have hkey : entry.1 = key := by simpa using List.find?_some hfind
  rw [← hkey]
  exact List.mem_of_find?_eq_some hfind

theorem find_eq_none (h : t.find key = none) : ∀ entry ∈ t.nodes, entry.1 ≠ key := by
  intro entry hentry
  rw [find, Option.map_eq_none_iff, List.find?_eq_none] at h
  simpa using h entry hentry

theorem Keyed.find (h : t.Keyed) (hmem : (key, node) ∈ t.nodes) : t.find key = some node := by
  cases hfind : t.find key with
  | none => exact absurd rfl (find_eq_none hfind _ hmem)
  | some other =>
    have heq := h.eq_of_key hmem (mem_of_find hfind) rfl
    rw [(Prod.mk.inj heq).2]

theorem Linked.fresh (h : t.Linked) (x : ℕ) : t.parentOf x ≠ some t.made := by
  intro hx
  have hlt := h.down x t.made hx
  rw [h.unmade x (Nat.le_of_lt hlt)] at hx
  cases hx

theorem Linked.within_ids (h : t.Linked) {p x : ℕ} (hp : p ∈ t.ids)
    (hx : Within t.parentOf p x) : x ∈ t.ids :=
  hx.closed (P := (· ∈ t.ids)) (fun a b ha hlink => h.parents a ha b hlink) hp

open scoped Classical in
/-- What `addProcess` does to a tree without the key, where `q` is the parent of the new node. -/
structure Added (t : ProcessTree) (info : ProcessInfo) (q : Option ℕ) (t' : ProcessTree) :
    Prop where
  parent : ∀ p, q = some p → p ∈ t.ids
  nodes : t'.nodes = (info.key, t.made) :: t.nodes
  made : t'.made = t.made + 1
  new : t'.heap t.made = { info := info, parent := q }
  others : ∀ x ≠ t.made, t'.heap x =
    { t.heap x with
      children := (t.heap x).children ++ (if q = some x then [t.made] else [])
      aliveDescendantCount := (t.heap x).aliveDescendantCount +
        if ∃ p, q = some p ∧ Within t.parentOf p x then 1 else 0 }

theorem addProcess_added (hkeyed : t.Keyed) (hlinked : t.Linked)
    (hnew : t.find info.key = none) : ∃ q, Added t info q (t.addProcess info) := by
  rw [addProcess, if_neg (by simp [hnew])]
  cases hfind : t.find info.parentKey with
  | none =>
    refine ⟨none, nofun, rfl, rfl, ?_, fun x hx => ?_⟩
    · simp
    · simp [hx]
  | some p =>
    have hp : p ∈ t.ids := mem_ids (mem_of_find hfind)
    have hlt : p < t.made := hkeyed.old p hp
    have hinside {x : ℕ} (hx : Within t.parentOf p x) : x < t.made :=
      hkeyed.old x (hlinked.within_ids hp hx)
    let s : ProcessTree :=
      { t with
        heap := Function.update t.heap t.made { info := info }
        made := t.made + 1 }
    let u : ProcessTree := s.modify t.made fun n => { n with parent := some p }
    let v : ProcessTree := u.modify p fun n => { n with children := n.children ++ [t.made] }
    have hvnew : v.heap t.made = { info := info, parent := some p } := by
      rw [modify_ne (Nat.ne_of_gt hlt), modify_self]
      simp [s]
    have hvp : v.heap p = { t.heap p with children := (t.heap p).children ++ [t.made] } := by
      rw [modify_self, modify_ne (Nat.ne_of_lt hlt)]
      simp [s, Nat.ne_of_lt hlt]
    have hvother (x : ℕ) (hx : x ≠ t.made) (hxp : x ≠ p) : v.heap x = t.heap x := by
      rw [modify_ne hxp, modify_ne hx]
      simp [s, hx]
    have hparentOf : v.parentOf = Function.update t.parentOf t.made (some p) := by
      funext x
      by_cases hx : x = t.made
      · rw [hx, Function.update_self, parentOf, hvnew]
      · rw [Function.update_of_ne hx, parentOf, parentOf]
        by_cases hxp : x = p
        · rw [hxp, hvp]
        · rw [hvother x hx hxp]
    have hwithin (x : ℕ) : Within v.parentOf p x ↔ Within t.parentOf p x := by
      rw [hparentOf]
      exact within_update hlinked.fresh (Nat.ne_of_lt hlt)
    have hdown : ∀ a b, v.parentOf a = some b → b < a := by
      intro a b hab
      rw [hparentOf] at hab
      by_cases ha : a = t.made
      · rw [ha, Function.update_self, Option.some.injEq] at hab
        omega
      · rw [Function.update_of_ne ha] at hab
        exact hlinked.down a b hab
    have hup : ∀ a ∈ v.ids, ∀ b, v.parentOf a = some b → b ∈ v.ids := by
      intro a ha b hab
      rw [hparentOf, Function.update_of_ne (Nat.ne_of_lt (hkeyed.old a ha))] at hab
      exact hlinked.parents a ha b hab
    obtain ⟨hnodes, hmade, hheap⟩ := climb_spec
      (f := fun n => { n with aliveDescendantCount := n.aliveDescendantCount + 1 })
      (fun _ => rfl) (Nat.lt_succ_of_lt hlt) hdown hup hp
    refine ⟨some p, ?_, congrArg ((info.key, t.made) :: ·) hnodes, hmade, ?_, fun x hx => ?_⟩
    · rintro p' heq
      exact Option.some.inj heq ▸ hp
    · refine ((hheap t.made).2 fun hself => ?_).trans hvnew
      exact Nat.lt_irrefl _ (hinside ((hwithin _).mp hself))
    · have hq : (∃ p', some p = some p' ∧ Within t.parentOf p' x) ↔ Within t.parentOf p x := by
        simp
      by_cases hw : Within t.parentOf p x
      · refine ((hheap x).1 ((hwithin x).mpr hw)).trans ?_
        rw [if_pos (hq.mpr hw)]
        by_cases hxp : x = p
        · rw [hxp, hvp, if_pos rfl]
        · rw [hvother x hx hxp, if_neg fun heq => hxp (Option.some.inj heq).symm,
            List.append_nil]
      · have hxp : x ≠ p := fun heq => hw (heq ▸ .refl)
        refine ((hheap x).2 fun h => hw ((hwithin x).mp h)).trans ?_
        rw [hvother x hx hxp, if_neg (fun h => hw (hq.mp h)),
          if_neg fun heq => hxp (Option.some.inj heq).symm, List.append_nil, Nat.add_zero]

namespace Added

variable {t' : ProcessTree} {q : Option ℕ}

theorem ids (h : Added t info q t') : t'.ids = t.made :: t.ids := by
  rw [ProcessTree.ids, h.nodes, List.map_cons, ProcessTree.ids]

theorem parentOf (h : Added t info q t') :
    t'.parentOf = Function.update t.parentOf t.made q := by
  funext x
  by_cases hx : x = t.made
  · rw [hx, Function.update_self, ProcessTree.parentOf, h.new]
  · rw [Function.update_of_ne hx, ProcessTree.parentOf, h.others x hx, ProcessTree.parentOf]

theorem state (h : Added t info q t') {x : ℕ} (hx : x ≠ t.made) :
    (t'.heap x).state = (t.heap x).state := by
  rw [h.others x hx]

theorem alive (h : Added t info q t') : t'.alive = insert t.made t.alive := by
  ext x
  rw [Finset.mem_insert, mem_alive, mem_alive, h.ids, List.mem_cons]
  by_cases hx : x = t.made
  · refine iff_of_true ⟨.inl hx, ?_⟩ (.inl hx)
    rw [hx, h.new]
  · rw [h.state hx]
    simp [hx]

theorem keyed (h : Added t info q t') (hkeyed : t.Keyed) (hnew : t.find info.key = none) :
    t'.Keyed where
  key entry hentry := by
    rw [h.nodes] at hentry
    rcases List.mem_cons.mp hentry with rfl | hold
    · rw [h.new]
      rfl
    · rw [h.others entry.2 (Nat.ne_of_lt (hkeyed.old _ (mem_ids hold)))]
      exact hkeyed.key entry hold
  old node hnode := by
    rw [h.ids] at hnode
    rw [h.made]
    rcases List.mem_cons.mp hnode with rfl | hold
    · exact Nat.lt_succ_self _
    · exact Nat.lt_succ_of_lt (hkeyed.old node hold)
  distinct := by
    rw [h.nodes, List.map_cons, List.nodup_cons]
    refine ⟨fun hmem => ?_, hkeyed.distinct⟩
    obtain ⟨entry, hentry, hkey⟩ := List.mem_map.mp hmem
    exact find_eq_none hnew entry hentry hkey

theorem linked (h : Added t info q t') (hkeyed : t.Keyed) (hlinked : t.Linked) : t'.Linked where
  down node p hp := by
    rw [h.parentOf] at hp
    by_cases hnode : node = t.made
    · rw [hnode, Function.update_self] at hp
      rw [hnode]
      exact hkeyed.old p (h.parent p hp)
    · rw [Function.update_of_ne hnode] at hp
      exact hlinked.down node p hp
  unmade node hnode := by
    rw [h.made] at hnode
    rw [h.parentOf, Function.update_of_ne (by omega)]
    exact hlinked.unmade node (by omega)
  parents node hnode p hp := by
    rw [h.ids] at hnode ⊢
    rw [h.parentOf] at hp
    refine List.mem_cons_of_mem _ ?_
    by_cases hself : node = t.made
    · rw [hself, Function.update_self] at hp
      exact h.parent p hp
    · rw [Function.update_of_ne hself] at hp
      exact hlinked.parents node ((List.mem_cons.mp hnode).resolve_left hself) p hp
  children p hp node := by
    have hunmade : t.made ∉ t.ids := fun hmem => Nat.lt_irrefl _ (hkeyed.old _ hmem)
    rw [h.ids] at hp
    rw [h.parentOf, h.ids]
    by_cases hself : p = t.made
    · -- nobody has the new node as its parent
      have hnobody : Function.update t.parentOf t.made q node ≠ some p := by
        rw [hself]
        by_cases hnode : node = t.made
        · rw [hnode, Function.update_self]
          exact fun heq => hunmade (h.parent _ heq)
        · rw [Function.update_of_ne hnode]
          exact hlinked.fresh node
      rw [if_neg fun hboth => hnobody hboth.2, hself, h.new]
      rfl
    · rw [h.others p hself]
      have hcount := hlinked.children p ((List.mem_cons.mp hp).resolve_left hself) node
      rw [List.count_append, hcount]
      by_cases hnode : node = t.made
      · rw [hnode, Function.update_self, if_neg fun hboth => hunmade hboth.1]
        by_cases hq : q = some p
        · simp [hq]
        · simp [hq]
      · have hnone : (if q = some p then [t.made] else []).count node = 0 := by
          split
          · simp [Ne.symm hnode]
          · rfl
        rw [hnone, Function.update_of_ne hnode, Nat.add_zero]
        simp [hnode]

theorem counted (h : Added t info q t') (hkeyed : t.Keyed) (hlinked : t.Linked)
    (hcounted : t.Counted) : t'.Counted := by
  intro node hnode
  have hunmade : t.made ∉ t.alive := fun hmem =>
    Nat.lt_irrefl _ (hkeyed.old _ (mem_alive.mp hmem).1)
  have hq : q ≠ some t.made := fun heq => Nat.lt_irrefl _ (hkeyed.old _ (h.parent _ heq))
  have hold : tally (Function.update t.parentOf t.made q) t.alive node =
      tally t.parentOf t.alive node := by
    refine tally_congr fun a ha => below_update hlinked.fresh ?_
    rintro rfl
    exact hunmade ha
  rw [h.parentOf, h.alive, tally_insert hunmade, hold,
    below_update_self hlinked.fresh hq]
  by_cases hself : node = t.made
  · have hbelow : ∀ a ∈ t.alive, ¬Below t.parentOf a node := by
      intro a ha hbelow
      have hlt := hbelow.lt hlinked.down
      have hold := hkeyed.old a (mem_alive.mp ha).1
      omega
    have hnone : tally t.parentOf t.alive node = 0 := by
      refine Nat.eq_zero_of_not_pos fun hpos => ?_
      obtain ⟨a, ha, hb⟩ := tally_pos.mp hpos
      exact hbelow a ha hb
    have hself' : ¬∃ p, q = some p ∧ Within t.parentOf p node := by
      rintro ⟨p, hp, hw⟩
      have hin := hkeyed.old node (hlinked.within_ids (h.parent p hp) hw)
      omega
    rw [hnone, if_neg hself', hself, h.new]
  · rw [h.ids] at hnode
    rw [h.others node hself, ← hcounted node ((List.mem_cons.mp hnode).resolve_left hself)]
    by_cases hw : ∃ p, q = some p ∧ Within t.parentOf p node
    · simp only [if_pos hw]
    · simp only [if_neg hw]

theorem swept (h : Added t info q t') (hswept : t.Swept) : t'.Swept := by
  intro node hnode hdead
  rw [h.ids] at hnode
  by_cases hself : node = t.made
  · rw [hself, h.new] at hdead
    cases hdead
  · rw [h.state hself] at hdead
    have hpos := hswept node ((List.mem_cons.mp hnode).resolve_left hself) hdead
    rw [h.others node hself]
    exact Nat.lt_of_lt_of_le hpos (Nat.le_add_right _ _)

end Added

end ProcessTree

end DarwinCore.Process
