import DarwinCore.Verification.Process.Adding

/-! # Dead processes are reclaimed

A node that is marked as dead leaves the counters of its ancestors. It is erased when nothing
alive is below it, and then so is every ancestor for which it was the last reason to stay. The
nodes on the way up are erased last, so that the invariants hold of the tree without them. -/

namespace DarwinCore.Process

open Forest

namespace ProcessTree

variable {t t' v w : ProcessTree} {node n p x : ℕ} {D : List ℕ}

/-! ## The counters -/

structure Marked (t : ProcessTree) (node : ℕ) (t' : ProcessTree) : Prop where
  nodes : t'.nodes = t.nodes
  made : t'.made = t.made
  self : t'.heap node = { t.heap node with state := .dead }
  above : ∀ x, Below t.parentOf node x → t'.heap x =
    { t.heap x with aliveDescendantCount := (t.heap x).aliveDescendantCount - 1 }
  others : ∀ x ≠ node, ¬Below t.parentOf node x → t'.heap x = t.heap x

theorem decrement_eq (n : ProcessNode) :
    (if 0 < n.aliveDescendantCount then
      { n with aliveDescendantCount := n.aliveDescendantCount - 1 } else n) =
      { n with aliveDescendantCount := n.aliveDescendantCount - 1 } := by
  split
  · rfl
  · rw [show n.aliveDescendantCount - 1 = n.aliveDescendantCount by omega]

theorem decrementAlive_marked (hkeyed : t.Keyed) (hlinked : t.Linked) (hnode : node ∈ t.ids)
    {s : ProcessTree} (hs : s = t.modify node fun n => { n with state := .dead }) :
    Marked t node (decrementAlive s.made (s.lockParent node) s) := by
  have hparentOf : s.parentOf = t.parentOf := by
    rw [hs]
    exact modify_parentOf fun _ => rfl
  have hids : s.ids = t.ids := by rw [hs, modify_ids]
  have hself : s.heap node = { t.heap node with state := .dead } := by rw [hs, modify_self]
  have hother (x : ℕ) (hx : x ≠ node) : s.heap x = t.heap x := by rw [hs, modify_ne hx]
  have hlock : s.lockParent node = t.parentOf node := by
    rw [lockParent_eq, hparentOf]
    rw [hparentOf, hids]
    exact hlinked.parents node hnode
  have hnodes : s.nodes = t.nodes := by rw [hs, modify_nodes]
  have hmade : s.made = t.made := by
    rw [hs]
    rfl
  rw [hlock]
  cases hp : t.parentOf node with
  | none =>
    have hnone (x : ℕ) : ¬Below t.parentOf node x := by
      rw [below_iff, hp]
      simp
    rw [decrementAlive, climb_none]
    exact ⟨hnodes, hmade, hself, fun x hx => absurd hx (hnone x), fun x hx _ => hother x hx⟩
  | some p =>
    have hbelow (x : ℕ) : Below t.parentOf node x ↔ Within t.parentOf p x := by
      rw [below_iff, hp]
      simp
    have hlt : p < s.made := by
      rw [hmade]
      exact (hlinked.down node p hp).trans (hkeyed.old node hnode)
    have hnot : ¬Within t.parentOf p node := fun h =>
      Nat.lt_irrefl _ (((hbelow node).mpr h).lt hlinked.down)
    have hdown : ∀ a b, s.parentOf a = some b → b < a := by
      rw [hparentOf]
      exact hlinked.down
    have hup : ∀ a ∈ s.ids, ∀ b, s.parentOf a = some b → b ∈ s.ids := by
      rw [hparentOf, hids]
      exact hlinked.parents
    have hpmem : p ∈ s.ids := hids ▸ hlinked.parents node hnode p hp
    obtain ⟨hnodes', hmade', hheap⟩ := climb_spec
      (f := fun n => if 0 < n.aliveDescendantCount then
        { n with aliveDescendantCount := n.aliveDescendantCount - 1 } else n)
      (fun n => by rw [decrement_eq]) hlt hdown hup hpmem
    rw [hparentOf] at hheap
    refine ⟨hnodes'.trans hnodes, hmade'.trans hmade, ?_, fun x hx => ?_, fun x hx hout => ?_⟩
    · exact ((hheap node).2 hnot).trans hself
    · have hne : x ≠ node := fun heq => hnot (heq ▸ (hbelow x).mp hx)
      refine ((hheap x).1 ((hbelow x).mp hx)).trans ?_
      rw [decrement_eq, hother x hne]
    · exact ((hheap x).2 fun hw => hout ((hbelow x).mpr hw)).trans (hother x hx)

namespace Marked

variable (h : Marked t node t')

include h

theorem ids : t'.ids = t.ids := by
  rw [ProcessTree.ids, h.nodes, ProcessTree.ids]

theorem fields (x : ℕ) : (t'.heap x).info = (t.heap x).info ∧
    (t'.heap x).parent = (t.heap x).parent ∧ (t'.heap x).children = (t.heap x).children := by
  by_cases hbelow : Below t.parentOf node x
  · rw [h.above x hbelow]
    exact ⟨rfl, rfl, rfl⟩
  · by_cases hx : x = node
    · rw [hx, h.self]
      exact ⟨rfl, rfl, rfl⟩
    · rw [h.others x hx hbelow]
      exact ⟨rfl, rfl, rfl⟩

theorem parentOf : t'.parentOf = t.parentOf :=
  funext fun x => (h.fields x).2.1

theorem state (hx : x ≠ node) : (t'.heap x).state = (t.heap x).state := by
  by_cases hbelow : Below t.parentOf node x
  · rw [h.above x hbelow]
  · rw [h.others x hx hbelow]

theorem keyed (hkeyed : t.Keyed) : t'.Keyed where
  key entry hentry := by
    rw [ProcessNode.key, (h.fields entry.2).1]
    exact hkeyed.key entry (h.nodes ▸ hentry)
  old x hx := by
    rw [h.made]
    exact hkeyed.old x (h.ids ▸ hx)
  distinct := by
    rw [h.nodes]
    exact hkeyed.distinct

theorem linked (hlinked : t.Linked) : t'.Linked where
  down := by
    rw [h.parentOf]
    exact hlinked.down
  unmade := by
    rw [h.parentOf, h.made]
    exact hlinked.unmade
  parents := by
    rw [h.parentOf, h.ids]
    exact hlinked.parents
  children p hp x := by
    rw [(h.fields p).2.2, h.parentOf, h.ids]
    exact hlinked.children p (h.ids ▸ hp) x

theorem alive : t'.alive = t.alive.erase node := by
  ext x
  rw [Finset.mem_erase, mem_alive, mem_alive, h.ids]
  by_cases hx : x = node
  · refine iff_of_false (fun hboth => ?_) fun hboth => hboth.1 hx
    rw [hx, h.self] at hboth
    cases hboth.2
  · rw [h.state hx]
    simp [hx]

theorem counted (hcounted : t.Counted) (halive : node ∈ t.alive) : t'.Counted := by
  intro x hx
  rw [h.ids] at hx
  rw [h.parentOf, h.alive]
  have hcount := hcounted x hx
  have herase : tally t.parentOf (t.alive.erase node) x + _ = tally t.parentOf t.alive x :=
    tally_erase halive
  by_cases hbelow : Below t.parentOf node x
  · rw [if_pos hbelow] at herase
    rw [h.above x hbelow]
    dsimp only
    omega
  · rw [if_neg hbelow] at herase
    have hsame : (t'.heap x).aliveDescendantCount = (t.heap x).aliveDescendantCount := by
      by_cases hself : x = node
      · rw [hself, h.self]
      · rw [h.others x hself hbelow]
    omega

end Marked

/-! ## Erasing -/

/-- Only `n` and nodes above it can be dead with nothing alive below them. -/
def SweptBut (n : ℕ) (t : ProcessTree) : Prop :=
  ∀ x ∈ t.ids, (t.heap x).state = .dead → (t.heap x).aliveDescendantCount = 0 →
    Within t.parentOf n x

theorem Marked.sweptBut (h : Marked t node t') (hswept : t.Swept) : t'.SweptBut node := by
  intro x hx hdead hzero
  rw [h.ids] at hx
  rw [h.parentOf, within_iff]
  by_contra hout
  rw [not_or] at hout
  rw [h.others x (Ne.symm hout.1) hout.2] at hdead hzero
  exact Nat.ne_of_gt (hswept x hx hdead) hzero

/-- If `n` stays, so does everything above it. -/
theorem SweptBut.swept (h : t.SweptBut n) (hn : n ∈ t.ids) (hcounted : t.Counted)
    (hstays : ¬((t.heap n).state = .dead ∧ (t.heap n).aliveDescendantCount = 0)) : t.Swept := by
  intro x hx hdead
  refine Nat.pos_of_ne_zero fun hzero => ?_
  rcases within_iff.mp (h x hx hdead hzero) with rfl | hbelow
  · exact hstays ⟨hdead, hzero⟩
  · rw [hcounted x hx] at hzero
    refine Nat.ne_of_gt (tally_pos.mpr ?_) hzero
    cases hstate : (t.heap n).state with
    | alive => exact ⟨n, mem_alive.mpr ⟨hn, hstate⟩, hbelow⟩
    | dead =>
      have hpos : 0 < tally t.parentOf t.alive n := by
        rw [← hcounted n hn]
        exact Nat.pos_of_ne_zero fun hnone => hstays ⟨hstate, hnone⟩
      obtain ⟨a, ha, hb⟩ := tally_pos.mp hpos
      exact ⟨a, ha, hb.trans hbelow⟩

theorem SweptBut.childless (h : t.SweptBut n) (hn : n ∈ t.ids) (hlinked : t.Linked)
    (hcounted : t.Counted) (hzero : (t.heap n).aliveDescendantCount = 0) :
    ∀ x ∈ t.ids, t.parentOf x ≠ some n := by
  intro x hx hparent
  have hlink : Below t.parentOf x n := .single hparent
  have hnone : tally t.parentOf t.alive n = 0 := (hcounted n hn).symm.trans hzero
  refine Nat.ne_of_gt (tally_pos.mpr ?_) hnone
  cases hstate : (t.heap x).state with
  | alive => exact ⟨x, mem_alive.mpr ⟨hx, hstate⟩, hlink⟩
  | dead =>
    have hpos : 0 < tally t.parentOf t.alive x := by
      rw [← hcounted x hx]
      refine Nat.pos_of_ne_zero fun hnothing => ?_
      rcases within_iff.mp (h x hx hstate hnothing) with rfl | hup
      · exact Nat.lt_irrefl _ (hlink.lt hlinked.down)
      · exact Nat.lt_irrefl _ ((hlink.trans hup).lt hlinked.down)
    obtain ⟨a, ha, hb⟩ := tally_pos.mp hpos
    exact ⟨a, ha, hb.trans hlink⟩

/-- `w` is `v` without the node `n`. -/
structure Removed (n : ℕ) (v w : ProcessTree) : Prop where
  nodes : w.nodes = v.nodes.filter fun entry => entry.2 ≠ n
  made : w.made = v.made
  heap : ∀ x, w.heap x = { v.heap x with children := (w.heap x).children }
  children : ∀ x ∈ w.ids, ∀ y,
    (w.heap x).children.count y = if y = n then 0 else (v.heap x).children.count y

namespace Removed

theorem mem_ids (h : Removed n v w) : x ∈ w.ids ↔ x ∈ v.ids ∧ x ≠ n := by
  rw [ids, h.nodes, ids, List.mem_map, List.mem_map]
  constructor
  · rintro ⟨entry, hentry, rfl⟩
    obtain ⟨hmem, hne⟩ := List.mem_filter.mp hentry
    exact ⟨⟨entry, hmem, rfl⟩, of_decide_eq_true hne⟩
  · rintro ⟨⟨entry, hmem, rfl⟩, hne⟩
    exact ⟨entry, List.mem_filter.mpr ⟨hmem, decide_eq_true hne⟩, rfl⟩

theorem parentOf (h : Removed n v w) : w.parentOf = v.parentOf := by
  funext x
  rw [ProcessTree.parentOf, h.heap x, ProcessTree.parentOf]

theorem linked (h : Removed n v w) (hlinked : v.Linked)
    (hchildless : ∀ x ∈ v.ids, v.parentOf x ≠ some n) : w.Linked where
  down := by
    rw [h.parentOf]
    exact hlinked.down
  unmade := by
    rw [h.parentOf, h.made]
    exact hlinked.unmade
  parents x hx p hp := by
    rw [h.parentOf] at hp
    obtain ⟨hx, -⟩ := h.mem_ids.mp hx
    refine h.mem_ids.mpr ⟨hlinked.parents x hx p hp, ?_⟩
    rintro rfl
    exact hchildless x hx hp
  children p hp x := by
    rw [h.children p hp x, h.parentOf, hlinked.children p (h.mem_ids.mp hp).1 x]
    simp only [h.mem_ids]
    by_cases hx : x = n
    · simp [hx]
    · simp [hx]

theorem alive (h : Removed n v w) (hdead : (v.heap n).state = .dead) : w.alive = v.alive := by
  ext x
  rw [mem_alive, mem_alive, h.mem_ids, h.heap x]
  by_cases hx : x = n
  · rw [hx, hdead]
    simp
  · simp [hx]

theorem counted (h : Removed n v w) (hcounted : v.Counted) (hdead : (v.heap n).state = .dead) :
    w.Counted := by
  intro x hx
  rw [h.heap x, h.parentOf, h.alive hdead]
  exact hcounted x (h.mem_ids.mp hx).1

theorem sweptBut (h : Removed n v w) (hswept : v.SweptBut n) (hp : v.parentOf n = some p) :
    w.SweptBut p := by
  intro x hx hdead hzero
  rw [h.heap x] at hdead hzero
  obtain ⟨hx, hne⟩ := h.mem_ids.mp hx
  rw [h.parentOf]
  rcases within_iff.mp (hswept x hx hdead hzero) with heq | hbelow
  · exact absurd heq.symm hne
  · obtain ⟨p', hp', hw⟩ := below_iff.mp hbelow
    rw [hp, Option.some.injEq] at hp'
    exact hp' ▸ hw

theorem swept (h : Removed n v w) (hswept : v.SweptBut n) (hp : v.parentOf n = none) :
    w.Swept := by
  intro x hx hdead
  rw [h.heap x] at hdead ⊢
  obtain ⟨hx, hne⟩ := h.mem_ids.mp hx
  refine Nat.pos_of_ne_zero fun hzero => ?_
  rcases within_iff.mp (hswept x hx hdead hzero) with heq | hbelow
  · exact hne heq.symm
  · obtain ⟨p, hsome, -⟩ := below_iff.mp hbelow
    rw [hp] at hsome
    cases hsome

end Removed

/-! ## The way up -/

/-- The tree without the nodes in `D`, which are still to be erased. -/
def hide (D : List ℕ) (t : ProcessTree) : ProcessTree :=
  { t with nodes := t.nodes.filter fun entry => entry.2 ∉ D }

theorem mem_hide : x ∈ (hide D t).ids ↔ x ∈ t.ids ∧ x ∉ D := by
  rw [ids, ids, hide, List.mem_map, List.mem_map]
  constructor
  · rintro ⟨entry, hentry, rfl⟩
    obtain ⟨hmem, hout⟩ := List.mem_filter.mp hentry
    exact ⟨⟨entry, hmem, rfl⟩, of_decide_eq_true hout⟩
  · rintro ⟨⟨entry, hmem, rfl⟩, hout⟩
    exact ⟨entry, List.mem_filter.mpr ⟨hmem, decide_eq_true hout⟩, rfl⟩

theorem hide_heap : (hide D t).heap = t.heap :=
  rfl

theorem hide_nil (t : ProcessTree) : hide [] t = t := by
  simp [hide]

/-- Only dead nodes go, and only lists of children change. -/
structure Reclaimed (t t' : ProcessTree) : Prop where
  nodes : t'.nodes.Sublist t.nodes
  made : t'.made = t.made
  heap : ∀ x, t'.heap x = { t.heap x with children := (t'.heap x).children }
  dead : ∀ entry ∈ t.nodes, entry ∉ t'.nodes → (t.heap entry.2).state = .dead

theorem Reclaimed.refl (t : ProcessTree) : Reclaimed t t :=
  ⟨List.Sublist.refl _, rfl, fun _ => rfl, fun _ hmem hnot => absurd hmem hnot⟩

theorem Reclaimed.keyed (h : Reclaimed t t') (hkeyed : t.Keyed) : t'.Keyed where
  key entry hentry := by
    rw [h.heap entry.2]
    exact hkeyed.key entry (h.nodes.subset hentry)
  old x hx := by
    rw [h.made]
    exact hkeyed.old x ((h.nodes.map _).subset hx)
  distinct := hkeyed.distinct.sublist (h.nodes.map _)

theorem Reclaimed.trans {t'' : ProcessTree} (h : Reclaimed t t') (h' : Reclaimed t' t'') :
    Reclaimed t t'' where
  nodes := h'.nodes.trans h.nodes
  made := h'.made.trans h.made
  heap x := by rw [h'.heap x, h.heap x]
  dead entry hentry hgone := by
    by_cases hmem : entry ∈ t'.nodes
    · have hdead := h'.dead entry hmem hgone
      rw [h.heap] at hdead
      exact hdead
    · exact h.dead entry hentry hmem

theorem Keyed.key_iff (hkeyed : t.Keyed) (hn : n ∈ t.ids) {entry : ProcKey × ℕ}
    (hentry : entry ∈ t.nodes) : entry.1 = (t.heap n).key ↔ entry.2 = n := by
  obtain ⟨other, hother, rfl⟩ := List.mem_map.mp hn
  rw [hkeyed.key other hother]
  refine ⟨fun heq => ?_, fun heq => ?_⟩
  · rw [hkeyed.eq_of_key hentry hother heq]
  · rw [← hkeyed.key entry hentry, ← hkeyed.key other hother, heq]

theorem Reclaimed.erase (h : Reclaimed t t') (hkeyed : t.Keyed) (hn : n ∈ t.ids)
    (hdead : (t.heap n).state = .dead) : Reclaimed t (t'.erase (t.heap n).key) where
  nodes := List.filter_sublist.trans h.nodes
  made := h.made
  heap := h.heap
  dead entry hentry hgone := by
    by_cases hmem : entry ∈ t'.nodes
    · have hkey : entry.1 = (t.heap n).key := by
        by_contra hother
        exact hgone (List.mem_filter.mpr ⟨hmem, decide_eq_true hother⟩)
      rw [(hkeyed.key_iff hn hentry).mp hkey]
      exact hdead
    · exact h.dead entry hentry hmem

/-- Erasing the key of `n` erases `n`. -/
theorem hide_erase (hkeyed : t.Keyed) (hn : n ∈ t.ids) {s : ProcessTree}
    (hs : s.nodes.Sublist t.nodes) :
    hide D (s.erase (t.heap n).key) = hide (n :: D) s := by
  rw [hide, hide, ProcessTree.erase]
  congr 1
  rw [List.filter_filter]
  refine List.filter_congr fun entry hentry => ?_
  simp [hkeyed.key_iff hn (hs.subset hentry), Bool.and_comm]

/-- The parent forgets the child, which is then hidden. -/
theorem removed_modify (hlinked : (hide D t).Linked) (hp : t.parentOf n = some p) :
    Removed n (hide D t) (hide (n :: D)
      (t.modify p fun m => { m with children := m.children.filter (· ≠ n) })) where
  nodes := by
    rw [hide, hide, modify_nodes, List.filter_filter]
    refine List.filter_congr fun entry _ => ?_
    simp
  made := rfl
  heap x := by
    rw [hide_heap, hide_heap]
    by_cases hx : x = p
    · rw [hx, modify_self]
    · rw [modify_ne hx]
  children x hx y := by
    rw [hide_heap, hide_heap]
    by_cases hxp : x = p
    · rw [hxp, modify_self]
      by_cases hy : y = n
      · rw [if_pos hy, hy]
        exact List.count_eq_zero.mpr (by simp)
      · rw [if_neg hy]
        exact List.count_filter (by simpa using hy)
    · rw [modify_ne hxp]
      by_cases hy : y = n
      · rw [if_pos hy, hy]
        have hmem : x ∈ (hide D t).ids := by
          rw [mem_hide] at hx ⊢
          exact ⟨hx.1, fun hin => hx.2 (List.mem_cons_of_mem n hin)⟩
        refine (hlinked.children x hmem n).trans (if_neg fun hboth => ?_)
        have heq : some p = some x := hp.symm.trans hboth.2
        exact hxp (Option.some.inj heq).symm
      · rw [if_neg hy]

theorem removed_hide (hchildren : ∀ x ∈ (hide D t).ids, (t.heap x).children.count n = 0) :
    Removed n (hide D t) (hide (n :: D) t) where
  nodes := by
    rw [hide, hide, List.filter_filter]
    refine List.filter_congr fun entry _ => ?_
    simp
  made := rfl
  heap _ := rfl
  children x hx y := by
    by_cases hy : y = n
    · rw [if_pos hy, hy]
      refine hchildren x ?_
      rw [mem_hide] at hx ⊢
      exact ⟨hx.1, fun hin => hx.2 (List.mem_cons_of_mem n hin)⟩
    · rw [if_neg hy]
      rfl

/-- `tryCleanup` erases `n` and what then has to go above it. -/
theorem tryCleanup_spec {fuel : ℕ} (hfuel : n < fuel) (hkeyed : t.Keyed)
    (hlinked : (hide D t).Linked) (hcounted : (hide D t).Counted) (hn : n ∈ (hide D t).ids)
    (hswept : (hide D t).SweptBut n) :
    Reclaimed t (tryCleanup fuel n t) ∧ (hide D (tryCleanup fuel n t)).Linked ∧
      (hide D (tryCleanup fuel n t)).Counted ∧ (hide D (tryCleanup fuel n t)).Swept := by
  induction fuel generalizing n t D with
  | zero => exact absurd hfuel (Nat.not_lt_zero n)
  | succ fuel ih =>
    obtain ⟨hnmem, -⟩ := mem_hide.mp hn
    have hlock : t.lockParent n = t.parentOf n :=
      lockParent_eq fun p hp => (mem_hide.mp (hlinked.parents n hn p hp)).1
    by_cases hgoes : (t.heap n).state = .dead ∧ (t.heap n).aliveDescendantCount = 0
    · have hchildless := hswept.childless hn hlinked hcounted hgoes.2
      rw [tryCleanup, if_pos hgoes, hlock]
      cases hp : t.parentOf n with
      | none =>
        have hchildren : ∀ x ∈ (hide D t).ids, (t.heap x).children.count n = 0 := by
          intro x hx
          refine (hlinked.children x hx n).trans (if_neg fun hboth => ?_)
          have heq : none = some x := hp.symm.trans hboth.2
          cases heq
        have hremoved := removed_hide hchildren
        dsimp only
        rw [hide_erase hkeyed hnmem (List.Sublist.refl _)]
        exact ⟨(Reclaimed.refl t).erase hkeyed hnmem hgoes.1,
          hremoved.linked hlinked hchildless, hremoved.counted hcounted hgoes.1,
          hremoved.swept hswept hp⟩
      | some p =>
        have hremoved := removed_modify hlinked hp
        have hlt : p < n := hlinked.down n p hp
        have hforgotten : Reclaimed t
            (t.modify p fun m => { m with children := m.children.filter (· ≠ n) }) := by
          refine ⟨List.Sublist.refl _, rfl, fun x => ?_, fun _ hmem hnot => absurd hmem hnot⟩
          by_cases hx : x = p
          · rw [hx, modify_self]
          · rw [modify_ne hx]
        have hpmem := hremoved.mem_ids.mpr ⟨hlinked.parents n hn p hp, Nat.ne_of_lt hlt⟩
        obtain ⟨hreclaimed, hrest⟩ := ih (by omega) (hforgotten.keyed hkeyed)
          (hremoved.linked hlinked hchildless) (hremoved.counted hcounted hgoes.1) hpmem
          (hremoved.sweptBut hswept hp)
        dsimp only
        rw [hide_erase hkeyed hnmem (hforgotten.trans hreclaimed).nodes]
        exact ⟨(hforgotten.trans hreclaimed).erase hkeyed hnmem hgoes.1, hrest⟩
    · rw [tryCleanup, if_neg hgoes]
      exact ⟨Reclaimed.refl t, hlinked, hcounted, hswept.swept hn hcounted hgoes⟩

end ProcessTree

/-! ## The process tree

Counters, links and the map of nodes agree after any calls, in any order. -/

namespace ProcessTree

variable {t : ProcessTree} {info : ProcessInfo} {key : ProcKey}

structure Sound (t : ProcessTree) : Prop where
  keyed : t.Keyed
  linked : t.Linked
  counted : t.Counted
  swept : t.Swept

theorem sound_empty : Sound {} where
  keyed := ⟨nofun, nofun, List.nodup_nil⟩
  linked := ⟨nofun, fun _ _ => rfl, nofun, nofun⟩
  counted := nofun
  swept := nofun

theorem addProcess_of_find (h : (t.find info.key).isSome) : t.addProcess info = t := by
  rw [addProcess, if_pos h]

theorem Sound.addProcess (h : t.Sound) (info : ProcessInfo) : (t.addProcess info).Sound := by
  cases hfind : t.find info.key with
  | some node =>
    rw [addProcess_of_find (by rw [hfind]; rfl)]
    exact h
  | none =>
    obtain ⟨q, hadded⟩ := addProcess_added h.keyed h.linked hfind
    exact ⟨hadded.keyed h.keyed hfind, hadded.linked h.keyed h.linked,
      hadded.counted h.keyed h.linked h.counted, hadded.swept h.swept⟩

/-- `markProcessDead` does nothing, as nobody with this key is alive, or it marks the node and then
erases what has to go. -/
theorem markProcessDead_cases (h : t.Sound) (key : ProcKey) :
    (t.markProcessDead key = t ∧ ∀ node, (key, node) ∈ t.nodes → (t.heap node).state = .dead) ∨
      ∃ node s, (key, node) ∈ t.nodes ∧
      (t.heap node).state = .alive ∧ Marked t node s ∧ Reclaimed s (t.markProcessDead key) ∧
      (t.markProcessDead key).Linked ∧ (t.markProcessDead key).Counted ∧
      (t.markProcessDead key).Swept := by
  rw [markProcessDead]
  cases hfind : t.find key with
  | none => exact .inl ⟨rfl, fun node hmem => absurd rfl (find_eq_none hfind _ hmem)⟩
  | some node =>
    have hmem := mem_of_find hfind
    have hnode : node ∈ t.ids := mem_ids hmem
    dsimp only
    cases hstate : (t.heap node).state with
    | dead =>
      refine .inl ⟨if_pos rfl, fun other hother => ?_⟩
      obtain rfl : other = node := (Prod.mk.inj (h.keyed.eq_of_key hother hmem rfl)).2
      exact hstate
    | alive =>
      rw [if_neg nofun]
      have hmarked := decrementAlive_marked h.keyed h.linked hnode rfl
      have halive : node ∈ t.alive := mem_alive.mpr ⟨hnode, hstate⟩
      have hfuel : node < (t.modify node fun n => { n with state := .dead }).made :=
        h.keyed.old node hnode
      generalize t.modify node (fun n => { n with state := .dead }) = s at hmarked hfuel ⊢
      generalize decrementAlive s.made (s.lockParent node) s = u at hmarked ⊢
      have hspec := tryCleanup_spec (D := []) (t := u) hfuel (hmarked.keyed h.keyed)
        (by rw [hide_nil]; exact hmarked.linked h.linked)
        (by rw [hide_nil]; exact hmarked.counted h.counted halive)
        (by rw [hide_nil, hmarked.ids]; exact hnode)
        (by rw [hide_nil]; exact hmarked.sweptBut h.swept)
      rw [hide_nil] at hspec
      exact .inr ⟨node, u, hmem, hstate, hmarked, hspec⟩

theorem Sound.markProcessDead (h : t.Sound) (key : ProcKey) : (t.markProcessDead key).Sound := by
  rcases markProcessDead_cases h key with ⟨heq, -⟩ | ⟨node, s, hmem, -, hmarked, hreclaimed, hrest⟩
  · rw [heq]
    exact h
  · exact ⟨hreclaimed.keyed (hmarked.keyed h.keyed), hrest.1, hrest.2.1, hrest.2.2⟩

theorem Sound.run (h : t.Sound) (call : TreeCall) : (call.run t).Sound := by
  cases call with
  | addProcess info => exact h.addProcess info
  | markProcessDead key => exact h.markProcessDead key

/-- Whatever holds of a tree and is kept by every call holds after all calls. -/
theorem foldl_induction {P : ProcessTree → Prop} {calls : List TreeCall} (ht : P t)
    (hstep : ∀ s call, call ∈ calls → P s → P (call.run s)) :
    P (calls.foldl (fun t call => call.run t) t) := by
  induction calls generalizing t with
  | nil => exact ht
  | cons call calls ih =>
    exact ih (hstep t call List.mem_cons_self ht) fun s c hc =>
      hstep s c (List.mem_cons_of_mem call hc)

theorem after_sound (calls : List TreeCall) : (after calls).Sound :=
  foldl_induction sound_empty fun _ call _ h => h.run call

/-! ### Who is in the tree -/

def Lives (key : ProcKey) (t : ProcessTree) : Prop :=
  ∃ node, (key, node) ∈ t.nodes ∧ (t.heap node).state = .alive

/-- A node that is alive stays, alive, until it is marked. -/
theorem Sound.alive_run (hsound : t.Sound) {node : ℕ} (hmem : (key, node) ∈ t.nodes)
    (halive : (t.heap node).state = .alive) {call : TreeCall}
    (hcall : call ≠ .markProcessDead key) :
    (key, node) ∈ (call.run t).nodes ∧ ((call.run t).heap node).state = .alive := by
  cases call with
  | addProcess info =>
    change (key, node) ∈ (t.addProcess info).nodes ∧
      ((t.addProcess info).heap node).state = .alive
    cases hfind : t.find info.key with
    | some other =>
      rw [addProcess_of_find (by rw [hfind]; rfl)]
      exact ⟨hmem, halive⟩
    | none =>
      obtain ⟨q, hadded⟩ := addProcess_added hsound.keyed hsound.linked hfind
      have hne : node ≠ t.made := Nat.ne_of_lt (hsound.keyed.old node (mem_ids hmem))
      refine ⟨?_, (hadded.state hne).trans halive⟩
      rw [hadded.nodes]
      exact List.mem_cons_of_mem _ hmem
  | markProcessDead other =>
    change (key, node) ∈ (t.markProcessDead other).nodes ∧
      ((t.markProcessDead other).heap node).state = .alive
    rcases markProcessDead_cases hsound other with
      ⟨heq, -⟩ | ⟨marked, s, hmarked, -, hmark, hreclaimed, -⟩
    · rw [heq]
      exact ⟨hmem, halive⟩
    · have hne : node ≠ marked := by
        rintro rfl
        have hkey := hsound.keyed.key _ hmem
        rw [hsound.keyed.key _ hmarked] at hkey
        exact hcall (congrArg TreeCall.markProcessDead hkey)
      have hstate : (s.heap node).state = .alive := (hmark.state hne).trans halive
      refine ⟨?_, ?_⟩
      · by_contra hgone
        have hdead := hreclaimed.dead (key, node) (by rw [hmark.nodes]; exact hmem) hgone
        rw [hstate] at hdead
        cases hdead
      · rw [hreclaimed.heap]
        exact hstate

theorem Lives.run (h : t.Lives key) (hsound : t.Sound) {call : TreeCall}
    (hcall : call ≠ .markProcessDead key) : (call.run t).Lives key := by
  obtain ⟨node, hmem, halive⟩ := h
  exact ⟨node, hsound.alive_run hmem halive hcall⟩

/-- Who is added lives, unless a dead process with its key is still in the tree. -/
theorem addProcess_lives (hsound : t.Sound)
    (hfree : ∀ node, (info.key, node) ∈ t.nodes → (t.heap node).state = .alive) :
    (t.addProcess info).Lives info.key := by
  cases hfind : t.find info.key with
  | some node =>
    rw [addProcess_of_find (by rw [hfind]; rfl)]
    exact ⟨node, mem_of_find hfind, hfree node (mem_of_find hfind)⟩
  | none =>
    obtain ⟨q, hadded⟩ := addProcess_added hsound.keyed hsound.linked hfind
    refine ⟨t.made, ?_, ?_⟩
    · rw [hadded.nodes]
      exact List.mem_cons_self
    · rw [hadded.new]

end ProcessTree

open ProcessTree

/-- After any calls on an empty tree: the counter of a node is the number of nodes below it that
are alive; a node is once in the list of children of its parent and in no other; no node is above
itself; dead nodes have a positive counter; and the parent of a node is in the tree. A process
that was added when no dead process had its key, and not marked as dead since, is in the tree. -/
theorem process_tree_sound (calls : List TreeCall) :
    (∀ node ∈ (after calls).ids, ((after calls).heap node).aliveDescendantCount =
      tally (after calls).parentOf (after calls).alive node) ∧
    (∀ node ∈ (after calls).ids, ∀ p ∈ (after calls).ids,
      ((after calls).heap p).children.count node =
        if (after calls).parentOf node = some p then 1 else 0) ∧
    (∀ node, ¬Below (after calls).parentOf node node) ∧
    (∀ before info later, calls = before ++ .addProcess info :: later →
      (∀ node, (info.key, node) ∈ (after before).nodes →
        ((after before).heap node).state = .alive) →
      (∀ call ∈ later, call ≠ .markProcessDead info.key) →
      ∃ node, (info.key, node) ∈ (after calls).nodes) ∧
    (∀ node ∈ (after calls).ids, ((after calls).heap node).state = .dead →
      0 < ((after calls).heap node).aliveDescendantCount) ∧
    ∀ call : TreeCall, ∀ node ∈ (after calls).ids, node ∉ (call.run (after calls)).ids →
      ∀ x ∈ (call.run (after calls)).ids, (call.run (after calls)).parentOf x ≠ some node := by
  have hsound := after_sound calls
  refine ⟨hsound.counted, fun node hnode p hp => ?_, fun node hself => ?_, ?_, hsound.swept, ?_⟩
  · rw [hsound.linked.children p hp node]
    simp [hnode]
  · exact Nat.lt_irrefl node (hself.lt hsound.linked.down)
  · rintro before info later rfl hfree hlater
    have hadded := addProcess_lives (after_sound before) hfree
    have hboth : Sound (after (before ++ .addProcess info :: later)) ∧
        Lives info.key (after (before ++ .addProcess info :: later)) := by
      rw [after, List.foldl_append, List.foldl_cons]
      exact foldl_induction (P := fun t => t.Sound ∧ t.Lives info.key)
        ⟨(after_sound before).addProcess info, hadded⟩
        fun s call hcall h => ⟨h.1.run call, h.2.run h.1 (hlater call hcall)⟩
    obtain ⟨-, node, hmem, -⟩ := hboth
    exact ⟨node, hmem⟩
  · intro call node _ hgone x hx hparent
    exact hgone ((hsound.run call).linked.parents x hx node hparent)

def sampleProcess (pid ppid : Int32) : ProcessInfo :=
  ⟨pid, 1, ppid, 1, 0, 0⟩

/-- A process is added again while it is dead and has a child; when the child dies, it goes. -/
theorem process_added_again : ∃ calls before info later,
    calls = before ++ .addProcess info :: later ∧
      (∀ call ∈ later, call ≠ .markProcessDead info.key) ∧
      ¬∃ node, (info.key, node) ∈ (after calls).nodes := by
  refine ⟨_, [.addProcess (sampleProcess 2 1), .addProcess (sampleProcess 3 2),
    .markProcessDead ⟨2, 1⟩], sampleProcess 2 1, [.markProcessDead ⟨3, 1⟩], rfl, by decide, ?_⟩
  have hempty : (after [.addProcess (sampleProcess 2 1), .addProcess (sampleProcess 3 2),
    .markProcessDead ⟨2, 1⟩, .addProcess (sampleProcess 2 1),
    .markProcessDead ⟨3, 1⟩]).nodes = [] := by decide +kernel
  rintro ⟨node, hmem⟩
  exact absurd (hempty ▸ hmem) List.not_mem_nil

/-- A process that was added once is in the tree. -/
theorem process_tree_sound_one :
    ∃ node, ((sampleProcess 3 2).key, node) ∈
      (after [.addProcess (sampleProcess 2 1), .addProcess (sampleProcess 3 2),
        .markProcessDead ⟨2, 1⟩]).nodes := by
  refine (process_tree_sound _).2.2.2.1 [.addProcess (sampleProcess 2 1)] (sampleProcess 3 2)
    [.markProcessDead ⟨2, 1⟩] rfl (fun node hnode => ?_) (by decide)
  have hnodes : (after [.addProcess (sampleProcess 2 1)]).nodes = [(⟨2, 1⟩, 0)] := by
    decide +kernel
  rw [hnodes, List.mem_singleton] at hnode
  cases hnode

end DarwinCore.Process
