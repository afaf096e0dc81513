import DarwinCore.Library.Walk
import DarwinCore.Verification.Process.ProcessTree

/-! # Lineages

The ancestors of a process that lives stay the same, whatever is added and whoever dies, and
`getProcLineage` ends, also when the links to responsible processes go round in circles. -/

namespace DarwinCore.Process

open Forest Walk

namespace ProcessTree

variable {t t' : ProcessTree} {info : ProcessInfo} {key : ProcKey} {node : ℕ}

def keyOf (t : ProcessTree) (node : ℕ) : ProcKey :=
  (t.heap node).key

def infoOf (t : ProcessTree) (node : ℕ) : ProcessInfo :=
  (t.heap node).info

/-- The next node in the loop over the parents. -/
def above (t : ProcessTree) (node : ℕ) : Option ℕ :=
  t.climbs (t.lockParent node)

/-! ## The loops -/

/-- A loop of `getProcLineage` is a walk. -/
theorem collect_eq {next : ℕ → Option ℕ} (fuel : ℕ) (cur : Option ℕ) (visited : List ProcKey)
    (result : List ProcessInfo) :
    t.collect next fuel cur (visited, result) =
      (follow next t.keyOf fuel cur visited).map fun nodes =>
        ((nodes.map t.keyOf).reverse ++ visited, result ++ nodes.map t.infoOf) := by
  induction fuel generalizing cur visited result with
  | zero => rfl
  | succ fuel ih =>
    cases cur with
    | none => simp [collect, follow]
    | some node =>
      rw [collect, follow]
      by_cases hmet : (t.heap node).key ∈ visited
      · rw [if_pos hmet, if_pos (show t.keyOf node ∈ visited from hmet)]
        simp
      · rw [if_neg hmet, if_neg (show t.keyOf node ∉ visited from hmet), ih, Option.map_map]
        refine congrArg (Option.map · _) (funext fun nodes => ?_)
        simp [keyOf, infoOf]

def keys (t : ProcessTree) : Finset ProcKey :=
  (t.nodes.map Prod.fst).toFinset

theorem Keyed.keyOf_mem (h : t.Keyed) (hnode : node ∈ t.ids) : t.keyOf node ∈ t.keys := by
  obtain ⟨entry, hentry, rfl⟩ := List.mem_map.mp hnode
  rw [keys, List.mem_toFinset, keyOf, h.key entry hentry]
  exact List.mem_map_of_mem hentry

theorem Keyed.eq_of_keyOf (h : t.Keyed) {node' : ℕ} (hnode : node ∈ t.ids) (hnode' : node' ∈ t.ids)
    (hkey : t.keyOf node = t.keyOf node') : node = node' := by
  obtain ⟨entry, hentry, rfl⟩ := List.mem_map.mp hnode
  exact (h.key_iff hnode' hentry).mp ((h.key entry hentry).symm.trans hkey)

theorem climbs_some {cur : Option ℕ} (h : t.climbs cur = some node) :
    cur = some node ∧ 1 < (t.infoOf node).pid := by
  obtain ⟨hcur, hpid⟩ := Option.filter_eq_some_iff.mp h
  exact ⟨hcur, of_decide_eq_true hpid⟩

theorem parentOf_of_above {p : ℕ} (h : t.above node = some p) : t.parentOf node = some p := by
  obtain ⟨hlock, -⟩ := climbs_some h
  exact (Option.filter_eq_some_iff.mp hlock).1

theorem Linked.above_mem (h : t.Linked) (hnode : node ∈ t.ids) {p : ℕ}
    (hp : t.above node = some p) : p ∈ t.ids :=
  h.parents node hnode p (parentOf_of_above hp)

theorem getResponsibleNode_mem {r : ℕ} (h : t.getResponsibleNode node = some r) : r ∈ t.ids :=
  mem_ids (mem_of_find h)

/-- The walk over the parents of a node is not cut: it ends where there is no parent, or where
its `pid` is at most 1. -/
theorem Sound.uncut (h : t.Sound) {cur last : Option ℕ} (hcur : ∀ a, cur = some a → a ∈ t.ids)
    {nodes : List ℕ} (hcut : Cut t.above t.keyOf [] cur nodes last) : last = none := by
  cases last with
  | none => rfl
  | some b =>
    obtain ⟨hmem, hlast⟩ := hcut.path.forall (P := (· ∈ t.ids)) hcur fun a p ha hp =>
      h.linked.above_mem ha hp
    obtain ⟨a, ha, hkey⟩ : ∃ a ∈ nodes, t.keyOf a = t.keyOf b := by
      rcases hcut.met b rfl with hnone | hmet
      · cases hnone
      · exact List.mem_map.mp hmet
    obtain rfl : a = b := h.keyed.eq_of_keyOf (hmem a ha) (hlast b rfl) hkey
    have hself : Below t.parentOf a a :=
      (hcut.path.linked a ha).lift id fun _ _ hlink => parentOf_of_above hlink
    exact absurd (hself.lt h.linked.down) (Nat.lt_irrefl a)

/-- The ancestors of `node`, then those responsible, as far as they are new, then the node itself
if it is. -/
structure Lineage (t : ProcessTree) (node : ℕ) (ancestors responsible itself : List ℕ) : Prop where
  path : Path t.above (t.climbs (some node)) ancestors none
  distinct : (ancestors.map t.keyOf).Nodup
  cut : ∃ last, Cut t.getResponsibleNode t.keyOf (ancestors.map t.keyOf)
    (t.getResponsibleNode node) responsible last
  rest : itself = if t.keyOf node ∈ (ancestors ++ responsible).map t.keyOf then [] else [node]

theorem Lineage.nodup {ancestors responsible itself : List ℕ}
    (h : t.Lineage node ancestors responsible itself) :
    ((ancestors ++ responsible ++ itself).map t.keyOf).Nodup := by
  obtain ⟨last, hcut⟩ := h.cut
  have hboth : ((ancestors ++ responsible).map t.keyOf).Nodup := by
    rw [List.map_append]
    refine h.distinct.append hcut.distinct fun key hkey hkey' => ?_
    obtain ⟨r, hr, rfl⟩ := List.mem_map.mp hkey'
    exact hcut.fresh r hr hkey
  rw [List.map_append, h.rest]
  split
  · rw [List.map_nil, List.append_nil]
    exact hboth
  · next hnew =>
      refine hboth.append (List.nodup_singleton _) fun key hkey hself => ?_
      exact hnew (List.mem_singleton.mp hself ▸ hkey)

/-- `getProcLineage` ends, with the lineage. -/
theorem Sound.getProcLineage (h : t.Sound) (hfind : t.find key = some node) :
    ∃ ancestors responsible itself, t.Lineage node ancestors responsible itself ∧
      ∀ fuel, t.nodes.length < fuel → ProcessTree.getProcLineage fuel key t =
        some ((ancestors ++ responsible ++ itself).map t.infoOf) := by
  have hnode : node ∈ t.ids := mem_ids (mem_of_find hfind)
  have hcur : ∀ a, t.climbs (some node) = some a → a ∈ t.ids := by
    intro a ha
    obtain rfl : node = a := Option.some.inj (climbs_some ha).1
    exact hnode
  have hcard : t.keys.card < t.nodes.length + 1 := by
    refine Nat.lt_succ_of_le ((List.toFinset_card_le _).trans ?_)
    rw [List.length_map]
  obtain ⟨ancestors, hancestors⟩ := follow_ends [] (P := (· ∈ t.ids)) hcur
    (fun a p ha hp => h.linked.above_mem ha hp) (fun a ha => h.keyed.keyOf_mem ha)
    (lt_of_le_of_lt (Finset.card_le_card Finset.sdiff_subset) hcard)
  obtain ⟨responsible, hresponsible⟩ := follow_ends (ancestors.map t.keyOf).reverse
    (P := (· ∈ t.ids)) (fun a ha => getResponsibleNode_mem ha)
    (fun a r _ hr => getResponsibleNode_mem hr) (fun a ha => h.keyed.keyOf_mem ha)
    (lt_of_le_of_lt (Finset.card_le_card Finset.sdiff_subset) hcard)
  obtain ⟨last, hcut⟩ := follow_cut hancestors
  obtain rfl := h.uncut hcur hcut
  obtain ⟨last, hcut'⟩ := follow_cut hresponsible
  refine ⟨ancestors, responsible, _, ⟨hcut.path, hcut.distinct, ⟨last, hcut'.path, hcut'.distinct,
    fun a ha hmem => hcut'.fresh a ha (List.mem_reverse.mpr hmem), fun b hb => ?_⟩, rfl⟩,
    fun fuel hfuel => ?_⟩
  · exact (hcut'.met b hb).imp_left List.mem_reverse.mp
  · have hfirst := follow_mono hancestors hfuel
    have hsecond := follow_mono hresponsible hfuel
    rw [ProcessTree.getProcLineage, hfind]
    change (t.collect t.above fuel (t.climbs (some node)) ([], []) >>= fun found =>
      t.collect t.getResponsibleNode fuel (t.getResponsibleNode node) (found.1, found.2) >>=
        fun found =>
          if (t.heap node).key ∈ found.1 then some found.2
          else some (found.2 ++ [(t.heap node).info])) = _
    rw [collect_eq, hfirst, Option.map_some, List.append_nil, List.nil_append]
    change (t.collect t.getResponsibleNode fuel (t.getResponsibleNode node)
      ((ancestors.map t.keyOf).reverse, ancestors.map t.infoOf) >>= _) = _
    rw [collect_eq, hsecond, Option.map_some]
    have hmem : t.keyOf node ∈ (responsible.map t.keyOf).reverse ++
        (ancestors.map t.keyOf).reverse ↔
        t.keyOf node ∈ (ancestors ++ responsible).map t.keyOf := by
      rw [List.mem_append, List.mem_reverse, List.mem_reverse, List.map_append, List.mem_append,
        or_comm]
    by_cases hlisted : t.keyOf node ∈ (ancestors ++ responsible).map t.keyOf
    · rw [if_pos hlisted, List.append_nil, List.map_append]
      exact if_pos (hmem.mpr hlisted)
    · rw [if_neg hlisted, List.map_append, List.map_append]
      exact if_neg fun hvisited => hlisted (hmem.mp hvisited)

/-! ## Ancestors stay -/

/-- The ancestors that `getProcLineage` lists first. -/
def Ancestry (t : ProcessTree) (key : ProcKey) (ancestors : List ProcessInfo) : Prop :=
  ∃ node nodes, t.find key = some node ∧ Path t.above (t.climbs (some node)) nodes none ∧
    nodes.map t.infoOf = ancestors

/-- No call changes the parent or the data of a node in the tree. -/
theorem Sound.run_frame (h : t.Sound) (call : TreeCall) (hnode : node ∈ t.ids) :
    (call.run t).parentOf node = t.parentOf node ∧
      (call.run t).infoOf node = t.infoOf node := by
  cases call with
  | addProcess info =>
    change (t.addProcess info).parentOf node = _ ∧ (t.addProcess info).infoOf node = _
    cases hfind : t.find info.key with
    | some other =>
      rw [addProcess_of_find (by rw [hfind]; rfl)]
      exact ⟨rfl, rfl⟩
    | none =>
      obtain ⟨q, hadded⟩ := addProcess_added h.keyed h.linked hfind
      have hne : node ≠ t.made := Nat.ne_of_lt (h.keyed.old node hnode)
      rw [hadded.parentOf, Function.update_of_ne hne, infoOf, hadded.others node hne]
      exact ⟨rfl, rfl⟩
  | markProcessDead key =>
    change (t.markProcessDead key).parentOf node = _ ∧ (t.markProcessDead key).infoOf node = _
    rcases markProcessDead_cases h key with ⟨heq, -⟩ | ⟨marked, s, -, -, hmarked, hreclaimed, -⟩
    · rw [heq]
      exact ⟨rfl, rfl⟩
    · obtain ⟨hinfo, hparent, -⟩ := hmarked.fields node
      rw [parentOf, infoOf, hreclaimed.heap node]
      exact ⟨hparent, hinfo⟩

/-- As long as a node is in the tree, so are its ancestors, and they stay the same. -/
theorem Sound.above_frame (h : t.Sound) (h' : t'.Sound)
    (hframe : ∀ x ∈ t.ids, t'.parentOf x = t.parentOf x ∧ t'.infoOf x = t.infoOf x)
    (hnode : node ∈ t.ids) (hnode' : node ∈ t'.ids) : t'.above node = t.above node := by
  have hlock : t'.lockParent node = t.lockParent node := by
    rw [lockParent_eq (h'.linked.parents node hnode'), lockParent_eq (h.linked.parents node hnode)]
    exact (hframe node hnode).1
  rw [above, above, climbs, climbs, hlock]
  cases hp : t.lockParent node with
  | none => rw [Option.filter_none, Option.filter_none]
  | some p =>
    have hpmem : p ∈ t.ids :=
      h.linked.parents node hnode p (Option.filter_eq_some_iff.mp hp).1
    have hinfo : (t'.heap p).info = (t.heap p).info := (hframe p hpmem).2
    have hpid : decide (1 < (t'.heap p).info.pid) = decide (1 < (t.heap p).info.pid) := by
      rw [hinfo]
    rw [Option.filter_some, Option.filter_some, hpid]

theorem Ancestry.run {ancestors : List ProcessInfo} (hancestry : t.Ancestry key ancestors)
    (h : t.Sound) (hlives : t.Lives key) {call : TreeCall} (hcall : call ≠ .markProcessDead key) :
    (call.run t).Ancestry key ancestors := by
  obtain ⟨node, nodes, hfind, hpath, rfl⟩ := hancestry
  obtain ⟨node', hmem, hstate⟩ := hlives
  obtain rfl : node' = node := Option.some.inj ((h.keyed.find hmem).symm.trans hfind)
  have h' : (call.run t).Sound := h.run call
  obtain ⟨hmem', -⟩ := h.alive_run hmem hstate hcall
  have hframe : ∀ x ∈ t.ids, (call.run t).parentOf x = t.parentOf x ∧
      (call.run t).infoOf x = t.infoOf x := fun x hx => h.run_frame call hx
  have hinfo : ((call.run t).heap node').info = (t.heap node').info :=
    (hframe node' (mem_ids hmem)).2
  have hpid : (call.run t).climbs (some node') = t.climbs (some node') := by
    have hpid : decide (1 < ((call.run t).heap node').info.pid) =
        decide (1 < (t.heap node').info.pid) := by
      rw [hinfo]
    rw [climbs, climbs, Option.filter_some, Option.filter_some, hpid]
  have hcur : ∀ a, t.climbs (some node') = some a → a ∈ t.ids ∧ a ∈ (call.run t).ids := by
    intro a ha
    obtain rfl : node' = a := Option.some.inj (climbs_some ha).1
    exact ⟨mem_ids hmem, mem_ids hmem'⟩
  have heq : ∀ a, a ∈ t.ids ∧ a ∈ (call.run t).ids → (call.run t).above a = t.above a :=
    fun a ha => h.above_frame h' hframe ha.1 ha.2
  have hnext : ∀ a b, a ∈ t.ids ∧ a ∈ (call.run t).ids → t.above a = some b →
      b ∈ t.ids ∧ b ∈ (call.run t).ids := by
    intro a b ha hb
    exact ⟨h.linked.above_mem ha.1 hb, h'.linked.above_mem ha.2 ((heq a ha).trans hb)⟩
  refine ⟨node', nodes, h'.keyed.find hmem', hpid ▸ hpath.congr hcur hnext heq, ?_⟩
  refine List.map_congr_left fun x hx => ?_
  exact (hframe x ((hpath.forall hcur hnext).1 x hx).1).2

/-! ## When a process was added -/

/-- Nobody lives but who lived before, or has just been added. -/
theorem Lives.before (h : t.Sound) {call : TreeCall} (hlives : (call.run t).Lives key) :
    (t.Lives key ∧ call ≠ .markProcessDead key) ∨
      ∃ info, call = .addProcess info ∧ info.key = key ∧ t.find key = none := by
  obtain ⟨node, hmem, hstate⟩ := hlives
  cases call with
  | addProcess info =>
    change (key, node) ∈ (t.addProcess info).nodes at hmem
    change ((t.addProcess info).heap node).state = .alive at hstate
    cases hfind : t.find info.key with
    | some other =>
      rw [addProcess_of_find (by rw [hfind]; rfl)] at hmem hstate
      exact .inl ⟨⟨node, hmem, hstate⟩, nofun⟩
    | none =>
      obtain ⟨q, hadded⟩ := addProcess_added h.keyed h.linked hfind
      rw [hadded.nodes] at hmem
      rcases List.mem_cons.mp hmem with heq | hold
      · obtain ⟨rfl, rfl⟩ := Prod.mk.inj heq
        exact .inr ⟨info, rfl, rfl, hfind⟩
      · have hne : node ≠ t.made := Nat.ne_of_lt (h.keyed.old node (mem_ids hold))
        rw [hadded.state hne] at hstate
        exact .inl ⟨⟨node, hold, hstate⟩, nofun⟩
  | markProcessDead other =>
    change (key, node) ∈ (t.markProcessDead other).nodes at hmem
    change ((t.markProcessDead other).heap node).state = .alive at hstate
    rcases markProcessDead_cases h other with
      ⟨heq, hdead⟩ | ⟨marked, s, hmarked, halive, hmark, hreclaimed, -⟩
    · rw [heq] at hmem hstate
      refine .inl ⟨⟨node, hmem, hstate⟩, fun hcall => ?_⟩
      obtain rfl : other = key := TreeCall.markProcessDead.inj hcall
      exact absurd (hstate.symm.trans (hdead node hmem)) (by decide)
    · have hold : (key, node) ∈ t.nodes := hmark.nodes ▸ hreclaimed.nodes.subset hmem
      rw [hreclaimed.heap] at hstate
      have hne : node ≠ marked := by
        rintro rfl
        rw [hmark.self] at hstate
        cases hstate
      refine .inl ⟨⟨node, hold, (hmark.state hne).symm.trans hstate⟩, ?_⟩
      intro hcall
      obtain rfl : other = key := TreeCall.markProcessDead.inj hcall
      exact hne (Prod.mk.inj (h.keyed.eq_of_key hold hmarked rfl)).2

/-- A process that lives was added at some moment, has not been marked since, and has kept its
ancestors. -/
theorem after_ancestry {calls : List TreeCall} (hlives : (after calls).Lives key) :
    ∃ before info later ancestors, calls = before ++ .addProcess info :: later ∧ info.key = key ∧
      (after before).find key = none ∧ (∀ call ∈ later, call ≠ .markProcessDead key) ∧
      ∀ middle, middle <+: later →
        (after (before ++ .addProcess info :: middle)).Ancestry key ancestors := by
  induction calls using List.reverseRecOn with
  | nil =>
    obtain ⟨node, hmem, -⟩ := hlives
    cases hmem
  | append_singleton calls call ih =>
    have hsplit : after (calls ++ [call]) = call.run (after calls) := by
      rw [after, List.foldl_append]
      rfl
    have hsound : (after calls).Sound := after_sound calls
    rw [hsplit] at hlives
    rcases Lives.before hsound hlives with ⟨hbefore, hcall⟩ | ⟨info, rfl, rfl, hfree⟩
    · obtain ⟨before, info, later, ancestors, rfl, hkey, hfree, hunmarked, hsame⟩ := ih hbefore
      refine ⟨before, info, later ++ [call], ancestors, by simp, hkey, hfree, ?_, ?_⟩
      · intro c hc
        rcases List.mem_append.mp hc with hold | hnew
        · exact hunmarked c hold
        · exact List.mem_singleton.mp hnew ▸ hcall
      · intro middle hmiddle
        rcases List.prefix_concat_iff.mp hmiddle with rfl | hold
        · have hlast := (hsame later List.prefix_rfl).run hsound hbefore hcall
          rw [← hsplit] at hlast
          simpa using hlast
        · exact hsame middle hold
    · have hrun : (after (calls ++ [.addProcess info])).Sound := after_sound _
      obtain ⟨node, hmem, -⟩ := hsplit ▸ hlives
      have hfind := hrun.keyed.find hmem
      obtain ⟨ancestors, responsible, itself, hlineage, -⟩ := hrun.getProcLineage hfind
      refine ⟨calls, info, [], ancestors.map (after (calls ++ [.addProcess info])).infoOf, rfl, rfl,
        hfree, by simp, fun middle hmiddle => ?_⟩
      rw [List.prefix_nil.mp hmiddle]
      exact ⟨node, ancestors, hfind, hlineage.path, rfl⟩

end ProcessTree

open ProcessTree

/-- After any calls on an empty tree: whoever lives has, ever since it was added, the same
ancestors at the head of its lineage; and for every key `getProcLineage` ends: nothing is listed
for a key that is not in the tree, and for the others first the ancestors, then those responsible
as far as they are new, then the process itself if it is, so that no key is listed twice. -/
theorem lineage_stable (calls : List TreeCall) :
    (∀ key, (after calls).Lives key → ∃ before info later ancestors,
      calls = before ++ .addProcess info :: later ∧ info.key = key ∧
      (after before).find key = none ∧ (∀ call ∈ later, call ≠ .markProcessDead key) ∧
      ∀ middle, middle <+: later →
        (after (before ++ .addProcess info :: middle)).Ancestry key ancestors) ∧
    (∀ key, (after calls).find key = none → ∀ fuel,
      getProcLineage fuel key (after calls) = some []) ∧
    ∀ key node, (after calls).find key = some node → ∃ ancestors responsible itself,
      (after calls).Lineage node ancestors responsible itself ∧
      (∀ fuel, (after calls).nodes.length < fuel → getProcLineage fuel key (after calls) =
        some ((ancestors ++ responsible ++ itself).map (after calls).infoOf)) ∧
      ((ancestors ++ responsible ++ itself).map (after calls).keyOf).Nodup := by
  refine ⟨fun key hlives => after_ancestry hlives, fun key hfind fuel => ?_,
    fun key node hfind => ?_⟩
  · rw [getProcLineage, hfind]
  · obtain ⟨ancestors, responsible, itself, hlineage, hresult⟩ :=
      (after_sound calls).getProcLineage hfind
    exact ⟨ancestors, responsible, itself, hlineage, hresult, hlineage.nodup⟩

def sampleCalls : List TreeCall :=
  [.addProcess (sampleProcess 2 1), .addProcess (sampleProcess 3 2), .markProcessDead ⟨2, 1⟩]

/-- The child keeps its ancestors. -/
theorem lineage_stable_orphan : ∃ ancestors, (after sampleCalls).Ancestry ⟨3, 1⟩ ancestors := by
  have hlives : (after sampleCalls).Lives ⟨3, 1⟩ := ⟨1, by decide +kernel, by decide +kernel⟩
  obtain ⟨before, info, later, ancestors, hcalls, -, -, -, hsame⟩ :=
    (lineage_stable sampleCalls).1 ⟨3, 1⟩ hlives
  exact ⟨ancestors, hcalls ▸ hsame later List.prefix_rfl⟩

/-- Two processes that are responsible for each other. -/
example : getProcLineage 3 ⟨2, 1⟩ (after [.addProcess ⟨2, 1, 1, 1, 3, 1⟩,
    .addProcess ⟨3, 1, 1, 1, 2, 1⟩]) =
      some [⟨2, 1, 1, 1, 3, 1⟩, ⟨3, 1, 1, 1, 2, 1⟩] := by
  decide +kernel

end DarwinCore.Process
