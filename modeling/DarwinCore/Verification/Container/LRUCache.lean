import DarwinCore.Library.TransitionSystem
import DarwinCore.Library.Lists
import DarwinCore.Library.Recency
import DarwinCore.Model.Container.LRUCache

/-! # The cache of recently used entries

A cache is a recency list: the list and the map stay together. -/

namespace DarwinCore.Container

universe u

variable {κ ν φ : Type u} [DecidableEq κ]

/-! ## Recency lists with a callback -/

/-- The calls of the callback for the entries that go. -/
def announced (callback : Option φ) (evicted : List (κ × ν)) : List (Eviction κ ν φ) :=
  evicted.flatMap fun entry => callback.toList.map (⟨·, entry.1, entry.2⟩)

def getOrInsertSpec (s : Option φ × Recency κ ν) (key : κ) (factory : Except String ν) :
    (Except String (CacheReply ν) × List (Eviction κ ν φ)) × (Option φ × Recency κ ν) :=
  match s.2.find key, factory with
  | some found, _ => ((.ok (.value (some found)), []), (s.1, (s.2.use key).2))
  | none, .error e => ((.error e, []), s)
  | none, .ok value =>
      ((.ok (.value (some value)), announced s.1 (s.2.store key value).1),
        (s.1, (s.2.store key value).2))

/-- What a reference reads in a recency list. -/
def ValueRef.find (q : Recency κ ν) : ValueRef κ ν → Option ν
  | own value => some value
  | stored key => q.find key
  | moved key _ => q.find key

omit [DecidableEq κ] in
theorem ValueRef.find_of_place [DecidableEq κ] {q : Recency κ ν} {value : ValueRef κ ν} {k : κ}
    (h : value.place = some k) : value.find q = q.find k := by
  cases value <;> cases h <;> rfl

/-- What a move leaves. -/
def ValueRef.leave (q : Recency κ ν) : ValueRef κ ν → Recency κ ν
  | moved key rest => q.write key rest
  | _ => q

def CacheCall.spec (s : Option φ × Recency κ ν) : CacheCall κ ν φ →
    (Except String (CacheReply ν) × List (Eviction κ ν φ)) × (Option φ × Recency κ ν)
  | setEvictionCallback callback => ((.ok .done, []), (callback, s.2))
  | get key => ((.ok (.value (s.2.use key).1), []), (s.1, (s.2.use key).2))
  | fetch key => match s.2.find key with
      | none => ((.error "Key not found in LRUCache", []), s)
      | some found => ((.ok (.value (some found)), []), (s.1, (s.2.use key).2))
  | peek key => match s.2.find key with
      | none => ((.error "Key not found in LRUCache", []), s)
      | some found => ((.ok (.value (some found)), []), s)
  | put key value => match value.find s.2 with
      | none => ((.ok .undefined, []), s)
      | some v =>
          ((.ok .done, announced s.1 (s.2.store key v).1), (s.1, value.leave (s.2.store key v).2))
  | contains key => ((.ok (.flag (s.2.find key).isSome), []), s)
  | erase key => ((.ok (.flag (s.2.remove key).1), []), (s.1, (s.2.remove key).2))
  | clear => ((.ok .done, []), (s.1, s.2.clear))
  | size => ((.ok (.number s.2.entries.length), []), s)
  | resize newCapacity =>
      if h : 0 < newCapacity then
        ((.ok .done, announced s.1 (s.2.resize newCapacity h).1),
          (s.1, (s.2.resize newCapacity h).2))
      else ((.error "LRUCache capacity must be greater than 0", []), s)
  | getOrInsert key factory => getOrInsertSpec s key factory
  | write key value => ((.ok .done, []), (s.1, s.2.write key value))

/-! ## The list and the map -/

def CacheNode.entry (node : CacheNode κ ν) : κ × ν :=
  (node.key, node.value)

/-- The entries, each in a node of its own, to which the map leads. -/
structure LRUCache.Holds (c : LRUCache κ ν φ) (entries : List (κ × ν)) : Prop where
  nodes : c.list.map CacheNode.entry = entries
  keys : (entries.map Prod.fst).Nodup
  its : (c.list.map CacheNode.it).Nodup
  fresh : ∀ node ∈ c.list, node.it < c.made
  mapped : ∀ key it, c.map.lookup key = some it ↔ ∃ node ∈ c.list, node.key = key ∧ node.it = it

namespace LRUCache.Holds

variable {c : LRUCache κ ν φ} {entries : List (κ × ν)} {key : κ} {value : ν} {it : ℕ}

theorem nodeKeys (h : c.Holds entries) : (c.list.map CacheNode.key).Nodup := by
  have hkeys := h.keys
  rw [← h.nodes, List.map_map] at hkeys
  exact hkeys

theorem eq_of_it (h : c.Holds entries) {m n : CacheNode κ ν} (hm : m ∈ c.list) (hn : n ∈ c.list)
    (heq : m.it = n.it) : m = n :=
  List.inj_on_of_nodup_map h.its hm hn heq

theorem eq_of_key (h : c.Holds entries) {m n : CacheNode κ ν} (hm : m ∈ c.list) (hn : n ∈ c.list)
    (heq : m.key = n.key) : m = n :=
  List.inj_on_of_nodup_map h.nodeKeys hm hn heq

theorem mem_keys (h : c.Holds entries) : key ∈ c.map.keys ↔ key ∈ c.list.map CacheNode.key := by
  rw [Finmap.mem_keys, Finmap.mem_iff, List.mem_map]
  constructor
  · rintro ⟨it, hit⟩
    obtain ⟨node, hnode, hkey, -⟩ := (h.mapped key it).mp hit
    exact ⟨node, hnode, hkey⟩
  · rintro ⟨node, hnode, hkey⟩
    exact ⟨node.it, (h.mapped key node.it).mpr ⟨node, hnode, hkey, rfl⟩⟩

theorem size_eq (h : c.Holds entries) : c.size = entries.length := by
  have hkeys : c.map.keys = (c.list.map CacheNode.key).toFinset := by
    ext key
    rw [h.mem_keys, List.mem_toFinset]
  rw [size, hkeys, List.toFinset_card_of_nodup h.nodeKeys, List.length_map, ← h.nodes,
    List.length_map]

theorem notMem_of_lookup (h : c.Holds entries) (hlookup : c.map.lookup key = none) :
    key ∉ entries.map Prod.fst := by
  rw [← h.nodes, List.map_map]
  intro hmem
  obtain ⟨node, hnode, rfl⟩ := List.mem_map.mp hmem
  have hsome := (h.mapped node.key node.it).mpr ⟨node, hnode, rfl, rfl⟩
  exact absurd (hlookup.symm.trans hsome) (by simp)

theorem it_iff (h : c.Holds entries) (hlookup : c.map.lookup key = some it) {node : CacheNode κ ν}
    (hnode : node ∈ c.list) : node.it = it ↔ node.key = key := by
  obtain ⟨n, hn, hkey, hit⟩ := (h.mapped key it).mp hlookup
  constructor
  · intro heq
    rw [h.eq_of_it hnode hn (heq.trans hit.symm), hkey]
  · intro heq
    rw [h.eq_of_key hnode hn (heq.trans hkey.symm), hit]

theorem filter_it_ne (h : c.Holds entries) (hlookup : c.map.lookup key = some it) :
    (c.list.filter fun node => node.it ≠ it).map CacheNode.entry =
      entries.filter fun entry => entry.1 ≠ key := by
  rw [← h.nodes, List.filter_map]
  refine congrArg _ (List.filter_congr fun node hnode => ?_)
  exact decide_eq_decide.mpr (not_congr (h.it_iff hlookup hnode))

theorem valueOf_of_none (h : c.Holds entries) (hlookup : c.map.lookup key = none) :
    Recency.valueOf entries key = none :=
  Recency.valueOf_eq_none.mpr (h.notMem_of_lookup hlookup)

theorem exists_node (h : c.Holds entries) (hlookup : c.map.lookup key = some it) :
    ∃ value, Recency.valueOf entries key = some value ∧ c.valueAt it = some value ∧
      c.list.filter (fun node => node.it = it) = [⟨it, key, value⟩] := by
  obtain ⟨node, hnode, hkey, hit⟩ := (h.mapped key it).mp hlookup
  have hsingle : (c.list.filter fun n => n.it = it) = [node] :=
    hit ▸ Lists.filter_eq_singleton h.its hnode
  have hbykey : (c.list.filter fun n => n.key = key) = [node] :=
    hkey ▸ Lists.filter_eq_singleton h.nodeKeys hnode
  refine ⟨node.value, ?_, ?_, ?_⟩
  · rw [Recency.valueOf, ← h.nodes, List.find?_map, ← List.head?_filter]
    exact congrArg (fun xs => (xs.head?.map CacheNode.entry).map Prod.snd) hbykey
  · rw [valueAt, ← List.head?_filter, hsingle]
    rfl
  · rw [hsingle, ← hkey, ← hit]

/-! ## Changes -/

theorem settings (h : c.Holds entries) (capacity : ℕ) (evictionCallback : Option φ) :
    { c with capacity, evictionCallback }.Holds entries :=
  ⟨h.nodes, h.keys, h.its, h.fresh, h.mapped⟩

theorem of_perm (h : c.Holds entries) {list : List (CacheNode κ ν)} (hperm : list.Perm c.list) :
    { c with list }.Holds (list.map CacheNode.entry) where
  nodes := rfl
  keys := by
    rw [List.map_map]
    exact (hperm.map CacheNode.key).nodup_iff.mpr h.nodeKeys
  its := (hperm.map CacheNode.it).nodup_iff.mpr h.its
  fresh node hnode := h.fresh node (hperm.mem_iff.mp hnode)
  mapped key it := by
    rw [h.mapped]
    simp only [hperm.mem_iff]

theorem of_gone (h : c.Holds entries) {list : List (CacheNode κ ν)} {node : CacheNode κ ν}
    (hperm : (node :: list).Perm c.list) :
    { c with list, map := c.map.erase node.key }.Holds (list.map CacheNode.entry) := by
  have hall := h.of_perm hperm
  have hkeys := hall.nodeKeys
  rw [List.map_cons, List.nodup_cons] at hkeys
  refine ⟨rfl, (List.nodup_cons.mp hall.keys).2, (List.nodup_cons.mp hall.its).2, ?_, ?_⟩
  · exact fun n hn => hall.fresh n (List.mem_cons_of_mem _ hn)
  · intro key it
    refine Maps.lookup_erase_eq_some.trans ((and_congr_right' (hall.mapped key it)).trans ?_)
    constructor
    · rintro ⟨hne, n, hn, hkey, hit⟩
      rcases List.mem_cons.mp hn with rfl | hn
      · exact absurd hkey.symm hne
      · exact ⟨n, hn, hkey, hit⟩
    · rintro ⟨n, hn, hkey, hit⟩
      refine ⟨fun heq => hkeys.1 (List.mem_map.mpr ⟨n, hn, hkey.trans heq⟩), n, ?_, hkey, hit⟩
      exact List.mem_cons_of_mem _ hn

theorem splice (h : c.Holds entries) (hlookup : c.map.lookup key = some it)
    (hvalue : Recency.valueOf entries key = some value) :
    (c.splice it).Holds ((key, value) :: entries.filter fun entry => entry.1 ≠ key) := by
  obtain ⟨found, hfound, -, hnode⟩ := h.exists_node hlookup
  obtain rfl : found = value := by
    rw [hvalue] at hfound
    exact (Option.some.inj hfound).symm
  have hperm : ((c.list.filter fun node => node.it = it) ++
      c.list.filter fun node => node.it ≠ it).Perm c.list := by
    simpa using List.filter_append_perm (fun node : CacheNode κ ν => decide (node.it = it)) c.list
  have hholds := h.of_perm hperm
  rw [List.map_append, hnode, h.filter_it_ne hlookup] at hholds
  rw [LRUCache.splice, hnode]
  exact hholds

theorem assign (h : c.Holds entries) (hlookup : c.map.lookup key = some it) (value : ν) :
    (c.assign it value).Holds
      (entries.map fun entry => if entry.1 = key then (key, value) else entry) := by
  let change (node : CacheNode κ ν) := if node.it = it then { node with value } else node
  have hkey (node : CacheNode κ ν) : (change node).key = node.key := by
    dsimp only [change]
    split <;> rfl
  have hit (node : CacheNode κ ν) : (change node).it = node.it := by
    dsimp only [change]
    split <;> rfl
  have hentries : (c.list.map change).map CacheNode.entry =
      entries.map fun entry => if entry.1 = key then (key, value) else entry := by
    rw [← h.nodes, List.map_map, List.map_map]
    refine List.map_congr_left fun node hnode => ?_
    have hiff := h.it_iff hlookup hnode
    by_cases heq : node.key = key
    · simp [change, CacheNode.entry, hiff, heq]
    · simp [change, CacheNode.entry, hiff, heq]
  refine ⟨hentries, ?_, ?_, ?_, ?_⟩
  · rw [← hentries, List.map_map, List.map_map]
    exact (List.map_congr_left fun node _ => hkey node) ▸ h.nodeKeys
  · change ((c.list.map change).map CacheNode.it).Nodup
    rw [List.map_map]
    exact (List.map_congr_left fun node _ => hit node) ▸ h.its
  · intro node hnode
    obtain ⟨old, hold, rfl⟩ := List.mem_map.mp hnode
    exact (hit old).trans_lt (h.fresh old hold)
  · intro k i
    refine (h.mapped k i).trans ?_
    constructor
    · rintro ⟨node, hnode, hk, hi⟩
      exact ⟨change node, List.mem_map_of_mem hnode, (hkey node).trans hk, (hit node).trans hi⟩
    · rintro ⟨node, hnode, hk, hi⟩
      obtain ⟨old, hold, rfl⟩ := List.mem_map.mp hnode
      exact ⟨old, hold, (hkey old).symm.trans hk, (hit old).symm.trans hi⟩

theorem erase (h : c.Holds entries) (hlookup : c.map.lookup key = some it) :
    { c with
      list := c.list.filter fun node => node.it ≠ it
      map := c.map.erase key }.Holds (entries.filter fun entry => entry.1 ≠ key) := by
  obtain ⟨value, -, -, hnode⟩ := h.exists_node hlookup
  have hperm : ((c.list.filter fun node => node.it = it) ++
      c.list.filter fun node => node.it ≠ it).Perm c.list := by
    simpa using List.filter_append_perm (fun node : CacheNode κ ν => decide (node.it = it)) c.list
  rw [hnode] at hperm
  exact h.filter_it_ne hlookup ▸ h.of_gone hperm

theorem emplaceFront (h : c.Holds entries) (hnew : key ∉ entries.map Prod.fst) (value : ν) :
    (c.emplaceFront key value).Holds ((key, value) :: entries) := by
  have hother {node : CacheNode κ ν} (hnode : node ∈ c.list) : node.key ≠ key := by
    intro heq
    rw [← h.nodes, List.map_map] at hnew
    exact hnew (List.mem_map.mpr ⟨node, hnode, heq⟩)
  refine ⟨?_, List.nodup_cons.mpr ⟨hnew, h.keys⟩, ?_, ?_, ?_⟩
  · exact congrArg _ h.nodes
  · refine List.nodup_cons.mpr ⟨fun hmem => ?_, h.its⟩
    obtain ⟨node, hnode, hit⟩ := List.mem_map.mp hmem
    exact absurd (h.fresh node hnode) (by rw [hit]; exact lt_irrefl _)
  · intro node hnode
    rcases List.mem_cons.mp hnode with rfl | hnode
    · exact Nat.lt_succ_self _
    · exact (h.fresh node hnode).trans (Nat.lt_succ_self _)
  · intro k i
    refine Maps.lookup_insert_eq_some.trans ?_
    constructor
    · rintro (⟨rfl, rfl⟩ | ⟨hne, hlookup⟩)
      · exact ⟨_, List.mem_cons_self, rfl, rfl⟩
      · obtain ⟨node, hnode, hk, hi⟩ := (h.mapped k i).mp hlookup
        exact ⟨node, List.mem_cons_of_mem _ hnode, hk, hi⟩
    · rintro ⟨node, hnode, hk, hi⟩
      rcases List.mem_cons.mp hnode with rfl | hnode
      · exact .inl ⟨hk.symm, hi⟩
      · refine .inr ⟨fun heq => hother hnode (hk.trans heq), ?_⟩
        exact (h.mapped k i).mpr ⟨node, hnode, hk, hi⟩

theorem evict {entry : κ × ν} (h : c.Holds (entries ++ [entry])) :
    c.evict.1 = announced c.evictionCallback [entry] ∧ c.evict.2.Holds entries ∧
      c.evict.2.capacity = c.capacity ∧ c.evict.2.evictionCallback = c.evictionCallback := by
  obtain ⟨init, last, hlist, hinit, hlast⟩ := List.map_eq_append_iff.mp h.nodes
  obtain ⟨back, rfl, hback⟩ := List.map_eq_singleton_iff.mp hlast
  have hperm : (back :: init).Perm c.list := hlist ▸ (List.perm_append_singleton back init).symm
  have hgone := h.of_gone hperm
  rw [hinit] at hgone
  rw [LRUCache.evict, hlist, List.getLast?_concat, List.dropLast_concat, ← hback]
  exact ⟨(List.append_nil _).symm, hgone, rfl, rfl⟩

/-- The value of a node can be read after the eviction if it is not the last one. -/
theorem valueAt_evict {entry : κ × ν} (h : c.Holds (entries ++ [entry]))
    (hlookup : c.map.lookup key = some it) :
    (key = entry.1 → c.evict.2.valueAt it = none) ∧
      (key ≠ entry.1 → c.evict.2.valueAt it = c.valueAt it ∧
        c.evict.2.map.lookup key = some it) := by
  obtain ⟨init, last, hlist, hinit, hlast⟩ := List.map_eq_append_iff.mp h.nodes
  obtain ⟨back, rfl, rfl⟩ := List.map_eq_singleton_iff.mp hlast
  have hback : back ∈ c.list := by simp [hlist]
  have hits := h.its
  rw [hlist, List.map_append, List.nodup_append] at hits
  rw [LRUCache.evict, hlist, List.getLast?_concat, List.dropLast_concat]
  constructor
  · intro hkey
    have hit : back.it = it := (h.it_iff hlookup hback).mpr hkey.symm
    refine Option.map_eq_none_iff.mpr (List.find?_eq_none.mpr fun node hnode => ?_)
    have hne := hits.2.2 node.it (List.mem_map_of_mem hnode) back.it (by simp)
    simpa [hit] using hne
  · intro hkey
    have hit : back.it ≠ it := fun heq => hkey ((h.it_iff hlookup hback).mp heq).symm
    refine ⟨?_, (Finmap.lookup_erase_ne hkey).trans hlookup⟩
    rw [valueAt, valueAt, hlist, List.find?_append, List.find?_singleton]
    simp [hit]

theorem clear (c : LRUCache κ ν φ) : c.clear.Holds [] := by
  refine ⟨rfl, List.nodup_nil, List.nodup_nil, ?_, ?_⟩
  · intro node hnode
    cases hnode
  · intro key it
    simp [LRUCache.clear]

/-- Evictions go on as long as there are more than `n` entries. -/
theorem evictDownTo {n fuel : ℕ} (h : c.Holds entries) (hfuel : entries.length ≤ fuel + n) :
    (c.evictDownTo n fuel).1 = announced c.evictionCallback (entries.drop n).reverse ∧
      (c.evictDownTo n fuel).2.Holds (entries.take n) ∧
      (c.evictDownTo n fuel).2.evictionCallback = c.evictionCallback := by
  induction fuel generalizing c entries with
  | zero =>
    rw [Nat.zero_add] at hfuel
    rw [LRUCache.evictDownTo, List.drop_of_length_le hfuel, List.take_of_length_le hfuel]
    exact ⟨rfl, h, rfl⟩
  | succ fuel ih =>
    rw [LRUCache.evictDownTo, h.size_eq]
    by_cases hmore : n < entries.length
    · have hnonempty : entries ≠ [] := List.ne_nil_of_length_pos (Nat.zero_lt_of_lt hmore)
      obtain ⟨before, last, rfl⟩ := (List.eq_nil_or_concat' entries).resolve_left hnonempty
      obtain ⟨hcalls, hrest, -, hcallback⟩ := h.evict
      rw [List.length_append, List.length_singleton] at hmore hfuel
      obtain ⟨hmorecalls, hkept, hsame⟩ := ih hrest (by omega)
      have hle : n ≤ before.length := Nat.le_of_lt_succ hmore
      rw [if_pos (by rw [List.length_append]; exact hmore), List.drop_append_of_le_length hle,
        List.take_append_of_le_length hle, List.reverse_append]
      refine ⟨?_, hkept, hsame.trans hcallback⟩
      refine (congrArg₂ (· ++ ·) hcalls hmorecalls).trans ?_
      rw [hcallback, announced, announced, announced, ← List.flatMap_append]
      rfl
    · have hle : entries.length ≤ n := Nat.le_of_not_lt hmore
      rw [if_neg hmore, List.drop_of_length_le hle, List.take_of_length_le hle]
      exact ⟨rfl, h, rfl⟩

/-- There is room for another entry after the eviction, if there is one. -/
theorem makeRoom (h : c.Holds entries) (value : ν) {q : Recency κ ν} (hq : q.entries = entries)
    (hcapacity : c.capacity = q.capacity) (habsent : q.find key = none) :
    c.makeRoom.1 = announced c.evictionCallback (q.store key value).1 ∧
      (∃ kept, c.makeRoom.2.Holds kept ∧ key ∉ kept.map Prod.fst ∧
        (q.store key value).2.entries = (key, value) :: kept) ∧
      c.makeRoom.2.capacity = c.capacity ∧
      c.makeRoom.2.evictionCallback = c.evictionCallback := by
  subst hq
  have hnew : key ∉ q.entries.map Prod.fst := Recency.valueOf_eq_none.mp habsent
  rw [LRUCache.makeRoom, h.size_eq, hcapacity]
  by_cases hfull : q.capacity ≤ q.entries.length
  · have hlength : q.entries.length = q.capacity := le_antisymm q.fits hfull
    have hnonempty : q.entries ≠ [] :=
      List.ne_nil_of_length_pos (lt_of_lt_of_le q.positive hfull)
    obtain ⟨before, last, hlast⟩ := (List.eq_nil_or_concat' q.entries).resolve_left hnonempty
    obtain ⟨hevicted, hstored⟩ := Recency.store_of_full value habsent hlength hlast
    rw [hlast] at h hnew
    obtain ⟨hcalls, hkept, hcapacity', hcallback⟩ := h.evict
    rw [if_pos hfull, hevicted, hstored]
    refine ⟨hcalls, ⟨before, hkept, ?_, rfl⟩, hcapacity'.trans hcapacity, hcallback⟩
    exact fun hmem => hnew (by rw [List.map_append]; exact List.mem_append_left _ hmem)
  · obtain ⟨hevicted, hstored⟩ :=
      Recency.store_of_room value habsent (Nat.lt_of_not_le hfull)
    rw [if_neg hfull, hevicted, hstored]
    exact ⟨rfl, ⟨_, h, hnew, rfl⟩, hcapacity, rfl⟩

end LRUCache.Holds

/-! ## Calls -/

/-- The cache holds the entries of the recency list. -/
structure LRUCache.Represents (c : LRUCache κ ν φ) (s : Option φ × Recency κ ν) : Prop where
  callback : c.evictionCallback = s.1
  capacity : c.capacity = s.2.capacity
  holds : c.Holds s.2.entries

namespace LRUCache.Represents

variable {c : LRUCache κ ν φ} {s : Option φ × Recency κ ν} {key : κ} {value : ν} {it : ℕ}

theorem find_of_none (h : c.Represents s) (hlookup : c.map.lookup key = none) :
    s.2.find key = none :=
  h.holds.valueOf_of_none hlookup

theorem find_of_some (h : c.Represents s) (hlookup : c.map.lookup key = some it) :
    ∃ value, s.2.find key = some value ∧ c.valueAt it = some value := by
  obtain ⟨value, hfind, hvalue, -⟩ := h.holds.exists_node hlookup
  exact ⟨value, hfind, hvalue⟩

theorem splice (h : c.Represents s) (hlookup : c.map.lookup key = some it)
    (hfind : s.2.find key = some value) :
    (c.splice it).Represents (s.1, (s.2.store key value).2) where
  callback := h.callback
  capacity := h.capacity.trans (Recency.store_capacity value).symm
  holds := by
    rw [(Recency.store_of_present value (by rw [hfind]; rfl)).2]
    exact h.holds.splice hlookup hfind

theorem write (h : c.Represents s) (hlookup : c.map.lookup key = some it) (value : ν) :
    (c.assign it value).Represents (s.1, s.2.write key value) :=
  ⟨h.callback, h.capacity, h.holds.assign hlookup value⟩

theorem replace (h : c.Represents s) (hlookup : c.map.lookup key = some it) (value : ν) :
    ((c.assign it value).splice it).Represents (s.1, (s.2.store key value).2) where
  callback := h.callback
  capacity := h.capacity.trans (Recency.store_capacity value).symm
  holds := by
    obtain ⟨found, hfind, -⟩ := h.find_of_some hlookup
    have hpresent : (s.2.find key).isSome := by
      rw [hfind]
      rfl
    have hwritten := h.holds.assign hlookup value
    rw [(Recency.store_of_present value hpresent).2, Recency.others,
      ← Recency.filter_write _ key value]
    exact hwritten.splice hlookup (Recency.valueOf_write hpresent)

theorem insert (h : c.Represents s) (hlookup : c.map.lookup key = none) (value : ν) :
    c.makeRoom.1 = announced s.1 (s.2.store key value).1 ∧
      (c.makeRoom.2.emplaceFront key value).Represents (s.1, (s.2.store key value).2) := by
  obtain ⟨hcalls, ⟨kept, hkept, hnew, hstored⟩, hcapacity, hcallback⟩ :=
    h.holds.makeRoom value rfl h.capacity (h.find_of_none hlookup)
  refine ⟨h.callback ▸ hcalls, hcallback.trans h.callback, ?_, ?_⟩
  · exact (hcapacity.trans h.capacity).trans (Recency.store_capacity value).symm
  · rw [hstored]
    exact hkept.emplaceFront hnew value

/-! ## Operations -/

theorem get (h : c.Represents s) (key : κ) :
    (c.get key).1 = (s.2.use key).1 ∧ (c.get key).2.Represents (s.1, (s.2.use key).2) := by
  rw [LRUCache.get, Recency.use]
  cases hlookup : c.map.lookup key with
  | none =>
    rw [h.find_of_none hlookup]
    exact ⟨rfl, h⟩
  | some it =>
    obtain ⟨value, hfind, hvalue⟩ := h.find_of_some hlookup
    rw [hfind]
    exact ⟨hvalue, h.splice hlookup hfind⟩

theorem find (h : c.Represents s) (key : κ) :
    s.2.find key = (c.map.lookup key).bind (c.valueAt ·) := by
  cases hlookup : c.map.lookup key with
  | none => exact h.find_of_none hlookup
  | some it =>
    obtain ⟨value, hfind, hvalue⟩ := h.find_of_some hlookup
    exact hfind.trans hvalue.symm

theorem contains (h : c.Represents s) (key : κ) : c.contains key = (s.2.find key).isSome := by
  rw [LRUCache.contains]
  cases hlookup : c.map.lookup key with
  | none =>
    rw [h.find_of_none hlookup]
    rfl
  | some it =>
    obtain ⟨value, hfind, -⟩ := h.find_of_some hlookup
    rw [hfind]
    rfl

/-! ### Making room -/

theorem makeRoom_of_full (h : c.Represents s) (hfull : c.capacity ≤ c.size) :
    ∃ kept last, s.2.entries = kept ++ [last] ∧ c.makeRoom.1 = announced s.1 [last] ∧
      c.makeRoom.2.Holds kept ∧ c.makeRoom.2.capacity = c.capacity ∧
      c.makeRoom.2.evictionCallback = c.evictionCallback := by
  rw [h.capacity, h.holds.size_eq] at hfull
  have hnonempty : s.2.entries ≠ [] := List.ne_nil_of_length_pos (s.2.positive.trans_le hfull)
  obtain ⟨kept, last, hentries⟩ := (List.eq_nil_or_concat' s.2.entries).resolve_left hnonempty
  have hholds := h.holds
  rw [hentries] at hholds
  obtain ⟨hcalls, hkept, hcapacity, hcallback⟩ := hholds.evict
  rw [LRUCache.makeRoom, h.holds.size_eq, h.capacity, if_pos hfull]
  exact ⟨kept, last, hentries, h.callback ▸ hcalls, hkept, hcapacity.trans h.capacity, hcallback⟩

theorem makeRoom_of_room (hroom : c.size < c.capacity) : c.makeRoom = ([], c) := by
  rw [LRUCache.makeRoom, if_neg (Nat.not_le_of_lt hroom)]

theorem makeRoom_represents (h : c.Represents s) : ∃ s', c.makeRoom.2.Represents s' := by
  by_cases hroom : c.size < c.capacity
  · rw [makeRoom_of_room hroom]
    exact ⟨s, h⟩
  · obtain ⟨kept, last, hentries, -, hkept, hcapacity, hcallback⟩ :=
      h.makeRoom_of_full (Nat.le_of_not_lt hroom)
    have hsub : List.Sublist kept s.2.entries := hentries ▸ List.sublist_append_left kept [last]
    exact ⟨(s.1, s.2.part kept hsub), hcallback.trans h.callback, hcapacity.trans h.capacity, hkept⟩

/-! ### References -/

omit [DecidableEq κ] in
theorem read_congr {c' : LRUCache κ ν φ} {object : ValueRef ℕ ν}
    (hplace : ∀ it, object.place = some it → c'.valueAt it = c.valueAt it) :
    c'.read object = c.read object := by
  cases object with
  | own value => rfl
  | stored it => exact hplace it rfl
  | moved it rest => exact hplace it rfl

omit [DecidableEq κ] in
theorem read_of_place {object : ValueRef ℕ ν} (h : object.place = some it) :
    c.read object = c.valueAt it := by
  cases object <;> cases h <;> rfl

theorem locate_congr {c' : LRUCache κ ν φ} {value : ValueRef κ ν}
    (hplace : ∀ key, value.place = some key → c'.map.lookup key = c.map.lookup key) :
    value.locate c' = value.locate c := by
  cases value with
  | own value => rfl
  | stored key => rw [ValueRef.locate, ValueRef.locate, hplace key rfl]
  | moved key rest => rw [ValueRef.locate, ValueRef.locate, hplace key rfl]

/-- A reference to the value of a key that is there reads it. -/
theorem locate {value : ValueRef κ ν} {v : ν} (h : c.Represents s)
    (hfind : value.find s.2 = some v) :
    ∃ object, value.locate c = some object ∧ c.read object = some v ∧
      object.place = value.place.bind (c.map.lookup ·) := by
  cases value with
  | own value => exact ⟨.own value, rfl, hfind, rfl⟩
  | stored key =>
    rw [ValueRef.find, h.find] at hfind
    obtain ⟨it, hlookup, hvalue⟩ := Option.bind_eq_some_iff.mp hfind
    exact ⟨.stored it, by simp [ValueRef.locate, hlookup], hvalue, hlookup.symm⟩
  | moved key rest =>
    rw [ValueRef.find, h.find] at hfind
    obtain ⟨it, hlookup, hvalue⟩ := Option.bind_eq_some_iff.mp hfind
    exact ⟨.moved it rest, by simp [ValueRef.locate, hlookup], hvalue, hlookup.symm⟩

/-- A reference to the value of a key that is not there does not exist. -/
theorem locate_of_none {value : ValueRef κ ν} (h : c.Represents s) (hfind : value.find s.2 = none) :
    value.locate c = none := by
  have hlookup {key : κ} (hkey : s.2.find key = none) : c.map.lookup key = none := by
    cases hlookup : c.map.lookup key with
    | none => rfl
    | some it =>
      obtain ⟨found, hfound, -⟩ := h.find_of_some hlookup
      rw [hkey] at hfound
      cases hfound
  cases value with
  | own value => cases hfind
  | stored key => rw [ValueRef.locate, hlookup hfind, Option.map_none]
  | moved key rest => rw [ValueRef.locate, hlookup hfind, Option.map_none]

theorem lookup_of_place {value : ValueRef κ ν} {v : ν} {k : κ} (h : c.Represents s)
    (hfind : value.find s.2 = some v) (hplace : value.place = some k) :
    ∃ it, c.map.lookup k = some it := by
  cases hlookup : c.map.lookup k with
  | some it => exact ⟨it, rfl⟩
  | none =>
    rw [ValueRef.find_of_place hplace, h.find_of_none hlookup] at hfind
    cases hfind

theorem leave {value : ValueRef κ ν} {object : ValueRef ℕ ν} (h : c.Represents s)
    (hlocate : value.locate c = some object) :
    (c.leave object).Represents (s.1, value.leave s.2) := by
  cases value with
  | own value =>
    cases hlocate
    exact h
  | stored key =>
    obtain ⟨it, -, rfl⟩ := Option.map_eq_some_iff.mp hlocate
    exact h
  | moved key rest =>
    obtain ⟨it, hlookup, rfl⟩ := Option.map_eq_some_iff.mp hlocate
    exact h.write hlookup rest

theorem makeRoom_read (h : c.Represents s) (hlookup : c.map.lookup key = some it) :
    (s.2.IsNext key → c.makeRoom.2.valueAt it = none) ∧ (¬s.2.IsNext key →
      c.makeRoom.2.valueAt it = c.valueAt it ∧ c.makeRoom.2.map.lookup key = some it) := by
  by_cases hroom : c.size < c.capacity
  · have hnot : ¬s.2.IsNext key := by
      rw [h.holds.size_eq, h.capacity] at hroom
      exact fun hnext => Nat.ne_of_lt hroom hnext.1
    rw [makeRoom_of_room hroom]
    exact ⟨fun hnext => absurd hnext hnot, fun _ => ⟨rfl, hlookup⟩⟩
  · have hfull : c.capacity ≤ c.size := Nat.le_of_not_lt hroom
    obtain ⟨kept, last, hentries, -⟩ := h.makeRoom_of_full hfull
    have hnext : s.2.IsNext key ↔ key = last.1 := by
      rw [h.holds.size_eq, h.capacity] at hfull
      rw [Recency.IsNext, le_antisymm s.2.fits hfull, hentries]
      simp [eq_comm]
    have hholds := h.holds
    rw [hentries] at hholds
    rw [LRUCache.makeRoom, if_pos hfull, hnext]
    exact hholds.valueAt_evict hlookup

theorem put {value : ValueRef κ ν} {v : ν} (h : c.Represents s) (key : κ)
    (hfind : value.find s.2 = some v)
    (hkeeps : s.2.find key = none → ∀ k, value.place = some k → ¬s.2.IsNext k) :
    ∃ object, value.locate c = some object ∧ ∃ after,
      c.put key object = (announced s.1 (s.2.store key v).1, some after) ∧
        after.Represents (s.1, value.leave (s.2.store key v).2) := by
  obtain ⟨object, hlocate, hread, hplace⟩ := h.locate hfind
  refine ⟨object, hlocate, ?_⟩
  rw [LRUCache.put]
  cases hlookup : c.map.lookup key with
  | some it =>
    obtain ⟨found, hfound, -⟩ := h.find_of_some hlookup
    have hstored := h.replace hlookup v
    rw [hread, (Recency.store_of_present v (hfound ▸ rfl)).1]
    exact ⟨_, rfl, hstored.leave hlocate⟩
  | none =>
    obtain ⟨hcalls, hinsert⟩ := h.insert hlookup v
    have hkept {k : κ} {it : ℕ} (hk : value.place = some k) (hit : c.map.lookup k = some it) :=
      (h.makeRoom_read hit).2 (hkeeps (h.find_of_none hlookup) k hk)
    have hread' : c.makeRoom.2.read object = some v := by
      refine (read_congr fun it hit => ?_).trans hread
      rw [hplace] at hit
      obtain ⟨k, hk, hit⟩ := Option.bind_eq_some_iff.mp hit
      exact (hkept hk hit).1
    have hlocate' : value.locate (c.makeRoom.2.emplaceFront key v) = some object := by
      refine (locate_congr fun k hk => ?_).trans hlocate
      obtain ⟨it, hit⟩ := h.lookup_of_place hfind hk
      have hne : k ≠ key := by
        rintro rfl
        rw [hlookup] at hit
        cases hit
      rw [hit]
      exact (Finmap.lookup_insert_of_ne _ hne).trans (hkept hk hit).2
    refine ⟨_, ?_, hinsert.leave hlocate'⟩
    rw [← hcalls]
    change (c.makeRoom.1, (c.makeRoom.2.read object).map _) = _
    rw [hread']
    rfl

/-- The value is destroyed before it is read. -/
theorem put_undefined {value : ValueRef κ ν} {v : ν} (h : c.Represents s) (key : κ)
    (hfind : value.find s.2 = some v) {k : κ} (habsent : s.2.find key = none)
    (hplace : value.place = some k) (hnext : s.2.IsNext k) :
    ∃ object, value.locate c = some object ∧ (c.put key object).2 = none := by
  obtain ⟨object, hlocate, -, hobject⟩ := h.locate hfind
  obtain ⟨it, hit⟩ := h.lookup_of_place hfind hplace
  rw [hplace, Option.bind_some, hit] at hobject
  have hlookup : c.map.lookup key = none := by
    cases hlookup : c.map.lookup key with
    | none => rfl
    | some other =>
      obtain ⟨found, hfound, -⟩ := h.find_of_some hlookup
      rw [habsent] at hfound
      cases hfound
  have hread : c.makeRoom.2.read object = none :=
    (read_of_place hobject).trans ((h.makeRoom_read hit).1 hnext)
  refine ⟨object, hlocate, ?_⟩
  rw [LRUCache.put, hlookup]
  change (c.makeRoom.2.read object).map _ = none
  rw [hread]
  rfl

theorem erase (h : c.Represents s) (key : κ) :
    (c.erase key).1 = (s.2.remove key).1 ∧
      (c.erase key).2.Represents (s.1, (s.2.remove key).2) := by
  rw [LRUCache.erase, Recency.remove]
  cases hlookup : c.map.lookup key with
  | none =>
    have hfind := h.find_of_none hlookup
    rw [hfind]
    refine ⟨rfl, h.callback, h.capacity, ?_⟩
    change c.Holds (s.2.others key)
    rw [Recency.others_of_absent hfind]
    exact h.holds
  | some it =>
    obtain ⟨value, hfind, -⟩ := h.find_of_some hlookup
    rw [hfind]
    exact ⟨rfl, h.callback, h.capacity, h.holds.erase hlookup⟩

theorem resize (h : c.Represents s) {n : ℕ} (hn : 0 < n) :
    (c.resize n).1 = .ok () ∧
      (c.resize n).2.1 = announced s.1 (s.2.resize n hn).1 ∧
      (c.resize n).2.2.Represents (s.1, (s.2.resize n hn).2) := by
  have hfuel : s.2.entries.length ≤ c.size + n := by
    rw [h.holds.size_eq]
    exact Nat.le_add_right ..
  obtain ⟨hcalls, hkept, hcallback⟩ := h.holds.evictDownTo hfuel
  rw [LRUCache.resize, if_neg (Nat.ne_of_gt hn)]
  exact ⟨rfl, h.callback ▸ hcalls, hcallback.trans h.callback, rfl, hkept.settings _ _⟩

theorem write_any (h : c.Represents s) (key : κ) (value : ν) :
    (match c.map.lookup key with
      | none => c
      | some it => c.assign it value).Represents (s.1, s.2.write key value) := by
  cases hlookup : c.map.lookup key with
  | none =>
    refine ⟨h.callback, h.capacity, ?_⟩
    rw [Recency.write_of_absent (h.find_of_none hlookup)]
    exact h.holds
  | some it => exact h.write hlookup value

end LRUCache.Represents

/-- What the callers promise: factories return, and a reference is to a value that is there. -/
def CacheCall.Legal (s : Option φ × Recency κ ν) : CacheCall κ ν φ → Prop
  | getOrInsert _ factory => factory.isOk
  | put _ value => (value.find s.2).isSome
  | _ => True

/-- The call does not evict the entry to whose value it has been given a reference. -/
def CacheCall.KeepsValue (s : Option φ × Recency κ ν) : CacheCall κ ν φ → Prop
  | put key value => s.2.find key = none → ∀ k, value.place = some k → ¬s.2.IsNext k
  | _ => True

theorem CacheCall.exists_of_not_keepsValue {s : Option φ × Recency κ ν} {key : κ}
    {value : ValueRef κ ν} (h : ¬(put key value).KeepsValue s) :
    s.2.find key = none ∧ ∃ k, value.place = some k ∧ s.2.IsNext k := by
  simpa only [KeepsValue, Classical.not_forall, not_not, exists_prop] using h

theorem LRUCache.Represents.step {c : LRUCache κ ν φ} {s : Option φ × Recency κ ν}
    (h : c.Represents s) (call : CacheCall κ ν φ) (hlegal : call.Legal s)
    (hkeeps : call.KeepsValue s) :
    (call.run c).1 = (call.spec s).1 ∧ (call.run c).2.Represents (call.spec s).2 := by
  have hreply {o o' : Option ν} (heq : o = o') :
      ((.ok (.value o), []) : Except String (CacheReply ν) × List (Eviction κ ν φ)) =
        (.ok (.value o'), []) := by
    rw [heq]
  cases call with
  | setEvictionCallback callback => exact ⟨rfl, rfl, h.capacity, h.holds.settings _ _⟩
  | get key =>
    obtain ⟨hfound, hget⟩ := h.get key
    exact ⟨hreply hfound, hget⟩
  | fetch key =>
    rw [CacheCall.run, CacheCall.spec, LRUCache.fetch, h.find]
    cases hlookup : c.map.lookup key with
    | none => exact ⟨rfl, h⟩
    | some it =>
      obtain ⟨value, hfind, hvalue⟩ := h.find_of_some hlookup
      rw [Option.bind_some, hvalue, Recency.use, hfind]
      exact ⟨hreply hvalue, h.splice hlookup hfind⟩
  | peek key =>
    rw [CacheCall.run, CacheCall.spec, LRUCache.peek, h.find]
    cases hlookup : c.map.lookup key with
    | none => exact ⟨rfl, h⟩
    | some it =>
      obtain ⟨value, -, hvalue⟩ := h.find_of_some hlookup
      rw [Option.bind_some, hvalue]
      exact ⟨hreply hvalue, h⟩
  | put key value =>
    obtain ⟨v, hfind⟩ := Option.isSome_iff_exists.mp hlegal
    obtain ⟨object, hlocate, after, hput, hafter⟩ := h.put key hfind hkeeps
    simp only [CacheCall.run, CacheCall.spec, hlocate, hfind, hput]
    exact ⟨trivial, hafter⟩
  | contains key =>
    rw [CacheCall.run, CacheCall.spec, h.contains]
    exact ⟨rfl, h⟩
  | erase key =>
    obtain ⟨hanswer, herase⟩ := h.erase key
    refine ⟨?_, herase⟩
    rw [CacheCall.run, CacheCall.spec, hanswer]
  | clear => exact ⟨rfl, h.callback, h.capacity, LRUCache.Holds.clear c⟩
  | size =>
    rw [CacheCall.run, CacheCall.spec, h.holds.size_eq]
    exact ⟨rfl, h⟩
  | resize newCapacity =>
    rw [CacheCall.run, CacheCall.spec]
    by_cases hpositive : 0 < newCapacity
    · obtain ⟨hok, hcalls, hresize⟩ := h.resize hpositive
      rw [dif_pos hpositive]
      refine ⟨Prod.ext ?_ hcalls, hresize⟩
      exact congrArg (Except.map fun _ => CacheReply.done) hok
    · rw [dif_neg hpositive, LRUCache.resize, if_pos (Nat.eq_zero_of_not_pos hpositive)]
      exact ⟨rfl, h⟩
  | getOrInsert key factory =>
    rw [CacheCall.run, CacheCall.spec, LRUCache.getOrInsert.eq_def, getOrInsertSpec.eq_def, h.find]
    cases hlookup : c.map.lookup key with
    | none =>
      cases factory with
      | error e => cases hlegal
      | ok value =>
        obtain ⟨hcalls, hinsert⟩ := h.insert hlookup value
        exact ⟨congrArg (Prod.mk _) hcalls, hinsert⟩
    | some it =>
      obtain ⟨value, hfind, hvalue⟩ := h.find_of_some hlookup
      rw [Option.bind_some, hvalue, Recency.use, hfind]
      exact ⟨hreply hvalue, h.splice hlookup hfind⟩
  | write key value =>
    have hwrite := h.write_any key value
    rw [CacheCall.run, CacheCall.spec]
    cases hlookup : c.map.lookup key <;> rw [hlookup] at hwrite <;> exact ⟨rfl, hwrite⟩

theorem LRUCache.Represents.ne_of_not_keepsValue {c : LRUCache κ ν φ} {s : Option φ × Recency κ ν}
    {call : CacheCall κ ν φ} (h : c.Represents s) (hlegal : call.Legal s)
    (hnot : ¬call.KeepsValue s) : (call.run c).1 ≠ (call.spec s).1 := by
  cases call with
  | put key value =>
    obtain ⟨v, hfind⟩ := Option.isSome_iff_exists.mp hlegal
    obtain ⟨habsent, k, hplace, hnext⟩ := CacheCall.exists_of_not_keepsValue hnot
    obtain ⟨object, hlocate, hput⟩ := h.put_undefined key hfind habsent hplace hnext
    have hnone : c.put key object = ((c.put key object).1, none) := Prod.ext rfl hput
    simp only [CacheCall.run, CacheCall.spec, hlocate, hfind]
    rw [hnone]
    simp
  | _ => exact absurd trivial hnot

theorem LRUCache.Represents.run {c : LRUCache κ ν φ} {s : Option φ × Recency κ ν}
    (h : c.Represents s) {calls : List (CacheCall κ ν φ)}
    (hlegal : Calls.Permitted CacheCall.spec CacheCall.Legal s calls)
    (hkeeps : Calls.Permitted CacheCall.spec CacheCall.KeepsValue s calls) :
    (Calls.run CacheCall.run c calls).1 = (Calls.run CacheCall.spec s calls).1 ∧
      (Calls.run CacheCall.run c calls).2.Represents (Calls.run CacheCall.spec s calls).2 :=
  Calls.run_refines (fun _ _ call hrel hcall => hrel.step call hcall.1 hcall.2) h
    (hlegal.and hkeeps)

/-- The replies show the first call that has read a destroyed value. -/
theorem LRUCache.Represents.keepsValue_of_run {c : LRUCache κ ν φ} {s : Option φ × Recency κ ν}
    (h : c.Represents s) {calls : List (CacheCall κ ν φ)}
    (hlegal : Calls.Permitted CacheCall.spec CacheCall.Legal s calls)
    (hsame : (Calls.run CacheCall.run c calls).1 = (Calls.run CacheCall.spec s calls).1) :
    Calls.Permitted CacheCall.spec CacheCall.KeepsValue s calls := by
  induction calls generalizing c s with
  | nil => trivial
  | cons call calls ih =>
    obtain ⟨hfirst, hrest⟩ := List.cons_eq_cons.mp hsame
    have hkeeps : call.KeepsValue s := by
      by_contra hnot
      exact h.ne_of_not_keepsValue hlegal.1 hnot hfirst
    exact ⟨hkeeps, ih (h.step call hlegal.1 hkeeps).2 hlegal.2 hrest⟩

/-! ## The order of last use -/

def CacheCall.used : CacheCall κ ν φ → Option κ
  | get key => some key
  | fetch key => some key
  | put key _ => some key
  | getOrInsert key _ => some key
  | setEvictionCallback _ | peek _ | contains _ | erase _ | clear | size | resize _ | write _ _ =>
      none

def lastUse (calls : List (CacheCall κ ν φ)) (key : κ) : ℕ :=
  calls.length - calls.reverse.findIdx fun call => call.used = some key

theorem lastUse_concat (calls : List (CacheCall κ ν φ)) (call : CacheCall κ ν φ) (key : κ) :
    lastUse (calls ++ [call]) key =
      if call.used = some key then calls.length + 1 else lastUse calls key := by
  rw [lastUse, lastUse, List.reverse_append, List.reverse_singleton, List.singleton_append,
    List.findIdx_cons, List.length_append, List.length_singleton]
  by_cases h : call.used = some key
  · simp [h]
  · simp [h]

theorem lastUse_lt (calls : List (CacheCall κ ν φ)) (key : κ) :
    lastUse calls key < calls.length + 1 :=
  Nat.lt_succ_of_le (Nat.sub_le ..)

theorem ordered_step {s : Option φ × Recency κ ν} {time : κ → ℕ} {now : ℕ}
    (h : s.2.Ordered time) (hnow : ∀ key, time key < now) {call : CacheCall κ ν φ}
    (hlegal : call.Legal s) :
    (call.spec s).2.2.Ordered fun key => if call.used = some key then now else time key := by
  have hsome (k : κ) : (fun key => if some k = some key then now else time key) =
      Function.update time k now := by
    funext key
    rw [Function.update_apply]
    simp [eq_comm]
  cases call with
  | get key => exact hsome key ▸ h.use hnow
  | fetch key =>
    rw [CacheCall.used, hsome, CacheCall.spec]
    cases hfind : s.2.find key with
    | none => exact h.of_absent hfind now
    | some found => exact h.use hnow
  | peek key =>
    rw [CacheCall.used, CacheCall.spec]
    cases hfind : s.2.find key <;> exact h
  | put key value =>
    obtain ⟨v, hfind⟩ := Option.isSome_iff_exists.mp hlegal
    rw [CacheCall.used, hsome, CacheCall.spec, hfind]
    cases value with
    | moved k rest => exact (h.store hnow).write
    | _ => exact h.store hnow
  | getOrInsert key factory =>
    rw [CacheCall.used, hsome, CacheCall.spec, getOrInsertSpec.eq_def]
    cases hfind : s.2.find key with
    | none => cases factory with
        | error e => exact h.of_absent hfind now
        | ok value => exact h.store hnow
    | some found => exact h.use hnow
  | resize newCapacity =>
    rw [CacheCall.used, CacheCall.spec]
    by_cases hpositive : 0 < newCapacity
    · rw [dif_pos hpositive]
      exact h.resize newCapacity hpositive
    · rw [dif_neg hpositive]
      exact h
  | erase key => exact h.part List.filter_sublist
  | clear => exact h.part (List.nil_sublist _)
  | write key value => exact h.write
  | setEvictionCallback callback => exact h
  | contains key => exact h
  | size => exact h

theorem ordered_run {s : Option φ × Recency κ ν} (hempty : s.2.entries = [])
    {calls : List (CacheCall κ ν φ)}
    (hlegal : Calls.Permitted CacheCall.spec CacheCall.Legal s calls) :
    (Calls.run CacheCall.spec s calls).2.2.Ordered (lastUse calls) := by
  induction calls using List.reverseRecOn with
  | nil =>
    rw [Calls.run, Recency.Ordered, hempty]
    exact List.Pairwise.nil
  | append_singleton calls call ih =>
    have hbefore := ih (hlegal.of_prefix (List.prefix_append calls [call]))
    have hnow := ordered_step hbefore (lastUse_lt calls) hlegal.last
    rw [Calls.run_concat]
    exact (funext (lastUse_concat calls call)).symm ▸ hnow

/-- After calls, with the replies, errors and callbacks of a recency list: the nodes of the list
have different keys, the map leads from each of these to its node and from no other key anywhere,
the entries are those of the recency list, not more than the capacity, and in the order of their
last use. -/
def CacheRefines (c : LRUCache κ ν φ) (s : Option φ × Recency κ ν)
    (calls : List (CacheCall κ ν φ)) : Prop :=
  let after := Calls.run CacheCall.run c calls
  let expected := Calls.run CacheCall.spec s calls
  after.1 = expected.1 ∧
  (after.2.list.map CacheNode.key).Nodup ∧ (after.2.list.map CacheNode.it).Nodup ∧
  (∀ key it, after.2.map.lookup key = some it ↔
    ∃ node ∈ after.2.list, node.key = key ∧ node.it = it) ∧
  after.2.list.map CacheNode.entry = expected.2.2.entries ∧
  after.2.size = expected.2.2.entries.length ∧ after.2.size ≤ after.2.capacity ∧
  after.2.list.Pairwise fun node later => lastUse calls later.key < lastUse calls node.key

theorem LRUCache.Represents.step_any {c : LRUCache κ ν φ} {s : Option φ × Recency κ ν}
    (h : c.Represents s) (call : CacheCall κ ν φ) : ∃ s', (call.run c).2.Represents s' := by
  by_cases hlegal : call.Legal s
  · by_cases hkeeps : call.KeepsValue s
    · exact ⟨_, (h.step call hlegal hkeeps).2⟩
    · cases call with
      | put key value =>
        obtain ⟨v, hfind⟩ := Option.isSome_iff_exists.mp hlegal
        obtain ⟨habsent, k, hplace, hnext⟩ := CacheCall.exists_of_not_keepsValue hkeeps
        obtain ⟨object, hlocate, hput⟩ := h.put_undefined key hfind habsent hplace hnext
        have hnone : c.put key object = ((c.put key object).1, none) := Prod.ext rfl hput
        simp only [CacheCall.run, hlocate]
        rw [hnone]
        exact h.makeRoom_represents
      | _ => exact absurd trivial hkeeps
  · cases call with
    | getOrInsert key factory =>
      cases factory with
      | ok value => exact absurd rfl hlegal
      | error e =>
        rw [CacheCall.run, LRUCache.getOrInsert.eq_def]
        cases hlookup : c.map.lookup key with
        | none => exact h.makeRoom_represents
        | some it =>
          obtain ⟨value, hfind, -⟩ := h.find_of_some hlookup
          exact ⟨_, h.splice hlookup hfind⟩
    | put key value =>
      have hnone : value.find s.2 = none := Option.not_isSome_iff_eq_none.mp hlegal
      simp only [CacheCall.run, h.locate_of_none hnone]
      exact ⟨s, h⟩
    | _ => exact absurd trivial hlegal

theorem LRUCache.represents_run {capacity : ℕ} (hcapacity : 1 ≤ capacity)
    (calls : List (CacheCall κ ν φ)) :
    ∃ s, (Calls.run CacheCall.run { capacity := capacity } calls).2.Represents s := by
  have hpermitted : Calls.Permitted CacheCall.run (fun _ _ => True)
      ({ capacity := capacity } : LRUCache κ ν φ) calls :=
    Calls.permitted_of_forall fun _ _ => trivial
  refine Calls.run_invariant (I := fun c => ∃ s, c.Represents s) ?_ ?_ hpermitted
  · rintro c call ⟨s, hs⟩ -
    exact hs.step_any call
  · exact ⟨(none, .empty capacity hcapacity), rfl, rfl,
      LRUCache.Holds.clear { capacity := capacity }⟩

/-- The entries in the order of their last use, and what is found under each key. -/
def LRUCache.SameEntries (c c' : LRUCache κ ν φ) : Prop :=
  c'.list.map CacheNode.entry = c.list.map CacheNode.entry ∧
    ∀ key, (c'.map.lookup key).bind (c'.valueAt ·) = (c.map.lookup key).bind (c.valueAt ·)

/-- If the factory throws, the entries are as they were and no callback has been called. -/
def LRUCache.LeftAlone (c : LRUCache κ ν φ) (key : κ) (e : String) : Prop :=
  let result := c.getOrInsert key (.error e)
  result.1 = .error e → result.2.1 = [] ∧ c.SameEntries result.2.2

/-- A factory that throws leaves the cache alone exactly if it is not called, or there is room. -/
theorem throwing_factory_iff {capacity : ℕ} (hcapacity : 1 ≤ capacity) {c : LRUCache κ ν φ}
    (hc : LRUCache.ofCapacity capacity = .ok c) (calls : List (CacheCall κ ν φ)) (key : κ)
    (e : String) :
    let after := (Calls.run CacheCall.run c calls).2
    after.LeftAlone key e ↔ after.contains key ∨ after.size < after.capacity := by
  obtain rfl : { capacity := capacity } = c := by
    rw [LRUCache.ofCapacity, if_neg (by omega)] at hc
    exact Except.ok.inj hc
  intro after
  obtain ⟨s, hs⟩ : ∃ s, after.Represents s := LRUCache.represents_run hcapacity calls
  rw [LRUCache.LeftAlone, LRUCache.contains, LRUCache.getOrInsert.eq_def]
  cases hlookup : after.map.lookup key with
  | some it => simp
  | none =>
      simp only [Option.isSome_none, Bool.false_eq_true, false_or, forall_const]
      constructor
      · rintro ⟨-, hsame, -⟩
        by_contra hfull
        obtain ⟨kept, last, hentries, -, hkept, -⟩ := hs.makeRoom_of_full (Nat.le_of_not_lt hfull)
        rw [hkept.nodes, hs.holds.nodes, hentries] at hsame
        simpa using congrArg List.length hsame
      · intro hroom
        rw [LRUCache.Represents.makeRoom_of_room hroom]
        exact ⟨rfl, rfl, fun _ => rfl⟩

/-- One of two places is taken. -/
theorem throwing_factory_room :
    (Calls.run CacheCall.run ({ capacity := 2 } : LRUCache ℕ ℕ Unit)
      [.put 1 (.own 10)]).2.LeftAlone 2
      "no value" :=
  (throwing_factory_iff (Nat.le_succ 1) rfl [.put 1 (.own 10)] 2 "no value").mpr (.inr (by decide))

/-- The only entry goes, with a call of the callback, before the factory throws. -/
theorem throwing_factory_evicts :
    ¬(Calls.run CacheCall.run ({ capacity := 1 } : LRUCache ℕ ℕ Unit)
      [.setEvictionCallback (some ()), .put 1 (.own 10)]).2.LeftAlone 2 "no value" := by
  intro h
  have hcalls := (h rfl).1
  revert hcalls
  decide

end DarwinCore.Container
