import DarwinCore.Library.Custody
import DarwinCore.Library.TransitionSystem
import DarwinCore.Model.Container.ObjectPool

/-! # The accounts of an object pool

Every object that the pool has created and not thrown away lies in the pool, is held by one handle
or was detached. -/

namespace DarwinCore.Container

variable {τ : Type*}

/-! ## The pool -/

namespace ObjectPool

def numbers (p : ObjectPool τ) : List ℕ :=
  p.pool.map PoolObject.number

/-- Each object is in the pool or held once, but for `gone` of those that were counted. -/
structure Accounts {ι : Type*} (p : ObjectPool τ) (held : ι → Option ℕ) (gone : ℕ) : Prop where
  custody : ∃ count, Custody held p.numbers p.made count ∧ p.createdCount = count + gone

variable {ι : Type*} {p : ObjectPool τ} {held : ι → Option ℕ} {gone : ℕ}

/-- The counter stays below the limit, or where it was. -/
def Grows (p q : ObjectPool τ) : Prop :=
  q.maxSize = p.maxSize ∧
    (p.maxSize = 0 ∨ q.createdCount ≤ max p.createdCount p.maxSize)

theorem Grows.refl (p : ObjectPool τ) : p.Grows p :=
  ⟨rfl, .inr (Nat.le_max_left ..)⟩

theorem Grows.trans {q r : ObjectPool τ} (h : p.Grows q) (h' : q.Grows r) : p.Grows r := by
  obtain ⟨hsize, hcount⟩ := h
  obtain ⟨hsize', hcount'⟩ := h'
  refine ⟨hsize'.trans hsize, ?_⟩
  rw [hsize] at hcount'
  omega

theorem Accounts.pushCreated (h : p.Accounts held gone) : p.pushCreated.Accounts held gone := by
  obtain ⟨count, hcustody, hcount⟩ := h.custody
  refine ⟨count + 1, hcustody.create, ?_⟩
  change p.createdCount + 1 = count + 1 + gone
  omega

private theorem ofSize_accounts (initialSize : ℕ) (createFunc : ℕ → τ) (resetFunc : Option (τ → τ))
    (maxSize : ℕ) :
    (ofSize initialSize createFunc resetFunc maxSize).Accounts (fun _ : ι => none) 0 ∧
      (ofSize initialSize createFunc resetFunc maxSize).createdCount = initialSize ∧
      (ofSize initialSize createFunc resetFunc maxSize).maxSize = maxSize := by
  induction initialSize with
  | zero => exact ⟨⟨0, Custody.empty, rfl⟩, rfl, rfl⟩
  | succ n ih =>
    obtain ⟨haccounts, hcount, hmax⟩ := ih
    rw [ofSize, Function.iterate_succ_apply']
    exact ⟨haccounts.pushCreated, congrArg (· + 1) hcount, hmax⟩

/-- The handle that the pool returns has an object that was on top of the pool, or is empty. -/
inductive Hands (p : ObjectPool τ) (held : ι → Option ℕ) (gone : ℕ) :
    PooledObject τ × ObjectPool τ → Prop where
  | object {object : PoolObject τ} {q : ObjectPool τ} {count : ℕ}
      (custody : Custody held (object.number :: q.numbers) q.made count)
      (counted : q.createdCount = count + gone) (grows : p.Grows q) :
      Hands p held gone (⟨some object, true⟩, q)
  | none : Hands p held gone (.null, p)

theorem Accounts.tryAcquire (h : p.Accounts held gone) : p.Hands held gone p.tryAcquire := by
  obtain ⟨count, hcustody, hcount⟩ := h.custody
  rw [ObjectPool.tryAcquire]
  cases hpool : p.pool with
  | nil => exact .none
  | cons object rest =>
    rw [numbers, hpool] at hcustody
    exact .object hcustody hcount ⟨rfl, .inr (Nat.le_max_left ..)⟩

theorem Accounts.acquire (h : p.Accounts held gone) : p.Hands held gone p.acquire := by
  obtain ⟨count, hcustody, hcount⟩ := h.custody
  rw [ObjectPool.acquire]
  cases hpool : p.pool with
  | cons object rest =>
    rw [numbers, hpool] at hcustody
    exact .object hcustody hcount ⟨rfl, .inr (Nat.le_max_left ..)⟩
  | nil =>
    by_cases hroom : p.maxSize = 0 ∨ p.createdCount < p.maxSize
    · have hgrows : p.Grows p.create.2 := by
        refine ⟨rfl, ?_⟩
        change p.maxSize = 0 ∨ p.createdCount + 1 ≤ max p.createdCount p.maxSize
        omega
      have hcounted : p.create.2.createdCount = count + 1 + gone := by
        change p.createdCount + 1 = count + 1 + gone
        omega
      rw [numbers] at hcustody
      rw [if_pos hroom]
      have hhands : p.Hands held gone (⟨some p.create.1, true⟩, p.create.2) :=
        .object hcustody.create hcounted hgrows
      exact hhands
    · rw [if_neg hroom]
      exact .none

/-- `acquire` gives no object only if the pool is empty and the limit is reached. -/
theorem acquire_empty (h : p.acquire.1.object = none) :
    p.pool = [] ∧ 0 < p.maxSize ∧ p.maxSize ≤ p.createdCount := by
  rw [acquire] at h
  cases hpool : p.pool with
  | cons object rest =>
    rw [hpool] at h
    cases h
  | nil =>
    rw [hpool] at h
    by_cases hroom : p.maxSize = 0 ∨ p.createdCount < p.maxSize
    · rw [if_pos hroom] at h
      cases h
    · exact ⟨rfl, by omega, by omega⟩

theorem Accounts.clear (h : p.Accounts held gone) :
    p.clear.Accounts held gone ∧ p.Grows p.clear := by
  obtain ⟨count, hcustody, hcount⟩ := h.custody
  obtain ⟨holders, -, htotal⟩ := hcustody.holders
  rw [numbers, List.length_map] at htotal
  refine ⟨⟨holders.card, ?_, ?_⟩, rfl, .inr ?_⟩
  · have hall : Custody held (p.numbers ++ []) p.made (holders.card + p.numbers.length) := by
      rw [List.append_nil, numbers, List.length_map, Nat.add_comm, htotal]
      exact hcustody
    exact hall.popAll
  · change p.createdCount - p.pool.length = holders.card + gone
    omega
  · exact (Nat.sub_le ..).trans (Nat.le_max_left ..)

theorem Accounts.warmUpLoop (h : p.Accounts held gone) (count fuel : ℕ) :
    (p.warmUpLoop count fuel).Accounts held gone ∧ p.Grows (p.warmUpLoop count fuel) := by
  induction fuel generalizing p with
  | zero => exact ⟨h, .refl p⟩
  | succ fuel ih =>
    rw [ObjectPool.warmUpLoop]
    by_cases hmore : p.pool.length < count
    · by_cases hfull : 0 < p.maxSize ∧ p.maxSize ≤ p.createdCount
      · rw [if_pos hmore, if_pos hfull]
        exact ⟨h, .refl p⟩
      · have hgrows : p.Grows p.pushCreated := by
          refine ⟨rfl, ?_⟩
          change p.maxSize = 0 ∨ p.createdCount + 1 ≤ max p.createdCount p.maxSize
          omega
        obtain ⟨haccounts, hloop⟩ := ih h.pushCreated
        rw [if_pos hmore, if_neg hfull]
        exact ⟨haccounts, hgrows.trans hloop⟩
    · rw [if_neg hmore]
      exact ⟨h, .refl p⟩

end ObjectPool

/-! ## The handles -/

namespace PoolProgram

variable {ι : Type*}

def held (s : PoolProgram ι τ) (i : ι) : Option ℕ :=
  (s.handles i).bind fun handle => handle.object.map PoolObject.number

/-- The accounts are right, and who holds an object knows the pool. -/
structure Sound (s : PoolProgram ι τ) : Prop where
  accounts : s.pool.Accounts s.held s.detached.length
  pooled : ∀ i handle, s.handles i = some handle → handle.object.isSome → handle.pool = true

theorem takeBack_eq {handle : PooledObject τ} (p : ObjectPool τ)
    (hpooled : handle.object.isSome → handle.pool = true) :
    (p.takeBack handle).numbers = (handle.object.map PoolObject.number).toList ++ p.numbers ∧
      (p.takeBack handle).made = p.made ∧
      (p.takeBack handle).createdCount = p.createdCount ∧
      (p.takeBack handle).maxSize = p.maxSize := by
  obtain ⟨object, pool⟩ := handle
  cases object with
  | none => exact ⟨rfl, rfl, rfl, rfl⟩
  | some object =>
    obtain rfl : pool = true := hpooled rfl
    exact ⟨rfl, rfl, rfl, rfl⟩

variable [DecidableEq ι] {s : PoolProgram ι τ}

theorem held_update (s : PoolProgram ι τ) (pool : ObjectPool τ) (i : ι)
    (o : Option (PooledObject τ)) (detached : List (PoolObject τ)) :
    held ⟨pool, Function.update s.handles i o, detached⟩ =
      Function.update s.held i (o.bind fun handle => handle.object.map PoolObject.number) := by
  funext j
  change (Function.update s.handles i o j).bind _ = _
  rw [Function.update_apply, Function.update_apply]
  split <;> rfl

theorem held_vacated (s : PoolProgram ι τ) (i : ι) (o : Option (PooledObject τ))
    (ho : (o.bind fun handle => handle.object.map PoolObject.number) = none) :
    held { s with handles := Function.update s.handles i o } = Function.update s.held i none := by
  rw [held_update, ho]

theorem pooled_update {handles : ι → Option (PooledObject τ)} {i : ι} {o : Option (PooledObject τ)}
    (h : ∀ j handle, handles j = some handle → handle.object.isSome → handle.pool = true)
    (ho : ∀ handle, o = some handle → handle.object.isSome → handle.pool = true) :
    ∀ j handle, Function.update handles i o j = some handle → handle.object.isSome →
      handle.pool = true := by
  intro j handle hj
  rw [Function.update_apply] at hj
  split at hj
  · exact ho handle hj
  · exact h j handle hj

private theorem assign_pool
    (hpooled : ∀ i handle, s.handles i = some handle → handle.object.isSome →
      handle.pool = true) (i : ι) (handle : PooledObject τ) :
    (s.assign i handle).pool.numbers = (s.held i).toList ++ s.pool.numbers ∧
      (s.assign i handle).pool.made = s.pool.made ∧
      (s.assign i handle).pool.createdCount = s.pool.createdCount ∧
      (s.assign i handle).pool.maxSize = s.pool.maxSize := by
  rw [assign, held]
  cases hi : s.handles i with
  | none => exact ⟨rfl, rfl, rfl, rfl⟩
  | some old => exact takeBack_eq s.pool (hpooled i old hi)

theorem assign_sound {i : ι} {count : ℕ} (handle : PooledObject τ)
    (hcustody : Custody s.held ((handle.object.map PoolObject.number).toList ++ s.pool.numbers)
      s.pool.made count) (hcount : s.pool.createdCount = count + s.detached.length)
    (hpooled : ∀ i handle, s.handles i = some handle → handle.object.isSome → handle.pool = true)
    (hhandle : handle.object.isSome → handle.pool = true) :
    (s.assign i handle).Sound ∧ s.pool.Grows (s.assign i handle).pool := by
  obtain ⟨hnumbers, hmade, hcreated, hmax⟩ := assign_pool hpooled i handle
  have hexchanged := hcustody.exchange i
  refine ⟨⟨⟨count, ?_, hcreated.trans hcount⟩, ?_⟩, hmax, .inr ?_⟩
  · rw [hnumbers, hmade]
    refine (congrArg (fun held => Custody held _ _ _) ?_).mpr hexchanged
    exact held_update s _ i (some handle) s.detached
  · refine pooled_update hpooled fun new hnew => ?_
    obtain rfl := Option.some.inj hnew
    exact hhandle
  · exact hcreated ▸ Nat.le_max_left ..

theorem Sound.assign_acquired (h : s.Sound) (i : ι) {r : PooledObject τ × ObjectPool τ}
    (hr : s.pool.Hands s.held s.detached.length r) :
    (assign i r.1 { s with pool := r.2 }).Sound ∧
      s.pool.Grows (assign i r.1 { s with pool := r.2 }).pool := by
  cases hr with
  | object custody counted grows =>
    obtain ⟨hsound, hgrows⟩ :=
      assign_sound (s := { s with pool := _ }) ⟨some _, true⟩ custody counted h.pooled
        fun _ => rfl
    exact ⟨hsound, grows.trans hgrows⟩
  | none =>
    obtain ⟨count, hcustody, hcount⟩ := h.accounts.custody
    exact assign_sound .null hcustody hcount h.pooled nofun

theorem Sound.moveFrom (h : s.Sound) (i j : ι) :
    (s.moveFrom i j).Sound ∧ s.pool.Grows (s.moveFrom i j).pool := by
  obtain ⟨count, hcustody, hcount⟩ := h.accounts.custody
  rw [PoolProgram.moveFrom]
  cases hi : s.handles i with
  | none => exact ⟨h, .refl _⟩
  | some handle =>
    have hheld : s.held i = handle.object.map PoolObject.number := by
      rw [held, hi]
      rfl
    have hvacated := hcustody.vacate i
    rw [hheld, ← held_vacated s i (some .null) rfl] at hvacated
    refine assign_sound (s := { s with handles := _ }) handle hvacated hcount ?_
      (h.pooled i handle hi)
    refine pooled_update h.pooled fun new hnew => ?_
    obtain rfl := Option.some.inj hnew
    exact nofun

/-- Every call keeps the accounts. -/
theorem Sound.step (h : s.Sound) (call : PoolCall ι) :
    (s.run call).2.Sound ∧ s.pool.Grows (s.run call).2.pool := by
  cases call with
  | acquire i => exact h.assign_acquired i h.accounts.acquire
  | tryAcquire i => exact h.assign_acquired i h.accounts.tryAcquire
  | warmUp count =>
    obtain ⟨haccounts, hgrows⟩ := h.accounts.warmUpLoop count count
    exact ⟨⟨haccounts, h.pooled⟩, hgrows⟩
  | clear =>
    obtain ⟨haccounts, hgrows⟩ := h.accounts.clear
    exact ⟨⟨haccounts, h.pooled⟩, hgrows⟩
  | destroy i =>
    rw [run]
    cases hi : s.handles i with
    | none => exact ⟨h, .refl _⟩
    | some handle =>
      obtain ⟨count, hcustody, hcount⟩ := h.accounts.custody
      obtain ⟨hnumbers, hmade, hcreated, hmax⟩ := takeBack_eq s.pool (h.pooled i handle hi)
      have hheld : s.held i = handle.object.map PoolObject.number := by
        rw [held, hi]
        rfl
      have hvacated := hcustody.vacate i
      rw [hheld, ← hnumbers, ← hmade] at hvacated
      refine ⟨⟨⟨count, ?_, hcreated.trans hcount⟩, ?_⟩, hmax, .inr ?_⟩
      · refine (congrArg (fun held => Custody held _ _ _) ?_).mpr hvacated
        exact held_update s _ i none s.detached
      · exact pooled_update h.pooled nofun
      · exact hcreated ▸ Nat.le_max_left ..
  | moveConstruct i j =>
    rw [run]
    split
    · exact ⟨h, .refl _⟩
    · exact h.moveFrom i j
  | moveAssign i j =>
    rw [run]
    split
    · exact ⟨h, .refl _⟩
    · exact h.moveFrom i j
  | detach i =>
    rw [run]
    cases hi : s.handles i with
    | none => exact ⟨h, .refl _⟩
    | some handle =>
      obtain ⟨count, hcustody, hcount⟩ := h.accounts.custody
      have hheld : s.held i = handle.object.map PoolObject.number := by
        rw [held, hi]
        rfl
      have hvacated := hcustody.vacate i
      rw [hheld, ← held_vacated s i (some .null) rfl] at hvacated
      obtain ⟨holders, -, htotal⟩ := hvacated.holders
      have hlength : (handle.object.map PoolObject.number).toList.length =
          handle.object.toList.length := by
        cases handle.object <;> rfl
      rw [List.length_append, hlength] at htotal
      refine ⟨⟨⟨count - handle.object.toList.length, ?_, ?_⟩, ?_⟩, .refl _⟩
      · rw [← Nat.sub_add_cancel (n := count) (m := handle.object.toList.length) (by omega),
          ← hlength] at hvacated
        exact hlength ▸ hvacated.popAll
      · change s.pool.createdCount = _ + (handle.object.toList ++ s.detached).length
        rw [List.length_append, hcount]
        omega
      · refine pooled_update h.pooled fun new hnew => ?_
        obtain rfl := Option.some.inj hnew
        exact nofun

/-! ## Runs -/

def start (initialSize : ℕ) (createFunc : ℕ → τ) (resetFunc : Option (τ → τ)) (maxSize : ℕ) :
    PoolProgram ι τ :=
  { pool := .ofSize initialSize createFunc resetFunc maxSize }

/-- No handle that holds an object is detached from it. -/
def KeepsObject (s : PoolProgram ι τ) : PoolCall ι → Prop
  | .detach i => s.held i = none
  | _ => True

private theorem moveFrom_detached (i j : ι) (s : PoolProgram ι τ) :
    (s.moveFrom i j).detached = s.detached := by
  rw [moveFrom]
  cases s.handles i <;> rfl

/-- Only `detach` takes objects out of the accounts. -/
theorem run_detached (s : PoolProgram ι τ) (call : PoolCall ι) :
    s.detached <:+ (s.run call).2.detached ∧
      ((s.run call).2.detached = s.detached ↔ s.KeepsObject call) := by
  have hkept {t : PoolProgram ι τ} (ht : t.detached = s.detached) :
      s.detached <:+ t.detached ∧ (t.detached = s.detached ↔ True) :=
    ⟨ht ▸ List.suffix_rfl, iff_true_intro ht⟩
  cases call with
  | acquire i => exact hkept rfl
  | tryAcquire i => exact hkept rfl
  | warmUp count => exact hkept rfl
  | clear => exact hkept rfl
  | destroy i =>
    refine hkept ?_
    rw [run]
    cases s.handles i <;> rfl
  | moveConstruct i j =>
    refine hkept ?_
    rw [run]
    split
    · rfl
    · exact moveFrom_detached i j s
  | moveAssign i j =>
    refine hkept ?_
    rw [run]
    split
    · rfl
    · exact moveFrom_detached i j s
  | detach i =>
    rw [run, KeepsObject, held]
    cases s.handles i with
    | none => exact ⟨List.suffix_rfl, iff_of_true rfl rfl⟩
    | some handle =>
      refine ⟨List.suffix_append _ _, ?_⟩
      cases handle.object <;> simp

private theorem runs_detached (s : PoolProgram ι τ) (calls : List (PoolCall ι)) :
    s.detached <:+ (Calls.run run s calls).2.detached := by
  induction calls generalizing s with
  | nil => exact List.suffix_rfl
  | cons call calls ih => exact (run_detached s call).1.trans (ih _)

private theorem detached_eq_nil_iff {s : PoolProgram ι τ} (hs : s.detached = [])
    (calls : List (PoolCall ι)) :
    (Calls.run run s calls).2.detached = [] ↔ Calls.Permitted run KeepsObject s calls := by
  induction calls generalizing s with
  | nil => exact iff_true_intro hs
  | cons call calls ih =>
    have hstep := (run_detached s call).2
    rw [hs] at hstep
    refine ⟨fun hnil => ?_, fun hkeeps => (ih (hstep.mpr hkeeps.1)).mpr hkeeps.2⟩
    have hfirst : (s.run call).2.detached = [] :=
      List.suffix_nil.mp (hnil ▸ runs_detached (s.run call).2 calls)
    exact ⟨hstep.mp hfirst, (ih hfirst).mp hnil⟩

/-- `borrowed` is the number of handles with an object, there are never too many objects, each is
in one place, and `acquire` gives one unless as many as there may be are held. -/
structure Accounted (s : PoolProgram ι τ) : Prop where
  borrowed : ∃ holders : Finset ι, (∀ i, i ∈ holders ↔ (s.held i).isSome) ∧
    s.pool.borrowed = holders.card ∧
    (s.pool.acquire.1.object = none → 0 < s.pool.maxSize ∧ holders.card = s.pool.maxSize)
  total : 0 < s.pool.maxSize → s.pool.totalCreated ≤ s.pool.maxSize
  single : ∀ i j number, s.held i = some number → s.held j = some number → i = j
  apart : ∀ i number, s.held i = some number → number ∉ s.pool.numbers
  nodup : s.pool.numbers.Nodup

omit [DecidableEq ι] in
/-- The accounts are right exactly if nothing was detached and the limit is kept. -/
theorem Sound.accounted_iff (h : s.Sound) : s.Accounted ↔
    s.detached = [] ∧ (s.pool.maxSize = 0 ∨ s.pool.createdCount ≤ s.pool.maxSize) := by
  obtain ⟨count, hcustody, hcount⟩ := h.accounts.custody
  obtain ⟨holders, hmem, htotal⟩ := hcustody.holders
  rw [ObjectPool.numbers, List.length_map] at htotal
  have hborrowed : s.pool.borrowed = holders.card + s.detached.length := by
    rw [ObjectPool.borrowed]
    omega
  constructor
  · intro haccounted
    obtain ⟨others, hothers, hcard, -⟩ := haccounted.borrowed
    have heq : others = holders := by
      ext i
      rw [hothers, hmem]
    refine ⟨List.eq_nil_of_length_eq_zero ?_, ?_⟩
    · rw [heq] at hcard
      omega
    · exact (Nat.eq_zero_or_pos _).imp_right haccounted.total
  · rintro ⟨hnone, hlimit⟩
    rw [hnone, List.length_nil, Nat.add_zero] at hborrowed hcount
    refine ⟨⟨holders, hmem, hborrowed, fun hempty => ?_⟩, fun hpositive => ?_, hcustody.single,
      hcustody.apart, hcustody.nodup⟩
    · obtain ⟨hpool, hpositive, hfull⟩ := ObjectPool.acquire_empty hempty
      rw [hpool, List.length_nil] at htotal
      omega
    · exact hlimit.resolve_left (Nat.ne_of_gt hpositive)

theorem Sound.run (h : s.Sound) (calls : List (PoolCall ι)) :
    (Calls.run PoolProgram.run s calls).2.Sound ∧
      s.pool.Grows (Calls.run PoolProgram.run s calls).2.pool := by
  induction calls generalizing s with
  | nil => exact ⟨h, .refl _⟩
  | cons call calls ih =>
    obtain ⟨hsound, hgrows⟩ := h.step call
    obtain ⟨hlast, hgrows'⟩ := ih hsound
    exact ⟨hlast, hgrows.trans hgrows'⟩

end PoolProgram

/-- The accounts of a pool are right throughout a program exactly if the pool does not begin with
more objects than it may have, and no handle is detached from an object that it holds. -/
theorem object_pool_accounted_iff {ι : Type*} [DecidableEq ι] (initialSize : ℕ)
    (createFunc : ℕ → τ) (resetFunc : Option (τ → τ)) (maxSize : ℕ) (calls : List (PoolCall ι)) :
    let start := PoolProgram.start initialSize createFunc resetFunc maxSize
    (∀ before, before <+: calls → (Calls.run PoolProgram.run start before).2.Accounted) ↔
      (maxSize = 0 ∨ initialSize ≤ maxSize) ∧
        Calls.Permitted PoolProgram.run PoolProgram.KeepsObject start calls := by
  intro start
  obtain ⟨haccounts, hcreated, hmax⟩ :=
    ObjectPool.ofSize_accounts (ι := ι) initialSize createFunc resetFunc maxSize
  have hsound : start.Sound := ⟨haccounts, nofun⟩
  constructor
  · intro hall
    have hfirst := (hsound.accounted_iff.mp (hall [] List.nil_prefix)).2
    have hlast := ((hsound.run calls).1.accounted_iff.mp (hall calls List.prefix_rfl)).1
    refine ⟨?_, (PoolProgram.detached_eq_nil_iff rfl calls).mp hlast⟩
    change start.pool.createdCount = initialSize at hcreated
    change start.pool.maxSize = maxSize at hmax
    rwa [hcreated, hmax] at hfirst
  · rintro ⟨hlimit, hkeeps⟩ before hbefore
    obtain ⟨hafter, hsize, hgrown⟩ := hsound.run before
    refine hafter.accounted_iff.mpr ⟨?_, ?_⟩
    · exact (PoolProgram.detached_eq_nil_iff rfl before).mpr (hkeeps.of_prefix hbefore)
    · change start.pool.createdCount = initialSize at hcreated
      change start.pool.maxSize = maxSize at hmax
      rw [hsize, hmax]
      rw [hcreated, hmax] at hgrown
      omega

/-- An object is acquired and detached from its handle: it still counts as borrowed. -/
theorem detached_object_counted :
    ¬ ∀ before, before <+: [.acquire (), .detach ()] →
      (Calls.run PoolProgram.run
        (PoolProgram.start 0 (fun _ => ()) none 1) before).2.Accounted := by
  intro hall
  obtain ⟨holders, hmem, hcard, -⟩ := (hall _ List.prefix_rfl).borrowed
  have hempty : holders = ∅ := by
    refine Finset.eq_empty_of_forall_notMem fun i hi => ?_
    rw [hmem] at hi
    cases i
    exact absurd hi (by decide)
  rw [hempty] at hcard
  revert hcard
  decide

end DarwinCore.Container
