import DarwinCore.Model.Container.MemoryPool

/-! # The blocks of the memory pool never overlap

Every block is held by the program or on one free list, and all lie apart in the chunks. -/

namespace DarwinCore.Container

open ByteOrder

namespace MemoryPool

variable {host : Endian} {s s' : MemoryPool} {held held' : List Region} {lists : ℕ → List ℕ}
  {i b : ℕ}

/-! ## Size classes -/

theorem index_lt {size : ℕ} (hpos : 1 ≤ size) (hle : size ≤ maxBlock) : index size < 16 := by
  simp only [index, blockAlign, maxBlock] at *
  omega

private theorem le_blockSize {size : ℕ} (hpos : 1 ≤ size) (hle : size ≤ maxBlock) :
    size ≤ blockSize (index size) := by
  simp only [index, blockSize, blockAlign, maxBlock] at *
  omega

theorem word_le_blockSize (i : ℕ) : 8 ≤ blockSize i := by
  simp only [blockSize, blockAlign]
  omega

/-! ## Ownership -/

def free (lists : ℕ → List ℕ) : List Region :=
  (List.range 16).flatMap fun i => (lists i).map fun b => ⟨b, blockSize i⟩

theorem mem_free {r : Region} : r ∈ free lists ↔ ∃ i < 16, ∃ b ∈ lists i, ⟨b, blockSize i⟩ = r := by
  simp only [free, List.mem_flatMap, List.mem_range, List.mem_map]

/-- One block more on the list `i`. -/
theorem free_push (lists : ℕ → List ℕ) (hi : i < 16) (b : ℕ) :
    (free (Function.update lists i (b :: lists i))).Perm (⟨b, blockSize i⟩ :: free lists) := by
  obtain ⟨before, after, hrange⟩ := List.append_of_mem (List.mem_range.mpr hi)
  have hnodup : (before ++ i :: after).Nodup := hrange ▸ List.nodup_range
  have hne : ∀ j ∈ before ++ after, j ≠ i := fun j hj hji =>
    (List.nodup_middle.mp hnodup).notMem (hji ▸ hj)
  have hsame : ∀ js : List ℕ, (∀ j ∈ js, j ≠ i) →
      (js.flatMap fun j => (Function.update lists i (b :: lists i) j).map
        fun b => (⟨b, blockSize j⟩ : Region)) =
      js.flatMap fun j => (lists j).map fun b => (⟨b, blockSize j⟩ : Region) := by
    intro js hjs
    refine List.flatMap_congr fun j hj => ?_
    rw [Function.update_of_ne (hjs j hj)]
  rw [free, free, hrange, List.flatMap_append, List.flatMap_append, List.flatMap_cons,
    List.flatMap_cons, hsame before fun j hj => hne j (List.mem_append_left _ hj),
    hsame after fun j hj => hne j (List.mem_append_right _ hj), Function.update_self, List.map_cons,
    List.cons_append]
  exact List.perm_middle

structure Owns (host : Endian) (s : MemoryPool) (held : List Region) (lists : ℕ → List ℕ) :
    Prop where
  length : s.freeLists.length = 16
  threads : ∀ i < 16, ∃ head, s.freeLists[i]? = some head ∧
    ThreadedList host 8 s.memory head (lists i)
  apart : (held ++ free lists).Pairwise Region.Apart
  within : ∀ r ∈ held ++ free lists, 0 < r.length ∧ ∃ c ∈ s.chunks, r.Within c
  bounds : ∀ c ∈ s.chunks, 0 < c.start ∧ 0 < c.length ∧ c.start + c.length ≤ 2 ^ 64
  chunks_apart : s.chunks.Pairwise Region.Apart

theorem Owns.of_perm {lists' : ℕ → List ℕ} (h : Owns host s held lists)
    (hperm : (held ++ free lists).Perm (held' ++ free lists')) (hlength : s'.freeLists.length = 16)
    (hthreads : ∀ i < 16, ∃ head, s'.freeLists[i]? = some head ∧
      ThreadedList host 8 s'.memory head (lists' i)) (hchunks : s'.chunks = s.chunks) :
    Owns host s' held' lists' where
  length := hlength
  threads := hthreads
  apart := (hperm.pairwise_iff fun hrq => hrq.symm).mp h.apart
  within r hr := hchunks ▸ h.within r (hperm.mem_iff.mpr hr)
  bounds := hchunks ▸ h.bounds
  chunks_apart := hchunks ▸ h.chunks_apart

theorem Owns.held_perm (h : Owns host s held lists) (hperm : held.Perm held') :
    Owns host s held' lists :=
  h.of_perm (hperm.append_right _) h.length h.threads rfl

theorem Owns.address (h : Owns host s held lists) {r : Region} (hr : r ∈ held ++ free lists) :
    r.start ≠ 0 ∧ r.start < 256 ^ 8 := by
  obtain ⟨hpos, c, hc, hwithin⟩ := h.within r hr
  obtain ⟨hstart, -, hend⟩ := h.bounds c hc
  simp only [Region.Within] at hwithin
  omega

/-! ## The free lists -/

theorem threads_set {freeLists : List ℕ} {memory : ℕ → UInt8} {lists' : ℕ → List ℕ} {new : ℕ}
    (hlength : freeLists.length = 16) (hi : i < 16)
    (hnew : ThreadedList host 8 memory new (lists' i))
    (hothers : ∀ j < 16, j ≠ i → ∃ head, freeLists[j]? = some head ∧
      ThreadedList host 8 memory head (lists' j)) :
    ∀ j < 16, ∃ head, (freeLists.set i new)[j]? = some head ∧
      ThreadedList host 8 memory head (lists' j) := by
  intro j hj
  by_cases hji : j = i
  · subst hji
    exact ⟨new, List.getElem?_set_self (hlength ▸ hj), hnew⟩
  · rw [List.getElem?_set_ne (Ne.symm hji)]
    exact hothers j hj hji

/-- A held block goes to the free list of its size. -/
theorem Owns.push (h : Owns host s (⟨b, blockSize i⟩ :: held) lists) (hi : i < 16) :
    ∃ s', s.push host i b = some s' ∧ s'.chunks = s.chunks ∧
      Owns host s' held (Function.update lists i (b :: lists i)) := by
  obtain ⟨head, hhead, hthreads⟩ := h.threads i hi
  have hb := h.address List.mem_cons_self
  have hapart : ∀ j < 16, ∀ x ∈ lists j, Region.Apart ⟨b, 8⟩ ⟨x, 8⟩ := by
    intro j hj x hx
    have hfree : (⟨x, blockSize j⟩ : Region) ∈ held ++ free lists :=
      List.mem_append_right _ (mem_free.mpr ⟨j, hj, x, hx, rfl⟩)
    refine ((List.pairwise_cons.mp h.apart).1 _ hfree).of_within ?_ ?_
    · exact ⟨Nat.le_refl _, Nat.add_le_add_left (word_le_blockSize i) _⟩
    · exact ⟨Nat.le_refl _, Nat.add_le_add_left (word_le_blockSize j) _⟩
  have hword : head < 256 ^ 8 := by
    cases hlist : lists i with
    | nil =>
      rw [hlist] at hthreads
      exact hthreads ▸ by decide
    | cons x rest =>
      rw [hlist] at hthreads
      have hx : x ∈ lists i := hlist ▸ List.mem_cons_self
      have hfree : (⟨x, blockSize i⟩ : Region) ∈ free lists := mem_free.mpr ⟨i, hi, x, hx, rfl⟩
      exact hthreads.1 ▸ (h.address (List.mem_append_right _ hfree)).2
  have hcall : s.push host i b = some { s with
      memory := storeWord host 8 s.memory b head, freeLists := s.freeLists.set i b } := by
    rw [MemoryPool.push, hhead]
    rfl
  refine ⟨_, hcall, rfl, ?_⟩
  refine h.of_perm ?_ (by rw [List.length_set, h.length]) ?_ rfl
  · exact (List.perm_middle.symm.trans ((free_push lists hi b).symm.append_left held))
  · apply threads_set h.length hi
    · rw [Function.update_self]
      exact hthreads.push hword hb.1 (hapart i hi)
    · intro j hj hji
      rw [Function.update_of_ne hji]
      obtain ⟨head', hhead', hthreads'⟩ := h.threads j hj
      exact ⟨head', hhead', hthreads'.store (hapart j hj)⟩

/-- The first block of a list that is not empty is taken. -/
theorem Owns.pop (h : Owns host s held lists) (hi : i < 16) (hne : lists i ≠ []) :
    ∃ b rest s', s.pop host i = some (b, s') ∧ s'.chunks = s.chunks ∧
      Owns host s' (⟨b, blockSize i⟩ :: held) (Function.update lists i rest) := by
  obtain ⟨b, rest, hlist⟩ := List.exists_cons_of_ne_nil hne
  obtain ⟨head, hhead, hthreads⟩ := h.threads i hi
  rw [hlist] at hthreads
  obtain ⟨rfl, hb, hrest⟩ := hthreads
  have hcall : s.pop host i = some (head,
      { s with freeLists := s.freeLists.set i (loadWord host 8 s.memory head) }) := by
    rw [MemoryPool.pop, hhead]
    exact if_neg hb
  refine ⟨head, rest, _, hcall, rfl, ?_⟩
  have hback : Function.update (Function.update lists i rest) i
      (head :: Function.update lists i rest i) = lists := by
    rw [Function.update_self, Function.update_idem, ← hlist, Function.update_eq_self]
  refine h.of_perm ?_ (by rw [List.length_set, h.length]) ?_ rfl
  · have hperm := free_push (Function.update lists i rest) hi head
    rw [hback] at hperm
    exact (hperm.append_left held).trans List.perm_middle
  · apply threads_set h.length hi
    · rw [Function.update_self]
      exact hrest
    · intro j hj hji
      rw [Function.update_of_ne hji]
      exact h.threads j hj

/-! ## Chunks -/

/-- What `operator new` returns is held. -/
theorem Owns.operatorNew (h : Owns host s held lists) {chunk : ℕ → Option ℕ}
    (hfresh : s.Fresh chunk) {size : ℕ} (hpos : 0 < size) {p : ℕ} (hp : chunk size = some p) :
    ∃ s', s.operatorNew chunk size = some (p, s') ∧ s'.chunks = ⟨p, size⟩ :: s.chunks ∧
      Owns host s' (⟨p, size⟩ :: held) lists := by
  obtain ⟨hstart, hend, hapart⟩ := hfresh size p hp
  have hcall : s.operatorNew chunk size =
      some (p, { s with chunks := ⟨p, size⟩ :: s.chunks }) := by
    rw [MemoryPool.operatorNew, hp]
    rfl
  refine ⟨_, hcall, rfl, ⟨h.length, h.threads, ?_, ?_, ?_, ?_⟩⟩
  · rw [List.cons_append, List.pairwise_cons]
    refine ⟨fun r hr => ?_, h.apart⟩
    obtain ⟨-, c, hc, hwithin⟩ := h.within r hr
    exact (hapart c hc).of_within (.refl _) hwithin
  · intro r hr
    rcases List.mem_cons.mp hr with rfl | hr
    · exact ⟨hpos, _, List.mem_cons_self, .refl _⟩
    · obtain ⟨hlength, c, hc, hwithin⟩ := h.within r hr
      exact ⟨hlength, c, List.mem_cons_of_mem _ hc, hwithin⟩
  · exact List.forall_mem_cons.mpr ⟨⟨hstart, hpos, hend⟩, h.bounds⟩
  · exact List.pairwise_cons.mpr ⟨hapart, h.chunks_apart⟩

theorem Owns.operatorDelete {c : Region} (h : Owns host s (c :: held) lists)
    (hc : c ∈ s.chunks) : Owns host (s.operatorDelete c.start) held lists := by
  obtain ⟨hapart, hrest⟩ := List.pairwise_cons.mp h.apart
  have hother : ∀ d ∈ s.chunks, d ≠ c → d.start ≠ c.start := by
    intro d hd hne heq
    have hdc : d.Apart c := h.chunks_apart.forall hd hc hne
    have hdpos := (h.bounds d hd).2.1
    have hcpos := (h.bounds c hc).2.1
    simp only [Region.Apart] at hdc
    omega
  refine ⟨h.length, h.threads, hrest, fun r hr => ?_, fun d hd => ?_, h.chunks_apart.filter _⟩
  · obtain ⟨hpos, d, hd, hwithin⟩ := h.within r (List.mem_cons_of_mem _ hr)
    have hne : d ≠ c := by
      rintro rfl
      exact Region.not_apart_self hpos ((hapart r hr).of_within hwithin (.refl r))
    exact ⟨hpos, d, List.mem_filter.mpr ⟨hd, by simpa using hother d hd hne⟩, hwithin⟩
  · exact h.bounds d (List.mem_of_mem_filter hd)

theorem Owns.cut {start length n : ℕ} (h : Owns host s (⟨start, n * length⟩ :: held) lists)
    (hpos : 0 < length) : Owns host s (Region.pieces start length n ++ held) lists := by
  obtain ⟨hapart, hrest⟩ := List.pairwise_cons.mp h.apart
  refine ⟨h.length, h.threads, ?_, ?_, h.bounds, h.chunks_apart⟩
  · rw [List.append_assoc, List.pairwise_append]
    refine ⟨Region.pieces_apart .., hrest, fun r hr q hq => ?_⟩
    exact (hapart q hq).of_within (Region.within_of_mem_pieces hr) (.refl q)
  · intro r hr
    rw [List.append_assoc] at hr
    rcases List.mem_append.mp hr with hpiece | hold
    · obtain ⟨-, c, hc, hwithin⟩ := h.within _ List.mem_cons_self
      obtain ⟨i, -, rfl⟩ := List.mem_map.mp hpiece
      exact ⟨hpos, c, hc, (Region.within_of_mem_pieces hpiece).trans hwithin⟩
    · exact h.within r (List.mem_cons_of_mem _ hold)

/-- The loop of `refill` puts the pieces on the free list. -/
theorem Owns.split {chunk : ℕ} (hi : i < 16) (turns : List ℕ) : ∀ {s lists},
    Owns host s (turns.map (fun k => ⟨chunk + k * blockSize i, blockSize i⟩) ++ held) lists →
      ∃ s' lists', turns.foldlM (fun s k => s.push host i (chunk + k * blockSize i)) s = some s' ∧
        s'.chunks = s.chunks ∧ Owns host s' held lists' ∧
        (turns ≠ [] ∨ lists i ≠ [] → lists' i ≠ []) := by
  induction turns with
  | nil => exact fun {s lists} h => ⟨s, lists, rfl, rfl, h, by simp⟩
  | cons k turns ih =>
    intro s lists h
    obtain ⟨s₁, hpush, hchunks₁, h₁⟩ := h.push hi
    obtain ⟨s₂, lists₂, hfold, hchunks₂, h₂, hne⟩ := ih h₁
    refine ⟨s₂, lists₂, ?_, hchunks₂.trans hchunks₁, h₂, fun _ => hne (.inr (by simp))⟩
    rw [List.foldlM_cons, hpush]
    exact hfold

/-! ## Calls -/

/-- `refill` throws, or leaves blocks on the list. -/
theorem Owns.refill (h : Owns host s held lists) {chunk : ℕ → Option ℕ} (hfresh : s.Fresh chunk)
    (hi : i < 16) : s.refill host chunk i = some .thrown ∨
      ∃ s' lists', s.refill host chunk i = some (.done s') ∧ (∀ c ∈ s.chunks, c ∈ s'.chunks) ∧
        Owns host s' held lists' ∧ lists' i ≠ [] := by
  have hpos : 0 < blockSize i := Nat.lt_of_lt_of_le (by decide) (word_le_blockSize i)
  cases hchunk : chunk (blockSize i * 10) with
  | none => exact .inl (by rw [MemoryPool.refill, MemoryPool.operatorNew, hchunk]; rfl)
  | some p =>
    obtain ⟨s₁, hnew, hchunks₁, h₁⟩ := h.operatorNew hfresh (Nat.mul_pos hpos (by decide)) hchunk
    rw [Nat.mul_comm] at h₁
    obtain ⟨s₂, lists₂, hsplit, hchunks₂, h₂, hne⟩ := (h₁.cut hpos).split hi (List.range 10)
    refine .inr ⟨s₂, lists₂, ?_, fun c hc => ?_, h₂, hne (.inl (by decide))⟩
    · rw [MemoryPool.refill, hnew]
      simp only [MemoryPool.split, hsplit, Option.map_some]
    · rw [hchunks₂, hchunks₁]
      exact List.mem_cons_of_mem _ hc

def capacity (size : ℕ) : ℕ :=
  if maxBlock < size then size else blockSize (index size)

theorem le_capacity {size : ℕ} (hpos : 1 ≤ size) : size ≤ capacity size := by
  rw [capacity]
  split
  · exact Nat.le_refl size
  · exact le_blockSize hpos (by omega)

/-- `allocate` throws, or returns a block that is the caller's from then on. -/
theorem Owns.allocate (h : Owns host s held lists) {chunk : ℕ → Option ℕ}
    (hfresh : s.Fresh chunk) {size : ℕ} (hsize : 1 ≤ size) :
    s.allocate host chunk size = some .thrown ∨
      ∃ p s' lists', s.allocate host chunk size = some (.done (p, s')) ∧
        Owns host s' (⟨p, capacity size⟩ :: held) lists' ∧ (∀ c ∈ s.chunks, c ∈ s'.chunks) ∧
        (maxBlock < size → ⟨p, size⟩ ∈ s'.chunks) := by
  by_cases hlarge : maxBlock < size
  · rw [MemoryPool.allocate, if_pos hlarge, capacity, if_pos hlarge]
    cases hchunk : chunk size with
    | none => exact .inl (by rw [MemoryPool.operatorNew, hchunk]; rfl)
    | some p =>
      obtain ⟨s', hnew, hchunks, h'⟩ := h.operatorNew hfresh hsize hchunk
      refine .inr ⟨p, s', lists, by rw [hnew], h', fun c hc => ?_, fun _ => ?_⟩
      · exact hchunks ▸ List.mem_cons_of_mem _ hc
      · exact hchunks ▸ List.mem_cons_self
  · have hi := index_lt hsize (Nat.le_of_not_lt hlarge)
    have hcapacity : capacity size = blockSize (index size) := if_neg hlarge
    obtain ⟨head, hhead, hthreads⟩ := h.threads _ hi
    have hpop : ∀ {s₁ : MemoryPool} {lists₁ : ℕ → List ℕ}, Owns host s₁ held lists₁ →
        lists₁ (index size) ≠ [] → ∃ p s' lists',
          (s₁.pop host (index size)).map Outcome.done = some (.done (p, s')) ∧
          Owns host s' (⟨p, capacity size⟩ :: held) lists' ∧ s'.chunks = s₁.chunks := by
      intro s₁ lists₁ h₁ hne
      obtain ⟨b, rest, s', hcall, hchunks, h'⟩ := h₁.pop hi hne
      exact ⟨b, s', _, by rw [hcall]; rfl, hcapacity.symm ▸ h', hchunks⟩
    rw [MemoryPool.allocate, if_neg hlarge, hhead]
    by_cases hnull : head = 0
    · simp only [hnull, if_true]
      rcases h.refill hfresh hi with hthrown | ⟨s₁, lists₁, hrefill, hkeep, h₁, hne⟩
      · rw [hthrown]
        exact .inl rfl
      · obtain ⟨p, s', lists', hcall, h', hchunks⟩ := hpop h₁ hne
        rw [hrefill]
        exact .inr ⟨p, s', lists', hcall, h', fun c hc => hchunks ▸ hkeep c hc,
          fun hlt => absurd hlt hlarge⟩
    · simp only [hnull, if_false]
      have hne : lists (index size) ≠ [] := by
        intro hnil
        rw [hnil] at hthreads
        exact hnull hthreads
      obtain ⟨p, s', lists', hcall, h', hchunks⟩ := hpop h hne
      exact .inr ⟨p, s', lists', hcall, h', fun c hc => hchunks ▸ hc, fun hlt => absurd hlt hlarge⟩

/-- `deallocate` takes a block back. -/
theorem Owns.deallocate {p size : ℕ} (h : Owns host s (⟨p, capacity size⟩ :: held) lists)
    (hsize : 1 ≤ size) (hlarge : maxBlock < size → ⟨p, size⟩ ∈ s.chunks) :
    ∃ s' lists', s.deallocate host p size = some s' ∧ Owns host s' held lists' ∧
      ∀ c ∈ s.chunks, c.start ≠ p → c ∈ s'.chunks := by
  rw [capacity] at h
  rw [MemoryPool.deallocate]
  by_cases hlt : maxBlock < size
  · rw [if_pos hlt] at h ⊢
    refine ⟨_, lists, rfl, h.operatorDelete (hlarge hlt), fun c hc hne => ?_⟩
    exact List.mem_filter.mpr ⟨hc, by simpa using hne⟩
  · rw [if_neg hlt] at h ⊢
    obtain ⟨s', hpush, hchunks, h'⟩ := h.push (index_lt hsize (Nat.le_of_not_lt hlt))
    exact ⟨s', _, hpush, h', fun c hc _ => hchunks ▸ hc⟩

/-- A write that is not to a free block leaves the free lists as they are. -/
theorem Owns.write (h : Owns host s held lists) {x : ℕ} (hx : ∀ r ∈ free lists, ¬r.Holds x)
    (byte : UInt8) : Owns host { s with memory := Function.update s.memory x byte } held lists := by
  refine h.of_perm (.refl _) h.length (fun i hi => ?_) rfl
  obtain ⟨head, hhead, hthreads⟩ := h.threads i hi
  refine ⟨head, hhead, hthreads.congr fun b hb a ha => ?_⟩
  have hfree : (⟨b, blockSize i⟩ : Region) ∈ free lists := mem_free.mpr ⟨i, hi, b, hb, rfl⟩
  have hword : Region.Within ⟨b, 8⟩ ⟨b, blockSize i⟩ :=
    ⟨Nat.le_refl _, Nat.add_le_add_left (word_le_blockSize i) _⟩
  refine (Function.update_of_ne ?_ byte s.memory).symm
  rintro rfl
  exact hx _ hfree (hword.holds ha)

end MemoryPool

/-! ## Every run -/

namespace PoolUser

open MemoryPool

variable {host : Endian} {s t : PoolUser}

/-- The live blocks with the bytes they have. -/
def blocks (live : List Region) : List Region :=
  live.map fun r => ⟨r.start, capacity r.length⟩

/-- The live blocks are held, and the large ones are chunks. -/
structure Sound (host : Endian) (s : PoolUser) (lists : ℕ → List ℕ) : Prop where
  owns : Owns host s.pool (blocks s.live) lists
  sizes : ∀ r ∈ s.live, 1 ≤ r.length
  large : ∀ r ∈ s.live, maxBlock < r.length → r ∈ s.pool.chunks

theorem Sound.allocate {lists : ℕ → List ℕ} (h : s.Sound host lists) {chunk : ℕ → Option ℕ}
    (hfresh : s.pool.Fresh chunk) {size p : ℕ} (hsize : 1 ≤ size) {pool : MemoryPool}
    (hcall : s.pool.allocate host chunk size = some (.done (p, pool))) :
    ∃ lists', Sound host ⟨pool, ⟨p, size⟩ :: s.live⟩ lists' := by
  rcases h.owns.allocate hfresh hsize with hthrown | ⟨p', s', lists', hdone, howns, hkeep, hchunk⟩
  · rw [hcall] at hthrown
    cases hthrown
  · obtain ⟨rfl, rfl⟩ : p = p' ∧ pool = s' := by simpa [hcall] using hdone
    refine ⟨lists', howns, List.forall_mem_cons.mpr ⟨hsize, h.sizes⟩, ?_⟩
    exact List.forall_mem_cons.mpr ⟨hchunk, fun r hr hlt => hkeep r (h.large r hr hlt)⟩

theorem Sound.deallocate {lists : ℕ → List ℕ} (h : s.Sound host lists) {p size : ℕ}
    (hlive : ⟨p, size⟩ ∈ s.live) : ∃ pool lists',
      s.pool.deallocate host p size = some pool ∧
        Sound host ⟨pool, s.live.erase ⟨p, size⟩⟩ lists' := by
  have hperm := List.perm_cons_erase hlive
  have howns := h.owns.held_perm (hperm.map _)
  have hsize : 1 ≤ size := h.sizes _ hlive
  obtain ⟨pool, lists', hcall, h', hkeep⟩ := howns.deallocate hsize (h.large _ hlive)
  refine ⟨pool, lists', hcall, h', fun r hr => h.sizes r (List.mem_of_mem_erase hr), ?_⟩
  intro r hr hlt
  refine hkeep r (h.large r (List.mem_of_mem_erase hr) hlt) fun hstart => ?_
  -- The other block would start where this one does.
  have hmem : (⟨r.start, capacity r.length⟩ : Region) ∈ blocks (s.live.erase ⟨p, size⟩) :=
    List.mem_map.mpr ⟨r, hr, rfl⟩
  have hapart := (List.pairwise_cons.mp howns.apart).1 _ (List.mem_append_left _ hmem)
  have hpos := le_capacity hsize
  have hpos' := le_capacity (h.sizes r (List.mem_of_mem_erase hr))
  simp only [Region.Apart] at hapart hstart
  omega

theorem Sound.not_free {lists : ℕ → List ℕ} (h : s.Sound host lists) {x : ℕ}
    (hx : s.MayWrite x) : ∀ r ∈ free lists, ¬r.Holds x := by
  intro r hr hholds
  rcases hx with ⟨block, hblock, hin⟩ | hout
  · have hmem : (⟨block.start, capacity block.length⟩ : Region) ∈ blocks s.live :=
      List.mem_map.mpr ⟨block, hblock, rfl⟩
    have hwithin : block.Within ⟨block.start, capacity block.length⟩ :=
      ⟨Nat.le_refl _, Nat.add_le_add_left (le_capacity (h.sizes block hblock)) _⟩
    have hapart := (List.pairwise_append.mp h.owns.apart).2.2 _ hmem r hr
    exact hapart.not_holds (hwithin.holds hin) hholds
  · obtain ⟨-, c, hc, hwithin⟩ := h.owns.within r (List.mem_append_right _ hr)
    exact hout c hc (hwithin.holds hholds)

private theorem sound_of_init (h : (program host).init s) : s.Sound host fun _ => [] := by
  obtain ⟨hlists, hchunks, hlive⟩ := h
  have hfree : free (fun _ => []) = [] := by decide
  refine ⟨⟨?_, fun i hi => ⟨0, ?_, rfl⟩, ?_, ?_, ?_, ?_⟩, ?_, ?_⟩
  · rw [hlists]
    rfl
  · rw [hlists, List.getElem?_replicate]
    exact if_pos hi
  · rw [hlive, hfree]
    exact .nil
  · simp [hlive, hfree, blocks]
  · simp [hchunks]
  · rw [hchunks]
    exact .nil
  · simp [hlive]
  · simp [hlive]

theorem Sound.step {lists : ℕ → List ℕ} (h : s.Sound host lists) (hstep : Step host s t) :
    ∃ lists', t.Sound host lists' := by
  cases hstep with
  | allocate hsize hlt hfresh hcall => exact h.allocate hfresh hsize hcall
  | deallocate hlive hcall =>
    obtain ⟨pool, lists', hcall', h'⟩ := h.deallocate hlive
    obtain rfl := Option.some.inj (hcall.symm.trans hcall')
    exact ⟨lists', h'⟩
  | write hx => exact ⟨lists, h.owns.write (h.not_free hx) _, h.sizes, h.large⟩

private theorem run_sound {states : List PoolUser} (hrun : (program host).Run states) :
    ∀ s ∈ states, ∃ lists, s.Sound host lists :=
  hrun.invariant (fun _ hs => ⟨_, sound_of_init hs⟩) fun _ _ ⟨_, hs⟩ hstep => hs.step hstep

/-- In every state of every run the free lists end, and hold together with the live blocks every
block once: all lie apart and in the chunks, and a live block has the bytes that were asked for.
The next call with a positive size stays in the array. -/
theorem blocks_never_overlap {states : List PoolUser} (hrun : (program host).Run states)
    (hs : s ∈ states) :
    (∃ lists : ℕ → List ℕ,
      (∀ i < 16, ∃ head, s.pool.freeLists[i]? = some head ∧
        ThreadedList host 8 s.pool.memory head (lists i)) ∧
      (blocks s.live ++ free lists).Pairwise Region.Apart ∧
      ((List.range 16).flatMap lists).Nodup ∧
      (∀ r ∈ s.live, r.length ≤ capacity r.length) ∧
      ∀ r ∈ blocks s.live ++ free lists, ∃ c ∈ s.pool.chunks, r.Within c) ∧
    (∀ size, 1 ≤ size → size ≤ maxBlock → index size < 16) ∧
    (∀ chunk, s.pool.Fresh chunk → ∀ size, 1 ≤ size →
      (s.pool.allocate host chunk size).isSome) ∧
    ∀ r ∈ s.live, (s.pool.deallocate host r.start r.length).isSome := by
  obtain ⟨lists, h⟩ := run_sound hrun s hs
  refine ⟨⟨lists, h.owns.threads, h.owns.apart, ?_, fun r hr => le_capacity (h.sizes r hr),
    fun r hr => (h.owns.within r hr).2⟩, fun size => index_lt, ?_, ?_⟩
  · have hstarts : (List.range 16).flatMap lists = (free lists).map Region.start := by
      simp [free, List.map_flatMap, Function.comp_def]
    have hpairwise : (free lists).Pairwise fun r q => r.start ≠ q.start := by
      refine (List.pairwise_append.mp h.owns.apart).2.1.imp_of_mem fun hr hq hapart => ?_
      have hrpos := (h.owns.within _ (List.mem_append_right _ hr)).1
      have hqpos := (h.owns.within _ (List.mem_append_right _ hq)).1
      simp only [Region.Apart] at hapart
      omega
    rw [hstarts]
    exact List.pairwise_map.mpr hpairwise
  · intro chunk hfresh size hsize
    rcases h.owns.allocate hfresh hsize with hthrown | ⟨p, s', lists', hdone, -⟩
    · rw [hthrown]
      rfl
    · rw [hdone]
      rfl
  · intro r hr
    obtain ⟨pool, lists', hcall, -⟩ := h.deallocate hr
    rw [hcall]
    rfl

def emptyPool : MemoryPool :=
  ⟨List.replicate (maxBlock / blockAlign) 0, fun _ => 0, []⟩

def onlyChunk (size : ℕ) : Option ℕ :=
  if size = 80 then some 4096 else none

private theorem first_allocation : ∃ pool, emptyPool.allocate .little onlyChunk 3 =
    some (.done (4168, pool)) :=
  ⟨_, rfl⟩

theorem blocks_never_overlap_first : ∃ (pool : MemoryPool) (lists : ℕ → List ℕ),
    (blocks [⟨4168, 3⟩] ++ free lists).Pairwise Region.Apart ∧
      (pool.deallocate .little 4168 3).isSome := by
  obtain ⟨pool, hcall⟩ := first_allocation
  have hfresh : emptyPool.Fresh onlyChunk := by
    intro size p hp
    obtain ⟨rfl, rfl⟩ : size = 80 ∧ p = 4096 := by simpa [onlyChunk, eq_comm] using hp
    exact ⟨by decide, by decide, by simp [emptyPool]⟩
  have hstart : (program .little).init ⟨emptyPool, []⟩ := ⟨rfl, rfl, rfl⟩
  have hstep : Step .little ⟨emptyPool, []⟩ ⟨pool, [⟨4168, 3⟩]⟩ :=
    .allocate (by decide) (by decide) hfresh hcall
  obtain ⟨⟨lists, -, hapart, -⟩, -, -, hreturn⟩ :=
    blocks_never_overlap ((TransitionSystem.Run.start hstart).next hstep) List.mem_cons_self
  exact ⟨pool, lists, hapart, hreturn _ List.mem_cons_self⟩

end PoolUser

end DarwinCore.Container
