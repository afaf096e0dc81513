import DarwinCore.Library.Counters
import DarwinCore.Library.Threads
import DarwinCore.Model.Network.PoolThreads
import DarwinCore.Verification.Network.ConcurrentQueue

/-! # The threads at a `WorkerPool` do not miss each other

A thread that waits for room in the queue of a worker is woken as soon as there is room, or others
that have been woken take it. A worker of a pool that is running can always go on. -/

namespace DarwinCore.Network

open Counters

/-! ## The queue with the mutex held -/

namespace ConcurrentQueue

variable {α : Type*} {q q' : ConcurrentQueue α} {value : α}

/-- A call has not changed the limit of the queue, nor stopped it. -/
structure SameKind (q q' : ConcurrentQueue α) : Prop where
  maxSize : q'.maxSize = q.maxSize
  isStopped : q'.isStopped = q.isStopped

theorem SameKind.refl (q : ConcurrentQueue α) : q.SameKind q := ⟨rfl, rfl⟩

theorem enqueue_true (h : q.enqueue value = some (true, q')) :
    q.SameKind q' ∧ (q.maxSize = 0 ∨ q.queue.length < q.maxSize) ∧
      q'.queue.length = q.queue.length + 1 := by
  unfold enqueue at h
  split at h
  · cases h
  · rename_i hroom
    split at h
    · cases h
    · rename_i hopen
      obtain ⟨-, rfl⟩ := Prod.mk.inj (Option.some.inj h)
      rw [not_and_not_right] at hroom
      refine ⟨⟨rfl, rfl⟩, ?_, by simp⟩
      rcases Nat.eq_zero_or_pos q.maxSize with hzero | hpos
      · exact .inl hzero
      · exact .inr ((hroom hpos).resolve_right hopen)

theorem enqueue_false (h : q.enqueue value = some (false, q')) :
    q' = q ∧ q.isStopped = true := by
  unfold enqueue at h
  split at h
  · cases h
  · split at h
    · rename_i hstopped
      obtain ⟨-, rfl⟩ := Prod.mk.inj (Option.some.inj h)
      exact ⟨rfl, hstopped⟩
    · cases h

theorem tryDequeue_none (h : q.tryDequeue = (none, q')) : q' = q := by
  unfold tryDequeue at h
  split at h
  · exact (Prod.mk.inj h).2.symm
  · cases h

theorem tryDequeue_some (h : q.tryDequeue = (some value, q')) :
    q.SameKind q' ∧ q.queue.length = q'.queue.length + 1 := by
  unfold tryDequeue at h
  split at h
  · cases h
  · rename_i rest hqueue
    obtain ⟨-, rfl⟩ := Prod.mk.inj h
    exact ⟨⟨rfl, rfl⟩, by simp [hqueue]⟩

theorem waitDequeue_none {timedOut : Bool} (h : q.waitDequeue timedOut = some (none, q')) :
    q' = q := by
  unfold waitDequeue at h
  dsimp only at h
  split at h
  · cases h
  · split at h
    · exact (Prod.mk.inj (Option.some.inj h)).2.symm
    · exact tryDequeue_none (Option.some.inj h)

theorem waitDequeue_some {timedOut : Bool} (h : q.waitDequeue timedOut = some (some value, q')) :
    q.SameKind q' ∧ q.queue.length = q'.queue.length + 1 := by
  unfold waitDequeue at h
  dsimp only at h
  split at h
  · cases h
  · split at h
    · cases h
    · exact tryDequeue_some (Option.some.inj h)

theorem exists_waitDequeue (timedOut : Bool) (hopen : q.isStopped = false) (h : q.queue ≠ []) :
    ∃ value q', q.waitDequeue timedOut = some (some value, q') := by
  cases hqueue : q.queue with
  | nil => exact absurd hqueue h
  | cons value rest => exact ⟨value, _, by simp [waitDequeue, tryDequeue, hopen, hqueue]; rfl⟩

end ConcurrentQueue

/-! ## Places -/

section Place

variable {γ : Type*}

/-- `WorkerLoop` has not left its loop. -/
def WorkerPlace.isLooping : WorkerPlace γ → Bool
  | testing => true
  | waiting _ => true
  | calling _ remaining => !remaining
  | draining => false
  | exited => false

@[simp] theorem WorkerPlace.isLooping_notify (place : WorkerPlace γ) :
    place.notify.isLooping = place.isLooping := by
  unfold notify
  split <;> rfl

end Place

/-! ## Who waits for room -/

section Dispatch

variable {n : ℕ} [NeZero n] {w w' : Fin n} {d : Dispatch}

theorem Dispatch.isBlockedOn_iff :
    d.isBlockedOn w = true ↔ d.phase = .blocked ∧ d.target n = some w := by
  simp [isBlockedOn]

theorem Dispatch.isWokenOn_iff :
    d.isWokenOn w = true ↔ d.phase = .woken ∧ d.target n = some w := by
  simp [isWokenOn]

theorem Dispatch.target_cons (event : NetworkEvent) (rest : List NetworkEvent)
    (phase : SubmitPhase) :
    (⟨event :: rest, phase⟩ : Dispatch).target n = some (event.worker n) := rfl

@[simp] theorem Dispatch.target_wake (d : Dispatch) : d.wake.target n = d.target n := rfl

@[simp] theorem Dispatch.isBlockedOn_wake : d.wake.isBlockedOn w = false := by
  simp [isBlockedOn, wake]

theorem Dispatch.isWokenOn_wake (h : d.isBlockedOn w = true) :
    d.wake.isWokenOn w' = true ↔ w = w' := by
  rw [isBlockedOn_iff] at h
  rw [isWokenOn_iff, target_wake, h.2]
  simp [wake]

end Dispatch

namespace PoolThreads

variable {ι γ : Type*} {n : ℕ} {p p' : PoolThreads ι n γ} {w : Fin n} {i : ι}

@[simp] theorem setDispatch_self [DecidableEq ι] (i : ι) (d : Dispatch) (p : PoolThreads ι n γ) :
    (p.setDispatch i d).dispatches i = d := by
  simp [setDispatch]

/-! ## What a step leaves as it is -/

/-- No step of a thread starts or stops the pool. -/
structure Kept (p p' : PoolThreads ι n γ) : Prop where
  isRunning : p'.isRunning = p.isRunning
  queues : ∀ w, (p.eventQueues w).SameKind (p'.eventQueues w)

theorem kept_of_eq (hrunning : p'.isRunning = p.isRunning)
    (hqueues : p'.eventQueues = p.eventQueues) : Kept p p' :=
  ⟨hrunning, fun w => by rw [hqueues]; exact .refl _⟩

theorem kept_of_update {q : ConcurrentQueue NetworkEvent} (hrunning : p'.isRunning = p.isRunning)
    (hqueues : p'.eventQueues = Function.update p.eventQueues w q)
    (h : (p.eventQueues w).SameKind q) : Kept p p' := by
  refine ⟨hrunning, fun w' => ?_⟩
  rw [hqueues]
  by_cases hw : w' = w
  · subst hw
    rwa [Function.update_self]
  · rw [Function.update_of_ne hw]
    exact .refl _

variable [DecidableEq ι] {Starts : NetworkEvent → γ → Prop} {Finished : γ → Prop}

theorem SpuriousStep.kept (h : p.SpuriousStep p') : Kept p p' := by
  cases h <;> exact kept_of_eq rfl rfl

variable [NeZero n]

theorem DispatchStep.kept (h : p.DispatchStep i p') : Kept p p' := by
  cases h with
  | test _ => exact kept_of_eq rfl rfl
  | wait _ _ _ => exact kept_of_eq rfl rfl
  | @enqueue event rest phase success q _ _ hqueue =>
    refine kept_of_update rfl rfl ?_
    cases success with
    | true => exact (ConcurrentQueue.enqueue_true hqueue).1
    | false =>
      rw [(ConcurrentQueue.enqueue_false hqueue).1]
      exact .refl _
  | notify _ => exact kept_of_eq rfl rfl

theorem WorkerStep.kept (h : p.WorkerStep Starts Finished w p') : Kept p p' := by
  cases h with
  | test _ => exact kept_of_eq rfl rfl
  | wait _ _ _ => exact kept_of_eq rfl rfl
  | timeOut _ => exact kept_of_eq rfl rfl
  | returnEmpty _ _ hqueue =>
    refine kept_of_update rfl rfl ?_
    rw [ConcurrentQueue.waitDequeue_none hqueue]
    exact .refl _
  | take _ _ hqueue _ _ =>
    exact kept_of_update rfl rfl (ConcurrentQueue.waitDequeue_some hqueue).1
  | exit _ hqueue =>
    refine kept_of_update rfl rfl ?_
    rw [ConcurrentQueue.tryDequeue_none hqueue]
    exact .refl _
  | takeRemaining _ hqueue _ _ =>
    exact kept_of_update rfl rfl (ConcurrentQueue.tryDequeue_some hqueue).1
  | ret _ _ => exact kept_of_eq rfl rfl

/-! ## Nobody is forgotten who waits for room -/

section Waiters

variable [Fintype ι]

/-- The room in the queue of `w`, and who waits for it. -/
def waiters (w : Fin n) (p : PoolThreads ι n γ) : Waiters where
  room := (p.eventQueues w).maxSize - (p.eventQueues w).queue.length
  waiting := count (Dispatch.isBlockedOn w) p.dispatches
  woken := count (Dispatch.isWokenOn w) p.dispatches

omit [DecidableEq ι] in
theorem waiters_other (hqueue : p'.eventQueues w = p.eventQueues w)
    (hblocked : ∀ i, (p'.dispatches i).isBlockedOn w = true → (p.dispatches i).isBlockedOn w = true)
    (hwoken : ∀ i, (p.dispatches i).isWokenOn w = true → (p'.dispatches i).isWokenOn w = true) :
    (p.waiters w).Step (p'.waiters w) :=
  .other (by simp [waiters, hqueue]) (count_le hblocked) (count_le hwoken)

theorem waiters_update {d : Dispatch} (hqueue : p'.eventQueues w = p.eventQueues w)
    (hdispatches : p'.dispatches = Function.update p.dispatches i d)
    (hblocked : d.isBlockedOn w = true → (p.dispatches i).isBlockedOn w = true)
    (hwoken : (p.dispatches i).isWokenOn w = true → d.isWokenOn w = true) :
    (p.waiters w).Step (p'.waiters w) := by
  refine waiters_other hqueue (fun j => ?_) fun j => ?_ <;> rw [hdispatches] <;>
    rcases eq_or_ne j i with rfl | hj
  · rwa [Function.update_self]
  · rw [Function.update_of_ne hj]
    exact id
  · rwa [Function.update_self]
  · rw [Function.update_of_ne hj]
    exact id

theorem Dispatch.eq_target {d : Dispatch} {event : NetworkEvent} {rest : List NetworkEvent}
    {phase : SubmitPhase} (h : d = ⟨event :: rest, phase⟩) :
    (d.isBlockedOn w = true → event.worker n = w) ∧
    (d.isWokenOn w = true → event.worker n = w) := by
  subst h
  rw [Dispatch.isBlockedOn_iff, Dispatch.isWokenOn_iff, Dispatch.target_cons]
  simp

theorem DispatchStep.attended (h : p.DispatchStep i p')
    (hopen : (p.eventQueues w).isStopped = false) : (p.waiters w).Step (p'.waiters w) := by
  cases h with
  | @test event rest hd =>
    refine waiters_update rfl rfl ?_ ?_
    · intro hblocked
      cases hrunning : p.isRunning <;> simp [hrunning, Dispatch.isBlockedOn] at hblocked
    · intro hwoken
      simp [hd, Dispatch.isWokenOn] at hwoken
  | @wait event rest phase hd hphase hqueue =>
    obtain ⟨hpos, hfull, -⟩ := ConcurrentQueue.enqueue_waits hqueue
    by_cases hw : event.worker n = w
    · subst hw
      exact .wait (Nat.sub_eq_zero_of_le hfull)
    · refine waiters_update rfl rfl (fun hblocked => ?_) fun hwoken => ?_
      · exact absurd ((Dispatch.eq_target rfl).1 hblocked) hw
      · exact absurd ((Dispatch.eq_target hd).2 hwoken) hw
  | @enqueue event rest phase success q hd hphase hqueue =>
    by_cases hw : event.worker n = w
    · subst hw
      cases success with
      | false =>
        rw [(ConcurrentQueue.enqueue_false hqueue).2] at hopen
        cases hopen
      | true =>
        obtain ⟨⟨hsize, -⟩, hroom, hlength⟩ := ConcurrentQueue.enqueue_true hqueue
        have hblocked := count_update (Dispatch.isBlockedOn (event.worker n)) p.dispatches i
          ⟨event :: rest, .notifying⟩
        have hwoken := count_update (Dispatch.isWokenOn (event.worker n)) p.dispatches i
          ⟨event :: rest, .notifying⟩
        have hone := Bool.toNat_le ((p.dispatches i).isWokenOn (event.worker n))
        have hidle : (⟨event :: rest, .notifying⟩ : Dispatch).isBlockedOn (event.worker n) =
          false := by simp [Dispatch.isBlockedOn]
        have hasleep : (⟨event :: rest, .notifying⟩ : Dispatch).isWokenOn (event.worker n) =
          false := by simp [Dispatch.isWokenOn]
        rw [hidle] at hblocked
        rw [hasleep] at hwoken
        simp only [Bool.toNat_false] at hblocked hwoken
        rcases hroom with hzero | hroom
        · refine .wait ?_
          simp [waiters, setQueue, setDispatch, hsize, hzero]
        · refine .enter ?_ ?_ ?_
          · simp only [waiters, setQueue, setDispatch, Function.update_self]
            omega
          · simp only [waiters, setQueue, setDispatch, if_true]
            omega
          · simp only [waiters, setQueue, setDispatch, if_true]
            omega
    · refine waiters_update (Function.update_of_ne (Ne.symm hw) _ _) rfl (fun hblocked => ?_)
        fun hwoken => ?_
      · cases success <;> simp [Dispatch.isBlockedOn] at hblocked
      · exact absurd ((Dispatch.eq_target hd).2 hwoken) hw
  | @notify event rest hd =>
    refine waiters_update rfl rfl ?_ ?_
    · intro hblocked
      simp [Dispatch.isBlockedOn] at hblocked
    · intro hwoken
      simp [hd, Dispatch.isWokenOn] at hwoken

omit [DecidableEq ι] [Fintype ι] in
theorem Dispatch.not_woken {d : Dispatch} (h : d.isBlockedOn w = true) (w' : Fin n) :
    d.isWokenOn w' = false := by
  simp [Dispatch.isWokenOn, (Dispatch.isBlockedOn_iff.mp h).1]

omit [Fintype ι] in
theorem NotifyNotFull.eq_or {dispatches : ι → Dispatch} (h : p.NotifyNotFull w dispatches) (i : ι) :
    dispatches i = p.dispatches i ∨
      (p.dispatches i).isBlockedOn w = true ∧ dispatches i = (p.dispatches i).wake := by
  unfold NotifyNotFull at h
  split at h
  · exact h.eq_or i
  · exact .inl (by rw [h])

/-- An element has been taken out of the queue of `w`, with a notification for one that waits. -/
theorem NotifyNotFull.attended {dispatches : ι → Dispatch} {q : ConcurrentQueue NetworkEvent}
    (h : p.NotifyNotFull w dispatches) (hkind : (p.eventQueues w).SameKind q)
    (hlength : (p.eventQueues w).queue.length = q.queue.length + 1)
    (hdispatches : p'.dispatches = dispatches)
    (hqueues : p'.eventQueues = Function.update p.eventQueues w q) (w' : Fin n) :
    (p.waiters w').Step (p'.waiters w') := by
  by_cases hw : w' = w
  · subst hw
    have hqueue : p'.eventQueues w' = q := by rw [hqueues, Function.update_self]
    unfold NotifyNotFull at h
    split at h
    · cases h with
      | nobody hnobody hsame =>
        refine .unattended ?_
        have hzero : ¬0 < count (Dispatch.isBlockedOn w') p.dispatches := by
          rw [count_pos_iff]
          rintro ⟨i, hi⟩
          exact hnobody i hi
        simpa [waiters, hdispatches, hsame] using hzero
      | one j hj hwoken =>
        have hcount := count_update (Dispatch.isWokenOn w') p.dispatches j (p.dispatches j).wake
        rw [Dispatch.not_woken hj, (Dispatch.isWokenOn_wake hj).mpr rfl, ← hwoken,
          ← hdispatches] at hcount
        refine .notify ?_ (count_pos_iff.mpr ⟨j, hj⟩) (by simpa [waiters] using hcount)
        simp only [waiters, hqueue, hkind.maxSize]
        omega
    · refine .wait ?_
      simp only [waiters, hqueue, hkind.maxSize]
      omega
  · refine waiters_other (by rw [hqueues, Function.update_of_ne hw]) (fun i hi => ?_) fun i hi => ?_
    · rcases h.eq_or i with hsame | ⟨-, hwoken⟩
      · rwa [hdispatches, hsame] at hi
      · rw [hdispatches, hwoken, Dispatch.isBlockedOn_wake] at hi
        cases hi
    · rcases h.eq_or i with hsame | ⟨hblocked, -⟩
      · rwa [hdispatches, hsame]
      · rw [Dispatch.not_woken hblocked] at hi
        cases hi

theorem WorkerStep.attended (h : p.WorkerStep Starts Finished w p') (w' : Fin n) :
    (p.waiters w').Step (p'.waiters w') := by
  have hstill (hdispatches : p'.dispatches = p.dispatches)
      (hqueue : p'.eventQueues w' = p.eventQueues w') : (p.waiters w').Step (p'.waiters w') :=
    waiters_other hqueue (fun i => by rw [hdispatches]; exact id) fun i => by
      rw [hdispatches]
      exact id
  cases h with
  | test _ => exact hstill rfl rfl
  | wait _ _ _ => exact hstill rfl rfl
  | timeOut _ => exact hstill rfl rfl
  | returnEmpty _ _ hqueue =>
    rw [ConcurrentQueue.waitDequeue_none hqueue] at hstill ⊢
    exact hstill rfl (congrFun (Function.update_eq_self w p.eventQueues) w')
  | take _ _ hqueue _ hnotify =>
    obtain ⟨hkind, hlength⟩ := ConcurrentQueue.waitDequeue_some hqueue
    exact hnotify.attended hkind hlength rfl rfl w'
  | exit _ hqueue =>
    rw [ConcurrentQueue.tryDequeue_none hqueue] at hstill ⊢
    exact hstill rfl (congrFun (Function.update_eq_self w p.eventQueues) w')
  | takeRemaining _ hqueue _ hnotify =>
    obtain ⟨hkind, hlength⟩ := ConcurrentQueue.tryDequeue_some hqueue
    exact hnotify.attended hkind hlength rfl rfl w'
  | ret _ _ => exact hstill rfl rfl

theorem SpuriousStep.attended (h : p.SpuriousStep p') (w : Fin n) :
    (p.waiters w).Step (p'.waiters w) := by
  cases h with
  | @dispatch i hblocked =>
    refine waiters_update rfl rfl (fun hd => ?_) fun hd => ?_
    · rw [Dispatch.isBlockedOn_wake] at hd
      cases hd
    · rw [Dispatch.isWokenOn_iff, hblocked] at hd
      cases hd.1
  | worker _ => exact waiters_other rfl (fun _ => id) fun _ => id

/-! ## What always holds -/

/-- Nobody is forgotten, a thread without an event is not in `SubmitEvent`, and while the pool
runs, so do its workers. -/
structure Sound (p : PoolThreads ι n γ) : Prop where
  attended : ∀ w, (p.eventQueues w).isStopped = false → (p.waiters w).Attended
  limited : ∀ i w, (p.dispatches i).isBlockedOn w = true → 0 < (p.eventQueues w).maxSize
  idle : ∀ i, (p.dispatches i).events = [] → (p.dispatches i).phase = .testing
  looping : p.isRunning = true →
    ∀ w, (p.eventQueues w).isStopped = false ∧ (p.workers w).isLooping = true

omit [DecidableEq ι] in
theorem Sound.start (maxQueueSize : ℕ) :
    ({ eventQueues := fun _ => { maxSize := maxQueueSize } } : PoolThreads ι n γ).Sound where
  attended w _ hwaiting := by
    obtain ⟨i, hi⟩ := count_pos_iff.mp hwaiting
    simp [Dispatch.isBlockedOn] at hi
  limited i w hi := by simp [Dispatch.isBlockedOn] at hi
  idle _ _ := rfl
  looping _ _ := ⟨rfl, rfl⟩

omit [DecidableEq ι] in
/-- A step that keeps the queues open and closed as they are. -/
theorem Sound.of_kept (h : p.Sound) (hkept : Kept p p')
    (hattended : ∀ w, (p.eventQueues w).isStopped = false → (p.waiters w).Step (p'.waiters w))
    (hlimited : ∀ i w, (p'.dispatches i).isBlockedOn w = true →
      (p.dispatches i).isBlockedOn w = true ∨ 0 < (p.eventQueues w).maxSize)
    (hidle : ∀ i, (p'.dispatches i).events = [] → (p'.dispatches i).phase = .testing)
    (hlooping : p.isRunning = true → ∀ w, (p.workers w).isLooping = true →
      (p'.workers w).isLooping = true) : p'.Sound where
  attended w hopen := by
    rw [(hkept.queues w).isStopped] at hopen
    exact (hattended w hopen).attended (h.attended w hopen)
  limited i w hi := by
    rw [(hkept.queues w).maxSize]
    exact (hlimited i w hi).elim (h.limited i w) id
  idle := hidle
  looping hrunning w := by
    rw [hkept.isRunning] at hrunning
    obtain ⟨hopen, hloops⟩ := h.looping hrunning w
    exact ⟨(hkept.queues w).isStopped.trans hopen, hlooping hrunning w hloops⟩

omit [DecidableEq ι] [Fintype ι] [NeZero n] in
theorem isLooping_update {place : WorkerPlace γ} (h : place.isLooping = true) (w' : Fin n)
    (hold : (p.workers w').isLooping = true) :
    (Function.update p.workers w place w').isLooping = true := by
  by_cases hw : w' = w
  · subst hw
    rwa [Function.update_self]
  · rwa [Function.update_of_ne hw]

omit [Fintype ι] [NeZero n] in
theorem idle_update {d : Dispatch} (h : ∀ i, (p.dispatches i).events = [] →
      (p.dispatches i).phase = .testing) (hd : d.events = [] → d.phase = .testing) (j : ι) :
    (Function.update p.dispatches i d j).events = [] →
      (Function.update p.dispatches i d j).phase = .testing := by
  by_cases hj : j = i
  · subst hj
    rwa [Function.update_self]
  · rw [Function.update_of_ne hj]
    exact h j

omit [Fintype ι] in
theorem limited_update {d : Dispatch} (h : ∀ w, d.isBlockedOn w = true →
      0 < (p.eventQueues w).maxSize) (j : ι) (w : Fin n)
    (hj : (Function.update p.dispatches i d j).isBlockedOn w = true) :
    (p.dispatches j).isBlockedOn w = true ∨ 0 < (p.eventQueues w).maxSize := by
  by_cases hij : j = i
  · subst hij
    rw [Function.update_self] at hj
    exact .inr (h w hj)
  · rw [Function.update_of_ne hij] at hj
    exact .inl hj

theorem DispatchStep.sound (hstep : p.DispatchStep i p') (h : p.Sound) : p'.Sound := by
  refine h.of_kept hstep.kept (fun w hopen => hstep.attended hopen) ?_ ?_ ?_
  · cases hstep with
    | test _ =>
      refine limited_update (p := p) fun w hw => ?_
      split at hw <;> simp [Dispatch.isBlockedOn] at hw
    | @wait event rest _ _ _ hqueue =>
      refine limited_update (p := p) fun w hw => ?_
      have htarget : event.worker n = w := (Dispatch.eq_target rfl).1 hw
      subst htarget
      exact (ConcurrentQueue.enqueue_waits hqueue).1
    | enqueue _ _ _ =>
      refine limited_update (p := p) fun w hw => ?_
      split at hw <;> simp [Dispatch.isBlockedOn] at hw
    | notify _ =>
      refine limited_update (p := p) fun w hw => ?_
      simp [Dispatch.isBlockedOn] at hw
  · cases hstep with
    | test _ =>
      refine idle_update h.idle ?_
      split <;> simp
    | wait _ _ _ => exact idle_update h.idle (by simp)
    | enqueue _ _ _ =>
      refine idle_update h.idle ?_
      split <;> simp
    | notify _ => exact idle_update h.idle (by simp)
  · intro _ w hloops
    cases hstep with
    | test _ => exact hloops
    | wait _ _ _ => exact hloops
    | enqueue _ _ _ => exact hloops
    | @notify event rest _ =>
      by_cases hw : w = event.worker n
      · subst hw
        simpa [setDispatch, setWorker] using hloops
      · simpa [setDispatch, setWorker, Function.update_of_ne hw] using hloops

omit [Fintype ι] in
theorem NotifyNotFull.idle {dispatches : ι → Dispatch} (hnotify : p.NotifyNotFull w dispatches)
    (h : ∀ i, (p.dispatches i).events = [] → (p.dispatches i).phase = .testing) (i : ι)
    (hevents : (dispatches i).events = []) : (dispatches i).phase = .testing := by
  rcases hnotify.eq_or i with hsame | ⟨hblocked, hwoken⟩
  · rw [hsame] at hevents ⊢
    exact h i hevents
  · rw [hwoken] at hevents
    have hphase := h i hevents
    rw [(Dispatch.isBlockedOn_iff.mp hblocked).1] at hphase
    cases hphase

omit [Fintype ι] in
theorem NotifyNotFull.blocked {dispatches : ι → Dispatch} (hnotify : p.NotifyNotFull w dispatches)
    {w' : Fin n} (hblocked : (dispatches i).isBlockedOn w' = true) :
    (p.dispatches i).isBlockedOn w' = true := by
  rcases hnotify.eq_or i with hsame | ⟨-, hwoken⟩
  · rwa [hsame] at hblocked
  · rw [hwoken, Dispatch.isBlockedOn_wake] at hblocked
    cases hblocked

theorem WorkerStep.sound (hstep : p.WorkerStep Starts Finished w p') (h : p.Sound) : p'.Sound := by
  refine h.of_kept hstep.kept (fun w' _ => hstep.attended w') ?_ ?_ ?_
  · intro i w' hblocked
    cases hstep with
    | take _ _ _ _ hnotify => exact .inl (hnotify.blocked hblocked)
    | takeRemaining _ _ _ hnotify => exact .inl (hnotify.blocked hblocked)
    | _ => exact .inl hblocked
  · cases hstep with
    | take _ _ _ _ hnotify => exact hnotify.idle h.idle
    | takeRemaining _ _ _ hnotify => exact hnotify.idle h.idle
    | _ => exact h.idle
  · intro hrunning w' hloops
    have hloopsw := (h.looping hrunning w).2
    cases hstep with
    | test _ =>
      refine isLooping_update ?_ w' hloops
      simp [hrunning, WorkerPlace.isLooping]
    | wait _ _ _ => exact isLooping_update rfl w' hloops
    | timeOut _ => exact isLooping_update rfl w' hloops
    | returnEmpty _ _ _ => exact isLooping_update rfl w' hloops
    | take _ _ _ _ _ => exact isLooping_update rfl w' hloops
    | exit hplace _ =>
      rw [hplace] at hloopsw
      cases hloopsw
    | takeRemaining hplace _ _ _ =>
      rw [hplace] at hloopsw
      cases hloopsw
    | @ret callback remaining hplace _ =>
      rw [hplace] at hloopsw
      refine isLooping_update ?_ w' hloops
      cases remaining with
      | false => rfl
      | true => cases hloopsw

theorem SpuriousStep.sound (hstep : p.SpuriousStep p') (h : p.Sound) : p'.Sound := by
  refine h.of_kept hstep.kept (fun w _ => hstep.attended w) ?_ ?_ ?_
  · cases hstep with
    | dispatch _ =>
      refine limited_update (p := p) fun w hw => ?_
      rw [Dispatch.isBlockedOn_wake] at hw
      cases hw
    | worker _ => exact fun _ _ => .inl
  · cases hstep with
    | @dispatch i hblocked =>
      refine idle_update h.idle fun hevents => ?_
      rw [h.idle i hevents] at hblocked
      cases hblocked
    | worker _ => exact h.idle
  · intro _ w hloops
    cases hstep with
    | dispatch _ => exact hloops
    | worker _ => exact isLooping_update rfl w hloops

/-! ## Stopping, dispatching and calling -/

omit [DecidableEq ι] in
theorem Sound.stop (h : p.Sound) : ({ p with isRunning := false } : PoolThreads ι n γ).Sound :=
  ⟨h.attended, h.limited, h.idle, by simp⟩

omit [DecidableEq ι] in
theorem Sound.stopQueue (h : p.Sound) (hstopped : p.isRunning = false) (w : Fin n) :
    (p.stopQueue w).Sound := by
  refine ⟨fun w' hopen => ?_, fun i w' hblocked => ?_, h.idle, fun hrunning => ?_⟩
  · by_cases hw : w' = w
    · subst hw
      simp [PoolThreads.stopQueue, setQueue, ConcurrentQueue.notifyStop] at hopen
    · simp only [PoolThreads.stopQueue, setQueue, Function.update_of_ne hw] at hopen
      have hstep : (p.waiters w').Step ((p.stopQueue w).waiters w') :=
        waiters_other (Function.update_of_ne hw _ _) (fun _ => id) fun _ => id
      exact hstep.attended (h.attended w' hopen)
  · have hpos := h.limited i w' hblocked
    by_cases hw : w' = w
    · subst hw
      simpa [PoolThreads.stopQueue, setQueue, ConcurrentQueue.notifyStop] using hpos
    · simpa [PoolThreads.stopQueue, setQueue, Function.update_of_ne hw] using hpos
  · cases hstopped.symm.trans hrunning

omit [DecidableEq ι] in
theorem Sound.notifyNotEmpty (h : p.Sound) (w : Fin n) : (p.notifyNotEmpty w).Sound := by
  refine ⟨h.attended, h.limited, h.idle, fun hrunning w' => ?_⟩
  obtain ⟨hopen, hloops⟩ := h.looping hrunning w'
  refine ⟨hopen, ?_⟩
  by_cases hw : w' = w
  · subst hw
    simpa [PoolThreads.notifyNotEmpty, setWorker] using hloops
  · simpa [PoolThreads.notifyNotEmpty, setWorker, Function.update_of_ne hw] using hloops

omit [DecidableEq ι] in
theorem Sound.notifyNotFull (h : p.Sound) (w : Fin n) : (p.notifyNotFull w).Sound := by
  have hor (i : ι) : (p.notifyNotFull w).dispatches i = p.dispatches i ∨
      (p.dispatches i).isBlockedOn w = true ∧
        (p.notifyNotFull w).dispatches i = (p.dispatches i).wake := by
    by_cases hi : (p.dispatches i).isBlockedOn w = true <;> simp [PoolThreads.notifyNotFull, hi]
  have hblocked {i : ι} {w' : Fin n}
      (hi : ((p.notifyNotFull w).dispatches i).isBlockedOn w' = true) :
      (p.dispatches i).isBlockedOn w' = true := by
    rcases hor i with hsame | ⟨-, hwoken⟩
    · rwa [hsame] at hi
    · rw [hwoken, Dispatch.isBlockedOn_wake] at hi
      cases hi
  refine ⟨fun w' hopen => ?_, fun i w' hi => h.limited i w' (hblocked hi), fun i hi => ?_,
    h.looping⟩
  · have hstep : (p.waiters w').Step ((p.notifyNotFull w).waiters w') := by
      refine waiters_other rfl (fun i => hblocked) fun i hi => ?_
      rcases hor i with hsame | ⟨hwaits, -⟩
      · rwa [hsame]
      · rw [Dispatch.not_woken hwaits] at hi
        cases hi
    exact hstep.attended (h.attended w' hopen)
  · rcases hor i with hsame | ⟨hwaits, hwoken⟩
    · rw [hsame] at hi ⊢
      exact h.idle i hi
    · rw [hwoken] at hi
      have hphase := h.idle i hi
      rw [(Dispatch.isBlockedOn_iff.mp hwaits).1] at hphase
      cases hphase

theorem Sound.begin (h : p.Sound) (hidle : (p.dispatches i).events = [])
    (events : List NetworkEvent) : (p.setDispatch i { events := events }).Sound := by
  refine h.of_kept (kept_of_eq rfl rfl) (fun w _ => ?_) ?_ ?_ fun _ _ => id
  · refine waiters_update rfl rfl (by simp [Dispatch.isBlockedOn]) fun hwoken => ?_
    rw [Dispatch.isWokenOn_iff, h.idle i hidle] at hwoken
    cases hwoken.1
  · exact limited_update (by simp [Dispatch.isBlockedOn])
  · exact idle_update h.idle (by simp)

omit [DecidableEq ι] in
theorem Sound.call (h : p.Sound) {callback callback' : γ} {remaining : Bool}
    (hplace : p.workers w = .calling callback remaining) :
    (p.setWorker w (.calling callback' remaining)).Sound := by
  refine h.of_kept (kept_of_eq rfl rfl) (fun _ _ => waiters_other rfl (fun _ => id) fun _ => id)
    (fun _ _ => .inl) h.idle fun hrunning w' hloops => ?_
  refine isLooping_update ?_ w' hloops
  have hloopsw := (h.looping hrunning w).2
  rwa [hplace] at hloopsw

/-! ## Who can go on -/

omit [DecidableEq ι] in
/-- A thread that waits for room finds the queue full, or another one has been woken to take it. -/
theorem Sound.served (h : p.Sound) (hopen : (p.eventQueues w).isStopped = false)
    (hblocked : (p.dispatches i).isBlockedOn w = true) :
    (p.eventQueues w).maxSize ≤ (p.eventQueues w).queue.length ∨
      ∃ j, (p.dispatches j).isWokenOn w = true := by
  have hroom := h.attended w hopen (count_pos_iff.mpr ⟨i, hblocked⟩)
  rcases Nat.eq_zero_or_pos (p.waiters w).woken with hzero | hpos
  · left
    rw [hzero] at hroom
    exact Nat.le_of_sub_eq_zero (Nat.le_zero.mp hroom)
  · exact .inr (count_pos_iff.mp hpos)

omit [Fintype ι] in
theorem exists_notifyNotFull (w : Fin n) (p : PoolThreads ι n γ) :
    ∃ dispatches, p.NotifyNotFull w dispatches := by
  unfold NotifyNotFull
  split
  · by_cases hsome : ∃ i, (p.dispatches i).isBlockedOn w = true
    · obtain ⟨i, hi⟩ := hsome
      exact ⟨_, .one i hi rfl⟩
    · exact ⟨_, .nobody (fun i hi => hsome ⟨i, hi⟩) rfl⟩
  · exact ⟨_, rfl⟩

omit [Fintype ι] in
/-- A thread that is in `SubmitEvent` goes on unless it waits for room. -/
theorem exists_dispatchStep {event : NetworkEvent} {rest : List NetworkEvent} {phase : SubmitPhase}
    (h : p.dispatches i = ⟨event :: rest, phase⟩) (hphase : phase ≠ .blocked) :
    ∃ p', p.DispatchStep i p' := by
  have hlocks (hphase : phase.locks = true) : ∃ p', p.DispatchStep i p' := by
    cases hqueue : (p.eventQueues (event.worker n)).enqueue event with
    | none => exact ⟨_, .wait h hphase hqueue⟩
    | some result => exact ⟨_, .enqueue h hphase hqueue⟩
  cases phase with
  | testing => exact ⟨_, .test h⟩
  | entering => exact hlocks rfl
  | blocked => exact absurd rfl hphase
  | woken => exact hlocks rfl
  | notifying => exact ⟨_, .notify h⟩

omit [Fintype ι] in
/-- A worker that has not exited goes on unless its callback has still something to do. -/
theorem exists_workerStep (hstarts : ∀ event, ∃ callback, Starts event callback)
    (hexited : p.workers w ≠ .exited)
    (hcalling : ∀ callback remaining, p.workers w = .calling callback remaining →
      Finished callback) : ∃ p', p.WorkerStep Starts Finished w p' := by
  obtain ⟨dispatches, hnotify⟩ := exists_notifyNotFull w p
  have hlocks (phase : DequeuePhase) (timedOut : Bool) (hphase : phase.locks timedOut)
      (h : p.workers w = .waiting phase) : ∃ p', p.WorkerStep Starts Finished w p' := by
    rcases hqueue : (p.eventQueues w).waitDequeue timedOut with _ | ⟨_ | event, q⟩
    · exact ⟨_, .wait h hphase hqueue⟩
    · exact ⟨_, .returnEmpty h hphase hqueue⟩
    · obtain ⟨callback, hcallback⟩ := hstarts event
      exact ⟨_, .take h hphase hqueue hcallback hnotify⟩
  cases hplace : p.workers w with
  | testing => exact ⟨_, .test hplace⟩
  | waiting phase =>
    cases phase with
    | entering => exact hlocks .entering false rfl hplace
    | blocked => exact ⟨_, .timeOut hplace⟩
    | woken timedOut => exact hlocks (.woken timedOut) timedOut rfl hplace
  | calling callback remaining => exact ⟨_, .ret hplace (hcalling callback remaining hplace)⟩
  | draining =>
    rcases hqueue : (p.eventQueues w).tryDequeue with ⟨_ | event, q⟩
    · exact ⟨_, .exit hplace hqueue⟩
    · obtain ⟨callback, hcallback⟩ := hstarts event
      exact ⟨_, .takeRemaining hplace hqueue hcallback hnotify⟩
  | exited => exact absurd hplace hexited

omit [Fintype ι] in
theorem exists_take (hstarts : ∀ event, ∃ callback, Starts event callback)
    (hopen : (p.eventQueues w).isStopped = false) (hqueue : (p.eventQueues w).queue ≠ [])
    {phase : DequeuePhase} {timedOut : Bool} (hphase : phase.locks timedOut)
    (h : p.workers w = .waiting phase) :
    ∃ p', p.WorkerStep Starts Finished w p' ∧
      (p'.eventQueues w).queue.length < (p.eventQueues w).queue.length := by
  obtain ⟨event, q, hwait⟩ := ConcurrentQueue.exists_waitDequeue timedOut hopen hqueue
  obtain ⟨dispatches, hnotify⟩ := exists_notifyNotFull w p
  obtain ⟨callback, hcallback⟩ := hstarts event
  refine ⟨_, .take h hphase hwait hcallback hnotify, ?_⟩
  have hlength := (ConcurrentQueue.waitDequeue_some hwait).2
  simp only [setWorker, setQueue, Function.update_self]
  omega

omit [Fintype ι] in
/-- By itself, a worker that is in its loop takes an element out of its queue. -/
theorem exists_takes (hstarts : ∀ event, ∃ callback, Starts event callback)
    (hrunning : p.isRunning = true) (hopen : (p.eventQueues w).isStopped = false)
    (hqueue : (p.eventQueues w).queue ≠ []) (hloops : (p.workers w).isLooping = true)
    (hcalling : ∀ callback remaining, p.workers w ≠ .calling callback remaining) :
    ∃ p', Relation.ReflTransGen (fun p p' => p.WorkerStep Starts Finished w p') p p' ∧
      (p'.eventQueues w).queue.length < (p.eventQueues w).queue.length := by
  have hlocked (p₀ : PoolThreads ι n γ) (phase : DequeuePhase) (timedOut : Bool)
      (hphase : phase.locks timedOut) (hqueues : p₀.eventQueues = p.eventQueues)
      (h : p₀.workers w = .waiting phase) : ∃ p', p₀.WorkerStep Starts Finished w p' ∧
        (p'.eventQueues w).queue.length < (p.eventQueues w).queue.length := by
    rw [← hqueues] at hopen hqueue ⊢
    exact exists_take hstarts hopen hqueue hphase h
  cases hplace : p.workers w with
  | testing =>
    have htest : p.WorkerStep Starts Finished w (p.setWorker w (.waiting .entering)) := by
      have hstep : p.WorkerStep Starts Finished w _ := .test hplace
      rwa [if_pos hrunning] at hstep
    obtain ⟨p', htake, hlt⟩ := hlocked (p.setWorker w (.waiting .entering)) .entering false rfl
      rfl (Function.update_self w _ _)
    exact ⟨p', .tail (.single htest) htake, hlt⟩
  | waiting phase =>
    cases phase with
    | entering =>
      obtain ⟨p', htake, hlt⟩ := hlocked p .entering false rfl rfl hplace
      exact ⟨p', .single htake, hlt⟩
    | blocked =>
      obtain ⟨p', htake, hlt⟩ := hlocked (p.setWorker w (.waiting (.woken true)))
        (.woken true) true rfl rfl (Function.update_self w _ _)
      exact ⟨p', .tail (.single (.timeOut hplace)) htake, hlt⟩
    | woken timedOut =>
      obtain ⟨p', htake, hlt⟩ := hlocked p (.woken timedOut) timedOut rfl rfl hplace
      exact ⟨p', .single htake, hlt⟩
  | calling callback remaining => exact absurd hplace (hcalling callback remaining)
  | draining =>
    rw [hplace] at hloops
    cases hloops
  | exited =>
    rw [hplace] at hloops
    cases hloops

/-! ## What has come to its end -/

/-- A thread that has nothing to submit does not get an event, and no worker comes back. -/
structure Settled (p p' : PoolThreads ι n γ) : Prop where
  quiet : ∀ i, (p.dispatches i).events = [] → (p'.dispatches i).events = []
  exited : ∀ w, p.workers w = .exited → p'.workers w = .exited

omit [DecidableEq ι] [Fintype ι] [NeZero n] in
theorem exited_update {place : WorkerPlace γ} (h : p.workers w ≠ .exited) (w' : Fin n)
    (hexited : p.workers w' = .exited) : Function.update p.workers w place w' = .exited := by
  by_cases hw : w' = w
  · subst hw
    exact absurd hexited h
  · rwa [Function.update_of_ne hw]

omit [Fintype ι] [NeZero n] in
theorem quiet_update {d : Dispatch} (h : (p.dispatches i).events ≠ []) (j : ι)
    (hquiet : (p.dispatches j).events = []) : (Function.update p.dispatches i d j).events = [] := by
  by_cases hj : j = i
  · subst hj
    exact absurd hquiet h
  · rwa [Function.update_of_ne hj]

omit [DecidableEq ι] [Fintype ι] [NeZero n] in
theorem exited_notify (w w' : Fin n) (h : p.workers w' = .exited) :
    Function.update p.workers w (p.workers w).notify w' = .exited := by
  by_cases hw : w' = w
  · subst hw
    rw [Function.update_self, h]
    rfl
  · rwa [Function.update_of_ne hw]

omit [Fintype ι] in
theorem DispatchStep.settled (h : p.DispatchStep i p') :
    (p.dispatches i).events ≠ [] ∧ Settled p p' := by
  cases h with
  | test hd => exact ⟨by simp [hd], quiet_update (by simp [hd]), fun _ => id⟩
  | wait hd _ _ => exact ⟨by simp [hd], quiet_update (by simp [hd]), fun _ => id⟩
  | enqueue hd _ _ => exact ⟨by simp [hd], quiet_update (by simp [hd]), fun _ => id⟩
  | notify hd => exact ⟨by simp [hd], quiet_update (by simp [hd]), exited_notify _⟩

omit [Fintype ι] in
theorem NotifyNotFull.quiet {dispatches : ι → Dispatch} (hnotify : p.NotifyNotFull w dispatches)
    (i : ι) (h : (p.dispatches i).events = []) : (dispatches i).events = [] := by
  rcases hnotify.eq_or i with hsame | ⟨-, hwoken⟩
  · rwa [hsame]
  · rwa [hwoken]

omit [Fintype ι] in
theorem WorkerStep.settled (h : p.WorkerStep Starts Finished w p') :
    p.workers w ≠ .exited ∧ Settled p p' := by
  have hplace : p.workers w ≠ .exited := by
    cases h <;> simp [*]
  refine ⟨hplace, ?_, ?_⟩
  · cases h with
    | take _ _ _ _ hnotify => exact hnotify.quiet
    | takeRemaining _ _ _ hnotify => exact hnotify.quiet
    | _ => exact fun _ => id
  · cases h <;> exact exited_update hplace

omit [Fintype ι] [NeZero n] in
theorem SpuriousStep.settled (h : p.SpuriousStep p') : Settled p p' := by
  cases h with
  | @dispatch i _ =>
    refine ⟨fun j hj => ?_, fun _ => id⟩
    by_cases hij : j = i
    · subst hij
      simpa [setDispatch, Dispatch.wake] using hj
    · simpa [setDispatch, Function.update_of_ne hij] using hj
  | worker hplace => exact ⟨fun _ => id, exited_update (by simp [hplace])⟩

/-! ## What all callbacks have in common -/

def EveryCallback (P : γ → Prop) (p : PoolThreads ι n γ) : Prop :=
  ∀ w callback remaining, p.workers w = .calling callback remaining → P callback

section EveryCallback

variable {P : γ → Prop}

omit [DecidableEq ι] [Fintype ι] [NeZero n] in
theorem EveryCallback.setWorker (h : p.EveryCallback P) {place : WorkerPlace γ}
    (hplace : ∀ callback remaining, place = .calling callback remaining → P callback) :
    (p.setWorker w place).EveryCallback P := by
  intro w' callback remaining hcalling
  simp only [PoolThreads.setWorker] at hcalling
  by_cases hw : w' = w
  · subst hw
    rw [Function.update_self] at hcalling
    exact hplace callback remaining hcalling
  · rw [Function.update_of_ne hw] at hcalling
    exact h w' callback remaining hcalling

omit [DecidableEq ι] [Fintype ι] [NeZero n] in
theorem EveryCallback.notify (h : p.EveryCallback P) :
    (p.setWorker w (p.workers w).notify).EveryCallback P := by
  refine h.setWorker fun callback remaining hnotify => h w callback remaining ?_
  revert hnotify
  unfold WorkerPlace.notify
  split <;> simp

omit [Fintype ι] in
theorem DispatchStep.everyCallback (hstep : p.DispatchStep i p') (h : p.EveryCallback P) :
    p'.EveryCallback P := by
  cases hstep with
  | notify _ => exact h.notify
  | _ => exact h

omit [Fintype ι] in
theorem WorkerStep.everyCallback (hstep : p.WorkerStep Starts Finished w p')
    (hstarts : ∀ event callback, Starts event callback → P callback) (h : p.EveryCallback P) :
    p'.EveryCallback P := by
  cases hstep with
  | test _ => exact h.setWorker fun _ _ hplace => by split at hplace <;> cases hplace
  | ret _ _ => exact h.setWorker fun _ _ hplace => by split at hplace <;> cases hplace
  | take _ _ _ hstart _ =>
    refine EveryCallback.setWorker h fun _ _ hplace => ?_
    cases hplace
    exact hstarts _ _ hstart
  | takeRemaining _ _ hstart _ =>
    refine EveryCallback.setWorker h fun _ _ hplace => ?_
    cases hplace
    exact hstarts _ _ hstart
  | _ => exact EveryCallback.setWorker h (by simp)

omit [Fintype ι] [NeZero n] in
theorem SpuriousStep.everyCallback (hstep : p.SpuriousStep p') (h : p.EveryCallback P) :
    p'.EveryCallback P := by
  cases hstep with
  | dispatch _ => exact h
  | worker _ => exact h.setWorker (by simp)

end EveryCallback

end Waiters

end PoolThreads

end DarwinCore.Network
