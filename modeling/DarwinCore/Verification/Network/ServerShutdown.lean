import DarwinCore.Model.Network.ServerShutdown
import DarwinCore.Verification.Network.PoolThreads

/-! # Where `Server::Stop` does not deadlock

A thread of the server only waits for one of lower rank: `Stop` for the thread that it joins, a
reactor for room in the queue of a worker. The workers run until the last reactor has come to its
end, so that they can take what the reactors have submitted, and the operations that callbacks hand
to the reactors always find room; this goes for callbacks that have left the reactors when these are
destroyed. -/

namespace DarwinCore.Network

open Relation

/-! ## How far `Stop` is -/

namespace StopPlace

/-- How many of `a` acceptors have been joined. -/
def acceptorsJoined (a : ℕ) : StopPlace → ℕ
  | starting => 0
  | started => 0
  | stoppingAcceptor i => i
  | joiningAcceptor i => i
  | _ => a

/-- How many of `r` reactors have been joined. -/
def reactorsJoined (r : ℕ) : StopPlace → ℕ
  | starting => 0
  | started => 0
  | stoppingAcceptor _ => 0
  | joiningAcceptor _ => 0
  | stoppingReactor i => i
  | notifyingReactor i => i
  | joiningReactor i => i
  | _ => r

/-- How many of `n` workers have been joined. -/
def workersJoined (n : ℕ) : StopPlace → ℕ
  | joiningWorker w => w
  | storing => n
  | returned => n
  | _ => 0

def poolStopped : StopPlace → Bool
  | stoppingQueue _ => true
  | notifyingNotEmpty _ => true
  | notifyingNotFull _ => true
  | joiningWorker _ => true
  | storing => true
  | returned => true
  | _ => false

/-- Its numbers are those of `a` acceptors, `r` reactors and `n` workers. -/
def InRange (a r n : ℕ) : StopPlace → Prop
  | stoppingAcceptor i => i ≤ a
  | joiningAcceptor i => i < a
  | stoppingReactor i => i ≤ r
  | notifyingReactor i => i < r
  | joiningReactor i => i < r
  | stoppingQueue w => w ≤ n
  | notifyingNotEmpty w => w < n
  | notifyingNotFull w => w < n
  | joiningWorker w => w ≤ n
  | _ => True

theorem reactorsJoined_of_poolStopped {place : StopPlace} (r : ℕ) (h : place.poolStopped = true) :
    place.reactorsJoined r = r := by
  cases place <;> first | rfl | cases h

end StopPlace

/-- A turn of the event loop starts within the loop, and the last one dispatches nothing. -/
theorem ReactorThread.Turn.loop {t t' : ReactorThread} {events : List NetworkEvent}
    (h : t.Turn t' events) :
    t.loop ≠ .exited ∧ (t'.loop = .exited → events = []) ∧
      t'.pendingOperations.maxSize = t.pendingOperations.maxSize := by
  cases h with
  | process _ hloop _ hqueue =>
    exact ⟨by simp [hloop], by simp, (ConcurrentQueue.tryDequeue_some hqueue).1.maxSize⟩
  | drained hloop _ hqueue =>
    refine ⟨by simp [hloop], by simp, ?_⟩
    rw [ConcurrentQueue.tryDequeue_none hqueue]
  | _ => exact ⟨by simp [*], by simp, rfl⟩

/-- The loop can always go on. -/
theorem ReactorThread.exists_turn {t : ReactorThread} (h : t.loop ≠ .exited) :
    ∃ t' events, t.Turn t' events := by
  cases hloop : t.loop with
  | top =>
    by_cases hrunning : t.isRunning = true
    · exact ⟨_, _, .enter hloop hrunning⟩
    · exact ⟨_, _, .leave hloop hrunning⟩
  | draining which processed =>
    by_cases hbatch : processed < maxBatchSize
    · rcases hqueue : t.pendingOperations.tryDequeue with ⟨_ | op, q⟩
      · exact ⟨_, _, .drained hloop hbatch hqueue⟩
      · exact ⟨_, _, .process [] hloop hbatch hqueue⟩
    · exact ⟨_, _, .full hloop hbatch⟩
  | checkingTimeouts => exact ⟨_, _, .checkTimeouts [] hloop⟩
  | waiting => exact ⟨_, _, .waited [] hloop (Nat.zero_le _)⟩
  | handling kevents =>
    cases kevents with
    | nil => exact ⟨_, _, .handled hloop⟩
    | cons kevent kevents => exact ⟨_, _, .handle [] hloop⟩
  | exited => exact absurd hloop h

/-- The reactor whose `SendData` it is in. -/
def SendPlace.reactor {r : ℕ} : SendPlace r → Option (Fin r)
  | requesting i => some i
  | enqueueing i => some i
  | _ => none

/-- How far a call of `SendData` is. -/
def SendPlace.index {r : ℕ} : SendPlace r → ℕ
  | testing => 0
  | looking => 1
  | requesting _ => 2
  | enqueueing _ => 3

theorem SendPlace.index_le {r : ℕ} (place : SendPlace r) : place.index ≤ 3 := by
  cases place <;> simp [index]

/-- How many steps a callback has to take at most. -/
def ServerCallback.remaining {r : ℕ} (callback : ServerCallback r) : ℕ :=
  4 * callback.calls.length - callback.place.index

theorem ServerCallback.exists_starts {r : ℕ} (event : NetworkEvent) :
    ∃ callback : ServerCallback r, ServerCallback.Starts event callback :=
  ⟨{ calls := [] }, rfl⟩

namespace ServerSystem

variable {a r n : ℕ}

/-! ## Who waits for whom -/

/-- `Stop` has passed its test of `state_`. -/
def StopBegun (s : ServerSystem a r n) : Prop :=
  s.place ≠ .starting ∧ s.place ≠ .started

/-- The thread has come to its end, and `Stop` to its return. -/
def Finished (s : ServerSystem a r n) : ServerActor a r n → Prop
  | .stopper => s.place = .returned
  | .acceptor i => (s.acceptors i).place = .exited
  | .reactor i => (s.reactors i).loop = .exited
  | .worker w => s.pool.workers w = .exited

variable [NeZero n]

def CanStep (s : ServerSystem a r n) (actor : ServerActor a r n) : Prop :=
  ∃ s', ActorStep actor s s'

/-- The reactor waits for room in the queue of a worker. -/
def BlockedOn (s : ServerSystem a r n) (i : Fin r) (w : Fin n) : Prop :=
  (s.pool.dispatches i).isBlockedOn w = true

def QueueFull (s : ServerSystem a r n) (w : Fin n) : Prop :=
  0 < (s.pool.eventQueues w).maxSize ∧
    (s.pool.eventQueues w).maxSize ≤ (s.pool.eventQueues w).queue.length

/-- By its own steps, the worker takes an event out of its queue. -/
def CanDrain (s : ServerSystem a r n) (w : Fin n) : Prop :=
  ∃ s', ReflTransGen (fun s s' => s.WorkerStep w s') s s' ∧
    (s'.pool.eventQueues w).queue.length < (s.pool.eventQueues w).queue.length

/-- A thread cannot go on before another one has. -/
inductive WaitsFor (s : ServerSystem a r n) : ServerActor a r n → ServerActor a r n → Prop where
  | joinAcceptor {i : Fin a} (h : s.place = .joiningAcceptor i)
      (hrunning : ¬s.Finished (.acceptor i)) : WaitsFor s .stopper (.acceptor i)
  | joinReactor {i : Fin r} (h : s.place = .joiningReactor i)
      (hrunning : ¬s.Finished (.reactor i)) : WaitsFor s .stopper (.reactor i)
  | joinWorker {w : Fin n} (h : s.place = .joiningWorker w)
      (hrunning : ¬s.Finished (.worker w)) : WaitsFor s .stopper (.worker w)
  | full {i : Fin r} {w : Fin n} (h : s.BlockedOn i w) (hfull : s.QueueFull w) :
      WaitsFor s (.reactor i) (.worker w)
  /-- There is room, which has been left to a reactor that has been woken. -/
  | turn {i j : Fin r} {w : Fin n} (h : s.BlockedOn i w) (hroom : ¬s.QueueFull w)
      (hwoken : (s.pool.dispatches j).isWokenOn w = true) : WaitsFor s (.reactor i) (.reactor j)

/-! ## What always holds -/

/-- Whoever has been joined has come to its end, the pool runs until the last reactor has been
joined, and an operation always finds room. -/
structure Sound (s : ServerSystem a r n) : Prop where
  inRange : s.place.InRange a r n
  acceptors : ∀ i : Fin a, i < s.place.acceptorsJoined a → (s.acceptors i).place = .exited
  reactors : ∀ i : Fin r, i < s.place.reactorsJoined r → (s.reactors i).loop = .exited
  workers : ∀ w : Fin n, w < s.place.workersJoined n → s.pool.workers w = .exited
  idle : ∀ i, (s.reactors i).loop = .exited → (s.pool.dispatches i).events = []
  unlimited : ∀ i, (s.reactors i).pendingOperations.maxSize = 0
  running : s.pool.isRunning = !s.place.poolStopped
  pool : s.pool.Sound

theorem Sound.start (maxQueueSize : ℕ) :
    ({ pool := { eventQueues := fun _ => { maxSize := maxQueueSize } } } :
      ServerSystem a r n).Sound where
  inRange := trivial
  acceptors _ hi := absurd hi (Nat.not_lt_zero _)
  reactors _ hi := absurd hi (Nat.not_lt_zero _)
  workers _ hw := absurd hw (Nat.not_lt_zero _)
  idle _ _ := rfl
  unlimited _ := rfl
  running := rfl
  pool := .start maxQueueSize

omit [NeZero n] in
/-- Only the operations of the reactors have changed, and there is still room for any number. -/
structure SameLoops (t t' : Fin r → ReactorThread) : Prop where
  loop : ∀ i, (t' i).loop = (t i).loop
  maxSize : ∀ i, (t' i).pendingOperations.maxSize = (t i).pendingOperations.maxSize

omit [NeZero n] in
theorem SameLoops.refl (t : Fin r → ReactorThread) : SameLoops t t := ⟨fun _ => rfl, fun _ => rfl⟩

omit [NeZero n] in
theorem SameLoops.update {t : Fin r → ReactorThread} {i : Fin r} {u : ReactorThread}
    (hloop : u.loop = (t i).loop)
    (hsize : u.pendingOperations.maxSize = (t i).pendingOperations.maxSize) :
    SameLoops t (Function.update t i u) := by
  refine ⟨fun j => ?_, fun j => ?_⟩ <;> by_cases hj : j = i
  · subst hj
    rwa [Function.update_self]
  · rw [Function.update_of_ne hj]
  · subst hj
    rwa [Function.update_self]
  · rw [Function.update_of_ne hj]

omit [NeZero n] in
/-- `Enqueue` does not change the limit of a queue. -/
theorem maxSize_enqueue {α : Type*} {q q' : ConcurrentQueue α} {value : α} {success : Bool}
    (h : q.enqueue value = some (success, q')) : q'.maxSize = q.maxSize :=
  (ConcurrentQueue.enqueue_fifo h).1

omit [NeZero n] in
theorem AcceptorStep.frame {s s' : ServerSystem a r n} {i : Fin a} (h : s.AcceptorStep i s') :
    (s.acceptors i).place ≠ .exited ∧ (∀ j, j ≠ i → s'.acceptors j = s.acceptors j) ∧
      SameLoops s.reactors s'.reactors ∧ s'.pool = s.pool ∧ s'.place = s.place := by
  have hother {t : ServerSystem a r n} {place : AcceptPlace r} (j : Fin a) (hj : j ≠ i) :
      (t.setAcceptor i place).acceptors j = t.acceptors j := Function.update_of_ne hj _ _
  have hplace : (s.acceptors i).place ≠ .exited := by
    cases h <;> simp [*]
  cases h with
  | enqueue _ hqueue =>
    exact ⟨hplace, hother, .update rfl (maxSize_enqueue hqueue), rfl, rfl⟩
  | _ => exact ⟨hplace, hother, .refl _, rfl, rfl⟩

theorem Sound.acceptor {s s' : ServerSystem a r n} {i : Fin a} (h : s.Sound)
    (hstep : s.AcceptorStep i s') : s'.Sound := by
  obtain ⟨hplace, hothers, hloops, hpool, hstop⟩ := hstep.frame
  refine ⟨by rw [hstop]; exact h.inRange, fun j hj => ?_, fun j hj => ?_, ?_, fun j hj => ?_,
    fun j => ?_, by rw [hpool, hstop]; exact h.running, by rw [hpool]; exact h.pool⟩
  · rw [hstop] at hj
    by_cases hij : j = i
    · subst hij
      exact absurd (h.acceptors j hj) hplace
    · rw [hothers j hij]
      exact h.acceptors j hj
  · rw [hstop] at hj
    rw [hloops.loop]
    exact h.reactors j hj
  · rw [hpool, hstop]
    exact h.workers
  · rw [hloops.loop] at hj
    rw [hpool]
    exact h.idle j hj
  · rw [hloops.maxSize]
    exact h.unlimited j

omit [NeZero n] in
/-- A step of `SendData` concerns the queue of a reactor. -/
theorem SendStep.frame {s s' : ServerSystem a r n} {call : SendCall} {place : SendPlace r}
    {place' : Option (SendPlace r)} (h : s.SendStep call place s' place') :
    s'.acceptors = s.acceptors ∧ SameLoops s.reactors s'.reactors ∧ s'.pool = s.pool ∧
      s'.place = s.place := by
  cases h with
  | enqueue _ hqueue => exact ⟨rfl, .update rfl (maxSize_enqueue hqueue), rfl, rfl⟩
  | _ => exact ⟨rfl, .refl _, rfl, rfl⟩

omit [NeZero n] in
theorem SendStep.reactorsCleared {s s' : ServerSystem a r n} {call : SendCall}
    {place : SendPlace r} {place' : Option (SendPlace r)} (h : s.SendStep call place s' place') :
    s'.reactorsCleared = s.reactorsCleared := by
  cases h <;> rfl

/-- The pool goes on, and so may `SendData` of a reactor. -/
theorem Sound.of_pool {s s' : ServerSystem a r n} (h : s.Sound)
    (hacceptors : s'.acceptors = s.acceptors) (hloops : SameLoops s.reactors s'.reactors)
    (hplace : s'.place = s.place) (hrunning : s'.pool.isRunning = s.pool.isRunning)
    (hsettled : s.pool.Settled s'.pool) (hpool : s'.pool.Sound) : s'.Sound := by
  refine ⟨by rw [hplace]; exact h.inRange, by rw [hplace, hacceptors]; exact h.acceptors,
    fun j hj => ?_, fun w hw => ?_, fun j hj => ?_, fun j => ?_, ?_, hpool⟩
  · rw [hplace] at hj
    rw [hloops.loop]
    exact h.reactors j hj
  · rw [hplace] at hw
    exact hsettled.exited w (h.workers w hw)
  · rw [hloops.loop] at hj
    exact hsettled.quiet j (h.idle j hj)
  · rw [hloops.maxSize]
    exact h.unlimited j
  · rw [hrunning, hplace]
    exact h.running

theorem Sound.worker {s s' : ServerSystem a r n} {w : Fin n} (h : s.Sound)
    (hstep : s.WorkerStep w s') : s'.Sound := by
  cases hstep with
  | pool hpool =>
    exact h.of_pool rfl (.refl _) rfl hpool.kept.isRunning hpool.settled.2 (hpool.sound h.pool)
  | send hplace hcalls hsend =>
    obtain ⟨hacceptors, hloops, hpool, hstop⟩ := hsend.frame
    refine h.of_pool hacceptors hloops hstop ?_ ?_ ?_
    · simp [hpool, PoolThreads.setWorker]
    · rw [hpool]
      exact ⟨fun _ => id, PoolThreads.exited_update (by simp [hplace])⟩
    · rw [hpool]
      exact h.pool.call hplace

theorem Sound.reactor {s s' : ServerSystem a r n} {i : Fin r} (h : s.Sound)
    (hstep : s.ReactorStep i s') : s'.Sound := by
  cases hstep with
  | dispatch hpool =>
    exact h.of_pool rfl (.refl _) rfl hpool.kept.isRunning hpool.settled.2 (hpool.sound h.pool)
  | @turn t events hidle hturn =>
    obtain ⟨hloop, hlast, hsize⟩ := hturn.loop
    refine ⟨h.inRange, h.acceptors, fun j hj => ?_, h.workers, fun j hj => ?_, fun j => ?_,
      h.running, h.pool.begin hidle events⟩
    · have hexited := h.reactors j hj
      by_cases hij : j = i
      · subst hij
        exact absurd hexited hloop
      · simpa [setReactor, Function.update_of_ne hij] using hexited
    · by_cases hij : j = i
      · subst hij
        simp only [setReactor, Function.update_self] at hj
        simpa [PoolThreads.setDispatch] using hlast hj
      · simp only [setReactor, Function.update_of_ne hij] at hj
        simpa [PoolThreads.setDispatch, Function.update_of_ne hij] using h.idle j hj
    · by_cases hij : j = i
      · subst hij
        simpa [setReactor, hsize] using h.unlimited j
      · simpa [setReactor, Function.update_of_ne hij] using h.unlimited j

/-- `Stop` goes on, and joins only what has come to its end. -/
theorem Sound.moveTo {s : ServerSystem a r n} (h : s.Sound) {place : StopPlace}
    (hrange : place.InRange a r n)
    (hacceptors : ∀ i : Fin a, i < place.acceptorsJoined a →
      i < s.place.acceptorsJoined a ∨ (s.acceptors i).place = .exited)
    (hreactors : ∀ i : Fin r, i < place.reactorsJoined r →
      i < s.place.reactorsJoined r ∨ (s.reactors i).loop = .exited)
    (hworkers : ∀ w : Fin n, w < place.workersJoined n →
      w < s.place.workersJoined n ∨ s.pool.workers w = .exited)
    (hrunning : place.poolStopped = s.place.poolStopped) : (s.moveTo place).Sound where
  inRange := hrange
  acceptors i hi := (hacceptors i hi).elim (h.acceptors i) id
  reactors i hi := (hreactors i hi).elim (h.reactors i) id
  workers w hw := (hworkers w hw).elim (h.workers w) id
  idle := h.idle
  unlimited := h.unlimited
  running := h.running.trans (congrArg not hrunning.symm)
  pool := h.pool

/-- `Stop` goes on to where nobody else has been joined. -/
theorem Sound.goOn {s : ServerSystem a r n} (h : s.Sound) {place place' : StopPlace}
    (hplace : s.place = place) (hrange : place'.InRange a r n)
    (hacceptors : place'.acceptorsJoined a ≤ place.acceptorsJoined a)
    (hreactors : place'.reactorsJoined r ≤ place.reactorsJoined r)
    (hworkers : place'.workersJoined n ≤ place.workersJoined n)
    (hrunning : place'.poolStopped = place.poolStopped) : (s.moveTo place').Sound := by
  subst hplace
  exact h.moveTo hrange (fun _ hi => .inl (Nat.lt_of_lt_of_le hi hacceptors))
    (fun _ hi => .inl (Nat.lt_of_lt_of_le hi hreactors))
    (fun _ hw => .inl (Nat.lt_of_lt_of_le hw hworkers)) hrunning

/-- What the invariant does not speak about may change. -/
theorem Sound.of_same {s s' : ServerSystem a r n} (h : s.Sound)
    (hacceptors : ∀ i, (s'.acceptors i).place = (s.acceptors i).place)
    (hloops : SameLoops s.reactors s'.reactors) (hpool : s'.pool = s.pool)
    (hplace : s'.place = s.place) : s'.Sound := by
  refine ⟨by rw [hplace]; exact h.inRange, fun i hi => ?_, fun i hi => ?_,
    by rw [hplace, hpool]; exact h.workers, fun i hi => ?_, fun i => ?_,
    by rw [hplace, hpool]; exact h.running, by rw [hpool]; exact h.pool⟩
  · rw [hplace] at hi
    rw [hacceptors]
    exact h.acceptors i hi
  · rw [hplace] at hi
    rw [hloops.loop]
    exact h.reactors i hi
  · rw [hloops.loop] at hi
    rw [hpool]
    exact h.idle i hi
  · rw [hloops.maxSize]
    exact h.unlimited i

theorem Sound.stopper {s s' : ServerSystem a r n} (h : s.Sound) (hstep : s.StopperStep s') :
    s'.Sound := by
  have hrange := h.inRange
  have hrunning := h.running
  cases hstep with
  | started hplace =>
    have hnext : (s.moveTo .started).Sound :=
      h.goOn hplace trivial le_rfl le_rfl le_rfl rfl
    exact hnext.of_same (fun _ => rfl) (.refl _) rfl rfl
  | stop hplace _ =>
    have hnext : (s.moveTo (.stoppingAcceptor 0)).Sound :=
      h.goOn hplace (Nat.zero_le a) le_rfl le_rfl le_rfl rfl
    exact hnext.of_same (fun _ => rfl) (.refl _) rfl rfl
  | @stopAcceptor i hplace =>
    have hnext : (s.moveTo (.joiningAcceptor i)).Sound :=
      h.goOn hplace i.isLt le_rfl le_rfl le_rfl rfl
    refine hnext.of_same (fun j => ?_) (.refl _) rfl rfl
    by_cases hj : j = i
    · subst hj
      simp [ServerSystem.moveTo]
    · simp [ServerSystem.moveTo, Function.update_of_ne hj]
  | @joinAcceptor i hplace hexited =>
    refine h.moveTo i.isLt (fun j hj => ?_) (fun _ hj => ?_) (fun _ hj => ?_) (by rw [hplace]; rfl)
    · rcases Nat.lt_succ_iff_lt_or_eq.mp hj with hlt | heq
      · exact .inl (by rwa [hplace])
      · rw [Fin.ext heq]
        exact .inr hexited
    · cases hj
    · cases hj
  | acceptorsStopped hplace =>
    exact h.goOn hplace (Nat.zero_le r) le_rfl le_rfl le_rfl rfl
  | @stopReactor i hplace =>
    have hnext : (s.moveTo (.notifyingReactor i)).Sound :=
      h.goOn hplace i.isLt le_rfl le_rfl le_rfl rfl
    exact hnext.of_same (fun _ => rfl) (.update rfl rfl) rfl rfl
  | @notifyReactor i hplace =>
    have hnext : (s.moveTo (.joiningReactor i)).Sound :=
      h.goOn hplace i.isLt le_rfl le_rfl le_rfl rfl
    exact hnext.of_same (fun _ => rfl) (.update rfl rfl) rfl rfl
  | @joinReactor i hplace hexited =>
    refine h.moveTo i.isLt (fun j hj => ?_) (fun j hj => ?_) (fun _ hj => ?_) (by rw [hplace]; rfl)
    · exact .inl (by rwa [hplace])
    · rcases Nat.lt_succ_iff_lt_or_eq.mp hj with hlt | heq
      · exact .inl (by rwa [hplace])
      · rw [Fin.ext heq]
        exact .inr hexited
    · cases hj
  | reactorsStopped hplace => exact h.goOn hplace trivial le_rfl le_rfl le_rfl rfl
  | clearReactors hplace =>
    have hnext : (s.moveTo .stoppingPool).Sound :=
      h.goOn hplace trivial le_rfl le_rfl le_rfl rfl
    exact hnext.of_same (fun _ => rfl) (.refl _) rfl rfl
  | stopPool hplace =>
    rw [hplace] at hrange
    refine ⟨Nat.zero_le n, fun i hi => h.acceptors i (by rwa [hplace]),
      fun i hi => h.reactors i (by rwa [hplace]), fun w hw => absurd hw (Nat.not_lt_zero _),
      h.idle, h.unlimited, rfl, h.pool.stop⟩
  | @stopQueue w hplace =>
    rw [hplace] at hrunning
    have hnext : (s.moveTo (.notifyingNotEmpty w)).Sound :=
      h.goOn hplace w.isLt le_rfl le_rfl le_rfl rfl
    exact hnext.of_pool rfl (.refl _) rfl rfl ⟨fun _ => id, fun _ => id⟩
      (h.pool.stopQueue hrunning w)
  | @notifyNotEmpty w hplace =>
    have hnext : (s.moveTo (.notifyingNotFull w)).Sound :=
      h.goOn hplace w.isLt le_rfl le_rfl le_rfl rfl
    exact hnext.of_pool rfl (.refl _) rfl rfl ⟨fun _ => id, PoolThreads.exited_notify w⟩
      (h.pool.notifyNotEmpty w)
  | @notifyNotFull w hplace =>
    have hnext : (s.moveTo (.stoppingQueue (w + 1))).Sound :=
      h.goOn hplace w.isLt le_rfl le_rfl le_rfl rfl
    refine hnext.of_pool rfl (.refl _) rfl rfl ⟨fun i hi => ?_, fun _ => id⟩
      (h.pool.notifyNotFull w)
    simp only [PoolThreads.notifyNotFull]
    split <;> exact hi
  | queuesStopped hplace => exact h.goOn hplace (Nat.zero_le n) le_rfl le_rfl le_rfl rfl
  | @joinWorker w hplace hexited =>
    refine h.moveTo w.isLt (fun j hj => ?_) (fun j hj => ?_) (fun v hv => ?_) (by rw [hplace]; rfl)
    · exact .inl (by rwa [hplace])
    · exact .inl (by rwa [hplace])
    · rcases Nat.lt_succ_iff_lt_or_eq.mp hv with hlt | heq
      · exact .inl (by rwa [hplace])
      · rw [Fin.ext heq]
        exact .inr hexited
  | workersJoined hplace => exact h.goOn hplace trivial le_rfl le_rfl le_rfl rfl
  | store hplace =>
    have hnext : (s.moveTo .returned).Sound :=
      h.goOn hplace trivial le_rfl le_rfl le_rfl rfl
    exact hnext.of_same (fun _ => rfl) (.refl _) rfl rfl

theorem Step.sound {s s' : ServerSystem a r n} (hstep : s.Step s') (h : s.Sound) : s'.Sound := by
  cases hstep with
  | actor _ hactor =>
    cases hactor with
    | stopper hstep => exact h.stopper hstep
    | acceptor hstep => exact h.acceptor hstep
    | reactor hstep => exact h.reactor hstep
    | worker hstep => exact h.worker hstep
  | spurious hpool hs =>
    subst hs
    exact h.of_pool rfl (.refl _) rfl hpool.kept.isRunning hpool.settled (hpool.sound h.pool)

/-! ## Callbacks in a reactor -/

omit [NeZero n] in
def Alive (s : ServerSystem a r n) : Prop :=
  s.reactorsCleared = true → s.pool.EveryCallback fun callback => callback.place.reactor = none

omit [NeZero n] in
/-- The reactors are destroyed only while no callback is in one. -/
def ClearsIdle (s s' : ServerSystem a r n) : Prop :=
  s.reactorsCleared = false → s'.reactorsCleared = true →
    s.pool.EveryCallback fun callback => callback.place.reactor = none

omit [NeZero n] in
theorem clearsIdle_of_same {s s' : ServerSystem a r n}
    (h : s'.reactorsCleared = s.reactorsCleared) : s.ClearsIdle s' := by
  intro hcleared hcleared'
  rw [h, hcleared] at hcleared'
  cases hcleared'

omit [NeZero n] in
/-- Once the reactors are destroyed, `SendData` comes into none. -/
theorem SendStep.outside {s s' : ServerSystem a r n} {call : SendCall} {place place' : SendPlace r}
    (h : s.SendStep call place s' (some place')) (hcleared : s'.reactorsCleared = true) :
    place'.reactor = none := by
  generalize hresult : some place' = result at h
  cases h with
  | test =>
    split at hresult <;> cases hresult
    rfl
  | lookUp => simp [ServerSystem.lookUp, hcleared] at hresult
  | request halive =>
    rw [halive] at hcleared
    cases hcleared
  | enqueue _ _ => cases hresult

theorem WorkerStep.alive {s s' : ServerSystem a r n} {w : Fin n} (hstep : s.WorkerStep w s')
    (h : s.Alive) : s'.Alive := by
  intro hcleared
  cases hstep with
  | pool hpool =>
    refine hpool.everyCallback (fun event callback hstart => ?_) (h hcleared)
    rw [show callback.place = .testing from hstart]
    rfl
  | @send callback _ _ _ t place hplace _ hsend =>
    refine PoolThreads.EveryCallback.setWorker ?_ fun callback' remaining hcalling => ?_
    · rw [hsend.frame.2.2.1]
      exact h (hsend.reactorsCleared.symm.trans hcleared)
    · obtain ⟨rfl, -⟩ := WorkerPlace.calling.inj hcalling
      cases place with
      | none => rfl
      | some place' => exact hsend.outside hcleared

theorem Step.alive {s s' : ServerSystem a r n} (hstep : s.Step s') (h : s.Alive)
    (hclears : s.ClearsIdle s') : s'.Alive := by
  intro hcleared
  -- before the step too, also if the reactors are destroyed only now
  have hbefore : s.pool.EveryCallback fun callback => callback.place.reactor = none := by
    cases hs : s.reactorsCleared with
    | false => exact hclears hs hcleared
    | true => exact h hs
  cases hstep with
  | spurious hpool hs =>
    subst hs
    exact hpool.everyCallback hbefore
  | actor _ hactor =>
    cases hactor with
    | worker hworker => exact hworker.alive (fun _ => hbefore) hcleared
    | acceptor hacceptor =>
      rw [hacceptor.frame.2.2.2.1]
      exact hbefore
    | reactor hreactor =>
      cases hreactor with
      | turn _ _ => exact hbefore
      | dispatch hpool => exact hpool.everyCallback hbefore
    | stopper hstopper =>
      cases hstopper with
      | notifyNotEmpty _ => exact hbefore.notify
      | _ => exact hbefore

/-! ## Who can go on -/

omit [NeZero n] in
theorem exists_enqueue {α : Type*} {q : ConcurrentQueue α} (h : q.maxSize = 0) (value : α) :
    ∃ success q', q.enqueue value = some (success, q') := by
  cases hqueue : q.enqueue value with
  | none =>
    have hpos := (ConcurrentQueue.enqueue_waits hqueue).1
    omega
  | some result => exact ⟨result.1, result.2, rfl⟩

theorem Sound.canStep_acceptor {s : ServerSystem a r n} (h : s.Sound) {i : Fin a}
    (hexited : (s.acceptors i).place ≠ .exited) : s.CanStep (.acceptor i) := by
  suffices hstep : ∃ s', s.AcceptorStep i s' by
    obtain ⟨s', hs'⟩ := hstep
    exact ⟨s', .acceptor hs'⟩
  cases hplace : (s.acceptors i).place with
  | monitoring => exact ⟨_, .monitor true hplace⟩
  | top => exact ⟨_, .test hplace⟩
  | waiting => exact ⟨_, .waitAgain hplace⟩
  | handling left =>
    cases left with
    | zero => exact ⟨_, .handled hplace⟩
    | succ left => exact ⟨_, .handle true hplace⟩
  | testing left => exact ⟨_, .testInner hplace⟩
  | accepting left => exact ⟨_, .wouldBlock hplace⟩
  | assigning left reactor op => exact ⟨_, .assign hplace⟩
  | enqueueing left reactor op =>
    obtain ⟨success, q, hqueue⟩ := exists_enqueue (h.unlimited reactor) op
    exact ⟨_, .enqueue hplace hqueue⟩
  | timing left => exact ⟨_, .time true hplace⟩
  | exited => exact absurd hplace hexited

theorem Sound.pool_running {s : ServerSystem a r n} (h : s.Sound) {i : Fin r}
    (hexited : (s.reactors i).loop ≠ .exited) : s.pool.isRunning = true := by
  cases hstopped : s.place.poolStopped with
  | false => rw [h.running, hstopped, Bool.not_false]
  | true =>
    have hjoined := StopPlace.reactorsJoined_of_poolStopped r hstopped
    exact absurd (h.reactors i (by rw [hjoined]; exact i.isLt)) hexited

/-- A reactor that waits for room is in its loop, and so is the worker. -/
theorem Sound.blocked {s : ServerSystem a r n} (h : s.Sound) {i : Fin r} {w : Fin n}
    (hblocked : s.BlockedOn i w) :
    s.pool.isRunning = true ∧ (s.pool.eventQueues w).isStopped = false ∧
      (s.pool.workers w).isLooping = true := by
  have hexited : (s.reactors i).loop ≠ .exited := by
    intro hexited
    have htarget := (Dispatch.isBlockedOn_iff.mp hblocked).2
    rw [Dispatch.target, h.idle i hexited] at htarget
    cases htarget
  have hrunning := h.pool_running hexited
  exact ⟨hrunning, h.pool.looping hrunning w⟩

theorem Sound.not_exited {s : ServerSystem a r n} (h : s.Sound) {i : Fin r} {w : Fin n}
    (hblocked : s.BlockedOn i w) : ¬s.Finished (.worker w) := by
  intro hexited
  have hloops := (h.blocked hblocked).2.2
  rw [hexited] at hloops
  cases hloops

theorem Sound.canStep_reactor {s : ServerSystem a r n} (h : s.Sound) {i : Fin r}
    (hexited : ¬s.Finished (.reactor i)) :
    s.CanStep (.reactor i) ∨ ∃ b, s.WaitsFor (.reactor i) b ∧ ¬s.Finished b := by
  rcases hd : s.pool.dispatches i with ⟨_ | ⟨event, rest⟩, phase⟩
  · left
    obtain ⟨t, events, hturn⟩ := ReactorThread.exists_turn hexited
    exact ⟨_, .reactor (.turn (by rw [hd]) hturn)⟩
  · by_cases hphase : phase = .blocked
    · right
      subst hphase
      have hblocked : s.BlockedOn i (event.worker n) := by
        simp [BlockedOn, hd, Dispatch.isBlockedOn, Dispatch.target]
      by_cases hfull : s.QueueFull (event.worker n)
      · exact ⟨_, .full hblocked hfull, h.not_exited hblocked⟩
      · have hlimited := h.pool.limited i _ hblocked
        have hopen := (h.blocked hblocked).2.1
        rcases h.pool.served hopen hblocked with hle | ⟨j, hwoken⟩
        · exact absurd ⟨hlimited, hle⟩ hfull
        · refine ⟨.reactor j, .turn hblocked hfull hwoken, fun hj => ?_⟩
          have htarget := (Dispatch.isWokenOn_iff.mp hwoken).2
          rw [Dispatch.target, h.idle j hj] at htarget
          cases htarget
    · left
      obtain ⟨p, hp⟩ := PoolThreads.exists_dispatchStep hd hphase
      exact ⟨_, .reactor (.dispatch hp)⟩

/-- `SendData` goes on by itself. -/
theorem Sound.exists_send {s : ServerSystem a r n} (h : s.Sound) (call : SendCall)
    {place : SendPlace r} (halive : s.reactorsCleared = true → place.reactor = none) :
    ∃ s' place', s.SendStep call place s' place' := by
  have hthere {i : Fin r} (hplace : place.reactor = some i) : s.reactorsCleared = false := by
    by_contra hcleared
    rw [halive (by simpa using hcleared)] at hplace
    cases hplace
  cases place with
  | testing => exact ⟨_, _, .test⟩
  | looking => exact ⟨_, _, .lookUp⟩
  | requesting i => exact ⟨_, _, .request (hthere rfl)⟩
  | enqueueing i =>
    obtain ⟨success, q, hqueue⟩ :=
      exists_enqueue (h.unlimited i) (.send call.connectionId call.data)
    exact ⟨_, _, .enqueue (hthere rfl) hqueue⟩

theorem Sound.canStep_worker {s : ServerSystem a r n} (h : s.Sound) (halive : s.Alive) {w : Fin n}
    (hexited : ¬s.Finished (.worker w)) : s.CanStep (.worker w) := by
  by_cases hcalling : ∃ callback remaining, s.pool.workers w = .calling callback remaining ∧
      callback.calls ≠ []
  · obtain ⟨callback, remaining, hplace, hcalls⟩ := hcalling
    obtain ⟨call, calls, hcons⟩ := List.exists_cons_of_ne_nil hcalls
    obtain ⟨s', place, hsend⟩ :=
      h.exists_send call fun hcleared => halive hcleared w callback remaining hplace
    exact ⟨_, .worker (.send hplace hcons hsend)⟩
  · have hfinished (callback : ServerCallback r) (remaining : Bool)
        (hplace : s.pool.workers w = .calling callback remaining) : callback.Finished := by
      by_contra hcalls
      exact hcalling ⟨callback, remaining, hplace, hcalls⟩
    obtain ⟨p, hp⟩ := PoolThreads.exists_workerStep ServerCallback.exists_starts hexited hfinished
    exact ⟨_, .worker (.pool hp)⟩

theorem Sound.canStep_stopper {s : ServerSystem a r n} (h : s.Sound) (hbegun : s.StopBegun)
    (hunfinished : ¬s.Finished .stopper) :
    s.CanStep .stopper ∨ ∃ b, s.WaitsFor .stopper b ∧ ¬s.Finished b := by
  have hrange := h.inRange
  have hstep {s' : ServerSystem a r n} (hs' : s.StopperStep s') :
      s.CanStep .stopper ∨ ∃ b, s.WaitsFor .stopper b ∧ ¬s.Finished b := .inl ⟨s', .stopper hs'⟩
  cases hplace : s.place with
  | starting => exact absurd hplace hbegun.1
  | started => exact absurd hplace hbegun.2
  | stoppingAcceptor i =>
    rw [hplace] at hrange
    rcases Nat.lt_or_eq_of_le hrange with hlt | rfl
    · exact hstep (.stopAcceptor (i := ⟨i, hlt⟩) hplace)
    · exact hstep (.acceptorsStopped hplace)
  | joiningAcceptor i =>
    rw [hplace] at hrange
    by_cases hexited : s.Finished (.acceptor ⟨i, hrange⟩)
    · exact hstep (.joinAcceptor (i := ⟨i, hrange⟩) hplace hexited)
    · exact .inr ⟨_, .joinAcceptor (i := ⟨i, hrange⟩) hplace hexited, hexited⟩
  | stoppingReactor i =>
    rw [hplace] at hrange
    rcases Nat.lt_or_eq_of_le hrange with hlt | rfl
    · exact hstep (.stopReactor (i := ⟨i, hlt⟩) hplace)
    · exact hstep (.reactorsStopped hplace)
  | notifyingReactor i =>
    rw [hplace] at hrange
    exact hstep (.notifyReactor (i := ⟨i, hrange⟩) hplace)
  | joiningReactor i =>
    rw [hplace] at hrange
    by_cases hexited : s.Finished (.reactor ⟨i, hrange⟩)
    · exact hstep (.joinReactor (i := ⟨i, hrange⟩) hplace hexited)
    · exact .inr ⟨_, .joinReactor (i := ⟨i, hrange⟩) hplace hexited, hexited⟩
  | clearingReactors => exact hstep (.clearReactors hplace)
  | stoppingPool => exact hstep (.stopPool hplace)
  | stoppingQueue w =>
    rw [hplace] at hrange
    rcases Nat.lt_or_eq_of_le hrange with hlt | heq
    · exact hstep (.stopQueue (w := ⟨w, hlt⟩) hplace)
    · exact hstep (.queuesStopped (by rw [hplace, heq]))
  | notifyingNotEmpty w =>
    rw [hplace] at hrange
    exact hstep (.notifyNotEmpty (w := ⟨w, hrange⟩) hplace)
  | notifyingNotFull w =>
    rw [hplace] at hrange
    exact hstep (.notifyNotFull (w := ⟨w, hrange⟩) hplace)
  | joiningWorker w =>
    rw [hplace] at hrange
    rcases Nat.lt_or_eq_of_le hrange with hlt | heq
    · by_cases hexited : s.Finished (.worker ⟨w, hlt⟩)
      · exact hstep (.joinWorker (w := ⟨w, hlt⟩) hplace hexited)
      · exact .inr ⟨_, .joinWorker (w := ⟨w, hlt⟩) hplace hexited, hexited⟩
    · exact hstep (.workersJoined (by rw [hplace, heq]))
  | storing => exact hstep (.store hplace)
  | returned => exact absurd hplace hunfinished

/-! ## A worker drains its queue -/

omit [NeZero n] in
theorem SendStep.forward {s s' : ServerSystem a r n} {call : SendCall} {place place' : SendPlace r}
    (h : s.SendStep call place s' (some place')) : place.index < place'.index := by
  generalize hresult : some place' = result at h
  cases h with
  | test =>
    split at hresult
    · cases hresult
    · cases hresult
      simp [SendPlace.index]
  | lookUp =>
    unfold ServerSystem.lookUp at hresult
    dsimp only at hresult
    split at hresult
    · cases hresult
    · split at hresult
      · cases hresult
        simp [SendPlace.index]
      · cases hresult
  | request =>
    split at hresult
    · cases hresult
      simp [SendPlace.index]
    · cases hresult
  | enqueue hqueue => cases hresult

omit [NeZero n] in
theorem SendStep.remaining_lt {s s' : ServerSystem a r n} {call : SendCall} {calls : List SendCall}
    {callback : ServerCallback r} {place : Option (SendPlace r)}
    (h : s.SendStep call callback.place s' place) (hcalls : callback.calls = call :: calls) :
    (callback.next place).remaining < callback.remaining := by
  have hindex := callback.place.index_le
  cases place with
  | none =>
    have hzero : (SendPlace.testing : SendPlace r).index = 0 := rfl
    simp only [ServerCallback.next, ServerCallback.remaining, hcalls, List.tail_cons,
      List.length_cons, hzero]
    omega
  | some place' =>
    have hforward := h.forward
    have hindex' := place'.index_le
    simp only [ServerCallback.next, ServerCallback.remaining, hcalls, List.length_cons]
    omega

/-- A callback comes to its end. The induction is on the steps that it has still to take. -/
theorem Sound.exists_return {s : ServerSystem a r n} (h : s.Sound) (halive : s.Alive) {w : Fin n}
    {callback : ServerCallback r} (hplace : s.pool.workers w = .calling callback false) :
    ∃ s', ReflTransGen (fun s s' => s.WorkerStep w s') s s' ∧
      s'.pool = s.pool.setWorker w .testing := by
  induction hm : callback.remaining using Nat.strongRecOn generalizing s callback with
  | ind m ih =>
    subst hm
    cases hcalls : callback.calls with
    | nil => exact ⟨_, .single (.pool (.ret hplace hcalls)), rfl⟩
    | cons call calls =>
      obtain ⟨t, place, hsend⟩ :=
        h.exists_send call fun hcleared => halive hcleared w callback false hplace
      have hstep : s.WorkerStep w
          { t with pool := t.pool.setWorker w (.calling (callback.next place) false) } :=
        .send hplace hcalls hsend
      obtain ⟨s', hrun, hpool⟩ := ih _ (hsend.remaining_lt hcalls) (h.worker hstep)
        (hstep.alive halive) (Function.update_self w _ _) rfl
      refine ⟨s', .head hstep hrun, ?_⟩
      rw [hpool, hsend.frame.2.2.1]
      simp [PoolThreads.setWorker]

theorem Sound.canDrain {s : ServerSystem a r n} (h : s.Sound) (halive : s.Alive) {i : Fin r}
    {w : Fin n}
    (hblocked : s.BlockedOn i w) (hfull : s.QueueFull w) : s.CanDrain w := by
  obtain ⟨hrunning, hopen, hloops⟩ := h.blocked hblocked
  have hqueue : (s.pool.eventQueues w).queue ≠ [] := by
    intro hempty
    have hle := hfull.2
    rw [hempty, List.length_nil] at hle
    exact absurd hfull.1 (Nat.not_lt.mpr hle)
  have htakes (t : ServerSystem a r n) (hrunning : t.pool.isRunning = true)
      (hqueues : t.pool.eventQueues = s.pool.eventQueues)
      (hloops : (t.pool.workers w).isLooping = true)
      (hcalling : ∀ callback remaining, t.pool.workers w ≠ .calling callback remaining) :
      ∃ s', ReflTransGen (fun s s' => s.WorkerStep w s') t s' ∧
        (s'.pool.eventQueues w).queue.length < (s.pool.eventQueues w).queue.length := by
    rw [← hqueues] at hopen hqueue ⊢
    obtain ⟨p, hrun, hlt⟩ :
        ∃ p, ReflTransGen (fun p p' =>
          p.WorkerStep ServerCallback.Starts ServerCallback.Finished w p')
          t.pool p ∧ (p.eventQueues w).queue.length < (t.pool.eventQueues w).queue.length :=
      PoolThreads.exists_takes ServerCallback.exists_starts hrunning hopen hqueue hloops hcalling
    refine ⟨{ t with pool := p }, hrun.lift (fun p => { t with pool := p }) ?_, hlt⟩
    intro p p' hstep
    exact .pool hstep
  by_cases hcalling : ∃ callback remaining, s.pool.workers w = .calling callback remaining
  · obtain ⟨callback, remaining, hplace⟩ := hcalling
    rw [hplace] at hloops
    obtain rfl : remaining = false := by simpa [WorkerPlace.isLooping] using hloops
    obtain ⟨t, hrun, hpool⟩ := h.exists_return halive hplace
    have htesting : t.pool.workers w = .testing := by
      rw [hpool]
      exact Function.update_self w _ _
    obtain ⟨s', htake, hlt⟩ := htakes t (by rw [hpool]; exact hrunning) (by rw [hpool]; rfl)
      (by rw [htesting]; rfl) (by simp [htesting])
    exact ⟨s', hrun.trans htake, hlt⟩
  · exact htakes s hrunning rfl hloops fun callback remaining hplace =>
      hcalling ⟨callback, remaining, hplace⟩

/-! ## The order of waiting -/

omit [NeZero n] in
/-- Who waits has a higher rank than whom it waits for. -/
def rank (s : ServerSystem a r n) : ServerActor a r n → ℕ
  | .stopper => 3
  | .reactor i => if (s.pool.dispatches i).phase = .blocked then 2 else 1
  | .acceptor _ => 0
  | .worker _ => 0

theorem WaitsFor.rank_lt {s : ServerSystem a r n} {actor other : ServerActor a r n}
    (h : s.WaitsFor actor other) : s.rank other < s.rank actor := by
  cases h with
  | joinAcceptor _ _ => simp [rank]
  | joinReactor _ _ =>
    simp only [rank]
    split <;> omega
  | joinWorker _ _ => simp [rank]
  | full hblocked _ => simp [rank, (Dispatch.isBlockedOn_iff.mp hblocked).1]
  | turn hblocked _ hwoken =>
    simp [rank, (Dispatch.isBlockedOn_iff.mp hblocked).1, (Dispatch.isWokenOn_iff.mp hwoken).1]

theorem Sound.canStep_or_waits {s : ServerSystem a r n} (h : s.Sound) (halive : s.Alive)
    (hbegun : s.StopBegun) (actor : ServerActor a r n) (hunfinished : ¬s.Finished actor) :
    s.CanStep actor ∨ ∃ other, s.WaitsFor actor other ∧ ¬s.Finished other := by
  cases actor with
  | stopper => exact h.canStep_stopper hbegun hunfinished
  | acceptor i => exact .inl (h.canStep_acceptor hunfinished)
  | reactor i => exact h.canStep_reactor hunfinished
  | worker w => exact .inl (h.canStep_worker halive hunfinished)

/-- Every thread that has not come to its end can take a step, or waits for one that can. -/
theorem Sound.exists_canStep {s : ServerSystem a r n} (h : s.Sound) (halive : s.Alive)
    (hbegun : s.StopBegun) {actor : ServerActor a r n} (hunfinished : ¬s.Finished actor) :
    ∃ other, ReflTransGen s.WaitsFor actor other ∧ ¬s.Finished other ∧ s.CanStep other :=
  WaitFor.exists_live (fun _ _ => WaitsFor.rank_lt) (h.canStep_or_waits halive hbegun) hunfinished

end ServerSystem

theorem leads_act {a r workerCount maxQueueSize : ℕ}
    {s t : ServerSystem a r (poolSize workerCount)} {actor : ServerActor a r (poolSize workerCount)}
    (h : (servers a r workerCount maxQueueSize).Leads ServerSystem.ClearsIdle s)
    (hstep : ServerSystem.ActorStep actor s t) (ht : t.reactorsCleared = s.reactorsCleared) :
    (servers a r workerCount maxQueueSize).Leads ServerSystem.ClearsIdle t :=
  h.next (.actor actor hstep) (ServerSystem.clearsIdle_of_same ht)

theorem passes_act {a r workerCount maxQueueSize : ℕ}
    {seen : ServerSystem a r (poolSize workerCount) → Prop}
    {s t : ServerSystem a r (poolSize workerCount)} {actor : ServerActor a r (poolSize workerCount)}
    (h : (servers a r workerCount maxQueueSize).Passes ServerSystem.ClearsIdle seen s)
    (hstep : ServerSystem.ActorStep actor s t) (ht : t.reactorsCleared = s.reactorsCleared) :
    (servers a r workerCount maxQueueSize).Passes ServerSystem.ClearsIdle seen t :=
  h.next (.actor actor hstep) (ServerSystem.clearsIdle_of_same ht)

def StopHeldUp {a r n : ℕ} [NeZero n] (i : Fin r) (w : Fin n) (s : ServerSystem a r n) : Prop :=
  s.StopBegun ∧ s.WaitsFor .stopper (.reactor i) ∧ s.BlockedOn i w ∧ s.QueueFull w

/-- While a callback is in the one reactor, `Stop` begins. It destroys the reactor after the
callback has returned and a full queue has held up both, or at once. -/
theorem exists_shutdowns :
    (∃ s : ServerSystem 0 1 (poolSize 1),
      (servers 0 1 1 1).Passes ServerSystem.ClearsIdle (StopHeldUp 0 0) s ∧ s.StopBegun ∧
        s.reactorsCleared = true ∧ s.WaitsFor .stopper (.worker 0)) ∧
    ∃ past, ∃ s : ServerSystem 0 1 (poolSize 1), (servers 0 1 1 1).Run (s :: past) ∧
      s.place = .joiningWorker 0 ∧ s.reactorsCleared = true ∧ (s.reactors 0).loop = .exited ∧
        s.pool.dispatches 0 = {} ∧
        s.pool.workers 0 = .calling { calls := [⟨0, [1]⟩], place := .requesting 0 } false := by
  have hidle : (servers 0 1 1 1).Leads ServerSystem.ClearsIdle _ := .start rfl
  have hstarted := leads_act hidle (.stopper (.started rfl)) rfl
  have hentered := leads_act hstarted (.reactor (i := 0) (.turn rfl (.enter rfl rfl))) rfl
  have hdrained := leads_act hentered
    (.reactor (i := 0) (.turn rfl (.drained rfl (by decide) rfl))) rfl
  have hevent := leads_act hdrained
    (.reactor (i := 0) (.turn rfl (.checkTimeouts [.disconnected 1] rfl))) rfl
  have htested := leads_act hevent (.reactor (i := 0) (.dispatch (.test rfl))) rfl
  have hqueued := leads_act htested (.reactor (i := 0) (.dispatch (.enqueue rfl rfl rfl))) rfl
  have hnotified := leads_act hqueued (.reactor (i := 0) (.dispatch (.notify rfl))) rfl
  have hrunning := leads_act hnotified (.worker (w := 0) (.pool (.test rfl))) rfl
  have hcallback : ServerCallback.Starts (NetworkEvent.disconnected 1)
      ({ calls := [⟨0, [1]⟩] } : ServerCallback 1) := rfl
  have hcalling := leads_act hrunning
    (.worker (w := 0) (.pool (.take rfl rfl rfl hcallback (.nobody (by decide) rfl)))) rfl
  have hlooking := leads_act hcalling (.worker (w := 0) (.send rfl rfl .test)) rfl
  have hinside := leads_act hlooking (.worker (w := 0) (.send rfl rfl .lookUp)) rfl
  constructor
  · -- the reactor is held up with the second of two events
    have hagain := leads_act hinside (.reactor (i := 0) (.turn rfl (.interrupted rfl))) rfl
    have hentered := leads_act hagain (.reactor (i := 0) (.turn rfl (.enter rfl rfl))) rfl
    have hdrained := leads_act hentered
      (.reactor (i := 0) (.turn rfl (.drained rfl (by decide) rfl))) rfl
    have hevents := leads_act hdrained (.reactor (i := 0)
      (.turn rfl (.checkTimeouts [.disconnected 2, .disconnected 3] rfl))) rfl
    have htested := leads_act hevents (.reactor (i := 0) (.dispatch (.test rfl))) rfl
    have hqueued := leads_act htested (.reactor (i := 0) (.dispatch (.enqueue rfl rfl rfl))) rfl
    have hnotified := leads_act hqueued (.reactor (i := 0) (.dispatch (.notify rfl))) rfl
    have hsecond := leads_act hnotified (.reactor (i := 0) (.dispatch (.test rfl))) rfl
    have hblocked := leads_act hsecond (.reactor (i := 0) (.dispatch (.wait rfl rfl rfl))) rfl
    have hstop := leads_act hblocked (.stopper (.stop rfl rfl)) rfl
    have hnone := leads_act hstop (.stopper (.acceptorsStopped rfl)) rfl
    have hflagged := leads_act hnone (.stopper (.stopReactor (i := 0) rfl)) rfl
    have hjoining := leads_act hflagged (.stopper (.notifyReactor (i := 0) rfl)) rfl
    have hheld : (servers 0 1 1 1).Passes ServerSystem.ClearsIdle (StopHeldUp 0 0) _ :=
      hjoining.passes ⟨⟨by decide, by decide⟩, .joinReactor (i := 0) rfl fun hexited =>
        absurd (show Loop.waiting = .exited from hexited) (by simp), rfl, by decide, by decide⟩
    -- the callback returns and the worker makes room
    have hrefused := passes_act hheld (.worker (w := 0) (.send rfl rfl (.request rfl))) rfl
    have hreturned := passes_act hrefused (.worker (w := 0) (.pool (.ret rfl rfl))) rfl
    have hwaiting := passes_act hreturned (.worker (w := 0) (.pool (.test rfl))) rfl
    have hcallback : ServerCallback.Starts (NetworkEvent.disconnected 2)
      ({ calls := [] } : ServerCallback 1) := rfl
    have htaken := passes_act hwaiting
      (.worker (w := 0) (.pool (.take rfl rfl rfl hcallback (.one 0 rfl rfl)))) rfl
    have hroom := passes_act htaken (.reactor (i := 0) (.dispatch (.enqueue rfl rfl rfl))) rfl
    have htold := passes_act hroom (.reactor (i := 0) (.dispatch (.notify rfl))) rfl
    have hlast := passes_act htold (.reactor (i := 0) (.turn rfl (.interrupted rfl))) rfl
    have hleft := passes_act hlast (.reactor (i := 0) (.turn rfl (.leave rfl (by decide)))) rfl
    have hjoined := passes_act hleft (.stopper (.joinReactor (i := 0) rfl rfl)) rfl
    have hall := passes_act hjoined (.stopper (.reactorsStopped rfl)) rfl
    have hcleared := hall.next (.actor .stopper (.stopper (.clearReactors rfl)))
      fun _ _ w callback remaining hcalling => by
        obtain rfl : w = 0 := Subsingleton.elim (α := Fin 1) w 0
        obtain ⟨rfl, -⟩ := WorkerPlace.calling.inj hcalling
        rfl
    have hpool := passes_act hcleared (.stopper (.stopPool rfl)) rfl
    have hqueue := passes_act hpool (.stopper (.stopQueue (w := 0) rfl)) rfl
    have hempty := passes_act hqueue (.stopper (.notifyNotEmpty (w := 0) rfl)) rfl
    have hfull := passes_act hempty (.stopper (.notifyNotFull (w := 0) rfl)) rfl
    have hqueues := passes_act hfull (.stopper (.queuesStopped rfl)) rfl
    exact ⟨_, hqueues, ⟨by decide, by decide⟩, rfl, .joinWorker (w := 0) rfl fun hexited =>
      absurd (show WorkerPlace.calling ({ calls := [] } : ServerCallback 1) false = .exited
        from hexited) (by simp)⟩
  · -- the callback is still in the reactor
    have hagain := leads_act hinside (.reactor (i := 0) (.turn rfl (.interrupted rfl))) rfl
    have hstop := leads_act hagain (.stopper (.stop rfl rfl)) rfl
    have hnone := leads_act hstop (.stopper (.acceptorsStopped rfl)) rfl
    have hflagged := leads_act hnone (.stopper (.stopReactor (i := 0) rfl)) rfl
    have hjoining := leads_act hflagged (.stopper (.notifyReactor (i := 0) rfl)) rfl
    have hleft := leads_act hjoining (.reactor (i := 0) (.turn rfl (.leave rfl (by decide)))) rfl
    have hjoined := leads_act hleft (.stopper (.joinReactor (i := 0) rfl rfl)) rfl
    have hall := leads_act hjoined (.stopper (.reactorsStopped rfl)) rfl
    obtain ⟨past, hrun, -⟩ := hall
    have hcleared := hrun.next (.actor .stopper (.stopper (.clearReactors rfl)))
    have hpool := hcleared.next (.actor .stopper (.stopper (.stopPool rfl)))
    have hqueue := hpool.next (.actor .stopper (.stopper (.stopQueue (w := 0) rfl)))
    have hempty := hqueue.next (.actor .stopper (.stopper (.notifyNotEmpty (w := 0) rfl)))
    have hfull := hempty.next (.actor .stopper (.stopper (.notifyNotFull (w := 0) rfl)))
    have hqueues := hfull.next (.actor .stopper (.stopper (.queuesStopped rfl)))
    exact ⟨_, _, hqueues, rfl, rfl, rfl, rfl, rfl⟩

end DarwinCore.Network
