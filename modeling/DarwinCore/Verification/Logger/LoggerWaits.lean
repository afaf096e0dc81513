import DarwinCore.Verification.Logger.AsyncLogger

/-! # No thread of the logger waits for ever

Each condition variable is attended as long as the notification of `stop` does not come between
the worker's test and its wait, and `flush` makes no room behind the back of those who wait for
it. -/

namespace DarwinCore.Log

open Monitor

namespace LoggerSystem

variable {α : Type*} {s t : LoggerSystem α}

/-! ## The queue -/

def Pops (s t : LoggerSystem α) : Prop :=
  (∃ i entry, s.callers i = .flushing .holding ∧ t.callers i = .flushing (.popped entry)) ∨
    s.stopper = .flushing .holding ∧ ∃ entry, t.stopper = .flushing (.popped entry)

inductive QueueStep (s t : LoggerSystem α) : Prop where
  | same (hqueue : t.logger.queue = s.logger.queue)
  | push {i : ℕ} {entry : α} (hroom : ¬s.logger.isFull)
      (hqueue : t.logger.queue = s.logger.queue ++ [entry])
      (hcaller : t.callers i = .logging .pushed)
  | pop {entry : α} (hqueue : s.logger.queue = entry :: t.logger.queue) (hpops : Pops s t)
  | take (hlogger : t.logger = s.logger.takeBatch)
      (hworker : t.worker = .taken s.logger.batch s.logger.wasFull)

theorem Step.queue (hstep : Step s t) : QueueStep s t := by
  cases hstep with
  | @log i p l p' hp hlog =>
    rcases hlog.effect with ⟨-, hroom, rfl, entry, hqueue⟩ | ⟨hqueue, -⟩ | ⟨hqueue, -⟩
    · exact .push hroom hqueue setCaller_self
    · exact .same hqueue
    · exact .same hqueue
  | @flush i p l p' hp hflush =>
    rcases hflush.effect with hqueue | ⟨entry, rfl, rfl, hqueue⟩
    · exact .same hqueue
    · exact .pop hqueue (.inl ⟨i, entry, hp, setCaller_self⟩)
  | @stopFlush p l p' hp hflush =>
    rcases hflush.effect with hqueue | ⟨entry, rfl, rfl, hqueue⟩
    · exact .same hqueue
    · exact .pop hqueue (.inr ⟨hp, entry, rfl⟩)
  | work hwork =>
    rcases hwork.effect with ⟨-, rfl, rfl⟩ | ⟨hqueue, -⟩ | ⟨hqueue, -⟩
    · exact .take rfl rfl
    · exact .same hqueue
    · exact .same hqueue
  | _ => exact .same rfl

theorem Step.maxQueueSize (hstep : Step s t) :
    t.logger.maxQueueSize = s.logger.maxQueueSize := by
  cases hstep with
  | log hp hlog => exact hlog.frame.1
  | flush hp hflush => exact hflush.frame.1
  | stopFlush hp hflush => exact hflush.frame.1
  | work hwork => exact hwork.frame.1
  | _ => rfl

/-- Who changes the queue holds the mutex then, and is not about to wait. -/
theorem QueueStep.holder (h : QueueStep s t) :
    t.logger.queue = s.logger.queue ∨ ∃ me, t.holds me = true ∧
      (∀ i, me = .caller i → (t.callers i).blocks = false) ∧
      (me = .worker → t.worker ≠ .blocking) := by
  cases h with
  | same hqueue => exact .inl hqueue
  | @push i entry hroom hqueue hcaller =>
    refine .inr ⟨.caller i, ?_, ?_, by simp⟩
    · rw [holds, hcaller]
      rfl
    · rintro j ⟨⟩
      rw [hcaller]
      rfl
  | pop hqueue hpops =>
    rcases hpops with ⟨i, entry, -, hcaller⟩ | ⟨-, entry, hstopper⟩
    · refine .inr ⟨.caller i, ?_, ?_, by simp⟩
      · rw [holds, hcaller]
        rfl
      · rintro j ⟨⟩
        rw [hcaller]
        rfl
    · refine .inr ⟨.stopper, ?_, by simp, by simp⟩
      rw [holds, hstopper]
      rfl
  | take hlogger hworker =>
    refine .inr ⟨.worker, ?_, by simp, ?_⟩
    · rw [holds, hworker]
      rfl
    · rw [hworker]
      simp

/-! ## Where a thread is after a step -/

inductive CallerStep (s t : LoggerSystem α) (i : ℕ) : Prop where
  | stays (hcaller : t.callers i = s.callers i)
  | calls (hidle : s.callers i = .idle) (hcaller : (t.callers i).waits = false ∧
      (t.callers i).blocks = false)
  | logs {p : LogPhase α} {p' : Option (LogPhase α)} (hp : s.callers i = .logging p)
      (hlog : LogStep (.caller i) s.logger p t.logger p') (hcaller : t.callers i = .ofLog p')
  | logNotifies (hp : s.callers i = .logging .notifying) (hcaller : t.callers i = .idle)
      (hworker : t.worker = s.worker.notified)
  | flushes {p : FlushPhase α} (hp : s.callers i = .flushing p) {p' : Option (FlushPhase α)}
      (hcaller : t.callers i = .ofFlush p')
  | isNotified (hcaller : t.callers i = (s.callers i).notified)

theorem Step.caller (hstep : Step s t) (i : ℕ) : CallerStep s t i := by
  cases hstep with
  | @callLog j entry hp =>
    by_cases hi : i = j
    · subst hi
      exact .calls hp (by rw [setCaller_self]; exact ⟨rfl, rfl⟩)
    · exact .stays (setCaller_of_ne hi)
  | @callFlush j hp =>
    by_cases hi : i = j
    · subst hi
      exact .calls hp (by rw [setCaller_self]; exact ⟨rfl, rfl⟩)
    · exact .stays (setCaller_of_ne hi)
  | @log j p l p' hp hlog =>
    by_cases hi : i = j
    · subst hi
      exact .logs hp hlog setCaller_self
    · exact .stays (setCaller_of_ne hi)
  | @logNotify j hp =>
    by_cases hi : i = j
    · subst hi
      exact .logNotifies hp setCaller_self rfl
    · exact .stays (setCaller_of_ne hi)
  | @flush j p l p' hp hflush =>
    by_cases hi : i = j
    · subst hi
      exact .flushes hp setCaller_self
    · exact .stays (setCaller_of_ne hi)
  | workNotify hp => exact .isNotified rfl
  | _ => exact .stays rfl

inductive WorkerMove (s t : LoggerSystem α) : Prop where
  | stays (hworker : t.worker = s.worker)
  | works (hwork : WorkerStep s.logger s.worker t.logger t.worker)
  | isNotified (hworker : t.worker = s.worker.notified)
  | notifies {batch : List α} (hp : s.worker = .notifying batch)
      (hworker : t.worker = .writing batch) (hcallers : ∀ i, t.callers i = (s.callers i).notified)

theorem Step.worker (hstep : Step s t) : WorkerMove s t := by
  cases hstep with
  | logNotify hp => exact .isNotified rfl
  | stopNotify hp => exact .isNotified rfl
  | work hwork => exact .works hwork
  | workNotify hp => exact .notifies hp rfl fun _ => rfl
  | _ => exact .stays rfl

theorem waits_notified (p : CallPhase α) : p.notified.waits = false := by
  unfold CallPhase.notified
  split
  · rfl
  · rename_i h
    unfold CallPhase.waits
    split
    · exact absurd rfl (h _)
    · rfl

private theorem blocks_notified (p : CallPhase α) : p.notified.blocks = p.blocks := by
  unfold CallPhase.notified
  split <;> rfl

private theorem announces_notified (p : CallPhase α) : p.notified.announces = p.announces := by
  unfold CallPhase.notified
  split <;> rfl

theorem worker_notified_ne (p : WorkerPhase α) : p.notified ≠ .waiting := by
  cases p <;> simp [WorkerPhase.notified]

private theorem worker_announces_notified (p : WorkerPhase α) :
    p.notified.announces = p.announces := by
  cases p <;> rfl

/-- A caller that waits for room waited before, or it had found the queue full. -/
theorem Step.waits (hstep : Step s t) {i : ℕ} (h : (t.callers i).waits = true) :
    (s.callers i).waits = true ∨
      (s.callers i).blocks = true ∧ t.logger.queue = s.logger.queue := by
  cases hstep.caller i with
  | stays hcaller => exact .inl (hcaller ▸ h)
  | calls hidle hcaller => simp [hcaller.1] at h
  | logs hp hlog hcaller =>
    rw [hcaller] at h
    rcases hlog.effect with ⟨-, -, rfl, -⟩ | ⟨hqueue, entry, rfl, -⟩ | ⟨-, hwaits, -⟩
    · cases h
    · exact .inr ⟨by rw [hp]; rfl, hqueue⟩
    · rw [hwaits] at h
      cases h
  | logNotifies hp hcaller => simp [hcaller, CallPhase.waits] at h
  | @flushes p hp p' hcaller =>
    rw [hcaller] at h
    cases p' <;> cases h
  | isNotified hcaller =>
    rw [hcaller, waits_notified] at h
    cases h

theorem Step.blocks (hstep : Step s t) {i : ℕ} (h : (t.callers i).blocks = true) :
    (s.callers i).blocks = true ∨ s.logger.isFull := by
  cases hstep.caller i with
  | stays hcaller => exact .inl (hcaller ▸ h)
  | calls hidle hcaller => simp [hcaller.2] at h
  | logs hp hlog hcaller =>
    rw [hcaller] at h
    rcases hlog.effect with ⟨-, -, rfl, -⟩ | ⟨-, entry, -, rfl⟩ | ⟨-, -, hblocks, -⟩
    · cases h
    · cases h
    · exact .inr (hblocks h)
  | logNotifies hp hcaller => simp [hcaller, CallPhase.blocks] at h
  | @flushes p hp p' hcaller =>
    rw [hcaller] at h
    cases p' <;> cases h
  | isNotified hcaller =>
    rw [hcaller, blocks_notified] at h
    exact .inl h

theorem Step.announces (hstep : Step s t) {i : ℕ} (h : (s.callers i).announces = true) :
    (t.callers i).announces = true ∨ t.worker ≠ .waiting := by
  cases hstep.caller i with
  | stays hcaller => exact .inl (hcaller ▸ h)
  | calls hidle hcaller => simp [hidle, CallPhase.announces] at h
  | logs hp hlog hcaller =>
    rw [hp] at h
    rw [hcaller]
    rcases hlog.effect with ⟨-, -, rfl, -⟩ | ⟨-, entry, rfl, -⟩ | ⟨-, -, -, hannounces⟩
    · exact .inl rfl
    · cases h
    · exact .inl (hannounces h)
  | logNotifies hp hcaller hworker => exact .inr (hworker ▸ worker_notified_ne _)
  | flushes hp hcaller => simp [hp, CallPhase.announces] at h
  | isNotified hcaller =>
    rw [hcaller, announces_notified]
    exact .inl h

theorem Step.worker_waiting (hstep : Step s t) (h : t.worker = .waiting) :
    s.worker = .waiting ∨ s.worker = .blocking ∧ t.logger.queue = s.logger.queue := by
  cases hstep.worker with
  | stays hworker => exact .inl (hworker ▸ h)
  | works hwork =>
    rcases hwork.effect with ⟨-, -, hworker⟩ | ⟨hqueue, hblocking, -⟩ | ⟨-, hne, -⟩
    · rw [hworker] at h
      cases h
    · exact .inr ⟨hblocking, hqueue⟩
    · exact absurd h hne
  | isNotified hworker => exact absurd (hworker ▸ h) (worker_notified_ne _)
  | notifies hp hworker =>
    rw [hworker] at h
    cases h

theorem Step.worker_blocking (hstep : Step s t) (h : t.worker = .blocking) :
    s.worker = .blocking ∨ s.logger.queue = [] ∧ s.logger.running = true := by
  cases hstep.worker with
  | stays hworker => exact .inl (hworker ▸ h)
  | works hwork =>
    rcases hwork.effect with ⟨-, -, hworker⟩ | ⟨-, -, hworker⟩ | ⟨-, -, hblocking, -⟩
    · rw [hworker] at h
      cases h
    · rw [hworker] at h
      cases h
    · exact .inr (hblocking h)
  | isNotified hworker =>
    rw [hworker] at h
    cases hs : s.worker <;> rw [hs] at h <;> cases h
    exact .inl rfl
  | notifies hp hworker =>
    rw [hworker] at h
    cases h

/-- The worker notifies all who wait for room after a batch from a full queue. -/
theorem Step.worker_announces (hstep : Step s t) (h : s.worker.announces = true) :
    t.worker.announces = true ∨ ∀ i, (t.callers i).waits = false := by
  cases hstep.worker with
  | stays hworker => exact .inl (hworker ▸ h)
  | works hwork =>
    rcases hwork.effect with ⟨hp, -⟩ | ⟨-, hp, -⟩ | ⟨-, -, -, hannounces⟩
    · rw [hp] at h
      cases h
    · rw [hp] at h
      cases h
    · exact .inl (hannounces h)
  | isNotified hworker =>
    rw [hworker, worker_announces_notified]
    exact .inl h
  | notifies hp hworker hcallers =>
    right
    intro i
    rw [hcallers i, waits_notified]

theorem Step.running (hstep : Step s t) :
    t.logger.running = s.logger.running ∨ t.stopper = .notifying := by
  cases hstep with
  | log hp hlog => exact .inl hlog.frame.2
  | flush hp hflush => exact .inl hflush.frame.2
  | stopStore hp => exact .inr rfl
  | stopFlush hp hflush => exact .inl hflush.frame.2
  | work hwork => exact .inl hwork.frame.2
  | _ => exact .inl rfl

/-- `stop` notifies the worker. -/
theorem Step.stopper_notifying (hstep : Step s t) (h : s.stopper = .notifying) :
    t.stopper = .notifying ∨ t.stopper = .joining ∧ t.worker = s.worker.notified := by
  cases hstep with
  | stop hp => cases h.symm.trans hp
  | stopStore hp => exact .inl rfl
  | stopNotify hp => exact .inr ⟨rfl, rfl⟩
  | stopJoin hp => cases h.symm.trans hp
  | stopFlush hp => cases h.symm.trans hp
  | _ => exact .inl h

/-! ## Who is attended -/

/-- Those who are about to wait have the mutex, so what they have found stays true. -/
structure Consistent (s : LoggerSystem α) : Prop where
  owned : Owned s.holds s.logger.mutex
  bound : s.logger.queue.length ≤ s.logger.maxQueueSize.toNat
  full : ∀ i, (s.callers i).blocks = true → s.logger.isFull
  empty : s.worker = .blocking → s.logger.queue = []

private theorem holds_of_blocks {i : ℕ} (h : (s.callers i).blocks = true) :
    s.holds (.caller i) = true := by
  unfold CallPhase.blocks at h
  split at h
  · rename_i hp
    rw [holds, hp]
    rfl
  · cases h

theorem Consistent.step (h : Consistent s) (hstep : Step s t) : Consistent t := by
  have howned := hstep.owned h.owned
  have hmax := hstep.maxQueueSize
  refine ⟨howned, ?_, fun i hblocks => ?_, fun hblocking => ?_⟩
  · have hbound := h.bound
    rw [hmax]
    cases hstep.queue with
    | same hqueue => rwa [hqueue]
    | push hroom hqueue =>
      unfold AsyncLogger.isFull at hroom
      rw [hqueue, List.length_append, List.length_singleton]
      omega
    | pop hqueue =>
      rw [hqueue, List.length_cons] at hbound
      omega
    | take hlogger =>
      rw [hlogger, AsyncLogger.takeBatch, List.length_drop]
      omega
  · rcases hstep.queue.holder with hqueue | ⟨me, hme, hother, -⟩
    · have hfull : s.logger.isFull := (hstep.blocks hblocks).elim (h.full i) id
      unfold AsyncLogger.isFull at hfull ⊢
      rwa [hmax, hqueue]
    · have hsame := howned.unique hme (holds_of_blocks hblocks)
      rw [hother i hsame] at hblocks
      cases hblocks
  · rcases hstep.queue.holder with hqueue | ⟨me, hme, -, hother⟩
    · rw [hqueue]
      exact (hstep.worker_blocking hblocking).elim h.empty And.left
    · have hheld : t.holds .worker = true := by
        rw [holds, hblocking]
        rfl
      exact absurd hblocking (hother (howned.unique hme hheld))

def fullSignal (s : LoggerSystem α) : Signal where
  waiting := ∃ i, (s.callers i).waits = true
  ready := ¬s.logger.isFull
  coming := s.worker.announces = true

def entrySignal (s : LoggerSystem α) : Signal where
  waiting := s.worker = .waiting
  ready := s.logger.queue ≠ []
  coming := ∃ i, (s.callers i).announces = true

/-- The worker that waits for the end, or is about to, and `stop`. -/
def stopSignal (s : LoggerSystem α) : Signal where
  waiting := s.worker = .waiting ∨ s.worker = .blocking
  ready := s.logger.running = false
  coming := s.stopper = .notifying

/-- The notification of `stop` does not come between the test of the worker and its wait, and
`flush` takes an entry only if no caller waits for room or the worker is going to notify it. -/
def Proper (s t : LoggerSystem α) : Prop :=
  (s.stopper = .notifying → t.stopper = .joining → s.worker ≠ .blocking) ∧
    (Pops s t → s.fullSignal.waiting → s.fullSignal.coming)

theorem Step.full_signal (hstep : Step s t) (h : Consistent s) (hproper : Proper s t) :
    s.fullSignal.Step t.fullSignal := by
  have hmax := hstep.maxQueueSize
  by_cases hcoming : s.worker.announces = true → t.worker.announces = true
  · by_cases hwaits : ∀ i, (t.callers i).waits = true → (s.callers i).waits = true
    · have hsame : t.fullSignal.waiting → s.fullSignal.waiting :=
        fun ⟨i, hi⟩ => ⟨i, hwaits i hi⟩
      cases hstep.queue with
      | same hqueue =>
        refine .other hsame (fun hready hfull => hready ?_) hcoming
        unfold AsyncLogger.isFull at hfull ⊢
        rwa [hmax, hqueue]
      | push hroom => exact .other hsame (fun _ => hroom) hcoming
      | pop hqueue hpops =>
        by_cases hwaiting : s.fullSignal.waiting
        · exact .announce (hcoming (hproper.2 hpops hwaiting))
        · exact .notify fun hwaiting' => hwaiting (hsame hwaiting')
      | take hlogger hworker =>
        by_cases hfull : s.logger.isFull
        · refine .announce ?_
          rw [fullSignal, hworker, wasFull_of_isFull h.bound hfull]
          rfl
        · exact .other hsame (fun _ => hfull) hcoming
    · obtain ⟨i, hi⟩ := not_forall.mp hwaits
      rw [Classical.not_imp] at hi
      rcases hstep.waits hi.1 with hwaited | ⟨hblocks, hqueue⟩
      · exact absurd hwaited hi.2
      · refine .wait fun hready => hready ?_
        have hfull := h.full i hblocks
        unfold AsyncLogger.isFull at hfull ⊢
        rwa [hmax, hqueue]
  · rw [Classical.not_imp] at hcoming
    rcases hstep.worker_announces hcoming.1 with hannounces | hnobody
    · exact absurd hannounces hcoming.2
    · refine .notify fun ⟨i, hi⟩ => ?_
      rw [hnobody i] at hi
      cases hi

theorem Step.entry_signal (hstep : Step s t) (h : Consistent s) :
    s.entrySignal.Step t.entrySignal := by
  by_cases hwaiting : t.worker = .waiting
  · rcases hstep.worker_waiting hwaiting with hwaited | ⟨hblocking, hqueue⟩
    · have hcoming : s.entrySignal.coming → t.entrySignal.coming := by
        rintro ⟨i, hi⟩
        exact ⟨i, (hstep.announces hi).resolve_right fun hne => hne hwaiting⟩
      cases hstep.queue with
      | same hqueue =>
        exact .other (fun _ => hwaited) (fun hready hnil => hready (hqueue.trans hnil)) hcoming
      | @push i entry hroom hqueue hcaller =>
        refine .announce ⟨i, ?_⟩
        rw [hcaller]
        rfl
      | pop hqueue hpops =>
        refine .other (fun _ => hwaited) (fun _ => ?_) hcoming
        rw [entrySignal, hqueue]
        simp
      | take hlogger hworker =>
        rw [hworker] at hwaiting
        cases hwaiting
    · refine .wait fun hready => hready ?_
      rw [hqueue, h.empty hblocking]
  · exact .notify hwaiting

theorem Step.stop_signal (hstep : Step s t) (hproper : Proper s t) :
    s.stopSignal.Step t.stopSignal := by
  rcases hstep.running with hrunning | hannounce
  · by_cases hcoming : s.stopper = .notifying
    · rcases hstep.stopper_notifying hcoming with hstays | ⟨hjoining, hworker⟩
      · exact .announce hstays
      · refine .notify fun hwaiting => ?_
        have hne := hproper.1 hcoming hjoining
        rcases hwaiting with hwaiting | hblocking
        · exact worker_notified_ne _ (hworker ▸ hwaiting)
        · rcases hstep.worker_blocking hblocking with hblocked | hblocked
          · exact hne hblocked
          · rw [hworker] at hblocking
            cases hs : s.worker <;> rw [hs] at hblocking <;> cases hblocking
            exact hne hs
    · by_cases hready : s.logger.running = false
      · refine .other (fun hwaiting => ?_) (fun _ => hready) fun h => absurd h hcoming
        rcases hwaiting with hwaiting | hblocking
        · exact (hstep.worker_waiting hwaiting).imp_right And.left
        · refine .inr ((hstep.worker_blocking hblocking).resolve_right fun hblocked => ?_)
          rw [hready] at hblocked
          cases hblocked.2
      · exact .wait fun hready' => hready (hrunning.symm.trans hready')
  · exact .announce hannounce

/-! ## Nobody is stranded -/

/-- The worker waits on `condition_` although it could go on, and nobody is about to notify it. -/
def WorkerStranded (s : LoggerSystem α) : Prop :=
  s.worker = .waiting ∧ (s.logger.queue ≠ [] ∨ s.logger.running = false) ∧
    (∀ i, (s.callers i).announces = false) ∧ s.stopper ≠ .notifying

/-- A caller waits on `fullCondition_` although there is room, and the worker is not about to
notify it. -/
def CallerStranded (s : LoggerSystem α) : Prop :=
  (∃ i, (s.callers i).waits = true) ∧ ¬s.logger.isFull ∧ s.worker.announces = false

structure AllAttended (s : LoggerSystem α) : Prop where
  consistent : Consistent s
  full : s.fullSignal.Attended
  entry : s.entrySignal.Attended
  stop : s.stopSignal.Attended

theorem AllAttended.step (h : AllAttended s) (hstep : Step s t) (hproper : Proper s t) :
    AllAttended t where
  consistent := h.consistent.step hstep
  full := (hstep.full_signal h.consistent hproper).attended h.full
  entry := (hstep.entry_signal h.consistent).attended h.entry
  stop := (hstep.stop_signal hproper).attended h.stop

theorem AllAttended.init (maxQueueSize : UInt64) (blockWhenFull : Bool) :
    AllAttended { logger := { maxQueueSize, blockWhenFull } : LoggerSystem α } where
  consistent := by
    refine ⟨fun thread => ?_, Nat.zero_le _, fun i h => ?_, fun h => ?_⟩
    · cases thread <;> simp [holds, CallPhase.holds, StopPhase.holds, WorkerPhase.holds]
    · cases h
    · cases h
  full := by
    rintro ⟨i, hi⟩
    cases hi
  entry := by
    intro hwaiting
    cases hwaiting
  stop := by
    rintro (hwaiting | hblocking)
    · cases hwaiting
    · cases hblocking

theorem AllAttended.not_stranded (h : AllAttended s) :
    ¬WorkerStranded s ∧ ¬CallerStranded s := by
  constructor
  · rintro ⟨hwaiting, hready, hcallers, hstopper⟩
    rcases hready with hqueue | hrunning
    · obtain ⟨i, hi⟩ := h.entry hwaiting hqueue
      rw [hcallers i] at hi
      cases hi
    · exact hstopper (h.stop (.inl hwaiting) hrunning)
  · rintro ⟨hwaiting, hroom, hworker⟩
    have hcoming : s.worker.announces = true := h.full hwaiting hroom
    rw [hworker] at hcoming
    cases hcoming

end LoggerSystem

open LoggerSystem

/-- In a run of proper steps nobody is left waiting. -/
theorem no_thread_stranded {α : Type*} {maxQueueSize : UInt64} {blockWhenFull : Bool}
    {states : List (LoggerSystem α)} (hrun : (loggers α maxQueueSize blockWhenFull).Run states)
    (hproper : ∀ s t, [t, s] <:+: states → Proper s t) :
    ∀ s ∈ states, ¬WorkerStranded s ∧ ¬CallerStranded s := by
  have hattended : ∀ s ∈ states, AllAttended s :=
    hrun.invariant_along (fun s hs => hs ▸ AllAttended.init maxQueueSize blockWhenFull)
      (fun s t h hstep hst => h.step hstep hst) hproper
  exact fun s hs => (hattended s hs).not_stranded

section Check

def smallLogger (blockWhenFull : Bool) : LoggerSystem ℕ where
  logger := { maxQueueSize := 1, blockWhenFull }

/-- A run of proper steps that comes past what is to be `seen`, and in which nobody calls `flush`,
leads to `s`. -/
def Calm (seen : LoggerSystem ℕ → Prop) (s : LoggerSystem ℕ) : Prop :=
  (loggers ℕ 1 true).Passes Proper seen s ∧ ∀ i p, s.callers i ≠ .flushing p

variable {seen seen' : LoggerSystem ℕ → Prop} {s t : LoggerSystem ℕ}

theorem Calm.look (h : Calm seen s) (hs : seen' s) : Calm seen' s := by
  obtain ⟨⟨past, hrun, hall, -⟩, hcallers⟩ := h
  exact ⟨⟨past, hrun, hall, s, List.mem_cons_self, hs⟩, hcallers⟩

theorem Calm.next (h : Calm seen s) (hstep : Step s t)
    (hcallers : ∀ i p, t.callers i = .flushing p → s.callers i = .flushing p)
    (hnotified : s.stopper = .notifying → s.worker ≠ .blocking)
    (hpopped : ∀ entry, t.stopper ≠ .flushing (.popped entry)) : Calm seen t := by
  refine ⟨h.1.next hstep ⟨fun hs _ => hnotified hs, fun hpops => ?_⟩, fun i p hp => ?_⟩
  · rcases hpops with ⟨i, entry, hs, -⟩ | ⟨-, entry, ht⟩
    · exact absurd hs (h.2 i _)
    · exact absurd ht (hpopped entry)
  · exact h.2 i p (hcallers i p hp)

private theorem setCaller_keeps {i : ℕ} {c : CallPhase ℕ} (hc : ∀ p, c ≠ .flushing p) (j : ℕ)
    (p : FlushPhase ℕ) (h : (s.setCaller i c).callers j = .flushing p) :
    s.callers j = .flushing p := by
  by_cases hj : j = i
  · obtain rfl := hj
    exact absurd (setCaller_self.symm.trans h) (hc p)
  · rwa [setCaller_of_ne hj] at h

private theorem notified_keeps (callers : ℕ → CallPhase ℕ) (i : ℕ) (p : FlushPhase ℕ)
    (h : (callers i).notified = .flushing p) : callers i = .flushing p := by
  unfold CallPhase.notified at h
  split at h
  · cases h
  · exact h

/-- While the worker waits, an entry is logged; another one waits for room until the worker, who has
been notified, has taken the first; and then the logger is stopped. -/
theorem no_thread_stranded_stopped : ∃ states, (loggers ℕ 1 true).Run states ∧
    (∃ s ∈ states, s.worker = .woken ∧ s.callers 1 = .logging (.waiting 2)) ∧
    (∃ s ∈ states, s.stopper = .returned ∧ s.logger.written = [1, 2]) ∧
    ∀ s ∈ states, ¬WorkerStranded s ∧ ¬CallerStranded s := by
  have hstart : Calm (fun _ => True) (smallLogger true) :=
    ⟨TransitionSystem.Leads.passes (.start rfl) trivial, nofun⟩
  -- the worker waits
  have hentered := hstart.next (.work (.running rfl)) (fun _ _ => id) nofun nofun
  have hlocked := hentered.next (.work (.lock rfl)) (fun _ _ => id) nofun nofun
  have htested := hlocked.next (.work (.testFalse rfl rfl)) (fun _ _ => id) nofun nofun
  have hwaiting := htested.next (.work .wait) (fun _ _ => id) nofun nofun
  -- the first entry
  have hcalled := hwaiting.next (.callLog (i := 0) 1 rfl) (setCaller_keeps nofun) nofun nofun
  have hrunning := hcalled.next (.log (i := 0) rfl (.running rfl))
    (setCaller_keeps nofun) nofun nofun
  have hholding := hrunning.next (.log (i := 0) rfl (.lock rfl)) (setCaller_keeps nofun) nofun nofun
  have hpushed := hholding.next (.log (i := 0) rfl (.room (by decide))) (setCaller_keeps nofun)
    nofun nofun
  have hfree := hpushed.next (.log (i := 0) rfl .unlock) (setCaller_keeps nofun) nofun nofun
  have hnotified := hfree.next (.logNotify (i := 0) rfl) (setCaller_keeps nofun) nofun nofun
  -- the second entry has to wait for room
  have hcalled' := hnotified.next (.callLog (i := 1) 2 rfl) (setCaller_keeps nofun) nofun nofun
  have hrunning' := hcalled'.next (.log (i := 1) rfl (.running rfl)) (setCaller_keeps nofun)
    nofun nofun
  have hholding' := hrunning'.next (.log (i := 1) rfl (.lock rfl))
    (setCaller_keeps nofun) nofun nofun
  have hfull := hholding'.next (.log (i := 1) rfl (.full (by decide) rfl)) (setCaller_keeps nofun)
    nofun nofun
  have hblocking := hfull.next (.log (i := 1) rfl (.testFalse (by decide))) (setCaller_keeps nofun)
    nofun nofun
  have hfullWait := hblocking.next (.log (i := 1) rfl .wait) (setCaller_keeps nofun) nofun nofun
  have hseen : Calm (fun s => s.worker = .woken ∧ s.callers 1 = .logging (.waiting 2)) _ :=
    hfullWait.look ⟨rfl, rfl⟩
  -- the worker takes the first one and notifies
  have hrelocked := hseen.next (.work (.relock rfl)) (fun _ _ => id) nofun nofun
  have htaking := hrelocked.next (.work (.testTrue (.inl (by decide)))) (fun _ _ => id) nofun nofun
  have htaken := htaking.next (.work .take) (fun _ _ => id) nofun nofun
  have hunlocked := htaken.next (.work .unlockFull) (fun _ _ => id) nofun nofun
  have htold := hunlocked.next (.workNotify rfl) (notified_keeps _) nofun nofun
  have hwritten := htold.next (.work .write) (fun _ _ => id) nofun nofun
  have hdone := hwritten.next (.work .done) (fun _ _ => id) nofun nofun
  -- the second one finds room
  have hwoken := hdone.next (.log (i := 1) rfl (.relock rfl)) (setCaller_keeps nofun) nofun nofun
  have hroom := hwoken.next (.log (i := 1) rfl (.testTrue (by decide))) (setCaller_keeps nofun)
    nofun nofun
  have hfree' := hroom.next (.log (i := 1) rfl .unlock) (setCaller_keeps nofun) nofun nofun
  have hnotified' := hfree'.next (.logNotify (i := 1) rfl) (setCaller_keeps nofun) nofun nofun
  -- the end
  have hstopping := hnotified'.next (.stop rfl) (fun _ _ => id) nofun nofun
  have hstored := hstopping.next (.stopStore rfl) (fun _ _ => id) nofun nofun
  have hjoining := hstored.next (.stopNotify rfl) (fun _ _ => id) (fun _ => nofun) nofun
  have hchecking := hjoining.next (.work (.notRunning rfl)) (fun _ _ => id) nofun nofun
  have hmore := hchecking.next (.work (.more (by decide))) (fun _ _ => id) nofun nofun
  have hlast := hmore.next (.work (.lock rfl)) (fun _ _ => id) nofun nofun
  have htaking' := hlast.next (.work (.testTrue (.inr rfl))) (fun _ _ => id) nofun nofun
  have htaken' := htaking'.next (.work .take) (fun _ _ => id) nofun nofun
  have hunlocked' := htaken'.next (.work .unlockFull) (fun _ _ => id) nofun nofun
  have htold' := hunlocked'.next (.workNotify rfl) (notified_keeps _) nofun nofun
  have hwritten' := htold'.next (.work .write) (fun _ _ => id) nofun nofun
  have hdone' := hwritten'.next (.work .done) (fun _ _ => id) nofun nofun
  have hchecking' := hdone'.next (.work (.notRunning rfl)) (fun _ _ => id) nofun nofun
  have hexited := hchecking'.next (.work (.exit rfl)) (fun _ _ => id) nofun nofun
  have hjoined := hexited.next (.stopJoin rfl rfl) (fun _ _ => id) nofun nofun
  have hflushing := hjoined.next (.stopFlush rfl (.lock rfl)) (fun _ _ => id) nofun nofun
  have hflushed := hflushing.next (.stopFlush rfl (.finish rfl)) (fun _ _ => id) nofun nofun
  obtain ⟨⟨past, hrun, hproper, hwaits⟩, -⟩ :=
    hflushed.next (.stopFlush rfl .ret) (fun _ _ => id) nofun nofun
  exact ⟨_, hrun, hwaits, ⟨_, List.mem_cons_self, rfl, rfl⟩, no_thread_stranded hrun hproper⟩

/-- The worker has found neither an entry nor the end; `stop` sets the flag and notifies; only
then does the worker wait, and `stop` waits for it. -/
theorem stop_strands_worker : ∃ states, (loggers ℕ 1 false).Run states ∧
    ∃ s ∈ states, WorkerStranded s := by
  have hstart : (loggers ℕ 1 false).Run [smallLogger false] := .start rfl
  have hentered := hstart.next (Step.work (.running rfl))
  have hlocked := hentered.next (Step.work (.lock rfl))
  have htested := hlocked.next (Step.work (.testFalse rfl rfl))
  have hstop := htested.next (Step.stop rfl)
  have hstored := hstop.next (Step.stopStore rfl)
  have hnotified := hstored.next (Step.stopNotify rfl)
  have hwaits := hnotified.next (Step.work .wait)
  refine ⟨_, hwaits, _, List.mem_cons_self, rfl, .inr rfl, fun i => rfl, ?_⟩
  intro h
  cases h

end Check

end DarwinCore.Log
