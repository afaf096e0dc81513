import DarwinCore.Library.Locks
import DarwinCore.Model.Logger.AsyncLogger

/-! # Who waits for whom in the logger

The worker waits for entries and for the end, the callers of `log` for room. A push and the store
of `stop` are followed by a notification, and so is a batch from a full queue. What `flush` takes
is not, and the notification of `stop` can come before the wait it is meant for. -/

namespace DarwinCore.Log

open Monitor

variable {α : Type*}

/-! ## Who holds the mutex -/

def FlushPhase.holds : FlushPhase α → Bool
  | holding | popped _ | flushed => true
  | entering | writing _ => false

def LogPhase.holds : LogPhase α → Bool
  | holding _ | testing _ | blocking _ | pushed | dropped => true
  | starting _ | direct _ | entering _ | waiting _ | woken _ | notifying => false

def CallPhase.holds : CallPhase α → Bool
  | idle => false
  | logging p => p.holds
  | flushing p => p.holds

def StopPhase.holds : StopPhase α → Bool
  | flushing p => p.holds
  | starting | storing | notifying | joining | returned => false

def WorkerPhase.holds : WorkerPhase α → Bool
  | testing | blocking | taking | taken _ _ => true
  | looping | checking | entering | waiting | woken | notifying _ | writing _ | exited => false

def LoggerSystem.holds (s : LoggerSystem α) : LoggerThread → Bool
  | .worker => s.worker.holds
  | .stopper => s.stopper.holds
  | .caller i => (s.callers i).holds

@[simp]
theorem CallPhase.holds_notified (p : CallPhase α) : p.notified.holds = p.holds := by
  unfold notified
  split <;> rfl

@[simp]
theorem WorkerPhase.holds_notified (p : WorkerPhase α) : p.notified.holds = p.holds := by
  cases p <;> rfl

@[simp]
theorem CallPhase.holds_ofFlush (p : Option (FlushPhase α)) :
    (CallPhase.ofFlush p).holds = p.any FlushPhase.holds := by
  cases p <;> rfl

@[simp]
theorem StopPhase.holds_ofFlush (p : Option (FlushPhase α)) :
    (StopPhase.ofFlush p).holds = p.any FlushPhase.holds := by
  cases p <;> rfl

section LocalSteps

variable {me : LoggerThread} {l l' : AsyncLogger α}

theorem FlushStep.mutex {p : FlushPhase α} {p' : Option (FlushPhase α)}
    (h : FlushStep me l p l' p') :
    MutexStep me p.holds (p'.any FlushPhase.holds) l.mutex l'.mutex := by
  cases h with
  | lock h => exact .acquire h rfl rfl
  | unlock => exact .release rfl rfl rfl
  | ret => exact .release rfl rfl rfl
  | _ => exact .keep rfl rfl

theorem LogStep.mutex {p : LogPhase α} {p' : Option (LogPhase α)} (h : LogStep me l p l' p') :
    MutexStep me p.holds (CallPhase.ofLog p').holds l.mutex l'.mutex := by
  cases h with
  | lock h => exact .acquire h rfl rfl
  | relock h => exact .acquire h rfl rfl
  | wait => exact .release rfl rfl rfl
  | unlock => exact .release rfl rfl rfl
  | ret => exact .release rfl rfl rfl
  | _ => exact .keep rfl rfl

theorem WorkerStep.mutex {p p' : WorkerPhase α} (h : WorkerStep l p l' p') :
    MutexStep .worker p.holds p'.holds l.mutex l'.mutex := by
  cases h with
  | lock h => exact .acquire h rfl rfl
  | relock h => exact .acquire h rfl rfl
  | wait => exact .release rfl rfl rfl
  | unlockFull => exact .release rfl rfl rfl
  | unlock => exact .release rfl rfl rfl
  | _ => exact .keep rfl rfl

end LocalSteps

namespace LoggerSystem

variable {s t : LoggerSystem α}

@[simp]
theorem setCaller_self {i : ℕ} {p : CallPhase α} : (s.setCaller i p).callers i = p := by
  simp [setCaller]

theorem setCaller_of_ne {i j : ℕ} {p : CallPhase α} (h : j ≠ i) :
    (s.setCaller i p).callers j = s.callers j := by
  simp [setCaller, h]

private theorem owned_setCaller {i : ℕ} {p : CallPhase α} {l : AsyncLogger α}
    (h : Owned s.holds s.logger.mutex)
    (hstep : MutexStep (.caller i) (s.callers i).holds p.holds s.logger.mutex l.mutex) :
    Owned ((s.setLogger l).setCaller i p).holds l.mutex := by
  refine h.step (.caller i) ?_ fun thread hne => ?_
  · simpa only [holds, setCaller_self] using hstep
  · cases thread with
    | caller j =>
      have hj : j ≠ i := fun hj => hne (congrArg _ hj)
      simp only [holds, setCaller_of_ne hj]
      rfl
    | _ => rfl

private theorem owned_setStopper {p : StopPhase α} {l : AsyncLogger α}
    (h : Owned s.holds s.logger.mutex)
    (hstep : MutexStep .stopper s.stopper.holds p.holds s.logger.mutex l.mutex) :
    Owned { s.setLogger l with stopper := p }.holds l.mutex := by
  refine h.step .stopper hstep fun thread hne => ?_
  cases thread with
  | stopper => exact absurd rfl hne
  | _ => rfl

private theorem owned_setWorker {p : WorkerPhase α} {l : AsyncLogger α}
    (h : Owned s.holds s.logger.mutex)
    (hstep : MutexStep .worker s.worker.holds p.holds s.logger.mutex l.mutex) :
    Owned { s.setLogger l with worker := p }.holds l.mutex := by
  refine h.step .worker hstep fun thread hne => ?_
  cases thread with
  | worker => exact absurd rfl hne
  | _ => rfl

/-- The mutex is held by the thread that stands where it is held. -/
theorem Step.owned (hstep : Step s t) (h : Owned s.holds s.logger.mutex) :
    Owned t.holds t.logger.mutex := by
  cases hstep with
  | callLog entry hp => exact owned_setCaller h (.keep rfl (by rw [hp]; rfl))
  | callFlush hp => exact owned_setCaller h (.keep rfl (by rw [hp]; rfl))
  | log hp hlog => exact owned_setCaller h (hp ▸ hlog.mutex)
  | @logNotify i hp =>
    have hcaller : Owned (s.setCaller i .idle).holds s.logger.mutex :=
      owned_setCaller h (.keep rfl (by rw [hp]; rfl))
    exact owned_setWorker hcaller (.keep rfl (by simp [setCaller]))
  | flush hp hflush =>
    refine owned_setCaller h ?_
    rw [hp, CallPhase.holds_ofFlush]
    exact hflush.mutex
  | stop hp =>
    refine owned_setStopper h (.keep rfl ?_)
    rw [hp]
    split <;> rfl
  | stopStore hp => exact owned_setStopper h (.keep rfl (by rw [hp]; rfl))
  | stopNotify hp =>
    have hstopper : Owned { s with stopper := .joining }.holds s.logger.mutex :=
      owned_setStopper h (.keep rfl (by rw [hp]; rfl))
    exact owned_setWorker hstopper (.keep rfl (by simp))
  | stopJoin hp hworker => exact owned_setStopper h (.keep rfl (by rw [hp]; rfl))
  | stopFlush hp hflush =>
    refine owned_setStopper h ?_
    rw [hp, StopPhase.holds_ofFlush]
    exact hflush.mutex
  | work hwork => exact owned_setWorker h hwork.mutex
  | @workNotify batch hp =>
    have hworker : Owned { s with worker := .writing batch }.holds s.logger.mutex :=
      owned_setWorker h (.keep rfl (by rw [hp]; rfl))
    refine hworker.congr fun thread => ?_
    cases thread with
    | caller i => exact CallPhase.holds_notified _
    | _ => rfl

end LoggerSystem

/-! ## What the steps do -/

/-- It waits for room and has not been notified. -/
def CallPhase.waits : CallPhase α → Bool
  | logging (.waiting _) => true
  | _ => false

/-- It has found the queue full and is about to wait. -/
def CallPhase.blocks : CallPhase α → Bool
  | logging (.blocking _) => true
  | _ => false

/-- It has pushed an entry and is going to notify the worker. -/
def CallPhase.announces : CallPhase α → Bool
  | logging .pushed | logging .notifying => true
  | _ => false

/-- It has taken a batch from a full queue and is going to notify those who wait for room. -/
def WorkerPhase.announces : WorkerPhase α → Bool
  | taken _ true | notifying _ => true
  | _ => false

section Effects

variable {me : LoggerThread} {l l' : AsyncLogger α}

theorem wasFull_of_isFull (hbound : l.queue.length ≤ l.maxQueueSize.toNat) (h : l.isFull) :
    l.wasFull = true := by
  have hbatch : l.batch.length ≤ l.queue.length := by
    rw [AsyncLogger.batch, List.length_take]
    exact Nat.min_le_right _ _
  have hnat : (UInt64.ofNat l.batch.length).toNat = l.batch.length :=
    UInt64.toNat_ofNat_of_lt
      (Nat.lt_of_le_of_lt (Nat.le_trans hbatch hbound) l.maxQueueSize.toNat_lt_size)
  have hle : UInt64.ofNat l.batch.length ≤ l.maxQueueSize := by
    rw [UInt64.le_iff_toNat_le, hnat]
    omega
  unfold AsyncLogger.isFull at h
  unfold AsyncLogger.wasFull
  rw [decide_eq_true_iff, UInt64.toNat_sub_of_le _ _ hle, hnat]
  simp only [AsyncLogger.takeBatch, AsyncLogger.batch, List.length_drop, List.length_take]
  omega

theorem FlushStep.frame {p : FlushPhase α} {p' : Option (FlushPhase α)}
    (h : FlushStep me l p l' p') :
    l'.maxQueueSize = l.maxQueueSize ∧ l'.running = l.running := by
  cases h <;> exact ⟨rfl, rfl⟩

theorem FlushStep.effect {p : FlushPhase α} {p' : Option (FlushPhase α)}
    (h : FlushStep me l p l' p') :
    l'.queue = l.queue ∨
      ∃ entry, p = .holding ∧ p' = some (.popped entry) ∧ l.queue = entry :: l'.queue := by
  cases h with
  | pop h => exact .inr ⟨_, rfl, rfl, h⟩
  | _ => exact .inl rfl

theorem LogStep.frame {p : LogPhase α} {p' : Option (LogPhase α)} (h : LogStep me l p l' p') :
    l'.maxQueueSize = l.maxQueueSize ∧ l'.running = l.running := by
  cases h <;> exact ⟨rfl, rfl⟩

theorem LogStep.effect {p : LogPhase α} {p' : Option (LogPhase α)} (h : LogStep me l p l' p') :
    (p.holds = true ∧ ¬l.isFull ∧ p' = some .pushed ∧ ∃ entry, l'.queue = l.queue ++ [entry]) ∨
      (l'.queue = l.queue ∧ ∃ entry, p = .blocking entry ∧ p' = some (.waiting entry)) ∨
      (l'.queue = l.queue ∧ (CallPhase.ofLog p').waits = false ∧
        ((CallPhase.ofLog p').blocks = true → l.isFull) ∧
        ((CallPhase.logging p).announces = true → (CallPhase.ofLog p').announces = true)) := by
  cases h with
  | room h => exact .inl ⟨rfl, h, rfl, _, rfl⟩
  | testTrue h => exact .inl ⟨rfl, h, rfl, _, rfl⟩
  | wait => exact .inr (.inl ⟨rfl, _, rfl, rfl⟩)
  | testFalse h => exact .inr (.inr ⟨rfl, rfl, fun _ => h, id⟩)
  | _ => exact .inr (.inr ⟨rfl, rfl, by simp [CallPhase.ofLog, CallPhase.blocks], id⟩)

theorem WorkerStep.frame {p p' : WorkerPhase α} (h : WorkerStep l p l' p') :
    l'.maxQueueSize = l.maxQueueSize ∧ l'.running = l.running := by
  cases h <;> exact ⟨rfl, rfl⟩

/-- It takes a batch, it starts to wait, or nothing changes for the others. -/
theorem WorkerStep.effect {p p' : WorkerPhase α} (h : WorkerStep l p l' p') :
    (p = .taking ∧ l' = l.takeBatch ∧ p' = .taken l.batch l.wasFull) ∨
      (l'.queue = l.queue ∧ p = .blocking ∧ p' = .waiting) ∨
      (l'.queue = l.queue ∧ p' ≠ .waiting ∧
        (p' = .blocking → l.queue = [] ∧ l.running = true) ∧
        (p.announces = true → p'.announces = true)) := by
  cases h with
  | take => exact .inl ⟨rfl, rfl, rfl⟩
  | wait => exact .inr (.inl ⟨rfl, rfl, rfl⟩)
  | testFalse h hrunning => exact .inr (.inr ⟨rfl, by simp, fun _ => ⟨h, hrunning⟩, id⟩)
  | _ => exact .inr (.inr ⟨rfl, by simp, by simp, id⟩)

end Effects

end DarwinCore.Log
