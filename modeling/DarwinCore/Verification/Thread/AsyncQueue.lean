import DarwinCore.Library.Custody
import DarwinCore.Model.Thread.AsyncQueue

/-! # Every task is run once

Whoever changes the flag or the queue holds the mutex, so a worker that leaves has seen the queue
closed and empty, and a worker that waits has seen nothing to do. -/

namespace DarwinCore.Thread

open Monitor

variable {τ : Type*}

/-! ## Who holds the mutex -/

def SubmitPhase.holds : SubmitPhase τ → Bool
  | holding _ | pushed | refused => true
  | entering _ | notifying => false

def WorkerPhase.holds : WorkerPhase τ → Bool
  | testing | blocking | deciding | leaving | taken _ => true
  | executing _ p => p.any SubmitPhase.holds
  | entering | waiting | woken | calling _ | exited => false

def DestructorPhase.holds : DestructorPhase → Bool
  | holding | stored | notified => true
  | alive | entering | notifying | joining _ | returned => false

def QueueSystem.holds (s : QueueSystem τ) : QueueThread → Bool
  | .worker i => (s.workers i).holds
  | .submitter i => (s.submitters i).any SubmitPhase.holds
  | .destructor => s.destructor.holds

section LocalSteps

variable {me : QueueThread} {i : ℕ} {q q' : AsyncQueue τ}

theorem SubmitStep.mutex {p : SubmitPhase τ} {p' : Option (SubmitPhase τ)}
    (h : SubmitStep me q p q' p') :
    MutexStep me p.holds (p'.any SubmitPhase.holds) q.mutex q'.mutex := by
  cases h with
  | lock h => exact .acquire h rfl rfl
  | unlock => exact .release rfl rfl rfl
  | ret => exact .release rfl rfl rfl
  | _ => exact .keep rfl rfl

theorem WorkerStep.mutex {p p' : WorkerPhase τ} (h : WorkerStep i q p q' p') :
    MutexStep (.worker i) p.holds p'.holds q.mutex q'.mutex := by
  cases h with
  | lock h => exact .acquire h rfl rfl
  | relock h => exact .acquire h rfl rfl
  | wait => exact .release rfl rfl rfl
  | exit => exact .release rfl rfl rfl
  | unlock => exact .release rfl rfl rfl
  | _ => exact .keep rfl rfl

end LocalSteps

namespace QueueSystem

variable {s t : QueueSystem τ}

@[simp]
theorem setWorker_self {i : ℕ} {p : WorkerPhase τ} : (s.setWorker i p).workers i = p := by
  simp [setWorker]

private theorem setWorker_of_ne {i j : ℕ} {p : WorkerPhase τ} (h : j ≠ i) :
    (s.setWorker i p).workers j = s.workers j := by
  simp [setWorker, h]

theorem Notifies.eq_or {workers : ℕ → WorkerPhase τ} (h : s.Notifies workers) (i : ℕ) :
    workers i = s.workers i ∨ s.workers i = .waiting ∧ workers i = .woken :=
  NotifyOne.eq_or h i

private theorem owned_setWorker {i : ℕ} {p : WorkerPhase τ} {q : AsyncQueue τ}
    (h : Owned s.holds s.queue.mutex)
    (hstep : MutexStep (.worker i) (s.workers i).holds p.holds s.queue.mutex q.mutex) :
    Owned ((s.setQueue q).setWorker i p).holds q.mutex := by
  refine h.step (.worker i) ?_ fun thread hne => ?_
  · simpa [holds, setWorker] using hstep
  · cases thread with
    | worker j =>
      have hj : j ≠ i := fun hj => hne (congrArg _ hj)
      simp [holds, setWorker, setQueue, hj]
    | _ => rfl

private theorem owned_setSubmitter {i : ℕ} {p : Option (SubmitPhase τ)} {q : AsyncQueue τ}
    (h : Owned s.holds s.queue.mutex)
    (hstep : MutexStep (.submitter i) ((s.submitters i).any SubmitPhase.holds)
      (p.any SubmitPhase.holds) s.queue.mutex q.mutex) :
    Owned ((s.setQueue q).setSubmitter i p).holds q.mutex := by
  refine h.step (.submitter i) ?_ fun thread hne => ?_
  · simpa [holds, setSubmitter] using hstep
  · cases thread with
    | submitter j =>
      have hj : j ≠ i := fun hj => hne (congrArg _ hj)
      simp [holds, setSubmitter, setQueue, hj]
    | _ => rfl

private theorem owned_setDestructor {p : DestructorPhase} {q : AsyncQueue τ}
    (h : Owned s.holds s.queue.mutex)
    (hstep : MutexStep .destructor s.destructor.holds p.holds s.queue.mutex q.mutex) :
    Owned { s.setQueue q with destructor := p }.holds q.mutex := by
  refine h.step .destructor hstep fun thread hne => ?_
  cases thread with
  | destructor => exact absurd rfl hne
  | _ => rfl

theorem owned_notified {workers : ℕ → WorkerPhase τ} (h : Owned s.holds s.queue.mutex)
    (hworkers : ∀ i, (workers i).holds = (s.workers i).holds) :
    Owned (s.setWorkers workers).holds s.queue.mutex := by
  refine h.congr fun thread => ?_
  cases thread with
  | worker i => exact hworkers i
  | _ => rfl

theorem Notifies.holds {workers : ℕ → WorkerPhase τ} (h : s.Notifies workers) (i : ℕ) :
    (workers i).holds = (s.workers i).holds := by
  rcases h.eq_or i with hsame | ⟨hwaiting, hwoken⟩
  · rw [hsame]
  · rw [hwaiting, hwoken]
    rfl

theorem holds_notified (p : WorkerPhase τ) : p.notified.holds = p.holds := by
  cases p <;> rfl

/-- The mutex is held by the thread that stands where it is held. -/
theorem Step.owned (hstep : Step s t) (h : Owned s.holds s.queue.mutex) :
    Owned t.holds t.queue.mutex := by
  cases hstep with
  | callSubmit task hp => exact owned_setSubmitter h (.keep rfl (by rw [hp]; rfl))
  | serve hserve =>
    cases hserve with
    | work hi hwork => exact owned_setWorker h hwork.mutex
    | submit hp hsubmit => exact owned_setSubmitter h (by rw [hp]; exact hsubmit.mutex)
    | notify hp hnotify =>
      have hworkers := owned_notified h hnotify.holds
      exact owned_setSubmitter hworkers (.keep rfl (by simp [setWorkers, hp, SubmitPhase.holds]))
  | task htask =>
    cases htask with
    | call task hp => exact owned_setWorker h (.keep rfl (by rw [hp]; rfl))
    | submit hp hsubmit => exact owned_setWorker h (by rw [hp]; exact hsubmit.mutex)
    | @notify i t workers hp hnotify =>
      have hworkers := owned_notified h hnotify.holds
      have hi : (workers i).holds = false := by
        rw [hnotify.holds i, hp]
        rfl
      exact owned_setWorker hworkers (.keep rfl hi.symm)
    | finish hp => exact owned_setWorker h (.keep rfl (by rw [hp]; rfl))
  | destroy hdestroy =>
    cases hdestroy with
    | call hp => exact owned_setDestructor h (.keep rfl (by rw [hp]; rfl))
    | lock hp hfree => exact owned_setDestructor h (.acquire hfree rfl rfl)
    | store hp => exact owned_setDestructor h (.keep rfl (by rw [hp]; rfl))
    | notifyOne hp hnotify =>
      exact owned_setDestructor (owned_notified h hnotify.holds)
        (.keep rfl (by simp [setWorkers, hp, DestructorPhase.holds]))
    | unlock hp => exact owned_setDestructor h (.release (by rw [hp]; rfl) rfl rfl)
    | notifyAll hp =>
      exact owned_setDestructor (owned_notified h fun i => holds_notified (s.workers i))
        (.keep rfl (by simp [setWorkers, hp, DestructorPhase.holds]))
    | join hp hjoined hworker => exact owned_setDestructor h (.keep rfl (by rw [hp]; rfl))
    | ret hp => exact owned_setDestructor h (.keep rfl (by rw [hp]; rfl))

end QueueSystem

/-! ## What is known while the mutex is held -/

namespace AsyncQueue

variable {q q' : AsyncQueue τ}

def Closed (q : AsyncQueue τ) : Prop :=
  q.isRunning = false ∧ q.taskQueue = []

def Same (q q' : AsyncQueue τ) : Prop :=
  q'.isRunning = q.isRunning ∧ q'.taskQueue = q.taskQueue

theorem Same.ready (h : q.Same q') : q'.Ready ↔ q.Ready := by
  rw [Ready, Ready, h.1, h.2]

theorem Same.closed (h : q.Same q') (hclosed : q.Closed) : q'.Closed :=
  ⟨h.1.trans hclosed.1, h.2.trans hclosed.2⟩

/-- What a step of a thread does with the members: it changes them only with the mutex, and a
closed queue stays closed. -/
structure Change (held : Bool) (q q' : AsyncQueue τ) : Prop where
  same : held = false → q.Same q'
  closed : q.Closed → q'.Closed

theorem Same.change (h : q.Same q') (held : Bool) : Change held q q' :=
  ⟨fun _ => h, h.closed⟩

end AsyncQueue

def WorkerPhase.Knows (q : AsyncQueue τ) : WorkerPhase τ → Prop
  | blocking => ¬q.Ready
  | deciding => q.Ready
  | leaving | exited => q.Closed
  | _ => True

section LocalSteps

variable {me : QueueThread} {i : ℕ} {q q' : AsyncQueue τ}

theorem SubmitStep.change {p : SubmitPhase τ} {p' : Option (SubmitPhase τ)}
    (h : SubmitStep me q p q' p') : q.Change p.holds q' := by
  cases h with
  | push hrunning =>
    refine ⟨fun hheld => ?_, fun hclosed => ?_⟩
    · cases hheld
    · rw [hclosed.1] at hrunning
      cases hrunning
  | _ => exact AsyncQueue.Same.change (by constructor <;> rfl) _

theorem WorkerStep.change {p p' : WorkerPhase τ} (h : WorkerStep i q p q' p') :
    q.Change p.holds q' := by
  cases h with
  | pop hqueue =>
    refine ⟨fun hheld => ?_, fun hclosed => ?_⟩
    · cases hheld
    · rw [hclosed.2] at hqueue
      cases hqueue
  | _ => exact AsyncQueue.Same.change (by constructor <;> rfl) _

theorem WorkerStep.knows {p p' : WorkerPhase τ} (h : WorkerStep i q p q' p') (hp : p.Knows q) :
    p'.Knows q' := by
  cases h with
  | testTrue hready => exact hready
  | testFalse hready => exact hready
  | ignore hempty => exact ⟨(hp : q.Ready).resolve_right (not_not_intro hempty), hempty⟩
  | exit => exact hp
  | _ => trivial

theorem WorkerPhase.Knows.change {p : WorkerPhase τ} {held : Bool} (h : p.Knows q)
    (hchange : q.Change held q') (hp : p.holds = true → held = false) : p.Knows q' := by
  cases p with
  | blocking => exact fun hready => h ((hchange.same (hp rfl)).ready.mp hready)
  | deciding => exact (hchange.same (hp rfl)).ready.mpr h
  | leaving => exact hchange.closed h
  | exited => exact hchange.closed h
  | _ => trivial

end LocalSteps

/-- `isRunning` has been cleared. -/
def DestructorPhase.hasStored : DestructorPhase → Bool
  | alive | entering | holding => false
  | stored | notified | notifying | joining _ | returned => true

namespace QueueSystem

variable {s t : QueueSystem τ}

structure Informed (s : QueueSystem τ) : Prop where
  workers : ∀ i, (s.workers i).Knows s.queue
  stopped : s.queue.isRunning = !s.destructor.hasStored

theorem knows_of_change (howned : Owned s.holds s.queue.mutex) (h : Informed s)
    (me : QueueThread) {q : AsyncQueue τ} (hchange : s.queue.Change (s.holds me) q) (i : ℕ)
    (hi : .worker i ≠ me) : (s.workers i).Knows q := by
  refine (h.workers i).change hchange fun hheld => ?_
  rw [← Bool.not_eq_true]
  intro hme
  have hboth : QueueThread.worker i = me := howned.unique hheld hme
  exact hi hboth

private theorem informed_setWorker {i : ℕ} {p : WorkerPhase τ} {q : AsyncQueue τ}
    (howned : Owned s.holds s.queue.mutex) (h : Informed s)
    (hchange : s.queue.Change (s.workers i).holds q) (hrunning : q.isRunning = s.queue.isRunning)
    (hp : p.Knows q) : Informed ((s.setQueue q).setWorker i p) := by
  refine ⟨fun j => ?_, hrunning.trans h.stopped⟩
  by_cases hj : j = i
  · subst hj
    simpa [setWorker, setQueue] using hp
  · have hother := knows_of_change howned h (.worker i) hchange j (by simpa using hj)
    simpa [setWorker, setQueue, hj] using hother

private theorem informed_notified {workers : ℕ → WorkerPhase τ} (h : Informed s)
    (hworkers : ∀ i, workers i = s.workers i ∨ s.workers i = .waiting ∧ workers i = .woken) :
    Informed (s.setWorkers workers) := by
  refine ⟨fun i => ?_, h.stopped⟩
  rcases hworkers i with hsame | ⟨-, hwoken⟩
  · have hi := h.workers i
    rw [← hsame] at hi
    exact hi
  · have hi : (workers i).Knows s.queue := by
      rw [hwoken]
      trivial
    exact hi

theorem notified_eq_or (p : WorkerPhase τ) :
    p.notified = p ∨ p = .waiting ∧ p.notified = .woken := by
  cases p with
  | waiting => exact .inr ⟨rfl, rfl⟩
  | _ => exact .inl rfl

theorem SubmitStep.isRunning {me : QueueThread} {q q' : AsyncQueue τ} {p : SubmitPhase τ}
    {p' : Option (SubmitPhase τ)} (h : SubmitStep me q p q' p') :
    q'.isRunning = q.isRunning := by
  cases h <;> rfl

theorem WorkerStep.isRunning {i : ℕ} {q q' : AsyncQueue τ} {p p' : WorkerPhase τ}
    (h : WorkerStep i q p q' p') : q'.isRunning = q.isRunning := by
  cases h <;> rfl

/-- The destructor changes its place, and the flag where it stores to it. -/
theorem informed_setDestructor {p : DestructorPhase} {q : AsyncQueue τ}
    (howned : Owned s.holds s.queue.mutex) (h : Informed s)
    (hchange : s.queue.Change s.destructor.holds q) (hstopped : q.isRunning = !p.hasStored) :
    Informed { s.setQueue q with destructor := p } :=
  ⟨fun i => knows_of_change howned h .destructor hchange i (by simp), hstopped⟩

theorem Step.informed (hstep : Step s t) (howned : Owned s.holds s.queue.mutex)
    (h : Informed s) : Informed t := by
  have hsame : s.queue.Same s.queue := ⟨rfl, rfl⟩
  have hlock : s.queue.Same (s.queue.lock .destructor) := ⟨rfl, rfl⟩
  have hunlock : s.queue.Same s.queue.unlock := ⟨rfl, rfl⟩
  cases hstep with
  | callSubmit task hp => exact ⟨h.workers, h.stopped⟩
  | serve hserve =>
    cases hserve with
    | @work i q p hi hwork =>
      exact informed_setWorker howned h hwork.change (WorkerStep.isRunning hwork)
        (hwork.knows (h.workers i))
    | @submit i p q p' hp hsubmit =>
      have hchange : s.queue.Change (s.holds (.submitter i)) q := by
        simp only [QueueSystem.holds, hp]
        exact hsubmit.change
      exact ⟨fun j => knows_of_change howned h (.submitter i) hchange j (by simp),
        (SubmitStep.isRunning hsubmit).trans h.stopped⟩
    | notify hp hnotify =>
      have hworkers := informed_notified h hnotify.eq_or
      exact ⟨hworkers.workers, hworkers.stopped⟩
  | task htask =>
    cases htask with
    | call task hp => exact informed_setWorker howned h (hsame.change _) rfl trivial
    | submit hp hsubmit =>
      exact informed_setWorker howned h (by rw [hp]; exact hsubmit.change)
        (SubmitStep.isRunning hsubmit) trivial
    | @notify i t workers hp hnotify =>
      have howned' := owned_notified howned hnotify.holds
      have hworkers := informed_notified h hnotify.eq_or
      exact informed_setWorker howned' hworkers (hsame.change _) rfl trivial
    | finish hp => exact informed_setWorker howned h (hsame.change _) rfl trivial
  | destroy hdestroy =>
    have hstopped := h.stopped
    cases hdestroy with
    | call hp =>
      rw [hp] at hstopped
      exact informed_setDestructor howned h (hsame.change _) hstopped
    | lock hp hfree =>
      rw [hp] at hstopped
      exact informed_setDestructor howned h (hlock.change _) hstopped
    | store hp =>
      refine informed_setDestructor howned h ⟨fun hheld => ?_, fun hclosed => ?_⟩ rfl
      · rw [hp] at hheld
        cases hheld
      · exact ⟨rfl, hclosed.2⟩
    | notifyOne hp hnotify =>
      rw [hp] at hstopped
      exact informed_setDestructor (owned_notified howned hnotify.holds)
        (informed_notified h hnotify.eq_or) (hsame.change _) hstopped
    | unlock hp =>
      rw [hp] at hstopped
      exact informed_setDestructor howned h (hunlock.change _) hstopped
    | notifyAll hp =>
      rw [hp] at hstopped
      exact informed_setDestructor (owned_notified howned fun i => holds_notified (s.workers i))
        (informed_notified h fun i => notified_eq_or (s.workers i)) (hsame.change _) hstopped
    | join hp hjoined hworker =>
      rw [hp] at hstopped
      exact informed_setDestructor howned h (hsame.change _) hstopped
    | ret hp =>
      rw [hp] at hstopped
      exact informed_setDestructor howned h (hsame.change _) hstopped

end QueueSystem

/-! ## Where the tasks are -/

/-- The task that a worker has taken and not yet called. -/
def WorkerPhase.hand : WorkerPhase τ → Option ℕ
  | taken t | calling t => some t.number
  | _ => none

def AsyncQueue.waiting (q : AsyncQueue τ) : List ℕ :=
  q.taskQueue.map QueuedTask.number

namespace QueueSystem

variable {s t : QueueSystem τ}

/-- Every task that has been queued is in the queue, in the hand of one worker, or has been
called, and tasks are taken out as they were put in. -/
structure Accounted (s : QueueSystem τ) : Prop where
  custody : Custody (fun i => (s.workers i).hand) (s.queue.called ++ s.queue.waiting)
    s.queue.queued s.queue.queued
  order : s.queue.dequeued ++ s.queue.waiting = List.range s.queue.queued

theorem hands_setWorker (i : ℕ) (p : WorkerPhase τ) :
    (fun j => ((s.setWorker i p).workers j).hand) =
      Function.update (fun j => (s.workers j).hand) i p.hand := by
  funext j
  by_cases hj : j = i
  · subst hj
    simp [setWorker]
  · simp [setWorker, hj]

theorem Accounted.setWorker {i : ℕ} {p : WorkerPhase τ} (h : Accounted s)
    (hp : p.hand = (s.workers i).hand) : Accounted (s.setWorker i p) := by
  refine ⟨?_, h.order⟩
  rw [hands_setWorker, hp, Function.update_eq_self]
  exact h.custody

theorem Accounted.setWorkers {workers : ℕ → WorkerPhase τ} (h : Accounted s)
    (hworkers : ∀ i, workers i = s.workers i ∨ s.workers i = .waiting ∧ workers i = .woken) :
    Accounted (s.setWorkers workers) := by
  have hhand : (fun i => (workers i).hand) = fun i => (s.workers i).hand := by
    funext i
    rcases hworkers i with hsame | ⟨hwaiting, hwoken⟩
    · rw [hsame]
    · rw [hwaiting, hwoken]
      rfl
  refine ⟨?_, h.order⟩
  have hcustody := h.custody
  rw [← hhand] at hcustody
  exact hcustody

theorem Accounted.emplace {task : τ} (h : Accounted s) :
    Accounted (s.setQueue (s.queue.emplace task)) := by
  have hwaiting : (s.queue.emplace task).waiting = s.queue.waiting ++ [s.queue.queued] := by
    simp [AsyncQueue.waiting, AsyncQueue.emplace]
  refine ⟨?_, ?_⟩
  · have hperm : (s.queue.called ++ (s.queue.waiting ++ [s.queue.queued])).Perm
        (s.queue.queued :: (s.queue.called ++ s.queue.waiting)) := by
      rw [← List.append_assoc]
      exact List.perm_append_singleton _ _
    have hcustody := h.custody.create.perm hperm
    rw [← hwaiting] at hcustody
    exact hcustody
  · have horder : s.queue.dequeued ++ (s.queue.emplace task).waiting =
        List.range (s.queue.queued + 1) := by
      rw [hwaiting, ← List.append_assoc, h.order, List.range_succ]
    exact horder

theorem Accounted.submit {me : QueueThread} {p : SubmitPhase τ} {q : AsyncQueue τ}
    {p' : Option (SubmitPhase τ)} (h : Accounted s) (hstep : SubmitStep me s.queue p q p') :
    Accounted (s.setQueue q) := by
  cases hstep with
  | push hrunning => exact h.emplace
  | _ => exact ⟨h.custody, h.order⟩

theorem Accounted.work {i : ℕ} {q : AsyncQueue τ} {p : WorkerPhase τ} (h : Accounted s)
    (hstep : WorkerStep i s.queue (s.workers i) q p) :
    Accounted ((s.setQueue q).setWorker i p) := by
  generalize hphase : s.workers i = phase at hstep
  cases hstep with
  | @pop t rest hqueue =>
    have hwaiting : s.queue.waiting = t.number :: (s.queue.pop t rest).waiting := by
      simp [AsyncQueue.waiting, AsyncQueue.pop, hqueue]
    refine ⟨?_, ?_⟩
    · have hperm : (t.number :: (s.queue.called ++ (s.queue.pop t rest).waiting)).Perm
          (s.queue.called ++ s.queue.waiting) := by
        rw [hwaiting]
        exact List.perm_middle.symm
      have hcustody := (h.custody.perm hperm).take (i := i) (by rw [hphase]; rfl)
      rw [hands_setWorker]
      exact hcustody
    · have horder : (s.queue.dequeued ++ [t.number]) ++ (s.queue.pop t rest).waiting =
          List.range s.queue.queued := by
        rw [List.append_assoc, List.singleton_append, ← hwaiting, h.order]
      exact horder
  | @call t =>
    refine ⟨?_, h.order⟩
    have hperm : ((s.queue.called ++ [t.number]) ++ s.queue.waiting).Perm
        (t.number :: (s.queue.called ++ s.queue.waiting)) := by
      rw [List.append_assoc]
      exact List.perm_middle
    have hhand : (s.workers i).hand = some t.number := by
      rw [hphase]
      rfl
    have hcustody := (h.custody.give hhand).perm hperm
    rw [hands_setWorker]
    exact hcustody
  | _ =>
    have hhand := (congrArg WorkerPhase.hand hphase).symm
    refine Accounted.setWorker (s := s.setQueue _) ?_ hhand
    exact ⟨h.custody, h.order⟩

theorem Step.accounted (hstep : Step s t) (h : Accounted s) : Accounted t := by
  cases hstep with
  | callSubmit task hp => exact ⟨h.custody, h.order⟩
  | serve hserve =>
    cases hserve with
    | work hi hwork => exact h.work hwork
    | submit hp hsubmit =>
      have hqueue := h.submit hsubmit
      exact ⟨hqueue.custody, hqueue.order⟩
    | notify hp hnotify =>
      have hworkers := h.setWorkers hnotify.eq_or
      exact ⟨hworkers.custody, hworkers.order⟩
  | task htask =>
    cases htask with
    | call task hp => exact h.setWorker (by rw [hp]; rfl)
    | submit hp hsubmit =>
      exact (h.submit hsubmit).setWorker (by simp [setQueue, hp, WorkerPhase.hand])
    | @notify i t workers hp hnotify =>
      refine (h.setWorkers hnotify.eq_or).setWorker ?_
      have hsame : workers i = s.workers i := by
        rcases hnotify.eq_or i with hsame | ⟨hwaiting, -⟩
        · exact hsame
        · rw [hp] at hwaiting
          cases hwaiting
      simp [QueueSystem.setWorkers, hsame, hp, WorkerPhase.hand]
    | finish hp => exact h.setWorker (by rw [hp]; rfl)
  | destroy hdestroy =>
    cases hdestroy with
    | notifyOne hp hnotify =>
      have hworkers := h.setWorkers hnotify.eq_or
      exact ⟨hworkers.custody, hworkers.order⟩
    | notifyAll hp =>
      have hworkers := h.setWorkers fun i => notified_eq_or (s.workers i)
      exact ⟨hworkers.custody, hworkers.order⟩
    | _ => exact ⟨h.custody, h.order⟩

/-! ## The end -/

structure Joined (s : QueueSystem τ) : Prop where
  beyond : ∀ i, s.queue.queueSize ≤ i → s.workers i = .entering
  joining : ∀ joined, s.destructor = .joining joined → ∀ i < joined, s.workers i = .exited
  returned : s.destructor = .returned → ∀ i < s.queue.queueSize, s.workers i = .exited

theorem Joined.setWorker {i : ℕ} {p : WorkerPhase τ} (h : Joined s)
    (hbegun : i < s.queue.queueSize) (hexited : s.workers i ≠ .exited) :
    Joined (s.setWorker i p) := by
  refine ⟨fun j hj => ?_, fun joined hjoining j hj => ?_, fun hreturned j hj => ?_⟩
  · have hne : j ≠ i := fun heq => Nat.not_le_of_lt hbegun (heq ▸ hj)
    rw [setWorker_of_ne hne]
    exact h.beyond j hj
  · have hexit := h.joining joined hjoining j hj
    have hne : j ≠ i := fun heq => hexited (heq ▸ hexit)
    rw [setWorker_of_ne hne]
    exact hexit
  · have hexit := h.returned hreturned j hj
    have hne : j ≠ i := fun heq => hexited (heq ▸ hexit)
    rw [setWorker_of_ne hne]
    exact hexit

theorem Joined.setWorkers {workers : ℕ → WorkerPhase τ} (h : Joined s)
    (hworkers : ∀ i, workers i = s.workers i ∨ s.workers i = .waiting ∧ workers i = .woken) :
    Joined (s.setWorkers workers) := by
  have hkeep {i : ℕ} {p : WorkerPhase τ} (hi : s.workers i = p) (hp : p ≠ .waiting) :
      workers i = p := by
    rcases hworkers i with hsame | ⟨hwaiting, -⟩
    · exact hsame.trans hi
    · exact absurd (hi.symm.trans hwaiting) hp
  refine ⟨fun i hi => ?_, fun joined hjoining i hi => ?_, fun hreturned i hi => ?_⟩
  · exact hkeep (h.beyond i hi) (by simp)
  · exact hkeep (h.joining joined hjoining i hi) (by simp)
  · exact hkeep (h.returned hreturned i hi) (by simp)

theorem Joined.setQueue {q : AsyncQueue τ} (h : Joined s)
    (hsize : q.queueSize = s.queue.queueSize) : Joined (s.setQueue q) := by
  refine ⟨fun i hi => h.beyond i (hsize ▸ hi), h.joining, fun hreturned i hi => ?_⟩
  exact h.returned hreturned i (hsize ▸ hi)

theorem Joined.lt_of_executing {i : ℕ} {t : QueuedTask τ} {p : Option (SubmitPhase τ)}
    (h : Joined s) (hi : s.workers i = .executing t p) : i < s.queue.queueSize := by
  refine Nat.lt_of_not_le fun hle => ?_
  rw [h.beyond i hle] at hi
  cases hi

theorem SubmitStep.queueSize {me : QueueThread} {q q' : AsyncQueue τ} {p : SubmitPhase τ}
    {p' : Option (SubmitPhase τ)} (h : SubmitStep me q p q' p') : q'.queueSize = q.queueSize := by
  cases h <;> rfl

theorem WorkerStep.queueSize {i : ℕ} {q q' : AsyncQueue τ} {p p' : WorkerPhase τ}
    (h : WorkerStep i q p q' p') : q'.queueSize = q.queueSize := by
  cases h <;> rfl

theorem Step.queueSize (hstep : Step s t) : t.queue.queueSize = s.queue.queueSize := by
  cases hstep with
  | callSubmit task hp => rfl
  | serve hserve =>
    cases hserve with
    | work hi hwork => exact WorkerStep.queueSize hwork
    | submit hp hsubmit => exact SubmitStep.queueSize hsubmit
    | notify hp hnotify => rfl
  | task htask =>
    cases htask with
    | submit hp hsubmit => exact SubmitStep.queueSize hsubmit
    | _ => rfl
  | destroy hdestroy => cases hdestroy <;> rfl

theorem Step.joined (hstep : Step s t) (h : Joined s) : Joined t := by
  cases hstep with
  | callSubmit task hp => exact ⟨h.beyond, h.joining, h.returned⟩
  | serve hserve =>
    cases hserve with
    | work hi hwork =>
      refine (h.setQueue (WorkerStep.queueSize hwork)).setWorker ?_ fun hexited => ?_
      · exact (WorkerStep.queueSize hwork).symm ▸ hi
      · have hphase : s.workers _ = .exited := hexited
        rw [hphase] at hwork
        cases hwork
    | submit hp hsubmit =>
      have hqueue := h.setQueue (SubmitStep.queueSize hsubmit)
      exact ⟨hqueue.beyond, hqueue.joining, hqueue.returned⟩
    | notify hp hnotify =>
      have hworkers := h.setWorkers hnotify.eq_or
      exact ⟨hworkers.beyond, hworkers.joining, hworkers.returned⟩
  | task htask =>
    cases htask with
    | call task hp => exact h.setWorker (h.lt_of_executing hp) (by simp [hp])
    | submit hp hsubmit =>
      refine (h.setQueue (SubmitStep.queueSize hsubmit)).setWorker ?_ (by simp [setQueue, hp])
      exact (SubmitStep.queueSize hsubmit).symm ▸ h.lt_of_executing hp
    | @notify i t workers hp hnotify =>
      have hworkers := h.setWorkers hnotify.eq_or
      have hphase : workers i = .executing t (some .notifying) := by
        rcases hnotify.eq_or i with hsame | ⟨hwaiting, -⟩
        · exact hsame.trans hp
        · rw [hp] at hwaiting
          cases hwaiting
      exact hworkers.setWorker (hworkers.lt_of_executing hphase)
        (by simp [QueueSystem.setWorkers, hphase])
    | finish hp => exact h.setWorker (h.lt_of_executing hp) (by simp [hp])
  | destroy hdestroy =>
    cases hdestroy with
    | notifyOne hp hnotify =>
      have hworkers := h.setWorkers hnotify.eq_or
      exact ⟨hworkers.beyond, fun _ hj => (by cases hj), fun hr => (by cases hr)⟩
    | notifyAll hp =>
      have hworkers := h.setWorkers fun i => notified_eq_or (s.workers i)
      refine ⟨hworkers.beyond, fun joined hj i hi => ?_, fun hr => (by cases hr)⟩
      cases hj
      exact absurd hi (Nat.not_lt_zero i)
    | @join joined hp hjoined hworker =>
      refine ⟨h.beyond, fun joined' hj i hi => ?_, fun hr => (by cases hr)⟩
      cases hj
      rcases Nat.lt_succ_iff_lt_or_eq.mp hi with hlt | heq
      · exact h.joining joined hp i hlt
      · rw [heq]
        exact hworker
    | ret hp => exact ⟨h.beyond, fun _ hj => (by cases hj), fun _ => h.joining _ hp⟩
    | call hp => exact ⟨h.beyond, fun _ hj => (by cases hj), fun hr => (by cases hr)⟩
    | lock hp hfree => exact ⟨h.beyond, fun _ hj => (by cases hj), fun hr => (by cases hr)⟩
    | store hp => exact ⟨h.beyond, fun _ hj => (by cases hj), fun hr => (by cases hr)⟩
    | unlock hp => exact ⟨h.beyond, fun _ hj => (by cases hj), fun hr => (by cases hr)⟩

/-! ## Notifications -/

def Notifying (s : QueueSystem τ) : Prop :=
  (∃ i, s.submitters i = some .pushed ∨ s.submitters i = some .notifying) ∨
    s.destructor = .stored ∨ s.destructor = .notified ∨ s.destructor = .notifying

/-- All workers are blocked on the condition variable. -/
def AllWaiting (s : QueueSystem τ) : Prop :=
  ∀ i < s.queue.queueSize, s.workers i = .waiting

def signal (s : QueueSystem τ) : Signal where
  waiting := s.AllWaiting
  ready := s.queue.Ready
  coming := s.Notifying

theorem not_allWaiting {i : ℕ} (hi : i < s.queue.queueSize) (h : s.workers i ≠ .waiting) :
    ¬s.AllWaiting := fun hall => h (hall i hi)

theorem Notifies.not_allWaiting {workers : ℕ → WorkerPhase τ} (h : s.Notifies workers)
    (hsize : 0 < s.queue.queueSize) (hjoined : Joined s) : ¬(s.setWorkers workers).AllWaiting := by
  cases h with
  | nobody hnone hsame =>
    rw [hsame]
    exact QueueSystem.not_allWaiting hsize (hnone 0)
  | one i hi hwoken =>
    have hlt : i < s.queue.queueSize := by
      refine Nat.lt_of_not_le fun hle => ?_
      have hentering := hjoined.beyond i hle
      rw [hi] at hentering
      cases hentering
    refine QueueSystem.not_allWaiting (i := i) hlt ?_
    simp [QueueSystem.setWorkers, hwoken]

/-- A worker in a task does not wait, after the step of another thread neither. -/
theorem Step.signal (hstep : Step s t) (hsize : 0 < s.queue.queueSize) (hinformed : Informed s)
    (hjoined : Joined s) : Signal.Step s.signal t.signal := by
  cases hstep with
  | @callSubmit i task hp =>
    refine .other id id fun hcoming => ?_
    rcases hcoming with ⟨j, hj⟩ | hdestructor
    · have hne : j ≠ i := by
        rintro rfl
        simp [hp] at hj
      exact .inl ⟨j, by simpa [setSubmitter, hne] using hj⟩
    · exact .inr hdestructor
  | serve hserve =>
    cases hserve with
    | @work i q p hi hwork =>
      generalize hphase : s.workers i = phase at hwork
      cases hwork with
      | wait =>
        have hknown := hinformed.workers i
        rw [hphase] at hknown
        exact .wait hknown
      | _ => exact .notify (QueueSystem.not_allWaiting (i := i) hi (by simp))
    | @submit i p q p' hp hsubmit =>
      cases hsubmit with
      | push hrunning => exact .announce (.inl ⟨i, .inl (by simp [setSubmitter])⟩)
      | unlock => exact .announce (.inl ⟨i, .inr (by simp [setSubmitter])⟩)
      | _ =>
        refine .other id id fun hcoming => ?_
        rcases hcoming with ⟨j, hj⟩ | hdestructor
        · have hne : j ≠ i := by
            rintro rfl
            simp [hp] at hj
          exact .inl ⟨j, by simpa [setSubmitter, setQueue, hne] using hj⟩
        · exact .inr hdestructor
    | notify hp hnotify => exact .notify (hnotify.not_allWaiting hsize hjoined)
  | task htask =>
    cases htask with
    | call task hp =>
      exact .notify (QueueSystem.not_allWaiting (hjoined.lt_of_executing hp) (by simp))
    | @submit i t p q p' hp hsubmit =>
      refine .notify (QueueSystem.not_allWaiting (i := i) ?_ (by simp))
      exact (SubmitStep.queueSize hsubmit).symm ▸ hjoined.lt_of_executing hp
    | @notify i t workers hp hnotify =>
      exact .notify (QueueSystem.not_allWaiting (i := i) (hjoined.lt_of_executing hp) (by simp))
    | finish hp =>
      exact .notify (QueueSystem.not_allWaiting (hjoined.lt_of_executing hp) (by simp))
  | destroy hdestroy =>
    cases hdestroy with
    | store hp => exact .announce (.inr (.inl rfl))
    | notifyOne hp hnotify => exact .announce (.inr (.inr (.inl rfl)))
    | unlock hp => exact .announce (.inr (.inr (.inr rfl)))
    | notifyAll hp =>
      refine .notify (QueueSystem.not_allWaiting (i := 0) hsize ?_)
      show (s.workers 0).notified ≠ .waiting
      cases s.workers 0 <;> simp [WorkerPhase.notified]
    | _ =>
      rename_i hp
      refine .other id id fun hcoming => ?_
      rcases hcoming with hsubmitter | hdestructor
      · exact .inl hsubmitter
      · simp_all

/-! ## Every run -/

structure Sound (s : QueueSystem τ) : Prop where
  owned : Owned s.holds s.queue.mutex
  informed : Informed s
  accounted : Accounted s
  joined : Joined s
  attended : s.signal.Attended

theorem Step.sound (hstep : Step s t) (hsize : 0 < s.queue.queueSize) (h : Sound s) : Sound t where
  owned := hstep.owned h.owned
  informed := hstep.informed h.owned h.informed
  accounted := hstep.accounted h.accounted
  joined := hstep.joined h.joined
  attended := (hstep.signal hsize h.informed h.joined).attended h.attended

private theorem sound_init {queueSize : ℕ} (hsize : 0 < queueSize) :
    Sound ({ queue := { queueSize := queueSize } } : QueueSystem τ) where
  owned i := by cases i <;> simp [QueueSystem.holds, WorkerPhase.holds, DestructorPhase.holds]
  informed := ⟨fun _ => trivial, rfl⟩
  accounted := ⟨Custody.empty, rfl⟩
  joined := ⟨fun _ _ => rfl, fun _ h => (by cases h), fun h => (by cases h)⟩
  attended hwaiting := absurd (hwaiting 0 hsize) (by simp)

structure RunsTasksOnce (s : QueueSystem τ) : Prop where
  /-- Tasks are numbered as they are queued, and taken out in this order. -/
  inOrder : s.queue.dequeued ++ s.queue.taskQueue.map QueuedTask.number =
    List.range s.queue.queued
  notTwice : s.queue.called.Nodup
  /-- When the destructor returns, every task has been called, and every call has ended. -/
  all : s.destructor = .returned → s.queue.called.Perm (List.range s.queue.queued) ∧
    ∀ i < s.queue.queueSize, s.workers i = .exited
  notStranded : s.AllWaiting → s.queue.Ready → s.Notifying

theorem Sound.runsTasksOnce (hsize : 0 < s.queue.queueSize) (h : Sound s) : RunsTasksOnce s where
  inOrder := h.accounted.order
  notTwice := h.accounted.custody.nodup.of_append_left
  all hreturned := by
    have hexited := h.joined.returned hreturned
    have hclosed : s.queue.Closed := by
      have hknown := h.informed.workers 0
      rw [hexited 0 hsize] at hknown
      exact hknown
    have hhand (i : ℕ) : (s.workers i).hand = none := by
      rcases Nat.lt_or_ge i s.queue.queueSize with hlt | hge
      · rw [hexited i hlt]
        rfl
      · rw [h.joined.beyond i hge]
        rfl
    have hperm := h.accounted.custody.perm_range hhand
    rw [AsyncQueue.waiting, hclosed.2, List.map_nil, List.append_nil] at hperm
    exact ⟨hperm, hexited⟩
  notStranded := h.attended

end QueueSystem

/-- With at least one worker, tasks are taken out in order, none is run twice, all have been run
when the destructor returns, and workers that could go on are woken. -/
theorem tasks_run_once {queueSize : ℕ} (hsize : 0 < queueSize) {states : List (QueueSystem τ)}
    (h : (asyncQueues τ queueSize).Run states) : ∀ s ∈ states, s.RunsTasksOnce := by
  have hinvariant : ∀ s ∈ states, s.queue.queueSize = queueSize ∧ s.Sound := by
    refine h.invariant (fun s hinit => ?_) fun s t hs hstep => ?_
    · obtain rfl : s = _ := hinit
      exact ⟨rfl, QueueSystem.sound_init hsize⟩
    · have hlt : 0 < s.queue.queueSize := hs.1.symm ▸ hsize
      exact ⟨(QueueSystem.Step.queueSize hstep).trans hs.1, QueueSystem.Step.sound hstep hlt hs.2⟩
  intro s hs
  obtain ⟨hsame, hsound⟩ := hinvariant s hs
  exact hsound.runsTasksOnce (hsame.symm ▸ hsize)

section Check

variable {s t : QueueSystem ℕ} {seen : QueueSystem ℕ → Prop}

private theorem leads_serve (h : (asyncQueues ℕ 1).Leads (fun _ _ => True) s)
    (hstep : s.ServeStep t) :
    (asyncQueues ℕ 1).Leads (fun _ _ => True) t :=
  h.next (.serve hstep) trivial

private theorem passes_serve (h : (asyncQueues ℕ 1).Passes (fun _ _ => True) seen s)
    (hstep : s.ServeStep t) : (asyncQueues ℕ 1).Passes (fun _ _ => True) seen t :=
  h.next (.serve hstep) trivial

private theorem passes_destroy (h : (asyncQueues ℕ 1).Passes (fun _ _ => True) seen s)
    (hstep : s.DestroyStep t) : (asyncQueues ℕ 1).Passes (fun _ _ => True) seen t :=
  h.next (.destroy hstep) trivial

/-- The one worker waits, is notified of a task, runs it and waits again, until the destructor
wakes it. -/
theorem tasks_run_once_queued : ∃ states, (asyncQueues ℕ 1).Run states ∧
    (∃ s ∈ states, s.AllWaiting ∧ s.queue.taskQueue ≠ [] ∧ s.Notifying) ∧
    (∃ s ∈ states, s.destructor = .returned ∧ s.queue.called = [0] ∧
      s.queue.called.Perm (List.range s.queue.queued)) ∧ ∀ s ∈ states, s.RunsTasksOnce := by
  have hempty {q : AsyncQueue ℕ} (hq : q.taskQueue = []) (hrunning : q.isRunning = true) :
      ¬q.Ready := by
    simp [AsyncQueue.Ready, hq, hrunning]
  have hstart : (asyncQueues ℕ 1).Leads (fun _ _ => True) { queue := { queueSize := 1 } } :=
    .start rfl
  have hentered := leads_serve hstart (.work (i := 0) (by decide) (.lock rfl))
  have htested := leads_serve hentered (.work (i := 0) (by decide) (.testFalse (hempty rfl rfl)))
  have hwaiting := leads_serve htested (.work (i := 0) (by decide) .wait)
  have hcalled := hwaiting.next (.callSubmit (i := 0) 7 rfl) trivial
  have hlocked := leads_serve hcalled (.submit (i := 0) rfl (.lock rfl))
  have hpushed := leads_serve hlocked (.submit (i := 0) rfl (.push rfl))
  have hunlocked := leads_serve hpushed (.submit (i := 0) rfl .unlock)
  -- the only worker waits, and the submitter is about to wake it
  have hseen : (asyncQueues ℕ 1).Passes (fun _ _ => True)
      (fun s => s.AllWaiting ∧ s.queue.taskQueue ≠ [] ∧ s.Notifying) _ :=
    hunlocked.passes ⟨fun i hi => (Nat.lt_one_iff.mp hi).symm ▸ rfl, List.cons_ne_nil _ _,
      .inl ⟨0, .inr rfl⟩⟩
  have hnotified := passes_serve hseen (.notify (i := 0) rfl (.one 0 rfl rfl))
  have hrelocked := passes_serve hnotified (.work (i := 0) (by decide) (.relock rfl))
  have hready := passes_serve hrelocked (.work (i := 0) (by decide)
    (.testTrue (.inr (List.cons_ne_nil _ _))))
  have htaken := passes_serve hready (.work (i := 0) (by decide) (.pop rfl))
  have hcalling := passes_serve htaken (.work (i := 0) (by decide) .unlock)
  have hrunning := passes_serve hcalling (.work (i := 0) (by decide) .call)
  have hfinished := hrunning.next (.task (.finish (i := 0) rfl)) trivial
  have hagain := passes_serve hfinished (.work (i := 0) (by decide) (.lock rfl))
  have hnothing := passes_serve hagain (.work (i := 0) (by decide) (.testFalse (hempty rfl rfl)))
  have hasleep := passes_serve hnothing (.work (i := 0) (by decide) .wait)
  have hdestroy := passes_destroy hasleep (.call rfl)
  have hholding := passes_destroy hdestroy (.lock rfl rfl)
  have hstored := passes_destroy hholding (.store rfl)
  have hwoken := passes_destroy hstored (.notifyOne rfl (.one 0 rfl rfl))
  have hreleased := passes_destroy hwoken (.unlock rfl)
  have hall := passes_destroy hreleased (.notifyAll rfl)
  have hawake := passes_serve hall (.work (i := 0) (by decide) (.relock rfl))
  have hstopped := passes_serve hawake (.work (i := 0) (by decide) (.testTrue (.inl rfl)))
  have hleaving := passes_serve hstopped (.work (i := 0) (by decide) (.ignore rfl))
  have hexited := passes_serve hleaving (.work (i := 0) (by decide) .exit)
  have hjoined := passes_destroy hexited (.join rfl Nat.one_pos rfl)
  obtain ⟨past, hrun, -, s, hs, hpending⟩ := passes_destroy hjoined (.ret rfl)
  have hsound := tasks_run_once Nat.one_pos hrun
  exact ⟨_, hrun, ⟨s, hs, hpending⟩,
    ⟨_, List.mem_cons_self, rfl, rfl, ((hsound _ List.mem_cons_self).all rfl).1⟩, hsound⟩

end Check

end DarwinCore.Thread
