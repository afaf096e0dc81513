import DarwinCore.Verification.Logger.LoggerWaits
import DarwinCore.Verification.Logger.Record
import Mathlib.Algebra.BigOperators.Group.Finset.Basic
import Mathlib.Algebra.Order.Group.Multiset
import Mathlib.Tactic.Abel

/-! # The logger loses nothing

The worker, `flush` and `stop` take entries out of one queue and write them without the mutex. As
long as the entries are written in the order in which they are taken, and a `flush` ends only when
all that have been taken are written, nothing is lost nor out of order. -/

namespace DarwinCore.Log

open Monitor

variable {α : Type*}

/-! ## What an event is about -/

/-- The entry of a call of `log` that has done nothing with it yet. -/
def CallPhase.pending : CallPhase α → Multiset α
  | logging (.starting entry) | logging (.direct entry) | logging (.entering entry)
  | logging (.holding entry) | logging (.testing entry) | logging (.blocking entry)
  | logging (.waiting entry) | logging (.woken entry) => {entry}
  | _ => 0

def FlushPhase.hand : FlushPhase α → List α
  | popped entry | writing entry => [entry]
  | _ => []

def CallPhase.hand : CallPhase α → List α
  | flushing p => p.hand
  | _ => []

def StopPhase.hand : StopPhase α → List α
  | flushing p => p.hand
  | _ => []

def WorkerPhase.hand : WorkerPhase α → List α
  | taken batch _ | notifying batch | writing batch => batch
  | _ => []

/-- The entries that a thread has taken and not written. -/
def LoggerSystem.hand (s : LoggerSystem α) : LoggerThread → List α
  | .worker => s.worker.hand
  | .stopper => s.stopper.hand
  | .caller i => (s.callers i).hand

namespace LogEvent

def QueueStep : LogEvent α → List α → List α → Prop
  | queued entry, q, q' => q' = q ++ [entry]
  | took _ entries, q, q' => q = entries ++ q'
  | _, q, q' => q' = q

def given : LogEvent α → List α
  | direct entry | passed _ entry => [entry]
  | _ => []

def drops : LogEvent α → ℕ
  | dropped _ => 1
  | _ => 0

/-- What happens to what a thread has taken. -/
def HandStep (me : LoggerThread) : LogEvent α → List α → List α → Prop
  | took who entries, h, h' => if me = who then h = [] ∧ h' = entries else h' = h
  | passed who entry, h, h' => if me = who then h = entry :: h' else h' = h
  | _, h, h' => h' = h

/-- What happens to the entry of the call that takes the step. -/
def PendingStep : LogEvent α → Multiset α → Multiset α → Prop
  | called entry, m, m' => m = 0 ∧ m' = {entry}
  | queued entry, m, m' | dropped entry, m, m' | direct entry, m, m' => m = {entry} ∧ m' = 0
  | _, m, m' => m' = m

end LogEvent

/-! ## The steps of one thread -/

section LocalSteps

variable {me : LoggerThread} {l l' : AsyncLogger α}

theorem LogStep.event {p : LogPhase α} {p' : Option (LogPhase α)} (h : LogStep me l p l' p') :
    (p.event p').QueueStep l.queue l'.queue ∧ l'.written = l.written ++ (p.event p').given ∧
      l'.droppedCount = l.droppedCount + (p.event p').drops ∧
      (p.event p').PendingStep (CallPhase.logging p).pending (CallPhase.ofLog p').pending ∧
      ∀ (who : LoggerThread) (hand : List α), (p.event p').HandStep who hand hand := by
  cases h with
  | direct => exact ⟨rfl, rfl, rfl, ⟨rfl, rfl⟩, fun _ _ => rfl⟩
  | room h => exact ⟨rfl, (List.append_nil _).symm, rfl, ⟨rfl, rfl⟩, fun _ _ => rfl⟩
  | testTrue h => exact ⟨rfl, (List.append_nil _).symm, rfl, ⟨rfl, rfl⟩, fun _ _ => rfl⟩
  | drop h hblock => exact ⟨rfl, (List.append_nil _).symm, rfl, ⟨rfl, rfl⟩, fun _ _ => rfl⟩
  | _ => exact ⟨rfl, (List.append_nil _).symm, rfl, rfl, fun _ _ => rfl⟩

theorem FlushStep.event {p : FlushPhase α} {p' : Option (FlushPhase α)}
    (h : FlushStep me l p l' p') :
    (p.event me p').QueueStep l.queue l'.queue ∧ l'.written = l.written ++ (p.event me p').given ∧
      l'.droppedCount = l.droppedCount + (p.event me p').drops ∧
      (p.event me p').HandStep me p.hand ((p'.map FlushPhase.hand).getD []) ∧
      ∀ (who : LoggerThread) (hand : List α), who ≠ me →
      (p.event me p').HandStep who hand hand := by
  cases h with
  | pop h =>
    exact ⟨h, (List.append_nil _).symm, rfl, by simp [FlushPhase.event, LogEvent.HandStep,
      FlushPhase.hand], fun who hand hne => by simp [FlushPhase.event, LogEvent.HandStep, hne]⟩
  | write =>
    exact ⟨rfl, rfl, rfl, by simp [FlushPhase.event, LogEvent.HandStep, FlushPhase.hand],
      fun who hand hne => by simp [FlushPhase.event, LogEvent.HandStep, hne]⟩
  | _ => exact ⟨rfl, (List.append_nil _).symm, rfl, rfl, fun _ _ _ => rfl⟩

theorem WorkerStep.event {p p' : WorkerPhase α} (h : WorkerStep l p l' p') :
    (p.event p').QueueStep l.queue l'.queue ∧ l'.written = l.written ++ (p.event p').given ∧
      l'.droppedCount = l.droppedCount + (p.event p').drops ∧
      (p.event p').HandStep .worker p.hand p'.hand ∧
      ∀ (who : LoggerThread) (hand : List α), who ≠ .worker →
      (p.event p').HandStep who hand hand := by
  cases h with
  | take =>
    exact ⟨(List.take_append_drop 100 l.queue).symm, (List.append_nil _).symm, rfl,
      by simp [WorkerPhase.event, LogEvent.HandStep, WorkerPhase.hand],
      fun who hand hne => by simp [WorkerPhase.event, LogEvent.HandStep, hne]⟩
  | write =>
    exact ⟨rfl, rfl, rfl, by simp [WorkerPhase.event, LogEvent.HandStep, WorkerPhase.hand],
      fun who hand hne => by simp [WorkerPhase.event, LogEvent.HandStep, hne]⟩
  | _ => exact ⟨rfl, (List.append_nil _).symm, rfl, rfl, fun _ _ _ => rfl⟩

theorem FlushStep.pending {p : FlushPhase α} {p' : Option (FlushPhase α)}
    (h : FlushStep me l p l' p') (m : Multiset α) : (p.event me p').PendingStep m m := by
  cases h <;> rfl

theorem WorkerStep.pending {p p' : WorkerPhase α} (h : WorkerStep l p l' p') (m : Multiset α) :
    (p.event p').PendingStep m m := by
  cases h <;> rfl

theorem LogStep.ne_flushing {p : LogPhase α} {p' : Option (LogPhase α)}
    (h : LogStep me l p l' p') (i : ℕ) : p.event p' ≠ .flushing i := by
  cases h <;> simp [LogPhase.event]

theorem FlushStep.ne_flushing {p : FlushPhase α} {p' : Option (FlushPhase α)}
    (h : FlushStep me l p l' p') (i : ℕ) : p.event me p' ≠ .flushing i := by
  cases h <;> simp [FlushPhase.event]

theorem WorkerStep.ne_flushing {p p' : WorkerPhase α} (h : WorkerStep l p l' p') (i : ℕ) :
    p.event p' ≠ .flushing i := by
  cases h <;> simp [WorkerPhase.event]

theorem WorkerStep.ne_queued {p p' : WorkerPhase α} (h : WorkerStep l p l' p') (entry : α) :
    p.event p' ≠ .queued entry := by
  cases h <;> simp [WorkerPhase.event]

theorem WorkerStep.ne_stopped {p p' : WorkerPhase α} (h : WorkerStep l p l' p') :
    p.event p' ≠ .stopped := by
  cases h <;> simp [WorkerPhase.event]

/-- A `flush` ends when it finds the queue empty. -/
theorem FlushStep.flushed {p : FlushPhase α} (h : FlushStep me l p l' (some .flushed)) :
    p.event me (some .flushed) = .ended me ∧ l.queue = [] := by
  cases h with
  | finish h => exact ⟨rfl, h⟩

end LocalSteps

namespace LoggerSystem

variable {s t : LoggerSystem α} {e : LogEvent α}

/-! ## The steps of the logger -/

/-- What the event of a step says about the queue, the sink and the counter. -/
theorem Does.logger (h : Does s e t) :
    e.QueueStep s.logger.queue t.logger.queue ∧
      t.logger.written = s.logger.written ++ e.given ∧
      t.logger.droppedCount = s.logger.droppedCount + e.drops := by
  cases h with
  | log hp hstep => exact ⟨hstep.event.1, hstep.event.2.1, hstep.event.2.2.1⟩
  | flush hp hstep => exact ⟨hstep.event.1, hstep.event.2.1, hstep.event.2.2.1⟩
  | stopFlush hp hstep => exact ⟨hstep.event.1, hstep.event.2.1, hstep.event.2.2.1⟩
  | work hstep => exact ⟨hstep.event.1, hstep.event.2.1, hstep.event.2.2.1⟩
  | _ => exact ⟨rfl, (List.append_nil _).symm, rfl⟩

private theorem hand_notified (p : CallPhase α) : p.notified.hand = p.hand := by
  unfold CallPhase.notified
  split <;> rfl

private theorem pending_notified (p : CallPhase α) : p.notified.pending = p.pending := by
  unfold CallPhase.notified
  split <;> rfl

private theorem hand_worker_notified (p : WorkerPhase α) : p.notified.hand = p.hand := by
  cases p <;> rfl

private theorem hand_ofLog (p : Option (LogPhase α)) : (CallPhase.ofLog p).hand = [] := by
  cases p <;> rfl

private theorem hand_ofFlush (p : Option (FlushPhase α)) :
    (CallPhase.ofFlush p).hand = (p.map FlushPhase.hand).getD [] := by
  cases p <;> rfl

private theorem hand_stop_ofFlush (p : Option (FlushPhase α)) :
    (StopPhase.ofFlush p).hand = (p.map FlushPhase.hand).getD [] := by
  cases p <;> rfl

private theorem pending_ofFlush (p : Option (FlushPhase α)) :
    (CallPhase.ofFlush p).pending = 0 := by
  cases p <;> rfl

private theorem hand_setCaller {i : ℕ} {p : CallPhase α} {who : LoggerThread}
    (h : who ≠ .caller i) :
    (s.setCaller i p).hand who = s.hand who := by
  cases who with
  | caller j =>
    have hj : j ≠ i := fun hj => h (congrArg _ hj)
    rw [hand, setCaller_of_ne hj]
    rfl
  | _ => rfl

/-- What the event of a step says about what the threads have taken. -/
theorem Does.hand (h : Does s e t) (me : LoggerThread) :
    e.HandStep me (s.hand me) (t.hand me) := by
  have hcaller {i : ℕ} {p : CallPhase α} (hs : (s.callers i).hand = p.hand) :
      (s.setCaller i p).hand me = s.hand me := by
    by_cases hme : me = .caller i
    · subst hme
      rw [LoggerSystem.hand, setCaller_self, ← hs]
      rfl
    · exact hand_setCaller hme
  cases h with
  | @callLog i entry hp => exact hcaller (by rw [hp]; rfl)
  | @callFlush i hp => exact hcaller (by rw [hp]; rfl)
  | @log i p l p' hp hstep =>
    obtain ⟨-, -, -, -, hsame⟩ := hstep.event
    have hkept : (s.setCaller i (.ofLog p')).hand me = s.hand me :=
      hcaller (by rw [hp, hand_ofLog]; rfl)
    change (p.event p').HandStep me (s.hand me) ((s.setCaller i (.ofLog p')).hand me)
    rw [hkept]
    exact hsame me _
  | @logNotify i hp =>
    have hkept : (s.setCaller i .idle).hand me = s.hand me := hcaller (by rw [hp]; rfl)
    cases me with
    | worker => exact hand_worker_notified _
    | stopper => rfl
    | caller j => exact hkept
  | @flush i p l p' hp hstep =>
    obtain ⟨-, -, -, hme, hsame⟩ := hstep.event
    change (p.event (.caller i) p').HandStep me (s.hand me)
      ((s.setCaller i (.ofFlush p')).hand me)
    by_cases hi : me = .caller i
    · subst hi
      rw [LoggerSystem.hand, LoggerSystem.hand, setCaller_self, hp, hand_ofFlush]
      exact hme
    · rw [hand_setCaller hi]
      exact hsame me _ hi
  | stop hp =>
    cases me with
    | stopper =>
      simp only [LoggerSystem.hand, hp]
      split <;> rfl
    | _ => rfl
  | stopStore hp =>
    cases me with
    | stopper =>
      simp only [LoggerSystem.hand, hp]
      rfl
    | _ => rfl
  | stopNotify hp =>
    cases me with
    | stopper =>
      simp only [LoggerSystem.hand, hp]
      rfl
    | worker => exact hand_worker_notified _
    | caller j => rfl
  | stopJoin hp hworker =>
    cases me with
    | stopper =>
      simp only [LoggerSystem.hand, hp]
      rfl
    | _ => rfl
  | @stopFlush p l p' hp hstep =>
    obtain ⟨-, -, -, hme, hsame⟩ := hstep.event
    cases me with
    | stopper =>
      simp only [LoggerSystem.hand, hp, hand_stop_ofFlush]
      exact hme
    | worker => exact hsame _ _ (by simp)
    | caller j => exact hsame _ _ (by simp)
  | work hstep =>
    obtain ⟨-, -, -, hme, hsame⟩ := hstep.event
    cases me with
    | worker => exact hme
    | stopper => exact hsame _ _ (by simp)
    | caller j => exact hsame _ _ (by simp)
  | workNotify hp =>
    cases me with
    | worker =>
      simp only [LoggerSystem.hand, hp]
      rfl
    | stopper => rfl
    | caller j => exact hand_notified _

/-- What the event of a step says about the entries of calls that have not done anything yet. -/
theorem Does.pending (h : Does s e t) :
    ∃ i, (∀ j, j ≠ i → (t.callers j).pending = (s.callers j).pending) ∧
      e.PendingStep (s.callers i).pending (t.callers i).pending := by
  have hothers {i : ℕ} {p : CallPhase α} (j : ℕ) (hj : j ≠ i) :
      ((s.setCaller i p).callers j).pending = (s.callers j).pending := by
    rw [setCaller_of_ne hj]
  cases h with
  | @callLog i entry hp => exact ⟨i, hothers, by rw [hp, setCaller_self]; exact ⟨rfl, rfl⟩⟩
  | @callFlush i hp => exact ⟨i, hothers, by rw [hp, setCaller_self]; rfl⟩
  | @log i p l p' hp hstep =>
    refine ⟨i, hothers, ?_⟩
    rw [hp, setCaller_self]
    exact hstep.event.2.2.2.1
  | @logNotify i hp =>
    refine ⟨i, hothers, ?_⟩
    simp [hp, setCaller, CallPhase.pending, LogEvent.PendingStep]
  | @flush i p l p' hp hstep =>
    refine ⟨i, hothers, ?_⟩
    rw [hp, setCaller_self, pending_ofFlush]
    exact hstep.pending _
  | stopFlush hp hstep => exact ⟨0, fun _ _ => rfl, hstep.pending _⟩
  | work hstep => exact ⟨0, fun _ _ => rfl, hstep.pending _⟩
  | workNotify hp => exact ⟨0, fun _ _ => pending_notified _, pending_notified _⟩
  | _ => exact ⟨0, fun _ _ => rfl, rfl⟩

theorem Does.queued (h : Does s e t) {entry : α} (he : e = .queued entry) :
    ∃ i, s.holds (.caller i) = true := by
  cases h with
  | @log i p l p' hp hstep =>
    refine ⟨i, ?_⟩
    rw [holds, hp]
    cases hstep <;> first | rfl | cases he
  | flush hp hstep => cases hstep <;> cases he
  | stopFlush hp hstep => cases hstep <;> cases he
  | work hstep => exact absurd he (hstep.ne_queued entry)
  | _ => cases he

theorem Does.of_flushing (h : Does s e t) {j : ℕ} (he : e = .flushing j) : s.callers j = .idle := by
  cases h with
  | callFlush hp =>
    cases he
    exact hp
  | log hp hstep => exact absurd he (hstep.ne_flushing j)
  | flush hp hstep => exact absurd he (hstep.ne_flushing j)
  | stopFlush hp hstep => exact absurd he (hstep.ne_flushing j)
  | work hstep => exact absurd he (hstep.ne_flushing j)
  | _ => cases he

theorem Does.ne_stopped (h : Does s e t) : e ≠ .stopped := by
  cases h with
  | log hp hstep => cases hstep <;> simp [LogPhase.event]
  | flush hp hstep => cases hstep <;> simp [FlushPhase.event]
  | stopFlush hp hstep => cases hstep <;> simp [FlushPhase.event]
  | work hstep => exact hstep.ne_stopped
  | _ => simp

/-- A caller that flushes has just begun, or did before; it ends when it finds the queue empty. -/
theorem Does.flushing (h : Does s e t) {j : ℕ} {p' : FlushPhase α}
    (hj : t.callers j = .flushing p') :
    e = .flushing j ∧ p' = .entering ∨
      (∀ i, e = .flushing i → i ≠ j) ∧ ∃ p, s.callers j = .flushing p ∧
        (p' = .flushed → p = .flushed ∨ e = .ended (.caller j) ∧ s.logger.queue = []) := by
  have hstays (hne : ∀ i, e ≠ .flushing i) (hsame : s.callers j = .flushing p') :
      (∀ i, e = .flushing i → i ≠ j) ∧ ∃ p, s.callers j = .flushing p ∧
        (p' = .flushed → p = .flushed ∨ e = .ended (.caller j) ∧ s.logger.queue = []) :=
    ⟨fun i hi => absurd hi (hne i), p', hsame, .inl⟩
  cases h with
  | @callLog i entry hp =>
    by_cases hi : j = i
    · rw [hi, setCaller_self] at hj
      cases hj
    · rw [setCaller_of_ne hi] at hj
      exact .inr (hstays (by simp) hj)
  | @callFlush i hp =>
    by_cases hi : j = i
    · subst hi
      rw [setCaller_self] at hj
      cases hj
      exact .inl ⟨rfl, rfl⟩
    · rw [setCaller_of_ne hi] at hj
      refine .inr ⟨fun k hk => ?_, p', hj, .inl⟩
      cases hk
      exact Ne.symm hi
  | @log i p l p'' hp hstep =>
    by_cases hi : j = i
    · rw [hi, setCaller_self] at hj
      cases p'' <;> cases hj
    · rw [setCaller_of_ne hi] at hj
      exact .inr (hstays hstep.ne_flushing hj)
  | @logNotify i hp =>
    by_cases hi : j = i
    · simp [hi, setCaller] at hj
    · have hsame : s.callers j = .flushing p' := by simpa [setCaller, hi] using hj
      exact .inr (hstays (by simp) hsame)
  | @flush i p l p'' hp hstep =>
    by_cases hi : j = i
    · subst hi
      rw [setCaller_self] at hj
      cases p'' with
      | none => cases hj
      | some q =>
        cases hj
        refine .inr ⟨fun k hk => absurd hk (hstep.ne_flushing k), p, hp, fun hflushed => ?_⟩
        subst hflushed
        exact .inr hstep.flushed
    · rw [setCaller_of_ne hi] at hj
      exact .inr (hstays hstep.ne_flushing hj)
  | stopFlush hp hstep => exact .inr (hstays hstep.ne_flushing hj)
  | work hstep => exact .inr (hstays hstep.ne_flushing hj)
  | workNotify hp =>
    refine .inr (hstays (by simp) ?_)
    change (s.callers j).notified = _ at hj
    unfold CallPhase.notified at hj
    split at hj
    · cases hj
    · exact hj
  | _ => exact .inr (hstays (by simp) hj)

/-- `stop` is at the end of its `flush`, or after it, when that has found the queue empty. -/
theorem Does.stopper (h : Does s e t) :
    t.stopper = s.stopper ∨ t.stopper ≠ .flushing .flushed ∧ t.stopper ≠ .returned ∨
      s.stopper = .starting ∧ (s.logger.running = true → t.stopper = .storing) ∨
      s.stopper = .flushing .flushed ∨
      t.stopper = .flushing .flushed ∧ e = .ended .stopper ∧ s.logger.queue = [] := by
  cases h with
  | stop hp => exact .inr (.inr (.inl ⟨hp, fun hrunning => by simp [hrunning]⟩))
  | stopStore hp => exact .inr (.inl (by simp))
  | stopNotify hp => exact .inr (.inl (by simp))
  | stopJoin hp hworker => exact .inr (.inl (by simp))
  | @stopFlush p l p' hp hstep =>
    cases hstep with
    | finish hqueue => exact .inr (.inr (.inr (.inr ⟨rfl, rfl, hqueue⟩)))
    | ret => exact .inr (.inr (.inr (.inl hp)))
    | _ => exact .inr (.inl (by simp [StopPhase.ofFlush]))
  | _ => exact .inl rfl

theorem Does.running (h : Does s e t) :
    (t.stopper = .starting → s.stopper = .starting) ∧
      (t.logger.running = s.logger.running ∨ t.stopper = .notifying) := by
  refine ⟨fun hstarting => ?_, h.step.running⟩
  cases h with
  | stop hp => exact hp
  | stopStore hp => cases hstarting
  | stopNotify hp => cases hstarting
  | stopJoin hp hworker => cases hstarting
  | @stopFlush p l p' hp hstep => cases p' <;> cases hstarting
  | _ => exact hstarting

end LoggerSystem

/-! ## The record -/

namespace LogRecord

variable {r : LogRecord α} {e : LogEvent α}

/-- The entries that the sink has been given out of the queue. -/
def passed (r : LogRecord α) : List α :=
  (r.sink.filter fun p => p.2).map Prod.fst

/-- The entries that `log` has given to the sink itself. -/
def direct (r : LogRecord α) : List α :=
  (r.sink.filter fun p => !p.2).map Prod.fst

/-- The entries of the calls that have done something with theirs. -/
def settled (r : LogRecord α) : Multiset α :=
  r.dropped + (r.direct + r.entries.queued)

private theorem sink_next : (r.next e).sink.map Prod.fst = r.sink.map Prod.fst ++ e.given := by
  cases e <;> simp [next, update, LogEvent.given]

private theorem dropped_next : (r.next e).dropped.card = r.dropped.card + e.drops := by
  cases e <;> simp [next, update, LogEvent.drops]

private theorem passed_next (h : r.passed = r.entries.passed) :
    (r.next e).passed = (r.next e).entries.passed := by
  unfold passed at h ⊢
  cases e <;> simp [next, update, h, Consumers.push, Consumers.take, Consumers.pass]

private theorem hand_next {me : LoggerThread} {hand hand' : List α} (h : r.entries.hand me = hand)
    (hstep : e.HandStep me hand hand') : (r.next e).entries.hand me = hand' := by
  cases e with
  | took who entries =>
    change (r.entries.take who entries).hand me = hand'
    change if me = who then hand = [] ∧ hand' = entries else hand' = hand at hstep
    split_ifs at hstep with hme
    · rw [hme, Consumers.hand_take_self, ← hme, h, hstep.1, hstep.2, List.nil_append]
    · rw [Consumers.hand_take_of_ne hme, h, hstep]
  | passed who entry =>
    change (r.entries.pass who entry).hand me = hand'
    change if me = who then hand = entry :: hand' else hand' = hand at hstep
    split_ifs at hstep with hme
    · rw [hme, Consumers.hand_pass_self, ← hme, h, hstep, List.tail_cons]
    · rw [Consumers.hand_pass_of_ne hme, h, hstep]
  | _ => exact h.trans (Eq.symm hstep)

private theorem coe_append_singleton (xs : List α) (x : α) :
    ((xs ++ [x] : List α) : Multiset α) = xs + {x} := by
  rw [← Multiset.coe_add, Multiset.coe_singleton]

/-- An entry is settled once. -/
private theorem settled_next {m m' : Multiset α} (h : e.PendingStep m m') :
    (r.next e).called + (r.settled + m) = r.called + ((r.next e).settled + m') := by
  cases e with
  | called entry =>
    obtain ⟨rfl, rfl⟩ := h
    simp only [next, update, settled, direct, ← Multiset.singleton_add]
    abel
  | queued entry =>
    obtain ⟨rfl, rfl⟩ := h
    simp only [next, update, settled, direct, Consumers.push, coe_append_singleton]
    abel
  | dropped entry =>
    obtain ⟨rfl, rfl⟩ := h
    simp only [next, update, settled, direct, ← Multiset.singleton_add]
    abel
  | direct entry =>
    obtain ⟨rfl, rfl⟩ := h
    have hdirect : (r.next (.direct entry)).direct = r.direct ++ [entry] := by
      simp [next, update, direct]
    rw [settled, settled, hdirect, coe_append_singleton]
    simp only [next, update]
    abel
  | passed me entry =>
    have hdirect : (r.next (.passed me entry)).direct = r.direct := by
      simp [next, update, direct]
    rw [settled, settled, hdirect, show m' = m from h]
    rfl
  | _ =>
    rw [show m' = m from h]
    rfl

private theorem sink_perm (r : LogRecord α) :
    (r.sink.map Prod.fst : Multiset α) = r.direct + r.passed := by
  rw [Multiset.coe_add, Multiset.coe_eq_coe, direct, passed, ← List.map_append]
  refine List.Perm.map _ (List.perm_append_comm.trans ?_).symm
  exact List.filter_append_perm (fun p => p.2) r.sink

end LogRecord

/-! ## The invariant -/

namespace RecordedLogger

variable {x y : RecordedLogger α} {t : LoggerSystem α} {e : LogEvent α}

/-- The entries of unfinished calls, as far as these have not done anything with them. -/
def Unsettled (x : RecordedLogger α) (m : Multiset α) : Prop :=
  ∃ S : Finset ℕ, (∀ i, (x.system.callers i).pending ≠ 0 → i ∈ S) ∧
    m = ∑ i ∈ S, (x.system.callers i).pending

/-- An entry is written only if nobody else has one that was taken before; a `flush` ends only if
nobody has an entry that he has taken and not written; and no entry is queued between the end of
the last `flush` and the return of `stop`. -/
def Proper (x y : RecordedLogger α) : Prop :=
  match y.record.last with
  | .passed me _ => x.record.entries.Turn me
  | .ended _ => x.record.entries.taken = []
  | .queued _ => ¬(x.system.stopper = .returned ∧ x.record.stopped = false)
  | _ => True

/-- The last `flush` is over, and `stop` has not returned. -/
def AtEnd (x : RecordedLogger α) : Prop :=
  x.system.stopper = .flushing .flushed ∨
    x.system.stopper = .returned ∧ x.record.stopped = false

structure Accurate (x : RecordedLogger α) : Prop where
  sink : x.record.sink.map Prod.fst = x.system.logger.written
  dropped : x.system.logger.droppedCount = x.record.dropped.card
  hand : ∀ me, x.record.entries.hand me = x.system.hand me
  passed : x.record.passed = x.record.entries.passed
  called : ∃ m, x.Unsettled m ∧ x.record.called = x.record.settled + m

private theorem unsettled_step {m : Multiset α} {x y : RecordedLogger α} (h : x.Unsettled m)
    (hpending : ∃ i, (∀ j, j ≠ i → (y.system.callers j).pending = (x.system.callers j).pending) ∧
      e.PendingStep (x.system.callers i).pending (y.system.callers i).pending) :
    ∃ m', y.Unsettled m' ∧ ∃ rest before after, m = before + rest ∧ m' = after + rest ∧
      e.PendingStep before after := by
  obtain ⟨S, hS, rfl⟩ := h
  obtain ⟨i, hothers, hi⟩ := hpending
  have hmem : i ∈ insert i S := Finset.mem_insert_self i S
  have hold : ∑ j ∈ S, (x.system.callers j).pending =
      ∑ j ∈ insert i S, (x.system.callers j).pending := by
    refine Finset.sum_subset (Finset.subset_insert i S) fun j _ hj => ?_
    by_contra hne
    exact hj (hS j hne)
  refine ⟨_, ⟨insert i S, fun j hj => ?_, rfl⟩, ∑ j ∈ (insert i S).erase i,
    (x.system.callers j).pending, _, _, ?_, ?_, hi⟩
  · by_cases hji : j = i
    · exact hji ▸ hmem
    · rw [hothers j hji] at hj
      exact Finset.mem_insert_of_mem (hS j hj)
  · rw [hold, ← Finset.add_sum_erase _ (fun j => (x.system.callers j).pending) hmem]
  · rw [← Finset.add_sum_erase _ (fun j => (y.system.callers j).pending) hmem]
    congr 1
    exact Finset.sum_congr rfl fun j hj => hothers j (Finset.ne_of_mem_erase hj)

/-- The record stays accurate. -/
theorem Accurate.does (h : x.Accurate) (hdoes : x.system.Does e t) :
    Accurate { system := t, record := x.record.next e } := by
  obtain ⟨-, hwritten, hdropped⟩ := hdoes.logger
  constructor
  · rw [LogRecord.sink_next, h.sink]
    exact hwritten.symm
  · rw [LogRecord.dropped_next, ← h.dropped]
    exact hdropped
  · intro me
    exact LogRecord.hand_next (h.hand me) (hdoes.hand me)
  · exact LogRecord.passed_next h.passed
  · obtain ⟨m, hm, hcalled⟩ := h.called
    obtain ⟨m', hm', rest, before, after, rfl, rfl, hstep⟩ :=
      unsettled_step (y := { system := t, record := x.record.next e }) hm hdoes.pending
    refine ⟨_, hm', ?_⟩
    have hsettled := LogRecord.settled_next (r := x.record) hstep
    rw [hcalled] at hsettled
    have hall : (x.record.next e).called + (x.record.settled + before) =
        ((x.record.next e).settled + (after + rest)) + (x.record.settled + before) := by
      rw [hsettled]
      abel
    exact add_right_cancel hall

theorem Accurate.next_stopped (h : x.Accurate) :
    Accurate { x with record := x.record.next .stopped } := by
  obtain ⟨m, hm, hcalled⟩ := h.called
  refine ⟨h.sink, h.dropped, h.hand, h.passed, m, hm, ?_⟩
  exact hcalled

structure Orderly (x : RecordedLogger α) : Prop where
  owned : Owned x.system.holds x.system.logger.mutex
  accurate : x.Accurate
  order : x.record.entries.Orderly x.system.logger.queue
  before : ∀ i p, x.system.callers i = .flushing p →
    x.record.before i ≤ x.record.entries.queued.length
  flushed : ∀ i, x.system.callers i = .flushing .flushed →
    x.record.before i ≤ x.record.entries.passed.length
  running : x.system.stopper = .starting → x.system.logger.running = true
  atEnd : x.AtEnd → x.system.logger.queue = [] ∧ x.record.entries.taken = []

/-- What holds of the entries after a proper step. -/
theorem Orderly.order_does (h : x.Orderly) (hdoes : x.system.Does e t)
    (hproper : x.Proper { system := t, record := x.record.next e }) :
    (x.record.next e).entries.Orderly t.logger.queue := by
  have hqueue := hdoes.logger.1
  cases e with
  | queued entry =>
    rw [show t.logger.queue = _ from hqueue]
    exact h.order.push
  | took me entries =>
    have horder := h.order
    rw [show x.system.logger.queue = _ from hqueue] at horder
    exact horder.take
  | passed me entry =>
    rw [show t.logger.queue = _ from hqueue]
    have hhand : x.system.hand me = entry :: t.hand me := by
      simpa [LogEvent.HandStep] using hdoes.hand me
    exact h.order.pass hproper ((h.accurate.hand me).trans hhand)
  | _ =>
    rw [show t.logger.queue = _ from hqueue]
    exact h.order

private theorem queued_le_next (r : LogRecord α) (e : LogEvent α) :
    r.entries.queued.length ≤ (r.next e).entries.queued.length := by
  cases e <;> simp [LogRecord.next, LogRecord.update, Consumers.push, Consumers.take,
    Consumers.pass]

theorem passed_le_next (r : LogRecord α) (e : LogEvent α) :
    r.entries.passed.length ≤ (r.next e).entries.passed.length := by
  cases e <;> simp [LogRecord.next, LogRecord.update, Consumers.push, Consumers.take,
    Consumers.pass]

theorem before_next {r : LogRecord α} {j : ℕ} (h : ∀ i, e = .flushing i → i ≠ j) :
    (r.next e).before j = r.before j := by
  cases e with
  | flushing i => simp [LogRecord.next, LogRecord.update, (h i rfl).symm]
  | _ => rfl

theorem Orderly.before_does (h : x.Orderly) (hdoes : x.system.Does e t) (i : ℕ) (p : FlushPhase α)
    (hi : t.callers i = .flushing p) :
    (x.record.next e).before i ≤ (x.record.next e).entries.queued.length := by
  rcases hdoes.flushing hi with ⟨rfl, -⟩ | ⟨hother, p', hp', -⟩
  · simp [LogRecord.next, LogRecord.update]
  · rw [before_next hother]
    exact (h.before i p' hp').trans (queued_le_next _ _)

theorem Orderly.flushed_does (h : x.Orderly) (hdoes : x.system.Does e t)
    (hproper : x.Proper { system := t, record := x.record.next e }) (i : ℕ)
    (hi : t.callers i = .flushing .flushed) :
    (x.record.next e).before i ≤ (x.record.next e).entries.passed.length := by
  rcases hdoes.flushing hi with ⟨-, hp⟩ | ⟨hother, p, hp, hend⟩
  · cases hp
  · rw [before_next hother]
    rcases hend rfl with rfl | ⟨rfl, hqueue⟩
    · exact (h.flushed i hp).trans (passed_le_next _ _)
    · -- All that has been queued has been written.
      have horder := h.order
      rw [hqueue] at horder
      have hall := horder.passed_eq hproper
      exact (h.before i p hp).trans_eq (congrArg List.length hall).symm

/-- After the last `flush` nobody has an entry, and none is queued. -/
theorem Orderly.atEnd_does (h : x.Orderly) (hdoes : x.system.Does e t)
    (hproper : x.Proper { system := t, record := x.record.next e })
    (hend : AtEnd { system := t, record := x.record.next e }) :
    t.logger.queue = [] ∧ (x.record.next e).entries.taken = [] := by
  have hstopped : (x.record.next e).stopped = false → x.record.stopped = false := by
    cases e <;> simp [LogRecord.next, LogRecord.update]
  -- From a state at the end there is nothing left to take.
  have hkept (hbefore : x.AtEnd) : t.logger.queue = [] ∧ (x.record.next e).entries.taken = [] := by
    obtain ⟨hqueue, htaken⟩ := h.atEnd hbefore
    have hstep := hdoes.logger.1
    rw [hqueue] at hstep
    cases e with
    | queued entry =>
      rcases hbefore with hflushed | hreturned
      · obtain ⟨i, hi⟩ := hdoes.queued rfl
        have hstopper : x.system.holds .stopper = true := by
          rw [LoggerSystem.holds, hflushed]
          rfl
        cases h.owned.unique hi hstopper
      · exact absurd hreturned hproper
    | took me entries =>
      obtain ⟨rfl, hnil⟩ := List.append_eq_nil_iff.mp (Eq.symm hstep)
      exact ⟨hnil, by simp [LogRecord.next, LogRecord.update, Consumers.take, htaken]⟩
    | passed me entry =>
      exact ⟨hstep, by simp [LogRecord.next, LogRecord.update, Consumers.pass, htaken]⟩
    | _ => exact ⟨hstep, htaken⟩
  rcases hdoes.stopper with hsame | ⟨hflushed, hreturned⟩ | ⟨hstarting, hstoring⟩ | hflushed |
    ⟨-, rfl, hqueue⟩
  · refine hkept ?_
    rcases hend with hflushed | ⟨hreturned, hnot⟩
    · exact .inl (hsame ▸ hflushed)
    · exact .inr ⟨hsame ▸ hreturned, hstopped hnot⟩
  · rcases hend with hend | hend
    · exact absurd hend hflushed
    · exact absurd hend.1 hreturned
  · have hstopper := hstoring (h.running hstarting)
    rcases hend with hend | ⟨hend, -⟩ <;> exact absurd (hstopper.symm.trans hend) (by simp)
  · exact hkept (.inl hflushed)
  · exact ⟨(show t.logger.queue = _ from hdoes.logger.1).trans hqueue, hproper⟩

theorem Orderly.step (h : x.Orderly) (hstep : Step x y) (hproper : x.Proper y) : y.Orderly := by
  cases hstep with
  | @does t e hdoes =>
    refine ⟨hdoes.step.owned h.owned, h.accurate.does hdoes, h.order_does hdoes hproper,
      h.before_does hdoes, h.flushed_does hdoes hproper, fun hstarting => ?_,
      h.atEnd_does hdoes hproper⟩
    obtain ⟨hbefore, hsame | hnotifying⟩ := hdoes.running
    · exact hsame.trans (h.running (hbefore hstarting))
    · rw [hnotifying] at hstarting
      cases hstarting
  | stopReturns hreturned hstopped =>
    refine ⟨h.owned, h.accurate.next_stopped, h.order, h.before, h.flushed, h.running, ?_⟩
    rintro (hflushed | ⟨-, hnot⟩)
    · rw [hreturned] at hflushed
      cases hflushed
    · cases hnot

private theorem orderly_init (maxQueueSize : UInt64) (blockWhenFull : Bool) :
    Orderly { system := { logger := { maxQueueSize, blockWhenFull } } : RecordedLogger α } where
  owned := (LoggerSystem.AllAttended.init maxQueueSize blockWhenFull).consistent.owned
  accurate := by
    refine ⟨rfl, rfl, fun me => ?_, rfl, 0, ⟨∅, ?_, rfl⟩, rfl⟩
    · cases me <;> rfl
    · simp [CallPhase.pending]
  order := rfl
  before i p h := by cases h
  flushed i h := by cases h
  running _ := rfl
  atEnd h := ⟨rfl, rfl⟩

/-! ## What the logger promises -/

/-- The sink has been given the entry of each call, or the counter counts it, but for calls that
have not come so far. -/
def Accounted (x : RecordedLogger α) : Prop :=
  ∃ m, x.Unsettled m ∧ x.record.called = x.system.logger.written + x.record.dropped + m

/-- The entries before a `flush` have been passed when it returns. -/
theorem Orderly.flush (h : x.Orderly) (hy : y.Orderly) (hstep : Step x y) {i : ℕ}
    (hflushed : x.system.callers i = .flushing .flushed) (hidle : y.system.callers i = .idle) :
    ∃ later, y.record.passed = y.record.entries.queued.take (y.record.before i) ++ later := by
  cases hstep with
  | @does t e hdoes =>
    have hother : ∀ j, e = .flushing j → j ≠ i := by
      rintro j hj rfl
      rw [hdoes.of_flushing hj] at hflushed
      cases hflushed
    have hle := (h.flushed i hflushed).trans (passed_le_next x.record e)
    rw [← before_next hother] at hle
    have horder : (x.record.next e).entries.queued = _ := hy.order
    rw [horder, List.take_append_of_le_length hle, hy.accurate.passed]
    exact ⟨_, (List.take_append_drop _ _).symm⟩
  | stopReturns hreturned hstopped =>
    rw [hflushed] at hidle
    cases hidle

theorem Orderly.stop (h : x.Orderly) (hy : y.Orderly) (hstep : Step x y)
    (hbefore : x.record.stopped = false) (hafter : y.record.stopped = true) : y.Accounted := by
  cases hstep with
  | @does t e hdoes =>
    have hsame : (x.record.next e).stopped = x.record.stopped := by
      cases e with
      | stopped => exact absurd rfl hdoes.ne_stopped
      | _ => rfl
    rw [hsame, hbefore] at hafter
    cases hafter
  | stopReturns hreturned hstopped =>
    obtain ⟨hqueue, htaken⟩ := h.atEnd (.inr ⟨hreturned, hstopped⟩)
    have horder := h.order
    rw [hqueue] at horder
    have hall := (h.accurate.passed.trans (horder.passed_eq htaken)).symm
    obtain ⟨m, hm, hcalled⟩ := h.accurate.called
    refine ⟨m, hm, hcalled.trans ?_⟩
    change _ = (x.system.logger.written : Multiset α) + x.record.dropped + m
    rw [← h.accurate.sink, LogRecord.sink_perm, LogRecord.settled, hall, add_comm x.record.dropped]

end RecordedLogger

open RecordedLogger

/-- In the states of a run, the newest first: what the record says is what the logger has done;
entries are passed to the sink in the order in which they were queued; when a `flush` returns, what
had been queued before it was called has been passed; and when `stop` returns, nothing is lost. -/
structure LosesNothing (states : List (RecordedLogger α)) : Prop where
  sink : ∀ x ∈ states, x.record.sink.map Prod.fst = x.system.logger.written
  dropped : ∀ x ∈ states, x.system.logger.droppedCount = x.record.dropped.card
  order : ∀ x ∈ states, ∃ later, x.record.entries.queued = x.record.passed ++ later
  flush : ∀ x y, [y, x] <:+: states → ∀ i, x.system.callers i = .flushing .flushed →
    y.system.callers i = .idle →
    ∃ later, y.record.passed = y.record.entries.queued.take (y.record.before i) ++ later
  stop : ∀ x y, [y, x] <:+: states → x.record.stopped = false → y.record.stopped = true →
    y.Accounted

/-- In a run of proper steps, the logger loses nothing. -/
theorem loses_nothing {maxQueueSize : UInt64} {blockWhenFull : Bool}
    {states : List (RecordedLogger α)}
    (h : (recordedLoggers α maxQueueSize blockWhenFull).Run states)
    (hproper : ∀ x y, [y, x] <:+: states → Proper x y) : LosesNothing states := by
  have horderly : ∀ x ∈ states, x.Orderly := by
    refine h.invariant_along (fun x hinit => ?_) (fun x y hx hstep hxy => ?_) hproper
    · obtain rfl : x = _ := hinit
      exact orderly_init maxQueueSize blockWhenFull
    · exact hx.step hstep hxy
  have hboth {x y : RecordedLogger α} (hxy : [y, x] <:+: states) : x.Orderly ∧ y.Orderly :=
    ⟨horderly x (hxy.mem (by simp)), horderly y (hxy.mem (by simp))⟩
  constructor
  · exact fun x hx => (horderly x hx).accurate.sink
  · exact fun x hx => (horderly x hx).accurate.dropped
  · intro x hx
    rw [(horderly x hx).accurate.passed]
    exact ⟨_, (horderly x hx).order⟩
  · intro x y hxy i hflushed hidle
    exact (hboth hxy).1.flush (hboth hxy).2 (h.step_of_infix hxy) hflushed hidle
  · intro x y hxy hbefore hafter
    exact (hboth hxy).1.stop (hboth hxy).2 (h.step_of_infix hxy) hbefore hafter

section Check

def recordedLogger : RecordedLogger ℕ where
  system := smallLogger false

/-- An entry is passed by a `flush`, which returns. Of the next two one is dropped, and the other
is passed by the worker before `stop` returns. -/
theorem loses_nothing_written : ∃ states, (recordedLoggers ℕ 1 false).Run states ∧
    (∃ x ∈ states, x.record.passed = [7] ∧ x.record.before 1 = 1 ∧ x.system.callers 1 = .idle) ∧
    (∃ x ∈ states, x.record.stopped = true ∧ x.record.passed = [7, 8] ∧ x.record.dropped = {9} ∧
      x.Accounted) ∧
    LosesNothing states := by
  have hleads : (recordedLoggers ℕ 1 false).Leads Proper recordedLogger := .start rfl
  have hcalled := hleads.next (.does (.callLog (i := 0) 7 rfl)) trivial
  have hentered := hcalled.next (.does (.log (i := 0) rfl (.running rfl))) trivial
  have hlocked := hentered.next (.does (.log (i := 0) rfl (.lock rfl))) trivial
  have hpushed := hlocked.next (.does (.log (i := 0) rfl (.room (by decide))))
    (fun hreturned => by cases hreturned.1)
  have hunlocked := hpushed.next (.does (.log (i := 0) rfl .unlock)) trivial
  -- the flush
  have hflush := hunlocked.next (.does (.callFlush (i := 1) rfl)) trivial
  have hholding := hflush.next (.does (.flush (i := 1) rfl (.lock rfl))) trivial
  have hpopped := hholding.next (.does (.flush (i := 1) rfl (.pop rfl))) trivial
  have hwriting := hpopped.next (.does (.flush (i := 1) rfl .unlock)) trivial
  have hwritten := hwriting.next (.does (.flush (i := 1) rfl .write)) (fun p hp => by cases hp; rfl)
  have hagain := hwritten.next (.does (.flush (i := 1) rfl (.lock rfl))) trivial
  have hflushed := hagain.next (.does (.flush (i := 1) rfl (.finish rfl))) rfl
  have hreturned := hflushed.next (.does (.flush (i := 1) rfl .ret)) trivial
  have hseen : (recordedLoggers ℕ 1 false).Passes Proper (fun x => x.record.passed = [7] ∧
      x.record.before 1 = 1 ∧ x.system.callers 1 = .idle) _ := hreturned.passes ⟨rfl, rfl, rfl⟩
  -- two more entries, and room for one
  have hsecond := hseen.next (.does (.callLog (i := 1) 8 rfl)) trivial
  have hentered := hsecond.next (.does (.log (i := 1) rfl (.running rfl))) trivial
  have hlocked := hentered.next (.does (.log (i := 1) rfl (.lock rfl))) trivial
  have hpushed := hlocked.next (.does (.log (i := 1) rfl (.room (by decide))))
    (fun hreturned => by cases hreturned.1)
  have hunlocked := hpushed.next (.does (.log (i := 1) rfl .unlock)) trivial
  have hthird := hunlocked.next (.does (.callLog (i := 2) 9 rfl)) trivial
  have hentered := hthird.next (.does (.log (i := 2) rfl (.running rfl))) trivial
  have hlocked := hentered.next (.does (.log (i := 2) rfl (.lock rfl))) trivial
  have hdropped := hlocked.next (.does (.log (i := 2) rfl (.drop (by decide) rfl))) trivial
  have hunlocked := hdropped.next (.does (.log (i := 2) rfl .ret)) trivial
  -- the worker finds that it is to stop, and an entry
  have hstopping := hunlocked.next (.does (.stop rfl)) trivial
  have hstored := hstopping.next (.does (.stopStore rfl)) trivial
  have hjoining := hstored.next (.does (.stopNotify rfl)) trivial
  have hchecking := hjoining.next (.does (.work (.notRunning rfl))) trivial
  have hmore := hchecking.next (.does (.work (.more (by decide)))) trivial
  have hworking := hmore.next (.does (.work (.lock rfl))) trivial
  have htaking := hworking.next (.does (.work (.testTrue (.inr rfl)))) trivial
  have htaken := htaking.next (.does (.work .take)) trivial
  have hunlocked := htaken.next (.does (.work .unlockFull)) trivial
  have hnotified := hunlocked.next (.does (.workNotify rfl)) trivial
  have hwritten := hnotified.next (.does (.work .write)) (fun p hp => by cases hp; rfl)
  have hdone := hwritten.next (.does (.work .done)) trivial
  have hchecking := hdone.next (.does (.work (.notRunning rfl))) trivial
  have hexited := hchecking.next (.does (.work (.exit rfl))) trivial
  have hjoined := hexited.next (.does (.stopJoin rfl rfl)) trivial
  have hlocked := hjoined.next (.does (.stopFlush rfl (.lock rfl))) trivial
  have hempty := hlocked.next (.does (.stopFlush rfl (.finish rfl))) rfl
  have hfree := hempty.next (.does (.stopFlush rfl .ret)) trivial
  obtain ⟨past, hrun, hproper, x, hx, hflushed⟩ := hfree
  have hstopped := hrun.next (.stopReturns rfl rfl)
  have hall := loses_nothing hstopped (TransitionSystem.successive_cons hproper trivial)
  have haccounted := hall.stop _ _ (List.prefix_append [_, _] past).isInfix rfl rfl
  exact ⟨_, hstopped, ⟨x, List.mem_cons_of_mem _ hx, hflushed⟩,
    ⟨_, List.mem_cons_self, rfl, rfl, rfl, haccounted⟩, hall⟩

/-- The worker has taken an entry; `flush` finds the queue empty and returns. -/
theorem flush_returns_early :
    ¬∀ states, (recordedLoggers ℕ 1 false).Run states → LosesNothing states := by
  intro hall
  have hstart : (recordedLoggers ℕ 1 false).Run [recordedLogger] := .start rfl
  have hcalled := hstart.next (.does (.callLog (i := 0) 7 rfl))
  have hentered := hcalled.next (.does (.log (i := 0) rfl (.running rfl)))
  have hlocked := hentered.next (.does (.log (i := 0) rfl (.lock rfl)))
  have hpushed := hlocked.next (.does (.log (i := 0) rfl (.room (by decide))))
  have hunlocked := hpushed.next (.does (.log (i := 0) rfl .unlock))
  have hwork := hunlocked.next (.does (.work (.running rfl)))
  have hworkLocked := hwork.next (.does (.work (.lock rfl)))
  have htested := hworkLocked.next (.does (.work (.testTrue (.inl (by decide)))))
  have htaken := htested.next (.does (.work .take))
  have hfree := htaken.next (.does (.work .unlockFull))
  have hflush := hfree.next (.does (.callFlush (i := 1) rfl))
  have hholding := hflush.next (.does (.flush (i := 1) rfl (.lock rfl)))
  have hflushed := hholding.next (.does (.flush (i := 1) rfl (.finish rfl)))
  have hreturned := hflushed.next (.does (.flush (i := 1) rfl .ret))
  obtain ⟨later, hlater⟩ := (hall _ hreturned).flush _ _ (List.prefix_append [_, _] _).isInfix 1
    rfl rfl
  cases hlater

end Check

end DarwinCore.Log
