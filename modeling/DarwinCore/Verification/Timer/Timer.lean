import DarwinCore.Library.Locks
import DarwinCore.Library.Counters
import DarwinCore.Model.Timer.Timer

/-! # When timers are safe to stop

A task refers to an entry of the map that `stop` erases. Nothing goes wrong as long as no interval
overflows, `stop` erases no timer with a task that is not over, and a timer that does not repeat is
stopped before the first tick after its task: a tick itself removes nothing. -/

namespace DarwinCore.Timers

open Monitor

variable {κ : Type*}

/-! ## The mutex -/

def TimerCaller.holds : TimerCaller κ → Bool
  | inserting _ | inserted | cleaning _ | erasing _ | stopped _ => true
  | idle | constructing _ _ _ _ _ | starting _ | stopping _ => false

def TimingPhase.holds : TimingPhase → Bool
  | sleeping => false
  | visiting _ => true

/-- The number of a call of `start` that has not put its timer into the map yet. -/
def TimerCaller.inHand : TimerCaller κ → Option ℕ
  | constructing number _ _ _ _ => some number
  | starting t | inserting t => some t.number
  | _ => none

/-! ## Timers -/

structure Timer.Made (t : Timer κ) : Prop where
  running : t.running = true
  interval : (CInt.of t.interval * 1000).value.isSome = true

namespace Timer

variable {t t' : Timer κ}

theorem of_new {number : ℕ} {id interval : ℤ} {repeats : Bool} {callback : Option κ}
    (h : new number id interval repeats callback = some t) : t.Made ∧ t.number = number := by
  obtain ⟨remainTime, hvalue, rfl⟩ := Option.map_eq_some_iff.mp h
  exact ⟨⟨rfl, Option.isSome_of_eq_some hvalue⟩, rfl⟩

theorem new_isSome {number : ℕ} {id interval : ℤ} {repeats : Bool} {callback : Option κ}
    (h : -2147483 ≤ interval ∧ interval ≤ 2147483) :
    (new number id interval repeats callback).isSome = true := by
  have hproduct : CInt.of interval * 1000 = CInt.of (interval * 1000) :=
    CInt.of_mul ⟨by omega, by omega⟩ (by decide)
  rw [new, Option.isSome_map, hproduct, CInt.value_of ⟨by omega, by omega⟩]
  rfl

theorem made_stop : t.stop.Made ↔ t.Made := by
  unfold stop
  split <;> exact ⟨fun h => ⟨h.running, h.interval⟩, fun h => ⟨h.running, h.interval⟩⟩

theorem number_stop (t : Timer κ) : t.stop.number = t.number := by
  unfold stop
  split <;> rfl

theorem Made.tick (h : t.Made) : t.tick.1.Made := by
  unfold Timer.tick
  split_ifs <;> exact ⟨h.running, h.interval⟩

theorem number_tick (t : Timer κ) : t.tick.1.number = t.number := by
  unfold tick
  split_ifs <;> rfl

theorem Made.rearm (h : t.Made) : t.rearm ≠ none := by
  rw [Timer.rearm, Ne, Option.map_eq_none_iff]
  exact Option.isSome_iff_ne_none.mp h.interval

theorem of_rearm (h : t.rearm = some t') : (t.Made → t'.Made) ∧ t'.number = t.number := by
  obtain ⟨remainTime, hvalue, rfl⟩ := Option.map_eq_some_iff.mp h
  exact ⟨fun hmade => ⟨hmade.running, hmade.interval⟩, rfl⟩

end Timer

def TimerTask.Over (task : TimerTask) : Prop :=
  ∃ hasCalled, task.phase = .ended hasCalled

namespace TimerManager

variable {s s' : TimerManager κ}

def holds (s : TimerManager κ) : TimerThread → Bool
  | .timing => s.timing.holds
  | .caller i => (s.callers i).holds

@[simp]
theorem setCaller_self {i : ℕ} {p : TimerCaller κ} : (s.setCaller i p).callers i = p := by
  simp [setCaller]

theorem setCaller_of_ne {i j : ℕ} {p : TimerCaller κ} (h : j ≠ i) :
    (s.setCaller i p).callers j = s.callers j := by
  simp [setCaller, h]

theorem owned_setCaller {t : TimerManager κ} {i : ℕ} {p : TimerCaller κ}
    (h : Owned s.holds s.mutex) (hcallers : t.callers = s.callers) (htiming : t.timing = s.timing)
    (hstep : MutexStep (.caller i) (s.callers i).holds p.holds s.mutex t.mutex) :
    Owned (t.setCaller i p).holds (t.setCaller i p).mutex := by
  refine h.step (.caller i) ?_ fun thread hne => ?_
  · have hmutex : (t.setCaller i p).mutex = t.mutex := rfl
    simpa only [holds, setCaller_self, hmutex] using hstep
  · cases thread with
    | timing => exact congrArg TimingPhase.holds htiming
    | caller j =>
      have hj : j ≠ i := fun hj => hne (congrArg _ hj)
      simp only [holds, setCaller_of_ne hj, hcallers]

theorem CallStep.owned (h : CallStep s s') (howned : Owned s.holds s.mutex) :
    Owned s'.holds s'.mutex := by
  cases h with
  | start interval repeats callback h hinterval =>
    exact owned_setCaller howned rfl rfl (.keep rfl (by rw [h]; rfl))
  | construct h hnew => exact owned_setCaller howned rfl rfl (.keep rfl (by rw [h]; rfl))
  | overflow h hnew =>
    exact owned_setCaller (t := s.fault) howned rfl rfl (.keep rfl (by rw [h]; rfl))
  | startLock h hfree => exact owned_setCaller howned rfl rfl (.acquire hfree rfl rfl)
  | startInsert h hnone => exact owned_setCaller howned rfl rfl (.keep rfl (by rw [h]; rfl))
  | startPresent h hsome => exact owned_setCaller howned rfl rfl (.keep rfl (by rw [h]; rfl))
  | startUnlock h => exact owned_setCaller howned rfl rfl (.release (by rw [h]; rfl) rfl rfl)
  | stop id h => exact owned_setCaller howned rfl rfl (.keep rfl (by rw [h]; rfl))
  | stopLock h hfree => exact owned_setCaller howned rfl rfl (.acquire hfree rfl rfl)
  | cleanNothing h hnone => exact owned_setCaller howned rfl rfl (.keep rfl (by rw [h]; rfl))
  | cleanStop h htimer => exact owned_setCaller howned rfl rfl (.keep rfl (by rw [h]; rfl))
  | cleanErase h => exact owned_setCaller howned rfl rfl (.keep rfl (by rw [h]; rfl))
  | @stopUnlock i id h =>
    exact owned_setCaller (t := s.unlock.markStopped id) howned rfl rfl
      (.release (by rw [h]; rfl) rfl rfl)

theorem TimingStep.owned (h : TimingStep s s') (howned : Owned s.holds s.mutex) :
    Owned s'.holds s'.mutex := by
  have hothers (thread : TimerThread) (hne : thread ≠ .timing) (timing : TimingPhase) :
      holds { s with timing := timing } thread = s.holds thread := by
    cases thread with
    | timing => exact absurd rfl hne
    | caller j => rfl
  cases h with
  | lock h hfree => exact howned.step .timing (.acquire hfree rfl rfl) fun i hi => hothers i hi _
  | unlock h hlast =>
    refine howned.step .timing (.release ?_ rfl rfl) fun i hi => hothers i hi _
    rw [holds, h]
    rfl
  | _ h =>
    refine howned.step .timing (.keep rfl ?_) fun i hi => hothers i hi _
    rw [holds, holds, h]
    rfl

theorem Step.owned (h : Step s s') (howned : Owned s.holds s.mutex) :
    Owned s'.holds s'.mutex := by
  cases h with
  | call h => exact h.owned howned
  | timing h => exact h.owned howned
  | _ => exact howned.congr fun thread => by cases thread <;> rfl

/-! ## The numbers -/

def Numbered (s : TimerManager κ) : Prop :=
  FreshNumbers (fun i => (s.callers i).inHand) (fun n => (s.started n).isSome) s.calls

theorem inHand_setCaller {i : ℕ} {p : TimerCaller κ} :
    (fun j => ((s.setCaller i p).callers j).inHand) =
      Function.update (fun j => (s.callers j).inHand) i p.inHand := by
  funext j
  by_cases hj : j = i
  · subst hj
    simp
  · simp [setCaller_of_ne hj, hj]

/-- A caller that stands somewhere else with the same timer, or without. -/
theorem Numbered.setCaller {i : ℕ} {p : TimerCaller κ} (h : s.Numbered)
    (hp : p.inHand = none ∨ p.inHand = (s.callers i).inHand) : (s.setCaller i p).Numbered := by
  unfold Numbered
  rw [inHand_setCaller]
  rcases hp with hnone | hsame
  · rw [hnone]
    exact h.putDown i
  · rw [hsame, Function.update_eq_self]
    exact h

theorem isSome_insert (t : Timer κ) : (fun n => ((s.insert t).started n).isSome) =
    Function.update (fun n => (s.started n).isSome) t.number true := by
  funext n
  by_cases hn : n = t.number
  · subst hn
    simp [insert]
  · simp [insert, setTimer, hn]

theorem CallStep.numbered (h : CallStep s s') (hnumbered : s.Numbered) : s'.Numbered := by
  cases h with
  | @start i interval repeats callback h hinterval =>
    unfold Numbered
    rw [inHand_setCaller]
    exact hnumbered.draw i
  | construct h hnew =>
    refine Numbered.setCaller (s := s) hnumbered (.inr ?_)
    rw [h]
    exact congrArg some (Timer.of_new hnew).2
  | startLock h hfree => exact Numbered.setCaller (s := s) hnumbered (.inr (by rw [h]; rfl))
  | @startInsert i t h hnone =>
    unfold Numbered
    rw [inHand_setCaller]
    have hused := hnumbered.use (i := i) (n := t.number) (by rw [h]; rfl)
    rwa [← isSome_insert] at hused
  | _ => exact Numbered.setCaller (s := s) hnumbered (.inl rfl)

theorem Step.numbered (h : Step s s') (hnumbered : s.Numbered) : s'.Numbered := by
  cases h with
  | call h => exact h.numbered hnumbered
  | timing h => cases h <;> exact hnumbered
  | _ => exact hnumbered

/-! ## The map -/

def Gone (s : TimerManager κ) (n : ℕ) : Prop :=
  ∀ id t, s.timerMap id = some t → t.number ≠ n

theorem of_timer {task : TimerTask} {t : Timer κ} (h : s.timer task = some t) :
    s.timerMap task.id = some t ∧ t.number = task.number := by
  obtain ⟨htimer, hnumber⟩ := Option.filter_eq_some_iff.mp h
  exact ⟨htimer, by simpa using hnumber⟩

theorem timer_of {task : TimerTask} {t : Timer κ} (htimer : s.timerMap task.id = some t)
    (hnumber : t.number = task.number) : s.timer task = some t :=
  Option.filter_eq_some_iff.mpr ⟨htimer, by simpa using hnumber⟩

theorem TaskStep.made {t t' : Timer κ} {p p' : TaskPhase} (h : TaskStep t p t' p') :
    (t.Made → t'.Made) ∧ t'.number = t.number := by
  cases h with
  | stop => exact ⟨Timer.made_stop.mpr, t.number_stop⟩
  | rearm h => exact Timer.of_rearm h
  | _ => exact ⟨id, rfl⟩

inductive MapStep (s s' : TimerManager κ) : Prop where
  | same (hmap : s'.timerMap = s.timerMap) (hstarted : s'.started = s.started)
  | change {id : ℤ} {t t' : Timer κ} (htimer : s.timerMap id = some t)
      (hmade : (t.Made → t'.Made) ∧ t'.number = t.number)
      (hmap : s'.timerMap = Function.update s.timerMap id (some t'))
      (hstarted : s'.started = s.started)
  | insert {i : ℕ} {t : Timer κ} (hcaller : s.callers i = .inserting t)
      (hnone : s.timerMap t.id = none)
      (hmap : s'.timerMap = Function.update s.timerMap t.id (some t))
      (hstarted : s'.started = Function.update s.started t.number (some t))
  | erase {i : ℕ} {id : ℤ} (hcaller : s.callers i = .erasing id)
      (hcaller' : s'.callers i = .stopped id)
      (hmap : s'.timerMap = Function.update s.timerMap id none) (hstarted : s'.started = s.started)
  | dead {id : ℤ} {t : Timer κ} (htimer : s.timerMap id = some t) (hrunning : t.running = false)
      (hmap : s'.timerMap = Function.update s.timerMap id none) (hstarted : s'.started = s.started)

theorem Step.map (h : Step s s') : MapStep s s' := by
  cases h with
  | call h =>
    cases h with
    | startInsert h hnone => exact .insert h hnone rfl rfl
    | @cleanStop i id t h htimer =>
      exact .change htimer ⟨Timer.made_stop.mpr, t.number_stop⟩ rfl rfl
    | cleanErase h => exact .erase h setCaller_self rfl rfl
    | _ => exact .same rfl rfl
  | timing h =>
    cases h with
    | erase h hid hfirst htimer hrunning => exact .dead htimer hrunning rfl rfl
    | @pass next id t h hid hfirst htimer hrunning htick =>
      exact .change htimer ⟨Timer.Made.tick, t.number_tick⟩ rfl rfl
    | @submit next id t h hid hfirst htimer hrunning htick =>
      exact .change htimer ⟨Timer.Made.tick, t.number_tick⟩ rfl rfl
    | _ => exact .same rfl rfl
  | task h htimer hstep => exact .change (of_timer htimer).1 hstep.made rfl rfl
  | _ => exact .same rfl rfl

theorem MapStep.absent (h : MapStep s s') {id : ℤ} (hnone : s.timerMap id = none)
    (hno : ∀ i t, s.callers i ≠ .inserting t) : s'.timerMap id = none := by
  have herased {j : ℤ} (hmap : s'.timerMap = Function.update s.timerMap j none) :
      s'.timerMap id = none := by
    by_cases hid : id = j
    · rw [hmap, hid, Function.update_self]
    · rw [hmap, Function.update_of_ne hid, hnone]
  cases h with
  | same hmap hstarted => rw [hmap, hnone]
  | @change j t t' htimer hmade hmap hstarted =>
    have hid : id ≠ j := by
      rintro rfl
      rw [hnone] at htimer
      cases htimer
    rw [hmap, Function.update_of_ne hid, hnone]
  | insert hcaller hnone hmap hstarted => exact absurd hcaller (hno _ _)
  | erase hcaller hcaller' hmap hstarted => exact herased hmap
  | dead htimer hrunning hmap hstarted => exact herased hmap

theorem MapStep.gone (h : MapStep s s') {n : ℕ} (hgone : s.Gone n)
    (hno : ∀ i t, s.callers i = .inserting t → t.number ≠ n) : s'.Gone n := by
  intro id t htimer
  cases h with
  | same hmap hstarted => exact hgone id t (hmap ▸ htimer)
  | @change j u u' hu hmade hmap hstarted =>
    rw [hmap, Function.update_apply] at htimer
    split_ifs at htimer with hid
    · cases htimer
      rw [hmade.2]
      exact hgone j u hu
    · exact hgone id t htimer
  | @insert i u hcaller hnone hmap hstarted =>
    rw [hmap, Function.update_apply] at htimer
    split_ifs at htimer with hid
    · cases htimer
      exact hno i t hcaller
    · exact hgone id t htimer
  | erase hcaller hcaller' hmap hstarted =>
    rw [hmap, Function.update_apply] at htimer
    split_ifs at htimer with hid
    exact hgone id t htimer
  | dead htimer' hrunning hmap hstarted =>
    rw [hmap, Function.update_apply] at htimer
    split_ifs at htimer with hid
    exact hgone id t htimer

/-- A timer that runs leaves the map only by `clean`. -/
theorem MapStep.present (h : MapStep s s') {id : ℤ} {t : Timer κ} (htimer : s.timerMap id = some t)
    (hrunning : t.running = true) : (∃ t', s'.timerMap id = some t' ∧ t'.number = t.number) ∨
      ∃ i, s.callers i = .erasing id ∧ s'.callers i = .stopped id := by
  have hother {j : ℤ} {x : Option (Timer κ)} (hmap : s'.timerMap = Function.update s.timerMap j x)
      (hid : id ≠ j) : ∃ t', s'.timerMap id = some t' ∧ t'.number = t.number :=
    ⟨t, by rw [hmap, Function.update_of_ne hid, htimer], rfl⟩
  cases h with
  | same hmap hstarted => exact .inl ⟨t, by rw [hmap, htimer], rfl⟩
  | @change j u u' hu hmade hmap hstarted =>
    by_cases hid : id = j
    · subst hid
      cases htimer.symm.trans hu
      exact .inl ⟨u', by rw [hmap, Function.update_self], hmade.2⟩
    · exact .inl (hother hmap hid)
  | @insert i u hcaller hnone hmap hstarted =>
    refine .inl (hother hmap ?_)
    rintro rfl
    rw [hnone] at htimer
    cases htimer
  | @erase i j hcaller hcaller' hmap hstarted =>
    by_cases hid : id = j
    · subst hid
      exact .inr ⟨i, hcaller, hcaller'⟩
    · exact .inl (hother hmap hid)
  | @dead j u hu hdead hmap hstarted =>
    refine .inl (hother hmap ?_)
    rintro rfl
    cases htimer.symm.trans hu
    rw [hrunning] at hdead
    cases hdead

/-- What has been put into the map stays on record. -/
theorem MapStep.started (h : MapStep s s') (hnumbered : s.Numbered) {n : ℕ} {t : Timer κ}
    (hn : s.started n = some t) : s'.started n = some t := by
  cases h with
  | @insert i u hcaller hnone hmap hstarted =>
    have hne : n ≠ u.number := by
      rintro rfl
      have hfresh := (hnumbered.fresh i u.number (by rw [hcaller]; rfl)).1
      rw [hn] at hfresh
      cases hfresh
    rw [hstarted, Function.update_of_ne hne, hn]
  | _ => simp_all

/-! ## What the threads do -/

/-- After a step of caller `j`, another caller stands where it stood. -/
theorem of_setCaller {u : TimerManager κ} {i j : ℕ} {p q : TimerCaller κ}
    (hu : u.callers = s.callers) (hi : (u.setCaller j p).callers i = q) :
    s.callers i = q ∨ i = j ∧ p = q := by
  by_cases hij : i = j
  · subst hij
    rw [setCaller_self] at hi
    exact .inr ⟨rfl, hi⟩
  · rw [setCaller_of_ne hij, hu] at hi
    exact .inl hi

/-- A call of `start` has a timer that the constructor has made. -/
theorem CallStep.given (h : CallStep s s') {i : ℕ} {t : Timer κ} {q : TimerCaller κ}
    (hq : q = .starting t ∨ q = .inserting t) (hi : s'.callers i = q) :
    (s.callers i = .starting t ∨ s.callers i = .inserting t) ∨ t.Made := by
  have hold (hsame : s.callers i = q) : s.callers i = .starting t ∨ s.callers i = .inserting t :=
    hq.imp hsame.trans hsame.trans
  cases h with
  | construct hj hnew =>
    rcases of_setCaller rfl hi with hsame | ⟨-, rfl⟩
    · exact .inl (hold hsame)
    · rcases hq with hq | hq <;> cases hq
      exact .inr (Timer.of_new hnew).1
  | startLock hj hfree =>
    rcases of_setCaller rfl hi with hsame | ⟨rfl, rfl⟩
    · exact .inl (hold hsame)
    · rcases hq with hq | hq <;> cases hq
      exact .inl (.inl hj)
  | _ =>
    rcases of_setCaller rfl hi with hsame | ⟨-, rfl⟩
    · exact .inl (hold hsame)
    · rcases hq with hq | hq <;> cases hq

theorem Step.given (h : Step s s') {i : ℕ} {t : Timer κ}
    (hi : s'.callers i = .starting t ∨ s'.callers i = .inserting t) :
    (s.callers i = .starting t ∨ s.callers i = .inserting t) ∨ t.Made := by
  cases h with
  | call h => exact hi.elim (h.given (.inl rfl)) (h.given (.inr rfl))
  | timing h => cases h <;> exact .inl hi
  | _ => exact .inl hi

/-- After `clean` the timer is not in the map. -/
theorem CallStep.cleaned (h : CallStep s s') {i : ℕ} {id : ℤ} (hi : s'.callers i = .stopped id) :
    s.callers i = .stopped id ∨ s'.timerMap id = none := by
  cases h with
  | cleanNothing hj hnone =>
    rcases of_setCaller rfl hi with hsame | ⟨-, hnew⟩
    · exact .inl hsame
    · cases hnew
      exact .inr hnone
  | cleanErase hj =>
    rcases of_setCaller rfl hi with hsame | ⟨-, hnew⟩
    · exact .inl hsame
    · cases hnew
      exact .inr (by simp [setCaller, setTimer])
  | _ =>
    rcases of_setCaller rfl hi with hsame | ⟨-, hnew⟩
    · exact .inl hsame
    · cases hnew

theorem Step.cleaned (h : Step s s') {i : ℕ} {id : ℤ} (hi : s'.callers i = .stopped id) :
    s.callers i = .stopped id ∨ s'.timerMap id = none := by
  cases h with
  | call h => exact h.cleaned hi
  | timing h => cases h <;> exact .inl hi
  | _ => exact .inl hi

/-- A timer is stopped when a call of `stop` that has not found it any more returns. -/
theorem Step.isStopped (h : Step s s') {n : ℕ} (hn : s'.isStopped n = true) :
    s.isStopped n = true ∨ s'.timerMap = s.timerMap ∧
      ∃ t, s.started n = some t ∧ ∃ i, s.callers i = .stopped t.id := by
  cases h with
  | call h =>
    cases h with
    | @stopUnlock i id hi =>
      change (s.isStopped n || (s.started n).any fun t => t.id = id) = true at hn
      rw [Bool.or_eq_true, Option.any_eq_true] at hn
      rcases hn with hold | ⟨t, ht, hid⟩
      · exact .inl hold
      · obtain rfl : t.id = id := by simpa using hid
        exact .inr ⟨rfl, t, ht, i, hi⟩
    | _ => exact .inl hn
  | timing h => cases h <;> exact .inl hn
  | _ => exact .inl hn

theorem Step.stays_stopped (h : Step s s') {n : ℕ} (hn : s.isStopped n = true) :
    s'.isStopped n = true := by
  cases h with
  | call h =>
    cases h with
    | stopUnlock hi => exact Bool.or_eq_true_iff.mpr (.inl hn)
    | _ => exact hn
  | timing h => cases h <;> exact hn
  | _ => exact hn

/-! ## What holds in every run -/

structure Consistent (s : TimerManager κ) : Prop where
  owned : Owned s.holds s.mutex
  numbered : s.Numbered
  given : ∀ i t, s.callers i = .starting t ∨ s.callers i = .inserting t → t.Made
  listed : ∀ id t, s.timerMap id = some t →
    t.Made ∧ ∃ first, s.started t.number = some first ∧ first.id = id
  cleaned : ∀ i id, s.callers i = .stopped id → s.timerMap id = none
  stopped : ∀ n, s.isStopped n = true → s.Gone n ∧ (s.started n).isSome = true

/-- Only one caller has the mutex. -/
theorem Consistent.alone (h : s.Consistent) {i : ℕ} (hi : (s.callers i).holds = true) :
    s.timing = .sleeping ∧ ∀ j, (s.callers j).holds = true → j = i := by
  have hcaller : s.holds (.caller i) = true := hi
  constructor
  · cases htiming : s.timing with
    | sleeping => rfl
    | visiting next =>
      have hthread : s.holds .timing = true := by
        rw [holds, htiming]
        rfl
      cases h.owned.unique hcaller hthread
  · intro j hj
    have hother : s.holds (.caller j) = true := hj
    cases h.owned.unique hcaller hother
    rfl

theorem Consistent.listed_step (h : s.Consistent) (hmap : MapStep s s') (id : ℤ) (t : Timer κ)
    (ht : s'.timerMap id = some t) :
    t.Made ∧ ∃ first, s'.started t.number = some first ∧ first.id = id := by
  have hold (ht : s.timerMap id = some t) :
      t.Made ∧ ∃ first, s'.started t.number = some first ∧ first.id = id := by
    obtain ⟨hmade, first, hfirst, hid⟩ := h.listed id t ht
    exact ⟨hmade, first, hmap.started h.numbered hfirst, hid⟩
  have hmap' := hmap
  cases hmap' with
  | same hmap' hstarted => exact hold (hmap' ▸ ht)
  | @change j u u' hu hmade hmap' hstarted =>
    rw [hmap', Function.update_apply] at ht
    split_ifs at ht with hid
    · cases ht
      obtain ⟨hmade', first, hfirst, hfirst'⟩ := h.listed j u hu
      rw [hmade.2, hid]
      exact ⟨hmade.1 hmade', first, hmap.started h.numbered hfirst, hfirst'⟩
    · exact hold ht
  | @insert i u hcaller hnone hmap' hstarted =>
    rw [hmap', Function.update_apply] at ht
    split_ifs at ht with hid
    · cases ht
      exact ⟨h.given i t (.inr hcaller), t, by rw [hstarted, Function.update_self], hid.symm⟩
    · exact hold ht
  | erase hcaller hcaller' hmap' hstarted =>
    rw [hmap', Function.update_apply] at ht
    split_ifs at ht with hid
    exact hold ht
  | dead hu hdead hmap' hstarted =>
    rw [hmap', Function.update_apply] at ht
    split_ifs at ht with hid
    exact hold ht

theorem Consistent.step (h : s.Consistent) (hstep : Step s s') : s'.Consistent := by
  have hgone {n : ℕ} (hn : s.Gone n) (hstarted : (s.started n).isSome = true) : s'.Gone n := by
    refine hstep.map.gone hn fun i t hi => ?_
    rintro rfl
    have hfresh := (h.numbered.fresh i t.number (by rw [hi]; rfl)).1
    rw [hstarted] at hfresh
    cases hfresh
  have hrecord {n : ℕ} (hstarted : (s.started n).isSome = true) : (s'.started n).isSome = true := by
    obtain ⟨t, ht⟩ := Option.isSome_iff_exists.mp hstarted
    rw [hstep.map.started h.numbered ht]
    rfl
  refine ⟨hstep.owned h.owned, hstep.numbered h.numbered, fun i t hi => ?_, h.listed_step hstep.map,
    fun i id hi => ?_, fun n hn => ?_⟩
  · exact (hstep.given hi).elim (h.given i t) id
  · rcases hstep.cleaned hi with hold | hnone
    · refine hstep.map.absent (h.cleaned i id hold) fun j t hj => ?_
      cases (h.alone (i := i) (by rw [hold]; rfl)).2 j (by rw [hj]; rfl)
      rw [hold] at hj
      cases hj
    · exact hnone
  · rcases hstep.isStopped hn with hold | ⟨hsame, t, ht, i, hi⟩
    · obtain ⟨hn, hstarted⟩ := h.stopped n hold
      exact ⟨hgone hn hstarted, hrecord hstarted⟩
    · have hstarted : (s.started n).isSome = true := by rw [ht]; rfl
      refine ⟨fun id u hu => ?_, hrecord hstarted⟩
      rintro rfl
      rw [hsame] at hu
      obtain ⟨-, first, hfirst, rfl⟩ := h.listed id u hu
      cases ht.symm.trans hfirst
      rw [h.cleaned i t.id hi] at hu
      cases hu

theorem consistent_init : Consistent ({} : TimerManager κ) where
  owned thread := by cases thread <;> simp [holds, TimingPhase.holds, TimerCaller.holds]
  numbered := FreshNumbers.start
  given := by simp
  listed := by simp
  cleaned := by simp
  stopped := by simp

/-- While the timing thread has the mutex, it removes nothing, and nobody else does. -/
theorem Consistent.tick_removes_nothing (h : s.Consistent) (hstep : Step s s')
    (htick : s.timing ≠ .sleeping) {n : ℕ} (hn : ¬s.Gone n) : ¬s'.Gone n := by
  intro hgone
  refine hn fun id t ht => ?_
  rcases hstep.map.present ht (h.listed id t ht).1.running with ⟨u, hu, hnumber⟩ | ⟨i, hi, hi'⟩
  · exact hnumber ▸ hgone id u hu
  · exact absurd (h.alone (i := i) (by rw [hi]; rfl)).1 htick

/-! ## Proper steps -/

def IsOnce (s : TimerManager κ) (n : ℕ) : Prop :=
  ∃ t, s.started n = some t ∧ t.repeats = false

/-- A task for the timer with a number is over and has called the callback. -/
def HasFired (s : TimerManager κ) (n : ℕ) : Prop :=
  ∃ task ∈ s.tasks, task.number = n ∧ task.phase = .ended true

/-- The timing thread takes the mutex. -/
def TickBegins (s s' : TimerManager κ) : Prop :=
  s.timing = .sleeping ∧ s'.timing ≠ .sleeping

/-- `start` is called with an interval that does not overflow; `stop` erases a timer only when all
tasks for it are over; and when a tick begins, every timer that does not repeat and has fired has
been stopped. -/
structure Proper (s s' : TimerManager κ) : Prop where
  interval : ∀ i number id interval repeats callback,
    s.callers i = .constructing number id interval repeats callback →
    -2147483 ≤ interval ∧ interval ≤ 2147483
  erase : ∀ i id t, s.callers i = .erasing id → s'.callers i = .stopped id →
    s.timerMap id = some t → ∀ task ∈ s.tasks, task.number = t.number → task.Over
  tick : TickBegins s s' → ∀ n, s.IsOnce n → s.HasFired n → s.isStopped n = true

structure Backed (s : TimerManager κ) : Prop where
  timer : ∀ task ∈ s.tasks, task.Over ∨ s.timer task ≠ none
  access : s.faulted = false

/-- A task is one that was there before, or has its timer. -/
theorem Step.of_task (h : Step s s') {task' : TimerTask} (htask' : task' ∈ s'.tasks) :
    (∃ task ∈ s.tasks, task'.id = task.id ∧ task'.number = task.number ∧ (task.Over → task'.Over)) ∨
      s'.timer task' ≠ none := by
  have hset {k : ℕ} {task : TimerTask} {p : TaskPhase} (hk : s.tasks[k]? = some task)
      (hp : ∀ hasCalled, task.phase ≠ .ended hasCalled)
      (hmem : task' ∈ s.tasks.set k { task with phase := p }) :
      ∃ task ∈ s.tasks, task'.id = task.id ∧ task'.number = task.number ∧
        (task.Over → task'.Over) := by
    rcases List.mem_or_eq_of_mem_set hmem with hold | rfl
    · exact ⟨task', hold, rfl, rfl, id⟩
    · exact ⟨task, List.mem_of_getElem? hk, rfl, rfl, fun ⟨hasCalled, hover⟩ =>
        absurd hover (hp hasCalled)⟩
  cases h with
  | call hcall => cases hcall <;> exact .inl ⟨task', htask', rfl, rfl, fun hover => hover⟩
  | timing htiming =>
    cases htiming with
    | @submit next id t hnext hid hfirst ht hrunning htick =>
      rcases List.mem_append.mp htask' with hold | hnew
      · exact .inl ⟨task', hold, rfl, rfl, fun hover => hover⟩
      · obtain rfl := List.mem_singleton.mp hnew
        have htimer : (s.setTimer id (some t.tick.1)).timer { id, number := t.number } =
            some t.tick.1 :=
          timer_of (by simp [setTimer]) t.number_tick
        exact .inr (Option.ne_none_iff_exists'.mpr ⟨t.tick.1, htimer⟩)
    | _ => exact .inl ⟨task', htask', rfl, rfl, fun hover => hover⟩
  | task hk htimer htask =>
    refine .inl (hset hk (fun hasCalled hover => ?_) htask')
    rw [hover] at htask
    cases htask
  | called hk hphase => exact .inl (hset hk (by simp [hphase]) htask')
  | thrown hk hphase => exact .inl (hset hk (by simp [hphase]) htask')
  | fault p' hk hp hgone =>
    refine .inl (hset hk (fun hasCalled hover => ?_) htask')
    rw [hover] at hp
    exact hp
  | overflow p' hk htimer hphase hrearm => exact .inl (hset hk (by simp [hphase]) htask')

theorem Backed.step (h : s.Backed) (hconsistent : s.Consistent) (hstep : Step s s')
    (hproper : s.Proper s') : s'.Backed := by
  constructor
  · intro task' htask'
    rcases hstep.of_task htask' with ⟨task, htask, hid, hnumber, hover⟩ | hsome
    · rcases h.timer task htask with hover' | hsome
      · exact .inl (hover hover')
      · obtain ⟨t, htimer⟩ := Option.ne_none_iff_exists'.mp hsome
        obtain ⟨ht, htnumber⟩ := of_timer htimer
        rcases hstep.map.present ht (hconsistent.listed _ t ht).1.running with
          ⟨u, hu, hunumber⟩ | ⟨i, hi, hi'⟩
        · have hu' : s'.timer task' = some u :=
            timer_of (hid ▸ hu) (hunumber.trans (htnumber.trans hnumber.symm))
          exact .inr (by simp [hu'])
        · exact .inl (hover (hproper.erase i task.id t hi hi' ht task htask htnumber.symm))
    · exact .inr hsome
  · cases hstep with
    | call hcall =>
      cases hcall with
      | @overflow i number id interval repeats callback hi hnew =>
        have hfits : (Timer.new number id interval repeats callback).isSome = true :=
          Timer.new_isSome (hproper.interval _ _ _ _ _ _ hi)
        rw [hnew] at hfits
        cases hfits
      | _ => exact h.access
    | timing htiming => cases htiming <;> exact h.access
    | fault p' hk hp hgone =>
      rcases h.timer _ (List.mem_of_getElem? hk) with ⟨hasCalled, hover⟩ | hsome
      · rw [hover] at hp
        exact hp.elim
      · exact absurd hgone hsome
    | overflow p' hk htimer hphase hrearm =>
      exact absurd hrearm (hconsistent.listed _ _ (of_timer htimer).1).1.rearm
    | _ => exact h.access

end TimerManager

open TimerManager

/-- In the states of a run, the newest first: no task has accessed a timer that is not in the map
any more; no callback starts for a timer that has been stopped; and a timer that does not repeat
is not in the map any more after the first tick that begins after its task. -/
structure SafeToStop (states : List (TimerManager κ)) : Prop where
  access : ∀ s ∈ states, s.faulted = false
  stopped : ∀ s s', [s', s] <:+: states → ∀ (k : ℕ) (task task' : TimerTask),
    s.tasks[k]? = some task → s'.tasks[k]? = some task' → task.phase = .submitted →
    task'.phase = .calling → s.isStopped task.number = false
  removed : ∀ s past, s :: past <:+ states → s.timing = .sleeping → ∀ u u', [u', u] <:+: past →
    TickBegins u u' → ∀ n, u.IsOnce n → u.HasFired n → s.Gone n

/-- Timers are safe to stop in runs of proper steps; and in no run does a tick remove a timer. -/
theorem safe_to_stop {states : List (TimerManager κ)} (h : (timerManagers κ).Run states) :
    ((∀ s s', [s', s] <:+: states → Proper s s') → SafeToStop states) ∧
      ∀ s s', [s', s] <:+: states → s.timing ≠ .sleeping → ∀ n, ¬s.Gone n → ¬s'.Gone n := by
  have hconsistent : ∀ s ∈ states, s.Consistent := by
    refine h.invariant (fun s hinit => ?_) fun s s' hs hstep => hs.step hstep
    obtain rfl : s = _ := hinit
    exact consistent_init
  refine ⟨fun hproper => ?_, fun s s' hss' htick n hn => ?_⟩
  · have hbacked : ∀ s ∈ states, s.Consistent ∧ s.Backed := by
      refine h.invariant_along (fun s hinit => ?_) (fun s s' hs hstep hss' => ?_) hproper
      · obtain rfl : s = _ := hinit
        exact ⟨consistent_init, by simp, rfl⟩
      · exact ⟨hs.1.step hstep, hs.2.step hs.1 hstep hss'⟩
    constructor
    · exact fun s hs => (hbacked s hs).2.access
    · intro s s' hss' k task task' hk hk' hphase hphase'
      have hs : s ∈ states := hss'.mem (by simp)
      by_contra hstopped
      have hgone := ((hconsistent s hs).stopped task.number (by simpa using hstopped)).1
      rcases (hbacked s hs).2.timer task (List.mem_of_getElem? hk) with ⟨hasCalled, hover⟩ | hsome
      · rw [hphase] at hover
        cases hover
      · obtain ⟨t, htimer⟩ := Option.ne_none_iff_exists'.mp hsome
        obtain ⟨ht, hnumber⟩ := of_timer htimer
        exact hgone task.id t ht hnumber
    · intro s past hsuffix hsleeping u u' huu' hbegins n honce hfired
      have hstates : u' :: [u] <:+: states :=
        huu'.trans ((List.suffix_cons s past).trans hsuffix).isInfix
      have hstopped := (hproper u u' hstates).tick hbegins n honce hfired
      obtain ⟨later, earlier, rfl⟩ := huu'
      have hpath : s :: (later ++ [u']) ++ [u] <:+: states := by
        refine List.IsInfix.trans ⟨[], earlier, ?_⟩ hsuffix.isInfix
        simp
      have hlater := h.path hpath (R := Step) fun v w _ _ _ hstep => hstep
      have hstays {v : TimerManager κ} (hv : Relation.ReflTransGen Step u v) :
          v.isStopped n = true := by
        induction hv with
        | refl => exact hstopped
        | tail _ hstep ih => exact hstep.stays_stopped ih
      exact ((hconsistent s (hsuffix.mem List.mem_cons_self)).stopped n (hstays hlater)).1
  · exact (hconsistent s (hss'.mem (by simp))).tick_removes_nothing (h.step_of_infix hss') htick hn

section Check

variable {s s' u : TimerManager κ} {p : TimerCaller κ}

/-- Where a caller may stand before a proper step. -/
def TimerCaller.Fine (tasks : List TimerTask) : TimerCaller κ → Prop
  | constructing _ _ interval _ _ => -2147483 ≤ interval ∧ interval ≤ 2147483
  | erasing _ => ∀ task ∈ tasks, task.Over
  | _ => True

/-- Proper steps have led to a state in which all callers but the first are idle. -/
def Solo (s : TimerManager κ) : Prop :=
  (timerManagers κ).Leads Proper s ∧ ∀ i, i ≠ 0 → s.callers i = .idle

theorem Solo.proper (h : Solo s) (hfine : (s.callers 0).Fine s.tasks)
    (htick : TickBegins s s' → ∀ n, s.HasFired n → s.isStopped n = true) : Proper s s' := by
  have hall (i : ℕ) : (s.callers i).Fine s.tasks := by
    by_cases hi : i = 0
    · rw [hi]
      exact hfine
    · rw [h.2 i hi]
      trivial
  constructor
  · intro i number id interval repeats callback hi
    have hbounds := hall i
    rw [hi] at hbounds
    exact hbounds
  · intro i id t hi _ _ task htask _
    have hover := hall i
    rw [hi] at hover
    exact hover task htask
  · exact fun hbegins n _ => htick hbegins n

/-- A step of the first caller. -/
theorem Solo.call (h : Solo s) (hstep : CallStep s (u.setCaller 0 p)) (hu : u.callers = s.callers)
    (htiming : u.timing = s.timing) (hfine : (s.callers 0).Fine s.tasks) :
    Solo (u.setCaller 0 p) := by
  refine ⟨h.1.next (.call hstep) (h.proper hfine fun hbegins => ?_), fun i hi => ?_⟩
  · exact absurd (htiming.trans hbegins.1) hbegins.2
  · rw [setCaller_of_ne hi, hu]
    exact h.2 i hi

/-- A step of the timing thread or of a task. -/
theorem Solo.next (h : Solo s) (hstep : TimerManager.Step s s') (hcallers : s'.callers = s.callers)
    (hfine : (s.callers 0).Fine s.tasks)
    (htick : TickBegins s s' → ∀ n, s.HasFired n → s.isStopped n = true) : Solo s' :=
  ⟨h.1.next hstep (h.proper hfine htick), fun i hi => hcallers ▸ h.2 i hi⟩

theorem update_none {m : ℤ → Option (Timer κ)} {x : Option (Timer κ)} {j : ℤ} (hj : j ≠ 1)
    (hm : m j = none) : Function.update m 1 x j = none := by
  rw [Function.update_of_ne hj, hm]

/-- A timer is started and a tick submits its task. `stop` erases it at once, or the callback
returns and a tick comes, after `stop` or without it. -/
theorem exists_fired :
    (∃ past, ∃ s : TimerManager ℕ, (timerManagers ℕ).Run (s :: past) ∧ s.faulted = true) ∧
    (∃ past, ∃ s u u' : TimerManager ℕ, (timerManagers ℕ).Run (s :: u' :: u :: past) ∧
      (∀ v w, [w, v] <:+: s :: u' :: u :: past → Proper v w) ∧ s.timing = .sleeping ∧
        TickBegins u u' ∧ u.IsOnce 1 ∧ u.HasFired 1) ∧
    ∃ past, ∃ s v u u' : TimerManager ℕ, (timerManagers ℕ).Run (s :: v :: u' :: u :: past) ∧
      s.timing = .sleeping ∧ TickBegins u u' ∧ u.IsOnce 1 ∧ u.HasFired 1 ∧ ¬s.Gone 1 := by
  have hstart : Solo ({} : TimerManager ℕ) := ⟨.start rfl, fun _ _ => rfl⟩
  have hdrawn := hstart.call (.start 0 false (some 7) rfl (by decide)) rfl rfl trivial
  have hmade := hdrawn.call (.construct rfl rfl) rfl rfl
    (show -2147483 ≤ (0 : ℤ) ∧ (0 : ℤ) ≤ 2147483 by decide)
  have hlocked := hmade.call (.startLock rfl rfl) rfl rfl trivial
  have hinserted := hlocked.call (.startInsert rfl rfl) rfl rfl trivial
  have hstarted := hinserted.call (.startUnlock rfl) rfl rfl trivial
  have htick := hstarted.next (.timing (.lock rfl rfl)) rfl trivial
    fun _ _ ⟨_, htask, _⟩ => absurd htask List.not_mem_nil
  have hsubmitted := htick.next (.timing (@TimingStep.submit ℕ _ _ 1 _ rfl (by decide)
    (fun j _ hj => Function.update_of_ne (Int.ne_of_lt hj) _ _) rfl rfl rfl)) rfl trivial
    fun hbegins => absurd hbegins.1 (by simp)
  have hslept := hsubmitted.next (.timing (.unlock rfl (fun j hj =>
    update_none (show j ≠ 1 by omega) (update_none (by omega) rfl)))) rfl trivial
    fun hbegins => absurd hbegins.1 (by simp)
  -- no other id is in the map, and the task runs
  have hcalling := hslept.next (.task (k := 0) rfl rfl (.call rfl)) rfl trivial
    fun hbegins => absurd rfl hbegins.2
  have hcalled := hcalling.next (.called (k := 0) rfl rfl) rfl trivial
    fun hbegins => absurd rfl hbegins.2
  have hstopping := hcalled.next (.task (k := 0) rfl rfl (.once rfl)) rfl trivial
    fun hbegins => absurd rfl hbegins.2
  have hover := hstopping.next (.task (k := 0) rfl rfl .stop) rfl trivial
    fun hbegins => absurd rfl hbegins.2
  have hempty (j : ℤ) (hj : j ≠ 1) {x₁ x₂ x₃ x₄ x₅ : Option (Timer ℕ)} :
      Function.update (Function.update (Function.update (Function.update (Function.update
        (fun _ => none) 1 x₁) 1 x₂) 1 x₃) 1 x₄) 1 x₅ j = none := by
    simp [hj]
  refine ⟨?_, ?_, ?_⟩
  · obtain ⟨⟨past, hrun, -⟩, -⟩ := hslept
    have hstop := hrun.next (.call (.stop (i := 0) 1 rfl))
    have hcleaning := hstop.next (.call (.stopLock (i := 0) rfl rfl))
    have herasing := hcleaning.next (.call (.cleanStop (i := 0) rfl rfl))
    have herased := herasing.next (.call (.cleanErase (i := 0) rfl))
    have hstopped := herased.next (.call (.stopUnlock (i := 0) rfl))
    exact ⟨_, _, hstopped.next (.fault (k := 0) .calling rfl trivial rfl), rfl⟩
  · have hstop := hover.call (.stop 1 rfl) rfl rfl trivial
    have hcleaning := hstop.call (.stopLock rfl rfl) rfl rfl trivial
    have herasing := hcleaning.call (.cleanStop rfl rfl) rfl rfl trivial
    have herased := herasing.call (.cleanErase rfl) rfl rfl
      fun task htask => by
        obtain rfl := List.mem_singleton.mp htask
        exact ⟨true, rfl⟩
    have hstopped := herased.call (.stopUnlock rfl) rfl rfl trivial
    have hfired {u u' : TimerManager ℕ} (h : Solo u) (htasks : u.tasks = [⟨1, 1, .ended true⟩])
        (hidle : u.callers 0 = .idle) (hstopped : u.isStopped 1 = true) : Proper u u' := by
      refine h.proper (by rw [hidle]; trivial) fun _ n ⟨task, htask, hn, _⟩ => ?_
      rw [htasks] at htask
      obtain rfl := List.mem_singleton.mp htask
      exact hn ▸ hstopped
    have hbegun := hstopped.next (.timing (.lock rfl rfl)) rfl trivial
      fun _ n ⟨task, htask, hn, _⟩ => by
        obtain rfl := List.mem_singleton.mp htask
        exact hn ▸ rfl
    obtain ⟨past, hrun, hproper⟩ := hstopped.1
    refine ⟨past, _, _, _, (hrun.next (.timing (.lock rfl rfl))).next (.timing (.unlock rfl ?_)),
      TransitionSystem.successive_cons
        (TransitionSystem.successive_cons hproper (hfired hstopped rfl rfl rfl))
        (hfired hbegun rfl rfl rfl), rfl, ⟨rfl, by simp⟩, ⟨_, rfl, rfl⟩,
      ⟨_, List.mem_singleton.mpr rfl, rfl, rfl⟩⟩
    intro j hj
    by_cases hone : j = 1
    · subst hone
      rfl
    · exact update_none hone (update_none hone (hempty j hone))
  · obtain ⟨⟨past, hrun, -⟩, -⟩ := hover
    have hbegun := hrun.next (.timing (.lock rfl rfl))
    have hpassed := hbegun.next (.timing (@TimingStep.pass ℕ _ _ 1 _ rfl (by decide)
      (fun j _ hj => hempty j (Int.ne_of_lt hj)) rfl rfl rfl))
    have hended := hpassed.next (.timing (.unlock rfl (fun j hj =>
      update_none (show j ≠ 1 by omega) (hempty j (by omega)))))
    exact ⟨past, _, _, _, _, hended, rfl, ⟨rfl, by simp⟩, ⟨_, rfl, rfl⟩,
      ⟨_, List.mem_singleton.mpr rfl, rfl, rfl⟩, fun hgone => hgone 1 _ rfl rfl⟩

/-- A timer that fires once is stopped before the next tick. -/
theorem safe_to_stop_fired : ∃ states, (timerManagers ℕ).Run states ∧ SafeToStop states ∧
    ∃ s past, s :: past <:+ states ∧ ∃ u u', [u', u] <:+: past ∧ TickBegins u u' ∧ u.IsOnce 1 ∧
      u.HasFired 1 ∧ s.Gone 1 := by
  obtain ⟨-, ⟨past, s, u, u', hrun, hproper, hend, hbegins, honce, hfired⟩, -⟩ := exists_fired
  have hsafe := (safe_to_stop hrun).1 hproper
  have hpair : [u', u] <:+: u' :: u :: past := (List.prefix_append [u', u] past).isInfix
  exact ⟨_, hrun, hsafe, s, u' :: u :: past, List.suffix_rfl, u, u', hpair, hbegins, honce, hfired,
    hsafe.removed s _ List.suffix_rfl hend u u' hpair hbegins 1 honce hfired⟩

/-- A timer is stopped before its task begins; or it fires once, and nobody stops it. -/
theorem task_accesses_erased_timer :
    (∃ states, (timerManagers ℕ).Run states ∧ (∃ s ∈ states, s.faulted = true) ∧
      ¬SafeToStop states) ∧
    ∃ s past, (timerManagers ℕ).Run (s :: past) ∧ (∃ u ∈ past, u.IsOnce 1 ∧ u.HasFired 1) ∧
      ¬s.Gone 1 ∧ ¬SafeToStop (s :: past) := by
  obtain ⟨⟨past, s, hrun, hfault⟩, -, before, s', v, u, u', hrun', hend, hbegins, honce, hfired,
    hthere⟩ := exists_fired
  refine ⟨⟨_, hrun, ⟨s, List.mem_cons_self, hfault⟩, fun hsafe => ?_⟩, s', _, hrun',
    ⟨u, by simp, honce, hfired⟩, hthere, fun hsafe => ?_⟩
  · rw [hsafe.access s List.mem_cons_self] at hfault
    cases hfault
  · have hpair : [u', u] <:+: v :: u' :: u :: before := ⟨[v], before, rfl⟩
    exact hthere (hsafe.removed s' _ List.suffix_rfl hend u u' hpair hbegins 1 honce hfired)

end Check

end DarwinCore.Timers
