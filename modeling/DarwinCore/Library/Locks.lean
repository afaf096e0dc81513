import Mathlib.Data.Option.Basic
import Mathlib.Logic.Function.Basic
import Mathlib.Data.Finset.Insert
import Mathlib.Data.Finset.Erase

/-! # Mutexes and condition variables

The mutex knows its owner, and where a thread stands tells whether it holds the mutex. A thread
that waits on a condition variable needs somebody who is going to notify it as soon as it could
go on. -/

namespace Monitor

/-! ## The mutex -/

section Mutex

variable {ι : Type*} {holds holds' : ι → Bool} {owner owner' : Option ι} {me i j : ι}

/-- The owner is the thread that stands where the mutex is held. -/
def Owned (holds : ι → Bool) (owner : Option ι) : Prop :=
  ∀ i, holds i = true ↔ owner = some i

/-- What a step of a thread does with the mutex; `held` tells whether it holds it. -/
inductive MutexStep (me : ι) (held held' : Bool) (owner owner' : Option ι) : Prop where
  | acquire (hfree : owner = none) (howner : owner' = some me) (hheld : held' = true)
  | release (hheld : held = true) (howner : owner' = none) (hheld' : held' = false)
  | keep (howner : owner' = owner) (hheld : held' = held)

theorem Owned.unique (h : Owned holds owner) (hi : holds i = true) (hj : holds j = true) :
    i = j := by
  rw [h i] at hi
  rw [h j, hi] at hj
  exact Option.some.inj hj

theorem Owned.congr (h : Owned holds owner) (hholds : ∀ i, holds' i = holds i) :
    Owned holds' owner := by
  intro i
  rw [hholds i, h i]

theorem Owned.step (h : Owned holds owner) (me : ι)
    (hstep : MutexStep me (holds me) (holds' me) owner owner')
    (hothers : ∀ i, i ≠ me → holds' i = holds i) : Owned holds' owner' := by
  intro i
  by_cases hi : i = me
  · subst hi
    cases hstep with
    | acquire hfree howner hheld => simp [howner, hheld]
    | release hheld howner hheld' => simp [howner, hheld']
    | keep howner hheld => rw [howner, hheld, h i]
  · rw [hothers i hi]
    cases hstep with
    | acquire hfree howner hheld =>
      rw [h i, hfree, howner]
      simp [Ne.symm hi]
    | release hheld howner hheld' =>
      rw [h me] at hheld
      rw [h i, hheld, howner]
      simp [Ne.symm hi]
    | keep howner hheld => rw [howner, h i]

end Mutex

/-! ## Condition variables -/

section Notify

variable {ι σ : Type*} [DecidableEq ι]

/-- `notify_one`: one of the threads that wait is woken, if any waits. -/
inductive NotifyOne (isWaiting : σ → Prop) (wake : σ → σ) (threads threads' : ι → σ) : Prop where
  | nobody (h : ∀ i, ¬isWaiting (threads i)) (hsame : threads' = threads)
  | one (i : ι) (h : isWaiting (threads i))
      (hwoken : threads' = Function.update threads i (wake (threads i)))

variable {isWaiting : σ → Prop} {wake : σ → σ} {threads threads' : ι → σ}

theorem NotifyOne.eq_or (h : NotifyOne isWaiting wake threads threads') (i : ι) :
    threads' i = threads i ∨ isWaiting (threads i) ∧ threads' i = wake (threads i) := by
  cases h with
  | nobody h hsame => exact .inl (by rw [hsame])
  | one j hj hwoken =>
    by_cases hij : i = j
    · subst hij
      exact .inr ⟨hj, by rw [hwoken, Function.update_self]⟩
    · exact .inl (by rw [hwoken, Function.update_of_ne hij])

end Notify

/-- Somebody waits without having been notified; the predicate is true; somebody is on the way to
notify. -/
structure Signal where
  waiting : Prop
  ready : Prop
  coming : Prop

namespace Signal

/-- No one waits for a predicate that is true without somebody on the way. -/
def Attended (s : Signal) : Prop :=
  s.waiting → s.ready → s.coming

inductive Step (s s' : Signal) : Prop where
  /-- Someone may have started to wait, since the predicate is false. -/
  | wait (hready : ¬s'.ready)
  /-- All who waited have been notified. -/
  | notify (hwaiting : ¬s'.waiting)
  | announce (hcoming : s'.coming)
  | other (hwaiting : s'.waiting → s.waiting) (hready : s'.ready → s.ready)
      (hcoming : s.coming → s'.coming)

theorem Step.attended {s s' : Signal} (hstep : Step s s') (h : s.Attended) : s'.Attended := by
  intro hwaiting' hready'
  cases hstep with
  | wait hready => exact absurd hready' hready
  | notify hwaiting => exact absurd hwaiting' hwaiting
  | announce hcoming => exact hcoming
  | other hwaiting hready hcoming => exact hcoming (h (hwaiting hwaiting') (hready hready'))

end Signal

end Monitor

/-! ## Shared mutexes

Any number of threads hold it to read, or one to write. -/

structure SharedMutex (ι : Type*) where
  readers : Finset ι := ∅
  writer : Option ι := none

namespace SharedMutex

inductive Mode where
  | shared
  | exclusive
  deriving DecidableEq

/-- The thread `i` takes the mutex or releases it; what it holds of it before and after. -/
inductive Step {ι : Type*} [DecidableEq ι] (i : ι) :
    SharedMutex ι → Option Mode → SharedMutex ι → Option Mode → Prop where
  | lockShared {mutex : SharedMutex ι} (hwriter : mutex.writer = none) :
      Step i mutex none { mutex with readers := insert i mutex.readers } (some .shared)
  | unlockShared {mutex : SharedMutex ι} :
      Step i mutex (some .shared) { mutex with readers := mutex.readers.erase i } none
  | lock {mutex : SharedMutex ι} (hwriter : mutex.writer = none) (hreaders : mutex.readers = ∅) :
      Step i mutex none { mutex with writer := some i } (some .exclusive)
  | unlock {mutex : SharedMutex ι} :
      Step i mutex (some .exclusive) { mutex with writer := none } none

variable {ι : Type*} {mutex mutex' : SharedMutex ι} {i j : ι} {held : ι → Option Mode}
  {before after : Option Mode}

/-- The mutex knows what each thread holds. -/
structure Agrees (mutex : SharedMutex ι) (held : ι → Option Mode) : Prop where
  shared : ∀ i, i ∈ mutex.readers ↔ held i = some .shared
  exclusive : ∀ i, mutex.writer = some i ↔ held i = some .exclusive
  alone : ∀ i, mutex.writer = some i → mutex.readers = ∅

theorem agrees_init : ({} : SharedMutex ι).Agrees fun _ => none where
  shared i := by simp
  exclusive i := by simp
  alone i h := by cases h

theorem Agrees.eq (h : mutex.Agrees held) (hi : held i = some .exclusive) (hj : held j ≠ none) :
    i = j := by
  have hwriter := (h.exclusive i).mpr hi
  cases hmode : held j with
  | none => exact absurd hmode hj
  | some mode =>
    cases mode with
    | shared =>
      have hreader := (h.shared j).mpr hmode
      rw [h.alone i hwriter] at hreader
      exact absurd hreader (Finset.notMem_empty j)
    | exclusive =>
      have hother := (h.exclusive j).mpr hmode
      exact Option.some.inj (hwriter.symm.trans hother)

theorem Agrees.free (h : mutex.Agrees held) (hfree : ∀ i, held i = none) :
    mutex.writer = none ∧ mutex.readers = ∅ := by
  refine ⟨Option.eq_none_iff_forall_ne_some.mpr fun i hi => ?_,
    Finset.eq_empty_of_forall_notMem fun i hi => ?_⟩
  · rw [h.exclusive, hfree i] at hi
    cases hi
  · rw [h.shared, hfree i] at hi
    cases hi

theorem Agrees.step [DecidableEq ι] (h : mutex.Agrees held) (hheld : held i = before)
    (hstep : Step i mutex before mutex' after) :
    mutex'.Agrees (Function.update held i after) := by
  cases hstep with
  | lockShared hwriter =>
    refine ⟨fun j => ?_, fun j => ?_, fun j hj => ?_⟩
    · by_cases hji : j = i
      · subst hji
        simp
      · simp [hji, h.shared j]
    · by_cases hji : j = i
      · subst hji
        simp [hwriter]
      · simp [Function.update_of_ne hji, h.exclusive j]
    · rw [hwriter] at hj
      cases hj
  | unlockShared =>
    refine ⟨fun j => ?_, fun j => ?_, fun j hj => ?_⟩
    · by_cases hji : j = i
      · subst hji
        simp
      · simp [hji, h.shared j]
    · by_cases hji : j = i
      · subst hji
        have hnot : mutex.writer ≠ some j := fun hwriter => by
          rw [(h.exclusive j).mp hwriter] at hheld
          cases hheld
        simp [hnot]
      · simp [Function.update_of_ne hji, h.exclusive j]
    · have hempty : mutex.readers = ∅ := h.alone j hj
      simp [hempty]
  | lock hwriter hreaders =>
    refine ⟨fun j => ?_, fun j => ?_, fun j _ => hreaders⟩
    · by_cases hji : j = i
      · subst hji
        simp [hreaders]
      · simp [Function.update_of_ne hji, h.shared j]
    · by_cases hji : j = i
      · subst hji
        simp
      · have hnot : held j ≠ some .exclusive := fun hj => by
          rw [(h.exclusive j).mpr hj] at hwriter
          cases hwriter
        simp [Function.update_of_ne hji, hnot, Ne.symm hji]
  | unlock =>
    have hwriter := (h.exclusive i).mpr hheld
    refine ⟨fun j => ?_, fun j => ?_, fun j hj => by cases hj⟩
    · by_cases hji : j = i
      · subst hji
        simp [h.alone j hwriter]
      · simp [Function.update_of_ne hji, h.shared j]
    · by_cases hji : j = i
      · subst hji
        simp
      · have hnot : held j ≠ some .exclusive := fun hj =>
          hji (h.eq hheld (by rw [hj]; exact Option.some_ne_none _)).symm
        simp [Function.update_of_ne hji, hnot]

end SharedMutex
