import DarwinCore.Library.History
import DarwinCore.Model.Thread.Throttle

/-! # The firings of a throttle

Nothing that is submitted is lost, and nothing fires unasked. Firings are an interval apart in the
runs in which no event is armed with a clock value from before its last firing. -/

namespace DarwinCore.Thread.Throttle

open History ThrottleEntry

variable {ids left : List ℤ} {interval : ℤ → ℤ} {s t : Throttle} {id now armed : ℤ}
  {log : List ThrottleEntry}

/-! ## What is to hold of a log -/

/-- The event was submitted and armed for this time, and no pass has come to it since then with a
clock value that has reached it. -/
def Waiting (id armed : ℤ) : List ThrottleEntry → Prop :=
  Lately (· = submitted id armed) fun e => ∀ now fired, e = visited id now fired → now < armed

/-- The event was submitted, and has not fired since. -/
def Asked (id : ℤ) : List ThrottleEntry → Prop :=
  Lately (fun e => ∃ armed, e = submitted id armed) fun e => ∀ now, e ≠ visited id now true

/-- A pass with this clock value has come to the event, and none has begun since. -/
def Passed (id now : ℤ) : List ThrottleEntry → Prop :=
  Lately (fun e => ∃ fired, e = visited id now fired) fun e => ∀ now, e ≠ began now

/-- The first pass whose clock value has reached the armed time fires. -/
def NothingLost (log : List ThrottleEntry) : Prop :=
  ∀ e past, e :: past <:+ log → ∀ id now fired, e = visited id now fired →
    ∀ armed, Waiting id armed past → armed ≤ now → fired = true

/-- No firing without a submit since the previous one. -/
def NoneUnasked (log : List ThrottleEntry) : Prop :=
  ∀ e past, e :: past <:+ log → ∀ id now, e = visited id now true → Asked id past

/-- A pass comes to every registered event. -/
def PassesComplete (ids : List ℤ) (log : List ThrottleEntry) : Prop :=
  ∀ e past, e :: past <:+ log → ∀ now, e = ended now → ∀ id ∈ ids, Passed id now past

/-- Two firings of one event are at least its interval apart. -/
def Spaced (interval : ℤ → ℤ) (log : List ThrottleEntry) : Prop :=
  log.Pairwise fun e e' => ∀ id now now', e = visited id now true → e' = visited id now' true →
    now' + interval id ≤ now

/-! ## Nothing lost, nothing unasked -/

structure Kept (ids : List ℤ) (interval : ℤ → ℤ) (s : Throttle) : Prop where
  registered : ∀ id ∈ ids, ∃ item, s.eventMap id = some item
  others : ∀ id ∉ ids, s.eventMap id = none
  intervals : ∀ id, ∀ item ∈ s.eventMap id, item.intervalSeconds = interval id ∧
    0 ≤ item.nextCallTime
  hasCall : s.hasCall = true
  waiting : ∀ id, ∀ item ∈ s.eventMap id, ∀ armed, Waiting id armed s.log →
    item.nextCallTime = armed ∧ 0 < armed
  asked : ∀ id, ∀ item ∈ s.eventMap id, item.nextCallTime ≠ 0 → Asked id s.log
  nothing_lost : NothingLost s.log
  none_unasked : NoneUnasked s.log

/-- What `submit` does with the mutex. -/
theorem arm_cases (s : Throttle) (id now : ℤ) :
    s.eventMap id = none ∧ s.arm id now = s ∨
      ∃ item, s.eventMap id = some item ∧
        (item.nextCallTime = 0 ∧ s.arm id now =
            (s.setTime id item (now + item.intervalSeconds)).record
              (submitted id (now + item.intervalSeconds)) ∨
          item.nextCallTime ≠ 0 ∧ s.arm id now = s.record (submitted id item.nextCallTime)) := by
  rw [arm]
  cases s.eventMap id with
  | none => exact .inl ⟨rfl, rfl⟩
  | some item =>
    refine .inr ⟨item, rfl, ?_⟩
    by_cases hzero : item.nextCallTime = 0
    · exact .inl ⟨hzero, if_pos hzero⟩
    · exact .inr ⟨hzero, if_neg hzero⟩

theorem visit_cases (s : Throttle) (id now : ℤ) :
    s.eventMap id = none ∧ s.visit id now = s ∨
      ∃ item, s.eventMap id = some item ∧
        ((s.hasCall = true ∧ 0 < item.nextCallTime ∧ item.nextCallTime ≤ now) ∧
            s.visit id now = (s.setTime id item 0).record (visited id now true) ∨
          ¬(s.hasCall = true ∧ 0 < item.nextCallTime ∧ item.nextCallTime ≤ now) ∧
            s.visit id now = s.record (visited id now false)) := by
  rw [visit]
  cases s.eventMap id with
  | none => exact .inl ⟨rfl, rfl⟩
  | some item =>
    refine .inr ⟨item, rfl, ?_⟩
    by_cases hready : s.hasCall = true ∧ 0 < item.nextCallTime ∧ item.nextCallTime ≤ now
    · exact .inl ⟨hready, if_pos hready⟩
    · exact .inr ⟨hready, if_neg hready⟩

theorem Kept.congr (h : Kept ids interval s) (hmap : t.eventMap = s.eventMap)
    (hcall : t.hasCall = s.hasCall) (hlog : t.log = s.log) : Kept ids interval t := by
  obtain ⟨eventMap, hasCall, mutex, worker, submitters, clock, log⟩ := t
  subst hmap hcall hlog
  exact ⟨h.registered, h.others, h.intervals, h.hasCall, h.waiting, h.asked, h.nothing_lost,
    h.none_unasked⟩

theorem Kept.record (h : Kept ids interval s) {e : ThrottleEntry}
    (hsubmitted : ∀ id armed, e ≠ submitted id armed)
    (hvisited : ∀ id now fired, e ≠ visited id now fired) : Kept ids interval (s.record e) := by
  refine ⟨h.registered, h.others, h.intervals, h.hasCall, ?_, ?_, ?_, ?_⟩
  · intro id item hitem armed hwaiting
    rcases lately_cons.mp hwaiting with hnew | ⟨-, hold⟩
    · exact absurd hnew (hsubmitted id armed)
    · exact h.waiting id item hitem armed hold
  · intro id item hitem hne
    exact lately_cons.mpr (.inr ⟨fun now => hvisited id now true, h.asked id item hitem hne⟩)
  · exact forall_suffix_cons.mpr ⟨fun id now fired he => absurd he (hvisited id now fired),
      h.nothing_lost⟩
  · exact forall_suffix_cons.mpr ⟨fun id now he => absurd he (hvisited id now true),
      h.none_unasked⟩

section SetTime

variable {item : EventItem} {time : ℤ}

theorem setTime_eventMap (s : Throttle) (id : ℤ) (item : EventItem) (time : ℤ) (j : ℤ) :
    (s.setTime id item time).eventMap j =
      if j = id then some { item with nextCallTime := time } else s.eventMap j := by
  simp [setTime, Function.update_apply]

/-- The map keeps its keys and intervals. -/
theorem Kept.setTime_items (h : Kept ids interval s) (hitem : s.eventMap id = some item)
    (htime : 0 ≤ time) :
    (∀ id' ∈ ids, ∃ item', (s.setTime id item time).eventMap id' = some item') ∧
      (∀ id' ∉ ids, (s.setTime id item time).eventMap id' = none) ∧
      ∀ id', ∀ item' ∈ (s.setTime id item time).eventMap id',
        item'.intervalSeconds = interval id' ∧ 0 ≤ item'.nextCallTime := by
  refine ⟨fun id' hid' => ?_, fun id' hid' => ?_, fun id' item' hitem' => ?_⟩
  · rw [setTime_eventMap]
    split
    · exact ⟨_, rfl⟩
    · exact h.registered id' hid'
  · have hne : id' ≠ id := by
      rintro rfl
      rw [h.others id' hid'] at hitem
      cases hitem
    rw [setTime_eventMap, if_neg hne]
    exact h.others id' hid'
  · rw [setTime_eventMap] at hitem'
    split at hitem'
    · rename_i heq
      obtain rfl := Option.some.inj hitem'
      exact ⟨heq ▸ (h.intervals id item hitem).1, htime⟩
    · exact h.intervals id' item' hitem'

end SetTime

theorem Kept.arm (h : Kept ids interval s) (hinterval : ∀ id ∈ ids, 1 ≤ interval id)
    (hnow : 0 < now) : Kept ids interval (s.arm id now) := by
  have hquiet (id' : ℤ) (armed now' : ℤ) : submitted id armed ≠ visited id' now' true :=
    fun he => by cases he
  have hlogs (armed : ℤ) : NothingLost (submitted id armed :: s.log) ∧
      NoneUnasked (submitted id armed :: s.log) :=
    ⟨forall_suffix_cons.mpr ⟨fun _ _ _ he => (by cases he), h.nothing_lost⟩,
      forall_suffix_cons.mpr ⟨fun _ _ he => (by cases he), h.none_unasked⟩⟩
  rcases s.arm_cases id now with ⟨-, heq⟩ | ⟨item, hitem, ⟨hzero, heq⟩ | ⟨hne, heq⟩⟩
  · rw [heq]
    exact h
  · -- The event was idle.
    have hid : id ∈ ids := by
      by_contra hid
      rw [h.others id hid] at hitem
      cases hitem
    have hpos : 0 < now + item.intervalSeconds := by
      have hone := hinterval id hid
      have hsame := (h.intervals id item hitem).1
      omega
    obtain ⟨hregistered, hothers, hintervals⟩ := h.setTime_items hitem (Int.le_of_lt hpos)
    rw [heq]
    refine ⟨hregistered, hothers, hintervals, h.hasCall, ?_, ?_, (hlogs _).1, (hlogs _).2⟩
    · intro id' item' hitem' armed hwaiting
      change (s.setTime id item (now + item.intervalSeconds)).eventMap id' = some item' at hitem'
      rw [setTime_eventMap] at hitem'
      rcases lately_cons.mp hwaiting with hnew | ⟨-, hold⟩
      · obtain ⟨rfl, rfl⟩ : id = id' ∧ now + item.intervalSeconds = armed := by simpa using hnew
        rw [if_pos rfl] at hitem'
        obtain rfl := Option.some.inj hitem'
        exact ⟨rfl, hpos⟩
      · by_cases hsame : id' = id
        · subst hsame
          have hboth := h.waiting id' item hitem armed hold
          omega
        · rw [if_neg hsame] at hitem'
          exact h.waiting id' item' hitem' armed hold
    · intro id' item' hitem' hne'
      change (s.setTime id item (now + item.intervalSeconds)).eventMap id' = some item' at hitem'
      rw [setTime_eventMap] at hitem'
      by_cases hsame : id' = id
      · subst hsame
        exact lately_cons.mpr (.inl ⟨_, rfl⟩)
      · rw [if_neg hsame] at hitem'
        exact lately_cons.mpr (.inr ⟨hquiet id' _, h.asked id' item' hitem' hne'⟩)
  · -- The event has been armed already.
    rw [heq]
    refine ⟨h.registered, h.others, h.intervals, h.hasCall, ?_, ?_, (hlogs _).1, (hlogs _).2⟩
    · intro id' item' hitem' armed hwaiting
      rcases lately_cons.mp hwaiting with hnew | ⟨-, hold⟩
      · obtain ⟨rfl, rfl⟩ : id = id' ∧ item.nextCallTime = armed := by simpa using hnew
        obtain rfl : item = item' := Option.some.inj (hitem.symm.trans hitem')
        have hle := (h.intervals id item hitem).2
        exact ⟨rfl, by omega⟩
      · exact h.waiting id' item' hitem' armed hold
    · intro id' item' hitem' hne'
      exact lately_cons.mpr (.inr ⟨hquiet id' _, h.asked id' item' hitem' hne'⟩)

theorem Kept.visit (h : Kept ids interval s) : Kept ids interval (s.visit id now) := by
  rcases s.visit_cases id now with ⟨-, heq⟩ | ⟨item, hitem, ⟨hready, heq⟩ | ⟨hnot, heq⟩⟩
  · rw [heq]
    exact h
  · -- The event fires.
    obtain ⟨hregistered, hothers, hintervals⟩ := h.setTime_items hitem (Int.le_refl 0)
    rw [heq]
    refine ⟨hregistered, hothers, hintervals, h.hasCall, ?_, ?_, ?_, ?_⟩
    · intro id' item' hitem' armed hwaiting
      change (s.setTime id item 0).eventMap id' = some item' at hitem'
      rw [setTime_eventMap] at hitem'
      rcases lately_cons.mp hwaiting with hnew | ⟨hquiet, hold⟩
      · cases hnew
      · by_cases hsame : id' = id
        · subst hsame
          have hlt := hquiet now true rfl
          have hboth := h.waiting id' item hitem armed hold
          omega
        · rw [if_neg hsame] at hitem'
          exact h.waiting id' item' hitem' armed hold
    · intro id' item' hitem' hne'
      change (s.setTime id item 0).eventMap id' = some item' at hitem'
      rw [setTime_eventMap] at hitem'
      by_cases hsame : id' = id
      · rw [if_pos hsame] at hitem'
        obtain rfl := Option.some.inj hitem'
        exact absurd rfl hne'
      · rw [if_neg hsame] at hitem'
        refine lately_cons.mpr (.inr ⟨fun now' he => ?_, h.asked id' item' hitem' hne'⟩)
        cases he
        exact hsame rfl
    · refine forall_suffix_cons.mpr ⟨fun id' now' fired he armed _ _ => ?_, h.nothing_lost⟩
      cases he
      rfl
    · refine forall_suffix_cons.mpr ⟨fun id' now' he => ?_, h.none_unasked⟩
      cases he
      exact h.asked id item hitem (by omega)
  · rw [heq]
    refine ⟨h.registered, h.others, h.intervals, h.hasCall, ?_, ?_, ?_, ?_⟩
    · intro id' item' hitem' armed hwaiting
      rcases lately_cons.mp hwaiting with hnew | ⟨-, hold⟩
      · cases hnew
      · exact h.waiting id' item' hitem' armed hold
    · intro id' item' hitem' hne'
      exact lately_cons.mpr (.inr ⟨fun now' he => (by cases he), h.asked id' item' hitem' hne'⟩)
    · refine forall_suffix_cons.mpr ⟨fun id' now' fired he armed hwaiting hle => ?_,
        h.nothing_lost⟩
      cases he
      obtain ⟨hsame, hpos⟩ := h.waiting id item hitem armed hwaiting
      exact absurd ⟨h.hasCall, hsame ▸ hpos, hsame ▸ hle⟩ hnot
    · exact forall_suffix_cons.mpr ⟨fun id' now' he => (by cases he), h.none_unasked⟩

/-! ## Passes -/

structure Inv (ids : List ℤ) (interval : ℤ → ℤ) (s : Throttle) : Prop where
  kept : Kept ids interval s
  clock_pos : 0 < s.clock
  times_pos : ∀ i id now, s.submitters i = .timed id now ∨ s.submitters i = .holding id now →
    0 < now
  passing : ∀ now left, s.worker = .visiting now left → ∀ id ∈ ids, id ∉ left → Passed id now s.log
  complete : PassesComplete ids s.log

/-- What submitters do only adds entries of theirs. -/
theorem Inv.of_submitter (h : Inv ids interval s) (hkept : Kept ids interval t)
    (hclock : s.clock ≤ t.clock) (hworker : t.worker = s.worker)
    (htimes : ∀ i id now, t.submitters i = .timed id now ∨ t.submitters i = .holding id now →
      0 < now)
    (hlog : t.log = s.log ∨ ∃ id armed, t.log = submitted id armed :: s.log) :
    Inv ids interval t := by
  refine ⟨hkept, Int.lt_of_lt_of_le h.clock_pos hclock, htimes, ?_, ?_⟩
  · intro now left hvisiting id hid hleft
    have hpassed := h.passing now left (hworker ▸ hvisiting) id hid hleft
    rcases hlog with hsame | ⟨id', armed, hnew⟩
    · rw [hsame]
      exact hpassed
    · rw [hnew]
      exact lately_cons.mpr (.inr ⟨fun now he => (by cases he), hpassed⟩)
  · rcases hlog with hsame | ⟨id', armed, hnew⟩
    · rw [hsame]
      exact h.complete
    · rw [hnew]
      exact forall_suffix_cons.mpr ⟨fun now he => (by cases he), h.complete⟩

private theorem times_pos_set (h : Inv ids interval s) {i : ℕ} {p : ThrottlePhase}
    (hp : ∀ id now, p = .timed id now ∨ p = .holding id now → 0 < now) :
    ∀ j id now, Function.update s.submitters i p j = .timed id now ∨
      Function.update s.submitters i p j = .holding id now → 0 < now := by
  intro j id now hj
  by_cases hji : j = i
  · rw [hji, Function.update_self] at hj
    exact hp id now hj
  · rw [Function.update_of_ne hji] at hj
    exact h.times_pos j id now hj

private theorem arm_frame (s : Throttle) (id now : ℤ) : (s.arm id now).submitters = s.submitters ∧
    (s.arm id now).worker = s.worker ∧ (s.arm id now).clock = s.clock ∧
    ((s.arm id now).log = s.log ∨ ∃ armed, (s.arm id now).log = submitted id armed :: s.log) := by
  rcases s.arm_cases id now with ⟨-, heq⟩ | ⟨item, -, ⟨-, heq⟩ | ⟨-, heq⟩⟩ <;> rw [heq]
  · exact ⟨rfl, rfl, rfl, .inl rfl⟩
  · exact ⟨rfl, rfl, rfl, .inr ⟨_, rfl⟩⟩
  · exact ⟨rfl, rfl, rfl, .inr ⟨_, rfl⟩⟩

private theorem visit_frame (s : Throttle) (id now : ℤ) :
    (s.visit id now).submitters = s.submitters ∧
    (s.visit id now).clock = s.clock := by
  rcases s.visit_cases id now with ⟨-, heq⟩ | ⟨item, -, ⟨-, heq⟩ | ⟨-, heq⟩⟩ <;> rw [heq] <;>
    exact ⟨rfl, rfl⟩

theorem Kept.visit_log (h : Kept ids interval s) (id now : ℤ) :
    id ∉ ids ∧ (s.visit id now).log = s.log ∨
      ∃ fired, (s.visit id now).log = visited id now fired :: s.log := by
  rcases s.visit_cases id now with ⟨hnone, heq⟩ | ⟨item, -, ⟨-, heq⟩ | ⟨-, heq⟩⟩ <;> rw [heq]
  · refine .inl ⟨fun hid => ?_, rfl⟩
    obtain ⟨item, hitem⟩ := h.registered id hid
    rw [hnone] at hitem
    cases hitem
  · exact .inr ⟨true, rfl⟩
  · exact .inr ⟨false, rfl⟩

theorem Inv.visit (h : Inv ids interval s) (hworker : s.worker = .visiting now (id :: left)) :
    Inv ids interval { s.visit id now with worker := .visiting now left } := by
  obtain ⟨hsubmitters, hclock⟩ := s.visit_frame id now
  refine ⟨h.kept.visit.congr rfl rfl rfl, hclock ▸ h.clock_pos, ?_, ?_, ?_⟩
  · intro i id' now' hi
    change (s.visit id now).submitters i = _ ∨ (s.visit id now).submitters i = _ at hi
    rw [hsubmitters] at hi
    exact h.times_pos i id' now' hi
  · intro now' left' hvisiting id' hid' hleft'
    obtain ⟨rfl, rfl⟩ := PassPhase.visiting.inj hvisiting
    change Passed id' now (s.visit id now).log
    rcases h.kept.visit_log id now with ⟨hid, hsame⟩ | ⟨fired, hnew⟩
    · rw [hsame]
      refine h.passing now _ hworker id' hid' fun hmem => ?_
      rcases List.mem_cons.mp hmem with rfl | hmem
      · exact hid hid'
      · exact hleft' hmem
    · rw [hnew]
      by_cases hsame : id' = id
      · subst hsame
        exact lately_cons.mpr (.inl ⟨fired, rfl⟩)
      · refine lately_cons.mpr (.inr ⟨fun now he => (by cases he), ?_⟩)
        refine h.passing now _ hworker id' hid' fun hmem => ?_
        exact (List.mem_cons.mp hmem).elim hsame hleft'
  · change PassesComplete ids (s.visit id now).log
    rcases h.kept.visit_log id now with ⟨-, hsame⟩ | ⟨fired, hnew⟩
    · rw [hsame]
      exact h.complete
    · rw [hnew]
      exact forall_suffix_cons.mpr ⟨fun now he => (by cases he), h.complete⟩

theorem Inv.step (hinterval : ∀ id ∈ ids, 1 ≤ interval id) (h : Inv ids interval s)
    (hstep : Step ids s t) : Inv ids interval t := by
  cases hstep with
  | tick hnow => exact h.of_submitter (h.kept.congr rfl rfl rfl) hnow rfl h.times_pos (.inl rfl)
  | submit hi =>
    refine h.of_submitter (h.kept.congr rfl rfl rfl) (Int.le_refl _) rfl
      (times_pos_set h fun id now hp => ?_) (.inl rfl)
    rcases hp with hp | hp
    · cases hp
      exact h.clock_pos
    · cases hp
  | submitLock hi hmutex =>
    refine h.of_submitter (h.kept.congr rfl rfl rfl) (Int.le_refl _) rfl
      (times_pos_set h fun id now hp => ?_) (.inl rfl)
    rcases hp with hp | hp
    · cases hp
    · cases hp
      exact h.times_pos _ _ _ (.inl hi)
  | @submitArm i id now hi =>
    obtain ⟨hsubmitters, hworker, hclock, hlog⟩ := s.arm_frame id now
    have hkept : Kept ids interval (s.arm id now) :=
      h.kept.arm hinterval (h.times_pos i id now (.inr hi))
    refine h.of_submitter (hkept.congr rfl rfl rfl) (Int.le_of_eq hclock.symm) hworker ?_
      (hlog.imp (fun hsame => hsame) fun ⟨armed, hnew⟩ => ⟨_, armed, hnew⟩)
    intro j id' now' hj
    change Function.update (s.arm id now).submitters i .finished j = _ ∨
      Function.update (s.arm id now).submitters i .finished j = _ at hj
    rw [hsubmitters] at hj
    exact times_pos_set h (fun _ _ hp => (by rcases hp with hp | hp <;> cases hp)) j id' now' hj
  | submitUnlock hi =>
    exact h.of_submitter (h.kept.congr rfl rfl rfl) (Int.le_refl _) rfl
      (times_pos_set h fun _ _ hp => (by rcases hp with hp | hp <;> cases hp)) (.inl rfl)
  | wake hworker =>
    exact ⟨h.kept.congr rfl rfl rfl, h.clock_pos, h.times_pos, fun _ _ hv => (by cases hv),
      h.complete⟩
  | @passLock now hworker hmutex =>
    refine ⟨(h.kept.record (e := began now) (by simp) (by simp)).congr rfl rfl rfl, h.clock_pos,
      h.times_pos, ?_, ?_⟩
    · intro now' left hvisiting id hid hleft
      obtain ⟨-, rfl⟩ := PassPhase.visiting.inj hvisiting
      exact absurd hid hleft
    · exact forall_suffix_cons.mpr ⟨fun now he => (by cases he), h.complete⟩
  | passVisit hworker => exact h.visit hworker
  | @passUnlock now hworker =>
    refine ⟨(h.kept.record (e := ended now) (by simp) (by simp)).congr rfl rfl rfl, h.clock_pos,
      h.times_pos, fun _ _ hv => (by cases hv), ?_⟩
    refine forall_suffix_cons.mpr ⟨fun now' he id hid => ?_, h.complete⟩
    cases he
    exact h.passing now [] hworker id hid List.not_mem_nil

private theorem inv_of_init (h : (throttles ids interval).init s) : Inv ids interval s := by
  obtain ⟨clock, hclock, rfl⟩ := h
  refine ⟨⟨?_, ?_, ?_, rfl, ?_, ?_, ?_, ?_⟩, hclock, ?_, ?_, ?_⟩
  · exact fun id hid => ⟨_, if_pos hid⟩
  · exact fun id hid => if_neg hid
  · intro id item hitem
    obtain ⟨-, rfl⟩ : id ∈ ids ∧ EventItem.mk (interval id) 0 = item := by simpa using hitem
    exact ⟨rfl, Int.le_refl 0⟩
  · exact fun id item _ armed hwaiting => absurd hwaiting not_lately_nil
  · intro id item hitem hne
    obtain ⟨-, rfl⟩ : id ∈ ids ∧ EventItem.mk (interval id) 0 = item := by simpa using hitem
    exact absurd rfl hne
  · exact fun e past hsuffix => absurd hsuffix not_suffix_nil
  · exact fun e past hsuffix => absurd hsuffix not_suffix_nil
  · exact fun i id now hi => (by rcases hi with hi | hi <;> cases hi)
  · exact fun now left hvisiting => (by cases hvisiting)
  · exact fun e past hsuffix => absurd hsuffix not_suffix_nil

/-! ## Spacing -/

/-- An event that is armed has been armed with a clock value that is not before its last
firing. -/
def Timely (s t : Throttle) : Prop :=
  ∀ i id now, s.submitters i = .holding id now → t.submitters i = .finished →
    (∃ item, s.eventMap id = some item ∧ item.nextCallTime = 0) →
      ∀ fired, visited id fired true ∈ s.log → fired ≤ now

/-- An armed event waits for at least its interval after each of its firings. -/
structure Spacing (interval : ℤ → ℤ) (s : Throttle) : Prop where
  spaced : Spaced interval s.log
  armed : ∀ id, ∀ item ∈ s.eventMap id, item.nextCallTime ≠ 0 → ∀ now,
    visited id now true ∈ s.log → now + interval id ≤ item.nextCallTime

theorem Spacing.of_quiet (h : Spacing interval s) (hmap : t.eventMap = s.eventMap)
    (hlog : t.log = s.log ∨ ∃ e, t.log = e :: s.log ∧ ∀ id now, e ≠ visited id now true) :
    Spacing interval t := by
  rcases hlog with hsame | ⟨e, hnew, hquiet⟩
  · exact ⟨hsame ▸ h.spaced, hmap ▸ hsame ▸ h.armed⟩
  · refine ⟨?_, fun id item hitem hne now hmem => ?_⟩
    · rw [hnew]
      exact List.pairwise_cons.mpr
        ⟨fun e' _ id now now' he => absurd he (hquiet id now), h.spaced⟩
    · rw [hnew] at hmem
      rcases List.mem_cons.mp hmem with he | hmem
      · exact absurd he.symm (hquiet id now)
      · exact h.armed id item (hmap ▸ hitem) hne now hmem

theorem Spacing.arm (hinv : Inv ids interval s) (h : Spacing interval s)
    (htimely : (∃ item, s.eventMap id = some item ∧ item.nextCallTime = 0) →
      ∀ fired, visited id fired true ∈ s.log → fired ≤ now) : Spacing interval (s.arm id now) := by
  rcases s.arm_cases id now with ⟨-, heq⟩ | ⟨item, hitem, ⟨hzero, heq⟩ | ⟨-, heq⟩⟩
  · rw [heq]
    exact h
  · rw [heq]
    refine ⟨List.pairwise_cons.mpr ⟨fun e' _ id now now' he => (by cases he), h.spaced⟩, ?_⟩
    intro id' item' hitem' hne fired hmem
    change (s.setTime id item (now + item.intervalSeconds)).eventMap id' = some item' at hitem'
    rw [setTime_eventMap] at hitem'
    have hpast : visited id' fired true ∈ s.log :=
      (List.mem_cons.mp hmem).resolve_left fun he => (by cases he)
    by_cases hsame : id' = id
    · subst hsame
      rw [if_pos rfl] at hitem'
      obtain rfl := Option.some.inj hitem'
      have hle := htimely ⟨item, hitem, hzero⟩ fired hpast
      have hinterval := (hinv.kept.intervals id' item hitem).1
      change fired + interval id' ≤ now + item.intervalSeconds
      omega
    · rw [if_neg hsame] at hitem'
      exact h.armed id' item' hitem' hne fired hpast
  · rw [heq]
    exact h.of_quiet rfl (.inr ⟨_, rfl, fun id now he => (by cases he)⟩)

theorem Spacing.visit (h : Spacing interval s) : Spacing interval (s.visit id now) := by
  rcases s.visit_cases id now with ⟨-, heq⟩ | ⟨item, hitem, ⟨hready, heq⟩ | ⟨-, heq⟩⟩
  · rw [heq]
    exact h
  · rw [heq]
    constructor
    · refine List.pairwise_cons.mpr ⟨fun e' he' id' now₁ now₂ heq₁ heq₂ => ?_, h.spaced⟩
      cases heq₁
      have hle := h.armed id item hitem (by omega) now₂ (heq₂ ▸ he')
      omega
    · intro id' item' hitem' hne fired hmem
      change (s.setTime id item 0).eventMap id' = some item' at hitem'
      rw [setTime_eventMap] at hitem'
      by_cases hsame : id' = id
      · rw [if_pos hsame] at hitem'
        obtain rfl := Option.some.inj hitem'
        exact absurd rfl hne
      · rw [if_neg hsame] at hitem'
        have hmem : visited id' fired true ∈ s.log :=
          (List.mem_cons.mp hmem).resolve_left fun he => hsame (by cases he; rfl)
        exact h.armed id' item' hitem' hne fired hmem
  · rw [heq]
    exact h.of_quiet rfl (.inr ⟨_, rfl, fun id now he => (by cases he)⟩)

theorem Spacing.step (hinv : Inv ids interval s) (h : Spacing interval s) (hstep : Step ids s t)
    (htimely : Timely s t) : Spacing interval t := by
  cases hstep with
  | tick => exact h.of_quiet rfl (.inl rfl)
  | submit => exact h.of_quiet rfl (.inl rfl)
  | submitLock => exact h.of_quiet rfl (.inl rfl)
  | @submitArm i id now hi =>
    have harm : Spacing interval (s.arm id now) :=
      Spacing.arm hinv h (htimely i id now hi (Function.update_self ..))
    exact harm.of_quiet rfl (.inl rfl)
  | submitUnlock => exact h.of_quiet rfl (.inl rfl)
  | wake => exact h.of_quiet rfl (.inl rfl)
  | passLock => exact h.of_quiet rfl (.inr ⟨_, rfl, fun id now he => (by cases he)⟩)
  | passVisit => exact (Spacing.visit h).of_quiet rfl (.inl rfl)
  | passUnlock => exact h.of_quiet rfl (.inr ⟨_, rfl, fun id now he => (by cases he)⟩)

/-- In every run, what is submitted fires in the first pass that has reached the armed time, each
pass comes to every event, and nothing fires unasked. Where no event is armed with a clock value
from before its last firing, the firings of an event are at least its interval apart. -/
theorem spaced_and_never_lost (hinterval : ∀ id ∈ ids, 1 ≤ interval id)
    {states : List Throttle} (hrun : (throttles ids interval).Run states) :
    (∀ s ∈ states, NothingLost s.log ∧ PassesComplete ids s.log ∧ NoneUnasked s.log) ∧
      ((∀ s t, [t, s] <:+: states → Timely s t) → ∀ s ∈ states, Spaced interval s.log) := by
  have hinv := hrun.invariant (fun s hs => inv_of_init hs) fun s t hs hstep =>
    Inv.step hinterval hs hstep
  refine ⟨fun s hs => ?_, fun htimely s hs => ?_⟩
  · exact ⟨(hinv s hs).kept.nothing_lost, (hinv s hs).complete, (hinv s hs).kept.none_unasked⟩
  · have hboth := hrun.invariant_along (I := fun s => Inv ids interval s ∧ Spacing interval s)
      (fun s hs => ⟨inv_of_init hs, ?_⟩)
      (fun s t hs hstep ht => ⟨Inv.step hinterval hs.1 hstep, Spacing.step hs.1 hs.2 hstep ht⟩)
      htimely
    · exact (hboth s hs).2.spaced
    · obtain ⟨clock, -, rfl⟩ := hs
      exact ⟨.nil, fun id item _ _ now hmem => absurd hmem List.not_mem_nil⟩

/-! ## One event -/

section Check

/-- The event 1 with an interval of five seconds. -/
def oneEvent : Throttle :=
  { eventMap := fun id => if id ∈ [1] then some ⟨5, 0⟩ else none, hasCall := true, clock := 1 }

private theorem timely_of_no_firing (h : ∀ id now, visited id now true ∉ s.log) : Timely s t :=
  fun _ id _ _ _ _ fired hmem => absurd hmem (h id fired)

private theorem timely_of_same (h : t.submitters = s.submitters) : Timely s t := by
  intro i id now hi hi'
  rw [h, hi] at hi'
  cases hi'

private theorem timely_of_update {j : ℕ} {p : ThrottlePhase}
    (h : t.submitters = Function.update s.submitters j p)
    (hp : p = .finished → ∀ id now, s.submitters j = .holding id now →
      ∀ fired, visited id fired true ∈ s.log → fired ≤ now) : Timely s t := by
  intro i id now hi hi' _ fired hmem
  by_cases hij : i = j
  · subst hij
    rw [h, Function.update_self] at hi'
    exact hp hi' id now hi fired hmem
  · rw [h, Function.update_of_ne hij, hi] at hi'
    cases hi'

/-- The event fires twice, and the second time has been submitted after the first. -/
theorem spaced_and_never_lost_once : ∃ s : Throttle, visited 1 6 true ∈ s.log ∧
    visited 1 12 true ∈ s.log ∧ Spaced (fun _ => 5) s.log := by
  have hstart : (throttles [1] fun _ => 5).Leads Timely oneEvent :=
    .start ⟨1, by decide, rfl⟩
  have hread := hstart.next (@Step.submit _ _ 0 1 rfl)
    (timely_of_no_firing fun _ _ => List.not_mem_nil)
  have hlocked := hread.next (.submitLock (i := 0) rfl rfl)
    (timely_of_no_firing fun _ _ => List.not_mem_nil)
  have harmed := hlocked.next (.submitArm (i := 0) rfl)
    (timely_of_no_firing fun _ _ => List.not_mem_nil)
  have hquiet : ∀ id now, visited id now true ∉ [submitted 1 6] := by simp
  have hunlocked := harmed.next (.submitUnlock (i := 0) rfl) (timely_of_no_firing hquiet)
  have hlater := hunlocked.next (@Step.tick _ _ 6 (by decide)) (timely_of_no_firing hquiet)
  have hawake := hlater.next (.wake rfl) (timely_of_no_firing hquiet)
  have hpass := hawake.next (.passLock rfl rfl) (timely_of_no_firing hquiet)
  have hbegun : ∀ id now, visited id now true ∉ [began 6, submitted 1 6] := by simp
  have hfired := hpass.next (.passVisit rfl) (timely_of_no_firing hbegun)
  -- the second call of submit reads the clock at 7
  have hslept := hfired.next (.passUnlock rfl) (timely_of_same rfl)
  have hseven := hslept.next (@Step.tick _ _ 7 (by decide)) (timely_of_same rfl)
  have hread' := hseven.next (@Step.submit _ _ 0 1 rfl) (timely_of_update rfl (by simp))
  have hlocked' := hread'.next (.submitLock (i := 0) rfl rfl) (timely_of_update rfl (by simp))
  have harmed' := hlocked'.next (.submitArm (i := 0) rfl)
    (timely_of_update rfl fun _ id now hholding fired hmem => by
      obtain ⟨-, rfl⟩ := ThrottlePhase.holding.inj hholding
      have hlog : visited id fired true ∈
          [ended 6, visited 1 6 true, began 6, submitted 1 6] := hmem
      have hfirst : fired = 6 := by simp_all
      rw [hfirst]
      decide)
  have hunlocked' := harmed'.next (.submitUnlock (i := 0) rfl) (timely_of_update rfl (by simp))
  have htwelve := hunlocked'.next (@Step.tick _ _ 12 (by decide)) (timely_of_same rfl)
  have hawake' := htwelve.next (.wake rfl) (timely_of_same rfl)
  have hpass' := hawake'.next (.passLock rfl rfl) (timely_of_same rfl)
  obtain ⟨past, hrun, htimely⟩ := hpass'.next (.passVisit rfl) (timely_of_same rfl)
  have hone : ∀ id ∈ [(1 : ℤ)], (1 : ℤ) ≤ 5 := by decide
  refine ⟨_, ?_, List.mem_cons_self,
    (spaced_and_never_lost hone hrun).2 htimely _ List.mem_cons_self⟩
  change visited 1 6 true ∈ [visited 1 12 true, began 12, submitted 1 12, ended 6,
    visited 1 6 true, began 6, submitted 1 6]
  simp

/-- One thread submits the event and another has read the clock to submit it. The event fires at 6,
is armed for 6 again, and fires at 7. -/
theorem fires_too_early : ∃ states, (throttles [1] fun _ => 5).Run states ∧
    ∃ s ∈ states, ¬Spaced (fun _ => 5) s.log := by
  have hstart : (throttles [1] fun _ => 5).Run [oneEvent] := .start ⟨1, by decide, rfl⟩
  have hfirst := hstart.next (@Step.submit _ _ 0 1 rfl)
  have hstale := hfirst.next (@Step.submit _ _ 1 1 rfl)
  have hlocked := hstale.next (.submitLock (i := 0) rfl rfl)
  have harmed := hlocked.next (.submitArm (i := 0) rfl)
  have hunlocked := harmed.next (.submitUnlock (i := 0) rfl)
  have hlater := hunlocked.next (@Step.tick _ _ 6 (by decide))
  have hawake := hlater.next (.wake rfl)
  have hpass := hawake.next (.passLock rfl rfl)
  have hfired := hpass.next (.passVisit rfl)
  have hslept := hfired.next (.passUnlock rfl)
  have hlocked' := hslept.next (.submitLock (i := 1) rfl rfl)
  have harmed' := hlocked'.next (.submitArm (i := 1) rfl)
  have hunlocked' := harmed'.next (.submitUnlock (i := 1) rfl)
  have hlater' := hunlocked'.next (@Step.tick _ _ 7 (by decide))
  have hawake' := hlater'.next (.wake rfl)
  have hpass' := hawake'.next (.passLock rfl rfl)
  have hfired' := hpass'.next (.passVisit rfl)
  refine ⟨_, hfired', _, List.mem_cons_self, fun hspaced => ?_⟩
  have hmem : visited 1 6 true ∈
      [began 7, submitted 1 6, ended 6, visited 1 6 true, began 6, submitted 1 6] := by decide
  have hle := (List.pairwise_cons.mp hspaced).1 _ hmem 1 7 6 rfl rfl
  exact absurd hle (by decide)

end Check

end DarwinCore.Thread.Throttle
