import DarwinCore.Library.History
import DarwinCore.Model.Network.ConcurrentQueue

/-! # The queue as a bounded FIFO

Each call takes effect while it holds the mutex, so that the calls are linearizable. A thread
that waits for room is not forgotten: as long as one waits, there are at least as many others on
their way as there is room. -/

namespace DarwinCore.Network

open History Linearization

variable {α : Type*}

/-! ## A bounded FIFO -/

/-- What a FIFO of at most `capacity` elements does, if `capacity` is not zero, with a flag that
stops it. -/
inductive FifoStep (capacity : ℕ) : QueueOperation α → List α × Bool → QueueResult α →
    List α × Bool → Prop where
  | enqueued {value : α} {items : List α} (h : capacity = 0 ∨ items.length < capacity) :
      FifoStep capacity (.enqueue value) (items, false) (.accepted true) (items ++ [value], false)
  | stopped {value : α} {items : List α} :
      FifoStep capacity (.enqueue value) (items, true) (.accepted false) (items, true)
  | tryEnqueued {value : α} {items : List α} (h : capacity = 0 ∨ items.length < capacity) :
      FifoStep capacity (.tryEnqueue value) (items, false) (.accepted true)
        (items ++ [value], false)
  | tryRefused {value : α} {items : List α} {stopped : Bool}
      (h : stopped = true ∨ (0 < capacity ∧ capacity ≤ items.length)) :
      FifoStep capacity (.tryEnqueue value) (items, stopped) (.accepted false) (items, stopped)
  | tryTook {value : α} {items : List α} {stopped : Bool} :
      FifoStep capacity .tryDequeue (value :: items, stopped) (.taken (some value))
        (items, stopped)
  | tryEmpty {stopped : Bool} :
      FifoStep capacity .tryDequeue ([], stopped) (.taken none) ([], stopped)
  | took {value : α} {items : List α} :
      FifoStep capacity .waitDequeue (value :: items, false) (.taken (some value)) (items, false)
  | tookNothing {items : List α} {stopped : Bool} (h : stopped = true ∨ items = []) :
      FifoStep capacity .waitDequeue (items, stopped) (.taken none) (items, stopped)
  | stop {items : List α} {stopped : Bool} :
      FifoStep capacity .notifyStop (items, stopped) .done (items, true)
  | reset {items : List α} {stopped : Bool} :
      FifoStep capacity .reset (items, stopped) .done (items, false)

def boundedFifo (α : Type*) (capacity : ℕ) :
    SequentialObject (QueueOperation α) (QueueResult α) (List α × Bool) where
  init := ([], false)
  step := FifoStep capacity

def pushedBy (call : ℕ × QueueOperation α × QueueResult α) : List α :=
  match call.2.1, call.2.2 with
  | .enqueue value, .accepted true => [value]
  | .tryEnqueue value, .accepted true => [value]
  | _, _ => []

def takenBy (call : ℕ × QueueOperation α × QueueResult α) : List α :=
  match call.2.2 with
  | .taken (some value) => [value]
  | _ => []

/-- What has been taken and what is there is what was pushed, in this order. -/
theorem boundedFifo_conserves {capacity : ℕ}
    {order : List (ℕ × QueueOperation α × QueueResult α)} {t : List α × Bool}
    (h : (boundedFifo α capacity).Legal order t) :
    collect takenBy order ++ t.1 = collect pushedBy order := by
  induction h with
  | nil => rfl
  | @cons order t t' c operation result h hstep ih =>
    have hstep' : FifoStep capacity operation t result t' := hstep
    cases hstep' <;> simp [collect, takenBy, pushedBy, ← ih]

theorem boundedFifo_bounded {capacity : ℕ}
    {order : List (ℕ × QueueOperation α × QueueResult α)} {t : List α × Bool}
    (h : (boundedFifo α capacity).Legal order t) (hpos : 0 < capacity) :
    t.1.length ≤ capacity := by
  induction h with
  | nil => exact Nat.zero_le _
  | @cons order t t' c operation result h hstep ih =>
    have hstep' : FifoStep capacity operation t result t' := hstep
    cases hstep' <;> simp at ih ⊢ <;> omega

/-! ## What a call does with the mutex held -/

namespace ConcurrentQueue

variable {q q' : ConcurrentQueue α} {value : α}

theorem enqueue_fifo {success : Bool} (h : q.enqueue value = some (success, q')) :
    q'.maxSize = q.maxSize ∧ FifoStep q.maxSize (.enqueue value) (q.queue, q.isStopped)
      (.accepted success) (q'.queue, q'.isStopped) := by
  unfold enqueue at h
  split at h
  · cases h
  · rename_i hroom
    split at h
    · rename_i hstopped
      obtain ⟨rfl, rfl⟩ := Prod.mk.inj (Option.some.inj h)
      rw [hstopped]
      exact ⟨rfl, .stopped⟩
    · rename_i hstopped
      obtain ⟨rfl, rfl⟩ := Prod.mk.inj (Option.some.inj h)
      have hopen : q.isStopped = false := Bool.eq_false_iff.mpr hstopped
      rw [hopen] at hroom ⊢
      refine ⟨rfl, .enqueued ?_⟩
      simp only [Bool.false_eq_true, or_false] at hroom
      omega

/-- `Enqueue` waits only when the queue is full and not stopped. -/
theorem enqueue_waits (h : q.enqueue value = none) :
    0 < q.maxSize ∧ q.maxSize ≤ q.queue.length ∧ q.isStopped = false := by
  unfold enqueue at h
  split at h
  · rename_i hfull
    rw [not_or] at hfull
    exact ⟨hfull.1, Nat.le_of_not_lt hfull.2.1, Bool.eq_false_iff.mpr hfull.2.2⟩
  · split at h <;> cases h

theorem tryEnqueue_fifo (value : α) (q : ConcurrentQueue α) :
    (q.tryEnqueue value).2.maxSize = q.maxSize ∧
      FifoStep q.maxSize (.tryEnqueue value) (q.queue, q.isStopped)
        (.accepted (q.tryEnqueue value).1)
        ((q.tryEnqueue value).2.queue, (q.tryEnqueue value).2.isStopped) := by
  unfold tryEnqueue
  split
  · rename_i hfull
    exact ⟨rfl, .tryRefused (.inr hfull)⟩
  · rename_i hroom
    split
    · rename_i hstopped
      exact ⟨rfl, .tryRefused (.inl hstopped)⟩
    · rename_i hstopped
      rw [Bool.eq_false_iff.mpr hstopped]
      exact ⟨rfl, .tryEnqueued (by omega)⟩

theorem tryDequeue_fifo (q : ConcurrentQueue α) :
    q.tryDequeue.2.maxSize = q.maxSize ∧ FifoStep q.maxSize .tryDequeue (q.queue, q.isStopped)
      (.taken q.tryDequeue.1) (q.tryDequeue.2.queue, q.tryDequeue.2.isStopped) := by
  unfold tryDequeue
  split
  · rename_i hempty
    rw [hempty]
    exact ⟨rfl, .tryEmpty⟩
  · rename_i value rest hqueue
    rw [hqueue]
    exact ⟨rfl, .tryTook⟩

theorem waitDequeue_fifo {timedOut : Bool} {result : Option α}
    (h : q.waitDequeue timedOut = some (result, q')) :
    q'.maxSize = q.maxSize ∧ FifoStep q.maxSize .waitDequeue (q.queue, q.isStopped)
      (.taken result) (q'.queue, q'.isStopped) := by
  unfold waitDequeue at h
  dsimp only at h
  split at h
  · cases h
  · split at h
    · rename_i hvain
      obtain ⟨rfl, rfl⟩ := Prod.mk.inj (Option.some.inj h)
      refine ⟨rfl, .tookNothing ?_⟩
      cases hstopped : q.isStopped with
      | true => exact .inl rfl
      | false =>
        rw [hstopped] at hvain
        exact .inr (by simpa using hvain)
    · rename_i hready
      simp only [Bool.or_eq_true, not_or, Bool.not_eq_true] at hready
      rw [Option.some.injEq] at h
      cases hqueue : q.queue with
      | nil => simp [hqueue] at hready
      | cons value rest =>
        simp only [tryDequeue, hqueue] at h
        obtain ⟨rfl, rfl⟩ := Prod.mk.inj h
        rw [hready.1.2]
        exact ⟨rfl, .took⟩

end ConcurrentQueue

namespace QueueOperation

variable {operation : QueueOperation α} {timedOut : Bool} {q q' : ConcurrentQueue α}
  {result : QueueResult α}

/-- With the mutex held, an operation does what a bounded FIFO does. -/
theorem run_fifo (h : operation.run timedOut q = some (result, q')) :
    q'.maxSize = q.maxSize ∧
      FifoStep q.maxSize operation (q.queue, q.isStopped) result (q'.queue, q'.isStopped) := by
  cases operation with
  | enqueue value =>
    obtain ⟨⟨success, q''⟩, hrun, heq⟩ := Option.map_eq_some_iff.mp h
    obtain ⟨rfl, rfl⟩ := Prod.mk.inj heq
    exact ConcurrentQueue.enqueue_fifo hrun
  | tryEnqueue value =>
    obtain ⟨rfl, rfl⟩ := Prod.mk.inj (Option.some.inj h)
    exact ConcurrentQueue.tryEnqueue_fifo value q
  | tryDequeue =>
    obtain ⟨rfl, rfl⟩ := Prod.mk.inj (Option.some.inj h)
    exact ConcurrentQueue.tryDequeue_fifo q
  | waitDequeue =>
    obtain ⟨⟨value, q''⟩, hrun, heq⟩ := Option.map_eq_some_iff.mp h
    obtain ⟨rfl, rfl⟩ := Prod.mk.inj heq
    exact ConcurrentQueue.waitDequeue_fifo hrun
  | notifyStop =>
    obtain ⟨rfl, rfl⟩ := Prod.mk.inj (Option.some.inj h)
    exact ⟨rfl, .stop⟩
  | reset =>
    obtain ⟨rfl, rfl⟩ := Prod.mk.inj (Option.some.inj h)
    exact ⟨rfl, .reset⟩

/-- What an operation on a queue that is not stopped does to its room. -/
inductive RoomChange (operation : QueueOperation α) (result : QueueResult α)
    (q q' : ConcurrentQueue α) : Prop where
  | stops (h : operation = .notifyStop)
  | pushes (hopen : q'.isStopped = false) (h : q'.queue.length = q.queue.length + 1)
  | keeps (hother : ∀ c phase, (⟨c, operation, phase⟩ : QueueCall α).isEnqueue = false)
      (hopen : q'.isStopped = false) (h : q'.queue.length = q.queue.length)
  | takes {value : α} (hresult : result = .taken (some value))
      (hother : ∀ c phase, (⟨c, operation, phase⟩ : QueueCall α).isEnqueue = false)
      (hopen : q'.isStopped = false) (h : q.queue.length = q'.queue.length + 1)

theorem run_room (h : operation.run timedOut q = some (result, q'))
    (hopen : q.isStopped = false) :
    q'.maxSize = q.maxSize ∧ RoomChange operation result q q' := by
  obtain ⟨hsize, hfifo⟩ := run_fifo h
  refine ⟨hsize, ?_⟩
  rw [hopen] at hfifo
  generalize hitems : (q.queue, false) = t at hfifo
  generalize hitems' : (q'.queue, q'.isStopped) = t' at hfifo
  cases hfifo with
  | enqueued hroom =>
    obtain ⟨hqueue, -⟩ := Prod.mk.inj hitems
    obtain ⟨hqueue', hopen'⟩ := Prod.mk.inj hitems'
    exact .pushes hopen' (by rw [hqueue, hqueue', List.length_append, List.length_singleton])
  | stopped => cases hitems
  | tryEnqueued hroom =>
    obtain ⟨hqueue, -⟩ := Prod.mk.inj hitems
    obtain ⟨hqueue', hopen'⟩ := Prod.mk.inj hitems'
    exact .pushes hopen' (by rw [hqueue, hqueue', List.length_append, List.length_singleton])
  | tryRefused hwhy =>
    obtain ⟨hqueue, rfl⟩ := Prod.mk.inj hitems
    obtain ⟨hqueue', hopen'⟩ := Prod.mk.inj hitems'
    exact .keeps (fun _ _ => rfl) hopen' (by rw [hqueue, hqueue'])
  | tryTook =>
    obtain ⟨hqueue, rfl⟩ := Prod.mk.inj hitems
    obtain ⟨hqueue', hopen'⟩ := Prod.mk.inj hitems'
    exact .takes rfl (fun _ _ => rfl) hopen' (by rw [hqueue, hqueue', List.length_cons])
  | tryEmpty =>
    obtain ⟨hqueue, rfl⟩ := Prod.mk.inj hitems
    obtain ⟨hqueue', hopen'⟩ := Prod.mk.inj hitems'
    exact .keeps (fun _ _ => rfl) hopen' (by rw [hqueue, hqueue'])
  | took =>
    obtain ⟨hqueue, -⟩ := Prod.mk.inj hitems
    obtain ⟨hqueue', hopen'⟩ := Prod.mk.inj hitems'
    exact .takes rfl (fun _ _ => rfl) hopen' (by rw [hqueue, hqueue', List.length_cons])
  | tookNothing hwhy =>
    obtain ⟨hqueue, rfl⟩ := Prod.mk.inj hitems
    obtain ⟨hqueue', hopen'⟩ := Prod.mk.inj hitems'
    exact .keeps (fun _ _ => rfl) hopen' (by rw [hqueue, hqueue'])
  | stop => exact .stops rfl
  | reset =>
    obtain ⟨hqueue, -⟩ := Prod.mk.inj hitems
    obtain ⟨hqueue', hopen'⟩ := Prod.mk.inj hitems'
    exact .keeps (fun _ _ => rfl) hopen' (by rw [hqueue, hqueue'])

end QueueOperation

/-! ## Waking others -/

/-- Some of the threads that wait have been woken. -/
def Stirred : List (QueueCall α) → List (QueueCall α) → Prop :=
  List.Forall₂ fun call call' =>
    call' = call ∨ (call.isBlocked = true ∧ ∃ timedOut, call' = call.wake timedOut)

namespace Stirred

variable {calls calls' before after : List (QueueCall α)}

theorem refl (calls : List (QueueCall α)) : Stirred calls calls :=
  List.forall₂_same.mpr fun _ _ => .inl rfl

theorem one {call : QueueCall α} (h : call.isBlocked = true) (timedOut : Bool) :
    Stirred (before ++ call :: after) (before ++ call.wake timedOut :: after) :=
  List.rel_append (refl before) (.cons (.inr ⟨h, timedOut, rfl⟩) (refl after))

theorem of_notifyOne {waits : QueueCall α → Bool}
    (hwaits : ∀ call, waits call = true → call.isBlocked = true)
    (h : NotifyOne waits calls calls') : Stirred calls calls' := by
  cases h with
  | nobody => exact refl calls
  | one hcall => exact one (hwaits _ hcall) false

theorem notifyAll {waits : QueueCall α → Bool}
    (hwaits : ∀ call, waits call = true → call.isBlocked = true)
    (calls : List (QueueCall α)) : Stirred calls (notifyAll waits calls) := by
  refine List.forall₂_map_right_iff.mpr (List.forall₂_same.mpr fun call _ => ?_)
  split
  · rename_i hcall
    exact .inr ⟨hwaits call hcall, false, rfl⟩
  · exact .inl rfl

theorem numbers (h : Stirred calls calls') :
    calls'.map QueueCall.number = calls.map QueueCall.number := by
  induction h with
  | nil => rfl
  | cons hcall h ih =>
    rw [List.map_cons, List.map_cons, ih]
    rcases hcall with rfl | ⟨-, timedOut, rfl⟩ <;> rfl

/-- What a call satisfies before and after it is woken is satisfied by all. -/
theorem forall_mem {P : QueueCall α → Prop} (h : Stirred calls calls')
    (hwake : ∀ call timedOut, call.isBlocked = true → P call → P (call.wake timedOut))
    (hall : ∀ call ∈ calls, P call) : ∀ call ∈ calls', P call := by
  induction h with
  | nil => exact hall
  | cons hcall h ih =>
    obtain ⟨hhead, htail⟩ := List.forall_mem_cons.mp hall
    refine List.forall_mem_cons.mpr ⟨?_, ih htail⟩
    rcases hcall with rfl | ⟨hblocked, timedOut, rfl⟩
    · exact hhead
    · exact hwake _ timedOut hblocked hhead

end Stirred

theorem onNotFull_blocked (call : QueueCall α) (h : call.onNotFull = true) :
    call.isBlocked = true :=
  (Bool.and_eq_true_iff.mp h).2

theorem onNotEmpty_blocked (call : QueueCall α) (h : call.onNotEmpty = true) :
    call.isBlocked = true := by
  unfold QueueCall.onNotEmpty at h
  split at h
  · exact h
  · cases h

/-! ## Linearizability -/

/-- The log says how far the call has come. -/
def QueueCall.Recorded (log : List (CallEvent (QueueOperation α) (QueueResult α)))
    (call : QueueCall α) : Prop :=
  match call.phase with
  | .notifying result => .commit call.number call.operation result ∈ log
  | .notifyingFull result => .commit call.number call.operation result ∈ log
  | .returning result => .commit call.number call.operation result ∈ log
  | _ => .call call.number call.operation ∈ log ∧
      ∀ operation result, .commit call.number operation result ∉ log

theorem QueueCall.Recorded.wake {log : List (CallEvent (QueueOperation α) (QueueResult α))}
    {call : QueueCall α} (h : call.Recorded log) (hblocked : call.isBlocked = true)
    (timedOut : Bool) : (call.wake timedOut).Recorded log := by
  obtain ⟨c, operation, phase⟩ := call
  cases phase with
  | blocked => exact h
  | _ => cases hblocked

theorem QueueCall.Recorded.cons {log : List (CallEvent (QueueOperation α) (QueueResult α))}
    {call : QueueCall α} {e : CallEvent (QueueOperation α) (QueueResult α)}
    (h : call.Recorded log) (hother : ∀ operation result,
      e ≠ .commit call.number operation result) : call.Recorded (e :: log) := by
  obtain ⟨c, operation, phase⟩ := call
  have hpending (hcall : .call c operation ∈ log ∧
      ∀ operation result, .commit c operation result ∉ log) : .call c operation ∈ e :: log ∧
      ∀ operation result, .commit c operation result ∉ e :: log := by
    refine ⟨List.mem_cons_of_mem _ hcall.1, fun operation result hmem => ?_⟩
    rcases List.mem_cons.mp hmem with heq | hlog
    · exact hother operation result heq.symm
    · exact hcall.2 operation result hlog
  cases phase with
  | entering => exact hpending h
  | blocked => exact hpending h
  | woken timedOut => exact hpending h
  | _ => exact List.mem_cons_of_mem e h

namespace QueueSystem

/-- The calls take effect one at a time, each of them once. -/
structure Committed (maxSize : ℕ) (s : QueueSystem α) : Prop where
  maxSize_eq : s.queue.maxSize = maxSize
  ordered : Ordered s.log
  legal : (boundedFifo α maxSize).Legal (commits s.log) (s.queue.queue, s.queue.isStopped)
  recorded : ∀ call ∈ s.calls, call.Recorded s.log
  distinct : (s.calls.map QueueCall.number).Nodup
  old : ∀ c operation, .call c operation ∈ s.log → c < s.nextCall
  oldCalls : ∀ call ∈ s.calls, call.number < s.nextCall

variable {maxSize : ℕ} {s t : QueueSystem α} {calls before after : List (QueueCall α)}

theorem Committed.move (h : s.Committed maxSize)
    (hnumbers : calls.map QueueCall.number = s.calls.map QueueCall.number)
    (hrecorded : ∀ call ∈ calls, call.Recorded s.log) :
    ({ s with calls := calls } : QueueSystem α).Committed maxSize where
  maxSize_eq := h.maxSize_eq
  ordered := h.ordered
  legal := h.legal
  recorded := hrecorded
  distinct := hnumbers ▸ h.distinct
  old := h.old
  oldCalls call hcall := by
    have hnumber : call.number ∈ s.calls.map QueueCall.number :=
      hnumbers ▸ List.mem_map_of_mem hcall
    obtain ⟨call', hcall', heq⟩ := List.mem_map.mp hnumber
    rw [← heq]
    exact h.oldCalls call' hcall'

theorem Committed.stir (h : s.Committed maxSize) (hstirred : Stirred s.calls calls) :
    ({ s with calls := calls } : QueueSystem α).Committed maxSize :=
  h.move hstirred.numbers
    (hstirred.forall_mem (fun _ timedOut hblocked hcall => hcall.wake hblocked timedOut) h.recorded)

theorem Committed.advance (h : s.Committed maxSize) {c : ℕ} {operation : QueueOperation α}
    {phase : QueuePhase α} (phase' : QueuePhase α)
    (hcalls : s.calls = before ++ ⟨c, operation, phase⟩ :: after)
    (hrecorded : (⟨c, operation, phase⟩ : QueueCall α).Recorded s.log →
      (⟨c, operation, phase'⟩ : QueueCall α).Recorded s.log) :
    ({ s with calls := before ++ ⟨c, operation, phase'⟩ :: after } : QueueSystem α).Committed
      maxSize := by
  refine h.move (by simp [hcalls]) fun call hcall => ?_
  have hall := h.recorded
  rw [hcalls] at hall
  rcases List.mem_append.mp hcall with hbefore | hcall
  · exact hall call (List.mem_append_left _ hbefore)
  · rcases List.mem_cons.mp hcall with rfl | hafter
    · exact hrecorded (hall _ (by simp))
    · exact hall call (by simp [hafter])

theorem Committed.others (h : s.Committed maxSize) {call : QueueCall α}
    (hcalls : s.calls = before ++ call :: after) {other : QueueCall α}
    (hother : other ∈ before ++ after) : other.number ≠ call.number := by
  have hperm : (s.calls.map QueueCall.number).Perm
      ((call :: (before ++ after)).map QueueCall.number) := by
    rw [hcalls]
    exact List.perm_middle.map _
  have hnodup := hperm.nodup_iff.mp h.distinct
  rw [List.map_cons, List.nodup_cons] at hnodup
  exact fun heq => hnodup.1 (heq ▸ List.mem_map_of_mem hother)

/-- A call takes effect. -/
theorem Committed.commit (h : s.Committed maxSize) {c : ℕ} {operation : QueueOperation α}
    {phase : QueuePhase α} {timedOut : Bool} {result : QueueResult α} {q : ConcurrentQueue α}
    (hcalls : s.calls = before ++ ⟨c, operation, phase⟩ :: after)
    (hphase : phase.locks timedOut) (hrun : operation.run timedOut s.queue = some (result, q)) :
    ({ s with
      queue := q
      calls := before ++ ⟨c, operation, operation.after result⟩ :: after
      log := .commit c operation result :: s.log } : QueueSystem α).Committed maxSize := by
  have hpending : .call c operation ∈ s.log ∧
      ∀ operation result, .commit c operation result ∉ s.log := by
    have hrecorded := h.recorded ⟨c, operation, phase⟩ (by rw [hcalls]; simp)
    cases phase with
    | entering => exact hrecorded
    | woken timedOut' => exact hrecorded
    | _ => cases hphase
  have hfifo := QueueOperation.run_fifo hrun
  refine ⟨hfifo.1.trans h.maxSize_eq, .commit h.ordered hpending.1 hpending.2, ?_, ?_, ?_, ?_, ?_⟩
  · refine .cons h.legal ?_
    have hstep := hfifo.2
    rw [h.maxSize_eq] at hstep
    exact hstep
  · intro call hcall
    have hmem : call = ⟨c, operation, operation.after result⟩ ∨ call ∈ before ++ after := by
      simp only [List.mem_append, List.mem_cons] at hcall ⊢
      tauto
    rcases hmem with rfl | hother
    · have hcommit : CallEvent.commit c operation result ∈
          .commit c operation result :: s.log := List.mem_cons_self
      unfold QueueOperation.after
      split <;> exact hcommit
    · have hne := h.others hcalls hother
      refine QueueCall.Recorded.cons (h.recorded call ?_) fun operation' result' heq => ?_
      · rw [hcalls]
        simp only [List.mem_append, List.mem_cons] at hother ⊢
        tauto
      · cases heq
        exact hne rfl
  · have hdistinct := h.distinct
    rw [hcalls] at hdistinct
    simpa using hdistinct
  · intro c' operation' hmem
    exact h.old c' operation' (by simpa using hmem)
  · intro call hcall
    have hold := h.oldCalls
    rw [hcalls] at hold
    simp only [List.mem_append, List.mem_cons] at hcall hold
    rcases hcall with hbefore | rfl | hafter
    · exact hold call (.inl hbefore)
    · exact hold ⟨c, operation, phase⟩ (.inr (.inl rfl))
    · exact hold call (.inr (.inr hafter))

theorem Step.committed (hstep : QueueSystem.Step s t) (h : s.Committed maxSize) :
    t.Committed maxSize := by
  cases hstep with
  | call operation =>
    have hnew : ∀ operation, .call s.nextCall operation ∉ s.log := fun operation hmem =>
      Nat.lt_irrefl _ (h.old s.nextCall operation hmem)
    refine ⟨h.maxSize_eq, .call h.ordered hnew, h.legal, ?_, ?_, ?_, ?_⟩
    · refine List.forall_mem_cons.mpr ⟨⟨List.mem_cons_self, ?_⟩, fun call hcall => ?_⟩
      · intro operation' result hmem
        have hlog : .commit s.nextCall operation' result ∈ s.log := by simpa using hmem
        exact hnew operation' (h.ordered.called hlog)
      · exact (h.recorded call hcall).cons fun _ _ => nofun
    · refine List.nodup_cons.mpr ⟨fun hmem => ?_, h.distinct⟩
      obtain ⟨call, hcall, heq⟩ := List.mem_map.mp hmem
      exact Nat.lt_irrefl _ (heq ▸ h.oldCalls call hcall)
    · intro c operation' hmem
      rcases List.mem_cons.mp hmem with heq | hlog
      · cases heq
        exact Nat.lt_succ_self _
      · exact Nat.lt_succ_of_lt (h.old c operation' hlog)
    · refine List.forall_mem_cons.mpr ⟨Nat.lt_succ_self _, fun call hcall => ?_⟩
      exact Nat.lt_succ_of_lt (h.oldCalls call hcall)
  | wait hcalls hphase hrun =>
    rename_i phase timedOut
    refine h.advance .blocked hcalls fun hrecorded => ?_
    cases phase with
    | entering => exact hrecorded
    | woken timedOut' => exact hrecorded
    | _ => cases hphase
  | commit hcalls hphase hrun hnotify =>
    refine (h.commit hcalls hphase hrun).stir (Stirred.of_notifyOne (fun call hwaits => ?_) hnotify)
    exact onNotFull_blocked call (Bool.and_eq_true_iff.mp hwaits).2
  | notify hcalls hone hnotify =>
    exact (h.advance (.returning _) hcalls id).stir
      (Stirred.of_notifyOne onNotEmpty_blocked hnotify)
  | notifyEmpty hcalls =>
    exact (h.advance (.notifyingFull _) hcalls id).stir (Stirred.notifyAll onNotEmpty_blocked _)
  | notifyFull hcalls =>
    exact (h.advance (.returning _) hcalls id).stir (Stirred.notifyAll onNotFull_blocked _)
  | wakeup hcalls hblocked htimed =>
    refine h.stir ?_
    rw [hcalls]
    exact Stirred.one hblocked _
  | @ret before after c operation result hcalls =>
    have hsub : (before ++ after).Sublist s.calls := by
      rw [hcalls]
      exact (List.sublist_cons_self _ _).append_left before
    have hcommit : .commit c operation result ∈ s.log :=
      h.recorded ⟨c, operation, .returning result⟩ (by rw [hcalls]; simp)
    refine ⟨h.maxSize_eq, .ret h.ordered hcommit, h.legal, fun call hcall => ?_,
      h.distinct.sublist (hsub.map _), fun c operation hmem => ?_, fun call hcall => ?_⟩
    · exact (h.recorded call (hsub.subset hcall)).cons fun _ _ => nofun
    · exact h.old c operation (by simpa using hmem)
    · exact h.oldCalls call (hsub.subset hcall)

end QueueSystem

/-! ## Nobody is stuck -/

/-- How many callers of `Enqueue` have been woken and have not yet the mutex again. -/
def wokenProducers (calls : List (QueueCall α)) : ℕ :=
  calls.countP fun call => call.isEnqueue && call.isWoken

namespace Stirred

variable {calls calls' : List (QueueCall α)}

theorem waiting (h : Stirred calls calls') (hwaiting : calls'.any QueueCall.onNotFull = true) :
    calls.any QueueCall.onNotFull = true := by
  induction h with
  | nil => exact hwaiting
  | cons hcall h ih =>
    rw [List.any_cons, Bool.or_eq_true] at hwaiting ⊢
    refine hwaiting.imp (fun hhead => ?_) ih
    rcases hcall with rfl | ⟨-, timedOut, rfl⟩
    · exact hhead
    · simp [QueueCall.onNotFull, QueueCall.wake, QueueCall.isBlocked] at hhead

theorem outstanding (h : Stirred calls calls') :
    calls'.any QueueCall.outstanding = calls.any QueueCall.outstanding := by
  induction h with
  | nil => rfl
  | @cons call call' _ _ hcall h ih =>
    rw [List.any_cons, List.any_cons, ih]
    rcases hcall with rfl | ⟨hblocked, timedOut, rfl⟩
    · rfl
    · obtain ⟨c, operation, phase⟩ := call
      cases phase with
      | blocked => cases operation <;> rfl
      | _ => cases hblocked

theorem wokenProducers_le (h : Stirred calls calls') :
    wokenProducers calls ≤ wokenProducers calls' := by
  induction h with
  | nil => exact Nat.le_refl _
  | @cons call call' rest rest' hcall h ih =>
    unfold wokenProducers at ih ⊢
    rw [List.countP_cons, List.countP_cons]
    refine Nat.add_le_add ih ?_
    rcases hcall with rfl | ⟨hblocked, timedOut, rfl⟩
    · exact Nat.le_refl _
    · obtain ⟨c, operation, phase⟩ := call
      cases phase with
      | blocked => simp [QueueCall.isWoken]
      | _ => cases hblocked

end Stirred

/-- If somebody waits for room, `notify_one` wakes such a thread. -/
theorem NotifyOne.wokenProducers_lt {waits : QueueCall α → Bool} {calls calls' : List (QueueCall α)}
    (h : NotifyOne waits calls calls') (hwaits : waits = QueueCall.onNotFull)
    (hwaiting : calls.any QueueCall.onNotFull = true) :
    wokenProducers calls < wokenProducers calls' := by
  cases h with
  | nobody hnobody =>
    rw [hwaits, hwaiting] at hnobody
    cases hnobody
  | one hcall =>
    rw [hwaits, QueueCall.onNotFull, Bool.and_eq_true] at hcall
    rename_i before after call
    obtain ⟨c, operation, phase⟩ := call
    cases phase with
    | blocked =>
      have henqueue : (⟨c, operation, .woken false⟩ : QueueCall α).isEnqueue = true := hcall.1
      simp [wokenProducers, QueueCall.wake, QueueCall.isWoken, henqueue]
    | _ => cases hcall.2

/-- After `not_full_.notify_all` nobody waits for room. -/
theorem notifyAll_onNotFull (calls : List (QueueCall α)) :
    (notifyAll QueueCall.onNotFull calls).any QueueCall.onNotFull = false := by
  rw [notifyAll, List.any_map, List.any_eq_false]
  intro call hcall
  simp only [Function.comp_apply]
  split
  · simp [QueueCall.onNotFull, QueueCall.wake, QueueCall.isBlocked]
  · assumption

/-- Whoever waits for room waits behind others that will fill it. -/
def Unstuck (q : ConcurrentQueue α) (calls : List (QueueCall α)) : Prop :=
  calls.any QueueCall.onNotFull = true → calls.any QueueCall.outstanding = true ∨
    (q.isStopped = false ∧ q.maxSize - q.queue.length ≤ wokenProducers calls)

section Unstuck

variable {q q' : ConcurrentQueue α} {calls calls' before after : List (QueueCall α)}

theorem Unstuck.stir (h : Unstuck q calls) (hstirred : Stirred calls calls') :
    Unstuck q calls' := by
  intro hwaiting
  rw [hstirred.outstanding]
  refine (h (hstirred.waiting hwaiting)).imp_right fun hroom => ?_
  exact ⟨hroom.1, Nat.le_trans hroom.2 hstirred.wokenProducers_le⟩

/-- One call goes on which does not wait, is not a producer on its way, and leaves no
notification behind. -/
theorem Unstuck.advance {call call' : QueueCall α} (h : Unstuck q (before ++ call :: after))
    (hwaits : call'.onNotFull = true → call.onNotFull = true)
    (houtstanding : call.outstanding = true → call'.outstanding = true)
    (hwoken : (call.isEnqueue && call.isWoken) = true →
      (call'.isEnqueue && call'.isWoken) = true) : Unstuck q (before ++ call' :: after) := by
  intro hwaiting
  simp only [List.any_append, List.any_cons, Bool.or_eq_true] at hwaiting
  have hbefore := h (by
    simp only [List.any_append, List.any_cons, Bool.or_eq_true]
    tauto)
  refine hbefore.imp (fun hsome => ?_) fun hroom => ⟨hroom.1, Nat.le_trans hroom.2 ?_⟩
  · simp only [List.any_append, List.any_cons, Bool.or_eq_true] at hsome ⊢
    tauto
  · simp only [wokenProducers, List.countP_append, List.countP_cons]
    by_cases hproducer : (call.isEnqueue && call.isWoken) = true
    · simp [hproducer, hwoken hproducer]
    · rw [if_neg hproducer]
      omega

/-- A thread is in its critical section: it neither waits, nor is a notification of it on its
way. -/
theorem QueuePhase.locks.not_blocked {phase : QueuePhase α} {timedOut : Bool}
    (h : phase.locks timedOut) (c : ℕ) (operation : QueueOperation α) :
    (⟨c, operation, phase⟩ : QueueCall α).onNotFull = false ∧
      (⟨c, operation, phase⟩ : QueueCall α).outstanding = false := by
  cases phase with
  | entering => exact ⟨by simp [QueueCall.onNotFull, QueueCall.isBlocked],
      by cases operation <;> rfl⟩
  | woken timedOut' =>
    exact ⟨by simp [QueueCall.onNotFull, QueueCall.isBlocked], by cases operation <;> rfl⟩
  | _ => cases h

theorem after_not_blocked (c : ℕ) (operation : QueueOperation α) (result : QueueResult α) :
    (⟨c, operation, operation.after result⟩ : QueueCall α).onNotFull = false ∧
      (⟨c, operation, operation.after result⟩ : QueueCall α).isWoken = false := by
  unfold QueueOperation.after QueueCall.onNotFull
  split <;> simp [QueueCall.isBlocked, QueueCall.isWoken]

/-- A call that takes effect and leaves room wakes a producer that waits. -/
theorem Unstuck.commit {c : ℕ} {operation : QueueOperation α} {phase : QueuePhase α}
    {timedOut : Bool} {result : QueueResult α}
    (h : Unstuck q (before ++ ⟨c, operation, phase⟩ :: after)) (hphase : phase.locks timedOut)
    (hrun : operation.run timedOut q = some (result, q'))
    (hnotify : NotifyOne (fun call => result.notifiesFull q.maxSize && call.onNotFull)
      (before ++ ⟨c, operation, operation.after result⟩ :: after) calls) :
    Unstuck q' calls := by
  intro hwaiting
  have hstirred : Stirred (before ++ ⟨c, operation, operation.after result⟩ :: after) calls :=
    Stirred.of_notifyOne
      (fun call hwaits => onNotFull_blocked call (Bool.and_eq_true_iff.mp hwaits).2) hnotify
  have hmiddle := hstirred.waiting hwaiting
  obtain ⟨hidle, hquiet⟩ := hphase.not_blocked c operation
  obtain ⟨hidle', hawake⟩ := after_not_blocked c operation result
  have hold : (before ++ ⟨c, operation, phase⟩ :: after).any QueueCall.onNotFull = true := by
    simpa [hidle, hidle'] using hmiddle
  have hwakes := hstirred.wokenProducers_le
  have hloses : wokenProducers (before ++ ⟨c, operation, phase⟩ :: after) ≤
      wokenProducers (before ++ ⟨c, operation, operation.after result⟩ :: after) +
        if (⟨c, operation, phase⟩ : QueueCall α).isEnqueue = true then 1 else 0 := by
    simp only [wokenProducers, List.countP_append, List.countP_cons, hawake, Bool.and_false]
    cases (⟨c, operation, phase⟩ : QueueCall α).isEnqueue with
    | false => simp
    | true =>
      simp only [if_true]
      split <;> omega
  rcases h hold with hsome | ⟨hopen, hroom⟩
  · refine .inl ?_
    rw [hstirred.outstanding]
    simp only [List.any_append, List.any_cons, hquiet, Bool.false_or, Bool.or_eq_true] at hsome ⊢
    tauto
  · -- an element that is taken leaves room, and wakes a producer for it
    have htaken {value : α} (hresult : result = .taken (some value)) (hpos : 0 < q.maxSize) :
        wokenProducers (before ++ ⟨c, operation, operation.after result⟩ :: after) <
          wokenProducers calls := by
      refine hnotify.wokenProducers_lt ?_ hmiddle
      funext call
      simp [hresult, QueueResult.notifiesFull, hpos]
    obtain ⟨hsize, hchange⟩ := QueueOperation.run_room hrun hopen
    cases hchange with
    | stops hoperation =>
      obtain rfl := hoperation
      refine .inl ?_
      rw [hstirred.outstanding]
      simp [QueueOperation.after, QueueCall.outstanding]
    | pushes hopen' hlength =>
      refine .inr ⟨hopen', ?_⟩
      split at hloses <;> omega
    | keeps hother hopen' hlength =>
      rw [if_neg (by simp [hother c phase])] at hloses
      exact .inr ⟨hopen', by omega⟩
    | takes hresult hother hopen' hlength =>
      rw [if_neg (by simp [hother c phase])] at hloses
      refine .inr ⟨hopen', ?_⟩
      by_cases hpos : 0 < q.maxSize
      · have hmore := htaken hresult hpos
        omega
      · omega

end Unstuck

/-- A step keeps the producers that wait from being stuck. -/
theorem QueueSystem.Step.unstuck {s t : QueueSystem α} (hstep : QueueSystem.Step s t)
    (h : Unstuck s.queue s.calls) : Unstuck t.queue t.calls := by
  cases hstep with
  | call operation =>
    intro hwaiting
    have hidle : (⟨s.nextCall, operation, .entering⟩ : QueueCall α).onNotFull = false := by
      simp [QueueCall.onNotFull, QueueCall.isBlocked]
    rw [List.any_cons, hidle, Bool.false_or] at hwaiting
    refine (h hwaiting).imp (fun hsome => ?_) fun hroom => ⟨hroom.1, ?_⟩
    · rw [List.any_cons, hsome, Bool.or_true]
    · simpa [wokenProducers, QueueCall.isWoken] using hroom.2
  | @wait before after c operation phase timedOut hcalls hphase hrun =>
    rw [hcalls] at h
    obtain ⟨hidle, hquiet⟩ := hphase.not_blocked c operation
    cases operation with
    | enqueue value =>
      -- the producer waits because there is no room
      have hfull := ConcurrentQueue.enqueue_waits (Option.map_eq_none_iff.mp hrun)
      refine fun _ => .inr ⟨hfull.2.2, ?_⟩
      dsimp only
      omega
    | waitDequeue =>
      exact h.advance (fun hwaits => by cases hwaits) (fun hsome => by simp [hquiet] at hsome)
        fun hproducer => by cases hproducer
    | _ => cases hrun
  | commit hcalls hphase hrun hnotify =>
    rw [hcalls] at h
    exact h.commit hphase hrun hnotify
  | @notify before after calls c operation result hcalls hone hnotify =>
    rw [hcalls] at h
    have hreturning : Unstuck s.queue (before ++ ⟨c, operation, .returning result⟩ :: after) := by
      refine h.advance (fun hwaits => ?_) (fun hsome => ?_) fun hproducer => ?_
      · simp [QueueCall.onNotFull, QueueCall.isBlocked] at hwaits
      · cases operation with
        | notifyStop => exact absurd rfl hone
        | _ => cases hsome
      · simp [QueueCall.isWoken] at hproducer
    exact hreturning.stir (Stirred.of_notifyOne onNotEmpty_blocked hnotify)
  | @notifyEmpty before after c result hcalls =>
    rw [hcalls] at h
    have hfull : Unstuck s.queue (before ++ ⟨c, .notifyStop, .notifyingFull result⟩ :: after) :=
      h.advance (fun hwaits => by cases hwaits) (fun _ => rfl) fun hproducer => by cases hproducer
    exact hfull.stir (Stirred.notifyAll onNotEmpty_blocked _)
  | notifyFull hcalls =>
    intro hwaiting
    rw [notifyAll_onNotFull] at hwaiting
    cases hwaiting
  | wakeup hcalls hblocked htimed =>
    rw [hcalls] at h
    exact h.stir (Stirred.one hblocked _)
  | @ret before after c operation result hcalls =>
    rw [hcalls] at h
    intro hwaiting
    have hidle : (⟨c, operation, .returning result⟩ : QueueCall α).outstanding = false := by
      cases operation <;> rfl
    have hbefore := h (by
      simp only [List.any_append, List.any_cons, Bool.or_eq_true] at hwaiting ⊢
      tauto)
    refine hbefore.imp (fun hsome => ?_) fun hroom => ⟨hroom.1, ?_⟩
    · simpa [hidle] using hsome
    · simpa [wokenProducers, QueueCall.isWoken] using hroom.2

/-- Whatever the calls do, they are linearizable to a bounded FIFO: what has been dequeued and
what is there is what was pushed, in the order of the pushes. There is never more than the
capacity. Where a producer waits for room, the queue is not stopped, and there is no more room
than producers on their way, unless the notification of a `NotifyStop` is still to come. -/
theorem queues_linearizable_unstuck {maxSize : ℕ} {states : List (QueueSystem α)}
    (hrun : (queues α maxSize).Run states) :
    ∀ s ∈ states,
      (∃ order, (boundedFifo α maxSize).Linearizes order (visible s.log) ∧
        collect takenBy order ++ s.queue.queue = collect pushedBy order) ∧
      (0 < maxSize → s.queue.queue.length ≤ maxSize) ∧
      (s.calls.any QueueCall.onNotFull = true → s.calls.any QueueCall.outstanding = false →
        s.queue.isStopped = false ∧
          maxSize - s.queue.queue.length ≤ wokenProducers s.calls) := by
  have hinvariant : ∀ s ∈ states, s.Committed maxSize ∧ Unstuck s.queue s.calls := by
    refine hrun.invariant ?_ fun s t h (hstep : QueueSystem.Step s t) =>
      ⟨hstep.committed h.1, hstep.unstuck h.2⟩
    rintro s rfl
    exact ⟨⟨rfl, .nil, .nil, by simp, List.nodup_nil, by simp, by simp⟩, nofun⟩
  intro s hs
  obtain ⟨hcommitted, hunstuck⟩ := hinvariant s hs
  refine ⟨⟨commits s.log, hcommitted.ordered.linearizes hcommitted.legal, ?_⟩, ?_, ?_⟩
  · exact boundedFifo_conserves hcommitted.legal
  · exact boundedFifo_bounded hcommitted.legal
  · intro hwaiting hquiet
    rcases hunstuck hwaiting with hsome | hroom
    · rw [hquiet] at hsome
      cases hsome
    · rw [hcommitted.maxSize_eq] at hroom
      exact hroom

/-- Of two producers that wait for room in a queue of one element, one has been woken by
`TryDequeue`. -/
def sampleWoken : QueueSystem ℕ :=
  { queue := { maxSize := 1 }
    calls := [⟨3, .tryDequeue, .returning (.taken (some 7))⟩, ⟨2, .enqueue 9, .blocked⟩,
      ⟨1, .enqueue 8, .woken false⟩, ⟨0, .tryEnqueue 7, .notifying (.accepted true)⟩]
    nextCall := 4
    log := [.commit 3 .tryDequeue (.taken (some 7)), .call 3 .tryDequeue, .call 2 (.enqueue 9),
      .call 1 (.enqueue 8), .commit 0 (.tryEnqueue 7) (.accepted true), .call 0 (.tryEnqueue 7)] }

theorem sampleWoken_run : ∃ past, (queues ℕ 1).Run (sampleWoken :: past) := by
  have hstart : (queues ℕ 1).Run [{ queue := { maxSize := 1 } }] := .start rfl
  have hfirst := hstart.next (.call (.tryEnqueue 7))
  have hpushed := hfirst.next (.commit (List.nil_append _).symm rfl rfl (.nobody rfl))
  have hsecond := hpushed.next (.call (.enqueue 8))
  have hwaits := hsecond.next (.wait (List.nil_append _).symm rfl rfl)
  have hthird := hwaits.next (.call (.enqueue 9))
  have hwaits' := hthird.next (.wait (List.nil_append _).symm rfl rfl)
  have htakes := hwaits'.next (.call .tryDequeue)
  have hnotify : NotifyOne (fun call => true && call.onNotFull)
      ([⟨3, .tryDequeue, .returning (.taken (some 7))⟩, ⟨2, .enqueue 9, .blocked⟩] ++
        ⟨1, .enqueue 8, .blocked⟩ :: [⟨0, .tryEnqueue 7, .notifying (.accepted true)⟩])
      sampleWoken.calls := .one rfl
  exact ⟨_, htakes.next (.commit (List.nil_append _).symm rfl rfl hnotify)⟩

/-- The other waits behind it. -/
theorem queues_linearizable_unstuck_two_producers :
    sampleWoken.calls.any QueueCall.onNotFull = true ∧
      1 - sampleWoken.queue.queue.length ≤ wokenProducers sampleWoken.calls ∧
      1 - sampleWoken.queue.queue.length = 1 := by
  obtain ⟨past, hrun⟩ := sampleWoken_run
  have hall := queues_linearizable_unstuck hrun sampleWoken List.mem_cons_self
  exact ⟨by decide, (hall.2.2 (by decide) (by decide)).2, by decide⟩

end DarwinCore.Network
