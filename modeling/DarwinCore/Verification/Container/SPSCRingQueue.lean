import DarwinCore.Library.History
import DarwinCore.Model.Container.RingQueue

/-! # `SPSCRingQueue` as a bounded FIFO

The indices are the numbers of values pushed and popped, taken around the ring. Each thread knows
the index that it moves; of the other it may know an old value, which only makes the queue look
fuller to the producer and emptier to the consumer. -/

namespace DarwinCore.Container

open History Linearization PowerOfTwo

variable {α : Type*}

/-! ## The capacity -/

/-- The least power of two that is at least `n`. -/
theorem nextPowerOfTwo_eq {n : ℕ} (hn : n ≤ 2 ^ 63) : nextPowerOfTwo n = 2 ^ Nat.clog 2 n := by
  cases n with
  | zero => simp [nextPowerOfTwo]
  | succ m =>
    have hsmeared := (((((smeared_self m).double).double).double).double).double.double
    have hlt : m < 2 ^ 64 := by omega
    have hle : 2 ^ Nat.clog 2 (m + 1) ≤ 2 ^ 63 := by
      exact Nat.pow_le_pow_right Nat.two_pos ((Nat.clog_le_iff_le_pow Nat.one_lt_two).mpr hn)
    simp only [nextPowerOfTwo, Nat.succ_ne_zero, if_false, Nat.add_sub_cancel]
    rw [hsmeared.succ hlt, Nat.mod_eq_of_lt (by omega)]

theorem clog_le {n k : ℕ} (hn : n ≤ 2 ^ k) : Nat.clog 2 n ≤ k :=
  (Nat.clog_le_iff_le_pow Nat.one_lt_two).mpr hn

namespace SPSCRingQueue

variable {q : SPSCRingQueue α} {k : ℕ}

theorem next_eq (hcapacity : q.capacity_ = 2 ^ k) (hk : k ≤ 64) (n : ℕ) :
    q.next (n % 2 ^ k) = (n + 1) % 2 ^ k := by
  rw [next, mask, hcapacity, Nat.and_two_pow_sub_one_eq_mod,
    Nat.mod_mod_of_dvd _ (Nat.pow_dvd_pow 2 hk), Nat.mod_add_mod]

end SPSCRingQueue

/-! ## A bounded FIFO -/

/-- What a FIFO of at most `capacity` elements does. -/
inductive RingFifoStep (capacity : ℕ) :
    RingOperation α → List α → RingResult α → List α → Prop where
  | pushed {value : α} {items : List α} (h : items.length < capacity) :
      RingFifoStep capacity (.push value) items (.pushed true) (items ++ [value])
  | full {value : α} {items : List α} (h : items.length = capacity) :
      RingFifoStep capacity (.push value) items (.pushed false) items
  | popped {value : α} {items : List α} :
      RingFifoStep capacity .pop (value :: items) (.popped (some value)) items
  | empty : RingFifoStep capacity .pop [] (.popped none) []

def ringFifo (α : Type*) (capacity : ℕ) :
    SequentialObject (RingOperation α) (RingResult α) (List α) where
  init := []
  step := RingFifoStep capacity

def storedBy (call : ℕ × RingOperation α × RingResult α) : List α :=
  match call.2.1, call.2.2 with
  | .push value, .pushed true => [value]
  | _, _ => []

def takenBy (call : ℕ × RingOperation α × RingResult α) : List α :=
  match call.2.2 with
  | .popped (some value) => [value]
  | _ => []

def returnedBy : CallEvent (RingOperation α) (RingResult α) → List α
  | .ret _ (.popped (some value)) => [value]
  | _ => []

/-- What has been popped and what is there is what was pushed, in this order. -/
theorem ringFifo_conserves {capacity : ℕ} {order : List (ℕ × RingOperation α × RingResult α)}
    {items : List α} (h : (ringFifo α capacity).Legal order items) :
    collect takenBy order ++ items = collect storedBy order := by
  induction h with
  | nil => rfl
  | @cons order t t' c operation result h hstep ih =>
    have hstep' : RingFifoStep capacity operation t result t' := hstep
    cases hstep' <;> simp [collect, takenBy, storedBy, ← ih]

namespace SPSCSystem

/-- The values that have been pushed, in order. -/
def pushed (s : SPSCSystem α) : List α :=
  collect storedBy (commits s.log)

/-- The values that have been popped, in order. -/
def popped (s : SPSCSystem α) : List α :=
  collect takenBy (commits s.log)

/-- The values that calls of `pop` have returned, in order. -/
def returned (s : SPSCSystem α) : List α :=
  collect returnedBy s.log

end SPSCSystem

/-! ## Indices and slots -/

/-- What the producer knows: its index, and that there is room if it has found some. -/
def Producer.Knows (q : SPSCRingQueue α) (room : Prop) : Producer α → Prop
  | loadingHead _ currentTail => currentTail = q.tail
  | writing _ currentTail => currentTail = q.tail ∧ room
  | storing value currentTail =>
      currentTail = q.tail ∧ room ∧ q.buffer[currentTail]? = some value
  | _ => True

/-- What the consumer knows: its index, and the next value if it has found one. -/
def Consumer.Knows (q : SPSCRingQueue α) (next : Option α) : Consumer α → Prop
  | loadingTail currentHead => currentHead = q.head
  | reading currentHead => currentHead = q.head ∧ ∃ value, next = some value
  | storing value currentHead => currentHead = q.head ∧ next = some value
  | _ => True

/-- The number of values that the consumer has read and not yet passed. -/
def Consumer.ahead : Consumer α → ℕ
  | storing _ _ => 1
  | _ => 0

namespace Consumer

@[simp] theorem ahead_reading (currentHead : ℕ) :
    (reading currentHead : Consumer α).ahead = 0 := rfl

@[simp] theorem ahead_storing (value : α) (currentHead : ℕ) :
    (storing value currentHead).ahead = 1 := rfl

@[simp] theorem ahead_returning (value : Option α) : (returning value).ahead = 0 := rfl

end Consumer

namespace SPSCSystem

/-- The slots between the indices hold the values that have not been read. -/
structure Sound (c : ℕ) (s : SPSCSystem α) : Prop where
  capacity_eq : s.queue.capacity_ = c
  length_eq : s.queue.buffer.length = c
  head : s.queue.head = s.popped.length % c
  tail : s.queue.tail = s.pushed.length % c
  le : s.popped.length ≤ s.pushed.length
  fits : s.pushed.length ≤ s.popped.length + (c - 1)
  producer : s.producer.Knows s.queue (s.pushed.length < s.popped.length + (c - 1))
  consumer : s.consumer.Knows s.queue s.pushed[s.popped.length]?
  holds : Ring.Holds s.queue.buffer (s.popped.length + s.consumer.ahead)
    (s.pushed.drop (s.popped.length + s.consumer.ahead))

variable {c k : ℕ} {s t : SPSCSystem α}

theorem Sound.moves (h : s.Sound c) (hqueue : t.queue = s.queue) (hpushed : t.pushed = s.pushed)
    (hpopped : t.popped = s.popped) (hahead : t.consumer.ahead = s.consumer.ahead)
    (hproducer : t.producer.Knows s.queue (s.pushed.length < s.popped.length + (c - 1)))
    (hconsumer : t.consumer.Knows s.queue s.pushed[s.popped.length]?) : t.Sound c where
  capacity_eq := hqueue ▸ h.capacity_eq
  length_eq := hqueue ▸ h.length_eq
  head := by rw [hqueue, hpopped, h.head]
  tail := by rw [hqueue, hpushed, h.tail]
  le := by rw [hpushed, hpopped]; exact h.le
  fits := by rw [hpushed, hpopped]; exact h.fits
  producer := by rw [hqueue, hpushed, hpopped]; exact hproducer
  consumer := by rw [hqueue, hpushed, hpopped]; exact hconsumer
  holds := by rw [hqueue, hpushed, hpopped, hahead]; exact h.holds

theorem Sound.ahead_le (h : s.Sound c) : s.popped.length + s.consumer.ahead ≤ s.pushed.length := by
  have hle := h.le
  have hconsumer := h.consumer
  cases hc : s.consumer with
  | storing value currentHead =>
    rw [hc, Consumer.Knows] at hconsumer
    obtain ⟨hlt, -⟩ := List.getElem?_eq_some_iff.mp hconsumer.2
    exact hlt
  | _ => simpa [Consumer.ahead] using hle

/-- The slot at the tail is not one that the consumer still has to read. -/
theorem Sound.set_tail (h : s.Sound c) (hroom : s.pushed.length < s.popped.length + (c - 1))
    (v : α) : Ring.Holds (s.queue.buffer.set s.queue.tail v) (s.popped.length + s.consumer.ahead)
      (s.pushed.drop (s.popped.length + s.consumer.ahead)) := by
  have hahead := h.ahead_le
  have hset := h.holds.set (by rw [List.length_drop, h.length_eq]; omega) v
  rw [List.length_drop, Nat.add_sub_cancel' hahead, h.length_eq, ← h.tail] at hset
  exact hset

/-- The producer changes the element at its index. -/
theorem Sound.assigns (h : s.Sound c) (hroom : s.pushed.length < s.popped.length + (c - 1))
    (v : α) (hqueue : t.queue = s.queue.assign s.queue.tail v) (hpushed : t.pushed = s.pushed)
    (hpopped : t.popped = s.popped) (hconsumer : t.consumer = s.consumer)
    (hproducer : t.producer.Knows t.queue (s.pushed.length < s.popped.length + (c - 1))) :
    t.Sound c where
  capacity_eq := by rw [hqueue]; exact h.capacity_eq
  length_eq := by rw [hqueue, SPSCRingQueue.assign, List.length_set]; exact h.length_eq
  head := by rw [hqueue, hpopped]; exact h.head
  tail := by rw [hqueue, hpushed]; exact h.tail
  le := by rw [hpushed, hpopped]; exact h.le
  fits := by rw [hpushed, hpopped]; exact h.fits
  producer := by rw [hpushed, hpopped]; exact hproducer
  consumer := by
    have hknows := h.consumer
    rw [hqueue, hpushed, hpopped, hconsumer]
    cases hc : s.consumer <;> rw [hc] at hknows <;> exact hknows
  holds := by
    rw [hqueue, hpushed, hpopped, hconsumer]
    exact h.set_tail hroom v

theorem Sound.storeTail (h : s.Sound (2 ^ k)) (hk : k ≤ 64) {value : α} {currentTail : ℕ}
    (hproducer : s.producer = .storing value currentTail)
    (hqueue : t.queue = { s.queue with tail := s.queue.next currentTail })
    (hpushed : t.pushed = s.pushed ++ [value]) (hpopped : t.popped = s.popped)
    (hproducer' : t.producer = .returning true) (hconsumer : t.consumer = s.consumer) :
    t.Sound (2 ^ k) := by
  have hknows := h.producer
  rw [hproducer] at hknows
  obtain ⟨rfl, hroom, hvalue⟩ := hknows
  have hahead := h.ahead_le
  have hlength : t.pushed.length = s.pushed.length + 1 := by
    rw [hpushed, List.length_append, List.length_singleton]
  refine ⟨hqueue ▸ h.capacity_eq, hqueue ▸ h.length_eq, ?_, ?_, ?_, ?_, ?_, ?_, ?_⟩
  · rw [hqueue, hpopped]
    exact h.head
  · rw [hqueue, hlength, h.tail]
    exact SPSCRingQueue.next_eq h.capacity_eq hk _
  · rw [hpopped, hlength]
    exact Nat.le_succ_of_le h.le
  · rw [hpopped, hlength]
    exact hroom
  · rw [hproducer']
    trivial
  · have hknows := h.consumer
    rw [hqueue, hpushed, hpopped, hconsumer]
    cases hc : s.consumer with
    | reading currentHead =>
      rw [hc] at hknows
      obtain ⟨hhead, next, hnext⟩ := hknows
      obtain ⟨hlt, -⟩ := List.getElem?_eq_some_iff.mp hnext
      exact ⟨hhead, next, (List.getElem?_append_left hlt).trans hnext⟩
    | storing value' currentHead =>
      rw [hc] at hknows
      obtain ⟨hhead, hnext⟩ := hknows
      obtain ⟨hlt, -⟩ := List.getElem?_eq_some_iff.mp hnext
      exact ⟨hhead, (List.getElem?_append_left hlt).trans hnext⟩
    | loadingTail currentHead =>
      rw [hc] at hknows
      exact hknows
    | _ => trivial
  · rw [hqueue, hpushed, hpopped, hconsumer, List.drop_append_of_le_length hahead]
    refine h.holds.snoc ?_
    rw [List.length_drop, Nat.add_sub_cancel' hahead, h.length_eq, ← h.tail]
    exact hvalue

/-- The consumer has read the element at its index, whose value changes. -/
theorem Sound.read (h : s.Sound c) {currentHead : ℕ} {value : α} (moved : α)
    (hconsumer : s.consumer = .reading currentHead)
    (hvalue : s.queue.buffer[currentHead]? = some value)
    (hqueue : t.queue = s.queue.assign currentHead moved) (hpushed : t.pushed = s.pushed)
    (hpopped : t.popped = s.popped) (hproducer : t.producer = s.producer)
    (hconsumer' : t.consumer = .storing value currentHead) : t.Sound c := by
  have hknows := h.consumer
  rw [hconsumer] at hknows
  obtain ⟨rfl, next, hnext⟩ := hknows
  obtain ⟨hlt, hget⟩ := List.getElem?_eq_some_iff.mp hnext
  have hfits := h.fits
  have hholds := h.holds
  rw [hconsumer, Consumer.ahead_reading, Nat.add_zero, List.drop_eq_getElem_cons hlt,
    hget] at hholds
  -- the value read is the next one
  obtain rfl : next = value := by
    have hfirst := hholds.first
    rw [h.length_eq, ← h.head, hvalue] at hfirst
    exact (Option.some.inj hfirst).symm
  refine ⟨?_, ?_, ?_, ?_, ?_, ?_, ?_, ?_, ?_⟩
  · rw [hqueue]
    exact h.capacity_eq
  · rw [hqueue, SPSCRingQueue.assign, List.length_set]
    exact h.length_eq
  · rw [hqueue, hpopped]
    exact h.head
  · rw [hqueue, hpushed]
    exact h.tail
  · rw [hpushed, hpopped]
    exact h.le
  · rw [hpushed, hpopped]
    exact hfits
  · have hknows := h.producer
    rw [hqueue, hpushed, hpopped, hproducer]
    cases hp : s.producer with
    | storing value' currentTail =>
      rw [hp] at hknows
      obtain ⟨htail, hroom, hstored⟩ := hknows
      refine ⟨htail, hroom, ?_⟩
      rw [SPSCRingQueue.assign, List.getElem?_set_ne ?_]
      · exact hstored
      · rw [htail, h.head, h.tail]
        intro heq
        have := Ring.eq_of_mod_eq h.le (by omega) heq
        omega
    | loadingHead value' currentTail =>
      rw [hp] at hknows
      exact hknows
    | writing value' currentTail =>
      rw [hp] at hknows
      exact hknows
    | _ => trivial
  · rw [hqueue, hpushed, hpopped, hconsumer']
    exact ⟨rfl, hnext⟩
  · rw [hqueue, hpushed, hpopped, hconsumer', Consumer.ahead_storing]
    have hset := hholds.tail.set_gone (by rw [List.length_drop, h.length_eq]; omega) moved
    rw [h.length_eq, ← h.head] at hset
    exact hset

theorem Sound.storeHead (h : s.Sound (2 ^ k)) (hk : k ≤ 64) {value : α} {currentHead : ℕ}
    (hconsumer : s.consumer = .storing value currentHead)
    (hqueue : t.queue = { s.queue with head := s.queue.next currentHead })
    (hpushed : t.pushed = s.pushed) (hpopped : t.popped = s.popped ++ [value])
    (hproducer : t.producer = s.producer) (hconsumer' : t.consumer = .returning (some value)) :
    t.Sound (2 ^ k) := by
  have hknows := h.consumer
  rw [hconsumer] at hknows
  obtain ⟨rfl, hnext⟩ := hknows
  obtain ⟨hlt, -⟩ := List.getElem?_eq_some_iff.mp hnext
  have hfits := h.fits
  have hlength : t.popped.length = s.popped.length + 1 := by
    rw [hpopped, List.length_append, List.length_singleton]
  refine ⟨hqueue ▸ h.capacity_eq, hqueue ▸ h.length_eq, ?_, ?_, ?_, ?_, ?_, ?_, ?_⟩
  · rw [hqueue, hlength, h.head]
    exact SPSCRingQueue.next_eq h.capacity_eq hk _
  · rw [hqueue, hpushed]
    exact h.tail
  · rw [hpushed, hlength]
    exact hlt
  · rw [hpushed, hlength]
    omega
  · have hknows := h.producer
    rw [hqueue, hpushed, hlength, hproducer]
    cases hp : s.producer with
    | loadingHead value' currentTail =>
      rw [hp] at hknows
      exact hknows
    | writing value' currentTail =>
      rw [hp] at hknows
      exact ⟨hknows.1, by omega⟩
    | storing value' currentTail =>
      rw [hp] at hknows
      exact ⟨hknows.1, by omega, hknows.2.2⟩
    | _ => trivial
  · rw [hconsumer']
    trivial
  · rw [hqueue, hpushed, hlength, hconsumer', Consumer.ahead_returning]
    have hholds := h.holds
    rw [hconsumer, Consumer.ahead_storing] at hholds
    exact hholds

/-- A store of `head_` or `tail_` leaves the last slot free, and the loads tell whether there is
room and whether there is a value. -/
theorem Sound.full_iff (h : s.Sound (2 ^ k)) (hk : k ≤ 64) :
    s.queue.next s.queue.tail = s.queue.head ↔
      s.pushed.length = s.popped.length + (2 ^ k - 1) := by
  have hpos := Nat.two_pow_pos k
  have hle := h.le
  have hfits := h.fits
  rw [h.tail, SPSCRingQueue.next_eq h.capacity_eq hk, h.head]
  constructor
  · intro heq
    by_contra hne
    have := Ring.eq_of_mod_eq (Nat.le_succ_of_le hle) (by omega) heq.symm
    omega
  · intro hlength
    rw [hlength, Nat.add_assoc, Nat.sub_add_cancel hpos, Nat.add_mod_right]

theorem Sound.empty_iff (h : s.Sound (2 ^ k)) :
    s.queue.head = s.queue.tail ↔ s.popped.length = s.pushed.length := by
  have hpos := Nat.two_pow_pos k
  have hfits := h.fits
  rw [h.head, h.tail]
  constructor
  · exact Ring.eq_of_mod_eq h.le (by omega)
  · intro hlength
    rw [hlength]

theorem Step.sound (h : s.Sound (2 ^ k)) (hk : k ≤ 64) (hstep : Step s t) :
    t.Sound (2 ^ k) := by
  have hproducer := h.producer
  have hconsumer := h.consumer
  cases hstep with
  | callPush value hidle => exact h.moves rfl rfl rfl rfl trivial hconsumer
  | pushLoadTail hloading => exact h.moves rfl rfl rfl rfl rfl hconsumer
  | refuse hloading hfull =>
    exact h.moves rfl (List.append_nil _) (List.append_nil _) rfl trivial hconsumer
  | pushLoadHead hloading hroom =>
    rw [hloading] at hproducer
    obtain rfl := hproducer
    have hfits := h.fits
    have hne := mt (h.full_iff hk).mpr hroom
    exact h.moves rfl rfl rfl rfl ⟨rfl, by omega⟩ hconsumer
  | write unfinished hwriting =>
    rw [hwriting] at hproducer
    obtain ⟨rfl, hroom⟩ := hproducer
    refine h.assigns hroom unfinished rfl rfl rfl rfl ?_
    rw [hwriting]
    exact ⟨rfl, hroom⟩
  | @written value currentTail hwriting =>
    rw [hwriting] at hproducer
    obtain ⟨rfl, hroom⟩ := hproducer
    refine h.assigns hroom value rfl rfl rfl rfl ⟨rfl, hroom, ?_⟩
    refine List.getElem?_set_self ?_
    rw [h.length_eq, h.tail]
    exact Nat.mod_lt _ (Nat.two_pow_pos k)
  | storeTail hstoring => exact h.storeTail hk hstoring rfl rfl (List.append_nil _) rfl rfl
  | returnPush hreturning => exact h.moves rfl rfl rfl rfl trivial hconsumer
  | callPop hidle => exact h.moves rfl rfl rfl (by rw [hidle]; rfl) hproducer trivial
  | popLoadHead hloading => exact h.moves rfl rfl rfl (by rw [hloading]; rfl) hproducer rfl
  | nothing hloading hempty =>
    exact h.moves rfl (List.append_nil _) (List.append_nil _) (by rw [hloading]; rfl) hproducer
      trivial
  | popLoadTail hloading hsome =>
    rw [hloading] at hconsumer
    obtain rfl := hconsumer
    have hle := h.le
    have hne := mt h.empty_iff.mpr hsome
    exact h.moves rfl rfl rfl (by rw [hloading]; rfl) hproducer
      ⟨rfl, _, List.getElem?_eq_getElem (by omega)⟩
  | read moved hreading hvalue => exact h.read moved hreading hvalue rfl rfl rfl rfl rfl
  | storeHead hstoring => exact h.storeHead hk hstoring rfl (List.append_nil _) rfl rfl rfl
  | returnPop hreturning =>
    exact h.moves rfl rfl rfl (by rw [hreturning]; rfl) hproducer trivial

/-! ## Calls -/

end SPSCSystem

/-- The log says how far the call of `push` has come. -/
def Producer.Recorded (call : ℕ) (log : List (CallEvent (RingOperation α) (RingResult α))) :
    Producer α → Prop
  | idle => True
  | loadingTail value => Pending log call (.push value)
  | loadingHead value _ => Pending log call (.push value)
  | writing value _ => Pending log call (.push value)
  | storing value _ => Pending log call (.push value)
  | returning success => ∃ value, .commit call (.push value) (.pushed success) ∈ log

/-- The log says how far the call of `pop` has come. -/
def Consumer.Recorded (call : ℕ) (log : List (CallEvent (RingOperation α) (RingResult α))) :
    Consumer α → Prop
  | idle => True
  | returning value => .commit call .pop (.popped value) ∈ log
  | _ => Pending log call .pop

/-- The value that the call of `pop` is about to return. -/
def Consumer.result : Consumer α → List α
  | returning (some value) => [value]
  | _ => []

section Recorded

variable {call : ℕ} {log : List (CallEvent (RingOperation α) (RingResult α))}
  {e : CallEvent (RingOperation α) (RingResult α)}

theorem Producer.Recorded.cons {producer : Producer α} (h : producer.Recorded call log)
    (hother : (∃ value, Pending log call (.push value)) → ∀ op res, e ≠ .commit call op res) :
    producer.Recorded call (e :: log) := by
  cases producer with
  | idle => trivial
  | returning success =>
    obtain ⟨value, hvalue⟩ := h
    exact ⟨value, List.mem_cons_of_mem e hvalue⟩
  | _ => exact Pending.cons h (hother ⟨_, h⟩)

theorem Consumer.Recorded.cons {consumer : Consumer α} (h : consumer.Recorded call log)
    (hother : Pending log call .pop → ∀ op res, e ≠ .commit call op res) :
    consumer.Recorded call (e :: log) := by
  cases consumer with
  | idle => trivial
  | returning value => exact List.mem_cons_of_mem e h
  | _ => exact Pending.cons h (hother h)

end Recorded

namespace SPSCSystem

variable {c k : ℕ} {s t : SPSCSystem α}

/-- The calls take effect one at a time, as those of a bounded FIFO. -/
structure Recorded (c : ℕ) (s : SPSCSystem α) : Prop where
  ordered : Ordered s.log
  legal : (ringFifo α (c - 1)).Legal (commits s.log) (s.pushed.drop s.popped.length)
  producer : s.producer.Recorded s.pushCall s.log
  consumer : s.consumer.Recorded s.popCall s.log
  old : ∀ n op, .call n op ∈ s.log → n < s.nextCall
  returned : s.popped = s.returned ++ s.consumer.result

theorem commit_ne {c d : ℕ} {op : RingOperation α} {res : RingResult α} (hne : c ≠ d)
    (op' : RingOperation α) (res' : RingResult α) :
    CallEvent.commit c op res ≠ .commit d op' res' :=
  fun heq => hne (CallEvent.commit.inj heq).1

theorem Recorded.new (h : s.Recorded c) (op : RingOperation α) :
    (∀ op, .call s.nextCall op ∉ s.log) ∧
      ∀ n op', .call n op' ∈ .call s.nextCall op :: s.log → n < s.nextCall + 1 := by
  constructor
  · intro op' hmem
    exact Nat.lt_irrefl _ (h.old _ op' hmem)
  · intro n op' hmem
    rcases List.mem_cons.mp hmem with heq | hlog
    · obtain ⟨rfl, -⟩ := CallEvent.call.inj heq
      exact Nat.lt_succ_self _
    · exact Nat.lt_succ_of_lt (h.old n op' hlog)

/-- Between the call of `push` and its effect, the log is not about it. -/
theorem Recorded.consumes (h : s.Recorded c) {op : RingOperation α} {res : RingResult α}
    {value : α} (hpending : Pending s.log s.pushCall (.push value)) :
    s.consumer.Recorded s.popCall (.commit s.pushCall op res :: s.log) :=
  h.consumer.cons fun hpop => commit_ne (hpending.ne h.ordered hpop (by simp))

theorem Recorded.produces (h : s.Recorded c) {op : RingOperation α} {res : RingResult α}
    (hpending : Pending s.log s.popCall .pop) :
    s.producer.Recorded s.pushCall (.commit s.popCall op res :: s.log) := by
  refine h.producer.cons fun ⟨value, hpush⟩ => commit_ne ?_
  exact (hpush.ne h.ordered hpending (by simp)).symm

/-- A call takes effect. -/
theorem Recorded.commits (h : s.Recorded c) {n : ℕ} {op : RingOperation α} {res : RingResult α}
    {pushed popped : List α} (hpending : Pending s.log n op)
    (hlog : t.log = .commit n op res :: s.log) (hnext : t.nextCall = s.nextCall)
    (hpushed : t.pushed = pushed) (hpopped : t.popped = popped)
    (hfifo : RingFifoStep (c - 1) op (s.pushed.drop s.popped.length) res
      (pushed.drop popped.length))
    (hproducer : t.producer.Recorded t.pushCall t.log)
    (hconsumer : t.consumer.Recorded t.popCall t.log)
    (hreturned : popped = s.returned ++ t.consumer.result) : t.Recorded c where
  ordered := hlog ▸ hpending.commit h.ordered res
  legal := by
    rw [hlog, hpushed, hpopped]
    exact .cons h.legal hfifo
  producer := hproducer
  consumer := hconsumer
  old n op hcall := by
    rw [hlog] at hcall
    rw [hnext]
    exact h.old n op (by simpa using hcall)
  returned := by
    have hsame : t.returned = s.returned := by
      rw [SPSCSystem.returned, hlog]
      exact List.append_nil _
    rw [hpopped, hsame, hreturned]

theorem Step.recorded (hsound : s.Sound (2 ^ k)) (hk : k ≤ 64) (h : s.Recorded (2 ^ k))
    (hstep : Step s t) : t.Recorded (2 ^ k) := by
  have hproducer := h.producer
  have hconsumer := h.consumer
  have hknown := hsound.producer
  have hfound := hsound.consumer
  have hreturned := h.returned
  cases hstep with
  | callPush value hidle =>
    obtain ⟨hnew, hold⟩ := h.new (.push value)
    refine ⟨h.ordered.call hnew, h.legal, h.ordered.pending hnew _,
      hconsumer.cons (fun _ _ _ => by simp), hold, ?_⟩
    exact hreturned.trans (congrArg (· ++ _) (List.append_nil _).symm)
  | pushLoadTail hloading =>
    rw [hloading] at hproducer
    exact ⟨h.ordered, h.legal, hproducer, hconsumer, h.old, hreturned⟩
  | @refuse value currentTail hloading hfull =>
    rw [hloading] at hproducer hknown
    obtain rfl := hknown
    have hlength := (hsound.full_iff hk).mp hfull
    have hitems : (s.pushed.drop s.popped.length).length = 2 ^ k - 1 := by
      rw [List.length_drop]
      omega
    exact h.commits hproducer rfl rfl (List.append_nil _) (List.append_nil _) (.full hitems)
      ⟨value, List.mem_cons_self⟩ (h.consumes hproducer) hreturned
  | pushLoadHead hloading hroom =>
    rw [hloading] at hproducer
    exact ⟨h.ordered, h.legal, hproducer, hconsumer, h.old, hreturned⟩
  | write unfinished hwriting =>
    exact ⟨h.ordered, h.legal, hproducer, hconsumer, h.old, hreturned⟩
  | written hwriting =>
    rw [hwriting] at hproducer
    exact ⟨h.ordered, h.legal, hproducer, hconsumer, h.old, hreturned⟩
  | @storeTail value currentTail hstoring =>
    rw [hstoring] at hproducer hknown
    have hle := hsound.le
    have hroom := hknown.2.1
    have hlength : (s.pushed.drop s.popped.length).length < 2 ^ k - 1 := by
      rw [List.length_drop]
      omega
    have hfifo : RingFifoStep (2 ^ k - 1) (.push value) (s.pushed.drop s.popped.length)
        (.pushed true) (s.pushed.drop s.popped.length ++ [value]) := .pushed hlength
    rw [← List.drop_append_of_le_length hle] at hfifo
    exact h.commits hproducer rfl rfl rfl (List.append_nil _) hfifo
      ⟨value, List.mem_cons_self⟩ (h.consumes hproducer) hreturned
  | returnPush hreturning =>
    rw [hreturning] at hproducer
    obtain ⟨value, hvalue⟩ := hproducer
    refine ⟨h.ordered.ret hvalue, h.legal, trivial, hconsumer.cons (fun _ _ _ => by simp),
      by simpa using h.old, ?_⟩
    exact hreturned.trans (congrArg (· ++ _) (List.append_nil _).symm)
  | callPop hidle =>
    rw [hidle] at hreturned
    obtain ⟨hnew, hold⟩ := h.new .pop
    refine ⟨h.ordered.call hnew, h.legal, hproducer.cons (fun _ _ _ => by simp),
      h.ordered.pending hnew _, hold, ?_⟩
    exact hreturned.trans (congrArg (· ++ _) (List.append_nil _).symm)
  | popLoadHead hloading =>
    rw [hloading] at hconsumer hreturned
    exact ⟨h.ordered, h.legal, hproducer, hconsumer, h.old, hreturned⟩
  | nothing hloading hempty =>
    rw [hloading] at hconsumer hreturned hfound
    obtain rfl := hfound
    have hitems : s.pushed.drop s.popped.length = [] := by
      rw [hsound.empty_iff.mp hempty, List.drop_length]
    have hfifo : RingFifoStep (2 ^ k - 1) .pop ([] : List α) (.popped none) [] := .empty
    exact h.commits hconsumer rfl rfl (List.append_nil _) (List.append_nil _)
      (hitems.symm ▸ hfifo) (h.produces hconsumer) List.mem_cons_self hreturned
  | popLoadTail hloading hsome =>
    rw [hloading] at hconsumer hreturned
    exact ⟨h.ordered, h.legal, hproducer, hconsumer, h.old, hreturned⟩
  | read moved hreading hvalue =>
    rw [hreading] at hconsumer hreturned
    exact ⟨h.ordered, h.legal, hproducer, hconsumer, h.old, hreturned⟩
  | @storeHead value currentHead hstoring =>
    rw [hstoring] at hconsumer hreturned hfound
    obtain ⟨hlt, hget⟩ := List.getElem?_eq_some_iff.mp hfound.2
    have hfifo : RingFifoStep (2 ^ k - 1) .pop (value :: s.pushed.drop (s.popped.length + 1))
        (.popped (some value)) (s.pushed.drop (s.popped.length + 1)) := .popped
    have hitems : s.pushed.drop s.popped.length =
        value :: s.pushed.drop (s.popped.length + 1) := by
      rw [List.drop_eq_getElem_cons hlt, hget]
    have hlength : (s.popped ++ [value]).length = s.popped.length + 1 := by simp
    rw [← hitems, ← hlength] at hfifo
    refine h.commits hconsumer rfl rfl (List.append_nil _) rfl hfifo
      (h.produces hconsumer) List.mem_cons_self ?_
    exact congrArg (· ++ [value]) (hreturned.trans (List.append_nil _))
  | @returnPop value hreturning =>
    rw [hreturning] at hconsumer hreturned
    refine ⟨h.ordered.ret hconsumer, h.legal, hproducer.cons (fun _ _ _ => by simp), trivial,
      by simpa using h.old, ?_⟩
    cases value with
    | none => exact hreturned.trans (congrArg (· ++ []) (List.append_nil _).symm)
    | some value => exact hreturned.trans (List.append_nil _).symm

/-! ## Elements -/

/-- The slots hold what has not been read, the `n`-th value in slot `n % capacity_`; none of them
is written, and none is read while it is written. -/
structure Separate (s : SPSCSystem α) : Prop where
  holds : Ring.Holds s.queue.buffer (s.popped.length + s.consumer.ahead)
    (s.pushed.drop (s.popped.length + s.consumer.ahead))
  writes : ∀ value currentTail, s.producer = .writing value currentTail →
    currentTail < s.queue.buffer.length
  reads : ∀ currentHead, s.consumer = .reading currentHead →
    currentHead < s.queue.buffer.length
  unread : ∀ value currentTail, s.producer = .writing value currentTail →
    ∀ n, s.popped.length ≤ n → n < s.pushed.length → currentTail ≠ n % s.queue.buffer.length
  apart : ∀ value currentTail currentHead, s.producer = .writing value currentTail →
    s.consumer = .reading currentHead → currentTail ≠ currentHead

theorem Sound.separate (h : s.Sound (2 ^ k)) : s.Separate := by
  have hpos := Nat.two_pow_pos k
  have hunread (value : α) (currentTail : ℕ) (hwriting : s.producer = .writing value currentTail)
      (n : ℕ) (hn : s.popped.length ≤ n) (hn' : n < s.pushed.length) :
      currentTail ≠ n % s.queue.buffer.length := by
    have hknows := h.producer
    rw [hwriting] at hknows
    obtain ⟨rfl, hroom⟩ := hknows
    rw [h.tail, h.length_eq]
    intro heq
    have := Ring.eq_of_mod_eq (Nat.le_of_lt hn') (by omega) heq.symm
    omega
  refine ⟨h.holds, fun value currentTail hwriting => ?_, fun currentHead hreading => ?_, hunread,
    fun value currentTail currentHead hwriting hreading => ?_⟩
  · have hknows := h.producer
    rw [hwriting] at hknows
    rw [hknows.1, h.tail, h.length_eq]
    exact Nat.mod_lt _ hpos
  · have hknows := h.consumer
    rw [hreading] at hknows
    rw [hknows.1, h.head, h.length_eq]
    exact Nat.mod_lt _ hpos
  · have hknows := h.consumer
    rw [hreading] at hknows
    obtain ⟨rfl, next, hnext⟩ := hknows
    obtain ⟨hlt, -⟩ := List.getElem?_eq_some_iff.mp hnext
    rw [h.head, ← h.length_eq]
    exact hunread value currentTail hwriting _ le_rfl hlt

/-! ## Runs -/

private theorem init_sound {buffer : List α} (hlength : buffer.length = c) :
    Sound c { queue := { capacity_ := c, buffer := buffer } } where
  capacity_eq := rfl
  length_eq := hlength
  head := (Nat.zero_mod c).symm
  tail := (Nat.zero_mod c).symm
  le := le_rfl
  fits := Nat.zero_le _
  producer := trivial
  consumer := trivial
  holds := Ring.holds_nil

private theorem init_recorded (queue : SPSCRingQueue α) : Recorded c { queue := queue } where
  ordered := .nil
  legal := .nil
  producer := trivial
  consumer := trivial
  old n op hcall := by cases hcall
  returned := rfl

private theorem spscQueues_sound {capacity : ℕ} (hcapacity : capacity ≤ 2 ^ 63)
    {states : List (SPSCSystem α)} (h : (spscQueues α capacity).Run states) :
    ∀ s ∈ states, s.Sound (2 ^ Nat.clog 2 capacity) ∧ s.Recorded (2 ^ Nat.clog 2 capacity) := by
  have hk : Nat.clog 2 capacity ≤ 64 := Nat.le_succ_of_le (clog_le hcapacity)
  refine h.invariant ?_ ?_
  · rintro s ⟨buffer, hlength, rfl⟩
    rw [nextPowerOfTwo_eq hcapacity] at hlength ⊢
    exact ⟨init_sound hlength, init_recorded _⟩
  · intro s t hs hstep
    exact ⟨Step.sound hs.1 hk hstep, Step.recorded hs.1 hk hs.2 hstep⟩

end SPSCSystem

/-- In every run of a queue for up to `2 ^ 63` values, `capacity` is one less than a power of two;
the calls are those of a FIFO of that capacity; the popped values are the first of the pushed
ones, and at most `capacity` of them are missing; no element is written that has not been read,
nor read while it is written; and `push` only fails when `capacity` values are there while it
loads `head_`. -/
theorem spsc_queue_linearizable {capacity : ℕ} (hcapacity : capacity ≤ 2 ^ 63)
    {states : List (SPSCSystem α)} (h : (spscQueues α capacity).Run states) :
    (∀ s ∈ states,
      s.queue.capacity = 2 ^ Nat.clog 2 capacity - 1 ∧
      (ringFifo α s.queue.capacity).Linearizes (commits s.log) (visible s.log) ∧
      s.returned <+: s.popped ∧ s.popped <+: s.pushed ∧
      s.pushed.length ≤ s.popped.length + s.queue.capacity ∧ s.Separate) ∧
    ∀ s t, [t, s] <:+: states → s.producer ≠ .returning false → t.producer = .returning false →
      (∃ value currentTail, s.producer = .loadingHead value currentTail) ∧
        s.pushed.length = s.popped.length + s.queue.capacity := by
  have hall := SPSCSystem.spscQueues_sound hcapacity h
  have hcap (s : SPSCSystem α) (hs : s ∈ states) :
      s.queue.capacity = 2 ^ Nat.clog 2 capacity - 1 :=
    congrArg (· - 1) (hall s hs).1.capacity_eq
  have hk : Nat.clog 2 capacity ≤ 64 := Nat.le_succ_of_le (clog_le hcapacity)
  refine ⟨fun s hs => ?_, fun s t hst hbefore hafter => ?_⟩
  · obtain ⟨hsound, hrecorded⟩ := hall s hs
    have hlegal := hrecorded.legal
    have hreturned := hrecorded.returned
    rw [← hcap s hs] at hlegal
    refine ⟨hcap s hs, hrecorded.ordered.linearizes hlegal, ⟨_, hreturned.symm⟩,
      ⟨_, ringFifo_conserves hlegal⟩, ?_, hsound.separate⟩
    rw [hcap s hs]
    exact hsound.fits
  · have hs : s ∈ states := hst.mem (by simp)
    obtain ⟨hsound, -⟩ := hall s hs
    have hstep : SPSCSystem.Step s t := h.step_of_infix hst
    cases hstep with
    | @refuse value currentTail hloading hfull =>
        have hknows := hsound.producer
        rw [hloading] at hknows
        obtain rfl := hknows
        rw [hcap s hs]
        exact ⟨⟨value, _, hloading⟩, (hsound.full_iff hk).mp hfull⟩
    | _ => first | exact absurd hafter hbefore | cases hafter

/-- While a value is popped, another push finds no room. When the call of `pop` has returned, a
third value is pushed and popped from the next slot. -/
theorem spsc_sample_run : (∃ s t past, (spscQueues ℕ 2).Run (t :: s :: past) ∧
      s.producer = .loadingHead 8 1 ∧ t.producer = .returning false) ∧
    ∃ s past, (spscQueues ℕ 2).Run (s :: past) ∧ s.returned = [7, 9] := by
  have hinit : (spscQueues ℕ 2).init { queue := { capacity_ := 2, buffer := [0, 0] } } :=
    ⟨[0, 0], rfl, rfl⟩
  have hcalled := (TransitionSystem.Run.start hinit).next (.callPush 7 rfl)
  have hwriting := (hcalled.next (.pushLoadTail rfl)).next (.pushLoadHead rfl (by decide))
  have hpushed := ((hwriting.next (.written rfl)).next (.storeTail rfl)).next (.returnPush rfl)
  have hpopping := (hpushed.next (.callPop rfl)).next (.popLoadHead rfl)
  have hread := (hpopping.next (.popLoadTail rfl (by decide))).next (.read 0 rfl rfl)
  -- the value is out of its slot, and `head_` has not been stored
  have hagain := (hread.next (.callPush 8 rfl)).next (.pushLoadTail rfl)
  have hrefused := hagain.next (.refuse rfl rfl)
  have hpopped := ((hrefused.next (.storeHead rfl)).next (.returnPush rfl)).next (.returnPop rfl)
  have hthird := ((hpopped.next (.callPush 9 rfl)).next (.pushLoadTail rfl)).next
    (.pushLoadHead rfl (by decide))
  have hstored := (hthird.next (.written rfl)).next (.storeTail rfl)
  have hlast := ((hstored.next (.callPop rfl)).next (.popLoadHead rfl)).next
    (.popLoadTail rfl (by decide))
  have hreturned := ((hlast.next (.read 0 rfl rfl)).next (.storeHead rfl)).next (.returnPop rfl)
  exact ⟨⟨_, _, _, hrefused, rfl, rfl⟩, _, _, hreturned, rfl⟩

theorem spsc_queue_linearizable_two : (∃ s t past, (spscQueues ℕ 2).Run (t :: s :: past) ∧
      t.producer = .returning false ∧
      s.pushed.length = s.popped.length + s.queue.capacity) ∧
    ∃ s past, (spscQueues ℕ 2).Run (s :: past) ∧ s.returned = [7, 9] ∧ s.queue.capacity = 1 ∧
      s.returned <+: s.popped ∧ s.popped <+: s.pushed := by
  obtain ⟨⟨s, t, past, hrefused, hloading, hrefusal⟩, u, more, hrun, hreturned⟩ := spsc_sample_run
  have hidle : s.producer ≠ .returning false := by
    rw [hloading]
    exact nofun
  have hfull := ((spsc_queue_linearizable (by decide) hrefused).2 s t
    (List.prefix_append [t, s] past).isInfix hidle hrefusal).2
  obtain ⟨hcapacity, -, hprefix, hprefix', -⟩ :=
    (spsc_queue_linearizable (by decide) hrun).1 u List.mem_cons_self
  have hclog : 2 ^ Nat.clog 2 2 - 1 = 1 := by
    rw [Nat.clog_eq_one le_rfl le_rfl]
    rfl
  exact ⟨⟨s, t, past, hrefused, hrefusal, hfull⟩, u, more, hrun, hreturned,
    hcapacity.trans hclog, hprefix, hprefix'⟩

end DarwinCore.Container
