import DarwinCore.Model.Network.ClientWaits
import DarwinCore.Verification.Network.PoolThreads

/-! # The reactor of a `Client` and its worker do not wait for each other

A reactor that waits for room in the queue of its worker, and the worker for the answer of the
reactor to a `SendData`: this can be reached if the queue has a limit, whatever it is, and cannot if
it has none, as the one that `Client` makes. -/

namespace DarwinCore.Network

/-! ## A queue without a limit -/

namespace PoolThreads

variable {ι γ : Type*} [DecidableEq ι] {n : ℕ} {p p' : PoolThreads ι n γ} {w : Fin n} {i : ι}

/-- Its queues have no limit, and nobody waits for room. -/
structure Unlimited (p : PoolThreads ι n γ) : Prop where
  maxSize : ∀ w, (p.eventQueues w).maxSize = 0
  phase : ∀ i, (p.dispatches i).phase ≠ .blocked

omit [DecidableEq ι] in
theorem Unlimited.of_kept (h : p.Unlimited) (hkept : Kept p p')
    (hphase : ∀ i, (p'.dispatches i).phase ≠ .blocked) : p'.Unlimited :=
  ⟨fun w => by rw [(hkept.queues w).maxSize]; exact h.maxSize w, hphase⟩

theorem Unlimited.setDispatch (h : p.Unlimited) {d : Dispatch} (hd : d.phase ≠ .blocked) :
    (p.setDispatch i d).Unlimited := by
  refine ⟨h.maxSize, fun j => ?_⟩
  by_cases hj : j = i
  · subst hj
    simpa [PoolThreads.setDispatch] using hd
  · simpa [PoolThreads.setDispatch, Function.update_of_ne hj] using h.phase j

theorem SpuriousStep.unlimited (hstep : p.SpuriousStep p') (h : p.Unlimited) : p'.Unlimited := by
  cases hstep with
  | @dispatch i hblocked => exact absurd hblocked (h.phase i)
  | worker _ => exact ⟨h.maxSize, h.phase⟩

omit [DecidableEq ι] in
theorem Unlimited.stopQueue (h : p.Unlimited) (w : Fin n) : (p.stopQueue w).Unlimited := by
  refine ⟨fun w' => ?_, h.phase⟩
  by_cases hw : w' = w
  · subst hw
    simpa [PoolThreads.stopQueue, setQueue, ConcurrentQueue.notifyStop] using h.maxSize w'
  · simpa [PoolThreads.stopQueue, setQueue, Function.update_of_ne hw] using h.maxSize w'

variable [NeZero n]

theorem DispatchStep.unlimited (hstep : p.DispatchStep i p') (h : p.Unlimited) :
    p'.Unlimited := by
  refine h.of_kept hstep.kept ?_
  cases hstep with
  | test _ =>
    refine (h.setDispatch ?_).phase
    split <;> simp
  | @wait event rest phase _ _ hqueue =>
    have hpos := (ConcurrentQueue.enqueue_waits hqueue).1
    have hzero := h.maxSize (event.worker n)
    omega
  | enqueue _ _ _ =>
    refine (h.setDispatch ?_).phase
    split <;> simp
  | notify _ => exact (h.setDispatch (by simp)).phase

theorem NotifyNotFull.phase {dispatches : ι → Dispatch} (hnotify : p.NotifyNotFull w dispatches)
    (h : ∀ i, (p.dispatches i).phase ≠ .blocked) (i : ι) : (dispatches i).phase ≠ .blocked := by
  rcases hnotify.eq_or i with hsame | ⟨-, hwoken⟩
  · rw [hsame]
    exact h i
  · simp [hwoken, Dispatch.wake]

theorem WorkerStep.unlimited {Starts : NetworkEvent → γ → Prop} {Finished : γ → Prop}
    (hstep : p.WorkerStep Starts Finished w p') (h : p.Unlimited) : p'.Unlimited := by
  refine h.of_kept hstep.kept ?_
  cases hstep with
  | take _ _ _ _ hnotify => exact hnotify.phase h.phase
  | takeRemaining _ _ _ hnotify => exact hnotify.phase h.phase
  | _ => exact h.phase

omit [DecidableEq ι] in
theorem Unlimited.notifyNotFull (h : p.Unlimited) (w : Fin n) : (p.notifyNotFull w).Unlimited := by
  refine ⟨h.maxSize, fun i => ?_⟩
  simp only [PoolThreads.notifyNotFull]
  split
  · simp [Dispatch.wake]
  · exact h.phase i

end PoolThreads

namespace WaitingClient

variable {c c' : WaitingClient}

/-- The reactor waits for room in the queue of its worker, and the worker for the reactor to answer
a `SendData`. -/
def CyclicWait (c : WaitingClient) : Prop :=
  (c.pool.dispatches .reactor).isBlockedOn (0 : Fin 1) = true ∧
    (c.pool.eventQueues 0).maxSize ≤ (c.pool.eventQueues 0).queue.length ∧
    c.hasReactor = true ∧ ∃ calls promise remaining,
      c.pool.workers 0 = .calling (.sending calls (.waiting promise)) remaining ∧
        c.answers promise = none

theorem SendStep.pool {call : ClientSend} {place : ClientSendPlace}
    {place' : Option ClientSendPlace} (h : c.SendStep call place c' place') :
    c'.pool = c.pool := by
  cases h <;> rfl

theorem unlimited_removeIf (h : c.pool.Unlimited) (removes : Bool) (i : ClientDispatcher) :
    (c.removeIf removes i).pool.Unlimited := by
  unfold removeIf removeConnection
  split
  · split
    · exact h.setDispatch (by simp)
    · exact h
  · exact h

theorem LoopStep.unlimited (hstep : c.LoopStep c') (h : c.pool.Unlimited) :
    c'.pool.Unlimited := by
  cases hstep with
  | process _ _ _ _ _ =>
    apply unlimited_removeIf
    exact h
  | flush _ _ =>
    apply unlimited_removeIf
    exact h
  | handle _ _ =>
    apply unlimited_removeIf
    exact h
  | received _ _ =>
    apply unlimited_removeIf
    exact h
  | receive _ _ => exact h.setDispatch (by simp)
  | _ => exact h

theorem Step.unlimited (hstep : c.Step 0 c') (h : c.pool.Unlimited) : c'.pool.Unlimited := by
  cases hstep with
  | caller hcaller =>
    cases hcaller with
    | connect success _ => cases success <;> exact h
    | initReactor success _ _ =>
      have hnew : ({ eventQueues := fun _ => { maxSize := 0 } } :
          PoolThreads ClientDispatcher 1 ClientCallback).Unlimited :=
        ⟨fun _ => rfl, fun _ => by simp⟩
      cases success <;> exact hnew
    | setConnection _ =>
      split
      · exact unlimited_removeIf (c := { c with caller := .assigning }) h true .caller
      · exact h
    | dispatch hdispatch => exact hdispatch.unlimited h
    | assign _ _ _ _ => exact h.setDispatch (by simp)
    | send _ hsend =>
      show PoolThreads.Unlimited _
      rw [hsend.pool]
      exact h
    | stopPool _ => exact ⟨h.maxSize, h.phase⟩
    | stopQueue _ => exact h.stopQueue 0
    | notifyNotEmpty _ => exact ⟨h.maxSize, h.phase⟩
    | notifyNotFull _ => exact h.notifyNotFull 0
    | _ => exact h
  | reactor hreactor =>
    cases hreactor with
    | loop _ hloop => exact hloop.unlimited h
    | dispatch hdispatch => exact hdispatch.unlimited h
  | worker hworker =>
    cases hworker with
    | pool hpool => exact hpool.unlimited h
    | enter _ _ => exact ⟨h.maxSize, h.phase⟩
    | send _ hsend =>
      rw [hsend.pool]
      exact ⟨h.maxSize, h.phase⟩
  | spurious hpool hc =>
    subst hc
    exact hpool.unlimited h

/-! ## A queue with a limit -/

def Reachable (maxQueueSize : ℕ) (c : WaitingClient) : Prop :=
  ∃ past, (waitingClients maxQueueSize).Run (c :: past)

variable {maxQueueSize : ℕ}

theorem Reachable.next (h : Reachable maxQueueSize c) (hstep : c.Step maxQueueSize c') :
    Reachable maxQueueSize c' := by
  obtain ⟨past, hrun⟩ := h
  exact ⟨c :: past, hrun.next hstep⟩

theorem enqueue_nil (event : NetworkEvent) (limit : ℕ) :
    ({ maxSize := limit + 1 } : ConcurrentQueue NetworkEvent).enqueue event =
      some (true, { maxSize := limit + 1, queue := [event] }) := by
  simp [ConcurrentQueue.enqueue]

theorem notifyNotFull_nobody {p : PoolThreads ClientDispatcher 1 ClientCallback}
    (hcaller : (p.dispatches .caller).phase = .testing)
    (hreactor : (p.dispatches .reactor).phase = .testing) : p.NotifyNotFull 0 p.dispatches := by
  have hphase (i : ClientDispatcher) : (p.dispatches i).phase = .testing := by
    cases i <;> assumption
  unfold PoolThreads.NotifyNotFull
  split
  · refine .nobody (fun i hi => ?_) rfl
    have hblocked := (Dispatch.isBlockedOn_iff.mp hi).1
    rw [hphase i] at hblocked
    cases hblocked
  · rfl

/-- The reactor reads and has submitted `k` events that the worker has not taken, which waits for
the answer to a `SendData`. -/
structure Filling (maxQueueSize k : ℕ) (c : WaitingClient) : Prop where
  loop : c.loop = .reading 0
  idle : c.pool.dispatches .reactor = {}
  isRunning : c.pool.isRunning = true
  hasReactor : c.hasReactor = true
  maxSize : (c.pool.eventQueues 0).maxSize = maxQueueSize
  isStopped : (c.pool.eventQueues 0).isStopped = false
  length : (c.pool.eventQueues 0).queue.length = k
  worker : ∃ calls promise remaining,
    c.pool.workers 0 = .calling (.sending calls (.waiting promise)) remaining ∧
      c.answers promise = none

/-- The worker has got an event and calls `SendData` in its callback, and the reactor has not come
to the operation. -/
theorem exists_filling (limit : ℕ) :
    ∃ c, Reachable (limit + 1) c ∧ c.Filling (limit + 1) 0 := by
  have hone : 1 ≤ eventBatchSize := by decide
  have hnew : Reachable (limit + 1) _ := ⟨[], .start rfl⟩
  -- the caller connects
  have h := hnew.next (.caller (.exchange rfl))
  have h := h.next (.caller (.connect true rfl))
  have h := h.next (.caller (.initReactor true rfl (by simp)))
  have h := h.next (.caller (.setConnection rfl))
  have h := h.next (.caller (.assign 0 ⟨[]⟩ rfl rfl))
  have h := h.next (.caller (.dispatch (.test rfl)))
  have h := h.next (.caller (.dispatch (.enqueue rfl rfl (enqueue_nil _ limit))))
  have h := h.next (.caller (.dispatch (.notify rfl)))
  -- the worker learns of the connection
  have h := h.next (.worker (.pool (.test rfl)))
  have h := h.next (.worker (.pool (.take rfl rfl rfl rfl (notifyNotFull_nobody rfl rfl))))
  have h := h.next (.worker (.enter [] rfl))
  have h := h.next (.worker (.pool (.ret rfl ⟨_, rfl⟩)))
  have h := h.next (.worker (.pool (.test rfl)))
  -- the reactor reads
  have h := h.next (.reactor (.loop rfl (.enter rfl rfl)))
  have h := h.next (.reactor (.loop rfl (.drained rfl (.inr rfl))))
  have h := h.next (.reactor (.loop rfl (.waited rfl hone)))
  have h := h.next (.reactor (.loop rfl (.handleRead rfl rfl)))
  have h := h.next (.reactor (.loop rfl (.receive [0] rfl)))
  have h := h.next (.reactor (.dispatch (.test rfl)))
  have h := h.next (.reactor (.dispatch (.enqueue rfl rfl (enqueue_nil _ limit))))
  have h := h.next (.reactor (.dispatch (.notify rfl)))
  -- the worker sends an answer
  have h := h.next (.worker (.pool (.take rfl rfl rfl rfl (notifyNotFull_nobody rfl rfl))))
  have h := h.next (.worker (.enter [.sendData [0]] rfl))
  have h := h.next (.worker (.send rfl (.test rfl rfl)))
  have h := h.next (.worker (.send rfl .request))
  have h := h.next (.worker (.send rfl (.enqueue rfl)))
  exact ⟨_, h, rfl, rfl, rfl, rfl, rfl, rfl, rfl, _, _, _, rfl, rfl⟩

def nextEvent (c : WaitingClient) : NetworkEvent :=
  .data c.connectionId [0]

theorem worker_zero (event : NetworkEvent) : event.worker 1 = 0 :=
  Subsingleton.elim _ _

/-- The reactor has received data and is in `Enqueue`. -/
theorem Filling.receive {k : ℕ} (h : c.Filling maxQueueSize k) (hc : Reachable maxQueueSize c) :
    Reachable maxQueueSize
      { c with pool := c.pool.setDispatch .reactor ⟨[c.nextEvent], .entering⟩ } := by
  have hreceived := hc.next (.reactor (.loop (by rw [h.idle]) (.receive [0] h.loop)))
  have htested := hreceived.next
    (.reactor (.dispatch (.test (PoolThreads.setDispatch_self .reactor _ c.pool))))
  simpa [nextEvent, PoolThreads.setDispatch, h.isRunning] using htested

/-- The reactor submits one more event. -/
theorem Filling.fill {k : ℕ} (h : c.Filling maxQueueSize k) (hroom : k < maxQueueSize)
    (hc : Reachable maxQueueSize c) :
    ∃ c', Reachable maxQueueSize c' ∧ c'.Filling maxQueueSize (k + 1) := by
  have hqueue : (c.pool.eventQueues (c.nextEvent.worker 1)).enqueue c.nextEvent =
      some (true, { c.pool.eventQueues 0 with
        queue := (c.pool.eventQueues 0).queue ++ [c.nextEvent] }) := by
    rw [worker_zero, ConcurrentQueue.enqueue, if_neg (by simp [h.length, h.maxSize, hroom]),
      if_neg (by simp [h.isStopped])]
  have hentering := h.receive hc
  have hqueued := hentering.next (.reactor (.dispatch
    (.enqueue (PoolThreads.setDispatch_self .reactor _ c.pool) rfl hqueue)))
  have hnotified := hqueued.next (.reactor (.dispatch
    (.notify (PoolThreads.setDispatch_self ClientDispatcher.reactor _ _))))
  refine ⟨_, hnotified, ?_⟩
  obtain ⟨calls, promise, remaining, hplace, hanswer⟩ := h.worker
  have hworker : c.nextEvent.worker 1 = 0 := worker_zero _
  constructor
  · exact h.loop
  · exact PoolThreads.setDispatch_self _ _ _
  · exact h.isRunning
  · exact h.hasReactor
  · simp [PoolThreads.setDispatch, PoolThreads.setQueue, PoolThreads.setWorker, hworker, h.maxSize]
  · simp [PoolThreads.setDispatch, PoolThreads.setQueue, PoolThreads.setWorker, hworker,
      h.isStopped]
  · simp [PoolThreads.setDispatch, PoolThreads.setQueue, PoolThreads.setWorker, hworker, h.length]
  · refine ⟨calls, promise, remaining, ?_, hanswer⟩
    simp [PoolThreads.setDispatch, PoolThreads.setQueue, PoolThreads.setWorker, hworker, hplace,
      WorkerPlace.notify]

theorem Filling.block (h : c.Filling maxQueueSize maxQueueSize) (hpos : 0 < maxQueueSize)
    (hc : Reachable maxQueueSize c) : ∃ c', Reachable maxQueueSize c' ∧ c'.CyclicWait := by
  have hqueue : (c.pool.eventQueues (c.nextEvent.worker 1)).enqueue c.nextEvent = none := by
    rw [worker_zero, ConcurrentQueue.enqueue,
      if_pos (by simp [h.length, h.maxSize, h.isStopped, hpos])]
  have hentering := h.receive hc
  have hblocked := hentering.next (.reactor (.dispatch
    (.wait (PoolThreads.setDispatch_self .reactor _ c.pool) rfl hqueue)))
  obtain ⟨calls, promise, remaining, hplace, hanswer⟩ := h.worker
  refine ⟨_, hblocked, ?_, ?_, h.hasReactor, calls, promise, remaining, hplace, hanswer⟩
  · rw [PoolThreads.setDispatch_self, Dispatch.isBlockedOn_iff]
    exact ⟨rfl, congrArg some (worker_zero _)⟩
  · exact Nat.le_of_eq (h.maxSize.trans h.length.symm)

theorem exists_full (limit : ℕ) (k : ℕ) (hk : k ≤ limit + 1) :
    ∃ c, Reachable (limit + 1) c ∧ c.Filling (limit + 1) k := by
  induction k with
  | zero => exact exists_filling limit
  | succ k ih =>
    obtain ⟨c, hc, hfilling⟩ := ih (Nat.le_of_succ_le hk)
    exact hfilling.fill hk hc

end WaitingClient

/-- In every state of every run the reactor does not wait for room in the queue of its worker while
the worker waits for its answer: this holds if and only if the queue has no limit. -/
theorem never_waits_cyclically_iff (maxQueueSize : ℕ) :
    (∀ states, (waitingClients maxQueueSize).Run states → ∀ c ∈ states, ¬c.CyclicWait) ↔
      maxQueueSize = clientQueueSize := by
  constructor
  · intro hnever
    by_contra hlimited
    obtain ⟨limit, rfl⟩ := Nat.exists_eq_succ_of_ne_zero hlimited
    obtain ⟨c, hc, hfilling⟩ := WaitingClient.exists_full limit (limit + 1) le_rfl
    obtain ⟨c', ⟨past, hrun⟩, hwait⟩ := hfilling.block (Nat.succ_pos limit) hc
    exact hnever _ hrun c' List.mem_cons_self hwait
  · rintro rfl states hrun c hc hwait
    have hunlimited : ∀ c ∈ states, c.pool.Unlimited := by
      refine hrun.invariant (fun c hinit => ?_) fun c c' h hstep =>
        WaitingClient.Step.unlimited hstep h
      rw [hinit]
      exact ⟨fun _ => rfl, fun _ => by simp⟩
    exact (hunlimited c hc).phase .reactor (Dispatch.isBlockedOn_iff.mp hwait.1).1

/-- With room for one event, the reactor and the worker can wait for each other. -/
theorem waits_cyclically : ¬∀ maxQueueSize, 1 ≤ maxQueueSize →
    ∀ states, (waitingClients maxQueueSize).Run states → ∀ c ∈ states, ¬c.CyclicWait := by
  intro hnever
  obtain ⟨c, hc, hfilling⟩ := WaitingClient.exists_full 0 1 le_rfl
  obtain ⟨c', ⟨past, hrun⟩, hwait⟩ := hfilling.block Nat.one_pos hc
  exact hnever 1 le_rfl _ hrun c' List.mem_cons_self hwait

end DarwinCore.Network
