import DarwinCore.Library.Bookings
import DarwinCore.Verification.Network.RequestCounts

/-! # The requests of a reactor and its counters

Each request is followed from the call to its end, and the counters are held against it. -/

namespace DarwinCore.Network

/-! ## Requests on the books -/

/-- A call of a request function is rejected before `Enqueue`. -/
inductive System.Refuses (s : System) : System → RequestKind → Prop where
  | accepted {r : Reactor} (fd : ℤ) (peer : SockAddr)
      (h : (s.reactor.accept fd).addConnection fd peer = (none, r)) :
      Refuses s { s with reactor := r.closeFd fd } .add
  | added {r : Reactor} (fd : ℤ) (peer : SockAddr)
      (h : s.reactor.addConnection fd peer = (none, r)) : Refuses s { s with reactor := r } .add
  | requested {r : Reactor} (req : Request)
      (h : s.reactor.request s.nextPromise req = (none, r)) :
      Refuses s { s with reactor := r } req.kind

/-- How many failures of a kind are counted from one state to another. -/
def System.failuresTo (s t : System) (k : RequestKind) : ℕ :=
  t.reactor.stats.failures k - s.reactor.stats.failures k

/-- What a step means for the requests. As many failures are booked as the step counts. -/
inductive Booked : System × Books RequestKind → System × Books RequestKind → Prop where
  | accepted {s : System} {b : Books RequestKind} {r : Reactor} {op : Operation} (fd : ℤ)
      (peer : SockAddr) (h : (s.reactor.accept fd).addConnection fd peer = (some op, r)) :
      Booked (s, b)
        ({ s with reactor := r, callers := .enqueueing op :: s.callers }, b.call .add)
  | requested {s : System} {b : Books RequestKind} {r : Reactor} {op : Operation} (req : Request)
      (h : s.reactor.request s.nextPromise req = (some op, r)) :
      Booked (s, b)
        ({ s with
          reactor := r
          callers := .enqueueing op :: s.callers
          nextPromise := s.nextPromise + 1 }, b.call req.kind)
  | refused {s t : System} {b : Books RequestKind} {k : RequestKind} (h : s.Refuses t k) :
      Booked (s, b) (t, b.refuse k (s.failuresTo t k))
  | enqueued {s : System} {b : Books RequestKind} {op : Operation} {before after : List Caller}
      {mine : Booking RequestKind} {front back : List (Option (Booking RequestKind))}
      (hcallers : s.callers = before ++ .enqueueing op :: after)
      (hcalling : b.calling = front ++ some mine :: back) (hplace : front.length = before.length) :
      Booked (s, b)
        ({ s with reactor := s.reactor.push op, callers := before ++ .waking :: after },
          b.accept front mine back)
  | rejected {s t : System} {b : Books RequestKind} {op : Operation} {before after : List Caller}
      {mine : Booking RequestKind} {front back : List (Option (Booking RequestKind))}
      (hcallers : s.callers = before ++ .enqueueing op :: after)
      (ht : t = { s with reactor := s.reactor.reject op, callers := before ++ after })
      (hcalling : b.calling = front ++ some mine :: back) (hplace : front.length = before.length) :
      Booked (s, b) (t, b.reject front mine back (s.failuresTo t mine.kind))
  | returned {s : System} {b : Books RequestKind} {before after : List Caller}
      {front back : List (Option (Booking RequestKind))}
      (hcallers : s.callers = before ++ .waking :: after)
      (hcalling : b.calling = front ++ none :: back) (hplace : front.length = before.length) :
      Booked (s, b)
        ({ s with reactor := s.reactor.triggerWakeup, callers := before ++ after },
          b.leave front back)
  | processed {s t : System} {b : Books RequestKind} {env : Environment} {op : Operation}
      {mine : Booking RequestKind} {rest : List (Booking RequestKind)} (h : s.Processes t env op)
      (hcallers : t.callers = s.callers) (hwaiting : b.waiting = mine :: rest) :
      Booked (s, b) (t, b.process mine rest
        ((s.reactor.dequeue op s.reactor.pendingOperations.tail).processSucceeds env op)
        (s.failuresTo t mine.kind))
  /-- Nobody calls or returns, nothing is processed and no call is rejected. -/
  | other {s t : System} {b : Books RequestKind} (hcallers : t.callers = s.callers)
      (hqueue : t.reactor.pendingOperations = s.reactor.pendingOperations)
      (hrefuses : ∀ k, ¬s.Refuses t k) : Booked (s, b) (t, b)

def bookedReactors (reactorId : ℤ) (receiver : Receiver) :
    TransitionSystem (System × Books RequestKind) :=
  (reactors reactorId receiver).withGhost {} Booked

/-! ## The counters and the books -/

def Caller.Holds : Caller → Option (Booking RequestKind) → Prop
  | .enqueueing op, some mine => mine.kind = op.kind
  | .waking, none => True
  | _, _ => False

/-- How many operations of the current batch have been processed. -/
def Loop.batch : Loop → ℕ
  | .draining _ processed => processed
  | _ => 0

def ofKind (k : RequestKind) (requests : List (Booking RequestKind)) : ℕ :=
  requests.countP fun request => request.kind = k

structure Balanced (x : System × Books RequestKind) : Prop where
  sound : x.2.Sound RequestKind.counts
  callers : List.Forall₂ Caller.Holds x.1.callers x.2.calling
  queue : x.2.waiting.map Booking.kind = x.1.reactor.pendingOperations.map Operation.kind
  processed : x.2.processed.length =
    x.1.reactor.stats.totalOpsProcessed + x.1.loop.batch
  requests : ∀ k, k.counts = true → x.1.reactor.stats.requests k = ofKind k x.2.all
  failures : ∀ k, x.1.reactor.stats.failures k = ofKind k x.2.counted

section Balance

variable {s t : System} {b b' : Books RequestKind} {k : RequestKind} {made failed n : ℕ}
  {mine : Booking RequestKind}

@[simp] theorem ofKind_cons (k : RequestKind) (mine : Booking RequestKind)
    (requests : List (Booking RequestKind)) :
    ofKind k (mine :: requests) = ofKind k requests + if k = mine.kind then 1 else 0 := by
  rw [ofKind, List.countP_cons, ofKind]
  simp [eq_comm]

theorem ofKind_replicate (k : RequestKind) (n : ℕ) (mine : Booking RequestKind)
    (requests : List (Booking RequestKind)) :
    ofKind k (List.replicate n mine ++ requests) =
      ofKind k requests + if k = mine.kind then n else 0 := by
  rw [ofKind, List.countP_append, List.countP_replicate, ofKind, Nat.add_comm]
  simp [eq_comm]

theorem ofKind_perm {requests requests' : List (Booking RequestKind)}
    (h : requests.Perm requests') :
    ofKind k requests = ofKind k requests' :=
  h.countP_eq _

theorem Reactor.Counts.failuresTo (h : s.reactor.Counts k made failed t.reactor) :
    s.failuresTo t k = failed := by
  rw [System.failuresTo, h.failures, if_pos rfl, Nat.add_sub_cancel_left]

theorem Balanced.failures_add (h : Balanced (s, b)) (mine : Booking RequestKind)
    (hcounts : s.reactor.Counts mine.kind made failed t.reactor)
    (hcounted : b'.counted = List.replicate failed mine ++ b.counted) (k : RequestKind) :
    t.reactor.stats.failures k = ofKind k b'.counted := by
  rw [hcounts.failures, h.failures, hcounted, ofKind_replicate]

theorem Balanced.requests_add (h : Balanced (s, b)) (mine : Booking RequestKind)
    (hcounts : s.reactor.Counts mine.kind mine.kind.counts.toNat failed t.reactor)
    (hall : b'.all.Perm (mine :: b.all)) {k : RequestKind} (hk : k.counts = true) :
    t.reactor.stats.requests k = ofKind k b'.all := by
  rw [hcounts.requests, h.requests k hk, ofKind_perm hall, ofKind_cons]
  by_cases hkind : k = mine.kind
  · rw [if_pos hkind, if_pos hkind, ← hkind, hk]
    rfl
  · rw [if_neg hkind, if_neg hkind]

theorem Balanced.requests_same (h : Balanced (s, b))
    (hcounts : s.reactor.Counts mine.kind 0 failed t.reactor) (hall : b'.all.Perm b.all)
    {k : RequestKind} (hk : k.counts = true) :
    t.reactor.stats.requests k = ofKind k b'.all := by
  rw [hcounts.requests, h.requests k hk, ofKind_perm hall]
  simp

/-! ## What a step does to the balance -/

theorem System.Refuses.effect (h : s.Refuses t k) :
    t.callers = s.callers ∧ t.loop = s.loop ∧
      t.reactor.pendingOperations = s.reactor.pendingOperations ∧
      s.reactor.Counts k k.counts.toNat k.counts.toNat t.reactor := by
  have hrefused {kind : RequestKind} {r r' : Reactor} {result : Option Operation × Reactor}
      (hcounts : r.Counts kind kind.counts.toNat
        (if result.1 = none then kind.counts.toNat else 0) result.2)
      (hresult : result = (none, r')) : r.Counts kind kind.counts.toNat kind.counts.toNat r' := by
    subst hresult
    exact hcounts
  cases h with
  | @accepted r fd peer hadd =>
    have hcounts := hrefused (Reactor.addConnection_counts fd peer (s.reactor.accept fd)) hadd
    have hqueue := (Reactor.addConnection_sameControl fd peer (s.reactor.accept fd)).queue
    rw [hadd] at hqueue
    have haccepted : s.reactor.SameCounts (s.reactor.accept fd) := ⟨rfl, rfl, rfl⟩
    have hclosed : r.SameCounts (r.closeFd fd) := ⟨rfl, rfl, rfl⟩
    exact ⟨rfl, rfl, hqueue, (hcounts.after haccepted).trans hclosed⟩
  | added fd peer hadd =>
    have hqueue := (Reactor.addConnection_sameControl fd peer s.reactor).queue
    rw [hadd] at hqueue
    exact ⟨rfl, rfl, hqueue, hrefused (Reactor.addConnection_counts fd peer s.reactor) hadd⟩
  | requested req hreq =>
    have hqueue := (Reactor.request_sameControl s.nextPromise req s.reactor).queue
    rw [hreq] at hqueue
    exact ⟨rfl, rfl, hqueue, hrefused (Reactor.request_counts s.nextPromise req s.reactor) hreq⟩

theorem Balanced.called (h : Balanced (s, b)) {op : Operation} (hkind : op.kind = k)
    (hcounts : s.reactor.Counts k k.counts.toNat 0 t.reactor)
    (hqueue : t.reactor.pendingOperations = s.reactor.pendingOperations)
    (hcallers : t.callers = .enqueueing op :: s.callers) (hloop : t.loop = s.loop) :
    Balanced (t, b.call k) where
  sound := h.sound.call k
  callers := by
    rw [hcallers]
    exact .cons hkind.symm h.callers
  queue := by
    rw [hqueue]
    exact h.queue
  processed := by
    rw [hcounts.processed, hloop]
    exact h.processed
  requests kind hk := h.requests_add (b.fresh k) hcounts (by rw [Books.all_call]) hk
  failures kind := h.failures_add (b.fresh k) hcounts rfl kind

theorem Balanced.refused (h : Balanced (s, b)) (hrefuses : s.Refuses t k) :
    Balanced (t, b.refuse k (s.failuresTo t k)) := by
  obtain ⟨hcallers, hloop, hqueue, hcounts⟩ := hrefuses.effect
  have hn := hcounts.failuresTo
  rw [hn]
  refine ⟨h.sound.refuse k rfl, ?_, ?_, ?_, fun kind hk => ?_, fun kind => ?_⟩
  · rw [hcallers]
    exact h.callers
  · rw [hqueue]
    exact h.queue
  · rw [hcounts.processed, hloop]
    exact h.processed
  · exact h.requests_add (b.fresh k) hcounts (b.all_refuse k _) hk
  · exact h.failures_add (b.fresh k) hcounts rfl kind

section Callers

variable {op : Operation} {before after : List Caller}
  {front back : List (Option (Booking RequestKind))}

theorem Balanced.enqueued (h : Balanced (s, b))
    (hcallers : s.callers = before ++ .enqueueing op :: after)
    (hcalling : b.calling = front ++ some mine :: back) (hplace : front.length = before.length) :
    Balanced ({ s with reactor := s.reactor.push op, callers := before ++ .waking :: after },
      b.accept front mine back) := by
  have hheld : List.Forall₂ Caller.Holds s.callers b.calling := h.callers
  rw [hcallers, hcalling] at hheld
  obtain ⟨hfront, hmine, hback⟩ := Lists.forall₂_split hheld hplace
  have hqueue : b.waiting.map Booking.kind = s.reactor.pendingOperations.map Operation.kind :=
    h.queue
  have hall := Books.all_accept (b := b) hcalling
  refine ⟨h.sound.accept hcalling, ?_, ?_, h.processed, fun k hk => ?_, h.failures⟩
  · exact List.rel_append hfront (.cons trivial hback)
  · change (b.waiting ++ [mine]).map Booking.kind =
      (s.reactor.pendingOperations ++ [op]).map Operation.kind
    rw [List.map_append, List.map_append, hqueue, List.map_singleton, List.map_singleton, hmine]
  · exact (h.requests k hk).trans (ofKind_perm hall).symm

theorem Balanced.rejected (h : Balanced (s, b))
    (hcallers : s.callers = before ++ .enqueueing op :: after)
    (ht : t = { s with reactor := s.reactor.reject op, callers := before ++ after })
    (hcalling : b.calling = front ++ some mine :: back) (hplace : front.length = before.length) :
    Balanced (t, b.reject front mine back (s.failuresTo t mine.kind)) := by
  have hheld : List.Forall₂ Caller.Holds s.callers b.calling := h.callers
  rw [hcallers, hcalling] at hheld
  obtain ⟨hfront, hmine, hback⟩ := Lists.forall₂_split hheld hplace
  have hkind : mine.kind = op.kind := hmine
  have hcounts : s.reactor.Counts mine.kind 0 mine.kind.counts.toNat t.reactor := by
    rw [ht, hkind]
    exact s.reactor.reject_counts op
  rw [hcounts.failuresTo]
  refine ⟨h.sound.reject hcalling rfl, ?_, ?_, ?_, fun k hk => ?_, fun k => ?_⟩
  · rw [ht]
    exact List.rel_append hfront hback
  · have hqueue := (s.reactor.reject_sameControl op).queue
    rw [ht]
    exact h.queue.trans (congrArg _ hqueue.symm)
  · rw [hcounts.processed, ht]
    exact h.processed
  · exact h.requests_same hcounts (Books.all_reject hcalling _) hk
  · exact h.failures_add _ hcounts rfl k

theorem Balanced.returned (h : Balanced (s, b)) (hcallers : s.callers = before ++ .waking :: after)
    (hcalling : b.calling = front ++ none :: back) (hplace : front.length = before.length) :
    Balanced ({ s with reactor := s.reactor.triggerWakeup, callers := before ++ after },
      b.leave front back) := by
  have hheld : List.Forall₂ Caller.Holds s.callers b.calling := h.callers
  rw [hcallers, hcalling] at hheld
  obtain ⟨hfront, -, hback⟩ := Lists.forall₂_split hheld hplace
  have hall := Books.all_leave (b := b) hcalling
  refine ⟨h.sound.leave hcalling, List.rel_append hfront hback, h.queue, h.processed,
    fun k hk => ?_, h.failures⟩
  rw [hall]
  exact h.requests k hk

end Callers

theorem Balanced.processed_step (h : Balanced (s, b)) (hrest : s.AtRest) {env : Environment}
    {op : Operation} {rest : List (Booking RequestKind)} (hprocesses : s.Processes t env op)
    (hcallers : t.callers = s.callers) (hwaiting : b.waiting = mine :: rest) :
    Balanced (t, b.process mine rest
      ((s.reactor.dequeue op s.reactor.pendingOperations.tail).processSucceeds env op)
      (s.failuresTo t mine.kind)) := by
  obtain ⟨which, processed, later, hloop, hloop', hqueue, hprocess⟩ := hprocesses
  have hkinds : b.waiting.map Booking.kind = s.reactor.pendingOperations.map Operation.kind :=
    h.queue
  rw [hwaiting, hqueue, List.map_cons, List.map_cons] at hkinds
  obtain ⟨hkind, hlater⟩ := List.cons.inj hkinds
  have hcounts := hrest.processOperation_counts env hqueue hprocess
  have hsame := hrest.processOperation_sameControl env hqueue hprocess
  rw [← hkind] at hcounts
  rw [hqueue, List.tail_cons, hcounts.failuresTo]
  refine ⟨h.sound.process hwaiting rfl, ?_, ?_, ?_, fun k hk => ?_, fun k => ?_⟩
  · rw [hcallers]
    exact h.callers
  · exact hlater.trans (congrArg _ hsame.queue.symm)
  · have hlength : b.processed.length = s.reactor.stats.totalOpsProcessed + s.loop.batch :=
      h.processed
    rw [hloop] at hlength
    change b.processed.length + 1 = t.reactor.stats.totalOpsProcessed + t.loop.batch
    rw [hlength, hcounts.processed, hloop']
    exact Nat.add_assoc _ _ _
  · exact h.requests_same hcounts (Books.all_process hwaiting _ _) hk
  · exact h.failures_add _ hcounts rfl k

/-- A step of the loop that leaves the queue alone only counts what has been processed. -/
theorem Loop.Step.other_counts {r : Reactor} {loop : Loop}
    (hstep : Loop.Step (s.reactor, s.loop) (r, loop)) (hrest : s.AtRest)
    (hqueue : r.pendingOperations = s.reactor.pendingOperations) :
    r.stats.requests = s.reactor.stats.requests ∧ r.stats.failures = s.reactor.stats.failures ∧
      r.stats.totalOpsProcessed + loop.batch =
        s.reactor.stats.totalOpsProcessed + s.loop.batch := by
  obtain ⟨reactor, callers, before, stopping, nextPromise⟩ := s
  have hsame {r : Reactor} {before loop : Loop} (h : reactor.SameCounts r)
      (hbatch : loop.batch = before.batch) : r.stats.requests = reactor.stats.requests ∧
        r.stats.failures = reactor.stats.failures ∧
          r.stats.totalOpsProcessed + loop.batch =
            reactor.stats.totalOpsProcessed + before.batch :=
    ⟨h.requests, h.failures, by rw [h.processed, hbatch]⟩
  cases hstep with
  | @process _ _ which processed env op rest hbatch hlater hprocess =>
    have hcontrol := hrest.processOperation_sameControl env hlater hprocess
    have hlength := congrArg List.length (hcontrol.queue.symm.trans (hqueue.trans hlater))
    simp [Reactor.dequeue] at hlength
  | @drained _ which processed => exact ⟨rfl, rfl, by cases which <;> rfl⟩
  | due env => exact hsame (reactor.checkTimeouts_sameCounts env) rfl
  | woken events =>
    dsimp only
    split <;> exact ⟨rfl, rfl, rfl⟩
  | @handle _ env event =>
    dsimp only
    split
    · exact ⟨rfl, rfl, rfl⟩
    · exact hsame (Reactor.processKqueueEvent_sameCounts env event hrest.tables) rfl
  | _ => exact ⟨rfl, rfl, rfl⟩

/-- The loop changes the queue only by processing an operation. -/
theorem Loop.Step.processes_of_ne {r : Reactor} {loop : Loop}
    (hstep : Loop.Step (s.reactor, s.loop) (r, loop)) (hrest : s.AtRest)
    (hqueue : r.pendingOperations ≠ s.reactor.pendingOperations) :
    ∃ env op, s.Processes { s with reactor := r, loop := loop } env op := by
  obtain ⟨reactor, callers, before, stopping, nextPromise⟩ := s
  cases hstep with
  | @process _ _ which processed env op rest hbatch hlater hprocess =>
    exact ⟨env, op, which, processed, rest, rfl, rfl, hlater, hprocess⟩
  | due env => exact absurd (reactor.checkTimeouts_sameControl env).queue hqueue
  | woken events =>
    dsimp only at hqueue
    split at hqueue <;> exact absurd rfl hqueue
  | @handle _ env event =>
    dsimp only at hqueue
    split at hqueue
    · exact absurd rfl hqueue
    · exact absurd (hrest.processKqueueEvent_sameControl env event).queue hqueue
  | _ => exact absurd rfl hqueue

/-- A step in which nobody calls or returns, nothing is processed and no call is rejected. -/
theorem System.Step.other_counts (hstep : System.Step s t) (hrest : s.AtRest)
    (hcallers : t.callers = s.callers)
    (hqueue : t.reactor.pendingOperations = s.reactor.pendingOperations)
    (hrefuses : ∀ k, ¬s.Refuses t k) :
    t.reactor.stats.requests = s.reactor.stats.requests ∧
      t.reactor.stats.failures = s.reactor.stats.failures ∧
        t.reactor.stats.totalOpsProcessed + t.loop.batch =
          s.reactor.stats.totalOpsProcessed + s.loop.batch := by
  have hlength := congrArg List.length hcallers
  cases hstep with
  | accept fd peer => simp at hlength
  | request req => simp at hlength
  | acceptRejected fd peer hfd hfresh hadd => exact absurd (.accepted fd peer hadd) (hrefuses .add)
  | addInvalid fd peer hfd hadd => exact absurd (.added fd peer hadd) (hrefuses .add)
  | requestRejected req hsized hreq => exact absurd (.requested req hreq) (hrefuses req.kind)
  | enqueue hbefore => simp [Reactor.push] at hqueue
  | enqueueRejected hbefore => simp [hbefore] at hlength
  | wake hbefore => simp [hbefore] at hlength
  | loop hloop => exact hloop.other_counts hrest hqueue
  | stopCleanup env hjoined horder hstopping =>
    have hsame := Reactor.cleanupAllConnections_sameCounts env
      { s.reactor with kernel := s.reactor.kernel.closeQueue }
    exact ⟨hsame.requests, hsame.failures, congrArg (· + s.loop.batch) hsame.processed⟩
  | _ => exact ⟨rfl, rfl, rfl⟩

/-- Whatever happens, the counters agree with the books. -/
theorem Balanced.step {x y : System × Books RequestKind} (h : Balanced x) (hrest : x.1.AtRest)
    (hstep : System.Step x.1 y.1) (hbooked : Booked x y) : Balanced y := by
  cases hbooked with
  | @accepted s b r op fd peer hadd =>
    have hcounts := Reactor.addConnection_counts fd peer (s.reactor.accept fd)
    have hqueue := (Reactor.addConnection_sameControl fd peer (s.reactor.accept fd)).queue
    have hop := (Reactor.addConnection_cases fd peer (s.reactor.accept fd)).2 op
      (congrArg Prod.fst hadd)
    rw [hadd] at hcounts hqueue
    have haccepted : s.reactor.SameCounts (s.reactor.accept fd) := ⟨rfl, rfl, rfl⟩
    exact h.called (congrArg Operation.kind hop) (hcounts.after haccepted) hqueue rfl rfl
  | @requested s b r op req hreq =>
    have hcounts := Reactor.request_counts s.nextPromise req s.reactor
    have hqueue := (Reactor.request_sameControl s.nextPromise req s.reactor).queue
    rw [hreq] at hcounts hqueue
    exact h.called (Reactor.request_kind hreq) hcounts hqueue rfl rfl
  | refused hrefuses => exact h.refused hrefuses
  | enqueued hcallers hcalling hplace => exact h.enqueued hcallers hcalling hplace
  | rejected hcallers ht hcalling hplace => exact h.rejected hcallers ht hcalling hplace
  | returned hcallers hcalling hplace => exact h.returned hcallers hcalling hplace
  | processed hprocesses hcallers hwaiting =>
    exact h.processed_step hrest hprocesses hcallers hwaiting
  | @other s t b hcallers hqueue hrefuses =>
    obtain ⟨hrequests, hfailures, hprocessed⟩ :=
      System.Step.other_counts hstep hrest hcallers hqueue hrefuses
    refine ⟨h.sound, ?_, ?_, h.processed.trans hprocessed.symm, ?_, ?_⟩
    · exact hcallers ▸ h.callers
    · exact hqueue ▸ h.queue
    · exact hrequests ▸ h.requests
    · exact hfailures ▸ h.failures

/-- Every step can be booked. -/
theorem Balanced.booked (h : Balanced (s, b)) (hrest : s.AtRest) (hstep : System.Step s t) :
    ∃ b', Booked (s, b) (t, b') := by
  have hheld : List.Forall₂ Caller.Holds s.callers b.calling := h.callers
  have hothers (hcallers : t.callers = s.callers)
      (hqueue : t.reactor.pendingOperations = s.reactor.pendingOperations) :
      ∃ b', Booked (s, b) (t, b') := by
    by_cases hrefuses : ∃ k, s.Refuses t k
    · obtain ⟨k, hk⟩ := hrefuses
      exact ⟨_, .refused hk⟩
    · exact ⟨b, .other hcallers hqueue fun k hk => hrefuses ⟨k, hk⟩⟩
  cases hstep with
  | accept fd peer hfd hfresh hadd => exact ⟨_, .accepted fd peer hadd⟩
  | acceptRejected fd peer hfd hfresh hadd => exact ⟨_, .refused (.accepted fd peer hadd)⟩
  | addInvalid fd peer hfd hadd => exact ⟨_, .refused (.added fd peer hadd)⟩
  | request req hsized hreq => exact ⟨_, .requested req hreq⟩
  | requestRejected req hsized hreq => exact ⟨_, .refused (.requested req hreq)⟩
  | @enqueue op before after hcallers hopen =>
    rw [hcallers] at hheld
    obtain ⟨front, held, back, hcalling, hplace⟩ := Lists.forall₂_append_cons hheld
    obtain ⟨-, hmine, -⟩ := Lists.forall₂_split (hcalling ▸ hheld) hplace
    cases held with
    | none => exact hmine.elim
    | some mine => exact ⟨_, .enqueued hcallers hcalling hplace⟩
  | @enqueueRejected op before after hcallers hstopped =>
    rw [hcallers] at hheld
    obtain ⟨front, held, back, hcalling, hplace⟩ := Lists.forall₂_append_cons hheld
    obtain ⟨-, hmine, -⟩ := Lists.forall₂_split (hcalling ▸ hheld) hplace
    cases held with
    | none => exact hmine.elim
    | some mine => exact ⟨_, .rejected hcallers rfl hcalling hplace⟩
  | @wake before after hcallers =>
    rw [hcallers] at hheld
    obtain ⟨front, held, back, hcalling, hplace⟩ := Lists.forall₂_append_cons hheld
    obtain ⟨-, hmine, -⟩ := Lists.forall₂_split (hcalling ▸ hheld) hplace
    cases held with
    | none => exact ⟨_, .returned hcallers hcalling hplace⟩
    | some mine => exact hmine.elim
  | @loop r loop hloop =>
    by_cases hqueue : r.pendingOperations = s.reactor.pendingOperations
    · exact hothers rfl hqueue
    · have hwaiting : b.waiting.map Booking.kind =
          s.reactor.pendingOperations.map Operation.kind := h.queue
      obtain ⟨env, op, hprocesses⟩ := hloop.processes_of_ne hrest hqueue
      have hpending := hprocesses
      obtain ⟨-, -, rest, -, -, hpending, -⟩ := hpending
      rw [hpending, List.map_cons, List.map_eq_cons_iff] at hwaiting
      obtain ⟨mine, later, hmine, -, -⟩ := hwaiting
      exact ⟨_, .processed hprocesses rfl hmine⟩
  | stopCleanup env hjoined horder hstopping =>
    exact hothers rfl (Reactor.cleanupAllConnections_sameControl env
      { s.reactor with kernel := s.reactor.kernel.closeQueue }).queue
  | _ => exact hothers rfl rfl

end Balance

/-! ## Runs -/

/-- Add, remove and send requests that were rejected synchronously. -/
def rejections (b : Books RequestKind) : ℕ :=
  b.rejected.countP fun request => request.kind.counts

/-- Size queries that were accepted into the queue. -/
def acceptedQueries (b : Books RequestKind) : ℕ :=
  ofKind .query (b.waiting ++ b.processed.map Prod.fst)

/-- The accounts of a reactor: while nobody is inside a request function and the loop is outside
`ProcessPendingOperations`, requests and accepted queries are what was rejected, waits or has been
processed; and a request is counted as a failure at most once, exactly if it was rejected or its
processing failed. -/
structure Accounted (s : System) (b : Books RequestKind) : Prop where
  balance : s.callers = [] → (∀ which processed, s.loop ≠ .draining which processed) →
    s.reactor.stats.totalAddRequests + s.reactor.stats.totalRemoveRequests +
        s.reactor.stats.totalSendRequests + acceptedQueries b =
      rejections b + s.reactor.pendingOperations.length + s.reactor.stats.totalOpsProcessed
  distinct : (b.all.map Booking.number).Nodup
  counters : ∀ k, s.reactor.stats.failures k = ofKind k b.counted
  once : b.counted.Nodup
  failures : ∀ request, request.kind.counts = true →
    (request ∈ b.counted ↔ request ∈ b.rejected ∨ (request, false) ∈ b.processed)

theorem ofKind_sum (requests : List (Booking RequestKind)) :
    ofKind .add requests + ofKind .remove requests + ofKind .send requests +
      ofKind .query requests = requests.length := by
  induction requests with
  | nil => rfl
  | cons request requests ih =>
    simp only [ofKind_cons, List.length_cons]
    cases request.kind <;> simp <;> omega

theorem countP_counts (requests : List (Booking RequestKind)) :
    (requests.countP fun request => request.kind.counts) + ofKind .query requests =
      requests.length := by
  induction requests with
  | nil => rfl
  | cons request requests ih =>
    rw [List.countP_cons, ofKind_cons, List.length_cons, ← ih]
    generalize (requests.countP fun request => request.kind.counts) = counted
    cases request.kind <;> simp [RequestKind.counts] <;> omega

/-- While nobody is inside a request function and no batch is being processed, all requests are
rejected, in the queue or processed. -/
theorem Balanced.balance {s : System} {b : Books RequestKind} (h : Balanced (s, b))
    (hcallers : s.callers = []) (hloop : ∀ which processed, s.loop ≠ .draining which processed) :
    s.reactor.stats.totalAddRequests + s.reactor.stats.totalRemoveRequests +
        s.reactor.stats.totalSendRequests + acceptedQueries b =
      rejections b + s.reactor.pendingOperations.length + s.reactor.stats.totalOpsProcessed := by
  have hcalling : b.calling = [] := by
    have hheld : List.Forall₂ Caller.Holds s.callers b.calling := h.callers
    rwa [hcallers, List.forall₂_nil_left_iff] at hheld
  have hbatch : s.loop.batch = 0 := by
    cases hat : s.loop with
    | draining which processed => exact absurd hat (hloop which processed)
    | _ => rfl
  have hall : b.all = b.waiting ++ (b.rejected ++ b.processed.map Prod.fst) := by
    rw [Books.all, hcalling]
    rfl
  have hprocessed : b.processed.length = s.reactor.stats.totalOpsProcessed + s.loop.batch :=
    h.processed
  have hqueue : b.waiting.length = s.reactor.pendingOperations.length := by
    have hlength := congrArg List.length h.queue
    rwa [List.length_map, List.length_map] at hlength
  have hadd : s.reactor.stats.totalAddRequests = ofKind .add b.all := h.requests .add rfl
  have hremove : s.reactor.stats.totalRemoveRequests = ofKind .remove b.all :=
    h.requests .remove rfl
  have hsend : s.reactor.stats.totalSendRequests = ofKind .send b.all := h.requests .send rfl
  have hqueries : ofKind .query b.all = acceptedQueries b + ofKind .query b.rejected := by
    rw [hall, acceptedQueries, ofKind, ofKind, ofKind, List.countP_append, List.countP_append,
      List.countP_append]
    omega
  have hlength : b.all.length = b.waiting.length + b.rejected.length + b.processed.length := by
    rw [hall, List.length_append, List.length_append, List.length_map]
    omega
  have hsum := ofKind_sum b.all
  have hrejected := countP_counts b.rejected
  rw [rejections]
  omega

theorem Balanced.accounted {x : System × Books RequestKind} (h : Balanced x) :
    Accounted x.1 x.2 where
  balance := h.balance
  distinct := h.sound.distinct
  counters := h.failures
  once := h.sound.counted_nodup
  failures request hcounts := by rw [h.sound.mem_counted, and_iff_right hcounts]

theorem started_balanced {reactorId : ℤ} {receiver : Receiver} {s : System}
    (h : (reactors reactorId receiver).init s) : s.AtRest ∧ Balanced (s, {}) := by
  obtain ⟨timeout, rfl⟩ := h
  refine ⟨started_atRest reactorId receiver timeout, .empty, .nil, rfl, rfl, fun k hk => ?_,
    fun k => ?_⟩
  all_goals cases k <;> rfl

theorem Balanced.booked_step {reactorId : ℤ} {receiver : Receiver}
    {x y : System × Books RequestKind} (h : x.1.AtRest ∧ Balanced x)
    (hstep : (bookedReactors reactorId receiver).step x y) : y.1.AtRest ∧ Balanced y := by
  obtain ⟨hxy, hbooked⟩ := hstep
  exact ⟨System.Step.atRest hxy h.1, h.2.step h.1 hxy hbooked⟩

/-- Every run of a reactor can be booked, and whichever way it is, its counters agree with the
requests in every state. -/
theorem reactors_account_for_requests (reactorId : ℤ) (receiver : Receiver) :
    (∀ states, (reactors reactorId receiver).Run states → ∃ booked,
      (bookedReactors reactorId receiver).Run booked ∧ booked.map Prod.fst = states) ∧
    ∀ booked, (bookedReactors reactorId receiver).Run booked →
      ∀ x ∈ booked, Accounted x.1 x.2 := by
  constructor
  · intro states hrun
    have hobserve : ∀ s t b, (s.AtRest ∧ Balanced (s, b)) → System.Step s t →
        ∃ b', Booked (s, b) (t, b') :=
      fun s t b h hstep => h.2.booked h.1 hstep
    obtain ⟨booked, hbooked, hmap, -⟩ := hrun.observed (I := fun x => x.1.AtRest ∧ Balanced x)
      (fun s hinit => started_balanced hinit) (fun x y h hstep => Balanced.booked_step h hstep)
      hobserve
    exact ⟨booked, hbooked, hmap⟩
  · intro booked hrun x hx
    have hboth : ∀ x ∈ booked, x.1.AtRest ∧ Balanced x := by
      refine hrun.invariant ?_ fun x y h hstep => Balanced.booked_step h hstep
      rintro ⟨s, b⟩ ⟨hinit, hb⟩
      obtain rfl : b = {} := hb
      exact started_balanced hinit
    exact (hboth x hx).2.accounted

/-- A connection is added, and data are sent on it. -/
theorem reactors_account_for_sample : ∃ s b past,
    (bookedReactors 0 .workerPool).Run ((s, b) :: past) ∧ Accounted s b ∧
      s.reactor.stats.totalAddRequests = 1 ∧ s.reactor.stats.totalSendRequests = 1 := by
  obtain ⟨hbooks, haccounts⟩ := reactors_account_for_requests 0 .workerPool
  obtain ⟨s, past, hrun, hsent, -⟩ := sample_run
  obtain ⟨booked, hbooked, hmap⟩ := hbooks _ hrun
  obtain ⟨⟨s', b⟩, rest, rfl, hs, -⟩ := List.map_eq_cons_iff.mp hmap
  obtain rfl : s' = s := hs
  have hcounts : sampleSent.map (fun r => (r.stats.totalAddRequests, r.stats.totalSendRequests)) =
      some (1, 1) := by decide +kernel
  rw [hsent] at hcounts
  obtain ⟨hadds, hsends⟩ := Prod.mk.inj (Option.some.inj hcounts)
  exact ⟨s', b, rest, hbooked, haccounts _ hbooked _ List.mem_cons_self, hadds, hsends⟩

end DarwinCore.Network
