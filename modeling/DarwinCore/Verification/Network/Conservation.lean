import DarwinCore.Verification.Network.Processing

/-! # No byte is lost, duplicated or reordered

In every state of every run of a reactor, whatever the threads and the kernel do. -/

namespace DarwinCore.Network

namespace Reactor

variable {held : List Operation} {r r' : Reactor}

/-! ## Requests -/

/-- A socket that was not open comes to be held by the operation that adds it. -/
theorem AtRest.accept {fd : ℤ} (h : r.AtRest held) (hpos : 0 ≤ fd)
    (hfresh : fd ∉ r.kernel.openFds) (peer : SockAddr) :
    (r.accept fd).AtRest (.add fd peer :: held) := by
  have hopened := r.quiet_emit (e := .opened fd) (Effect.quiet_of rfl)
  exact ⟨h.tables.accept hpos hfresh peer, (Sound.quiet h hopened).ledger⟩

/-- An operation that brings no descriptor along may be held at any time. -/
theorem AtRest.hold {op : Operation} (h : r.AtRest held) (hnew : op.newFd = none)
    (hsized : op.Sized) : r.AtRest (op :: held) := by
  have hfds : r.newFds (op :: held) = r.newFds held := List.filterMap_cons_none hnew
  refine ⟨⟨h.tables.keyed, h.tables.owner, h.tables.live, ?_, ?_, ?_⟩, h.ledger⟩
  · rw [hfds]
    exact h.tables.waiting
  · rw [hfds]
    exact h.tables.distinct
  · exact List.forall_mem_cons.mpr ⟨hsized, h.tables.sized⟩

theorem addConnection_cases (fd : ℤ) (peer : SockAddr) (r : Reactor) :
    r.Quiet (r.addConnection fd peer).2 ∧
      ∀ op, (r.addConnection fd peer).1 = some op → op = .add fd peer := by
  unfold addConnection
  dsimp only
  split
  · exact ⟨.of_log rfl rfl rfl rfl rfl, fun op hop => by cases hop⟩
  · exact ⟨.of_log rfl rfl rfl rfl rfl, fun op hop => (Option.some.inj hop).symm⟩

theorem request_cases (promise : ℕ) (req : Request) (hsized : req.Sized) (r : Reactor) :
    r.Quiet (r.request promise req).2 ∧
      ∀ op, (r.request promise req).1 = some op → op.newFd = none ∧ op.Sized := by
  unfold request
  cases req with
  | removeConnection id =>
    dsimp only
    split
    · exact ⟨.of_log rfl rfl rfl rfl rfl, fun op hop => by cases hop⟩
    · refine ⟨.of_log rfl rfl rfl rfl rfl, fun op hop => ?_⟩
      obtain rfl := Option.some.inj hop
      exact ⟨rfl, trivial⟩
  | sendData id data =>
    dsimp only
    split
    · exact ⟨.of_log rfl rfl rfl rfl rfl, fun op hop => by cases hop⟩
    · rename_i haccepted
      refine ⟨.of_log rfl rfl rfl rfl rfl, fun op hop => ?_⟩
      obtain rfl := Option.some.inj hop
      exact ⟨rfl, fun hnil => haccepted (.inl hnil), hsized⟩
  | getSendBufferSize id =>
    dsimp only
    split
    · exact ⟨.of_log rfl rfl rfl rfl rfl, fun op hop => by cases hop⟩
    · refine ⟨.of_log rfl rfl rfl rfl rfl, fun op hop => ?_⟩
      obtain rfl := Option.some.inj hop
      exact ⟨rfl, trivial⟩

theorem AtRest.reject {op : Operation} (h : r.AtRest (op :: held)) :
    (r.reject op).AtRest held := by
  have hquiet (f : ReactorStats → ReactorStats) : (r.count f).AtRest (op :: held) :=
    h.quiet (quiet_count r f)
  cases op with
  | add fd peer => exact (hquiet _).closeNewFd
  | remove id => exact (hquiet _).drop
  | send id data => exact (hquiet _).drop
  | getSendBufferSize id promise => exact h.drop

end Reactor

/-! ## Steps -/

/-- Whatever the loop does next, it is at rest again. -/
theorem Loop.Step.atRest {held : List Operation} {state state' : Reactor × Loop}
    (hstep : Loop.Step state state') (h : state.1.AtRest held) : state'.1.AtRest held := by
  cases hstep with
  | enter => exact h
  | leave => exact h
  | process env hbatch hqueue hprocess =>
    obtain ⟨r', heq, hrest⟩ := h.processOperation env hqueue
    obtain rfl := Option.some.inj (hprocess.symm.trans heq)
    exact hrest
  | drained => exact h.quiet (.of_log rfl rfl rfl rfl rfl)
  | notDue => exact h
  | due env => exact h.checkTimeouts env
  | interrupted => exact h
  | failed => exact h
  | woken events =>
    dsimp only
    split
    · exact h.quiet (.of_log rfl rfl rfl rfl rfl)
    · exact h
  | handle env =>
    dsimp only
    split
    · exact h
    · exact h.processKqueueEvent env _
  | handled => exact h

def Caller.op : Caller → Option Operation
  | enqueueing op => some op
  | waking => none

def System.held (s : System) : List Operation :=
  s.callers.filterMap Caller.op

def System.AtRest (s : System) : Prop :=
  s.reactor.AtRest s.held

theorem held_caller (before after : List Caller) (op : Operation) :
    ((before ++ .enqueueing op :: after).filterMap Caller.op).Perm
      (op :: (before ++ after).filterMap Caller.op) := by
  rw [List.filterMap_append, List.filterMap_append]
  exact List.perm_middle

theorem held_waking {before after : List Caller} :
    (before ++ .waking :: after).filterMap Caller.op = (before ++ after).filterMap Caller.op := by
  rw [List.filterMap_append, List.filterMap_append]
  rfl

/-- Whatever happens next, the reactor is at rest again. -/
theorem System.Step.atRest {s s' : System} (hstep : System.Step s s') (h : s.AtRest) :
    s'.AtRest := by
  unfold System.AtRest System.held at h
  cases hstep with
  | accept fd peer hfd hfresh hadd =>
    obtain ⟨hquiet, hop⟩ := Reactor.addConnection_cases fd peer (s.reactor.accept fd)
    rw [hadd] at hquiet hop
    obtain rfl := hop _ rfl
    exact (h.accept hfd hfresh peer).quiet hquiet
  | acceptRejected fd peer hfd hfresh hadd =>
    obtain ⟨hquiet, -⟩ := Reactor.addConnection_cases fd peer (s.reactor.accept fd)
    rw [hadd] at hquiet
    exact ((h.accept hfd hfresh peer).quiet hquiet).closeNewFd
  | addInvalid fd peer hfd hadd =>
    obtain ⟨hquiet, -⟩ := Reactor.addConnection_cases fd peer s.reactor
    rw [hadd] at hquiet
    exact h.quiet hquiet
  | request req hsized hreq =>
    obtain ⟨hquiet, hop⟩ := Reactor.request_cases s.nextPromise req hsized s.reactor
    rw [hreq] at hquiet hop
    obtain ⟨hnew, hopsized⟩ := hop _ rfl
    exact (h.hold hnew hopsized).quiet hquiet
  | requestRejected req hsized hreq =>
    obtain ⟨hquiet, -⟩ := Reactor.request_cases s.nextPromise req hsized s.reactor
    rw [hreq] at hquiet
    exact h.quiet hquiet
  | @enqueue op before after hcallers hqueue =>
    rw [hcallers] at h
    refine Reactor.Sound.requeue h (s.reactor.pendingOperations ++ [op]) ?_
    rw [System.held, held_waking, ← List.append_assoc]
    exact ((held_caller before after op).append_right _).trans
      (List.perm_append_singleton op _).symm
  | @enqueueRejected op before after hcallers hqueue =>
    rw [hcallers] at h
    have hperm := (held_caller before after op).append_right s.reactor.pendingOperations
    exact Reactor.AtRest.reject (Reactor.Sound.requeue h s.reactor.pendingOperations hperm)
  | wake hcallers =>
    rw [hcallers, held_waking] at h
    exact h.quiet (.of_log rfl rfl rfl rfl rfl)
  | setConnectionTimeout timeout => exact h.quiet (.of_log rfl rfl rfl rfl rfl)
  | setEventCallback receiver => exact h.quiet (.of_log rfl rfl rfl rfl rfl)
  | loop hloop => exact hloop.atRest h
  | stop => exact h.quiet (.of_log rfl rfl rfl rfl rfl)
  | stopQueue => exact h.quiet (.of_log rfl rfl rfl rfl rfl)
  | stopWake => exact h.quiet (.of_log rfl rfl rfl rfl rfl)
  | stopCleanup env =>
    refine Reactor.AtRest.cleanupAllConnections env ?_
    exact h.quiet (.of_log rfl rfl rfl rfl rfl)

theorem started_atRest (reactorId : ℤ) (receiver : Receiver) (timeout : ℤ) :
    System.AtRest { reactor := Reactor.started reactorId receiver timeout } := by
  refine Reactor.atRest_of_empty rfl rfl ?_ .nil ?_
  · intro fd hfd
    cases hfd
  · intro op hop
    cases hop

theorem reactors_atRest {reactorId : ℤ} {receiver : Receiver} {states : List System}
    (hrun : (reactors reactorId receiver).Run states) : ∀ s ∈ states, s.AtRest := by
  refine hrun.invariant ?_ fun s s' h (hstep : System.Step s s') => hstep.atRest h
  rintro s ⟨timeout, rfl⟩
  exact started_atRest reactorId receiver timeout

/-- For every connection in the table: what the kernel has accepted on its descriptor since
it was added, followed by the contents of its send buffer, is what was taken from the queue
to be sent on it, in order. -/
theorem reactors_conserve {reactorId : ℤ} {receiver : Receiver} {states : List System}
    (hrun : (reactors reactorId receiver).Run states) :
    ∀ s ∈ states, ∀ id conn, s.reactor.connections.lookup id = some conn →
      s.reactor.acceptedOn id conn.fileDescriptor ++ conn.sendBuffer.readable =
        s.reactor.processedFor id := by
  intro s hs id conn hc
  have hledger := (reactors_atRest hrun s hs).ledger id conn hc
  rwa [Reactor.buffered_of_lookup hc] at hledger

/-- The kernel takes two bytes at most, and every other call succeeds. -/
def sampleEnvironment : Environment where
  send _ := SendBuffer.takesAtMost 2
  kevent _ := true
  submitEvent _ := true
  clock _ := 0
  calendar _ := ⟨126, 0, 1⟩
  recv := []
  order := []
  checkedAt _ := 0

/-- The id of the first connection, on descriptor 5. -/
def sampleId : UInt64 := ConnectionIdGenerator.generate ⟨126, 0, 1⟩ 0 5 1

/-- Descriptor 5 is accepted, and three bytes are to be sent on it; both operations are in
the queue. -/
def sampleReactor : Reactor :=
  let r := ((Reactor.started 0 .workerPool 60).accept 5).addConnection 5 ⟨[]⟩
  let r := (r.2.push (.add 5 ⟨[]⟩)).request 0 (.sendData sampleId [1, 2, 3])
  r.2.push (.send sampleId [1, 2, 3])

/-- The descriptor is added, and the payload is waiting. -/
def sampleAdded : Option Reactor :=
  (sampleReactor.dequeue (.add 5 ⟨[]⟩) [.send sampleId [1, 2, 3]]).processOperation
    sampleEnvironment (.add 5 ⟨[]⟩)

def sampleSent : Option Reactor :=
  sampleAdded.bind fun r =>
    (r.dequeue (.send sampleId [1, 2, 3]) []).processOperation sampleEnvironment
      (.send sampleId [1, 2, 3])

/-- A run in which both operations are processed. -/
theorem sample_run : ∃ s past, (reactors 0 .workerPool).Run (s :: past) ∧
    sampleSent = some s.reactor ∧ s.stopping = .notCalled ∧
      s.loop = .draining .beforeEvents 2 := by
  have hsent : sampleSent.isSome = true := by decide +kernel
  obtain ⟨r', hr'⟩ := Option.isSome_iff_exists.mp hsent
  obtain ⟨r, hadd, hsend⟩ := Option.bind_eq_some_iff.mp hr'
  have hqueue : sampleAdded.map Reactor.pendingOperations = some [.send sampleId [1, 2, 3]] := by
    decide +kernel
  rw [hadd] at hqueue
  have hstart : (reactors 0 .workerPool).Run [_] := .start ⟨60, rfl⟩
  have haccept := hstart.next (System.Step.accept 5 ⟨[]⟩ (by decide) (by decide) rfl)
  have henqueue := haccept.next (System.Step.enqueue (List.nil_append _).symm (by decide))
  have hrequest := henqueue.next
    (System.Step.request (.sendData sampleId [1, 2, 3]) (by simp [Request.Sized]) rfl)
  have hqueued := hrequest.next (System.Step.enqueue (List.nil_append _).symm (by decide))
  have henter := hqueued.next (System.Step.loop (Loop.Step.enter rfl))
  have hadded := henter.next
    (System.Step.loop (Loop.Step.process sampleEnvironment (by decide) rfl hadd))
  have hdone := hadded.next
    (System.Step.loop
      (Loop.Step.process sampleEnvironment (by decide) (Option.some.inj hqueue) hsend))
  exact ⟨_, _, hdone, hr', rfl, rfl⟩

/-- The kernel has taken two of the three bytes, so that the third one is buffered. -/
theorem reactors_conserve_partial_send : ∃ s past conn,
    (reactors 0 .workerPool).Run (s :: past) ∧
      s.reactor.connections.lookup sampleId = some conn ∧ conn.sendBuffer.readable = [3] := by
  obtain ⟨s, past, hrun, hsent, -⟩ := sample_run
  have hlookup : sampleSent.map (fun r => (r.connections.lookup sampleId).isSome) = some true := by
    decide +kernel
  have hprocessed : sampleSent.map (Reactor.processedFor · sampleId) = some [1, 2, 3] := by
    decide +kernel
  have haccepted : sampleSent.map (fun r => (r.connections.lookup sampleId).map fun conn =>
      r.acceptedOn sampleId conn.fileDescriptor) = some (some [1, 2]) := by
    decide +kernel
  simp only [hsent, Option.map_some, Option.some.injEq] at hlookup hprocessed haccepted
  obtain ⟨conn, hc⟩ := Option.isSome_iff_exists.mp hlookup
  rw [hc, Option.map_some, Option.some.injEq] at haccepted
  have hledger := reactors_conserve hrun s List.mem_cons_self sampleId conn hc
  rw [hprocessed, haccepted] at hledger
  exact ⟨s, past, conn, hrun, hc, List.append_cancel_left hledger⟩

end DarwinCore.Network
