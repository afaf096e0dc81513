import DarwinCore.Verification.Network.PoolShutdown
import DarwinCore.Verification.Network.Submissions

/-! # From the reactors to the pool

`Stop` stops the reactors before the pool, so that the pool takes every event that a reactor
submits: in every run, what a reactor has submitted was accepted as an event of that reactor, or
is about to be. -/

namespace DarwinCore.Network

open ConnectionIdGenerator

/-! ## The pool of a server -/

/-- The worker has seen that the pool is stopped. -/
def WorkerPhase.isLeaving : WorkerPhase → Bool
  | draining => true
  | callingRemaining _ => true
  | exited => true
  | _ => false

namespace WorkerPool

/-- While the pool is running, no worker leaves and no queue is stopped. Nothing was refused. -/
structure Serves (p : WorkerPool) : Prop where
  conserved : p.Conserved
  drained : p.Drained
  callback : p.hasCallback = true
  waited : ∀ submission ∈ p.accepted, submission.tried = false
  started : p.isRunning = true → p.control = .started
  opened : p.isRunning = true → ∀ i, (p.eventQueues i).isStopped = false
  staying : p.isRunning = true → ∀ i, (p.workers i).isLeaving = false
  failures : p.submitFailures = 0

variable {p p' : WorkerPool} {i : ℕ} {event : NetworkEvent} {success : Bool}

theorem launch_serves (workerCount maxQueueSize : ℕ) :
    (launch workerCount maxQueueSize).Serves where
  conserved :=
    { staffed := by
        refine ⟨0, (launch workerCount maxQueueSize).workerCount, Nat.zero_le _, Nat.le_refl _,
          fun i => ?_, rfl, rfl, rfl⟩
        dsimp only [launch]
        split <;> simp_all
      lines := by
        intro _ i
        dsimp only [line, launch]
        split <;> rfl
      silent := fun _ => rfl
      own := nofun
      nodup := List.nodup_nil
      old := nofun }
  drained :=
    { positive := (construct_drained workerCount maxQueueSize true).positive
      returning := nofun
      submitted := nofun
      exited := by
        intro i hi
        dsimp only [launch] at hi
        split at hi <;> cases hi
      stopping := trivial }
  callback := rfl
  waited := nofun
  started _ := rfl
  opened _ _ := rfl
  staying _ i := by
    dsimp only [launch]
    split <;> rfl
  failures := rfl

/-- No worker leaves while the pool is running. -/
theorem WorkerStep.stays (hstep : WorkerStep i p p') (hrunning : p.isRunning = true)
    (h : ∀ j, (p.workers j).isLeaving = false) (j : ℕ) : (p'.workers j).isLeaving = false := by
  obtain ⟨-, -, hworkers⟩ := hstep.present
  by_cases hj : j = i
  · subst hj
    have hhere := h j
    cases hstep with
    | test hphase =>
      rw [setWorker_self, if_pos hrunning]
      rfl
    | @waitDequeue timedOut result q hphase hqueue =>
      rw [setWorker_self]
      cases result <;> rfl
    | call hphase =>
      rw [setWorker_self]
      rfl
    | tryDequeue hphase hqueue =>
      rw [hphase] at hhere
      cases hhere
    | callRemaining hphase =>
      rw [hphase] at hhere
      cases hhere
  · rw [hworkers j hj]
    exact h j

theorem WorkerStep.submitFailures (hstep : WorkerStep i p p') :
    p'.submitFailures = p.submitFailures := by
  cases hstep with
  | @call submission hphase | @callRemaining submission hphase =>
    obtain ⟨delivered, heq⟩ := handle_eq p i submission
    rw [heq]
    rfl
  | _ => rfl

theorem WorkerStep.serves (hstep : WorkerStep i p p') (h : p.Serves) : p'.Serves := by
  obtain ⟨-, hcallback, hrunning, hcontrol, haccepted, -⟩ := hstep.frame
  obtain ⟨-, -, -, -, -, hstopped, hqueues⟩ := hstep.move
  exact {
    conserved := hstep.conserved h.conserved
    drained := hstep.drained h.drained h.conserved.staffed
    callback := hcallback.trans h.callback
    waited := by
      rw [haccepted]
      exact h.waited
    started := by
      rw [hrunning, hcontrol]
      exact h.started
    opened := fun hrun j => (hstopped j).trans (h.opened (hrunning ▸ hrun) j)
    staying := fun hrun => hstep.stays (hrunning ▸ hrun) (h.staying (hrunning ▸ hrun))
    failures := hstep.submitFailures.trans h.failures }

/-- With a queue that is not stopped, `Enqueue` succeeds or waits. -/
theorem enqueue_success {α : Type*} {q q' : ConcurrentQueue α} {value : α}
    (hopen : q.isStopped = false) (h : q.enqueue value = some (success, q')) : success = true := by
  unfold ConcurrentQueue.enqueue at h
  rw [hopen] at h
  split at h
  · cases h
  · exact (Prod.mk.inj (Option.some.inj h)).1.symm

theorem SubmitStep.serves_of_same (hstep : SubmitStep p p') (h : p.Conserved ∧ p.Drained)
    (haccepted : p'.accepted = p.accepted) : p'.Conserved ∧ p'.Drained :=
  ⟨hstep.conserved h.1, hstep.drained h.2 h.1 (not_strands haccepted)⟩

/-- A running pool takes the event. -/
theorem SubmitEvent.taken (hsubmit : SubmitEvent event success p p') (h : p.Serves)
    (hrunning : p.isRunning = true) :
    success = true ∧ p'.Serves ∧ p'.isRunning = true ∧ p'.delivered = p.delivered ∧
      p'.accepted = p.accepted ++ [⟨p.nextSubmission, event, false⟩] := by
  obtain ⟨submission, q, hsubmission, hqueue, hp'⟩ : ∃ submission q,
      submission = ⟨p.nextSubmission, event, false⟩ ∧
      (p.eventQueues (submission.worker p.workerCount)).enqueue submission = some (success, q) ∧
      p' = { (p.setQueue (submission.worker p.workerCount) q).countFailure success with
        nextSubmission := p.nextSubmission + 1
        accepted := if success then p.accepted ++ [submission] else p.accepted
        submitted := if success then p.submitted ++ [submission] else p.submitted } := by
    cases hsubmit with
    | notRunning hnot =>
      rw [hrunning] at hnot
      cases hnot
    | enqueued hsubmission hrun hqueue => exact ⟨_, _, hsubmission, hqueue, rfl⟩
  obtain rfl := enqueue_success (h.opened hrunning _) hqueue
  have htried : submission.tried = false := hsubmission ▸ rfl
  have henqueue : enqueue submission (p.eventQueues (submission.worker p.workerCount)) =
      some (true, q) := by
    rw [enqueue, htried]
    exact hqueue
  -- The call is made of four steps of the pool.
  let called : WorkerPool := { p with
    submitters := .testing submission :: p.submitters
    nextSubmission := p.nextSubmission + 1 }
  let tested : WorkerPool := { called with submitters := .enqueueing submission :: p.submitters }
  let enqueued : WorkerPool := { tested.setQueue (submission.worker p.workerCount) q with
    submitters := .returning submission true :: p.submitters
    accepted := p.accepted ++ [submission] }
  have hcalled : SubmitStep p called := by
    dsimp only [called]
    rw [hsubmission]
    exact .submit event
  have htested : SubmitStep called tested := by
    have htest : SubmitStep called { called with
        submitters := [] ++ (if called.isRunning then .enqueueing submission
          else .returning submission false) :: p.submitters } :=
      .test (List.nil_append _).symm
    rw [if_pos hrunning] at htest
    exact htest
  have henqueued : SubmitStep tested enqueued :=
    .enqueue (p := tested) (List.nil_append _).symm henqueue
  have hreturned : SubmitStep enqueued p' := by
    rw [hp']
    exact .ret (p := enqueued) (List.nil_append _).symm
  have hstay := h.staying hrunning
  have hkept := htested.serves_of_same (hcalled.serves_of_same ⟨h.conserved, h.drained⟩ rfl) rfl
  have hspared : ¬Strands tested enqueued := by
    rintro ⟨stranded, -, -, -, hexited⟩
    have hthere := hstay (stranded.worker p.workerCount)
    rw [show p.workers (stranded.worker p.workerCount) = .exited from hexited] at hthere
    cases hthere
  have hdone := hreturned.serves_of_same
    ⟨henqueued.conserved hkept.1, henqueued.drained hkept.2 hkept.1 hspared⟩ (hp' ▸ rfl)
  have hstopped (i : ℕ) : (p'.eventQueues i).isStopped = false := by
    rw [hp']
    obtain ⟨-, hsame, -⟩ := ConcurrentQueue.enqueue_queue hqueue
    by_cases hi : i = submission.worker p.workerCount
    · subst hi
      refine (congrArg ConcurrentQueue.isStopped setQueue_self).trans ?_
      rw [hsame]
      exact h.opened hrunning _
    · exact (congrArg ConcurrentQueue.isStopped (setQueue_ne hi)).trans (h.opened hrunning i)
  have haccepted : p'.accepted = p.accepted ++ [submission] := hp' ▸ rfl
  refine ⟨rfl, ⟨hdone.1, hdone.2, ?_, fun other hmem => ?_, fun _ => ?_, fun _ => hstopped,
    fun _ => ?_, ?_⟩, ?_, ?_, hsubmission ▸ haccepted⟩
  · rw [hp']
    exact h.callback
  · rw [haccepted] at hmem
    rcases List.mem_append.mp hmem with hold | hnew
    · exact h.waited other hold
    · rw [List.mem_singleton.mp hnew]
      exact htried
  · rw [hp']
    exact h.started hrunning
  · rw [hp']
    exact hstay
  · rw [hp']
    exact h.failures
  · rw [hp']
    exact hrunning
  · rw [hp']
    rfl

/-- Once the pool is stopped, only what is left is passed on. -/
theorem ControlStep.serves (hstep : ControlStep p p') (h : p.Serves)
    (hstopped : p'.isRunning = false) : p'.Serves := by
  obtain ⟨-, hcallback, haccepted, -⟩ := hstep.frame
  have hnot {P : Prop} (hrunning : p'.isRunning = true) : P := by
    rw [hstopped] at hrunning
    cases hrunning
  exact {
    conserved := hstep.conserved h.conserved
    drained := hstep.drained h.drained h.conserved.staffed
    callback := hcallback.trans h.callback
    waited := by
      rw [haccepted]
      exact h.waited
    started := hnot
    opened := hnot
    staying := hnot
    failures := by
      have hsame : p'.submitFailures = p.submitFailures := by cases hstep <;> rfl
      exact hsame.trans h.failures }

/-! ## What has been passed on -/

/-- For each connection, the events that were passed on are the first of those accepted. -/
theorem Conserved.passed_prefix (h : p.Conserved) (id : UInt64) :
    ((p.delivered.map fun d => d.2.event).filter fun event => event.connectionId = id) <+:
      (p.accepted.map (·.event)).filter fun event => event.connectionId = id := by
  have hprefix := ((h.takenFirst (id.toNat % p.workerCount)).filter fun submission =>
    submission.event.connectionId = id).map (·.event)
  have hboth (l : List Submission) :
      (((l.filter (Submission.isFor p.workerCount (id.toNat % p.workerCount))).filter
        fun submission => submission.event.connectionId = id).map (·.event)) =
        (l.map (·.event)).filter fun event => event.connectionId = id := by
    rw [List.filter_filter, List.filter_map]
    refine congrArg (List.map _) (List.filter_congr fun submission _ => ?_)
    by_cases hid : submission.event.connectionId = id
    · simp [Submission.isFor, Submission.worker, hid]
    · simp [hid]
  rw [hboth, hboth, List.map_map] at hprefix
  exact hprefix

def Quiet (p : WorkerPool) : Prop :=
  ∀ i, (p.eventQueues i).queue = [] ∧ (p.workers i).held = []

theorem Serves.passed_perm (h : p.Serves) (hquiet : p.Quiet) :
    (p.delivered.map fun d => d.2.event).Perm (p.accepted.map (·.event)) := by
  have hperm : (p.delivered.map Prod.snd).Perm p.accepted := by
    refine List.perm_iff_count.mpr fun submission => ?_
    have hfor :
        Submission.isFor p.workerCount (submission.worker p.workerCount) submission = true :=
      decide_eq_true rfl
    have hline := h.conserved.lines h.callback (submission.worker p.workerCount)
    obtain ⟨hqueue, hheld⟩ := hquiet (submission.worker p.workerCount)
    rw [line, hqueue, hheld, List.append_nil, List.append_nil] at hline
    rw [← List.count_filter hfor, hline, List.count_filter hfor]
  have hevents := hperm.map (·.event)
  rw [List.map_map] at hevents
  exact hevents

/-- When `Stop` has returned, nothing is on its way any more. -/
theorem Serves.quiet_of_stopped (h : p.Serves) (hstopped : p.control = .stopped) : p.Quiet := by
  intro i
  have habsent := h.conserved.staffed.absent hstopped i
  have hheld : (p.workers i).held = [] := by
    rw [habsent]
    rfl
  refine ⟨?_, hheld⟩
  have hline := h.conserved.lines h.callback i
  refine List.eq_nil_iff_forall_not_mem.mpr fun submission hmem => ?_
  have haccepted : submission ∈ p.accepted.filter (Submission.isFor p.workerCount i) := by
    rw [← hline, line]
    exact List.mem_append_right _ hmem
  obtain ⟨haccepted, hfor⟩ := List.mem_filter.mp haccepted
  have hlt : i < p.workerCount := by
    rw [← of_decide_eq_true hfor]
    exact Nat.mod_lt _ h.drained.positive
  have hstopping := h.drained.stopping
  unfold Stopping at hstopping
  rw [hstopped] at hstopping
  have hcleared := (hstopping i hlt).2 submission hmem
  rw [h.waited submission haccepted] at hcleared
  cases hcleared

end WorkerPool

/-! ## Which reactor an event is from -/

instance (reactorId : ℤ) (id : UInt64) : Decidable (Reactor.Names reactorId id) :=
  inferInstanceAs (Decidable (getReactorId id = UInt8.ofInt reactorId))

theorem number_inj {n : ℕ} (hn : n ≤ 256) {i j : Fin n}
    (h : UInt8.ofInt (toInt i) = UInt8.ofInt (toInt j)) : i = j := by
  have hsame := congrArg UInt8.toNat h
  rw [ofInt_toInt, ofInt_toInt] at hsame
  refine Fin.ext ?_
  have hlt := i.isLt
  have hlt' := j.isLt
  omega

def eventsFor (id : UInt64) (events : List NetworkEvent) : List NetworkEvent :=
  events.filter fun event => event.connectionId = id

def eventsFrom (reactorId : ℤ) (events : List NetworkEvent) : List NetworkEvent :=
  events.filter fun event => Reactor.Names reactorId event.connectionId

theorem eventsFor_from {reactorId : ℤ} {id : UInt64} (h : Reactor.Names reactorId id)
    (events : List NetworkEvent) : eventsFor id (eventsFrom reactorId events) =
      eventsFor id events := by
  rw [eventsFor, eventsFrom, List.filter_filter, eventsFor]
  refine List.filter_congr fun event _ => ?_
  by_cases hid : event.connectionId = id
  · simp [hid, h]
  · simp [hid]

/-! ## The flow of the events -/

/-- `Stop` is over for good. -/
theorem System.Step.returned {s t : System} (hstep : System.Step s t) (hphase : s.Phase)
    (h : s.stopping = .returned) : t.stopping = .returned := by
  cases hstep with
  | stop hrunning =>
    rw [hphase.running.mp hrunning] at h
    cases h
  | stopQueue hstopping | stopWake hstopping =>
    rw [hstopping] at h
    cases h
  | stopCleanup => rfl
  | _ => exact h

structure Lane (reactorId : ℤ) (running : Bool) (accepted : List NetworkEvent) (u : System)
    (unsubmitted : List (NetworkEvent × Bool)) : Prop where
  runs : (reactors reactorId .workerPool).Leads (fun u v => ¬u.RemovesSilently v) u
  keeps : u.Keeps
  returned : running = false → u.stopping = .returned
  resting : u.loop = .exited → unsubmitted = []
  conserved : u.reactor.submissions.map Prod.fst =
    eventsFrom reactorId accepted ++ unsubmitted.map Prod.fst

namespace Lane

variable {reactorId : ℤ} {running : Bool} {accepted : List NetworkEvent} {u v : System}
  {unsubmitted rest : List (NetworkEvent × Bool)} {event : NetworkEvent} {success : Bool}

theorem tracked (h : Lane reactorId running accepted u unsubmitted) : u.Tracked := by
  obtain ⟨past, hrun, -⟩ := h.runs
  exact reactors_tracked hrun _ List.mem_cons_self

theorem phase (h : Lane reactorId running accepted u unsubmitted) : u.Phase := by
  obtain ⟨past, hrun, -⟩ := h.runs
  exact (reactors_phase hrun _ List.mem_cons_self).2

theorem names (h : Lane reactorId running accepted u unsubmitted)
    (hevent : event ∈ u.reactor.submissions.map Prod.fst) :
    Reactor.Names reactorId event.connectionId := by
  obtain ⟨past, hrun, -⟩ := h.runs
  obtain ⟨sub, hsub, rfl⟩ := List.mem_map.mp hevent
  exact (reactors_named hrun _ List.mem_cons_self).submitted sub hsub

theorem runs_on (h : Lane reactorId running accepted u unsubmitted) (hsome : unsubmitted ≠ []) :
    running = true := by
  by_contra hstopped
  refine hsome (h.resting ?_)
  exact h.phase.joined (h.returned (Bool.eq_false_iff.mpr hstopped))

theorem step {events : List (NetworkEvent × Bool)}
    (h : Lane reactorId running accepted u unsubmitted) (hstep : System.Step u v)
    (hloop : v.loop ≠ u.loop → unsubmitted = [])
    (hrequest : ∀ id, Caller.enqueueing (.remove id) ∉ v.callers)
    (hevents : v.reactor.submissions = u.reactor.submissions ++ events) :
    Lane reactorId running accepted v (unsubmitted ++ events) where
  runs := h.runs.next hstep h.keeps.not_removes
  keeps := h.keeps.next hstep h.tracked.atRest hrequest
  returned hstopped := hstep.returned h.phase (h.returned hstopped)
  resting hexited := by
    have hnone : events = [] := by
      rcases hstep.submits with hsame | ⟨-, hstays⟩
      · exact List.append_right_eq_self.mp (hevents.symm.trans hsame)
      · exact absurd hexited hstays
    rw [hnone, List.append_nil]
    by_cases hsame : v.loop = u.loop
    · exact h.resting (hsame.symm.trans hexited)
    · exact hloop hsame
  conserved := by
    rw [hevents, List.map_append, h.conserved, List.map_append, List.append_assoc]

theorem submitted (h : Lane reactorId running accepted u ((event, success) :: rest)) :
    Lane reactorId running (accepted ++ [event]) u rest where
  runs := h.runs
  keeps := h.keeps
  returned := h.returned
  resting hexited := by
    have hnone := h.resting hexited
    cases hnone
  conserved := by
    have hmember : event ∈ u.reactor.submissions.map Prod.fst := by
      rw [h.conserved]
      exact List.mem_append_right _ List.mem_cons_self
    have hnames := h.names hmember
    rw [h.conserved, eventsFrom, eventsFrom, List.filter_append]
    simp [hnames]

theorem unconcerned (h : Lane reactorId running accepted u unsubmitted)
    (hnames : ¬Reactor.Names reactorId event.connectionId) :
    Lane reactorId running (accepted ++ [event]) u unsubmitted where
  runs := h.runs
  keeps := h.keeps
  returned := h.returned
  resting := h.resting
  conserved := by
    rw [h.conserved, eventsFrom, eventsFrom, List.filter_append]
    simp [hnames]

end Lane

namespace ServerFlow

variable {n : ℕ} {s t : ServerFlow n}

def accepted (s : ServerFlow n) : List NetworkEvent :=
  s.pool.accepted.map (·.event)

structure Flows (s : ServerFlow n) : Prop where
  pool : s.pool.Serves
  lanes : ∀ i : Fin n,
    Lane (toInt i) s.pool.isRunning s.accepted (s.reactors i) (s.unsubmitted i)
  named : ∀ event ∈ s.accepted, ∃ i : Fin n, Reactor.Names (toInt i) event.connectionId

theorem Flows.reactor (h : s.Flows) (i : Fin n) {u : System} {events : List (NetworkEvent × Bool)}
    (hstep : System.Step (s.reactors i) u)
    (hloop : u.loop ≠ (s.reactors i).loop → s.unsubmitted i = [])
    (hrequest : ∀ id, Caller.enqueueing (.remove id) ∉ u.callers)
    (hevents : u.reactor.submissions = (s.reactors i).reactor.submissions ++ events) :
    Flows { s with
      reactors := Function.update s.reactors i u
      unsubmitted := Function.update s.unsubmitted i (s.unsubmitted i ++ events) } where
  pool := h.pool
  lanes j := by
    dsimp only
    by_cases hj : j = i
    · subst hj
      rw [Function.update_self, Function.update_self]
      exact (h.lanes j).step hstep hloop hrequest hevents
    · rw [Function.update_of_ne hj, Function.update_of_ne hj]
      exact h.lanes j
  named := h.named

/-- What a reactor hands over is accepted as one of its events. -/
theorem Flows.submit (h : s.Flows) (hn : n ≤ 256) {i : Fin n} {event : NetworkEvent}
    {success : Bool} {rest : List (NetworkEvent × Bool)} {p : WorkerPool}
    (hunsubmitted : s.unsubmitted i = (event, success) :: rest)
    (hsubmit : s.pool.SubmitEvent event success p) :
    Flows { s with pool := p, unsubmitted := Function.update s.unsubmitted i rest } := by
  have hlane := h.lanes i
  rw [hunsubmitted] at hlane
  have hrunning := hlane.runs_on (List.cons_ne_nil _ _)
  obtain ⟨rfl, hserves, hstill, -, haccepted⟩ := hsubmit.taken h.pool hrunning
  have hevents : p.accepted.map (·.event) = s.accepted ++ [event] := by
    rw [haccepted, List.map_append]
    rfl
  have hnames : Reactor.Names (toInt i) event.connectionId := by
    refine hlane.names ?_
    rw [hlane.conserved]
    exact List.mem_append_right _ List.mem_cons_self
  refine ⟨hserves, fun j => ?_, fun other hother => ?_⟩
  · dsimp only [accepted]
    rw [hevents, hstill, ← hrunning]
    by_cases hj : j = i
    · subst hj
      rw [Function.update_self]
      exact hlane.submitted
    · rw [Function.update_of_ne hj]
      exact (h.lanes j).unconcerned fun hnames' => hj (number_inj hn (hnames'.symm.trans hnames))
  · rw [accepted, hevents] at hother
    rcases List.mem_append.mp hother with hold | hnew
    · exact h.named other hold
    · rw [List.mem_singleton.mp hnew]
      exact ⟨i, hnames⟩

theorem Flows.of_accepted (h : s.Flows) {p : WorkerPool} (hserves : p.Serves)
    (hreturned : p.isRunning = false → ∀ i, (s.reactors i).stopping = .returned)
    (haccepted : p.accepted = s.pool.accepted) : Flows { s with pool := p } where
  pool := hserves
  lanes i := by
    dsimp only [accepted]
    rw [haccepted]
    have hlane := h.lanes i
    exact ⟨hlane.runs, hlane.keeps, fun hstopped => hreturned hstopped i, hlane.resting,
      hlane.conserved⟩
  named event hevent := by
    rw [accepted, haccepted] at hevent
    exact h.named event hevent

theorem Step.flows (hn : n ≤ 256) (hstep : Step s t) (h : s.Flows) : t.Flows := by
  cases hstep with
  | reactor i events hstep hloop hrequest hevents => exact h.reactor i hstep hloop hrequest hevents
  | submit i hunsubmitted hsubmit => exact h.submit hn hunsubmitted hsubmit
  | worker w hworker =>
    obtain ⟨-, -, hrunning, -, haccepted, -⟩ := hworker.frame
    refine h.of_accepted (hworker.serves h.pool) (fun hstopped i => ?_) haccepted
    exact (h.lanes i).returned (hrunning ▸ hstopped)
  | stopPool hcontrol hreactors hstop =>
    obtain ⟨-, -, haccepted, -⟩ := hcontrol.frame
    exact h.of_accepted (hcontrol.serves h.pool hstop) (fun _ => hreactors) haccepted

end ServerFlow

theorem serverFlows_flows {n workerCount maxQueueSize : ℕ} (hn : n ≤ 256)
    {states : List (ServerFlow n)} (hrun : (serverFlows n workerCount maxQueueSize).Run states) :
    ∀ s ∈ states, s.Flows := by
  refine hrun.invariant ?_ fun s t h (hstep : ServerFlow.Step s t) => hstep.flows hn h
  rintro s ⟨timeouts, rfl⟩
  refine ⟨WorkerPool.launch_serves workerCount maxQueueSize, fun i => ?_, fun event hevent => ?_⟩
  · exact {
      runs := .start ⟨timeouts i, rfl⟩
      keeps := ⟨fun id => List.not_mem_nil, fun id => List.not_mem_nil⟩
      returned := nofun
      resting := fun _ => rfl
      conserved := rfl }
  · cases hevent

/-! ## A sample run -/

namespace ServerFlow

variable {u v : System} {p p' : WorkerPool} {events rest : List (NetworkEvent × Bool)}

/-- One reactor, what it has still to submit, and the pool. -/
def single (u : System) (unsubmitted : List (NetworkEvent × Bool)) (p : WorkerPool) :
    ServerFlow 1 where
  reactors _ := u
  pool := p
  unsubmitted _ := unsubmitted

theorem update_single {α : Type*} (x y : α) :
    Function.update (fun _ : Fin 1 => x) 0 y = fun _ => y := by
  funext i
  rw [Subsingleton.elim i 0, Function.update_self]

theorem Step.single_reactor (hstep : System.Step u v)
    (hrequest : ∀ id, Caller.enqueueing (.remove id) ∉ v.callers)
    (hevents : v.reactor.submissions = u.reactor.submissions ++ events) :
    Step (single u [] p) (single v events p) := by
  have h := Step.reactor (s := single u [] p) 0 events hstep (fun _ => rfl) hrequest hevents
  simp only [single, update_single] at h
  exact h

theorem Step.single_silent (hstep : System.Step u v)
    (hrequest : ∀ id, Caller.enqueueing (.remove id) ∉ v.callers)
    (hsame : v.reactor.submissions = u.reactor.submissions) :
    Step (single u [] p) (single v [] p) :=
  .single_reactor hstep hrequest (hsame.trans (List.append_nil _).symm)

theorem Step.single_submit {event : NetworkEvent} {success : Bool}
    (h : p.SubmitEvent event success p') :
    Step (single u ((event, success) :: rest) p) (single u rest p') := by
  have hstep := Step.submit (s := single u ((event, success) :: rest) p) 0 rfl h
  simp only [single, update_single] at hstep
  exact hstep

theorem start_single : (serverFlows 1 1 0).Run
    [single { reactor := Reactor.started 0 .workerPool 60 } [] (.launch 1 0)] := by
  refine .start ⟨fun _ => 60, ?_⟩
  rw [single, ServerFlow.mk.injEq]
  refine ⟨funext fun i => ?_, rfl, rfl⟩
  have hzero : toInt i = 0 := by
    rw [Subsingleton.elim i 0]
    decide
  rw [hzero]

/-- A connection is added and announced, and then the server is stopped. -/
theorem sample_stages : ∃ t past, (serverFlows 1 1 0).Run (t :: past) ∧
    t.passed = [.connected sampleId ⟨[]⟩] ∧ sampleSent = some (t.reactors 0).reactor ∧
    ∃ s more, (serverFlows 1 1 0).Run (s :: more) ∧
      s.pool.control = .stopped ∧ s.passed = [.connected sampleId ⟨[]⟩] := by
  have hsent : sampleSent.isSome = true := by decide +kernel
  obtain ⟨r', hr'⟩ := Option.isSome_iff_exists.mp hsent
  obtain ⟨r, hadd, hsend⟩ := Option.bind_eq_some_iff.mp hr'
  have hqueue : sampleAdded.map Reactor.pendingOperations = some [.send sampleId [1, 2, 3]] := by
    decide +kernel
  have htold : sampleAdded.map Reactor.submissions = some [(.connected sampleId ⟨[]⟩, true)] := by
    decide +kernel
  have hsame : sampleSent.map Reactor.submissions = some [(.connected sampleId ⟨[]⟩, true)] := by
    decide +kernel
  have hdone : sampleSent.map (fun r => (r.pendingOperations, r.isRunning)) = some ([], true) := by
    decide +kernel
  rw [hadd] at hqueue htold
  rw [hr'] at hsame hdone
  have haccept := start_single.next (Step.single_silent
    (System.Step.accept 5 ⟨[]⟩ (by decide) (by decide) rfl) (by simp) rfl)
  have henqueue := haccept.next (Step.single_silent
    (System.Step.enqueue (List.nil_append _).symm (by decide)) (by simp) rfl)
  have hrequest := henqueue.next (Step.single_silent
    (System.Step.request (.sendData sampleId [1, 2, 3]) (by simp [Request.Sized]) rfl) (by simp)
    rfl)
  have hqueued := hrequest.next (Step.single_silent
    (System.Step.enqueue (List.nil_append _).symm (by decide)) (by simp) rfl)
  have henter := hqueued.next (Step.single_silent
    (System.Step.loop (Loop.Step.enter rfl)) (by simp) rfl)
  have hadded := henter.next (Step.single_reactor
    (System.Step.loop (Loop.Step.process sampleEnvironment (by decide) rfl hadd)) (by simp)
    (show _ = _ ++ [(.connected sampleId ⟨[]⟩, true)] from Option.some.inj htold))
  have hsubmitted := hadded.next (Step.single_submit (.enqueued rfl rfl rfl))
  have hsent := hsubmitted.next (Step.single_silent
    (System.Step.loop
      (Loop.Step.process sampleEnvironment (by decide) (Option.some.inj hqueue) hsend)) (by simp)
      ((Option.some.inj hsame).trans (Option.some.inj htold).symm))
  have htest := hsent.next (ServerFlow.Step.worker 0 (.test rfl))
  have hwait := htest.next (ServerFlow.Step.worker 0 (.waitDequeue rfl
    (show ConcurrentQueue.waitDequeue false _ = some (_, _) from rfl)))
  have hcall := hwait.next (ServerFlow.Step.worker 0 (.call rfl))
  have hempty : r'.pendingOperations = [] := (Prod.mk.inj (Option.some.inj hdone)).1
  have hrunning : r'.isRunning = true := (Prod.mk.inj (Option.some.inj hdone)).2
  have hdrained := hcall.next (Step.single_silent
    (System.Step.loop (Loop.Step.drained (.inr hempty))) (by simp) rfl)
  have hstop := hdrained.next (Step.single_silent
    (System.Step.stop hrunning) (by simp) rfl)
  have hwaiting := hstop.next (Step.single_silent
    (System.Step.loop .notDue) (by simp) rfl)
  have htop := hwaiting.next (Step.single_silent
    (System.Step.loop .interrupted) (by simp) rfl)
  have hleft := htop.next (Step.single_silent
    (System.Step.loop (.leave (by simp))) (by simp) rfl)
  have hflagged := hleft.next (Step.single_silent
    (System.Step.stopQueue rfl) (by simp) rfl)
  have hnotified := hflagged.next (Step.single_silent
    (System.Step.stopWake rfl) (by simp) rfl)
  have hcleaned := hnotified.next (Step.single_silent
    (System.Step.stopCleanup { sampleEnvironment with order := r'.connections.keys.toList } rfl
      ⟨Finset.nodup_toList _, fun id => Finset.mem_toList.trans Finmap.mem_keys⟩ rfl) (by simp)
    (Reactor.cleanupAllConnections_submissions _ _))
  have hpool := hcleaned.next (.stopPool (.stop rfl rfl) (fun _ => rfl) rfl)
  have hnotify := hpool.next (.stopPool (.notifyStop rfl Nat.zero_lt_one) (fun _ => rfl) rfl)
  have hjoining := hnotify.next (.stopPool (.notified rfl) (fun _ => rfl) rfl)
  have hdraining := hjoining.next (.worker 0 (.test rfl))
  have hexited := hdraining.next (.worker 0 (.tryDequeue rfl rfl))
  have hjoined := hexited.next (.stopPool (.join rfl Nat.zero_lt_one rfl) (fun _ => rfl) rfl)
  have hstopped := hjoined.next (.stopPool (.stopped rfl) (fun _ => rfl) rfl)
  exact ⟨_, _, hcall, rfl, hr', _, _, hstopped, rfl, rfl⟩

theorem sample_flow : ∃ s past, (serverFlows 1 1 0).Run (s :: past) ∧
    s.pool.control = .stopped ∧ s.passed = [.connected sampleId ⟨[]⟩] := by
  obtain ⟨-, -, -, -, -, hstopped⟩ := sample_stages
  exact hstopped

end ServerFlow

end DarwinCore.Network
