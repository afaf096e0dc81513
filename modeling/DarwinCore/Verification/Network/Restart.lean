import DarwinCore.Model.Network.ReactorStart
import DarwinCore.Verification.Network.PoolShutdown
import DarwinCore.Verification.Network.RequestBooks

/-! # A reactor that is started again

`Start` gives the monitor a new `kqueue` before it finds that the reactor is running. What was
registered in the old one is not in the new one. After a `Stop`, a new `Start` succeeds, but the
queue stays stopped. -/

namespace DarwinCore.Network

namespace Startup

structure Keeps (u v : Startup) : Prop where
  kqueueFd : v.kqueueFd = u.kqueueFd
  readFilters : v.kernel.readFilters = u.kernel.readFilters
  writeFilters : v.kernel.writeFilters = u.kernel.writeFilters
  wakeupRegistered : v.monitor.wakeupRegistered = u.monitor.wakeupRegistered
  wakeup : v.kernel.wakeup = u.kernel.wakeup

variable {u : Startup} {answers : StartAnswers} {fd : ℕ}

/-! ## A further `Start` -/

theorem initializeMonitor_frame (answer : Option ℕ) (u : Startup) :
    (u.initializeMonitor answer).2.isRunning = u.isRunning ∧
      (u.initializeMonitor answer).2.kernel.openFds = u.kernel.openFds := by
  unfold initializeMonitor
  cases answer with
  | none =>
    dsimp only
    split <;> exact ⟨rfl, rfl⟩
  | some fd => exact ⟨rfl, rfl⟩

theorem initializeWakeupEvent_frame (success : Bool) (u : Startup) :
    (u.initializeWakeupEvent success).2.kernel = u.kernel ∧
      (u.initializeWakeupEvent success).2.isRunning = u.isRunning ∧
        (u.initializeWakeupEvent success).2.kqueueFd = u.kqueueFd := by
  unfold initializeWakeupEvent
  split <;> exact ⟨rfl, rfl, rfl⟩

/-- The test of `is_running_` fails, and whatever was done before it stays. -/
theorem start_running (h : u.isRunning = true) (answers : StartAnswers) :
    u.start answers = (false,
      if (u.initializeMonitor answers.kqueue).1 then
        ((u.initializeMonitor answers.kqueue).2.initializeWakeupEvent answers.kevent).2
      else (u.initializeMonitor answers.kqueue).2) := by
  have hopened := (initializeMonitor_frame answers.kqueue u).1.trans h
  unfold start
  dsimp only
  generalize u.initializeMonitor answers.kqueue = opened at hopened
  cases hsuccess : opened.1 with
  | false => rfl
  | true =>
    have hprepared := (initializeWakeupEvent_frame answers.kevent opened.2).2.1.trans hopened
    simp only [Bool.true_eq_false, if_false, if_true]
    generalize opened.2.initializeWakeupEvent answers.kevent = prepared at hprepared
    have htested : prepared.2.compareExchange = (false, prepared.2) := if_pos hprepared
    rw [htested]
    simp

/-- A `kqueue` that can be opened is the one that a running reactor is left with. -/
theorem start_kqueueFd (h : u.isRunning = true) (hkqueue : answers.kqueue = some fd) :
    (u.start answers).2.kqueueFd = fd := by
  rw [start_running h, hkqueue]
  exact (initializeWakeupEvent_frame answers.kevent (u.initializeMonitor (some fd)).2).2.2

theorem start_newQueue (h : u.isRunning = true) (hkqueue : answers.kqueue = some fd) :
    (u.start answers).2.kernel = u.kernel.newQueue := by
  rw [start_running h, hkqueue]
  exact (initializeWakeupEvent_frame answers.kevent (u.initializeMonitor (some fd)).2).1

/-- The monitor keeps its `kqueue` only if it had none and gets none. -/
theorem start_keeps_iff (h : u.isRunning = true) (hfresh : u.Fresh answers.kqueue) :
    u.Keeps (u.start answers).2 ↔ u.kqueueFd = -1 ∧ answers.kqueue = none := by
  constructor
  · intro hkeeps
    cases hkqueue : answers.kqueue with
    | some fd =>
      have hnew := start_kqueueFd h hkqueue
      exact absurd (hnew.symm.trans hkeeps.kqueueFd) (hfresh fd hkqueue).1
    | none =>
      refine ⟨?_, rfl⟩
      by_contra hopen
      have hkqueueOpen : u.kernel.kqueueOpen = true := by
        by_contra hclosed
        exact hopen (if_neg hclosed)
      have hlost : (u.start answers).2.kqueueFd = -1 := by
        simp [start, initializeMonitor, hkqueue, hkqueueOpen, Startup.kqueueFd, Kernel.closeQueue]
      exact hopen (hkeeps.kqueueFd.symm.trans hlost)
  · rintro ⟨hnone, hkqueue⟩
    have hclosed : ¬u.kernel.kqueueOpen = true := by
      intro hopen
      rw [Startup.kqueueFd, if_pos hopen] at hnone
      omega
    have hsame : u.start answers = (false, u) := by
      simp [start, initializeMonitor, hkqueue, hclosed]
    rw [hsame]
    exact ⟨rfl, rfl, rfl, rfl, rfl⟩

end Startup

theorem ManagedReactor.start_running {x : ManagedReactor}
    (h : x.system.reactor.isRunning = true) (answers : StartAnswers) :
    x.start answers = (false, x.setStartup (x.startup.start answers).2) := by
  have hresult : (x.startup.start answers).1 = false := by
    rw [Startup.start_running h]
  simp [start, hresult]

theorem ManagedReactor.start_readFilters {x : ManagedReactor} {answers : StartAnswers} {fd : ℕ}
    (h : x.system.reactor.isRunning = true) (hkqueue : answers.kqueue = some fd) :
    (x.start answers).2.system.reactor.kernel.readFilters = ∅ := by
  rw [start_running h]
  exact congrArg Kernel.readFilters (Startup.start_newQueue h hkqueue)

theorem ManagedClientReactor.start_running {x : ManagedClientReactor}
    (h : x.system.reactor.isRunning = true) (answers : StartAnswers) :
    x.start answers = (false, x.setStartup (x.startup.start answers).2) := by
  have hresult : (x.startup.start answers).1 = false := by
    rw [Startup.start_running h]
  simp [start, hresult]

/-- `Start` returns false, and the monitor and the connections are as they were. -/
structure ManagedReactor.StartIsHarmless (answers : StartAnswers) (x : ManagedReactor) : Prop where
  result : (x.start answers).1 = false
  keeps : x.startup.Keeps (x.start answers).2.startup
  connections : (x.start answers).2.system.reactor.connections = x.system.reactor.connections
  fds : (x.start answers).2.system.reactor.fdToConnectionId = x.system.reactor.fdToConnectionId

/-- `Start` returns false, and the monitor and the connection are as they were. -/
structure ManagedClientReactor.StartIsHarmless (answers : StartAnswers)
    (x : ManagedClientReactor) : Prop where
  result : (x.start answers).1 = false
  keeps : x.startup.Keeps (x.start answers).2.startup
  connection : (x.start answers).2.system.reactor.connection = x.system.reactor.connection
  hasConnection : (x.start answers).2.system.reactor.hasConnection = x.system.reactor.hasConnection

/-- The monitor of a running reactor keeps its `kqueue` at a further `Start` if and only if it has
none, since a `kqueue` could not be opened before, and again none can be opened. -/
theorem further_start_harmless_iff (answers : StartAnswers) :
    (∀ x : ManagedReactor, x.system.reactor.isRunning = true →
      x.startup.Fresh answers.kqueue →
        (x.StartIsHarmless answers ↔ x.startup.kqueueFd = -1 ∧ answers.kqueue = none)) ∧
    ∀ x : ManagedClientReactor, x.system.reactor.isRunning = true →
      x.startup.Fresh answers.kqueue →
        (x.StartIsHarmless answers ↔ x.startup.kqueueFd = -1 ∧ answers.kqueue = none) := by
  constructor
  · intro x hrunning hfresh
    have hstart := ManagedReactor.start_running hrunning answers
    rw [← Startup.start_keeps_iff hrunning hfresh]
    constructor
    · intro h
      have hkeeps := h.keeps
      rw [hstart] at hkeeps
      exact hkeeps
    · intro h
      refine ⟨congrArg Prod.fst hstart, ?_, ?_, ?_⟩
      all_goals rw [hstart]
      · exact h
      · rfl
      · rfl
  · intro x hrunning hfresh
    have hstart := ManagedClientReactor.start_running hrunning answers
    rw [← Startup.start_keeps_iff hrunning hfresh]
    constructor
    · intro h
      have hkeeps := h.keeps
      rw [hstart] at hkeeps
      exact hkeeps
    · intro h
      refine ⟨congrArg Prod.fst hstart, ?_, ?_, ?_⟩
      all_goals rw [hstart]
      · exact h
      · rfl
      · rfl

/-! ## The monitor is replaced -/

/-- The state `s` of a reactor that has been started, with its monitor. -/
def ManagedReactor.ofSystem (fd : ℕ) (s : System) : ManagedReactor :=
  ⟨s, { kqueue := fd, wakeupRegistered := true }, .returned true⟩

/-- The states of a started reactor are those of one that has had its first `Start`. -/
theorem ManagedReactor.of_reactors {reactorId : ℤ} {receiver : Receiver} {states : List System}
    (fd : ℕ) (h : (reactors reactorId receiver).Run states) :
    ∀ s past, states = s :: past → ∃ past', (managedReactors reactorId receiver).Run
      (.ofSystem fd s :: past') := by
  induction h with
  | start hinit =>
    rintro s past ⟨⟩
    obtain ⟨timeout, rfl⟩ := hinit
    have hconstruct : (managedReactors reactorId receiver).Run [_] := .start rfl
    have hset := hconstruct.next (Step.run (.setConnectionTimeout timeout) (.inl rfl))
    have hfresh : Startup.Fresh ⟨{}, { kqueueOpen := false }, false⟩ (some fd) := by
      rintro fd' ⟨⟩
      exact ⟨by simp [Startup.kqueueFd], by simp, by simp⟩
    have hopened := hset.next (Step.initializeMonitor (some fd) rfl (.inl rfl) hfresh)
    have hprepared := hopened.next (Step.initializeWakeupEvent true rfl)
    have hflagged := hprepared.next (Step.compareExchange rfl)
    exact ⟨_, hflagged.next (Step.createThread rfl)⟩
  | @next s t past hrun hstep ih =>
    rintro s' past' ⟨⟩
    obtain ⟨past', hmanaged⟩ := ih s past rfl
    have hnext := Step.run (x := .ofSystem fd s) hstep (.inr rfl)
    have hmute : t.mute (ofSystem fd s).monitor.wakeupRegistered = t := by
      simp [System.mute, ofSystem]
    rw [hmute] at hnext
    exact ⟨_, hmanaged.next hnext⟩

/-- The state `s` of a client reactor, with its monitor. -/
def ManagedClientReactor.ofSystem (fd : ℕ) (s : ClientSystem) : ManagedClientReactor :=
  ⟨s, { kqueue := fd, wakeupRegistered := true }⟩

/-- A running reactor with a connection is started again: the filter of the connection is not in
the new `kqueue`. The monitor of a client reactor has another `kqueue` as well. -/
theorem further_start_loses_filters :
    (∃ x past, (managedReactors 0 .workerPool).Run (x :: past) ∧
      x.system.reactor.isRunning = true ∧ x.startup.Fresh (some 10) ∧
      5 ∈ x.system.reactor.kernel.readFilters ∧
      (x.start ⟨some 10, true, true⟩).1 = false ∧
      5 ∉ (x.start ⟨some 10, true, true⟩).2.system.reactor.kernel.readFilters ∧
      ¬x.StartIsHarmless ⟨some 10, true, true⟩) ∧
    ∃ s past, (clientReactors .workerPool).Run (s :: past) ∧ s.reactor.isRunning = true ∧
      (ManagedClientReactor.ofSystem 9 s).startup.Fresh (some 10) ∧
      ¬(ManagedClientReactor.ofSystem 9 s).StartIsHarmless ⟨some 10, true, true⟩ := by
  constructor
  · obtain ⟨s, past, hrun, hsent, hstopping, -⟩ := sample_run
    have hfacts : sampleSent.map (fun r => (r.isRunning, r.kernel.kqueueOpen,
        decide (5 ∈ r.kernel.readFilters), decide (10 ∈ r.kernel.openFds))) =
          some (true, true, true, false) := by
      decide +kernel
    rw [hsent] at hfacts
    simp only [Option.map_some, Option.some.injEq, Prod.mk.injEq, decide_eq_true_eq,
      decide_eq_false_iff_not] at hfacts
    obtain ⟨hrunning, hopen, hfilter, hfree⟩ := hfacts
    obtain ⟨past', hmanaged⟩ := ManagedReactor.of_reactors 9 hrun s past rfl
    have hlost := ManagedReactor.start_readFilters (x := .ofSystem 9 s) hrunning
      (rfl : StartAnswers.kqueue ⟨some 10, true, true⟩ = some 10)
    refine ⟨_, past', hmanaged, hrunning, ?_, hfilter, ?_, ?_, fun hharmless => ?_⟩
    · rintro fd ⟨⟩
      refine ⟨?_, by simp [ManagedReactor.startup, ManagedReactor.ofSystem], hfree⟩
      simp [Startup.kqueueFd, ManagedReactor.startup, ManagedReactor.ofSystem, hopen]
    · rw [ManagedReactor.start_running hrunning]
    · rw [hlost]
      exact Finset.notMem_empty 5
    · have hkept := hharmless.keeps.readFilters.symm.trans hlost
      exact absurd (hkept ▸ hfilter) (Finset.notMem_empty 5)
  · refine ⟨_, _, .start ⟨∅, rfl⟩, rfl, ?_, fun hharmless => ?_⟩
    · rintro fd ⟨⟩
      exact ⟨by decide, by decide, by decide⟩
    · exact absurd hharmless.keeps.kqueueFd (by decide)

/-- A reactor that has been started twice, the second time without a `kqueue`. -/
def sampleUnmonitored : ManagedReactor :=
  (((ManagedReactor.construct 0 .workerPool).start ⟨some 9, true, true⟩).2.start
    ⟨none, true, true⟩).2

/-- Once the `kqueue` is lost, nothing more is lost while none can be opened. -/
theorem further_start_harmless_unmonitored :
    sampleUnmonitored.StartIsHarmless ⟨none, true, true⟩ ∧
      ¬(ManagedClientReactor.ofSystem 9
        { reactor := ClientReactor.started .workerPool ∅ }).StartIsHarmless ⟨none, true, true⟩ := by
  obtain ⟨hreactor, hclient⟩ := further_start_harmless_iff ⟨none, true, true⟩
  constructor
  · exact (hreactor sampleUnmonitored rfl nofun).mpr ⟨rfl, rfl⟩
  · exact fun hharmless => absurd ((hclient _ rfl nofun).mp hharmless).1 (by decide)

/-! ## The turns of the loop -/

/-- How many operations the loop has taken from the queue. -/
def System.opsProcessed (s : System) : ℕ :=
  s.reactor.stats.totalOpsProcessed + s.loop.batch

/-- How many turns the loop takes at most before it processes an operation, if there is one. -/
def Loop.turnsLeft : Loop → ℕ
  | top => 1
  | draining _ processed => if processed < maxBatchSize then 0 else eventBatchSize + 4
  | checkingTimeouts => eventBatchSize + 3
  | waiting => eventBatchSize + 2
  | handling events => events.length + 1
  | exited => 0

def Loop.WithinBatch : Loop → Prop
  | draining _ processed => processed ≤ maxBatchSize
  | _ => True

/-- What a turn of the loop is to the queue, while the reactor is running. -/
inductive System.LoopMove (s t : System) : Prop where
  | processes (env : Environment) (op : Operation) (rest : List Operation)
      (h : s.Processes t env op) (hs : s.reactor.pendingOperations = op :: rest)
      (ht : t.reactor.pendingOperations = rest) (hcount : t.opsProcessed = s.opsProcessed + 1)
  | other (hqueue : t.reactor.pendingOperations = s.reactor.pendingOperations)
      (hcount : t.opsProcessed = s.opsProcessed)
      (hturns : s.reactor.pendingOperations ≠ [] → t.loop.turnsLeft < s.loop.turnsLeft)

theorem Loop.turnsLeft_draining_le (which : Drain) (processed : ℕ) :
    (Loop.draining which processed).turnsLeft ≤ eventBatchSize + 4 := by
  simp only [Loop.turnsLeft]
  split <;> omega

theorem Drain.turnsLeft_next (which : Drain) : which.next.turnsLeft < eventBatchSize + 4 := by
  cases which <;> decide

theorem Loop.Step.loopMove {s : System} {r : Reactor} {loop : Loop}
    (hstep : Loop.Step (s.reactor, s.loop) (r, loop)) (hrest : s.AtRest)
    (hrunning : s.reactor.isRunning = true) (hloop : loop ≠ .exited) :
    s.LoopMove { s with reactor := r, loop := loop } := by
  obtain ⟨reactor, callers, before, stopping, nextPromise⟩ := s
  have hother {r : Reactor} {loop : Loop} (hcontrol : reactor.SameControl r)
      (hcounts : reactor.SameCounts r) (hbatch : loop.batch = before.batch)
      (hturns : loop.turnsLeft < before.turnsLeft) :
      System.LoopMove ⟨reactor, callers, before, stopping, nextPromise⟩
        ⟨r, callers, loop, stopping, nextPromise⟩ := by
    refine .other hcontrol.queue ?_ fun _ => hturns
    rw [System.opsProcessed, System.opsProcessed, hcounts.processed, hbatch]
  cases hstep with
  | enter => exact hother (.refl _) (.refl _) rfl (by decide)
  | leave hdown => exact absurd hrunning hdown
  | @process _ _ which processed env op rest hbatch hqueue hprocess =>
    have hcontrol := hrest.processOperation_sameControl env hqueue hprocess
    have hcounts := (hrest.processOperation_counts env hqueue hprocess).processed
    refine .processes env op rest ⟨which, processed, rest, rfl, rfl, hqueue, hprocess⟩ hqueue
      hcontrol.queue ?_
    exact (congrArg (· + (processed + 1)) hcounts).trans (Nat.add_assoc _ _ _).symm
  | @drained _ which processed hdone =>
    refine .other rfl ?_ fun hne => ?_
    · cases which <;> rfl
    · obtain rfl := hdone.resolve_right hne
      exact which.turnsLeft_next
  | notDue => exact hother (.refl _) (.refl _) rfl (by decide)
  | due env =>
    exact hother (reactor.checkTimeouts_sameControl env) (reactor.checkTimeouts_sameCounts env)
      rfl (by decide)
  | interrupted => exact hother (.refl _) (.refl _) rfl (by decide)
  | failed => exact absurd rfl hloop
  | woken events hevents =>
    have hturns : (Loop.handling events).turnsLeft < Loop.waiting.turnsLeft := by
      simp only [Loop.turnsLeft]
      omega
    refine .other ?_ ?_ fun _ => hturns
    · dsimp only
      split <;> rfl
    · unfold System.opsProcessed
      dsimp only
      split <;> rfl
  | @handle _ env event events =>
    have hturns : (Loop.handling events).turnsLeft < (Loop.handling (event :: events)).turnsLeft :=
      Nat.lt_succ_self _
    split
    · exact hother (.refl _) (.refl _) rfl hturns
    · exact hother (hrest.processKqueueEvent_sameControl env event)
        (Reactor.processKqueueEvent_sameCounts env event hrest.tables) rfl hturns
  | handled => exact hother (.refl _) (.refl _) rfl (by decide)

/-- The loop of a running reactor can always go on. -/
theorem System.exists_loopStep {s : System} (hrest : s.AtRest)
    (hrunning : s.reactor.isRunning = true) (hbatch : s.loop.WithinBatch)
    (hloop : s.loop ≠ .exited) :
    ∃ r loop, Loop.Step (s.reactor, s.loop) (r, loop) ∧ loop ≠ .exited := by
  obtain ⟨reactor, callers, loop, stopping, nextPromise⟩ := s
  cases loop with
  | top => exact ⟨_, _, .enter hrunning, nofun⟩
  | draining which processed =>
    by_cases hfull : processed = maxBatchSize
    · refine ⟨_, _, .drained (.inl hfull), ?_⟩
      cases which <;> nofun
    · cases hqueue : reactor.pendingOperations with
      | nil =>
        refine ⟨_, _, .drained (.inr hqueue), ?_⟩
        cases which <;> nofun
      | cons op rest =>
        obtain ⟨r, hprocess, -⟩ := hrest.processOperation sampleEnvironment hqueue
        have hlt : processed < maxBatchSize := Nat.lt_of_le_of_ne hbatch hfull
        exact ⟨r, _, .process sampleEnvironment hlt hqueue hprocess, nofun⟩
  | checkingTimeouts => exact ⟨_, _, .notDue, nofun⟩
  | waiting => exact ⟨_, _, .interrupted, nofun⟩
  | handling events =>
    cases events with
    | nil => exact ⟨_, _, .handled, nofun⟩
    | cons event events => exact ⟨_, _, .handle sampleEnvironment, nofun⟩
  | exited => exact absurd rfl hloop

theorem Loop.Step.withinBatch {state state' : Reactor × Loop} (h : Loop.Step state state') :
    state'.2.WithinBatch := by
  cases h with
  | process env hbatch => exact hbatch
  | @drained r which => cases which <;> trivial
  | enter => exact Nat.zero_le _
  | handled => exact Nat.zero_le _
  | _ => trivial

/-- Without a turn of the loop, operations can only come to the end of the queue. -/
theorem System.Step.loop_or {s t : System} (hstep : System.Step s t) :
    (∃ r loop, Loop.Step (s.reactor, s.loop) (r, loop) ∧
      t = { s with reactor := r, loop := loop }) ∨
    t.loop = s.loop ∧ t.opsProcessed = s.opsProcessed ∧
      ∃ added, t.reactor.pendingOperations = s.reactor.pendingOperations ++ added := by
  have hsame {t : System} (hloop : t.loop = s.loop)
      (hqueue : t.reactor.pendingOperations = s.reactor.pendingOperations)
      (hcount : t.reactor.stats.totalOpsProcessed = s.reactor.stats.totalOpsProcessed) :
      t.loop = s.loop ∧ t.opsProcessed = s.opsProcessed ∧
        ∃ added, t.reactor.pendingOperations = s.reactor.pendingOperations ++ added := by
    refine ⟨hloop, ?_, [], hqueue.trans (List.append_nil _).symm⟩
    rw [opsProcessed, opsProcessed, hloop, hcount]
  have hadded {fd : ℤ} {peer : SockAddr} {r r' : Reactor} {result : Option Operation}
      (hadd : r.addConnection fd peer = (result, r')) :
      r'.pendingOperations = r.pendingOperations ∧
        r'.stats.totalOpsProcessed = r.stats.totalOpsProcessed := by
    have hcontrol := r.addConnection_sameControl fd peer
    have hcounts := r.addConnection_counts fd peer
    rw [hadd] at hcontrol hcounts
    exact ⟨hcontrol.queue, hcounts.processed⟩
  have hrequested {req : Request} {r : Reactor} {result : Option Operation}
      (hreq : s.reactor.request s.nextPromise req = (result, r)) :
      r.pendingOperations = s.reactor.pendingOperations ∧
        r.stats.totalOpsProcessed = s.reactor.stats.totalOpsProcessed := by
    have hcontrol := s.reactor.request_sameControl s.nextPromise req
    have hcounts := s.reactor.request_counts s.nextPromise req
    rw [hreq] at hcontrol hcounts
    exact ⟨hcontrol.queue, hcounts.processed⟩
  cases hstep with
  | loop hloop => exact .inl ⟨_, _, hloop, rfl⟩
  | accept fd peer hfd hfresh hadd => exact .inr (hsame rfl (hadded hadd).1 (hadded hadd).2)
  | acceptRejected fd peer hfd hfresh hadd =>
    exact .inr (hsame rfl (hadded hadd).1 (hadded hadd).2)
  | addInvalid fd peer hfd hadd => exact .inr (hsame rfl (hadded hadd).1 (hadded hadd).2)
  | request req hsized hreq => exact .inr (hsame rfl (hrequested hreq).1 (hrequested hreq).2)
  | requestRejected req hsized hreq =>
    exact .inr (hsame rfl (hrequested hreq).1 (hrequested hreq).2)
  | @enqueue op => exact .inr ⟨rfl, rfl, [op], rfl⟩
  | @enqueueRejected op =>
    exact .inr (hsame rfl (s.reactor.reject_sameControl op).queue
      (s.reactor.reject_counts op).processed)
  | stopCleanup env =>
    exact .inr (hsame rfl (Reactor.cleanupAllConnections_sameControl env _).queue
      (Reactor.cleanupAllConnections_sameCounts env _).processed)
  | _ => exact .inr (hsame rfl rfl rfl)

/-! ## A reactor from its construction on -/

theorem System.AtRest.mute {s : System} (h : s.AtRest) (wakeupRegistered : Bool) :
    (s.mute wakeupRegistered).AtRest :=
  Reactor.AtRest.quiet h (.of_log rfl rfl rfl rfl rfl)

namespace ManagedReactor

/-- `Start` has returned true, and `Stop` has not been called since. -/
def Started (x : ManagedReactor) : Prop :=
  x.system.reactor.isRunning = true ∧ x.starting ≠ .flagged

/-- No `Stop` is in progress. -/
def Settled (x : ManagedReactor) : Prop :=
  x.system.stopping = .notCalled ∨ x.system.stopping = .returned

/-- The calls of `Start` and `Stop` come one after another. -/
structure Ordered (x : ManagedReactor) : Prop where
  rest : x.system.AtRest
  batch : x.system.loop.WithinBatch
  settled : x.starting.isOutside = false → x.Settled
  running : x.system.reactor.isRunning = true → x.Settled
  started : x.Started → x.system.stopping = .notCalled
  halting : x.system.stopping = .notified ∨ x.system.stopping = .joining →
    x.system.reactor.queueStopped = true

variable {x y : ManagedReactor} {past : List ManagedReactor} {following : Starting}
  {result : Bool × Startup}

/-- A call in `Start` that leaves `is_running_` alone. -/
theorem Ordered.goOn (h : x.Ordered) (hrunning : result.2.isRunning = x.system.reactor.isRunning)
    (hopen : result.2.kernel.openFds = x.system.reactor.kernel.openFds) (hsettled : x.Settled)
    (hflagged : x.starting ≠ .flagged) : (x.goOn following result).Ordered where
  rest := Reactor.AtRest.quiet h.rest (.of_log rfl rfl hopen rfl rfl)
  batch := h.batch
  settled _ := hsettled
  running _ := hsettled
  started hstarted := h.started ⟨hrunning.symm.trans hstarted.1, hflagged⟩
  halting := h.halting

theorem Ordered.run {s : System} (h : x.Ordered) (hstep : System.Step x.system s)
    (howner : s.stopping = x.system.stopping ∨ x.starting.isOutside) :
    Ordered { x with system := s.mute x.monitor.wakeupRegistered } := by
  have hrest := (hstep.atRest h.rest).mute x.monitor.wakeupRegistered
  have hbatch : s.loop.WithinBatch := by
    rcases hstep.loop_or with ⟨r, loop, hloop, rfl⟩ | ⟨hsame, -⟩
    · exact hloop.withinBatch
    · rw [hsame]
      exact h.batch
  -- in the middle of a `Stop` the reactor is not running, and the owner is not in `Start`
  have hstop (hunsettled : ¬x.Settled) (hrunning : s.reactor.isRunning = x.system.reactor.isRunning)
      (hhalting : s.stopping = .notified ∨ s.stopping = .joining →
        s.reactor.queueStopped = true) :
      Ordered { x with system := s.mute x.monitor.wakeupRegistered } := by
    have hdown (hup : s.reactor.isRunning = true) : False :=
      hunsettled (h.running (hrunning.symm.trans hup))
    exact ⟨hrest, hbatch, fun hinside => absurd (h.settled hinside) hunsettled,
      fun hup => (hdown hup).elim, fun hup => (hdown hup.1).elim, hhalting⟩
  cases hstep.flagMove h.rest with
  | same hrunning hqueue hkqueue hstopping hloop =>
    have hsettled (hx : x.Settled) :
        Settled { x with system := s.mute x.monitor.wakeupRegistered } :=
      hx.imp hstopping.trans hstopping.trans
    refine ⟨hrest, hbatch, fun hinside => hsettled (h.settled hinside),
      fun hup => hsettled (h.running (hrunning.symm.trans hup)), fun hup => ?_, fun hhalting => ?_⟩
    · exact hstopping.trans (h.started ⟨hrunning.symm.trans hup.1, hup.2⟩)
    · exact hqueue.trans (h.halting (hhalting.imp hstopping.symm.trans hstopping.symm.trans))
  | stop hs hrunning hqueue hkqueue ht =>
    have hdown : ¬s.reactor.isRunning = true := by simp [hrunning]
    refine ⟨hrest, hbatch, fun hinside => ?_, fun hup => absurd hup hdown,
      fun hup => absurd hup.1 hdown, fun hhalting => ?_⟩
    · rcases howner with hsame | houtside
      · have hflagged := hsame.symm.trans ht
        rcases h.running hs with hsettled | hsettled
        · cases hsettled.symm.trans hflagged
        · cases hsettled.symm.trans hflagged
      · exact absurd houtside (by simp [hinside])
    · rcases hhalting with hhalting | hhalting
      · cases hhalting.symm.trans ht
      · cases hhalting.symm.trans ht
  | stopQueue hs hrunning hqueue => exact hstop (by simp [Settled, hs]) hrunning fun _ => hqueue
  | stopWake hs hrunning hqueue =>
    exact hstop (by simp [Settled, hs]) hrunning fun _ => hqueue.trans (h.halting (.inl hs))
  | stopCleanup hs hrunning hqueue =>
    exact hstop (by simp [Settled, hs]) hrunning fun _ => hqueue.trans (h.halting (.inr hs))

theorem Step.ordered (hstep : Step x y) (h : x.Ordered) : y.Ordered := by
  cases hstep with
  | run hs howner => exact h.run hs howner
  | initializeMonitor answer howner hstopping hfresh =>
    obtain ⟨hrunning, hopen⟩ := Startup.initializeMonitor_frame answer x.startup
    exact h.goOn hrunning hopen hstopping (by rintro heq; simp [heq, Starting.isOutside] at howner)
  | initializeWakeupEvent success hx =>
    obtain ⟨hkernel, hrunning, -⟩ := Startup.initializeWakeupEvent_frame success x.startup
    have hsettled := h.settled (by rw [hx]; rfl)
    exact h.goOn hrunning (congrArg Kernel.openFds hkernel) hsettled (by simp [hx])
  | compareExchange hx =>
    have hsettled := h.settled (by rw [hx]; rfl)
    by_cases hrunning : x.system.reactor.isRunning = true
    · have htested : x.startup.compareExchange = (false, x.startup) := if_pos hrunning
      rw [htested]
      exact h.goOn rfl rfl hsettled (by simp [hx])
    · have htested : x.startup.compareExchange =
          (true, { x.startup with isRunning := true }) := if_neg hrunning
      rw [htested]
      exact ⟨Reactor.AtRest.quiet h.rest (.of_log rfl rfl rfl rfl rfl), h.batch,
        fun _ => hsettled, fun _ => hsettled, fun hstarted => absurd rfl hstarted.2, h.halting⟩
  | createThread hx =>
    refine ⟨Reactor.AtRest.quiet h.rest (.of_log rfl rfl rfl rfl rfl), trivial,
      fun _ => .inl rfl, fun _ => .inl rfl, fun _ => rfl, fun hhalting => ?_⟩
    rcases hhalting with hhalting | hhalting <;> cases hhalting
  | createThreadFailed hx =>
    exact ⟨Reactor.AtRest.quiet h.rest (.of_log rfl rfl rfl rfl rfl), h.batch, nofun, nofun,
      fun hstarted => Bool.noConfusion hstarted.1, h.halting⟩

theorem construct_ordered (reactorId : ℤ) (receiver : Receiver) :
    (construct reactorId receiver).Ordered where
  rest :=
    Reactor.AtRest.quiet (started_atRest reactorId receiver 60) (.of_log rfl rfl rfl rfl rfl)
  batch := trivial
  settled := nofun
  running := nofun
  started hstarted := Bool.noConfusion hstarted.1
  halting hhalting := by rcases hhalting with hhalting | hhalting <;> cases hhalting

structure Remembers (x : ManagedReactor) (past : List ManagedReactor) : Prop where
  ordered : x.Ordered
  stopped : ∀ u ∈ x :: past, u.system.stopping = .returned → x.system.reactor.queueStopped = true
  cause : x.system.reactor.queueStopped = true →
    (x.system.stopping = .notified ∨ x.system.stopping = .joining) ∨
      ∃ u ∈ x :: past, u.system.stopping = .returned

/-- A step that does not stop the queue. -/
theorem Remembers.next (h : x.Remembers past) (hy : y.Ordered)
    (hqueue : y.system.reactor.queueStopped = x.system.reactor.queueStopped)
    (hreturned : y.system.stopping = .returned →
      x.system.stopping = .returned ∨ x.system.stopping = .joining)
    (hhalting : x.system.stopping = .notified ∨ x.system.stopping = .joining →
      (y.system.stopping = .notified ∨ y.system.stopping = .joining) ∨
        y.system.stopping = .returned) : y.Remembers (x :: past) where
  ordered := hy
  stopped u hu hstopping := by
    rw [hqueue]
    rcases List.mem_cons.mp hu with rfl | hearlier
    · rcases hreturned hstopping with hbefore | hjoining
      · exact h.stopped x List.mem_cons_self hbefore
      · exact h.ordered.halting (.inr hjoining)
    · exact h.stopped u hearlier hstopping
  cause hstopped := by
    rw [hqueue] at hstopped
    rcases h.cause hstopped with hnow | ⟨u, hu, hbefore⟩
    · exact (hhalting hnow).imp_right fun hy => ⟨y, List.mem_cons_self, hy⟩
    · exact .inr ⟨u, List.mem_cons_of_mem y hu, hbefore⟩

theorem Step.remembers (hstep : Step x y) (h : x.Remembers past) : y.Remembers (x :: past) := by
  have hy := hstep.ordered h.ordered
  have hkeeps (hstopping : y.system.stopping = x.system.stopping)
      (hqueue : y.system.reactor.queueStopped = x.system.reactor.queueStopped) :
      y.Remembers (x :: past) :=
    h.next hy hqueue (fun hreturned => .inl (hstopping.symm.trans hreturned))
      fun hhalting => .inl (hhalting.imp hstopping.trans hstopping.trans)
  cases hstep with
  | run hs howner =>
    cases hs.flagMove h.ordered.rest with
    | same hrunning hqueue hkqueue hstopping => exact hkeeps hstopping hqueue
    | stop hup hrunning hqueue hkqueue ht =>
      refine h.next hy hqueue (fun hreturned => ?_) fun hhalting => ?_
      · cases ht.symm.trans hreturned
      · rcases h.ordered.running hup with hsettled | hsettled
        · rcases hhalting with hhalting | hhalting <;> cases hhalting.symm.trans hsettled
        · rcases hhalting with hhalting | hhalting <;> cases hhalting.symm.trans hsettled
    | stopQueue hflagged hrunning hqueue hkqueue ht =>
      exact ⟨hy, fun _ _ _ => hqueue, fun _ => .inl (.inl ht)⟩
    | stopWake hnotified hrunning hqueue hkqueue ht =>
      refine h.next hy hqueue (fun hreturned => ?_) fun _ => .inl (.inr ht)
      cases ht.symm.trans hreturned
    | stopCleanup hjoining hrunning hqueue ht =>
      exact h.next hy hqueue (fun _ => .inr hjoining) fun _ => .inr ht
  | createThread hx =>
    have hsettled := h.ordered.settled (by rw [hx]; rfl)
    refine h.next hy rfl (fun hreturned => by cases hreturned) fun hhalting => ?_
    rcases hsettled with hsettled | hsettled
    · rcases hhalting with hhalting | hhalting <;> cases hhalting.symm.trans hsettled
    · rcases hhalting with hhalting | hhalting <;> cases hhalting.symm.trans hsettled
  | _ => exact hkeeps rfl rfl

/-- Of a started reactor, the queue is stopped exactly if a `Stop` has returned before. -/
theorem queueStopped_iff {reactorId : ℤ} {receiver : Receiver} {states : List ManagedReactor}
    (hrun : (managedReactors reactorId receiver).Run states) (hx : x :: past <:+ states) :
    x.Ordered ∧ (x.Started → (x.system.reactor.queueStopped = true ↔
      ∃ u ∈ past, u.system.stopping = .returned)) := by
  have hall : ∀ x past, x :: past <:+ states → x.Remembers past := by
    refine hrun.invariant_past ?_ fun x y past h (hstep : Step x y) => hstep.remembers h
    rintro x rfl
    refine ⟨construct_ordered reactorId receiver, fun u hu hreturned => ?_, nofun⟩
    obtain rfl := List.mem_singleton.mp hu
    cases hreturned
  have h := hall x past hx
  refine ⟨h.ordered, fun hstarted => ⟨fun hstopped => ?_, fun ⟨u, hu, hreturned⟩ => ?_⟩⟩
  · have hnotCalled := h.ordered.started hstarted
    rcases h.cause hstopped with hnow | ⟨u, hu, hreturned⟩
    · rcases hnow with hnow | hnow <;> cases hnotCalled.symm.trans hnow
    · rcases List.mem_cons.mp hu with rfl | hearlier
      · cases hnotCalled.symm.trans hreturned
      · exact ⟨u, hearlier, hreturned⟩
  · exact h.stopped u (List.mem_cons_of_mem x hu) hreturned

/-! ## What is enqueued is processed -/

/-- A turn of the loop. `WaitEvents` does not fail. -/
def LoopTurn (x y : ManagedReactor) : Prop :=
  ∃ r loop, Loop.Step (x.system.reactor, x.system.loop) (r, loop) ∧ loop ≠ .exited ∧
    y = { x with
      system := { x.system with reactor := r, loop := loop }.mute x.monitor.wakeupRegistered }

/-- A step before the next `Stop`. `WaitEvents` does not fail. -/
def GoesOn (x y : ManagedReactor) : Prop :=
  Step x y ∧ y.Started ∧ y.system.loop ≠ .exited

/-- The loop takes `op` from the queue and processes it, after `before` other operations. -/
def Handles (op : Operation) (before : ℕ) (x y : ManagedReactor) : Prop :=
  x.system.opsProcessed = before ∧ ∃ s env, x.system.Processes s env op ∧
    y.system = s.mute x.monitor.wakeupRegistered

/-- Whatever the threads do, the loop comes to process the operation. -/
def WillHandle (op : Operation) (before : ℕ) : ManagedReactor → Prop :=
  TransitionSystem.Served GoesOn LoopTurn (Handles op before)

/-- `AddConnection`, `RemoveConnection` and `SendData` with valid arguments come to `Enqueue`,
and it returns true. -/
structure Accepts (x : ManagedReactor) : Prop where
  addConnection : ∀ fd peer, 0 ≤ fd →
    (x.system.reactor.addConnection fd peer).1 = some (.add fd peer)
  removeConnection : ∀ promise id,
    (x.system.reactor.request promise (.removeConnection id)).1 = some (.remove id)
  sendData : ∀ promise id data, data ≠ [] →
    (x.system.reactor.request promise (.sendData id data)).1 = some (.send id data)
  enqueue : x.system.reactor.queueStopped = false

/-- Requests are accepted, and what has been accepted is going to be processed. -/
structure Works (x : ManagedReactor) : Prop where
  accepts : x.Accepts
  goesOn : ∃ y, LoopTurn x y
  handles : ∀ before op after, x.system.reactor.pendingOperations = before ++ op :: after →
    WillHandle op (x.system.opsProcessed + before.length) x

structure Waits (op : Operation) (index turns : ℕ) (x : ManagedReactor) : Prop where
  ordered : x.Ordered
  started : x.Started
  loop : x.system.loop ≠ .exited
  queue : ∃ before after, x.system.reactor.pendingOperations = before ++ op :: after ∧
    index = x.system.opsProcessed + before.length ∧
      before.length * (eventBatchSize + 5) + x.system.loop.turnsLeft ≤ turns

theorem LoopTurn.goesOn (h : LoopTurn x y) (hx : x.Ordered) (hstarted : x.Started) :
    GoesOn x y := by
  obtain ⟨r, loop, hstep, hloop, rfl⟩ := h
  have hrun := Step.run (System.Step.loop hstep) (.inl rfl)
  obtain ⟨hrunning, -⟩ := hstep.flags hx.rest
  exact ⟨hrun, ⟨hrunning.trans hstarted.1, hstarted.2⟩, hloop⟩

theorem exists_loopTurn (hx : x.Ordered) (hstarted : x.Started) (hloop : x.system.loop ≠ .exited) :
    ∃ y, LoopTurn x y := by
  obtain ⟨r, loop, hstep, hnext⟩ := System.exists_loopStep hx.rest hstarted.1 hx.batch hloop
  exact ⟨_, r, loop, hstep, hnext, rfl⟩

variable {op : Operation} {index turns : ℕ}

/-- A turn of the loop brings the operation nearer to the front. -/
theorem Waits.turn (h : x.Waits op index turns) (hturn : LoopTurn x y)
    (hmiss : ¬Handles op index x y) : ∃ turns' < turns, y.Waits op index turns' := by
  obtain ⟨hstep, hstarted, hloop⟩ := hturn.goesOn h.ordered h.started
  have hy := hstep.ordered h.ordered
  obtain ⟨r, loop, hloopStep, hnext, rfl⟩ := hturn
  obtain ⟨before, after, hqueue, hindex, hturns⟩ := h.queue
  cases hloopStep.loopMove h.ordered.rest h.started.1 hnext with
  | processes env op' rest hprocesses hs ht hcount =>
    cases before with
    | nil =>
      obtain ⟨rfl, -⟩ := List.cons.inj (hs.symm.trans hqueue)
      exact absurd ⟨hindex.symm, _, env, hprocesses, rfl⟩ hmiss
    | cons first before =>
      obtain ⟨-, rfl⟩ := List.cons.inj (hs.symm.trans hqueue)
      obtain ⟨which, processed, -, -, hdraining, -⟩ := hprocesses
      have hleft : loop.turnsLeft ≤ eventBatchSize + 4 := by
        obtain rfl : loop = _ := hdraining
        exact Loop.turnsLeft_draining_le _ _
      have hnow : before.length * (eventBatchSize + 5) + loop.turnsLeft < turns := by
        rw [List.length_cons, Nat.add_mul] at hturns
        omega
      refine ⟨_, hnow, hy, hstarted, hloop, before, after, ht, ?_, Nat.le_refl _⟩
      rw [hindex, List.length_cons]
      have hcount' : System.opsProcessed { x.system with reactor := r, loop := loop } =
        x.system.opsProcessed + 1 := hcount
      change _ = System.opsProcessed { x.system with reactor := r, loop := loop } + _
      omega
  | other hsame hcount hless =>
    have hne : x.system.reactor.pendingOperations ≠ [] := by
      rw [hqueue]
      simp
    have hfewer : loop.turnsLeft < x.system.loop.turnsLeft := hless hne
    have hnow : before.length * (eventBatchSize + 5) + loop.turnsLeft < turns := by omega
    exact ⟨_, hnow, hy, hstarted, hloop, before, after, hsame.trans hqueue,
      hindex.trans (congrArg (· + before.length) hcount.symm), Nat.le_refl _⟩

/-- The others leave the operation where it is. -/
theorem Waits.others (h : x.Waits op index turns) (hgoes : GoesOn x y)
    (hmiss : ¬Handles op index x y) : ∃ turns' ≤ turns, y.Waits op index turns' := by
  obtain ⟨hstep, hstarted, hloop⟩ := hgoes
  have hy := hstep.ordered h.ordered
  have hcalled (hqueue : y.system.reactor.pendingOperations = x.system.reactor.pendingOperations)
      (hcount : y.system.opsProcessed = x.system.opsProcessed)
      (hsame : y.system.loop = x.system.loop) : ∃ turns' ≤ turns, y.Waits op index turns' := by
    obtain ⟨before, after, hsplit, hindex, hturns⟩ := h.queue
    exact ⟨turns, Nat.le_refl _, hy, hstarted, hloop, before, after, hqueue.trans hsplit,
      hcount.symm ▸ hindex, hsame.symm ▸ hturns⟩
  cases hstep with
  | run hs howner =>
    rcases hs.loop_or with ⟨r, loop, hloopStep, rfl⟩ | ⟨hsame, hcount, added, hadded⟩
    · obtain ⟨turns', hless, hwaits⟩ := h.turn ⟨r, loop, hloopStep, hloop, rfl⟩ hmiss
      exact ⟨turns', Nat.le_of_lt hless, hwaits⟩
    · obtain ⟨before, after, hqueue, hindex, hturns⟩ := h.queue
      refine ⟨turns, Nat.le_refl _, hy, hstarted, hloop, before, after ++ added, ?_,
        hindex.trans (congrArg (· + before.length) hcount.symm), ?_⟩
      · refine hadded.trans ?_
        rw [hqueue, List.append_assoc, List.cons_append]
      · exact (congrArg (_ + Loop.turnsLeft ·) hsame).trans_le hturns
  | createThread hx => exact absurd hx h.started.2
  | createThreadFailed hx => exact absurd hx h.started.2
  | _ => exact hcalled rfl rfl rfl

theorem Waits.willHandle (h : x.Waits op index turns) : WillHandle op index x :=
  TransitionSystem.served_of_within (Waits op index) h
    (fun _ _ _ ht hothers hmiss => ht.others hothers hmiss)
    (fun _ _ _ ht hturn hmiss => ht.turn hturn hmiss)
    fun _ _ ht => exists_loopTurn ht.ordered ht.started ht.loop

/-- A started reactor works exactly if no `Stop` has returned before, and its loop is there. -/
theorem works_iff {reactorId : ℤ} {receiver : Receiver} {states : List ManagedReactor}
    (hrun : (managedReactors reactorId receiver).Run states) (hx : x :: past <:+ states)
    (hstarted : x.Started) :
    x.Works ↔ (∀ u ∈ past, u.system.stopping ≠ .returned) ∧ x.system.loop ≠ .exited := by
  obtain ⟨hordered, hstopped⟩ := queueStopped_iff hrun hx
  constructor
  · intro hworks
    refine ⟨fun u hu hreturned => ?_, fun hexited => ?_⟩
    · have htrue := (hstopped hstarted).mpr ⟨u, hu, hreturned⟩
      rw [hworks.accepts.enqueue] at htrue
      cases htrue
    · obtain ⟨y, r, loop, hstep, -⟩ := hworks.goesOn
      exact (hstep.flags hordered.rest).2.2.2 hexited
  · rintro ⟨hnever, hloop⟩
    have hopen : x.system.reactor.queueStopped = false := by
      rw [← Bool.not_eq_true, hstopped hstarted]
      rintro ⟨u, hu, hreturned⟩
      exact hnever u hu hreturned
    refine ⟨⟨fun fd peer hfd => ?_, fun promise id => ?_, fun promise id data hdata => ?_, hopen⟩,
      exists_loopTurn hordered hstarted hloop, fun before op after hqueue => ?_⟩
    · simp [Reactor.addConnection, Reactor.count, hstarted.1, Int.not_lt.mpr hfd]
    · simp [Reactor.request, Reactor.count, hstarted.1]
    · simp [Reactor.request, Reactor.count, hstarted.1, hdata]
    · exact Waits.willHandle
        ⟨hordered, hstarted, hloop, before, after, hqueue, rfl, Nat.le_refl _⟩

end ManagedReactor

/-! ## Both components after a restart -/

/-- A started component works exactly if no `Stop` has returned before. The reactor also needs its
loop, which leaves when `WaitEvents` fails. -/
theorem restarted_works_iff (workerCount maxQueueSize : ℕ) (hasCallback : Bool) (reactorId : ℤ)
    (receiver : Receiver) :
    (∀ states, (workerPools workerCount maxQueueSize hasCallback).Run states →
      ∀ p past, p :: past <:+ states → p.control = .started →
        (p.Works ↔ ∀ q ∈ past, q.control ≠ .stopped)) ∧
    ∀ states, (managedReactors reactorId receiver).Run states →
      ∀ x past, x :: past <:+ states → x.Started →
        (x.Works ↔ (∀ u ∈ past, u.system.stopping ≠ .returned) ∧ x.system.loop ≠ .exited) := by
  constructor
  · intro states hrun p past hp hstarted
    exact WorkerPool.works_iff hrun hp hstarted
  · intro states hrun x past hx hstarted
    exact ManagedReactor.works_iff hrun hx hstarted

/-! ## A second `Start` -/

/-- A pool of one worker after its first `Start`. -/
def WorkerPool.sampleStarted : WorkerPool :=
  { (construct 1 0 true).setWorker 0 .testing with isRunning := true, control := .started }

theorem WorkerPool.sampleStarted_run : ∃ past, (workerPools 1 0 true).Run (sampleStarted :: past) ∧
    ∀ q ∈ past, q.control ≠ .stopped := by
  have hconstruct : (workerPools 1 0 true).Run [_] := .start rfl
  have hstart := hconstruct.next (.control (.start rfl rfl))
  have hcreated := hstart.next (.control (.create rfl Nat.one_pos))
  have hstarted := hcreated.next (.control (.started rfl))
  refine ⟨_, hstarted, ?_⟩
  simp [construct, setWorker]

def ManagedReactor.sampleStarted : ManagedReactor :=
  .ofSystem 9 { reactor := Reactor.started 0 .workerPool 60 }

theorem ManagedReactor.sampleStarted_run : ∃ past,
    (managedReactors 0 .workerPool).Run (sampleStarted :: past) ∧
      ∀ u ∈ past, u.system.stopping ≠ .returned := by
  have hconstruct : (managedReactors 0 .workerPool).Run [_] := .start rfl
  have hfresh : (construct 0 .workerPool).startup.Fresh (some 9) := by
    rintro fd ⟨⟩
    exact ⟨by decide, by decide, by decide⟩
  have hopened := hconstruct.next (Step.initializeMonitor (some 9) rfl (.inl rfl) hfresh)
  have hprepared := hopened.next (Step.initializeWakeupEvent true rfl)
  have hflagged := hprepared.next (Step.compareExchange rfl)
  have hstarted := hflagged.next (Step.createThread rfl)
  refine ⟨_, hstarted, ?_⟩
  simp [construct, goOn, setStartup]

/-- After `Start`, `Stop` and `Start` the queue of the worker is stopped. -/
theorem WorkerPool.second_start : ∃ p past, (workerPools 1 0 true).Run (p :: past) ∧
    p.control = .started ∧ p.workerCount = 1 ∧
      p.eventQueues 0 = { maxSize := 0, isStopped := true } := by
  obtain ⟨past, hrun, -⟩ := sampleStarted_run
  have hstop := hrun.next (.control (.stop rfl rfl))
  have hnotify := hstop.next (.control (.notifyStop rfl Nat.one_pos))
  have hnotified := hnotify.next (.control (.notified rfl))
  have hdrain := hnotified.next (.worker 0 (.test rfl))
  have hempty := hdrain.next (.worker 0 (.tryDequeue rfl rfl))
  have hjoin := hempty.next (.control (.join rfl Nat.one_pos rfl))
  have hstopped := hjoin.next (.control (.stopped rfl))
  have hstart := hstopped.next (.control (.start rfl rfl))
  have hcreated := hstart.next (.control (.create rfl Nat.one_pos))
  have hstarted := hcreated.next (.control (.started rfl))
  exact ⟨_, _, hstarted, rfl, rfl, rfl⟩

/-- After `Start`, `Stop` and `Start` the queue of the reactor is stopped. -/
theorem ManagedReactor.second_start : ∃ x past, (managedReactors 0 .workerPool).Run (x :: past) ∧
    x.Started ∧ x.system.reactor.queueStopped = true := by
  obtain ⟨past, hrun, -⟩ := sampleStarted_run
  have hstop := hrun.next (Step.run (.stop rfl) (.inr rfl))
  have hqueue := hstop.next (Step.run (.stopQueue rfl) (.inr rfl))
  have hwake := hqueue.next (Step.run (.stopWake rfl) (.inr rfl))
  have hleave := hwake.next (Step.run (.loop (.leave Bool.false_ne_true)) (.inr rfl))
  have hreturned := hleave.next
    (Step.run (.stopCleanup sampleEnvironment rfl ⟨List.nodup_nil, fun _ => Iff.rfl⟩ rfl)
      (.inr rfl))
  have hopened := hreturned.next (Step.initializeMonitor (some 10) rfl (.inr rfl) (by
    rintro fd ⟨⟩
    exact ⟨by decide, by decide, by decide⟩))
  have hprepared := hopened.next (Step.initializeWakeupEvent true rfl)
  have hflagged := hprepared.next (Step.compareExchange rfl)
  have hstarted := hflagged.next (Step.createThread rfl)
  exact ⟨_, _, hstarted, ⟨rfl, nofun⟩, rfl⟩

/-- Neither component works after a second `Start`: the empty queues refuse what is submitted. -/
theorem restarted_refuses :
    (∃ p past, (workerPools 1 0 true).Run (p :: past) ∧ p.control = .started ∧
      (p.eventQueues 0).queue = [] ∧
      (∀ submission : Submission, submission.tried = false → ∀ q,
        p.eventQueues (submission.worker p.workerCount) = q →
          WorkerPool.enqueue submission q = some (false, q)) ∧ ¬p.Works) ∧
    ∃ x past, (managedReactors 0 .workerPool).Run (x :: past) ∧ x.Started ∧
      x.system.reactor.queueStopped = true ∧ ¬x.Works := by
  constructor
  · obtain ⟨p, past, hrun, hstarted, hcount, hqueue⟩ := WorkerPool.second_start
    have hrefused (submission : Submission) (htried : submission.tried = false) :
        WorkerPool.enqueue submission (p.eventQueues 0) = some (false, p.eventQueues 0) := by
      unfold WorkerPool.enqueue
      rw [htried]
      exact ConcurrentQueue.enqueue_stopped (congrArg ConcurrentQueue.isStopped hqueue) submission
    have hworker (submission : Submission) : submission.worker p.workerCount = 0 := by
      rw [Submission.worker, hcount, Nat.mod_one]
    refine ⟨p, past, hrun, hstarted, congrArg ConcurrentQueue.queue hqueue, ?_, fun hworks => ?_⟩
    · rintro submission htried q rfl
      rw [hworker]
      exact hrefused submission htried
    · have haccepts := (hworks.accepts.enqueue sampleSubmission rfl _ rfl).1
      rw [hworker, hrefused sampleSubmission rfl, hqueue] at haccepts
      cases haccepts (.inl rfl)
  · obtain ⟨x, past, hrun, hstarted, hstopped⟩ := ManagedReactor.second_start
    refine ⟨x, past, hrun, hstarted, hstopped, fun hworks => ?_⟩
    cases hstopped.symm.trans hworks.accepts.enqueue

/-- Both work after the first `Start`. -/
theorem restarted_works_first :
    WorkerPool.sampleStarted.Works ∧ ManagedReactor.sampleStarted.Works := by
  obtain ⟨hpool, hreactor⟩ := restarted_works_iff 1 0 true 0 .workerPool
  obtain ⟨pools, hpools, hneverPool⟩ := WorkerPool.sampleStarted_run
  obtain ⟨reactors, hreactors, hneverReactor⟩ := ManagedReactor.sampleStarted_run
  constructor
  · exact (hpool _ hpools _ pools List.suffix_rfl rfl).mpr hneverPool
  · exact (hreactor _ hreactors _ reactors List.suffix_rfl ⟨rfl, nofun⟩).mpr
      ⟨hneverReactor, nofun⟩

end DarwinCore.Network
