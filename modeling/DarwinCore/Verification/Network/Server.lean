import DarwinCore.Model.Network.Server
import Mathlib.Data.List.Induction

/-! # What calls leave of a server

From what the calls meet alone, `Phase.next` says what they leave: nothing, a running server, or
threads that `Stop` does not end. The server follows it. -/

namespace DarwinCore.Network.Server

/-! ## What a start meets -/

def Options.workers (options : Options) : ℕ :=
  if options.workerCount = 0 then kDefaultWorkerCount else options.workerCount

/-- The number of reactors on so many processors. -/
def Options.reactors (options : Options) (hardwareConcurrency : ℕ) : ℕ :=
  if options.reactorCount = 0 then max 1 hardwareConcurrency else options.reactorCount

theorem Options.workers_pos (options : Options) : 0 < options.workers := by
  unfold Options.workers
  split
  · decide
  · exact Nat.pos_of_ne_zero ‹_›

theorem Options.reactors_pos (options : Options) (hardwareConcurrency : ℕ) :
    0 < options.reactors hardwareConcurrency := by
  unfold Options.reactors
  split
  · exact Nat.lt_of_lt_of_le Nat.zero_lt_one (Nat.le_max_left 1 _)
  · exact Nat.pos_of_ne_zero ‹_›

def ReactorSteps.Succeed (steps : ReactorSteps) : Prop :=
  steps.initializeMonitor ∧ steps.initializeWakeupEvent ∧ steps.thread

instance (steps : ReactorSteps) : Decidable steps.Succeed :=
  inferInstanceAs (Decidable (_ ∧ _ ∧ _))

/-- How `ListenGeneric` ends. -/
def ListenSteps.result (steps : ListenSteps) : CallResult :=
  if steps.initializeMonitor ∧ steps.createSocket.isSome ∧ steps.setNonBlocking ∧
      steps.reuseAddr ∧ steps.resolveAddress ∧ steps.bind ∧ steps.listen then
    if steps.thread then .returned true else .threw
  else .returned false

/-- How the two of `StartUniversalIP` end. -/
def CallResult.both : CallResult → CallResult → CallResult
  | .threw, _ => .threw
  | .returned _, .threw => .threw
  | .returned ipv4Ok, .returned ipv6Ok => .returned (ipv4Ok || ipv6Ok)

namespace Startup

/-- All threads of the worker pool can be created. -/
def WorkersStart (startup : Startup) (options : Options) : Prop :=
  ∀ i < options.workers, startup.workers i

def ReactorsStart (startup : Startup) (options : Options) : Prop :=
  ∀ i < options.reactors startup.hardwareConcurrency, (startup.reactors i).Succeed

instance (startup : Startup) (options : Options) : Decidable (startup.WorkersStart options) :=
  inferInstanceAs (Decidable (∀ i < _, startup.workers i = true))

instance (startup : Startup) (options : Options) : Decidable (startup.ReactorsStart options) :=
  inferInstanceAs (Decidable (∀ i < _, (startup.reactors i).Succeed))

end Startup

/-! ## Phases -/

inductive Phase where
  /-- Nothing. -/
  | stopped
  /-- After a failed start: the worker pool, and the reactors or not. -/
  | remaining (reactors : Bool)
  | running
  /-- A start has been ended by an exception. -/
  | interrupted
  deriving DecidableEq, Repr

namespace Phase

def afterListen : CallResult → Phase
  | .returned true => running
  | .returned false => remaining true
  | .threw => interrupted

def start (options : Options) (startup : Startup) (result : CallResult) : Phase → Phase
  | stopped =>
      if startup.WorkersStart options then
        if startup.ReactorsStart options then afterListen result else remaining false
      else stopped
  | remaining false =>
      if startup.ReactorsStart options then afterListen result else remaining false
  | remaining true => afterListen result
  | running => running
  | interrupted => interrupted

/-- `Stop` does something only if the server is running. -/
def stop : Phase → Phase
  | running => stopped
  | phase => phase

def next (options : Options) (phase : Phase) : Call → Phase
  | .startIPv4 startup steps => phase.start options startup steps.result
  | .startIPv6 startup steps => phase.start options startup steps.result
  | .startUniversalIP startup steps4 steps6 =>
      phase.start options startup (CallResult.both steps4.result steps6.result)
  | .startUnixDomain _ startup steps => phase.start options startup steps.result
  | .stop => phase.stop
  | .loopEnds _ _ => phase

def after (options : Options) (calls : List Call) : Phase := calls.foldl (next options) stopped

end Phase

/-! ## Worker pool -/

/-- What the loop over the workers has done. -/
structure WorkersCreated (creatable : ℕ → Bool) (threads : ServerThreads) (n : ℕ)
    (created : Bool × List ServerThread × ServerThreads) : Prop where
  grown : Threads.Grown threads created.2.1 created.2.2
  role : ∀ t ∈ created.2.1, t.role = .worker
  all : created.1 = true ↔ ∀ i < n, creatable i
  length : created.1 = true → created.2.1.length = n

theorem WorkerPool.createWorkers_created (creatable : ℕ → Bool) (threads : ServerThreads) (n : ℕ) :
    WorkersCreated creatable threads n (createWorkers creatable threads n) := by
  induction n with
  | zero =>
    rw [createWorkers]
    exact ⟨.refl threads, by simp, by simp, fun _ => rfl⟩
  | succ i ih =>
    rw [createWorkers]
    generalize createWorkers creatable threads i = created at ih
    obtain ⟨ok, workers, threads'⟩ := created
    cases ok with
    | true =>
      dsimp only
      split
      · next hi =>
          refine ⟨ih.grown.create .worker, fun t ht => ?_, ?_, ?_⟩
          · rcases List.mem_append.mp ht with hold | hnew
            · exact ih.role t hold
            · rw [List.mem_singleton.mp hnew, Threads.next_role]
          · rw [Nat.forall_lt_succ_right]
            simpa [hi] using ih.all
          · simpa using ih.length rfl
      · next hi =>
          refine ⟨ih.grown, ih.role, ?_, fun h => absurd h Bool.false_ne_true⟩
          rw [Nat.forall_lt_succ_right]
          simp [hi]
    | false =>
      refine ⟨ih.grown, ih.role, ?_, fun h => absurd h Bool.false_ne_true⟩
      rw [Nat.forall_lt_succ_right]
      exact ⟨fun h => absurd h Bool.false_ne_true, fun h => ih.all.mpr h.1⟩

structure PoolRuns (pool : WorkerPool) (threads : ServerThreads) : Prop where
  isRunning : pool.isRunning = true
  nonempty : pool.workerThreads ≠ []
  role : ∀ t ∈ pool.workerThreads, t.role = .worker
  alive : ∀ t ∈ pool.workerThreads, t ∈ threads.running

theorem initializeWorkerPool_cases (startup : Startup) (s : Server) :
    s.workerPool.isSome ∧ s.initializeWorkerPool startup = (true, s) ∨
    s.workerPool = none ∧ startup.WorkersStart s.options ∧
      (∃ pool threads, s.initializeWorkerPool startup =
          (true, { s with workerPool := some pool, threads := threads }) ∧
        PoolRuns pool threads ∧ Threads.Grown s.threads pool.workerThreads threads) ∨
    s.workerPool = none ∧ ¬ startup.WorkersStart s.options ∧
      ∃ threads, s.initializeWorkerPool startup = (false, { s with threads := threads }) ∧
        ∀ t ∈ threads.running, t ∈ s.threads.running := by
  cases hpool : s.workerPool with
  | some pool => exact .inl ⟨rfl, by simp [initializeWorkerPool, hpool]⟩
  | none =>
    have hcount : (WorkerPool.construct
        (if s.options.workerCount = 0 then kDefaultWorkerCount
        else s.options.workerCount)).workerCount =
        s.options.workers := by
      unfold WorkerPool.construct Options.workers
      split <;> simp_all [kDefaultWorkerCount]
    have hcreated :=
      WorkerPool.createWorkers_created startup.workers s.threads s.options.workers
    refine .inr ?_
    simp only [initializeWorkerPool, hpool, WorkerPool.start, hcount]
    rw [if_neg (by simp [WorkerPool.construct])]
    generalize WorkerPool.createWorkers startup.workers s.threads s.options.workers = created
      at hcreated
    obtain ⟨ok, workers, threads⟩ := created
    cases ok with
    | true =>
      have hne : workers ≠ [] := by
        intro hnil
        have hlength : workers.length = _ := hcreated.length rfl
        rw [hnil, List.length_nil] at hlength
        exact absurd hlength (Nat.ne_of_lt s.options.workers_pos)
      refine .inl ⟨trivial, hcreated.all.mp rfl, _, _, rfl, ?_, hcreated.grown⟩
      exact ⟨rfl, hne, hcreated.role, hcreated.grown.started⟩
    | false =>
      refine .inr ⟨trivial, fun h => Bool.false_ne_true (hcreated.all.mpr h), _, ?_,
        hcreated.grown.source_of_joinAll⟩
      simp [← hpool]

/-! ## Reactors -/

def reactorThreads (reactors : List Reactor) : List ServerThread :=
  reactors.flatMap fun reactor => reactor.eventLoopThread.toList

structure ReactorRuns (reactor : Reactor) : Prop where
  isRunning : reactor.isRunning = true
  role : ∀ t ∈ reactor.eventLoopThread, t.role ≠ .worker

theorem reactorThreads_role {reactors : List Reactor} (h : ∀ r ∈ reactors, ReactorRuns r) :
    ∀ t ∈ reactorThreads reactors, t.role ≠ .worker := by
  intro t ht
  obtain ⟨reactor, hr, htr⟩ := List.mem_flatMap.mp ht
  exact (h reactor hr).role t (Option.mem_toList.mp htr)

/-- `Stop` joins the threads of the reactors. -/
theorem stopReactors_eq {reactors : List Reactor} (h : ∀ r ∈ reactors, ReactorRuns r)
    (threads : ServerThreads) :
    stopReactors reactors threads = threads.joinAll (reactorThreads reactors) := by
  induction reactors generalizing threads with
  | nil => rfl
  | cons reactor reactors ih =>
    rw [List.forall_mem_cons] at h
    have hfirst : (reactor.stop threads).2 = threads.joinAll reactor.eventLoopThread.toList := by
      simp [Reactor.stop, h.1.isRunning]
    have hrest : stopReactors (reactor :: reactors) threads =
        stopReactors reactors (reactor.stop threads).2 := rfl
    rw [hrest, ih h.2, hfirst, ← Threads.joinAll_append]
    rfl

theorem Reactor.start_cases (steps : ReactorSteps) (i : ℕ) (threads : ServerThreads) :
    steps.Succeed ∧ (Reactor.start steps ({ reactorId := i } : Reactor) threads =
        (true, ⟨i, true, some (threads.next .reactor)⟩, threads.create .reactor)) ∨
    ¬ steps.Succeed ∧ Reactor.start steps ({ reactorId := i } : Reactor) threads =
        (false, { reactorId := i }, threads) := by
  unfold Reactor.start ReactorSteps.Succeed
  cases steps.initializeMonitor <;> cases steps.initializeWakeupEvent <;> cases steps.thread <;>
    simp

/-- What the loop over the reactors has done. -/
structure ReactorsCreated (startup : Startup) (threads : ServerThreads) (n : ℕ)
    (created : Bool × List Reactor × ServerThreads) : Prop where
  grown : Threads.Grown threads (reactorThreads created.2.1) created.2.2
  runs : ∀ r ∈ created.2.1, ReactorRuns r
  all : created.1 = true ↔ ∀ i < n, (startup.reactors i).Succeed
  length : created.1 = true → created.2.1.length = n

theorem createReactors_created (startup : Startup) (threads : ServerThreads) (n : ℕ) :
    ReactorsCreated startup threads n (createReactors startup threads n) := by
  induction n with
  | zero =>
    rw [createReactors]
    exact ⟨.refl threads, by simp, by simp, fun _ => rfl⟩
  | succ i ih =>
    rw [createReactors]
    generalize createReactors startup threads i = created at ih
    obtain ⟨ok, reactors, threads'⟩ := created
    cases ok with
    | true =>
      dsimp only
      rcases Reactor.start_cases (startup.reactors i) i threads' with
        ⟨hstart, hres⟩ | ⟨hstart, hres⟩
      · rw [hres]
        refine ⟨?_, ?_, ?_, ?_⟩
        · have hgrown := ih.grown.create .reactor
          simpa [reactorThreads] using hgrown
        · intro r hr
          rcases List.mem_append.mp hr with hold | hnew
          · exact ih.runs r hold
          · rw [List.mem_singleton.mp hnew]
            refine ⟨rfl, fun t ht => ?_⟩
            rw [← Option.some.inj ht, Threads.next_role]
            decide
        · rw [Nat.forall_lt_succ_right]
          simpa [hstart] using ih.all
        · simpa using ih.length rfl
      · rw [hres]
        refine ⟨ih.grown, ih.runs, ?_, fun h => absurd h Bool.false_ne_true⟩
        rw [Nat.forall_lt_succ_right]
        simp [hstart]
    | false =>
      refine ⟨ih.grown, ih.runs, ?_, fun h => absurd h Bool.false_ne_true⟩
      rw [Nat.forall_lt_succ_right]
      exact ⟨fun h => absurd h Bool.false_ne_true, fun h => ih.all.mpr h.1⟩

theorem initializeReactors_cases (startup : Startup) (s : Server) :
    s.reactors ≠ [] ∧ s.initializeReactors startup = (true, s) ∨
    s.reactors = [] ∧ startup.ReactorsStart s.options ∧
      (∃ count reactors threads, s.initializeReactors startup =
          (true, { s with reactorCount := count, reactors := reactors, threads := threads }) ∧
        reactors ≠ [] ∧ (∀ r ∈ reactors, ReactorRuns r) ∧
        Threads.Grown s.threads (reactorThreads reactors) threads) ∨
    s.reactors = [] ∧ ¬ startup.ReactorsStart s.options ∧
      ∃ count threads, s.initializeReactors startup =
          (false, { s with reactorCount := count, threads := threads }) ∧
        (∀ t ∈ threads.running, t ∈ s.threads.running) ∧
        ∀ t ∈ s.threads.running, t.role = .worker → t ∈ threads.running := by
  by_cases hreactors : s.reactors = []
  · refine .inr ?_
    have hcreated := createReactors_created startup s.threads
      (s.options.reactors startup.hardwareConcurrency)
    have hcount : (if s.options.reactorCount = 0 then max 1 startup.hardwareConcurrency
        else s.options.reactorCount) = s.options.reactors startup.hardwareConcurrency := rfl
    rw [initializeReactors, if_neg (not_not_intro hreactors)]
    simp only [hcount]
    generalize createReactors startup s.threads (s.options.reactors startup.hardwareConcurrency) =
      created at hcreated ⊢
    obtain ⟨ok, reactors, threads⟩ := created
    cases ok with
    | true =>
      refine .inl ⟨hreactors, hcreated.all.mp rfl, _, _, _, rfl, ?_, hcreated.runs,
        hcreated.grown⟩
      intro hnil
      have hlength : reactors.length = _ := hcreated.length rfl
      rw [hnil, List.length_nil] at hlength
      exact absurd hlength (Nat.ne_of_lt (s.options.reactors_pos _))
    | false =>
      refine .inr ⟨hreactors, fun h => Bool.false_ne_true (hcreated.all.mpr h),
        s.options.reactors startup.hardwareConcurrency, stopReactors reactors threads, ?_, ?_, ?_⟩
      · rw [hreactors]
      · simp only [stopReactors_eq hcreated.runs]
        exact hcreated.grown.source_of_joinAll
      · intro t ht hrole
        rw [stopReactors_eq hcreated.runs]
        refine Threads.mem_joinAll.mpr ⟨hcreated.grown.kept t ht, fun hmem => ?_⟩
        exact reactorThreads_role hcreated.runs t hmem hrole
  · exact .inl ⟨hreactors, by rw [initializeReactors, if_pos hreactors]⟩

/-! ## Acceptors -/

def acceptorThreads (acceptors : List Acceptor) : List ServerThread :=
  acceptors.flatMap fun acceptor => acceptor.acceptThread.toList

structure AcceptorRuns (acceptor : Acceptor) : Prop where
  isRunning : acceptor.isRunning = true
  role : ∀ t ∈ acceptor.acceptThread, t.role ≠ .worker

theorem stopAcceptors_eq {acceptors : List Acceptor} (h : ∀ a ∈ acceptors, AcceptorRuns a)
    (threads : ServerThreads) :
    stopAcceptors acceptors threads = threads.joinAll (acceptorThreads acceptors) := by
  induction acceptors generalizing threads with
  | nil => rfl
  | cons acceptor acceptors ih =>
    rw [List.forall_mem_cons] at h
    have hfirst : (acceptor.stop threads).2 = threads.joinAll acceptor.acceptThread.toList := by
      simp [Acceptor.stop, h.1.isRunning]
    have hrest : stopAcceptors (acceptor :: acceptors) threads =
        stopAcceptors acceptors (acceptor.stop threads).2 := rfl
    rw [hrest, ih h.2, hfirst, ← Threads.joinAll_append]
    rfl

/-- How listening with a new acceptor ends, and what it leaves. -/
structure Listens (listen : Acceptor → ServerThreads → CallResult × Acceptor × ServerThreads)
    (result : CallResult) : Prop where
  ends : ∀ threads, (listen {} threads).1 = result
  runs : result = .returned true → ∀ threads,
    AcceptorRuns (listen {} threads).2.1 ∧
      Threads.Grown threads (listen {} threads).2.1.acceptThread.toList (listen {} threads).2.2
  fails : result ≠ .returned true → ∀ threads,
    (listen {} threads).2.1.acceptThread = none ∧ (listen {} threads).2.2 = threads

theorem Acceptor.listenGeneric_listens (steps : ListenSteps) :
    Listens (listenGeneric steps) steps.result := by
  by_cases hlisten : steps.initializeMonitor ∧ steps.createSocket.isSome ∧ steps.setNonBlocking ∧
      steps.reuseAddr ∧ steps.resolveAddress ∧ steps.bind ∧ steps.listen
  · obtain ⟨hinit, hsocket, hblock, hreuse, hresolve, hbind, hlisten⟩ := hlisten
    obtain ⟨fd, hfd⟩ := Option.isSome_iff_exists.mp hsocket
    cases hthread : steps.thread with
    | true =>
      have hres : steps.result = .returned true := by
        simp [ListenSteps.result, hinit, hsocket, hblock, hreuse, hresolve, hbind, hlisten, hthread]
      have hlistens (threads : ServerThreads) : listenGeneric steps {} threads =
          (.returned true, ⟨some fd, true, some (threads.next .acceptor), ""⟩,
            threads.create .acceptor) := by
        simp [listenGeneric, hinit, hfd, hblock, hreuse, hresolve, hbind, hlisten, hthread]
      rw [hres]
      refine ⟨fun threads => by rw [hlistens], fun _ threads => ?_, fun h => absurd rfl h⟩
      rw [hlistens]
      refine ⟨⟨rfl, fun t ht => ?_⟩, (Threads.Grown.refl threads).create .acceptor⟩
      rw [← Option.some.inj ht, Threads.next_role]
      decide
    | false =>
      have hres : steps.result = .threw := by
        simp [ListenSteps.result, hinit, hsocket, hblock, hreuse, hresolve, hbind, hlisten, hthread]
      have hlistens (threads : ServerThreads) : listenGeneric steps {} threads =
          (.threw, ⟨some fd, true, none, ""⟩, threads) := by
        simp [listenGeneric, hinit, hfd, hblock, hreuse, hresolve, hbind, hlisten, hthread]
      rw [hres]
      refine ⟨fun threads => by rw [hlistens], fun h => by simp at h, fun _ threads => ?_⟩
      rw [hlistens]
      exact ⟨rfl, rfl⟩
  · have hres : steps.result = .returned false := if_neg hlisten
    have hlistens (threads : ServerThreads) :
        listenGeneric steps {} threads = (.returned false, {}, threads) := by
      unfold listenGeneric
      cases hfd : steps.createSocket with
      | none => simp
      | some fd => grind
    rw [hres]
    refine ⟨fun threads => by rw [hlistens], fun h => by simp at h, fun _ threads => ?_⟩
    rw [hlistens]
    exact ⟨rfl, rfl⟩

theorem Acceptor.listenUnixDomain_listens (path : String) (steps : ListenSteps) :
    Listens (listenUnixDomain path steps) steps.result := by
  have h := listenGeneric_listens steps
  have hpath (threads : ServerThreads) :
      listenUnixDomain path steps {} threads = ((listenGeneric steps {} threads).1,
        if steps.result = .returned true then
          { (listenGeneric steps {} threads).2.1 with unixSocketPath := path }
        else (listenGeneric steps {} threads).2.1,
        (listenGeneric steps {} threads).2.2) := by
    rw [← h.ends threads, listenUnixDomain]
    obtain ⟨result, acceptor, threads'⟩ := listenGeneric steps {} threads
    rcases result with (_ | _) | _ <;> simp
  refine ⟨fun threads => ?_, fun hok threads => ?_, fun hfail threads => ?_⟩
  · rw [hpath]
    exact h.ends threads
  · obtain ⟨hruns, hgrown⟩ := h.runs hok threads
    rw [hpath, if_pos hok]
    exact ⟨⟨hruns.isRunning, hruns.role⟩, hgrown⟩
  · rw [hpath, if_neg hfail]
    exact h.fails hfail threads

theorem createAndStartAcceptor_cases
    {listen : Acceptor → ServerThreads → CallResult × Acceptor × ServerThreads}
    {result : CallResult} (h : Listens listen result) (s : Server) :
    result = .returned true ∧ (∃ acceptor threads, s.createAndStartAcceptor listen =
        (result, { s with acceptors := s.acceptors ++ [acceptor], threads := threads }) ∧
      AcceptorRuns acceptor ∧ Threads.Grown s.threads acceptor.acceptThread.toList threads) ∨
    result ≠ .returned true ∧ s.createAndStartAcceptor listen = (result, s) := by
  have hresult := h.ends s.threads
  by_cases hok : result = .returned true
  · obtain ⟨hruns, hgrown⟩ := h.runs hok s.threads
    refine .inl ⟨hok, _, _, ?_, hruns, hgrown⟩
    rw [createAndStartAcceptor]
    generalize listen {} s.threads = listened at hresult
    obtain ⟨ended, acceptor, threads⟩ := listened
    subst hok
    obtain rfl : ended = .returned true := hresult
    rfl
  · obtain ⟨hnone, hthreads⟩ := h.fails hok s.threads
    refine .inr ⟨hok, ?_⟩
    have hjoin : ((listen {} s.threads).2.1.stop (listen {} s.threads).2.2).2 = s.threads := by
      rw [hthreads, Acceptor.stop, hnone]
      split <;> rfl
    rw [createAndStartAcceptor]
    generalize listen {} s.threads = listened at hresult hjoin
    obtain ⟨ended, acceptor, threads⟩ := listened
    obtain rfl : ended = result := hresult
    split
    · next heq => exact absurd (congrArg Prod.fst heq) hok
    · next heq =>
        obtain ⟨rfl, rfl, rfl⟩ : _ ∧ _ ∧ _ := by simpa using heq
        rw [hjoin]

/-! ## The server -/

def ownedThreads (s : Server) : List ServerThread :=
  s.workerPool.toList.flatMap (·.workerThreads) ++ reactorThreads s.reactors ++
    acceptorThreads s.acceptors

/-- Every thread that is running is one of a component, and every component runs. -/
structure Sound (s : Server) : Prop where
  owned : s.threads.OwnedBy s.ownedThreads
  pool : ∀ p ∈ s.workerPool, PoolRuns p s.threads
  reactors : ∀ r ∈ s.reactors, ReactorRuns r
  acceptors : ∀ a ∈ s.acceptors, AcceptorRuns a

def Phase.state : Phase → ServerState
  | stopped => .kStopped
  | remaining _ => .kStopped
  | running => .kRunning
  | interrupted => .kStarting

def Phase.Components : Phase → Server → Prop
  | stopped, s => s.workerPool = none ∧ s.reactors = [] ∧ s.acceptors = []
  | remaining reactors, s => s.workerPool.isSome ∧ (reactors = true ↔ s.reactors ≠ [])
  | _, s => s.workerPool.isSome

structure Follows (phase : Phase) (s : Server) : Prop where
  sound : s.Sound
  state : s.state = phase.state
  components : phase.Components s

theorem mem_ownedThreads {s : Server} {t : ServerThread} : t ∈ s.ownedThreads ↔
    (∃ p ∈ s.workerPool, t ∈ p.workerThreads) ∨ t ∈ reactorThreads s.reactors ∨
      t ∈ acceptorThreads s.acceptors := by
  simp [ownedThreads]

theorem PoolRuns.grow {pool : WorkerPool} {before after : ServerThreads} (h : PoolRuns pool before)
    (hkept : ∀ t ∈ before.running, t.role = .worker → t ∈ after.running) : PoolRuns pool after where
  isRunning := h.isRunning
  nonempty := h.nonempty
  role := h.role
  alive t ht := hkept t (h.alive t ht) (h.role t ht)

theorem Sound.initializeWorkerPool {s : Server} (h : s.Sound) (startup : Startup) :
    (s.initializeWorkerPool startup).2.Sound := by
  rcases initializeWorkerPool_cases startup s with ⟨-, hres⟩ |
    ⟨hnone, -, pool, threads, hres, hpool, hgrown⟩ | ⟨hnone, -, threads, hres, hsub⟩
  · rw [hres]
    exact h
  · rw [hres]
    refine ⟨h.owned.grow hgrown (fun t ht => ?_) fun t ht => ?_, ?_, h.reactors, h.acceptors⟩
    · rcases mem_ownedThreads.mp ht with ⟨p, hp, -⟩ | hrest
      · rw [hnone] at hp
        cases hp
      · exact mem_ownedThreads.mpr (.inr hrest)
    · exact mem_ownedThreads.mpr (.inl ⟨pool, rfl, ht⟩)
    · rintro p ⟨⟩
      exact hpool
  · rw [hres]
    refine ⟨fun t ht => h.owned t (hsub t ht), fun p hp => ?_, h.reactors, h.acceptors⟩
    rw [show s.workerPool = none from hnone] at hp
    cases hp

theorem Sound.initializeReactors {s : Server} (h : s.Sound) (startup : Startup) :
    (s.initializeReactors startup).2.Sound := by
  rcases initializeReactors_cases startup s with ⟨-, hres⟩ |
    ⟨hnil, -, count, reactors, threads, hres, -, hruns, hgrown⟩ |
    ⟨hnil, -, count, threads, hres, hsub, hkept⟩
  · rw [hres]
    exact h
  · rw [hres]
    refine ⟨h.owned.grow hgrown (fun t ht => ?_) fun t ht => ?_, fun p hp => ?_, hruns, h.acceptors⟩
    · rcases mem_ownedThreads.mp ht with hpool | hreactors | hacceptors
      · exact mem_ownedThreads.mpr (.inl hpool)
      · rw [hnil] at hreactors
        cases hreactors
      · exact mem_ownedThreads.mpr (.inr (.inr hacceptors))
    · exact mem_ownedThreads.mpr (.inr (.inl ht))
    · exact (h.pool p hp).grow fun t ht _ => hgrown.kept t ht
  · rw [hres]
    exact ⟨fun t ht => h.owned t (hsub t ht), fun p hp => (h.pool p hp).grow hkept, h.reactors,
      h.acceptors⟩

theorem Sound.createAndStartAcceptor {s : Server} (h : s.Sound)
    {listen : Acceptor → ServerThreads → CallResult × Acceptor × ServerThreads}
    {result : CallResult} (hlisten : Listens listen result) :
    (s.createAndStartAcceptor listen).2.Sound := by
  rcases createAndStartAcceptor_cases hlisten s with
    ⟨-, acceptor, threads, hres, hruns, hgrown⟩ | ⟨-, hres⟩
  · rw [hres]
    have hall : acceptorThreads (s.acceptors ++ [acceptor]) =
        acceptorThreads s.acceptors ++ acceptor.acceptThread.toList := by simp [acceptorThreads]
    refine ⟨h.owned.grow hgrown (fun t ht => ?_) fun t ht => ?_, fun p hp => ?_, h.reactors,
      fun a ha => ?_⟩
    · rw [mem_ownedThreads, hall, List.mem_append]
      rcases mem_ownedThreads.mp ht with hpool | hreactors | hacceptors
      · exact .inl hpool
      · exact .inr (.inl hreactors)
      · exact .inr (.inr (.inl hacceptors))
    · rw [mem_ownedThreads, hall, List.mem_append]
      exact .inr (.inr (.inr ht))
    · exact (h.pool p hp).grow fun t ht _ => hgrown.kept t ht
    · rcases List.mem_append.mp ha with hold | hnew
      · exact h.acceptors a hold
      · rwa [List.mem_singleton.mp hnew]
  · rw [hres]
    exact h

/-- What `start_func` does with the components. -/
structure Starts (startFunc : Server → CallResult × Server) (result : CallResult) : Prop where
  ends : ∀ s, (startFunc s).1 = result
  sound : ∀ s, s.Sound → (startFunc s).2.Sound
  frame : ∀ s, ∃ acceptors threads,
    (startFunc s).2 = { s with acceptors := acceptors, threads := threads }

theorem Listens.starts {listen : Acceptor → ServerThreads → CallResult × Acceptor × ServerThreads}
    {result : CallResult} (h : Listens listen result) :
    Starts (fun s => s.createAndStartAcceptor listen) result := by
  have hcases := createAndStartAcceptor_cases h
  refine ⟨fun s => ?_, fun s hs => hs.createAndStartAcceptor h, fun s => ?_⟩
  · rcases hcases s with ⟨-, _, _, hres, -⟩ | ⟨-, hres⟩ <;> rw [hres]
  · rcases hcases s with ⟨-, acceptor, threads, hres, -⟩ | ⟨-, hres⟩
    · exact ⟨_, _, congrArg Prod.snd hres⟩
    · exact ⟨_, _, congrArg Prod.snd hres⟩

theorem listenBoth_starts (steps4 steps6 : ListenSteps) :
    Starts (listenBoth steps4 steps6) (CallResult.both steps4.result steps6.result) := by
  have h4 := (Acceptor.listenGeneric_listens steps4).starts
  have h6 := (Acceptor.listenGeneric_listens steps6).starts
  have hboth (s : Server) : listenBoth steps4 steps6 s =
      (CallResult.both steps4.result steps6.result,
        if steps4.result = .threw then
          (s.createAndStartAcceptor (Acceptor.listenGeneric steps4)).2
        else
          ((s.createAndStartAcceptor (Acceptor.listenGeneric steps4)).2.createAndStartAcceptor
            (Acceptor.listenGeneric steps6)).2) := by
    rw [listenBoth, Acceptor.listenIPv4, Acceptor.listenIPv6]
    have hends4 := h4.ends s
    generalize s.createAndStartAcceptor (Acceptor.listenGeneric steps4) = first at hends4
    obtain ⟨result4, s'⟩ := first
    obtain rfl : result4 = _ := hends4
    cases hresult : steps4.result with
    | threw => rfl
    | returned ipv4Ok =>
      have hends6 := h6.ends s'
      dsimp only
      generalize s'.createAndStartAcceptor (Acceptor.listenGeneric steps6) = second at hends6
      obtain ⟨result6, s''⟩ := second
      obtain rfl : result6 = _ := hends6
      cases steps6.result <;> rfl
  refine ⟨fun s => by rw [hboth], fun s hs => ?_, fun s => ?_⟩
  · rw [hboth]
    dsimp only
    split
    · exact h4.sound s hs
    · exact h6.sound _ (h4.sound s hs)
  · rw [hboth]
    obtain ⟨acceptors, threads, hfirst⟩ := h4.frame s
    split
    · exact ⟨_, _, hfirst⟩
    · obtain ⟨acceptors', threads', hsecond⟩ := h6.frame
        (s.createAndStartAcceptor (Acceptor.listenGeneric steps4)).2
      refine ⟨acceptors', threads', hsecond.trans ?_⟩
      rw [show (s.createAndStartAcceptor (Acceptor.listenGeneric steps4)).2 = _ from hfirst]

/-- Whether all that is missing of the worker pool and the reactors can be started. -/
def Phase.CanInitialize (options : Options) (startup : Startup) : Phase → Prop
  | stopped => startup.WorkersStart options ∧ startup.ReactorsStart options
  | remaining false => startup.ReactorsStart options
  | _ => True

def Phase.uninitialized (options : Options) (startup : Startup) : Phase → Phase
  | stopped => if startup.WorkersStart options then remaining false else stopped
  | phase => phase

theorem Phase.start_of_canInitialize {options : Options} {startup : Startup} {phase : Phase}
    (hstate : phase.state = .kStopped) (h : phase.CanInitialize options startup)
    (result : CallResult) : phase.start options startup result = afterListen result := by
  cases phase with
  | stopped => simp [start, h.1, h.2]
  | remaining reactors =>
    cases reactors with
    | true => rfl
    | false => exact if_pos h
  | running => cases hstate
  | interrupted => cases hstate

theorem Phase.start_of_not_canInitialize {options : Options} {startup : Startup} {phase : Phase}
    (h : ¬ phase.CanInitialize options startup) (result : CallResult) :
    phase.start options startup result = phase.uninitialized options startup ∧
      (phase.uninitialized options startup).state = .kStopped := by
  cases phase with
  | stopped =>
    by_cases hworkers : startup.WorkersStart options
    · have hreactors : ¬ startup.ReactorsStart options := fun hr => h ⟨hworkers, hr⟩
      simp [start, uninitialized, hworkers, hreactors, Phase.state]
    · simp [start, uninitialized, hworkers, Phase.state]
  | remaining reactors =>
    cases reactors with
    | true => exact absurd trivial h
    | false => exact ⟨if_neg h, rfl⟩
  | running => exact absurd trivial h
  | interrupted => exact absurd trivial h

/-- What `InitializeReactors` leaves where there is a worker pool. -/
theorem initializeReactors_spec {s : Server} (hpool : s.workerPool.isSome)
    (startup : Startup) :
    (s.initializeReactors startup).2.workerPool.isSome ∧
    (s.initializeReactors startup).2.state = s.state ∧
    (s.initializeReactors startup).2.options = s.options ∧
    ((s.initializeReactors startup).1 = true ↔
      s.reactors ≠ [] ∨ startup.ReactorsStart s.options) ∧
    ((s.initializeReactors startup).1 = true ↔ (s.initializeReactors startup).2.reactors ≠ []) := by
  rcases initializeReactors_cases startup s with ⟨hne, hres⟩ |
    ⟨hnil, hstart, count, reactors, threads, hres, hne, -⟩ | ⟨hnil, hstart, count, threads, hres, -⟩
  · rw [hres]
    simp [hpool, hne]
  · rw [hres]
    simp [hpool, hne, hstart]
  · rw [hres]
    simp [hpool, hnil, hstart]

theorem initializeComponents_spec {s : Server} {phase : Phase} (h : s.Sound)
    (hcomponents : phase.Components s) (hstate : phase.state = .kStopped) (startup : Startup) :
    (s.initializeComponents startup).2.Sound ∧
    (s.initializeComponents startup).2.options = s.options ∧
    (s.initializeComponents startup).2.state = s.state ∧
    ((s.initializeComponents startup).1 = true ∧ phase.CanInitialize s.options startup ∧
        (s.initializeComponents startup).2.workerPool.isSome ∧
        (s.initializeComponents startup).2.reactors ≠ [] ∨
      (s.initializeComponents startup).1 = false ∧ ¬ phase.CanInitialize s.options startup ∧
        (phase.uninitialized s.options startup).Components
          (s.initializeComponents startup).2) := by
  have hpool := h.initializeWorkerPool startup
  have hboth := hpool.initializeReactors startup
  have hinit : s.initializeComponents startup =
      if (s.initializeWorkerPool startup).1 = true then
        (s.initializeWorkerPool startup).2.initializeReactors startup
      else s.initializeWorkerPool startup := by
    rw [initializeComponents]
    obtain ⟨ok, s'⟩ := s.initializeWorkerPool startup
    cases ok <;> rfl
  rcases initializeWorkerPool_cases startup s with ⟨hsome, hres⟩ |
    ⟨hnone, hworkers, pool, threads, hres, -⟩ | ⟨hnone, hworkers, threads, hres, -⟩
  · -- The pool is an earlier one.
    rw [hres] at hinit hboth
    rw [hinit, if_pos rfl]
    obtain ⟨hsome', hst, hopt, hok, hne⟩ := initializeReactors_spec hsome startup
    refine ⟨hboth, hopt, hst, ?_⟩
    cases phase with
    | stopped =>
      rw [hcomponents.1] at hsome
      cases hsome
    | remaining reactors =>
      cases hr : (s.initializeReactors startup).1 with
      | true =>
        refine .inl ⟨rfl, ?_, hsome', hne.mp hr⟩
        cases reactors with
        | true => trivial
        | false => exact (hok.mp hr).resolve_left fun h => by simpa using hcomponents.2.mpr h
      | false =>
        have hnot : ¬ (s.reactors ≠ [] ∨ startup.ReactorsStart s.options) :=
          fun h => by simpa [hr] using hok.mpr h
        rw [not_or] at hnot
        cases reactors with
        | true => exact absurd (hcomponents.2.mp rfl) hnot.1
        | false => exact .inr ⟨rfl, hnot.2, hsome', by simpa [hr] using hne⟩
    | running => cases hstate
    | interrupted => cases hstate
  · -- The pool is new.
    have hphase : phase = .stopped := by
      cases phase with
      | stopped => rfl
      | remaining reactors => exact absurd hcomponents.1 (by simp [hnone])
      | running => cases hstate
      | interrupted => cases hstate
    subst hphase
    rw [hres] at hinit hboth
    rw [hinit, if_pos rfl]
    obtain ⟨hsome', hst, hopt, hok, hne⟩ := initializeReactors_spec
      (s := { s with workerPool := some pool, threads := threads }) rfl startup
    refine ⟨hboth, hopt, hst, ?_⟩
    cases hr : (Server.initializeReactors startup
        { s with workerPool := some pool, threads := threads }).1 with
    | true =>
      refine .inl ⟨rfl, ⟨hworkers, ?_⟩, hsome', hne.mp hr⟩
      exact (hok.mp hr).resolve_left fun h => h hcomponents.2.1
    | false =>
      have hnot : ¬ startup.ReactorsStart s.options :=
        fun h => by simpa [hr] using hok.mpr (.inr h)
      refine .inr ⟨rfl, fun h => hnot h.2, ?_⟩
      rw [Phase.uninitialized, if_pos hworkers]
      exact ⟨hsome', by simpa [hr] using hne⟩
  · -- A worker cannot be created.
    have hphase : phase = .stopped := by
      cases phase with
      | stopped => rfl
      | remaining reactors => exact absurd hcomponents.1 (by simp [hnone])
      | running => cases hstate
      | interrupted => cases hstate
    subst hphase
    rw [hres] at hinit hpool
    rw [hinit, if_neg Bool.false_ne_true]
    refine ⟨hpool, rfl, rfl, .inr ⟨rfl, fun h => hworkers h.1, ?_⟩⟩
    rw [Phase.uninitialized, if_neg hworkers]
    exact hcomponents

theorem startInternal_spec {s : Server} {phase : Phase} (h : Follows phase s)
    {startFunc : Server → CallResult × Server} {result : CallResult}
    (hstart : Starts startFunc result) (startup : Startup) :
    Follows (phase.start s.options startup result) (startInternal startFunc startup s).2 ∧
      (startInternal startFunc startup s).2.options = s.options ∧
      (phase.state = .kStopped → phase.start s.options startup result = .running →
        (startInternal startFunc startup s).1 = .returned true) := by
  by_cases hstate : s.state = .kStopped
  · have hph : phase.state = .kStopped := h.state.symm.trans hstate
    have hsound : Sound { s with state := .kStarting } :=
      ⟨h.sound.owned, h.sound.pool, h.sound.reactors, h.sound.acceptors⟩
    have hcomponents : phase.Components { s with state := .kStarting } := by
      cases phase <;> exact h.components
    obtain ⟨hsound', hopt, hst, hcases⟩ := initializeComponents_spec hsound hcomponents hph startup
    rw [startInternal, if_neg (not_not_intro hstate)]
    generalize initializeComponents startup { s with state := .kStarting } = initialized
      at hsound' hopt hst hcases
    obtain ⟨ok, s'⟩ := initialized
    dsimp only at hsound' hopt hst hcases ⊢
    rcases hcases with ⟨rfl, hcan, hpool, hreactors⟩ | ⟨rfl, hcan, hleft⟩
    · dsimp only
      rw [Phase.start_of_canInitialize hph hcan]
      have hends := hstart.ends s'
      have hsound'' := hstart.sound s' hsound'
      obtain ⟨acceptors, threads, hframe⟩ := hstart.frame s'
      generalize startFunc s' = started at hends hsound'' hframe
      obtain ⟨ended, s''⟩ := started
      obtain rfl : ended = result := hends
      obtain rfl : s'' = _ := hframe
      rcases ended with (_ | _) | _
      · refine ⟨⟨⟨hsound''.owned, hsound''.pool, hsound''.reactors, hsound''.acceptors⟩, rfl, ?_⟩,
          hopt, fun _ h => by simp [Phase.afterListen] at h⟩
        exact ⟨hpool, by simpa using hreactors⟩
      · exact ⟨⟨⟨hsound''.owned, hsound''.pool, hsound''.reactors, hsound''.acceptors⟩, rfl, hpool⟩,
          hopt, fun _ _ => rfl⟩
      · exact ⟨⟨hsound'', hst, hpool⟩, hopt, fun _ h => by simp [Phase.afterListen] at h⟩
    · obtain ⟨hsame, hstopped⟩ := Phase.start_of_not_canInitialize hcan result
      rw [show phase.start s.options startup result = _ from hsame]
      refine ⟨⟨⟨hsound'.owned, hsound'.pool, hsound'.reactors, hsound'.acceptors⟩,
        hstopped.symm, ?_⟩, hopt, fun _ hrunning => ?_⟩
      · generalize phase.uninitialized _ startup = left at hleft hstopped
        cases left <;> exact hleft
      · have hrun : ServerState.kRunning = .kStopped := by
          rw [← hstopped]
          exact (congrArg Phase.state hrunning).symm
        cases hrun
  · have hsame : phase.start s.options startup result = phase := by
      cases phase with
      | stopped => exact absurd h.state hstate
      | remaining reactors => exact absurd h.state hstate
      | running => rfl
      | interrupted => rfl
    rw [startInternal, if_pos hstate, hsame]
    exact ⟨h, rfl, fun hstopped => absurd (h.state.trans hstopped) hstate⟩

/-- `Stop` of a running server leaves nothing. -/
theorem Follows.stop_running {s : Server} (h : Follows .running s) :
    Follows .stopped s.stop ∧ s.stop.options = s.options ∧ s.stop.threads.running = [] := by
  obtain ⟨pool, hpool⟩ := Option.isSome_iff_exists.mp h.components
  have hruns := h.sound.pool pool hpool
  have hthreads : (pool.stop (stopReactors s.reactors (stopAcceptors s.acceptors s.threads))).2 =
      ((s.threads.joinAll (acceptorThreads s.acceptors)).joinAll
        (reactorThreads s.reactors)).joinAll pool.workerThreads := by
    rw [WorkerPool.stop, if_pos hruns.isRunning, stopReactors_eq h.sound.reactors,
      stopAcceptors_eq h.sound.acceptors]
  have hstop : s.stop = { s with
      acceptors := [], reactors := [], workerPool := none, state := .kStopped
      threads := ((s.threads.joinAll (acceptorThreads s.acceptors)).joinAll
        (reactorThreads s.reactors)).joinAll pool.workerThreads } := by
    have hstate : s.state = .kRunning := h.state
    rw [← hthreads, Server.stop, if_pos hstate, hpool]
  have hnone : s.stop.threads.running = [] := by
    refine List.eq_nil_iff_forall_not_mem.mpr fun t ht => ?_
    rw [hstop] at ht
    simp only [Threads.mem_joinAll] at ht
    obtain ⟨⟨⟨ht, hacceptor⟩, hreactor⟩, hworker⟩ := ht
    rcases mem_ownedThreads.mp (h.sound.owned t ht) with ⟨p, hp, htp⟩ | htr | hta
    · rw [hpool] at hp
      cases hp
      exact hworker htp
    · exact hreactor htr
    · exact hacceptor hta
  refine ⟨⟨⟨?_, ?_, ?_, ?_⟩, ?_, ?_⟩, by rw [hstop], hnone⟩
  · intro t ht
    rw [hnone] at ht
    cases ht
  all_goals rw [hstop]
  · intro p hp
    cases hp
  · simp
  · simp
  · rfl
  · exact ⟨rfl, rfl, rfl⟩

/-- `Stop` does nothing in the other phases. -/
theorem Follows.stop_eq {s : Server} {phase : Phase} (h : Follows phase s)
    (hphase : phase ≠ .running) : s.stop = s := by
  have hstate : s.state ≠ .kRunning := by
    rw [h.state]
    cases phase <;> simp_all [Phase.state]
  rw [Server.stop, if_neg hstate]

theorem Follows.stop {s : Server} {phase : Phase} (h : Follows phase s) :
    Follows phase.stop s.stop ∧ s.stop.options = s.options := by
  by_cases hphase : phase = .running
  · subst hphase
    exact ⟨h.stop_running.1, h.stop_running.2.1⟩
  · have hsame : phase.stop = phase := by cases phase <;> simp_all [Phase.stop]
    rw [h.stop_eq hphase, hsame]
    exact ⟨h, rfl⟩

/-- One call. -/
theorem Follows.step {s : Server} {phase : Phase} (h : Follows phase s) (call : Call) :
    Follows (phase.next s.options call) (s.step call).2 ∧
      (s.step call).2.options = s.options := by
  cases call with
  | startIPv4 startup steps =>
    have hspec := startInternal_spec h (Acceptor.listenGeneric_listens steps).starts startup
    exact ⟨hspec.1, hspec.2.1⟩
  | startIPv6 startup steps =>
    have hspec := startInternal_spec h (Acceptor.listenGeneric_listens steps).starts startup
    exact ⟨hspec.1, hspec.2.1⟩
  | startUniversalIP startup steps4 steps6 =>
    have hspec := startInternal_spec h (listenBoth_starts steps4 steps6) startup
    exact ⟨hspec.1, hspec.2.1⟩
  | startUnixDomain path startup steps =>
    have hspec := startInternal_spec h (Acceptor.listenUnixDomain_listens path steps).starts startup
    exact ⟨hspec.1, hspec.2.1⟩
  | stop => exact h.stop
  | loopEnds thread hrole =>
    have howned : Threads.OwnedBy s.ownedThreads (s.threads.finish thread) :=
      fun t ht => h.sound.owned t (Threads.mem_finish.mp ht).1
    have hpool : ∀ p ∈ s.workerPool, PoolRuns p (s.threads.finish thread) := by
      refine fun p hp => (h.sound.pool p hp).grow fun t ht hworker => ?_
      refine Threads.mem_finish.mpr ⟨ht, fun heq => hrole ?_⟩
      rwa [← heq]
    refine ⟨⟨⟨howned, hpool, h.sound.reactors, h.sound.acceptors⟩, h.state, ?_⟩, rfl⟩
    have hcomponents := h.components
    cases phase <;> exact hcomponents

theorem follows_construct (options : Options) : Follows .stopped (construct options) where
  sound := ⟨by simp [construct, Threads.OwnedBy], by simp [construct], by simp [construct],
    by simp [construct]⟩
  state := rfl
  components := ⟨rfl, rfl, rfl⟩

theorem follows_after (options : Options) (calls : List Call) :
    Follows (Phase.after options calls) (after options calls) ∧
      (after options calls).options = options := by
  induction calls using List.reverseRecOn with
  | nil => exact ⟨follows_construct options, rfl⟩
  | append_singleton calls call ih =>
    obtain ⟨hfollows, hoptions⟩ := ih
    have hstep := hfollows.step call
    rw [hoptions] at hstep
    have hphase : Phase.after options (calls ++ [call]) =
        (Phase.after options calls).next options call := by
      rw [Phase.after, List.foldl_append]
      rfl
    have hafter : after options (calls ++ [call]) = ((after options calls).step call).2 :=
      Calls.run_concat (construct options) calls call
    rw [hphase, hafter]
    exact hstep

/-! ## Stopping -/

/-- Every system call of a start succeeds, and every thread can be created. -/
def Call.Succeeds (options : Options) : Call → Prop
  | .startIPv4 startup steps =>
      startup.WorkersStart options ∧ startup.ReactorsStart options ∧ steps.result = .returned true
  | .startIPv6 startup steps =>
      startup.WorkersStart options ∧ startup.ReactorsStart options ∧ steps.result = .returned true
  | .startUniversalIP startup steps4 steps6 =>
      startup.WorkersStart options ∧ startup.ReactorsStart options ∧
        steps4.result = .returned true ∧ steps6.result = .returned true
  | .startUnixDomain _ startup steps =>
      startup.WorkersStart options ∧ startup.ReactorsStart options ∧ steps.result = .returned true
  | .stop => False
  | .loopEnds _ _ => False

/-- `Stop` leaves no thread, and the server can be started after it. -/
structure StopsCompletely (s : Server) : Prop where
  noThreads : s.stop.threads.running = []
  startsAgain : ∀ call, call.Succeeds s.options → (s.stop.step call).1 = .returned true

theorem Follows.startsAgain {s : Server} (h : Follows .stopped s) {call : Call}
    (hcall : call.Succeeds s.options) : (s.step call).1 = .returned true := by
  have hstart {startFunc : Server → CallResult × Server} {startup : Startup}
      (hfunc : Starts startFunc (.returned true)) (hworkers : startup.WorkersStart s.options)
      (hreactors : startup.ReactorsStart s.options) :
      (startInternal startFunc startup s).1 = .returned true := by
    refine (startInternal_spec h hfunc startup).2.2 rfl ?_
    rw [Phase.start, if_pos hworkers, if_pos hreactors, Phase.afterListen]
  cases call with
  | startIPv4 startup steps =>
    obtain ⟨hworkers, hreactors, hsteps⟩ := hcall
    exact hstart (hsteps ▸ (Acceptor.listenGeneric_listens steps).starts) hworkers hreactors
  | startIPv6 startup steps =>
    obtain ⟨hworkers, hreactors, hsteps⟩ := hcall
    exact hstart (hsteps ▸ (Acceptor.listenGeneric_listens steps).starts) hworkers hreactors
  | startUniversalIP startup steps4 steps6 =>
    obtain ⟨hworkers, hreactors, hsteps4, hsteps6⟩ := hcall
    have hboth := listenBoth_starts steps4 steps6
    rw [hsteps4, hsteps6] at hboth
    exact hstart hboth hworkers hreactors
  | startUnixDomain path startup steps =>
    obtain ⟨hworkers, hreactors, hsteps⟩ := hcall
    exact hstart (hsteps ▸ (Acceptor.listenUnixDomain_listens path steps).starts) hworkers
      hreactors
  | stop => exact hcall.elim
  | loopEnds thread hrole => exact hcall.elim

/-- Where a start has failed after the worker pool was up, the workers go on. -/
theorem Follows.workers_remain {s : Server} {phase : Phase} (h : Follows phase s)
    (hpool : s.workerPool.isSome) : s.threads.running ≠ [] := by
  obtain ⟨pool, hpool⟩ := Option.isSome_iff_exists.mp hpool
  have hruns := h.sound.pool pool hpool
  obtain ⟨t, ht⟩ := List.exists_mem_of_ne_nil _ hruns.nonempty
  exact List.ne_nil_of_mem (hruns.alive t ht)

/-- `Stop` does its work after exactly the calls that leave nothing or a running server. -/
theorem stopsCompletely_iff (options : Options) (calls : List Call) :
    (after options calls).StopsCompletely ↔
      Phase.after options calls = .stopped ∨ Phase.after options calls = .running := by
  have h := (follows_after options calls).1
  generalize after options calls = s at h
  cases hphase : Phase.after options calls with
  | stopped =>
      rw [hphase] at h
      have hstop : s.stop = s := h.stop_eq (by simp)
      refine iff_of_true ⟨?_, fun call hcall => ?_⟩ (.inl rfl)
      · have howned : s.ownedThreads = [] := by
          obtain ⟨hpool, hreactors, hacceptors⟩ := h.components
          simp [ownedThreads, hpool, hreactors, hacceptors, reactorThreads, acceptorThreads]
        rw [hstop]
        exact Threads.ownedBy_nil.mp (howned ▸ h.sound.owned)
      · rw [hstop]
        exact h.startsAgain hcall
  | running =>
      rw [hphase] at h
      obtain ⟨hstopped, hoptions, hnone⟩ := h.stop_running
      refine iff_of_true ⟨hnone, fun call hcall => ?_⟩ (.inr rfl)
      rw [← hoptions] at hcall
      exact hstopped.startsAgain hcall
  | remaining reactors =>
      rw [hphase] at h
      refine iff_of_false (fun hstops => ?_) (by simp)
      refine h.workers_remain h.components.1 ?_
      rw [← h.stop_eq (by simp)]
      exact hstops.noThreads
  | interrupted =>
      rw [hphase] at h
      refine iff_of_false (fun hstops => ?_) (by simp)
      refine h.workers_remain h.components ?_
      rw [← h.stop_eq (by simp)]
      exact hstops.noThreads

/-- The port is taken: `bind` fails. -/
theorem failed_start_leaves_threads :
    ¬ (after {} [.startIPv4 ⟨fun _ => true, 1, fun _ => ⟨true, true, true⟩⟩
      ⟨true, some 3, true, true, true, false, true, true⟩]).StopsCompletely := by
  exact fun h => absurd h.noThreads (by decide)

end DarwinCore.Network.Server
