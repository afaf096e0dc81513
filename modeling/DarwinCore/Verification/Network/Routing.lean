import DarwinCore.Verification.Network.Freshness
import DarwinCore.Verification.Network.Server

/-! # Where sends go

The index of a reactor is cut down to eight bits when an id is made, and read back as an index
into the vector. -/

namespace DarwinCore.Network

/-! ## The vector of reactors -/

namespace Server

variable {s : Server}

/-- The reactors are numbered in their order. -/
def Indexed (s : Server) : Prop :=
  s.reactors.map (·.reactorId) = List.range s.reactors.length

theorem Indexed.getElem (h : s.Indexed) {i : ℕ} {q : Reactor} (hq : s.reactors[i]? = some q) :
    q.reactorId = i := by
  have hlt : i < s.reactors.length := (List.getElem?_eq_some_iff.mp hq).1
  have hid : (s.reactors.map (·.reactorId))[i]? = some q.reactorId := by
    rw [List.getElem?_map, hq]
    rfl
  rw [h, List.getElem?_range hlt] at hid
  exact (Option.some.inj hid).symm

theorem createReactors_ids (startup : Startup) (threads : ServerThreads) (n : ℕ) :
    (createReactors startup threads n).2.1.map (·.reactorId) =
      List.range (createReactors startup threads n).2.1.length := by
  induction n with
  | zero => rfl
  | succ i ih =>
    have hlength := (createReactors_created startup threads i).length
    rw [createReactors]
    generalize createReactors startup threads i = created at ih hlength
    obtain ⟨ok, reactors, threads'⟩ := created
    cases ok with
    | false => exact ih
    | true =>
      dsimp only at ih hlength ⊢
      rcases Reactor.start_cases (startup.reactors i) i threads' with ⟨-, hres⟩ | ⟨-, hres⟩
      · rw [hres]
        simp [ih, hlength rfl, List.range_succ]
      · rw [hres]
        exact ih

theorem Indexed.initializeWorkerPool (h : s.Indexed) (startup : Startup) :
    (s.initializeWorkerPool startup).2.Indexed := by
  rcases initializeWorkerPool_cases startup s with ⟨-, hres⟩ | ⟨-, -, pool, threads, hres, -⟩ |
    ⟨-, -, threads, hres, -⟩
  all_goals
    rw [hres]
    exact h

theorem Indexed.initializeReactors (h : s.Indexed) (startup : Startup) :
    (s.initializeReactors startup).2.Indexed := by
  unfold Server.initializeReactors
  split
  · exact h
  · dsimp only
    have hids := createReactors_ids startup s.threads
      (if s.options.reactorCount = 0 then max 1 startup.hardwareConcurrency
        else s.options.reactorCount)
    split
    · rename_i hcreated
      rw [hcreated] at hids
      exact hids
    · rfl

theorem Indexed.initializeComponents (h : s.Indexed) (startup : Startup) :
    (s.initializeComponents startup).2.Indexed := by
  have hpool := h.initializeWorkerPool startup
  unfold Server.initializeComponents
  split
  · rename_i hstarted
    rw [hstarted] at hpool
    exact hpool.initializeReactors startup
  · exact hpool

theorem Indexed.startInternal {startFunc : Server → CallResult × Server} {result : CallResult}
    (h : s.Indexed) (hstart : Starts startFunc result) (startup : Startup) :
    (s.startInternal startFunc startup).2.Indexed := by
  unfold Server.startInternal
  split
  · exact h
  · have hstarting : ({ s with state := .kStarting } : Server).Indexed := h
    have hcomponents := hstarting.initializeComponents startup
    split
    · rename_i hfailed
      rw [hfailed] at hcomponents
      exact hcomponents
    · rename_i s' hinitialized
      rw [hinitialized] at hcomponents
      have hframe : (startFunc s').2.Indexed := by
        obtain ⟨acceptors, threads, hs⟩ := hstart.frame s'
        rw [hs]
        exact hcomponents
      split
      all_goals
        rename_i hended
        rw [hended] at hframe
        exact hframe

theorem Indexed.stop (h : s.Indexed) : s.stop.Indexed := by
  unfold Server.stop
  split
  · dsimp only
    split <;> rfl
  · exact h

theorem Indexed.step (h : s.Indexed) (call : Call) : (s.step call).2.Indexed := by
  cases call with
  | startIPv4 startup steps =>
    exact h.startInternal (Acceptor.listenGeneric_listens steps).starts startup
  | startIPv6 startup steps =>
    exact h.startInternal (Acceptor.listenGeneric_listens steps).starts startup
  | startUniversalIP startup steps4 steps6 =>
    exact h.startInternal (listenBoth_starts steps4 steps6) startup
  | startUnixDomain path startup steps =>
    exact h.startInternal (Acceptor.listenUnixDomain_listens path steps).starts startup
  | stop => exact h.stop
  | loopEnds thread hrole => exact h

/-- Whatever was called, reactor `i` is the one at index `i`. -/
theorem indexed_after (options : Options) (calls : List Call) : (after options calls).Indexed :=
  Calls.run_invariant (fun _ call h (_ : True) => h.step call) rfl
    (Calls.permitted_of_forall fun _ _ => trivial)

end Server

/-! ## Ids and indices -/

open ConnectionIdGenerator

theorem getReactorId_eq_parse (connId : UInt64) : getReactorId connId = (parse connId).2.1 :=
  rfl

theorem ofInt_toInt (i : ℕ) : (UInt8.ofInt (toInt i)).toNat = i % 256 := by
  have hdvd : (256 : ℤ) ∣ toInt i - i :=
    Dvd.dvd.trans ⟨2 ^ 24, rfl⟩ (Int.dvd_bmod_sub_self (x := (i : ℤ)) (m := 2 ^ 32))
  have hcast : (UInt8.ofInt (toInt i)).toNat = (toInt i % 256).toNat := by
    simp [UInt8.ofInt]
    omega
  rw [hcast]
  omega

/-- An id that reactor `i` generates leads to index `i % 256`. -/
theorem Reactor.Adding.getReactorId {r r' : Reactor} {generated : List Reactor.Generated} {i : ℕ}
    (h : Reactor.Adding r generated r') (hid : r.reactorId = toInt i) :
    ∀ g ∈ generated, (ConnectionIdGenerator.getReactorId g.id).toNat = i % 256 := by
  intro g hg
  obtain ⟨-, hfields⟩ := h.fields g hg
  rw [getReactorId_eq_parse, hfields, hid]
  exact ofInt_toInt i

/-! ## Sends -/

/-- The reactors of `server`, each at some point of its run before `Stop`. -/
structure ServerSends.Views (s : ServerSends) (server : Server) : Prop where
  state : s.state = server.state
  reactors : List.Forall₂ (fun q r => ∃ t past,
    (Network.reactors (toInt q.reactorId) .workerPool).Run (t :: past) ∧ t.stopping = .notCalled ∧
      r = t.reactor) server.reactors s.reactors

/-- `SendData` succeeds, and the queue of reactor `i` is the only one it appends to. -/
def ServerSends.EnqueuesOn (s : ServerSends) (i : ℕ) (id : UInt64) (data : List UInt8) : Prop :=
  (s.sendData id data).1 = true ∧
    (s.sendData id data).2.reactors.map (·.pendingOperations) =
      (s.reactors.map (·.pendingOperations)).modify i (· ++ [.send id data])

theorem Reactor.sendData_taken {r : Reactor} (hrunning : r.isRunning = true)
    (hopen : r.queueStopped = false) (id : UInt64) {data : List UInt8} (hdata : data ≠ []) :
    (r.sendData id data).1 = true ∧
      (r.sendData id data).2.pendingOperations = r.pendingOperations ++ [.send id data] := by
  have hrequest : r.request 0 (.sendData id data) = (some (.send id data),
      r.count fun s => { s with totalSendRequests := s.totalSendRequests + 1 }) := by
    simp [Reactor.request, Reactor.count, hdata, hrunning]
  rw [Reactor.sendData, hrequest]
  simp [Reactor.count, hopen, Reactor.push, Reactor.triggerWakeup]

namespace ServerSends

variable {s : ServerSends} {server : Server}

theorem Views.length (h : s.Views server) : s.reactors.length = server.reactors.length :=
  h.reactors.length_eq.symm

theorem Views.open (h : s.Views server) : ∀ r ∈ s.reactors,
    r.isRunning = true ∧ r.queueStopped = false := by
  intro r hr
  obtain ⟨q, hq⟩ := Lists.exists_left_of_mem h.reactors hr
  obtain ⟨t, past, hrun, hstopping, rfl⟩ := hq.2
  obtain ⟨-, hphase⟩ := reactors_phase hrun t List.mem_cons_self
  refine ⟨hphase.running.mpr hstopping, ?_⟩
  rw [← Bool.not_eq_true, hphase.stopped, hstopping]
  simp

theorem ofServer_views (server : Server) : (ofServer server).Views server := by
  refine ⟨rfl, ?_⟩
  rw [ofServer, List.forall₂_map_right_iff]
  exact List.forall₂_same.mpr fun q _ => ⟨_, [], .start ⟨60, rfl⟩, rfl, rfl⟩

theorem Views.enqueuesOn_named (h : s.Views server) (hrunning : s.isRunning = true) {id : UInt64}
    (hid : (getReactorId id).toNat < s.reactors.length) {data : List UInt8} (hdata : data ≠ []) :
    s.EnqueuesOn (getReactorId id).toNat id data := by
  have hget : s.reactors[(getReactorId id).toNat]? = some s.reactors[(getReactorId id).toNat] :=
    List.getElem?_eq_getElem hid
  generalize s.reactors[(getReactorId id).toNat] = r at hget
  obtain ⟨hr, hopen⟩ := h.open r (List.mem_of_getElem? hget)
  obtain ⟨hsuccess, hqueue⟩ := r.sendData_taken hr hopen id hdata
  have hnonempty : s.reactors.isEmpty = false := by
    rw [List.isEmpty_eq_false_iff_exists_mem]
    exact ⟨r, List.mem_of_getElem? hget⟩
  have hmap := Lists.map_set_eq_modify (f := Reactor.pendingOperations)
    (g := (· ++ [.send id data])) hget hqueue
  unfold EnqueuesOn sendData
  simp only [hdata, if_false, hrunning, not_true_eq_false, hnonempty, Bool.false_eq_true, hget,
    hsuccess, if_true, hmap, and_self]

theorem EnqueuesOn.unique {i j : ℕ} {id : UInt64} {data : List UInt8} (hi : s.EnqueuesOn i id data)
    (hj : s.EnqueuesOn j id data) (hlt : j < s.reactors.length) : i = j := by
  refine (Lists.modify_inj (g := (· ++ [Operation.send id data])) (fun queue => by simp) ?_).mp
    (hi.2.symm.trans hj.2)
  rwa [List.length_map]

end ServerSends

/-- Whatever was called and wherever its reactors are, a running server enqueues a send with an id
that reactor `i` generated on reactor `i` exactly if `i` fits in eight bits. -/
theorem sends_routed_iff {options : Server.Options} {calls : List Server.Call} {s : ServerSends}
    (hviews : s.Views (Server.after options calls)) (hrunning : s.isRunning = true) {i : ℕ}
    {q : Server.Reactor} (hq : (Server.after options calls).reactors[i]? = some q)
    {r r' : Reactor} {generated : List Reactor.Generated} (hid : r.reactorId = toInt q.reactorId)
    (hadding : Reactor.Adding r generated r') {g : Reactor.Generated} (hg : g ∈ generated)
    {data : List UInt8} (hdata : data ≠ []) : s.EnqueuesOn i g.id data ↔ i < 256 := by
  have hindex : q.reactorId = i := (Server.indexed_after options calls).getElem hq
  have hnamed : (getReactorId g.id).toNat = i % 256 :=
    hadding.getReactorId (hid.trans (congrArg toInt hindex)) g hg
  have hlt : i < s.reactors.length := by
    rw [hviews.length]
    exact (List.getElem?_eq_some_iff.mp hq).1
  have hsent := hviews.enqueuesOn_named hrunning
    (hnamed ▸ Nat.lt_of_le_of_lt (Nat.mod_le i 256) hlt) hdata
  rw [hnamed] at hsent
  constructor
  · intro h
    have hsame := hsent.unique h hlt
    omega
  · intro hsmall
    rwa [Nat.mod_eq_of_lt hsmall] at hsent

/-! ## Two servers -/

/-- A start in which everything succeeds, on a machine with four processors. -/
def sampleStart : Server.Call :=
  .startIPv4 ⟨fun _ => true, 4, fun _ => ⟨true, true, true⟩⟩
    ⟨true, some 3, true, true, true, true, true, true⟩

def firstId (i : ℕ) : UInt64 :=
  (Reactor.started (toInt i) .workerPool 60).generatedId sampleEnvironment 5

theorem firstId_generated (i : ℕ) : ∃ r',
    Reactor.Adding (Reactor.started (toInt i) .workerPool 60) [⟨5, 1, firstId i⟩] r' :=
  ⟨_, .call sampleEnvironment 5 ⟨[]⟩ (by simp [Reactor.started]) .done⟩

theorem firstId_reactorId (i : ℕ) : (getReactorId (firstId i)).toNat = i % 256 := by
  obtain ⟨r', hadding⟩ := firstId_generated i
  have hid (n : ℤ) : (Reactor.started n .workerPool 60).reactorId = n := rfl
  exact hadding.getReactorId (hid (toInt i)) ⟨5, 1, firstId i⟩ List.mem_cons_self

/-- Of two reactors, the second one gets what is sent on its connection. -/
theorem sends_routed_second :
    (ServerSends.ofServer (Server.after { reactorCount := 2 } [sampleStart])).EnqueuesOn 1
      (firstId 1) [7] := by
  obtain ⟨r', hadding⟩ := firstId_generated 1
  obtain ⟨q, hq⟩ : ∃ q, (Server.after { reactorCount := 2 } [sampleStart]).reactors[1]? = some q :=
    Option.isSome_iff_exists.mp (by decide)
  have hid : q.reactorId = 1 := (Server.indexed_after _ _).getElem hq
  exact (sends_routed_iff (ServerSends.ofServer_views _) (by decide) hq
    (congrArg toInt hid).symm hadding List.mem_cons_self (List.cons_ne_nil 7 [])).mpr (by decide)

/-- With more than 256 reactors, the first one gets what is sent on a connection of the one at
index 256. -/
theorem ServerSends.misroutes {server : Server} (hstate : server.state = .kRunning)
    (hmany : 256 < server.reactors.length) :
    (ofServer server).EnqueuesOn 0 (firstId 256) [7] ∧
      ¬(ofServer server).EnqueuesOn 256 (firstId 256) [7] := by
  have hviews := ofServer_views server
  have hrunning : (ofServer server).isRunning = true := decide_eq_true hstate
  have hnamed : (getReactorId (firstId 256)).toNat = 0 := firstId_reactorId 256
  have hlt : 256 < (ofServer server).reactors.length := by
    rw [hviews.length]
    exact hmany
  have hfirst : (ofServer server).EnqueuesOn (getReactorId (firstId 256)).toNat (firstId 256) [7] :=
    hviews.enqueuesOn_named hrunning (by rw [hnamed]; omega) (List.cons_ne_nil 7 [])
  rw [hnamed] at hfirst
  exact ⟨hfirst, fun hlast => absurd (hfirst.unique hlast hlt) (by decide)⟩

/-- Of 257 reactors, the first one gets what is sent on a connection of the last one. -/
theorem last_of_257_misrouted : ∃ server,
    server = Server.after { reactorCount := 257 } [sampleStart] ∧ server.reactors.length = 257 ∧
      (ServerSends.ofServer server).EnqueuesOn 0 (firstId 256) [7] ∧
      ¬(ServerSends.ofServer server).EnqueuesOn 256 (firstId 256) [7] := by
  refine ⟨_, rfl, ?_, ServerSends.misroutes ?_ ?_⟩
  · decide +kernel
  · decide +kernel
  · decide +kernel

end DarwinCore.Network
