import DarwinCore.Library.Threads
import DarwinCore.Model.Network.ReactorSystem
import DarwinCore.Model.Network.WorkerPool

/-! # `Server` -/

/-! ## `Server`

`Start…` and `Stop` with the components they create, start, stop and destroy, and the threads
these run. What a system call answers and whether a thread can be created is given with the
call. `Start` and `Stop` of a component are single steps here. -/

namespace DarwinCore.Network

inductive ServerState where
  | kStopped | kStarting | kRunning | kStopping
  deriving DecidableEq, Repr

/-- What a thread of the server runs. -/
inductive ServerRole where
  /-- `AcceptLoop` -/
  | acceptor
  /-- `RunEventLoop` -/
  | reactor
  /-- `WorkerLoop` -/
  | worker
  deriving DecidableEq, Repr

/-- How a call ends. -/
inductive CallResult where
  | returned (value : Bool)
  /-- With an exception of the constructor of `std::thread`. -/
  | threw
  deriving DecidableEq, Repr

abbrev ServerThread := Thread ServerRole

abbrev ServerThreads := Threads ServerRole

namespace Server

/-! ### Components -/

/-- `WorkerPool`, as far as its threads go. -/
structure WorkerPool where
  workerCount : ℕ
  isRunning : Bool := false
  workerThreads : List ServerThread := []

namespace WorkerPool

/-- The constructor. -/
def construct (workerCount : ℕ) : WorkerPool :=
  { workerCount := if workerCount = 0 then kDefaultWorkerCount else workerCount }

/-- The loop of `Start` up to the first thread that cannot be created. -/
def createWorkers (creatable : ℕ → Bool) (threads : ServerThreads) :
    ℕ → Bool × List ServerThread × ServerThreads
  | 0 => (true, [], threads)
  | i + 1 =>
      match createWorkers creatable threads i with
      | (true, workers, threads) =>
          if creatable i then
            (true, workers ++ [threads.next .worker], threads.create .worker)
          else (false, workers, threads)
      | failed => failed

/-- `creatable` says which threads can be created. -/
def start (creatable : ℕ → Bool) (pool : WorkerPool) (threads : ServerThreads) :
    Bool × WorkerPool × ServerThreads :=
  if pool.isRunning then (false, pool, threads)
  else
    match createWorkers creatable threads pool.workerCount with
    | (true, workers, threads) =>
        (true, { pool with isRunning := true, workerThreads := workers }, threads)
    | (false, workers, threads) =>
      (false, { pool with isRunning := false }, threads.joinAll workers)

def stop (pool : WorkerPool) (threads : ServerThreads) : WorkerPool × ServerThreads :=
  if pool.isRunning then
    ({ pool with isRunning := false, workerThreads := [] }, threads.joinAll pool.workerThreads)
  else (pool, threads)

end WorkerPool

/-- What `Start` of a reactor meets. -/
structure ReactorSteps where
  /-- `IOMonitor::Initialize` -/
  initializeMonitor : Bool
  initializeWakeupEvent : Bool
  /-- Whether the thread can be created. -/
  thread : Bool
  deriving DecidableEq, Repr

/-- `Reactor`, as far as its thread goes. -/
structure Reactor where
  reactorId : ℕ
  isRunning : Bool := false
  eventLoopThread : Option ServerThread := none

namespace Reactor

def start (steps : ReactorSteps) (reactor : Reactor) (threads : ServerThreads) :
    Bool × Reactor × ServerThreads :=
  if !steps.initializeMonitor then (false, reactor, threads)
  else if !steps.initializeWakeupEvent then (false, reactor, threads)
  else if reactor.isRunning then (false, reactor, threads)
  else if steps.thread then
    (true, { reactor with isRunning := true, eventLoopThread := some (threads.next .reactor) },
      threads.create .reactor)
  -- The exception is caught.
  else (false, { reactor with isRunning := false }, threads)

def stop (reactor : Reactor) (threads : ServerThreads) : Reactor × ServerThreads :=
  if reactor.isRunning then
    ({ reactor with isRunning := false, eventLoopThread := none },
      threads.joinAll reactor.eventLoopThread.toList)
  else (reactor, threads)

end Reactor

/-- What `ListenGeneric` meets. -/
structure ListenSteps where
  /-- `IOMonitor::Initialize` -/
  initializeMonitor : Bool
  createSocket : Option ℕ
  setNonBlocking : Bool
  reuseAddr : Bool
  resolveAddress : Bool
  bind : Bool
  listen : Bool
  /-- Whether the thread can be created. -/
  thread : Bool
  deriving DecidableEq, Repr

/-- `Acceptor`, as far as its thread goes. -/
structure Acceptor where
  listenFd : Option ℕ := none
  isRunning : Bool := false
  acceptThread : Option ServerThread := none
  unixSocketPath : String := ""

namespace Acceptor

def listenGeneric (steps : ListenSteps) (acceptor : Acceptor) (threads : ServerThreads) :
    CallResult × Acceptor × ServerThreads :=
  if !steps.initializeMonitor then (.returned false, acceptor, threads)
  else
    match steps.createSocket with
    | none => (.returned false, acceptor, threads)
    | some fd =>
        if !steps.setNonBlocking then (.returned false, acceptor, threads)
        else if !steps.reuseAddr then (.returned false, acceptor, threads)
        else if !steps.resolveAddress then (.returned false, acceptor, threads)
        else if !steps.bind then (.returned false, acceptor, threads)
        else if !steps.listen then (.returned false, acceptor, threads)
        -- Nothing here catches the exception.
        else if !steps.thread then
          (.threw, { acceptor with listenFd := some fd, isRunning := true }, threads)
        else
          (.returned true, { acceptor with
            listenFd := some fd, isRunning := true,
            acceptThread := some (threads.next .acceptor) }, threads.create .acceptor)

def listenIPv4 := listenGeneric

def listenIPv6 := listenGeneric

def listenUnixDomain (path : String) (steps : ListenSteps) (acceptor : Acceptor)
    (threads : ServerThreads) : CallResult × Acceptor × ServerThreads :=
  match listenGeneric steps acceptor threads with
  | (.returned true, acceptor, threads) =>
      (.returned true, { acceptor with unixSocketPath := path }, threads)
  | other => other

def stop (acceptor : Acceptor) (threads : ServerThreads) : Acceptor × ServerThreads :=
  if acceptor.isRunning then
    ({ listenFd := none, isRunning := false, acceptThread := none, unixSocketPath := "" },
      threads.joinAll acceptor.acceptThread.toList)
  else (acceptor, threads)

end Acceptor

/-! ### The server -/

structure Options where
  reactorCount : ℕ := 0
  workerCount : ℕ := 4
  deriving DecidableEq, Repr

end Server

/-- `Server::Impl`, and the threads its components have created. -/
structure Server where
  options : Server.Options
  state : ServerState := .kStopped
  workerPool : Option Server.WorkerPool := none
  reactors : List Server.Reactor := []
  acceptors : List Server.Acceptor := []
  reactorCount : ℕ := 0
  threads : ServerThreads := {}

namespace Server

/-- What the start of the components meets. -/
structure Startup where
  /-- Whether the thread of a worker can be created. -/
  workers : ℕ → Bool
  /-- `std::thread::hardware_concurrency()` -/
  hardwareConcurrency : ℕ
  reactors : ℕ → ReactorSteps

/-- The constructor. -/
def construct (options : Options) : Server := { options := options }

def isRunning (s : Server) : Bool := s.state = .kRunning

def initializeWorkerPool (startup : Startup) (s : Server) : Bool × Server :=
  match s.workerPool with
  | some _ => (true, s)
  | none =>
      let workerCount :=
        if s.options.workerCount = 0 then kDefaultWorkerCount else s.options.workerCount
      match (WorkerPool.construct workerCount).start startup.workers s.threads with
      | (true, pool, threads) => (true, { s with workerPool := some pool, threads := threads })
      | (false, _, threads) => (false, { s with workerPool := none, threads := threads })

/-- The reactors are stopped one after the other. -/
def stopReactors (reactors : List Reactor) (threads : ServerThreads) : ServerThreads :=
  reactors.foldl (fun threads reactor => (reactor.stop threads).2) threads

/-- The loop of `InitializeReactors`, with `i` reactors started, up to the first failure. -/
def createReactors (startup : Startup) (threads : ServerThreads) :
    ℕ → Bool × List Reactor × ServerThreads
  | 0 => (true, [], threads)
  | i + 1 =>
      match createReactors startup threads i with
      | (true, reactors, threads) =>
          match Reactor.start (startup.reactors i) ({ reactorId := i } : Reactor) threads with
          | (true, reactor, threads) => (true, reactors ++ [reactor], threads)
          | (false, _, threads) => (false, reactors, threads)
      | failed => failed

def initializeReactors (startup : Startup) (s : Server) : Bool × Server :=
  if s.reactors ≠ [] then (true, s)
  else
    let reactorCount :=
      if s.options.reactorCount = 0 then max 1 startup.hardwareConcurrency
      else s.options.reactorCount
    match createReactors startup s.threads reactorCount with
    | (true, reactors, threads) =>
        (true, { s with reactorCount := reactorCount, reactors := reactors, threads := threads })
    | (false, reactors, threads) =>
        (false, { s with
          reactorCount := reactorCount, reactors := [], threads := stopReactors reactors threads })

def initializeComponents (startup : Startup) (s : Server) : Bool × Server :=
  match s.initializeWorkerPool startup with
  | (true, s) => s.initializeReactors startup
  | failed => failed

/-- The acceptor is kept if it listens, and destroyed if not. -/
def createAndStartAcceptor
    (listen : Acceptor → ServerThreads → CallResult × Acceptor × ServerThreads) (s : Server) :
    CallResult × Server :=
  match listen {} s.threads with
  | (.returned true, acceptor, threads) =>
      (.returned true, { s with acceptors := s.acceptors ++ [acceptor], threads := threads })
  | (result, acceptor, threads) => (result, { s with threads := (acceptor.stop threads).2 })

/-- An exception of `startFunc` leaves the state as it is. -/
def startInternal (startFunc : Server → CallResult × Server) (startup : Startup) (s : Server) :
    CallResult × Server :=
  if s.state ≠ .kStopped then (.returned false, s)
  else
    match initializeComponents startup { s with state := .kStarting } with
    | (false, s) => (.returned false, { s with state := .kStopped })
    | (true, s) =>
        match startFunc s with
        | (.returned true, s) => (.returned true, { s with state := .kRunning })
        | (.returned false, s) => (.returned false, { s with state := .kStopped })
        | (.threw, s) => (.threw, s)

def startIPv4 (startup : Startup) (steps : ListenSteps) : Server → CallResult × Server :=
  startInternal (createAndStartAcceptor (Acceptor.listenIPv4 steps)) startup

def startIPv6 (startup : Startup) (steps : ListenSteps) : Server → CallResult × Server :=
  startInternal (createAndStartAcceptor (Acceptor.listenIPv6 steps)) startup

/-- Both acceptors, of which one has to listen. -/
def listenBoth (steps4 steps6 : ListenSteps) (s : Server) : CallResult × Server :=
  match s.createAndStartAcceptor (Acceptor.listenIPv4 steps4) with
  | (.threw, s) => (.threw, s)
  | (.returned ipv4Ok, s) =>
      match s.createAndStartAcceptor (Acceptor.listenIPv6 steps6) with
      | (.threw, s) => (.threw, s)
      | (.returned ipv6Ok, s) => (.returned (ipv4Ok || ipv6Ok), s)

def startUniversalIP (startup : Startup) (steps4 steps6 : ListenSteps) :
    Server → CallResult × Server :=
  startInternal (listenBoth steps4 steps6) startup

def startUnixDomain (path : String) (startup : Startup) (steps : ListenSteps) :
    Server → CallResult × Server :=
  startInternal (createAndStartAcceptor (Acceptor.listenUnixDomain path steps)) startup

/-- The acceptors are destroyed one after the other. -/
def stopAcceptors (acceptors : List Acceptor) (threads : ServerThreads) : ServerThreads :=
  acceptors.foldl (fun threads acceptor => (acceptor.stop threads).2) threads

def stop (s : Server) : Server :=
  if s.state = .kRunning then
    let threads := stopReactors s.reactors (stopAcceptors s.acceptors s.threads)
    match s.workerPool with
    | some pool =>
        { s with
          acceptors := [], reactors := [], workerPool := none, threads := (pool.stop threads).2
          state := .kStopped }
    | none => { s with acceptors := [], reactors := [], threads := threads, state := .kStopped }
  else s

/-! ### Calls -/

inductive Call where
  | startIPv4 (startup : Startup) (steps : ListenSteps)
  | startIPv6 (startup : Startup) (steps : ListenSteps)
  | startUniversalIP (startup : Startup) (steps4 steps6 : ListenSteps)
  | startUnixDomain (path : String) (startup : Startup) (steps : ListenSteps)
  | stop
  /-- No call: `AcceptLoop` or `RunEventLoop` ends after an error. -/
  | loopEnds (thread : ServerThread) (h : thread.role ≠ .worker)

def step (s : Server) : Call → CallResult × Server
  | .startIPv4 startup steps => s.startIPv4 startup steps
  | .startIPv6 startup steps => s.startIPv6 startup steps
  | .startUniversalIP startup steps4 steps6 => s.startUniversalIP startup steps4 steps6
  | .startUnixDomain path startup steps => s.startUnixDomain path startup steps
  | .stop => (.returned true, s.stop)
  | .loopEnds thread _ => (.returned true, { s with threads := s.threads.finish thread })

/-- The server after some calls. -/
def after (options : Options) (calls : List Call) : Server :=
  (Calls.run step (construct options) calls).2

end Server

/-! ## `Server::SendData`

How a send finds its reactor. The reactors are those of `Server`, with their connections and
queues. -/

/-- `SendData` of a reactor, when nobody comes between. -/
def Reactor.sendData (connectionId : UInt64) (data : List UInt8) (r : Reactor) : Bool × Reactor :=
  match r.request 0 (.sendData connectionId data) with
  | (none, r) => (false, r)
  | (some op, r) =>
      if r.queueStopped then (false, r.reject op) else (true, (r.push op).triggerWakeup)

/-- The value of an index that is passed on as an `int`. -/
def toInt (i : ℕ) : ℤ := Int.bmod i (2 ^ 32)

/-- `Server::Impl`, as far as `SendData` goes. -/
structure ServerSends where
  state : ServerState
  reactors : List Reactor
  totalMessagesSent : ℕ := 0
  totalBytesSent : ℕ := 0

namespace ServerSends

def isRunning (s : ServerSends) : Bool := s.state = .kRunning

def sendData (connectionId : UInt64) (data : List UInt8) (s : ServerSends) : Bool × ServerSends :=
  if data = [] then (false, s)
  else if ¬s.isRunning then (false, s)
  else if s.reactors.isEmpty then (false, s)
  else
    let reactorId := (ConnectionIdGenerator.getReactorId connectionId).toNat
    match s.reactors[reactorId]? with
    | none => (false, s)
    | some r =>
        let (success, r) := r.sendData connectionId data
        let s := { s with reactors := s.reactors.set reactorId r }
        if success then
          (true, { s with
            totalMessagesSent := s.totalMessagesSent + 1
            totalBytesSent := s.totalBytesSent + data.length })
        else (false, s)

/-- The reactors of a server, as `InitializeReactors` constructs and starts them. -/
def ofServer (server : Server) : ServerSends where
  state := server.state
  reactors := server.reactors.map fun q => Reactor.started (toInt q.reactorId) .workerPool 60

end ServerSends

end DarwinCore.Network
