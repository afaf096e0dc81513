import DarwinCore.Model.Network.PoolThreads
import DarwinCore.Model.Network.Server

/-! # `Server::Stop` under load

A server that has been started, and all its threads: the one that calls `Stop`, the acceptors, the
reactors and the workers, whose callbacks call `SendData`. Here it matters where the threads wait
for each other. What a reactor does with its connections is given by the events that it dispatches,
and they come with the step. `TriggerWakeupEvent` only shortens a wait that ends anyway when its
time is over. `reactors_.clear()` destroys the reactors, and `SendData` keeps no share in the one
that it is in: for a callback that is in a destroyed reactor there is no step. -/

namespace DarwinCore.Network

/-- How many workers a pool has that is constructed for so many. -/
def poolSize (workerCount : ℕ) : ℕ :=
  if workerCount = 0 then kDefaultWorkerCount else workerCount

instance (workerCount : ℕ) : NeZero (poolSize workerCount) where
  out := by
    unfold poolSize
    split
    · simp [kDefaultWorkerCount]
    · assumption

/-! ## Acceptors -/

/-- Where `AcceptLoop` is; `left` is the number of events that are still to be handled. -/
inductive AcceptPlace (r : ℕ) where
  /-- At `StartReadMonitor`. -/
  | monitoring
  /-- At the test of `is_running_`. -/
  | top
  /-- In `WaitEvents`. -/
  | waiting
  | handling (left : ℕ)
  /-- At the test of `is_running_` in the inner loop. -/
  | testing (left : ℕ)
  /-- At `accept`. -/
  | accepting (left : ℕ)
  /-- In `AddConnection`, at the test of `is_running_`. -/
  | assigning (left : ℕ) (reactor : Fin r) (op : Operation)
  /-- In `AddConnection`, at `Enqueue`. -/
  | enqueueing (left : ℕ) (reactor : Fin r) (op : Operation)
  /-- At the test of the time. -/
  | timing (left : ℕ)
  | exited

/-- `Acceptor`, as far as its thread goes. -/
structure AcceptThread (r : ℕ) where
  isRunning : Bool := true
  place : AcceptPlace r := .monitoring

def kMaxEvents : ℕ := 2

/-! ## Reactors -/

/-- `Reactor`, as far as its thread goes. -/
structure ReactorThread where
  isRunning : Bool := true
  pendingOperations : ConcurrentQueue Operation := { maxSize := 0 }
  loop : Loop := .top

/-- The steps of the event loop from one dispatch to the next, with the events that are dispatched
then. -/
inductive ReactorThread.Turn : ReactorThread → ReactorThread → List NetworkEvent → Prop where
  | enter {t : ReactorThread} (hloop : t.loop = .top) (h : t.isRunning) :
      Turn t { t with loop := .draining .beforeEvents 0 } []
  | leave {t : ReactorThread} (hloop : t.loop = .top) (h : ¬t.isRunning) :
      Turn t { t with loop := .exited } []
  | process {t : ReactorThread} {which : Drain} {processed : ℕ} {op : Operation}
      {q : ConcurrentQueue Operation} (events : List NetworkEvent)
      (hloop : t.loop = .draining which processed) (hbatch : processed < maxBatchSize)
      (hqueue : t.pendingOperations.tryDequeue = (some op, q)) :
      Turn t { t with pendingOperations := q, loop := .draining which (processed + 1) } events
  | full {t : ReactorThread} {which : Drain} {processed : ℕ}
      (hloop : t.loop = .draining which processed) (hbatch : ¬processed < maxBatchSize) :
      Turn t { t with loop := which.next } []
  | drained {t : ReactorThread} {which : Drain} {processed : ℕ} {q : ConcurrentQueue Operation}
      (hloop : t.loop = .draining which processed) (hbatch : processed < maxBatchSize)
      (hqueue : t.pendingOperations.tryDequeue = (none, q)) :
      Turn t { t with pendingOperations := q, loop := which.next } []
  | checkTimeouts {t : ReactorThread} (events : List NetworkEvent)
      (hloop : t.loop = .checkingTimeouts) : Turn t { t with loop := .waiting } events
  | interrupted {t : ReactorThread} (hloop : t.loop = .waiting) : Turn t { t with loop := .top } []
  | failed {t : ReactorThread} (hloop : t.loop = .waiting) : Turn t { t with loop := .exited } []
  /-- Some of the awaited events, or none because the time is over. -/
  | waited {t : ReactorThread} (kevents : List KEvent) (hloop : t.loop = .waiting)
      (h : kevents.length ≤ eventBatchSize) : Turn t { t with loop := .handling kevents } []
  | handle {t : ReactorThread} {kevent : KEvent} {kevents : List KEvent}
      (events : List NetworkEvent) (hloop : t.loop = .handling (kevent :: kevents)) :
      Turn t { t with loop := .handling kevents } events
  | handled {t : ReactorThread} (hloop : t.loop = .handling []) :
      Turn t { t with loop := .draining .afterEvents 0 } []

/-! ## Callbacks -/

/-- A call of `SendData`. -/
structure SendCall where
  connectionId : UInt64
  data : List UInt8

/-- Where `SendData` is. -/
inductive SendPlace (r : ℕ) where
  /-- At the test of the arguments and of `state_`. -/
  | testing
  /-- At the look into `reactors_`. -/
  | looking
  /-- In `SendData` of the reactor, at the test of `is_running_`. -/
  | requesting (reactor : Fin r)
  /-- In `SendData` of the reactor, at `Enqueue`. -/
  | enqueueing (reactor : Fin r)

/-- What a callback of the user has still to do. It is in `SendData` with the first call. -/
structure ServerCallback (r : ℕ) where
  calls : List SendCall
  place : SendPlace r := .testing

/-- The callback after a step of `SendData`, which has returned if there is no place. -/
def ServerCallback.next {r : ℕ} (callback : ServerCallback r) :
    Option (SendPlace r) → ServerCallback r
  | none => { calls := callback.calls.tail }
  | some place => { callback with place := place }

/-- A callback begins with any calls. -/
def ServerCallback.Starts {r : ℕ} (_ : NetworkEvent) (callback : ServerCallback r) : Prop :=
  callback.place = .testing

/-- All calls have returned. -/
def ServerCallback.Finished {r : ℕ} (callback : ServerCallback r) : Prop :=
  callback.calls = []

/-! ## The server -/

/-- Where `Stop` is; a number says with which acceptor, reactor or worker. -/
inductive StopPlace where
  /-- `Start` has not set `state_` yet. -/
  | starting
  | started
  /-- In `Acceptor::Stop`, at the exchange of `is_running_`. -/
  | stoppingAcceptor (i : ℕ)
  | joiningAcceptor (i : ℕ)
  /-- In `Reactor::Stop`, at the exchange of `is_running_`. -/
  | stoppingReactor (i : ℕ)
  /-- In `Reactor::Stop`, at `NotifyStop`. -/
  | notifyingReactor (i : ℕ)
  | joiningReactor (i : ℕ)
  /-- At `reactors_.clear()`. -/
  | clearingReactors
  /-- In `WorkerPool::Stop`, at the exchange of `is_running_`. -/
  | stoppingPool
  /-- In `NotifyStop` of a queue, before it takes the mutex. -/
  | stoppingQueue (w : ℕ)
  /-- In `NotifyStop` of a queue, at `not_empty_.notify_all`. -/
  | notifyingNotEmpty (w : ℕ)
  /-- In `NotifyStop` of a queue, at `not_full_.notify_all`. -/
  | notifyingNotFull (w : ℕ)
  | joiningWorker (w : ℕ)
  /-- At the last assignment to `state_`. -/
  | storing
  | returned
  deriving DecidableEq, Repr

/-- A thread. -/
inductive ServerActor (a r n : ℕ) where
  | stopper
  | acceptor (i : Fin a)
  | reactor (i : Fin r)
  | worker (w : Fin n)
  deriving DecidableEq

/-- `Server::Impl` with `a` acceptors, `r` reactors and `n` workers. -/
structure ServerSystem (a r n : ℕ) where
  state : ServerState := .kStarting
  acceptors : Fin a → AcceptThread r := fun _ => {}
  reactors : Fin r → ReactorThread := fun _ => {}
  reactorsCleared : Bool := false
  pool : PoolThreads (Fin r) n (ServerCallback r)
  place : StopPlace := .starting

namespace ServerSystem

variable {a r n : ℕ}

def setAcceptor (i : Fin a) (place : AcceptPlace r) (s : ServerSystem a r n) :
    ServerSystem a r n :=
  { s with acceptors := Function.update s.acceptors i { s.acceptors i with place := place } }

def setReactor (i : Fin r) (t : ReactorThread) (s : ServerSystem a r n) : ServerSystem a r n :=
  { s with reactors := Function.update s.reactors i t }

def setOperations (i : Fin r) (q : ConcurrentQueue Operation) (s : ServerSystem a r n) :
    ServerSystem a r n :=
  s.setReactor i { s.reactors i with pendingOperations := q }

def moveTo (place : StopPlace) (s : ServerSystem a r n) : ServerSystem a r n :=
  { s with place := place }

/-! ## Steps of the threads -/

inductive AcceptorStep (i : Fin a) (s : ServerSystem a r n) : ServerSystem a r n → Prop where
  | monitor (success : Bool) (h : (s.acceptors i).place = .monitoring) :
      AcceptorStep i s (s.setAcceptor i (if success then .top else .exited))
  | test (h : (s.acceptors i).place = .top) :
      AcceptorStep i s
        (s.setAcceptor i (if (s.acceptors i).isRunning then .waiting else .exited))
  /-- The time is over, or an error that is not fatal. -/
  | waitAgain (h : (s.acceptors i).place = .waiting) : AcceptorStep i s (s.setAcceptor i .top)
  | failed (h : (s.acceptors i).place = .waiting) : AcceptorStep i s (s.setAcceptor i .exited)
  | waited {left : ℕ} (h : (s.acceptors i).place = .waiting) (hleft : left ≤ kMaxEvents) :
      AcceptorStep i s (s.setAcceptor i (.handling left))
  | handled (h : (s.acceptors i).place = .handling 0) : AcceptorStep i s (s.setAcceptor i .top)
  /-- An event, of `listen_fd_` or of another descriptor. -/
  | handle {left : ℕ} (listening : Bool) (h : (s.acceptors i).place = .handling (left + 1)) :
      AcceptorStep i s (s.setAcceptor i (if listening then .testing left else .handling left))
  | testInner {left : ℕ} (h : (s.acceptors i).place = .testing left) :
      AcceptorStep i s
        (s.setAcceptor i (if (s.acceptors i).isRunning then .accepting left else .handling left))
  | wouldBlock {left : ℕ} (h : (s.acceptors i).place = .accepting left) :
      AcceptorStep i s (s.setAcceptor i (.handling left))
  /-- `accept` fails, or `SetNonBlocking`. -/
  | acceptFailed {left : ℕ} (h : (s.acceptors i).place = .accepting left) :
      AcceptorStep i s (s.setAcceptor i (.testing left))
  /-- `accept` returns a socket. The reactor is the next one in turn. -/
  | accept {left : ℕ} (reactor : Fin r) (fd : ℤ) (peer : SockAddr)
      (h : (s.acceptors i).place = .accepting left) :
      AcceptorStep i s (s.setAcceptor i (.assigning left reactor (.add fd peer)))
  | assign {left : ℕ} {reactor : Fin r} {op : Operation}
      (h : (s.acceptors i).place = .assigning left reactor op) :
      AcceptorStep i s (s.setAcceptor i
        (if (s.reactors reactor).isRunning then .enqueueing left reactor op else .timing left))
  | enqueue {left : ℕ} {reactor : Fin r} {op : Operation} {success : Bool}
      {q : ConcurrentQueue Operation} (h : (s.acceptors i).place = .enqueueing left reactor op)
      (hqueue : (s.reactors reactor).pendingOperations.enqueue op = some (success, q)) :
      AcceptorStep i s ((s.setOperations reactor q).setAcceptor i (.timing left))
  | time {left : ℕ} (elapsed : Bool) (h : (s.acceptors i).place = .timing left) :
      AcceptorStep i s (s.setAcceptor i (if elapsed then .handling left else .testing left))

/-- The reactors as `SendData` finds them. -/
def lookUp (id : UInt64) (s : ServerSystem a r n) : Option (SendPlace r) :=
  let reactorId := (ConnectionIdGenerator.getReactorId id).toNat
  if s.reactorsCleared then none
  else if h : reactorId < r then some (.requesting ⟨reactorId, h⟩) else none

/-- The steps of a call of `SendData`. -/
inductive SendStep (call : SendCall) (s : ServerSystem a r n) :
    SendPlace r → ServerSystem a r n → Option (SendPlace r) → Prop where
  | test :
      SendStep call s .testing s
        (if call.data = [] ∨ s.state ≠ .kRunning then none else some .looking)
  | lookUp : SendStep call s .looking s (s.lookUp call.connectionId)
  | request {i : Fin r} (halive : s.reactorsCleared = false) :
      SendStep call s (.requesting i) s
        (if (s.reactors i).isRunning then some (.enqueueing i) else none)
  | enqueue {i : Fin r} {success : Bool} {q : ConcurrentQueue Operation}
      (halive : s.reactorsCleared = false)
      (hqueue : (s.reactors i).pendingOperations.enqueue (.send call.connectionId call.data) =
        some (success, q)) :
      SendStep call s (.enqueueing i) (s.setOperations i q) none

variable [NeZero n]

/-- While it dispatches, the reactor is in `SubmitEvent`. -/
inductive ReactorStep (i : Fin r) (s : ServerSystem a r n) : ServerSystem a r n → Prop where
  | turn {t : ReactorThread} {events : List NetworkEvent}
      (hidle : (s.pool.dispatches i).events = []) (h : (s.reactors i).Turn t events) :
      ReactorStep i s { s.setReactor i t with pool := s.pool.setDispatch i { events := events } }
  | dispatch {p : PoolThreads (Fin r) n (ServerCallback r)} (h : s.pool.DispatchStep i p) :
      ReactorStep i s { s with pool := p }

inductive WorkerStep (w : Fin n) (s : ServerSystem a r n) : ServerSystem a r n → Prop where
  | pool {p : PoolThreads (Fin r) n (ServerCallback r)}
      (h : s.pool.WorkerStep ServerCallback.Starts ServerCallback.Finished w p) :
      WorkerStep w s { s with pool := p }
  | send {callback : ServerCallback r} {remaining : Bool} {call : SendCall}
      {calls : List SendCall} {s' : ServerSystem a r n} {place : Option (SendPlace r)}
      (h : s.pool.workers w = .calling callback remaining) (hcalls : callback.calls = call :: calls)
      (hsend : s.SendStep call callback.place s' place) :
      WorkerStep w s
        { s' with pool := s'.pool.setWorker w (.calling (callback.next place) remaining) }

inductive StopperStep (s : ServerSystem a r n) : ServerSystem a r n → Prop where
  | started (h : s.place = .starting) :
      StopperStep s { s with state := .kRunning, place := .started }
  | stop (h : s.place = .started) (hstate : s.state = .kRunning) :
      StopperStep s { s with state := .kStopping, place := .stoppingAcceptor 0 }
  | stopAcceptor {i : Fin a} (h : s.place = .stoppingAcceptor i) :
      StopperStep s { s with
        acceptors := Function.update s.acceptors i { s.acceptors i with isRunning := false }
        place := .joiningAcceptor i }
  | joinAcceptor {i : Fin a} (h : s.place = .joiningAcceptor i)
      (hexited : (s.acceptors i).place = .exited) :
      StopperStep s (s.moveTo (.stoppingAcceptor (i + 1)))
  | acceptorsStopped (h : s.place = .stoppingAcceptor a) :
      StopperStep s (s.moveTo (.stoppingReactor 0))
  | stopReactor {i : Fin r} (h : s.place = .stoppingReactor i) :
      StopperStep s
        ((s.setReactor i { s.reactors i with isRunning := false }).moveTo (.notifyingReactor i))
  | notifyReactor {i : Fin r} (h : s.place = .notifyingReactor i) :
      StopperStep s ((s.setOperations i (s.reactors i).pendingOperations.notifyStop).moveTo
        (.joiningReactor i))
  | joinReactor {i : Fin r} (h : s.place = .joiningReactor i)
      (hexited : (s.reactors i).loop = .exited) :
      StopperStep s (s.moveTo (.stoppingReactor (i + 1)))
  | reactorsStopped (h : s.place = .stoppingReactor r) :
      StopperStep s (s.moveTo .clearingReactors)
  | clearReactors (h : s.place = .clearingReactors) :
      StopperStep s { s with reactorsCleared := true, place := .stoppingPool }
  | stopPool (h : s.place = .stoppingPool) :
      StopperStep s { s with
        pool := { s.pool with isRunning := false }, place := .stoppingQueue 0 }
  | stopQueue {w : Fin n} (h : s.place = .stoppingQueue w) :
      StopperStep s { s with pool := s.pool.stopQueue w, place := .notifyingNotEmpty w }
  | notifyNotEmpty {w : Fin n} (h : s.place = .notifyingNotEmpty w) :
      StopperStep s { s with pool := s.pool.notifyNotEmpty w, place := .notifyingNotFull w }
  | notifyNotFull {w : Fin n} (h : s.place = .notifyingNotFull w) :
      StopperStep s { s with pool := s.pool.notifyNotFull w, place := .stoppingQueue (w + 1) }
  | queuesStopped (h : s.place = .stoppingQueue n) : StopperStep s (s.moveTo (.joiningWorker 0))
  | joinWorker {w : Fin n} (h : s.place = .joiningWorker w)
      (hexited : s.pool.workers w = .exited) :
      StopperStep s (s.moveTo (.joiningWorker (w + 1)))
  | workersJoined (h : s.place = .joiningWorker n) : StopperStep s (s.moveTo .storing)
  | store (h : s.place = .storing) :
      StopperStep s { s with state := .kStopped, place := .returned }

/-- A step that the thread takes by itself, or because its time is over. -/
inductive ActorStep : ServerActor a r n → ServerSystem a r n → ServerSystem a r n → Prop where
  | stopper {s s' : ServerSystem a r n} (h : s.StopperStep s') : ActorStep .stopper s s'
  | acceptor {s s' : ServerSystem a r n} {i : Fin a} (h : s.AcceptorStep i s') :
      ActorStep (.acceptor i) s s'
  | reactor {s s' : ServerSystem a r n} {i : Fin r} (h : s.ReactorStep i s') :
      ActorStep (.reactor i) s s'
  | worker {s s' : ServerSystem a r n} {w : Fin n} (h : s.WorkerStep w s') :
      ActorStep (.worker w) s s'

inductive Step (s s' : ServerSystem a r n) : Prop where
  | actor (actor : ServerActor a r n) (h : ActorStep actor s s')
  | spurious {p : PoolThreads (Fin r) n (ServerCallback r)} (h : s.pool.SpuriousStep p)
      (hs : s' = { s with pool := p })

end ServerSystem

/-- The runs of a server from the end of its start on. -/
def servers (a r workerCount maxQueueSize : ℕ) :
    TransitionSystem (ServerSystem a r (poolSize workerCount)) where
  init s := s = { pool := { eventQueues := fun _ => { maxSize := maxQueueSize } } }
  step := ServerSystem.Step

end DarwinCore.Network
