import DarwinCore.Model.Network.Server

/-! # The events of a server

The reactors of a server submit their events to its worker pool, and the workers pass them to
`OnNetworkEvent`. A step of a reactor comes with the answers that it gets from the pool. What it
submits in the step is handed to the pool one by one, while the workers go on, and the pool has
to answer so. -/

namespace DarwinCore.Network

/-! ## `Server::OnNetworkEvent` -/

/-- Which of the callbacks are set. -/
structure ServerCallbacks where
  onClientConnected : Bool
  onMessage : Bool
  onClientDisconnected : Bool
  onConnectionError : Bool
  deriving DecidableEq, Repr

/-- A call of a callback. -/
inductive CallbackCall where
  | onClientConnected (connectionId : UInt64) (peer : SockAddr)
  | onMessage (connectionId : UInt64) (payload : List UInt8)
  | onClientDisconnected (connectionId : UInt64)
  | onConnectionError (connectionId : UInt64) (error : NetworkError) (code : Errno)
  deriving DecidableEq, Repr

/-- `Server::Impl`, as far as `OnNetworkEvent` goes, with the calls it has made. -/
structure ServerEvents where
  totalConnections : ℕ := 0
  activeConnections : UInt64 := 0
  totalMessagesReceived : ℕ := 0
  totalBytesReceived : ℕ := 0
  totalErrors : ℕ := 0
  calls : List CallbackCall := []
  deriving DecidableEq, Repr

namespace ServerEvents

/-- A callback that is set is called. An exception of it changes nothing. -/
def invoke (isSet : Bool) (call : CallbackCall) (s : ServerEvents) : ServerEvents :=
  if isSet then { s with calls := s.calls ++ [call] } else s

def onNetworkEvent (callbacks : ServerCallbacks) (s : ServerEvents) :
    NetworkEvent → ServerEvents
  | .connected id peer =>
      let s := { s with
        totalConnections := s.totalConnections + 1
        activeConnections := s.activeConnections + 1 }
      s.invoke callbacks.onClientConnected (.onClientConnected id peer)
  | .data id payload =>
      let s := { s with
        totalMessagesReceived := s.totalMessagesReceived + 1
        totalBytesReceived := s.totalBytesReceived + payload.length }
      s.invoke callbacks.onMessage (.onMessage id payload)
  | .disconnected id =>
      let s := { s with activeConnections := s.activeConnections - 1 }
      s.invoke callbacks.onClientDisconnected (.onClientDisconnected id)
  | .error id error code =>
      let s := { s with totalErrors := s.totalErrors + 1 }
      s.invoke callbacks.onConnectionError (.onConnectionError id error code)

end ServerEvents

/-! ## Submissions -/

/-- What an entry submits to the pool, and the answer. -/
def Effect.submission : Effect → Option (NetworkEvent × Bool)
  | .dispatched event => some (event, true)
  | .refused event => some (event, false)
  | _ => none

/-- What the reactor has submitted, in its order. -/
def Reactor.submissions (r : Reactor) : List (NetworkEvent × Bool) :=
  (r.log.filterMap Effect.submission).reverse

namespace WorkerPool

/-- The pool as `Start` leaves it. -/
def launch (workerCount maxQueueSize : ℕ) : WorkerPool :=
  let p := construct workerCount maxQueueSize true
  { p with
    isRunning := true
    workers := fun i => if i < p.workerCount then .testing else .absent
    control := .started }

/-- A whole call of `SubmitEvent`, with its value. -/
inductive SubmitEvent (event : NetworkEvent) : Bool → WorkerPool → WorkerPool → Prop where
  | notRunning {p : WorkerPool} (h : p.isRunning = false) :
      SubmitEvent event false p { p.countFailure false with
        nextSubmission := p.nextSubmission + 1 }
  | enqueued {p : WorkerPool} {success : Bool} {submission : Submission}
      {q : ConcurrentQueue Submission} (hsubmission : submission = ⟨p.nextSubmission, event, false⟩)
      (h : p.isRunning = true)
      (hqueue : (p.eventQueues (submission.worker p.workerCount)).enqueue submission =
        some (success, q)) :
      SubmitEvent event success p
        { (p.setQueue (submission.worker p.workerCount) q).countFailure success with
          nextSubmission := p.nextSubmission + 1
          accepted := if success then p.accepted ++ [submission] else p.accepted
          submitted := if success then p.submitted ++ [submission] else p.submitted }

end WorkerPool

/-! ## The reactors and the pool -/

/-- `Server::Impl` with `n` reactors. -/
structure ServerFlow (n : ℕ) where
  reactors : Fin n → System
  pool : WorkerPool
  /-- What the thread of a reactor has still to hand to the pool, with the answers. -/
  unsubmitted : Fin n → List (NetworkEvent × Bool) := fun _ => []

namespace ServerFlow

variable {n : ℕ}

/-- The server calls no function of a reactor that removes a connection. `Stop` stops the pool
when it has stopped the reactors. -/
inductive Step : ServerFlow n → ServerFlow n → Prop where
  /-- The thread of a reactor goes on when it has submitted everything. -/
  | reactor {s : ServerFlow n} (i : Fin n) {t : System} (events : List (NetworkEvent × Bool))
      (h : System.Step (s.reactors i) t)
      (hloop : t.loop ≠ (s.reactors i).loop → s.unsubmitted i = [])
      (hrequest : ∀ id, Caller.enqueueing (.remove id) ∉ t.callers)
      (hevents : t.reactor.submissions = (s.reactors i).reactor.submissions ++ events) :
      Step s { s with
        reactors := Function.update s.reactors i t
        unsubmitted := Function.update s.unsubmitted i (s.unsubmitted i ++ events) }
  | submit {s : ServerFlow n} (i : Fin n) {event : NetworkEvent} {success : Bool}
      {rest : List (NetworkEvent × Bool)} {p : WorkerPool}
      (hunsubmitted : s.unsubmitted i = (event, success) :: rest)
      (h : s.pool.SubmitEvent event success p) :
      Step s { s with pool := p, unsubmitted := Function.update s.unsubmitted i rest }
  | worker {s : ServerFlow n} (w : ℕ) {p : WorkerPool} (h : s.pool.WorkerStep w p) :
      Step s { s with pool := p }
  | stopPool {s : ServerFlow n} {p : WorkerPool} (h : s.pool.ControlStep p)
      (hreactors : ∀ i, (s.reactors i).stopping = .returned) (hstop : p.isRunning = false) :
      Step s { s with pool := p }

/-- The events that the workers have passed on, in the order of the calls. -/
def passed (s : ServerFlow n) : List NetworkEvent :=
  s.pool.delivered.map fun d => d.2.event

/-- What `OnNetworkEvent` has made of them. -/
def server (callbacks : ServerCallbacks) (s : ServerFlow n) : ServerEvents :=
  s.passed.foldl (ServerEvents.onNetworkEvent callbacks) {}

end ServerFlow

/-- The runs of a server from the start of its components on. -/
def serverFlows (n workerCount maxQueueSize : ℕ) : TransitionSystem (ServerFlow n) where
  init s := ∃ timeouts : Fin n → ℤ, s = {
    reactors := fun i =>
      { reactor := Reactor.started (toInt i) .workerPool (timeouts i) }
    pool := .launch workerCount maxQueueSize }
  step := ServerFlow.Step

end DarwinCore.Network
