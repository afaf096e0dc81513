import DarwinCore.Model.Network.Reactor

/-! # A running reactor

A reactor after `Start`: its event loop, the threads that call its request functions, the
acceptor that hands sockets to it, and `Stop`. The threads interleave between the points at
which they touch shared state. -/

namespace DarwinCore.Network

/-! ## Requests -/

/-- A call of one of the request functions. -/
inductive Request where
  | removeConnection (connectionId : UInt64)
  | sendData (connectionId : UInt64) (data : List UInt8)
  | getSendBufferSize (connectionId : UInt64)
  deriving DecidableEq, Repr

/-- The data of a request fit in a vector. -/
def Request.Sized : Request → Prop
  | sendData _ data => data.length < 2 ^ 63
  | _ => True

namespace Reactor

/-- `AddConnection` up to the call of `Enqueue`: the operation, unless it is rejected. -/
def addConnection (fd : ℤ) (peer : SockAddr) (r : Reactor) : Option Operation × Reactor :=
  let r := r.count fun s => { s with totalAddRequests := s.totalAddRequests + 1 }
  if fd < 0 ∨ ¬r.isRunning then
    (none, r.count fun s => { s with totalAddFailures := s.totalAddFailures + 1 })
  else (some (.add fd peer), r)

/-- The other request functions up to the call of `Enqueue`. -/
def request (promise : ℕ) (req : Request) (r : Reactor) : Option Operation × Reactor :=
  match req with
  | .removeConnection id =>
      let r := r.count fun s => { s with totalRemoveRequests := s.totalRemoveRequests + 1 }
      if ¬r.isRunning then
        (none, r.count fun s => { s with totalRemoveFailures := s.totalRemoveFailures + 1 })
      else (some (.remove id), r)
  | .sendData id data =>
      let r := r.count fun s => { s with totalSendRequests := s.totalSendRequests + 1 }
      if data = [] ∨ ¬r.isRunning then
        (none, r.count fun s => { s with totalSendFailures := s.totalSendFailures + 1 })
      else (some (.send id data), r)
  | .getSendBufferSize id =>
      if ¬r.isRunning then (none, r) else (some (.getSendBufferSize id promise), r)

/-- `Enqueue` succeeds. -/
def push (op : Operation) (r : Reactor) : Reactor :=
  { r with pendingOperations := r.pendingOperations ++ [op] }

/-- What a request function does when `Enqueue` fails. When an add fails, now or before, the
acceptor closes the socket. -/
def reject (op : Operation) (r : Reactor) : Reactor :=
  match op with
  | .add fd _ =>
      (r.count fun s => { s with totalAddFailures := s.totalAddFailures + 1 }).closeFd fd
  | .remove _ => r.count fun s => { s with totalRemoveFailures := s.totalRemoveFailures + 1 }
  | .send _ _ => r.count fun s => { s with totalSendFailures := s.totalSendFailures + 1 }
  | .getSendBufferSize _ _ => r

/-- `accept` returns `fd` to the acceptor. -/
def accept (fd : ℤ) (r : Reactor) : Reactor :=
  { r with kernel := r.kernel.accept fd, log := .opened fd :: r.log }

/-- `TriggerWakeupEvent`. -/
def triggerWakeup (r : Reactor) : Reactor :=
  { r with kernel := r.kernel.trigger }

/-- `TryDequeue` succeeds. -/
def dequeue (op : Operation) (rest : List Operation) (r : Reactor) : Reactor :=
  { r with pendingOperations := rest, log := .took op :: r.log }

end Reactor

/-! ## Threads -/

/-- A thread inside a request function: before `Enqueue`, or before the wakeup. -/
inductive Caller where
  | enqueueing (op : Operation)
  | waking
  deriving DecidableEq, Repr

/-- The two calls of `ProcessPendingOperations` in an iteration of the event loop. -/
inductive Drain where
  | beforeEvents
  | afterEvents
  deriving DecidableEq, Repr

/-- Where `RunEventLoop` is. -/
inductive Loop where
  /-- At the test of `is_running_`. -/
  | top
  /-- In `ProcessPendingOperations`. -/
  | draining (which : Drain) (processed : ℕ)
  | checkingTimeouts
  /-- In `WaitEvents`. -/
  | waiting
  | handling (events : List KEvent)
  | exited
  deriving DecidableEq, Repr

def Drain.next : Drain → Loop
  | beforeEvents => .checkingTimeouts
  | afterEvents => .top

/-- Where `Stop` is. -/
inductive Stopping where
  | notCalled
  /-- `is_running_` is cleared. -/
  | flagged
  /-- The queue is stopped. -/
  | notified
  /-- The loop is woken and joined. -/
  | joining
  | returned
  deriving DecidableEq, Repr

/-- `kMaxBatchSize`. -/
def maxBatchSize : ℕ := 100

/-- `SocketConfiguration::kDefaultEventBatchSize`. -/
def eventBatchSize : ℕ := 64

/-- `Reactor::kWakeupIdent`. -/
def wakeupIdent : ℤ := 1

def KEvent.isWakeup (event : KEvent) : Bool :=
  event.filter = .user && event.ident = wakeupIdent

/-- `order` lists the table. -/
def Environment.Iterates (env : Environment) (r : Reactor) : Prop :=
  env.order.Nodup ∧ ∀ id, id ∈ env.order ↔ id ∈ r.connections

/-- The steps of the thread of the reactor. -/
inductive Loop.Step : Reactor × Loop → Reactor × Loop → Prop where
  | enter {r : Reactor} (h : r.isRunning) : Step (r, top) (r, draining .beforeEvents 0)
  | leave {r : Reactor} (h : ¬r.isRunning) : Step (r, top) (r, exited)
  | process {r r' : Reactor} {which : Drain} {processed : ℕ} (env : Environment)
      {op : Operation} {rest : List Operation} (hbatch : processed < maxBatchSize)
      (hqueue : r.pendingOperations = op :: rest)
      (h : (r.dequeue op rest).processOperation env op = some r') :
      Step (r, draining which processed) (r', draining which (processed + 1))
  | drained {r : Reactor} {which : Drain} {processed : ℕ}
      (h : processed = maxBatchSize ∨ r.pendingOperations = []) :
      Step (r, draining which processed)
        (r.count fun s => { s with totalOpsProcessed := s.totalOpsProcessed + processed },
          which.next)
  | notDue {r : Reactor} : Step (r, checkingTimeouts) (r, waiting)
  | due {r : Reactor} (env : Environment) (h : env.Iterates r) :
      Step (r, checkingTimeouts) (r.checkTimeouts env, waiting)
  | interrupted {r : Reactor} : Step (r, waiting) (r, top)
  | failed {r : Reactor} : Step (r, waiting) (r, exited)
  | woken {r : Reactor} (events : List KEvent) (h : events.length ≤ eventBatchSize) :
      Step (r, waiting)
        (if events.any KEvent.isWakeup then { r with kernel := r.kernel.clearWakeup } else r,
          handling events)
  | handle {r : Reactor} (env : Environment) {event : KEvent} {events : List KEvent} :
      Step (r, handling (event :: events))
        (if event.isWakeup then r else r.processKqueueEvent env event, handling events)
  | handled {r : Reactor} : Step (r, handling []) (r, draining .afterEvents 0)

/-! ## The system -/

structure System where
  reactor : Reactor
  callers : List Caller := []
  loop : Loop := .top
  stopping : Stopping := .notCalled
  /-- The number of the next promise. -/
  nextPromise : ℕ := 0

inductive System.Step : System → System → Prop where
  /-- The acceptor obtains a socket and calls `AddConnection`. -/
  | accept {s : System} {op : Operation} {r : Reactor} (fd : ℤ) (peer : SockAddr)
      (hfd : 0 ≤ fd) (hfresh : fd ∉ s.reactor.kernel.openFds)
      (h : (s.reactor.accept fd).addConnection fd peer = (some op, r)) :
      Step s { s with reactor := r, callers := .enqueueing op :: s.callers }
  | acceptRejected {s : System} {r : Reactor} (fd : ℤ) (peer : SockAddr)
      (hfd : 0 ≤ fd) (hfresh : fd ∉ s.reactor.kernel.openFds)
      (h : (s.reactor.accept fd).addConnection fd peer = (none, r)) :
      Step s { s with reactor := r.closeFd fd }
  | addInvalid {s : System} {r : Reactor} (fd : ℤ) (peer : SockAddr) (hfd : fd < 0)
      (h : s.reactor.addConnection fd peer = (none, r)) : Step s { s with reactor := r }
  | request {s : System} {op : Operation} {r : Reactor} (req : Request) (hsized : req.Sized)
      (h : s.reactor.request s.nextPromise req = (some op, r)) :
      Step s { s with
        reactor := r
        callers := .enqueueing op :: s.callers
        nextPromise := s.nextPromise + 1 }
  | requestRejected {s : System} {r : Reactor} (req : Request) (hsized : req.Sized)
      (h : s.reactor.request s.nextPromise req = (none, r)) :
      Step s { s with reactor := r }
  | enqueue {s : System} {op : Operation} {before after : List Caller}
      (hcallers : s.callers = before ++ .enqueueing op :: after)
      (h : ¬s.reactor.queueStopped) :
      Step s { s with
        reactor := s.reactor.push op
        callers := before ++ .waking :: after }
  | enqueueRejected {s : System} {op : Operation} {before after : List Caller}
      (hcallers : s.callers = before ++ .enqueueing op :: after)
      (h : s.reactor.queueStopped) :
      Step s { s with reactor := s.reactor.reject op, callers := before ++ after }
  | wake {s : System} {before after : List Caller}
      (hcallers : s.callers = before ++ .waking :: after) :
      Step s { s with reactor := s.reactor.triggerWakeup, callers := before ++ after }
  | setConnectionTimeout {s : System} (timeout : ℤ) :
      Step s { s with reactor := { s.reactor with connectionTimeout := timeout } }
  | setEventCallback {s : System} (receiver : Receiver)
      (h : s.reactor.receiver ≠ .workerPool) (hreceiver : receiver ≠ .workerPool) :
      Step s { s with reactor := { s.reactor with receiver := receiver } }
  | loop {s : System} {r : Reactor} {loop : Loop}
      (h : Loop.Step (s.reactor, s.loop) (r, loop)) :
      Step s { s with reactor := r, loop := loop }
  | stop {s : System} (h : s.reactor.isRunning) :
      Step s { s with
        reactor := { s.reactor with isRunning := false }
        stopping := .flagged }
  | stopQueue {s : System} (h : s.stopping = .flagged) :
      Step s { s with
        reactor := { s.reactor with queueStopped := true }
        stopping := .notified }
  | stopWake {s : System} (h : s.stopping = .notified) :
      Step s { s with reactor := s.reactor.triggerWakeup, stopping := .joining }
  | stopCleanup {s : System} (env : Environment) (hjoined : s.loop = .exited)
      (horder : env.Iterates s.reactor) (h : s.stopping = .joining) :
      Step s { s with
        reactor :=
          { s.reactor with kernel := s.reactor.kernel.closeQueue }.cleanupAllConnections env
        stopping := .returned }

/-- A new reactor that `Start` has just started. -/
def Reactor.started (reactorId : ℤ) (receiver : Receiver) (timeout : ℤ) : Reactor :=
  { reactorId := reactorId
    receiver := receiver
    isRunning := true
    connectionTimeout := timeout }

/-- The runs of a reactor from its start on. -/
def reactors (reactorId : ℤ) (receiver : Receiver) : TransitionSystem System where
  init s := ∃ timeout, s = { reactor := Reactor.started reactorId receiver timeout }
  step := System.Step

end DarwinCore.Network
