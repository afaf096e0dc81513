import DarwinCore.Model.Network.ClientReactor
import DarwinCore.Model.Network.ReactorSystem

/-! # A running client reactor

A client reactor after `Start`: its event loop, the threads that send, the calls of
`SetConnection` and `RemoveConnection`, and `Stop`. The threads interleave between the points
at which they touch shared state. -/

namespace DarwinCore.Network

/-! ## Threads -/

/-- A call of one of the functions that send. -/
inductive SendRequest where
  | async (data : List UInt8)
  | sync (data : List UInt8)
  | withCallback (data : List UInt8) (callback : Option ℕ)
  deriving DecidableEq, Repr

def SendRequest.data : SendRequest → List UInt8
  | async data => data
  | sync data => data
  | withCallback data _ => data

/-- The call up to `Enqueue`. -/
def ClientReactor.request (promise : ℕ) (req : SendRequest) (r : ClientReactor) :
    Option SendOperation :=
  match req with
  | .async data => r.sendAsync data
  | .sync data => r.sendSync data promise
  | .withCallback data callback => r.sendAsyncWithCallback data callback

/-- A thread inside a function that sends: before `Enqueue`, or before the wakeup. -/
inductive SendCaller where
  | enqueueing (op : SendOperation)
  | waking
  deriving DecidableEq, Repr

/-- A thread inside `SetConnection` or `RemoveConnection`. -/
inductive ConnectionCaller where
  | setting (fd : ℤ) (peer : SockAddr) (setting : ClientReactor.Setting)
  | removing (removal : ClientReactor.Removal)
  deriving DecidableEq, Repr

/-- Where `RunEventLoop` is. -/
inductive ClientLoop where
  /-- At the test of `is_running_`. -/
  | top
  /-- In `ProcessPendingOperations`. -/
  | draining (processed : ℕ)
  /-- `DoSend` has returned. -/
  | completing (processed : ℕ) (op : SendOperation) (success : Bool)
  /-- At the end of `ProcessPendingOperations`. -/
  | flushing
  /-- In `WaitEvents`. -/
  | waiting
  | handling (events : List KEvent)
  /-- In `HandleReadEvent`. -/
  | reading (fd : ℤ) (events : List KEvent)
  /-- In `RemoveConnection`, to go on with `next`. -/
  | removing (removal : ClientReactor.Removal) (next : ClientLoop)
  | exited
  deriving DecidableEq, Repr

/-- The loop goes on with `next`, after `RemoveConnection` if that is called. -/
def ClientLoop.after (removes : Bool) (next : ClientLoop) : ClientLoop :=
  if removes then removing .checking next else next

/-- Where the loop goes on when the events left are `events`. -/
def ClientReactor.Reaction.next (events : List KEvent) : Reaction → ClientLoop
  | done => .handling events
  | reading fd => .reading fd events
  | removing => .removing .checking (.handling events)

/-- Where `Stop` is. -/
inductive ClientStopping where
  | notCalled
  /-- `is_running_` is cleared. -/
  | flagged
  /-- The queue is stopped. -/
  | notified
  /-- The loop is woken. -/
  | woken
  /-- The socket is shut down. -/
  | joining
  /-- The `kqueue` is closed. -/
  | closing
  | returned
  deriving DecidableEq, Repr

/-- `ClientReactor::kWakeupIdent`. -/
def clientWakeupIdent : ℤ := 2

def KEvent.isClientWakeup (event : KEvent) : Bool :=
  event.filter = .user && event.ident = clientWakeupIdent

namespace ClientReactor

/-- `shutdown` in `Stop`, of the socket of the connection if there is one. -/
def shutdownConnection (r : ClientReactor) : ClientReactor :=
  if r.hasConnection ∧ 0 ≤ r.connection.fileDescriptor then
    r.emit (.shutdown r.connection.fileDescriptor)
  else r

/-- The end of `Stop`, where the connection is closed if there is one. -/
def closeConnection (r : ClientReactor) : ClientReactor :=
  if r.hasConnection ∧ 0 ≤ r.connection.fileDescriptor then
    { (r.closeFd r.connection.fileDescriptor).assign fun c => { c with fileDescriptor := -1 } with
      hasConnection := false }
  else r

end ClientReactor

/-- The steps of the thread of the reactor. -/
inductive ClientLoop.Step : ClientReactor × ClientLoop → ClientReactor × ClientLoop → Prop where
  | enter {r : ClientReactor} (h : r.isRunning) : Step (r, top) (r, draining 0)
  | leave {r : ClientReactor} (h : ¬r.isRunning) : Step (r, top) (r, exited)
  | process {r r' : ClientReactor} {processed : ℕ} (env : Environment) {op : SendOperation}
      {rest : List SendOperation} {success removes : Bool} (hbatch : processed < maxBatchSize)
      (hqueue : r.sendOperations = op :: rest)
      (h : (r.dequeue op rest).doSend env op.data = some (success, removes, r')) :
      Step (r, draining processed) (r', after removes (completing (processed + 1) op success))
  | complete {r : ClientReactor} {processed : ℕ} {op : SendOperation} {success : Bool} :
      Step (r, completing processed op success) (r.complete op success, draining processed)
  | drained {r : ClientReactor} {processed : ℕ}
      (h : processed = maxBatchSize ∨ r.sendOperations = []) :
      Step (r, draining processed) (r, if 0 < processed then flushing else waiting)
  | flush {r : ClientReactor} (env : Environment) :
      Step (r, flushing) ((r.trySendDirect env).2, after (r.trySendDirect env).1 waiting)
  | interrupted {r : ClientReactor} : Step (r, waiting) (r, top)
  | failed {r : ClientReactor} : Step (r, waiting) (r, exited)
  | woken {r : ClientReactor} (events : List KEvent) (h : events.length ≤ eventBatchSize) :
      Step (r, waiting)
        (if events.any KEvent.isClientWakeup then { r with kernel := r.kernel.clearWakeup } else r,
          handling events)
  | handle {r : ClientReactor} (env : Environment) {event : KEvent} {events : List KEvent}
      (h : event.isClientWakeup = false) :
      Step (r, handling (event :: events))
        ((r.processKqueueEvent env event).2, (r.processKqueueEvent env event).1.next events)
  | skip {r : ClientReactor} {event : KEvent} {events : List KEvent}
      (h : event.isClientWakeup = true) : Step (r, handling (event :: events)) (r, handling events)
  | handled {r : ClientReactor} : Step (r, handling []) (r, top)
  | receive {r : ClientReactor} (env : Environment) (outcome : RecvOutcome) {fd : ℤ}
      {events : List KEvent} :
      Step (r, reading fd events)
        ((r.receive env fd outcome).2, (r.receive env fd outcome).1.next events)
  | remove {r r' : ClientReactor} (env : Environment) {removal : ClientReactor.Removal}
      {following : Option ClientReactor.Removal} {next : ClientLoop}
      (h : r.removeConnection env removal = (following, r')) :
      Step (r, removing removal next) (r', following.elim next (removing · next))

/-! ## The system -/

structure ClientSystem where
  reactor : ClientReactor
  callers : List SendCaller := []
  /-- The threads inside `SetConnection` or `RemoveConnection`. -/
  owners : List ConnectionCaller := []
  loop : ClientLoop := .top
  stopping : ClientStopping := .notCalled
  /-- The number of the next promise. -/
  nextPromise : ℕ := 0

inductive ClientSystem.Step : ClientSystem → ClientSystem → Prop where
  | request {s : ClientSystem} {op : SendOperation} (req : SendRequest)
      (hsized : req.data.length < 2 ^ 63)
      (h : s.reactor.request s.nextPromise req = some op) :
      Step s { s with
        callers := .enqueueing op :: s.callers
        nextPromise := s.nextPromise + 1 }
  | enqueue {s : ClientSystem} {op : SendOperation} {before after : List SendCaller}
      (hcallers : s.callers = before ++ .enqueueing op :: after)
      (h : ¬s.reactor.queueStopped) :
      Step s { s with
        reactor := s.reactor.push op
        callers := before ++ .waking :: after }
  | enqueueRejected {s : ClientSystem} {op : SendOperation} {before after : List SendCaller}
      (hcallers : s.callers = before ++ .enqueueing op :: after)
      (h : s.reactor.queueStopped) : Step s { s with callers := before ++ after }
  | wake {s : ClientSystem} {before after : List SendCaller}
      (hcallers : s.callers = before ++ .waking :: after) :
      Step s { s with reactor := s.reactor.triggerWakeup, callers := before ++ after }
  | setConnection {s : ClientSystem} (fd : ℤ) (peer : SockAddr) :
      Step s { s with owners := .setting fd peer .entering :: s.owners }
  | setting {s : ClientSystem} (env : Environment) {fd : ℤ} {peer : SockAddr}
      {setting : ClientReactor.Setting} {before after : List ConnectionCaller}
      (howners : s.owners = before ++ .setting fd peer setting :: after) :
      Step s { s with
        reactor := (s.reactor.setConnection env fd peer setting).2
        owners := before ++
          .setting fd peer (s.reactor.setConnection env fd peer setting).1 :: after }
  | setConnectionReturned {s : ClientSystem} {fd : ℤ} {peer : SockAddr} {success : Bool}
      {before after : List ConnectionCaller}
      (howners : s.owners = before ++ .setting fd peer (.returned success) :: after) :
      Step s { s with owners := before ++ after }
  | removeConnection {s : ClientSystem} :
      Step s { s with owners := .removing .checking :: s.owners }
  | removing {s : ClientSystem} (env : Environment) {removal : ClientReactor.Removal}
      {before after : List ConnectionCaller}
      (howners : s.owners = before ++ .removing removal :: after) :
      Step s { s with
        reactor := (s.reactor.removeConnection env removal).2
        owners := before ++
          ((s.reactor.removeConnection env removal).1.map .removing).toList ++ after }
  | loop {s : ClientSystem} {r : ClientReactor} {loop : ClientLoop}
      (h : ClientLoop.Step (s.reactor, s.loop) (r, loop)) :
      Step s { s with reactor := r, loop := loop }
  | stop {s : ClientSystem} (h : s.reactor.isRunning) :
      Step s { s with
        reactor := { s.reactor with isRunning := false }
        stopping := .flagged }
  | stopQueue {s : ClientSystem} (h : s.stopping = .flagged) :
      Step s { s with
        reactor := { s.reactor with queueStopped := true }
        stopping := .notified }
  | stopWake {s : ClientSystem} (h : s.stopping = .notified) :
      Step s { s with reactor := s.reactor.triggerWakeup, stopping := .woken }
  | stopShutdown {s : ClientSystem} (h : s.stopping = .woken) :
      Step s { s with reactor := s.reactor.shutdownConnection, stopping := .joining }
  | stopMonitor {s : ClientSystem} (hjoined : s.loop = .exited) (h : s.stopping = .joining) :
      Step s { s with
        reactor := { s.reactor with kernel := s.reactor.kernel.closeQueue }
        stopping := .closing }
  | stopClose {s : ClientSystem} (h : s.stopping = .closing) :
      Step s { s with reactor := s.reactor.closeConnection, stopping := .returned }

/-- A new client reactor that `Start` has just started, with `fds` open elsewhere. -/
def ClientReactor.started (receiver : Receiver) (fds : Finset ℤ) : ClientReactor :=
  { receiver := receiver, isRunning := true, kernel := { openFds := fds } }

/-- The runs of a client reactor from its start on. -/
def clientReactors (receiver : Receiver) : TransitionSystem ClientSystem where
  init s := ∃ fds, s = { reactor := ClientReactor.started receiver fds }
  step := ClientSystem.Step

end DarwinCore.Network
