import DarwinCore.Model.Network.Client
import DarwinCore.Model.Network.PoolThreads

/-! # Where the threads of a `Client` wait for each other

The thread that uses a client, its reactor and its worker, whose callbacks call `SendData` without a
timeout and `SendAsync`. What comes from the network and from the socket is given with the step.
`Client` makes its pool for one worker and without a limit; here the limit is a parameter. -/

namespace DarwinCore.Network

/-! ## Calls that send -/

/-- A call of `SendData`, with the timeout 0, or of `SendAsync`. -/
inductive ClientSend where
  | sendData (data : List UInt8)
  | sendAsync (data : List UInt8) (callback : Option ℕ)

def ClientSend.data : ClientSend → List UInt8
  | sendData data => data
  | sendAsync data _ => data

/-- Where such a call is. -/
inductive ClientSendPlace where
  /-- At the test of `state_` and `reactor_`. -/
  | testing
  /-- `SendAsync`, at the comparison with `SEND_HIGH_WATER_MARK`. -/
  | measuring
  /-- In the reactor, at the test of `is_running_`. -/
  | requesting
  /-- In the reactor, at `Enqueue`. -/
  | enqueueing (op : SendOperation)
  /-- In `SendSync`, at `future.wait()`. -/
  | waiting (promise : ℕ)

/-- `OnNetworkEvent`. -/
inductive ClientCallback where
  /-- At the switch. -/
  | entering (event : NetworkEvent)
  /-- In a callback of the user, with the calls it has still to make. It is in the first one. -/
  | sending (calls : List ClientSend) (place : ClientSendPlace)

def ClientCallback.Starts (event : NetworkEvent) (callback : ClientCallback) : Prop :=
  callback = entering event

def ClientCallback.Finished (callback : ClientCallback) : Prop :=
  ∃ place, callback = sending [] place

/-! ## Places -/

/-- Who submits events. -/
inductive ClientDispatcher where
  /-- In `SetConnection`. -/
  | caller
  | reactor
  deriving DecidableEq, Repr

/-- Where `RunEventLoop` is; `left` is the number of events that are still to be handled. -/
inductive ClientPlace where
  | top
  | draining (processed : ℕ)
  /-- `DoSend` has returned. -/
  | completing (processed : ℕ) (op : SendOperation) (success : Bool)
  /-- At the end of `ProcessPendingOperations`. -/
  | flushing
  /-- In `WaitEvents`. -/
  | waiting
  | handling (left : ℕ)
  /-- In `HandleReadEvent`. -/
  | reading (left : ℕ)
  | exited

/-- Where the thread that uses the client is. -/
inductive ClientCaller where
  | outside
  /-- In `ConnectInternal`, at `connect`. -/
  | connecting
  /-- At `InitReactor`. -/
  | initializing
  /-- At `SetConnection`. -/
  | setting
  /-- In `SetConnection`, once an old connection is removed. -/
  | assigning
  /-- At the end of `SetConnection`. -/
  | dispatching
  | sending (call : ClientSend) (place : ClientSendPlace)
  /-- In the loop of `GracefulShutdown`. -/
  | polling
  /-- At `Cleanup`. -/
  | cleaning
  /-- In `ClientReactor::Stop`, at `NotifyStop`. -/
  | notifying
  /-- In `ClientReactor::Stop`, at the join. -/
  | joining
  /-- In `WorkerPool::Stop`, at the exchange of `is_running_`. -/
  | stoppingPool
  | stoppingQueue
  | notifyingNotEmpty
  | notifyingNotFull
  | joiningWorker
  /-- At the last assignment to `state_`. -/
  | storing

/-! ## The client -/

/-- `Client::Impl` with its reactor, its pool and what they share. -/
structure WaitingClient where
  state : ClientState := .disconnected
  /-- `reactor_` is set. -/
  hasReactor : Bool := false
  /-- `is_running_` of the reactor. -/
  isRunning : Bool := false
  hasConnection : Bool := false
  connectionId : UInt64 := 0
  sendOperations : ConcurrentQueue SendOperation := { maxSize := 0 }
  loop : ClientPlace := .exited
  nextPromise : ℕ := 0
  /-- The values of the promises that have been set. -/
  answers : ℕ → Option Bool := fun _ => none
  caller : ClientCaller := .outside
  pool : PoolThreads ClientDispatcher 1 ClientCallback

namespace WaitingClient

variable (c : WaitingClient)

/-- `InitReactor` with a queue that has room for so many. -/
def initReactor (maxQueueSize : ℕ) (success : Bool) : WaitingClient :=
  { c with
    hasReactor := true
    isRunning := success
    hasConnection := false
    sendOperations := { maxSize := 0 }
    loop := if success then .top else .exited
    pool := { eventQueues := fun _ => { maxSize := maxQueueSize } } }

/-- `RemoveConnection` up to `DispatchDisconnectedEvent`. -/
def removeConnection (i : ClientDispatcher) : WaitingClient :=
  if c.hasConnection then
    { c with
      hasConnection := false
      pool := c.pool.setDispatch i { events := [.disconnected c.connectionId] } }
  else c

/-- The same if it is called. -/
def removeIf (removes : Bool) (i : ClientDispatcher) : WaitingClient :=
  if removes then c.removeConnection i else c

/-- What `OnNetworkEvent` does before it calls the user. -/
def onNetworkEvent (event : NetworkEvent) : WaitingClient :=
  match event with
  | .connected id _ => { c with state := .connected, connectionId := id }
  | .data _ _ => c
  | .disconnected _ => { c with state := .disconnected }
  | .error _ _ _ => { c with state := .disconnected }

/-! ## Steps -/

/-- The operation of a call. -/
def operation (call : ClientSend) : SendOperation :=
  match call with
  | .sendData data => { data := data, promise := some c.nextPromise }
  | .sendAsync data callback => { data := data, callback := callback }

/-- The steps of a call that sends. There is no place when it has returned. -/
inductive SendStep (c : WaitingClient) (call : ClientSend) :
    ClientSendPlace → WaitingClient → Option ClientSendPlace → Prop where
  | refuse (h : c.state ≠ .connected ∨ ¬c.hasReactor) : SendStep c call .testing c none
  | test (hstate : c.state = .connected) (hreactor : c.hasReactor) :
      SendStep c call .testing c
        (match call with
        | .sendData _ => some .requesting
        | .sendAsync _ _ => some .measuring)
  | measure (exceeded : Bool) :
      SendStep c call .measuring c (if exceeded then none else some .requesting)
  | request :
      SendStep c call .requesting { c with nextPromise := c.nextPromise + 1 }
        (if call.data = [] ∨ ¬c.isRunning then none else some (.enqueueing (c.operation call)))
  | enqueue {op : SendOperation} {success : Bool} {q : ConcurrentQueue SendOperation}
      (hqueue : c.sendOperations.enqueue op = some (success, q)) :
      SendStep c call (.enqueueing op) { c with sendOperations := q }
        (if success then op.promise.map .waiting else none)
  /-- The promise has been set, or destroyed with the reactor. -/
  | ret {promise : ℕ} (h : (c.answers promise).isSome ∨ ¬c.hasReactor) :
      SendStep c call (.waiting promise) c none

/-- The steps of the event loop between two dispatches. -/
inductive LoopStep (c : WaitingClient) : WaitingClient → Prop where
  | enter (hloop : c.loop = .top) (h : c.isRunning) : LoopStep c { c with loop := .draining 0 }
  | leave (hloop : c.loop = .top) (h : ¬c.isRunning) : LoopStep c { c with loop := .exited }
  /-- `DoSend`, which fails without a connection or if the buffer does; `TrySendDirect` may remove
  the connection. -/
  | process {processed : ℕ} {op : SendOperation} {q : ConcurrentQueue SendOperation}
      {success : Bool} (removes : Bool) (hloop : c.loop = .draining processed)
      (hbatch : processed < maxBatchSize) (hqueue : c.sendOperations.tryDequeue = (some op, q))
      (hsuccess : success = true → c.hasConnection = true) :
      LoopStep c (removeIf
        { c with sendOperations := q, loop := .completing (processed + 1) op success }
        (removes && success) .reactor)
  | complete {processed : ℕ} {op : SendOperation} {success : Bool}
      (hloop : c.loop = .completing processed op success) :
      LoopStep c { c with
        loop := .draining processed
        answers := op.promise.elim c.answers fun promise =>
          Function.update c.answers promise (some success) }
  | drained {processed : ℕ} (hloop : c.loop = .draining processed)
      (h : ¬processed < maxBatchSize ∨ c.sendOperations.tryDequeue.1 = none) :
      LoopStep c { c with loop := if 0 < processed then .flushing else .waiting }
  | flush (removes : Bool) (hloop : c.loop = .flushing) :
      LoopStep c (removeIf { c with loop := .waiting } removes .reactor)
  | interrupted (hloop : c.loop = .waiting) : LoopStep c { c with loop := .top }
  | failed (hloop : c.loop = .waiting) : LoopStep c { c with loop := .exited }
  | waited {left : ℕ} (hloop : c.loop = .waiting) (hleft : left ≤ eventBatchSize) :
      LoopStep c { c with loop := .handling left }
  | handled (hloop : c.loop = .handling 0) : LoopStep c { c with loop := .top }
  /-- An event that is not one to read. -/
  | handle {left : ℕ} (removes : Bool) (hloop : c.loop = .handling (left + 1)) :
      LoopStep c (removeIf { c with loop := .handling left } removes .reactor)
  | handleRead {left : ℕ} (hloop : c.loop = .handling (left + 1)) (h : c.hasConnection) :
      LoopStep c { c with loop := .reading left }
  | receive {left : ℕ} (data : List UInt8) (hloop : c.loop = .reading left) :
      LoopStep c { c with
        pool := c.pool.setDispatch .reactor { events := [.data c.connectionId data] } }
  /-- There is nothing more to read, or the connection is lost. -/
  | received {left : ℕ} (removes : Bool) (hloop : c.loop = .reading left) :
      LoopStep c (removeIf { c with loop := .handling left } removes .reactor)

inductive ReactorStep (c : WaitingClient) : WaitingClient → Prop where
  | loop {c' : WaitingClient} (hidle : (c.pool.dispatches .reactor).events = [])
      (h : c.LoopStep c') : ReactorStep c c'
  | dispatch {p : PoolThreads ClientDispatcher 1 ClientCallback}
      (h : c.pool.DispatchStep .reactor p) : ReactorStep c { c with pool := p }

inductive WorkerStep (c : WaitingClient) : WaitingClient → Prop where
  | pool {p : PoolThreads ClientDispatcher 1 ClientCallback}
      (h : c.pool.WorkerStep ClientCallback.Starts ClientCallback.Finished 0 p) :
      WorkerStep c { c with pool := p }
  /-- The callback of the user, if there is one, makes any calls that send. -/
  | enter {event : NetworkEvent} {remaining : Bool} (calls : List ClientSend)
      (h : c.pool.workers 0 = .calling (.entering event) remaining) :
      WorkerStep c { c.onNetworkEvent event with
        pool := c.pool.setWorker 0 (.calling (.sending calls .testing) remaining) }
  | send {call : ClientSend} {calls : List ClientSend} {place : ClientSendPlace}
      {place' : Option ClientSendPlace} {remaining : Bool} {c' : WaitingClient}
      (h : c.pool.workers 0 = .calling (.sending (call :: calls) place) remaining)
      (hsend : c.SendStep call place c' place') :
      WorkerStep c { c' with
        pool := c'.pool.setWorker 0 (.calling
          (match place' with
          | none => .sending calls .testing
          | some place' => .sending (call :: calls) place') remaining) }

/-- The steps of the thread that uses the client, where `maxQueueSize` is the limit of the pool. -/
inductive CallerStep (maxQueueSize : ℕ) (c : WaitingClient) : WaitingClient → Prop where
  | exchange (h : c.caller = .outside) :
      CallerStep maxQueueSize c { c with
        state := .connecting
        caller := if c.state = .disconnected then .connecting else .outside }
  | connect (success : Bool) (h : c.caller = .connecting) :
      CallerStep maxQueueSize c (if success then { c with caller := .initializing }
        else { c with state := .disconnected, caller := .outside })
  | initReactor (success : Bool) (h : c.caller = .initializing) (hreactor : ¬c.hasReactor) :
      CallerStep maxQueueSize c (if success then
          { c.initReactor maxQueueSize true with caller := .setting }
        else { c.initReactor maxQueueSize false with state := .disconnected, caller := .outside })
  | reuse (h : c.caller = .initializing) (hreactor : c.hasReactor) :
      CallerStep maxQueueSize c { c with caller := .setting }
  | setConnection (h : c.caller = .setting) :
      CallerStep maxQueueSize c (if c.isRunning then
          removeConnection { c with caller := .assigning } .caller
        else { c with state := .disconnected, caller := .outside })
  | dispatch {p : PoolThreads ClientDispatcher 1 ClientCallback}
      (h : c.pool.DispatchStep .caller p) : CallerStep maxQueueSize c { c with pool := p }
  | assign (id : UInt64) (peer : SockAddr) (h : c.caller = .assigning)
      (hidle : (c.pool.dispatches .caller).events = []) :
      CallerStep maxQueueSize c { c with
        hasConnection := true
        connectionId := id
        caller := .dispatching
        pool := c.pool.setDispatch .caller { events := [.connected id peer] } }
  | assignFails (h : c.caller = .assigning) (hidle : (c.pool.dispatches .caller).events = []) :
      CallerStep maxQueueSize c { c with state := .disconnected, caller := .outside }
  | connected (h : c.caller = .dispatching) (hidle : (c.pool.dispatches .caller).events = []) :
      CallerStep maxQueueSize c { c with caller := .outside }
  | call (call : ClientSend) (h : c.caller = .outside) :
      CallerStep maxQueueSize c { c with caller := .sending call .testing }
  | send {call : ClientSend} {place : ClientSendPlace} {place' : Option ClientSendPlace}
      {c' : WaitingClient} (h : c.caller = .sending call place)
      (hsend : c.SendStep call place c' place') :
      CallerStep maxQueueSize c { c' with caller := place'.elim .outside (.sending call) }
  /-- `GracefulShutdown` or `Disconnect`. -/
  | shutDown (graceful : Bool) (h : c.caller = .outside)
      (hstate : c.state = .connected ∨ c.state = .connecting) :
      CallerStep maxQueueSize c { c with
        state := if c.state = .connected then .closing else c.state
        caller := if graceful then .polling else .cleaning }
  /-- The buffer is empty, or the time is over. -/
  | poll (flushed : Bool) (h : c.caller = .polling) :
      CallerStep maxQueueSize c { c with caller := if flushed then .cleaning else .outside }
  | stopReactor (h : c.caller = .cleaning) (hreactor : c.hasReactor) (hrunning : c.isRunning) :
      CallerStep maxQueueSize c { c with isRunning := false, caller := .notifying }
  | noReactor (h : c.caller = .cleaning) (hreactor : ¬(c.hasReactor ∧ c.isRunning)) :
      CallerStep maxQueueSize c { c with hasReactor := false, caller := .stoppingPool }
  | notifyReactor (h : c.caller = .notifying) :
      CallerStep maxQueueSize c { c with
        sendOperations := c.sendOperations.notifyStop, caller := .joining }
  | joinReactor (h : c.caller = .joining) (hexited : c.loop = .exited) :
      CallerStep maxQueueSize c { c with
        hasConnection := false, hasReactor := false, caller := .stoppingPool }
  | stopPool (h : c.caller = .stoppingPool) :
      CallerStep maxQueueSize c { c with
        pool := { c.pool with isRunning := false }, caller := .stoppingQueue }
  | stopQueue (h : c.caller = .stoppingQueue) :
      CallerStep maxQueueSize c { c with pool := c.pool.stopQueue 0, caller := .notifyingNotEmpty }
  | notifyNotEmpty (h : c.caller = .notifyingNotEmpty) :
      CallerStep maxQueueSize c { c with
        pool := c.pool.notifyNotEmpty 0, caller := .notifyingNotFull }
  | notifyNotFull (h : c.caller = .notifyingNotFull) :
      CallerStep maxQueueSize c { c with pool := c.pool.notifyNotFull 0, caller := .joiningWorker }
  | joinWorker (h : c.caller = .joiningWorker) (hexited : c.pool.workers 0 = .exited) :
      CallerStep maxQueueSize c { c with caller := .storing }
  | store (h : c.caller = .storing) :
      CallerStep maxQueueSize c { c with state := .disconnected, caller := .outside }

inductive Step (maxQueueSize : ℕ) (c c' : WaitingClient) : Prop where
  | caller (h : c.CallerStep maxQueueSize c')
  | reactor (h : c.ReactorStep c')
  | worker (h : c.WorkerStep c')
  | spurious {p : PoolThreads ClientDispatcher 1 ClientCallback} (h : c.pool.SpuriousStep p)
      (hc : c' = { c with pool := p })

end WaitingClient

/-- The limit of the queue of the pool that `Client` makes. -/
def clientQueueSize : ℕ := 0

/-- The runs of a client from its construction on, with a pool whose queue has room for so many. -/
def waitingClients (maxQueueSize : ℕ) : TransitionSystem WaitingClient where
  init c := c = { pool := {
    isRunning := false
    eventQueues := fun _ => { maxSize := maxQueueSize }
    workers := fun _ => .exited } }
  step := WaitingClient.Step maxQueueSize

end DarwinCore.Network
