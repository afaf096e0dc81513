import DarwinCore.Model.Network.ClientReactorSystem

/-! # `Client`

A client with its reactor, its worker pool and the threads that use it. One thread calls
`ConnectIPv4`, `ConnectIPv6`, `ConnectUnixDomain`, `GracefulShutdown` and `Disconnect`, one call
after another; any number of threads call `SendData` and `SendAsync`. The pool has one worker,
which passes the events that the reactor has submitted to `OnNetworkEvent` in their order, and it
runs as long as there is a reactor, so that it refuses none. What a thread does that still uses a
reactor when `Cleanup` destroys it is not defined, and it takes no further step. -/

namespace DarwinCore.Network

/-! ## State -/

/-- `Client::Impl::State`. -/
inductive ClientState where
  | disconnected
  | connecting
  | connected
  | closing
  deriving DecidableEq, Repr

/-- `Client::Impl::SEND_HIGH_WATER_MARK`. -/
def sendHighWaterMark : ℕ := 8 * 1024 * 1024

/-- Where the calls are that set and end the connection. -/
inductive ClientCall where
  | idle
  /-- `ConnectInternal`, at the exchange of `state_`. -/
  | exchanging (fd : ℤ) (addr : SockAddr)
  /-- At `connect`. -/
  | connecting (fd : ℤ) (addr : SockAddr)
  /-- At `InitReactor`. -/
  | initializing (fd : ℤ)
  /-- `InitReactor` has started the worker pool. -/
  | starting (fd : ℤ)
  /-- At the call of `SetConnection`. -/
  | calling (fd : ℤ)
  | setting (fd : ℤ)
  /-- The socket is closed, `state_` not yet reset. -/
  | failing
  | connectReturned (success : Bool)
  /-- `GracefulShutdown` with its timeout, or `Disconnect`, at the test of `state_`. -/
  | swapping (timeout : Option ℤ)
  /-- In the loop of `GracefulShutdown`. -/
  | polling (timeout : ℤ)
  /-- At `Cleanup`. -/
  | cleaning (graceful : Bool)
  /-- In `ClientReactor::Stop`. -/
  | stopping (graceful : Bool)
  /-- In `WorkerPool::Stop`. -/
  | draining (graceful : Bool)
  /-- At the last assignment to `state_`. -/
  | storing (graceful : Bool)
  | shutdownReturned (success : Bool)
  deriving DecidableEq, Repr

/-- A thread inside `SendData` or `SendAsync` that has found a connection and a reactor. -/
inductive ClientSender where
  /-- `SendAsync`, at `GetSendBufferSize`. -/
  | measuring (data : List UInt8) (callback : ℕ)
  /-- At the call of the reactor. -/
  | requesting (req : SendRequest)
  deriving DecidableEq, Repr

/-- `Client::Impl`. The members are those of the class up to `peer`. -/
structure Client where
  /-- `worker_pool_` is set. -/
  workerPool : Bool := false
  reactor : Option ClientSystem := none
  connectionId : UInt64 := 0
  state : ClientState := .disconnected
  peer : SockAddr := ⟨List.replicate 128 0⟩
  call : ClientCall := .idle
  senders : List ClientSender := []
  /-- The events that the worker pool has accepted and the worker not yet passed on. -/
  events : List NetworkEvent := []
  /-- The events that have been passed to `OnNetworkEvent`. -/
  received : List NetworkEvent := []
  /-- The sockets that the client itself has opened and closed. -/
  log : List ClientEffect := []

/-! ## Events -/

/-- The event that the worker pool has accepted. -/
def ClientEffect.submitted : ClientEffect → Option NetworkEvent
  | .dispatched event => some event
  | _ => none

/-- What the reactor has submitted so far, oldest first. -/
def ClientReactor.submitted (r : ClientReactor) : List NetworkEvent :=
  (r.log.filterMap ClientEffect.submitted).reverse

namespace ClientSystem

/-- What is submitted in a step. -/
def submits (s t : ClientSystem) : List NetworkEvent :=
  t.reactor.submitted.drop s.reactor.submitted.length

/-- A step of the threads inside the reactor: no call is made or returns, `Stop` does not begin,
and the pool takes every event. -/
structure Inner (s t : ClientSystem) : Prop where
  step : ClientSystem.Step s t
  callers : t.callers.length ≤ s.callers.length
  owners : t.owners.length = s.owners.length
  stopping : s.stopping = .notCalled → t.stopping = .notCalled
  accepted : ∀ event, .refused event ∉ t.reactor.log

/-- A reactor whose `Start` has failed. -/
def unstarted (kqueueOpen : Bool) : ClientSystem :=
  { reactor := { receiver := .workerPool, kernel := { kqueueOpen := kqueueOpen } }
    loop := .exited }

end ClientSystem

namespace Client

/-- `OnNetworkEvent`, without the callbacks of the user. -/
def onNetworkEvent (event : NetworkEvent) (c : Client) : Client :=
  match event with
  | .connected id _ => { c with state := .connected, connectionId := id }
  | .data _ _ => c
  | .disconnected _ => { c with state := .disconnected, connectionId := 0 }
  | .error _ _ _ => { c with state := .disconnected, connectionId := 0 }

/-- The worker passes an event on. -/
def deliver (event : NetworkEvent) (rest : List NetworkEvent) (c : Client) : Client :=
  { c.onNetworkEvent event with events := rest, received := c.received ++ [event] }

/-- The reactor goes from `s` to `t`. -/
def react (s t : ClientSystem) (c : Client) : Client :=
  { c with reactor := some t, events := c.events ++ s.submits t }

/-! ## Setting the connection -/

/-- `socket` returns `fd`. -/
def openSocket (fd : ℤ) (addr : SockAddr) (c : Client) : Client :=
  { c with call := .exchanging fd addr, log := .opened fd :: c.log }

/-- `close` by the client itself, which goes on with `call`. -/
def closeSocket (fd : ℤ) (call : ClientCall) (c : Client) : Client :=
  { c with call := call, log := .closed fd :: c.log }

/-- The exchange in `ConnectInternal`. -/
def exchange (fd : ℤ) (addr : SockAddr) (c : Client) : Client :=
  if c.state ≠ .disconnected then
    { c with state := .connecting }.closeSocket fd (.connectReturned false)
  else { c with state := .connecting, call := .connecting fd addr }

/-- `connect` and what `ConnectInternal` does with its result. The address is copied over the last
one. -/
def connect (fd : ℤ) (addr : SockAddr) (success : Bool) (c : Client) : Client :=
  if ¬success then c.closeSocket fd .failing
  else
    { c with
      peer := ⟨addr.bytes ++ c.peer.bytes.drop addr.bytes.length⟩
      call := .initializing fd }

/-- `InitReactor` up to the start of the reactor. A worker pool is made and started if there is no
reactor. -/
def initReactor (fd : ℤ) (success : Bool) (c : Client) : Client :=
  if c.reactor.isSome then { c with call := .calling fd }
  else if ¬success then { c with workerPool := true }.closeSocket fd .failing
  else { c with workerPool := true, call := .starting fd }

/-- `SetConnection` has returned to `ConnectInternal`. -/
def afterSetConnection (fd : ℤ) (success : Bool) (c : Client) : Client :=
  if ¬success then c.closeSocket fd .failing else { c with call := .connectReturned true }

/-! ## Ending the connection -/

/-- The test of `state_` in `GracefulShutdown`, and in `Disconnect`, where there is no timeout. -/
def swap (timeout : Option ℤ) (c : Client) : Client :=
  let call := timeout.elim (.cleaning false) .polling
  match c.state with
  | .connected => { c with state := .closing, call := call }
  | .connecting => { c with call := call }
  | _ => { c with call := if timeout.isSome then .shutdownReturned false else .idle }

/-- One pass of the loop of `GracefulShutdown`. -/
def poll (timeout : ℤ) (elapsed : Bool) (c : Client) : Client :=
  match c.reactor with
  | none => { c with call := .cleaning true }
  | some s =>
      if s.reactor.getSendBufferSize = 0 then { c with call := .cleaning true }
      else if 0 < timeout ∧ elapsed then { c with call := .shutdownReturned false }
      else c

/-- The end of `GracefulShutdown` or `Disconnect`. -/
def finish (graceful : Bool) (c : Client) : Client :=
  { c with
    state := .disconnected
    call := if graceful then .shutdownReturned true else .idle }

/-! ## Sending -/

/-- `SendAsync` after `GetSendBufferSize`. -/
def measure (data : List UInt8) (callback : ℕ) (s : ClientSystem) : Option ClientSender :=
  if sendHighWaterMark < s.reactor.getSendBufferSize then none
  else some (.requesting (.withCallback data (some callback)))

end Client

/-! ## The system -/

inductive Client.Step : Client → Client → Prop where
  /-- The address is not valid, or `socket` fails. -/
  | refuse {c : Client} (h : c.call = .idle) : Step c { c with call := .connectReturned false }
  | openSocket {c : Client} (fd : ℤ) (addr : SockAddr) (hfd : 0 ≤ fd) (h : c.call = .idle) :
      Step c (c.openSocket fd addr)
  | exchange {c : Client} {fd : ℤ} {addr : SockAddr} (h : c.call = .exchanging fd addr) :
      Step c (c.exchange fd addr)
  | connect {c : Client} {fd : ℤ} {addr : SockAddr} (success : Bool)
      (h : c.call = .connecting fd addr) : Step c (c.connect fd addr success)
  | initReactor {c : Client} {fd : ℤ} (success : Bool) (h : c.call = .initializing fd) :
      Step c (c.initReactor fd success)
  | startReactor {c : Client} {fd : ℤ} (fds : Finset ℤ) (h : c.call = .starting fd) :
      Step c { c with
        reactor := some { reactor := ClientReactor.started .workerPool fds }
        call := .calling fd }
  | startFails {c : Client} {fd : ℤ} (kqueueOpen : Bool) (h : c.call = .starting fd) :
      Step c ({ c with reactor := some (.unstarted kqueueOpen) }.closeSocket fd .failing)
  | setConnection {c : Client} {s : ClientSystem} {fd : ℤ} (hreactor : c.reactor = some s)
      (h : c.call = .calling fd) :
      Step c { c with
        reactor := some { s with owners := .setting fd c.peer .entering :: s.owners }
        call := .setting fd }
  | setConnectionReturned {c : Client} {s : ClientSystem} {fd : ℤ} {peer : SockAddr}
      {success : Bool} {before after : List ConnectionCaller} (hreactor : c.reactor = some s)
      (howners : s.owners = before ++ .setting fd peer (.returned success) :: after)
      (h : c.call = .setting fd) :
      Step c (Client.afterSetConnection fd success
        { c with reactor := some { s with owners := before ++ after } })
  | fail {c : Client} (h : c.call = .failing) :
      Step c { c with state := .disconnected, call := .connectReturned false }
  | connectReturned {c : Client} {success : Bool} (h : c.call = .connectReturned success) :
      Step c { c with call := .idle }
  | shutDown {c : Client} (timeout : Option ℤ) (h : c.call = .idle) :
      Step c { c with call := .swapping timeout }
  | swap {c : Client} {timeout : Option ℤ} (h : c.call = .swapping timeout) :
      Step c (c.swap timeout)
  | poll {c : Client} {timeout : ℤ} (elapsed : Bool) (h : c.call = .polling timeout) :
      Step c (c.poll timeout elapsed)
  | stop {c : Client} {s : ClientSystem} {graceful : Bool} (hreactor : c.reactor = some s)
      (hrunning : s.reactor.isRunning) (h : c.call = .cleaning graceful) :
      Step c { c with
        reactor := some { s with
          reactor := { s.reactor with isRunning := false }
          stopping := .flagged }
        call := .stopping graceful }
  /-- `Stop` returns at once if the reactor is not running. -/
  | reset {c : Client} {graceful : Bool}
      (hreactor : ∀ s, c.reactor = some s → ¬s.reactor.isRunning)
      (h : c.call = .cleaning graceful) :
      Step c { c with reactor := none, call := .draining graceful }
  | stopped {c : Client} {s : ClientSystem} {graceful : Bool} (hreactor : c.reactor = some s)
      (hstopped : s.stopping = .returned) (h : c.call = .stopping graceful) :
      Step c { c with reactor := none, call := .draining graceful }
  /-- `WorkerPool::Stop` returns when the worker has passed on what was left. -/
  | drained {c : Client} {graceful : Bool} (hevents : c.events = [])
      (h : c.call = .draining graceful) :
      Step c { c with workerPool := false, connectionId := 0, call := .storing graceful }
  | finish {c : Client} {graceful : Bool} (h : c.call = .storing graceful) :
      Step c (c.finish graceful)
  | shutdownReturned {c : Client} {success : Bool} (h : c.call = .shutdownReturned success) :
      Step c { c with call := .idle }
  | deliver {c : Client} {event : NetworkEvent} {rest : List NetworkEvent}
      (h : c.events = event :: rest) : Step c (c.deliver event rest)
  | sendData {c : Client} (data : List UInt8) (hconnected : c.state = .connected)
      (hreactor : c.reactor.isSome) :
      Step c { c with senders := .requesting (.sync data) :: c.senders }
  | sendAsync {c : Client} (data : List UInt8) (callback : ℕ) (hconnected : c.state = .connected)
      (hreactor : c.reactor.isSome) :
      Step c { c with senders := .measuring data callback :: c.senders }
  | measure {c : Client} {s : ClientSystem} {data : List UInt8} {callback : ℕ}
      {before after : List ClientSender} (hreactor : c.reactor = some s)
      (hsenders : c.senders = before ++ .measuring data callback :: after) :
      Step c { c with senders := before ++ (Client.measure data callback s).toList ++ after }
  | request {c : Client} {s : ClientSystem} {req : SendRequest} {op : SendOperation}
      {before after : List ClientSender} (hreactor : c.reactor = some s)
      (hsenders : c.senders = before ++ .requesting req :: after)
      (hsized : req.data.length < 2 ^ 63) (h : s.reactor.request s.nextPromise req = some op) :
      Step c { c with
        reactor := some { s with
          callers := .enqueueing op :: s.callers
          nextPromise := s.nextPromise + 1 }
        senders := before ++ after }
  | requestRefused {c : Client} {s : ClientSystem} {req : SendRequest}
      {before after : List ClientSender} (hreactor : c.reactor = some s)
      (hsenders : c.senders = before ++ .requesting req :: after)
      (h : s.reactor.request s.nextPromise req = none) :
      Step c { c with senders := before ++ after }
  | react {c : Client} {s t : ClientSystem} (hreactor : c.reactor = some s)
      (h : s.Inner t) : Step c (c.react s t)

/-- The runs of a client from its construction on. -/
def clients : TransitionSystem Client where
  init c := c = {}
  step := Client.Step

end DarwinCore.Network
