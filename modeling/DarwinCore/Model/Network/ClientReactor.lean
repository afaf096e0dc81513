import DarwinCore.Model.Network.Reactor

/-! # `ClientReactor`

The reactor of a client, which has one connection. As in `Reactor`, each function takes the
answers of the environment and the state, and a log of what has been done, the newest entry
first, belongs to the state. `RemoveConnection` runs on the thread of the reactor and on that
of the caller of `SetConnection`; where it is called, a function says so instead of removing
the connection, and the steps of `RemoveConnection` follow. -/

namespace DarwinCore.Network

/-! ## State -/

/-- `ClientReactor::ClientConnection`. Times are in nanoseconds. -/
structure ClientConnection where
  fileDescriptor : ℤ := -1
  peerAddress : SockAddr := ⟨[]⟩
  connectionId : UInt64 := 0
  sendBuffer : SendBuffer := .fresh
  writePending : Bool := false
  lastActive : ℕ := 0

/-- `ClientReactor::SendOperation`, with the fields that are used. Callbacks and promises are
known by their numbers. -/
structure SendOperation where
  data : List UInt8
  callback : Option ℕ := none
  promise : Option ℕ := none
  deriving DecidableEq, Repr

/-- What the log of a client records. -/
inductive ClientEffect where
  /-- `socket` returned a descriptor. -/
  | opened (fd : ℤ)
  | closed (fd : ℤ)
  | shutdown (fd : ℤ)
  /-- An operation left the queue to be processed. -/
  | took (op : SendOperation)
  /-- The bytes that one `send` handed to the kernel. -/
  | sent (fd : ℤ) (data : List UInt8)
  | received (fd : ℤ) (data : List UInt8)
  | kevent (fd : ℤ) (change : Change) (success : Bool)
  | dispatched (event : NetworkEvent)
  /-- The worker pool refused an event. -/
  | refused (event : NetworkEvent)
  | calledBack (callback : ℕ) (success : Bool) (sent : ℕ)
  | answered (promise : ℕ) (success : Bool)
  deriving DecidableEq, Repr

/-- The state of a client reactor, and of the kernel as far as it is involved. -/
structure ClientReactor where
  receiver : Receiver
  isRunning : Bool := false
  connection : ClientConnection := {}
  hasConnection : Bool := false
  sendOperations : List SendOperation := []
  queueStopped : Bool := false
  totalBytesSent : ℕ := 0
  totalBytesReceived : ℕ := 0
  kernel : Kernel := {}
  log : List ClientEffect := []

namespace ClientReactor

/-! ## Bookkeeping -/

def emit (r : ClientReactor) (effect : ClientEffect) : ClientReactor :=
  { r with log := effect :: r.log }

/-- Assignments to `connection_`. -/
def assign (r : ClientReactor) (f : ClientConnection → ClientConnection) : ClientReactor :=
  { r with connection := f r.connection }

def updateActivity (env : Environment) (r : ClientReactor) : ClientReactor :=
  r.assign fun c => { c with lastActive := env.clock r.log.length }

/-- `close`. -/
def closeFd (r : ClientReactor) (fd : ℤ) : ClientReactor :=
  { r with kernel := r.kernel.close fd, log := .closed fd :: r.log }

/-- One of the monitor calls of `IOMonitor`, with its result. -/
def monitor (env : Environment) (fd : ℤ) (change : Change) (r : ClientReactor) :
    Bool × ClientReactor :=
  let success := r.kernel.kqueueOpen && env.kevent r.log.length
  let kernel := if success then r.kernel.apply fd change else r.kernel
  (success, { r with kernel := kernel, log := .kevent fd change success :: r.log })

def dispatchEvent (env : Environment) (event : NetworkEvent) (r : ClientReactor) :
    ClientReactor :=
  match r.receiver with
  | .workerPool =>
      if env.submitEvent r.log.length then r.emit (.dispatched event)
      else r.emit (.refused event)
  | .callback => r.emit (.dispatched event)
  | .nobody => r

/-! ## Setting and removing the connection -/

/-- Where `RemoveConnection` is. -/
inductive Removal where
  | checking
  /-- At `StopMonitor` and `close`. -/
  | closing (fd : ℤ)
  | clearing
  | disconnecting
  deriving DecidableEq, Repr

/-- `RemoveConnection` from one point to the next. Whether `StopMonitor` succeeds makes no
difference, since `close` drops the registrations anyway. -/
def removeConnection (env : Environment) (removal : Removal) (r : ClientReactor) :
    Option Removal × ClientReactor :=
  match removal with
  | .checking =>
      if ¬r.hasConnection then (none, r) else (some (.closing r.connection.fileDescriptor), r)
  | .closing fd => (some .clearing, r.closeFd fd)
  | .clearing =>
      (some .disconnecting,
        { r.assign fun c => { c with fileDescriptor := -1 } with hasConnection := false })
  | .disconnecting => (none, r.dispatchEvent env (.disconnected r.connection.connectionId))

/-- Where `SetConnection` is. -/
inductive Setting where
  | entering
  | checking
  | removing (removal : Removal)
  | monitoring
  /-- At the assignments to `connection_`. -/
  | assigning
  /-- At the assignment to `has_connection_`. -/
  | raising
  | connecting
  | returned (success : Bool)
  deriving DecidableEq, Repr

/-- `SetConnection` from one point to the next. -/
def setConnection (env : Environment) (fd : ℤ) (peer : SockAddr) (setting : Setting)
    (r : ClientReactor) : Setting × ClientReactor :=
  match setting with
  | .entering => if fd < 0 ∨ ¬r.isRunning then (.returned false, r) else (.checking, r)
  | .checking => if r.hasConnection then (.removing .checking, r) else (.monitoring, r)
  | .removing removal =>
      match r.removeConnection env removal with
      | (some removal, r) => (.removing removal, r)
      | (none, r) => (.monitoring, r)
  | .monitoring =>
      let (success, r) := r.monitor env fd .addRead
      if ¬success then (.returned false, r.closeFd fd) else (.assigning, r)
  | .assigning =>
      let id := ConnectionIdGenerator.generate (env.calendar r.log.length) 255 (UInt16.ofInt fd) 1
      let r := r.assign fun c =>
        { c with fileDescriptor := fd, peerAddress := peer, connectionId := id }
      (.raising, r.updateActivity env)
  | .raising => (.connecting, { r with hasConnection := true })
  | .connecting =>
      (.returned true,
        r.dispatchEvent env (.connected r.connection.connectionId r.connection.peerAddress))
  | .returned success => (.returned success, r)

/-! ## Sending -/

/-- The registration of the write event in `TrySendDirect`. -/
def awaitWritable (env : Environment) (fd : ℤ) (r : ClientReactor) : ClientReactor :=
  if !r.connection.sendBuffer.isEmpty && !r.connection.writePending then
    (r.monitor env fd .addWrite).2.assign fun c => { c with writePending := true }
  else r

/-- The end of `TrySendDirect`. -/
def stopWriting (env : Environment) (fd : ℤ) (r : ClientReactor) : ClientReactor :=
  if r.connection.sendBuffer.isEmpty && r.connection.writePending then
    (r.monitor env fd .deleteWrite).2.assign fun c => { c with writePending := false }
  else r

/-- `TrySendDirect`. Set if it ends with a call of `RemoveConnection`. -/
def trySendDirect (env : Environment) (r : ClientReactor) : Bool × ClientReactor :=
  let fd := r.connection.fileDescriptor
  if ¬r.hasConnection ∨ fd < 0 then (false, r)
  else
    let buffer := r.connection.sendBuffer
    let send := env.send r.log.length
    let (sent, rest) := buffer.sendToSocket fd send
    let took := buffer.readable.take (send buffer.size).taken
    let r := (r.assign fun c => { c with sendBuffer := rest }).emit (.sent fd took)
    if sent < 0 then (true, r)
    else
      let r :=
        if 0 < sent then
          { r.updateActivity env with totalBytesSent := r.totalBytesSent + sent.toNat }
        else r
      (false, (r.awaitWritable env fd).stopWriting env fd)

/-- `DoSend`: its result, and whether `TrySendDirect` calls `RemoveConnection`. `none` says that
it never returns. -/
def doSend (env : Environment) (data : List UInt8) (r : ClientReactor) :
    Option (Bool × Bool × ClientReactor) :=
  if ¬r.hasConnection then some (false, false, r)
  else
    match r.connection.sendBuffer.write data with
    | none => none
    | some (false, buffer) =>
        some (false, false, r.assign fun c => { c with sendBuffer := buffer })
    | some (true, buffer) =>
        some (true, (r.assign fun c => { c with sendBuffer := buffer }).trySendDirect env)

/-- What `ProcessPendingOperations` does with the result of `DoSend`. -/
def complete (op : SendOperation) (success : Bool) (r : ClientReactor) : ClientReactor :=
  let r :=
    match op.callback with
    | none => r
    | some callback =>
        r.emit (.calledBack callback success (if success then op.data.length else 0))
  match op.promise with
  | none => r
  | some promise => r.emit (.answered promise success)

/-! ## Events -/

/-- What follows an event, or a call of `recv`. -/
inductive Reaction where
  | done
  /-- The loop of `HandleReadEvent` goes on. -/
  | reading (fd : ℤ)
  | removing
  deriving DecidableEq, Repr

/-- `ProcessKqueueEvent`, up to the loop of `HandleReadEvent`. -/
def processKqueueEvent (env : Environment) (event : KEvent) (r : ClientReactor) :
    Reaction × ClientReactor :=
  if ¬r.hasConnection ∨ event.ident ≠ r.connection.fileDescriptor then (.done, r)
  else if event.eof then (.removing, r)
  else if event.error then (.removing, r)
  else
    match event.filter with
    | .read => (.reading r.connection.fileDescriptor, r)
    | .write =>
        let (removes, r) := r.trySendDirect env
        (if removes then .removing else .done, r)
    | _ => (.done, r)

/-- One pass of the loop of `HandleReadEvent`. -/
def receive (env : Environment) (fd : ℤ) (outcome : RecvOutcome) (r : ClientReactor) :
    Reaction × ClientReactor :=
  match outcome with
  | .received data _ =>
      let r := { r.updateActivity env with
        totalBytesReceived := r.totalBytesReceived + data.length }
      let r := r.emit (.received fd data)
      (.reading fd, r.dispatchEvent env (.data r.connection.connectionId data))
  | .closed => (.removing, r)
  | .failed .eagain => (.done, r)
  | .failed .eintr => (.reading fd, r)
  | .failed _ => (.removing, r)

/-! ## Requests and status -/

/-- The three functions that send, up to the call of `Enqueue`. -/
def requestSend (op : SendOperation) (r : ClientReactor) : Option SendOperation :=
  if op.data = [] ∨ ¬r.isRunning then none else some op

def sendAsync (data : List UInt8) : ClientReactor → Option SendOperation :=
  requestSend { data := data }

/-- `SendSync`, whose caller keeps the promise. -/
def sendSync (data : List UInt8) (promise : ℕ) : ClientReactor → Option SendOperation :=
  requestSend { data := data, promise := some promise }

def sendAsyncWithCallback (data : List UInt8) (callback : Option ℕ) :
    ClientReactor → Option SendOperation :=
  requestSend { data := data, callback := callback }

/-- `Enqueue` succeeds. -/
def push (op : SendOperation) (r : ClientReactor) : ClientReactor :=
  { r with sendOperations := r.sendOperations ++ [op] }

/-- `TryDequeue` succeeds. -/
def dequeue (op : SendOperation) (rest : List SendOperation) (r : ClientReactor) :
    ClientReactor :=
  { r with sendOperations := rest, log := .took op :: r.log }

/-- `TriggerWakeupEvent`. -/
def triggerWakeup (r : ClientReactor) : ClientReactor :=
  { r with kernel := r.kernel.trigger }

def getSendBufferSize (r : ClientReactor) : ℕ :=
  if ¬r.hasConnection then 0 else r.connection.sendBuffer.size

end ClientReactor

end DarwinCore.Network
