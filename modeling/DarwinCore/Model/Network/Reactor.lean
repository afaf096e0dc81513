import DarwinCore.Model.Network.SendBuffer
import Mathlib.Data.Finmap

/-! # `Reactor`

The part of the reactor that runs on its own thread. Each function takes the answers of the
environment and the state, and returns the state after it. A log of what has been done, the
newest entry first, belongs to the state; the environment answers a call by the length of
the log, and since every call is logged, no two answers are tied together. `none` says that
a function never returns. -/

namespace DarwinCore.Network

/-! ## State -/

/-- `Reactor::ReactorConnection`. Times are in nanoseconds. -/
structure ReactorConnection where
  fileDescriptor : ℤ
  peerAddress : SockAddr
  connectionId : UInt64
  sendBuffer : SendBuffer := .fresh
  readPaused : Bool := false
  writePending : Bool := false
  lastActive : ℕ

/-- `Reactor::Operation`, with the fields that its type uses. A promise is known by its
number. -/
inductive Operation where
  | add (fd : ℤ) (peer : SockAddr)
  | remove (connectionId : UInt64)
  | send (connectionId : UInt64) (data : List UInt8)
  | getSendBufferSize (connectionId : UInt64) (promise : ℕ)
  deriving DecidableEq, Repr

/-- Where `DispatchEvent` delivers: to `worker_pool_`, else to `event_callback_`, else
nowhere. -/
inductive Receiver where
  | workerPool
  | callback
  | nobody
  deriving DecidableEq, Repr

/-- The counters. -/
structure ReactorStats where
  totalConnections : ℕ := 0
  activeConnections : ℤ := 0
  totalBytesSent : ℕ := 0
  totalBytesReceived : ℕ := 0
  totalOpsProcessed : ℕ := 0
  totalDispatchFailures : ℕ := 0
  totalAddRequests : ℕ := 0
  totalAddFailures : ℕ := 0
  totalRemoveRequests : ℕ := 0
  totalRemoveFailures : ℕ := 0
  totalSendRequests : ℕ := 0
  totalSendFailures : ℕ := 0
  deriving DecidableEq, Repr

/-- What the log records. -/
inductive Effect where
  /-- The acceptor obtained a socket. -/
  | opened (fd : ℤ)
  | closed (fd : ℤ)
  /-- An operation left the queue to be processed. -/
  | took (op : Operation)
  /-- A connection entered the table. -/
  | added (connectionId : UInt64) (fd : ℤ)
  /-- The bytes that one `send` handed to the kernel. -/
  | sent (fd : ℤ) (data : List UInt8)
  | received (fd : ℤ) (data : List UInt8)
  | kevent (fd : ℤ) (change : Change) (success : Bool)
  | dispatched (event : NetworkEvent)
  /-- The worker pool refused an event. -/
  | refused (event : NetworkEvent)
  | answered (promise : ℕ) (value : ℕ)
  deriving DecidableEq, Repr

/-- The state of a reactor, and of the kernel as far as it is involved. -/
structure Reactor where
  reactorId : ℤ
  receiver : Receiver
  isRunning : Bool := false
  connectionSeq : UInt16 := 0
  connections : Finmap fun _ : UInt64 => ReactorConnection := ∅
  fdToConnectionId : Finmap fun _ : ℤ => UInt64 := ∅
  pendingOperations : List Operation := []
  queueStopped : Bool := false
  connectionTimeout : ℤ := 60
  stats : ReactorStats := {}
  kernel : Kernel := {}
  log : List Effect := []

/-- The answers to the calls of one step. -/
structure Environment where
  send : ℕ → Send
  /-- A call of `kevent` that registers or deletes succeeds. -/
  kevent : ℕ → Bool
  /-- `WorkerPool::SubmitEvent`. -/
  submitEvent : ℕ → Bool
  clock : ℕ → ℕ
  calendar : ℕ → Tm
  /-- The answers of `recv` in the loop of a read event, in turn. -/
  recv : List RecvOutcome
  /-- The order in which `connections_` is iterated. -/
  order : List UInt64
  /-- The time at which a connection's timeout is checked. -/
  checkedAt : UInt64 → ℕ

namespace Reactor

/-! ## Bookkeeping -/

def emit (r : Reactor) (effect : Effect) : Reactor :=
  { r with log := effect :: r.log }

/-- `fetch_add` and `fetch_sub` on the counters. -/
def count (r : Reactor) (f : ReactorStats → ReactorStats) : Reactor :=
  { r with stats := f r.stats }

/-- Assignments through a reference to the connection stored under `id`. -/
def store (r : Reactor) (id : UInt64) (conn : ReactorConnection) : Reactor :=
  { r with connections := r.connections.insert id conn }

/-- `close`. -/
def closeFd (r : Reactor) (fd : ℤ) : Reactor :=
  { r with kernel := r.kernel.close fd, log := .closed fd :: r.log }

/-- One of the four monitor calls of `IOMonitor`, with its result. -/
def monitor (env : Environment) (fd : ℤ) (change : Change) (r : Reactor) : Bool × Reactor :=
  let success := r.kernel.kqueueOpen && env.kevent r.log.length
  let kernel := if success then r.kernel.apply fd change else r.kernel
  (success, { r with kernel := kernel, log := .kevent fd change success :: r.log })

def dispatchEvent (env : Environment) (event : NetworkEvent) (r : Reactor) : Reactor :=
  match r.receiver with
  | .workerPool =>
      if env.submitEvent r.log.length then r.emit (.dispatched event)
      else
        (r.emit (.refused event)).count fun s =>
          { s with totalDispatchFailures := s.totalDispatchFailures + 1 }
  | .callback => r.emit (.dispatched event)
  | .nobody => r

/-! ## Leaving the table -/

/-- `DoRemoveConnection`. Whether `StopMonitor` succeeds makes no difference, since `close`
drops the registrations anyway. -/
def doRemoveConnection (id : UInt64) (r : Reactor) : Bool × Reactor :=
  match r.connections.lookup id with
  | none => (false, r)
  | some conn =>
      let r := r.closeFd conn.fileDescriptor
      let r := { r with
        fdToConnectionId := r.fdToConnectionId.erase conn.fileDescriptor
        connections := r.connections.erase id }
      (true, r.count fun s => { s with activeConnections := s.activeConnections - 1 })

def handleConnectionClose (env : Environment) (conn : ReactorConnection) (r : Reactor) :
    Reactor :=
  let r := r.dispatchEvent env (.disconnected conn.connectionId)
  (r.doRemoveConnection conn.connectionId).2

def handleConnectionError (env : Environment) (conn : ReactorConnection) (code : Errno)
    (r : Reactor) : Reactor :=
  let r := r.dispatchEvent env (.error conn.connectionId (mapErrnoToNetworkError code) code)
  let r := r.dispatchEvent env (.disconnected conn.connectionId)
  (r.doRemoveConnection conn.connectionId).2

/-! ## Entering the table -/

/-- The sequence number of the next connection, which is never zero. -/
def nextSeq (r : Reactor) : UInt16 × Reactor :=
  if r.connectionSeq = 0 then
    (r.connectionSeq + 1, { r with connectionSeq := r.connectionSeq + 1 + 1 })
  else (r.connectionSeq, { r with connectionSeq := r.connectionSeq + 1 })

/-- The end of `DoAddConnection`, once the descriptor is monitored. -/
def register (env : Environment) (id : UInt64) (fd : ℤ) (peer : SockAddr) (r : Reactor) :
    Reactor :=
  let conn : ReactorConnection :=
    { fileDescriptor := fd
      peerAddress := peer
      connectionId := id
      lastActive := env.clock r.log.length }
  let r := { r.store id conn with fdToConnectionId := r.fdToConnectionId.insert fd id }
  let r := r.emit (.added id fd)
  let r := r.count fun s =>
    { s with
      totalConnections := s.totalConnections + 1
      activeConnections := s.activeConnections + 1 }
  r.dispatchEvent env (.connected id peer)

/-- `DoAddConnection`. A reactor that is not running leaves the descriptor open. -/
def doAddConnection (env : Environment) (fd : ℤ) (peer : SockAddr) (r : Reactor) :
    UInt64 × Reactor :=
  if fd < 0 ∨ ¬r.isRunning then (0, r)
  else
    let (seq, r) := r.nextSeq
    let id := ConnectionIdGenerator.generate (env.calendar r.log.length)
      (UInt8.ofInt r.reactorId) (UInt16.ofInt fd) seq
    if (r.connections.lookup id).isSome then (0, r.closeFd fd)
    else
      let (success, r) := r.monitor env fd .addRead
      if ¬success then (0, r.closeFd fd) else (id, r.register env id fd peer)

/-! ## Sending -/

/-- The results of `TrySendDirect`: its value, `sent`, and `errno` when `error` is set. -/
structure DirectSend where
  complete : Bool
  sent : ℕ
  error : Option Errno

/-- `TrySendDirect` on the answer of `send`. -/
def DirectSend.ofOutcome {offered : ℕ} : SendOutcome offered → DirectSend
  | .accepted 0 _ => ⟨false, 0, none⟩
  | .accepted count _ => ⟨count = offered, count, none⟩
  | .failed .eagain => ⟨false, 0, none⟩
  | .failed .eintr => ⟨false, 0, none⟩
  | .failed error => ⟨false, 0, some error⟩

def trySendDirect (env : Environment) (fd : ℤ) (data : List UInt8) (r : Reactor) :
    DirectSend × Reactor :=
  let outcome := env.send r.log.length data.length
  (.ofOutcome outcome, r.emit (.sent fd (data.take outcome.taken)))

/-- The high-water check of `BufferAndMonitorWrite`. -/
def pauseReading (env : Environment) (conn : ReactorConnection) (r : Reactor) :
    ReactorConnection × Reactor :=
  if conn.sendBuffer.isHighWaterMark && !conn.readPaused then
    ({ conn with readPaused := true }, (r.monitor env conn.fileDescriptor .deleteRead).2)
  else (conn, r)

/-- The registration of the write event at the end of `BufferAndMonitorWrite`. -/
def awaitWritable (env : Environment) (conn : ReactorConnection) (r : Reactor) :
    ReactorConnection × Reactor :=
  if !conn.writePending then
    ({ conn with writePending := true }, (r.monitor env conn.fileDescriptor .addWrite).2)
  else (conn, r)

/-- `BufferAndMonitorWrite` on the connection stored under `id`. -/
def bufferAndMonitorWrite (env : Environment) (id : UInt64) (conn : ReactorConnection)
    (data : List UInt8) (r : Reactor) : Option (Bool × Reactor) :=
  match conn.sendBuffer.write data with
  | none => none
  | some (false, buffer) =>
      let conn := { conn with sendBuffer := buffer }
      some (false, (r.store id conn).handleConnectionError env conn .enomem)
  | some (true, buffer) =>
      let (conn, r) := r.pauseReading env { conn with sendBuffer := buffer }
      let (conn, r) := r.awaitWritable env conn
      some (true, r.store id conn)

def doSendData (env : Environment) (id : UInt64) (data : List UInt8) (r : Reactor) :
    Option (Bool × Reactor) :=
  match r.connections.lookup id with
  | none => some (false, r)
  | some conn =>
      if ¬conn.sendBuffer.isEmpty then r.bufferAndMonitorWrite env id conn data
      else
        let (direct, r) := r.trySendDirect env conn.fileDescriptor data
        match direct.error with
        | some code => some (false, r.handleConnectionError env conn code)
        | none =>
            if direct.sent < data.length then
              r.bufferAndMonitorWrite env id conn (data.drop direct.sent)
            else
              some (true, r.count fun s =>
                { s with totalBytesSent := s.totalBytesSent + direct.sent })

/-! ## Operations -/

/-- One pass of the switch of `ProcessPendingOperations`. -/
def processOperation (env : Environment) (op : Operation) (r : Reactor) : Option Reactor :=
  match op with
  | .add fd peer =>
      let (id, r) := r.doAddConnection env fd peer
      some (if id = 0 then
        r.count fun s => { s with totalAddFailures := s.totalAddFailures + 1 } else r)
  | .remove id =>
      let (success, r) := r.doRemoveConnection id
      some (if ¬success then
        r.count fun s => { s with totalRemoveFailures := s.totalRemoveFailures + 1 } else r)
  | .send id data =>
      (r.doSendData env id data).map fun (success, r) =>
        if ¬success then
          r.count fun s => { s with totalSendFailures := s.totalSendFailures + 1 }
        else r
  | .getSendBufferSize id promise =>
      let value :=
        match r.connections.lookup id with
        | none => 0
        | some conn => conn.sendBuffer.size
      some (r.emit (.answered promise value))

/-! ## Events -/

/-- The loop of `HandleReadEvent` over the answers of `recv`. Running out of them is
`EAGAIN`. The connection leaves the table only where the loop ends. -/
def receiveLoop (env : Environment) (fd : ℤ) (id : UInt64) :
    List RecvOutcome → Reactor → Reactor
  | [], r => r
  | outcome :: rest, r =>
      match r.connections.lookup id with
      | none => r
      | some conn =>
          match outcome with
          | .received data _ =>
              let r := r.store id { conn with lastActive := env.clock r.log.length }
              let r := r.emit (.received fd data)
              let r := r.count fun s =>
                { s with totalBytesReceived := s.totalBytesReceived + data.length }
              receiveLoop env fd id rest (r.dispatchEvent env (.data id data))
          | .closed => r.handleConnectionClose env conn
          | .failed .eagain => r
          | .failed .eintr => receiveLoop env fd id rest r
          | .failed code => r.handleConnectionError env conn code

def handleReadEvent (env : Environment) (fd : ℤ) (r : Reactor) : Reactor :=
  match r.fdToConnectionId.lookup fd with
  | none => r
  | some id => r.receiveLoop env fd id env.recv

/-- The low-water check of `HandleWriteEvent`. -/
def resumeReading (env : Environment) (fd : ℤ) (conn : ReactorConnection) (r : Reactor) :
    ReactorConnection × Reactor :=
  if conn.readPaused && conn.sendBuffer.isLowWaterMark then
    ({ conn with readPaused := false }, (r.monitor env fd .addRead).2)
  else (conn, r)

/-- The end of `HandleWriteEvent`. -/
def stopWriting (env : Environment) (fd : ℤ) (conn : ReactorConnection) (r : Reactor) :
    ReactorConnection × Reactor :=
  if conn.sendBuffer.isEmpty && conn.writePending then
    ({ conn with writePending := false }, (r.monitor env fd .deleteWrite).2)
  else (conn, r)

/-- `HandleWriteEvent` once the connection is found. -/
def flush (env : Environment) (fd : ℤ) (id : UInt64) (conn : ReactorConnection) (r : Reactor) :
    Reactor :=
  let send := env.send r.log.length
  let (sent, buffer) := conn.sendBuffer.sendToSocket fd send
  let took := conn.sendBuffer.readable.take (send conn.sendBuffer.size).taken
  let code := (send conn.sendBuffer.size).errno
  let conn := { conn with sendBuffer := buffer }
  let r := r.emit (.sent fd took)
  if 0 < sent then
    let conn := { conn with lastActive := env.clock r.log.length }
    let r := r.count fun s => { s with totalBytesSent := s.totalBytesSent + sent.toNat }
    let (conn, r) := r.resumeReading env fd conn
    let (conn, r) := r.stopWriting env fd conn
    r.store id conn
  else if sent < 0 then (r.store id conn).handleConnectionError env conn code
  else
    let (conn, r) := r.stopWriting env fd conn
    r.store id conn

def handleWriteEvent (env : Environment) (fd : ℤ) (r : Reactor) : Reactor :=
  match r.fdToConnectionId.lookup fd with
  | none => r
  | some id =>
      match r.connections.lookup id with
      | none => r
      | some conn => r.flush env fd id conn

def processKqueueEvent (env : Environment) (event : KEvent) (r : Reactor) : Reactor :=
  match r.fdToConnectionId.lookup event.ident with
  | none => r
  | some id =>
      match r.connections.lookup id with
      | none => r
      | some conn =>
          if event.eof then r.handleConnectionClose env conn
          else if event.error then r.handleConnectionError env conn event.data
          else
            match event.filter with
            | .read => r.handleReadEvent env event.ident
            | .write => r.handleWriteEvent env event.ident
            | _ => r

/-! ## Timeouts and shutdown -/

def isTimeout (env : Environment) (r : Reactor) (id : UInt64) : Bool :=
  match r.connections.lookup id with
  | none => false
  | some conn =>
      r.connectionTimeout * 1000000000 < (env.checkedAt id : ℤ) - (conn.lastActive : ℤ)

/-- `HandleConnectionClose` on the connection stored under `id`, if there is one. -/
def closeById (env : Environment) (r : Reactor) (id : UInt64) : Reactor :=
  match r.connections.lookup id with
  | none => r
  | some conn => r.handleConnectionClose env conn

def checkTimeouts (env : Environment) (r : Reactor) : Reactor :=
  if r.connectionTimeout = 0 then r
  else (env.order.filter (r.isTimeout env)).foldl (closeById env) r

/-- The loop body of `CleanupAllConnections`, with the `kqueue` already closed. -/
def closeOnly (r : Reactor) (id : UInt64) : Reactor :=
  match r.connections.lookup id with
  | none => r
  | some conn => r.closeFd conn.fileDescriptor

def cleanupAllConnections (env : Environment) (r : Reactor) : Reactor :=
  { env.order.foldl closeOnly r with connections := ∅, fdToConnectionId := ∅ }

end Reactor

end DarwinCore.Network
