import DarwinCore.Model.Network.ServerEvents
import DarwinCore.Model.Protocol.Decoder

/-! # The echo server

`protocol_echo_server` keeps a decoder for each connection and answers every message with its
data. Its callbacks take turns. An exception that `OnMessage` catches leaves the connection as it
was when it was thrown. -/

namespace DarwinCore.Network

open ByteOrder Protocol

structure ConnectionState where
  decoder : Decoder := Decoder.fresh 30000
  nextReplyId : UInt64 := 1

/-- `GetMessage`, which leaves `rest`, and `next_reply_id++`. -/
def ConnectionState.advance (conn : ConnectionState) (rest : List MessageComplete) :
    ConnectionState where
  decoder := { conn.decoder with completedMessages := rest }
  nextReplyId := conn.nextReplyId + 1

/-- A line of output, or a call of `SendData` with its answer. -/
inductive EchoLine where
  | connected (connectionId : UInt64) (peer : SockAddr)
  | disconnected (connectionId : UInt64)
  | error (connectionId : UInt64) (error : NetworkError) (code : Errno)
  | recv (connectionId : UInt64) (message : MessageComplete)
  | sent (connectionId : UInt64) (packet : List UInt8) (success : Bool)
  | sendFail (connectionId : UInt64)
  | protocolError (connectionId : UInt64) (error : ProtocolError)
  deriving DecidableEq, Repr

/-- The map `states`, how many callbacks have been called, and what was done, newest first. -/
structure EchoServer where
  states : Finmap fun _ : UInt64 => ConnectionState := ∅
  called : ℕ := 0
  log : List EchoLine := []

/-- The host, the clock during a call of a callback, and the answers of `SendData`. -/
structure EchoEnvironment where
  endian : Endian
  clock : ℕ → ℕ → ℕ
  sendData : ℕ → Bool

namespace EchoServer

variable (env : EchoEnvironment) (id : UInt64)

def print (line : EchoLine) (s : EchoServer) : EchoServer :=
  { s with log := line :: s.log }

def setState (conn : ConnectionState) (s : EchoServer) : EchoServer :=
  { s with states := s.states.insert id conn }

/-- The loop over `packets`, which a failure ends. -/
def sendPackets (s : EchoServer) : List (List UInt8) → EchoServer
  | [] => s
  | packet :: rest =>
      let success := env.sendData s.log.length
      let s := s.print (.sent id packet success)
      if success then sendPackets s rest else s.print (.sendFail id)

/-- The `while` loop over `GetMessage`, which takes the first message of the queue. -/
def drain (encode : UInt64 → List UInt8 → Except ProtocolError (List (List UInt8)))
    (conn : ConnectionState) (s : EchoServer) : List MessageComplete → EchoServer
  | [] => s.setState id conn
  | message :: rest =>
      let s := s.print (.recv id message)
      match encode conn.nextReplyId message.data with
      | .error error => (s.setState id (conn.advance rest)).print (.protocolError id error)
      | .ok packets => drain encode (conn.advance rest) (s.sendPackets env id packets) rest

/-- The packets of a reply. -/
def replyPackets (e : Endian) (replyId : UInt64) (data : List UInt8) :
    Except ProtocolError (List (List UInt8)) :=
  (Encoder.encodeMessage e replyId data false).map (Encoder.serializeFrames e)

/-- The callback `OnMessage`. There is no value after undefined behaviour. -/
def onMessage (data : List UInt8) (s : EchoServer) : Option EchoServer :=
  match s.states.lookup id with
  | none => some s
  | some conn =>
      match conn.decoder.feed env.endian (env.clock s.called) data with
      | .normal decoder =>
          some (drain env id (replyPackets env.endian) { conn with decoder := decoder } s
            decoder.completedMessages)
      | .error error decoder =>
          some ((s.setState id { conn with decoder := decoder }).print (.protocolError id error))
      | .fault _ => none

/-- The callbacks. -/
def call (s : EchoServer) : CallbackCall → Option EchoServer
  | .onClientConnected id peer =>
      some ((s.setState id {}).print (.connected id peer))
  | .onMessage id payload => s.onMessage env id payload
  | .onClientDisconnected id =>
      some ({ s with states := s.states.erase id }.print (.disconnected id))
  | .onConnectionError id error code => some (s.print (.error id error code))

/-- One call after another. -/
def handle (s : EchoServer) (call : CallbackCall) : Option EchoServer :=
  (s.call env call).map fun s => { s with called := s.called + 1 }

/-- What becomes of the calls that a server has made. -/
def run (calls : List CallbackCall) : Option EchoServer :=
  calls.foldlM (handle env) {}

end EchoServer

/-- The echo server on top of a server, all of whose callbacks it sets. -/
def ServerFlow.echo {n : ℕ} (env : EchoEnvironment) (s : ServerFlow n) : Option EchoServer :=
  EchoServer.run env (s.server ⟨true, true, true, true⟩).calls

end DarwinCore.Network
