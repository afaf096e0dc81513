import DarwinCore.Library.Streams
import DarwinCore.Model.Network.ClientReactorSystem

/-! # Reactors and their peers

What `recv` can answer: the bytes that the peer has written and that are unread, in their
order, and the end of the stream once the peer has closed its side and nothing is unread. What
`WaitEvents` returns is not restricted, so `EV_EOF` may be set while bytes are unread. -/

namespace DarwinCore.Network

open Streams

/-- The calls of `recv` end with the end of the stream. -/
def endsStream : List RecvOutcome → Bool
  | [] => false
  | .received _ _ :: rest => endsStream rest
  | .closed :: _ => true
  | .failed .eintr :: rest => endsStream rest
  | .failed _ :: _ => false

/-! ## The reactor -/

/-- `accept` returned `fd`. -/
def Effect.opens (fd : ℤ) : Effect → Bool
  | .opened fd' => fd' = fd
  | _ => false

/-- The bytes that `recv` returned for `fd`. -/
def Effect.receivedOn (fd : ℤ) : Effect → List UInt8
  | .received fd' data => if fd' = fd then data else []
  | _ => []

namespace System

/-- The loop handles `event`. -/
def Handles (s t : System) (env : Environment) (event : KEvent) : Prop :=
  ∃ rest, s.loop = .handling (event :: rest) ∧ t.loop = .handling rest ∧
    t.reactor = if event.isWakeup then s.reactor else s.reactor.processKqueueEvent env event

/-- `recv` returns zero for `fd`. -/
def HearsEnd (s t : System) (fd : ℤ) : Prop :=
  ∃ env event, s.Handles t env event ∧ event.ident = fd ∧ event.filter = .read ∧
    event.eof = false ∧ event.error = false ∧ fd ∈ s.reactor.fdToConnectionId ∧
    endsStream env.recv = true

/-- How a reactor reads from its sockets. -/
def wiring : Wiring System Effect ℤ UInt8 where
  history s := s.reactor.log
  opens := Effect.opens
  reads := Effect.receivedOn
  ends := HearsEnd

end System

/-! ## The client reactor -/

/-- `SetConnection` registers `fd`. -/
def ClientEffect.registers (fd : ℤ) : ClientEffect → Bool
  | .kevent fd' .addRead _ => fd' = fd
  | _ => false

/-- The bytes that `recv` returned for `fd`. -/
def ClientEffect.receivedOn (fd : ℤ) : ClientEffect → List UInt8
  | .received fd' data => if fd' = fd then data else []
  | _ => []

/-- The loop is in `RemoveConnection`. -/
def ClientLoop.IsRemoving (loop : ClientLoop) : Prop :=
  ∃ removal next, loop = removing removal next

namespace ClientSystem

/-- `recv` returns zero for `fd`. Without an error, there is no other way from reading to
`RemoveConnection`. -/
def HearsEnd (s t : ClientSystem) (fd : ℤ) : Prop :=
  (∃ events, s.loop = .reading fd events) ∧ t.loop.IsRemoving

/-- How a client reactor reads from its sockets. -/
def wiring : Wiring ClientSystem ClientEffect ℤ UInt8 where
  history s := s.reactor.log
  opens := ClientEffect.registers
  reads := ClientEffect.receivedOn
  ends := HearsEnd

end ClientSystem

end DarwinCore.Network
