import Mathlib.Data.Finset.Erase
import Mathlib.Data.Finset.Insert
import Mathlib.Data.Int.Basic
import Mathlib.Data.Int.Notation
import Mathlib.Data.Nat.Notation

/-! # The kernel and its sockets -/

/-! ## Sockets

What the system calls on a socket may answer. -/

namespace DarwinCore.Network

/-- The values of `errno` that the sources tell apart. `EWOULDBLOCK` is `EAGAIN`. -/
inductive Errno where
  | eagain
  | eintr
  | enomem
  | econnreset
  | etimedout
  | epipe
  | enotconn
  | econnrefused
  | ehostunreach
  | enetunreach
  | other (code : ℕ)
  deriving DecidableEq, Repr

/-- The answer of `send` when `offered` bytes are offered. -/
inductive SendOutcome (offered : ℕ) where
  | accepted (count : ℕ) (h : count ≤ offered)
  | failed (error : Errno)
  deriving DecidableEq, Repr

namespace SendOutcome

variable {offered : ℕ}

/-- How many bytes the kernel took. -/
def taken : SendOutcome offered → ℕ
  | accepted count _ => count
  | failed _ => 0

/-- The value of `errno` after the call, as far as the call sets it. -/
def errno : SendOutcome offered → Errno
  | accepted _ _ => .other 0
  | failed error => error

end SendOutcome

/-- A socket's answers, by the number of bytes offered. -/
abbrev Send := (offered : ℕ) → SendOutcome offered

/-- `SocketConfiguration::kDefaultReceiveBufferSize`. -/
def receiveBufferSize : ℕ := 8192

/-- The answer of `recv`. -/
inductive RecvOutcome where
  | received (data : List UInt8) (h : 0 < data.length ∧ data.length ≤ receiveBufferSize)
  | closed
  | failed (error : Errno)
  deriving DecidableEq, Repr

/-! ## The kernel

The descriptors that are open and the registrations of one `kqueue`, with the operations of
`IOMonitor` on it. -/

/-- The filters of `kqueue` that the sources tell apart. -/
inductive Filter where
  | read
  | write
  | user
  | other
  deriving DecidableEq, Repr

/-- `struct kevent` as `WaitEvents` returns it: the flags are `EV_EOF` and `EV_ERROR`. -/
structure KEvent where
  ident : ℤ
  filter : Filter
  eof : Bool := false
  error : Bool := false
  data : Errno := .other 0
  deriving DecidableEq, Repr

/-- What is registered or deleted by a call of `kevent`. -/
inductive Change where
  | addRead
  | deleteRead
  | addWrite
  | deleteWrite
  deriving DecidableEq, Repr

/-- The sockets that the acceptor obtained and nobody has closed, and one `kqueue`. -/
structure Kernel where
  openFds : Finset ℤ := ∅
  kqueueOpen : Bool := true
  readFilters : Finset ℤ := ∅
  writeFilters : Finset ℤ := ∅
  wakeup : Bool := false

namespace Kernel

/-- A call of `kevent` that succeeds. -/
def apply (k : Kernel) (fd : ℤ) : Change → Kernel
  | .addRead => { k with readFilters := insert fd k.readFilters }
  | .deleteRead => { k with readFilters := k.readFilters.erase fd }
  | .addWrite => { k with writeFilters := insert fd k.writeFilters }
  | .deleteWrite => { k with writeFilters := k.writeFilters.erase fd }

/-- `accept` hands out `fd`. -/
def accept (k : Kernel) (fd : ℤ) : Kernel :=
  { k with openFds := insert fd k.openFds }

/-- `close`, which also drops the registrations of the descriptor. -/
def close (k : Kernel) (fd : ℤ) : Kernel :=
  { k with
    openFds := k.openFds.erase fd
    readFilters := k.readFilters.erase fd
    writeFilters := k.writeFilters.erase fd }

/-- `IOMonitor::Close`: the `kqueue` goes, and all its registrations with it. -/
def closeQueue (k : Kernel) : Kernel :=
  { k with kqueueOpen := false, readFilters := ∅, writeFilters := ∅, wakeup := false }

/-- `IOMonitor::TriggerWakeupEvent`, which needs a `kqueue`. -/
def trigger (k : Kernel) : Kernel :=
  { k with wakeup := k.kqueueOpen }

/-- `WaitEvents` returns the wakeup event, which is registered with `EV_CLEAR`. -/
def clearWakeup (k : Kernel) : Kernel :=
  { k with wakeup := false }

@[simp] theorem apply_openFds (k : Kernel) (fd : ℤ) (change : Change) :
    (k.apply fd change).openFds = k.openFds := by
  cases change <;> rfl

end Kernel

/-! ## Connections and their events -/

/-! ### Network events -/

/-- `sockaddr_storage`, as its bytes. -/
structure SockAddr where
  bytes : List UInt8
  deriving DecidableEq, Repr

inductive NetworkError where
  | peerClosed
  | resetByPeer
  | timeout
  | connectionRefused
  | networkUnreachable
  | protocolViolation
  | syscallFailure
  deriving DecidableEq, Repr

def mapErrnoToNetworkError : Errno → NetworkError
  | .econnreset => .resetByPeer
  | .etimedout => .timeout
  | .epipe => .peerClosed
  | .enotconn => .peerClosed
  | .econnrefused => .connectionRefused
  | .ehostunreach => .networkUnreachable
  | .enetunreach => .networkUnreachable
  | _ => .syscallFailure

/-- `NetworkEvent`. The address stands for the `ConnectionInformation` printed from it, and
the `errno` of an error for its text. -/
inductive NetworkEvent where
  | connected (connectionId : UInt64) (peer : SockAddr)
  | data (connectionId : UInt64) (payload : List UInt8)
  | disconnected (connectionId : UInt64)
  | error (connectionId : UInt64) (error : NetworkError) (code : Errno)
  deriving DecidableEq, Repr

/-- The field `connection_id`. -/
def NetworkEvent.connectionId : NetworkEvent → UInt64
  | connected id _ => id
  | data id _ => id
  | disconnected id => id
  | error id _ _ => id

def NetworkEvent.isConnected : NetworkEvent → Bool
  | connected _ _ => true
  | _ => false

def NetworkEvent.isDisconnected : NetworkEvent → Bool
  | disconnected _ => true
  | _ => false

/-! ### `ConnectionIdGenerator`

A connection id packs the date, the reactor, the descriptor and a sequence number. -/

/-- The fields of the local `std::tm` that are read. -/
structure Tm where
  tmYear : ℤ
  tmMon : ℤ
  tmMday : ℤ
  deriving DecidableEq, Repr

namespace ConnectionIdGenerator

/-- `GetCurrentDate`: YYMMDD. The remainder of C++ takes the sign of the dividend. -/
def getCurrentDate (now : Tm) : UInt32 :=
  UInt32.ofInt (now.tmYear.tmod 100 * 10000 + (now.tmMon + 1) * 100 + now.tmMday)

def generate (now : Tm) (reactorId : UInt8) (fd seq : UInt16) : UInt64 :=
  ((getCurrentDate now &&& 0xFFFFFF).toUInt64 <<< 40) |||
    ((reactorId &&& 0xFF).toUInt64 <<< 32) |||
    ((fd &&& 0xFFFF).toUInt64 <<< 16) |||
    (seq &&& 0xFFFF).toUInt64

/-- `Parse`: the date, the reactor, the descriptor and the sequence number. -/
def parse (connId : UInt64) : UInt32 × UInt8 × UInt16 × UInt16 :=
  (((connId >>> 40) &&& 0xFFFFFF).toUInt32, ((connId >>> 32) &&& 0xFF).toUInt8,
    ((connId >>> 16) &&& 0xFFFF).toUInt16, (connId &&& 0xFFFF).toUInt16)

def getReactorId (connId : UInt64) : UInt8 :=
  ((connId >>> 32) &&& 0xFF).toUInt8

end ConnectionIdGenerator

end DarwinCore.Network
