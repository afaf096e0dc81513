import DarwinCore.Model.Network.ClientReactorSystem

/-! # `Start` of the reactors

Both reactors open a `kqueue` before they test whether they are running. The owner of a reactor
calls `Start` and `Stop` one after another, and the threads of the running reactor interleave
with the calls. -/

namespace DarwinCore.Network

/-! ## The monitor -/

/-- A new `kqueue`, in which nothing is registered. -/
def Kernel.newQueue (k : Kernel) : Kernel :=
  { k with kqueueOpen := true, readFilters := ∅, writeFilters := ∅, wakeup := false }

/-- `IOMonitor`: the descriptor of its `kqueue`, when there is one. -/
structure IOMonitor where
  kqueue : ℕ := 0
  /-- The wakeup event is registered in the `kqueue`. -/
  wakeupRegistered : Bool := false
  /-- The descriptors that were in `kqueue_fd_` when it was overwritten. -/
  leaked : Finset ℕ := ∅
  deriving DecidableEq

/-! ## `Start` -/

/-- What `Start` works on: the monitor with its `kqueue`, and `is_running_`. -/
structure Startup where
  monitor : IOMonitor
  kernel : Kernel
  isRunning : Bool

/-- The answers to the calls of one `Start`. -/
structure StartAnswers where
  /-- `kqueue`, which may fail. -/
  kqueue : Option ℕ
  /-- The call of `kevent` succeeds. -/
  kevent : Bool
  /-- The thread is created. -/
  thread : Bool
  deriving DecidableEq, Repr

namespace Startup

/-- `kqueue_fd_`. -/
def kqueueFd (u : Startup) : ℤ :=
  if u.kernel.kqueueOpen then u.monitor.kqueue else -1

/-- `kqueue` returns a descriptor that is not open. -/
def Fresh (u : Startup) (answer : Option ℕ) : Prop :=
  ∀ fd, answer = some fd → ↑fd ≠ u.kqueueFd ∧ fd ∉ u.monitor.leaked ∧ ↑fd ∉ u.kernel.openFds

/-- `IOMonitor::Initialize`, which overwrites `kqueue_fd_` in any case. -/
def initializeMonitor (answer : Option ℕ) (u : Startup) : Bool × Startup :=
  let leaked :=
    if u.kernel.kqueueOpen then insert u.monitor.kqueue u.monitor.leaked else u.monitor.leaked
  match answer with
  | none =>
      -- without a `kqueue`, `kqueue_fd_` was -1 already
      if u.kernel.kqueueOpen then
        let monitor := { u.monitor with wakeupRegistered := false, leaked := leaked }
        (false, { u with monitor := monitor, kernel := u.kernel.closeQueue })
      else (false, u)
  | some fd =>
      let monitor := { kqueue := fd, wakeupRegistered := false, leaked := leaked }
      (true, { u with monitor := monitor, kernel := u.kernel.newQueue })

def initializeWakeupEvent (success : Bool) (u : Startup) : Bool × Startup :=
  if u.kernel.kqueueOpen && success then
    (true, { u with monitor := { u.monitor with wakeupRegistered := true } })
  else (false, u)

/-- The test of `is_running_`, which also sets it. -/
def compareExchange (u : Startup) : Bool × Startup :=
  if u.isRunning then (false, u) else (true, { u with isRunning := true })

/-- The creation of the thread. -/
def createThread (success : Bool) (u : Startup) : Bool × Startup :=
  if success then (true, u) else (false, { u with isRunning := false })

/-- `Start` up to the end, while nobody else does anything. -/
def start (answers : StartAnswers) (u : Startup) : Bool × Startup :=
  let (success, u) := u.initializeMonitor answers.kqueue
  if success = false then (false, u)
  else
    let (success, u) := u.initializeWakeupEvent answers.kevent
    if success = false then (false, u)
    else
      let (success, u) := u.compareExchange
      if success = false then (false, u) else u.createThread answers.thread

end Startup

/-! ## `Reactor` -/

/-- Where the owner is in `Start`. -/
inductive Starting where
  | notCalled
  /-- `Initialize` has succeeded. -/
  | initialized
  /-- `InitializeWakeupEvent` has succeeded. -/
  | prepared
  /-- `is_running_` is set. -/
  | flagged
  | returned (success : Bool)
  deriving DecidableEq, Repr

/-- The owner is not in `Start`. -/
def Starting.isOutside : Starting → Bool
  | notCalled => true
  | returned _ => true
  | _ => false

/-- Where `Start` goes on. -/
def Starting.after (next : Starting) (success : Bool) : Starting :=
  if success then next else returned false

/-- A reactor with its monitor, over its whole life. -/
structure ManagedReactor where
  system : System
  monitor : IOMonitor := {}
  starting : Starting := .notCalled

/-- A wakeup event that is not registered is not triggered. -/
def System.mute (wakeupRegistered : Bool) (s : System) : System :=
  let kernel := { s.reactor.kernel with wakeup := s.reactor.kernel.wakeup && wakeupRegistered }
  { s with reactor := { s.reactor with kernel := kernel } }

namespace ManagedReactor

/-- The constructor. -/
def construct (reactorId : ℤ) (receiver : Receiver) : ManagedReactor where
  system :=
    { reactor :=
        { reactorId := reactorId, receiver := receiver, kernel := { kqueueOpen := false } }
      loop := .exited }

def startup (x : ManagedReactor) : Startup :=
  ⟨x.monitor, x.system.reactor.kernel, x.system.reactor.isRunning⟩

def setStartup (u : Startup) (x : ManagedReactor) : ManagedReactor :=
  let reactor := { x.system.reactor with kernel := u.kernel, isRunning := u.isRunning }
  { x with monitor := u.monitor, system := { x.system with reactor := reactor } }

/-- The thread is there. A `Stop` after this is a new one. -/
def launch (x : ManagedReactor) : ManagedReactor :=
  { x with system := { x.system with loop := .top, stopping := .notCalled } }

/-- `Reactor::Start`, while nobody else does anything. -/
def start (answers : StartAnswers) (x : ManagedReactor) : Bool × ManagedReactor :=
  let (success, u) := x.startup.start answers
  (success, if success then (x.setStartup u).launch else x.setStartup u)

/-- After a call in `Start`. -/
def goOn (next : Starting) (result : Bool × Startup) (x : ManagedReactor) : ManagedReactor :=
  { x.setStartup result.2 with starting := next.after result.1 }

inductive Step : ManagedReactor → ManagedReactor → Prop where
  /-- A thread goes on, or the owner does so in `Stop`. -/
  | run {x : ManagedReactor} {s : System} (h : System.Step x.system s)
      (howner : s.stopping = x.system.stopping ∨ x.starting.isOutside) :
      Step x { x with system := s.mute x.monitor.wakeupRegistered }
  | initializeMonitor {x : ManagedReactor} (answer : Option ℕ) (howner : x.starting.isOutside)
      (hstopping : x.system.stopping = .notCalled ∨ x.system.stopping = .returned)
      (hfresh : x.startup.Fresh answer) :
      Step x (x.goOn .initialized (x.startup.initializeMonitor answer))
  | initializeWakeupEvent {x : ManagedReactor} (success : Bool)
      (h : x.starting = .initialized) :
      Step x (x.goOn .prepared (x.startup.initializeWakeupEvent success))
  | compareExchange {x : ManagedReactor} (h : x.starting = .prepared) :
      Step x (x.goOn .flagged x.startup.compareExchange)
  | createThread {x : ManagedReactor} (h : x.starting = .flagged) :
      Step x (x.goOn (.returned true) (x.startup.createThread true)).launch
  | createThreadFailed {x : ManagedReactor} (h : x.starting = .flagged) :
      Step x (x.goOn (.returned true) (x.startup.createThread false))

end ManagedReactor

/-- The runs of a reactor from its construction on. -/
def managedReactors (reactorId : ℤ) (receiver : Receiver) : TransitionSystem ManagedReactor where
  init x := x = .construct reactorId receiver
  step := ManagedReactor.Step

/-! ## `ClientReactor` -/

/-- A client reactor with its monitor. -/
structure ManagedClientReactor where
  system : ClientSystem
  monitor : IOMonitor := {}

namespace ManagedClientReactor

def startup (x : ManagedClientReactor) : Startup :=
  ⟨x.monitor, x.system.reactor.kernel, x.system.reactor.isRunning⟩

def setStartup (u : Startup) (x : ManagedClientReactor) : ManagedClientReactor :=
  let reactor := { x.system.reactor with kernel := u.kernel, isRunning := u.isRunning }
  { x with monitor := u.monitor, system := { x.system with reactor := reactor } }

def launch (x : ManagedClientReactor) : ManagedClientReactor :=
  { x with system := { x.system with loop := .top, stopping := .notCalled } }

/-- `ClientReactor::Start`, while nobody else does anything. -/
def start (answers : StartAnswers) (x : ManagedClientReactor) : Bool × ManagedClientReactor :=
  let (success, u) := x.startup.start answers
  (success, if success then (x.setStartup u).launch else x.setStartup u)

end ManagedClientReactor

end DarwinCore.Network
