import DarwinCore.Model.Network.Kernel

/-! # The inner loop of `Acceptor::AcceptLoop`

What is done for one event on the listening socket. The loop need not end, so that it is given a
number of iterations. -/

namespace DarwinCore.Network

/-- The answer of `accept`. -/
inductive AcceptOutcome where
  | accepted (fd : ℤ) (peer : SockAddr) (h : 0 ≤ fd)
  | failed (error : Errno)

/-- What the iterations of the loop meet. Times are in nanoseconds. -/
structure AcceptEnvironment where
  /-- `is_running_` at the top of the loop -/
  isRunning : ℕ → Bool
  accept : ℕ → AcceptOutcome
  setNonBlocking : ℕ → Bool
  /-- Whether the reactor of an index still exists. -/
  lock : ℕ → ℕ → Bool
  addConnection : ℕ → Bool
  /-- The time when an iteration begins, which is when the one before it ends. -/
  clock : ℕ → ℕ

/-- What becomes of a descriptor. -/
inductive AcceptEffect where
  | closed (fd : ℤ)
  /-- `AddConnection` of the reactor at an index takes it. -/
  | assigned (fd : ℤ) (index : ℕ)
  deriving DecidableEq, Repr

/-- `Acceptor`, as far as the loop goes. -/
structure Acceptor where
  /-- `reactors_.size()` -/
  reactorCount : ℕ
  nextReactorIndex : UInt64 := 0
  log : List AcceptEffect := []
  deriving DecidableEq, Repr

/-- How an iteration ends. -/
inductive AcceptNext where
  /-- With `break`. -/
  | leaves
  /-- With `continue`. -/
  | continues
  /-- At the end of the body. -/
  | ends
  deriving DecidableEq, Repr

/-- `200us` -/
def timeSlice : ℕ := 200000

namespace Acceptor

def closeFd (fd : ℤ) (a : Acceptor) : Acceptor :=
  { a with log := .closed fd :: a.log }

def assignToReactor (env : AcceptEnvironment) (i : ℕ) (fd : ℤ) (a : Acceptor) : Acceptor :=
  if a.reactorCount = 0 then a.closeFd fd
  else
    let index := a.nextReactorIndex.toNat % a.reactorCount
    let a := { a with nextReactorIndex := a.nextReactorIndex + 1 }
    if ¬env.lock i index then a.closeFd fd
    else if ¬env.addConnection i then a.closeFd fd
    else { a with log := .assigned fd index :: a.log }

/-- One iteration. The results of the three calls of `SetSocketOption` are not looked at. -/
def acceptTurn (env : AcceptEnvironment) (i : ℕ) (a : Acceptor) : AcceptNext × Acceptor :=
  match env.accept i with
  | .failed .eagain => (.leaves, a)
  | .failed _ => (.continues, a)
  | .accepted fd _ _ =>
      if ¬env.setNonBlocking i then (.continues, a.closeFd fd)
      else
        let a := a.assignToReactor env i fd
        if timeSlice < env.clock (i + 1) - env.clock 0 then (.leaves, a) else (.ends, a)

/-- At most `fuel` iterations from the `i`-th on: the numbers of those in which `accept` is
called, and the acceptor after them. -/
def acceptLoop (env : AcceptEnvironment) : ℕ → ℕ → Acceptor → List ℕ × Acceptor
  | 0, _, a => ([], a)
  | fuel + 1, i, a =>
      if ¬env.isRunning i then ([], a)
      else
        match a.acceptTurn env i with
        | (.leaves, a) => ([i], a)
        | (_, a) =>
            let (calls, a) := acceptLoop env fuel (i + 1) a
            (i :: calls, a)

end Acceptor

end DarwinCore.Network
