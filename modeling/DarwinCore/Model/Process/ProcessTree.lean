import Mathlib.Data.List.Basic
import Mathlib.Logic.Function.Basic

/-! # `ProcessTree`

The nodes are objects, numbered in the order in which they are made. A link to a parent is weak:
it leads to the object as long as somebody holds it. -/

namespace DarwinCore.Process

/-! ## Data -/

structure ProcKey where
  pid : Int32
  pidversion : UInt32
  deriving DecidableEq, Repr

inductive ProcState where
  | alive
  | dead
  deriving DecidableEq, Repr

structure ProcessInfo where
  pid : Int32
  pidversion : UInt32
  ppid : Int32
  ppidversion : UInt32
  rpid : Int32
  rpidversion : UInt32
  deriving DecidableEq, Repr

def ProcessInfo.key (info : ProcessInfo) : ProcKey :=
  ⟨info.pid, info.pidversion⟩

def ProcessInfo.parentKey (info : ProcessInfo) : ProcKey :=
  ⟨info.ppid, info.ppidversion⟩

def ProcessInfo.responsibleKey (info : ProcessInfo) : ProcKey :=
  ⟨info.rpid, info.rpidversion⟩

structure ProcessNode where
  info : ProcessInfo
  parent : Option ℕ := none
  children : List ℕ := []
  state : ProcState := .alive
  aliveDescendantCount : ℕ := 0
  deriving DecidableEq, Repr

def ProcessNode.key (node : ProcessNode) : ProcKey :=
  node.info.key

/-- `ProcessTree`, with the objects made so far. -/
structure ProcessTree where
  nodes : List (ProcKey × ℕ) := []
  heap : ℕ → ProcessNode := fun _ => ⟨⟨0, 0, 0, 0, 0, 0⟩, none, [], .alive, 0⟩
  made : ℕ := 0

namespace ProcessTree

/-! ## Objects -/

/-- `nodes_.find`. -/
def find (t : ProcessTree) (key : ProcKey) : Option ℕ :=
  (t.nodes.find? fun entry => entry.1 = key).map Prod.snd

/-- Some `shared_ptr` to the object is left, in `nodes_` or among the children of a node there. -/
def isHeld (t : ProcessTree) (node : ℕ) : Bool :=
  t.nodes.any fun entry => entry.2 = node || (t.heap entry.2).children.contains node

/-- `parent.lock()`. -/
def lockParent (t : ProcessTree) (node : ℕ) : Option ℕ :=
  (t.heap node).parent.filter t.isHeld

def modify (node : ℕ) (f : ProcessNode → ProcessNode) (t : ProcessTree) : ProcessTree :=
  { t with heap := Function.update t.heap node (f (t.heap node)) }

/-- `nodes_.erase`. -/
def erase (key : ProcKey) (t : ProcessTree) : ProcessTree :=
  { t with nodes := t.nodes.filter fun entry => entry.1 ≠ key }

/-- The loops over a node and its ancestors, as long as the links lead to one. -/
def climb (f : ProcessNode → ProcessNode) : ℕ → Option ℕ → ProcessTree → ProcessTree
  | fuel + 1, some node, t => climb f fuel ((t.modify node f).lockParent node) (t.modify node f)
  | _, _, t => t

/-! ## Adding a process -/

/-- The loop of `addProcess`. -/
def incrementAlive : ℕ → Option ℕ → ProcessTree → ProcessTree :=
  climb fun n => { n with aliveDescendantCount := n.aliveDescendantCount + 1 }

def addProcess (info : ProcessInfo) (t : ProcessTree) : ProcessTree :=
  if (t.find info.key).isSome then t
  else
    let node := t.made
    let made :=
      { t with
        heap := Function.update t.heap node { info := info }
        made := t.made + 1 }
    let linked :=
      match t.find info.parentKey with
      | none => made
      | some parent =>
          incrementAlive made.made (some parent)
            ((made.modify node fun n => { n with parent := some parent }).modify parent
              fun n => { n with children := n.children ++ [node] })
    { linked with nodes := (info.key, node) :: linked.nodes }

/-! ## Marking a process as dead -/

/-- The loop of `markProcessDead`. -/
def decrementAlive : ℕ → Option ℕ → ProcessTree → ProcessTree :=
  climb fun n =>
    if 0 < n.aliveDescendantCount then
      { n with aliveDescendantCount := n.aliveDescendantCount - 1 }
    else n

def tryCleanup : ℕ → ℕ → ProcessTree → ProcessTree
  | fuel + 1, node, t =>
      if (t.heap node).state = .dead ∧ (t.heap node).aliveDescendantCount = 0 then
        let above :=
          match t.lockParent node with
          | none => t
          | some parent =>
              tryCleanup fuel parent
                (t.modify parent fun n => { n with children := n.children.filter (· ≠ node) })
        above.erase (t.heap node).key
      else t
  | 0, _, t => t

def markProcessDead (key : ProcKey) (t : ProcessTree) : ProcessTree :=
  match t.find key with
  | none => t
  | some node =>
      if (t.heap node).state = .dead then t
      else
        let t := t.modify node fun n => { n with state := .dead }
        tryCleanup t.made node (decrementAlive t.made (t.lockParent node) t)

/-! ## Lineages -/

def getResponsibleNode (t : ProcessTree) (node : ℕ) : Option ℕ :=
  t.find (t.heap node).info.responsibleKey

/-- Both loops of `getProcLineage`: each visits a node and appends it, unless it has been visited.
The loop over the parents also ends at a `pid` of at most 1. -/
def collect (t : ProcessTree) (next : ℕ → Option ℕ) :
    ℕ → Option ℕ → List ProcKey × List ProcessInfo → Option (List ProcKey × List ProcessInfo)
  | 0, _, _ => none
  | _ + 1, none, found => some found
  | fuel + 1, some node, (visited, result) =>
      if (t.heap node).key ∈ visited then some (visited, result)
      else
        collect t next fuel (next node)
          ((t.heap node).key :: visited, result ++ [(t.heap node).info])

/-- The condition of the loop over the parents. -/
def climbs (t : ProcessTree) (cur : Option ℕ) : Option ℕ :=
  cur.filter fun node => 1 < (t.heap node).info.pid

/-- `getProcLineage`. There is no result if a loop takes more than `fuel` passes. -/
def getProcLineage (fuel : ℕ) (key : ProcKey) (t : ProcessTree) : Option (List ProcessInfo) :=
  match t.find key with
  | none => some []
  | some node => do
      let (visited, result) ← t.collect (fun cur => t.climbs (t.lockParent cur)) fuel
        (t.climbs (some node)) ([], [])
      let (visited, result) ← t.collect t.getResponsibleNode fuel (t.getResponsibleNode node)
        (visited, result)
      if (t.heap node).key ∈ visited then some result else some (result ++ [(t.heap node).info])

end ProcessTree

/-! ## Calls -/

inductive TreeCall where
  | addProcess (info : ProcessInfo)
  | markProcessDead (key : ProcKey)
  deriving DecidableEq, Repr

def TreeCall.run : TreeCall → ProcessTree → ProcessTree
  | addProcess info, t => t.addProcess info
  | markProcessDead key, t => t.markProcessDead key

/-- An empty tree after `calls`. -/
def ProcessTree.after (calls : List TreeCall) : ProcessTree :=
  calls.foldl (fun t call => call.run t) {}

end DarwinCore.Process
