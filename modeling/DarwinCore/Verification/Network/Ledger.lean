import DarwinCore.Library.History
import DarwinCore.Verification.Network.Tables

/-! # The ledger of a reactor

For each connection in the table: what the kernel has accepted on its descriptor since it
was added, followed by what its send buffer holds, is what was taken from the queue to be
sent on it. The tables themselves and the custody of descriptors are part of the invariant,
since two connections on one descriptor would mix their bytes. -/

namespace DarwinCore.Network

open History Maps

/-! ## Reading the log -/

namespace Effect

/-- The bytes that the kernel accepted on `fd`. -/
def sentOn (fd : ℤ) : Effect → List UInt8
  | .sent fd' data => if fd' = fd then data else []
  | _ => []

/-- The payload that was taken from the queue for `id`. -/
def payloadFor (id : UInt64) : Effect → List UInt8
  | .took (.send id' data) => if id' = id then data else []
  | _ => []

def adds (id : UInt64) : Effect → Bool
  | .added id' _ => id' = id
  | _ => false

/-- Neither sends, nor takes data to be sent, nor adds a connection. -/
def Quiet (e : Effect) : Prop :=
  (∀ fd, e.sentOn fd = []) ∧ (∀ id, e.payloadFor id = []) ∧ ∀ id, e.adds id = false

def isEntry : Effect → Bool
  | .sent _ _ => true
  | .took (.send _ _) => true
  | .added _ _ => true
  | _ => false

theorem quiet_of {e : Effect} (h : e.isEntry = false) : e.Quiet := by
  cases e with
  | sent fd data => cases h
  | added id fd => cases h
  | took op =>
    cases op with
    | send id data => cases h
    | _ => exact ⟨fun _ => rfl, fun _ => rfl, fun _ => rfl⟩
  | _ => exact ⟨fun _ => rfl, fun _ => rfl, fun _ => rfl⟩

end Effect

namespace Reactor

/-- What the kernel has accepted on `fd` since a connection was added as `id`. -/
def acceptedOn (r : Reactor) (id : UInt64) (fd : ℤ) : List UInt8 :=
  collect (Effect.sentOn fd) (since (Effect.adds id) r.log)

/-- What was taken from the queue to be sent on `id` since a connection was added as `id`. -/
def processedFor (r : Reactor) (id : UInt64) : List UInt8 :=
  collect (Effect.payloadFor id) (since (Effect.adds id) r.log)

def buffered (r : Reactor) (id : UInt64) : List UInt8 :=
  match r.connections.lookup id with
  | none => []
  | some conn => conn.sendBuffer.readable

section Emit

variable {r : Reactor} {e : Effect} {id : UInt64}

theorem acceptedOn_emit (fd : ℤ) (h : e.adds id = false) :
    (r.emit e).acceptedOn id fd = r.acceptedOn id fd ++ e.sentOn fd :=
  collect_since_unmarked h

theorem processedFor_emit (h : e.adds id = false) :
    (r.emit e).processedFor id = r.processedFor id ++ e.payloadFor id :=
  collect_since_unmarked h

end Emit

/-! ## What leaves the tables and the ledger alone -/

/-- The tables, the open descriptors and the ledger are the same. -/
structure Quiet (r r' : Reactor) : Prop where
  connections : r'.connections = r.connections
  fds : r'.fdToConnectionId = r.fdToConnectionId
  openFds : r'.kernel.openFds = r.kernel.openFds
  queue : r'.pendingOperations = r.pendingOperations
  accepted : ∀ id fd, r'.acceptedOn id fd = r.acceptedOn id fd
  processed : ∀ id, r'.processedFor id = r.processedFor id

theorem Quiet.of_log {r r' : Reactor} (hconnections : r'.connections = r.connections)
    (hfds : r'.fdToConnectionId = r.fdToConnectionId)
    (hopen : r'.kernel.openFds = r.kernel.openFds)
    (hqueue : r'.pendingOperations = r.pendingOperations) (hlog : r'.log = r.log) :
    r.Quiet r' where
  connections := hconnections
  fds := hfds
  openFds := hopen
  queue := hqueue
  accepted id fd := by rw [acceptedOn, acceptedOn, hlog]
  processed id := by rw [processedFor, processedFor, hlog]

theorem Quiet.refl (r : Reactor) : r.Quiet r :=
  .of_log rfl rfl rfl rfl rfl

theorem Quiet.trans {r r' r'' : Reactor} (h : r.Quiet r') (h' : r'.Quiet r'') : r.Quiet r'' where
  connections := h'.connections.trans h.connections
  fds := h'.fds.trans h.fds
  openFds := h'.openFds.trans h.openFds
  queue := h'.queue.trans h.queue
  accepted id fd := (h'.accepted id fd).trans (h.accepted id fd)
  processed id := (h'.processed id).trans (h.processed id)

theorem Quiet.buffered {r r' : Reactor} (h : r.Quiet r') : r'.buffered = r.buffered := by
  funext id
  rw [Reactor.buffered, Reactor.buffered, h.connections]

theorem quiet_emit (r : Reactor) {e : Effect} (h : e.Quiet) : r.Quiet (r.emit e) where
  connections := rfl
  fds := rfl
  openFds := rfl
  queue := rfl
  accepted id fd := by rw [acceptedOn_emit fd (h.2.2 id), h.1, List.append_nil]
  processed id := by rw [processedFor_emit (h.2.2 id), h.2.1, List.append_nil]

theorem quiet_count (r : Reactor) (f : ReactorStats → ReactorStats) : r.Quiet (r.count f) :=
  .of_log rfl rfl rfl rfl rfl

theorem quiet_monitor (env : Environment) (fd : ℤ) (change : Change) (r : Reactor) :
    r.Quiet (r.monitor env fd change).2 := by
  have h := r.quiet_emit (e := .kevent fd change (r.kernel.kqueueOpen && env.kevent r.log.length))
    (Effect.quiet_of rfl)
  refine ⟨h.connections, h.fds, ?_, h.queue, h.accepted, h.processed⟩
  rw [monitor]
  dsimp only
  split <;> simp

/-- What `DispatchEvent` can do. -/
theorem dispatchEvent_cases (env : Environment) (event : NetworkEvent) (r : Reactor) :
    r.receiver = .nobody ∧ r.dispatchEvent env event = r ∨
      r.dispatchEvent env event = r.emit (.dispatched event) ∨
      r.dispatchEvent env event = (r.emit (.refused event)).count fun s =>
        { s with totalDispatchFailures := s.totalDispatchFailures + 1 } := by
  unfold dispatchEvent
  cases r.receiver with
  | workerPool => exact .inr (ite_eq_or_eq _ _ _)
  | callback => exact .inr (.inl rfl)
  | nobody => exact .inl ⟨rfl, rfl⟩

theorem quiet_dispatchEvent (env : Environment) (event : NetworkEvent) (r : Reactor) :
    r.Quiet (r.dispatchEvent env event) := by
  have hdispatched := r.quiet_emit (e := .dispatched event) (Effect.quiet_of rfl)
  have hrefused := r.quiet_emit (e := .refused event) (Effect.quiet_of rfl)
  rcases dispatchEvent_cases env event r with ⟨-, h⟩ | h | h <;> rw [h]
  · exact .refl r
  · exact hdispatched
  · exact hrefused.trans (quiet_count _ _)

/-! ## The invariant -/

/-- The tables are in order, and so is the ledger when `pending` is what is still to be
accepted. -/
structure Sound (held : List Operation) (pending : UInt64 → List UInt8) (r : Reactor) :
    Prop where
  tables : r.Tables held
  ledger : ∀ id conn, r.connections.lookup id = some conn →
    r.acceptedOn id conn.fileDescriptor ++ pending id = r.processedFor id

/-- Between two operations or events, what is pending is what is buffered. -/
def AtRest (held : List Operation) (r : Reactor) : Prop :=
  r.Sound held r.buffered

variable {held : List Operation} {pending : UInt64 → List UInt8} {r r' : Reactor} {id : UInt64}
  {conn : ReactorConnection}

theorem buffered_of_lookup (hc : r.connections.lookup id = some conn) :
    r.buffered id = conn.sendBuffer.readable := by
  rw [buffered, hc]

theorem buffered_congr {i : UInt64} (h : r'.connections.lookup i = r.connections.lookup i) :
    r'.buffered i = r.buffered i := by
  rw [buffered, buffered, h]

theorem buffered_store {i : UInt64} (hi : i ≠ id) (conn : ReactorConnection) :
    (r.store id conn).buffered i = r.buffered i :=
  buffered_congr (Finmap.lookup_insert_of_ne r.connections hi)

theorem Sound.quiet (h : r.Sound held pending) (hq : r.Quiet r') : r'.Sound held pending := by
  refine ⟨h.tables.congr hq.connections hq.fds hq.openFds hq.queue, fun i c hc => ?_⟩
  rw [hq.connections] at hc
  rw [hq.accepted, hq.processed]
  exact h.ledger i c hc

theorem AtRest.quiet (h : r.AtRest held) (hq : r.Quiet r') : r'.AtRest held := by
  rw [AtRest, hq.buffered]
  exact Sound.quiet h hq

theorem AtRest.count_ite {p : Prop} [Decidable p] (h : r.AtRest held)
    (f : ReactorStats → ReactorStats) : (if p then r.count f else r).AtRest held := by
  split
  · exact h.quiet (quiet_count r f)
  · exact h

theorem Sound.drop {op : Operation} (h : r.Sound (op :: held) pending) : r.Sound held pending :=
  ⟨h.tables.drop, h.ledger⟩

theorem AtRest.drop {op : Operation} (h : r.AtRest (op :: held)) : r.AtRest held :=
  Sound.drop h

theorem Sound.requeue {held' : List Operation} (h : r.Sound held pending)
    (ops : List Operation) (hperm : (r.ahead held).Perm (held' ++ ops)) :
    Sound held' pending { r with pendingOperations := ops } :=
  ⟨h.tables.transfer rfl rfl rfl hperm, h.ledger⟩

/-! ## Single changes -/

/-- Assigning to a connection changes neither its place in the tables nor the ledger. -/
theorem Sound.store (h : r.Sound held pending) (hc : r.connections.lookup id = some conn)
    {conn' : ReactorConnection} (hfd : conn'.fileDescriptor = conn.fileDescriptor)
    (hid : conn'.connectionId = conn.connectionId) (hvalid : conn'.sendBuffer.Valid) :
    (r.store id conn').Sound held pending := by
  refine ⟨h.tables.store hc hfd hid hvalid, fun i c hlook => ?_⟩
  rw [lookup_store hc, Option.map_eq_some_iff] at hlook
  obtain ⟨c₀, hc₀, rfl⟩ := hlook
  have hledger := h.ledger i c₀ hc₀
  split
  · rename_i hi
    subst hi
    obtain rfl : conn = c₀ := Option.some.inj (hc.symm.trans hc₀)
    rw [hfd]
    exact hledger
  · exact hledger

/-- The kernel accepts the front of what is pending for the connection. -/
theorem Sound.sent (h : r.Sound held pending) (hc : r.connections.lookup id = some conn)
    {data rest : List UInt8} (hpending : pending id = data ++ rest) :
    (r.emit (.sent conn.fileDescriptor data)).Sound held (Function.update pending id rest) := by
  refine ⟨h.tables.congr rfl rfl rfl rfl, fun i c hlook => ?_⟩
  have hledger := h.ledger i c hlook
  rw [acceptedOn_emit _ rfl, processedFor_emit rfl]
  simp only [Effect.sentOn, Effect.payloadFor, List.append_nil]
  by_cases hi : i = id
  · subst hi
    obtain rfl : conn = c := Option.some.inj (hc.symm.trans hlook)
    rw [if_pos rfl, Function.update_self, List.append_assoc, ← hpending]
    exact hledger
  · have hfd : conn.fileDescriptor ≠ c.fileDescriptor := fun heq =>
      hi (h.tables.eq_of_fd hc hlook heq.symm)
    rw [if_neg hfd, Function.update_of_ne hi, List.append_nil]
    exact hledger

theorem Sound.took (h : r.Sound held pending) (data : List UInt8) :
    (r.emit (.took (.send id data))).Sound held
      (Function.update pending id (pending id ++ data)) := by
  refine ⟨h.tables.congr rfl rfl rfl rfl, fun i c hlook => ?_⟩
  have hledger := h.ledger i c hlook
  rw [acceptedOn_emit _ rfl, processedFor_emit rfl]
  simp only [Effect.sentOn, Effect.payloadFor, List.append_nil]
  by_cases hi : i = id
  · subst hi
    rw [if_pos rfl, Function.update_self, ← List.append_assoc, hledger]
  · rw [if_neg (Ne.symm hi), Function.update_of_ne hi, List.append_nil]
    exact hledger

/-- Once every connection has its pending bytes in its buffer, the reactor is at rest. -/
theorem atRest_of (pending : UInt64 → List UInt8) (htables : r.Tables held)
    (hledger : ∀ i c, r.connections.lookup i = some c →
      r.acceptedOn i c.fileDescriptor ++ pending i = r.processedFor i)
    (hsettled : ∀ i c, r.connections.lookup i = some c → pending i = c.sendBuffer.readable) :
    r.AtRest held := by
  refine ⟨htables, fun i c hlook => ?_⟩
  rw [buffered_of_lookup hlook, ← hsettled i c hlook]
  exact hledger i c hlook

theorem Sound.atRest (h : r.Sound held pending)
    (hsettled : ∀ i c, r.connections.lookup i = some c → pending i = c.sendBuffer.readable) :
    r.AtRest held :=
  atRest_of pending h.tables h.ledger hsettled

/-- Storing a buffer that holds what is pending for its connection settles it. -/
theorem Sound.store_atRest (h : r.Sound held pending)
    (hc : r.connections.lookup id = some conn) {conn' : ReactorConnection}
    (hfd : conn'.fileDescriptor = conn.fileDescriptor)
    (hid : conn'.connectionId = conn.connectionId) (hvalid : conn'.sendBuffer.Valid)
    (hothers : ∀ i, i ≠ id → pending i = r.buffered i)
    (hown : pending id = conn'.sendBuffer.readable) : (r.store id conn').AtRest held := by
  refine (h.store hc hfd hid hvalid).atRest fun i c hlook => ?_
  rw [lookup_store hc, Option.map_eq_some_iff] at hlook
  obtain ⟨c₀, hc₀, rfl⟩ := hlook
  split
  · rename_i hi
    subst hi
    exact hown
  · rename_i hi
    rw [hothers i hi, buffered_of_lookup hc₀]

/-! ## Leaving the table -/

/-- Whatever was pending for a connection that is removed, the others are at rest. -/
theorem Sound.doRemoveConnection (h : r.Sound held pending)
    (hothers : ∀ i, i ≠ id → pending i = r.buffered i) :
    (r.doRemoveConnection id).2.AtRest held := by
  unfold Reactor.doRemoveConnection
  cases hc : r.connections.lookup id with
  | none =>
    refine h.atRest fun i c hlook => ?_
    rw [hothers i (ne_of_lookup hc hlook), buffered_of_lookup hlook]
  | some conn =>
    have hclosed := r.quiet_emit (e := .closed conn.fileDescriptor) (Effect.quiet_of rfl)
    refine atRest_of pending ((h.tables.removed hc).congr rfl rfl rfl rfl) ?_ ?_
    · intro i c hlook
      exact (congrArg (· ++ pending i) (hclosed.accepted i c.fileDescriptor)).trans
        ((h.ledger i c (lookup_erase_eq_some.mp hlook).2).trans (hclosed.processed i).symm)
    · intro i c hlook
      have hold : i ≠ id ∧ r.connections.lookup i = some c := lookup_erase_eq_some.mp hlook
      rw [hothers i hold.1, buffered_of_lookup hold.2]

theorem Sound.handleConnectionClose (env : Environment) (h : r.Sound held pending)
    (hothers : ∀ i, i ≠ conn.connectionId → pending i = r.buffered i) :
    (r.handleConnectionClose env conn).AtRest held := by
  have hq := r.quiet_dispatchEvent env (.disconnected conn.connectionId)
  refine (h.quiet hq).doRemoveConnection ?_
  rw [hq.buffered]
  exact hothers

theorem Sound.handleConnectionError (env : Environment) (code : Errno)
    (h : r.Sound held pending)
    (hothers : ∀ i, i ≠ conn.connectionId → pending i = r.buffered i) :
    (r.handleConnectionError env conn code).AtRest held := by
  have hq := (r.quiet_dispatchEvent env
    (.error conn.connectionId (mapErrnoToNetworkError code) code)).trans
      (quiet_dispatchEvent env (.disconnected conn.connectionId) _)
  refine (h.quiet hq).doRemoveConnection ?_
  rw [hq.buffered]
  exact hothers

end Reactor

end DarwinCore.Network
