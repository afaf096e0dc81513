import DarwinCore.Verification.Network.Control

/-! # The counters of requests

Requests are counted when they are made, failures when a request is rejected or its processing
fails, and what is processed a batch at a time. Nothing else touches these counters. -/

namespace DarwinCore.Network

inductive RequestKind where
  | add
  | remove
  | send
  | query
  deriving DecidableEq, Repr

def Operation.kind : Operation → RequestKind
  | .add _ _ => .add
  | .remove _ => .remove
  | .send _ _ => .send
  | .getSendBufferSize _ _ => .query

def Request.kind : Request → RequestKind
  | .removeConnection _ => .remove
  | .sendData _ _ => .send
  | .getSendBufferSize _ => .query

def RequestKind.counts : RequestKind → Bool
  | .query => false
  | _ => true

namespace ReactorStats

/-- The requests of a kind. Size queries are not counted. -/
def requests (s : ReactorStats) : RequestKind → ℕ
  | .add => s.totalAddRequests
  | .remove => s.totalRemoveRequests
  | .send => s.totalSendRequests
  | .query => 0

def failures (s : ReactorStats) : RequestKind → ℕ
  | .add => s.totalAddFailures
  | .remove => s.totalRemoveFailures
  | .send => s.totalSendFailures
  | .query => 0

end ReactorStats

namespace Reactor

structure SameCounts (r r' : Reactor) : Prop where
  processed : r'.stats.totalOpsProcessed = r.stats.totalOpsProcessed
  requests : r'.stats.requests = r.stats.requests
  failures : r'.stats.failures = r.stats.failures

structure Counts (kind : RequestKind) (made failed : ℕ) (r r' : Reactor) : Prop where
  processed : r'.stats.totalOpsProcessed = r.stats.totalOpsProcessed
  requests : ∀ k, r'.stats.requests k = r.stats.requests k + if k = kind then made else 0
  failures : ∀ k, r'.stats.failures k = r.stats.failures k + if k = kind then failed else 0

variable {may : Lapse → Prop} {held : List Operation} {r r' r'' : Reactor} {id : UInt64} {fd : ℤ}
  {kind : RequestKind} {made failed : ℕ}

theorem SameCounts.refl (r : Reactor) : r.SameCounts r :=
  ⟨rfl, rfl, rfl⟩

theorem SameCounts.trans (h : r.SameCounts r') (h' : r'.SameCounts r'') : r.SameCounts r'' :=
  ⟨h'.processed.trans h.processed, h'.requests.trans h.requests, h'.failures.trans h.failures⟩

theorem SameCounts.counts (h : r.SameCounts r') (kind : RequestKind) : r.Counts kind 0 0 r' where
  processed := h.processed
  requests k := by
    rw [h.requests]
    simp
  failures k := by
    rw [h.failures]
    simp

theorem Counts.after (h' : r'.Counts kind made failed r'') (h : r.SameCounts r') :
    r.Counts kind made failed r'' where
  processed := h'.processed.trans h.processed
  requests k := by rw [h'.requests, h.requests]
  failures k := by rw [h'.failures, h.failures]

theorem Counts.trans (h : r.Counts kind made failed r') (h' : r'.SameCounts r'') :
    r.Counts kind made failed r'' where
  processed := h'.processed.trans h.processed
  requests k := by rw [h'.requests, h.requests]
  failures k := by rw [h'.failures, h.failures]

theorem failedAdd_counts (r : Reactor) : r.Counts .add 0 1
    (r.count fun s => { s with totalAddFailures := s.totalAddFailures + 1 }) :=
  ⟨rfl, fun k => by cases k <;> rfl, fun k => by cases k <;> rfl⟩

theorem failedRemove_counts (r : Reactor) : r.Counts .remove 0 1
    (r.count fun s => { s with totalRemoveFailures := s.totalRemoveFailures + 1 }) :=
  ⟨rfl, fun k => by cases k <;> rfl, fun k => by cases k <;> rfl⟩

theorem failedSend_counts (r : Reactor) : r.Counts .send 0 1
    (r.count fun s => { s with totalSendFailures := s.totalSendFailures + 1 }) :=
  ⟨rfl, fun k => by cases k <;> rfl, fun k => by cases k <;> rfl⟩

theorem reject_counts (op : Operation) (r : Reactor) :
    r.Counts op.kind 0 op.kind.counts.toNat (r.reject op) := by
  cases op with
  | add fd peer => exact r.failedAdd_counts.trans ⟨rfl, rfl, rfl⟩
  | remove id => exact r.failedRemove_counts
  | send id data => exact r.failedSend_counts
  | getSendBufferSize id promise => exact (SameCounts.refl r).counts .query

/-! ## What is not counted -/

theorem monitor_sameCounts (env : Environment) (fd : ℤ) (change : Change) (r : Reactor) :
    r.SameCounts (r.monitor env fd change).2 := by
  unfold monitor
  exact ⟨rfl, rfl, rfl⟩

theorem dispatchEvent_sameCounts (env : Environment) (event : NetworkEvent) (r : Reactor) :
    r.SameCounts (r.dispatchEvent env event) := by
  rcases dispatchEvent_cases env event r with ⟨-, h⟩ | h | h <;> rw [h] <;> exact ⟨rfl, rfl, rfl⟩

theorem doRemoveConnection_sameCounts (id : UInt64) (r : Reactor) :
    r.SameCounts (r.doRemoveConnection id).2 := by
  unfold doRemoveConnection
  split <;> exact ⟨rfl, rfl, rfl⟩

theorem ConnMove.sameCounts (h : ConnMove may id fd r r') : r.SameCounts r' := by
  cases h with
  | settled howns hkey hfd hvalid hmonitored =>
    have hsame : r.SameCounts _ := hmonitored.keeps
      (fun _ env change h => h.trans (monitor_sameCounts env fd change _)) (.refl r)
    exact hsame.trans ⟨rfl, rfl, rfl⟩
  | received env time data =>
    refine SameCounts.trans ?_ (dispatchEvent_sameCounts env _ _)
    exact ⟨rfl, rfl, rfl⟩
  | close env =>
    exact (dispatchEvent_sameCounts env _ r).trans (doRemoveConnection_sameCounts _ _)
  | error env code =>
    exact ((dispatchEvent_sameCounts env _ r).trans (dispatchEvent_sameCounts env _ _)).trans
      (doRemoveConnection_sameCounts _ _)
  | _ => exact ⟨rfl, rfl, rfl⟩

theorem ConnMoves.sameCounts (h : ConnMoves may id fd r r') : r.SameCounts r' := by
  induction h with
  | refl => exact .refl r
  | tail _ hmove ih => exact ih.trans hmove.sameCounts

theorem nextSeq_sameCounts (r : Reactor) : r.SameCounts r.nextSeq.2 := by
  unfold nextSeq
  split <;> exact ⟨rfl, rfl, rfl⟩

theorem AddCase.sameCounts {env : Environment} {peer : SockAddr} {result : UInt64 × Reactor}
    (h : AddCase env fd peer r result) : r.SameCounts result.2 := by
  have hmonitored := r.nextSeq_sameCounts.trans (monitor_sameCounts env fd .addRead _)
  cases h with
  | ignored => exact .refl r
  | collided => exact r.nextSeq_sameCounts.trans ⟨rfl, rfl, rfl⟩
  | unmonitored => exact hmonitored.trans ⟨rfl, rfl, rfl⟩
  | @added id =>
    refine hmonitored.trans (SameCounts.trans ?_ (dispatchEvent_sameCounts env _ _))
    exact ⟨rfl, rfl, rfl⟩

theorem closeById_sameCounts (env : Environment) (r : Reactor) (id : UInt64) :
    r.SameCounts (closeById env r id) := by
  unfold closeById
  split
  · exact .refl r
  · exact (dispatchEvent_sameCounts env _ r).trans (doRemoveConnection_sameCounts _ _)

theorem checkTimeouts_sameCounts (env : Environment) (r : Reactor) :
    r.SameCounts (r.checkTimeouts env) := by
  have hall (ids : List UInt64) : ∀ r : Reactor, r.SameCounts (ids.foldl (closeById env) r) := by
    induction ids with
    | nil => exact .refl
    | cons id ids ih => exact fun r => (closeById_sameCounts env r id).trans (ih _)
  unfold checkTimeouts
  split
  · exact .refl r
  · exact hall _ r

theorem cleanupAllConnections_sameCounts (env : Environment) (r : Reactor) :
    r.SameCounts (r.cleanupAllConnections env) := by
  have hone (r : Reactor) (id : UInt64) : r.SameCounts (closeOnly r id) := by
    unfold closeOnly
    split <;> exact ⟨rfl, rfl, rfl⟩
  have hall (ids : List UInt64) : ∀ r : Reactor, r.SameCounts (ids.foldl closeOnly r) := by
    induction ids with
    | nil => exact .refl
    | cons id ids ih => exact fun r => (hone r id).trans (ih _)
  exact (hall env.order r).trans ⟨rfl, rfl, rfl⟩

theorem processKqueueEvent_sameCounts (env : Environment) (event : KEvent) (h : r.Tables held) :
    r.SameCounts (r.processKqueueEvent env event) := by
  have hmoves : r.processKqueueEvent env event = r ∨ ∃ id conn, r.Owns id event.ident conn ∧
      ConnMoves (fun _ => True) id event.ident r (r.processKqueueEvent env event) :=
    (h.processKqueueEvent_cases env event).connMoves fun _ => trivial
  rcases hmoves with hsame | ⟨id, conn, -, hconn⟩
  · rw [hsame]
    exact .refl r
  · exact ConnMoves.sameCounts hconn

/-! ## What is counted -/

/-- Whether processing an operation succeeds. A size query always does. -/
def processSucceeds (env : Environment) (op : Operation) (r : Reactor) : Bool :=
  match op with
  | .add fd peer => (r.doAddConnection env fd peer).1 ≠ 0
  | .remove id => (r.doRemoveConnection id).1
  | .send id data => ((r.doSendData env id data).map Prod.fst).getD false
  | .getSendBufferSize _ _ => true

/-- Processing counts a failure exactly if it fails. -/
theorem AtRest.processOperation_counts (env : Environment) {op : Operation}
    {rest : List Operation} (h : r.AtRest held) (hqueue : r.pendingOperations = op :: rest)
    (hprocess : (r.dequeue op rest).processOperation env op = some r') :
    r.Counts op.kind 0
      (!(r.dequeue op rest).processSucceeds env op && op.kind.counts).toNat r' := by
  have htables := h.tables.dequeue hqueue
  have hdequeued : r.SameCounts (r.dequeue op rest) := ⟨rfl, rfl, rfl⟩
  cases op with
  | add fd peer =>
    have hsame := (doAddConnection_cases env fd peer (r.dequeue (.add fd peer) rest)).sameCounts
    unfold Reactor.processOperation at hprocess
    unfold processSucceeds
    dsimp only at hprocess ⊢
    generalize (r.dequeue (.add fd peer) rest).doAddConnection env fd peer = result
      at hprocess hsame ⊢
    obtain rfl := Option.some.inj hprocess
    by_cases hid : result.1 = 0
    · rw [if_pos hid]
      simp only [hid]
      exact (failedAdd_counts _).after (hdequeued.trans hsame)
    · rw [if_neg hid, decide_eq_true hid]
      exact (hdequeued.trans hsame).counts .add
  | remove id =>
    have hsame := doRemoveConnection_sameCounts id (r.dequeue (.remove id) rest)
    unfold Reactor.processOperation at hprocess
    unfold processSucceeds
    dsimp only at hprocess ⊢
    generalize (r.dequeue (.remove id) rest).doRemoveConnection id = result at hprocess hsame ⊢
    obtain rfl := Option.some.inj hprocess
    obtain ⟨success, r₁⟩ := result
    cases success with
    | true => exact (hdequeued.trans hsame).counts .remove
    | false =>
      exact (failedRemove_counts _).after (hdequeued.trans hsame)
  | send id data =>
    obtain ⟨⟨success, r₁⟩, hsend, rfl⟩ := Option.map_eq_some_iff.mp hprocess
    have hsized : (Operation.send id data).Sized := htables.sized _ List.mem_cons_self
    have hcase := htables.doSendData_cases env hsized hsend
    have hmoves : r₁ = _ ∨ ∃ fd, ConnMoves (fun _ => True) id fd _ r₁ :=
      hcase.connMoves fun _ _ _ _ _ => trivial
    have hsame : r.SameCounts r₁ := by
      rcases hmoves with hsame | ⟨fd, hconn⟩
      · rw [hsame]
        exact hdequeued
      · exact hdequeued.trans (ConnMoves.sameCounts hconn)
    unfold processSucceeds
    dsimp only
    rw [hsend]
    cases success with
    | true => exact hsame.counts .send
    | false =>
      exact (failedSend_counts _).after hsame
  | getSendBufferSize id promise =>
    obtain rfl := Option.some.inj hprocess
    have hanswered (value : ℕ) : r.SameCounts
        ((r.dequeue (.getSendBufferSize id promise) rest).emit (.answered promise value)) :=
      ⟨rfl, rfl, rfl⟩
    exact (hanswered _).counts .query

/-- A request is counted as made, and as failed if it is rejected before `Enqueue`. -/
theorem addConnection_counts (fd : ℤ) (peer : SockAddr) (r : Reactor) :
    r.Counts .add 1 (if (r.addConnection fd peer).1 = none then 1 else 0)
      (r.addConnection fd peer).2 := by
  unfold addConnection
  dsimp only
  split
  all_goals exact ⟨rfl, fun k => by cases k <;> rfl, fun k => by cases k <;> rfl⟩

theorem request_counts (promise : ℕ) (req : Request) (r : Reactor) :
    r.Counts req.kind req.kind.counts.toNat
      (if (r.request promise req).1 = none then req.kind.counts.toNat else 0)
      (r.request promise req).2 := by
  unfold request
  cases req with
  | getSendBufferSize id =>
    dsimp only
    split
    all_goals exact (SameCounts.refl r).counts .query
  | _ =>
    dsimp only
    split
    all_goals exact ⟨rfl, fun k => by cases k <;> rfl, fun k => by cases k <;> rfl⟩

theorem request_kind {promise : ℕ} {req : Request} {op : Operation}
    (h : r.request promise req = (some op, r')) : op.kind = req.kind := by
  unfold request at h
  cases req with
  | _ =>
    dsimp only at h
    split at h
    all_goals
      cases h
      try rfl

end Reactor

end DarwinCore.Network
