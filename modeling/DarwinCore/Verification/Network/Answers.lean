import DarwinCore.Library.Requests
import DarwinCore.Verification.Network.Control
import DarwinCore.Verification.Network.Frame

/-! # Synchronous requests to a reactor

A size query is answered when the loop takes it from the queue, so that those in the queue when
the loop exits are never answered. -/

namespace DarwinCore.Network

def Operation.promise : Operation → Option ℕ
  | .getSendBufferSize _ promise => some promise
  | _ => none

/-- The promise of the operation that a thread is about to enqueue. -/
def Caller.promise : Caller → Option ℕ
  | .enqueueing op => op.promise
  | .waking => none

def Effect.promise : Effect → Option ℕ
  | .answered promise _ => some promise
  | _ => none

namespace Reactor

def answers (r : Reactor) : List ℕ :=
  r.log.filterMap Effect.promise

variable {may : Lapse → Prop} {held : List Operation} {r r' : Reactor} {id : UInt64} {fd : ℤ}

theorem Grows.answers {P : Effect → Prop} (hP : ∀ e, P e → e.promise = none)
    (h : Grows P r r') : r'.answers = r.answers :=
  History.Extends.filterMap hP h

theorem concerns_promise {e : Effect} (h : Concerns id fd e) : e.promise = none := by
  cases e with
  | answered promise value => cases h
  | _ => rfl

theorem admits_promise {e : Effect} (h : Admits id fd e) : e.promise = none := by
  cases e with
  | answered promise value => cases h
  | _ => rfl

theorem ConnMoves.answers (h : ConnMoves may id fd r r') : r'.answers = r.answers :=
  (ConnMoves.grows h).answers fun _ => concerns_promise

theorem doRemoveConnection_answers (id : UInt64) (r : Reactor) :
    (r.doRemoveConnection id).2.answers = r.answers := by
  unfold Reactor.doRemoveConnection
  split <;> rfl

/-- What processing `op` answers. -/
theorem AtRest.processOperation_answers (env : Environment) {op : Operation}
    {rest : List Operation} (h : r.AtRest held) (hqueue : r.pendingOperations = op :: rest)
    (hprocess : (r.dequeue op rest).processOperation env op = some r') :
    r'.answers = op.promise.toList ++ r.answers := by
  have htables := h.tables.dequeue hqueue
  have hcount {r r' : Reactor} {p : Prop} [Decidable p] {f : ReactorStats → ReactorStats}
      (h : r'.answers = (r.dequeue op rest).answers) :
      (if p then r'.count f else r').answers = r.answers := by
    split <;> exact h
  unfold Reactor.processOperation at hprocess
  cases op with
  | add fd peer =>
    obtain rfl := Option.some.inj hprocess
    have hadd := doAddConnection_cases env fd peer (r.dequeue (.add fd peer) rest)
    exact hcount (hadd.grows.answers fun _ => admits_promise)
  | remove id =>
    obtain rfl := Option.some.inj hprocess
    exact hcount (doRemoveConnection_answers id (r.dequeue (.remove id) rest))
  | send id data =>
    obtain ⟨⟨success, r₁⟩, hsend, rfl⟩ := Option.map_eq_some_iff.mp hprocess
    have hsized : (Operation.send id data).Sized := htables.sized _ List.mem_cons_self
    have hcase := htables.doSendData_cases env hsized hsend
    have hmoves : r₁ = _ ∨ ∃ fd, ConnMoves (fun _ => True) id fd _ r₁ :=
      hcase.connMoves fun _ _ _ _ _ => trivial
    refine hcount ?_
    rcases hmoves with hsame | ⟨fd, hconn⟩
    · rw [hsame]
    · exact ConnMoves.answers hconn
  | getSendBufferSize id promise =>
    obtain rfl := Option.some.inj hprocess
    rfl

theorem processKqueueEvent_answers (env : Environment) (event : KEvent) (h : r.Tables held) :
    (r.processKqueueEvent env event).answers = r.answers := by
  have hmoves : r.processKqueueEvent env event = r ∨ ∃ id conn, r.Owns id event.ident conn ∧
      ConnMoves (fun _ => True) id event.ident r (r.processKqueueEvent env event) :=
    (h.processKqueueEvent_cases env event).connMoves fun _ => trivial
  rcases hmoves with hsame | ⟨id, conn, -, hconn⟩
  · rw [hsame]
  · exact ConnMoves.answers hconn

theorem dispatchEvent_answers (env : Environment) (event : NetworkEvent) (r : Reactor) :
    (r.dispatchEvent env event).answers = r.answers := by
  refine (dispatchEvent_grows env event r).answers fun e he => ?_
  rcases he with rfl | rfl <;> rfl

theorem checkTimeouts_answers (env : Environment) (r : Reactor) :
    (r.checkTimeouts env).answers = r.answers := by
  have hone (r : Reactor) (id : UInt64) : (closeById env r id).answers = r.answers := by
    unfold closeById
    split
    · rfl
    · exact (doRemoveConnection_answers _ _).trans (dispatchEvent_answers env _ r)
  have hall (ids : List UInt64) : ∀ r : Reactor,
      (ids.foldl (closeById env) r).answers = r.answers := by
    induction ids with
    | nil => exact fun _ => rfl
    | cons id ids ih => exact fun r => (ih _).trans (hone r id)
  unfold checkTimeouts
  split
  · rfl
  · exact hall _ r

theorem cleanupAllConnections_answers (env : Environment) (r : Reactor) :
    (r.cleanupAllConnections env).answers = r.answers := by
  refine (closeAllOnly_grows env.order r).answers fun e he => ?_
  obtain ⟨i, c, -, rfl⟩ := he
  rfl

end Reactor

namespace System

def promises (s : System) : List ℕ :=
  s.reactor.pendingOperations.filterMap Operation.promise

def requests (s : System) : Requests where
  calling := s.callers.filterMap Caller.promise
  waiting := s.promises
  answered := s.reactor.answers
  next := s.nextPromise
  served := s.loop ≠ .exited

/-- The loop exits while a size query is queued, or one is accepted after it has exited. -/
def Strands (s t : System) : Prop :=
  (s.loop ≠ .exited ∧ t.loop = .exited ∧ s.promises ≠ []) ∨
    (s.loop = .exited ∧ ∃ promise, t.promises = s.promises ++ [promise])

variable {s t : System}

theorem strands_iff : s.requests.Strands t.requests ↔ s.Strands t := by
  simp [Requests.Strands, Strands, requests]

theorem requests_other (hcallers : (t.callers.filterMap Caller.promise).Sublist
      (s.callers.filterMap Caller.promise)) (hqueue : t.promises = s.promises)
    (hanswers : t.reactor.answers = s.reactor.answers) (hnext : s.nextPromise ≤ t.nextPromise)
    (hloop : s.loop = .exited → t.loop = .exited) : Requests.Step s.requests t.requests := by
  refine .other hcallers hqueue hanswers hnext fun hserved => ?_
  have ht : t.loop ≠ .exited := of_decide_eq_true hserved
  exact decide_eq_true fun hs => ht (hloop hs)

theorem promises_congr
    (hqueue : t.reactor.pendingOperations = s.reactor.pendingOperations) :
    t.promises = s.promises :=
  congrArg (List.filterMap Operation.promise) hqueue

end System

theorem Loop.Step.requests {s : System} {r : Reactor} {loop : Loop}
    (hstep : Loop.Step (s.reactor, s.loop) (r, loop)) (hrest : s.AtRest) :
    Requests.Step s.requests { s with reactor := r, loop := loop }.requests := by
  obtain ⟨reactor, callers, before, stopping, nextPromise⟩ := s
  have hother {r : Reactor} {before loop : Loop} (hcontrol : reactor.SameControl r)
      (hanswers : r.answers = reactor.answers) (hloop : before ≠ .exited) :
      Requests.Step (System.requests ⟨reactor, callers, before, stopping, nextPromise⟩)
        (System.requests ⟨r, callers, loop, stopping, nextPromise⟩) :=
    System.requests_other (List.Sublist.refl _) (System.promises_congr hcontrol.queue) hanswers
      le_rfl fun hexited => absurd hexited hloop
  cases hstep with
  | @process _ _ which processed env op rest hbatch hqueue hprocess =>
    have hsame := hrest.processOperation_sameControl env hqueue hprocess
    have hanswers := hrest.processOperation_answers env hqueue hprocess
    have hpromises : System.promises ⟨reactor, callers, .draining which processed, stopping,
        nextPromise⟩ = op.promise.toList ++ rest.filterMap Operation.promise := by
      rw [System.promises, hqueue, List.filterMap_cons]
      cases op.promise <;> rfl
    have hleft : System.promises ⟨r, callers, .draining which (processed + 1), stopping,
        nextPromise⟩ = rest.filterMap Operation.promise :=
      congrArg (List.filterMap Operation.promise) hsame.queue
    cases hpromise : op.promise with
    | none =>
      rw [hpromise] at hpromises hanswers
      exact System.requests_other (List.Sublist.refl _) (hleft.trans hpromises.symm) hanswers
        le_rfl nofun
    | some promise =>
      rw [hpromise] at hpromises hanswers
      refine .answer promise rfl (hpromises.trans ?_) hanswers rfl ⟨rfl, rfl⟩
      exact congrArg (promise :: ·) hleft.symm
  | due env =>
    exact hother (reactor.checkTimeouts_sameControl env) (Reactor.checkTimeouts_answers env _) nofun
  | woken events =>
    refine System.requests_other (List.Sublist.refl _) (System.promises_congr ?_) ?_ le_rfl nofun
    · dsimp only
      split <;> rfl
    · dsimp only
      split <;> rfl
  | @handle _ env event =>
    dsimp only
    split
    · exact hother (.refl reactor) rfl nofun
    · exact hother (hrest.processKqueueEvent_sameControl env event)
        (Reactor.processKqueueEvent_answers env event hrest.tables) nofun
  | drained => exact hother ⟨rfl, rfl, rfl, rfl, rfl⟩ rfl nofun
  | _ => exact hother (.refl reactor) rfl nofun

theorem Reactor.request_promise {promise : ℕ} {req : Request} {r r' : Reactor} {op : Operation}
    (h : r.request promise req = (some op, r')) :
    op.promise = none ∨ op.promise = some promise := by
  unfold Reactor.request at h
  cases req with
  | removeConnection id =>
    dsimp only at h
    split at h <;> cases h
    exact .inl rfl
  | sendData id data =>
    dsimp only at h
    split at h <;> cases h
    exact .inl rfl
  | getSendBufferSize id =>
    dsimp only at h
    split at h <;> cases h
    exact .inr rfl

theorem Reactor.addConnection_promise {fd : ℤ} {peer : SockAddr} {r r' : Reactor}
    {op : Operation} (h : r.addConnection fd peer = (some op, r')) : op.promise = none := by
  have hop := (addConnection_cases fd peer r).2 op (congrArg Prod.fst h)
  rw [hop]
  rfl

theorem System.Step.requests {s t : System} (hstep : System.Step s t) (hrest : s.AtRest) :
    Requests.Step s.requests t.requests := by
  cases hstep with
  | @accept op r fd peer hfd hfresh hadd =>
    have hsame := Reactor.addConnection_sameControl fd peer (s.reactor.accept fd)
    have hidle := Reactor.addConnection_idle fd peer (s.reactor.accept fd)
    have hnone : Caller.promise (.enqueueing op) = none := Reactor.addConnection_promise hadd
    rw [hadd] at hsame hidle
    have hanswers : r.answers = (s.reactor.accept fd).answers :=
      congrArg (List.filterMap Effect.promise) hidle.log
    refine requests_other ?_ (promises_congr hsame.queue) hanswers le_rfl id
    rw [List.filterMap_cons_none hnone]
  | @acceptRejected r fd peer hfd hfresh hadd =>
    have hsame := Reactor.addConnection_sameControl fd peer (s.reactor.accept fd)
    have hidle := Reactor.addConnection_idle fd peer (s.reactor.accept fd)
    rw [hadd] at hsame hidle
    have hanswers : r.answers = (s.reactor.accept fd).answers :=
      congrArg (List.filterMap Effect.promise) hidle.log
    exact requests_other (List.Sublist.refl _) (promises_congr hsame.queue) hanswers le_rfl id
  | addInvalid fd peer hfd hadd =>
    have hsame := Reactor.addConnection_sameControl fd peer s.reactor
    have hidle := Reactor.addConnection_idle fd peer s.reactor
    rw [hadd] at hsame hidle
    refine requests_other (List.Sublist.refl _) (promises_congr hsame.queue) ?_ le_rfl id
    exact congrArg (List.filterMap Effect.promise) hidle.log
  | @request op r req hsized hreq =>
    have hsame := Reactor.request_sameControl s.nextPromise req s.reactor
    have hidle := Reactor.request_idle s.nextPromise req s.reactor
    rw [hreq] at hsame hidle
    have hanswers : r.answers = s.reactor.answers :=
      congrArg (List.filterMap Effect.promise) hidle.log
    rcases Reactor.request_promise hreq with hnone | hsome
    · have hnone' : Caller.promise (.enqueueing op) = none := hnone
      refine requests_other ?_ (promises_congr hsame.queue) hanswers (Nat.le_succ _) id
      rw [List.filterMap_cons_none hnone']
    · have hsome' : Caller.promise (.enqueueing op) = some s.nextPromise := hsome
      refine .call ?_ (promises_congr hsame.queue) hanswers rfl rfl
      exact List.filterMap_cons_some hsome'
  | requestRejected req hsized hreq =>
    have hsame := Reactor.request_sameControl s.nextPromise req s.reactor
    have hidle := Reactor.request_idle s.nextPromise req s.reactor
    rw [hreq] at hsame hidle
    refine requests_other (List.Sublist.refl _) (promises_congr hsame.queue) ?_ le_rfl id
    exact congrArg (List.filterMap Effect.promise) hidle.log
  | @enqueue op before after hcallers =>
    have hqueue : (s.reactor.pendingOperations ++ [op]).filterMap Operation.promise =
        s.promises ++ [op].filterMap Operation.promise := List.filterMap_append
    have hbefore : s.callers.filterMap Caller.promise =
        before.filterMap Caller.promise ++ (.enqueueing op :: after).filterMap Caller.promise := by
      rw [hcallers, List.filterMap_append]
    have hafter : (before ++ .waking :: after).filterMap Caller.promise =
        before.filterMap Caller.promise ++ after.filterMap Caller.promise := by
      rw [List.filterMap_append]
      rfl
    cases hpromise : op.promise with
    | none =>
      have hcaller : Caller.promise (.enqueueing op) = none := hpromise
      rw [List.filterMap_cons_none hcaller, ← hafter] at hbefore
      rw [List.filterMap_cons_none hpromise, List.filterMap_nil, List.append_nil] at hqueue
      exact requests_other (hbefore ▸ List.Sublist.refl _) hqueue rfl le_rfl id
    | some promise =>
      have hcaller : Caller.promise (.enqueueing op) = some promise := hpromise
      rw [List.filterMap_cons_some hcaller] at hbefore
      rw [List.filterMap_cons_some hpromise, List.filterMap_nil] at hqueue
      refine .accept promise ?_ hqueue rfl rfl rfl
      have hmoved : (s.callers.filterMap Caller.promise).Perm
          (promise :: (before ++ .waking :: after).filterMap Caller.promise) := by
        rw [hbefore, hafter]
        exact List.perm_middle
      exact hmoved
  | @enqueueRejected op before after hcallers =>
    have hsame := Reactor.reject_sameControl op s.reactor
    refine requests_other ?_ (promises_congr hsame.queue) ?_ le_rfl id
    · rw [hcallers, List.filterMap_append, List.filterMap_append]
      exact ((List.sublist_cons_self _ after).filterMap _).append_left _
    · cases op <;> rfl
  | @wake before after hcallers =>
    refine requests_other ?_ rfl rfl le_rfl id
    rw [hcallers, List.filterMap_append, List.filterMap_append]
    exact ((List.sublist_cons_self _ after).filterMap _).append_left _
  | loop hloop => exact hloop.requests hrest
  | stopCleanup env hjoined =>
    have hsame := Reactor.cleanupAllConnections_sameControl env
      { s.reactor with kernel := s.reactor.kernel.closeQueue }
    exact requests_other (List.Sublist.refl _) (promises_congr hsame.queue)
      (Reactor.cleanupAllConnections_answers env _) le_rfl id
  | _ => exact requests_other (List.Sublist.refl _) rfl rfl le_rfl id

/-- When `Stop` has returned, every size query accepted in the run has been answered if and only
if no step has stranded one. -/
theorem reactors_answered_iff {reactorId : ℤ} {receiver : Receiver} {s : System}
    {past : List System} (hrun : (reactors reactorId receiver).Run (s :: past))
    (hreturned : s.stopping = .returned) :
    (∀ u ∈ s :: past, ∀ promise ∈ u.promises, promise ∈ s.reactor.answers) ↔
      ∀ u v, [v, u] <:+: s :: past → ¬u.Strands v := by
  have hphase := (reactors_phase hrun s List.mem_cons_self).2
  have hexited : s.requests.served = false :=
    decide_eq_false (not_not.mpr (hphase.joined hreturned))
  have hiff := Requests.answered_iff_of_map System.requests
    (fun u hu => by obtain ⟨timeout, rfl⟩ := hu; rfl)
    (fun u v hu (hstep : System.Step u v) => hstep.requests hu) hrun (reactors_atRest hrun) hexited
  simp only [System.strands_iff] at hiff
  exact hiff

end DarwinCore.Network
