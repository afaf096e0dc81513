import DarwinCore.Verification.Network.Answers
import DarwinCore.Verification.Network.ClientControl
import DarwinCore.Verification.Network.ClientFrame

/-! # Synchronous sends of a client

A synchronous send is answered once the loop has processed it, so that those in the queue when
the loop exits are never answered. -/

namespace DarwinCore.Network

/-- The promise of the operation that a thread is about to enqueue. -/
def SendCaller.promise : SendCaller → Option ℕ
  | enqueueing op => op.promise
  | waking => none

def ClientEffect.promise : ClientEffect → Option ℕ
  | answered promise _ => some promise
  | _ => none

def ClientLoop.promise : ClientLoop → Option ℕ
  | completing _ op _ => op.promise
  | removing _ next => next.promise
  | _ => none

@[simp] theorem ClientLoop.promise_after (removes : Bool) (next : ClientLoop) :
    (after removes next).promise = next.promise := by
  cases removes <;> rfl

@[simp] theorem ClientReactor.Reaction.promise_next (reaction : Reaction) (events : List KEvent) :
    (reaction.next events).promise = none := by
  cases reaction <;> rfl

namespace ClientReactor

def answers (r : ClientReactor) : List ℕ :=
  r.log.filterMap ClientEffect.promise

variable {r r' : ClientReactor}

theorem Grows.answers {P : ClientEffect → Prop} (hP : ∀ e, P e → e.promise = none)
    (h : Grows P r r') : r'.answers = r.answers :=
  History.Extends.filterMap hP h

theorem sends_promise {fd : ℤ} {e : ClientEffect} (h : Sends fd e) : e.promise = none := by
  cases e with
  | answered promise success => cases h
  | _ => rfl

theorem receives_promise {fd : ℤ} {id : UInt64} {e : ClientEffect} (h : Receives fd id e) :
    e.promise = none := by
  cases e with
  | answered promise success => cases h
  | _ => rfl

theorem removes_promise {removal : Removal} {id : UInt64} {e : ClientEffect}
    (h : Removes removal id e) : e.promise = none := by
  cases e with
  | answered promise success => cases h
  | _ => rfl

theorem sets_promise {fd : ℤ} {setting : Setting} {id : UInt64} {e : ClientEffect}
    (h : Sets fd setting id e) : e.promise = none := by
  cases e with
  | answered promise success => cases h
  | _ => rfl

theorem complete_answers (op : SendOperation) (success : Bool) (r : ClientReactor) :
    (r.complete op success).answers = op.promise.toList ++ r.answers := by
  unfold complete
  cases op.callback with
  | none => cases op.promise <;> rfl
  | some callback => cases op.promise <;> rfl

theorem request_promise {promise : ℕ} {req : SendRequest} {op : SendOperation}
    (h : r.request promise req = some op) : op.promise = none ∨ op.promise = some promise := by
  have hsend {op' : SendOperation} (h : r.requestSend op' = some op) :
      op.promise = op'.promise := by
    unfold requestSend at h
    split at h <;> cases h
    rfl
  cases req with
  | async data => exact .inl (hsend h)
  | sync data => exact .inr (hsend h)
  | withCallback data callback => exact .inl (hsend h)

end ClientReactor

namespace ClientSystem

/-- The promises of the operation that is being processed and of those in the queue. -/
def promises (s : ClientSystem) : List ℕ :=
  s.loop.promise.toList ++ s.reactor.sendOperations.filterMap SendOperation.promise

def requests (s : ClientSystem) : Requests where
  calling := s.callers.filterMap SendCaller.promise
  waiting := s.promises
  answered := s.reactor.answers
  next := s.nextPromise
  served := s.loop ≠ .exited

/-- The loop exits while a synchronous send is queued, or one is accepted after it has exited. -/
def Strands (s t : ClientSystem) : Prop :=
  (s.loop ≠ .exited ∧ t.loop = .exited ∧ s.promises ≠ []) ∨
    (s.loop = .exited ∧ ∃ promise, t.promises = s.promises ++ [promise])

variable {s t : ClientSystem}

theorem strands_iff : s.requests.Strands t.requests ↔ s.Strands t := by
  simp [Requests.Strands, Strands, requests]

theorem requests_other (hcallers : (t.callers.filterMap SendCaller.promise).Sublist
      (s.callers.filterMap SendCaller.promise)) (hqueue : t.promises = s.promises)
    (hanswers : t.reactor.answers = s.reactor.answers) (hnext : s.nextPromise ≤ t.nextPromise)
    (hloop : s.loop = .exited → t.loop = .exited) : Requests.Step s.requests t.requests := by
  refine .other hcallers hqueue hanswers hnext fun hserved => ?_
  have ht : t.loop ≠ .exited := of_decide_eq_true hserved
  exact decide_eq_true fun hs => ht (hloop hs)

theorem promises_congr (hqueue : t.reactor.sendOperations = s.reactor.sendOperations)
    (hloop : t.loop.promise = s.loop.promise) : t.promises = s.promises := by
  rw [promises, hqueue, hloop]
  rfl

end ClientSystem

theorem ClientLoop.Step.requests {s : ClientSystem} {r : ClientReactor} {loop : ClientLoop}
    (hstep : ClientLoop.Step (s.reactor, s.loop) (r, loop)) :
    Requests.Step s.requests { s with reactor := r, loop := loop }.requests := by
  obtain ⟨reactor, callers, owners, before, stopping, nextPromise⟩ := s
  have hother {r : ClientReactor} {before loop : ClientLoop} (hcontrol : reactor.SameControl r)
      (hanswers : r.answers = reactor.answers) (hpromise : loop.promise = before.promise)
      (hloop : before ≠ .exited) :
      Requests.Step (ClientSystem.requests ⟨reactor, callers, owners, before, stopping,
        nextPromise⟩)
        (ClientSystem.requests ⟨r, callers, owners, loop, stopping, nextPromise⟩) :=
    ClientSystem.requests_other (List.Sublist.refl _)
      (ClientSystem.promises_congr hcontrol.queue hpromise) hanswers le_rfl
      fun hexited => absurd hexited hloop
  cases hstep with
  | @process _ _ processed env op rest success removes hbatch hqueue hprocess =>
    have hsame := ClientReactor.doSend_sameControl env hprocess
    have hanswers : r.answers = (reactor.dequeue op rest).answers :=
      (ClientReactor.doSend_grows env hprocess).answers fun _ => ClientReactor.sends_promise
    refine ClientSystem.requests_other (List.Sublist.refl _) ?_ hanswers le_rfl nofun
    have htaken : reactor.sendOperations = op :: rest := hqueue
    have hrest : r.sendOperations = rest := hsame.queue
    simp only [ClientSystem.promises, htaken, hrest, promise_after, promise, Option.toList_none,
      List.nil_append, List.filterMap_cons]
    cases op.promise <;> rfl
  | @complete _ processed op success =>
    have hsame := ClientReactor.complete_sameControl op success reactor
    have hanswers := ClientReactor.complete_answers op success reactor
    have hqueue : (reactor.complete op success).sendOperations = reactor.sendOperations :=
      hsame.queue
    cases hpromise : op.promise with
    | none =>
      rw [hpromise] at hanswers
      exact hother hsame hanswers hpromise.symm nofun
    | some promise =>
      rw [hpromise] at hanswers
      refine .answer promise rfl ?_ hanswers rfl ⟨rfl, rfl⟩
      simp [ClientSystem.requests, ClientSystem.promises, ClientLoop.promise, hpromise, hqueue]
  | @drained _ processed hdone =>
    refine hother (.refl reactor) rfl ?_ nofun
    split <;> rfl
  | flush env =>
    refine hother (reactor.trySendDirect_sameControl env) ?_ (promise_after _ _) nofun
    exact (reactor.trySendDirect_grows env).answers fun _ => ClientReactor.sends_promise
  | woken events =>
    refine ClientSystem.requests_other (List.Sublist.refl _)
      (ClientSystem.promises_congr ?_ rfl) ?_ le_rfl nofun
    · dsimp only
      split <;> rfl
    · dsimp only
      split <;> rfl
  | @handle _ env event events h =>
    refine hother (reactor.processKqueueEvent_sameControl env event) ?_
      (ClientReactor.Reaction.promise_next _ _) nofun
    exact (reactor.processKqueueEvent_grows env event).answers
      fun _ => ClientReactor.sends_promise
  | @receive _ env outcome fd events =>
    refine hother (reactor.receive_sameControl env fd outcome) ?_
      (ClientReactor.Reaction.promise_next _ _) nofun
    exact (reactor.receive_grows env fd outcome).answers fun _ => ClientReactor.receives_promise
  | @remove _ _ env removal following next hremove =>
    have hsame := reactor.removeConnection_sameControl env removal
    have hanswers := (reactor.removeConnection_grows env removal).answers
      fun _ => ClientReactor.removes_promise
    rw [hremove] at hsame hanswers
    refine hother hsame hanswers ?_ nofun
    cases following <;> rfl
  | _ => exact hother (.refl reactor) rfl rfl nofun

theorem ClientSystem.Step.requests {s t : ClientSystem} (hstep : ClientSystem.Step s t) :
    Requests.Step s.requests t.requests := by
  cases hstep with
  | @request op req hsized hreq =>
    rcases ClientReactor.request_promise hreq with hnone | hsome
    · have hcaller : SendCaller.promise (.enqueueing op) = none := hnone
      refine requests_other ?_ rfl rfl (Nat.le_succ _) id
      rw [List.filterMap_cons_none hcaller]
    · have hcaller : SendCaller.promise (.enqueueing op) = some s.nextPromise := hsome
      exact .call (List.filterMap_cons_some hcaller) rfl rfl rfl rfl
  | @enqueue op before after hcallers =>
    have hqueue : s.loop.promise.toList ++
        (s.reactor.sendOperations ++ [op]).filterMap SendOperation.promise =
        s.promises ++ [op].filterMap SendOperation.promise := by
      rw [promises, List.filterMap_append, List.append_assoc]
    have hbefore : s.callers.filterMap SendCaller.promise =
        before.filterMap SendCaller.promise ++
          (.enqueueing op :: after).filterMap SendCaller.promise := by
      rw [hcallers, List.filterMap_append]
    have hafter : (before ++ .waking :: after).filterMap SendCaller.promise =
        before.filterMap SendCaller.promise ++ after.filterMap SendCaller.promise := by
      rw [List.filterMap_append]
      rfl
    cases hpromise : op.promise with
    | none =>
      have hcaller : SendCaller.promise (.enqueueing op) = none := hpromise
      rw [List.filterMap_cons_none hcaller, ← hafter] at hbefore
      rw [List.filterMap_cons_none hpromise, List.filterMap_nil, List.append_nil] at hqueue
      exact requests_other (hbefore ▸ List.Sublist.refl _) hqueue rfl le_rfl id
    | some promise =>
      have hcaller : SendCaller.promise (.enqueueing op) = some promise := hpromise
      rw [List.filterMap_cons_some hcaller] at hbefore
      rw [List.filterMap_cons_some hpromise, List.filterMap_nil] at hqueue
      have hmoved : (s.callers.filterMap SendCaller.promise).Perm
          (promise :: (before ++ .waking :: after).filterMap SendCaller.promise) := by
        rw [hbefore, hafter]
        exact List.perm_middle
      exact .accept promise hmoved hqueue rfl rfl rfl
  | @enqueueRejected op before after hcallers =>
    refine requests_other ?_ rfl rfl le_rfl id
    rw [hcallers, List.filterMap_append, List.filterMap_append]
    exact ((List.sublist_cons_self _ after).filterMap _).append_left _
  | @wake before after hcallers =>
    refine requests_other ?_ rfl rfl le_rfl id
    rw [hcallers, List.filterMap_append, List.filterMap_append]
    exact ((List.sublist_cons_self _ after).filterMap _).append_left _
  | @setting env fd peer setting =>
    have hsame := s.reactor.setConnection_sameControl env fd peer setting
    refine requests_other (List.Sublist.refl _) (promises_congr hsame.queue rfl) ?_ le_rfl id
    exact (s.reactor.setConnection_grows env fd peer setting).answers
      fun _ => ClientReactor.sets_promise
  | @removing env removal =>
    have hsame := s.reactor.removeConnection_sameControl env removal
    refine requests_other (List.Sublist.refl _) (promises_congr hsame.queue rfl) ?_ le_rfl id
    exact (s.reactor.removeConnection_grows env removal).answers
      fun _ => ClientReactor.removes_promise
  | loop hloop => exact hloop.requests
  | stopShutdown =>
    have hsame := s.reactor.shutdownConnection_sameControl
    refine requests_other (List.Sublist.refl _) (promises_congr hsame.queue rfl) ?_ le_rfl id
    unfold ClientReactor.shutdownConnection
    dsimp only
    split <;> rfl
  | stopClose =>
    have hsame := s.reactor.closeConnection_sameControl
    refine requests_other (List.Sublist.refl _) (promises_congr hsame.queue rfl) ?_ le_rfl id
    unfold ClientReactor.closeConnection
    dsimp only
    split <;> rfl
  | _ => exact requests_other (List.Sublist.refl _) rfl rfl le_rfl id

/-- When `Stop` has returned, every synchronous send accepted in the run has been answered if and
only if no step has stranded one. -/
theorem clientReactors_answered_iff {receiver : Receiver} {s : ClientSystem}
    {past : List ClientSystem} (hrun : (clientReactors receiver).Run (s :: past))
    (hreturned : s.stopping = .returned) :
    (∀ u ∈ s :: past, ∀ promise ∈ u.promises, promise ∈ s.reactor.answers) ↔
      ∀ u v, [v, u] <:+: s :: past → ¬u.Strands v := by
  have hphase := clientReactors_phase hrun s List.mem_cons_self
  have hexited : s.requests.served = false := by
    refine decide_eq_false (not_not.mpr (hphase.joined ?_))
    rw [hreturned]
    trivial
  have hiff := Requests.answered_iff_of_map ClientSystem.requests
    (fun u hu => by obtain ⟨fds, rfl⟩ := hu; rfl)
    (fun u v _ (hstep : ClientSystem.Step u v) => hstep.requests) hrun
    (fun _ _ => trivial) hexited
  simp only [ClientSystem.strands_iff] at hiff
  exact hiff

/-! ## Both reactors -/

/-- When `Stop` has returned, every synchronous request accepted in the run has been answered if
and only if no step has stranded one. -/
theorem accepted_requests_answered_iff (receiver : Receiver) :
    (∀ reactorId (s : System) past, (reactors reactorId receiver).Run (s :: past) →
      s.stopping = .returned →
        ((∀ u ∈ s :: past, ∀ promise ∈ u.promises, promise ∈ s.reactor.answers) ↔
          ∀ u v, [v, u] <:+: s :: past → ¬u.Strands v)) ∧
    ∀ (s : ClientSystem) past, (clientReactors receiver).Run (s :: past) →
      s.stopping = .returned →
        ((∀ u ∈ s :: past, ∀ promise ∈ u.promises, promise ∈ s.reactor.answers) ↔
          ∀ u v, [v, u] <:+: s :: past → ¬u.Strands v) :=
  ⟨fun _ _ _ hrun hreturned => reactors_answered_iff hrun hreturned,
    fun _ _ hrun hreturned => clientReactors_answered_iff hrun hreturned⟩

/-- A size query is accepted after the loop has seen that `Stop` was called, and before `Stop`
stops the queue. -/
theorem late_query_run : ∃ s past, (reactors 0 .workerPool).Run (s :: past) ∧
    s.stopping = .returned ∧ (∃ u ∈ s :: past, 0 ∈ u.promises) ∧ s.reactor.answers = [] := by
  have hstart : (reactors 0 .workerPool).Run [_] := .start ⟨60, rfl⟩
  have hrequest := hstart.next (System.Step.request (.getSendBufferSize 0) trivial rfl)
  have hstop := hrequest.next (System.Step.stop rfl)
  have hleave := hstop.next (System.Step.loop (Loop.Step.leave nofun))
  have henqueue := hleave.next (System.Step.enqueue (List.nil_append _).symm nofun)
  have hqueue := henqueue.next (System.Step.stopQueue rfl)
  have hwake := hqueue.next (System.Step.stopWake rfl)
  have hcleanup := hwake.next (System.Step.stopCleanup sampleEnvironment rfl
    ⟨List.nodup_nil, fun id => iff_of_false List.not_mem_nil Finmap.notMem_empty⟩ rfl)
  refine ⟨_, _, hcleanup, rfl, ⟨_, List.mem_cons_self, ?_⟩, rfl⟩
  exact List.mem_cons_self

theorem late_send_run : ∃ s past, (clientReactors .workerPool).Run (s :: past) ∧
    s.stopping = .returned ∧ (∃ u ∈ s :: past, 0 ∈ u.promises) ∧ s.reactor.answers = [] := by
  have hstart : (clientReactors .workerPool).Run [_] := .start ⟨∅, rfl⟩
  have hrequest := hstart.next (ClientSystem.Step.request (.sync [1]) (by decide) rfl)
  have hstop := hrequest.next (ClientSystem.Step.stop rfl)
  have hleave := hstop.next (ClientSystem.Step.loop (ClientLoop.Step.leave nofun))
  have henqueue := hleave.next (ClientSystem.Step.enqueue (List.nil_append _).symm nofun)
  have hqueue := henqueue.next (ClientSystem.Step.stopQueue rfl)
  have hwake := hqueue.next (ClientSystem.Step.stopWake rfl)
  have hshutdown := hwake.next (ClientSystem.Step.stopShutdown rfl)
  have hmonitor := hshutdown.next (ClientSystem.Step.stopMonitor rfl rfl)
  have hclose := hmonitor.next (ClientSystem.Step.stopClose rfl)
  refine ⟨_, _, hclose, rfl, ⟨_, List.mem_cons_self, ?_⟩, rfl⟩
  exact List.mem_cons_self

/-- A request that each reactor has accepted is not answered when `Stop` has returned. -/
theorem accepted_request_unanswered :
    (∃ s past, (reactors 0 .workerPool).Run (s :: past) ∧ s.stopping = .returned ∧
      ∃ u ∈ s :: past, ∃ promise ∈ u.promises, promise ∉ s.reactor.answers) ∧
    ∃ s past, (clientReactors .workerPool).Run (s :: past) ∧ s.stopping = .returned ∧
      ∃ u ∈ s :: past, ∃ promise ∈ u.promises, promise ∉ s.reactor.answers := by
  obtain ⟨s, past, hrun, hreturned, ⟨u, hu, hpromise⟩, hnone⟩ := late_query_run
  obtain ⟨s', past', hrun', hreturned', ⟨u', hu', hpromise'⟩, hnone'⟩ := late_send_run
  exact ⟨⟨s, past, hrun, hreturned, u, hu, 0, hpromise, hnone ▸ List.not_mem_nil⟩,
    ⟨s', past', hrun', hreturned', u', hu', 0, hpromise', hnone' ▸ List.not_mem_nil⟩⟩

/-- In such runs a step strands the request. -/
theorem accepted_requests_stranded :
    (∃ states u v, (reactors 0 .workerPool).Run states ∧ [v, u] <:+: states ∧ u.Strands v) ∧
      ∃ states u v, (clientReactors .workerPool).Run states ∧ [v, u] <:+: states ∧
        u.Strands v := by
  constructor
  · obtain ⟨s, past, hrun, hreturned, ⟨u, hu, hpromise⟩, hnone⟩ := late_query_run
    by_contra hgood
    have hall := ((accepted_requests_answered_iff .workerPool).1 0 s past hrun hreturned).mpr
      fun u v huv hstrands => hgood ⟨s :: past, u, v, hrun, huv, hstrands⟩
    have hanswered := hall u hu 0 hpromise
    rw [hnone] at hanswered
    cases hanswered
  · obtain ⟨s, past, hrun, hreturned, ⟨u, hu, hpromise⟩, hnone⟩ := late_send_run
    by_contra hgood
    have hall := ((accepted_requests_answered_iff .workerPool).2 s past hrun hreturned).mpr
      fun u v huv hstrands => hgood ⟨s :: past, u, v, hrun, huv, hstrands⟩
    have hanswered := hall u hu 0 hpromise
    rw [hnone] at hanswered
    cases hanswered

end DarwinCore.Network
