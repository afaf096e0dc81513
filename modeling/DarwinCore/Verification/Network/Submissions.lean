import DarwinCore.Model.Network.ServerEvents
import DarwinCore.Verification.Network.Batches
import DarwinCore.Verification.Network.Lifecycle
import DarwinCore.Verification.Network.Routing

/-! # What a reactor submits

The events that a reactor submits name it. Only its loop submits them, and none of them is broken
off on request as long as nobody asks to remove a connection. -/

namespace DarwinCore.Network

open ConnectionIdGenerator History Maps Relation

/-! ## Submissions -/

namespace Reactor

variable {may : Lapse → Prop} {held : List Operation} {r r' : Reactor} {id : UInt64} {fd : ℤ}
  {conn : ReactorConnection}

theorem submissions_of_log (h : r'.log = r.log) : r'.submissions = r.submissions := by
  rw [submissions, submissions, h]

theorem submissions_of_cons {e : Effect} (hlog : r'.log = e :: r.log) :
    r'.submissions = r.submissions ++ e.submission.toList := by
  rw [submissions, submissions, hlog]
  cases he : e.submission with
  | none => simp [he]
  | some sub => simp [he]

theorem Grows.submissions {P : Effect → Prop} {Q : NetworkEvent × Bool → Prop}
    (hP : ∀ e, P e → ∀ sub ∈ e.submission, Q sub) (h : Grows P r r') :
    ∃ more, r'.submissions = r.submissions ++ more ∧ ∀ sub ∈ more, Q sub := by
  obtain ⟨extra, hlog, hall⟩ := h
  refine ⟨(extra.filterMap Effect.submission).reverse, ?_, fun sub hsub => ?_⟩
  · rw [Reactor.submissions, Reactor.submissions, hlog, List.filterMap_append, List.reverse_append]
  · obtain ⟨e, he, hesub⟩ := List.mem_filterMap.mp (List.mem_reverse.mp hsub)
    exact hP e (hall e he) sub hesub

theorem Grows.submissions_eq {P : Effect → Prop} (hP : ∀ e, P e → e.submission = none)
    (h : Grows P r r') : r'.submissions = r.submissions := by
  obtain ⟨more, hmore, hnone⟩ := h.submissions (Q := fun _ => False) fun e he sub hsub => by
    rw [hP e he] at hsub
    cases hsub
  rw [hmore, List.eq_nil_iff_forall_not_mem.mpr hnone, List.append_nil]

theorem told_eq (r : Reactor) (id : UInt64) :
    r.told id = (r.submissions.map Prod.fst).filter fun event => event.connectionId = id := by
  rw [told, submissions]
  induction r.log with
  | nil => rfl
  | cons e log ih =>
    rw [collect, ih, List.filterMap_cons]
    cases e with
    | dispatched event | refused event =>
      by_cases hid : event.connectionId = id
      · simp [Effect.submission, Effect.submittedFor, hid]
      · simp [Effect.submission, Effect.submittedFor, hid]
    | _ => simp [Effect.submission, Effect.submittedFor]

/-! ## The reactor that an id names -/

/-- The id names reactor `reactorId`, as far as eight bits go. -/
def Names (reactorId : ℤ) (id : UInt64) : Prop :=
  getReactorId id = UInt8.ofInt reactorId

/-- The ids in the table and those of the events are the reactor's own. -/
structure Named (reactorId : ℤ) (r : Reactor) : Prop where
  number : r.reactorId = reactorId
  table : ∀ id ∈ r.connections, Names reactorId id
  submitted : ∀ sub ∈ r.submissions, Names reactorId sub.1.connectionId

theorem Named.grows {reactorId : ℤ} {P : Effect → Prop} (h : r.Named reactorId)
    (hseq : r.SameSeq r') (hmem : ∀ id ∈ r'.connections, Names reactorId id)
    (hgrows : Grows P r r')
    (hP : ∀ e, P e → ∀ sub ∈ e.submission, Names reactorId sub.1.connectionId) :
    r'.Named reactorId := by
  obtain ⟨more, hmore, hall⟩ := hgrows.submissions
    (Q := fun sub => Names reactorId sub.1.connectionId) hP
  refine ⟨hseq.2.trans h.number, hmem, fun sub hsub => ?_⟩
  rw [hmore] at hsub
  exact (List.mem_append.mp hsub).elim (h.submitted sub) (hall sub)

theorem Named.cons {reactorId : ℤ} {e : Effect} (h : r.Named reactorId) (hseq : r.SameSeq r')
    (hconnections : r'.connections = r.connections) (hlog : r'.log = e :: r.log)
    (he : e.submission = none) : r'.Named reactorId := by
  refine h.grows hseq (hconnections ▸ h.table) (P := (· = e)) (.cons hlog rfl) ?_
  rintro _ rfl sub hsub
  rw [he] at hsub
  cases hsub

theorem submission_connectionId {e : Effect} (h : Concerns id fd e ∨ Admits id fd e) :
    ∀ sub ∈ e.submission, sub.1.connectionId = id := by
  cases e with
  | dispatched event | refused event =>
    rintro sub ⟨⟩
    exact h.elim (fun hid => hid) fun hid => hid
  | _ => nofun

theorem ConnMove.named {reactorId : ℤ} (hmove : ConnMove may id fd r r')
    (h : r.Named reactorId) : r'.Named reactorId := by
  obtain ⟨conn, howns⟩ := hmove.owns
  have hid : Names reactorId id := h.table id howns.mem
  refine h.grows hmove.sameSeq (fun i hi => ?_) hmove.grows fun e he sub hsub => ?_
  · by_cases hne : i = id
    · exact hne ▸ hid
    · exact h.table i ((hmove.mem_of_ne hne).mp hi)
  · rw [submission_connectionId (.inl he) sub hsub]
    exact hid

theorem AddCase.named {reactorId : ℤ} {env : Environment} {peer : SockAddr}
    {result : UInt64 × Reactor} (hcase : AddCase env fd peer r result) (h : r.Named reactorId) :
    result.2.Named reactorId := by
  have hdrawn : r.nextSeq.2.Named reactorId := by
    refine ⟨r.nextSeq_reactorId.trans h.number, fun id hid => h.table id ?_, ?_⟩
    · rw [← r.quiet_nextSeq.connections]
      exact hid
    · rw [submissions_of_log r.nextSeq_log]
      exact h.submitted
  have hmonitored : (r.nextSeq.2.monitor env fd .addRead).2.Named reactorId :=
    hdrawn.cons (monitor_sameSeq env fd _ _) (quiet_monitor env fd .addRead _).connections rfl rfl
  cases hcase with
  | ignored => exact h
  | collided => exact hdrawn.cons ⟨rfl, rfl⟩ rfl rfl rfl
  | unmonitored => exact hmonitored.cons ⟨rfl, rfl⟩ rfl rfl rfl
  | @added id hrunning hid =>
    obtain ⟨r₁, hr₁⟩ : ∃ r₁, r₁ = (r.nextSeq.2.monitor env fd .addRead).2 := ⟨_, rfl⟩
    rw [← hr₁] at hmonitored ⊢
    have hnames : Names reactorId id := by
      rw [Names, getReactorId_eq_parse, hid, parse_generate, r.nextSeq_reactorId, h.number]
    have hseq : r₁.SameSeq (r₁.register env id fd peer) :=
      SameSeq.trans ⟨rfl, rfl⟩ (dispatchEvent_sameSeq env _ _)
    obtain ⟨conn, hinsert, -⟩ := register_connections id fd env peer r₁
    refine hmonitored.grows hseq (fun i hi => ?_) (register_grows env peer r₁)
      fun e he sub hsub => ?_
    · rw [hinsert, Finmap.mem_insert] at hi
      exact hi.elim (fun heq => heq ▸ hnames) (hmonitored.table i)
    · rw [submission_connectionId (.inr he) sub hsub]
      exact hnames

theorem Move.named {reactorId : ℤ} (hmove : Move may r r') (h : r.Named reactorId) :
    r'.Named reactorId := by
  cases hmove with
  | idle hidle =>
    refine ⟨hidle.reactorId.trans h.number, hidle.connections ▸ h.table, ?_⟩
    rw [submissions_of_log hidle.log]
    exact h.submitted
  | took => exact h.cons ⟨rfl, rfl⟩ rfl rfl rfl
  | answered => exact h.cons ⟨rfl, rfl⟩ rfl rfl rfl
  | opened => exact h.cons ⟨rfl, rfl⟩ rfl rfl rfl
  | closed => exact h.cons ⟨rfl, rfl⟩ rfl rfl rfl
  | adding env fd peer hpos hopen hfree hcase =>
    refine hcase.named ?_
    exact h.cons ⟨rfl, rfl⟩ rfl rfl rfl
  | removed howns =>
    refine h.grows (doRemoveConnection_sameSeq _ r)
      (fun i hi => h.table i (howns.remove_mem.mp hi).2) howns.remove_grows fun e he sub hsub => ?_
    rw [submission_connectionId (.inl he) sub hsub]
    exact h.table _ howns.mem
  | connection hconn => exact hconn.named h
  | cleaned env =>
    have hseq := closeAllOnly_sameSeq env.order { r with kernel := r.kernel.closeQueue }
    have hgrows := closeAllOnly_grows env.order { r with kernel := r.kernel.closeQueue }
    refine h.grows (SameSeq.trans (SameSeq.trans ⟨rfl, rfl⟩ hseq) ⟨rfl, rfl⟩)
      (fun i hi => absurd hi Finmap.notMem_empty) hgrows fun e he sub hsub => ?_
    obtain ⟨j, c, -, rfl⟩ := he
    cases hsub

end Reactor

theorem reactors_named {reactorId : ℤ} {receiver : Receiver} {states : List System}
    (hrun : (reactors reactorId receiver).Run states) :
    ∀ s ∈ states, s.reactor.Named reactorId := by
  refine reactors_moves (fun timeout => ⟨rfl, fun id hid => ?_, fun sub hsub => ?_⟩)
    (fun r r' h hmove => hmove.named h) hrun
  · exact absurd hid Finmap.notMem_empty
  · cases hsub

/-! ## Steps that submit -/

namespace Reactor

variable {held : List Operation} {r r' : Reactor}

theorem addConnection_submissions (fd : ℤ) (peer : SockAddr) (r : Reactor) :
    (r.addConnection fd peer).2.submissions = r.submissions :=
  submissions_of_log (addConnection_idle fd peer r).log

theorem request_submissions (promise : ℕ) (req : Request) (r : Reactor) :
    (r.request promise req).2.submissions = r.submissions :=
  submissions_of_log (request_idle promise req r).log

theorem cleanupAllConnections_submissions (env : Environment) (r : Reactor) :
    (r.cleanupAllConnections env).submissions = r.submissions := by
  have hgrows := closeAllOnly_grows env.order r
  refine Grows.submissions_eq (fun e he => ?_) hgrows
  obtain ⟨i, c, -, rfl⟩ := he
  rfl

theorem submissions_of_silent {e : Effect} (he : e.submission = none) (hlog : r'.log = e :: r.log) :
    r'.submissions = r.submissions := by
  rw [submissions_of_cons hlog, he]
  exact List.append_nil _

end Reactor

/-- Only the loop submits events, and only where it goes on. -/
theorem System.Step.submits {s t : System} (hstep : System.Step s t) :
    t.reactor.submissions = s.reactor.submissions ∨ t.loop ≠ s.loop ∧ t.loop ≠ .exited := by
  cases hstep with
  | @accept op r fd peer hfd hfresh hadd =>
    have hsame := Reactor.addConnection_submissions fd peer (s.reactor.accept fd)
    rw [hadd] at hsame
    exact .inl (hsame.trans (Reactor.submissions_of_silent (e := .opened fd) rfl rfl))
  | @acceptRejected r fd peer hfd hfresh hadd =>
    have hsame := Reactor.addConnection_submissions fd peer (s.reactor.accept fd)
    rw [hadd] at hsame
    have hclosed : (r.closeFd fd).submissions = r.submissions :=
      Reactor.submissions_of_silent (e := .closed fd) rfl rfl
    exact .inl (hclosed.trans (hsame.trans
      (Reactor.submissions_of_silent (e := .opened fd) rfl rfl)))
  | addInvalid fd peer hfd hadd =>
    have hsame := Reactor.addConnection_submissions fd peer s.reactor
    rw [hadd] at hsame
    exact .inl hsame
  | request req hsized hreq | requestRejected req hsized hreq =>
    have hsame := Reactor.request_submissions s.nextPromise req s.reactor
    rw [hreq] at hsame
    exact .inl hsame
  | @enqueueRejected op before after hcallers hqueue =>
    cases op with
    | add fd peer => exact .inl (Reactor.submissions_of_silent (e := .closed fd) rfl rfl)
    | remove | send | getSendBufferSize => exact .inl (Reactor.submissions_of_log rfl)
  | loop hloop =>
    obtain ⟨reactor, callers, loop, stopping, promise⟩ := s
    cases hloop with
    | process env hbatch hqueue hprocess => exact .inr ⟨by simp, by simp⟩
    | due env => exact .inr ⟨by simp, by simp⟩
    | handle env => exact .inr ⟨by simp, by simp⟩
    | drained => exact .inl (Reactor.submissions_of_log rfl)
    | woken events =>
      dsimp only
      split <;> exact .inl (Reactor.submissions_of_log rfl)
    | _ => exact .inl rfl
  | stopCleanup env =>
    exact .inl ((Reactor.cleanupAllConnections_submissions env _).trans
      (Reactor.submissions_of_log rfl))
  | _ => exact .inl (Reactor.submissions_of_log rfl)

/-! ## Runs without requests to remove -/

/-- No request to remove a connection is on its way. -/
structure System.Keeps (s : System) : Prop where
  callers : ∀ id, Caller.enqueueing (.remove id) ∉ s.callers
  queue : ∀ id, Operation.remove id ∉ s.reactor.pendingOperations

theorem System.Keeps.not_removes {s t : System} (h : s.Keeps) : ¬s.RemovesSilently t := by
  rintro ⟨env, id, ⟨which, processed, rest, -, -, hqueue, -⟩, -⟩
  refine h.queue id ?_
  rw [hqueue]
  exact List.mem_cons_self

/-- What is in the queue after a step was there before, or a thread was about to put it there. -/
theorem System.Step.queued {s t : System} (hstep : System.Step s t) (h : s.AtRest)
    {op : Operation} (hop : op ∈ t.reactor.pendingOperations) :
    op ∈ s.reactor.pendingOperations ∨ Caller.enqueueing op ∈ s.callers := by
  have hsame {r : Reactor} (hcontrol : s.reactor.SameControl r) (hmem : op ∈ r.pendingOperations) :
      op ∈ s.reactor.pendingOperations := by
    rwa [hcontrol.queue] at hmem
  cases hstep with
  | @accept op' r fd peer hfd hfresh hadd =>
    have hcontrol := Reactor.addConnection_sameControl fd peer (s.reactor.accept fd)
    rw [hadd] at hcontrol
    exact .inl (hsame ((Reactor.accept_sameControl fd s.reactor).trans hcontrol) hop)
  | @acceptRejected r fd peer hfd hfresh hadd =>
    have hcontrol := Reactor.addConnection_sameControl fd peer (s.reactor.accept fd)
    rw [hadd] at hcontrol
    exact .inl (hsame ((Reactor.accept_sameControl fd s.reactor).trans hcontrol) hop)
  | @addInvalid r fd peer hfd hadd =>
    have hcontrol := Reactor.addConnection_sameControl fd peer s.reactor
    rw [hadd] at hcontrol
    exact .inl (hsame hcontrol hop)
  | request req hsized hreq | requestRejected req hsized hreq =>
    have hcontrol := Reactor.request_sameControl s.nextPromise req s.reactor
    rw [hreq] at hcontrol
    exact .inl (hsame hcontrol hop)
  | @enqueue op' before after hcallers hqueue =>
    rcases List.mem_append.mp hop with hold | hnew
    · exact .inl hold
    · refine .inr ?_
      rw [List.mem_singleton.mp hnew, hcallers]
      exact List.mem_append_right _ List.mem_cons_self
  | @enqueueRejected op' before after hcallers hqueue =>
    exact .inl (hsame (Reactor.reject_sameControl op' s.reactor) hop)
  | @loop r loop hloop =>
    refine .inl ?_
    obtain ⟨reactor, callers, place, stopping, promise⟩ := s
    cases hloop with
    | process env hbatch hqueue hprocess =>
      have hcontrol := Reactor.AtRest.processOperation_sameControl env h hqueue hprocess
      have hrest := hcontrol.queue ▸ hop
      rw [hqueue]
      exact List.mem_cons_of_mem _ hrest
    | due env => exact hsame (Reactor.checkTimeouts_sameControl env _) hop
    | woken events =>
      dsimp only at hop
      split at hop <;> exact hop
    | handle env =>
      dsimp only at hop
      split at hop
      · exact hop
      · exact hsame (Reactor.AtRest.processKqueueEvent_sameControl env _ h) hop
    | _ => exact hop
  | stopCleanup env =>
    have hcontrol := Reactor.cleanupAllConnections_sameControl env
      { s.reactor with kernel := s.reactor.kernel.closeQueue }
    exact .inl (hcontrol.queue ▸ hop)
  | _ => exact .inl hop

/-- As long as nobody asks for it, no connection is removed on request. -/
theorem System.Keeps.next {s t : System} (h : s.Keeps) (hstep : System.Step s t) (hrest : s.AtRest)
    (hcallers : ∀ id, Caller.enqueueing (.remove id) ∉ t.callers) : t.Keeps where
  callers := hcallers
  queue id hid := (hstep.queued hrest hid).elim (h.queue id) (h.callers id)

end DarwinCore.Network
