import DarwinCore.Verification.Network.Control
import DarwinCore.Verification.Network.Frame

/-! # Stale events

Operations that add a connection wait in the queue while a batch of events is handled. Whoever
owns a descriptor then has owned it since the batch was fetched, however often descriptors are
closed and handed out again meanwhile. -/

namespace DarwinCore.Network

open Relation

namespace Reactor

/-- Since `r` no connection has been added, and what is still in the table of `r'` has been
there, on the same socket. -/
def Inherits (r r' : Reactor) : Prop :=
  ∃ extra, r'.log = extra ++ r.log ∧ (∀ i fd, .added i fd ∉ extra) ∧
    ∀ i c', r'.connections.lookup i = some c' → .closed c'.fileDescriptor ∉ extra ∧
      ∃ c, r.connections.lookup i = some c ∧ c.fileDescriptor = c'.fileDescriptor

variable {may : Lapse → Prop} {held : List Operation} {r r' r'' : Reactor} {id : UInt64} {fd : ℤ}
  {conn : ReactorConnection}

theorem Inherits.refl (r : Reactor) : r.Inherits r :=
  ⟨[], rfl, by simp, fun _ c hc => ⟨by simp, c, hc, rfl⟩⟩

theorem Inherits.trans (h : r.Inherits r') (h' : r'.Inherits r'') : r.Inherits r'' := by
  obtain ⟨extra, hlog, hadded, hstays⟩ := h
  obtain ⟨extra', hlog', hadded', hstays'⟩ := h'
  refine ⟨extra' ++ extra, by rw [hlog', hlog, List.append_assoc], fun i fd hmem => ?_,
    fun i c'' hc'' => ?_⟩
  · rcases List.mem_append.mp hmem with hmem | hmem
    · exact hadded' i fd hmem
    · exact hadded i fd hmem
  · obtain ⟨hopen', c', hc', hfd'⟩ := hstays' i c'' hc''
    obtain ⟨hopen, c, hc, hfd⟩ := hstays i c' hc'
    rw [hfd'] at hopen hfd
    exact ⟨fun hmem => (List.mem_append.mp hmem).elim hopen' hopen, c, hc, hfd⟩

theorem Inherits.of_grows (hconnections : r'.connections = r.connections)
    (hgrows : Grows (fun e => (∀ i fd, e ≠ .added i fd) ∧ ∀ fd, ¬r.Unowned fd → e ≠ .closed fd)
      r r') : r.Inherits r' := by
  obtain ⟨extra, hlog, hall⟩ := hgrows
  refine ⟨extra, hlog, fun i fd hmem => (hall _ hmem).1 i fd rfl, fun i c hc => ?_⟩
  rw [hconnections] at hc
  refine ⟨fun hmem => (hall _ hmem).2 _ ?_ rfl, c, hc, rfl⟩
  exact fun hfree => hfree i c hc rfl

theorem Idle.inherits (h : r.Idle r') : r.Inherits r' :=
  .of_grows h.connections (.of_eq h.log)

theorem accept_inherits (fd : ℤ) (r : Reactor) : r.Inherits (r.accept fd) :=
  .of_grows rfl (.cons rfl ⟨by simp, by simp⟩)

theorem closeFd_inherits (hfree : r.Unowned fd) : r.Inherits (r.closeFd fd) := by
  refine .of_grows rfl (.cons rfl ⟨by simp, fun fd' howned heq => howned ?_⟩)
  obtain rfl := Effect.closed.inj heq
  exact hfree

theorem reject_inherits {op : Operation} (h : r.Tables (op :: held)) :
    r.Inherits (r.reject op) := by
  cases op with
  | add fd peer =>
    obtain ⟨-, -, hfree⟩ := h.unowned
    refine Inherits.trans (Idle.inherits (.counted rfl rfl rfl)) (closeFd_inherits hfree)
  | remove id => exact Idle.inherits (.counted rfl rfl rfl)
  | send id data => exact Idle.inherits (.counted rfl rfl rfl)
  | getSendBufferSize id promise => exact .refl r

theorem ConnMove.inherits (h : ConnMove may id fd r r') (hseparate : r.Separate) :
    r.Inherits r' := by
  have hnotAdded : ∀ e, Concerns id fd e → ∀ i x, e ≠ .added i x := by
    rintro e he i x rfl
    exact he
  rcases h.leaves_or_stays hseparate with hleft | ⟨conn, conn', howns, howns', hgrows⟩
  · obtain ⟨extra, hlog, hall⟩ := h.grows
    refine ⟨extra, hlog, fun i x hmem => hnotAdded _ (hall _ hmem) i x rfl, fun i c hc => ?_⟩
    refine ⟨fun hmem => hleft i c hc (hall _ hmem), c, ?_, rfl⟩
    exact (h.away.connections i c (hleft i c hc)).mp hc
  · obtain ⟨extra, hlog, hall⟩ := hgrows
    refine ⟨extra, hlog, fun i x hmem => hnotAdded _ (hall _ hmem).1 i x rfl, fun i c hc => ?_⟩
    by_cases hon : c.fileDescriptor = fd
    · rw [howns'.only (h.separate hseparate) hc hon, hon]
      exact ⟨fun hmem => (hall _ hmem).2 rfl, conn, howns.lookup, howns.descriptor⟩
    · exact ⟨fun hmem => hon (hall _ hmem).1, c, (h.away.connections i c hon).mp hc, rfl⟩

theorem ConnMoves.separate (h : ConnMoves may id fd r r') (hseparate : r.Separate) :
    r'.Separate := by
  induction h with
  | refl => exact hseparate
  | tail _ hmove ih => exact hmove.separate ih

theorem ConnMoves.inherits (h : ConnMoves may id fd r r') (hseparate : r.Separate) :
    r.Inherits r' := by
  induction h with
  | refl => exact .refl r
  | tail hmoves hmove ih => exact ih.trans (hmove.inherits (ConnMoves.separate hmoves hseparate))

/-- `r'` is `r` with the connection `id` on `fd` changed or removed. -/
structure Applied (id : UInt64) (fd : ℤ) (r r' : Reactor) : Prop where
  others : ∀ i, i ≠ id → r'.connections.lookup i = r.connections.lookup i
  away : Away fd r r'
  grows : Grows (Concerns id fd) r r'

theorem ConnMove.others (h : ConnMove may id fd r r') (hseparate : r.Separate) {i : UInt64}
    (hne : i ≠ id) : r'.connections.lookup i = r.connections.lookup i := by
  obtain ⟨conn, howns⟩ := h.owns
  have hoff : ∀ c, r'.connections.lookup i = some c → c.fileDescriptor ≠ fd := by
    intro c hc hon
    rcases h.leaves_or_stays hseparate with hleft | ⟨-, conn', -, howns', -⟩
    · exact hleft i c hc hon
    · exact hne (howns'.only (h.separate hseparate) hc hon)
  apply Option.ext
  intro c
  constructor
  · intro hc
    exact (h.away.connections i c (hoff c hc)).mp hc
  · intro hc
    exact (h.away.connections i c fun hon => hne (howns.only hseparate hc hon)).mpr hc

theorem ConnMoves.applied (h : ConnMoves may id fd r r') (hseparate : r.Separate) :
    Applied id fd r r' := by
  refine ⟨fun i hne => ?_, h.away, h.grows⟩
  induction h with
  | refl => rfl
  | tail hmoves hmove ih =>
    exact (hmove.others (ConnMoves.separate hmoves hseparate) hne).trans ih

/-- An event is ignored, or it is applied to the connection that owns its descriptor. -/
theorem Tables.applied (h : r.Tables held) (env : Environment) (event : KEvent) :
    r.processKqueueEvent env event = r ∨ ∃ id conn, r.Owns id event.ident conn ∧
      ConnMoves (fun _ => True) id event.ident r (r.processKqueueEvent env event) :=
  (h.processKqueueEvent_cases env event).connMoves fun _ => trivial

end Reactor

/-! ## Runs -/

theorem Loop.Step.inherits {held : List Operation} {state state' : Reactor × Loop}
    (hstep : Loop.Step state state') (h : state.1.AtRest held)
    (hs : state.2 = .waiting ∨ ∃ events, state.2 = .handling events)
    (ht : ∃ events, state'.2 = .handling events) : state.1.Inherits state'.1 := by
  cases hstep with
  | woken batch =>
    dsimp only
    split
    · exact .of_grows rfl (.of_eq rfl)
    · exact .refl _
  | @handle _ env event =>
    dsimp only
    split
    · exact .refl _
    · rcases h.tables.applied env event with hsame | ⟨id, conn, -, hmoves⟩
      · rw [hsame]
        exact .refl _
      · exact Reactor.ConnMoves.inherits hmoves h.tables.separate
  | _ => simp_all

/-- While events are handled, no connection is added. -/
theorem System.Step.inherits {s t : System} (hstep : System.Step s t) (h : s.AtRest)
    (hs : s.loop = .waiting ∨ ∃ events, s.loop = .handling events)
    (ht : ∃ events, t.loop = .handling events) : s.reactor.Inherits t.reactor := by
  unfold System.AtRest System.held at h
  cases hstep with
  | accept fd peer hfd hfresh hadd =>
    have hidle := Reactor.addConnection_idle fd peer (s.reactor.accept fd)
    rw [hadd] at hidle
    exact (Reactor.accept_inherits fd _).trans hidle.inherits
  | acceptRejected fd peer hfd hfresh hadd =>
    have hidle := Reactor.addConnection_idle fd peer (s.reactor.accept fd)
    rw [hadd] at hidle
    obtain ⟨-, -, hfree⟩ := (h.accept hfd hfresh peer).tables.unowned
    refine ((Reactor.accept_inherits fd _).trans hidle.inherits).trans ?_
    apply Reactor.closeFd_inherits
    rw [Reactor.Unowned, hidle.connections]
    exact hfree
  | addInvalid fd peer hfd hadd =>
    have hidle := Reactor.addConnection_idle fd peer s.reactor
    rw [hadd] at hidle
    exact hidle.inherits
  | request req hsized hreq =>
    have hidle := Reactor.request_idle s.nextPromise req s.reactor
    rw [hreq] at hidle
    exact hidle.inherits
  | requestRejected req hsized hreq =>
    have hidle := Reactor.request_idle s.nextPromise req s.reactor
    rw [hreq] at hidle
    exact hidle.inherits
  | @enqueueRejected op before after hcallers =>
    rw [hcallers] at h
    have hperm := (held_caller before after op).append_right s.reactor.pendingOperations
    exact Reactor.reject_inherits (h.tables.transfer rfl rfl rfl hperm)
  | loop hloop => exact hloop.inherits h hs ht
  | stopCleanup env hjoined =>
    rw [hjoined] at hs
    simp at hs
  | _ => exact .of_grows rfl (.of_eq rfl)

theorem System.Step.handles {s t : System} (hstep : System.Step s t) {event : KEvent}
    {rest : List KEvent} (hs : s.loop = .handling (event :: rest)) (ht : t.loop = .handling rest) :
    ∃ env, t.reactor =
      if event.isWakeup then s.reactor else s.reactor.processKqueueEvent env event := by
  have hmoved : t.loop ≠ s.loop := by simp [hs, ht]
  cases hstep with
  | loop hloop =>
    rw [hs] at hloop
    cases hloop with
    | handle env => exact ⟨env, rfl⟩
  | _ => exact absurd rfl hmoved

/-- In every run, whatever free descriptors the acceptor is given, an event of a batch is
ignored, or it is applied to the connection that owned its descriptor when the batch was
fetched: no connection has been added since, and that socket has not been closed. -/
theorem batch_event_owner {reactorId : ℤ} {receiver : Receiver} {states : List System}
    (hrun : (reactors reactorId receiver).Run states) {fetched s t : System}
    (between : List System) (hsegment : t :: s :: between ++ [fetched] <:+: states)
    (hfetched : fetched.loop = .waiting)
    (hbatch : ∀ u ∈ s :: between, ∃ events, u.loop = .handling events) {event : KEvent}
    {rest : List KEvent} (hs : s.loop = .handling (event :: rest)) (ht : t.loop = .handling rest) :
    t.reactor = s.reactor ∨ ∃ id conn conn' extra,
      fetched.reactor.Owns id event.ident conn ∧ s.reactor.Owns id event.ident conn' ∧
      s.reactor.log = extra ++ fetched.reactor.log ∧ (∀ i fd, .added i fd ∉ extra) ∧
      .closed event.ident ∉ extra ∧ Reactor.Applied id event.ident s.reactor t.reactor := by
  have hrest := reactors_atRest hrun
  have hlast : [t, s] <:+: t :: s :: between ++ [fetched] :=
    (List.prefix_append [t, s] _).isInfix
  have hbefore : s :: between ++ [fetched] <:+: states :=
    (List.infix_cons List.infix_rfl).trans hsegment
  have hpath : ReflTransGen (fun u v : System => u.reactor.Inherits v.reactor) fetched s := by
    refine hrun.path hbefore fun u v hu hv hmem hstep => ?_
    have hloop : u.loop = .waiting ∨ ∃ events, u.loop = .handling events := by
      rcases hu with rfl | hu
      · exact .inl hfetched
      · exact .inr (hbatch u hu)
    exact System.Step.inherits hstep (hrest u hmem) hloop (hbatch v hv)
  have hinherits : fetched.reactor.Inherits s.reactor :=
    hpath.rec (.refl _) fun _ hstep ih => ih.trans hstep
  obtain ⟨env, hhandled⟩ := System.Step.handles (hrun.step_of_infix (hlast.trans hsegment)) hs ht
  rw [hhandled]
  split
  · exact .inl rfl
  · have htables := (hrest s (hbefore.mem (by simp))).tables
    rcases htables.applied env event with hsame | ⟨id, conn', howns', hmoves⟩
    · exact .inl hsame
    · obtain ⟨extra, hlog, hadded, hstays⟩ := hinherits
      obtain ⟨hopen, conn, hc, hfd⟩ := hstays id conn' howns'.lookup
      rw [howns'.descriptor] at hopen hfd
      have howns : fetched.reactor.Owns id event.ident conn :=
        hfd ▸ (hrest fetched (hbefore.mem (by simp))).tables.owns hc
      exact .inr ⟨id, conn, conn', extra, howns, howns', hlog, hadded, hopen,
        Reactor.ConnMoves.applied hmoves htables.separate⟩

/-- The connection on descriptor 5 ends, and more is said to have arrived on it. -/
def sampleBatch : List KEvent :=
  [{ ident := 5, filter := .read, eof := true }, { ident := 5, filter := .read }]

/-- The first event of the batch has been handled. -/
def sampleEnded : Option Reactor :=
  sampleSent.map fun r =>
    (r.count fun s => { s with totalOpsProcessed := s.totalOpsProcessed + 2 }).processKqueueEvent
      sampleEnvironment { ident := 5, filter := .read, eof := true }

/-- Descriptor 5 is handed out again before the second event of the batch, which is then
ignored. -/
theorem batch_event_owner_reused : ∃ states fetched s t between,
    (reactors 0 .workerPool).Run states ∧ t :: s :: between ++ [fetched] <:+: states ∧
      fetched.loop = .waiting ∧ s.loop = .handling [{ ident := 5, filter := .read }] ∧
      t.loop = .handling [] ∧ .enqueueing (.add 5 ⟨[]⟩) ∈ s.callers ∧
      t.reactor = s.reactor := by
  obtain ⟨s, past, hrun, hsent, -, hloop⟩ := sample_run
  have hqueue : sampleSent.map Reactor.pendingOperations = some [] := by decide +kernel
  have hended : sampleEnded.map (fun r => (r.isRunning, decide (5 ∈ r.kernel.openFds),
      r.connections.keys.card)) = some (true, false, 0) := by decide +kernel
  simp only [sampleEnded, hsent, Option.map_some, Option.some.injEq, Prod.mk.injEq,
    decide_eq_false_iff_not] at hqueue hended
  obtain ⟨hrunning, hfresh, hempty⟩ := hended
  obtain ⟨reactor, callers, loop, stopping, nextPromise⟩ := s
  dsimp only at hqueue hloop hrunning hfresh hempty
  subst hloop
  have hdrained := hrun.next (System.Step.loop (Loop.Step.drained (.inr hqueue)))
  have hfetched := hdrained.next (System.Step.loop Loop.Step.notDue)
  have hwoken := hfetched.next (System.Step.loop (Loop.Step.woken sampleBatch (by decide)))
  have hended := hwoken.next (System.Step.loop (Loop.Step.handle sampleEnvironment))
  have haccept := hended.next (System.Step.accept 5 ⟨[]⟩ (by decide) hfresh
    (if_neg (not_or.mpr ⟨by decide, not_not.mpr hrunning⟩)))
  have hhandled := haccept.next (System.Step.loop (Loop.Step.handle sampleEnvironment))
  refine ⟨_, _, _, _, [_, _], hhandled, ⟨[], _, rfl⟩, rfl, rfl, rfl, List.mem_cons_self, ?_⟩
  have howner := batch_event_owner hhandled [_, _] ⟨[], _, rfl⟩ rfl (by simp) rfl rfl
  rcases howner with hsame | ⟨id, conn, conn', extra, -, howns, -⟩
  · exact hsame
  · have hmem := Finmap.mem_keys.mpr (Finmap.mem_of_lookup_eq_some howns.lookup)
    exact absurd hempty (Nat.ne_of_gt (Finset.card_pos.mpr ⟨id, hmem⟩))

end DarwinCore.Network
