import DarwinCore.Verification.Network.ClientBuffer
import DarwinCore.Verification.Network.ClientControl

/-! # Through the send buffer

In every run of a client reactor, what has been put into the send buffer is what has been handed
to the kernel, followed by what is in the buffer. -/

namespace DarwinCore.Network

/-- The operation that `DoSend` has handled and that has not been completed, with the result. -/
def ClientLoop.outcome : ClientLoop → Option (SendOperation × Bool)
  | completing _ op success => some (op, success)
  | removing _ next => next.outcome
  | _ => none

@[simp] theorem ClientLoop.after_outcome (removes : Bool) (next : ClientLoop) :
    (after removes next).outcome = next.outcome := by
  cases removes <;> rfl

@[simp] theorem ClientReactor.Reaction.next_outcome (events : List KEvent) (reaction : Reaction) :
    (reaction.next events).outcome = none := by
  cases reaction <;> rfl

namespace ClientSystem

open ClientReactor

/-! ## What is put into the send buffer -/

/-- What a step puts into the send buffer, each byte with the descriptor of the connection. -/
def buffers (s t : ClientSystem) : List (ℤ × UInt8) :=
  match s.loop, t.loop.outcome with
  | .draining _, some (op, true) => op.data.map (Prod.mk s.reactor.connection.fileDescriptor)
  | _, _ => []

variable {s t : ClientSystem} {op : SendOperation}

theorem buffers_none (h : t.loop.outcome = none) : s.buffers t = [] := by
  rw [buffers, h]
  cases s.loop <;> rfl

theorem buffers_same (h : t.loop = s.loop) : s.buffers t = [] := by
  rw [buffers, h]
  cases s.loop <;> rfl

/-- The operations that have been requested have data that fits into memory. -/
structure Sound (s : ClientSystem) : Prop where
  buffer : s.reactor.connection.sendBuffer.Valid
  queue : ∀ op ∈ s.reactor.sendOperations, op.data.length < 2 ^ 63
  callers : ∀ op, .enqueueing op ∈ s.callers → op.data.length < 2 ^ 63

structure Puts (s t : ClientSystem) (op : SendOperation) : Prop where
  sent : ∃ processed env rest removes, s.loop = .draining processed ∧
    s.reactor.sendOperations = op :: rest ∧
    (s.reactor.dequeue op rest).doSend env op.data = some (true, removes, t.reactor) ∧
    t.loop = .after removes (.completing (processed + 1) op true)

theorem Puts.outcome (h : s.Puts t op) : t.loop.outcome = some (op, true) := by
  obtain ⟨processed, env, rest, removes, -, -, -, hloop⟩ := h.sent
  rw [hloop, ClientLoop.after_outcome, ClientLoop.outcome]

theorem Puts.buffers (h : s.Puts t op) :
    s.buffers t = op.data.map (Prod.mk s.reactor.connection.fileDescriptor) := by
  obtain ⟨processed, env, rest, removes, hs, -, -, -⟩ := h.sent
  rw [ClientSystem.buffers, hs, h.outcome]

inductive BufferCase (s t : ClientSystem) : Prop where
  | puts (op : SendOperation) (h : s.Puts t op)
  | refuses (hbuffers : s.buffers t = []) (hvalid : t.reactor.connection.sendBuffer.Valid)
      (hunsent : t.reactor.unsent = s.reactor.unsent)
      (hhanded : t.reactor.handed = s.reactor.handed)
      (houtcome : ∀ op, t.loop.outcome ≠ some (op, true))
  | flushes (hpasses : Passes s.reactor.connection.fileDescriptor [] s.reactor t.reactor)
      (hidle : s.reactor.hasConnection = false → s.reactor.SameBuffer t.reactor)
      (houtcome : t.loop.outcome = none)
  | keeps (hsame : s.reactor.SameBuffer t.reactor)
      (houtcome : t.loop.outcome = none ∨ t.loop.outcome = s.loop.outcome ∧ s.buffers t = [])

end ClientSystem

open ClientReactor ClientSystem

theorem ClientLoop.Step.buffer {s : ClientSystem} {r : ClientReactor} {loop : ClientLoop}
    (hstep : ClientLoop.Step (s.reactor, s.loop) (r, loop)) (h : s.Sound) :
    s.BufferCase { s with reactor := r, loop := loop } := by
  obtain ⟨reactor, callers, owners, before, stopping, nextPromise⟩ := s
  have hsame (hr : r = reactor) (hnone : loop.outcome = none) :
      BufferCase ⟨reactor, callers, owners, before, stopping, nextPromise⟩
        ⟨r, callers, owners, loop, stopping, nextPromise⟩ :=
    .keeps (hr ▸ .refl reactor) (.inl hnone)
  cases hstep with
  | enter h => exact hsame rfl rfl
  | leave h => exact hsame rfl rfl
  | @process _ _ processed env op rest success removes hbatch hqueue hdo =>
    have hsized : op.data.length < 2 ^ 63 := h.queue op (hqueue ▸ List.mem_cons_self)
    cases success with
    | true => exact .puts op ⟨processed, env, rest, removes, rfl, hqueue, hdo, rfl⟩
    | false =>
      have hrefused : (after removes (completing (processed + 1) op false)).outcome =
          some (op, false) := by rw [after_outcome, outcome]
      have hcase := doSend_cases (r := reactor.dequeue op rest) env h.buffer hsized hdo
      cases hcase with
      | refused hvalid hunsent hhanded =>
        refine .refuses ?_ hvalid hunsent (hhanded.trans ?_) ?_
        · rw [ClientSystem.buffers, hrefused]
        · exact List.append_nil _
        · intro op'
          rw [hrefused]
          simp
  | @complete _ processed op success =>
    exact .keeps (complete_sameBuffer op success reactor) (.inl rfl)
  | drained h => exact hsame rfl (by split <;> rfl)
  | flush env =>
    exact .flushes (trySendDirect_passes env h.buffer) (trySendDirect_unconnected env)
      (by simp [outcome])
  | interrupted => exact hsame rfl rfl
  | failed => exact hsame rfl rfl
  | woken events hevents =>
    refine .keeps ?_ (.inl rfl)
    split
    · exact ⟨rfl, rfl⟩
    · exact .refl _
  | handle env hevent =>
    exact .flushes (processKqueueEvent_passes env _ h.buffer)
      (processKqueueEvent_unconnected env _) (by simp)
  | skip h => exact hsame rfl rfl
  | handled => exact hsame rfl rfl
  | receive env outcome => exact .keeps (receive_sameBuffer env _ _ _) (.inl (by simp))
  | @remove _ _ env removal following next hremove =>
    have hremoved := removeConnection_sameBuffer env removal reactor
    rw [hremove] at hremoved
    have hnext : (following.elim next (removing · next)).outcome = next.outcome := by
      cases following <;> rfl
    refine .keeps hremoved (.inr ⟨hnext, ?_⟩)
    rw [ClientSystem.buffers]

theorem ClientSystem.Step.buffer {s t : ClientSystem} (hstep : ClientSystem.Step s t)
    (h : s.Sound) : s.BufferCase t := by
  have hkeeps {t : ClientSystem} (hsame : s.reactor.SameBuffer t.reactor)
      (hloop : t.loop = s.loop) : s.BufferCase t :=
    .keeps hsame (.inr ⟨congrArg ClientLoop.outcome hloop, buffers_same hloop⟩)
  cases hstep with
  | request req hsized hrequest => exact hkeeps (.refl _) rfl
  | enqueue hcallers hqueue => exact hkeeps ⟨rfl, rfl⟩ rfl
  | enqueueRejected hcallers hqueue => exact hkeeps (.refl _) rfl
  | wake hcallers => exact hkeeps ⟨rfl, rfl⟩ rfl
  | setConnection fd peer => exact hkeeps (.refl _) rfl
  | setting env howners => exact hkeeps (setConnection_sameBuffer env _ _ _ _) rfl
  | setConnectionReturned howners => exact hkeeps (.refl _) rfl
  | removeConnection => exact hkeeps (.refl _) rfl
  | removing env howners => exact hkeeps (removeConnection_sameBuffer env _ _) rfl
  | loop hloop => exact hloop.buffer h
  | stop hrunning => exact hkeeps ⟨rfl, rfl⟩ rfl
  | stopQueue hstopping => exact hkeeps ⟨rfl, rfl⟩ rfl
  | stopWake hstopping => exact hkeeps ⟨rfl, rfl⟩ rfl
  | stopShutdown hstopping => exact hkeeps (shutdownConnection_sameBuffer _) rfl
  | stopMonitor hjoined hstopping => exact hkeeps ⟨rfl, rfl⟩ rfl
  | stopClose hstopping => exact hkeeps (closeConnection_sameBuffer _) rfl

/-! ## Requests -/

/-- The loop takes operations from the front of the queue only. -/
theorem ClientLoop.Step.queue {r r' : ClientReactor} {loop loop' : ClientLoop}
    (hstep : ClientLoop.Step (r, loop) (r', loop')) : r'.sendOperations <:+ r.sendOperations := by
  have hsame {r' : ClientReactor} (h : r'.sendOperations = r.sendOperations) :
      r'.sendOperations <:+ r.sendOperations :=
    ⟨[], h⟩
  cases hstep with
  | enter h => exact hsame rfl
  | leave h => exact hsame rfl
  | @process _ _ _ env op rest _ _ hbatch hqueue hdo =>
    have hrest : r'.sendOperations = rest := (doSend_sameControl env hdo).queue
    rw [hrest, hqueue]
    exact List.suffix_cons op rest
  | complete => exact hsame (complete_sameControl _ _ r).queue
  | drained h => exact hsame rfl
  | flush env => exact hsame (trySendDirect_sameControl env r).queue
  | interrupted => exact hsame rfl
  | failed => exact hsame rfl
  | woken events hevents => exact hsame (by split <;> rfl)
  | handle env hevent => exact hsame (processKqueueEvent_sameControl env _ r).queue
  | skip h => exact hsame rfl
  | handled => exact hsame rfl
  | receive env outcome => exact hsame (receive_sameControl env _ _ r).queue
  | @remove _ _ env removal _ _ hremove =>
    have hremoved := removeConnection_sameControl env removal r
    rw [hremove] at hremoved
    exact hsame hremoved.queue

theorem ClientReactor.request_data {r : ClientReactor} {promise : ℕ} {req : SendRequest}
    {op : SendOperation} (h : r.request promise req = some op) : op.data = req.data := by
  cases req <;>
  · simp only [request, sendAsync, sendSync, sendAsyncWithCallback, requestSend,
      Option.ite_none_left_eq_some] at h
    obtain ⟨-, heq⟩ := h
    rw [← Option.some.inj heq]
    rfl

theorem ClientSystem.Puts.passes {s t : ClientSystem} {op : SendOperation} (h : s.Puts t op)
    (hs : s.Sound) :
    Passes s.reactor.connection.fileDescriptor op.data s.reactor t.reactor := by
  obtain ⟨processed, env, rest, removes, -, hqueue, hdo, -⟩ := h.sent
  have hsized : op.data.length < 2 ^ 63 := hs.queue op (hqueue ▸ List.mem_cons_self)
  obtain ⟨hvalid, took, hunsent, hhanded⟩ :=
    doSend_passes (r := s.reactor.dequeue op rest) env hs.buffer hsized hdo
  rw [if_pos rfl] at hunsent
  refine ⟨hvalid, took, hunsent, hhanded.trans ?_⟩
  exact congrArg (· ++ _) (List.append_nil _)

theorem ClientSystem.Puts.connected {s t : ClientSystem} {op : SendOperation}
    (h : s.Puts t op) : s.reactor.hasConnection = true := by
  obtain ⟨processed, env, rest, removes, -, -, hdo, -⟩ := h.sent
  by_contra hnone
  have hdequeued : ¬(s.reactor.dequeue op rest).hasConnection = true := hnone
  rw [doSend, if_pos hdequeued] at hdo
  cases hdo

namespace ClientSystem.BufferCase

variable {s t : ClientSystem}

theorem passes (h : s.BufferCase t) (hs : s.Sound) :
    Passes s.reactor.connection.fileDescriptor ((s.buffers t).map Prod.snd) s.reactor
      t.reactor := by
  cases h with
  | puts op h =>
    have hbytes : (s.buffers t).map Prod.snd = op.data := by simp [h.buffers]
    exact hbytes ▸ h.passes hs
  | refuses hbuffers hvalid hunsent hhanded houtcome =>
    refine ⟨hvalid, [], ?_, ?_⟩
    · rw [hbuffers, hunsent, List.map_nil, List.append_nil, List.nil_append]
    · rw [hhanded, List.map_nil, List.append_nil]
  | flushes hpasses hidle houtcome =>
    rw [buffers_none houtcome]
    exact hpasses
  | keeps hsame houtcome =>
    have hnone : s.buffers t = [] := houtcome.elim buffers_none And.right
    rw [hnone]
    exact hsame.passes hs.buffer _

theorem unconnected (h : s.BufferCase t) (hnone : s.reactor.hasConnection = false) :
    s.buffers t = [] ∧ t.reactor.handed = s.reactor.handed := by
  cases h with
  | puts op h => exact absurd h.connected (by simp [hnone])
  | refuses hbuffers hvalid hunsent hhanded houtcome => exact ⟨hbuffers, hhanded⟩
  | flushes hpasses hidle houtcome => exact ⟨buffers_none houtcome, (hidle hnone).handed⟩
  | keeps hsame houtcome => exact ⟨houtcome.elim buffers_none And.right, hsame.handed⟩

end ClientSystem.BufferCase

/-- What is put into the buffer is for the descriptor of the connection. -/
theorem ClientSystem.buffers_tagged (s t : ClientSystem) :
    s.buffers t =
      ((s.buffers t).map Prod.snd).map (Prod.mk s.reactor.connection.fileDescriptor) := by
  unfold buffers
  split
  · simp
  · rfl

theorem ClientSystem.Step.sound {s t : ClientSystem} (hstep : ClientSystem.Step s t)
    (h : s.Sound) : t.Sound := by
  have hvalid := ((hstep.buffer h).passes h).valid
  have hsame (hqueue : t.reactor.sendOperations = s.reactor.sendOperations)
      (hcallers : ∀ caller ∈ t.callers, caller ∈ s.callers ∨ caller = .waking) : t.Sound := by
    refine ⟨hvalid, hqueue ▸ h.queue, fun op hop => ?_⟩
    rcases hcallers _ hop with hold | hwaking
    · exact h.callers op hold
    · cases hwaking
  cases hstep with
  | request req hsized hrequest =>
    refine ⟨hvalid, h.queue, fun op hop => ?_⟩
    rcases List.mem_cons.mp hop with heq | hop
    · cases heq
      rw [request_data hrequest]
      exact hsized
    · exact h.callers op hop
  | @enqueue op before after hcallers hqueue =>
    have hmem : SendCaller.enqueueing op ∈ s.callers := by simp [hcallers]
    refine ⟨hvalid, fun op' hop => ?_, fun op' hop => h.callers op' ?_⟩
    · rcases List.mem_append.mp hop with hold | hnew
      · exact h.queue op' hold
      · rw [List.mem_singleton.mp hnew]
        exact h.callers op hmem
    · rw [hcallers]
      rcases List.mem_append.mp hop with hbefore | hafter
      · exact List.mem_append_left _ hbefore
      · rcases List.mem_cons.mp hafter with hwaking | hafter
        · cases hwaking
        · exact List.mem_append_right _ (List.mem_cons_of_mem _ hafter)
  | enqueueRejected hcallers hqueue =>
    refine hsame rfl fun caller hcaller => .inl ?_
    rw [hcallers]
    rcases List.mem_append.mp hcaller with hbefore | hafter
    · exact List.mem_append_left _ hbefore
    · exact List.mem_append_right _ (List.mem_cons_of_mem _ hafter)
  | wake hcallers =>
    refine hsame rfl fun caller hcaller => .inl ?_
    rw [hcallers]
    rcases List.mem_append.mp hcaller with hbefore | hafter
    · exact List.mem_append_left _ hbefore
    · exact List.mem_append_right _ (List.mem_cons_of_mem _ hafter)
  | setConnection fd peer => exact hsame rfl fun _ => .inl
  | setting env howners =>
    exact hsame (setConnection_sameControl env _ _ _ _).queue fun _ => .inl
  | setConnectionReturned howners => exact hsame rfl fun _ => .inl
  | removeConnection => exact hsame rfl fun _ => .inl
  | removing env howners => exact hsame (removeConnection_sameControl env _ _).queue fun _ => .inl
  | loop hloop => exact ⟨hvalid, fun op hop => h.queue op (hloop.queue.subset hop), h.callers⟩
  | stop hrunning => exact hsame rfl fun _ => .inl
  | stopQueue hstopping => exact hsame rfl fun _ => .inl
  | stopWake hstopping => exact hsame rfl fun _ => .inl
  | stopShutdown hstopping => exact hsame (shutdownConnection_sameControl _).queue fun _ => .inl
  | stopMonitor hjoined hstopping => exact hsame rfl fun _ => .inl
  | stopClose hstopping => exact hsame (closeConnection_sameControl _).queue fun _ => .inl

theorem started_sound (receiver : Receiver) (fds : Finset ℤ) :
    ClientSystem.Sound { reactor := ClientReactor.started receiver fds } where
  buffer := SendBuffer.fresh_valid
  queue _ h := absurd h List.not_mem_nil
  callers _ h := absurd h List.not_mem_nil

theorem clientReactors_sound {receiver : Receiver} {states : List ClientSystem}
    (hrun : (clientReactors receiver).Run states) : ∀ s ∈ states, s.Sound := by
  refine hrun.invariant ?_ fun s t h (hstep : ClientSystem.Step s t) => hstep.sound h
  rintro s ⟨fds, rfl⟩
  exact started_sound receiver fds

/-! ## First in, first out -/

/-- A client reactor that remembers what has been put into the send buffer. -/
def bufferingReactors (receiver : Receiver) :
    TransitionSystem (ClientSystem × List (ℤ × UInt8)) :=
  (clientReactors receiver).withAuxiliary [] fun s t put => put ++ s.buffers t

/-- What has been put into the send buffer has been handed to the kernel or is in the buffer. -/
def InOrder (x : ClientSystem × List (ℤ × UInt8)) : Prop :=
  x.2.map Prod.snd = x.1.reactor.handed.map Prod.snd ++ x.1.reactor.unsent

theorem ClientSystem.BufferCase.inOrder {s t : ClientSystem} {put : List (ℤ × UInt8)}
    (h : s.BufferCase t) (hs : s.Sound) (horder : InOrder (s, put)) :
    InOrder (t, put ++ s.buffers t) := by
  obtain ⟨-, took, hunsent, hhanded⟩ := h.passes hs
  have hbytes (fd : ℤ) : (took.map (Prod.mk fd)).map Prod.snd = took := by simp
  rw [InOrder, List.map_append, horder, hhanded, List.map_append, hbytes, List.append_assoc,
    hunsent, List.append_assoc]

theorem bufferingReactors_sound {receiver : Receiver}
    {states : List (ClientSystem × List (ℤ × UInt8))}
    (hrun : (bufferingReactors receiver).Run states) : ∀ x ∈ states, x.1.Sound :=
  hrun.forget_invariant fun _ => clientReactors_sound

theorem bufferingReactors_inOrder {receiver : Receiver}
    {states : List (ClientSystem × List (ℤ × UInt8))}
    (hrun : (bufferingReactors receiver).Run states) : ∀ x ∈ states, InOrder x := by
  have hboth : ∀ x ∈ states, x.1.Sound ∧ InOrder x := by
    refine hrun.invariant ?_ ?_
    · rintro ⟨s, put⟩ ⟨⟨fds, rfl⟩, hput⟩
      dsimp only at hput
      have hunsent : (ClientReactor.started receiver fds).unsent = [] := SendBuffer.fresh_readable
      refine ⟨started_sound receiver fds, ?_⟩
      rw [InOrder, hput, hunsent]
      rfl
    · rintro ⟨s, put⟩ ⟨t, put'⟩ ⟨hsound, horder⟩ ⟨hstep, hput⟩
      dsimp only at hstep hput
      have hcase := ClientSystem.Step.buffer hstep hsound
      rw [hput]
      exact ⟨ClientSystem.Step.sound hstep hsound, hcase.inOrder hsound horder⟩
  exact fun x hx => (hboth x hx).2

end DarwinCore.Network
