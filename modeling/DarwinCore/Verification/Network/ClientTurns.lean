import DarwinCore.Model.Network.Client
import DarwinCore.Verification.Network.WriteFilter

/-! # The turns of a connection

What a step inside the reactor of a client does with the connection, and which event it submits. -/

namespace DarwinCore.Network

/-! ## Who gets the events -/

namespace ClientReactor

variable {r r' : ClientReactor}

theorem dispatchEvent_receiver (env : Environment) (event : NetworkEvent) (r : ClientReactor) :
    (r.dispatchEvent env event).receiver = r.receiver := by
  rcases dispatchEvent_cases env event r with ⟨-, h⟩ | h | h <;> rw [h] <;> rfl

theorem awaitWritable_receiver (env : Environment) (fd : ℤ) (r : ClientReactor) :
    (r.awaitWritable env fd).receiver = r.receiver := by
  unfold awaitWritable
  split <;> rfl

theorem stopWriting_receiver (env : Environment) (fd : ℤ) (r : ClientReactor) :
    (r.stopWriting env fd).receiver = r.receiver := by
  unfold stopWriting
  split <;> rfl

theorem trySendDirect_receiver (env : Environment) (r : ClientReactor) :
    (r.trySendDirect env).2.receiver = r.receiver := by
  unfold trySendDirect
  dsimp only
  split
  · rfl
  · split
    · rfl
    · rw [stopWriting_receiver, awaitWritable_receiver]
      split <;> rfl

theorem doSend_receiver (env : Environment) {data : List UInt8} {success removes : Bool}
    (h : r.doSend env data = some (success, removes, r')) : r'.receiver = r.receiver := by
  unfold doSend at h
  split at h
  · cases h
    rfl
  · split at h
    · cases h
    · cases h
      rfl
    · obtain ⟨-, hresult⟩ := Prod.mk.inj (Option.some.inj h)
      exact (congrArg (fun result => result.2.receiver) hresult).symm.trans
        (trySendDirect_receiver env _)

theorem complete_receiver (op : SendOperation) (success : Bool) (r : ClientReactor) :
    (r.complete op success).receiver = r.receiver := by
  unfold complete
  cases op.callback with
  | none => cases op.promise <;> rfl
  | some callback => cases op.promise <;> rfl

theorem processKqueueEvent_receiver (env : Environment) (event : KEvent) (r : ClientReactor) :
    (r.processKqueueEvent env event).2.receiver = r.receiver := by
  have hsent := r.trySendDirect_receiver env
  unfold processKqueueEvent
  split
  · rfl
  · split
    · rfl
    · split
      · rfl
      · cases event.filter with
        | write => exact hsent
        | _ => rfl

theorem receive_receiver (env : Environment) (fd : ℤ) (outcome : RecvOutcome)
    (r : ClientReactor) : (r.receive env fd outcome).2.receiver = r.receiver := by
  cases outcome with
  | received data hdata => exact dispatchEvent_receiver env _ _
  | closed => rfl
  | failed code => cases code <;> rfl

theorem removeConnection_receiver (env : Environment) (removal : Removal) (r : ClientReactor) :
    (r.removeConnection env removal).2.receiver = r.receiver := by
  cases removal with
  | checking =>
    unfold removeConnection
    dsimp only
    split <;> rfl
  | closing fd => rfl
  | clearing => rfl
  | disconnecting => exact dispatchEvent_receiver env _ r

theorem setConnection_receiver (env : Environment) (fd : ℤ) (peer : SockAddr)
    (setting : Setting) (r : ClientReactor) :
    (r.setConnection env fd peer setting).2.receiver = r.receiver := by
  cases setting with
  | entering =>
    unfold setConnection
    dsimp only
    split <;> rfl
  | checking =>
    unfold setConnection
    dsimp only
    split <;> rfl
  | removing removal =>
    have hremoved := r.removeConnection_receiver env removal
    unfold setConnection
    dsimp only
    split
    · rename_i heq
      rw [heq] at hremoved
      exact hremoved
    · rename_i heq
      rw [heq] at hremoved
      exact hremoved
  | monitoring =>
    unfold setConnection
    dsimp only
    split <;> rfl
  | assigning => rfl
  | raising => rfl
  | connecting => exact dispatchEvent_receiver env _ r
  | returned success => rfl

end ClientReactor

open ClientReactor

theorem ClientLoop.Step.receiver {r r' : ClientReactor} {loop loop' : ClientLoop}
    (hstep : ClientLoop.Step (r, loop) (r', loop')) : r'.receiver = r.receiver := by
  cases hstep with
  | @process _ _ processed env op rest success removes hbatch hqueue hdo =>
    exact doSend_receiver (r := r.dequeue op rest) env hdo
  | complete => exact complete_receiver _ _ r
  | flush env => exact trySendDirect_receiver env r
  | woken events hevents => split <;> rfl
  | handle env hevent => exact processKqueueEvent_receiver env _ r
  | receive env outcome => exact receive_receiver env _ _ r
  | @remove _ _ env removal following next hremove =>
    have hremoved := removeConnection_receiver env removal r
    rw [hremove] at hremoved
    exact hremoved
  | _ => rfl

theorem ClientSystem.Step.receiver {s t : ClientSystem} (hstep : ClientSystem.Step s t) :
    t.reactor.receiver = s.reactor.receiver := by
  cases hstep with
  | setting env howners => exact setConnection_receiver env _ _ _ _
  | removing env howners => exact removeConnection_receiver env _ _
  | loop hloop => exact hloop.receiver
  | stopShutdown hstopping =>
    dsimp only
    rw [shutdownConnection]
    split <;> rfl
  | stopClose hstopping =>
    dsimp only
    rw [closeConnection]
    split <;> rfl
  | _ => rfl

/-! ## What is submitted -/

theorem ClientReactor.submitted_cons {r r' : ClientReactor} {e : ClientEffect}
    (h : r'.log = e :: r.log) : r'.submitted = r.submitted ++ e.submitted.toList := by
  rw [submitted, submitted, h, List.filterMap_cons]
  cases e.submitted with
  | none => exact (List.append_nil _).symm
  | some event => exact List.reverse_cons

namespace ClientSystem

variable {s t : ClientSystem} {event : NetworkEvent}

theorem submits_of_eq {events : List NetworkEvent}
    (h : t.reactor.submitted = s.reactor.submitted ++ events) : s.submits t = events := by
  rw [submits, h, List.drop_left]

theorem submits_nil {P : ClientEffect → Prop} (h : Grows P s.reactor t.reactor)
    (hP : ∀ e, P e → e.submitted = none) : s.submits t = [] := by
  have hsame : t.reactor.submitted = s.reactor.submitted :=
    congrArg List.reverse (History.Extends.filterMap hP h)
  exact submits_of_eq (hsame.trans (List.append_nil _).symm)

theorem submits_same (h : t.reactor.log = s.reactor.log) : s.submits t = [] :=
  submits_nil (P := fun _ => False) (.of_eq h) nofun

theorem submits_dispatched {r : ClientReactor} (env : Environment)
    (h : t.reactor.log = (r.dispatchEvent env event).log)
    (hr : r.submitted = s.reactor.submitted) (hpool : r.receiver = .workerPool)
    (haccepted : .refused event ∉ t.reactor.log) : s.submits t = [event] := by
  refine submits_of_eq (hr ▸ submitted_cons (e := .dispatched event) ?_)
  rw [dispatchEvent, hpool] at h
  dsimp only at h
  split at h
  · exact h
  · rw [h] at haccepted
    exact absurd List.mem_cons_self haccepted

end ClientSystem

theorem ClientReactor.sends_silent {fd : ℤ} {e : ClientEffect} (h : Sends fd e) :
    e.submitted = none := by
  cases e with
  | dispatched event => cases h
  | _ => rfl

theorem ClientReactor.completes_silent {op : SendOperation} {e : ClientEffect}
    (h : Completes op e) : e.submitted = none := by
  cases e with
  | dispatched event => cases h
  | _ => rfl

/-! ## Turns -/

/-- `RemoveConnection` has found a connection and not yet said that there is none. -/
def ClientLoop.Closes : ClientLoop → Prop
  | removing (.closing _) _ => True
  | removing .clearing _ => True
  | _ => False

/-- `RemoveConnection` has still to dispatch that the connection is gone. -/
def ClientLoop.Owes : ClientLoop → Prop
  | removing .disconnecting _ => True
  | _ => False

/-- The loop is in `HandleReadEvent`. -/
def ClientLoop.Reads : ClientLoop → Prop
  | reading _ _ => True
  | _ => False

theorem ClientLoop.IsPlain.not_closes {loop : ClientLoop} (h : loop.IsPlain) : ¬loop.Closes := by
  cases loop with
  | removing removal next => exact h.elim
  | _ => exact not_false

theorem ClientLoop.IsPlain.not_owes {loop : ClientLoop} (h : loop.IsPlain) : ¬loop.Owes := by
  cases loop with
  | removing removal next => exact h.elim
  | _ => exact not_false

theorem ClientLoop.IsPlain.not_reads {loop : ClientLoop} (h : loop.IsPlain) : ¬loop.Reads := by
  cases loop with
  | reading fd events => exact h.elim
  | _ => exact not_false

/-- After `RemoveConnection` the loop is neither reading nor in `RemoveConnection` again. -/
def ClientLoop.Returns (loop : ClientLoop) : Prop :=
  ∀ removal next, loop = .removing removal next → next.IsPlain

theorem ClientLoop.Step.returns {r r' : ClientReactor} {loop loop' : ClientLoop}
    (hstep : ClientLoop.Step (r, loop) (r', loop')) (h : loop.Returns) : loop'.Returns := by
  cases hstep with
  | process env hbatch hqueue hdo => exact after_following trivial
  | drained hqueue => split <;> exact nofun
  | flush env => exact after_following trivial
  | handle env hevent => exact Reaction.next_following _ _
  | receive env outcome => exact Reaction.next_following _ _
  | @remove _ _ env removal following next hremove =>
    have hnext := h removal next rfl
    cases following with
    | none => exact hnext.following
    | some removal' =>
      intro removal'' next' heq
      cases heq
      exact hnext
  | _ => exact nofun

namespace ClientSystem

/-- What a step inside the reactor does with the connection. -/
inductive Turn (s t : ClientSystem) : Prop where
  /-- The connection is left alone, and data may be submitted. -/
  | rests (hhas : t.reactor.hasConnection = s.reactor.hasConnection) (howners : t.owners = s.owners)
      (hcloses : t.loop.Closes ↔ s.loop.Closes) (howes : t.loop.Owes ↔ s.loop.Owes)
      (hreads : t.loop.Reads → s.loop.Reads ∨ s.reactor.hasConnection = true)
      (hsubmits : s.submits t = [] ∨
        s.loop.Reads ∧ ∃ id payload, s.submits t = [.data id payload])
  /-- The loop finds a connection that it removes. -/
  | begins (hhas : s.reactor.hasConnection = true) (hreactor : t.reactor = s.reactor)
      (howners : t.owners = s.owners) (hbefore : ¬s.loop.Owes)
      (hafter : t.loop.Closes ∧ ¬t.loop.Owes ∧ ¬t.loop.Reads)
  /-- There is no connection any more. -/
  | clears (hhas : t.reactor.hasConnection = false) (howners : t.owners = s.owners)
      (hbefore : s.loop.Closes ∧ ¬s.loop.Owes)
      (hafter : ¬t.loop.Closes ∧ t.loop.Owes ∧ ¬t.loop.Reads) (hsubmits : s.submits t = [])
  /-- And that is said. -/
  | tells (hhas : t.reactor.hasConnection = s.reactor.hasConnection) (howners : t.owners = s.owners)
      (hbefore : s.loop.Owes) (hafter : t.loop.IsPlain)
      (hsubmits : ∃ id, s.submits t = [.disconnected id])
  | sets (env : Environment) {fd : ℤ} {peer : SockAddr} {setting : Setting}
      (howners : s.owners = [.setting fd peer setting])
      (h : t = { s with
        reactor := (s.reactor.setConnection env fd peer setting).2
        owners := [.setting fd peer (s.reactor.setConnection env fd peer setting).1] })
  /-- `Stop` closes the connection. -/
  | ends (hhas : t.reactor.hasConnection = true → s.reactor.hasConnection = true)
      (howners : t.owners = s.owners) (hloop : t.loop = s.loop) (hsubmits : s.submits t = [])
      (hstopping : s.stopping = .closing)

end ClientSystem

theorem ClientLoop.after_not_closes (removes : Bool) {next : ClientLoop} (h : next.IsPlain) :
    ¬(after removes next).Closes ∧ ¬(after removes next).Owes ∧ ¬(after removes next).Reads := by
  cases removes with
  | false => exact ⟨h.not_closes, h.not_owes, h.not_reads⟩
  | true => exact ⟨not_false, not_false, not_false⟩

theorem ClientReactor.Reaction.next_not_closes (events : List KEvent) (reaction : Reaction) :
    ¬(reaction.next events).Closes ∧ ¬(reaction.next events).Owes := by
  cases reaction <;> exact ⟨not_false, not_false⟩

theorem ClientLoop.Step.turn {s : ClientSystem} {r : ClientReactor} {loop : ClientLoop}
    (hstep : ClientLoop.Step (s.reactor, s.loop) (r, loop)) (hreturns : s.loop.Returns)
    (hpool : s.reactor.receiver = .workerPool) (haccepted : ∀ event, .refused event ∉ r.log) :
    s.Turn { s with reactor := r, loop := loop } := by
  obtain ⟨reactor, callers, owners, before, stopping, nextPromise⟩ := s
  -- The loop neither removes the connection nor submits anything.
  have hrests (hhas : r.hasConnection = reactor.hasConnection)
      (hbefore : ¬before.Closes ∧ ¬before.Owes)
      (hafter : ¬loop.Closes ∧ ¬loop.Owes)
      (hreads : loop.Reads → before.Reads ∨ reactor.hasConnection = true)
      (hsubmits : ClientSystem.submits ⟨reactor, callers, owners, before, stopping, nextPromise⟩
        ⟨r, callers, owners, loop, stopping, nextPromise⟩ = []) :
      ClientSystem.Turn ⟨reactor, callers, owners, before, stopping, nextPromise⟩
        ⟨r, callers, owners, loop, stopping, nextPromise⟩ :=
    .rests hhas rfl (iff_of_false hafter.1 hbefore.1) (iff_of_false hafter.2 hbefore.2) hreads
      (.inl hsubmits)
  have hquiet (hr : r.log = reactor.log) (hhas : r.hasConnection = reactor.hasConnection)
      (hbefore : before.IsPlain) (hafter : loop.IsPlain) :
      ClientSystem.Turn ⟨reactor, callers, owners, before, stopping, nextPromise⟩
        ⟨r, callers, owners, loop, stopping, nextPromise⟩ :=
    hrests hhas ⟨hbefore.not_closes, hbefore.not_owes⟩ ⟨hafter.not_closes, hafter.not_owes⟩
      (fun hreads => absurd hreads hafter.not_reads) (ClientSystem.submits_same hr)
  cases hstep with
  | enter h => exact hquiet rfl rfl trivial trivial
  | leave h => exact hquiet rfl rfl trivial trivial
  | @process _ _ processed env op rest success removes hbatch hqueue hdo =>
    have hgrows :=
      (Grows.cons (P := (ClientEffect.submitted · = none)) (r := reactor) rfl rfl).trans
      ((doSend_grows (r := reactor.dequeue op rest) env hdo).mono fun _ => sends_silent)
    have hnext : (completing (processed + 1) op success).IsPlain := trivial
    obtain ⟨hcloses, howes, hreads⟩ := after_not_closes removes hnext
    exact hrests (doSend_steady (r := reactor.dequeue op rest) env hdo).hasConnection
      ⟨not_false, not_false⟩ ⟨hcloses, howes⟩ (fun h => absurd h hreads)
      (ClientSystem.submits_nil hgrows fun _ h => h)
  | @complete _ processed op success =>
    exact hrests (complete_steady op success reactor).hasConnection ⟨not_false, not_false⟩
      ⟨not_false, not_false⟩ nofun
      (ClientSystem.submits_nil (complete_grows op success reactor) fun _ => completes_silent)
  | drained h =>
    refine hquiet rfl rfl trivial ?_
    split <;> trivial
  | flush env =>
    have hnext : waiting.IsPlain := trivial
    obtain ⟨hcloses, howes, hreads⟩ := after_not_closes (reactor.trySendDirect env).1 hnext
    exact hrests (trySendDirect_steady env reactor).hasConnection ⟨not_false, not_false⟩
      ⟨hcloses, howes⟩ (fun h => absurd h hreads)
      (ClientSystem.submits_nil (trySendDirect_grows env reactor) fun _ => sends_silent)
  | interrupted => exact hquiet rfl rfl trivial trivial
  | failed => exact hquiet rfl rfl trivial trivial
  | woken events hevents => exact hquiet (by split <;> rfl) (by split <;> rfl) trivial trivial
  | @handle _ env event events hevent =>
    refine hrests (processKqueueEvent_steady env event reactor).hasConnection
      ⟨not_false, not_false⟩ (Reaction.next_not_closes events _) (fun hreads => .inr ?_)
      (ClientSystem.submits_nil (processKqueueEvent_grows env event reactor)
        fun _ => sends_silent)
    cases hreaction : (reactor.processKqueueEvent env event).1 with
    | reading fd => exact (processKqueueEvent_reads env event reactor fd hreaction).1
    | _ =>
      rw [hreaction] at hreads
      exact hreads.elim
  | skip h => exact hquiet rfl rfl trivial trivial
  | handled => exact hquiet rfl rfl trivial trivial
  | @receive _ env outcome fd events =>
    obtain ⟨hcloses, howes⟩ := Reaction.next_not_closes events (reactor.receive env fd outcome).1
    refine .rests (receive_steady env fd outcome reactor).hasConnection rfl
      (iff_of_false hcloses not_false) (iff_of_false howes not_false) (fun _ => .inl trivial) ?_
    have hsilent {code : Errno} : ClientSystem.submits
        ⟨reactor, callers, owners, .reading fd events, stopping, nextPromise⟩
        ⟨(reactor.receive env fd (.failed code)).2, callers, owners,
          (reactor.receive env fd (.failed code)).1.next events, stopping, nextPromise⟩ = [] := by
      refine ClientSystem.submits_same ?_
      cases code <;> rfl
    cases outcome with
    | received data hdata =>
      refine .inr ⟨trivial, reactor.connection.connectionId, data, ?_⟩
      refine ClientSystem.submits_dispatched env rfl ?_ hpool (haccepted _)
      exact (submitted_cons (e := .received fd data) rfl).trans (List.append_nil _)
    | closed => exact .inl (ClientSystem.submits_same rfl)
    | failed code => exact .inl hsilent
  | @remove _ _ env removal following next hremove =>
    have hnext := hreturns removal next rfl
    cases removal with
    | checking =>
      unfold removeConnection at hremove
      dsimp only at hremove
      split at hremove
      · cases hremove
        exact hrests rfl ⟨not_false, not_false⟩ ⟨hnext.not_closes, hnext.not_owes⟩
          (fun h => absurd h hnext.not_reads) (ClientSystem.submits_same rfl)
      · rename_i hhas
        cases hremove
        exact .begins (not_not.mp hhas) rfl rfl not_false ⟨trivial, not_false, not_false⟩
    | closing fd =>
      cases hremove
      refine .rests rfl rfl Iff.rfl Iff.rfl nofun (.inl ?_)
      exact ClientSystem.submits_nil (P := (ClientEffect.submitted · = none)) (.cons rfl rfl)
        fun _ h => h
    | clearing =>
      cases hremove
      exact .clears rfl rfl ⟨trivial, not_false⟩ ⟨not_false, trivial, not_false⟩
        (ClientSystem.submits_same rfl)
    | disconnecting =>
      cases hremove
      exact .tells (dispatchEvent_steady env _ reactor).hasConnection rfl trivial hnext
        ⟨_, ClientSystem.submits_dispatched env rfl rfl hpool (haccepted _)⟩

namespace ClientSystem

/-- Nobody is inside the reactor to set or remove the connection but one thread that sets it. -/
def Lone (s : ClientSystem) : Prop :=
  s.owners = [] ∨ ∃ fd peer setting, s.owners = [.setting fd peer setting]

theorem Lone.length_le {s : ClientSystem} (h : s.Lone) : s.owners.length ≤ 1 := by
  rcases h with hnil | ⟨fd, peer, setting, hone⟩
  · simp [hnil]
  · simp [hone]

theorem Lone.not_removing {s : ClientSystem} (h : s.Lone) (removal : Removal) :
    .removing removal ∉ s.owners := by
  rcases h with hnil | ⟨fd, peer, setting, hone⟩
  · simp [hnil]
  · simp [hone]

theorem Lone.eq_singleton {s : ClientSystem} (h : s.Lone) {owner : ConnectionCaller}
    (hmem : owner ∈ s.owners) : s.owners = [owner] := by
  rcases h with hnil | ⟨fd, peer, setting, hone⟩
  · rw [hnil] at hmem
    cases hmem
  · rw [hone, List.mem_singleton] at hmem
    rw [hone, hmem]

theorem Inner.turn {s t : ClientSystem} (h : s.Inner t) (hlone : s.Lone)
    (hreturns : s.loop.Returns) (hpool : s.reactor.receiver = .workerPool) : s.Turn t := by
  obtain ⟨hstep, -, howners, -, haccepted⟩ := h
  have hrests {t : ClientSystem} (hhas : t.reactor.hasConnection = s.reactor.hasConnection)
      (howners : t.owners = s.owners) (hloop : t.loop = s.loop)
      (hsubmits : s.submits t = []) : s.Turn t :=
    .rests hhas howners (hloop ▸ Iff.rfl) (hloop ▸ Iff.rfl) (fun h => .inl (hloop ▸ h))
      (.inl hsubmits)
  have hquiet {t : ClientSystem} (hlog : t.reactor.log = s.reactor.log)
      (hhas : t.reactor.hasConnection = s.reactor.hasConnection)
      (howners : t.owners = s.owners) (hloop : t.loop = s.loop) : s.Turn t :=
    hrests hhas howners hloop (submits_same hlog)
  cases hstep with
  | request req hsized hrequest => exact hquiet rfl rfl rfl rfl
  | enqueue hcallers hqueue => exact hquiet rfl rfl rfl rfl
  | enqueueRejected hcallers hqueue => exact hquiet rfl rfl rfl rfl
  | wake hcallers => exact hquiet rfl rfl rfl rfl
  | setConnection fd peer => exact absurd howners (by simp)
  | @setting env fd peer setting before after hsetting =>
    obtain ⟨rfl, rfl⟩ := eq_singleton hlone.length_le hsetting
    exact .sets env hsetting rfl
  | setConnectionReturned hreturned =>
    dsimp only at howners
    rw [hreturned] at howners
    simp at howners
  | removeConnection => exact absurd howners (by simp)
  | @removing env removal before after hremoving =>
    have hmem : ConnectionCaller.removing removal ∈ s.owners := by simp [hremoving]
    exact absurd hmem (hlone.not_removing removal)
  | loop hloop => exact hloop.turn hreturns hpool haccepted
  | stop hrunning => exact hquiet rfl rfl rfl rfl
  | stopQueue hstopping => exact hquiet rfl rfl rfl rfl
  | stopWake hstopping => exact hquiet rfl rfl rfl rfl
  | stopShutdown hstopping =>
    refine hrests ?_ rfl rfl ?_
    · dsimp only
      rw [shutdownConnection]
      split <;> rfl
    · refine submits_nil (P := (ClientEffect.submitted · = none)) ?_ fun _ h => h
      dsimp only
      rw [shutdownConnection]
      split
      · exact .cons rfl rfl
      · exact .of_eq rfl
  | stopMonitor hjoined hstopping => exact hquiet rfl rfl rfl rfl
  | stopClose hstopping =>
    refine .ends ?_ rfl rfl ?_ hstopping
    · dsimp only
      rw [closeConnection]
      split
      · exact nofun
      · exact id
    · refine submits_nil (P := (ClientEffect.submitted · = none)) ?_ fun _ h => h
      dsimp only
      rw [closeConnection]
      split
      · exact .cons rfl rfl
      · exact .of_eq rfl

/-- What `SetConnection` does between two points, when it does not remove a connection. -/
inductive SettingTurn (s t : ClientSystem) (fd : ℤ) : Setting → Setting → Prop where
  | prepares {setting setting' : Setting} (hbefore : setting.IsPending)
      (hafter : setting'.IsPending ∧ setting' ≠ .entering ∧ ∀ removal, setting' ≠ .removing removal)
      (hhas : t.reactor.hasConnection = s.reactor.hasConnection) (hsubmits : s.submits t = []) :
      SettingTurn s t fd setting setting'
  | rejects {setting : Setting}
      (hbefore : setting = .entering ∧ (fd < 0 ∨ ¬s.reactor.isRunning) ∨ setting = .monitoring)
      (hhas : t.reactor.hasConnection = s.reactor.hasConnection) (hsubmits : s.submits t = []) :
      SettingTurn s t fd setting (.returned false)
  | raises (hhas : t.reactor.hasConnection = true) (hsubmits : s.submits t = []) :
      SettingTurn s t fd .raising .connecting
  | announces (hhas : t.reactor.hasConnection = s.reactor.hasConnection)
      (hsubmits : ∃ id peer, s.submits t = [.connected id peer]) :
      SettingTurn s t fd .connecting (.returned true)
  | waits {success : Bool} (hreactor : t.reactor = s.reactor) :
      SettingTurn s t fd (.returned success) (.returned success)

theorem setting_turn (env : Environment) {s t : ClientSystem} {fd : ℤ} {peer : SockAddr}
    {setting : Setting} (ht : t.reactor = (s.reactor.setConnection env fd peer setting).2)
    (hfinds : setting = .checking → s.reactor.hasConnection = false)
    (hremoving : ∀ removal, setting ≠ .removing removal)
    (hpool : s.reactor.receiver = .workerPool)
    (haccepted : ∀ event, .refused event ∉ t.reactor.log) :
    SettingTurn s t fd setting (s.reactor.setConnection env fd peer setting).1 := by
  have hquiet (hlog : t.reactor.log = s.reactor.log) : s.submits t = [] := submits_same hlog
  cases setting with
  | entering =>
    unfold setConnection at ht ⊢
    dsimp only at ht ⊢
    by_cases hrefused : fd < 0 ∨ ¬s.reactor.isRunning
    · rw [if_pos hrefused] at ht ⊢
      exact .rejects (.inl ⟨rfl, hrefused⟩) (ht ▸ rfl) (hquiet (ht ▸ rfl))
    · rw [if_neg hrefused] at ht ⊢
      exact .prepares trivial ⟨trivial, nofun, nofun⟩ (ht ▸ rfl) (hquiet (ht ▸ rfl))
  | checking =>
    unfold setConnection at ht ⊢
    dsimp only at ht ⊢
    rw [hfinds rfl, if_neg Bool.false_ne_true] at ht ⊢
    exact .prepares trivial ⟨trivial, nofun, nofun⟩ (ht ▸ rfl) (hquiet (ht ▸ rfl))
  | removing removal => exact absurd rfl (hremoving removal)
  | monitoring =>
    have hgrows : Grows (ClientEffect.submitted · = none) s.reactor
        (s.reactor.monitor env fd .addRead).2 := .cons rfl rfl
    unfold setConnection at ht ⊢
    dsimp only at ht ⊢
    split at ht
    · rename_i hfailed
      rw [if_pos hfailed]
      refine .rejects (.inr rfl) (ht ▸ rfl) (submits_nil (P := (ClientEffect.submitted · = none))
        ?_ fun _ h => h)
      rw [ht]
      exact hgrows.trans (.cons rfl rfl)
    · rename_i hregistered
      rw [if_neg hregistered]
      exact .prepares trivial ⟨trivial, nofun, nofun⟩ (ht ▸ rfl)
        (submits_nil (ht ▸ hgrows) fun _ h => h)
  | assigning => exact .prepares trivial ⟨trivial, nofun, nofun⟩ (ht ▸ rfl) (hquiet (ht ▸ rfl))
  | raising => exact .raises (ht ▸ rfl) (hquiet (ht ▸ rfl))
  | connecting =>
    refine .announces ?_ ⟨_, _, submits_dispatched env (congrArg ClientReactor.log ht) rfl hpool
      (haccepted _)⟩
    rw [ht]
    exact (dispatchEvent_steady env _ s.reactor).hasConnection
  | returned success => exact .waits ht

end ClientSystem

end DarwinCore.Network
