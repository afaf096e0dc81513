import DarwinCore.Verification.Network.ClientDisconnects

/-! # What a failed `Connect` leaves

`Connect` changes `state_` first and can then fail at six points. A call that finds the client
connected or closing leaves it in `kConnecting`, and a reactor whose `Start` has failed is kept, so
that no later `Connect` of the client succeeds. Everywhere else a failed call leaves the client as
it was, or disconnected and without a socket. -/

namespace DarwinCore.Network

open ClientReactor

def ClientCall.IsAttempt : ClientCall → Prop
  | exchanging _ _ => True
  | connectReturned success => success = false
  | _ => False

/-- `ConnectInternal` after the exchange. -/
def ClientCall.IsInside : ClientCall → Prop
  | connecting _ _ => True
  | initializing _ => True
  | starting _ => True
  | calling _ => True
  | setting _ => True
  | failing => True
  | _ => False

/-- From the call of `SetConnection` on. -/
def ClientCall.IsLate : ClientCall → Prop
  | calling _ => True
  | setting _ => True
  | failing => True
  | _ => False

namespace Client

variable {c c' : Client}

/-! ## The steps of a call that fails -/

/-- `Connect` comes to the exchange, goes on from it or returns false. -/
inductive Attempts (c : Client) : Client → Prop where
  | refuse (h : c.call = .idle) : c.Attempts { c with call := .connectReturned false }
  | openSocket (fd : ℤ) (addr : SockAddr) (hfd : 0 ≤ fd) : c.Attempts (c.openSocket fd addr)
  | exchange {fd : ℤ} {addr : SockAddr} (h : c.call = .exchanging fd addr) :
      c.Attempts (c.exchange fd addr)
  | fail (h : c.call = .failing) :
      c.Attempts { c with state := .disconnected, call := .connectReturned false }

theorem connect_not_attempt (fd : ℤ) (addr : SockAddr) (success : Bool) (c : Client) :
    ¬(c.connect fd addr success).call.IsAttempt := by
  unfold connect
  split <;> exact not_false

theorem initReactor_not_attempt (fd : ℤ) (success : Bool) (c : Client) :
    ¬(c.initReactor fd success).call.IsAttempt := by
  unfold initReactor
  split
  · exact not_false
  · split <;> exact not_false

theorem swap_not_attempt (timeout : Option ℤ) (c : Client) :
    ¬(c.swap timeout).call.IsAttempt := by
  unfold swap
  cases timeout <;> dsimp only <;> split <;> exact not_false

theorem poll_not_attempt {timeout : ℤ} (elapsed : Bool) (hcall : c.call = .polling timeout) :
    ¬(c.poll timeout elapsed).call.IsAttempt := by
  unfold poll
  split
  · exact not_false
  · split
    · exact not_false
    · split
      · exact not_false
      · rw [hcall]
        exact not_false

theorem Step.attempts (hstep : Client.Step c c') :
    c.Attempts c' ∨ c'.call = c.call ∨ ¬c'.call.IsAttempt := by
  cases hstep with
  | refuse hcall => exact .inl (.refuse hcall)
  | openSocket fd addr hfd hcall => exact .inl (.openSocket fd addr hfd)
  | exchange hcall => exact .inl (.exchange hcall)
  | fail hcall => exact .inl (.fail hcall)
  | @connect fd addr success hcall => exact .inr (.inr (connect_not_attempt fd addr success c))
  | @initReactor fd success hcall => exact .inr (.inr (initReactor_not_attempt fd success c))
  | @setConnectionReturned s fd peer success before after hreactor howners hcall =>
    cases success with
    | false => exact .inr (.inr not_false)
    | true => exact .inr (.inr nofun)
  | @swap timeout hcall => exact .inr (.inr (swap_not_attempt timeout c))
  | @poll timeout elapsed hcall => exact .inr (.inr (poll_not_attempt elapsed hcall))
  | @finish graceful hcall => cases graceful <;> exact .inr (.inr not_false)
  | startReactor | startFails | setConnection | connectReturned | shutDown | stop | reset | stopped
  | drained | shutdownReturned => exact .inr (.inr not_false)
  | @deliver event rest hevents => exact .inr (.inl (deliver_aside event rest c).call)
  | _ => exact .inr (.inl rfl)

/-- `ConnectInternal` goes on from the exchange of `state_` only. -/
theorem Step.exchanges {fd : ℤ} {addr : SockAddr} (hstep : Client.Step c c')
    (hcall : c.call = .exchanging fd addr) : c'.call = c.call ∨ c' = c.exchange fd addr := by
  have hnot {call : ClientCall} (heq : c.call = call) (hne : call ≠ .exchanging fd addr) :
      c'.call = c.call ∨ c' = c.exchange fd addr :=
    absurd (heq.symm.trans hcall) hne
  cases hstep with
  | exchange h =>
    cases h.symm.trans hcall
    exact .inr rfl
  | refuse h | openSocket _ _ _ h | connect _ h | initReactor _ h | startReactor _ h
  | startFails _ h | setConnection _ h | setConnectionReturned _ _ h | fail h | connectReturned h
  | shutDown _ h | swap h | poll _ h | stop _ _ h | reset _ h | stopped _ _ h | drained _ h
  | finish h | shutdownReturned h => exact hnot h nofun
  | deliver hevents => exact .inl (deliver_aside _ _ c).call
  | _ => exact .inl rfl

theorem exchange_found (fd : ℤ) (addr : SockAddr) (h : c.state ≠ .disconnected) :
    c.exchange fd addr = { c with state := .connecting }.closeSocket fd (.connectReturned false) :=
  if_pos h

theorem exchange_free (fd : ℤ) (addr : SockAddr) (h : c.state = .disconnected) :
    c.exchange fd addr = { c with state := .connecting, call := .connecting fd addr } :=
  if_neg (not_not.mpr h)

/-- A call that is past its exchange returns false once it has reset `state_`. -/
theorem Step.fails (hstep : Client.Step c c') (hbefore : c.call.IsInside)
    (hafter : c'.call = .connectReturned false) : c'.state = .disconnected := by
  rcases hstep.attempts with hattempts | hsame | hnot
  · cases hattempts with
    | refuse hcall =>
      rw [hcall] at hbefore
      exact hbefore.elim
    | openSocket fd addr hfd => cases hafter
    | exchange hcall =>
      rw [hcall] at hbefore
      exact hbefore.elim
    | fail hcall => rfl
  · rw [← hsame, hafter] at hbefore
    exact hbefore.elim
  · rw [hafter] at hnot
    exact absurd rfl hnot

/-! ## The reactor that is found -/

/-- Nothing that the reactor submits is refused, and a socket has a descriptor. -/
structure Grounded (c : Client) : Prop where
  accepts : ∀ s, c.reactor = some s → s.reactor.AcceptsAll
  nonneg : ∀ fd addr, c.call = .exchanging fd addr → 0 ≤ fd

theorem Step.accepts (hstep : Client.Step c c')
    (h : ∀ s, c.reactor = some s → s.reactor.AcceptsAll) :
    ∀ s, c'.reactor = some s → s.reactor.AcceptsAll := by
  have hlog {s t : ClientSystem} (hreactor : c.reactor = some s)
      (hlog : t.reactor.log = s.reactor.log) (t' : ClientSystem) (ht : some t = some t') :
      t'.reactor.AcceptsAll := by
    cases ht
    intro event
    rw [hlog]
    exact h s hreactor event
  cases hstep with
  | exchange hcall => exact (exchange_keeps _ _ c).reactor ▸ h
  | connect success hcall => exact (connect_keeps _ _ success c).reactor ▸ h
  | initReactor success hcall => exact (initReactor_keeps _ success c).reactor ▸ h
  | startReactor | startFails =>
    intro s hs
    cases hs
    exact fun _ => List.not_mem_nil
  | setConnection hreactor hcall => exact hlog hreactor rfl
  | setConnectionReturned hreactor howners hcall =>
    rw [(afterSetConnection_keeps _ _ _).reactor]
    exact hlog hreactor rfl
  | swap hcall => exact (swap_keeps _ c).reactor ▸ h
  | poll elapsed hcall => exact (poll_keeps _ elapsed c).reactor ▸ h
  | stop hreactor hrunning hcall => exact hlog hreactor rfl
  | reset | stopped => exact fun s hs => (Option.some_ne_none s hs.symm).elim
  | @deliver event rest hevents => exact (onNetworkEvent_keeps event c).reactor ▸ h
  | request hreactor hsenders hsized hrequest => exact hlog hreactor rfl
  | react hreactor hinner =>
    intro s hs
    cases hs
    exact hinner.accepted
  | _ => exact h

theorem Step.grounded (hstep : Client.Step c c') (h : c.Grounded) : c'.Grounded := by
  refine ⟨hstep.accepts h.accepts, fun fd addr hafter => ?_⟩
  rcases hstep.attempts with hattempts | hsame | hnot
  · cases hattempts with
    | refuse hcall => cases hafter
    | openSocket fd' addr' hfd =>
      cases hafter
      exact hfd
    | @exchange fd' addr' hcall =>
      by_cases hstate : c.state = .disconnected
      · rw [exchange_free fd' addr' hstate] at hafter
        cases hafter
      · rw [exchange_found fd' addr' hstate] at hafter
        cases hafter
    | fail hcall => cases hafter
  · exact h.nonneg fd addr (hsame.symm.trans hafter)
  · rw [hafter] at hnot
    exact absurd trivial hnot

end Client

theorem clients_grounded {states : List Client} (hrun : clients.Run states) :
    ∀ c ∈ states, c.Grounded := by
  refine hrun.invariant ?_ fun c c' h (hstep : Client.Step c c') => hstep.grounded h
  rintro c rfl
  exact ⟨fun s hs => (Option.some_ne_none s hs.symm).elim, fun _ _ => nofun⟩

namespace Client

variable {c c' : Client}

/-- The client has no reactor, or one that `SetConnection` can use. -/
def Usable (c : Client) : Prop :=
  ∀ s, c.reactor = some s → s.Phase ∧ s.stopping = .notCalled ∧ s.reactor.AcceptsAll

theorem Usable.keeps (h : c.Usable) (hreactor : c'.reactor = c.reactor) : c'.Usable :=
  fun s hs => h s (hreactor ▸ hs)

/-- A reactor that is running can be used, and only the failure of its `Start` keeps it from
running while it is not being stopped. -/
theorem Sound.usable (h : c.Sound) (hgrounded : c.Grounded)
    (hcall : ∀ graceful, c.call ≠ .stopping graceful)
    (hrunning : ∀ s, c.reactor = some s → s.reactor.isRunning = true) : c.Usable := by
  intro s hs
  refine ⟨(h.started s hs).resolve_right fun hidle => ?_, (h.wired.stopping s hs).resolve_right ?_,
    hgrounded.accepts s hs⟩
  · exact Bool.false_ne_true (hidle.isRunning.symm.trans (hrunning s hs))
  · rintro ⟨graceful, hstopping⟩
    exact hcall graceful hstopping

/-- At `connect` or `InitReactor`, with a reactor to use or none. -/
structure Prepares (c : Client) : Prop where
  call : ∃ fd, 0 ≤ fd ∧ ((∃ addr, c.call = .connecting fd addr) ∨ c.call = .initializing fd)
  usable : c.Usable

/-- `connect` or `InitReactor` goes on, or another thread takes a step. -/
theorem Step.prepares (hstep : Client.Step c c') (h : c.Prepares) :
    c'.Prepares ∨
      (∃ fd addr success, 0 ≤ fd ∧ c.call = .connecting fd addr ∧ c' = c.connect fd addr success) ∨
      ∃ fd success, 0 ≤ fd ∧ c.call = .initializing fd ∧ c' = c.initReactor fd success := by
  obtain ⟨⟨fd, hfd, hcall⟩, husable⟩ := h
  have hnot {call : ClientCall} {P : Prop} (heq : c.call = call)
      (hne : (∀ addr, call ≠ .connecting fd addr) ∧ call ≠ .initializing fd) : P := by
    rcases hcall with ⟨addr, hconnecting⟩ | hinitializing
    · exact absurd (heq.symm.trans hconnecting) (hne.1 addr)
    · exact absurd (heq.symm.trans hinitializing) hne.2
  have hkeeps {c' : Client} (hsame : c'.call = c.call) (husable : c'.Usable) : c'.Prepares :=
    ⟨⟨fd, hfd, hsame ▸ hcall⟩, husable⟩
  cases hstep with
  | @connect fd' addr success h =>
    rcases hcall with ⟨addr', hconnecting⟩ | hinitializing
    · cases h.symm.trans hconnecting
      exact .inr (.inl ⟨fd, addr, success, hfd, h, rfl⟩)
    · cases h.symm.trans hinitializing
  | @initReactor fd' success h =>
    rcases hcall with ⟨addr, hconnecting⟩ | hinitializing
    · cases h.symm.trans hconnecting
    · cases h.symm.trans hinitializing
      exact .inr (.inr ⟨fd, success, hfd, h, rfl⟩)
  | refuse h | openSocket _ _ _ h | exchange h | startReactor _ h | startFails _ h
  | setConnection _ h | setConnectionReturned _ _ h | fail h | connectReturned h | shutDown _ h
  | swap h | poll _ h | stop _ _ h | reset _ h | stopped _ _ h | drained _ h | finish h
  | shutdownReturned h => exact hnot h ⟨nofun, nofun⟩
  | @deliver event rest hevents =>
    exact .inl (hkeeps (deliver_aside event rest c).call
      (husable.keeps (onNetworkEvent_keeps event c).reactor))
  | @request s req op before after hreactor hsenders hsized hrequest =>
    refine .inl (hkeeps rfl fun t ht => ?_)
    cases ht
    obtain ⟨hphase, hstopping, haccepts⟩ := husable s hreactor
    exact ⟨hphase.sameControl (.refl _) rfl id, hstopping, haccepts⟩
  | @react s t hreactor hinner =>
    refine .inl (hkeeps rfl fun t' ht' => ?_)
    cases ht'
    obtain ⟨hphase, hstopping, -⟩ := husable s hreactor
    exact ⟨hinner.step.phase hphase, hinner.stopping hstopping, hinner.accepted⟩
  | _ => exact .inl (hkeeps rfl (husable.keeps rfl))

def Proceeds (c : Client) : Prop :=
  c.Prepares ∨ c.Connects

theorem initReactor_of_some {s : ClientSystem} (fd : ℤ) (success : Bool)
    (hreactor : c.reactor = some s) :
    c.initReactor fd success = { c with call := .calling fd } := by
  rw [initReactor, hreactor]
  rfl

theorem Succeeds.proceeds (hstep : c.Succeeds c') (hsound : c.Sound) (h : c.Proceeds) :
    c'.Proceeds := by
  rcases h with hprepares | hconnects
  · have husable := hprepares.usable
    rcases hstep.step.prepares hprepares with
      hprepares' | ⟨fd, addr, success, hfd, hcall, rfl⟩ | ⟨fd, success, hfd, hcall, rfl⟩
    · exact .inl hprepares'
    · cases success with
      | false => exact absurd rfl (hstep.connected fd addr hcall)
      | true =>
        exact .inl ⟨⟨fd, hfd, .inr rfl⟩, husable.keeps (connect_keeps fd addr true c).reactor⟩
    · cases hreactor : c.reactor with
      | none =>
        have hconnects : c.Connects := by
          rw [Connects, hcall]
          exact ⟨hreactor, hfd⟩
        exact .inr (hstep.connects hsound hconnects)
      | some s =>
        rw [initReactor_of_some fd success hreactor]
        exact .inr ⟨hfd, s, hreactor, husable s hreactor⟩
  · exact .inr (hstep.connects hsound hconnects)

/-- `InitReactor` can return, with the reactor that it finds. -/
theorem Prepares.initializing_completes {fd : ℤ} (h : c.Prepares) (hsound : c.Sound)
    (hfd : 0 ≤ fd) (hcall : c.call = .initializing fd) : c.Completes := by
  cases hreactor : c.reactor with
  | none =>
    refine Client.initializing_completes hsound ?_ hcall
    rw [Connects, hcall]
    exact ⟨hreactor, hfd⟩
  | some s =>
    have hstep : Client.Step c (c.initReactor fd true) := .initReactor true hcall
    rw [initReactor_of_some fd true hreactor] at hstep
    have hsucceeds := hstep.succeeds_outside hcall (fun _ => ClientCall.noConfusion)
      ⟨ClientCall.noConfusion, ClientCall.noConfusion⟩ (fun _ => ClientCall.noConfusion) rfl
    have hconnects : Connects { c with call := .calling fd } :=
      ⟨hfd, s, hreactor, h.usable s hreactor⟩
    exact (calling_completes (hstep.sound hsound) hconnects rfl).head hsucceeds

theorem Proceeds.completes (h : c.Proceeds) (hsound : c.Sound) : c.Completes := by
  rcases h with hprepares | hconnects
  · obtain ⟨fd, hfd, ⟨addr, hcall⟩ | hcall⟩ := hprepares.call
    · have hstep : Client.Step c (c.connect fd addr true) := .connect true hcall
      have hsucceeds := hstep.succeeds_outside hcall nofun ⟨nofun, nofun⟩ nofun rfl
      have hnext : (c.connect fd addr true).Prepares :=
        ⟨⟨fd, hfd, .inr rfl⟩, hprepares.usable.keeps rfl⟩
      exact (hnext.initializing_completes (hstep.sound hsound) hfd rfl).head hsucceeds
    · exact hprepares.initializing_completes hsound hfd hcall
  · exact hconnects.completes hsound

theorem Prepares.reconnects (h : c.Prepares) (hsound : c.Sound) : c.Reconnects := by
  intro w hpath
  have hall : w.Sound ∧ w.Proceeds := by
    induction hpath with
    | refl => exact ⟨hsound, .inl h⟩
    | tail hpath hstep ih => exact ⟨hstep.step.sound ih.1, hstep.proceeds ih.1 ih.2⟩
  refine ⟨fun success hcall => ?_, hall.2.completes hall.1⟩
  rcases hall.2 with hprepares | hconnects
  · obtain ⟨fd, -, ⟨addr, hconnecting⟩ | hinitializing⟩ := hprepares.call
    · cases hcall.symm.trans hconnecting
    · cases hcall.symm.trans hinitializing
  · rw [Connects, hcall] at hconnects
    exact hconnects

/-! ## A reactor whose `Start` has failed -/

/-- `Connect` can return false although its system calls succeed. -/
def CanFail (c : Client) : Prop :=
  ∃ w, Relation.ReflTransGen Succeeds c w ∧ w.call = .connectReturned false

theorem CanFail.head (h : c'.CanFail) (hstep : c.Succeeds c') : c.CanFail := by
  obtain ⟨w, hpath, hw⟩ := h
  exact ⟨w, .head hstep hpath, hw⟩

/-- Nothing is asked of the steps from the call of `SetConnection` on that leave the reactor's log
as it is. -/
theorem Step.succeeds_late (hstep : Client.Step c c') (hlate : c.call.IsLate)
    (hshutDown : ∀ timeout, c'.call ≠ .swapping timeout) (hinside : c'.inside = c.inside) :
    c.Succeeds c' := by
  have hnot {call : ClientCall} {P : Prop} (hcall : c.call = call) (hearly : ¬call.IsLate) : P :=
    absurd (hcall ▸ hlate) hearly
  refine ⟨hstep, fun success hcall => hnot hcall not_false, hshutDown,
    fun hcall => hnot hcall not_false, fun fd addr hcall => hnot hcall not_false,
    fun fd hcall => hnot hcall not_false, fun fd hcall => hnot hcall not_false, fun fd hmem => ?_⟩
  rw [hinside, added_self] at hmem
  cases hmem

theorem setting_fails {s : ClientSystem} {fd : ℤ} {peer : SockAddr} (hreactor : c.reactor = some s)
    (hcall : c.call = .setting fd) (howners : s.owners = [.setting fd peer (.returned false)]) :
    c.CanFail := by
  have hreturned : Client.Step c (Client.afterSetConnection fd false
      { c with reactor := some { s with owners := [] ++ [] } }) :=
    @Client.Step.setConnectionReturned c s fd peer false [] [] hreactor howners hcall
  have hfailed : Client.Step (Client.afterSetConnection fd false
      { c with reactor := some { s with owners := [] ++ [] } }) _ := .fail rfl
  have hinside : (Client.afterSetConnection fd false
      { c with reactor := some { s with owners := [] ++ [] } }).inside = c.inside := by
    rw [inside, inside, hreactor]
    rfl
  have hfirst := hreturned.succeeds_late (hcall ▸ trivial) (fun _ => ClientCall.noConfusion) hinside
  have hlast := hfailed.succeeds_late trivial (fun _ => ClientCall.noConfusion) rfl
  exact ⟨_, .head hfirst (.single hlast), rfl⟩

/-- `SetConnection` of a reactor that is not running returns false. -/
theorem entering_fails {s : ClientSystem} {fd : ℤ} {peer : SockAddr} (hreactor : c.reactor = some s)
    (hcall : c.call = .setting fd) (howners : s.owners = [.setting fd peer .entering])
    (haccepts : s.reactor.AcceptsAll) (hrunning : s.reactor.isRunning = false) : c.CanFail := by
  have hset : s.reactor.setConnection sampleEnvironment fd peer .entering =
      (.returned false, s.reactor) :=
    if_pos (.inr (by simp [hrunning]))
  have hinner : s.Inner { s with owners := [.setting fd peer (.returned false)] } := by
    have hstep := @ClientSystem.Step.setting s sampleEnvironment fd peer .entering [] [] howners
    rw [hset] at hstep
    exact ⟨hstep, Nat.le_refl _, by rw [howners]; rfl, id, haccepts⟩
  have hstep : Client.Step c
      (c.react s { s with owners := [.setting fd peer (.returned false)] }) :=
    .react hreactor hinner
  have hinside : (c.react s { s with owners := [.setting fd peer (.returned false)] }).inside =
      c.inside := by
    rw [inside, inside, hreactor]
    rfl
  have hnext : (c.react s { s with owners := [.setting fd peer (.returned false)] }).call =
      .setting fd := hcall
  refine (setting_fails rfl hnext rfl).head (hstep.succeeds_late (hcall ▸ trivial) ?_ hinside)
  rw [hnext]
  exact fun _ => ClientCall.noConfusion

theorem calling_fails {s : ClientSystem} {fd : ℤ} (hreactor : c.reactor = some s)
    (hcall : c.call = .calling fd) (howners : s.owners = []) (haccepts : s.reactor.AcceptsAll)
    (hrunning : s.reactor.isRunning = false) : c.CanFail := by
  have hstep : Client.Step c _ := .setConnection hreactor hcall
  rw [howners] at hstep
  have hinside : Client.inside { c with
      reactor := some { s with owners := [.setting fd c.peer .entering] }
      call := .setting fd } = c.inside := by
    rw [inside, inside, hreactor]
    rfl
  have hfails := entering_fails (s := { s with owners := [.setting fd c.peer .entering] })
    (c := { c with
      reactor := some { s with owners := [.setting fd c.peer .entering] }
      call := .setting fd }) rfl rfl rfl haccepts hrunning
  exact hfails.head
    (hstep.succeeds_late (hcall ▸ trivial) (fun _ => ClientCall.noConfusion) hinside)

/-- A reactor that is not running is kept, and no `Connect` can use it. -/
theorem not_reconnects {s : ClientSystem} {fd : ℤ} {addr : SockAddr} (hsound : c.Sound)
    (hgrounded : c.Grounded) (hcall : c.call = .connecting fd addr) (hreactor : c.reactor = some s)
    (hrunning : s.reactor.isRunning = false) : ¬c.Reconnects := by
  intro hreconnects
  have howners : s.owners = [] :=
    (attends_ordinary fun fd' heq => by rw [hcall] at heq; cases heq).mp
      (hsound.wired.owners s hreactor)
  have hconnected : Client.Step c (c.connect fd addr true) := .connect true hcall
  have hinitialized : Client.Step (c.connect fd addr true)
      ((c.connect fd addr true).initReactor fd true) := .initReactor true rfl
  have hreactor' : (c.connect fd addr true).reactor = some s := hreactor
  rw [initReactor_of_some fd true hreactor'] at hinitialized
  have hfails : CanFail { c.connect fd addr true with call := .calling fd } :=
    calling_fails hreactor rfl howners (hgrounded.accepts s hreactor) hrunning
  obtain ⟨w, hpath, hw⟩ : c.CanFail :=
    (hfails.head (hinitialized.succeeds_outside rfl nofun ⟨nofun, nofun⟩ nofun rfl)).head
      (hconnected.succeeds_outside hcall nofun ⟨nofun, nofun⟩ nofun rfl)
  exact Bool.false_ne_true ((hreconnects w hpath).1 false hw)

/-- A `Connect` that finds the client disconnected succeeds, if its system calls do, exactly if the
reactor that it finds has been started. -/
theorem exchange_reconnects_iff {fd : ℤ} {addr : SockAddr} (hsound : c.Sound)
    (hgrounded : c.Grounded) (hcall : c.call = .exchanging fd addr)
    (hstate : c.state = .disconnected) :
    (c.exchange fd addr).Reconnects ↔ ∀ s, c.reactor = some s → s.reactor.isRunning = true := by
  have hstep : Client.Step c (c.exchange fd addr) := .exchange hcall
  have hsound' := hstep.sound hsound
  have hgrounded' := hstep.grounded hgrounded
  have hreactor := (exchange_keeps fd addr c).reactor
  have hnext : (c.exchange fd addr).call = .connecting fd addr := by
    rw [exchange_free fd addr hstate]
  constructor
  · intro hreconnects s hs
    by_contra hrunning
    exact not_reconnects hsound' hgrounded' hnext (hreactor.trans hs)
      (Bool.eq_false_iff.mpr hrunning) hreconnects
  · intro hrunning
    have husable : c.Usable :=
      hsound.usable hgrounded (by rw [hcall]; exact fun _ => nofun) hrunning
    have hprepares : (c.exchange fd addr).Prepares :=
      ⟨⟨fd, hgrounded.nonneg fd addr hcall, .inl ⟨addr, hnext⟩⟩, husable.keeps hreactor⟩
    exact hprepares.reconnects hsound'

end Client

/-! ## Calls that return false -/

/-- A call of `Connect` returns false in `y`. In `x` it is about to be refused or to exchange
`state_`, and `mid` are the states between. -/
inductive ConnectFails (x y : Client × Set ℤ) : List (Client × Set ℤ) → Prop where
  | refused (hbefore : x.1.call = .idle) (hreturned : y.1.call = .connectReturned false) :
      ConnectFails x y []
  | exchanged {fd : ℤ} {addr : SockAddr} {mid : List (Client × Set ℤ)}
      (hbefore : x.1.call = .exchanging fd addr) (hinside : ∀ z ∈ mid, z.1.call.IsInside)
      (hreturned : y.1.call = .connectReturned false) : ConnectFails x y mid

theorem ConnectFails.returned {x y : Client × Set ℤ} {mid : List (Client × Set ℤ)}
    (h : ConnectFails x y mid) : y.1.call = .connectReturned false := by
  cases h with
  | refused hbefore hreturned => exact hreturned
  | exchanged hbefore hinside hreturned => exact hreturned

/-- The client is as it was, but for the socket of the call, which is closed. -/
structure Unchanged (x y : Client × Set ℤ) : Prop where
  client : y.1 = { x.1 with call := y.1.call, log := y.1.log }
  sockets : ∀ fd, fd ∈ y.2 ↔ fd ∈ x.2 ∧ x.1.call.socket ≠ some fd

structure LeftConsistent (x y : Client × Set ℤ) : Prop where
  whole : Unchanged x y ∨ y.1.state = .disconnected ∧ y.2 = ∅
  connecting : y.1.state = .connecting → x.1.state = .connecting

namespace Client

variable {c c' : Client} {before : Set ℤ}

theorem mem_sockets_of_log {fd' : ℤ} (hlog : c'.log = .closed fd' :: c.log)
    (hinside : c'.inside = c.inside) (fd : ℤ) :
    fd ∈ c.sockets c' before ↔ fd ∈ before ∧ some fd' ≠ some fd := by
  have hcloses : c.Closes c' fd ↔ fd' = fd := by
    rw [Closes, hlog, hinside, added_cons, added_self]
    simp [eq_comm]
  simp [sockets, hlog, added_cons, hcloses]

/-- A client that is disconnected holds no socket but that of the call. -/
theorem Sound.not_holds (h : c.Sound) (hstate : c.state = .disconnected)
    (hcall : c.call.socket = none) (fd : ℤ) : ¬c.Holds fd := by
  rintro (hsocket | ⟨s, hreactor, hholds⟩)
  · cases hcall.symm.trans hsocket
  · have hnone : s.connections = 0 :=
      Nat.le_zero.mp ((connections_le hreactor).trans (h.wired.state hstate).le)
    rw [ClientSystem.connections] at hnone
    rcases hholds with ⟨peer, phase, hmem, hundone⟩ | ⟨hhas, -⟩
    · have hpos : 0 < s.owners.countP ConnectionCaller.isUndone :=
        List.countP_pos_iff.mpr ⟨_, hmem, hundone⟩
      omega
    · rw [hhas, Bool.toNat_true] at hnone
      omega

end Client

theorem socketClients_step {x y : Client × Set ℤ} (hstep : socketClients.step x y) :
    Client.Step x.1 y.1 ∧ y.2 = x.1.sockets y.1 x.2 :=
  hstep

theorem refused_unchanged {x y : Client × Set ℤ} (hstep : socketClients.step x y)
    (hbefore : x.1.call = .idle) (hreturned : y.1.call = .connectReturned false) :
    Unchanged x y := by
  obtain ⟨c, before⟩ := x
  obtain ⟨c', after⟩ := y
  obtain ⟨hclient, rfl⟩ : Client.Step c c' ∧ after = c.sockets c' before := hstep
  rcases hclient.attempts with hattempts | hsame | hnot
  · have hcall : c.call = .idle := hbefore
    cases hattempts with
    | refuse h =>
      refine ⟨rfl, fun fd => ?_⟩
      simp [Client.sockets, Client.Closes, Client.inside, added_self, hcall, ClientCall.socket]
    | openSocket fd addr hfd => cases hreturned
    | exchange h => cases h.symm.trans hcall
    | fail h => cases h.symm.trans hcall
  · cases (hsame.symm.trans hreturned).symm.trans hbefore
  · exact absurd rfl (hreturned ▸ hnot)

/-- A call that finds the client connecting, connected or closing puts it into `kConnecting`. -/
theorem found_leftConsistent_iff {x y : Client × Set ℤ} {fd : ℤ} {addr : SockAddr}
    (hstep : socketClients.step x y) (hbefore : x.1.call = .exchanging fd addr)
    (hstate : x.1.state ≠ .disconnected) (hy : y.1 = x.1.exchange fd addr) :
    LeftConsistent x y ↔ x.1.state = .connecting := by
  constructor
  · intro h
    exact h.connecting (by rw [hy, Client.exchange_state])
  · intro hconnecting
    rw [Client.exchange_found fd addr hstate] at hy
    refine ⟨.inl ⟨?_, fun fd' => ?_⟩, fun _ => hconnecting⟩
    · rw [hy, ← hconnecting]
      rfl
    · rw [(socketClients_step hstep).2, hbefore]
      exact Client.mem_sockets_of_log (by rw [hy]; rfl) (by rw [hy]; rfl) fd'

/-- A call that returns false is refused, finds the client not disconnected or has reset
`state_`. -/
theorem ConnectFails.cases {states mid : List (Client × Set ℤ)} {x y : Client × Set ℤ}
    (hrun : socketClients.Run states) (hpath : y :: mid ++ [x] <:+: states)
    (h : ConnectFails x y mid) :
    Unchanged x y ∨
      (∃ fd addr, [y, x] <:+: states ∧ x.1.call = .exchanging fd addr ∧
        x.1.state ≠ .disconnected ∧ y.1 = x.1.exchange fd addr) ∨
      y.1.state = .disconnected := by
  cases h with
  | refused hbefore hreturned =>
    exact .inl (refused_unchanged (hrun.step_of_infix hpath) hbefore hreturned)
  | @exchanged fd addr mid hbefore hinside hreturned =>
    rcases mid with _ | ⟨u, mid⟩
    · obtain ⟨hclient, -⟩ := socketClients_step (hrun.step_of_infix hpath)
      have hy : y.1 = x.1.exchange fd addr :=
        (hclient.exchanges hbefore).resolve_left (by rw [hreturned, hbefore]; exact nofun)
      refine .inr (.inl ⟨fd, addr, hpath, hbefore, fun hstate => ?_, hy⟩)
      rw [Client.exchange_free fd addr hstate] at hy
      rw [hy] at hreturned
      cases hreturned
    · have hlast : [y, u] <:+: y :: u :: mid ++ [x] := (List.prefix_append [y, u] _).isInfix
      obtain ⟨hclient, -⟩ := socketClients_step (hrun.step_of_infix (hlast.trans hpath))
      exact .inr (.inr (hclient.fails (hinside u List.mem_cons_self) hreturned))

/-- Every call of `Connect` that returns false leaves a consistent client, and one that finds the
client disconnected succeeds if its system calls do. -/
structure FailsConsistently (states : List (Client × Set ℤ)) : Prop where
  failed : ∀ x mid y, y :: mid ++ [x] <:+: states → ConnectFails x y mid → LeftConsistent x y
  later : ∀ x ∈ states, ∀ fd addr, x.1.call = .exchanging fd addr → x.1.state = .disconnected →
    (x.1.exchange fd addr).Reconnects

/-- The exchange of `state_` never finds the client connected or closing, and where it finds it
disconnected, the reactor that is left, if any, has been started. -/
structure FindsUsable (states : List (Client × Set ℤ)) : Prop where
  exchanged : ∀ x y fd addr, [y, x] <:+: states → x.1.call = .exchanging fd addr →
    y.1 = x.1.exchange fd addr → x.1.state = .disconnected ∨ x.1.state = .connecting
  started : ∀ x ∈ states, ∀ fd addr, x.1.call = .exchanging fd addr → x.1.state = .disconnected →
    ∀ s, x.1.reactor = some s → s.reactor.isRunning = true

/-- The calls of `Connect` in a run fail consistently exactly if none finds a live or closing
connection or a reactor that has not been started. -/
theorem failed_connects_consistent_iff {states : List (Client × Set ℤ)}
    (hrun : socketClients.Run states) : FailsConsistently states ↔ FindsUsable states := by
  have hsound := socketClients_sound hrun
  have hgrounded : ∀ x ∈ states, x.1.Grounded := hrun.forget_invariant fun _ => clients_grounded
  constructor
  · intro h
    refine ⟨fun x y fd addr hxy hcall hy => or_iff_not_imp_left.mpr fun hstate => ?_,
      fun x hx fd addr hcall hstate => ?_⟩
    · have hreturned : y.1.call = .connectReturned false := by
        rw [hy, Client.exchange_found fd addr hstate]
        rfl
      have hfails : ConnectFails x y [] :=
        .exchanged hcall (fun z hz => absurd hz List.not_mem_nil) hreturned
      exact (found_leftConsistent_iff (hrun.step_of_infix hxy) hcall hstate hy).mp
        (h.failed x [] y hxy hfails)
    · exact (Client.exchange_reconnects_iff (hsound x hx).1 (hgrounded x hx) hcall hstate).mp
        (h.later x hx fd addr hcall hstate)
  · intro h
    refine ⟨fun x mid y hpath hfails => ?_, fun x hx fd addr hcall hstate => ?_⟩
    · rcases hfails.cases hrun hpath with
        hunchanged | ⟨fd, addr, hxy, hcall, hfound, hy⟩ | hstate
      · exact ⟨.inl hunchanged, fun hleft =>
          (congrArg Client.state hunchanged.client).symm.trans hleft⟩
      · have hconnecting := (h.exchanged x y fd addr hxy hcall hy).resolve_left hfound
        exact (found_leftConsistent_iff (hrun.step_of_infix hxy) hcall hfound hy).mpr hconnecting
      · obtain ⟨hsound', hholds⟩ := hsound y (hpath.mem (by simp))
        have hclosed : y.2 = ∅ := Set.eq_empty_iff_forall_notMem.mpr fun fd hmem =>
          hsound'.not_holds hstate (by rw [hfails.returned]; rfl) fd (hholds fd hmem)
        exact ⟨.inr ⟨hstate, hclosed⟩, fun hleft => by cases hstate.symm.trans hleft⟩
    · exact (Client.exchange_reconnects_iff (hsound x hx).1 (hgrounded x hx) hcall hstate).mpr
        (h.started x hx fd addr hcall hstate)

/-- `connect` fails in the first call. -/
theorem failed_connects_consistent_first : ∃ x past, socketClients.Run (x :: past) ∧
    x.1.call = .connectReturned false ∧
      (FailsConsistently (x :: past) ↔ FindsUsable (x :: past)) := by
  have hstart : clients.Leads (fun _ _ => True) {} := .start rfl
  have hopened := hstart.next (Client.Step.openSocket 5 ⟨[]⟩ (by decide) rfl) trivial
  have hexchanged := hopened.next (Client.Step.exchange rfl) trivial
  have hconnected := hexchanged.next (Client.Step.connect false rfl) trivial
  have hfailed := hconnected.next (Client.Step.fail rfl) trivial
  obtain ⟨sockets, past, hrun, -⟩ := hfailed.record
  exact ⟨_, past, hrun, rfl, failed_connects_consistent_iff hrun⟩

/-! ## A second connection -/

def sampleTwice : Client :=
  { sampleWaits { reactor := sampleAnnounced } [] with
    state := .connected
    connectionId := sampleLive.connection.connectionId
    call := .exchanging 6 ⟨[]⟩
    received := [.connected sampleLive.connection.connectionId samplePeer]
    log := [.opened 6, .opened 5] }

theorem sample_twice : clients.Leads (fun _ _ => True) sampleTwice := by
  have hlive : clients.Leads (fun _ _ => True) _ := sample_live fun _ _ _ _ => trivial
  have hset := hlive.next (sampleInside_step .connecting .top sampleAnnounced_accepts) trivial
  have hreturned := hset.next (@Client.Step.setConnectionReturned _
    (sampleInside sampleAnnounced (.returned true) .top) 5 samplePeer true [] [] rfl rfl rfl)
    trivial
  have hidle := hreturned.next (Client.Step.connectReturned rfl) trivial
  have hdelivered := hidle.next (Client.Step.deliver rfl) trivial
  exact hdelivered.next (Client.Step.openSocket 6 ⟨[]⟩ (by decide) rfl) trivial

/-- `Connect` on a connected client returns false and leaves it in `kConnecting`. -/
theorem connected_left_connecting :
    ¬∀ states, socketClients.Run states → FailsConsistently states := by
  intro hall
  obtain ⟨sockets, past, hrun, -⟩ : ∃ sockets past,
      socketClients.Run ((sampleTwice, sockets) :: past) ∧ _ := sample_twice.record
  have hstep : Client.Step sampleTwice (sampleTwice.exchange 6 ⟨[]⟩) := .exchange rfl
  have hnext : socketClients.Run ((sampleTwice.exchange 6 ⟨[]⟩,
      sampleTwice.sockets (sampleTwice.exchange 6 ⟨[]⟩) sockets) ::
        (sampleTwice, sockets) :: past) := hrun.next ⟨hstep, rfl⟩
  have hfails : ConnectFails (sampleTwice, sockets) (sampleTwice.exchange 6 ⟨[]⟩,
      sampleTwice.sockets (sampleTwice.exchange 6 ⟨[]⟩) sockets) [] :=
    .exchanged rfl (fun z hz => absurd hz List.not_mem_nil) rfl
  have hleft := (hall _ hnext).failed _ [] _ (List.prefix_append [_, _] past).isInfix hfails
  have hconnecting : sampleTwice.state = .connecting := hleft.connecting rfl
  cases hconnecting

end DarwinCore.Network
