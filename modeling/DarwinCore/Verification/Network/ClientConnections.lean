import DarwinCore.Verification.Network.ClientTurns

/-! # The connections of a reactor

Those that `SetConnection` is setting, that are there, or that have gone without `kDisconnected`
having been dispatched. No step inside the reactor adds one. -/

namespace DarwinCore.Network

open ClientReactor

/-! ## The reactor of a client -/

namespace ClientSystem

/-- What holds of the reactor of a client, whether it has been started or not. -/
structure Housed (s : ClientSystem) : Prop where
  pool : s.reactor.receiver = .workerPool
  returns : s.loop.Returns
  joined : s.stopping.Joined → s.loop = .exited
  sound : s.Sound

variable {s t : ClientSystem}

theorem Step.returns (hstep : ClientSystem.Step s t) (h : s.loop.Returns) : t.loop.Returns := by
  cases hstep with
  | loop hloop => exact hloop.returns h
  | _ => exact h

theorem Step.joined (hstep : ClientSystem.Step s t) (h : s.stopping.Joined → s.loop = .exited)
    (ht : t.stopping.Joined) : t.loop = .exited := by
  cases hstep with
  | loop hloop => exact absurd (h ht) hloop.flags.2.2.2
  | stopMonitor hjoined hstopping => exact hjoined
  | stopClose hstopping => exact h (hstopping ▸ trivial)
  | stop hrunning => exact ht.elim
  | stopQueue hstopping => exact ht.elim
  | stopWake hstopping => exact ht.elim
  | stopShutdown hstopping => exact ht.elim
  | _ => exact h ht

theorem Step.housed (hstep : ClientSystem.Step s t) (h : s.Housed) : t.Housed :=
  ⟨hstep.receiver.trans h.pool, hstep.returns h.returns, hstep.joined h.joined, hstep.sound h.sound⟩

theorem started_housed (fds : Finset ℤ) :
    Housed { reactor := ClientReactor.started .workerPool fds } :=
  ⟨rfl, nofun, nofun, started_sound .workerPool fds⟩

theorem unstarted_housed (kqueueOpen : Bool) : Housed (unstarted kqueueOpen) :=
  ⟨rfl, nofun, nofun, SendBuffer.fresh_valid, nofun, nofun⟩

end ClientSystem

/-! ## Connections on their way -/

def ClientReactor.Setting.isUndone : Setting → Bool
  | .connecting => false
  | .returned true => false
  | _ => true

def ConnectionCaller.isUndone : ConnectionCaller → Bool
  | setting _ _ phase => phase.isUndone
  | removing _ => false

theorem ConnectionCaller.countP_setting (fd : ℤ) (peer : SockAddr) (phase : Setting) :
    [setting fd peer phase].countP isUndone = phase.isUndone.toNat := by
  rw [List.countP_singleton, isUndone]
  cases phase.isUndone <;> rfl

/-- One if `kDisconnected` has still to be dispatched. -/
def ClientLoop.debt : ClientLoop → ℕ
  | removing .disconnecting _ => 1
  | _ => 0

theorem ClientLoop.debt_owes {loop : ClientLoop} (h : loop.Owes) : loop.debt = 1 := by
  cases loop with
  | removing removal next =>
    cases removal with
    | disconnecting => rfl
    | _ => cases h
  | _ => cases h

theorem ClientLoop.debt_not_owes {loop : ClientLoop} (h : ¬loop.Owes) : loop.debt = 0 := by
  cases loop with
  | removing removal next =>
    cases removal with
    | disconnecting => exact absurd trivial h
    | _ => rfl
  | _ => rfl

/-- The connections that are being set, are there, or have gone and that has not been said. -/
def ClientSystem.connections (s : ClientSystem) : ℕ :=
  s.owners.countP ConnectionCaller.isUndone + s.reactor.hasConnection.toNat + s.loop.debt

namespace ClientSystem

variable {s t : ClientSystem}

theorem Turn.debt_eq (h : t.loop.Owes ↔ s.loop.Owes) : t.loop.debt = s.loop.debt := by
  by_cases howes : s.loop.Owes
  · rw [ClientLoop.debt_owes howes, ClientLoop.debt_owes (h.mpr howes)]
  · rw [ClientLoop.debt_not_owes howes, ClientLoop.debt_not_owes fun ht => howes (h.mp ht)]

/-- `SetConnection` does not remove a connection. -/
def Removeless (s : ClientSystem) : Prop :=
  ∀ fd peer removal, .setting fd peer (.removing removal) ∉ s.owners

/-- `SetConnection` finds no connection if at most one is on its way. -/
theorem finds_none {fd : ℤ} {peer : SockAddr} {setting : Setting} (hone : s.connections ≤ 1)
    (howners : s.owners = [.setting fd peer setting]) (hundone : setting.isUndone = true) :
    s.reactor.hasConnection = false ∧ s.loop.debt = 0 := by
  have hcount : s.owners.countP ConnectionCaller.isUndone = 1 := by
    rw [howners, ConnectionCaller.countP_setting, hundone]
    rfl
  rw [connections, hcount] at hone
  refine ⟨?_, by omega⟩
  cases hhas : s.reactor.hasConnection with
  | false => rfl
  | true =>
    rw [hhas, Bool.toNat_true] at hone
    omega

theorem Turn.setting (env : Environment) {fd : ℤ} {peer : SockAddr} {setting : Setting}
    (howners : s.owners = [.setting fd peer setting])
    (ht : t = { s with
      reactor := (s.reactor.setConnection env fd peer setting).2
      owners := [.setting fd peer (s.reactor.setConnection env fd peer setting).1] })
    (hone : s.connections ≤ 1) (hremoveless : s.Removeless)
    (hpool : s.reactor.receiver = .workerPool)
    (haccepted : ∀ event, .refused event ∉ t.reactor.log) :
    SettingTurn s t fd setting (s.reactor.setConnection env fd peer setting).1 := by
  refine setting_turn env (congrArg ClientSystem.reactor ht) (fun hchecking => ?_)
    (fun removal hremoving => ?_) hpool haccepted
  · rw [hchecking] at howners
    exact (finds_none hone howners rfl).1
  · refine hremoveless fd peer removal ?_
    rw [howners, hremoving]
    exact List.mem_singleton_self _

theorem SettingTurn.not_removing {fd : ℤ} {setting setting' : Setting}
    (h : SettingTurn s t fd setting setting') (removal : Removal) :
    setting' ≠ .removing removal := by
  cases h with
  | prepares hbefore hafter hhas hsubmits => exact hafter.2.2 removal
  | _ => exact nofun

theorem SettingTurn.keeps {fd : ℤ} {setting setting' : Setting}
    (h : SettingTurn s t fd setting setting') (hhas : s.reactor.hasConnection = true) :
    t.reactor.hasConnection = true := by
  cases h with
  | prepares hbefore hafter hhas' hsubmits => exact hhas'.trans hhas
  | rejects hbefore hhas' hsubmits => exact hhas'.trans hhas
  | raises hhas' hsubmits => exact hhas'
  | announces hhas' hsubmits => exact hhas'.trans hhas
  | waits hreactor => exact hreactor ▸ hhas

theorem SettingTurn.submits {fd : ℤ} {setting setting' : Setting}
    (h : SettingTurn s t fd setting setting') :
    s.submits t = [] ∨ ∃ id peer, s.submits t = [.connected id peer] := by
  cases h with
  | prepares hbefore hafter hhas hsubmits => exact .inl hsubmits
  | rejects hbefore hhas hsubmits => exact .inl hsubmits
  | raises hhas hsubmits => exact .inl hsubmits
  | announces hhas hsubmits => exact .inr hsubmits
  | waits hreactor => exact .inl (submits_same (congrArg ClientReactor.log hreactor))

theorem SettingTurn.connections {fd : ℤ} {setting setting' : Setting}
    (h : SettingTurn s t fd setting setting') (hnone : setting.isUndone = true →
      s.reactor.hasConnection = false) :
    setting'.isUndone.toNat + t.reactor.hasConnection.toNat +
        (s.submits t).countP NetworkEvent.isDisconnected ≤
      setting.isUndone.toNat + s.reactor.hasConnection.toNat := by
  cases h with
  | prepares hbefore hafter hhas hsubmits =>
    have hundone {setting : Setting} (h : setting.IsPending) : setting.isUndone = true := by
      cases setting with
      | connecting => exact h.elim
      | returned success => exact h.elim
      | _ => rfl
    rw [hundone hbefore, hundone hafter.1, hhas, hsubmits, List.countP_nil, Nat.add_zero]
  | rejects hbefore hhas hsubmits =>
    have hundone : setting.isUndone = true := by
      rcases hbefore with ⟨rfl, -⟩ | rfl <;> rfl
    rw [hundone, hhas, hsubmits, List.countP_nil, Nat.add_zero]
    exact Nat.le_refl _
  | raises hhas hsubmits =>
    rw [hnone rfl, hhas, hsubmits]
    exact Nat.le_refl _
  | announces hhas hsubmits =>
    obtain ⟨id, peer, hsubmits⟩ := hsubmits
    rw [hhas, hsubmits]
    exact Nat.le_refl _
  | waits hreactor =>
    rw [submits_same (congrArg ClientReactor.log hreactor), hreactor]
    exact Nat.le_refl _

/-- No step inside the reactor adds a connection. -/
theorem Turn.connections (h : s.Turn t) (hone : s.connections ≤ 1) (hremoveless : s.Removeless)
    (hcloses : s.loop.Closes → s.reactor.hasConnection = true)
    (hpool : s.reactor.receiver = .workerPool)
    (haccepted : ∀ event, .refused event ∉ t.reactor.log) :
    t.connections + (s.submits t).countP NetworkEvent.isDisconnected ≤ s.connections := by
  cases h with
  | rests hhas howners hcloses howes hreads hsubmits =>
    have hcount : (s.submits t).countP NetworkEvent.isDisconnected = 0 := by
      rcases hsubmits with hnone | ⟨-, id, payload, hdata⟩
      · rw [hnone, List.countP_nil]
      · rw [hdata]
        rfl
    rw [hcount, ClientSystem.connections, ClientSystem.connections, hhas, howners,
      debt_eq howes, Nat.add_zero]
  | begins hhas hreactor howners hbefore hafter =>
    rw [submits_same (congrArg ClientReactor.log hreactor), ClientSystem.connections,
      ClientSystem.connections, hreactor, howners, ClientLoop.debt_not_owes hbefore,
      ClientLoop.debt_not_owes hafter.2.1]
    exact Nat.le_refl _
  | clears hhas howners hbefore hafter hsubmits =>
    rw [hsubmits, ClientSystem.connections, ClientSystem.connections, hhas, howners,
      hcloses hbefore.1, ClientLoop.debt_not_owes hbefore.2, ClientLoop.debt_owes hafter.2.1]
    exact Nat.le_refl _
  | tells hhas howners hbefore hafter hsubmits =>
    obtain ⟨id, hsubmits⟩ := hsubmits
    rw [hsubmits, ClientSystem.connections, ClientSystem.connections, hhas, howners,
      ClientLoop.debt_owes hbefore, ClientLoop.debt_not_owes hafter.not_owes]
    exact Nat.le_refl _
  | @sets env fd peer setting howners ht =>
    have hturn := Turn.setting env howners ht hone hremoveless hpool haccepted
    have hle := hturn.connections fun hundone => (finds_none hone howners hundone).1
    have hbefore : s.owners.countP ConnectionCaller.isUndone = setting.isUndone.toNat := by
      rw [howners, ConnectionCaller.countP_setting]
    have hafter : t.owners.countP ConnectionCaller.isUndone =
        (s.reactor.setConnection env fd peer setting).1.isUndone.toNat := by
      rw [congrArg ClientSystem.owners ht, ConnectionCaller.countP_setting]
    have hloop : t.loop = s.loop := by rw [ht]
    rw [ClientSystem.connections, ClientSystem.connections, hbefore, hafter, hloop]
    omega
  | ends hhas howners hloop hsubmits hstopping =>
    have hle : t.reactor.hasConnection.toNat ≤ s.reactor.hasConnection.toNat := by
      cases ht : t.reactor.hasConnection with
      | false => exact Nat.zero_le _
      | true => rw [hhas ht]
    rw [hsubmits, ClientSystem.connections, ClientSystem.connections, howners, hloop,
      List.countP_nil]
    omega

end ClientSystem

/-- A reactor does not submit `kError`. -/
theorem ClientSystem.Turn.faultless {s t : ClientSystem} (h : s.Turn t) (hone : s.connections ≤ 1)
    (hremoveless : s.Removeless) (hpool : s.reactor.receiver = .workerPool)
    (haccepted : ∀ event, .refused event ∉ t.reactor.log) (id : UInt64) (error : NetworkError)
    (code : Errno) : .error id error code ∉ s.submits t := by
  have hnil (hsubmits : s.submits t = []) : NetworkEvent.error id error code ∉ s.submits t := by
    rw [hsubmits]
    exact List.not_mem_nil
  have hsingle {event : NetworkEvent} (hsubmits : s.submits t = [event])
      (hevent : NetworkEvent.error id error code ≠ event) :
      NetworkEvent.error id error code ∉ s.submits t := by
    rw [hsubmits, List.mem_singleton]
    exact hevent
  cases h with
  | rests hhas howners hcloses howes hreads hsubmits =>
    rcases hsubmits with hnone | ⟨-, id, payload, hdata⟩
    · exact hnil hnone
    · exact hsingle hdata nofun
  | begins hhas hreactor howners hbefore hafter =>
    exact hnil (submits_same (congrArg ClientReactor.log hreactor))
  | clears hhas howners hbefore hafter hsubmits => exact hnil hsubmits
  | tells hhas howners hbefore hafter hsubmits =>
    obtain ⟨id, hsubmits⟩ := hsubmits
    exact hsingle hsubmits nofun
  | sets env howners ht =>
    have hturn := Turn.setting env howners ht hone hremoveless hpool haccepted
    rcases hturn.submits with hnone | ⟨id, peer, hsubmits⟩
    · exact hnil hnone
    · exact hsingle hsubmits nofun
  | ends hhas howners hloop hsubmits hstopping => exact hnil hsubmits

end DarwinCore.Network
