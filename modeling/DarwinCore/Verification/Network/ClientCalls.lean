import DarwinCore.Verification.Network.ClientConnections

/-! # One connection at a time

In every run of a client, whatever its threads do, there is at most one connection on its way from
`Connect` to the delivery of `kDisconnected`, and while there is one the client is not
disconnected. So `SetConnection` never finds a connection. -/

namespace DarwinCore.Network

open ClientReactor Client

/-! ## The reactor of a client -/

namespace Client

/-- Only the calls, the state and the log of the client have changed. -/
structure Keeps (c c' : Client) : Prop where
  reactor : c'.reactor = c.reactor
  events : c'.events = c.events
  received : c'.received = c.received

theorem exchange_keeps (fd : ℤ) (addr : SockAddr) (c : Client) : c.Keeps (c.exchange fd addr) := by
  unfold exchange
  split <;> exact ⟨rfl, rfl, rfl⟩

theorem connect_keeps (fd : ℤ) (addr : SockAddr) (success : Bool) (c : Client) :
    c.Keeps (c.connect fd addr success) := by
  unfold connect
  split <;> exact ⟨rfl, rfl, rfl⟩

theorem initReactor_keeps (fd : ℤ) (success : Bool) (c : Client) :
    c.Keeps (c.initReactor fd success) := by
  unfold initReactor
  split
  · exact ⟨rfl, rfl, rfl⟩
  · split <;> exact ⟨rfl, rfl, rfl⟩

theorem afterSetConnection_keeps (fd : ℤ) (success : Bool) (c : Client) :
    c.Keeps (c.afterSetConnection fd success) := by
  unfold afterSetConnection
  split <;> exact ⟨rfl, rfl, rfl⟩

theorem swap_keeps (timeout : Option ℤ) (c : Client) : c.Keeps (c.swap timeout) := by
  unfold swap
  dsimp only
  split <;> exact ⟨rfl, rfl, rfl⟩

theorem poll_keeps (timeout : ℤ) (elapsed : Bool) (c : Client) :
    c.Keeps (c.poll timeout elapsed) := by
  unfold poll
  split
  · exact ⟨rfl, rfl, rfl⟩
  · split
    · exact ⟨rfl, rfl, rfl⟩
    · split <;> exact ⟨rfl, rfl, rfl⟩

theorem exchange_state (fd : ℤ) (addr : SockAddr) (c : Client) :
    (c.exchange fd addr).state = .connecting := by
  unfold exchange
  split <;> rfl

theorem connect_state (fd : ℤ) (addr : SockAddr) (success : Bool) (c : Client) :
    (c.connect fd addr success).state = c.state := by
  unfold connect
  split <;> rfl

theorem initReactor_state (fd : ℤ) (success : Bool) (c : Client) :
    (c.initReactor fd success).state = c.state := by
  unfold initReactor
  split
  · rfl
  · split <;> rfl

theorem afterSetConnection_state (fd : ℤ) (success : Bool) (c : Client) :
    (c.afterSetConnection fd success).state = c.state := by
  unfold afterSetConnection
  split <;> rfl

theorem swap_state (timeout : Option ℤ) (c : Client) :
    (c.swap timeout).state = c.state ∨ (c.swap timeout).state = .closing := by
  unfold swap
  dsimp only
  split
  · exact .inr rfl
  · exact .inl rfl
  · exact .inl rfl

theorem poll_state (timeout : ℤ) (elapsed : Bool) (c : Client) :
    (c.poll timeout elapsed).state = c.state := by
  unfold poll
  split
  · rfl
  · split
    · rfl
    · split <;> rfl

theorem onNetworkEvent_keeps (event : NetworkEvent) (c : Client) :
    c.Keeps (c.onNetworkEvent event) := by
  cases event <;> exact ⟨rfl, rfl, rfl⟩

end Client

/-- What holds of a reactor when it is made and is kept by its steps holds of the reactor of a
client. -/
theorem Client.Step.embeds {I : ClientSystem → Prop} {c c' : Client} (hstep : Client.Step c c')
    (hstarted : ∀ fds, I { reactor := ClientReactor.started .workerPool fds })
    (hunstarted : ∀ kqueueOpen, I (.unstarted kqueueOpen))
    (hkept : ∀ s t, I s → ClientSystem.Step s t → I t) (h : ∀ s, c.reactor = some s → I s) :
    ∀ s, c'.reactor = some s → I s := by
  have hone {s t : ClientSystem} (hreactor : c.reactor = some s) (hstep : ClientSystem.Step s t)
      (t' : ClientSystem) (heq : some t = some t') : I t' :=
    Option.some.inj heq ▸ hkept s t (h s hreactor) hstep
  cases hstep with
  | exchange hcall => exact (exchange_keeps _ _ c).reactor ▸ h
  | connect success hcall => exact (connect_keeps _ _ success c).reactor ▸ h
  | initReactor success hcall => exact (initReactor_keeps _ success c).reactor ▸ h
  | startReactor fds hcall =>
    intro s hs
    exact Option.some.inj hs ▸ hstarted fds
  | startFails kqueueOpen hcall =>
    intro s hs
    exact Option.some.inj hs ▸ hunstarted kqueueOpen
  | setConnection hreactor hcall => exact hone hreactor (.setConnection _ _)
  | setConnectionReturned hreactor howners hcall =>
    rw [(afterSetConnection_keeps _ _ _).reactor]
    exact hone hreactor (.setConnectionReturned howners)
  | swap hcall => exact (swap_keeps _ c).reactor ▸ h
  | poll elapsed hcall => exact (poll_keeps _ elapsed c).reactor ▸ h
  | stop hreactor hrunning hcall => exact hone hreactor (.stop hrunning)
  | reset hreactor hcall => exact fun _ hs => (Option.some_ne_none _ hs.symm).elim
  | stopped hreactor hstopped hcall => exact fun _ hs => (Option.some_ne_none _ hs.symm).elim
  | @deliver event rest hevents => exact (onNetworkEvent_keeps event c).reactor ▸ h
  | request hreactor hsenders hsized hrequest => exact hone hreactor (.request _ hsized hrequest)
  | react hreactor hinner => exact hone hreactor hinner.step
  | _ => exact h

theorem Client.Step.housed {c c' : Client} (hstep : Client.Step c c')
    (h : ∀ s, c.reactor = some s → s.Housed) : ∀ s, c'.reactor = some s → s.Housed :=
  hstep.embeds ClientSystem.started_housed ClientSystem.unstarted_housed
    (fun _ _ hs hstep => hstep.housed hs) h

theorem clients_housed {states : List Client} (hrun : clients.Run states) :
    ∀ c ∈ states, ∀ s, c.reactor = some s → s.Housed := by
  refine hrun.invariant ?_ fun c c' h (hstep : Client.Step c c') => hstep.housed h
  rintro c rfl s hs
  exact (Option.some_ne_none s hs.symm).elim

/-! ## The calls -/

/-- One if `ConnectInternal` has changed the state and not yet called `SetConnection`, or has to
change it back. -/
def ClientCall.preparing : ClientCall → ℕ
  | connecting _ _ => 1
  | initializing _ => 1
  | starting _ => 1
  | calling _ => 1
  | failing => 1
  | _ => 0

/-- The same, until `kDisconnected` has been delivered. -/
def Client.connections (c : Client) : ℕ :=
  c.call.preparing + c.reactor.elim 0 ClientSystem.connections +
    c.events.countP NetworkEvent.isDisconnected

/-- Where nothing is assumed of the reactor. -/
def ClientCall.IsOrdinary : ClientCall → Prop
  | starting _ => False
  | setting _ => False
  | stopping _ => False
  | draining _ => False
  | storing _ => False
  | _ => True

/-- `SetConnection` runs while `ConnectInternal` waits for it. -/
def Client.Attends (c : Client) (s : ClientSystem) : Prop :=
  match c.call with
  | .setting fd => ∃ peer phase, s.owners = [.setting fd peer phase] ∧
      ∀ removal, phase ≠ .removing removal
  | _ => s.owners = []

/-- The reactor is as far as the call says, and at most one connection is on its way. -/
structure Client.Wired (c : Client) : Prop where
  owners : ∀ s, c.reactor = some s → c.Attends s
  closes : ∀ s, c.reactor = some s → s.loop.Closes → s.reactor.hasConnection = true
  stopping : ∀ s, c.reactor = some s → s.stopping = .notCalled ∨
    ∃ graceful, c.call = .stopping graceful
  absent : c.reactor = none → c.events = [] ∨ ∃ graceful, c.call = .draining graceful
  starting : ∀ fd, c.call = .starting fd → c.reactor = none
  gone : ∀ graceful, c.call = .draining graceful ∨ c.call = .storing graceful → c.reactor = none
  faultless : ∀ id error code, .error id error code ∉ c.events
  one : c.connections ≤ 1
  state : c.state = .disconnected → c.connections = 0

namespace Client

variable {c c' : Client}

theorem attends_ordinary {s : ClientSystem} (h : ∀ fd, c.call ≠ .setting fd) :
    c.Attends s ↔ s.owners = [] := by
  unfold Attends
  split
  · rename_i fd hcall
    exact absurd hcall (h fd)
  · rfl

theorem connections_keeps (h : c.Keeps c') :
    c'.connections + c.call.preparing = c.connections + c'.call.preparing := by
  rw [connections, connections, h.reactor, h.events]
  omega

/-- A call goes on without touching the reactor. -/
theorem Wired.goesOn (h : c.Wired) (hkeeps : c.Keeps c') (hbefore : c.call.IsOrdinary)
    (hafter : c'.call.IsOrdinary)
    (hone : c'.call.preparing ≤ c.call.preparing ∨ c.state = .disconnected)
    (hpreparing : c'.call.preparing ≤ 1)
    (hstate : c'.state = .disconnected → c.state = .disconnected ∧
      c'.call.preparing ≤ c.call.preparing ∨ c'.call.preparing < c.call.preparing) : c'.Wired := by
  have hcount := connections_keeps hkeeps
  have hzero := h.state
  have hle := h.one
  have hnot {call : ClientCall} (hcall : call.IsOrdinary) (fd : ℤ) : call ≠ .setting fd := by
    rintro rfl
    exact hcall
  refine ⟨fun s hs => ?_, hkeeps.reactor ▸ h.closes, fun s hs => .inl ?_, fun hnone => .inl ?_,
    fun fd hcall => ?_, fun graceful hcall => ?_, hkeeps.events ▸ h.faultless, ?_,
    fun hdisconnected => ?_⟩
  · exact (attends_ordinary (hnot hafter)).mpr
      ((attends_ordinary (hnot hbefore)).mp (h.owners s (hkeeps.reactor ▸ hs)))
  · refine (h.stopping s (hkeeps.reactor ▸ hs)).resolve_right ?_
    rintro ⟨graceful, hcall⟩
    rw [hcall] at hbefore
    exact hbefore
  · rw [hkeeps.events]
    refine (h.absent (hkeeps.reactor ▸ hnone)).resolve_right ?_
    rintro ⟨graceful, hcall⟩
    rw [hcall] at hbefore
    exact hbefore
  · rw [hcall] at hafter
    exact hafter.elim
  · rcases hcall with hcall | hcall <;>
    · rw [hcall] at hafter
      exact hafter.elim
  · rcases hone with hless | hdisconnected
    · omega
    · have hnone := hzero hdisconnected
      omega
  · rcases hstate hdisconnected with ⟨hsame, hless⟩ | hless
    · have hnone := hzero hsame
      omega
    · omega

/-- There is at most one thread inside the reactor that sets the connection. -/
theorem Attends.lone {s : ClientSystem} (h : c.Attends s) : s.Lone ∧ s.Removeless := by
  unfold Attends at h
  split at h
  · rename_i fd hcall
    obtain ⟨peer, phase, howners, hremoving⟩ := h
    refine ⟨.inr ⟨fd, peer, phase, howners⟩, fun fd' peer' removal hmem => ?_⟩
    rw [howners, List.mem_singleton] at hmem
    cases hmem
    exact hremoving removal rfl
  · refine ⟨.inl h, fun fd peer removal hmem => ?_⟩
    rw [h] at hmem
    cases hmem

theorem Attends.setting {s : ClientSystem} {fd : ℤ} {peer : SockAddr} {phase : Setting}
    (h : c.Attends s) (howners : s.owners = [.setting fd peer phase]) : c.call = .setting fd := by
  unfold Attends at h
  split at h
  · rename_i fd' hcall
    obtain ⟨peer', phase', howners', -⟩ := h
    rw [howners] at howners'
    cases howners'
    exact hcall
  · rw [howners] at h
    cases h

theorem connections_react {s t : ClientSystem} (hreactor : c.reactor = some s) :
    (c.react s t).connections + s.connections =
      c.connections + (t.connections + (s.submits t).countP NetworkEvent.isDisconnected) := by
  have hbefore : c.reactor.elim 0 ClientSystem.connections = s.connections := by rw [hreactor]; rfl
  have hafter : (c.react s t).reactor.elim 0 ClientSystem.connections = t.connections := rfl
  have hevents : (c.react s t).events.countP NetworkEvent.isDisconnected =
      c.events.countP NetworkEvent.isDisconnected +
        (s.submits t).countP NetworkEvent.isDisconnected := List.countP_append
  have hcall : (c.react s t).call.preparing = c.call.preparing := rfl
  rw [connections, connections, hbefore, hafter, hevents, hcall]
  omega

theorem connections_le {s : ClientSystem} (hreactor : c.reactor = some s) :
    s.connections ≤ c.connections := by
  have hbefore : c.reactor.elim 0 ClientSystem.connections = s.connections := by rw [hreactor]; rfl
  rw [connections, hbefore]
  omega

theorem Wired.reacts {s t : ClientSystem} (h : c.Wired) (hreactor : c.reactor = some s)
    (hhoused : s.Housed) (hinner : s.Inner t) : (c.react s t).Wired := by
  have hattends := h.owners s hreactor
  obtain ⟨hlone, hremoveless⟩ := hattends.lone
  have hone : s.connections ≤ 1 := (connections_le hreactor).trans h.one
  have hcloses := h.closes s hreactor
  have hturn := hinner.turn hlone hhoused.returns hhoused.pool
  have hless := hturn.connections hone hremoveless hcloses hhoused.pool hinner.accepted
  have hcount := connections_react (t := t) hreactor
  have hsame (howners : t.owners = s.owners) : (c.react s t).Attends t := by
    unfold Attends at hattends ⊢
    rw [howners]
    exact hattends
  refine ⟨fun t' ht' => ?_, fun t' ht' => ?_, fun t' ht' => ?_, nofun, fun fd hcall => ?_,
    fun graceful hcall => ?_, fun id error code hmem => ?_, ?_, fun hstate => ?_⟩
  · cases ht'
    cases hturn with
    | rests hhas howners hcloses' howes hreads hsubmits => exact hsame howners
    | begins hhas hreactor' howners hbefore hafter => exact hsame howners
    | clears hhas howners hbefore hafter hsubmits => exact hsame howners
    | tells hhas howners hbefore hafter hsubmits => exact hsame howners
    | @sets env fd peer phase howners ht =>
      have hsetting := ClientSystem.Turn.setting env howners ht hone hremoveless hhoused.pool
        hinner.accepted
      have hcall : (c.react s t).call = .setting fd := hattends.setting howners
      rw [Attends, hcall]
      exact ⟨peer, _, congrArg ClientSystem.owners ht, hsetting.not_removing⟩
    | ends hhas howners hloop hsubmits hstopping => exact hsame howners
  · cases ht'
    intro hafter
    cases hturn with
    | rests hhas howners hcloses' howes hreads hsubmits =>
      exact hhas.trans (hcloses (hcloses'.mp hafter))
    | begins hhas hreactor' howners hbefore hafter => exact hreactor' ▸ hhas
    | clears hhas howners hbefore hafter' hsubmits => exact absurd hafter hafter'.1
    | tells hhas howners hbefore hafter' hsubmits => exact absurd hafter hafter'.not_closes
    | @sets env fd peer phase howners ht =>
      have hsetting := ClientSystem.Turn.setting env howners ht hone hremoveless hhoused.pool
        hinner.accepted
      have hloop : t.loop = s.loop := by rw [ht]
      exact hsetting.keeps (hcloses (hloop ▸ hafter))
    | ends hhas howners hloop hsubmits hstopping =>
      rw [hloop, hhoused.joined (hstopping ▸ trivial)] at hafter
      exact hafter.elim
  · cases ht'
    exact (h.stopping s hreactor).imp_left hinner.stopping
  · rw [h.starting fd hcall] at hreactor
    cases hreactor
  · rw [h.gone graceful hcall] at hreactor
    cases hreactor
  · rcases List.mem_append.mp hmem with hold | hnew
    · exact h.faultless id error code hold
    · exact hturn.faultless hone hremoveless hhoused.pool hinner.accepted id error code hnew
  · have hle := h.one
    omega
  · have hzero := h.state hstate
    omega

/-- The reactor is replaced by one without a connection, or goes. -/
theorem Wired.replaces (h : c.Wired) (hevents : c'.events = c.events)
    (hreactor : ∀ s, c'.reactor = some s → s.owners = [] ∧ s.connections = 0 ∧
      ¬s.loop.Closes ∧ s.stopping = .notCalled)
    (hcall : ∀ fd, c'.call ≠ .starting fd ∧ c'.call ≠ .setting fd)
    (habsent : c'.reactor = none → c.events = [] ∨ ∃ graceful, c'.call = .draining graceful)
    (hgone : ∀ graceful, c'.call = .draining graceful ∨ c'.call = .storing graceful →
      c'.reactor = none)
    (hpreparing : c'.call.preparing ≤ c.call.preparing) (hstate : c'.state = c.state) :
    c'.Wired := by
  have hnone : c'.reactor.elim 0 ClientSystem.connections = 0 := by
    cases hc' : c'.reactor with
    | none => rfl
    | some s => exact (hreactor s hc').2.1
  have hcount : c'.connections ≤ c.connections := by
    rw [connections, connections, hnone, hevents]
    omega
  refine ⟨fun s hs => ?_, fun s hs hcloses => ?_, fun s hs => .inl (hreactor s hs).2.2.2,
    hevents ▸ habsent, fun fd heq => absurd heq (hcall fd).1, hgone, hevents ▸ h.faultless,
    hcount.trans h.one, fun hdisconnected => ?_⟩
  · exact (attends_ordinary fun fd => (hcall fd).2).mpr (hreactor s hs).1
  · exact absurd hcloses (hreactor s hs).2.2.1
  · exact Nat.le_zero.mp ((h.state (hstate ▸ hdisconnected)) ▸ hcount)

theorem Wired.exchanges (h : c.Wired) {fd : ℤ} {addr : SockAddr}
    (hcall : c.call = .exchanging fd addr) : (c.exchange fd addr).Wired := by
  have hordinary : c.call.IsOrdinary := hcall ▸ trivial
  have hzero : c.call.preparing = 0 := by rw [hcall]; rfl
  have hkeeps := exchange_keeps fd addr c
  revert hkeeps
  unfold exchange
  by_cases hstate : c.state = .disconnected
  · rw [if_neg (not_not.mpr hstate)]
    exact fun hkeeps => h.goesOn hkeeps hordinary trivial (.inr hstate) (Nat.le_refl 1) nofun
  · rw [if_pos hstate]
    exact fun hkeeps => h.goesOn hkeeps hordinary trivial (.inl (Nat.zero_le _))
      (Nat.zero_le 1) nofun

theorem Wired.connects (h : c.Wired) {fd : ℤ} {addr : SockAddr} (success : Bool)
    (hcall : c.call = .connecting fd addr) : (c.connect fd addr success).Wired := by
  have hordinary : c.call.IsOrdinary := hcall ▸ trivial
  have hone : 1 ≤ c.call.preparing := by rw [hcall]; exact Nat.le_refl 1
  have hkeeps := connect_keeps fd addr success c
  revert hkeeps
  unfold connect
  cases success with
  | false =>
    rw [if_pos Bool.false_ne_true]
    exact fun hkeeps => h.goesOn hkeeps hordinary trivial (.inl hone) (Nat.le_refl 1)
      fun hsame => .inl ⟨hsame, hone⟩
  | true =>
    rw [if_neg (not_not.mpr rfl)]
    exact fun hkeeps => h.goesOn hkeeps hordinary trivial (.inl hone) (Nat.le_refl 1)
      fun hsame => .inl ⟨hsame, hone⟩

/-- `InitReactor` has started a worker pool. -/
theorem Wired.starts (h : c.Wired) {fd : ℤ} (hcall : c.call = .initializing fd)
    (hnone : c.reactor = none) :
    Wired { c with workerPool := true, call := .starting fd } := by
  have hevents : c.events = [] := by
    refine (h.absent hnone).resolve_right ?_
    rintro ⟨graceful, hdraining⟩
    rw [hcall] at hdraining
    cases hdraining
  have hcount : connections { c with workerPool := true, call := .starting fd } =
      c.connections := by
    rw [connections, connections, hcall]
    rfl
  have hvacuous {s : ClientSystem} (hs : c.reactor = some s) : False := by
    rw [hnone] at hs
    cases hs
  exact ⟨fun s hs => (hvacuous hs).elim, fun s hs => (hvacuous hs).elim,
    fun s hs => (hvacuous hs).elim, fun _ => .inl hevents, fun _ _ => hnone, nofun, h.faultless,
    hcount ▸ h.one, hcount ▸ h.state⟩

theorem Wired.initializes (h : c.Wired) {fd : ℤ} (success : Bool)
    (hcall : c.call = .initializing fd) : (c.initReactor fd success).Wired := by
  have hordinary : c.call.IsOrdinary := hcall ▸ trivial
  have hone : 1 ≤ c.call.preparing := by rw [hcall]; exact Nat.le_refl 1
  have hkeeps := initReactor_keeps fd success c
  revert hkeeps
  unfold initReactor
  by_cases hsome : c.reactor.isSome = true
  · rw [if_pos hsome]
    exact fun hkeeps => h.goesOn hkeeps hordinary trivial (.inl hone) (Nat.le_refl 1)
      fun hsame => .inl ⟨hsame, hone⟩
  · rw [if_neg hsome]
    cases success with
    | false =>
      rw [if_pos Bool.false_ne_true]
      exact fun hkeeps => h.goesOn hkeeps hordinary trivial (.inl hone) (Nat.le_refl 1)
        fun hsame => .inl ⟨hsame, hone⟩
    | true =>
      rw [if_neg (not_not.mpr rfl)]
      exact fun _ => h.starts hcall (Option.not_isSome_iff_eq_none.mp hsome)

theorem Wired.swaps (h : c.Wired) {timeout : Option ℤ} (hcall : c.call = .swapping timeout) :
    (c.swap timeout).Wired := by
  have hordinary : c.call.IsOrdinary := hcall ▸ trivial
  have hkeeps := swap_keeps timeout c
  have hcalls : (c.swap timeout).call.IsOrdinary ∧ (c.swap timeout).call.preparing = 0 := by
    unfold swap
    dsimp only
    cases timeout with
    | none => split <;> exact ⟨trivial, rfl⟩
    | some timeout => split <;> exact ⟨trivial, rfl⟩
  have hstate (hdisconnected : (c.swap timeout).state = .disconnected) :
      c.state = .disconnected := by
    rcases swap_state timeout c with hsame | hclosing
    · exact hsame.symm.trans hdisconnected
    · rw [hclosing] at hdisconnected
      cases hdisconnected
  have hzero := hcalls.2
  refine h.goesOn hkeeps hordinary hcalls.1 (.inl ?_) ?_ fun hdisconnected =>
    .inl ⟨hstate hdisconnected, ?_⟩ <;> omega

theorem Wired.polls (h : c.Wired) {timeout : ℤ} (elapsed : Bool)
    (hcall : c.call = .polling timeout) : (c.poll timeout elapsed).Wired := by
  have hordinary : c.call.IsOrdinary := hcall ▸ trivial
  have hkeeps := poll_keeps timeout elapsed c
  have hcalls : (c.poll timeout elapsed).call.IsOrdinary ∧
      (c.poll timeout elapsed).call.preparing = 0 := by
    unfold poll
    split
    · exact ⟨trivial, rfl⟩
    · split
      · exact ⟨trivial, rfl⟩
      · split
        · exact ⟨trivial, rfl⟩
        · exact ⟨hordinary, by rw [hcall]; rfl⟩
  obtain ⟨hafter, hzero⟩ := hcalls
  refine h.goesOn hkeeps hordinary hafter (.inl ?_) ?_ fun hdisconnected =>
    .inl ⟨(poll_state timeout elapsed c).symm.trans hdisconnected, ?_⟩ <;> omega

/-- `SetConnection` is called. -/
theorem Wired.callsSet (h : c.Wired) {s : ClientSystem} {fd : ℤ} (hreactor : c.reactor = some s)
    (hcall : c.call = .calling fd) :
    Wired { c with
      reactor := some { s with owners := .setting fd c.peer .entering :: s.owners }
      call := .setting fd } := by
  have howners : s.owners = [] := by
    refine (attends_ordinary fun fd' hsetting => ?_).mp (h.owners s hreactor)
    rw [hcall] at hsetting
    cases hsetting
  have hcount : connections { c with
      reactor := some { s with owners := .setting fd c.peer .entering :: s.owners }
      call := .setting fd } = c.connections := by
    have hs : c.reactor.elim 0 ClientSystem.connections = s.connections := by rw [hreactor]; rfl
    rw [connections, connections, hs, hcall, howners, ClientSystem.connections, howners]
    simp only [ClientCall.preparing, Option.elim_some, ClientSystem.connections,
      ConnectionCaller.countP_setting, Setting.isUndone, List.countP_nil, Bool.toNat_true]
    omega
  refine ⟨fun t ht => ?_, fun t ht => ?_, fun t ht => ?_, by simp, by simp, by simp, h.faultless,
    hcount ▸ h.one, hcount ▸ h.state⟩
  · cases ht
    rw [howners]
    exact ⟨c.peer, .entering, rfl, by simp⟩
  · cases ht
    exact h.closes s hreactor
  · cases ht
    refine .inl ((h.stopping s hreactor).resolve_right ?_)
    rintro ⟨graceful, hstopping⟩
    rw [hcall] at hstopping
    cases hstopping

theorem Wired.returnsSet (h : c.Wired) {s : ClientSystem} {fd : ℤ} {peer : SockAddr}
    {success : Bool} {before after : List ConnectionCaller} (hreactor : c.reactor = some s)
    (howners : s.owners = before ++ .setting fd peer (.returned success) :: after)
    (hcall : c.call = .setting fd) :
    Wired (Client.afterSetConnection fd success
      { c with reactor := some { s with owners := before ++ after } }) := by
  have hattends := h.owners s hreactor
  rw [Attends, hcall] at hattends
  obtain ⟨peer', phase, hone, -⟩ := hattends
  obtain ⟨rfl, rfl⟩ : before = [] ∧ after = [] := ClientSystem.eq_singleton (by simp [hone]) howners
  rw [List.nil_append] at howners
  have hs : c.reactor.elim 0 ClientSystem.connections = s.connections := by rw [hreactor]; rfl
  have hcount : connections (Client.afterSetConnection fd success
      { c with reactor := some { s with owners := [] ++ [] } }) = c.connections := by
    rw [connections, connections, hs, hcall, ClientSystem.connections, howners,
      ConnectionCaller.countP_setting]
    cases success <;>
      simp only [afterSetConnection, closeSocket, ClientCall.preparing, Option.elim_some,
        ClientSystem.connections, Setting.isUndone, List.append_nil, List.countP_nil,
        Bool.toNat_true, Bool.toNat_false, if_true, if_false, Bool.false_eq_true, not_true,
        not_false_iff]
    omega
  have hnotCalled : s.stopping = .notCalled := by
    refine (h.stopping s hreactor).resolve_right ?_
    rintro ⟨graceful, hstopping⟩
    rw [hcall] at hstopping
    cases hstopping
  have hstate : c.state = .disconnected → connections (Client.afterSetConnection fd success
      { c with reactor := some { s with owners := [] ++ [] } }) = 0 := hcount ▸ h.state
  have hle := hcount ▸ h.one
  cases success with
  | false =>
    refine ⟨fun t ht => ?_, fun t ht => ?_, fun t ht => ?_, fun hnone => ?_,
      fun _ hstarting => ?_, fun _ hgone => ?_, h.faultless, hle, hstate⟩
    · cases ht
      rfl
    · cases ht
      exact h.closes s hreactor
    · cases ht
      exact .inl hnotCalled
    · cases hnone
    · cases hstarting
    · rcases hgone with hgone | hgone <;> cases hgone
  | true =>
    refine ⟨fun t ht => ?_, fun t ht => ?_, fun t ht => ?_, fun hnone => ?_,
      fun _ hstarting => ?_, fun _ hgone => ?_, h.faultless, hle, hstate⟩
    · cases ht
      rfl
    · cases ht
      exact h.closes s hreactor
    · cases ht
      exact .inl hnotCalled
    · cases hnone
    · cases hstarting
    · rcases hgone with hgone | hgone <;> cases hgone

/-- `Stop` begins. -/
theorem Wired.stops (h : c.Wired) {s : ClientSystem} {graceful : Bool}
    (hreactor : c.reactor = some s) (hcall : c.call = .cleaning graceful) :
    Wired { c with
      reactor := some { s with
        reactor := { s.reactor with isRunning := false }
        stopping := .flagged }
      call := .stopping graceful } := by
  have howners : s.owners = [] := by
    refine (attends_ordinary fun fd' hsetting => ?_).mp (h.owners s hreactor)
    rw [hcall] at hsetting
    cases hsetting
  have hcount : connections { c with
      reactor := some { s with
        reactor := { s.reactor with isRunning := false }
        stopping := .flagged }
      call := .stopping graceful } = c.connections := by
    rw [connections, connections, hreactor, hcall]
    rfl
  refine ⟨fun t ht => ?_, fun t ht => ?_, fun _ _ => .inr ⟨graceful, rfl⟩, nofun, nofun, nofun,
    h.faultless, hcount ▸ h.one, hcount ▸ h.state⟩
  · cases ht
    exact howners
  · cases ht
    exact h.closes s hreactor

theorem Wired.delivers (h : c.Wired) {event : NetworkEvent} {rest : List NetworkEvent}
    (hevents : c.events = event :: rest) : (c.deliver event rest).Wired := by
  have hkeeps := onNetworkEvent_keeps event c
  have hreactor : (c.deliver event rest).reactor = c.reactor := hkeeps.reactor
  have hcall : (c.deliver event rest).call = c.call := by cases event <;> rfl
  have hcount : (c.deliver event rest).connections + event.isDisconnected.toNat =
      c.connections := by
    have hrest : (c.deliver event rest).events = rest := rfl
    rw [connections, connections, hreactor, hcall, hrest, hevents, List.countP_cons]
    cases event <;> rfl
  have hle := h.one
  refine ⟨fun s hs => ?_, hreactor ▸ h.closes, fun s hs => ?_, fun hnone => ?_, fun fd heq => ?_,
    fun graceful heq => ?_, fun id error code hmem => ?_, ?_, fun hstate => ?_⟩
  · have hattends := h.owners s (hreactor ▸ hs)
    unfold Attends at hattends ⊢
    rw [hcall]
    exact hattends
  · exact hcall ▸ h.stopping s (hreactor ▸ hs)
  · rcases h.absent (hreactor ▸ hnone) with hempty | hdraining
    · rw [hevents] at hempty
      cases hempty
    · exact .inr (hcall ▸ hdraining)
  · exact hreactor ▸ h.starting fd (hcall ▸ heq)
  · exact hreactor ▸ h.gone graceful (hcall ▸ heq)
  · exact h.faultless id error code (hevents ▸ List.mem_cons_of_mem event hmem)
  · omega
  · cases event with
    | connected id peer => cases hstate
    | data id payload =>
      have hzero := h.state hstate
      omega
    | disconnected id =>
      have hone : (NetworkEvent.disconnected id).isDisconnected.toNat = 1 := rfl
      omega
    | error id error code =>
      exact absurd (hevents ▸ List.mem_cons_self) (h.faultless id error code)

/-- `GracefulShutdown` or `Disconnect` ends. -/
theorem Wired.finishes (h : c.Wired) {graceful : Bool} (hcall : c.call = .storing graceful) :
    (c.finish graceful).Wired := by
  have hreactor := h.gone graceful (.inr hcall)
  have hevents : c.events = [] := by
    refine (h.absent hreactor).resolve_right ?_
    rintro ⟨graceful', hdraining⟩
    rw [hcall] at hdraining
    cases hdraining
  have hcalls : (c.finish graceful).call.IsOrdinary ∧ (c.finish graceful).call.preparing = 0 := by
    cases graceful <;> exact ⟨trivial, rfl⟩
  have hcount : (c.finish graceful).connections = 0 := by
    have hreactor' : (c.finish graceful).reactor = none := hreactor
    have hevents' : (c.finish graceful).events = [] := hevents
    rw [connections, hcalls.2, hreactor', hevents']
    rfl
  have hvacuous {s : ClientSystem} (hs : c.reactor = some s) : False := by
    rw [hreactor] at hs
    cases hs
  refine ⟨fun s hs => (hvacuous hs).elim, fun s hs => (hvacuous hs).elim,
    fun s hs => (hvacuous hs).elim, fun _ => .inl hevents, fun fd heq => ?_, fun _ _ => hreactor,
    h.faultless, ?_, fun _ => hcount⟩
  · exact hreactor
  · rw [hcount]
    exact Nat.zero_le 1

end Client

theorem Client.Step.wired {c c' : Client} (hstep : Client.Step c c') (h : c.Wired)
    (hhoused : ∀ s, c.reactor = some s → s.Housed) : c'.Wired := by
  have hordinary {call call' : ClientCall} (hcall : c.call = call) (hbefore : call.IsOrdinary)
      (hafter : call'.IsOrdinary) (hless : call'.preparing ≤ call.preparing)
      (hone : call'.preparing ≤ 1) : Wired { c with call := call' } :=
    h.goesOn ⟨rfl, rfl, rfl⟩ (hcall ▸ hbefore) hafter (.inl (hcall ▸ hless)) hone
      fun hsame => .inl ⟨hsame, hcall ▸ hless⟩
  cases hstep with
  | refuse hcall => exact hordinary hcall trivial trivial (Nat.le_refl 0) (Nat.zero_le 1)
  | openSocket fd addr hfd hcall =>
    exact h.goesOn ⟨rfl, rfl, rfl⟩ (hcall ▸ trivial) trivial (.inl (Nat.zero_le _))
      (Nat.zero_le 1) fun hsame => .inl ⟨hsame, Nat.zero_le _⟩
  | exchange hcall => exact h.exchanges hcall
  | connect success hcall => exact h.connects success hcall
  | initReactor success hcall => exact h.initializes success hcall
  | startReactor fds hcall =>
    refine h.replaces rfl (fun s hs => ?_) (fun fd' => ⟨nofun, nofun⟩) nofun
      (fun graceful heq => ?_)
      (by rw [hcall]; exact Nat.le_refl 1) rfl
    · cases hs
      exact ⟨rfl, rfl, not_false, rfl⟩
    · rcases heq with heq | heq <;> cases heq
  | startFails kqueueOpen hcall =>
    refine h.replaces rfl (fun s hs => ?_) (fun fd' => ⟨nofun, nofun⟩) nofun
      (fun graceful heq => ?_)
      (by rw [hcall]; exact Nat.le_refl 1) rfl
    · cases hs
      exact ⟨rfl, rfl, not_false, rfl⟩
    · rcases heq with heq | heq <;> cases heq
  | setConnection hreactor hcall => exact h.callsSet hreactor hcall
  | setConnectionReturned hreactor howners hcall => exact h.returnsSet hreactor howners hcall
  | fail hcall =>
    exact h.goesOn ⟨rfl, rfl, rfl⟩ (hcall ▸ trivial) trivial (.inl (Nat.zero_le _))
      (Nat.zero_le 1) fun _ => .inr (by rw [hcall]; exact Nat.zero_lt_one)
  | connectReturned hcall => exact hordinary hcall trivial trivial (Nat.le_refl 0) (Nat.zero_le 1)
  | shutDown timeout hcall => exact hordinary hcall trivial trivial (Nat.le_refl 0) (Nat.zero_le 1)
  | swap hcall => exact h.swaps hcall
  | poll elapsed hcall => exact h.polls elapsed hcall
  | stop hreactor hrunning hcall => exact h.stops hreactor hcall
  | reset hreactor hcall =>
    exact h.replaces rfl (fun _ hs => (Option.some_ne_none _ hs.symm).elim)
      (fun fd' => ⟨nofun, nofun⟩) (fun _ => .inr ⟨_, rfl⟩) (fun _ _ => rfl) (Nat.zero_le _) rfl
  | stopped hreactor hstopped hcall =>
    exact h.replaces rfl (fun _ hs => (Option.some_ne_none _ hs.symm).elim)
      (fun fd' => ⟨nofun, nofun⟩) (fun _ => .inr ⟨_, rfl⟩) (fun _ _ => rfl) (Nat.zero_le _) rfl
  | drained hevents hcall =>
    have hreactor := h.gone _ (.inl hcall)
    refine h.replaces rfl (fun s hs => ?_) (fun fd' => ⟨nofun, nofun⟩) (fun _ => .inl hevents)
      (fun _ _ => hreactor) (Nat.zero_le _) rfl
    have hs' : c.reactor = some s := hs
    rw [hreactor] at hs'
    cases hs'
  | finish hcall => exact h.finishes hcall
  | shutdownReturned hcall => exact hordinary hcall trivial trivial (Nat.le_refl 0) (Nat.zero_le 1)
  | deliver hevents => exact h.delivers hevents
  | sendData data hconnected hreactor =>
    exact ⟨h.owners, h.closes, h.stopping, h.absent, h.starting,
      h.gone, h.faultless, h.one, h.state⟩
  | sendAsync data callback hconnected hreactor => exact ⟨h.owners, h.closes, h.stopping, h.absent,
      h.starting, h.gone, h.faultless, h.one, h.state⟩
  | measure hreactor hsenders => exact ⟨h.owners, h.closes, h.stopping, h.absent, h.starting,
      h.gone, h.faultless, h.one, h.state⟩
  | requestRefused hreactor hsenders hrequest => exact ⟨h.owners, h.closes, h.stopping, h.absent,
      h.starting, h.gone, h.faultless, h.one, h.state⟩
  | @request s req op before after hreactor hsenders hsized hrequest =>
    have hcount : connections { c with
        reactor := some { s with
          callers := .enqueueing op :: s.callers
          nextPromise := s.nextPromise + 1 }
        senders := before ++ after } = c.connections := by
      rw [connections, connections, hreactor]
      rfl
    refine ⟨fun t ht => ?_, fun t ht => ?_, fun t ht => ?_, nofun, fun fd hcall => ?_,
      fun graceful hcall => ?_, h.faultless, hcount ▸ h.one, hcount ▸ h.state⟩
    · cases ht
      exact h.owners s hreactor
    · cases ht
      exact h.closes s hreactor
    · cases ht
      exact h.stopping s hreactor
    · rw [h.starting fd hcall] at hreactor
      cases hreactor
    · rw [h.gone graceful hcall] at hreactor
      cases hreactor
  | react hreactor hinner => exact h.reacts hreactor (hhoused _ hreactor) hinner

theorem clients_wired {states : List Client} (hrun : clients.Run states) :
    ∀ c ∈ states, c.Wired := by
  refine hrun.invariant_of ?_ (fun c c' h hhoused (hstep : Client.Step c c') =>
    hstep.wired h hhoused) (clients_housed hrun)
  rintro c rfl
  have hvacuous {s : ClientSystem} (hs : none = some s) : False := Option.some_ne_none s hs.symm
  exact ⟨fun _ hs => (hvacuous hs).elim, fun _ hs => (hvacuous hs).elim,
    fun _ hs => (hvacuous hs).elim, fun _ => .inl rfl, nofun, fun _ _ => rfl,
    fun _ _ _ => List.not_mem_nil, Nat.zero_le 1, fun _ => rfl⟩

end DarwinCore.Network
