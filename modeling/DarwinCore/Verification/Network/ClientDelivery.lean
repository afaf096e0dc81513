import DarwinCore.Verification.Network.ClientFrame
import DarwinCore.Verification.Network.EndOfStream

/-! # What a client reactor does with the bytes it receives

As for the reactor, with one connection at a time. The loop learns the end of the stream, and
`RemoveConnection` follows in several steps. -/

namespace DarwinCore.Network

open History Streams

namespace ClientEffect

def dispatchedFor (id : UInt64) : ClientEffect → List UInt8
  | .dispatched event => event.payloadOf id
  | _ => []

/-- The bytes for `id` that the worker pool refuses. -/
def refusedFor (id : UInt64) : ClientEffect → List UInt8
  | .refused event => event.payloadOf id
  | _ => []

/-- The entry has no part in what is received and dispatched. -/
def Moot : ClientEffect → Prop
  | .received _ _ => False
  | .kevent _ change _ => change ≠ .addRead
  | .dispatched event => ∀ id, event.payloadOf id = []
  | .refused event => ∀ id, event.payloadOf id = []
  | _ => True

variable {id : UInt64} {fd : ℤ} {e : ClientEffect}

theorem Moot.registers (h : e.Moot) : e.registers fd = false := by
  cases e with
  | kevent fd' change success =>
    cases change with
    | addRead => exact absurd rfl h
    | _ => rfl
  | _ => rfl

theorem Moot.received (h : e.Moot) : e.receivedOn fd = [] := by
  cases e with
  | received fd' data => exact h.elim
  | _ => rfl

theorem Moot.dispatched (h : e.Moot) : e.dispatchedFor id = [] := by
  cases e with
  | dispatched event => exact h id
  | _ => rfl

theorem Moot.refused (h : e.Moot) : e.refusedFor id = [] := by
  cases e with
  | refused event => exact h id
  | _ => rfl

end ClientEffect

namespace ClientReactor

def got (r : ClientReactor) (fd : ℤ) : List UInt8 :=
  collect (ClientEffect.receivedOn fd) (since (ClientEffect.registers fd) r.log)

/-- The payloads of the `kData` events dispatched for `id` since then. -/
def delivered (r : ClientReactor) (id : UInt64) (fd : ℤ) : List UInt8 :=
  collect (ClientEffect.dispatchedFor id) (since (ClientEffect.registers fd) r.log)

/-- The payloads of the `kData` events for `id` that the worker pool has refused since then. -/
def lost (r : ClientReactor) (id : UInt64) (fd : ℤ) : List UInt8 :=
  collect (ClientEffect.refusedFor id) (since (ClientEffect.registers fd) r.log)

/-- What was received on `fd` was dispatched for `id`, or refused. -/
def Delivers (r : ClientReactor) (id : UInt64) (fd : ℤ) : Prop :=
  Shares (r.got fd) (r.delivered id fd) (r.lost id fd)

variable {r r' r'' : ClientReactor} {id : UInt64} {fd : ℤ}

theorem Grows.moot_got (h : Grows ClientEffect.Moot r r') : r'.got fd = r.got fd :=
  Extends.collect_since (fun _ he => ⟨he.registers, he.received⟩) h

theorem Grows.moot_delivered (h : Grows ClientEffect.Moot r r') :
    r'.delivered id fd = r.delivered id fd :=
  Extends.collect_since (fun _ he => ⟨he.registers, he.dispatched⟩) h

theorem Grows.moot_lost (h : Grows ClientEffect.Moot r r') : r'.lost id fd = r.lost id fd :=
  Extends.collect_since (fun _ he => ⟨he.registers, he.refused⟩) h

theorem Delivers.moot (h : r.Delivers id fd) (hgrows : Grows ClientEffect.Moot r r') :
    r'.Delivers id fd := by
  rw [Delivers, hgrows.moot_got, hgrows.moot_delivered, hgrows.moot_lost]
  exact h

theorem sends_moot {e : ClientEffect} (h : Sends fd e) : e.Moot := by
  cases e with
  | sent fd' data => trivial
  | kevent fd' change success => exact h.2
  | _ => cases h

theorem completes_moot {op : SendOperation} {e : ClientEffect} (h : Completes op e) :
    e.Moot := by
  cases e with
  | calledBack callback success sent => trivial
  | answered promise success => trivial
  | _ => cases h

theorem removes_moot {removal : Removal} {e : ClientEffect} (h : Removes removal id e) :
    e.Moot := by
  cases e with
  | closed fd' => trivial
  | dispatched event =>
    obtain ⟨-, rfl⟩ := h
    exact fun _ => rfl
  | refused event =>
    obtain ⟨-, rfl⟩ := h
    exact fun _ => rfl
  | _ => cases h

/-- `SetConnection` only registers the descriptor at one point. -/
theorem sets_moot {setting : Setting} {e : ClientEffect} (hsetting : setting ≠ .monitoring)
    (h : Sets fd setting id e) : e.Moot := by
  cases e with
  | closed fd' => trivial
  | kevent fd' change success => exact absurd h.1 hsetting
  | dispatched event => rcases h with rfl | ⟨peer, rfl⟩ <;> exact fun _ => rfl
  | refused event => rcases h with rfl | ⟨peer, rfl⟩ <;> exact fun _ => rfl
  | _ => cases h

/-! ## The connection -/

structure Steady (r r' : ClientReactor) : Prop where
  hasConnection : r'.hasConnection = r.hasConnection
  fd : r'.connection.fileDescriptor = r.connection.fileDescriptor
  key : r'.connection.connectionId = r.connection.connectionId

theorem Steady.refl (r : ClientReactor) : r.Steady r :=
  ⟨rfl, rfl, rfl⟩

theorem Steady.trans (h : r.Steady r') (h' : r'.Steady r'') : r.Steady r'' :=
  ⟨h'.hasConnection.trans h.hasConnection, h'.fd.trans h.fd, h'.key.trans h.key⟩

theorem dispatchEvent_steady (env : Environment) (event : NetworkEvent) (r : ClientReactor) :
    r.Steady (r.dispatchEvent env event) := by
  rcases dispatchEvent_cases env event r with ⟨-, h⟩ | h | h <;> rw [h] <;> exact ⟨rfl, rfl, rfl⟩

theorem awaitWritable_steady (env : Environment) (fd : ℤ) (r : ClientReactor) :
    r.Steady (r.awaitWritable env fd) := by
  unfold awaitWritable
  split <;> exact ⟨rfl, rfl, rfl⟩

theorem stopWriting_steady (env : Environment) (fd : ℤ) (r : ClientReactor) :
    r.Steady (r.stopWriting env fd) := by
  unfold stopWriting
  split <;> exact ⟨rfl, rfl, rfl⟩

theorem trySendDirect_steady (env : Environment) (r : ClientReactor) :
    r.Steady (r.trySendDirect env).2 := by
  unfold trySendDirect
  dsimp only
  split
  · exact .refl r
  · split
    · exact ⟨rfl, rfl, rfl⟩
    · refine Steady.trans ?_ ((awaitWritable_steady env _ _).trans (stopWriting_steady env _ _))
      split <;> exact ⟨rfl, rfl, rfl⟩

theorem doSend_steady (env : Environment) {data : List UInt8} {success removes : Bool}
    (h : r.doSend env data = some (success, removes, r')) : r.Steady r' := by
  unfold doSend at h
  split at h
  · cases h
    exact .refl r
  · split at h
    · cases h
    · cases h
      exact ⟨rfl, rfl, rfl⟩
    · rename_i buffer hwrite
      obtain ⟨-, hresult⟩ := Prod.mk.inj (Option.some.inj h)
      have hassigned : r.Steady (r.assign fun c => { c with sendBuffer := buffer }) :=
        ⟨rfl, rfl, rfl⟩
      have hsteady := hassigned.trans (trySendDirect_steady env _)
      rw [hresult] at hsteady
      exact hsteady

theorem complete_steady (op : SendOperation) (success : Bool) (r : ClientReactor) :
    r.Steady (r.complete op success) := by
  unfold complete
  cases op.callback with
  | none => cases op.promise <;> exact ⟨rfl, rfl, rfl⟩
  | some callback => cases op.promise <;> exact ⟨rfl, rfl, rfl⟩

theorem processKqueueEvent_steady (env : Environment) (event : KEvent) (r : ClientReactor) :
    r.Steady (r.processKqueueEvent env event).2 := by
  have hsent := r.trySendDirect_steady env
  unfold processKqueueEvent
  split
  · exact .refl r
  · split
    · exact .refl r
    · split
      · exact .refl r
      · cases event.filter with
        | write => exact hsent
        | _ => exact .refl r

/-- Only the socket of the connection is read from. -/
theorem processKqueueEvent_reads (env : Environment) (event : KEvent) (r : ClientReactor)
    (fd : ℤ) (h : (r.processKqueueEvent env event).1 = .reading fd) :
    r.hasConnection = true ∧ r.connection.fileDescriptor = fd := by
  unfold processKqueueEvent at h
  split at h
  · cases h
  · rename_i hvalid
    rw [not_or, not_not] at hvalid
    split at h
    · cases h
    · split at h
      · cases h
      · cases hfilter : event.filter with
        | read =>
          rw [hfilter] at h
          exact ⟨hvalid.1, Reaction.reading.inj h⟩
        | write =>
          rw [hfilter] at h
          dsimp only at h
          split at h <;> cases h
        | _ =>
          rw [hfilter] at h
          cases h

theorem receive_steady (env : Environment) (fd : ℤ) (outcome : RecvOutcome)
    (r : ClientReactor) : r.Steady (r.receive env fd outcome).2 := by
  cases outcome with
  | received data hdata =>
    refine Steady.trans ?_ (dispatchEvent_steady env _ _)
    exact ⟨rfl, rfl, rfl⟩
  | closed => exact .refl r
  | failed code => cases code <;> exact .refl r

/-- Nothing has been received or dispatched since `fd` was registered. -/
def Untouched (r : ClientReactor) (fd : ℤ) : Prop :=
  r.got fd = [] ∧ ∀ id, r.delivered id fd = [] ∧ r.lost id fd = []

theorem Untouched.moot (h : r.Untouched fd) (hgrows : Grows ClientEffect.Moot r r') :
    r'.Untouched fd := by
  refine ⟨hgrows.moot_got.trans h.1, fun id => ⟨?_, ?_⟩⟩
  · exact hgrows.moot_delivered.trans (h.2 id).1
  · exact hgrows.moot_lost.trans (h.2 id).2

theorem Untouched.delivers (h : r.Untouched fd) (id : UInt64) : r.Delivers id fd := by
  rw [Delivers, h.1, (h.2 id).1, (h.2 id).2]
  exact .nil

theorem Delivers.received (h : r.Delivers id fd) (env : Environment) (data : List UInt8)
    (hlog : r'.log = .received fd data :: r.log) (hreceiver : r'.receiver ≠ .nobody) :
    (r'.dispatchEvent env (.data id data)).Delivers id fd := by
  have hpayload : (NetworkEvent.data id data).payloadOf id = data := if_pos rfl
  have hreceived : (ClientEffect.received fd data).receivedOn fd = data := if_pos rfl
  have hdispatched {r₁ : ClientReactor} (hgrown : r₁.log = .dispatched (.data id data) :: r'.log) :
      r₁.Delivers id fd := by
    have hkept := h.keep data
    rw [hlog] at hgrown
    rw [Delivers, got, delivered, lost, hgrown]
    rw [since_cons_unmarked rfl, since_cons_unmarked rfl]
    simp only [collect, ClientEffect.receivedOn, ClientEffect.dispatchedFor,
      ClientEffect.refusedFor, List.append_nil, hpayload, if_true]
    exact hkept
  have hrefused {r₁ : ClientReactor} (hgrown : r₁.log = .refused (.data id data) :: r'.log) :
      r₁.Delivers id fd := by
    have hkept := h.lose data
    rw [hlog] at hgrown
    rw [Delivers, got, delivered, lost, hgrown]
    rw [since_cons_unmarked rfl, since_cons_unmarked rfl]
    simp only [collect, ClientEffect.receivedOn, ClientEffect.dispatchedFor,
      ClientEffect.refusedFor, List.append_nil, hpayload, if_true]
    exact hkept
  rcases dispatchEvent_cases env (.data id data) r' with ⟨hnobody, -⟩ | hsent | hsent
  · exact absurd hnobody hreceiver
  · exact hsent ▸ hdispatched rfl
  · exact hsent ▸ hrefused rfl

/-- `SetConnection` has raised `has_connection_`, or it has failed. -/
def Setting.IsSettled : Setting → Prop
  | .connecting => True
  | .returned _ => True
  | _ => False

end ClientReactor

/-! ## Steps -/

/-- The loop is neither reading nor in `RemoveConnection`. -/
def ClientLoop.IsPlain : ClientLoop → Prop
  | .reading _ _ => False
  | .removing _ _ => False
  | _ => True

namespace ClientSystem

open ClientReactor

def Engaged (s : ClientSystem) : Prop :=
  s.reactor.hasConnection = true ∨ s.loop.IsRemoving

/-- The local side leaves the connection alone: nobody but the loop is in `RemoveConnection`,
`SetConnection` is called only while there is no connection, and by one thread at a time, and
`Stop` has not shut down the socket. -/
structure Undisturbed (s : ClientSystem) : Prop where
  owners : s.owners = [] ∨ ∃ fd peer setting, s.owners = [.setting fd peer setting] ∧
    (s.Engaged → setting.IsSettled)
  stopping : s.stopping = .notCalled ∨ s.stopping = .flagged ∨ s.stopping = .notified ∨
    s.stopping = .woken

/-- The accounts of the connection, and of the one that is being set, are in order. -/
structure Accounted (s : ClientSystem) : Prop where
  table : s.reactor.hasConnection = true →
    s.reactor.Delivers s.reactor.connection.connectionId s.reactor.connection.fileDescriptor
  assigning : ∀ fd peer, s.owners = [.setting fd peer .assigning] → s.reactor.Untouched fd
  raising : ∀ fd peer, s.owners = [.setting fd peer .raising] →
    s.reactor.Untouched fd ∧ s.reactor.connection.fileDescriptor = fd
  reading : ∀ fd events, s.loop = .reading fd events →
    s.reactor.hasConnection = true ∧ s.reactor.connection.fileDescriptor = fd
  removing : ∀ removal next, s.loop = .removing removal next → next.IsPlain

variable {s t : ClientSystem}

/-- A step that neither receives nor changes the connection. -/
theorem Accounted.steady (h : s.Accounted) (hsteady : s.reactor.Steady t.reactor)
    (hgrows : Grows ClientEffect.Moot s.reactor t.reactor)
    (howners : ∀ fd peer setting, t.owners = [.setting fd peer setting] →
      setting = .assigning ∨ setting = .raising → s.owners = t.owners)
    (hreading : ∀ fd events, t.loop = .reading fd events → s.loop = t.loop ∨
      s.reactor.hasConnection = true ∧ s.reactor.connection.fileDescriptor = fd)
    (hremoving : ∀ removal next, t.loop = .removing removal next → next.IsPlain) :
    t.Accounted where
  table hhas := by
    rw [hsteady.fd, hsteady.key]
    exact (h.table (hsteady.hasConnection ▸ hhas)).moot hgrows
  assigning fd peer ht := by
    have hs := howners fd peer _ ht (.inl rfl)
    exact (h.assigning fd peer (hs.trans ht)).moot hgrows
  raising fd peer ht := by
    have hs := howners fd peer _ ht (.inr rfl)
    obtain ⟨huntouched, hfd⟩ := h.raising fd peer (hs.trans ht)
    exact ⟨huntouched.moot hgrows, hsteady.fd.trans hfd⟩
  reading fd events ht := by
    rw [hsteady.hasConnection, hsteady.fd]
    rcases hreading fd events ht with hs | hs
    · exact h.reading fd events (hs.trans ht)
    · exact hs
  removing := hremoving

/-- Nobody is setting a connection while there is one or the loop removes it. -/
theorem Undisturbed.settled (h : s.Undisturbed) (hengaged : s.Engaged) {fd : ℤ}
    {peer : SockAddr} {setting : Setting} (hs : s.owners = [.setting fd peer setting]) :
    setting.IsSettled := by
  rcases h.owners with hnil | ⟨fd', peer', setting', hone, hsettled⟩
  · rw [hnil] at hs
    cases hs
  · rw [hone] at hs
    cases hs
    exact hsettled hengaged

/-- What the loop does, short of `recv` and `RemoveConnection`. -/
theorem Accounted.looped (h : s.Accounted) {r : ClientReactor} {loop : ClientLoop}
    (hsteady : s.reactor.Steady r) (hgrows : Grows ClientEffect.Moot s.reactor r)
    (hreading : ∀ fd events, loop = .reading fd events →
      s.reactor.hasConnection = true ∧ s.reactor.connection.fileDescriptor = fd)
    (hremoving : ∀ removal next, loop = .removing removal next → next.IsPlain) :
    Accounted { s with reactor := r, loop := loop } :=
  h.steady hsteady hgrows (fun _ _ _ _ _ => rfl) (fun fd events ht => .inr (hreading fd events ht))
    hremoving

/-- The loop goes on, at most with `RemoveConnection` first. -/
theorem Accounted.after (h : s.Accounted) {r : ClientReactor} (removes : Bool)
    {next : ClientLoop} (hnext : next.IsPlain) (hsteady : s.reactor.Steady r)
    (hgrows : Grows ClientEffect.Moot s.reactor r) :
    Accounted { s with reactor := r, loop := .after removes next } := by
  refine h.looped hsteady hgrows (fun fd events heq => ?_) fun removal next' heq => ?_
  · cases removes with
    | false =>
      obtain rfl : next = .reading fd events := heq
      exact hnext.elim
    | true => cases heq
  · cases removes with
    | false =>
      obtain rfl : next = .removing removal next' := heq
      exact hnext.elim
    | true =>
      obtain ⟨-, rfl⟩ := ClientLoop.removing.inj heq
      exact hnext

theorem Accounted.receive (h : s.Accounted) (hundisturbed : s.Undisturbed) (env : Environment)
    (outcome : RecvOutcome) {fd : ℤ} {events : List KEvent} (hs : s.loop = .reading fd events)
    (hreceiver : s.reactor.receiver ≠ .nobody) :
    Accounted { s with
      reactor := (s.reactor.receive env fd outcome).2
      loop := (s.reactor.receive env fd outcome).1.next events } := by
  obtain ⟨hhas, hfd⟩ := h.reading fd events hs
  have hremoves : Accounted { s with loop := .removing .checking (.handling events) } :=
    h.after true trivial (.refl _) (.of_eq rfl)
  have hdone : Accounted { s with loop := .handling events } :=
    h.after false trivial (.refl _) (.of_eq rfl)
  cases outcome with
  | received data hdata =>
    have hsteady := receive_steady env fd (.received data hdata) s.reactor
    have hsettled {setting : Setting} {fd' : ℤ} {peer : SockAddr}
        (ht : s.owners = [.setting fd' peer setting]) : setting.IsSettled :=
      hundisturbed.settled (.inl hhas) ht
    refine ⟨fun _ => ?_, fun fd' peer ht => ?_, fun fd' peer ht => ?_, fun fd' events' heq => ?_,
      fun removal next heq => by cases heq⟩
    · have hdelivers := h.table hhas
      rw [hsteady.fd, hsteady.key, hfd]
      rw [hfd] at hdelivers
      exact hdelivers.received env data rfl hreceiver
    · exact (hsettled ht).elim
    · exact (hsettled ht).elim
    · obtain ⟨rfl, -⟩ := ClientLoop.reading.inj heq
      exact ⟨hsteady.hasConnection.trans hhas, hsteady.fd.trans hfd⟩
  | closed => exact hremoves
  | failed code =>
    cases code with
    | eagain => exact hdone
    | eintr =>
      have hagain : Accounted { s with loop := .reading fd events } :=
        h.looped (.refl _) (.of_eq rfl) (fun fd' events' heq => ?_) fun _ _ heq => by cases heq
      · exact hagain
      · obtain ⟨rfl, -⟩ := ClientLoop.reading.inj heq
        exact ⟨hhas, hfd⟩
    | _ => exact hremoves

/-- A step of `RemoveConnection` in the loop. -/
theorem Accounted.remove (h : s.Accounted) (hundisturbed : s.Undisturbed) (env : Environment)
    {removal : Removal} {next : ClientLoop} (hs : s.loop = .removing removal next) :
    Accounted { s with
      reactor := (s.reactor.removeConnection env removal).2
      loop := (s.reactor.removeConnection env removal).1.elim next (.removing · next) } := by
  have hnext := h.removing removal next hs
  have hgrows : Grows ClientEffect.Moot s.reactor (s.reactor.removeConnection env removal).2 :=
    (removeConnection_grows env removal s.reactor).mono fun _ => removes_moot
  have hsettled {setting : Setting} {fd : ℤ} {peer : SockAddr}
      (ht : s.owners = [.setting fd peer setting]) : setting.IsSettled :=
    hundisturbed.settled (.inr ⟨removal, next, hs⟩) ht
  have hkept (hhas : (s.reactor.removeConnection env removal).2.hasConnection = true) :
      s.reactor.Steady (s.reactor.removeConnection env removal).2 := by
    cases removal with
    | checking =>
      unfold removeConnection
      dsimp only
      split <;> exact .refl _
    | closing fd => exact ⟨rfl, rfl, rfl⟩
    | clearing => cases hhas
    | disconnecting => exact dispatchEvent_steady env _ s.reactor
  refine ⟨fun hhas => ?_, fun fd peer ht => ?_, fun fd peer ht => ?_, fun fd events heq => ?_,
    fun removal' next' heq => ?_⟩
  · have hsteady := hkept hhas
    rw [hsteady.fd, hsteady.key]
    exact (h.table (hsteady.hasConnection ▸ hhas)).moot hgrows
  · exact (hsettled ht).elim
  · exact (hsettled ht).elim
  · cases hfollowing : (s.reactor.removeConnection env removal).1 with
    | none =>
      simp only [hfollowing, Option.elim_none] at heq
      rw [heq] at hnext
      exact hnext.elim
    | some removal' => simp [hfollowing] at heq
  · cases hfollowing : (s.reactor.removeConnection env removal).1 with
    | none =>
      simp only [hfollowing, Option.elim_none] at heq
      rw [heq] at hnext
      exact hnext.elim
    | some removal' =>
      simp only [hfollowing, Option.elim_some, ClientLoop.removing.injEq] at heq
      rw [← heq.2]
      exact hnext

/-- A step of the only call of `SetConnection`. -/
theorem Accounted.set (h : s.Accounted) (hundisturbed : s.Undisturbed) (env : Environment)
    {fd : ℤ} {peer : SockAddr} {setting : Setting} (hs : s.owners = [.setting fd peer setting]) :
    Accounted { s with
      reactor := (s.reactor.setConnection env fd peer setting).2
      owners := [.setting fd peer (s.reactor.setConnection env fd peer setting).1] } := by
  have hplain {r : ClientReactor} {setting' : Setting} (hsteady : s.reactor.Steady r)
      (hgrows : Grows ClientEffect.Moot s.reactor r)
      (hassigning : setting' ≠ .assigning) (hraising : setting' ≠ .raising) :
      Accounted { s with reactor := r, owners := [.setting fd peer setting'] } := by
    refine h.steady hsteady hgrows (fun fd' peer' setting'' ht hwhich => ?_)
      (fun fd' events ht => .inl rfl) h.removing
    simp only [List.cons.injEq, ConnectionCaller.setting.injEq, and_true] at ht
    rcases hwhich with rfl | rfl
    · exact absurd ht.2.2 hassigning
    · exact absurd ht.2.2 hraising
  have hfree (hsettled : ¬setting.IsSettled) : s.reactor.hasConnection = false :=
    Bool.eq_false_iff.mpr fun hhas => hsettled (hundisturbed.settled (.inl hhas) hs)
  have hidle (hsettled : ¬setting.IsSettled) (fd' : ℤ) (events : List KEvent) :
      s.loop ≠ .reading fd' events := fun heq =>
    Bool.eq_false_iff.mp (hfree hsettled) (h.reading fd' events heq).1
  have hunset {r : ClientReactor} {setting' : Setting} (hsettled : ¬setting.IsSettled)
      (hnone : r.hasConnection = false) (hassigning : setting' = .assigning → r.Untouched fd)
      (hraising : setting' = .raising →
        r.Untouched fd ∧ r.connection.fileDescriptor = fd) :
      Accounted { s with reactor := r, owners := [.setting fd peer setting'] } := by
    refine ⟨fun hhas => ?_, fun fd' peer' ht => ?_, fun fd' peer' ht => ?_,
      fun fd' events heq => absurd heq (hidle hsettled fd' events), h.removing⟩
    · exact absurd hhas (Bool.eq_false_iff.mp hnone)
    · cases ht
      exact hassigning rfl
    · cases ht
      exact hraising rfl
  cases setting with
  | entering =>
    unfold setConnection
    dsimp only
    split
    · exact hplain (.refl _) (.of_eq rfl) (by simp) (by simp)
    · exact hplain (.refl _) (.of_eq rfl) (by simp) (by simp)
  | checking =>
    unfold setConnection
    dsimp only
    split
    · exact hplain (.refl _) (.of_eq rfl) (by simp) (by simp)
    · exact hplain (.refl _) (.of_eq rfl) (by simp) (by simp)
  | removing removal =>
    have hnone : (s.reactor.removeConnection env removal).2.hasConnection = false := by
      have hnone := hfree not_false
      cases removal with
      | checking =>
        unfold removeConnection
        dsimp only
        split <;> exact hnone
      | closing fd' => exact hnone
      | clearing => rfl
      | disconnecting => exact (dispatchEvent_steady env _ s.reactor).hasConnection.trans hnone
    unfold setConnection
    dsimp only
    split
    · rename_i heq
      rw [heq] at hnone
      exact hunset not_false hnone (by simp) (by simp)
    · rename_i heq
      rw [heq] at hnone
      exact hunset not_false hnone (by simp) (by simp)
  | monitoring =>
    have hnone := hfree not_false
    have hmark (success : Bool) : (ClientEffect.kevent fd .addRead success).registers fd = true :=
      decide_eq_true rfl
    have huntouched : (s.reactor.monitor env fd .addRead).2.Untouched fd :=
      ⟨collect_since_marked (hmark _), fun id =>
        ⟨collect_since_marked (hmark _), collect_since_marked (hmark _)⟩⟩
    unfold setConnection
    dsimp only
    split
    · exact hunset not_false hnone (by simp) (by simp)
    · exact hunset not_false hnone (fun _ => huntouched) (by simp)
  | assigning =>
    have huntouched := h.assigning fd peer hs
    exact hunset not_false (hfree not_false) (by simp [setConnection])
      fun _ => ⟨huntouched, rfl⟩
  | raising =>
    refine ⟨fun _ => ?_, fun fd' peer' ht => ?_, fun fd' peer' ht => ?_,
      fun fd' events heq => absurd heq (hidle not_false fd' events), h.removing⟩
    · obtain ⟨huntouched, hfd⟩ := h.raising fd peer hs
      have hdelivers := huntouched.delivers s.reactor.connection.connectionId
      rw [← hfd] at hdelivers
      exact hdelivers
    · cases ht
    · cases ht
  | connecting =>
    refine hplain (dispatchEvent_steady env _ _) ?_ (by simp [setConnection])
      (by simp [setConnection])
    refine (dispatchEvent_grows env _ s.reactor).mono fun e he => ?_
    rcases he with rfl | rfl <;> exact fun _ => rfl
  | returned success =>
    exact hplain (.refl _) (.of_eq rfl) (by simp [setConnection]) (by simp [setConnection])

end ClientSystem

theorem ClientLoop.Step.accounted {s : ClientSystem} {r : ClientReactor} {loop : ClientLoop}
    (hstep : ClientLoop.Step (s.reactor, s.loop) (r, loop)) (h : s.Accounted)
    (hundisturbed : s.Undisturbed) (hreceiver : s.reactor.receiver ≠ .nobody) :
    ClientSystem.Accounted { s with reactor := r, loop := loop } := by
  have hsame {next : ClientLoop} (hnext : next.IsPlain) :
      ClientSystem.Accounted { s with loop := next } :=
    h.after false hnext (.refl _) (.of_eq rfl)
  generalize hbefore : s.loop = before at hstep
  cases hstep with
  | enter => exact hsame trivial
  | leave => exact hsame trivial
  | @process _ _ processed env op rest success removes hbatch hqueue hsend =>
    have hdequeued : s.reactor.Steady (s.reactor.dequeue op rest) := ⟨rfl, rfl, rfl⟩
    have htook : ClientReactor.Grows ClientEffect.Moot s.reactor
        (s.reactor.dequeue op rest) := .cons rfl trivial
    refine h.after removes trivial (hdequeued.trans (ClientReactor.doSend_steady env hsend)) ?_
    exact htook.trans
      ((ClientReactor.doSend_grows env hsend).mono fun _ => ClientReactor.sends_moot)
  | @complete _ processed op success =>
    refine h.after false trivial (ClientReactor.complete_steady op success _) ?_
    exact (ClientReactor.complete_grows op success _).mono
      fun _ => ClientReactor.completes_moot
  | drained =>
    refine hsame ?_
    split <;> trivial
  | flush env =>
    refine h.after _ trivial (ClientReactor.trySendDirect_steady env _) ?_
    exact (ClientReactor.trySendDirect_grows env _).mono fun _ => ClientReactor.sends_moot
  | interrupted => exact hsame trivial
  | failed => exact hsame trivial
  | @woken _ events =>
    refine h.after false trivial ?_ ?_
    · split <;> exact ⟨rfl, rfl, rfl⟩
    · split <;> exact .of_eq rfl
  | @handle _ env event events =>
    have hsteady := ClientReactor.processKqueueEvent_steady env event s.reactor
    have hgrows : ClientReactor.Grows ClientEffect.Moot s.reactor
        (s.reactor.processKqueueEvent env event).2 :=
      (ClientReactor.processKqueueEvent_grows env event _).mono
        fun _ => ClientReactor.sends_moot
    have hreads := ClientReactor.processKqueueEvent_reads env event s.reactor
    refine h.looped hsteady hgrows (fun fd events' heq => ?_) fun removal next heq => ?_
    · cases hreaction : (s.reactor.processKqueueEvent env event).1 with
      | reading fd' =>
        rw [hreaction] at heq
        obtain ⟨rfl, -⟩ := ClientLoop.reading.inj heq
        exact hreads fd' hreaction
      | _ =>
        rw [hreaction] at heq
        cases heq
    · cases hreaction : (s.reactor.processKqueueEvent env event).1 with
      | removing =>
        rw [hreaction] at heq
        obtain ⟨-, rfl⟩ := ClientLoop.removing.inj heq
        trivial
      | _ =>
        rw [hreaction] at heq
        cases heq
  | skip => exact hsame trivial
  | handled => exact hsame trivial
  | receive env outcome => exact h.receive hundisturbed env outcome hbefore hreceiver
  | @remove _ _ env removal following next hremove =>
    have hremoved := h.remove hundisturbed env hbefore
    rw [hremove] at hremoved
    exact hremoved

theorem ClientSystem.Undisturbed.only {s : ClientSystem} (h : s.Undisturbed)
    {owner : ConnectionCaller} {before after : List ConnectionCaller}
    (howners : s.owners = before ++ owner :: after) :
    before = [] ∧ after = [] ∧ ∃ fd peer setting, owner = .setting fd peer setting := by
  rcases h.owners with hnil | ⟨fd, peer, setting, hone, -⟩
  · rw [howners] at hnil
    simp at hnil
  · rw [howners] at hone
    rcases List.append_eq_singleton_iff.mp hone with ⟨rfl, htail⟩ | ⟨-, htail⟩
    · obtain ⟨rfl, rfl⟩ := List.cons.inj htail
      exact ⟨rfl, rfl, fd, peer, setting, rfl⟩
    · cases htail

theorem ClientSystem.Step.accounted {s t : ClientSystem} (hstep : ClientSystem.Step s t)
    (h : s.Accounted) (hs : s.Undisturbed) (ht : t.Undisturbed)
    (hreceiver : s.reactor.receiver ≠ .nobody) : t.Accounted := by
  have hsame {t : ClientSystem} (hsteady : s.reactor.Steady t.reactor)
      (hlog : t.reactor.log = s.reactor.log) (howners : t.owners = s.owners)
      (hloop : t.loop = s.loop) : t.Accounted :=
    h.steady hsteady (.of_eq hlog) (fun _ _ _ _ _ => howners.symm)
      (fun _ _ _ => .inl hloop.symm) (hloop ▸ h.removing)
  cases hstep with
  | request => exact hsame (.refl _) rfl rfl rfl
  | enqueue => exact hsame ⟨rfl, rfl, rfl⟩ rfl rfl rfl
  | enqueueRejected => exact hsame (.refl _) rfl rfl rfl
  | wake => exact hsame ⟨rfl, rfl, rfl⟩ rfl rfl rfl
  | setConnection fd peer =>
    refine h.steady (.refl _) (.of_eq rfl) (fun fd' peer' setting howners hwhich => ?_)
      (fun _ _ _ => .inl rfl) h.removing
    simp only [List.cons.injEq, ConnectionCaller.setting.injEq] at howners
    rcases hwhich with rfl | rfl
    · exact absurd howners.1.2.2 (by simp)
    · exact absurd howners.1.2.2 (by simp)
  | @setting env fd peer setting before after howners =>
    obtain ⟨rfl, rfl, -⟩ := hs.only howners
    exact h.set hs env howners
  | @setConnectionReturned fd peer success before after howners =>
    obtain ⟨rfl, rfl, -⟩ := hs.only howners
    exact h.steady (.refl _) (.of_eq rfl) (fun _ _ _ hnone => by cases hnone)
      (fun _ _ _ => .inl rfl) h.removing
  | removeConnection =>
    obtain ⟨-, -, fd, peer, setting, hremoving⟩ := ht.only (List.nil_append _).symm
    cases hremoving
  | @removing env removal before after howners =>
    obtain ⟨-, -, fd, peer, setting, hremoving⟩ := hs.only howners
    cases hremoving
  | loop hloop => exact hloop.accounted h hs hreceiver
  | stop => exact hsame ⟨rfl, rfl, rfl⟩ rfl rfl rfl
  | stopQueue => exact hsame ⟨rfl, rfl, rfl⟩ rfl rfl rfl
  | stopWake => exact hsame ⟨rfl, rfl, rfl⟩ rfl rfl rfl
  | stopShutdown => exact absurd ht.stopping (by simp)
  | stopMonitor => exact absurd ht.stopping (by simp)
  | stopClose => exact absurd ht.stopping (by simp)

/-- While the local side leaves the connection alone and there is somebody to receive the
events, the accounts are in order. -/
theorem clientReactors_accounted {receiver : Receiver} {states : List ClientSystem}
    (hrun : (clientReactors receiver).Run states) (hundisturbed : ∀ s ∈ states, s.Undisturbed)
    (hreceiver : ∀ s ∈ states, s.reactor.receiver ≠ .nobody) : ∀ s ∈ states, s.Accounted := by
  have hsteps : ∀ s t, [t, s] <:+: states →
      s.Undisturbed ∧ t.Undisturbed ∧ s.reactor.receiver ≠ .nobody := by
    intro s t hst
    have hs : s ∈ states := hst.mem (by simp)
    exact ⟨hundisturbed s hs, hundisturbed t (hst.mem (by simp)), hreceiver s hs⟩
  refine hrun.invariant_along ?_ (fun s t h (hstep : ClientSystem.Step s t) hgood => ?_) hsteps
  · rintro s ⟨fds, rfl⟩
    refine ⟨fun hhas => ?_, fun fd peer hs => ?_, fun fd peer hs => ?_, fun fd events hs => ?_,
      fun removal next hs => ?_⟩
    · cases hhas
    · cases hs
    · cases hs
    · cases hs
    · cases hs
  · obtain ⟨hs, ht, hheard⟩ := hgood
    exact hstep.accounted h hs ht hheard

end DarwinCore.Network
