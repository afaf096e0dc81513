import DarwinCore.Verification.Network.ClientDelivery
import DarwinCore.Verification.Network.ClientFlow

/-! # Whose write filter is registered

While one thread at a time sets or removes the connection, with descriptors that are not in use,
the write filter that is registered is that of the connection. -/

/-! ## The write filter of a client reactor

Sending registers the write filter while something is left in the send buffer. The flag
`write_pending` goes with it as long as `kevent` does not fail. -/

namespace DarwinCore.Network

namespace ClientReactor

/-- No registration or deletion of a write filter has failed. -/
def Monitored (r : ClientReactor) : Prop :=
  ∀ fd change, .kevent fd change false ∈ r.log → change = .addRead

/-- The flag `write_pending` says whether the write filter of the connection is registered. -/
def Watched (r : ClientReactor) : Prop :=
  r.connection.writePending = true ↔ r.connection.fileDescriptor ∈ r.kernel.writeFilters

variable {P : ClientEffect → Prop} {r r' r'' : ClientReactor}

theorem Monitored.of_suffix (h : r'.Monitored) (hlog : r.log <:+ r'.log) : r.Monitored :=
  fun fd change hmem => h fd change (hlog.subset hmem)

/-! ### Functions that leave the write filter alone -/

structure Unmoved (r r' : ClientReactor) : Prop where
  steady : r.Steady r'
  pending : r'.connection.writePending = r.connection.writePending
  filters : r'.kernel.writeFilters = r.kernel.writeFilters

theorem Unmoved.refl (r : ClientReactor) : r.Unmoved r :=
  ⟨.refl r, rfl, rfl⟩

theorem Unmoved.trans (h : r.Unmoved r') (h' : r'.Unmoved r'') : r.Unmoved r'' :=
  ⟨h.steady.trans h'.steady, h'.pending.trans h.pending, h'.filters.trans h.filters⟩

theorem Unmoved.watched (h : r.Unmoved r') (hwatched : r.Watched) : r'.Watched := by
  rw [Watched, h.pending, h.filters, h.steady.fd]
  exact hwatched

theorem dispatchEvent_unmoved (env : Environment) (event : NetworkEvent) (r : ClientReactor) :
    r.Unmoved (r.dispatchEvent env event) := by
  rcases dispatchEvent_cases env event r with ⟨-, h⟩ | h | h <;> rw [h] <;>
    exact ⟨⟨rfl, rfl, rfl⟩, rfl, rfl⟩

theorem complete_unmoved (op : SendOperation) (success : Bool) (r : ClientReactor) :
    r.Unmoved (r.complete op success) := by
  unfold complete
  cases op.callback with
  | none => cases op.promise <;> exact ⟨⟨rfl, rfl, rfl⟩, rfl, rfl⟩
  | some callback => cases op.promise <;> exact ⟨⟨rfl, rfl, rfl⟩, rfl, rfl⟩

theorem receive_unmoved (env : Environment) (fd : ℤ) (outcome : RecvOutcome)
    (r : ClientReactor) : r.Unmoved (r.receive env fd outcome).2 := by
  cases outcome with
  | received data hdata =>
    refine Unmoved.trans ?_ (dispatchEvent_unmoved env _ _)
    exact ⟨⟨rfl, rfl, rfl⟩, rfl, rfl⟩
  | closed => exact .refl r
  | failed code => cases code <;> exact .refl r

theorem shutdownConnection_unmoved (r : ClientReactor) : r.Unmoved r.shutdownConnection := by
  unfold shutdownConnection
  split
  · exact ⟨⟨rfl, rfl, rfl⟩, rfl, rfl⟩
  · exact .refl r

/-! ### Functions that send -/

/-- The connection is the same, its flag still says whether its write filter is registered, and no
other filter is. -/
structure Watches (r r' : ClientReactor) : Prop where
  steady : r.Steady r'
  kqueueOpen : r'.kernel.kqueueOpen = r.kernel.kqueueOpen
  filters : ∀ fd ∈ r'.kernel.writeFilters, fd ∈ r.kernel.writeFilters ∨
    r.hasConnection = true ∧ 0 ≤ fd ∧ r.connection.fileDescriptor = fd
  watched : r'.Monitored → r.Watched → r'.Watched

theorem Unmoved.watches (h : r.Unmoved r')
    (hopen : r'.kernel.kqueueOpen = r.kernel.kqueueOpen) : r.Watches r' where
  steady := h.steady
  kqueueOpen := hopen
  filters _ hmem := .inl (h.filters ▸ hmem)
  watched _ := h.watched

theorem Watches.trans (h : r.Watches r') (h' : r'.Watches r'') (hlog : r'.log <:+ r''.log) :
    r.Watches r'' where
  steady := h.steady.trans h'.steady
  kqueueOpen := h'.kqueueOpen.trans h.kqueueOpen
  filters fd hmem := by
    rcases h'.filters fd hmem with hold | ⟨hconnection, hfd, hown⟩
    · exact h.filters fd hold
    · exact .inr ⟨h.steady.hasConnection ▸ hconnection, hfd, h.steady.fd ▸ hown⟩
  watched hmonitored hwatched :=
    h'.watched hmonitored (h.watched (hmonitored.of_suffix hlog) hwatched)

theorem awaitWritable_watches (env : Environment) (hconnection : r.hasConnection = true)
    (hfd : 0 ≤ r.connection.fileDescriptor) :
    r.Watches (r.awaitWritable env r.connection.fileDescriptor) where
  steady := awaitWritable_steady env _ r
  kqueueOpen := (awaitWritable_sameControl env _ r).kqueueOpen
  filters fd hmem := by
    unfold awaitWritable monitor at hmem
    dsimp only at hmem
    split at hmem
    · cases hsuccess : r.kernel.kqueueOpen && env.kevent r.log.length with
      | true =>
        rw [hsuccess] at hmem
        rcases Finset.mem_insert.mp hmem with rfl | hold
        · exact .inr ⟨hconnection, hfd, rfl⟩
        · exact .inl hold
      | false =>
        rw [hsuccess] at hmem
        exact .inl hmem
    · exact .inl hmem
  watched hmonitored hwatched := by
    unfold awaitWritable monitor at hmonitored ⊢
    dsimp only at hmonitored ⊢
    split
    · rename_i hnow
      rw [if_pos hnow] at hmonitored
      cases hsuccess : r.kernel.kqueueOpen && env.kevent r.log.length with
      | true => exact iff_of_true rfl (Finset.mem_insert_self _ _)
      | false =>
        rw [hsuccess] at hmonitored
        cases hmonitored r.connection.fileDescriptor .addWrite List.mem_cons_self
    · exact hwatched

theorem stopWriting_watches (env : Environment) (r : ClientReactor) :
    r.Watches (r.stopWriting env r.connection.fileDescriptor) where
  steady := stopWriting_steady env _ r
  kqueueOpen := (stopWriting_sameControl env _ r).kqueueOpen
  filters fd hmem := by
    unfold stopWriting monitor at hmem
    dsimp only at hmem
    split at hmem
    · cases hsuccess : r.kernel.kqueueOpen && env.kevent r.log.length with
      | true =>
        rw [hsuccess] at hmem
        exact .inl (Finset.mem_of_mem_erase hmem)
      | false =>
        rw [hsuccess] at hmem
        exact .inl hmem
    · exact .inl hmem
  watched hmonitored hwatched := by
    unfold stopWriting monitor at hmonitored ⊢
    dsimp only at hmonitored ⊢
    split
    · rename_i hnow
      rw [if_pos hnow] at hmonitored
      cases hsuccess : r.kernel.kqueueOpen && env.kevent r.log.length with
      | true => exact iff_of_false nofun (Finset.notMem_erase _ _)
      | false =>
        rw [hsuccess] at hmonitored
        cases hmonitored r.connection.fileDescriptor .deleteWrite List.mem_cons_self
    · exact hwatched

theorem trySendDirect_watches (env : Environment) (r : ClientReactor) :
    r.Watches (r.trySendDirect env).2 := by
  by_cases hidle : r.hasConnection = true ∧ 0 ≤ r.connection.fileDescriptor
  · obtain ⟨hconnection, hfd⟩ := hidle
    have hgo : ¬(¬r.hasConnection = true ∨ r.connection.fileDescriptor < 0) := by
      rw [not_or, not_not]
      exact ⟨hconnection, not_lt.mpr hfd⟩
    have hend {s : ClientReactor} (hs : r.Unmoved s)
        (hopen : s.kernel.kqueueOpen = r.kernel.kqueueOpen) :
        r.Watches ((s.awaitWritable env r.connection.fileDescriptor).stopWriting env
          r.connection.fileDescriptor) := by
      rw [← hs.steady.fd]
      have hawait := awaitWritable_watches env (hs.steady.hasConnection.trans hconnection)
        (hs.steady.fd ▸ hfd)
      have hstop := stopWriting_watches env (s.awaitWritable env s.connection.fileDescriptor)
      rw [hawait.steady.fd] at hstop
      have hstart := hs.watches hopen
      exact (hstart.trans hawait (awaitWritable_grows env _ s).suffix).trans hstop
        (stopWriting_grows env _ _).suffix
    unfold trySendDirect
    dsimp only
    rw [if_neg hgo]
    split
    · exact Unmoved.watches ⟨⟨rfl, rfl, rfl⟩, rfl, rfl⟩ rfl
    · split <;> exact hend ⟨⟨rfl, rfl, rfl⟩, rfl, rfl⟩ rfl
  · rw [trySendDirect_idle env hidle]
    exact (Unmoved.refl r).watches rfl

theorem doSend_watches (env : Environment) {data : List UInt8} {success removes : Bool}
    (h : r.doSend env data = some (success, removes, r')) : r.Watches r' := by
  unfold doSend at h
  split at h
  · cases h
    exact (Unmoved.refl r).watches rfl
  · split at h
    · cases h
    · cases h
      exact Unmoved.watches ⟨⟨rfl, rfl, rfl⟩, rfl, rfl⟩ rfl
    · rename_i buffer hwrite
      obtain ⟨-, hresult⟩ := Prod.mk.inj (Option.some.inj h)
      have hsent := trySendDirect_watches env (r.assign fun c => { c with sendBuffer := buffer })
      have hgrows := trySendDirect_grows env (r.assign fun c => { c with sendBuffer := buffer })
      rw [hresult] at hsent hgrows
      have hassigned : r.Watches (r.assign fun c => { c with sendBuffer := buffer }) :=
        Unmoved.watches ⟨⟨rfl, rfl, rfl⟩, rfl, rfl⟩ rfl
      exact hassigned.trans hsent hgrows.suffix

theorem processKqueueEvent_watches (env : Environment) (event : KEvent) (r : ClientReactor) :
    r.Watches (r.processKqueueEvent env event).2 := by
  have hsent := r.trySendDirect_watches env
  have hsame := (Unmoved.refl r).watches rfl
  unfold processKqueueEvent
  split
  · exact hsame
  · split
    · exact hsame
    · split
      · exact hsame
      · cases event.filter with
        | write => exact hsent
        | _ => exact hsame

end ClientReactor

/-! ## Steps and whose filter it is -/

open ClientReactor

/-- The loop has closed the socket of the connection and not yet said so. -/
def ClientLoop.Clearing : ClientLoop → Prop
  | removing .clearing _ => True
  | _ => False

/-- The caller has closed the socket of the connection and not yet said so. -/
def ConnectionCaller.Clearing : ConnectionCaller → Prop
  | setting _ _ (.removing .clearing) => True
  | removing .clearing => True
  | _ => False

/-- `SetConnection` has seen that there is no connection. -/
def ClientReactor.Setting.IsUnset : Setting → Prop
  | .removing .disconnecting => True
  | .monitoring => True
  | .assigning => True
  | .raising => True
  | _ => False

def ClientReactor.Setting.IsPending : Setting → Prop
  | .connecting => False
  | .returned _ => False
  | _ => True

namespace ClientSystem

/-- Some thread has closed the socket of the connection and not yet said so. -/
def Clearing (s : ClientSystem) : Prop :=
  s.loop.Clearing ∨ ∃ owner ∈ s.owners, owner.Clearing

structure Current (s : ClientSystem) : Prop where
  connection : s.reactor.hasConnection = true
  kqueueOpen : s.reactor.kernel.kqueueOpen = true
  socket : ¬s.Clearing

/-- If `SetConnection` is called, it is for a descriptor that is not in use: no filter is
registered for it, and it is not that of the connection unless this has been closed. -/
def SetsFresh (s t : ClientSystem) : Prop :=
  ∀ fd peer, t.owners = .setting fd peer .entering :: s.owners →
    fd ∉ s.reactor.kernel.writeFilters ∧
      (s.reactor.hasConnection = true →
        s.loop.Clearing ∨ s.reactor.connection.fileDescriptor ≠ fd)

theorem SetsFresh.of_le {s t : ClientSystem} (h : t.owners.length ≤ s.owners.length) :
    s.SetsFresh t := by
  intro fd peer heq
  have hlonger := congrArg List.length heq
  simp only [List.length_cons] at hlonger
  omega

def raises (s t : ClientSystem) : Bool :=
  !s.reactor.hasConnection && t.reactor.hasConnection

/-- If a connection is set, nothing of another one is left in the send buffer or in the flag. -/
def SetsClean (s t : ClientSystem) : Prop :=
  s.raises t = true →
    s.reactor.unsent = [] ∧ s.reactor.connection.writePending = false

structure Ready (s : ClientSystem) (fd : ℤ) (setting : Setting) : Prop where
  unset : setting.IsUnset → s.reactor.hasConnection = false
  filter : setting.IsPending → fd ∉ s.reactor.kernel.writeFilters
  fresh : setting.IsPending → s.reactor.hasConnection = true →
    s.loop.Clearing ∨ s.reactor.connection.fileDescriptor ≠ fd
  assigned : setting = .raising →
    s.reactor.connection.fileDescriptor = fd ∨ s.reactor.connection.fileDescriptor = -1

/-- The calls of `SetConnection` are ready, and the write filter of the connection is registered
if the flag says so. -/
structure Tidy (s : ClientSystem) : Prop where
  nonneg : ∀ fd ∈ s.reactor.kernel.writeFilters, 0 ≤ fd
  ready : ∀ fd peer setting, .setting fd peer setting ∈ s.owners → s.Ready fd setting
  following : ∀ removal next, s.loop = .removing removal next → next.IsPlain
  watched : s.Current → s.reactor.Watched

variable {s t : ClientSystem}

/-! ## Kinds of steps -/

/-- A step that sends at most. -/
theorem Tidy.watches (h : s.Tidy) (hwatches : s.reactor.Watches t.reactor)
    (howners : t.owners = s.owners) (hidle : ¬s.loop.Clearing)
    (hnext : ∀ removal next, t.loop = .removing removal next → next.IsPlain)
    (hmonitored : t.reactor.Monitored) : t.Tidy := by
  have hconnection := hwatches.steady.hasConnection
  have hfd := hwatches.steady.fd
  refine ⟨fun fd hmem => ?_, fun fd peer setting hmem => ?_, hnext, fun hcurrent => ?_⟩
  · rcases hwatches.filters fd hmem with hold | ⟨-, hnonneg, -⟩
    · exact h.nonneg fd hold
    · exact hnonneg
  · have hready := h.ready fd peer setting (howners ▸ hmem)
    have hother (hpending : setting.IsPending) (hhas : s.reactor.hasConnection = true) :
        s.reactor.connection.fileDescriptor ≠ fd :=
      (hready.fresh hpending hhas).resolve_left hidle
    refine ⟨hconnection ▸ hready.unset, fun hpending hnew => ?_, fun hpending hhas => .inr ?_,
      hfd ▸ hready.assigned⟩
    · rcases hwatches.filters fd hnew with hold | ⟨hhas, -, heq⟩
      · exact hready.filter hpending hold
      · exact hother hpending hhas heq
    · exact hfd ▸ hother hpending (hconnection ▸ hhas)
  · refine hwatches.watched hmonitored (h.watched ⟨hconnection ▸ hcurrent.connection,
      hwatches.kqueueOpen ▸ hcurrent.kqueueOpen, fun hclearing => hcurrent.socket ?_⟩)
    rcases hclearing with hloop | hcaller
    · exact absurd hloop hidle
    · exact .inr (howners ▸ hcaller)

theorem Tidy.unmoved (h : s.Tidy) (hunmoved : s.reactor.Unmoved t.reactor)
    (hopen : t.reactor.kernel.kqueueOpen = true → s.reactor.kernel.kqueueOpen = true)
    (howners : ∀ fd peer setting, .setting fd peer setting ∈ t.owners → s.Ready fd setting)
    (hloop : t.loop.Clearing ↔ s.loop.Clearing)
    (hkept : s.Clearing → t.Clearing)
    (hnext : ∀ removal next, t.loop = .removing removal next → next.IsPlain) : t.Tidy := by
  have hconnection := hunmoved.steady.hasConnection
  have hfd := hunmoved.steady.fd
  have hfilters := hunmoved.filters
  refine ⟨hfilters ▸ h.nonneg, fun fd peer setting hmem => ?_, hnext, fun hcurrent => ?_⟩
  · obtain ⟨hunset, hfilter, hfresh, hassigned⟩ := howners fd peer setting hmem
    refine ⟨hconnection ▸ hunset, hfilters ▸ hfilter, ?_, hfd ▸ hassigned⟩
    rw [hconnection, hfd, hloop]
    exact hfresh
  · exact hunmoved.watched (h.watched ⟨hconnection ▸ hcurrent.connection,
      hopen hcurrent.kqueueOpen, fun hclearing => hcurrent.socket (hkept hclearing)⟩)

theorem Tidy.closes (h : s.Tidy) {fd : ℤ} (hreactor : t.reactor = s.reactor.closeFd fd)
    (howners : ∀ fd peer setting, .setting fd peer setting ∈ t.owners → s.Ready fd setting)
    (hloop : s.loop.Clearing → t.loop.Clearing) (hclearing : t.Clearing)
    (hnext : ∀ removal next, t.loop = .removing removal next → next.IsPlain) : t.Tidy := by
  have hfilters (fd' : ℤ) (hmem : fd' ∈ t.reactor.kernel.writeFilters) :
      fd' ∈ s.reactor.kernel.writeFilters := by
    rw [hreactor] at hmem
    exact Finset.mem_of_mem_erase hmem
  refine ⟨fun fd' hmem => h.nonneg fd' (hfilters fd' hmem), fun fd' peer setting hmem => ?_, hnext,
    fun hcurrent => absurd hclearing hcurrent.socket⟩
  obtain ⟨hunset, hfilter, hfresh, hassigned⟩ := howners fd' peer setting hmem
  refine ⟨hreactor ▸ hunset, fun hpending hnew => hfilter hpending (hfilters fd' hnew),
    fun hpending hhas => ?_, hreactor ▸ hassigned⟩
  rw [hreactor] at hhas ⊢
  exact (hfresh hpending hhas).imp_left hloop

theorem Tidy.unconnected (h : s.Tidy) (hconnection : t.reactor.hasConnection = false)
    (hfilters : t.reactor.kernel.writeFilters ⊆ s.reactor.kernel.writeFilters)
    (hfilter : ∀ fd peer setting, .setting fd peer setting ∈ t.owners → setting.IsPending →
      fd ∉ s.reactor.kernel.writeFilters)
    (hassigned : ∀ fd peer, .setting fd peer .raising ∈ t.owners →
      t.reactor.connection.fileDescriptor = fd ∨ t.reactor.connection.fileDescriptor = -1)
    (hnext : ∀ removal next, t.loop = .removing removal next → next.IsPlain) : t.Tidy := by
  have hnone : t.reactor.hasConnection ≠ true := by simp [hconnection]
  refine ⟨fun fd hmem => h.nonneg fd (hfilters hmem), fun fd peer setting hmem => ?_, hnext,
    fun hcurrent => absurd hcurrent.connection hnone⟩
  refine ⟨fun _ => hconnection, fun hpending hnew => ?_, fun _ hhas => absurd hhas hnone, ?_⟩
  · exact hfilter fd peer setting hmem hpending (hfilters hnew)
  · rintro rfl
    exact hassigned fd peer hmem

/-- `SetConnection` moves on before it has set the connection. -/
theorem Ready.onward {fd : ℤ} {setting setting' : Setting} (h : s.Ready fd setting)
    (hpending : setting.IsPending) (hunset : setting'.IsUnset → s.reactor.hasConnection = false)
    (hnot : setting' ≠ .raising) : s.Ready fd setting' :=
  ⟨hunset, fun _ => h.filter hpending, fun _ => h.fresh hpending, fun heq => absurd heq hnot⟩

theorem Ready.done {fd : ℤ} {setting : Setting} (hpending : ¬setting.IsPending)
    (hunset : ¬setting.IsUnset) : s.Ready fd setting := by
  refine ⟨fun hsetting => absurd hsetting hunset, fun hsetting => absurd hsetting hpending,
    fun hsetting => absurd hsetting hpending, ?_⟩
  rintro rfl
  exact absurd trivial hpending

end ClientSystem

theorem ClientLoop.IsPlain.following {next : ClientLoop} (h : next.IsPlain) :
    ∀ removal next', next = .removing removal next' → next'.IsPlain := by
  rintro removal next' rfl
  exact h.elim

theorem ClientLoop.IsPlain.not_clearing {next : ClientLoop} (h : next.IsPlain) :
    ¬next.Clearing := by
  cases next with
  | removing removal next => exact h.elim
  | _ => exact not_false

theorem ClientLoop.after_following {removes : Bool} {next : ClientLoop} (h : next.IsPlain) :
    ∀ removal next', after removes next = .removing removal next' → next'.IsPlain := by
  intro removal next' heq
  cases removes with
  | false => exact h.following removal next' heq
  | true =>
    cases heq
    exact h

theorem ClientReactor.Reaction.next_following (events : List KEvent) (reaction : Reaction) :
    ∀ removal next', reaction.next events = .removing removal next' → next'.IsPlain := by
  intro removal next' heq
  cases reaction with
  | removing =>
    cases heq
    trivial
  | _ => cases heq

open ClientSystem in
theorem ClientLoop.Step.tidy {s : ClientSystem} {r : ClientReactor} {loop : ClientLoop}
    (hstep : ClientLoop.Step (s.reactor, s.loop) (r, loop)) (h : s.Tidy)
    (hmonitored : r.Monitored) : ClientSystem.Tidy { s with reactor := r, loop := loop } := by
  obtain ⟨reactor, callers, owners, before, stopping, nextPromise⟩ := s
  have hready : ∀ fd peer setting, .setting fd peer setting ∈ owners →
      ClientSystem.Ready ⟨reactor, callers, owners, before, stopping, nextPromise⟩ fd setting :=
    h.ready
  have hunmoved (hr : reactor.Unmoved r)
      (hopen : r.kernel.kqueueOpen = true → reactor.kernel.kqueueOpen = true)
      (hbefore : ¬before.Clearing) (hafter : ¬loop.Clearing)
      (hnext : ∀ removal next, loop = .removing removal next → next.IsPlain) :
      ClientSystem.Tidy ⟨r, callers, owners, loop, stopping, nextPromise⟩ :=
    h.unmoved hr hopen hready (iff_of_false hafter hbefore)
      (fun hclearing => .inr (hclearing.resolve_left hbefore)) hnext
  have hwatches (hr : reactor.Watches r) (hbefore : ¬before.Clearing)
      (hnext : ∀ removal next, loop = .removing removal next → next.IsPlain) :
      ClientSystem.Tidy ⟨r, callers, owners, loop, stopping, nextPromise⟩ :=
    h.watches hr rfl hbefore hnext hmonitored
  cases hstep with
  | enter h => exact hunmoved (.refl _) id not_false not_false nofun
  | leave h => exact hunmoved (.refl _) id not_false not_false nofun
  | @process _ _ processed env op rest success removes hbatch hqueue hdo =>
    have hsent := doSend_watches (r := reactor.dequeue op rest) env hdo
    have hgrows := doSend_grows (r := reactor.dequeue op rest) env hdo
    have htaken : reactor.Watches (reactor.dequeue op rest) :=
      Unmoved.watches ⟨⟨rfl, rfl, rfl⟩, rfl, rfl⟩ rfl
    exact hwatches (htaken.trans hsent hgrows.suffix) not_false
      (after_following trivial)
  | @complete _ processed op success =>
    exact hunmoved (complete_unmoved op success reactor)
      ((complete_sameControl op success reactor).kqueueOpen ▸ id) not_false not_false nofun
  | drained h =>
    refine hunmoved (.refl _) id not_false ?_ ?_
    · split <;> exact not_false
    · split <;> exact nofun
  | flush env =>
    exact hwatches (trySendDirect_watches env reactor) not_false
      (after_following trivial)
  | interrupted => exact hunmoved (.refl _) id not_false not_false nofun
  | failed => exact hunmoved (.refl _) id not_false not_false nofun
  | woken events hevents =>
    refine hunmoved ?_ ?_ not_false not_false nofun
    · split
      · exact ⟨⟨rfl, rfl, rfl⟩, rfl, rfl⟩
      · exact .refl _
    · split <;> exact id
  | handle env hevent =>
    exact hwatches (processKqueueEvent_watches env _ reactor) not_false
      (Reaction.next_following _ _)
  | skip h => exact hunmoved (.refl _) id not_false not_false nofun
  | handled => exact hunmoved (.refl _) id not_false not_false nofun
  | @receive _ env outcome fd events =>
    refine hunmoved (receive_unmoved env fd outcome reactor)
      ((receive_sameControl env fd outcome reactor).kqueueOpen ▸ id) not_false ?_
      (Reaction.next_following _ _)
    cases (reactor.receive env fd outcome).1 <;> exact not_false
  | @remove _ _ env removal following next hremove =>
    have hnext : next.IsPlain := h.following removal next rfl
    cases removal with
    | checking =>
      unfold removeConnection at hremove
      dsimp only at hremove
      split at hremove
      · cases hremove
        exact hunmoved (.refl _) id not_false hnext.not_clearing hnext.following
      · cases hremove
        refine hunmoved (.refl _) id not_false not_false fun removal next' heq => ?_
        cases heq
        exact hnext
    | closing fd =>
      cases hremove
      refine h.closes rfl hready (fun _ => trivial) (.inl trivial) fun removal next' heq => ?_
      cases heq
      exact hnext
    | clearing =>
      cases hremove
      refine h.unconnected rfl (Finset.Subset.refl _) (fun fd peer setting hmem =>
        (hready fd peer setting hmem).filter) (fun _ _ _ => .inr rfl) fun removal next' heq => ?_
      cases heq
      exact hnext
    | disconnecting =>
      cases hremove
      exact hunmoved (dispatchEvent_unmoved env _ reactor)
        ((dispatchEvent_sameControl env _ reactor).kqueueOpen ▸ id) not_false
        hnext.not_clearing hnext.following

/-! ## Steps of the caller -/

namespace ClientSystem

variable {s : ClientSystem} {fd : ℤ} {peer : SockAddr} {setting : Setting}

/-- The only caller is in `SetConnection`. -/
theorem Tidy.sets (h : s.Tidy) (env : Environment)
    (howners : s.owners = [.setting fd peer setting])
    (hclean : s.SetsClean { s with
      reactor := (s.reactor.setConnection env fd peer setting).2
      owners := [.setting fd peer (s.reactor.setConnection env fd peer setting).1] }) :
    Tidy { s with
      reactor := (s.reactor.setConnection env fd peer setting).2
      owners := [.setting fd peer (s.reactor.setConnection env fd peer setting).1] } := by
  have hready : s.Ready fd setting := h.ready fd peer setting (by simp [howners])
  have hsettle {setting' : Setting} (hset : s.Ready fd setting') :
      ∀ fd' peer' setting'', ConnectionCaller.setting fd' peer' setting'' ∈
        [ConnectionCaller.setting fd peer setting'] → s.Ready fd' setting'' := by
    intro fd' peer' setting'' hmem
    cases List.mem_singleton.mp hmem
    exact hset
  have hnotClearing (hset : ¬(ConnectionCaller.setting fd peer setting).Clearing)
      (hclearing : s.Clearing) : s.loop.Clearing := by
    refine hclearing.resolve_right ?_
    rintro ⟨owner, hmem, howner⟩
    rw [howners, List.mem_singleton] at hmem
    exact hset (hmem ▸ howner)
  -- The reactor stays as it is.
  have hsame {setting' : Setting} (hset : ¬(ConnectionCaller.setting fd peer setting).Clearing)
      (hset' : s.Ready fd setting') :
      Tidy { s with owners := [.setting fd peer setting'] } :=
    h.unmoved (.refl _) id (hsettle hset') Iff.rfl
      (fun hclearing => .inl (hnotClearing hset hclearing)) h.following
  cases setting with
  | entering =>
    unfold setConnection
    dsimp only
    split
    · exact hsame not_false (.done not_false not_false)
    · exact hsame not_false (hready.onward trivial nofun nofun)
  | checking =>
    unfold setConnection
    dsimp only
    split
    · exact hsame not_false (hready.onward trivial nofun nofun)
    · rename_i hnone
      exact hsame not_false (hready.onward trivial (fun _ => Bool.eq_false_iff.mpr hnone) nofun)
  | removing removal =>
    cases removal with
    | checking =>
      unfold setConnection removeConnection
      dsimp only
      by_cases hhas : s.reactor.hasConnection = true
      · rw [if_neg (not_not.mpr hhas)]
        exact hsame not_false (hready.onward trivial nofun nofun)
      · rw [if_pos hhas]
        exact hsame not_false (hready.onward trivial (fun _ => Bool.eq_false_iff.mpr hhas) nofun)
    | closing fd' =>
      exact h.closes rfl (hsettle (hready.onward trivial nofun nofun)) id
        (.inr ⟨_, List.mem_singleton_self _, trivial⟩) h.following
    | clearing =>
      refine h.unconnected rfl (Finset.Subset.refl _) ?_ (fun _ _ _ => .inr rfl) h.following
      intro fd' peer' setting' hmem _
      cases List.mem_singleton.mp hmem
      exact hready.filter trivial
    | disconnecting =>
      refine h.unmoved (dispatchEvent_unmoved env _ s.reactor)
        ((dispatchEvent_sameControl env _ s.reactor).kqueueOpen ▸ id)
        (hsettle (hready.onward trivial (fun _ => hready.unset trivial) nofun)) Iff.rfl
        (fun hclearing => .inl (hnotClearing not_false hclearing)) h.following
  | monitoring =>
    have hnone := hready.unset trivial
    have hmonitored : (s.reactor.monitor env fd .addRead).2.kernel.writeFilters =
        s.reactor.kernel.writeFilters := by
      unfold monitor
      dsimp only
      split <;> rfl
    unfold setConnection
    dsimp only
    split
    · refine h.unconnected hnone ?_ ?_ ?_ h.following
      · intro fd' hmem
        exact hmonitored ▸ Finset.mem_of_mem_erase hmem
      · intro fd' peer' setting' hmem hpending
        cases List.mem_singleton.mp hmem
        exact hpending.elim
      · intro fd' peer' hmem
        cases List.mem_singleton.mp hmem
    · refine h.unconnected hnone hmonitored.subset ?_ ?_ h.following
      · intro fd' peer' setting' hmem _
        cases List.mem_singleton.mp hmem
        exact hready.filter trivial
      · intro fd' peer' hmem
        cases List.mem_singleton.mp hmem
  | assigning =>
    refine h.unconnected (hready.unset trivial) (Finset.Subset.refl _) ?_ ?_ h.following
    · intro fd' peer' setting' hmem _
      cases List.mem_singleton.mp hmem
      exact hready.filter trivial
    · intro fd' peer' hmem
      cases List.mem_singleton.mp hmem
      exact .inl rfl
  | raising =>
    have hnone := hready.unset trivial
    have hraises : s.raises { s with
        reactor := (s.reactor.setConnection env fd peer .raising).2
        owners := [.setting fd peer (s.reactor.setConnection env fd peer .raising).1] } = true := by
      rw [raises, hnone]
      rfl
    refine ⟨h.nonneg, fun fd' peer' setting' hmem => ?_, h.following, fun _ => ?_⟩
    · cases List.mem_singleton.mp hmem
      exact .done not_false not_false
    · obtain ⟨-, hpending⟩ := hclean hraises
      refine iff_of_false (by simp [setConnection, hpending]) fun hmem => ?_
      rcases hready.assigned rfl with hfd | hfd
      · exact hready.filter trivial (hfd ▸ hmem)
      · have hnonneg := h.nonneg _ hmem
        rw [show (s.reactor.setConnection env fd peer .raising).2.connection.fileDescriptor = -1
          from hfd] at hnonneg
        exact absurd hnonneg (by decide)
  | connecting =>
    exact h.unmoved (dispatchEvent_unmoved env _ s.reactor)
      ((dispatchEvent_sameControl env _ s.reactor).kqueueOpen ▸ id)
      (hsettle (.done not_false not_false)) Iff.rfl
      (fun hclearing => .inl (hnotClearing not_false hclearing)) h.following
  | returned success => exact hsame not_false (.done not_false not_false)

/-- The only caller is in `RemoveConnection`. -/
theorem Tidy.removes (h : s.Tidy) (env : Environment) {removal : Removal}
    (howners : s.owners = [.removing removal]) :
    Tidy { s with
      reactor := (s.reactor.removeConnection env removal).2
      owners := ((s.reactor.removeConnection env removal).1.map .removing).toList } := by
  have hremoving (following : Option Removal) (fd : ℤ) (peer : SockAddr) (setting : Setting) :
      ConnectionCaller.setting fd peer setting ∉
        (following.map ConnectionCaller.removing).toList := by
    intro hmem
    cases following with
    | none => cases hmem
    | some removal => cases List.mem_singleton.mp hmem
  have hnobody := hremoving (s.reactor.removeConnection env removal).1
  have hnotClearing (hremoval : removal ≠ .clearing) (hclearing : s.Clearing) :
      s.loop.Clearing := by
    refine hclearing.resolve_right ?_
    rintro ⟨owner, hmem, howner⟩
    rw [howners, List.mem_singleton] at hmem
    rw [hmem] at howner
    cases removal with
    | clearing => exact hremoval rfl
    | _ => exact howner
  cases removal with
  | checking =>
    have hsame (following : Option Removal) :
        Tidy { s with owners := (following.map ConnectionCaller.removing).toList } :=
      h.unmoved (.refl _) id
        (fun fd peer setting hmem => absurd hmem (hremoving following fd peer setting))
        Iff.rfl (fun hclearing => .inl (hnotClearing nofun hclearing)) h.following
    unfold removeConnection
    dsimp only
    split
    · exact hsame none
    · exact hsame (some _)
  | closing fd =>
    exact h.closes rfl (fun fd peer setting hmem => absurd hmem (hnobody fd peer setting)) id
      (.inr ⟨_, List.mem_singleton_self _, trivial⟩) h.following
  | clearing =>
    exact h.unconnected rfl (Finset.Subset.refl _)
      (fun fd peer setting hmem => absurd hmem (hnobody fd peer setting))
      (fun fd peer hmem => absurd hmem (hnobody fd peer .raising)) h.following
  | disconnecting =>
    exact h.unmoved (dispatchEvent_unmoved env _ s.reactor)
      ((dispatchEvent_sameControl env _ s.reactor).kqueueOpen ▸ id)
      (fun fd peer setting hmem => absurd hmem (hnobody fd peer setting)) Iff.rfl
      (fun hclearing => .inl (hnotClearing nofun hclearing)) h.following

/-- The end of `Stop`. -/
theorem Tidy.ends (h : s.Tidy) {stopping : ClientStopping} :
    Tidy { s with reactor := s.reactor.closeConnection, stopping := stopping } := by
  unfold closeConnection
  split
  · refine h.unconnected rfl (Finset.erase_subset _ _) (fun fd peer setting hmem hpending => ?_)
      (fun _ _ _ => .inr rfl) h.following
    exact (h.ready fd peer setting hmem).filter hpending
  · exact h.unmoved (.refl _) id h.ready Iff.rfl id h.following

theorem eq_singleton {α : Type*} {xs before after : List α} {x : α} (h : xs.length ≤ 1)
    (hxs : xs = before ++ x :: after) : before = [] ∧ after = [] := by
  rw [hxs, List.length_append, List.length_cons] at h
  exact ⟨List.eq_nil_of_length_eq_zero (by omega), List.eq_nil_of_length_eq_zero (by omega)⟩

theorem Step.tidy {t : ClientSystem} (hstep : ClientSystem.Step s t) (h : s.Tidy)
    (hmonitored : t.reactor.Monitored) (hsingle : s.owners.length ≤ 1) (hfresh : s.SetsFresh t)
    (hclean : s.SetsClean t) : t.Tidy := by
  have hsame {t : ClientSystem} (hunmoved : s.reactor.Unmoved t.reactor)
      (hopen : t.reactor.kernel.kqueueOpen = true → s.reactor.kernel.kqueueOpen = true)
      (howners : t.owners = s.owners) (hloop : t.loop = s.loop) : t.Tidy := by
    refine h.unmoved hunmoved hopen (howners ▸ h.ready) (hloop ▸ Iff.rfl) ?_ (hloop ▸ h.following)
    rw [Clearing, Clearing, howners, hloop]
    exact id
  have hunmoved {r : ClientReactor} (hconnection : r.connection = s.reactor.connection)
      (hhas : r.hasConnection = s.reactor.hasConnection)
      (hfilters : r.kernel.writeFilters = s.reactor.kernel.writeFilters) : s.reactor.Unmoved r :=
    ⟨⟨hhas, congrArg _ hconnection, congrArg _ hconnection⟩, congrArg _ hconnection, hfilters⟩
  cases hstep with
  | request req hsized hrequest => exact hsame (.refl _) id rfl rfl
  | enqueue hcallers hqueue => exact hsame (hunmoved rfl rfl rfl) id rfl rfl
  | enqueueRejected hcallers hqueue => exact hsame (.refl _) id rfl rfl
  | wake hcallers => exact hsame (hunmoved rfl rfl rfl) id rfl rfl
  | setConnection fd peer =>
    obtain ⟨hfilter, hother⟩ := hfresh fd peer rfl
    refine h.unmoved (.refl _) id (fun fd' peer' setting hmem => ?_) Iff.rfl ?_ h.following
    · rcases List.mem_cons.mp hmem with heq | hmem
      · cases heq
        exact ⟨nofun, fun _ => hfilter, fun _ => hother, nofun⟩
      · exact h.ready fd' peer' setting hmem
    · rintro (hloop | ⟨owner, hmem, howner⟩)
      · exact .inl hloop
      · exact .inr ⟨owner, List.mem_cons_of_mem _ hmem, howner⟩
  | setting env howners =>
    obtain ⟨rfl, rfl⟩ := eq_singleton hsingle howners
    exact h.sets env howners hclean
  | @setConnectionReturned fd peer success before after howners =>
    refine h.unmoved (.refl _) id (fun fd' peer' setting hmem => ?_) Iff.rfl ?_ h.following
    · refine h.ready fd' peer' setting ?_
      rw [howners]
      rcases List.mem_append.mp hmem with hbefore | hafter
      · exact List.mem_append_left _ hbefore
      · exact List.mem_append_right _ (List.mem_cons_of_mem _ hafter)
    · rintro (hloop | ⟨owner, hmem, howner⟩)
      · exact .inl hloop
      · rw [howners, List.mem_append, List.mem_cons] at hmem
        rcases hmem with hbefore | rfl | hafter
        · exact .inr ⟨owner, List.mem_append_left _ hbefore, howner⟩
        · exact howner.elim
        · exact .inr ⟨owner, List.mem_append_right _ hafter, howner⟩
  | removeConnection =>
    refine h.unmoved (.refl _) id (fun fd' peer' setting hmem => ?_) Iff.rfl ?_ h.following
    · rcases List.mem_cons.mp hmem with heq | hmem
      · cases heq
      · exact h.ready fd' peer' setting hmem
    · rintro (hloop | ⟨owner, hmem, howner⟩)
      · exact .inl hloop
      · exact .inr ⟨owner, List.mem_cons_of_mem _ hmem, howner⟩
  | removing env howners =>
    obtain ⟨rfl, rfl⟩ := eq_singleton hsingle howners
    rw [List.nil_append, List.append_nil]
    exact h.removes env howners
  | loop hloop => exact hloop.tidy h hmonitored
  | stop hrunning => exact hsame (hunmoved rfl rfl rfl) id rfl rfl
  | stopQueue hstopping => exact hsame (hunmoved rfl rfl rfl) id rfl rfl
  | stopWake hstopping => exact hsame (hunmoved rfl rfl rfl) id rfl rfl
  | stopShutdown hstopping =>
    exact hsame (shutdownConnection_unmoved _)
      ((shutdownConnection_sameControl s.reactor).kqueueOpen ▸ id) rfl rfl
  | stopMonitor hjoined hstopping =>
    refine ⟨nofun, fun fd peer setting hmem => ?_, h.following, fun hcurrent => ?_⟩
    · obtain ⟨hunset, -, hfresh, hassigned⟩ := h.ready fd peer setting hmem
      exact ⟨hunset, fun _ => Finset.notMem_empty fd, hfresh, hassigned⟩
    · cases hcurrent.kqueueOpen
  | stopClose hstopping => exact h.ends

theorem started_tidy (receiver : Receiver) (fds : Finset ℤ) :
    Tidy { reactor := ClientReactor.started receiver fds } where
  nonneg _ hmem := absurd hmem (Finset.notMem_empty _)
  ready _ _ _ hmem := absurd hmem List.not_mem_nil
  following _ _ heq := by cases heq
  watched hcurrent := by cases hcurrent.connection

end ClientSystem

end DarwinCore.Network
