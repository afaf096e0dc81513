import DarwinCore.Verification.Network.ReportedSends
import DarwinCore.Verification.Network.WriteFilter

/-! # Successive connections

`RemoveConnection` and `SetConnection` reset neither the send buffer nor `write_pending`. What is
left of a connection goes to the next one, unless nothing is left. -/

namespace DarwinCore.Network

open ClientReactor

/-- What has been put into the send buffer and what has been written since a connection was set,
each byte with the descriptor. -/
structure Traffic where
  queued : List (ℤ × UInt8) := []
  written : List (ℤ × UInt8) := []

/-- A step puts data into the send buffer, or writes some of it. -/
def Traffic.pass (traffic : Traffic) (s t : ClientSystem) : Traffic where
  queued := traffic.queued ++ s.buffers t
  written := traffic.written ++ t.reactor.handed.drop s.reactor.handed.length

/-- A client reactor that remembers the traffic of the last connection that was set. -/
def recordingReactors (receiver : Receiver) : TransitionSystem (ClientSystem × Traffic) :=
  (clientReactors receiver).withAuxiliary {} fun s t traffic =>
    if s.raises t then {} else traffic.pass s t

variable {s t : ClientSystem} {traffic : Traffic}

/-- What is in the send buffer is what has been queued for the connection and not written. -/
structure Separate (s : ClientSystem) (traffic : Traffic) : Prop where
  prefixed : traffic.written <+: traffic.queued
  left : s.reactor.hasConnection = true → traffic.queued =
    traffic.written ++ s.reactor.unsent.map (Prod.mk s.reactor.connection.fileDescriptor)

/-! ## Steps -/

/-- A connection keeps its descriptor. -/
theorem ClientLoop.Step.descriptor {r r' : ClientReactor} {loop loop' : ClientLoop}
    (hstep : ClientLoop.Step (r, loop) (r', loop')) (hconnection : r'.hasConnection = true) :
    r'.connection.fileDescriptor = r.connection.fileDescriptor := by
  cases hstep with
  | enter h => rfl
  | leave h => rfl
  | process env hbatch hqueue hdo => exact (doSend_steady env hdo).fd
  | @complete _ processed op success => exact (complete_steady op success r).fd
  | drained h => rfl
  | flush env => exact (trySendDirect_steady env r).fd
  | interrupted => rfl
  | failed => rfl
  | woken events hevents => split <;> rfl
  | handle env hevent => exact (processKqueueEvent_steady env _ r).fd
  | skip h => rfl
  | handled => rfl
  | receive env outcome => exact (receive_steady env _ outcome r).fd
  | @remove _ _ env removal following next hremove =>
    cases removal with
    | checking =>
      unfold removeConnection at hremove
      dsimp only at hremove
      split at hremove <;> cases hremove <;> rfl
    | closing fd =>
      cases hremove
      rfl
    | clearing =>
      cases hremove
      cases hconnection
    | disconnecting =>
      cases hremove
      exact (dispatchEvent_steady env _ r).fd

theorem ClientReactor.removeConnection_descriptor (env : Environment) (removal : Removal)
    (r : ClientReactor) (hconnection : (r.removeConnection env removal).2.hasConnection = true) :
    (r.removeConnection env removal).2.connection.fileDescriptor =
      r.connection.fileDescriptor := by
  have hstep : ClientLoop.Step (r, .removing removal .top)
      ((r.removeConnection env removal).2, _) := .remove env rfl
  exact hstep.descriptor hconnection

theorem ClientSystem.Step.descriptor (hstep : ClientSystem.Step s t) (h : s.Tidy)
    (hs : s.reactor.hasConnection = true) (ht : t.reactor.hasConnection = true) :
    t.reactor.connection.fileDescriptor = s.reactor.connection.fileDescriptor := by
  cases hstep with
  | @setting env fd peer setting before after howners =>
    have hready : s.Ready fd setting := h.ready fd peer setting (by simp [howners])
    have hset (hunset : setting.IsUnset) : False :=
      Bool.false_ne_true ((hready.unset hunset).symm.trans hs)
    cases setting with
    | entering =>
      unfold ClientReactor.setConnection
      dsimp only
      split <;> rfl
    | checking =>
      unfold ClientReactor.setConnection
      dsimp only
      split <;> rfl
    | removing removal =>
      have hremoved := removeConnection_descriptor env removal s.reactor
      dsimp only at ht ⊢
      unfold ClientReactor.setConnection at ht ⊢
      dsimp only at ht ⊢
      split at ht <;> rename_i heq <;> rw [heq] at hremoved <;> exact hremoved ht
    | monitoring => exact (hset trivial).elim
    | assigning => exact (hset trivial).elim
    | raising => exact (hset trivial).elim
    | connecting => exact (dispatchEvent_steady env _ s.reactor).fd
    | returned success => rfl
  | removing env howners => exact removeConnection_descriptor env _ _ ht
  | loop hloop => exact hloop.descriptor ht
  | stopShutdown hstopping => exact (shutdownConnection_unmoved s.reactor).steady.fd
  | stopClose hstopping =>
    dsimp only at ht ⊢
    unfold closeConnection at ht ⊢
    split at ht
    · cases ht
    · rename_i hnot
      rw [if_neg hnot]
  | _ => rfl

theorem Separate.step (h : Separate s traffic) (hs : s.Sound) (htidy : s.Tidy)
    (hstep : ClientSystem.Step s t) (hclean : s.SetsClean t) :
    Separate t (if s.raises t then {} else traffic.pass s t) := by
  have hcase := hstep.buffer hs
  obtain ⟨-, took, hunsent, hhanded⟩ := hcase.passes hs
  cases hhas : s.reactor.hasConnection with
  | true =>
    have hraises : s.raises t = false := by rw [ClientSystem.raises, hhas]; rfl
    rw [hraises, if_neg Bool.false_ne_true]
    have hpassed : (traffic.pass s t).queued = (traffic.pass s t).written ++
        t.reactor.unsent.map (Prod.mk s.reactor.connection.fileDescriptor) := by
      rw [Traffic.pass, hhanded, List.drop_left, h.left hhas, List.append_assoc,
        ClientSystem.buffers_tagged s t, ← List.map_append, hunsent, List.map_append,
        List.append_assoc]
    refine ⟨hpassed ▸ List.prefix_append _ _, fun ht => ?_⟩
    rw [hstep.descriptor htidy hhas ht]
    exact hpassed
  | false =>
    obtain ⟨hnone, hsame⟩ := hcase.unconnected hhas
    have hkept : traffic.pass s t = traffic := by
      rw [Traffic.pass, hnone, hsame, List.append_nil, List.drop_length, List.append_nil]
    cases ht : t.reactor.hasConnection with
    | true =>
      have hraises : s.raises t = true := by rw [ClientSystem.raises, hhas, ht]; rfl
      rw [if_pos hraises]
      refine ⟨List.prefix_refl _, fun _ => ?_⟩
      have hempty : t.reactor.unsent = [] := by
        rw [(hclean hraises).1, hnone, List.map_nil, List.append_nil] at hunsent
        exact (List.append_eq_nil_iff.mp hunsent.symm).2
      rw [hempty]
      rfl
    | false =>
      have hraises : s.raises t = false := by rw [ClientSystem.raises, hhas, ht]; rfl
      rw [hraises, if_neg Bool.false_ne_true, hkept]
      exact ⟨h.prefixed, fun hconnection => by rw [ht] at hconnection; cases hconnection⟩

/-- In a run in which one thread at a time sets or removes the connection, for descriptors that
are not in use, a connection is set only when nothing is left of the one before, and no
registration or deletion of a write filter fails, what has been written to the socket of a
connection is what was first put into the buffer for it, and `write_pending` says whether its
write filter is registered. -/
theorem connections_separate {receiver : Receiver} {states : List (ClientSystem × Traffic)}
    (hrun : (recordingReactors receiver).Run states)
    (hsingle : ∀ x ∈ states, x.1.owners.length ≤ 1)
    (hfresh : ∀ x y, [y, x] <:+: states → x.1.SetsFresh y.1)
    (hclean : ∀ x y, [y, x] <:+: states → x.1.SetsClean y.1)
    (hmonitored : ∀ x ∈ states, x.1.reactor.Monitored) :
    ∀ x ∈ states, x.2.written <+: x.2.queued ∧
      (x.1.Current → (x.1.reactor.connection.writePending = true ↔
        x.1.reactor.connection.fileDescriptor ∈ x.1.reactor.kernel.writeFilters)) := by
  have hsound : ∀ x ∈ states, x.1.Sound := hrun.forget_invariant fun _ => clientReactors_sound
  have hall : ∀ x ∈ states, x.1.Tidy ∧ Separate x.1 x.2 := by
    have hgood : ∀ x y, [y, x] <:+: states → x.1.Sound ∧ x.1.owners.length ≤ 1 ∧
        x.1.SetsFresh y.1 ∧ x.1.SetsClean y.1 ∧ y.1.reactor.Monitored := by
      intro x y hxy
      have hx : x ∈ states := hxy.mem (by simp)
      exact ⟨hsound x hx, hsingle x hx, hfresh x y hxy, hclean x y hxy,
        hmonitored y (hxy.mem (by simp))⟩
    refine hrun.invariant_along ?_ ?_ hgood
    · rintro ⟨s, traffic⟩ ⟨⟨fds, rfl⟩, htraffic⟩
      dsimp only at htraffic
      rw [htraffic]
      exact ⟨ClientSystem.started_tidy receiver fds, List.prefix_refl _, nofun⟩
    · rintro ⟨s, traffic⟩ ⟨t, traffic'⟩ ⟨htidy, hseparate⟩ ⟨hstep, htraffic⟩
        ⟨hs, hone, hnew, hempty, hwatched⟩
      dsimp only at hstep htraffic
      rw [htraffic]
      exact ⟨ClientSystem.Step.tidy hstep htidy hwatched hone hnew hempty,
        hseparate.step hs htidy hstep hempty⟩
  intro x hx
  obtain ⟨htidy, hseparate⟩ := hall x hx
  exact ⟨hseparate.prefixed, htidy.watched⟩

/-! ## Two connections -/

open ClientSystem

/-- A run of good steps of a client whose calls keep to the rules, and where `kevent` does not
fail. -/
structure Proper (Good : ClientSystem → ClientSystem → Prop)
    (states : List (ClientSystem × Traffic)) : Prop where
  run : (recordingReactors .workerPool).Run states
  single : ∀ x ∈ states, x.1.owners.length ≤ 1
  fresh : ∀ x y, [y, x] <:+: states → x.1.SetsFresh y.1
  good : ∀ x y, [y, x] <:+: states → Good x.1 y.1
  monitored : ∀ x ∈ states, x.1.reactor.Monitored

/-- Such a run leads to `s`. -/
def Properly (Good : ClientSystem → ClientSystem → Prop) (s : ClientSystem) (traffic : Traffic) :
    Prop :=
  ∃ past, Proper Good ((s, traffic) :: past)

variable {Good : ClientSystem → ClientSystem → Prop}

theorem Properly.next (h : Properly Good s traffic) (hstep : ClientSystem.Step s t)
    {traffic' : Traffic} (htraffic : (if s.raises t then {} else traffic.pass s t) = traffic')
    (hsingle : t.owners.length ≤ 1) (hfresh : s.SetsFresh t) (hgood : Good s t)
    (hmonitored : t.reactor.Monitored) : Properly Good t traffic' := by
  obtain ⟨past, hrun, hall, hsteps, hgoods, hlogs⟩ := h
  exact ⟨_, hrun.next ⟨hstep, htraffic.symm⟩, List.forall_mem_cons.mpr ⟨hsingle, hall⟩,
    TransitionSystem.successive_cons hsteps hfresh, TransitionSystem.successive_cons hgoods hgood,
    List.forall_mem_cons.mpr ⟨hmonitored, hlogs⟩⟩

theorem ClientReactor.Monitored.cons {r r' : ClientReactor} {e : ClientEffect} (h : r.Monitored)
    (hlog : r'.log = e :: r.log) (he : ∀ fd change, e ≠ .kevent fd change false) :
    r'.Monitored := by
  intro fd change hmem
  rw [hlog] at hmem
  rcases List.mem_cons.mp hmem with heq | hold
  · exact absurd heq.symm (he fd change)
  · exact h fd change hold

/-- Descriptor 5 has become the connection. -/
theorem sample_properly (hgood : ∀ s t : ClientSystem, s.SetsClean t → Good s t) :
    Properly Good (sampleAt sampleConnected .connecting .top) {} := by
  have hempty : (ClientReactor.started .workerPool ∅).Monitored := nofun
  have hregistered : sampleRegistered.Monitored := hempty.cons rfl nofun
  have hstart : Properly Good { reactor := ClientReactor.started .workerPool ∅ } {} := by
    have hnone (x y : ClientSystem × Traffic)
        (hxy : [y, x] <:+: [({ reactor := ClientReactor.started .workerPool ∅ }, {})]) : False := by
      have hle := hxy.length_le
      simp at hle
    exact ⟨[], .start ⟨⟨∅, rfl⟩, rfl⟩, by simp, fun x y hxy => (hnone x y hxy).elim,
      fun x y hxy => (hnone x y hxy).elim, by simpa using hempty⟩
  have henter := hstart.next (.setConnection 5 ⟨[]⟩) rfl (by decide)
    (fun fd peer heq => ⟨Finset.notMem_empty fd, nofun⟩) (hgood _ _ nofun) hempty
  have hcheck := henter.next (sampleAt_step _ _ _) rfl (by decide) (.of_le le_rfl)
    (hgood _ _ nofun) hempty
  have hmonitor := hcheck.next (sampleAt_step _ _ _) rfl (by decide) (.of_le le_rfl)
    (hgood _ _ nofun) hempty
  have hassign := hmonitor.next (sampleAt_step _ _ _) rfl (by decide) (.of_le le_rfl)
    (hgood _ _ nofun)
    hregistered
  have hraise := hassign.next (sampleAt_step _ _ _) rfl (by decide) (.of_le le_rfl)
    (hgood _ _ nofun)
    hregistered
  exact hraise.next (sampleAt_step _ _ _) rfl (by decide) nofun
    (hgood _ _ fun _ => ⟨SendBuffer.fresh_readable, rfl⟩) hregistered

/-- Two bytes and some more, and then another one, are in the queue of the client. -/
def sampleFilled (more : List UInt8) : ClientReactor :=
  let r := sampleConnected.dispatchEvent sampleEnvironment
    (.connected sampleConnected.connection.connectionId ⟨[]⟩)
  (r.push { data := 1 :: 2 :: more }).push { data := [9] }

/-- The loop is about to process the first operation. -/
def sampleFilledAt (r : ClientReactor) (owners : List ConnectionCaller) (loop : ClientLoop) :
    ClientSystem :=
  { reactor := r, callers := [.waking, .waking], owners := owners, loop := loop, nextPromise := 2 }

theorem keeps_clean (hgood : ∀ s t : ClientSystem, s.SetsClean t → Good s t)
    (h : s.reactor.hasConnection = true ∨ t.reactor.hasConnection = false) : Good s t := by
  refine hgood s t fun hraises => ?_
  rw [ClientSystem.raises, Bool.and_eq_true, Bool.not_eq_true'] at hraises
  rcases h with hs | ht
  · cases hs.symm.trans hraises.1
  · cases ht.symm.trans hraises.2

theorem sample_filled {more : List UInt8} (hmore : more.length ≤ 1)
    (hgood : ∀ s t : ClientSystem, s.SetsClean t → Good s t) :
    Properly Good (sampleFilledAt (sampleFilled more) [] (.draining 0)) {} := by
  have hregistered : (sampleFilled more).Monitored := by
    intro fd change hmem
    rcases List.mem_cons.mp hmem with heq | hmem
    · cases heq
    · cases List.mem_singleton.mp hmem
  have hkeep {s t : ClientSystem} (hs : s.reactor.hasConnection = true) : Good s t :=
    keeps_clean hgood (.inl hs)
  have hsized : (1 :: 2 :: more).length < 2 ^ 63 := by
    simp only [List.length_cons]
    omega
  have hconnect := (sample_properly hgood).next (sampleAt_step _ _ _) rfl (by decide)
    (.of_le le_rfl) (hkeep rfl) hregistered
  have hreturn := hconnect.next (.setConnectionReturned (List.nil_append _).symm) rfl
    (Nat.zero_le 1) (.of_le (Nat.zero_le 1)) (hkeep rfl) hregistered
  have hfirst := hreturn.next (.request (.async (1 :: 2 :: more)) hsized rfl) rfl (Nat.zero_le 1)
    (.of_le le_rfl) (hkeep rfl) hregistered
  have hfirst' := hfirst.next (.enqueue (List.nil_append _).symm nofun) rfl (Nat.zero_le 1)
    (.of_le le_rfl) (hkeep rfl) hregistered
  have hsecond := hfirst'.next (.request (.async [9]) (by decide) rfl) rfl (Nat.zero_le 1)
    (.of_le le_rfl) (hkeep rfl) hregistered
  have hsecond' := hsecond.next (.enqueue (List.nil_append _).symm nofun) rfl (Nat.zero_le 1)
    (.of_le le_rfl) (hkeep rfl) hregistered
  exact hsecond'.next (.loop (.enter rfl)) rfl (Nat.zero_le 1) (.of_le le_rfl) (hkeep rfl)
    hregistered

/-- `RemoveConnection` for descriptor 5, and `SetConnection` for descriptor 6, up to the
assignment to `has_connection_`. -/
def sampleCleared (r : ClientReactor) : ClientReactor :=
  ((r.closeFd 5).removeConnection sampleEnvironment .clearing).2

def sampleRemoved (r : ClientReactor) : ClientReactor :=
  ((sampleCleared r).removeConnection sampleEnvironment .disconnecting).2

def sampleMonitored (r : ClientReactor) : ClientReactor :=
  ((sampleRemoved r).monitor sampleEnvironment 6 .addRead).2

def sampleReassigned (r : ClientReactor) : ClientReactor :=
  ((sampleMonitored r).setConnection sampleEnvironment 6 ⟨[]⟩ .assigning).2

def sampleReconnected (r : ClientReactor) : ClientReactor :=
  { sampleReassigned r with hasConnection := true }

def samplePartlySent (more : List UInt8) : Option (Bool × Bool × ClientReactor) :=
  ((sampleFilled more).dequeue { data := 1 :: 2 :: more } [{ data := [9] }]).doSend
    sampleEnvironment (1 :: 2 :: more)

/-- The loop has processed the first operation. -/
def sampleHalfway (more : List UInt8) : ClientLoop :=
  .completing 1 { data := 1 :: 2 :: more } true

def ClientEffect.isKevent : ClientEffect → Bool
  | .kevent _ _ _ => true
  | _ => false

def ClientEffect.isFailure : ClientEffect → Bool
  | .kevent _ _ success => !success
  | _ => false

theorem ClientReactor.monitored_of_all {r : ClientReactor}
    (h : r.log.any ClientEffect.isFailure = false) : r.Monitored := by
  intro fd change hmem
  exact absurd rfl (List.any_eq_false.mp h _ hmem)

theorem sampleFilledAt_step {r : ClientReactor} {setting : Setting} (r' : ClientReactor)
    (setting' : Setting)
    (h : r.setConnection sampleEnvironment 6 ⟨[]⟩ setting = (setting', r')) (loop : ClientLoop) :
    ClientSystem.Step (sampleFilledAt r [.setting 6 ⟨[]⟩ setting] loop)
      (sampleFilledAt r' [.setting 6 ⟨[]⟩ setting'] loop) := by
  have hstep : ClientSystem.Step (sampleFilledAt r [.setting 6 ⟨[]⟩ setting] loop) _ :=
    .setting sampleEnvironment (List.nil_append _).symm
  rw [show (sampleFilledAt r [.setting 6 ⟨[]⟩ setting] loop).reactor = r from rfl, h] at hstep
  exact hstep

/-- What the first operation leaves. -/
structure SamplePartly (more : List UInt8) (r : ClientReactor) : Prop where
  sent : samplePartlySent more = some (true, false, r)
  running : r.isRunning = true
  connection : r.hasConnection = true
  opened : r.kernel.kqueueOpen = true
  descriptor : r.connection.fileDescriptor = 5
  receiver : r.receiver = .workerPool
  filter : 6 ∉ r.kernel.writeFilters
  monitored : r.Monitored

theorem sample_partly {more : List UInt8} (hmore : more = [] ∨ more = [3]) :
    ∃ r, SamplePartly more r := by
  have hresult : (samplePartlySent more).map (fun result => (result.1, result.2.1)) =
      some (true, false) := by
    rcases hmore with rfl | rfl <;> decide +kernel
  have hflags : (samplePartlySent more).map (fun result => (result.2.2.isRunning,
      result.2.2.hasConnection, result.2.2.kernel.kqueueOpen,
      result.2.2.log.any ClientEffect.isFailure)) = some (true, true, true, false) := by
    rcases hmore with rfl | rfl <;> decide +kernel
  have hwatch : (samplePartlySent more).map (fun result =>
      (result.2.2.connection.fileDescriptor, result.2.2.receiver,
        decide (6 ∈ result.2.2.kernel.writeFilters))) = some (5, .workerPool, false) := by
    rcases hmore with rfl | rfl <;> decide +kernel
  obtain ⟨⟨success, removes, r⟩, hdo, heq⟩ := Option.map_eq_some_iff.mp hresult
  rw [hdo, Option.map_some, Option.some.injEq] at hflags hwatch
  simp only [Prod.mk.injEq] at heq hflags hwatch
  obtain ⟨rfl, rfl⟩ := heq
  obtain ⟨hrunning, hconnection, hopen, hfailures⟩ := hflags
  obtain ⟨hfd, hreceiver, hfilter⟩ := hwatch
  exact ⟨r, hdo, hrunning, hconnection, hopen, hfd, hreceiver, of_decide_eq_false hfilter,
    ClientReactor.monitored_of_all hfailures⟩

/-- The first operation, which leaves what does not fit in the send buffer. -/
theorem sample_halfway {more : List UInt8} {r : ClientReactor} (h : SamplePartly more r)
    (hmore : more.length ≤ 1) (hgood : ∀ s t : ClientSystem, s.SetsClean t → Good s t) :
    Properly Good (sampleFilledAt r [] (sampleHalfway more))
      (Traffic.pass {} (sampleFilledAt (sampleFilled more) [] (.draining 0))
        (sampleFilledAt r [] (sampleHalfway more))) := by
  have hqueue : (sampleFilled more).sendOperations =
      { data := 1 :: 2 :: more } :: [{ data := [9] }] := rfl
  have hstep : ClientSystem.Step (sampleFilledAt (sampleFilled more) [] (.draining 0))
      (sampleFilledAt r [] (sampleHalfway more)) :=
    .loop (.process sampleEnvironment (by decide) hqueue h.sent)
  have hconnection : (sampleFilled more).hasConnection = true := rfl
  refine (sample_filled hmore hgood).next hstep (if_neg ?_) (Nat.zero_le 1) (.of_le le_rfl)
    (keeps_clean hgood (.inl hconnection)) h.monitored
  rw [ClientSystem.raises, sampleFilledAt, hconnection]
  exact Bool.false_ne_true

/-- Descriptor 6 becomes the connection. -/
theorem Properly.reconnected {more : List UInt8} {r : ClientReactor} (hpartly : SamplePartly more r)
    (h : Properly Good (sampleFilledAt r [] (sampleHalfway more)) traffic)
    (hgood : ∀ s t : ClientSystem, s.SetsClean t → Good s t)
    (hraise : ∀ s t : ClientSystem, s.reactor = sampleReassigned r → Good s t) :
    Properly Good (sampleFilledAt (sampleReconnected r) [.setting 6 ⟨[]⟩ .connecting]
      (sampleHalfway more)) {} ∧ (sampleReconnected r).Monitored := by
  have hkeep {s t : ClientSystem} (hs : s.reactor.hasConnection = true) : Good s t :=
    keeps_clean hgood (.inl hs)
  have hdrop {s t : ClientSystem} (ht : t.reactor.hasConnection = false) : Good s t :=
    keeps_clean hgood (.inr ht)
  obtain ⟨hsent, hrunning, hconnection, hopen, hfd, hreceiver, hfilter, hmonitored⟩ := hpartly
  have hremoved : sampleRemoved r = (sampleCleared r).emit
      (.dispatched (.disconnected (sampleCleared r).connection.connectionId)) := by
    have hpool : (sampleCleared r).receiver = .workerPool := hreceiver
    rw [sampleRemoved, removeConnection, dispatchEvent, hpool]
    rfl
  have hmonitor : (sampleRemoved r).monitor sampleEnvironment 6 .addRead =
      (true, sampleMonitored r) := by
    have hstill : (sampleRemoved r).kernel.kqueueOpen = true := by
      rw [hremoved]
      exact hopen
    rw [sampleMonitored, monitor, hstill]
    rfl
  have hgone : (sampleRemoved r).hasConnection = false := by
    rw [hremoved]
    rfl
  have hclosed : (r.closeFd 5).Monitored := hmonitored.cons rfl (by simp)
  have hdisconnected : (sampleRemoved r).Monitored :=
    hclosed.cons (congrArg ClientReactor.log hremoved) (by simp)
  have hregistered : (sampleMonitored r).Monitored := by
    refine hdisconnected.cons (e := .kevent 6 .addRead true) ?_ (by simp)
    have hsuccess := congrArg Prod.fst hmonitor
    rw [monitor] at hsuccess
    rw [sampleMonitored, monitor]
    exact congrArg (fun success => ClientEffect.kevent 6 .addRead success :: _) hsuccess
  have hentering : r.setConnection sampleEnvironment 6 ⟨[]⟩ .entering = (.checking, r) := by
    simp [ClientReactor.setConnection, hrunning]
  have hchecking : r.setConnection sampleEnvironment 6 ⟨[]⟩ .checking =
      (.removing .checking, r) := by
    simp [ClientReactor.setConnection, hconnection]
  have hclosing : r.setConnection sampleEnvironment 6 ⟨[]⟩ (.removing .checking) =
      (.removing (.closing 5), r) := by
    simp [ClientReactor.setConnection, ClientReactor.removeConnection, hconnection, hfd]
  have hset := h.next (.setConnection 6 ⟨[]⟩) rfl le_rfl
    (fun fd peer heq => ?_) (hkeep hconnection) hmonitored
  · have hcheck := hset.next (sampleFilledAt_step _ _ hentering _) rfl le_rfl (.of_le le_rfl)
      (hkeep hconnection) hmonitored
    have hremove := hcheck.next (sampleFilledAt_step _ _ hchecking _) rfl le_rfl (.of_le le_rfl)
      (hkeep hconnection) hmonitored
    have hclose := hremove.next (sampleFilledAt_step _ _ hclosing _) rfl le_rfl (.of_le le_rfl)
      (hkeep hconnection) hmonitored
    have hclear := hclose.next (sampleFilledAt_step _ _ rfl _) rfl le_rfl (.of_le le_rfl)
      (hkeep hconnection) hclosed
    have hdisconnect := hclear.next (sampleFilledAt_step _ _ rfl _) rfl le_rfl (.of_le le_rfl)
      (hkeep hconnection) hclosed
    have hmonitoring := hdisconnect.next (sampleFilledAt_step _ _ rfl _) rfl le_rfl (.of_le le_rfl)
      (hdrop hgone) hdisconnected
    have hregister : (sampleRemoved r).setConnection sampleEnvironment 6 ⟨[]⟩ .monitoring =
        (.assigning, sampleMonitored r) := by
      rw [ClientReactor.setConnection, hmonitor]
      rfl
    have hassign := hmonitoring.next (sampleFilledAt_step _ _ hregister _) rfl le_rfl
      (.of_le le_rfl) (hdrop hgone) hregistered
    have hassigned := hassign.next (sampleFilledAt_step _ _ rfl _) rfl le_rfl (.of_le le_rfl)
      (hdrop hgone) hregistered
    refine ⟨hassigned.next (sampleFilledAt_step _ _ rfl _) (if_pos ?_) le_rfl (.of_le le_rfl)
      (hraise _ _ rfl) hregistered, hregistered⟩
    exact congrArg (!· && true) hgone
  · cases heq
    exact ⟨hfilter, fun _ => .inr fun hsix => absurd (hfd.symm.trans hsix) (by decide)⟩

/-- A byte of one connection is written to the next one, and then `write_pending` says that a write
filter is registered that is not. -/
theorem left_byte_crosses :
    (∃ states, Proper (fun _ _ => True) states ∧ ∃ x ∈ states, ¬x.2.written <+: x.2.queued) ∧
      ∃ states, Proper (fun _ _ => True) states ∧ ∃ x ∈ states, x.1.Current ∧
        x.1.reactor.connection.writePending = true ∧
        x.1.reactor.connection.fileDescriptor ∉ x.1.reactor.kernel.writeFilters := by
  obtain ⟨r, hpartly⟩ := sample_partly (.inr rfl)
  have hdo := hpartly.sent
  obtain ⟨hproperly, -⟩ := (sample_halfway hpartly le_rfl fun _ _ _ => trivial).reconnected hpartly
    (fun _ _ _ => trivial) fun _ _ _ => trivial
  have hflags : (samplePartlySent [3]).map (fun result =>
      ((sampleReconnected result.2.2).kernel.kqueueOpen,
        (sampleReconnected result.2.2).connection.writePending,
        decide ((sampleReconnected result.2.2).connection.fileDescriptor ∈
          (sampleReconnected result.2.2).kernel.writeFilters))) = some (true, true, false) := by
    decide +kernel
  have hqueue : (samplePartlySent [3]).map
    (fun result => (sampleReconnected result.2.2).sendOperations) =
      some [{ data := [9] }] := by decide +kernel
  have hhanded : (samplePartlySent [3]).map (fun result => (sampleReconnected result.2.2).handed) =
      some [(5, 1), (5, 2)] := by decide +kernel
  have hagain : (samplePartlySent [3]).bind (fun result =>
      (((sampleReconnected result.2.2).dequeue { data := [9] } []).doSend sampleEnvironment
        [9]).map fun result => (result.1, result.2.1, result.2.2.handed)) =
      some (true, false, [(5, 1), (5, 2), (6, 3), (6, 9)]) := by decide +kernel
  have hkevents : (samplePartlySent [3]).bind (fun result =>
      (((sampleReconnected result.2.2).dequeue { data := [9] } []).doSend sampleEnvironment
        [9]).map fun result => result.2.2.log.filter ClientEffect.isKevent) =
      some [.kevent 6 .deleteWrite true, .kevent 6 .addRead true, .kevent 5 .addWrite true,
        .kevent 5 .addRead true] := by decide +kernel
  rw [hdo] at hflags hqueue hhanded hagain hkevents
  rw [Option.bind_some] at hagain hkevents
  rw [Option.map_some, Option.some.injEq] at hflags hqueue hhanded
  simp only [Prod.mk.injEq] at hflags
  obtain ⟨hopen, hpending, hfilter⟩ := hflags
  obtain ⟨⟨success, removes', r'⟩, hdo', hresult⟩ := Option.map_eq_some_iff.mp hagain
  rw [hdo', Option.map_some, Option.some.injEq] at hkevents
  simp only [Prod.mk.injEq] at hresult
  obtain ⟨rfl, rfl, hhanded'⟩ := hresult
  have hmonitored : r'.Monitored := by
    intro fd change hmem
    have hkevent := hkevents ▸ List.mem_filter.mpr ⟨hmem, rfl⟩
    simp at hkevent
  refine ⟨?_, ?_⟩
  · obtain ⟨past, hproper⟩ := hproperly
    have hnothing : (sampleReconnected r).handed.drop (sampleReconnected r).handed.length = [] :=
      List.drop_length
    have hwritten : r'.handed.drop (sampleReconnected r).handed.length = [(6, 3), (6, 9)] := by
      rw [hhanded, hhanded']
      rfl
    have hcomplete := Properly.next ⟨past, hproper⟩ (.loop .complete)
      (congrArg (Traffic.mk []) hnothing) le_rfl (.of_le le_rfl) trivial
      (hproper.monitored _ List.mem_cons_self)
    obtain ⟨past', hproper'⟩ := hcomplete.next
      (.loop (.process sampleEnvironment (by decide) hqueue hdo'))
      (congrArg (Traffic.mk [(6, 9)]) hwritten) le_rfl (.of_le le_rfl) trivial hmonitored
    have hcrossed : ¬[((6 : ℤ), (3 : UInt8)), (6, 9)] <+: [(6, 9)] := by decide
    exact ⟨_, hproper', _, List.mem_cons_self, hcrossed⟩
  · obtain ⟨past, hproper⟩ := hproperly
    refine ⟨_, hproper, _, List.mem_cons_self, ⟨rfl, hopen, ?_⟩, hpending,
      of_decide_eq_false hfilter⟩
    rintro (hloop | ⟨owner, hmem, howner⟩)
    · exact hloop
    · cases List.mem_singleton.mp hmem
      exact howner

/-- Two bytes are written to the first connection, and then one to the next one. -/
theorem connections_separate_two : ∃ x past, (recordingReactors .workerPool).Run (x :: past) ∧
    x.1.reactor.handed = [(5, 1), (5, 2), (6, 9)] ∧ x.2.written = [(6, 9)] ∧
    ∀ y ∈ x :: past, y.2.written <+: y.2.queued ∧
      (y.1.Current → (y.1.reactor.connection.writePending = true ↔
        y.1.reactor.connection.fileDescriptor ∈ y.1.reactor.kernel.writeFilters)) := by
  obtain ⟨r, hpartly⟩ := sample_partly (.inl rfl)
  have hclean : (samplePartlySent []).map (fun result =>
      ((sampleReassigned result.2.2).unsent, (sampleReassigned result.2.2).connection.writePending,
        (sampleReconnected result.2.2).sendOperations, (sampleReconnected result.2.2).handed)) =
      some ([], false, [{ data := [9] }], [(5, 1), (5, 2)]) := by decide +kernel
  have hagain : (samplePartlySent []).bind (fun result =>
      (((sampleReconnected result.2.2).dequeue { data := [9] } []).doSend sampleEnvironment
        [9]).map fun result => (result.1, result.2.1, result.2.2.handed,
          result.2.2.log.any ClientEffect.isFailure)) =
      some (true, false, [(5, 1), (5, 2), (6, 9)], false) := by decide +kernel
  rw [hpartly.sent, Option.map_some, Option.some.injEq] at hclean
  rw [hpartly.sent, Option.bind_some] at hagain
  simp only [Prod.mk.injEq] at hclean
  obtain ⟨hunsent, hpending, hqueue, hhanded⟩ := hclean
  obtain ⟨⟨success, removes, r'⟩, hdo, hresult⟩ := Option.map_eq_some_iff.mp hagain
  simp only [Prod.mk.injEq] at hresult
  obtain ⟨rfl, rfl, hhanded', hfailures⟩ := hresult
  obtain ⟨hreconnected, hmonitored⟩ :=
    (sample_halfway hpartly (Nat.zero_le 1) fun _ _ hclean => hclean).reconnected hpartly
      (fun _ _ hclean => hclean) fun s t hs _ => hs ▸ ⟨hunsent, hpending⟩
  have hcomplete := hreconnected.next (.loop .complete)
    (congrArg (Traffic.mk []) List.drop_length) le_rfl (.of_le le_rfl)
    (keeps_clean (fun _ _ hclean => hclean) (.inl rfl)) hmonitored
  have hwritten : r'.handed.drop (sampleReconnected r).handed.length = [(6, 9)] := by
    rw [hhanded, hhanded']
    rfl
  obtain ⟨past, hproper⟩ := hcomplete.next
    (.loop (.process sampleEnvironment (by decide) hqueue hdo))
    (congrArg (Traffic.mk [(6, 9)]) hwritten) le_rfl (.of_le le_rfl)
    (keeps_clean (fun _ _ hclean => hclean) (.inl rfl)) (ClientReactor.monitored_of_all hfailures)
  exact ⟨_, past, hproper.run, hhanded', rfl, connections_separate hproper.run hproper.single
    hproper.fresh hproper.good hproper.monitored⟩

end DarwinCore.Network
