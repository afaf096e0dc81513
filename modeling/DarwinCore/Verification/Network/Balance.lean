import DarwinCore.Verification.Network.Control
import DarwinCore.Verification.Network.Frame

/-! # Occupancy and balance -/

/-! ## The tables agree with each other, with the counter and with the kernel -/

namespace DarwinCore.Network

open Maps Relation

namespace Reactor

/-- `connections_` and `fd_to_connection_id_` are inverse to each other, a connection is
stored under its own id, the counter counts the connections, and their descriptors are
open. -/
structure Consistent (r : Reactor) : Prop where
  keyed : ∀ id conn, r.connections.lookup id = some conn → conn.connectionId = id
  inverse : ∀ fd id, r.fdToConnectionId.lookup fd = some id ↔
    ∃ conn, r.connections.lookup id = some conn ∧ conn.fileDescriptor = fd
  counted : r.stats.activeConnections = r.connections.keys.card
  isOpen : ∀ fd, fd ∈ r.fdToConnectionId → fd ∈ r.kernel.openFds

def Counted (r : Reactor) : Prop :=
  r.stats.activeConnections = r.connections.keys.card

variable {may : Lapse → Prop} {r r' : Reactor} {id : UInt64} {fd : ℤ} {conn : ReactorConnection}

theorem Counted.congr (h : r.Counted) (hconnections : r'.connections = r.connections)
    (hactive : r'.stats.activeConnections = r.stats.activeConnections) : r'.Counted := by
  rw [Counted, hconnections, hactive]
  exact h

theorem monitor_active (env : Environment) (change : Change) :
    (r.monitor env fd change).2.stats.activeConnections = r.stats.activeConnections := by
  unfold monitor
  dsimp only

theorem dispatchEvent_kept (env : Environment) (event : NetworkEvent) (r : Reactor) :
    (r.dispatchEvent env event).kernel = r.kernel ∧
      (r.dispatchEvent env event).stats.activeConnections = r.stats.activeConnections := by
  rcases dispatchEvent_cases env event r with ⟨-, h⟩ | h | h <;> rw [h] <;> exact ⟨rfl, rfl⟩

theorem Counted.dispatchEvent (h : r.Counted) (env : Environment) (event : NetworkEvent) :
    (r.dispatchEvent env event).Counted :=
  h.congr (quiet_dispatchEvent env event r).connections (dispatchEvent_kept env event r).2

/-- A removal takes one connection out of the table and one off the counter. -/
theorem Counted.doRemoveConnection (h : r.Counted) (howns : r.Owns id fd conn) :
    (r.doRemoveConnection id).2.Counted := by
  have hcard : (r.connections.erase id).keys.card + 1 = r.connections.keys.card :=
    card_erase_of_some howns.lookup
  rw [howns.remove_eq]
  change r.stats.activeConnections - 1 = ((r.connections.erase id).keys.card : ℤ)
  rw [show r.stats.activeConnections = _ from h]
  omega

theorem ConnMove.keepsCount (hmove : ConnMove may id fd r r') (h : r.Counted) : r'.Counted := by
  cases hmove with
  | @settled r₁ conn conn' howns hkey hfd hvalid hmonitored =>
    have hcounted : r₁.Counted := hmonitored.keeps (fun _ env change h =>
      h.congr (quiet_monitor env fd change _).connections (monitor_active env change)) h
    have hlookup : r₁.connections.lookup id = some conn := by
      rw [hmonitored.quiet.connections]
      exact howns.lookup
    exact hcounted.trans (congrArg Nat.cast (card_insert_of_some hlookup).symm)
  | received env time data hdata howns =>
    refine Counted.dispatchEvent ?_ env _
    exact h.trans (congrArg Nat.cast (card_insert_of_some howns.lookup).symm)
  | close env howns =>
    rw [howns.close_eq env]
    exact (h.dispatchEvent env _).doRemoveConnection (howns.dispatchEvent env _)
  | error env code howns =>
    rw [howns.error_eq env code]
    exact ((h.dispatchEvent env _).dispatchEvent env _).doRemoveConnection
      ((howns.dispatchEvent env _).dispatchEvent env _)
  | _ => exact h

theorem AddCase.keepsCount {env : Environment} {peer : SockAddr} {result : UInt64 × Reactor}
    (hcase : AddCase env fd peer r result) (h : r.Counted) : result.2.Counted := by
  have hseq : r.nextSeq.2.Counted := by
    unfold nextSeq
    split <;> exact h
  have hmonitored : (r.nextSeq.2.monitor env fd .addRead).2.Counted :=
    hseq.congr (quiet_monitor env fd .addRead _).connections (monitor_active env .addRead)
  cases hcase with
  | ignored => exact h
  | collided => exact hseq
  | unmonitored => exact hmonitored
  | @added id hrunning hid hfresh =>
    refine Counted.dispatchEvent ?_ env _
    have hnone : (r.nextSeq.2.monitor env fd .addRead).2.connections.lookup id = none := by
      rw [(quiet_monitor env fd .addRead _).connections, r.quiet_nextSeq.connections]
      exact hfresh
    refine (congrArg (· + 1) hmonitored).trans ?_
    exact (congrArg Nat.cast (card_insert_of_none hnone)).symm

/-- Every move keeps the count, except cleaning up. -/
theorem Move.keepsCount (hmove : Move may r r') (hnone : ¬may .abandoned) (h : r.Counted) :
    r'.Counted := by
  cases hmove with
  | idle hidle => exact h.congr hidle.connections hidle.active
  | adding env fd peer hpos hopen hfree hcase => exact hcase.keepsCount h
  | removed howns => exact h.doRemoveConnection howns
  | connection hconn => exact hconn.keepsCount h
  | cleaned env horder hmay =>
    have hempty : r.connections = ∅ := not_not.mp fun hne => hnone (hmay hne)
    have hzero : r.stats.activeConnections = 0 := by
      rw [show r.stats.activeConnections = _ from h, hempty]
      rfl
    have hall (ids : List UInt64) : ∀ r : Reactor,
        (ids.foldl closeOnly r).stats.activeConnections = r.stats.activeConnections := by
      induction ids with
      | nil => exact fun r => rfl
      | cons id ids ih =>
        intro r
        refine (ih _).trans ?_
        unfold closeOnly
        split <;> rfl
    exact (hall env.order _).trans hzero
  | _ => exact h

theorem Moves.keepsCount (hmoves : Moves may r r') (hnone : ¬may .abandoned) (h : r.Counted) :
    r'.Counted := by
  induction hmoves with
  | refl => exact h
  | tail _ hmove ih => exact hmove.keepsCount hnone ih

end Reactor

/-- In every state of every run before `Stop` has cleaned up, the tables, the counter and the
open descriptors agree. -/
theorem reactors_consistent {reactorId : ℤ} {receiver : Receiver} {states : List System}
    (hrun : (reactors reactorId receiver).Run states) :
    ∀ s ∈ states, s.stopping ≠ .returned → s.reactor.Consistent := by
  have hall : ∀ s ∈ states, (s.AtRest ∧ s.Phase) ∧
      (s.stopping ≠ .returned → s.reactor.Counted) := by
    refine hrun.invariant ?_ fun s t h (hstep : System.Step s t) =>
      ⟨⟨hstep.atRest h.1.1, hstep.phase h.1.1 h.1.2⟩, fun hrunning => ?_⟩
    · rintro s ⟨timeout, rfl⟩
      exact ⟨⟨started_atRest reactorId receiver timeout,
        started_phase reactorId receiver timeout⟩, fun _ => rfl⟩
    · have hbefore : s.stopping ≠ .returned := fun hreturned =>
        hrunning (hstep.stays_returned h.1.2 hreturned)
      have hmoves : Reactor.Moves (· ≠ .abandoned) s.reactor t.reactor :=
        hstep.moves h.1.1 (fun _ => by simp) (fun habandon => absurd habandon.2.1 hrunning)
          (fun _ => by simp) fun _ => by simp
      exact Reactor.Moves.keepsCount hmoves (by simp) (h.2 hbefore)
  intro s hs hrunning
  obtain ⟨⟨hrest, -⟩, hcounted⟩ := hall s hs
  refine ⟨fun id conn hc => (hrest.tables.keyed id conn hc).1, hrest.tables.owner,
    hcounted hrunning, fun fd hfd => ?_⟩
  obtain ⟨id, hid⟩ := Finmap.mem_iff.mp hfd
  obtain ⟨conn, hc, rfl⟩ := (hrest.tables.owner fd id).mp hid
  exact (hrest.tables.live id conn hc).2

/-- A connection whose data are half sent is in both tables and is counted. -/
theorem reactors_consistent_partial_send : ∃ s past,
    (reactors 0 .workerPool).Run (s :: past) ∧ s.reactor.Consistent ∧
      s.reactor.fdToConnectionId.lookup 5 = some sampleId := by
  obtain ⟨s, past, hrun, hsent, hstopping, -⟩ := sample_run
  have hlookup : sampleSent.map (fun r => r.fdToConnectionId.lookup 5) =
      some (some sampleId) := by
    decide +kernel
  rw [hsent, Option.map_some, Option.some.injEq] at hlookup
  refine ⟨s, past, hrun, reactors_consistent hrun s List.mem_cons_self ?_, hlookup⟩
  rw [hstopping]
  decide

/-! ## Back-pressure never wedges a connection

As long as the calls of `kevent` succeed, the flags of every connection agree with its buffer
and with the filters of its descriptor, so that a paused connection awaits the write event
that will resume it. -/

namespace Reactor

/-- Every connection has its flags in agreement, and only descriptors of connections have
filters. -/
structure Balanced (r : Reactor) : Prop where
  pressed : ∀ i c, r.connections.lookup i = some c → Pressure r.kernel c
  registered : ∀ x, x ∈ r.kernel.readFilters ∨ x ∈ r.kernel.writeFilters →
    ∃ i c, r.connections.lookup i = some c ∧ c.fileDescriptor = x

variable {may : Lapse → Prop} {r r' : Reactor} {id : UInt64} {fd : ℤ}
  {conn conn' : ReactorConnection}

theorem Balanced.congr (h : r.Balanced) (hconnections : r'.connections = r.connections)
    (hread : r'.kernel.readFilters = r.kernel.readFilters)
    (hwrite : r'.kernel.writeFilters = r.kernel.writeFilters) : r'.Balanced := by
  refine ⟨fun i c hc => ?_, ?_⟩
  · rw [hconnections] at hc
    have hpressure := h.pressed i c hc
    exact ⟨⟨hread ▸ hpressure.reading, hpressure.high, hpressure.low⟩, hpressure.pending,
      hwrite ▸ hpressure.writing⟩
  · rw [hconnections, hread, hwrite]
    exact h.registered

theorem balanced_of_empty (hconnections : r.connections = ∅) (hread : r.kernel.readFilters = ∅)
    (hwrite : r.kernel.writeFilters = ∅) : r.Balanced := by
  have hnone : ∀ i c, ¬r.connections.lookup i = some c := by
    intro i c hc
    rw [hconnections] at hc
    cases hc
  refine ⟨fun i c hc => absurd hc (hnone i c), ?_⟩
  intro x hx
  rw [hread, hwrite] at hx
  simp at hx

theorem Flawless.of_suffix (hlog : r.log <:+ r'.log) (h : r'.Flawless) : r.Flawless :=
  fun fd change hmem => h fd change (hlog.mem hmem)

/-- Away from `fd` nothing has changed, so that only the connection on it counts. -/
theorem Balanced.change (h : r.Balanced) (haway : Away fd r r')
    (hown : ∀ i c, r'.connections.lookup i = some c → c.fileDescriptor = fd →
      Pressure r'.kernel c)
    (hregistered : fd ∈ r'.kernel.readFilters ∨ fd ∈ r'.kernel.writeFilters →
      ∃ i c, r'.connections.lookup i = some c ∧ c.fileDescriptor = fd) : r'.Balanced where
  pressed i c hc := by
    by_cases hfd : c.fileDescriptor = fd
    · exact hown i c hc hfd
    · have hpressure := h.pressed i c ((haway.connections i c hfd).mp hc)
      exact ⟨⟨(haway.readFilters _ hfd).trans hpressure.reading, hpressure.high,
        hpressure.low⟩, hpressure.pending, (haway.writeFilters _ hfd).trans hpressure.writing⟩
  registered x hx := by
    by_cases hfd : x = fd
    · subst hfd
      exact hregistered hx
    · rw [haway.readFilters x hfd, haway.writeFilters x hfd] at hx
      obtain ⟨i, c, hc, rfl⟩ := h.registered x hx
      exact ⟨i, c, (haway.connections i c hfd).mpr hc, rfl⟩

/-- The connection on `fd` is assigned to. -/
theorem Balanced.store (h : r.Balanced) (hseparate : r.Separate) (howns : r.Owns id fd conn)
    (haway : Away fd r r') (hconnections : r'.connections = r.connections.insert id conn')
    (hfd : conn'.fileDescriptor = fd) (hpressure : Pressure r'.kernel conn') : r'.Balanced := by
  refine h.change haway (fun i c hc hon => ?_) fun _ => ?_
  · rw [hconnections, lookup_insert_eq_some] at hc
    rcases hc with ⟨rfl, rfl⟩ | ⟨hne, hc⟩
    · exact hpressure
    · exact absurd (howns.only hseparate hc hon) hne
  · exact ⟨id, conn', by rw [hconnections]; exact Finmap.lookup_insert _, hfd⟩

theorem closeFd_unregistered (fd : ℤ) (r : Reactor) :
    ¬(fd ∈ (r.closeFd fd).kernel.readFilters ∨ fd ∈ (r.closeFd fd).kernel.writeFilters) := by
  simp [closeFd, Kernel.close]

theorem Balanced.closeFd (h : r.Balanced) (hfree : r.Unowned fd) : (r.closeFd fd).Balanced :=
  h.change (closeFd_away fd r) (fun i c hc hon => absurd hon (hfree i c hc))
    fun hfilter => absurd hfilter (closeFd_unregistered fd r)

theorem Balanced.remove (h : r.Balanced) (hseparate : r.Separate) (howns : r.Owns id fd conn) :
    (r.doRemoveConnection id).2.Balanced := by
  refine h.change howns.remove_away (fun i c hc hon => ?_) fun hfilter => ?_
  · exact absurd hon (howns.remove_only hseparate hc)
  · rw [howns.remove_eq] at hfilter
    exact absurd hfilter (closeFd_unregistered fd r)

theorem Balanced.dispatchEvent (h : r.Balanced) (env : Environment) (event : NetworkEvent) :
    (r.dispatchEvent env event).Balanced := by
  have hkernel := (dispatchEvent_kept env event r).1
  exact h.congr (quiet_dispatchEvent env event r).connections (by rw [hkernel]) (by rw [hkernel])

theorem ConnMove.balanced (hmove : ConnMove may id fd r r') (hflawless : r'.Flawless)
    (hseparate : r.Separate) (h : r.Balanced) : r'.Balanced := by
  cases hmove with
  | @settled r₁ conn conn' howns hkey hfd hvalid hmonitored hpressure =>
    have haway := hmonitored.away.trans ((howns.quiet hmonitored.quiet).store_away hfd)
    have hsettled : Pressure r₁.kernel conn' :=
      hpressure hflawless (h.pressed id conn howns.lookup)
    refine h.store hseparate howns haway ?_ hfd hsettled
    exact congrArg (Finmap.insert id conn') hmonitored.quiet.connections
  | tried => exact h.congr rfl rfl rfl
  | counted => exact h.congr rfl rfl rfl
  | uncounted => exact h.congr rfl rfl rfl
  | @received conn env time data hdata howns =>
    have hstored : Away fd r (r.store id { conn with lastActive := time }) :=
      howns.store_away howns.descriptor
    have hpressure := h.pressed id conn howns.lookup
    have hbalanced : (r.store id { conn with lastActive := time }).Balanced :=
      h.store hseparate howns hstored rfl howns.descriptor
        (hpressure.congr rfl rfl rfl howns.valid howns.valid rfl)
    refine Balanced.dispatchEvent ?_ env _
    exact hbalanced.congr rfl rfl rfl
  | close env howns =>
    rw [howns.close_eq env]
    exact (h.dispatchEvent env _).remove
      (hseparate.dispatchEvent env _) (howns.dispatchEvent env _)
  | error env code howns =>
    rw [howns.error_eq env code]
    exact ((h.dispatchEvent env _).dispatchEvent env _).remove
      ((hseparate.dispatchEvent env _).dispatchEvent env _)
      ((howns.dispatchEvent env _).dispatchEvent env _)

theorem nextSeq_kernel (r : Reactor) : r.nextSeq.2.kernel = r.kernel := by
  unfold nextSeq
  split <;> rfl

theorem register_kernel (env : Environment) (peer : SockAddr) (r : Reactor) :
    (r.register env id fd peer).kernel = r.kernel :=
  (dispatchEvent_kept env _ _).1

/-- A new connection has nothing buffered, and only its read filter. -/
theorem AddCase.balanced {env : Environment} {peer : SockAddr} {result : UInt64 × Reactor}
    (hcase : AddCase env fd peer r result) (hfree : r.Unowned fd) (hflawless : result.2.Flawless)
    (h : r.Balanced) : result.2.Balanced := by
  have hseq : r.nextSeq.2.Balanced :=
    h.congr r.quiet_nextSeq.connections (by rw [nextSeq_kernel]) (by rw [nextSeq_kernel])
  have hmonitored := quiet_monitor env fd .addRead r.nextSeq.2
  have hconnections : (r.nextSeq.2.monitor env fd .addRead).2.connections = r.connections :=
    hmonitored.connections.trans r.quiet_nextSeq.connections
  have haway := hcase.away
  cases hcase with
  | ignored => exact h
  | collided =>
    refine hseq.closeFd ?_
    rw [Unowned, r.quiet_nextSeq.connections]
    exact hfree
  | unmonitored =>
    refine h.change haway (fun i c hc hon => absurd hon (hfree i c ?_)) fun hfilter =>
      absurd hfilter (closeFd_unregistered fd _)
    rw [← hconnections]
    exact hc
  | @added id hrunning hid hfresh =>
    have hkernel := monitor_kernel env fd .addRead
      (hflawless.of_suffix (register_grows env peer _).suffix)
    obtain ⟨conn, hinsert, hfd, hbuffer, hpaused, hpending⟩ :=
      register_connections id fd env peer (r.nextSeq.2.monitor env fd .addRead).2
    rw [hconnections] at hinsert
    have hunregistered : fd ∉ r.kernel.writeFilters := fun hfilter => by
      obtain ⟨i, c, hc, hon⟩ := h.registered fd (.inr hfilter)
      exact hfree i c hc hon
    refine h.change haway (fun i c hc hon => ?_) fun _ => ?_
    · rw [hinsert, lookup_insert_eq_some] at hc
      rcases hc with ⟨rfl, rfl⟩ | ⟨-, hc⟩
      · rw [register_kernel, hkernel, nextSeq_kernel]
        refine ⟨⟨?_, ?_, ?_⟩, ?_, ?_⟩
        · simp [Kernel.apply, hfd, hpaused]
        · rw [hbuffer]
          exact fun hhigh => absurd hhigh (by decide)
        · simp [hpaused]
        · rw [hpending, hbuffer]
          decide
        · simpa [Kernel.apply, hfd, hpending] using hunregistered
      · exact absurd hon (hfree i c hc)
    · exact ⟨id, conn, by rw [hinsert]; exact Finmap.lookup_insert _, hfd⟩

/-- With the `kqueue`, all filters are gone. -/
theorem closeAllOnly_unregistered (ids : List UInt64) (r : Reactor)
    (hread : r.kernel.readFilters = ∅)
    (hwrite : r.kernel.writeFilters = ∅) :
    (ids.foldl closeOnly r).kernel.readFilters = ∅ ∧
      (ids.foldl closeOnly r).kernel.writeFilters = ∅ := by
  induction ids generalizing r with
  | nil => exact ⟨hread, hwrite⟩
  | cons id ids ih =>
    refine ih (closeOnly r id) ?_ ?_
    · unfold closeOnly
      split
      · exact hread
      · simp [Reactor.closeFd, Kernel.close, hread]
    · unfold closeOnly
      split
      · exact hwrite
      · simp [Reactor.closeFd, Kernel.close, hwrite]

theorem Move.balanced (hmove : Move may r r') (hflawless : r'.Flawless)
    (hseparate : r.Separate) (h : r.Balanced) : r'.Balanced := by
  cases hmove with
  | idle hidle => exact h.congr hidle.connections hidle.readFilters hidle.writeFilters
  | took => exact h.congr rfl rfl rfl
  | answered => exact h.congr rfl rfl rfl
  | opened => exact h.congr rfl rfl rfl
  | closed fd hopen hfree => exact h.closeFd hfree
  | adding env fd peer hpos hopen hfree hcase =>
    refine hcase.balanced hfree hflawless ?_
    exact h.congr rfl rfl rfl
  | removed howns => exact h.remove hseparate howns
  | connection hconn => exact hconn.balanced hflawless hseparate h
  | cleaned env =>
    obtain ⟨hread, hwrite⟩ := closeAllOnly_unregistered env.order
      { r with kernel := r.kernel.closeQueue } rfl rfl
    exact balanced_of_empty rfl hread hwrite

end Reactor

/-- In every state of a run in which no call of `kevent` has failed, the flags of every
connection agree with its buffer and its filters; if it is paused, then a write event is
awaited. -/
theorem reactors_pressure {reactorId : ℤ} {receiver : Receiver} {states : List System}
    (hrun : (reactors reactorId receiver).Run states) :
    ∀ s ∈ states, (∀ fd change, Effect.kevent fd change false ∉ s.reactor.log) →
      ∀ id conn, s.reactor.connections.lookup id = some conn →
        Pressure s.reactor.kernel conn ∧
          (conn.readPaused = true → conn.fileDescriptor ∈ s.reactor.kernel.writeFilters) := by
  intro s hs hflawless id conn hc
  obtain ⟨-, hbalanced⟩ := reactors_invariant (P := fun r => r.Flawless → r.Balanced)
    (fun _ _ => Reactor.balanced_of_empty rfl rfl rfl) (fun _ _ hseparate h hmove hfl =>
      hmove.balanced hfl hseparate (h (hfl.of_suffix hmove.log))) hrun s hs
  have hpressure := (hbalanced hflawless).pressed id conn hc
  have hvalid := ((reactors_atRest hrun s hs).tables.keyed id conn hc).2
  exact ⟨hpressure, hpressure.awaits hvalid⟩

/-- A connection whose data are half sent awaits a write event. -/
theorem reactors_pressure_partial_send : ∃ s past conn, (reactors 0 .workerPool).Run (s :: past) ∧
    s.reactor.connections.lookup sampleId = some conn ∧ conn.writePending = true ∧
      Pressure s.reactor.kernel conn := by
  obtain ⟨s, past, hrun, hsent, -⟩ := sample_run
  have hlookup : sampleSent.map (fun r => (r.connections.lookup sampleId).map
      ReactorConnection.writePending) = some (some true) := by
    decide +kernel
  have hlog : sampleSent.map Reactor.log = some
      [.kevent 5 .addWrite true, .sent 5 [1, 2], .took (.send sampleId [1, 2, 3]),
        .dispatched (.connected sampleId ⟨[]⟩), .added sampleId 5, .kevent 5 .addRead true,
        .took (.add 5 ⟨[]⟩), .opened 5] := by
    decide +kernel
  rw [hsent, Option.map_some, Option.some.injEq] at hlookup hlog
  obtain ⟨conn, hc, hpending⟩ := Option.map_eq_some_iff.mp hlookup
  have hflawless : ∀ fd change, Effect.kevent fd change false ∉ s.reactor.log := by
    rw [hlog]
    simp
  exact ⟨s, past, conn, hrun, hc, hpending,
    (reactors_pressure hrun s List.mem_cons_self hflawless sampleId conn hc).1⟩

end DarwinCore.Network
