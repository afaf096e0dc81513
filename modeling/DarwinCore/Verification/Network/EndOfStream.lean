import DarwinCore.Verification.Network.Delivery

/-! # How a reactor learns the end of a stream

The end is told by `EV_EOF` or by `recv`. In the first case nothing is read any more, so that
what is unread then is lost. -/

namespace DarwinCore.Network

open History Relation Streams

namespace Reactor

variable {held : List Operation} {r r' r'' : Reactor} {id : UInt64} {fd : ℤ}
  {conn : ReactorConnection}

/-- An error of the connection `id` is announced on the way. -/
def Reports (id : UInt64) (r r' : Reactor) : Prop :=
  ∃ extra, r'.log = extra ++ r.log ∧ ∃ e ∈ extra, e.ReportsError id

theorem Reports.after (h : Reports id r' r'') (hlog : r.log <:+ r'.log) : Reports id r r'' := by
  obtain ⟨extra, hextra, e, he, herror⟩ := h
  obtain ⟨before, hbefore⟩ := hlog
  refine ⟨extra ++ before, ?_, e, List.mem_append_left before he, herror⟩
  rw [hextra, ← hbefore, List.append_assoc]

theorem Reports.before (h : Reports id r r') (hlog : r'.log <:+ r''.log) : Reports id r r'' := by
  obtain ⟨extra, hextra, e, he, herror⟩ := h
  obtain ⟨after, hafter⟩ := hlog
  refine ⟨after ++ extra, ?_, e, List.mem_append_right after he, herror⟩
  rw [← hafter, hextra, List.append_assoc]

theorem dispatchEvent_announced (env : Environment) (event : NetworkEvent)
    (h : r.receiver ≠ .nobody) :
    ∃ e, (r.dispatchEvent env event).log = e :: r.log ∧
      (e = .dispatched event ∨ e = .refused event) := by
  rcases dispatchEvent_cases env event r with ⟨hnobody, -⟩ | hsent | hsent
  · exact absurd hnobody h
  · exact hsent ▸ ⟨_, rfl, .inl rfl⟩
  · exact hsent ▸ ⟨_, rfl, .inr rfl⟩

theorem doRemoveConnection_log (id : UInt64) (r : Reactor) :
    r.log <:+ (r.doRemoveConnection id).2.log := by
  unfold doRemoveConnection
  split
  · exact List.suffix_rfl
  · exact List.suffix_cons _ _

theorem handleConnectionError_reports (env : Environment) (code : Errno)
    (hkey : conn.connectionId = id) (h : r.receiver ≠ .nobody) :
    Reports id r (r.handleConnectionError env conn code) := by
  unfold handleConnectionError
  rw [hkey]
  obtain ⟨e, hlog, he⟩ :=
    dispatchEvent_announced env (.error id (mapErrnoToNetworkError code) code) h
  have hreports : Reports id r
      (r.dispatchEvent env (.error id (mapErrnoToNetworkError code) code)) := by
    refine ⟨[e], hlog, e, List.mem_singleton_self e, ?_⟩
    rcases he with rfl | rfl <;> rfl
  refine hreports.before ?_
  exact (dispatchEvent_grows env (.disconnected id) _).suffix.trans (doRemoveConnection_log id _)

/-- After reading, the connection is still there, or the stream has ended, or there was an
error. -/
theorem receiveLoop_finishes (env : Environment) (outcomes : List RecvOutcome)
    (h : r.Owns id fd conn) (hreceiver : r.receiver ≠ .nobody) :
    id ∈ (r.receiveLoop env fd id outcomes).connections ∨ endsStream outcomes = true ∨
      Reports id r (r.receiveLoop env fd id outcomes) := by
  induction outcomes generalizing r conn with
  | nil => exact .inl h.mem
  | cons outcome rest ih =>
    rw [receiveLoop, h.lookup]
    cases outcome with
    | received data hdata =>
      have hmove : ConnMove (fun _ => True) id fd r _ :=
        .received env (env.clock r.log.length) data (List.length_pos_iff.mp hdata.1) h
          fun _ => trivial
      have hstored : (r.store id
          { conn with lastActive := env.clock r.log.length }).Owns id fd _ :=
        h.store h.key h.descriptor h.valid
      refine (ih (Owns.dispatchEvent (hstored.congr ?_ ?_) env _) ?_).imp_right
        (Or.imp_right fun hreports => hreports.after hmove.grows.suffix)
      · rfl
      · rfl
      · rw [dispatchEvent_receiver]
        exact hreceiver
    | closed => exact .inr (.inl rfl)
    | failed code =>
      have herror : Reports id r (r.handleConnectionError env conn code) :=
        handleConnectionError_reports env code h.key hreceiver
      cases code with
      | eagain => exact .inl h.mem
      | eintr => exact ih h hreceiver
      | _ => exact .inr (.inr herror)

/-- After writing, the connection is still there, or there was an error. -/
theorem flush_finishes (env : Environment) (h : r.Owns id fd conn)
    (hreceiver : r.receiver ≠ .nobody) :
    id ∈ (r.flush env fd id conn).connections ∨ Reports id r (r.flush env fd id conn) := by
  unfold flush
  dsimp only
  split
  · exact .inl (Finmap.mem_insert.mpr (.inl rfl))
  · split
    · refine .inr (Reports.after (handleConnectionError_reports env _ ?_ ?_) ?_)
      · exact h.key
      · exact hreceiver
      · exact List.suffix_cons _ r.log
    · exact .inl (Finmap.mem_insert.mpr (.inl rfl))

end Reactor

/-! ## Runs -/

namespace System

/-- The connection `id` leaves the table when `event` is handled, without an error of it being
announced. -/
structure Finishes (s t : System) (event : KEvent) (id : UInt64) : Prop where
  handles : ∃ env, s.Handles t env event
  owned : ∃ conn, s.reactor.connections.lookup id = some conn ∧
    conn.fileDescriptor = event.ident
  left : id ∉ t.reactor.connections
  silent : ¬s.reactor.Reports id t.reactor

variable {s t : System} {event : KEvent} {id : UInt64}

theorem Finishes.cases (h : s.Finishes t event id) (hrest : s.AtRest) :
    ∃ env conn, s.Handles t env event ∧ s.reactor.Owns id event.ident conn ∧
      t.reactor = s.reactor.processKqueueEvent env event ∧
      Reactor.EventCase env event s.reactor t.reactor := by
  obtain ⟨⟨env, hhandles⟩, ⟨conn, hc, hfd⟩, hleft, -⟩ := h
  obtain ⟨rest, hs, ht, hreactor⟩ := hhandles
  have howns : s.reactor.Owns id event.ident conn := hfd ▸ hrest.tables.owns hc
  refine ⟨env, conn, ⟨rest, hs, ht, hreactor⟩, howns, ?_⟩
  split at hreactor
  · rw [hreactor] at hleft
    exact absurd howns.mem hleft
  · refine ⟨hreactor, ?_⟩
    rw [hreactor]
    exact hrest.tables.processKqueueEvent_cases env event

/-- Unless `EV_EOF` is set, `recv` has told the end of the stream. -/
theorem Finishes.hears (h : s.Finishes t event id) (hrest : s.AtRest)
    (hreceiver : s.reactor.receiver ≠ .nobody) (heof : event.eof = false) :
    s.HearsEnd t event.ident := by
  obtain ⟨env, conn, hhandles, howns, hreactor, hcase⟩ := h.cases hrest
  have hsilent := h.silent
  have hleft := h.left
  have hown {i : UInt64} {c : ReactorConnection} (hc : s.reactor.Owns i event.ident c) :
      i = id ∧ c = conn := by
    obtain rfl := howns.only hrest.tables.separate hc.lookup hc.descriptor
    exact ⟨rfl, Option.some.inj (hc.lookup.symm.trans howns.lookup)⟩
  generalize t.reactor = r at hcase hsilent hleft
  cases hcase with
  | ignored => exact absurd howns.mem hleft
  | ended hc hset => exact absurd (heof.symm.trans hset) (by decide)
  | failed hc =>
    obtain ⟨rfl, rfl⟩ := hown hc
    exact absurd (Reactor.handleConnectionError_reports env _ hc.key hreceiver) hsilent
  | readable hc _ herror hfilter =>
    obtain ⟨rfl, rfl⟩ := hown hc
    have hmem : event.ident ∈ s.reactor.fdToConnectionId :=
      Finmap.mem_of_lookup_eq_some
        ((hrest.tables.owner _ _).mpr ⟨_, hc.lookup, hc.descriptor⟩)
    rcases Reactor.receiveLoop_finishes env env.recv hc hreceiver with
      hstays | hends | hreports
    · exact absurd hstays hleft
    · exact ⟨env, event, hhandles, rfl, hfilter, heof, herror, hmem, hends⟩
    · exact absurd hreports hsilent
  | writable hc =>
    obtain ⟨rfl, rfl⟩ := hown hc
    rcases Reactor.flush_finishes env hc hreceiver with hstays | hreports
    · exact absurd hstays hleft
    · exact absurd hreports hsilent

/-- Once `EV_EOF` is seen, nothing is read. -/
theorem Finishes.moot (h : s.Finishes t event id) (hrest : s.AtRest)
    (heof : event.eof = true) : Reactor.Grows Effect.Moot s.reactor t.reactor := by
  obtain ⟨env, conn, -, howns, -, hcase⟩ := h.cases hrest
  generalize t.reactor = r at hcase
  cases hcase with
  | ignored => exact .of_eq rfl
  | ended hc => exact hc.close_moot env
  | failed hc hunset => exact absurd (heof.symm.trans hunset) (by decide)
  | readable hc hunset => exact absurd (heof.symm.trans hunset) (by decide)
  | writable hc hunset => exact absurd (heof.symm.trans hunset) (by decide)

end System

/-- When the peer has closed its side and the connection ends without an error, every byte that
the peer wrote has been dispatched if and only if none was unread when `EV_EOF` was seen and the
worker pool has refused none. -/
theorem reactors_deliver_iff {reactorId : ℤ} {receiver : Receiver}
    {states : List (System × (ℤ → Stream UInt8))}
    (hrun : (System.wiring.wired (reactors reactorId receiver)).Run states)
    (hreceiver : ∀ x ∈ states, x.1.reactor.receiver ≠ .nobody)
    {x y : System × (ℤ → Stream UInt8)} (hxy : [y, x] <:+: states) {event : KEvent}
    {id : UInt64} (h : x.1.Finishes y.1 event id)
    (hclosed : event.eof = true → (x.2 event.ident).closed = true) :
    y.1.reactor.delivered id = (y.2 event.ident).written ↔
      (event.eof = true → (x.2 event.ident).unread = []) ∧ y.1.reactor.lost id = [] := by
  have hx : x ∈ states := hxy.mem (by simp)
  obtain ⟨past, hpast, hmem⟩ := Wiring.run_fst hrun x hx
  have hheard : ∀ s ∈ x.1 :: past, s.reactor.receiver ≠ .nobody := by
    intro s hs
    obtain ⟨z, hz, rfl⟩ := List.mem_map.mp (hmem s hs)
    exact hreceiver z hz
  obtain ⟨hrest, haccounted⟩ := reactors_accounted hpast hheard x.1 List.mem_cons_self
  obtain ⟨env, conn, -, howns, -, hcase⟩ := h.cases hrest
  have hdelivers : y.1.reactor.Delivers id event.ident := by
    have hbefore : x.1.reactor.Delivers id event.ident := by
      rw [← howns.descriptor]
      exact haccounted.table id conn howns.lookup
    have hmoves : y.1.reactor = x.1.reactor ∨ ∃ i c, x.1.reactor.Owns i event.ident c ∧
        Reactor.ConnMoves (· ≠ .unheard) i event.ident x.1.reactor y.1.reactor :=
      hcase.connMoves fun hnobody => absurd hnobody (hreceiver x hx)
    rcases hmoves with hsame | ⟨i, c, hc, hmoves⟩
    · rw [hsame]
      exact hbefore
    · rw [howns.only hrest.tables.separate hc.lookup hc.descriptor] at hmoves
      exact Reactor.ConnMoves.delivers hmoves (by simp) hbefore
  have hwritten : (y.2 event.ident).written =
      y.1.reactor.got event.ident ++ (y.2 event.ident).unread := by
    refine Wiring.conserved ?_ hrun y (hxy.mem (by simp)) event.ident
    rintro s ⟨timeout, rfl⟩
    rfl
  rw [hwritten, hdelivers.kept_eq_iff, and_congr_left_iff]
  intro _
  have hstep : System.wiring.Step System.Step x y := hrun.step_of_infix hxy
  cases heof : event.eof with
  | true =>
    have hquiet : Reactor.Grows (fun e => e.opens event.ident = false ∧
        e.receivedOn event.ident = []) x.1.reactor y.1.reactor :=
      (h.moot hrest heof).mono fun e he =>
        ⟨(he.silent : e.Silent id event.ident).opens,
          (he.silent : e.Silent id event.ident).received⟩
    obtain ⟨-, hunread, -⟩ := (hstep.flows hquiet).still (hclosed heof)
    simp [hunread]
  | false =>
    have hmoved : x.1 ≠ y.1 := fun heq => h.left (heq ▸ howns.mem)
    have hends := hstep.ended hmoved (h.hears hrest (hreceiver x hx) heof)
    simp [hends.1]

end DarwinCore.Network
