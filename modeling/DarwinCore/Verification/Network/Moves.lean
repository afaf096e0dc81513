import DarwinCore.Verification.Network.Conservation
import DarwinCore.Verification.Network.Pressure

/-! # The moves of a reactor

Every step of a reactor is a sequence of moves, each of which changes one thing: a
connection, the log or a descriptor. What each move keeps is kept by every step. -/

namespace DarwinCore.Network

open Relation

/-- What the source leaves out in some of its branches. -/
inductive Lapse where
  /-- A connection is removed on request, without an event. -/
  | unannounced
  /-- Connections are still in the table when it is cleaned up. -/
  | abandoned
  /-- Bytes that the kernel accepted are not counted. -/
  | uncounted
  /-- Bytes that were received are not dispatched, since there is nobody to receive them. -/
  | unheard
  deriving DecidableEq, Repr

namespace Reactor

/-! ## Moves -/

/-- What is done for the connection stored under `id` on `fd`. -/
inductive ConnMove (may : Lapse → Prop) (id : UInt64) (fd : ℤ) : Reactor → Reactor → Prop where
  /-- The connection is assigned to, after filters of its descriptor have been changed. -/
  | settled {r r₁ : Reactor} {conn conn' : ReactorConnection} (h : r.Owns id fd conn)
      (hkey : conn'.connectionId = id) (hfd : conn'.fileDescriptor = fd)
      (hvalid : conn'.sendBuffer.Valid) (hmonitored : Monitored fd r r₁)
      (hpressure : r₁.Flawless → Pressure r.kernel conn → Pressure r₁.kernel conn') :
      ConnMove may id fd r (r₁.store id conn')
  /-- A `send` that hands nothing to the kernel. -/
  | tried {r : Reactor} {conn : ReactorConnection} (h : r.Owns id fd conn) :
      ConnMove may id fd r (r.emit (.sent fd []))
  | counted {r : Reactor} {conn : ReactorConnection} (data : List UInt8)
      (h : r.Owns id fd conn) :
      ConnMove may id fd r ((r.emit (.sent fd data)).count fun s =>
        { s with totalBytesSent := s.totalBytesSent + data.length })
  | uncounted {r : Reactor} {conn : ReactorConnection} (data : List UInt8)
      (h : r.Owns id fd conn) (hmay : may .uncounted) :
      ConnMove may id fd r (r.emit (.sent fd data))
  | received {r : Reactor} {conn : ReactorConnection} (env : Environment) (time : ℕ)
      (data : List UInt8) (hdata : data ≠ []) (h : r.Owns id fd conn)
      (hmay : r.receiver = .nobody → may .unheard) :
      ConnMove may id fd r
        ((((r.store id { conn with lastActive := time }).emit (.received fd data)).count
          fun s => { s with totalBytesReceived := s.totalBytesReceived + data.length
            }).dispatchEvent env (.data id data))
  | close {r : Reactor} {conn : ReactorConnection} (env : Environment) (h : r.Owns id fd conn) :
      ConnMove may id fd r (r.handleConnectionClose env conn)
  | error {r : Reactor} {conn : ReactorConnection} (env : Environment) (code : Errno)
      (h : r.Owns id fd conn) : ConnMove may id fd r (r.handleConnectionError env conn code)

/-- The tables, the log, the kernel's descriptors and filters, the sequence number and the
counters of connections and bytes are the same. A worker pool stays. -/
structure Idle (r r' : Reactor) : Prop where
  connections : r'.connections = r.connections
  fds : r'.fdToConnectionId = r.fdToConnectionId
  openFds : r'.kernel.openFds = r.kernel.openFds
  readFilters : r'.kernel.readFilters = r.kernel.readFilters
  writeFilters : r'.kernel.writeFilters = r.kernel.writeFilters
  log : r'.log = r.log
  seq : r'.connectionSeq = r.connectionSeq
  reactorId : r'.reactorId = r.reactorId
  receiver : r.receiver = .workerPool → r'.receiver = .workerPool
  active : r'.stats.activeConnections = r.stats.activeConnections
  bytesSent : r'.stats.totalBytesSent = r.stats.totalBytesSent

def Unowned (r : Reactor) (fd : ℤ) : Prop :=
  ∀ id conn, r.connections.lookup id = some conn → conn.fileDescriptor ≠ fd

inductive Move (may : Lapse → Prop) : Reactor → Reactor → Prop where
  | idle {r r' : Reactor} (h : r.Idle r') : Move may r r'
  | took {r : Reactor} (op : Operation) (hop : op.newFd = none) :
      Move may r (r.emit (.took op))
  | answered {r : Reactor} (promise value : ℕ) : Move may r (r.emit (.answered promise value))
  | opened {r : Reactor} (fd : ℤ) (hpos : 0 ≤ fd) (hfresh : fd ∉ r.kernel.openFds) :
      Move may r (r.accept fd)
  /-- A descriptor that was not handed over is closed. -/
  | closed {r : Reactor} (fd : ℤ) (hopen : fd ∈ r.kernel.openFds) (hfree : r.Unowned fd) :
      Move may r (r.closeFd fd)
  | adding {r : Reactor} (env : Environment) (fd : ℤ) (peer : SockAddr)
      {result : UInt64 × Reactor} (hpos : 0 ≤ fd) (hopen : fd ∈ r.kernel.openFds)
      (hfree : r.Unowned fd)
      (h : AddCase env fd peer (r.emit (.took (.add fd peer))) result) : Move may r result.2
  | removed {r : Reactor} {id : UInt64} {fd : ℤ} {conn : ReactorConnection}
      (h : r.Owns id fd conn) (hmay : may .unannounced) : Move may r (r.doRemoveConnection id).2
  | connection {r r' : Reactor} {id : UInt64} {fd : ℤ} (h : ConnMove may id fd r r') :
      Move may r r'
  | cleaned {r : Reactor} (env : Environment) (h : env.Iterates r)
      (hmay : r.connections ≠ ∅ → may .abandoned) :
      Move may r ({ r with kernel := r.kernel.closeQueue }.cleanupAllConnections env)

abbrev ConnMoves (may : Lapse → Prop) (id : UInt64) (fd : ℤ) :=
  ReflTransGen (ConnMove may id fd)

abbrev Moves (may : Lapse → Prop) := ReflTransGen (Move may)

variable {may : Lapse → Prop} {held : List Operation} {r r' : Reactor} {id : UInt64} {fd : ℤ}
  {conn conn' : ReactorConnection}

theorem ConnMoves.moves (h : ConnMoves may id fd r r') : Moves may r r' :=
  ReflTransGen.mono (fun _ _ => .connection) _ _ h

theorem Idle.refl (r : Reactor) : r.Idle r :=
  ⟨rfl, rfl, rfl, rfl, rfl, rfl, rfl, rfl, id, rfl, rfl⟩

theorem idle_flags (r : Reactor) (running stopped : Bool) (queue : List Operation)
    (wakeup : Bool) (timeout : ℤ) :
    r.Idle { r with
      isRunning := running
      queueStopped := stopped
      pendingOperations := queue
      connectionTimeout := timeout
      kernel := { r.kernel with wakeup := wakeup } } :=
  ⟨rfl, rfl, rfl, rfl, rfl, rfl, rfl, rfl, id, rfl, rfl⟩

theorem Idle.counted (h : r' = { r with stats := r'.stats })
    (hactive : r'.stats.activeConnections = r.stats.activeConnections)
    (hbytes : r'.stats.totalBytesSent = r.stats.totalBytesSent) : r.Idle r' := by
  rw [h]
  exact ⟨rfl, rfl, rfl, rfl, rfl, rfl, rfl, rfl, id, hactive, hbytes⟩

/-! ## Sending -/

theorem Owns.restore (h : r.Owns id fd conn) {buffer : SendBuffer} (hvalid : buffer.Valid)
    (hreadable : buffer.readable = conn.sendBuffer.readable) :
    ConnMove may id fd r (r.store id { conn with sendBuffer := buffer }) :=
  .settled h h.key h.descriptor hvalid .refl fun _ hpressure =>
    hpressure.congr rfl rfl rfl h.valid hvalid hreadable

theorem Owns.stalled (h : r.Owns id fd conn) (env : Environment) {buffer : SendBuffer}
    (hvalid : buffer.Valid) (hreadable : buffer.readable = conn.sendBuffer.readable) :
    ConnMove may id fd r
      ((r.stopWriting env fd { conn with sendBuffer := buffer }).2.store id
        (r.stopWriting env fd { conn with sendBuffer := buffer }).1) := by
  have hflags := stopWriting_flagged env fd { conn with sendBuffer := buffer } r
  refine .settled h (hflags.key.trans h.key) (hflags.fd.trans h.descriptor) ?_
    (stopWriting_monitored env _ _ _) fun hflawless hpressure => ?_
  · rw [hflags.buffer]
    exact hvalid
  · have hsame : Pressure r.kernel { conn with sendBuffer := buffer } :=
      hpressure.congr rfl rfl rfl h.valid hvalid hreadable
    exact stopWriting_pressure env h.descriptor hsame.toReadSide hsame.writing hsame.pending.mpr
      hflawless

/-- Reading is resumed below the low mark, and then the same. -/
theorem Owns.drained (h : r.Owns id fd conn) (env : Environment) (time : ℕ)
    {buffer : SendBuffer} {data : List UInt8} (hvalid : buffer.Valid)
    (hsplit : data ++ buffer.readable = conn.sendBuffer.readable)
    {resumed stopped : ReactorConnection × Reactor}
    (hresumed : resumed = r.resumeReading env fd
      { conn with sendBuffer := buffer, lastActive := time })
    (hstopped : stopped = resumed.2.stopWriting env fd resumed.1) :
    ConnMove may id fd r (stopped.2.store id stopped.1) := by
  have hflags : Flagged { conn with sendBuffer := buffer, lastActive := time } r stopped := by
    rw [hstopped, hresumed]
    exact (resumeReading_flagged env fd _ r).trans (stopWriting_flagged env fd _ _)
  have hmonitored : Monitored fd r stopped.2 := by
    rw [hstopped, hresumed]
    exact (resumeReading_monitored env _ _ _).trans (stopWriting_monitored env _ _ _)
  refine .settled h (hflags.key.trans h.key) (hflags.fd.trans h.descriptor) ?_ hmonitored
    fun hflawless hpressure => ?_
  · rw [hflags.buffer]
    exact hvalid
  · refine flushed_pressure env hresumed hstopped h.descriptor hpressure.reading ?_
      hpressure.writing ?_ hflawless
    · intro hhigh
      have hsize : buffer.size ≤ conn.sendBuffer.size := by
        rw [← h.valid.readable_length, ← hvalid.readable_length, ← hsplit, List.length_append]
        exact Nat.le_add_left _ _
      exact hpressure.high (le_trans hhigh hsize)
    · intro hbusy
      refine hpressure.pending.mpr
        (Bool.eq_false_iff.mpr fun hempty => Bool.eq_false_iff.mp hbusy ?_)
      have hnil := h.valid.readable_eq_nil hempty
      rw [← hsplit, List.append_eq_nil_iff] at hnil
      exact hvalid.isEmpty_iff.mpr hnil.2

theorem WriteCase.connMoves {env : Environment} {data : List UInt8} {result : Bool × Reactor}
    (hwrite : WriteCase env id conn data r result) (h : r.Owns id fd conn) :
    ConnMoves may id fd r result.2 := by
  cases hwrite with
  | @refused buffer hvalid hreadable =>
    have hstored : (r.store id { conn with sendBuffer := buffer }).Owns id fd _ :=
      h.store h.key h.descriptor hvalid
    exact (ReflTransGen.single (h.restore hvalid hreadable)).tail (.error env .enomem hstored)
  | @buffered buffer paused awaiting hdata hvalid hreadable hpaused hawaiting =>
    have hpause := pauseReading_flagged env { conn with sendBuffer := buffer } r
    have hpausing :
        Monitored conn.fileDescriptor r
          (r.pauseReading env { conn with sendBuffer := buffer }).2 :=
      pauseReading_monitored env { conn with sendBuffer := buffer } r
    rw [← hpaused] at hpause hpausing
    have hawait := awaitWritable_flagged env paused.1 paused.2
    have hawaits : Monitored paused.1.fileDescriptor paused.2
        (paused.2.awaitWritable env paused.1).2 := awaitWritable_monitored env _ _
    rw [← hawaiting, hpause.fd] at hawaits
    rw [← hawaiting] at hawait
    have hflags := hpause.trans hawait
    refine .single (.settled h (hflags.key.trans h.key) (hflags.fd.trans h.descriptor) ?_
      (h.descriptor ▸ hpausing.trans hawaits) fun hflawless hpressure => ?_)
    · rw [hflags.buffer]
      exact hvalid
    · have hsize : conn.sendBuffer.size ≤ buffer.size := by
        rw [← h.valid.readable_length, ← hvalid.readable_length, hreadable,
          List.length_append]
        exact Nat.le_add_right _ _
      refine buffered_pressure env hpaused hawaiting hpressure.reading
        (fun hset => (hpressure.low hset).trans hsize) hpressure.writing ?_ hflawless
      refine Bool.eq_false_iff.mpr fun hempty => hdata ?_
      exact (List.append_eq_nil_iff.mp (hreadable ▸ hvalid.isEmpty_iff.mp hempty)).2

theorem SendCase.connMoves {env : Environment} {data : List UInt8} {result : Bool × Reactor}
    (hsend : SendCase env id data r result)
    (hshort : ∀ conn, r.connections.lookup id = some conn → conn.sendBuffer.isEmpty = true →
      0 < (env.send r.log.length data.length).taken →
      (env.send r.log.length data.length).taken < data.length → may .uncounted) :
    result.2 = r ∨ ∃ fd, ConnMoves may id fd r result.2 := by
  cases hsend with
  | absent => exact .inl rfl
  | queued h hbusy hwrite => exact .inr ⟨_, hwrite.connMoves h⟩
  | @failed fd conn code h =>
    have htried : (r.emit (.sent fd [])).Owns id fd conn := h.congr rfl rfl
    exact .inr ⟨fd, (ReflTransGen.single (.tried h)).tail (.error env code htried)⟩
  | @short fd conn result taken htaken h hidle hless hwrite =>
    have hsent : (r.emit (.sent fd (data.take taken))).Owns id fd conn := h.congr rfl rfl
    have hfirst : ConnMove may id fd r (r.emit (.sent fd (data.take taken))) := by
      rcases Nat.eq_zero_or_pos taken with hzero | hpos
      · rw [hzero, List.take_zero]
        exact .tried h
      · rw [htaken] at hpos hless
        exact .uncounted _ h (hshort conn h.lookup hidle hpos hless)
    exact .inr ⟨fd, .head hfirst (hwrite.connMoves hsent)⟩
  | complete h => exact .inr ⟨_, .single (.counted data h)⟩

/-! ## Events -/

/-- Both results of `SendToSocket` are in agreement with what the kernel took, so that all
of it is counted. -/
theorem flush_connMoves (env : Environment) (h : r.Owns id fd conn) :
    ConnMoves may id fd r (r.flush env fd id conn) := by
  obtain ⟨send, hsend⟩ : ∃ send, send = env.send r.log.length := ⟨_, rfl⟩
  obtain ⟨hbvalid, hreadable⟩ := h.valid.sendToSocket h.nonneg send
  obtain ⟨hpositive, hnothing⟩ := h.valid.sendToSocket_count h.nonneg send
  have hsplit := List.take_append_drop (send conn.sendBuffer.size).taken conn.sendBuffer.readable
  rw [flush, ← hsend]
  rw [← hreadable] at hsplit
  generalize conn.sendBuffer.sendToSocket fd send = result at hbvalid hpositive hnothing hsplit
  obtain ⟨sent, buffer⟩ := result
  generalize conn.sendBuffer.readable.take (send conn.sendBuffer.size).taken = data at *
  dsimp only at hbvalid hpositive hnothing hsplit ⊢
  split
  · rename_i hpos
    rw [hpositive hpos]
    obtain ⟨counted, hcounted⟩ : ∃ counted, counted = (r.emit (.sent fd data)).count fun s =>
      { s with totalBytesSent := s.totalBytesSent + data.length } := ⟨_, rfl⟩
    have hmove : ConnMove may id fd r counted := hcounted ▸ .counted data h
    have howns : counted.Owns id fd conn := h.congr (by rw [hcounted]; rfl) (by rw [hcounted]; rfl)
    rw [← hcounted]
    exact .head hmove (.single (howns.drained env _ hbvalid hsplit rfl rfl))
  · rename_i hpos
    rw [hnothing hpos, List.nil_append] at hsplit
    rw [hnothing hpos]
    have htried : (r.emit (.sent fd [])).Owns id fd conn := h.congr rfl rfl
    refine .head (.tried h) ?_
    split
    · have hstored : ((r.emit (.sent fd [])).store id
          { conn with sendBuffer := buffer }).Owns id fd _ :=
        htried.store h.key h.descriptor hbvalid
      exact (ReflTransGen.single (htried.restore hbvalid hsplit)).tail (.error env _ hstored)
    · exact .single (htried.stalled env hbvalid hsplit)

theorem dispatchEvent_receiver (env : Environment) (event : NetworkEvent) (r : Reactor) :
    (r.dispatchEvent env event).receiver = r.receiver := by
  rcases dispatchEvent_cases env event r with ⟨-, h⟩ | h | h <;> rw [h] <;> rfl

/-- Receiving and, at the end, at most one removal. -/
theorem receiveLoop_connMoves (env : Environment) (outcomes : List RecvOutcome)
    (h : r.Owns id fd conn) (hmay : r.receiver = .nobody → may .unheard) :
    ConnMoves may id fd r (r.receiveLoop env fd id outcomes) := by
  induction outcomes generalizing r conn with
  | nil => exact .refl
  | cons outcome rest ih =>
    rw [receiveLoop, h.lookup]
    cases outcome with
    | received data hdata =>
      have hstored : (r.store id
          { conn with lastActive := env.clock r.log.length }).Owns id fd _ :=
        h.store h.key h.descriptor h.valid
      have howns := hstored.quiet (((quiet_emit _ (e := .received fd data)
        (Effect.quiet_of rfl)).trans (quiet_count _ fun s =>
          { s with totalBytesReceived := s.totalBytesReceived + data.length })).trans
            (quiet_dispatchEvent env (.data id data) _))
      refine .head (.received env _ data (List.length_pos_iff.mp hdata.1) h hmay) (ih howns ?_)
      rw [dispatchEvent_receiver]
      exact hmay
    | closed => exact .single (.close env h)
    | failed code =>
      have herror : ConnMoves may id fd r (r.handleConnectionError env conn code) :=
        .single (.error env code h)
      cases code with
      | eagain => exact .refl
      | eintr => exact ih h hmay
      | _ => exact herror

theorem EventCase.connMoves {env : Environment} {event : KEvent}
    (hevent : EventCase env event r r') (hmay : r.receiver = .nobody → may .unheard) :
    r' = r ∨ ∃ id conn, r.Owns id event.ident conn ∧ ConnMoves may id event.ident r r' := by
  cases hevent with
  | ignored => exact .inl rfl
  | ended h => exact .inr ⟨_, _, h, .single (.close env h)⟩
  | failed h => exact .inr ⟨_, _, h, .single (.error env _ h)⟩
  | readable h => exact .inr ⟨_, _, h, receiveLoop_connMoves env _ h hmay⟩
  | writable h => exact .inr ⟨_, _, h, flush_connMoves env h⟩

theorem EventCase.moves {env : Environment} {event : KEvent} (hevent : EventCase env event r r')
    (hmay : r.receiver = .nobody → may .unheard) : Moves may r r' := by
  rcases hevent.connMoves hmay with rfl | ⟨id, conn, -, h⟩
  · exact .refl
  · exact ConnMoves.moves h

/-! ## Timeouts -/

theorem closeAll_moves (env : Environment) (ids : List UInt64) (h : r.AtRest held) :
    Moves may r (ids.foldl (closeById env) r) := by
  induction ids generalizing r with
  | nil => exact .refl
  | cons id ids ih =>
    refine ReflTransGen.trans ?_ (ih (h.closeById env id))
    unfold closeById
    cases hc : r.connections.lookup id with
    | none => exact .refl
    | some conn => exact .single (.connection (.close env (h.tables.owns hc)))

theorem checkTimeouts_moves (env : Environment) (h : r.AtRest held) :
    Moves may r (r.checkTimeouts env) := by
  unfold checkTimeouts
  split
  · exact .refl
  · exact closeAll_moves env _ h

end Reactor

end DarwinCore.Network
