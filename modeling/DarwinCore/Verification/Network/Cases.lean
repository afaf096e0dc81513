import DarwinCore.Verification.Network.Processing

/-! # The cases of the reactor's functions

What adding a connection, sending and handling an event come down to when the tables are in
order: one constructor a branch of the source, with all that holds there. -/

namespace DarwinCore.Network

namespace Reactor

structure Owns (r : Reactor) (id : UInt64) (fd : ℤ) (conn : ReactorConnection) : Prop where
  lookup : r.connections.lookup id = some conn
  key : conn.connectionId = id
  descriptor : conn.fileDescriptor = fd
  nonneg : 0 ≤ fd
  isOpen : fd ∈ r.kernel.openFds
  valid : conn.sendBuffer.Valid

variable {held : List Operation} {r r' : Reactor} {id : UInt64} {fd : ℤ}
  {conn conn' : ReactorConnection}

theorem Tables.owns (h : r.Tables held) (hc : r.connections.lookup id = some conn) :
    r.Owns id conn.fileDescriptor conn :=
  ⟨hc, (h.keyed id conn hc).1, rfl, (h.live id conn hc).1, (h.live id conn hc).2,
    (h.keyed id conn hc).2⟩

theorem Owns.mem (h : r.Owns id fd conn) : id ∈ r.connections :=
  Finmap.mem_of_lookup_eq_some h.lookup

theorem Owns.congr (h : r.Owns id fd conn) (hconnections : r'.connections = r.connections)
    (hopen : r'.kernel.openFds = r.kernel.openFds) : r'.Owns id fd conn where
  lookup := by rw [hconnections, h.lookup]
  key := h.key
  descriptor := h.descriptor
  nonneg := h.nonneg
  isOpen := by
    rw [hopen]
    exact h.isOpen
  valid := h.valid

theorem Owns.quiet (h : r.Owns id fd conn) (hq : r.Quiet r') : r'.Owns id fd conn :=
  h.congr hq.connections hq.openFds

theorem Owns.store (h : r.Owns id fd conn) (hkey : conn'.connectionId = id)
    (hfd : conn'.fileDescriptor = fd) (hvalid : conn'.sendBuffer.Valid) :
    (r.store id conn').Owns id fd conn' :=
  ⟨Finmap.lookup_insert _, hkey, hfd, h.nonneg, h.isOpen, hvalid⟩

theorem Owns.dispatchEvent (h : r.Owns id fd conn) (env : Environment) (event : NetworkEvent) :
    (r.dispatchEvent env event).Owns id fd conn :=
  h.quiet (quiet_dispatchEvent env event r)

theorem Owns.close_eq (h : r.Owns id fd conn) (env : Environment) :
    r.handleConnectionClose env conn =
      ((r.dispatchEvent env (.disconnected id)).doRemoveConnection id).2 := by
  rw [handleConnectionClose, h.key]

theorem Owns.error_eq (h : r.Owns id fd conn) (env : Environment) (code : Errno) :
    r.handleConnectionError env conn code =
      (((r.dispatchEvent env (.error id (mapErrnoToNetworkError code) code)).dispatchEvent env
        (.disconnected id)).doRemoveConnection id).2 := by
  rw [handleConnectionError, h.key]

theorem Owns.remove_eq (h : r.Owns id fd conn) :
    (r.doRemoveConnection id).2 =
      { r.closeFd fd with
        fdToConnectionId := r.fdToConnectionId.erase fd
        connections := r.connections.erase id
        stats := { r.stats with activeConnections := r.stats.activeConnections - 1 } } := by
  rw [doRemoveConnection, h.lookup, ← h.descriptor]
  rfl

/-! ## Adding -/

/-- What `DoAddConnection` does with the descriptor `fd`. -/
inductive AddCase (env : Environment) (fd : ℤ) (peer : SockAddr) (r : Reactor) :
    UInt64 × Reactor → Prop where
  | ignored (h : fd < 0 ∨ ¬r.isRunning) : AddCase env fd peer r (0, r)
  | collided (hrunning : r.isRunning = true) : AddCase env fd peer r (0, r.nextSeq.2.closeFd fd)
  | unmonitored (hrunning : r.isRunning = true)
      (h : (r.nextSeq.2.monitor env fd .addRead).1 = false) :
      AddCase env fd peer r (0, (r.nextSeq.2.monitor env fd .addRead).2.closeFd fd)
  | added {id : UInt64} (hrunning : r.isRunning = true)
      (hid : id = ConnectionIdGenerator.generate (env.calendar r.nextSeq.2.log.length)
        (UInt8.ofInt r.nextSeq.2.reactorId) (UInt16.ofInt fd) r.nextSeq.1)
      (hfresh : r.connections.lookup id = none)
      (h : (r.nextSeq.2.monitor env fd .addRead).1 = true) :
      AddCase env fd peer r (id, (r.nextSeq.2.monitor env fd .addRead).2.register env id fd peer)

theorem doAddConnection_cases (env : Environment) (fd : ℤ) (peer : SockAddr) (r : Reactor) :
    AddCase env fd peer r (r.doAddConnection env fd peer) := by
  unfold doAddConnection
  split
  · rename_i hignored
    exact .ignored hignored
  · rename_i hvalid
    have hrunning : r.isRunning = true := by
      rw [not_or, not_not] at hvalid
      exact hvalid.2
    dsimp only
    split
    · exact .collided hrunning
    · rename_i hfresh
      split
      · rename_i hfailed
        exact .unmonitored hrunning (by simpa using hfailed)
      · rename_i hsuccess
        refine .added hrunning rfl ?_ (by simpa using hsuccess)
        rw [← r.quiet_nextSeq.connections]
        simpa using hfresh

/-! ## Sending -/

/-- What `BufferAndMonitorWrite` does with `data`. -/
inductive WriteCase (env : Environment) (id : UInt64) (conn : ReactorConnection)
    (data : List UInt8) (r : Reactor) : Bool × Reactor → Prop where
  | refused {buffer : SendBuffer} (hvalid : buffer.Valid)
      (hreadable : buffer.readable = conn.sendBuffer.readable) :
      WriteCase env id conn data r
        (false, (r.store id { conn with sendBuffer := buffer }).handleConnectionError env
          { conn with sendBuffer := buffer } .enomem)
  | buffered {buffer : SendBuffer} {paused awaiting : ReactorConnection × Reactor}
      (hdata : data ≠ []) (hvalid : buffer.Valid)
      (hreadable : buffer.readable = conn.sendBuffer.readable ++ data)
      (hpaused : paused = r.pauseReading env { conn with sendBuffer := buffer })
      (hawaiting : awaiting = paused.2.awaitWritable env paused.1) :
      WriteCase env id conn data r (true, awaiting.2.store id awaiting.1)

theorem bufferAndMonitorWrite_cases (env : Environment) (hvalid : conn.sendBuffer.Valid)
    {data : List UInt8} (hne : data ≠ []) (hlt : data.length < 2 ^ 63) {result : Bool × Reactor}
    (hwrite : r.bufferAndMonitorWrite env id conn data = some result) :
    WriteCase env id conn data r result := by
  obtain ⟨buffer, heq, hbvalid, hreadable⟩ := hvalid.write (List.length_pos_iff.mpr hne) hlt
  rw [bufferAndMonitorWrite, heq] at hwrite
  by_cases hfits : conn.sendBuffer.size + data.length ≤ maxCapacity
  · rw [decide_eq_true hfits] at hwrite
    rw [if_pos hfits] at hreadable
    obtain rfl := Option.some.inj hwrite
    exact .buffered hne hbvalid hreadable rfl rfl
  · rw [decide_eq_false hfits] at hwrite
    rw [if_neg hfits] at hreadable
    obtain rfl := Option.some.inj hwrite
    exact .refused hbvalid hreadable

/-- What `DoSendData` does with `data`. -/
inductive SendCase (env : Environment) (id : UInt64) (data : List UInt8) (r : Reactor) :
    Bool × Reactor → Prop where
  | absent (h : r.connections.lookup id = none) : SendCase env id data r (false, r)
  | queued {fd : ℤ} {conn : ReactorConnection} {result : Bool × Reactor} (h : r.Owns id fd conn)
      (hbusy : conn.sendBuffer.isEmpty = false) (hwrite : WriteCase env id conn data r result) :
      SendCase env id data r result
  | failed {fd : ℤ} {conn : ReactorConnection} (code : Errno) (h : r.Owns id fd conn)
      (hidle : conn.sendBuffer.isEmpty = true)
      (htaken : (env.send r.log.length data.length).taken = 0) :
      SendCase env id data r
        (false, (r.emit (.sent fd [])).handleConnectionError env conn code)
  | short {fd : ℤ} {conn : ReactorConnection} {result : Bool × Reactor} (taken : ℕ)
      (htaken : taken = (env.send r.log.length data.length).taken) (h : r.Owns id fd conn)
      (hidle : conn.sendBuffer.isEmpty = true) (hshort : taken < data.length)
      (hwrite : WriteCase env id conn (data.drop taken) (r.emit (.sent fd (data.take taken)))
        result) :
      SendCase env id data r result
  | complete {fd : ℤ} {conn : ReactorConnection} (h : r.Owns id fd conn)
      (hidle : conn.sendBuffer.isEmpty = true)
      (htaken : (env.send r.log.length data.length).taken = data.length) :
      SendCase env id data r
        (true, (r.emit (.sent fd data)).count fun s =>
          { s with totalBytesSent := s.totalBytesSent + data.length })

theorem DirectSend.taken_of_error {offered : ℕ} {outcome : SendOutcome offered} {code : Errno}
    (h : (DirectSend.ofOutcome outcome).error = some code) : outcome.taken = 0 := by
  cases outcome with
  | accepted count hle => cases count <;> cases h
  | failed error => rfl

theorem taken_le {offered : ℕ} (outcome : SendOutcome offered) : outcome.taken ≤ offered := by
  cases outcome with
  | accepted count hle => exact hle
  | failed error => exact Nat.zero_le _

theorem Tables.doSendData_cases (h : r.Tables held) (env : Environment) {data : List UInt8}
    (hsized : (Operation.send id data).Sized) {result : Bool × Reactor}
    (hsend : r.doSendData env id data = some result) : SendCase env id data r result := by
  unfold doSendData at hsend
  cases hc : r.connections.lookup id with
  | none =>
    rw [hc] at hsend
    obtain rfl := Option.some.inj hsend
    exact .absent hc
  | some conn =>
    have howns := h.owns hc
    rw [hc] at hsend
    cases hidle : conn.sendBuffer.isEmpty with
    | false =>
      simp only [hidle, Bool.false_eq_true, not_false_eq_true, if_true] at hsend
      exact .queued howns hidle
        (bufferAndMonitorWrite_cases env howns.valid hsized.1 hsized.2 hsend)
    | true =>
      simp only [hidle, not_true_eq_false, if_false, trySendDirect] at hsend
      cases herror :
          (DirectSend.ofOutcome (env.send r.log.length data.length)).error with
      | some code =>
        have hzero := DirectSend.taken_of_error herror
        rw [herror] at hsend
        obtain rfl := Option.some.inj hsend
        rw [hzero, List.take_zero]
        exact .failed code howns hidle hzero
      | none =>
        simp only [herror, DirectSend.sent_eq] at hsend
        split at hsend
        · rename_i hshort
          refine .short _ rfl howns hidle hshort
            (bufferAndMonitorWrite_cases env howns.valid ?_ ?_ hsend)
          · rw [← List.length_pos_iff, List.length_drop]
            omega
          · have hlt := hsized.2
            rw [List.length_drop]
            omega
        · rename_i hall
          have hle := taken_le (env.send r.log.length data.length)
          have htaken : (env.send r.log.length data.length).taken = data.length := by omega
          obtain rfl := Option.some.inj hsend
          rw [htaken, List.take_length]
          exact .complete howns hidle htaken

/-! ## Events -/

/-- What `ProcessKqueueEvent` does with `event`. -/
inductive EventCase (env : Environment) (event : KEvent) (r : Reactor) : Reactor → Prop where
  | ignored : EventCase env event r r
  | ended {id : UInt64} {conn : ReactorConnection} (h : r.Owns id event.ident conn)
      (heof : event.eof = true) : EventCase env event r (r.handleConnectionClose env conn)
  | failed {id : UInt64} {conn : ReactorConnection} (h : r.Owns id event.ident conn)
      (heof : event.eof = false) (herror : event.error = true) :
      EventCase env event r (r.handleConnectionError env conn event.data)
  | readable {id : UInt64} {conn : ReactorConnection} (h : r.Owns id event.ident conn)
      (heof : event.eof = false) (herror : event.error = false) (hfilter : event.filter = .read) :
      EventCase env event r (r.receiveLoop env event.ident id env.recv)
  | writable {id : UInt64} {conn : ReactorConnection} (h : r.Owns id event.ident conn)
      (heof : event.eof = false) (herror : event.error = false)
      (hfilter : event.filter = .write) : EventCase env event r (r.flush env event.ident id conn)

theorem Tables.processKqueueEvent_cases (h : r.Tables held) (env : Environment)
    (event : KEvent) : EventCase env event r (r.processKqueueEvent env event) := by
  cases hfd : r.fdToConnectionId.lookup event.ident with
  | none =>
    simp only [processKqueueEvent, hfd]
    exact .ignored
  | some id =>
    obtain ⟨conn, hc, hsame⟩ := (h.owner _ _).mp hfd
    have howns : r.Owns id event.ident conn := hsame ▸ h.owns hc
    simp only [processKqueueEvent, hfd, hc]
    cases heof : event.eof with
    | true => exact .ended howns heof
    | false =>
      cases herror : event.error with
      | true => exact .failed howns heof herror
      | false =>
        cases hfilter : event.filter with
        | read =>
          simp only [handleReadEvent, hfd]
          exact .readable howns heof herror hfilter
        | write =>
          simp only [handleWriteEvent, hfd, hc]
          exact .writable howns heof herror hfilter
        | user => exact .ignored
        | other => exact .ignored

end Reactor

end DarwinCore.Network
