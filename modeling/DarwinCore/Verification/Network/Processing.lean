import DarwinCore.Verification.Network.Ledger

/-! # What the loop of a reactor does to the ledger

Every operation and every event leaves the reactor at rest, whatever the environment
answers. -/

namespace DarwinCore.Network

open History Maps

namespace Reactor

variable {held : List Operation} {pending : UInt64 → List UInt8} {r r' : Reactor} {id : UInt64}
  {conn : ReactorConnection}

/-! ## Sending -/

/-- At most the flags of the connection change, and at most a filter of its descriptor. -/
structure Flagged (conn : ReactorConnection) (r : Reactor)
    (result : ReactorConnection × Reactor) : Prop where
  quiet : r.Quiet result.2
  fd : result.1.fileDescriptor = conn.fileDescriptor
  key : result.1.connectionId = conn.connectionId
  buffer : result.1.sendBuffer = conn.sendBuffer

theorem flagged_ite (env : Environment) (fd : ℤ) (change : Change) (r : Reactor) (b : Bool)
    {conn conn' : ReactorConnection} (hfd : conn'.fileDescriptor = conn.fileDescriptor)
    (hkey : conn'.connectionId = conn.connectionId)
    (hbuffer : conn'.sendBuffer = conn.sendBuffer) :
    Flagged conn r (if b then (conn', (r.monitor env fd change).2) else (conn, r)) := by
  cases b with
  | false => exact ⟨.refl r, rfl, rfl, rfl⟩
  | true => exact ⟨quiet_monitor env fd change r, hfd, hkey, hbuffer⟩

theorem pauseReading_flagged (env : Environment) (conn : ReactorConnection) (r : Reactor) :
    Flagged conn r (r.pauseReading env conn) :=
  flagged_ite env _ _ r _ rfl rfl rfl

theorem awaitWritable_flagged (env : Environment) (conn : ReactorConnection) (r : Reactor) :
    Flagged conn r (r.awaitWritable env conn) :=
  flagged_ite env _ _ r _ rfl rfl rfl

theorem resumeReading_flagged (env : Environment) (fd : ℤ) (conn : ReactorConnection)
    (r : Reactor) : Flagged conn r (r.resumeReading env fd conn) :=
  flagged_ite env _ _ r _ rfl rfl rfl

theorem stopWriting_flagged (env : Environment) (fd : ℤ) (conn : ReactorConnection)
    (r : Reactor) : Flagged conn r (r.stopWriting env fd conn) :=
  flagged_ite env _ _ r _ rfl rfl rfl

theorem Flagged.trans {result result' : ReactorConnection × Reactor}
    (h : Flagged conn r result) (h' : Flagged result.1 result.2 result') :
    Flagged conn r result' where
  quiet := h.quiet.trans h'.quiet
  fd := h'.fd.trans h.fd
  key := h'.key.trans h.key
  buffer := h'.buffer.trans h.buffer

/-- Storing a flagged connection whose buffer holds what is pending settles it. -/
theorem Flagged.atRest {result : ReactorConnection × Reactor} (hf : Flagged conn r result)
    (h : r.Sound held pending) {old : ReactorConnection}
    (hc : r.connections.lookup id = some old)
    (hfd : conn.fileDescriptor = old.fileDescriptor)
    (hkey : conn.connectionId = old.connectionId) (hvalid : conn.sendBuffer.Valid)
    (hothers : ∀ i, i ≠ id → pending i = r.buffered i)
    (hown : pending id = conn.sendBuffer.readable) :
    (result.2.store id result.1).AtRest held := by
  have hc' : result.2.connections.lookup id = some old := by rw [hf.quiet.connections, hc]
  refine (h.quiet hf.quiet).store_atRest hc' (hf.fd.trans hfd) (hf.key.trans hkey)
    (hf.buffer ▸ hvalid) ?_ (hf.buffer ▸ hown)
  rw [hf.quiet.buffered]
  exact hothers

/-- `BufferAndMonitorWrite` settles the connection whose unbuffered bytes it is given, or
removes it. -/
theorem Sound.bufferAndMonitorWrite (env : Environment) (h : r.Sound held pending)
    (hc : r.connections.lookup id = some conn) {data : List UInt8} (hne : data ≠ [])
    (hlt : data.length < 2 ^ 63) (hothers : ∀ i, i ≠ id → pending i = r.buffered i)
    (hown : pending id = conn.sendBuffer.readable ++ data) :
    ∃ success r', r.bufferAndMonitorWrite env id conn data = some (success, r') ∧
      r'.AtRest held := by
  obtain ⟨hkey, hvalid⟩ := h.tables.keyed id conn hc
  obtain ⟨buffer, hwrite, hbvalid, hreadable⟩ :=
    hvalid.write (List.length_pos_iff.mpr hne) hlt
  rw [Reactor.bufferAndMonitorWrite, hwrite]
  by_cases hfits : conn.sendBuffer.size + data.length ≤ maxCapacity
  · rw [decide_eq_true hfits]
    rw [if_pos hfits] at hreadable
    have hflags := (r.pauseReading_flagged env { conn with sendBuffer := buffer }).trans
      (awaitWritable_flagged env _ _)
    exact ⟨true, _, rfl, hflags.atRest h hc rfl rfl hbvalid hothers
      (hown.trans hreadable.symm)⟩
  · rw [decide_eq_false hfits]
    refine ⟨false, _, rfl, ?_⟩
    have hstored : (r.store id { conn with sendBuffer := buffer }).Sound held pending :=
      h.store hc rfl rfl hbvalid
    refine hstored.handleConnectionError env .enomem fun i hi => ?_
    have hne : i ≠ id := hkey ▸ hi
    rw [hothers i hne, buffered_store hne]

theorem DirectSend.sent_eq {offered : ℕ} (outcome : SendOutcome offered) :
    (DirectSend.ofOutcome outcome).sent = outcome.taken := by
  cases outcome with
  | accepted count hle => cases count <;> rfl
  | failed error => cases error <;> rfl

/-- The direct path: what the kernel does not take at once is buffered. -/
theorem Sound.sendDirectly (env : Environment) {data : List UInt8} (hlt : data.length < 2 ^ 63)
    (h : r.Sound held pending) (hc : r.connections.lookup id = some conn)
    (hempty : conn.sendBuffer.isEmpty) (hothers : ∀ i, i ≠ id → pending i = r.buffered i)
    (hown : pending id = data) :
    ∃ success r', r.doSendData env id data = some (success, r') ∧ r'.AtRest held := by
  obtain ⟨hkey, hvalid⟩ := h.tables.keyed id conn hc
  have hnil := hvalid.readable_eq_nil hempty
  obtain ⟨outcome, houtcome⟩ : ∃ outcome, outcome = env.send r.log.length data.length :=
    ⟨_, rfl⟩
  have hsplit : pending id = data.take outcome.taken ++ data.drop outcome.taken := by
    rw [hown, List.take_append_drop]
  have hsent := h.sent hc hsplit
  have hrest : ∀ i, i ≠ id → Function.update pending id (data.drop outcome.taken) i =
      (r.emit (.sent conn.fileDescriptor (data.take outcome.taken))).buffered i :=
    fun i hi => (Function.update_of_ne hi _ _).trans (hothers i hi)
  have hself : Function.update pending id (data.drop outcome.taken) id =
      conn.sendBuffer.readable ++ data.drop outcome.taken := by
    rw [Function.update_self, hnil, List.nil_append]
  simp only [Reactor.doSendData, hc, hempty, not_true_eq_false, if_false, trySendDirect,
    ← houtcome]
  cases herror : (DirectSend.ofOutcome outcome).error with
  | some code =>
    exact ⟨false, _, rfl, hsent.handleConnectionError env code fun i hi => hrest i (hkey ▸ hi)⟩
  | none =>
    rw [DirectSend.sent_eq]
    dsimp only
    split
    · rename_i hmore
      have hne : data.drop outcome.taken ≠ [] := by
        rw [← List.length_pos_iff, List.length_drop]
        omega
      have hshort : (data.drop outcome.taken).length < 2 ^ 63 := by
        rw [List.length_drop]
        omega
      exact hsent.bufferAndMonitorWrite env hc hne hshort hrest hself
    · rename_i hall
      refine ⟨true, _, rfl, AtRest.quiet ?_ (quiet_count _ _)⟩
      refine hsent.atRest fun i c hlook => ?_
      by_cases hi : i = id
      · subst hi
        obtain rfl : conn = c := Option.some.inj (hc.symm.trans hlook)
        rw [hself, List.drop_of_length_le (by omega), List.append_nil]
      · rw [hrest i hi, buffered_of_lookup hlook]

/-- `DoSendData` settles the payload that has just been taken from the queue. -/
theorem Sound.doSendData (env : Environment) {data : List UInt8}
    (hsized : (Operation.send id data).Sized)
    (h : r.Sound held (Function.update r.buffered id (r.buffered id ++ data))) :
    ∃ success r', r.doSendData env id data = some (success, r') ∧ r'.AtRest held := by
  have hothers : ∀ i, i ≠ id →
      Function.update r.buffered id (r.buffered id ++ data) i = r.buffered i :=
    fun i hi => Function.update_of_ne hi _ _
  cases hc : r.connections.lookup id with
  | none =>
    refine ⟨false, r, by rw [Reactor.doSendData, hc], h.atRest fun i c hlook => ?_⟩
    rw [hothers i (ne_of_lookup hc hlook), buffered_of_lookup hlook]
  | some conn =>
    have hown : Function.update r.buffered id (r.buffered id ++ data) id =
        conn.sendBuffer.readable ++ data := by
      rw [Function.update_self, buffered_of_lookup hc]
    by_cases hempty : conn.sendBuffer.isEmpty
    · have hnil := (h.tables.keyed id conn hc).2.readable_eq_nil hempty
      rw [hnil, List.nil_append] at hown
      exact h.sendDirectly env hsized.2 hc hempty hothers hown
    · have hbuffered : r.doSendData env id data = r.bufferAndMonitorWrite env id conn data := by
        rw [Reactor.doSendData, hc]
        exact if_pos hempty
      rw [hbuffered]
      exact h.bufferAndMonitorWrite env hc hsized.1 hsized.2 hothers hown

/-! ## Entering the table -/

theorem quiet_nextSeq (r : Reactor) : r.Quiet r.nextSeq.2 := by
  unfold nextSeq
  split <;> exact .of_log rfl rfl rfl rfl rfl

/-- The ledger of a new connection starts empty, and so does its buffer. -/
theorem AtRest.register (env : Environment) {fd : ℤ} {peer : SockAddr}
    (h : r.AtRest (.add fd peer :: held)) (hid : r.connections.lookup id = none) :
    (r.register env id fd peer).AtRest held := by
  unfold Reactor.register
  dsimp only
  refine AtRest.quiet ?_ ((quiet_count _ _).trans (quiet_dispatchEvent env _ _))
  refine atRest_of r.buffered
    ((h.tables.registered hid rfl rfl SendBuffer.fresh_valid).congr rfl rfl rfl rfl) ?_ ?_
  · intro i c hlook
    by_cases hi : i = id
    · subst hi
      have hmark : (Effect.added i fd).adds i = true := decide_eq_true rfl
      rw [buffered, hid, List.append_nil]
      exact (collect_since_marked hmark).trans (collect_since_marked hmark).symm
    · have hmark : (Effect.added id fd).adds i = false := decide_eq_false (Ne.symm hi)
      rw [acceptedOn_emit _ hmark, processedFor_emit hmark]
      simp only [Effect.sentOn, Effect.payloadFor, List.append_nil]
      exact h.ledger i c ((Finmap.lookup_insert_of_ne _ hi).symm.trans hlook)
  · intro i c hlook
    rcases lookup_insert_eq_some.mp hlook with ⟨rfl, rfl⟩ | ⟨hi, hlook⟩
    · rw [buffered, hid]
      exact SendBuffer.fresh_readable.symm
    · exact buffered_of_lookup hlook

/-- Closing a descriptor that no connection has and no operation brings along. -/
theorem AtRest.closeFd {fd : ℤ} (h : r.AtRest held)
    (htable : ∀ i c, r.connections.lookup i = some c → c.fileDescriptor ≠ fd)
    (hheld : fd ∉ r.newFds held) : (r.closeFd fd).AtRest held := by
  have hclosed := r.quiet_emit (e := .closed fd) (Effect.quiet_of rfl)
  exact ⟨h.tables.closeFd htable hheld, (Sound.quiet h hclosed).ledger⟩

theorem AtRest.closeNewFd {fd : ℤ} {peer : SockAddr} (h : r.AtRest (.add fd peer :: held)) :
    (r.closeFd fd).AtRest held := by
  obtain ⟨-, -, -, htable, hheld⟩ := h.tables.newFd_fresh
  exact h.drop.closeFd htable hheld

/-- `DoAddConnection` takes over the descriptor, closes it or, when the reactor is not
running, leaves it open. -/
theorem AtRest.doAddConnection (env : Environment) {fd : ℤ} {peer : SockAddr}
    (h : r.AtRest (.add fd peer :: held)) : (r.doAddConnection env fd peer).2.AtRest held := by
  unfold Reactor.doAddConnection
  split
  · exact h.drop
  · have hseq := h.quiet r.quiet_nextSeq
    dsimp only
    split
    · exact hseq.closeNewFd
    · rename_i hfresh
      have hmonitored := hseq.quiet (quiet_monitor env fd .addRead _)
      split
      · exact hmonitored.closeNewFd
      · refine hmonitored.register env ?_
        rw [(quiet_monitor env fd .addRead _).connections]
        simpa using hfresh

/-- Processing the operation at the front of the queue always returns. -/
theorem AtRest.processOperation (env : Environment) {op : Operation} {rest : List Operation}
    (h : r.AtRest held) (hqueue : r.pendingOperations = op :: rest) :
    ∃ r', (r.dequeue op rest).processOperation env op = some r' ∧ r'.AtRest held := by
  have hperm : (r.ahead held).Perm (op :: held ++ rest) := by
    rw [ahead, hqueue]
    exact List.perm_middle
  have hquiet (hop : (Effect.took op).Quiet) : (r.dequeue op rest).AtRest (op :: held) :=
    Sound.requeue (h.quiet (r.quiet_emit hop)) rest hperm
  unfold Reactor.processOperation
  cases op with
  | add fd peer =>
    have hadd := (hquiet (Effect.quiet_of rfl)).doAddConnection env
    exact ⟨_, rfl, hadd.count_ite _⟩
  | remove id =>
    have hremove := (hquiet (Effect.quiet_of rfl)).drop
    have hdone : ((r.dequeue (.remove id) rest).doRemoveConnection id).2.AtRest held :=
      Sound.doRemoveConnection hremove fun _ _ => rfl
    exact ⟨_, rfl, hdone.count_ite _⟩
  | send id data =>
    have hsized := h.tables.sized _ (hperm.mem_iff.mpr List.mem_cons_self)
    have htook : (r.dequeue (.send id data) rest).Sound held
        (Function.update r.buffered id (r.buffered id ++ data)) :=
      ((Sound.took h data).requeue rest hperm).drop
    have hbuffered : (r.dequeue (.send id data) rest).buffered = r.buffered := rfl
    rw [← hbuffered] at htook
    obtain ⟨success, r', hsend, hdone⟩ := Sound.doSendData env hsized htook
    dsimp only
    rw [hsend]
    exact ⟨_, rfl, hdone.count_ite _⟩
  | getSendBufferSize id promise =>
    have hsize := (hquiet (Effect.quiet_of rfl)).drop
    exact ⟨_, rfl, hsize.quiet (quiet_emit _ (Effect.quiet_of rfl))⟩

/-! ## Events -/

/-- The two results of `SendToSocket` agree with what the kernel took. -/
theorem AtRest.flush (env : Environment) {fd : ℤ} (h : r.AtRest held)
    (hc : r.connections.lookup id = some conn) (hfd : conn.fileDescriptor = fd) :
    (r.flush env fd id conn).AtRest held := by
  subst hfd
  obtain ⟨hkey, hvalid⟩ := h.tables.keyed id conn hc
  have hpos := (h.tables.live id conn hc).1
  obtain ⟨send, hsend⟩ : ∃ send, send = env.send r.log.length := ⟨_, rfl⟩
  obtain ⟨hbvalid, hreadable⟩ := hvalid.sendToSocket hpos send
  obtain ⟨result, hresult⟩ : ∃ result, result = conn.sendBuffer.sendToSocket
    conn.fileDescriptor send := ⟨_, rfl⟩
  obtain ⟨sent, buffer⟩ := result
  rw [← hresult] at hbvalid hreadable
  have hsplit : r.buffered id = conn.sendBuffer.readable.take (send conn.sendBuffer.size).taken ++
      buffer.readable := by
    rw [buffered_of_lookup hc, hreadable, List.take_append_drop]
  have hsent := Sound.sent h hc hsplit
  have hothers : ∀ i, i ≠ id →
      Function.update r.buffered id buffer.readable i = r.buffered i :=
    fun i hi => Function.update_of_ne hi _ _
  have hown : Function.update r.buffered id buffer.readable id = buffer.readable :=
    Function.update_self _ _ _
  rw [Reactor.flush, ← hsend, ← hresult]
  dsimp only
  split
  · exact ((resumeReading_flagged env _ _ _).trans (stopWriting_flagged env _ _ _)).atRest
      (hsent.quiet (quiet_count _ _)) hc rfl rfl hbvalid hothers hown
  · split
    · refine Sound.handleConnectionError env _ (hsent.store hc rfl rfl hbvalid) fun i hi => ?_
      have hne : i ≠ id := hkey ▸ hi
      rw [hothers i hne, buffered_store hne]
      rfl
    · exact (stopWriting_flagged env conn.fileDescriptor { conn with sendBuffer := buffer }
        _).atRest hsent hc rfl rfl hbvalid hothers hown

/-- A read event touches and counts; at the end it may remove the connection. -/
theorem AtRest.receiveLoop (env : Environment) (fd : ℤ) (outcomes : List RecvOutcome)
    (h : r.AtRest held) : (r.receiveLoop env fd id outcomes).AtRest held := by
  induction outcomes generalizing r with
  | nil => exact h
  | cons outcome rest ih =>
    rw [Reactor.receiveLoop]
    cases hc : r.connections.lookup id with
    | none => exact h
    | some conn =>
      have hvalid := (h.tables.keyed id conn hc).2
      have hbuffered := buffered_of_lookup hc
      cases outcome with
      | received data hdata =>
        have htouched :
            (r.store id { conn with lastActive := env.clock r.log.length }).AtRest held :=
          Sound.store_atRest h hc rfl rfl hvalid (fun _ _ => rfl) hbuffered
        have hreceived : (Effect.received fd data).Quiet := Effect.quiet_of rfl
        exact ih (htouched.quiet (((quiet_emit _ hreceived).trans (quiet_count _ _)).trans
          (quiet_dispatchEvent env _ _)))
      | closed => exact Sound.handleConnectionClose env h fun _ _ => rfl
      | failed code =>
        have herror : (r.handleConnectionError env conn code).AtRest held :=
          Sound.handleConnectionError env code h fun _ _ => rfl
        cases code with
        | eagain => exact h
        | eintr => exact ih h
        | _ => exact herror

theorem AtRest.processKqueueEvent (env : Environment) (event : KEvent) (h : r.AtRest held) :
    (r.processKqueueEvent env event).AtRest held := by
  cases hfd : r.fdToConnectionId.lookup event.ident with
  | none =>
    simp only [Reactor.processKqueueEvent, hfd]
    exact h
  | some id =>
    cases hc : r.connections.lookup id with
    | none =>
      simp only [Reactor.processKqueueEvent, hfd, hc]
      exact h
    | some conn =>
      simp only [Reactor.processKqueueEvent, hfd, hc]
      split
      · exact Sound.handleConnectionClose env h fun _ _ => rfl
      · split
        · exact Sound.handleConnectionError env _ h fun _ _ => rfl
        · cases event.filter with
          | read =>
            simp only [Reactor.handleReadEvent, hfd]
            exact h.receiveLoop env _ _
          | write =>
            obtain ⟨conn', hc', hsame⟩ := (h.tables.owner _ _).mp hfd
            obtain rfl : conn = conn' := Option.some.inj (hc.symm.trans hc')
            simp only [Reactor.handleWriteEvent, hfd, hc]
            exact h.flush env hc hsame
          | user => exact h
          | other => exact h

/-! ## Timeouts and shutdown -/

theorem AtRest.closeById (env : Environment) (h : r.AtRest held) (id : UInt64) :
    (closeById env r id).AtRest held := by
  unfold Reactor.closeById
  cases r.connections.lookup id with
  | none => exact h
  | some conn => exact Sound.handleConnectionClose env h fun _ _ => rfl

theorem AtRest.closeAll (env : Environment) (ids : List UInt64) (h : r.AtRest held) :
    (ids.foldl (Reactor.closeById env) r).AtRest held := by
  induction ids generalizing r with
  | nil => exact h
  | cons id ids ih => exact ih (h.closeById env id)

theorem AtRest.checkTimeouts (env : Environment) (h : r.AtRest held) :
    (r.checkTimeouts env).AtRest held := by
  unfold Reactor.checkTimeouts
  split
  · exact h
  · exact h.closeAll env _

/-- `r'` has the table and the queue of `r`, and has closed at most descriptors of
connections. -/
structure OnlyCloses (r r' : Reactor) : Prop where
  connections : r'.connections = r.connections
  queue : r'.pendingOperations = r.pendingOperations
  openFds : ∀ fd ∈ r.kernel.openFds,
    (∀ i c, r.connections.lookup i = some c → c.fileDescriptor ≠ fd) → fd ∈ r'.kernel.openFds

theorem closeOnly_onlyCloses (r : Reactor) (id : UInt64) : r.OnlyCloses (closeOnly r id) := by
  unfold closeOnly
  cases hc : r.connections.lookup id with
  | none => exact ⟨rfl, rfl, fun _ hopen _ => hopen⟩
  | some conn =>
    refine ⟨rfl, rfl, fun fd hopen hothers => ?_⟩
    exact Finset.mem_erase_of_ne_of_mem (Ne.symm (hothers id conn hc)) hopen

theorem foldl_onlyCloses (ids : List UInt64) (r : Reactor) :
    r.OnlyCloses (ids.foldl closeOnly r) := by
  induction ids generalizing r with
  | nil => exact ⟨rfl, rfl, fun _ hopen _ => hopen⟩
  | cons id ids ih =>
    have hfirst := closeOnly_onlyCloses r id
    have hrest := ih (closeOnly r id)
    refine ⟨hrest.connections.trans hfirst.connections, hrest.queue.trans hfirst.queue, ?_⟩
    intro fd hopen hothers
    refine hrest.openFds fd (hfirst.openFds fd hopen hothers) ?_
    rw [hfirst.connections]
    exact hothers

/-- With empty tables, only the descriptors of the operations ahead matter. -/
theorem atRest_of_empty (hconnections : r.connections = ∅) (hfds : r.fdToConnectionId = ∅)
    (hopen : ∀ fd ∈ r.newFds held, 0 ≤ fd ∧ fd ∈ r.kernel.openFds)
    (hdistinct : (r.newFds held).Nodup) (hsized : ∀ op ∈ r.ahead held, op.Sized) :
    r.AtRest held := by
  have hnone : ∀ i c, ¬r.connections.lookup i = some c := by
    intro i c hlook
    rw [hconnections] at hlook
    cases hlook
  refine ⟨⟨fun i c hlook => absurd hlook (hnone i c), ?_, fun i c hlook => absurd hlook (hnone i c),
    ?_, hdistinct, hsized⟩, fun i c hlook => absurd hlook (hnone i c)⟩
  · intro fd i
    refine iff_of_false ?_ fun ⟨c, hlook, _⟩ => hnone i c hlook
    rw [hfds]
    intro hfd
    cases hfd
  · intro fd hfd
    refine ⟨(hopen fd hfd).1, (hopen fd hfd).2, ?_⟩
    rw [hfds]
    rfl

/-- Cleaning up closes only descriptors of connections, and leaves the tables empty. -/
theorem AtRest.cleanupAllConnections (env : Environment) (h : r.AtRest held) :
    (r.cleanupAllConnections env).AtRest held := by
  have hcloses := foldl_onlyCloses env.order r
  have hahead : (r.cleanupAllConnections env).ahead held = r.ahead held := by
    rw [ahead, ahead, ← hcloses.queue]
    rfl
  refine atRest_of_empty rfl rfl ?_ ?_ ?_
  · intro fd hfd
    rw [newFds, hahead] at hfd
    obtain ⟨hpos, hopen, hnone⟩ := h.tables.waiting fd hfd
    refine ⟨hpos, hcloses.openFds fd hopen fun i c hlook heq => ?_⟩
    rw [(h.tables.owner fd i).mpr ⟨c, hlook, heq⟩] at hnone
    cases hnone
  · rw [newFds, hahead]
    exact h.tables.distinct
  · rw [hahead]
    exact h.tables.sized

end Reactor

end DarwinCore.Network
