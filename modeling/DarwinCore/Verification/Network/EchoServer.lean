import DarwinCore.Model.Network.EchoServer
import DarwinCore.Verification.Network.Delivery
import DarwinCore.Verification.Network.ServerCallbacks
import DarwinCore.Verification.Protocol.DecoderUse

/-! # The echo server

What a connection receives is decoded as if nothing stood between its socket and the decoder: not
the reactor, not the worker pool and not what happens on other connections. -/

namespace DarwinCore.Network

open ByteOrder History Protocol Reassembly

/-! ## What was done for a connection -/

namespace EchoLine

def connectionId : EchoLine → UInt64
  | connected id _ => id
  | disconnected id => id
  | error id _ _ => id
  | recv id _ => id
  | sent id _ _ => id
  | sendFail id => id
  | protocolError id _ => id

def connects (id : UInt64) : EchoLine → Bool
  | connected i _ => i = id
  | _ => false

/-- The message that has been received on the connection. -/
def received (id : UInt64) : EchoLine → List MessageComplete
  | recv i message => if i = id then [message] else []
  | _ => []

/-- The packet that has been handed to `SendData` for the connection. -/
def handed (id : UInt64) : EchoLine → List (List UInt8)
  | sent i packet _ => if i = id then [packet] else []
  | _ => []

/-- The exception that has been caught for the connection. -/
def caught (id : UInt64) : EchoLine → List ProtocolError
  | protocolError i err => if i = id then [err] else []
  | _ => []

private theorem quiet_of_ne {line : EchoLine} {id : UInt64} (h : line.connectionId ≠ id) :
    line.connects id = false ∧ line.received id = [] ∧ line.handed id = [] ∧
      line.caught id = [] := by
  cases line <;> simp_all [connectionId, connects, received, handed, caught]

end EchoLine

namespace EchoServer

variable {env : EchoEnvironment} {id : UInt64} {s s' : EchoServer} {conn : ConnectionState}
  {encode : UInt64 → List UInt8 → Except ProtocolError (List (List UInt8))}

/-- The messages that have been received in the present life of the connection. -/
def received (s : EchoServer) (id : UInt64) : List MessageComplete :=
  collect (EchoLine.received id) (since (EchoLine.connects id) s.log)

/-- The packets that have been handed to `SendData` in the present life of the connection. -/
def handed (s : EchoServer) (id : UInt64) : List (List UInt8) :=
  collect (EchoLine.handed id) (since (EchoLine.connects id) s.log)

/-- The exceptions that have been caught in the present life of the connection. -/
def caught (s : EchoServer) (id : UInt64) : List ProtocolError :=
  collect (EchoLine.caught id) (since (EchoLine.connects id) s.log)

section Print

variable {line : EchoLine} (h : line.connects id = false)

include h

theorem print_received : (s.print line).received id = s.received id ++ line.received id :=
  collect_since_unmarked h

theorem print_handed : (s.print line).handed id = s.handed id ++ line.handed id :=
  collect_since_unmarked h

theorem print_caught : (s.print line).caught id = s.caught id ++ line.caught id :=
  collect_since_unmarked h

end Print

/-! ## Calls for other connections -/

/-- Only lines of the connection `id` have been added. -/
def Speaks (id : UInt64) (s s' : EchoServer) : Prop :=
  Extends (fun line : EchoLine => line.connectionId = id) s.log s'.log ∧
    ∀ i ≠ id, s'.states.lookup i = s.states.lookup i

theorem Speaks.trans {s'' : EchoServer} (h : Speaks id s s') (h' : Speaks id s' s'') :
    Speaks id s s'' :=
  ⟨h.1.trans h'.1, fun i hi => (h'.2 i hi).trans (h.2 i hi)⟩

theorem print_speaks (line : EchoLine) (s : EchoServer) :
    Speaks line.connectionId s (s.print line) :=
  ⟨.cons rfl rfl, fun _ _ => rfl⟩

theorem setState_speaks (conn : ConnectionState) (s : EchoServer) :
    Speaks id s (s.setState id conn) :=
  ⟨.of_eq rfl, fun _ hi => Finmap.lookup_insert_of_ne _ hi⟩

private theorem sendPackets_speaks (packets : List (List UInt8)) (s : EchoServer) :
    Speaks id s (s.sendPackets env id packets) := by
  induction packets generalizing s with
  | nil => exact ⟨.of_eq rfl, fun _ _ => rfl⟩
  | cons packet packets ih =>
    have hsent := print_speaks (.sent id packet (env.sendData s.log.length)) s
    rw [sendPackets]
    split
    · exact hsent.trans (ih _)
    · exact hsent.trans (print_speaks _ _)

private theorem drain_speaks (queue : List MessageComplete) (conn : ConnectionState)
    (s : EchoServer) :
    Speaks id s (drain env id encode conn s queue) := by
  induction queue generalizing conn s with
  | nil => exact setState_speaks conn s
  | cons message queue ih =>
    have hrecv := print_speaks (.recv id message) s
    rw [drain]
    cases encode conn.nextReplyId message.data with
    | error err => exact (hrecv.trans (setState_speaks _ _)).trans (print_speaks _ _)
    | ok packets => exact (hrecv.trans (sendPackets_speaks _ _)).trans (ih _ _)

private theorem handle_speaks {call : CallbackCall} (h : s.handle env call = some s') :
    Speaks call.connectionId s s' := by
  obtain ⟨t, hcall, rfl⟩ := Option.map_eq_some_iff.mp h
  have hspeaks : Speaks call.connectionId s t := by
    cases call with
    | onClientConnected id peer =>
      obtain rfl := Option.some.inj hcall
      exact (setState_speaks _ _).trans (print_speaks _ _)
    | onClientDisconnected id =>
      obtain rfl := Option.some.inj hcall
      exact ⟨.cons rfl rfl, fun i hi => Finmap.lookup_erase_ne hi⟩
    | onConnectionError id error code =>
      obtain rfl := Option.some.inj hcall
      exact print_speaks _ _
    | onMessage id payload =>
      unfold EchoServer.call onMessage at hcall
      dsimp only at hcall
      split at hcall
      · obtain rfl := Option.some.inj hcall
        exact ⟨.of_eq rfl, fun _ _ => rfl⟩
      · split at hcall
        · obtain rfl := Option.some.inj hcall
          exact drain_speaks _ _ _
        · obtain rfl := Option.some.inj hcall
          exact (setState_speaks _ _).trans (print_speaks _ _)
        · cases hcall
  exact hspeaks

theorem Speaks.other (h : Speaks id s s') {i : UInt64} (hi : i ≠ id) :
    s'.states.lookup i = s.states.lookup i ∧ s'.received i = s.received i ∧
      s'.handed i = s.handed i ∧ s'.caught i = s.caught i := by
  have hquiet : ∀ line : EchoLine, line.connectionId = id → line.connectionId ≠ i :=
    fun line hline heq => hi (heq.symm.trans hline)
  refine ⟨h.2 i hi, ?_, ?_, ?_⟩
  · exact h.1.collect_since fun line hline =>
      ⟨(EchoLine.quiet_of_ne (hquiet line hline)).1, (EchoLine.quiet_of_ne (hquiet line hline)).2.1⟩
  · exact h.1.collect_since fun line hline => ⟨(EchoLine.quiet_of_ne (hquiet line hline)).1,
      (EchoLine.quiet_of_ne (hquiet line hline)).2.2.1⟩
  · exact h.1.collect_since fun line hline => ⟨(EchoLine.quiet_of_ne (hquiet line hline)).1,
      (EchoLine.quiet_of_ne (hquiet line hline)).2.2.2⟩

/-! ## Replies -/

/-- The packets of the replies to the messages, with ids from `replyId` on. -/
def replies (encode : UInt64 → List UInt8 → Except ProtocolError (List (List UInt8))) :
    UInt64 → List MessageComplete → List (List UInt8)
  | _, [] => []
  | replyId, message :: rest =>
      ((encode replyId message.data).toOption.getD []) ++ replies encode (replyId + 1) rest

private theorem replies_append (replyId : UInt64) (xs ys : List MessageComplete) :
    replies encode replyId (xs ++ ys) =
      replies encode replyId xs ++ replies encode (replyId + UInt64.ofNat xs.length) ys := by
  induction xs generalizing replyId with
  | nil => simp [replies]
  | cons x xs ih =>
    have hnext : replyId + 1 + UInt64.ofNat xs.length =
        replyId + UInt64.ofNat (x :: xs).length := by
      rw [List.length_cons, UInt64.ofNat_add, UInt64.add_assoc, UInt64.add_comm 1]
      rfl
    rw [List.cons_append, replies, replies, ih, hnext, List.append_assoc]

/-- The packets are handed over and nothing else changes; all of them, if none is refused. -/
theorem sendPackets_spec (env : EchoEnvironment) (id : UInt64) (packets : List (List UInt8))
    (s : EchoServer) :
    (s.sendPackets env id packets).received id = s.received id ∧
      (s.sendPackets env id packets).caught id = s.caught id ∧
      ((∀ k, env.sendData k = true) →
        (s.sendPackets env id packets).handed id = s.handed id ++ packets) := by
  induction packets generalizing s with
  | nil => exact ⟨rfl, rfl, fun _ => (List.append_nil _).symm⟩
  | cons packet packets ih =>
    obtain ⟨success, hsuccess⟩ : ∃ success, env.sendData s.log.length = success := ⟨_, rfl⟩
    have hline : (EchoLine.sent id packet success).received id = [] ∧
        (EchoLine.sent id packet success).caught id = [] := ⟨rfl, rfl⟩
    have hsent : (s.print (.sent id packet success)).received id = s.received id ∧
        (s.print (.sent id packet success)).caught id = s.caught id ∧
        (s.print (.sent id packet success)).handed id = s.handed id ++ [packet] := by
      refine ⟨?_, ?_, ?_⟩
      · rw [print_received rfl, hline.1, List.append_nil]
      · rw [print_caught rfl, hline.2, List.append_nil]
      · rw [print_handed rfl, EchoLine.handed, if_pos rfl]
    obtain ⟨hreceived, hcaught, hhanded⟩ := hsent
    rw [sendPackets, hsuccess]
    cases success with
    | true =>
      obtain ⟨hreceived', hcaught', hhanded'⟩ := ih (s.print (.sent id packet true))
      refine ⟨hreceived'.trans hreceived, hcaught'.trans hcaught, fun hall => ?_⟩
      rw [if_pos rfl, hhanded' hall, hhanded, List.append_assoc, List.singleton_append]
    | false =>
      have hfail : (EchoLine.sendFail id).received id = [] ∧
          (EchoLine.sendFail id).caught id = [] := ⟨rfl, rfl⟩
      rw [if_neg Bool.false_ne_true, print_received rfl, print_caught rfl, hfail.1, hfail.2,
        List.append_nil, List.append_nil]
      refine ⟨hreceived, hcaught, fun hall => ?_⟩
      rw [hall] at hsuccess
      cases hsuccess

/-- The connection once its queue has been worked off. -/
def answered (conn : ConnectionState) (queue : List MessageComplete) : ConnectionState where
  decoder := { conn.decoder with completedMessages := [] }
  nextReplyId := conn.nextReplyId + UInt64.ofNat queue.length

private theorem answered_nil (h : conn.decoder.completedMessages = []) :
    answered conn [] = conn := by
  obtain ⟨decoder, replyId⟩ := conn
  obtain ⟨buffer, messages, completed, events, timeout, stats⟩ := decoder
  obtain rfl : completed = [] := h
  rw [answered, List.length_nil, show UInt64.ofNat 0 = 0 from rfl, UInt64.add_zero]

private theorem answered_advance (conn : ConnectionState) (message : MessageComplete)
    (rest : List MessageComplete) :
    answered (conn.advance rest) rest = answered conn (message :: rest) := by
  have hnext : conn.nextReplyId + 1 + UInt64.ofNat rest.length =
      conn.nextReplyId + UInt64.ofNat (message :: rest).length := by
    rw [List.length_cons, UInt64.ofNat_add, UInt64.add_assoc, UInt64.add_comm 1]
    rfl
  rw [answered, answered, ConnectionState.advance, hnext]

/-- Messages that can be answered are all received and answered. -/
private theorem drain_spec (env : EchoEnvironment) (id : UInt64) (conn : ConnectionState)
    {queue : List MessageComplete}
    (hanswers : ∀ message ∈ queue, ∀ replyId, ∃ packets, encode replyId message.data = .ok packets)
    (hqueue : conn.decoder.completedMessages = queue) (s : EchoServer) :
    (drain env id encode conn s queue).states.lookup id = some (answered conn queue) ∧
      (drain env id encode conn s queue).received id = s.received id ++ queue ∧
      (drain env id encode conn s queue).caught id = s.caught id ∧
      ((∀ k, env.sendData k = true) → (drain env id encode conn s queue).handed id =
        s.handed id ++ replies encode conn.nextReplyId queue) := by
  induction queue generalizing conn s with
  | nil =>
    refine ⟨?_, (List.append_nil _).symm, rfl, fun _ => (List.append_nil _).symm⟩
    rw [drain, setState, Finmap.lookup_insert, answered_nil hqueue]
  | cons message queue ih =>
    obtain ⟨hmessage, hrest⟩ := List.forall_mem_cons.mp hanswers
    obtain ⟨packets, hpackets⟩ := hmessage conn.nextReplyId
    obtain ⟨hreceived, hcaught, hhanded⟩ :=
      sendPackets_spec env id packets (s.print (.recv id message))
    obtain ⟨hstate, hreceived', hcaught', hhanded'⟩ := ih (conn.advance queue) hrest rfl
      ((s.print (.recv id message)).sendPackets env id packets)
    have hline : (EchoLine.recv id message).caught id = [] ∧
        (EchoLine.recv id message).handed id = [] := ⟨rfl, rfl⟩
    rw [drain, hpackets]
    refine ⟨?_, ?_, ?_, fun hall => ?_⟩
    · rw [← answered_advance]
      exact hstate
    · refine (hreceived'.trans (congrArg (· ++ queue) hreceived)).trans ?_
      rw [print_received rfl, EchoLine.received, if_pos rfl, List.append_assoc,
        List.singleton_append]
    · refine (hcaught'.trans hcaught).trans ?_
      rw [print_caught rfl, hline.1, List.append_nil]
    · refine ((hhanded' hall).trans (congrArg (· ++ _) (hhanded hall))).trans ?_
      rw [print_handed rfl, hline.2, List.append_nil, replies, hpackets, List.append_assoc]
      rfl

/-! ## The present life of a connection -/

/-- The decoder of the connection is where the rest of a stream leads to `final`, every message
that has come out of it has been answered, and nothing has been caught. -/
structure KeepsUp (env : EchoEnvironment) (id : UInt64) (rest : List UInt8) (final : Decoder)
    (s : EchoServer) : Prop where
  state : ∃ conn, s.states.lookup id = some conn ∧ conn.decoder.completedMessages = [] ∧
    front env.endian conn.decoder.buffer = .incomplete ∧
    (conn.decoder.undrained (s.received id) []).LeadsTo env.endian rest final ∧
    conn.nextReplyId = 1 + UInt64.ofNat (s.received id).length
  caught : s.caught id = []
  handed : (∀ k, env.sendData k = true) →
    s.handed id = replies (replyPackets env.endian) 1 (s.received id)

variable {rest : List UInt8} {final : Decoder}

private theorem keepsUp_connected {peer : SockAddr} {stream : List UInt8}
    (hstart : (Decoder.fresh 30000).LeadsTo env.endian stream final) :
    ((s.setState id {}).print (.connected id peer)).KeepsUp env id stream final := by
  have hmark : (EchoLine.connected id peer).connects id = true := decide_eq_true rfl
  have hreceived : ((s.setState id {}).print (.connected id peer)).received id = [] :=
    collect_since_marked hmark
  have hhanded : ((s.setState id {}).print (.connected id peer)).handed id = [] :=
    collect_since_marked hmark
  have hcaught : ((s.setState id {}).print (.connected id peer)).caught id = [] :=
    collect_since_marked hmark
  refine ⟨⟨{}, Finmap.lookup_insert _, rfl, rfl, ?_, ?_⟩, hcaught, fun _ => ?_⟩
  · rw [hreceived]
    exact hstart
  · rw [hreceived]
    rfl
  · rw [hreceived, hhanded]
    rfl

theorem KeepsUp.count {k : ℕ} (h : s.KeepsUp env id rest final) :
    KeepsUp env id rest final { s with called := k } :=
  ⟨h.state, h.caught, h.handed⟩

theorem KeepsUp.other {i : UInt64} (h : s.KeepsUp env i rest final) (hspeaks : Speaks id s s')
    (hi : i ≠ id) : s'.KeepsUp env i rest final := by
  obtain ⟨hlookup, hreceived, hhanded, hcaught⟩ := hspeaks.other hi
  refine ⟨?_, hcaught.trans h.caught, fun hall => ?_⟩
  · rw [hlookup, hreceived]
    exact h.state
  · rw [hhanded, hreceived]
    exact h.handed hall

/-- A payload is decoded, and the messages that it completes are answered. -/
theorem KeepsUp.message {payload : List UInt8} (h : s.KeepsUp env id (payload ++ rest) final)
    (hanswers : ∀ message ∈ final.completedMessages, ∀ replyId, ∃ packets,
      replyPackets env.endian replyId message.data = .ok packets)
    (hcall : s.onMessage env id payload = some s') : s'.KeepsUp env id rest final := by
  obtain ⟨⟨conn, hconn, -, -, hleads, hreply⟩, hcaught, hhanded⟩ := h
  obtain ⟨whole, hwhole, hfront, hleads'⟩ :=
    (hleads.receive payload).tryDecode (env.clock s.called)
  have hundrained : (conn.decoder.feed env.endian (env.clock s.called) payload).map
      (Decoder.undrained (s.received id) []) = .normal whole :=
    (Decoder.tryDecode_undrained _ _ _ _).symm.trans hwhole
  unfold onMessage at hcall
  rw [hconn] at hcall
  dsimp only at hcall
  cases hfeed : conn.decoder.feed env.endian (env.clock s.called) payload with
  | error err d =>
    rw [hfeed] at hundrained
    cases hundrained
  | fault d =>
    rw [hfeed] at hundrained
    cases hundrained
  | normal d =>
    rw [hfeed] at hundrained hcall
    obtain rfl : d.undrained (s.received id) [] = whole := FeedResult.normal.inj hundrained
    obtain rfl := Option.some.inj hcall
    have hqueue : ∀ message ∈ d.completedMessages, ∀ replyId, ∃ packets,
        replyPackets env.endian replyId message.data = .ok packets := fun message hmessage =>
      hanswers message (hleads'.extends.messages.subset (List.mem_append_right _ hmessage))
    obtain ⟨hstate, hreceived, hcaught', hhanded'⟩ :=
      drain_spec env id { conn with decoder := d } hqueue rfl s
    refine ⟨⟨_, hstate, rfl, hfront, ?_, ?_⟩, hcaught'.trans hcaught, fun hall => ?_⟩
    · rw [hreceived]
      simpa [answered, Decoder.undrained] using hleads'
    · rw [hreceived, List.length_append, UInt64.ofNat_add, ← UInt64.add_assoc, ← hreply]
      rfl
    · rw [hhanded' hall, hreceived, replies_append, hhanded hall, ← hreply]

/-- Calls for other connections and the payloads of this one. -/
theorem KeepsUp.foldlM {events : List NetworkEvent}
    (h : s.KeepsUp env id (events.flatMap (NetworkEvent.payloadOf id) ++ rest) final)
    (hanswers : ∀ message ∈ final.completedMessages, ∀ replyId, ∃ packets,
      replyPackets env.endian replyId message.data = .ok packets)
    (hdata : ∀ event ∈ events, event.connectionId = id → ∃ payload, event = .data id payload)
    (hrun : (events.filterMap (ServerCallbacks.callFor ⟨true, true, true, true⟩)).foldlM
      (handle env) s = some s') : s'.KeepsUp env id rest final := by
  induction events generalizing s with
  | nil =>
    obtain rfl := Option.some.inj hrun
    exact h
  | cons event events ih =>
    obtain ⟨hevent, hevents⟩ := List.forall_mem_cons.mp hdata
    obtain ⟨call, hcall⟩ : ∃ call, ServerCallbacks.callFor ⟨true, true, true, true⟩ event =
        some call := by
      cases event <;> exact ⟨_, rfl⟩
    rw [List.filterMap_cons_some hcall, List.foldlM_cons] at hrun
    obtain ⟨mid, hmid, hrest⟩ := Option.bind_eq_some_iff.mp hrun
    rw [List.flatMap_cons, List.append_assoc] at h
    refine ih ?_ hevents hrest
    have hcallId := ServerCallbacks.callFor_connectionId call hcall
    by_cases hid : event.connectionId = id
    · obtain ⟨payload, rfl⟩ := hevent hid
      have hpayload : (NetworkEvent.data id payload).payloadOf id = payload := if_pos rfl
      rw [hpayload] at h
      obtain rfl := Option.some.inj hcall
      obtain ⟨t, ht, rfl⟩ := Option.map_eq_some_iff.mp hmid
      exact (h.message hanswers ht).count
    · have hnone : event.payloadOf id = [] := Effect.payloadOf_of_ne hid
      rw [hnone, List.nil_append] at h
      exact h.other (handle_speaks hmid) (fun heq => hid (hcallId.symm.trans heq.symm))

end EchoServer

/-! ## Originals can be answered -/

private theorem slicesNeeded_false_le (length : ℕ) (crc : Bool) :
    Encoder.slicesNeeded length false ≤ Encoder.slicesNeeded length crc := by
  have hle := Encoder.length_le_slices length crc
  have hpayload : Encoder.slicePayload crc ≤ Encoder.slicePayload false := by
    cases crc <;> decide
  have hmul := Nat.mul_le_mul_left (Encoder.slicesNeeded length crc) hpayload
  have hpos := Encoder.slicePayload_pos false
  rw [show Encoder.slicesNeeded length false = (length + Encoder.slicePayload false - 1) /
    Encoder.slicePayload false from rfl]
  refine Nat.le_of_lt_succ (Nat.div_lt_of_lt_mul ?_)
  rw [Nat.mul_succ, Nat.mul_comm]
  omega

private theorem replyPackets_original {m : Outgoing} (h : m.Sendable) (e : Endian)
    (replyId : UInt64) :
    ∃ packets, EchoServer.replyPackets e replyId m.data = .ok packets := by
  have hreply : Outgoing.Sendable ⟨replyId, m.data, false⟩ :=
    ⟨h.1, (slicesNeeded_false_le _ _).trans h.2⟩
  obtain ⟨frames, hframes, -⟩ := hreply.encode e
  exact ⟨_, congrArg (Except.map (Encoder.serializeFrames e)) hframes⟩

/-! ## What a reactor tells of a connection in its table -/

theorem Life.foldlM_stuck {events : List NetworkEvent} {life : Life}
    (hlife : life = .failed ∨ life = .ended) : events.foldlM Life.next life ≠ some .connected := by
  induction events generalizing life with
  | nil =>
    rintro h
    rcases hlife with rfl | rfl <;> cases h
  | cons event events ih =>
    rintro h
    obtain ⟨mid, hmid, hrest⟩ := Option.bind_eq_some_iff.mp (List.foldlM_cons.symm.trans h)
    refine ih ?_ hrest
    rcases hlife with rfl | rfl <;> cases event <;> cases hmid
    exact .inr rfl

theorem Life.foldlM_data {events : List NetworkEvent}
    (h : events.foldlM Life.next .connected = some .connected) :
    ∀ event ∈ events, ∃ id payload, event = .data id payload := by
  induction events with
  | nil => exact nofun
  | cons event events ih =>
    obtain ⟨mid, hmid, hrest⟩ := Option.bind_eq_some_iff.mp (List.foldlM_cons.symm.trans h)
    cases event with
    | data id payload =>
      cases hmid
      exact List.forall_mem_cons.mpr ⟨⟨id, payload, rfl⟩, ih hrest⟩
    | connected => cases hmid
    | error =>
      cases hmid
      exact absurd hrest (foldlM_stuck (.inl rfl))
    | disconnected =>
      cases hmid
      exact absurd hrest (foldlM_stuck (.inr rfl))

/-- A connection that is connected was announced, and has received data since. -/
theorem Life.after_connected {events : List NetworkEvent}
    (h : Life.after events = some .connected) :
    ∃ id peer rest, events = .connected id peer :: rest ∧
      ∀ event ∈ rest, ∃ id payload, event = .data id payload := by
  cases events with
  | nil => cases h
  | cons event events =>
    obtain ⟨mid, hmid, hrest⟩ := Option.bind_eq_some_iff.mp (List.foldlM_cons.symm.trans h)
    cases event with
    | connected id peer =>
      cases hmid
      exact ⟨id, peer, events, rfl, foldlM_data hrest⟩
    | _ => cases hmid

/-- Where nothing is refused, what is dispatched are the payloads of what is submitted. -/
theorem collect_dispatchedFor {id : UInt64} {log : List Effect}
    (h : collect (Effect.refusedFor id) log = []) : collect (Effect.dispatchedFor id) log =
      (collect (Effect.submittedFor id) log).flatMap (NetworkEvent.payloadOf id) := by
  induction log with
  | nil => rfl
  | cons e log ih =>
    rw [collect, List.append_eq_nil_iff] at h
    rw [collect, collect, List.flatMap_append, ih h.1]
    congr 1
    have hpayload (event : NetworkEvent) : event.payloadOf id =
        (if event.connectionId = id then [event] else []).flatMap
          (NetworkEvent.payloadOf id) := by
      by_cases hid : event.connectionId = id
      · rw [if_pos hid, List.flatMap_singleton]
      · rw [if_neg hid, Effect.payloadOf_of_ne hid, List.flatMap_nil]
    cases e with
    | dispatched event => exact hpayload event
    | refused event => exact h.2.symm.trans (hpayload event)
    | _ => rfl

private theorem flatMap_eventsFor (id : UInt64) (events : List NetworkEvent) :
    (eventsFor id events).flatMap (NetworkEvent.payloadOf id) =
      events.flatMap (NetworkEvent.payloadOf id) := by
  rw [eventsFor]
  induction events with
  | nil => rfl
  | cons event events ih =>
    rw [List.filter_cons]
    by_cases hid : event.connectionId = id
    · rw [if_pos (decide_eq_true hid), List.flatMap_cons, List.flatMap_cons, ih]
    · rw [if_neg (by simpa using hid), List.flatMap_cons, ih, Effect.payloadOf_of_ne hid,
        List.nil_append]

private theorem mem_eventsFor {id : UInt64} {event : NetworkEvent} {events : List NetworkEvent} :
    event ∈ eventsFor id events ↔ event ∈ events ∧ event.connectionId = id := by
  simp [eventsFor]

private theorem exists_of_eventsFor {id : UInt64} {events before data : List NetworkEvent}
    {first : NetworkEvent} (h : eventsFor id events = before ++ first :: data) :
    ∃ earlier later, events = earlier ++ first :: later ∧ eventsFor id later = data := by
  obtain ⟨old, new, rfl, -, hnew⟩ := List.filter_eq_append_iff.mp h
  obtain ⟨skipped, later, rfl, -, -, hlater⟩ := List.filter_eq_cons_iff.mp hnew
  exact ⟨old ++ skipped, later, (List.append_assoc _ _ _).symm, hlater⟩

/-! ## From the socket to the messages -/

namespace ServerFlow

variable {n : ℕ} {s : ServerFlow n} {i : Fin n} {id : UInt64} {conn : ReactorConnection}

/-- Something of the present life of the connection has been passed on. -/
def HasPassed (s : ServerFlow n) (i : Fin n) (id : UInt64) : Prop :=
  ((s.reactors i).reactor.told id).length <
    (eventsFor id s.passed).length + ((s.reactors i).reactor.submitted id).length

/-- The present life of a connection in the table of reactor `i`: its announcement and the data
`passed` have been passed on, the data `more` have not. -/
structure Present (s : ServerFlow n) (i : Fin n) (id : UInt64)
    (earlier later : List NetworkEvent) (peer : SockAddr) (more : List NetworkEvent) : Prop where
  passed : s.passed = earlier ++ .connected id peer :: later
  submitted : (s.reactors i).reactor.submitted id =
    .connected id peer :: (eventsFor id later ++ more)
  data : ∀ event ∈ later, event.connectionId = id → ∃ payload, event = .data id payload
  arrived : eventsFor id s.passed = (s.reactors i).reactor.told id → more = []

theorem Flows.exists_present (h : s.Flows)
    (hconn : (s.reactors i).reactor.connections.lookup id = some conn)
    (hpassed : s.HasPassed i id) :
    ∃ earlier later peer more, s.Present i id earlier later peer more := by
  have hstands := (h.lanes i).tracked.stands id
  obtain ⟨before, -, hall⟩ := hstands.past
  obtain ⟨-, hlife⟩ := hstands.table (Finmap.mem_of_lookup_eq_some hconn)
  obtain ⟨id', peer, rest, hsubmitted, hdata⟩ := Life.after_connected hlife
  have htold := (s.reactors i).reactor.told_eq id
  rw [hall, hsubmitted] at htold
  have hfirst : NetworkEvent.connected id' peer ∈
      eventsFor id ((s.reactors i).reactor.submissions.map Prod.fst) := by
    rw [eventsFor, ← htold]
    exact List.mem_append_right before List.mem_cons_self
  obtain ⟨hmem, hid⟩ := mem_eventsFor.mp hfirst
  obtain rfl : id' = id := hid
  have hnamed := (h.lanes i).names hmem
  rw [show (NetworkEvent.connected id' peer).connectionId = id' from rfl] at hnamed
  have hbegins := h.passed_for hnamed
  rw [HasPassed, hall, List.length_append, Nat.add_lt_add_iff_right] at hpassed
  rw [hall, hsubmitted] at hbegins
  obtain ⟨data, more, hnow, rfl⟩ := Lists.prefix_past hbegins hpassed
  obtain ⟨earlier, later, hsplit, hlater⟩ := exists_of_eventsFor hnow
  refine ⟨earlier, later, peer, more, hsplit, ?_, fun event hevent hid => ?_, fun hwhole => ?_⟩
  · rw [hsubmitted, hlater]
  · have hin : event ∈ eventsFor id' later := mem_eventsFor.mpr ⟨hevent, hid⟩
    rw [hlater] at hin
    obtain ⟨i', payload, rfl⟩ := hdata event (List.mem_append_left more hin)
    exact ⟨payload, congrArg (NetworkEvent.data · payload) hid⟩
  · rw [hnow, hall, hsubmitted, List.append_cancel_left_eq, List.cons_inj_right] at hwhole
    exact List.append_right_eq_self.mp hwhole.symm

/-- The bytes received on the socket are the payloads passed on and those still to come. -/
theorem Present.bytes {earlier later more : List NetworkEvent} {peer : SockAddr}
    (h : s.Present i id earlier later peer more)
    (hdelivers : (s.reactors i).reactor.Delivers id conn.fileDescriptor)
    (hlost : (s.reactors i).reactor.lost id = []) :
    (s.reactors i).reactor.got conn.fileDescriptor =
      later.flatMap (NetworkEvent.payloadOf id) ++ more.flatMap (NetworkEvent.payloadOf id) := by
  have hgot : (s.reactors i).reactor.delivered id =
      (s.reactors i).reactor.got conn.fileDescriptor ++ [] :=
    hdelivers.kept_eq_iff.mpr ⟨rfl, hlost⟩
  rw [List.append_nil] at hgot
  have hpayloads : (s.reactors i).reactor.delivered id =
      ((s.reactors i).reactor.submitted id).flatMap (NetworkEvent.payloadOf id) :=
    collect_dispatchedFor hlost
  rw [← hgot, hpayloads, h.submitted, List.flatMap_cons, List.flatMap_append, flatMap_eventsFor]
  rfl

theorem Flows.delivers (h : s.Flows)
    (hconn : (s.reactors i).reactor.connections.lookup id = some conn) :
    (s.reactors i).reactor.Delivers id conn.fileDescriptor := by
  obtain ⟨past, hrun, -⟩ := (h.lanes i).runs
  have hheard : ∀ u ∈ s.reactors i :: past, u.reactor.receiver ≠ .nobody := by
    intro u hu hnobody
    have hpool := (reactors_tracked hrun u hu).pool
    rw [hnobody] at hpool
    cases hpool
  exact (reactors_accounted hrun hheard _ List.mem_cons_self).2.table id conn hconn

end ServerFlow

namespace EchoServer

variable {env : EchoEnvironment} {id : UInt64} {final : Decoder}

/-- Of the events of a server only those since the last announcement matter to a connection. -/
theorem run_keepsUp {events earlier later : List NetworkEvent} {peer : SockAddr}
    {stream rest : List UInt8} {echo : EchoServer}
    (hevents : events = earlier ++ .connected id peer :: later)
    (hdata : ∀ event ∈ later, event.connectionId = id → ∃ payload, event = .data id payload)
    (hstart : (Decoder.fresh 30000).LeadsTo env.endian stream final)
    (hanswers : ∀ message ∈ final.completedMessages, ∀ replyId, ∃ packets,
      replyPackets env.endian replyId message.data = .ok packets)
    (hbytes : later.flatMap (NetworkEvent.payloadOf id) ++ rest = stream)
    (hrun : EchoServer.run env (events.filterMap
      (ServerCallbacks.callFor ⟨true, true, true, true⟩)) = some echo) :
    echo.KeepsUp env id rest final := by
  rw [hevents, List.filterMap_append, EchoServer.run, List.foldlM_append] at hrun
  obtain ⟨before, -, hrest⟩ := Option.bind_eq_some_iff.mp hrun
  have hcall : ServerCallbacks.callFor ⟨true, true, true, true⟩ (.connected id peer) =
      some (.onClientConnected id peer) := rfl
  rw [List.filterMap_cons_some hcall, List.foldlM_cons] at hrest
  obtain ⟨connected, hconnected, hlater⟩ := Option.bind_eq_some_iff.mp hrest
  obtain ⟨t, ht, rfl⟩ := Option.map_eq_some_iff.mp hconnected
  obtain rfl := Option.some.inj ht
  subst hbytes
  exact (keepsUp_connected hstart).count.foldlM hanswers hdata hlater

end EchoServer

/-- On a connection on which frames of encoded messages and stream items arrive, in any parts and
whatever happens on other connections, the echo server receives the messages in the order in which
they become complete, and in the end all of them. Nothing is caught, and unless a packet is
refused the replies are those to the messages, numbered from 1. -/
theorem echo_receives (env : EchoEnvironment) {originals : List Outgoing} {items : List StreamItem}
    {streamFrames : List Frame} (hids : (originals.map Outgoing.messageId).Nodup)
    (hsend : ∀ m ∈ originals, m.Sendable)
    (hstream : items.mapM (StreamItem.encode env.endian) = .ok streamFrames) :
    ∃ messageFrames, originals.mapM (Outgoing.encode env.endian) = .ok messageFrames ∧
      ∀ fs : List Frame, fs.Perm (messageFrames.flatten ++ streamFrames) →
        fs.filter Frame.isStream = streamFrames →
        ∃ final : Decoder, final.Delivered env.endian originals items fs ∧
          ∀ (n workerCount maxQueueSize : ℕ), n ≤ 256 → ∀ states,
            (serverFlows n workerCount maxQueueSize).Run states → ∀ s ∈ states, ∀ echo,
            s.echo env = some echo → ∀ i id conn rest,
            (s.reactors i).reactor.connections.lookup id = some conn → s.HasPassed i id →
            (s.reactors i).reactor.lost id = [] →
            (s.reactors i).reactor.got conn.fileDescriptor ++ rest =
              (Encoder.serializeFrames env.endian fs).flatten →
            echo.received id <+: final.completedMessages ∧
              (rest = [] → eventsFor id s.passed = (s.reactors i).reactor.told id →
                echo.received id = final.completedMessages) ∧
              echo.caught id = [] ∧
              ((∀ k, env.sendData k = true) → echo.handed id =
                EchoServer.replies (EchoServer.replyPackets env.endian) 1 (echo.received id)) := by
  obtain ⟨messageFrames, hencode, hparts⟩ := encode_originals env.endian hsend
  refine ⟨messageFrames, hencode, fun fs hperm horder => ?_⟩
  obtain ⟨final, hdelivered, hstart⟩ :=
    interleaved_leadsTo hids hsend hparts hstream hperm horder
  refine ⟨final, hdelivered, ?_⟩
  rintro n workerCount maxQueueSize hn states hrun s hs echo hecho i id conn rest hconn hpassed
    hlost hbytes
  have hanswers : ∀ message ∈ final.completedMessages, ∀ replyId, ∃ packets,
      EchoServer.replyPackets env.endian replyId message.data = .ok packets := by
    intro message hmessage replyId
    obtain ⟨m, hm, rfl⟩ := List.mem_map.mp (hdelivered.messages.subset hmessage)
    exact replyPackets_original (hsend m hm) env.endian replyId
  have hflows := serverFlows_flows hn hrun s hs
  obtain ⟨earlier, later, peer, more, hpresent⟩ := hflows.exists_present hconn hpassed
  rw [hpresent.bytes (hflows.delivers hconn) hlost, List.append_assoc] at hbytes
  have hcalls : (s.server ⟨true, true, true, true⟩).calls = s.passed.filterMap
      (ServerCallbacks.callFor ⟨true, true, true, true⟩) := by
    rw [ServerFlow.server, ServerEvents.foldl_calls, List.nil_append]
  rw [ServerFlow.echo, hcalls] at hecho
  have hkeeps := EchoServer.run_keepsUp hpresent.passed hpresent.data (hstart 30000) hanswers
    hbytes hecho
  obtain ⟨c, -, hempty, hfront, hleads, -⟩ := hkeeps.state
  have hmessages : echo.received id ++ c.decoder.completedMessages = echo.received id := by
    rw [hempty, List.append_nil]
  refine ⟨?_, fun hrest hall => ?_, hkeeps.caught, hkeeps.handed⟩
  · exact hmessages ▸ hleads.extends.messages
  · rw [hrest, hpresent.arrived hall] at hleads
    exact hmessages.symm.trans (hleads.arrived hfront).messages

def sampleFrame : List UInt8 :=
  [90, 92, 1, 1, 1, 0, 17, 0, 0, 0, 0, 0, 0, 0, 0, 0, 7, 0, 0, 0, 0, 0, 0, 0, 1, 0, 0, 0, 65,
    108, 24, 188, 78]

/-- Descriptor 5 has been added, and nothing is to be sent on it. -/
def sampleQuiet : Option Reactor :=
  let r := ((Reactor.started 0 .workerPool 60).accept 5).addConnection 5 ⟨[]⟩
  ((r.2.push (.add 5 ⟨[]⟩)).dequeue (.add 5 ⟨[]⟩) []).processOperation sampleEnvironment
    (.add 5 ⟨[]⟩)

def sampleArrival : Environment where
  __ := sampleEnvironment
  recv := [.received (sampleFrame.take 20) (by decide), .received (sampleFrame.drop 20) (by decide),
    .failed .eagain]

/-- `sampleQuiet` at the end of the first batch of operations. -/
def sampleRead (r : Reactor) : Reactor :=
  (r.count fun s => { s with totalOpsProcessed := s.totalOpsProcessed + 1 }).processKqueueEvent
    sampleArrival ⟨5, .read, false, false, .other 0⟩

/-- A worker passes on the announcement of a connection and two parts of a frame. -/
theorem ServerFlow.sample_received : ∃ r s past, sampleQuiet = some r ∧
    (serverFlows 1 1 0).Run (s :: past) ∧ (s.reactors 0).reactor = sampleRead r ∧
      s.passed = [.connected sampleId ⟨[]⟩, .data sampleId (sampleFrame.take 20),
        .data sampleId (sampleFrame.drop 20)] := by
  have hquiet : sampleQuiet.isSome = true := by decide +kernel
  obtain ⟨r, hr⟩ := Option.isSome_iff_exists.mp hquiet
  have hadded : sampleQuiet.map (fun r => (r.submissions, r.pendingOperations)) =
      some ([(.connected sampleId ⟨[]⟩, true)], []) := by
    decide +kernel
  have hread : sampleQuiet.map (fun r => (sampleRead r).submissions) =
      some [(.connected sampleId ⟨[]⟩, true), (.data sampleId (sampleFrame.take 20), true),
        (.data sampleId (sampleFrame.drop 20), true)] := by
    decide +kernel
  rw [hr] at hadded hread
  obtain ⟨htold, hempty⟩ := Prod.mk.inj (Option.some.inj hadded)
  have hevents : (sampleRead r).submissions = r.submissions ++
      [(.data sampleId (sampleFrame.take 20), true),
        (.data sampleId (sampleFrame.drop 20), true)] :=
    (Option.some.inj hread).trans (congrArg (· ++ _) htold.symm)
  have haccept := start_single.next (Step.single_silent
    (System.Step.accept 5 ⟨[]⟩ (by decide) (by decide) rfl) (by simp) rfl)
  have henqueue := haccept.next (Step.single_silent
    (System.Step.enqueue (List.nil_append _).symm (by decide)) (by simp) rfl)
  have henter := henqueue.next (Step.single_silent
    (System.Step.loop (Loop.Step.enter rfl)) (by simp) rfl)
  have hadd := henter.next (Step.single_reactor
    (System.Step.loop (Loop.Step.process sampleEnvironment (by decide) rfl hr)) (by simp)
    (show _ = _ ++ [(.connected sampleId ⟨[]⟩, true)] from htold))
  have hannounced := hadd.next (Step.single_submit (.enqueued rfl rfl rfl))
  have hdrained := hannounced.next (Step.single_silent
    (System.Step.loop (Loop.Step.drained (.inr hempty))) (by simp) rfl)
  have hwaiting := hdrained.next (Step.single_silent
    (System.Step.loop .notDue) (by simp) rfl)
  have hwoken := hwaiting.next (Step.single_silent
    (System.Step.loop (.woken [⟨5, .read, false, false, .other 0⟩] (by decide))) (by simp) rfl)
  have hhandled := hwoken.next (Step.single_reactor
    (System.Step.loop (.handle sampleArrival)) (by simp) (show _ = _ ++ _ from hevents))
  have hfirst := hhandled.next (Step.single_submit (.enqueued rfl rfl rfl))
  have hsecond := hfirst.next (Step.single_submit (.enqueued rfl rfl rfl))
  have htest := hsecond.next (ServerFlow.Step.worker 0 (.test rfl))
  have htaken := htest.next (ServerFlow.Step.worker 0 (.waitDequeue rfl
    (show ConcurrentQueue.waitDequeue false _ = some (_, _) from rfl)))
  have hcalled := htaken.next (ServerFlow.Step.worker 0 (.call rfl))
  have htest := hcalled.next (ServerFlow.Step.worker 0 (.test rfl))
  have htaken := htest.next (ServerFlow.Step.worker 0 (.waitDequeue rfl
    (show ConcurrentQueue.waitDequeue false _ = some (_, _) from rfl)))
  have hcalled := htaken.next (ServerFlow.Step.worker 0 (.call rfl))
  have htest := hcalled.next (ServerFlow.Step.worker 0 (.test rfl))
  have htaken := htest.next (ServerFlow.Step.worker 0 (.waitDequeue rfl
    (show ConcurrentQueue.waitDequeue false _ = some (_, _) from rfl)))
  have hcalled := htaken.next (ServerFlow.Step.worker 0 (.call rfl))
  exact ⟨r, _, _, hr, hcalled, rfl, rfl⟩

/-- A frame that arrives in two parts: its message is received, and the reply is handed over. -/
theorem echo_receives_sample : ∃ s past echo, (serverFlows 1 1 0).Run (s :: past) ∧
    s.echo ⟨.little, fun _ _ => 0, fun _ => true⟩ = some echo ∧
      echo.received sampleId = [Outgoing.complete ⟨7, [0x41], true⟩] ∧
      echo.caught sampleId = [] ∧
      echo.handed sampleId = EchoServer.replies (EchoServer.replyPackets .little) 1
        [Outgoing.complete ⟨7, [0x41], true⟩] := by
  obtain ⟨r, s, past, hr, hrun, hreactor, hpassed⟩ := ServerFlow.sample_received
  have htable : sampleQuiet.map (fun r => ((sampleRead r).connections.lookup sampleId).map
      fun conn => ((sampleRead r).got conn.fileDescriptor, (sampleRead r).lost sampleId)) =
        some (some (sampleFrame, [])) := by
    decide +kernel
  have htold : sampleQuiet.map (fun r => ((sampleRead r).told sampleId,
      decide (((sampleRead r).told sampleId).length <
        3 + ((sampleRead r).submitted sampleId).length))) =
      some ([.connected sampleId ⟨[]⟩, .data sampleId (sampleFrame.take 20),
        .data sampleId (sampleFrame.drop 20)], true) := by
    decide +kernel
  rw [hr] at htable htold
  obtain ⟨conn, hconn, hbytes⟩ := Option.map_eq_some_iff.mp (Option.some.inj htable)
  obtain ⟨hgot, hlost⟩ := Prod.mk.inj hbytes
  obtain ⟨hall, hmore⟩ := Prod.mk.inj (Option.some.inj htold)
  rw [← hreactor] at hconn hgot hlost hall hmore
  have hevents : eventsFor sampleId s.passed = s.passed := by
    rw [hpassed]
    decide +kernel
  have hbegun : s.HasPassed 0 sampleId := by
    rw [ServerFlow.HasPassed, hevents, hpassed]
    exact of_decide_eq_true hmore
  obtain ⟨echo, hecho⟩ : ∃ echo, s.echo ⟨.little, fun _ _ => 0, fun _ => true⟩ = some echo := by
    rw [ServerFlow.echo, ServerFlow.server, hpassed]
    exact Option.isSome_iff_exists.mp (by decide +kernel)
  have hids : ([⟨7, [0x41], true⟩].map Outgoing.messageId).Nodup := by decide
  have hsend : ∀ m ∈ [⟨7, [0x41], true⟩], Outgoing.Sendable m := by
    rintro m (_ | ⟨_, ⟨⟩⟩)
    exact ⟨by simp, by decide⟩
  have hframes : ([⟨7, [0x41], true⟩].mapM (Outgoing.encode .little)).toOption.map
      (fun frames => (frames.flatten.filter Frame.isStream,
        (Encoder.serializeFrames .little frames.flatten).flatten)) = some ([], sampleFrame) := by
    decide +kernel
  obtain ⟨messageFrames, hencode, hsent⟩ := echo_receives ⟨.little, fun _ _ => 0, fun _ => true⟩
    hids hsend (show [].mapM (StreamItem.encode .little) = .ok [] from rfl)
  rw [hencode] at hframes
  obtain ⟨hstreams, hserialized⟩ := Prod.mk.inj (Option.some.inj hframes)
  obtain ⟨final, hfinal, hechoes⟩ := hsent messageFrames.flatten (by rw [List.append_nil]) hstreams
  obtain ⟨-, hreceived, hcaught, hhanded⟩ := hechoes 1 1 0 (by decide) _ hrun s
    List.mem_cons_self echo hecho 0 sampleId conn [] hconn hbegun hlost
    ((List.append_nil _).trans (hgot.trans hserialized.symm))
  have hmessage : echo.received sampleId = [Outgoing.complete ⟨7, [0x41], true⟩] :=
    (hreceived rfl (hevents.trans (hpassed.trans hall.symm))).trans
      (List.perm_singleton.mp hfinal.messages)
  exact ⟨s, past, echo, hrun, hecho, hmessage, hcaught, hmessage ▸ hhanded fun _ => rfl⟩

/-! ## The replies, decoded -/

/-- The order in which the parts of messages with distinct ids end if they come one after
another. -/
theorem dedup_ids {originals : List Outgoing} (hids : (originals.map Outgoing.messageId).Nodup)
    (hsend : ∀ m ∈ originals, m.Sendable) :
    ((originals.flatMap Outgoing.parts).map Part.id).dedup =
      originals.map Outgoing.messageId := by
  induction originals with
  | nil => rfl
  | cons m originals ih =>
    obtain ⟨hm, hrest⟩ := List.forall_mem_cons.mp hsend
    rw [List.map_cons, List.nodup_cons] at hids
    have hparts : m.parts.map Part.id = List.replicate m.slices m.messageId := by
      rw [Outgoing.parts, List.map_map, List.eq_replicate_iff]
      refine ⟨by simp, fun id hid => ?_⟩
      obtain ⟨i, -, rfl⟩ := List.mem_map.mp hid
      rfl
    have hnew : m.messageId ∉ (originals.flatMap Outgoing.parts).map Part.id := by
      rintro hmem
      obtain ⟨p, hp, hid⟩ := List.mem_map.mp hmem
      obtain ⟨m', hm', hpart⟩ := List.mem_flatMap.mp hp
      obtain ⟨i, -, rfl⟩ := List.mem_map.mp hpart
      exact hids.1 (List.mem_map.mpr ⟨m', hm', hid⟩)
    obtain ⟨n, hn⟩ := Nat.exists_eq_add_of_lt hm.slices_pos
    rw [List.flatMap_cons, List.map_append, hparts, hn, Nat.zero_add,
      Lists.dedup_replicate_append hnew, ih hids.2 hrest, List.map_cons]

namespace EchoServer

def outgoing : UInt64 → List MessageComplete → List Outgoing
  | _, [] => []
  | replyId, message :: rest => ⟨replyId, message.data, false⟩ :: outgoing (replyId + 1) rest

theorem mem_outgoing {m : Outgoing} {replyId : UInt64} {messages : List MessageComplete}
    (h : m ∈ outgoing replyId messages) : (∃ message ∈ messages, m.data = message.data ∧
      m.enableCrc = false) ∧ ∃ k < messages.length, m.messageId = replyId + UInt64.ofNat k := by
  induction messages generalizing replyId with
  | nil => cases h
  | cons message messages ih =>
    rcases List.mem_cons.mp h with rfl | hlater
    · exact ⟨⟨message, List.mem_cons_self, rfl, rfl⟩, 0, Nat.zero_lt_succ _,
        (UInt64.add_zero _).symm⟩
    · obtain ⟨⟨message', hmessage', hdata⟩, k, hk, hid⟩ := ih hlater
      refine ⟨⟨message', List.mem_cons_of_mem _ hmessage', hdata⟩, k + 1,
        Nat.succ_lt_succ hk, ?_⟩
      rw [hid, UInt64.ofNat_add, UInt64.add_assoc, UInt64.add_comm 1]
      rfl

private theorem outgoing_nodup {messages : List MessageComplete} (replyId : UInt64)
    (hlen : messages.length ≤ 2 ^ 64) :
    ((outgoing replyId messages).map Outgoing.messageId).Nodup := by
  induction messages generalizing replyId with
  | nil => exact List.nodup_nil
  | cons message messages ih =>
    rw [List.length_cons] at hlen
    rw [outgoing, List.map_cons, List.nodup_cons]
    refine ⟨fun hmem => ?_, ih _ (by omega)⟩
    obtain ⟨m, hm, hid⟩ := List.mem_map.mp hmem
    obtain ⟨-, k, hk, hnumber⟩ := mem_outgoing hm
    have hzero : (1 : UInt64) + UInt64.ofNat k = 0 := by
      have hcancel : replyId + (1 + UInt64.ofNat k) = replyId + 0 := by
        rw [← UInt64.add_assoc, ← hnumber, UInt64.add_zero]
        exact hid
      exact (UInt64.add_right_inj replyId).mp hcancel
    have hnat := congrArg UInt64.toNat hzero
    simp at hnat
    omega

/-- The packets of the replies are the serialized frames of the messages to be sent. -/
theorem replies_eq {e : Endian} {replyId : UInt64} {messages : List MessageComplete}
    {frames : List (List Frame)}
    (h : (outgoing replyId messages).mapM (Outgoing.encode e) = .ok frames) :
    replies (replyPackets e) replyId messages = Encoder.serializeFrames e frames.flatten := by
  induction messages generalizing replyId frames with
  | nil =>
    cases h
    rfl
  | cons message messages ih =>
    rw [outgoing, Lists.mapM_ok_iff, List.forall₂_cons_left_iff] at h
    obtain ⟨first, rest, hfirst, hrest, rfl⟩ := h
    have hpackets : replyPackets e replyId message.data =
        .ok (Encoder.serializeFrames e first) :=
      congrArg (Except.map (Encoder.serializeFrames e)) hfirst
    rw [replies, hpackets, ih (Lists.mapM_ok_iff.mpr hrest), List.flatten_cons,
      Encoder.serializeFrames, Encoder.serializeFrames, Encoder.serializeFrames,
      List.map_append]
    rfl

private theorem map_complete_outgoing (replyId : UInt64) (messages : List MessageComplete) :
    (outgoing replyId messages).map Outgoing.complete =
      messages.mapIdx fun k message => ⟨replyId + UInt64.ofNat k, message.data⟩ := by
  induction messages generalizing replyId with
  | nil => rfl
  | cons message messages ih =>
    rw [outgoing, List.map_cons, ih, List.mapIdx_cons]
    congr 1
    · rw [Outgoing.complete, show UInt64.ofNat 0 = 0 from rfl, UInt64.add_zero]
    · congr 1
      funext k message
      rw [UInt64.ofNat_add, UInt64.add_assoc, UInt64.add_comm 1]
      rfl

end EchoServer

/-- The replies of the echo server, in whatever parts they arrive, are decoded to the data of the
messages, in their order and numbered from 1. -/
theorem echo_replies_decode (e : Endian) {messages : List MessageComplete}
    (hsend : ∀ message ∈ messages, Outgoing.Sendable ⟨message.messageId, message.data, false⟩)
    (hlen : messages.length < 2 ^ 64) (ms : UInt32) {chunks : List Decoder.Chunk}
    (hinput : Decoder.input chunks =
      (EchoServer.replies (EchoServer.replyPackets e) 1 messages).flatten) :
    ∃ d, Decoder.feedAll e (Decoder.fresh ms) chunks = .normal d ∧
      d.completedMessages =
        messages.mapIdx (fun k message => ⟨1 + UInt64.ofNat k, message.data⟩) ∧
      d.buffer = [] ∧ d.messages = ∅ ∧ d.stats.crcErrors = 0 := by
  have hids := EchoServer.outgoing_nodup 1 hlen.le
  have hsendable : ∀ m ∈ EchoServer.outgoing 1 messages, m.Sendable := by
    intro m hm
    obtain ⟨⟨message, hmessage, hdata, hcrc⟩, -⟩ := EchoServer.mem_outgoing hm
    have hsame := hsend message hmessage
    rw [Outgoing.Sendable, Outgoing.slices] at hsame ⊢
    rw [hdata, hcrc]
    exact hsame
  obtain ⟨frames, hencode, hparts⟩ := encode_originals e hsendable
  rw [EchoServer.replies_eq hencode] at hinput
  have htags : frames.flatten.filter Frame.isStream = [] := by
    refine List.filter_eq_nil_iff.mpr fun f hf => ?_
    obtain ⟨p, -, hdelivers⟩ := Lists.exists_left_of_mem hparts hf
    simp [Frame.isStream, hdelivers.tag]
  have hitems : List.Forall₂ (fun (item : StreamItem) (f : Frame) =>
      f.DeliversEvent e item.event) [] [] := .nil
  have hperm : frames.flatten.Perm (frames.flatten ++ []) := by rw [List.append_nil]
  obtain ⟨d, hfeed, hdelivered⟩ :=
    Decoder.feedAll_interleaved hids hsendable hparts hitems hperm htags ms hinput
  refine ⟨d, hfeed, ?_, hdelivered.buffer, hdelivered.pending, hdelivered.crcErrors⟩
  rw [← EchoServer.map_complete_outgoing]
  refine Lists.eq_of_perm_of_map_eq hdelivered.messages (f := MessageComplete.messageId) ?_ ?_
  · have hparted : frames.flatten.filterMap (Frame.part? e) =
        ((EchoServer.outgoing 1 messages).flatMap Outgoing.parts).map id :=
      Lists.filterMap_eq_map (fun _ _ h => h.part) hparts
    rw [hdelivered.order, Frame.messageIds, hparted, List.map_id, dedup_ids hids hsendable,
      List.map_map]
    rfl
  · rw [List.map_map]
    exact hids

/-- The reply to one message, in one part. -/
theorem echo_replies_decode_one : ∃ d, Decoder.feedAll .little (Decoder.fresh 0) [⟨fun _ => 0,
      (EchoServer.replies (EchoServer.replyPackets .little) 1 [⟨7, [0x41]⟩]).flatten⟩] =
        .normal d ∧
      d.completedMessages = [⟨1, [0x41]⟩] ∧ d.buffer = [] ∧ d.messages = ∅ ∧
      d.stats.crcErrors = 0 := by
  have hsend : ∀ message ∈ [(⟨7, [0x41]⟩ : MessageComplete)],
      Outgoing.Sendable ⟨message.messageId, message.data, false⟩ := by
    rintro message (_ | ⟨_, ⟨⟩⟩)
    exact ⟨by simp, by decide⟩
  exact echo_replies_decode .little hsend (by decide) 0 (List.append_nil _)

end DarwinCore.Network
