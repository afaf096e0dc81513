import DarwinCore.Verification.Network.ClientFlow
import DarwinCore.Verification.Network.OrderlyClose

/-! # Reported sends

The bytes of an operation are the last that were put into the send buffer when its success is
reported. The kernel has accepted them all exactly if the one `send` since took everything that
was in the buffer. -/

namespace DarwinCore.Network

open ClientReactor ClientSystem Streams

/-- From where the bytes of `op` begin, what has been handed to the kernel is what has been put
into the send buffer, for the same descriptor. -/
def Accepted (op : SendOperation) (x : ClientSystem × List (ℤ × UInt8)) : Prop :=
  x.1.reactor.handed.drop (x.2.length - op.data.length) = x.2.drop (x.2.length - op.data.length)

/-- Somebody is told the result of the operation: a callback, or the caller of `SendSync`. -/
def SendOperation.Reported (op : SendOperation) : Prop :=
  op.callback ≠ none ∨ op.promise ≠ none

/-- If somebody is going to be told that an operation succeeded, the kernel has accepted its
bytes. -/
def ReportsTruly (x : ClientSystem × List (ℤ × UInt8)) : Prop :=
  ∀ op : SendOperation, op.Reported → x.1.loop.outcome = some (op, true) → Accepted op x

/-- `DoSend` puts an operation whose result is reported into the send buffer, and the `send` that
follows is not called or does not take everything that is in the buffer. -/
def ClientSystem.SendsPart (s t : ClientSystem) : Prop :=
  ∃ processed env op rest removes, op.Reported ∧ s.loop = .draining processed ∧
    s.reactor.sendOperations = op :: rest ∧
    (s.reactor.dequeue op rest).doSend env op.data = some (true, removes, t.reactor) ∧
    t.loop = .after removes (.completing (processed + 1) op true) ∧
    (s.reactor.connection.fileDescriptor < 0 ∨
      (env.send (s.reactor.log.length + 1)
        (s.reactor.connection.sendBuffer.size + op.data.length)).taken <
        s.reactor.connection.sendBuffer.size + op.data.length)

variable {s t : ClientSystem} {op : SendOperation} {put : List (ℤ × UInt8)}

/-- What is left in the send buffer after `DoSend`. -/
theorem doSend_unsent {r r' : ClientReactor} {env : Environment} {data : List UInt8}
    {removes : Bool} (hvalid : r.connection.sendBuffer.Valid) (hsized : data.length < 2 ^ 63)
    (h : r.doSend env data = some (true, removes, r')) :
    data ≠ [] ∧ (r'.unsent = [] ↔ ¬(r.connection.fileDescriptor < 0 ∨
      (env.send r.log.length (r.connection.sendBuffer.size + data.length)).taken <
        r.connection.sendBuffer.size + data.length)) := by
  generalize hsuccess : true = success at h
  cases doSend_cases env hvalid hsized h with
  | refused hvalid hunsent hhanded => cases hsuccess
  | @buffered buffer hconnection hbuffer hpos hreadable =>
    refine ⟨hpos, ?_⟩
    let r₁ := r.assign fun c => { c with sendBuffer := buffer }
    have hlength : buffer.readable.length = r.connection.sendBuffer.size + data.length := by
      rw [hreadable, List.length_append, unsent, hvalid.readable_length]
    have hsize : buffer.size = r.connection.sendBuffer.size + data.length :=
      hbuffer.readable_length.symm.trans hlength
    have hnonempty : 0 < buffer.readable.length := by
      have hdata := List.length_pos_iff.mpr hpos
      omega
    by_cases hfd : 0 ≤ r.connection.fileDescriptor
    · obtain ⟨-, hdrop, -⟩ := trySendDirect_sends (r := r₁) env hbuffer hconnection hfd
      have htakes : r₁.takes env =
          (env.send r.log.length (r.connection.sendBuffer.size + data.length)).taken :=
        congrArg (fun n => (env.send r.log.length n).taken) hsize
      rw [hdrop, List.drop_eq_nil_iff, htakes]
      rw [show r₁.unsent.length = _ from hlength]
      omega
    · have hidle : r₁.trySendDirect env = (false, r₁) :=
        trySendDirect_idle env fun hboth => hfd hboth.2
      rw [hidle]
      refine iff_of_false (fun hnil => ?_) fun hnot => hnot (.inl (not_le.mp hfd))
      rw [show r₁.unsent = buffer.readable from rfl] at hnil
      rw [hnil] at hnonempty
      exact Nat.lt_irrefl 0 hnonempty

/-- When the bytes of `op` have just been put into the buffer, they have been accepted exactly if
the buffer is empty. -/
theorem ClientSystem.Puts.accepted_iff (h : s.Puts t op) (hs : s.Sound) (hpos : op.data ≠ [])
    (horder : InOrder (s, put)) :
    Accepted op (t, put ++ s.buffers t) ↔ t.reactor.unsent = [] := by
  obtain ⟨-, took, hunsent, hhanded⟩ := h.passes hs
  have hbefore : put.length = s.reactor.handed.length + s.reactor.unsent.length := by
    have hlength := congrArg List.length horder
    rw [List.length_append, List.length_map, List.length_map] at hlength
    exact hlength
  have hflow := congrArg List.length hunsent
  rw [List.length_append, List.length_append] at hflow
  have hstart : (put ++ s.buffers t).length - op.data.length = put.length := by
    rw [h.buffers, List.length_append, List.length_map, Nat.add_sub_cancel]
  have hdata := List.length_pos_iff.mpr hpos
  rw [Accepted, hstart, List.drop_left, h.buffers, hhanded]
  constructor
  · intro heq
    have hlength := congrArg List.length heq
    rw [List.length_drop, List.length_append, List.length_map, List.length_map] at hlength
    exact List.eq_nil_of_length_eq_zero (by omega)
  · intro hnil
    rw [hnil, List.append_nil] at hunsent
    rw [← hunsent, List.map_append, ← List.append_assoc]
    refine List.drop_left' ?_
    rw [List.length_append, List.length_map, hbefore]

theorem ClientSystem.BufferCase.reported (h : s.BufferCase t)
    (houtcome : t.loop.outcome = some (op, true)) :
    s.Puts t op ∨ s.loop.outcome = some (op, true) ∧ s.buffers t = [] ∧
      t.reactor.handed = s.reactor.handed := by
  cases h with
  | puts op' h =>
    have heq := h.outcome.symm.trans houtcome
    cases heq
    exact .inl h
  | refuses hbuffers hvalid hunsent hhanded hnot => exact absurd houtcome (hnot op)
  | flushes hpasses hidle hnone => exact absurd houtcome (by simp [hnone])
  | keeps hsame hnext =>
    rcases hnext with hnone | ⟨hnext, hbuffers⟩
    · exact absurd houtcome (by simp [hnone])
    · exact .inr ⟨hnext.symm.trans houtcome, hbuffers, hsame.handed⟩

/-- In a run of a client reactor, whenever `SendSync` is going to return true, or a callback to be
called with true and the length of the data, the kernel has accepted all bytes of the operation,
if and only if every `send` after such an operation was put into the send buffer took everything
that was in it. -/
theorem reported_sends_accepted_iff {receiver : Receiver}
    {states : List (ClientSystem × List (ℤ × UInt8))}
    (hrun : (bufferingReactors receiver).Run states) :
    (∀ x ∈ states, ReportsTruly x) ↔ ∀ x y, [y, x] <:+: states → ¬x.1.SendsPart y.1 := by
  have hknown : ∀ x ∈ states, x.1.Sound ∧ InOrder x := fun x hx =>
    ⟨bufferingReactors_sound hrun x hx, bufferingReactors_inOrder hrun x hx⟩
  refine hrun.invariant_iff_along ?_ ?_ ?_ hknown
  · rintro ⟨s, put⟩ ⟨⟨fds, rfl⟩, -⟩ op - houtcome
    cases houtcome
  · rintro ⟨s, put⟩ ⟨t, put'⟩ ⟨hs, horder⟩ htrue ⟨hstep, hput⟩ hwhole op hreported houtcome
    obtain rfl : put' = put ++ s.buffers t := hput
    rcases (ClientSystem.Step.buffer hstep hs).reported houtcome with
      hputs | ⟨hsame, hnone, hhanded⟩
    · obtain ⟨processed, env, rest, removes, hloop, hqueue, hdo, hnext⟩ := hputs.sent
      have hsized : op.data.length < 2 ^ 63 := hs.queue op (hqueue ▸ List.mem_cons_self)
      obtain ⟨hpos, hempty⟩ :=
        doSend_unsent (r := s.reactor.dequeue op rest) hs.buffer hsized hdo
      refine (hputs.accepted_iff hs hpos horder).mpr (hempty.mpr fun hpart => hwhole ?_)
      exact ⟨processed, env, op, rest, removes, hreported, hloop, hqueue, hdo, hnext, hpart⟩
    · have hold := htrue op hreported hsame
      rw [Accepted] at hold ⊢
      dsimp only at hhanded hnone ⊢
      rw [hnone, List.append_nil, hhanded]
      exact hold
  · rintro ⟨s, put⟩ ⟨t, put'⟩ ⟨hs, horder⟩ - ⟨hstep, hput⟩ htrue
    obtain rfl : put' = put ++ s.buffers t := hput
    rintro ⟨processed, env, op, rest, removes, hreported, hloop, hqueue, hdo, hnext, hpart⟩
    have hputs : s.Puts t op := ⟨processed, env, rest, removes, hloop, hqueue, hdo, hnext⟩
    have hsized : op.data.length < 2 ^ 63 := hs.queue op (hqueue ▸ List.mem_cons_self)
    obtain ⟨hpos, hempty⟩ := doSend_unsent (r := s.reactor.dequeue op rest) hs.buffer hsized hdo
    have haccepted := htrue op hreported hputs.outcome
    exact hempty.mp ((hputs.accepted_iff hs hpos horder).mp haccepted) hpart

/-! ## A short send -/

def sampleSend : SendOperation := { data := [1, 2, 3], promise := some 0 }

theorem sampleSend_reported : sampleSend.Reported :=
  .inr nofun

def sampleQueued : ClientReactor :=
  sampleConnected.push sampleSend

theorem sample_buffering : ∃ past, (bufferingReactors .workerPool).Run
    ((sampleAt sampleConnected .connecting .top, []) :: past) := by
  obtain ⟨past, hrun, -⟩ := sample_connected
  obtain ⟨past', hpast, -⟩ := Wiring.run_fst hrun _ List.mem_cons_self
  obtain ⟨recorded, hrecorded, hmap⟩ : ∃ recorded, (bufferingReactors .workerPool).Run recorded ∧
      recorded.map Prod.fst = sampleAt sampleConnected .connecting .top :: past' := hpast.record
  obtain ⟨⟨s, put⟩, rest, rfl, hs, -⟩ := List.map_eq_cons_iff.mp hmap
  obtain rfl : s = sampleAt sampleConnected .connecting .top := hs
  have horder := bufferingReactors_inOrder hrecorded _ List.mem_cons_self
  have hempty : sampleConnected.unsent = [] := SendBuffer.fresh_readable
  have hnothing : put = [] :=
    List.map_eq_nil_iff.mp (horder.trans (congrArg ([] ++ ·) hempty))
  rw [hnothing] at hrecorded
  exact ⟨rest, hrecorded⟩

theorem buffering_next {receiver : Receiver} {past : List (ClientSystem × List (ℤ × UInt8))}
    (hrun : (bufferingReactors receiver).Run ((s, put) :: past)) (hstep : ClientSystem.Step s t) :
    (bufferingReactors receiver).Run ((t, put ++ s.buffers t) :: (s, put) :: past) :=
  hrun.next ⟨hstep, rfl⟩

/-- Two of the bytes are sent, and success is reported. -/
theorem short_send_run : ∃ x y past, (bufferingReactors .workerPool).Run (y :: x :: past) ∧
    x.1.loop.outcome = some (sampleSend, true) ∧ x.1.reactor.handed = [(5, 1), (5, 2)] ∧
    x.2 = [(5, 1), (5, 2), (5, 3)] ∧ .answered 0 true ∈ y.1.reactor.log := by
  have hdone : ((sampleQueued.dequeue sampleSend []).doSend sampleEnvironment
      sampleSend.data).map (fun result => (result.1, result.2.1, result.2.2.log)) =
      some (true, false, [.kevent 5 .addWrite true, .sent 5 [1, 2], .took sampleSend,
        .kevent 5 .addRead true]) := by decide +kernel
  obtain ⟨⟨success, removes, r⟩, hdo, heq⟩ := Option.map_eq_some_iff.mp hdone
  rw [Prod.mk.injEq, Prod.mk.injEq] at heq
  obtain ⟨hsuccess, hremoves, hlog⟩ := heq
  dsimp only at hsuccess hremoves hlog
  rw [hsuccess, hremoves] at hdo
  obtain ⟨past, hrun⟩ := sample_buffering
  have hrequest := buffering_next hrun (.request (.sync [1, 2, 3]) (by decide) rfl)
  have henqueue := buffering_next hrequest (.enqueue (List.nil_append _).symm nofun)
  have henter := buffering_next henqueue (.loop (.enter rfl))
  have hprocess := buffering_next henter
    (.loop (.process sampleEnvironment (by decide) rfl hdo))
  have hcomplete := buffering_next hprocess (.loop .complete)
  refine ⟨_, _, _, hcomplete, rfl, ?_, rfl, List.mem_cons_self⟩
  rw [handed, hlog]
  rfl

/-- The success of a synchronous send is reported although the kernel has not accepted all of its
bytes. -/
theorem short_send_reported : ∃ x y past, (bufferingReactors .workerPool).Run (y :: x :: past) ∧
    x.1.loop.outcome = some (sampleSend, true) ∧ .answered 0 true ∈ y.1.reactor.log ∧
    ¬ReportsTruly x := by
  obtain ⟨x, y, past, hrun, houtcome, hhanded, hput, hanswered⟩ := short_send_run
  refine ⟨x, y, past, hrun, houtcome, hanswered, fun htrue => ?_⟩
  have haccepted := htrue sampleSend sampleSend_reported houtcome
  rw [Accepted, hhanded, hput] at haccepted
  exact absurd haccepted (by decide)

/-- The `send` after that operation was put into the send buffer took a part. -/
theorem reported_sends_short_send : ∃ states x y, (bufferingReactors .workerPool).Run states ∧
    [y, x] <:+: states ∧ x.1.SendsPart y.1 := by
  obtain ⟨x, y, past, hrun, houtcome, hhanded, hput, -⟩ := short_send_run
  by_contra hwhole
  have hall := (reported_sends_accepted_iff hrun).mpr fun x' y' hxy hpart =>
    hwhole ⟨_, x', y', hrun, hxy, hpart⟩
  have haccepted := hall x (by simp) sampleSend sampleSend_reported houtcome
  rw [Accepted, hhanded, hput] at haccepted
  exact absurd haccepted (by decide)

end DarwinCore.Network
