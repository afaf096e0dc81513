import DarwinCore.Verification.Network.Frame

/-! # The count of bytes sent

`total_bytes_sent_` misses what a direct send hands to the kernel when some of the data are
left over. -/

namespace DarwinCore.Network

open Relation

/-- How many bytes one `send` handed to the kernel. -/
def Effect.sentBytes : Effect → ℕ
  | .sent _ data => data.length
  | _ => 0

namespace Reactor

/-- How many bytes the kernel has accepted from the connections. -/
def bytesAccepted (r : Reactor) : ℕ :=
  (r.log.map Effect.sentBytes).sum

def bytesMissing (r : Reactor) : ℤ :=
  r.bytesAccepted - r.stats.totalBytesSent

variable {may : Lapse → Prop} {r r' : Reactor} {id : UInt64} {fd : ℤ} {conn : ReactorConnection}

theorem bytesMissing_of_eq (hlog : r'.log = r.log)
    (hbytes : r'.stats.totalBytesSent = r.stats.totalBytesSent) :
    r'.bytesMissing = r.bytesMissing := by
  rw [bytesMissing, bytesMissing, bytesAccepted, bytesAccepted, hlog, hbytes]

theorem bytesMissing_cons {e : Effect} (he : e.sentBytes = 0) (hlog : r'.log = e :: r.log)
    (hbytes : r'.stats.totalBytesSent = r.stats.totalBytesSent) :
    r'.bytesMissing = r.bytesMissing := by
  rw [bytesMissing, bytesMissing, bytesAccepted, bytesAccepted, hlog, hbytes, List.map_cons, he,
    List.sum_cons, Nat.zero_add]

theorem bytesMissing_sent (fd : ℤ) (data : List UInt8) (r : Reactor) :
    (r.emit (.sent fd data)).bytesMissing = r.bytesMissing + data.length := by
  change (((data.length + r.bytesAccepted : ℕ) : ℤ) - r.stats.totalBytesSent) =
    (r.bytesAccepted - r.stats.totalBytesSent) + data.length
  rw [Nat.cast_add]
  ring

theorem bytesMissing_counted (fd : ℤ) (data : List UInt8) (r : Reactor) :
    ((r.emit (.sent fd data)).count fun s =>
      { s with totalBytesSent := s.totalBytesSent + data.length }).bytesMissing =
      r.bytesMissing := by
  change (((data.length + r.bytesAccepted : ℕ) : ℤ) -
    ((r.stats.totalBytesSent + data.length : ℕ) : ℤ)) = r.bytesAccepted - r.stats.totalBytesSent
  rw [Nat.cast_add, Nat.cast_add]
  ring

theorem bytesMissing_monitor (env : Environment) (fd : ℤ) (change : Change) (r : Reactor) :
    (r.monitor env fd change).2.bytesMissing = r.bytesMissing := by
  unfold monitor
  exact bytesMissing_cons rfl rfl rfl

theorem bytesMissing_dispatchEvent (env : Environment) (event : NetworkEvent) (r : Reactor) :
    (r.dispatchEvent env event).bytesMissing = r.bytesMissing := by
  rcases dispatchEvent_cases env event r with ⟨-, h⟩ | h | h <;> rw [h]
  · exact bytesMissing_cons rfl rfl rfl
  · exact bytesMissing_cons rfl rfl rfl

theorem bytesMissing_doRemoveConnection (id : UInt64) (r : Reactor) :
    (r.doRemoveConnection id).2.bytesMissing = r.bytesMissing := by
  unfold doRemoveConnection
  split
  · rfl
  · exact bytesMissing_cons rfl rfl rfl

/-- No bytes come to be counted twice, and none are missed without a lapse. -/
theorem ConnMove.bytesMissing (h : ConnMove may id fd r r') :
    r.bytesMissing ≤ r'.bytesMissing ∧ (¬may .uncounted → r'.bytesMissing = r.bytesMissing) := by
  have hsame (heq : r'.bytesMissing = r.bytesMissing) : r.bytesMissing ≤ r'.bytesMissing ∧
      (¬may .uncounted → r'.bytesMissing = r.bytesMissing) :=
    ⟨heq.ge, fun _ => heq⟩
  cases h with
  | @settled r₁ conn conn' howns hkey hfd hvalid hmonitored =>
    refine hsame ?_
    exact hmonitored.keeps (fun r' env change h =>
      (bytesMissing_monitor env fd change r').trans h) rfl
  | tried => exact hsame (bytesMissing_cons rfl rfl rfl)
  | counted data => exact hsame (bytesMissing_counted fd data r)
  | uncounted data howns hmay =>
    have hsent := bytesMissing_sent fd data r
    refine ⟨by omega, fun hnone => absurd hmay hnone⟩
  | received env time data =>
    refine hsame ((bytesMissing_dispatchEvent env _ _).trans ?_)
    exact bytesMissing_cons rfl rfl rfl
  | close env =>
    exact hsame ((bytesMissing_doRemoveConnection _ _).trans (bytesMissing_dispatchEvent env _ r))
  | error env code =>
    exact hsame ((bytesMissing_doRemoveConnection _ _).trans
      ((bytesMissing_dispatchEvent env _ _).trans (bytesMissing_dispatchEvent env _ r)))

theorem bytesMissing_nextSeq (r : Reactor) : r.nextSeq.2.bytesMissing = r.bytesMissing := by
  unfold nextSeq
  split <;> rfl

theorem AddCase.bytesMissing {env : Environment} {peer : SockAddr} {result : UInt64 × Reactor}
    (h : AddCase env fd peer r result) : result.2.bytesMissing = r.bytesMissing := by
  have hmonitored : (r.nextSeq.2.monitor env fd .addRead).2.bytesMissing = r.bytesMissing :=
    (bytesMissing_monitor env fd .addRead _).trans r.bytesMissing_nextSeq
  have hclosed (r : Reactor) : (r.closeFd fd).bytesMissing = r.bytesMissing :=
    bytesMissing_cons rfl rfl rfl
  cases h with
  | ignored => rfl
  | collided => exact (hclosed _).trans r.bytesMissing_nextSeq
  | unmonitored => exact (hclosed _).trans hmonitored
  | added =>
    refine (bytesMissing_dispatchEvent env _ _).trans (Eq.trans ?_ hmonitored)
    exact bytesMissing_cons rfl rfl rfl

theorem bytesMissing_closeAllOnly (ids : List UInt64) (r : Reactor) :
    (ids.foldl closeOnly r).bytesMissing = r.bytesMissing := by
  induction ids generalizing r with
  | nil => rfl
  | cons id ids ih =>
    refine (ih (closeOnly r id)).trans ?_
    unfold closeOnly
    split
    · rfl
    · exact bytesMissing_cons rfl rfl rfl

theorem Move.bytesMissing (h : Move may r r') :
    r.bytesMissing ≤ r'.bytesMissing ∧ (¬may .uncounted → r'.bytesMissing = r.bytesMissing) := by
  have hsame (heq : r'.bytesMissing = r.bytesMissing) : r.bytesMissing ≤ r'.bytesMissing ∧
      (¬may .uncounted → r'.bytesMissing = r.bytesMissing) :=
    ⟨heq.ge, fun _ => heq⟩
  cases h with
  | idle hidle => exact hsame (bytesMissing_of_eq hidle.log hidle.bytesSent)
  | took => exact hsame (bytesMissing_cons rfl rfl rfl)
  | answered => exact hsame (bytesMissing_cons rfl rfl rfl)
  | opened => exact hsame (bytesMissing_cons rfl rfl rfl)
  | closed => exact hsame (bytesMissing_cons rfl rfl rfl)
  | adding env fd peer hpos hopen hfree hcase =>
    refine hsame (hcase.bytesMissing.trans ?_)
    exact bytesMissing_cons rfl rfl rfl
  | removed => exact hsame (bytesMissing_doRemoveConnection _ r)
  | connection hconn => exact hconn.bytesMissing
  | cleaned env =>
    refine hsame ?_
    exact bytesMissing_closeAllOnly env.order { r with kernel := r.kernel.closeQueue }

theorem Moves.bytesMissing (h : Moves may r r') :
    r.bytesMissing ≤ r'.bytesMissing ∧ (¬may .uncounted → r'.bytesMissing = r.bytesMissing) := by
  induction h with
  | refl => exact ⟨le_refl _, fun _ => rfl⟩
  | tail _ hmove ih =>
    obtain ⟨hle, hsame⟩ := hmove.bytesMissing
    exact ⟨ih.1.trans hle, fun hnone => (hsame hnone).trans (ih.2 hnone)⟩

end Reactor

/-! ## Runs -/

def System.CountsBytes (s : System) : Prop :=
  s.reactor.stats.totalBytesSent = s.reactor.bytesAccepted

theorem System.countsBytes_iff {s : System} : s.CountsBytes ↔ s.reactor.bytesMissing = 0 := by
  rw [CountsBytes, Reactor.bytesMissing]
  omega

/-- What a short direct send hands over is never counted. -/
theorem System.SendsShort.bytesMissing {s t : System} (hshort : s.SendsShort t) (h : s.AtRest) :
    s.reactor.bytesMissing < t.reactor.bytesMissing := by
  obtain ⟨env, id, data, conn, hprocesses, hc, hempty, hpos, hless⟩ := hshort
  obtain ⟨which, processed, rest, -, -, hqueue, hprocess⟩ := hprocesses
  have htables := h.tables.dequeue hqueue
  obtain ⟨⟨success, r₁⟩, hsend, hresult⟩ := Option.map_eq_some_iff.mp hprocess
  have hsized : (Operation.send id data).Sized := htables.sized _ List.mem_cons_self
  have hc' : (s.reactor.dequeue (.send id data) rest).connections.lookup id = some conn := hc
  have hdequeued : (s.reactor.dequeue (.send id data) rest).bytesMissing =
      s.reactor.bytesMissing := Reactor.bytesMissing_cons rfl rfl rfl
  have hcounted : t.reactor.bytesMissing = r₁.bytesMissing := by
    rw [← hresult]
    dsimp only
    split
    · exact Reactor.bytesMissing_of_eq rfl rfl
    · rfl
  have hcase := htables.doSendData_cases env hsized hsend
  rw [hcounted, ← hdequeued]
  cases hcase with
  | absent hnone => cases hnone.symm.trans hc'
  | queued howns hbusy =>
    obtain rfl := Option.some.inj (howns.lookup.symm.trans hc')
    cases hbusy.symm.trans hempty
  | failed code howns hidle htaken => exact absurd htaken (Nat.ne_of_gt hpos)
  | @short fd conn' result taken htaken howns hidle hshort hwrite =>
    have howns' : ((s.reactor.dequeue (.send id data) rest).emit
        (.sent fd (data.take taken))).Owns id fd conn' := howns.congr rfl rfl
    have hrest : Reactor.ConnMoves (fun _ => False) id fd _ r₁ := hwrite.connMoves howns'
    have hsame := (Reactor.ConnMoves.moves hrest).bytesMissing.2 not_false
    have hlength : (data.take taken).length = taken := List.length_take_of_le (Nat.le_of_lt hshort)
    rw [hsame, Reactor.bytesMissing_sent, hlength]
    have hsome : 0 < taken := htaken ▸ hpos
    omega
  | complete howns hidle htaken => exact absurd htaken (Nat.ne_of_lt hless)

/-- The count of bytes sent is exact in every state of a run if and only if no direct send in
it is short. -/
theorem reactors_countsBytes_iff {reactorId : ℤ} {receiver : Receiver} {states : List System}
    (hrun : (reactors reactorId receiver).Run states) :
    (∀ s ∈ states, s.CountsBytes) ↔ ∀ s t, [t, s] <:+: states → ¬s.SendsShort t := by
  refine hrun.invariant_iff_along ?_ (fun s t hrest hs hstep hgood => ?_)
    (fun s t hrest hs hstep ht hshort => ?_) (reactors_atRest hrun)
  · rintro s ⟨timeout, rfl⟩
    rfl
  · have hmoves : Reactor.Moves (· ≠ .uncounted) s.reactor t.reactor :=
      System.Step.moves hstep hrest (fun _ => by simp) (fun _ => by simp)
        (fun hshort => absurd hshort hgood) fun _ => by simp
    rw [System.countsBytes_iff] at hs ⊢
    rw [hmoves.bytesMissing.2 (by simp), hs]
  · have hless := hshort.bytesMissing hrest
    rw [System.countsBytes_iff] at hs ht
    omega

theorem sampleSent_bytes :
    sampleSent.map (fun r => (r.stats.totalBytesSent, r.bytesAccepted)) = some (0, 2) := by
  decide +kernel

/-- Two of three bytes are accepted by a direct send, and none is counted. -/
theorem countsBytes_partial_send : ∃ s past, (reactors 0 .workerPool).Run (s :: past) ∧
    s.reactor.stats.totalBytesSent = 0 ∧ s.reactor.bytesAccepted = 2 := by
  obtain ⟨s, past, hrun, hsent, -⟩ := sample_run
  have hbytes := sampleSent_bytes
  rw [hsent, Option.map_some, Option.some.injEq] at hbytes
  exact ⟨s, past, hrun, congrArg Prod.fst hbytes, congrArg Prod.snd hbytes⟩

/-- A run in which a direct send is short. -/
theorem reactors_countsBytes_short_send : ∃ states s t,
    (reactors 0 .workerPool).Run states ∧ [t, s] <:+: states ∧ s.SendsShort t := by
  obtain ⟨s, past, hrun, hsent, -⟩ := sample_run
  have hbytes := sampleSent_bytes
  rw [hsent, Option.map_some, Option.some.injEq, Prod.mk.injEq] at hbytes
  by_contra hnone
  have hexact := (reactors_countsBytes_iff hrun).mpr fun s' t' hst hshort =>
    hnone ⟨s :: past, s', t', hrun, hst, hshort⟩
  have hcounted : s.reactor.stats.totalBytesSent = s.reactor.bytesAccepted :=
    hexact s List.mem_cons_self
  omega

end DarwinCore.Network
