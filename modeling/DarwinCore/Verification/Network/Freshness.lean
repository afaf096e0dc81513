import DarwinCore.Verification.Network.Control
import DarwinCore.Verification.Network.Numbering

/-! # Connection ids are fresh

Within 65534 additions no id comes again, so that an operation that was queued for a
connection never reaches another one that was added meanwhile. -/

namespace DarwinCore.Network

open ConnectionIdGenerator Maps

namespace Effect

def isAdded : Effect → Bool
  | .added _ _ => true
  | _ => false

/-- An operation that adds a connection was taken from the queue. -/
def takesAdd : Effect → Bool
  | .took (.add _ _) => true
  | _ => false

end Effect

def additions (log : List Effect) : ℕ :=
  log.countP Effect.takesAdd

def sequenceOf (id : UInt64) : UInt16 :=
  (parse id).2.2.2

/-- Ids that were given to connections within 65534 additions are different; and since each
of them, the cycle has not moved on by more than the additions begun and `ahead`. -/
structure Numbered (ahead : ℕ) (seq : UInt16) (log : List Effect) : Prop where
  fresh : ∀ newer id' fd' between id fd older,
    log = newer ++ .added id' fd' :: (between ++ .added id fd :: older) →
      additions between < sequenceCount → id' ≠ id
  passed : ∀ newer id fd older, log = newer ++ .added id fd :: older →
    ∃ k, 1 ≤ k ∧ k ≤ additions newer + ahead ∧
      rank seq = (rank (sequenceOf id) + k) % sequenceCount

section Numbered

variable {ahead : ℕ} {seq : UInt16} {log extra : List Effect}

theorem Numbered.append (h : Numbered ahead seq log) (hextra : ∀ e ∈ extra, ¬e.isAdded = true) :
    Numbered ahead seq (extra ++ log) where
  fresh newer id' fd' between id fd older heq := by
    have hmarked : (Effect.added id' fd').isAdded = true := rfl
    obtain ⟨newer', -, hlog⟩ := Lists.append_eq_append_marked hextra hmarked heq
    exact h.fresh newer' id' fd' between id fd older hlog
  passed newer id fd older heq := by
    have hmarked : (Effect.added id fd).isAdded = true := rfl
    obtain ⟨newer', rfl, hlog⟩ := Lists.append_eq_append_marked hextra hmarked heq
    obtain ⟨k, hpos, hle, hrank⟩ := h.passed newer' id fd older hlog
    refine ⟨k, hpos, hle.trans ?_, hrank⟩
    rw [additions, additions, List.countP_append]
    omega

theorem Numbered.cons {e : Effect} (h : Numbered ahead seq log) (he : e.isAdded = false) :
    Numbered ahead seq (e :: log) := by
  have hone : ∀ e' ∈ [e], ¬e'.isAdded = true := by simp [he]
  exact h.append hone

theorem Numbered.took (h : Numbered 1 seq log) (fd : ℤ) (peer : SockAddr) :
    Numbered 0 seq (.took (.add fd peer) :: log) where
  fresh newer id' fd' between id fd older heq := by
    cases newer with
    | nil => cases heq
    | cons e newer =>
      obtain ⟨-, hlog⟩ := List.cons_eq_cons.mp heq
      exact h.fresh newer id' fd' between id fd older hlog
  passed newer id fd older heq := by
    cases newer with
    | nil => cases heq
    | cons e newer =>
      obtain ⟨rfl, hlog⟩ := List.cons_eq_cons.mp heq
      obtain ⟨k, hpos, hle, hrank⟩ := h.passed newer id fd older hlog
      refine ⟨k, hpos, hle.trans ?_, hrank⟩
      rw [additions, additions, List.countP_cons_of_pos rfl]

theorem Numbered.weaken (h : Numbered 0 seq log) : Numbered 1 seq log :=
  ⟨h.fresh, fun newer id fd older heq => by
    obtain ⟨k, hpos, hle, hrank⟩ := h.passed newer id fd older heq
    exact ⟨k, hpos, by omega, hrank⟩⟩

variable {seq' : UInt16}

theorem Numbered.draw (h : Numbered 0 seq log)
    (hnext : rank seq' = (rank seq + 1) % sequenceCount) : Numbered 1 seq' log where
  fresh := h.fresh
  passed newer id fd older heq := by
    obtain ⟨k, hpos, hle, hrank⟩ := h.passed newer id fd older heq
    refine ⟨k + 1, by omega, by omega, ?_⟩
    rw [hnext, hrank, Nat.mod_add_mod, Nat.add_assoc]

/-- The sequence number is taken, and goes to a new connection. -/
theorem Numbered.add (h : Numbered 0 seq log)
    (hnext : rank seq' = (rank seq + 1) % sequenceCount) {id : UInt64} {fd : ℤ}
    (hid : rank (sequenceOf id) = rank seq) : Numbered 1 seq' (.added id fd :: log) where
  fresh newer id' fd' between id₀ fd₀ older heq hbetween := by
    cases newer with
    | nil =>
      obtain ⟨heq, hlog⟩ := List.cons_eq_cons.mp heq
      obtain ⟨rfl, rfl⟩ := Effect.added.inj heq
      obtain ⟨k, hpos, hle, hrank⟩ := h.passed between id₀ fd₀ older hlog
      rintro rfl
      have hlt := rank_lt (sequenceOf id)
      rw [← hid] at hrank
      unfold sequenceCount at hlt hrank hbetween
      omega
    | cons e newer =>
      obtain ⟨-, hlog⟩ := List.cons_eq_cons.mp heq
      exact h.fresh newer id' fd' between id₀ fd₀ older hlog hbetween
  passed newer id₀ fd₀ older heq := by
    cases newer with
    | nil =>
      obtain ⟨heq, -⟩ := List.cons_eq_cons.mp heq
      obtain ⟨rfl, rfl⟩ := Effect.added.inj heq
      refine ⟨1, Nat.le_refl 1, by simp, ?_⟩
      rw [hnext, hid]
    | cons e newer =>
      obtain ⟨rfl, hlog⟩ := List.cons_eq_cons.mp heq
      obtain ⟨k, hpos, hle, hrank⟩ := h.passed newer id₀ fd₀ older hlog
      refine ⟨k + 1, by omega, ?_, ?_⟩
      · rw [additions, List.countP_cons_of_neg (by simp [Effect.takesAdd])]
        rw [additions] at hle
        omega
      · rw [hnext, hrank, Nat.mod_add_mod, Nat.add_assoc]

end Numbered

namespace Reactor

variable {may : Lapse → Prop} {r r' : Reactor} {id : UInt64} {fd : ℤ} {conn : ReactorConnection}

/-! ## Moves -/

theorem Numbered.grows {P : Effect → Prop} {ahead : ℕ} (h : Numbered ahead r.connectionSeq r.log)
    (hP : ∀ e, P e → ¬e.isAdded = true) (hgrows : Grows P r r')
    (hseq : r'.connectionSeq = r.connectionSeq) : Numbered ahead r'.connectionSeq r'.log := by
  obtain ⟨extra, hlog, hall⟩ := hgrows
  rw [hseq, hlog]
  exact h.append fun e he => hP e (hall e he)

theorem concerns_not_added {e : Effect} (h : Concerns id fd e) : ¬e.isAdded = true := by
  cases e with
  | added id fd => exact h.elim
  | _ => simp [Effect.isAdded]

theorem AddCase.numbered {env : Environment} {peer : SockAddr} {result : UInt64 × Reactor}
    (hcase : AddCase env fd peer r result) (h : Numbered 0 r.connectionSeq r.log) :
    Numbered 1 result.2.connectionSeq result.2.log := by
  have hnext := r.nextSeq_rank.2
  have hdrawn : Numbered 1 r.nextSeq.2.connectionSeq r.nextSeq.2.log := by
    rw [r.nextSeq_log]
    exact h.draw hnext
  have hseq := monitor_sameSeq env fd .addRead r.nextSeq.2
  have hkevent : Grows (Concerns 0 fd) r.nextSeq.2 (r.nextSeq.2.monitor env fd .addRead).2 :=
    .cons rfl rfl
  have hmonitored := Numbered.grows hdrawn (fun _ => concerns_not_added) hkevent hseq.1
  cases hcase with
  | ignored => exact h.weaken
  | collided => exact hdrawn.cons rfl
  | unmonitored => exact hmonitored.cons rfl
  | @added id hrunning hid hfresh hsuccess =>
    have hsequence : rank (sequenceOf id) = rank r.connectionSeq := by
      rw [hid, sequenceOf, parse_generate, rank_nextSeq]
    have hkevent : Numbered 0 r.connectionSeq (r.nextSeq.2.monitor env fd .addRead).2.log := by
      change Numbered 0 r.connectionSeq (.kevent fd .addRead _ :: r.nextSeq.2.log)
      rw [r.nextSeq_log]
      exact h.cons rfl
    have hadded : Numbered 1 r.nextSeq.2.connectionSeq
        (.added id fd :: (r.nextSeq.2.monitor env fd .addRead).2.log) :=
      hkevent.add hnext hsequence
    rw [← hseq.1] at hadded
    refine Numbered.grows ?_ (fun e he => ?_) (dispatchEvent_grows env (.connected id peer) _)
      (dispatchEvent_sameSeq env _ _).1
    · exact hadded
    · rcases he with rfl | rfl <;> exact Bool.false_ne_true

theorem Move.numbered (hmove : Move may r r') (h : Numbered 1 r.connectionSeq r.log) :
    Numbered 1 r'.connectionSeq r'.log := by
  cases hmove with
  | idle hidle =>
    rw [hidle.log, hidle.seq]
    exact h
  | took => exact h.cons rfl
  | answered => exact h.cons rfl
  | opened => exact h.cons rfl
  | closed => exact h.cons rfl
  | adding env fd peer hpos hopen hfree hcase => exact hcase.numbered (h.took fd peer)
  | removed howns =>
    exact Numbered.grows h (fun _ => concerns_not_added) howns.remove_grows
      (doRemoveConnection_sameSeq _ r).1
  | connection hconn =>
    exact Numbered.grows h (fun _ => concerns_not_added) hconn.grows hconn.sameSeq.1
  | cleaned env =>
    have hgrows := closeAllOnly_grows env.order { r with kernel := r.kernel.closeQueue }
    have hseq := closeAllOnly_sameSeq env.order { r with kernel := r.kernel.closeQueue }
    obtain ⟨extra, hlog, hclosed⟩ := hgrows
    change Numbered 1 (env.order.foldl closeOnly _).connectionSeq
      (env.order.foldl closeOnly _).log
    rw [hseq.1, hlog]
    refine h.append fun e he => ?_
    obtain ⟨i, c, -, rfl⟩ := hclosed e he
    simp [Effect.isAdded]

/-! ## The last addition -/

/-- The connection that is stored under an id is the last one that was added under it, and
its descriptor has not been closed since. -/
def Current (r : Reactor) : Prop :=
  ∀ i c, r.connections.lookup i = some c → ∃ newer older,
    r.log = newer ++ .added i c.fileDescriptor :: older ∧
      ∀ e ∈ newer, e.adds i = false ∧ e ≠ .closed c.fileDescriptor

/-- The connections that are left were there before, and nothing has been recorded against
them. -/
theorem Current.change {P : Effect → Prop} (h : r.Current) (hgrows : Grows P r r')
    (hkept : ∀ i c', r'.connections.lookup i = some c' → ∃ c, r.connections.lookup i = some c ∧
      c'.fileDescriptor = c.fileDescriptor ∧
        ∀ e, P e → e.adds i = false ∧ e ≠ .closed c.fileDescriptor) : r'.Current := by
  intro i c' hc'
  obtain ⟨extra, hlog, hextra⟩ := hgrows
  obtain ⟨c, hc, hfd, hall⟩ := hkept i c' hc'
  obtain ⟨newer, older, heq, hnewer⟩ := h i c hc
  refine ⟨extra ++ newer, older, by rw [hlog, heq, hfd, List.append_assoc], fun e he => ?_⟩
  rw [hfd]
  rcases List.mem_append.mp he with he | he
  · exact hall e (hextra e he)
  · exact hnewer e he

theorem Current.cons (h : r.Current) {e : Effect} (hlog : r'.log = e :: r.log)
    (hconnections : r'.connections = r.connections)
    (he : ∀ i c, r.connections.lookup i = some c → e.adds i = false ∧
      e ≠ .closed c.fileDescriptor) :
    r'.Current := by
  refine h.change (P := fun e' => e' = e) (.cons hlog rfl) fun i c' hc' => ?_
  rw [hconnections] at hc'
  exact ⟨c', hc', rfl, fun _ heq => heq ▸ he i c' hc'⟩

theorem concerns_adds {e : Effect} (h : Concerns id fd e) (i : UInt64) : e.adds i = false := by
  cases e with
  | added id fd => exact h.elim
  | _ => rfl

theorem ConnMove.current (hmove : ConnMove may id fd r r') (hseparate : r.Separate)
    (h : r.Current) : r'.Current := by
  have haway := hmove.away
  have hafter := hmove.separate hseparate
  have hleft (i : UInt64) (c : ReactorConnection) (hc : r'.connections.lookup i = some c)
      (hoff : c.fileDescriptor ≠ fd) (e : Effect) (he : Concerns id fd e) :
      e.adds i = false ∧ e ≠ .closed c.fileDescriptor := by
    refine ⟨concerns_adds he i, ?_⟩
    rintro rfl
    exact hoff he
  rcases hmove.leaves_or_stays hseparate with hnone | ⟨conn, conn', howns, howns', hgrows⟩
  · refine h.change hmove.grows fun i c' hc' => ?_
    have hoff := hnone i c' hc'
    exact ⟨c', (haway.connections i c' hoff).mp hc', rfl, hleft i c' hc' hoff⟩
  · refine h.change hgrows fun i c' hc' => ?_
    by_cases hoff : c'.fileDescriptor = fd
    · obtain rfl := howns'.only hafter hc' hoff
      refine ⟨conn, howns.lookup, hoff.trans howns.descriptor.symm, fun e he => ?_⟩
      rw [howns.descriptor]
      exact ⟨concerns_adds he.1 i, he.2⟩
    · exact ⟨c', (haway.connections i c' hoff).mp hc', rfl,
        fun e he => hleft i c' hc' hoff e he.1⟩

theorem Current.of_eq (h : r.Current) (hlog : r'.log = r.log)
    (hconnections : r'.connections = r.connections) : r'.Current := by
  unfold Current
  rw [hlog, hconnections]
  exact h

theorem Current.closeFd (h : r.Current) (hfree : r.Unowned fd) : (r.closeFd fd).Current := by
  refine h.cons rfl rfl fun i c hc => ⟨rfl, fun heq => hfree i c hc ?_⟩
  exact (Effect.closed.inj heq).symm

theorem Current.monitor (h : r.Current) (env : Environment) (fd : ℤ) (change : Change) :
    (r.monitor env fd change).2.Current :=
  h.cons rfl (quiet_monitor env fd change r).connections fun _ _ _ => ⟨rfl, by simp⟩

theorem Current.dispatchEvent (h : r.Current) (env : Environment) (event : NetworkEvent) :
    (r.dispatchEvent env event).Current := by
  refine h.change (dispatchEvent_grows env event r) fun i c hc => ?_
  rw [(quiet_dispatchEvent env event r).connections] at hc
  refine ⟨c, hc, rfl, fun e he => ?_⟩
  rcases he with rfl | rfl <;> exact ⟨rfl, by simp⟩

theorem Current.register (h : r.Current) (env : Environment) (peer : SockAddr) :
    (r.register env id fd peer).Current := by
  unfold Reactor.register
  refine Current.dispatchEvent ?_ env _
  intro i c hc
  rcases lookup_insert_eq_some.mp hc with ⟨rfl, rfl⟩ | ⟨hne, hc⟩
  · exact ⟨[], r.log, rfl, by simp⟩
  · obtain ⟨newer, older, heq, hnewer⟩ := h i c hc
    refine ⟨.added id fd :: newer, older, congrArg _ heq, List.forall_mem_cons.mpr ⟨?_, hnewer⟩⟩
    exact ⟨decide_eq_false (Ne.symm hne), by simp⟩

theorem AddCase.current {env : Environment} {peer : SockAddr} {result : UInt64 × Reactor}
    (hcase : AddCase env fd peer r result) (hfree : r.Unowned fd) (h : r.Current) :
    result.2.Current := by
  have hdrawn : r.nextSeq.2.Current := h.of_eq r.nextSeq_log r.quiet_nextSeq.connections
  have hfreed : r.nextSeq.2.Unowned fd := by
    rw [Unowned, r.quiet_nextSeq.connections]
    exact hfree
  have hmonitored := hdrawn.monitor env fd .addRead
  cases hcase with
  | ignored => exact h
  | collided => exact hdrawn.closeFd hfreed
  | unmonitored =>
    refine hmonitored.closeFd ?_
    rw [Unowned, (quiet_monitor env fd .addRead _).connections]
    exact hfreed
  | added => exact hmonitored.register env peer

theorem Move.current (hmove : Move may r r') (hseparate : r.Separate) (h : r.Current) :
    r'.Current := by
  cases hmove with
  | idle hidle =>
    refine h.change (P := fun _ => False) (.of_eq hidle.log) fun i c' hc' => ?_
    rw [hidle.connections] at hc'
    exact ⟨c', hc', rfl, fun _ he => he.elim⟩
  | took => exact h.cons rfl rfl fun _ _ _ => ⟨rfl, by simp⟩
  | answered => exact h.cons rfl rfl fun _ _ _ => ⟨rfl, by simp⟩
  | opened => exact h.cons rfl rfl fun _ _ _ => ⟨rfl, by simp⟩
  | closed fd hopen hfree => exact h.closeFd hfree
  | adding env fd peer hpos hopen hfree hcase =>
    refine hcase.current hfree (h.cons rfl rfl fun _ _ _ => ⟨rfl, by simp⟩)
  | @removed id fd conn howns =>
    refine h.change howns.remove_grows fun i c' hc' => ?_
    have hoff := howns.remove_only hseparate hc'
    refine ⟨c', (howns.remove_away.connections i c' hoff).mp hc', rfl, fun e he =>
      ⟨concerns_adds he i, ?_⟩⟩
    rintro rfl
    exact hoff he
  | connection hconn => exact hconn.current hseparate h
  | cleaned => exact fun _ _ hc => by cases hc

/-! ## Operations on a connection -/

/-- An operation on `id` touches the connection stored under `id` only, and without one it
does nothing. -/
theorem AtRest.processOperation_away {held : List Operation} (env : Environment) {op : Operation}
    {rest : List Operation} (h : r.AtRest held) (hop : op = .remove id ∨ ∃ data, op = .send id data)
    (hqueue : r.pendingOperations = op :: rest)
    (hprocess : (r.dequeue op rest).processOperation env op = some r') :
    (∀ conn, r.connections.lookup id = some conn → Away conn.fileDescriptor r r') ∧
      (r.connections.lookup id = none → r'.connections = r.connections ∧
        r'.fdToConnectionId = r.fdToConnectionId ∧ r'.kernel = r.kernel ∧
          r'.log = .took op :: r.log) := by
  have htables := h.tables.dequeue hqueue
  have hdequeued (fd : ℤ) : Away fd r (r.dequeue op rest) := .of_eq rfl rfl rfl rfl rfl
  have hcount {fd : ℤ} {r r' : Reactor} {p : Prop} [Decidable p] {f : ReactorStats → ReactorStats}
      (h : Away fd r r') : Away fd r (if p then r'.count f else r') := by
    split
    · exact h.trans (.of_eq rfl rfl rfl rfl rfl)
    · exact h
  rcases hop with rfl | ⟨data, rfl⟩
  · refine ⟨fun conn hc => ?_, fun hnone => ?_⟩
    · obtain rfl := Option.some.inj hprocess
      exact hcount ((hdequeued _).trans (htables.owns hc).remove_away)
    · have hnone' : (r.dequeue (.remove id) rest).connections.lookup id = none := hnone
      have hremoved : (r.dequeue (.remove id) rest).doRemoveConnection id =
          (false, r.dequeue (.remove id) rest) := by
        rw [Reactor.doRemoveConnection, hnone']
      simp only [Reactor.processOperation, hremoved] at hprocess
      obtain rfl := Option.some.inj hprocess
      exact ⟨rfl, rfl, rfl, rfl⟩
  · obtain ⟨⟨success, r₁⟩, hsend, rfl⟩ := Option.map_eq_some_iff.mp hprocess
    have hsized : (Operation.send id data).Sized := htables.sized _ List.mem_cons_self
    refine ⟨fun conn hc => hcount ?_, fun hnone => ?_⟩
    · have hcase := htables.doSendData_cases env hsized hsend
      have hmoves : r₁ = _ ∨ ∃ fd, ConnMoves (fun _ => True) id fd _ r₁ :=
        hcase.connMoves fun _ _ _ _ _ => trivial
      refine (hdequeued _).trans ?_
      rcases hmoves with hsame | ⟨fd, hconn⟩
      · rw [hsame]
        exact .refl _
      · exact ConnMoves.away_of_lookup hconn hc
    · have hnone' : (r.dequeue (.send id data) rest).connections.lookup id = none := hnone
      rw [Reactor.doSendData, hnone'] at hsend
      obtain ⟨rfl, rfl⟩ := Prod.mk.inj (Option.some.inj hsend)
      exact ⟨rfl, rfl, rfl, rfl⟩

end Reactor

/-! ## Runs -/

theorem reactors_numbered {reactorId : ℤ} {receiver : Receiver} {states : List System}
    (hrun : (reactors reactorId receiver).Run states) :
    ∀ s ∈ states, Numbered 1 s.reactor.connectionSeq s.reactor.log ∧ s.reactor.Current := by
  intro s hs
  refine (reactors_invariant (P := fun r => Numbered 1 r.connectionSeq r.log ∧ r.Current)
    (fun timeout => ⟨⟨?_, ?_⟩, fun _ _ hc => by cases hc⟩) (fun r r' hseparate h hmove =>
      ⟨hmove.numbered h.1, hmove.current hseparate h.2⟩) hrun s hs).2
  · intro newer id' fd' between id fd older hlog
    exact absurd hlog (by simp [Reactor.started])
  · intro newer id fd older hlog
    exact absurd hlog (by simp [Reactor.started])

/-- A connection that was closed is not found again within 65534 additions. -/
theorem reactors_closed_absent {reactorId : ℤ} {receiver : Receiver} {states : List System}
    (hrun : (reactors reactorId receiver).Run states) :
    ∀ s ∈ states, ∀ newer id fd older, s.reactor.log = newer ++ .added id fd :: older →
      additions newer < sequenceCount → .closed fd ∈ newer →
        s.reactor.connections.lookup id = none := by
  intro s hs newer id fd older hlog hfew hclosed
  obtain ⟨hnumbered, hcurrent⟩ := reactors_numbered hrun s hs
  refine Option.eq_none_iff_forall_ne_some.mpr fun conn hc => ?_
  obtain ⟨later, earlier, hlast, hlater⟩ := hcurrent id conn hc
  have hunmarked : ∀ e ∈ later, ¬e.adds id = true := fun e he => by simp [(hlater e he).1]
  have hmarked : (Effect.added id fd).adds id = true := decide_eq_true rfl
  obtain ⟨between, rfl, hbetween⟩ :=
    Lists.append_eq_append_marked hunmarked hmarked (hlast.symm.trans hlog)
  cases between with
  | nil =>
    obtain ⟨heq, -⟩ := List.cons_eq_cons.mp hbetween
    obtain ⟨-, rfl⟩ := Effect.added.inj heq
    exact (hlater _ (by simpa using hclosed)).2 rfl
  | cons e between =>
    obtain ⟨rfl, rfl⟩ := List.cons_eq_cons.mp hbetween
    refine hnumbered.fresh later id _ between id fd older hlast ?_ rfl
    rw [additions, List.countP_append, List.countP_cons_of_neg (by simp [Effect.takesAdd])] at hfew
    rw [additions]
    omega

/-- Generated ids are not zero, `Parse` finds their fields, and any 65535 consecutive ones are
different. In every run, connections that are added within 65534 additions have different
ids; an operation on `id` touches the connection stored under `id` only; and once that is
closed, none is found within 65534 additions, so that nothing is done. -/
theorem connection_ids_fresh {reactorId : ℤ} (hlow : 0 ≤ reactorId) (hhigh : reactorId < 256) :
    (∀ r generated r', r.reactorId = reactorId → Reactor.Adding r generated r' →
      (∀ g ∈ generated, g.id ≠ 0 ∧ ((parse g.id).2.1.toNat : ℤ) = reactorId ∧
        ((parse g.id).2.2.1.toNat : ℤ) = g.fd % 65536 ∧ (parse g.id).2.2.2 = g.seq) ∧
      ∀ window, window <:+: generated → window.length ≤ 65535 →
        (window.map Reactor.Generated.id).Nodup) ∧
    ∀ receiver states, (reactors reactorId receiver).Run states → ∀ s ∈ states,
      (∀ newer id' fd' between id fd older,
        s.reactor.log = newer ++ .added id' fd' :: (between ++ .added id fd :: older) →
          additions between ≤ 65534 → id' ≠ id) ∧
      ∀ env op id rest r, (op = .remove id ∨ ∃ data, op = .send id data) →
        s.reactor.pendingOperations = op :: rest →
        (s.reactor.dequeue op rest).processOperation env op = some r →
        (∀ conn, s.reactor.connections.lookup id = some conn →
          Reactor.Away conn.fileDescriptor s.reactor r) ∧
        ∀ newer fd older, s.reactor.log = newer ++ .added id fd :: older →
          additions newer ≤ 65534 → .closed fd ∈ newer →
            r.connections = s.reactor.connections ∧
              r.fdToConnectionId = s.reactor.fdToConnectionId ∧
                r.kernel = s.reactor.kernel ∧ r.log = .took op :: s.reactor.log := by
  refine ⟨fun r generated r' hid hadding => ⟨fun g hg => ?_, fun window hwindow hlength => ?_⟩,
    fun receiver states hrun s hs => ⟨fun newer id' fd' between id fd older hlog hfew => ?_,
      fun env op id rest r hop hqueue hprocess => ?_⟩⟩
  · obtain ⟨hne, hfields⟩ := hadding.fields g hg
    rw [hfields, hid]
    refine ⟨hne, ?_, ?_, rfl⟩
    · simp [UInt8.ofInt]
      omega
    · simp [UInt16.ofInt]
      omega
  · exact hadding.nodup hwindow hlength
  · exact (reactors_numbered hrun s hs).1.fresh newer id' fd' between id fd older hlog
      (Nat.lt_succ_of_le hfew)
  · obtain ⟨hone, hnothing⟩ :=
      (reactors_atRest hrun s hs).processOperation_away env hop hqueue hprocess
    refine ⟨hone, fun newer fd older hlog hfew hclosed => hnothing ?_⟩
    exact reactors_closed_absent hrun s hs newer id fd older hlog (Nat.lt_succ_of_le hfew) hclosed

/-- Descriptor 5 is added twice, and gets two ids. -/
theorem connection_ids_fresh_twice : ∃ generated r',
    (Reactor.started 0 .workerPool 60).Adding generated r' ∧ generated.length = 2 ∧
      (generated.map Reactor.Generated.id).Nodup := by
  have hstarted : ¬((5 : ℤ) < 0 ∨ ¬(Reactor.started 0 .workerPool 60).isRunning) := by decide
  have hadded : ¬((5 : ℤ) < 0 ∨
      ¬((Reactor.started 0 .workerPool 60).doAddConnection sampleEnvironment 5
        ⟨[]⟩).2.isRunning) := by
    rw [((Reactor.doAddConnection_cases sampleEnvironment 5 ⟨[]⟩ _).sameControl).isRunning]
    decide
  have hadding := Reactor.Adding.call sampleEnvironment 5 ⟨[]⟩ hstarted
    (Reactor.Adding.call sampleEnvironment 5 ⟨[]⟩ hadded .done)
  refine ⟨_, _, hadding, rfl, ?_⟩
  exact ((connection_ids_fresh (le_refl 0) (by decide)).1 _ _ _ rfl hadding).2 _
    List.infix_rfl (by decide)

end DarwinCore.Network
