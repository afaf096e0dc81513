import DarwinCore.Verification.Network.Frame

/-! # The life of a connection

The events of a connection tell its life: it is announced, it receives data, it may fail, and
it ends. What the reactor submits for a connection since it was added keeps to this order, in
every run. That a connection which is gone has been announced as disconnected holds exactly
as long as none is removed on request and none is left for `Stop` to clean up. -/

namespace DarwinCore.Network

open History Relation

/-! ## Lives -/

/-- How far the life of a connection has got, going by its events. -/
inductive Life where
  | unannounced
  | connected
  | failed
  | ended
  deriving DecidableEq, Repr

namespace Life

/-- The life after one more event, if the event may come now. -/
def next : Life → NetworkEvent → Option Life
  | unannounced, .connected _ _ => some connected
  | connected, .data _ _ => some connected
  | connected, .error _ _ _ => some failed
  | connected, .disconnected _ => some ended
  | failed, .disconnected _ => some ended
  | _, _ => none

def after (events : List NetworkEvent) : Option Life :=
  events.foldlM next unannounced

theorem after_append (events more : List NetworkEvent) :
    after (events ++ more) = (after events).bind fun life => more.foldlM next life :=
  List.foldlM_append

theorem after_isSome_of_first {events more : List NetworkEvent}
    (h : (after (events ++ more)).isSome) : (after events).isSome := by
  rw [after_append] at h
  exact Option.isSome_of_isSome_bind h

end Life

/-- The events tell a life, and others before it. -/
def TellsLives (events : List NetworkEvent) : Prop :=
  ∃ lives : List (List NetworkEvent), (∀ life ∈ lives, (Life.after life).isSome) ∧
    events = lives.flatten

namespace Effect

/-- The event of the connection `id` that is submitted, whether or not it is accepted. -/
def submittedFor (id : UInt64) : Effect → List NetworkEvent
  | .dispatched event => if event.connectionId = id then [event] else []
  | .refused event => if event.connectionId = id then [event] else []
  | _ => []

/-- The entry neither adds the connection `id` nor tells of it. -/
def Untold (id : UInt64) (e : Effect) : Prop :=
  e.adds id = false ∧ e.submittedFor id = []

/-- The entries by which nothing is told of any connection. -/
def isTold : Effect → Bool
  | .added _ _ => true
  | .dispatched _ => true
  | .refused _ => true
  | _ => false

theorem untold_of {e : Effect} (h : e.isTold = false) (id : UInt64) : e.Untold id := by
  cases e with
  | added id' fd => cases h
  | dispatched event => cases h
  | refused event => cases h
  | _ => exact ⟨rfl, rfl⟩

end Effect

namespace Reactor

/-- The events submitted for `id` since a connection was added as `id`. -/
def submitted (r : Reactor) (id : UInt64) : List NetworkEvent :=
  collect (Effect.submittedFor id) (since (Effect.adds id) r.log)

/-- All the events ever submitted for `id`. -/
def told (r : Reactor) (id : UInt64) : List NetworkEvent :=
  collect (Effect.submittedFor id) r.log

def hasAdded (r : Reactor) (id : UInt64) : Bool :=
  r.log.any (Effect.adds id)

def life (r : Reactor) (id : UInt64) : Option Life :=
  Life.after (r.submitted id)

variable {may : Lapse → Prop} {r r' r'' : Reactor} {id i : UInt64} {fd : ℤ}
  {conn : ReactorConnection}

/-! ## What is told -/

/-- What has come to be told of the connection `id`, which has not been added again. -/
structure Tells (id : UInt64) (events : List NetworkEvent) (r r' : Reactor) : Prop where
  submitted : r'.submitted id = r.submitted id ++ events
  told : r'.told id = r.told id ++ events
  hasAdded : r'.hasAdded id = r.hasAdded id

theorem Tells.life {events : List NetworkEvent} (h : Tells id events r r') :
    r'.life id = (r.life id).bind fun life => events.foldlM Life.next life := by
  rw [Reactor.life, h.submitted, Life.after_append]
  rfl

theorem Tells.trans {events more : List NetworkEvent} (h : Tells id events r r')
    (h' : Tells id more r' r'') : Tells id (events ++ more) r r'' where
  submitted := by rw [h'.submitted, h.submitted, List.append_assoc]
  told := by rw [h'.told, h.told, List.append_assoc]
  hasAdded := h'.hasAdded.trans h.hasAdded

theorem Tells.of_log (h : r'.log = r.log) : Tells id [] r r' := by
  refine ⟨?_, ?_, ?_⟩
  · rw [Reactor.submitted, Reactor.submitted, h, List.append_nil]
  · rw [Reactor.told, Reactor.told, h, List.append_nil]
  · rw [Reactor.hasAdded, Reactor.hasAdded, h]

theorem Tells.of_cons {e : Effect} {events : List NetworkEvent} (hlog : r'.log = e :: r.log)
    (hadds : e.adds id = false) (hevents : e.submittedFor id = events) :
    Tells id events r r' := by
  refine ⟨?_, ?_, ?_⟩
  · rw [Reactor.submitted, hlog, collect_since_unmarked hadds, hevents]
    rfl
  · rw [Reactor.told, hlog, collect, hevents]
    rfl
  · rw [Reactor.hasAdded, hlog, List.any_cons, hadds, Bool.false_or]
    rfl

theorem Grows.untold {P : Effect → Prop} (hP : ∀ e, P e → e.Untold id) (h : Grows P r r') :
    Tells id [] r r' := by
  obtain ⟨extra, hlog, hall⟩ := h
  induction extra generalizing r' with
  | nil => exact .of_log hlog
  | cons e extra ih =>
    have hrest : Tells id [] r { r' with log := extra ++ r.log } :=
      ih rfl fun e he => hall e (List.mem_cons_of_mem _ he)
    obtain ⟨hadds, hnone⟩ := hP e (hall e List.mem_cons_self)
    exact hrest.trans (.of_cons hlog hadds hnone)

theorem concerns_untold {e : Effect} (h : Concerns id fd e) (hi : i ≠ id) : e.Untold i := by
  cases e with
  | dispatched event =>
    obtain rfl : event.connectionId = id := h
    exact ⟨rfl, if_neg (Ne.symm hi)⟩
  | refused event =>
    obtain rfl : event.connectionId = id := h
    exact ⟨rfl, if_neg (Ne.symm hi)⟩
  | added id' fd' => cases h
  | _ => exact ⟨rfl, rfl⟩

theorem dispatchEvent_tells (env : Environment) {event : NetworkEvent}
    (hpool : r.receiver = .workerPool) (hid : event.connectionId = id) :
    Tells id [event] r (r.dispatchEvent env event) := by
  rcases dispatchEvent_cases env event r with ⟨hnobody, -⟩ | h | h
  · exact absurd (hpool.symm.trans hnobody) nofun
  · exact h ▸ .of_cons rfl rfl (if_pos hid)
  · exact h ▸ .of_cons rfl rfl (if_pos hid)

theorem Owns.remove_untold (h : r.Owns id fd conn) : Tells i [] r (r.doRemoveConnection id).2 := by
  rw [h.remove_eq]
  exact .of_cons rfl rfl rfl

/-! ## One connection -/

theorem Owns.remove_mem (h : r.Owns id fd conn) :
    i ∈ (r.doRemoveConnection id).2.connections ↔ i ≠ id ∧ i ∈ r.connections := by
  rw [h.remove_eq]
  exact Finmap.mem_erase

theorem store_mem (h : id ∈ r.connections) (conn : ReactorConnection) :
    i ∈ (r.store id conn).connections ↔ i ∈ r.connections := by
  rw [store, Finmap.mem_insert]
  refine ⟨?_, .inr⟩
  rintro (rfl | hi)
  · exact h
  · exact hi

theorem dispatchEvent_mem (env : Environment) (event : NetworkEvent) (r : Reactor) :
    i ∈ (r.dispatchEvent env event).connections ↔ i ∈ r.connections := by
  rw [(quiet_dispatchEvent env event r).connections]

theorem ConnMove.mem_of_ne (h : ConnMove may id fd r r') (hi : i ≠ id) :
    i ∈ r'.connections ↔ i ∈ r.connections := by
  cases h with
  | @settled r₁ conn conn' howns hkey hfd hvalid hmonitored =>
    rw [store_mem (howns.quiet hmonitored.quiet).mem, hmonitored.quiet.connections]
  | received env time data hdata howns =>
    rw [dispatchEvent_mem]
    exact store_mem howns.mem _
  | close env howns =>
    rw [howns.close_eq env, (howns.dispatchEvent env _).remove_mem, dispatchEvent_mem]
    exact and_iff_right hi
  | error env code howns =>
    rw [howns.error_eq env code, ((howns.dispatchEvent env _).dispatchEvent env _).remove_mem,
      dispatchEvent_mem, dispatchEvent_mem]
    exact and_iff_right hi
  | _ => rfl

/-- What is told of a connection that was announced and has not ended: it stays so while it
is in the table, and its end is told when it leaves. -/
theorem ConnMove.tells (h : ConnMove may id fd r r') (hpool : r.receiver = .workerPool) :
    ∃ events life, Tells id events r r' ∧ events.foldlM Life.next .connected = some life ∧
      (id ∈ r'.connections ∧ life = .connected ∨ id ∉ r'.connections ∧ life = .ended) := by
  cases h with
  | @settled r₁ conn conn' howns hkey hfd hvalid hmonitored =>
    have hgrows : Grows (fun e => e.isTold = false) r r₁ :=
      hmonitored.keeps (fun _ _ _ h => h.trans (.cons rfl rfl)) (.of_eq rfl)
    have hmem := (howns.quiet hmonitored.quiet).mem
    refine ⟨[], .connected, ?_, rfl, .inl ⟨(store_mem hmem conn').mpr hmem, rfl⟩⟩
    exact (hgrows.untold fun e he => Effect.untold_of he id).trans (.of_log rfl)
  | tried howns => exact ⟨[], .connected, .of_cons rfl rfl rfl, rfl, .inl ⟨howns.mem, rfl⟩⟩
  | counted data howns =>
    exact ⟨[], .connected, .of_cons rfl rfl rfl, rfl, .inl ⟨howns.mem, rfl⟩⟩
  | uncounted data howns =>
    exact ⟨[], .connected, .of_cons rfl rfl rfl, rfl, .inl ⟨howns.mem, rfl⟩⟩
  | received env time data hdata howns =>
    refine ⟨[.data id data], .connected, ?_, rfl, .inl ⟨?_, rfl⟩⟩
    · refine Tells.trans (?_ : Tells id [] r _) (dispatchEvent_tells env hpool rfl)
      exact .of_cons rfl rfl rfl
    · rw [dispatchEvent_mem]
      exact (store_mem howns.mem _).mpr howns.mem
  | close env howns =>
    have hown := howns.dispatchEvent env (.disconnected id)
    rw [howns.close_eq env]
    refine ⟨[.disconnected id], .ended, ?_, rfl, .inr ⟨fun hmem => ?_, rfl⟩⟩
    · exact (dispatchEvent_tells env hpool rfl).trans hown.remove_untold
    · exact (hown.remove_mem.mp hmem).1 rfl
  | error env code howns =>
    obtain ⟨event, hevent⟩ : ∃ event, event =
      NetworkEvent.error id (mapErrnoToNetworkError code) code := ⟨_, rfl⟩
    have hown := (howns.dispatchEvent env event).dispatchEvent env (.disconnected id)
    have hfailed : Tells id [event] r (r.dispatchEvent env event) :=
      dispatchEvent_tells env hpool (hevent ▸ rfl)
    have hended : Tells id [.disconnected id] (r.dispatchEvent env event)
        ((r.dispatchEvent env event).dispatchEvent env (.disconnected id)) :=
      dispatchEvent_tells env ((dispatchEvent_receiver env event r).trans hpool) rfl
    rw [howns.error_eq env code, ← hevent]
    refine ⟨[event, .disconnected id], .ended, (hfailed.trans hended).trans hown.remove_untold,
      ?_, .inr ⟨fun hmem => (hown.remove_mem.mp hmem).1 rfl, rfl⟩⟩
    rw [hevent]
    rfl

/-! ## The state of a life -/

/-- Where the life of the connection `id` stands. While it is in the table it is announced and
not ended. If it is not, it has ended or was broken off. -/
structure Stands (r : Reactor) (id : UInt64) : Prop where
  table : id ∈ r.connections → r.hasAdded id = true ∧ r.life id = some .connected
  gone : id ∉ r.connections → r.hasAdded id = true →
    r.life id = some .connected ∨ r.life id = some .ended
  new : r.hasAdded id = false → r.submitted id = []
  past : ∃ before, TellsLives before ∧ r.told id = before ++ r.submitted id

/-- If the connection is not in the table any more, its end has been told. -/
def Announced (r : Reactor) (id : UInt64) : Prop :=
  id ∉ r.connections → r.hasAdded id = true → r.life id = some .ended

theorem Tells.life_nil (h : Tells id [] r r') : r'.life id = r.life id := by
  rw [Reactor.life, h.submitted, List.append_nil]
  rfl

theorem Stands.untold (h : r.Stands id) (htells : Tells id [] r r')
    (hmem : id ∈ r'.connections → id ∈ r.connections) : r'.Stands id where
  table hid := by
    rw [htells.hasAdded, htells.life_nil]
    exact h.table (hmem hid)
  gone hid hadded := by
    rw [htells.life_nil]
    by_cases hold : id ∈ r.connections
    · exact .inl (h.table hold).2
    · exact h.gone hold (htells.hasAdded.symm.trans hadded)
  new hadded := by
    rw [htells.submitted, List.append_nil]
    exact h.new (htells.hasAdded.symm.trans hadded)
  past := by
    rw [htells.told, htells.submitted, List.append_nil, List.append_nil]
    exact h.past

theorem Announced.untold (h : r.Announced id) (htells : Tells id [] r r')
    (hmem : id ∈ r'.connections ↔ id ∈ r.connections) : r'.Announced id := by
  intro hid hadded
  rw [htells.life_nil]
  exact h (fun hold => hid (hmem.mpr hold)) (htells.hasAdded.symm.trans hadded)

/-- The move of the connection itself. -/
theorem Stands.connMove (h : r.Stands id) (hmem : id ∈ r.connections)
    (hmove : ConnMove may id fd r r') (hpool : r.receiver = .workerPool) :
    r'.Stands id ∧ r'.Announced id := by
  obtain ⟨events, life, htells, hevents, hcase⟩ := hmove.tells hpool
  obtain ⟨hadded, hconnected⟩ := h.table hmem
  have hnow : r'.life id = some life := by
    rw [htells.life, hconnected]
    exact hevents
  have hadded' : r'.hasAdded id = true := htells.hasAdded.trans hadded
  have hpast : ∃ before, TellsLives before ∧ r'.told id = before ++ r'.submitted id := by
    obtain ⟨before, htold, hall⟩ := h.past
    exact ⟨before, htold, by rw [htells.told, htells.submitted, hall, List.append_assoc]⟩
  have hnone (hnew : r'.hasAdded id = false) : r'.submitted id = [] := by
    rw [hadded'] at hnew
    cases hnew
  rcases hcase with ⟨hin, rfl⟩ | ⟨hout, rfl⟩
  · exact ⟨⟨fun _ => ⟨hadded', hnow⟩, fun hout => absurd hin hout, hnone, hpast⟩,
      fun hout => absurd hin hout⟩
  · exact ⟨⟨fun hin => absurd hin hout, fun _ _ => .inr hnow, hnone, hpast⟩, fun _ _ => hnow⟩

/-- All that has been told of a connection is lives, the last of which may go on. -/
theorem Stands.tellsLives (h : r.Stands id) : TellsLives (r.told id) := by
  have hlife : (Life.after (r.submitted id)).isSome := by
    change (r.life id).isSome
    cases hadded : r.hasAdded id with
    | false =>
      rw [life, h.new hadded]
      rfl
    | true =>
      by_cases hmem : id ∈ r.connections
      · rw [(h.table hmem).2]
        rfl
      · rcases h.gone hmem hadded with hlife | hlife
        · rw [hlife]
          rfl
        · rw [hlife]
          rfl
  obtain ⟨before, ⟨lives, hall, hbefore⟩, htold⟩ := h.past
  refine ⟨lives ++ [r.submitted id], fun life hmem => ?_, ?_⟩
  · rcases List.mem_append.mp hmem with hmem | hmem
    · exact hall life hmem
    · rw [List.mem_singleton.mp hmem]
      exact hlife
  · rw [htold, hbefore, List.flatten_append, List.flatten_singleton]

/-! ## Adding -/

/-- A new life begins, and nothing is told of other connections. -/
theorem register_stands (env : Environment) (peer : SockAddr) (hpool : r.receiver = .workerPool)
    (h : ∀ i, r.Stands i) (i : UInt64) :
    (r.register env id fd peer).Stands i ∧
      ((r.Announced i) → (r.register env id fd peer).Announced i) := by
  obtain ⟨conn, hinsert, -⟩ := register_connections id fd env peer r
  have hadmits : Grows (Admits id fd) r (r.register env id fd peer) := register_grows env peer r
  by_cases hi : i = id
  · subst hi
    have hmem : i ∈ (r.register env i fd peer).connections := by
      rw [hinsert]
      exact Finmap.mem_insert.mpr (.inl rfl)
    obtain ⟨r₁, heq, hlog, hreceiver⟩ : ∃ r₁ : Reactor,
        r.register env i fd peer = r₁.dispatchEvent env (.connected i peer) ∧
        r₁.log = .added i fd :: r.log ∧ r₁.receiver = r.receiver := ⟨_, rfl, rfl, rfl⟩
    have hmarked : Effect.adds i (.added i fd) = true := decide_eq_true rfl
    have htells : Tells i [.connected i peer] r₁ (r₁.dispatchEvent env (.connected i peer)) :=
      dispatchEvent_tells env (hreceiver.trans hpool) rfl
    have hnone : r₁.submitted i = [] := by
      rw [submitted, hlog, collect_since_marked hmarked]
    have hsubmitted : (r.register env i fd peer).submitted i = [.connected i peer] := by
      rw [heq, htells.submitted, hnone, List.nil_append]
    have htold : (r.register env i fd peer).told i = r.told i ++ [.connected i peer] := by
      rw [heq, htells.told, told, hlog, collect]
      exact congrArg (· ++ [NetworkEvent.connected i peer]) (List.append_nil _)
    have hadded : (r.register env i fd peer).hasAdded i = true := by
      rw [heq, htells.hasAdded, hasAdded, hlog, List.any_cons, hmarked, Bool.true_or]
    have hlife : (r.register env i fd peer).life i = some .connected := by
      rw [life, hsubmitted]
      rfl
    refine ⟨⟨fun _ => ⟨hadded, hlife⟩, fun hout => absurd hmem hout, fun hnew => ?_, ?_⟩,
      fun _ hout => absurd hmem hout⟩
    · rw [hadded] at hnew
      cases hnew
    · exact ⟨r.told i, (h i).tellsLives, by rw [htold, hsubmitted]⟩
  · have huntold : Tells i [] r (r.register env id fd peer) := by
      refine hadmits.untold fun e he => ?_
      cases e with
      | dispatched event =>
        obtain rfl : event.connectionId = id := he
        exact ⟨rfl, if_neg (Ne.symm hi)⟩
      | refused event =>
        obtain rfl : event.connectionId = id := he
        exact ⟨rfl, if_neg (Ne.symm hi)⟩
      | added id' fd' =>
        obtain ⟨rfl, -⟩ : id' = id ∧ fd' = fd := he
        exact ⟨decide_eq_false (Ne.symm hi), rfl⟩
      | _ => exact ⟨rfl, rfl⟩
    have hmem : i ∈ (r.register env id fd peer).connections ↔ i ∈ r.connections := by
      rw [hinsert, Finmap.mem_insert]
      exact or_iff_right hi
    exact ⟨(h i).untold huntold hmem.mp, fun hannounced => hannounced.untold huntold hmem⟩

theorem AddCase.stands {env : Environment} {peer : SockAddr} {result : UInt64 × Reactor}
    (hcase : AddCase env fd peer r result) (hpool : r.receiver = .workerPool)
    (h : ∀ i, r.Stands i) (i : UInt64) :
    result.2.Stands i ∧ (r.Announced i → result.2.Announced i) := by
  have hseq (i : UInt64) : Tells i [] r r.nextSeq.2 := .of_log r.nextSeq_log
  have hmonitored (i : UInt64) : Tells i [] r (r.nextSeq.2.monitor env fd .addRead).2 :=
    (hseq i).trans (.of_cons rfl rfl rfl)
  have hquiet := (quiet_monitor env fd .addRead r.nextSeq.2).connections.trans
    r.quiet_nextSeq.connections
  have hsame {r₁ : Reactor} (htells : Tells i [] r r₁)
      (hconnections : r₁.connections = r.connections) :
      r₁.Stands i ∧ (r.Announced i → r₁.Announced i) := by
    have hmem : i ∈ r₁.connections ↔ i ∈ r.connections := by rw [hconnections]
    exact ⟨(h i).untold htells hmem.mp, fun hannounced => hannounced.untold htells hmem⟩
  cases hcase with
  | ignored => exact ⟨h i, fun hannounced => hannounced⟩
  | collided => exact hsame ((hseq i).trans (.of_cons rfl rfl rfl)) r.quiet_nextSeq.connections
  | unmonitored => exact hsame ((hmonitored i).trans (.of_cons rfl rfl rfl)) hquiet
  | added =>
    have hpool' : (r.nextSeq.2.monitor env fd .addRead).2.receiver = .workerPool :=
      r.nextSeq_receiver.trans hpool
    have hmid (i : UInt64) : (r.nextSeq.2.monitor env fd .addRead).2.Stands i :=
      (h i).untold (hmonitored i) fun hmem => hquiet ▸ hmem
    obtain ⟨hstands, hannounces⟩ := register_stands env peer hpool' hmid i
    exact ⟨hstands, fun hannounced =>
      hannounces (hannounced.untold (hmonitored i) (by rw [hquiet]))⟩

/-! ## Moves -/

theorem cleanupAllConnections_untold (env : Environment) (r : Reactor) :
    Tells i [] r ({ r with kernel := r.kernel.closeQueue }.cleanupAllConnections env) := by
  have hgrows := closeAllOnly_grows env.order { r with kernel := r.kernel.closeQueue }
  refine Tells.trans (?_ : Tells i [] r _) (.of_log rfl)
  refine hgrows.untold fun e he => ?_
  obtain ⟨j, c, -, rfl⟩ := he
  exact ⟨rfl, rfl⟩

/-- Every life goes on as it may. Only a removal on request and the final clean-up break one
off. -/
theorem Move.stands (hmove : Move may r r') (hpool : r.receiver = .workerPool)
    (h : ∀ i, r.Stands i) (i : UInt64) :
    r'.Stands i ∧
      (¬may .unannounced → ¬may .abandoned → r.Announced i → r'.Announced i) := by
  have hsame {r₁ : Reactor} (htells : Tells i [] r r₁)
      (hconnections : r₁.connections = r.connections) :
      r₁.Stands i ∧ (¬may .unannounced → ¬may .abandoned → r.Announced i → r₁.Announced i) := by
    have hmem : i ∈ r₁.connections ↔ i ∈ r.connections := by rw [hconnections]
    exact ⟨(h i).untold htells hmem.mp, fun _ _ hannounced => hannounced.untold htells hmem⟩
  cases hmove with
  | idle hidle => exact hsame (.of_log hidle.log) hidle.connections
  | took => exact hsame (.of_cons rfl rfl rfl) rfl
  | answered => exact hsame (.of_cons rfl rfl rfl) rfl
  | opened => exact hsame (.of_cons rfl rfl rfl) rfl
  | closed => exact hsame (.of_cons rfl rfl rfl) rfl
  | adding env fd peer hpos hopen hfree hcase =>
    have htook (i : UInt64) : Tells i [] r (r.emit (.took (.add fd peer))) :=
      .of_cons rfl rfl rfl
    have hmid (i : UInt64) : (r.emit (.took (.add fd peer))).Stands i :=
      (h i).untold (htook i) fun hmem => hmem
    obtain ⟨hstands, hannounces⟩ := hcase.stands hpool hmid i
    exact ⟨hstands, fun _ _ hannounced => hannounces (hannounced.untold (htook i) Iff.rfl)⟩
  | removed howns hmay =>
    exact ⟨(h i).untold howns.remove_untold fun hmem => (howns.remove_mem.mp hmem).2,
      fun hnone => absurd hmay hnone⟩
  | @connection _ id fd hconn =>
    obtain ⟨conn, howns⟩ := hconn.owns
    by_cases hi : i = id
    · subst hi
      obtain ⟨hstands, hannounced⟩ := (h i).connMove howns.mem hconn hpool
      exact ⟨hstands, fun _ _ _ => hannounced⟩
    · have htells : Tells i [] r r' := hconn.grows.untold fun e he => concerns_untold he hi
      have hmem := hconn.mem_of_ne hi
      exact ⟨(h i).untold htells hmem.mp, fun _ _ hannounced => hannounced.untold htells hmem⟩
  | cleaned env horder hmay =>
    have htells := r.cleanupAllConnections_untold (i := i) env
    refine ⟨(h i).untold htells fun hmem => absurd hmem Finmap.notMem_empty,
      fun _ hnone hannounced => ?_⟩
    have hempty : r.connections = ∅ := by
      by_contra hne
      exact hnone (hmay hne)
    refine hannounced.untold htells ?_
    rw [hempty]
    rfl

theorem Moves.stands (hmoves : Moves may r r') (hpool : r.receiver = .workerPool)
    (h : ∀ i, r.Stands i) :
    r'.receiver = .workerPool ∧ (∀ i, r'.Stands i) ∧
      (¬may .unannounced → ¬may .abandoned → (∀ i, r.Announced i) → ∀ i, r'.Announced i) := by
  induction hmoves with
  | refl => exact ⟨hpool, h, fun _ _ hannounced => hannounced⟩
  | tail _ hmove ih =>
    obtain ⟨hpool', hstands, hannounces⟩ := ih
    have hnext := hmove.stands hpool' hstands
    exact ⟨hmove.workerPool hpool', fun i => (hnext i).1, fun hsilent habandon hannounced i =>
      (hnext i).2 hsilent habandon (hannounces hsilent habandon hannounced i)⟩

end Reactor

/-! ## Runs -/

structure System.Tracked (s : System) : Prop where
  atRest : s.AtRest
  pool : s.reactor.receiver = .workerPool
  stands : ∀ id, s.reactor.Stands id

theorem started_tracked (reactorId : ℤ) (timeout : ℤ) :
    System.Tracked { reactor := Reactor.started reactorId .workerPool timeout } where
  atRest := started_atRest reactorId .workerPool timeout
  pool := rfl
  stands id := by
    refine ⟨fun hmem => absurd hmem Finmap.notMem_empty, fun _ hadded => ?_, fun _ => rfl,
      [], ⟨[], by simp, rfl⟩, rfl⟩
    cases hadded

theorem System.Step.tracked {s t : System} (hstep : System.Step s t) (h : s.Tracked) :
    t.Tracked := by
  have hmoves : Reactor.Moves (fun _ => True) s.reactor t.reactor :=
    hstep.moves h.atRest (fun _ => trivial) (fun _ => trivial) (fun _ => trivial) fun _ => trivial
  obtain ⟨hpool, hstands, -⟩ := hmoves.stands h.pool h.stands
  exact ⟨hstep.atRest h.atRest, hpool, hstands⟩

theorem reactors_tracked {reactorId : ℤ} {states : List System}
    (hrun : (reactors reactorId .workerPool).Run states) : ∀ s ∈ states, s.Tracked := by
  refine hrun.invariant ?_ fun s t h (hstep : System.Step s t) => hstep.tracked h
  rintro s ⟨timeout, rfl⟩
  exact started_tracked reactorId timeout

/-- In every state of a run, the events submitted for a connection since it was added are those
of a life: they begin with its announcement if it was added, nothing follows its end, and it is
in the table only if it was announced and has not ended. -/
theorem reactors_submit_lives {reactorId : ℤ} {states : List System}
    (hrun : (reactors reactorId .workerPool).Run states) {s : System} (hs : s ∈ states)
    (id : UInt64) : ∃ life, s.reactor.life id = some life ∧ life ≠ .failed ∧
      (life = .unannounced ↔ s.reactor.hasAdded id = false) ∧
      (id ∈ s.reactor.connections → life = .connected) := by
  have hstands := (reactors_tracked hrun s hs).stands id
  have hcases : s.reactor.hasAdded id = true →
      s.reactor.life id = some .connected ∨
        s.reactor.life id = some .ended ∧ id ∉ s.reactor.connections := by
    intro hadded
    by_cases hmem : id ∈ s.reactor.connections
    · exact .inl (hstands.table hmem).2
    · exact (hstands.gone hmem hadded).imp_right fun hended => ⟨hended, hmem⟩
  cases hadded : s.reactor.hasAdded id with
  | false =>
      refine ⟨.unannounced, ?_, by simp, by simp, fun hmem => ?_⟩
      · rw [Reactor.life, hstands.new hadded]
        rfl
      · rw [(hstands.table hmem).1] at hadded
        cases hadded
  | true =>
      rcases hcases hadded with hlife | ⟨hlife, hout⟩
      · exact ⟨.connected, hlife, by simp, by simp, fun _ => rfl⟩
      · exact ⟨.ended, hlife, by simp, by simp, fun hmem => absurd hmem hout⟩

/-- The connection of the sample run has been announced. -/
theorem reactors_submit_lives_sample : ∃ s past, (reactors 0 .workerPool).Run (s :: past) ∧
    s.reactor.life sampleId = some .connected := by
  obtain ⟨s, past, hrun, hsent, -⟩ := sample_run
  have hmem : sampleSent.map (fun r => decide (sampleId ∈ r.connections)) = some true := by
    decide +kernel
  rw [hsent, Option.map_some, Option.some.injEq, decide_eq_true_eq] at hmem
  obtain ⟨life, hlife, -, -, htable⟩ := reactors_submit_lives hrun List.mem_cons_self sampleId
  exact ⟨s, past, hrun, by rw [hlife, htable hmem]⟩

/-! ## Lives that are broken off -/

/-- The end of every connection that has left the table has been told. -/
def System.AnnouncesEnds (s : System) : Prop :=
  ∀ id, s.reactor.Announced id

/-- A connection that leaves the table on request is not announced as ended. -/
theorem System.RemovesSilently.breaksOff {s t : System} (hremoves : s.RemovesSilently t)
    (h : s.Tracked) : ¬t.AnnouncesEnds := by
  obtain ⟨env, id, ⟨which, processed, rest, -, -, hqueue, hprocess⟩, hmem⟩ := hremoves
  obtain ⟨conn, hc⟩ := Finmap.mem_iff.mp hmem
  have howns : (s.reactor.dequeue (.remove id) rest).Owns id conn.fileDescriptor conn :=
    (h.atRest.tables.dequeue hqueue).owns hc
  have htook : Reactor.Tells id [] s.reactor (s.reactor.dequeue (.remove id) rest) :=
    .of_cons rfl rfl rfl
  have htells := htook.trans howns.remove_untold
  obtain ⟨hadded, hconnected⟩ := (h.stands id).table hmem
  have hremoved : (s.reactor.dequeue (.remove id) rest).doRemoveConnection id =
      (true, ((s.reactor.dequeue (.remove id) rest).doRemoveConnection id).2) := by
    rw [Reactor.doRemoveConnection, howns.lookup]
  have hreactor : t.reactor = ((s.reactor.dequeue (.remove id) rest).doRemoveConnection id).2 := by
    rw [Reactor.processOperation, hremoved] at hprocess
    exact (Option.some.inj hprocess).symm
  intro hannounces
  have hended := hannounces id (fun hin => by
    rw [hreactor] at hin
    exact (howns.remove_mem.mp hin).1 rfl) (by rw [hreactor, htells.hasAdded, hadded])
  rw [hreactor, htells.life_nil, hconnected] at hended
  cases hended

/-- The only step by which `Stop` comes to its end is the clean-up. -/
theorem System.Step.cleanup {s t : System} (hstep : System.Step s t)
    (hbefore : s.stopping ≠ .returned) (hafter : t.stopping = .returned) :
    ∃ env, t.reactor =
      { s.reactor with kernel := s.reactor.kernel.closeQueue }.cleanupAllConnections env := by
  cases hstep with
  | stopCleanup env => exact ⟨env, rfl⟩
  | stop => cases hafter
  | stopQueue => cases hafter
  | stopWake => cases hafter
  | _ => exact absurd hafter hbefore

/-- What is in the table when it is cleaned up is not announced as ended either. -/
theorem System.Abandons.breaksOff {s t : System} (habandons : s.Abandons t)
    (hstep : System.Step s t) (h : s.Tracked) : ¬t.AnnouncesEnds := by
  obtain ⟨hbefore, hafter, hne⟩ := habandons
  obtain ⟨env, hreactor⟩ := hstep.cleanup hbefore hafter
  obtain ⟨id, hmem⟩ : ∃ id, id ∈ s.reactor.connections := by
    by_contra hnone
    refine hne (Finmap.ext_lookup fun id => ?_)
    rw [Finmap.lookup_empty, Finmap.lookup_eq_none]
    exact fun hmem => hnone ⟨id, hmem⟩
  obtain ⟨hadded, hconnected⟩ := (h.stands id).table hmem
  have htells : Reactor.Tells id [] s.reactor t.reactor := by
    rw [hreactor]
    exact s.reactor.cleanupAllConnections_untold env
  intro hannounces
  have hout : id ∉ t.reactor.connections := by
    rw [hreactor]
    exact Finmap.notMem_empty
  have hended := hannounces id hout (by rw [htells.hasAdded, hadded])
  rw [htells.life_nil, hconnected] at hended
  cases hended

/-- In every state of a run, the end of each connection that has left the table has been told,
if and only if in no step of it a connection is removed on request and `Stop` finds none. -/
theorem reactors_announce_ends_iff {reactorId : ℤ} {states : List System}
    (hrun : (reactors reactorId .workerPool).Run states) :
    (∀ s ∈ states, s.AnnouncesEnds) ↔
      ∀ s t, [t, s] <:+: states → ¬s.RemovesSilently t ∧ ¬s.Abandons t := by
  refine hrun.invariant_iff_along ?_ (fun s t htracked hs hstep hgood => ?_)
    (fun s t htracked hs hstep ht => ?_) (reactors_tracked hrun)
  · rintro s ⟨timeout, rfl⟩ id - hadded
    cases hadded
  · have hmoves : Reactor.Moves (fun lapse => lapse ≠ .unannounced ∧ lapse ≠ .abandoned)
        s.reactor t.reactor :=
      System.Step.moves hstep htracked.atRest (fun hremoves => absurd hremoves hgood.1)
        (fun habandons => absurd habandons hgood.2) (fun _ => by simp) fun _ => by simp
    exact (hmoves.stands htracked.pool htracked.stands).2.2 (by simp) (by simp) hs
  · exact ⟨fun hremoves => hremoves.breaksOff htracked ht,
      fun habandons => habandons.breaksOff hstep htracked ht⟩

/-- The connection of the sample run is removed on request. -/
theorem reactors_announce_ends_removed : ∃ states, (reactors 0 .workerPool).Run states ∧
    ∃ s ∈ states, ¬s.AnnouncesEnds := by
  obtain ⟨⟨r, callers, loop, stopping, promise⟩, past, hrun, hsent, -, rfl⟩ := sample_run
  have hstate : sampleSent.map (fun r => (r.isRunning, r.queueStopped, r.pendingOperations,
      decide (sampleId ∈ r.connections))) = some (true, false, [], true) := by
    decide +kernel
  simp only [hsent, Option.map_some, Option.some.injEq, Prod.mk.injEq, decide_eq_true_eq] at hstate
  obtain ⟨hrunning, hqueue, hpending, hmem⟩ := hstate
  obtain ⟨r₁, hrequested, hsame⟩ : ∃ r₁,
      r.request promise (.removeConnection sampleId) = (some (.remove sampleId), r₁) ∧
      r₁.queueStopped = r.queueStopped ∧ r₁.pendingOperations = r.pendingOperations ∧
      r₁.connections = r.connections :=
    ⟨_, if_neg (not_not.mpr hrunning), rfl, rfl, rfl⟩
  have hopen : ¬r₁.queueStopped := by
    rw [hsame.1, hqueue]
    decide
  have hnext : (r₁.push (.remove sampleId)).pendingOperations = [.remove sampleId] := by
    rw [Reactor.push, hsame.2.1, hpending]
    rfl
  have hrequest := hrun.next (System.Step.request (.removeConnection sampleId) trivial hrequested)
  have hpush := hrequest.next (System.Step.enqueue (List.nil_append _).symm hopen)
  have hdone := hpush.next
    (System.Step.loop (Loop.Step.process sampleEnvironment (by decide) hnext rfl))
  have hiff := reactors_announce_ends_iff hdone
  by_contra hnone
  have hall := hiff.mp fun s hs => by
    by_contra hbreaks
    exact hnone ⟨_, hdone, s, hs, hbreaks⟩
  refine (hall _ _ (List.prefix_append [_, _] _).isInfix).1 ⟨sampleEnvironment, sampleId,
    ⟨.beforeEvents, 2, [], rfl, rfl, hnext, rfl⟩, ?_⟩
  change sampleId ∈ r₁.connections
  rw [hsame.2.2]
  exact hmem

end DarwinCore.Network
