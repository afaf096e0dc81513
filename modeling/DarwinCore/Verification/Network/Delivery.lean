import DarwinCore.Model.Network.Peers
import DarwinCore.Verification.Network.Frame

/-! # What a reactor does with the bytes it receives

Every byte that `recv` returns for a connection is dispatched, unless the worker pool refuses
it. What is lost when a connection ends is what was not read until then. -/

namespace DarwinCore.Network

open History Maps Relation Streams

/-! ## Reading the log -/

def NetworkEvent.payloadOf (id : UInt64) : NetworkEvent → List UInt8
  | data id' payload => if id' = id then payload else []
  | _ => []

def NetworkEvent.IsErrorOf (id : UInt64) : NetworkEvent → Prop
  | error id' _ _ => id' = id
  | _ => False

namespace Effect

def dispatchedFor (id : UInt64) : Effect → List UInt8
  | .dispatched event => event.payloadOf id
  | _ => []

/-- The bytes for `id` that the worker pool refuses. -/
def refusedFor (id : UInt64) : Effect → List UInt8
  | .refused event => event.payloadOf id
  | _ => []

/-- An error of the connection `id` is announced. -/
def ReportsError (id : UInt64) : Effect → Prop
  | .dispatched event => event.IsErrorOf id
  | .refused event => event.IsErrorOf id
  | _ => False

/-- The entry has no part in what is received and dispatched for `id` on `fd`. -/
structure Silent (id : UInt64) (fd : ℤ) (e : Effect) : Prop where
  opens : e.opens fd = false
  received : e.receivedOn fd = []
  adds : e.adds id = false
  dispatched : e.dispatchedFor id = []
  refused : e.refusedFor id = []

/-- The entry has no part in it for any connection. -/
def Moot : Effect → Prop
  | .opened _ => False
  | .added _ _ => False
  | .received _ _ => False
  | .dispatched event => ∀ id, event.payloadOf id = []
  | .refused event => ∀ id, event.payloadOf id = []
  | _ => True

variable {id : UInt64} {fd : ℤ} {e : Effect}

theorem Moot.silent (h : e.Moot) : e.Silent id fd := by
  cases e with
  | opened fd' => exact h.elim
  | added id' fd' => exact h.elim
  | received fd' data => exact h.elim
  | dispatched event => exact ⟨rfl, rfl, rfl, h id, rfl⟩
  | refused event => exact ⟨rfl, rfl, rfl, rfl, h id⟩
  | _ => exact ⟨rfl, rfl, rfl, rfl, rfl⟩

theorem payloadOf_of_ne {event : NetworkEvent} (h : event.connectionId ≠ id) :
    event.payloadOf id = [] := by
  cases event with
  | data id' payload => exact if_neg h
  | _ => rfl

end Effect

namespace Reactor

/-- The bytes received on `fd` since it was opened. -/
def got (r : Reactor) (fd : ℤ) : List UInt8 :=
  collect (Effect.receivedOn fd) (since (Effect.opens fd) r.log)

/-- The payloads of the `kData` events dispatched since a connection was added as `id`. -/
def delivered (r : Reactor) (id : UInt64) : List UInt8 :=
  collect (Effect.dispatchedFor id) (since (Effect.adds id) r.log)

/-- The payloads of the `kData` events that the worker pool has refused since then. -/
def lost (r : Reactor) (id : UInt64) : List UInt8 :=
  collect (Effect.refusedFor id) (since (Effect.adds id) r.log)

/-- What was received on `fd` was dispatched for `id`, or refused. -/
def Delivers (r : Reactor) (id : UInt64) (fd : ℤ) : Prop :=
  Shares (r.got fd) (r.delivered id) (r.lost id)

variable {may : Lapse → Prop} {r r' : Reactor} {id i : UInt64} {fd x : ℤ}
  {conn conn' : ReactorConnection}

theorem Grows.got {P : Effect → Prop} (hP : ∀ e, P e → e.Silent id fd) (h : Grows P r r') :
    r'.got fd = r.got fd :=
  Extends.collect_since (fun e he => ⟨(hP e he).opens, (hP e he).received⟩) h

theorem Grows.moot_got (h : Grows Effect.Moot r r') : r'.got fd = r.got fd :=
  h.got fun e (he : e.Moot) => (he.silent : e.Silent 0 fd)

theorem Grows.delivers {P : Effect → Prop} (hP : ∀ e, P e → e.Silent id fd) (h : Grows P r r')
    (hdelivers : r.Delivers id fd) : r'.Delivers id fd := by
  have hdelivered : r'.delivered id = r.delivered id :=
    Extends.collect_since (fun e he => ⟨(hP e he).adds, (hP e he).dispatched⟩) h
  have hlost : r'.lost id = r.lost id :=
    Extends.collect_since (fun e he => ⟨(hP e he).adds, (hP e he).refused⟩) h
  rw [Delivers, h.got hP, hdelivered, hlost]
  exact hdelivers

theorem concerns_silent {e : Effect} (h : Concerns id fd e) (hid : i ≠ id) (hfd : x ≠ fd) :
    e.Silent i x := by
  cases e with
  | received fd' data =>
    obtain rfl : fd' = fd := h
    exact ⟨rfl, if_neg (Ne.symm hfd), rfl, rfl, rfl⟩
  | dispatched event =>
    obtain rfl : event.connectionId = id := h
    exact ⟨rfl, rfl, rfl, Effect.payloadOf_of_ne (Ne.symm hid), rfl⟩
  | refused event =>
    obtain rfl : event.connectionId = id := h
    exact ⟨rfl, rfl, rfl, rfl, Effect.payloadOf_of_ne (Ne.symm hid)⟩
  | opened fd' => cases h
  | added id' fd' => cases h
  | _ => exact ⟨rfl, rfl, rfl, rfl, rfl⟩

/-! ## The moves of one connection -/

theorem dispatchEvent_moot (env : Environment) {event : NetworkEvent} (r : Reactor)
    (h : ∀ id, event.payloadOf id = []) : Grows Effect.Moot r (r.dispatchEvent env event) := by
  refine (dispatchEvent_grows env event r).mono fun e he => ?_
  rcases he with rfl | rfl <;> exact h

theorem Owns.remove_moot (h : r.Owns id fd conn) :
    Grows Effect.Moot r (r.doRemoveConnection id).2 := by
  rw [h.remove_eq]
  exact .cons rfl trivial

theorem Owns.close_moot (h : r.Owns id fd conn) (env : Environment) :
    Grows Effect.Moot r (r.handleConnectionClose env conn) := by
  rw [h.close_eq env]
  exact (dispatchEvent_moot env r fun _ => rfl).trans (h.dispatchEvent env _).remove_moot

theorem Owns.error_moot (h : r.Owns id fd conn) (env : Environment) (code : Errno) :
    Grows Effect.Moot r (r.handleConnectionError env conn code) := by
  rw [h.error_eq env code]
  exact ((dispatchEvent_moot env r fun _ => rfl).trans
    (dispatchEvent_moot env _ fun _ => rfl)).trans
      ((h.dispatchEvent env _).dispatchEvent env _).remove_moot

theorem account_cons {e : Effect} {received dispatched refused : List UInt8}
    (hlog : r'.log = e :: r.log) (hopens : e.opens fd = false) (hadds : e.adds id = false)
    (hreceived : e.receivedOn fd = received) (hdispatched : e.dispatchedFor id = dispatched)
    (hrefused : e.refusedFor id = refused) :
    r'.got fd = r.got fd ++ received ∧ r'.delivered id = r.delivered id ++ dispatched ∧
      r'.lost id = r.lost id ++ refused := by
  rw [got, delivered, lost, hlog, ← hreceived, ← hdispatched, ← hrefused]
  exact ⟨collect_since_unmarked hopens, collect_since_unmarked hadds,
    collect_since_unmarked hadds⟩

theorem Delivers.received (h : r.Delivers id fd) (env : Environment) (data : List UInt8)
    (hlog : r'.log = .received fd data :: r.log) (hreceiver : r'.receiver ≠ .nobody) :
    (r'.dispatchEvent env (.data id data)).Delivers id fd := by
  have hpayload : (NetworkEvent.data id data).payloadOf id = data := if_pos rfl
  have hreceived : r'.got fd = r.got fd ++ data ∧ r'.delivered id = r.delivered id ++ [] ∧
      r'.lost id = r.lost id ++ [] := account_cons hlog rfl rfl (if_pos rfl) rfl rfl
  simp only [List.append_nil] at hreceived
  obtain ⟨hgot, hdelivered, hlost⟩ := hreceived
  have hdispatched {r₁ : Reactor} (hgrown : r₁.log = .dispatched (.data id data) :: r'.log) :
      r₁.Delivers id fd := by
    have haccount : r₁.got fd = r'.got fd ++ [] ∧ r₁.delivered id = r'.delivered id ++ data ∧
        r₁.lost id = r'.lost id ++ [] := account_cons hgrown rfl rfl rfl hpayload rfl
    simp only [List.append_nil, hgot, hdelivered, hlost] at haccount
    rw [Delivers, haccount.1, haccount.2.1, haccount.2.2]
    exact h.keep data
  have hrefused {r₁ : Reactor} (hgrown : r₁.log = .refused (.data id data) :: r'.log) :
      r₁.Delivers id fd := by
    have haccount : r₁.got fd = r'.got fd ++ [] ∧ r₁.delivered id = r'.delivered id ++ [] ∧
        r₁.lost id = r'.lost id ++ data := account_cons hgrown rfl rfl rfl rfl hpayload
    simp only [List.append_nil, hgot, hdelivered, hlost] at haccount
    rw [Delivers, haccount.1, haccount.2.1, haccount.2.2]
    exact h.lose data
  rcases dispatchEvent_cases env (.data id data) r' with ⟨hnobody, -⟩ | hsent | hsent
  · exact absurd hnobody hreceiver
  · exact hsent ▸ hdispatched rfl
  · exact hsent ▸ hrefused rfl

theorem ConnMove.delivers (hmove : ConnMove may id fd r r') (hheard : ¬may .unheard)
    (h : r.Delivers id fd) : r'.Delivers id fd := by
  have hmoot {r₁ : Reactor} (hgrows : Grows Effect.Moot r r₁) : r₁.Delivers id fd :=
    hgrows.delivers (fun _ => Effect.Moot.silent) h
  cases hmove with
  | @settled r₁ conn conn' howns hkey hfd hvalid hmonitored =>
    have hgrows : Grows Effect.Moot r r₁ :=
      hmonitored.keeps (fun _ _ _ h => h.trans (.cons rfl trivial)) (.of_eq rfl)
    exact hmoot (hgrows.trans (.of_eq rfl))
  | tried => exact hmoot (.cons rfl trivial)
  | counted => exact hmoot (.cons rfl trivial)
  | uncounted => exact hmoot (.cons rfl trivial)
  | received env time data hdata howns hmay =>
    exact h.received env data rfl fun hnobody => hheard (hmay hnobody)
  | close env howns => exact hmoot (howns.close_moot env)
  | error env code howns => exact hmoot (howns.error_moot env code)

theorem ConnMoves.delivers (hmoves : ConnMoves may id fd r r') (hheard : ¬may .unheard)
    (h : r.Delivers id fd) : r'.Delivers id fd := by
  induction hmoves with
  | refl => exact h
  | tail _ hmove ih => exact hmove.delivers hheard ih

/-! ## All connections -/

/-- The accounts of the connections in the table are in order, and nothing was received on a
descriptor that no connection has yet. -/
structure Accounted (r : Reactor) : Prop where
  table : ∀ i c, r.connections.lookup i = some c → r.Delivers i c.fileDescriptor
  live : ∀ i c, r.connections.lookup i = some c → c.fileDescriptor ∈ r.kernel.openFds
  fresh : ∀ x ∈ r.kernel.openFds, r.Unowned x → r.got x = []

theorem Unowned.congr (h : r'.Unowned x) (hconnections : r'.connections = r.connections) :
    r.Unowned x := by
  rw [Unowned, ← hconnections]
  exact h

/-- The table is the same, and at most descriptors that no connection has are closed. -/
theorem Accounted.moot (h : r.Accounted) (hconnections : r'.connections = r.connections)
    (hgrows : Grows Effect.Moot r r')
    (hopen : ∀ x ∈ r'.kernel.openFds, x ∈ r.kernel.openFds)
    (hkept : ∀ x ∈ r.kernel.openFds, ¬r.Unowned x → x ∈ r'.kernel.openFds) : r'.Accounted where
  table i c hc := by
    rw [hconnections] at hc
    exact hgrows.delivers (fun _ => Effect.Moot.silent) (h.table i c hc)
  live i c hc := by
    rw [hconnections] at hc
    exact hkept _ (h.live i c hc) fun hfree => hfree i c hc rfl
  fresh x hx hfree := by
    rw [hgrows.moot_got]
    exact h.fresh x (hopen x hx) (hfree.congr hconnections)

theorem Accounted.same (h : r.Accounted) (hconnections : r'.connections = r.connections)
    (hopen : r'.kernel.openFds = r.kernel.openFds) (hgrows : Grows Effect.Moot r r') :
    r'.Accounted :=
  h.moot hconnections hgrows (fun _ hx => hopen ▸ hx) fun _ hx _ => hopen ▸ hx

theorem Accounted.opened (h : r.Accounted) (hfresh : fd ∉ r.kernel.openFds) :
    (r.accept fd).Accounted := by
  have hother {y : ℤ} (hne : y ≠ fd) (i : UInt64) : (Effect.opened fd).Silent i y :=
    ⟨decide_eq_false (Ne.symm hne), rfl, rfl, rfl, rfl⟩
  refine ⟨fun i c hc => ?_, fun i c hc => Finset.mem_insert_of_mem (h.live i c hc),
    fun y hy hfree => ?_⟩
  · have hne : c.fileDescriptor ≠ fd := fun heq => hfresh (heq ▸ h.live i c hc)
    have hgrows : Grows (· = .opened fd) r (r.accept fd) := .cons rfl rfl
    exact hgrows.delivers (fun e (he : e = .opened fd) => he ▸ hother hne i) (h.table i c hc)
  · rcases Finset.mem_insert.mp hy with rfl | hy
    · exact collect_since_marked (decide_eq_true rfl)
    · have hne : y ≠ fd := fun heq => hfresh (heq ▸ hy)
      have hgrows : Grows (· = .opened fd) r (r.accept fd) := .cons rfl rfl
      rw [hgrows.got fun e (he : e = .opened fd) => he ▸ hother hne 0]
      exact h.fresh y hy hfree

theorem Accounted.closeFd (h : r.Accounted) (hfree : r.Unowned fd) :
    (r.closeFd fd).Accounted := by
  refine h.moot rfl (.cons rfl trivial) (fun y hy => Finset.mem_of_mem_erase hy)
    fun y hy howned => ?_
  refine Finset.mem_erase_of_ne_of_mem (fun heq => howned ?_) hy
  rw [heq]
  exact hfree

/-- After a move the connection is on its descriptor, or the descriptor is closed. -/
theorem ConnMove.owns_or_closed (hmove : ConnMove may id fd r r') :
    (∃ conn, r'.Owns id fd conn) ∨ fd ∉ r'.kernel.openFds := by
  have hremoved {r₁ : Reactor} {conn : ReactorConnection} (h : r₁.Owns id fd conn) :
      fd ∉ (r₁.doRemoveConnection id).2.kernel.openFds := by
    rw [h.remove_eq]
    exact Finset.notMem_erase fd _
  cases hmove with
  | settled howns hkey hfd hvalid hmonitored =>
    exact .inl ⟨_, (howns.quiet hmonitored.quiet).store hkey hfd hvalid⟩
  | tried howns => exact .inl ⟨_, howns.congr rfl rfl⟩
  | counted data howns => exact .inl ⟨_, howns.congr rfl rfl⟩
  | uncounted data howns => exact .inl ⟨_, howns.congr rfl rfl⟩
  | @received conn env time data hdata howns =>
    have hstored : (r.store id { conn with lastActive := time }).Owns id fd _ :=
      howns.store howns.key howns.descriptor howns.valid
    refine .inl ⟨{ conn with lastActive := time }, Owns.dispatchEvent ?_ env _⟩
    exact hstored.congr rfl rfl
  | close env howns =>
    rw [howns.close_eq env]
    exact .inr (hremoved (howns.dispatchEvent env _))
  | error env code howns =>
    rw [howns.error_eq env code]
    exact .inr (hremoved ((howns.dispatchEvent env _).dispatchEvent env _))

/-- Away from the descriptor, the accounts are as before. -/
theorem Accounted.change {P : Effect → Prop} (h : r.Accounted) (howns : r.Owns id fd conn)
    (haway : Away fd r r') (hgrows : Grows P r r')
    (hP : ∀ e, P e → ∀ i x, i ≠ id → x ≠ fd → e.Silent i x)
    (hown : ∀ i c, r'.connections.lookup i = some c → c.fileDescriptor = fd →
      r'.Delivers i fd ∧ fd ∈ r'.kernel.openFds)
    (hfresh : fd ∈ r'.kernel.openFds → ¬r'.Unowned fd) : r'.Accounted := by
  have hid {i : UInt64} {c : ReactorConnection} (hc : r.connections.lookup i = some c)
      (hon : c.fileDescriptor ≠ fd) : i ≠ id := by
    rintro rfl
    obtain rfl := Option.some.inj (howns.lookup.symm.trans hc)
    exact hon howns.descriptor
  refine ⟨fun i c hc => ?_, fun i c hc => ?_, fun x hx hfree => ?_⟩
  · by_cases hon : c.fileDescriptor = fd
    · rw [hon]
      exact (hown i c hc hon).1
    · have hc' := (haway.connections i c hon).mp hc
      exact hgrows.delivers (fun e he => hP e he i _ (hid hc' hon) hon) (h.table i c hc')
  · by_cases hon : c.fileDescriptor = fd
    · rw [hon]
      exact (hown i c hc hon).2
    · have hc' := (haway.connections i c hon).mp hc
      exact (haway.openFds _ hon).mpr (h.live i c hc')
  · have hne : x ≠ fd := by
      rintro rfl
      exact hfresh hx hfree
    obtain ⟨i, hi⟩ : ∃ i : UInt64, i ≠ id := ⟨id + 1, by simp⟩
    rw [hgrows.got fun e he => hP e he i x hi hne]
    refine h.fresh x ((haway.openFds x hne).mp hx) fun i c hc hon => ?_
    exact hfree i c ((haway.connections i c (hon ▸ hne)).mpr hc) hon

theorem ConnMove.accounted (hmove : ConnMove may id fd r r') (hheard : ¬may .unheard)
    (hseparate : r.Separate) (h : r.Accounted) : r'.Accounted := by
  obtain ⟨conn, howns⟩ := hmove.owns
  have hdelivers : r'.Delivers id fd := by
    refine hmove.delivers hheard ?_
    rw [← howns.descriptor]
    exact h.table id conn howns.lookup
  have hseparate' := hmove.separate hseparate
  refine h.change howns hmove.away hmove.grows
    (fun e he i x hi hx => concerns_silent he hi hx) (fun i c hc hon => ?_) fun hopen hfree => ?_
  · rcases hmove.leaves_or_stays hseparate with hleft | ⟨-, conn', -, howns', -⟩
    · exact absurd hon (hleft i c hc)
    · rw [howns'.only hseparate' hc hon]
      exact ⟨hdelivers, howns'.isOpen⟩
  · rcases hmove.owns_or_closed with ⟨conn', howns'⟩ | hclosed
    · exact hfree id conn' howns'.lookup howns'.descriptor
    · exact hclosed hopen

theorem Accounted.removed (h : r.Accounted) (hseparate : r.Separate)
    (howns : r.Owns id fd conn) : (r.doRemoveConnection id).2.Accounted := by
  refine h.change howns howns.remove_away howns.remove_moot
    (fun e he i x _ _ => Effect.Moot.silent he) (fun i c hc hon => ?_) fun hopen => ?_
  · exact absurd hon (howns.remove_only hseparate hc)
  · rw [howns.remove_eq] at hopen
    exact absurd hopen (Finset.notMem_erase fd _)

theorem Accounted.dispatchEvent (h : r.Accounted) (env : Environment) {event : NetworkEvent}
    (hevent : ∀ i, event.payloadOf i = []) : (r.dispatchEvent env event).Accounted :=
  h.same (quiet_dispatchEvent env event r).connections (quiet_dispatchEvent env event r).openFds
    (dispatchEvent_moot env r hevent)

/-- The account of a new connection starts empty. -/
theorem Accounted.added (h : r.Accounted) (hopen : fd ∈ r.kernel.openFds)
    (hfree : r.Unowned fd) (hid : r.connections.lookup id = none)
    (hinsert : r'.connections = r.connections.insert id conn) (hfd : conn.fileDescriptor = fd)
    (hopenFds : r'.kernel.openFds = r.kernel.openFds) (hlog : r'.log = .added id fd :: r.log) :
    r'.Accounted := by
  have hgrows : Grows (· = .added id fd) r r' := .cons hlog rfl
  have hother {i : UInt64} (hne : i ≠ id) (x : ℤ) (e : Effect) (he : e = .added id fd) :
      e.Silent i x := he ▸ ⟨rfl, rfl, decide_eq_false (Ne.symm hne), rfl, rfl⟩
  have hgot (x : ℤ) : r'.got x = r.got x := by
    obtain ⟨i, hne⟩ : ∃ i : UInt64, i ≠ id := ⟨id + 1, by simp⟩
    exact hgrows.got (hother hne x)
  have hmark : (Effect.added id fd).adds id = true := decide_eq_true rfl
  refine ⟨fun i c hc => ?_, fun i c hc => ?_, fun x hx hfree' => ?_⟩
  · rw [hinsert] at hc
    rcases lookup_insert_eq_some.mp hc with ⟨rfl, rfl⟩ | ⟨hne, hc⟩
    · have hdelivered : r'.delivered i = [] := by
        rw [delivered, hlog]
        exact collect_since_marked hmark
      have hlost : r'.lost i = [] := by
        rw [lost, hlog]
        exact collect_since_marked hmark
      rw [Delivers, hfd, hgot, h.fresh fd hopen hfree, hdelivered, hlost]
      exact .nil
    · exact hgrows.delivers (hother hne _) (h.table i c hc)
  · rw [hinsert] at hc
    rw [hopenFds]
    rcases lookup_insert_eq_some.mp hc with ⟨rfl, rfl⟩ | ⟨-, hc⟩
    · rw [hfd]
      exact hopen
    · exact h.live i c hc
  · rw [hopenFds] at hx
    rw [hgot]
    refine h.fresh x hx fun i c hc hon => hfree' i c ?_ hon
    rw [hinsert]
    exact lookup_insert_eq_some.mpr (.inr ⟨ne_of_lookup hid hc, hc⟩)

theorem Accounted.register (h : r.Accounted) (env : Environment) (peer : SockAddr)
    (hopen : fd ∈ r.kernel.openFds) (hfree : r.Unowned fd)
    (hid : r.connections.lookup id = none) : (r.register env id fd peer).Accounted := by
  unfold Reactor.register
  refine Accounted.dispatchEvent ?_ env fun _ => rfl
  exact h.added hopen hfree hid rfl rfl rfl rfl

theorem AddCase.accounted {env : Environment} {peer : SockAddr} {result : UInt64 × Reactor}
    (hcase : AddCase env fd peer r result) (hopen : fd ∈ r.kernel.openFds)
    (hfree : r.Unowned fd) (h : r.Accounted) : result.2.Accounted := by
  have hseq := r.quiet_nextSeq
  have hmonitor := quiet_monitor env fd .addRead r.nextSeq.2
  have hdrawn : r.nextSeq.2.Accounted :=
    h.same hseq.connections hseq.openFds (.of_eq r.nextSeq_log)
  have hmonitored : (r.nextSeq.2.monitor env fd .addRead).2.Accounted :=
    hdrawn.same hmonitor.connections hmonitor.openFds (.cons rfl trivial)
  have hconnections := hmonitor.connections.trans hseq.connections
  cases hcase with
  | ignored => exact h
  | collided =>
    refine hdrawn.closeFd ?_
    rw [Unowned, hseq.connections]
    exact hfree
  | unmonitored =>
    refine hmonitored.closeFd ?_
    rw [Unowned, hconnections]
    exact hfree
  | added hrunning hid hfresh =>
    refine hmonitored.register env peer ?_ ?_ ?_
    · rw [hmonitor.openFds, hseq.openFds]
      exact hopen
    · rw [Unowned, hconnections]
      exact hfree
    · rw [hconnections]
      exact hfresh

theorem Move.accounted (hmove : Move may r r') (hheard : ¬may .unheard)
    (hseparate : r.Separate) (h : r.Accounted) : r'.Accounted := by
  cases hmove with
  | idle hidle => exact h.same hidle.connections hidle.openFds (.of_eq hidle.log)
  | took => exact h.same rfl rfl (.cons rfl trivial)
  | answered => exact h.same rfl rfl (.cons rfl trivial)
  | opened fd hpos hfresh => exact h.opened hfresh
  | closed fd hopen hfree => exact h.closeFd hfree
  | adding env fd peer hpos hopen hfree hcase =>
    exact hcase.accounted hopen hfree (h.same rfl rfl (.cons rfl trivial))
  | removed howns => exact h.removed hseparate howns
  | connection hconn => exact hconn.accounted hheard hseparate h
  | @cleaned env horder =>
    obtain ⟨hnodup, hall⟩ := horder
    refine Accounted.mk (fun i c hc => ?_) (fun i c hc => ?_) fun x hx _ => ?_
    · cases hc
    · cases hc
    · have hgrows : Grows Effect.Moot r
          (env.order.foldl closeOnly { r with kernel := r.kernel.closeQueue }) :=
        (closeAllOnly_grows env.order { r with kernel := r.kernel.closeQueue }).mono
          fun e ⟨_, _, _, he⟩ => he ▸ trivial
      obtain ⟨hopen, hclosed⟩ := (closeAllOnly_openFds env.order _ x).mp hx
      refine hgrows.moot_got.trans (h.fresh x hopen fun i c hc => ?_)
      exact hclosed i ((hall i).mpr (Finmap.mem_of_lookup_eq_some hc)) c hc

end Reactor

/-! ## Runs -/

/-- While there is somebody to receive the events, the accounts are in order. -/
theorem reactors_accounted {reactorId : ℤ} {receiver : Receiver} {states : List System}
    (hrun : (reactors reactorId receiver).Run states)
    (hreceiver : ∀ s ∈ states, s.reactor.receiver ≠ .nobody) :
    ∀ s ∈ states, s.AtRest ∧ s.reactor.Accounted := by
  refine hrun.invariant_of ?_ (fun s t h hheard (hstep : System.Step s t) => ?_) hreceiver
  · rintro s ⟨timeout, rfl⟩
    refine ⟨started_atRest reactorId receiver timeout, fun i c hc => ?_, fun i c hc => ?_,
      fun x hx => ?_⟩
    · cases hc
    · cases hc
    · exact absurd hx (Finset.notMem_empty x)
  · obtain ⟨hrest, haccounted⟩ := h
    have hmoves : Reactor.Moves (· ≠ .unheard) s.reactor t.reactor :=
      hstep.moves hrest (fun _ => by simp) (fun _ => by simp) (fun _ => by simp)
        fun hnobody => absurd hnobody hheard
    have hboth : t.reactor.Separate ∧ t.reactor.Accounted :=
      hmoves.rec ⟨hrest.tables.separate, haccounted⟩ fun _ hmove ih =>
        ⟨hmove.separate ih.1, hmove.accounted (by simp) ih.1 ih.2⟩
    exact ⟨hstep.atRest hrest, hboth.2⟩

end DarwinCore.Network
