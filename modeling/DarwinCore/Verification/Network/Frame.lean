import DarwinCore.Verification.Network.Steps

/-! # What the moves for one descriptor leave alone

The other connections stay as they are, the log grows, and no two connections come to share a
descriptor. -/

namespace DarwinCore.Network

open Maps Relation

namespace Reactor

/-- Nothing changes but the connection on `fd`, its entries in the tables and what the kernel
knows of `fd`. -/
structure Away (fd : ℤ) (r r' : Reactor) : Prop where
  connections : ∀ i c, c.fileDescriptor ≠ fd →
    (r'.connections.lookup i = some c ↔ r.connections.lookup i = some c)
  fds : ∀ x, x ≠ fd → r'.fdToConnectionId.lookup x = r.fdToConnectionId.lookup x
  openFds : ∀ x, x ≠ fd → (x ∈ r'.kernel.openFds ↔ x ∈ r.kernel.openFds)
  readFilters : ∀ x, x ≠ fd → (x ∈ r'.kernel.readFilters ↔ x ∈ r.kernel.readFilters)
  writeFilters : ∀ x, x ≠ fd → (x ∈ r'.kernel.writeFilters ↔ x ∈ r.kernel.writeFilters)

variable {may : Lapse → Prop} {r r' r'' : Reactor} {id : UInt64} {fd : ℤ}
  {conn conn' : ReactorConnection}

theorem Away.of_eq (hconnections : r'.connections = r.connections)
    (hfds : r'.fdToConnectionId = r.fdToConnectionId) (hopen : r'.kernel.openFds = r.kernel.openFds)
    (hread : r'.kernel.readFilters = r.kernel.readFilters)
    (hwrite : r'.kernel.writeFilters = r.kernel.writeFilters) : Away fd r r' := by
  refine ⟨fun _ _ _ => ?_, fun _ _ => ?_, fun _ _ => ?_, fun _ _ => ?_, fun _ _ => ?_⟩
  · rw [hconnections]
  · rw [hfds]
  · rw [hopen]
  · rw [hread]
  · rw [hwrite]

theorem Away.refl (r : Reactor) : Away fd r r :=
  .of_eq rfl rfl rfl rfl rfl

theorem Away.trans (h : Away fd r r') (h' : Away fd r' r'') : Away fd r r'' where
  connections i c hc := (h'.connections i c hc).trans (h.connections i c hc)
  fds x hx := (h'.fds x hx).trans (h.fds x hx)
  openFds x hx := (h'.openFds x hx).trans (h.openFds x hx)
  readFilters x hx := (h'.readFilters x hx).trans (h.readFilters x hx)
  writeFilters x hx := (h'.writeFilters x hx).trans (h.writeFilters x hx)

theorem dispatchEvent_away (env : Environment) (event : NetworkEvent) (r : Reactor) :
    Away fd r (r.dispatchEvent env event) := by
  rcases dispatchEvent_cases env event r with ⟨-, h⟩ | h | h <;> rw [h]
  · exact .refl r
  · exact .of_eq rfl rfl rfl rfl rfl
  · exact .of_eq rfl rfl rfl rfl rfl

theorem monitor_away (env : Environment) (change : Change) (r : Reactor) :
    Away fd r (r.monitor env fd change).2 := by
  have hsame := quiet_monitor env fd change r
  refine ⟨fun i c _ => by rw [hsame.connections], fun x _ => by rw [hsame.fds],
    fun x _ => by rw [hsame.openFds], fun x hx => ?_, fun x hx => ?_⟩
  · rcases monitor_kernel_or env fd change r with h | h <;> rw [h]
    cases change <;> simp [Kernel.apply, hx]
  · rcases monitor_kernel_or env fd change r with h | h <;> rw [h]
    cases change <;> simp [Kernel.apply, hx]

theorem Monitored.away (h : Monitored fd r r') : Away fd r r' :=
  h.keeps (fun r env change h => h.trans (monitor_away env change r)) (.refl r)

theorem Owns.store_away (h : r.Owns id fd conn) (hfd : conn'.fileDescriptor = fd) :
    Away fd r (r.store id conn') := by
  refine ⟨fun i c hc => ?_, fun _ _ => rfl, fun _ _ => .rfl, fun _ _ => .rfl, fun _ _ => .rfl⟩
  refine lookup_insert_eq_some.trans ⟨?_, fun hlook => .inr ⟨?_, hlook⟩⟩
  · rintro (⟨-, rfl⟩ | ⟨-, hlook⟩)
    · exact absurd hfd hc
    · exact hlook
  · rintro rfl
    obtain rfl := Option.some.inj (h.lookup.symm.trans hlook)
    exact hc h.descriptor

theorem closeFd_away (fd : ℤ) (r : Reactor) : Away fd r (r.closeFd fd) := by
  refine ⟨fun _ _ _ => .rfl, fun _ _ => rfl, fun x hx => ?_, fun x hx => ?_, fun x hx => ?_⟩
  all_goals simp [closeFd, Kernel.close, hx]

theorem Owns.remove_away (h : r.Owns id fd conn) : Away fd r (r.doRemoveConnection id).2 := by
  have hclosed := closeFd_away fd r
  rw [h.remove_eq]
  refine ⟨fun i c hc => ?_, fun x hx => Finmap.lookup_erase_ne hx, hclosed.openFds,
    hclosed.readFilters, hclosed.writeFilters⟩
  refine lookup_erase_eq_some.trans ⟨And.right, fun hlook => ⟨?_, hlook⟩⟩
  rintro rfl
  obtain rfl := Option.some.inj (h.lookup.symm.trans hlook)
  exact hc h.descriptor

theorem ConnMove.away (h : ConnMove may id fd r r') : Away fd r r' := by
  cases h with
  | @settled r₁ conn conn' howns hkey hfd hvalid hmonitored =>
    exact hmonitored.away.trans ((howns.quiet hmonitored.quiet).store_away hfd)
  | tried => exact .of_eq rfl rfl rfl rfl rfl
  | counted => exact .of_eq rfl rfl rfl rfl rfl
  | uncounted => exact .of_eq rfl rfl rfl rfl rfl
  | @received conn env time data hdata howns =>
    have hstored : Away fd r (r.store id { conn with lastActive := time }) :=
      howns.store_away howns.descriptor
    refine (hstored.trans ?_).trans (dispatchEvent_away env _ _)
    exact .of_eq rfl rfl rfl rfl rfl
  | close env howns =>
    rw [howns.close_eq env]
    exact (dispatchEvent_away env _ r).trans (howns.dispatchEvent env _).remove_away
  | error env code howns =>
    rw [howns.error_eq env code]
    exact ((dispatchEvent_away env _ r).trans (dispatchEvent_away env _ _)).trans
      ((howns.dispatchEvent env _).dispatchEvent env _).remove_away

theorem ConnMoves.away (h : ConnMoves may id fd r r') : Away fd r r' := by
  induction h with
  | refl => exact .refl r
  | tail _ hmove ih => exact ih.trans hmove.away

theorem ConnMove.owns (h : ConnMove may id fd r r') : ∃ conn, r.Owns id fd conn := by
  cases h with
  | settled howns => exact ⟨_, howns⟩
  | tried howns => exact ⟨_, howns⟩
  | counted data howns => exact ⟨_, howns⟩
  | uncounted data howns => exact ⟨_, howns⟩
  | received env time data hdata howns => exact ⟨_, howns⟩
  | close env howns => exact ⟨_, howns⟩
  | error env code howns => exact ⟨_, howns⟩

theorem ConnMoves.away_of_lookup (h : ConnMoves may id fd r r')
    (hc : r.connections.lookup id = some conn) : Away conn.fileDescriptor r r' := by
  rcases h.cases_head with rfl | ⟨_, hmove, -⟩
  · exact .refl r
  · obtain ⟨conn', howns⟩ := hmove.owns
    obtain rfl := Option.some.inj (hc.symm.trans howns.lookup)
    rw [howns.descriptor]
    exact h.away

theorem nextSeq_away (r : Reactor) : Away fd r r.nextSeq.2 := by
  unfold nextSeq
  split <;> exact .of_eq rfl rfl rfl rfl rfl

theorem AddCase.away {env : Environment} {peer : SockAddr} {result : UInt64 × Reactor}
    (h : AddCase env fd peer r result) : Away fd r result.2 := by
  have hmonitored : Away fd r (r.nextSeq.2.monitor env fd .addRead).2 :=
    r.nextSeq_away.trans (monitor_away env .addRead _)
  cases h with
  | ignored => exact .refl r
  | collided => exact r.nextSeq_away.trans (closeFd_away fd _)
  | unmonitored => exact hmonitored.trans (closeFd_away fd _)
  | @added id hrunning hid hfresh =>
    refine (hmonitored.trans ?_).trans (dispatchEvent_away env _ _)
    have hnone : (r.nextSeq.2.monitor env fd .addRead).2.connections.lookup id = none := by
      rw [(quiet_monitor env fd .addRead _).connections, r.quiet_nextSeq.connections]
      exact hfresh
    refine ⟨fun i c hc => ?_, fun x hx => Finmap.lookup_insert_of_ne _ hx, fun _ _ => .rfl,
      fun _ _ => .rfl, fun _ _ => .rfl⟩
    refine lookup_insert_eq_some.trans ⟨?_, fun hlook => .inr ⟨ne_of_lookup hnone hlook, hlook⟩⟩
    rintro (⟨-, rfl⟩ | ⟨-, hlook⟩)
    · exact absurd rfl hc
    · exact hlook

/-! ## The log -/

/-- The log has grown by entries of one kind. -/
def Grows (P : Effect → Prop) (r r' : Reactor) : Prop :=
  History.Extends P r.log r'.log

section Grows

variable {P Q : Effect → Prop}

theorem Grows.of_eq (h : r'.log = r.log) : Grows P r r' :=
  History.Extends.of_eq h

theorem Grows.cons {e : Effect} (h : r'.log = e :: r.log) (he : P e) : Grows P r r' :=
  History.Extends.cons h he

theorem Grows.trans (h : Grows P r r') (h' : Grows P r' r'') : Grows P r r'' :=
  History.Extends.trans h h'

theorem Grows.mono (hPQ : ∀ e, P e → Q e) (h : Grows P r r') : Grows Q r r' :=
  History.Extends.mono hPQ h

theorem Grows.suffix (h : Grows P r r') : r.log <:+ r'.log :=
  History.Extends.suffix h

end Grows

/-- The entries made on behalf of the connection `id` on `fd` while it is in the table. -/
def Concerns (id : UInt64) (fd : ℤ) : Effect → Prop
  | .closed fd' => fd' = fd
  | .sent fd' _ => fd' = fd
  | .received fd' _ => fd' = fd
  | .kevent fd' _ _ => fd' = fd
  | .dispatched event => event.connectionId = id
  | .refused event => event.connectionId = id
  | _ => False

theorem dispatchEvent_grows (env : Environment) (event : NetworkEvent) (r : Reactor) :
    Grows (fun e => e = .dispatched event ∨ e = .refused event) r (r.dispatchEvent env event) := by
  rcases dispatchEvent_cases env event r with ⟨-, h⟩ | h | h <;> rw [h]
  · exact .of_eq rfl
  · exact .cons rfl (.inl rfl)
  · exact .cons rfl (.inr rfl)

theorem dispatchEvent_concerns (env : Environment) (event : NetworkEvent) (r : Reactor)
    (h : event.connectionId = id) : Grows (Concerns id fd) r (r.dispatchEvent env event) := by
  refine (dispatchEvent_grows env event r).mono fun e he => ?_
  rcases he with rfl | rfl <;> exact h

theorem Owns.remove_grows (h : r.Owns id fd conn) :
    Grows (Concerns id fd) r (r.doRemoveConnection id).2 := by
  rw [h.remove_eq]
  exact .cons rfl rfl

theorem Monitored.grows (h : Monitored fd r r') : Grows (Concerns id fd) r r' := by
  induction h with
  | refl => exact .of_eq rfl
  | tail _ hcalled ih =>
    obtain ⟨env, change, rfl⟩ := hcalled
    exact ih.trans (.cons rfl rfl)

theorem ConnMove.grows (h : ConnMove may id fd r r') : Grows (Concerns id fd) r r' := by
  cases h with
  | settled howns hkey hfd hvalid hmonitored => exact hmonitored.grows
  | tried => exact .cons rfl rfl
  | counted => exact .cons rfl rfl
  | uncounted => exact .cons rfl rfl
  | received env time data =>
    refine Grows.trans ?_ (dispatchEvent_concerns env _ _ rfl)
    exact .cons rfl rfl
  | close env howns =>
    rw [howns.close_eq env]
    exact (dispatchEvent_concerns env (.disconnected id) r rfl).trans
      (howns.dispatchEvent env _).remove_grows
  | error env code howns =>
    rw [howns.error_eq env code]
    exact ((dispatchEvent_concerns env (.error id (mapErrnoToNetworkError code) code) r rfl).trans
      (dispatchEvent_concerns env (.disconnected id) _ rfl)).trans
        ((howns.dispatchEvent env _).dispatchEvent env _).remove_grows

theorem ConnMoves.grows (h : ConnMoves may id fd r r') : Grows (Concerns id fd) r r' := by
  induction h with
  | refl => exact .of_eq rfl
  | tail _ hmove ih => exact ih.trans hmove.grows

theorem nextSeq_log (r : Reactor) : r.nextSeq.2.log = r.log := by
  unfold nextSeq
  split <;> rfl

/-- The entries made when the descriptor `fd` is added, as the connection `id` or in vain. -/
def Admits (id : UInt64) (fd : ℤ) : Effect → Prop
  | .closed fd' => fd' = fd
  | .kevent fd' _ _ => fd' = fd
  | .added id' fd' => id' = id ∧ fd' = fd
  | .dispatched event => event.connectionId = id
  | .refused event => event.connectionId = id
  | _ => False

theorem register_grows (env : Environment) (peer : SockAddr) (r : Reactor) :
    Grows (Admits id fd) r (r.register env id fd peer) := by
  refine Grows.trans ?_ ((dispatchEvent_grows env (.connected id peer) _).mono fun e he => ?_)
  · have hadded : Admits id fd (.added id fd) := ⟨rfl, rfl⟩
    exact .cons rfl hadded
  · rcases he with rfl | rfl <;> rfl

theorem AddCase.grows {env : Environment} {peer : SockAddr} {result : UInt64 × Reactor}
    (h : AddCase env fd peer r result) : Grows (Admits result.1 fd) r result.2 := by
  have hseq {id : UInt64} : Grows (Admits id fd) r r.nextSeq.2 := .of_eq r.nextSeq_log
  have hmonitored {id : UInt64} :
      Grows (Admits id fd) r (r.nextSeq.2.monitor env fd .addRead).2 :=
    hseq.trans (.cons rfl rfl)
  cases h with
  | ignored => exact .of_eq rfl
  | collided => exact hseq.trans (.cons rfl rfl)
  | unmonitored => exact hmonitored.trans (.cons rfl rfl)
  | added => exact hmonitored.trans (register_grows env peer _)

theorem closeAllOnly_grows (ids : List UInt64) (r : Reactor) :
    Grows (fun e => ∃ i c, r.connections.lookup i = some c ∧ e = .closed c.fileDescriptor) r
      (ids.foldl closeOnly r) := by
  induction ids generalizing r with
  | nil => exact .of_eq rfl
  | cons id ids ih =>
    have hsame := (closeOnly_onlyCloses r id).connections
    have hrest := ih (closeOnly r id)
    rw [hsame] at hrest
    refine Grows.trans ?_ hrest
    unfold closeOnly
    split
    · exact .of_eq rfl
    · rename_i conn hc
      exact .cons rfl ⟨id, conn, hc, rfl⟩

theorem closeAllOnly_openFds (ids : List UInt64) (r : Reactor) (x : ℤ) :
    x ∈ (ids.foldl closeOnly r).kernel.openFds ↔ x ∈ r.kernel.openFds ∧
      ∀ i ∈ ids, ∀ c, r.connections.lookup i = some c → c.fileDescriptor ≠ x := by
  induction ids generalizing r with
  | nil => simp
  | cons id ids ih =>
    have hsame := (closeOnly_onlyCloses r id).connections
    have hone : x ∈ (closeOnly r id).kernel.openFds ↔ x ∈ r.kernel.openFds ∧
        ∀ c, r.connections.lookup id = some c → c.fileDescriptor ≠ x := by
      unfold closeOnly
      cases hc : r.connections.lookup id with
      | none => simp
      | some conn => simp [closeFd, Kernel.close, and_comm, eq_comm]
    rw [List.foldl_cons, ih, hone, hsame, List.forall_mem_cons, and_assoc]

theorem Move.log (h : Move may r r') : r.log <:+ r'.log := by
  cases h with
  | idle hidle => rw [hidle.log]
  | took => exact List.suffix_cons _ _
  | answered => exact List.suffix_cons _ _
  | opened => exact List.suffix_cons _ _
  | closed => exact List.suffix_cons _ _
  | adding env fd peer hpos hopen hfree hcase =>
    refine List.IsSuffix.trans ?_ hcase.grows.suffix
    exact List.suffix_cons _ _
  | removed howns => exact howns.remove_grows.suffix
  | connection hconn => exact hconn.grows.suffix
  | cleaned env =>
    exact (closeAllOnly_grows env.order { r with kernel := r.kernel.closeQueue }).suffix

/-! ## The receiver -/

theorem doRemoveConnection_receiver (id : UInt64) (r : Reactor) :
    (r.doRemoveConnection id).2.receiver = r.receiver := by
  unfold doRemoveConnection
  split <;> rfl

theorem ConnMove.receiver_eq (h : ConnMove may id fd r r') : r'.receiver = r.receiver := by
  cases h with
  | @settled r₁ conn conn' howns hkey hfd hvalid hmonitored =>
    have hsame : r₁.receiver = r.receiver :=
      hmonitored.keeps (P := fun r₁ => r₁.receiver = r.receiver) (fun _ _ _ hsame => hsame) rfl
    exact hsame
  | received env time data => exact dispatchEvent_receiver env (.data id data) _
  | close env => exact (doRemoveConnection_receiver _ _).trans (dispatchEvent_receiver env _ r)
  | error env code =>
    exact (doRemoveConnection_receiver _ _).trans
      ((dispatchEvent_receiver env _ _).trans (dispatchEvent_receiver env _ r))
  | _ => rfl

theorem nextSeq_receiver (r : Reactor) : r.nextSeq.2.receiver = r.receiver := by
  unfold nextSeq
  split <;> rfl

theorem AddCase.receiver_eq {env : Environment} {peer : SockAddr} {result : UInt64 × Reactor}
    (h : AddCase env fd peer r result) : result.2.receiver = r.receiver := by
  cases h with
  | ignored => rfl
  | collided => exact r.nextSeq_receiver
  | unmonitored => exact r.nextSeq_receiver
  | @added id => exact (dispatchEvent_receiver env (.connected id peer) _).trans r.nextSeq_receiver

theorem closeAllOnly_receiver (ids : List UInt64) (r : Reactor) :
    (ids.foldl closeOnly r).receiver = r.receiver := by
  induction ids generalizing r with
  | nil => rfl
  | cons id ids ih =>
    refine (ih (closeOnly r id)).trans ?_
    unfold closeOnly
    split <;> rfl

theorem Move.workerPool (h : Move may r r') (hpool : r.receiver = .workerPool) :
    r'.receiver = .workerPool := by
  cases h with
  | idle hidle => exact hidle.receiver hpool
  | adding env fd peer hpos hopen hfree hcase => exact hcase.receiver_eq.trans hpool
  | removed => exact (doRemoveConnection_receiver _ r).trans hpool
  | connection hconn => exact hconn.receiver_eq.trans hpool
  | cleaned env =>
    exact (closeAllOnly_receiver env.order { r with kernel := r.kernel.closeQueue }).trans hpool
  | _ => exact hpool

/-! ## One connection on a descriptor -/

def Separate (r : Reactor) : Prop :=
  ∀ i i' c c', r.connections.lookup i = some c → r.connections.lookup i' = some c' →
    c'.fileDescriptor = c.fileDescriptor → i' = i

theorem Tables.separate {held : List Operation} (h : r.Tables held) : r.Separate :=
  fun _ _ _ _ hc hc' hfd => h.eq_of_fd hc hc' hfd

theorem Separate.congr (h : r.Separate) (hconnections : r'.connections = r.connections) :
    r'.Separate := by
  rw [Separate, hconnections]
  exact h

theorem Owns.only (h : r.Owns id fd conn) (hseparate : r.Separate) {i : UInt64}
    {c : ReactorConnection} (hc : r.connections.lookup i = some c) (hon : c.fileDescriptor = fd) :
    i = id :=
  hseparate id i conn c h.lookup hc (hon.trans h.descriptor.symm)

/-- Away from `fd` nothing has changed, so that only the connections on it count. -/
theorem Separate.change (h : r.Separate) (id : UInt64) (haway : Away fd r r')
    (hone : ∀ i c, r'.connections.lookup i = some c → c.fileDescriptor = fd → i = id) :
    r'.Separate := by
  intro i i' c c' hc hc' hsame
  by_cases hfd : c.fileDescriptor = fd
  · rw [hone i c hc hfd, hone i' c' hc' (hsame.trans hfd)]
  · have hfd' : c'.fileDescriptor ≠ fd := fun heq => hfd (hsame.symm.trans heq)
    exact h i i' c c' ((haway.connections i c hfd).mp hc) ((haway.connections i' c' hfd').mp hc')
      hsame

/-- The connections of `r'` are among those of `r`, as far as their ids and descriptors go. -/
theorem Owns.store_only (h : r.Owns id fd conn) (hseparate : r.Separate) {i : UInt64}
    {c : ReactorConnection} (hc : (r.connections.insert id conn').lookup i = some c)
    (hon : c.fileDescriptor = fd) : i = id := by
  rcases lookup_insert_eq_some.mp hc with ⟨rfl, -⟩ | ⟨-, hc⟩
  · rfl
  · exact h.only hseparate hc hon

theorem Owns.remove_only (h : r.Owns id fd conn) (hseparate : r.Separate) {i : UInt64}
    {c : ReactorConnection} (hc : (r.doRemoveConnection id).2.connections.lookup i = some c) :
    c.fileDescriptor ≠ fd := by
  rw [h.remove_eq] at hc
  obtain ⟨hne, hc⟩ := lookup_erase_eq_some.mp hc
  exact fun hon => hne (h.only hseparate hc hon)

theorem Separate.remove (h : r.Separate) (howns : r.Owns id fd conn) :
    (r.doRemoveConnection id).2.Separate :=
  h.change id howns.remove_away fun _ _ hc hon => absurd hon (howns.remove_only h hc)

theorem Separate.dispatchEvent (h : r.Separate) (env : Environment) (event : NetworkEvent) :
    (r.dispatchEvent env event).Separate :=
  h.congr (quiet_dispatchEvent env event r).connections

theorem ConnMove.separate (hmove : ConnMove may id fd r r') (h : r.Separate) : r'.Separate := by
  cases hmove with
  | @settled r₁ conn conn' howns hkey hfd hvalid hmonitored =>
    have hown := howns.quiet hmonitored.quiet
    have hsame : r₁.Separate := h.congr hmonitored.quiet.connections
    exact hsame.change id (hown.store_away hfd) fun _ _ hc hon => hown.store_only hsame hc hon
  | @received conn env time data hdata howns =>
    have haway : Away fd r (r.store id { conn with lastActive := time }) :=
      howns.store_away howns.descriptor
    have hstored : (r.store id { conn with lastActive := time }).Separate :=
      h.change id haway fun _ _ hc hon => howns.store_only h hc hon
    refine Separate.dispatchEvent ?_ env _
    exact hstored
  | close env howns =>
    rw [howns.close_eq env]
    exact (h.dispatchEvent env _).remove (howns.dispatchEvent env _)
  | error env code howns =>
    rw [howns.error_eq env code]
    exact ((h.dispatchEvent env _).dispatchEvent env _).remove
      ((howns.dispatchEvent env _).dispatchEvent env _)
  | _ => exact h

theorem register_connections (id : UInt64) (fd : ℤ) (env : Environment) (peer : SockAddr)
    (r : Reactor) : ∃ conn : ReactorConnection,
      (r.register env id fd peer).connections = r.connections.insert id conn ∧
      conn.fileDescriptor = fd ∧ conn.sendBuffer = .fresh ∧ conn.readPaused = false ∧
      conn.writePending = false :=
  ⟨_, (quiet_dispatchEvent env _ _).connections, rfl, rfl, rfl, rfl⟩

theorem dispatchEvent_not_closed (env : Environment) (event : NetworkEvent) (r : Reactor)
    (h : event.connectionId = id) :
    Grows (fun e => Concerns id fd e ∧ e ≠ .closed fd) r (r.dispatchEvent env event) := by
  refine (dispatchEvent_grows env event r).mono fun e he => ?_
  rcases he with rfl | rfl <;> exact ⟨h, by simp⟩

/-- Either no connection is left on the descriptor, or the connection is still there and its
descriptor has not been closed. -/
theorem ConnMove.leaves_or_stays (h : ConnMove may id fd r r') (hseparate : r.Separate) :
    (∀ i c, r'.connections.lookup i = some c → c.fileDescriptor ≠ fd) ∨
      ∃ conn conn', r.Owns id fd conn ∧ r'.Owns id fd conn' ∧
        Grows (fun e => Concerns id fd e ∧ e ≠ .closed fd) r r' := by
  cases h with
  | @settled r₁ conn conn' howns hkey hfd hvalid hmonitored =>
    refine .inr ⟨conn, conn', howns, (howns.quiet hmonitored.quiet).store hkey hfd hvalid, ?_⟩
    have hgrows : Grows (fun e => Concerns id fd e ∧ e ≠ .closed fd) r r₁ :=
      hmonitored.keeps (fun _ _ _ h => h.trans (.cons rfl ⟨rfl, by simp⟩)) (.of_eq rfl)
    exact hgrows.trans (.of_eq rfl)
  | @tried conn howns =>
    exact .inr ⟨conn, conn, howns, howns.congr rfl rfl, .cons rfl ⟨rfl, by simp⟩⟩
  | @counted conn data howns =>
    exact .inr ⟨conn, conn, howns, howns.congr rfl rfl, .cons rfl ⟨rfl, by simp⟩⟩
  | @uncounted conn data howns =>
    exact .inr ⟨conn, conn, howns, howns.congr rfl rfl, .cons rfl ⟨rfl, by simp⟩⟩
  | @received conn env time data hdata howns =>
    have hstored : (r.store id { conn with lastActive := time }).Owns id fd _ :=
      howns.store howns.key howns.descriptor howns.valid
    refine .inr ⟨conn, { conn with lastActive := time }, howns, Owns.dispatchEvent ?_ env _, ?_⟩
    · exact hstored.congr rfl rfl
    · refine Grows.trans ?_ (dispatchEvent_not_closed env (.data id data) _ rfl)
      exact .cons rfl ⟨rfl, by simp⟩
  | close env howns =>
    rw [howns.close_eq env]
    exact .inl fun _ _ hc => (howns.dispatchEvent env _).remove_only
      (hseparate.dispatchEvent env _) hc
  | error env code howns =>
    rw [howns.error_eq env code]
    exact .inl fun _ _ hc => ((howns.dispatchEvent env _).dispatchEvent env _).remove_only
      ((hseparate.dispatchEvent env _).dispatchEvent env _) hc

theorem AddCase.connections {env : Environment} {peer : SockAddr} {result : UInt64 × Reactor}
    (h : AddCase env fd peer r result) :
    result.2.connections = r.connections ∨ ∃ conn, r.connections.lookup result.1 = none ∧
      result.2.connections = r.connections.insert result.1 conn ∧ conn.fileDescriptor = fd := by
  have hmonitored := (quiet_monitor env fd .addRead r.nextSeq.2).connections.trans
    r.quiet_nextSeq.connections
  cases h with
  | ignored => exact .inl rfl
  | collided => exact .inl r.quiet_nextSeq.connections
  | unmonitored => exact .inl hmonitored
  | @added id hrunning hid hfresh =>
    obtain ⟨conn, hinsert, hfd, -⟩ :=
      register_connections id fd env peer (r.nextSeq.2.monitor env fd .addRead).2
    exact .inr ⟨conn, hfresh, by rw [hinsert, hmonitored], hfd⟩

theorem AddCase.separate {env : Environment} {peer : SockAddr} {result : UInt64 × Reactor}
    (hcase : AddCase env fd peer r result) (hfree : r.Unowned fd) (h : r.Separate) :
    result.2.Separate := by
  rcases hcase.connections with hsame | ⟨conn, hnone, hinsert, hfd⟩
  · exact h.congr hsame
  · refine h.change result.1 hcase.away fun i c hc hon => ?_
    rw [hinsert] at hc
    rcases lookup_insert_eq_some.mp hc with ⟨rfl, -⟩ | ⟨-, hc⟩
    · rfl
    · exact absurd hon (hfree i c hc)

theorem Move.separate (hmove : Move may r r') (h : r.Separate) : r'.Separate := by
  cases hmove with
  | idle hidle => exact h.congr hidle.connections
  | adding env fd peer hpos hopen hfree hcase => exact hcase.separate hfree h
  | removed howns => exact h.remove howns
  | connection hconn => exact hconn.separate h
  | cleaned => exact fun _ _ _ _ hc => by cases hc
  | _ => exact h

end Reactor

/-- Whatever each move keeps while no two connections share a descriptor holds of the reactor
in every state of every run. -/
theorem reactors_invariant {reactorId : ℤ} {receiver : Receiver} {P : Reactor → Prop}
    (hstart : ∀ timeout, P (Reactor.started reactorId receiver timeout))
    (hmove : ∀ r r', r.Separate → P r → Reactor.Move (fun _ => True) r r' → P r')
    {states : List System} (hrun : (reactors reactorId receiver).Run states) :
    ∀ s ∈ states, s.reactor.Separate ∧ P s.reactor := by
  refine reactors_moves (P := fun r => r.Separate ∧ P r) (fun timeout => ⟨?_, hstart timeout⟩)
    (fun r r' h hstep => ⟨hstep.separate h.1, hmove r r' h.1 h.2 hstep⟩) hrun
  intro _ _ _ _ hc
  cases hc

theorem reactors_workerPool {reactorId : ℤ} {states : List System}
    (hrun : (reactors reactorId .workerPool).Run states) :
    ∀ s ∈ states, s.reactor.receiver = .workerPool :=
  reactors_moves (fun _ => rfl) (fun _ _ hpool hmove => hmove.workerPool hpool) hrun

end DarwinCore.Network
