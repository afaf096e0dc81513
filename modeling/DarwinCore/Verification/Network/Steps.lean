import DarwinCore.Verification.Network.Moves

/-! # The moves of a step

What the threads do between two points of interleaving, as moves of the reactor. -/

namespace DarwinCore.Network

open Relation

namespace System

/-- The loop takes `op` from the queue and processes it. -/
def Processes (s t : System) (env : Environment) (op : Operation) : Prop :=
  ∃ which processed rest, s.loop = .draining which processed ∧
    t.loop = .draining which (processed + 1) ∧ s.reactor.pendingOperations = op :: rest ∧
    (s.reactor.dequeue op rest).processOperation env op = some t.reactor

def RemovesSilently (s t : System) : Prop :=
  ∃ env id, s.Processes t env (.remove id) ∧ id ∈ s.reactor.connections

/-- `Stop` still finds connections. -/
def Abandons (s t : System) : Prop :=
  s.stopping ≠ .returned ∧ t.stopping = .returned ∧ s.reactor.connections ≠ ∅

/-- The kernel takes some of what a direct send offers, and leaves some. -/
def SendsShort (s t : System) : Prop :=
  ∃ env id data conn, s.Processes t env (.send id data) ∧
    s.reactor.connections.lookup id = some conn ∧ conn.sendBuffer.isEmpty = true ∧
    0 < (env.send (s.reactor.log.length + 1) data.length).taken ∧
    (env.send (s.reactor.log.length + 1) data.length).taken < data.length

end System

namespace Reactor

variable {may : Lapse → Prop} {held : List Operation} {r r' : Reactor}

/-! ## Operations -/

theorem Tables.dequeue {op : Operation} {rest : List Operation} (h : r.Tables held)
    (hqueue : r.pendingOperations = op :: rest) : (r.dequeue op rest).Tables (op :: held) := by
  refine h.transfer rfl rfl rfl ?_
  rw [ahead, hqueue]
  exact List.perm_middle

/-- The descriptor of an operation that adds a connection is open, and nobody has it. -/
theorem Tables.unowned {fd : ℤ} {peer : SockAddr} (h : r.Tables (.add fd peer :: held)) :
    0 ≤ fd ∧ fd ∈ r.kernel.openFds ∧ r.Unowned fd := by
  obtain ⟨hpos, hopen, -, htable, -⟩ := h.newFd_fresh
  exact ⟨hpos, hopen, htable⟩

theorem AtRest.processOperation_moves (env : Environment) {op : Operation}
    {rest : List Operation} (h : r.AtRest held) (hqueue : r.pendingOperations = op :: rest)
    (hprocess : (r.dequeue op rest).processOperation env op = some r')
    (hremove : ∀ id, op = .remove id → id ∈ r.connections → may .unannounced)
    (hshort : ∀ id data conn, op = .send id data → r.connections.lookup id = some conn →
      conn.sendBuffer.isEmpty = true →
      0 < (env.send (r.log.length + 1) data.length).taken →
      (env.send (r.log.length + 1) data.length).taken < data.length → may .uncounted) :
    Moves may r r' := by
  have htables := h.tables.dequeue hqueue
  have hidle : Move may r { r with pendingOperations := rest } :=
    .idle (r.idle_flags r.isRunning r.queueStopped rest r.kernel.wakeup r.connectionTimeout)
  have hcount (r : Reactor) {p : Prop} [Decidable p] {f : ReactorStats → ReactorStats}
      (hf : r.Idle (r.count f)) : Moves may r (if p then r.count f else r) := by
    split
    · exact .single (.idle hf)
    · exact .refl
  refine .head hidle ?_
  unfold Reactor.processOperation at hprocess
  cases op with
  | add fd peer =>
    obtain ⟨hpos, hopen, hfree⟩ := htables.unowned
    have hadd := doAddConnection_cases env fd peer (r.dequeue (.add fd peer) rest)
    obtain rfl := Option.some.inj hprocess
    exact .head (.adding env fd peer hpos hopen hfree hadd) (hcount _ (.counted rfl rfl rfl))
  | remove id =>
    have hremoved : Moves may (r.dequeue (.remove id) rest)
        ((r.dequeue (.remove id) rest).doRemoveConnection id).2 := by
      cases hc : r.connections.lookup id with
      | none =>
        have hnone : (r.dequeue (.remove id) rest).connections.lookup id = none := hc
        rw [doRemoveConnection, hnone]
      | some conn =>
        have hmem : id ∈ r.connections := Finmap.mem_of_lookup_eq_some hc
        exact .single (.removed (htables.owns hc) (hremove id rfl hmem))
    obtain rfl := Option.some.inj hprocess
    exact .head (.took (.remove id) rfl) (hremoved.trans (hcount _ (.counted rfl rfl rfl)))
  | send id data =>
    obtain ⟨result, hsend, hresult⟩ := Option.map_eq_some_iff.mp hprocess
    obtain ⟨success, r₁⟩ := result
    have hsized : (Operation.send id data).Sized := htables.sized _ List.mem_cons_self
    have hcase := htables.doSendData_cases env hsized hsend
    have hmoves : Moves may (r.dequeue (.send id data) rest) r₁ := by
      rcases hcase.connMoves fun conn hc hempty hpos hless =>
        hshort id data conn rfl hc hempty hpos hless with hsame | ⟨fd, hconn⟩
      · rw [show r₁ = _ from hsame]
      · exact ConnMoves.moves hconn
    obtain rfl := hresult
    exact .head (.took (.send id data) rfl) (hmoves.trans (hcount _ (.counted rfl rfl rfl)))
  | getSendBufferSize id promise =>
    obtain rfl := Option.some.inj hprocess
    exact .head (.took (.getSendBufferSize id promise) rfl) (.single (.answered _ _))

/-! ## Requests -/

theorem addConnection_idle (fd : ℤ) (peer : SockAddr) (r : Reactor) :
    r.Idle (r.addConnection fd peer).2 := by
  unfold addConnection
  dsimp only
  split
  · exact .counted rfl rfl rfl
  · exact .counted rfl rfl rfl

theorem request_idle (promise : ℕ) (req : Request) (r : Reactor) :
    r.Idle (r.request promise req).2 := by
  unfold request
  cases req with
  | removeConnection id =>
    dsimp only
    split
    · exact .counted rfl rfl rfl
    · exact .counted rfl rfl rfl
  | sendData id data =>
    dsimp only
    split
    · exact .counted rfl rfl rfl
    · exact .counted rfl rfl rfl
  | getSendBufferSize id =>
    dsimp only
    split
    · exact .refl r
    · exact .refl r

theorem reject_moves {op : Operation} (h : r.Tables (op :: held)) : Moves may r (r.reject op) := by
  cases op with
  | add fd peer =>
    obtain ⟨-, hopen, hfree⟩ := h.unowned
    refine .head (.idle ?_) (.single (.closed fd hopen hfree))
    exact .counted rfl rfl rfl
  | remove id => exact .single (.idle (.counted rfl rfl rfl))
  | send id data => exact .single (.idle (.counted rfl rfl rfl))
  | getSendBufferSize id promise => exact .refl

end Reactor

/-! ## Steps -/

variable {may : Lapse → Prop}

/-- A step of the loop other than processing an operation. -/
theorem Loop.Step.moves {held : List Operation} {state state' : Reactor × Loop}
    (hstep : Loop.Step state state') (h : state.1.AtRest held)
    (hheard : state.1.receiver = .nobody → may .unheard)
    (hprocess : ∀ env which processed op rest r', state.2 = .draining which processed →
      state'.2 = .draining which (processed + 1) → state.1.pendingOperations = op :: rest →
      (state.1.dequeue op rest).processOperation env op = some r' → state'.1 = r' →
      Reactor.Moves may state.1 r') :
    Reactor.Moves may state.1 state'.1 := by
  cases hstep with
  | enter => exact .refl
  | leave => exact .refl
  | process env hbatch hqueue hdone => exact hprocess env _ _ _ _ _ rfl rfl hqueue hdone rfl
  | drained => exact .single (.idle (.counted rfl rfl rfl))
  | notDue => exact .refl
  | due env => exact Reactor.checkTimeouts_moves env h
  | interrupted => exact .refl
  | failed => exact .refl
  | @woken r events =>
    dsimp only
    split
    · exact .single (.idle (r.idle_flags r.isRunning r.queueStopped r.pendingOperations false
        r.connectionTimeout))
    · exact .refl
  | handle env =>
    dsimp only
    split
    · exact .refl
    · exact (h.tables.processKqueueEvent_cases env _).moves hheard
  | handled => exact .refl

/-- A step is a sequence of moves, with the lapses that the step is known for. -/
theorem System.Step.moves {s t : System} (hstep : System.Step s t) (h : s.AtRest)
    (hremove : s.RemovesSilently t → may .unannounced) (habandon : s.Abandons t → may .abandoned)
    (hshort : s.SendsShort t → may .uncounted)
    (hheard : s.reactor.receiver = .nobody → may .unheard) :
    Reactor.Moves may s.reactor t.reactor := by
  unfold System.AtRest System.held at h
  cases hstep with
  | accept fd peer hfd hfresh hadd =>
    have hidle := Reactor.addConnection_idle fd peer (s.reactor.accept fd)
    rw [hadd] at hidle
    exact .head (.opened fd hfd hfresh) (.single (.idle hidle))
  | acceptRejected fd peer hfd hfresh hadd =>
    have hidle := Reactor.addConnection_idle fd peer (s.reactor.accept fd)
    rw [hadd] at hidle
    obtain ⟨-, hopen, hfree⟩ := (h.accept hfd hfresh peer).tables.unowned
    refine .head (.opened fd hfd hfresh) (.head (.idle hidle) (.single (.closed fd ?_ ?_)))
    · rw [hidle.openFds]
      exact hopen
    · rw [Reactor.Unowned, hidle.connections]
      exact hfree
  | addInvalid fd peer hfd hadd =>
    have hidle := Reactor.addConnection_idle fd peer s.reactor
    rw [hadd] at hidle
    exact .single (.idle hidle)
  | request req hsized hreq =>
    have hidle := Reactor.request_idle s.nextPromise req s.reactor
    rw [hreq] at hidle
    exact .single (.idle hidle)
  | requestRejected req hsized hreq =>
    have hidle := Reactor.request_idle s.nextPromise req s.reactor
    rw [hreq] at hidle
    exact .single (.idle hidle)
  | enqueue => exact .single (.idle (Reactor.idle_flags _ _ _ _ _ _))
  | @enqueueRejected op before after hcallers =>
    rw [hcallers] at h
    have hperm := (held_caller before after op).append_right s.reactor.pendingOperations
    exact Reactor.reject_moves (h.tables.transfer rfl rfl rfl hperm)
  | wake => exact .single (.idle (Reactor.idle_flags _ _ _ _ _ _))
  | setConnectionTimeout timeout => exact .single (.idle (Reactor.idle_flags _ _ _ _ _ _))
  | setEventCallback receiver hold =>
    exact .single (.idle
      ⟨rfl, rfl, rfl, rfl, rfl, rfl, rfl, rfl, fun hpool => absurd hpool hold, rfl, rfl⟩)
  | @loop r loop hloop =>
    refine hloop.moves h hheard fun env which processed op rest r' hs ht hqueue hdone heq => ?_
    have hstep : s.Processes { s with reactor := r, loop := loop } env op :=
      ⟨which, processed, rest, hs, ht, hqueue, by rw [hdone, ← heq]⟩
    refine Reactor.AtRest.processOperation_moves env h hqueue hdone ?_ ?_
    · rintro id rfl hmem
      exact hremove ⟨env, id, hstep, hmem⟩
    · rintro id data conn rfl hc hempty hpos hless
      exact hshort ⟨env, id, data, conn, hstep, hc, hempty, hpos, hless⟩
  | stop => exact .single (.idle (Reactor.idle_flags _ _ _ _ _ _))
  | stopQueue => exact .single (.idle (Reactor.idle_flags _ _ _ _ _ _))
  | stopWake => exact .single (.idle (Reactor.idle_flags _ _ _ _ _ _))
  | stopCleanup env hjoined horder hstopping =>
    refine .single (.cleaned env horder fun hne => habandon ⟨?_, rfl, hne⟩)
    rw [hstopping]
    decide

/-- Whatever each move keeps holds of the reactor in every state of every run. -/
theorem reactors_moves {reactorId : ℤ} {receiver : Receiver} {P : Reactor → Prop}
    (hstart : ∀ timeout, P (Reactor.started reactorId receiver timeout))
    (hmove : ∀ r r', P r → Reactor.Move (fun _ => True) r r' → P r') {states : List System}
    (hrun : (reactors reactorId receiver).Run states) : ∀ s ∈ states, P s.reactor := by
  have hboth : ∀ s ∈ states, s.AtRest ∧ P s.reactor := by
    refine hrun.invariant ?_ fun s t h (hstep : System.Step s t) => ⟨hstep.atRest h.1, ?_⟩
    · rintro s ⟨timeout, rfl⟩
      exact ⟨started_atRest reactorId receiver timeout, hstart timeout⟩
    · have hmoves : Reactor.Moves (fun _ => True) s.reactor t.reactor :=
        hstep.moves h.1 (fun _ => trivial) (fun _ => trivial) (fun _ => trivial) fun _ => trivial
      exact hmoves.rec h.2 fun _ hmove' ih => hmove _ _ ih hmove'
  exact fun s hs => (hboth s hs).2

end DarwinCore.Network
