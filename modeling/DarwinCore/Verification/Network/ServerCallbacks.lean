import DarwinCore.Library.Counters
import DarwinCore.Verification.Network.ServerEvents
import Mathlib.Algebra.BigOperators.Pi
import Mathlib.Algebra.BigOperators.Ring.Finset

/-! # From the pool to the callbacks

The callbacks of a connection follow its life, none ends that has not begun, and when the server
has stopped, every event has been passed on. -/

namespace DarwinCore.Network

/-! ## The callbacks -/

def ServerCallbacks.callFor (callbacks : ServerCallbacks) : NetworkEvent → Option CallbackCall
  | .connected id peer => if callbacks.onClientConnected then some (.onClientConnected id peer)
      else none
  | .data id payload => if callbacks.onMessage then some (.onMessage id payload) else none
  | .disconnected id => if callbacks.onClientDisconnected then some (.onClientDisconnected id)
      else none
  | .error id error code => if callbacks.onConnectionError then
      some (.onConnectionError id error code) else none

def CallbackCall.connectionId : CallbackCall → UInt64
  | onClientConnected id _ => id
  | onMessage id _ => id
  | onClientDisconnected id => id
  | onConnectionError id _ _ => id

namespace ServerCallbacks

variable {callbacks : ServerCallbacks}

theorem callFor_connectionId {event : NetworkEvent} :
    ∀ call ∈ callbacks.callFor event, call.connectionId = event.connectionId := by
  intro call hcall
  cases event with
  | connected | data | disconnected | error =>
    rw [callFor] at hcall
    split at hcall
    · cases hcall
      rfl
    · cases hcall

/-- The calls for a connection are those for its events. -/
theorem filter_callFor (id : UInt64) (events : List NetworkEvent) :
    ((events.filterMap callbacks.callFor).filter fun call => call.connectionId = id) =
      (eventsFor id events).filterMap callbacks.callFor := by
  rw [eventsFor]
  induction events with
  | nil => rfl
  | cons event events ih =>
    rw [List.filterMap_cons, List.filter_cons]
    cases hcall : callbacks.callFor event with
    | none =>
      rw [ih]
      split
      · rw [List.filterMap_cons, hcall]
      · rfl
    | some call =>
      have hid := callFor_connectionId call hcall
      dsimp only
      rw [List.filter_cons, hid, ih]
      split
      · rw [List.filterMap_cons, hcall]
      · rfl

end ServerCallbacks

namespace ServerEvents

variable {callbacks : ServerCallbacks} {s : ServerEvents}

theorem onNetworkEvent_calls (event : NetworkEvent) :
    (s.onNetworkEvent callbacks event).calls = s.calls ++ (callbacks.callFor event).toList := by
  cases event with
  | connected | data | disconnected | error =>
    unfold onNetworkEvent invoke ServerCallbacks.callFor
    dsimp only
    split <;> simp

theorem foldl_calls (events : List NetworkEvent) :
    (events.foldl (onNetworkEvent callbacks) s).calls =
      s.calls ++ events.filterMap callbacks.callFor := by
  induction events generalizing s with
  | nil => exact (List.append_nil _).symm
  | cons event events ih =>
    rw [List.foldl_cons, ih, onNetworkEvent_calls, List.append_assoc, List.filterMap_cons]
    cases callbacks.callFor event <;> rfl

end ServerEvents

theorem TellsLives.of_first {events all : List NetworkEvent} (hbegins : events <+: all)
    (h : TellsLives all) : TellsLives events := by
  obtain ⟨lives, hlives, rfl⟩ := h
  induction lives generalizing events with
  | nil => exact ⟨[], nofun, List.prefix_nil.mp hbegins⟩
  | cons life lives ih =>
    obtain ⟨hlife, hrest⟩ := List.forall_mem_cons.mp hlives
    rw [List.flatten_cons] at hbegins
    rcases List.prefix_or_prefix_of_prefix hbegins (List.prefix_append life lives.flatten) with
      hfirst | ⟨more, rfl⟩
    · obtain ⟨untold, rfl⟩ := hfirst
      refine ⟨[events], fun first hfirst => ?_, (List.append_nil _).symm⟩
      rw [List.mem_singleton.mp hfirst]
      exact Life.after_isSome_of_first hlife
    · obtain ⟨told, htold, rfl⟩ := ih hrest ((List.prefix_append_right_inj life).mp hbegins)
      exact ⟨life :: told, List.forall_mem_cons.mpr ⟨hlife, htold⟩, List.flatten_cons.symm⟩

namespace ServerFlow

variable {n : ℕ} {s : ServerFlow n}

theorem Flows.passed_for (h : s.Flows) {i : Fin n} {id : UInt64}
    (hnames : Reactor.Names (toInt i) id) :
    eventsFor id s.passed <+: (s.reactors i).reactor.told id := by
  have haccepted : eventsFor id s.passed <+: eventsFor id s.accepted :=
    h.pool.conserved.passed_prefix id
  refine haccepted.trans ⟨eventsFor id ((s.unsubmitted i).map Prod.fst), ?_⟩
  have htold := (s.reactors i).reactor.told_eq id
  rw [(h.lanes i).conserved, List.filter_append] at htold
  rw [htold, ← eventsFor_from hnames s.accepted]
  rfl

theorem Flows.told_at_rest (h : s.Flows) (hsubmitted : ∀ i, s.unsubmitted i = []) {i : Fin n}
    {id : UInt64} (hnames : Reactor.Names (toInt i) id) :
    (s.reactors i).reactor.told id = eventsFor id s.accepted := by
  have htold := (s.reactors i).reactor.told_eq id
  rw [(h.lanes i).conserved, hsubmitted i, List.map_nil, List.append_nil] at htold
  rw [htold, ← eventsFor_from hnames s.accepted]
  rfl

theorem Flows.passed_none (h : s.Flows) {id : UInt64}
    (hnames : ¬∃ i : Fin n, Reactor.Names (toInt i) id) : eventsFor id s.passed = [] := by
  have haccepted : eventsFor id s.accepted = [] := by
    refine List.filter_eq_nil_iff.mpr fun event hevent hid => hnames ?_
    obtain ⟨i, hi⟩ := h.named event hevent
    exact ⟨i, of_decide_eq_true hid ▸ hi⟩
  have hbegins : eventsFor id s.passed <+: eventsFor id s.accepted :=
    h.pool.conserved.passed_prefix id
  rw [haccepted] at hbegins
  exact List.prefix_nil.mp hbegins

theorem Flows.tellsLives (h : s.Flows) (id : UInt64) : TellsLives (eventsFor id s.passed) := by
  by_cases hnames : ∃ i : Fin n, Reactor.Names (toInt i) id
  · obtain ⟨i, hi⟩ := hnames
    exact .of_first (h.passed_for hi) ((h.lanes i).tracked.stands id).tellsLives
  · rw [h.passed_none hnames]
    exact ⟨[], nofun, rfl⟩

end ServerFlow

/-- In every state of a run, the callbacks have been called for a connection as its life went so
far: the calls are those for the first of the events that its reactor has told of it. -/
theorem serverFlows_callbacks_in_order {n workerCount maxQueueSize : ℕ} (hn : n ≤ 256)
    {states : List (ServerFlow n)} (hrun : (serverFlows n workerCount maxQueueSize).Run states)
    {s : ServerFlow n} (hs : s ∈ states) (callbacks : ServerCallbacks) (id : UInt64) :
    ∃ events, TellsLives events ∧
      (events = [] ∨ ∃ i : Fin n, Reactor.Names (toInt i) id ∧
        events <+: (s.reactors i).reactor.told id) ∧
      ((s.server callbacks).calls.filter fun call => call.connectionId = id) =
        events.filterMap callbacks.callFor := by
  have hflows := serverFlows_flows hn hrun s hs
  refine ⟨eventsFor id s.passed, hflows.tellsLives id, ?_, ?_⟩
  · by_cases hnames : ∃ i : Fin n, Reactor.Names (toInt i) id
    · obtain ⟨i, hi⟩ := hnames
      exact .inr ⟨i, hi, hflows.passed_for hi⟩
    · exact .inl (hflows.passed_none hnames)
  · rw [ServerFlow.server, ServerEvents.foldl_calls, List.nil_append,
      ServerCallbacks.filter_callFor]

theorem serverFlows_callbacks_in_order_sample : ∃ s past events,
    (serverFlows 1 1 0).Run (s :: past) ∧ s.passed = [.connected sampleId ⟨[]⟩] ∧
      TellsLives events ∧
      (((s.server ⟨true, true, true, true⟩).calls).filter fun call =>
        call.connectionId = sampleId) = events.filterMap
          (ServerCallbacks.callFor ⟨true, true, true, true⟩) := by
  obtain ⟨s, past, hrun, -, hpassed⟩ := ServerFlow.sample_flow
  obtain ⟨events, hlives, -, hcalls⟩ := serverFlows_callbacks_in_order (by decide) hrun
    List.mem_cons_self ⟨true, true, true, true⟩ sampleId
  exact ⟨s, past, events, hrun, hpassed, hlives, hcalls⟩

/-! ## The counters of the server -/

namespace NetworkEvent

def active : NetworkEvent → ℤ
  | connected _ _ => 1
  | disconnected _ => -1
  | _ => 0

theorem sum_active (events : List NetworkEvent) :
    (events.map active).sum = events.countP isConnected - events.countP isDisconnected := by
  induction events with
  | nil => rfl
  | cons event events ih =>
    rw [List.map_cons, List.sum_cons, ih, List.countP_cons, List.countP_cons]
    cases event <;> simp [active, isConnected, isDisconnected] <;> ring

end NetworkEvent

/-- Whether a connection whose life got so far is active. -/
def Life.active : Life → ℤ
  | unannounced => 0
  | connected => 1
  | failed => 1
  | ended => 0

theorem Life.next_active {life life' : Life} {event : NetworkEvent}
    (h : life.next event = some life') : life'.active = life.active + event.active := by
  cases life <;> cases event <;> cases h <;> rfl

theorem Life.foldlM_active {events : List NetworkEvent} {life life' : Life}
    (h : events.foldlM next life = some life') :
    life'.active = life.active + (events.map NetworkEvent.active).sum := by
  induction events generalizing life with
  | nil =>
    cases h
    exact (add_zero _).symm
  | cons event events ih =>
    obtain ⟨mid, hmid, hrest⟩ := Option.bind_eq_some_iff.mp (List.foldlM_cons.symm.trans h)
    rw [ih hrest, next_active hmid, List.map_cons, List.sum_cons, add_assoc]

theorem TellsLives.active_nonneg {events : List NetworkEvent} (h : TellsLives events) :
    0 ≤ (events.map NetworkEvent.active).sum := by
  obtain ⟨lives, hlives, rfl⟩ := h
  induction lives with
  | nil => exact le_rfl
  | cons life lives ih =>
    obtain ⟨hlife, hrest⟩ := List.forall_mem_cons.mp hlives
    obtain ⟨reached, hreached⟩ := Option.isSome_iff_exists.mp hlife
    have hactive := Life.foldlM_active hreached
    have hstart : 0 ≤ reached.active := by cases reached <;> decide
    rw [hactive, Life.active, zero_add] at hstart
    rw [List.flatten_cons, List.map_append, List.sum_append]
    exact add_nonneg hstart (ih hrest)

theorem ofInt_natCast (k : ℕ) : UInt64.ofInt k = UInt64.ofNat k := by
  have hmod : (((k : ℤ) % 2 ^ 64).toNat : ℕ) = k % 2 ^ 64 := by omega
  rw [UInt64.ofInt, hmod, UInt64.ofNat_mod_size]

theorem ServerEvents.foldl_connections (callbacks : ServerCallbacks) (events : List NetworkEvent) :
    (events.foldl (onNetworkEvent callbacks) {}).totalConnections =
        events.countP NetworkEvent.isConnected ∧
      (events.foldl (onNetworkEvent callbacks) {}).activeConnections =
        UInt64.ofInt (events.map NetworkEvent.active).sum := by
  induction events using List.reverseRecOn with
  | nil => exact ⟨rfl, rfl⟩
  | append_singleton events event ih =>
    rw [List.foldl_append, List.foldl_cons, List.foldl_nil, List.countP_append, List.map_append,
      List.sum_append]
    generalize events.foldl (onNetworkEvent callbacks) {} = s at ih ⊢
    obtain ⟨htotal, hactive⟩ := ih
    cases event with
    | connected | data | disconnected | error =>
      unfold onNetworkEvent invoke
      dsimp only
      split <;> simp [htotal, hactive, NetworkEvent.isConnected, NetworkEvent.active,
        UInt64.ofInt_add, UInt64.ofInt_neg, UInt64.sub_eq_add_neg]

namespace ServerFlow

variable {n : ℕ} {s : ServerFlow n}

theorem Flows.active_nonneg (h : s.Flows) : 0 ≤ (s.passed.map NetworkEvent.active).sum :=
  Counters.sum_nonneg_of_key fun id => (h.tellsLives id).active_nonneg

/-- Nothing is on its way from a reactor to the callbacks. -/
structure Rests (s : ServerFlow n) : Prop where
  submitted : ∀ i, s.unsubmitted i = []
  passed : s.pool.Quiet

end ServerFlow

/-- In every state of a run, no connection has ended that has not begun, so that
`active_connections_` counts those that have begun and not ended, as far as its 64 bits go. -/
theorem serverFlows_active_never_wraps {n workerCount maxQueueSize : ℕ} (hn : n ≤ 256)
    {states : List (ServerFlow n)} (hrun : (serverFlows n workerCount maxQueueSize).Run states)
    {s : ServerFlow n} (hs : s ∈ states) (callbacks : ServerCallbacks) :
    ∃ active : ℕ, (s.server callbacks).activeConnections = UInt64.ofNat active ∧
      active + s.passed.countP NetworkEvent.isDisconnected =
        (s.server callbacks).totalConnections := by
  have hnonneg := (serverFlows_flows hn hrun s hs).active_nonneg
  obtain ⟨htotal, hactive⟩ : (s.server callbacks).totalConnections = _ ∧
      (s.server callbacks).activeConnections = _ :=
    ServerEvents.foldl_connections callbacks s.passed
  rw [NetworkEvent.sum_active] at hnonneg hactive
  refine ⟨s.passed.countP NetworkEvent.isConnected - s.passed.countP NetworkEvent.isDisconnected,
    ?_, by omega⟩
  rw [hactive, ← Nat.cast_sub (by omega)]
  exact ofInt_natCast _

theorem serverFlows_active_never_wraps_sample : ∃ s past,
    (serverFlows 1 1 0).Run (s :: past) ∧
      (s.server ⟨true, true, true, true⟩).activeConnections = 1 := by
  obtain ⟨s, past, hrun, -, hpassed⟩ := ServerFlow.sample_flow
  obtain ⟨active, hactive, hcount⟩ := serverFlows_active_never_wraps (by decide) hrun
    List.mem_cons_self ⟨true, true, true, true⟩
  rw [ServerFlow.server, hpassed] at hcount
  obtain rfl : active = 1 := hcount
  exact ⟨s, past, hrun, hactive⟩

/-! ## The end -/

theorem ServerFlow.Flows.rests {n : ℕ} {s : ServerFlow n} (h : s.Flows)
    (hstopped : s.pool.control = .stopped) : s.Rests := by
  have hdown : s.pool.isRunning = false := by
    refine Bool.eq_false_iff.mpr fun hrunning => ?_
    have hstarted := h.pool.started hrunning
    rw [hstopped] at hstarted
    cases hstarted
  refine ⟨fun i => (h.lanes i).resting ?_, h.pool.quiet_of_stopped hstopped⟩
  exact (h.lanes i).phase.joined ((h.lanes i).returned hdown)

/-- When `Stop` has stopped the reactors and the pool, each event that a reactor has told of a
connection has been passed on, in its order, and no submission has failed. -/
theorem serverFlows_stop_passes_all {n workerCount maxQueueSize : ℕ} (hn : n ≤ 256)
    {states : List (ServerFlow n)} (hrun : (serverFlows n workerCount maxQueueSize).Run states)
    {s : ServerFlow n} (hs : s ∈ states) (hstopped : s.pool.control = .stopped) :
    s.Rests ∧ s.pool.submitFailures = 0 ∧
      ∀ (i : Fin n) (id : UInt64), Reactor.Names (toInt i) id →
        eventsFor id s.passed = (s.reactors i).reactor.told id := by
  have hflows := serverFlows_flows hn hrun s hs
  have hrests := hflows.rests hstopped
  refine ⟨hrests, hflows.pool.failures, fun i id hnames => ?_⟩
  have hbegins := hflows.passed_for hnames
  have hperm : (eventsFor id s.passed).Perm (eventsFor id s.accepted) :=
    (hflows.pool.passed_perm hrests.passed).filter _
  have htold := hflows.told_at_rest hrests.submitted hnames
  exact hbegins.eq_of_length (hperm.length_eq.trans (congrArg List.length htold.symm))

theorem serverFlows_stop_passes_all_sample : ∃ s past,
    (serverFlows 1 1 0).Run (s :: past) ∧
      (s.reactors 0).reactor.told sampleId = [.connected sampleId ⟨[]⟩] := by
  obtain ⟨s, past, hrun, hstopped, hpassed⟩ := ServerFlow.sample_flow
  obtain ⟨-, -, htold⟩ := serverFlows_stop_passes_all (by decide) hrun List.mem_cons_self hstopped
  have hsample := htold 0 sampleId (by decide +kernel)
  rw [hpassed] at hsample
  exact ⟨s, past, hrun, hsample.symm⟩

end DarwinCore.Network
