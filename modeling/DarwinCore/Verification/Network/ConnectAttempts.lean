import DarwinCore.Verification.Network.EventOrder

/-! # What `kConnected` says

`SetConnection` submits `kConnected` without waiting for a `connect` that is in progress, and no
path of the client or its reactor submits `kError`. -/

namespace DarwinCore.Network

open ClientReactor

/-! ## Attempts -/

/-- How far an attempt to connect has come. -/
inductive Handshake where
  /-- `connect` has answered `EINPROGRESS`. -/
  | pending
  | established
  | refused
  deriving DecidableEq, Repr

/-- The calls of `connect`, numbered from 1, and what has been submitted, each event with the number
of the last call before it. -/
structure Attempts where
  made : ℕ := 0
  status : ℕ → Handshake := fun _ => .pending
  submitted : List (ℕ × NetworkEvent) := []

namespace Attempts

def advance (n : ℕ) (handshake : Handshake) (attempts : Attempts) : Attempts :=
  { attempts with status := Function.update attempts.status n handshake }

/-- `connect` returns. -/
def make (handshake : Handshake) (attempts : Attempts) : Attempts :=
  { attempts.advance (attempts.made + 1) handshake with made := attempts.made + 1 }

/-- What a step of the client adds. A `connect` that succeeds may have answered `EINPROGRESS`. -/
def observe (inProgress : Bool) (c c' : Client) (attempts : Attempts) : Attempts :=
  let attempts :=
    { attempts with submitted := attempts.submitted ++ (c.submits c').map (Prod.mk attempts.made) }
  match c.call, c'.call with
  | .connecting _ _, .initializing _ =>
      attempts.make (if inProgress then .pending else .established)
  | .connecting _ _, .failing => attempts.make .refused
  | _, _ => attempts

end Attempts

/-- A step of the client, or of the handshake of an attempt in progress. -/
inductive AttemptStep : Client × Attempts → Client × Attempts → Prop where
  | client {c c' : Client} {attempts : Attempts} (inProgress : Bool) (h : Client.Step c c') :
      AttemptStep (c, attempts) (c', attempts.observe inProgress c c')
  | completes {c : Client} {attempts : Attempts} {n : ℕ} (hmade : 0 < n ∧ n ≤ attempts.made)
      (h : attempts.status n = .pending) :
      AttemptStep (c, attempts) (c, attempts.advance n .established)
  | fails {c : Client} {attempts : Attempts} {n : ℕ} (hmade : 0 < n ∧ n ≤ attempts.made)
      (h : attempts.status n = .pending) :
      AttemptStep (c, attempts) (c, attempts.advance n .refused)

def attemptingClients : TransitionSystem (Client × Attempts) where
  init x := x = ({}, {})
  step := AttemptStep

def deliveredEvents (x : Client × Attempts) : List (ℕ × NetworkEvent) :=
  x.2.submitted.take x.1.received.length

/-- `kConnected` has been delivered, and the client is connected, for attempts only that have been
established, and an attempt that has failed can still be reported by `kError`. -/
structure Truthful (x : Client × Attempts) : Prop where
  connected : ∀ n id peer, (n, .connected id peer) ∈ deliveredEvents x →
    x.2.status n = .established
  state : x.1.state = .connected → ∃ n id peer, (n, .connected id peer) ∈ deliveredEvents x
  reported : ∀ n, x.2.status n = .refused → ∃ y, Relation.ReflTransGen AttemptStep x y ∧
    ∃ id error code, (n, .error id error code) ∈ deliveredEvents y

/-- No attempt fails in the step, and if `SetConnection` submits `kConnected` in it, the attempt has
been established. -/
structure Favours (x y : Client × Attempts) : Prop where
  refuses : ∀ n, y.2.status n = .refused → x.2.status n = .refused
  waits : ∀ id peer, .connected id peer ∈ x.1.submits y.1 → x.2.status x.2.made = .established

def PassesOnEvent (x y : Client × Attempts) : Prop :=
  ∃ event rest, x.1.events = event :: rest ∧ y = (x.1.deliver event rest, x.2)

/-! ## What holds in every run -/

section Runs

open Client

variable {c c' : Client} {attempts : Attempts} {x y : Client × Attempts}

/-- Only the worker changes what has been received, and only it makes the client connected. -/
theorem Client.Step.receives (hstep : Client.Step c c') :
    (c'.received = c.received ∧ (c'.state = c.state ∨ c'.state ≠ .connected)) ∨
      ∃ event rest, c.events = event :: rest ∧ c' = c.deliver event rest := by
  have hkeeps {c' : Client} (hkeeps : c.Keeps c')
      (hstate : c'.state = c.state ∨ c'.state ≠ .connected) :
      (c'.received = c.received ∧ (c'.state = c.state ∨ c'.state ≠ .connected)) ∨
        ∃ event rest, c.events = event :: rest ∧ c' = c.deliver event rest :=
    .inl ⟨hkeeps.received, hstate⟩
  cases hstep with
  | exchange hcall =>
    exact hkeeps (exchange_keeps _ _ c) (.inr (by rw [exchange_state]; exact nofun))
  | connect success hcall =>
    exact hkeeps (connect_keeps _ _ success c) (.inl (connect_state _ _ success c))
  | initReactor success hcall =>
    exact hkeeps (initReactor_keeps _ success c) (.inl (initReactor_state _ success c))
  | @setConnectionReturned s fd peer success before after hreactor howners hcall =>
    refine .inl ⟨?_, .inl ?_⟩
    · exact (afterSetConnection_keeps fd success _).received
    · exact afterSetConnection_state fd success _
  | fail hcall => exact .inl ⟨rfl, .inr nofun⟩
  | swap hcall =>
    refine hkeeps (swap_keeps _ c) ((swap_state _ c).imp_right fun hclosing => ?_)
    rw [hclosing]
    exact nofun
  | poll elapsed hcall => exact hkeeps (poll_keeps _ elapsed c) (.inl (poll_state _ elapsed c))
  | finish hcall => exact .inl ⟨rfl, .inr nofun⟩
  | deliver hevents => exact .inr ⟨_, _, hevents, rfl⟩
  | _ => exact .inl ⟨rfl, .inl rfl⟩

/-- What has been submitted is what has been received and what waits for the worker, and none of it
is an error. -/
structure Recorded (x : Client × Attempts) : Prop where
  wired : x.1.Wired
  housed : ∀ s, x.1.reactor = some s → s.Housed
  submitted : x.2.submitted.map Prod.snd = x.1.received ++ x.1.events
  faultless : ∀ id error code, .error id error code ∉ x.1.received
  connected : x.1.state = .connected → ∃ id peer, .connected id peer ∈ x.1.received

theorem Attempts.observe_submitted (inProgress : Bool) (c c' : Client)
    (attempts : Attempts) : (attempts.observe inProgress c c').submitted =
      attempts.submitted ++ (c.submits c').map (Prod.mk attempts.made) := by
  unfold observe
  dsimp only
  split <;> rfl

theorem AttemptStep.recorded (hstep : AttemptStep x y) (h : Recorded x) : Recorded y := by
  cases hstep with
  | @client c c' attempts inProgress hstep =>
    have hsnd : ((c.submits c').map (Prod.mk attempts.made)).map Prod.snd = c.submits c' := by
      simp
    refine ⟨hstep.wired h.wired h.housed, hstep.housed h.housed, ?_, fun id error code hmem => ?_,
      fun hstate => ?_⟩
    · rw [Attempts.observe_submitted, List.map_append, hsnd, h.submitted]
      exact hstep.delivers.symm
    · rcases hstep.receives with ⟨hsame, -⟩ | ⟨event, rest, hevents, rfl⟩
      · exact h.faultless id error code (hsame ▸ hmem)
      · rcases List.mem_append.mp hmem with hold | hnew
        · exact h.faultless id error code hold
        · rw [← List.mem_singleton.mp hnew] at hevents
          exact h.wired.faultless id error code (hevents ▸ List.mem_cons_self)
    · rcases hstep.receives with ⟨hsame, hkept | hleft⟩ | ⟨event, rest, hevents, rfl⟩
      · obtain ⟨id, peer, hmem⟩ := h.connected (hkept ▸ hstate)
        exact ⟨id, peer, hsame ▸ hmem⟩
      · exact absurd hstate hleft
      · cases event with
        | connected id peer =>
          exact ⟨id, peer, List.mem_append_right _ (List.mem_singleton_self _)⟩
        | data id payload =>
          obtain ⟨id', peer, hmem⟩ := h.connected hstate
          exact ⟨id', peer, List.mem_append_left _ hmem⟩
        | disconnected id => cases hstate
        | error id error code => cases hstate
  | completes hmade hpending => exact ⟨h.wired, h.housed, h.submitted, h.faultless, h.connected⟩
  | fails hmade hpending => exact ⟨h.wired, h.housed, h.submitted, h.faultless, h.connected⟩

theorem attemptingClients_recorded {states : List (Client × Attempts)}
    (hrun : attemptingClients.Run states) : ∀ x ∈ states, Recorded x := by
  refine hrun.invariant ?_ fun x y h (hstep : AttemptStep x y) => hstep.recorded h
  intro x hx
  obtain rfl : x = ({}, {}) := hx
  have hwired : Client.Wired {} := clients_wired (.start rfl) _ List.mem_cons_self
  refine ⟨hwired, fun s hs => (Option.some_ne_none s hs.symm).elim, rfl,
    fun _ _ _ => List.not_mem_nil, fun hstate => ?_⟩
  cases hstate

theorem Recorded.delivered (h : Recorded x) : (deliveredEvents x).map Prod.snd = x.1.received := by
  rw [deliveredEvents, List.map_take, h.submitted, List.take_left]

theorem Recorded.never_reports (h : Recorded x)
    (hpath : Relation.ReflTransGen AttemptStep x y) {n : ℕ}
    {id : UInt64} {error : NetworkError} {code : Errno} :
    (n, .error id error code) ∉ deliveredEvents y := by
  have hy : Recorded y := by
    induction hpath with
    | refl => exact h
    | tail hpath hstep ih => exact hstep.recorded ih
  intro hmem
  refine hy.faultless id error code ?_
  rw [← hy.delivered]
  exact List.mem_map_of_mem hmem

/-! ## Runs in which no attempt fails or is late -/

/-- No attempt has failed, and `kConnected` has been submitted for established ones only. -/
structure Kept (x : Client × Attempts) : Prop where
  connected : ∀ n id peer, (n, .connected id peer) ∈ x.2.submitted →
    n ≤ x.2.made ∧ x.2.status n = .established
  refused : ∀ n, x.2.status n ≠ .refused

theorem Kept.truthful (h : Kept x) (hx : Recorded x) : Truthful x := by
  refine ⟨fun n id peer hmem => (h.connected n id peer (List.mem_of_mem_take hmem)).2,
    fun hstate => ?_, fun n hrefused => absurd hrefused (h.refused n)⟩
  obtain ⟨id, peer, hmem⟩ := hx.connected hstate
  rw [← hx.delivered] at hmem
  obtain ⟨⟨n, event⟩, hmem, rfl⟩ := List.mem_map.mp hmem
  exact ⟨n, id, peer, hmem⟩

namespace Attempts

/-- Other steps than those of `connect` make no attempt. -/
theorem observe_call (inProgress : Bool) (attempts : Attempts) (h : c'.call = c.call) :
    attempts.observe inProgress c c' = { attempts with
      submitted := attempts.submitted ++ (c.submits c').map (Prod.mk attempts.made) } := by
  unfold observe
  rw [h]
  cases c.call <;> rfl

theorem observe_status (inProgress : Bool) (c c' : Client) (attempts : Attempts) {n : ℕ}
    (hn : n ≤ attempts.made) : (attempts.observe inProgress c c').status n = attempts.status n := by
  have hne : n ≠ attempts.made + 1 := by omega
  unfold observe
  dsimp only
  split
  · exact Function.update_of_ne hne _ _
  · exact Function.update_of_ne hne _ _
  · rfl

theorem observe_made (inProgress : Bool) (c c' : Client) (attempts : Attempts) :
    attempts.made ≤ (attempts.observe inProgress c c').made := by
  unfold observe
  dsimp only
  split
  · exact Nat.le_succ _
  · exact Nat.le_succ _
  · exact Nat.le_refl _

end Attempts

theorem AttemptStep.kept (hstep : AttemptStep x y) (h : Kept x) (hfavours : Favours x y) :
    Kept y := by
  have hrefused (n : ℕ) (hn : y.2.status n = .refused) : False :=
    h.refused n (hfavours.refuses n hn)
  refine ⟨fun n id peer hmem => ?_, hrefused⟩
  cases hstep with
  | @client c c' attempts inProgress hstep =>
    have hlast : n ≤ attempts.made ∧ attempts.status n = .established := by
      rw [Attempts.observe_submitted] at hmem
      rcases List.mem_append.mp hmem with hold | hnew
      · exact h.connected n id peer hold
      · obtain ⟨event, hevent, heq⟩ := List.mem_map.mp hnew
        cases heq
        exact ⟨Nat.le_refl _, hfavours.waits id peer hevent⟩
    refine ⟨hlast.1.trans (Attempts.observe_made inProgress c c' attempts), ?_⟩
    rw [Attempts.observe_status inProgress c c' attempts hlast.1]
    exact hlast.2
  | @completes c attempts m hmade hpending =>
    obtain ⟨hn, hestablished⟩ := h.connected n id peer hmem
    refine ⟨hn, ?_⟩
    by_cases heq : n = m
    · rw [heq]
      exact Function.update_self m _ _
    · exact (Function.update_of_ne heq _ _).trans hestablished
  | @fails c attempts m hmade hpending => exact (hrefused m (Function.update_self m _ _)).elim

theorem attemptingClients_kept {states : List (Client × Attempts)}
    (hrun : attemptingClients.Run states) (hfavours : ∀ x y, [y, x] <:+: states → Favours x y) :
    ∀ x ∈ states, Kept x := by
  refine hrun.invariant_along ?_ (fun x y h (hstep : AttemptStep x y) => hstep.kept h) hfavours
  intro x hx
  obtain rfl : x = ({}, {}) := hx
  exact ⟨fun _ _ _ hmem => absurd hmem List.not_mem_nil, fun _ => nofun⟩

/-- `kConnected` is submitted for the last attempt, which does not get on in the step. -/
theorem AttemptStep.submitted (hstep : AttemptStep x y) {event : NetworkEvent}
    (hmem : event ∈ x.1.submits y.1) :
    (x.2.made, event) ∈ y.2.submitted ∧ y.2.status x.2.made = x.2.status x.2.made := by
  have hsilent (c : Client) : c.submits c = [] := (Silent.of_same rfl).submits
  cases hstep with
  | @client c c' attempts inProgress hstep =>
    refine ⟨?_, Attempts.observe_status inProgress c c' attempts (Nat.le_refl _)⟩
    rw [Attempts.observe_submitted]
    exact List.mem_append_right _ (List.mem_map_of_mem hmem)
  | completes hmade hpending =>
    rw [hsilent] at hmem
    cases hmem
  | fails hmade hpending =>
    rw [hsilent] at hmem
    cases hmem

/-! ## The worker -/

theorem PassesOnEvent.submits (h : PassesOnEvent x y) : x.1.submits y.1 = [] := by
  obtain ⟨event, rest, -, rfl⟩ := h
  exact (Silent.of_same (onNetworkEvent_keeps event x.1).reactor).submits

theorem PassesOnEvent.step (h : PassesOnEvent x y) : AttemptStep x y := by
  have hsubmits := h.submits
  obtain ⟨event, rest, hevents, rfl⟩ := h
  obtain ⟨c, attempts⟩ := x
  have hcall : (c.deliver event rest).call = c.call := by cases event <;> rfl
  have hobserve : attempts.observe false c (c.deliver event rest) = attempts := by
    rw [Attempts.observe_call false attempts hcall, hsubmits, List.map_nil, List.append_nil]
  have hstep : AttemptStep (c, attempts) _ := .client false (Client.Step.deliver hevents)
  rw [hobserve] at hstep
  exact hstep

theorem PassesOnEvent.favours (h : PassesOnEvent x y) : Favours x y := by
  refine ⟨?_, ?_⟩
  · obtain ⟨event, rest, -, rfl⟩ := h
    exact fun _ hn => hn
  · rw [h.submits]
    exact fun _ _ hmem => absurd hmem List.not_mem_nil

theorem exists_delivered (x : Client × Attempts) : ∃ z, Relation.ReflTransGen PassesOnEvent x z ∧
    z.2 = x.2 ∧ z.1.events = [] ∧ z.1.received = x.1.received ++ x.1.events := by
  obtain ⟨c, attempts⟩ := x
  generalize hevents : c.events = events
  induction events generalizing c with
  | nil => exact ⟨_, .refl, rfl, hevents, by simp⟩
  | cons event rest ih =>
    obtain ⟨z, hpath, hattempts, hnil, hreceived⟩ := ih (c.deliver event rest) rfl
    refine ⟨z, .head ⟨event, rest, hevents, rfl⟩ hpath, hattempts, hnil, ?_⟩
    rw [hreceived]
    exact List.append_assoc c.received [event] rest

/-- What is delivered, and the state of the client, tell of established connections only, whatever
the worker has passed on by then, and every failure is reported: exactly in the runs in which no
attempt fails and each is established when `SetConnection` submits `kConnected`. -/
theorem tells_truth_iff {states : List (Client × Attempts)} (hrun : attemptingClients.Run states) :
    (∀ x ∈ states, ∀ z, Relation.ReflTransGen PassesOnEvent x z → Truthful z) ↔
      ∀ x y, [y, x] <:+: states → Favours x y := by
  constructor
  · intro htruthful x y hxy
    have hstep : AttemptStep x y := hrun.step_of_infix hxy
    have hy : y ∈ states := hxy.mem (by simp)
    refine ⟨fun n hrefused => ?_, fun id peer hmem => ?_⟩
    · obtain ⟨z, hpath, id, error, code, hreported⟩ := (htruthful y hy y .refl).reported n hrefused
      exact absurd hreported ((attemptingClients_recorded hrun y hy).never_reports hpath)
    · obtain ⟨z, hpath, hattempts, hevents, hreceived⟩ := exists_delivered y
      have hall : deliveredEvents z = y.2.submitted := by
        have hlength := congrArg List.length (attemptingClients_recorded hrun y hy).submitted
        rw [List.length_map, ← hreceived] at hlength
        rw [deliveredEvents, hattempts, ← hlength, List.take_length]
      obtain ⟨hsubmitted, hsame⟩ := hstep.submitted hmem
      have hestablished := (htruthful y hy z hpath).connected x.2.made id peer (hall ▸ hsubmitted)
      rw [hattempts, hsame] at hestablished
      exact hestablished
  · intro hfavours x hx z hpath
    have hkept : Kept z ∧ Recorded z := by
      induction hpath with
      | refl =>
          exact ⟨attemptingClients_kept hrun hfavours x hx, attemptingClients_recorded hrun x hx⟩
      | tail hpath hstep ih =>
        exact ⟨hstep.step.kept ih.1 hstep.favours, hstep.step.recorded ih.2⟩
    exact hkept.1.truthful hkept.2

end Runs

/-! ## An attempt in progress -/

/-- Every `connect` may answer `EINPROGRESS`, and stay in progress. -/
theorem exists_attempting {states : List Client} (h : clients.Run states) :
    ∃ attempted, attemptingClients.Run attempted ∧ attempted.map Prod.fst = states ∧
      ∀ x ∈ attempted, ∀ n, x.2.status n ≠ .established := by
  induction h with
  | @start c hc =>
    obtain rfl : c = {} := hc
    exact ⟨[({}, {})], .start rfl, rfl, by simp⟩
  | @next c c' past hrun hstep ih =>
    obtain ⟨attempted, hattempted, hmap, hnot⟩ := ih
    obtain ⟨⟨c, attempts⟩, rest, rfl, rfl, hrest⟩ := List.map_eq_cons_iff.mp hmap
    have hnext : AttemptStep (c, attempts) (c', attempts.observe true c c') := .client true hstep
    have hold (n : ℕ) : attempts.status n ≠ .established := hnot _ List.mem_cons_self n
    have hupdate {handshake : Handshake} (hne : handshake ≠ .established) (n : ℕ) :
        Function.update attempts.status (attempts.made + 1) handshake n ≠ .established := by
      by_cases heq : n = attempts.made + 1
      · rw [heq, Function.update_self]
        exact hne
      · rw [Function.update_of_ne heq]
        exact hold n
    refine ⟨_, hattempted.next hnext, by rw [List.map_cons, hmap],
      List.forall_mem_cons.mpr ⟨?_, hnot⟩⟩
    unfold Attempts.observe
    dsimp only
    split
    · exact hupdate nofun
    · exact hupdate nofun
    · exact hold

/-- `kConnected` has been delivered while the attempt is in progress. -/
theorem sample_in_progress : ∃ states, attemptingClients.Run states ∧ ∃ x ∈ states,
    (∃ id peer, x.1.received = [.connected id peer]) ∧ ∀ n, x.2.status n ≠ .established := by
  obtain ⟨past, hrun, -⟩ := sample_announced
  have hdelivered := hrun.next (Client.Step.deliver rfl)
  obtain ⟨attempted, hattempted, hmap, hnot⟩ := exists_attempting hdelivered
  obtain ⟨x, rest, rfl, hx, -⟩ := List.map_eq_cons_iff.mp hmap
  have hreceived : x.1.received = [.connected sampleLive.connection.connectionId samplePeer] := by
    rw [hx]
    rfl
  exact ⟨_, hattempted, x, List.mem_cons_self, ⟨_, _, hreceived⟩, hnot x List.mem_cons_self⟩

theorem tells_truth_in_progress : ∃ states, attemptingClients.Run states ∧
    ((∀ x ∈ states, ∀ z, Relation.ReflTransGen PassesOnEvent x z → Truthful z) ↔
      ∀ x y, [y, x] <:+: states → Favours x y) := by
  obtain ⟨states, hrun, -⟩ := sample_in_progress
  exact ⟨states, hrun, tells_truth_iff hrun⟩

/-- The client is connected to a peer that has not answered. -/
theorem connected_in_progress : ¬∀ states, attemptingClients.Run states →
    ∀ x ∈ states, Truthful x := by
  intro hall
  obtain ⟨states, hrun, x, hx, ⟨id, peer, hreceived⟩, hnot⟩ := sample_in_progress
  have hdelivered := (attemptingClients_recorded hrun x hx).delivered
  rw [hreceived] at hdelivered
  obtain ⟨⟨n, event⟩, rest, heq, hevent, -⟩ := List.map_eq_cons_iff.mp hdelivered
  obtain rfl : event = .connected id peer := hevent
  exact hnot n ((hall states hrun x hx).connected n id peer (heq ▸ List.mem_cons_self))

end DarwinCore.Network
