import DarwinCore.Library.History
import DarwinCore.Model.Network.ClientReactorSystem

/-! # What the functions of a client reactor write to the log -/

namespace DarwinCore.Network

namespace ClientReactor

/-- The log has grown by entries of one kind. -/
def Grows (P : ClientEffect → Prop) (r r' : ClientReactor) : Prop :=
  History.Extends P r.log r'.log

variable {P Q : ClientEffect → Prop} {r r' r'' : ClientReactor}

theorem Grows.of_eq (h : r'.log = r.log) : Grows P r r' :=
  History.Extends.of_eq h

theorem Grows.cons {e : ClientEffect} (h : r'.log = e :: r.log) (he : P e) : Grows P r r' :=
  History.Extends.cons h he

theorem Grows.trans (h : Grows P r r') (h' : Grows P r' r'') : Grows P r r'' :=
  History.Extends.trans h h'

theorem Grows.mono (hPQ : ∀ e, P e → Q e) (h : Grows P r r') : Grows Q r r' :=
  History.Extends.mono hPQ h

def Announces (event : NetworkEvent) (e : ClientEffect) : Prop :=
  e = .dispatched event ∨ e = .refused event

/-- What sending on `fd` writes. -/
def Sends (fd : ℤ) : ClientEffect → Prop
  | .sent fd' _ => fd' = fd
  | .kevent fd' change _ => fd' = fd ∧ change ≠ .addRead
  | _ => False

/-- What `DispatchEvent` can do. -/
theorem dispatchEvent_cases (env : Environment) (event : NetworkEvent) (r : ClientReactor) :
    r.receiver = .nobody ∧ r.dispatchEvent env event = r ∨
      r.dispatchEvent env event = r.emit (.dispatched event) ∨
      r.dispatchEvent env event = r.emit (.refused event) := by
  unfold dispatchEvent
  cases r.receiver with
  | workerPool => exact .inr (ite_eq_or_eq _ _ _)
  | callback => exact .inr (.inl rfl)
  | nobody => exact .inl ⟨rfl, rfl⟩

theorem dispatchEvent_grows (env : Environment) (event : NetworkEvent) (r : ClientReactor) :
    Grows (Announces event) r (r.dispatchEvent env event) := by
  rcases dispatchEvent_cases env event r with ⟨-, h⟩ | h | h <;> rw [h]
  · exact .of_eq rfl
  · exact .cons rfl (.inl rfl)
  · exact .cons rfl (.inr rfl)

theorem awaitWritable_grows (env : Environment) (fd : ℤ) (r : ClientReactor) :
    Grows (Sends fd) r (r.awaitWritable env fd) := by
  unfold awaitWritable
  split
  · exact .cons rfl ⟨rfl, by decide⟩
  · exact .of_eq rfl

theorem stopWriting_grows (env : Environment) (fd : ℤ) (r : ClientReactor) :
    Grows (Sends fd) r (r.stopWriting env fd) := by
  unfold stopWriting
  split
  · exact .cons rfl ⟨rfl, by decide⟩
  · exact .of_eq rfl

theorem trySendDirect_grows (env : Environment) (r : ClientReactor) :
    Grows (Sends r.connection.fileDescriptor) r (r.trySendDirect env).2 := by
  unfold trySendDirect
  dsimp only
  split
  · exact .of_eq rfl
  · split
    · exact .cons rfl rfl
    · refine Grows.trans ?_ ((awaitWritable_grows env _ _).trans (stopWriting_grows env _ _))
      split <;> exact .cons rfl rfl

theorem doSend_grows (env : Environment) {data : List UInt8} {success removes : Bool}
    (h : r.doSend env data = some (success, removes, r')) :
    Grows (Sends r.connection.fileDescriptor) r r' := by
  unfold doSend at h
  split at h
  · cases h
    exact .of_eq rfl
  · split at h
    · cases h
    · cases h
      exact .of_eq rfl
    · rename_i buffer hwrite
      obtain ⟨-, hresult⟩ := Prod.mk.inj (Option.some.inj h)
      have hgrows := trySendDirect_grows env (r.assign fun c => { c with sendBuffer := buffer })
      rw [hresult] at hgrows
      exact hgrows

def Completes (op : SendOperation) : ClientEffect → Prop
  | .calledBack callback _ _ => op.callback = some callback
  | .answered promise _ => op.promise = some promise
  | _ => False

theorem complete_grows (op : SendOperation) (success : Bool) (r : ClientReactor) :
    Grows (Completes op) r (r.complete op success) := by
  unfold complete
  cases hcallback : op.callback with
  | none =>
    cases hpromise : op.promise with
    | none => exact .of_eq rfl
    | some promise => exact .cons rfl hpromise
  | some callback =>
    have hcalled (sent : ℕ) : Completes op (.calledBack callback success sent) := hcallback
    cases hpromise : op.promise with
    | none => exact .cons rfl (hcalled _)
    | some promise => exact Grows.trans (.cons rfl (hcalled _)) (.cons rfl hpromise)

theorem processKqueueEvent_grows (env : Environment) (event : KEvent) (r : ClientReactor) :
    Grows (Sends r.connection.fileDescriptor) r (r.processKqueueEvent env event).2 := by
  have hsent := r.trySendDirect_grows env
  unfold processKqueueEvent
  split
  · exact .of_eq rfl
  · split
    · exact .of_eq rfl
    · split
      · exact .of_eq rfl
      · cases event.filter with
        | write => exact hsent
        | _ => exact .of_eq rfl

/-- What a call of `recv` on `fd` writes, for the connection `id`. -/
def Receives (fd : ℤ) (id : UInt64) : ClientEffect → Prop
  | .received fd' _ => fd' = fd
  | .dispatched event => ∃ data, event = .data id data
  | .refused event => ∃ data, event = .data id data
  | _ => False

theorem receive_grows (env : Environment) (fd : ℤ) (outcome : RecvOutcome) (r : ClientReactor) :
    Grows (Receives fd r.connection.connectionId) r (r.receive env fd outcome).2 := by
  cases outcome with
  | received data hdata =>
    refine Grows.trans ?_ ((dispatchEvent_grows env _ _).mono fun e he => ?_)
    · have hreceived : Receives fd r.connection.connectionId (.received fd data) := rfl
      exact .cons rfl hreceived
    · rcases he with rfl | rfl <;> exact ⟨data, rfl⟩
  | closed => exact .of_eq rfl
  | failed code => cases code <;> exact .of_eq rfl

/-- What `RemoveConnection` writes between two points. -/
def Removes (removal : Removal) (id : UInt64) : ClientEffect → Prop
  | .closed fd => removal = .closing fd
  | .dispatched event => removal = .disconnecting ∧ event = .disconnected id
  | .refused event => removal = .disconnecting ∧ event = .disconnected id
  | _ => False

theorem removeConnection_grows (env : Environment) (removal : Removal) (r : ClientReactor) :
    Grows (Removes removal r.connection.connectionId) r (r.removeConnection env removal).2 := by
  cases removal with
  | checking =>
    unfold removeConnection
    dsimp only
    split <;> exact .of_eq rfl
  | closing fd =>
    have hclosed : Removes (.closing fd) r.connection.connectionId (.closed fd) := rfl
    exact .cons rfl hclosed
  | clearing => exact .of_eq rfl
  | disconnecting =>
    refine (dispatchEvent_grows env _ r).mono fun e he => ?_
    rcases he with rfl | rfl <;> exact ⟨rfl, rfl⟩

/-- What `SetConnection` for `fd` writes between two points. -/
def Sets (fd : ℤ) (setting : Setting) (id : UInt64) : ClientEffect → Prop
  | .kevent fd' _ _ => setting = .monitoring ∧ fd' = fd
  | .closed fd' => setting = .monitoring ∧ fd' = fd ∨ setting = .removing (.closing fd')
  | .dispatched event => event = .disconnected id ∨ ∃ peer, event = .connected id peer
  | .refused event => event = .disconnected id ∨ ∃ peer, event = .connected id peer
  | _ => False

theorem setConnection_grows (env : Environment) (fd : ℤ) (peer : SockAddr) (setting : Setting)
    (r : ClientReactor) :
    Grows (Sets fd setting r.connection.connectionId) r
      (r.setConnection env fd peer setting).2 := by
  cases setting with
  | entering =>
    unfold setConnection
    dsimp only
    split <;> exact .of_eq rfl
  | checking =>
    unfold setConnection
    dsimp only
    split <;> exact .of_eq rfl
  | removing removal =>
    have hremoved : Grows (Sets fd (.removing removal) r.connection.connectionId) r
        (r.removeConnection env removal).2 := by
      refine (removeConnection_grows env removal r).mono fun e he => ?_
      cases e with
      | closed fd' => exact .inr (congrArg Setting.removing he)
      | dispatched event => exact .inl he.2
      | refused event => exact .inl he.2
      | _ => cases he
    unfold setConnection
    dsimp only
    split
    · rename_i heq
      rw [heq] at hremoved
      exact hremoved
    · rename_i heq
      rw [heq] at hremoved
      exact hremoved
  | monitoring =>
    have hmonitored : Grows (Sets fd .monitoring r.connection.connectionId) r
        (r.monitor env fd .addRead).2 := by
      have hkevent : Sets fd .monitoring r.connection.connectionId
          (.kevent fd .addRead (r.monitor env fd .addRead).1) := ⟨rfl, rfl⟩
      exact .cons rfl hkevent
    have hclosed : Sets fd .monitoring r.connection.connectionId (.closed fd) :=
      .inl ⟨rfl, rfl⟩
    unfold setConnection
    dsimp only
    split
    · exact hmonitored.trans (.cons rfl hclosed)
    · exact hmonitored
  | assigning => exact .of_eq rfl
  | raising => exact .of_eq rfl
  | connecting =>
    refine (dispatchEvent_grows env _ r).mono fun e he => ?_
    rcases he with rfl | rfl <;> exact .inr ⟨_, rfl⟩
  | returned success => exact .of_eq rfl

end ClientReactor

end DarwinCore.Network
