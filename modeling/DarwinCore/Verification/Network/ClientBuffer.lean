import DarwinCore.Verification.Network.ClientFrame
import DarwinCore.Verification.Network.SendBuffer

/-! # The send buffer of a client reactor

What `DoSend` puts into the send buffer leaves it in order, through `send`. -/

namespace DarwinCore.Network

/-- The bytes that `send` handed to the kernel, each with the descriptor it was called for. -/
def ClientEffect.handed : ClientEffect → List (ℤ × UInt8)
  | .sent fd data => data.map (Prod.mk fd)
  | _ => []

namespace ClientReactor

/-- What has been handed to the kernel, oldest first. -/
def handed (r : ClientReactor) : List (ℤ × UInt8) :=
  History.collect ClientEffect.handed r.log

def unsent (r : ClientReactor) : List UInt8 :=
  r.connection.sendBuffer.readable

variable {P : ClientEffect → Prop} {r r' r'' : ClientReactor} {fd : ℤ} {added : List UInt8}

/-! ## Functions that do not send -/

/-- Neither the send buffer nor what has been handed over changes. -/
structure SameBuffer (r r' : ClientReactor) : Prop where
  buffer : r'.connection.sendBuffer = r.connection.sendBuffer
  handed : r'.handed = r.handed

theorem SameBuffer.refl (r : ClientReactor) : r.SameBuffer r :=
  ⟨rfl, rfl⟩

theorem SameBuffer.trans (h : r.SameBuffer r') (h' : r'.SameBuffer r'') : r.SameBuffer r'' :=
  ⟨h'.buffer.trans h.buffer, h'.handed.trans h.handed⟩

theorem SameBuffer.unsent (h : r.SameBuffer r') : r'.unsent = r.unsent := by
  rw [ClientReactor.unsent, h.buffer]
  rfl

/-- An entry of the log that is no `send`. -/
theorem SameBuffer.cons {e : ClientEffect} (hbuffer : r'.connection = r.connection)
    (hlog : r'.log = e :: r.log) (he : e.handed = []) : r.SameBuffer r' := by
  refine ⟨congrArg ClientConnection.sendBuffer hbuffer, ?_⟩
  rw [ClientReactor.handed, hlog, History.collect, he, List.append_nil]
  rfl

theorem dispatchEvent_sameBuffer (env : Environment) (event : NetworkEvent) (r : ClientReactor) :
    r.SameBuffer (r.dispatchEvent env event) := by
  rcases dispatchEvent_cases env event r with ⟨-, h⟩ | h | h <;> rw [h]
  · exact .refl r
  · exact .cons rfl rfl rfl
  · exact .cons rfl rfl rfl

theorem monitor_sameBuffer (env : Environment) (fd : ℤ) (change : Change) (r : ClientReactor) :
    r.SameBuffer (r.monitor env fd change).2 :=
  .cons rfl rfl rfl

theorem awaitWritable_sameBuffer (env : Environment) (fd : ℤ) (r : ClientReactor) :
    r.SameBuffer (r.awaitWritable env fd) := by
  unfold awaitWritable
  split
  · exact ⟨rfl, (monitor_sameBuffer env fd .addWrite r).handed⟩
  · exact .refl r

theorem stopWriting_sameBuffer (env : Environment) (fd : ℤ) (r : ClientReactor) :
    r.SameBuffer (r.stopWriting env fd) := by
  unfold stopWriting
  split
  · exact ⟨rfl, (monitor_sameBuffer env fd .deleteWrite r).handed⟩
  · exact .refl r

theorem removeConnection_sameBuffer (env : Environment) (removal : Removal) (r : ClientReactor) :
    r.SameBuffer (r.removeConnection env removal).2 := by
  cases removal with
  | checking =>
    unfold removeConnection
    dsimp only
    split <;> exact .refl r
  | closing fd => exact .cons rfl rfl rfl
  | clearing => exact ⟨rfl, rfl⟩
  | disconnecting => exact dispatchEvent_sameBuffer env _ r

theorem setConnection_sameBuffer (env : Environment) (fd : ℤ) (peer : SockAddr)
    (setting : Setting) (r : ClientReactor) :
    r.SameBuffer (r.setConnection env fd peer setting).2 := by
  cases setting with
  | entering =>
    unfold setConnection
    dsimp only
    split <;> exact .refl r
  | checking =>
    unfold setConnection
    dsimp only
    split <;> exact .refl r
  | removing removal =>
    have hremoved := removeConnection_sameBuffer env removal r
    unfold setConnection
    dsimp only
    split <;> rename_i heq <;> rw [heq] at hremoved <;> exact hremoved
  | monitoring =>
    have hmonitored := monitor_sameBuffer env fd .addRead r
    unfold setConnection
    dsimp only
    split
    · exact hmonitored.trans (.cons rfl rfl rfl)
    · exact hmonitored
  | assigning => exact ⟨rfl, rfl⟩
  | raising => exact ⟨rfl, rfl⟩
  | connecting => exact dispatchEvent_sameBuffer env _ r
  | returned success => exact .refl r

theorem complete_sameBuffer (op : SendOperation) (success : Bool) (r : ClientReactor) :
    r.SameBuffer (r.complete op success) := by
  unfold complete
  cases op.callback with
  | none =>
    cases op.promise with
    | none => exact .refl r
    | some promise => exact .cons rfl rfl rfl
  | some callback =>
    have hcalled (sent : ℕ) : r.SameBuffer (r.emit (.calledBack callback success sent)) :=
      .cons rfl rfl rfl
    cases op.promise with
    | none => exact hcalled _
    | some promise => exact (hcalled _).trans (.cons rfl rfl rfl)

theorem receive_sameBuffer (env : Environment) (fd : ℤ) (outcome : RecvOutcome)
    (r : ClientReactor) : r.SameBuffer (r.receive env fd outcome).2 := by
  cases outcome with
  | received data hdata =>
    refine SameBuffer.trans ?_ (dispatchEvent_sameBuffer env _ _)
    have hcounted : r.SameBuffer { r.updateActivity env with
        totalBytesReceived := r.totalBytesReceived + data.length } := ⟨rfl, rfl⟩
    exact hcounted.trans (.cons rfl rfl rfl)
  | closed => exact .refl r
  | failed code => cases code <;> exact .refl r

theorem shutdownConnection_sameBuffer (r : ClientReactor) :
    r.SameBuffer r.shutdownConnection := by
  unfold shutdownConnection
  split
  · exact .cons rfl rfl rfl
  · exact .refl r

theorem closeConnection_sameBuffer (r : ClientReactor) : r.SameBuffer r.closeConnection := by
  unfold closeConnection
  split
  · have hclosed : r.SameBuffer (r.closeFd r.connection.fileDescriptor) := .cons rfl rfl rfl
    exact hclosed.trans ⟨rfl, rfl⟩
  · exact .refl r

/-! ## Functions that send -/

/-- The send buffer takes `added` in at its end, and some of it leaves at the front, handed to
the kernel for `fd`. -/
structure Passes (fd : ℤ) (added : List UInt8) (r r' : ClientReactor) : Prop where
  valid : r'.connection.sendBuffer.Valid
  flow : ∃ took, r.unsent ++ added = took ++ r'.unsent ∧
    r'.handed = r.handed ++ took.map (Prod.mk fd)

theorem SameBuffer.passes (h : r.SameBuffer r') (hvalid : r.connection.sendBuffer.Valid)
    (fd : ℤ) : Passes fd [] r r' := by
  refine ⟨h.buffer ▸ hvalid, [], ?_, ?_⟩
  · rw [h.unsent, List.append_nil, List.nil_append]
  · rw [h.handed, List.map_nil, List.append_nil]

/-- What the kernel takes of the send buffer in `TrySendDirect`. -/
def takes (env : Environment) (r : ClientReactor) : ℕ :=
  (env.send r.log.length r.connection.sendBuffer.size).taken

theorem trySendDirect_sends (env : Environment) (hvalid : r.connection.sendBuffer.Valid)
    (hconnection : r.hasConnection = true) (hfd : 0 ≤ r.connection.fileDescriptor) :
    (r.trySendDirect env).2.connection.sendBuffer.Valid ∧
      (r.trySendDirect env).2.unsent = r.unsent.drop (r.takes env) ∧
      (r.trySendDirect env).2.handed =
        r.handed ++ (r.unsent.take (r.takes env)).map (Prod.mk r.connection.fileDescriptor) := by
  obtain ⟨hrest, hdrop⟩ := hvalid.sendToSocket hfd (env.send r.log.length)
  have hgo : ¬(¬r.hasConnection = true ∨ r.connection.fileDescriptor < 0) := by
    rw [not_or, not_not]
    exact ⟨hconnection, not_lt.mpr hfd⟩
  unfold trySendDirect
  dsimp only
  rw [if_neg hgo]
  split
  · exact ⟨hrest, hdrop, rfl⟩
  · have hlater (s s' : ClientReactor) (hsame : s.SameBuffer s')
        (hvalid : s.connection.sendBuffer.Valid)
        (hunsent : s.unsent = r.unsent.drop (r.takes env)) :
        s'.connection.sendBuffer.Valid ∧ s'.unsent = r.unsent.drop (r.takes env) ∧
          s'.handed = s.handed :=
      ⟨hsame.buffer ▸ hvalid, hsame.unsent.trans hunsent, hsame.handed⟩
    have hend (s : ClientReactor) (fd : ℤ) :
        s.SameBuffer ((s.awaitWritable env fd).stopWriting env fd) :=
      (awaitWritable_sameBuffer env fd s).trans (stopWriting_sameBuffer env fd _)
    split <;> exact hlater _ _ (hend _ _) hrest hdrop

theorem trySendDirect_idle (env : Environment)
    (h : ¬(r.hasConnection = true ∧ 0 ≤ r.connection.fileDescriptor)) :
    r.trySendDirect env = (false, r) := by
  unfold trySendDirect
  dsimp only
  rw [if_pos]
  rw [not_and_or, not_le] at h
  exact h

theorem trySendDirect_passes (env : Environment) (hvalid : r.connection.sendBuffer.Valid) :
    Passes r.connection.fileDescriptor [] r (r.trySendDirect env).2 := by
  by_cases h : r.hasConnection = true ∧ 0 ≤ r.connection.fileDescriptor
  · obtain ⟨hrest, hdrop, hhanded⟩ := trySendDirect_sends env hvalid h.1 h.2
    refine ⟨hrest, r.unsent.take (r.takes env), ?_, hhanded⟩
    rw [hdrop, List.append_nil, List.take_append_drop]
  · rw [trySendDirect_idle env h]
    exact (SameBuffer.refl r).passes hvalid _

theorem trySendDirect_unconnected (env : Environment) (hnone : r.hasConnection = false) :
    r.SameBuffer (r.trySendDirect env).2 := by
  rw [trySendDirect_idle env fun h => Bool.false_ne_true (hnone.symm.trans h.1)]
  exact .refl r

/-- `DoSend` fails without a connection, and when the data does not fit. -/
inductive DoSendCase (env : Environment) (data : List UInt8) (r : ClientReactor) :
    Bool → Bool → ClientReactor → Prop where
  | refused {r' : ClientReactor} (hvalid : r'.connection.sendBuffer.Valid)
      (hunsent : r'.unsent = r.unsent)
      (hhanded : r'.handed = r.handed) : DoSendCase env data r false false r'
  | buffered {buffer : SendBuffer} (hconnection : r.hasConnection = true) (hvalid : buffer.Valid)
      (hpos : data ≠ []) (hreadable : buffer.readable = r.unsent ++ data) :
      DoSendCase env data r true
        ((r.assign fun c => { c with sendBuffer := buffer }).trySendDirect env).1
        ((r.assign fun c => { c with sendBuffer := buffer }).trySendDirect env).2

theorem doSend_cases (env : Environment) {data : List UInt8} {success removes : Bool}
    (hvalid : r.connection.sendBuffer.Valid) (hsized : data.length < 2 ^ 63)
    (h : r.doSend env data = some (success, removes, r')) :
    DoSendCase env data r success removes r' := by
  unfold doSend at h
  split at h
  · cases h
    exact .refused hvalid rfl rfl
  · rename_i hconnection
    rw [not_not] at hconnection
    cases data with
    | nil =>
      cases h
      exact .refused hvalid rfl rfl
    | cons b data =>
      obtain ⟨buffer, hwrite, hbuffer, hreadable⟩ := hvalid.write (Nat.le_add_left 1 _) hsized
      rw [hwrite] at h
      by_cases hfits : r.connection.sendBuffer.size + (b :: data).length ≤ maxCapacity
      · rw [decide_eq_true hfits] at h
        rw [if_pos hfits] at hreadable
        obtain ⟨rfl, hresult⟩ := Prod.mk.inj (Option.some.inj h)
        obtain ⟨rfl, rfl⟩ := Prod.mk.inj hresult
        exact .buffered hconnection hbuffer (List.cons_ne_nil _ _) hreadable
      · rw [decide_eq_false hfits] at h
        rw [if_neg hfits] at hreadable
        cases h
        exact .refused hbuffer hreadable rfl

theorem doSend_passes (env : Environment) {data : List UInt8} {success removes : Bool}
    (hvalid : r.connection.sendBuffer.Valid) (hsized : data.length < 2 ^ 63)
    (h : r.doSend env data = some (success, removes, r')) :
    Passes r.connection.fileDescriptor (if success then data else []) r r' := by
  cases doSend_cases env hvalid hsized h with
  | refused hvalid hunsent hhanded =>
    refine ⟨hvalid, [], ?_, ?_⟩
    · rw [hunsent, if_neg Bool.false_ne_true, List.append_nil, List.nil_append]
    · rw [hhanded, List.map_nil, List.append_nil]
  | @buffered buffer hconnection hbuffer hpos hreadable =>
    obtain ⟨hvalid, took, hflow, hhanded⟩ := trySendDirect_passes env
      (r := r.assign fun c => { c with sendBuffer := buffer }) hbuffer
    refine ⟨hvalid, took, ?_, hhanded⟩
    rw [if_pos rfl, ← hflow, List.append_nil]
    exact hreadable.symm

theorem processKqueueEvent_passes (env : Environment) (event : KEvent)
    (hvalid : r.connection.sendBuffer.Valid) :
    Passes r.connection.fileDescriptor [] r (r.processKqueueEvent env event).2 := by
  have hsent := trySendDirect_passes env hvalid
  have hsame := (SameBuffer.refl r).passes hvalid r.connection.fileDescriptor
  unfold processKqueueEvent
  split
  · exact hsame
  · split
    · exact hsame
    · split
      · exact hsame
      · cases event.filter with
        | write => exact hsent
        | _ => exact hsame

theorem processKqueueEvent_unconnected (env : Environment) (event : KEvent)
    (hnone : r.hasConnection = false) : r.SameBuffer (r.processKqueueEvent env event).2 := by
  rw [processKqueueEvent, if_pos (.inl (by simp [hnone]))]
  exact .refl r

end ClientReactor

end DarwinCore.Network
