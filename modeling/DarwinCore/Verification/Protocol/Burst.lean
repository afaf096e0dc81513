import DarwinCore.Library.ReflectedCrc
import DarwinCore.Verification.Protocol.Frames

/-! # Burst protection

On a little-endian host the trailer is the complemented register of a reflected CRC over
the data, so a frame is fitting exactly when the register ends in the residue. -/

namespace DarwinCore.Protocol

open ByteOrder ReflectedCrc

/-! ## The table-driven code as a register -/

/-- The polynomial of `CRC_TABLE`, reflected. -/
def crcPolynomial : BitVec 32 := 0xEDB88320#32

theorem crcPolynomial_msb : crcPolynomial.msb = true := by decide

theorem crcTable_eq (i : Fin 256) : (crcTable.getD i 0).toBitVec =
    (bitStep crcPolynomial)^[8] (BitVec.ofNat 32 i) := by
  revert i
  decide +kernel

theorem crcStep_eq_byteStep (crc : UInt32) (b : UInt8) :
    (crcStep crc b).toBitVec = byteStep crcPolynomial crc.toBitVec b := by
  have hx : crc.toBitVec ^^^ b.toBitVec.setWidth 32 = (crc ^^^ b.toUInt32).toBitVec := rfl
  have hindex : ((crc ^^^ b.toUInt32) &&& 0xFF).toNat =
      ((crc ^^^ b.toUInt32).toBitVec.setWidth 8).toNat := by
    rw [BitVec.toNat_setWidth, UInt32.toNat_and]
    exact Nat.and_two_pow_sub_one_eq_mod _ 8
  have htable := crcTable_eq ⟨_, BitVec.isLt ((crc ^^^ b.toUInt32).toBitVec.setWidth 8)⟩
  have hlow : ((crc ^^^ b.toUInt32).toBitVec.setWidth 8).setWidth 32 =
      BitVec.ofNat 32 ((crc ^^^ b.toUInt32).toBitVec.setWidth 8).toNat :=
    BitVec.eq_of_toNat_eq (by simp)
  have hshift : (crc.toBitVec ^^^ b.toBitVec.setWidth 32) >>> 8 = crc.toBitVec >>> 8 := by
    apply BitVec.eq_of_getLsbD_eq
    intro i _
    simp
  have hstep : (crcStep crc b).toBitVec =
      (crcTable.getD ((crc ^^^ b.toUInt32).toBitVec.setWidth 8).toNat 0).toBitVec ^^^
        (crc.toBitVec >>> 8) := by
    rw [crcStep, hindex]
    simp
  have hbyte : byteStep crcPolynomial crc.toBitVec b =
      (bitStep crcPolynomial)^[8] (BitVec.ofNat 32
        ((crc ^^^ b.toUInt32).toBitVec.setWidth 8).toNat) ^^^ (crc.toBitVec >>> 8) := by
    rw [byteStep, iterate_bitStep_eight, hshift, hx, hlow]
  rw [hstep, hbyte, htable]

theorem foldl_crcStep (crc : UInt32) (data : List UInt8) :
    (data.foldl crcStep crc).toBitVec = run crcPolynomial crc.toBitVec data := by
  induction data generalizing crc with
  | nil => rfl
  | cons b data ih => rw [List.foldl_cons, ih, crcStep_eq_byteStep, run_cons]

theorem calculateCrc32_eq_run (data : List UInt8) :
    (calculateCrc32 data).toBitVec = ~~~run crcPolynomial (BitVec.allOnes 32) data := by
  have hones : (0xFFFFFFFF : UInt32).toBitVec = BitVec.allOnes 32 := by decide
  rw [calculateCrc32, UInt32.toBitVec_xor, foldl_crcStep, hones, BitVec.xor_allOnes]

/-! ## Little-endian words -/

theorem testBit_leValue (bytes : List UInt8) (i : ℕ) :
    (leValue bytes).testBit i = (bytes.getD (i / 8) 0).toNat.testBit (i % 8) := by
  induction bytes generalizing i with
  | nil => simp [leValue]
  | cons b bytes ih =>
    rw [leValue, Nat.add_comm, show (256 : ℕ) = 2 ^ 8 from rfl,
      Nat.testBit_two_pow_mul_add _ b.toNat_lt]
    by_cases hi : i < 8
    · simp [hi, Nat.div_eq_of_lt hi, Nat.mod_eq_of_lt hi]
    · obtain ⟨j, rfl⟩ : ∃ j, i = j + 8 := ⟨i - 8, by omega⟩
      simp [ih]

theorem ofNat_leValue (w : ℕ) (bytes : List UInt8) :
    BitVec.ofNat w (leValue bytes) = leWord w bytes := by
  apply BitVec.eq_of_getLsbD_eq
  intro i hi
  rw [BitVec.getLsbD_ofNat, testBit_leValue, getLsbD_leWord]
  rfl

theorem loadU32_trailer {data trailer : List UInt8} (h : trailer.length = 4) :
    (loadU32 .little (data ++ trailer) data.length).toBitVec = leWord 32 trailer := by
  rw [loadU32_skip .little data trailer le_rfl, Nat.sub_self, loadU32]
  have hload : Endian.load .little 4 trailer 0 = leValue trailer := by
    simp [Endian.load, Endian.decode, ← h]
  rw [hload, ← ofNat_leValue]
  rfl

/-! ## Fitting trailers -/

theorem crcMismatch_eq_false_iff {h : FrameHeader} {payload : List UInt8}
    (htrailer : h.hasTrailer = true) (hlen : payload.length = h.payloadLen.toNat) :
    h.crcMismatch .little payload = false ↔
      run crcPolynomial (BitVec.allOnes 32) payload = residue crcPolynomial := by
  have hsize : crcSize ≤ h.payloadLen.toNat := by
    simp only [FrameHeader.hasTrailer, Bool.and_eq_true, decide_eq_true_eq] at htrailer
    exact htrailer.2
  have hdata : h.dataLen = payload.length - 4 := by
    rw [FrameHeader.dataLen, if_pos htrailer, hlen, crcSize]
  have hfour : 4 ≤ payload.length := by rw [hlen]; exact hsize
  have htake : (payload.take h.dataLen).length = h.dataLen := by
    rw [List.length_take, hdata]
    omega
  have hdrop : (payload.drop h.dataLen).length = 4 := by
    rw [List.length_drop, hdata]
    omega
  have hload : (loadU32 .little payload h.dataLen).toBitVec =
      leWord 32 (payload.drop h.dataLen) := by
    have hword : (loadU32 .little (payload.take h.dataLen ++ payload.drop h.dataLen)
        (payload.take h.dataLen).length).toBitVec = leWord 32 (payload.drop h.dataLen) :=
      loadU32_trailer hdrop
    rwa [List.take_append_drop, htake] at hword
  have hrun : run crcPolynomial (BitVec.allOnes 32) payload =
      run crcPolynomial (run crcPolynomial (BitVec.allOnes 32) (payload.take h.dataLen))
        (payload.drop h.dataLen) := by
    rw [← run_append, List.take_append_drop]
  rw [hrun, run_trailer crcPolynomial crcPolynomial_msb _ (by rw [hdrop]), ← hload,
    ← calculateCrc32_eq_run, UInt32.toBitVec_inj]
  simp [FrameHeader.crcMismatch, htrailer]

/-- A burst inside a window of four payload bytes spoils a fitting frame. -/
theorem crcMismatch_of_burst {h : FrameHeader} {front xs ys back : List UInt8}
    (htrailer : h.hasTrailer = true)
    (hlen : (front ++ xs ++ back).length = h.payloadLen.toNat)
    (hfit : h.crcMismatch .little (front ++ xs ++ back) = false)
    (hsame : xs.length = ys.length) (hwindow : xs.length ≤ 4) (hne : xs ≠ ys) :
    h.crcMismatch .little (front ++ ys ++ back) = true := by
  by_contra hnot
  have hlen' : (front ++ ys ++ back).length = h.payloadLen.toNat := by
    rw [← hlen]
    simp [hsame]
  have hrun := (crcMismatch_eq_false_iff htrailer hlen).mp hfit
  have hrun' := (crcMismatch_eq_false_iff htrailer hlen').mp (Bool.eq_false_of_not_eq_true hnot)
  exact hne (run_window_injective crcPolynomial crcPolynomial_msb _ front back hsame
    (by omega) (hrun.trans hrun'.symm))

/-! ## The decoder after a skipped frame -/

namespace Decoder

def countSkipped (d : Decoder) : Decoder :=
  d.countFrame.countCrcError

theorem finishSlice_countSkipped (d : Decoder) (id : UInt64) (m : MessageAssembly) :
    d.countSkipped.finishSlice id m = (d.finishSlice id m).countSkipped := by
  unfold finishSlice
  split <;> rfl

theorem onMessage_countSkipped (e : Endian) (now : ℕ) (d : Decoder) (payload : List UInt8)
    (len : ℕ) :
    (d.countSkipped.onMessage e now payload len).ending =
      (d.onMessage e now payload len).ending.map countSkipped := by
  have hassembly : ∀ mh, d.countSkipped.assembly now mh = d.assembly now mh := fun _ => rfl
  unfold onMessage
  simp only [hassembly, finishSlice_countSkipped]
  split
  · rfl
  · split
    · rfl
    · split
      · rfl
      · split
        · split <;> rfl
        · rfl

theorem onStream_countSkipped (e : Endian) (d : Decoder) (type : FrameType)
    (payload : List UInt8) (len : ℕ) :
    (d.countSkipped.onStream e type payload len).ending =
      (d.onStream e type payload len).ending.map countSkipped := by
  unfold onStream
  simp only
  split
  · rfl
  · cases type with
    | streamChunk =>
      simp only
      split <;> rfl
    | _ => rfl

theorem turn_countSkipped (e : Endian) (now : ℕ) (d : Decoder) :
    (d.countSkipped.turn e now).ending = (d.turn e now).ending.map countSkipped := by
  have hmap : ∀ (x : Ending) (hdr : FrameHeader), (x.map countSkipped).mapNext (popFrame · hdr) =
      (x.mapNext (popFrame · hdr)).map countSkipped := by
    intro x hdr
    cases x <;> rfl
  have hbuffer : d.countSkipped.buffer = d.buffer := rfl
  unfold turn
  rw [hbuffer]
  cases front e d.buffer with
  | incomplete => rfl
  | rejected error => rfl
  | complete hdr =>
    simp only [onFrame, hbuffer]
    split
    · rfl
    · simp only [Turn.mapNext, onBody, ← hmap]
      congr 1
      split
      · exact onMessage_countSkipped e now d.countFrame _ _
      · exact onStream_countSkipped e d.countFrame _ _ _

theorem tryDecode_countSkipped (e : Endian) (clock : ℕ → ℕ) (d : Decoder) :
    d.countSkipped.tryDecode e clock = (d.tryDecode e clock).map countSkipped := by
  induction d using turn_induction (e := e) generalizing clock with
  | step d ih =>
    rw [tryDecode_eq, tryDecode_eq, turn_countSkipped]
    cases hend : (d.turn e (clock 0)).ending with
    | next d' => exact ih _ d' hend _
    | _ => rfl

theorem feedAll_countSkipped (e : Endian) (d : Decoder) (chunks : List Chunk) :
    feedAll e d.countSkipped chunks = (feedAll e d chunks).map countSkipped := by
  induction chunks generalizing d with
  | nil => rfl
  | cons c chunks ih =>
    have hfeed : d.countSkipped.feed e c.clock c.data =
        (d.feed e c.clock c.data).map countSkipped :=
      tryDecode_countSkipped e c.clock (d.receive c.data)
    rw [feedAll, feedAll, hfeed]
    cases d.feed e c.clock c.data with
    | normal d' => exact ih d'
    | _ => rfl

/-- The rest of a run, from the top of the loop on. -/
def resume (e : Endian) (clock : ℕ → ℕ) (d : Decoder) (chunks : List Chunk) : FeedResult :=
  match d.tryDecode e clock with
  | .normal d => feedAll e d chunks
  | result => result

theorem resume_countSkipped (e : Endian) (clock : ℕ → ℕ) (d : Decoder) (chunks : List Chunk) :
    d.countSkipped.resume e clock chunks = (d.resume e clock chunks).map countSkipped := by
  rw [resume, resume, tryDecode_countSkipped]
  cases d.tryDecode e clock with
  | normal d' => exact feedAll_countSkipped e d' chunks
  | _ => rfl

/-- A burst inside four payload bytes of a frame with a trailer: when the corrupted frame is
at the front of the buffer, the turn removes it, delivers nothing and counts the error, and
the rest of the run is that of a decoder to which the frame never came. -/
theorem burst_skipped {f : Frame} (hf : f.Passes) (htrailer : f.header.hasTrailer = true)
    (hfit : f.spoiled .little = false) {front xs ys back : List UInt8}
    (hpayload : f.payload = front ++ xs ++ back) (hsame : xs.length = ys.length)
    (hwindow : xs.length ≤ 4) (hne : xs ≠ ys) (d : Decoder) (rest : List UInt8)
    (hbuffer : d.buffer =
      Frame.serialize .little ⟨f.header, front ++ ys ++ back⟩ ++ rest) (clock : ℕ → ℕ) :
    (d.turn .little (clock 0)).ending =
        .next { d with
          buffer := rest
          stats := { d.stats with
            framesReceived := d.stats.framesReceived + 1
            crcErrors := d.stats.crcErrors + 1 } } ∧
      ∀ chunks, d.resume .little clock chunks =
        ((d.withBuffer rest).resume .little (fun i => clock (i + 1)) chunks).map
          countSkipped := by
  have hlen : (front ++ ys ++ back).length = f.payload.length := by
    rw [hpayload]
    simp [hsame]
  have hpasses : (⟨f.header, front ++ ys ++ back⟩ : Frame).Passes :=
    ⟨hf.magic1, hf.magic2, hf.version, hf.bound, hlen.trans hf.length⟩
  have hcrc : f.header.crcMismatch .little (front ++ ys ++ back) = true := by
    refine crcMismatch_of_burst htrailer ?_ ?_ hsame hwindow hne
    · rw [← hpayload, hf.length]
    · rw [← hpayload]
      exact hfit
  have hturn : (d.turn .little (clock 0)).ending =
      .next (d.withBuffer rest).countSkipped := by
    have hfront := Frame.front_serialize .little hpasses rest
    have hrest := Frame.drop_serialize .little hpasses rest
    rw [turn, hbuffer, hfront]
    simp only [onFrame]
    rw [hbuffer, Frame.payload_serialize, crcMismatch_append _ _ _ _ hpasses.length.ge,
      if_pos hcrc]
    simp only [popFrame, Ending.next.injEq]
    exact congrArg (d.countSkipped.withBuffer) (by
      rw [show d.countFrame.countCrcError.buffer = d.buffer from rfl, hbuffer]
      exact hrest)
  refine ⟨hturn, fun chunks => ?_⟩
  rw [← resume_countSkipped, resume, tryDecode_eq, hturn]
  rfl

/-- A message of one byte with the trailer that fits the byte `0x41`. -/
def letterFrame (b : UInt8) : Frame where
  header := ⟨0x5A, 0x5C, 1, 1, 1, 17, 0, 0⟩
  payload := [7, 0, 0, 0, 0, 0, 0, 0, 1, 0, 0, 0] ++ [b] ++ [0x6C, 0x18, 0xBC, 0x4E]

/-- One flipped bit, and the start of a next frame. -/
theorem burst_skipped_bit :
    let d : Decoder := { buffer := (letterFrame 0x40).serialize .little ++ [0x5A] }
    (d.turn .little 0).ending =
        .next { buffer := [0x5A], stats := { framesReceived := 1, crcErrors := 1 } } ∧
      ∀ chunks, d.resume .little (fun _ => 0) chunks =
        ((d.withBuffer [0x5A]).resume .little (fun _ => 0) chunks).map countSkipped :=
  burst_skipped (f := letterFrame 0x41) ⟨rfl, rfl, rfl, by decide, rfl⟩ (by decide)
    (by decide +kernel) rfl (show [(0x41 : UInt8)].length = [(0x40 : UInt8)].length from rfl)
    (by decide) (by decide) _ [0x5A] rfl fun _ => 0

end Decoder

end DarwinCore.Protocol
