import DarwinCore.Verification.Network.Frame
import Mathlib.Data.Nat.Bitwise
import Mathlib.Order.Interval.Finset.Nat

/-! # Connection ids and their numbers -/

namespace DarwinCore.Network

/-! ## The fields of a connection id

They do not overlap, so that each is found again. -/

namespace ConnectionIdGenerator

/-- A digit below all digits of the other number is added by a disjunction. -/
theorem or_eq_add {a b n : ℕ} (ha : 2 ^ n ∣ a) (hb : b < 2 ^ n) : a ||| b = a + b := by
  obtain ⟨c, rfl⟩ := ha
  exact (Nat.two_pow_add_eq_or_of_lt hb c).symm

theorem mask_eq_mod (n : ℕ) :
    n &&& 255 = n % 2 ^ 8 ∧ n &&& 65535 = n % 2 ^ 16 ∧ n &&& 16777215 = n % 2 ^ 24 :=
  ⟨Nat.and_two_pow_sub_one_eq_mod n 8, Nat.and_two_pow_sub_one_eq_mod n 16,
    Nat.and_two_pow_sub_one_eq_mod n 24⟩

theorem generate_toNat (now : Tm) (reactorId : UInt8) (fd seq : UInt16) :
    (generate now reactorId fd seq).toNat =
      (getCurrentDate now).toNat % 2 ^ 24 * 2 ^ 40 + reactorId.toNat * 2 ^ 32 +
        fd.toNat * 2 ^ 16 + seq.toNat := by
  have hid : reactorId.toNat < 2 ^ 8 := reactorId.toNat_lt
  have hfd : fd.toNat < 2 ^ 16 := fd.toNat_lt
  have hseq : seq.toNat < 2 ^ 16 := seq.toNat_lt
  have hid' : reactorId.toNat &&& 255 = reactorId.toNat :=
    (mask_eq_mod _).1.trans (Nat.mod_eq_of_lt hid)
  have hfd' : fd.toNat &&& 65535 = fd.toNat := (mask_eq_mod _).2.1.trans (Nat.mod_eq_of_lt hfd)
  have hseq' : seq.toNat &&& 65535 = seq.toNat :=
    (mask_eq_mod _).2.1.trans (Nat.mod_eq_of_lt hseq)
  obtain ⟨date, hdate⟩ : ∃ date, date = (getCurrentDate now).toNat % 2 ^ 24 := ⟨_, rfl⟩
  have hlt : date < 2 ^ 24 := hdate ▸ Nat.mod_lt _ (by decide)
  have hpacked : (generate now reactorId fd seq).toNat =
      date * 2 ^ 40 % 2 ^ 64 ||| reactorId.toNat * 2 ^ 32 % 2 ^ 64 |||
        fd.toNat * 2 ^ 16 % 2 ^ 64 ||| seq.toNat := by
    rw [hdate, ← (mask_eq_mod _).2.2]
    simp [generate, Nat.shiftLeft_eq, hid', hfd', hseq']
  have h40 : date * 2 ^ 40 ||| reactorId.toNat * 2 ^ 32 =
      date * 2 ^ 40 + reactorId.toNat * 2 ^ 32 :=
    or_eq_add ⟨date, Nat.mul_comm _ _⟩ (by omega)
  have h32 : date * 2 ^ 40 + reactorId.toNat * 2 ^ 32 ||| fd.toNat * 2 ^ 16 =
      date * 2 ^ 40 + reactorId.toNat * 2 ^ 32 + fd.toNat * 2 ^ 16 :=
    or_eq_add (n := 32) ⟨date * 2 ^ 8 + reactorId.toNat, by omega⟩ (by omega)
  have h16 : date * 2 ^ 40 + reactorId.toNat * 2 ^ 32 + fd.toNat * 2 ^ 16 ||| seq.toNat =
      date * 2 ^ 40 + reactorId.toNat * 2 ^ 32 + fd.toNat * 2 ^ 16 + seq.toNat :=
    or_eq_add (n := 16) ⟨date * 2 ^ 24 + reactorId.toNat * 2 ^ 16 + fd.toNat, by omega⟩ hseq
  rw [hpacked, ← hdate, Nat.mod_eq_of_lt (by omega), Nat.mod_eq_of_lt (by omega),
    Nat.mod_eq_of_lt (by omega), h40, h32, h16]

theorem parse_toNat (connId : UInt64) :
    (parse connId).2.1.toNat = connId.toNat / 2 ^ 32 % 2 ^ 8 ∧
      (parse connId).2.2.1.toNat = connId.toNat / 2 ^ 16 % 2 ^ 16 ∧
      (parse connId).2.2.2.toNat = connId.toNat % 2 ^ 16 := by
  simp [parse, mask_eq_mod, Nat.shiftRight_eq_div_pow]

/-- `Parse` finds what `Generate` was given. -/
theorem parse_generate (now : Tm) (reactorId : UInt8) (fd seq : UInt16) :
    (parse (generate now reactorId fd seq)).2 = (reactorId, fd, seq) := by
  obtain ⟨hid, hfd, hseq⟩ := parse_toNat (generate now reactorId fd seq)
  have hid8 : reactorId.toNat < 2 ^ 8 := reactorId.toNat_lt
  have hfd16 : fd.toNat < 2 ^ 16 := fd.toNat_lt
  have hseq16 : seq.toNat < 2 ^ 16 := seq.toNat_lt
  rw [generate_toNat] at hid hfd hseq
  have hid' : (parse (generate now reactorId fd seq)).2.1 = reactorId :=
    UInt8.toNat_inj.mp (by omega)
  have hfd' : (parse (generate now reactorId fd seq)).2.2.1 = fd := UInt16.toNat_inj.mp (by omega)
  have hseq' : (parse (generate now reactorId fd seq)).2.2.2 = seq :=
    UInt16.toNat_inj.mp (by omega)
  exact Prod.ext hid' (Prod.ext hfd' hseq')

theorem generate_ne_zero (now : Tm) (reactorId : UInt8) (fd : UInt16) {seq : UInt16}
    (h : seq ≠ 0) : generate now reactorId fd seq ≠ 0 := by
  intro hzero
  have hparse := parse_generate now reactorId fd seq
  rw [hzero] at hparse
  exact h (congrArg (fun fields => fields.2.2) hparse.symm)

end ConnectionIdGenerator

/-! ## Sequence numbers

Each id that is generated takes the next one of 65535 sequence numbers. -/

open ConnectionIdGenerator

def sequenceCount : ℕ := 65535

/-- The place of a sequence number in the cycle. Zero is skipped. -/
def rank (seq : UInt16) : ℕ :=
  if seq = 0 then 0 else seq.toNat - 1

theorem rank_lt (seq : UInt16) : rank seq < sequenceCount := by
  have hlt : seq.toNat < 2 ^ 16 := seq.toNat_lt
  unfold rank sequenceCount
  split <;> omega

namespace Reactor

variable {may : Lapse → Prop} {r r' r'' : Reactor} {id : UInt64} {fd : ℤ}

/-- The next sequence number, and the one after it. -/
theorem nextSeq_rank (r : Reactor) :
    r.nextSeq.1.toNat = rank r.connectionSeq + 1 ∧
      rank r.nextSeq.2.connectionSeq = (rank r.connectionSeq + 1) % sequenceCount := by
  have hlt : r.connectionSeq.toNat < 2 ^ 16 := r.connectionSeq.toNat_lt
  unfold nextSeq
  by_cases hzero : r.connectionSeq = 0
  · rw [if_pos hzero, hzero]
    exact ⟨rfl, rfl⟩
  · have hpos : r.connectionSeq.toNat ≠ 0 := fun h => hzero (UInt16.toNat_inj.mp h)
    have hnext : (r.connectionSeq + 1).toNat = (r.connectionSeq.toNat + 1) % 2 ^ 16 :=
      UInt16.toNat_add _ _
    rw [if_neg hzero, rank, if_neg hzero]
    dsimp only
    refine ⟨by omega, ?_⟩
    by_cases hwrap : r.connectionSeq + 1 = 0
    · rw [rank, if_pos hwrap, sequenceCount]
      rw [hwrap, UInt16.toNat_zero] at hnext
      omega
    · have hpos' : (r.connectionSeq + 1).toNat ≠ 0 := fun h => hwrap (UInt16.toNat_inj.mp h)
      rw [rank, if_neg hwrap, sequenceCount]
      omega

theorem nextSeq_ne_zero (r : Reactor) : r.nextSeq.1 ≠ 0 := by
  intro hzero
  have hrank := (nextSeq_rank r).1
  rw [hzero] at hrank
  exact absurd hrank (by simp)

theorem rank_nextSeq (r : Reactor) : rank r.nextSeq.1 = rank r.connectionSeq := by
  have hrank := (nextSeq_rank r).1
  rw [rank, if_neg r.nextSeq_ne_zero, hrank, Nat.add_sub_cancel]

/-! ### What leaves the sequence alone -/

/-- The sequence number and the number of the reactor are the same. -/
def SameSeq (r r' : Reactor) : Prop :=
  r'.connectionSeq = r.connectionSeq ∧ r'.reactorId = r.reactorId

theorem SameSeq.refl (r : Reactor) : r.SameSeq r :=
  ⟨rfl, rfl⟩

theorem SameSeq.trans (h : r.SameSeq r') (h' : r'.SameSeq r'') : r.SameSeq r'' :=
  ⟨h'.1.trans h.1, h'.2.trans h.2⟩

theorem monitor_sameSeq (env : Environment) (fd : ℤ) (change : Change) (r : Reactor) :
    r.SameSeq (r.monitor env fd change).2 := by
  unfold monitor
  exact ⟨rfl, rfl⟩

theorem dispatchEvent_sameSeq (env : Environment) (event : NetworkEvent) (r : Reactor) :
    r.SameSeq (r.dispatchEvent env event) := by
  rcases dispatchEvent_cases env event r with ⟨-, h⟩ | h | h <;> rw [h] <;> exact ⟨rfl, rfl⟩

theorem doRemoveConnection_sameSeq (id : UInt64) (r : Reactor) :
    r.SameSeq (r.doRemoveConnection id).2 := by
  unfold doRemoveConnection
  split <;> exact ⟨rfl, rfl⟩

theorem ConnMove.sameSeq (h : ConnMove may id fd r r') : r.SameSeq r' := by
  cases h with
  | settled howns hkey hfd hvalid hmonitored =>
    have hsame : r.SameSeq _ := hmonitored.keeps
      (fun _ env change h => h.trans (monitor_sameSeq env fd change _)) (.refl r)
    exact hsame.trans ⟨rfl, rfl⟩
  | received env time data =>
    refine SameSeq.trans ?_ (dispatchEvent_sameSeq env _ _)
    exact ⟨rfl, rfl⟩
  | close env =>
    exact (dispatchEvent_sameSeq env _ r).trans (doRemoveConnection_sameSeq _ _)
  | error env code =>
    exact ((dispatchEvent_sameSeq env _ r).trans (dispatchEvent_sameSeq env _ _)).trans
      (doRemoveConnection_sameSeq _ _)
  | _ => exact ⟨rfl, rfl⟩

theorem closeAllOnly_sameSeq (ids : List UInt64) (r : Reactor) :
    r.SameSeq (ids.foldl closeOnly r) := by
  induction ids generalizing r with
  | nil => exact .refl r
  | cons id ids ih =>
    refine SameSeq.trans ?_ (ih (closeOnly r id))
    unfold closeOnly
    split <;> exact ⟨rfl, rfl⟩

/-! ### Calls of `DoAddConnection` -/

/-- The id that `DoAddConnection` generates for `fd`. -/
def generatedId (env : Environment) (fd : ℤ) (r : Reactor) : UInt64 :=
  generate (env.calendar r.nextSeq.2.log.length) (UInt8.ofInt r.nextSeq.2.reactorId)
    (UInt16.ofInt fd) r.nextSeq.1

/-- What a call of `DoAddConnection` generates. -/
structure Generated where
  fd : ℤ
  seq : UInt16
  id : UInt64

/-- Calls of `DoAddConnection`, with what they generate in turn. In between, anything may
happen that leaves the sequence number and the number of the reactor alone. -/
inductive Adding : Reactor → List Generated → Reactor → Prop where
  | done {r : Reactor} : Adding r [] r
  | elsewhere {r r₁ r' : Reactor} {generated : List Generated}
      (hsame : r.SameSeq r₁) (rest : Adding r₁ generated r') : Adding r generated r'
  | ignored {r r' : Reactor} {generated : List Generated} (env : Environment) (fd : ℤ)
      (peer : SockAddr) (h : fd < 0 ∨ ¬r.isRunning)
      (rest : Adding (r.doAddConnection env fd peer).2 generated r') : Adding r generated r'
  | call {r r' : Reactor} {generated : List Generated} (env : Environment) (fd : ℤ)
      (peer : SockAddr) (h : ¬(fd < 0 ∨ ¬r.isRunning))
      (rest : Adding (r.doAddConnection env fd peer).2 generated r') :
      Adding r (⟨fd, r.nextSeq.1, r.generatedId env fd⟩ :: generated) r'

variable {generated : List Generated}

theorem nextSeq_reactorId (r : Reactor) : r.nextSeq.2.reactorId = r.reactorId := by
  unfold nextSeq
  split <;> rfl

theorem doAddConnection_sameSeq (env : Environment) (fd : ℤ) (peer : SockAddr) (r : Reactor) :
    if fd < 0 ∨ ¬r.isRunning then r.SameSeq (r.doAddConnection env fd peer).2
    else r.nextSeq.2.SameSeq (r.doAddConnection env fd peer).2 := by
  unfold doAddConnection
  split
  · exact .refl r
  · have hmonitored := monitor_sameSeq env fd .addRead r.nextSeq.2
    dsimp only
    split
    · exact ⟨rfl, rfl⟩
    · split
      · exact hmonitored.trans ⟨rfl, rfl⟩
      · refine hmonitored.trans (SameSeq.trans ?_ (dispatchEvent_sameSeq env _ _))
        exact ⟨rfl, rfl⟩

theorem Adding.fields (h : Adding r generated r') :
    ∀ g ∈ generated, g.id ≠ 0 ∧
      (parse g.id).2 = (UInt8.ofInt r.reactorId, UInt16.ofInt g.fd, g.seq) := by
  induction h with
  | done => simp
  | elsewhere hsame rest ih =>
    rw [← hsame.2]
    exact ih
  | @ignored r r' generated env fd peer hignored rest ih =>
    have hsame := doAddConnection_sameSeq env fd peer r
    rw [if_pos hignored] at hsame
    rw [← hsame.2]
    exact ih
  | @call r r' generated env fd peer hcall rest ih =>
    have hsame := doAddConnection_sameSeq env fd peer r
    rw [if_neg hcall] at hsame
    have hid := hsame.2.trans r.nextSeq_reactorId
    rw [← hid]
    refine List.forall_mem_cons.mpr ⟨?_, ih⟩
    rw [hid, ← r.nextSeq_reactorId]
    exact ⟨generate_ne_zero _ _ _ r.nextSeq_ne_zero, parse_generate _ _ _ _⟩

/-- The sequence numbers are consecutive places in the cycle. -/
theorem Adding.seqs (h : Adding r generated r') {n : ℕ}
    (hn : n % sequenceCount = rank r.connectionSeq) :
    generated.map (·.seq.toNat) =
      (List.range' n generated.length).map (· % sequenceCount + 1) := by
  induction h generalizing n with
  | done => rfl
  | elsewhere hsame rest ih => exact ih (hn.trans (congrArg rank hsame.1.symm))
  | @ignored r r' generated env fd peer hignored rest ih =>
    have hsame := doAddConnection_sameSeq env fd peer r
    rw [if_pos hignored] at hsame
    exact ih (hn.trans (congrArg rank hsame.1.symm))
  | @call r r' generated env fd peer hcall rest ih =>
    have hsame := doAddConnection_sameSeq env fd peer r
    rw [if_neg hcall] at hsame
    have hrank := r.nextSeq_rank
    rw [List.map_cons, List.length_cons, List.range'_succ, List.map_cons]
    refine congrArg₂ List.cons (hrank.1.trans (congrArg (· + 1) hn.symm)) (ih ?_)
    rw [hsame.1, hrank.2, ← hn]
    exact (Nat.mod_add_mod n sequenceCount 1).symm

/-- Any 65535 consecutive calls generate different ids. -/
theorem Adding.nodup (h : Adding r generated r') {window : List Generated}
    (hwindow : window <:+: generated) (hlength : window.length ≤ sequenceCount) :
    (window.map Generated.id).Nodup := by
  have hseqs := h.seqs (Nat.mod_eq_of_lt (rank_lt r.connectionSeq))
  obtain ⟨m, hm⟩ := Lists.map_infix_eq_range hseqs hwindow
  have hnodup : (window.map (·.seq.toNat)).Nodup := by
    rw [hm]
    refine List.Nodup.map_on (fun x hx y hy hxy => ?_) List.nodup_range'
    rw [List.mem_range'_1] at hx hy
    refine Nat.mod_injOn_Ico m sequenceCount ?_ ?_ (Nat.add_right_cancel hxy)
    · simp only [Finset.coe_Ico, Set.mem_Ico]
      omega
    · simp only [Finset.coe_Ico, Set.mem_Ico]
      omega
  have hfield : window.map (·.seq.toNat) =
      (window.map Generated.id).map fun id => (parse id).2.2.2.toNat := by
    rw [List.map_map]
    refine List.map_congr_left fun g hg => ?_
    have hparse := (h.fields g (hwindow.mem hg)).2
    simp [hparse]
  rw [hfield] at hnodup
  exact hnodup.of_map _

end Reactor

end DarwinCore.Network
