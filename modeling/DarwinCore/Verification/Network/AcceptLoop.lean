import DarwinCore.Model.Network.AcceptLoop
import Mathlib.Order.Monotone.Defs
import Mathlib.Order.Nat

/-! # How long the acceptor stays with one event

The time is looked at only where an iteration reaches the end of the body. -/

namespace DarwinCore.Network

variable {env : AcceptEnvironment} {a : Acceptor} {fuel i j : ℕ}

namespace AcceptEnvironment

/-- An iteration ends with `continue`: `accept` fails with anything but `EAGAIN`, or the
descriptor cannot be made non-blocking. -/
def Continues (env : AcceptEnvironment) (i : ℕ) : Prop :=
  match env.accept i with
  | .failed error => error ≠ .eagain
  | .accepted _ _ _ => env.setNonBlocking i = false

def elapsed (env : AcceptEnvironment) (i : ℕ) : ℕ :=
  env.clock i - env.clock 0

end AcceptEnvironment

namespace Acceptor

/-! ## One iteration -/

/-- How an iteration ends depends on what it meets alone. -/
theorem acceptTurn_cases (env : AcceptEnvironment) (i : ℕ) (a : Acceptor) :
    ((a.acceptTurn env i).1 = .continues ↔ env.Continues i) ∧
      ((a.acceptTurn env i).1 = .ends → env.elapsed (i + 1) ≤ timeSlice) := by
  unfold acceptTurn AcceptEnvironment.Continues AcceptEnvironment.elapsed
  cases haccept : env.accept i with
  | failed error =>
    cases error with
    | eagain => simp
    | _ => simp
  | accepted fd peer h =>
    dsimp only
    split
    · rename_i hblocking
      simpa using hblocking
    · rename_i hnonblocking
      split
      · simpa using hnonblocking
      · rename_i hearly
        exact ⟨by simpa using hnonblocking, fun _ => Nat.not_lt.mp hearly⟩

/-! ## The calls of `accept` -/

def GoesOn (env : AcceptEnvironment) (i : ℕ) (a : Acceptor) : Prop :=
  (a.acceptTurn env i).1 ≠ .leaves

theorem mem_acceptLoop_succ : j ∈ (acceptLoop env (fuel + 1) i a).1 ↔
    env.isRunning i = true ∧ (j = i ∨ a.GoesOn env i ∧
      j ∈ (acceptLoop env fuel (i + 1) (a.acceptTurn env i).2).1) := by
  rw [acceptLoop, GoesOn]
  cases hrunning : env.isRunning i with
  | false => simp
  | true =>
    generalize a.acceptTurn env i = turn
    obtain ⟨next, a'⟩ := turn
    cases next <;> simp

/-- Two calls in a row. -/
theorem mem_acceptLoop_of_next (hij : i ≤ j) (h : j + 1 ∈ (acceptLoop env fuel i a).1) :
    j ∈ (acceptLoop env fuel i a).1 ∧ env.isRunning (j + 1) = true ∧
      (env.Continues j ∨ env.elapsed (j + 1) ≤ timeSlice) := by
  induction fuel generalizing i a with
  | zero => cases h
  | succ fuel ih =>
    rw [mem_acceptLoop_succ] at h ⊢
    obtain ⟨hrunning, rfl | ⟨hgoes, hlater⟩⟩ := h
    · omega
    · rcases Nat.eq_or_lt_of_le hij with rfl | hlt
      · have hnext : env.isRunning (i + 1) = true := by
          cases fuel with
          | zero => cases hlater
          | succ fuel => exact (mem_acceptLoop_succ.mp hlater).1
        refine ⟨⟨hrunning, .inl rfl⟩, hnext, ?_⟩
        obtain ⟨hcontinues, hends⟩ := acceptTurn_cases env i a
        rw [GoesOn] at hgoes
        cases hturn : (a.acceptTurn env i).1 with
        | leaves => exact absurd hturn hgoes
        | continues => exact .inl (hcontinues.mp hturn)
        | ends => exact .inr (hends hturn)
      · obtain ⟨hcalled, hnext⟩ := ih hlt hlater
        exact ⟨⟨hrunning, .inr ⟨hgoes, hcalled⟩⟩, hnext⟩

/-- After a `continue`, nothing but the flag keeps the loop from the next call. -/
theorem next_mem_acceptLoop (h : j ∈ (acceptLoop env fuel i a).1) (hcontinues : env.Continues j)
    (hrunning : env.isRunning (j + 1) = true) : j + 1 ∈ (acceptLoop env (fuel + 1) i a).1 := by
  induction fuel generalizing i a with
  | zero => cases h
  | succ fuel ih =>
    rw [mem_acceptLoop_succ] at h ⊢
    obtain ⟨hfirst, rfl | ⟨hgoes, hlater⟩⟩ := h
    · have hturn := (acceptTurn_cases env j a).1.mpr hcontinues
      refine ⟨hfirst, .inr ⟨by simp [GoesOn, hturn], ?_⟩⟩
      exact mem_acceptLoop_succ.mpr ⟨hrunning, .inl rfl⟩
    · exact ⟨hfirst, .inr ⟨hgoes, ih hlater⟩⟩

theorem acceptLoop_spins (hrunning : ∀ i, env.isRunning i = true)
    (hcontinues : ∀ i, env.Continues i)
    (fuel : ℕ) : fuel ∈ (acceptLoop env (fuel + 1) 0 a).1 := by
  induction fuel with
  | zero => exact mem_acceptLoop_succ.mpr ⟨hrunning 0, .inl rfl⟩
  | succ fuel ih => exact next_mem_acceptLoop ih (hcontinues fuel) (hrunning (fuel + 1))

/-! ## Yielding -/

/-- However long it runs, the loop calls `accept` only within its time slice. -/
def Yields (env : AcceptEnvironment) (a : Acceptor) : Prop :=
  ∀ fuel, ∀ i ∈ (acceptLoop env fuel 0 a).1, env.elapsed i ≤ timeSlice

/-- The loop yields exactly if no iteration that ends with `continue` ends after the time slice
while the flag is set. -/
theorem yields_iff (env : AcceptEnvironment) (a : Acceptor) :
    a.Yields env ↔ ∀ fuel, ∀ i ∈ (acceptLoop env fuel 0 a).1, env.Continues i →
      env.isRunning (i + 1) = true → env.elapsed (i + 1) ≤ timeSlice := by
  constructor
  · intro h fuel i hcalled hcontinues hrunning
    exact h (fuel + 1) (i + 1) (next_mem_acceptLoop hcalled hcontinues hrunning)
  · intro h fuel i hcalled
    cases i with
    | zero => simp [AcceptEnvironment.elapsed]
    | succ i =>
        obtain ⟨hbefore, hrunning, hcontinues | hearly⟩ :=
          mem_acceptLoop_of_next (Nat.zero_le i) hcalled
        · exact h fuel i hbefore hcontinues hrunning
        · exact hearly

/-- There are no descriptors left (`EMFILE`), and every call of `accept` takes a microsecond. -/
def exhausted : AcceptEnvironment where
  isRunning _ := true
  accept _ := .failed (.other 24)
  setNonBlocking _ := true
  lock _ _ := true
  addConnection _ := true
  clock i := 1000 * i

/-- Without descriptors, `accept` is called again and again for ever. -/
theorem exhausted_spins : Monotone exhausted.clock ∧ (∀ i, exhausted.isRunning i = true) ∧
    (∀ n, n ∈ (acceptLoop exhausted (n + 1) 0 { reactorCount := 1 }).1) ∧
      ¬Yields exhausted { reactorCount := 1 } := by
  have hspins : ∀ n, n ∈ (acceptLoop exhausted (n + 1) 0 { reactorCount := 1 }).1 :=
    acceptLoop_spins (fun _ => rfl) fun i => by simp [AcceptEnvironment.Continues, exhausted]
  refine ⟨fun i j hij => Nat.mul_le_mul_left 1000 hij, fun _ => rfl, hspins, fun hyields => ?_⟩
  have hlate := hyields 202 201 (hspins 201)
  exact absurd hlate (by decide)

end Acceptor

end DarwinCore.Network
