import Mathlib.Data.List.Basic
import Mathlib.Data.Nat.Notation
import Mathlib.Logic.Relation

/-! # Threads

The threads of a process, numbered as they are created, each with what it is for. -/

structure Thread (ρ : Type*) where
  role : ρ
  number : ℕ
  deriving DecidableEq, Repr

/-- How many threads have been created, and those that are running. -/
structure Threads (ρ : Type*) where
  created : ℕ := 0
  running : List (Thread ρ) := []
  deriving Repr

namespace Threads

variable {ρ : Type*}

def next (threads : Threads ρ) (role : ρ) : Thread ρ := ⟨role, threads.created⟩

def create (threads : Threads ρ) (role : ρ) : Threads ρ :=
  ⟨threads.created + 1, threads.next role :: threads.running⟩

@[simp] theorem next_role (threads : Threads ρ) (role : ρ) : (threads.next role).role = role := rfl

@[simp] theorem mem_create {threads : Threads ρ} {role : ρ} {t : Thread ρ} :
    t ∈ (threads.create role).running ↔ t = threads.next role ∨ t ∈ threads.running := by
  simp [create]

/-- `new` have been created, and nothing else has happened. -/
structure Grown (before : Threads ρ) (new : List (Thread ρ)) (after : Threads ρ) : Prop where
  source : ∀ t ∈ after.running, t ∈ before.running ∨ t ∈ new
  kept : ∀ t ∈ before.running, t ∈ after.running
  started : ∀ t ∈ new, t ∈ after.running

theorem Grown.refl (threads : Threads ρ) : Grown threads [] threads where
  source t ht := .inl ht
  kept t ht := ht
  started := by simp

theorem Grown.create {before after : Threads ρ} {new : List (Thread ρ)}
    (h : Grown before new after) (role : ρ) :
    Grown before (new ++ [after.next role]) (after.create role) where
  source t ht := by
    rcases mem_create.mp ht with rfl | ht
    · simp
    · rcases h.source t ht with hbefore | hnew
      · exact .inl hbefore
      · simp [hnew]
  kept t ht := mem_create.mpr (.inr (h.kept t ht))
  started t ht := by
    rcases List.mem_append.mp ht with hnew | hlast
    · exact mem_create.mpr (.inr (h.started t hnew))
    · exact mem_create.mpr (.inl (List.mem_singleton.mp hlast))

def OwnedBy (owners : List (Thread ρ)) (threads : Threads ρ) : Prop :=
  ∀ t ∈ threads.running, t ∈ owners

theorem ownedBy_nil {threads : Threads ρ} : threads.OwnedBy [] ↔ threads.running = [] := by
  simp [OwnedBy, List.eq_nil_iff_forall_not_mem]

theorem OwnedBy.grow {owners owners' new : List (Thread ρ)} {before after : Threads ρ}
    (h : before.OwnedBy owners) (hgrown : Grown before new after)
    (hold : ∀ t ∈ owners, t ∈ owners') (hnew : ∀ t ∈ new, t ∈ owners') :
    after.OwnedBy owners' := by
  intro t ht
  rcases hgrown.source t ht with hbefore | hn
  · exact hold t (h t hbefore)
  · exact hnew t hn

variable [DecidableEq ρ]

/-- The thread has come to its end; a call of `join` returns then. -/
def finish (threads : Threads ρ) (thread : Thread ρ) : Threads ρ :=
  { threads with running := threads.running.filter (· ≠ thread) }

def joinAll (threads : Threads ρ) (joined : List (Thread ρ)) : Threads ρ :=
  joined.foldl finish threads

@[simp] theorem mem_finish {threads : Threads ρ} {thread t : Thread ρ} :
    t ∈ (threads.finish thread).running ↔ t ∈ threads.running ∧ t ≠ thread := by
  simp [finish]

@[simp] theorem mem_joinAll {threads : Threads ρ} {joined : List (Thread ρ)} {t : Thread ρ} :
    t ∈ (threads.joinAll joined).running ↔ t ∈ threads.running ∧ t ∉ joined := by
  induction joined generalizing threads with
  | nil => simp [joinAll]
  | cons thread joined ih =>
    have hrest : t ∈ (threads.joinAll (thread :: joined)).running ↔
        t ∈ (threads.finish thread).running ∧ t ∉ joined := ih
    rw [hrest, mem_finish, List.mem_cons, not_or, and_assoc]

theorem joinAll_append (threads : Threads ρ) (first second : List (Thread ρ)) :
    threads.joinAll (first ++ second) = (threads.joinAll first).joinAll second :=
  List.foldl_append

theorem Grown.source_of_joinAll {before after : Threads ρ} {new : List (Thread ρ)}
    (h : Grown before new after) : ∀ t ∈ (after.joinAll new).running, t ∈ before.running := by
  intro t ht
  obtain ⟨hrunning, hnot⟩ := mem_joinAll.mp ht
  exact (h.source t hrunning).resolve_right hnot

end Threads

/-! ## Waiting and waking -/

/-! ### Wait-for graphs

Parties some of which wait for others. A rank that falls along every wait leaves no room for a
cycle, and a chain of waits then ends at a party that can move. -/

namespace WaitFor

open Relation

variable {θ : Type*} {Waits : θ → θ → Prop} {rank : θ → ℕ} {Unfinished Live : θ → Prop} {a b : θ}

theorem rank_lt (hrank : ∀ a b, Waits a b → rank b < rank a) (h : TransGen Waits a b) :
    rank b < rank a := by
  induction h with
  | single hab => exact hrank _ _ hab
  | tail _ hbc ih => exact Nat.lt_trans (hrank _ _ hbc) ih

theorem acyclic (hrank : ∀ a b, Waits a b → rank b < rank a) (a : θ) : ¬TransGen Waits a a := by
  intro h
  exact Nat.lt_irrefl _ (rank_lt hrank h)

theorem exists_live (hrank : ∀ a b, Waits a b → rank b < rank a)
    (hwaits : ∀ a, Unfinished a → Live a ∨ ∃ b, Waits a b ∧ Unfinished b) (ha : Unfinished a) :
    ∃ b, ReflTransGen Waits a b ∧ Unfinished b ∧ Live b := by
  induction hn : rank a using Nat.strongRecOn generalizing a with
  | ind n ih =>
    subst hn
    rcases hwaits a ha with hlive | ⟨b, hab, hb⟩
    · exact ⟨a, .refl, ha, hlive⟩
    · obtain ⟨c, hbc, hc, hlive⟩ := ih (rank b) (hrank a b hab) hb rfl
      exact ⟨c, .head hab hbc, hc, hlive⟩

end WaitFor

/-! ### Waiting for room

Threads wait until there is room. Whoever makes room notifies one of them, and a thread that has
been notified may still find that another one was faster. -/

/-- How much room there is, how many threads wait, and how many have been woken and not yet
looked. -/
structure Waiters where
  room : ℕ
  waiting : ℕ
  woken : ℕ

namespace Waiters

inductive Step (w w' : Waiters) : Prop where
  /-- A thread finds no room. -/
  | wait (hroom : w'.room = 0)
  /-- A thread takes room, and it may have been woken for that. -/
  | enter (hroom : w.room = w'.room + 1) (hwaiting : w'.waiting ≤ w.waiting)
      (hwoken : w.woken ≤ w'.woken + 1)
  /-- Room is made, and no thread waits any more. -/
  | unattended (hwaiting : w'.waiting = 0)
  /-- Some room may be made, and a thread is woken. -/
  | notify (hroom : w'.room ≤ w.room + 1) (hwaiting : 0 < w.waiting)
      (hwoken : w'.woken = w.woken + 1)
  | other (hroom : w'.room = w.room) (hwaiting : w'.waiting ≤ w.waiting)
      (hwoken : w.woken ≤ w'.woken)

/-- As long as a thread waits, the room is left for threads that have been woken. -/
def Attended (w : Waiters) : Prop :=
  0 < w.waiting → w.room ≤ w.woken

theorem Step.attended {w w' : Waiters} (hstep : Step w w') (h : w.Attended) : w'.Attended := by
  intro hwaiting'
  unfold Attended at h
  cases hstep with
  | wait hroom => omega
  | enter hroom hwaiting hwoken =>
    have hle := h (by omega)
    omega
  | unattended hwaiting => omega
  | notify hroom hwaiting hwoken =>
    have hle := h hwaiting
    omega
  | other hroom hwaiting hwoken =>
    have hle := h (by omega)
    omega

end Waiters

/-! ### Coalescing wakeups

Producers put items into a queue, and then arm a bit that wakes the consumer. The consumer
takes a bounded number of items between two waits. -/

structure Wakeup where
  queued : ℕ
  /-- How many producers have put an item and not yet armed the bit. -/
  waking : ℕ
  armed : Bool
  /-- How many items the consumer takes before it waits, if there are as many. -/
  budget : ℕ

namespace Wakeup

inductive Step (w w' : Wakeup) : Prop where
  | put (hqueued : w'.queued = w.queued + 1) (hwaking : w'.waking = w.waking + 1)
      (harmed : w'.armed = w.armed) (hbudget : w'.budget = w.budget)
  /-- The bit is armed, by a producer or by somebody else. -/
  | arm (hqueued : w'.queued = w.queued) (harmed : w'.armed = true)
      (hbudget : w'.budget = w.budget)
  | take (hqueued : w.queued = w'.queued + 1) (hwaking : w'.waking = w.waking)
      (harmed : w'.armed = w.armed) (hbudget : w.budget = w'.budget + 1)
  /-- The consumer starts a round, or it has found the queue empty. -/
  | renew (hqueued : w'.queued = w.queued) (hwaking : w'.waking = w.waking)
      (harmed : w'.armed = w.armed) (hbudget : w.budget ≤ w'.budget ∨ w.queued = 0)
  /-- The consumer is woken. Either it has enough of a round before it, or it is going to be
  woken again. -/
  | clear (hqueued : w'.queued = w.queued) (hwaking : w'.waking = w.waking)
      (henough : w.queued ≤ w'.budget ∨ 0 < w.waking)

/-- The consumer is going to be woken, or to empty the queue before it waits. -/
def Covered (w : Wakeup) : Prop :=
  w.armed = true ∨ 0 < w.waking ∨ w.queued ≤ w.budget

theorem Step.covered {w w' : Wakeup} (hstep : Step w w') (h : w.Covered) : w'.Covered := by
  unfold Covered at *
  cases hstep with
  | put hqueued hwaking => exact .inr (.inl (by omega))
  | arm hqueued harmed => exact .inl harmed
  | take hqueued hwaking harmed hbudget =>
    rw [harmed, hwaking]
    exact h.imp_right (Or.imp_right (by omega))
  | renew hqueued hwaking harmed hbudget =>
    rw [harmed, hwaking]
    exact h.imp_right (Or.imp_right (by omega))
  | clear hqueued hwaking henough =>
    rw [hqueued, hwaking]
    exact .inr henough.symm

/-- A consumer that waits, while nobody is about to arm the bit, has left nothing behind unless
the bit is armed. -/
theorem Covered.waiting {w : Wakeup} (h : w.Covered) (hwaking : w.waking = 0)
    (hbudget : w.budget = 0) : w.queued = 0 ∨ w.armed = true := by
  rcases h with h | h | h
  · exact .inr h
  · omega
  · left
    omega

end Wakeup
