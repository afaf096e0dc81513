import DarwinCore.Library.Ring

/-! # Tickets

A bounded queue in which operations claim tickets, numbered in turn on either side. The value
with a ticket is written to a slot of a ring, published, read and its slot released. A history
lists what has happened, the newest entry first. -/

namespace Tickets

variable {α : Type*}

inductive Event (α : Type*) where
  | claimPush (t : ℕ) (v : α)
  /-- The value is in its slot. -/
  | written (t : ℕ) (v : α)
  /-- The value is published. -/
  | pushed (t : ℕ) (v : α)
  /-- A push that claims no ticket. -/
  | refused
  | claimPop (t : ℕ)
  /-- The value is out of its slot. -/
  | read (t : ℕ) (v : α)
  /-- The slot is released. -/
  | popped (t : ℕ) (v : α)
  /-- A pop that claims no ticket. -/
  | nothing

namespace Event

def isClaimPush : Event α → Bool
  | claimPush _ _ => true
  | _ => false

def isClaimPop : Event α → Bool
  | claimPop _ => true
  | _ => false

def claimedPush : Event α → Option ℕ
  | claimPush t _ => some t
  | _ => none

def releasedPop : Event α → Option ℕ
  | popped t _ => some t
  | _ => none

end Event

open Event

def pushes (log : List (Event α)) : ℕ :=
  log.countP isClaimPush

def pops (log : List (Event α)) : ℕ :=
  log.countP isClaimPop

def Written (log : List (Event α)) (t : ℕ) : Prop :=
  ∃ v, written t v ∈ log

def Pushed (log : List (Event α)) (t : ℕ) : Prop :=
  ∃ v, pushed t v ∈ log

def Read (log : List (Event α)) (t : ℕ) : Prop :=
  ∃ v, read t v ∈ log

def Popped (log : List (Event α)) (t : ℕ) : Prop :=
  ∃ v, popped t v ∈ log

/-- What may happen next, with `c` slots. -/
def Event.Allowed (c : ℕ) (log : List (Event α)) : Event α → Prop
  | claimPush t _ => t = pushes log ∧ ∀ u, u + c = t → Popped log u
  | written t v => claimPush t v ∈ log ∧ ¬Written log t
  | pushed t v => written t v ∈ log ∧ ¬Pushed log t
  | refused => True
  | claimPop t => t = pops log ∧ Pushed log t
  | read t v => claimPop t ∈ log ∧ claimPush t v ∈ log ∧ ¬Read log t
  | popped t v => read t v ∈ log ∧ ¬Popped log t
  | nothing => True

/-- The histories of a queue with `c` slots. -/
inductive Lawful (c : ℕ) : List (Event α) → Prop where
  | nil : Lawful c []
  | cons {log : List (Event α)} {e : Event α} (h : Lawful c log) (he : e.Allowed c log) :
      Lawful c (e :: log)

variable {c t u : ℕ} {v w : α} {log log' : List (Event α)} {e : Event α}

/-! ## Longer histories -/

theorem Pushed.mono (h : Pushed log t) (hsub : log ⊆ log') : Pushed log' t := by
  obtain ⟨v, hv⟩ := h
  exact ⟨v, hsub hv⟩

theorem Read.mono (h : Read log t) (hsub : log ⊆ log') : Read log' t := by
  obtain ⟨v, hv⟩ := h
  exact ⟨v, hsub hv⟩

theorem Popped.mono (h : Popped log t) (hsub : log ⊆ log') : Popped log' t := by
  obtain ⟨v, hv⟩ := h
  exact ⟨v, hsub hv⟩

theorem pushes_cons (e : Event α) : pushes (e :: log) = pushes log + e.isClaimPush.toNat := by
  rw [pushes, pushes, List.countP_cons]
  cases e.isClaimPush <;> rfl

theorem pops_cons (e : Event α) : pops (e :: log) = pops log + e.isClaimPop.toNat := by
  rw [pops, pops, List.countP_cons]
  cases e.isClaimPop <;> rfl

theorem Lawful.allowed (h : Lawful c log) (he : e ∈ log) :
    ∃ past, (e :: past) <:+ log ∧ Lawful c past ∧ e.Allowed c past := by
  induction h with
  | nil => cases he
  | @cons log e' h he' ih =>
    rcases List.mem_cons.mp he with rfl | hlog
    · exact ⟨log, List.suffix_rfl, h, he'⟩
    · obtain ⟨past, hsuffix, hpast⟩ := ih hlog
      exact ⟨past, hsuffix.trans (List.suffix_cons e' log), hpast⟩

theorem subset_of_suffix {past : List (Event α)} (h : (e :: past) <:+ log) : past ⊆ log :=
  fun _ hx => h.subset (List.mem_cons_of_mem e hx)

namespace Lawful

/-! ## The life of a ticket -/

theorem claimPush_lt (h : Lawful c log) (hclaim : claimPush t v ∈ log) : t < pushes log := by
  obtain ⟨past, hsuffix, -, rfl, -⟩ := h.allowed hclaim
  have hle : pushes (claimPush (pushes past) v :: past) ≤ pushes log := hsuffix.sublist.countP_le
  rw [pushes_cons] at hle
  exact hle

theorem claimPop_lt (h : Lawful c log) (hclaim : claimPop t ∈ log) : t < pops log := by
  obtain ⟨past, hsuffix, -, rfl, -⟩ := h.allowed hclaim
  have hle : pops (claimPop (pops past) :: past) ≤ pops log := hsuffix.sublist.countP_le
  rw [pops_cons] at hle
  exact hle

theorem reuse (h : Lawful c log) (hclaim : claimPush (t + c) v ∈ log) : Popped log t := by
  obtain ⟨past, hsuffix, -, -, hfree⟩ := h.allowed hclaim
  exact (hfree t rfl).mono (subset_of_suffix hsuffix)

theorem claimPush_of_written (h : Lawful c log) (hwritten : written t v ∈ log) :
    claimPush t v ∈ log := by
  obtain ⟨past, hsuffix, -, hclaim, -⟩ := h.allowed hwritten
  exact subset_of_suffix hsuffix hclaim

theorem written_of_pushed (h : Lawful c log) (hpushed : pushed t v ∈ log) :
    written t v ∈ log := by
  obtain ⟨past, hsuffix, -, hwritten, -⟩ := h.allowed hpushed
  exact subset_of_suffix hsuffix hwritten

theorem pushed_of_claimPop (h : Lawful c log) (hclaim : claimPop t ∈ log) : Pushed log t := by
  obtain ⟨past, hsuffix, -, -, hpushed⟩ := h.allowed hclaim
  exact hpushed.mono (subset_of_suffix hsuffix)

theorem claims_of_read (h : Lawful c log) (hread : read t v ∈ log) :
    claimPop t ∈ log ∧ claimPush t v ∈ log := by
  obtain ⟨past, hsuffix, -, hpop, hpush, -⟩ := h.allowed hread
  exact ⟨subset_of_suffix hsuffix hpop, subset_of_suffix hsuffix hpush⟩

theorem read_of_popped (h : Lawful c log) (hpopped : popped t v ∈ log) : read t v ∈ log := by
  obtain ⟨past, hsuffix, -, hread, -⟩ := h.allowed hpopped
  exact subset_of_suffix hsuffix hread

theorem written (h : Lawful c log) (hpushed : Pushed log t) : Written log t := by
  obtain ⟨v, hv⟩ := hpushed
  exact ⟨v, h.written_of_pushed hv⟩

theorem pushed (h : Lawful c log) (hread : Read log t) : Pushed log t := by
  obtain ⟨v, hv⟩ := hread
  exact h.pushed_of_claimPop (h.claims_of_read hv).1

theorem read (h : Lawful c log) (hpopped : Popped log t) : Read log t := by
  obtain ⟨v, hv⟩ := hpopped
  exact ⟨v, h.read_of_popped hv⟩

/-! ## Claims -/

theorem claimPush_unique (h : Lawful c log) (hv : claimPush t v ∈ log)
    (hw : claimPush t w ∈ log) : v = w := by
  induction h with
  | nil => cases hv
  | @cons log e h he ih =>
    rcases List.mem_cons.mp hv with rfl | hv' <;> rcases List.mem_cons.mp hw with heq | hw'
    · exact (claimPush.inj heq).2.symm
    · obtain ⟨rfl, -⟩ := he
      exact absurd (h.claimPush_lt hw') (Nat.lt_irrefl _)
    · subst heq
      obtain ⟨rfl, -⟩ := he
      exact absurd (h.claimPush_lt hv') (Nat.lt_irrefl _)
    · exact ih hv' hw'

theorem exists_claimPush (h : Lawful c log) (ht : t < pushes log) : ∃ v, claimPush t v ∈ log := by
  induction h with
  | nil => cases ht
  | @cons log e h he ih =>
    by_cases hold : t < pushes log
    · obtain ⟨v, hv⟩ := ih hold
      exact ⟨v, List.mem_cons_of_mem e hv⟩
    · rw [pushes_cons] at ht
      cases e with
      | claimPush u v =>
        obtain ⟨rfl, -⟩ := he
        have heq : t = pushes log := by
          rw [isClaimPush, Bool.toNat_true] at ht
          omega
        exact ⟨v, heq ▸ List.mem_cons_self⟩
      | _ => exact absurd ht hold

theorem claimPop_of_lt (h : Lawful c log) (ht : t < pops log) : claimPop t ∈ log := by
  induction h with
  | nil => cases ht
  | @cons log e h he ih =>
    by_cases hold : t < pops log
    · exact List.mem_cons_of_mem e (ih hold)
    · rw [pops_cons] at ht
      cases e with
      | claimPop u =>
        obtain ⟨rfl, -⟩ := he
        have heq : t = pops log := by
          rw [isClaimPop, Bool.toNat_true] at ht
          omega
        exact heq ▸ List.mem_cons_self
      | _ => exact absurd ht hold

theorem pops_le (h : Lawful c log) : pops log ≤ pushes log := by
  by_contra hlt
  have hclaim := h.claimPop_of_lt (Nat.lt_of_not_le hlt)
  obtain ⟨v, hv⟩ := h.pushed_of_claimPop hclaim
  exact Nat.lt_irrefl _ (h.claimPush_lt (h.claimPush_of_written (h.written_of_pushed hv)))

theorem pushes_le (h : Lawful c log) : pushes log ≤ pops log + c := by
  by_contra hlt
  have hlast : pushes log - 1 - c + c < pushes log := by omega
  obtain ⟨v, hv⟩ := h.exists_claimPush hlast
  obtain ⟨w, hw⟩ := h.read (h.reuse hv)
  have := h.claimPop_lt (h.claims_of_read hw).1
  omega

theorem claimedPush_nodup (h : Lawful c log) : (log.filterMap claimedPush).Nodup := by
  induction h with
  | nil => exact List.nodup_nil
  | @cons log e h he ih =>
    cases e with
    | claimPush t v =>
      obtain ⟨rfl, -⟩ := he
      refine List.nodup_cons.mpr ⟨fun hmem => ?_, ih⟩
      obtain ⟨e, hold, heq⟩ := List.mem_filterMap.mp hmem
      cases e with
      | claimPush u w =>
        obtain rfl := Option.some.inj heq
        exact Nat.lt_irrefl _ (h.claimPush_lt hold)
      | _ => cases heq
    | _ => exact ih

theorem releasedPop_nodup (h : Lawful c log) : (log.filterMap releasedPop).Nodup := by
  induction h with
  | nil => exact List.nodup_nil
  | @cons log e h he ih =>
    cases e with
    | popped t v =>
      refine List.nodup_cons.mpr ⟨fun hmem => ?_, ih⟩
      obtain ⟨e, hold, heq⟩ := List.mem_filterMap.mp hmem
      cases e with
      | popped u w =>
        obtain rfl := Option.some.inj heq
        exact he.2 ⟨w, hold⟩
      | _ => cases heq
    | _ => exact ih

/-! ## Slots -/

theorem popped_of_lt (h : Lawful c log) (hlt : t < u) (hslot : t % c = u % c)
    (hclaim : claimPush u v ∈ log) : Popped log t := by
  have hle : t + c ≤ u := by
    by_contra hnear
    have := Ring.eq_of_mod_eq (Nat.le_of_lt hlt) (by omega) hslot
    omega
  obtain ⟨w, hw⟩ := h.exists_claimPush (Nat.lt_of_le_of_lt hle (h.claimPush_lt hclaim))
  exact h.reuse hw

theorem alone (h : Lawful c log) (ht : claimPush t v ∈ log) (hu : claimPush u w ∈ log)
    (hslot : t % c = u % c) (ht' : ¬Popped log t) (hu' : ¬Popped log u) : t = u := by
  rcases Nat.lt_trichotomy t u with hlt | heq | hlt
  · exact absurd (h.popped_of_lt hlt hslot hu) ht'
  · exact heq
  · exact absurd (h.popped_of_lt hlt hslot.symm ht) hu'

end Lawful

end Tickets
