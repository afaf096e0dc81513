import Mathlib.Data.List.Nodup
import Mathlib.Data.List.Perm.Basic
import Mathlib.Data.List.ReduceOption

/-! # Requests on the books

Callers number their requests and hand them to a server. Each request is with its caller, in the
queue, rejected or processed, and what fails is counted. -/

universe u

/-- A request: its number, and of what kind it is. -/
structure Booking (κ : Type u) where
  number : ℕ
  kind : κ
  deriving DecidableEq, Repr

structure Books (κ : Type u) where
  /-- The number of the next request. -/
  next : ℕ := 0
  /-- What the callers have in hand. One who has handed over a request has nothing. -/
  calling : List (Option (Booking κ)) := []
  waiting : List (Booking κ) := []
  rejected : List (Booking κ) := []
  /-- With success, or without. -/
  processed : List (Booking κ × Bool) := []
  /-- The failures that have been counted. -/
  counted : List (Booking κ) := []

namespace Books

variable {κ : Type u} {b : Books κ} {k : κ} {request : Booking κ} {n : ℕ} {success : Bool}
  {before after : List (Option (Booking κ))} {rest : List (Booking κ)}

/-! ## Entries -/

def fresh (b : Books κ) (k : κ) : Booking κ := ⟨b.next, k⟩

def call (b : Books κ) (k : κ) : Books κ :=
  { b with next := b.next + 1, calling := some (b.fresh k) :: b.calling }

/-- A request is rejected at once, and counted `n` times. -/
def refuse (b : Books κ) (k : κ) (n : ℕ) : Books κ :=
  { b with
    next := b.next + 1
    rejected := b.fresh k :: b.rejected
    counted := List.replicate n (b.fresh k) ++ b.counted }

/-- The caller between the others hands over the request. -/
def accept (b : Books κ) (before : List (Option (Booking κ))) (request : Booking κ)
    (after : List (Option (Booking κ))) : Books κ :=
  { b with calling := before ++ none :: after, waiting := b.waiting ++ [request] }

def reject (b : Books κ) (before : List (Option (Booking κ))) (request : Booking κ)
    (after : List (Option (Booking κ))) (n : ℕ) : Books κ :=
  { b with
    calling := before ++ after
    rejected := request :: b.rejected
    counted := List.replicate n request ++ b.counted }

def leave (b : Books κ) (before after : List (Option (Booking κ))) : Books κ :=
  { b with calling := before ++ after }

/-- The first request in the queue is processed, and counted `n` times. -/
def process (b : Books κ) (request : Booking κ) (rest : List (Booking κ)) (success : Bool)
    (n : ℕ) : Books κ :=
  { b with
    waiting := rest
    processed := (request, success) :: b.processed
    counted := List.replicate n request ++ b.counted }

/-! ## What the books hold -/

def all (b : Books κ) : List (Booking κ) :=
  b.calling.reduceOption ++ (b.waiting ++ (b.rejected ++ b.processed.map Prod.fst))

/-- Those that were rejected, or processed without success. -/
def failed (b : Books κ) : List (Booking κ) :=
  b.rejected ++ (b.processed.filter fun entry => !entry.2).map Prod.fst

theorem failed_sublist (b : Books κ) : b.failed.Sublist b.all := by
  have hprocessed : ((b.processed.filter fun entry => !entry.2).map Prod.fst).Sublist
      (b.processed.map Prod.fst) := List.filter_sublist.map _
  have hplaced : b.failed.Sublist (b.rejected ++ b.processed.map Prod.fst) :=
    hprocessed.append_left _
  exact (hplaced.trans (List.sublist_append_right _ _)).trans (List.sublist_append_right _ _)

theorem mem_failed : request ∈ b.failed ↔ request ∈ b.rejected ∨
    (request, false) ∈ b.processed := by
  simp [failed]

@[simp] theorem all_call (b : Books κ) (k : κ) : (b.call k).all = b.fresh k :: b.all := by
  simp [all, call, List.reduceOption_cons_of_some]

theorem all_refuse (b : Books κ) (k : κ) (n : ℕ) :
    (b.refuse k n).all.Perm (b.fresh k :: b.all) := by
  have hqueue : (b.waiting ++ (b.fresh k :: b.rejected ++ b.processed.map Prod.fst)).Perm
      (b.fresh k :: (b.waiting ++ (b.rejected ++ b.processed.map Prod.fst))) := List.perm_middle
  exact (hqueue.append_left _).trans List.perm_middle

theorem all_accept (h : b.calling = before ++ some request :: after) :
    (b.accept before request after).all.Perm b.all := by
  simp only [all, accept, h, List.reduceOption_append, List.reduceOption_cons_of_none,
    List.reduceOption_cons_of_some, List.append_assoc, List.cons_append]
  refine List.Perm.append_left _ ?_
  have hqueue : (b.waiting ++ request :: (b.rejected ++ b.processed.map Prod.fst)).Perm
      (request :: (b.waiting ++ (b.rejected ++ b.processed.map Prod.fst))) := List.perm_middle
  exact (hqueue.append_left _).trans List.perm_middle

theorem all_reject (h : b.calling = before ++ some request :: after) (n : ℕ) :
    (b.reject before request after n).all.Perm b.all := by
  simp only [all, reject, h, List.reduceOption_append, List.reduceOption_cons_of_some,
    List.append_assoc, List.cons_append]
  refine List.Perm.append_left _ ?_
  have hqueue : (b.waiting ++ request :: (b.rejected ++ b.processed.map Prod.fst)).Perm
      (request :: (b.waiting ++ (b.rejected ++ b.processed.map Prod.fst))) := List.perm_middle
  exact (hqueue.append_left _).trans List.perm_middle

theorem all_leave (h : b.calling = before ++ none :: after) :
    (b.leave before after).all = b.all := by
  simp [all, leave, h, List.reduceOption_append, List.reduceOption_cons_of_none]

theorem all_process (h : b.waiting = request :: rest) (success : Bool) (n : ℕ) :
    (b.process request rest success n).all.Perm b.all := by
  simp only [all, process, h, List.map_cons, List.cons_append]
  refine List.Perm.append_left _ ?_
  have hplaced : (b.rejected ++ request :: b.processed.map Prod.fst).Perm
      (request :: (b.rejected ++ b.processed.map Prod.fst)) := List.perm_middle
  exact (hplaced.append_left _).trans List.perm_middle

/-! ## Sound books -/

/-- No two requests have a number in common, and each failure of a kind that counts is counted
once. -/
structure Sound (counts : κ → Bool) (b : Books κ) : Prop where
  distinct : (b.all.map Booking.number).Nodup
  old : ∀ request ∈ b.all, request.number < b.next
  counted : b.counted.Perm (b.failed.filter fun request => counts request.kind)

variable {counts : κ → Bool}

theorem Sound.empty : Sound counts ({} : Books κ) :=
  ⟨List.nodup_nil, by simp [all], by simp [failed]⟩

theorem Sound.add {b' : Books κ} (h : b.Sound counts) (hnext : b'.next = b.next + 1)
    (hall : b'.all.Perm (b.fresh k :: b.all))
    (hcounted : b'.counted.Perm (b'.failed.filter fun request => counts request.kind)) :
    b'.Sound counts where
  distinct := by
    rw [(hall.map _).nodup_iff, List.map_cons, List.nodup_cons]
    refine ⟨fun hmem => ?_, h.distinct⟩
    obtain ⟨request, hrequest, hsame⟩ := List.mem_map.mp hmem
    exact absurd hsame (Nat.ne_of_lt (h.old request hrequest))
  old request hrequest := by
    rw [hnext]
    rcases List.mem_cons.mp (hall.subset hrequest) with rfl | hmem
    · exact Nat.lt_succ_self b.next
    · exact Nat.lt_succ_of_lt (h.old request hmem)
  counted := hcounted

theorem Sound.move {b' : Books κ} (h : b.Sound counts) (hnext : b'.next = b.next)
    (hall : b'.all.Perm b.all)
    (hcounted : b'.counted.Perm (b'.failed.filter fun request => counts request.kind)) :
    b'.Sound counts where
  distinct := (hall.map _).nodup_iff.mpr h.distinct
  old request hrequest := by
    rw [hnext]
    exact h.old request (hall.subset hrequest)
  counted := hcounted

theorem Sound.count (h : b.Sound counts) (request : Booking κ)
    (hn : n = (counts request.kind).toNat) :
    (List.replicate n request ++ b.counted).Perm
      ((request :: b.failed).filter fun request => counts request.kind) := by
  rw [hn]
  cases hcounts : counts request.kind with
  | true =>
    rw [List.filter_cons_of_pos (by simpa using hcounts)]
    exact h.counted.cons request
  | false =>
    rw [List.filter_cons_of_neg (by simp [hcounts])]
    exact h.counted

theorem Sound.call (h : b.Sound counts) (k : κ) : (b.call k).Sound counts :=
  h.add rfl (by rw [all_call]) h.counted

theorem Sound.refuse (h : b.Sound counts) (k : κ) (hn : n = (counts k).toNat) :
    (b.refuse k n).Sound counts :=
  h.add rfl (b.all_refuse k n) (h.count (b.fresh k) hn)

theorem Sound.accept (h : b.Sound counts) (hcalling : b.calling = before ++ some request :: after) :
    (b.accept before request after).Sound counts :=
  h.move rfl (all_accept hcalling) h.counted

theorem Sound.reject (h : b.Sound counts) (hcalling : b.calling = before ++ some request :: after)
    (hn : n = (counts request.kind).toNat) : (b.reject before request after n).Sound counts :=
  h.move rfl (all_reject hcalling n) (h.count request hn)

theorem Sound.leave (h : b.Sound counts) (hcalling : b.calling = before ++ none :: after) :
    (b.leave before after).Sound counts :=
  h.move rfl (by rw [all_leave hcalling]) h.counted

theorem Sound.process (h : b.Sound counts) (hwaiting : b.waiting = request :: rest)
    (hn : n = (!success && counts request.kind).toNat) :
    (b.process request rest success n).Sound counts := by
  refine h.move rfl (all_process hwaiting success n) ?_
  cases success with
  | true =>
    rw [show n = 0 from hn]
    exact h.counted
  | false =>
    refine (h.count request hn).trans (List.Perm.filter _ ?_)
    exact List.perm_middle.symm

/-! ## Consequences -/

theorem Sound.counted_nodup (h : b.Sound counts) : b.counted.Nodup := by
  rw [h.counted.nodup_iff]
  exact (h.distinct.of_map.sublist b.failed_sublist).filter _

/-- The failures of the kinds that count are counted, and nothing else. -/
theorem Sound.mem_counted (h : b.Sound counts) : request ∈ b.counted ↔
    counts request.kind = true ∧ (request ∈ b.rejected ∨ (request, false) ∈ b.processed) := by
  rw [h.counted.mem_iff, List.mem_filter, mem_failed]
  exact and_comm

end Books
