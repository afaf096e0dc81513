import DarwinCore.Library.ByteOrder

/-! # Regions of memory and lists threaded through them

A memory is a function from addresses to bytes. -/

open ByteOrder

/-! ## Regions -/

structure Region where
  start : ℕ
  length : ℕ
  deriving DecidableEq

namespace Region

variable {r q : Region}

def Holds (r : Region) (a : ℕ) : Prop :=
  r.start ≤ a ∧ a < r.start + r.length

def Apart (r q : Region) : Prop :=
  r.start + r.length ≤ q.start ∨ q.start + q.length ≤ r.start

def Within (r q : Region) : Prop :=
  q.start ≤ r.start ∧ r.start + r.length ≤ q.start + q.length

theorem Apart.symm (h : r.Apart q) : q.Apart r :=
  Or.symm h

instance : Std.Symm Apart := ⟨fun _ _ h => h.symm⟩

theorem Apart.of_within {r' q' : Region} (h : r.Apart q) (hr : r'.Within r) (hq : q'.Within q) :
    r'.Apart q' := by
  simp only [Apart, Within] at *
  omega

theorem Apart.not_holds {a : ℕ} (h : r.Apart q) (hr : r.Holds a) : ¬q.Holds a := by
  simp only [Apart, Holds] at *
  omega

theorem not_apart_self (h : 0 < r.length) : ¬r.Apart r := by
  simp only [Apart]
  omega

theorem Within.refl (r : Region) : r.Within r :=
  ⟨Nat.le_refl _, Nat.le_refl _⟩

theorem Within.trans {p : Region} (h : r.Within q) (h' : q.Within p) : r.Within p :=
  ⟨Nat.le_trans h'.1 h.1, Nat.le_trans h.2 h'.2⟩

theorem Within.holds {a : ℕ} (h : r.Within q) (ha : r.Holds a) : q.Holds a :=
  ⟨Nat.le_trans h.1 ha.1, Nat.lt_of_lt_of_le ha.2 h.2⟩

def pieces (start length : ℕ) (n : ℕ) : List Region :=
  (List.range n).map fun i => ⟨start + i * length, length⟩

theorem pieces_succ (start length n : ℕ) : pieces start length (n + 1) =
    pieces start length n ++ [⟨start + n * length, length⟩] := by
  simp [pieces, List.range_succ]

theorem within_of_mem_pieces {start length n : ℕ} (h : r ∈ pieces start length n) :
    r.Within ⟨start, n * length⟩ := by
  obtain ⟨i, hi, rfl⟩ := List.mem_map.mp h
  have hle : (i + 1) * length ≤ n * length :=
    Nat.mul_le_mul_right _ (Nat.succ_le_of_lt (List.mem_range.mp hi))
  rw [Nat.add_mul] at hle
  simp only [Within]
  omega

theorem pieces_apart (start length n : ℕ) : (pieces start length n).Pairwise Apart := by
  induction n with
  | zero => exact .nil
  | succ n ih =>
    rw [pieces_succ, List.pairwise_append]
    refine ⟨ih, List.pairwise_singleton .., fun r hr q hq => ?_⟩
    rw [List.mem_singleton.mp hq]
    exact .inl (within_of_mem_pieces hr).2

end Region

/-! ## Words -/

section Words

variable {host : Endian} {w : ℕ} {m m' : ℕ → UInt8} {a : ℕ}

/-- The word of `w` bytes at an address. -/
def loadWord (host : Endian) (w : ℕ) (m : ℕ → UInt8) (a : ℕ) : ℕ :=
  host.decode ((List.range w).map fun i => m (a + i))

def storeWord (host : Endian) (w : ℕ) (m : ℕ → UInt8) (a n : ℕ) : ℕ → UInt8 :=
  fun x => if a ≤ x ∧ x < a + w then (host.encode w n).getD (x - a) 0 else m x

theorem loadWord_congr (h : ∀ x, Region.Holds ⟨a, w⟩ x → m x = m' x) :
    loadWord host w m a = loadWord host w m' a := by
  have hbytes : ((List.range w).map fun i => m (a + i)) = (List.range w).map fun i => m' (a + i) :=
    List.map_congr_left fun i hi => h _ ⟨by simp, by simpa using hi⟩
  rw [loadWord, loadWord, hbytes]

theorem storeWord_of_not_holds {n x : ℕ} (h : ¬Region.Holds ⟨a, w⟩ x) :
    storeWord host w m a n x = m x :=
  if_neg h

theorem loadWord_storeWord {n : ℕ} (h : n < 256 ^ w) :
    loadWord host w (storeWord host w m a n) a = n := by
  have hbytes : ((List.range w).map fun i => storeWord host w m a n (a + i)) = host.encode w n := by
    apply List.ext_getElem
    · simp
    · intro i hi hi'
      have hlt : i < w := by simpa using hi
      have hin : a ≤ a + i ∧ a + i < a + w := by omega
      rw [List.getElem_map, List.getElem_range, storeWord, if_pos hin, Nat.add_sub_cancel_left,
        List.getD_eq_getElem?_getD, List.getElem?_eq_getElem hi', Option.getD_some]
  rw [loadWord, hbytes, host.decode_encode h]

/-! ## Lists -/

/-- The addresses that a list visits: the word at each is the next one, and zero ends it. -/
def ThreadedList (host : Endian) (w : ℕ) (m : ℕ → UInt8) : ℕ → List ℕ → Prop
  | head, [] => head = 0
  | head, a :: rest => head = a ∧ a ≠ 0 ∧ ThreadedList host w m (loadWord host w m a) rest

theorem ThreadedList.congr {head : ℕ} {visited : List ℕ} (h : ThreadedList host w m head visited)
    (hsame : ∀ a ∈ visited, ∀ x, Region.Holds ⟨a, w⟩ x → m x = m' x) :
    ThreadedList host w m' head visited := by
  induction visited generalizing head with
  | nil => exact h
  | cons a rest ih =>
    obtain ⟨hhead, hne, hrest⟩ := h
    obtain ⟨ha, hothers⟩ := List.forall_mem_cons.mp hsame
    refine ⟨hhead, hne, ?_⟩
    rw [← loadWord_congr ha]
    exact ih hrest hothers

theorem ThreadedList.store {head n : ℕ} {visited : List ℕ} (h : ThreadedList host w m head visited)
    (hapart : ∀ b ∈ visited, Region.Apart ⟨a, w⟩ ⟨b, w⟩) :
    ThreadedList host w (storeWord host w m a n) head visited := by
  refine h.congr fun b hb x hx => ?_
  exact (storeWord_of_not_holds fun ha => (hapart b hb).not_holds ha hx).symm

/-- The address of the head is stored at a new one, which is the head from then on. -/
theorem ThreadedList.push {head : ℕ} {visited : List ℕ} (h : ThreadedList host w m head visited)
    (hhead : head < 256 ^ w) (hne : a ≠ 0)
    (hapart : ∀ b ∈ visited, Region.Apart ⟨a, w⟩ ⟨b, w⟩) :
    ThreadedList host w (storeWord host w m a head) a (a :: visited) := by
  refine ⟨rfl, hne, ?_⟩
  rw [loadWord_storeWord hhead]
  exact h.store hapart

end Words
