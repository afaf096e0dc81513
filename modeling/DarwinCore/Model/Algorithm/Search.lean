import Mathlib.Algebra.Order.Ring.Rat
import Mathlib.Data.Rat.Floor

/-! # `Search`

A loop runs at most `fuel` times; there is no result if that is too few, or if it indexes outside
the vector. -/

namespace DarwinCore.Algorithm

variable {α : Type*} (comp : α → α → Bool)

/-- The loop of `binarySearch`. -/
def binarySearchLoop (arr : List α) (target : α) : ℕ → ℕ → ℕ → Option (Option ℕ)
  | 0, _, _ => none
  | fuel + 1, left, right =>
      if left < right then
        let mid := left + (right - left) / 2
        match arr[mid]? with
        | none => none
        | some x =>
            if comp x target then binarySearchLoop arr target fuel (mid + 1) right
            else if comp target x then binarySearchLoop arr target fuel left mid
            else some (some mid)
      else some none

def binarySearch (fuel : ℕ) (arr : List α) (target : α) : Option (Option ℕ) :=
  if arr.isEmpty then some none else binarySearchLoop comp arr target fuel 0 arr.length

/-- The loop of `lowerBound` and `upperBound`, which goes on to the right of an element that
`isBelow`. -/
def boundLoop (isBelow : α → Bool) (arr : List α) : ℕ → ℕ → ℕ → Option ℕ
  | 0, _, _ => none
  | fuel + 1, left, right =>
      if left < right then
        let mid := left + (right - left) / 2
        match arr[mid]? with
        | none => none
        | some x =>
            if isBelow x then boundLoop isBelow arr fuel (mid + 1) right
            else boundLoop isBelow arr fuel left mid
      else some left

def lowerBound (fuel : ℕ) (arr : List α) (target : α) : Option ℕ :=
  boundLoop (fun x => comp x target) arr fuel 0 arr.length

def upperBound (fuel : ℕ) (arr : List α) (target : α) : Option ℕ :=
  boundLoop (fun x => !comp target x) arr fuel 0 arr.length

/-! ## Interpolation -/

/-- What can go wrong in `interpolationSearch`. -/
inductive SearchFault where
  | divisionByZero
  /-- The position is no `size_t`. -/
  | conversion
  | outside
  /-- The loop has not come to its end. -/
  | unfinished
  deriving DecidableEq, Repr

/-- A round of the loop that looks at a position. -/
structure Probe where
  left : ℕ
  right : ℕ
  pos : ℕ
  deriving DecidableEq, Repr

/-- The values of type `size_t`. -/
def sizeRange : ℕ :=
  2 ^ 64

/-- `n - 1` of a `size_t`. -/
def sizePred (n : ℕ) : ℕ :=
  (n + (sizeRange - 1)) % sizeRange

/-- `n + 1` of a `size_t`. -/
def sizeSucc (n : ℕ) : ℕ :=
  (n + 1) % sizeRange

def element (arr : List ℤ) (i : ℕ) : Except SearchFault ℤ :=
  match arr[i]? with
  | none => .error .outside
  | some x => .ok x

/-- The conversion of an exact number to `size_t`, which truncates. -/
def toSize (q : ℚ) : Except SearchFault ℕ :=
  let n := q.num.tdiv q.den
  if 0 ≤ n ∧ n < sizeRange then .ok n.toNat else .error .conversion

/-- `pos`. -/
def probePosition (left right : ℕ) (first last target : ℤ) : Except SearchFault ℕ :=
  if last - first = 0 then .error .divisionByZero
  else
    toSize ((left : ℚ) + (((right : ℚ) - (left : ℚ)) / ((last - first : ℤ) : ℚ)) *
      ((target - first : ℤ) : ℚ))

/-- The loop of `interpolationSearch`, which also says where it has looked. -/
def interpolationLoop (arr : List ℤ) (target : ℤ) :
    ℕ → ℕ → ℕ → List Probe → Except SearchFault (Option ℕ × List Probe)
  | 0, _, _, _ => .error .unfinished
  | fuel + 1, left, right, probes =>
      if right < left then .ok (none, probes)
      else do
        let first ← element arr left
        if target < first then .ok (none, probes)
        else
          let last ← element arr right
          if last < target then .ok (none, probes)
          else if left = right then
            .ok (if first = target then some left else none, probes)
          else
            let pos ← probePosition left right first last target
            let probes := probes ++ [⟨left, right, pos⟩]
            let x ← element arr pos
            if x = target then .ok (some pos, probes)
            else if x < target then interpolationLoop arr target fuel (sizeSucc pos) right probes
            else interpolationLoop arr target fuel left (sizePred pos) probes

/-- `interpolationSearch` with positions that are computed exactly. -/
def interpolationSearch (fuel : ℕ) (arr : List ℤ) (target : ℤ) :
    Except SearchFault (Option ℕ × List Probe) :=
  if arr.isEmpty then .ok (none, [])
  else interpolationLoop arr target fuel 0 (sizePred arr.length) []

end DarwinCore.Algorithm
