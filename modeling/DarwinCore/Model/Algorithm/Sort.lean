import DarwinCore.Model.Algorithm.Search

/-! # `Sort`

A loop runs and a call nests at most `fuel` times; there is no result if that is too few, or if one
indexes outside the vector. -/

namespace DarwinCore.Algorithm

variable {α : Type} (comp : α → α → Bool)

/-- `arr[i] = x`. -/
def assign (arr : List α) (i : ℕ) (x : α) : Option (List α) :=
  if i < arr.length then some (arr.set i x) else none

/-- `std::swap(arr[i], arr[j])`. -/
def swap (arr : List α) (i j : ℕ) : Option (List α) := do
  let x ← arr[i]?
  let y ← arr[j]?
  assign (← assign arr i y) j x

/-! ## `insertionSort` -/

/-- The inner loop, which makes room for the key from `j` downwards. -/
def insertLoop (key : α) (arr : List α) : ℕ → Option (List α)
  | 0 => assign arr 0 key
  | j + 1 => do
      let x ← arr[j]?
      if comp key x then insertLoop key (← assign arr (j + 1) x) j
      else assign arr (j + 1) key

def insertionSortLoop : ℕ → List α → ℕ → Option (List α)
  | 0, _, _ => none
  | fuel + 1, arr, i =>
      if i < arr.length then do
        let key ← arr[i]?
        insertionSortLoop fuel (← insertLoop comp key arr i) (i + 1)
      else some arr

def insertionSort (fuel : ℕ) (arr : List α) : Option (List α) :=
  insertionSortLoop comp fuel arr 1

/-! ## `quickSort` -/

/-- The loop of `partition`. -/
def partitionLoop (pivot : α) (right : ℕ) : ℕ → List α → ℕ → ℕ → Option (List α × ℕ)
  | 0, _, _, _ => none
  | fuel + 1, arr, i, j =>
      if j < right then do
        let x ← arr[j]?
        if comp x pivot then
          partitionLoop pivot right fuel (← swap arr i j) (i + 1) (j + 1)
        else partitionLoop pivot right fuel arr i (j + 1)
      else some (arr, i)

def partition (fuel : ℕ) (arr : List α) (left right : ℕ) : Option (List α × ℕ) := do
  let pivot ← arr[right]?
  let (arr, i) ← partitionLoop comp pivot right fuel arr left left
  return (← swap arr i right, i)

def quickSortImpl : ℕ → List α → ℕ → ℕ → Option (List α)
  | 0, _, _, _ => none
  | fuel + 1, arr, left, right =>
      if left ≥ right then some arr
      else do
        let (arr, pivot) ← partition comp (fuel + 1) arr left right
        let arr ← (if pivot > 0 then quickSortImpl fuel arr left (sizePred pivot) else some arr :)
        quickSortImpl fuel arr (pivot + 1) right

def quickSort (fuel : ℕ) (arr : List α) : Option (List α) :=
  if arr.length ≤ 1 then some arr
  else quickSortImpl comp fuel arr 0 (sizePred arr.length)

/-! ## `mergeSort` -/

/-- The first loop of `merge`, which fills `temp`. -/
def copyLoop (arr : List α) (right : ℕ) : ℕ → List α → ℕ → Option (List α)
  | 0, _, _ => none
  | fuel + 1, temp, i =>
      if i ≤ right then do copyLoop arr right fuel (← assign temp i (← arr[i]?)) (i + 1)
      else some temp

/-- The second loop of `merge`. -/
def mergeLoop (temp : List α) (mid right : ℕ) :
    ℕ → List α → ℕ → ℕ → ℕ → Option (List α × ℕ × ℕ)
  | 0, _, _, _, _ => none
  | fuel + 1, arr, i, j, k =>
      if i ≤ mid ∧ j ≤ right then do
        let x ← temp[i]?
        let y ← temp[j]?
        if comp x y then mergeLoop temp mid right fuel (← assign arr k x) (i + 1) j (k + 1)
        else mergeLoop temp mid right fuel (← assign arr k y) i (j + 1) (k + 1)
      else some (arr, i, k)

/-- The third loop of `merge`, for what is left of the left half. -/
def restLoop (temp : List α) (mid : ℕ) : ℕ → List α → ℕ → ℕ → Option (List α)
  | 0, _, _, _ => none
  | fuel + 1, arr, i, k =>
      if i ≤ mid then do restLoop temp mid fuel (← assign arr k (← temp[i]?)) (i + 1) (k + 1)
      else some arr

/-- `merge`, with `arr` and `temp` as it leaves them. -/
def merge (fuel : ℕ) (arr temp : List α) (left mid right : ℕ) : Option (List α × List α) := do
  let temp ← copyLoop arr right fuel temp left
  let (arr, i, k) ← mergeLoop comp temp mid right fuel arr left (mid + 1) left
  return (← restLoop temp mid fuel arr i k, temp)

def mergeSortImpl : ℕ → List α → List α → ℕ → ℕ → Option (List α × List α)
  | 0, _, _, _, _ => none
  | fuel + 1, arr, temp, left, right =>
      if left ≥ right then some (arr, temp)
      else do
        let mid := left + (right - left) / 2
        let (arr, temp) ← mergeSortImpl fuel arr temp left mid
        let (arr, temp) ← mergeSortImpl fuel arr temp (mid + 1) right
        merge comp (fuel + 1) arr temp left mid right

def mergeSort [Inhabited α] (fuel : ℕ) (arr : List α) : Option (List α) :=
  if arr.length ≤ 1 then some arr
  else
    (mergeSortImpl comp fuel arr (List.replicate arr.length default) 0
      (sizePred arr.length)).map Prod.fst

/-! ## `heapSort` -/

/-- A child that comes after `largest` takes its place. -/
def largerChild (n : ℕ) (arr : List α) (largest child : ℕ) : Option ℕ :=
  if child < n then do
    return if comp (← arr[largest]?) (← arr[child]?) then child else largest
  else some largest

def heapify (n : ℕ) : ℕ → List α → ℕ → Option (List α)
  | 0, _, _ => none
  | fuel + 1, arr, i => do
      let left := 2 * i + 1
      let right := 2 * i + 2
      let largest ← largerChild comp n arr i left
      let largest ← largerChild comp n arr largest right
      if largest ≠ i then heapify n fuel (← swap arr i largest) largest else some arr

/-- The conversion of a `size_t` to `int`. -/
def toInt (n : ℕ) : ℤ :=
  (n : ℤ).bmod (2 ^ 32)

/-- The first loop of `heapSort`, which counts an `int` down. -/
def buildLoop (depth : ℕ) : ℕ → List α → ℤ → Option (List α)
  | 0, _, _ => none
  | fuel + 1, arr, i =>
      if 0 ≤ i then do
        buildLoop depth fuel (← heapify comp arr.length depth arr i.toNat) (i - 1)
      else some arr

/-- The second loop of `heapSort`, down from `i`. -/
def extractLoop (depth : ℕ) : List α → ℕ → Option (List α)
  | arr, 0 => some arr
  | arr, i + 1 => do
      let arr ← swap arr 0 (i + 1)
      extractLoop depth (← heapify comp (i + 1) depth arr 0) i

def heapSort (fuel : ℕ) (arr : List α) : Option (List α) :=
  if arr.length ≤ 1 then some arr
  else do
    let arr ← buildLoop comp fuel fuel arr (toInt (sizePred (arr.length / 2)))
    extractLoop comp fuel arr (sizePred arr.length)

end DarwinCore.Algorithm
