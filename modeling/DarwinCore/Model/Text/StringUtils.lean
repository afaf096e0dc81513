import DarwinCore.Library.Scan

/-! # `StringUtils`

A `std::string` is a sequence of bytes. The functions only compare them, and are written for any
elements that can be compared. -/

namespace DarwinCore.Text

open Scan

variable {α : Type*} [DecidableEq α]

/-- `find_first_of`. -/
def findFirstOf (str characters : List α) : Option ℕ :=
  str.findIdx? (· ∈ characters)

/-- A pass of `split` over `tmpStr`; `substr` throws if it starts behind the end. -/
def splitPass (separator : List α) (c : α) (rest : List α) (result : List (List α)) :
    Pass (Option (List (List α))) (List (List α)) :=
  let tmpStr := c :: rest
  match findFirstOf tmpStr separator with
  | none => .leave (some (result ++ [tmpStr]))
  | some iter =>
      let substr := tmpStr.take iter
      let result := if substr.isEmpty then result else result ++ [substr]
      let nextStart := iter + separator.length
      if nextStart > tmpStr.length then .leave none else .advance nextStart result

/-- `split`: none if `substr` throws. -/
def split (str separator : List α) : Option (List (List α)) :=
  if separator.isEmpty ∨ str.isEmpty then some []
  else (run (splitPass separator) some (str.length + 1) str []).join

end DarwinCore.Text
