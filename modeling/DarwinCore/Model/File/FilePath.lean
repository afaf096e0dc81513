import DarwinCore.Model.Text.StringUtils

/-! # `FilePath` -/

namespace DarwinCore.File

open Text

def filePathSeparator : List Char := ['/']

structure FilePath where
  mPathComponents : List (List Char)
deriving DecidableEq

/-- What a name does to the `stack` of `extractPathComponents`. -/
def pushName (stack : List (List Char)) (name : List Char) : List (List Char) :=
  if name.isEmpty then stack
  else if name = ['.', '.'] ∧ ¬stack.isEmpty then stack.dropLast
  else if name ≠ ['.'] then stack ++ [name]
  else stack

/-- `extractPathComponents`: a separator of one character is never looked for behind the end. -/
def extractPathComponents (path : List Char) : List (List Char) :=
  let names := (split path filePathSeparator).getD []
  names.foldl pushName []

def assemblyPath (components : List (List Char)) : List Char :=
  components.foldl (fun path name => path ++ (filePathSeparator ++ name)) []

/-- `find_last_of` for one character. -/
def findLastOf (c : Char) : List Char → Option ℕ
  | [] => none
  | d :: str =>
      match findLastOf c str with
      | some iter => some (iter + 1)
      | none => if d = c then some 0 else none

namespace FilePath

/-- The constructor that takes a string. -/
def ofString (path : List Char) : FilePath :=
  ⟨extractPathComponents path⟩

def toString (p : FilePath) : List Char :=
  if p.mPathComponents.isEmpty then [] else assemblyPath p.mPathComponents

def displayName (p : FilePath) : List Char :=
  match p.mPathComponents.getLast? with
  | none => []
  | some last => last

def extensionName (p : FilePath) : List Char :=
  let fname := p.displayName
  match findLastOf '.' fname with
  | none => []
  | some iter => if iter = fname.length - 1 then [] else fname.drop (iter + 1)

def name (p : FilePath) : List Char :=
  let fname := p.displayName
  match findLastOf '.' fname with
  | none => fname
  | some iter => if iter = fname.length - 1 then fname else fname.take iter

def parentDir (p : FilePath) : List Char :=
  if p.mPathComponents.isEmpty then []
  else if p.mPathComponents.length = 1 then filePathSeparator
  else assemblyPath p.mPathComponents.dropLast

def append (p : FilePath) (name : List Char) : List Char :=
  p.toString ++ filePathSeparator ++ name

def parent (p : FilePath) : FilePath :=
  if p.mPathComponents.isEmpty then ofString []
  else if p.mPathComponents.length = 1 then ofString filePathSeparator
  else ⟨p.mPathComponents.dropLast⟩

def appendNode (p : FilePath) (name : List Char) : FilePath :=
  if name.isEmpty then p else ⟨p.mPathComponents ++ [name]⟩

end FilePath

end DarwinCore.File
