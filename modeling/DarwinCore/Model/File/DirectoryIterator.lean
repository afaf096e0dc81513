import DarwinCore.Library.FileContents

/-! # `DirectoryIterator`

As it is used without a filter, a depth limit and links to follow. -/

namespace DarwinCore.File

open FileTree

inductive EntryType where
  | file
  | directory
  | symlink
  | other
  deriving DecidableEq, Repr

structure DirectoryEntry where
  path : List Char
  type : EntryType
  deriving DecidableEq, Repr

structure DirectoryIterator where
  rootPath : List Char
  recursive : Bool := false

variable {α : Type*} (limit : ℕ) (cwd : Location) (t : Volume α)

/-- `operator/` of `fs::path`. -/
def joinPath (path : List Char) (name : Name) : List Char :=
  if path = [] ∨ path.getLast? = some '/' then path ++ name else path ++ '/' :: name

/-- The kind of an entry as its tests say, which follow symbolic links. -/
def entryType (path : List Char) : EntryType :=
  match t.stat limit cwd path with
  | some (.file _) => .file
  | some .dir => .directory
  | _ => if t.lstat limit cwd path matches some (.link _) then .symlink else .other

/-- `processEntry`: a link that leads nowhere makes a test or `last_write_time` throw. -/
def processEntry (path : List Char) : Option DirectoryEntry :=
  if (t.stat limit cwd path).isNone then none
  else some ⟨path, entryType limit cwd t path⟩

/-- Whether the loop has come to the end, and what it has passed to the callback before. -/
abbrev Listing := List DirectoryEntry × Bool

/-- The loop over the names in a directory, which ends where something throws. -/
def iterateNames (visit : Name → Option Listing) : List Name → Option Listing
  | [] => some ([], true)
  | name :: names => do
      let (entries, completed) ← visit name
      if ¬completed then some (entries, false)
      else
        let (more, completed) ← iterateNames visit names
        some (entries ++ more, completed)

/-- `recursive_directory_iterator` and `directory_iterator` at a directory; there is no result if
directories are nested `fuel` deep. -/
def iterateDirectory (recursive : Bool) : ℕ → List Char → Option Listing
  | 0, _ => none
  | fuel + 1, path =>
      match t.readdir limit cwd path with
      | none => some ([], false)
      | some names =>
          iterateNames
            (fun name =>
              match processEntry limit cwd t (joinPath path name) with
              | none => some ([], false)
              | some entry =>
                  if recursive ∧ t.lstat limit cwd (joinPath path name) = some .dir then do
                    let (entries, completed) ←
                      iterateDirectory recursive fuel (joinPath path name)
                    some (entry :: entries, completed)
                  else some ([entry], true))
            (names.filter fun name => name ≠ ['.'] ∧ name ≠ ['.', '.'])

/-- `iterate`, which catches what is thrown. -/
def DirectoryIterator.iterate (iter : DirectoryIterator) : Option (List DirectoryEntry) :=
  (iterateDirectory limit cwd t iter.recursive (t.depth + 1) iter.rootPath).map Prod.fst

end DarwinCore.File
