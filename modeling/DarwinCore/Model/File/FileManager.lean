import DarwinCore.Library.FileStore
import DarwinCore.Library.FileSystem
import DarwinCore.Model.File.FilePath

/-! # `FileManager` -/

namespace DarwinCore.File

/-! ## `FileManager` on regular files

Its functions where all paths name regular files in directories that are there. -/

namespace Regular

open FileStore

variable {α : Type*} (files : Store α)

def isItemExistsAtPath (path : Path) : Bool :=
  (files path).isSome

def removeItemAtPath (path : Path) : Store α × Bool :=
  if ¬isItemExistsAtPath files path then (files, false) else (files.remove path, true)

def renameItem (fromPath toPath : Path) : Store α × Bool :=
  if fromPath.isEmpty ∨ toPath.isEmpty then (files, false)
  else if ¬isItemExistsAtPath files fromPath then (files, false)
  else if isItemExistsAtPath files toPath then (files, false)
  else (files.rename fromPath toPath, true)

def moveItem (fromPath toPath : Path) (cover : Bool) : Store α × Bool :=
  if isItemExistsAtPath files toPath then
    if ¬cover then (files, false)
    else
      let (files, removed) := removeItemAtPath files toPath
      if ¬removed then (files, false) else renameItem files fromPath toPath
  else renameItem files fromPath toPath

end Regular

/-! ## `FileManager` on trees

`fds` is how many descriptors are left for directories: `subpathsAtPath` opens one each time and
never closes it. -/

open FileTree

variable {α : Type*} (limit : ℕ) (cwd : Location)

/-- `isItemExistsAtPath`: whether the item is a directory, if it exists. -/
def isItemExistsAtPath (t : Volume α) (path : List Char) : Option Bool :=
  (t.stat limit cwd path).map fun e => e matches .dir

/-- The entries that `subpathsAtPath` leaves out. -/
def skippedNames : List Name :=
  [['.'], ['.', '.'], ['.', 'D', 'S', '_', 'S', 't', 'o', 'r', 'e']]

def subpathsAtPath (fds : ℕ) (t : Volume α) (path : List Char) : List (List Char) × ℕ :=
  if path.isEmpty ∨ isItemExistsAtPath limit cwd t path ≠ some true then ([], fds)
  else
    match t.opendir limit cwd path fds with
    | none => ([], fds)
    | some (names, fds) =>
        let fp := FilePath.ofString path
        ((names.filter fun fname => fname ∉ skippedNames).map fp.append, fds)

/-- The loop of `removeItemAtPath` over the paths below. -/
def removeAll (removeItem : ℕ → Volume α → List Char → Option (Volume α × ℕ × Bool)) :
    ℕ → Volume α → List (List Char) → Option (Volume α × ℕ × Bool)
  | fds, t, [] => some (t, fds, true)
  | fds, t, sp :: subpaths => do
      let (t, fds, removed) ← removeItem fds t sp
      if ¬removed then some (t, fds, false) else removeAll removeItem fds t subpaths

/-- `removeItemAtPath`, and the descriptors that are left; there is no result if the calls are
nested `fuel` deep. -/
def removeItemAtPath : ℕ → ℕ → Volume α → List Char → Option (Volume α × ℕ × Bool)
  | 0, _, _, _ => none
  | fuel + 1, fds, t, path =>
      match isItemExistsAtPath limit cwd t path with
      | none => some (t, fds, false)
      | some isDir => do
          let (t, fds, removed) ←
            if isDir then
              let (subpaths, fds) := subpathsAtPath limit cwd fds t path
              removeAll (removeItemAtPath fuel) fds t subpaths
            else some (t, fds, true)
          if ¬removed then some (t, fds, false)
          else
            let (t, removed) := t.remove limit cwd path
            some (t, fds, removed)

def renameItem (t : Volume α) (fromPath toPath : List Char) : Volume α × Bool :=
  if fromPath.isEmpty ∨ toPath.isEmpty then (t, false)
  else if (isItemExistsAtPath limit cwd t fromPath).isNone then (t, false)
  else if (isItemExistsAtPath limit cwd t toPath).isSome then (t, false)
  else t.rename limit cwd fromPath toPath

def moveItem (fuel fds : ℕ) (t : Volume α) (fromPath toPath : List Char) (cover : Bool) :
    Option (Volume α × ℕ × Bool) :=
  if (isItemExistsAtPath limit cwd t toPath).isSome then
    if ¬cover then some (t, fds, false)
    else do
      let (t, fds, removed) ← removeItemAtPath limit cwd fuel fds t toPath
      if ¬removed then some (t, fds, false)
      else
        let (t, renamed) := renameItem limit cwd t fromPath toPath
        some (t, fds, renamed)
  else
    let (t, renamed) := renameItem limit cwd t fromPath toPath
    some (t, fds, renamed)

end DarwinCore.File
