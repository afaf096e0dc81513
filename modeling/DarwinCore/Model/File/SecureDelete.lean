import DarwinCore.Model.File.DirectoryIterator

/-! # `SecureDelete`

The random bytes and digits are given, and so is how many bytes each `write` takes. -/

namespace DarwinCore.File

open FileTree

inductive SecureDeleteMode where
  | simple
  | doD
  | gutmann
  deriving DecidableEq, Repr

/-! ## Overwriting -/

/-- What the deletion of a file gets from outside. -/
structure Device where
  /-- How many bytes the `n`-th `write` takes at most, if it does not fail. -/
  taken : ℕ → Option ℕ
  noise : ℕ → UInt8

/-- A file that is open for writing. -/
structure Descriptor where
  content : List UInt8
  offset : ℕ := 0
  /-- The number of random bytes drawn for it. -/
  drawn : ℕ := 0
  /-- What has been written, and where. -/
  writes : List (ℕ × List UInt8) := []

namespace Descriptor

/-- `lseek` to the start. -/
def rewind (fd : Descriptor) : Descriptor :=
  { fd with offset := 0 }

def write (device : Device) (data : List UInt8) (fd : Descriptor) : Descriptor × Option ℕ :=
  match device.taken fd.writes.length with
  | none => (fd, none)
  | some n =>
      let data := data.take n
      ({ fd with
          content := fd.content.take fd.offset ++ data ++ fd.content.drop (fd.offset + data.length)
          offset := fd.offset + data.length
          writes := fd.writes ++ [(fd.offset, data)] }, some data.length)

/-- Random bytes for a buffer. -/
def draw (device : Device) (size : ℕ) (fd : Descriptor) : List UInt8 × Descriptor :=
  (List.ofFn fun i : Fin size => device.noise (fd.drawn + i),
    { fd with drawn := fd.drawn + size })

end Descriptor

abbrev Overwrite := Descriptor → Descriptor × Bool

/-- The loop of `overwritePattern` and `overwriteRandom`, where `fill` gives the buffer; it is run
at most `fuel` times. -/
def overwriteLoop (device : Device) (fill : Descriptor → List UInt8 × Descriptor) :
    ℕ → ℕ → Overwrite
  | 0, _, fd => (fd, true)
  | fuel + 1, remaining, fd =>
      if remaining = 0 then (fd, true)
      else
        let (buffer, fd) := fill fd
        let toWrite := min remaining buffer.length
        let (fd, written) := fd.write device (buffer.take toWrite)
        if written ≠ some toWrite then (fd, false)
        else overwriteLoop device fill fuel (remaining - toWrite) fd

variable (device : Device) (size : ℕ)

/-- The size of the buffer for a file. -/
def bufferSize : ℕ :=
  min size (64 * 1024)

def overwritePattern (buffer : List UInt8) : Overwrite := fun fd =>
  overwriteLoop device (fun fd => (buffer, fd)) size size fd.rewind

def overwriteRandom : Overwrite := fun fd =>
  overwriteLoop device (Descriptor.draw device (bufferSize size)) size size fd.rewind

/-- One pass after the other as long as they succeed. -/
def overwriteAll : List Overwrite → Overwrite
  | [], fd => (fd, true)
  | pass :: passes, fd =>
      let (fd, success) := pass fd
      if ¬success then (fd, false) else overwriteAll passes fd

def overwriteZeros : Overwrite :=
  overwritePattern device size (List.replicate (bufferSize size) 0x00)

/-- The passes of `overwriteDoD`. -/
def dodPasses : List Overwrite :=
  [overwritePattern device size (List.replicate (bufferSize size) 0x00),
    overwritePattern device size (List.replicate (bufferSize size) 0xFF),
    overwriteRandom device size]

def overwriteDoD : Overwrite :=
  overwriteAll (dodPasses device size)

/-- `patterns` of `overwriteGutmann`. -/
def gutmannPatterns : List (UInt8 × UInt8 × UInt8) :=
  [(0x55, 0x55, 0x55), (0xAA, 0xAA, 0xAA), (0x92, 0x49, 0x24),
    (0x49, 0x24, 0x92), (0x24, 0x92, 0x49), (0x00, 0x00, 0x00),
    (0x11, 0x11, 0x11), (0x22, 0x22, 0x22), (0x33, 0x33, 0x33),
    (0x44, 0x44, 0x44), (0x55, 0x55, 0x55), (0x66, 0x66, 0x66),
    (0x77, 0x77, 0x77), (0x88, 0x88, 0x88), (0x99, 0x99, 0x99),
    (0xAA, 0xAA, 0xAA), (0xBB, 0xBB, 0xBB), (0xCC, 0xCC, 0xCC),
    (0xDD, 0xDD, 0xDD), (0xEE, 0xEE, 0xEE), (0xFF, 0xFF, 0xFF)]

/-- The buffer for a pattern. -/
def patternBuffer (pattern : UInt8 × UInt8 × UInt8) : List UInt8 :=
  List.ofFn fun i : Fin (bufferSize size) =>
    if i.val % 3 = 0 then pattern.1 else if i.val % 3 = 1 then pattern.2.1 else pattern.2.2

/-- The passes of `overwriteGutmann`. -/
def gutmannPasses : List Overwrite :=
  List.replicate 4 (overwriteRandom device size) ++
    (gutmannPatterns.map fun pattern =>
      overwritePattern device size (patternBuffer size pattern)) ++
    List.replicate 4 (overwriteRandom device size)

def overwriteGutmann : Overwrite :=
  overwriteAll (gutmannPasses device size)

/-- The passes over a file. -/
def overwrite (mode : SecureDeleteMode) : Overwrite :=
  match mode with
  | .simple => overwriteZeros device size
  | .doD => overwriteDoD device size
  | .gutmann => overwriteGutmann device size

/-! ## Deleting files -/

/-- What is done to a file system. -/
inductive Change where
  | write (l : Location) (offset : ℕ) (data : List UInt8)
  | rename (source target : Location)
  | remove (l : Location)

/-- The writes to a file. -/
def writesAt (l : Location) (pieces : List (ℕ × List UInt8)) : List Change :=
  pieces.map fun piece => .write l piece.1 piece.2

/-- A file system and what has been done to it. -/
structure Disk where
  volume : Volume (List UInt8)
  changes : List Change := []

variable (limit : ℕ) (cwd : Location)

namespace Disk

def rename (disk : Disk) (old new : List Char) : Disk × Bool :=
  match disk.volume.rename limit cwd old new,
    disk.volume.resolve limit cwd false old, disk.volume.place limit cwd new with
  | (volume, true), some source, some target =>
      ({ volume := volume, changes := disk.changes ++ [.rename source target] }, true)
  | _, _, _ => (disk, false)

/-- What `call` removes is what a path names. -/
def removeBy (disk : Disk) (call : Volume (List UInt8) → List Char → Volume (List UInt8) × Bool)
    (path : List Char) : Disk × Bool :=
  match call disk.volume path, disk.volume.resolve limit cwd false path with
  | (volume, true), some l =>
      ({ volume := volume, changes := disk.changes ++ [.remove l] }, true)
  | _, _ => (disk, false)

def remove (disk : Disk) (path : List Char) : Disk × Bool :=
  disk.removeBy limit cwd (Volume.remove limit cwd) path

def rmdir (disk : Disk) (path : List Char) : Disk × Bool :=
  disk.removeBy limit cwd (Volume.rmdir limit cwd) path

end Disk

/-- The sixteen digits that are drawn for a name. -/
abbrev Digits := Fin 16 → Fin 16

def hexDigit (d : Fin 16) : Char :=
  ['0', '1', '2', '3', '4', '5', '6', '7', '8', '9', 'a', 'b', 'c', 'd', 'e', 'f'].get d

def generateRandomName (digits : Digits) (path : List Char) : List Char :=
  let dir := (path.rdropWhile (· ≠ '/')).dropLast
  let name := List.ofFn fun i => hexDigit (digits i)
  if dir.isEmpty then name else dir ++ '/' :: name

def deleteFile (mode : SecureDeleteMode) (digits : Digits) (disk : Disk) (path : List Char) :
    Disk × Bool :=
  match disk.volume.openFile limit cwd path with
  | none => (disk, false)
  | some (l, content) =>
      let (fd, success) := overwrite device content.length mode { content := content }
      let disk : Disk := {
        volume := disk.volume.put l fd.content
        changes := disk.changes ++ writesAt l fd.writes }
      if ¬success then (disk, false)
      else
        let randomName := generateRandomName digits path
        let (disk, _) := disk.rename limit cwd path randomName
        disk.remove limit cwd randomName

/-! ## Deleting directories -/

variable (devices : ℕ → Device) (names : ℕ → Digits) (mode : SecureDeleteMode)

/-- The loop of `deleteDirectory` over the files, from the `n`-th one on. -/
def deleteFiles : ℕ → Disk → List (List Char) → Disk × Bool
  | _, disk, [] => (disk, true)
  | n, disk, file :: files =>
      let (disk, deleted) := deleteFile (devices n) limit cwd mode (names n) disk file
      if ¬deleted then (disk, false) else deleteFiles (n + 1) disk files

/-- The loop of `deleteDirectory` over the subdirectories. -/
def removeDirectories : Disk → List (List Char) → Disk × Bool
  | disk, [] => (disk, true)
  | disk, dir :: dirs =>
      let (disk, removed) := disk.rmdir limit cwd dir
      if ¬removed then (disk, false) else removeDirectories disk dirs

/-- `std::sort` by length, the longest first. -/
structure LengthSort where
  sort : List (List Char) → List (List Char)
  perm : ∀ paths, (sort paths).Perm paths
  sorted : ∀ paths, (sort paths).Pairwise fun a b => b.length ≤ a.length

/-- The `files` of `deleteDirectory`. -/
def filesOf (entries : List DirectoryEntry) : List (List Char) :=
  (entries.filter fun e => e.type = .file).map DirectoryEntry.path

/-- The `directories` of `deleteDirectory`. -/
def directoriesOf (path : List Char) (entries : List DirectoryEntry) : List (List Char) :=
  (entries.filter fun e => e.type = .directory ∧ e.path ≠ path).map DirectoryEntry.path

def deleteDirectory (bySize : LengthSort) (t : Volume (List UInt8)) (path : List Char) :
    Option (Disk × Bool) := do
  let iter : DirectoryIterator := { rootPath := path, recursive := true }
  let entries ← iter.iterate limit cwd t
  let (disk, deleted) :=
    deleteFiles limit cwd devices names mode 0 { volume := t } (filesOf entries)
  if ¬deleted then some (disk, false)
  else
    let (disk, removed) :=
      removeDirectories limit cwd disk (bySize.sort (directoriesOf path entries))
    if ¬removed then some (disk, false) else some (disk.rmdir limit cwd path)

end DarwinCore.File
