/-
# Files

A tree of files, as far as commands look at it, and how a path leads through it.  A path is followed
part by part, and every part but the last has to be a folder: `a/../b` leads nowhere if there is no
folder `a`.  The tree reaches up to its root, so that a path may also leave the folder in which a
command runs.
-/

namespace GpuWaits

/-- Why a file cannot be used. -/
inductive FileError where
  | missing
  /-- Something that should be a folder is a file. -/
  | notFolder
  /-- Something that should be a file is a folder. -/
  | isFolder
  /-- The path, or a name in it, is longer than the system allows. -/
  | tooLong
deriving DecidableEq, Repr

/-- The text of an error. -/
def FileError.message : FileError → String
  | .missing => "No such file or directory (os error 2)"
  | .notFolder => "Not a directory (os error 20)"
  | .isFolder => "Is a directory (os error 21)"
  | .tooLong => "File name too long (os error 36)"

/-- A place in a tree of files: the names on the way to it from the root. -/
abbrev Location := List String

/-- One part further.  A dot stays where it is, and two dots go up; the root has nothing above it. -/
def Location.step (place : Location) (part : String) : Location :=
  if part = "." then place
  else if part = ".." then place.dropLast
  else place ++ [part]

/-- A path, as it is written. -/
structure Path where
  /-- The path starts at the root and not in the folder in which the command runs. -/
  fromRoot : Bool
  /-- What stands between the slashes. -/
  parts : List String
  /-- The path ends with a slash, so that it can only mean a folder. -/
  meansFolder : Bool

namespace Path

/-- The number of bytes that a path stays below. -/
def limit : Nat := 4096

/-- The largest number of bytes in a name. -/
def nameLimit : Nat := 255

/-- Reads a path.  The empty text is none. -/
def ofString (text : String) : Except FileError Path :=
  if text.isEmpty then .error .missing
  else if limit ≤ text.utf8ByteSize then .error .tooLong
  else .ok {
    fromRoot := text.startsWith "/"
    parts := (text.splitOn "/").filter (!·.isEmpty)
    meansFolder := text.endsWith "/" }

/-- Where the path starts, for a command that runs in a given folder. -/
def start (path : Path) (here : Location) : Location := if path.fromRoot then [] else here

/-- Where the path leads, if there are folders all the way. -/
def place (path : Path) (here : Location) : Location := path.parts.foldl .step (path.start here)

/-- The places along the path, from its start to its end. -/
def places (path : Path) (here : Location) : List Location :=
  (List.range (path.parts.length + 1)).map fun n =>
    (path.parts.take n).foldl .step (path.start here)

end Path

/-- What is found at a place. -/
inductive Item where
  | file (bytes : List UInt8)
  | folder
deriving DecidableEq

/-- A tree of files.  The folders on the way to something in the tree belong to it too. -/
structure Files where
  /-- The folder in which a command runs. -/
  here : Location
  /-- The files, each with its contents. -/
  contents : List (Location × List UInt8) := []
  /-- Folders that exist even if they are empty. -/
  folders : List Location := []

namespace Files

/-- The places that the tree is made of. -/
def places (f : Files) : List Location := f.here :: f.folders ++ f.contents.map Prod.fst

/-- What is found at a place. -/
def item? (f : Files) (place : Location) : Option Item :=
  match f.contents.lookup place with
  | some bytes => some (.file bytes)
  | none => if f.places.any (place.isPrefixOf ·) then some .folder else none

/-- Follows one part of a path out of a place, which has to be a folder. -/
def enter (f : Files) (place : Location) (part : String) : Except FileError Location :=
  match f.item? place with
  | none => .error .missing
  | some (.file _) => .error .notFolder
  | some .folder =>
    if Path.nameLimit < part.utf8ByteSize then .error .tooLong else .ok (place.step part)

/-- Follows a path.  There need not be anything at its end. -/
def locate (f : Files) (path : Path) : Except FileError Location :=
  path.parts.foldlM f.enter (path.start f.here)

/-- The contents of a file. -/
def read (f : Files) (path : String) : Except FileError (List UInt8) := do
  let path ← Path.ofString path
  match f.item? (← f.locate path) with
  | none => .error .missing
  | some .folder => .error .isFolder
  | some (.file bytes) => if path.meansFolder then .error .notFolder else .ok bytes

/-- The names in a folder, in order. -/
def names (f : Files) (path : String) : Except FileError (List String) := do
  let folder ← f.locate (← Path.ofString path)
  match f.item? folder with
  | none => .error .missing
  | some (.file _) => .error .notFolder
  | some .folder =>
    let inside := f.places.filterMap fun place =>
      if folder.isPrefixOf place then (place.drop folder.length).head? else none
    .ok (inside.eraseDups.mergeSort fun a b => !(b < a : Bool))

/-- The tree with a file at a place, instead of an older one if there is one. -/
def put (f : Files) (place : Location) (bytes : List UInt8) : Files :=
  { f with contents := (place, bytes) :: f.contents.filter fun (p, _) => p != place }

/-- The tree after a file has been written.  A path that means a folder is refused as soon as there is
a folder for its last part, whether that is there or not. -/
def write (f : Files) (path : String) (bytes : List UInt8) : Except FileError Files := do
  let path ← Path.ofString path
  if path.meansFolder then
    let _ ← f.locate { path with parts := path.parts.dropLast ++ ["."] }
    .error .isFolder
  else
    let place ← f.locate path
    match f.item? place with
    | some .folder => .error .isFolder
    | _ => .ok (f.put place bytes)

end Files

end GpuWaits
