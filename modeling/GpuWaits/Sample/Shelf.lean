/-
# Looking up sample programs

A sample program is found by its name: first among the named ones, and then among the files of the
folder `tests`, where the name of a file without its extension counts.
-/
import GpuWaits.Sample.Named
import GpuWaits.Text.File

namespace GpuWaits

namespace Sample

/-- The name of a file without its extension: up to the last dot, unless nothing stands in front of
that. -/
def stem (file : String) : String :=
  let chars := file.toList
  let front := (chars.reverse.dropWhile (· ≠ '.')).drop 1
  if front.isEmpty then file else String.ofList front.reverse

/-- The folder with sample programs. -/
def folder : String := "tests"

/-- The files of the folder.  Names that end in a tilde belong to backup copies. -/
def filesIn (f : Files) : Except FileError (List String) := do
  return (← f.names folder).filter fun name => !name.endsWith "~"

/-- What looking for a sample program gives. -/
structure Search where
  /-- What is reported along the way. -/
  notices : List String := []
  /-- The program, or else what is said instead: the names of all programs or an error in a file. -/
  result : Except (List String) Program

/-- What is reported when the folder cannot be read. -/
def notice (error : FileError) : String := s!"can't read test directory: {error.message}"

/-- The names of all sample programs. -/
def allNames (files : List String) : List String :=
  (named.map Prod.fst ++ files.map stem).mergeSort fun a b => !(b < a : Bool)

/-- Looks for a sample program.  The folder is read once for its files, and once more for the list of
names. -/
def find (f : Files) (name : String) : Search :=
  match named.lookup name with
  | some program => { result := .ok program }
  | none =>
    match filesIn f with
    | .error error => { notices := [notice error, notice error], result := .error (allNames []) }
    | .ok files =>
      match files.find? fun file => stem file == name with
      | none => { result := .error (allNames files) }
      | some file =>
        match Program.readFile f s!"{folder}/{file}" with
        | .ok program => { result := .ok program }
        | .error error => { result := .error [s!"{name}: {error.message}"] }

end Sample

end GpuWaits
