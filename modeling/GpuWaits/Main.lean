/-
# The program

Reads the files that a command may look at, runs the command on them, writes what it saved and prints
what it printed.
-/
import GpuWaits.CommandLine

namespace GpuWaits

namespace Main

/-- Adds what is found at a place. -/
def look (place : Location) (f : Files) : IO Files := do
  let path := "/" ++ "/".intercalate place
  if ← ((← IO.currentDir) / path).isDir then return { f with folders := place :: f.folders }
  try
    return f.put place (← IO.FS.readBinFile path).toList
  catch _ =>
    return f

/-- Adds what is found along a path. -/
def lookAlong (path : String) (f : Files) : IO Files :=
  match Path.ofString path with
  | .ok path => (path.places f.here).foldlM (fun f place => look place f) f
  | .error _ => return f

/-- Adds the files of the folder with sample programs. -/
def lookAtSamples (f : Files) : IO Files := do
  let files ← lookAlong Sample.folder f
  let folder := (← IO.currentDir) / Sample.folder
  if ← folder.isDir then
    (← folder.readDir).foldlM (fun f entry => lookAlong s!"{Sample.folder}/{entry.fileName}" f) files
  else return files

/-- The files that a command may look at. -/
def gather (c : Command) : IO Files := do
  let files : Files := { here := (← IO.currentDir).components.filter (!·.isEmpty) }
  let files ← match c.source with
    | .sample _ => lookAtSamples files
    | .text path | .image path => lookAlong path files
  match c.output with
  | some path => lookAlong path files
  | none => return files

end Main

end GpuWaits

open GpuWaits in
/-- Runs the command line. -/
def main (args : List String) : IO UInt32 := do
  let some command := Command.ofArguments? args | return 2
  let files ← Main.gather command
  let effects := command.run files
  if let some path := command.output then
    if let .ok bytes := effects.files.read path then
      if effects.files.contents != files.contents then IO.FS.writeBinFile path ⟨bytes.toArray⟩
  IO.print effects.stdout
  (← IO.getStdout).flush
  return effects.exitCode.toUInt32
