/-
# The textual format: files
-/
import GpuWaits.Files
import GpuWaits.Text.Parser

namespace GpuWaits

/-- Why a file does not hold a program. -/
inductive TextFileError where
  | file (error : FileError)
  /-- The bytes are no text. -/
  | notText
  | parse (error : ParseError)
deriving DecidableEq

/-- The text of an error. -/
def TextFileError.message : TextFileError → String
  | .file error => s!"i/o error: {error.message}"
  | .notText => "i/o error: stream did not contain valid UTF-8"
  | .parse error => error.message

/-- The program in a file. -/
def Program.readFile (f : Files) (path : String) : Except TextFileError Program :=
  match f.read path with
  | .error error => .error (.file error)
  | .ok bytes =>
    match String.fromUTF8? ⟨bytes.toArray⟩ with
    | none => .error .notText
    | some text =>
      match Program.parse text with
      | .ok program => .ok program
      | .error error => .error (.parse error)

end GpuWaits
