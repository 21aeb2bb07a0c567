/-
# The command line

A command names a program (a sample, a file in the textual format or an image), and may save it as an
image.  The program is shown, gets its waits, and is shown again.
-/
import GpuWaits.Image
import GpuWaits.Insertion
import GpuWaits.Sample.Shelf
import GpuWaits.Text.Printer

namespace GpuWaits

/-- Where the program of a command comes from. -/
inductive Source where
  | sample (name : String)
  | text (path : String)
  | image (path : String)
deriving DecidableEq

/-- A command. -/
structure Command where
  source : Source
  /-- Where the program is saved as an image. -/
  output : Option String := none
  options : Options := {}

namespace Command

/-- The arguments that have been read so far. -/
structure Arguments where
  source : Option Source := none
  output : Option String := none
  options : Options := {}

/-- The argument can be the value of an option.  A single dash can. -/
def isValue (arg : String) : Bool := arg == "-" || !arg.startsWith "-"

/-- The value that stands in one argument with its option, maybe behind an equals sign. -/
def attachedValue : List Char → String
  | '=' :: value => String.ofList value
  | value => String.ofList value

/-- Takes in an option with its value.  There is one source, and nothing is given twice. -/
def Arguments.add (a : Arguments) (letter : Char) (value : String) : Option Arguments :=
  let source (s : Source) := if a.source.isSome then none else some { a with source := some s }
  match letter with
  | 't' => source (.sample value)
  | 'f' => source (.text value)
  | 'b' => source (.image value)
  | 'o' => if a.output.isSome then none else some { a with output := some value }
  | _ => none

/-- Reads the arguments.  Nothing comes out if they are wrong. -/
def readArguments : List String → Arguments → Option Arguments
  | [], a => some a
  | arg :: rest, a =>
    if arg = "--" then if rest.isEmpty then some a else none
    else if arg = "--force-waitcnt" then
      if a.options.drainAll then none
      else readArguments rest { a with options := { a.options with drainAll := true } }
    else if arg = "--check" then
      if a.options.check then none
      else readArguments rest { a with options := { a.options with check := true } }
    else match arg.toList with
      | ['-', letter] =>
        match rest with
        | value :: rest =>
          if isValue value then do readArguments rest (← a.add letter value) else none
        | [] => none
      | '-' :: letter :: attached =>
        if letter = '-' then none else do readArguments rest (← a.add letter (attachedValue attached))
      | _ => none

/-- The command that some arguments stand for. -/
def ofArguments? (args : List String) : Option Command := do
  let a ← readArguments args {}
  return { source := ← a.source, output := a.output, options := a.options }

/-- What a command does. -/
structure Effects where
  exitCode : UInt8 := 0
  /-- What is printed. -/
  stdout : String := ""
  /-- The files afterwards. -/
  files : Files

/-- Some lines of text. -/
def lines (ls : List String) : String := .join (ls.map (· ++ "\n"))

/-- The program of a command, or what is printed instead, with what is printed along the way. -/
def load (c : Command) (f : Files) : String × Except String Program :=
  match c.source with
  | .sample name =>
    let search := Sample.find f name
    (lines search.notices,
      search.result.mapError fun names =>
        lines ("available program names are:" :: names.map ("     " ++ ·)))
  | .text path =>
    ("", (Program.readFile f path).mapError fun error =>
      lines [s!"{path}: {error.message}"])
  | .image path =>
    ("", match f.read path with
      -- A folder can be opened, but there is no image in it.
      | .error .isFolder => .error (lines [Image.Error.malformed.message path])
      | .error error => .error (lines [s!"can't open {path}: {error.message}"])
      | .ok bytes => (Image.load bytes).mapError fun error => lines [error.message path])

/-- A program under a title. -/
def titled (title : String) (p : Program) : Printout := s!"\n=== {title} ===\n" ++ p.printout

/-- What is printed about inserting waits into a program. -/
def report (p : Program) (o : Options) : Printout :=
  titled "before insert_waitcnt" p ++
    match p.insertValidated o with
    | .error (.fault fault) => .ofExcept (.error fault)
    | .error (.defect defect) => lines [s!"insert_waitcnt failed: {defect.message}"]
    | .ok outcome =>
      match outcome.failure? with
      | some failure => lines [s!"insert_waitcnt failed: {failure}"]
      | none =>
        titled "after insert_waitcnt" outcome.program
          ++ lines ["", s!"{outcome.inserted} waits inserted, {outcome.visits} block visits"]

/-- Saves a program, if the command asks for it. -/
def save (c : Command) (f : Files) (p : Program) : Except String Files :=
  match c.output with
  | none => .ok f
  | some path =>
    (f.write path (Image.save p)).mapError fun error =>
      lines [s!"can't create {path}: {error.message}"]

/-- Runs a command.  A fault ends it with exit code 101, after what has been printed. -/
def run (c : Command) (f : Files) : Effects :=
  let (notices, loaded) := c.load f
  match loaded with
  | .error text => { stdout := notices ++ text, files := f }
  | .ok p =>
    match c.save f p with
    | .error text => { stdout := notices ++ text, files := f }
    | .ok saved =>
      let printed := report p c.options
      { exitCode := if printed.fault?.isSome then 101 else 0
        stdout := notices ++ printed.text
        files := saved }

end Command

/-- Runs the command that some arguments stand for.  Wrong arguments end with exit code 2. -/
def runArguments (args : List String) (f : Files) : Command.Effects :=
  match Command.ofArguments? args with
  | some command => command.run f
  | none => { exitCode := 2, files := f }

end GpuWaits
