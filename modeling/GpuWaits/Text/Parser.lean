/-
# The textual format: reading

The format is read line by line.  A line opens a block, adds an instruction to the block that is
open, or, before the first block, says something about the program as a whole.  The first line
that cannot be read is reported with its number.
-/
import GpuWaits.Program
import GpuWaits.Text.Error
import GpuWaits.Text.Number
import GpuWaits.Text.Token

namespace GpuWaits

namespace Reader

/-- The result of reading a part of a line. -/
abbrev Result (α : Type) := Except Misreading α

/-! ### Words -/

/-- A number of 32 bits. -/
def readWord32 (word : String) : Result UInt32 :=
  match Number.read? word with
  | some n => .ok n
  | none => .error (.expectedInteger word)

/-- A number below a limit. -/
def readBelow (limit : Nat) (word : String) : Result Nat := do
  let n ← readWord32 word
  if n.toNat < limit then return n.toNat else throw (.outOfRange n)

/-- A number of 16 bits. -/
def readWord16 (word : String) : Result UInt16 := do return .ofNat (← readBelow UInt16.size word)

/-- A number of 8 bits. -/
def readWord8 (word : String) : Result UInt8 := do return .ofNat (← readBelow UInt8.size word)

/-- The bounds of a range between brackets; a single number bounds itself. -/
def readBounds (inner : List Char) : Result (UInt16 × UInt16) := do
  let first := String.ofList (inner.takeWhile (· ≠ ':'))
  let last := match inner.dropWhile (· ≠ ':') with
    | _ :: last => String.ofList last
    | [] => first
  return (← readWord16 first, ← readWord16 last)

/-- The characters between an opening bracket in front and a closing one at the end. -/
def bracketed? (chars : List Char) : Option (List Char) :=
  match chars with
  | '[' :: inner => if inner.getLast? = some ']' then some inner.dropLast else none
  | _ => none

/-- A register range of at most 32 units within one register file. -/
def readRange (word : String) : Result RegRange := do
  if word = "exec" then return RegRange.exec
  let (isVector, chars) ← match word.toList with
    | 'v' :: chars => pure (true, chars)
    | 's' :: chars => pure (false, chars)
    | _ => throw (.expectedRegister word)
  let (first, last) ← match bracketed? chars with
    | some inner => readBounds inner
    | none => do
      let n ← readWord16 (.ofList chars)
      pure (n, n)
  if last < first ∨ 256 ≤ last ∨ 32 ≤ last - first then throw (.invalidRange word)
  return ⟨if isVector then .vgpr first else .sgpr first, (last - first + 1).toUInt8⟩

/-- What an instruction reads. -/
def readOperand (word : String) : Result Operand :=
  if word = "undef" then .ok .undef
  else match word.toList with
    | '#' :: digits => .const <$> readWord32 (.ofList digits)
    | _ => .reg <$> readRange word

/-- A set of flags, from the list of their names. -/
def readFlags {α : Type} [Flag α] {w : Nat} (names : List String) : Result (Flags α w) :=
  names.foldlM (fun s name => match Flag.ofLabel? name with
    | some a => .ok (s ∪ {a})
    | none => .error (.unknownName name)) ∅

/-- A scope. -/
def readScope (name : String) : Result Scope :=
  match Scope.ofName? name with
  | some scope => .ok scope
  | none => .error (.unknownScope name)

/-! ### Attributes -/

/-- An attribute after the operands: a flag, or a key with the words of its value. -/
structure Attribute where
  key : String
  value? : Option (List String)
deriving DecidableEq

/-- The words of a value in one. -/
def joined (words : List String) : String := ",".intercalate words

/-- Takes the first value of a key out of a list of attributes. -/
def takeValue (key : String) : List Attribute → Option String × List Attribute
  | [] => (none, [])
  | a :: rest => match a.value? with
    | some words =>
      if a.key = key then (some (joined words), rest)
      else ((takeValue key rest).1, a :: (takeValue key rest).2)
    | none => ((takeValue key rest).1, a :: (takeValue key rest).2)

/-- Takes the first flag with a name out of a list of attributes. -/
def takeFlag (flag : String) (attributes : List Attribute) : Bool × List Attribute :=
  (attributes.contains ⟨flag, none⟩, attributes.erase ⟨flag, none⟩)

/-- Takes the synchronization out of a list of attributes; of two values for one key the later
one counts. -/
def takeSync (sync : Sync) : List Attribute → Result (Sync × List Attribute)
  | [] => .ok (sync, [])
  | a :: rest => do
    match a.key, a.value? with
    | "storage", some words => takeSync { sync with storage := ← readFlags words } rest
    | "semantics", some words => takeSync { sync with semantics := ← readFlags words } rest
    | "scope", some words => takeSync { sync with scope := ← readScope (joined words) } rest
    | _, _ =>
      let (sync, rest) ← takeSync sync rest
      return (sync, a :: rest)

/-- The value of a key, read by `read`, or a default. -/
def takeOr {α : Type} (key : String) (default : α) (read : String → Result α)
    (attributes : List Attribute) : Result (α × List Attribute) :=
  match takeValue key attributes with
  | (some value, rest) => do return (← read value, rest)
  | (none, rest) => .ok (default, rest)

/-- The targets of a wait. -/
def readTargets (attributes : List Attribute) : Result Wait :=
  attributes.foldlM (fun w a => match Counter.ofName? a.key, a.value? with
    | some c, some words => do return w.set c (← readWord16 (joined words))
    | _, _ => throw (.unknownCounter a.key)) Wait.none

/-- The targets of a wait for the dependency counters. -/
def readDependencies (attributes : List Attribute) : Result DependencyWait :=
  attributes.foldlM (fun w a => do
    let target ← readWord8 (joined (a.value?.getD []))
    match w.setByName? a.key target with
    | some w => return w
    | none => throw (.invalidDependency a.key)) DependencyWait.none

/-- The payload of an instruction and the attributes that do not belong to it. -/
def readPayload (opcode : Opcode) (attributes : List Attribute) :
    Result (Payload × List Attribute) := do
  match opcode.format with
  | .sop1 | .sop2 => return (.salu, attributes)
  | .valu => return (.valu, attributes)
  | .sopp =>
    match opcode with
    | .sWaitcnt => return (.wait (← readTargets attributes), [])
    | .sWaitcntDepctr => return (.dependencyWait (← readDependencies attributes), [])
    | _ =>
      let (imm, rest) ← takeOr "imm" 0 readWord16 attributes
      return (.sopp imm, rest)
  | .vinterpInreg =>
    let (waitExp, rest) ← takeOr "wait_exp" 7 readWord8 attributes
    return (.interp waitExp, rest)
  | .smem =>
    let (sync, rest) ← takeSync {} attributes
    return (.smem sync, rest)
  | .ldsDir =>
    let (sync, rest) ← takeSync {} attributes
    return (.ldsDir sync, rest)
  | .mubuf | .mtbuf | .mimg =>
    let (sync, rest) ← takeSync {} attributes
    return (.vmem sync, rest)
  | .ds =>
    let (sync, rest) ← takeSync {} attributes
    let (gds, rest) := takeFlag "gds" rest
    let (offset0, rest) ← takeOr "offset0" 0 readWord16 rest
    let (offset1, rest) ← takeOr "offset1" 0 readWord8 rest
    return (.ds { sync, gds, offset0, offset1 }, rest)
  | .flat | .global | .scratch =>
    let (sync, rest) ← takeSync {} attributes
    let (mayUseLds, rest) := takeFlag "lds" rest
    return (.flat { sync, mayUseLds }, rest)
  | .exp =>
    let (value?, rest) := takeValue "dest" attributes
    let dest ← match value? with
      | some value => readWord8 value
      | none => throw .exportWithoutDest
    let (enabled, rest) ← takeOr "en" 0xf readWord8 rest
    let (compressed, rest) := takeFlag "compr" rest
    return (.exp { dest, enabled, compressed }, rest)
  | .pseudoBarrier =>
    let (sync, rest) ← takeSync {} attributes
    let (execScope, rest) ← takeOr "exec_scope" .invocation readScope rest
    return (.barrier { sync, execScope }, rest)

/-! ### Tokens -/

/-- What is left of some tokens after at least one of them was read. -/
abbrev Rest (tokens : List Token) := { rest : List Token // rest.length < tokens.length }

/-- Words divided by commas that directly follow the word before them. -/
def readWords : (tokens : List Token) → Result (List String × Rest tokens)
  | ⟨_, .word w⟩ :: ⟨false, .sign ','⟩ :: tokens => do
    let (words, rest) ← readWords tokens
    return (w :: words, ⟨rest, Nat.lt_succ_of_lt (Nat.lt_succ_of_lt rest.2)⟩)
  | ⟨_, .word w⟩ :: tokens => return ([w], ⟨tokens, Nat.lt_succ_self _⟩)
  | _ => throw .expectedWord

/-- Block numbers divided by commas that directly follow the number before them. -/
def readNumbers : (tokens : List Token) → Result (List UInt32 × Rest tokens)
  | ⟨_, .word w⟩ :: ⟨false, .sign ','⟩ :: tokens => do
    let n ← readWord32 w
    let (numbers, rest) ← readNumbers tokens
    return (n :: numbers, ⟨rest, Nat.lt_succ_of_lt (Nat.lt_succ_of_lt rest.2)⟩)
  | ⟨_, .word w⟩ :: tokens => do return ([← readWord32 w], ⟨tokens, Nat.lt_succ_self _⟩)
  | _ => throw .expectedWord

/-- The definitions in front of an equals sign, of which the first word is given. -/
def readDefinitions (word : String) : List Token → Result (List RegRange × List Token)
  | ⟨_, .sign ','⟩ :: ⟨_, .word next⟩ :: tokens => do
    let range ← readRange word
    let (ranges, tokens) ← readDefinitions next tokens
    return (range :: ranges, tokens)
  | ⟨_, .sign ','⟩ :: _ => do
    let _ ← readRange word
    throw .expectedWord
  | ⟨_, .sign '='⟩ :: tokens => do return ([← readRange word], tokens)
  | _ => do
    let _ ← readRange word
    throw (.expectedSign '=')

/-- Drops a comma. -/
def skipComma : List Token → List Token
  | ⟨_, .sign ','⟩ :: tokens => tokens
  | tokens => tokens

theorem length_skipComma_le (tokens : List Token) : (skipComma tokens).length ≤ tokens.length := by
  unfold skipComma
  split <;> simp

/-- Words that are flags even before the first attribute. -/
def flagWords : List String := ["gds", "lds", "compr"]

/-- The operands and the attributes after an opcode.  From the first attribute on, a lone word is
a flag. -/
def readArguments (operands : List Operand) (attributes : List Attribute) :
    List Token → Result (List Operand × List Attribute)
  | [] => .ok (operands, attributes)
  | ⟨_, .word key⟩ :: ⟨false, .sign '='⟩ :: tokens =>
    match readWords tokens with
    | .error cause => .error cause
    | .ok (words, rest) => readArguments operands (attributes ++ [⟨key, some words⟩]) rest.1
  | ⟨_, .word word⟩ :: tokens =>
    if !attributes.isEmpty || flagWords.contains word then
      readArguments operands (attributes ++ [⟨word, none⟩]) tokens
    else
      match readOperand word with
      | .error cause => .error cause
      | .ok operand => readArguments (operands ++ [operand]) attributes (skipComma tokens)
  | _ => .error .expectedWord
termination_by tokens => tokens.length
decreasing_by
  · have := rest.2
    simp only [List.length_cons]
    omega
  · simp
  · have := length_skipComma_le tokens
    simp only [List.length_cons]
    omega

/-- An instruction, of which the first word is given. -/
def readInstruction (word : String) (tokens : List Token) : Result Instruction := do
  let (definitions, word, tokens) ← match tokens with
    | ⟨_, .sign ','⟩ :: _ | ⟨_, .sign '='⟩ :: _ => do
      match ← readDefinitions word tokens with
      | (definitions, ⟨_, .word opcode⟩ :: tokens) => pure (definitions, opcode, tokens)
      | _ => throw .expectedWord
    | _ => pure ([], word, tokens)
  let some opcode := Opcode.ofMnemonic? word | throw (.unknownOpcode word)
  let (operands, attributes) ← readArguments [] [] tokens
  match ← readPayload opcode attributes with
  | (payload, []) => return { opcode, definitions, operands, payload }
  | (_, a :: _) => throw (.unexpectedAttribute a.key opcode)

/-! ### Lines -/

/-- The configuration with another value for a key. -/
def setKey (c : Config) (key : String) (value : UInt32) : Result Config :=
  match key with
  | "wave" => .ok { c with waveSize := value }
  | "workgroup" => .ok { c with workgroupSize := value }
  | "vgprs" => .ok { c with numVgprs := value }
  | "physical_vgprs" => .ok { c with physicalVgprs := value }
  | "max_waves" => .ok { c with maxWavesPerSimd := value }
  | _ => .error (.unknownConfigKey key)

/-- The entries of a configuration. -/
def readConfigEntries (c : Config) : List Token → Result Config
  | [] => if c.waveSize = 32 ∨ c.waveSize = 64 then .ok c else .error .invalidWaveSize
  | ⟨_, .word "wgp"⟩ :: tokens => readConfigEntries { c with wgpMode := true } tokens
  | ⟨_, .word "sram_ecc"⟩ :: tokens => readConfigEntries { c with sramEcc := true } tokens
  | ⟨_, .word key⟩ :: ⟨_, .sign '='⟩ :: ⟨_, .word value⟩ :: tokens => do
    readConfigEntries (← setKey c key (← readWord32 value)) tokens
  | ⟨_, .word _⟩ :: ⟨_, .sign '='⟩ :: _ => .error .expectedWord
  | ⟨_, .word _⟩ :: _ => .error (.expectedSign '=')
  | _ => .error .expectedWord

/-- A configuration. -/
def readConfig : List Token → Result Config
  | ⟨_, .word name⟩ :: tokens =>
    match Generation.ofName? name with
    | some generation => readConfigEntries { generation } tokens
    | none => .error (.unknownGeneration name)
  | _ => .error .expectedWord

/-- The attributes of a block, up to the colon that ends the line. -/
def readBlockAttributes (b : Block) : List Token → Result Block
  | ⟨_, .sign ':'⟩ :: [] => .ok b
  | ⟨_, .sign ':'⟩ :: _ => .error .trailingInput
  | ⟨_, .word key⟩ :: ⟨_, .sign '='⟩ :: tokens =>
    match key with
    | "kind" => match readWords tokens with
      | .error cause => .error cause
      | .ok (words, rest) => match readFlags words with
        | .error cause => .error cause
        | .ok kind => readBlockAttributes { b with kind } rest.1
    | "preds" => match readNumbers tokens with
      | .error cause => .error cause
      | .ok (linearPreds, rest) => readBlockAttributes { b with linearPreds } rest.1
    | "logical" => match readNumbers tokens with
      | .error cause => .error cause
      | .ok (logicalPreds, rest) => readBlockAttributes { b with logicalPreds } rest.1
    | "depth" => match tokens with
      | ⟨_, .word depth⟩ :: tokens => match readWord32 depth with
        | .error cause => .error cause
        | .ok loopDepth => readBlockAttributes { b with loopDepth } tokens
      | _ => .error .expectedWord
    | _ => .error (.unknownBlockAttribute key)
  | ⟨_, .word _⟩ :: _ => .error (.expectedSign '=')
  | _ => .error .expectedWord
termination_by tokens => tokens.length
decreasing_by
  all_goals
    try have := rest.2
    simp only [List.length_cons] at *
    omega

/-- The line that opens the block with the number `count`. -/
def readBlock (count : Nat) : List Token → Result Block
  | ⟨_, .word number⟩ :: tokens => do
    let index ← readWord32 number
    if index.toNat ≠ count then throw (.wrongBlock count index)
    readBlockAttributes { index } tokens
  | _ => .error .expectedWord

/-- Adds an instruction to the block that is open. -/
def addInstruction (p : Program) (i : Instruction) : Result Program :=
  match p.blocks.getLast? with
  | some b =>
    .ok { p with
      blocks := p.blocks.dropLast ++ [{ b with instructions := b.instructions ++ [i] }] }
  | none => .error .outsideBlock

/-- Adds what a line says to the program read so far. -/
def readLine (p : Program) (tokens : List Token) : Result Program := do
  match tokens with
  | [] => return p
  | ⟨_, .sign _⟩ :: _ => throw .expectedWord
  | ⟨_, .word "block"⟩ :: tokens =>
    return { p with blocks := p.blocks ++ [← readBlock p.blocks.length tokens] }
  | ⟨_, .word word⟩ :: tokens =>
    match word, p.blocks with
    | "config", [] => return { p with config := ← readConfig tokens }
    | "pending_lds", [] =>
      if tokens.isEmpty then return { p with pendingLds := true } else throw .trailingInput
    | "pending_vmem", [] =>
      match tokens with
      | ⟨_, .word range⟩ :: tokens =>
        let range ← readRange range
        if tokens.isEmpty then return { p with pendingVmem := p.pendingVmem ++ [range] }
        else throw .trailingInput
      | _ => throw .expectedWord
    | _, _ => addInstruction p (← readInstruction word tokens)

/-- Adds what the lines from number `line` on say to the program read so far. -/
def readLines (p : Program) (line : Nat) : List (List Char) → Except ParseError Program
  | [] => .ok p
  | chars :: rest =>
    match readLine p (Token.ofLine chars) with
    | .ok p => readLines p (line + 1) rest
    | .error cause => .error { line, cause }

end Reader

/-- The program that a text stands for. -/
def Program.parse (text : String) : Except ParseError Program :=
  Reader.readLines {} 1 (lines text.toList)

end GpuWaits
