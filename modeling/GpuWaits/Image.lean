/-
# Binary images

A program is saved as an image: a version number, and the program field by field.  Numbers stand in
words of fixed size with the lowest byte first, a choice is a word that numbers the alternatives,
and a list starts with its length.
-/
import GpuWaits.Image.Codec
import GpuWaits.Program

namespace GpuWaits

namespace Codec

/-- A hardware generation. -/
def generation : Codec Generation := oneOf Generation.all

/-- An opcode. -/
def opcode : Codec Opcode := oneOf Opcode.all

/-- A scope. -/
def scope : Codec Scope := oneOf Scope.all

/-- The synchronization of an access. -/
def sync : Codec Sync :=
  (flags16.pair (flags8.pair scope)).map (fun (storage, semantics, scope) =>
    { storage, semantics, scope }) fun s => (s.storage, s.semantics, s.scope)

/-- A range of registers. -/
def range : Codec RegRange :=
  (word16.pair byte).map (fun (unit, size) => ⟨⟨unit⟩, size⟩) fun r => (r.first.unit, r.size)

/-- An access of shared memory. -/
def dsAccess : Codec DsAccess :=
  (sync.pair (bool.pair (word16.pair byte))).map
    (fun (sync, gds, offset0, offset1) => { sync, gds, offset0, offset1 })
    fun a => (a.sync, a.gds, a.offset0, a.offset1)

/-- An export. -/
def exportData : Codec Export :=
  (byte.pair (byte.pair bool)).map (fun (dest, enabled, compressed) => { dest, enabled, compressed })
    fun e => (e.dest, e.enabled, e.compressed)

/-- A flat access. -/
def flatAccess : Codec FlatAccess :=
  (sync.pair bool).map (fun (sync, mayUseLds) => { sync, mayUseLds }) fun a => (a.sync, a.mayUseLds)

/-- A barrier that the program asks for. -/
def barrierRequest : Codec BarrierRequest :=
  (sync.pair scope).map (fun (sync, execScope) => { sync, execScope })
    fun b => (b.sync, b.execScope)

/-- A wait for the counters. -/
def wait : Codec Wait :=
  (word16.pair (word16.pair (word16.pair (word16.pair (word16.pair (word16.pair word16)))))).map
    (fun (exp, lgkm, vm, vs, sample, bvh, km) => { exp, lgkm, vm, vs, sample, bvh, km })
    fun w => (w.exp, w.lgkm, w.vm, w.vs, w.sample, w.bvh, w.km)

/-- A wait for the dependency counters. -/
def dependencyWait : Codec DependencyWait :=
  (byte.pair (byte.pair (byte.pair (byte.pair (byte.pair (byte.pair byte)))))).map
    (fun (vaVdst, vaSdst, vaSsrc, holdCnt, vmVsrc, vaVcc, saSdst) =>
      { vaVdst, vaSdst, vaSsrc, holdCnt, vmVsrc, vaVcc, saSdst })
    fun w => (w.vaVdst, w.vaSdst, w.vaSsrc, w.holdCnt, w.vmVsrc, w.vaVcc, w.saSdst)

/-- The number of an alternative. -/
def tag : Codec Nat := littleEndian 4

/-- The payload of an instruction. -/
def payload : Codec Payload where
  encode
    | .salu => tag.encode 0
    | .sopp imm => tag.encode 1 ++ word16.encode imm
    | .valu => tag.encode 2
    | .interp waitExp => tag.encode 3 ++ byte.encode waitExp
    | .smem s => tag.encode 4 ++ sync.encode s
    | .ds access => tag.encode 5 ++ dsAccess.encode access
    | .ldsDir s => tag.encode 6 ++ sync.encode s
    | .exp data => tag.encode 7 ++ exportData.encode data
    | .flat access => tag.encode 8 ++ flatAccess.encode access
    | .vmem s => tag.encode 9 ++ sync.encode s
    | .barrier request => tag.encode 10 ++ barrierRequest.encode request
    | .wait w => tag.encode 11 ++ wait.encode w
    | .dependencyWait w => tag.encode 12 ++ dependencyWait.encode w
  decode bytes := do
    let (n, rest) ← tag.decode bytes
    match n with
    | 0 => some (.salu, rest)
    | 1 => (word16.decode rest).map fun (imm, rest) => (.sopp imm, rest)
    | 2 => some (.valu, rest)
    | 3 => (byte.decode rest).map fun (waitExp, rest) => (.interp waitExp, rest)
    | 4 => (sync.decode rest).map fun (s, rest) => (.smem s, rest)
    | 5 => (dsAccess.decode rest).map fun (access, rest) => (.ds access, rest)
    | 6 => (sync.decode rest).map fun (s, rest) => (.ldsDir s, rest)
    | 7 => (exportData.decode rest).map fun (data, rest) => (.exp data, rest)
    | 8 => (flatAccess.decode rest).map fun (access, rest) => (.flat access, rest)
    | 9 => (sync.decode rest).map fun (s, rest) => (.vmem s, rest)
    | 10 => (barrierRequest.decode rest).map fun (request, rest) => (.barrier request, rest)
    | 11 => (wait.decode rest).map fun (w, rest) => (.wait w, rest)
    | 12 => (dependencyWait.decode rest).map fun (w, rest) => (.dependencyWait w, rest)
    | _ => none

/-- What an instruction reads. -/
def operand : Codec Operand where
  encode
    | .reg r => tag.encode 0 ++ range.encode r
    | .const value => tag.encode 1 ++ word32.encode value
    | .undef => tag.encode 2
  decode bytes := do
    let (n, rest) ← tag.decode bytes
    match n with
    | 0 => (range.decode rest).map fun (r, rest) => (.reg r, rest)
    | 1 => (word32.decode rest).map fun (value, rest) => (.const value, rest)
    | 2 => some (.undef, rest)
    | _ => none

/-- An instruction. -/
def instruction : Codec Instruction :=
  (opcode.pair ((list range).pair ((list operand).pair payload))).map
    (fun (opcode, definitions, operands, payload) => { opcode, definitions, operands, payload })
    fun i => (i.opcode, i.definitions, i.operands, i.payload)

/-- A block. -/
def block : Codec Block :=
  (word32.pair (flags16.pair ((list word32).pair ((list word32).pair
    (word32.pair (list instruction)))))).map
    (fun (index, kind, linearPreds, logicalPreds, loopDepth, instructions) =>
      { index, kind, linearPreds, logicalPreds, loopDepth, instructions })
    fun b => (b.index, b.kind, b.linearPreds, b.logicalPreds, b.loopDepth, b.instructions)

/-- A configuration. -/
def config : Codec Config :=
  (generation.pair (word32.pair (word32.pair (bool.pair (bool.pair (word32.pair
    (word32.pair word32))))))).map
    (fun (generation, waveSize, workgroupSize, wgpMode, sramEcc, physicalVgprs, maxWavesPerSimd,
        numVgprs) =>
      { generation, waveSize, workgroupSize, wgpMode, sramEcc, physicalVgprs, maxWavesPerSimd,
        numVgprs })
    fun c => (c.generation, c.waveSize, c.workgroupSize, c.wgpMode, c.sramEcc, c.physicalVgprs,
      c.maxWavesPerSimd, c.numVgprs)

/-- A program. -/
def program : Codec Program :=
  (config.pair ((list block).pair (bool.pair (list range)))).map
    (fun (config, blocks, pendingLds, pendingVmem) => { config, blocks, pendingLds, pendingVmem })
    fun p => (p.config, p.blocks, p.pendingLds, p.pendingVmem)

/-- An image: the version and the program. -/
def image : Codec (UInt32 × Program) := word32.pair program

end Codec

namespace Image

/-- The version of the images that are written, and the only one that is read. -/
def version : UInt32 := 1

/-- Why an image cannot be loaded. -/
inductive Error where
  /-- The bytes do not start with an image. -/
  | malformed
  /-- The image is of another version. -/
  | otherVersion (version : UInt32)
deriving DecidableEq

/-- The text of an error, for an image that was read from `path`. -/
def Error.message (path : String) : Error → String
  | .malformed => s!"can't decode {path}"
  | .otherVersion version => s!"{path}: unsupported image version {version.toNat}"

/-- The image of a program. -/
def save (p : Program) : List UInt8 := Codec.image.encode (version, p)

/-- The program of an image.  Bytes behind the image are ignored. -/
def load (bytes : List UInt8) : Except Error Program :=
  match Codec.image.decode bytes with
  | none => .error .malformed
  | some ((found, program), _) =>
    if found = version then .ok program else .error (.otherVersion found)

end Image

end GpuWaits
