/-
# Issuing an instruction

An instruction starts a list of effects: events that counters count, and register units that stay
in use until their event completes.  Every event moves the older accesses of its kind one further
away on the counter.
-/
import GpuWaits.Access
import GpuWaits.Context

namespace GpuWaits

/-- What an instruction starts. -/
inductive Effect where
  /-- An event begins, on behalf of an access with the given synchronization. -/
  | issue (event : Event) (sync : Sync)
  /-- A range stays in use until the event completes. -/
  | track (range : RegRange) (event : Event) (blocksReads : Bool) (types : VmemTypeSet)
    (halves : BitVec 32)
  /-- A flat access may have gone to shared memory. -/
  | flat
  /-- The instruction is malformed. -/
  | fail (fault : Fault)

namespace Effect

/-- A range is being written. -/
def write (range : RegRange) (event : Event) : Effect := .track range event true ∅ 0#32

/-- A range is being read. -/
def read (range : RegRange) (event : Event) : Effect := .track range event false ∅ 0#32

/-- The registers of an operand are being read. -/
def readOperand (op : Operand) (event : Event) : List Effect :=
  match op with
  | .reg range => [read range event]
  | .const _ | .undef => []

end Effect

namespace Instruction

/-- The first definition is being written. -/
def writeFirst (i : Instruction) (event : Event) : Effect :=
  match i.definitions[0]? with
  | some range => .write range event
  | none => .fail (.missingDefinition i.opcode 0)

/-- The effects of an export: the data operands of the enabled components and the execution mask
are read until the export completes. -/
def exportEffects (i : Instruction) (data : Export) : List Effect :=
  match Export.eventOf data.dest with
  | .error fault => [.fail fault]
  | .ok event =>
    .issue event {} ::
      ((List.range 4).filter data.enables).flatMap (fun component =>
        match i.operands[data.operandOf component]? with
        | some op => Effect.readOperand op event
        | none => [.fail (.missingExportData (data.operandOf component))])
      ++ [Effect.read .exec event]

/-- The effects of a flat access, which goes to vector memory and to shared memory at once. -/
def flatEffects (i : Instruction) (s : Setting) (access : FlatAccess) : List Effect :=
  let event := i.vmemEvent s (some .plain)
  [.issue event access.sync, .issue .lds access.sync] ++
    match i.definitions with
    | [] => []
    | range :: _ =>
      .track range event true ∅ (i.loadedHalves s) ::
        if access.mayUseLds then
          Effect.write range .lds :: if s.generation < .gfx10 then [.flat] else []
        else []

/-- The effects of an access of shared memory.  The global one keeps reading its operands and the
execution mask. -/
def dsEffects (i : Instruction) (access : DsAccess) : List Effect :=
  if access.gds then
    [.issue .gds access.sync, .issue .gdsGprLock {}]
      ++ i.definitions.map (Effect.write · .gds)
      ++ i.operands.flatMap (Effect.readOperand · .gdsGprLock)
      ++ [Effect.read .exec .gdsGprLock]
  else .issue .lds access.sync :: i.definitions.map (Effect.write · .lds)

/-- The operand that vector memory of generation 6 keeps reading: the data of a store or the
address of an image access. -/
def lockedOperand? (i : Instruction) (s : Setting) : Option Operand :=
  if s.generation = .gfx6 then
    if i.format = .mimg then i.operands[2]?.filter (· != .undef)
    else if i.operands.length = 4 then i.operands[3]? else none
  else none

/-- The effects of a vector memory access. -/
def vmemEffects (i : Instruction) (s : Setting) : List Effect :=
  let type := i.vmemType? s.generation
  let event := i.vmemEvent s type
  let halves := if event = .vmem then i.loadedHalves s else 0#32
  let types : VmemTypeSet := match type with
    | some type => {type}
    | none => ∅
  (.issue event i.sync :: i.definitions.map fun range => .track range event true types halves) ++
    match i.lockedOperand? s with
    | some op => .issue .vmemGprLock {} :: Effect.readOperand op .vmemGprLock
    | none => []

/-- What the instruction starts, in order. -/
def effects (i : Instruction) (s : Setting) : List Effect :=
  match i.payload with
  | .exp data => i.exportEffects data
  | .flat access => if i.format = .flat then i.flatEffects s access else i.vmemEffects s
  | .vmem _ => i.vmemEffects s
  | .smem sync => .issue .smem sync :: (i.definitions.take 1).map (Effect.write · .smem)
  | .ds access => i.dsEffects access
  | .ldsDir sync => [.issue .ldsdir sync, i.writeFirst .ldsdir]
  | .sopp _ =>
    if i.opcode = .sSendmsg ∨ i.opcode = .sSendmsghalt then [.issue .sendmsg {}] else []
  | .salu =>
    if i.opcode = .sSendmsgRtnB32 ∨ i.opcode = .sSendmsgRtnB64 then
      [.issue .sendmsgRtn {}, i.writeFirst .sendmsgRtn]
    else []
  | .valu | .interp _ | .barrier _ | .wait _ | .dependencyWait _ => []

end Instruction

/-- The accesses of an entry once an event has issued: those of the same kind are one further
away. -/
def Entry.age (e : Entry) (g : Generation) (event : Event) : Entry :=
  if e.events.isUnordered then e
  else
    { e with
      wait := .ofFn fun c =>
        if c ∈ g.countersOf {event} ∧ e.events ∩ g.eventsOn c = {event} then
          g.oneMore c (e.wait.get c)
        else e.wait.get c }

namespace Demand

/-- A demand once an event has issued that it does not ask for. -/
def age (d : Demand) (g : Generation) (event : Event) : Demand :=
  if d.events.isUnordered ∨ event ∈ Event.unordered then d
  else
    { d with
      wait := .ofFn fun c =>
        if c ∈ g.countersOf {event} ∧ d.wait.isSet c ∧ d.events ∩ g.eventsOn c = {event} then
          g.oneMore c (d.wait.get c)
        else d.wait.get c }

/-- A demand that asks for an event which has just issued. -/
def extend (d : Demand) (g : Generation) (event : Event) : Demand :=
  { d with
    wait := d.wait.both (.drain (g.countersOf {event}))
    events := d.events ∪ {event} }

end Demand

/-- A memory of barriers once an event has issued, on behalf of some storage classes. -/
def Barrier.record (b : Barrier) (g : Generation) (event : Event) (storage : StorageSet) :
    Barrier where
  demands := .ofFn fun k =>
    let d := b.demand k
    if k ∈ storage then d.extend g event
    else if k ∈ b.storage then d.age g event
    else d
  storage := b.storage ∪ storage
  live := b.live || !storage.isEmpty

namespace Context

/-- Tells the barriers of an event.  A private access is released only where it goes to scratch or
spill memory: those have to be complete before the registers are released.  What an access before
the start of the program acquires is not known. -/
def recordEvent (c : Context) (s : Setting) (event : Event) (sync : Sync)
    (i? : Option Instruction) : Context :=
  let g := s.generation
  let released : StorageSet :=
    if .unshared ∈ sync.semantics then sync.storage ∩ .ofList [.scratch, .vgprSpill]
    else sync.storage
  { c with
    releaseDependency := c.releaseDependency.record g event released
    acquireDependency := match i? with
      | some i => c.acquireDependency.record g event (i.orderedStorage s sync {.acquire})
      | none => c.acquireDependency
    release := c.release.record g event ∅
    acquire := c.acquire.record g event ∅ }

/-- An event issues.  Every entry has some access. -/
def issue (c : Context) (s : Setting) (event : Event) (sync : Sync) (i? : Option Instruction) :
    Except Fault Context :=
  let g := s.generation
  let recorded :=
    { c with nonzero := c.nonzero ∪ g.countersOf {event} }.recordEvent s event sync i?
  if event ∈ Event.unordered then .ok recorded
  else if recorded.regs.toList.any fun (_, e) => e.events.isEmpty then .error .brokenPromise
  else .ok { recorded with regs := recorded.regs.map fun _ e => e.age g event }

/-- The map with one more access of a unit. -/
def trackUnit (m : RegMap) (r : Reg) (e : Entry) : RegMap :=
  m.alter r fun
    | some old => some ((old.join e).addLanes e.laneEvents)
    | none => some e

/-- A range stays in use until an event completes.  The halves are given two bits per unit. -/
def track (c : Context) (g : Generation) (range : RegRange) (event : Event) (blocksReads : Bool)
    (types : VmemTypeSet) (halves : BitVec 32) : Except Fault Context := do
  range.checkFits
  let counters := g.countersOf {event}
  let access :=
    { Entry.ofEvent event counters blocksReads with
      vmemTypes := if Counter.vm ∈ counters then types else ∅ }
  let regs := range.units.zipIdx.foldl
    (fun m (r, j) => trackUnit m r { access with halves := HalfSet.ofWord halves j }) c.regs
  return { c with regs }

/-- One effect of the instruction `i`. -/
def apply (c : Context) (s : Setting) (i : Instruction) : Effect → Except Fault Context
  | .issue event sync => c.issue s event sync (some i)
  | .track range event blocksReads types halves =>
    c.track s.generation range event blocksReads types halves
  | .flat => .ok { c with flatLgkm := true, flatVm := true }
  | .fail fault => .error fault

/-- The context after an instruction has issued. -/
def start (c : Context) (s : Setting) (i : Instruction) : Except Fault Context :=
  (i.effects s).foldlM (fun c effect => c.apply s i effect) c

end Context

end GpuWaits
