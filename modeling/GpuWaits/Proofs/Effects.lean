/-
# Two descriptions of what an instruction starts

The analysis and the checker each have a description of what an instruction starts: `effects` and
`started`.  They were written apart.  This file shows that they agree: both raise the same events in the
same order (`Instruction.issues_effects`), and the analysis registers the units that the checker follows,
for the same events (`Instruction.registers_effects`).  There is one difference: a scalar load, a flat
access and a message that returns a value may write several ranges, and the analysis registers the first
of them.

An instruction raises its events before it registers units for them (`Instruction.raisedFirst_effects`).
So the analysis takes no access for older than it is (`Instruction.Regular.tracks`).
-/
import GpuWaits.Proofs.Regular

namespace GpuWaits

namespace Effect

/-! ### Raised events -/

/-- The events that some effects raise, in order. -/
def issues (effects : List Effect) : List Event :=
  effects.filterMap fun
    | .issue ev _ => some ev
    | _ => none

@[simp] lemma issues_nil : issues [] = [] := rfl

@[simp] lemma issues_issue (ev : Event) (sync : Sync) (rest : List Effect) :
    issues (.issue ev sync :: rest) = ev :: issues rest := rfl

@[simp] lemma issues_fail (fault : Fault) (rest : List Effect) :
    issues (.fail fault :: rest) = issues rest := rfl

@[simp] lemma issues_read (range : RegRange) (ev : Event) (rest : List Effect) :
    issues (read range ev :: rest) = issues rest := rfl

@[simp] lemma issues_append (l l' : List Effect) : issues (l ++ l') = issues l ++ issues l' :=
  List.filterMap_append

lemma mem_issues {ev : Event} {l : List Effect} : ev ∈ issues l ↔ ∃ sync, .issue ev sync ∈ l := by
  simp only [issues, List.mem_filterMap]
  constructor
  · rintro ⟨e, he, hev⟩
    cases e with
    | issue ev' sync =>
      cases hev
      exact ⟨sync, he⟩
    | track | flat | fail => cases hev
  · rintro ⟨sync, h⟩
    exact ⟨_, h, rfl⟩

@[simp] lemma issues_readOperand (op : Operand) (ev : Event) : issues (readOperand op ev) = [] := by
  cases op <;> rfl

lemma issues_map {α : Type} {f : α → Effect} (hf : ∀ a, issues [f a] = []) (l : List α) :
    issues (l.map f) = [] := by
  induction l with
  | nil => rfl
  | cons a l ih =>
    rw [List.map_cons, ← List.singleton_append, issues_append, hf, ih]
    rfl

@[simp] lemma issues_map_write (l : List RegRange) (ev : Event) :
    issues (l.map (write · ev)) = [] := issues_map (fun _ => rfl) l

lemma issues_flatMap {α : Type} {f : α → List Effect} (hf : ∀ a, issues (f a) = []) (l : List α) :
    issues (l.flatMap f) = [] := by
  induction l with
  | nil => rfl
  | cons a l ih =>
    rw [List.flatMap_cons, issues_append, hf, ih]
    rfl

/-! ### Registered units -/

/-- Some effect registers the unit `u` for the event `ev`. -/
def Registers (u : Reg) (ev : Event) (blocksReads : Bool) (effects : List Effect) : Prop :=
  ∃ range types halves, .track range ev blocksReads types halves ∈ effects ∧ u ∈ range.units

variable {u : Reg} {ev : Event} {blocksReads : Bool}

@[simp] lemma not_registers_nil : ¬Registers u ev blocksReads [] := by
  rintro ⟨_, _, _, h, -⟩
  cases h

@[simp] lemma registers_append {l l' : List Effect} : Registers u ev blocksReads (l ++ l') ↔
    Registers u ev blocksReads l ∨ Registers u ev blocksReads l' := by
  simp only [Registers, List.mem_append, or_and_right, exists_or]

@[simp] lemma registers_issue {ev' : Event} {sync : Sync} {l : List Effect} :
    Registers u ev blocksReads (.issue ev' sync :: l) ↔ Registers u ev blocksReads l := by
  simp [Registers]

@[simp] lemma registers_flat {l : List Effect} :
    Registers u ev blocksReads (.flat :: l) ↔ Registers u ev blocksReads l := by
  simp [Registers]

@[simp] lemma registers_fail {fault : Fault} {l : List Effect} :
    Registers u ev blocksReads (.fail fault :: l) ↔ Registers u ev blocksReads l := by
  simp [Registers]

@[simp] lemma registers_track {range : RegRange} {ev' : Event} {blocksReads' : Bool}
    {types : VmemTypeSet} {halves : BitVec 32} {l : List Effect} :
    Registers u ev blocksReads (.track range ev' blocksReads' types halves :: l) ↔
      (u ∈ range.units ∧ ev' = ev ∧ blocksReads' = blocksReads) ∨
        Registers u ev blocksReads l := by
  constructor
  · rintro ⟨r, t, h, hmem, hu⟩
    rcases List.mem_cons.1 hmem with heq | hmem
    · cases heq
      exact .inl ⟨hu, rfl, rfl⟩
    · exact .inr ⟨r, t, h, hmem, hu⟩
  · rintro (⟨hu, rfl, rfl⟩ | ⟨r, t, h, hmem, hu⟩)
    · exact ⟨range, types, halves, by simp, hu⟩
    · exact ⟨r, t, h, by simp [hmem], hu⟩

@[simp] lemma registers_write {range : RegRange} {ev' : Event} {l : List Effect} :
    Registers u ev blocksReads (write range ev' :: l) ↔
      (u ∈ range.units ∧ ev' = ev ∧ blocksReads = true) ∨ Registers u ev blocksReads l := by
  rw [write, registers_track, eq_comm (a := true)]

@[simp] lemma registers_read {range : RegRange} {ev' : Event} {l : List Effect} :
    Registers u ev blocksReads (read range ev' :: l) ↔
      (u ∈ range.units ∧ ev' = ev ∧ blocksReads = false) ∨ Registers u ev blocksReads l := by
  rw [read, registers_track, eq_comm (a := false)]

lemma registers_flatMap {α : Type} {f : α → List Effect} {l : List α} :
    Registers u ev blocksReads (l.flatMap f) ↔ ∃ a ∈ l, Registers u ev blocksReads (f a) := by
  induction l with
  | nil => simp
  | cons a l ih => simp [ih]

@[simp] lemma registers_map_track {l : List RegRange} {ev' : Event} {types : VmemTypeSet}
    {halves : BitVec 32} :
    Registers u ev blocksReads (l.map fun range => .track range ev' true types halves) ↔
      (∃ d ∈ l, u ∈ d.units) ∧ ev' = ev ∧ blocksReads = true := by
  induction l with
  | nil => simp
  | cons d l ih =>
    rw [List.map_cons, registers_track, ih]
    simp only [List.mem_cons, exists_eq_or_imp, eq_comm (a := true)]
    tauto

@[simp] lemma registers_map_write {l : List RegRange} {ev' : Event} :
    Registers u ev blocksReads (l.map (write · ev')) ↔
      (∃ d ∈ l, u ∈ d.units) ∧ ev' = ev ∧ blocksReads = true := registers_map_track

@[simp] lemma registers_readOperand {op : Operand} {ev' : Event} :
    Registers u ev blocksReads (readOperand op ev') ↔
      u ∈ op.range.units ∧ ev' = ev ∧ blocksReads = false := by
  cases op with
  | reg range => simp [readOperand, Operand.range]
  | const _ | undef =>
    simp only [readOperand, Operand.range, not_registers_nil, false_iff]
    rintro ⟨hu, -⟩
    cases hu

lemma registers_readOperands {ops : List Operand} {ev' : Event} :
    Registers u ev blocksReads (ops.flatMap (readOperand · ev')) ↔
      (∃ op ∈ ops, u ∈ op.range.units) ∧ ev' = ev ∧ blocksReads = false := by
  simp only [registers_flatMap, registers_readOperand, ← and_assoc, exists_and_right]

/-! ### The order of effects -/

/-- No event is raised behind an effect that registers units for it. -/
def RaisedFirst : List Effect → Prop
  | [] => True
  | .track _ ev _ _ _ :: rest => ev ∉ issues rest ∧ RaisedFirst rest
  | .issue _ _ :: rest | .flat :: rest | .fail _ :: rest => RaisedFirst rest

/-- Some effect tracks the unit `u` for the event `ev`, and no later one raises the event. -/
def Tracks (u : Reg) (ev : Event) (blocksReads : Bool) : List Effect → Prop
  | [] => False
  | .track range ev' blocksReads' _ _ :: rest =>
    (u ∈ range.units ∧ ev' = ev ∧ blocksReads' = blocksReads ∧ ev ∉ issues rest)
      ∨ Tracks u ev blocksReads rest
  | .issue _ _ :: rest | .flat :: rest | .fail _ :: rest => Tracks u ev blocksReads rest

lemma Tracks.append_left {l' : List Effect} (h : Tracks u ev blocksReads l') (l : List Effect) :
    Tracks u ev blocksReads (l ++ l') := by
  induction l with
  | nil => exact h
  | cons e l ih =>
    cases e with
    | track => exact .inr ih
    | issue => exact ih
    | flat => exact ih
    | fail => exact ih

lemma tracks_cons {range : RegRange} (hu : u ∈ range.units) (types : VmemTypeSet)
    (halves : BitVec 32) {rest : List Effect} (hno : ev ∉ issues rest) :
    Tracks u ev blocksReads (.track range ev blocksReads types halves :: rest) :=
  .inl ⟨hu, rfl, rfl, hno⟩

@[simp] lemma raisedFirst_issue {sync : Sync} {l : List Effect} :
    RaisedFirst (.issue ev sync :: l) ↔ RaisedFirst l := Iff.rfl

lemma raisedFirst_of_issues {l : List Effect} (h : issues l = []) : RaisedFirst l := by
  induction l with
  | nil => trivial
  | cons e l ih =>
    cases e with
    | track =>
      have hl : issues l = [] := h
      exact ⟨by simp [hl], ih hl⟩
    | issue => cases h
    | flat | fail => exact ih h

lemma RaisedFirst.append {l l' : List Effect} (h : RaisedFirst l) (h' : RaisedFirst l')
    (hno : ∀ range ev blocksReads types halves, .track range ev blocksReads types halves ∈ l →
      ev ∉ issues l') : RaisedFirst (l ++ l') := by
  induction l with
  | nil => exact h'
  | cons e l ih =>
    have hrest := fun range ev blocksReads types halves hmem =>
      hno range ev blocksReads types halves (List.mem_cons_of_mem e hmem)
    cases e with
    | track range ev blocksReads types halves =>
      refine ⟨fun hmem => ?_, ih h.2 hrest⟩
      rcases List.mem_append.1 (issues_append l l' ▸ hmem) with hmem | hmem
      · exact h.1 hmem
      · exact hno range ev blocksReads types halves List.mem_cons_self hmem
    | issue | flat | fail => exact ih h hrest

lemma RaisedFirst.notMem_issues {range : RegRange} {types : VmemTypeSet} {halves : BitVec 32}
    {before behind : List Effect}
    (h : RaisedFirst (before ++ .track range ev blocksReads types halves :: behind)) :
    ev ∉ issues behind := by
  induction before with
  | nil => exact h.1
  | cons e before ih =>
    cases e with
    | track => exact ih h.2
    | issue | flat | fail => exact ih h

lemma RaisedFirst.tracks {l : List Effect} (h : RaisedFirst l) (hr : Registers u ev blocksReads l) :
    Tracks u ev blocksReads l := by
  obtain ⟨range, types, halves, hmem, hu⟩ := hr
  obtain ⟨before, behind, rfl⟩ := List.append_of_mem hmem
  exact (tracks_cons hu types halves h.notMem_issues).append_left before

end Effect

/-! ### Followed units -/

namespace Instruction

variable {i : Instruction}

lemma mem_writesStarted {ev : Event} {a : StartedAccess} (h : a ∈ i.writesStarted ev) :
    a.range ∈ i.definitions ∧ a.event = ev ∧ a.write = true := by
  obtain ⟨d, hd, rfl⟩ := List.mem_map.1 h
  exact ⟨hd, rfl, rfl⟩

lemma mem_readsStarted {ops : List Operand} {ev : Event} {a : StartedAccess}
    (h : a ∈ readsStarted ops ev) : ∃ op ∈ ops, a = ⟨op.range, ev, false⟩ := by
  obtain ⟨op, hop, rfl⟩ := List.mem_map.1 h
  exact ⟨op, hop, rfl⟩

end Instruction

/-- Some access keeps the unit `u` in use until the event `ev` completes. -/
def StartedAccess.Uses (u : Reg) (ev : Event) (write : Bool) (accesses : List StartedAccess) : Prop :=
  ∃ a ∈ accesses, u ∈ a.range.units ∧ a.event = ev ∧ a.write = write

namespace StartedAccess

variable {u : Reg} {ev ev' : Event} {write : Bool}

@[simp] lemma not_uses_nil : ¬Uses u ev write [] := by
  rintro ⟨_, h, -⟩
  cases h

@[simp] lemma uses_append {l l' : List StartedAccess} :
    Uses u ev write (l ++ l') ↔ Uses u ev write l ∨ Uses u ev write l' := by
  simp only [Uses, List.mem_append, or_and_right, exists_or]

@[simp] lemma uses_singleton {range : RegRange} {write' : Bool} :
    Uses u ev write [⟨range, ev', write'⟩] ↔ u ∈ range.units ∧ ev' = ev ∧ write' = write := by
  simp [Uses]

@[simp] lemma uses_writesStarted {i : Instruction} :
    Uses u ev write (i.writesStarted ev') ↔
      (∃ d ∈ i.definitions, u ∈ d.units) ∧ ev' = ev ∧ write = true := by
  constructor
  · rintro ⟨a, ha, hu, rfl, rfl⟩
    obtain ⟨hd, hev, hw⟩ := Instruction.mem_writesStarted ha
    exact ⟨⟨a.range, hd, hu⟩, hev.symm, hw⟩
  · rintro ⟨⟨d, hd, hu⟩, rfl, rfl⟩
    exact ⟨⟨d, ev', true⟩, List.mem_map.2 ⟨d, hd, rfl⟩, hu, rfl, rfl⟩

@[simp] lemma uses_readsStarted {ops : List Operand} :
    Uses u ev write (Instruction.readsStarted ops ev') ↔
      (∃ op ∈ ops, u ∈ op.range.units) ∧ ev' = ev ∧ write = false := by
  constructor
  · rintro ⟨a, ha, hu, rfl, rfl⟩
    obtain ⟨op, hop, rfl⟩ := Instruction.mem_readsStarted ha
    exact ⟨⟨op, hop, hu⟩, rfl, rfl⟩
  · rintro ⟨⟨op, hop, hu⟩, rfl, rfl⟩
    exact ⟨⟨op.range, ev', false⟩, List.mem_map.2 ⟨op, hop, rfl⟩, hu, rfl, rfl⟩

end StartedAccess

/-! ### The events of an instruction -/

namespace Instruction

open Effect StartedAccess

variable {i : Instruction} {s : Setting} {u : Reg} {ev : Event} {w : Bool}

lemma lockedOperand?_eq (i : Instruction) (s : Setting) :
    (if s.generation = .gfx6 then
      match i.format with
      | .mimg => i.operands[2]?.filter (· != .undef)
      | _ => if i.operands.length = 4 then i.operands[3]? else none
    else none) = i.lockedOperand? s := by
  rw [lockedOperand?]
  split
  · cases i.format <;> rfl
  · rfl

lemma vmemStarted_eq (i : Instruction) (s : Setting) :
    i.vmemStarted s = match i.lockedOperand? s with
      | some op => ⟨[i.vmemEvent s (i.vmemType? s.generation), .vmemGprLock],
          i.writesStarted (i.vmemEvent s (i.vmemType? s.generation))
            ++ readsStarted [op] .vmemGprLock⟩
      | none => ⟨[i.vmemEvent s (i.vmemType? s.generation)],
          i.writesStarted (i.vmemEvent s (i.vmemType? s.generation))⟩ := by
  rw [← lockedOperand?_eq]
  rfl

lemma issues_vmemEffects (i : Instruction) (s : Setting) :
    issues (i.vmemEffects s) = (i.vmemStarted s).events := by
  rw [vmemStarted_eq, vmemEffects, issues_append, issues_issue, issues_map fun _ => rfl]
  cases i.lockedOperand? s <;> simp

lemma issues_exportEffects {data : Export} (h : Export.eventOf data.dest = .ok ev) :
    issues (i.exportEffects data) = [ev] := by
  rw [exportEffects, h]
  dsimp only
  rw [List.cons_append, issues_issue, issues_append, issues_read, issues_flatMap]
  · rfl
  · intro n
    split <;> simp

lemma issues_flatEffects (i : Instruction) (s : Setting) (access : FlatAccess) :
    issues (i.flatEffects s access) = [i.vmemEvent s (some .plain), .lds] := by
  rw [flatEffects, List.cons_append, List.cons_append, List.nil_append, issues_issue, issues_issue]
  cases i.definitions with
  | nil => rfl
  | cons d rest => split_ifs <;> rfl

lemma issues_dsEffects (i : Instruction) (access : DsAccess) :
    issues (i.dsEffects access) = if access.gds then [.gds, .gdsGprLock] else [.lds] := by
  rw [dsEffects]
  split
  · simp only [issues_append, issues_issue, issues_nil, issues_read, issues_map_write,
      issues_flatMap (issues_readOperand · _)]
    rfl
  · simp only [issues_issue, issues_map_write]

@[simp] lemma issues_writeFirst (i : Instruction) (ev : Event) : issues [i.writeFirst ev] = [] := by
  rw [writeFirst]
  split <;> rfl

/-- The analysis and the checker see the same events. -/
theorem issues_effects {st : Started} (h : i.started s = .ok st) :
    issues (i.effects s) = st.events := by
  cases hp : i.payload with
  | exp data =>
    simp only [started, hp, bind_eq_ok, pure_eq_ok] at h
    obtain ⟨ev, hev, rfl⟩ := h
    simp only [effects, hp, issues_exportEffects hev]
  | flat access =>
    simp only [started, hp] at h
    simp only [effects, hp]
    split at h
    all_goals
      rename_i hf
      cases h
      simp only [hf, if_true, if_false, issues_flatEffects, issues_vmemEffects]
  | vmem sync =>
    simp only [started, hp] at h
    cases h
    simp only [effects, hp, issues_vmemEffects]
  | smem sync =>
    simp only [started, hp] at h
    cases h
    simp only [effects, hp, issues_issue, issues_map_write]
  | ds access =>
    simp only [started, hp] at h
    simp only [effects, hp, issues_dsEffects]
    split at h
    all_goals
      rename_i hg
      cases h
      simp [hg]
  | ldsDir sync =>
    simp only [started, hp] at h
    cases h
    simp only [effects, hp, issues_issue, issues_writeFirst]
  | sopp imm =>
    simp only [started, hp] at h
    simp only [effects, hp]
    split at h
    all_goals
      rename_i ho
      cases h
      simp [ho]
  | salu =>
    simp only [started, hp] at h
    simp only [effects, hp]
    split at h
    all_goals
      rename_i ho
      cases h
      simp [ho]
  | valu | interp _ | barrier _ | wait _ | dependencyWait _ =>
    simp only [started, hp] at h
    cases h
    simp only [effects, hp, issues_nil]

/-! ### The units of an instruction -/

lemma definitions_of_length_le_one {d : RegRange} (hlen : i.definitions.length ≤ 1)
    (hd : d ∈ i.definitions) : i.definitions = [d] := by
  match hdefs : i.definitions with
  | [] => simp [hdefs] at hd
  | [e] =>
    rw [hdefs, List.mem_singleton] at hd
    rw [hd]
  | _ :: _ :: _ => simp [hdefs] at hlen

/-- The analysis registers the first definition alone: that of a scalar load, of a flat access or of
a message that returns a value. -/
def registersFirst (i : Instruction) : Bool :=
  match i.payload with
  | .smem _ | .salu => true
  | .flat _ => i.format == .flat
  | _ => false

/-- The unit is one of the first definition. -/
def FirstDefines (i : Instruction) (u : Reg) : Prop :=
  ∃ d, i.definitions.head? = some d ∧ u ∈ d.units

lemma FirstDefines.exists_definition (h : i.FirstDefines u) : ∃ d ∈ i.definitions, u ∈ d.units := by
  obtain ⟨d, hd, hu⟩ := h
  exact ⟨d, List.mem_of_head? hd, hu⟩

lemma firstDefines_of_length_le_one (hlen : i.definitions.length ≤ 1)
    (h : ∃ d ∈ i.definitions, u ∈ d.units) : i.FirstDefines u := by
  obtain ⟨d, hd, hu⟩ := h
  exact ⟨d, by rw [definitions_of_length_le_one hlen hd]; rfl, hu⟩

lemma registers_writeFirst {ev' : Event} : Registers u ev w [i.writeFirst ev'] ↔
    i.FirstDefines u ∧ ev' = ev ∧ w = true := by
  rw [writeFirst, FirstDefines]
  cases i.definitions <;> simp

lemma registers_vmemEffects :
    Registers u ev w (i.vmemEffects s) ↔ Uses u ev w (i.vmemStarted s).accesses := by
  rw [vmemStarted_eq, vmemEffects]
  cases i.lockedOperand? s <;> simp

lemma registers_flatEffects {access : FlatAccess} :
    Registers u ev w (i.flatEffects s access) ↔ i.FirstDefines u ∧
      (i.vmemEvent s (some .plain) = ev ∨ access.mayUseLds = true ∧ .lds = ev) ∧ w = true := by
  rw [flatEffects, FirstDefines]
  cases i.definitions with
  | nil => simp
  | cons d rest =>
    cases access.mayUseLds with
    | false => simp [eq_comm (a := true)]
    | true =>
      split_ifs
      all_goals
        simp [eq_comm (a := true)]
        tauto

lemma registers_exportEffects {data : Export} {ev' : Event}
    (hev : Export.eventOf data.dest = .ok ev') :
    Registers u ev w (i.exportEffects data) ↔
      ((∃ op ∈ ((List.range 4).filter data.enables).filterMap fun n => i.operands[data.operandOf n]?,
        u ∈ op.range.units) ∧ ev' = ev ∧ w = false)
      ∨ u ∈ RegRange.exec.units ∧ ev' = ev ∧ w = false := by
  rw [exportEffects, hev]
  simp only [List.cons_append, registers_issue, registers_append, registers_flatMap,
    registers_read, not_registers_nil, or_false, List.mem_filterMap]
  refine or_congr_left ⟨?_, ?_⟩
  · rintro ⟨n, hn, hreg⟩
    cases hop : i.operands[data.operandOf n]? with
    | none => simp [hop] at hreg
    | some op =>
      simp only [hop, registers_readOperand] at hreg
      exact ⟨⟨op, ⟨n, hn, hop⟩, hreg.1⟩, hreg.2⟩
  · rintro ⟨⟨op, ⟨n, hn, hop⟩, hu⟩, hrest⟩
    refine ⟨n, hn, ?_⟩
    simp only [hop, registers_readOperand]
    exact ⟨hu, hrest⟩

/-- The analysis registers what the checker follows, up to the definitions that it leaves out. -/
theorem registers_effects (hi : i.defect? = none) {st : Started} (h : i.started s = .ok st) :
    Registers u ev w (i.effects s) ↔
      Uses u ev w st.accesses ∧ (i.registersFirst = true → i.FirstDefines u) := by
  have hfirst : ∀ {ev' : Event}, i.FirstDefines u ∧ ev' = ev ∧ w = true ↔
      Uses u ev w (i.writesStarted ev') ∧ i.FirstDefines u := by
    intro ev'
    rw [uses_writesStarted]
    exact ⟨fun h => ⟨⟨h.1.exists_definition, h.2⟩, h.1⟩, fun h => ⟨h.2, h.1.2⟩⟩
  cases hp : i.payload with
  | exp data =>
    simp only [started, hp, bind_eq_ok, pure_eq_ok] at h
    obtain ⟨ev', hev, rfl⟩ := h
    simp only [effects, hp, registersFirst, registers_exportEffects hev, uses_append,
      uses_readsStarted, uses_singleton, eq_comm (a := false)]
    simp
  | flat access =>
    simp only [started, hp] at h
    simp only [effects, hp, registersFirst, beq_iff_eq]
    split at h
    · rename_i hf
      cases h
      rw [if_pos hf, registers_flatEffects, uses_append, or_and_right]
      simp only [hf, forall_const]
      cases access.mayUseLds with
      | false => simp only [Bool.false_eq_true, if_false, false_and, or_false, not_uses_nil, hfirst]
      | true =>
        simp only [if_true, true_and, or_and_right, ← hfirst, and_or_left]
    · rename_i hf
      cases h
      rw [if_neg hf, registers_vmemEffects]
      simp only [hf, false_implies, and_true]
  | vmem sync =>
    simp only [started, hp] at h
    cases h
    simp only [effects, hp, registersFirst, registers_vmemEffects, Bool.false_eq_true,
      false_implies, and_true]
  | smem sync =>
    simp only [started, hp] at h
    cases h
    simp only [effects, hp, registersFirst, registers_issue, forall_const, ← hfirst]
    rw [registers_map_write, FirstDefines]
    cases i.definitions <;> simp
  | ds access =>
    simp only [started, hp] at h
    simp only [effects, hp, registersFirst, dsEffects, Bool.false_eq_true, false_implies, and_true]
    split at h
    · rename_i hg
      cases h
      simp only [if_pos hg, List.cons_append, List.nil_append, registers_issue, registers_append,
        registers_map_write, registers_readOperands, registers_read, not_registers_nil, or_false,
        uses_append, uses_writesStarted, uses_readsStarted, uses_singleton, eq_comm (a := false)]
    · rename_i hg
      cases h
      simp only [if_neg hg, registers_issue, registers_map_write, uses_writesStarted]
  | ldsDir sync =>
    have hlen : i.definitions.length ≤ 1 := by
      have hdefect := (defect?_eq_none_iff.1 hi).2.2
      simp only [payloadDefect?, hp] at hdefect
      by_contra hne
      rw [if_pos (by omega)] at hdefect
      cases hdefect
    simp only [started, hp] at h
    cases h
    simp only [effects, hp, registersFirst, registers_issue, registers_writeFirst, hfirst,
      Bool.false_eq_true, false_implies, and_true]
    refine and_iff_left_of_imp fun huses => ?_
    exact firstDefines_of_length_le_one hlen (uses_writesStarted.1 huses).1
  | sopp imm =>
    simp only [started, hp] at h
    simp only [effects, hp]
    split at h
    all_goals
      cases h
      simp [*]
  | salu =>
    simp only [started, hp] at h
    simp only [effects, hp, registersFirst, forall_const]
    split at h
    · rename_i ho
      cases h
      rw [if_pos ho, registers_issue, registers_writeFirst, hfirst]
    · rename_i ho
      cases h
      simp [ho]
  | valu | interp _ | barrier _ | wait _ | dependencyWait _ =>
    simp only [started, hp] at h
    cases h
    simp [effects, hp]

/-! ### The order of the effects of an instruction -/

lemma vmemEvent_ne_lock (i : Instruction) (s : Setting) (type : Option VmemType) :
    i.vmemEvent s type ≠ .vmemGprLock := by
  unfold vmemEvent
  split
  · decide
  split
  · split <;> decide
  · decide

lemma raisedFirst_vmemEffects (i : Instruction) (s : Setting) : RaisedFirst (i.vmemEffects s) := by
  rw [vmemEffects]
  refine RaisedFirst.append ?_ ?_ ?_
  · exact raisedFirst_issue.2 (raisedFirst_of_issues (issues_map (fun _ => rfl) _))
  · split
    · exact raisedFirst_issue.2 (raisedFirst_of_issues (issues_readOperand _ _))
    · trivial
  · intro range ev blocksReads types halves hmem
    simp only [List.mem_cons, reduceCtorEq, List.mem_map, Effect.track.injEq, false_or] at hmem
    obtain ⟨-, -, -, rfl, -⟩ := hmem
    split <;> simp [i.vmemEvent_ne_lock s _]

/-- An instruction raises its events before it registers units for them. -/
lemma raisedFirst_effects (i : Instruction) (s : Setting) : RaisedFirst (i.effects s) := by
  rw [effects]
  split
  · rw [exportEffects]
    split
    · trivial
    · rw [List.cons_append, raisedFirst_issue]
      refine raisedFirst_of_issues ?_
      rw [issues_append, issues_flatMap fun n => by split <;> simp]
      rfl
  · split
    · rw [flatEffects]
      cases i.definitions with
      | nil => trivial
      | cons d rest =>
        refine raisedFirst_issue.2 (raisedFirst_issue.2 (raisedFirst_of_issues ?_))
        dsimp only
        split_ifs <;> rfl
    · exact i.raisedFirst_vmemEffects s
  · exact i.raisedFirst_vmemEffects s
  · exact raisedFirst_issue.2 (raisedFirst_of_issues (issues_map_write _ _))
  · rw [dsEffects]
    split
    · simp only [List.cons_append, List.nil_append, raisedFirst_issue]
      refine raisedFirst_of_issues ?_
      rw [issues_append, issues_append, issues_map_write, issues_flatMap (issues_readOperand · _)]
      rfl
    · exact raisedFirst_issue.2 (raisedFirst_of_issues (issues_map_write _ _))
  · exact raisedFirst_issue.2 (raisedFirst_of_issues (i.issues_writeFirst _))
  · split <;> trivial
  · split
    · exact raisedFirst_issue.2 (raisedFirst_of_issues (i.issues_writeFirst _))
    · trivial
  all_goals trivial

/-- What is registered alone is the only result of a regular instruction. -/
lemma Regular.firstDefines (hi : i.Regular) (hfirst : i.registersFirst = true) {st : Started}
    (h : i.started s = .ok st) (huses : Uses u ev w st.accesses) : i.FirstDefines u := by
  have hwrites : ∀ {ev' : Event}, i.definitions.length ≤ 1 →
      Uses u ev w (i.writesStarted ev') → i.FirstDefines u := fun hlen huses =>
    firstDefines_of_length_le_one hlen (uses_writesStarted.1 huses).1
  cases hp : i.payload with
  | smem sync =>
    have hsmem : i.isSmem = true := by
      have hfits := fits_of_isCoherent hi.coherent
      rw [hp] at hfits
      rw [isSmem]
      cases hf : i.format with
      | smem => rfl
      | _ =>
        rw [hf] at hfits
        cases hfits
    simp only [started, hp] at h
    cases h
    exact hwrites (hi.single (.inl hsmem)) huses
  | flat access =>
    have hf : i.format = .flat := by simpa [registersFirst, hp] using hfirst
    simp only [started, hp, hf, if_true] at h
    cases h
    rcases uses_append.1 huses with huses | huses
    · exact hwrites (hi.single (.inr hf)) huses
    · split at huses
      · exact hwrites (hi.single (.inr hf)) huses
      · exact absurd huses not_uses_nil
  | salu =>
    simp only [started, hp] at h
    split at h
    · rename_i ho
      cases h
      exact hwrites (Nat.le_of_eq (hi.returned ho)) huses
    · cases h
      exact absurd huses not_uses_nil
  | _ => simp [registersFirst, hp] at hfirst

/-- The analysis tracks every access that the checker follows. -/
theorem Regular.tracks (hi : i.Regular) {st : Started} (h : i.started s = .ok st)
    {a : StartedAccess} (ha : a ∈ st.accesses) (hu : u ∈ a.range.units) :
    Tracks u a.event a.write (i.effects s) := by
  have huses : Uses u a.event a.write st.accesses := ⟨a, ha, hu, rfl, rfl⟩
  exact (i.raisedFirst_effects s).tracks
    ((registers_effects hi.valid h).2 ⟨huses, fun hfirst => hi.firstDefines hfirst h huses⟩)

/-! ### What the checker follows -/

/-- The checker can describe every instruction that the pass can start. -/
lemma started_or_fail (i : Instruction) (s : Setting) :
    (∃ st, i.started s = .ok st) ∨ ∃ fault, i.effects s = [.fail fault] := by
  cases hp : i.payload with
  | exp data =>
    cases hev : Export.eventOf data.dest with
    | error fault =>
      right
      exact ⟨fault, by simp only [effects, hp, exportEffects, hev]⟩
    | ok ev =>
      left
      simp only [started, hp, hev, bind, Except.bind]
      exact ⟨_, rfl⟩
  | flat _ | ds _ | sopp _ | salu =>
    left
    simp only [started, hp]
    split <;> exact ⟨_, rfl⟩
  | vmem _ | smem _ | ldsDir _ | valu | interp _ | barrier _ | wait _ | dependencyWait _ =>
    left
    simp only [started, hp]
    exact ⟨_, rfl⟩

lemma started_total (hi : i.Workable) (s : Setting) : ∃ st, i.started s = .ok st := by
  refine (i.started_or_fail s).resolve_right ?_
  rintro ⟨fault, hfail⟩
  exact hi.applies (s := s) (.fail fault) (by simp [hfail])

/-- What the checker may follow: results, and ranges that are still being read. -/
inductive MayFollow (i : Instruction) (st : Started) : StartedAccess → Prop where
  | write {d : RegRange} {ev : Event} (hd : d ∈ i.definitions) (hev : ev ∈ st.events)
      (hreads : ev.reads = false) : MayFollow i st ⟨d, ev, true⟩
  | read {r : RegRange} {ev : Event} (hr : r = .exec ∨ ∃ op ∈ i.operands, op.range = r)
      (hev : ev ∈ st.events) (hreads : ev.reads = true) : MayFollow i st ⟨r, ev, false⟩

section

variable {st : Started} {a : StartedAccess}

lemma mayFollow_write (ha : a ∈ i.writesStarted ev) (hev : ev ∈ st.events) (hreads : ev.reads = false) :
    i.MayFollow st a := by
  obtain ⟨d, hd, rfl⟩ := List.mem_map.1 ha
  exact .write hd hev hreads

lemma mayFollow_read {ops : List Operand} (hsub : ops ⊆ i.operands) (ha : a ∈ readsStarted ops ev)
    (hev : ev ∈ st.events) (hreads : ev.reads = true) : i.MayFollow st a := by
  obtain ⟨op, hop, rfl⟩ := mem_readsStarted ha
  exact .read (.inr ⟨op, hsub hop, rfl⟩) hev hreads

lemma mayFollow_vmem (ha : a ∈ (i.vmemStarted s).accesses) : i.MayFollow (i.vmemStarted s) a := by
  have hreads := i.reads_vmemEvent s (i.vmemType? s.generation)
  rw [vmemStarted_eq] at ha ⊢
  cases hl : i.lockedOperand? s with
  | none =>
    simp only [hl] at ha
    exact mayFollow_write ha (by simp) hreads
  | some op =>
    simp only [hl, List.mem_append] at ha
    rcases ha with ha | ha
    · exact mayFollow_write ha (by simp) hreads
    · exact mayFollow_read (by simpa using mem_of_lockedOperand? hl) ha (by simp) rfl

/-- What stands among the accesses that the checker follows. -/
lemma mayFollow_of_mem (h : i.started s = .ok st) (ha : a ∈ st.accesses) : i.MayFollow st a := by
  cases hp : i.payload with
  | exp data =>
    simp only [started, hp, bind_eq_ok, pure_eq_ok] at h
    obtain ⟨ev, hev, rfl⟩ := h
    have hreads := Export.reads_of_eventOf hev
    rcases List.mem_append.1 ha with ha | ha
    · refine mayFollow_read (fun op hop => ?_) ha (by simp) hreads
      obtain ⟨n, -, hop⟩ := List.mem_filterMap.1 hop
      exact List.mem_of_getElem? hop
    · rw [List.mem_singleton.1 ha]
      exact .read (.inl rfl) (by simp) hreads
  | flat access =>
    simp only [started, hp] at h
    split at h
    · cases h
      rcases List.mem_append.1 ha with ha | ha
      · exact mayFollow_write ha (by simp) (i.reads_vmemEvent s _)
      · split at ha
        · exact mayFollow_write ha (by simp) rfl
        · cases ha
    · cases h
      exact mayFollow_vmem ha
  | vmem sync =>
    simp only [started, hp] at h
    cases h
    exact mayFollow_vmem ha
  | ds access =>
    simp only [started, hp] at h
    split at h
    · cases h
      rcases List.mem_append.1 ha with ha | ha
      · rcases List.mem_append.1 ha with ha | ha
        · exact mayFollow_write ha (by simp) rfl
        · exact mayFollow_read (List.Subset.refl _) ha (by simp) rfl
      · rw [List.mem_singleton.1 ha]
        exact .read (.inl rfl) (by simp) rfl
    · cases h
      exact mayFollow_write ha (by simp) rfl
  | smem sync | ldsDir sync =>
    simp only [started, hp] at h
    cases h
    exact mayFollow_write ha (by simp) rfl
  | sopp imm =>
    simp only [started, hp] at h
    split at h <;> cases h <;> cases ha
  | salu =>
    simp only [started, hp] at h
    split at h
    · cases h
      exact mayFollow_write ha (by simp) rfl
    · cases h
      cases ha
  | valu | interp _ | barrier _ | wait _ | dependencyWait _ =>
    simp only [started, hp] at h
    cases h
    cases ha

end

lemma counter_of_issue {ev : Event} {sync : Sync} (h : .issue ev sync ∈ i.effects s) :
    ∃ c, s.generation.counter? ev = some c := by
  cases mayStart_of_mem h with
  | access _ type => exact Generation.counter?_vmemEvent i s type
  | event _ c hc => exact ⟨c, hc⟩

/-- Only accesses of vector memory raise the events that its counters count. -/
lemma vmemEvent_or_of_issues {ev : Event} (h : ev ∈ issues (i.effects s)) :
    i.IsVectorAccess ∧ (∃ type, ev = i.vmemEvent s type) ∨ ev ≠ .vmem ∧ ev ≠ .vmemStore := by
  obtain ⟨sync, h⟩ := mem_issues.1 h
  cases mayStart_of_mem h with
  | access hp type => exact .inl ⟨hp, type, rfl⟩
  | event _ _ _ hev => exact .inr hev

/-- What the checker knows of an access: its event has been raised, its range can be counted through,
and it is counted, on the export counter if it only reads. -/
structure FollowedAccess (i : Instruction) (s : Setting) (st : Started) (a : StartedAccess) :
    Prop where
  raised : a.event ∈ st.events
  fits : a.range.fits = true
  counted : ∃ c, s.generation.counter? a.event = some c ∧ (a.write = false → c = .exp)

theorem Workable.followed (hi : i.Workable) {st : Started} (h : i.started s = .ok st)
    {a : StartedAccess} (ha : a ∈ st.accesses) : FollowedAccess i s st a := by
  cases mayFollow_of_mem h ha with
  | write hd hev =>
    obtain ⟨sync, hissue⟩ := mem_issues.1 (issues_effects h ▸ hev)
    obtain ⟨c, hc⟩ := counter_of_issue hissue
    exact ⟨hev, hi.inBounds.definitions _ hd, c, hc, fun hw => by cases hw⟩
  | read hr hev hreads =>
    refine ⟨hev, ?_, .exp, Event.counter?_of_reads hreads _, fun _ => rfl⟩
    rcases hr with rfl | ⟨op, hop, rfl⟩
    · exact RegRange.fits_exec
    · exact hi.inBounds.operands op hop

/-- A flat load that completes out of order raises events on `vm` and `lgkm` only, and the analysis
takes note of it. -/
lemma unorderedFlat_spec (h : i.isUnorderedFlat s.generation = true) {st : Started}
    (hst : i.started s = .ok st) :
    .flat ∈ i.effects s ∧ ∀ ev ∈ st.events,
      s.generation.counter? ev = some .vm ∨ s.generation.counter? ev = some .lgkm := by
  simp only [isUnorderedFlat, Bool.and_eq_true, decide_eq_true_eq, beq_iff_eq,
    Bool.not_eq_true'] at h
  obtain ⟨⟨⟨hgen, hformat⟩, hlds⟩, hdefs⟩ := h
  cases hp : i.payload with
  | flat access =>
    have hlds' : access.mayUseLds = true := by simpa [mayUseLds, hp] using hlds
    obtain ⟨d, rest, hd⟩ : ∃ d rest, i.definitions = d :: rest := by
      cases hd : i.definitions with
      | nil => simp [hd] at hdefs
      | cons d rest => exact ⟨d, rest, rfl⟩
    have h12 : ¬.gfx12 ≤ s.generation := by
      intro h12
      have h₁ : s.generation.age < 4 := hgen
      have h₂ : 8 ≤ s.generation.age := h12
      omega
    have hevent : i.vmemEvent s (some .plain) = .vmem := by
      simp [vmemEvent, hd, h12]
    simp only [started, hp, hformat, if_true] at hst
    cases hst
    refine ⟨by simp [effects, hp, hformat, flatEffects, hd, hlds', hgen], ?_⟩
    intro ev hev
    simp only [hevent, List.mem_cons, List.not_mem_nil, or_false] at hev
    rcases hev with rfl | rfl
    · exact .inl rfl
    · exact .inr rfl
  | _ => simp [mayUseLds, hp] at hlds

end Instruction

end GpuWaits
