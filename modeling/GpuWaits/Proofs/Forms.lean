/-
# What an instruction may start

Most facts about the effects of an instruction are true of each of them, whatever their order is.  This
file says once what can stand among them (`Instruction.mayStart_of_mem`): events, results of vector memory,
and ranges that are written or read until some other event completes.  A property of all effects then has
one short case for each form.
-/
import GpuWaits.Proofs.Sound

namespace GpuWaits

/-- The operations of this event read registers; those of the other events write them. -/
def Event.reads : Event → Bool
  | .expPos | .expParam | .expMrtNull | .expPrim | .expDualSrcBlend | .gdsGprLock
  | .vmemGprLock => true
  | _ => false

lemma Event.counter?_of_reads {ev : Event} (h : ev.reads = true) (g : Generation) :
    g.counter? ev = some .exp := by
  revert h
  cases ev <;> simp [reads, Generation.counter?]

lemma Export.reads_of_eventOf {dest : UInt8} {ev : Event} (h : eventOf dest = .ok ev) :
    ev.reads = true := by
  unfold eventOf at h
  repeat' split at h
  all_goals cases h
  all_goals rfl

namespace Instruction

variable {i : Instruction} {s : Setting} {ev : Event}

/-- The type of the results, as a set. -/
def vmemTypes (i : Instruction) (g : Generation) : VmemTypeSet :=
  match i.vmemType? g with
  | some type => {type}
  | none => ∅

/-- A flat access has no type. -/
lemma vmemTypes_of_flat (h : i.format = .flat) (g : Generation) : i.vmemTypes g = ∅ := by
  have hnone : i.vmemType? g = none := by
    rw [vmemType?]
    split
    case h_5 => simp [isVmem, h]
    all_goals
      rename_i ho
      rw [format, ho] at h
      cases h
  rw [vmemTypes, hnone]

lemma reads_vmemEvent (i : Instruction) (s : Setting) (type : Option VmemType) :
    (i.vmemEvent s type).reads = false := by
  unfold vmemEvent
  split
  · rfl
  split
  · split <;> rfl
  · rfl

lemma mem_of_lockedOperand? {op : Operand} (h : i.lockedOperand? s = some op) :
    op ∈ i.operands := by
  rw [lockedOperand?] at h
  split at h
  · split at h
    · exact List.mem_of_getElem? (Option.filter_eq_some_iff.1 h).1
    · split at h
      · exact List.mem_of_getElem? h
      · cases h
  · cases h

/-! ### The forms -/

/-- The instruction raises the event. -/
def Raises (i : Instruction) (s : Setting) (ev : Event) : Prop := ∃ sync, .issue ev sync ∈ i.effects s

/-- The instruction accesses vector memory. -/
def IsVectorAccess (i : Instruction) : Prop :=
  (∃ access, i.payload = .flat access) ∨ ∃ sync, i.payload = .vmem sync

/-- The instruction lacks what its payload speaks of: the target or the data of an export, or a place for
a result. -/
def IsIncomplete (i : Instruction) : Prop :=
  match i.payload with
  | .exp data => (∃ fault, Export.eventOf data.dest = .error fault)
      ∨ ∃ n < 4, i.operands.length ≤ data.operandOf n
  | .ldsDir _ => i.definitions = []
  | .salu => (i.opcode = .sSendmsgRtnB32 ∨ i.opcode = .sSendmsgRtnB64) ∧ i.definitions = []
  | _ => False

/-- What can stand among the effects of an instruction. -/
inductive MayStart (i : Instruction) (s : Setting) : Effect → Prop where
  /-- The event of an access of vector memory. -/
  | access (hp : i.IsVectorAccess) (type : Option VmemType) :
      MayStart i s (.issue (i.vmemEvent s type) i.sync)
  /-- Another event, on behalf of the access or of no access. -/
  | event {ev : Event} {sync : Sync} (hsync : sync = i.sync ∨ sync = {}) (c : Counter)
      (hc : s.generation.counter? ev = some c) (hev : ev ≠ .vmem ∧ ev ≠ .vmemStore) :
      MayStart i s (.issue ev sync)
  /-- A result of vector memory. -/
  | load {d : RegRange} {ev : Event} (hp : i.IsVectorAccess) (hd : d ∈ i.definitions)
      (hev : i.Raises s ev) :
      MayStart i s (.track d ev true (i.vmemTypes s.generation)
        (if ev = .vmem then i.loadedHalves s else 0#32))
  /-- Another result. -/
  | write {d : RegRange} {ev : Event} (hd : d ∈ i.definitions) (hev : i.Raises s ev)
      (hc : s.generation.counter? ev ≠ some .vm) : MayStart i s (.track d ev true ∅ 0#32)
  /-- A range that is still being read. -/
  | read {r : RegRange} {ev : Event} (hr : r = .exec ∨ .reg r ∈ i.operands) (hev : i.Raises s ev)
      (hreads : ev.reads = true) : MayStart i s (.track r ev false ∅ 0#32)
  /-- The mark of a flat load. -/
  | flat (hformat : i.format = .flat) (hd : i.definitions ≠ []) (hold : s.generation < .gfx10) :
      MayStart i s .flat
  | fail {fault : Fault} (h : i.IsIncomplete) : MayStart i s (.fail fault)

lemma mayStart_readOperand {op : Operand} (hop : op ∈ i.operands) (hev : i.Raises s ev)
    (hreads : ev.reads = true) : ∀ e ∈ Effect.readOperand op ev, i.MayStart s e := by
  intro e he
  cases op with
  | reg r =>
    rw [List.mem_singleton.1 he]
    exact .read (.inr hop) hev hreads
  | const _ => cases he
  | undef => cases he

lemma mayStart_writes {ranges : List RegRange} (hsub : ranges ⊆ i.definitions) (hev : i.Raises s ev)
    (hc : s.generation.counter? ev ≠ some .vm) :
    ∀ e ∈ ranges.map (Effect.write · ev), i.MayStart s e := by
  intro e he
  obtain ⟨d, hd, rfl⟩ := List.mem_map.1 he
  exact .write (hsub hd) hev hc

lemma mayStart_writeFirst (hnone : i.definitions = [] → i.IsIncomplete) (hev : i.Raises s ev)
    (hc : s.generation.counter? ev ≠ some .vm) : i.MayStart s (i.writeFirst ev) := by
  rw [writeFirst]
  cases hd : i.definitions with
  | nil => exact .fail (hnone hd)
  | cons d rest => exact .write (by simp [hd]) hev hc

/-! ### The effects of each sort of instruction -/

lemma mayStart_exportEffects {data : Export} (hp : i.payload = .exp data) :
    ∀ e ∈ i.exportEffects data, i.MayStart s e := by
  intro e he
  cases hev : Export.eventOf data.dest with
  | error fault =>
    simp only [exportEffects, hev, List.mem_singleton] at he
    rw [he]
    exact .fail (by simp [IsIncomplete, hp, hev])
  | ok ev =>
    have hreads := Export.reads_of_eventOf hev
    have hraised : i.Raises s ev := ⟨{}, by simp [effects, hp, exportEffects, hev]⟩
    simp only [exportEffects, hev, List.mem_append, List.mem_cons, List.mem_flatMap, List.mem_filter,
      List.mem_range, List.not_mem_nil, or_false] at he
    rcases he with (rfl | ⟨n, ⟨hn, -⟩, he⟩) | rfl
    · have hno : ev ≠ .vmem ∧ ev ≠ .vmemStore := by constructor <;> rintro rfl <;> cases hreads
      exact .event (.inr rfl) _ (Event.counter?_of_reads hreads _) hno
    · split at he
      · rename_i op hop
        exact mayStart_readOperand (List.mem_of_getElem? hop) hraised hreads e he
      · rename_i hop
        rw [List.mem_singleton.1 he]
        refine .fail ?_
        rw [IsIncomplete, hp]
        exact .inr ⟨n, hn, List.getElem?_eq_none_iff.1 hop⟩
    · exact .read (.inl rfl) hraised hreads

lemma mayStart_flatEffects {access : FlatAccess} (hp : i.payload = .flat access)
    (hformat : i.format = .flat) : ∀ e ∈ i.flatEffects s access, i.MayStart s e := by
  have hsync : access.sync = i.sync := by simp [sync, hp]
  have heffects : i.effects s = i.flatEffects s access := by simp only [effects, hp, if_pos hformat]
  intro e he
  rw [flatEffects] at he
  rcases List.mem_append.1 he with he | he
  · simp only [List.mem_cons, List.not_mem_nil, or_false] at he
    rcases he with rfl | rfl
    · exact hsync ▸ .access (.inl ⟨access, hp⟩) _
    · exact .event (.inl hsync) _ rfl ⟨by decide, by decide⟩
  · cases hd : i.definitions with
    | nil => simp [hd] at he
    | cons d rest =>
      have hmem : d ∈ i.definitions := by simp [hd]
      have hevent : i.vmemEvent s (some .plain) = .vmem := by simp [vmemEvent, hd]
      simp only [hd, hevent] at he
      rcases List.mem_cons.1 he with rfl | he
      · rw [← vmemTypes_of_flat hformat s.generation]
        exact .load (.inl ⟨access, hp⟩) hmem ⟨access.sync, by simp [heffects, flatEffects, hevent]⟩
      split at he
      · rcases List.mem_cons.1 he with rfl | he
        · exact .write hmem ⟨access.sync, by simp [heffects, flatEffects]⟩ (by simp [Generation.counter?])
        · split at he
          · rename_i hold
            rw [List.mem_singleton.1 he]
            exact .flat hformat (by simp [hd]) hold
          · cases he
      · cases he

lemma mayStart_dsEffects {access : DsAccess} (hp : i.payload = .ds access) :
    ∀ e ∈ i.dsEffects access, i.MayStart s e := by
  have hsync : access.sync = i.sync := by simp [sync, hp]
  have heffects : i.effects s = i.dsEffects access := by simp only [effects, hp]
  intro e he
  by_cases hgds : access.gds = true
  · have hraised : i.Raises s .gds := ⟨access.sync, by simp [heffects, dsEffects, hgds]⟩
    have hlocked : i.Raises s .gdsGprLock := ⟨{}, by simp [heffects, dsEffects, hgds]⟩
    simp only [dsEffects, if_pos hgds, List.mem_append, List.mem_cons, List.mem_flatMap,
      List.not_mem_nil, or_false] at he
    rcases he with (((rfl | rfl) | he) | ⟨op, hop, he⟩) | rfl
    · exact .event (.inl hsync) _ rfl ⟨by decide, by decide⟩
    · exact .event (.inr rfl) _ rfl ⟨by decide, by decide⟩
    · exact mayStart_writes (List.Subset.refl _) hraised (by simp [Generation.counter?]) e he
    · exact mayStart_readOperand hop hlocked rfl e he
    · exact .read (.inl rfl) hlocked rfl
  · have hraised : i.Raises s .lds := ⟨access.sync, by simp [heffects, dsEffects, hgds]⟩
    rw [dsEffects, if_neg hgds] at he
    rcases List.mem_cons.1 he with rfl | he
    · exact .event (.inl hsync) _ rfl ⟨by decide, by decide⟩
    · exact mayStart_writes (List.Subset.refl _) hraised (by simp [Generation.counter?]) e he

lemma mayStart_vmemEffects (hp : i.IsVectorAccess) (heffects : i.effects s = i.vmemEffects s) :
    ∀ e ∈ i.vmemEffects s, i.MayStart s e := by
  intro e he
  rw [vmemEffects] at he
  rcases List.mem_append.1 he with he | he
  · rcases List.mem_cons.1 he with rfl | he
    · exact .access hp _
    · obtain ⟨d, hd, rfl⟩ := List.mem_map.1 he
      exact .load hp hd ⟨i.sync, by simp [heffects, vmemEffects]⟩
  · split at he
    · rename_i op hop
      rcases List.mem_cons.1 he with rfl | he
      · exact .event (.inr rfl) _ rfl ⟨by decide, by decide⟩
      · exact mayStart_readOperand (mem_of_lockedOperand? hop)
          ⟨{}, by simp [heffects, vmemEffects, hop]⟩ rfl e he
    · cases he

/-- **What stands among the effects of an instruction**, in the list of one of its sorts. -/
theorem mayStart_of_mem {e : Effect} (he : e ∈ i.effects s) : i.MayStart s e := by
  have hscalar : s.generation.counter? .smem = s.generation.counter? .sendmsgRtn
      ∧ s.generation.counter? .smem ≠ some .vm := by
    simp only [Generation.counter?, ne_eq, Option.some.injEq, true_and]
    split <;> decide
  cases hp : i.payload with
  | exp data => exact mayStart_exportEffects hp e (by simpa only [effects, hp] using he)
  | flat access =>
    by_cases hformat : i.format = .flat
    · exact mayStart_flatEffects hp hformat e (by simpa only [effects, hp, if_pos hformat] using he)
    · have heffects : i.effects s = i.vmemEffects s := by simp only [effects, hp, if_neg hformat]
      exact mayStart_vmemEffects (.inl ⟨access, hp⟩) heffects e (heffects ▸ he)
  | vmem sync =>
    have heffects : i.effects s = i.vmemEffects s := by simp only [effects, hp]
    exact mayStart_vmemEffects (.inr ⟨sync, hp⟩) heffects e (heffects ▸ he)
  | ds access => exact mayStart_dsEffects hp e (by simpa only [effects, hp] using he)
  | smem sync =>
    simp only [effects, hp] at he
    rcases List.mem_cons.1 he with rfl | he
    · exact .event (.inl (by simp [Instruction.sync, hp])) _ rfl ⟨by decide, by decide⟩
    · exact mayStart_writes (List.take_subset 1 _) ⟨sync, by simp [effects, hp]⟩ hscalar.2 e he
  | ldsDir sync =>
    simp only [effects, hp, List.mem_cons, List.not_mem_nil, or_false] at he
    rcases he with rfl | rfl
    · exact .event (.inl (by simp [Instruction.sync, hp])) _ rfl ⟨by decide, by decide⟩
    · exact mayStart_writeFirst (fun hd => by simp [IsIncomplete, hp, hd])
        ⟨sync, by simp [effects, hp]⟩ (by simp [Generation.counter?])
  | sopp imm =>
    simp only [effects, hp] at he
    split at he
    · rw [List.mem_singleton.1 he]
      exact .event (.inr rfl) _ rfl ⟨by decide, by decide⟩
    · cases he
  | salu =>
    simp only [effects, hp] at he
    split at he
    · rename_i hop
      simp only [List.mem_cons, List.not_mem_nil, or_false] at he
      rcases he with rfl | rfl
      · exact .event (.inr rfl) _ rfl ⟨by decide, by decide⟩
      · exact mayStart_writeFirst (fun hd => by simp [IsIncomplete, hp, hop, hd])
          ⟨{}, by simp [effects, hp, hop]⟩ (hscalar.1 ▸ hscalar.2)
    · cases he
  | valu | interp _ | barrier _ | wait _ | dependencyWait _ =>
    simp only [effects, hp] at he
    cases he

end Instruction

end GpuWaits
