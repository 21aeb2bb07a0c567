/-
# What the analysis registers

The analysis registers units of registers until an event completes, and the checker follows units until an
event completes.  The two descriptions of an instruction agree up to the definitions that the analysis
leaves out (`Instruction.registers_effects`).  Here this is carried over to contexts: what an instruction
registers is what the context holds afterwards, beside what it held before (`Context.exists_of_start`).

Main result: `Context.startsAs_of_start`.
-/
import GpuWaits.Proofs.Effects
import GpuWaits.Sample.Code

namespace GpuWaits

/-! ### The context -/

/-- An entry has the property `P` where one of its accesses has the property `Q`. -/
structure Entry.Collects (g : Generation) (P : Entry → Prop) (Q : Event → Bool → Prop) : Prop where
  started : ∀ ev w types halves, P (Context.startedEntry g ev w types halves) ↔ Q ev w
  join : ∀ old new : Entry, P ((old.join new).addLanes new.laneEvents) ↔ P old ∨ P new
  age : ∀ (e : Entry) (ev : Event), P (e.age g ev) ↔ P e

lemma Entry.collects_event (g : Generation) (ev : Event) :
    Collects g (fun e => ev ∈ e.events) fun ev' _ => ev' = ev where
  started ev' w types halves := by simp [Context.startedEntry, ofEvent, eq_comm]
  join old new := by simp [Entry.join, addLanes]
  age e ev' := by
    rw [Entry.age]
    split <;> rfl

lemma Entry.collects_blocksReads (g : Generation) :
    Collects g (fun e => e.blocksReads = true) fun _ w => w = true where
  started ev w types halves := by simp [Context.startedEntry, ofEvent]
  join old new := by simp [Entry.join, addLanes]
  age e ev := by
    rw [Entry.age]
    split <;> rfl

namespace Context

open Effect StartedAccess

variable {c c' : Context} {s : Setting} {i : Instruction} {u : Reg} {P : Entry → Prop}
  {Q : Event → Bool → Prop}

lemma exists_trackUnits_iff (hP : Entry.Collects s.generation P Q) {new : Nat → Entry} {R : Prop}
    (hnew : ∀ j, P (new j) ↔ R) (units : List (Reg × Nat)) (m : RegMap) :
    (∃ e : Entry, (units.foldl (fun m (r, j) => trackUnit m r (new j)) m)[u]? = some e ∧ P e) ↔
      (∃ e : Entry, m[u]? = some e ∧ P e) ∨ (∃ j, (u, j) ∈ units) ∧ R := by
  induction units generalizing m with
  | nil => simp
  | cons unit rest ih =>
    obtain ⟨r, j⟩ := unit
    rw [List.foldl_cons, ih, getElem?_trackUnit]
    by_cases hr : r = u
    · subst hr
      cases m[r]? with
      | none => simp [hnew]
      | some old =>
        simp [hnew, hP.join]
        tauto
    · simp [hr, Ne.symm hr]

lemma exists_of_apply (hP : Entry.Collects s.generation P Q) {effect : Effect}
    (h : c.apply s i effect = .ok c') :
    (∃ e : Entry, c'.regs[u]? = some e ∧ P e) ↔
      (∃ e : Entry, c.regs[u]? = some e ∧ P e) ∨ ∃ ev w, Registers u ev w [effect] ∧ Q ev w := by
  cases effect with
  | issue ev sync =>
    rw [(issued_of_issue h).entry]
    split <;> simp [hP.age]
  | track range ev w types halves =>
    obtain ⟨-, rfl⟩ := track_eq_ok.1 h
    have hunits : (∃ j, (u, j) ∈ range.units.zipIdx) ↔ u ∈ range.units := by
      rw [List.mem_iff_getElem?]
      exact exists_congr fun j => List.mk_mem_zipIdx_iff_getElem?
    rw [exists_trackUnits_iff hP fun j => hP.started ev w types (HalfSet.ofWord halves j), hunits]
    simp [and_assoc]
  | flat =>
    cases h
    simp
  | fail fault => cases h

/-- What the context holds for a unit after an instruction has issued: what it held before, and what
the instruction registers. -/
theorem exists_of_start (hP : Entry.Collects s.generation P Q) (h : c.start s i = .ok c') :
    (∃ e : Entry, c'.regs[u]? = some e ∧ P e) ↔
      (∃ e : Entry, c.regs[u]? = some e ∧ P e) ∨
        ∃ ev w, Registers u ev w (i.effects s) ∧ Q ev w := by
  rw [start] at h
  generalize i.effects s = effects at h ⊢
  induction effects generalizing c with
  | nil =>
    cases h
    simp
  | cons effect rest ih =>
    rw [List.foldlM_cons, bind_eq_ok] at h
    obtain ⟨c₁, hfirst, hrest⟩ := h
    have hsplit : ∀ ev w, Registers u ev w (effect :: rest) ↔
        Registers u ev w [effect] ∨ Registers u ev w rest := fun ev w =>
      registers_append (l := [effect])
    rw [ih hrest, exists_of_apply hP hfirst]
    simp only [hsplit, or_and_right, exists_or, or_assoc]

/-- The unit is in use until the event completes. -/
def Pending (c : Context) (u : Reg) (ev : Event) : Prop :=
  ∃ e : Entry, c.regs[u]? = some e ∧ ev ∈ e.events

/-- The unit must not be read. -/
def Blocked (c : Context) (u : Reg) : Prop :=
  ∃ e : Entry, c.regs[u]? = some e ∧ e.blocksReads = true

lemma pending_of_start (h : c.start s i = .ok c') {ev : Event} :
    c'.Pending u ev ↔ c.Pending u ev ∨ ∃ w, Registers u ev w (i.effects s) := by
  rw [Pending, exists_of_start (Entry.collects_event s.generation ev) h, Pending]
  simp

lemma blocked_of_start (h : c.start s i = .ok c') :
    c'.Blocked u ↔ c.Blocked u ∨ ∃ ev, Registers u ev true (i.effects s) := by
  rw [Blocked, exists_of_start (Entry.collects_blocksReads s.generation) h, Blocked]
  simp

/-- The analysis starts what the checker lists.  It raises the events in their order and registers the
units, each for the same event and with the same answer to whether it may still be read; some
instructions lose the definitions behind the first.  The context then holds what it held before and
what has been registered. -/
structure StartsAs (c c' : Context) (s : Setting) (i : Instruction) (st : Started) : Prop where
  events : issues (i.effects s) = st.events
  units : ∀ u ev w, Registers u ev w (i.effects s) ↔
    Uses u ev w st.accesses ∧ (i.registersFirst = true → i.FirstDefines u)
  pending : ∀ u ev, c'.Pending u ev ↔ c.Pending u ev ∨ ∃ w, Registers u ev w (i.effects s)
  blocked : ∀ u, c'.Blocked u ↔ c.Blocked u ∨ ∃ ev, Registers u ev true (i.effects s)

lemma exists_started_of_start (h : c.start s i = .ok c') : ∃ st, i.started s = .ok st := by
  refine (i.started_or_fail s).resolve_right ?_
  rintro ⟨fault, hfail⟩
  exact applies_of_start h (.fail fault) (by simp [hfail])

/-- **The two descriptions of what an instruction starts agree**, wherever the analysis can start it. -/
theorem startsAs_of_start (hi : i.defect? = none) (h : c.start s i = .ok c') :
    ∃ st, i.started s = .ok st ∧ StartsAs c c' s i st := by
  obtain ⟨st, hst⟩ := exists_started_of_start h
  exact ⟨st, hst, Instruction.issues_effects hst,
    fun _ _ _ => Instruction.registers_effects hi hst, fun _ _ => pending_of_start h,
    fun _ => blocked_of_start h⟩

/-- A sample of an image that also returns a word on residency.  The oldest generation keeps reading
the third operand. -/
def residentSample : Instruction where
  opcode := .imageSample
  definitions := [⟨.vgpr 4, 4⟩, ⟨.vgpr 8, 1⟩]
  operands := [Sample.many (.sgpr 8) 8, Sample.many (.sgpr 16) 4, Sample.one (.vgpr 2),
    Sample.many (.vgpr 0) 2]
  payload := .vmem { storage := {.image} }

theorem startsAs_residentSample : residentSample.defect? = none ∧ ∃ c',
    ({} : Context).start { config := { generation := .gfx6 } } residentSample = .ok c'
      ∧ ∃ st, residentSample.started { config := { generation := .gfx6 } } = .ok st
        ∧ StartsAs {} c' { config := { generation := .gfx6 } } residentSample st := by
  have hvalid : residentSample.defect? = none := by decide
  obtain ⟨c', hc'⟩ : ∃ c',
      ({} : Context).start { config := { generation := .gfx6 } } residentSample = .ok c' :=
    ⟨_, rfl⟩
  exact ⟨hvalid, c', hc', startsAs_of_start hvalid hc'⟩

/-- A scalar load with two results. -/
def pairedLoad : Instruction where
  opcode := .sLoadDword
  definitions := [⟨.sgpr 4, 1⟩, ⟨.sgpr 6, 1⟩]
  operands := [Sample.many (.sgpr 0) 2, .const 0]
  payload := .smem { storage := {.buffer} }

/-- The second result of a scalar load is not registered, although the checker follows it. -/
theorem pairedLoad_loses_second : pairedLoad.isCoherent = true ∧ pairedLoad.defect? = none
    ∧ ∃ c' st, ({} : Context).start { config := { generation := .gfx10 } } pairedLoad = .ok c'
      ∧ pairedLoad.started { config := { generation := .gfx10 } } = .ok st
      ∧ Uses (.sgpr 6) .smem true st.accesses
      ∧ (∀ w, ¬Registers (.sgpr 6) .smem w (pairedLoad.effects { config := { generation := .gfx10 } }))
      ∧ ¬c'.Pending (.sgpr 6) .smem := by
  have hlost : ∀ w, ¬Registers (.sgpr 6) .smem w
      (pairedLoad.effects { config := { generation := .gfx10 } }) := by
    intro w hw
    have hfirst := (Instruction.registers_effects (by decide) rfl).1 hw
    obtain ⟨d, hd, hu⟩ := hfirst.2 rfl
    cases hd
    exact absurd hu (by decide)
  obtain ⟨c', hc'⟩ : ∃ c',
      ({} : Context).start { config := { generation := .gfx10 } } pairedLoad = .ok c' := ⟨_, rfl⟩
  refine ⟨by decide, by decide, c', _, hc', rfl,
    ⟨⟨⟨.sgpr 6, 1⟩, .smem, true⟩, by decide, by decide, rfl, rfl⟩, hlost, ?_⟩
  rw [pending_of_start hc']
  rintro (⟨e, he, -⟩ | ⟨w, hw⟩)
  · cases he
  · exact hlost w hw

end Context

end GpuWaits
