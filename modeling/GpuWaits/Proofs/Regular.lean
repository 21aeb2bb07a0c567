/-
# Regular instructions

Validation does not rule out every instruction that the analysis cannot deal with.  A load into more
than 16 units overflows the table of halves, and a message that returns a value needs a place to put
it.  `Instruction.Workable` adds the missing conditions, and this file shows that the analysis of a
block of workable instructions meets no fault (`Block.insertWaits_total`) and leaves workable
instructions behind (`Block.forall_insertWaits`).  The checker follows all destinations and the
analysis only some of them; of a regular instruction (`Instruction.Regular`) both follow the same.
-/
import GpuWaits.Proofs.Forms

namespace GpuWaits

/-! ### Register ranges -/

namespace RegRange

variable {r : RegRange}

lemma isValid_iff : r.isValid = true ↔ (1 ≤ r.size.toNat ∧ r.size.toNat ≤ 32)
    ∧ r.first.unit.toNat + r.size.toNat - 1 < Reg.fileSize
    ∧ r.first.isVector = decide (256 ≤ r.first.unit.toNat + r.size.toNat - 1) := by
  simp only [isValid, Bool.and_eq_true, decide_eq_true_eq, beq_iff_eq, UInt8.le_iff_toNat_le,
    and_assoc]
  rfl

lemma fits_of_isValid (h : r.isValid = true) : r.fits = true := by
  obtain ⟨⟨h₁, h₂⟩, h₃, -⟩ := isValid_iff.1 h
  simp only [Reg.fileSize] at h₃
  simp only [fits, UInt16.size, decide_eq_true_eq]
  omega

lemma checkFits_eq_ok {u : Unit} : r.checkFits = .ok u ↔ r.fits = true := by
  rw [checkFits]
  split
  · exact ⟨fun _ => ‹_›, fun _ => rfl⟩
  · exact ⟨(fun h => by cases h), fun h => absurd h ‹_›⟩

lemma checkFits_of_isValid (h : r.isValid = true) : r.checkFits = .ok () :=
  checkFits_eq_ok.2 (fits_of_isValid h)

lemma length_units_le (r : RegRange) : r.units.length ≤ r.size.toNat := by
  simp only [units, List.length_map, List.length_range]
  omega

lemma unit_lt_of_mem (h : r.isValid = true) {u : Reg} (hu : u ∈ r.units) :
    u.unit.toNat < Reg.fileSize := by
  obtain ⟨⟨h₁, h₂⟩, h₃, -⟩ := isValid_iff.1 h
  simp only [units, List.mem_map, List.mem_range] at hu
  obtain ⟨n, hn, rfl⟩ := hu
  simp only [Reg.fileSize] at h₃ ⊢
  rw [UInt16.toNat_ofNat']
  omega

lemma fits_exec : RegRange.exec.fits = true := by decide

end RegRange

namespace Operand

lemma checkFits_of_isValid {op : Operand} (h : op.isValid = true) : op.range.checkFits = .ok () := by
  cases op with
  | reg r => exact RegRange.checkFits_of_isValid h
  | const _ => rfl
  | undef => rfl

lemma unit_lt_of_mem {op : Operand} (h : op.isValid = true) {u : Reg} (hu : u ∈ op.units) :
    u.unit.toNat < Reg.fileSize := by
  cases op with
  | reg r => exact RegRange.unit_lt_of_mem h hu
  | const _ => cases hu
  | undef => cases hu

end Operand

/-! ### Workable and regular instructions -/

/-- The instruction has no defect, its payload fits its opcode, a load from vector memory is not too
wide, and a message that returns a value has a place to put it. -/
structure Instruction.Workable (i : Instruction) : Prop where
  coherent : i.isCoherent = true
  valid : i.defect? = none
  narrow : ∀ g, i.vmemType? g ≠ none → ∀ d ∈ i.definitions, d.size ≤ 16
  returned : i.opcode = .sSendmsgRtnB32 ∨ i.opcode = .sSendmsgRtnB64 → i.definitions ≠ []

/-- The registers of the instruction have numbers, and a load from vector memory is not too wide. -/
structure Instruction.InBounds (i : Instruction) : Prop where
  operands : ∀ op ∈ i.operands, op.range.fits = true
  definitions : ∀ d ∈ i.definitions, d.fits = true
  narrow : ∀ g, i.vmemType? g ≠ none → ∀ d ∈ i.definitions, d.size ≤ 16

/-- The instruction has no defect, its payload fits its opcode, its destinations are not too wide, and
it has as many destinations as the analysis follows. -/
structure Instruction.Regular (i : Instruction) : Prop where
  coherent : i.isCoherent = true
  valid : i.defect? = none
  narrow : ∀ d ∈ i.definitions, d.size ≤ 16
  single : i.isSmem = true ∨ i.format = .flat → i.definitions.length ≤ 1
  returned : i.opcode = .sSendmsgRtnB32 ∨ i.opcode = .sSendmsgRtnB64 → i.definitions.length = 1

namespace Instruction

variable {i : Instruction} {s : Setting}

lemma defect?_eq_none_iff : i.defect? = none ↔ (∀ op ∈ i.operands, op.isValid = true)
    ∧ (∀ d ∈ i.definitions, d.isValid = true) ∧ i.payloadDefect? = none := by
  simp only [← List.all_eq_true]
  rw [defect?]
  split
  · rename_i hop
    rw [Bool.not_eq_true'] at hop
    simp [hop]
  split
  · rename_i hdef
    rw [Bool.not_eq_true'] at hdef
    simp [hdef]
  · rename_i hop hdef
    rw [Bool.not_eq_true', Bool.not_eq_false] at hop hdef
    simp [hop, hdef]

lemma Workable.operand (hi : i.Workable) {op : Operand} (hop : op ∈ i.operands) :
    op.isValid = true := (defect?_eq_none_iff.1 hi.valid).1 op hop

lemma Workable.definition (hi : i.Workable) {d : RegRange} (hd : d ∈ i.definitions) :
    d.isValid = true := (defect?_eq_none_iff.1 hi.valid).2.1 d hd

lemma Workable.payload (hi : i.Workable) : i.payloadDefect? = none :=
  (defect?_eq_none_iff.1 hi.valid).2.2

lemma Workable.inBounds (hi : i.Workable) : i.InBounds where
  operands _ hop := RegRange.checkFits_eq_ok.1 (Operand.checkFits_of_isValid (hi.operand hop))
  definitions _ hd := RegRange.fits_of_isValid (hi.definition hd)
  narrow := hi.narrow

lemma Regular.workable (hi : i.Regular) : i.Workable :=
  ⟨hi.coherent, hi.valid, fun _ _ => hi.narrow, fun ho hnil => by
    have := hi.returned ho
    rw [hnil] at this
    cases this⟩

/-- Taking over a wait changes nothing else. -/
lemma TakesOver.eq_withPayload {kept : Instruction} (h : i.TakesOver kept) :
    kept.opcode = i.opcode ∧ kept.definitions = i.definitions ∧ kept.operands = i.operands
      ∧ (kept.payload = i.payload
        ∨ ∃ n m : UInt8, i.payload = .interp n ∧ kept.payload = .interp m ∧ m ≤ n) := by
  rcases h with rfl | ⟨n, m, hn, hm, rfl⟩
  · exact ⟨rfl, rfl, rfl, .inl rfl⟩
  · exact ⟨rfl, rfl, rfl, .inr ⟨n, m, hn, rfl, hm⟩⟩

lemma TakesOver.isCoherent {kept : Instruction} (h : i.TakesOver kept) (hi : i.isCoherent = true) :
    kept.isCoherent = true := by
  rcases h with rfl | ⟨n, m, hn, -, rfl⟩
  · exact hi
  · have hfits : ∀ f, Payload.fits (.interp m) f = Payload.fits (.interp n) f := by
      intro f
      cases f <;> rfl
    simp only [Instruction.isCoherent, hn, ← hfits] at hi
    exact hi

lemma TakesOver.defect? {kept : Instruction} (h : i.TakesOver kept) (hi : i.defect? = none) :
    kept.defect? = none := by
  rcases h with rfl | ⟨n, m, hn, -, rfl⟩
  · exact hi
  · have := defect?_eq_none_iff.1 hi
    rw [defect?_eq_none_iff]
    simpa only [payloadDefect?, hn] using this

lemma Workable.takesOver (hi : i.Workable) {kept : Instruction} (h : i.TakesOver kept) :
    kept.Workable := by
  have hcoherent := h.isCoherent hi.coherent
  have hvalid := h.defect? hi.valid
  rcases h with rfl | ⟨n, m, hn, -, rfl⟩
  · exact hi
  · exact ⟨hcoherent, hvalid, hi.narrow, hi.returned⟩

lemma Regular.takesOver (hi : i.Regular) {kept : Instruction} (h : i.TakesOver kept) :
    kept.Regular := by
  have hcoherent := h.isCoherent hi.coherent
  have hvalid := h.defect? hi.valid
  rcases h with rfl | ⟨n, m, hn, -, rfl⟩
  · exact hi
  · exact ⟨hcoherent, hvalid, hi.narrow, hi.single, hi.returned⟩

lemma IsInserted.regular (h : i.IsInserted s) : i.Regular := by
  rcases h with ⟨w, rfl⟩ | ⟨w, rfl⟩ | ⟨-, rfl⟩
  · exact ⟨rfl, rfl, by simp [ofWait], fun h => by simp [ofWait], fun h => by simp [ofWait] at h⟩
  · exact ⟨rfl, rfl, by simp [ofDependencyWait], fun h => by simp [ofDependencyWait],
      fun h => by simp [ofDependencyWait] at h⟩
  · exact ⟨rfl, rfl, by simp [ofImmediate], fun h => by simp [ofImmediate],
      fun h => by simp [ofImmediate] at h⟩

end Instruction

/-! ### Waiting for workable instructions -/

namespace Generation

/-- Every vector memory access has a counter. -/
lemma counter?_vmemEvent (i : Instruction) (s : Setting) (type : Option VmemType) :
    ∃ c, s.generation.counter? (i.vmemEvent s type) = some c := by
  unfold Instruction.vmemEvent
  split
  · exact ⟨_, rfl⟩
  · split
    · rename_i hgen
      split
      · exact ⟨_, rfl⟩
      · exact ⟨.bvh, by simp [counter?, hgen]⟩
      · exact ⟨.sample, by simp [counter?, hgen]⟩
      · exact ⟨.sample, by simp [counter?, hgen]⟩
    · exact ⟨_, rfl⟩

/-- Vector memory does not count on the export counter. -/
lemma counter?_vmemEvent_ne_exp (i : Instruction) (s : Setting) (type : Option VmemType) :
    s.generation.counter? (i.vmemEvent s type) ≠ some .exp := by
  unfold Instruction.vmemEvent
  split
  · simp [counter?]
  · split
    · rename_i hgen
      split <;> simp [counter?, hgen]
    · simp [counter?]

end Generation

namespace Entry

/-- Only a load from vector memory that is too wide for the halves of another one faults. -/
lemma exists_permitsLoad_iff {e : Entry} {s : Setting} {i : Instruction} {type : VmemType} {j : Nat} :
    (∃ r, e.permitsLoad s i type j = .ok r)
      ↔ (i.vmemEvent s (some type) = .vmem → .vmem ∈ e.events → j < 16) := by
  obtain ⟨c, hc⟩ := Generation.counter?_vmemEvent i s (some type)
  -- No other event counts on the counter of the loads.
  have hsame : i.vmemEvent s (some type) = .vmem →
      ((e.events ∩ s.generation.eventsOn c == {i.vmemEvent s (some type)}) = true
        ↔ .vmem ∈ e.events) := by
    intro hev
    rw [hev] at hc ⊢
    cases hc
    have honly : ∀ ev, s.generation.counter? ev = some .vm ↔ ev = .vmem := by
      intro ev
      cases ev <;> simp [Generation.counter?]
      all_goals split <;> simp
    have hmem : ∀ ev, ev ∈ e.events ∩ s.generation.eventsOn .vm ↔ ev ∈ e.events ∧ ev = .vmem := by
      simp only [Flags.mem_inter, Generation.mem_eventsOn, honly, implies_true]
    rw [beq_iff_eq]
    refine ⟨fun h => ((hmem .vmem).1 (h ▸ EventSet.mem_singleton.2 rfl)).1,
      fun h => EventSet.ext fun ev => ?_⟩
    rw [hmem, EventSet.mem_singleton]
    exact ⟨And.right, fun heq => ⟨heq ▸ h, heq⟩⟩
  simp only [permitsLoad, Generation.counterOf_eq_ok hc, bind, Except.bind]
  split
  · rename_i hvmem
    have hin := (hsame hvmem.1).1 hvmem.2
    split
    · refine iff_of_false ?_ fun h => by have := h hvmem.1 hin; omega
      rintro ⟨_, h⟩
      cases h
    · exact iff_of_true ⟨_, rfl⟩ fun _ _ => by omega
  · rename_i hvmem
    exact iff_of_true ⟨_, rfl⟩ fun hev hin => absurd ⟨hev, (hsame hev).2 hin⟩ hvmem

lemma exists_overwriteWait_iff {e : Entry} {s : Setting} {i : Instruction} {r : Reg} {j : Nat} :
    (∃ w, e.overwriteWait s i r j = .ok w)
      ↔ ∀ type, i.vmemType? s.generation = some type → ∃ p, e.permitsLoad s i type j = .ok p := by
  rw [overwriteWait]
  cases htype : i.vmemType? s.generation with
  | none => exact iff_of_true ⟨_, rfl⟩ fun _ h => by cases h
  | some type =>
    simp only [Option.some.injEq, forall_eq']
    cases hp : e.permitsLoad s i type j with
    | error fault => exact iff_of_false (fun ⟨_, h⟩ => by cases h) fun ⟨_, h⟩ => by cases h
    | ok permitted => cases permitted <;> exact iff_of_true ⟨_, rfl⟩ ⟨_, rfl⟩

end Entry

namespace Context

variable {s : Setting} {i : Instruction} {c : Context}

lemma hazardWait_total (c : Context) (s : Setting) (hi : i.InBounds) :
    ∃ w, c.hazardWait s i = .ok w := by
  have hfits : (i.operands.map Operand.range ++ i.definitions).forM RegRange.checkFits
      = .ok () := by
    rw [forM_eq_ok]
    intro r hr
    rw [RegRange.checkFits_eq_ok]
    rcases List.mem_append.1 hr with hr | hr
    · obtain ⟨op, hop, rfl⟩ := List.mem_map.1 hr
      exact hi.operands op hop
    · exact hi.definitions r hr
  obtain ⟨writes, hwrites⟩ : ∃ writes, (i.definitions.mapM fun d =>
      d.units.zipIdx.mapM fun x => c.writeWait s i x.1 x.2) = .ok writes := by
    refine mapM_total fun d hd => mapM_total fun x hrj => ?_
    obtain ⟨r, j⟩ := x
    have hj : i.vmemType? s.generation ≠ none → j < 16 := by
      intro htype
      have h₁ := (List.mem_zipIdx hrj).2.1
      have h₂ := d.length_units_le
      have h₃ := UInt8.le_iff_toNat_le.1 (hi.narrow _ htype d hd)
      simp only [UInt8.reduceToNat] at h₃
      omega
    change ∃ w, c.writeWait s i r j = .ok w
    unfold writeWait
    split
    · exact Entry.exists_overwriteWait_iff.2 fun type htype => Entry.exists_permitsLoad_iff.2
        fun _ _ => hj (by simp [htype])
    · exact ⟨_, rfl⟩
  simp only [hazardWait, bind_eq_ok, pure_eq_ok]
  exact ⟨_, (), hfits, writes, hwrites, rfl⟩

lemma await_total (hc : c.Sound s.generation) (hi : i.InBounds) (q : Queue) :
    ∃ r, c.await s i q = .ok r := by
  obtain ⟨hazard, hhazard⟩ := hazardWait_total c s hi
  simp only [await, bind_eq_ok, pure_eq_ok]
  obtain ⟨c', hc'⟩ := settle_total (hc.deferBefore s i)
    ((c.deferBefore s i).coverFlat ((q.add (((c.drainBefore s i).both hazard).both
      (c.turnWait i))).both ((c.deferBefore s i).payment s i)).wait)
  exact ⟨_, hazard, hhazard, c', hc', rfl⟩

lemma Sound.awaited (hc : c.Sound s.generation) {c' : Context} {q q' : Queue}
    (h : Awaited s i c q c' q') : c'.Sound s.generation :=
  (hc.deferBefore s i).settle h.settled

lemma Sound.awaitedAll {c' : Context} {q q' : Queue} (h : AwaitedAll s c q c' q')
    (hc : c.Sound s.generation) : c'.Sound s.generation := by
  induction h with
  | none => exact hc
  | more h _ ih => exact ih (hc.awaited h)

end Context

namespace ClauseWrites

lemma hits_total (written : ClauseWrites) (units : List Reg)
    (h : ∀ u ∈ units, u.unit.toNat < Reg.fileSize) : ∃ b, written.hits units = .ok b := by
  induction units with
  | nil => exact ⟨_, rfl⟩
  | cons u rest ih =>
    have hu : ¬Reg.fileSize ≤ u.unit.toNat := Nat.not_le.2 (h u (by simp))
    rw [hits, if_neg hu]
    split
    · exact ⟨_, rfl⟩
    · exact ih fun v hv => h v (List.mem_cons_of_mem _ hv)

lemma extend?_total (written : ClauseWrites) {i : Instruction} (hi : i.defect? = none) :
    ∃ r, written.extend? i = .ok r := by
  obtain ⟨b, hb⟩ := written.hits_total (i.operands.flatMap Operand.units) fun u hu => by
    obtain ⟨op, hop, hu⟩ := List.mem_flatMap.1 hu
    exact Operand.unit_lt_of_mem ((Instruction.defect?_eq_none_iff.1 hi).1 op hop) hu
  have hdefs : ((i.definitions.flatMap RegRange.units).any
      fun r => decide (Reg.fileSize ≤ r.unit.toNat)) = false := by
    rw [List.any_eq_false]
    intro u hu
    obtain ⟨d, hd, hu⟩ := List.mem_flatMap.1 hu
    simpa using RegRange.unit_lt_of_mem ((Instruction.defect?_eq_none_iff.1 hi).2.1 d hd) hu
  simp only [extend?, hb, bind, Except.bind, hdefs]
  cases b <;> exact ⟨_, rfl⟩

end ClauseWrites

namespace Context

variable {s : Setting} {i : Instruction} {c : Context}

/-- The rest of a clause can be waited for if each of its instructions can, from where the others lead. -/
lemma awaitRest_exists (good : Instruction → Prop) (P : Context → Queue → Prop)
    (hawait : ∀ {c : Context} {q : Queue} {j : Instruction}, good j → P c q →
      ∃ c' q', c.await s j q = .ok (c', q') ∧ P c' q') {rest : List Instruction}
    (hvalid : ∀ j ∈ rest, j.defect? = none) (hrest : ∀ j ∈ rest.takeWhile i.sharesClause, good j)
    (written : ClauseWrites) {q : Queue} (hc : P c q) :
    ∃ n c' q', awaitRest s i rest written c q = .ok (n, c', q') ∧ P c' q' := by
  induction rest generalizing c written q with
  | nil => exact ⟨_, _, _, rfl, hc⟩
  | cons next rest ih =>
    rw [awaitRest]
    split
    · rename_i hshares
      rw [List.takeWhile_cons_of_pos hshares] at hrest
      obtain ⟨found, hfound⟩ := written.extend?_total (hvalid next (by simp))
      simp only [hfound, bind, Except.bind]
      cases found with
      | none => exact ⟨_, _, _, rfl, hc⟩
      | some written' =>
        obtain ⟨c₁, q₁, hnext, hc₁⟩ := hawait (hrest next (by simp)) hc
        obtain ⟨n, c₂, q₂, hlater, hc₂⟩ := ih (fun j hj => hvalid j (List.mem_cons_of_mem _ hj))
          (fun j hj => hrest j (List.mem_cons_of_mem _ hj)) written' hc₁
        simp only [hnext, hlater]
        exact ⟨_, _, _, rfl, hc₂⟩
    · exact ⟨_, _, _, rfl, hc⟩

lemma awaitClause_exists (good : Instruction → Prop) (P : Context → Queue → Prop)
    (hawait : ∀ {c : Context} {q : Queue} {j : Instruction}, good j → P c q →
      ∃ c' q', c.await s j q = .ok (c', q') ∧ P c' q') {rest : List Instruction}
    (hi : i.defect? = none) (hvalid : ∀ j ∈ rest, j.defect? = none)
    (hrest : ∀ j ∈ rest.takeWhile i.sharesClause, good j) {q : Queue} (hc : P c q) :
    ∃ n c' q', c.awaitClause s i rest q = .ok (n, c', q') ∧ P c' q' := by
  rw [awaitClause]
  split
  · obtain ⟨written, hw⟩ := ClauseWrites.extend?_total [] hi
    simp only [hw, bind, Except.bind]
    exact awaitRest_exists good P hawait hvalid hrest _ hc
  · exact ⟨_, _, _, rfl, hc⟩

end Context

/-! ### Issuing workable instructions -/

/-- The effect does not fail. -/
def Effect.Applies : Effect → Prop
  | .track range _ _ _ _ => range.fits = true
  | .fail _ => False
  | .issue _ _ | .flat => True

namespace Instruction

variable {i : Instruction} {s : Setting}

/-- The event of an export to a target that exists. -/
lemma eventOf_total {dest : UInt8} (h : Export.isTarget dest = true) :
    ∃ ev, Export.eventOf dest = .ok ev := by
  rw [Export.eventOf]
  split
  · exact ⟨_, rfl⟩
  split
  · exact ⟨_, rfl⟩
  split
  · exact ⟨_, rfl⟩
  split
  · exact ⟨_, rfl⟩
  split
  · exact ⟨_, rfl⟩
  rename_i h₁ h₂ h₃ h₄ h₅
  simp only [Export.isTarget, Bool.or_eq_true, Bool.and_eq_true, decide_eq_true_eq,
    UInt8.le_iff_toNat_le, UInt8.reduceToNat] at h h₁ h₂ h₅
  rw [← UInt8.toNat_inj] at h₃
  rw [not_or, ← UInt8.toNat_inj, ← UInt8.toNat_inj] at h₄
  simp only [UInt8.reduceToNat] at h₃ h₄
  omega

lemma export_of_workable (hi : i.Workable) {data : Export} (hp : i.payload = .exp data) :
    Export.isTarget data.dest = true ∧ ∀ n < 4, data.operandOf n < i.operands.length := by
  have h := hi.payload
  simp only [payloadDefect?, hp] at h
  by_cases htarget : Export.isTarget data.dest = true
  · refine ⟨htarget, fun n hn => ?_⟩
    rw [Export.operandOf]
    by_cases hcomp : data.compressed = true
    · simp only [htarget, hcomp, if_true, Bool.not_true, Bool.false_eq_true, if_false] at h ⊢
      grind
    · simp only [htarget, hcomp, Bool.not_true, Bool.false_eq_true, if_false] at h ⊢
      grind
  · simp [htarget] at h

lemma Workable.not_isIncomplete (hi : i.Workable) : ¬i.IsIncomplete := by
  intro h
  rw [IsIncomplete] at h
  split at h
  · rename_i data hp
    obtain ⟨htarget, hops⟩ := export_of_workable hi hp
    rcases h with ⟨fault, hfault⟩ | ⟨n, hn, hlen⟩
    · obtain ⟨ev, hev⟩ := eventOf_total htarget
      rw [hev] at hfault
      cases hfault
    · exact absurd (hops n hn) (Nat.not_lt.2 hlen)
  · rename_i sync hp
    have hdefect := hi.payload
    simp [payloadDefect?, hp, h] at hdefect
  · exact hi.returned h.1 h.2
  · exact h

/-- No effect of a workable instruction fails. -/
lemma Workable.applies (hi : i.Workable) : ∀ e ∈ i.effects s, e.Applies := by
  intro e he
  cases mayStart_of_mem he with
  | access | event | flat => trivial
  | load _ hd | write hd => exact hi.inBounds.definitions _ hd
  | read hr =>
    rcases hr with rfl | hr
    · exact RegRange.fits_exec
    · exact hi.inBounds.operands _ hr
  | fail h => exact hi.not_isIncomplete h

end Instruction

namespace Context

variable {s : Setting} {i : Instruction} {c : Context}

lemma track_total {range : RegRange} (h : range.fits = true) (g : Generation) (ev : Event)
    (blocksReads : Bool) (types : VmemTypeSet) (halves : BitVec 32) :
    ∃ c', c.track g range ev blocksReads types halves = .ok c' :=
  ⟨_, track_eq_ok.2 ⟨RegRange.checkFits_eq_ok.2 h, rfl⟩⟩

lemma apply_total (hc : c.Sound s.generation) {effect : Effect} (he : effect.Applies) :
    ∃ c', c.apply s i effect = .ok c' := by
  cases effect with
  | issue ev sync => exact issue_total hc ev sync (some i)
  | track range ev blocksReads types halves => exact track_total he _ _ _ _ _
  | flat => exact ⟨_, rfl⟩
  | fail fault => cases he

/-- What an instruction starts does not depend on where it is started. -/
lemma applies_of_start {c' : Context} (h : c.start s i = .ok c') : ∀ e ∈ i.effects s, e.Applies := by
  rw [start] at h
  generalize i.effects s = effects at h
  induction effects generalizing c with
  | nil => exact fun e he => by cases he
  | cons effect rest ih =>
    rw [List.foldlM_cons, bind_eq_ok] at h
    obtain ⟨c₁, hfirst, hrest⟩ := h
    intro e he
    rcases List.mem_cons.1 he with rfl | he
    · cases e with
      | track range ev blocksReads types halves =>
        exact RegRange.checkFits_eq_ok.1 (track_eq_ok.1 hfirst).1
      | fail fault => cases hfirst
      | issue ev sync => trivial
      | flat => trivial
    · exact ih hrest e he

lemma start_total (hc : c.Sound s.generation) (hi : ∀ e ∈ i.effects s, e.Applies) :
    ∃ c', c.start s i = .ok c' := by
  obtain ⟨c', hc', -⟩ := foldlM_total (l := i.effects s) (f := fun c e => c.apply s i e)
    (fun c : Context => c.Sound s.generation)
    (fun e he c hc => by
      obtain ⟨c', hc'⟩ := apply_total (i := i) hc (hi e he)
      exact ⟨c', hc', hc.apply hc'⟩) hc
  exact ⟨c', hc'⟩

end Context

/-! ### Blocks of workable instructions -/

namespace Walk

variable {s : Setting} {i : Instruction} {rest : List Instruction} {w : Walk}

lemma step_total (hw : w.context.Sound s.generation) (hi : i.Workable)
    (hrest : ∀ j ∈ rest, j.Workable) : ∃ r, step s i rest w = .ok r := by
  rw [step]
  split
  · exact ⟨_, rfl⟩
  obtain ⟨⟨c₁, q₁⟩, hawait⟩ := Context.await_total hw hi.inBounds (w.queue.both (.ofInstruction i))
  have hc₁ := hw.awaited (Context.awaited_of_await hawait)
  obtain ⟨left, c₂, q₂, hclause, hc₂⟩ := Context.awaitClause_exists
    Instruction.Workable (fun c _ => c.Sound s.generation)
    (fun {c q j} hj hc => by
      obtain ⟨⟨c', q'⟩, h⟩ := Context.await_total hc hj.inBounds q
      exact ⟨c', q', h, hc.awaited (Context.awaited_of_await h)⟩)
    hi.valid (fun j hj => (hrest j hj).valid)
    (fun j hj => hrest j ((List.takeWhile_sublist _).subset hj)) hc₁ (q := q₁)
  obtain ⟨c₃, hstart⟩ := Context.start_total hc₂ hi.applies
  obtain ⟨c₃', hstart'⟩ := Context.start_total hc₁ hi.applies
  simp only [hawait, bind, Except.bind, pure, Except.pure]
  -- The instruction may open a clause or not, and it may stay or not.
  split
  · simp only [hclause, hstart]
    split <;> exact ⟨_, rfl⟩
  · simp only [hstart']
    split <;> exact ⟨_, rfl⟩

lemma step_sound {out : List Instruction} {w' : Walk} (h : step s i rest w = .ok (out, w'))
    (hw : w.context.Sound s.generation) : w'.context.Sound s.generation := by
  rcases step_cases h with ⟨-, -, hc, -⟩ | ⟨-, c₁, q₁, c₂, q₂, c₃, hawait, hclause, hstart, h⟩
  · rw [hc]
    exact hw
  · have hc₃ := ((hw.awaited hawait).awaitedAll hclause).start hstart
    rcases h with ⟨-, -, hc, -⟩ | ⟨-, _, _, -, -, hc, -⟩
    · rw [hc]
      exact hc₃
    · rw [hc]
      exact hc₃.deferAfter s i

lemma steps_total {is : List Instruction} (hw : w.context.Sound s.generation)
    (his : ∀ i ∈ is, i.Workable) : ∃ r, steps s is w = .ok r := by
  induction is generalizing w with
  | nil => exact ⟨_, rfl⟩
  | cons i rest ih =>
    obtain ⟨⟨emitted, w₁⟩, hstep⟩ := step_total hw (his i (by simp))
      fun j hj => his j (List.mem_cons_of_mem _ hj)
    obtain ⟨⟨later, w₂⟩, hrest⟩ := ih (step_sound hstep hw)
      fun j hj => his j (List.mem_cons_of_mem _ hj)
    simp only [steps, hstep, hrest, bind, Except.bind]
    exact ⟨_, rfl⟩

lemma steps_sound {is out : List Instruction} {w' : Walk} (h : steps s is w = .ok (out, w'))
    (hw : w.context.Sound s.generation) : w'.context.Sound s.generation := by
  induction is generalizing w out with
  | nil =>
    cases h
    exact hw
  | cons i rest ih =>
    obtain ⟨emitted, w₁, later, hstep, hrest, -⟩ := steps_cons h
    exact ih hrest (step_sound hstep hw)

end Walk

/-- The view that looks at nothing: it gives the edits of a walk. -/
def editView (s : Setting) : View s Unit where
  Good i := i.isCoherent = true
  Run _ _ _ := True
  Rel _ _ _ := True
  Ready _ _ _ := True
  coherent h := h
  rel_mono _ _ := trivial
  ready_mono _ _ := trivial
  settle _ _ _ := trivial
  defer _ _ := trivial
  ready _ _ _ := trivial
  take _ _ _ := ⟨(), trivial, fun _ _ _ => trivial⟩
  putWait _ _ := ⟨(), trivial, fun _ _ _ => trivial, fun _ _ _ => trivial⟩
  putOther _ _ := ⟨(), trivial, fun _ _ _ => trivial, fun _ _ _ => trivial⟩
  keep _ _ _ _ _ _ := ⟨(), trivial, trivial⟩

namespace Block

variable {s : Setting} {b b' : Block} {c c' : Context}

lemma insertWaits_total (hc : c.Sound s.generation) (hb : ∀ i ∈ b.instructions, i.Workable) :
    ∃ r, b.insertWaits s c = .ok r := by
  obtain ⟨⟨code, w⟩, hsteps⟩ := Walk.steps_total (w := { context := c }) hc hb
  exact ⟨(_, _), insertWaits_eq_ok.2 ⟨code, w, hsteps, rfl, rfl⟩⟩

lemma insertWaits_sound (h : b.insertWaits s c = .ok (b', c')) (hc : c.Sound s.generation) :
    c'.Sound s.generation := by
  obtain ⟨code, w, hsteps, -, rfl⟩ := insertWaits_eq_ok.1 h
  exact Walk.steps_sound hsteps hc

/-- The instructions of a rewritten block have been put in, or were there before. -/
lemma mem_insertWaits (h : b.insertWaits s c = .ok (b', c'))
    (hb : ∀ i ∈ b.instructions, i.isCoherent = true) {i : Instruction}
    (hi : i ∈ b'.instructions) :
    i.IsInserted s ∨ ∃ j ∈ b.instructions, j.isDirective s = false ∧ j.TakesOver i := by
  obtain ⟨es, -, hbefore, hafter, hlegal, -⟩ :=
    (editView s).insertWaits (x := ()) h hb trivial
  rw [← hafter] at hi
  obtain ⟨e, he, hi⟩ := List.mem_flatMap.1 hi
  refine (Edit.mem_after (hlegal e he) hi).imp id ?_
  rintro ⟨j, hj, hkeep⟩
  exact ⟨j, hbefore ▸ List.mem_flatMap.2 ⟨e, he, hj⟩, hkeep⟩

/-- What holds of the instructions of a block, of all directives that are put in, and of an instruction
that takes over a wait, holds of the instructions of the rewritten block. -/
lemma forall_insertWaits {P : Instruction → Prop} (hinserted : ∀ i, i.IsInserted s → P i)
    (htakes : ∀ i kept, P i → i.TakesOver kept → P kept) (hcoherent : ∀ i, P i → i.isCoherent = true)
    (h : b.insertWaits s c = .ok (b', c')) (hb : ∀ i ∈ b.instructions, P i) :
    ∀ i ∈ b'.instructions, P i := by
  intro i hi
  rcases mem_insertWaits h (fun j hj => hcoherent j (hb j hj)) hi with hin | ⟨j, hj, -, hkept⟩
  · exact hinserted i hin
  · exact htakes j i (hb j hj) hkept

lemma coherent_insertWaits (h : b.insertWaits s c = .ok (b', c'))
    (hb : ∀ i ∈ b.instructions, i.isCoherent = true) :
    ∀ i ∈ b'.instructions, i.isCoherent = true :=
  forall_insertWaits (fun _ hi => hi.regular.coherent) (fun _ _ hi hkept => hkept.isCoherent hi)
    (fun _ => id) h hb

lemma workable_insertWaits (h : b.insertWaits s c = .ok (b', c'))
    (hb : ∀ i ∈ b.instructions, i.Workable) : ∀ i ∈ b'.instructions, i.Workable :=
  forall_insertWaits (fun _ hi => hi.regular.workable) (fun _ _ hi => hi.takesOver)
    (fun _ hi => hi.coherent) h hb

lemma regular_insertWaits (h : b.insertWaits s c = .ok (b', c'))
    (hb : ∀ i ∈ b.instructions, i.Regular) : ∀ i ∈ b'.instructions, i.Regular :=
  forall_insertWaits (fun _ hi => hi.regular) (fun _ _ hi => hi.takesOver) (fun _ hi => hi.coherent)
    h hb

end Block

/-! ### The start of the program -/

namespace Program

variable {p : Program} {s : Setting}

lemma startContext_total (hv : p.Valid) :
    ∃ c, p.startContext s = .ok c ∧ c.Sound s.generation := by
  refine foldlM_total (fun c : Context => c.Sound s.generation) (fun r hr c hc => ?_) ?_
  · obtain ⟨c₁, hc₁⟩ := Context.issue_total hc .vmem {} none
    obtain ⟨c₂, hc₂⟩ := Context.track_total (c := c₁)
      (RegRange.fits_of_isValid (hv.argument r hr)) s.generation .vmem true {.plain}
      (BitVec.allOnes 32)
    simp only [hc₁, bind, Except.bind]
    exact ⟨c₂, hc₂, (hc.issue hc₁).track hc₂⟩
  · split
    · exact (Context.sound_empty _).recordEvent _ _ _
    · exact Context.sound_empty _

end Program

end GpuWaits
