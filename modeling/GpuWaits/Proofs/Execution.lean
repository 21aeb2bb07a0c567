/-
# What the checker says about every path

Along a path every asynchronous access is one record of its own, with the exact number of operations
that issued behind it (`Record`, `Machine`).  The checker keeps one number for all accesses that start
at the same place, stops counting at the horizon, and takes the least number where paths meet.  Still,
where it has come to rest, what it knows at the entry of a block bounds every record of every path that
leads there (`Checker.Bounds`).  So a program in which it finds nothing is free of hazards on every
path: `Checker.safe_of_check`.
-/
import GpuWaits.Proofs.Converge
import GpuWaits.Proofs.Paths

namespace GpuWaits

/-! ### Executing a path -/

/-- An asynchronous access of a register unit, as it is in flight on a path. -/
structure Record where
  /-- Where it started, the unit and the event. -/
  key : AccessKey
  /-- The access writes the unit. -/
  write : Bool
  /-- The counter that falls when it completes. -/
  counter : Counter
  /-- The access completes in order. -/
  ordered : Bool
  /-- The number of operations of its event that issued behind it and complete in order. -/
  behind : Nat
deriving DecidableEq

namespace Record

/-- The record once an event has issued. -/
def issue (r : Record) (inOrder : Event → Bool) (ev : Event) : Record :=
  if inOrder ev = true ∧ r.key.event = ev ∧ r.ordered = true then { r with behind := r.behind + 1 }
  else r

/-- The record once some events have issued. -/
def issues (r : Record) (inOrder : Event → Bool) (evs : List Event) : Record :=
  evs.foldl (fun r ev => r.issue inOrder ev) r

/-- A wait completes the access if it leaves no more operations than have issued behind. -/
def isComplete (r : Record) (w : Wait) : Bool :=
  w.isSet r.counter && decide ((w.get r.counter).toNat ≤ r.behind)

/-- The record of an access that an instruction starts. -/
def ofStarted (g : Generation) (place : Place) (i : Instruction) (unit : Reg) (a : StartedAccess) :
    Record where
  key := ⟨place, unit, a.event⟩
  write := a.write
  counter := (g.counter? a.event).getD .exp
  ordered := i.inOrder g a.event
  behind := 0

/-- The record of a unit of an argument. -/
def ofArgument (index : Nat) (unit : Reg) : Record where
  key := ⟨.argument index, unit, .vmem⟩
  write := true
  counter := .vm
  ordered := true
  behind := 0

end Record

/-- The accesses in flight on a path. -/
abbrev Machine := List Record

namespace Machine

/-- The accesses that a wait leaves in flight. -/
def wait (x : Machine) (w : Wait) : Machine := x.filter fun r => !r.isComplete w

/-- Executes an instruction: its own wait, the events that it raises and the accesses that it
starts. -/
def step (s : Setting) (x : Machine) (place : Place) (i : Instruction) : Machine :=
  (x.wait (Checker.ownWait i)).map (·.issues (i.inOrder s.generation) (i.raised s))
    ++ (i.leaves s).map fun leaf => .ofStarted s.generation place i leaf.1 leaf.2

/-- Executes the instructions of block `block` from place `index` on. -/
def run (s : Setting) (block : Nat) : Nat → List Instruction → Machine → Machine
  | _, [], x => x
  | index, i :: rest, x => run s block (index + 1) rest (step s x (.code block index) i)

/-- The accesses that are in flight when the program starts. -/
def start (p : Program) : Machine :=
  p.pendingVmem.zipIdx.foldl (fun x argument =>
    x.map (·.issue (fun _ => true) .vmem)
      ++ argument.1.units.map (.ofArgument argument.2)) []

/-- The accesses in flight at the end of a path. -/
def along (p : Program) : List Nat → Machine :=
  p.along (fun n b x => run (Checker.setting p) n 0 b.instructions x) (start p)

end Machine

/-- An instruction leaves the program.  Under the opcode of the jump a wait is still a wait. -/
def Instruction.isLeave (i : Instruction) : Bool :=
  i.opcode == .sSetpcB64 && !(i.payload matches .wait _)

/-- The instruction meets no access in flight that it could get in the way of. -/
structure Machine.Safe (s : Setting) (i : Instruction) (x : Machine) : Prop where
  started : ∃ st, i.started s = .ok st
  reads : ∀ r ∈ x, r.write = true → ∀ op ∈ i.operands, r.key.unit ∉ op.units
  writes : ∀ r ∈ x, r.write = false → ∀ d ∈ i.definitions, r.key.unit ∉ d.units
  overwrites : i.writesLate = false →
    ∀ r ∈ x, r.write = true → ∀ d ∈ i.definitions, r.key.unit ∉ d.units
  leaves : i.isLeave = true → x = []

/-! ### Reads and writes -/

namespace Instruction

variable {i : Instruction} {s : Setting}

/-- Whether an access writes its registers can be told by its event. -/
lemma write_of_started {st : Started} (h : i.started s = .ok st) {a : StartedAccess}
    (ha : a ∈ st.accesses) : a.write = !a.event.reads := by
  cases mayFollow_of_mem h ha with
  | write _ _ hreads | read _ _ hreads =>
    rw [hreads]
    rfl

lemma write_of_leaves {leaf : Reg × StartedAccess} (h : leaf ∈ i.leaves s) :
    leaf.2.write = !leaf.2.event.reads := by
  rw [leaves] at h
  split at h
  · rename_i st hst
    obtain ⟨a, ha, h⟩ := List.mem_flatMap.1 h
    obtain ⟨u, -, rfl⟩ := List.mem_map.1 h
    exact write_of_started hst ha
  · cases h

end Instruction

/-! ### What the checker knows bounds the records -/

/-- The record is of the kind of the access. -/
structure Record.Like (r : Record) (a : InFlight) : Prop where
  write : r.write = a.write
  counter : r.counter = a.counter
  ordered : r.ordered = a.ordered

lemma Record.issue_le {r : Record} {a : InFlight} {g : Generation} {k : AccessKey}
    (hk : r.key = k) (hlike : r.Like a) (hle : a.younger.toNat ≤ r.behind)
    (inOrder : Event → Bool) (ev : Event) :
    (a.issue g k inOrder ev).younger.toNat ≤ (r.issue inOrder ev).behind := by
  rw [InFlight.issue, Record.issue, hk, hlike.ordered]
  split
  · rw [Generation.oneMore_toNat]
    split <;> dsimp only <;> omega
  · exact hle

/-- Events move the record away at least as far as the access. -/
lemma Record.issues_le {r : Record} {a : InFlight} {g : Generation} {k : AccessKey}
    (hk : r.key = k) (hlike : r.Like a) (hle : a.younger.toNat ≤ r.behind)
    (inOrder : Event → Bool) (evs : List Event) :
    (a.issues g k inOrder evs).younger.toNat ≤ (r.issues inOrder evs).behind
      ∧ (r.issues inOrder evs).key = k ∧ (r.issues inOrder evs).Like a := by
  induction evs generalizing r a with
  | nil => exact ⟨hle, hk, hlike⟩
  | cons ev evs ih =>
    have hag := InFlight.aged_issue a g k inOrder ev
    have hkey : (r.issue inOrder ev).key = k ∧ (r.issue inOrder ev).Like (a.issue g k inOrder ev) := by
      rw [Record.issue]
      split
      · exact ⟨hk, hlike.write.trans hag.write.symm, hlike.counter.trans hag.counter.symm,
          hlike.ordered.trans hag.ordered.symm⟩
      · exact ⟨hk, hlike.write.trans hag.write.symm, hlike.counter.trans hag.counter.symm,
          hlike.ordered.trans hag.ordered.symm⟩
    obtain ⟨h₁, h₂, h₃⟩ := ih hkey.1 hkey.2 (issue_le hk hlike hle inOrder ev)
    exact ⟨h₁, h₂, h₃.write.trans hag.write, h₃.counter.trans hag.counter,
      h₃.ordered.trans hag.ordered⟩

namespace Checker

variable {p : Program} {q q' : Pending} {x : Machine} {r : Record} {y : Option InFlight}
  {b : Block} {n m : Nat} {i : Instruction}

/-- What the checker knows about the accesses of its key bounds the record: they are of its kind, they
may touch the current lanes, and no more operations are known to be behind them. -/
structure Held (p : Program) (y : Option InFlight) (r : Record) : Prop where
  like : r.Like (kind p r.key)
  seen : seen y = true
  rank_le : rank y ≤ r.behind

/-- The state of the checker bounds all records. -/
def Bounds (p : Program) (q : Pending) (x : Machine) : Prop := ∀ r ∈ x, Held p q[r.key]? r

lemma Held.exists_like (h : Held p y r) (hy : OfKind p.config.generation (kind p r.key) y) :
    ∃ a, y = some a ∧ r.Like a ∧ a.lanes = true ∧ a.younger.toNat ≤ r.behind := by
  obtain ⟨a, rfl, hl⟩ := exists_of_seen h.seen
  have hlike := (hy a rfl).1
  exact ⟨a, rfl, ⟨h.like.write.trans hlike.write.symm, h.like.counter.trans hlike.counter.symm,
    h.like.ordered.trans hlike.ordered.symm⟩, hl, h.rank_le⟩

/-- A wait that leaves the record in flight leaves the access in flight. -/
lemma Held.not_completes (h : Held p y r) {a : InFlight} (ha : y = some a) (hlike : r.Like a)
    {w : Wait} (hnot : r.isComplete w = false) : ¬w.Completes a := by
  rintro ⟨hset, hle⟩
  have hrank := h.rank_le
  rw [ha] at hrank
  have hcomplete : r.isComplete w = true := by
    rw [Record.isComplete, hlike.counter, hset, Bool.true_and]
    exact decide_eq_true (Nat.le_trans (UInt16.le_iff_toNat_le.1 hle) hrank)
  rw [hnot] at hcomplete
  cases hcomplete

/-- An access that has just started bounds every record of its key. -/
lemma Held.of_new {a : InFlight} (h : Held p y r) (hl : a.lanes = true) (hz : a.younger = 0) :
    Held p (some a) r :=
  ⟨h.like, hl, by simp [rank, hz]⟩

lemma Held.issues (h : Held p y r) (hy : OfKind p.config.generation (kind p r.key) y)
    (inOrder : Event → Bool) (evs : List Event) :
    (r.issues inOrder evs).key = r.key
      ∧ Held p (y.map (·.issues p.config.generation r.key inOrder evs)) (r.issues inOrder evs) := by
  obtain ⟨a, rfl, hlike, hl, hle⟩ := h.exists_like hy
  obtain ⟨hissues, hkey, hlike'⟩ :=
    Record.issues_le (g := p.config.generation) rfl hlike hle inOrder evs
  have hkind := (hy a rfl).1
  have hag := InFlight.aged_issues a p.config.generation r.key inOrder evs
  refine ⟨hkey, ?_, hag.lanes.trans hl, hissues⟩
  rw [hkey]
  exact ⟨hlike'.write.trans hkind.write, hlike'.counter.trans hkind.counter,
    hlike'.ordered.trans hkind.ordered⟩

/-- A step keeps bounding a record that it leaves in flight. -/
lemma Held.carryStep {place : Place} (h : Held p y r)
    (hy : OfKind p.config.generation (kind p r.key) y) (hnot : r.isComplete (ownWait i) = false) :
    (r.issues (i.inOrder (setting p).generation) (i.raised (setting p))).key = r.key
      ∧ Held p (carryStep (setting p) r.key place i y)
        (r.issues (i.inOrder (setting p).generation) (i.raised (setting p))) := by
  obtain ⟨hkey, hheld⟩ :=
    h.issues hy (i.inOrder (setting p).generation) (i.raised (setting p))
  refine ⟨hkey, ?_⟩
  rw [Checker.carryStep]
  cases hf : fresh (setting p) place i r.key with
  | some new =>
    obtain ⟨leaf, -, -, rfl⟩ := newAmong_eq_some hf
    exact hheld.of_new rfl rfl
  | none =>
    obtain ⟨a, rfl, hlike, -, -⟩ := h.exists_like hy
    have hn := h.not_completes rfl hlike hnot
    simp only [Option.none_or, Option.filter_some, hn, decide_false, Bool.not_false, if_true]
    exact hheld

/-- What the instruction starts is bounded from the outset. -/
lemma held_ofStarted (hb : p.blocks[n]? = some b) (hi : b.instructions[m]? = some i)
    {leaf : Reg × StartedAccess} (hleaf : leaf ∈ i.leaves (setting p)) (y : Option InFlight) :
    Held p (carryStep (setting p) ⟨.code n m, leaf.1, leaf.2.event⟩ (.code n m) i y)
      (.ofStarted (setting p).generation (.code n m) i leaf.1 leaf.2) := by
  have hne : fresh (setting p) (.code n m) i ⟨.code n m, leaf.1, leaf.2.event⟩ ≠ none :=
    newAmong_ne_none hleaf
  cases hf : fresh (setting p) (.code n m) i ⟨.code n m, leaf.1, leaf.2.event⟩ with
  | none => exact absurd hf hne
  | some a =>
    obtain ⟨leaf', hleaf', hkey, rfl⟩ := newAmong_eq_some hf
    have hev : leaf'.2.event = leaf.2.event := (congrArg AccessKey.event hkey).symm
    have hnew : newAccess (setting p).generation i leaf'.2
        = newAccess (setting p).generation i leaf.2 := by
      rw [newAccess, newAccess, hev, Instruction.write_of_leaves hleaf',
        Instruction.write_of_leaves hleaf, hev]
    have hlike := (ofKind_fresh hb hi _ hf).1
    rw [hnew] at hlike
    refine ⟨⟨hlike.write, hlike.counter, hlike.ordered⟩, ?_, ?_⟩ <;> rw [carryStep, hf]
    · rfl
    · exact Nat.zero_le _

lemma Kindly.step {found : List Finding} (hq : Kindly p q) (hb : p.blocks[n]? = some b)
    (hi : b.instructions[m]? = some i)
    (h : step (setting p) q (.code n m) i = .ok (q', found)) : Kindly p q' := by
  intro k
  rw [getElem?_step_eq h]
  exact (hq k).carryStep hb hi

/-- A step of the checker bounds a step of the execution. -/
lemma Bounds.step {found : List Finding} (h : Bounds p q x) (hq : Kindly p q)
    (hb : p.blocks[n]? = some b) (hi : b.instructions[m]? = some i)
    (hstep : step (setting p) q (.code n m) i = .ok (q', found)) :
    Bounds p q' (x.step (setting p) (.code n m) i) := by
  intro r hr
  rw [getElem?_step_eq hstep]
  rcases List.mem_append.1 hr with hr | hr
  · obtain ⟨r₀, hr₀, rfl⟩ := List.mem_map.1 hr
    obtain ⟨hmem, hnot⟩ := List.mem_filter.1 hr₀
    obtain ⟨hkey, hheld⟩ := (h r₀ hmem).carryStep (i := i) (hq r₀.key) (by simpa using hnot)
    rw [hkey]
    exact hheld
  · obtain ⟨leaf, hleaf, rfl⟩ := List.mem_map.1 hr
    exact held_ofStarted hb hi hleaf _

/-! ### An instruction that the checker passes is safe -/

lemma Bounds.exists_wait (h : Bounds p q x) (hq : Kindly p q) {w : Wait} (hr : r ∈ x.wait w) :
    ∃ a, (q.wait w)[r.key]? = some a ∧ r.Like a ∧ a.lanes = true := by
  obtain ⟨hmem, hnot⟩ := List.mem_filter.1 hr
  obtain ⟨a, ha, hlike, hl, -⟩ := (h r hmem).exists_like (hq r.key)
  exact ⟨a, Pending.getElem?_wait.2 ⟨ha, (h r hmem).not_completes ha hlike (by simpa using hnot)⟩,
    hlike, hl⟩

/-- What it means that an instruction does not run into an access. -/
lemma conflicts_eq_nil {k : AccessKey} {a : InFlight} (h : conflicts i k a = []) :
    (a.write = true → ∀ op ∈ i.operands, k.unit ∉ op.units)
      ∧ (a.write = false ∨ i.writesLate = false → ∀ d ∈ i.definitions, k.unit ∉ d.units) := by
  obtain ⟨hreads, hwrites⟩ := List.append_eq_nil_iff.1 h
  refine ⟨fun hw => by simpa [hw] using hreads, fun hor => ?_⟩
  rcases hor with hw | hlate
  · simpa [hw] using hwrites
  · cases hw : a.write <;> simpa [hw, hlate] using hwrites

/-- Where the checker finds nothing, no access in flight gets in the way. -/
lemma Bounds.safe (h : Bounds p q x) (hq : Kindly p q) (hv : i.defect? = none) {place : Place}
    (hstep : Checker.step (setting p) q place i = .ok (q', [])) :
    Machine.Safe (setting p) i (x.wait (ownWait i)) := by
  by_cases hp : ∃ w, i.payload = .wait w
  · -- A wait has no operands and no destinations.
    obtain ⟨w, hp⟩ := hp
    have hnone := (Instruction.defect?_eq_none_iff.1 hv).2.2
    simp only [Instruction.payloadDefect?, hp, ite_eq_left_iff, Bool.and_eq_true,
      List.isEmpty_iff] at hnone
    obtain ⟨hops, hdefs⟩ : i.operands = [] ∧ i.definitions = [] := by
      by_contra hne
      cases hnone hne
    exact
      { started := ⟨{}, by rw [Instruction.started, hp]⟩
        reads := by simp [hops]
        writes := by simp [hdefs]
        overwrites := by simp [hdefs]
        leaves := by simp [Instruction.isLeave, hp] }
  · have hp' : ∀ w, i.payload ≠ .wait w := fun w hw => hp ⟨w, hw⟩
    obtain ⟨-, hstart, hfound⟩ := (step_eq_ok hp').1 hstep
    obtain ⟨huse, hexit⟩ := List.append_eq_nil_iff.1 hfound.symm
    have hquiet := useFindings_eq_nil.1 huse
    -- An access that a record stands for is seen, so it is not among the operands in vain.
    have hclear : ∀ r ∈ x.wait (ownWait i), ∃ a : InFlight, r.Like a ∧ conflicts i r.key a = [] := by
      intro r hr
      obtain ⟨a, ha, hlike, hl⟩ := h.exists_wait hq hr
      exact ⟨a, hlike, hquiet r.key a ha (by simp [isVisible, hl])⟩
    refine ⟨?_, fun r hr hw => ?_, fun r hr hw => ?_, fun hlate r hr hw => ?_, fun hleave => ?_⟩
    · simp only [startAccesses, bind_eq_ok] at hstart
      obtain ⟨st, hst, -⟩ := hstart
      exact ⟨st, hst⟩
    · obtain ⟨a, hlike, hnone⟩ := hclear r hr
      exact (conflicts_eq_nil hnone).1 (hlike.write ▸ hw)
    · obtain ⟨a, hlike, hnone⟩ := hclear r hr
      exact (conflicts_eq_nil hnone).2 (.inl (hlike.write ▸ hw))
    · obtain ⟨a, hlike, hnone⟩ := hclear r hr
      exact (conflicts_eq_nil hnone).2 (.inr hlate)
    · have hop : i.opcode = .sSetpcB64 := by
        simp only [Instruction.isLeave, Bool.and_eq_true, beq_iff_eq] at hleave
        exact hleave.1
      rw [if_pos hop] at hexit
      rw [List.eq_nil_iff_forall_not_mem]
      intro r hr
      obtain ⟨a, ha, -⟩ := h.exists_wait hq hr
      rw [exitFindings_eq_nil.1 hexit r.key] at ha
      cases ha

/-! ### Through a block -/

/-- Where the checker finds nothing in a block, each of its instructions is safe, and the end of the
block is bounded. -/
lemma Bounds.run {index : Nat} {is : List Instruction} (hb : p.blocks[n]? = some b)
    (hv : ∀ i ∈ b.instructions, i.defect? = none) (his : b.instructions.drop index = is)
    (h : Bounds p q x) (hq : Kindly p q)
    (hsteps : steps (setting p) n index is q = .ok (q', [])) :
    (∀ (m : Nat) (i : Instruction), is[m]? = some i → Machine.Safe (setting p) i
      ((Machine.run (setting p) n index (is.take m) x).wait (ownWait i)))
      ∧ Bounds p q' (Machine.run (setting p) n index is x) := by
  induction is generalizing index q x with
  | nil =>
    cases hsteps
    exact ⟨by simp, h⟩
  | cons i rest ih =>
    simp only [steps, bind_eq_ok, pure_eq_ok, Prod.exists, Prod.mk.injEq] at hsteps
    obtain ⟨q₁, found, hstep, q₂, later, hrest, rfl, hfound⟩ := hsteps
    obtain ⟨rfl, rfl⟩ := List.append_eq_nil_iff.1 hfound
    obtain ⟨hi, hrest'⟩ := getElem?_of_drop his
    obtain ⟨hsafe, hend⟩ := ih hrest' (h.step hq hb hi hstep) (hq.step hb hi hstep) hrest
    refine ⟨fun m j hj => ?_, hend⟩
    cases m with
    | zero =>
      cases hj
      exact h.safe hq (hv i (List.mem_of_getElem? hi)) hstep
    | succ m => exact hsafe m j hj

lemma Bounds.stepBlock (hb : p.blocks[n]? = some b) (hv : ∀ i ∈ b.instructions, i.defect? = none)
    (h : Bounds p q x) (hq : Kindly p q)
    (hstep : stepBlock (setting p) n b q = .ok (q', [])) :
    (∀ (m : Nat) (i : Instruction), b.instructions[m]? = some i → Machine.Safe (setting p) i
      ((Machine.run (setting p) n 0 (b.instructions.take m) x).wait (ownWait i)))
      ∧ Bounds p q' (Machine.run (setting p) n 0 b.instructions x)
      ∧ (.endWithRegs ∈ b.kind → Machine.run (setting p) n 0 b.instructions x = []) := by
  simp only [Checker.stepBlock, bind_eq_ok, pure_eq_ok, Prod.exists, Prod.mk.injEq] at hstep
  obtain ⟨q₁, found, hsteps, rfl, hfound⟩ := hstep
  obtain ⟨rfl, hexit⟩ := List.append_eq_nil_iff.1 hfound
  obtain ⟨hsafe, hend⟩ := h.run hb hv rfl hq hsteps
  refine ⟨hsafe, hend, fun hkind => ?_⟩
  rw [if_pos hkind] at hexit
  rw [List.eq_nil_iff_forall_not_mem]
  intro r hr
  have hseen := (hend r hr).seen
  rw [exitFindings_eq_nil.1 hexit r.key] at hseen
  cases hseen

/-! ### Along an edge -/

/-- What bounds a record at the end of a predecessor bounds it at the entry. -/
lemma Held.enter {flows : List Flow} {start : Pending} {pred : UInt32}
    (hpreds : b.logicalPreds = b.linearPreds) (hpred : pred ∈ b.linearPreds)
    (h : Held p (exitAt flows r.key pred.toNat) r)
    (hent : Entered p flows start n b r.key y) : Held p y r := by
  have hsource : pred ∈ sources p b r.key := by
    rw [sources, hpreds]
    split
    · exact List.mem_append_left _ hpred
    · exact hpred
  have hrank := hent.le pred hsource
  have hsome : y.isSome = true := isSome_iff_rank_lt.2
    (Nat.lt_of_le_of_lt hrank (isSome_iff_rank_lt.1 (isSome_of_seen h.seen)))
  refine ⟨h.like, ?_, Nat.le_trans hrank h.rank_le⟩
  rw [hent.seen, hsome, Bool.true_and, hpreds, Bool.or_eq_true]
  exact .inr (List.any_eq_true.2 ⟨pred, hpred, h.seen⟩)

/-- What bounds a record at the start of the program bounds it at the entry of the first block. -/
lemma Held.first {flows : List Flow} {start : Pending} (h : Held p start[r.key]? r)
    (hent : Entered p flows start 0 b r.key y) : Held p y r := by
  have hfirst : firstAt start 0 r.key = start[r.key]? := if_pos rfl
  have hrank := hent.le_first
  rw [hfirst] at hrank
  have hsome : y.isSome = true := isSome_iff_rank_lt.2
    (Nat.lt_of_le_of_lt hrank (isSome_iff_rank_lt.1 (isSome_of_seen h.seen)))
  refine ⟨h.like, ?_, Nat.le_trans hrank h.rank_le⟩
  rw [hent.seen, hsome, Bool.true_and, hfirst, h.seen, Bool.true_or]

/-! ### At the start -/

/-- One more argument. -/
lemma Bounds.argument {index : Nat} {units : List Reg} (h : Bounds p q x) (hq : Kindly p q)
    (hunits : units.foldlM
      (fun q unit => q.start p.config.generation ⟨.argument index, unit, .vmem⟩ true true)
      (q.issue p.config.generation .vmem true) = .ok q') :
    Bounds p q' (x.map (·.issue (fun _ => true) .vmem) ++ units.map (.ofArgument index)) := by
  have hkind : ∀ {index : Nat} {unit : Reg},
      (Record.ofArgument index unit).Like (kind p ⟨.argument index, unit, .vmem⟩) := ⟨rfl, rfl, rfl⟩
  intro r hr
  rw [getElem?_startUnits hunits]
  rcases List.mem_append.1 hr with hr | hr
  · obtain ⟨r₀, hr₀, rfl⟩ := List.mem_map.1 hr
    obtain ⟨hkey, hheld⟩ := (h r₀ hr₀).issues (hq r₀.key) (fun _ => true) [.vmem]
    have hkey' : (r₀.issue (fun _ => true) .vmem).key = r₀.key := hkey
    rw [hkey', Pending.getElem?_issue q p.config.generation .vmem fun _ => true]
    split
    · exact hheld.of_new rfl rfl
    · exact hheld
  · obtain ⟨unit, hunit, rfl⟩ := List.mem_map.1 hr
    rw [if_pos ⟨rfl, rfl, hunit⟩]
    exact ⟨hkind, rfl, Nat.zero_le _⟩

/-- The checker bounds what is in flight when the program starts. -/
lemma bounds_startState {start : Pending} (h : startState p = .ok start) :
    Bounds p start (Machine.start p) := by
  refine (foldlM_relation (fun q x => Kindly p q ∧ Bounds p q x) (fun argument _ q q' x hx hq' => ?_)
    ⟨kindly_empty p, fun r hr => by cases hr⟩ h).2
  obtain ⟨range, index⟩ := argument
  obtain ⟨-, -, hq'⟩ := bind_eq_ok.1 hq'
  exact ⟨hx.1.argument hq', hx.2.argument hx.1 hq'⟩

/-! ### The result -/

/-- Where the checker finds nothing, it goes through each block without a finding. -/
lemma quiet_of_findings {start : Pending} {flows : List Flow} (hfixed : Fixed p start flows)
    (hfound : findings p flows = .ok []) (n : Nat) (b : Block) (hb : p.blocks[n]? = some b)
    (hkind : .discardEarlyExit ∉ b.kind) :
    ∃ flow, flows[n]? = some flow ∧ blockEntry p flows start n b = .ok flow.entry
      ∧ stepBlock (setting p) n b flow.entry = .ok (flow.exit, []) := by
  obtain ⟨flow, found, hflow, hentry, hstep⟩ := hfixed.block n b hb hkind
  refine ⟨flow, hflow, hentry, ?_⟩
  simp only [findings, bind_eq_ok, pure_eq_ok] at hfound
  obtain ⟨all, hmap, hflat⟩ := hfound
  have hmem : (b, n) ∈ visited p :=
    List.mem_filter.2 ⟨List.mem_zipIdx_iff_getElem?.2 hb, by simpa using hkind⟩
  obtain ⟨found', hfound', heq⟩ := mem_of_mapM hmap hmem
  rw [List.flatten_eq_nil_iff.1 hflat found' hfound'] at heq
  simp only [hflow, Option.getD_some, hstep, bind_eq_ok, pure_eq_ok] at heq
  obtain ⟨r, hr, hnil⟩ := heq
  cases hr
  rw [hstep, show found = [] from hnil]

/-- The entry of every block bounds what comes in along a path. -/
lemma bounds_along {start : Pending} {flows : List Flow} (hv : p.Valid)
    (hpreds : ∀ b ∈ p.blocks, b.logicalPreds = b.linearPreds) (hstart : startState p = .ok start)
    (hall : KindlyAll p flows)
    (hquiet : ∀ (n : Nat) (b : Block), p.blocks[n]? = some b → .discardEarlyExit ∉ b.kind →
      ∃ flow, flows[n]? = some flow ∧ blockEntry p flows start n b = .ok flow.entry
        ∧ stepBlock (setting p) n b flow.entry = .ok (flow.exit, []))
    {path : List Nat} (hpath : p.Path (n :: path)) :
    ∀ flow, flows[n]? = some flow → Bounds p flow.entry (Machine.along p path) := by
  have hkindly := kindly_startState hstart
  refine hpath.invariant (fun n x => ∀ flow, flows[n]? = some flow → Bounds p flow.entry x) ?_ ?_
  · intro flow hflow r hr
    obtain ⟨b, hb, hkind⟩ := hpath.first
    obtain ⟨flow', hflow', hentry, -⟩ := hquiet 0 b hb hkind
    cases hflow.symm.trans hflow'
    exact (bounds_startState hstart r hr).first (entered_of_blockEntry hentry r.key)
  · rintro n m b x hb hkind ⟨b', hb', hkind', pred, hpred, rfl⟩ hx flow' hflow' r hr
    obtain ⟨flow, hflow, hentry, hstep⟩ := hquiet pred.toNat b hb hkind
    obtain ⟨-, hexit, -⟩ := (hx flow hflow).stepBlock hb (hv.placed _ b hb).instructions
      (hall.blockEntry hkindly hentry) hstep
    obtain ⟨flow'', hflow'', hentry', -⟩ := hquiet m b' hb' hkind'
    cases hflow'.symm.trans hflow''
    have hat : exitAt flows r.key pred.toNat = flow.exit[r.key]? := by rw [exitAt, hflow]; rfl
    have hheld := hexit r hr
    rw [← hat] at hheld
    exact hheld.enter (hpreds b' (List.mem_of_getElem? hb')) hpred
      (entered_of_blockEntry hentry' r.key)

/-- A program in which the checker finds nothing is free of hazards on every path: no instruction
reads a unit that is still being written, or writes one that is still being read, or writes at once
one that is still being written, and nothing is in flight where the program is left. -/
theorem safe_of_check (hv : p.validate = .ok ())
    (hpreds : ∀ b ∈ p.blocks, b.logicalPreds = b.linearPreds) (hcheck : p.check = .ok [])
    {path : List Nat} (hpath : p.Path (n :: path)) (hb : p.blocks[n]? = some b) :
    (∀ (m : Nat) (i : Instruction), b.instructions[m]? = some i → Machine.Safe (setting p) i
      ((Machine.run (setting p) n 0 (b.instructions.take m) (Machine.along p path)).wait
        (ownWait i)))
      ∧ (.endWithRegs ∈ b.kind → Machine.along p (n :: path) = []) := by
  have hvalid := Program.valid_of_validate hv
  simp only [Program.check, bind_eq_ok] at hcheck
  obtain ⟨start, hstart, r, hsettle, hfound⟩ := hcheck
  have hkindly := kindly_startState hstart
  cases r with
  | none => cases hfound
  | some flows =>
    have hfixed := fixed_of_settle (by simp) hsettle
    have hall := kindlyAll_of_settle hkindly (kindlyAll_empty p) hsettle
    have hquiet := quiet_of_findings hfixed hfound
    obtain ⟨flow, hflow, hin, hstep⟩ := hquiet n b hb (hpath.kind hb)
    have hentry := bounds_along hvalid hpreds hstart hall hquiet hpath flow hflow
    obtain ⟨hsafe, -, hend⟩ := hentry.stepBlock hb (hvalid.placed n b hb).instructions
      (hall.blockEntry hkindly hin) hstep
    refine ⟨hsafe, fun hkind => ?_⟩
    have hlast : Machine.along p (n :: path)
        = Machine.run (setting p) n 0 b.instructions (Machine.along p path) := by
      rw [Machine.along, Program.along, hb]
      rfl
    rw [hlast]
    exact hend hkind

/-- A loop that waits for what it loads before it uses it. -/
def waitedLoop : Program where
  blocks := [
    { index := 0, kind := {.topLevel}
      instructions := [⟨.globalLoadDword, [⟨.vgpr 2, 1⟩], [.reg ⟨.vgpr 0, 2⟩], .flat {}⟩] },
    { index := 1, kind := {.loopHeader}, linearPreds := [0, 2], logicalPreds := [0, 2]
      loopDepth := 1
      instructions := [
        .ofWait (.single .vm 0),
        ⟨.vAddF32, [⟨.vgpr 3, 1⟩], [.reg ⟨.vgpr 2, 1⟩, .reg ⟨.vgpr 3, 1⟩], .valu⟩] },
    { index := 2, linearPreds := [1], logicalPreds := [1], loopDepth := 1
      instructions := [⟨.globalLoadDword, [⟨.vgpr 2, 1⟩], [.reg ⟨.vgpr 0, 2⟩], .flat {}⟩] },
    { index := 3, kind := {.loopExit} ∪ {.endWithRegs}, linearPreds := [1], logicalPreds := [1] }]

/-- The second time around, the loop meets none of its accesses, and nothing is left behind it. -/
theorem safe_waitedLoop :
    waitedLoop.validate = .ok () ∧ (∀ b ∈ waitedLoop.blocks, b.logicalPreds = b.linearPreds)
      ∧ waitedLoop.check = .ok [] ∧ waitedLoop.Path [3, 1, 2, 1, 0]
      ∧ Machine.Safe (setting waitedLoop)
        ⟨.vAddF32, [⟨.vgpr 3, 1⟩], [.reg ⟨.vgpr 2, 1⟩, .reg ⟨.vgpr 3, 1⟩], .valu⟩
        ((Machine.run (setting waitedLoop) 1 0 [.ofWait (.single .vm 0)]
          (Machine.along waitedLoop [2, 1, 0])).wait .none)
      ∧ Machine.along waitedLoop [3, 1, 2, 1, 0] = [] := by
  have hv : waitedLoop.validate = .ok () := by decide +kernel
  have hpreds : ∀ b ∈ waitedLoop.blocks, b.logicalPreds = b.linearPreds := by decide +kernel
  have hcheck : waitedLoop.check = .ok [] := by decide +kernel
  have hloop : waitedLoop.Path [1, 2, 1, 0] :=
    .next (.next (.next (.entry rfl (by decide)) ⟨_, rfl, by decide, 0, by simp, rfl⟩)
      ⟨_, rfl, by decide, 1, by simp, rfl⟩) ⟨_, rfl, by decide, 2, by simp, rfl⟩
  have hpath : waitedLoop.Path [3, 1, 2, 1, 0] := .next hloop ⟨_, rfl, by decide, 1, by simp, rfl⟩
  exact ⟨hv, hpreds, hcheck, hpath, (safe_of_check hv hpreds hcheck hloop rfl).1 1 _ rfl,
    (safe_of_check hv hpreds hcheck hpath rfl).2 (by decide)⟩

end Checker

end GpuWaits
