/-
# The check ends in a fixed point

The checker goes through a program round after round, and gives up after a number of rounds that is
fixed in advance.  It never has to, whatever the control flow is: where the predecessors exist and
no step over an instruction faults, the rounds come to rest within the bound.  What the checker then
holds are, at every block, the state that comes in from the ends of the other blocks and the state
that the code of the block makes of it (`Program.check_settled`).

That no step faults is asked only of the states that the rounds come by (`Checker.Reached`).  These are
given by the order in which a round goes through the blocks, so that nothing is assumed of states
that do not occur.
-/
import GpuWaits.Proofs.Converge

namespace GpuWaits

namespace Checker

variable {p : Program} {start : Pending} {flows next : List Flow}

/-! ### What the rounds come by -/

/-- The rounds come to the states `flows` at the ends of the blocks, with the blocks `todo` still to be
gone through in the round. -/
inductive Reached (p : Program) (start : Pending) : List Flow → List (Block × Nat) → Prop where
  | first : Reached p start (p.blocks.map fun _ => {}) (visited p)
  | block {flows next : List Flow} {b : Block} {place : Nat} {todo : List (Block × Nat)}
      (h : Reached p start flows ((b, place) :: todo))
      (hflow : flowBlock p start flows place b = .ok next) : Reached p start next todo
  | again {flows : List Flow} (h : Reached p start flows []) : Reached p start flows (visited p)

lemma mem_blocks_of_visited {x : Block × Nat} (hx : x ∈ visited p) : x.1 ∈ p.blocks :=
  List.fst_mem_of_mem_zipIdx (List.mem_filter.1 hx).1

lemma Reached.mem_blocks {todo : List (Block × Nat)} (h : Reached p start flows todo) :
    ∀ x ∈ todo, x.1 ∈ p.blocks := by
  induction h with
  | first => exact fun x hx => mem_blocks_of_visited hx
  | block _ _ ih => exact fun x hx => ih x (List.mem_cons_of_mem _ hx)
  | again _ _ => exact fun x hx => mem_blocks_of_visited hx

/-- No step faults: every instruction that the rounds come to can be stepped over, from the state that
the instructions in front of it leave. -/
def StepsRun (p : Program) (start : Pending) : Prop :=
  ∀ (flows : List Flow) (b : Block) (place : Nat) (todo : List (Block × Nat)) (entry : Pending),
    Reached p start flows ((b, place) :: todo) → blockEntry p flows start place b = .ok entry →
      ∀ (front : List Instruction) (i : Instruction) (rest : List Instruction) (q : Pending)
        (found : List Finding), b.instructions = front ++ i :: rest →
          steps (setting p) place 0 front entry = .ok (q, found) →
            ∃ r, step (setting p) q (.code place front.length) i = .ok r

/-- Code each of whose instructions can be stepped over can be stepped over. -/
lemma steps_total_of_step {s : Setting} {block index : Nat} {is : List Instruction} {q : Pending}
    (h : ∀ (front : List Instruction) (i : Instruction) (rest : List Instruction) (q' : Pending)
      (found : List Finding), is = front ++ i :: rest →
        steps s block index front q = .ok (q', found) →
          ∃ r, step s q' (.code block (index + front.length)) i = .ok r) :
    ∃ r, steps s block index is q = .ok r := by
  induction is generalizing index q with
  | nil => exact ⟨_, rfl⟩
  | cons i rest ih =>
    obtain ⟨⟨q₁, found⟩, hstep⟩ : ∃ r, step s q (.code block index) i = .ok r :=
      h [] i rest q [] rfl rfl
    obtain ⟨⟨q₂, later⟩, hrest⟩ : ∃ r, steps s block (index + 1) rest q₁ = .ok r := by
      refine ih fun front j rest' q' found' his hq' => ?_
      have hfront : steps s block index (i :: front) q = .ok (q', found ++ found') := by
        simp only [steps, hstep, hq', bind, Except.bind]
        rfl
      obtain ⟨r, hr⟩ := h (i :: front) j rest' q' _ (by rw [his, List.cons_append]) hfront
      rw [List.length_cons, ← Nat.add_assoc, Nat.add_right_comm] at hr
      exact ⟨r, hr⟩
    refine ⟨(q₂, found ++ later), ?_⟩
    simp only [steps, hstep, hrest, bind, Except.bind]
    rfl

/-- A block that the rounds come to is gone through. -/
lemma StepsRun.flowBlock (h : StepsRun p start) {b : Block} {place : Nat}
    {todo : List (Block × Nat)} (hreached : Reached p start flows ((b, place) :: todo))
    (hpreds : ∀ pred ∈ b.linearPreds ++ b.logicalPreds, pred.toNat < flows.length) :
    ∃ next, flowBlock p start flows place b = .ok next ∧ next.length = flows.length := by
  obtain ⟨entry, hentry⟩ : ∃ entry, blockEntry p flows start place b = .ok entry :=
    blockEntry_total hpreds start place
  obtain ⟨⟨exit, found⟩, hsteps⟩ : ∃ r, steps (setting p) place 0 b.instructions entry = .ok r := by
    refine steps_total_of_step fun front i rest q found his hq => ?_
    rw [Nat.zero_add]
    exact h flows b place todo entry hreached hentry front i rest q found his hq
  refine ⟨flows.set place { entry, exit }, ?_, List.length_set⟩
  simp only [Checker.flowBlock, stepBlock, hentry, hsteps, bind, Except.bind]
  rfl

/-! ### Rounds -/

variable (hpreds : ∀ b ∈ p.blocks, ∀ pred ∈ b.linearPreds ++ b.logicalPreds,
  pred.toNat < p.blocks.length)
include hpreds

lemma StepsRun.round (h : StepsRun p start) (hreached : Reached p start flows (visited p))
    (hlen : flows.length = p.blocks.length) : ∃ next, round p start flows = .ok next
      ∧ next.length = p.blocks.length ∧ Reached p start next [] := by
  rw [Checker.round]
  generalize visited p = todo at hreached
  induction todo generalizing flows with
  | nil => exact ⟨flows, rfl, hlen, hreached⟩
  | cons x todo ih =>
    obtain ⟨next, hnext, hlength⟩ := h.flowBlock hreached
      (hlen ▸ hpreds x.1 (hreached.mem_blocks x List.mem_cons_self))
    obtain ⟨last, hlast, hend⟩ := ih (hlength.trans hlen) (hreached.block hnext)
    refine ⟨last, ?_, hend⟩
    rw [List.foldlM_cons]
    exact bind_eq_ok.2 ⟨next, hnext, hlast⟩

lemma StepsRun.settle (h : StepsRun p start) (hreached : Reached p start flows (visited p))
    (hlen : flows.length = p.blocks.length) (rounds : Nat) :
    ∃ r, settle p start rounds flows = .ok r := by
  induction rounds generalizing flows with
  | zero => exact ⟨_, rfl⟩
  | succ rounds ih =>
    obtain ⟨next, hnext, hlength, hnone⟩ := h.round hpreds hreached hlen
    simp only [Checker.settle, hnext, bind, Except.bind]
    split
    · exact ⟨_, rfl⟩
    · exact ih hnone.again hlength

omit hpreds

/-! ### Findings -/

/-- A step finds hazards only. -/
lemma unsettled_notMem_step {s : Setting} {q q' : Pending} {place : Place} {i : Instruction}
    {found : List Finding} (h : step s q place i = .ok (q', found)) (rounds : Nat) :
    .unsettled rounds ∉ found := by
  by_cases hp : ∃ w, i.payload = .wait w
  · obtain ⟨w, hp⟩ := hp
    rw [step_of_wait hp] at h
    cases h
    exact List.not_mem_nil
  · obtain ⟨-, -, rfl⟩ := (step_eq_ok (not_exists.1 hp)).1 h
    intro hmem
    rcases List.mem_append.1 hmem with huse | hexit
    · obtain ⟨x, -, hx⟩ := List.mem_flatMap.1 huse
      obtain ⟨kind, -, hkind⟩ := List.mem_map.1 hx
      cases hkind
    · split at hexit
      · obtain ⟨x, -, hx⟩ := List.mem_map.1 hexit
        cases hx
      · cases hexit

lemma unsettled_notMem_steps {s : Setting} {block index : Nat} {is : List Instruction}
    {q q' : Pending} {found : List Finding} (h : steps s block index is q = .ok (q', found))
    (rounds : Nat) : .unsettled rounds ∉ found := by
  induction is generalizing index q found with
  | nil =>
    cases h
    exact List.not_mem_nil
  | cons i rest ih =>
    simp only [steps, bind_eq_ok, pure_eq_ok, Prod.exists, Prod.mk.injEq] at h
    obtain ⟨q₁, first, hstep, q₂, later, hrest, rfl, rfl⟩ := h
    rw [List.mem_append, not_or]
    exact ⟨unsettled_notMem_step hstep rounds, ih hrest⟩

lemma unsettled_notMem_stepBlock {s : Setting} {place : Nat} {b : Block} {q q' : Pending}
    {found : List Finding} (h : stepBlock s place b q = .ok (q', found)) (rounds : Nat) :
    .unsettled rounds ∉ found := by
  simp only [stepBlock, bind_eq_ok, pure_eq_ok, Prod.exists, Prod.mk.injEq] at h
  obtain ⟨q₁, first, hsteps, -, rfl⟩ := h
  rw [List.mem_append, not_or]
  refine ⟨unsettled_notMem_steps hsteps rounds, fun hexit => ?_⟩
  split at hexit
  · obtain ⟨x, -, hx⟩ := List.mem_map.1 hexit
    cases hx
  · cases hexit

/-- From a fixed point, all blocks can be gone through once more, and hazards are all that is found. -/
lemma Fixed.findings (h : Fixed p start flows) :
    ∃ found, findings p flows = .ok found ∧ ∀ rounds, .unsettled rounds ∉ found := by
  have hblock : ∀ x ∈ visited p, ∃ q' found,
      stepBlock (setting p) x.2 x.1 (flows[x.2]?.getD {}).entry = .ok (q', found) := by
    intro x hx
    obtain ⟨hmem, hkind⟩ := List.mem_filter.1 hx
    obtain ⟨flow, found, hflow, -, hstep⟩ := h.block x.2 x.1 (List.mem_zipIdx_iff_getElem?.1 hmem)
      (of_decide_eq_true hkind)
    rw [hflow, Option.getD_some]
    exact ⟨_, _, hstep⟩
  obtain ⟨found, hfound⟩ := mapM_total (l := visited p)
    (f := fun x => do
      let entry := (flows[x.2]?.getD {}).entry
      return (← stepBlock (setting p) x.2 x.1 entry).2)
    fun x hx => by
      obtain ⟨q', found, hstep⟩ := hblock x hx
      exact ⟨found, bind_eq_ok.2 ⟨(q', found), hstep, rfl⟩⟩
  refine ⟨found.flatten, bind_eq_ok.2 ⟨found, hfound, rfl⟩, fun rounds hmem => ?_⟩
  obtain ⟨part, hpart, hin⟩ := List.mem_flatten.1 hmem
  obtain ⟨x, -, hx⟩ := exists_of_mem_mapM hfound hpart
  obtain ⟨⟨q', part'⟩, hstep, hpure⟩ := bind_eq_ok.1 hx
  cases pure_eq_ok.1 hpure
  exact unsettled_notMem_stepBlock hstep rounds hin

end Checker

/-! ### The result -/

namespace Checker

variable {p : Program} {start : Pending}

/-- Where no step faults, the rounds come to rest in a fixed point. -/
lemma StepsRun.fixed (h : StepsRun p start)
    (hpreds : ∀ b ∈ p.blocks, ∀ pred ∈ b.linearPreds ++ b.logicalPreds,
      pred.toNat < p.blocks.length) (hstart : startState p = .ok start) :
    ∃ flows, Checker.settle p start (maxRounds p) (p.blocks.map fun _ => {}) = .ok (some flows)
      ∧ Fixed p start flows := by
  have hlen : (p.blocks.map fun _ => ({} : Flow)).length = p.blocks.length := by simp
  obtain ⟨r, hr⟩ := h.settle hpreds .first hlen (maxRounds p)
  cases r with
  | none => exact absurd hr (settle_ne_none (kindly_startState hstart))
  | some flows => exact ⟨flows, hr, fixed_of_settle hlen hr⟩

/-- Where the rounds come to rest in a fixed point, the check reports what its steps find there. -/
lemma Fixed.check {flows : List Flow} (h : Fixed p start flows) (hstart : startState p = .ok start)
    (hsettle : settle p start (maxRounds p) (p.blocks.map fun _ => {}) = .ok (some flows)) :
    ∃ found, p.check = .ok found ∧ ∀ rounds, .unsettled rounds ∉ found := by
  obtain ⟨found, hfound, hnone⟩ := h.findings
  refine ⟨found, ?_, hnone⟩
  simp only [Program.check, hstart, hsettle, hfound, bind, Except.bind]

/-- An instruction whose ranges are registers can be stepped over from any state. -/
lemma step_total {s : Setting} {i : Instruction} (hi : i.Workable) (q : Pending) (place : Place) :
    ∃ r, step s q place i = .ok r := by
  by_cases hp : ∃ w, i.payload = .wait w
  · obtain ⟨w, hp⟩ := hp
    exact ⟨_, step_of_wait hp⟩
  · obtain ⟨q', hq'⟩ := startAccesses_total (s := s) hi (q.wait (ownWait i)) place
    exact ⟨(q', _), (step_eq_ok (not_exists.1 hp)).2 ⟨checkRanges_of_workable _ hi, hq', rfl⟩⟩

/-- No step faults where all code is workable. -/
lemma stepsRun_of_workable (h : ∀ b ∈ p.blocks, ∀ i ∈ b.instructions, i.Workable)
    (start : Pending) : StepsRun p start := by
  intro flows b place todo entry hreached _ front i rest q found his _
  have hi : i ∈ b.instructions := by
    rw [his]
    exact List.mem_append_right _ List.mem_cons_self
  exact step_total (h b (hreached.mem_blocks (b, place) List.mem_cons_self) i hi) q _

end Checker

namespace Program

/-- Where the predecessors exist and no step faults, the rounds of the check come to rest within their
bound.  The states that the checker then holds are a fixed point of going through the blocks, and
the check reports findings of its steps and never that it has given up. -/
theorem check_settled {p : Program} {start : Pending}
    (hpreds : ∀ b ∈ p.blocks, ∀ pred ∈ b.linearPreds ++ b.logicalPreds,
      pred.toNat < p.blocks.length)
    (hstart : Checker.startState p = .ok start) (hsteps : Checker.StepsRun p start) :
    ∃ flows found,
      Checker.settle p start ((p.blocks.length + 2) * 8) (p.blocks.map fun _ => {}) = .ok (some flows)
        ∧ (∀ n b, p.blocks[n]? = some b → .discardEarlyExit ∉ b.kind → ∃ flow hazards,
          flows[n]? = some flow
            ∧ Checker.blockEntry p flows start n b = .ok flow.entry
            ∧ Checker.stepBlock (Checker.setting p) n b flow.entry = .ok (flow.exit, hazards))
        ∧ p.check = .ok found ∧ ∀ rounds, .unsettled rounds ∉ found := by
  obtain ⟨flows, hsettle, hfixed⟩ := hsteps.fixed hpreds hstart
  obtain ⟨found, hcheck, hnone⟩ := hfixed.check hstart hsettle
  exact ⟨flows, found, hsettle, hfixed.block, hcheck, hnone⟩

/-- Two blocks that lead to each other, both entered from in front, without a loop header, with other
predecessors for the lanes than for the code, and with loads that nobody waits for. -/
def crossedFlow : Program where
  blocks := [
    { index := 0, kind := {.topLevel}
      instructions := [⟨.globalLoadDword, [⟨.vgpr 2, 1⟩], [.reg ⟨.vgpr 0, 2⟩], .flat {}⟩] },
    { index := 1, linearPreds := [0, 2], logicalPreds := [2]
      instructions := [
        ⟨.sLoadDword, [⟨.sgpr 4, 1⟩], [.reg ⟨.sgpr 0, 2⟩], .smem {}⟩,
        ⟨.vAddF32, [⟨.vgpr 3, 1⟩], [.reg ⟨.vgpr 2, 1⟩, .reg ⟨.vgpr 3, 1⟩], .valu⟩] },
    { index := 2, linearPreds := [0, 1], logicalPreds := [0, 1, 2]
      instructions := [
        ⟨.globalLoadDword, [⟨.vgpr 2, 1⟩], [.reg ⟨.vgpr 0, 2⟩], .flat {}⟩,
        ⟨.vMovB32, [⟨.vgpr 5, 1⟩], [.reg ⟨.sgpr 4, 1⟩], .valu⟩] }]

lemma workable_crossedFlow : ∀ b ∈ crossedFlow.blocks, ∀ i ∈ b.instructions, i.Workable := by
  have hall : ∀ b ∈ crossedFlow.blocks, ∀ i ∈ b.instructions, i.isCoherent = true ∧ i.defect? = none
      ∧ (∀ d ∈ i.definitions, d.size ≤ 16)
      ∧ (i.opcode = .sSendmsgRtnB32 ∨ i.opcode = .sSendmsgRtnB64 → i.definitions ≠ []) := by
    decide +kernel
  intro b hb i hi
  obtain ⟨hcoherent, hvalid, hnarrow, hreturned⟩ := hall b hb i hi
  exact ⟨hcoherent, hvalid, fun _ _ => hnarrow, hreturned⟩

lemma preds_crossedFlow : ∀ b ∈ crossedFlow.blocks, ∀ pred ∈ b.linearPreds ++ b.logicalPreds,
    pred.toNat < crossedFlow.blocks.length := by
  -- as a walk over the lists; the quantifier alone could also be decided by trying every word
  have hall : crossedFlow.blocks.all (fun b => (b.linearPreds ++ b.logicalPreds).all fun pred =>
      pred.toNat < crossedFlow.blocks.length) = true := by decide +kernel
  simpa only [List.all_eq_true, decide_eq_true_eq] using hall

theorem check_settled_crossedFlow : crossedFlow.validate ≠ .ok () ∧ ∃ flows found,
    Checker.settle crossedFlow ∅ 40 [{}, {}, {}] = .ok (some flows)
      ∧ (∀ n b, crossedFlow.blocks[n]? = some b → .discardEarlyExit ∉ b.kind → ∃ flow hazards,
        flows[n]? = some flow
          ∧ Checker.blockEntry crossedFlow flows ∅ n b = .ok flow.entry
          ∧ Checker.stepBlock (Checker.setting crossedFlow) n b flow.entry = .ok (flow.exit, hazards))
      ∧ crossedFlow.check = .ok found ∧ ∀ rounds, .unsettled rounds ∉ found :=
  ⟨by decide +kernel, check_settled preds_crossedFlow rfl
    (Checker.stepsRun_of_workable workable_crossedFlow ∅)⟩

end Program

end GpuWaits
