/-
# Waits that the program came with

The code of a program may hold waits before any are inserted.  They are taken out, queued, brought
together with others, handed to an interpolation or moved in front of a message, and put back; and
in a loop all of this happens again and again.  What they ask for is not lost on the way
(`Program.keepsWaits_of_solve`).

The directives of a block stand in its gaps, one in front of each instruction of the code and one at
the end of the block.  What a gap asks for can only become more.  For one pass this follows from an
invariant of the walk (`Walk.step_gap`): what has been put out since the last instruction of the
code, together with what is queued, asks for all that was taken in since then.
-/
import GpuWaits.Proofs.Frame

namespace GpuWaits

/-! ### Queues, ordered by their targets -/

namespace DependencyWait

/-- A wait is below another one if it asks for at least as much on every counter. -/
instance : LE DependencyWait := ⟨fun v w => ∀ d, v.get d ≤ w.get d⟩

lemma le_refl (w : DependencyWait) : w ≤ w := fun _ => UInt8.le_refl _

lemma le_trans {u v w : DependencyWait} (huv : u ≤ v) (hvw : v ≤ w) : u ≤ w :=
  fun d => UInt8.le_trans (huv d) (hvw d)

lemma le_both_iff {u v w : DependencyWait} : u ≤ v.both w ↔ u ≤ v ∧ u ≤ w := by
  have hmin : ∀ d, u.get d ≤ (v.both w).get d ↔ u.get d ≤ v.get d ∧ u.get d ≤ w.get d := by
    intro d
    simp only [UInt8.le_iff_toNat_le, toNat_get_both]
    omega
  exact (forall_congr' hmin).trans forall_and

end DependencyWait

namespace Queue

variable {p q r : Queue} {i : Instruction} {is js : List Instruction}

/-- A queue is below another one if it asks for at least as much on every counter. -/
instance : LE Queue := ⟨fun p q => p.wait ≤ q.wait ∧ p.dependency ≤ q.dependency⟩

lemma le_refl (q : Queue) : q ≤ q := ⟨Wait.le_refl _, DependencyWait.le_refl _⟩

lemma le_trans (hpq : p ≤ q) (hqr : q ≤ r) : p ≤ r :=
  ⟨Wait.le_trans hpq.1 hqr.1, DependencyWait.le_trans hpq.2 hqr.2⟩

lemma both_le_left (p q : Queue) : p.both q ≤ p :=
  ⟨Wait.both_le_left _ _, (DependencyWait.le_both_iff.1 (DependencyWait.le_refl _)).1⟩

lemma both_le_right (p q : Queue) : p.both q ≤ q :=
  ⟨Wait.both_le_right _ _, (DependencyWait.le_both_iff.1 (DependencyWait.le_refl _)).2⟩

lemma le_both (hq : p ≤ q) (hr : p ≤ r) : p ≤ q.both r :=
  ⟨Wait.le_both hq.1 hr.1, DependencyWait.le_both_iff.2 ⟨hq.2, hr.2⟩⟩

lemma add_le (q : Queue) (w : Wait) : q.add w ≤ q :=
  ⟨Wait.both_le_left _ _, DependencyWait.le_refl _⟩

lemma le_add {w : Wait} (hq : p ≤ q) (hw : p.wait ≤ w) : p ≤ q.add w := ⟨Wait.le_both hq.1 hw, hq.2⟩

/-- All that the waits among some instructions ask for: the smallest target for each counter, and nothing
where there is no wait. -/
def total (is : List Instruction) : Queue := is.foldl (fun q i => q.both (.ofInstruction i)) {}

lemma total_concat (is : List Instruction) (i : Instruction) :
    total (is ++ [i]) = (total is).both (.ofInstruction i) := List.foldl_concat ..

lemma le_total_iff : q ≤ total is ↔ q ≤ {} ∧ ∀ i ∈ is, q ≤ .ofInstruction i := by
  have hfold : ∀ (is : List Instruction) (p : Queue),
      q ≤ is.foldl (fun q i => q.both (.ofInstruction i)) p
        ↔ q ≤ p ∧ ∀ i ∈ is, q ≤ .ofInstruction i := by
    intro is
    induction is with
    | nil => simp
    | cons i is ih =>
      intro p
      rw [List.foldl_cons, ih, List.forall_mem_cons, ← and_assoc]
      refine and_congr_left fun _ => ⟨fun h => ?_, fun h => le_both h.1 h.2⟩
      exact ⟨le_trans h (both_le_left ..), le_trans h (both_le_right ..)⟩
  exact hfold is {}

lemma total_le_of_mem (hi : i ∈ is) : total is ≤ .ofInstruction i :=
  (le_total_iff.1 (le_refl _)).2 i hi

/-- More waits ask for more. -/
lemma total_le_total (h : ∀ i ∈ is, i ∈ js) : total js ≤ total is :=
  le_total_iff.2 ⟨(le_total_iff.1 (le_refl _)).1, fun i hi => total_le_of_mem (h i hi)⟩

lemma total_append_le (is js : List Instruction) :
    total (is ++ js) ≤ total is ∧ total (is ++ js) ≤ total js :=
  ⟨total_le_total fun _ => List.mem_append_left _, total_le_total fun _ => List.mem_append_right _⟩

/-- The instructions that carry a queue out ask for what is queued. -/
lemma total_instructions_le (q : Queue) : total q.instructions ≤ q := by
  refine ⟨?_, ?_⟩
  · by_cases hnone : q.wait.isNone = true
    · rw [Wait.isNone_iff.1 hnone]
      exact Wait.le_none _
    · exact (total_le_of_mem (i := .ofWait q.wait) (by simp [instructions, hnone])).1
  · by_cases hnone : q.dependency.isNone = true
    · have hempty := (le_total_iff.1 (le_refl (total q.instructions))).1.2
      rwa [show q.dependency = ({} : Queue).dependency from beq_iff_eq.1 hnone]
    · exact (total_le_of_mem (i := .ofDependencyWait q.dependency) (by simp [instructions, hnone])).2

end Queue

/-! ### Gaps -/

/-- The directives between two instructions of the code, in front of the first or behind the last.
-/
structure Gap where
  directives : List Instruction
  /-- The instruction behind them, unless the block ends there. -/
  stop : Option Instruction

namespace Gap

/-- What the waits of the gap ask for. -/
def asked (gap : Gap) : Queue := .total gap.directives

/-- What is complete when the instruction behind the gap goes on: an interpolation waits by itself.
-/
def enforced (gap : Gap) : Queue := gap.asked.add (gap.stop.elim .none Checker.ownWait)

/-- The instructions of the gap, and the one behind it. -/
def instructions (gap : Gap) : List Instruction := gap.directives ++ gap.stop.toList

/-- The gap `after` stands in front of the same instruction and asks for at least as much. -/
structure RefinedBy (before after : Gap) : Prop where
  stop : after.stop.map Instruction.bare = before.stop.map Instruction.bare
  enforced : after.enforced ≤ before.enforced

/-- The gap `after` stands in front of the same instruction, and the waits of `before` are carried
out there, up to those for exports that the instruction carries out by itself. -/
structure KeptBy (before after : Gap) : Prop where
  stop : after.stop.map Instruction.bare = before.stop.map Instruction.bare
  wait : after.enforced.wait ≤ before.asked.wait
  dependency : after.asked.dependency ≤ before.asked.dependency

variable {a b c : Gap}

lemma RefinedBy.refl (a : Gap) : a.RefinedBy a := ⟨rfl, Queue.le_refl _⟩

lemma RefinedBy.trans (hab : a.RefinedBy b) (hbc : b.RefinedBy c) : a.RefinedBy c :=
  ⟨hbc.stop.trans hab.stop, Queue.le_trans hbc.enforced hab.enforced⟩

lemma RefinedBy.keptBy (h : a.RefinedBy b) : a.KeptBy b :=
  ⟨h.stop, Wait.le_trans h.enforced.1 (Wait.both_le_left _ _), h.enforced.2⟩

end Gap

/-- The gaps of a list of instructions, behind directives that belong to the first gap. -/
def gapsAfter (s : Setting) : List Instruction → List Instruction → List Gap
  | passed, [] => [⟨passed, none⟩]
  | passed, i :: rest =>
    if i.isDirective s then gapsAfter s (passed ++ [i]) rest
    else ⟨passed, some i⟩ :: gapsAfter s [] rest

section GapsAfter

variable {s : Setting} {i : Instruction} {passed ds is : List Instruction}

lemma gapsAfter_of_isDirective (hi : i.isDirective s = true) :
    gapsAfter s passed (i :: is) = gapsAfter s (passed ++ [i]) is := if_pos hi

lemma gapsAfter_of_code (hi : i.isDirective s = false) :
    gapsAfter s passed (i :: is) = ⟨passed, some i⟩ :: gapsAfter s [] is := if_neg (by simp [hi])

lemma gapsAfter_append (hds : ∀ d ∈ ds, d.isDirective s = true) :
    gapsAfter s passed (ds ++ is) = gapsAfter s (passed ++ ds) is := by
  induction ds generalizing passed with
  | nil => rw [List.append_nil, List.nil_append]
  | cons d ds ih =>
    obtain ⟨hd, hds⟩ := List.forall_mem_cons.1 hds
    rw [List.cons_append, gapsAfter_of_isDirective hd, ih hds, List.append_assoc,
      List.singleton_append]

lemma flatMap_gapsAfter (s : Setting) (passed is : List Instruction) :
    (gapsAfter s passed is).flatMap Gap.instructions = passed ++ is := by
  induction is generalizing passed with
  | nil => simp [gapsAfter, Gap.instructions]
  | cons i is ih =>
    cases hi : i.isDirective s with
    | true => rw [gapsAfter_of_isDirective hi, ih, List.append_assoc, List.singleton_append]
    | false =>
      rw [gapsAfter_of_code hi, List.flatMap_cons, ih]
      simp [Gap.instructions]

lemma isDirective_of_mem_gapsAfter (hpassed : ∀ d ∈ passed, d.isDirective s = true) {gap : Gap}
    (hgap : gap ∈ gapsAfter s passed is) :
    (∀ d ∈ gap.directives, d.isDirective s = true) ∧ ∀ i ∈ gap.stop, i.isDirective s = false := by
  induction is generalizing passed with
  | nil =>
    rw [List.mem_singleton.1 hgap]
    exact ⟨hpassed, fun _ h => by cases h⟩
  | cons i is ih =>
    cases hi : i.isDirective s with
    | true =>
      rw [gapsAfter_of_isDirective hi] at hgap
      refine ih (fun d hd => ?_) hgap
      rcases List.mem_append.1 hd with hd | hd
      · exact hpassed d hd
      · rwa [List.mem_singleton.1 hd]
    | false =>
      rw [gapsAfter_of_code hi] at hgap
      rcases List.mem_cons.1 hgap with rfl | hgap
      · refine ⟨hpassed, fun j hj => ?_⟩
        cases hj
        exact hi
      · exact ih (fun _ h => by cases h) hgap

end GapsAfter

/-! ### One pass over a block -/

namespace Walk

variable {s : Setting} {i : Instruction} {rest : List Instruction} {w w' : Walk}

lemma await_le {c c' : Context} {q q' : Queue} (h : c.await s i q = .ok (c', q')) : q' ≤ q := by
  refine ⟨(Context.awaited_of_await h).queued, ?_⟩
  simp only [Context.await, bind_eq_ok, pure_eq_ok, Prod.mk.injEq] at h
  obtain ⟨hazard, -, settled, -, -, rfl⟩ := h
  exact (Queue.both_le_left ..).2

lemma prepare_le {c : Context} {q : Queue} {left : Nat}
    (h : prepare s i rest w = .ok (left, c, q)) : q ≤ w.queue.both (.ofInstruction i) :=
  prepare_induction (fun _ => True) (fun _ q => q ≤ w.queue.both (.ofInstruction i))
    (fun _ hawait hq => Queue.le_trans (await_le hawait) hq) trivial (fun _ _ => trivial) h
    (Queue.le_refl _)

/-- In front of the message that releases the registers the queue is carried out. -/
lemma finish_le (s : Setting) (i : Instruction) (c : Context) (q : Queue) :
    (Queue.total (finish s i c q).1).both (finish s i c q).2 ≤ q := by
  rw [finish]
  split
  · rw [release]
    split
    · refine ⟨?_, (Queue.both_le_right ..).2⟩
      refine Wait.le_trans (Wait.both_le_left _ _) ?_
      refine Wait.le_trans (Queue.total_append_le _ _).1.1 ?_
      exact Wait.le_trans (Queue.total_instructions_le _).1 (Wait.both_le_right _ _)
    · exact Queue.both_le_right ..
  · exact Queue.both_le_right ..

lemma absorb_le (i : Instruction) (q : Queue) :
    (absorb i q).2.add (Checker.ownWait (absorb i q).1) ≤ q := by
  refine ⟨(absorb_spec i q).2, ?_⟩
  rw [absorb]
  split
  · split <;> exact DependencyWait.le_refl _
  · exact DependencyWait.le_refl _

section Open

-- Since the last instruction of the code `passed` was taken in and `out` was put out.
variable {passed out : List Instruction}

/-- What is queued for an instruction covers the instruction as well. -/
lemma open_le {q : Queue} (hopen : (Queue.total out).both w.queue ≤ Queue.total passed)
    (hq : q ≤ w.queue.both (.ofInstruction i)) :
    (Queue.total out).both q ≤ Queue.total (passed ++ [i]) := by
  have hqueue := Queue.le_trans (Queue.both_le_right (Queue.total out) q) hq
  rw [Queue.total_concat]
  refine Queue.le_both (Queue.le_trans (Queue.le_both (Queue.both_le_left ..) ?_) hopen) ?_
  · exact Queue.le_trans hqueue (Queue.both_le_left ..)
  · exact Queue.le_trans hqueue (Queue.both_le_right ..)

lemma open_finish_le {c : Context} {q : Queue} {left : Nat}
    (hopen : (Queue.total out).both w.queue ≤ Queue.total passed)
    (h : prepare s i rest w = .ok (left, c, q)) :
    (Queue.total (out ++ (finish s i c q).1)).both (finish s i c q).2
      ≤ Queue.total (passed ++ [i]) := by
  have hall := Queue.total_append_le out (finish s i c q).1
  refine Queue.le_trans (Queue.le_both ?_ ?_) (open_le hopen (prepare_le h))
  · exact Queue.le_trans (Queue.both_le_left ..) hall.1
  · refine Queue.le_trans (Queue.le_both ?_ (Queue.both_le_right ..)) (finish_le s i c q)
    exact Queue.le_trans (Queue.both_le_left ..) hall.2

/-- Carrying the queue out closes the gap, even if the instruction takes over a part. -/
lemma enforced_absorb_le (out : List Instruction) (i : Instruction) (q : Queue) :
    Gap.enforced ⟨out ++ (absorb i q).2.instructions, some (absorb i q).1⟩
      ≤ (Queue.total out).both q := by
  have hall := Queue.total_append_le out (absorb i q).2.instructions
  refine Queue.le_both (Queue.le_trans (Queue.add_le ..) hall.1) ?_
  refine Queue.le_trans (Queue.le_add ?_ (Wait.both_le_right _ _)) (absorb_le i q)
  exact Queue.le_trans (Queue.add_le ..)
    (Queue.le_trans hall.2 (Queue.total_instructions_le _))

/-- A step takes in a directive or closes a gap.  As long as a gap is open, what has been put out
and what is queued ask for all that was taken in. -/
lemma step_gap {emitted : List Instruction} (h : step s i rest w = .ok (emitted, w'))
    (hopen : (Queue.total out).both w.queue ≤ Queue.total passed) :
    (i.isDirective s = true ∧ (∀ d ∈ emitted, d.isDirective s = true)
        ∧ (Queue.total (out ++ emitted)).both w'.queue ≤ Queue.total (passed ++ [i]))
      ∨ i.isDirective s = false ∧ ∃ ds kept, emitted = ds ++ [kept]
        ∧ (∀ d ∈ ds, d.isDirective s = true) ∧ kept.isDirective s = false
        ∧ Gap.RefinedBy ⟨passed, some i⟩ ⟨out ++ ds, some kept⟩ := by
  rcases step_eq_ok.1 h with ⟨hrelease, rfl, rfl⟩ | ⟨hrelease, left, c, q, c', hprepare, -, hcases⟩
  · refine .inl ⟨by simp [Instruction.isDirective, hrelease], by simp, ?_⟩
    rw [List.append_nil]
    exact open_le hopen (Queue.le_refl _)
  have hfinish := open_finish_le hopen hprepare
  have hreleased : ∀ d ∈ (finish s i c q).1, d.isDirective s = true := fun d hd =>
    (isInserted_of_mem_finish hd).isDirective
  rcases hcases with ⟨hremoved, rfl, rfl⟩ | ⟨hkept, rfl, -⟩
  · refine .inl ⟨?_, hreleased, hfinish⟩
    rw [Instruction.isDirective, Bool.or_comm i.isWait, hremoved, Bool.true_or]
  · have hdirective : i.isDirective s = false := by
      rw [Instruction.isDirective, Bool.or_comm i.isWait, hkept, hrelease, Bool.false_or]
    have htakes := (absorb_spec i (finish s i c q).2).1
    refine .inr ⟨hdirective, _, _, rfl, fun d hd => ?_, ?_, congrArg some htakes.bare_eq, ?_⟩
    · rcases List.mem_append.1 hd with hd | hd
      · exact hreleased d hd
      · exact (Queue.isInserted_of_mem hd s).isDirective
    · rw [htakes.isDirective_eq, hdirective]
    · rw [← List.append_assoc]
      have hpassed := Queue.le_trans (enforced_absorb_le _ i (finish s i c q).2)
        (Queue.le_trans hfinish (Queue.total_append_le passed [i]).1)
      exact Queue.le_add hpassed (Wait.le_trans (Wait.both_le_right _ _) htakes.ownWait_le)

end Open

/-- The walk keeps in each gap what was asked for there.  The queue that is left is carried out at
the end. -/
lemma steps_gaps {is code passed out : List Instruction} {last : Queue}
    (h : steps s is w = .ok (code, w')) (hlast : last ≤ w'.queue)
    (hopen : (Queue.total out).both w.queue ≤ Queue.total passed) :
    List.Forall₂ Gap.RefinedBy (gapsAfter s passed is)
      (gapsAfter s out (code ++ last.instructions)) := by
  induction is generalizing w code passed out with
  | nil =>
    cases h
    have hdirective : ∀ d ∈ last.instructions, d.isDirective s = true := fun d hd =>
      (Queue.isInserted_of_mem hd s).isDirective
    rw [List.nil_append, ← List.append_nil last.instructions, gapsAfter_append hdirective]
    have hall := Queue.total_append_le out last.instructions
    have hqueued := Queue.le_trans hall.2 (Queue.le_trans (Queue.total_instructions_le last) hlast)
    have hpassed := Queue.le_trans (Queue.le_both hall.1 hqueued) hopen
    exact .cons ⟨rfl, Queue.le_add (Queue.le_trans (Queue.add_le ..) hpassed) (Wait.le_none _)⟩ .nil
  | cons i rest ih =>
    obtain ⟨emitted, w₁, later, hstep, hrest, rfl⟩ := steps_cons h
    rcases step_gap hstep hopen with ⟨hi, hemitted, hopen'⟩ | ⟨hi, ds, kept, rfl, hds, hkept, hgap⟩
    · rw [gapsAfter_of_isDirective hi, List.append_assoc, gapsAfter_append hemitted]
      exact ih hrest hopen'
    · rw [gapsAfter_of_code hi, List.append_assoc, List.append_assoc, gapsAfter_append hds,
        List.singleton_append, gapsAfter_of_code hkept]
      exact .cons hgap (ih hrest (Queue.both_le_left ..))

end Walk

namespace Block

variable {s : Setting} {b b' b'' : Block} {c c' : Context}

/-- The gaps of the block. -/
def gaps (s : Setting) (b : Block) : List Gap := gapsAfter s [] b.instructions

/-- The gaps put together are the block, and they are as wide as can be: only directives stand in them,
and none stands behind. -/
theorem gaps_partition (s : Setting) (b : Block) :
    (b.gaps s).flatMap Gap.instructions = b.instructions
      ∧ ∀ gap ∈ b.gaps s, (∀ d ∈ gap.directives, d.isDirective s = true)
        ∧ ∀ i ∈ gap.stop, i.isDirective s = false :=
  ⟨flatMap_gapsAfter s [] b.instructions,
    fun _ hgap => isDirective_of_mem_gapsAfter (fun _ h => by cases h) hgap⟩

/-- Every gap of `b'` asks for at least as much as that of `b` in its place. -/
def GapsRefinedBy (s : Setting) (b b' : Block) : Prop :=
  List.Forall₂ Gap.RefinedBy (b.gaps s) (b'.gaps s)

/-- In every gap of `b'` the waits are kept that stood in that of `b` in its place. -/
def KeepsWaits (s : Setting) (b b' : Block) : Prop :=
  List.Forall₂ Gap.KeptBy (b.gaps s) (b'.gaps s)

lemma finalQueue_le (b : Block) (w : Walk) : b.finalQueue w ≤ w.queue := by
  rw [finalQueue]
  split
  · exact Queue.add_le ..
  · exact Queue.le_refl _

lemma gapsRefinedBy_insertWaits (h : b.insertWaits s c = .ok (b', c')) : b.GapsRefinedBy s b' := by
  obtain ⟨code, w, hsteps, rfl, -⟩ := insertWaits_eq_ok.1 h
  exact Walk.steps_gaps hsteps (b.finalQueue_le w) (Queue.both_le_left ..)

lemma GapsRefinedBy.refl (s : Setting) (b : Block) : b.GapsRefinedBy s b :=
  List.forall₂_same.2 fun gap _ => .refl gap

lemma GapsRefinedBy.insertWaits (h : b.GapsRefinedBy s b')
    (hrewrite : b'.insertWaits s c = .ok (b'', c')) : b.GapsRefinedBy s b'' :=
  forall₂_trans (fun hab hbc => hab.trans hbc) h (gapsRefinedBy_insertWaits hrewrite)

lemma GapsRefinedBy.keepsWaits (h : b.GapsRefinedBy s b') : b.KeepsWaits s b' :=
  h.imp fun _ _ hgap => hgap.keptBy

end Block

/-! ### The whole program -/

namespace Program

variable {p : Program} {drainAll : Bool} {w : Sweep}

/-- Inserting waits weakens none of the waits that the program came with. -/
theorem keepsWaits_of_solve (h : p.solve drainAll = .ok w) :
    ∃ blocks, p.withNodes w.nodes = { p with blocks }
      ∧ List.Forall₂ (Block.KeepsWaits { config := p.config, drainAll }) p.blocks blocks := by
  obtain ⟨nodes, hnodes, hrun⟩ := bind_eq_ok.1 h
  have hstart : List.Forall₂ (Block.GapsRefinedBy { config := p.config, drainAll }) p.blocks
      (nodes.map Node.block) := by
    rw [blocks_of_nodes hnodes]
    exact List.forall₂_same.2 fun b _ => .refl _ b
  have hend := (Sweep.run_invariant
    (fun w => List.Forall₂ (Block.GapsRefinedBy { config := p.config, drainAll }) p.blocks
      (w.nodes.map Node.block))
    (fun hw hn hs => Sweep.forall₂_blocks_step (fun hb _ => hb.insertWaits) hw hn hs) hstart hrun).1
  exact ⟨w.nodes.map Node.block, rfl, hend.imp fun _ _ hb => hb.keepsWaits⟩

/-- A loop that interpolates into the register which it exports, between two stores.  There are
directives behind the first store, at the entry of the loop and in front of the end. -/
def patchedLoop (store entry : List Instruction) (wait : UInt8) (last : List Instruction) :
    Program where
  config := { generation := .gfx11, numVgprs := 128 }
  blocks := [
    Sample.block 0 {.topLevel} [] 0 (Sample.bufferStore (.vgpr 1) (.vgpr 2) :: store),
    Sample.block 1 {.loopHeader} [0, 2] 1 (entry ++ [interpolate wait]),
    Sample.block 2 {} [1] 1 [Sample.exportOne 32 (.vgpr 0), Sample.branch],
    Sample.block 3 {.loopExit} [2] 0 (.ofWait (Wait.none.set .exp 0)
      :: Sample.bufferStore (.vgpr 0) (.vgpr 1) :: last ++ [Sample.endProgram])]

/-- The loop as it is written, with waits on both sides of a barrier. -/
def patched : Program :=
  patchedLoop
    [.ofWait (Wait.none.set .vm 5), Sample.askBarrier {.buffer} .workgroup,
      .ofDependencyWait (DependencyWait.none.set .vaVdst 2)]
    [.ofWait ((Wait.none.set .exp 3).set .lgkm 2)] 7
    [.ofWait (Wait.none.set .vs 3), .ofDependencyWait (DependencyWait.none.set .vmVsrc 0)]

/-- The barrier is gone, the interpolation has taken over the wait for exports, and the registers
are released between the two waits at the end. -/
theorem keepsWaits_patched : ∃ w, patched.solve false = .ok w
    ∧ patched.withNodes w.nodes = patchedLoop
      [.ofWait (Wait.none.set .vm 5), .ofDependencyWait (DependencyWait.none.set .vaVdst 2)]
      [.ofWait (Wait.none.set .lgkm 2)] 0
      [.ofWait (Wait.none.set .vs 3), .ofImmediate .sSendmsg Instruction.releaseMessage,
        .ofDependencyWait (DependencyWait.none.set .vmVsrc 0)]
    ∧ ∃ blocks, patched.withNodes w.nodes = { patched with blocks }
      ∧ List.Forall₂ (Block.KeepsWaits { config := patched.config }) patched.blocks blocks := by
  obtain ⟨w, hw, hresult⟩ : ∃ w, patched.solve false = .ok w
      ∧ patched.withNodes w.nodes = patchedLoop
        [.ofWait (Wait.none.set .vm 5), .ofDependencyWait (DependencyWait.none.set .vaVdst 2)]
        [.ofWait (Wait.none.set .lgkm 2)] 0
        [.ofWait (Wait.none.set .vs 3), .ofImmediate .sSendmsg Instruction.releaseMessage,
          .ofDependencyWait (DependencyWait.none.set .vmVsrc 0)] :=
    exists_solve 20 (by decide +kernel)
  exact ⟨w, hw, hresult, keepsWaits_of_solve hw⟩

end Program

end GpuWaits
