/-
# What validation guards against

A program that has been validated is meant to go through the pass whatever its code is.  Three things
slip through: a message that returns a value but has no place to put it, a load from vector memory into
more than 16 units, and a loop header that lanes jump to, which is skipped and leaves its exit without a
loop (`insertWaits_faults`).  Where none of them occurs the pass ends without a fault, with all options
and for any control flow (`Guarded.exists_outcome`).

Loops need not be entered and left where they say here, so that the headers on the stack of the sweep are
not those of the loops around a block.  There are always enough of them, though (`StackCovers`).
-/
import GpuWaits.Proofs.CheckEnds
import GpuWaits.Proofs.Frame

namespace GpuWaits

/-! ### The stack of the sweep -/

/-- When the sweep goes back to a header, the stack is at least as deep as the loops around the
header. -/
def StackCovers (blocks : List Block) : List Nat → Prop
  | [] => True
  | h :: rest => (openHeaders blocks h).length ≤ rest.length ∧ StackCovers blocks rest

namespace Sweep

variable {s : Setting} {p : Program} {w w' : Sweep} {node : Node}

/-- The nodes of a sweep: their blocks are those of the program but for the code, which is workable, and
the contexts at their ends are sound. -/
structure NodesFit (s : Setting) (p : Program) (nodes : List Node) : Prop where
  length : nodes.length = p.blocks.length
  frame : ∀ (n : Nat) (b : Block) (node : Node), p.blocks[n]? = some b → nodes[n]? = some node →
    b.SameFrame node.block
  workable : ∀ node ∈ nodes, ∀ i ∈ node.block.instructions, i.Workable
  entry : ∀ node ∈ nodes, node.entry.Sound s.generation
  exit : ∀ node ∈ nodes, node.exit.Sound s.generation

/-- The invariant of the sweep: the stack is deep enough for all exits that are to come. -/
structure Fit (s : Setting) (p : Program) (w : Sweep) : Prop where
  nodes : NodesFit s p w.nodes
  stack : StackCovers p.blocks w.headers
  deep : (openHeaders p.blocks w.next).length ≤ w.headers.length

lemma NodesFit.block_at {nodes : List Node} (h : NodesFit s p nodes) {n : Nat}
    (hn : nodes[n]? = some node) : ∃ b, p.blocks[n]? = some b ∧ b.SameFrame node.block := by
  have hlt := (List.getElem?_eq_some_iff.1 hn).1
  rw [h.length] at hlt
  exact ⟨_, List.getElem?_eq_getElem hlt, h.frame n _ node (List.getElem?_eq_getElem hlt) hn⟩

/-- A node may be replaced by one with the same frame. -/
lemma NodesFit.set {nodes : List Node} (h : NodesFit s p nodes) {n : Nat} {node' : Node}
    (hn : nodes[n]? = some node) (hframe : node.block.SameFrame node'.block)
    (hwork : ∀ i ∈ node'.block.instructions, i.Workable) (hentry : node'.entry.Sound s.generation)
    (hexit : node'.exit.Sound s.generation) : NodesFit s p (nodes.set n node') := by
  have hmem : ∀ {other : Node}, other ∈ nodes.set n node' → other = node' ∨ other ∈ nodes :=
    fun hother => (List.mem_or_eq_of_mem_set hother).symm
  refine ⟨by rw [List.length_set, h.length], fun m b other hb hm => ?_, fun other hother => ?_,
    fun other hother => ?_, fun other hother => ?_⟩
  · rw [getElem?_visit rfl hn] at hm
    split at hm
    · rename_i heq
      subst heq
      cases hm
      exact (h.frame m b node hb hn).trans hframe
    · exact h.frame m b other hb hm
  · rcases hmem hother with rfl | hother
    · exact hwork
    · exact h.workable other hother
  · rcases hmem hother with rfl | hother
    · exact hentry
    · exact h.entry other hother
  · rcases hmem hother with rfl | hother
    · exact hexit
    · exact h.exit other hother

lemma NodesFit.joinEdges {nodes : List Node} (h : NodesFit s p nodes)
    {edges : List (Nat × Context.Edge)} {c c' : Context} {grew : Bool} (hc : c.Sound s.generation)
    (hjoin : joinEdges nodes edges c = .ok (c', grew)) : c'.Sound s.generation := by
  induction edges generalizing c grew with
  | nil =>
    simp only [Sweep.joinEdges, Except.ok.injEq, Prod.mk.injEq] at hjoin
    exact hjoin.1 ▸ hc
  | cons e rest ih =>
    obtain ⟨pred, more, hpred, hrest, -⟩ := joinEdges_cons.1 hjoin
    exact ih (hc.join (h.exit pred (List.mem_of_getElem? hpred)) e.2) hrest

/-- A visit does not fail, and leaves the stack alone. -/
lemma NodesFit.visit (hv : p.Valid) (h : NodesFit s p w.nodes) {place : Nat}
    (hn : w.nodes[place]? = some node) : ∃ w', w.visit s place node = .ok w'
      ∧ NodesFit s p w'.nodes ∧ w'.headers = w.headers ∧ w'.next = place + 1 := by
  obtain ⟨b, hb, hframe⟩ := h.block_at hn
  have hmem := List.mem_of_getElem? hn
  have hpreds : ∀ e ∈ node.block.edges, e.1 < w.nodes.length := by
    intro e he
    obtain ⟨pred, hpred, heq⟩ := Block.mem_edges (hframe.edges ▸ he)
    rw [heq, h.length]
    exact (hv.placed place b hb).pred_lt pred hpred
  obtain ⟨⟨entry, grew⟩, hjoin⟩ := joinEdges_total hpreds node.entry
  have hentry := h.joinEdges (h.entry node hmem) hjoin
  obtain ⟨⟨block, exit⟩, hrewrite⟩ := Block.insertWaits_total hentry (h.workable node hmem)
  simp only [Sweep.visit, hjoin, hrewrite, bind, Except.bind, pure, Except.pure]
  split
  · exact ⟨_, rfl, h.set hn (.refl _) (h.workable node hmem) hentry (h.exit node hmem), rfl, rfl⟩
  · exact ⟨_, rfl, h.set hn (Block.insertWaits_sameFrame hrewrite)
      (Block.workable_insertWaits hrewrite (h.workable node hmem)) hentry
      (Block.insertWaits_sound hrewrite hentry), rfl, rfl⟩

/-- A step does not fail and keeps the invariant. -/
lemma Fit.step (hv : p.Valid) (hentered : ∀ b ∈ p.blocks, .loopHeader ∈ b.kind →
    .discardEarlyExit ∉ b.kind) (h : Fit s p w) (hn : w.nodes[w.next]? = some node) :
    ∃ w', w.step s w.next node = .ok w' ∧ Fit s p w' := by
  obtain ⟨b, hb, hframe⟩ := h.nodes.block_at hn
  have hplaced := hv.placed w.next b hb
  have hindex : ¬node.block.index.toNat ≠ w.next := by
    rw [hframe.index, hplaced.index]
    exact fun hne => hne rfl
  have hdeep := h.deep
  rw [Sweep.step, if_neg hindex]
  dsimp only
  split
  · -- A block that is skipped does not enter a loop.
    rename_i hdiscard
    refine ⟨_, rfl, h.nodes, h.stack, Nat.le_trans ?_ hdeep⟩
    rw [hframe.kind] at hdiscard
    have hheader : .loopHeader ∉ b.kind := fun hheader =>
      hentered b (List.mem_of_getElem? hb) hheader hdiscard
    by_cases hexit : .loopExit ∈ b.kind
    · simp [openHeaders_exit hb hheader hexit]
    · rw [openHeaders_plain hb hheader hexit]
  split
  · rename_i hheader
    rw [hframe.kind] at hheader
    obtain ⟨w', hvisit, hnodes, hheaders, hnext⟩ :=
      NodesFit.visit (w := { w with headers := w.next :: w.headers }) hv h.nodes hn
    refine ⟨w', hvisit, hnodes, ?_, ?_⟩
    · rw [hheaders]
      exact ⟨hdeep, h.stack⟩
    · rw [hnext, hheaders, openHeaders_header hb hheader]
      exact Nat.succ_le_succ hdeep
  rename_i hheader
  rw [hframe.kind] at hheader
  split
  · -- Validation has found a loop for the exit, and so does the sweep.
    rename_i hexit
    rw [hframe.kind] at hexit
    obtain ⟨top, open', hopen⟩ := List.exists_cons_of_ne_nil (hplaced.exit hheader hexit)
    have htail : openHeaders p.blocks (w.next + 1) = open' := by
      rw [openHeaders_exit hb hheader hexit, hopen]
      rfl
    rw [hopen] at hdeep
    split
    · rename_i hnil
      rw [hnil] at hdeep
      cases hdeep
    · rename_i header rest hstack
      rw [hstack] at hdeep
      have hcovers := h.stack
      rw [hstack] at hcovers
      obtain ⟨hback, hrest⟩ := hcovers
      split
      · exact ⟨_, rfl, h.nodes, hrest, hback⟩
      · obtain ⟨w', hvisit, hnodes, hheaders, hnext⟩ := NodesFit.visit
          (w := { w with headers := rest, progress := min w.progress rest.length }) hv h.nodes hn
        refine ⟨w', hvisit, hnodes, by rw [hheaders]; exact hrest, ?_⟩
        rw [hnext, hheaders, htail]
        exact Nat.le_of_succ_le_succ hdeep
  · rename_i hexit
    rw [hframe.kind] at hexit
    obtain ⟨w', hvisit, hnodes, hheaders, hnext⟩ := NodesFit.visit hv h.nodes hn
    refine ⟨w', hvisit, hnodes, hheaders ▸ h.stack, ?_⟩
    rw [hnext, hheaders, openHeaders_plain hb hheader hexit]
    exact hdeep

/-- A sweep whose steps do not fail and keep an invariant ends with the invariant. -/
lemma run_fits (I : Sweep → Prop)
    (hstep : ∀ {w : Sweep} {node : Node}, I w → w.nodes[w.next]? = some node →
      ∃ w', w.step s w.next node = .ok w' ∧ I w') (hw : I w) : ∃ w', run s w = .ok w' ∧ I w' := by
  have hkeep : ∀ {w w' : Sweep} {node : Node}, I w → w.nodes[w.next]? = some node →
      w.step s w.next node = .ok w' → I w' := by
    intro w w' node hw hn hs
    obtain ⟨w'', hs'', hw''⟩ := hstep hw hn
    rw [hs] at hs''
    cases hs''
    exact hw''
  obtain ⟨w', hrun⟩ := run_total I hkeep
    (fun hw hn => (hstep hw hn).imp fun _ h => h.1) hw
  exact ⟨w', hrun, (run_invariant I hkeep hw hrun).1⟩

end Sweep

/-! ### Headers that are skipped -/

/-- How many headers in front of the place `n` the sweep skips, since lanes jump to them. -/
def skippedHeaders (blocks : List Block) (n : Nat) : Nat :=
  (blocks.take n).countP fun b => decide (.loopHeader ∈ b.kind ∧ .discardEarlyExit ∈ b.kind)

lemma skippedHeaders_succ {blocks : List Block} {n : Nat} {b : Block} (hb : blocks[n]? = some b) :
    skippedHeaders blocks (n + 1) = skippedHeaders blocks n
      + if .loopHeader ∈ b.kind ∧ .discardEarlyExit ∈ b.kind then 1 else 0 := by
  simp [skippedHeaders, List.take_add_one, hb, List.countP_append, List.countP_singleton]

/-- When the sweep goes back to a header, the headers that it has skipped are missing on the stack. -/
def StackLacks (blocks : List Block) : List Nat → Prop
  | [] => True
  | h :: rest => rest.length + skippedHeaders blocks h ≤ (openHeaders blocks h).length
    ∧ StackLacks blocks rest

namespace Sweep

variable {s : Setting} {p : Program} {w w' : Sweep} {node : Node}

/-- The invariant of a sweep that skips no exits. -/
structure Lacks (p : Program) (w : Sweep) : Prop where
  frames : List.Forall₂ Block.SameFrame p.blocks (w.nodes.map Node.block)
  stack : StackLacks p.blocks w.headers
  lacks : w.headers.length + skippedHeaders p.blocks w.next ≤ (openHeaders p.blocks w.next).length

lemma Lacks.step (hv : p.Valid) (hexits : ∀ b ∈ p.blocks, .loopExit ∈ b.kind →
    .discardEarlyExit ∉ b.kind) (hw : Lacks p w) (hn : w.nodes[w.next]? = some node)
    (h : w.step s w.next node = .ok w') : Lacks p w' := by
  have hframes : List.Forall₂ Block.SameFrame p.blocks (w'.nodes.map Node.block) :=
    forall₂_blocks_step (fun hb _ hr => hb.trans (Block.insertWaits_sameFrame hr)) hw.frames hn h
  obtain ⟨b, hb, hkind⟩ : ∃ b, p.blocks[w.next]? = some b ∧ node.block.kind = b.kind := by
    obtain ⟨hlt, rfl⟩ := List.getElem?_eq_some_iff.1 hn
    have hlt' : w.next < p.blocks.length := by rwa [hw.frames.length_eq, List.length_map]
    have hframe := hw.frames.get hlt' (by rwa [List.length_map])
    rw [List.get_eq_getElem, List.get_eq_getElem, List.getElem_map] at hframe
    exact ⟨_, List.getElem?_eq_getElem hlt', hframe.kind⟩
  have hskipped := skippedHeaders_succ hb
  have hlacks := hw.lacks
  have hvisit : ∀ {v : Sweep}, v.visit s w.next node = .ok w' → StackLacks p.blocks v.headers →
      v.headers.length + skippedHeaders p.blocks (w.next + 1)
        ≤ (openHeaders p.blocks (w.next + 1)).length → Lacks p w' := by
    intro v h hstack hle
    obtain ⟨-, -, -, -, -, hheaders, hnext, -⟩ := visit_cases h
    exact ⟨hframes, hheaders ▸ hstack, by rwa [hheaders, hnext]⟩
  rcases step_cases h with ⟨hskip, rfl⟩ | ⟨hvisited, ⟨hheader, h⟩ | ⟨hheader, h⟩⟩
  · -- A header that is skipped is open all the same, and no exit is skipped.
    rw [hkind] at hskip
    refine ⟨hframes, hw.stack, ?_⟩
    change w.headers.length + skippedHeaders p.blocks (w.next + 1) ≤ _
    by_cases hheader : .loopHeader ∈ b.kind
    · rw [hskipped, if_pos ⟨hheader, hskip⟩, openHeaders_header hb hheader, List.length_cons]
      omega
    · rw [hskipped, if_neg fun hno => hheader hno.1, openHeaders_plain hb hheader fun hexit =>
        hexits b (List.mem_of_getElem? hb) hexit hskip]
      exact hlacks
  · rw [hkind] at hvisited hheader
    refine hvisit h ⟨hlacks, hw.stack⟩ ?_
    rw [hskipped, if_neg fun hno => hvisited hno.2, openHeaders_header hb hheader, List.length_cons,
      List.length_cons]
    omega
  rw [hkind] at hvisited hheader
  rw [if_neg fun hno => hvisited hno.2] at hskipped
  rcases h with ⟨hexit, h⟩ | ⟨hexit, header, rest, hheaders, h⟩
  · rw [hkind] at hexit
    refine hvisit h hw.stack ?_
    rw [hskipped, openHeaders_plain hb hheader hexit]
    exact hlacks
  · rw [hkind] at hexit
    have hstack := hw.stack
    rw [hheaders] at hstack hlacks
    rcases h with ⟨-, rfl⟩ | ⟨-, h⟩
    · exact ⟨hframes, hstack.2, hstack.1⟩
    · refine hvisit h hstack.2 ?_
      have hne := List.length_pos_iff.2 ((hv.placed w.next b hb).exit hheader hexit)
      rw [hskipped, openHeaders_exit hb hheader hexit, List.length_tail]
      rw [List.length_cons] at hlacks
      dsimp only
      omega

end Sweep

/-- A sweep that comes to its end and skips no exits has skipped no headers either. -/
lemma Program.entered_of_solve {p : Program} {drainAll : Bool} {w : Sweep} (hv : p.Valid)
    (hexits : ∀ b ∈ p.blocks, .loopExit ∈ b.kind → .discardEarlyExit ∉ b.kind)
    (h : p.solve drainAll = .ok w) : p.LoopsEntered := by
  obtain ⟨nodes, hnodes, hrun⟩ := bind_eq_ok.1 h
  have hstart : Sweep.Lacks p { nodes } := by
    refine ⟨?_, trivial, Nat.zero_le _⟩
    rw [blocks_of_nodes hnodes]
    exact List.forall₂_same.2 fun b _ => .refl b
  obtain ⟨hend, hover⟩ := Sweep.run_invariant (Sweep.Lacks p) (fun hw hn hs => hw.step hv hexits hn hs)
    hstart hrun
  have hlength : p.blocks.length ≤ w.next := by
    rw [hend.frames.length_eq, List.length_map]
    exact List.getElem?_eq_none_iff.1 hover
  -- No loop is open at the end, so that nothing is missing on the stack.
  have hnone : skippedHeaders p.blocks w.next = 0 := by
    have hlacks := hend.lacks
    rw [openHeaders_of_length_le hlength, hv.closed, List.length_nil] at hlacks
    omega
  rw [skippedHeaders, List.take_of_length_le hlength, List.countP_eq_zero] at hnone
  intro b hb hkind hskip
  rcases hkind with hheader | hexit
  · exact hnone b hb (decide_eq_true ⟨hheader, hskip⟩)
  · exact hexits b hb hexit hskip

/-! ### Programs that are guarded -/

namespace Program

variable {p : Program}

/-- A program that is valid, and of which the three things are true that validation does not ask for:
no load from vector memory is wider than 16 units, messages that return a value have a place to put it,
and lanes do not jump to loop headers. -/
structure Guarded (p : Program) : Prop where
  valid : p.validate = .ok ()
  coherent : ∀ b ∈ p.blocks, ∀ i ∈ b.instructions, i.isCoherent = true
  narrow : ∀ b ∈ p.blocks, ∀ i ∈ b.instructions, i.vmemType? p.config.generation ≠ none →
    ∀ d ∈ i.definitions, d.size ≤ 16
  returned : ∀ b ∈ p.blocks, ∀ i ∈ b.instructions,
    i.opcode = .sSendmsgRtnB32 ∨ i.opcode = .sSendmsgRtnB64 → i.definitions ≠ []
  entered : ∀ b ∈ p.blocks, .loopHeader ∈ b.kind → .discardEarlyExit ∉ b.kind

/-- Whether an instruction is a load from vector memory does not depend on the generation. -/
lemma vmemType?_ne_none {i : Instruction} {g g' : Generation} (h : i.vmemType? g ≠ none) :
    i.vmemType? g' ≠ none := by
  revert h
  unfold Instruction.vmemType?
  split
  · simp
  · simp
  · simp
  · split <;> split <;> simp
  · exact id

lemma Guarded.workable (h : p.Guarded) {b : Block} (hb : b ∈ p.blocks) :
    ∀ i ∈ b.instructions, i.Workable := by
  intro i hi
  obtain ⟨n, hn⟩ := List.getElem?_of_mem hb
  exact ⟨h.coherent b hb i hi, ((valid_of_validate h.valid).placed n b hn).instructions i hi,
    fun _ htype => h.narrow b hb i hi (vmemType?_ne_none htype), h.returned b hb i hi⟩

/-- The sweep comes to its end. -/
lemma Guarded.solve_total (h : p.Guarded) (drainAll : Bool) :
    ∃ w, p.solve drainAll = .ok w
      ∧ Sweep.NodesFit { config := p.config, drainAll } p w.nodes := by
  have hv := valid_of_validate h.valid
  obtain ⟨start, hstart, hsound⟩ := startContext_total (s := { config := p.config, drainAll }) hv
  obtain ⟨nodes, hnodes, hlength, hinit⟩ :=
    nodes_eq_ok (s := { config := p.config, drainAll }) fun _ => hstart
  have hfit : Sweep.Fit { config := p.config, drainAll } p { nodes } := by
    have hnode : ∀ node ∈ nodes, node.block ∈ p.blocks ∧ node.entry.Sound p.config.generation
        ∧ node.exit = {} := by
      intro node hnode
      obtain ⟨n, hn⟩ := List.getElem?_of_mem hnode
      obtain ⟨b, hb, rfl⟩ := hinit n node hn
      refine ⟨List.mem_of_getElem? hb, ?_, rfl⟩
      dsimp only
      split
      · exact hsound
      · exact Context.sound_empty _
    refine ⟨⟨hlength, fun n b node hb hn => ?_, fun node hn => h.workable (hnode node hn).1,
      fun node hn => (hnode node hn).2.1, fun node hn => ?_⟩, trivial, Nat.zero_le _⟩
    · obtain ⟨b', hb', rfl⟩ := hinit n node hn
      cases hb.symm.trans hb'
      exact .refl b
    · rw [(hnode node hn).2.2]
      exact Context.sound_empty _
  simp only [solve, hnodes, bind, Except.bind]
  obtain ⟨w, hw, hfit'⟩ := Sweep.run_fits (Sweep.Fit { config := p.config, drainAll } p)
    (fun hw hn => hw.step hv h.entered hn) hfit
  exact ⟨w, hw, hfit'.nodes⟩

end Program

/-! ### The checker -/

namespace Checker

variable {p : Program}

/-- The program can be checked: predecessors exist, the code is workable, and the arguments are
registers. -/
structure Checkable (p : Program) : Prop where
  pred_lt : ∀ b ∈ p.blocks, ∀ pred ∈ b.linearPreds ++ b.logicalPreds, pred.toNat < p.blocks.length
  workable : ∀ b ∈ p.blocks, ∀ i ∈ b.instructions, i.Workable
  argument : ∀ r ∈ p.pendingVmem, r.isValid = true

lemma Checkable.startState (h : Checkable p) : ∃ q, startState p = .ok q := by
  obtain ⟨q, hq, -⟩ := foldlM_total (l := p.pendingVmem.zipIdx) (b := (∅ : Pending))
    (f := fun q x => do
      x.1.checkFits
      x.1.units.foldlM
        (fun q unit => q.start p.config.generation ⟨.argument x.2, unit, .vmem⟩ true true)
        (q.issue p.config.generation .vmem true))
    (fun _ => True) (fun x hx q _ => by
      obtain ⟨q', hq'⟩ := startUnits_total p.config.generation x.2 x.1.units
        (q.issue p.config.generation .vmem true)
      have hvalid := h.argument x.1 (List.fst_mem_of_mem_zipIdx hx)
      simp only [RegRange.checkFits_of_isValid hvalid, bind, Except.bind]
      exact ⟨q', hq', trivial⟩) trivial
  exact ⟨q, hq⟩

/-- The checker comes to its end, whatever it finds. -/
lemma Checkable.check (h : Checkable p) : ∃ found, p.check = .ok found := by
  obtain ⟨start, hstart⟩ := h.startState
  obtain ⟨flows, hsettle, hfixed⟩ := (stepsRun_of_workable h.workable start).fixed h.pred_lt hstart
  obtain ⟨found, hfound, -⟩ := hfixed.check hstart hsettle
  exact ⟨found, hfound⟩

end Checker

/-! ### The result -/

namespace Program

variable {p : Program}

/-- The pass ends without a fault on a guarded program, whatever the options are. -/
theorem Guarded.exists_outcome (h : p.Guarded) (o : Options) :
    ∃ outcome, p.insertWaits o = .ok outcome := by
  have hv := valid_of_validate h.valid
  obtain ⟨w, hw, hfit⟩ := h.solve_total o.drainAll
  simp only [insertWaits, hw, bind, Except.bind]
  split
  · have hcheckable : Checker.Checkable (p.withNodes w.nodes) := by
      have hnode : ∀ b' ∈ (p.withNodes w.nodes).blocks, ∃ (n : Nat) (node : Node), w.nodes[n]? = some node
          ∧ node.block = b' := by
        intro b' hb'
        obtain ⟨node, hnode, rfl⟩ := List.mem_map.1 hb'
        obtain ⟨n, hn⟩ := List.getElem?_of_mem hnode
        exact ⟨n, node, hn, rfl⟩
      have hlength : (p.withNodes w.nodes).blocks.length = p.blocks.length := by
        rw [withNodes, List.length_map, hfit.length]
      refine ⟨fun b' hb' => ?_, fun b' hb' => ?_, hv.argument⟩
      · obtain ⟨n, node, hn, rfl⟩ := hnode b' hb'
        obtain ⟨b, hb, hframe⟩ := hfit.block_at hn
        rw [hframe.linearPreds, hframe.logicalPreds, hlength]
        exact (hv.placed n b hb).pred_lt
      · obtain ⟨n, node, hn, rfl⟩ := hnode b' hb'
        exact hfit.workable node (List.mem_of_getElem? hn)
    obtain ⟨found, hfound⟩ := hcheckable.check
    simp only [hfound]
    exact ⟨_, rfl⟩
  · exact ⟨_, rfl⟩

/-- A loop that is entered again from behind its exit, around a message that returns two values, a wide
result of the vector unit and an exit that lanes jump to. -/
def detour : Program where
  config := { generation := .gfx11 }
  blocks := [
    Sample.block 0 {.topLevel} [] 0 [⟨.vMovB32, [⟨.vgpr 0, 32⟩], [.const 0], .valu⟩],
    Sample.block 1 {.loopHeader} [0, 3] 1
      [⟨.sSendmsgRtnB32, [⟨.sgpr 0, 1⟩, ⟨.sgpr 1, 1⟩], [.const 0], .salu⟩],
    Sample.block 2 {.loopExit} [1] 0 [Sample.bufferLoad (.vgpr 0) (.vgpr 1)],
    Sample.block 3 {.discardEarlyExit} [2] 0 [Sample.endProgram]]

lemma guarded_detour : detour.Guarded where
  valid := by decide +kernel
  coherent := by decide +kernel
  narrow := by decide +kernel
  returned := by decide +kernel
  entered := by decide +kernel

theorem exists_outcome_detour : detour.Guarded
    ∧ ∃ outcome, detour.insertWaits { drainAll := true, check := true } = .ok outcome :=
  ⟨guarded_detour, guarded_detour.exists_outcome { drainAll := true, check := true }⟩

/-! ### What slips through -/

/-- A message that returns a value to no register. -/
def lostReply : Program where
  blocks := [Sample.block 0 {.topLevel} [] 0 [⟨.sSendmsgRtnB32, [], [.const 0], .salu⟩]]

/-- Two loads into the same 32 registers. -/
def wideLoads : Program where
  blocks := [Sample.block 0 {.topLevel} [] 0
    (List.replicate 2 ⟨.bufferLoadDword, [⟨.vgpr 0, 32⟩],
      [.reg ⟨.sgpr 0, 4⟩, .reg ⟨.vgpr 40, 1⟩, .const 0], .vmem {}⟩)]

/-- A loop whose header lanes jump to. -/
def skippedHeader : Program where
  blocks := [
    Sample.block 0 {.topLevel} [] 0 [],
    Sample.block 1 (.ofList [.loopHeader, .discardEarlyExit]) [0, 1] 1 [],
    Sample.block 2 {.loopExit} [1] 0 [Sample.endProgram]]

/-- Validation accepts programs on which the pass faults. -/
theorem insertWaits_faults :
    (∀ p ∈ [lostReply, wideLoads, skippedHeader],
      (∀ b ∈ p.blocks, ∀ i ∈ b.instructions, i.isCoherent = true) ∧ p.validate = .ok ())
    ∧ lostReply.insertWaits = .error (.missingDefinition .sSendmsgRtnB32 0)
    ∧ wideLoads.insertWaits = .error .overflow
    ∧ skippedHeader.insertWaits = .error (.exitOutsideLoop 2) := by
  have hfault : ∀ (p : Program) (fault : Fault), p.solve false = .error fault →
      p.insertWaits = .error fault := by
    intro p fault h
    simp only [insertWaits, h]
    rfl
  exact ⟨by decide +kernel, hfault _ _ (solve_eq_error 10 (by decide +kernel)),
    hfault _ _ (solve_eq_error 10 (by decide +kernel)),
    hfault _ _ (solve_eq_error 10 (by decide +kernel))⟩

end Program

end GpuWaits
