/-
# Only directives change

The sweep takes blocks apart, rewrites them and puts them back, and it does so many times to the blocks of
a loop.  This file shows that nothing of the program is lost on the way
(`Program.keepsCode_of_solve`): apart from waits, barriers and the message that releases the registers, a
block holds the same instructions in the same order as before.  All that may change in them is the wait
for exports that an interpolation carries out by itself, and this wait only gets stronger.

Nothing is asked of the program: instructions need not be coherent, and blocks need not be placed where
they say.
-/
import GpuWaits.Proofs.Bounded
import GpuWaits.Proofs.FixedPoint
import GpuWaits.Sample.Code

namespace GpuWaits

/-! ### Instructions that stay -/

namespace Instruction

variable {i j k : Instruction} {s : Setting}

/-- The instruction with the wait for exports that it carries out by itself blanked out. -/
def bare (i : Instruction) : Instruction :=
  match i.payload with
  | .interp _ => { i with payload := .interp 0 }
  | _ => i

/-- Where both instructions wait for exports by themselves, the second one waits at least as long. -/
def WaitsAsLong (i kept : Instruction) : Prop :=
  ∀ n m : UInt8, i.payload = .interp n → kept.payload = .interp m → m ≤ n

lemma TakesOver.trans (hij : i.TakesOver j) (hjk : j.TakesOver k) : i.TakesOver k := by
  rcases hij with rfl | ⟨n, m, hn, hle, rfl⟩
  · exact hjk
  rcases hjk with rfl | ⟨n', l, hn', hle', rfl⟩
  · exact .inr ⟨n, m, hn, hle, rfl⟩
  · cases hn'
    exact .inr ⟨n, l, hn, UInt8.le_trans hle' hle, rfl⟩

lemma TakesOver.bare_eq (h : i.TakesOver j) : j.bare = i.bare := by
  rcases h with rfl | ⟨n, m, hn, -, rfl⟩
  · rfl
  · simp only [bare, hn]

lemma TakesOver.waitsAsLong (h : i.TakesOver j) : i.WaitsAsLong j := by
  intro n m hn hm
  rcases h with rfl | ⟨n', m', hn', hle, rfl⟩
  · rw [hn] at hm
    cases hm
    exact UInt8.le_refl _
  · rw [hn] at hn'
    cases hn'
    cases hm
    exact hle

/-- An interpolation is not a directive, whatever it waits for. -/
lemma TakesOver.isDirective_eq (h : i.TakesOver j) (s : Setting) :
    j.isDirective s = i.isDirective s := by
  rcases h with rfl | ⟨n, m, hn, -, rfl⟩
  · rfl
  · simp only [isDirective, isWait, isBarrier, isRegisterRelease, immediate?, format, hn]

lemma IsInserted.isDirective (h : i.IsInserted s) : i.isDirective s = true := by
  rcases h with ⟨w, rfl⟩ | ⟨w, rfl⟩ | ⟨hg, rfl⟩
  · rfl
  · rfl
  · simp [Instruction.isDirective, isRegisterRelease, immediate?, ofImmediate, hg]

end Instruction

/-! ### The code of a block -/

/-- The instructions that are not directives. -/
def codeOf (s : Setting) (is : List Instruction) : List Instruction :=
  is.filter fun i => !i.isDirective s

lemma codeOf_append (s : Setting) (is js : List Instruction) :
    codeOf s (is ++ js) = codeOf s is ++ codeOf s js :=
  List.filter_append ..

lemma codeOf_eq_nil {s : Setting} {is : List Instruction} (h : ∀ i ∈ is, i.IsInserted s) :
    codeOf s is = [] := by
  rw [codeOf, List.filter_eq_nil_iff]
  intro i hi
  simp [(h i hi).isDirective]

lemma forall₂_trans {α : Type} {R : α → α → Prop} (hR : ∀ {a b c}, R a b → R b c → R a c)
    {as bs cs : List α} (hab : List.Forall₂ R as bs) (hbc : List.Forall₂ R bs cs) :
    List.Forall₂ R as cs := by
  induction hab generalizing cs with
  | nil => exact hbc
  | cons hfirst _ ih =>
    cases hbc with
    | cons hfirst' hrest => exact .cons (hR hfirst hfirst') (ih hrest)

lemma map_bare_eq {is js : List Instruction} (h : List.Forall₂ Instruction.TakesOver is js) :
    js.map Instruction.bare = is.map Instruction.bare := by
  induction h with
  | nil => rfl
  | cons htakes _ ih => rw [List.map_cons, List.map_cons, htakes.bare_eq, ih]

namespace Walk

variable {s : Setting} {i : Instruction} {rest : List Instruction} {w w' : Walk}

/-- A step puts its instruction out exactly once, unless it is a directive. -/
lemma codeOf_step {out : List Instruction} (h : step s i rest w = .ok (out, w')) :
    List.Forall₂ Instruction.TakesOver (codeOf s [i]) (codeOf s out) := by
  have hqueue : ∀ q : Queue, codeOf s q.instructions = [] := fun q =>
    codeOf_eq_nil fun j hj => Queue.isInserted_of_mem hj s
  have hfinish : ∀ c q, codeOf s (finish s i c q).1 = [] := fun c q =>
    codeOf_eq_nil fun j hj => isInserted_of_mem_finish hj
  rcases step_eq_ok.1 h with ⟨hrelease, rfl, -⟩ | ⟨hrelease, left, c, q, c', -, -, hcases⟩
  · have hdirective : i.isDirective s = true := by simp [Instruction.isDirective, hrelease]
    simp [codeOf, hdirective]
  rcases hcases with ⟨hremoved, rfl, -⟩ | ⟨hkept, rfl, -⟩
  · have hdirective : i.isDirective s = true := by
      rw [Instruction.isDirective, Bool.or_comm i.isWait, hremoved, Bool.true_or]
    rw [hfinish]
    simp [codeOf, hdirective]
  · have hdirective : i.isDirective s = false := by
      rw [Instruction.isDirective, Bool.or_comm i.isWait, hkept, hrelease, Bool.false_or]
    have htakes := (absorb_spec i (finish s i c q).2).1
    rw [codeOf_append, codeOf_append, hfinish, hqueue]
    simp [codeOf, hdirective, htakes.isDirective_eq, htakes]

lemma codeOf_steps {is out : List Instruction} (h : steps s is w = .ok (out, w')) :
    List.Forall₂ Instruction.TakesOver (codeOf s is) (codeOf s out) := by
  induction is generalizing w out with
  | nil =>
    cases h
    exact .nil
  | cons i rest ih =>
    obtain ⟨emitted, w₁, later, hstep, hrest, rfl⟩ := steps_cons h
    rw [codeOf_append, ← List.singleton_append, codeOf_append]
    exact List.rel_append (codeOf_step hstep) (ih hrest)

end Walk

namespace Block

variable {s : Setting} {b b' b'' : Block} {c c' : Context}

lemma codeOf_insertWaits (h : b.insertWaits s c = .ok (b', c')) :
    List.Forall₂ Instruction.TakesOver (codeOf s b.instructions) (codeOf s b'.instructions) := by
  obtain ⟨code, w, hsteps, rfl, -⟩ := insertWaits_eq_ok.1 h
  have hqueue : codeOf s (b.finalQueue w).instructions = [] :=
    codeOf_eq_nil fun j hj => Queue.isInserted_of_mem hj s
  rw [codeOf_append, hqueue, List.append_nil]
  exact Walk.codeOf_steps hsteps

/-- The block `b'` is what rewrites make of `b`. -/
structure RewrittenTo (s : Setting) (b b' : Block) : Prop where
  frame : b.SameFrame b'
  skipped : .discardEarlyExit ∈ b.kind → b' = b
  code : List.Forall₂ Instruction.TakesOver (codeOf s b.instructions) (codeOf s b'.instructions)

lemma RewrittenTo.refl (s : Setting) (b : Block) : b.RewrittenTo s b :=
  ⟨.refl b, fun _ => rfl, List.forall₂_same.2 fun _ _ => .inl rfl⟩

lemma RewrittenTo.insertWaits (h : b.RewrittenTo s b') (hkind : .discardEarlyExit ∉ b'.kind)
    (hrewrite : b'.insertWaits s c = .ok (b'', c')) : b.RewrittenTo s b'' := by
  have hframe := h.frame
  refine ⟨hframe.trans (insertWaits_sameFrame hrewrite), fun hskip => ?_, ?_⟩
  · rw [hframe.kind] at hkind
    exact absurd hskip hkind
  · exact forall₂_trans (fun hij hjk => hij.trans hjk) h.code (codeOf_insertWaits hrewrite)

/-- The block `b'` has the code of `b`, in the same order and in the same place of the program. -/
structure KeepsCode (s : Setting) (b b' : Block) : Prop where
  frame : b.SameFrame b'
  skipped : .discardEarlyExit ∈ b.kind → b' = b
  code : (codeOf s b'.instructions).map Instruction.bare
    = (codeOf s b.instructions).map Instruction.bare
  waits : List.Forall₂ Instruction.WaitsAsLong (codeOf s b.instructions) (codeOf s b'.instructions)

lemma RewrittenTo.keepsCode (h : b.RewrittenTo s b') : b.KeepsCode s b' where
  frame := h.frame
  skipped := h.skipped
  code := map_bare_eq h.code
  waits := h.code.imp fun _ _ htakes => htakes.waitsAsLong

end Block

/-! ### The sweep -/

namespace Sweep

variable {s : Setting} {w w' : Sweep} {node : Node} {place : Nat}

/-- A step leaves the blocks as they are, or rewrites the one that it visits. -/
lemma blocks_step (hn : w.nodes[place]? = some node) (h : w.step s place node = .ok w') :
    w'.nodes.map Node.block = w.nodes.map Node.block ∨ .discardEarlyExit ∉ node.block.kind
      ∧ ∃ entry block exit, node.block.insertWaits s entry = .ok (block, exit)
        ∧ w'.nodes.map Node.block = (w.nodes.map Node.block).set place block := by
  rcases step_rewrite h with ⟨-, hnodes⟩ | ⟨hkind, v, hnodes, hvisit, -⟩
  · exact .inl (by rw [hnodes])
  obtain ⟨entry, -, -, ⟨-, -, hset⟩ | ⟨block, exit, hrewrite, -, hset⟩⟩ := visit_rewrite hvisit
  · have hblock : (w.nodes.map Node.block)[place]? = some node.block := by
      rw [List.getElem?_map, hn, Option.map_some]
    obtain ⟨hlt, heq⟩ := List.getElem?_eq_some_iff.1 hblock
    refine .inl ?_
    rw [hset, hnodes, List.map_set, ← heq, List.set_getElem_self]
  · exact .inr ⟨hkind, entry, block, exit, hrewrite, by rw [hset, hnodes, List.map_set]⟩

lemma forall₂_set {R : Block → Block → Prop} {bs bs' : List Block} (h : List.Forall₂ R bs bs')
    {n : Nat} {b' b'' : Block} (hn : bs'[n]? = some b') (hR : ∀ b, R b b' → R b b'') :
    List.Forall₂ R bs (bs'.set n b'') := by
  induction h generalizing n with
  | nil => exact .nil
  | cons hb hrest ih =>
    cases n with
    | zero =>
      cases hn
      exact .cons (hR _ hb) hrest
    | succ n => exact .cons hb (ih hn)

/-- What rewrites keep of a block, steps keep of all blocks. -/
lemma forall₂_blocks_step {R : Block → Block → Prop}
    (hR : ∀ {b b' b'' : Block} {c c' : Context}, R b b' → .discardEarlyExit ∉ b'.kind →
      b'.insertWaits s c = .ok (b'', c') → R b b'') {blocks : List Block}
    (hw : List.Forall₂ R blocks (w.nodes.map Node.block)) (hn : w.nodes[place]? = some node)
    (h : w.step s place node = .ok w') : List.Forall₂ R blocks (w'.nodes.map Node.block) := by
  rcases blocks_step hn h with heq | ⟨hkind, entry, block, exit, hrewrite, heq⟩
  · rwa [heq]
  · rw [heq]
    refine forall₂_set hw ?_ fun b hb => hR hb hkind hrewrite
    rw [List.getElem?_map, hn, Option.map_some]

end Sweep

namespace Program

variable {p : Program} {drainAll : Bool} {w : Sweep}

lemma blocks_of_nodes {s : Setting} {nodes : List Node} (h : p.nodes s = .ok nodes) :
    nodes.map Node.block = p.blocks := by
  rw [Program.nodes] at h
  split at h
  · rename_i hnil
    cases h
    rw [hnil]
    rfl
  · rename_i first rest hblocks
    simp only [bind_eq_ok, pure_eq_ok] at h
    obtain ⟨entry, -, rfl⟩ := h
    simp [hblocks, Function.comp_def]

/-- Inserting waits changes nothing but directives.  What the program is apart from its blocks stays, and
each block keeps its place, its kind, its predecessors, its depth and its code. -/
theorem keepsCode_of_solve (h : p.solve drainAll = .ok w) :
    ∃ blocks, p.withNodes w.nodes = { p with blocks }
      ∧ List.Forall₂ (Block.KeepsCode { config := p.config, drainAll }) p.blocks blocks := by
  obtain ⟨nodes, hnodes, hrun⟩ := bind_eq_ok.1 h
  have hstart : List.Forall₂ (Block.RewrittenTo { config := p.config, drainAll }) p.blocks
      (nodes.map Node.block) := by
    rw [blocks_of_nodes hnodes]
    exact List.forall₂_same.2 fun b _ => .refl _ b
  have hend := (Sweep.run_invariant
    (fun w => List.Forall₂ (Block.RewrittenTo { config := p.config, drainAll }) p.blocks
      (w.nodes.map Node.block))
    (fun hw hn hs => Sweep.forall₂_blocks_step (fun hb => hb.insertWaits) hw hn hs) hstart hrun).1
  exact ⟨w.nodes.map Node.block, rfl, hend.imp fun _ _ hb => hb.keepsCode⟩

/-- An interpolation that waits for exports by itself. -/
def interpolate (wait : UInt8) : Instruction where
  opcode := .vInterpP10F32Inreg
  definitions := [⟨.vgpr 0, 1⟩]
  operands := [Sample.one (.vgpr 1), Sample.one (.vgpr 3), Sample.one (.vgpr 1)]
  payload := .interp wait

/-- A loop that interpolates into the register which it exports, with the waits of the interpolation,
and with other directives in front of the loop and behind it. -/
def shadingLoop (wait : UInt8) (before after : List Instruction) : Program where
  config := { generation := .gfx11 }
  blocks := [
    Sample.block 0 {.topLevel} [] 0 (Sample.bufferStore (.vgpr 1) (.vgpr 2) :: before),
    Sample.block 1 {.loopHeader} [0, 2] 1 [interpolate wait],
    Sample.block 2 {} [1] 1 [Sample.exportOne 32 (.vgpr 0), Sample.branch],
    Sample.block 3 {.loopExit} [2] 0 (after ++ [Sample.endProgram])]

/-- The loop with a barrier and a message, and without a wait. -/
def shading : Program :=
  shadingLoop 7 [Sample.askBarrier {.buffer} .workgroup]
    [.ofImmediate .sSendmsg Instruction.releaseMessage]

theorem keepsCode_shading : ∃ w, shading.solve false = .ok w
    ∧ shading.withNodes w.nodes = shadingLoop 0 [] []
    ∧ ∃ blocks, shading.withNodes w.nodes = { shading with blocks }
      ∧ List.Forall₂ (Block.KeepsCode { config := shading.config }) shading.blocks blocks := by
  obtain ⟨w, hw, hresult⟩ : ∃ w, shading.solve false = .ok w
      ∧ shading.withNodes w.nodes = shadingLoop 0 [] [] := exists_solve 20 (by decide +kernel)
  exact ⟨w, hw, hresult, keepsCode_of_solve hw⟩

end Program

end GpuWaits
