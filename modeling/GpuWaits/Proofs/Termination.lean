/-
# The sweep ends

The sweep goes back to a loop header as long as some block of the loop has been processed, and it trusts
the kinds, depths and predecessors of blocks in this, whether they make sense or not.  Each step brings
it nearer to the end all the same (`Sweep.step_advances`).  This file turns that into a number: a program
has a greatest number of steps, which can be read off its blocks (`Program.maxSteps`), and no sweep over
it makes more (`Program.sweep_ends`).

The number is a product of three parts, one for each thing that a step can use up.  A block that is
processed again uses up headroom of the context at its entry.  Going back to a header uses up progress,
which is never more than the depth of some block.  Every other step uses up one of the blocks ahead.
-/
import Mathlib.Algebra.Group.Nat.Defs
import Mathlib.Data.List.MinMax
import GpuWaits.Proofs.Frame

namespace GpuWaits

lemma eq_ok_of_toOption {α : Type} {x : Except Fault α} {a : α} (h : x.toOption = some a) :
    x = .ok a := by
  cases x with
  | error fault => cases h
  | ok b =>
    cases h
    rfl

/-! ### The most headroom -/

lemma total_le_length_mul {α : Type} {f : α → Nat} {bound : Nat} {l : List α}
    (h : ∀ a ∈ l, f a ≤ bound) : total f l ≤ l.length * bound := by
  induction l with
  | nil => exact Nat.zero_le _
  | cons a l ih =>
    have hrest := ih fun b hb => h b (List.mem_cons_of_mem _ hb)
    have ha := h a (by simp)
    rw [total, List.length_cons, Nat.succ_mul]
    omega

lemma Flags.headroom_lt {α : Type} {w : Nat} (s : Flags α w) : s.headroom < 2 ^ w :=
  (~~~s.bits).isLt

lemma Wait.headroom_le_sum (w : Wait) : w.headroom ≤ 7 * 65535 :=
  total_le_length_mul fun c _ => Nat.le_of_lt_succ (w.get c).toNat_lt

lemma Entry.headroom_lt (e : Entry) : e.headroom < 2 ^ 20 := by
  have hwait := e.wait.headroom_le_sum
  have hevents := e.events.headroom_lt
  have hlanes := e.laneEvents.headroom_lt
  have hcounters := e.counters.headroom_lt
  have hblocks := Bool.toNat_le (!e.blocksReads)
  have htypes := e.vmemTypes.headroom_lt
  have hhalves := e.halves.headroom_lt
  simp only [headroom]
  omega

lemma RegMap.headroom_le (m : RegMap) : m.headroom ≤ 65536 * 2 ^ 20 := by
  have hunits : allUnits.length = 65536 := by simp [allUnits, UInt16.size]
  rw [← hunits]
  refine total_le_length_mul fun r _ => ?_
  cases m[r]? with
  | none => exact Entry.vacant.headroom_lt
  | some e => exact Nat.le_of_lt e.headroom_lt

lemma Barrier.headroom_le (b : Barrier) : b.headroom ≤ 8 * 2 ^ 20 := by
  refine total_le_length_mul fun k _ => ?_
  have hwait := (b.demand k).wait.headroom_le_sum
  have hevents := (b.demand k).events.headroom_lt
  simp only [Demand.headroom]
  omega

/-- There is a bound on how often a context can grow. -/
lemma Context.headroom_lt (c : Context) : c.headroom < 2 ^ 37 := by
  have hnonzero := c.nonzero.headroom_lt
  have hlgkm := Bool.toNat_le (!c.flatLgkm)
  have hvm := Bool.toNat_le (!c.flatVm)
  have hregs := c.regs.headroom_le
  have hbarriers : total (fun role => (c.barrier role).headroom) BarrierRole.all ≤ 4 * (8 * 2 ^ 20) :=
    total_le_length_mul fun role _ => (c.barrier role).headroom_le
  simp only [headroom]
  omega

namespace Sweep

variable {s : Setting} {w w' : Sweep} {node : Node} {place depth : Nat}

/-! ### The distance to the end -/

/-- How many steps the sweep can still make, at most, if no block is deeper than `depth`. -/
def distance (depth : Nat) (w : Sweep) : Nat :=
  (w.headroom * (depth + 1) + w.progress) * (w.nodes.length + 1) + (w.nodes.length - w.next)

/-- What the bound on the number of steps rests on. -/
structure Within (depth : Nat) (w : Sweep) : Prop where
  blocks : ∀ b ∈ w.nodes.map Node.block, b.loopDepth.toNat ≤ depth
  progress : w.progress ≤ depth

lemma distance_lt (h : w.Advances w') (hlength : w'.nodes.length = w.nodes.length)
    (hprogress : w'.progress ≤ depth) : w'.distance depth < w.distance depth := by
  rw [distance, distance, hlength]
  -- One unit of headroom or of progress is worth more than all the blocks ahead.
  have hworth : ∀ a b m n : Nat, a < b →
      a * (w.nodes.length + 1) + (w.nodes.length - m) < b * (w.nodes.length + 1) + n := by
    intro a b m n hab
    have := Nat.mul_le_mul_right (w.nodes.length + 1) (Nat.succ_le_of_lt hab)
    rw [Nat.succ_mul] at this
    omega
  rcases h with hroom | ⟨hroom, hback | ⟨hsame, hnext⟩⟩
  · refine hworth _ _ _ _ ?_
    have := Nat.mul_le_mul_right (depth + 1) (Nat.succ_le_of_lt hroom)
    rw [Nat.succ_mul] at this
    omega
  · refine hworth _ _ _ _ ?_
    have := Nat.mul_le_mul_right (depth + 1) hroom
    omega
  · have hle : (w'.headroom * (depth + 1) + w'.progress) * (w.nodes.length + 1)
        ≤ (w.headroom * (depth + 1) + w.progress) * (w.nodes.length + 1) :=
      Nat.mul_le_mul_right _ (Nat.add_le_add (Nat.mul_le_mul_right _ hroom) hsame)
    rw [hlength] at hnext
    omega

lemma length_step (hn : w.nodes[place]? = some node) (h : w.step s place node = .ok w') :
    w'.nodes.length = w.nodes.length := by
  have hmap : (w'.nodes.map Node.block).length = (w.nodes.map Node.block).length := by
    rcases blocks_step hn h with heq | ⟨-, entry, block, exit, -, heq⟩
    · rw [heq]
    · rw [heq, List.length_set]
  rwa [List.length_map, List.length_map] at hmap

/-- Progress is the depth of some block. -/
lemma progress_step (h : w.step s place node = .ok w') :
    w'.progress ≤ max w.progress node.block.loopDepth.toNat := by
  have hvisit : ∀ {v : Sweep}, v.progress ≤ w.progress → v.visit s place node = .ok w' →
      w'.progress ≤ max w.progress node.block.loopDepth.toNat := by
    intro v hv h
    obtain ⟨-, -, -, -, -, -, -, ⟨-, -, -, heq⟩ | ⟨-, -, -, -, heq⟩⟩ := visit_cases h <;>
      rw [heq] <;> omega
  rcases step_cases h with ⟨-, rfl⟩ | ⟨-, ⟨-, h⟩ | ⟨-, h⟩⟩
  · exact Nat.le_max_left _ _
  · exact hvisit (v := { w with headers := place :: w.headers }) (Nat.le_refl _) h
  rcases h with ⟨-, h⟩ | ⟨-, header, headers, -, ⟨-, rfl⟩ | ⟨-, h⟩⟩
  · exact hvisit (Nat.le_refl _) h
  · exact Nat.le_trans (Nat.min_le_left _ _) (Nat.le_max_left _ _)
  · exact hvisit (Nat.min_le_left _ _) h

lemma Within.step (hw : w.Within depth) (hn : w.nodes[place]? = some node)
    (h : w.step s place node = .ok w') : w'.Within depth := by
  have hnode : node.block.loopDepth.toNat ≤ depth :=
    hw.blocks _ (List.mem_map_of_mem (List.mem_of_getElem? hn))
  refine ⟨?_, Nat.le_trans (progress_step h) (Nat.max_le.2 ⟨hw.progress, hnode⟩)⟩
  rcases blocks_step hn h with heq | ⟨-, entry, block, exit, hrewrite, heq⟩
  · rw [heq]
    exact hw.blocks
  · intro b hb
    rw [heq] at hb
    rcases List.mem_or_eq_of_mem_set hb with hb | rfl
    · exact hw.blocks b hb
    · rw [(Block.insertWaits_sameFrame hrewrite).loopDepth]
      exact hnode

/-- Each step uses up a part of the distance. -/
lemma Within.distance_step (hw : w.Within depth) (hn : w.nodes[w.next]? = some node)
    (h : w.step s w.next node = .ok w') : w'.distance depth < w.distance depth :=
  distance_lt (step_advances hn h) (length_step hn h) (hw.step hn h).progress

/-! ### The number of steps -/

/-- The sweep after `n` more steps, if it makes so many. -/
def after (s : Setting) : (n : Nat) → Sweep → Option Sweep
  | 0, w => some w
  | n + 1, w => do
    let node ← w.nodes[w.next]?
    let w' ← (w.step s w.next node).toOption
    after s n w'

lemma Within.le_distance {n : Nat} (hw : w.Within depth) (h : w.after s n = some w') :
    n ≤ w.distance depth := by
  induction n generalizing w with
  | zero => exact Nat.zero_le _
  | succ n ih =>
    simp only [after, Option.bind_eq_bind, Option.bind_eq_some_iff] at h
    obtain ⟨node, hn, w₁, hstep, hrest⟩ := h
    have hstep := eq_ok_of_toOption hstep
    have hlt := hw.distance_step hn hstep
    have hle := ih (hw.step hn hstep) hrest
    omega

/-- A limit beyond the distance to the end is no limit. -/
lemma Within.runUpTo_eq {limit : Nat} (hw : w.Within depth) (hlimit : w.distance depth < limit) :
    w.runUpTo s limit = some (run s w) := by
  induction limit generalizing w with
  | zero => cases hlimit
  | succ limit ih =>
    rw [runUpTo, run_eq]
    split
    · rfl
    · rename_i node hn
      split
      · rename_i hstep
        rw [hstep]
        rfl
      · rename_i w₁ hstep
        have hlt := hw.distance_step hn hstep
        rw [ih (hw.step hn hstep) (by omega), hstep]
        rfl

end Sweep

namespace Program

variable {p : Program}

/-- The depth of the deepest block. -/
def maxDepth (p : Program) : Nat := (p.blocks.map fun b => b.loopDepth.toNat).foldr max 0

/-- The greatest number of steps that a sweep over the program can make. -/
def maxSteps (p : Program) : Nat :=
  p.blocks.length * 2 ^ 37 * (p.maxDepth + 1) * (p.blocks.length + 1) + p.blocks.length

/-- The sweep over the program after `n` steps, if it makes so many. -/
def sweepAfter (p : Program) (drainAll : Bool) (n : Nat) : Option Sweep := do
  let nodes ← (p.nodes { config := p.config, drainAll }).toOption
  Sweep.after { config := p.config, drainAll } n { nodes }

lemma le_maxDepth {b : Block} (h : b ∈ p.blocks) : b.loopDepth.toNat ≤ p.maxDepth :=
  List.le_max_of_le' 0 (List.mem_map_of_mem h) (Nat.le_refl _)

lemma within_start {s : Setting} {nodes : List Node} (h : p.nodes s = .ok nodes) :
    Sweep.Within p.maxDepth { nodes } := by
  refine ⟨fun b hb => le_maxDepth ?_, Nat.zero_le _⟩
  rwa [← blocks_of_nodes h]

lemma distance_start {s : Setting} {nodes : List Node} (h : p.nodes s = .ok nodes) :
    Sweep.distance p.maxDepth { nodes } ≤ p.maxSteps := by
  have hlength : nodes.length = p.blocks.length := by rw [← blocks_of_nodes h, List.length_map]
  have hroom : Sweep.headroom { nodes } ≤ nodes.length * 2 ^ 37 := by
    refine total_le_length_mul fun node _ => ?_
    have hentry := node.entry.headroom_lt
    have hdone := Bool.toNat_le (!node.done)
    simp only [Node.headroom]
    omega
  rw [hlength] at hroom
  simp only [Sweep.distance, maxSteps, hlength, Nat.add_zero, Nat.sub_zero]
  exact Nat.add_le_add_right (Nat.mul_le_mul_right _ (Nat.mul_le_mul_right _ hroom)) _

/-- The sweep over a program ends, whatever the program is like: it makes no more than `p.maxSteps` steps,
and a sweep that is given one step more comes to its end, with the same result or the same fault. -/
theorem sweep_ends (p : Program) (drainAll : Bool) :
    (∀ n w, p.sweepAfter drainAll n = some w → n ≤ p.maxSteps)
      ∧ p.solveUpTo drainAll (p.maxSteps + 1) = some (p.solve drainAll) := by
  constructor
  · intro n w h
    simp only [sweepAfter, Option.bind_eq_bind, Option.bind_eq_some_iff] at h
    obtain ⟨nodes, hnodes, hafter⟩ := h
    have hnodes := eq_ok_of_toOption hnodes
    exact Nat.le_trans ((within_start hnodes).le_distance hafter) (distance_start hnodes)
  · simp only [solveUpTo, solve]
    cases hnodes : p.nodes { config := p.config, drainAll } with
    | error fault => rfl
    | ok nodes =>
      exact (within_start hnodes).runUpTo_eq (Nat.lt_succ_of_le (distance_start hnodes))

/-- Two loops with one exit, which is deeper than both and leads back into the outer one. -/
def tangle : Program where
  blocks := [
    Sample.block 0 {.loopHeader} [2] 1 [Sample.bufferLoad (.vgpr 0) (.vgpr 1)],
    Sample.block 1 {.loopHeader} [0, 2] 2 [Sample.bufferLoad (.vgpr 1) (.vgpr 0)],
    Sample.block 2 {.loopExit} [1] 3 [Sample.bufferStore (.vgpr 0) (.vgpr 1)]]

theorem sweep_ends_tangle : ∃ w, tangle.sweepAfter false 5 = some w ∧ 5 ≤ tangle.maxSteps
    ∧ tangle.solveUpTo false (tangle.maxSteps + 1) = some (tangle.solve false) := by
  obtain ⟨w, hw⟩ := Option.isSome_iff_exists.1
    (show (tangle.sweepAfter false 5).isSome = true by decide +kernel)
  exact ⟨w, hw, (sweep_ends tangle false).1 5 w hw, (sweep_ends tangle false).2⟩

end Program

end GpuWaits
