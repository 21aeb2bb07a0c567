/-
# The sweep over the blocks

Blocks are visited in layout order, and each visit joins the contexts at the ends of the
predecessors into the context at the entry of the block.  A block is processed when it is met for
the first time and whenever this join changes something.  At the exit of a loop the sweep goes back
to the header as long as some block of the loop has been processed since the header was entered.

The sweep ends: processing a block for the second time takes headroom away from its entry, going back
lowers the progress, and all other visits go forward (`Sweep.step_advances`).
-/
import GpuWaits.Context.Headroom
import GpuWaits.Insertion.Block

namespace GpuWaits

/-- A block, with what is known at its two ends. -/
structure Node where
  block : Block
  /-- The context at the entry. -/
  entry : Context := {}
  /-- The context at the end. -/
  exit : Context := {}
  /-- The block has been processed. -/
  done : Bool := false

/-- How often the node can still be processed, at most. -/
def Node.headroom (n : Node) : Nat := n.entry.headroom + (!n.done).toNat

namespace Block

/-- Divergent paths merge in the block: it joins several logical paths, and some linear predecessor
carries no lanes of its own. -/
def mergesLanes (b : Block) : Bool :=
  b.logicalPreds.length > 1 && b.linearPreds.any fun pred => !b.logicalPreds.contains pred

/-- The edges into the block, linear ones first. -/
def edges (b : Block) : List (Nat × Context.Edge) :=
  b.linearPreds.map (fun pred => (pred.toNat, ⟨false, b.mergesLanes⟩))
    ++ b.logicalPreds.map fun pred => (pred.toNat, ⟨true, b.mergesLanes⟩)

end Block

/-- The state of the sweep. -/
structure Sweep where
  /-- The blocks in layout order. -/
  nodes : List Node
  /-- The headers of the loops that are open, innermost first. -/
  headers : List Nat := []
  /-- The depth of the outermost loop in which some block was processed since its header was
  entered. -/
  progress : Nat := 0
  /-- The number of visits. -/
  visits : Nat := 0
  /-- The place of the next block. -/
  next : Nat := 0

namespace Sweep

/-- Joins the ends of the predecessors into a context.  Also tells whether it changed. -/
def joinEdges (nodes : List Node) :
    List (Nat × Context.Edge) → Context → Except Fault (Context × Bool)
  | [], c => .ok (c, false)
  | (pred, edge) :: rest, c =>
    match nodes[pred]? with
    | none => .error .outOfBounds
    | some node => do
      let (joined, grew) ← joinEdges nodes rest (c.join node.exit edge)
      return (joined, c.grows node.exit edge || grew)

/-- Visits the node at the place `place`. -/
def visit (s : Setting) (w : Sweep) (place : Nat) (node : Node) : Except Fault Sweep := do
  let (entry, grew) ← joinEdges w.nodes node.block.edges node.entry
  let w := { w with visits := w.visits + 1, next := place + 1 }
  if node.done && !grew then
    return { w with nodes := w.nodes.set place { node with entry } }
  let (block, exit) ← node.block.insertWaits s entry
  return { w with
    nodes := w.nodes.set place { block, entry, exit, done := true }
    progress := max w.progress node.block.loopDepth.toNat }

/-- Goes on with the node at the place `place`: enters a loop, leaves one or repeats it, and visits
the node unless lanes jump to it from the middle of blocks. -/
def step (s : Setting) (w : Sweep) (place : Nat) (node : Node) : Except Fault Sweep :=
  let kind := node.block.kind
  if node.block.index.toNat ≠ place then .error .brokenPromise
  else if .discardEarlyExit ∈ kind then .ok { w with next := place + 1 }
  else if .loopHeader ∈ kind then { w with headers := place :: w.headers }.visit s place node
  else if .loopExit ∈ kind then
    match w.headers with
    | [] => .error (.exitOutsideLoop place)
    | header :: headers =>
      let left := { w with headers, progress := min w.progress headers.length }
      if w.progress = headers.length + 1 then .ok { left with next := header }
      else left.visit s place node
  else w.visit s place node

/-- How often nodes can still be processed, at most. -/
def headroom (w : Sweep) : Nat := total Node.headroom w.nodes

/-- The sweep `w'` is nearer to the end than `w`. -/
def Advances (w w' : Sweep) : Prop :=
  w'.headroom < w.headroom
    ∨ w'.headroom ≤ w.headroom
      ∧ (w'.progress < w.progress
        ∨ w'.progress ≤ w.progress ∧ w'.nodes.length - w'.next < w.nodes.length - w.next)

theorem headroom_joinEdges {nodes : List Node} {edges : List (Nat × Context.Edge)}
    {c c' : Context} {grew : Bool} (h : joinEdges nodes edges c = .ok (c', grew)) :
    c'.headroom ≤ c.headroom ∧ (grew = true → c'.headroom < c.headroom) := by
  induction edges generalizing c grew with
  | nil =>
    simp only [joinEdges, Except.ok.injEq, Prod.mk.injEq] at h
    obtain ⟨rfl, rfl⟩ := h
    exact ⟨Nat.le_refl _, by simp⟩
  | cons e rest ih =>
    obtain ⟨pred, edge⟩ := e
    simp only [joinEdges] at h
    cases hp : nodes[pred]? with
    | none => simp [hp] at h
    | some node =>
      simp only [hp] at h
      cases hr : joinEdges nodes rest (c.join node.exit edge) with
      | error f => simp [hr, bind, Except.bind] at h
      | ok joined =>
        obtain ⟨joined, more⟩ := joined
        simp only [hr, bind, Except.bind, pure, Except.pure, Except.ok.injEq, Prod.mk.injEq] at h
        obtain ⟨rfl, rfl⟩ := h
        have hle := c.headroom_join_le node.exit edge
        have hrest := ih hr
        refine ⟨by omega, fun hgrew => ?_⟩
        rcases Bool.or_eq_true_iff.1 hgrew with hg | hg
        · have := Context.headroom_join_lt hg
          omega
        · have := hrest.2 hg
          omega

/-- A visit processes a node or goes on to the next one. -/
theorem visit_advances {s : Setting} {w w' : Sweep} {node : Node}
    (hn : w.nodes[w.next]? = some node) (h : w.visit s w.next node = .ok w') : w.Advances w' := by
  have hlt : w.next < w.nodes.length := (List.getElem?_eq_some_iff.1 hn).1
  simp only [visit] at h
  cases hj : joinEdges w.nodes node.block.edges node.entry with
  | error f => simp [hj, bind, Except.bind] at h
  | ok joined =>
    obtain ⟨entry, grew⟩ := joined
    have hroom := headroom_joinEdges hj
    simp only [hj, bind, Except.bind, pure, Except.pure] at h
    split at h
    · rename_i hquiet
      -- The node is settled: the sweep moves on.
      cases h
      have hset := total_set (f := Node.headroom) (b := { node with entry }) hn
      refine .inr ⟨?_, .inr ⟨Nat.le_refl _, ?_⟩⟩
      · simp only [headroom]
        simp only [Node.headroom] at hset ⊢
        omega
      · simp only [List.length_set]
        omega
    · rename_i hactive
      -- The node is processed: it is so for the first time, or its entry grew.
      cases hb : node.block.insertWaits s entry with
      | error f => simp [hb] at h
      | ok result =>
        obtain ⟨block, exit⟩ := result
        simp only [hb, Except.ok.injEq] at h
        cases h
        have hset := total_set (f := Node.headroom) (b := { block, entry, exit, done := true }) hn
        refine .inl ?_
        simp only [headroom]
        simp only [Node.headroom, Bool.not_true, Bool.toNat_false] at hset ⊢
        cases hd : node.done with
        | false =>
          simp only [hd, Bool.not_false, Bool.toNat_true] at hset
          omega
        | true =>
          simp only [hd, Bool.true_and, Bool.not_eq_true', Bool.not_eq_false] at hactive
          have := hroom.2 hactive
          omega

/-- Every step brings the sweep nearer to the end. -/
theorem step_advances {s : Setting} {w w' : Sweep} {node : Node}
    (hn : w.nodes[w.next]? = some node) (h : w.step s w.next node = .ok w') : w.Advances w' := by
  have hlt : w.next < w.nodes.length := (List.getElem?_eq_some_iff.1 hn).1
  simp only [step] at h
  split at h
  · simp at h
  split at h
  · cases h
    exact .inr ⟨Nat.le_refl _, .inr ⟨Nat.le_refl _, by simp only; omega⟩⟩
  split at h
  · exact visit_advances (w := { w with headers := w.next :: w.headers }) hn h
  split at h
  · split at h
    · simp at h
    · rename_i header headers _
      split at h
      · cases h
        exact .inr ⟨Nat.le_refl _, .inl (by simp only; omega)⟩
      · have := visit_advances
          (w := { w with headers, progress := min w.progress headers.length }) hn h
        simp only [Advances, headroom] at this ⊢
        omega
  · exact visit_advances hn h

/-- The sweep, up to its end. -/
def run (s : Setting) (w : Sweep) : Except Fault Sweep :=
  match hn : w.nodes[w.next]? with
  | none => .ok w
  | some node =>
    match hs : w.step s w.next node with
    | .error fault => .error fault
    | .ok w' =>
      have := step_advances hn hs
      run s w'
termination_by (w.headroom, w.progress, w.nodes.length - w.next)
decreasing_by
  simp only [Advances] at this
  simp only [Prod.lex_def]
  omega

end Sweep

namespace Program

/-- The context at the start of the program: accesses that began before it. -/
def startContext (p : Program) (s : Setting) : Except Fault Context := do
  let c : Context := {}
  let c := if p.pendingLds then c.recordEvent s .lds { storage := {.shared} } none else c
  p.pendingVmem.foldlM (fun c range => do
    (← c.issue s .vmem {} none).track s.generation range .vmem true {.plain} (BitVec.allOnes 32)) c

/-- The blocks before the sweep. -/
def nodes (p : Program) (s : Setting) : Except Fault (List Node) :=
  match p.blocks with
  | [] => .ok []
  | first :: rest => do
    let entry ← p.startContext s
    return { block := first, entry } :: rest.map fun block => { block }

/-- The blocks with the waits that they need, and what is known at their ends. -/
def solve (p : Program) (drainAll : Bool) : Except Fault Sweep := do
  let s : Setting := { config := p.config, drainAll }
  Sweep.run s { nodes := ← p.nodes s }

end Program

end GpuWaits
