/-
# What the sweep leaves behind

The sweep rewrites blocks over and over, and stops at a point that its progress counter alone decides.
This file shows that nothing is left to do then (`Program.settled_of_solve`): every block was rewritten last
in a context that has all the contexts at the ends of its predecessors, as they are in the end.

The argument is an invariant of the sweep.  An edge into a block that has been visited is absorbed, or
both of its ends are in an open loop and the progress counter says that this loop will be repeated.  At the
end no loop is open.  What is left are edges that lead back from behind all loops around the block
(`Program.Apart`).  Validation does not rule them out, but there are none where loops nest
(`Program.LoopsNest`).

What the blocks and contexts are like does not matter for this.  The invariant carries along a property
`P` of contexts and a property `Q` of blocks, for later use.
-/
import GpuWaits.Proofs.Join
import GpuWaits.Proofs.Loops

namespace GpuWaits

/-! ### Blocks that differ in their code only -/

/-- The blocks agree up to their instructions. -/
structure Block.SameFrame (b b' : Block) : Prop where
  index : b'.index = b.index
  kind : b'.kind = b.kind
  linearPreds : b'.linearPreds = b.linearPreds
  logicalPreds : b'.logicalPreds = b.logicalPreds
  loopDepth : b'.loopDepth = b.loopDepth

namespace Block

lemma SameFrame.refl (b : Block) : b.SameFrame b := ⟨rfl, rfl, rfl, rfl, rfl⟩

lemma SameFrame.trans {a b c : Block} (hab : a.SameFrame b) (hbc : b.SameFrame c) :
    a.SameFrame c :=
  ⟨hbc.index.trans hab.index, hbc.kind.trans hab.kind, hbc.linearPreds.trans hab.linearPreds,
    hbc.logicalPreds.trans hab.logicalPreds, hbc.loopDepth.trans hab.loopDepth⟩

lemma SameFrame.edges {b b' : Block} (h : b.SameFrame b') : b'.edges = b.edges := by
  simp only [Block.edges, mergesLanes, h.linearPreds, h.logicalPreds]

lemma insertWaits_eq_ok {s : Setting} {b b' : Block} {c c' : Context} :
    b.insertWaits s c = .ok (b', c') ↔ ∃ code w,
      Walk.steps s b.instructions { context := c } = .ok (code, w)
        ∧ b' = { b with instructions := code ++ (b.finalQueue w).instructions }
        ∧ c' = w.context := by
  simp only [insertWaits, bind_eq_ok, pure_eq_ok, Prod.exists, Prod.mk.injEq,
    eq_comm (a := b'), eq_comm (a := c')]

lemma insertWaits_sameFrame {s : Setting} {b b' : Block} {c c' : Context}
    (h : b.insertWaits s c = .ok (b', c')) : b.SameFrame b' := by
  obtain ⟨code, w, -, rfl, -⟩ := insertWaits_eq_ok.1 h
  exact ⟨rfl, rfl, rfl, rfl, rfl⟩

lemma mem_edges {b : Block} {e : Nat × Context.Edge} (h : e ∈ b.edges) :
    ∃ pred ∈ b.linearPreds ++ b.logicalPreds, e.1 = pred.toNat := by
  simp only [edges, List.mem_append, List.mem_map] at h
  rcases h with ⟨pred, hp, rfl⟩ | ⟨pred, hp, rfl⟩
  · exact ⟨pred, by simp [hp], rfl⟩
  · exact ⟨pred, by simp [hp], rfl⟩

end Block

/-- Nothing comes out of a block that has not been processed. -/
lemma Context.absorbs_empty (c : Context) (edge : Context.Edge) : c.Absorbs {} edge := by
  have hnone : ∀ r : Reg, ({} : Context).regs[r]? = none := fun _ => by simp
  refine ⟨Flags.lacks_empty _, by simp, by simp, fun _ r x hx => ?_, fun _ r x e hx => ?_,
    fun _ role h => ?_⟩
  · rw [hnone] at hx
    cases hx
  · rw [hnone] at hx
    cases hx
  · cases role <;> cases h

/-- The block at the place `m` comes behind the one at the place `n`, and no loop holds both of them. -/
def Program.Apart (p : Program) (n m : Nat) : Prop :=
  n ≤ m ∧ ∀ h ∈ openHeaders p.blocks (m + 1), n < h

/-- Lanes never jump to a header or an exit, so that the sweep enters and leaves all loops. -/
def Program.LoopsEntered (p : Program) : Prop :=
  ∀ b ∈ p.blocks, .loopHeader ∈ b.kind ∨ .loopExit ∈ b.kind → .discardEarlyExit ∉ b.kind

/-- Headers are entered from behind only from inside their loop, and lanes never jump to a header or
an exit. -/
structure Program.LoopsNest (p : Program) : Prop where
  inside : ∀ (n : Nat) (b : Block), p.blocks[n]? = some b →
    ∀ pred ∈ b.linearPreds ++ b.logicalPreds, n ≤ pred.toNat →
      n ∈ openHeaders p.blocks (pred.toNat + 1)
  entered : ∀ b ∈ p.blocks, .loopHeader ∈ b.kind ∨ .loopExit ∈ b.kind →
    .discardEarlyExit ∉ b.kind

/-- Where loops nest, every edge that leads back is inside a loop. -/
lemma Program.LoopsNest.not_apart {p : Program} (h : p.LoopsNest) {n : Nat} {b : Block}
    (hb : p.blocks[n]? = some b) {e : Nat × Context.Edge} (he : e ∈ b.edges) : ¬p.Apart n e.1 := by
  rintro ⟨hle, hapart⟩
  obtain ⟨pred, hpred, heq⟩ := Block.mem_edges he
  rw [heq] at hle hapart
  exact Nat.lt_irrefl n (hapart n (h.inside n b hb pred hpred hle))

-- The predecessors are taken as numbers, so that the list is searched: there are finitely many words, and
-- a decision over all of them would not come to its end.
instance (p : Program) : Decidable p.LoopsNest :=
  decidable_of_iff (∀ x ∈ p.blocks.zipIdx,
      (∀ pred ∈ (x.1.linearPreds ++ x.1.logicalPreds).map UInt32.toNat, x.2 ≤ pred →
        x.2 ∈ openHeaders p.blocks (pred + 1))
      ∧ (.loopHeader ∈ x.1.kind ∨ .loopExit ∈ x.1.kind → .discardEarlyExit ∉ x.1.kind)) <| by
    constructor
    · intro h
      refine ⟨fun n b hb => List.forall_mem_map.1 (h (b, n) (List.mem_zipIdx_iff_getElem?.2 hb)).1,
        fun b hb => ?_⟩
      obtain ⟨n, hn⟩ := List.getElem?_of_mem hb
      exact (h (b, n) (List.mem_zipIdx_iff_getElem?.2 hn)).2
    · rintro h ⟨b, n⟩ hx
      have hb := List.mem_zipIdx_iff_getElem?.1 hx
      exact ⟨List.forall_mem_map.2 (h.inside n b hb), h.entered b (List.mem_of_getElem? hb)⟩

/-! ### The invariant -/

lemma Program.Apart.of_succ {p : Program} {n m : Nat} (h : p.Apart (n + 1) m) : p.Apart n m :=
  ⟨Nat.le_of_succ_le h.1, fun k hk => Nat.lt_of_succ_lt (h.2 k hk)⟩

/-- What is apart from the header of the innermost loop is so from its exit. -/
lemma Program.Apart.of_open {p : Program} {n m header : Nat} {rest : List Nat} {b : Block}
    (h : p.Apart header m) (hb : p.blocks[n]? = some b) (hkind : .loopHeader ∉ b.kind)
    (hstack : openHeaders p.blocks n = header :: rest) : p.Apart n m := by
  have hheader : header ∈ openHeaders p.blocks n := hstack ▸ List.mem_cons_self
  -- Between the header and the exit the header is open.
  have hle : n ≤ m := by
    by_contra hlt
    exact Nat.lt_irrefl _ (h.2 header (mem_openHeaders_between hheader h.1 (by omega)))
  refine ⟨hle, fun k hk => ?_⟩
  by_contra hge
  have hopen : k ∈ openHeaders p.blocks n := by
    have hbehind := mem_openHeaders_between hk (Nat.not_lt.1 hge) (Nat.lt_succ_of_le hle)
    by_cases hexit : .loopExit ∈ b.kind
    · rw [openHeaders_exit hb hkind hexit] at hbehind
      exact List.mem_of_mem_tail hbehind
    · rwa [openHeaders_plain hb hkind hexit] at hbehind
  have hlt := h.2 k hk
  rw [hstack] at hopen
  rcases List.mem_cons.1 hopen with rfl | hopen
  · exact Nat.lt_irrefl _ hlt
  · rw [← (openHeaders_below [] hstack).2.1] at hopen
    exact Nat.lt_asymm hlt (lt_of_mem_openHeaders hopen)

namespace Sweep

/-- `P` is a property of contexts that joins and rewrites keep, and `Q` one of blocks that
rewrites keep. -/
structure Keeps (s : Setting) (p : Program) (start : Context) (P : Context → Prop)
    (Q : Nat → Block → Prop) : Prop where
  empty : P {}
  start : P start
  join : ∀ {c o : Context} (edge : Context.Edge), P c → P o → P (c.join o edge)
  original : ∀ {n : Nat} {b : Block}, p.blocks[n]? = some b → Q n b
  rewrite : ∀ {n : Nat} {b b' : Block} {c c' : Context}, Q n b → P c →
    b.insertWaits s c = .ok (b', c') → Q n b' ∧ P c'

variable {s : Setting} {p : Program} {start : Context} {P : Context → Prop}
  {Q : Nat → Block → Prop}

/-- The last rewrite of the block `b` at the place `n`, as the node of a sweep shows it: from the
block `b₀` in the context `c₀`.  Outside of loops this is the first rewrite. -/
structure LastRewrite (s : Setting) (p : Program) (start : Context) (P : Context → Prop)
    (Q : Nat → Block → Prop) (n : Nat) (b : Block) (node : Node) (b₀ : Block) (c₀ : Context) :
    Prop where
  block : Q n b₀
  context : P c₀
  frame : b.SameFrame b₀
  result : b₀.insertWaits s c₀ = .ok (node.block, node.exit)
  agrees : c₀.Agrees node.entry
  first : n = 0 → c₀ = start
  once : openHeaders p.blocks (n + 1) = [] → b₀ = b

/-- How the node at the place `n` came about from the block `b`. -/
structure Traced (s : Setting) (p : Program) (start : Context) (P : Context → Prop)
    (Q : Nat → Block → Prop) (n : Nat) (b : Block) (node : Node) : Prop where
  frame : b.SameFrame node.block
  block : Q n node.block
  entry : P node.entry
  exit : P node.exit
  first : n = 0 → node.entry = start
  fresh : node.done = false → node.block = b ∧ node.exit = {}
  rewritten : node.done = true → ∃ b₀ c₀, LastRewrite s p start P Q n b node b₀ c₀

/-- The invariant of the sweep.  The loops that it takes for open are those in front of the place `m`:
this is the next block, or the one behind it when the next block is about to be visited. -/
structure Inv (s : Setting) (p : Program) (start : Context) (P : Context → Prop)
    (Q : Nat → Block → Prop) (w : Sweep) (m : Nat) : Prop where
  length : w.nodes.length = p.blocks.length
  next : w.next ≤ p.blocks.length
  headers : w.headers = openHeaders p.blocks m
  progress : w.progress ≤ (openHeaders p.blocks m).length
  traced : ∀ (n : Nat) (b : Block) (node : Node), p.blocks[n]? = some b →
    w.nodes[n]? = some node → Traced s p start P Q n b node
  done : ∀ (n : Nat) (node : Node), n < w.next → w.nodes[n]? = some node →
    .discardEarlyExit ∉ node.block.kind → node.done = true
  skipped : ∀ (n : Nat) (node : Node), w.nodes[n]? = some node →
    .discardEarlyExit ∈ node.block.kind → node.done = false
  unseen : ∀ (n : Nat) (node : Node), p.Apart w.next n → w.nodes[n]? = some node →
    node.done = false
  absorbed : ∀ (n : Nat) (node : Node), n < w.next → w.nodes[n]? = some node →
    .discardEarlyExit ∉ node.block.kind → ∀ e ∈ node.block.edges, ¬p.Apart n e.1 →
      (∃ pred, w.nodes[e.1]? = some pred ∧ node.entry.Absorbs pred.exit e.2)
        ∨ ∃ h ∈ openHeaders p.blocks m, h ≤ n ∧ (openHeaders p.blocks (h + 1)).length ≤ w.progress

lemma joinEdges_keeps (hk : Keeps s p start P Q) {nodes : List Node}
    (hnodes : ∀ node ∈ nodes, P node.exit) {edges : List (Nat × Context.Edge)} {c c' : Context}
    {grew : Bool} (hc : P c) (h : joinEdges nodes edges c = .ok (c', grew)) : P c' := by
  induction edges generalizing c grew with
  | nil =>
    simp only [joinEdges, Except.ok.injEq, Prod.mk.injEq] at h
    exact h.1 ▸ hc
  | cons e rest ih =>
    obtain ⟨node, more, hnode, hrest, -⟩ := joinEdges_cons.1 h
    exact ih (hk.join e.2 hc (hnodes node (List.mem_of_getElem? hnode))) hrest

/-! ### A visit -/

lemma visit_total {w : Sweep} {place : Nat} {node : Node} {entry : Context} {grew : Bool}
    {r : Block × Context} (hjoin : joinEdges w.nodes node.block.edges node.entry = .ok (entry, grew))
    (hrewrite : node.block.insertWaits s entry = .ok r) : ∃ w', w.visit s place node = .ok w' := by
  simp only [visit, hjoin, hrewrite, bind, Except.bind, pure, Except.pure]
  split
  · exact ⟨_, rfl⟩
  · exact ⟨_, rfl⟩

/-- What a visit does: it joins the edges, and either leaves the block alone or rewrites it. -/
lemma visit_cases {w w' : Sweep} {place : Nat} {node : Node} (h : w.visit s place node = .ok w') :
    ∃ entry grew node', joinEdges w.nodes node.block.edges node.entry = .ok (entry, grew)
      ∧ w'.nodes = w.nodes.set place node' ∧ w'.headers = w.headers ∧ w'.next = place + 1
      ∧ ((node.done = true ∧ grew = false ∧ node' = { node with entry }
          ∧ w'.progress = w.progress)
        ∨ ∃ block exit, node.block.insertWaits s entry = .ok (block, exit)
          ∧ node' = { block, entry, exit, done := true }
          ∧ w'.progress = max w.progress node.block.loopDepth.toNat) := by
  simp only [visit, bind_eq_ok, Prod.exists] at h
  obtain ⟨entry, grew, hjoin, h⟩ := h
  split at h
  · rename_i hquiet
    obtain ⟨hdone, hgrew⟩ := Bool.and_eq_true_iff.1 hquiet
    cases h
    exact ⟨entry, grew, _, hjoin, rfl, rfl, rfl,
      .inl ⟨hdone, by simpa using hgrew, rfl, rfl⟩⟩
  · simp only [bind_eq_ok, Prod.exists, pure_eq_ok] at h
    obtain ⟨block, exit, hrewrite, rfl⟩ := h
    exact ⟨entry, grew, _, hjoin, rfl, rfl, rfl, .inr ⟨block, exit, hrewrite, rfl, rfl⟩⟩

lemma Inv.block_at {w : Sweep} {m n : Nat} (hw : Inv s p start P Q w m) {node : Node}
    (hn : w.nodes[n]? = some node) : ∃ b, p.blocks[n]? = some b := by
  have := (List.getElem?_eq_some_iff.1 hn).1
  rw [hw.length] at this
  exact ⟨_, List.getElem?_eq_getElem this⟩

lemma Inv.exits {w : Sweep} {m : Nat} (hw : Inv s p start P Q w m) :
    ∀ node ∈ w.nodes, P node.exit := by
  intro node hnode
  obtain ⟨n, hn⟩ := List.getElem?_of_mem hnode
  obtain ⟨b, hb⟩ := hw.block_at hn
  exact (hw.traced n b node hb hn).exit

/-- The edges into a block can be joined. -/
lemma Inv.joinEdges_total (hk : Keeps s p start P Q) (hv : p.Valid) {w : Sweep} {m n : Nat}
    (hw : Inv s p start P Q w m) {node : Node} (hn : w.nodes[n]? = some node) :
    ∃ entry grew, joinEdges w.nodes node.block.edges node.entry = .ok (entry, grew) ∧ P entry := by
  obtain ⟨b, hb⟩ := hw.block_at hn
  have ht := hw.traced n b node hb hn
  have hpreds : ∀ e ∈ node.block.edges, e.1 < w.nodes.length := by
    intro e he
    obtain ⟨pred, hpred, heq⟩ := Block.mem_edges (ht.frame.edges ▸ he)
    rw [heq, hw.length]
    exact (hv.placed n b hb).pred_lt pred hpred
  obtain ⟨⟨entry, grew⟩, hjoin⟩ := Sweep.joinEdges_total hpreds node.entry
  exact ⟨entry, grew, hjoin, joinEdges_keeps hk hw.exits ht.entry hjoin⟩

/-- The new node is traced. -/
lemma traced_visit (hk : Keeps s p start P Q) (hv : p.Valid) {w : Sweep} {m : Nat}
    (hw : Inv s p start P Q w m) {node node' : Node} {b : Block} {entry : Context} {grew : Bool}
    (hn : w.nodes[w.next]? = some node) (hb : p.blocks[w.next]? = some b)
    (hjoin : joinEdges w.nodes node.block.edges node.entry = .ok (entry, grew))
    (hnode' : node.done = true ∧ grew = false ∧ node' = { node with entry }
      ∨ ∃ block exit, node.block.insertWaits s entry = .ok (block, exit)
        ∧ node' = { block, entry, exit, done := true }) :
    Traced s p start P Q w.next b node' := by
  have ht := hw.traced _ b node hb hn
  have hentry : P entry := joinEdges_keeps hk hw.exits ht.entry hjoin
  -- The first block has no edges, so that its entry stays as it is.
  have hstart : w.next = 0 → entry = start := by
    intro hzero
    have hnil : node.block.edges = [] := by
      obtain ⟨h₁, h₂⟩ := (hv.placed _ b hb).entry hzero
      rw [ht.frame.edges, Block.edges, h₁, h₂]
      rfl
    rw [hnil, joinEdges, Except.ok.injEq, Prod.mk.injEq] at hjoin
    exact hjoin.1 ▸ ht.first hzero
  rcases hnode' with ⟨hdone, rfl, rfl⟩ | ⟨block, exit, hrewrite, rfl⟩
  · have hagrees := joinEdges_agrees hjoin
    refine ⟨ht.frame, ht.block, hentry, ht.exit, hstart, fun h => ?_, fun _ => ?_⟩
    · rw [hdone] at h
      cases h
    · obtain ⟨b₀, c₀, hlast⟩ := ht.rewritten hdone
      exact ⟨b₀, c₀, hlast.block, hlast.context, hlast.frame, hlast.result,
        hlast.agrees.trans hagrees.symm, hlast.first, hlast.once⟩
  · obtain ⟨hblock, hexit⟩ := hk.rewrite ht.block hentry hrewrite
    refine ⟨ht.frame.trans (Block.insertWaits_sameFrame hrewrite), hblock, hentry, hexit, hstart,
      (fun h => by cases h), fun _ => ⟨node.block, entry, ht.block, hentry, ht.frame, hrewrite,
        .refl entry, hstart, fun hout => ?_⟩⟩
    exact (ht.fresh (hw.unseen _ node ⟨Nat.le_refl _, by simp [hout]⟩ hn)).1

/-- The nodes behind a visit. -/
lemma getElem?_visit {nodes nodes' : List Node} {place : Nat} {node node' : Node}
    (hnodes : nodes' = nodes.set place node') (hn : nodes[place]? = some node) (n : Nat) :
    nodes'[n]? = if n = place then some node' else nodes[n]? := by
  rw [hnodes, List.getElem?_set]
  by_cases hplace : place = n
  · simp [hplace, hplace ▸ (List.getElem?_eq_some_iff.1 hn).1]
  · simp [hplace, Ne.symm hplace]

/-- Behind a visit every edge into a block in front is absorbed, or some loop that holds the block is going
to be repeated. -/
lemma Inv.absorbed_visit (hv : p.Valid) {w w' : Sweep} (hw : Inv s p start P Q w (w.next + 1))
    {node : Node} (hn : w.nodes[w.next]? = some node) (h : w.visit s w.next node = .ok w') {n : Nat}
    {node₁ : Node} (hlt : n < w'.next) (hn₁ : w'.nodes[n]? = some node₁)
    (hkind : .discardEarlyExit ∉ node₁.block.kind) {e : Nat × Context.Edge}
    (he : e ∈ node₁.block.edges) (hapart : ¬p.Apart n e.1) :
    (∃ pred, w'.nodes[e.1]? = some pred ∧ node₁.entry.Absorbs pred.exit e.2)
      ∨ ∃ h ∈ openHeaders p.blocks w'.next, h ≤ n
        ∧ (openHeaders p.blocks (h + 1)).length ≤ w'.progress := by
  obtain ⟨b, hb⟩ := hw.block_at hn
  obtain ⟨entry, grew, node', hjoin, hnodes, -, hnext, hcases⟩ := visit_cases h
  have ht := hw.traced _ b node hb hn
  have hdepth : node.block.loopDepth.toNat = (openHeaders p.blocks (w.next + 1)).length := by
    rw [ht.frame.loopDepth]
    exact (hv.placed _ b hb).depth
  rw [getElem?_visit hnodes hn] at hn₁ ⊢
  rw [hnext] at hlt ⊢
  -- In front of the rewrite the edge is absorbed, or the loop is going to be repeated.
  have hbefore : (∃ pred, w.nodes[e.1]? = some pred ∧ node₁.entry.Absorbs pred.exit e.2)
      ∨ ∃ h ∈ openHeaders p.blocks (w.next + 1), h ≤ n
        ∧ (openHeaders p.blocks (h + 1)).length ≤ w.progress := by
    split at hn₁
    · cases hn₁
      have hnode₁ : node₁.entry = entry ∧ node₁.block.edges = node.block.edges := by
        rcases hcases with ⟨-, -, rfl, -⟩ | ⟨_, _, hrewrite, rfl, -⟩
        · exact ⟨rfl, rfl⟩
        · exact ⟨rfl, (Block.insertWaits_sameFrame hrewrite).edges⟩
      rw [hnode₁.1]
      exact .inl (joinEdges_absorbs (Block.lanesLast_edges _) hjoin e (hnode₁.2 ▸ he))
    · exact hw.absorbed n node₁ (by omega) hn₁ hkind e he hapart
  obtain ⟨pred, hpred, habs⟩ | ⟨h, hopen, hn, hle⟩ := hbefore
  · by_cases hself : e.1 = w.next
    · rw [hself, hn] at hpred
      cases hpred
      rcases hcases with ⟨-, -, hn', -⟩ | ⟨_, _, -, -, hp⟩
      · exact .inl ⟨node', by rw [if_pos hself], by rw [hn']; exact habs⟩
      · -- The new end of the block may be more than an earlier header has seen.  Some loop holds
        -- both, and the progress counter covers the loop.
        rw [hself] at hapart
        obtain ⟨h, hin, hle⟩ : ∃ h ∈ openHeaders p.blocks (w.next + 1), h ≤ n := by
          by_contra hno
          exact hapart ⟨by omega, fun h hh => by
            by_contra hge
            exact hno ⟨h, hh, by omega⟩⟩
        have := openHeaders_length_le hin
        exact .inr ⟨h, hin, hle, by omega⟩
    · exact .inl ⟨pred, by rw [if_neg hself, hpred], habs⟩
  · refine .inr ⟨h, hopen, hn, Nat.le_trans hle ?_⟩
    rcases hcases with ⟨-, -, -, hp⟩ | ⟨_, _, -, -, hp⟩ <;> omega

/-- A visit keeps the invariant, and the loops around the block are those behind its place. -/
lemma Inv.visit (hk : Keeps s p start P Q) (hv : p.Valid) {w w' : Sweep}
    (hw : Inv s p start P Q w (w.next + 1)) {node : Node} (hn : w.nodes[w.next]? = some node)
    (hkind : .discardEarlyExit ∉ node.block.kind) (h : w.visit s w.next node = .ok w') :
    Inv s p start P Q w' w'.next := by
  obtain ⟨b, hb⟩ := hw.block_at hn
  obtain ⟨entry, grew, node', hjoin, hnodes, hheaders, hnext, hcases⟩ := visit_cases h
  have hlt : w.next < w.nodes.length := (List.getElem?_eq_some_iff.1 hn).1
  have ht := hw.traced _ b node hb hn
  have ht' : Traced s p start P Q w.next b node' := traced_visit hk hv hw hn hb hjoin (by
    rcases hcases with ⟨h₁, h₂, h₃, -⟩ | ⟨block, exit, h₁, h₂, -⟩
    · exact .inl ⟨h₁, h₂, h₃⟩
    · exact .inr ⟨block, exit, h₁, h₂⟩)
  have hget := getElem?_visit hnodes hn
  refine ⟨?_, ?_, ?_, ?_, ?_, ?_, ?_, ?_, fun n node₁ hlt hn₁ hkind e he hapart =>
    hw.absorbed_visit hv hn h hlt hn₁ hkind he hapart⟩
  · rw [hnodes, List.length_set]
    exact hw.length
  · rw [hnext, ← hw.length]
    exact hlt
  · rw [hheaders, hnext]
    exact hw.headers
  · have hdepth : node.block.loopDepth.toNat = (openHeaders p.blocks (w.next + 1)).length := by
      rw [ht.frame.loopDepth]
      exact (hv.placed _ b hb).depth
    have := hw.progress
    rw [hnext]
    rcases hcases with ⟨-, -, -, hp⟩ | ⟨_, _, -, -, hp⟩ <;> omega
  · intro n b₁ node₁ hb₁ hn₁
    rw [hget] at hn₁
    split at hn₁
    · rename_i hplace
      subst hplace
      cases hn₁
      cases hb.symm.trans hb₁
      exact ht'
    · exact hw.traced n b₁ node₁ hb₁ hn₁
  · intro n node₁ hlt₁ hn₁ hkind₁
    rw [hget] at hn₁
    split at hn₁
    · cases hn₁
      rcases hcases with ⟨hdone, -, rfl, -⟩ | ⟨_, _, -, rfl, -⟩
      · exact hdone
      · rfl
    · exact hw.done n node₁ (by omega) hn₁ hkind₁
  · intro n node₁ hn₁ hkind₁
    rw [hget] at hn₁
    split at hn₁
    · cases hn₁
      rw [ht'.frame.kind, ← ht.frame.kind] at hkind₁
      exact absurd hkind₁ hkind
    · exact hw.skipped n node₁ hn₁ hkind₁
  · intro n node₁ hapart hn₁
    rw [hnext] at hapart
    rw [hget, if_neg (by have := hapart.1; omega)] at hn₁
    exact hw.unseen n node₁ hapart.of_succ hn₁

/-! ### A step -/

/-- All that a step does: it skips the block, or enters, repeats or leaves a loop in front of it, and
visits it unless the loop is repeated. -/
lemma step_cases {w w' : Sweep} {place : Nat} {node : Node} (h : w.step s place node = .ok w') :
    .discardEarlyExit ∈ node.block.kind ∧ w' = { w with next := place + 1 }
      ∨ .discardEarlyExit ∉ node.block.kind
        ∧ (.loopHeader ∈ node.block.kind
            ∧ Sweep.visit s { w with headers := place :: w.headers } place node = .ok w'
          ∨ .loopHeader ∉ node.block.kind
            ∧ (.loopExit ∉ node.block.kind ∧ w.visit s place node = .ok w'
              ∨ .loopExit ∈ node.block.kind ∧ ∃ header headers, w.headers = header :: headers
                ∧ (w.progress = headers.length + 1
                    ∧ w' = { w with
                        headers, progress := min w.progress headers.length, next := header }
                  ∨ w.progress ≠ headers.length + 1
                    ∧ Sweep.visit s { w with headers, progress := min w.progress headers.length } place
                      node = .ok w'))) := by
  simp only [Sweep.step] at h
  split at h
  · cases h
  split at h
  · cases h
    exact .inl ⟨‹_›, rfl⟩
  refine .inr ⟨‹_›, ?_⟩
  split at h
  · exact .inl ⟨‹_›, h⟩
  refine .inr ⟨‹_›, ?_⟩
  split at h
  · refine .inr ⟨‹_›, ?_⟩
    split at h
    · cases h
    rename_i header headers hheaders
    refine ⟨header, headers, hheaders, ?_⟩
    split at h
    · cases h
      exact .inl ⟨‹_›, rfl⟩
    · exact .inr ⟨‹_›, h⟩
  · exact .inl ⟨‹_›, h⟩

/-- Going on behind a block that lanes jump to. -/
lemma Inv.skip (hloops : p.LoopsEntered) {w : Sweep} (hw : Inv s p start P Q w w.next) {node : Node}
    (hn : w.nodes[w.next]? = some node) (hkind : .discardEarlyExit ∈ node.block.kind) :
    Inv s p start P Q { w with next := w.next + 1 } (w.next + 1) := by
  obtain ⟨b, hb⟩ := hw.block_at hn
  have hframe := (hw.traced _ b node hb hn).frame
  have hplain : openHeaders p.blocks (w.next + 1) = openHeaders p.blocks w.next := by
    have hno : ¬(.loopHeader ∈ b.kind ∨ .loopExit ∈ b.kind) := fun h =>
      hloops b (List.mem_of_getElem? hb) h (hframe.kind ▸ hkind)
    exact openHeaders_plain hb (fun h => hno (.inl h)) fun h => hno (.inr h)
  have hother : ∀ {n : Nat} {n' : Node}, n < w.next + 1 → w.nodes[n]? = some n' →
      .discardEarlyExit ∉ n'.block.kind → n < w.next := by
    intro n n' hlt hn' hk'
    by_contra hge
    obtain rfl : n = w.next := by omega
    rw [hn] at hn'
    cases hn'
    exact hk' hkind
  have hlt : w.next < w.nodes.length := (List.getElem?_eq_some_iff.1 hn).1
  refine ⟨hw.length, by rw [← hw.length]; exact hlt, hplain ▸ hw.headers, hplain ▸ hw.progress,
    hw.traced, fun n n' h hn' hk' => hw.done n n' (hother h hn' hk') hn' hk', hw.skipped,
    fun n n' hapart => hw.unseen n n' hapart.of_succ, fun n n' h hn' hk' => ?_⟩
  rw [hplain]
  exact hw.absorbed n n' (hother h hn' hk') hn' hk'

/-- Going back to the header of the innermost loop. -/
lemma Inv.repeat {w : Sweep} (hw : Inv s p start P Q w w.next) {b : Block}
    (hb : p.blocks[w.next]? = some b) (hkind : .loopHeader ∉ b.kind) {header : Nat} {rest : List Nat}
    (hheaders : w.headers = header :: rest) (hprogress : w.progress = rest.length + 1) :
    Inv s p start P Q { w with headers := rest, progress := min w.progress rest.length, next := header }
      header := by
  have hstack : openHeaders p.blocks w.next = header :: rest := hw.headers ▸ hheaders
  obtain ⟨hlt, hbelow, -⟩ := openHeaders_below [] hstack
  have hmin : min w.progress rest.length = rest.length := by omega
  refine ⟨hw.length, Nat.le_trans (Nat.le_of_lt hlt) hw.next, hbelow.symm, ?_, hw.traced,
    fun n n' h => hw.done n n' (Nat.lt_trans h hlt), hw.skipped, ?_, ?_⟩
  · simp only [hbelow, hmin, Nat.le_refl]
  · intro n n' hapart hn'
    exact hw.unseen n n' (hapart.of_open hb hkind hstack) hn'
  · intro n n' hn hn' hk' e he hapart
    refine (hw.absorbed n n' (Nat.lt_trans hn hlt) hn' hk' e he hapart).imp id ?_
    rintro ⟨h, hopen, hle, -⟩
    rw [hstack, List.mem_cons] at hopen
    have hmem : h ∈ openHeaders p.blocks header := by
      rw [hbelow]
      exact hopen.resolve_left (Nat.ne_of_lt (Nat.lt_of_le_of_lt hle hn))
    have := openHeaders_length_le hmem
    rw [hbelow] at this
    exact ⟨h, hmem, hle, by simp only [hmin]; exact this⟩

/-- Entering a loop. -/
lemma Inv.enter {w : Sweep} (hw : Inv s p start P Q w w.next) {b : Block}
    (hb : p.blocks[w.next]? = some b) (hkind : .loopHeader ∈ b.kind) :
    Inv s p start P Q { w with headers := w.next :: w.headers } (w.next + 1) := by
  have hpush := openHeaders_header hb hkind
  refine ⟨hw.length, hw.next, ?_, ?_, hw.traced, hw.done, hw.skipped, hw.unseen,
    fun n n' hn hn' hk' e he hapart => (hw.absorbed n n' hn hn' hk' e he hapart).imp id
      fun ⟨h, hopen, hle⟩ => ?_⟩
  · rw [hpush, hw.headers]
  · rw [hpush]
    exact Nat.le_succ_of_le hw.progress
  · rw [hpush]
    exact ⟨h, List.mem_cons_of_mem _ hopen, hle⟩

/-- Leaving a loop that is not repeated. -/
lemma Inv.leave {w : Sweep} (hw : Inv s p start P Q w w.next) {b : Block}
    (hb : p.blocks[w.next]? = some b) (hkind : .loopHeader ∉ b.kind) (hexit : .loopExit ∈ b.kind)
    {header : Nat} {rest : List Nat} (hheaders : w.headers = header :: rest)
    (hprogress : w.progress ≠ rest.length + 1) :
    Inv s p start P Q { w with headers := rest, progress := min w.progress rest.length }
      (w.next + 1) := by
  have hstack : openHeaders p.blocks w.next = header :: rest := hw.headers ▸ hheaders
  have hpop : openHeaders p.blocks (w.next + 1) = rest := by
    rw [openHeaders_exit hb hkind hexit, hstack]
    rfl
  have hle : w.progress ≤ rest.length := by
    have := hw.progress
    rw [hstack, List.length_cons] at this
    omega
  have hmin : min w.progress rest.length = w.progress := by omega
  refine ⟨hw.length, hw.next, hpop.symm, ?_, hw.traced, hw.done, hw.skipped, hw.unseen,
    fun n n' hn hn' hk' e he hapart => (hw.absorbed n n' hn hn' hk' e he hapart).imp id
      fun ⟨h, hopen, hle, hdepth⟩ => ?_⟩
  · rw [hpop]
    exact Nat.min_le_right _ _
  · rw [hpop, hmin]
    refine ⟨h, ?_, hle, hdepth⟩
    -- The progress counter says that nothing was left to do in the loop that is closed.
    rw [hstack, List.mem_cons] at hopen
    refine hopen.resolve_left ?_
    rintro rfl
    rw [(openHeaders_below [] hstack).2.2, List.length_cons] at hdepth
    omega

/-- A block that neither opens nor closes a loop. -/
lemma Inv.pass {w : Sweep} (hw : Inv s p start P Q w w.next) {b : Block}
    (hb : p.blocks[w.next]? = some b) (hkind : .loopHeader ∉ b.kind) (hexit : .loopExit ∉ b.kind) :
    Inv s p start P Q w (w.next + 1) := by
  have hplain := openHeaders_plain hb hkind hexit
  refine ⟨hw.length, hw.next, hplain ▸ hw.headers, hplain ▸ hw.progress, hw.traced, hw.done,
    hw.skipped, hw.unseen, ?_⟩
  rw [hplain]
  exact hw.absorbed

/-- What a step does: it skips the block, goes back, or visits the block with the loops that are open
behind its place. -/
lemma Inv.step_cases (hv : p.Valid) (hloops : p.LoopsEntered) {w : Sweep}
    (hw : Inv s p start P Q w w.next) {node : Node} (hn : w.nodes[w.next]? = some node) :
    (∃ w', w.step s w.next node = .ok w' ∧ Inv s p start P Q w' w'.next ∧ w'.nodes = w.nodes)
      ∨ ∃ v : Sweep, w.step s w.next node = v.visit s v.next node ∧ v.nodes = w.nodes
        ∧ v.nodes[v.next]? = some node ∧ Inv s p start P Q v (v.next + 1)
        ∧ .discardEarlyExit ∉ node.block.kind := by
  obtain ⟨b, hb⟩ := hw.block_at hn
  have hframe := (hw.traced _ b node hb hn).frame
  have hplaced := hv.placed _ b hb
  have hindex : node.block.index.toNat = w.next := by rw [hframe.index, hplaced.index]
  by_cases hdiscard : .discardEarlyExit ∈ node.block.kind
  · exact .inl ⟨_, by simp [Sweep.step, hindex, hdiscard], hw.skip hloops hn hdiscard, rfl⟩
  by_cases hheader : .loopHeader ∈ node.block.kind
  · refine .inr ⟨{ w with headers := w.next :: w.headers }, ?_, rfl, hn, ?_, hdiscard⟩
    · simp [Sweep.step, hindex, hdiscard, hheader]
    · exact hw.enter hb (hframe.kind ▸ hheader)
  by_cases hexit : .loopExit ∈ node.block.kind
  · have hheader' : .loopHeader ∉ b.kind := hframe.kind ▸ hheader
    have hexit' : .loopExit ∈ b.kind := hframe.kind ▸ hexit
    have hne := hplaced.exit hheader' hexit'
    rw [← hw.headers] at hne
    obtain ⟨header, rest, hheaders⟩ := List.exists_cons_of_ne_nil hne
    by_cases hprogress : w.progress = rest.length + 1
    · refine .inl ⟨_, ?_, hw.repeat hb hheader' hheaders hprogress, rfl⟩
      simp [Sweep.step, hindex, hdiscard, hheader, hexit, hheaders, hprogress]
    · refine .inr ⟨{ w with headers := rest, progress := min w.progress rest.length }, ?_, rfl, hn,
        hw.leave hb hheader' hexit' hheaders hprogress, hdiscard⟩
      simp [Sweep.step, hindex, hdiscard, hheader, hexit, hheaders, hprogress]
  · refine .inr ⟨w, ?_, rfl, hn, hw.pass hb (hframe.kind ▸ hheader) (hframe.kind ▸ hexit), hdiscard⟩
    simp [Sweep.step, hindex, hdiscard, hheader, hexit]

/-- A step keeps the invariant. -/
lemma Inv.step (hk : Keeps s p start P Q) (hv : p.Valid) (hloops : p.LoopsEntered) {w w' : Sweep}
    (hw : Inv s p start P Q w w.next) {node : Node} (hn : w.nodes[w.next]? = some node)
    (h : w.step s w.next node = .ok w') : Inv s p start P Q w' w'.next := by
  rcases hw.step_cases hv hloops hn with ⟨w'', hstep, hw'', -⟩ | ⟨v, hstep, -, hvn, hvi, hkind⟩
  · rw [h] at hstep
    cases hstep
    exact hw''
  · rw [h] at hstep
    exact hvi.visit hk hv hvn hkind hstep.symm

/-- A step does not fail if no rewrite does. -/
lemma Inv.step_total (hk : Keeps s p start P Q) (hv : p.Valid) (hloops : p.LoopsEntered)
    (htotal : ∀ {n : Nat} {b : Block} {c : Context}, Q n b → P c → ∃ r, b.insertWaits s c = .ok r)
    {w : Sweep} (hw : Inv s p start P Q w w.next) {node : Node}
    (hn : w.nodes[w.next]? = some node) : ∃ w', w.step s w.next node = .ok w' := by
  rcases hw.step_cases hv hloops hn with ⟨w', hstep, -⟩ | ⟨v, hstep, -, hvn, hvi, -⟩
  · exact ⟨w', hstep⟩
  obtain ⟨b, hb⟩ := hvi.block_at hvn
  obtain ⟨entry, grew, hjoin, hentry⟩ := hvi.joinEdges_total hk hv hvn
  obtain ⟨r, hrewrite⟩ := htotal (hvi.traced _ b node hb hvn).block hentry
  rw [hstep]
  exact visit_total hjoin hrewrite

/-! ### The whole sweep -/

/-- An invariant of the steps holds at the end. -/
lemma run_invariant (I : Sweep → Prop)
    (hstep : ∀ {w w' : Sweep} {node : Node}, I w → w.nodes[w.next]? = some node →
      w.step s w.next node = .ok w' → I w') {w w' : Sweep} (hw : I w) (h : run s w = .ok w') :
    I w' ∧ w'.nodes[w'.next]? = none := by
  fun_induction run s w with
  | case1 w hn =>
    cases h
    exact ⟨hw, hn⟩
  | case2 w node hn fault hs => cases h
  | case3 w node hn w₁ hs _ ih => exact ih (hstep hw hn hs) h

/-- A sweep whose steps do not fail comes to its end. -/
lemma run_total (I : Sweep → Prop)
    (hstep : ∀ {w w' : Sweep} {node : Node}, I w → w.nodes[w.next]? = some node →
      w.step s w.next node = .ok w' → I w')
    (htotal : ∀ {w : Sweep} {node : Node}, I w → w.nodes[w.next]? = some node →
      ∃ w', w.step s w.next node = .ok w') {w : Sweep} (hw : I w) : ∃ w', run s w = .ok w' := by
  fun_induction run s w with
  | case1 w hn => exact ⟨w, rfl⟩
  | case2 w node hn fault hs =>
    obtain ⟨w', hw'⟩ := htotal hw hn
    rw [hs] at hw'
    cases hw'
  | case3 w node hn w₁ hs _ ih => exact ih (hstep hw hn hs)

/-- The invariant holds at the start, when no block has been processed. -/
lemma inv_start (hk : Keeps s p start P Q) {nodes : List Node}
    (hnodes : ∀ (n : Nat) (node : Node), nodes[n]? = some node → ∃ b, p.blocks[n]? = some b
      ∧ node = { block := b, entry := if n = 0 then start else {} })
    (hlength : nodes.length = p.blocks.length) : Inv s p start P Q { nodes } 0 := by
  refine ⟨hlength, Nat.zero_le _, rfl, Nat.zero_le _, fun n b node hb hn => ?_,
    fun _ _ h => absurd h (Nat.not_lt_zero _), fun n node hn _ => ?_, fun n node _ hn => ?_,
    fun _ _ h => absurd h (Nat.not_lt_zero _)⟩
  · obtain ⟨b', hb', rfl⟩ := hnodes n node hn
    rw [hb] at hb'
    cases hb'
    refine ⟨.refl b, hk.original hb, ?_, hk.empty, fun h => if_pos h, fun _ => ⟨rfl, rfl⟩,
      fun h => by cases h⟩
    dsimp only
    split
    · exact hk.start
    · exact hk.empty
  · obtain ⟨b, -, rfl⟩ := hnodes n node hn
    rfl
  · obtain ⟨b, -, rfl⟩ := hnodes n node hn
    rfl

end Sweep

/-! ### The result -/

/-- The block `b` at the place `n` has become the block of `node`: it was rewritten last from `b₀`, in
a context `c₀` that has everything which the predecessors leave. -/
structure Rewritten (s : Setting) (p : Program) (start : Context) (P : Context → Prop)
    (Q : Nat → Block → Prop) (nodes : List Node) (n : Nat) (b : Block) (node : Node) (b₀ : Block)
    (c₀ : Context) : Prop where
  block : Q n b₀
  context : P c₀
  frame : b.SameFrame b₀
  result : b₀.insertWaits s c₀ = .ok (node.block, node.exit)
  absorbs : ∀ e ∈ b.edges, ∃ pred, nodes[e.1]? = some pred ∧ c₀.Absorbs pred.exit e.2
  first : n = 0 → c₀ = start
  once : openHeaders p.blocks (n + 1) = [] → b₀ = b

/-- The sweep has nothing left to do. -/
structure Settled (s : Setting) (p : Program) (start : Context) (P : Context → Prop)
    (Q : Nat → Block → Prop) (nodes : List Node) : Prop where
  length : nodes.length = p.blocks.length
  frame : ∀ (n : Nat) (b : Block) (node : Node), p.blocks[n]? = some b → nodes[n]? = some node →
    b.SameFrame node.block
  exit : ∀ node ∈ nodes, P node.exit
  skipped : ∀ (n : Nat) (b : Block) (node : Node), p.blocks[n]? = some b →
    nodes[n]? = some node → .discardEarlyExit ∈ b.kind → node.block = b ∧ node.exit = {}
  rewritten : ∀ (n : Nat) (b : Block) (node : Node), p.blocks[n]? = some b →
    nodes[n]? = some node → .discardEarlyExit ∉ b.kind →
      ∃ b₀ c₀, Rewritten s p start P Q nodes n b node b₀ c₀

namespace Sweep

variable {s : Setting} {p : Program} {start : Context} {P : Context → Prop}
  {Q : Nat → Block → Prop}

/-- At the end of the sweep no loop is open, so that every edge is absorbed on which something can come
in at all. -/
lemma Inv.rewritten (hv : p.Valid) {w : Sweep} (hw : Inv s p start P Q w w.next)
    (hend : w.nodes[w.next]? = none) {n : Nat} {b : Block} {node : Node} (hb : p.blocks[n]? = some b)
    (hn : w.nodes[n]? = some node) (hkind : .discardEarlyExit ∉ b.kind) :
    ∃ b₀ c₀, LastRewrite s p start P Q n b node b₀ c₀ ∧ ∀ e ∈ b.edges, ¬p.Apart n e.1 →
      ∃ pred, w.nodes[e.1]? = some pred ∧ c₀.Absorbs pred.exit e.2 := by
  have hnext : w.next = p.blocks.length :=
    Nat.le_antisymm hw.next (hw.length ▸ List.getElem?_eq_none_iff.1 hend)
  have ht := hw.traced n b node hb hn
  have hkind' : .discardEarlyExit ∉ node.block.kind := ht.frame.kind ▸ hkind
  have hlt : n < w.next := hnext ▸ (List.getElem?_eq_some_iff.1 hb).1
  obtain ⟨b₀, c₀, hlast⟩ := ht.rewritten (hw.done n node hlt hn hkind')
  refine ⟨b₀, c₀, hlast, fun e he hapart => ?_⟩
  rcases hw.absorbed n node hlt hn hkind' e (ht.frame.edges ▸ he) hapart with
    ⟨pred, hpred, habs⟩ | ⟨h, hopen, -⟩
  · exact ⟨pred, hpred, hlast.agrees.symm.absorbs habs⟩
  · rw [hnext, hv.closed] at hopen
    cases hopen

lemma Inv.settled (hv : p.Valid) (hloops : p.LoopsNest) {w : Sweep}
    (hw : Inv s p start P Q w w.next) (hend : w.nodes[w.next]? = none) :
    Settled s p start P Q w.nodes := by
  refine ⟨hw.length, fun n b node hb hn => (hw.traced n b node hb hn).frame, hw.exits,
    fun n b node hb hn hkind => ?_, fun n b node hb hn hkind => ?_⟩
  · have ht := hw.traced n b node hb hn
    exact ht.fresh (hw.skipped n node hn (ht.frame.kind ▸ hkind))
  · obtain ⟨b₀, c₀, hlast, habsorbs⟩ := hw.rewritten hv hend hb hn hkind
    exact ⟨b₀, c₀, hlast.block, hlast.context, hlast.frame, hlast.result,
      fun e he => habsorbs e he (hloops.not_apart hb he), hlast.first, hlast.once⟩

end Sweep

namespace Program

variable {s : Setting} {p : Program} {start : Context} {P : Context → Prop}
  {Q : Nat → Block → Prop}

/-- The context `start` is the one in which the program starts. -/
def StartsIn (p : Program) (s : Setting) (start : Context) : Prop :=
  p.blocks ≠ [] → p.startContext s = .ok start

lemma nodes_eq_ok (hstart : p.StartsIn s start) :
    ∃ nodes, p.nodes s = .ok nodes ∧ nodes.length = p.blocks.length
      ∧ ∀ (n : Nat) (node : Node), nodes[n]? = some node → ∃ b, p.blocks[n]? = some b
        ∧ node = { block := b, entry := if n = 0 then start else {} } := by
  cases hb : p.blocks with
  | nil => exact ⟨[], by simp [nodes, hb], rfl, by simp⟩
  | cons first rest =>
    have hs := hstart (by simp [hb])
    refine ⟨{ block := first, entry := start } :: rest.map fun block => { block }, ?_, by simp, ?_⟩
    · simp [nodes, hb, hs]
    · intro n node hn
      cases n with
      | zero =>
        cases hn
        exact ⟨first, rfl, rfl⟩
      | succ n =>
        simp only [List.getElem?_cons_succ, List.getElem?_map, Option.map_eq_some_iff] at hn ⊢
        obtain ⟨b, hb', rfl⟩ := hn
        exact ⟨b, hb', rfl⟩

/-- The invariant holds when the blocks have been swept. -/
lemma inv_of_solve {drainAll : Bool} (hs : s = { config := p.config, drainAll }) (hv : p.Valid)
    (hloops : p.LoopsEntered) (hstart : p.StartsIn s start) (hk : Sweep.Keeps s p start P Q)
    {w : Sweep} (h : p.solve drainAll = .ok w) :
    Sweep.Inv s p start P Q w w.next ∧ w.nodes[w.next]? = none := by
  subst hs
  obtain ⟨nodes, hnodes, hlength, hinit⟩ := nodes_eq_ok hstart
  simp only [solve, hnodes, bind, Except.bind] at h
  exact Sweep.run_invariant (fun w => Sweep.Inv _ p start P Q w w.next)
    (fun hw hn hs => hw.step hk hv hloops hn hs) (Sweep.inv_start hk hinit hlength) h

/-- When the blocks have been swept, the last rewrite of each of them has seen everything that its
predecessors leave. -/
theorem settled_of_solve {drainAll : Bool} (hs : s = { config := p.config, drainAll })
    (hv : p.Valid) (hloops : p.LoopsNest) (hstart : p.StartsIn s start)
    (hk : Sweep.Keeps s p start P Q) {w : Sweep} (h : p.solve drainAll = .ok w) :
    Settled s p start P Q w.nodes := by
  obtain ⟨hinv, hend⟩ := inv_of_solve hs hv hloops.entered hstart hk h
  exact hinv.settled hv hloops hend

/-- The sweep comes to its end if no rewrite fails. -/
theorem solve_total {drainAll : Bool} (hs : s = { config := p.config, drainAll })
    (hv : p.Valid) (hloops : p.LoopsNest) (hstart : p.StartsIn s start)
    (hk : Sweep.Keeps s p start P Q)
    (htotal : ∀ {n : Nat} {b : Block} {c : Context}, Q n b → P c →
      ∃ r, b.insertWaits s c = .ok r) : ∃ w, p.solve drainAll = .ok w := by
  subst hs
  obtain ⟨nodes, hnodes, hlength, hinit⟩ := nodes_eq_ok hstart
  simp only [solve, hnodes, bind, Except.bind]
  exact Sweep.run_total (fun w => Sweep.Inv _ p start P Q w w.next)
    (fun hw hn hs => hw.step hk hv hloops.entered hn hs)
    (fun hw hn => hw.step_total hk hv hloops.entered htotal hn) (Sweep.inv_start hk hinit hlength)

end Program

end GpuWaits
