/-
# The checker accepts what insertion gives

When the sweep has come to its end, the context in which each block was rewritten last has everything
that its predecessors leave.  So it covers what the checker finds in flight at the entry, round after
round (`Checker.Covered`), and the checker has nothing to report.  With the bound on the rounds this
makes `Program.insertValidated_findings`: for every program that keeps the rules of
`Program.Admissible`, inserting waits succeeds and the check of the result finds nothing.
-/
import GpuWaits.Insertion
import GpuWaits.Proofs.Checked
import GpuWaits.Proofs.Converge

namespace GpuWaits

namespace Checker

/-! ### The start of the program -/

/-- The context at the start of the program is right about the arguments that are being loaded. -/
structure StartsWith (g : Generation) (c : Context) (q : Pending) : Prop where
  covers : c.Covers g q
  bounded : q.Bounded g
  origin : ∀ (k : AccessKey) (a : InFlight), q[k]? = some a → ∃ index, k.origin = .argument index

/-- One more argument. -/
lemma StartsWith.argument {s : Setting} {c c₁ c₂ : Context} {q q' : Pending} {range : RegRange}
    {types : VmemTypeSet} {halves : BitVec 32} {index : Nat} (h : StartsWith s.generation c q)
    (hissue : c.issue s .vmem {} none = .ok c₁)
    (htrack : c₁.track s.generation range .vmem true types halves = .ok c₂)
    (hunits : range.units.foldlM
      (fun q unit => q.start s.generation ⟨.argument index, unit, .vmem⟩ true true)
      (q.issue s.generation .vmem true) = .ok q') : StartsWith s.generation c₂ q' := by
  have hi := Context.issued_of_issue hissue
  obtain ⟨-, rfl⟩ := Context.track_eq_ok.1 htrack
  have hslack : c₁.Slack = c.Slack := by
    funext d
    cases d <;> simp [Context.Slack, hi.flatVm, hi.flatLgkm]
  -- The arguments in front move away.
  have hold : ∀ (k : AccessKey) (a : InFlight), (q.issue s.generation .vmem true)[k]? = some a →
      ∃ a₀, q[k]? = some a₀ ∧ a = a₀.issue s.generation k (fun _ => true) .vmem := by
    intro k a hk
    rw [Pending.getElem?_issue q s.generation .vmem fun _ => true] at hk
    obtain ⟨a₀, ha₀, rfl⟩ := Option.map_eq_some_iff.1 hk
    exact ⟨a₀, ha₀, rfl⟩
  have hcases : ∀ (k : AccessKey) (a : InFlight), q'[k]? = some a →
      (q.issue s.generation .vmem true)[k]? = some a ∨ (k.origin = .argument index ∧ k.event = .vmem
        ∧ k.unit ∈ range.units) ∧ argumentAccess = a := by
    intro k a hk
    rw [getElem?_startUnits hunits] at hk
    split at hk
    · exact .inr ⟨‹_›, Option.some.inj hk⟩
    · exact .inl hk
  refine ⟨fun k a hk => ?_, fun k a hk => ?_, fun k a hk => ?_⟩
  · rcases hcases k a hk with hk | ⟨⟨-, hev, hunit⟩, rfl⟩
    · obtain ⟨a₀, ha₀, rfl⟩ := hold k a hk
      have hat := Context.FollowsAt.issue (h.covers k a₀ ha₀) (h.bounded k a₀ ha₀) (fun _ => true)
        (fun ho => by cases ho) hissue
      rw [← hslack] at hat
      exact hat.trackUnits (fun j => Context.startedEntry s.generation .vmem true types
        (HalfSet.ofWord halves j)) range.units.zipIdx
    · have hz : Counter.vm ∈ c₁.nonzero := by
        rw [hi.nonzero, Flags.mem_union, Generation.mem_countersOf_singleton]
        exact .inr rfl
      have hnew : ∀ j, (Context.startedEntry s.generation .vmem true types
          (HalfSet.ofWord halves j)).Follows s.generation c₁.Slack c₁.nonzero k argumentAccess :=
        fun j => hev ▸ Context.follows_startedEntry (by rw [hev]; rfl) hz rfl (fun _ => rfl)
          (fun hw => by cases hw) (fun ho => by cases ho) types _
      obtain ⟨j, hj⟩ := List.mem_iff_getElem?.1 hunit
      exact Context.followsAt_trackUnits hnew (List.mem_zipIdx_iff_getElem?.2 hj)
  · rcases hcases k a hk with hk | ⟨-, rfl⟩
    · obtain ⟨a₀, ha₀, rfl⟩ := hold k a hk
      have hag := InFlight.aged_issue a₀ s.generation k (fun _ => true) .vmem
      rw [hag.counter]
      exact hag.bounded (h.bounded k a₀ ha₀)
    · exact UInt16.le_iff_toNat_le.2 (Nat.zero_le _)
  · rcases hcases k a hk with hk | ⟨⟨horigin, -, -⟩, -⟩
    · obtain ⟨a₀, ha₀, -⟩ := hold k a hk
      exact h.origin k a₀ ha₀
    · exact ⟨index, horigin⟩

lemma startUnits_total (g : Generation) (index : Nat) (units : List Reg) (q : Pending) :
    ∃ q', units.foldlM (fun q unit => q.start g ⟨.argument index, unit, .vmem⟩ true true) q
      = .ok q' := by
  obtain ⟨q', hq', -⟩ := foldlM_total (l := units)
    (f := fun q unit => q.start g ⟨.argument index, unit, .vmem⟩ true true) (b := q)
    (fun _ => True) (fun unit _ o _ => by
      have hc : g.counterOf .vmem = .ok .vm := Generation.counterOf_eq_ok rfl
      exact ⟨_, by simp only [Pending.start, hc]; rfl, trivial⟩) trivial
  exact ⟨q', hq'⟩

/-- The checker finds the state at the start of a valid program. -/
lemma startState_total {p : Program} (hv : p.Valid) {c : Context}
    (hc : p.startContext (setting p) = .ok c) :
    ∃ q, startState p = .ok q ∧ StartsWith p.config.generation c q := by
  have hfold : ∀ (l : List RegRange) (m : Nat) (c c' : Context) (q : Pending),
      (∀ r ∈ l, r.isValid = true) → StartsWith p.config.generation c q →
      (l.foldlM (fun c range => do
        (← c.issue (setting p) .vmem {} none).track (setting p).generation range .vmem true {.plain}
          (BitVec.allOnes 32)) c : Except Fault Context) = .ok c' →
      ∃ q', ((l.zipIdx m).foldlM (fun q x => do
        x.1.checkFits
        x.1.units.foldlM
          (fun q unit => q.start p.config.generation ⟨.argument x.2, unit, .vmem⟩ true true)
          (q.issue p.config.generation .vmem true)) q : Except Fault Pending) = .ok q'
        ∧ StartsWith p.config.generation c' q' := by
    intro l
    induction l with
    | nil =>
      intro m c c' q _ hq h
      cases h
      exact ⟨q, rfl, hq⟩
    | cons range l ih =>
      intro m c c' q hl hq h
      rw [List.foldlM_cons, bind_eq_ok] at h
      obtain ⟨c₂, h₂, h⟩ := h
      obtain ⟨c₁, hissue, htrack⟩ := bind_eq_ok.1 h₂
      obtain ⟨q₁, hq₁⟩ := startUnits_total p.config.generation m range.units
        (q.issue p.config.generation .vmem true)
      obtain ⟨q', hq', hstarts⟩ := ih (m + 1) c₂ c' q₁
        (fun r hr => hl r (List.mem_cons_of_mem _ hr))
        (StartsWith.argument (s := setting p) hq hissue htrack hq₁) h
      refine ⟨q', ?_, hstarts⟩
      rw [List.zipIdx_cons, List.foldlM_cons, bind_eq_ok]
      refine ⟨q₁, ?_, hq'⟩
      dsimp only
      rw [RegRange.checkFits_of_isValid (hl range (by simp))]
      exact hq₁
  refine hfold p.pendingVmem 0 _ c ∅ hv.argument ⟨?_, ?_, ?_⟩ hc
  · intro k a hk
    simp at hk
  · intro k a hk
    simp at hk
  · intro k a hk
    simp at hk

end Checker

/-! ### Blocks whose code keeps the rules -/

/-- The code of the block at the place `n` is regular, and starts no access where no lanes are. -/
structure Block.Lawful (s : Setting) (n : Nat) (b : Block) : Prop where
  regular : ∀ i ∈ b.instructions, i.Regular
  laneless : 0 < n → b.logicalPreds = [] → ∀ i ∈ b.instructions, i.leaves s = []

lemma Instruction.IsInserted.leaves {s : Setting} {i : Instruction} (h : i.IsInserted s) :
    i.leaves s = [] := by
  rcases h with ⟨w, rfl⟩ | ⟨w, rfl⟩ | ⟨-, rfl⟩ <;> rfl

lemma Instruction.TakesOver.leaves {s : Setting} {i kept : Instruction} (h : i.TakesOver kept) :
    kept.leaves s = i.leaves s := by
  rcases h with rfl | ⟨n, m, hn, -, rfl⟩
  · rfl
  · simp [Instruction.leaves, started, hn]

lemma Block.Lawful.insertWaits {s : Setting} {n : Nat} {b b' : Block} {c c' : Context}
    (hb : b.Lawful s n) (h : b.insertWaits s c = .ok (b', c')) : b'.Lawful s n := by
  refine ⟨regular_insertWaits h hb.regular, fun hn hpreds i hi => ?_⟩
  rw [(insertWaits_sameFrame h).logicalPreds] at hpreds
  rcases mem_insertWaits h (fun j hj => (hb.regular j hj).coherent) hi with hin | ⟨j, hj, -, htakes⟩
  · exact hin.leaves
  · exact htakes.leaves.trans (hb.laneless hn hpreds j hj)

/-- Where several logical paths merge, each of them comes in along an edge that carries the
entries. -/
def Block.Merges (b : Block) : Prop :=
  2 ≤ b.logicalPreds.length →
    (∃ pred ∈ b.linearPreds, pred ∉ b.logicalPreds) ∨ ∀ pred ∈ b.logicalPreds, pred ∈ b.linearPreds

/-- The registers are followed along the edges that the checker looks at. -/
lemma Block.Merges.exists_edge {b : Block} (h : b.Merges) {pred : UInt32}
    (hpred : pred ∈ if 1 < b.logicalPreds.length then b.logicalPreds else b.linearPreds) :
    ∃ edge : Context.Edge, (pred.toNat, edge) ∈ b.edges ∧ edge.carriesEntries = true := by
  have hlinear : b.mergesLanes = false → pred ∈ b.linearPreds →
      ∃ edge : Context.Edge, (pred.toNat, edge) ∈ b.edges ∧ edge.carriesEntries = true := by
    intro hm hp
    refine ⟨⟨false, false⟩, ?_, rfl⟩
    rw [edges, hm]
    exact List.mem_append_left _ (List.mem_map.2 ⟨pred, hp, rfl⟩)
  split at hpred
  · rename_i hmany
    cases hm : b.mergesLanes with
    | true =>
      refine ⟨⟨true, true⟩, ?_, rfl⟩
      rw [edges, hm]
      exact List.mem_append_right _ (List.mem_map.2 ⟨pred, hpred, rfl⟩)
    | false =>
      refine hlinear hm ?_
      rcases h hmany with ⟨other, hother, hout⟩ | hall
      · simp only [mergesLanes, hmany, decide_true, Bool.true_and, List.any_eq_false] at hm
        exact absurd (by simpa using hout) (hm other hother)
      · exact hall pred hpred
  · rename_i hfew
    exact hlinear (by simp [mergesLanes, hfew]) hpred

namespace Checker

/-! ### The contexts of a finished sweep cover what the checker finds -/

/-- A program in which the sweep has come to its end, and the states from which the sweep and the
checker start. -/
structure Swept (p : Program) (start : Context) (q : Pending) (nodes : List Node) : Prop where
  valid : p.Valid
  merges : ∀ b ∈ p.blocks, b.Merges
  settled : Settled (setting p) p start (·.Sound p.config.generation)
    (fun n b => b.Lawful (setting p) n) nodes
  starts : StartsWith p.config.generation start q
  kindly : Kindly (p.withNodes nodes) q

/-- The contexts at the ends of the blocks are right about what is in flight there. -/
structure Covered (p : Program) (nodes : List Node) (flows : List Flow) : Prop where
  length : flows.length = p.blocks.length
  kindly : KindlyAll (p.withNodes nodes) flows
  laneless : ∀ (k : AccessKey) (n : Nat),
    isLaneless (p.withNodes nodes).blocks k.origin = true → exitAt flows k n = none
  covers : ∀ (n : Nat) (node : Node), nodes[n]? = some node → ∀ (k : AccessKey) (a : InFlight),
    exitAt flows k n = some a →
      node.exit.FollowsAt p.config.generation node.exit.Slack k a

variable {p : Program} {start : Context} {q : Pending} {nodes : List Node} {flows : List Flow}
  {n : Nat} {b : Block}

namespace Swept

lemma node (h : Swept p start q nodes) (hb : p.blocks[n]? = some b) :
    ∃ node, nodes[n]? = some node ∧ (p.withNodes nodes).blocks[n]? = some node.block
      ∧ b.SameFrame node.block := by
  have hlt : n < nodes.length := h.settled.length ▸ (List.getElem?_eq_some_iff.1 hb).1
  have hn := List.getElem?_eq_getElem hlt
  refine ⟨nodes[n], hn, ?_, h.settled.frame n b _ hb hn⟩
  simp only [Program.withNodes, List.getElem?_map, hn, Option.map_some]

lemma block (h : Swept p start q nodes) {b' : Block}
    (hb' : (p.withNodes nodes).blocks[n]? = some b') :
    ∃ b node, p.blocks[n]? = some b ∧ nodes[n]? = some node ∧ node.block = b' := by
  simp only [Program.withNodes, List.getElem?_map, Option.map_eq_some_iff] at hb'
  obtain ⟨node, hn, rfl⟩ := hb'
  have hlt : n < p.blocks.length := h.settled.length ▸ (List.getElem?_eq_some_iff.1 hn).1
  exact ⟨p.blocks[n], node, List.getElem?_eq_getElem hlt, hn, rfl⟩

end Swept

/-- What has the rank of an access is one of the same kind and as near. -/
lemma exists_of_rank_eq {g : Generation} {kind a : InFlight} {y : Option InFlight}
    (ha : OfKind g kind (some a)) (hy : OfKind g kind y) (h : rank (some a) = rank y) :
    ∃ o, y = some o ∧ a.Like o ∧ a.younger = o.younger := by
  cases y with
  | none => exact absurd (rank_some_lt a) (by rw [h]; exact Nat.lt_irrefl _)
  | some o => exact ⟨o, rfl, (ha a rfl).1.trans (hy o rfl).1.symm, UInt16.toNat_inj.1 h⟩

/-- An edge from a block of the sweep, with what the checker finds at the end of that block. -/
lemma Covered.followsAt_of_edge (hf : Covered p nodes flows) {c₀ : Context} {edge : Context.Edge}
    {pred : Nat} {node : Node} (hnode : nodes[pred]? = some node)
    (habs : c₀.Absorbs node.exit edge) (hcarry : edge.carriesEntries = true) {k : AccessKey}
    {a o : InFlight} (ho : exitAt flows k pred = some o) (hlike : a.Like o)
    (hyounger : a.younger = o.younger)
    (hlanes : a.lanes = true → ∀ e : Entry, c₀.regs[k.unit]? = some e → k.event ∈ e.laneEvents) :
    c₀.FollowsAt p.config.generation c₀.Slack k a := by
  obtain ⟨e₀, he₀, hfol⟩ := hf.covers pred node hnode k o ho
  obtain ⟨e, he, hgrows⟩ := habs.entries hcarry k.unit e₀ he₀
  refine ⟨e, he, hfol.of_grows hgrows (fun d hd => ?_)
    (fun d hd => Flags.mem_of_lacks_eq_false habs.nonzero hd) hlike.write hlike.counter
    hlike.ordered hyounger fun hl => hlanes hl e he⟩
  cases d with
  | vm => exact habs.flatVm hd
  | lgkm => exact habs.flatLgkm hd
  | _ => cases hd

/-- The context in which a block was rewritten last is right about what the checker finds at its
entry. -/
lemma Covered.agrees_entry (h : Swept p start q nodes) (hf : Covered p nodes flows)
    (hb : p.blocks[n]? = some b) {node : Node} (hframe : b.SameFrame node.block) {b₀ : Block}
    {c₀ : Context}
    (hr : Rewritten (setting p) p start (·.Sound p.config.generation)
      (fun n b => b.Lawful (setting p) n) nodes n b node b₀ c₀)
    {x : Pending} (hx : blockEntry (p.withNodes nodes) flows q n node.block = .ok x) :
    Agrees (setting p) c₀ x .none := by
  have hkind := hf.kindly.blockEntry h.kindly hx
  refine ⟨hr.context, fun k a hk => (hkind k a hk).2, ?_⟩
  rw [Pending.wait_none]
  intro k a hk
  have hent := entered_of_blockEntry hx k
  have hka := hkind k
  rw [hk] at hent hka
  have hplaced := h.valid.placed n b hb
  rcases hent.attained with hfirst | ⟨pred, hpred, hrank⟩
  · -- The access comes in with the start of the program, and block 0 has no predecessors.
    obtain ⟨o, ho, -, -⟩ := exists_of_rank_eq hka (h.kindly.firstAt n k) hfirst
    have hn : n = 0 := by
      by_contra hn
      rw [firstAt, if_neg hn] at ho
      cases ho
    have hseen := hent.seen
    rw [hframe.logicalPreds, (hplaced.entry hn).2] at hseen
    rw [firstAt, if_pos hn] at hfirst hseen
    simp only [Option.isSome_some, List.any_nil, Bool.or_false, Bool.true_and] at hseen
    rw [hr.first hn]
    exact h.starts.covers k a (eq_of_rank_eq hka (h.kindly k) hfirst hseen).symm
  · obtain ⟨o, ho, hlike, hyounger⟩ := exists_of_rank_eq hka (hf.kindly k pred.toNat) hrank
    have hlanes : isLaneless (p.withNodes nodes).blocks k.origin ≠ true := fun hl => by
      rw [hf.laneless k _ hl] at ho
      cases ho
    rw [sources, if_neg hlanes, List.append_nil, hframe.linearPreds, hframe.logicalPreds] at hpred
    obtain ⟨edge, hedge, hcarry⟩ := (h.merges b (List.mem_of_getElem? hb)).exists_edge hpred
    obtain ⟨other, hother, habs⟩ := hr.absorbs _ hedge
    refine hf.followsAt_of_edge hother habs hcarry ho hlike hyounger fun hl e he => ?_
    -- The lanes come in along a logical edge, maybe another one.
    have hseen := hent.seen
    rw [show seen (some a) = true from hl, hframe.logicalPreds] at hseen
    simp only [Option.isSome_some, Bool.true_and] at hseen
    rcases Bool.or_eq_true_iff.1 hseen.symm with hfirst | hany
    · have hn : n = 0 := by
        by_contra hn
        rw [firstAt, if_neg hn] at hfirst
        cases hfirst
      rw [(hplaced.entry hn).1, (hplaced.entry hn).2] at hpred
      simp at hpred
    · obtain ⟨from_, hfrom, hs⟩ := List.any_eq_true.1 hany
      obtain ⟨a', ha', hl'⟩ := exists_of_seen hs
      obtain ⟨node', hnode', habs'⟩ := hr.absorbs (from_.toNat, ⟨true, b.mergesLanes⟩)
        (List.mem_append_right _ (List.mem_map.2 ⟨from_, hfrom, rfl⟩))
      obtain ⟨e', he', hfol'⟩ := hf.covers _ node' hnode' k a' ha'
      exact Flags.mem_of_lacks_eq_false (habs'.lanes rfl k.unit e' e he' he) (hfol'.lanes hl')

/-! ### One block -/

/-- The checker goes through a rewritten block without a finding. -/
lemma Covered.stepBlock_entry (h : Swept p start q nodes) (hf : Covered p nodes flows)
    (hb : (p.withNodes nodes).blocks[n]? = some b) (hkind : .discardEarlyExit ∉ b.kind)
    {x : Pending} (hx : blockEntry (p.withNodes nodes) flows q n b = .ok x) :
    ∃ node x', nodes[n]? = some node ∧ stepBlock (setting p) n b x = .ok (x', [])
      ∧ node.exit.Covers p.config.generation x' ∧ b.Lawful (setting p) n := by
  obtain ⟨b₁, node, hb₁, hnode, rfl⟩ := h.block hb
  have hframe := h.settled.frame n b₁ node hb₁ hnode
  obtain ⟨b₀, c₀, hr⟩ := h.settled.rewritten n b₁ node hb₁ hnode (hframe.kind ▸ hkind)
  obtain ⟨x', hstep, hagrees⟩ := Block.stepBlock_insertWaits hr.result hr.block.regular
    (hf.agrees_entry h hb₁ hframe hr hx) n
  refine ⟨node, x', hnode, hstep, ?_, hr.block.insertWaits hr.result⟩
  have hcov := hagrees.covers
  rwa [Pending.wait_none] at hcov

/-- Nothing comes of nothing. -/
lemma carry_none {s : Setting} {k : AccessKey} {block index : Nat} {is : List Instruction}
    (h : ∀ i ∈ is, ∀ m, fresh s (.code block m) i k = none) :
    carry s k block index is none = none := by
  induction is generalizing index with
  | nil => rfl
  | cons i rest ih =>
    have hstep : carryStep s k (.code block index) i none = none := by
      rw [carryStep, h i (by simp)]
      rfl
    rw [carry, hstep]
    exact ih fun j hj => h j (List.mem_cons_of_mem _ hj)

/-- Where no lanes are, nothing starts. -/
lemma fresh_of_isLaneless {s : Setting} {blocks : List Block} {k : AccessKey}
    (hk : isLaneless blocks k.origin = true) (hb : blocks[n]? = some b) (hlaw : b.Lawful s n)
    {i : Instruction} (hi : i ∈ b.instructions) (m : Nat) : fresh s (.code n m) i k = none := by
  cases hfresh : fresh s (.code n m) i k with
  | none => rfl
  | some a =>
    obtain ⟨leaf, hleaf, rfl, -⟩ := newAmong_eq_some hfresh
    simp only [isLaneless, hb, Option.any_some, Bool.and_eq_true, bne_iff_ne, ne_eq,
      List.isEmpty_iff] at hk
    rw [hlaw.laneless (Nat.pos_of_ne_zero hk.1) hk.2 i hi] at hleaf
    cases hleaf

/-- Nothing from a block without lanes comes in. -/
lemma Covered.entry_of_isLaneless (h : Swept p start q nodes) (hf : Covered p nodes flows)
    {x : Pending} (hx : blockEntry (p.withNodes nodes) flows q n b = .ok x) {k : AccessKey}
    (hk : isLaneless (p.withNodes nodes).blocks k.origin = true) : x[k]? = none := by
  have hfirst : firstAt q n k = none := by
    cases hq : firstAt q n k with
    | none => rfl
    | some a =>
      rw [firstAt] at hq
      split at hq
      · obtain ⟨index, horigin⟩ := h.starts.origin k a hq
        rw [horigin] at hk
        cases hk
      · cases hq
  have hrank : rank x[k]? = rank none := by
    rcases (entered_of_blockEntry hx k).attained with heq | ⟨pred, -, heq⟩
    · rw [heq, hfirst]
    · rw [heq, hf.laneless k _ hk]
  cases hxk : x[k]? with
  | none => rfl
  | some a =>
    rw [hxk] at hrank
    exact absurd (rank_some_lt a) (by rw [hrank]; exact Nat.lt_irrefl _)

/-- Going through one block finds nothing and keeps the contexts right. -/
lemma Covered.flowBlock (h : Swept p start q nodes) (hf : Covered p nodes flows)
    (hb : (p.withNodes nodes).blocks[n]? = some b) (hkind : .discardEarlyExit ∉ b.kind) :
    ∃ entry exit, blockEntry (p.withNodes nodes) flows q n b = .ok entry
      ∧ stepBlock (setting p) n b entry = .ok (exit, [])
      ∧ Covered p nodes (flows.set n { entry, exit }) := by
  obtain ⟨b₁, node₁, hb₁, hnode₁, rfl⟩ := h.block hb
  have hframe := h.settled.frame n b₁ node₁ hb₁ hnode₁
  obtain ⟨x, hx⟩ : ∃ x, blockEntry (p.withNodes nodes) flows q n node₁.block = .ok x := by
    refine blockEntry_total ?_ q n
    rw [hframe.linearPreds, hframe.logicalPreds, hf.length]
    exact (h.valid.placed n b₁ hb₁).pred_lt
  obtain ⟨node, x', hnode, hstep, hcov, hlaw⟩ := hf.stepBlock_entry h hb hkind hx
  have hflow : Checker.flowBlock (p.withNodes nodes) q flows n node₁.block
      = .ok (flows.set n { entry := x, exit := x' }) :=
    bind_eq_ok.2 ⟨x, hx, bind_eq_ok.2 ⟨(x', []), hstep, rfl⟩⟩
  refine ⟨x, x', hx, hstep, (List.length_set ..).trans hf.length,
    hf.kindly.flowBlock h.kindly hb hflow, fun k m hk => ?_, fun m other hother k a hka => ?_⟩
  · rw [exitAt_set]
    split
    · rw [getElem?_stepBlock hstep, hf.entry_of_isLaneless h hx hk]
      exact carry_none fun i hi => fresh_of_isLaneless hk hb hlaw hi
    · exact hf.laneless k m hk
  · rw [exitAt_set] at hka
    split at hka
    · rename_i heq
      rw [heq.1, hnode] at hother
      cases hother
      exact hcov k a hka
    · exact hf.covers m other hother k a hka

/-! ### All rounds -/

lemma covered_empty (h : Swept p start q nodes) :
    Covered p nodes ((p.withNodes nodes).blocks.map fun _ => {}) := by
  refine ⟨by simp [Program.withNodes, h.settled.length], kindlyAll_empty _,
    fun k n _ => exitAt_empty _ k n, fun n node _ k a hk => ?_⟩
  rw [exitAt_empty] at hk
  cases hk

/-- The checker finds nothing in the blocks of a finished sweep. -/
lemma Swept.check (h : Swept p start q nodes) (hq : startState p = .ok q) :
    (p.withNodes nodes).check = .ok [] :=
  check_eq_nil (Covered p nodes) hq (covered_empty h) fun hf hb hkind => hf.flowBlock h hb hkind

end Checker

/-! ### The result -/

namespace Program

/-- The rules that programs keep beyond being valid: instructions have the payloads that their opcodes
call for and no more destinations than are followed, loops are entered and left where they say, no
access starts where no lanes are, and lanes merge along edges that are followed. -/
structure Admissible (p : Program) : Prop where
  valid : p.validate = .ok ()
  coherent : ∀ b ∈ p.blocks, ∀ i ∈ b.instructions, i.isCoherent = true
  narrow : ∀ b ∈ p.blocks, ∀ i ∈ b.instructions, ∀ d ∈ i.definitions, d.size ≤ 16
  single : ∀ b ∈ p.blocks, ∀ i ∈ b.instructions, i.isSmem = true ∨ i.format = .flat →
    i.definitions.length ≤ 1
  returned : ∀ b ∈ p.blocks, ∀ i ∈ b.instructions,
    i.opcode = .sSendmsgRtnB32 ∨ i.opcode = .sSendmsgRtnB64 → i.definitions.length = 1
  loops : p.LoopsNest
  laneless : ∀ (n : Nat) (b : Block), p.blocks[n]? = some b → 0 < n → b.logicalPreds = [] →
    ∀ i ∈ b.instructions, i.leaves (Checker.setting p) = []
  merges : ∀ b ∈ p.blocks, b.Merges

lemma Admissible.lawful {p : Program} (h : p.Admissible) {n : Nat} {b : Block}
    (hb : p.blocks[n]? = some b) : b.Lawful (Checker.setting p) n := by
  have hmem := List.mem_of_getElem? hb
  have hplaced := (valid_of_validate h.valid).placed n b hb
  exact ⟨fun i hi => ⟨h.coherent b hmem i hi, hplaced.instructions i hi, h.narrow b hmem i hi,
    h.single b hmem i hi, h.returned b hmem i hi⟩, h.laneless n b hb⟩

lemma Admissible.keeps {p : Program} (h : p.Admissible) {start : Context}
    (hstart : start.Sound p.config.generation) :
    Sweep.Keeps (Checker.setting p) p start (·.Sound p.config.generation)
      (fun n b => b.Lawful (Checker.setting p) n) where
  empty := Context.sound_empty _
  start := hstart
  join edge hc ho := hc.join ho edge
  original := h.lawful
  rewrite hb hc hr := ⟨hb.insertWaits hr, Block.insertWaits_sound hr hc⟩

/-- Inserting waits into an admissible program succeeds, and no hazard is left: the checker goes
through the result and finds nothing. -/
theorem insertValidated_findings {p : Program} (h : p.Admissible) :
    ∃ outcome, p.insertValidated { check := true } = .ok outcome ∧ outcome.findings = [] := by
  have hv := valid_of_validate h.valid
  obtain ⟨start, hstart, hsound⟩ := startContext_total (s := Checker.setting p) hv
  have hkeeps := h.keeps hsound
  have hsetting : Checker.setting p = { config := p.config, drainAll := false } := rfl
  obtain ⟨w, hw⟩ := solve_total hsetting hv h.loops (fun _ => hstart) hkeeps
    fun hb hc => Block.insertWaits_total hc fun i hi => (hb.regular i hi).workable
  obtain ⟨q, hq, hstarts⟩ := Checker.startState_total hv hstart
  have hswept : Checker.Swept p start q w.nodes :=
    { valid := hv
      merges := h.merges
      settled := settled_of_solve hsetting hv h.loops (fun _ => hstart) hkeeps hw
      starts := hstarts
      kindly := Checker.kindly_startState hq }
  refine ⟨
    { program := p.withNodes w.nodes
      visits := w.visits
      inserted := (p.withNodes w.nodes).countWaits - p.countWaits }, ?_, rfl⟩
  have hinsert : p.insertWaits { check := true } = .ok
      { program := p.withNodes w.nodes
        visits := w.visits
        inserted := (p.withNodes w.nodes).countWaits - p.countWaits } := by
    simp only [insertWaits, hw, bind_eq_ok, if_true, pure_eq_ok]
    exact ⟨w, rfl, [], hswept.check hq, rfl⟩
  simp only [insertValidated, h.valid, hinsert]
  rfl

/-- A loop that goes on loading while it uses what it has loaded.  Behind it some lanes store the last
result, and all of them merge around a block without lanes. -/
def loadLoop : Program where
  blocks := [
    { index := 0, kind := {.topLevel}
      instructions := [⟨.globalLoadDword, [⟨.vgpr 2, 1⟩], [.reg ⟨.vgpr 0, 2⟩], .flat {}⟩] },
    { index := 1, kind := {.loopHeader}, linearPreds := [0, 2], logicalPreds := [0, 2]
      loopDepth := 1
      instructions := [
        ⟨.vAddF32, [⟨.vgpr 3, 1⟩], [.reg ⟨.vgpr 2, 1⟩, .reg ⟨.vgpr 3, 1⟩], .valu⟩] },
    { index := 2, linearPreds := [1], logicalPreds := [1], loopDepth := 1
      instructions := [
        ⟨.globalLoadDword, [⟨.vgpr 2, 1⟩], [.reg ⟨.vgpr 0, 2⟩], .flat {}⟩,
        ⟨.sLoadDword, [⟨.sgpr 4, 1⟩], [.reg ⟨.sgpr 0, 2⟩], .smem {}⟩] },
    { index := 3, kind := {.loopExit}, linearPreds := [1], logicalPreds := [1] },
    { index := 4, linearPreds := [3], logicalPreds := [3]
      instructions := [
        ⟨.globalStoreDword, [], [.reg ⟨.vgpr 0, 2⟩, .reg ⟨.vgpr 2, 1⟩], .flat {}⟩] },
    { index := 5, kind := {.invert}, linearPreds := [3, 4]
      instructions := [⟨.sMovB32, [⟨.sgpr 6, 1⟩], [.const 0], .salu⟩] },
    { index := 6, kind := {.merge}, linearPreds := [5], logicalPreds := [3, 4]
      instructions := [
        ⟨.vMovB32, [⟨.vgpr 2, 1⟩], [.reg ⟨.sgpr 4, 1⟩], .valu⟩, .ofImmediate .sEndpgm 0] }]

theorem admissible_loadLoop : loadLoop.Admissible where
  valid := by decide +kernel
  coherent := by decide +kernel
  narrow := by decide +kernel
  single := by decide +kernel
  returned := by decide +kernel
  loops := by
    have hinside : ∀ x ∈ loadLoop.blocks.zipIdx, (x.1.linearPreds ++ x.1.logicalPreds).all
        (fun pred => decide (x.2 ≤ pred.toNat → x.2 ∈ openHeaders loadLoop.blocks (pred.toNat + 1)))
          = true := by decide +kernel
    refine ⟨fun n b hb pred hpred => ?_, by decide +kernel⟩
    have hall := hinside (b, n) (List.mem_zipIdx_iff_getElem?.2 hb)
    exact of_decide_eq_true (List.all_eq_true.1 hall pred hpred)
  laneless := by
    have hlaneless : ∀ x ∈ loadLoop.blocks.zipIdx, 0 < x.2 → x.1.logicalPreds = [] →
        ∀ i ∈ x.1.instructions, (i.leaves (Checker.setting loadLoop)).isEmpty = true := by
      decide +kernel
    exact fun n b hb hn hpreds i hi => List.isEmpty_iff.1
      (hlaneless (b, n) (List.mem_zipIdx_iff_getElem?.2 hb) hn hpreds i hi)
  merges := by simp [loadLoop, Block.Merges]

theorem insertValidated_loadLoop : loadLoop.Admissible ∧
    ∃ outcome, loadLoop.insertValidated { check := true } = .ok outcome ∧ outcome.findings = [] :=
  ⟨admissible_loadLoop, insertValidated_findings admissible_loadLoop⟩

end Program

end GpuWaits
