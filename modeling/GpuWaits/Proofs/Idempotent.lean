/-
# Inserting waits twice

The code that the pass has put out is meant to stay as it is when the pass goes over it once more.  It
does so for steady programs, whatever their control flow and the waits and barriers in them are
(`Program.Steady.insertWaits_twice`).  The second sweep takes another course than the first.  It finds the
waits of later rounds in its first round already, so that it knows of fewer accesses everywhere, and no
more than the first sweep did when it rewrote a block for the last time (`Sweep.Echoes`).

Five things make a program restless (`Program.insertWaits_restless`).  An interpolation takes over a wait,
and the next sweep does not see that it waits.  Registers are released where no access of scratch memory
is outstanding, so that fewer accesses may ask for a message.  A release that an access does not pay for
by itself is deferred too early once the wait that parted its clause is gone.  A flat load has no type, and
a load may overtake it where one of a known type is outstanding as well, but not where it is alone.  And
the sweep stops too early behind loops whose exits it skips.
-/
import GpuWaits.Proofs.FixedPoint
import GpuWaits.Proofs.Guard
import GpuWaits.Proofs.Mirror
import GpuWaits.Proofs.Ordered

namespace GpuWaits

lemma Context.empty_below (c : Context) : ({} : Context).Below c where
  nonzero := Flags.lacks_empty _
  flatLgkm h := by cases h
  flatVm h := by cases h
  entries r x hx := by
    rw [show ({} : Context).regs[r]? = none by simp] at hx
    cases hx
  demands role k := by
    have hdemand : (({} : Context).barrier role).demand k = {} := by
      cases role <;> cases k <;> rfl
    rw [hdemand]
    exact Demand.grows_of_empty (Demand.tidy_empty .gfx6) (Demand.counted_empty .gfx6) (by simp) _

/-- All instructions of the block are steady. -/
def Block.Steady (s : Setting) (b : Block) : Prop := ∀ i ∈ b.instructions, i.Steady s

instance (s : Setting) (b : Block) : Decidable (b.Steady s) := inferInstanceAs (Decidable (∀ _ ∈ _, _))

lemma Block.Steady.insertWaits {s : Setting} {b b' : Block} {c c' : Context} (hb : b.Steady s)
    (h : b.insertWaits s c = .ok (b', c')) : b'.Steady s :=
  Block.forall_insertWaits (fun _ hi => hi.steady)
    (fun _ _ hi htakes => (hi.eq_of_takesOver htakes).symm ▸ hi)
    (fun _ hi => hi.coherent) h hb

/-! ### The program that is put out -/

/-- The programs differ in the code of their blocks only. -/
structure Program.SameShape (p p' : Program) : Prop where
  argument : p'.pendingVmem = p.pendingVmem
  length : p'.blocks.length = p.blocks.length
  frame : ∀ (n : Nat) (b' : Block), p'.blocks[n]? = some b' →
    ∃ b, p.blocks[n]? = some b ∧ b.SameFrame b'

namespace Program.SameShape

variable {p p' : Program}

lemma openHeaders (h : p.SameShape p') (n : Nat) :
    openHeaders p'.blocks n = GpuWaits.openHeaders p.blocks n := by
  induction n with
  | zero => rfl
  | succ n ih =>
    cases hn : p'.blocks[n]? with
    | none =>
      have hn' : p.blocks[n]? = none := by
        rw [List.getElem?_eq_none_iff] at hn ⊢
        rwa [← h.length]
      rw [GpuWaits.openHeaders, hn, GpuWaits.openHeaders, hn', ih]
    | some b' =>
      obtain ⟨b, hb, hframe⟩ := h.frame n b' hn
      simp only [GpuWaits.openHeaders, hn, hb, hframe.kind, ih]

lemma apart (h : p.SameShape p') {n m : Nat} (ha : p.Apart n m) : p'.Apart n m := by
  rw [Apart, h.openHeaders]
  exact ha

lemma loopsEntered (h : p.SameShape p') (hp : p.LoopsEntered) : p'.LoopsEntered := by
  intro b' hb'
  obtain ⟨n, hn⟩ := List.getElem?_of_mem hb'
  obtain ⟨b, hb, hframe⟩ := h.frame n b' hn
  rw [hframe.kind]
  exact hp b (List.mem_of_getElem? hb)

lemma valid (h : p.SameShape p') (hp : p.Valid)
    (hcode : ∀ b ∈ p'.blocks, ∀ i ∈ b.instructions, i.defect? = none) : p'.Valid where
  argument := h.argument ▸ hp.argument
  placed n b' hn := by
    obtain ⟨b, hb, hframe⟩ := h.frame n b' hn
    have hplaced := hp.placed n b hb
    refine ⟨?_, ?_, ?_, ?_, ?_, ?_, hcode b' (List.mem_of_getElem? hn)⟩
    · rw [hframe.index]
      exact hplaced.index
    · rw [hframe.linearPreds, hframe.logicalPreds]
      exact hplaced.entry
    · rw [hframe.linearPreds, hframe.logicalPreds, h.length]
      exact hplaced.pred_lt
    · rw [hframe.linearPreds, hframe.logicalPreds, hframe.kind]
      exact hplaced.backward
    · rw [hframe.kind, h.openHeaders]
      exact hplaced.exit
    · rw [hframe.loopDepth, h.openHeaders]
      exact hplaced.depth
  closed := by rw [h.length, h.openHeaders, hp.closed]

end Program.SameShape

/-! ### The second sweep -/

namespace Sweep

variable {s : Setting} {p : Program} {start : Context} {settled nodes : List Node} {v w : Sweep}
  {node last : Node} {n : Nat}

/-- The first sweep has rewritten the block at the place `n` last from `b₀`, in the context `c₀`.  What
may come in later was in this context. -/
structure Final (s : Setting) (p : Program) (start : Context) (settled : List Node) (n : Nat) (last : Node)
    (b₀ : Block) (c₀ : Context) : Prop where
  block : b₀.Steady s
  context : c₀.Tidy s.generation
  result : b₀.insertWaits s c₀ = .ok (last.block, last.exit)
  first : n = 0 → c₀ = start
  absorbs : ∀ e ∈ last.block.edges, ¬p.Apart n e.1 →
    ∃ pred, settled[e.1]? = some pred ∧ c₀.Absorbs pred.exit e.2

/-- The first sweep has left the blocks of `p`. -/
structure Finished (s : Setting) (p : Program) (start : Context) (settled : List Node) : Prop where
  blocks : settled.map Node.block = p.blocks
  exit : ∀ last ∈ settled, last.exit.Tidy s.generation
  final : ∀ (n : Nat) (last : Node), settled[n]? = some last → .discardEarlyExit ∉ last.block.kind →
    ∃ b₀ c₀, Final s p start settled n last b₀ c₀

/-- The node of the second sweep at the place `n` shows the block that the first one has left there, and no
more accesses at its ends than were there when this block was rewritten last. -/
structure Echoes (s : Setting) (p : Program) (start : Context) (settled : List Node) (n : Nat)
    (last node : Node) : Prop where
  block : node.block = last.block
  exit : node.exit.Below last.exit
  entry : ∀ b₀ c₀, Final s p start settled n last b₀ c₀ → node.entry.Below c₀

/-- All nodes of the second sweep do so. -/
def EchoesAll (s : Setting) (p : Program) (start : Context) (settled nodes : List Node) : Prop :=
  ∀ (n : Nat) (last node : Node), settled[n]? = some last → nodes[n]? = some node →
    Echoes s p start settled n last node

/-- The invariant of a sweep over steady code. -/
abbrev Steady (s : Setting) (p : Program) (start : Context) (w : Sweep) (m : Nat) : Prop :=
  Inv s p start (·.Tidy s.generation) (fun _ b => b.Steady s) w m

/-- Joining fewer accesses does not lead past a context that has taken in all of them. -/
lemma joinEdges_below_of_absorbs {edges : List (Nat × Context.Edge)} {c c' d : Context} {grew : Bool}
    (hedges : ∀ e ∈ edges, ∀ node, nodes[e.1]? = some node → node.exit.Tidy s.generation
      ∧ ∃ o : Context, o.Tidy s.generation ∧ node.exit.Below o ∧ d.Absorbs o e.2)
    (hc : c.Tidy s.generation) (hbelow : c.Below d) (h : joinEdges nodes edges c = .ok (c', grew)) :
    c'.Below d := by
  induction edges generalizing c grew with
  | nil =>
    simp only [joinEdges, Except.ok.injEq, Prod.mk.injEq] at h
    exact h.1 ▸ hbelow
  | cons e rest ih =>
    obtain ⟨node, more, hnode, hrest, -⟩ := joinEdges_cons.1 h
    obtain ⟨htidy, o, ho, hexit, habs⟩ := hedges e (by simp) node hnode
    exact ih (fun e' he' => hedges e' (List.mem_cons_of_mem _ he')) (hc.join htidy e.2)
      (habs.join_below hbelow hexit hc ho htidy) hrest

section

variable (hfirst : Finished s p start settled)

include hfirst

/-- The context of the last rewrite has all that the second sweep joins into the entry. -/
lemma EchoesAll.joinEdges (hv : Steady s p start v (v.next + 1))
    (hechoes : EchoesAll s p start settled v.nodes) (hlast : settled[v.next]? = some last)
    (hn : v.nodes[v.next]? = some node) {entry : Context} {grew : Bool}
    (hjoin : joinEdges v.nodes node.block.edges node.entry = .ok (entry, grew)) {b₀ : Block} {c₀ : Context}
    (hr : Final s p start settled v.next last b₀ c₀) : entry.Below c₀ := by
  have hnode := hechoes v.next last node hlast hn
  obtain ⟨b, hb⟩ := hv.block_at hn
  refine joinEdges_below_of_absorbs (fun e he pred hpred => ?_) (hv.traced _ b node hb hn).entry
    (hnode.entry b₀ c₀ hr) hjoin
  obtain ⟨b', hb'⟩ := hv.block_at hpred
  have ht := hv.traced _ b' pred hb' hpred
  refine ⟨ht.exit, ?_⟩
  by_cases hapart : p.Apart v.next e.1
  · -- The edge leads back from outside of all loops, and the second sweep has not been there.
    have hexit := (ht.fresh (hv.unseen _ pred hapart hpred)).2
    exact ⟨{}, Context.tidy_empty _, hexit ▸ .refl _, Context.absorbs_empty c₀ e.2⟩
  · obtain ⟨lastPred, hlastPred, habs⟩ := hr.absorbs e (hnode.block ▸ he) hapart
    exact ⟨lastPred.exit, hfirst.exit lastPred (List.mem_of_getElem? hlastPred),
      (hechoes _ lastPred pred hlastPred hpred).exit, habs⟩

/-- A visit gives the block back. -/
lemma EchoesAll.visit (hk : Keeps s p start (·.Tidy s.generation) (fun _ b => b.Steady s))
    (hvalid : p.Valid) (hdrain : s.drainAll = false)
    (hv : Steady s p start v (v.next + 1)) (hechoes : EchoesAll s p start settled v.nodes)
    (hn : v.nodes[v.next]? = some node) (hkind : .discardEarlyExit ∉ node.block.kind) :
    ∃ w, v.visit s v.next node = .ok w ∧ EchoesAll s p start settled w.nodes := by
  obtain ⟨b, hb⟩ := hv.block_at hn
  obtain ⟨last, hlast⟩ : ∃ last, settled[v.next]? = some last := by
    rw [← hfirst.blocks, List.getElem?_map, Option.map_eq_some_iff] at hb
    exact hb.imp fun _ h => h.1
  have hnode := hechoes v.next last node hlast hn
  obtain ⟨b₀, c₀, hr⟩ := hfirst.final v.next last hlast (hnode.block ▸ hkind)
  obtain ⟨entry, grew, hjoin, htidy⟩ := hv.joinEdges_total hk hvalid hn
  have hentry : ∀ b₀ c₀, Final s p start settled v.next last b₀ c₀ → entry.Below c₀ :=
    fun _ _ hr => hechoes.joinEdges hfirst hv hlast hn hjoin hr
  obtain ⟨exit, hagain, hexit, -⟩ :=
    Block.insertWaits_again hdrain hr.block hr.result hr.context htidy (hentry b₀ c₀ hr)
  rw [← hnode.block] at hagain
  obtain ⟨w, hvisit⟩ := visit_total hjoin hagain
  refine ⟨w, hvisit, ?_⟩
  obtain ⟨_, _, node', hjoin', hnodes, -, -, hcases⟩ := visit_cases hvisit
  cases hjoin.symm.trans hjoin'
  have hnode' : Echoes s p start settled v.next last node' := by
    rcases hcases with ⟨-, -, rfl, -⟩ | ⟨block, exit', hrewrite, rfl, -⟩
    · exact ⟨hnode.block, hnode.exit, hentry⟩
    · cases hagain.symm.trans hrewrite
      exact ⟨hnode.block, hexit, hentry⟩
  intro m last' other hlast' hm
  rw [getElem?_visit hnodes hn] at hm
  split at hm
  · rename_i heq
    subst heq
    cases hlast.symm.trans hlast'
    cases hm
    exact hnode'
  · exact hechoes m last' other hlast' hm

/-- A step of the second sweep. -/
lemma EchoesAll.step (hk : Keeps s p start (·.Tidy s.generation) (fun _ b => b.Steady s)) (hvalid : p.Valid)
    (hloops : p.LoopsEntered) (hdrain : s.drainAll = false)
    (hw : Steady s p start w w.next) (hechoes : EchoesAll s p start settled w.nodes)
    (hn : w.nodes[w.next]? = some node) : ∃ w', w.step s w.next node = .ok w'
      ∧ Steady s p start w' w'.next ∧ EchoesAll s p start settled w'.nodes := by
  rcases hw.step_cases hvalid hloops hn with
    ⟨w', hstep, hw', hnodes⟩ | ⟨v, hstep, hnodes, hvn, hv, hkind⟩
  · exact ⟨w', hstep, hw', hnodes ▸ hechoes⟩
  · rw [← hnodes] at hechoes
    obtain ⟨w', hvisit, hechoes'⟩ := hechoes.visit hfirst hk hvalid hdrain hv hvn hkind
    exact ⟨w', hstep ▸ hvisit, hv.visit hk hvalid hvn hkind hvisit, hechoes'⟩

/-- The second sweep starts with the blocks that the first one has left, and with no accesses but those
at the start of the program. -/
lemma echoesAll_start (hnodes : ∀ (n : Nat) (node : Node), nodes[n]? = some node →
    ∃ b, p.blocks[n]? = some b ∧ node = { block := b, entry := if n = 0 then start else {} }) :
    EchoesAll s p start settled nodes := by
  intro n last node hlast hn
  obtain ⟨b, hb, rfl⟩ := hnodes n node hn
  have hblock : last.block = b := by
    rw [← hfirst.blocks, List.getElem?_map, hlast, Option.map_some] at hb
    exact Option.some.inj hb
  refine ⟨hblock.symm, Context.empty_below _, fun b₀ c₀ hr => ?_⟩
  dsimp only
  split
  · rename_i hzero
    rw [hr.first hzero]
    exact .refl start
  · exact Context.empty_below c₀

end

end Sweep

/-! ### The result -/

namespace Program

variable {p : Program}

/-- A program over which the pass goes once and for all: it is valid, its code is steady, and lanes do
not jump to loop exits. -/
structure Steady (p : Program) : Prop where
  valid : p.validate = .ok ()
  code : ∀ b ∈ p.blocks, b.Steady { config := p.config }
  exits : ∀ b ∈ p.blocks, .loopExit ∈ b.kind → .discardEarlyExit ∉ b.kind

lemma keeps_steady {s : Setting} {start : Context} (hblocks : ∀ b ∈ p.blocks, b.Steady s)
    (hstart : start.Tidy s.generation) :
    Sweep.Keeps s p start (·.Tidy s.generation) (fun _ b => b.Steady s) where
  empty := Context.tidy_empty _
  start := hstart
  join edge hc ho := hc.join ho edge
  original hb := hblocks _ (List.mem_of_getElem? hb)
  rewrite hb hc hr := ⟨hb.insertWaits hr, (Context.kept_tidy s).insertWaits hb hr hc⟩

/-- What the first sweep leaves, as a program to begin with. -/
lemma Steady.finished (h : p.Steady) {w : Sweep} (hw : p.solve false = .ok w) {start : Context}
    (hstart : p.startContext { config := p.config } = .ok start) :
    p.SameShape (p.withNodes w.nodes) ∧ (∀ b ∈ (p.withNodes w.nodes).blocks, b.Steady { config := p.config })
      ∧ Sweep.Finished { config := p.config } (p.withNodes w.nodes) start w.nodes := by
  have hv := valid_of_validate h.valid
  obtain ⟨hinv, hend⟩ := inv_of_solve rfl hv (entered_of_solve hv h.exits hw) (fun _ => hstart)
    (keeps_steady h.code (tidy_startContext hstart)) hw
  have hshape : p.SameShape (p.withNodes w.nodes) := by
    refine ⟨rfl, by rw [withNodes, List.length_map, hinv.length], fun n b' hb' => ?_⟩
    rw [withNodes, List.getElem?_map, Option.map_eq_some_iff] at hb'
    obtain ⟨node, hn, rfl⟩ := hb'
    obtain ⟨b, hb⟩ := hinv.block_at hn
    exact ⟨b, hb, (hinv.traced n b node hb hn).frame⟩
  refine ⟨hshape, fun b' hb' => ?_, rfl, hinv.exits, fun n last hn hkind => ?_⟩
  · obtain ⟨node, hnode, rfl⟩ := List.mem_map.1 hb'
    obtain ⟨n, hn⟩ := List.getElem?_of_mem hnode
    obtain ⟨b, hb⟩ := hinv.block_at hn
    exact (hinv.traced n b node hb hn).block
  · obtain ⟨b, hb⟩ := hinv.block_at hn
    have hframe := (hinv.traced n b last hb hn).frame
    obtain ⟨b₀, c₀, hlast, habsorbs⟩ := hinv.rewritten hv hend hb hn (hframe.kind ▸ hkind)
    refine ⟨b₀, c₀, hlast.block, hlast.context, hlast.result, hlast.first, fun e he hapart => ?_⟩
    exact habsorbs e (hframe.edges ▸ he) fun hno => hapart (hshape.apart hno)

/-- The second sweep ends with the blocks that the first one has left. -/
lemma Steady.solve_again (h : p.Steady) {w : Sweep} (hw : p.solve false = .ok w) :
    ∃ w', (p.withNodes w.nodes).solve false = .ok w' ∧ w'.nodes.map Node.block = w.nodes.map Node.block := by
  have hv := valid_of_validate h.valid
  obtain ⟨start, hstart, -⟩ := startContext_total (s := { config := p.config }) hv
  obtain ⟨hshape, hsteady, hfirst⟩ := h.finished hw hstart
  have hv' := hshape.valid hv fun b hb i hi => (hsteady b hb i hi).valid
  have hloops := hshape.loopsEntered (entered_of_solve hv h.exits hw)
  have hk := keeps_steady hsteady (tidy_startContext hstart)
  obtain ⟨nodes, hnodes, hlength, hinit⟩ :=
    nodes_eq_ok (p := p.withNodes w.nodes) (s := { config := p.config }) fun _ => hstart
  obtain ⟨w', hw', hend, hechoes⟩ := Sweep.run_fits
    (fun w' => Sweep.Steady { config := p.config } (p.withNodes w.nodes) start w' w'.next
      ∧ Sweep.EchoesAll { config := p.config } (p.withNodes w.nodes) start w.nodes w'.nodes)
    (fun hw hn => hw.2.step hfirst hk hv' hloops rfl hw.1 hn)
    ⟨Sweep.inv_start hk hinit hlength, Sweep.echoesAll_start hfirst hinit⟩
  refine ⟨w', ?_, List.ext_getElem ?_ fun n hn hn' => ?_⟩
  · change ((p.withNodes w.nodes).nodes { config := p.config }
      >>= fun nodes => Sweep.run { config := p.config } { nodes }) = .ok w'
    rw [hnodes]
    exact hw'
  · rw [List.length_map, hend.length, withNodes]
  · rw [List.length_map] at hn hn'
    rw [List.getElem_map, List.getElem_map]
    exact (hechoes n _ _ (List.getElem?_eq_getElem hn') (List.getElem?_eq_getElem hn)).block

lemma insertWaits_of_solve {w : Sweep} (h : p.solve false = .ok w) : p.insertWaits = .ok
    { program := p.withNodes w.nodes, visits := w.visits
      inserted := (p.withNodes w.nodes).countWaits - p.countWaits } := by
  rw [insertWaits, bind_eq_ok]
  exact ⟨w, h, rfl⟩

/-- The pass leaves the code that it has put out alone. -/
theorem Steady.insertWaits_twice (h : p.Steady) {outcome : Outcome} (ho : p.insertWaits = .ok outcome) :
    ∃ again, outcome.program.insertWaits = .ok again ∧ again.program = outcome.program
      ∧ again.inserted = 0 := by
  simp only [insertWaits, bind_eq_ok] at ho
  obtain ⟨w, hw, ho⟩ := ho
  cases ho
  obtain ⟨w', hw', hblocks⟩ := h.solve_again hw
  have hsame : (p.withNodes w.nodes).withNodes w'.nodes = p.withNodes w.nodes := by
    simp only [withNodes, hblocks]
  refine ⟨{ program := (p.withNodes w.nodes).withNodes w'.nodes, visits := w'.visits, inserted := _ },
    bind_eq_ok.2 ⟨w', hw', rfl⟩, hsame, ?_⟩
  rw [hsame]
  exact Nat.sub_self _

/-- A loop that stores what it has loaded in the round before.  The arguments are waits and barriers. -/
def storeLoop (front between last : List Instruction) : Program where
  config := { workgroupSize := 256 }
  blocks := [
    Sample.block 0 {.topLevel} [] 0 [Sample.bufferLoad (.vgpr 2) (.vgpr 0)],
    Sample.block 1 {.loopHeader} [0, 2] 1 (front ++ [Sample.vectorOp (.vgpr 3) [.vgpr 2]]),
    Sample.block 2 ∅ [1] 1 (Sample.bufferLoad (.vgpr 2) (.vgpr 0) :: between ++ [addFlag [] {.atomic}]),
    Sample.block 3 {.loopExit} [2] 0 (last ++ [Sample.endProgram])]

/-- The loop with a barrier, and two waits behind it. -/
def fencedStores : Program :=
  storeLoop [] [releaseBarrier] [.ofWait .none, .ofWait (.single .lgkm 1)]

lemma steady_fencedStores : fencedStores.Steady where
  valid := by decide +kernel
  code := by decide +kernel
  exits := by decide +kernel

theorem insertWaits_twice_fencedStores : fencedStores.Steady ∧ ∃ outcome,
    fencedStores.insertWaits = .ok outcome
    ∧ outcome.program = storeLoop [.ofWait (.single .vm 0)] [.ofWait (.single .vm 0)]
      [.ofWait (.single .lgkm 1)]
    ∧ ∃ again, outcome.program.insertWaits = .ok again ∧ again.program = outcome.program
      ∧ again.inserted = 0 := by
  obtain ⟨w, hw, hresult⟩ : ∃ w, fencedStores.solve false = .ok w ∧ fencedStores.withNodes w.nodes
      = storeLoop [.ofWait (.single .vm 0)] [.ofWait (.single .vm 0)] [.ofWait (.single .lgkm 1)] :=
    exists_solve 20 (by decide +kernel)
  have ho := insertWaits_of_solve hw
  exact ⟨steady_fencedStores, _, ho, hresult, steady_fencedStores.insertWaits_twice ho⟩

/-! ### Programs that are not steady -/

/-- An interpolation between the export of a register and the next write to it. -/
def swallowedWait (before : List Instruction) (wait : UInt8) (behind : List Instruction) :
    Program where
  config := { generation := .gfx11 }
  blocks := [Sample.block 0 {.topLevel} [] 0
    (Sample.exportOne 32 (.vgpr 0) :: before
      ++ ⟨.vInterpP10F32Inreg, [⟨.vgpr 2, 1⟩], [.vgpr 1, .vgpr 3, .vgpr 1].map Sample.one, .interp wait⟩
        :: behind ++ [Sample.vectorOp (.vgpr 0) [.vgpr 2], Sample.endProgram])]

/-- A loop that spills registers, in a program that uses many of them. -/
def spillLoop (waits last : List Instruction) : Program where
  config := { generation := .gfx11, numVgprs := 64 }
  blocks := [
    Sample.block 0 {.topLevel} [] 0
      [{ Sample.scalarLoad (.sgpr 4) (.sgpr 0) 0 with payload := .smem { storage := {.vgprSpill} } }],
    Sample.block 1 {.loopHeader} [0, 2] 1
      (waits ++ [Sample.scalarLoad (.sgpr 5) (.sgpr 0) 0,
        Sample.bufferStore (.vgpr 0) (.vgpr 1) { storage := {.vgprSpill} }]),
    Sample.block 2 ∅ [1] 1 [],
    Sample.block 3 {.loopExit} [2] 0
      (Sample.bufferStore (.vgpr 0) (.vgpr 1) :: last ++ [Sample.endProgram])]

/-- Four accesses of a clause, the last of which releases.  The arguments part them. -/
def partedClause (waits : List Instruction) : Program where
  config := { workgroupSize := 256 }
  blocks := [Sample.block 0 {.topLevel} [] 0
    (Sample.bufferLoad (.vgpr 5) (.vgpr 4) :: Sample.bufferStore (.vgpr 6) (.vgpr 1) :: waits
      ++ [addFlag [] {.atomic}, Sample.bufferStore (.vgpr 0) (.vgpr 1)
        { storage := {.buffer}, semantics := {.release}, scope := .device }, Sample.endProgram])]

/-- A load through an address that may be anywhere. -/
def flatLoad (dst : Reg) : Instruction where
  opcode := .flatLoadDword
  definitions := [⟨dst, 1⟩]
  operands := [Sample.many (.vgpr 4) 2, .undef]
  payload := .flat {}

/-- A loop that loads a register from a buffer and through an address in turn, inside a loop with another
load.  The arguments are waits in front of the three. -/
def flatLoops (outer buffer flat : List Instruction) : Program where
  blocks := [
    Sample.block 0 {.topLevel} [] 0
      [Sample.bufferLoad (.vgpr 0) (.vgpr 4), Sample.bufferLoad (.vgpr 30) (.vgpr 4)],
    Sample.block 1 {.loopHeader} [0, 4] 1 (outer ++ [Sample.vectorOp (.vgpr 7) [.vgpr 6]]),
    Sample.block 2 {.loopHeader} [1, 3] 2 (buffer ++ [Sample.bufferLoad (.vgpr 0) (.vgpr 4)]),
    Sample.block 3 ∅ [2] 2 (flat ++ [flatLoad (.vgpr 0)]),
    Sample.block 4 {.loopExit} [3] 1
      [Sample.bufferLoad (.vgpr 6) (.vgpr 4), Sample.bufferLoad (.vgpr 31) (.vgpr 4)],
    Sample.block 5 {.loopExit} [4] 0 [Sample.endProgram]]

/-- Loops that come behind two others whose exits the sweep skips, so that it takes those for open.  The
arguments are waits for a load of vector memory and for scalar loads. -/
def strayLoops (vector scalar : List Instruction) : Program where
  blocks := [
    Sample.block 0 {.topLevel} [] 0 [],
    Sample.block 1 {.loopHeader} [0, 1] 1 [],
    Sample.block 2 (.ofList [.loopExit, .discardEarlyExit]) [1] 0 [],
    Sample.block 3 {.loopHeader} [1, 3] 1 [],
    Sample.block 4 (.ofList [.loopExit, .discardEarlyExit]) [3] 0 [],
    Sample.block 5 {.loopHeader} [3, 14] 1 (vector ++ [Sample.vectorOp (.vgpr 21) [.vgpr 5]]),
    Sample.block 6 ∅ [5] 1
      (Sample.sharedLoad (.vgpr 9) (.vgpr 0) :: scalar ++ [Sample.vectorOp (.vgpr 20) [.sgpr 8]]),
    Sample.block 7 ∅ [5] 1 (scalar ++ [Sample.scalarLoad (.sgpr 8) (.sgpr 0) 0]),
    Sample.block 8 {.loopHeader} [5, 6, 7, 8] 2 [],
    Sample.block 9 {.loopHeader} [8, 9] 3 [],
    Sample.block 10 {.loopExit} [9] 2 [],
    Sample.block 11 {.loopExit} [10] 1 [],
    Sample.block 12 {.loopHeader} [11, 13] 2 [],
    Sample.block 13 ∅ [12] 2 [Sample.bufferLoad (.vgpr 5) (.vgpr 4)],
    Sample.block 14 {.loopExit} [12] 1 (scalar
      ++ [Sample.scalarLoad (.sgpr 8) (.sgpr 0) 0, Sample.sharedLoad (.vgpr 9) (.vgpr 0)]),
    Sample.block 15 {.loopExit} [14] 0 [Sample.endProgram]]

/-- Programs, each with what the pass makes of it and what it makes of that. -/
def restless : List (Program × Program × Program) :=
  let wait c n := [Instruction.ofWait (.single c n)]
  [(swallowedWait (wait .exp 0) 7 [], swallowedWait [] 0 [], swallowedWait [] 0 (wait .exp 0)),
    (spillLoop [] [], spillLoop (wait .lgkm 0) [],
      spillLoop (wait .lgkm 0) (wait .vs 1 ++ [.ofImmediate .sSendmsg Instruction.releaseMessage])),
    (partedClause [.ofWait .none], partedClause [], partedClause (wait .vm 0)),
    (flatLoops [] [] [], flatLoops (wait .vm 1) [] (wait .vm 0),
      flatLoops (wait .vm 1) (wait .vm 0) (wait .vm 0)),
    (strayLoops [] [], strayLoops [] (wait .lgkm 0), strayLoops (wait .vm 0) (wait .lgkm 0))]

/-- There are valid programs which the pass changes once more when it goes over them again. -/
theorem insertWaits_restless :
    (∀ x ∈ restless, x.1.validate = .ok ()
      ∧ (∀ b ∈ x.1.blocks, ∀ i ∈ b.instructions, i.isCoherent = true) ∧ x.2.2 ≠ x.2.1)
    ∧ ∀ x ∈ restless, (∃ outcome, x.1.insertWaits = .ok outcome ∧ outcome.program = x.2.1)
      ∧ ∃ again, x.2.1.insertWaits = .ok again ∧ again.program = x.2.2 := by
  have hrun : ∀ {p p' : Program}, (∃ w, p.solve false = .ok w ∧ p.withNodes w.nodes = p') →
      ∃ outcome, p.insertWaits = .ok outcome ∧ outcome.program = p' := by
    rintro p p' ⟨w, hw, hresult⟩
    exact ⟨_, insertWaits_of_solve hw, hresult⟩
  have hfixed : ∀ x ∈ restless, x.1.validate = .ok ()
      ∧ (∀ b ∈ x.1.blocks, ∀ i ∈ b.instructions, i.isCoherent = true) ∧ x.2.2 ≠ x.2.1 := by
    decide +kernel
  have hruns : ∀ x ∈ restless, (∃ w, x.1.solve false = .ok w ∧ x.1.withNodes w.nodes = x.2.1)
      ∧ ∃ w, x.2.1.solve false = .ok w ∧ x.2.1.withNodes w.nodes = x.2.2 := by
    simp only [restless, List.forall_mem_cons, List.not_mem_nil, false_imp_iff, implies_true, and_true]
    exact ⟨⟨exists_solve 10 (by decide +kernel), exists_solve 10 (by decide +kernel)⟩,
      ⟨exists_solve 40 (by decide +kernel), exists_solve 40 (by decide +kernel)⟩,
      ⟨exists_solve 10 (by decide +kernel), exists_solve 10 (by decide +kernel)⟩,
      ⟨exists_solve 40 (by decide +kernel), exists_solve 40 (by decide +kernel)⟩,
      exists_solve 80 (by decide +kernel), exists_solve 80 (by decide +kernel)⟩
  exact ⟨hfixed, fun x hx => ⟨hrun (hruns x hx).1, hrun (hruns x hx).2⟩⟩

end Program

end GpuWaits
