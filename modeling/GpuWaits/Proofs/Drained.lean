/-
# Draining before every instruction

With `drainAll` the pass waits, in front of every instruction that it keeps, until all counters that may
not be zero have fallen to zero.  Then nothing is in flight where an instruction issues, so it does
not matter which registers the instruction uses, nor which accesses the analysis follows for which
register.  All that the contexts have to be right about are the counters: the counter of an access in
flight may not be zero (`Counted`).

The counters that may not be zero come in along all edges, linear and logical ones.  So the checker finds
nothing in the rewritten program however much the two kinds of predecessors differ
(`Program.check_drained`).
-/
import GpuWaits.Proofs.Guard

namespace GpuWaits

/-- Runs of one view are runs of another one that allows as much. -/
lemma View.Runs.imp {s : Setting} {σ : Type} {V V' : View s σ}
    (hrun : ∀ e x x', V.Run e x x' → V'.Run e x x') {es : List Edit} {x x' : σ}
    (h : V.Runs es x x') : V'.Runs es x x' := by
  induction h with
  | nil x => exact .nil x
  | cons he _ ih => exact .cons (hrun _ _ _ he) ih

namespace Checker

variable {s : Setting} {c c' : Context} {p p' : Pending} {i : Instruction} {v w : Wait}

/-! ### The counters of what is in flight -/

/-- The counters of the accesses that are in flight once the wait has been carried out may not be
zero. -/
structure Counted (s : Setting) (c : Context) (p : Pending) (w : Wait) : Prop where
  bounded : p.Bounded s.generation
  nonzero : ∀ (k : AccessKey) (a : InFlight), (p.wait w)[k]? = some a → a.counter ∈ c.nonzero

/-- Nothing is in flight once the wait has been carried out. -/
structure Landed (s : Setting) (p : Pending) (w : Wait) : Prop where
  bounded : p.Bounded s.generation
  empty : ∀ k : AccessKey, (p.wait w)[k]? = none

lemma Counted.mono (hle : w ≤ v) (h : Counted s c p v) : Counted s c p w :=
  ⟨h.bounded, fun k a hk => h.nonzero k a (Pending.getElem?_wait_mono hle hk)⟩

lemma Landed.mono (hle : w ≤ v) (h : Landed s p v) : Landed s p w := by
  refine ⟨h.bounded, fun k => Option.eq_none_iff_forall_ne_some.2 fun a hk => ?_⟩
  have := Pending.getElem?_wait_mono hle hk
  rw [h.empty k] at this
  cases this

/-- A wait that drains all counters that may not be zero completes everything. -/
lemma Counted.landed (h : Counted s c p w) (hdrain : w ≤ .drain c.nonzero) : Landed s p w := by
  refine ⟨h.bounded, fun k => Option.eq_none_iff_forall_ne_some.2 fun a hk => ?_⟩
  refine (Pending.getElem?_wait.1 hk).2 (Context.completes_of_get_eq_zero ?_)
  have hle := hdrain a.counter
  rw [Wait.get_drain, if_pos (h.nonzero k a hk), UInt16.le_iff_toNat_le] at hle
  rw [← UInt16.toNat_inj]
  simpa using hle

lemma Counted.of_nonzero (h : Counted s c p w) (hc : c'.nonzero = c.nonzero) :
    Counted s c' p w :=
  ⟨h.bounded, fun k a hk => hc ▸ h.nonzero k a hk⟩

/-- A wait leaves no access of a counter that it drains. -/
lemma Counted.settle (h : Counted s c p w) (hsettle : c.settle s.generation w = .ok c') :
    Counted s c' p w := by
  refine ⟨h.bounded, fun k a hk => ?_⟩
  rw [(Context.settles_of_settle hsettle).nonzero]
  exact ⟨h.nonzero k a hk, fun hzero =>
    (Pending.getElem?_wait.1 hk).2 (Context.completes_of_get_eq_zero hzero)⟩

lemma Counted.issues {evs : List Event} {ordered : Event → Bool} (h : Counted s c p v)
    (hp : ∀ k : AccessKey, p'[k]? = p[k]?.map (·.issues s.generation k ordered evs)) :
    Counted s c p' v := by
  refine ⟨bounded_of_issues h.bounded hp, fun k a' hk => ?_⟩
  obtain ⟨a, ha, hag⟩ := getElem?_wait_issues h.bounded hp hk
  exact hag.counter ▸ h.nonzero k a ha

lemma Landed.issues {evs : List Event} {ordered : Event → Bool} (h : Landed s p v)
    (hp : ∀ k : AccessKey, p'[k]? = p[k]?.map (·.issues s.generation k ordered evs)) :
    Landed s p' v := by
  refine ⟨bounded_of_issues h.bounded hp,
    fun k => Option.eq_none_iff_forall_ne_some.2 fun a' hk => ?_⟩
  obtain ⟨a, ha, -⟩ := getElem?_wait_issues h.bounded hp hk
  rw [h.empty k] at ha
  cases ha

/-- Where an instruction issues, the counters of its accesses may not be zero from then on. -/
lemma Landed.start {place : Place} (hi : i.Workable) (h : Landed s p w)
    (hstart : c.start s i = .ok c') (hp' : startAccesses s (p.wait w) place i = .ok p') :
    Counted s c' p' .none := by
  obtain ⟨st, hst⟩ := Instruction.started_total hi s
  refine ⟨bounded_startAccesses (h.bounded.wait w) hp', fun k a hk => ?_⟩
  rw [Pending.wait_none, getElem?_startAccesses hp', h.empty k, Option.map_none, Option.or_none]
    at hk
  obtain ⟨⟨u, acc⟩, hx, rfl, rfl⟩ := newAmong_eq_some hk
  simp only [Instruction.leaves, hst, List.mem_flatMap, List.mem_map, Prod.mk.injEq] at hx
  obtain ⟨acc, hacc, u, -, rfl, rfl⟩ := hx
  have hfollowed := hi.followed hst hacc
  obtain ⟨d, hd, -⟩ := hfollowed.counted
  have hcounter : (newAccess s.generation i acc).counter = d := by simp [newAccess, hd]
  obtain ⟨sync, hissue⟩ : ∃ sync, .issue acc.event sync ∈ i.effects s := by
    have hraised := hfollowed.raised
    rw [← Instruction.issues_effects hst, Effect.issues, List.mem_filterMap] at hraised
    obtain ⟨e, he, hev⟩ := hraised
    cases e with
    | issue ev sync =>
      cases hev
      exact ⟨sync, he⟩
    | _ => cases hev
  rw [hcounter]
  exact (Context.nonzero_effects hstart).2 acc.event sync hissue d hd

/-- An instruction with nothing in flight in front of it is passed. -/
lemma passes_of_landed {kept : Instruction} (hi : i.Workable) (hwait : ∀ w, i.payload ≠ .wait w)
    (htakes : i.TakesOver kept) (h : Landed s p (ownWait kept)) (hstart : c.start s i = .ok c')
    (place : Place) : ∃ p', step s p place kept = .ok (p', []) ∧ Counted s c' p' .none := by
  obtain ⟨p', hp'⟩ := startAccesses_total (s := s) hi (p.wait (ownWait kept)) place
  have hwait' : ∀ w, kept.payload ≠ .wait w := by
    obtain ⟨-, -, -, hpay | ⟨n, m, -, hm, -⟩⟩ := htakes.eq_withPayload
    · rwa [hpay]
    · simp [hm]
  refine ⟨p', (step_eq_ok hwait').2
    ⟨checkRanges_of_workable _ (hi.takesOver htakes), htakes.startAccesses _ _ ▸ hp', ?_⟩,
    h.start hi hstart hp'⟩
  have huse : useFindings s.generation (p.wait (ownWait kept)) place kept = [] :=
    useFindings_eq_nil.2 fun k a hk => by
      rw [h.empty k] at hk
      cases hk
  rw [huse, exitFindings_eq_nil.2 h.empty]
  split <;> rfl

/-! ### The view of a walk that drains -/

/-- The checker as a view of the code that a walk puts out which drains before every instruction. -/
def drainedView (s : Setting) (hdrain : s.drainAll = true) (block : Nat) :
    View s (Nat × Pending) where
  Good i := i.Workable
  Run := (view s block).Run
  Rel c x w := Counted s c x.2 w
  Ready _ x w := Landed s x.2 w
  coherent hi := hi.coherent
  rel_mono hle h := h.mono hle
  ready_mono hle h := h.mono hle
  settle _ hsettle h := h.settle hsettle
  defer i h := h.of_nonzero (Context.deferBefore_frame _ s i).2.1
  ready _ h haw := by
    have hle := haw.drained
    rw [Context.drainBefore, if_pos (.inr hdrain)] at hle
    exact (h.mono haw.queued).landed hle
  take {i} x _ _ := ⟨x, rfl, fun c w h => h.of_nonzero (Context.deferBefore_frame c s i).2.1⟩
  putWait w x := by
    refine ⟨(x.1 + 1, x.2.wait w), ⟨rfl, step_of_wait rfl⟩, fun c v h => ?_, fun i v h => ?_⟩
    · exact ⟨h.bounded.wait w, by rw [Pending.wait_wait]; exact h.nonzero⟩
    · exact ⟨h.bounded.wait w, by rw [Pending.wait_wait]; exact h.empty⟩
  putOther x hi := by
    obtain ⟨p', hstep, hp'⟩ := passes_of_inserted hi x.2 (.code block x.1)
    exact ⟨(x.1 + 1, p'), ⟨rfl, hstep⟩, fun c v h => h.issues hp', fun j v h => h.issues hp'⟩
  keep {i kept c c' x} hi hdir htakes _ hlanded hstart := by
    have hwait : ∀ w, i.payload ≠ .wait w := fun w hp => by
      simp [Instruction.isDirective, Instruction.isWait, hp] at hdir
    obtain ⟨p', hstep, hcounted⟩ :=
      passes_of_landed hi hwait htakes hlanded hstart (.code block x.1)
    refine ⟨(x.1 + 1, p'), ⟨rfl, hstep⟩, hcounted.of_nonzero ?_⟩
    rw [Context.deferAfter]
    split
    · exact (Context.defer_frame c' s _ _ _).2.1
    · rfl

end Checker

/-- The checker finds nothing in a block that was rewritten with all counters drained. -/
theorem Block.stepBlock_drained {s : Setting} (hdrain : s.drainAll = true) {b b' : Block}
    {c c' : Context} {p : Pending} (h : b.insertWaits s c = .ok (b', c'))
    (hb : ∀ i ∈ b.instructions, i.Workable) (hp : Checker.Counted s c p .none) (block : Nat) :
    ∃ p', Checker.stepBlock s block b' p = .ok (p', []) ∧ Checker.Counted s c' p' .none := by
  obtain ⟨es, ⟨m, p'⟩, -, hafter, -, hruns, hrel, ⟨n, q⟩, v, hq, hcar, hend⟩ :=
    (Checker.drainedView s hdrain block).insertWaits (x := (0, p)) h hb hp
  have hrun : ∀ e x x', (Checker.drainedView s hdrain block).Run e x x' →
      (Checker.view s block).Run e x x' := fun _ _ _ hrun => hrun
  have hsteps := Checker.steps_of_runs (hruns.imp hrun)
  rw [hafter] at hsteps
  refine ⟨p', ?_, hrel⟩
  have hexit : (if .endWithRegs ∈ b'.kind then
      Checker.exitFindings p' (.code block b'.instructions.length) else []) = [] := by
    split
    · rename_i hkind
      rw [(Block.insertWaits_sameFrame h).kind] at hkind
      have hlanded := Checker.Counted.landed hq (hend hkind)
      rw [← Wait.both_none v] at hlanded
      have hleft := (hcar.ready (.ofWait .none) .none hlanded).empty
      rw [Pending.wait_none] at hleft
      exact Checker.exitFindings_eq_nil.2 hleft
    · rfl
  simp only [Checker.stepBlock, bind_eq_ok, pure_eq_ok, Prod.exists, Prod.mk.injEq]
  exact ⟨p', [], hsteps, rfl, hexit⟩

namespace Checker

/-! ### The contexts of a finished sweep -/

/-- The checker does not ask whether counters are drained before every instruction. -/
lemma steps_setting (config : Config) (drainAll : Bool) (block index : Nat)
    (is : List Instruction) (p : Pending) :
    steps { config, drainAll } block index is p = steps { config } block index is p := by
  induction is generalizing index p with
  | nil => rfl
  | cons i rest ih =>
    have hstep : step { config, drainAll } p (.code block index) i
        = step { config } p (.code block index) i := rfl
    simp only [steps, hstep, ih]

lemma stepBlock_setting (config : Config) (drainAll : Bool) (place : Nat) (b : Block)
    (p : Pending) : stepBlock { config, drainAll } place b p = stepBlock { config } place b p := by
  simp only [stepBlock, steps_setting config drainAll]

/-- All predecessors that accesses come from have an edge. -/
lemma exists_edge_of_sources {p : Program} {b : Block} {k : AccessKey} {pred : UInt32}
    (h : pred ∈ sources p b k) : ∃ edge : Context.Edge, (pred.toNat, edge) ∈ b.edges := by
  have hlinear : pred ∈ b.linearPreds → ∃ edge : Context.Edge, (pred.toNat, edge) ∈ b.edges :=
    fun hp => ⟨_, List.mem_append_left _ (List.mem_map.2 ⟨pred, hp, rfl⟩)⟩
  have hlogical : pred ∈ b.logicalPreds → ∃ edge : Context.Edge, (pred.toNat, edge) ∈ b.edges :=
    fun hp => ⟨_, List.mem_append_right _ (List.mem_map.2 ⟨pred, hp, rfl⟩)⟩
  rw [sources] at h
  split at h
  · rcases List.mem_append.1 h with h | h
    · exact hlogical h
    · split at h
      · exact hlinear (List.mem_filter.1 h).1
      · cases h
  · exact hlinear h

/-- A program in which a sweep that drains has come to its end, and the states from which the sweep and
the checker start. -/
structure Drained (p : Program) (start : Context) (q : Pending) (nodes : List Node) : Prop where
  valid : p.Valid
  settled : Settled { config := p.config, drainAll := true } p start
    (·.Sound p.config.generation) (fun _ b => ∀ i ∈ b.instructions, i.Workable) nodes
  starts : ∀ (k : AccessKey) (a : InFlight), q[k]? = some a → a.counter ∈ start.nonzero
  kindly : Kindly (p.withNodes nodes) q

/-- The counters of what is in flight at the ends of the blocks may not be zero there. -/
structure CountedAll (p : Program) (nodes : List Node) (flows : List Flow) : Prop where
  length : flows.length = p.blocks.length
  kindly : KindlyAll (p.withNodes nodes) flows
  nonzero : ∀ (n : Nat) (node : Node), nodes[n]? = some node → ∀ (k : AccessKey) (a : InFlight),
    exitAt flows k n = some a → a.counter ∈ node.exit.nonzero

variable {p : Program} {start : Context} {q : Pending} {nodes : List Node} {flows : List Flow}
  {n : Nat} {b : Block}

/-- The context in which a block was rewritten last knows the counters of all that comes in. -/
lemma CountedAll.entry (h : Drained p start q nodes) (hf : CountedAll p nodes flows)
    {node : Node} (hframe : b.SameFrame node.block) {b₀ : Block} {c₀ : Context}
    (hr : Rewritten { config := p.config, drainAll := true } p start (·.Sound p.config.generation)
      (fun _ b => ∀ i ∈ b.instructions, i.Workable) nodes n b node b₀ c₀)
    {x : Pending} (hx : blockEntry (p.withNodes nodes) flows q n node.block = .ok x) :
    Counted { config := p.config, drainAll := true } c₀ x .none := by
  have hkind := hf.kindly.blockEntry h.kindly hx
  refine ⟨fun k a hk => (hkind k a hk).2, fun k a hk => ?_⟩
  rw [Pending.wait_none] at hk
  have hka := hkind k
  have hent := (entered_of_blockEntry hx k).attained
  rw [hk] at hka hent
  rcases hent with hfirst | ⟨pred, hpred, hrank⟩
  · -- The access comes in with the start of the program.
    obtain ⟨o, ho, hlike, -⟩ := exists_of_rank_eq hka (h.kindly.firstAt n k) hfirst
    rw [firstAt] at ho
    split at ho
    · rename_i hn
      rw [hr.first hn, hlike.counter]
      exact h.starts k o ho
    · cases ho
  · obtain ⟨o, ho, hlike, -⟩ := exists_of_rank_eq hka (hf.kindly k pred.toNat) hrank
    obtain ⟨edge, hedge⟩ := exists_edge_of_sources hpred
    rw [hframe.edges] at hedge
    obtain ⟨other, hother, habs⟩ := hr.absorbs _ hedge
    rw [hlike.counter]
    exact Flags.mem_of_lacks_eq_false habs.nonzero (hf.nonzero _ other hother k o ho)

/-- Going through one block finds nothing, and the counters stay known. -/
lemma CountedAll.flowBlock (h : Drained p start q nodes) (hf : CountedAll p nodes flows)
    (hb : (p.withNodes nodes).blocks[n]? = some b) (hkind : .discardEarlyExit ∉ b.kind) :
    ∃ entry exit, blockEntry (p.withNodes nodes) flows q n b = .ok entry
      ∧ stepBlock (setting p) n b entry = .ok (exit, [])
      ∧ CountedAll p nodes (flows.set n { entry, exit }) := by
  obtain ⟨b₁, node, hb₁, hnode, rfl⟩ : ∃ b₁ node, p.blocks[n]? = some b₁ ∧ nodes[n]? = some node
      ∧ node.block = b := by
    simp only [Program.withNodes, List.getElem?_map, Option.map_eq_some_iff] at hb
    obtain ⟨node, hn, rfl⟩ := hb
    have hlt : n < p.blocks.length := h.settled.length ▸ (List.getElem?_eq_some_iff.1 hn).1
    exact ⟨p.blocks[n], node, List.getElem?_eq_getElem hlt, hn, rfl⟩
  have hframe := h.settled.frame n b₁ node hb₁ hnode
  obtain ⟨b₀, c₀, hr⟩ := h.settled.rewritten n b₁ node hb₁ hnode (hframe.kind ▸ hkind)
  obtain ⟨x, hx⟩ : ∃ x, blockEntry (p.withNodes nodes) flows q n node.block = .ok x := by
    refine blockEntry_total ?_ q n
    rw [hframe.linearPreds, hframe.logicalPreds, hf.length]
    exact (h.valid.placed n b₁ hb₁).pred_lt
  obtain ⟨x', hstep, hcounted⟩ :=
    Block.stepBlock_drained rfl hr.result hr.block (hf.entry h hframe hr hx) n
  rw [stepBlock_setting] at hstep
  have hflow : Checker.flowBlock (p.withNodes nodes) q flows n node.block
      = .ok (flows.set n { entry := x, exit := x' }) :=
    bind_eq_ok.2 ⟨x, hx, bind_eq_ok.2 ⟨(x', []), hstep, rfl⟩⟩
  refine ⟨x, x', hx, hstep, (List.length_set ..).trans hf.length,
    hf.kindly.flowBlock h.kindly hb hflow, fun m other hother k a hka => ?_⟩
  rw [exitAt_set] at hka
  split at hka
  · rename_i heq
    rw [heq.1, hnode] at hother
    cases hother
    exact hcounted.nonzero k a (by rw [Pending.wait_none]; exact hka)
  · exact hf.nonzero m other hother k a hka

lemma countedAll_empty (h : Drained p start q nodes) :
    CountedAll p nodes ((p.withNodes nodes).blocks.map fun _ => {}) := by
  refine ⟨by simp [Program.withNodes, h.settled.length], kindlyAll_empty _,
    fun n node _ k a hk => ?_⟩
  rw [exitAt_empty] at hk
  cases hk

/-- The checker finds nothing in the blocks of a sweep that drains. -/
lemma Drained.check (h : Drained p start q nodes) (hq : startState p = .ok q) :
    (p.withNodes nodes).check = .ok [] :=
  check_eq_nil (CountedAll p nodes) hq (countedAll_empty h) fun hf hb hkind =>
    hf.flowBlock h hb hkind

end Checker

/-! ### The result -/

namespace Program

/-- Draining all counters before every instruction is always enough: the sweep comes to its end, and the
checker finds nothing in the rewritten program, whatever waits the program had and however its linear
and logical predecessors differ. -/
theorem check_drained {p : Program} (h : p.Guarded) (hloops : p.LoopsNest) :
    ∃ w, p.solve true = .ok w ∧ (p.withNodes w.nodes).check = .ok [] := by
  have hv := valid_of_validate h.valid
  obtain ⟨start, hstart, hsound⟩ := startContext_total (s := Checker.setting p) hv
  obtain ⟨w, hw, -⟩ := h.solve_total true
  obtain ⟨q, hq, hstarts⟩ := Checker.startState_total hv hstart
  have hstarts' : p.StartsIn { config := p.config, drainAll := true } start := fun _ => hstart
  have hkeeps : Sweep.Keeps { config := p.config, drainAll := true } p start
      (·.Sound p.config.generation) (fun _ b => ∀ i ∈ b.instructions, i.Workable) :=
    { empty := Context.sound_empty _
      start := hsound
      join := fun edge hc ho => hc.join ho edge
      original := fun hb => h.workable (List.mem_of_getElem? hb)
      rewrite := fun hb hc hr =>
        ⟨Block.workable_insertWaits hr hb, Block.insertWaits_sound hr hc⟩ }
  have hdrained : Checker.Drained p start q w.nodes :=
    { valid := hv
      settled := settled_of_solve rfl hv hloops hstarts' hkeeps hw
      starts := fun k a hk => by
        obtain ⟨e, -, hfollows⟩ := hstarts.covers k a hk
        exact hfollows.nonzero
      kindly := Checker.kindly_startState hq }
  exact ⟨w, hw, hdrained.check hq⟩

/-- A loop with a wait of its own around a load that may go to shared memory into two results.  The lanes
leave the loop for a block that the code does not come to from there, and the last block leaves the
program with what is in flight. -/
def crossedLoads : Program where
  config := { generation := .gfx9 }
  pendingVmem := [⟨.vgpr 6, 1⟩]
  blocks := [
    { index := 0, kind := {.topLevel}
      instructions := [
        ⟨.flatLoadDword, [⟨.vgpr 2, 1⟩, ⟨.vgpr 3, 1⟩], [.reg ⟨.vgpr 0, 2⟩],
          .flat { mayUseLds := true }⟩] },
    { index := 1, kind := {.loopHeader}, linearPreds := [0, 2], logicalPreds := [0], loopDepth := 1
      instructions := [
        ⟨.vAddF32, [⟨.vgpr 3, 1⟩], [.reg ⟨.vgpr 2, 1⟩, .reg ⟨.vgpr 6, 1⟩], .valu⟩,
        .ofWait (.single .vm 1)] },
    { index := 2, linearPreds := [1], logicalPreds := [0, 1], loopDepth := 1
      instructions := [
        Sample.bufferLoad (.vgpr 2) (.vgpr 4),
        ⟨.sLoadDword, [⟨.sgpr 4, 1⟩, ⟨.sgpr 5, 1⟩], [.reg ⟨.sgpr 8, 2⟩], .smem {}⟩] },
    { index := 3, kind := .ofList [.loopExit, .endWithRegs], linearPreds := [1], logicalPreds := [2]
      instructions := [
        ⟨.vMovB32, [⟨.vgpr 2, 1⟩], [.reg ⟨.sgpr 5, 1⟩], .valu⟩,
        Sample.bufferLoad (.vgpr 7) (.vgpr 4)] }]

lemma guarded_crossedLoads : crossedLoads.Guarded where
  valid := by decide +kernel
  coherent := by decide +kernel
  narrow := by decide +kernel
  returned := by decide +kernel
  entered := by decide +kernel

theorem check_drained_crossedLoads : crossedLoads.Guarded ∧ crossedLoads.LoopsNest
    ∧ ∃ w, crossedLoads.solve true = .ok w ∧ (crossedLoads.withNodes w.nodes).check = .ok [] := by
  have hloops : crossedLoads.LoopsNest := by decide +kernel
  exact ⟨guarded_crossedLoads, hloops, check_drained guarded_crossedLoads hloops⟩

end Program

end GpuWaits
