/-
# Scalar loads are waited for

A scalar load completes in no order with others, so that only a full drain of its counter tells when its
result is there.  This file follows one load along the paths of the rewritten program: between the load
of a scalar unit and any later instruction that reads the unit stands such a drain
(`Program.load_completes`).  This holds for loads in all blocks, those that no lane enters included.

The load is followed through the entry of its unit, and so the path may only take edges along which
entries are handed on (`Program.HandsOn`).  Where divergent paths merge, these are the edges from logical
predecessors alone.  What was loaded in a block without lanes is lost on the way into a merge, although
scalar registers are shared by all paths: `Program.load_lost_divergence` is a read of a register that is
still being loaded.
-/
import GpuWaits.Proofs.Ordered

namespace GpuWaits

/-- The counter of scalar loads. -/
def Generation.scalarCounter (g : Generation) : Counter := if .gfx12 ≤ g then .km else .lgkm

lemma Generation.counter?_smem (g : Generation) : g.counter? .smem = some g.scalarCounter := by
  cases g <;> rfl

lemma Generation.scalarCounter_ne_exp (g : Generation) : g.scalarCounter ≠ .exp := by
  cases g <;> decide

namespace Wait

lemma get_eq_zero_of_le {v w : Wait} {n : Counter} (hle : v ≤ w) (h : w.get n = 0) : v.get n = 0 := by
  have := UInt16.le_iff_toNat_le.1 (hle n)
  rw [h] at this
  exact UInt16.toNat_inj.1 (Nat.le_zero.1 this)

end Wait

/-! ### Loads and reads -/

namespace Instruction

variable {i kept : Instruction} {u : Reg} {s : Setting}

/-- The instruction is a scalar load, and the unit is a part of its result. -/
def Loads (i : Instruction) (u : Reg) : Prop :=
  (∃ sync, i.payload = .smem sync) ∧ ∃ d, i.definitions = [d] ∧ u ∈ d.units

/-- The instruction reads the unit. -/
def Reads (i : Instruction) (u : Reg) : Prop := ∃ op ∈ i.operands, u ∈ op.units

/-- The instruction waits until nothing is outstanding on the counter. -/
def Drains (i : Instruction) (n : Counter) : Prop := ∃ v, i = .ofWait v ∧ v.get n = 0

lemma TakesOver.loads_iff (h : i.TakesOver kept) : kept.Loads u ↔ i.Loads u := by
  rcases h with rfl | ⟨n, m, hn, -, rfl⟩
  · exact Iff.rfl
  · simp [Loads, hn]

lemma TakesOver.reads_iff (h : i.TakesOver kept) : kept.Reads u ↔ i.Reads u := by
  rw [Reads, Reads, h.eq_withPayload.2.2.1]

lemma Loads.not_isInserted (h : i.Loads u) : ¬i.IsInserted s := by
  obtain ⟨⟨sync, hp⟩, -⟩ := h
  rintro (⟨w, rfl⟩ | ⟨w, rfl⟩ | ⟨-, rfl⟩) <;> cases hp

lemma Reads.not_isInserted (h : i.Reads u) : ¬i.IsInserted s := by
  obtain ⟨op, hop, -⟩ := h
  rintro (⟨w, rfl⟩ | ⟨w, rfl⟩ | ⟨-, rfl⟩) <;> cases hop

/-- The waits that instructions carry out on their own do not concern scalar loads. -/
lemma get_ownWait_ne_zero (hdir : i.isDirective s = false) (htakes : i.TakesOver kept) :
    (Checker.ownWait kept).get s.generation.scalarCounter ≠ 0 := by
  have hunset : Wait.unset ≠ 0 := by decide
  have hown : Checker.ownWait kept = .none ∨ ∃ n, Checker.ownWait kept = .single .exp n := by
    obtain ⟨-, -, -, hp | ⟨n, m, -, hm, -⟩⟩ := htakes.eq_withPayload
    · rw [Checker.ownWait, hp]
      cases hi : i.payload with
      | wait w => simp [isDirective, isWait, hi] at hdir
      | interp n => exact .inr ⟨_, rfl⟩
      | _ => exact .inl rfl
    · rw [Checker.ownWait, hm]
      exact .inr ⟨_, rfl⟩
  rcases hown with h | ⟨n, h⟩
  · rwa [h, Wait.get_none]
  · rwa [h, Wait.single, Wait.get_set, if_neg s.generation.scalarCounter_ne_exp, Wait.get_none]

end Instruction

/-! ### The entry of a unit that is being loaded -/

/-- Some access of the entry is a scalar load, counted by `n`. -/
structure Entry.Loading (e : Entry) (n : Counter) : Prop where
  event : .smem ∈ e.events
  target : e.wait.get n = 0
  write : e.blocksReads = true

namespace Entry

variable {g : Generation} {n : Counter} {e o : Entry}

lemma Loading.of_grows (h : o.Loading n) (hg : e.grows o = false) : e.Loading n := by
  obtain ⟨hevents, -, hblocks, -, -, hwait⟩ := grows_eq_false_iff.1 hg
  exact ⟨Flags.mem_of_lacks_eq_false hevents h.event, Wait.get_eq_zero_of_le hwait h.target,
    hblocks h.write⟩

lemma Loading.addLanes (h : e.Loading n) (lanes : EventSet) : (e.addLanes lanes).Loading n :=
  ⟨h.event, h.target, h.write⟩

/-- Nothing is known about the order of scalar loads, so that no event moves them. -/
lemma Loading.age (h : e.Loading n) (ev : Event) : (e.age g ev).Loading n := by
  rwa [Entry.age, if_pos (EventSet.isUnordered_iff.2 h.event)]

lemma loading_startedEntry (g : Generation) (types : VmemTypeSet) (halves : HalfSet) :
    (Context.startedEntry g .smem true types halves).Loading g.scalarCounter where
  event := EventSet.mem_singleton.2 rfl
  target := by
    have hmem : g.scalarCounter ∈ g.countersOf {.smem} :=
      Generation.mem_countersOf_singleton.2 g.counter?_smem
    simp [Context.startedEntry, ofEvent, Wait.get_drain, hmem]
  write := rfl

/-- A wait that does not drain the counter leaves the load where it is. -/
lemma Loading.settle (h : e.Loading g.scalarCounter) {w : Wait} (hw : w.get g.scalarCounter ≠ 0) :
    (e.settle g w).Loading g.scalarCounter := by
  have hmeets : ¬w.Meets e.wait g.scalarCounter := by
    rintro ⟨-, hle⟩
    rw [h.target, UInt16.le_iff_toNat_le] at hle
    exact hw (UInt16.toNat_inj.1 (Nat.le_zero.1 hle))
  obtain ⟨hget, hev⟩ := settle_keeps (g := g) hmeets
  exact ⟨(hev _ g.counter?_smem h.event).1, hget.trans h.target, by rw [blocksReads_settle, h.write]⟩

end Entry

namespace Context

variable {s : Setting} {c c' : Context} {i : Instruction} {u : Reg} {n : Counter} {w : Wait}

/-- The unit is being loaded. -/
def LoadingAt (c : Context) (u : Reg) (n : Counter) : Prop :=
  ∃ e : Entry, c.regs[u]? = some e ∧ e.Loading n

lemma LoadingAt.settle {g : Generation} (hc : c.Sound g) (hs : c.settle g w = .ok c')
    (h : c.LoadingAt u g.scalarCounter) (hw : w.get g.scalarCounter ≠ 0) :
    c'.LoadingAt u g.scalarCounter := by
  obtain ⟨e, he, hload⟩ := h
  have hload' := hload.settle hw
  refine ⟨e.settle g w, (settles_of_settle hs).entry u e he ?_, hload'⟩
  rw [show (e.settle g w).counters = g.countersOf (e.settle g w).events from
    Entry.counters_foldl_forget _ (hc.entry u e he).counters]
  exact Flags.isEmpty_eq_false_of_mem (Generation.mem_countersOf.2 ⟨_, hload'.event, g.counter?_smem⟩)

lemma LoadingAt.apply (h : c.LoadingAt u n) {effect : Effect} (ha : c.apply s i effect = .ok c') :
    c'.LoadingAt u n := by
  obtain ⟨e, he, hload⟩ := h
  cases effect with
  | issue ev sync =>
    rw [LoadingAt, (issued_of_issue ha).entry, he]
    split
    · exact ⟨e, rfl, hload⟩
    · exact ⟨_, rfl, hload.age ev⟩
  | track range ev blocksReads types halves =>
    obtain ⟨-, rfl⟩ := track_eq_ok.1 ha
    exact exists_trackUnits
      (fun j => startedEntry s.generation ev blocksReads types (HalfSet.ofWord halves j))
      (fun j hold => (hold.of_grows (Entry.join_grows_left _ _)).addLanes _) range.units.zipIdx
      ⟨e, he, hload⟩
  | flat =>
    cases ha
    exact ⟨e, he, hload⟩
  | fail fault => cases ha

lemma LoadingAt.start (h : c.LoadingAt u n) (hs : c.start s i = .ok c') : c'.LoadingAt u n :=
  foldlM_invariant (·.LoadingAt u n) (fun _ _ _ _ hc ha => hc.apply ha) h hs

/-- A load that has started is outstanding. -/
lemma loadingAt_of_start (hi : i.Loads u) (hs : c.start s i = .ok c') :
    c'.LoadingAt u s.generation.scalarCounter := by
  obtain ⟨⟨sync, hp⟩, d, hd, hu⟩ := hi
  obtain ⟨j, hj⟩ := List.mem_iff_getElem?.1 hu
  simp only [Context.start, Instruction.effects, hp, hd, List.take_succ_cons, List.take_zero,
    List.map_cons, List.map_nil, List.foldlM_cons, List.foldlM_nil, bind_eq_ok, pure_eq_ok] at hs
  obtain ⟨c₁, -, c₂, htrack, rfl⟩ := hs
  obtain ⟨-, rfl⟩ := track_eq_ok.1 htrack
  have hnew := fun j => Entry.loading_startedEntry s.generation ∅ (HalfSet.ofWord 0#32 j)
  exact exists_trackUnits_of_mem
    (fun j => startedEntry s.generation .smem true ∅ (HalfSet.ofWord 0#32 j)) hnew
    (fun old j => ((hnew j).of_grows (Entry.join_grows_right old _)).addLanes _)
    (List.mem_zipIdx_iff_getElem?.2 hj) c₁.regs

/-- An instruction that reads a scalar unit waits for its load. -/
lemma LoadingAt.get_hazardWait (h : c.LoadingAt u n) (hu : u.isVector = false) (hi : i.Reads u)
    (hw : c.hazardWait s i = .ok w) : w.get n = 0 := by
  obtain ⟨e, he, hload⟩ := h
  obtain ⟨op, hop, hop'⟩ := hi
  refine Wait.get_eq_zero_of_le ((hazardWait_le hw).1 op hop u hop') ?_
  simp [readWait, he, hload.write, Entry.waitFor, hu, hload.target]

end Context

/-! ### Following the loads of a unit -/

namespace Context

variable {s : Setting} {c c' : Context} {u : Reg} {x : Prop} {v w : Wait}

/-- If a load of the unit is outstanding, which `x` says, then the wait completes it or its entry shows
it. -/
structure Heeds (c : Context) (s : Setting) (u : Reg) (x : Prop) (w : Wait) : Prop where
  sound : c.Sound s.generation
  loading : x → w.get s.generation.scalarCounter ≠ 0 → c.LoadingAt u s.generation.scalarCounter

lemma Heeds.of_regs (h : c.Heeds s u x w) (hc' : c'.Sound s.generation) (hregs : c'.regs = c.regs) :
    c'.Heeds s u x w := by
  refine ⟨hc', fun hx hw => ?_⟩
  rw [LoadingAt, hregs]
  exact h.loading hx hw

lemma Heeds.deferBefore (h : c.Heeds s u x w) (i : Instruction) : (c.deferBefore s i).Heeds s u x w :=
  h.of_regs (h.sound.deferBefore s i) (deferBefore_frame c s i).1

lemma Heeds.mono (h : c.Heeds s u x v) (hle : w ≤ v) : c.Heeds s u x w :=
  ⟨h.sound, fun hx hw => h.loading hx fun hv => hw (Wait.get_eq_zero_of_le hle hv)⟩

/-- A context that has absorbed the entries of another one heeds what that one heeds. -/
lemma Heeds.absorbs {edge : Edge} (h : c.Heeds s u x .none) (hc' : c'.Sound s.generation)
    (habs : c'.Absorbs c edge) (hcarries : edge.carriesEntries = true) : c'.Heeds s u x .none := by
  refine ⟨hc', fun hx hw => ?_⟩
  obtain ⟨e, he, hload⟩ := h.loading hx hw
  obtain ⟨e', he', hgrows⟩ := habs.entries hcarries u e he
  exact ⟨e', he', hload.of_grows hgrows⟩

/-- Issuing an instruction that waits for nothing on its own. -/
lemma Heeds.start {i : Instruction} (h : c.Heeds s u x w) (hw : w.get s.generation.scalarCounter ≠ 0)
    (hs : c.start s i = .ok c') : (c'.deferAfter s i).Heeds s u (x ∨ i.Loads u) .none := by
  have hc' := h.sound.start hs
  have hregs : (c'.deferAfter s i).regs = c'.regs := by
    rw [deferAfter]
    split
    · exact (defer_frame c' s i.sync _ _).1
    · rfl
  have hheeds : c'.Heeds s u (x ∨ i.Loads u) .none := by
    refine ⟨hc', ?_⟩
    rintro (hx | hi) -
    · exact (h.loading hx hw).start hs
    · exact loadingAt_of_start hi hs
  exact hheeds.of_regs (hc'.deferAfter s i) hregs

/-- Whether a load of the scalar unit is outstanding, as a view of the code that a walk puts out. -/
def loadView (s : Setting) (u : Reg) (hu : u.isVector = false) : View s Prop where
  Good i := i.isCoherent = true
  Run
    | .put i, x, x' => x' = (x ∧ ¬i.Drains s.generation.scalarCounter)
    | .take _, x, x' => x' = x
    | .keep _ kept, x, x' => (kept.Reads u → ¬x) ∧ x' = (x ∨ kept.Loads u)
  Rel c x w := c.Heeds s u x w
  Ready i x w := i.Reads u → x → w.get s.generation.scalarCounter = 0
  coherent hi := hi
  rel_mono hle h := h.mono hle
  ready_mono hle h hi hx := Wait.get_eq_zero_of_le hle (h hi hx)
  settle _ hs h := ⟨h.sound.settle hs, fun hx hw => (h.loading hx hw).settle h.sound hs hw⟩
  defer i h := h.deferBefore i
  ready {i c c' x q q'} _ h haw hi hx := by
    by_cases hq : q.wait.get s.generation.scalarCounter = 0
    · exact Wait.get_eq_zero_of_le haw.queued hq
    · obtain ⟨w, hw, hle⟩ := haw.hazard
      exact Wait.get_eq_zero_of_le hle ((h.loading hx hq).get_hazardWait hu hi hw)
  take x _ _ := ⟨x, rfl, fun c w h => h.deferBefore _⟩
  putWait w x := by
    -- What the wait has completed need not be waited for any more.
    have hleft : ∀ {v : Wait}, (w.both v).get s.generation.scalarCounter = 0 →
        ¬(Instruction.ofWait w).Drains s.generation.scalarCounter →
          v.get s.generation.scalarCounter = 0 := by
      intro v hboth hno
      have hw : (w.get s.generation.scalarCounter).toNat ≠ 0 := fun h0 =>
        hno ⟨w, rfl, UInt16.toNat_inj.1 h0⟩
      rw [Wait.get_both, ← UInt16.toNat_inj, Wait.toNat_min, UInt16.toNat_zero] at hboth
      rw [← UInt16.toNat_inj, UInt16.toNat_zero]
      omega
    refine ⟨_, rfl, fun c v h => ⟨h.sound, fun hx hv => h.loading hx.1 fun hboth => ?_⟩,
      fun i v h hi hx => hleft (h hi hx.1) hx.2⟩
    exact hv (hleft hboth hx.2)
  putOther {i} x hi := by
    have hno : ¬i.Drains s.generation.scalarCounter := by
      rintro ⟨v, hv, -⟩
      rcases hi with ⟨w, rfl⟩ | ⟨-, rfl⟩ <;> cases hv
    exact ⟨_, rfl, fun c v h => ⟨h.sound, fun hx hv => h.loading hx.1 hv⟩,
      fun j v h hj hx => h hj hx.1⟩
  keep {i kept c c' x} _ hdir htakes h hready hstart := by
    have hown := Instruction.get_ownWait_ne_zero hdir htakes
    refine ⟨_, ⟨fun hreads hx => hown (hready (htakes.reads_iff.1 hreads) hx), rfl⟩, ?_⟩
    rw [htakes.loads_iff]
    exact h.start hown hstart

/-- A load that is not outstanding any more has been waited for. -/
lemma drains_of_runs {hu : u.isVector = false} {es : List Edit} {x' : Prop}
    (h : (loadView s u hu).Runs es x x') (hx : x) (hx' : ¬x') :
    ∃ i ∈ es.flatMap Edit.after, i.Drains s.generation.scalarCounter := by
  induction h with
  | nil => exact absurd hx hx'
  | @cons e es x x₁ x' he _ ih =>
    rw [List.flatMap_cons]
    cases e with
    | put i =>
      by_cases hi : i.Drains s.generation.scalarCounter
      · exact ⟨i, List.mem_append_left _ (by simp [Edit.after]), hi⟩
      · obtain ⟨j, hj, hdrains⟩ := ih (he.mpr ⟨hx, hi⟩) hx'
        exact ⟨j, List.mem_append_right _ hj, hdrains⟩
    | take i => exact ih (he.mpr hx) hx'
    | keep i kept =>
      obtain ⟨j, hj, hdrains⟩ := ih (he.2.mpr (.inl hx)) hx'
      exact ⟨j, List.mem_append_right _ hj, hdrains⟩

/-- Behind a load, its counter is drained before the unit is read. -/
lemma exists_drains {hu : u.isVector = false} {es : List Edit} {x' : Prop}
    (h : (loadView s u hu).Runs es x x') (hx : x) (hlegal : ∀ e ∈ es, e.Legal s)
    {mid rest : List Instruction} {y : Instruction} (hcode : es.flatMap Edit.after = mid ++ y :: rest)
    (hy : y.Reads u) : ∃ i ∈ mid, i.Drains s.generation.scalarCounter := by
  obtain ⟨between, e, behind, rfl, hey, rfl, -⟩ := Edit.exists_cut Edit.length_after hcode
  obtain ⟨j, rfl⟩ := Edit.keep_of_after (hlegal e (by simp)) hey hy.not_isInserted
  obtain ⟨x₁, hbetween, h⟩ := View.runs_append_iff.1 h
  obtain ⟨x₂, hread, -⟩ := View.runs_cons_iff.1 h
  exact drains_of_runs hbetween hx (hread.1 hy)

end Context

/-! ### Loads along the paths of a program -/

namespace Program

variable {p : Program} {drainAll : Bool} {w : Sweep} {es : Nat → List Edit} {m n : Nat} {u : Reg}

/-- What the entries show at the end of the block at the place `m` comes into the one at `n`: no divergent
paths merge there, or they do and `m` is a logical predecessor. -/
def HandsOn (p : Program) (m n : Nat) : Prop :=
  ∃ b, p.blocks[n]? = some b ∧ (b.mergesLanes = false ∨ ∃ pred ∈ b.logicalPreds, pred.toNat = m)

lemma HandsOn.exists_edge (h : p.HandsOn m n) {b : Block} (hb : p.blocks[n]? = some b)
    (hpred : ∃ pred ∈ b.linearPreds, pred.toNat = m) :
    ∃ edge, (m, edge) ∈ b.edges ∧ edge.carriesEntries = true := by
  obtain ⟨b', hb', hcases⟩ := h
  cases hb.symm.trans hb'
  cases hmerge : b.mergesLanes with
  | false =>
    obtain ⟨pred, hpred, rfl⟩ := hpred
    refine ⟨⟨false, false⟩, List.mem_append_left _ (List.mem_map.2 ⟨pred, hpred, ?_⟩), rfl⟩
    rw [hmerge]
  | true =>
    obtain ⟨pred, hlogical, rfl⟩ := hcases.resolve_left (by simp [hmerge])
    refine ⟨⟨true, true⟩, List.mem_append_right _ (List.mem_map.2 ⟨pred, hlogical, ?_⟩), rfl⟩
    rw [hmerge]

section

variable {s : Setting} {start : Context} {Q : Nat → Block → Prop} {nodes : List Node}
  {hu : u.isVector = false} {later earlier : List Nat}

/-- From the end of a block on, along edges that hand entries on, the contexts at the ends of the blocks
heed what is outstanding. -/
lemma heeds_along (hset : Settled s p start (·.Sound s.generation) Q nodes)
    (hes : ∀ n, EditsOf (Context.loadView s u hu) p start (·.Sound s.generation) Q nodes n (es n))
    {node : Node} (hnode : nodes[n]? = some node) {x : Prop} (hx : node.exit.Heeds s u x .none)
    (hpath : (p.withNodes nodes).Path (later ++ n :: earlier))
    (hedges : (later ++ [n]).IsChain fun k m => p.HandsOn m k) :
    ∃ x' last, (later ++ [n]).head?.bind (nodes[·]?) = some last
      ∧ (Context.loadView s u hu).Runs (editsAlong es later) x x' ∧ last.exit.Heeds s u x' .none := by
  induction later with
  | nil => exact ⟨x, node, hnode, .nil x, hx⟩
  | cons k later ih =>
    obtain ⟨m, rest, hrest⟩ : ∃ m rest, later ++ [n] = m :: rest :=
      List.exists_cons_of_ne_nil (by simp)
    have hsplit : later ++ n :: earlier = m :: (rest ++ earlier) := by
      rw [← List.singleton_append, ← List.append_assoc, hrest, List.cons_append]
    rw [hrest, hsplit] at ih
    rw [List.cons_append, hrest] at hedges
    rw [List.cons_append, hsplit] at hpath
    obtain ⟨hhands, hedges⟩ := List.isChain_cons_cons.1 hedges
    cases hpath with
    | next hpath hnext =>
      obtain ⟨x₁, pred, hpred, hruns, hheeds⟩ := ih hpath hedges
      obtain ⟨b', hb', hkind, hlinear⟩ := hnext
      obtain ⟨b, last, hb, hlast, rfl, hframe⟩ := hset.block_at hb'
      obtain ⟨b₀, c₀, hr, -, -, hblock⟩ := (hes k).rewritten b last hb hlast (hframe.kind ▸ hkind)
      rw [hframe.linearPreds] at hlinear
      obtain ⟨edge, hedge, hcarries⟩ := hhands.exists_edge hb hlinear
      obtain ⟨pred', hpred', habs⟩ := hr.absorbs _ hedge
      cases hpred.symm.trans hpred'
      obtain ⟨x', hruns', hheeds'⟩ := hblock x₁ (hheeds.absorbs hr.context habs hcarries)
      exact ⟨x', last, hlast, hruns.append hruns', hheeds'⟩

end

/-- Between a scalar load `x` and an instruction `y` that reads a unit of its result, on a path that hands
entries on from the block of the load on, stands a full wait for the counter of scalar loads. -/
theorem load_completes (hvalid : p.validate = .ok ())
    (hcoherent : ∀ b ∈ p.blocks, ∀ i ∈ b.instructions, i.isCoherent = true) (hloops : p.LoopsNest)
    (h : p.solve drainAll = .ok w) {later earlier : List Nat}
    (hpath : (p.withNodes w.nodes).Path (later ++ n :: earlier))
    (hedges : (later ++ [n]).IsChain fun k m => p.HandsOn m k) {b : Block}
    (hb : (p.withNodes w.nodes).blocks[n]? = some b) {pre mid post rest : List Instruction}
    {x y : Instruction} (hcode : b.instructions = pre ++ x :: post)
    (htrace : post ++ (p.withNodes w.nodes).trace later = mid ++ y :: rest) (hu : u.isVector = false)
    (hx : x.Loads u) (hy : y.Reads u) :
    ∃ i ∈ mid, i.Drains p.config.generation.scalarCounter := by
  obtain ⟨start, -, hset⟩ := settled_of_coherent hvalid hcoherent hloops h
  choose es hes using fun n => hset.exists_edits
    (Context.loadView { config := p.config, drainAll } u hu) (fun hb => hb) n
  have hafter : ∀ k ∈ later ++ n :: earlier, (es k).flatMap Edit.after
      = ((p.withNodes w.nodes).blocks[k]?.getD { index := 0 }).instructions := by
    intro k hk
    obtain ⟨b', hb', hkind⟩ := hpath.block_of_mem hk
    rw [(hes k).after hset hb' hkind, hb']
    rfl
  have hn : n ∈ later ++ n :: earlier := List.mem_append_right _ List.mem_cons_self
  obtain ⟨front, e, back, hcut, hex, -, hback⟩ := Edit.exists_cut Edit.length_after
    ((hafter n hn).trans (by rw [hb]; exact hcode))
  obtain ⟨j, rfl⟩ := Edit.keep_of_after ((hes n).legal e (by simp [hcut])) hex hx.not_isInserted
  -- Behind the load it is outstanding, whatever has been at the entry of the block.
  obtain ⟨b₀, node, hb₀, hnode, rfl, hframe⟩ := hset.block_at hb
  obtain ⟨b', hb', hkind⟩ := hpath.block_of_mem hn
  cases hb.symm.trans hb'
  obtain ⟨b₁, c₁, hr, -, -, hblock⟩ := (hes n).rewritten b₀ node hb₀ hnode (hframe.kind ▸ hkind)
  obtain ⟨x₁, hruns, hheeds⟩ := hblock False ⟨hr.context, False.elim⟩
  obtain ⟨x₂, -, -, hruns', -⟩ := heeds_along hset hes hnode hheeds hpath hedges
  rw [hcut] at hruns
  obtain ⟨x₃, -, hruns⟩ := View.runs_append_iff.1 hruns
  obtain ⟨x₄, hload, hruns⟩ := View.runs_cons_iff.1 hruns
  have hbehind : (back ++ editsAlong es later).flatMap Edit.after = mid ++ y :: rest := by
    rw [List.flatMap_append, hback, trace_editsAlong fun k hk => hafter k (List.mem_append_left _ hk),
      htrace]
  refine Context.exists_drains (hruns.append hruns') (hload.2.mpr (.inr hx)) (fun e he => ?_) hbehind hy
  rcases List.mem_append.1 he with he | he
  · exact (hes n).legal e (by simp [hcut, he])
  · obtain ⟨k, -, he⟩ := mem_editsAlong he
    exact (hes k).legal e he

/-! ### Divergent paths that merge -/

/-- A load of a scalar register. -/
def scalarLoad : Instruction := Sample.scalarLoad (.sgpr 4) (.sgpr 0) 0

/-- The instruction that reads the register. -/
def scalarRead : Instruction := Sample.scalarOp (.sgpr 5) [.sgpr 4]

/-- The wait for the load. -/
def scalarWait : Instruction := .ofWait (.drain {.lgkm})

/-- A branch whose two sides meet in the last block.  The blocks 2, 3 and 5 are entered by no lane: they
lead from one side to the other and past it.  The last block reads a scalar register. -/
def divergence (between past waits : List Instruction) : Program where
  config := {}
  blocks := [
    Sample.divergent 0 {.topLevel} [] [] [],
    Sample.divergent 1 ∅ [0] [0] [],
    Sample.divergent 2 ∅ [0] [] [],
    Sample.divergent 3 ∅ [1, 2] [] between,
    Sample.divergent 4 ∅ [3] [0] [],
    Sample.divergent 5 ∅ [3] [] past,
    Sample.divergent 6 ∅ [4, 5] [1, 4]
      (waits ++ [scalarRead, Sample.endProgram])]

lemma loads_scalarLoad : scalarLoad.Loads (.sgpr 4) :=
  ⟨⟨_, rfl⟩, _, rfl, by decide⟩

lemma reads_scalarRead : scalarRead.Reads (.sgpr 4) :=
  ⟨Sample.one (.sgpr 4), by decide, by decide⟩

theorem load_completes_divergence : (divergence [scalarLoad] [] []).validate = .ok ()
    ∧ (divergence [scalarLoad] [] []).LoopsNest ∧ ∃ w,
      (divergence [scalarLoad] [] []).solve false = .ok w
      ∧ ((divergence [scalarLoad] [] []).withNodes w.nodes).Path ([6, 4] ++ 3 :: [1, 0])
      ∧ [] ++ ((divergence [scalarLoad] [] []).withNodes w.nodes).trace [6, 4]
        = [scalarWait] ++ scalarRead :: [Sample.endProgram]
      ∧ ∃ i ∈ [scalarWait], i.Drains .lgkm := by
  have hsolve : ∃ w, (divergence [scalarLoad] [] []).solve false = .ok w
      ∧ (divergence [scalarLoad] [] []).withNodes w.nodes = divergence [scalarLoad] [] [scalarWait] :=
    exists_solve 20 (by decide +kernel)
  obtain ⟨w, hw, heq⟩ := hsolve
  have hpath : ((divergence [scalarLoad] [] []).withNodes w.nodes).Path ([6, 4] ++ 3 :: [1, 0]) := by
    rw [heq]
    exact .next (.next (.next (.next (.entry rfl (by decide)) ⟨_, rfl, by decide, 0, by decide, rfl⟩)
      ⟨_, rfl, by decide, 1, by decide, rfl⟩) ⟨_, rfl, by decide, 3, by decide, rfl⟩)
      ⟨_, rfl, by decide, 4, by decide, rfl⟩
  have hedges : ([6, 4] ++ [3]).IsChain fun k m => (divergence [scalarLoad] [] []).HandsOn m k :=
    List.isChain_cons_cons.2 ⟨⟨_, rfl, .inr ⟨4, by decide, rfl⟩⟩,
      List.isChain_cons_cons.2 ⟨⟨_, rfl, .inl (by decide)⟩, .singleton _⟩⟩
  have hblock : ((divergence [scalarLoad] [] []).withNodes w.nodes).blocks[3]?
      = some (Sample.divergent 3 ∅ [1, 2] [] [scalarLoad]) := heq ▸ rfl
  have htrace : [] ++ ((divergence [scalarLoad] [] []).withNodes w.nodes).trace [6, 4]
      = [scalarWait] ++ scalarRead :: [Sample.endProgram] := heq ▸ rfl
  have hvalid : (divergence [scalarLoad] [] []).validate = .ok () := by decide +kernel
  have hloops : (divergence [scalarLoad] [] []).LoopsNest := by decide +kernel
  have hcode : (Sample.divergent 3 ∅ [1, 2] [] [scalarLoad]).instructions = [] ++ scalarLoad :: [] := rfl
  exact ⟨hvalid, hloops, w, hw, hpath, htrace, load_completes hvalid (by decide +kernel) hloops hw hpath
    hedges hblock hcode htrace (by decide) loads_scalarLoad reads_scalarRead⟩

/-- A load past one of the sides is not waited for.  No entry comes into the last block from there, and
the register is read while it is being loaded. -/
theorem load_lost_divergence : (divergence [] [scalarLoad] []).validate = .ok ()
    ∧ (∀ b ∈ (divergence [] [scalarLoad] []).blocks, ∀ i ∈ b.instructions, i.isCoherent = true)
    ∧ (divergence [] [scalarLoad] []).LoopsNest
    ∧ scalarLoad.Loads (.sgpr 4) ∧ scalarRead.Reads (.sgpr 4) ∧ ∃ w,
      (divergence [] [scalarLoad] []).solve false = .ok w
      ∧ ((divergence [] [scalarLoad] []).withNodes w.nodes).Path [6, 5, 3, 1, 0]
      ∧ ((divergence [] [scalarLoad] []).withNodes w.nodes).trace [6, 5, 3, 1, 0]
        = scalarLoad :: scalarRead :: [Sample.endProgram] := by
  have hsolve : ∃ w, (divergence [] [scalarLoad] []).solve false = .ok w
      ∧ (divergence [] [scalarLoad] []).withNodes w.nodes = divergence [] [scalarLoad] [] :=
    exists_solve 20 (by decide +kernel)
  obtain ⟨w, hw, heq⟩ := hsolve
  refine ⟨by decide +kernel, by decide +kernel, by decide +kernel, loads_scalarLoad, reads_scalarRead, w,
    hw, ?_, by rw [heq]; rfl⟩
  rw [heq]
  exact .next (.next (.next (.next (.entry rfl (by decide)) ⟨_, rfl, by decide, 0, by decide, rfl⟩)
    ⟨_, rfl, by decide, 1, by decide, rfl⟩) ⟨_, rfl, by decide, 3, by decide, rfl⟩)
    ⟨_, rfl, by decide, 5, by decide, rfl⟩

end Program

end GpuWaits
