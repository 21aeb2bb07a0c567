/-
# Laws of joins

The sweep joins the contexts at the ends of the predecessors into the entry of a block, one after
the other, and trusts the report of each join.  This file shows what it can rely on.

* The report is exact, and what has been joined once stays absorbed while more comes in along edges
  of the same sort (`Context.join_report`).  A report looks neither at the storage classes that a
  memory of barriers lists nor at whether the memory is live, so that this asks for memories whose
  summaries are exact.
* The order of the predecessors does not matter (`Context.joinAll_perm`), whatever the contexts are
  like.  An entry that is new comes in without its lanes and one that is there is merged, so that a
  single join does depend on what came in before; but unit by unit two joins along edges of the same
  sort can be swapped (`Context.join_right_comm`).  The linear predecessors still come first: lanes
  flow only to entries that are there.
-/
import GpuWaits.Proofs.Exact

namespace GpuWaits

/-! ### What is absorbed stays absorbed -/

namespace Context

variable {c d o : Context} {edge : Edge}

/-- A join that absorbs everything gives an exact context back. -/
lemma Absorbs.join_eq (h : c.Absorbs o edge) (hc : c.Exact) (ho : o.Exact) : c.join o edge = c :=
  (agrees_join h).eq (hc.join ho edge) hc

/-- A change that is reported is one: it takes room away. -/
lemma join_ne_of_grows (h : c.grows o edge = true) : c.join o edge ≠ c := by
  intro heq
  have hlt := headroom_join_lt h
  rw [heq] at hlt
  exact Nat.lt_irrefl _ hlt

/-- What is absorbed stays so when more comes in along an edge of the same sort: either the entries
of `o` are there already, or no edge of this sort brings entries whose lanes were passed over. -/
lemma Absorbs.join (h : c.Absorbs o edge) (d : Context) : (c.join d edge).Absorbs o edge := by
  refine h.mono (below_join c d edge) fun _ r x e hx he => ?_
  cases hcarries : edge.carriesEntries with
  | true =>
    obtain ⟨y, hy, -⟩ := h.entries hcarries r x hx
    exact ⟨y, hy⟩
  | false => exact getElem?_of_join hcarries he

/-- Absorption and exactness last through any number of joins. -/
lemma Absorbs.foldl_join (h : c.Absorbs o edge) (hc : c.Exact) {between : List Context}
    (hbetween : ∀ d ∈ between, d.Exact) :
    (between.foldl (fun x d => x.join d edge) c).Absorbs o edge
      ∧ (between.foldl (fun x d => x.join d edge) c).Exact := by
  induction between generalizing c with
  | nil => exact ⟨h, hc⟩
  | cons d rest ih =>
    exact ih (h.join d) (hc.join (hbetween d (by simp)) edge)
      fun d' hd' => hbetween d' (List.mem_cons_of_mem _ hd')

/-- A join reports no change exactly if it makes none.  After a join, another one with the same
context along an edge of the same sort reports and makes no change, whatever else has come in along
such edges in between. -/
theorem join_report (hc : c.Exact) (ho : o.Exact) (edge : Edge) :
    (c.grows o edge = false ↔ c.join o edge = c)
      ∧ ∀ between : List Context, (∀ d ∈ between, d.Exact) →
        let joined := between.foldl (fun x d => x.join d edge) (c.join o edge)
        joined.grows o edge = false ∧ joined.join o edge = joined := by
  refine ⟨⟨fun hquiet => (grows_eq_false_iff.1 hquiet).join_eq hc ho, fun heq => ?_⟩,
    fun between hbetween => ?_⟩
  · rw [Bool.eq_false_iff]
    exact fun hgrows => join_ne_of_grows hgrows heq
  · obtain ⟨habsorbs, hexact⟩ := (absorbs_join c o edge).foldl_join (hc.join ho edge) hbetween
    exact ⟨grows_eq_false_iff.2 habsorbs, habsorbs.join_eq hexact ho⟩

/-- A store to a buffer is outstanding, and a barrier waits for it. -/
def storing : Context where
  nonzero := {.vs}
  releaseDependency := ({} : Barrier).record .gfx10 .vmemStore {.buffer}
  release := ({} : Barrier).record .gfx10 .vmemStore {.image}

/-- A load from a buffer into a register is outstanding. -/
def loading : Context where
  nonzero := {.vm}
  releaseDependency := ({} : Barrier).record .gfx10 .vmem {.buffer}
  regs := (∅ : RegMap).insert (.vgpr 0) (.ofEvent .vmem {.vm} true)

lemma exact_storing : storing.Exact := by
  intro role
  cases role
  · exact Barrier.exact_empty.record _ (by decide)
  · exact Barrier.exact_empty
  · exact Barrier.exact_empty.record _ (by decide)
  · exact Barrier.exact_empty

lemma exact_loading : loading.Exact := by
  intro role
  cases role
  · exact Barrier.exact_empty.record _ (by decide)
  · exact Barrier.exact_empty
  · exact Barrier.exact_empty
  · exact Barrier.exact_empty

/-- The load comes in twice along logical edges into a merge, and the store in between. -/
theorem join_report_loading : ({} : Context).Exact ∧ loading.Exact ∧ storing.Exact
    ∧ ({} : Context).grows loading ⟨true, true⟩ = true
    ∧ (({} : Context).grows loading ⟨true, true⟩ = false
      ↔ ({} : Context).join loading ⟨true, true⟩ = {})
    ∧ ((({} : Context).join loading ⟨true, true⟩).join storing ⟨true, true⟩).grows loading ⟨true, true⟩
      = false
    ∧ ((({} : Context).join loading ⟨true, true⟩).join storing ⟨true, true⟩).join loading ⟨true, true⟩
      = (({} : Context).join loading ⟨true, true⟩).join storing ⟨true, true⟩ := by
  obtain ⟨hreport, hagain⟩ := join_report exact_empty exact_loading ⟨true, true⟩
  exact ⟨exact_empty, exact_loading, exact_storing, by decide +kernel, hreport,
    hagain [storing] (by simp [exact_storing])⟩

end Context

/-! ### Swapping two joins -/

lemma Flags.union_right_comm {α : Type} {w : Nat} (s t u : Flags α w) : s ∪ t ∪ u = s ∪ u ∪ t := by
  apply ext_bit
  intro i
  simp only [Union.union, BitVec.getLsbD_or, Bool.or_right_comm]

lemma Wait.both_right_comm (u v w : Wait) : (u.both v).both w = (u.both w).both v := by
  apply ext_get
  intro c
  rw [← UInt16.toNat_inj]
  simp only [get_both, toNat_min]
  omega

namespace Entry

lemma join_right_comm (e x y : Entry) : (e.join x).join y = (e.join y).join x := by
  simp only [join, Wait.both_right_comm e.wait x.wait, Flags.union_right_comm _ x.events,
    Flags.union_right_comm _ x.counters, Bool.or_right_comm _ x.blocksReads,
    Flags.union_right_comm _ x.vmemTypes, Flags.union_right_comm _ x.halves]

lemma joinAlong_right_comm (e x y : Entry) (edge : Context.Edge) :
    (e.joinAlong x edge).joinAlong y edge = (e.joinAlong y edge).joinAlong x edge := by
  have hlanes : ∀ d : Entry, (d.addLanes x.laneEvents).addLanes y.laneEvents
      = (d.addLanes y.laneEvents).addLanes x.laneEvents := fun d => by
    simp only [addLanes, Flags.union_right_comm _ x.laneEvents]
  -- The lanes are not touched by the join of the rest.
  have hapart : ∀ (d z : Entry) (lanes : EventSet),
      (d.addLanes lanes).join z = (d.join z).addLanes lanes := fun _ _ _ => rfl
  cases hcarries : edge.carriesEntries <;> cases hlogical : edge.logical <;>
    simp only [joinAlong, hcarries, hlogical, if_true, Bool.false_eq_true, if_false]
  · exact hlanes e
  · exact join_right_comm e x y
  · rw [hapart, hapart, join_right_comm, hlanes]

end Entry

namespace Demand

lemma join_right_comm (d x y : Demand) : (d.join x).join y = (d.join y).join x := by
  have hscope : ∀ a b c : Scope, (a.widest b).widest c = (a.widest c).widest b := by
    intro a b c
    cases a <;> cases b <;> cases c <;> rfl
  simp only [join, Wait.both_right_comm d.wait x.wait, Flags.union_right_comm _ x.events,
    hscope d.scope x.scope]

end Demand

/-- A memory that is not live adds nothing, before or after another one. -/
lemma Barrier.join_right_comm (b x y : Barrier) : (b.join x).join y = (b.join y).join x := by
  cases hx : x.live with
  | false => simp only [join, hx, Bool.false_eq_true, if_false]
  | true =>
    cases hy : y.live with
    | false => simp only [join, hy, Bool.false_eq_true, if_false]
    | true =>
      simp only [join, hx, hy, if_true, demand, PerStorage.get_ofFn,
        Demand.join_right_comm _ (x.demands.get _), Flags.union_right_comm _ x.storage]

namespace Context

lemma regs_join_right_comm (c x y : Context) (edge : Edge) :
    ((c.join x edge).join y edge).regs = ((c.join y edge).join x edge).regs := by
  apply Std.ExtTreeMap.ext_getElem?
  intro r
  simp only [getElem?_regs_join_eq]
  cases x.regs[r]? with
  | none => rfl
  | some a =>
    cases y.regs[r]? with
    | none => rfl
    | some b =>
      cases edge.carriesEntries with
      | true => exact congrArg some (Entry.joinAlong_right_comm _ a b edge)
      | false =>
        cases c.regs[r]? with
        | none => rfl
        | some e => exact congrArg some (Entry.joinAlong_right_comm e a b edge)

/-- Two contexts that come in along edges of the same sort may do so in either order. -/
lemma join_right_comm (c x y : Context) (edge : Edge) :
    (c.join x edge).join y edge = (c.join y edge).join x edge := by
  refine ext_barrier ?_ ?_ ?_ (regs_join_right_comm c x y edge) fun role => ?_
  · simp only [nonzero_join, Flags.union_right_comm _ x.nonzero]
  · simp only [flatLgkm_join, Bool.or_right_comm _ x.flatLgkm]
  · simp only [flatVm_join, Bool.or_right_comm _ x.flatVm]
  · simp only [barrier_join]
    split
    · exact Barrier.join_right_comm _ _ _
    · rfl

lemma foldl_join_perm (c : Context) (edge : Edge) {preds preds' : List Context}
    (h : preds.Perm preds') :
    preds.foldl (fun c o => c.join o edge) c = preds'.foldl (fun c o => c.join o edge) c :=
  h.foldl_eq' (fun x _ y _ z => join_right_comm z x y edge) c

/-- The context `c` once the ends of all predecessors of a block have come in, the linear ones
first. -/
def joinAll (c : Context) (merge : Bool) (linear logical : List Context) : Context :=
  logical.foldl (fun c o => c.join o ⟨true, merge⟩)
    (linear.foldl (fun c o => c.join o ⟨false, merge⟩) c)

/-- The order of the linear predecessors does not matter, nor does that of the logical ones. -/
theorem joinAll_perm (c : Context) (merge : Bool) {linear linear' logical logical' : List Context}
    (hlinear : linear.Perm linear') (hlogical : logical.Perm logical') :
    c.joinAll merge linear logical = c.joinAll merge linear' logical' := by
  rw [joinAll, joinAll, foldl_join_perm c _ hlinear, foldl_join_perm _ _ hlogical]

/-- A merge at which the load comes in along a logical edge, in front of the lanes of the store. -/
theorem joinAll_perm_loading :
    [storing, loading].Perm [loading, storing]
      ∧ [loading, storing, loading].Perm [storing, loading, loading]
      ∧ ({} : Context).joinAll true [storing, loading] [loading, storing, loading]
        = ({} : Context).joinAll true [loading, storing] [storing, loading, loading] := by
  have hlinear : [storing, loading].Perm [loading, storing] := .swap _ _ _
  have hlogical : [loading, storing, loading].Perm [storing, loading, loading] := .swap _ _ _
  exact ⟨hlinear, hlogical, joinAll_perm {} true hlinear hlogical⟩

end Context

/-! ### The edges into a block -/

namespace Sweep

variable {nodes : List Node} {c c' : Context} {grew : Bool}

/-- The contexts at the ends of some blocks. -/
def exits (nodes : List Node) (preds : List UInt32) : List Context :=
  preds.filterMap fun pred => nodes[pred.toNat]?.map Node.exit

lemma exits_perm {preds preds' : List UInt32} (h : preds.Perm preds') :
    (exits nodes preds).Perm (exits nodes preds') :=
  h.filterMap _

lemma joinEdges_append {first second : List (Nat × Context.Edge)}
    (h : joinEdges nodes (first ++ second) c = .ok (c', grew)) : ∃ c₁ more more',
      joinEdges nodes first c = .ok (c₁, more) ∧ joinEdges nodes second c₁ = .ok (c', more') := by
  induction first generalizing c grew with
  | nil => exact ⟨c, false, grew, rfl, h⟩
  | cons e rest ih =>
    obtain ⟨node, more, hnode, hrest, -⟩ := joinEdges_cons.1 h
    obtain ⟨c₁, more, more', hfirst, hsecond⟩ := ih hrest
    exact ⟨c₁, _, more', joinEdges_cons.2 ⟨node, more, hnode, hfirst, rfl⟩, hsecond⟩

/-- Along edges of one sort the ends of the predecessors come in one after the other. -/
lemma joinEdges_map {preds : List UInt32} {edge : Context.Edge}
    (h : joinEdges nodes (preds.map fun pred => (pred.toNat, edge)) c = .ok (c', grew)) :
    c' = (exits nodes preds).foldl (fun c o => c.join o edge) c := by
  induction preds generalizing c grew with
  | nil =>
    cases h
    rfl
  | cons pred rest ih =>
    obtain ⟨node, more, hnode, hrest, -⟩ := joinEdges_cons.1 h
    rw [ih hrest, exits, exits, List.filterMap_cons, hnode]
    rfl

/-- The sweep joins the linear predecessors of a block, and then the logical ones. -/
lemma joinEdges_eq_joinAll {b : Block} (h : joinEdges nodes b.edges c = .ok (c', grew)) :
    c' = c.joinAll b.mergesLanes (exits nodes b.linearPreds) (exits nodes b.logicalPreds) := by
  obtain ⟨c₁, more, more', hlinear, hlogical⟩ := joinEdges_append h
  rw [Context.joinAll, ← joinEdges_map hlinear]
  exact joinEdges_map hlogical

lemma lt_of_joinEdges {edges : List (Nat × Context.Edge)}
    (h : joinEdges nodes edges c = .ok (c', grew)) : ∀ e ∈ edges, e.1 < nodes.length := by
  induction edges generalizing c grew with
  | nil => simp
  | cons e rest ih =>
    obtain ⟨node, more, hnode, hrest, -⟩ := joinEdges_cons.1 h
    exact List.forall_mem_cons.2 ⟨(List.getElem?_eq_some_iff.1 hnode).1, ih hrest⟩

end Sweep

namespace Block

variable {b b' : Block}

lemma mergesLanes_perm (hlinear : b.linearPreds.Perm b'.linearPreds)
    (hlogical : b.logicalPreds.Perm b'.logicalPreds) : b'.mergesLanes = b.mergesLanes := by
  simp only [mergesLanes, hlogical.length_eq, hlogical.contains_eq, hlinear.any_eq]

lemma edges_perm (hlinear : b.linearPreds.Perm b'.linearPreds)
    (hlogical : b.logicalPreds.Perm b'.logicalPreds) : b.edges.Perm b'.edges := by
  rw [edges, edges, mergesLanes_perm hlinear hlogical]
  exact (hlinear.map _).append (hlogical.map _)

/-- The entry of a block does not depend on the order in which its predecessors are listed. -/
theorem joinEdges_perm (hlinear : b.linearPreds.Perm b'.linearPreds)
    (hlogical : b.logicalPreds.Perm b'.logicalPreds) {nodes : List Node} {c c' : Context}
    {grew : Bool} (h : Sweep.joinEdges nodes b.edges c = .ok (c', grew)) :
    ∃ grew', Sweep.joinEdges nodes b'.edges c = .ok (c', grew') := by
  obtain ⟨⟨c'', grew'⟩, h'⟩ := Sweep.joinEdges_total (fun e he =>
    Sweep.lt_of_joinEdges h e ((edges_perm hlinear hlogical).mem_iff.2 he)) c
  have hsame : c'' = c' := by
    rw [Sweep.joinEdges_eq_joinAll h, Sweep.joinEdges_eq_joinAll h',
      mergesLanes_perm hlinear hlogical, Context.joinAll, Context.joinAll, Context.foldl_join_perm c _ (Sweep.exits_perm hlinear),
      Context.foldl_join_perm _ _ (Sweep.exits_perm hlogical)]
  exact ⟨grew', hsame ▸ h'⟩

end Block

end GpuWaits
