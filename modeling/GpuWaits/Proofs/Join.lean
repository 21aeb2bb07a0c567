/-
# What a join leaves behind

The sweep asks of every join whether it changed something.  This file says what the answer "no" means:
everything that comes in along the edge is there already (`Context.grows_eq_false_iff`), and the
join gives back the context that it started from, up to the summary of the storage classes of the
barriers, which no report looks at (`Context.agrees_join`).

What becomes of one unit is said by `Context.getElem?_regs_join_eq`, through what becomes of its entry
(`Entry.joinAlong`); all else about the entries of a join goes through it.

The edges into a block are joined linear ones first.  This order matters: a logical edge carries lanes
only for entries that have come in before.  `Sweep.joinEdges_absorbs` shows that after all edges of a
block have been joined, none of them has anything left to add.
-/
import GpuWaits.Insertion.Sweep
import GpuWaits.Proofs.Hardware

namespace GpuWaits

/-! ### Waits, ordered by their targets -/

namespace Wait

/-- A wait is below another one if it asks for at least as much on every counter. -/
instance : LE Wait := ⟨fun v w => ∀ c, v.get c ≤ w.get c⟩

lemma le_refl (w : Wait) : w ≤ w := fun _ => UInt16.le_refl _

lemma le_trans {u v w : Wait} (huv : u ≤ v) (hvw : v ≤ w) : u ≤ w :=
  fun c => UInt16.le_trans (huv c) (hvw c)

lemma le_unset (n : UInt16) : n ≤ unset := by
  rw [UInt16.le_iff_toNat_le]
  exact Nat.le_of_lt_succ n.toNat_lt

lemma le_none (w : Wait) : w ≤ none := fun c => by
  rw [get_none]
  exact le_unset _

lemma min_le_left (a b : UInt16) : min a b ≤ a := by
  rw [UInt16.le_iff_toNat_le, toNat_min]
  exact Nat.min_le_left _ _

lemma min_le_right (a b : UInt16) : min a b ≤ b := by
  rw [UInt16.le_iff_toNat_le, toNat_min]
  exact Nat.min_le_right _ _

lemma both_le_left (v w : Wait) : v.both w ≤ v := fun c => by
  rw [get_both]
  exact min_le_left _ _

lemma both_le_right (v w : Wait) : v.both w ≤ w := fun c => by
  rw [get_both]
  exact min_le_right _ _

lemma le_get_both {v w : Wait} {c : Counter} {n : UInt16} (hv : n ≤ v.get c) (hw : n ≤ w.get c) :
    n ≤ (v.both w).get c := by
  have h₁ := UInt16.le_iff_toNat_le.1 hv
  have h₂ := UInt16.le_iff_toNat_le.1 hw
  rw [get_both, UInt16.le_iff_toNat_le, toNat_min]
  omega

lemma le_both {u v w : Wait} (hv : u ≤ v) (hw : u ≤ w) : u ≤ v.both w := fun c =>
  le_get_both (hv c) (hw c)

lemma exceeds_eq_false_iff {v w : Wait} : w.exceeds v = false ↔ v ≤ w := by
  simp only [exceeds, List.any_eq_false, decide_eq_true_eq, UInt16.not_lt]
  exact ⟨fun h c => h c c.mem_all, fun h c _ => h c⟩

/-- A demand that is met already adds nothing. -/
lemma both_eq_left {v w : Wait} (h : v ≤ w) : v.both w = v := by
  apply ext_get
  intro c
  have := UInt16.le_iff_toNat_le.1 (h c)
  rw [get_both, ← UInt16.toNat_inj, toNat_min]
  omega

@[simp] lemma none_both (w : Wait) : none.both w = w := by
  apply ext_get
  intro c
  have := UInt16.le_iff_toNat_le.1 (le_unset (w.get c))
  rw [get_both, get_none, ← UInt16.toNat_inj, toNat_min]
  omega

end Wait

/-! ### Entries -/

namespace Entry

lemma grows_eq_false_iff {e o : Entry} :
    e.grows o = false ↔ e.events.lacks o.events = false ∧ e.counters.lacks o.counters = false ∧
      (o.blocksReads = true → e.blocksReads = true) ∧ e.vmemTypes.lacks o.vmemTypes = false ∧
      e.halves.lacks o.halves = false ∧ e.wait ≤ o.wait := by
  simp only [grows, Bool.or_eq_false_iff, Wait.exceeds_eq_false_iff, and_assoc]
  cases o.blocksReads <;> cases e.blocksReads <;> simp

lemma join_eq_self {e o : Entry} (h : e.grows o = false) : e.join o = e := by
  obtain ⟨hev, hco, hbr, hty, hha, hwa⟩ := grows_eq_false_iff.1 h
  have hor : (e.blocksReads || o.blocksReads) = e.blocksReads := by
    revert hbr
    cases e.blocksReads <;> cases o.blocksReads <;> simp
  simp only [join, Flags.union_eq_self hev, Flags.union_eq_self hco, Flags.union_eq_self hty,
    Flags.union_eq_self hha, Wait.both_eq_left hwa, hor]

lemma join_grows_left (e o : Entry) : (e.join o).grows e = false := by
  rw [grows_eq_false_iff]
  exact ⟨Flags.lacks_union_left (Flags.lacks_refl _) _,
    Flags.lacks_union_left (Flags.lacks_refl _) _, fun h => by simp [join, h],
    Flags.lacks_union_left (Flags.lacks_refl _) _, Flags.lacks_union_left (Flags.lacks_refl _) _,
    Wait.both_le_left _ _⟩

lemma join_grows_right (e o : Entry) : (e.join o).grows o = false := by
  rw [grows_eq_false_iff]
  exact ⟨Flags.lacks_union_self _ _, Flags.lacks_union_self _ _, fun h => by simp [join, h],
    Flags.lacks_union_self _ _, Flags.lacks_union_self _ _, Wait.both_le_right _ _⟩

lemma grows_refl (e : Entry) : e.grows e = false := by
  rw [grows_eq_false_iff]
  exact ⟨Flags.lacks_refl _, Flags.lacks_refl _, id, Flags.lacks_refl _, Flags.lacks_refl _,
    Wait.le_refl _⟩

lemma lacks_trans {α : Type} {n : Nat} {s t u : Flags α n} (hst : s.lacks t = false)
    (htu : t.lacks u = false) : s.lacks u = false := by
  rw [Flags.lacks_eq_false_iff] at *
  exact fun i hi => hst i (htu i hi)

lemma grows_trans {d e o : Entry} (hde : d.grows e = false) (heo : e.grows o = false) :
    d.grows o = false := by
  rw [grows_eq_false_iff] at *
  obtain ⟨h₁, h₂, h₃, h₄, h₅, h₆⟩ := hde
  obtain ⟨k₁, k₂, k₃, k₄, k₅, k₆⟩ := heo
  exact ⟨lacks_trans h₁ k₁, lacks_trans h₂ k₂, fun h => h₃ (k₃ h), lacks_trans h₄ k₄,
    lacks_trans h₅ k₅, Wait.le_trans h₆ k₆⟩

/-- An entry that is new has been joined to that of no access. -/
lemma vacant_join (x : Entry) : vacant.join x = { x with laneEvents := ∅ } := by
  simp only [join, vacant, Wait.none_both, Flags.empty_union, Bool.false_or]

/-- The entry `e` of a unit when the entry `x` of the same unit comes in along an edge. -/
def joinAlong (e x : Entry) (edge : Context.Edge) : Entry :=
  let joined := if edge.carriesEntries then e.join x else e
  if edge.logical then joined.addLanes x.laneEvents else joined

/-- The lanes come in apart from the rest. -/
lemma joinAlong_eq (e x : Entry) (edge : Context.Edge) :
    e.joinAlong x edge = { (if edge.carriesEntries then e.join x else e) with
      laneEvents := if edge.logical then e.laneEvents ∪ x.laneEvents else e.laneEvents } := by
  rw [joinAlong]
  cases edge.carriesEntries <;> cases edge.logical <;> rfl

lemma laneEvents_joinAlong (e x : Entry) (edge : Context.Edge) :
    (e.joinAlong x edge).laneEvents
      = if edge.logical then e.laneEvents ∪ x.laneEvents else e.laneEvents := by
  rw [joinAlong_eq]

lemma joinAlong_grows (e x z : Entry) (edge : Context.Edge) :
    (e.joinAlong x edge).grows z = (if edge.carriesEntries then e.join x else e).grows z := by
  rw [joinAlong_eq]
  rfl

/-- What is there already changes nothing when it comes in again. -/
lemma joinAlong_eq_self {e x : Entry} {edge : Context.Edge}
    (hx : edge.carriesEntries = true → e.grows x = false)
    (hlanes : edge.logical = true → e.laneEvents.lacks x.laneEvents = false) :
    e.joinAlong x edge = e := by
  have hjoined : (if edge.carriesEntries then e.join x else e) = e := by
    split
    · exact join_eq_self (hx ‹_›)
    · rfl
  rw [joinAlong, hjoined]
  split
  · rw [addLanes, Flags.union_eq_self (hlanes ‹_›)]
  · rfl

/-- An entry has after a join all that it had before. -/
lemma joinAlong_grows_left (e x : Entry) (edge : Context.Edge) :
    (e.joinAlong x edge).grows e = false
      ∧ (e.joinAlong x edge).laneEvents.lacks e.laneEvents = false := by
  rw [joinAlong_grows, laneEvents_joinAlong]
  constructor
  · split
    · exact join_grows_left e x
    · exact grows_refl e
  · split
    · exact Flags.lacks_union_left (Flags.lacks_refl _) _
    · exact Flags.lacks_refl _

end Entry

/-! ### Maps of entries -/

namespace RegMap

lemma grows_eq_false_iff {m o : RegMap} :
    m.grows o = false ↔
      ∀ (r : Reg) (x : Entry), o[r]? = some x → ∃ e : Entry, m[r]? = some e ∧ e.grows x = false := by
  simp only [grows, List.any_eq_false, Prod.forall, Std.ExtTreeMap.mem_toList_iff_getElem?_eq_some]
  refine forall_congr' fun r => forall_congr' fun x => imp_congr_right fun _ => ?_
  cases m[r]? <;> simp

lemma lanesGrow_eq_false_iff {m o : RegMap} :
    m.lanesGrow o = false ↔
      ∀ (r : Reg) (x e : Entry), o[r]? = some x → m[r]? = some e →
        e.laneEvents.lacks x.laneEvents = false := by
  simp only [lanesGrow, List.any_eq_false, Prod.forall,
    Std.ExtTreeMap.mem_toList_iff_getElem?_eq_some]
  constructor
  · intro h r x e hx he
    simpa [he] using h r x hx
  · intro h r x hx
    cases he : m[r]? with
    | none => simp
    | some e => simpa using h r x e hx he

end RegMap

/-! ### Barriers -/

namespace Demand

lemma grows_eq_false_iff {d o : Demand} :
    d.grows o = false ↔
      d.wait ≤ o.wait ∧ d.events.lacks o.events = false ∧ o.scope.width ≤ d.scope.width := by
  have hscope : decide (d.scope < o.scope) = false ↔ o.scope.width ≤ d.scope.width := by
    rw [decide_eq_false_iff_not]
    exact Nat.not_lt
  simp only [grows, Bool.or_eq_false_iff, Wait.exceeds_eq_false_iff, hscope, and_assoc]

lemma join_eq_self {d o : Demand} (h : d.grows o = false) : d.join o = d := by
  obtain ⟨hwa, hev, hsc⟩ := grows_eq_false_iff.1 h
  have hwid : d.scope.widest o.scope = d.scope := by
    revert hsc
    cases d.scope <;> cases o.scope <;> decide
  simp only [join, Wait.both_eq_left hwa, Flags.union_eq_self hev, hwid]

lemma join_grows_left (d o : Demand) : (d.join o).grows d = false := by
  rw [grows_eq_false_iff]
  refine ⟨Wait.both_le_left _ _, Flags.lacks_union_left (Flags.lacks_refl _) _, ?_⟩
  simp only [join, width_widest]
  omega

lemma join_grows_right (d o : Demand) : (d.join o).grows o = false := by
  rw [grows_eq_false_iff]
  refine ⟨Wait.both_le_right _ _, Flags.lacks_union_self _ _, ?_⟩
  simp only [join, width_widest]
  omega

lemma grows_refl (d : Demand) : d.grows d = false := by
  rw [grows_eq_false_iff]
  exact ⟨Wait.le_refl _, Flags.lacks_refl _, Nat.le_refl _⟩

lemma grows_trans {c d o : Demand} (hcd : c.grows d = false) (hdo : d.grows o = false) :
    c.grows o = false := by
  rw [grows_eq_false_iff] at *
  obtain ⟨h₁, h₂, h₃⟩ := hcd
  obtain ⟨k₁, k₂, k₃⟩ := hdo
  exact ⟨Wait.le_trans h₁ k₁, Entry.lacks_trans h₂ k₂, Nat.le_trans k₃ h₃⟩

end Demand

lemma Storage.mem_all (k : Storage) : k ∈ Storage.all := by cases k <;> decide

lemma BarrierRole.mem_all (role : BarrierRole) : role ∈ BarrierRole.all := by
  cases role <;> decide

namespace Barrier

lemma grows_eq_false_iff {b o : Barrier} :
    b.grows o = false ↔ o.live = true → ∀ k, (b.demand k).grows (o.demand k) = false := by
  simp only [grows, Bool.and_eq_false_iff, List.any_eq_false]
  constructor
  · rintro (h | h) hl k
    · rw [h] at hl
      cases hl
    · simpa using h k k.mem_all
  · intro h
    cases hl : o.live with
    | false => exact .inl rfl
    | true => exact .inr fun k _ => by simpa using h hl k

end Barrier

/-! ### Contexts -/

namespace Context

/-- Nothing that `o` brings along an edge is missing in `c`. -/
structure Absorbs (c o : Context) (edge : Edge) : Prop where
  nonzero : c.nonzero.lacks o.nonzero = false
  flatLgkm : o.flatLgkm = true → c.flatLgkm = true
  flatVm : o.flatVm = true → c.flatVm = true
  entries : edge.carriesEntries = true → ∀ (r : Reg) (x : Entry), o.regs[r]? = some x →
    ∃ e : Entry, c.regs[r]? = some e ∧ e.grows x = false
  lanes : edge.logical = true → ∀ (r : Reg) (x e : Entry), o.regs[r]? = some x →
    c.regs[r]? = some e → e.laneEvents.lacks x.laneEvents = false
  demands : edge.logical = true → ∀ role, (o.barrier role).live = true →
    ∀ k, ((c.barrier role).demand k).grows ((o.barrier role).demand k) = false

/-- A join reports no change exactly if everything is absorbed. -/
theorem grows_eq_false_iff {c o : Context} {edge : Edge} :
    c.grows o edge = false ↔ c.Absorbs o edge := by
  simp only [grows, Bool.or_eq_false_iff, Bool.and_eq_false_iff, Bool.not_eq_false']
  constructor
  · rintro ⟨⟨⟨⟨hn, hl⟩, hv⟩, he⟩, hb⟩
    refine ⟨hn, fun h => ?_, fun h => ?_, fun h => ?_, fun h => ?_, fun h role => ?_⟩
    · exact hl.resolve_left (by simp [h])
    · exact hv.resolve_left (by simp [h])
    · exact RegMap.grows_eq_false_iff.1 (he.resolve_left (by simp [h]))
    · exact RegMap.lanesGrow_eq_false_iff.1 (hb.resolve_left (by simp [h])).1
    · have := List.any_eq_false.1 (hb.resolve_left (by simp [h])).2 role role.mem_all
      exact Barrier.grows_eq_false_iff.1 (by simpa using this)
  · intro h
    refine ⟨⟨⟨⟨h.nonzero, ?_⟩, ?_⟩, ?_⟩, ?_⟩
    · cases ho : o.flatLgkm with
      | false => exact .inl rfl
      | true => exact .inr (h.flatLgkm ho)
    · cases ho : o.flatVm with
      | false => exact .inl rfl
      | true => exact .inr (h.flatVm ho)
    · cases hc : edge.carriesEntries with
      | false => exact .inl rfl
      | true => exact .inr (RegMap.grows_eq_false_iff.2 (h.entries hc))
    · cases hl : edge.logical with
      | false => exact .inl rfl
      | true =>
        refine .inr ⟨RegMap.lanesGrow_eq_false_iff.2 (h.lanes hl), List.any_eq_false.2 ?_⟩
        intro role _
        simpa using Barrier.grows_eq_false_iff.2 (h.demands hl role)

/-- Two contexts that differ at most in the summaries of their barriers. -/
structure Agrees (c d : Context) : Prop where
  nonzero : c.nonzero = d.nonzero
  flatLgkm : c.flatLgkm = d.flatLgkm
  flatVm : c.flatVm = d.flatVm
  regs : c.regs = d.regs
  demand : ∀ role k, (c.barrier role).demand k = (d.barrier role).demand k

lemma Agrees.refl (c : Context) : c.Agrees c := ⟨rfl, rfl, rfl, rfl, fun _ _ => rfl⟩

lemma Agrees.symm {c d : Context} (h : c.Agrees d) : d.Agrees c :=
  ⟨h.nonzero.symm, h.flatLgkm.symm, h.flatVm.symm, h.regs.symm, fun role k => (h.demand role k).symm⟩

lemma Agrees.trans {c d e : Context} (hcd : c.Agrees d) (hde : d.Agrees e) : c.Agrees e :=
  ⟨hcd.nonzero.trans hde.nonzero, hcd.flatLgkm.trans hde.flatLgkm, hcd.flatVm.trans hde.flatVm,
    hcd.regs.trans hde.regs, fun role k => (hcd.demand role k).trans (hde.demand role k)⟩

/-- What is absorbed does not depend on the summaries of the barriers. -/
lemma Agrees.absorbs {c d o : Context} {edge : Edge} (h : c.Agrees d) (hc : c.Absorbs o edge) :
    d.Absorbs o edge := by
  obtain ⟨hn, hl, hv, hr, hd⟩ := h
  refine ⟨hn ▸ hc.nonzero, fun ho => hl ▸ hc.flatLgkm ho, fun ho => hv ▸ hc.flatVm ho, ?_, ?_, ?_⟩
  · rw [← hr]
    exact hc.entries
  · rw [← hr]
    exact hc.lanes
  · intro he role ho k
    rw [← hd]
    exact hc.demands he role ho k

/-- What becomes of one unit.  An entry comes in along an edge that carries entries; along any other
it only meets the one that is there. -/
lemma getElem?_regs_join_eq (c o : Context) (edge : Edge) (r : Reg) :
    (c.join o edge).regs[r]? = match o.regs[r]? with
      | some x =>
        if edge.carriesEntries then some ((c.regs[r]?.getD .vacant).joinAlong x edge)
        else c.regs[r]?.map (·.joinAlong x edge)
      | none => c.regs[r]? := by
  rw [regs_join]
  cases hcarries : edge.carriesEntries <;> cases hlogical : edge.logical <;>
    simp only [Bool.false_eq_true, if_true, if_false, RegMap.getElem?_joinLanes,
      RegMap.getElem?_join] <;>
    cases c.regs[r]? <;> cases o.regs[r]? <;>
    simp [Entry.joinAlong, hcarries, hlogical, Entry.vacant_join]

/-- An entry of a join was there before, and it has met the one that comes in for the same unit.  If
entries come in, it can also be new. -/
lemma regs_join_eq_some {c o : Context} {edge : Edge} {r : Reg} {e : Entry}
    (h : (c.join o edge).regs[r]? = some e) :
    (o.regs[r]? = none ∧ c.regs[r]? = some e)
      ∨ ∃ x d : Entry, o.regs[r]? = some x ∧ e = d.joinAlong x edge
        ∧ (c.regs[r]? = some d ∨ edge.carriesEntries = true ∧ d = .vacant) := by
  rw [getElem?_regs_join_eq] at h
  cases hx : o.regs[r]? with
  | none =>
    rw [hx] at h
    exact .inl ⟨rfl, h⟩
  | some x =>
    rw [hx] at h
    dsimp only at h
    cases hd : c.regs[r]? with
    | none =>
      rw [hd] at h
      split at h
      · cases h
        exact .inr ⟨x, .vacant, rfl, rfl, .inr ⟨‹_›, rfl⟩⟩
      · cases h
    | some d =>
      rw [hd] at h
      refine .inr ⟨x, d, rfl, ?_, .inl rfl⟩
      split at h <;> cases h <;> rfl

lemma Absorbs.getElem?_regs_join {c o : Context} {edge : Edge} (h : c.Absorbs o edge) (r : Reg) :
    (c.join o edge).regs[r]? = c.regs[r]? := by
  rw [getElem?_regs_join_eq]
  cases hx : o.regs[r]? with
  | none => rfl
  | some x =>
    cases he : c.regs[r]? with
    | none =>
      -- An edge that carries entries has brought this one already.
      refine if_neg fun hcarries => ?_
      obtain ⟨e, he', -⟩ := h.entries hcarries r x hx
      rw [he] at he'
      cases he'
    | some e =>
      have hself : e.joinAlong x edge = e := by
        refine Entry.joinAlong_eq_self (fun hcarries => ?_) fun hlogical => h.lanes hlogical r x e hx he
        obtain ⟨e', he', hgrows⟩ := h.entries hcarries r x hx
        rw [he] at he'
        cases he'
        exact hgrows
      simp [hself]

/-- A join that absorbs everything gives the context back. -/
lemma agrees_join {c o : Context} {edge : Edge} (h : c.Absorbs o edge) :
    (c.join o edge).Agrees c := by
  have hor : ∀ a b : Bool, (b = true → a = true) → (a || b) = a := by decide
  refine ⟨?_, ?_, ?_, ?_, fun role k => ?_⟩
  · rw [nonzero_join, Flags.union_eq_self h.nonzero]
  · rw [flatLgkm_join, hor _ _ h.flatLgkm]
  · rw [flatVm_join, hor _ _ h.flatVm]
  · exact Std.ExtTreeMap.ext_getElem? fun r => h.getElem?_regs_join r
  · rw [barrier_join]
    split
    · rw [Barrier.demand_join]
      split
      · exact Demand.join_eq_self (h.demands ‹_› role ‹_› k)
      · rfl
    · rfl

/-! ### Growth -/

/-- `d` has all that `c` has. -/
structure Below (c d : Context) : Prop where
  nonzero : d.nonzero.lacks c.nonzero = false
  flatLgkm : c.flatLgkm = true → d.flatLgkm = true
  flatVm : c.flatVm = true → d.flatVm = true
  entries : ∀ (r : Reg) (x : Entry), c.regs[r]? = some x →
    ∃ e : Entry, d.regs[r]? = some e ∧ e.grows x = false
      ∧ e.laneEvents.lacks x.laneEvents = false
  demands : ∀ role k, ((d.barrier role).demand k).grows ((c.barrier role).demand k) = false

lemma Below.refl (c : Context) : c.Below c :=
  ⟨Flags.lacks_refl _, id, id,
    fun _ x hx => ⟨x, hx, Entry.grows_refl x, Flags.lacks_refl _⟩,
    fun _ _ => Demand.grows_refl _⟩

lemma Below.trans {c d e : Context} (hcd : c.Below d) (hde : d.Below e) : c.Below e := by
  refine ⟨Entry.lacks_trans hde.nonzero hcd.nonzero, fun h => hde.flatLgkm (hcd.flatLgkm h),
    fun h => hde.flatVm (hcd.flatVm h), fun r x hx => ?_,
    fun role k => Demand.grows_trans (hde.demands role k) (hcd.demands role k)⟩
  obtain ⟨y, hy, hyx, hyl⟩ := hcd.entries r x hx
  obtain ⟨z, hz, hzy, hzl⟩ := hde.entries r y hy
  exact ⟨z, hz, Entry.grows_trans hzy hyx, Entry.lacks_trans hzl hyl⟩

/-- The entry of a unit after a join, if it had one before. -/
lemma getElem?_regs_join {c o : Context} {edge : Edge} {r : Reg} {x : Entry}
    (h : c.regs[r]? = some x) :
    ∃ e : Entry, (c.join o edge).regs[r]? = some e ∧ e.grows x = false
      ∧ e.laneEvents.lacks x.laneEvents = false := by
  rw [getElem?_regs_join_eq, h]
  cases o.regs[r]? with
  | none => exact ⟨x, rfl, Entry.grows_refl x, Flags.lacks_refl _⟩
  | some z => exact ⟨x.joinAlong z edge, by simp, Entry.joinAlong_grows_left x z edge⟩

lemma below_join (c o : Context) (edge : Edge) : c.Below (c.join o edge) := by
  refine ⟨?_, fun h => ?_, fun h => ?_, fun r x hx => getElem?_regs_join hx, fun role k => ?_⟩
  · rw [nonzero_join]
    exact Flags.lacks_union_left (Flags.lacks_refl _) _
  · simp [flatLgkm_join, h]
  · simp [flatVm_join, h]
  · rw [barrier_join]
    split
    · rw [Barrier.demand_join]
      split
      · exact Demand.join_grows_left _ _
      · exact Demand.grows_refl _
    · exact Demand.grows_refl _

/-- A join absorbs what it has joined. -/
lemma absorbs_join (c o : Context) (edge : Edge) : (c.join o edge).Absorbs o edge := by
  refine ⟨?_, fun h => ?_, fun h => ?_, fun hc r x hx => ?_, fun hl r x e hx he => ?_,
    fun hl role ho k => ?_⟩
  · rw [nonzero_join]
    exact Flags.lacks_union_self _ _
  · simp [flatLgkm_join, h]
  · simp [flatVm_join, h]
  · rw [getElem?_regs_join_eq, hx]
    refine ⟨_, if_pos hc, ?_⟩
    rw [Entry.joinAlong_grows, if_pos hc]
    exact Entry.join_grows_right _ x
  · obtain ⟨hnone, -⟩ | ⟨x', d, hx', rfl, -⟩ := regs_join_eq_some he
    · rw [hnone] at hx
      cases hx
    · rw [hx'] at hx
      cases hx
      rw [Entry.laneEvents_joinAlong, if_pos hl]
      exact Flags.lacks_union_self _ _
  · rw [barrier_join, if_pos hl, Barrier.demand_join, if_pos ho]
    exact Demand.join_grows_right _ _

/-- What was absorbed stays absorbed, as long as no entry comes in whose lanes were passed over. -/
lemma Absorbs.mono {c d o : Context} {edge : Edge} (h : c.Absorbs o edge) (hb : c.Below d)
    (hkeys : edge.logical = true → ∀ (r : Reg) (x e : Entry), o.regs[r]? = some x →
      d.regs[r]? = some e → ∃ y : Entry, c.regs[r]? = some y) : d.Absorbs o edge := by
  refine ⟨Entry.lacks_trans hb.nonzero h.nonzero, fun ho => hb.flatLgkm (h.flatLgkm ho),
    fun ho => hb.flatVm (h.flatVm ho), fun hc r x hx => ?_, fun hl r x e hx he => ?_,
    fun hl role ho k => Demand.grows_trans (hb.demands role k) (h.demands hl role ho k)⟩
  · obtain ⟨y, hy, hyx⟩ := h.entries hc r x hx
    obtain ⟨z, hz, hzy, -⟩ := hb.entries r y hy
    exact ⟨z, hz, Entry.grows_trans hzy hyx⟩
  · obtain ⟨y, hy⟩ := hkeys hl r x e hx he
    obtain ⟨z, hz, -, hzl⟩ := hb.entries r y hy
    rw [he] at hz
    cases hz
    exact Entry.lacks_trans hzl (h.lanes hl r x y hx hy)

/-- A join along an edge that carries no entries keeps the units that have one. -/
lemma getElem?_of_join {c o : Context} {edge : Edge} (h : edge.carriesEntries = false) {r : Reg}
    {e : Entry} (he : (c.join o edge).regs[r]? = some e) : ∃ y : Entry, c.regs[r]? = some y := by
  obtain ⟨-, hy⟩ | ⟨_, y, -, -, hy | ⟨hcarries, -⟩⟩ := regs_join_eq_some he
  · exact ⟨e, hy⟩
  · exact ⟨y, hy⟩
  · rw [h] at hcarries
    cases hcarries

end Context

/-! ### The edges into a block -/

namespace Sweep

lemma joinEdges_cons {nodes : List Node} {pred : Nat} {edge : Context.Edge}
    {rest : List (Nat × Context.Edge)} {c c' : Context} {grew : Bool} :
    joinEdges nodes ((pred, edge) :: rest) c = .ok (c', grew) ↔
      ∃ node more, nodes[pred]? = some node
        ∧ joinEdges nodes rest (c.join node.exit edge) = .ok (c', more)
        ∧ grew = (c.grows node.exit edge || more) := by
  rw [joinEdges]
  cases nodes[pred]? with
  | none => simp
  | some node =>
    cases hr : joinEdges nodes rest (c.join node.exit edge) with
    | error f => simp [hr, bind, Except.bind]
    | ok joined =>
      obtain ⟨joined, more⟩ := joined
      simp only [hr, bind, Except.bind, pure, Except.pure, Except.ok.injEq, Prod.mk.injEq,
        Option.some.injEq]
      constructor
      · rintro ⟨rfl, rfl⟩
        exact ⟨node, more, rfl, hr, rfl⟩
      · rintro ⟨_, _, rfl, hr', rfl⟩
        cases hr.symm.trans hr'
        exact ⟨rfl, rfl⟩

/-- No edge is left out if all predecessors exist. -/
lemma joinEdges_total {nodes : List Node} {edges : List (Nat × Context.Edge)}
    (h : ∀ e ∈ edges, e.1 < nodes.length) (c : Context) :
    ∃ r, joinEdges nodes edges c = .ok r := by
  induction edges generalizing c with
  | nil => exact ⟨_, rfl⟩
  | cons e rest ih =>
    obtain ⟨pred, edge⟩ := e
    obtain ⟨node, hnode⟩ : ∃ node, nodes[pred]? = some node :=
      ⟨_, List.getElem?_eq_getElem (h (pred, edge) (by simp))⟩
    obtain ⟨⟨c', more⟩, hrest⟩ :=
      ih (fun e he => h e (List.mem_cons_of_mem _ he)) (c.join node.exit edge)
    exact ⟨_, joinEdges_cons.2 ⟨node, more, hnode, hrest, rfl⟩⟩

lemma joinEdges_below {nodes : List Node} {edges : List (Nat × Context.Edge)} {c c' : Context}
    {grew : Bool} (h : joinEdges nodes edges c = .ok (c', grew)) : c.Below c' := by
  induction edges generalizing c grew with
  | nil =>
    simp only [joinEdges, Except.ok.injEq, Prod.mk.injEq] at h
    exact h.1 ▸ .refl c
  | cons e rest ih =>
    obtain ⟨node, more, -, hrest, -⟩ := joinEdges_cons.1 h
    exact (Context.below_join c node.exit e.2).trans (ih hrest)

/-- A quiet round over the edges gives the context back. -/
lemma joinEdges_agrees {nodes : List Node} {edges : List (Nat × Context.Edge)} {c c' : Context}
    (h : joinEdges nodes edges c = .ok (c', false)) : c'.Agrees c := by
  induction edges generalizing c with
  | nil =>
    simp only [joinEdges, Except.ok.injEq, Prod.mk.injEq] at h
    exact h.1 ▸ .refl c
  | cons e rest ih =>
    obtain ⟨node, more, -, hrest, hgrew⟩ := joinEdges_cons.1 h
    obtain ⟨hquiet, rfl⟩ := Bool.or_eq_false_iff.1 hgrew.symm
    exact (ih hrest).trans (Context.agrees_join (Context.grows_eq_false_iff.1 hquiet))

lemma joinEdges_keys {nodes : List Node} {edges : List (Nat × Context.Edge)} {c c' : Context}
    {grew : Bool} (h : joinEdges nodes edges c = .ok (c', grew))
    (hno : ∀ e ∈ edges, e.2.carriesEntries = false) {r : Reg} {e : Entry}
    (he : c'.regs[r]? = some e) : ∃ y : Entry, c.regs[r]? = some y := by
  induction edges generalizing c grew with
  | nil =>
    simp only [joinEdges, Except.ok.injEq, Prod.mk.injEq] at h
    exact ⟨e, h.1 ▸ he⟩
  | cons d rest ih =>
    obtain ⟨node, more, -, hrest, -⟩ := joinEdges_cons.1 h
    obtain ⟨y, hy⟩ := ih hrest fun e he => hno e (List.mem_cons_of_mem _ he)
    exact Context.getElem?_of_join (hno d (by simp)) hy

/-- Behind an edge that brings lanes for the entries that are there, no edge brings new entries. -/
def LanesLast (edges : List (Nat × Context.Edge)) : Prop :=
  edges.Pairwise fun d e => d.2.logical = true →
    d.2.carriesEntries = true ∨ e.2.carriesEntries = false

/-- After all edges have been joined, each of them is absorbed. -/
theorem joinEdges_absorbs {nodes : List Node} {edges : List (Nat × Context.Edge)} {c c' : Context}
    {grew : Bool} (hlast : LanesLast edges) (h : joinEdges nodes edges c = .ok (c', grew)) :
    ∀ e ∈ edges, ∃ node, nodes[e.1]? = some node ∧ c'.Absorbs node.exit e.2 := by
  induction edges generalizing c grew with
  | nil => simp
  | cons d rest ih =>
    obtain ⟨node, more, hnode, hrest, -⟩ := joinEdges_cons.1 h
    obtain ⟨hd, hlast⟩ := List.pairwise_cons.1 hlast
    intro e he
    rcases List.mem_cons.1 he with rfl | he
    · have habs := Context.absorbs_join c node.exit e.2
      refine ⟨node, hnode, habs.mono (joinEdges_below hrest) fun hl r x z hx hz => ?_⟩
      -- Either the edge has brought its entries itself, or no later one brings any.
      by_cases hc : e.2.carriesEntries = true
      · obtain ⟨y, hy, -⟩ := habs.entries hc r x hx
        exact ⟨y, hy⟩
      · exact joinEdges_keys hrest (fun f hf => (hd f hf hl).resolve_left hc) hz
    · exact ih hlast hrest e he

end Sweep

lemma Block.lanesLast_edges (b : Block) : Sweep.LanesLast b.edges := by
  simp only [Sweep.LanesLast, edges, List.pairwise_append, List.pairwise_map, List.mem_map]
  refine ⟨List.pairwise_of_forall fun _ _ h => (by cases h), List.pairwise_of_forall fun _ _ _ => ?_,
    ?_⟩
  · cases hm : b.mergesLanes <;> simp [Context.Edge.carriesEntries]
  · rintro _ ⟨_, _, rfl⟩ _ _ h
    cases h

end GpuWaits
