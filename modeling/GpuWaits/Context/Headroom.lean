/-
# How far a context can grow

Joins only ever make a context larger, and there is a bound on how large it can get.  The headroom of
a context measures what is left: a join never raises it (`Context.headroom_join_le`), and a join that
changes the context lowers it (`Context.headroom_join_lt`).  This is why the sweep over the blocks
ends.
-/
import GpuWaits.Context

namespace GpuWaits

/-! ### Sums over lists -/

section Sums

variable {α : Type}

/-- The sum of `f` over a list. -/
def total (f : α → Nat) : List α → Nat
  | [] => 0
  | a :: l => f a + total f l

theorem total_le {l : List α} {f g : α → Nat} (h : ∀ a ∈ l, f a ≤ g a) : total f l ≤ total g l := by
  induction l with
  | nil => exact Nat.le_refl _
  | cons a l ih =>
    have ha := h a (by simp)
    have hl := ih fun b hb => h b (by simp [hb])
    simp only [total]
    omega

theorem total_lt {l : List α} {f g : α → Nat} (h : ∀ a ∈ l, f a ≤ g a) {a : α} (ha : a ∈ l)
    (hlt : f a < g a) : total f l < total g l := by
  induction l with
  | nil => simp at ha
  | cons b l ih =>
    have hb := h b (by simp)
    have hl : ∀ c ∈ l, f c ≤ g c := fun c hc => h c (by simp [hc])
    simp only [total]
    rcases List.mem_cons.1 ha with rfl | ha
    · have := total_le hl
      omega
    · have := ih hl ha
      omega

theorem total_set {l : List α} {f : α → Nat} {i : Nat} {a b : α} (h : l[i]? = some a) :
    total f (l.set i b) + f a = total f l + f b := by
  induction l generalizing i with
  | nil => simp at h
  | cons c l ih =>
    cases i with
    | zero =>
      simp only [List.getElem?_cons_zero, Option.some.injEq] at h
      subst h
      simp only [List.set_cons_zero, total]
      omega
    | succ i =>
      simp only [List.getElem?_cons_succ] at h
      simp only [List.set_cons_succ, total]
      have := ih h
      omega

end Sums

/-! ### Sets of flags -/

namespace Flags

variable {α : Type} {w : Nat}

/-- The bits that are missing in a set, as a number. -/
def headroom (s : Flags α w) : Nat := (~~~s.bits).toNat

theorem headroom_le (s : Flags α w) : s.headroom ≤ (∅ : Flags α w).headroom := by
  simp only [headroom, EmptyCollection.emptyCollection, BitVec.toNat_not, BitVec.toNat_zero]
  omega

theorem toNat_union (s t : Flags α w) : (s ∪ t).bits.toNat = s.bits.toNat ||| t.bits.toNat :=
  BitVec.toNat_or _ _

theorem headroom_union_le (s t : Flags α w) : (s ∪ t).headroom ≤ s.headroom := by
  have h : s.bits.toNat ≤ s.bits.toNat ||| t.bits.toNat := Nat.left_le_or
  simp only [headroom, BitVec.toNat_not, toNat_union]
  omega

theorem union_ne_of_lacks {s t : Flags α w} (h : s.lacks t = true) :
    s.bits ||| t.bits ≠ s.bits := by
  intro heq
  have hz : t.bits &&& ~~~s.bits = 0#w := by
    rw [← heq]
    apply BitVec.eq_of_getLsbD_eq
    intro i hi
    simp only [BitVec.getLsbD_and, BitVec.getLsbD_not, BitVec.getLsbD_or, BitVec.getLsbD_zero]
    cases t.bits.getLsbD i <;> simp
  simp [lacks, isEmpty, SDiff.sdiff, hz] at h

theorem headroom_union_lt {s t : Flags α w} (h : s.lacks t = true) :
    (s ∪ t).headroom < s.headroom := by
  have hle : s.bits.toNat ≤ s.bits.toNat ||| t.bits.toNat := Nat.left_le_or
  have hne : s.bits.toNat ||| t.bits.toNat ≠ s.bits.toNat := fun heq =>
    union_ne_of_lacks h (BitVec.eq_of_toNat_eq (by rw [BitVec.toNat_or]; exact heq))
  have hlt := (s ∪ t).bits.isLt
  rw [toNat_union] at hlt
  simp only [headroom, BitVec.toNat_not, toNat_union]
  omega

end Flags

/-! ### Conditions -/

theorem headroom_or_le (a b : Bool) : (!(a || b)).toNat ≤ (!a).toNat := by
  cases a <;> cases b <;> decide

theorem headroom_or_lt {a b : Bool} (h : (b && !a) = true) : (!(a || b)).toNat < (!a).toNat := by
  cases a <;> cases b <;> revert h <;> decide

/-! ### Waits -/

namespace Wait

theorem toNat_min (a b : UInt16) : (min a b).toNat = min a.toNat b.toNat := by
  simp only [min, UInt16.le_iff_toNat_le]
  split <;> rfl

/-- The sum of all targets. -/
def headroom (w : Wait) : Nat := total (fun c => (w.get c).toNat) Counter.all

theorem headroom_le (w : Wait) : w.headroom ≤ none.headroom :=
  total_le fun c _ => by
    have := (w.get c).toNat_lt
    rw [get_none]
    exact Nat.le_of_lt_succ this

theorem headroom_both_le (v w : Wait) : (v.both w).headroom ≤ v.headroom :=
  total_le fun c _ => by
    simp only [get_both, toNat_min]
    exact Nat.min_le_left _ _

theorem headroom_both_lt {v w : Wait} (h : w.exceeds v = true) :
    (v.both w).headroom < v.headroom := by
  obtain ⟨c, hc, hlt⟩ := List.any_eq_true.1 h
  refine total_lt (fun d _ => ?_) hc ?_
  · simp only [get_both, toNat_min]
    exact Nat.min_le_left _ _
  · have := UInt16.lt_iff_toNat_lt.1 (of_decide_eq_true hlt)
    simp only [get_both, toNat_min]
    omega

end Wait

/-! ### Entries -/

namespace Entry

/-- How much an entry can grow. -/
def headroom (e : Entry) : Nat :=
  e.wait.headroom + e.events.headroom + e.laneEvents.headroom + e.counters.headroom
    + (!e.blocksReads).toNat + e.vmemTypes.headroom + e.halves.headroom

/-- The entry of no access at all. -/
def vacant : Entry where
  wait := .none
  events := ∅
  laneEvents := ∅
  counters := ∅
  blocksReads := false

theorem headroom_le (e : Entry) : e.headroom ≤ vacant.headroom := by
  have h₁ := e.wait.headroom_le
  have h₂ := e.events.headroom_le
  have h₃ := e.laneEvents.headroom_le
  have h₄ := e.counters.headroom_le
  have h₅ := e.vmemTypes.headroom_le
  have h₆ := e.halves.headroom_le
  have h₇ : (!e.blocksReads).toNat ≤ (!false).toNat := Bool.toNat_le _
  simp only [headroom, vacant]
  omega

theorem headroom_join_le (e other : Entry) : (e.join other).headroom ≤ e.headroom := by
  have h₁ := e.wait.headroom_both_le other.wait
  have h₂ := e.events.headroom_union_le other.events
  have h₃ := e.counters.headroom_union_le other.counters
  have h₄ := e.vmemTypes.headroom_union_le other.vmemTypes
  have h₅ := e.halves.headroom_union_le other.halves
  have h₆ := headroom_or_le e.blocksReads other.blocksReads
  simp only [headroom, join]
  omega

theorem headroom_join_lt {e other : Entry} (h : e.grows other = true) :
    (e.join other).headroom < e.headroom := by
  have h₁ := e.wait.headroom_both_le other.wait
  have h₂ := e.events.headroom_union_le other.events
  have h₃ := e.counters.headroom_union_le other.counters
  have h₄ := e.vmemTypes.headroom_union_le other.vmemTypes
  have h₅ := e.halves.headroom_union_le other.halves
  have h₆ := headroom_or_le e.blocksReads other.blocksReads
  simp only [grows, Bool.or_eq_true] at h
  simp only [headroom, join]
  rcases h with ((((h | h) | h) | h) | h) | h
  · have := Flags.headroom_union_lt h
    omega
  · have := Flags.headroom_union_lt h
    omega
  · have := headroom_or_lt h
    omega
  · have := Flags.headroom_union_lt h
    omega
  · have := Flags.headroom_union_lt h
    omega
  · have := Wait.headroom_both_lt h
    omega

theorem headroom_addLanes_le (e : Entry) (events : EventSet) :
    (e.addLanes events).headroom ≤ e.headroom := by
  have := e.laneEvents.headroom_union_le events
  simp only [headroom, addLanes]
  omega

theorem headroom_addLanes_lt {e : Entry} {events : EventSet}
    (h : e.laneEvents.lacks events = true) : (e.addLanes events).headroom < e.headroom := by
  have := Flags.headroom_union_lt h
  simp only [headroom, addLanes]
  omega

end Entry

/-! ### Maps of entries -/

namespace RegMap

theorem getElem?_join (m other : RegMap) (r : Reg) :
    (m.join other)[r]? = match m[r]?, other[r]? with
      | some e, some o => some (e.join o)
      | some e, none => some e
      | none, some o => some { o with laneEvents := ∅ }
      | none, none => none := by
  simp only [join, Std.ExtTreeMap.getElem?_union, Std.ExtTreeMap.getElem?_map]
  cases m[r]? <;> cases other[r]? <;> simp

theorem getElem?_joinLanes (m other : RegMap) (r : Reg) :
    (m.joinLanes other)[r]? = match m[r]?, other[r]? with
      | some e, some o => some (e.addLanes o.laneEvents)
      | some e, none => some e
      | none, _ => none := by
  simp only [joinLanes, Std.ExtTreeMap.getElem?_map]
  cases m[r]? <;> cases other[r]? <;> simp

/-- How much the accesses of one unit can grow.  A unit without an entry can still get one. -/
def unitHeadroom : Option Entry → Nat
  | some e => e.headroom
  | none => Entry.vacant.headroom + 1

/-- Every register unit. -/
def allUnits : List Reg := (List.range UInt16.size).map fun n => ⟨.ofNat n⟩

theorem mem_allUnits (r : Reg) : r ∈ allUnits := by
  refine List.mem_map.2 ⟨r.unit.toNat, List.mem_range.2 r.unit.toNat_lt, ?_⟩
  cases r
  simp

/-- How much a map can grow. -/
def headroom (m : RegMap) : Nat := total (fun r => unitHeadroom m[r]?) allUnits

theorem unitHeadroom_join_le (m other : RegMap) (r : Reg) :
    unitHeadroom (m.join other)[r]? ≤ unitHeadroom m[r]? := by
  rw [getElem?_join]
  cases m[r]? <;> cases other[r]? <;> simp only [unitHeadroom, Nat.le_refl]
  · exact Nat.le_succ_of_le (Entry.headroom_le _)
  · exact Entry.headroom_join_le _ _

theorem unitHeadroom_joinLanes_le (m other : RegMap) (r : Reg) :
    unitHeadroom (m.joinLanes other)[r]? ≤ unitHeadroom m[r]? := by
  rw [getElem?_joinLanes]
  cases m[r]? <;> cases other[r]? <;> simp only [unitHeadroom, Nat.le_refl]
  exact Entry.headroom_addLanes_le _ _

theorem headroom_join_le (m other : RegMap) : (m.join other).headroom ≤ m.headroom :=
  total_le fun r _ => unitHeadroom_join_le m other r

theorem headroom_joinLanes_le (m other : RegMap) : (m.joinLanes other).headroom ≤ m.headroom :=
  total_le fun r _ => unitHeadroom_joinLanes_le m other r

theorem headroom_join_lt {m other : RegMap} (h : m.grows other = true) :
    (m.join other).headroom < m.headroom := by
  obtain ⟨⟨r, o⟩, hmem, hr⟩ := List.any_eq_true.1 h
  have ho : other[r]? = some o := Std.ExtTreeMap.mem_toList_iff_getElem?_eq_some.1 hmem
  refine total_lt (fun r _ => unitHeadroom_join_le m other r) (mem_allUnits r) ?_
  rw [getElem?_join, ho]
  dsimp only at hr
  cases hm : m[r]? with
  | none => exact Nat.lt_succ_of_le (Entry.headroom_le _)
  | some e =>
    rw [hm] at hr
    exact Entry.headroom_join_lt hr

/-- Lanes that are missing before a join of entries are missing after it. -/
theorem lanesGrow_join {m other : RegMap} (h : m.lanesGrow other = true) :
    (m.join other).lanesGrow other = true := by
  obtain ⟨⟨r, o⟩, hmem, hr⟩ := List.any_eq_true.1 h
  refine List.any_eq_true.2 ⟨(r, o), hmem, ?_⟩
  have ho : other[r]? = some o := Std.ExtTreeMap.mem_toList_iff_getElem?_eq_some.1 hmem
  dsimp only at hr ⊢
  rw [getElem?_join, ho]
  cases hm : m[r]? with
  | none => simp [hm] at hr
  | some e =>
    rw [hm] at hr
    exact hr

theorem headroom_joinLanes_lt {m other : RegMap} (h : m.lanesGrow other = true) :
    (m.joinLanes other).headroom < m.headroom := by
  obtain ⟨⟨r, o⟩, hmem, hr⟩ := List.any_eq_true.1 h
  have ho : other[r]? = some o := Std.ExtTreeMap.mem_toList_iff_getElem?_eq_some.1 hmem
  refine total_lt (fun r _ => unitHeadroom_joinLanes_le m other r) (mem_allUnits r) ?_
  rw [getElem?_joinLanes, ho]
  dsimp only at hr
  cases hm : m[r]? with
  | none => simp [hm] at hr
  | some e =>
    rw [hm] at hr
    exact Entry.headroom_addLanes_lt hr

end RegMap

/-! ### Barriers -/

namespace Demand

/-- How much a demand can grow. -/
def headroom (d : Demand) : Nat := d.wait.headroom + d.events.headroom + (4 - d.scope.width)

theorem width_widest (a b : Scope) : (a.widest b).width = max a.width b.width := by
  cases a <;> cases b <;> decide

theorem width_le (a : Scope) : a.width ≤ 4 := by
  cases a <;> decide

theorem headroom_join_le (d other : Demand) : (d.join other).headroom ≤ d.headroom := by
  have h₁ := d.wait.headroom_both_le other.wait
  have h₂ := d.events.headroom_union_le other.events
  simp only [headroom, join, width_widest]
  omega

theorem headroom_join_lt {d other : Demand} (h : d.grows other = true) :
    (d.join other).headroom < d.headroom := by
  have h₁ := d.wait.headroom_both_le other.wait
  have h₂ := d.events.headroom_union_le other.events
  have h₃ := width_le other.scope
  simp only [grows, Bool.or_eq_true, decide_eq_true_eq] at h
  simp only [headroom, join, width_widest]
  rcases h with (h | h) | h
  · have := Wait.headroom_both_lt h
    omega
  · have := Flags.headroom_union_lt h
    omega
  · have : d.scope.width < other.scope.width := h
    omega

end Demand

namespace Barrier

/-- How much the demands of a barrier can grow. -/
def headroom (b : Barrier) : Nat := total (fun s => (b.demand s).headroom) Storage.all

theorem demand_join (b other : Barrier) (s : Storage) :
    (b.join other).demand s = if other.live then (b.demand s).join (other.demand s) else b.demand s := by
  simp only [join]
  split <;> simp [demand]

theorem headroom_join_le (b other : Barrier) : (b.join other).headroom ≤ b.headroom :=
  total_le fun s _ => by
    rw [demand_join]
    split
    · exact Demand.headroom_join_le _ _
    · exact Nat.le_refl _

theorem headroom_join_lt {b other : Barrier} (h : b.grows other = true) :
    (b.join other).headroom < b.headroom := by
  simp only [grows, Bool.and_eq_true] at h
  obtain ⟨s, hs, hg⟩ := List.any_eq_true.1 h.2
  refine total_lt (fun s _ => ?_) hs ?_
  · rw [demand_join]
    split
    · exact Demand.headroom_join_le _ _
    · exact Nat.le_refl _
  · rw [demand_join, if_pos h.1]
    exact Demand.headroom_join_lt hg

end Barrier

/-! ### Contexts -/

namespace Context

/-- How much a context can grow. -/
def headroom (c : Context) : Nat :=
  c.nonzero.headroom + (!c.flatLgkm).toNat + (!c.flatVm).toNat
    + c.regs.headroom + total (fun role => (c.barrier role).headroom) BarrierRole.all

theorem barrier_join (c other : Context) (edge : Edge) (role : BarrierRole) :
    (c.join other edge).barrier role
      = if edge.logical then (c.barrier role).join (other.barrier role) else c.barrier role := by
  simp only [join]
  split <;> cases role <;> rfl

theorem regs_join (c other : Context) (edge : Edge) :
    (c.join other edge).regs
      = (fun regs => if edge.logical then regs.joinLanes other.regs else regs)
        (if edge.carriesEntries then c.regs.join other.regs else c.regs) := by
  simp only [join]
  split <;> rfl

theorem headroom_regs_join_le (c other : Context) (edge : Edge) :
    (c.join other edge).regs.headroom ≤ c.regs.headroom := by
  have h₁ := c.regs.headroom_join_le other.regs
  have h₂ := c.regs.headroom_joinLanes_le other.regs
  have h₃ := (c.regs.join other.regs).headroom_joinLanes_le other.regs
  rw [regs_join]
  dsimp only
  split <;> split <;> omega

theorem headroom_barriers_join_le (c other : Context) (edge : Edge) (role : BarrierRole) :
    ((c.join other edge).barrier role).headroom ≤ (c.barrier role).headroom := by
  rw [barrier_join]
  split
  · exact Barrier.headroom_join_le _ _
  · exact Nat.le_refl _

theorem nonzero_join (c other : Context) (edge : Edge) :
    (c.join other edge).nonzero = c.nonzero ∪ other.nonzero := by
  simp only [join]
  split <;> rfl

theorem flatLgkm_join (c other : Context) (edge : Edge) :
    (c.join other edge).flatLgkm = (c.flatLgkm || other.flatLgkm) := by
  simp only [join]
  split <;> rfl

theorem flatVm_join (c other : Context) (edge : Edge) :
    (c.join other edge).flatVm = (c.flatVm || other.flatVm) := by
  simp only [join]
  split <;> rfl

/-- Joining does not make room. -/
theorem headroom_join_le (c other : Context) (edge : Edge) :
    (c.join other edge).headroom ≤ c.headroom := by
  have h₁ := c.nonzero.headroom_union_le other.nonzero
  have h₂ := headroom_or_le c.flatLgkm other.flatLgkm
  have h₃ := headroom_or_le c.flatVm other.flatVm
  have h₄ := c.headroom_regs_join_le other edge
  have h₅ : total (fun role => ((c.join other edge).barrier role).headroom) BarrierRole.all
      ≤ total (fun role => (c.barrier role).headroom) BarrierRole.all :=
    total_le fun role _ => c.headroom_barriers_join_le other edge role
  simp only [headroom, nonzero_join, flatLgkm_join, flatVm_join]
  omega

/-- A join that is reported as a change takes room away. -/
theorem headroom_join_lt {c other : Context} {edge : Edge} (h : c.grows other edge = true) :
    (c.join other edge).headroom < c.headroom := by
  have h₁ := c.nonzero.headroom_union_le other.nonzero
  have h₂ := headroom_or_le c.flatLgkm other.flatLgkm
  have h₃ := headroom_or_le c.flatVm other.flatVm
  have h₄ := c.headroom_regs_join_le other edge
  have h₅ : total (fun role => ((c.join other edge).barrier role).headroom) BarrierRole.all
      ≤ total (fun role => (c.barrier role).headroom) BarrierRole.all :=
    total_le fun role _ => c.headroom_barriers_join_le other edge role
  simp only [headroom, nonzero_join, flatLgkm_join, flatVm_join]
  simp only [grows, Bool.or_eq_true] at h
  rcases h with (((h | h) | h) | h) | h
  · have := Flags.headroom_union_lt h
    omega
  · have := headroom_or_lt h
    omega
  · have := headroom_or_lt h
    omega
  · obtain ⟨hc, hg⟩ := Bool.and_eq_true_iff.1 h
    have hlt := RegMap.headroom_join_lt hg
    have hle := (c.regs.join other.regs).headroom_joinLanes_le other.regs
    have : (c.join other edge).regs.headroom < c.regs.headroom := by
      rw [regs_join, if_pos hc]
      dsimp only
      split <;> omega
    omega
  · obtain ⟨hl, hg⟩ := Bool.and_eq_true_iff.1 h
    rcases Bool.or_eq_true_iff.1 hg with hg | hg
    · have : (c.join other edge).regs.headroom < c.regs.headroom := by
        have hle := c.regs.headroom_join_le other.regs
        have hlt := RegMap.headroom_joinLanes_lt hg
        have hlt' := RegMap.headroom_joinLanes_lt (RegMap.lanesGrow_join hg)
        rw [regs_join]
        dsimp only
        rw [if_pos hl]
        split <;> omega
      omega
    · obtain ⟨role, hr, hg⟩ := List.any_eq_true.1 hg
      have : total (fun role => ((c.join other edge).barrier role).headroom) BarrierRole.all
          < total (fun role => (c.barrier role).headroom) BarrierRole.all := by
        refine total_lt (fun role _ => c.headroom_barriers_join_le other edge role) hr ?_
        rw [barrier_join, if_pos hl]
        exact Barrier.headroom_join_lt hg
      omega

end Context

end GpuWaits
