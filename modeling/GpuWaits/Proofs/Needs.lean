/-
# What an instruction waits for

An instruction waits for the registers that it uses, for the counters that it wants drained and for the
barriers that it pays.  A wait that has been carried out may satisfy all of this (`Context.Satisfied`).
Then nothing is added to the queue (`Context.await_of_satisfied`).

A wait that satisfies an instruction in some context satisfies it in every context with fewer accesses
(`Context.Satisfied.mono`).  Not all of the order of contexts is needed for that: where the wait reaches the
targets of the larger context, it has to reach those of the smaller one (`Context.Within`).  A wait for
nothing reaches no target, so that an instruction which need not wait at all need not have waited earlier
on either, before other instructions have issued (`Context.Tidy.within_start`).
-/
import GpuWaits.Proofs.Monotone

namespace GpuWaits

/-- Where the wait `u` is strong enough for the target of `v`, it is so for that of `w`. -/
def Wait.Reaches (u v w : Wait) : Prop := ∀ c, u.get c ≤ v.get c → u.get c ≤ w.get c

namespace Wait

variable {u v w : Wait}

lemma Reaches.of_le (h : v ≤ w) (u : Wait) : u.Reaches v w := fun c hc => UInt16.le_trans hc (h c)

lemma Reaches.trans {x : Wait} (h : u.Reaches v w) (h' : u.Reaches w x) : u.Reaches v x :=
  fun c hc => h' c (h c hc)

lemma Reaches.le (h : u.Reaches v w) (hv : u ≤ v) : u ≤ w := fun c => h c (hv c)

lemma Reaches.both {v' w' : Wait} (h : u.Reaches v w) (h' : u.Reaches v' w') :
    u.Reaches (v.both v') (w.both w') := by
  intro c hc
  have hv := UInt16.le_trans hc (both_le_left v v' c)
  have hv' := UInt16.le_trans hc (both_le_right v v' c)
  exact le_get_both (h c hv) (h' c hv')

/-- No wait at all is strong enough for the targets that are not set. -/
lemma reaches_none (h : ∀ c, w.isSet c = true → v.isSet c = true) : none.Reaches v w := by
  intro c hc
  by_cases hset : w.isSet c = true
  · have hlt := UInt16.lt_iff_toNat_lt.1 (get_lt_of_isSet (h c hset))
    rw [get_none] at hc
    exact absurd (UInt16.le_iff_toNat_le.1 hc) (by omega)
  · rw [show w.get c = unset by simpa [isSet] using hset]
    exact le_unset _

/-- Draining fewer counters is a weaker wait. -/
lemma drain_le_drain {cs ds : CounterSet} (h : ∀ c ∈ cs, c ∈ ds) : drain ds ≤ drain cs := by
  intro c
  rw [get_drain, get_drain]
  split
  · exact UInt16.le_iff_toNat_le.2 (Nat.zero_le _)
  · rw [if_neg (fun hc => ‹c ∉ ds› (h c hc))]
    exact UInt16.le_refl _

end Wait

/-! ### Registers -/

/-- A half that is not in a set is not in a smaller one. -/
lemma Flags.meets_eq_false_of_lacks {α : Type} [Flag α] {n : Nat} {s t u : Flags α n}
    (h : t.lacks u = false) (hs : s.meets t = false) : s.meets u = false := by
  rw [Flags.meets, Bool.not_eq_false', Flags.isEmpty_iff_bit] at hs ⊢
  intro i
  have hi := hs i
  simp only [Inter.inter, BitVec.getLsbD_and, Bool.and_eq_false_iff] at hi ⊢
  refine hi.imp id fun ht => ?_
  rw [Bool.eq_false_iff] at ht ⊢
  exact fun hu => ht (Flags.lacks_eq_false_iff.1 h i hu)

namespace Entry

variable {g : Generation} {s : Setting} {i : Instruction} {x e : Entry} {r : Reg} {j : Nat}
  {c : Counter} {u : Wait}

/-- Some access on the counter `c` matters for an instruction of the current logical path. -/
def Matters (e : Entry) (g : Generation) (c : Counter) : Prop :=
  c ∈ e.counters ∩ g.countersOf (e.events ∩
    if .gfx11 ≤ g then e.laneEvents ∪ .wholeRegister else e.laneEvents)

lemma Matters.mono (h : x.Matters g c) (hx : x.Among e) : e.Matters g c := by
  rw [Matters, Flags.mem_inter, Generation.mem_countersOf] at h ⊢
  obtain ⟨hc, ev, hev, hcount⟩ := h
  refine ⟨hx.counters c hc, ev, ?_, hcount⟩
  rw [Flags.mem_inter] at hev ⊢
  refine ⟨hx.events ev hev.1, ?_⟩
  split
  · rw [if_pos ‹_›, Flags.mem_union] at hev
    exact (Flags.mem_union _ _ _).2 (hev.2.imp (hx.lanes ev) id)
  · rw [if_neg ‹_›] at hev
    exact hx.lanes ev hev.2

lemma get_waitFor_cases (e : Entry) (g : Generation) (r : Reg) (c : Counter) :
    (r.isVector = true → e.Matters g c) ∧ (e.waitFor g r).get c = e.wait.get c
      ∨ r.isVector = true ∧ ¬e.Matters g c ∧ (e.waitFor g r).get c = Wait.unset := by
  rw [waitFor]
  split
  · rename_i hvec
    dsimp only
    rw [Wait.get_only]
    by_cases hm : e.Matters g c
    · exact .inl ⟨fun _ => hm, if_pos hm⟩
    · exact .inr ⟨hvec, hm, if_neg hm⟩
  · rename_i hvec
    exact .inl ⟨fun h => absurd h hvec, rfl⟩

lemma Among.reaches_waitFor (h : x.Among e) (hu : u.Reaches e.wait x.wait) (g : Generation) (r : Reg) :
    u.Reaches (e.waitFor g r) (x.waitFor g r) := by
  intro c hc
  rcases x.get_waitFor_cases g r c with ⟨hx, hget⟩ | ⟨-, -, hget⟩
  · rw [hget]
    rcases e.get_waitFor_cases g r c with ⟨-, hget'⟩ | ⟨hvec, hno, -⟩
    · rw [hget'] at hc
      exact hu c hc
    · exact absurd ((hx hvec).mono h) hno
  · rw [hget]
    exact Wait.le_unset _

/-- The accesses of the entry on the counter `c` do not keep a load from vector memory waiting. -/
def Yields (e : Entry) (s : Setting) (i : Instruction) (type : VmemType) (j : Nat) (c : Counter) :
    Prop :=
  e.events ∩ s.generation.eventsOn c = {i.vmemEvent s (some type)}
      ∧ ((c ≠ .vm ∨ e.vmemTypes = {type}) ∧ s.generation < .gfx12
        ∨ i.vmemEvent s (some type) = .vmem
          ∧ (HalfSet.ofWord (i.loadedHalves s) j).meets e.halves = false)
    ∨ e.laneEvents ∩ s.generation.eventsOn c = ∅

lemma permitsLoad_cases {type : VmemType} {p : Option Counter}
    (h : e.permitsLoad s i type j = .ok p) :
    ∃ c, s.generation.counter? (i.vmemEvent s (some type)) = some c
      ∧ (p = some c ∧ e.Yields s i type j c ∨ p = none ∧ ¬e.Yields s i type j c) := by
  simp only [permitsLoad, bind_eq_ok] at h
  obtain ⟨c, hc, h⟩ := h
  refine ⟨c, Generation.counter?_of_counterOf hc, ?_⟩
  have hyields : ∀ b : Bool, (b = true ↔ e.Yields s i type j c) →
      (if b = true then some c else none) = p →
        p = some c ∧ e.Yields s i type j c ∨ p = none ∧ ¬e.Yields s i type j c := by
    intro b hb hp
    split at hp
    · exact .inl ⟨hp.symm, hb.1 ‹_›⟩
    · exact .inr ⟨hp.symm, fun hy => ‹¬b = true› (hb.2 hy)⟩
  split at h
  · rename_i hvmem
    split at h
    · cases h
    · simp only [pure_eq_ok] at h
      refine hyields _ ?_ h
      have hsame := beq_iff_eq.1 hvmem.2
      simp only [Yields, hsame, hvmem.1, BEq.rfl, Bool.true_and, Bool.or_eq_true, Bool.and_eq_true,
        bne_iff_ne, ne_eq, beq_iff_eq, decide_eq_true_eq, Bool.not_eq_true', true_and]
  · rename_i hvmem
    simp only [pure_eq_ok] at h
    refine hyields _ ?_ h
    simp only [Yields, Bool.or_eq_true, Bool.and_eq_true, bne_iff_ne, ne_eq, beq_iff_eq,
      decide_eq_true_eq]
    rw [beq_iff_eq] at hvmem
    constructor
    · rintro (⟨⟨hsame, htype⟩, hgen⟩ | hlanes)
      · exact .inl ⟨hsame, .inl ⟨htype, hgen⟩⟩
      · exact .inr hlanes
    · rintro (⟨hsame, ⟨htype, hgen⟩ | ⟨hev, -⟩⟩ | hlanes)
      · exact .inl ⟨⟨hsame, htype⟩, hgen⟩
      · exact absurd ⟨hev, hsame⟩ hvmem
      · exact .inr hlanes

lemma inter_eq_singleton {ev : Event} (h : x.Among e) (hs : x.Sound g) (hc : c ∈ x.counters)
    (he : e.events ∩ g.eventsOn c = {ev}) : x.events ∩ g.eventsOn c = {ev} := by
  rw [hs.counters, Generation.mem_countersOf] at hc
  obtain ⟨ev', hev', hcount⟩ := hc
  refine Flags.eq_singleton_of_lacks (EventSet.lacks_iff.2 fun ev'' hev'' => ?_)
    (EventSet.isEmpty_eq_false_iff.2
      ⟨ev', (Flags.mem_inter _ _ _).2 ⟨hev', Generation.mem_eventsOn.2 hcount⟩⟩)
  rw [← he]
  rw [Flags.mem_inter] at hev'' ⊢
  exact ⟨h.events ev'' hev''.1, hev''.2⟩

/-- Fewer accesses do not keep a load waiting either. -/
lemma Yields.mono {type : VmemType} (h : e.Yields s i type j c) (hx : x.Among e)
    (ht : x.Tidy s.generation) (hs : x.Sound s.generation) (hc : c ∈ x.counters) :
    x.Yields s i type j c := by
  rcases h with ⟨hsame, h⟩ | hlanes
  · refine .inl ⟨inter_eq_singleton hx hs hc hsame, ?_⟩
    rcases h with ⟨htype, hgen⟩ | ⟨hev, hhalves⟩
    · refine .inl ⟨?_, hgen⟩
      by_cases hvm : c = .vm
      · subst hvm
        have htypes := htype.resolve_left (fun hne => hne rfl)
        exact .inr (Flags.eq_singleton_of_lacks (htypes ▸ hx.vmemTypes) (ht.typed hgen hc))
      · exact .inl hvm
    · exact .inr ⟨hev, Flags.meets_eq_false_of_lacks hx.halves hhalves⟩
  · refine .inr (EventSet.ext fun ev => iff_of_false (fun hev => ?_) (Flags.not_mem_empty ev))
    have hev' : ev ∈ (∅ : EventSet) := by
      rw [Flags.mem_inter] at hev
      rw [← hlanes, Flags.mem_inter]
      exact ⟨hx.lanes ev hev.1, hev.2⟩
    exact Flags.not_mem_empty ev hev'

/-- The instruction may overwrite the unit while accesses on the counter `c` are outstanding. -/
def Passes (e : Entry) (s : Setting) (i : Instruction) (j : Nat) (c : Counter) : Prop :=
  (∃ type, i.vmemType? s.generation = some type
      ∧ s.generation.counter? (i.vmemEvent s (some type)) = some c ∧ e.Yields s i type j c)
    ∨ ∃ access, i.ds? = some access ∧ c = .lgkm ∧ e.permitsDs s.generation access = true

lemma Passes.mono (h : e.Passes s i j c) (hx : x.Among e) (ht : x.Tidy s.generation)
    (hs : x.Sound s.generation) (hc : c ∈ x.counters) : x.Passes s i j c := by
  rcases h with ⟨type, htype, hcount, hyields⟩ | ⟨access, hds, rfl, hpermits⟩
  · exact .inl ⟨type, htype, hcount, hyields.mono hx ht hs hc⟩
  · refine .inr ⟨access, hds, rfl, ?_⟩
    rw [permitsDs, beq_iff_eq] at hpermits ⊢
    exact inter_eq_singleton hx hs hc hpermits

lemma get_overwriteWait_cases {w : Wait} (h : e.overwriteWait s i r j = .ok w) (c : Counter) :
    e.Passes s i j c ∧ w.get c = Wait.unset
      ∨ ¬e.Passes s i j c ∧ w.get c = (e.waitFor s.generation r).get c := by
  obtain ⟨v, hload, hds⟩ := overwriteWait_cases h
  have hv : (∃ type, i.vmemType? s.generation = some type
        ∧ s.generation.counter? (i.vmemEvent s (some type)) = some c ∧ e.Yields s i type j c)
        ∧ v.get c = Wait.unset
      ∨ (¬∃ type, i.vmemType? s.generation = some type
        ∧ s.generation.counter? (i.vmemEvent s (some type)) = some c ∧ e.Yields s i type j c)
        ∧ v.get c = (e.waitFor s.generation r).get c := by
    rcases hload with ⟨rfl, hno⟩ | ⟨type, c', htype, hp, rfl⟩
    · refine .inr ⟨?_, rfl⟩
      rintro ⟨type, htype, hcount, hyields⟩
      obtain ⟨c', hcount', hp⟩ := permitsLoad_cases (hno type htype)
      rw [hcount] at hcount'
      cases hcount'
      exact (hp.resolve_left (fun h => by cases h.1)).2 hyields
    · obtain ⟨c'', hcount, hp⟩ := permitsLoad_cases hp
      obtain ⟨heq, hyields⟩ := hp.resolve_right (fun h => by cases h.1)
      cases heq
      by_cases hc : c = c'
      · subst hc
        exact .inl ⟨⟨type, htype, hcount, hyields⟩, by simp⟩
      · refine .inr ⟨?_, by simp [hc]⟩
        rintro ⟨type', htype', hcount', -⟩
        rw [htype] at htype'
        cases htype'
        rw [hcount] at hcount'
        exact hc (Option.some.inj hcount').symm
  rcases hds with ⟨rfl, hno⟩ | ⟨rfl, access, haccess, hpermits⟩
  · refine hv.imp (fun h => ⟨.inl h.1, h.2⟩) fun h => ⟨fun hpass => ?_, h.2⟩
    rcases hpass with hpass | ⟨access, haccess, -, hpermits⟩
    · exact h.1 hpass
    · rw [hno access haccess] at hpermits
      cases hpermits
  · by_cases hc : c = .lgkm
    · exact .inl ⟨.inr ⟨access, haccess, hc, hpermits⟩, by simp [hc]⟩
    · rw [Wait.get_clear, if_neg hc]
      refine hv.imp (fun h => ⟨.inl h.1, h.2⟩) fun h => ⟨fun hpass => ?_, h.2⟩
      rcases hpass with hpass | ⟨-, -, hc', -⟩
      · exact h.1 hpass
      · exact hc hc'

/-- A load that is too wide for one of fewer accesses is so for one of more. -/
lemma Among.exists_overwriteWait (h : x.Among e) (he : ∃ w, e.overwriteWait s i r j = .ok w) :
    ∃ w, x.overwriteWait s i r j = .ok w := by
  rw [exists_overwriteWait_iff] at he ⊢
  intro type htype
  refine exists_permitsLoad_iff.2 fun hev hin => ?_
  exact exists_permitsLoad_iff.1 (he type htype) hev (h.events _ hin)

lemma Among.reaches_overwriteWait (h : x.Among e) (hu : u.Reaches e.wait x.wait)
    (ht : x.Tidy s.generation) (hs : x.Sound s.generation) {v w : Wait}
    (hv : x.overwriteWait s i r j = .ok v) (hw : e.overwriteWait s i r j = .ok w) :
    u.Reaches w v := by
  intro c hc
  rcases get_overwriteWait_cases hv c with ⟨-, hget⟩ | ⟨hno, hget⟩
  · rw [hget]
    exact Wait.le_unset _
  rw [hget]
  by_cases hx : c ∈ x.counters
  · rcases get_overwriteWait_cases hw c with ⟨hpass, -⟩ | ⟨-, hget'⟩
    · exact absurd (hpass.mono h ht hs hx) hno
    · rw [hget'] at hc
      exact h.reaches_waitFor hu s.generation r c hc
  · -- There is no access on this counter.
    have hun : x.wait.get c = Wait.unset := by
      by_contra hne
      exact hx ((ht.timed c).1 (Wait.isSet_iff.2 hne))
    rcases x.get_waitFor_cases s.generation r c with ⟨-, hget'⟩ | ⟨-, -, hget'⟩
    · rw [hget', hun]
      exact Wait.le_unset _
    · rw [hget']
      exact Wait.le_unset _

end Entry

/-! ### Barriers -/

namespace Demand

variable {s : Setting} {i : Instruction} {x d : Demand} {u : Wait}

/-- The accesses that the instruction `i` waits for when it pays the demand: the hardware keeps the order
of some of them within a workgroup. -/
def Owes (d : Demand) (s : Setting) (i : Instruction) (ev : Event) : Prop :=
  ev ∈ d.events
    ∧ ¬(ev ∈ cached ∧ d.scope ≤ .workgroup
      ∧ (i.isVmem || i.isFlatLike && !i.mayUseLds || i.isBarrier) = true ∧ s.config.wgpMode = false)
    ∧ ¬(ev = .lds ∧ d.scope ≤ .workgroup
      ∧ ((i.ds?.any fun access => !access.gds)
        || i.isBarrier && decide (.gfx10 ≤ s.generation) && !s.config.wgpMode) = true)

lemma Owes.mono {ev : Event} (h : x.Owes s i ev) (hx : x.Among d) : d.Owes s i ev := by
  obtain ⟨hev, hcached, hlds⟩ := h
  refine ⟨hx.events ev hev, fun hno => hcached ?_, fun hno => hlds ?_⟩
  · exact ⟨hno.1, Nat.le_trans hx.scope hno.2.1, hno.2.2⟩
  · exact ⟨hno.1, Nat.le_trans hx.scope hno.2.1, hno.2.2⟩

lemma wait_payment_cases (d : Demand) (s : Setting) (i : Instruction) :
    (∃ ev, d.Owes s i ev) ∧ (d.payment s i).wait = d.wait
      ∨ (¬∃ ev, d.Owes s i ev) ∧ (d.payment s i).wait = .none := by
  have howes : ∀ ev, ev ∈ (d.events \ if (decide (d.scope ≤ .workgroup) && d.events.meets cached
      && ((i.isVmem || i.isFlatLike && !i.mayUseLds) || i.isBarrier) && !s.config.wgpMode)
        then cached else ∅) \ (if (decide (d.scope ≤ .workgroup) && decide (.lds ∈ d.events)
          && ((i.ds?.any fun access => !access.gds)
            || i.isBarrier && decide (.gfx10 ≤ s.generation) && !s.config.wgpMode))
        then ({.lds} : EventSet) else ∅) ↔ d.Owes s i ev := by
    intro ev
    rw [Flags.mem_sdiff, Flags.mem_sdiff, and_assoc, Owes]
    refine and_congr_right fun hev => and_congr (not_congr ?_) (not_congr ?_)
    · constructor
      · intro hin
        split at hin
        · rename_i hskip
          simp only [Bool.and_eq_true, decide_eq_true_eq, Bool.not_eq_true'] at hskip
          exact ⟨hin, hskip.1.1.1, hskip.1.2, hskip.2⟩
        · exact absurd hin (Flags.not_mem_empty ev)
      · rintro ⟨hin, hscope, hformat, hmode⟩
        rw [if_pos]
        · exact hin
        · simp only [hscope, hformat, hmode, Flags.meets_of_mem hev hin, decide_true, Bool.not_false,
            Bool.and_self]
    · constructor
      · intro hin
        split at hin
        · rename_i hskip
          simp only [Bool.and_eq_true, decide_eq_true_eq] at hskip
          exact ⟨EventSet.mem_singleton.1 hin, hskip.1.1, hskip.2⟩
        · exact absurd hin (Flags.not_mem_empty ev)
      · rintro ⟨rfl, hscope, hformat⟩
        rw [if_pos]
        · exact EventSet.mem_singleton.2 rfl
        · simp only [hscope, hev, hformat, decide_true, Bool.and_self]
  simp only [payment]
  by_cases hno : ∃ ev, d.Owes s i ev
  · obtain ⟨ev, hev⟩ := hno
    refine .inl ⟨⟨ev, hev⟩, if_neg ?_⟩
    rw [Bool.not_eq_true]
    exact EventSet.isEmpty_eq_false_iff.2 ⟨ev, (howes ev).2 hev⟩
  · refine .inr ⟨hno, if_pos ?_⟩
    exact EventSet.isEmpty_iff.2 fun ev hev => hno ⟨ev, (howes ev).1 hev⟩

lemma Among.reaches_payment (h : x.Among d) (hu : u.Reaches d.wait x.wait) (s : Setting)
    (i : Instruction) : u.Reaches (d.payment s i).wait (x.payment s i).wait := by
  intro c hc
  rcases x.wait_payment_cases s i with ⟨⟨ev, hev⟩, hpaid⟩ | ⟨-, hpaid⟩
  · rw [hpaid]
    rcases d.wait_payment_cases s i with ⟨-, hpaid'⟩ | ⟨hno, -⟩
    · rw [hpaid'] at hc
      exact hu c hc
    · exact absurd ⟨ev, hev.mono h⟩ hno
  · rw [hpaid, Wait.get_none]
    exact Wait.le_unset _

/-- A demand whose scope is wider than the workgroup is paid in full. -/
lemma Left.not_mem_of_paid {g : Generation} (h : d.Left g u x) (hd : d.Tidy g)
    (hscope : .workgroup < d.scope) (hpaid : u ≤ (d.payment s i).wait) (ev : Event) : ev ∉ x.events := by
  intro hev
  have howes : d.Owes s i ev :=
    ⟨h.events ev hev, fun hno => Nat.not_le.2 hscope hno.2.1, fun hno => Nat.not_le.2 hscope hno.2.1⟩
  obtain ⟨c, hc, hset⟩ := hd.timed ev (h.events ev hev)
  rcases d.wait_payment_cases s i with ⟨-, heq⟩ | ⟨hno, -⟩
  · rw [heq] at hpaid
    exact h.waiting ev hev c hc ⟨Wait.isSet_of_le hpaid hset, hpaid c⟩
  · exact hno ⟨ev, howes⟩

lemma dependency_payment (h : i.isBarrier = false) (d : Demand) (s : Setting) :
    (d.payment s i).dependency = .none := by
  simp [payment, h]

end Demand

namespace Barrier

variable {s : Setting} {i : Instruction} {b : Barrier} {u : Wait}

/-- A sound memory is paid class by class. -/
lemma le_payment_iff {g : Generation} (hb : b.Sound g) (s : Setting) (i : Instruction) (storage : StorageSet) :
    u ≤ (b.payment s i storage).wait ↔ ∀ k ∈ storage, u ≤ ((b.demand k).payment s i).wait := by
  have hfold : ∀ (l : List Storage) (q : Queue),
      u ≤ (l.foldl (fun q k => q.both ((b.demand k).payment s i)) q).wait
        ↔ u ≤ q.wait ∧ ∀ k ∈ l, u ≤ ((b.demand k).payment s i).wait := by
    intro l
    induction l with
    | nil => simp
    | cons k l ih =>
      intro q
      rw [List.foldl_cons, ih, List.forall_mem_cons, ← and_assoc]
      refine and_congr_left fun _ => ⟨fun h => ?_, fun h => Wait.le_both h.1 h.2⟩
      exact ⟨Wait.le_trans h (Wait.both_le_left _ _), Wait.le_trans h (Wait.both_le_right _ _)⟩
  have hempty : ∀ k, ¬(k ∈ b.storage ∧ b.live = true) → u ≤ ((b.demand k).payment s i).wait := by
    intro k hk
    rcases (b.demand k).wait_payment_cases s i with ⟨⟨ev, hev⟩, -⟩ | ⟨-, hpaid⟩
    · exact absurd (hb.listed k ev hev.1) hk
    · rw [hpaid]
      exact Wait.le_none _
  rw [payment]
  split
  · rw [hfold]
    have hmem : ∀ k, k ∈ (storage ∩ b.storage).toList ↔ k ∈ storage ∧ k ∈ b.storage := by
      intro k
      rw [Flags.toList, List.mem_filter, decide_eq_true_eq, Flags.mem_inter]
      exact and_iff_right k.mem_all
    constructor
    · rintro ⟨-, h⟩ k hk
      by_cases hlisted : k ∈ b.storage
      · exact h k ((hmem k).2 ⟨hk, hlisted⟩)
      · exact hempty k fun h => hlisted h.1
    · exact fun h => ⟨Wait.le_none _, fun k hk => h k ((hmem k).1 hk).1⟩
  · rename_i hlive
    refine iff_of_true (Wait.le_none _) fun k _ => hempty k fun h => hlive h.2

end Barrier

lemma Instruction.PaysRelease.orderedStorage {i : Instruction} (h : i.PaysRelease)
    (s : Setting) :
    i.orderedStorage s i.sync {.release} = i.sync.storage := by
  obtain ⟨hatomic, hstores, -⟩ := h
  have hno : .acquire ∉ ({.release} : SemanticSet) := by decide
  have hyes : .release ∈ ({.release} : SemanticSet) := by decide
  rcases hstores with hnil | hrmw
  · simp [Instruction.orderedStorage, hatomic, hnil, hno, hyes]
  · simp [Instruction.orderedStorage, hatomic, hrmw, hno, hyes]

/-! ### Contexts -/

/-- `d` has all accesses of `x`, and where `u` is strong enough for the targets of `d`, it is so for those
of `x`. -/
structure Demand.Within (u : Wait) (x d : Demand) : Prop where
  among : x.Among d
  reaches : u.Reaches d.wait x.wait

namespace Demand

variable {g : Generation} {u : Wait} {x o d z : Demand}

lemma within_of_grows (h : d.grows x = false) (u : Wait) : x.Within u d :=
  ⟨(grows_iff_among.1 h).1, .of_le (grows_iff_among.1 h).2 u⟩

lemma within_of_empty (hx : x.Tidy g) (hc : x.Counted g) (hno : ∀ ev, ev ∉ x.events) (u : Wait)
    (z : Demand) : x.Within u z :=
  within_of_grows (grows_of_empty hx hc hno z) u

lemma Within.trans (h : x.Within u d) (h' : d.Within u z) : x.Within u z :=
  ⟨⟨fun ev hev => h'.among.events ev (h.among.events ev hev), Nat.le_trans h.among.scope h'.among.scope⟩,
    h'.reaches.trans h.reaches⟩

lemma Within.join (hx : x.Within u z) (ho : o.Within u z) : (x.join o).Within u z where
  among.events ev hev := ((Flags.mem_union _ _ _).1 hev).elim (hx.among.events ev) (ho.among.events ev)
  among.scope := by
    have := hx.among.scope
    have := ho.among.scope
    simp only [Demand.join, width_widest]
    omega
  reaches c hc := Wait.le_get_both (hx.reaches c hc) (ho.reaches c hc)

lemma Within.foldl_join {l : List Demand} (hl : ∀ o ∈ l, o.Within u z) (hx : x.Within u z) :
    (l.foldl Demand.join x).Within u z := by
  induction l generalizing x with
  | nil => exact hx
  | cons o rest ih =>
    exact ih (fun o' ho' => hl o' (List.mem_cons_of_mem _ ho')) (hx.join (hl o (by simp)))

end Demand

/-- `d` has all accesses of `c`, and where `u` is strong enough for the targets of `d`, it is so for those
of `c`. -/
structure Context.Within (u : Wait) (c d : Context) : Prop where
  nonzero : ∀ n ∈ c.nonzero, n ∈ d.nonzero
  entry : ∀ (r : Reg) (x : Entry), c.regs[r]? = some x →
    ∃ e : Entry, d.regs[r]? = some e ∧ x.Among e ∧ u.Reaches e.wait x.wait
  demand : ∀ role k, ((c.barrier role).demand k).Within u ((d.barrier role).demand k)

/-- The wait `u` is all that the instruction needs. -/
structure Context.Satisfied (s : Setting) (i : Instruction) (c : Context) (u : Wait) : Prop where
  hazard : ∃ w, c.hazardWait s i = .ok w ∧ u ≤ w
  drained : u ≤ c.drainBefore s i
  turn : u ≤ c.turnWait i
  paid : u ≤ ((c.deferBefore s i).payment s i).wait

namespace Context

variable {g : Generation} {s : Setting} {i : Instruction} {c c' d e : Context} {u v : Wait}
  {q q' : Queue}

lemma Below.within (h : c.Below d) (u : Wait) : c.Within u d where
  nonzero _ hn := h.mem_nonzero hn
  entry r x hx := by
    obtain ⟨e, he, hamong, hle⟩ := h.entry hx
    exact ⟨e, he, hamong, .of_le hle u⟩
  demand role k := ⟨(h.demand role k).1, .of_le (h.demand role k).2 u⟩

lemma Within.trans (h : c.Within u d) (h' : d.Within u e) : c.Within u e where
  nonzero n hn := h'.nonzero n (h.nonzero n hn)
  entry r x hx := by
    obtain ⟨y, hy, hxy, hreach⟩ := h.entry r x hx
    obtain ⟨z, hz, hyz, hreach'⟩ := h'.entry r y hy
    exact ⟨z, hz, hxy.trans hyz, hreach'.trans hreach⟩
  demand role k := (h.demand role k).trans (h'.demand role k)

/-- A context is below another one if every wait that is strong enough for the other one is so for it. -/
lemma Tidy.below_of_within (hc : c.Tidy g) (h : ∀ u, c.Within u d) : c.Below d := by
  refine hc.below (h .none).nonzero (fun r x hx => ?_) fun role k => ?_
  · obtain ⟨e, he, -⟩ := (h .none).entry r x hx
    obtain ⟨e', he', hamong, hreach⟩ := (h e.wait).entry r x hx
    rw [he] at he'
    cases he'
    exact ⟨e, he, hamong, hreach.le (Wait.le_refl _)⟩
  · have hdemand := (h ((d.barrier role).demand k).wait).demand role k
    exact ⟨hdemand.among, hdemand.reaches.le (Wait.le_refl _)⟩

/-- With fewer accesses a barrier moves less. -/
lemma Within.movedDemand (h : c.Within u d) (hc : c.Tidy g) (hd : d.Sound g) (s : Setting) (sync : Sync)
    (source : BarrierRole) :
    (c.movedDemand s sync source).Within u (d.movedDemand s sync source) := by
  refine .foldl_join (fun x hx => ?_)
    (Demand.within_of_empty (Demand.tidy_empty g) (Demand.counted_empty g) (by simp) u _)
  rw [List.mem_filter, List.mem_map] at hx
  obtain ⟨⟨k, hk, rfl⟩, hfilter⟩ := hx
  by_cases hev : ∃ ev, ev ∈ ((c.barrier source).demand k).events
  · obtain ⟨ev, hev⟩ := hev
    have hevents := (h.demand source k).among.events
    refine (h.demand source k).trans (Demand.within_of_grows
      (foldl_join_grows (List.mem_filter.2 ⟨List.mem_map.2 ⟨k, ?_, rfl⟩, ?_⟩) _) u)
    · rw [Flags.toList, List.mem_filter, decide_eq_true_eq, Flags.mem_inter] at hk ⊢
      exact ⟨hk.1, hk.2.1, ((hd.barrier source).listed k ev (hevents ev hev)).1⟩
    · -- If the larger demand is for shared memory alone, so is the smaller one.
      rw [Bool.not_eq_true', Bool.and_eq_false_iff] at hfilter ⊢
      refine hfilter.imp (fun hne => ?_) id
      rw [beq_eq_false_iff_ne] at hne ⊢
      intro heq
      refine hne (Flags.eq_singleton_of_lacks ?_ (EventSet.isEmpty_eq_false_iff.2 ⟨ev, hev⟩))
      rw [← heq]
      exact EventSet.lacks_iff.2 hevents
  · exact Demand.within_of_empty (hc.demand source k) ((hc.sound.barrier source).counted k)
      (not_exists.1 hev) u _

/-- Deferring is monotone. -/
lemma Within.defer (h : c.Within u d) (hc : c.Tidy g) (hd : d.Sound g) (s : Setting) (sync : Sync)
    (source target : BarrierRole) :
    (c.defer s sync source target).Within u (d.defer s sync source target) := by
  rcases defer_cases c s sync source target with ⟨-, hcdefer⟩ | ⟨hscope, hmoved, hcdefer⟩
  · rw [hcdefer]
    exact h.trans ((below_defer d s sync source target).within u)
  have hwithin := h.movedDemand hc hd s sync source
  rcases defer_cases d s sync source target with ⟨hno | hno, -⟩ | ⟨-, -, hddefer⟩
  · exact absurd hno hscope
  · obtain ⟨ev, hev⟩ := EventSet.isEmpty_eq_false_iff.1 hmoved
    exact absurd (hwithin.among.events ev hev) (EventSet.isEmpty_iff.1 hno ev)
  rw [hcdefer, hddefer]
  refine ⟨fun n hn => ?_, fun r x hx => ?_, fun role k => ?_⟩
  · rw [nonzero_setBarrier] at hn ⊢
    exact h.nonzero n hn
  · rw [regs_setBarrier] at hx ⊢
    exact h.entry r x hx
  · obtain ⟨hamong, hreach⟩ := h.demand role k
    rw [barrier_setBarrier, barrier_setBarrier]
    by_cases hr : role = target
    · subst hr
      rw [if_pos rfl, if_pos rfl]
      simp only [Barrier.demand, PerStorage.get_ofFn]
      split
      · refine ⟨⟨fun ev hev => ?_, ?_⟩, hreach.both hwithin.reaches⟩
        · exact (Flags.mem_union _ _ _).2 (((Flags.mem_union _ _ _).1 hev).imp (hamong.events ev)
            (hwithin.among.events ev))
        · have hwidth := hamong.scope
          simp only [Barrier.demand] at hwidth
          simp only [Demand.width_widest]
          omega
      · exact ⟨hamong, hreach⟩
    · rw [if_neg hr, if_neg hr]
      exact ⟨hamong, hreach⟩

lemma Within.deferBefore (h : c.Within u d) (hc : c.Tidy g) (hd : d.Sound g) (s : Setting)
    (i : Instruction) : (c.deferBefore s i).Within u (d.deferBefore s i) := by
  have hreleased : Within u (if .release ∈ i.sync.semantics then c.deferRelease s i.sync else c)
      (if .release ∈ i.sync.semantics then d.deferRelease s i.sync else d) := by
    split
    · exact h.defer hc hd s i.sync _ _
    · exact h
  have hctidy : (if .release ∈ i.sync.semantics then c.deferRelease s i.sync else c).Tidy g := by
    split
    · exact hc.defer i.sync _ _
    · exact hc
  have hdsound : (if .release ∈ i.sync.semantics then d.deferRelease s i.sync else d).Sound g := by
    split
    · exact hd.defer s i.sync _ _
    · exact hd
  rw [Context.deferBefore, Context.deferBefore]
  split
  · split
    · exact hreleased.defer hctidy hdsound s i.sync _ _
    · exact hreleased
  · exact hreleased

lemma Below.deferBefore (h : c.Below d) (hc : c.Tidy g) (hd : d.Sound g) (s : Setting)
    (i : Instruction) : (c.deferBefore s i).Below (d.deferBefore s i) :=
  (hc.deferBefore s i).below_of_within fun u => (h.within u).deferBefore hc hd s i

lemma Below.deferAfter (h : c.Below d) (hc : c.Tidy g) (hd : d.Sound g) (s : Setting)
    (i : Instruction) : (c.deferAfter s i).Below (d.deferAfter s i) := by
  rw [Context.deferAfter, Context.deferAfter]
  split
  · exact (hc.defer _ _ _).below_of_within fun u => (h.within u).defer hc hd s _ _ _
  · exact h

/-- With fewer accesses a load does not fault over one that is pending. -/
lemma Within.hazardWait (h : c.Within u d) {w : Wait} (hw : d.hazardWait s i = .ok w) :
    ∃ w', c.hazardWait s i = .ok w' := by
  simp only [Context.hazardWait, bind_eq_ok, pure_eq_ok] at hw ⊢
  obtain ⟨⟨⟩, hfits, dwrites, hdwrites, -⟩ := hw
  obtain ⟨writes, hwrites⟩ : ∃ writes, (i.definitions.mapM fun d =>
      d.units.zipIdx.mapM fun x => c.writeWait s i x.1 x.2) = .ok writes := by
    refine mapM_total fun def' hdef => mapM_total fun x hx => ?_
    obtain ⟨r, j⟩ := x
    obtain ⟨dws, -, hdmap⟩ := mem_of_mapM hdwrites hdef
    obtain ⟨v, -, hv⟩ := mem_of_mapM hdmap hx
    dsimp only at hv ⊢
    rw [writeWait] at hv ⊢
    cases hx : c.regs[r]? with
    | none => exact ⟨_, rfl⟩
    | some x =>
      obtain ⟨e, he, hamong, -⟩ := h.entry r x hx
      rw [he] at hv
      exact hamong.exists_overwriteWait ⟨v, hv⟩
  exact ⟨_, (), hfits, writes, hwrites, rfl⟩

lemma Satisfied.of_le (h : c.Satisfied s i v) (hle : u ≤ v) : c.Satisfied s i u := by
  obtain ⟨w, hw, hlew⟩ := h.hazard
  exact ⟨⟨w, hw, Wait.le_trans hle hlew⟩, Wait.le_trans hle h.drained, Wait.le_trans hle h.turn,
    Wait.le_trans hle h.paid⟩

/-- What satisfies an instruction where there are more accesses satisfies it where there are fewer. -/
lemma Satisfied.mono (h : d.Satisfied s i u) (hw : c.Within u d) (hc : c.Tidy s.generation)
    (hd : d.Sound s.generation) : c.Satisfied s i u := by
  obtain ⟨v, hv, hlev⟩ := h.hazard
  obtain ⟨w, hhazard⟩ := hw.hazardWait hv
  refine ⟨⟨w, hhazard, ?_⟩, ?_, ?_, ?_⟩
  · refine le_hazardWait hhazard (fun op hop r hr => ?_) fun def' hdef r j hj w' hw' => ?_
    · have hle := Wait.le_trans hlev ((hazardWait_le hv).1 op hop r hr)
      rw [readWait] at hle ⊢
      cases hx : c.regs[r]? with
      | none => exact Wait.le_none _
      | some x =>
        obtain ⟨e, he, hamong, hreach⟩ := hw.entry r x hx
        rw [he] at hle
        dsimp only at hle ⊢
        split
        · rw [if_pos (hamong.blocksReads ‹_›)] at hle
          exact (hamong.reaches_waitFor hreach s.generation r).le hle
        · exact Wait.le_none _
    · obtain ⟨v', hv', hle⟩ := hazardWait_le_writeWait hv hdef hj
      rw [writeWait] at hv' hw'
      cases hx : c.regs[r]? with
      | none =>
        rw [hx] at hw'
        cases hw'
        exact Wait.le_none _
      | some x =>
        obtain ⟨e, he, hamong, hreach⟩ := hw.entry r x hx
        rw [hx] at hw'
        rw [he] at hv'
        exact (hamong.reaches_overwriteWait hreach (hc.entry r x hx) (hc.sound.entry r x hx) hw' hv').le
          (Wait.le_trans hlev hle)
  · have hdrain := h.drained
    rw [drainBefore] at hdrain ⊢
    split
    · rw [if_pos ‹_›] at hdrain
      exact Wait.le_trans hdrain (Wait.drain_le_drain hw.nonzero)
    · exact Wait.le_none _
  · have hturn := h.turn
    rw [turnWait] at hturn ⊢
    split
    · rw [if_pos ‹_›] at hturn
      exact (hw.demand .releaseDependency .gds).reaches.le hturn
    · exact Wait.le_none _
  · have hdefer := hw.deferBefore hc hd s i
    have hrole : ∀ role (storage : StorageSet),
        u ≤ (((d.deferBefore s i).barrier role).payment s i storage).wait →
          u ≤ (((c.deferBefore s i).barrier role).payment s i storage).wait := by
      intro role storage hle
      rw [Barrier.le_payment_iff ((hc.sound.deferBefore s i).barrier role)]
      intro k hk
      obtain ⟨hamong, hreach⟩ := hdefer.demand role k
      exact (hamong.reaches_payment hreach s i).le
        ((Barrier.le_payment_iff ((hd.deferBefore s i).barrier role) s i _).1 hle k hk)
    have hreleased := hrole .release _ (Wait.le_trans h.paid (Wait.both_le_left _ _))
    have hacquired := hrole .acquire _ (Wait.le_trans h.paid (Wait.both_le_right _ _))
    exact Wait.le_both hreleased hacquired

end Context

/-! ### Waits that are queued -/

namespace Context

variable {g : Generation} {s : Setting} {i : Instruction} {c c' d : Context} {q q' : Queue}

lemma dependency_payment (h : i.isBarrier = false) (c : Context) (s : Setting) :
    (c.payment s i).dependency = .none := by
  have hnone : DependencyWait.none.both .none = .none := DependencyWait.fits_none.both_none
  have hfold : ∀ (b : Barrier) (l : List Storage) (q : Queue), q.dependency = .none →
      (l.foldl (fun q k => q.both ((b.demand k).payment s i)) q).dependency = .none := by
    intro b l
    induction l with
    | nil => exact fun q hq => hq
    | cons k l ih =>
      intro q hq
      refine ih _ ?_
      change q.dependency.both ((b.demand k).payment s i).dependency = .none
      rw [hq, Demand.dependency_payment h, hnone]
  have hrole : ∀ (b : Barrier) (storage : StorageSet), (b.payment s i storage).dependency = .none := by
    intro b storage
    rw [Barrier.payment]
    split
    · exact hfold b _ {} rfl
    · rfl
  change (c.release.payment s i _).dependency.both (c.acquire.payment s i _).dependency = .none
  rw [hrole, hrole, hnone]

/-- After it has been waited for, an instruction is satisfied. -/
lemma satisfied_of_awaited (h : Awaited s i c q c' q') : c.Satisfied s i q'.wait :=
  ⟨h.hazard, h.drained, h.turn, h.paid⟩

/-- An instruction that is satisfied adds nothing to the queue. -/
lemma await_of_satisfied (hb : i.isBarrier = false) (hc : c.Tidy s.generation)
    (hq : q.dependency.Fits) (h : c.Satisfied s i q.wait) :
    ∃ c', (c.deferBefore s i).settle s.generation q.wait = .ok c' ∧ c.await s i q = .ok (c', q) := by
  have hdefer := hc.deferBefore s i
  obtain ⟨c', hc'⟩ := settle_total hdefer.sound q.wait
  refine ⟨c', hc', ?_⟩
  obtain ⟨hazard, hhazard, hle⟩ := h.hazard
  have hneeded : q.wait ≤ ((c.drainBefore s i).both hazard).both (c.turnWait i) :=
    Wait.le_both (Wait.le_both h.drained hle) h.turn
  have hqueue : (q.add (((c.drainBefore s i).both hazard).both (c.turnWait i))).both
      ((c.deferBefore s i).payment s i) = q := by
    change Queue.mk ((q.wait.both _).both _) (q.dependency.both _) = q
    rw [Wait.both_eq_left hneeded, Wait.both_eq_left h.paid, dependency_payment hb, hq.both_none]
  have hflat : (c.deferBefore s i).coverFlat q.wait = q.wait := by
    simp [coverFlat, hdefer.flatVm, hdefer.flatLgkm]
  simp only [await, bind_eq_ok, pure_eq_ok]
  refine ⟨hazard, hhazard, c', ?_, ?_⟩
  · rw [hqueue, hflat, hc']
  · rw [hqueue, hflat]

/-- What an instruction releases is complete behind the wait that satisfies it, if it pays by itself. -/
lemma Satisfied.below_of_settle {u : Wait} (h : c.Satisfied s i u) (hc : c.Tidy s.generation)
    (hb : i.isBarrier = false) (hcoherent : i.isCoherent = true)
    (hpays : .release ∈ i.sync.semantics → ¬i.sync.scope ≤ s.aloneScope → i.PaysRelease)
    (hc' : (c.deferBefore s i).settle s.generation u = .ok c') : c'.Below c := by
  have htidy := hc.deferBefore s i
  have hpaid := Wait.le_trans h.paid (Wait.both_le_left _ _)
  have hdefer : c.deferBefore s i
      = if .release ∈ i.sync.semantics then c.deferRelease s i.sync else c := by
    rw [deferBefore]
    split
    · rename_i request hp
      rw [Instruction.isBarrier_of_payload hcoherent hp] at hb
      cases hb
    · rfl
  rw [hdefer] at hc' htidy hpaid
  split at hc'
  case isFalse => exact settle_below hc hc'
  rename_i hrelease
  rw [if_pos hrelease] at htidy hpaid
  rcases defer_cases c s i.sync .releaseDependency .release with ⟨-, hsame⟩ | ⟨hscope, hmoved, hsame⟩
  · rw [deferRelease, hsame] at hc'
    exact settle_below hc hc'
  rw [deferRelease, hsame] at hc' htidy hpaid
  have hbelow := settle_below htidy hc'
  refine (htidy.settle hc').below (fun n hn => ?_) (fun r x hx => ?_) fun role k => ?_
  · have hn' := hbelow.mem_nonzero hn
    rwa [nonzero_setBarrier] at hn'
  · have hx' := hbelow.entry hx
    rwa [regs_setBarrier] at hx'
  · have hdemand := hbelow.demand role k
    have hleft := htidy.left hc' role k
    rw [barrier_setBarrier] at hdemand hleft
    by_cases hr : role = .release
    swap
    · rwa [if_neg hr] at hdemand
    subst hr
    rw [if_pos rfl] at hdemand hleft
    by_cases hk : k ∈ i.sync.storage
    swap
    · simp only [Barrier.demand, PerStorage.get_ofFn, if_neg hk] at hdemand
      exact hdemand
    -- The instruction pays for all that it has moved there.
    have hpaid := (Barrier.le_payment_iff (htidy.sound.barrier .release) s i _).1 hpaid k
      ((hpays hrelease hscope).orderedStorage s ▸ hk)
    have hkept := htidy.demand .release k
    rw [barrier_setBarrier, if_pos rfl] at hpaid hkept
    refine Demand.among_of_events hleft.tidy hleft.counted fun ev hev => absurd hev ?_
    refine hleft.not_mem_of_paid hkept ?_ hpaid ev
    simp only [Barrier.demand, PerStorage.get_ofFn, if_pos hk]
    change _ < Scope.width _
    rw [Demand.width_widest]
    exact Nat.lt_of_lt_of_le (hpays hrelease hscope).2.2 (Nat.le_max_right _ _)

/-! ### Before other instructions have issued -/

/-- For a wait for nothing only the accesses count, not their targets. -/
lemma Tidy.within_none (hc : c.Tidy g) (hd : d.Tidy g) (hnonzero : ∀ n ∈ c.nonzero, n ∈ d.nonzero)
    (hentry : ∀ (r : Reg) (x : Entry), c.regs[r]? = some x →
      ∃ e : Entry, d.regs[r]? = some e ∧ x.Among e)
    (hdemand : ∀ role k, ((c.barrier role).demand k).Among ((d.barrier role).demand k)) :
    c.Within .none d := by
  refine ⟨hnonzero, fun r x hx => ?_, fun role k => ⟨hdemand role k, ?_⟩⟩
  · obtain ⟨e, he, hamong⟩ := hentry r x hx
    refine ⟨e, he, hamong, Wait.reaches_none fun n hn => ?_⟩
    exact ((hd.entry r e he).timed n).2 (hamong.counters n (((hc.entry r x hx).timed n).1 hn))
  · refine Wait.reaches_none fun n hn => ?_
    obtain ⟨ev, hev, hcount⟩ := (hc.sound.barrier role).counted k n hn
    obtain ⟨n', hn', hset⟩ := (hd.demand role k).timed ev ((hdemand role k).events ev hev)
    rw [hcount] at hn'
    cases hn'
    exact hset

lemma Tidy.within_issue (hc : c.Tidy s.generation) (hc' : c'.Tidy s.generation) {ev : Event}
    {sync : Sync} {i? : Option Instruction} (h : c.issue s ev sync i? = .ok c') :
    c.Within .none c' := by
  have hi := issued_of_issue h
  refine hc.within_none hc' (fun n hn => ?_) (fun r x hx => ?_) fun role k => ?_
  · rw [hi.nonzero, Flags.mem_union]
    exact .inl hn
  · rw [hi.entry, hx]
    split
    · exact ⟨x, rfl, .refl x⟩
    · refine ⟨x.age s.generation ev, rfl, ?_⟩
      rw [Entry.age_eq]
      exact (Entry.Among.refl x).withWait _ _
  · rw [hi.barrier]
    rcases barrier_recordEvent s ev sync i? role with hsame | ⟨storage, hrecord⟩
    · rw [hsame]
      exact ⟨fun _ => id, Nat.le_refl _⟩
    · rw [hrecord, Barrier.demand_record_of_sound (hc.sound.barrier role) (hc.demand role)]
      split
      · exact ⟨fun _ hev => (Flags.mem_union _ _ _).2 (.inl hev), Nat.le_refl _⟩
      · rw [Demand.age_eq (hc.demand role k)]
        exact ⟨fun _ => id, Nat.le_refl _⟩

lemma Tidy.within_track (hc : c.Tidy g) (hc' : c'.Tidy g) {range : RegRange} {ev : Event}
    {blocksReads : Bool} {types : VmemTypeSet} {halves : BitVec 32}
    (h : c.track g range ev blocksReads types halves = .ok c') : c.Within .none c' := by
  obtain ⟨-, rfl⟩ := track_eq_ok.1 h
  refine hc.within_none hc' (fun n hn => hn) ?_ fun role k => by
    cases role <;> exact ⟨fun _ => id, Nat.le_refl _⟩
  have hunits : ∀ (new : Nat → Entry) (units : List (Reg × Nat)) {m : RegMap} (r : Reg) (x : Entry),
      m[r]? = some x → ∃ e : Entry, (units.foldl (fun m u => trackUnit m u.1 (new u.2)) m)[r]? = some e
        ∧ x.Among e := by
    intro new units
    induction units with
    | nil => exact fun r x hx => ⟨x, hx, .refl x⟩
    | cons u rest ih =>
      intro m r x hx
      obtain ⟨y, hy, hxy⟩ : ∃ y : Entry, (trackUnit m u.1 (new u.2))[r]? = some y ∧ x.Among y := by
        rw [getElem?_trackUnit, hx]
        split
        · exact ⟨_, rfl, Entry.among_join_left x _ fun _ hev => (Flags.mem_union _ _ _).2 (.inl hev)⟩
        · exact ⟨x, rfl, .refl x⟩
      obtain ⟨e, he, hye⟩ := ih r y hy
      exact ⟨e, he, hxy.trans hye⟩
  exact hunits (fun j => startedEntry g ev blocksReads types (HalfSet.ofWord halves j)) _

/-- Issuing adds accesses and takes none away. -/
lemma Tidy.within_start (hc : c.Tidy s.generation) (hi : i.Steady s) (h : c.start s i = .ok c') :
    c.Within .none c' := by
  refine (foldlM_invariant (fun d => d.Tidy s.generation ∧ c.Within .none d)
    (fun effect he d d' hd h => ?_) ⟨hc, (Below.refl c).within .none⟩ h).2
  obtain ⟨hd, hwithin⟩ := hd
  have hd' := hd.apply hi he h
  refine ⟨hd', hwithin.trans ?_⟩
  cases effect with
  | issue ev sync => exact hd.within_issue hd' h
  | track range ev blocksReads types halves => exact hd.within_track hd' h
  | flat => exact (hi.typed _ he).elim
  | fail fault => cases h

end Context

end GpuWaits
