/-
# Waits that can be encoded

A target has a few bits only, how many depends on the counter and on the generation, and older
generations lack some of the counters.  The waits of the result respect this if those that stood in the
code did, and none of them is empty (`Program.encodable_of_solve`).

A rule says which targets a counter may be given.  Joins take the smaller of two targets and waits drop
targets, so that both keep any rule.  Only an event that issues makes new targets: zero for its own
counter, and one more for the accesses in front of it, up to the horizon.  So contexts keep every rule
that allows this for the events of the program (`Context.Obeys.start`), and the queue of a walk takes its
targets from the context and from the code.
-/
import GpuWaits.Proofs.Frame
import GpuWaits.Proofs.Tidy
import GpuWaits.Proofs.WellFormed

namespace GpuWaits

/-! ### Rules -/

/-- Which targets a counter may be given. -/
abbrev TargetRule := Counter → UInt16 → Prop

namespace Wait

variable {rule : TargetRule} {v w : Wait}

/-- Every target that is set follows the rule. -/
def Obeys (w : Wait) (rule : TargetRule) : Prop := ∀ c, w.isSet c = true → rule c (w.get c)

lemma obeys_none (rule : TargetRule) : Wait.none.Obeys rule := by
  intro c hc
  rw [isSet_iff, get_none] at hc
  exact absurd rfl hc

/-- The targets of `w` are those of `v`, or follow the rule by themselves. -/
lemma Obeys.of_slots (hv : v.Obeys rule)
    (h : ∀ c, w.isSet c = true → w.get c = v.get c ∨ rule c (w.get c)) : w.Obeys rule := by
  intro c hc
  rcases h c hc with heq | hrule
  · rw [isSet_iff, heq] at hc
    rw [heq]
    exact hv c (isSet_iff.2 hc)
  · exact hrule

lemma Obeys.both (hv : v.Obeys rule) (hw : w.Obeys rule) : (v.both w).Obeys rule := by
  intro c hc
  rw [isSet_iff, get_both] at hc
  rw [get_both]
  rcases Std.min_eq_or (a := v.get c) (b := w.get c) with hmin | hmin <;> rw [hmin] at hc ⊢
  · exact hv c (isSet_iff.2 hc)
  · exact hw c (isSet_iff.2 hc)

lemma Obeys.clear (hw : w.Obeys rule) (c : Counter) : (w.clear c).Obeys rule := by
  refine hw.of_slots fun d hd => .inl ?_
  rw [isSet_iff, get_clear] at hd
  rw [get_clear]
  split
  · rename_i heq
    exact absurd (if_pos heq) hd
  · rfl

lemma Obeys.only (hw : w.Obeys rule) (cs : CounterSet) : (w.only cs).Obeys rule := by
  refine hw.of_slots fun d hd => .inl ?_
  rw [isSet_iff, get_only] at hd
  rw [get_only]
  split
  · rfl
  · rename_i hno
    exact absurd (if_neg hno) hd

lemma obeys_allOf {ws : List Wait} (h : ∀ w ∈ ws, w.Obeys rule) : (allOf ws).Obeys rule := by
  have hfold : ∀ (ws : List Wait) (v : Wait), v.Obeys rule → (∀ w ∈ ws, w.Obeys rule) →
      (ws.foldl Wait.both v).Obeys rule := by
    intro ws
    induction ws with
    | nil => exact fun v hv _ => hv
    | cons w ws ih =>
      exact fun v hv hws => ih _ (hv.both (hws w (by simp))) fun u hu =>
        hws u (List.mem_cons_of_mem _ hu)
  exact hfold ws _ (obeys_none rule) h

lemma obeys_drain {cs : CounterSet} (h : ∀ c ∈ cs, rule c 0) : (drain cs).Obeys rule := by
  intro c hc
  have hmem := isSet_drain.1 hc
  rw [get_drain, if_pos hmem]
  exact h c hmem

end Wait

/-- The rule allows the targets that come from an event: zero for its counter, and those that count
behind an access up to the horizon. -/
def Event.Within (ev : Event) (g : Generation) (rule : TargetRule) : Prop :=
  ∀ c n, g.counter? ev = some c → n ≤ g.horizon.get c → rule c n

namespace Event.Within

variable {ev : Event} {g : Generation} {rule : TargetRule} (h : ev.Within g rule)

include h

lemma zero {c : Counter} (hc : c ∈ g.countersOf {ev}) : rule c 0 :=
  h c 0 (Generation.mem_countersOf_singleton.1 hc) (UInt16.le_iff_toNat_le.2 (Nat.zero_le _))

/-- Counting one more behind some accesses of the event keeps the rule. -/
lemma obeys_count {w : Wait} (hw : w.Obeys rule) (p : Counter → Prop) [DecidablePred p] :
    Wait.Obeys (.ofFn fun c => if c ∈ g.countersOf {ev} ∧ p c then g.oneMore c (w.get c) else w.get c)
      rule := by
  refine hw.of_slots fun c _ => ?_
  rw [Wait.get_ofFn]
  split
  · rename_i hc
    exact .inr (h c _ (Generation.mem_countersOf_singleton.1 hc.1) (g.oneMore_le_horizon c _))
  · exact .inl rfl

end Event.Within

/-! ### Entries and demands -/

namespace Entry

variable {rule : TargetRule} {e : Entry} {g : Generation}

lemma obeys_age {ev : Event} (he : e.wait.Obeys rule) (hev : ev.Within g rule) :
    (e.age g ev).wait.Obeys rule := by
  rw [age]
  split
  · exact he
  · exact hev.obeys_count he _

lemma obeys_settle (he : e.wait.Obeys rule) (w : Wait) : (e.settle g w).wait.Obeys rule := by
  have hleft := e.left_settle g w
  refine he.of_slots fun c hc => .inl ?_
  by_cases hmet : w.Meets e.wait c
  · exact absurd (hleft.gone c hmet) (Wait.isSet_iff.1 hc)
  · exact hleft.kept c hmet

lemma obeys_waitFor (he : e.wait.Obeys rule) (r : Reg) : (e.waitFor g r).Obeys rule := by
  rw [waitFor]
  split
  · exact he.only _
  · exact he

lemma obeys_overwriteWait {s : Setting} {i : Instruction} {r : Reg} {j : Nat} {w : Wait}
    (he : e.wait.Obeys rule) (h : e.overwriteWait s i r j = .ok w) : w.Obeys rule := by
  obtain ⟨v, hv, hw⟩ := overwriteWait_cases h
  have hv : v.Obeys rule := by
    rcases hv with ⟨rfl, -⟩ | ⟨type, c, -, -, rfl⟩
    · exact obeys_waitFor he r
    · exact (obeys_waitFor he r).clear c
  rcases hw with ⟨rfl, -⟩ | ⟨rfl, -⟩
  · exact hv
  · exact hv.clear _

end Entry

namespace Demand

variable {rule : TargetRule} {d : Demand} {g : Generation}

lemma obeys_age {ev : Event} (hd : d.wait.Obeys rule) (hev : ev.Within g rule) :
    (d.age g ev).wait.Obeys rule := by
  rw [age]
  split
  · exact hd
  · exact hev.obeys_count hd _

lemma obeys_extend {ev : Event} (hd : d.wait.Obeys rule) (hev : ev.Within g rule) :
    (d.extend g ev).wait.Obeys rule :=
  hd.both (Wait.obeys_drain fun _ hc => hev.zero hc)

lemma obeys_foldl_join {ds : List Demand} (hd : d.wait.Obeys rule)
    (h : ∀ d ∈ ds, d.wait.Obeys rule) : (ds.foldl join d).wait.Obeys rule := by
  induction ds generalizing d with
  | nil => exact hd
  | cons x ds ih =>
    exact ih (Wait.Obeys.both hd (h x (by simp))) fun y hy => h y (List.mem_cons_of_mem _ hy)

lemma obeys_settle {targets : List (Counter × UInt16)} {r : Option Demand}
    (hd : d.wait.Obeys rule) (h : settle g targets d = .ok r) : (r.getD {}).wait.Obeys rule := by
  induction targets generalizing d with
  | nil =>
    cases h
    exact hd
  | cons t rest ih =>
    rw [settle_cons] at h
    split at h
    · split at h
      · split at h
        · cases h
          exact Wait.obeys_none rule
        · cases h
      · exact ih (hd.clear _) h
    · exact ih hd h

lemma obeys_payment {s : Setting} (hd : d.wait.Obeys rule) (i : Instruction) :
    (d.payment s i).wait.Obeys rule := by
  have hcases : (d.payment s i).wait = .none ∨ (d.payment s i).wait = d.wait := ite_eq_or_eq _ _ _
  rcases hcases with heq | heq <;> rw [heq]
  · exact Wait.obeys_none rule
  · exact hd

end Demand

/-! ### Contexts -/

/-- The targets of a context follow the rule, and its counters may be drained. -/
structure Context.Obeys (c : Context) (rule : TargetRule) : Prop where
  nonzero : ∀ d ∈ c.nonzero, rule d 0
  entry : ∀ (r : Reg) (e : Entry), c.regs[r]? = some e → e.wait.Obeys rule
  demand : ∀ role k, ((c.barrier role).demand k).wait.Obeys rule

namespace Context

variable {rule : TargetRule} {c c' : Context} {s : Setting} {i : Instruction}

lemma obeys_empty (rule : TargetRule) : ({} : Context).Obeys rule := by
  refine ⟨fun d hd => by simp at hd, fun r e he => by simp at he, fun role k => ?_⟩
  cases role <;> cases k <;> exact Wait.obeys_none rule

namespace Obeys

variable (hc : c.Obeys rule)

include hc

lemma of_barrier (hnonzero : ∀ d ∈ c'.nonzero, rule d 0)
    (hentry : ∀ (r : Reg) (e : Entry), c'.regs[r]? = some e → e.wait.Obeys rule)
    (hbarrier : ∀ role, c'.barrier role = c.barrier role) : c'.Obeys rule :=
  ⟨hnonzero, hentry, fun role k => by rw [hbarrier]; exact hc.demand role k⟩

lemma join {o : Context} (ho : o.Obeys rule) (edge : Edge) : (c.join o edge).Obeys rule := by
  refine ⟨fun d hd => ?_, forall_regs_join (fun _ he => he) (fun he hx => he.both hx) hc.entry
    ho.entry edge, fun role k => ?_⟩
  · rw [nonzero_join, Flags.mem_union] at hd
    exact hd.elim (hc.nonzero d) (ho.nonzero d)
  · rw [barrier_join]
    split
    · rw [Barrier.demand_join]
      split
      · exact (hc.demand role k).both (ho.demand role k)
      · exact hc.demand role k
    · exact hc.demand role k

lemma defer (s : Setting) (sync : Sync) (source target : BarrierRole) :
    (c.defer s sync source target).Obeys rule := by
  have hmoved : (c.movedDemand s sync source).wait.Obeys rule := by
    refine Demand.obeys_foldl_join (Wait.obeys_none rule) fun d hd => ?_
    obtain ⟨k, -, rfl⟩ := List.mem_map.1 (List.mem_filter.1 hd).1
    exact hc.demand source k
  rcases defer_cases c s sync source target with ⟨-, h⟩ | ⟨-, -, h⟩
  · rw [h]
    exact hc
  · rw [h]
    refine ⟨by simpa using hc.nonzero, by simpa using hc.entry, fun role k => ?_⟩
    rw [barrier_setBarrier]
    split
    · simp only [Barrier.demand, PerStorage.get_ofFn]
      split
      · exact (hc.demand target k).both hmoved
      · exact hc.demand target k
    · exact hc.demand role k

lemma deferBefore (i : Instruction) : (c.deferBefore s i).Obeys rule := by
  have hreleased : (if .release ∈ i.sync.semantics then c.deferRelease s i.sync else c).Obeys rule := by
    split
    · exact hc.defer s _ _ _
    · exact hc
  rw [Context.deferBefore]
  split
  · split
    · exact hreleased.defer s _ _ _
    · exact hreleased
  · exact hreleased

lemma deferAfter (i : Instruction) : (c.deferAfter s i).Obeys rule := by
  rw [Context.deferAfter]
  split
  · exact hc.defer s _ _ _
  · exact hc

lemma settle {g : Generation} {w : Wait} (h : c.settle g w = .ok c') : c'.Obeys rule := by
  have hs := settles_of_settle h
  refine ⟨fun d hd => hc.nonzero d ((hs.nonzero d).1 hd).1, fun r e' he' => ?_, fun role k => ?_⟩
  · obtain ⟨e, he, rfl, -⟩ := hs.source r e' he'
    exact Entry.obeys_settle (hc.entry r e he) w
  · rcases hs.barrier role with heq | hb
    · rw [heq]
      exact hc.demand role k
    · obtain ⟨left, hleft, hdemand, -⟩ := Barrier.settle_eq_ok hb
      rw [hdemand]
      have hk := hleft k
      split at hk
      · exact Demand.obeys_settle (hc.demand role k) hk
      · rw [Except.ok.injEq] at hk
        rw [← hk]
        exact hc.demand role k

/-! ### Issuing -/

lemma recordEvent {ev : Event} (hev : ev.Within s.generation rule) (sync : Sync)
    (i? : Option Instruction) : (c.recordEvent s ev sync i?).Obeys rule := by
  obtain ⟨hregs, hnonzero, -, -, hbarrier⟩ := recordEvent_frame c s ev sync i?
  refine ⟨hnonzero ▸ hc.nonzero, hregs ▸ hc.entry, fun role k => ?_⟩
  rcases hbarrier role with heq | ⟨storage, heq⟩
  · rw [heq]
    exact hc.demand role k
  · rw [heq, Barrier.demand_record]
    split
    · exact Demand.obeys_extend (hc.demand role k) hev
    split
    · exact Demand.obeys_age (hc.demand role k) hev
    · exact hc.demand role k

lemma issue {ev : Event} (hev : ev.Within s.generation rule) {sync : Sync}
    {i? : Option Instruction} (h : c.issue s ev sync i? = .ok c') : c'.Obeys rule := by
  have hi := issued_of_issue h
  refine ⟨fun d hd => ?_, fun r e he => ?_, fun role k => ?_⟩
  · rw [hi.nonzero, Flags.mem_union] at hd
    exact hd.elim (hc.nonzero d) hev.zero
  · rw [hi.entry] at he
    split at he
    · exact hc.entry r e he
    · obtain ⟨x, hx, rfl⟩ := Option.map_eq_some_iff.1 he
      exact Entry.obeys_age (hc.entry r x hx) hev
  · rw [hi.barrier]
    exact (hc.recordEvent hev sync i?).demand role k

lemma track {g : Generation} {range : RegRange} {ev : Event} (hev : ev.Within g rule)
    {blocksReads : Bool} {types : VmemTypeSet} {halves : BitVec 32}
    (h : c.track g range ev blocksReads types halves = .ok c') : c'.Obeys rule := by
  obtain ⟨-, rfl⟩ := track_eq_ok.1 h
  have hnew : ∀ j, (startedEntry g ev blocksReads types (HalfSet.ofWord halves j)).wait.Obeys rule :=
    fun _ => Wait.obeys_drain fun _ hd => hev.zero hd
  refine hc.of_barrier hc.nonzero ?_ fun role => by cases role <;> rfl
  exact forall_trackUnits (P := (·.wait.Obeys rule)) hnew (fun j hold => hold.both (hnew j)) hc.entry

/-- A context keeps a rule that allows the targets which come from the events of the instruction. -/
lemma start (hevents : ∀ ev ∈ Effect.issues (i.effects s), ev.Within s.generation rule)
    (h : c.start s i = .ok c') : c'.Obeys rule := by
  refine foldlM_invariant (·.Obeys rule) (fun effect heffect c c' hc h => ?_) hc h
  have hissued : ∀ {ev sync}, .issue ev sync ∈ i.effects s → ev.Within s.generation rule :=
    fun hmem => hevents _ (Effect.mem_issues.2 ⟨_, hmem⟩)
  cases effect with
  | issue ev sync => exact hc.issue (hissued heffect) h
  | track range ev blocksReads types halves =>
    obtain ⟨⟨sync, hsync⟩, -⟩ := i.announced_effects s _ heffect
    exact hc.track (hissued hsync) h
  | flat =>
    cases h
    exact hc.of_barrier hc.nonzero hc.entry fun role => by cases role <;> rfl
  | fail fault => cases h

/-! ### Waiting -/

lemma hazardWait {w : Wait} (h : c.hazardWait s i = .ok w) : w.Obeys rule := by
  simp only [Context.hazardWait, bind_eq_ok, pure_eq_ok] at h
  obtain ⟨-, -, writes, hwrites, rfl⟩ := h
  refine Wait.obeys_allOf fun v hv => ?_
  rcases List.mem_append.1 hv with hv | hv
  · obtain ⟨op, -, hv⟩ := List.mem_flatMap.1 hv
    obtain ⟨r, -, rfl⟩ := List.mem_map.1 hv
    rw [readWait]
    split
    · rename_i e he
      split
      · exact Entry.obeys_waitFor (hc.entry r e he) r
      · exact Wait.obeys_none rule
    · exact Wait.obeys_none rule
  · obtain ⟨ws, hws, hv⟩ := List.mem_flatten.1 hv
    obtain ⟨d, -, hd⟩ := exists_of_mem_mapM hwrites hws
    obtain ⟨⟨r, j⟩, -, hr⟩ := exists_of_mem_mapM hd hv
    dsimp only at hr
    rw [writeWait] at hr
    split at hr
    · rename_i e he
      exact Entry.obeys_overwriteWait (hc.entry r e he) hr
    · cases hr
      exact Wait.obeys_none rule

lemma payment (i : Instruction) : (c.payment s i).wait.Obeys rule := by
  have hfold : ∀ (role : BarrierRole) (l : List Storage) (q : Queue), q.wait.Obeys rule →
      (l.foldl (fun q k => q.both (((c.barrier role).demand k).payment s i)) q).wait.Obeys rule := by
    intro role l
    induction l with
    | nil => exact fun q hq => hq
    | cons k l ih => exact fun q hq => ih _ (hq.both (Demand.obeys_payment (hc.demand role k) i))
  have hbarrier : ∀ (role : BarrierRole) (storage : StorageSet),
      ((c.barrier role).payment s i storage).wait.Obeys rule := by
    intro role storage
    rw [Barrier.payment]
    split
    · exact hfold role _ _ (Wait.obeys_none rule)
    · exact Wait.obeys_none rule
  exact (hbarrier .release _).both (hbarrier .acquire _)

/-- What is queued for an instruction comes from the context, but for the counters that an outstanding
flat access leaves without order. -/
lemma await (hlower : ∀ c n, rule c n → rule c 0) {q q' : Queue} (hq : q.wait.Obeys rule)
    (h : c.await s i q = .ok (c', q')) : q'.wait.Obeys rule := by
  simp only [Context.await, bind_eq_ok, pure_eq_ok, Prod.mk.injEq] at h
  obtain ⟨hazard, hhazard, settled, -, -, rfl⟩ := h
  have hdrain : (c.drainBefore s i).Obeys rule := by
    rw [drainBefore]
    split
    · exact Wait.obeys_drain hc.nonzero
    · exact Wait.obeys_none rule
  have hturn : (c.turnWait i).Obeys rule := by
    rw [turnWait]
    split
    · exact hc.demand .releaseDependency .gds
    · exact Wait.obeys_none rule
  have hall := (hq.both ((hdrain.both (hc.hazardWait hhazard)).both hturn)).both
    ((hc.deferBefore (s := s) i).payment (s := s) i)
  refine hall.of_slots fun d hd => ?_
  dsimp only
  rw [get_coverFlat]
  split
  · rename_i hcover
    exact .inr (hlower d _ (hall d hcover.1))
  · exact .inl rfl

end Obeys

end Context

/-! ### What can be encoded -/

/-- The counters that a generation has. -/
def Generation.has (g : Generation) : Counter → Bool
  | .exp | .lgkm | .vm => true
  | .vs => .gfx10 ≤ g
  | .sample | .bvh | .km => .gfx12 ≤ g

/-- The targets that can be encoded for the counters that a generation has.  Those in `more` are taken to
be counters as well. -/
def Generation.encodes (g : Generation) (more : Counter → Prop) : TargetRule :=
  fun c n => n ≤ g.largestWait.get c ∧ (g.has c = true ∨ more c)

lemma Generation.horizon_le_largestWait (g : Generation) (c : Counter) :
    g.horizon.get c ≤ g.largestWait.get c := by
  cases g <;> cases c <;> decide

/-- Events are counted by counters that exist, as long as stores are told from loads only where they have
a counter of their own. -/
lemma Generation.has_of_counter? {g : Generation} {ev : Event} {c : Counter}
    (hstore : ev = .vmemStore → .gfx10 ≤ g) (hc : g.counter? ev = some c) : g.has c = true := by
  cases ev with
  | vmemStore =>
    cases hc
    exact decide_eq_true (hstore rfl)
  | smem | sendmsg | sendmsgRtn =>
    by_cases hg : .gfx12 ≤ g <;> simp only [counter?, hg, if_true, if_false] at hc <;> cases hc
    · exact decide_eq_true hg
    · rfl
  | vmemSample | vmemBvh =>
    by_cases hg : .gfx12 ≤ g <;> simp only [counter?, hg, if_true, if_false] at hc <;> cases hc
    exact decide_eq_true hg
  | _ =>
    cases hc
    rfl

variable {s : Setting}

lemma Event.within_encodes {ev : Event} {g : Generation} (hstore : ev = .vmemStore → .gfx10 ≤ g)
    (more : Counter → Prop) : ev.Within g (g.encodes more) :=
  fun c _ hc hn => ⟨UInt16.le_trans hn (g.horizon_le_largestWait c),
    .inl (Generation.has_of_counter? hstore hc)⟩

/-- Stores have an event of their own from generation 10 on. -/
lemma Instruction.le_of_issues_store {i : Instruction} (h : .vmemStore ∈ Effect.issues (i.effects s)) :
    .gfx10 ≤ s.generation := by
  rcases vmemEvent_or_of_issues h with ⟨-, type, hev⟩ | ⟨-, hno⟩
  · by_contra hold
    have hlater : ¬.gfx12 ≤ s.generation := by
      revert hold
      cases s.generation <;> decide
    simp [vmemEvent, hold, hlater] at hev
  · exact absurd rfl hno

/-- Contexts keep the rule over any code, and with a target it allows to wait for everything. -/
structure TargetRule.Stable (rule : TargetRule) (s : Setting) : Prop where
  kept : Context.Kept s (fun _ => True) (·.Obeys rule)
  zero : ∀ c n, rule c n → rule c 0

lemma Generation.stable_encodes (s : Setting) (more : Counter → Prop) :
    TargetRule.Stable (s.generation.encodes more) s where
  kept := {
    defer _ hc := hc.deferBefore _
    settle h hc := hc.settle h
    start _ h hc := hc.start (fun _ hev => Event.within_encodes
      (fun heq => Instruction.le_of_issues_store (heq ▸ hev)) more) h
    after _ hc := hc.deferAfter _ }
  zero _ _ hn := ⟨UInt16.le_iff_toNat_le.2 (Nat.zero_le _), hn.2⟩

/-- The context at the start of a program is encodable. -/
lemma Program.encodes_startContext {p : Program} {c : Context} {more : Counter → Prop}
    (h : p.startContext s = .ok c) : c.Obeys (s.generation.encodes more) := by
  have hlds : Event.lds.Within s.generation (s.generation.encodes more) :=
    Event.within_encodes (fun hno => by cases hno) more
  have hvmem : Event.vmem.Within s.generation (s.generation.encodes more) :=
    Event.within_encodes (fun hno => by cases hno) more
  refine foldlM_invariant (·.Obeys (s.generation.encodes more)) (fun range _ c c' hc h => ?_) ?_ h
  · simp only [bind_eq_ok] at h
    obtain ⟨c₁, hissue, htrack⟩ := h
    exact (hc.issue hvmem hissue).track hvmem htrack
  · split
    · exact (Context.obeys_empty _).recordEvent hlds _ _
    · exact Context.obeys_empty _

/-! ### The code -/

namespace Instruction

/-- The wait that an instruction is. -/
def wait? (i : Instruction) : Option Wait :=
  match i.payload with
  | .wait w => some w
  | _ => none

/-- If the instruction is a wait, then it follows the rule. -/
def Obeys (i : Instruction) (rule : TargetRule) : Prop := ∀ w ∈ i.wait?, w.Obeys rule

/-- If the instruction is a wait, then it also asks for something. -/
def Asks (i : Instruction) (rule : TargetRule) : Prop :=
  ∀ w ∈ i.wait?, w.Obeys rule ∧ w.isNone = false

variable {rule : TargetRule} {i : Instruction}

lemma Asks.obeys (h : i.Asks rule) : i.Obeys rule := fun w hw => (h w hw).1

lemma asks_of_wait?_eq_none (h : i.wait? = none) : i.Asks rule := by
  intro w hw
  rw [h] at hw
  cases hw

lemma wait?_eq_none_of_isWait (h : i.isWait = false) : i.wait? = none := by
  revert h
  cases hp : i.payload <;> simp [isWait, wait?, hp]

end Instruction

namespace Queue

variable {rule : TargetRule} {q : Queue} {i j : Instruction}

lemma obeys_ofInstruction (hi : i.Obeys rule) : (ofInstruction i).wait.Obeys rule := by
  rw [ofInstruction]
  split
  · rename_i w hw
    exact hi w (by simp [Instruction.wait?, hw])
  · exact Wait.obeys_none rule
  · exact Wait.obeys_none rule

/-- Only what asks for something is put out. -/
lemma asks_of_mem (hq : q.wait.Obeys rule) (hj : j ∈ q.instructions) : j.Asks rule := by
  rcases List.mem_append.1 hj with hj | hj
  · split at hj
    · cases hj
    · rename_i hsome
      rw [List.mem_singleton.1 hj]
      rintro w ⟨⟩
      exact ⟨hq, by simpa using hsome⟩
  · split at hj
    · cases hj
    · rw [List.mem_singleton.1 hj]
      exact Instruction.asks_of_wait?_eq_none rfl

end Queue

/-! ### Walks -/

/-- What is known and what is queued between two instructions follows the rule. -/
structure Walk.Obeys (w : Walk) (rule : TargetRule) : Prop where
  context : w.context.Obeys rule
  queue : w.queue.wait.Obeys rule

section

variable {rule : TargetRule}

namespace Walk

variable {i : Instruction} {rest : List Instruction} {w w' : Walk}

lemma obeys_finish {c : Context} {q : Queue} (hc : c.Obeys rule)
    (hq : q.wait.Obeys rule) :
    (∀ j ∈ (finish s i c q).1, j.Asks rule) ∧ (finish s i c q).2.wait.Obeys rule := by
  rw [finish]
  split
  · rw [release]
    split
    · have hrelease : (releaseWait c q).Obeys rule :=
        ((hc.demand .releaseDependency .scratch).both
          (hc.demand .releaseDependency .vgprSpill)).both hq
      refine ⟨fun j hj => ?_, Wait.obeys_none rule⟩
      rcases List.mem_append.1 hj with hj | hj
      · exact Queue.asks_of_mem (q := { wait := releaseWait c q }) hrelease hj
      · rw [List.mem_singleton.1 hj]
        exact Instruction.asks_of_wait?_eq_none rfl
    · exact ⟨by simp, hq⟩
  · exact ⟨by simp, hq⟩

lemma obeys_absorb {q : Queue} (hq : q.wait.Obeys rule) :
    (absorb i q).2.wait.Obeys rule := by
  rw [absorb]
  split
  · split
    · exact hq.clear .exp
    · exact hq
  · exact hq

lemma obeys_turnQueue {c : Context} (hc : c.Obeys rule) :
    (turnQueue c i).wait.Obeys rule := by
  rw [turnQueue]
  split
  · exact hc.demand .releaseDependency .gds
  · exact Wait.obeys_none rule

/-- What stays is no wait. -/
lemma asks_absorb {q : Queue} (hi : i.isWait = false) :
    (absorb i q).1.Asks rule := by
  refine Instruction.asks_of_wait?_eq_none ?_
  rcases (absorb_spec i q).1 with heq | ⟨n, m, -, -, heq⟩
  · rw [heq]
    exact Instruction.wait?_eq_none_of_isWait hi
  · rw [heq]
    rfl

section

variable (hrule : rule.Stable s)

include hrule

/-- A step puts out waits that ask for something and follow the rule. -/
lemma obeys_step {out : List Instruction} (hw : w.Obeys rule) (hi : i.Obeys rule)
    (h : step s i rest w = .ok (out, w')) :
    (∀ j ∈ out, j.Asks rule) ∧ w'.Obeys rule := by
  have hqueue : (w.queue.both (.ofInstruction i)).wait.Obeys rule :=
    hw.queue.both (Queue.obeys_ofInstruction hi)
  rcases step_eq_ok.1 h with ⟨-, rfl, rfl⟩ | ⟨-, left, c, q, c', hprepare, hstart, h⟩
  · exact ⟨by simp, hw.context, hqueue⟩
  · obtain ⟨hc, hq⟩ := prepare_induction (fun _ => True)
      (fun c q => c.Obeys rule ∧ q.wait.Obeys rule)
      (fun _ hawait hcq => ⟨hrule.kept.await trivial hawait hcq.1,
        hcq.1.await hrule.zero hcq.2 hawait⟩)
      trivial (fun _ _ => trivial) hprepare ⟨hw.context, hqueue⟩
    have hc' := hrule.kept.start trivial hstart hc
    obtain ⟨hout, hleft⟩ := obeys_finish (s := s) (i := i) hc hq
    rcases h with ⟨-, rfl, rfl⟩ | ⟨hstays, rfl, rfl⟩
    · exact ⟨hout, hc', hleft⟩
    · have hafter := hrule.kept.after (i := i) trivial hc'
      refine ⟨fun j hj => ?_, hafter, obeys_turnQueue hafter⟩
      rcases List.mem_append.1 hj with hj | hj
      · rcases List.mem_append.1 hj with hj | hj
        · exact hout j hj
        · exact Queue.asks_of_mem (obeys_absorb hleft) hj
      · rw [List.mem_singleton.1 hj]
        exact asks_absorb (Bool.or_eq_false_iff.1 hstays).2

lemma obeys_steps {is out : List Instruction} (hw : w.Obeys rule) (his : ∀ i ∈ is, i.Obeys rule)
    (h : steps s is w = .ok (out, w')) :
    (∀ j ∈ out, j.Asks rule) ∧ w'.Obeys rule := by
  induction is generalizing w out with
  | nil =>
    cases h
    exact ⟨by simp, hw⟩
  | cons i rest ih =>
    obtain ⟨emitted, w₁, later, hstep, hlater, rfl⟩ := steps_cons h
    obtain ⟨hemitted, hw₁⟩ := obeys_step hrule hw (his i (by simp)) hstep
    obtain ⟨hout, hw'⟩ := ih hw₁ (fun j hj => his j (List.mem_cons_of_mem _ hj)) hlater
    exact ⟨fun j hj => (List.mem_append.1 hj).elim (hemitted j) (hout j), hw'⟩

end

end Walk

lemma Block.obeys_insertWaits (hrule : rule.Stable s) {b b' : Block} {c c' : Context}
    (hc : c.Obeys rule) (hb : ∀ i ∈ b.instructions, i.Obeys rule)
    (h : b.insertWaits s c = .ok (b', c')) :
    (∀ j ∈ b'.instructions, j.Asks rule) ∧ c'.Obeys rule := by
  obtain ⟨code, w, hsteps, rfl, rfl⟩ := insertWaits_eq_ok.1 h
  obtain ⟨hcode, hw⟩ := Walk.obeys_steps hrule ⟨hc, Wait.obeys_none _⟩ hb hsteps
  have hfinal : (b.finalQueue w).wait.Obeys rule := by
    rw [finalQueue]
    split
    · exact hw.queue.both (Wait.obeys_drain hw.context.nonzero)
    · exact hw.queue
  exact ⟨fun j hj => (List.mem_append.1 hj).elim (hcode j) (Queue.asks_of_mem hfinal), hw.context⟩

/-! ### The sweep -/

/-- What is known at the ends of the block and the waits in it follow the rule, and once the block has
been processed each of them asks for something. -/
structure Node.Obeys (node : Node) (rule : TargetRule) : Prop where
  entry : node.entry.Obeys rule
  exit : node.exit.Obeys rule
  code : ∀ i ∈ node.block.instructions, i.Obeys rule
  done : node.done = true → ∀ i ∈ node.block.instructions, i.Asks rule

namespace Sweep

variable {w w' : Sweep} {place : Nat} {node : Node}

lemma obeys_joinEdges {nodes : List Node} {edges : List (Nat × Context.Edge)}
    {c c' : Context} {grew : Bool} (hnodes : ∀ node ∈ nodes, node.Obeys rule) (hc : c.Obeys rule)
    (h : joinEdges nodes edges c = .ok (c', grew)) : c'.Obeys rule := by
  induction edges generalizing c grew with
  | nil =>
    simp only [joinEdges, Except.ok.injEq, Prod.mk.injEq] at h
    exact h.1 ▸ hc
  | cons e rest ih =>
    obtain ⟨pred, more, hpred, hrest, -⟩ := joinEdges_cons.1 h
    exact ih (hc.join (hnodes pred (List.mem_of_getElem? hpred)).exit e.2) hrest

lemma obeys_step (hrule : rule.Stable s) (hw : ∀ node ∈ w.nodes, node.Obeys rule)
    (hn : w.nodes[place]? = some node) (h : w.step s place node = .ok w') :
    ∀ node ∈ w'.nodes, node.Obeys rule := by
  rcases step_rewrite h with ⟨-, hsame⟩ | ⟨-, v, hv, hvisit, -⟩
  · rw [hsame]
    exact hw
  · have hnode := hw node (List.mem_of_getElem? hn)
    obtain ⟨entry, grew, node', hjoin, hnodes, -, -, hcases⟩ := visit_cases hvisit
    rw [hv] at hjoin hnodes
    have hentry := obeys_joinEdges hw hnode.entry hjoin
    have hnode' : node'.Obeys rule := by
      rcases hcases with ⟨-, -, rfl, -⟩ | ⟨block, exit, hinsert, rfl, -⟩
      · exact ⟨hentry, hnode.exit, hnode.code, hnode.done⟩
      · obtain ⟨hcode, hexit⟩ := Block.obeys_insertWaits hrule hentry hnode.code hinsert
        exact ⟨hentry, hexit, fun i hi => (hcode i hi).obeys, fun _ => hcode⟩
    intro other hother
    rw [hnodes] at hother
    rcases List.mem_or_eq_of_mem_set hother with hother | rfl
    · exact hw other hother
    · exact hnode'

/-- All blocks up to a place have been processed, unless lanes jump to them.  The sweep has not gone past
this place, and goes back only to places in front of it. -/
def Reaches (w : Sweep) : Prop :=
  ∃ m, w.next ≤ m ∧ (∀ h ∈ w.headers, h < m) ∧ ∀ (n : Nat) (node : Node), n < m →
    w.nodes[n]? = some node → .discardEarlyExit ∈ node.block.kind ∨ node.done = true

lemma reaches_start (nodes : List Node) : Reaches { nodes } :=
  ⟨0, Nat.le_refl 0, by simp, fun _ _ hn => absurd hn (Nat.not_lt_zero _)⟩

lemma Reaches.step (hw : w.Reaches) (hn : w.nodes[w.next]? = some node)
    (h : w.step s w.next node = .ok w') : w'.Reaches := by
  obtain ⟨m, hnext, hheaders, hdone⟩ := hw
  -- The node at hand has been processed afterwards, and so the next place is reached as well.
  have hvisit : ∀ {v : Sweep}, v.visit s w.next node = .ok w' → v.nodes = w.nodes →
      (∀ h ∈ v.headers, h = w.next ∨ h ∈ w.headers) → w'.Reaches := by
    intro v hvisit hv hstack
    obtain ⟨entry, grew, node', -, hnodes, hheaders', hnext', hcases⟩ := visit_cases hvisit
    refine ⟨max m (w.next + 1), by omega, fun h hmem => ?_, fun n other hlt hother => ?_⟩
    · rcases hstack h (hheaders' ▸ hmem) with rfl | hmem
      · omega
      · have := hheaders h hmem
        omega
    · rw [getElem?_visit (hv ▸ hnodes) hn] at hother
      split at hother
      · cases hother
        rcases hcases with ⟨hdone, -, rfl, -⟩ | ⟨block, exit, -, rfl, -⟩
        · exact .inr hdone
        · exact .inr rfl
      · exact hdone n other (by omega) hother
  rcases step_cases h with ⟨hskip, rfl⟩ | ⟨-, ⟨-, h⟩ | ⟨-, ⟨-, h⟩ | ⟨-, header, headers, hstack, h⟩⟩⟩
  · refine ⟨max m (w.next + 1), Nat.le_max_right _ _, fun h hmem => ?_, fun n other hlt hother => ?_⟩
    · have := hheaders h hmem
      omega
    · by_cases heq : n = w.next
      · subst heq
        cases hn.symm.trans hother
        exact .inl hskip
      · exact hdone n other (by omega) hother
  · exact hvisit h rfl fun h hmem => List.mem_cons.1 hmem
  · exact hvisit h rfl fun h hmem => .inr hmem
  · have htail : ∀ h ∈ headers, h ∈ w.headers := fun h hmem => hstack ▸ List.mem_cons_of_mem _ hmem
    rcases h with ⟨-, rfl⟩ | ⟨-, h⟩
    · exact ⟨m, Nat.le_of_lt (hheaders header (hstack ▸ List.mem_cons_self)),
        fun h hmem => hheaders h (htail h hmem), hdone⟩
    · exact hvisit h rfl fun h hmem => .inr (htail h hmem)

end Sweep

end

/-! ### The result -/

namespace Program

variable {p : Program} {drainAll : Bool} {w : Sweep}

/-- The blocks before the sweep: nothing is known but what began before the program. -/
lemma mem_nodes {nodes : List Node} (h : p.nodes s = .ok nodes) {node : Node} (hn : node ∈ nodes) :
    node.block ∈ p.blocks ∧ (node.entry = {} ∨ p.startContext s = .ok node.entry)
      ∧ node.exit = {} ∧ node.done = false := by
  rw [Program.nodes] at h
  split at h
  · cases h
    cases hn
  · rename_i first rest hblocks
    simp only [bind_eq_ok, pure_eq_ok] at h
    obtain ⟨entry, hentry, rfl⟩ := h
    rw [hblocks]
    rcases List.mem_cons.1 hn with rfl | hn
    · exact ⟨List.mem_cons_self, .inr hentry, rfl, rfl⟩
    · obtain ⟨b, hb, rfl⟩ := List.mem_map.1 hn
      exact ⟨List.mem_cons_of_mem _ hb, .inl rfl, rfl, rfl⟩

/-- What is true of every wait of the program and the block that it stands in. -/
def EachWait (p : Program) (P : Block → Wait → Prop) : Prop :=
  ∀ b ∈ p.blocks, ∀ i ∈ b.instructions, ∀ v ∈ i.wait?, P b v

/-- Some wait of the program has a target for the counter. -/
def SetsCounter (p : Program) (c : Counter) : Prop :=
  ∃ b ∈ p.blocks, ∃ i ∈ b.instructions, ∃ v ∈ i.wait?, v.isSet c = true

/-- If the waits in the code can be encoded, then so can those of the result.  None of them is empty where
blocks are processed, and none has a target for a counter that the generation lacks unless the code asked
for it. -/
theorem encodable_of_solve (h : p.solve drainAll = .ok w)
    (hcode : p.EachWait fun _ v => ∀ c, v.isSet c = true →
      v.get c ≤ p.config.generation.largestWait.get c) :
    (p.withNodes w.nodes).EachWait fun b v =>
      (∀ c, v.isSet c = true → v.get c ≤ p.config.generation.largestWait.get c)
        ∧ (.discardEarlyExit ∉ b.kind → v.isNone = false)
        ∧ ∀ c, p.config.generation.has c = false → v.isSet c = true → p.SetsCounter c := by
  obtain ⟨nodes, hnodes, hrun⟩ := bind_eq_ok.1 h
  have hrule := Generation.stable_encodes { config := p.config, drainAll } p.SetsCounter
  have hstart : ∀ node ∈ nodes, node.Obeys (p.config.generation.encodes p.SetsCounter) := by
    intro node hnode
    obtain ⟨hblock, hentry, hexit, hdone⟩ := mem_nodes hnodes hnode
    refine ⟨?_, by rw [hexit]; exact Context.obeys_empty _, fun i hi v hv c hc => ?_,
      fun hno => by rw [hdone] at hno; cases hno⟩
    · rcases hentry with hentry | hentry
      · rw [hentry]
        exact Context.obeys_empty _
      · exact encodes_startContext (s := { config := p.config, drainAll }) hentry
    · exact ⟨hcode _ hblock i hi v hv c hc, .inr ⟨_, hblock, i, hi, v, hv, hc⟩⟩
  obtain ⟨⟨hobeys, m, hnext, -, hreached⟩, hend⟩ := Sweep.run_invariant
    (fun w => (∀ node ∈ w.nodes, node.Obeys (p.config.generation.encodes p.SetsCounter)) ∧ w.Reaches)
    (fun hw hn hs => ⟨Sweep.obeys_step hrule hw.1 hn hs, hw.2.step hn hs⟩)
    ⟨hstart, Sweep.reaches_start nodes⟩ hrun
  intro b hb i hi v hv
  obtain ⟨node, hnode, rfl⟩ := List.mem_map.1 hb
  have hfollows := (hobeys node hnode).code i hi v hv
  refine ⟨fun c hc => (hfollows c hc).1, fun hkind => ?_, fun c hno hc => ?_⟩
  · obtain ⟨n, hn⟩ := List.getElem?_of_mem hnode
    have hlt : n < m := by
      have := (List.getElem?_eq_some_iff.1 hn).1
      have := List.getElem?_eq_none_iff.1 hend
      omega
    have hdone := (hreached n node hlt hn).resolve_left hkind
    exact ((hobeys node hnode).done hdone i hi v hv).2
  · refine (hfollows c hc).2.resolve_left fun hhas => ?_
    rw [hno] at hhas
    cases hhas

/-- A loop of generation 9 with loads.  The arguments are waits, in front of the loop and in it. -/
def oldLoop (front inside : List Instruction) : Program where
  config := { generation := .gfx9 }
  blocks := [
    Sample.block 0 {.topLevel} [] 0 (front ++ [Sample.bufferLoad (.vgpr 2) (.vgpr 0)]),
    Sample.block 1 {.loopHeader} [0, 1] 1 (inside ++ [Sample.vectorOp (.vgpr 3) [.vgpr 2],
      Sample.bufferLoad (.vgpr 4) (.vgpr 0), Sample.bufferLoad (.vgpr 2) (.vgpr 0)]),
    Sample.block 2 {.loopExit} [1] 0 [Sample.endProgram]]

/-- The loop where the code waits for stores, which have no counter of their own in this generation, and
then for nothing. -/
def oldCode : Program := oldLoop [.ofWait (.single .vs 0), .ofWait .none] []

theorem encodable_oldCode :
    (oldCode.EachWait fun _ v => ∀ c, v.isSet c = true → v.get c ≤ Generation.gfx9.largestWait.get c)
      ∧ ∃ w, oldCode.solve false = .ok w
        ∧ oldCode.withNodes w.nodes = oldLoop [.ofWait (.single .vs 0)] [.ofWait (.single .vm 0)]
        ∧ (oldCode.withNodes w.nodes).EachWait fun b v =>
          (∀ c, v.isSet c = true → v.get c ≤ Generation.gfx9.largestWait.get c)
            ∧ (.discardEarlyExit ∉ b.kind → v.isNone = false)
            ∧ ∀ c, Generation.gfx9.has c = false → v.isSet c = true → oldCode.SetsCounter c := by
  have hlisted : ∀ b ∈ oldCode.blocks, ∀ i ∈ b.instructions, ∀ v ∈ i.wait?, ∀ c ∈ Counter.all,
      v.isSet c = true → v.get c ≤ Generation.gfx9.largestWait.get c := by decide
  have hcode : oldCode.EachWait fun _ v => ∀ c, v.isSet c = true →
      v.get c ≤ Generation.gfx9.largestWait.get c :=
    fun b hb i hi v hv c => hlisted b hb i hi v hv c c.mem_all
  obtain ⟨w, hw, hresult⟩ : ∃ w, oldCode.solve false = .ok w ∧ oldCode.withNodes w.nodes
      = oldLoop [.ofWait (.single .vs 0)] [.ofWait (.single .vm 0)] :=
    exists_solve 20 (by decide +kernel)
  exact ⟨hcode, w, hw, hresult, encodable_of_solve hw hcode⟩

end Program

end GpuWaits
