/-
# Tidy contexts

Contexts are compared by their accesses and by the targets that complete them.  For the comparison to
say something the two have to fit together: an entry or a demand has a target exactly for the counters
of its accesses, no target lies past the horizon, and an entry with loads from vector memory knows their
types.  Such contexts are called tidy.

Steady code keeps contexts tidy (`Context.kept_tidy`).  Its flat accesses load nothing where types matter,
since a flat load has no type, and so no counter ever loses its order.
-/
import GpuWaits.Proofs.Exact
import GpuWaits.Proofs.Ledger

namespace GpuWaits

/-! ### Steady code -/

/-- The instruction pays for its release by itself: it is an atomic store, and no order that the hardware
keeps within a workgroup reaches as far as its scope. -/
def Instruction.PaysRelease (i : Instruction) : Prop :=
  .atomic ∈ i.sync.semantics ∧ (i.definitions = [] ∨ .rmw ∈ i.sync.semantics)
    ∧ .workgroup < i.sync.scope

instance (i : Instruction) : Decidable i.PaysRelease := inferInstanceAs (Decidable (_ ∧ _ ∧ _))

/-- A program that ends keeps its registers until its stores are complete. -/
def Setting.HoldsRegisters (s : Setting) : Prop :=
  .gfx11 ≤ s.generation →
    s.config.numVgprs ≤ s.config.physicalVgprs / max s.config.maxWavesPerSimd 1

instance (s : Setting) : Decidable s.HoldsRegisters := inferInstanceAs (Decidable (_ → _))

/-- An instruction of which the walk makes the same when it comes by again.  Flat accesses load nothing
where the types of loads matter, there are no interpolations, which take over a wait for good, an access
that may be in a clause pays for its release, and the end of the program does not release the registers. -/
structure Instruction.Steady (s : Setting) (i : Instruction) : Prop where
  coherent : i.isCoherent = true
  valid : i.defect? = none
  flat : s.generation < .gfx12 → i.format = .flat → i.definitions = []
  waits : i.format ≠ .vinterpInreg
  releases : .release ∈ i.sync.semantics → ¬i.sync.scope ≤ s.aloneScope →
    i.isBarrier = true ∨ i.isDs = true ∨ i.PaysRelease
  ends : i.opcode = .sEndpgm → s.HoldsRegisters

instance (s : Setting) (i : Instruction) : Decidable (i.Steady s) :=
  decidable_of_iff (i.isCoherent = true ∧ i.defect? = none
      ∧ (s.generation < .gfx12 → i.format = .flat → i.definitions = []) ∧ i.format ≠ .vinterpInreg
      ∧ (.release ∈ i.sync.semantics → ¬i.sync.scope ≤ s.aloneScope →
        i.isBarrier = true ∨ i.isDs = true ∨ i.PaysRelease)
      ∧ (i.opcode = .sEndpgm → s.HoldsRegisters))
    ⟨fun ⟨h₁, h₂, h₃, h₄, h₅, h₆⟩ => ⟨h₁, h₂, h₃, h₄, h₅, h₆⟩,
      fun h => ⟨h.coherent, h.valid, h.flat, h.waits, h.releases, h.ends⟩⟩

/-- The effect starts no load of vector memory whose type matters and is not known. -/
def Effect.Typed (g : Generation) : Effect → Prop
  | .track _ ev _ types _ => g < .gfx12 → g.counter? ev = some .vm → types.isEmpty = false
  | .flat => False
  | .issue _ _ | .fail _ => True

lemma Effect.typed_of_ne {g : Generation} {range : RegRange} {ev : Event} {blocksReads : Bool}
    {types : VmemTypeSet} {halves : BitVec 32} (h : g.counter? ev ≠ some .vm) :
    (Effect.track range ev blocksReads types halves).Typed g := fun _ hvm => absurd hvm h

lemma Payload.fits_flat (access : FlatAccess) (f : Format) :
    (Payload.flat access).fits f = (f == .flat || f == .global || f == .scratch) := by
  cases f <;> rfl

lemma Payload.fits_vmem (sync : Sync) (f : Format) :
    (Payload.vmem sync).fits f = (f matches .mubuf | .mtbuf | .mimg) := by
  cases f <;> rfl

namespace Instruction

variable {i : Instruction} {s : Setting}

/-- The loads of vector memory have a type. -/
lemma vmemType?_of_isVmem (h : i.isVmem = true ∨ i.format = .global ∨ i.format = .scratch)
    (g : Generation) : i.vmemType? g ≠ none := by
  rw [vmemType?]
  split
  · simp
  · simp
  · simp
  · split <;> simp
  · rw [if_pos]
    · simp
    · rcases h with h | h | h <;> simp [h]

/-- Steady code knows the types of its loads. -/
lemma Steady.typed (hi : i.Steady s) : ∀ e ∈ i.effects s, e.Typed s.generation := by
  intro e he
  cases mayStart_of_mem he with
  | access | event | fail => trivial
  | load hp hd =>
    intro hold _
    have hflat : i.format ≠ .flat := fun hflat => List.ne_nil_of_mem hd (hi.flat hold hflat)
    have hfits := fits_of_isCoherent hi.coherent
    have htype : i.vmemType? s.generation ≠ none := by
      refine vmemType?_of_isVmem ?_ _
      rcases hp with ⟨access, hp⟩ | ⟨sync, hp⟩
      · rw [hp, Payload.fits_flat] at hfits
        exact .inr (by simpa [hflat] using hfits)
      · rw [hp, Payload.fits_vmem] at hfits
        exact .inl hfits
    obtain ⟨type, htype⟩ := Option.ne_none_iff_exists'.1 htype
    rw [vmemTypes, htype]
    cases type <;> decide
  | write _ _ hc => exact Effect.typed_of_ne hc
  | read _ _ hreads => exact Effect.typed_of_ne (by simp [Event.counter?_of_reads hreads])
  | flat hformat hd hold => exact hd (hi.flat (Nat.lt_trans hold (by decide)) hformat)

end Instruction

/-! ### Targets within the horizon -/

/-- No target lies past the horizon. -/
def Wait.Near (w : Wait) (g : Generation) : Prop :=
  ∀ c, w.isSet c = true → w.get c ≤ g.horizon.get c

namespace Wait

variable {g : Generation} {v w : Wait}

lemma Near.both (hv : v.Near g) (hw : w.Near g) : (v.both w).Near g := by
  intro c hc
  rcases (isSet_both v w c).1 hc with h | h
  · exact UInt16.le_trans (both_le_left v w c) (hv c h)
  · exact UInt16.le_trans (both_le_right v w c) (hw c h)

lemma near_none (g : Generation) : none.Near g := by
  intro c hc
  simp [isSet] at hc

lemma isSet_drain {cs : CounterSet} {c : Counter} : (drain cs).isSet c = true ↔ c ∈ cs := by
  rw [isSet_iff, get_drain]
  split
  · exact iff_of_true (by decide) ‹_›
  · exact iff_of_false (fun h => h rfl) ‹_›

lemma near_drain (cs : CounterSet) (g : Generation) : (drain cs).Near g := by
  intro c hc
  rw [get_drain, if_pos (isSet_drain.1 hc)]
  exact UInt16.le_iff_toNat_le.2 (Nat.zero_le _)

/-- Counting one more operation on some counters sets no target and clears none. -/
lemma isSet_oneMore {p : Counter → Prop} [DecidablePred p] (hp : ∀ c, p c → w.isSet c = true)
    (c : Counter) :
    (Wait.ofFn fun c => if p c then g.oneMore c (w.get c) else w.get c).isSet c = true
      ↔ w.isSet c = true := by
  rw [isSet_iff, get_ofFn]
  split
  · exact iff_of_true (g.oneMore_ne_unset c _) (hp c ‹_›)
  · exact isSet_iff.symm

lemma Near.oneMore {p : Counter → Prop} [DecidablePred p] (hw : w.Near g)
    (hp : ∀ c, p c → w.isSet c = true) :
    (Wait.ofFn fun c => if p c then g.oneMore c (w.get c) else w.get c).Near g := by
  intro c hc
  have hset := (isSet_oneMore hp c).1 hc
  rw [get_ofFn]
  split
  · exact g.oneMore_le_horizon c _
  · exact hw c hset

end Wait

/-! ### Entries -/

/-- The entry has targets for the counters of its accesses and no others, none of them past the
horizon. -/
structure Entry.Timed (e : Entry) (g : Generation) : Prop where
  timed : ∀ c, e.wait.isSet c = true ↔ c ∈ e.counters
  near : e.wait.Near g

/-- The entry has targets for the counters of its accesses and no others, none of them past the horizon,
and knows the types of its loads from vector memory where they matter. -/
structure Entry.Tidy (e : Entry) (g : Generation) : Prop where
  timed : ∀ c, e.wait.isSet c = true ↔ c ∈ e.counters
  near : e.wait.Near g
  typed : g < .gfx12 → .vm ∈ e.counters → e.vmemTypes.isEmpty = false

/-- What is left of the entry `e` when the accesses on some counters are complete.  Lanes are looked at
again only then. -/
structure Entry.Left (g : Generation) (met : Counter → Prop) (e e' : Entry) : Prop where
  gone : ∀ c, met c → e'.wait.get c = Wait.unset
  kept : ∀ c, ¬met c → e'.wait.get c = e.wait.get c
  events : ∀ ev, ev ∈ e'.events ↔ ev ∈ e.events ∧ ∀ c, g.counter? ev = some c → ¬met c
  counters : ∀ c, c ∈ e'.counters ↔ c ∈ e.counters ∧ ¬met c
  lanes : ∀ ev ∈ e'.laneEvents, ev ∈ e.laneEvents ∧ ((∃ c, met c) → ev ∈ e'.events)
  seen : ∀ ev ∈ e.laneEvents, ((∃ c, met c) → ev ∈ e'.events) → ev ∈ e'.laneEvents
  blocksReads : e'.blocksReads = e.blocksReads
  loaded : met .vm → e'.vmemTypes = ∅ ∧ e'.halves = ∅
  loading : ¬met .vm → e'.vmemTypes = e.vmemTypes ∧ e'.halves = e.halves

namespace Entry

variable {g : Generation} {e e' : Entry} {met met' : Counter → Prop}

lemma Left.refl (g : Generation) (e : Entry) : e.Left g (fun _ => False) e where
  gone _ h := h.elim
  kept _ _ := rfl
  events _ := by simp
  counters _ := by simp
  lanes _ h := ⟨h, fun ⟨_, hno⟩ => hno.elim⟩
  seen _ h _ := h
  blocksReads := rfl
  loaded h := h.elim
  loading _ := ⟨rfl, rfl⟩

lemma Left.congr (h : e.Left g met e') (hmet : ∀ c, met c ↔ met' c) : e.Left g met' e' := by
  obtain rfl : met = met' := funext fun c => propext (hmet c)
  exact h

lemma left_forget (g : Generation) (e : Entry) (d : Counter) :
    e.Left g (· = d) (e.forget d (g.eventsOn d)) where
  gone c h := by simp [forget, h]
  kept c h := by simp [forget, h]
  events ev := by
    simp only [forget, Flags.mem_sdiff, Generation.mem_eventsOn]
    refine and_congr_right fun _ => ?_
    constructor
    · rintro hne c hc rfl
      exact hne hc
    · exact fun h hd => h d hd rfl
  counters c := by simp [forget]
  lanes ev h := by
    simp only [forget, Flags.mem_inter] at h ⊢
    exact ⟨h.1, fun _ => h.2⟩
  seen ev h hev := by
    simp only [forget, Flags.mem_inter] at hev ⊢
    exact ⟨h, hev ⟨d, rfl⟩⟩
  blocksReads := rfl
  loaded h := by
    subst h
    simp [forget, Generation.counter?]
  loading h := by
    have hvm : d ≠ .vm := fun hd => h hd.symm
    have hno : .vmem ∉ g.eventsOn d := by simpa [Generation.counter?] using Ne.symm hvm
    simp [forget, hvm, hno]

lemma Left.trans {e'' : Entry} (h : e.Left g met e') (h' : e'.Left g met' e'') :
    e.Left g (fun c => met c ∨ met' c) e'' where
  gone c hc := by
    by_cases hm : met' c
    · exact h'.gone c hm
    · rw [h'.kept c hm]
      exact h.gone c (hc.resolve_right hm)
  kept c hc := by
    obtain ⟨hm, hm'⟩ := not_or.1 hc
    rw [h'.kept c hm', h.kept c hm]
  events ev := by
    rw [h'.events, h.events, and_assoc]
    refine and_congr_right fun _ => ?_
    constructor
    · rintro ⟨h₁, h₂⟩ c hc (hm | hm)
      · exact h₁ c hc hm
      · exact h₂ c hc hm
    · exact fun hno => ⟨fun c hc hm => hno c hc (.inl hm), fun c hc hm => hno c hc (.inr hm)⟩
  counters c := by
    rw [h'.counters, h.counters, and_assoc, not_or]
  lanes ev hev := by
    obtain ⟨hev', hin⟩ := h'.lanes ev hev
    obtain ⟨hev₀, hin₀⟩ := h.lanes ev hev'
    refine ⟨hev₀, fun hm => ?_⟩
    by_cases hm' : ∃ c, met' c
    · exact hin hm'
    · obtain ⟨c, hc⟩ := hm
      rw [h'.events]
      exact ⟨hin₀ ⟨c, hc.resolve_right fun hc' => hm' ⟨c, hc'⟩⟩, fun d _ hd => hm' ⟨d, hd⟩⟩
  seen ev hev hin := by
    refine h'.seen ev (h.seen ev hev fun ⟨c, hc⟩ => ?_) fun ⟨c, hc⟩ => hin ⟨c, .inr hc⟩
    exact ((h'.events ev).1 (hin ⟨c, .inl hc⟩)).1
  blocksReads := h'.blocksReads.trans h.blocksReads
  loaded hm := by
    by_cases hm' : met' .vm
    · exact h'.loaded hm'
    · rw [(h'.loading hm').1, (h'.loading hm').2]
      exact h.loaded (hm.resolve_right hm')
  loading hm := by
    obtain ⟨hm₁, hm₂⟩ := not_or.1 hm
    rw [(h'.loading hm₂).1, (h'.loading hm₂).2]
    exact h.loading hm₁

/-- Settling forgets the accesses on the counters that have fallen far enough. -/
lemma left_settle (e : Entry) (g : Generation) (w : Wait) :
    e.Left g (w.Meets e.wait) (e.settle g w) := by
  have hfold : ∀ (targets : List (Counter × UInt16)) (e : Entry),
      e.Left g (fun c => ∃ n, (c, n) ∈ targets ∧ n ≤ e.wait.get c) (targets.foldl
        (fun e t => if t.2 ≤ e.wait.get t.1 then e.forget t.1 (g.eventsOn t.1) else e) e) := by
    intro targets
    induction targets with
    | nil => exact fun e => (Left.refl g e).congr (by simp)
    | cons t rest ih =>
      obtain ⟨d, n⟩ := t
      intro e
      rw [List.foldl_cons]
      dsimp only
      split
      · rename_i hle
        refine ((left_forget g e d).trans (ih _)).congr fun c => ?_
        by_cases hc : c = d
        · subst hc
          exact iff_of_true (.inl rfl) ⟨n, by simp, hle⟩
        · simp [forget, hc]
      · rename_i hle
        refine (ih e).congr fun c => ?_
        constructor
        · rintro ⟨m, hm, hmle⟩
          exact ⟨m, List.mem_cons_of_mem _ hm, hmle⟩
        · rintro ⟨m, hm, hmle⟩
          rcases List.mem_cons.1 hm with heq | hm
          · cases heq
            exact absurd hmle hle
          · exact ⟨m, hm, hmle⟩
  refine (hfold w.targets e).congr fun c => ?_
  simp only [Wait.mem_targets, Wait.Meets]
  constructor
  · rintro ⟨n, ⟨hset, rfl⟩, hle⟩
    exact ⟨hset, hle⟩
  · rintro ⟨hset, hle⟩
    exact ⟨_, ⟨hset, rfl⟩, hle⟩

lemma Timed.settle (h : e.Timed g) (w : Wait) : (e.settle g w).Timed g := by
  have hleft := left_settle e g w
  have hset : ∀ c, (e.settle g w).wait.isSet c = true ↔ e.wait.isSet c = true ∧ ¬w.Meets e.wait c := by
    intro c
    by_cases hm : w.Meets e.wait c
    · simp [Wait.isSet, hleft.gone c hm, hm]
    · simp [Wait.isSet, hleft.kept c hm, hm]
  refine ⟨fun c => by rw [hset, hleft.counters, h.timed], fun c hc => ?_⟩
  obtain ⟨hset, hm⟩ := (hset c).1 hc
  rw [hleft.kept c hm]
  exact h.near c hset

lemma timed_startedEntry (g : Generation) (ev : Event) (blocksReads : Bool) (types : VmemTypeSet)
    (halves : HalfSet) : (Context.startedEntry g ev blocksReads types halves).Timed g :=
  ⟨fun _ => Wait.isSet_drain, Wait.near_drain _ g⟩

lemma Timed.join {o : Entry} (h : e.Timed g) (ho : o.Timed g) : (e.join o).Timed g :=
  ⟨fun c => by simp only [Entry.join, Wait.isSet_both, Flags.mem_union, h.timed, ho.timed],
    h.near.both ho.near⟩

/-- The counters that an event moves have a target. -/
lemma Timed.isSet_of_moved (h : e.Timed g) (he : e.Sound g) {ev : Event} {c : Counter}
    (hc : c ∈ g.countersOf {ev} ∧ e.events ∩ g.eventsOn c = {ev}) : e.wait.isSet c = true := by
  have hev : ev ∈ e.events ∩ g.eventsOn c := by rw [hc.2]; simp
  rw [h.timed, he.counters, Generation.mem_countersOf]
  simp only [Flags.mem_inter, Generation.mem_eventsOn] at hev
  exact ⟨ev, hev.1, hev.2⟩

lemma Timed.age (h : e.Timed g) (he : e.Sound g) (ev : Event) : (e.age g ev).Timed g := by
  rw [Entry.age]
  split
  · exact h
  · exact ⟨fun c => (Wait.isSet_oneMore (fun _ hc => h.isSet_of_moved he hc) c).trans (h.timed c),
      h.near.oneMore fun _ hc => h.isSet_of_moved he hc⟩

lemma Tidy.isTimed (h : e.Tidy g) : e.Timed g := ⟨h.timed, h.near⟩

lemma Timed.tidy (h : e.Timed g)
    (htyped : g < .gfx12 → .vm ∈ e.counters → e.vmemTypes.isEmpty = false) : e.Tidy g :=
  ⟨h.timed, h.near, htyped⟩

lemma Tidy.settle (h : e.Tidy g) (w : Wait) : (e.settle g w).Tidy g := by
  have hleft := left_settle e g w
  refine (h.isTimed.settle w).tidy fun hold hvm => ?_
  obtain ⟨hvm, hm⟩ := (hleft.counters .vm).1 hvm
  rw [(hleft.loading hm).1]
  exact h.typed hold hvm

lemma tidy_startedEntry {ev : Event} {types : VmemTypeSet}
    (h : g < .gfx12 → g.counter? ev = some .vm → types.isEmpty = false) (blocksReads : Bool) (halves : HalfSet) :
    (Context.startedEntry g ev blocksReads types halves).Tidy g := by
  refine (timed_startedEntry g ev blocksReads types halves).tidy fun hold hvm => ?_
  have hvm' : Counter.vm ∈ g.countersOf {ev} := hvm
  simp only [Context.startedEntry, if_pos hvm']
  exact h hold (Generation.mem_countersOf_singleton.1 hvm')

lemma Tidy.join {o : Entry} (h : e.Tidy g) (ho : o.Tidy g) : (e.join o).Tidy g := by
  refine (h.isTimed.join ho.isTimed).tidy fun hold hvm => ?_
  rcases (Flags.mem_union _ _ _).1 hvm with hvm | hvm
  · exact Flags.isEmpty_eq_false_of_lacks (Flags.lacks_union_left (Flags.lacks_refl _) _)
      (h.typed hold hvm)
  · exact Flags.isEmpty_eq_false_of_lacks (Flags.lacks_union_self _ _) (ho.typed hold hvm)

lemma Tidy.withLanes (h : e.Tidy g) (lanes : EventSet) : Tidy { e with laneEvents := lanes } g :=
  ⟨h.timed, h.near, h.typed⟩

lemma Tidy.age (h : e.Tidy g) (he : e.Sound g) (ev : Event) : (e.age g ev).Tidy g := by
  refine (h.isTimed.age he ev).tidy ?_
  rw [Entry.age]
  split <;> exact h.typed

end Entry

/-! ### Demands -/

/-- Every access that the demand asks for is counted and has a target, none of them past the horizon.  A
demand for nothing has the least scope. -/
structure Demand.Tidy (d : Demand) (g : Generation) : Prop where
  timed : ∀ ev ∈ d.events, ∃ c, g.counter? ev = some c ∧ d.wait.isSet c = true
  near : d.wait.Near g
  empty : (∀ ev, ev ∉ d.events) → d.scope = .invocation

namespace Demand

variable {g : Generation} {d o : Demand}

lemma tidy_empty (g : Generation) : ({} : Demand).Tidy g :=
  ⟨fun _ h => by simp at h, Wait.near_none g, fun _ => rfl⟩

lemma Tidy.both (h : d.Tidy g) (ho : o.Tidy g) {scope : Scope}
    (hscope : (∀ ev, ev ∉ d.events) → (∀ ev, ev ∉ o.events) → scope = .invocation) :
    Tidy { wait := d.wait.both o.wait, events := d.events ∪ o.events, scope } g := by
  refine ⟨fun ev hev => ?_, h.near.both ho.near, fun hno => ?_⟩
  · rcases (Flags.mem_union _ _ _).1 hev with hev | hev
    · obtain ⟨c, hc, hset⟩ := h.timed ev hev
      exact ⟨c, hc, (Wait.isSet_both _ _ c).2 (.inl hset)⟩
    · obtain ⟨c, hc, hset⟩ := ho.timed ev hev
      exact ⟨c, hc, (Wait.isSet_both _ _ c).2 (.inr hset)⟩
  · exact hscope (fun ev hev => hno ev ((Flags.mem_union _ _ _).2 (.inl hev)))
      fun ev hev => hno ev ((Flags.mem_union _ _ _).2 (.inr hev))

lemma Tidy.join (h : d.Tidy g) (ho : o.Tidy g) : (d.join o).Tidy g :=
  h.both ho fun hd hno => by rw [h.empty hd, ho.empty hno]; rfl

lemma Tidy.foldl_join {ds : List Demand} (h : d.Tidy g) (hds : ∀ o ∈ ds, o.Tidy g) :
    (ds.foldl Demand.join d).Tidy g := by
  induction ds generalizing d with
  | nil => exact h
  | cons o rest ih =>
    exact ih (h.join (hds o (by simp))) fun o' ho' => hds o' (List.mem_cons_of_mem _ ho')

lemma Tidy.extend (h : d.Tidy g) {ev : Event} (hev : ∃ c, g.counter? ev = some c) :
    (d.extend g ev).Tidy g := by
  obtain ⟨c, hc⟩ := hev
  have hone : Tidy { wait := .drain (g.countersOf {ev}), events := {ev} } g := by
    refine ⟨fun ev' hev' => ?_, Wait.near_drain _ g, fun _ => rfl⟩
    rw [EventSet.mem_singleton.1 hev']
    exact ⟨c, hc, Wait.isSet_drain.2 (Generation.mem_countersOf_singleton.2 hc)⟩
  exact h.both hone fun _ hno => absurd (EventSet.mem_singleton.2 rfl) (hno ev)

lemma Tidy.age (h : d.Tidy g) (ev : Event) : (d.age g ev).Tidy g := by
  rw [Demand.age]
  split
  · exact h
  · refine ⟨fun ev' hev' => ?_, h.near.oneMore fun _ hc => hc.2.1, h.empty⟩
    obtain ⟨c, hc, hset⟩ := h.timed ev' hev'
    exact ⟨c, hc, (Wait.isSet_oneMore (fun _ hc => hc.2.1) c).2 hset⟩

/-- An access that is left has not been waited for. -/
lemma not_meets_of_settle {w : Wait} {r : Option Demand} (h : settle g w.targets d = .ok r)
    {ev : Event} (hev : ev ∈ (r.getD {}).events) {c : Counter} (hc : g.counter? ev = some c)
    (hset : d.wait.isSet c = true) : ¬w.Meets d.wait c := by
  have hno : ∀ (targets : List (Counter × UInt16)) {d : Demand}, settle g targets d = .ok r →
      d.wait.isSet c = true → ∀ n, (c, n) ∈ targets → ¬n ≤ d.wait.get c := by
    intro targets
    induction targets with
    | nil => exact fun _ _ _ h => by cases h
    | cons t rest ih =>
      obtain ⟨c₀, n₀⟩ := t
      intro d h hset n hn
      rw [settle_cons] at h
      split at h
      · -- The counter of the access is another one, or the access would be gone.
        have hne : c ≠ c₀ := by
          rintro rfl
          have hgone : ev ∉ (d.forget g c).events := by simp [forget, hc]
          split at h
          · split at h
            · cases h
              simp at hev
            · cases h
          · exact hgone ((settle_spec h).1 ev hev)
        have hget : (d.forget g c₀).wait.get c = d.wait.get c := by simp [forget, hne]
        split at h
        · split at h
          · cases h
            simp at hev
          · cases h
        · have hrest := ih h (by rw [Wait.isSet_iff, hget]; exact Wait.isSet_iff.1 hset)
          rcases List.mem_cons.1 hn with heq | hn
          · exact absurd (congrArg Prod.fst heq) hne
          · rw [← hget]
            exact hrest n hn
      · rename_i hmet
        rcases List.mem_cons.1 hn with heq | hn
        · cases heq
          intro hle
          exact hmet (by simp [hset, hle])
        · exact ih h hset n hn
  rintro ⟨hw, hle⟩
  exact hno w.targets h hset _ (Wait.mem_targets.2 ⟨hw, rfl⟩) hle

end Demand

/-- A demand that asks for nothing has nothing to wait for. -/
lemma Demand.settle_of_forall_not_mem {g : Generation} {d : Demand} (hd : d.Counted g)
    (hno : ∀ ev, ev ∉ d.events) (targets : List (Counter × UInt16)) :
    settle g targets d = .ok (some d) := by
  induction targets with
  | nil => rfl
  | cons t rest ih =>
    have hunset : d.wait.isSet t.1 = false := by
      rw [Bool.eq_false_iff]
      intro hset
      obtain ⟨ev, hev, -⟩ := hd t.1 hset
      exact hno ev hev
    rw [settle_cons, hunset]
    exact ih

/-- What is left of the demand `d` when every counter has fallen to its target in `w`: the accesses that
have not been waited for, with their targets. -/
structure Demand.Left (g : Generation) (w : Wait) (d d' : Demand) : Prop where
  tidy : d'.Tidy g
  counted : d'.Counted g
  events : ∀ ev ∈ d'.events, ev ∈ d.events
  waiting : ∀ ev ∈ d'.events, ∀ c, g.counter? ev = some c → ¬w.Meets d.wait c
  kept : ∀ ev ∈ d.events, ∀ c, g.counter? ev = some c → ¬w.Meets d.wait c →
    ev ∈ d'.events ∧ d'.wait.get c = d.wait.get c ∧ d'.scope = d.scope

namespace Barrier

variable {g : Generation} {b b' : Barrier}

lemma left_settle (hs : b.Sound g) (ht : ∀ k, (b.demand k).Tidy g) {w : Wait}
    (h : b.settle g w = .ok b') (k : Storage) : (b.demand k).Left g w (b'.demand k) := by
  have hsettles := demand_settles h k
  have hcounted := hsettles.counted (hs.counted k)
  have hset : ∀ ev ∈ (b.demand k).events, ∀ c, g.counter? ev = some c →
      (b.demand k).wait.isSet c = true := by
    intro ev hev c hc
    obtain ⟨c', hc', hset⟩ := (ht k).timed ev hev
    rw [hc] at hc'
    cases hc'
    exact hset
  have hwaiting : ∀ ev ∈ (b'.demand k).events, ∀ c, g.counter? ev = some c →
      ¬w.Meets (b.demand k).wait c := by
    obtain ⟨left, hleft, hdemand, -⟩ := settle_eq_ok h
    have hk := hleft k
    intro ev hev c hc
    rw [hdemand] at hev
    split at hk
    · have hev' := hsettles.events ev (hdemand k ▸ hev)
      exact Demand.not_meets_of_settle hk hev hc (hset ev hev' c hc)
    · -- A class that is not listed asks for nothing.
      rename_i hno
      rw [Except.ok.injEq] at hk
      rw [← hk] at hev
      exact absurd (hs.listed k ev hev).1 hno
  have hkept : ∀ ev ∈ (b.demand k).events, ∀ c, g.counter? ev = some c →
      ¬w.Meets (b.demand k).wait c → ev ∈ (b'.demand k).events
        ∧ (b'.demand k).wait.get c = (b.demand k).wait.get c
        ∧ (b'.demand k).scope = (b.demand k).scope :=
    fun ev hev c hc hno => hsettles.kept ev hev c hc (hset ev hev c hc) hno
  refine ⟨⟨fun ev hev => ?_, fun c hc => ?_, fun hno => ?_⟩, hcounted, hsettles.events, hwaiting, hkept⟩
  · obtain ⟨c, hc, hset'⟩ := (ht k).timed ev (hsettles.events ev hev)
    refine ⟨c, hc, ?_⟩
    rw [Wait.isSet_iff, (hkept ev (hsettles.events ev hev) c hc (hwaiting ev hev c hc)).2.1]
    exact Wait.isSet_iff.1 hset'
  · obtain ⟨ev, hev, hcount⟩ := hcounted c hc
    have hev' := hsettles.events ev hev
    rw [(hkept ev hev' c hcount (hwaiting ev hev c hcount)).2.1]
    exact (ht k).near c (hset ev hev' c hcount)
  · obtain ⟨left, hleft, hdemand, -⟩ := settle_eq_ok h
    have hk := hleft k
    rw [hdemand] at hno ⊢
    cases hl : left.get k with
    | none => rfl
    | some d =>
      rw [hl] at hk hno
      -- A demand that asks for nothing is left as it is.
      have hd : b.demand k = d := by
        split at hk
        · rw [Demand.settle_of_forall_not_mem (hs.counted k) fun ev hev => ?_] at hk
          · simpa using hk
          · obtain ⟨ev', hev'⟩ := Demand.event_of_settle hk ⟨ev, hev⟩
            exact hno ev' hev'
        · simpa using hk
      rw [← hd] at hno ⊢
      exact (ht k).empty hno

end Barrier

/-! ### Contexts -/

/-- The context is sound and its demands are tidy. -/
structure Context.DemandsTidy (c : Context) (g : Generation) : Prop where
  sound : c.Sound g
  demand : ∀ role k, ((c.barrier role).demand k).Tidy g

/-- The parts of the context are tidy, and no counter has lost its order. -/
structure Context.Tidy (c : Context) (g : Generation) : Prop where
  sound : c.Sound g
  entry : ∀ (r : Reg) (e : Entry), c.regs[r]? = some e → e.Tidy g
  demand : ∀ role k, ((c.barrier role).demand k).Tidy g
  flatVm : c.flatVm = false
  flatLgkm : c.flatLgkm = false

namespace Context

variable {g : Generation} {s : Setting} {c c' o : Context} {i : Instruction}

lemma demandsTidy_empty (g : Generation) : ({} : Context).DemandsTidy g := by
  refine ⟨sound_empty g, fun role k => ?_⟩
  have hdemand : (({} : Context).barrier role).demand k = {} := by cases role <;> cases k <;> rfl
  rw [hdemand]
  exact Demand.tidy_empty g

lemma DemandsTidy.join (hc : c.DemandsTidy g) (ho : o.DemandsTidy g) (edge : Edge) :
    (c.join o edge).DemandsTidy g := by
  refine ⟨hc.sound.join ho.sound edge, fun role k => ?_⟩
  rw [barrier_join]
  split
  · rw [Barrier.demand_join]
    split
    · exact (hc.demand role k).join (ho.demand role k)
    · exact hc.demand role k
  · exact hc.demand role k

/-- What settling leaves of a demand. -/
lemma DemandsTidy.left (hc : c.DemandsTidy g) {w : Wait} (h : c.settle g w = .ok c')
    (role : BarrierRole) (k : Storage) :
    ((c.barrier role).demand k).Left g w ((c'.barrier role).demand k) := by
  rcases barrier_of_settle h role with ⟨heq, hno⟩ | ⟨-, hsettle⟩
  · -- A memory that is left alone asks for nothing, or there is nothing to wait for.
    have hwaiting : ∀ ev ∈ ((c.barrier role).demand k).events,
        ∀ d, ¬w.Meets ((c.barrier role).demand k).wait d := by
      rintro ev hev d ⟨hset, -⟩
      rcases hno with rfl | hlive
      · simp [Wait.isSet] at hset
      · rw [((hc.sound.barrier role).listed k ev hev).2] at hlive
        cases hlive
    rw [heq]
    exact ⟨hc.demand role k, (hc.sound.barrier role).counted k, fun _ hev => hev,
      fun ev hev d _ => hwaiting ev hev d, fun _ hev _ _ _ => ⟨hev, rfl, rfl⟩⟩
  · exact Barrier.left_settle (hc.sound.barrier role) (hc.demand role) hsettle k

lemma DemandsTidy.settle (hc : c.DemandsTidy g) {w : Wait} (h : c.settle g w = .ok c') :
    c'.DemandsTidy g :=
  ⟨hc.sound.settle h, fun role k => (hc.left h role k).tidy⟩

lemma DemandsTidy.movedDemand (hc : c.DemandsTidy g) (s : Setting) (sync : Sync)
    (source : BarrierRole) : (c.movedDemand s sync source).Tidy g := by
  refine (Demand.tidy_empty g).foldl_join fun d hd => ?_
  obtain ⟨k, -, rfl⟩ := List.mem_map.1 (List.mem_filter.1 hd).1
  exact hc.demand source k

lemma DemandsTidy.defer (hc : c.DemandsTidy g) (sync : Sync) (source target : BarrierRole) :
    (c.defer s sync source target).DemandsTidy g := by
  obtain ⟨-, -, -, -, hother⟩ := defer_frame c s sync source target
  refine ⟨hc.sound.defer s sync source target, fun role k => ?_⟩
  by_cases hr : role = target
  · subst hr
    rcases defer_cases c s sync source role with ⟨-, h⟩ | ⟨-, hmoved, h⟩
    · rw [h]
      exact hc.demand role k
    · rw [h, barrier_setBarrier, if_pos rfl]
      simp only [Barrier.demand, PerStorage.get_ofFn]
      split
      · obtain ⟨ev, hev⟩ := EventSet.isEmpty_eq_false_iff.1 hmoved
        exact (hc.demand role k).both (hc.movedDemand s sync source) fun _ hno =>
          absurd hev (hno ev)
      · exact hc.demand role k
  · rw [hother role hr]
    exact hc.demand role k

lemma DemandsTidy.recordEvent (hc : c.DemandsTidy s.generation) {ev : Event}
    (hev : ∃ d, s.generation.counter? ev = some d) (sync : Sync) (i? : Option Instruction) :
    (c.recordEvent s ev sync i?).DemandsTidy s.generation := by
  obtain ⟨-, -, -, -, hbarrier⟩ := recordEvent_frame c s ev sync i?
  refine ⟨hc.sound.recordEvent ev sync i?, fun role k => ?_⟩
  rcases hbarrier role with heq | ⟨storage, heq⟩
  · rw [heq]
    exact hc.demand role k
  · rw [heq, Barrier.demand_record]
    split
    · exact (hc.demand role k).extend hev
    split
    · exact (hc.demand role k).age ev
    · exact hc.demand role k

lemma DemandsTidy.issue (hc : c.DemandsTidy s.generation) {ev : Event}
    (hev : ∃ d, s.generation.counter? ev = some d) {sync : Sync} {i? : Option Instruction}
    (h : c.issue s ev sync i? = .ok c') : c'.DemandsTidy s.generation := by
  refine ⟨hc.sound.issue h, fun role k => ?_⟩
  rw [(issued_of_issue h).barrier]
  exact (hc.recordEvent hev sync i?).demand role k

lemma DemandsTidy.track (hc : c.DemandsTidy g) {range : RegRange} {ev : Event} {blocksReads : Bool}
    {types : VmemTypeSet} {halves : BitVec 32}
    (h : c.track g range ev blocksReads types halves = .ok c') : c'.DemandsTidy g := by
  refine ⟨hc.sound.track h, fun role k => ?_⟩
  obtain ⟨-, rfl⟩ := track_eq_ok.1 h
  have hd := hc.demand role k
  cases role <;> exact hd

lemma Tidy.demandsTidy (h : c.Tidy g) : c.DemandsTidy g := ⟨h.sound, h.demand⟩

lemma DemandsTidy.tidy (h : c.DemandsTidy g)
    (hentry : ∀ (r : Reg) (e : Entry), c.regs[r]? = some e → e.Tidy g)
    (hvm : c.flatVm = false) (hlgkm : c.flatLgkm = false) : c.Tidy g :=
  ⟨h.sound, hentry, h.demand, hvm, hlgkm⟩

lemma tidy_empty (g : Generation) : ({} : Context).Tidy g :=
  (demandsTidy_empty g).tidy (fun r e he => by simp at he) rfl rfl

lemma Tidy.join (hc : c.Tidy g) (ho : o.Tidy g) (edge : Edge) : (c.join o edge).Tidy g :=
  (hc.demandsTidy.join ho.demandsTidy edge).tidy
    (forall_regs_join (fun lanes he => he.withLanes lanes) (fun he hx => he.join hx) hc.entry
      ho.entry edge)
    (by simp [flatVm_join, hc.flatVm, ho.flatVm]) (by simp [flatLgkm_join, hc.flatLgkm, ho.flatLgkm])

/-- What settling leaves of a demand in a tidy context. -/
lemma Tidy.left (hc : c.Tidy g) {w : Wait} (h : c.settle g w = .ok c') (role : BarrierRole)
    (k : Storage) : ((c.barrier role).demand k).Left g w ((c'.barrier role).demand k) :=
  hc.demandsTidy.left h role k

lemma Tidy.settle (hc : c.Tidy g) {w : Wait} (h : c.settle g w = .ok c') : c'.Tidy g := by
  have hs := settles_of_settle h
  refine (hc.demandsTidy.settle h).tidy (fun r e' he' => ?_) (by simp [hs.flatVm, hc.flatVm])
    (by simp [hs.flatLgkm, hc.flatLgkm])
  obtain ⟨e, he, rfl, -⟩ := hs.source r e' he'
  exact (hc.entry r e he).settle w

lemma Tidy.defer (hc : c.Tidy g) (sync : Sync) (source target : BarrierRole) :
    (c.defer s sync source target).Tidy g := by
  obtain ⟨hregs, -, hvm, hlgkm, -⟩ := defer_frame c s sync source target
  exact (hc.demandsTidy.defer sync source target).tidy (fun r e he => hc.entry r e (hregs ▸ he))
    (hvm.trans hc.flatVm) (hlgkm.trans hc.flatLgkm)

lemma Tidy.deferBefore (hc : c.Tidy g) (s : Setting) (i : Instruction) : (c.deferBefore s i).Tidy g := by
  have hreleased : (if .release ∈ i.sync.semantics then c.deferRelease s i.sync else c).Tidy g := by
    split
    · exact hc.defer _ _ _
    · exact hc
  rw [Context.deferBefore]
  split
  · split
    · exact hreleased.defer _ _ _
    · exact hreleased
  · exact hreleased

lemma Tidy.deferAfter (hc : c.Tidy g) (s : Setting) (i : Instruction) : (c.deferAfter s i).Tidy g := by
  rw [Context.deferAfter]
  split
  · exact hc.defer _ _ _
  · exact hc

lemma Tidy.recordEvent (hc : c.Tidy s.generation) {ev : Event}
    (hev : ∃ d, s.generation.counter? ev = some d) (sync : Sync) (i? : Option Instruction) :
    (c.recordEvent s ev sync i?).Tidy s.generation := by
  obtain ⟨hregs, -, hvm, hlgkm, -⟩ := recordEvent_frame c s ev sync i?
  exact (hc.demandsTidy.recordEvent hev sync i?).tidy (fun r e he => hc.entry r e (hregs ▸ he))
    (hvm.trans hc.flatVm) (hlgkm.trans hc.flatLgkm)

lemma Tidy.issue (hc : c.Tidy s.generation) {ev : Event}
    (hev : ∃ d, s.generation.counter? ev = some d) {sync : Sync} {i? : Option Instruction}
    (h : c.issue s ev sync i? = .ok c') : c'.Tidy s.generation := by
  have hi := issued_of_issue h
  refine (hc.demandsTidy.issue hev h).tidy (fun r e he => ?_) (hi.flatVm.trans hc.flatVm)
    (hi.flatLgkm.trans hc.flatLgkm)
  rw [hi.entry] at he
  split at he
  · exact hc.entry r e he
  · obtain ⟨x, hx, rfl⟩ := Option.map_eq_some_iff.1 he
    exact (hc.entry r x hx).age (hc.sound.entry r x hx) ev

lemma Tidy.track (hc : c.Tidy g) {range : RegRange} {ev : Event} {blocksReads : Bool}
    {types : VmemTypeSet} {halves : BitVec 32}
    (htypes : g < .gfx12 → g.counter? ev = some .vm → types.isEmpty = false)
    (h : c.track g range ev blocksReads types halves = .ok c') : c'.Tidy g := by
  have hdemands := hc.demandsTidy.track h
  obtain ⟨-, rfl⟩ := track_eq_ok.1 h
  refine hdemands.tidy ?_ hc.flatVm hc.flatLgkm
  exact forall_trackUnits (P := (·.Tidy g))
    (fun j => Entry.tidy_startedEntry htypes blocksReads (HalfSet.ofWord halves j))
    (fun j hold => (hold.join (Entry.tidy_startedEntry htypes blocksReads _)).withLanes _) hc.entry

lemma Tidy.apply (hc : c.Tidy s.generation) (hi : i.Steady s) {effect : Effect}
    (he : effect ∈ i.effects s) (h : c.apply s i effect = .ok c') : c'.Tidy s.generation := by
  cases effect with
  | issue ev sync => exact hc.issue (Instruction.counter_of_issue he) h
  | track range ev blocksReads types halves => exact hc.track (hi.typed _ he) h
  | flat => exact (hi.typed _ he).elim
  | fail fault => cases h

lemma Tidy.start (hc : c.Tidy s.generation) (hi : i.Steady s) (h : c.start s i = .ok c') :
    c'.Tidy s.generation :=
  foldlM_invariant (·.Tidy s.generation) (fun _ he _ _ hc h => hc.apply hi he h) hc h

/-- A walk over steady code keeps contexts tidy. -/
lemma kept_tidy (s : Setting) : Kept s (Instruction.Steady s) (·.Tidy s.generation) where
  defer _ hc := hc.deferBefore s _
  settle h hc := hc.settle h
  start hi h hc := hc.start hi h
  after _ hc := hc.deferAfter s _

end Context

/-- The context at the start of a program is tidy. -/
lemma Program.tidy_startContext {p : Program} {s : Setting} {c : Context}
    (h : p.startContext s = .ok c) : c.Tidy s.generation := by
  refine foldlM_invariant (·.Tidy s.generation) (fun range _ c c' hc h => ?_) ?_ h
  · simp only [bind_eq_ok] at h
    obtain ⟨c₁, hissue, htrack⟩ := h
    exact (hc.issue ⟨.vm, rfl⟩ hissue).track (fun _ _ => by decide) htrack
  · split
    · exact (Context.tidy_empty _).recordEvent ⟨.lgkm, rfl⟩ _ _
    · exact Context.tidy_empty _

end GpuWaits
