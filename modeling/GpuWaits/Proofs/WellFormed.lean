/-
# The invariant of contexts

A context says many things twice.  An entry lists the events of its accesses, and the counters that count
them, and has a target for each of these counters; the context lists the counters again.  A memory of
barriers lists the classes that have a demand, and says whether there is one.  The analysis keeps all of
this up to date by hand, in every operation, and relies on it: two of its steps break off when they find
it violated.

This file states how the parts of a context fit together (`Context.WellFormed`) and shows that they do so
in every context that the operations of the analysis lead to, in any order and for any code
(`Context.wellFormed_of_reachable`).  Storage classes that do not exist are the only exception: a memory
would list them without a demand.
-/
import GpuWaits.Proofs.Tidy
import GpuWaits.Sample.Code

namespace GpuWaits

/-! ### How the parts fit together -/

/-- The accesses of the entry, their counters and their targets fit together, and what it knows of
loads from vector memory is about accesses that it has. -/
structure Entry.WellFormed (e : Entry) (g : Generation) (nonzero : CounterSet) : Prop where
  event : ∃ ev, ev ∈ e.events
  counters : e.counters = g.countersOf e.events
  timed : ∀ c, e.wait.isSet c = true ↔ c ∈ e.counters
  near : ∀ c, e.wait.isSet c = true → e.wait.get c ≤ g.horizon.get c
  nonzero : ∀ c ∈ e.counters, c ∈ nonzero
  types : e.vmemTypes.isEmpty = false → .vm ∈ e.counters
  halves : e.halves.isEmpty = false → .vmem ∈ e.events

/-- The accesses that the demand asks for and its targets fit together. -/
structure Demand.WellFormed (d : Demand) (g : Generation) : Prop where
  timed : ∀ c, d.wait.isSet c = true ↔ ∃ ev ∈ d.events, ev ∈ g.eventsOn c
  near : ∀ c, d.wait.isSet c = true → d.wait.get c ≤ g.horizon.get c
  scope : (∀ ev, ev ∉ d.events) → d.scope = .invocation

/-- The demands of the memory are well-formed, and it lists those that ask for something. -/
structure Barrier.WellFormed (b : Barrier) (g : Generation) : Prop where
  demand : ∀ k, (b.demand k).WellFormed g
  storage : ∀ k, k ∈ b.storage ↔ ∃ ev, ev ∈ (b.demand k).events
  live : b.live = true ↔ b.storage.isEmpty = false

/-- The parts of the context fit together. -/
structure Context.WellFormed (c : Context) (g : Generation) : Prop where
  entry : ∀ (r : Reg) (e : Entry), c.regs[r]? = some e → e.WellFormed g c.nonzero
  barrier : ∀ role, (c.barrier role).WellFormed g

/-! ### Entries -/

lemma Flags.isEmpty_union {α : Type} {w : Nat} (s t : Flags α w) :
    (s ∪ t).isEmpty = (s.isEmpty && t.isEmpty) := by
  rw [Bool.eq_iff_iff, Bool.and_eq_true, isEmpty_iff_bit, isEmpty_iff_bit, isEmpty_iff_bit]
  simp only [Union.union, BitVec.getLsbD_or, Bool.or_eq_false_iff]
  exact forall_and

namespace Entry.WellFormed

variable {g : Generation} {e o : Entry} {nonzero nonzero' : CounterSet}

lemma sound (h : e.WellFormed g nonzero) : e.Sound g := ⟨h.event, h.counters⟩

lemma isTimed (h : e.WellFormed g nonzero) : e.Timed g := ⟨h.timed, h.near⟩

lemma of_parts (hs : e.Sound g) (ht : e.Timed g) (hn : ∀ c ∈ e.counters, c ∈ nonzero)
    (htypes : e.vmemTypes.isEmpty = false → .vm ∈ e.counters)
    (hhalves : e.halves.isEmpty = false → .vmem ∈ e.events) : e.WellFormed g nonzero :=
  ⟨hs.event, hs.counters, ht.timed, ht.near, hn, htypes, hhalves⟩

lemma mono (h : e.WellFormed g nonzero) (hle : ∀ c ∈ nonzero, c ∈ nonzero') :
    e.WellFormed g nonzero' :=
  { h with nonzero := fun c hc => hle c (h.nonzero c hc) }

lemma withLanes (h : e.WellFormed g nonzero) (lanes : EventSet) :
    WellFormed { e with laneEvents := lanes } g nonzero :=
  of_parts (h.sound.withLanes lanes) ⟨h.timed, h.near⟩ h.nonzero h.types h.halves

lemma join (h : e.WellFormed g nonzero) (ho : o.WellFormed g nonzero) :
    (e.join o).WellFormed g nonzero := by
  refine of_parts (h.sound.join ho.sound) (h.isTimed.join ho.isTimed) (fun c hc => ?_)
    (fun htypes => ?_) fun hhalves => ?_
  · exact ((Flags.mem_union _ _ _).1 hc).elim (h.nonzero c) (ho.nonzero c)
  · rw [Entry.join, Flags.isEmpty_union, Bool.and_eq_false_iff] at htypes
    exact (Flags.mem_union _ _ _).2 (htypes.imp h.types ho.types)
  · rw [Entry.join, Flags.isEmpty_union, Bool.and_eq_false_iff] at hhalves
    exact (Flags.mem_union _ _ _).2 (hhalves.imp h.halves ho.halves)

lemma age (h : e.WellFormed g nonzero) (ev : Event) : (e.age g ev).WellFormed g nonzero := by
  have hframe : e.age g ev = { e with wait := (e.age g ev).wait } := by
    rw [Entry.age]
    split <;> rfl
  refine of_parts (h.sound.age ev) (h.isTimed.age h.sound ev) ?_ ?_ ?_ <;> rw [hframe]
  · exact h.nonzero
  · exact h.types
  · exact h.halves

/-- What is left of an entry is about counters that have not drained. -/
lemma settle (h : e.WellFormed g nonzero) {w : Wait}
    (hleft : (e.settle g w).counters.isEmpty = false)
    (hn : ∀ c ∈ nonzero, w.get c ≠ 0 → c ∈ nonzero') : (e.settle g w).WellFormed g nonzero' := by
  have hl := left_settle e g w
  refine of_parts (h.sound.settle hleft) (h.isTimed.settle w) (fun c hc => ?_) (fun htypes => ?_)
    fun hhalves => ?_
  · obtain ⟨hc, hno⟩ := (hl.counters c).1 hc
    refine hn c (h.nonzero c hc) fun hzero => hno ⟨?_, ?_⟩
    · rw [Wait.isSet_iff, hzero]
      decide
    · rw [hzero]
      exact UInt16.le_iff_toNat_le.2 (Nat.zero_le _)
  · by_cases hvm : w.Meets e.wait .vm
    · rw [(hl.loaded hvm).1] at htypes
      cases htypes
    · rw [(hl.loading hvm).1] at htypes
      exact (hl.counters .vm).2 ⟨h.types htypes, hvm⟩
  · by_cases hvm : w.Meets e.wait .vm
    · rw [(hl.loaded hvm).2] at hhalves
      cases hhalves
    · rw [(hl.loading hvm).2] at hhalves
      refine (hl.events .vmem).2 ⟨h.halves hhalves, fun c hc => ?_⟩
      cases hc
      exact hvm

end Entry.WellFormed

/-! ### What instructions track -/

/-- Where the effect tracks a range, its event is among those that the effects raise, and the halves of
registers are told apart for loads only. -/
def Effect.Announced (effects : List Effect) : Effect → Prop
  | .track _ ev _ _ halves =>
    (∃ sync, .issue ev sync ∈ effects) ∧ (halves ≠ 0#32 → ev = .vmem)
  | .issue _ _ | .flat | .fail _ => True

/-- Instructions track their registers for events that they raise. -/
lemma Instruction.announced_effects (i : Instruction) (s : Setting) :
    ∀ e ∈ i.effects s, e.Announced (i.effects s) := by
  intro e he
  cases Instruction.mayStart_of_mem he with
  | access | event | flat | fail => trivial
  | load _ _ hev =>
    refine ⟨hev, fun hhalves => ?_⟩
    by_contra hne
    exact hhalves (if_neg hne)
  | write _ hev | read _ hev => exact ⟨hev, fun hno => absurd rfl hno⟩

/-! ### Contexts -/

namespace Context

variable {g : Generation} {s : Setting} {c c' o : Context} {i : Instruction}
  {nonzero nonzero' : CounterSet}

/-- The entries are well-formed if the counters of `nonzero` may not be zero. -/
def EntriesFit (c : Context) (g : Generation) (nonzero : CounterSet) : Prop :=
  ∀ (r : Reg) (e : Entry), c.regs[r]? = some e → e.WellFormed g nonzero

lemma EntriesFit.mono (h : c.EntriesFit g nonzero) (hle : ∀ n ∈ nonzero, n ∈ nonzero') :
    c.EntriesFit g nonzero' :=
  fun r e he => (h r e he).mono hle

lemma EntriesFit.issue (hc : c.EntriesFit s.generation nonzero) {ev : Event} {sync : Sync}
    {i? : Option Instruction} (h : c.issue s ev sync i? = .ok c') :
    c'.EntriesFit s.generation nonzero := by
  intro r e he
  rw [(issued_of_issue h).entry] at he
  split at he
  · exact hc r e he
  · obtain ⟨x, hx, rfl⟩ := Option.map_eq_some_iff.1 he
    exact (hc r x hx).age ev

lemma EntriesFit.track (hc : c.EntriesFit g nonzero) {range : RegRange} {ev : Event}
    {blocksReads : Bool} {types : VmemTypeSet} {halves : BitVec 32}
    (hraised : ∀ n, g.counter? ev = some n → n ∈ nonzero) (hhalves : halves ≠ 0#32 → ev = .vmem)
    (h : c.track g range ev blocksReads types halves = .ok c') : c'.EntriesFit g nonzero := by
  have hnew : ∀ j, (startedEntry g ev blocksReads types (HalfSet.ofWord halves j)).WellFormed g
      nonzero := by
    intro j
    refine .of_parts (sound_startedEntry ..) (Entry.timed_startedEntry ..) (fun n hn => ?_)
      (fun htypes => ?_) fun hhalf => ?_
    · exact hraised n (Generation.mem_countersOf_singleton.1 hn)
    · by_contra hno
      simp only [startedEntry, Entry.ofEvent] at htypes hno
      rw [if_neg hno] at htypes
      cases htypes
    · have hne : halves ≠ 0#32 := by
        rintro rfl
        simp [startedEntry, HalfSet.ofWord, Flags.isEmpty] at hhalf
      rw [hhalves hne]
      exact EventSet.mem_singleton.2 rfl
  obtain ⟨-, rfl⟩ := track_eq_ok.1 h
  exact forall_trackUnits (P := (·.WellFormed g nonzero)) hnew
    (fun j hold => (hold.join (hnew j)).withLanes _) hc

/-- The invariant of the operations. -/
structure Proper (c : Context) (g : Generation) : Prop where
  demands : c.DemandsTidy g
  exact : c.Exact
  entries : c.EntriesFit g c.nonzero

lemma Proper.wellFormed (h : c.Proper g) : c.WellFormed g := by
  refine ⟨h.entries, fun role => ⟨fun k => ?_, (h.exact role).listed, ?_⟩⟩
  · have htidy := h.demands.demand role k
    refine ⟨fun n => ⟨fun hset => ?_, ?_⟩, htidy.near, htidy.empty⟩
    · obtain ⟨ev, hev, hn⟩ := (h.demands.sound.barrier role).counted k n hset
      exact ⟨ev, hev, Generation.mem_eventsOn.2 hn⟩
    · rintro ⟨ev, hev, hn⟩
      obtain ⟨m, hm, hset⟩ := htidy.timed ev hev
      rw [Generation.mem_eventsOn.1 hn] at hm
      cases hm
      exact hset
  · rw [(h.exact role).live, (h.exact role).named.isEmpty_eq_false_iff]

lemma proper_empty (g : Generation) : ({} : Context).Proper g :=
  ⟨demandsTidy_empty g, exact_empty, fun r e he => by simp at he⟩

lemma Proper.join (hc : c.Proper g) (ho : o.Proper g) (edge : Edge) : (c.join o edge).Proper g := by
  refine ⟨hc.demands.join ho.demands edge, hc.exact.join ho.exact edge, ?_⟩
  rw [nonzero_join]
  exact forall_regs_join (fun lanes he => he.withLanes lanes) (fun he hx => he.join hx)
    (hc.entries.mono fun n hn => (Flags.mem_union _ _ _).2 (.inl hn))
    (ho.entries.mono fun n hn => (Flags.mem_union _ _ _).2 (.inr hn)) edge

lemma Proper.settle (hc : c.Proper g) {w : Wait} (h : c.settle g w = .ok c') : c'.Proper g := by
  have hs := settles_of_settle h
  refine ⟨hc.demands.settle h, hc.exact.settle h, fun r e' he' => ?_⟩
  obtain ⟨e, he, rfl, hleft⟩ := hs.source r e' he'
  have hn : ∀ n ∈ c.nonzero, w.get n ≠ 0 → n ∈ c'.nonzero := fun n hn hw => (hs.nonzero n).2 ⟨hn, hw⟩
  rcases hleft with rfl | hleft
  · rw [Entry.settle_none]
    exact (hc.entries r e he).mono fun n hm => hn n hm (by rw [Wait.get_none]; decide)
  · exact (hc.entries r e he).settle hleft hn

lemma Proper.defer (hc : c.Proper g) {sync : Sync} (hs : sync.storage.Named)
    (source target : BarrierRole) : (c.defer s sync source target).Proper g := by
  obtain ⟨hregs, hnonzero, -⟩ := defer_frame c s sync source target
  refine ⟨hc.demands.defer sync source target, hc.exact.defer hs source target, fun r e he => ?_⟩
  rw [hnonzero]
  exact hc.entries r e (hregs ▸ he)

lemma Proper.deferBefore (hc : c.Proper g) (hi : i.sync.storage.Named) :
    (c.deferBefore s i).Proper g := by
  have hreleased : (if .release ∈ i.sync.semantics then c.deferRelease s i.sync else c).Proper g := by
    split
    · exact hc.defer hi _ _
    · exact hc
  rw [Context.deferBefore]
  split
  · split
    · exact hreleased.defer hi _ _
    · exact hreleased
  · exact hreleased

lemma Proper.await {q q' : Queue} (hc : c.Proper s.generation) (hi : i.sync.storage.Named)
    (h : c.await s i q = .ok (c', q')) : c'.Proper s.generation :=
  (hc.deferBefore hi).settle (awaited_of_await h).settled

lemma Proper.recordEvent (hc : c.Proper s.generation) {ev : Event}
    (hev : ∃ n, s.generation.counter? ev = some n) {sync : Sync} (hs : sync.storage.Named)
    (i? : Option Instruction) : (c.recordEvent s ev sync i?).Proper s.generation := by
  obtain ⟨hregs, hnonzero, -⟩ := recordEvent_frame c s ev sync i?
  refine ⟨hc.demands.recordEvent hev sync i?, hc.exact.recordEvent ev hs i?, fun r e he => ?_⟩
  rw [hnonzero]
  exact hc.entries r e (hregs ▸ he)

lemma Proper.issue (hc : c.Proper s.generation) {ev : Event}
    (hev : ∃ n, s.generation.counter? ev = some n) {sync : Sync} (hs : sync.storage.Named)
    {i? : Option Instruction} (h : c.issue s ev sync i? = .ok c') : c'.Proper s.generation := by
  refine ⟨hc.demands.issue hev h, hc.exact.issue hs h, (hc.entries.issue h).mono fun n hn => ?_⟩
  rw [(issued_of_issue h).nonzero]
  exact (Flags.mem_union _ _ _).2 (.inl hn)

lemma Proper.track (hc : c.Proper g) {range : RegRange} {ev : Event} {blocksReads : Bool}
    {types : VmemTypeSet} {halves : BitVec 32}
    (hraised : ∀ n, g.counter? ev = some n → n ∈ c.nonzero) (hhalves : halves ≠ 0#32 → ev = .vmem)
    (h : c.track g range ev blocksReads types halves = .ok c') : c'.Proper g := by
  refine ⟨hc.demands.track h, hc.exact.track h, ?_⟩
  have hentries := hc.entries.track hraised hhalves h
  obtain ⟨-, rfl⟩ := track_eq_ok.1 h
  exact hentries

/-! ### Starting an instruction -/

lemma DemandsTidy.apply (hc : c.DemandsTidy s.generation) {effect : Effect}
    (he : effect ∈ i.effects s) (h : c.apply s i effect = .ok c') :
    c'.DemandsTidy s.generation := by
  cases effect with
  | issue ev sync => exact hc.issue (Instruction.counter_of_issue he) h
  | track range ev blocksReads types halves => exact hc.track h
  | flat =>
    have hsound := hc.sound.apply h
    cases h
    refine ⟨hsound, fun role k => ?_⟩
    have hd := hc.demand role k
    cases role <;> exact hd
  | fail fault => cases h

lemma EntriesFit.apply (hc : c.EntriesFit s.generation nonzero) {effect : Effect}
    {effects : List Effect} (he : effect.Announced effects)
    (hraised : ∀ ev sync, .issue ev sync ∈ effects → ∀ n, s.generation.counter? ev = some n →
      n ∈ nonzero) (h : c.apply s i effect = .ok c') : c'.EntriesFit s.generation nonzero := by
  cases effect with
  | issue ev sync => exact hc.issue h
  | track range ev blocksReads types halves =>
    obtain ⟨⟨sync, hissue⟩, hhalves⟩ := he
    exact hc.track (hraised ev sync hissue) hhalves h
  | flat =>
    cases h
    exact hc
  | fail fault => cases h

lemma Proper.start (hc : c.Proper s.generation) (hi : i.sync.storage.Named)
    (h : c.start s i = .ok c') : c'.Proper s.generation := by
  -- The entries are measured by the counters that may not be zero in the end.
  obtain ⟨hkept, hraised⟩ := nonzero_effects h
  exact ⟨foldlM_invariant (·.DemandsTidy s.generation) (fun _ he _ _ hc h => hc.apply he h)
      hc.demands h,
    hc.exact.start hi h,
    foldlM_invariant (·.EntriesFit s.generation c'.nonzero)
      (fun e he _ _ hc h => hc.apply (i.announced_effects s e he) hraised h)
      (hc.entries.mono hkept) h⟩

/-! ### Every context of the analysis -/

/-- The contexts that the operations of the analysis lead to: accesses that began before the program,
waiting for instructions and starting them, deferring barriers, and joining. -/
inductive Reachable (g : Generation) : Context → Prop where
  | new : Reachable g {}
  | pendingLds {s : Setting} {c : Context} : s.generation = g → Reachable g c →
    Reachable g (c.recordEvent s .lds { storage := {.shared} } none)
  | pendingVmem {s : Setting} {c c₁ c' : Context} {range : RegRange} : s.generation = g →
    Reachable g c → c.issue s .vmem {} none = .ok c₁ →
    c₁.track g range .vmem true {.plain} (BitVec.allOnes 32) = .ok c' → Reachable g c'
  | await {s : Setting} {c c' : Context} {i : Instruction} {q q' : Queue} : s.generation = g →
    i.sync.storage.Named → Reachable g c → c.await s i q = .ok (c', q') → Reachable g c'
  | start {s : Setting} {c c' : Context} {i : Instruction} : s.generation = g →
    i.sync.storage.Named → Reachable g c → c.start s i = .ok c' → Reachable g c'
  | deferRelease {s : Setting} {c : Context} {sync : Sync} : s.generation = g →
    sync.storage.Named → Reachable g c → Reachable g (c.deferRelease s sync)
  | deferAcquire {s : Setting} {c : Context} {sync : Sync} : s.generation = g →
    sync.storage.Named → Reachable g c → Reachable g (c.deferAcquire s sync)
  | join {c o : Context} (edge : Edge) : Reachable g c → Reachable g o → Reachable g (c.join o edge)

lemma Reachable.proper (h : Reachable g c) : c.Proper g := by
  induction h with
  | new => exact proper_empty g
  | pendingLds hs _ ih =>
    subst hs
    exact ih.recordEvent ⟨.lgkm, rfl⟩ (by decide) none
  | pendingVmem hs _ hissue htrack ih =>
    subst hs
    refine (ih.issue ⟨.vm, rfl⟩ StorageSet.named_empty hissue).track (fun n hn => ?_) (fun _ => rfl)
      htrack
    rw [(issued_of_issue hissue).nonzero]
    exact (Flags.mem_union _ _ _).2 (.inr (Generation.mem_countersOf_singleton.2 hn))
  | await hs hi _ h ih =>
    subst hs
    exact ih.await hi h
  | start hs hi _ h ih =>
    subst hs
    exact ih.start hi h
  | deferRelease _ hsync _ ih => exact ih.defer hsync _ _
  | deferAcquire _ hsync _ ih => exact ih.defer hsync _ _
  | join edge _ _ hc ho => exact hc.join ho edge

/-- The steps that break off where the invariant is violated do not do so from the context on: raising
an event, by itself or in the course of an instruction, and settling after barriers have been
deferred. -/
structure NeverBreaks (c : Context) (g : Generation) : Prop where
  issue : ∀ (s : Setting) (ev : Event) (sync : Sync) (i? : Option Instruction), s.generation = g →
    ∃ c', c.issue s ev sync i? = .ok c'
  course : ∀ (s : Setting) (i : Instruction) (done rest : List Effect) (ev : Event) (sync : Sync)
    (c₁ : Context), s.generation = g → i.effects s = done ++ .issue ev sync :: rest →
      done.foldlM (fun c effect => c.apply s i effect) c = .ok c₁ →
        ∃ c', c₁.issue s ev sync (some i) = .ok c'
  settle : ∀ (s : Setting) (i : Instruction) (w : Wait), s.generation = g →
    ∃ c', (c.deferBefore s i).settle g w = .ok c'

lemma Sound.neverBreaks (hc : c.Sound g) : c.NeverBreaks g where
  issue s ev sync i? hs := by
    subst hs
    exact issue_total hc ev sync i?
  course s i done rest ev sync c₁ hs _ h := by
    subst hs
    exact issue_total (foldlM_invariant (·.Sound s.generation) (fun _ _ _ _ hc h => hc.apply h) hc h)
      ev sync (some i)
  settle s i w _ := settle_total (hc.deferBefore s i) w

/-- In every context of the analysis the parts fit together, and no step that relies on this breaks
off. -/
theorem wellFormed_of_reachable (h : Reachable g c) : c.WellFormed g ∧ c.NeverBreaks g :=
  ⟨h.proper.wellFormed, h.proper.demands.sound.neverBreaks⟩

/-- A store that is released, and a load on another path that comes in with it. -/
def handOver : Except Fault Context := do
  let s : Setting := { config := { generation := .gfx10 } }
  let stored ← ({} : Context).start s (Sample.bufferStore (.vgpr 0) (.vgpr 1))
  let loaded ← ({} : Context).start s (Sample.bufferLoad (.vgpr 2) (.vgpr 3))
  return (stored.deferRelease s { storage := {.buffer}, scope := .device }).join loaded ⟨true, true⟩

theorem wellFormed_handOver : ∃ c, handOver = .ok c
    ∧ (c.release.live = true ∧ c.regs.isEmpty = false) ∧ Reachable .gfx10 c
    ∧ c.WellFormed .gfx10 ∧ c.NeverBreaks .gfx10 := by
  have hparts : (match handOver with
      | .ok c => c.release.live && !c.regs.isEmpty
      | .error _ => false) = true := by decide +kernel
  cases hc : handOver with
  | error fault =>
    rw [hc] at hparts
    cases hparts
  | ok c =>
    have hreach : Reachable .gfx10 c := by
      simp only [handOver, bind_eq_ok, pure_eq_ok] at hc
      obtain ⟨stored, hstored, loaded, hloaded, rfl⟩ := hc
      exact .join _ (.deferRelease rfl (by decide) (.start rfl (by decide) .new hstored))
        (.start rfl (by decide) .new hloaded)
    rw [hc] at hparts
    exact ⟨c, rfl, by simpa using hparts, hreach, wellFormed_of_reachable hreach⟩

end Context

end GpuWaits
