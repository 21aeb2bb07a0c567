/-
# Loads over loads

A load from vector memory may go to a register that an older load is still writing.  No wait is needed
if the hardware keeps the two in order, or if they write different halves of the register.  This file
shows that a wait is left out for no other reason (`Context.After.overtakes`).

The argument follows one load through the entry of a unit that it writes.  As long as no wait completes
the load, the entry knows of it: its target is low enough, its types and halves include those of the load
(`Entry.Writing`).  There are three limits.  Of the units of a range only the first sixteen have halves,
of a flat access only the first definition is registered, and before generation 12 a flat load has no
type, so that an entry whose types are all those of the new load may still hold it.
-/
import GpuWaits.Proofs.Registered
import GpuWaits.Proofs.Tidy

namespace GpuWaits

/-! ### Straight lines -/

/-- The context behind some instructions.  Each of them comes with the wait in front of it, and the last
one is the first of the list. -/
inductive Context.After (s : Setting) : List (Instruction × Wait) → Context → Prop where
  | start : After s [] {}
  | step {line : List (Instruction × Wait)} {c c₁ c₂ : Context} {q q₁ : Queue} {i : Instruction} :
    After s line c → c.await s i q = .ok (c₁, q₁) → c₁.start s i = .ok c₂ →
      After s ((i, q₁.wait) :: line) c₂

/-- The number of events that instructions raise on the counter of vector memory loads. -/
def loadsIssued (s : Setting) (line : List (Instruction × Wait)) : Nat :=
  (line.flatMap fun x => Effect.issues (x.1.effects s)).count .vmem

/-- The wait completes a load from vector memory behind which `n` more have been issued. -/
def Wait.CompletesLoad (w : Wait) (n : Nat) : Prop :=
  w.isSet .vm = true ∧ (w.get .vm).toNat ≤ n

/-- No wait in the line completes a load that has been issued right in front of it. -/
def Unwaited (s : Setting) : List (Instruction × Wait) → Prop
  | [] => True
  | x :: line => ¬x.2.CompletesLoad (loadsIssued s line) ∧ Unwaited s line

lemma loadsIssued_cons (s : Setting) (x : Instruction × Wait) (line : List (Instruction × Wait)) :
    loadsIssued s (x :: line) =
      loadsIssued s line + (Effect.issues (x.1.effects s)).count .vmem := by
  rw [loadsIssued, List.flatMap_cons, List.count_append, Nat.add_comm]
  rfl

namespace Instruction

/-- The unit `u` is unit `j` of a definition. -/
def DefinesAt (i : Instruction) (u : Reg) (j : Nat) : Prop :=
  ∃ d ∈ i.definitions, d.units[j]? = some u

/-- The unit `u` is unit `j` of a definition that is registered.  Of a flat access this is the first. -/
def RegistersAt (i : Instruction) (u : Reg) (j : Nat) : Prop :=
  ∃ d ∈ i.definitions, d.units[j]? = some u ∧ (i.format = .flat → i.definitions.head? = some d)

/-- The instruction writes the unit `u`, and its results are of a type. -/
def LoadsAs (i : Instruction) (g : Generation) (u : Reg) (type : VmemType) : Prop :=
  (∃ d ∈ i.definitions, u ∈ d.units) ∧ i.vmemType? g = some type

/-- The halves of unit `j` of a definition that a load writes: both, if it is not a 16-bit load. -/
def halvesAt (i : Instruction) (s : Setting) (j : Nat) : HalfSet :=
  if i.loadedHalves s = BitVec.allOnes 32 then .ofList [.low, .high]
  else HalfSet.ofWord (i.loadedHalves s) j

/-- The results of the two loads are written in order: before generation 12, those of one type are. -/
def InOrder (old new : Instruction) (g : Generation) : Prop :=
  g < .gfx12 ∧ old.vmemType? g ≠ none ∧ old.vmemType? g = new.vmemType? g

/-- Unit `j` of the one load and unit `j'` of the other are written in different halves. -/
def SplitsHalves (old new : Instruction) (s : Setting) (j j' : Nat) : Prop :=
  ∀ half ∈ old.halvesAt s j, half ∉ new.halvesAt s j'

end Instruction

lemma VmemTypeSet.mem_singleton {t t' : VmemType} : t ∈ ({t'} : VmemTypeSet) ↔ t = t' := by
  rw [Flags.mem_singleton_iff]
  cases t <;> cases t' <;> decide

/-- The word has two bits for each of sixteen units. -/
lemma Instruction.halvesAt_eq {i : Instruction} {s : Setting} {j : Nat} (hj : j < 16) :
    i.halvesAt s j = HalfSet.ofWord (i.loadedHalves s) j := by
  rw [halvesAt]
  split
  · rename_i hall
    rw [hall]
    revert j
    decide
  · rfl

/-! ### The entry of a unit that is being loaded -/

/-- Some access of the entry is a load from vector memory, of a lane that is looked at. -/
structure Entry.OnVm (e : Entry) : Prop where
  event : .vmem ∈ e.events
  lane : .vmem ∈ e.laneEvents
  isSet : e.wait.isSet .vm = true

/-- Some access of the entry is a load from vector memory of the given types and halves, behind which `n`
more have been issued. -/
structure Entry.Writing (e : Entry) (n : Nat) (types : VmemTypeSet) (halves : HalfSet) : Prop
    extends e.OnVm where
  target : (e.wait.get .vm).toNat ≤ n
  types : e.vmemTypes.lacks types = false
  halves : e.halves.lacks halves = false

lemma Generation.eq_vmem_of_counter? {g : Generation} {ev : Event} (h : g.counter? ev = some .vm) :
    ev = .vmem := by
  revert h
  cases ev <;> simp [counter?]
  all_goals split <;> simp

namespace Entry

variable {g : Generation} {e o : Entry} {n : Nat} {types : VmemTypeSet} {halves : HalfSet} {w : Wait}

lemma OnVm.of_grows (h : o.OnVm) (hg : e.grows o = false) (hlane : .vmem ∈ e.laneEvents) : e.OnVm := by
  obtain ⟨hevents, -, -, -, -, hwait⟩ := grows_eq_false_iff.1 hg
  exact ⟨Flags.mem_of_lacks_eq_false hevents h.event, hlane, Wait.isSet_of_le hwait h.isSet⟩

lemma Writing.of_grows (h : o.Writing n types halves) (hg : e.grows o = false)
    (hlane : .vmem ∈ e.laneEvents) : e.Writing n types halves := by
  obtain ⟨-, -, -, htypes, hhalves, hwait⟩ := grows_eq_false_iff.1 hg
  exact ⟨h.toOnVm.of_grows hg hlane, (UInt16.le_iff_toNat_le.1 (hwait .vm)).trans h.target,
    lacks_trans htypes h.types, lacks_trans hhalves h.halves⟩

lemma lane_join_left (h : .vmem ∈ e.laneEvents) (o : Entry) :
    .vmem ∈ ((e.join o).addLanes o.laneEvents).laneEvents := (Flags.mem_union _ _ _).2 (.inl h)

lemma lane_join_right (e : Entry) (h : .vmem ∈ o.laneEvents) :
    .vmem ∈ ((e.join o).addLanes o.laneEvents).laneEvents := (Flags.mem_union _ _ _).2 (.inr h)

lemma OnVm.joined (h : e.OnVm) (o : Entry) : ((e.join o).addLanes o.laneEvents).OnVm :=
  h.of_grows (join_grows_left e o) (lane_join_left h.lane o)

lemma OnVm.joining (e : Entry) (h : o.OnVm) : ((e.join o).addLanes o.laneEvents).OnVm :=
  h.of_grows (join_grows_right e o) (lane_join_right e h.lane)

lemma Writing.joined (h : e.Writing n types halves) (o : Entry) :
    ((e.join o).addLanes o.laneEvents).Writing n types halves :=
  h.of_grows (join_grows_left e o) (lane_join_left h.lane o)

lemma Writing.joining (e : Entry) (h : o.Writing n types halves) :
    ((e.join o).addLanes o.laneEvents).Writing n types halves :=
  h.of_grows (join_grows_right e o) (lane_join_right e h.lane)

/-- The target of vector memory once an event has been issued. -/
lemma get_vm_age (e : Entry) (ev : Event) : (e.age g ev).wait.get .vm = e.wait.get .vm
    ∨ ev = .vmem ∧ (e.age g ev).wait.get .vm = g.oneMore .vm (e.wait.get .vm) := by
  rw [Entry.age]
  split
  · exact .inl rfl
  · rw [Wait.get_ofFn]
    split
    · rename_i hmoved
      exact .inr ⟨Generation.eq_vmem_of_counter? (Generation.mem_countersOf_singleton.1 hmoved.1), rfl⟩
    · exact .inl rfl

lemma OnVm.age (h : e.OnVm) (ev : Event) : (e.age g ev).OnVm := by
  have hframe : (e.age g ev).events = e.events ∧ (e.age g ev).laneEvents = e.laneEvents := by
    rw [Entry.age]
    split <;> exact ⟨rfl, rfl⟩
  refine ⟨hframe.1 ▸ h.event, hframe.2 ▸ h.lane, Wait.isSet_iff.2 ?_⟩
  rcases get_vm_age (g := g) e ev with heq | ⟨-, heq⟩
  · rw [heq]
    exact Wait.isSet_iff.1 h.isSet
  · rw [heq]
    exact g.oneMore_ne_unset .vm _

lemma Writing.age (h : e.Writing n types halves) (ev : Event) :
    (e.age g ev).Writing (n + [ev].count .vmem) types halves := by
  have hframe : (e.age g ev).vmemTypes = e.vmemTypes ∧ (e.age g ev).halves = e.halves := by
    rw [Entry.age]
    split <;> exact ⟨rfl, rfl⟩
  refine ⟨h.toOnVm.age ev, ?_, hframe.1 ▸ h.types, hframe.2 ▸ h.halves⟩
  have htarget := h.target
  rcases get_vm_age (g := g) e ev with heq | ⟨rfl, heq⟩
  · rw [heq]
    omega
  · rw [heq, Generation.oneMore_toNat, List.count_singleton_self]
    split <;> omega

lemma onVm_startedEntry (g : Generation) (blocksReads : Bool) (types : VmemTypeSet)
    (halves : HalfSet) : (Context.startedEntry g .vmem blocksReads types halves).OnVm where
  event := EventSet.mem_singleton.2 rfl
  lane := EventSet.mem_singleton.2 rfl
  isSet := Wait.isSet_drain.2 (Generation.mem_countersOf_singleton.2 rfl)

lemma writing_startedEntry (g : Generation) (blocksReads : Bool) (types : VmemTypeSet)
    (halves : HalfSet) :
    (Context.startedEntry g .vmem blocksReads types halves).Writing 0 types halves := by
  have hvm : .vm ∈ g.countersOf {.vmem} := Generation.mem_countersOf_singleton.2 rfl
  refine ⟨onVm_startedEntry g blocksReads types halves, ?_, ?_, Flags.lacks_refl _⟩
  · simp [Context.startedEntry, ofEvent, Wait.get_drain, Generation.counter?]
  · simp only [Context.startedEntry, if_pos hvm]
    exact Flags.lacks_refl _

/-- A wait on another counter, or one that allows for more than the entry, leaves the loads alone. -/
lemma OnVm.settle (h : e.OnVm) (hw : ¬w.Meets e.wait .vm) : (e.settle g w).OnVm := by
  obtain ⟨hget, hkeep⟩ := settle_keeps (g := g) hw
  obtain ⟨hevent, hlane⟩ := hkeep .vmem rfl h.event
  exact ⟨hevent, hlane h.lane, by rw [Wait.isSet_iff, hget, ← Wait.isSet_iff]; exact h.isSet⟩

lemma Writing.settle (h : e.Writing n types halves) (hw : ¬w.CompletesLoad n) :
    (e.settle g w).Writing n types halves := by
  have hmeets : ¬w.Meets e.wait .vm := fun hm =>
    hw ⟨hm.1, (UInt16.le_iff_toNat_le.1 hm.2).trans h.target⟩
  obtain ⟨htypes, hhalves⟩ := (left_settle e g w).loading hmeets
  refine ⟨h.toOnVm.settle hmeets, ?_, htypes ▸ h.types, hhalves ▸ h.halves⟩
  rw [(settle_keeps (g := g) hmeets).1]
  exact h.target

lemma OnVm.counters_settle (he : e.Sound g) (h : (e.settle g w).OnVm) :
    (e.settle g w).counters.isEmpty = false := by
  rw [show (e.settle g w).counters = g.countersOf (e.settle g w).events from
    counters_foldl_forget _ he.counters]
  exact Flags.isEmpty_eq_false_of_mem (Generation.mem_countersOf.2 ⟨_, h.event, rfl⟩)

/-- The loads count in the wait for a unit. -/
lemma OnVm.get_waitFor (h : e.OnVm) (he : e.Sound g) (u : Reg) :
    (e.waitFor g u).get .vm = e.wait.get .vm := by
  rw [waitFor]
  split
  · have hlanes : .vmem ∈ (if .gfx11 ≤ g then e.laneEvents ∪ .wholeRegister else e.laneEvents) := by
      split
      · exact (Flags.mem_union _ _ _).2 (.inl h.lane)
      · exact h.lane
    rw [Wait.get_only, if_pos]
    exact (Flags.mem_inter _ _ _).2 ⟨he.counter_mem h.event rfl,
      Generation.mem_countersOf.2 ⟨_, (Flags.mem_inter _ _ _).2 ⟨h.event, hlanes⟩, rfl⟩⟩
  · rfl

/-- Without leave from the hardware the wait of an overwriting access has the target of the loads. -/
lemma get_vm_overwriteWait {s : Setting} {i : Instruction} {u : Reg} {j : Nat}
    (h : e.overwriteWait s i u j = .ok w) (hno : ∀ type, i.vmemType? s.generation = some type →
      e.permitsLoad s i type j ≠ .ok (some .vm)) :
    w.get .vm = (e.waitFor s.generation u).get .vm := by
  obtain ⟨v, hload, hds⟩ := overwriteWait_cases h
  have hv : v.get .vm = (e.waitFor s.generation u).get .vm := by
    rcases hload with ⟨rfl, -⟩ | ⟨type, c, htype, hp, rfl⟩
    · rfl
    · have hc : Counter.vm ≠ c := by
        rintro rfl
        exact hno type htype hp
      rw [Wait.get_clear, if_neg hc]
  rcases hds with ⟨rfl, -⟩ | ⟨rfl, -⟩
  · exact hv
  · rw [Wait.get_clear, if_neg (by decide)]
    exact hv

/-- The reasons for which a load may go to a unit with outstanding loads. -/
lemma OnVm.permitsLoad_cases (h : e.OnVm) {s : Setting} {i : Instruction} {type : VmemType} {j : Nat}
    (hp : e.permitsLoad s i type j = .ok (some .vm)) : j < 16
      ∧ (s.generation < .gfx12 ∧ e.vmemTypes = {type}
        ∨ (HalfSet.ofWord (i.loadedHalves s) j).meets e.halves = false) := by
  -- Nothing but loads counts on their counter, and the entry has one in these lanes.
  have hsame : e.events ∩ s.generation.eventsOn .vm = {.vmem} := by
    refine EventSet.ext fun ev => ?_
    rw [Flags.mem_inter, Generation.mem_eventsOn, EventSet.mem_singleton]
    constructor
    · exact fun hev => Generation.eq_vmem_of_counter? hev.2
    · rintro rfl
      exact ⟨h.event, rfl⟩
  have hlanes : e.laneEvents ∩ s.generation.eventsOn .vm ≠ ∅ := fun hempty =>
    Flags.not_mem_empty Event.vmem
      (hempty ▸ (Flags.mem_inter _ _ _).2 ⟨h.lane, Generation.mem_eventsOn.2 rfl⟩)
  simp only [permitsLoad, bind_eq_ok] at hp
  obtain ⟨c, hc, hp⟩ := hp
  have hevent := Generation.counter?_of_counterOf hc
  split at hp
  · split at hp
    · simp [bind, Except.bind, throw, throwThe, MonadExceptOf.throw] at hp
    · rename_i hwidth
      rw [pure_eq_ok] at hp
      split at hp
      · rename_i hreason
        cases hp
        refine ⟨by omega, ?_⟩
        simp only [Bool.or_eq_true, Bool.and_eq_true, beq_iff_eq, hlanes, or_false, bne_self_eq_false,
          Bool.false_eq_true, false_or, decide_eq_true_eq, Bool.not_eq_true'] at hreason
        rcases hreason with ⟨⟨-, htypes⟩, hold⟩ | hhalves
        · exact .inl ⟨hold, htypes⟩
        · exact .inr hhalves
      · cases hp
  · rename_i hno
    rw [pure_eq_ok] at hp
    split at hp
    · cases hp
      refine absurd ⟨Generation.eq_vmem_of_counter? hevent, ?_⟩ hno
      rw [hsame, Generation.eq_vmem_of_counter? hevent, beq_self_eq_true]
    · cases hp

end Entry

/-! ### Following a load -/

namespace Context

variable {s : Setting} {c c' : Context} {i : Instruction} {u : Reg} {n : Nat} {types : VmemTypeSet}
  {halves : HalfSet} {w : Wait}

/-- A load of the unit is outstanding. -/
def WritingAt (c : Context) (u : Reg) (n : Nat) (types : VmemTypeSet) (halves : HalfSet) : Prop :=
  ∃ e : Entry, c.regs[u]? = some e ∧ e.Writing n types halves

lemma WritingAt.await {q q' : Queue} (hc : c.Sound s.generation) (h : c.WritingAt u n types halves)
    (ha : c.await s i q = .ok (c', q')) (hw : ¬q'.wait.CompletesLoad n) :
    c'.WritingAt u n types halves := by
  obtain ⟨e, he, hload⟩ := h
  have hload' := hload.settle (g := s.generation) hw
  refine ⟨_, (settles_of_settle (awaited_of_await ha).settled).entry u e ?_
    (hload'.toOnVm.counters_settle (hc.entry u e he)), hload'⟩
  rw [(deferBefore_frame c s i).1, he]

lemma WritingAt.apply (h : c.WritingAt u n types halves) {effect : Effect}
    (ha : c.apply s i effect = .ok c') :
    c'.WritingAt u (n + (Effect.issues [effect]).count .vmem) types halves := by
  obtain ⟨e, he, hload⟩ := h
  cases effect with
  | issue ev sync =>
    rw [WritingAt, (issued_of_issue ha).entry, he]
    split
    · rename_i hun
      rw [Event.mem_unordered.1 hun]
      exact ⟨e, rfl, hload⟩
    · exact ⟨_, rfl, hload.age ev⟩
  | track range ev blocksReads types' halves' =>
    obtain ⟨-, rfl⟩ := track_eq_ok.1 ha
    exact exists_trackUnits (P := fun e => e.Writing n types halves)
      (fun j => startedEntry s.generation ev blocksReads types' (HalfSet.ofWord halves' j))
      (fun j hold => hold.joined _) range.units.zipIdx ⟨e, he, hload⟩
  | flat =>
    cases ha
    exact ⟨e, he, hload⟩
  | fail fault => cases ha

lemma WritingAt.applyAll {effects : List Effect} (h : c.WritingAt u n types halves)
    (ha : effects.foldlM (fun c effect => c.apply s i effect) c = .ok c') :
    c'.WritingAt u (n + (Effect.issues effects).count .vmem) types halves := by
  induction effects generalizing c n with
  | nil =>
    cases ha
    exact h
  | cons effect rest ih =>
    rw [List.foldlM_cons, bind_eq_ok] at ha
    obtain ⟨c₁, hfirst, hrest⟩ := ha
    have hlater := ih (h.apply hfirst) hrest
    rwa [Nat.add_assoc, ← List.count_append, ← Effect.issues_append, List.singleton_append] at hlater

end Context

namespace Instruction

open Effect

variable {i : Instruction} {s : Setting} {u : Reg} {j : Nat}

/-- The event of a vector memory access, where it is that of a load. -/
lemma vmemEvent_of_issues (h : .vmem ∈ issues (i.vmemEffects s)) :
    i.vmemEvent s (i.vmemType? s.generation) = .vmem := by
  rw [issues_vmemEffects, vmemStarted_eq] at h
  split at h <;> simpa [eq_comm] using h

/-- Where an instruction raises the event of a load, it registers the units of its definitions with its
types and halves, and the event is not raised again behind that. -/
lemma RegistersAt.split (h : i.RegistersAt u j) (hev : .vmem ∈ issues (i.effects s)) :
    ∃ before range behind, i.effects s = before ++
        .track range .vmem true (i.vmemTypes s.generation) (i.loadedHalves s) :: behind
      ∧ range.units[j]? = some u ∧ .vmem ∉ issues behind := by
  obtain ⟨d, hd, hj, hflat⟩ := h
  have hvmem : i.effects s = i.vmemEffects s →
      .track d .vmem true (i.vmemTypes s.generation) (i.loadedHalves s) ∈ i.effects s := by
    intro heq
    rw [heq] at hev ⊢
    rw [vmemEffects]
    simp only [vmemEvent_of_issues hev, if_true]
    exact List.mem_append_left _ (List.mem_cons_of_mem _ (List.mem_map.2 ⟨d, hd, rfl⟩))
  have hmem : .track d .vmem true (i.vmemTypes s.generation) (i.loadedHalves s) ∈ i.effects s := by
    have hraised := (vmemEvent_or_of_issues hev).resolve_right fun hno => hno.1 rfl
    rcases hraised.1 with ⟨access, hp⟩ | ⟨sync, hp⟩
    · by_cases hf : i.format = .flat
      · obtain ⟨rest, hdefs⟩ : ∃ rest, i.definitions = d :: rest := List.head?_eq_some_iff.1 (hflat hf)
        have hevent : i.vmemEvent s (some .plain) = .vmem := by simp [vmemEvent, hdefs]
        rw [vmemTypes_of_flat hf]
        simp [effects, hp, hf, flatEffects, hdefs, hevent]
      · exact hvmem (by simp only [effects, hp, if_neg hf])
    · exact hvmem (by simp only [effects, hp])
  obtain ⟨before, behind, heq⟩ := List.append_of_mem hmem
  exact ⟨before, d, behind, heq, hj, (heq ▸ i.raisedFirst_effects s).notMem_issues⟩

end Instruction

namespace Context

variable {s : Setting} {c c' : Context} {i : Instruction} {u : Reg} {j : Nat}

lemma writingAt_of_track {g : Generation} {range : RegRange} {blocksReads : Bool}
    {types : VmemTypeSet} {halves : BitVec 32}
    (h : c.track g range .vmem blocksReads types halves = .ok c') (hj : range.units[j]? = some u) :
    c'.WritingAt u 0 types (HalfSet.ofWord halves j) := by
  obtain ⟨-, rfl⟩ := track_eq_ok.1 h
  have hnew := Entry.writing_startedEntry g blocksReads types (HalfSet.ofWord halves j)
  exact exists_trackUnits_at (P := fun e => e.Writing 0 types (HalfSet.ofWord halves j))
    (fun j => startedEntry g .vmem blocksReads types (HalfSet.ofWord halves j)) hnew
    (fun old => hnew.joining old) (fun j hold => hold.joined _)
    (List.mem_zipIdx_iff_getElem?.2 hj) c.regs

/-- A load that has just been issued is outstanding. -/
lemma writingAt_of_start (h : i.RegistersAt u j) (hev : .vmem ∈ Effect.issues (i.effects s))
    (hs : c.start s i = .ok c') :
    c'.WritingAt u 0 (i.vmemTypes s.generation) (HalfSet.ofWord (i.loadedHalves s) j) := by
  obtain ⟨before, range, behind, heffects, hj, hno⟩ := h.split hev
  rw [start, heffects, List.foldlM_append, bind_eq_ok] at hs
  obtain ⟨c₁, -, hs⟩ := hs
  rw [List.foldlM_cons, bind_eq_ok] at hs
  obtain ⟨c₂, htrack, hs⟩ := hs
  have hlater := (writingAt_of_track htrack hj).applyAll hs
  rwa [List.count_eq_zero.2 hno] at hlater

lemma After.sound {line : List (Instruction × Wait)} (h : After s line c) : c.Sound s.generation := by
  induction h with
  | start => exact sound_empty _
  | step _ ha hs ih => exact (ih.awaited (awaited_of_await ha)).start hs

/-- A load stays outstanding until a wait completes it. -/
lemma After.writingAt {later earlier : List (Instruction × Wait)} {old : Instruction} {w₀ : Wait}
    (h : After s (later ++ (old, w₀) :: earlier) c) (hold : old.RegistersAt u j)
    (hev : .vmem ∈ Effect.issues (old.effects s)) (hopen : Unwaited s later) :
    c.WritingAt u (loadsIssued s later) (old.vmemTypes s.generation)
      (HalfSet.ofWord (old.loadedHalves s) j) := by
  induction later generalizing c with
  | nil =>
    obtain _ | ⟨-, -, hs⟩ := h
    exact writingAt_of_start hold hev hs
  | cons x later ih =>
    obtain _ | ⟨hline, ha, hs⟩ := h
    have hwriting := (ih hline hopen.2).await hline.sound ha hopen.1
    have hlater := hwriting.applyAll hs
    rwa [loadsIssued_cons]

end Context

/-! ### The types of an entry -/

/-- Where an instruction registers a unit with some types, they are its own. -/
lemma Instruction.loadsAs_of_track {i : Instruction} {s : Setting} {range : RegRange} {ev : Event}
    {blocksReads : Bool} {types : VmemTypeSet} {halves : BitVec 32} {u : Reg} {t : VmemType}
    (h : .track range ev blocksReads types halves ∈ i.effects s) (hu : u ∈ range.units)
    (ht : t ∈ types) : i.LoadsAs s.generation u t := by
  cases mayStart_of_mem h with
  | load _ hd =>
    refine ⟨⟨range, hd, hu⟩, ?_⟩
    rw [vmemTypes] at ht
    cases htype : i.vmemType? s.generation with
    | none =>
      rw [htype] at ht
      exact absurd ht (Flags.not_mem_empty t)
    | some type =>
      rw [htype] at ht
      rw [VmemTypeSet.mem_singleton.1 ht]
  | write | read => exact absurd ht (Flags.not_mem_empty t)

namespace Context

variable {s : Setting} {c c' : Context} {i : Instruction} {u : Reg} {P : VmemType → Prop}

/-- What is true of the entry of one unit stays so when accesses are added. -/
lemma forall_trackUnits_at {Q : Entry → Prop} {new : Nat → Entry} {units : List (Reg × Nat)}
    (hnew : ∀ j, (u, j) ∈ units → Q (new j))
    (hjoin : ∀ (old : Entry) (j : Nat), (u, j) ∈ units → Q old →
      Q ((old.join (new j)).addLanes (new j).laneEvents))
    {m : RegMap} (hm : ∀ e : Entry, m[u]? = some e → Q e) :
    ∀ e : Entry, (units.foldl (fun m (r, j) => trackUnit m r (new j)) m)[u]? = some e → Q e := by
  induction units generalizing m with
  | nil => exact hm
  | cons unit rest ih =>
    obtain ⟨r, j⟩ := unit
    rw [List.foldl_cons]
    refine ih (fun j hj => hnew j (List.mem_cons_of_mem _ hj))
      (fun old j hj => hjoin old j (List.mem_cons_of_mem _ hj)) fun e he => ?_
    rw [getElem?_trackUnit] at he
    split at he
    · rename_i hr
      subst hr
      cases hold : m[r]? with
      | none =>
        rw [hold] at he
        cases he
        exact hnew j (by simp)
      | some old =>
        rw [hold] at he
        cases he
        exact hjoin old j (by simp) (hm old hold)
    · exact hm e he

/-- The types of the loads of a unit satisfy `P`. -/
def TypedBy (c : Context) (u : Reg) (P : VmemType → Prop) : Prop :=
  ∀ e : Entry, c.regs[u]? = some e → ∀ t ∈ e.vmemTypes, P t

lemma TypedBy.await {q q' : Queue} (h : c.TypedBy u P) (ha : c.await s i q = .ok (c', q')) :
    c'.TypedBy u P := by
  intro e' he' t ht
  obtain ⟨e, he, rfl, -⟩ := (settles_of_settle (awaited_of_await ha).settled).source u e' he'
  rw [(deferBefore_frame c s i).1] at he
  refine h e he t ?_
  have hleft := Entry.left_settle e s.generation q'.wait
  by_cases hm : q'.wait.Meets e.wait .vm
  · rw [(hleft.loaded hm).1] at ht
    exact absurd ht (Flags.not_mem_empty t)
  · rwa [(hleft.loading hm).1] at ht

lemma vmemTypes_age (e : Entry) (g : Generation) (ev : Event) :
    (e.age g ev).vmemTypes = e.vmemTypes := by
  rw [Entry.age]
  split <;> rfl

lemma TypedBy.apply {effect : Effect} (h : c.TypedBy u P) (ha : c.apply s i effect = .ok c')
    (hP : ∀ range ev blocksReads types halves, effect = .track range ev blocksReads types halves →
      u ∈ range.units → ∀ t ∈ types, P t) : c'.TypedBy u P := by
  cases effect with
  | issue ev sync =>
    intro e he
    rw [(issued_of_issue ha).entry] at he
    split at he
    · exact h e he
    · obtain ⟨e₀, he₀, rfl⟩ := Option.map_eq_some_iff.1 he
      rw [vmemTypes_age]
      exact h e₀ he₀
  | track range ev blocksReads types halves =>
    obtain ⟨-, rfl⟩ := track_eq_ok.1 ha
    have hnew : ∀ j, (u, j) ∈ range.units.zipIdx → ∀ t ∈ (startedEntry s.generation ev blocksReads
        types (HalfSet.ofWord halves j)).vmemTypes, P t := by
      intro j hj t ht
      refine hP range ev blocksReads types halves rfl
        (List.mem_of_getElem? (List.mem_zipIdx_iff_getElem?.1 hj)) t ?_
      simp only [startedEntry] at ht
      split at ht
      · exact ht
      · exact absurd ht (Flags.not_mem_empty t)
    refine forall_trackUnits_at (Q := fun e => ∀ t ∈ e.vmemTypes, P t) hnew (fun old j hj hold t ht => ?_) h
    rcases (Flags.mem_union _ _ _).1 ht with ht | ht
    · exact hold t ht
    · exact hnew j hj t ht
  | flat =>
    cases ha
    exact h
  | fail fault => cases ha

lemma TypedBy.start (h : c.TypedBy u P) (hs : c.start s i = .ok c') :
    c'.TypedBy u fun t => P t ∨ i.LoadsAs s.generation u t := by
  have h' : c.TypedBy u fun t => P t ∨ i.LoadsAs s.generation u t := fun e he t ht =>
    .inl (h e he t ht)
  refine foldlM_invariant (fun c => c.TypedBy u fun t => P t ∨ i.LoadsAs s.generation u t)
    (fun effect heffect _ _ hc ha => ?_) h' hs
  refine hc.apply ha ?_
  rintro range ev blocksReads types halves rfl hu t ht
  exact .inr (Instruction.loadsAs_of_track heffect hu ht)

/-- An entry that knows a type has a load. -/
def TypesLoads (c : Context) : Prop :=
  ∀ (r : Reg) (e : Entry), c.regs[r]? = some e → ∀ t ∈ e.vmemTypes, e.OnVm

lemma TypesLoads.await {q q' : Queue} (h : c.TypesLoads) (ha : c.await s i q = .ok (c', q')) :
    c'.TypesLoads := by
  intro r e' he' t ht
  obtain ⟨e, he, rfl, -⟩ := (settles_of_settle (awaited_of_await ha).settled).source r e' he'
  rw [(deferBefore_frame c s i).1] at he
  have hleft := Entry.left_settle e s.generation q'.wait
  by_cases hm : q'.wait.Meets e.wait .vm
  · rw [(hleft.loaded hm).1] at ht
    exact absurd ht (Flags.not_mem_empty t)
  · rw [(hleft.loading hm).1] at ht
    exact (h r e he t ht).settle hm

lemma TypesLoads.apply {effect : Effect} (h : c.TypesLoads) (ha : c.apply s i effect = .ok c') :
    c'.TypesLoads := by
  cases effect with
  | issue ev sync =>
    intro r e he t ht
    rw [(issued_of_issue ha).entry] at he
    split at he
    · exact h r e he t ht
    · obtain ⟨e₀, he₀, rfl⟩ := Option.map_eq_some_iff.1 he
      rw [vmemTypes_age] at ht
      exact (h r e₀ he₀ t ht).age ev
  | track range ev blocksReads types halves =>
    obtain ⟨-, rfl⟩ := track_eq_ok.1 ha
    have hnew : ∀ j, ∀ t ∈ (startedEntry s.generation ev blocksReads types
        (HalfSet.ofWord halves j)).vmemTypes, (startedEntry s.generation ev blocksReads types
        (HalfSet.ofWord halves j)).OnVm := by
      intro j t ht
      simp only [startedEntry] at ht
      split at ht
      · rename_i hvm
        rw [Generation.eq_vmem_of_counter? (Generation.mem_countersOf_singleton.1 hvm)]
        exact Entry.onVm_startedEntry _ _ _ _
      · exact absurd ht (Flags.not_mem_empty t)
    refine forall_trackUnits (P := fun e => ∀ t ∈ e.vmemTypes, e.OnVm) hnew (fun j hold t ht => ?_) h
    rcases (Flags.mem_union _ _ _).1 ht with ht | ht
    · exact (hold t ht).joined _
    · exact (hnew j t ht).joining _
  | flat =>
    cases ha
    exact h
  | fail fault => cases ha

lemma After.typesLoads {line : List (Instruction × Wait)} (h : After s line c) : c.TypesLoads := by
  induction h with
  | start =>
    intro r e he
    simp at he
  | step _ ha hs ih =>
    exact foldlM_invariant TypesLoads (fun _ _ _ _ hc ha => hc.apply ha) (ih.await ha) hs

/-- In front of an instruction without a type the loads of what it writes are complete. -/
lemma typedBy_of_await {q q' : Queue} (hc : c.Sound s.generation) (hloads : c.TypesLoads)
    (ha : c.await s i q = .ok (c', q')) (htype : i.vmemType? s.generation = none)
    {d : RegRange} (hd : d ∈ i.definitions) (hu : u ∈ d.units) : c'.TypedBy u fun _ => False := by
  intro e' he' t ht
  have hawait := awaited_of_await ha
  obtain ⟨e, he, rfl, -⟩ := (settles_of_settle hawait.settled).source u e' he'
  rw [(deferBefore_frame c s i).1] at he
  have hleft := Entry.left_settle e s.generation q'.wait
  by_cases hm : q'.wait.Meets e.wait .vm
  · rw [(hleft.loaded hm).1] at ht
    exact Flags.not_mem_empty t ht
  · rw [(hleft.loading hm).1] at ht
    have hload := hloads u e he t ht
    obtain ⟨w, hw, hle⟩ := hawait.hazard
    obtain ⟨j, v, hv, hwv⟩ := (hazardWait_le hw).2 d hd u hu
    rw [writeWait, he] at hv
    have hvm := Entry.get_vm_overwriteWait hv (fun type htype' => by simp [htype] at htype')
    rw [hload.get_waitFor (hc.entry u e he)] at hvm
    refine hm ⟨Wait.isSet_of_le (Wait.le_trans hle hwv) ?_, ?_⟩
    · rw [Wait.isSet_iff, hvm, ← Wait.isSet_iff]
      exact hload.isSet
    · exact hvm ▸ (Wait.le_trans hle hwv) .vm

/-- What has a type among the loads of a unit has come in behind a flat load of the unit. -/
lemma After.typedBy {later earlier : List (Instruction × Wait)} {old : Instruction} {w₀ : Wait}
    (h : After s (later ++ (old, w₀) :: earlier) c) (htype : old.vmemType? s.generation = none)
    {d : RegRange} (hd : d ∈ old.definitions) (hu : u ∈ d.units) :
    c.TypedBy u fun t => ∃ x ∈ later, x.1.LoadsAs s.generation u t := by
  induction later generalizing c with
  | nil =>
    obtain _ | ⟨hline, ha, hs⟩ := h
    intro e he t ht
    have htyped := (typedBy_of_await hline.sound hline.typesLoads ha htype hd hu).start hs e he t ht
    simp [Instruction.LoadsAs, htype] at htyped
  | cons x later ih =>
    obtain _ | ⟨hline, ha, hs⟩ := h
    intro e he t ht
    rcases ((ih hline).await ha).start hs e he t ht with ⟨y, hy, hload⟩ | hload
    · exact ⟨y, List.mem_cons_of_mem _ hy, hload⟩
    · exact ⟨_, List.mem_cons_self, hload⟩

/-- **A load overtakes another one only where the hardware keeps them apart.**  The load `old` has been
issued, in a straight line of instructions, and no wait has completed it.  The instruction `new` writes a
unit that `old` writes too, and does not wait for it.  Then the two are loads of one type, which return in
order before generation 12, or they write different halves.

Before generation 12 a flat load has no type.  It may be overtaken where a load of the type of `new` has
followed it. -/
theorem After.overtakes {later earlier : List (Instruction × Wait)} {old new : Instruction}
    {w₀ w : Wait} {j j' : Nat} (h : After s (later ++ (old, w₀) :: earlier) c)
    (hev : .vmem ∈ Effect.issues (old.effects s)) (hold : old.RegistersAt u j) (hj : j < 16)
    (hopen : Unwaited s later) (hnew : new.DefinesAt u j') (hw : c.hazardWait s new = .ok w)
    (hpast : ¬w.CompletesLoad (loadsIssued s later)) :
    old.InOrder new s.generation ∨ old.SplitsHalves new s j j'
      ∨ (s.generation < .gfx12 ∧ old.vmemType? s.generation = none
        ∧ ∃ type, new.vmemType? s.generation = some type
          ∧ ∃ x ∈ later, x.1.LoadsAs s.generation u type) := by
  obtain ⟨e, he, hwriting⟩ := h.writingAt hold hev hopen
  obtain ⟨d', hd', hj'⟩ := hnew
  obtain ⟨v, hv, hle⟩ := hazardWait_le_writeWait hw hd' hj'
  rw [writeWait, he] at hv
  -- A wait with the target of the entry would complete the load.
  have hleave : ∃ type, new.vmemType? s.generation = some type
      ∧ e.permitsLoad s new type j' = .ok (some .vm) := by
    by_contra hno
    have hvm := Entry.get_vm_overwriteWait hv fun type htype hp => hno ⟨type, htype, hp⟩
    rw [hwriting.toOnVm.get_waitFor (h.sound.entry u e he)] at hvm
    refine hpast ⟨Wait.isSet_of_le hle ?_, ?_⟩
    · rw [Wait.isSet_iff, hvm, ← Wait.isSet_iff]
      exact hwriting.isSet
    · have htarget := UInt16.le_iff_toNat_le.1 (hle .vm)
      rw [hvm] at htarget
      exact htarget.trans hwriting.target
  obtain ⟨type, htype, hp⟩ := hleave
  obtain ⟨hj'16, ⟨hgen, htypes⟩ | hhalves⟩ := hwriting.toOnVm.permitsLoad_cases hp
  · have hmem : type ∈ e.vmemTypes := htypes ▸ VmemTypeSet.mem_singleton.2 rfl
    cases holdtype : old.vmemType? s.generation with
    | some t =>
      have ht : t ∈ e.vmemTypes := by
        refine Flags.mem_of_lacks_eq_false hwriting.types ?_
        rw [Instruction.vmemTypes, holdtype]
        exact VmemTypeSet.mem_singleton.2 rfl
      rw [htypes, VmemTypeSet.mem_singleton] at ht
      exact .inl ⟨hgen, by simp [holdtype], by rw [holdtype, htype, ht]⟩
    | none =>
      obtain ⟨d, hd, hjd, -⟩ := hold
      obtain ⟨x, hx, hload⟩ := h.typedBy holdtype hd (List.mem_of_getElem? hjd) e he type hmem
      exact .inr (.inr ⟨hgen, rfl, type, htype, x, hx, hload⟩)
  · refine .inr (.inl fun half hhalf hhalf' => ?_)
    rw [Instruction.halvesAt_eq hj] at hhalf
    rw [Instruction.halvesAt_eq hj'16] at hhalf'
    have hmeets := Flags.meets_of_mem hhalf' (Flags.mem_of_lacks_eq_false hwriting.halves hhalf)
    exact Bool.false_ne_true (hhalves ▸ hmeets)

/-- The line of some instructions, each with the wait that it needs by itself, and the context behind
them. -/
def follow (s : Setting) (code : List Instruction) :
    Except Fault (List (Instruction × Wait) × Context) :=
  code.foldlM (fun (line, c) i => do
    let (awaited, q) ← c.await s i {}
    let started ← awaited.start s i
    return ((i, q.wait) :: line, started)) ([], {})

lemma after_of_follow {code : List Instruction} {line : List (Instruction × Wait)}
    (h : follow s code = .ok (line, c)) : After s line c := by
  refine foldlM_invariant (fun x => After s x.1 x.2) (fun i _ x x' hx hstep => ?_) .start h
  simp only [bind_eq_ok, pure_eq_ok] at hstep
  obtain ⟨⟨awaited, q⟩, hawait, started, hstart, rfl⟩ := hstep
  exact .step hx hawait hstart

lemma exists_after (code : List Instruction) {line : List (Instruction × Wait)} {new : Instruction}
    {w : Wait} (h : (match follow s code with
      | .ok r => decide (r.1 = line ∧ r.2.hazardWait s new = .ok w)
      | .error _ => false) = true) : ∃ c, After s line c ∧ c.hazardWait s new = .ok w := by
  split at h
  · rename_i r hr
    obtain ⟨rfl, hw⟩ := of_decide_eq_true h
    exact ⟨r.2, after_of_follow hr, hw⟩
  · cases h

lemma not_completesLoad_none (n : Nat) : ¬Wait.none.CompletesLoad n := by
  rintro ⟨hset, -⟩
  cases hset

/-- A load from a buffer. -/
def bufferLoad (opcode : Opcode) (dst : RegRange) : Instruction :=
  { Sample.bufferLoad dst.first (.vgpr 40) with opcode, definitions := [dst] }

/-- A load from an address that may point to any memory. -/
def flatLoad (opcode : Opcode) (dsts : List RegRange) : Instruction :=
  { Sample.globalLoad (.vgpr 0) (.vgpr 40) with opcode, definitions := dsts }

/-- A configuration with the defaults of a generation. -/
def plainSetting (g : Generation) : Setting := { config := { generation := g } }

/-- The higher half of a register is loaded while a load of its lower half is outstanding. -/
theorem overtakes_lowHalf : ∃ c, After (plainSetting .gfx12)
      ([(bufferLoad .bufferLoadDword ⟨.vgpr 1, 1⟩, .none)]
        ++ (bufferLoad .bufferLoadShortD16 ⟨.vgpr 0, 1⟩, .none) :: []) c
    ∧ c.hazardWait (plainSetting .gfx12) (bufferLoad .bufferLoadShortD16Hi ⟨.vgpr 0, 1⟩) = .ok .none
    ∧ ((bufferLoad .bufferLoadShortD16 ⟨.vgpr 0, 1⟩).InOrder
        (bufferLoad .bufferLoadShortD16Hi ⟨.vgpr 0, 1⟩) .gfx12
      ∨ (bufferLoad .bufferLoadShortD16 ⟨.vgpr 0, 1⟩).SplitsHalves
        (bufferLoad .bufferLoadShortD16Hi ⟨.vgpr 0, 1⟩) (plainSetting .gfx12) 0 0
      ∨ Generation.gfx12 < .gfx12 ∧ (bufferLoad .bufferLoadShortD16 ⟨.vgpr 0, 1⟩).vmemType? .gfx12 = none
        ∧ ∃ type, (bufferLoad .bufferLoadShortD16Hi ⟨.vgpr 0, 1⟩).vmemType? .gfx12 = some type
          ∧ ∃ x ∈ [(bufferLoad .bufferLoadDword ⟨.vgpr 1, 1⟩, Wait.none)],
            x.1.LoadsAs .gfx12 (.vgpr 0) type) := by
  obtain ⟨c, hafter, hw⟩ : ∃ c, After (plainSetting .gfx12)
      ([(bufferLoad .bufferLoadDword ⟨.vgpr 1, 1⟩, .none)]
        ++ (bufferLoad .bufferLoadShortD16 ⟨.vgpr 0, 1⟩, .none) :: []) c
      ∧ c.hazardWait (plainSetting .gfx12) (bufferLoad .bufferLoadShortD16Hi ⟨.vgpr 0, 1⟩)
        = .ok .none :=
    exists_after [bufferLoad .bufferLoadShortD16 ⟨.vgpr 0, 1⟩, bufferLoad .bufferLoadDword ⟨.vgpr 1, 1⟩]
      (by decide +kernel)
  exact ⟨c, hafter, hw, hafter.overtakes (by decide) ⟨⟨.vgpr 0, 1⟩, by decide, rfl, by decide⟩
    (by decide) ⟨not_completesLoad_none _, trivial⟩ ⟨⟨.vgpr 0, 1⟩, by decide, rfl⟩ hw
    (not_completesLoad_none _)⟩

/-- The load `new` goes to a unit that the load `old` is still writing, and nothing keeps the two apart. -/
def Overtaken (s : Setting) (old new : Instruction) (u : Reg) : Prop :=
  ∃ later earlier w₀ w c j j', After s (later ++ (old, w₀) :: earlier) c
    ∧ (∀ x ∈ later ++ (old, w₀) :: earlier, x.1.isCoherent = true ∧ x.1.defect? = none)
    ∧ new.isCoherent = true ∧ new.defect? = none
    ∧ .vmem ∈ Effect.issues (old.effects s) ∧ old.DefinesAt u j ∧ Unwaited s later
    ∧ new.DefinesAt u j' ∧ c.hazardWait s new = .ok w ∧ ¬w.CompletesLoad (loadsIssued s later)
    ∧ ¬old.InOrder new s.generation ∧ ¬old.SplitsHalves new s j j'

lemma unwaited_none (s : Setting) (code : List Instruction) :
    Unwaited s (code.map fun i => (i, .none)) := by
  induction code with
  | nil => trivial
  | cons i code ih => exact ⟨not_completesLoad_none _, ih⟩

lemma overtaken_of_follow {old new : Instruction} (later : List Instruction) (j j' : Nat)
    (hrun : (match follow s (old :: later.reverse) with
      | .ok r => decide (r.1 = (later.map fun i => (i, .none)) ++ (old, .none) :: []
          ∧ r.2.hazardWait s new = .ok .none)
      | .error _ => false) = true)
    (hvalid : ∀ i ∈ new :: later ++ [old], i.isCoherent = true ∧ i.defect? = none)
    (hev : .vmem ∈ Effect.issues (old.effects s)) (hold : old.DefinesAt u j)
    (hnew : new.DefinesAt u j') (horder : ¬old.InOrder new s.generation)
    (hsplit : ¬old.SplitsHalves new s j j') : Overtaken s old new u := by
  obtain ⟨c, hafter, hw⟩ := exists_after _ hrun
  obtain ⟨hcoherent, hdefect⟩ := hvalid new (by simp)
  refine ⟨_, _, _, _, c, j, j', hafter, fun x hx => ?_, hcoherent, hdefect, hev, hold,
    unwaited_none s later, hnew, hw, not_completesLoad_none _, horder, hsplit⟩
  refine hvalid x.1 ?_
  rcases List.mem_append.1 hx with hx | hx
  · obtain ⟨i, hi, rfl⟩ := List.mem_map.1 hx
    simp [hi]
  · rw [List.mem_singleton.1 hx]
    simp

/-- A flat load is overtaken behind a load of the other half, a wide load in its last units, and a flat
load with two results in the second one. -/
theorem overtaken_loads :
    Overtaken (plainSetting .gfx10) (flatLoad .flatLoadShortD16 [⟨.vgpr 0, 1⟩])
        (bufferLoad .bufferLoadShortD16 ⟨.vgpr 0, 1⟩) (.vgpr 0)
      ∧ Overtaken (plainSetting .gfx12) (bufferLoad .bufferLoadDword ⟨.vgpr 0, 32⟩)
        (bufferLoad .bufferLoadDword ⟨.vgpr 16, 1⟩) (.vgpr 16)
      ∧ Overtaken (plainSetting .gfx12) (flatLoad .flatLoadDword [⟨.vgpr 4, 1⟩, ⟨.vgpr 6, 1⟩])
        (bufferLoad .bufferLoadDword ⟨.vgpr 6, 1⟩) (.vgpr 6) := by
  refine ⟨?_, ?_, ?_⟩
  · exact overtaken_of_follow [bufferLoad .bufferLoadShortD16Hi ⟨.vgpr 0, 1⟩] 0 0
      (by decide +kernel) (by decide) (by decide) ⟨⟨.vgpr 0, 1⟩, by decide, rfl⟩
      ⟨⟨.vgpr 0, 1⟩, by decide, rfl⟩ (fun h => h.2.1 rfl) fun h => h .low (by decide) (by decide)
  · exact overtaken_of_follow [] 16 0 (by decide +kernel) (by decide) (by decide)
      ⟨⟨.vgpr 0, 32⟩, by decide, rfl⟩ ⟨⟨.vgpr 16, 1⟩, by decide, rfl⟩
      (fun h => absurd h.1 (by decide)) fun h => h .low (by decide) (by decide)
  · exact overtaken_of_follow [] 0 0 (by decide +kernel) (by decide) (by decide)
      ⟨⟨.vgpr 6, 1⟩, by decide, rfl⟩ ⟨⟨.vgpr 6, 1⟩, by decide, rfl⟩
      (fun h => absurd h.1 (by decide)) fun h => h .low (by decide) (by decide)

end Context

end GpuWaits
