/-
# Sound contexts

The analysis relies on facts about its contexts that it never checks in full: every entry of a register
has some access and lists the counters of its accesses, a memory of barriers lists every storage class
with a demand, and a demand has targets only for the counters of its events.  `Context.Sound` collects
them, and this file shows that every operation keeps them.

Beside this, the file says what settling leaves: an access whose counter has not fallen to its target
stays where it is, with its target (`Entry.settle_keeps`, `Demand.Settles`).
-/
import GpuWaits.Proofs.Walk

namespace GpuWaits

namespace Wait

/-- The counter falls to the target that `w` gives for it. -/
def Meets (v w : Wait) (c : Counter) : Prop := v.isSet c = true ∧ v.get c ≤ w.get c

instance (v w : Wait) (c : Counter) : Decidable (v.Meets w c) :=
  inferInstanceAs (Decidable (_ ∧ _))

lemma mem_targets {w : Wait} {c : Counter} {n : UInt16} :
    (c, n) ∈ w.targets ↔ w.isSet c = true ∧ w.get c = n := by
  simp only [targets, List.mem_map, List.mem_filter, Prod.mk.injEq]
  constructor
  · rintro ⟨d, ⟨-, hd⟩, rfl, rfl⟩
    exact ⟨hd, rfl⟩
  · rintro ⟨hc, rfl⟩
    exact ⟨c, ⟨c.mem_all, hc⟩, rfl, rfl⟩

lemma isSet_both (v w : Wait) (c : Counter) :
    (v.both w).isSet c = true ↔ v.isSet c = true ∨ w.isSet c = true := by
  constructor
  · intro h
    by_contra hno
    obtain ⟨hv, hw⟩ := not_or.1 hno
    simp only [isSet, bne_iff_ne, ne_eq, not_not] at hv hw
    rw [isSet_iff, get_both, hv, hw] at h
    exact h rfl
  · rintro (h | h)
    · exact isSet_of_le (both_le_left v w) h
    · exact isSet_of_le (both_le_right v w) h

end Wait

/-! ### Entries -/

/-- Some access is outstanding, and the counters are those of the events. -/
structure Entry.Sound (e : Entry) (g : Generation) : Prop where
  event : ∃ ev, ev ∈ e.events
  counters : e.counters = g.countersOf e.events

namespace Entry

variable {g : Generation} {e : Entry}

lemma countersOf_union (g : Generation) (s t : EventSet) :
    g.countersOf (s ∪ t) = g.countersOf s ∪ g.countersOf t := by
  apply CounterSet.ext
  intro c
  simp only [Generation.mem_countersOf, Flags.mem_union]
  constructor
  · rintro ⟨ev, h | h, hc⟩
    · exact .inl ⟨ev, h, hc⟩
    · exact .inr ⟨ev, h, hc⟩
  · rintro (⟨ev, h, hc⟩ | ⟨ev, h, hc⟩)
    · exact ⟨ev, .inl h, hc⟩
    · exact ⟨ev, .inr h, hc⟩

/-- No event is counted twice, so that forgetting a counter forgets its events and no others. -/
lemma countersOf_sdiff (g : Generation) (s : EventSet) (c : Counter) :
    g.countersOf (s \ g.eventsOn c) = g.countersOf s \ {c} := by
  apply CounterSet.ext
  intro d
  simp only [Generation.mem_countersOf, Flags.mem_sdiff, Generation.mem_eventsOn,
    CounterSet.mem_singleton]
  constructor
  · rintro ⟨ev, ⟨hs, hne⟩, hd⟩
    refine ⟨⟨ev, hs, hd⟩, ?_⟩
    rintro rfl
    exact hne hd
  · rintro ⟨⟨ev, hs, hd⟩, hne⟩
    refine ⟨ev, ⟨hs, fun hc => hne ?_⟩, hd⟩
    rw [hd] at hc
    exact Option.some.inj hc

lemma Sound.counter_mem (h : e.Sound g) {ev : Event} {c : Counter} (hev : ev ∈ e.events)
    (hc : g.counter? ev = some c) : c ∈ e.counters := by
  rw [h.counters, Generation.mem_countersOf]
  exact ⟨ev, hev, hc⟩

lemma Sound.join (h : e.Sound g) {o : Entry} (ho : o.Sound g) : (e.join o).Sound g := by
  obtain ⟨ev, hev⟩ := h.event
  refine ⟨⟨ev, by simp [Entry.join, hev]⟩, ?_⟩
  simp only [Entry.join, h.counters, ho.counters, countersOf_union]

lemma Sound.withLanes (h : e.Sound g) (lanes : EventSet) :
    Sound { e with laneEvents := lanes } g := ⟨h.event, h.counters⟩

lemma Sound.age (h : e.Sound g) (ev : Event) : (e.age g ev).Sound g := by
  rw [Entry.age]
  split
  · exact h
  · exact ⟨h.event, h.counters⟩

lemma counters_foldl_forget (targets : List (Counter × UInt16))
    (h : e.counters = g.countersOf e.events) :
    (targets.foldl (fun e (c, n) => if n ≤ e.wait.get c then e.forget c (g.eventsOn c) else e)
      e).counters = g.countersOf (targets.foldl
        (fun e (c, n) => if n ≤ e.wait.get c then e.forget c (g.eventsOn c) else e) e).events := by
  induction targets generalizing e with
  | nil => exact h
  | cons t rest ih =>
    rw [List.foldl_cons]
    apply ih
    dsimp only
    split
    · simp only [forget, h, countersOf_sdiff]
    · exact h

/-- What is left of an entry keeps its counters, and is sound if a counter is left. -/
lemma Sound.settle (h : e.Sound g) {w : Wait}
    (hleft : (e.settle g w).counters.isEmpty = false) : (e.settle g w).Sound g := by
  have hcounters : (e.settle g w).counters = g.countersOf (e.settle g w).events :=
    counters_foldl_forget _ h.counters
  refine ⟨?_, hcounters⟩
  rw [hcounters, CounterSet.isEmpty_eq_false_iff] at hleft
  obtain ⟨c, hc⟩ := hleft
  obtain ⟨ev, hev, -⟩ := Generation.mem_countersOf.1 hc
  exact ⟨ev, hev⟩

@[simp] lemma settle_none (e : Entry) : e.settle g .none = e := by
  have htargets : Wait.none.targets = [] := by decide
  rw [settle, htargets]
  rfl

@[simp] lemma blocksReads_settle (e : Entry) (g : Generation) (w : Wait) :
    (e.settle g w).blocksReads = e.blocksReads := by
  rw [settle]
  induction w.targets generalizing e with
  | nil => rfl
  | cons t rest ih =>
    rw [List.foldl_cons, ih]
    dsimp only
    split <;> rfl

/-- An access on a counter that has not fallen far enough stays. -/
lemma settle_keeps {w : Wait} {c : Counter} (hw : ¬w.Meets e.wait c) :
    (e.settle g w).wait.get c = e.wait.get c
      ∧ ∀ ev, g.counter? ev = some c → ev ∈ e.events → ev ∈ (e.settle g w).events
        ∧ (ev ∈ e.laneEvents → ev ∈ (e.settle g w).laneEvents) := by
  have hno : ∀ n, (c, n) ∈ w.targets → ¬n ≤ e.wait.get c := by
    intro n hn hle
    obtain ⟨hset, rfl⟩ := Wait.mem_targets.1 hn
    exact hw ⟨hset, hle⟩
  rw [settle]
  generalize w.targets = targets at hno ⊢
  clear hw
  induction targets generalizing e with
  | nil => exact ⟨rfl, fun ev _ hev => ⟨hev, id⟩⟩
  | cons t rest ih =>
    obtain ⟨d, n⟩ := t
    rw [List.foldl_cons]
    dsimp only
    split
    · rename_i hle
      have hdc : c ≠ d := by
        rintro rfl
        exact hno n (by simp) hle
      have hget : (e.forget d (g.eventsOn d)).wait.get c = e.wait.get c := by
        simp [forget, hdc]
      obtain ⟨hwait, hkeep⟩ := ih (e := e.forget d (g.eventsOn d))
        fun m hm => by rw [hget]; exact hno m (List.mem_cons_of_mem _ hm)
      refine ⟨hwait.trans hget, fun ev hc hev => ?_⟩
      have hev' : ev ∈ e.events \ g.eventsOn d := by
        rw [Flags.mem_sdiff, Generation.mem_eventsOn, hc]
        exact ⟨hev, fun h => hdc (Option.some.inj h)⟩
      obtain ⟨h₁, h₂⟩ := hkeep ev hc hev'
      exact ⟨h₁, fun hl => h₂ (by simp only [forget, Flags.mem_inter]; exact ⟨hl, hev'⟩)⟩
    · exact ih fun m hm => hno m (List.mem_cons_of_mem _ hm)

end Entry

/-! ### Demands -/

/-- There are targets only for the counters of the events. -/
def Demand.Counted (d : Demand) (g : Generation) : Prop :=
  ∀ c, d.wait.isSet c = true → ∃ ev ∈ d.events, g.counter? ev = some c

/-- What is left of a demand `d` once the counters have fallen to the targets of `w`. -/
structure Demand.Settles (g : Generation) (w : Wait) (d d' : Demand) : Prop where
  events : ∀ ev ∈ d'.events, ev ∈ d.events
  counted : d.Counted g → d'.Counted g
  kept : ∀ ev ∈ d.events, ∀ c, g.counter? ev = some c → d.wait.isSet c = true →
    ¬w.Meets d.wait c →
      ev ∈ d'.events ∧ d'.wait.get c = d.wait.get c ∧ d'.scope = d.scope

namespace Demand

variable {g : Generation} {d : Demand}

lemma counted_empty (g : Generation) : ({} : Demand).Counted g := by
  intro c hc
  simp [Wait.isSet] at hc

lemma Counted.both (h : d.Counted g) {o : Demand} (ho : o.Counted g) (scope : Scope) :
    Counted { wait := d.wait.both o.wait, events := d.events ∪ o.events, scope } g := by
  intro c hc
  rcases (Wait.isSet_both _ _ c).1 hc with hc | hc
  · obtain ⟨ev, hev, hcount⟩ := h c hc
    exact ⟨ev, by simp [hev], hcount⟩
  · obtain ⟨ev, hev, hcount⟩ := ho c hc
    exact ⟨ev, by simp [hev], hcount⟩

lemma Counted.join (h : d.Counted g) {o : Demand} (ho : o.Counted g) : (d.join o).Counted g :=
  h.both ho _

lemma Counted.foldl_join {ds : List Demand} (h : d.Counted g) (hds : ∀ o ∈ ds, o.Counted g) :
    (ds.foldl Demand.join d).Counted g := by
  induction ds generalizing d with
  | nil => exact h
  | cons o rest ih =>
    exact ih (h.join (hds o (by simp))) fun o' ho' => hds o' (List.mem_cons_of_mem _ ho')

lemma Counted.extend (h : d.Counted g) (ev : Event) : (d.extend g ev).Counted g := by
  have hone : Counted { wait := .drain (g.countersOf {ev}), events := {ev} } g := by
    intro c hc
    simp only [Wait.isSet, Wait.get_drain, Generation.mem_countersOf_singleton] at hc
    split at hc
    · exact ⟨ev, by simp, ‹_›⟩
    · simp at hc
  exact h.both hone d.scope

lemma Counted.age (h : d.Counted g) (ev : Event) : (d.age g ev).Counted g := by
  rw [Demand.age]
  split
  · exact h
  · intro c hc
    refine h c ?_
    rw [Wait.isSet_iff, Wait.get_ofFn] at hc
    split at hc
    · exact ‹_ ∧ _ ∧ _›.2.1
    · exact Wait.isSet_iff.2 hc

/-- The demand without the accesses on one counter. -/
def forget (d : Demand) (g : Generation) (c : Counter) : Demand :=
  { d with wait := d.wait.clear c, events := d.events \ g.eventsOn c }

lemma settle_cons (g : Generation) (c : Counter) (n : UInt16) (rest : List (Counter × UInt16))
    (d : Demand) :
    settle g ((c, n) :: rest) d =
      if d.wait.isSet c && decide (n ≤ d.wait.get c) then
        if (d.forget g c).events.isEmpty then
          if (d.forget g c).wait.isNone then .ok none else .error .brokenPromise
        else settle g rest (d.forget g c)
      else settle g rest d := rfl

lemma Counted.forget (h : d.Counted g) (c : Counter) : (d.forget g c).Counted g := by
  intro c' hc'
  have hne : c' ≠ c := by
    rintro rfl
    simp [Demand.forget, Wait.isSet] at hc'
  have hset : d.wait.isSet c' = true := by
    simpa [Demand.forget, Wait.isSet, hne] using hc'
  obtain ⟨ev, hev, hcount⟩ := h c' hset
  refine ⟨ev, ?_, hcount⟩
  simp only [Demand.forget, Flags.mem_sdiff, Generation.mem_eventsOn, hcount]
  exact ⟨hev, fun heq => hne (Option.some.inj heq)⟩

/-- A demand without events has no targets either. -/
lemma Counted.isNone (h : d.Counted g) (hempty : d.events.isEmpty = true) :
    d.wait.isNone = true := by
  rw [Wait.isNone, List.all_eq_true]
  intro c _
  by_contra hne
  obtain ⟨ev, hev, -⟩ := h c (by simpa [Wait.isSet] using hne)
  exact EventSet.isEmpty_iff.1 hempty ev hev

lemma settle_total (h : d.Counted g) (targets : List (Counter × UInt16)) :
    ∃ r, settle g targets d = .ok r := by
  induction targets generalizing d with
  | nil => exact ⟨_, rfl⟩
  | cons t rest ih =>
    obtain ⟨c, n⟩ := t
    rw [settle_cons]
    split
    · split
      · rename_i hempty
        rw [if_pos ((h.forget c).isNone hempty)]
        exact ⟨_, rfl⟩
      · exact ih (h.forget c)
    · exact ih h

/-- Settling target by target.  An event stays if no target is met for its counter. -/
lemma settle_spec {targets : List (Counter × UInt16)} {r : Option Demand}
    (h : settle g targets d = .ok r) :
    (∀ ev ∈ (r.getD {}).events, ev ∈ d.events) ∧ (d.Counted g → (r.getD {}).Counted g)
      ∧ ∀ ev ∈ d.events, ∀ c, g.counter? ev = some c →
        (∀ n, (c, n) ∈ targets → ¬(d.wait.isSet c = true ∧ n ≤ d.wait.get c)) →
          ev ∈ (r.getD {}).events ∧ (r.getD {}).wait.get c = d.wait.get c
            ∧ (r.getD {}).scope = d.scope := by
  induction targets generalizing d with
  | nil =>
    cases h
    exact ⟨fun _ hev => hev, id, fun _ hev _ _ _ => ⟨hev, rfl, rfl⟩⟩
  | cons t rest ih =>
    obtain ⟨c, n⟩ := t
    rw [settle_cons] at h
    split at h
    · rename_i hmet
      obtain ⟨hset, hle⟩ := Bool.and_eq_true_iff.1 hmet
      rw [decide_eq_true_eq] at hle
      -- An event that stays is on another counter, whose target is untouched.
      have hother : ∀ ev ∈ d.events, ∀ c', g.counter? ev = some c' →
          (∀ m, (c', m) ∈ (c, n) :: rest → ¬(d.wait.isSet c' = true ∧ m ≤ d.wait.get c')) →
            ev ∈ (d.forget g c).events ∧ (d.forget g c).wait.get c' = d.wait.get c' := by
        intro ev hev c' hc' hno
        have hne : c' ≠ c := by
          rintro rfl
          exact hno n (by simp) ⟨hset, hle⟩
        simp only [Demand.forget, Flags.mem_sdiff, Generation.mem_eventsOn, hc', Wait.get_clear,
          if_neg hne]
        exact ⟨⟨hev, fun heq => hne (Option.some.inj heq)⟩, trivial⟩
      split at h
      · rename_i hempty
        split at h
        · cases h
          refine ⟨fun ev hev => by simp at hev, fun _ => counted_empty g,
            fun ev hev c' hc' hno => ?_⟩
          exact absurd (hother ev hev c' hc' hno).1 (EventSet.isEmpty_iff.1 hempty ev)
        · cases h
      · obtain ⟨hsub, hcounted, hkeep⟩ := ih h
        refine ⟨fun ev hev => ?_, fun hd => hcounted (hd.forget c), fun ev hev c' hc' hno => ?_⟩
        · exact ((Flags.mem_sdiff _ _ _).1 (hsub ev hev)).1
        · obtain ⟨hev', hget⟩ := hother ev hev c' hc' hno
          rw [← hget]
          refine hkeep ev hev' c' hc' fun m hm => ?_
          rw [Wait.isSet, hget]
          exact hno m (List.mem_cons_of_mem _ hm)
    · obtain ⟨hsub, hcounted, hkeep⟩ := ih h
      exact ⟨hsub, hcounted, fun ev hev c' hc' hno =>
        hkeep ev hev c' hc' fun m hm => hno m (List.mem_cons_of_mem _ hm)⟩

lemma settles_of_settle {w : Wait} {r : Option Demand} (h : settle g w.targets d = .ok r) :
    d.Settles g w (r.getD {}) := by
  obtain ⟨hsub, hcounted, hkeep⟩ := settle_spec h
  refine ⟨hsub, hcounted, fun ev hev c hc _ hno => hkeep ev hev c hc fun n hn => ?_⟩
  obtain ⟨hset, rfl⟩ := Wait.mem_targets.1 hn
  exact fun hle => hno ⟨hset, hle.2⟩

lemma Settles.refl (g : Generation) (w : Wait) (d : Demand) : d.Settles g w d :=
  ⟨fun _ hev => hev, id, fun _ hev _ _ _ _ => ⟨hev, rfl, rfl⟩⟩

end Demand

/-! ### Barriers -/

@[simp] lemma StorageSet.mem_singleton {j k : Storage} : k ∈ ({j} : StorageSet) ↔ k = j := by
  rw [Flags.mem_singleton_iff]
  constructor
  · rintro ⟨-, h⟩
    revert h
    cases j <;> cases k <;> decide
  · rintro rfl
    exact ⟨by cases k <;> decide, rfl⟩

lemma StorageSet.mem_ofList {l : List Storage} {k : Storage} :
    k ∈ (Flags.ofList l : StorageSet) ↔ k ∈ l := by
  rw [Flags.mem_ofList]
  simp

lemma PerStorage.ofFnM_eq_ok {α : Type} {f : Storage → Except Fault α} {t : PerStorage α} :
    PerStorage.ofFnM f = .ok t ↔ ∀ k, f k = .ok (t.get k) := by
  simp only [PerStorage.ofFnM, bind_eq_ok, pure_eq_ok]
  constructor
  · rintro ⟨_, h₁, _, h₂, _, h₃, _, h₄, _, h₅, _, h₆, _, h₇, _, h₈, rfl⟩ k
    cases k <;> assumption
  · intro h
    exact ⟨_, h .buffer, _, h .gds, _, h .image, _, h .shared, _, h .vmemOutput, _, h .taskPayload,
      _, h .scratch, _, h .vgprSpill, rfl⟩

/-- Every class with a demand is listed, and the demands have targets only for the counters of their
events. -/
structure Barrier.Sound (b : Barrier) (g : Generation) : Prop where
  listed : ∀ (k : Storage) (ev : Event), ev ∈ (b.demand k).events → k ∈ b.storage ∧ b.live = true
  counted : ∀ k, (b.demand k).Counted g

namespace Barrier

variable {g : Generation} {b : Barrier}

lemma sound_empty (g : Generation) : ({} : Barrier).Sound g := by
  have hdemand : ∀ k, ({} : Barrier).demand k = {} := fun k => by simp [demand]
  refine ⟨fun k ev hev => ?_, fun k => ?_⟩
  · rw [hdemand] at hev
    simp at hev
  · rw [hdemand]
    exact Demand.counted_empty g

lemma Sound.join (h : b.Sound g) {o : Barrier} (ho : o.Sound g) : (b.join o).Sound g := by
  cases hl : o.live with
  | false =>
    rw [Barrier.join, hl]
    exact h
  | true =>
    refine ⟨fun k ev hev => ?_, fun k => ?_⟩
    · rw [demand_join, if_pos hl] at hev
      simp only [Barrier.join, hl, if_true, Flags.mem_union, and_true]
      rcases (Flags.mem_union _ _ _).1 hev with hev | hev
      · exact .inl (h.listed k ev hev).1
      · exact .inr (ho.listed k ev hev).1
    · rw [demand_join, if_pos hl]
      exact (h.counted k).join (ho.counted k)

lemma demand_record (b : Barrier) (g : Generation) (ev : Event) (storage : StorageSet)
    (k : Storage) :
    (b.record g ev storage).demand k =
      if k ∈ storage then (b.demand k).extend g ev
      else if k ∈ b.storage then (b.demand k).age g ev
      else b.demand k := by
  simp [record, demand]

@[simp] lemma events_age (d : Demand) (g : Generation) (ev : Event) :
    (d.age g ev).events = d.events := by
  rw [Demand.age]
  split <;> rfl

lemma Sound.record (h : b.Sound g) (ev : Event) (storage : StorageSet) :
    (b.record g ev storage).Sound g := by
  refine ⟨fun k ev' hev => ?_, fun k => ?_⟩
  · rw [demand_record] at hev
    simp only [Barrier.record, Flags.mem_union, Bool.or_eq_true, Bool.not_eq_true']
    by_cases hk : k ∈ storage
    · exact ⟨.inr hk, .inr (Flags.isEmpty_eq_false_of_mem hk)⟩
    · have hev' : ev' ∈ (b.demand k).events := by
        rw [if_neg hk] at hev
        split at hev
        · rwa [events_age] at hev
        · exact hev
      obtain ⟨hlisted, hlive⟩ := h.listed k ev' hev'
      exact ⟨.inl hlisted, .inl hlive⟩
  · rw [demand_record]
    split
    · exact (h.counted k).extend ev
    · split
      · exact (h.counted k).age ev
      · exact h.counted k

/-- What settling a memory leaves, class by class. -/
lemma settle_eq_ok {w : Wait} {b' : Barrier} (h : b.settle g w = .ok b') :
    ∃ left : PerStorage (Option Demand),
      (∀ k, (if k ∈ b.storage then (b.demand k).settle g w.targets else .ok (some (b.demand k)))
        = .ok (left.get k))
      ∧ (∀ k, b'.demand k = (left.get k).getD {})
      ∧ (∀ k, k ∈ b'.storage ↔ k ∈ b.storage ∧ (left.get k).isSome = true)
      ∧ (∀ k ∈ b'.storage, b.live = true → b'.live = true) := by
  simp only [settle, bind_eq_ok, pure_eq_ok] at h
  obtain ⟨left, hleft, rfl⟩ := h
  refine ⟨left, PerStorage.ofFnM_eq_ok.1 hleft, fun k => by simp [demand], fun k => ?_,
    fun k hk hlive => ?_⟩
  · simp [StorageSet.mem_ofList, Storage.mem_all, ← Option.ne_none_iff_isSome]
  · simp only [hlive, Bool.true_and, Bool.not_eq_true']
    exact Flags.isEmpty_eq_false_of_mem hk

lemma demand_settles {w : Wait} {b' : Barrier} (h : b.settle g w = .ok b') (k : Storage) :
    (b.demand k).Settles g w (b'.demand k) := by
  obtain ⟨left, hleft, hdemand, -⟩ := settle_eq_ok h
  have hk := hleft k
  rw [hdemand]
  split at hk
  · exact Demand.settles_of_settle hk
  · rw [Except.ok.injEq] at hk
    rw [← hk]
    exact .refl g w _

lemma Sound.settle (h : b.Sound g) {w : Wait} {b' : Barrier} (hs : b.settle g w = .ok b') :
    b'.Sound g := by
  refine ⟨fun k ev hev => ?_, fun k => (demand_settles hs k).counted (h.counted k)⟩
  obtain ⟨hlisted, hlive⟩ := h.listed k ev ((demand_settles hs k).events ev hev)
  obtain ⟨left, -, hdemand, hstorage, hlive'⟩ := settle_eq_ok hs
  have hk : k ∈ b'.storage := by
    refine (hstorage k).2 ⟨hlisted, ?_⟩
    rw [hdemand] at hev
    cases hl : left.get k with
    | none => simp [hl] at hev
    | some d => rfl
  exact ⟨hk, hlive' k hk hlive⟩

lemma settle_total (h : b.Sound g) (w : Wait) : ∃ b', b.settle g w = .ok b' := by
  have hone : ∀ k, ∃ r, (if k ∈ b.storage then (b.demand k).settle g w.targets
      else .ok (some (b.demand k)) : Except Fault (Option Demand)) = .ok r := by
    intro k
    split
    · exact Demand.settle_total (h.counted k) _
    · exact ⟨_, rfl⟩
  choose f hf using hone
  have hleft := PerStorage.ofFnM_eq_ok.2 fun k => (hf k).trans (by rw [PerStorage.get_ofFn f k])
  simp only [settle, bind_eq_ok, pure_eq_ok]
  exact ⟨_, _, hleft, rfl⟩

end Barrier

/-! ### Contexts -/

/-- The entries and the barriers are sound. -/
structure Context.Sound (c : Context) (g : Generation) : Prop where
  entry : ∀ (r : Reg) (e : Entry), c.regs[r]? = some e → e.Sound g
  barrier : ∀ role, (c.barrier role).Sound g

/-- What settling leaves of a context. -/
structure Context.Settles (g : Generation) (w : Wait) (c c' : Context) : Prop where
  nonzero : ∀ d, d ∈ c'.nonzero ↔ d ∈ c.nonzero ∧ w.get d ≠ 0
  flatLgkm : c'.flatLgkm = (c.flatLgkm && w.get .lgkm != 0)
  flatVm : c'.flatVm = (c.flatVm && w.get .vm != 0)
  entry : ∀ (r : Reg) (e : Entry), c.regs[r]? = some e →
    (e.settle g w).counters.isEmpty = false → c'.regs[r]? = some (e.settle g w)
  source : ∀ (r : Reg) (e' : Entry), c'.regs[r]? = some e' → ∃ e : Entry, c.regs[r]? = some e
    ∧ e' = e.settle g w ∧ (w = .none ∨ e'.counters.isEmpty = false)
  barrier : ∀ role, c'.barrier role = c.barrier role
    ∨ (c.barrier role).settle g w = .ok (c'.barrier role)

namespace Context

variable {g : Generation} {c : Context}

lemma settles_of_settle {w : Wait} {c' : Context} (h : c.settle g w = .ok c') :
    c.Settles g w c' := by
  rw [settle] at h
  split at h
  · rename_i hnone
    cases h
    rw [Wait.isNone_iff.1 hnone]
    have hsame := Entry.settle_none (g := g)
    have hne : ∀ d, Wait.none.get d ≠ 0 := fun d => by rw [Wait.get_none]; decide
    refine ⟨fun d => (and_iff_left (hne d)).symm, ?_, ?_, fun r e he _ => by rw [hsame, he],
      fun r e he => ⟨e, he, (hsame e).symm, .inl rfl⟩, fun _ => .inl rfl⟩
    · rw [bne_iff_ne.2 (hne .lgkm), Bool.and_true]
    · rw [bne_iff_ne.2 (hne .vm), Bool.and_true]
  · simp only [bind_eq_ok, pure_eq_ok] at h
    obtain ⟨b₁, h₁, b₂, h₂, b₃, h₃, b₄, h₄, rfl⟩ := h
    have hbarrier : ∀ {role b}, c.settleBarrier g w role = .ok b →
        b = c.barrier role ∨ (c.barrier role).settle g w = .ok b := by
      intro role b hb
      rw [settleBarrier] at hb
      split at hb
      · exact .inr hb
      · cases hb
        exact .inl rfl
    refine ⟨fun d => ?_, rfl, rfl, fun r e he hleft => ?_, fun r e' he' => ?_, fun role => ?_⟩
    · simp [CounterSet.mem_ofList, Counter.mem_all]
    · simp [he, hleft]
    · simp only [Std.ExtTreeMap.getElem?_filterMap', Option.bind_eq_some_iff] at he'
      obtain ⟨e, he, he'⟩ := he'
      split at he'
      · cases he'
      · rename_i hleft
        cases he'
        exact ⟨e, he, rfl, .inr (by simpa using hleft)⟩
    · cases role
      · exact hbarrier h₁
      · exact hbarrier h₂
      · exact hbarrier h₃
      · exact hbarrier h₄

lemma Settles.demand {w : Wait} {c' : Context} (h : c.Settles g w c') (role : BarrierRole)
    (k : Storage) :
    ((c.barrier role).demand k).Settles g w ((c'.barrier role).demand k) := by
  rcases h.barrier role with heq | hs
  · rw [heq]
    exact .refl g w _
  · exact Barrier.demand_settles hs k

lemma Sound.settle (hc : c.Sound g) {w : Wait} {c' : Context} (h : c.settle g w = .ok c') :
    c'.Sound g := by
  have hs := settles_of_settle h
  refine ⟨fun r e' he' => ?_, fun role => ?_⟩
  · obtain ⟨e, he, heq, hleft⟩ := hs.source r e' he'
    rcases hleft with rfl | hleft
    · rw [heq, Entry.settle_none]
      exact hc.entry r e he
    · rw [heq] at hleft ⊢
      exact (hc.entry r e he).settle hleft
  · rcases hs.barrier role with heq | hb
    · rw [heq]
      exact hc.barrier role
    · exact (hc.barrier role).settle hb

lemma settle_total (hc : c.Sound g) (w : Wait) : ∃ c', c.settle g w = .ok c' := by
  have hbarrier : ∀ role, ∃ b, c.settleBarrier g w role = .ok b := by
    intro role
    rw [settleBarrier]
    split
    · exact Barrier.settle_total (hc.barrier role) w
    · exact ⟨_, rfl⟩
  rw [settle]
  split
  · exact ⟨c, rfl⟩
  · obtain ⟨_, h₁⟩ := hbarrier .releaseDependency
    obtain ⟨_, h₂⟩ := hbarrier .acquireDependency
    obtain ⟨_, h₃⟩ := hbarrier .release
    obtain ⟨_, h₄⟩ := hbarrier .acquire
    simp only [bind_eq_ok, pure_eq_ok]
    exact ⟨_, _, h₁, _, h₂, _, h₃, _, h₄, rfl⟩

lemma sound_empty (g : Generation) : ({} : Context).Sound g := by
  refine ⟨fun r e he => by simp at he, fun role => ?_⟩
  cases role <;> exact Barrier.sound_empty g

/-- What joins of entries keep is true of the entries of a join. -/
lemma forall_regs_join {P : Entry → Prop} {o : Context}
    (hlanes : ∀ {e : Entry} (lanes : EventSet), P e → P { e with laneEvents := lanes })
    (hjoin : ∀ {e x : Entry}, P e → P x → P (e.join x))
    (hc : ∀ (r : Reg) (e : Entry), c.regs[r]? = some e → P e)
    (ho : ∀ (r : Reg) (e : Entry), o.regs[r]? = some e → P e) (edge : Edge) :
    ∀ (r : Reg) (e : Entry), (c.join o edge).regs[r]? = some e → P e := by
  intro r e he
  obtain ⟨-, hd⟩ | ⟨x, d, hx, rfl, hd⟩ := regs_join_eq_some he
  · exact hc r e hd
  · rw [Entry.joinAlong_eq]
    refine hlanes _ ?_
    obtain hd | ⟨hcarries, rfl⟩ := hd
    · split
      · exact hjoin (hc r d hd) (ho r x hx)
      · exact hc r d hd
    · rw [if_pos hcarries, Entry.vacant_join]
      exact hlanes ∅ (ho r x hx)

lemma Sound.join (hc : c.Sound g) {o : Context} (ho : o.Sound g) (edge : Edge) :
    (c.join o edge).Sound g := by
  refine ⟨forall_regs_join (fun lanes he => he.withLanes lanes) (fun he hx => he.join hx) hc.entry
    ho.entry edge, fun role => ?_⟩
  rw [barrier_join]
  split
  · exact (hc.barrier role).join (ho.barrier role)
  · exact hc.barrier role

/-! ### Deferring -/

lemma barrier_setBarrier (c : Context) (role role' : BarrierRole) (b : Barrier) :
    (c.setBarrier role b).barrier role' = if role' = role then b else c.barrier role' := by
  cases role <;> cases role' <;> rfl

@[simp] lemma regs_setBarrier (c : Context) (role : BarrierRole) (b : Barrier) :
    (c.setBarrier role b).regs = c.regs := by cases role <;> rfl

@[simp] lemma nonzero_setBarrier (c : Context) (role : BarrierRole) (b : Barrier) :
    (c.setBarrier role b).nonzero = c.nonzero := by cases role <;> rfl

@[simp] lemma flatVm_setBarrier (c : Context) (role : BarrierRole) (b : Barrier) :
    (c.setBarrier role b).flatVm = c.flatVm := by cases role <;> rfl

@[simp] lemma flatLgkm_setBarrier (c : Context) (role : BarrierRole) (b : Barrier) :
    (c.setBarrier role b).flatLgkm = c.flatLgkm := by cases role <;> rfl

/-- The demand that a barrier moves. -/
def movedDemand (c : Context) (s : Setting) (sync : Sync) (source : BarrierRole) : Demand :=
  (((sync.storage ∩ (c.barrier source).storage).toList.map (c.barrier source).demand).filter
    fun d => !(d.events == {.lds} && decide (sync.scope.narrowest .workgroup ≤ s.aloneScope))).foldl
      Demand.join {}

/-- What deferring does: nothing, or it adds a demand to the memory `target` for some classes. -/
lemma defer_cases (c : Context) (s : Setting) (sync : Sync) (source target : BarrierRole) :
    ((sync.scope ≤ s.aloneScope ∨ (c.movedDemand s sync source).events.isEmpty = true)
        ∧ c.defer s sync source target = c)
      ∨ (¬sync.scope ≤ s.aloneScope ∧ (c.movedDemand s sync source).events.isEmpty = false
        ∧ c.defer s sync source target = c.setBarrier target
          { demands := .ofFn fun k =>
              let d := (c.barrier target).demand k
              if k ∈ sync.storage then
                { wait := d.wait.both (c.movedDemand s sync source).wait
                  events := d.events ∪ (c.movedDemand s sync source).events
                  scope := d.scope.widest sync.scope }
              else d
            storage := (c.barrier target).storage ∪ sync.storage
            live := true }) := by
  rw [defer]
  split
  · exact .inl ⟨.inl ‹_›, rfl⟩
  · dsimp only
    split
    · exact .inl ⟨.inr ‹_›, rfl⟩
    · rename_i hscope hmoved
      exact .inr ⟨hscope, Bool.not_eq_true _ ▸ hmoved, rfl⟩

lemma counted_movedDemand (hc : c.Sound g) (s : Setting) (sync : Sync) (source : BarrierRole) :
    (c.movedDemand s sync source).Counted g := by
  refine (Demand.counted_empty g).foldl_join fun d hd => ?_
  obtain ⟨k, -, rfl⟩ := List.mem_map.1 (List.mem_filter.1 hd).1
  exact (hc.barrier source).counted k

/-- Deferring touches nothing but one memory of barriers. -/
lemma defer_frame (c : Context) (s : Setting) (sync : Sync) (source target : BarrierRole) :
    (c.defer s sync source target).regs = c.regs
      ∧ (c.defer s sync source target).nonzero = c.nonzero
      ∧ (c.defer s sync source target).flatVm = c.flatVm
      ∧ (c.defer s sync source target).flatLgkm = c.flatLgkm
      ∧ ∀ role, role ≠ target → (c.defer s sync source target).barrier role = c.barrier role := by
  rcases defer_cases c s sync source target with ⟨-, h⟩ | ⟨-, -, h⟩
  · rw [h]
    exact ⟨rfl, rfl, rfl, rfl, fun _ _ => rfl⟩
  · rw [h]
    refine ⟨by simp, by simp, by simp, by simp, fun role hr => ?_⟩
    rw [barrier_setBarrier, if_neg hr]

lemma Sound.defer (hc : c.Sound g) (s : Setting) (sync : Sync) (source target : BarrierRole) :
    (c.defer s sync source target).Sound g := by
  refine ⟨fun r e he => hc.entry r e ((defer_frame c s sync source target).1 ▸ he), fun role => ?_⟩
  by_cases hr : role = target
  · subst hr
    rcases defer_cases c s sync source role with ⟨-, h⟩ | ⟨-, -, h⟩
    · rw [h]
      exact hc.barrier role
    · rw [h, barrier_setBarrier, if_pos rfl]
      refine ⟨fun k ev hev => ⟨?_, rfl⟩, fun k => ?_⟩
      · simp only [Barrier.demand, PerStorage.get_ofFn] at hev
        rw [Flags.mem_union]
        split at hev
        · exact .inr ‹_›
        · exact .inl ((hc.barrier role).listed k ev hev).1
      · simp only [Barrier.demand, PerStorage.get_ofFn]
        split
        · exact ((hc.barrier role).counted k).both (counted_movedDemand hc s sync source) _
        · exact (hc.barrier role).counted k
  · rw [(defer_frame c s sync source target).2.2.2.2 role hr]
    exact hc.barrier role

lemma Sound.deferBefore (hc : c.Sound g) (s : Setting) (i : Instruction) :
    (c.deferBefore s i).Sound g := by
  have hreleased : (if .release ∈ i.sync.semantics then c.deferRelease s i.sync else c).Sound g := by
    split
    · exact hc.defer s i.sync _ _
    · exact hc
  rw [Context.deferBefore]
  split
  · split
    · exact hreleased.defer s i.sync _ _
    · exact hreleased
  · exact hreleased

lemma Sound.deferAfter (hc : c.Sound g) (s : Setting) (i : Instruction) :
    (c.deferAfter s i).Sound g := by
  rw [Context.deferAfter]
  split
  · exact hc.defer s i.sync _ _
  · exact hc

/-! ### Issuing -/

lemma Sound.of_barrier (hc : c.Sound g) {c' : Context}
    (hentry : ∀ (r : Reg) (e : Entry), c'.regs[r]? = some e → e.Sound g)
    (hbarrier : ∀ role, c'.barrier role = c.barrier role) : c'.Sound g :=
  ⟨hentry, fun role => hbarrier role ▸ hc.barrier role⟩

/-- A memory of barriers records an event, on behalf of classes that do not depend on the context, or
stays. -/
lemma barrier_recordEvent (s : Setting) (ev : Event) (sync : Sync) (i? : Option Instruction)
    (role : BarrierRole) : (∀ c : Context, (c.recordEvent s ev sync i?).barrier role = c.barrier role)
      ∨ ∃ storage, ∀ c : Context,
        (c.recordEvent s ev sync i?).barrier role = (c.barrier role).record s.generation ev storage := by
  cases role with
  | releaseDependency => exact .inr ⟨_, fun _ => rfl⟩
  | acquireDependency =>
    cases i? with
    | none => exact .inl fun _ => rfl
    | some i => exact .inr ⟨_, fun _ => rfl⟩
  | release => exact .inr ⟨_, fun _ => rfl⟩
  | acquire => exact .inr ⟨_, fun _ => rfl⟩

/-- Telling the barriers of an event changes nothing else. -/
lemma recordEvent_frame (c : Context) (s : Setting) (ev : Event) (sync : Sync)
    (i? : Option Instruction) :
    (c.recordEvent s ev sync i?).regs = c.regs ∧ (c.recordEvent s ev sync i?).nonzero = c.nonzero
      ∧ (c.recordEvent s ev sync i?).flatVm = c.flatVm
      ∧ (c.recordEvent s ev sync i?).flatLgkm = c.flatLgkm
      ∧ ∀ role, (c.recordEvent s ev sync i?).barrier role = c.barrier role
        ∨ ∃ storage, (c.recordEvent s ev sync i?).barrier role
          = (c.barrier role).record s.generation ev storage := by
  refine ⟨rfl, rfl, rfl, rfl, fun role => ?_⟩
  rcases barrier_recordEvent s ev sync i? role with h | ⟨storage, h⟩
  · exact .inl (h c)
  · exact .inr ⟨storage, h c⟩

lemma Sound.recordEvent {s : Setting} (hc : c.Sound s.generation) (ev : Event) (sync : Sync)
    (i? : Option Instruction) : (c.recordEvent s ev sync i?).Sound s.generation := by
  obtain ⟨hregs, -, -, -, hbarrier⟩ := recordEvent_frame c s ev sync i?
  refine ⟨fun r e he => hc.entry r e (hregs ▸ he), fun role => ?_⟩
  rcases hbarrier role with heq | ⟨storage, heq⟩
  · rw [heq]
    exact hc.barrier role
  · rw [heq]
    exact (hc.barrier role).record ev storage

/-- What issuing an event does to a context. -/
structure Issued (s : Setting) (ev : Event) (sync : Sync) (i? : Option Instruction)
    (c c' : Context) : Prop where
  nonzero : c'.nonzero = c.nonzero ∪ s.generation.countersOf {ev}
  flatVm : c'.flatVm = c.flatVm
  flatLgkm : c'.flatLgkm = c.flatLgkm
  barrier : ∀ role, c'.barrier role = (c.recordEvent s ev sync i?).barrier role
  entry : ∀ r : Reg, c'.regs[r]? =
    if ev ∈ Event.unordered then c.regs[r]? else c.regs[r]?.map fun e => e.age s.generation ev

lemma issued_of_issue {s : Setting} {ev : Event} {sync : Sync} {i? : Option Instruction}
    {c' : Context} (h : c.issue s ev sync i? = .ok c') : Issued s ev sync i? c c' := by
  rw [issue] at h
  dsimp only at h
  split at h
  · rename_i hun
    cases h
    exact ⟨rfl, rfl, rfl, fun role => by cases role <;> rfl, fun r => by rw [if_pos hun]; rfl⟩
  · rename_i hun
    split at h
    · cases h
    · cases h
      refine ⟨rfl, rfl, rfl, fun role => by cases role <;> rfl, fun r => ?_⟩
      rw [if_neg hun, Std.ExtTreeMap.getElem?_map]
      rfl

lemma issue_total {s : Setting} (hc : c.Sound s.generation) (ev : Event) (sync : Sync)
    (i? : Option Instruction) : ∃ c', c.issue s ev sync i? = .ok c' := by
  rw [issue]
  dsimp only
  split
  · exact ⟨_, rfl⟩
  · have hno : (c.regs.toList.any fun x => x.2.events.isEmpty) = false := by
      rw [List.any_eq_false]
      rintro ⟨r, e⟩ hmem
      obtain ⟨ev', hev'⟩ :=
        (hc.entry r e (Std.ExtTreeMap.mem_toList_iff_getElem?_eq_some.1 hmem)).event
      simpa using EventSet.isEmpty_eq_false_iff.2 ⟨ev', hev'⟩
    split
    · rename_i hany
      exact absurd hany (ne_true_of_eq_false hno)
    · exact ⟨_, rfl⟩

lemma Sound.issue {s : Setting} (hc : c.Sound s.generation) {ev : Event} {sync : Sync}
    {i? : Option Instruction} {c' : Context} (h : c.issue s ev sync i? = .ok c') :
    c'.Sound s.generation := by
  have hi := issued_of_issue h
  refine ⟨fun r e he => ?_, fun role => ?_⟩
  · rw [hi.entry] at he
    split at he
    · exact hc.entry r e he
    · obtain ⟨x, hx, rfl⟩ := Option.map_eq_some_iff.1 he
      exact (hc.entry r x hx).age ev
  · rw [hi.barrier]
    exact (hc.recordEvent ev sync i?).barrier role

lemma getElem?_trackUnit (m : RegMap) (r r' : Reg) (e : Entry) :
    (trackUnit m r e)[r']? =
      if r = r' then some (match m[r']? with
        | some old => (old.join e).addLanes e.laneEvents
        | none => e)
      else m[r']? := by
  rw [trackUnit, Std.ExtTreeMap.getElem?_alter]
  by_cases hr : r = r'
  · subst hr
    simp only [Std.ReflCmp.compare_self, if_true]
    cases m[r]? <;> rfl
  · simp only [hr, if_false, Std.compare_eq_iff_eq]

/-- An access of a unit that has just started. -/
def startedEntry (g : Generation) (ev : Event) (blocksReads : Bool) (types : VmemTypeSet)
    (halves : HalfSet) : Entry :=
  { Entry.ofEvent ev (g.countersOf {ev}) blocksReads with
    vmemTypes := if Counter.vm ∈ g.countersOf {ev} then types else ∅
    halves }

lemma sound_startedEntry (g : Generation) (ev : Event) (blocksReads : Bool) (types : VmemTypeSet)
    (halves : HalfSet) : (startedEntry g ev blocksReads types halves).Sound g :=
  ⟨⟨ev, by simp [startedEntry, Entry.ofEvent]⟩, rfl⟩

/-- What tracking a range does: the units of the range get one more access each. -/
lemma track_eq_ok {range : RegRange} {ev : Event} {blocksReads : Bool} {types : VmemTypeSet}
    {halves : BitVec 32} {c' : Context} :
    c.track g range ev blocksReads types halves = .ok c' ↔
      range.checkFits = .ok () ∧ c' = { c with
        regs := range.units.zipIdx.foldl (fun m (r, j) => trackUnit m r
          (startedEntry g ev blocksReads types (HalfSet.ofWord halves j))) c.regs } := by
  simp only [track, bind_eq_ok, pure_eq_ok]
  constructor
  · rintro ⟨⟨⟩, hfits, rfl⟩
    exact ⟨hfits, rfl⟩
  · rintro ⟨hfits, rfl⟩
    exact ⟨(), hfits, rfl⟩

/-- What is true of all entries stays so when accesses are added to some of them. -/
lemma forall_trackUnits {P : Entry → Prop} {new : Nat → Entry} {units : List (Reg × Nat)}
    (hnew : ∀ j, P (new j))
    (hjoin : ∀ {old : Entry} (j : Nat), P old → P ((old.join (new j)).addLanes (new j).laneEvents))
    {m : RegMap} (hm : ∀ (r : Reg) (e : Entry), m[r]? = some e → P e) :
    ∀ (r : Reg) (e : Entry),
      (units.foldl (fun m (r, j) => trackUnit m r (new j)) m)[r]? = some e → P e := by
  induction units generalizing m with
  | nil => exact hm
  | cons u rest ih =>
    rw [List.foldl_cons]
    apply ih
    intro r e he
    rw [getElem?_trackUnit] at he
    split at he
    · cases hr : m[r]? with
      | none =>
        rw [hr] at he
        cases he
        exact hnew u.2
      | some old =>
        rw [hr] at he
        cases he
        exact hjoin u.2 (hm r old hr)
    · exact hm r e he

/-- What is true of the entry of a unit stays so when accesses are added to some units. -/
lemma exists_trackUnits {P : Entry → Prop} (new : Nat → Entry) {u : Reg}
    (hjoin : ∀ {old : Entry} (j : Nat), P old → P ((old.join (new j)).addLanes (new j).laneEvents))
    (units : List (Reg × Nat)) {m : RegMap} (hm : ∃ e : Entry, m[u]? = some e ∧ P e) :
    ∃ e : Entry, (units.foldl (fun m (r, j) => trackUnit m r (new j)) m)[u]? = some e ∧ P e := by
  induction units generalizing m with
  | nil => exact hm
  | cons unit rest ih =>
    obtain ⟨e, he, hP⟩ := hm
    apply ih
    rw [getElem?_trackUnit]
    split
    · rw [he]
      exact ⟨_, rfl, hjoin _ hP⟩
    · exact ⟨e, he, hP⟩

/-- What is true of one access becomes true of the entry of the unit that gets it, and stays so when
the other units get theirs. -/
lemma exists_trackUnits_at {P : Entry → Prop} (new : Nat → Entry) {u : Reg} {j : Nat}
    (hnew : P (new j)) (hadd : ∀ old : Entry, P ((old.join (new j)).addLanes (new j).laneEvents))
    (hjoin : ∀ {old : Entry} (j : Nat), P old → P ((old.join (new j)).addLanes (new j).laneEvents))
    {units : List (Reg × Nat)} (hu : (u, j) ∈ units) (m : RegMap) :
    ∃ e : Entry, (units.foldl (fun m (r, j) => trackUnit m r (new j)) m)[u]? = some e ∧ P e := by
  induction units generalizing m with
  | nil => cases hu
  | cons unit rest ih =>
    rcases List.mem_cons.1 hu with rfl | hu
    · refine exists_trackUnits new hjoin rest ⟨_, by rw [getElem?_trackUnit, if_pos rfl], ?_⟩
      split
      · exact hadd _
      · exact hnew
    · exact ih hu _

/-- What is true of an access becomes true of the entries of the units that get it. -/
lemma exists_trackUnits_of_mem {P : Entry → Prop} (new : Nat → Entry) {u : Reg}
    (hnew : ∀ j, P (new j))
    (hadd : ∀ (old : Entry) (j : Nat), P ((old.join (new j)).addLanes (new j).laneEvents))
    {units : List (Reg × Nat)} {j : Nat} (hu : (u, j) ∈ units) (m : RegMap) :
    ∃ e : Entry, (units.foldl (fun m (r, j) => trackUnit m r (new j)) m)[u]? = some e ∧ P e :=
  exists_trackUnits_at new (hnew j) (hadd · j) (fun j _ => hadd _ j) hu m

lemma Sound.track (hc : c.Sound g) {range : RegRange} {ev : Event} {blocksReads : Bool}
    {types : VmemTypeSet} {halves : BitVec 32} {c' : Context}
    (h : c.track g range ev blocksReads types halves = .ok c') : c'.Sound g := by
  obtain ⟨-, rfl⟩ := track_eq_ok.1 h
  refine hc.of_barrier ?_ fun role => by cases role <;> rfl
  exact forall_trackUnits (P := (·.Sound g))
    (fun j => sound_startedEntry g ev blocksReads types (HalfSet.ofWord halves j))
    (fun j hold => (hold.join (sound_startedEntry g ev blocksReads types _)).withLanes _) hc.entry

lemma Sound.apply {s : Setting} (hc : c.Sound s.generation) {i : Instruction} {effect : Effect}
    {c' : Context} (h : c.apply s i effect = .ok c') : c'.Sound s.generation := by
  cases effect with
  | issue ev sync => exact hc.issue h
  | track range ev blocksReads types halves => exact hc.track h
  | flat =>
    cases h
    exact hc.of_barrier hc.entry fun role => by cases role <;> rfl
  | fail fault => cases h

lemma Sound.start {s : Setting} (hc : c.Sound s.generation) {i : Instruction} {c' : Context}
    (h : c.start s i = .ok c') : c'.Sound s.generation :=
  foldlM_invariant (fun c => c.Sound s.generation) (fun _ _ _ _ hc h => hc.apply h) hc h

end Context

end GpuWaits
