/-
# Smaller contexts ask for less

A context is below another one if the other has all of its accesses and waits for them at least as long
(`Context.Below`).  This file shows that the walk respects this order as long as contexts are tidy.  The
operations of the walk are monotone, and an instruction waits for no more in the smaller context.

Two laws carry the comparison of a walk with a second one over the code that the first has put out.
`Context.settle_below` says that waiting makes a context smaller.  `Context.Below.settle_right` says that
what a wait has left of a context stays below when the larger one waits as well, for as much or less.
-/
import GpuWaits.Proofs.Tidy

namespace GpuWaits

/-! ### The order, part by part -/

/-- Every access of `x` is one of `e`. -/
structure Entry.Among (x e : Entry) : Prop where
  events : ∀ ev ∈ x.events, ev ∈ e.events
  lanes : ∀ ev ∈ x.laneEvents, ev ∈ e.laneEvents
  counters : ∀ c ∈ x.counters, c ∈ e.counters
  blocksReads : x.blocksReads = true → e.blocksReads = true
  vmemTypes : e.vmemTypes.lacks x.vmemTypes = false
  halves : e.halves.lacks x.halves = false

lemma Entry.grows_iff_among {x e : Entry} :
    e.grows x = false ∧ e.laneEvents.lacks x.laneEvents = false ↔ x.Among e ∧ e.wait ≤ x.wait := by
  rw [Entry.grows_eq_false_iff, EventSet.lacks_iff, EventSet.lacks_iff, CounterSet.lacks_iff]
  constructor
  · rintro ⟨⟨hev, hco, hbr, hty, hha, hwa⟩, hla⟩
    exact ⟨⟨hev, hla, hco, hbr, hty, hha⟩, hwa⟩
  · rintro ⟨⟨hev, hla, hco, hbr, hty, hha⟩, hwa⟩
    exact ⟨⟨hev, hco, hbr, hty, hha, hwa⟩, hla⟩

/-- Everything that `x` asks for is asked for by `d`. -/
structure Demand.Among (x d : Demand) : Prop where
  events : ∀ ev ∈ x.events, ev ∈ d.events
  scope : x.scope.width ≤ d.scope.width

lemma Demand.grows_iff_among {x d : Demand} :
    d.grows x = false ↔ x.Among d ∧ d.wait ≤ x.wait := by
  rw [Demand.grows_eq_false_iff, EventSet.lacks_iff]
  constructor
  · rintro ⟨hwa, hev, hsc⟩
    exact ⟨⟨hev, hsc⟩, hwa⟩
  · rintro ⟨⟨hev, hsc⟩, hwa⟩
    exact ⟨hwa, hev, hsc⟩

namespace Context

variable {g : Generation} {c d : Context}

lemma Below.entry (h : c.Below d) {r : Reg} {x : Entry} (hx : c.regs[r]? = some x) :
    ∃ e : Entry, d.regs[r]? = some e ∧ x.Among e ∧ e.wait ≤ x.wait := by
  obtain ⟨e, he, hgrows⟩ := h.entries r x hx
  exact ⟨e, he, Entry.grows_iff_among.1 hgrows⟩

lemma Below.demand (h : c.Below d) (role : BarrierRole) (k : Storage) :
    ((c.barrier role).demand k).Among ((d.barrier role).demand k)
      ∧ ((d.barrier role).demand k).wait ≤ ((c.barrier role).demand k).wait :=
  Demand.grows_iff_among.1 (h.demands role k)

/-- For a tidy context only the entries and the demands count. -/
lemma Tidy.below (hc : c.Tidy g) (hnonzero : ∀ n ∈ c.nonzero, n ∈ d.nonzero)
    (hentry : ∀ (r : Reg) (x : Entry), c.regs[r]? = some x →
      ∃ e : Entry, d.regs[r]? = some e ∧ x.Among e ∧ e.wait ≤ x.wait)
    (hdemand : ∀ role k, ((c.barrier role).demand k).Among ((d.barrier role).demand k)
      ∧ ((d.barrier role).demand k).wait ≤ ((c.barrier role).demand k).wait) : c.Below d where
  nonzero := CounterSet.lacks_iff.2 hnonzero
  flatLgkm h := by rw [hc.flatLgkm] at h; cases h
  flatVm h := by rw [hc.flatVm] at h; cases h
  entries r x hx := by
    obtain ⟨e, he, hamong⟩ := hentry r x hx
    exact ⟨e, he, Entry.grows_iff_among.2 hamong⟩
  demands role k := Demand.grows_iff_among.2 (hdemand role k)

lemma Below.mem_nonzero (h : c.Below d) {n : Counter} (hn : n ∈ c.nonzero) : n ∈ d.nonzero :=
  CounterSet.lacks_iff.1 h.nonzero n hn

end Context

/-! ### Waiting -/

namespace Entry

variable {g : Generation} {x₀ x e e' : Entry} {v w : Wait} {met : Counter → Prop}

/-- What is left of an entry was there before. -/
lemma Left.among (h : e.Left g met e') : e'.Among e ∧ e.wait ≤ e'.wait := by
  refine ⟨⟨fun ev hev => ((h.events ev).1 hev).1, fun ev hev => (h.lanes ev hev).1,
    fun c hc => ((h.counters c).1 hc).1, fun hb => h.blocksReads ▸ hb, ?_, ?_⟩, fun c => ?_⟩
  · by_cases hm : met .vm
    · rw [(h.loaded hm).1]
      exact Flags.lacks_empty _
    · rw [(h.loading hm).1]
      exact Flags.lacks_refl _
  · by_cases hm : met .vm
    · rw [(h.loaded hm).2]
      exact Flags.lacks_empty _
    · rw [(h.loading hm).2]
      exact Flags.lacks_refl _
  · by_cases hm : met c
    · rw [h.gone c hm]
      exact Wait.le_unset _
    · rw [h.kept c hm]
      exact UInt16.le_refl _

/-- Accesses that a wait has left are not complete, nor are they in a larger entry for a weaker wait. -/
lemma Left.meets (hx : x₀.Left g (v.Meets x₀.wait) x) (hle : v ≤ w) (hwait : e.wait ≤ x.wait)
    {c : Counter} (hm : w.Meets e.wait c) : v.Meets x₀.wait c := by
  by_contra hno
  refine hno ⟨Wait.isSet_of_le hle hm.1, ?_⟩
  rw [← hx.kept c hno]
  exact UInt16.le_trans (UInt16.le_trans (hle c) hm.2) (hwait c)

/-- So what a wait has left stays when the larger entry waits as well. -/
lemma Left.among_settle (hx : x₀.Left g (v.Meets x₀.wait) x) (hle : v ≤ w) (h : x.Among e)
    (hwait : e.wait ≤ x.wait) : x.Among (e.settle g w) ∧ (e.settle g w).wait ≤ x.wait := by
  have he := left_settle e g w
  have hmeets : ∀ c, w.Meets e.wait c → v.Meets x₀.wait c := fun c => hx.meets hle hwait
  have hevents : ∀ ev ∈ x.events, ev ∈ (e.settle g w).events := by
    intro ev hev
    refine (he.events ev).2 ⟨h.events ev hev, fun c hc hm => ?_⟩
    exact ((hx.events ev).1 hev).2 c hc (hmeets c hm)
  refine ⟨⟨hevents, fun ev hev => ?_, fun c hc => ?_, fun hb => ?_, ?_, ?_⟩, fun c => ?_⟩
  · exact he.seen ev (h.lanes ev hev) fun ⟨c, hm⟩ =>
      hevents ev ((hx.lanes ev hev).2 ⟨c, hmeets c hm⟩)
  · exact (he.counters c).2
      ⟨h.counters c hc, fun hm => ((hx.counters c).1 hc).2 (hmeets c hm)⟩
  · rw [he.blocksReads]
    exact h.blocksReads hb
  · by_cases hm : w.Meets e.wait .vm
    · rw [(hx.loaded (hmeets _ hm)).1]
      exact Flags.lacks_empty _
    · rw [(he.loading hm).1]
      exact h.vmemTypes
  · by_cases hm : w.Meets e.wait .vm
    · rw [(hx.loaded (hmeets _ hm)).2]
      exact Flags.lacks_empty _
    · rw [(he.loading hm).2]
      exact h.halves
  · by_cases hm : w.Meets e.wait c
    · rw [hx.gone c (hmeets c hm)]
      exact Wait.le_unset _
    · rw [he.kept c hm]
      exact hwait c

end Entry

namespace Demand

variable {g : Generation} {x₀ x d d' : Demand} {v w : Wait}

/-- A demand is above another one if it asks for its accesses, at least as early. -/
lemma among_of_events (hx : x.Tidy g) (hcounted : x.Counted g)
    (h : ∀ ev ∈ x.events, ∀ c, g.counter? ev = some c →
      ev ∈ d.events ∧ d.wait.get c ≤ x.wait.get c ∧ x.scope.width ≤ d.scope.width) :
    x.Among d ∧ d.wait ≤ x.wait := by
  refine ⟨⟨fun ev hev => ?_, ?_⟩, fun c => ?_⟩
  · obtain ⟨c, hc, -⟩ := hx.timed ev hev
    exact (h ev hev c hc).1
  · by_cases hno : ∃ ev, ev ∈ x.events
    · obtain ⟨ev, hev⟩ := hno
      obtain ⟨c, hc, -⟩ := hx.timed ev hev
      exact (h ev hev c hc).2.2
    · rw [hx.empty (not_exists.1 hno)]
      exact Nat.zero_le _
  · by_cases hset : x.wait.isSet c = true
    · obtain ⟨ev, hev, hc⟩ := hcounted c hset
      exact (h ev hev c hc).2.1
    · rw [show x.wait.get c = Wait.unset by simpa [Wait.isSet] using hset]
      exact Wait.le_unset _

lemma Left.among (h : d.Left g w d') : d'.Among d ∧ d.wait ≤ d'.wait := by
  refine among_of_events h.tidy h.counted fun ev hev c hc => ?_
  obtain ⟨-, hwait, hscope⟩ := h.kept ev (h.events ev hev) c hc (h.waiting ev hev c hc)
  rw [hwait, hscope]
  exact ⟨h.events ev hev, UInt16.le_refl _, Nat.le_refl _⟩

lemma Left.among_settle (hx : x₀.Left g v x) (hd : d.Left g w d') (hle : v ≤ w) (h : x.Among d)
    (hwait : d.wait ≤ x.wait) : x.Among d' ∧ d'.wait ≤ x.wait := by
  refine among_of_events hx.tidy hx.counted fun ev hev c hc => ?_
  have hno := hx.waiting ev hev c hc
  have hkept := (hx.kept ev (hx.events ev hev) c hc hno).2.1
  -- If the larger demand were met, so would have been the smaller one.
  have hno' : ¬w.Meets d.wait c := by
    rintro ⟨hset, hmet⟩
    refine hno ⟨Wait.isSet_of_le hle hset, ?_⟩
    rw [← hkept]
    exact UInt16.le_trans (UInt16.le_trans (hle c) hmet) (hwait c)
  obtain ⟨hev', hwait', hscope⟩ := hd.kept ev (h.events ev hev) c hc hno'
  rw [hwait', hscope]
  exact ⟨hev', hwait c, h.scope⟩

end Demand

namespace Context

variable {g : Generation} {c c' d d' : Context} {v w : Wait}

/-- Waiting makes a context smaller. -/
lemma settle_below (hc : c.Tidy g) (h : c.settle g v = .ok c') : c'.Below c := by
  have hs := settles_of_settle h
  refine (hc.settle h).below (fun n hn => ((hs.nonzero n).1 hn).1) (fun r x hx => ?_)
    fun role k => (hc.left h role k).among
  obtain ⟨e, he, rfl, -⟩ := hs.source r x hx
  exact ⟨e, he, (Entry.left_settle e g v).among⟩

/-- What a wait has left of a context stays below when the larger context waits, for no more. -/
lemma Below.settle_right (hb : c'.Below d) (hc : c.Tidy g) (hd : d.Tidy g)
    (h : c.settle g v = .ok c') (hle : v ≤ w) (h' : d.settle g w = .ok d') : c'.Below d' := by
  have hs := settles_of_settle h
  have hs' := settles_of_settle h'
  refine (hc.settle h).below (fun n hn => ?_) (fun r x hx => ?_) fun role k => ?_
  · refine (hs'.nonzero n).2 ⟨hb.mem_nonzero hn, fun hzero => ((hs.nonzero n).1 hn).2 ?_⟩
    have hv := UInt16.le_iff_toNat_le.1 (hle n)
    rw [hzero] at hv
    exact UInt16.toNat_inj.1 (Nat.le_zero.1 hv)
  · obtain ⟨e, he, hamong, hwait⟩ := hb.entry hx
    obtain ⟨x₀, -, rfl, hleft⟩ := hs.source r x hx
    have hsettled := (Entry.left_settle x₀ g v).among_settle hle hamong hwait
    rcases hleft with rfl | hleft
    · -- There is nothing to wait for in either context.
      have hnone : w = .none := Wait.eq_none_of_le hle
      subst hnone
      rw [Entry.settle_none] at hsettled
      rw [settle, if_pos (by decide)] at h'
      cases h'
      exact ⟨e, he, hsettled⟩
    · obtain ⟨n, hn⟩ := CounterSet.isEmpty_eq_false_iff.1 hleft
      exact ⟨_, hs'.entry r e he (CounterSet.isEmpty_eq_false_iff.2
        ⟨n, hsettled.1.counters n hn⟩), hsettled⟩
  · obtain ⟨hamong, hwait⟩ := hb.demand role k
    exact (hc.left h role k).among_settle (hd.left h' role k) hle hamong hwait

/-- The longer wait leaves less. -/
lemma below_of_settle_le (hc : c.Tidy g) (h : c.settle g v = .ok c') (hle : v ≤ w)
    (h' : c.settle g w = .ok d') : c'.Below d' :=
  (settle_below hc h).settle_right hc hc h hle h'

end Context

/-! ### Issuing -/

/-- One more event moves the accesses on the counter `c` one further away: they are all of its kind, and
none is out of order. -/
def EventSet.Moved (es : EventSet) (g : Generation) (ev : Event) (c : Counter) : Prop :=
  es.isUnordered = false ∧ c ∈ g.countersOf {ev} ∧ es ∩ g.eventsOn c = {ev}

instance (es : EventSet) (g : Generation) (ev : Event) (c : Counter) : Decidable (es.Moved g ev c) :=
  inferInstanceAs (Decidable (_ ∧ _ ∧ _))

namespace EventSet

variable {g : Generation} {xs es : EventSet} {ev : Event} {c : Counter}

lemma Moved.mem (h : es.Moved g ev c) : ev ∈ es ∧ g.counter? ev = some c := by
  have hev : ev ∈ es ∩ g.eventsOn c := by rw [h.2.2, mem_singleton]
  rw [Flags.mem_inter, Generation.mem_eventsOn] at hev
  exact hev

/-- What is moved in a larger set is moved in a smaller one, or not there. -/
lemma Moved.mono (h : es.Moved g ev c) (hsub : ∀ e ∈ xs, e ∈ es) :
    xs.Moved g ev c ∨ ∀ e ∈ xs, g.counter? e ≠ some c := by
  have hone : ∀ e ∈ xs, g.counter? e = some c → e = ev := by
    intro e he hc
    have hin : e ∈ es ∩ g.eventsOn c :=
      (Flags.mem_inter _ _ _).2 ⟨hsub e he, Generation.mem_eventsOn.2 hc⟩
    rwa [h.2.2, mem_singleton] at hin
  by_cases hev : ev ∈ xs
  · refine .inl ⟨?_, h.2.1, ext fun e => ?_⟩
    · have hun := h.1
      rw [Bool.eq_false_iff] at hun ⊢
      exact fun hx => hun (isUnordered_iff.2 (hsub _ (isUnordered_iff.1 hx)))
    · rw [Flags.mem_inter, Generation.mem_eventsOn, mem_singleton]
      constructor
      · exact fun he => hone e he.1 he.2
      · rintro rfl
        exact ⟨hev, h.mem.2⟩
  · refine .inr fun e he hc => hev ?_
    rw [← hone e he hc]
    exact he

end EventSet

/-- Counting one more operation keeps the order, if what is moved in the stronger wait is moved in the
weaker one or not there. -/
lemma Wait.oneMore_le_oneMore {g : Generation} {p q : Counter → Prop} [DecidablePred p]
    [DecidablePred q] {v w : Wait} (hle : v ≤ w) (hw : w.Near g) (hq : ∀ c, q c → w.isSet c = true)
    (hpq : ∀ c, p c → q c ∨ w.isSet c = false) :
    (ofFn fun c => if p c then g.oneMore c (v.get c) else v.get c)
      ≤ ofFn fun c => if q c then g.oneMore c (w.get c) else w.get c := by
  intro c
  rw [get_ofFn, get_ofFn]
  by_cases hqc : q c
  · rw [if_pos hqc]
    split
    · exact Generation.oneMore_le_oneMore (hle c)
    · exact UInt16.le_trans (hle c) (Generation.le_oneMore (hw c (hq c hqc)))
  · rw [if_neg hqc]
    split
    · rename_i hpc
      have hun := (hpq c hpc).resolve_left hqc
      rw [show w.get c = unset by simpa [isSet] using hun]
      exact le_unset _
    · exact hle c

namespace Entry

variable {g : Generation} {x e o : Entry} {ev : Event}

lemma Among.withWait (h : x.Among e) (v w : Wait) : Among { x with wait := v } { e with wait := w } :=
  ⟨h.events, h.lanes, h.counters, h.blocksReads, h.vmemTypes, h.halves⟩

lemma age_eq (e : Entry) (g : Generation) (ev : Event) : e.age g ev =
    { e with wait := .ofFn fun c => if e.events.Moved g ev c then g.oneMore c (e.wait.get c)
                                    else e.wait.get c } := by
  rw [age]
  split
  · rename_i hun
    have hno : ∀ c, ¬e.events.Moved g ev c := fun c h => by rw [h.1] at hun; cases hun
    have hwait : e.wait = .ofFn fun c => if e.events.Moved g ev c then g.oneMore c (e.wait.get c)
        else e.wait.get c := Wait.ext_get fun c => by rw [Wait.get_ofFn, if_neg (hno c)]
    rw [← hwait]
  · rename_i hun
    simp [EventSet.Moved, hun]

lemma Tidy.isSet_iff_event (hx : x.Tidy g) (hs : x.Sound g) (c : Counter) :
    x.wait.isSet c = true ↔ ∃ ev ∈ x.events, g.counter? ev = some c := by
  rw [hx.timed, hs.counters, Generation.mem_countersOf]

lemma Among.age (h : x.Among e) (hwait : e.wait ≤ x.wait) (hx : x.Tidy g) (hs : x.Sound g)
    (ev : Event) : (x.age g ev).Among (e.age g ev) ∧ (e.age g ev).wait ≤ (x.age g ev).wait := by
  rw [age_eq, age_eq]
  refine ⟨h.withWait _ _, Wait.oneMore_le_oneMore hwait hx.near (fun c hm => ?_) fun c hm => ?_⟩
  · exact (hx.isSet_iff_event hs c).2 ⟨ev, hm.mem⟩
  · refine (hm.mono h.events).imp id fun hno => ?_
    rw [Bool.eq_false_iff, Ne, hx.isSet_iff_event hs]
    rintro ⟨ev', hev', hc⟩
    exact hno ev' hev' hc

lemma Among.refl (e : Entry) : e.Among e :=
  ⟨fun _ => id, fun _ => id, fun _ => id, id, Flags.lacks_refl _, Flags.lacks_refl _⟩

lemma Among.trans {z : Entry} (h : x.Among e) (h' : e.Among z) : x.Among z :=
  ⟨fun ev hev => h'.events ev (h.events ev hev), fun ev hev => h'.lanes ev (h.lanes ev hev),
    fun c hc => h'.counters c (h.counters c hc), fun hb => h'.blocksReads (h.blocksReads hb),
    lacks_trans h'.vmemTypes h.vmemTypes, lacks_trans h'.halves h.halves⟩

/-- An entry is above two others if it is above both of them together. -/
lemma Among.join (h : x.Among e) (ho : o.Among e) {lanes : EventSet}
    (hlanes : ∀ ev ∈ lanes, ev ∈ e.laneEvents) : Among { x.join o with laneEvents := lanes } e where
  events ev hev := ((Flags.mem_union _ _ _).1 hev).elim (h.events ev) (ho.events ev)
  lanes := hlanes
  counters c hc := ((Flags.mem_union _ _ _).1 hc).elim (h.counters c) (ho.counters c)
  blocksReads hb := (Bool.or_eq_true_iff.1 hb).elim h.blocksReads ho.blocksReads
  vmemTypes := Flags.lacks_union h.vmemTypes ho.vmemTypes
  halves := Flags.lacks_union h.halves ho.halves

lemma vacant_among (e : Entry) : vacant.Among e ∧ e.wait ≤ vacant.wait := by
  refine ⟨⟨?_, ?_, ?_, nofun, Flags.lacks_empty _, Flags.lacks_empty _⟩, Wait.le_none _⟩ <;>
    simp [vacant]

/-- It is above what comes of an entry along an edge if it has all that the edge carries. -/
lemma Among.joinAlong {edge : Context.Edge} (h : x.Among e) (hwait : e.wait ≤ x.wait)
    (ho : edge.carriesEntries = true → e.grows o = false)
    (hlanes : edge.logical = true → e.laneEvents.lacks o.laneEvents = false) :
    (x.joinAlong o edge).Among e ∧ e.wait ≤ (x.joinAlong o edge).wait := by
  have hlanes' : ∀ ev ∈ (x.joinAlong o edge).laneEvents, ev ∈ e.laneEvents := by
    intro ev hev
    rw [laneEvents_joinAlong] at hev
    split at hev
    · exact ((Flags.mem_union _ _ _).1 hev).elim (h.lanes ev)
        (EventSet.lacks_iff.1 (hlanes ‹_›) ev)
    · exact h.lanes ev hev
  rw [laneEvents_joinAlong] at hlanes'
  rw [joinAlong_eq]
  split
  · -- The lanes of what comes in are looked at apart.
    have habove : Among { o with laneEvents := ∅ } e ∧ e.wait ≤ o.wait :=
      grows_iff_among.1 ⟨ho ‹_›, Flags.lacks_empty _⟩
    exact ⟨h.join habove.1 hlanes', Wait.le_both hwait habove.2⟩
  · exact ⟨{ h with lanes := hlanes' }, hwait⟩

lemma among_join_left (e o : Entry) {lanes : EventSet} (hlanes : ∀ ev ∈ e.laneEvents, ev ∈ lanes) :
    e.Among { e.join o with laneEvents := lanes } where
  events _ hev := (Flags.mem_union _ _ _).2 (.inl hev)
  lanes := hlanes
  counters _ hc := (Flags.mem_union _ _ _).2 (.inl hc)
  blocksReads hb := by simp [Entry.join, hb]
  vmemTypes := Flags.lacks_union_left (Flags.lacks_refl _) _
  halves := Flags.lacks_union_left (Flags.lacks_refl _) _

lemma among_join_right (e o : Entry) {lanes : EventSet} (hlanes : ∀ ev ∈ o.laneEvents, ev ∈ lanes) :
    o.Among { e.join o with laneEvents := lanes } where
  events _ hev := (Flags.mem_union _ _ _).2 (.inr hev)
  lanes := hlanes
  counters _ hc := (Flags.mem_union _ _ _).2 (.inr hc)
  blocksReads hb := by simp [Entry.join, hb]
  vmemTypes := Flags.lacks_union_self _ _
  halves := Flags.lacks_union_self _ _

end Entry

namespace Demand

variable {g : Generation} {x d o : Demand} {ev : Event}

lemma age_eq (hd : d.Tidy g) (ev : Event) : d.age g ev =
    { d with wait := .ofFn fun c => if d.events.Moved g ev c then g.oneMore c (d.wait.get c)
                                    else d.wait.get c } := by
  have hset : ∀ c, d.events.Moved g ev c → d.wait.isSet c = true := by
    intro c hm
    obtain ⟨c', hc', hset⟩ := hd.timed ev hm.mem.1
    rw [hm.mem.2] at hc'
    cases hc'
    exact hset
  rw [age]
  split
  · rename_i hun
    have hno : ∀ c, ¬d.events.Moved g ev c := by
      intro c h
      rcases hun with hun | hun
      · rw [h.1] at hun
        cases hun
      · have hsmem := h.mem.1
        rw [Event.mem_unordered.1 hun, ← EventSet.isUnordered_iff, h.1] at hsmem
        cases hsmem
    have hwait : d.wait = .ofFn fun c => if d.events.Moved g ev c then g.oneMore c (d.wait.get c)
        else d.wait.get c := Wait.ext_get fun c => by rw [Wait.get_ofFn, if_neg (hno c)]
    rw [← hwait]
  · rename_i hun
    congr
    funext c
    refine if_congr ⟨fun h => ⟨?_, h.1, h.2.2⟩, fun h => ⟨h.2.1, hset c h, h.2.2⟩⟩ rfl rfl
    simpa using fun h => hun (.inl h)

lemma Among.age (h : x.Among d) (hwait : d.wait ≤ x.wait) (hx : x.Tidy g) (hc : x.Counted g)
    (hd : d.Tidy g) (ev : Event) :
    (x.age g ev).Among (d.age g ev) ∧ (d.age g ev).wait ≤ (x.age g ev).wait := by
  rw [age_eq hx, age_eq hd]
  refine ⟨⟨h.events, h.scope⟩, Wait.oneMore_le_oneMore hwait hx.near (fun c hm => ?_)
    fun c hm => ?_⟩
  · obtain ⟨c', hc', hset⟩ := hx.timed ev hm.mem.1
    rw [hm.mem.2] at hc'
    cases hc'
    exact hset
  · refine (hm.mono h.events).imp id fun hno => ?_
    rw [Bool.eq_false_iff]
    intro hset
    obtain ⟨ev', hev', hcount⟩ := hc c hset
    exact hno ev' hev' hcount

lemma Among.extend (h : x.Among d) (hwait : d.wait ≤ x.wait) (g : Generation) (ev : Event) :
    (x.extend g ev).Among (d.extend g ev) ∧ (d.extend g ev).wait ≤ (x.extend g ev).wait := by
  refine ⟨⟨fun ev' hev' => ?_, h.scope⟩, Wait.both_le_both hwait (Wait.le_refl _)⟩
  exact (Flags.mem_union _ _ _).2 (((Flags.mem_union _ _ _).1 hev').imp (h.events ev') id)

end Demand

/-- A sound memory forgets no class when an event issues: a class that is not listed has nothing to
move. -/
lemma Barrier.demand_record_of_sound {g : Generation} {b : Barrier} (hb : b.Sound g)
    (ht : ∀ k, (b.demand k).Tidy g) (ev : Event) (storage : StorageSet) (k : Storage) :
    (b.record g ev storage).demand k =
      if k ∈ storage then (b.demand k).extend g ev else (b.demand k).age g ev := by
  rw [demand_record]
  split
  · rfl
  split
  · rfl
  · rename_i hno
    have hmoved : ∀ c, ¬(b.demand k).events.Moved g ev c := fun c h =>
      hno (hb.listed k ev h.mem.1).1
    have hwait : (b.demand k).wait = .ofFn fun c => if (b.demand k).events.Moved g ev c then
        g.oneMore c ((b.demand k).wait.get c) else (b.demand k).wait.get c :=
      Wait.ext_get fun c => by rw [Wait.get_ofFn, if_neg (hmoved c)]
    rw [Demand.age_eq (ht k), ← hwait]

namespace Context

variable {g : Generation} {s : Setting} {c c' d d' : Context} {i : Instruction}

lemma Below.issue (h : c.Below d) (hc : c.Tidy s.generation) (hd : d.Tidy s.generation) {ev : Event}
    {sync : Sync} {i? : Option Instruction} (hc' : c'.Tidy s.generation)
    (hcissue : c.issue s ev sync i? = .ok c') (hdissue : d.issue s ev sync i? = .ok d') :
    c'.Below d' := by
  have hi := issued_of_issue hcissue
  have hi' := issued_of_issue hdissue
  refine hc'.below (fun n hn => ?_) (fun r x hx => ?_) fun role k => ?_
  · rw [hi.nonzero, Flags.mem_union] at hn
    rw [hi'.nonzero, Flags.mem_union]
    exact hn.imp h.mem_nonzero id
  · rw [hi.entry] at hx
    rw [hi'.entry]
    split
    · rw [if_pos ‹_›] at hx
      exact h.entry hx
    · rw [if_neg ‹_›] at hx
      obtain ⟨x₀, hx₀, rfl⟩ := Option.map_eq_some_iff.1 hx
      obtain ⟨e, he, hamong, hwait⟩ := h.entry hx₀
      rw [he]
      exact ⟨_, rfl, hamong.age hwait (hc.entry r x₀ hx₀) (hc.sound.entry r x₀ hx₀) ev⟩
  · obtain ⟨hamong, hwait⟩ := h.demand role k
    rw [hi.barrier, hi'.barrier]
    rcases barrier_recordEvent s ev sync i? role with hsame | ⟨storage, hrecord⟩
    · rw [hsame, hsame]
      exact ⟨hamong, hwait⟩
    · rw [hrecord, hrecord, Barrier.demand_record_of_sound (hc.sound.barrier role) (hc.demand role),
        Barrier.demand_record_of_sound (hd.sound.barrier role) (hd.demand role)]
      split
      · exact hamong.extend hwait s.generation ev
      · exact hamong.age hwait (hc.demand role k) ((hc.sound.barrier role).counted k)
          (hd.demand role k) ev

section Track

variable {m o : RegMap}

/-- One more access for the same unit in both maps. -/
lemma exists_above_trackUnit (unit : Reg) (new : Entry)
    (h : ∀ (r : Reg) (x : Entry), m[r]? = some x →
      ∃ e : Entry, o[r]? = some e ∧ x.Among e ∧ e.wait ≤ x.wait) {r : Reg} {x : Entry}
    (hx : (trackUnit m unit new)[r]? = some x) :
    ∃ e : Entry, (trackUnit o unit new)[r]? = some e ∧ x.Among e ∧ e.wait ≤ x.wait := by
  rw [getElem?_trackUnit] at hx ⊢
  by_cases hr : unit = r
  · rw [if_pos hr] at hx ⊢
    refine ⟨_, rfl, ?_⟩
    cases hx
    cases hmr : m[r]? with
    | none =>
      cases o[r]? with
      | none => exact ⟨.refl _, Wait.le_refl _⟩
      | some old =>
        exact ⟨Entry.among_join_right old _ fun _ hev => (Flags.mem_union _ _ _).2 (.inr hev),
          Wait.both_le_right _ _⟩
    | some y =>
      obtain ⟨e, he, hamong, hwait⟩ := h r y hmr
      rw [he]
      refine ⟨Entry.Among.join (hamong.trans (Entry.among_join_left e _ ?_))
        (Entry.among_join_right e _ ?_) ?_, Wait.both_le_both hwait (Wait.le_refl _)⟩
      · exact fun _ hev => (Flags.mem_union _ _ _).2 (.inl hev)
      · exact fun _ hev => (Flags.mem_union _ _ _).2 (.inr hev)
      · exact fun ev hev => (Flags.mem_union _ _ _).2
          (((Flags.mem_union _ _ _).1 hev).imp (hamong.lanes ev) id)
  · rw [if_neg hr] at hx ⊢
    exact h r x hx

lemma exists_above_trackUnits (new : Nat → Entry) (units : List (Reg × Nat))
    (h : ∀ (r : Reg) (x : Entry), m[r]? = some x →
      ∃ e : Entry, o[r]? = some e ∧ x.Among e ∧ e.wait ≤ x.wait) (r : Reg) (x : Entry)
    (hx : (units.foldl (fun m u => trackUnit m u.1 (new u.2)) m)[r]? = some x) :
    ∃ e : Entry, (units.foldl (fun m u => trackUnit m u.1 (new u.2)) o)[r]? = some e
      ∧ x.Among e ∧ e.wait ≤ x.wait := by
  induction units generalizing m o with
  | nil => exact h r x hx
  | cons u rest ih => exact ih (fun r x hx => exists_above_trackUnit u.1 (new u.2) h hx) hx

end Track

lemma Below.track (h : c.Below d) (hc' : c'.Tidy g) {range : RegRange} {ev : Event}
    {blocksReads : Bool} {types : VmemTypeSet} {halves : BitVec 32}
    (hctrack : c.track g range ev blocksReads types halves = .ok c')
    (hdtrack : d.track g range ev blocksReads types halves = .ok d') : c'.Below d' := by
  obtain ⟨-, rfl⟩ := track_eq_ok.1 hctrack
  obtain ⟨-, rfl⟩ := track_eq_ok.1 hdtrack
  refine hc'.below (fun n hn => h.mem_nonzero hn) ?_ fun role k => ?_
  swap
  · have hdemand := h.demand role k
    cases role <;> exact hdemand
  exact exists_above_trackUnits (fun j => startedEntry g ev blocksReads types (HalfSet.ofWord halves j))
    _ fun r x hx => h.entry hx

/-- Issuing is monotone. -/
lemma Below.start (h : c.Below d) (hc : c.Tidy s.generation) (hd : d.Tidy s.generation)
    (hi : i.Steady s) (hcstart : c.start s i = .ok c') (hdstart : d.start s i = .ok d') :
    c'.Below d' := by
  refine (foldlM_related (fun c d => c.Tidy s.generation ∧ d.Tidy s.generation ∧ c.Below d)
    (fun effect he c c' d d' hrel hca hda => ?_) ⟨hc, hd, h⟩ hcstart hdstart).2.2
  obtain ⟨hc, hd, h⟩ := hrel
  have hc' := hc.apply hi he hca
  refine ⟨hc', hd.apply hi he hda, ?_⟩
  cases effect with
  | issue ev sync => exact h.issue hc hd hc' hca hda
  | track range ev blocksReads types halves => exact h.track hc' hca hda
  | flat => exact (hi.typed _ he).elim
  | fail fault => cases hca

end Context

/-! ### Deferring -/

namespace Demand

variable {g : Generation} {x o z : Demand}

lemma grows_of_empty (hx : x.Tidy g) (hc : x.Counted g) (hno : ∀ ev, ev ∉ x.events) (z : Demand) :
    z.grows x = false :=
  grows_iff_among.2 (among_of_events hx hc fun ev hev => absurd hev (hno ev))

lemma grows_join (hx : z.grows x = false) (ho : z.grows o = false) : z.grows (x.join o) = false := by
  rw [grows_eq_false_iff] at *
  obtain ⟨hwa, hev, hsc⟩ := hx
  obtain ⟨hwa', hev', hsc'⟩ := ho
  refine ⟨Wait.le_both hwa hwa', Flags.lacks_union hev hev', ?_⟩
  simp only [join, width_widest]
  omega

end Demand

namespace Context

variable {g : Generation} {s : Setting} {c c' d d' : Context} {i : Instruction} {sync : Sync}

/-- Deferring adds to the demands and leaves the rest alone. -/
lemma below_defer (c : Context) (s : Setting) (sync : Sync) (source target : BarrierRole) :
    c.Below (c.defer s sync source target) := by
  obtain ⟨hregs, hnonzero, hvm, hlgkm, -⟩ := defer_frame c s sync source target
  refine ⟨hnonzero ▸ Flags.lacks_refl _, fun h => hlgkm ▸ h, fun h => hvm ▸ h, fun r x hx => ?_,
    fun role k => defer_grows c s sync source target role k⟩
  exact ⟨x, hregs ▸ hx, Entry.grows_refl x, Flags.lacks_refl _⟩

lemma below_deferBefore (c : Context) (s : Setting) (i : Instruction) : c.Below (c.deferBefore s i) := by
  obtain ⟨hregs, hnonzero, hvm, hlgkm⟩ := deferBefore_frame c s i
  refine ⟨hnonzero ▸ Flags.lacks_refl _, fun h => hlgkm ▸ h, fun h => hvm ▸ h, fun r x hx => ?_,
    fun role k => deferBefore_grows c s i role k⟩
  exact ⟨x, hregs ▸ hx, Entry.grows_refl x, Flags.lacks_refl _⟩

lemma below_deferAfter (c : Context) (s : Setting) (i : Instruction) : c.Below (c.deferAfter s i) := by
  rw [deferAfter]
  split
  · exact below_defer c s i.sync _ _
  · exact .refl c

/-! ### Joining -/

section Absorbs

variable {o o' : Context} {edge : Edge}

lemma Absorbs.entry_join (h : d.Absorbs o edge) (hb : c.Below d) (ho : o'.Below o) {r : Reg}
    {x : Entry} (hx : (c.join o' edge).regs[r]? = some x) :
    ∃ e : Entry, d.regs[r]? = some e ∧ x.Among e ∧ e.wait ≤ x.wait := by
  obtain ⟨-, hx⟩ | ⟨y, z, hy, rfl, hz⟩ := regs_join_eq_some hx
  · exact hb.entry hx
  · obtain ⟨y₁, hy₁, hgrows₁, hlanes₁⟩ := ho.entries r y hy
    obtain ⟨e, he, hamong, hle⟩ :
        ∃ e : Entry, d.regs[r]? = some e ∧ z.Among e ∧ e.wait ≤ z.wait := by
      obtain hz | ⟨hcarries, rfl⟩ := hz
      · exact hb.entry hz
      · obtain ⟨e, he, -⟩ := h.entries hcarries r y₁ hy₁
        exact ⟨e, he, e.vacant_among⟩
    refine ⟨e, he, hamong.joinAlong hle (fun hcarries => ?_) fun hlogical => ?_⟩
    · obtain ⟨e', he', hgrows⟩ := h.entries hcarries r y₁ hy₁
      rw [he] at he'
      cases he'
      exact Entry.grows_trans hgrows hgrows₁
    · exact Entry.lacks_trans (h.lanes hlogical r y₁ e hy₁ he) hlanes₁

/-- A memory that is not live has no events, so that nothing of a smaller one is missing. -/
lemma Absorbs.demand_join (h : d.Absorbs o edge) (hb : c.Below d) (ho : o'.Below o)
    (hotidy : o.Tidy g) (hotidy' : o'.Tidy g) (role : BarrierRole) (k : Storage) :
    ((d.barrier role).demand k).grows (((c.join o' edge).barrier role).demand k) = false := by
  rw [barrier_join]
  split
  · rename_i hlogical
    rw [Barrier.demand_join]
    split
    · refine Demand.grows_join (hb.demands role k) ?_
      by_cases hlive : (o.barrier role).live = true
      · exact Demand.grows_trans (h.demands hlogical role hlive k) (ho.demands role k)
      · refine Demand.grows_of_empty (hotidy'.demand role k)
          ((hotidy'.sound.barrier role).counted k) (fun ev hev => hlive ?_) _
        exact ((hotidy.sound.barrier role).listed k ev ((ho.demand role k).1.events ev hev)).2
    · exact hb.demands role k
  · exact hb.demands role k

/-- A context that absorbs what comes in along an edge is above the join with anything smaller. -/
lemma Absorbs.join_below (h : d.Absorbs o edge) (hb : c.Below d) (ho : o'.Below o) (hc : c.Tidy g)
    (hotidy : o.Tidy g) (hotidy' : o'.Tidy g) : (c.join o' edge).Below d := by
  refine (hc.join hotidy' edge).below (fun n hn => ?_) (fun r x hx => h.entry_join hb ho hx)
    fun role k => Demand.grows_iff_among.1 (h.demand_join hb ho hotidy hotidy' role k)
  rw [nonzero_join, Flags.mem_union] at hn
  exact hn.elim hb.mem_nonzero fun hn =>
    Flags.mem_of_lacks_eq_false h.nonzero (ho.mem_nonzero hn)

end Absorbs

end Context

end GpuWaits
