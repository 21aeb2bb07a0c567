/-
# Flags, events and counters as sets

The analysis works on words of bits.  Its proofs want to say "the event is counted by this counter"
and "the set has a member".  This file turns the bit operations into statements about membership.

For events and counters every bit of the word has an owner, so that a set is determined by its
members.  For storage classes this is not so, and only the sets in `Flags.IsNamed` are.

The main facts about the hardware are

* `Generation.mem_eventsOn`: a counter counts an event exactly if it is the counter of the event, so
  that no event is counted twice;
* `Generation.mem_countersOf`: the counters of a set of events are the counters of its members;
* `Generation.oneMore_le_oneMore`: one more operation behind two others keeps their order.
-/
import GpuWaits.Hardware
import Mathlib.Tactic.Common

namespace GpuWaits

namespace Flags

variable {α : Type} {w : Nat}

lemma ext_bit {s t : Flags α w} (h : ∀ i, s.bits.getLsbD i = t.bits.getLsbD i) : s = t := by
  cases s
  cases t
  congr
  exact BitVec.eq_of_getLsbD_eq fun i _ => h i

lemma isEmpty_iff_bit {s : Flags α w} :
    s.isEmpty = true ↔ ∀ i, s.bits.getLsbD i = false := by
  constructor
  · intro h i
    have hs : s.bits = 0#w := by simpa [isEmpty] using h
    simp [hs]
  · intro h
    have hs : s.bits = 0#w := BitVec.eq_of_getLsbD_eq fun i _ => by simp [h i]
    simp [isEmpty, hs]

/-- Nothing is missing in `s` if it has every bit of `t`. -/
lemma lacks_eq_false_iff {s t : Flags α w} :
    s.lacks t = false ↔ ∀ i, t.bits.getLsbD i = true → s.bits.getLsbD i = true := by
  have hdiff : ∀ i, (t \ s).bits.getLsbD i = (t.bits.getLsbD i && !s.bits.getLsbD i) := by
    intro i
    simp only [SDiff.sdiff, BitVec.getLsbD_and, BitVec.getLsbD_not]
    cases ht : t.bits.getLsbD i with
    | false => simp
    | true => simp [BitVec.lt_of_getLsbD ht]
  simp only [lacks, Bool.not_eq_false', isEmpty_iff_bit, hdiff]
  refine forall_congr' fun i => ?_
  cases t.bits.getLsbD i <;> cases s.bits.getLsbD i <;> simp

lemma lacks_refl (s : Flags α w) : s.lacks s = false := lacks_eq_false_iff.2 fun _ h => h

lemma lacks_union_left {s t : Flags α w} (h : s.lacks t = false) (u : Flags α w) :
    (s ∪ u).lacks t = false := by
  rw [lacks_eq_false_iff] at h ⊢
  intro i hi
  simp [Union.union, h i hi]

lemma lacks_union_self (s t : Flags α w) : (s ∪ t).lacks t = false := by
  rw [lacks_eq_false_iff]
  intro i hi
  simp [Union.union, hi]

lemma lacks_union {s t u : Flags α w} (ht : s.lacks t = false) (hu : s.lacks u = false) :
    s.lacks (t ∪ u) = false := by
  rw [lacks_eq_false_iff] at ht hu ⊢
  intro i hi
  simp only [Union.union, BitVec.getLsbD_or, Bool.or_eq_true] at hi
  exact hi.elim (ht i) (hu i)

lemma empty_union (s : Flags α w) : ∅ ∪ s = s := by
  apply ext_bit
  intro i
  simp [Union.union, EmptyCollection.emptyCollection]

lemma lacks_empty (s : Flags α w) : s.lacks ∅ = false := by
  rw [lacks_eq_false_iff]
  intro i hi
  simp [EmptyCollection.emptyCollection] at hi

/-- Joining what is there already changes nothing. -/
lemma union_eq_self {s t : Flags α w} (h : s.lacks t = false) : s ∪ t = s := by
  rw [lacks_eq_false_iff] at h
  apply ext_bit
  intro i
  simp only [Union.union, BitVec.getLsbD_or]
  cases ht : t.bits.getLsbD i with
  | false => simp
  | true => simp [h i ht]

/-- A set that is not empty stays so when it grows. -/
lemma isEmpty_eq_false_of_lacks {s t : Flags α w} (h : s.lacks t = false) (ht : t.isEmpty = false) :
    s.isEmpty = false := by
  rw [Bool.eq_false_iff] at ht ⊢
  intro hs
  rw [isEmpty_iff_bit] at hs
  refine ht (isEmpty_iff_bit.2 fun i => ?_)
  rw [Bool.eq_false_iff]
  intro hi
  have hbit := lacks_eq_false_iff.1 h i hi
  rw [hs] at hbit
  cases hbit

variable [Flag α]

/-- A set with at most one member is empty or has just this one. -/
lemma eq_singleton_of_lacks {s : Flags α w} {a : α} (h : ({a} : Flags α w).lacks s = false)
    (hs : s.isEmpty = false) : s = {a} := by
  rw [lacks_eq_false_iff] at h
  have hone : ∀ i, ({a} : Flags α w).bits.getLsbD i = true → i = Flag.bit a := by
    intro i hi
    simp only [Singleton.singleton, BitVec.getLsbD_twoPow, Bool.and_eq_true, decide_eq_true_eq] at hi
    exact hi.2.symm
  obtain ⟨i, hi⟩ : ∃ i, s.bits.getLsbD i = true := by
    by_contra hno
    rw [isEmpty_iff_bit.2 fun i => by simpa using not_exists.1 hno i] at hs
    cases hs
  obtain rfl := hone i (h i hi)
  apply ext_bit
  intro j
  rw [Bool.eq_iff_iff]
  refine ⟨h j, fun hj => ?_⟩
  rw [hone j hj]
  exact hi

lemma mem_of_lacks_eq_false {s t : Flags α w} (h : s.lacks t = false) {a : α} (ha : a ∈ t) :
    a ∈ s := lacks_eq_false_iff.1 h _ ha

lemma mem_singleton_iff {a b : α} :
    a ∈ ({b} : Flags α w) ↔ Flag.bit b < w ∧ Flag.bit b = Flag.bit a := by
  simp [mem_def, Singleton.singleton, BitVec.getLsbD_twoPow]

lemma mem_foldl_union {l : List α} {s : Flags α w} {a : α} :
    a ∈ l.foldl (fun s b => s ∪ {b}) s ↔ a ∈ s ∨ ∃ b ∈ l, a ∈ ({b} : Flags α w) := by
  induction l generalizing s with
  | nil => simp
  | cons b l ih =>
    rw [List.foldl_cons, ih, mem_union]
    simp only [List.mem_cons, exists_eq_or_imp]
    tauto

lemma mem_ofList {l : List α} {a : α} :
    a ∈ (ofList l : Flags α w) ↔ ∃ b ∈ l, a ∈ ({b} : Flags α w) := by
  rw [ofList, mem_foldl_union]
  simp

lemma isEmpty_eq_false_of_mem {s : Flags α w} {a : α} (h : a ∈ s) : s.isEmpty = false := by
  rw [Bool.eq_false_iff]
  intro he
  rw [isEmpty_iff_bit] at he
  rw [mem_def, he] at h
  cases h

lemma meets_of_mem {s t : Flags α w} {a : α} (hs : a ∈ s) (ht : a ∈ t) : s.meets t = true := by
  have := isEmpty_eq_false_of_mem ((mem_inter a s t).2 ⟨hs, ht⟩)
  simp [meets, this]

section Named

/-! ### Words in which every bit has an owner -/

variable (named : ∀ i < w, ∃ a : α, Flag.bit a = i)

include named

lemma ext_of_named {s t : Flags α w} (h : ∀ a : α, a ∈ s ↔ a ∈ t) : s = t := by
  apply ext_bit
  intro i
  by_cases hi : i < w
  · obtain ⟨a, rfl⟩ := named i hi
    exact Bool.eq_iff_iff.2 (h a)
  · rw [BitVec.getLsbD_of_ge _ _ (by omega), BitVec.getLsbD_of_ge _ _ (by omega)]

lemma isEmpty_iff_of_named {s : Flags α w} : s.isEmpty = true ↔ ∀ a : α, a ∉ s := by
  rw [isEmpty_iff_bit]
  constructor
  · intro h a ha
    rw [mem_def, h] at ha
    cases ha
  · intro h i
    by_cases hi : i < w
    · obtain ⟨a, rfl⟩ := named i hi
      simpa [mem_def] using h a
    · exact BitVec.getLsbD_of_ge _ _ (by omega)

lemma lacks_iff_of_named {s t : Flags α w} : s.lacks t = false ↔ ∀ a ∈ t, a ∈ s := by
  rw [lacks_eq_false_iff]
  constructor
  · exact fun h a ha => h _ ha
  · intro h i hi
    obtain ⟨a, rfl⟩ := named i (BitVec.lt_of_getLsbD hi)
    exact h a hi

end Named

/-! ### Sets of which every bit has an owner -/

/-- Every bit of the set belongs to a member. -/
def IsNamed (s : Flags α w) : Prop := ∀ i, s.bits.getLsbD i = true → ∃ a : α, Flag.bit a = i

lemma isNamed_empty : (∅ : Flags α w).IsNamed := by
  intro i hi
  simp [EmptyCollection.emptyCollection] at hi

lemma isNamed_singleton (a : α) : ({a} : Flags α w).IsNamed := by
  intro i hi
  simp only [Singleton.singleton, BitVec.getLsbD_twoPow, Bool.and_eq_true, decide_eq_true_eq] at hi
  exact ⟨a, hi.2⟩

lemma IsNamed.union {s t : Flags α w} (hs : s.IsNamed) (ht : t.IsNamed) : (s ∪ t).IsNamed := by
  intro i hi
  simp only [Union.union, BitVec.getLsbD_or, Bool.or_eq_true] at hi
  exact hi.elim (hs i) (ht i)

/-- Such a set is determined by its members. -/
lemma IsNamed.ext {s t : Flags α w} (hs : s.IsNamed) (ht : t.IsNamed) (h : ∀ a : α, a ∈ s ↔ a ∈ t) :
    s = t := by
  apply ext_bit
  intro i
  rw [Bool.eq_iff_iff]
  constructor
  · intro hi
    obtain ⟨a, rfl⟩ := hs i hi
    exact (h a).1 hi
  · intro hi
    obtain ⟨a, rfl⟩ := ht i hi
    exact (h a).2 hi

lemma isNamed_ofList (l : List α) : (ofList l : Flags α w).IsNamed := by
  have hfold : ∀ s : Flags α w, s.IsNamed → (l.foldl (fun s a => s ∪ {a}) s).IsNamed := by
    induction l with
    | nil => exact fun s hs => hs
    | cons a l ih => exact fun s hs => ih _ (hs.union (isNamed_singleton a))
  exact hfold ∅ isNamed_empty

end Flags

/-! ### Events -/

namespace EventSet

lemma named (i : Nat) (h : i < 17) : ∃ e : Event, Flag.bit e = i := by
  have hbit : ∀ j : Fin Event.all.length, Flag.bit (Event.all.get j) = j.1 := by decide
  exact ⟨Event.all.get ⟨i, h⟩, hbit ⟨i, h⟩⟩

@[simp] lemma mem_singleton {d e : Event} : e ∈ ({d} : EventSet) ↔ e = d := by
  rw [Flags.mem_singleton_iff]
  constructor
  · rintro ⟨-, h⟩
    exact (Event.bit_injective h).symm
  · rintro rfl
    exact ⟨by cases e <;> decide, rfl⟩

lemma ext {s t : EventSet} (h : ∀ e, e ∈ s ↔ e ∈ t) : s = t := Flags.ext_of_named named h

lemma lacks_iff {s t : EventSet} : s.lacks t = false ↔ ∀ e ∈ t, e ∈ s :=
  Flags.lacks_iff_of_named named

lemma isEmpty_iff {s : EventSet} : s.isEmpty = true ↔ ∀ e, e ∉ s :=
  Flags.isEmpty_iff_of_named named

lemma isEmpty_eq_false_iff {s : EventSet} : s.isEmpty = false ↔ ∃ e, e ∈ s := by
  rw [← Bool.not_eq_true, isEmpty_iff]
  simp only [not_forall, not_not]

lemma mem_ofList {l : List Event} {e : Event} : e ∈ (Flags.ofList l : EventSet) ↔ e ∈ l := by
  rw [Flags.mem_ofList]
  simp

/-- Two sets of events meet if they share an event. -/
lemma meets_iff {s t : EventSet} : s.meets t = true ↔ ∃ e, e ∈ s ∧ e ∈ t := by
  rw [Flags.meets, Bool.not_eq_true', isEmpty_eq_false_iff]
  simp only [Flags.mem_inter]

lemma isUnordered_iff {s : EventSet} : s.isUnordered = true ↔ .smem ∈ s := by
  rw [isUnordered, meets_iff]
  simp [Event.unordered]

end EventSet

@[simp] lemma Event.mem_unordered {e : Event} : e ∈ Event.unordered ↔ e = .smem :=
  EventSet.mem_singleton

/-! ### Counters -/

namespace CounterSet

lemma named (i : Nat) (h : i < 7) : ∃ c : Counter, Flag.bit c = i := by
  have hbit : ∀ j : Fin Counter.all.length, Flag.bit (Counter.all.get j) = j.1 := by decide
  exact ⟨Counter.all.get ⟨i, h⟩, hbit ⟨i, h⟩⟩

@[simp] lemma mem_singleton {c d : Counter} : c ∈ ({d} : CounterSet) ↔ c = d := by
  rw [Flags.mem_singleton_iff]
  constructor
  · rintro ⟨-, h⟩
    revert h
    cases c <;> cases d <;> decide
  · rintro rfl
    exact ⟨by cases c <;> decide, rfl⟩

lemma ext {s t : CounterSet} (h : ∀ c, c ∈ s ↔ c ∈ t) : s = t := Flags.ext_of_named named h

lemma lacks_iff {s t : CounterSet} : s.lacks t = false ↔ ∀ c ∈ t, c ∈ s :=
  Flags.lacks_iff_of_named named

lemma isEmpty_eq_false_iff {s : CounterSet} : s.isEmpty = false ↔ ∃ c, c ∈ s := by
  rw [← Bool.not_eq_true, Flags.isEmpty_iff_of_named named]
  simp only [not_forall, not_not]

lemma mem_ofList {l : List Counter} {c : Counter} :
    c ∈ (Flags.ofList l : CounterSet) ↔ c ∈ l := by
  rw [Flags.mem_ofList]
  simp

end CounterSet

/-! ### Which counter counts an event -/

namespace Generation

/-- The counter of an event, if the generation has one. -/
def counter? (g : Generation) : Event → Option Counter
  | .smem | .sendmsg | .sendmsgRtn => some (if .gfx12 ≤ g then .km else .lgkm)
  | .lds | .gds => some .lgkm
  | .vmem => some .vm
  | .vmemStore => some .vs
  | .vmemSample => if .gfx12 ≤ g then some .sample else none
  | .vmemBvh => if .gfx12 ≤ g then some .bvh else none
  | .expPos | .expParam | .expMrtNull | .expPrim | .expDualSrcBlend | .gdsGprLock | .vmemGprLock
  | .ldsdir => some .exp

/-- A counter counts the events whose counter it is, and no others. -/
@[simp] lemma mem_eventsOn {g : Generation} {e : Event} {c : Counter} :
    e ∈ g.eventsOn c ↔ g.counter? e = some c := by
  by_cases h : .gfx12 ≤ g <;> cases c <;>
    simp only [eventsOn, h, if_true, if_false, EventSet.exports, Flags.mem_union,
      EventSet.mem_ofList, EventSet.mem_singleton] <;>
    cases e <;> simp [counter?, h]

@[simp] lemma mem_countersOf {g : Generation} {s : EventSet} {c : Counter} :
    c ∈ g.countersOf s ↔ ∃ e ∈ s, g.counter? e = some c := by
  simp [countersOf, CounterSet.mem_ofList, EventSet.meets_iff, Counter.mem_all]

lemma mem_countersOf_singleton {g : Generation} {e : Event} {c : Counter} :
    c ∈ g.countersOf {e} ↔ g.counter? e = some c := by simp

lemma counterOf_eq_ok {g : Generation} {e : Event} {c : Counter} (h : g.counter? e = some c) :
    g.counterOf e = .ok c := by
  have hl : (g.countersOf {e}).toList = [c] := by
    have hfun : ∀ d, decide (d ∈ g.countersOf {e}) = (c == d) := by
      intro d
      rw [Bool.eq_iff_iff, decide_eq_true_eq, mem_countersOf_singleton, h]
      simp
    simp only [Flags.toList, hfun]
    cases c <;> decide
  simp [counterOf, hl]

lemma counter?_of_counterOf {g : Generation} {e : Event} {c : Counter}
    (h : g.counterOf e = .ok c) : g.counter? e = some c := by
  cases he : g.counter? e with
  | some d =>
    rw [counterOf_eq_ok he] at h
    cases h
    rfl
  | none =>
    have hl : (g.countersOf {e}).toList = [] := by
      simp only [Flags.toList, List.filter_eq_nil_iff, decide_eq_true_eq]
      intro d _ hd
      rw [mem_countersOf_singleton, he] at hd
      cases hd
    simp [counterOf, hl] at h

/-! ### Counting behind an operation -/

lemma horizon_toNat_le (g : Generation) (c : Counter) : (g.horizon.get c).toNat ≤ 62 := by
  cases g <;> cases c <;> decide

lemma oneMore_toNat (g : Generation) (c : Counter) (n : UInt16) :
    (g.oneMore c n).toNat =
      if n.toNat < (g.horizon.get c).toNat then n.toNat + 1 else (g.horizon.get c).toNat := by
  have hh := g.horizon_toNat_le c
  simp only [oneMore, UInt16.lt_iff_toNat_lt]
  split
  · rw [UInt16.toNat_add, UInt16.toNat_one]
    omega
  · rfl

lemma oneMore_le_oneMore {g : Generation} {c : Counter} {m n : UInt16} (h : m ≤ n) :
    g.oneMore c m ≤ g.oneMore c n := by
  rw [UInt16.le_iff_toNat_le] at h ⊢
  rw [oneMore_toNat, oneMore_toNat]
  split <;> split <;> omega

/-- Within the horizon an operation only ever falls behind. -/
lemma le_oneMore {g : Generation} {c : Counter} {n : UInt16} (h : n ≤ g.horizon.get c) :
    n ≤ g.oneMore c n := by
  rw [UInt16.le_iff_toNat_le] at h ⊢
  rw [oneMore_toNat]
  split <;> omega

lemma oneMore_le_horizon (g : Generation) (c : Counter) (n : UInt16) :
    g.oneMore c n ≤ g.horizon.get c := by
  rw [UInt16.le_iff_toNat_le, oneMore_toNat]
  split <;> omega

lemma oneMore_ne_unset (g : Generation) (c : Counter) (n : UInt16) :
    g.oneMore c n ≠ Wait.unset := by
  intro h
  have hn := UInt16.le_iff_toNat_le.1 (g.oneMore_le_horizon c n)
  have hh := g.horizon_toNat_le c
  have hu : Wait.unset.toNat = 65535 := rfl
  rw [h] at hn
  omega

end Generation

end GpuWaits
