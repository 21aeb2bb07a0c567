/-
# What the checker knows, access by access

The states of the checker are maps, and its operations go over whole maps.  Proofs look at one access at
a time.  This file gives every operation as an equation for the access with a given key: after a wait,
after an event, after a step over an instruction (`Checker.getElem?_step`), and where states meet
(`Pending.getElem?_meet`).
-/
import GpuWaits.Proofs.Effects

namespace GpuWaits

/-- The wait completes the access. -/
def Wait.Completes (w : Wait) (a : InFlight) : Prop :=
  w.isSet a.counter = true ∧ w.get a.counter ≤ a.younger

instance (w : Wait) (a : InFlight) : Decidable (w.Completes a) :=
  inferInstanceAs (Decidable (_ ∧ _))

namespace Wait

lemma Completes.mono {v w : Wait} {a : InFlight} (hle : w ≤ v) (h : v.Completes a) :
    w.Completes a :=
  ⟨isSet_of_le hle h.1, UInt16.le_trans (hle _) h.2⟩

lemma not_completes_none (a : InFlight) : ¬none.Completes a := fun h => by
  simp [Completes, isSet] at h

/-- A wait for two demands completes what one of them completes. -/
lemma completes_both {v w : Wait} {a : InFlight} :
    (v.both w).Completes a ↔ v.Completes a ∨ w.Completes a := by
  constructor
  · rintro ⟨hset, hle⟩
    rw [get_both] at hle
    have hn : min (v.get a.counter) (w.get a.counter) ≠ unset := by
      rw [← get_both]
      exact isSet_iff.1 hset
    by_cases hvw : v.get a.counter ≤ w.get a.counter
    · have hmin : min (v.get a.counter) (w.get a.counter) = v.get a.counter := if_pos hvw
      rw [hmin] at hle hn
      exact .inl ⟨isSet_iff.2 hn, hle⟩
    · have hmin : min (v.get a.counter) (w.get a.counter) = w.get a.counter := if_neg hvw
      rw [hmin] at hle hn
      exact .inr ⟨isSet_iff.2 hn, hle⟩
  · rintro (h | h)
    · exact h.mono (both_le_left v w)
    · exact h.mono (both_le_right v w)

end Wait

/-! ### Accesses -/

namespace InFlight

/-- The access once an event has issued. -/
def issue (a : InFlight) (g : Generation) (k : AccessKey) (ordered : Event → Bool) (ev : Event) :
    InFlight :=
  if ordered ev = true ∧ k.event = ev ∧ a.ordered = true then
    { a with younger := g.oneMore a.counter a.younger }
  else a

/-- The access once some events have issued. -/
def issues (a : InFlight) (g : Generation) (k : AccessKey) (ordered : Event → Bool)
    (evs : List Event) : InFlight :=
  evs.foldl (fun a ev => a.issue g k ordered ev) a

variable {a : InFlight} {g : Generation} {k : AccessKey} {ordered : Event → Bool}

lemma issue_cases (a : InFlight) (g : Generation) (k : AccessKey) (ordered : Event → Bool)
    (ev : Event) : a.issue g k ordered ev = a
      ∨ a.ordered = true ∧ a.issue g k ordered ev
        = { a with younger := g.oneMore a.counter a.younger } := by
  rw [issue]
  split
  · exact .inr ⟨‹_ ∧ _ ∧ _›.2.2, rfl⟩
  · exact .inl rfl

/-- Events move an access further away, and change nothing else. -/
structure Aged (a : InFlight) (g : Generation) (a' : InFlight) : Prop where
  write : a'.write = a.write
  counter : a'.counter = a.counter
  ordered : a'.ordered = a.ordered
  lanes : a'.lanes = a.lanes
  bounded : a.younger ≤ g.horizon.get a.counter → a'.younger ≤ g.horizon.get a.counter
  younger : a.younger ≤ g.horizon.get a.counter → a.younger ≤ a'.younger

lemma aged_issue (a : InFlight) (g : Generation) (k : AccessKey) (ordered : Event → Bool)
    (ev : Event) : a.Aged g (a.issue g k ordered ev) := by
  rcases issue_cases a g k ordered ev with h | ⟨-, h⟩ <;> rw [h]
  · exact ⟨rfl, rfl, rfl, rfl, id, fun _ => UInt16.le_refl _⟩
  · exact ⟨rfl, rfl, rfl, rfl, fun _ => g.oneMore_le_horizon _ _, fun h => Generation.le_oneMore h⟩

lemma Aged.trans {a a' a'' : InFlight} (h : a.Aged g a') (h' : a'.Aged g a'') : a.Aged g a'' := by
  obtain ⟨h₁, h₂, h₃, h₄, h₅, h₆⟩ := h
  obtain ⟨k₁, k₂, k₃, k₄, k₅, k₆⟩ := h'
  rw [h₂] at k₅ k₆
  exact ⟨k₁.trans h₁, k₂.trans h₂, k₃.trans h₃, k₄.trans h₄, fun h => k₅ (h₅ h),
    fun h => UInt16.le_trans (h₆ h) (k₆ (h₅ h))⟩

lemma aged_issues (a : InFlight) (g : Generation) (k : AccessKey) (ordered : Event → Bool)
    (evs : List Event) : a.Aged g (a.issues g k ordered evs) := by
  induction evs generalizing a with
  | nil => exact ⟨rfl, rfl, rfl, rfl, id, fun _ => UInt16.le_refl _⟩
  | cons ev evs ih => exact (aged_issue a g k ordered ev).trans (ih _)

/-- Events of other kinds leave an access where it is. -/
lemma issues_of_notMem {evs : List Event} (h : k.event ∉ evs) : a.issues g k ordered evs = a := by
  induction evs with
  | nil => rfl
  | cons ev evs ih =>
    rw [List.mem_cons, not_or] at h
    have hone : a.issue g k ordered ev = a := if_neg fun hc => h.1 hc.2.1
    rw [issues, List.foldl_cons, hone]
    exact ih h.2

end InFlight

/-! ### States -/

namespace Pending

variable {p o : Pending} {g : Generation} {k : AccessKey} {a : InFlight}

lemma getElem?_wait {w : Wait} :
    (p.wait w)[k]? = some a ↔ p[k]? = some a ∧ ¬w.Completes a := by
  simp only [wait, Std.ExtTreeMap.getElem?_filter', Option.filter_eq_some_iff, Wait.Completes,
    Bool.not_eq_true', Bool.and_eq_false_iff, decide_eq_false_iff_not]
  refine and_congr_right fun _ => ?_
  rw [not_and_or, Bool.not_eq_true]

@[simp] lemma wait_none (p : Pending) : p.wait .none = p := by
  apply Std.ExtTreeMap.ext_getElem?
  intro k
  apply Option.ext
  intro a
  rw [getElem?_wait]
  exact and_iff_left (Wait.not_completes_none a)

/-- Carrying a wait out leaves the rest of it to be carried out. -/
lemma wait_wait (p : Pending) (v w : Wait) : (p.wait w).wait v = p.wait (w.both v) := by
  apply Std.ExtTreeMap.ext_getElem?
  intro k
  apply Option.ext
  intro a
  rw [getElem?_wait, getElem?_wait, getElem?_wait, Wait.completes_both, not_or, and_assoc]

lemma getElem?_wait_mono {v w : Wait} (hle : w ≤ v) (h : (p.wait w)[k]? = some a) :
    (p.wait v)[k]? = some a := by
  rw [getElem?_wait] at h ⊢
  exact ⟨h.1, fun hc => h.2 (hc.mono hle)⟩

lemma getElem?_issue (p : Pending) (g : Generation) (ev : Event) (ordered : Event → Bool)
    (k : AccessKey) :
    (p.issue g ev (ordered ev))[k]? = p[k]?.map (·.issue g k ordered ev) := by
  rw [issue]
  split
  · rename_i hord
    rw [Std.ExtTreeMap.getElem?_map]
    cases p[k]? <;> simp [InFlight.issue, hord]
  · rename_i hord
    cases p[k]? <;> simp [InFlight.issue, hord]

lemma getElem?_issues (p : Pending) (g : Generation) (evs : List Event) (ordered : Event → Bool)
    (k : AccessKey) :
    (evs.foldl (fun p ev => p.issue g ev (ordered ev)) p)[k]?
      = p[k]?.map (·.issues g k ordered evs) := by
  induction evs generalizing p with
  | nil => simp [InFlight.issues]
  | cons ev evs ih =>
    rw [List.foldl_cons, ih, getElem?_issue, Option.map_map]
    rfl

/-- No access is further away than the counters can tell. -/
def Bounded (g : Generation) (p : Pending) : Prop :=
  ∀ (k : AccessKey) (a : InFlight), p[k]? = some a → a.younger ≤ g.horizon.get a.counter

lemma Bounded.wait (h : p.Bounded g) (w : Wait) : (p.wait w).Bounded g :=
  fun k a hk => h k a (getElem?_wait.1 hk).1

/-- Two accesses with one key, where states meet. -/
def meetOne (lanes : Bool) (a o : InFlight) : InFlight :=
  { a with younger := min a.younger o.younger, lanes := a.lanes || lanes && o.lanes }

lemma getElem?_meet (p o : Pending) (lanes : Bool) (accepts : AccessKey → Bool) (k : AccessKey) :
    (p.meet o lanes accepts)[k]? =
      match p[k]?, (if accepts k then o[k]? else none) with
      | some a, some b => some (meetOne lanes a b)
      | some a, none => some a
      | none, some b => some { b with lanes := lanes && b.lanes }
      | none, none => none := by
  simp only [meet, Std.ExtTreeMap.getElem?_union, Std.ExtTreeMap.getElem?_map,
    Std.ExtTreeMap.getElem?_filter']
  cases hp : p[k]? <;> cases ho : o[k]? <;> cases ha : accepts k <;>
    simp [meetOne, Option.filter]

lemma getElem?_takeLanes (p o : Pending) (k : AccessKey) :
    (p.takeLanes o)[k]? = p[k]?.map fun a => match o[k]? with
      | some b => { a with lanes := a.lanes || b.lanes }
      | none => a := by
  exact Std.ExtTreeMap.getElem?_map

end Pending

/-! ### Steps -/

namespace Instruction

/-- The events that the instruction raises. -/
def raised (i : Instruction) (s : Setting) : List Event :=
  match i.started s with
  | .ok st => st.events
  | .error _ => []

/-- The accesses that the instruction leaves in flight, unit by unit. -/
def leaves (i : Instruction) (s : Setting) : List (Reg × StartedAccess) :=
  match i.started s with
  | .ok st => st.accesses.flatMap fun a => a.range.units.map fun unit => (unit, a)
  | .error _ => []

/-- The events of the instruction that complete in order. -/
def inOrder (i : Instruction) (g : Generation) (ev : Event) : Bool :=
  !i.isUnorderedFlat g && !decide (ev ∈ Event.unordered)

/-- An interpolation that takes over a wait waits for more. -/
lemma TakesOver.ownWait_le {i kept : Instruction} (h : i.TakesOver kept) :
    Checker.ownWait kept ≤ Checker.ownWait i := by
  rcases h with rfl | ⟨n, m, hn, hle, rfl⟩
  · exact Wait.le_refl _
  · intro c
    simp only [Checker.ownWait, hn, Wait.single, Wait.get_set]
    split
    · rw [UInt16.le_iff_toNat_le, UInt8.toNat_toUInt16, UInt8.toNat_toUInt16]
      exact UInt8.le_iff_toNat_le.1 hle
    · exact UInt16.le_refl _

end Instruction

namespace Checker

variable {s : Setting} {place : Place} {i : Instruction} {p p' : Pending}

/-- An access that has just started. -/
def newAccess (g : Generation) (i : Instruction) (a : StartedAccess) : InFlight where
  write := a.write
  counter := (g.counter? a.event).getD .exp
  younger := 0
  ordered := i.inOrder g a.event
  lanes := true

/-- The access with the key `k` among some that have just started; the last one counts. -/
def newAmong (g : Generation) (place : Place) (i : Instruction) (k : AccessKey) :
    List (Reg × StartedAccess) → Option InFlight
  | [] => none
  | (unit, a) :: rest =>
    (newAmong g place i k rest).or
      (if k = ⟨place, unit, a.event⟩ then some (newAccess g i a) else none)

/-- The access with the key `k` that the instruction starts. -/
def fresh (s : Setting) (place : Place) (i : Instruction) (k : AccessKey) : Option InFlight :=
  newAmong s.generation place i k (i.leaves s)

lemma newAmong_eq_some {g : Generation} {k : AccessKey} {a : InFlight}
    {l : List (Reg × StartedAccess)} (h : newAmong g place i k l = some a) :
    ∃ x ∈ l, k = ⟨place, x.1, x.2.event⟩ ∧ a = newAccess g i x.2 := by
  induction l with
  | nil => cases h
  | cons x rest ih =>
    obtain ⟨unit, acc⟩ := x
    rw [newAmong] at h
    cases hr : newAmong g place i k rest with
    | some b =>
      rw [hr, Option.some_or] at h
      obtain ⟨x, hx, hk, rfl⟩ := ih (hr.trans h)
      exact ⟨x, List.mem_cons_of_mem _ hx, hk, rfl⟩
    | none =>
      rw [hr, Option.none_or] at h
      split at h
      · cases h
        exact ⟨(unit, acc), by simp, ‹_›, rfl⟩
      · cases h

lemma newAmong_ne_none {g : Generation} {l : List (Reg × StartedAccess)}
    {x : Reg × StartedAccess} (hx : x ∈ l) :
    newAmong g place i ⟨place, x.1, x.2.event⟩ l ≠ none := by
  induction l with
  | nil => cases hx
  | cons y rest ih =>
    rw [newAmong]
    rcases List.mem_cons.1 hx with rfl | hx
    · cases newAmong g place i ⟨place, x.1, x.2.event⟩ rest <;> simp
    · cases h : newAmong g place i ⟨place, x.1, x.2.event⟩ rest with
      | none => exact absurd h (ih hx)
      | some _ => simp

lemma foldlM_start {g : Generation} {l : List (Reg × StartedAccess)}
    (h : l.foldlM (fun p (unit, a) => p.start g ⟨place, unit, a.event⟩ a.write
      (i.inOrder g a.event)) p = .ok p') (k : AccessKey) :
    p'[k]? = (newAmong g place i k l).or p[k]? := by
  induction l generalizing p with
  | nil =>
    rw [List.foldlM_nil, pure_eq_ok] at h
    rw [h]
    rfl
  | cons x rest ih =>
    obtain ⟨unit, acc⟩ := x
    rw [List.foldlM_cons, bind_eq_ok] at h
    obtain ⟨p₁, hstart, h⟩ := h
    simp only [Pending.start, bind_eq_ok, pure_eq_ok] at hstart
    obtain ⟨c, hc, rfl⟩ := hstart
    rw [ih h, newAmong, Option.or_assoc]
    congr 1
    rw [Std.ExtTreeMap.getElem?_insert]
    have hnew : newAccess g i acc =
        { write := acc.write, counter := c, younger := 0, ordered := i.inOrder g acc.event,
          lanes := true } := by
      rw [newAccess, Generation.counter?_of_counterOf hc]
      rfl
    by_cases hk : k = ⟨place, unit, acc.event⟩
    · subst hk
      simp [hnew]
    · have hne : compare (⟨place, unit, acc.event⟩ : AccessKey) k ≠ .eq := fun heq =>
        hk (Std.LawfulEqOrd.eq_of_compare heq).symm
      simp [hk, hne]

lemma startAccesses_eq_ok {st : Started} (hst : i.started s = .ok st) :
    startAccesses s p place i = .ok p' ↔ (∀ a ∈ st.accesses, a.range.fits = true)
      ∧ (i.leaves s).foldlM (fun p (unit, a) => p.start s.generation ⟨place, unit, a.event⟩ a.write
          (i.inOrder s.generation a.event))
        ((i.raised s).foldl (fun p ev => p.issue s.generation ev (i.inOrder s.generation ev)) p)
          = .ok p' := by
  simp only [startAccesses, hst, bind_eq_ok, forM_eq_ok, RegRange.checkFits_eq_ok,
    Instruction.raised, Instruction.leaves]
  constructor
  · rintro ⟨_, heq, ⟨⟩, hfits, h⟩
    cases heq
    exact ⟨hfits, h⟩
  · rintro ⟨hfits, h⟩
    exact ⟨st, rfl, (), hfits, h⟩

/-- The accesses in flight after an instruction has started its own. -/
lemma getElem?_startAccesses (h : startAccesses s p place i = .ok p') (k : AccessKey) :
    p'[k]? = (fresh s place i k).or
      (p[k]?.map (·.issues s.generation k (i.inOrder s.generation) (i.raised s))) := by
  obtain ⟨st, hst⟩ : ∃ st, i.started s = .ok st := by
    simp only [startAccesses, bind_eq_ok] at h
    obtain ⟨st, hst, -⟩ := h
    exact ⟨st, hst⟩
  rw [foldlM_start ((startAccesses_eq_ok hst).1 h).2 k, Pending.getElem?_issues]
  rfl

/-- A step carries out the wait of the instruction, looks at its registers and starts its accesses. -/
lemma step_eq_ok {found : List Finding} (hp : ∀ w, i.payload ≠ .wait w) :
    step s p place i = .ok (p', found) ↔ checkRanges (p.wait (ownWait i)) i = .ok ()
      ∧ startAccesses s (p.wait (ownWait i)) place i = .ok p'
      ∧ found = useFindings s.generation (p.wait (ownWait i)) place i
        ++ if i.opcode = .sSetpcB64 then exitFindings (p.wait (ownWait i)) place else [] := by
  rw [step]
  split
  · exact absurd ‹_› (hp _)
  · simp only [bind_eq_ok, pure_eq_ok, Prod.mk.injEq]
    constructor
    · rintro ⟨⟨⟩, hr, _, hs, rfl, rfl⟩
      exact ⟨hr, hs, rfl⟩
    · rintro ⟨hr, hs, rfl⟩
      exact ⟨(), hr, _, hs, rfl, rfl⟩

lemma step_of_wait {w : Wait} (hp : i.payload = .wait w) :
    step s p place i = .ok (p.wait (ownWait i), []) := by
  simp [step, hp]

/-- The accesses in flight after a step. -/
lemma getElem?_step {found : List Finding} (h : step s p place i = .ok (p', found))
    (k : AccessKey) :
    p'[k]? = (fresh s place i k).or ((p.wait (ownWait i))[k]?.map
      (·.issues s.generation k (i.inOrder s.generation) (i.raised s))) := by
  by_cases hp : ∀ w, i.payload ≠ .wait w
  · exact getElem?_startAccesses ((step_eq_ok hp).1 h).2.1 k
  · simp only [not_forall, not_not] at hp
    obtain ⟨w, hp⟩ := hp
    rw [step_of_wait hp, Except.ok.injEq, Prod.mk.injEq] at h
    have hst : i.started s = .ok {} := by simp [Instruction.started, hp]
    rw [← h.1, fresh, Instruction.leaves, Instruction.raised, hst]
    simp [newAmong, InFlight.issues]

lemma bounded_startAccesses (hb : p.Bounded s.generation)
    (h : startAccesses s p place i = .ok p') : p'.Bounded s.generation := by
  intro k a hk
  rw [getElem?_startAccesses h, Option.or_eq_some_iff] at hk
  rcases hk with hk | ⟨-, hk⟩
  · obtain ⟨x, -, -, rfl⟩ := newAmong_eq_some hk
    exact UInt16.le_iff_toNat_le.2 (Nat.zero_le _)
  · obtain ⟨b, hb', rfl⟩ := Option.map_eq_some_iff.1 hk
    have hag := InFlight.aged_issues b s.generation k (i.inOrder s.generation) (i.raised s)
    rw [hag.counter]
    exact hag.bounded (hb k b hb')

/-! ### Findings -/

/-- The instruction runs into nothing that it can see. -/
def Quiet (g : Generation) (i : Instruction) (p : Pending) : Prop :=
  ∀ k a, p[k]? = some a → isVisible g k a = true → conflicts i k a = []

lemma useFindings_eq_nil {g : Generation} : useFindings g p place i = [] ↔ Quiet g i p := by
  simp only [useFindings, List.flatMap_eq_nil_iff, List.mem_filter, Prod.forall,
    Std.ExtTreeMap.mem_toList_iff_getElem?_eq_some, List.map_eq_nil_iff, and_imp, Quiet]

lemma exitFindings_eq_nil : exitFindings p place = [] ↔ ∀ k : AccessKey, p[k]? = none := by
  simp only [exitFindings, List.map_eq_nil_iff]
  constructor
  · intro h k
    cases hk : p[k]? with
    | none => rfl
    | some a =>
      have := Std.ExtTreeMap.mem_toList_iff_getElem?_eq_some.2 hk
      rw [h] at this
      cases this
  · intro h
    rw [List.eq_nil_iff_forall_not_mem]
    rintro ⟨k, a⟩ hmem
    rw [Std.ExtTreeMap.mem_toList_iff_getElem?_eq_some, h k] at hmem
    cases hmem

lemma checkRanges_of_workable (p : Pending) (hi : i.Workable) : checkRanges p i = .ok () := by
  rw [checkRanges]
  split
  · rfl
  · rw [forM_eq_ok]
    intro r hr
    rcases List.mem_append.1 hr with hr | hr
    · obtain ⟨op, hop, rfl⟩ := List.mem_map.1 hr
      exact Operand.checkFits_of_isValid (hi.operand hop)
    · exact RegRange.checkFits_of_isValid (hi.definition hr)

/-- The accesses of a workable instruction can be started. -/
lemma startAccesses_total (hi : i.Workable) (p : Pending) (place : Place) :
    ∃ p', startAccesses s p place i = .ok p' := by
  obtain ⟨st, hst⟩ := Instruction.started_total hi s
  have hfollowed : ∀ a ∈ st.accesses, i.FollowedAccess s st a := fun a ha => hi.followed hst ha
  obtain ⟨p', hp', -⟩ := foldlM_total (l := i.leaves s)
    (f := fun p (unit, a) => p.start s.generation ⟨place, unit, a.event⟩ a.write
      (i.inOrder s.generation a.event))
    (b := (i.raised s).foldl (fun p ev => p.issue s.generation ev (i.inOrder s.generation ev)) p)
    (fun _ => True) (fun x hx p _ => by
      simp only [Instruction.leaves, hst, List.mem_flatMap, List.mem_map] at hx
      obtain ⟨a, ha, u, -, rfl⟩ := hx
      obtain ⟨c, hc, -⟩ := (hfollowed a ha).counted
      simp only [Pending.start, Generation.counterOf_eq_ok hc, bind, Except.bind]
      exact ⟨_, rfl, trivial⟩) trivial
  exact ⟨p', (startAccesses_eq_ok hst).2 ⟨fun a ha => (hfollowed a ha).fits, hp'⟩⟩

end Checker

end GpuWaits
