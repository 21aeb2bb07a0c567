/-
# What is owed to the memory

Barriers order the accesses of memory, and neither the registers nor the checker know of it.  This file
follows the accesses themselves.  An `Operation` is an event that an access has raised, with the number
of operations behind it.  A `Debt` says that a memory of deferred barriers asks for an operation on
behalf of a storage class, and a `Ledger` is the set of debts at a point of the code.

The context is right about a ledger when its demands ask for every operation that is owed and not
complete (`Demand.Asks`).  Then the wait in front of an instruction completes all that the instruction
has to pay for (`Ledger.view`): a release of what was accessed before it, and an access of what was
acquired before it.
-/
import GpuWaits.Proofs.Cover
import Mathlib.Data.Set.Basic

namespace GpuWaits

/-! ### Operations -/

/-- An event that an access of memory has raised. -/
structure Operation where
  event : Event
  /-- The counter that falls when the operation completes. -/
  counter : Counter
  /-- The operation completes in order. -/
  ordered : Bool
  /-- The number of operations of its event that issued behind it and complete in order. -/
  behind : Nat
deriving DecidableEq

namespace Operation

variable {o : Operation} {v w : Wait}

/-- The operation that the instruction `i` has just issued. -/
def ofEvent (s : Setting) (i : Instruction) (ev : Event) : Operation where
  event := ev
  counter := (s.generation.counter? ev).getD .exp
  ordered := i.inOrder s.generation ev
  behind := 0

/-- A wait completes the operation if it leaves no more operations than have issued behind it. -/
def isComplete (o : Operation) (w : Wait) : Bool :=
  w.isSet o.counter && decide ((w.get o.counter).toNat ≤ o.behind)

/-- The operation once an event has issued. -/
def issue (o : Operation) (inOrder : Event → Bool) (ev : Event) : Operation :=
  if inOrder ev = true ∧ o.event = ev ∧ o.ordered = true then { o with behind := o.behind + 1 }
  else o

/-- The operation once some events have issued. -/
def issues (o : Operation) (inOrder : Event → Bool) (evs : List Event) : Operation :=
  evs.foldl (fun o ev => o.issue inOrder ev) o

/-- The operation behind some code, unless a wait of the code has completed it. -/
def run? (s : Setting) (o : Operation) : List Instruction → Option Operation
  | [] => some o
  | i :: code =>
    if o.isComplete (Checker.ownWait i) then none
    else run? s (o.issues (i.inOrder s.generation) (i.raised s)) code

lemma isComplete_iff :
    o.isComplete w = true ↔ w.isSet o.counter = true ∧ (w.get o.counter).toNat ≤ o.behind := by
  rw [isComplete, Bool.and_eq_true, decide_eq_true_eq]

lemma isComplete_mono (hle : w ≤ v) (h : o.isComplete v = true) : o.isComplete w = true := by
  rw [isComplete_iff] at h ⊢
  exact ⟨Wait.isSet_of_le hle h.1, Nat.le_trans (UInt16.le_iff_toNat_le.1 (hle _)) h.2⟩

lemma not_isComplete_of_le (hle : w ≤ v) (h : o.isComplete w = false) : o.isComplete v = false := by
  rw [Bool.eq_false_iff] at h ⊢
  exact fun hcomplete => h (isComplete_mono hle hcomplete)

@[simp] lemma isComplete_none : o.isComplete .none = false := by
  simp [isComplete, Wait.isSet]

/-- Two waits complete what one of them completes. -/
lemma isComplete_both : o.isComplete (v.both w) = (o.isComplete v || o.isComplete w) := by
  rw [Bool.eq_iff_iff, Bool.or_eq_true]
  constructor
  · intro h
    obtain ⟨hset, hle⟩ := isComplete_iff.1 h
    have hmin : (v.both w).get o.counter = v.get o.counter
        ∨ (v.both w).get o.counter = w.get o.counter := by
      rw [Wait.get_both]
      by_cases hvw : v.get o.counter ≤ w.get o.counter
      · exact .inl (if_pos hvw)
      · exact .inr (if_neg hvw)
    rw [Wait.isSet_iff] at hset
    rcases hmin with heq | heq
    · exact .inl (isComplete_iff.2 ⟨Wait.isSet_iff.2 (heq ▸ hset), heq ▸ hle⟩)
    · exact .inr (isComplete_iff.2 ⟨Wait.isSet_iff.2 (heq ▸ hset), heq ▸ hle⟩)
  · rintro (h | h)
    · exact isComplete_mono (Wait.both_le_left v w) h
    · exact isComplete_mono (Wait.both_le_right v w) h

/-- Only operations of the same event that complete in order count. -/
lemma issues_eq (o : Operation) (inOrder : Event → Bool) (evs : List Event) :
    o.issues inOrder evs = { o with
      behind := o.behind
        + if o.ordered = true ∧ inOrder o.event = true then evs.count o.event else 0 } := by
  induction evs generalizing o with
  | nil => simp [issues]
  | cons ev evs ih =>
    have hcons : o.issues inOrder (ev :: evs) = (o.issue inOrder ev).issues inOrder evs := rfl
    rw [hcons, ih, issue, List.count_cons]
    by_cases hev : o.event = ev
    · subst hev
      by_cases hord : o.ordered = true <;> by_cases hin : inOrder o.event = true <;>
        simp [hord, hin]
      omega
    · have hne : (ev == o.event) = false := beq_eq_false_iff_ne.2 (Ne.symm hev)
      simp [hev, hne]

lemma issues_of_notMem {inOrder : Event → Bool} {evs : List Event} (h : o.event ∉ evs) :
    o.issues inOrder evs = o := by
  rw [issues_eq, List.count_eq_zero_of_not_mem h]
  simp

/-- Operations that issue behind do no harm. -/
lemma isComplete_issues {inOrder : Event → Bool} {evs : List Event} (h : o.isComplete w = true) :
    (o.issues inOrder evs).isComplete w = true := by
  rw [isComplete_iff] at h
  rw [issues_eq, isComplete_iff]
  exact ⟨h.1, Nat.le_trans h.2 (Nat.le_add_right _ _)⟩

lemma not_isComplete_of_issues {inOrder : Event → Bool} {evs : List Event}
    (h : (o.issues inOrder evs).isComplete w = false) : o.isComplete w = false := by
  rw [Bool.eq_false_iff] at h ⊢
  exact fun hcomplete => h (isComplete_issues hcomplete)

lemma run?_singleton {s : Setting} {i : Instruction} {o' : Operation} :
    o.run? s [i] = some o' ↔ o.isComplete (Checker.ownWait i) = false
      ∧ o' = o.issues (i.inOrder s.generation) (i.raised s) := by
  rw [run?]
  split
  · rename_i hcomplete
    simp [hcomplete]
  · rename_i hnot
    rw [run?, Option.some.injEq]
    constructor
    · exact fun h => ⟨by simpa using hnot, h.symm⟩
    · exact fun h => h.2.symm

lemma run?_append (s : Setting) (o : Operation) (code code' : List Instruction) :
    o.run? s (code ++ code') = (o.run? s code).bind fun o => o.run? s code' := by
  induction code generalizing o with
  | nil => rfl
  | cons i code ih =>
    rw [List.cons_append, run?, run?]
    split
    · rfl
    · exact ih _

end Operation

/-! ### Completion in the code -/

/-- The number of operations of the event that the code issues and that complete in order. -/
def issuedInOrder (s : Setting) (ev : Event) (code : List Instruction) : Nat :=
  total (fun i => if i.inOrder s.generation ev = true then (i.raised s).count ev else 0) code

/-- Some wait in the code that follows the instruction `x` completes the operation that `x` has issued:
it leaves no more operations on the counter than have issued behind, and none at all if the operation
completes out of order. -/
def Instruction.CompletesIn (x : Instruction) (s : Setting) (ev : Event) (code : List Instruction) :
    Prop :=
  ∃ before wait behind counter, code = before ++ wait :: behind
    ∧ s.generation.counter? ev = some counter ∧ (Checker.ownWait wait).isSet counter = true
    ∧ ((Checker.ownWait wait).get counter).toNat
      ≤ if x.inOrder s.generation ev = true then issuedInOrder s ev before else 0

lemma Operation.run?_eq_none {s : Setting} {o : Operation} {code : List Instruction}
    (h : o.run? s code = none) :
    ∃ before wait behind, code = before ++ wait :: behind
      ∧ (Checker.ownWait wait).isSet o.counter = true
      ∧ ((Checker.ownWait wait).get o.counter).toNat
        ≤ o.behind + if o.ordered = true then issuedInOrder s o.event before else 0 := by
  induction code generalizing o with
  | nil => cases h
  | cons i code ih =>
    rw [run?] at h
    split at h
    · rename_i hcomplete
      obtain ⟨hset, hle⟩ := isComplete_iff.1 hcomplete
      exact ⟨[], i, code, rfl, hset, Nat.le_trans hle (Nat.le_add_right _ _)⟩
    · obtain ⟨before, wait, behind, rfl, hset, hle⟩ := ih h
      rw [issues_eq] at hset hle
      refine ⟨i :: before, wait, behind, rfl, hset, Nat.le_trans hle ?_⟩
      dsimp only
      by_cases hord : o.ordered = true
      · simp only [hord, true_and, if_true, issuedInOrder, total]
        omega
      · simp [hord]

/-- An operation that is no longer owed has been completed. -/
lemma Instruction.completesIn_of_run? {x : Instruction} {s : Setting} {ev : Event} {counter : Counter}
    (hcount : s.generation.counter? ev = some counter) {code : List Instruction}
    (h : (Operation.ofEvent s x ev).run? s code = none) : x.CompletesIn s ev code := by
  obtain ⟨before, wait, behind, hcode, hset, hle⟩ := Operation.run?_eq_none h
  simp only [Operation.ofEvent, hcount, Option.getD_some, Nat.zero_add] at hset hle
  exact ⟨before, wait, behind, counter, hcode, hcount, hset, hle⟩

/-! ### Demands that ask for an operation -/

/-- The demand asks for the operation, at a scope no narrower than `scope`.  The counters for which
`slack` holds have targets that say nothing. -/
structure Demand.Asks (d : Demand) (g : Generation) (slack : Counter → Prop) (scope : Scope)
    (o : Operation) : Prop where
  event : o.event ∈ d.events
  counter : g.counter? o.event = some o.counter
  slot : d.wait.isSet o.counter = true
  target : slack o.counter ∨ (d.wait.get o.counter).toNat ≤ o.behind
  scope : scope ≤ d.scope
  order : o.ordered = false → o.event = .smem ∨ slack o.counter

namespace Demand

variable {g : Generation} {slack slack' : Counter → Prop} {d d' : Demand} {scope : Scope}
  {o : Operation} {w : Wait}

lemma Asks.slack_mono (h : d.Asks g slack scope o) (hslack : ∀ c, slack c → slack' c) :
    d.Asks g slack' scope o :=
  { h with
    target := h.target.imp (hslack _) id
    order := fun ho => (h.order ho).imp id (hslack _) }

/-- A demand that has absorbed another one asks for what that one asks for. -/
lemma Asks.of_grows (h : d.Asks g slack scope o) (hg : d'.grows d = false) :
    d'.Asks g slack scope o := by
  obtain ⟨hwait, hevents, hscope⟩ := grows_eq_false_iff.1 hg
  exact
    { event := Flags.mem_of_lacks_eq_false hevents h.event
      counter := h.counter
      slot := Wait.isSet_of_le hwait h.slot
      target := h.target.imp id fun ht => Nat.le_trans (UInt16.le_iff_toNat_le.1 (hwait _)) ht
      scope := Nat.le_trans h.scope hscope
      order := h.order }

/-- A wait that meets the target of the demand completes the operation. -/
lemma Asks.isComplete (h : d.Asks g slack scope o)
    (hflat : slack o.counter → w.isSet o.counter = true → w.get o.counter = 0)
    (hle : w.get o.counter ≤ d.wait.get o.counter) : o.isComplete w = true := by
  have hset : w.isSet o.counter = true := by
    have h₁ := UInt16.le_iff_toNat_le.1 hle
    have h₂ := UInt16.lt_iff_toNat_lt.1 (Wait.get_lt_of_isSet h.slot)
    rw [Wait.isSet_iff]
    intro heq
    rw [heq] at h₁
    omega
  rw [Operation.isComplete_iff]
  refine ⟨hset, ?_⟩
  rcases h.target with hslack | htarget
  · rw [hflat hslack hset]
    exact Nat.zero_le _
  · exact Nat.le_trans (UInt16.le_iff_toNat_le.1 hle) htarget

/-- Operations that issue behind only make the target easier to meet. -/
lemma Asks.issue (h : d.Asks g slack scope o) (inOrder : Event → Bool) (ev : Event) :
    d.Asks g slack scope (o.issue inOrder ev) := by
  rw [Operation.issue]
  split
  · exact { h with target := h.target.imp id fun ht => Nat.le_succ_of_le ht }
  · exact h

/-- An event ages the demand no further than the operation, if the event completes in order or the
targets on its counter say nothing. -/
lemma Asks.age (h : d.Asks g slack scope o) {inOrder : Event → Bool} {ev : Event}
    (hflat : inOrder ev = false → ev ∈ Event.unordered ∨ ∀ c, g.counter? ev = some c → slack c) :
    (d.age g ev).Asks g slack scope (o.issue inOrder ev) := by
  have hkeep := h.issue inOrder ev
  rw [Demand.age]
  split
  · exact hkeep
  rename_i hplain
  rw [not_or, EventSet.isUnordered_iff] at hplain
  obtain ⟨hsmem, hev⟩ := hplain
  by_cases hcond : o.counter ∈ g.countersOf {ev} ∧ d.wait.isSet o.counter
      ∧ d.events ∩ g.eventsOn o.counter = {ev}
  · -- The demand has no other event on the counter, so the operation is of this kind.
    have hsame : o.event = ev := by
      rw [← EventSet.mem_singleton, ← hcond.2.2]
      exact (Flags.mem_inter _ _ _).2 ⟨h.event, Generation.mem_eventsOn.2 h.counter⟩
    have hcounter : (o.issue inOrder ev).counter = o.counter := by
      rw [Operation.issue]
      split <;> rfl
    refine ⟨hkeep.event, hkeep.counter, ?_, ?_, hkeep.scope, hkeep.order⟩
    · rw [hcounter, Wait.isSet_iff, Wait.get_ofFn, if_pos hcond]
      exact g.oneMore_ne_unset _ _
    · rw [hcounter, Wait.get_ofFn, if_pos hcond]
      by_cases hslack : slack o.counter
      · exact .inl hslack
      have hordered : o.ordered = true := by
        by_contra hno
        rcases h.order (by simpa using hno) with hs | hs
        · exact hsmem (hs ▸ h.event)
        · exact hslack hs
      have hin : inOrder ev = true := by
        by_contra hno
        rcases hflat (by simpa using hno) with hun | hs
        · exact hev hun
        · exact hslack (hs _ (hsame ▸ h.counter))
      have htarget := h.target.resolve_left hslack
      rw [Operation.issue, if_pos ⟨hin, hsame, hordered⟩, Generation.oneMore_toNat]
      right
      split <;> dsimp only <;> omega
  · have hget : ∀ c, (Wait.ofFn fun c => if c ∈ g.countersOf {ev} ∧ d.wait.isSet c
        ∧ d.events ∩ g.eventsOn c = {ev} then g.oneMore c (d.wait.get c) else d.wait.get c).get c
          = if c ∈ g.countersOf {ev} ∧ d.wait.isSet c ∧ d.events ∩ g.eventsOn c = {ev} then
            g.oneMore c (d.wait.get c) else d.wait.get c := fun c => Wait.get_ofFn _ c
    have hcounter : (o.issue inOrder ev).counter = o.counter := by
      rw [Operation.issue]
      split <;> rfl
    refine ⟨hkeep.event, hkeep.counter, ?_, ?_, hkeep.scope, hkeep.order⟩
    · rw [hcounter, Wait.isSet_iff, hget, if_neg hcond]
      exact Wait.isSet_iff.1 h.slot
    · have ht := hkeep.target
      rw [hcounter] at ht ⊢
      rw [hget, if_neg hcond]
      exact ht

lemma extend_grows (d : Demand) (g : Generation) (ev : Event) : (d.extend g ev).grows d = false :=
  grows_eq_false_iff.2 ⟨Wait.both_le_left _ _, Flags.lacks_union_left (Flags.lacks_refl _) _,
    Nat.le_refl _⟩

/-- A demand asks for an event that it has just been told of. -/
lemma asks_extend (hcount : g.counter? o.event = some o.counter) (hbehind : o.behind = 0)
    (horder : o.ordered = false → o.event = .smem ∨ slack o.counter) (d : Demand) :
    (d.extend g o.event).Asks g slack .invocation o := by
  have hzero : ((d.extend g o.event).wait.get o.counter).toNat = 0 := by
    have hmem : o.counter ∈ g.countersOf {o.event} := Generation.mem_countersOf_singleton.2 hcount
    rw [extend, Wait.get_both, Wait.toNat_min, Wait.get_drain, if_pos hmem]
    exact Nat.min_zero _
  refine ⟨by simp [extend], hcount, ?_, .inr (by omega), Nat.zero_le _, horder⟩
  rw [Wait.isSet_iff]
  intro heq
  rw [heq] at hzero
  cases hzero

end Demand

/-- Telling a memory of an event ages the demands no further than the operations. -/
lemma Barrier.asks_record {g : Generation} {slack : Counter → Prop} {b : Barrier} {k : Storage}
    {scope : Scope} {o : Operation} (h : (b.demand k).Asks g slack scope o)
    {inOrder : Event → Bool} {ev : Event}
    (hflat : inOrder ev = false → ev ∈ Event.unordered ∨ ∀ c, g.counter? ev = some c → slack c)
    (storage : StorageSet) :
    ((b.record g ev storage).demand k).Asks g slack scope (o.issue inOrder ev) := by
  rw [demand_record]
  split
  · exact (h.of_grows (Demand.extend_grows _ g ev)).issue inOrder ev
  split
  · exact h.age hflat
  · exact h.issue inOrder ev

/-! ### Contexts that ask for an operation -/

/-- What is owed: an operation, by a memory of deferred barriers, on behalf of a storage class. -/
structure Debt where
  role : BarrierRole
  storage : Storage
  /-- The barrier reaches at least this far. -/
  scope : Scope
  op : Operation

/-- The context asks for what is owed. -/
def Context.Asks (c : Context) (g : Generation) (slack : Counter → Prop) (d : Debt) : Prop :=
  ((c.barrier d.role).demand d.storage).Asks g slack d.scope d.op

namespace Context

variable {s : Setting} {c c' : Context} {i : Instruction} {slack slack' : Counter → Prop} {d : Debt}
  {w : Wait}

/-- A memory that asks for something lists the class. -/
lemma Asks.listed {g : Generation} (h : c.Asks g slack d) (hc : c.Sound g) :
    d.storage ∈ (c.barrier d.role).storage ∧ (c.barrier d.role).live = true :=
  (hc.barrier d.role).listed _ _ h.event

/-- Operations that issue behind only make the targets easier to meet. -/
lemma Asks.issues {g : Generation} (h : c.Asks g slack d) (inOrder : Event → Bool)
    (evs : List Event) : c.Asks g slack { d with op := d.op.issues inOrder evs } := by
  rw [Context.Asks, Operation.issues_eq]
  exact { h with target := h.target.imp id fun ht => Nat.le_trans ht (Nat.le_add_right _ _) }

/-! ### Settling -/

/-- What survives the wait is still asked for when the context is settled. -/
lemma Asks.settle {g : Generation} (h : c.Asks g slack d) (hsettle : c.settle g w = .ok c')
    (hnot : d.op.isComplete w = false)
    (hflat : slack d.op.counter → w.isSet d.op.counter = true → w.get d.op.counter = 0)
    (hslack : slack d.op.counter → w.get d.op.counter ≠ 0 → slack' d.op.counter) :
    c'.Asks g slack' d := by
  have hs := settles_of_settle hsettle
  have hmeets : ¬w.Meets ((c.barrier d.role).demand d.storage).wait d.op.counter := by
    rintro ⟨-, hle⟩
    rw [Demand.Asks.isComplete h hflat hle] at hnot
    cases hnot
  have hnz : w.get d.op.counter ≠ 0 := by
    intro h0
    have : d.op.isComplete w = true := Operation.isComplete_iff.2
      ⟨Wait.isSet_iff.2 (by rw [h0]; decide), by rw [h0]; exact Nat.zero_le _⟩
    rw [hnot] at this
    cases this
  obtain ⟨hev, hget, hscope⟩ :=
    (hs.demand d.role d.storage).kept _ h.event _ h.counter h.slot hmeets
  refine ⟨hev, h.counter, ?_, ?_, ?_, fun ho => (h.order ho).imp id fun hsl => hslack hsl hnz⟩
  · rw [Wait.isSet_iff, hget]
    exact Wait.isSet_iff.1 h.slot
  · rw [hget]
    exact h.target.imp (fun hsl => hslack hsl hnz) id
  · rw [hscope]
    exact h.scope

/-! ### Deferring -/

/-- Deferring only adds to the demands. -/
lemma defer_grows (c : Context) (s : Setting) (sync : Sync) (source target role : BarrierRole)
    (k : Storage) :
    (((c.defer s sync source target).barrier role).demand k).grows ((c.barrier role).demand k)
      = false := by
  by_cases hr : role = target
  · subst hr
    rcases defer_cases c s sync source role with ⟨-, h⟩ | ⟨-, -, h⟩
    · rw [h]
      exact Demand.grows_refl _
    · rw [h, barrier_setBarrier, if_pos rfl]
      simp only [Barrier.demand, PerStorage.get_ofFn]
      split
      · rw [Demand.grows_eq_false_iff]
        refine ⟨Wait.both_le_left _ _, Flags.lacks_union_left (Flags.lacks_refl _) _, ?_⟩
        simp only [Demand.width_widest]
        omega
      · exact Demand.grows_refl _
  · rw [(defer_frame c s sync source target).2.2.2.2 role hr]
    exact Demand.grows_refl _

lemma deferBefore_grows (c : Context) (s : Setting) (i : Instruction) (role : BarrierRole)
    (k : Storage) :
    (((c.deferBefore s i).barrier role).demand k).grows ((c.barrier role).demand k) = false := by
  have hreleased : (((if .release ∈ i.sync.semantics then c.deferRelease s i.sync else c).barrier
      role).demand k).grows ((c.barrier role).demand k) = false := by
    split
    · exact defer_grows c s i.sync _ _ role k
    · exact Demand.grows_refl _
  rw [deferBefore]
  split
  · split
    · exact Demand.grows_trans (defer_grows _ s i.sync _ _ role k) hreleased
    · exact hreleased
  · exact hreleased

lemma slack_deferBefore (c : Context) (s : Setting) (i : Instruction) :
    (c.deferBefore s i).Slack = c.Slack := by
  obtain ⟨-, -, hvm, hlgkm⟩ := deferBefore_frame c s i
  exact slack_of_frame hvm hlgkm

lemma Asks.deferBefore (h : c.Asks s.generation c.Slack d) (i : Instruction) :
    (c.deferBefore s i).Asks s.generation (c.deferBefore s i).Slack d := by
  rw [slack_deferBefore]
  exact Demand.Asks.of_grows h (deferBefore_grows c s i _ _)

lemma deferAfter_grows (c : Context) (s : Setting) (i : Instruction) (role : BarrierRole)
    (k : Storage) :
    (((c.deferAfter s i).barrier role).demand k).grows ((c.barrier role).demand k) = false := by
  rw [deferAfter]
  split
  · exact defer_grows c s i.sync _ _ role k
  · exact Demand.grows_refl _

lemma slack_deferAfter (c : Context) (s : Setting) (i : Instruction) :
    (c.deferAfter s i).Slack = c.Slack := by
  obtain ⟨-, -, hvm, hlgkm⟩ := deferAfter_frame c s i
  exact slack_of_frame hvm hlgkm

lemma Asks.deferAfter (h : c.Asks s.generation c.Slack d) (i : Instruction) :
    (c.deferAfter s i).Asks s.generation (c.deferAfter s i).Slack d := by
  rw [slack_deferAfter]
  exact Demand.Asks.of_grows h (deferAfter_grows c s i _ _)

/-- The barrier of a wave that is not alone in its workgroup. -/
lemma aloneScope_of_lt (hgroup : s.config.waveSize < s.config.workgroupSize) :
    s.aloneScope = .subgroup := by
  rw [Setting.aloneScope, if_neg]
  rw [UInt32.le_iff_toNat_le]
  have := UInt32.lt_iff_toNat_lt.1 hgroup
  omega

/-- A demand is part of what is moved. -/
lemma foldl_join_grows {l : List Demand} {e : Demand} (he : e ∈ l) (e₀ : Demand) :
    (l.foldl Demand.join e₀).grows e = false := by
  have hfirst : ∀ (l : List Demand) (e₀ : Demand), (l.foldl Demand.join e₀).grows e₀ = false := by
    intro l
    induction l with
    | nil => exact fun e₀ => Demand.grows_refl e₀
    | cons o l ih => exact fun e₀ => Demand.grows_trans (ih _) (Demand.join_grows_left e₀ o)
  induction l generalizing e₀ with
  | nil => cases he
  | cons o l ih =>
    rcases List.mem_cons.1 he with rfl | he
    · exact Demand.grows_trans (hfirst l _) (Demand.join_grows_right e₀ e)
    · exact ih he _

/-- Past the workgroup everything that is asked for is moved, and on behalf of every class of the
barrier. -/
lemma Asks.defer (hc : c.Sound s.generation) (hgroup : s.config.waveSize < s.config.workgroupSize)
    (h : c.Asks s.generation slack d) {sync : Sync} (hk : d.storage ∈ sync.storage)
    (hscope : .workgroup < sync.scope) (target : BarrierRole) {k : Storage}
    (hk' : k ∈ sync.storage) :
    (c.defer s sync d.role target).Asks s.generation slack ⟨target, k, sync.scope, d.op⟩ := by
  have halone := aloneScope_of_lt hgroup
  have hwide : ¬sync.scope ≤ s.aloneScope := by
    rw [halone]
    intro hle
    have h₁ : 2 < sync.scope.width := hscope
    have h₂ : sync.scope.width ≤ 1 := hle
    omega
  have hnarrow : ¬sync.scope.narrowest .workgroup ≤ s.aloneScope := by
    rw [halone]
    revert hscope
    cases sync.scope <;> decide
  obtain ⟨hlisted, -⟩ := h.listed hc
  have hmoved : (c.movedDemand s sync d.role).grows ((c.barrier d.role).demand d.storage) = false := by
    refine foldl_join_grows (List.mem_filter.2 ⟨List.mem_map.2 ⟨d.storage, ?_, rfl⟩, ?_⟩) _
    · rw [Flags.toList, List.mem_filter, decide_eq_true_eq, Flags.mem_inter]
      exact ⟨d.storage.mem_all, hk, hlisted⟩
    · simp [hnarrow]
  have hasks := Demand.Asks.of_grows h hmoved
  rcases defer_cases c s sync d.role target with ⟨hno, -⟩ | ⟨-, -, heq⟩
  · rcases hno with hno | hno
    · exact absurd hno hwide
    · exact absurd hasks.event (EventSet.isEmpty_iff.1 hno _)
  · rw [heq]
    simp only [Context.Asks, barrier_setBarrier, if_pos, Barrier.demand, PerStorage.get_ofFn,
      if_pos hk']
    exact
      { event := (Flags.mem_union _ _ _).2 (.inr hasks.event)
        counter := hasks.counter
        slot := Wait.isSet_of_le (Wait.both_le_right _ _) hasks.slot
        target := hasks.target.imp id fun ht => Nat.le_trans
          (UInt16.le_iff_toNat_le.1 (Wait.both_le_right _ _ _)) ht
        scope := by
          change sync.scope.width ≤ (Scope.widest _ sync.scope).width
          rw [Demand.width_widest]
          omega
        order := hasks.order }

lemma Asks.deferBefore_release (hc : c.Sound s.generation)
    (hgroup : s.config.waveSize < s.config.workgroupSize) (h : c.Asks s.generation c.Slack d)
    (hrole : d.role = .releaseDependency) (hrelease : .release ∈ i.sync.semantics)
    (hk : d.storage ∈ i.sync.storage) (hscope : .workgroup < i.sync.scope) {k : Storage}
    (hk' : k ∈ i.sync.storage) :
    (c.deferBefore s i).Asks s.generation (c.deferBefore s i).Slack
      ⟨.release, k, i.sync.scope, d.op⟩ := by
  have hreleased := h.defer hc hgroup hk hscope .release hk'
  rw [hrole] at hreleased
  rw [slack_deferBefore]
  simp only [Context.deferBefore, if_pos hrelease]
  split
  · split
    · exact Demand.Asks.of_grows hreleased (defer_grows _ s i.sync _ _ _ _)
    · exact hreleased
  · exact hreleased

end Context

/-! ### Issuing -/

namespace Instruction

variable {i kept : Instruction} {s : Setting} {ev : Event} {sync : Sync}

/-- An instruction raises no event twice. -/
lemma nodup_events {st : Started} (h : i.started s = .ok st) : st.events.Nodup := by
  have hlds : ∀ type, i.vmemEvent s type ≠ .lds := by
    intro type
    unfold vmemEvent
    split
    · decide
    split
    · split <;> decide
    · decide
  have hvmem : (i.vmemStarted s).events.Nodup := by
    rw [vmemStarted_eq]
    split <;> simp [i.vmemEvent_ne_lock s _]
  unfold started at h
  split at h
  · obtain ⟨ev, -, h⟩ := bind_eq_ok.1 h
    cases h
    simp
  · split at h
    · cases h
      simp [hlds]
    · cases h
      exact hvmem
  · cases h
    exact hvmem
  · cases h
    simp
  all_goals
    repeat' split at h
    all_goals
      cases h
      simp

/-- Taking over a wait changes nothing that the memory sees. -/
lemma TakesOver.memory_eq (h : i.TakesOver kept) :
    kept.sync = i.sync ∧ kept.effects s = i.effects s ∧ kept.definitions = i.definitions
      ∧ kept.inOrder = i.inOrder ∧ kept.raised s = i.raised s
      ∧ kept.orderedStorage s = i.orderedStorage s := by
  rcases h with rfl | ⟨n, m, hn, -, rfl⟩
  · exact ⟨rfl, rfl, rfl, rfl, rfl, rfl⟩
  · refine ⟨?_, ?_, rfl, ?_, ?_, ?_⟩
    · simp [sync, hn]
    · simp [effects, hn]
    · funext g ev
      simp [inOrder, isUnorderedFlat, mayUseLds, hn, format]
    · simp [raised, started, hn]
    · funext sync asked
      simp [orderedStorage, isControlBarrier, endsGeometry, immediate?, exportsVisibly, hn]

end Instruction

namespace Context

variable {s : Setting} {c c' : Context} {i : Instruction} {slack : Counter → Prop} {d : Debt}
  {w : Wait} {ev : Event} {sync : Sync}

/-- One effect keeps what is asked for, and ages it. -/
lemma Asks.apply (h : c.Asks s.generation slack d) {effect : Effect}
    (hflat : i.isUnorderedFlat s.generation = true → ∀ ev ∈ Effect.issues [effect],
      ∀ ctr, s.generation.counter? ev = some ctr → slack ctr)
    (happly : c.apply s i effect = .ok c') :
    c'.Asks s.generation slack { d with
      op := d.op.issues (i.inOrder s.generation) (Effect.issues [effect]) } := by
  cases effect with
  | issue ev sync =>
    have hord : i.inOrder s.generation ev = false → ev ∈ Event.unordered
        ∨ ∀ ctr, s.generation.counter? ev = some ctr → slack ctr := by
      intro ho
      by_cases hf : i.isUnorderedFlat s.generation = true
      · exact .inr (hflat hf ev (by simp))
      · left
        simpa [Instruction.inOrder, hf] using ho
    rw [Context.Asks, (issued_of_issue happly).barrier]
    rcases (recordEvent_frame c s ev sync (some i)).2.2.2.2 d.role with heq | ⟨storage, heq⟩
    · rw [heq]
      exact Demand.Asks.issue h _ ev
    · rw [heq]
      exact Barrier.asks_record h hord storage
  | track range ev blocksReads types halves =>
    obtain ⟨-, rfl⟩ := track_eq_ok.1 happly
    have hbarrier : ∀ role regs, ({ c with regs } : Context).barrier role = c.barrier role := by
      intro role regs
      cases role <;> rfl
    rw [Context.Asks, hbarrier]
    exact h
  | flat =>
    cases happly
    have hbarrier : ∀ role, ({ c with flatLgkm := true, flatVm := true } : Context).barrier role
        = c.barrier role := by
      intro role
      cases role <;> rfl
    rw [Context.Asks, hbarrier]
    exact h
  | fail fault => cases happly

lemma Asks.foldlM {l : List Effect} (h : c.Asks s.generation slack d)
    (hflat : i.isUnorderedFlat s.generation = true → ∀ ev ∈ Effect.issues l,
      ∀ ctr, s.generation.counter? ev = some ctr → slack ctr)
    (hfold : l.foldlM (fun c effect => c.apply s i effect) c = .ok c') :
    c'.Asks s.generation slack { d with
      op := d.op.issues (i.inOrder s.generation) (Effect.issues l) } := by
  induction l generalizing c d with
  | nil =>
    rw [List.foldlM_nil, pure_eq_ok] at hfold
    exact hfold ▸ h
  | cons effect l ih =>
    rw [← List.singleton_append, Effect.issues_append] at hflat ⊢
    rw [List.foldlM_cons, bind_eq_ok] at hfold
    obtain ⟨c₁, happly, hfold⟩ := hfold
    have h₁ := h.apply (fun hf ev hev => hflat hf ev (List.mem_append_left _ hev)) happly
    rw [Operation.issues, List.foldl_append]
    exact ih h₁ (fun hf ev hev => hflat hf ev (List.mem_append_right _ hev)) hfold

/-- Starting an instruction keeps what is asked for. -/
lemma Asks.start (h : c.Asks s.generation c.Slack d) (hstart : c.start s i = .ok c') :
    c'.Asks s.generation c'.Slack { d with
      op := d.op.issues (i.inOrder s.generation) (i.raised s) } := by
  obtain ⟨st, -, hraised, hissues⟩ := Instruction.started_of_start hstart
  rw [hraised, ← hissues]
  have hslack : c.Asks s.generation c'.Slack d :=
    Demand.Asks.slack_mono h fun ctr => (slack_foldlM hstart ctr).1
  exact hslack.foldlM (slack_of_unorderedFlat hstart) hstart

/-- A memory that is told of an event asks for the operation when the instruction has issued. -/
lemma asks_of_issue {role : BarrierRole} {k : Storage} (hstart : c.start s i = .ok c')
    (hev : .issue ev sync ∈ i.effects s)
    (hflat : i.isUnorderedFlat s.generation = true → ∀ ev ∈ Effect.issues (i.effects s),
      ∀ ctr, s.generation.counter? ev = some ctr → slack ctr)
    (htold : ∀ {c₁ c₂ : Context}, c₁.apply s i (.issue ev sync) = .ok c₂ →
      ∃ e : Demand, (c₂.barrier role).demand k = e.extend s.generation ev) :
    c'.Asks s.generation slack ⟨role, k, .invocation, .ofEvent s i ev⟩ := by
  obtain ⟨st, hst, -, hissues⟩ := Instruction.started_of_start hstart
  have hnodup := Instruction.nodup_events hst
  have hmem : ev ∈ Effect.issues (i.effects s) := Effect.mem_issues.2 ⟨sync, hev⟩
  obtain ⟨ctr, hctr⟩ := Instruction.counter_of_issue hev
  rw [← hissues] at hnodup
  obtain ⟨before, behind, hl⟩ := List.append_of_mem hev
  rw [Context.start, hl, List.foldlM_append, bind_eq_ok] at hstart
  obtain ⟨c₁, -, hstart⟩ := hstart
  rw [List.foldlM_cons, bind_eq_ok] at hstart
  obtain ⟨c₂, happly, hfold⟩ := hstart
  -- The event is raised once, so that nothing of its kind issues behind it.
  have hlater : ev ∉ Effect.issues behind := by
    rw [hl, Effect.issues_append, Effect.issues_issue, List.nodup_append] at hnodup
    exact (List.nodup_cons.1 hnodup.2.1).1
  have hnew : c₂.Asks s.generation slack ⟨role, k, .invocation, .ofEvent s i ev⟩ := by
    obtain ⟨e, he⟩ := htold happly
    have hcount : s.generation.counter? (Operation.ofEvent s i ev).event
        = some (Operation.ofEvent s i ev).counter := by
      simp [Operation.ofEvent, hctr]
    have horder : (Operation.ofEvent s i ev).ordered = false →
        ev = .smem ∨ slack (Operation.ofEvent s i ev).counter := by
      intro ho
      by_cases hf : i.isUnorderedFlat s.generation = true
      · exact .inr (hflat hf ev hmem _ hcount)
      · left
        simpa [Operation.ofEvent, Instruction.inOrder, hf] using ho
    rw [Context.Asks, he]
    exact Demand.asks_extend (o := Operation.ofEvent s i ev) hcount rfl horder e
  have hkept := hnew.foldlM (i := i) (fun hf ev' hev' => hflat hf ev' (by
    rw [hl, Effect.issues_append, Effect.issues_issue]
    exact List.mem_append_right _ (List.mem_cons_of_mem _ hev'))) hfold
  have hissued : (Operation.ofEvent s i ev).issues (i.inOrder s.generation) (Effect.issues behind)
      = .ofEvent s i ev := Operation.issues_of_notMem hlater
  simpa only [hissued] using hkept

/-- A release depends on every access that is not private, and on the private ones to scratch and spill
memory. -/
lemma asks_releaseDependency (hstart : c.start s i = .ok c') (hev : .issue ev i.sync ∈ i.effects s)
    (hflat : i.isUnorderedFlat s.generation = true → ∀ ev ∈ Effect.issues (i.effects s),
      ∀ ctr, s.generation.counter? ev = some ctr → slack ctr)
    {k : Storage} (hk : k ∈ i.sync.storage)
    (hshared : .unshared ∉ i.sync.semantics ∨ k = .scratch ∨ k = .vgprSpill) :
    c'.Asks s.generation slack ⟨.releaseDependency, k, .invocation, .ofEvent s i ev⟩ := by
  refine asks_of_issue hstart hev hflat fun {c₁ c₂} happly =>
    ⟨(c₁.barrier .releaseDependency).demand k, ?_⟩
  have hrecord : (c₁.recordEvent s ev i.sync (some i)).barrier .releaseDependency
      = (c₁.barrier .releaseDependency).record s.generation ev
        (if .unshared ∈ i.sync.semantics then i.sync.storage ∩ .ofList [.scratch, .vgprSpill]
          else i.sync.storage) := rfl
  rw [(issued_of_issue happly).barrier, hrecord, Barrier.demand_record, if_pos]
  split
  · rename_i hprivate
    refine (Flags.mem_inter _ _ _).2 ⟨hk, StorageSet.mem_ofList.2 ?_⟩
    simpa using hshared.resolve_left (not_not.2 hprivate)
  · exact hk

/-- An acquire depends on every atomic access that loads. -/
lemma asks_acquireDependency (hstart : c.start s i = .ok c') (hev : .issue ev i.sync ∈ i.effects s)
    {k : Storage} (hk : k ∈ i.orderedStorage s i.sync {.acquire}) :
    c'.Asks s.generation c'.Slack ⟨.acquireDependency, k, .invocation, .ofEvent s i ev⟩ := by
  refine asks_of_issue hstart hev (slack_of_unorderedFlat hstart) fun {c₁ c₂} happly =>
    ⟨(c₁.barrier .acquireDependency).demand k, ?_⟩
  have hrecord : (c₁.recordEvent s ev i.sync (some i)).barrier .acquireDependency
      = (c₁.barrier .acquireDependency).record s.generation ev
        (i.orderedStorage s i.sync {.acquire}) := rfl
  rw [(issued_of_issue happly).barrier, hrecord, Barrier.demand_record, if_pos hk]

/-- Once an access has issued that acquires past the workgroup, the acquire asks for it. -/
lemma asks_acquire (hc : c'.Sound s.generation)
    (hgroup : s.config.waveSize < s.config.workgroupSize) (hstart : c.start s i = .ok c')
    (hev : .issue ev i.sync ∈ i.effects s) (hacquire : .acquire ∈ i.sync.semantics)
    (hscope : .workgroup < i.sync.scope) {k : Storage} (hk : k ∈ i.sync.storage)
    (hordered : k ∈ i.orderedStorage s i.sync {.acquire}) :
    (c'.deferAfter s i).Asks s.generation (c'.deferAfter s i).Slack
      ⟨.acquire, k, i.sync.scope, .ofEvent s i ev⟩ := by
  have hasks := (asks_acquireDependency hstart hev hordered).defer hc hgroup hk hscope .acquire hk
  obtain ⟨-, -, hvm, hlgkm, -⟩ := defer_frame c' s i.sync .acquireDependency .acquire
  rw [Context.deferAfter, if_pos hacquire, deferAcquire, slack_of_frame hvm hlgkm]
  exact hasks

end Context

/-! ### Paying -/

namespace Demand

/-- Past the workgroup a demand is paid in full. -/
lemma payment_of_wide {d : Demand} (hscope : .workgroup < d.scope) {ev : Event} (hev : ev ∈ d.events)
    (s : Setting) (i : Instruction) : (d.payment s i).wait = d.wait := by
  have hgroup : decide (d.scope ≤ .workgroup) = false := by
    rw [decide_eq_false_iff_not]
    exact Nat.not_le.2 hscope
  have hevents : (d.events \ (∅ : EventSet)) \ (∅ : EventSet) = d.events := by
    apply EventSet.ext
    simp
  simp only [payment, hgroup, Bool.false_and, Bool.false_eq_true, if_false, hevents,
    EventSet.isEmpty_eq_false_iff.2 ⟨ev, hev⟩]

end Demand

namespace Barrier

/-- A payment is as strong as that of each class. -/
lemma payment_le {b : Barrier} {s : Setting} {i : Instruction} {storage : StorageSet} {k : Storage}
    (hlive : b.live = true) (hk : k ∈ storage) (hlisted : k ∈ b.storage) :
    (b.payment s i storage).wait ≤ ((b.demand k).payment s i).wait := by
  have hfold : ∀ (l : List Storage) (q : Queue),
      (l.foldl (fun q k => q.both ((b.demand k).payment s i)) q).wait ≤ q.wait := by
    intro l
    induction l with
    | nil => exact fun q => Wait.le_refl _
    | cons k l ih => exact fun q => Wait.le_trans (ih _) (Wait.both_le_left _ _)
  have hmem : k ∈ (storage ∩ b.storage).toList := by
    rw [Flags.toList, List.mem_filter, decide_eq_true_eq, Flags.mem_inter]
    exact ⟨k.mem_all, hk, hlisted⟩
  obtain ⟨before, behind, hl⟩ := List.append_of_mem hmem
  rw [payment, if_pos hlive, hl, List.foldl_append, List.foldl_cons]
  exact Wait.le_trans (hfold behind _) (Wait.both_le_right _ _)

end Barrier

namespace Context

variable {s : Setting} {c : Context} {i : Instruction} {d : Debt} {w : Wait}

/-- The instruction pays what a memory asks for past the workgroup. -/
lemma Asks.isComplete (h : c.Asks s.generation c.Slack d) (hc : c.Sound s.generation)
    (hscope : .workgroup < d.scope) {storage : StorageSet} (hk : d.storage ∈ storage)
    (hle : w ≤ ((c.barrier d.role).payment s i storage).wait) (hflat : c.CoversFlat w) :
    d.op.isComplete w = true := by
  obtain ⟨hlisted, hlive⟩ := h.listed hc
  have hwide : .workgroup < ((c.barrier d.role).demand d.storage).scope :=
    Nat.lt_of_lt_of_le hscope h.scope
  have hpaid := Wait.le_trans hle (Barrier.payment_le hlive hk hlisted)
  rw [Demand.payment_of_wide hwide h.event] at hpaid
  exact Demand.Asks.isComplete h hflat.get_eq_zero (hpaid _)

end Context

/-! ### Ledgers -/

/-- The debts at a point of the code. -/
abbrev Ledger := Set Debt

namespace Ledger

/-- What is owed behind an edit of the code.  Debts stay until they are complete.  An access that is not
private is owed to releases, and one that acquires past the workgroup is owed to later accesses.  Where
a barrier is taken out that releases past the workgroup, what is owed to releases is deferred, on behalf
of all classes of the barrier. -/
inductive Next (s : Setting) (x : Ledger) : Edit → Debt → Prop where
  | pass {e : Edit} {d : Debt} {o : Operation} (hd : d ∈ x) (ho : d.op.run? s e.after = some o) :
    Next s x e { d with op := o }
  | access {i kept : Instruction} {ev : Event} {k : Storage}
    (hev : .issue ev kept.sync ∈ kept.effects s) (hshared : .unshared ∉ kept.sync.semantics)
    (hk : k ∈ kept.sync.storage) :
    Next s x (.keep i kept) ⟨.releaseDependency, k, .invocation, .ofEvent s kept ev⟩
  | acquire {i kept : Instruction} {ev : Event} {k : Storage}
    (hev : .issue ev kept.sync ∈ kept.effects s) (hacquire : .acquire ∈ kept.sync.semantics)
    (hscope : .workgroup < kept.sync.scope) (hk : k ∈ kept.sync.storage)
    (hordered : k ∈ kept.orderedStorage s kept.sync {.acquire}) :
    Next s x (.keep i kept) ⟨.acquire, k, kept.sync.scope, .ofEvent s kept ev⟩
  | release {i : Instruction} {d : Debt} {k : Storage} (hd : d ∈ x)
    (hrole : d.role = .releaseDependency) (hrelease : .release ∈ i.sync.semantics)
    (hstorage : d.storage ∈ i.sync.storage) (hscope : .workgroup < i.sync.scope)
    (hk : k ∈ i.sync.storage) :
    Next s x (.take i) ⟨.release, k, i.sync.scope, d.op⟩

/-- The instruction has to wait for what is owed. -/
inductive Pays (s : Setting) (i : Instruction) : Debt → Prop where
  /-- A deferred release, where the instruction makes results visible. -/
  | release {d : Debt} (hrole : d.role = .release)
    (hk : d.storage ∈ i.orderedStorage s i.sync {.release}) (hscope : .workgroup < d.scope) :
    Pays s i d
  /-- What the instruction releases itself. -/
  | own {d : Debt} (hrole : d.role = .releaseDependency) (hrelease : .release ∈ i.sync.semantics)
    (hstorage : d.storage ∈ i.sync.storage) (hscope : .workgroup < i.sync.scope)
    (hk : d.storage ∈ i.orderedStorage s i.sync {.release}) : Pays s i d
  /-- A deferred acquire, where the instruction touches memory that others share. -/
  | acquire {d : Debt} (hrole : d.role = .acquire) (hshared : .unshared ∉ i.sync.semantics)
    (hk : d.storage ∈ i.sync.storage) (hscope : .workgroup < d.scope) : Pays s i d

/-- The context is right about what is owed once the wait has been carried out. -/
structure Agrees (s : Setting) (c : Context) (x : Ledger) (w : Wait) : Prop where
  sound : c.Sound s.generation
  asks : ∀ d ∈ x, d.op.isComplete w = false → c.Asks s.generation c.Slack d

variable {s : Setting} {c c' : Context} {x : Ledger} {i kept : Instruction} {v w : Wait} {d : Debt}

lemma Pays.takesOver (htakes : i.TakesOver kept) (h : Pays s kept d) : Pays s i d := by
  obtain ⟨hsync, -, -, -, -, hordered⟩ := htakes.memory_eq (s := s)
  cases h with
  | release hrole hk hscope => exact .release hrole (hsync ▸ hordered ▸ hk) hscope
  | own hrole hrelease hstorage hscope hk =>
    exact .own hrole (hsync ▸ hrelease) (hsync ▸ hstorage) (hsync ▸ hscope) (hsync ▸ hordered ▸ hk)
  | acquire hrole hshared hk hscope => exact .acquire hrole (hsync ▸ hshared) (hsync ▸ hk) hscope

/-- It does not matter how old the operation is. -/
lemma Pays.of_op (h : Pays s i d) (o : Operation) : Pays s i { d with op := o } := by
  cases h with
  | release hrole hk hscope => exact .release hrole hk hscope
  | own hrole hrelease hstorage hscope hk => exact .own hrole hrelease hstorage hscope hk
  | acquire hrole hshared hk hscope => exact .acquire hrole hshared hk hscope

/-- The wait in front of an instruction completes what the instruction has to pay. -/
lemma Agrees.paid {q q' : Queue} (hgroup : s.config.waveSize < s.config.workgroupSize)
    (h : Agrees s c x q.wait) (haw : Context.Awaited s i c q c' q') (hd : d ∈ x)
    (hpays : Pays s i d) : d.op.isComplete q'.wait = true := by
  by_contra hnot
  have hasks := h.asks d hd (Operation.not_isComplete_of_le haw.queued (by simpa using hnot))
  have hsound := h.sound.deferBefore s i
  have hreleased : q'.wait ≤ (((c.deferBefore s i).barrier .release).payment s i
      (i.orderedStorage s i.sync {.release})).wait :=
    Wait.le_trans haw.paid (Wait.both_le_left _ _)
  cases hpays with
  | release hrole hk hscope =>
    rw [← hrole] at hreleased
    exact hnot ((hasks.deferBefore i).isComplete hsound hscope hk hreleased haw.flat)
  | own hrole hrelease hstorage hscope hk =>
    exact hnot ((hasks.deferBefore_release h.sound hgroup hrole hrelease hstorage hscope
      hstorage).isComplete hsound hscope hk hreleased haw.flat)
  | acquire hrole hshared hk hscope =>
    have hpaid : q'.wait ≤ (((c.deferBefore s i).barrier d.role).payment s i i.sync.storage).wait := by
      have := Wait.le_trans haw.paid (Wait.both_le_right _ _)
      rw [if_neg hshared] at this
      rw [hrole]
      exact this
    exact hnot ((hasks.deferBefore i).isComplete hsound hscope hk hpaid haw.flat)

/-- Instructions that only wait or send a message leave the context right. -/
lemma Agrees.put (h : Agrees s c x ((Checker.ownWait i).both v)) :
    Agrees s c {d | Next s x (.put i) d} v := by
  refine ⟨h.sound, fun d hd hnot => ?_⟩
  cases hd with
  | @pass _ d o hd ho =>
    obtain ⟨hown, rfl⟩ := Operation.run?_singleton.1 ho
    have hold : d.op.isComplete ((Checker.ownWait i).both v) = false := by
      rw [Operation.isComplete_both, hown, Operation.not_isComplete_of_issues hnot, Bool.or_self]
    exact (h.asks d hd hold).issues _ _

/-- What an instruction has to pay stays paid. -/
lemma ready_put {j : Instruction}
    (h : ∀ d ∈ x, Pays s j d → d.op.isComplete ((Checker.ownWait i).both v) = true) :
    ∀ d ∈ {d | Next s x (.put i) d}, Pays s j d → d.op.isComplete v = true := by
  intro d hd hpays
  cases hd with
  | @pass _ d o hd ho =>
    obtain ⟨hown, rfl⟩ := Operation.run?_singleton.1 ho
    have hpaid := h d hd (hpays.of_op d.op)
    rw [Operation.isComplete_both, Bool.or_eq_true] at hpaid
    exact Operation.isComplete_issues (hpaid.resolve_left (by simp [hown]))

/-- Where a directive is taken out, the context defers what the ledger defers. -/
lemma Agrees.take (hgroup : s.config.waveSize < s.config.workgroupSize) (h : Agrees s c x w) :
    Agrees s (c.deferBefore s i) {d | Next s x (.take i) d} w := by
  refine ⟨h.sound.deferBefore s i, fun d hd hnot => ?_⟩
  cases hd with
  | pass hd ho =>
    cases ho
    exact (h.asks _ hd hnot).deferBefore i
  | release hd hrole hrelease hstorage hscope hk =>
    exact (h.asks _ hd hnot).deferBefore_release h.sound hgroup hrole hrelease hstorage hscope hk

/-- Behind an instruction the context asks for what it has issued as well. -/
lemma Agrees.keep (hgroup : s.config.waveSize < s.config.workgroupSize) (htakes : i.TakesOver kept)
    (h : Agrees s c x (Checker.ownWait kept)) (hstart : c.start s i = .ok c') :
    Agrees s (c'.deferAfter s i) {d | Next s x (.keep i kept) d} .none := by
  obtain ⟨hsync, heffects, -, hinOrder, hraised, hordered⟩ := htakes.memory_eq (s := s)
  have hsound := h.sound.start hstart
  have hofEvent : ∀ ev, Operation.ofEvent s kept ev = .ofEvent s i ev := by
    intro ev
    rw [Operation.ofEvent, Operation.ofEvent, hinOrder]
  refine ⟨hsound.deferAfter s i, fun d hd _ => ?_⟩
  cases hd with
  | @pass _ d o hd ho =>
    obtain ⟨hown, rfl⟩ := Operation.run?_singleton.1 ho
    rw [hinOrder, hraised]
    exact ((h.asks d hd hown).start hstart).deferAfter i
  | access hev hshared hk =>
    rw [hsync] at hev hshared hk
    rw [hofEvent]
    exact (Context.asks_releaseDependency hstart (heffects ▸ hev)
      (Context.slack_of_unorderedFlat hstart) hk (.inl hshared)).deferAfter i
  | acquire hev hacquire hscope hk horder =>
    rw [hsync] at hev hacquire hscope hk horder
    rw [hofEvent, hsync]
    exact Context.asks_acquire hsound hgroup hstart (heffects ▸ hev) hacquire hscope hk
      (hordered ▸ horder)

/-- The instruction pays all its debts by itself, if the code before it does not. -/
def Run (s : Setting) (e : Edit) (x x' : Ledger) : Prop :=
  x' = {d | Next s x e d} ∧ ∀ i kept, e = .keep i kept →
    ∀ d ∈ x, Pays s kept d → d.op.isComplete (Checker.ownWait kept) = true

/-- What is owed to the memory, along the code that a walk puts out. -/
def view (s : Setting) (hgroup : s.config.waveSize < s.config.workgroupSize) : View s Ledger where
  Good i := i.isCoherent = true
  Run := Run s
  Rel := Agrees s
  Ready i x w := ∀ d ∈ x, Pays s i d → d.op.isComplete w = true
  coherent := id
  rel_mono hle h := ⟨h.sound, fun d hd hnot => h.asks d hd (Operation.not_isComplete_of_le hle hnot)⟩
  ready_mono hle h d hd hpays := Operation.isComplete_mono hle (h d hd hpays)
  settle hflat hsettle h := ⟨h.sound.settle hsettle, fun d hd hnot =>
    (h.asks d hd hnot).settle hsettle hnot hflat.get_eq_zero (Context.Slack.settle hsettle)⟩
  defer i h := ⟨h.sound.deferBefore s i, fun d hd hnot => (h.asks d hd hnot).deferBefore i⟩
  ready _ h haw d hd hpays := h.paid hgroup haw hd hpays
  take x _ _ := ⟨_, ⟨rfl, fun i kept h => by cases h⟩, fun c w h => h.take hgroup⟩
  putWait w x := ⟨_, ⟨rfl, fun i kept h => by cases h⟩, fun c v h => h.put, fun i v h => ready_put h⟩
  putOther := by
    intro j x hi
    have hown : ∀ v, (Checker.ownWait j).both v = v := by
      intro v
      rcases hi with ⟨w, rfl⟩ | ⟨-, rfl⟩ <;> exact Wait.none_both v
    exact ⟨_, ⟨rfl, fun i kept h => by cases h⟩, fun c v h => Agrees.put ((hown v).symm ▸ h),
      fun i v h => ready_put ((hown v).symm ▸ h)⟩
  keep _ _ htakes h hready hstart := ⟨_, ⟨rfl, fun i kept he d hd hpays => by
    cases he
    exact hready d hd (hpays.takesOver htakes)⟩, h.keep hgroup htakes hstart⟩

end Ledger

end GpuWaits
