/-
# The checker, key by key

Accesses do not influence each other: what the checker knows about the access with one key at the end
of a block is a function of what it knew at the entry (`Checker.carry`), and at the entry it is found
from the ends of the predecessors (`Checker.Entered`).  An access is described by two numbers, how far
away it is (`Checker.rank`) and whether its lanes are seen (`Checker.seen`); the rest is fixed by the
place where it started (`Checker.kind`).
-/
import GpuWaits.Proofs.Flight

namespace GpuWaits

/-- Two accesses that differ at most in how far away they are and in their lanes. -/
structure InFlight.Like (a b : InFlight) : Prop where
  write : a.write = b.write
  counter : a.counter = b.counter
  ordered : a.ordered = b.ordered

namespace InFlight

variable {a b c : InFlight} {g : Generation} {k : AccessKey} {ordered : Event → Bool}

lemma Like.refl (a : InFlight) : a.Like a := ⟨rfl, rfl, rfl⟩

lemma Like.symm (h : a.Like b) : b.Like a := ⟨h.write.symm, h.counter.symm, h.ordered.symm⟩

lemma Like.trans (h : a.Like b) (h' : b.Like c) : a.Like c :=
  ⟨h.write.trans h'.write, h.counter.trans h'.counter, h.ordered.trans h'.ordered⟩

lemma Like.eq (h : a.Like b) (hy : a.younger = b.younger) (hl : a.lanes = b.lanes) : a = b := by
  cases a
  cases b
  simp only at hy hl
  simp only [mk.injEq]
  exact ⟨h.write, h.counter, hy, h.ordered, hl⟩

lemma Aged.like (h : a.Aged g b) : b.Like a := ⟨h.write, h.counter, h.ordered⟩

/-- Of two accesses of one kind, the one that is nearer stays nearer. -/
lemma Like.issues_le (h : b.Like a) (hy : b.younger ≤ a.younger) (evs : List Event) :
    (b.issues g k ordered evs).younger ≤ (a.issues g k ordered evs).younger := by
  induction evs generalizing a b with
  | nil => exact hy
  | cons ev evs ih =>
    have hlike : (b.issue g k ordered ev).Like (a.issue g k ordered ev) :=
      ((aged_issue b g k ordered ev).like.trans h).trans (aged_issue a g k ordered ev).like.symm
    refine ih hlike ?_
    simp only [issue, h.ordered]
    split
    · rw [h.counter]
      exact Generation.oneMore_le_oneMore hy
    · exact hy

end InFlight

namespace Checker

variable {s : Setting} {k : AccessKey} {x y : Option InFlight} {i : Instruction} {place : Place}

/-! ### Describing an access -/

/-- How many operations are known to be behind the access; more than can be when there is none. -/
def rank : Option InFlight → Nat
  | some a => a.younger.toNat
  | none => UInt16.size

/-- The access may touch the lanes of the current logical path. -/
def seen : Option InFlight → Bool
  | some a => a.lanes
  | none => false

lemma exists_of_seen {x : Option InFlight} (h : seen x = true) :
    ∃ a, x = some a ∧ a.lanes = true := by
  cases x with
  | none => cases h
  | some a => exact ⟨a, rfl, h⟩

lemma rank_some_lt (a : InFlight) : rank (some a) < UInt16.size := a.younger.toNat_lt

lemma rank_le (x : Option InFlight) : rank x ≤ UInt16.size := by
  cases x with
  | none => exact Nat.le_refl _
  | some a => exact Nat.le_of_lt (rank_some_lt a)

lemma isSome_iff_rank_lt : x.isSome = true ↔ rank x < UInt16.size := by
  cases x with
  | none => simp [rank]
  | some a => simpa using rank_some_lt a

/-- The access is of a given kind, and no further away than the counters can tell. -/
def OfKind (g : Generation) (kind : InFlight) (x : Option InFlight) : Prop :=
  ∀ a, x = some a → a.Like kind ∧ a.younger ≤ g.horizon.get a.counter

lemma ofKind_none (g : Generation) (kind : InFlight) : OfKind g kind none := fun _ h => by cases h

/-- There is more to be said about `y` than about `x`: it is there if `x` is, not further away, and
its lanes are seen if `lanes` asks for that. -/
def Refines (lanes : Bool) (y x : Option InFlight) : Prop :=
  ∀ a, x = some a → ∃ b, y = some b ∧ b.Like a ∧ b.younger ≤ a.younger
    ∧ (lanes = true → a.lanes = true → b.lanes = true)

lemma refines_of_rank_le {g : Generation} {kind : InFlight} {lanes : Bool} (hx : OfKind g kind x)
    (hy : OfKind g kind y) (hr : rank y ≤ rank x)
    (hs : lanes = true → seen x = true → seen y = true) : Refines lanes y x := by
  rintro a rfl
  cases y with
  | none => exact absurd (rank_some_lt a) (Nat.not_lt.2 hr)
  | some b =>
    exact ⟨b, rfl, (hy b rfl).1.trans (hx a rfl).1.symm, UInt16.le_iff_toNat_le.2 hr, hs⟩

lemma refines_false_of_rank_le {g : Generation} {kind : InFlight} (hx : OfKind g kind x)
    (hy : OfKind g kind y) (hr : rank y ≤ rank x) : Refines false y x :=
  refines_of_rank_le hx hy hr fun h => by cases h

lemma Refines.rank_le {lanes : Bool} (h : Refines lanes y x) : rank y ≤ rank x := by
  cases x with
  | none => exact Checker.rank_le y
  | some a =>
    obtain ⟨b, rfl, -, hle, -⟩ := h a rfl
    exact UInt16.le_iff_toNat_le.1 hle

lemma Refines.seen (h : Refines true y x) (hx : seen x = true) : Checker.seen y = true := by
  cases x with
  | none => cases hx
  | some a =>
    obtain ⟨b, rfl, -, -, hl⟩ := h a rfl
    exact hl rfl hx

lemma Refines.refl (lanes : Bool) (x : Option InFlight) : Refines lanes x x :=
  fun a ha => ⟨a, ha, .refl a, UInt16.le_refl _, fun _ => id⟩

lemma Refines.trans {lanes : Bool} {z : Option InFlight} (h : Refines lanes z y)
    (h' : Refines lanes y x) : Refines lanes z x := by
  intro a ha
  obtain ⟨b, hb, hba, hle, hlanes⟩ := h' a ha
  obtain ⟨c, hc, hcb, hle', hlanes'⟩ := h b hb
  exact ⟨c, hc, hcb.trans hba, UInt16.le_trans hle' hle, fun hl => hlanes' hl ∘ hlanes hl⟩

lemma refines_true_iff : Refines true y x ↔ Refines false y x ∧ (seen x = true → seen y = true) := by
  constructor
  · refine fun h => ⟨fun a ha => ?_, h.seen⟩
    obtain ⟨b, hb, hlike, hle, -⟩ := h a ha
    exact ⟨b, hb, hlike, hle, fun hl => by cases hl⟩
  · rintro ⟨h, hs⟩ a rfl
    obtain ⟨b, rfl, hlike, hle, -⟩ := h a rfl
    exact ⟨b, rfl, hlike, hle, fun _ => hs⟩

/-- The two numbers and the kind tell all about an access. -/
lemma eq_of_rank_eq {g : Generation} {kind : InFlight} (hx : OfKind g kind x) (hy : OfKind g kind y)
    (hr : rank x = rank y) (hs : seen x = seen y) : x = y := by
  cases x with
  | none =>
    cases y with
    | none => rfl
    | some b => exact absurd (rank_some_lt b) (by rw [← hr]; exact Nat.lt_irrefl _)
  | some a =>
    cases y with
    | none => exact absurd (rank_some_lt a) (by rw [hr]; exact Nat.lt_irrefl _)
    | some b =>
      exact congrArg some (((hx a rfl).1.trans (hy b rfl).1.symm).eq (UInt16.toNat_inj.1 hr) hs)

/-! ### Through a block -/

/-- What a step makes of the access with the key `k`. -/
def carryStep (s : Setting) (k : AccessKey) (place : Place) (i : Instruction)
    (x : Option InFlight) : Option InFlight :=
  (fresh s place i k).or ((x.filter fun a => !decide ((ownWait i).Completes a)).map
    (·.issues s.generation k (i.inOrder s.generation) (i.raised s)))

/-- What some instructions, from place `index` of a block on, make of the access with the key `k`. -/
def carry (s : Setting) (k : AccessKey) (block : Nat) :
    Nat → List Instruction → Option InFlight → Option InFlight
  | _, [], x => x
  | index, i :: rest, x => carry s k block (index + 1) rest (carryStep s k (.code block index) i x)

lemma getElem?_step_eq {p p' : Pending} {found : List Finding}
    (h : step s p place i = .ok (p', found)) (k : AccessKey) :
    p'[k]? = carryStep s k place i p[k]? := by
  have hwait : (p.wait (ownWait i))[k]?
      = p[k]?.filter fun a => !decide ((ownWait i).Completes a) := by
    apply Option.ext
    intro a
    rw [Pending.getElem?_wait, Option.filter_eq_some_iff]
    simp
  rw [getElem?_step h, hwait]
  rfl

lemma getElem?_steps {block index : Nat} {is : List Instruction} {p p' : Pending}
    {found : List Finding} (h : steps s block index is p = .ok (p', found)) (k : AccessKey) :
    p'[k]? = carry s k block index is p[k]? := by
  induction is generalizing index p found with
  | nil =>
    cases h
    rfl
  | cons i rest ih =>
    simp only [steps, bind_eq_ok, pure_eq_ok, Prod.exists, Prod.mk.injEq] at h
    obtain ⟨p₁, found₁, hstep, p₂, found₂, hrest, rfl, -⟩ := h
    rw [ih hrest, getElem?_step_eq hstep]
    rfl

lemma getElem?_stepBlock {block : Nat} {b : Block} {p p' : Pending} {found : List Finding}
    (h : stepBlock s block b p = .ok (p', found)) (k : AccessKey) :
    p'[k]? = carry s k block 0 b.instructions p[k]? := by
  simp only [stepBlock, bind_eq_ok, pure_eq_ok, Prod.exists, Prod.mk.injEq] at h
  obtain ⟨p₁, found₁, hsteps, rfl, -⟩ := h
  exact getElem?_steps hsteps k

/-- What has started before an instruction is compared behind it as in front of it. -/
lemma Refines.passes {lanes : Bool} (h : Refines lanes y x) (s : Setting) (k : AccessKey)
    (i : Instruction) :
    Refines lanes
      ((y.filter fun a => !decide ((ownWait i).Completes a)).map
        (·.issues s.generation k (i.inOrder s.generation) (i.raised s)))
      ((x.filter fun a => !decide ((ownWait i).Completes a)).map
        (·.issues s.generation k (i.inOrder s.generation) (i.raised s))) := by
  intro a ha
  obtain ⟨a₀, ha₀, rfl⟩ := Option.map_eq_some_iff.1 ha
  obtain ⟨ha₀, hnot⟩ := Option.filter_eq_some_iff.1 ha₀
  obtain ⟨b₀, rfl, hlike, hle, hl⟩ := h a₀ ha₀
  simp only [Bool.not_eq_true', decide_eq_false_iff_not] at hnot
  -- What is nearer completes later.
  have hnot' : ¬(ownWait i).Completes b₀ := fun hc =>
    hnot ⟨hlike.counter ▸ hc.1, hlike.counter ▸ UInt16.le_trans hc.2 hle⟩
  have hag := InFlight.aged_issues a₀ s.generation k (i.inOrder s.generation) (i.raised s)
  have hbg := InFlight.aged_issues b₀ s.generation k (i.inOrder s.generation) (i.raised s)
  refine ⟨b₀.issues s.generation k (i.inOrder s.generation) (i.raised s), by simp [hnot'],
    (hbg.like.trans hlike).trans hag.like.symm, hlike.issues_le hle _, fun hlanes => ?_⟩
  rw [hag.lanes, hbg.lanes]
  exact hl hlanes

lemma Refines.carryStep {lanes : Bool} (h : Refines lanes y x) :
    Refines lanes (carryStep s k place i y) (carryStep s k place i x) := by
  intro a ha
  rw [Checker.carryStep, Option.or_eq_some_iff] at ha
  rcases ha with ha | ⟨hnone, ha⟩
  · exact ⟨a, by rw [Checker.carryStep, ha, Option.some_or], .refl a, UInt16.le_refl _, fun _ => id⟩
  · rw [Checker.carryStep, hnone, Option.none_or]
    exact h.passes s k i a ha

lemma Refines.carry {lanes : Bool} {block index : Nat} {is : List Instruction}
    (h : Refines lanes y x) :
    Refines lanes (carry s k block index is y) (carry s k block index is x) := by
  induction is generalizing index x y with
  | nil => exact h
  | cons i rest ih => exact ih h.carryStep

/-- How far away an access is at the end hangs on how far away it is at the entry, not on lanes. -/
lemma rank_carry_eq {g : Generation} {kind : InFlight} (hx : OfKind g kind x)
    (hy : OfKind g kind y) (hr : rank y = rank x) (block index : Nat) (is : List Instruction) :
    rank (carry s k block index is y) = rank (carry s k block index is x) := by
  exact Nat.le_antisymm (refines_false_of_rank_le hx hy (Nat.le_of_eq hr)).carry.rank_le
    (refines_false_of_rank_le hy hx (Nat.le_of_eq hr.symm)).carry.rank_le

/-- A block either starts the access anew or completes it, whatever comes in, or the access moves
further away. -/
lemma carry_eq_or_rank_le (block index : Nat) (is : List Instruction)
    (hb : ∀ a, x = some a → a.younger ≤ s.generation.horizon.get a.counter) :
    carry s k block index is x = carry s k block index is none
      ∨ rank x ≤ rank (carry s k block index is x) := by
  induction is generalizing index x with
  | nil => exact .inr (Nat.le_refl _)
  | cons i rest ih =>
    simp only [carry]
    cases hf : fresh s (.code block index) i k with
    | some a =>
      refine .inl ?_
      simp only [carryStep, hf, Option.some_or]
    | none =>
      have hnone : carryStep s k (.code block index) i none = none := by simp [carryStep, hf]
      rw [hnone]
      cases hx : carryStep s k (.code block index) i x with
      | none => exact .inl rfl
      | some a' =>
        rw [carryStep, hf, Option.none_or] at hx
        obtain ⟨a, ha, rfl⟩ := Option.map_eq_some_iff.1 hx
        obtain ⟨rfl, -⟩ := Option.filter_eq_some_iff.1 ha
        have hag := InFlight.aged_issues a s.generation k (i.inOrder s.generation) (i.raised s)
        refine (ih _ fun b hb' => ?_).imp id fun h => Nat.le_trans ?_ h
        · cases hb'
          rw [hag.counter]
          exact hag.bounded (hb a rfl)
        · exact UInt16.le_iff_toNat_le.1 (hag.younger (hb a rfl))

/-! ### Kinds -/

/-- The kind of the accesses with the key `k`, as the argument or the instruction at their origin
starts them. -/
def kind (p : Program) (k : AccessKey) : InFlight :=
  let argument : InFlight :=
    { write := true, counter := (p.config.generation.counter? k.event).getD .exp, younger := 0,
      ordered := true, lanes := true }
  match k.origin with
  | .argument _ => argument
  | .code block index =>
    ((p.blocks[block]?.bind fun b => b.instructions[index]?).bind fun i =>
      fresh (setting p) k.origin i k).getD argument

/-- All accesses are of their kinds. -/
def Kindly (p : Program) (q : Pending) : Prop :=
  ∀ k : AccessKey, OfKind p.config.generation (kind p k) q[k]?

variable {p : Program} {b : Block} {block : Nat}

lemma ofKind_fresh (hb : p.blocks[block]? = some b) {index : Nat}
    (hi : b.instructions[index]? = some i) :
    OfKind p.config.generation (kind p k) (fresh (setting p) (.code block index) i k) := by
  intro a ha
  obtain ⟨x, -, hk, hx⟩ := newAmong_eq_some ha
  have horigin : k.origin = .code block index := by rw [hk]
  refine ⟨?_, by rw [hx]; exact UInt16.le_iff_toNat_le.2 (Nat.zero_le _)⟩
  simp only [kind, horigin, hb, hi, Option.bind_some, ha, Option.getD_some]
  exact .refl a

lemma OfKind.carryStep (hb : p.blocks[block]? = some b) {index : Nat}
    (hi : b.instructions[index]? = some i) (hx : OfKind p.config.generation (kind p k) x) :
    OfKind p.config.generation (kind p k) (carryStep (setting p) k (.code block index) i x) := by
  intro a ha
  rw [Checker.carryStep, Option.or_eq_some_iff] at ha
  rcases ha with ha | ⟨-, ha⟩
  · exact ofKind_fresh hb hi a ha
  · obtain ⟨a₀, ha₀, rfl⟩ := Option.map_eq_some_iff.1 ha
    obtain ⟨hlike, hle⟩ := hx a₀ (Option.filter_eq_some_iff.1 ha₀).1
    have hag := InFlight.aged_issues a₀ (setting p).generation k
      (i.inOrder (setting p).generation) (i.raised (setting p))
    refine ⟨hag.like.trans hlike, ?_⟩
    rw [hag.counter]
    exact hag.bounded hle

lemma getElem?_of_drop {is rest : List Instruction} {index : Nat} (h : is.drop index = i :: rest) :
    is[index]? = some i ∧ is.drop (index + 1) = rest := by
  rw [← List.head?_drop, ← List.drop_drop, h]
  exact ⟨rfl, rfl⟩

lemma OfKind.carry (hb : p.blocks[block]? = some b) {index : Nat} {is : List Instruction}
    (his : b.instructions.drop index = is) (hx : OfKind p.config.generation (kind p k) x) :
    OfKind p.config.generation (kind p k) (carry (setting p) k block index is x) := by
  induction is generalizing index x with
  | nil => exact hx
  | cons i rest ih =>
    obtain ⟨hi, hrest⟩ := getElem?_of_drop his
    exact ih hrest (hx.carryStep hb hi)

lemma Kindly.stepBlock {q q' : Pending} {found : List Finding} (hb : p.blocks[block]? = some b)
    (hq : Kindly p q) (h : stepBlock (setting p) block b q = .ok (q', found)) : Kindly p q' := by
  intro k
  rw [getElem?_stepBlock h]
  exact (hq k).carry hb rfl

/-! ### At the entry of a block -/

/-- The access with the key `k` at the end of block `n`. -/
def exitAt (flows : List Flow) (k : AccessKey) (n : Nat) : Option InFlight :=
  (flows[n]?.getD {}).exit[k]?

/-- The predecessors from which the access with the key `k` comes in. -/
def sources (p : Program) (b : Block) (k : AccessKey) : List UInt32 :=
  if 1 < b.logicalPreds.length then
    b.logicalPreds ++ if isLaneless p.blocks k.origin then
      b.linearPreds.filter fun pred => !b.logicalPreds.contains pred
    else []
  else b.linearPreds

lemma exitOf_eq_ok {flows : List Flow} {pred : UInt32} {q : Pending}
    (h : exitOf flows pred = .ok q) (k : AccessKey) : q[k]? = exitAt flows k pred.toNat := by
  rw [exitOf] at h
  rw [exitAt]
  split at h
  · cases h
    rw [‹flows[pred.toNat]? = _›]
    rfl
  · cases h

/-- What is found about one access when the ends of some predecessors come in. -/
structure Gathered (flows : List Flow) (lanes accepts : Bool) (k : AccessKey)
    (preds : List UInt32) (x y : Option InFlight) : Prop where
  le_left : rank y ≤ rank x
  le : accepts = true → ∀ pred ∈ preds, rank y ≤ rank (exitAt flows k pred.toNat)
  attained : rank y = rank x
    ∨ accepts = true ∧ ∃ pred ∈ preds, rank y = rank (exitAt flows k pred.toNat)
  seen : seen y = (seen x
    || (lanes && accepts && preds.any fun pred => seen (exitAt flows k pred.toNat)))

lemma gathered_meetAll {flows : List Flow} {lanes : Bool} {accepts : AccessKey → Bool}
    {preds : List UInt32} {q q' : Pending} (h : meetAll flows lanes accepts preds q = .ok q')
    (k : AccessKey) : Gathered flows lanes (accepts k) k preds q[k]? q'[k]? := by
  induction preds generalizing q with
  | nil =>
    cases h
    exact ⟨Nat.le_refl _, fun _ _ h => (by cases h), .inl rfl, by simp⟩
  | cons pred preds ih =>
    simp only [meetAll, List.foldlM_cons, bind_eq_ok, pure_eq_ok] at h
    obtain ⟨_, ⟨exit, hexit, rfl⟩, h⟩ := h
    have hrest := ih h
    -- One step: the nearer of two, and the lanes of both.
    have hrank : rank (q.meet exit lanes accepts)[k]?
        = min (rank q[k]?) (if accepts k then rank (exitAt flows k pred.toNat) else UInt16.size) := by
      rw [← exitOf_eq_ok hexit, Pending.getElem?_meet]
      cases accepts k with
      | false =>
        rw [if_neg (by decide), if_neg (by decide), Nat.min_eq_left (rank_le _)]
        cases q[k]? <;> rfl
      | true =>
        rw [if_pos rfl, if_pos rfl]
        cases q[k]? with
        | none =>
          rw [show rank none = UInt16.size from rfl, Nat.min_eq_right (rank_le _)]
          cases exit[k]? <;> rfl
        | some a =>
          cases exit[k]? with
          | none => exact (Nat.min_eq_left (rank_le (some a))).symm
          | some b => exact Wait.toNat_min a.younger b.younger
    have hseen : seen (q.meet exit lanes accepts)[k]?
        = (seen q[k]? || (lanes && accepts k && seen (exitAt flows k pred.toNat))) := by
      rw [← exitOf_eq_ok hexit, Pending.getElem?_meet]
      cases hq : q[k]? <;> cases ho : exit[k]? <;> cases hacc : accepts k <;>
        simp [seen, Pending.meetOne]
    have hle := hrest.le_left
    rw [hrank] at hle
    refine ⟨by omega, fun hacc pred' hpred' => ?_, ?_, ?_⟩
    · rcases List.mem_cons.1 hpred' with rfl | hpred'
      · rw [if_pos hacc] at hle
        omega
      · exact hrest.le hacc pred' hpred'
    · rcases hrest.attained with heq | ⟨hacc, pred', hpred', heq⟩
      · rw [hrank] at heq
        by_cases hacc : accepts k = true
        · rw [if_pos hacc] at heq
          rcases Nat.le_total (rank q[k]?) (rank (exitAt flows k pred.toNat)) with hle' | hle'
          · exact .inl (heq.trans (Nat.min_eq_left hle'))
          · exact .inr ⟨hacc, pred, by simp, heq.trans (Nat.min_eq_right hle')⟩
        · rw [if_neg hacc] at heq
          exact .inl (heq.trans (Nat.min_eq_left (rank_le _)))
      · exact .inr ⟨hacc, pred', List.mem_cons_of_mem _ hpred', heq⟩
    · rw [hrest.seen, hseen, List.any_cons, Bool.or_assoc, Bool.and_or_distrib_left]

lemma getElem?_takeAllLanes {flows : List Flow} {preds : List UInt32} {q q' : Pending}
    (h : takeAllLanes flows preds q = .ok q') (k : AccessKey) :
    rank q'[k]? = rank q[k]? ∧ seen q'[k]?
      = (seen q[k]?
        || (q[k]?.isSome && preds.any fun pred => seen (exitAt flows k pred.toNat))) := by
  induction preds generalizing q with
  | nil =>
    cases h
    simp
  | cons pred preds ih =>
    simp only [takeAllLanes, List.foldlM_cons, bind_eq_ok, pure_eq_ok] at h
    obtain ⟨_, ⟨exit, hexit, rfl⟩, h⟩ := h
    obtain ⟨hrank, hseen⟩ := ih h
    rw [hrank, hseen, List.any_cons, ← exitOf_eq_ok hexit, Pending.getElem?_takeLanes]
    cases q[k]? with
    | none => simp [rank, seen]
    | some a => cases exit[k]? <;> simp [rank, seen, Bool.or_assoc]

/-- What is known about one access before any predecessor comes in. -/
def firstAt (start : Pending) (place : Nat) (k : AccessKey) : Option InFlight :=
  if place = 0 then start[k]? else none

/-- What is known about the access with the key `k` at the entry of a block: it is as near as at the
nearest of its sources, and its lanes are seen if they are seen along some logical edge. -/
structure Entered (p : Program) (flows : List Flow) (start : Pending) (place : Nat) (b : Block)
    (k : AccessKey) (x : Option InFlight) : Prop where
  le_first : rank x ≤ rank (firstAt start place k)
  le : ∀ pred ∈ sources p b k, rank x ≤ rank (exitAt flows k pred.toNat)
  attained : rank x = rank (firstAt start place k)
    ∨ ∃ pred ∈ sources p b k, rank x = rank (exitAt flows k pred.toNat)
  seen : seen x = (x.isSome && (seen (firstAt start place k)
    || b.logicalPreds.any fun pred => seen (exitAt flows k pred.toNat)))

/-- Lanes are seen only of what is there. -/
lemma isSome_of_seen (h : seen x = true) : x.isSome = true := by
  cases x with
  | none => cases h
  | some a => rfl

lemma seen_eq_isSome_and (x : Option InFlight) : seen x = (x.isSome && seen x) := by
  cases x <;> rfl

namespace Entered

variable {flows flows' : List Flow} {start : Pending} {place : Nat}

/-- Where lanes are seen at the entry, they are seen wherever more comes in along the same edges. -/
lemma seen_mono {p' : Program} {b' : Block} {k' : AccessKey} (h : Entered p flows start place b k x)
    (h' : Entered p' flows' start place b' k' y) (hpreds : b.logicalPreds = b'.logicalPreds)
    (hrank : rank y ≤ rank x) (hfirst : Checker.seen (firstAt start place k) = true →
      Checker.seen (firstAt start place k') = true)
    (hseen : ∀ n, Checker.seen (exitAt flows k n) = true →
      Checker.seen (exitAt flows' k' n) = true)
    (hx : Checker.seen x = true) : Checker.seen y = true := by
  rw [h.seen, Bool.and_eq_true, Bool.or_eq_true, List.any_eq_true] at hx
  rw [h'.seen, Bool.and_eq_true, Bool.or_eq_true, List.any_eq_true]
  refine ⟨isSome_iff_rank_lt.2 (Nat.lt_of_le_of_lt hrank (isSome_iff_rank_lt.1 hx.1)), ?_⟩
  rcases hx.2 with hs | ⟨pred, hpred, hs⟩
  · exact .inl (hfirst hs)
  · exact .inr ⟨pred, hpreds ▸ hpred, hseen _ hs⟩

/-- What is nearer at the ends of the blocks is nearer at the entry. -/
lemma rank_le (h : Entered p flows start place b k x) (h' : Entered p flows' start place b k y)
    (hle : ∀ n, rank (exitAt flows' k n) ≤ rank (exitAt flows k n)) : rank y ≤ rank x := by
  rcases h.attained with heq | ⟨pred, hpred, heq⟩
  · exact heq ▸ h'.le_first
  · exact heq ▸ Nat.le_trans (h'.le pred hpred) (hle pred.toNat)

/-- Lanes that come to be seen at the entry, of an access that is as near as before, come to be seen at
a logical predecessor. -/
lemma exists_newly_seen (h : Entered p flows start place b k x)
    (h' : Entered p flows' start place b k y) (hrank : rank x = rank y)
    (hx : Checker.seen x = false) (hy : Checker.seen y = true) :
    ∃ pred ∈ b.logicalPreds, Checker.seen (exitAt flows' k pred.toNat) = true
      ∧ Checker.seen (exitAt flows k pred.toNat) = false := by
  rw [h'.seen, Bool.and_eq_true, Bool.or_eq_true, List.any_eq_true] at hy
  rw [h.seen, isSome_iff_rank_lt.2 (hrank ▸ isSome_iff_rank_lt.1 hy.1), Bool.true_and,
    Bool.or_eq_false_iff, List.any_eq_false] at hx
  rcases hy.2 with hfirst | ⟨pred, hpred, hs⟩
  · rw [hx.1] at hfirst
    cases hfirst
  · exact ⟨pred, hpred, hs, by simpa using hx.2 pred hpred⟩

end Entered

lemma entered_of_blockEntry {flows : List Flow} {start q : Pending} {place : Nat}
    (h : blockEntry p flows start place b = .ok q) (k : AccessKey) :
    Entered p flows start place b k q[k]? := by
  have hfirst : ((if place = 0 then start else ∅ : Pending))[k]? = firstAt start place k := by
    rw [firstAt]
    split <;> simp
  rw [blockEntry] at h
  dsimp only at h
  split at h
  · rename_i hmany
    obtain ⟨merged, hmerged, haround⟩ := bind_eq_ok.1 h
    have h₁ := gathered_meetAll hmerged k
    have h₂ := gathered_meetAll haround k
    rw [hfirst] at h₁
    have hsources : sources p b k = b.logicalPreds ++ if isLaneless p.blocks k.origin then
        b.linearPreds.filter fun pred => !b.logicalPreds.contains pred else [] := if_pos hmany
    refine ⟨Nat.le_trans h₂.le_left h₁.le_left, fun pred hpred => ?_, ?_, ?_⟩
    · rw [hsources, List.mem_append] at hpred
      rcases hpred with hpred | hpred
      · exact Nat.le_trans h₂.le_left (h₁.le rfl pred hpred)
      · split at hpred
        · exact h₂.le ‹_› pred hpred
        · cases hpred
    · rw [hsources]
      rcases h₂.attained with heq | ⟨hacc, pred, hpred, heq⟩
      · rcases h₁.attained with heq' | ⟨-, pred, hpred, heq'⟩
        · exact .inl (heq.trans heq')
        · exact .inr ⟨pred, List.mem_append_left _ hpred, heq.trans heq'⟩
      · exact .inr ⟨pred, List.mem_append_right _ (by rw [if_pos hacc]; exact hpred), heq⟩
    · rw [seen_eq_isSome_and, h₂.seen, h₁.seen]
      simp
  · rename_i hfew
    obtain ⟨linear, hlinear, hlanes⟩ := bind_eq_ok.1 h
    have h₁ := gathered_meetAll hlinear k
    obtain ⟨hrank, hseen⟩ := getElem?_takeAllLanes hlanes k
    rw [hfirst] at h₁
    have hsources : sources p b k = b.linearPreds := if_neg hfew
    rw [hsources.symm] at h₁
    have hsome : q[k]?.isSome = linear[k]?.isSome := by
      rw [Bool.eq_iff_iff, isSome_iff_rank_lt, isSome_iff_rank_lt, hrank]
    refine ⟨hrank ▸ h₁.le_left, fun pred hpred => hrank ▸ h₁.le rfl pred hpred, ?_, ?_⟩
    · rw [hrank]
      exact h₁.attained.imp id And.right
    · have hbase : seen linear[k]? = seen (firstAt start place k) := by simpa using h₁.seen
      rw [hseen, seen_eq_isSome_and linear[k]?, hbase, hsome, Bool.and_or_distrib_left]

/-! ### Kinds at the entry -/

lemma Kindly.meet {q o : Pending} (hq : Kindly p q) (ho : Kindly p o) (lanes : Bool)
    (accepts : AccessKey → Bool) : Kindly p (q.meet o lanes accepts) := by
  intro k a ha
  rw [Pending.getElem?_meet] at ha
  cases hqk : q[k]? with
  | none =>
    cases hok : (if accepts k then o[k]? else none) with
    | none =>
      rw [hqk, hok] at ha
      cases ha
    | some b =>
      rw [hqk, hok] at ha
      cases ha
      have hb : o[k]? = some b := by
        split at hok
        · exact hok
        · cases hok
      obtain ⟨hlike, hle⟩ := ho k b hb
      exact ⟨⟨hlike.write, hlike.counter, hlike.ordered⟩, hle⟩
  | some x =>
    obtain ⟨hlike, hle⟩ := hq k x hqk
    cases hok : (if accepts k then o[k]? else none) with
    | none =>
      rw [hqk, hok] at ha
      cases ha
      exact ⟨hlike, hle⟩
    | some b =>
      rw [hqk, hok] at ha
      cases ha
      exact ⟨⟨hlike.write, hlike.counter, hlike.ordered⟩,
        UInt16.le_trans (Wait.min_le_left _ _) hle⟩

lemma Kindly.takeLanes {q : Pending} (hq : Kindly p q) (o : Pending) : Kindly p (q.takeLanes o) := by
  intro k a ha
  rw [Pending.getElem?_takeLanes] at ha
  obtain ⟨x, hx, rfl⟩ := Option.map_eq_some_iff.1 ha
  obtain ⟨hlike, hle⟩ := hq k x hx
  split
  · exact ⟨⟨hlike.write, hlike.counter, hlike.ordered⟩, hle⟩
  · exact ⟨hlike, hle⟩

lemma kindly_empty (p : Program) : Kindly p ∅ := fun k => by
  rw [Std.ExtTreeMap.getElem?_empty]
  exact ofKind_none _ _

lemma Kindly.firstAt {start : Pending} (h : Kindly p start) (place : Nat) (k : AccessKey) :
    OfKind p.config.generation (kind p k) (firstAt start place k) := by
  rw [Checker.firstAt]
  split
  · exact h k
  · exact ofKind_none _ _

/-- The ends of all blocks hold accesses of their kinds. -/
def KindlyAll (p : Program) (flows : List Flow) : Prop :=
  ∀ k n, OfKind p.config.generation (kind p k) (exitAt flows k n)

lemma KindlyAll.exitOf {flows : List Flow} (h : KindlyAll p flows) {pred : UInt32} {q : Pending}
    (hq : exitOf flows pred = .ok q) : Kindly p q := fun k => exitOf_eq_ok hq k ▸ h k pred.toNat

lemma KindlyAll.blockEntry {flows : List Flow} (h : KindlyAll p flows) {start q : Pending}
    (hstart : Kindly p start) {place : Nat} (hq : blockEntry p flows start place b = .ok q) :
    Kindly p q := by
  have hmeet : ∀ {lanes : Bool} {accepts : AccessKey → Bool} {preds : List UInt32}
      {o o' : Pending}, Kindly p o → meetAll flows lanes accepts preds o = .ok o' → Kindly p o' := by
    intro lanes accepts preds o o' ho ho'
    refine foldlM_invariant (Kindly p) (fun pred _ x x' hx hx' => ?_) ho ho'
    obtain ⟨exit, hexit, hx'⟩ := bind_eq_ok.1 hx'
    rw [pure_eq_ok] at hx'
    exact hx' ▸ hx.meet (h.exitOf hexit) lanes accepts
  have hfirst : Kindly p (if place = 0 then start else ∅) := by
    split
    · exact hstart
    · exact kindly_empty p
  rw [Checker.blockEntry] at hq
  dsimp only at hq
  split at hq
  · obtain ⟨merged, hmerged, haround⟩ := bind_eq_ok.1 hq
    exact hmeet (hmeet hfirst hmerged) haround
  · obtain ⟨linear, hlinear, hlanes⟩ := bind_eq_ok.1 hq
    refine foldlM_invariant (Kindly p) (fun pred _ x x' hx hx' => ?_) (hmeet hfirst hlinear) hlanes
    obtain ⟨exit, -, hx'⟩ := bind_eq_ok.1 hx'
    rw [pure_eq_ok] at hx'
    exact hx' ▸ hx.takeLanes exit

lemma exitAt_set (flows : List Flow) (n : Nat) (flow : Flow) (k : AccessKey) (m : Nat) :
    exitAt (flows.set n flow) k m
      = if m = n ∧ n < flows.length then flow.exit[k]? else exitAt flows k m := by
  simp only [exitAt, List.getElem?_set]
  by_cases hm : n = m
  · subst hm
    by_cases hn : n < flows.length
    · simp [hn]
    · simp [hn]
  · rw [if_neg hm, if_neg fun h => hm h.1.symm]

lemma KindlyAll.flowBlock {flows next : List Flow} {start : Pending} (h : KindlyAll p flows)
    (hstart : Kindly p start) (hb : p.blocks[block]? = some b)
    (hnext : flowBlock p start flows block b = .ok next) : KindlyAll p next := by
  simp only [Checker.flowBlock, bind_eq_ok, pure_eq_ok, Prod.exists] at hnext
  obtain ⟨entry, hentry, exit, found, hstep, rfl⟩ := hnext
  intro k m
  rw [exitAt_set]
  split
  · exact (h.blockEntry hstart hentry).stepBlock hb hstep k
  · exact h k m

lemma KindlyAll.round {flows next : List Flow} {start : Pending} (h : KindlyAll p flows)
    (hstart : Kindly p start) (hnext : round p start flows = .ok next) : KindlyAll p next := by
  refine foldlM_invariant (KindlyAll p) (fun x hx o o' ho ho' => ?_) h hnext
  obtain ⟨b, n⟩ := x
  exact ho.flowBlock hstart (List.mem_zipIdx_iff_getElem?.1 (List.mem_filter.1 hx).1) ho'

/-- Nothing is in flight before the first round. -/
lemma exitAt_empty (blocks : List Block) (k : AccessKey) (n : Nat) :
    exitAt (blocks.map fun _ => {}) k n = none := by
  rw [exitAt, List.getElem?_map]
  cases blocks[n]? <;> exact Std.ExtTreeMap.getElem?_empty

lemma kindlyAll_empty (p : Program) : KindlyAll p (p.blocks.map fun _ => {}) := by
  intro k n
  rw [exitAt_empty]
  exact ofKind_none _ _

/-! ### Where the entry is taken from -/

lemma exitOf_congr {flows flows' : List Flow} (h : exits flows = exits flows') (pred : UInt32) :
    exitOf flows pred = exitOf flows' pred := by
  have hget : flows[pred.toNat]?.map Flow.exit = flows'[pred.toNat]?.map Flow.exit := by
    rw [← List.getElem?_map, ← List.getElem?_map]
    exact congrArg (·[pred.toNat]?) h
  rw [exitOf, exitOf]
  cases hf : flows[pred.toNat]? <;> cases hf' : flows'[pred.toNat]? <;> simp_all

/-- The entry of a block is found from the ends of the blocks. -/
lemma blockEntry_congr {flows flows' : List Flow} (h : exits flows = exits flows') (start : Pending)
    (place : Nat) (b : Block) :
    blockEntry p flows start place b = blockEntry p flows' start place b := by
  simp only [blockEntry, meetAll, takeAllLanes, exitOf_congr h]

lemma exitOf_total {flows : List Flow} {pred : UInt32} (h : pred.toNat < flows.length) :
    ∃ q, exitOf flows pred = .ok q := by
  rw [exitOf, List.getElem?_eq_getElem h]
  exact ⟨_, rfl⟩

lemma blockEntry_total {flows : List Flow}
    (h : ∀ pred ∈ b.linearPreds ++ b.logicalPreds, pred.toNat < flows.length) (start : Pending)
    (place : Nat) : ∃ q, blockEntry p flows start place b = .ok q := by
  have hmeet : ∀ (lanes : Bool) (accepts : AccessKey → Bool) (preds : List UInt32) (o : Pending),
      (∀ pred ∈ preds, pred.toNat < flows.length) →
        ∃ o', meetAll flows lanes accepts preds o = .ok o' := by
    intro lanes accepts preds o hpreds
    obtain ⟨o', ho', -⟩ := foldlM_total (l := preds)
      (f := fun p pred => return p.meet (← exitOf flows pred) lanes accepts) (b := o)
      (fun _ => True) (fun pred hpred x _ => by
        obtain ⟨exit, hexit⟩ := exitOf_total (hpreds pred hpred)
        exact ⟨_, by rw [hexit]; rfl, trivial⟩) trivial
    exact ⟨o', ho'⟩
  have hlinear : ∀ pred ∈ b.linearPreds, pred.toNat < flows.length := fun pred hp =>
    h pred (List.mem_append_left _ hp)
  have hlogical : ∀ pred ∈ b.logicalPreds, pred.toNat < flows.length := fun pred hp =>
    h pred (List.mem_append_right _ hp)
  rw [blockEntry]
  dsimp only
  split
  · obtain ⟨merged, hmerged⟩ := hmeet true (fun _ => true) b.logicalPreds
      (if place = 0 then start else ∅) hlogical
    rw [hmerged]
    exact hmeet _ _ _ merged fun pred hp => hlinear pred (List.mem_filter.1 hp).1
  · obtain ⟨linear, hlin⟩ := hmeet false (fun _ => true) b.linearPreds
      (if place = 0 then start else ∅) hlinear
    rw [hlin]
    obtain ⟨q, hq, -⟩ := foldlM_total (l := b.logicalPreds)
      (f := fun p pred => return p.takeLanes (← exitOf flows pred)) (b := linear)
      (fun _ => True) (fun pred hpred x _ => by
        obtain ⟨exit, hexit⟩ := exitOf_total (hlogical pred hpred)
        exact ⟨_, by rw [hexit]; rfl, trivial⟩) trivial
    exact ⟨q, hq⟩

/-! ### The start of the program -/

/-- An access on behalf of an argument, as the program starts. -/
def argumentAccess : InFlight :=
  { write := true, counter := .vm, younger := 0, ordered := true, lanes := true }

lemma getElem?_startUnits {g : Generation} {index : Nat} {units : List Reg} {q q' : Pending}
    (h : units.foldlM (fun q unit => q.start g ⟨.argument index, unit, .vmem⟩ true true) q = .ok q')
    (k : AccessKey) :
    q'[k]? = if k.origin = .argument index ∧ k.event = .vmem ∧ k.unit ∈ units
      then some argumentAccess else q[k]? := by
  induction units generalizing q with
  | nil =>
    cases h
    simp
  | cons unit units ih =>
    rw [List.foldlM_cons, bind_eq_ok] at h
    obtain ⟨o, ho, h⟩ := h
    simp only [Pending.start, bind_eq_ok, pure_eq_ok] at ho
    obtain ⟨c, hc, rfl⟩ := ho
    have hvm : c = .vm := by
      have := Generation.counter?_of_counterOf hc
      simpa [Generation.counter?, eq_comm] using this
    rw [ih h, Std.ExtTreeMap.getElem?_insert, hvm]
    by_cases hk : (⟨.argument index, unit, .vmem⟩ : AccessKey) = k
    · rw [← hk]
      simp [argumentAccess]
    · have hcmp : compare (⟨.argument index, unit, .vmem⟩ : AccessKey) k ≠ .eq := fun heq =>
        hk (Std.LawfulEqOrd.eq_of_compare heq)
      have hcond : (k.origin = .argument index ∧ k.event = .vmem ∧ k.unit ∈ unit :: units)
          ↔ (k.origin = .argument index ∧ k.event = .vmem ∧ k.unit ∈ units) := by
        constructor
        · rintro ⟨ho, he, hu⟩
          refine ⟨ho, he, (List.mem_cons.1 hu).resolve_left fun hu => hk ?_⟩
          obtain ⟨origin, r, event⟩ := k
          subst ho he hu
          rfl
        · rintro ⟨ho, he, hu⟩
          exact ⟨ho, he, List.mem_cons_of_mem _ hu⟩
      simp only [hcond, if_neg hcmp]

lemma Kindly.argument {q q' : Pending} (hq : Kindly p q) {index : Nat} {units : List Reg}
    (h : units.foldlM
      (fun q unit => q.start p.config.generation ⟨.argument index, unit, .vmem⟩ true true)
      (q.issue p.config.generation .vmem true) = .ok q') : Kindly p q' := by
  intro k a ha
  rw [getElem?_startUnits h] at ha
  split at ha
  · rename_i hk
    cases ha
    refine ⟨⟨?_, ?_, ?_⟩, UInt16.le_iff_toNat_le.2 (Nat.zero_le _)⟩ <;>
      simp [kind, argumentAccess, hk.1, hk.2.1, Generation.counter?]
  · rw [Pending.getElem?_issue q p.config.generation .vmem (fun _ => true)] at ha
    obtain ⟨a₀, ha₀, rfl⟩ := Option.map_eq_some_iff.1 ha
    have hag := InFlight.aged_issue a₀ p.config.generation k (fun _ => true) .vmem
    obtain ⟨hlike, hle⟩ := hq k a₀ ha₀
    refine ⟨hag.like.trans hlike, ?_⟩
    rw [hag.counter]
    exact hag.bounded hle

/-- What is in flight when the program starts is of its kind. -/
lemma kindly_startState {start : Pending} (h : startState p = .ok start) : Kindly p start := by
  refine foldlM_invariant (Kindly p) (fun x hx q q' hq hq' => ?_) (kindly_empty p) h
  obtain ⟨range, index⟩ := x
  obtain ⟨-, -, hq'⟩ := bind_eq_ok.1 hq'
  exact hq.argument hq'

end Checker

end GpuWaits
