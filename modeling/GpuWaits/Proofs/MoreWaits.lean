/-
# More waiting does no harm

A program in which the checker finds nothing may be made to wait for more: waits may be put in
anywhere, and waits that are there may ask for more.  The checker finds nothing in it then either
(`Program.check_waitsMore`).

With more waiting fewer accesses are in flight, and of those that are left the checker never knows
fewer operations to be behind them (`Checker.Spares`).  The two programs are not compared round by
round.  The states that the checker comes by in the second program stay below the fixed point that it
has found in the first one, in whatever order the rounds reach them (`Checker.Trails`).

An access is told by the place where it started, and a wait that is put in moves all code behind it.
So the states are compared along a map that leads from the places of the second program back to those
of the first (`Checker.Retraces`).
-/
import GpuWaits.Proofs.Execution
import GpuWaits.Sample.Code

namespace GpuWaits

/-! ### Code with more waiting -/

namespace Instruction

variable {i j : Instruction} {s : Setting}

/-- The instruction itself, or one that waits for more: a wait with targets that are lower or that were
not set before, or an interpolation with a lower target for exports. -/
def WaitsLonger (i j : Instruction) : Prop :=
  i.TakesOver j ∨ ∃ v w : Wait, i.payload = .wait v ∧ w ≤ v ∧ j = { i with payload := .wait w }

/-- The code with more waits anywhere in between, and with instructions that wait for more. -/
inductive WaitsMore : List Instruction → List Instruction → Prop where
  | nil : WaitsMore [] []
  | keep {i j : Instruction} {is js : List Instruction} (h : i.WaitsLonger j)
      (hrest : WaitsMore is js) : WaitsMore (i :: is) (j :: js)
  | insert {j : Instruction} {w : Wait} {is js : List Instruction} (hj : j.payload = .wait w)
      (hrest : WaitsMore is js) : WaitsMore is (j :: js)

lemma WaitsMore.refl (is : List Instruction) : WaitsMore is is := by
  induction is with
  | nil => exact .nil
  | cons i is ih => exact .keep (.inl (.inl rfl)) ih

end Instruction

/-- The block with more waiting in its code. -/
structure Block.WaitsMore (b b' : Block) : Prop where
  frame : b.SameFrame b'
  code : Instruction.WaitsMore b.instructions b'.instructions

lemma Block.WaitsMore.refl (b : Block) : b.WaitsMore b := ⟨.refl b, .refl _⟩

/-- The key of an access in a program in which the place of its origin is another one. -/
def AccessKey.moved (f : Place → Place) (k : AccessKey) : AccessKey := { k with origin := f k.origin }

namespace Checker

variable {s : Setting} {i j : Instruction} {q r q' r' : Pending} {place place' : Place}
  {f : Place → Place}

/-- Up to its waiting the checker treats an instruction that waits for more like the instruction
itself. -/
lemma step_of_waitsLonger (h : i.WaitsLonger j) (s : Setting) (r : Pending) (place : Place) :
    step s r place j = step s (r.wait (ownWait j)) place i := by
  have hle : ownWait j ≤ ownWait i := by
    rcases h with h | ⟨v, w, hv, hle, rfl⟩
    · exact h.ownWait_le
    · simpa only [ownWait, hv] using hle
  have hwait : (r.wait (ownWait j)).wait (ownWait i) = r.wait (ownWait j) := by
    rw [Pending.wait_wait, Wait.both_eq_left hle]
  rcases h with (rfl | ⟨n, m, hn, -, rfl⟩) | ⟨v, w, hv, -, rfl⟩
  · simp only [step, hwait]
  · have hstart : ∀ p, startAccesses s p place { i with payload := .interp m }
        = startAccesses s p place i := by
      intro p
      simp only [startAccesses, Instruction.started, Instruction.isUnorderedFlat,
        Instruction.mayUseLds, Instruction.format, hn]
    have hlate : Instruction.writesLate { i with payload := .interp m } = i.writesLate := by
      rw [Instruction.writesLate, Instruction.writesLate, hn]
    simp only [step, hwait, hn, hstart, hlate, checkRanges, useFindings, conflicts]
  · simp only [step, hwait, hv]

/-! ### States with fewer accesses -/

/-- All that is in flight in `r` is in flight in `q` as well, and not further away there, where `f` leads
from the places of the one program to those of the other. -/
def Spares (f : Place → Place) (q r : Pending) : Prop :=
  ∀ k : AccessKey, Refines true q[k.moved f]? r[k]?

namespace Spares

lemma exists_of_getElem? (h : Spares f q r) {k : AccessKey} {a : InFlight} (ha : r[k]? = some a) :
    ∃ b, q[k.moved f]? = some b ∧ b.Like a ∧ b.younger ≤ a.younger
      ∧ (a.lanes = true → b.lanes = true) := by
  obtain ⟨b, hb, hlike, hle, hlanes⟩ := h k a ha
  exact ⟨b, hb, hlike, hle, hlanes rfl⟩

/-- A wait in the one program alone. -/
lemma wait_right (h : Spares f q r) (w : Wait) : Spares f q (r.wait w) :=
  fun k a ha => h k a (Pending.getElem?_wait.1 ha).1

/-- What is nearer completes later, so the same wait leaves no less of `q`. -/
lemma wait (h : Spares f q r) (w : Wait) : Spares f (q.wait w) (r.wait w) := by
  intro k a ha
  obtain ⟨ha, hnot⟩ := Pending.getElem?_wait.1 ha
  obtain ⟨b, hb, hlike, hle, hlanes⟩ := h.exists_of_getElem? ha
  refine ⟨b, Pending.getElem?_wait.2 ⟨hb, fun hc => hnot ?_⟩, hlike, hle, fun _ => hlanes⟩
  exact ⟨hlike.counter ▸ hc.1, hlike.counter ▸ UInt16.le_trans hc.2 hle⟩

lemma getElem?_eq_none (h : Spares f q r) (hq : ∀ k : AccessKey, q[k]? = none) (k : AccessKey) :
    r[k]? = none := by
  cases hr : r[k]? with
  | none => rfl
  | some a =>
    obtain ⟨b, hb, -⟩ := h.exists_of_getElem? hr
    rw [hq] at hb
    cases hb

lemma quiet (h : Spares f q r) {g : Generation} (hq : Quiet g i q) : Quiet g i r := by
  intro k a ha hvisible
  obtain ⟨b, hb, hlike, -, hlanes⟩ := h.exists_of_getElem? ha
  have hseen : isVisible g (k.moved f) b = true := by
    simp only [isVisible, AccessKey.moved, Bool.or_eq_true] at hvisible ⊢
    exact hvisible.imp (Or.imp hlanes id) id
  have hnone := hq _ b hb hseen
  simpa only [conflicts, AccessKey.moved, hlike.write] using hnone

lemma checkRanges (h : Spares f q r) (hq : checkRanges q i = .ok ()) :
    Checker.checkRanges r i = .ok () := by
  rw [Checker.checkRanges] at hq ⊢
  split
  · rfl
  · rename_i hr
    rw [if_neg] at hq
    · exact hq
    · intro hempty
      refine hr (Std.ExtTreeMap.isEmpty_iff.2 ?_)
      rw [Std.ExtTreeMap.isEmpty_iff] at hempty
      apply Std.ExtTreeMap.ext_getElem?
      intro k
      rw [h.getElem?_eq_none (fun k => by rw [hempty, Std.ExtTreeMap.getElem?_empty]) k,
        Std.ExtTreeMap.getElem?_empty]

end Spares

/-! ### Through a block -/

/-- Accesses that could be started are counted. -/
lemma exists_counter_of_foldlM {g : Generation} {l : List (Reg × StartedAccess)}
    (h : l.foldlM (fun p x => p.start g ⟨place, x.1, x.2.event⟩ x.2.write
      (i.inOrder g x.2.event)) q = .ok q') {x : Reg × StartedAccess} (hx : x ∈ l) :
    ∃ c, g.counterOf x.2.event = .ok c := by
  induction l generalizing q with
  | nil => cases hx
  | cons y l ih =>
    rw [List.foldlM_cons, bind_eq_ok] at h
    obtain ⟨q₁, hfirst, h⟩ := h
    obtain ⟨c, hc, -⟩ := bind_eq_ok.1 hfirst
    rcases List.mem_cons.1 hx with rfl | hx
    · exact ⟨c, hc⟩
    · exact ih h hx

/-- Whether the accesses of an instruction can be started does not hang on what is in flight. -/
lemma startAccesses_of_ok (h : startAccesses s q place i = .ok q') (r : Pending) (place' : Place) :
    ∃ r', startAccesses s r place' i = .ok r' := by
  obtain ⟨st, hst, -⟩ := bind_eq_ok.1 h
  obtain ⟨hfits, hrun⟩ := (startAccesses_eq_ok hst).1 h
  obtain ⟨r', hr', -⟩ := foldlM_total (l := i.leaves s)
    (f := fun p x => p.start s.generation ⟨place', x.1, x.2.event⟩ x.2.write
      (i.inOrder s.generation x.2.event))
    (b := (i.raised s).foldl (fun p ev => p.issue s.generation ev (i.inOrder s.generation ev)) r)
    (fun _ => True) (fun x hx p _ => by
      obtain ⟨c, hc⟩ := exists_counter_of_foldlM hrun hx
      exact ⟨_, bind_eq_ok.2 ⟨c, hc, rfl⟩, trivial⟩) trivial
  exact ⟨r', (startAccesses_eq_ok hst).2 ⟨hfits, hr'⟩⟩

/-- An instruction starts the same accesses at another place. -/
lemma fresh_moved (s : Setting) (i : Instruction) (place place' : Place) (unit : Reg) (event : Event) :
    fresh s place' i ⟨place', unit, event⟩ = fresh s place i ⟨place, unit, event⟩ := by
  rw [fresh, fresh]
  induction i.leaves s with
  | nil => rfl
  | cons x l ih => simp only [newAmong, ih, AccessKey.mk.injEq, true_and]

/-- What an instruction makes of an access, at two places that correspond. -/
lemma Refines.carryStep_moved {k : AccessKey} {g : Generation} {kind : InFlight}
    {x y : Option InFlight} (h : Refines true y x) (hplace : f place = place')
    (hy : OfKind g kind y) (hnew : OfKind g kind (fresh s place' i (k.moved f))) :
    Refines true (Checker.carryStep s (k.moved f) place' i y) (Checker.carryStep s k place i x) := by
  intro a ha
  rw [Checker.carryStep, Option.or_eq_some_iff] at ha
  rcases ha with ha | ⟨-, ha⟩
  · -- The access has just started, in both programs.
    obtain ⟨x, -, rfl, -⟩ := newAmong_eq_some ha
    refine ⟨a, ?_, .refl a, UInt16.le_refl _, fun _ => id⟩
    rw [Checker.carryStep, AccessKey.moved, hplace, fresh_moved s i place place', ha, Option.some_or]
  · obtain ⟨b, hb, hlike, hle, hlanes⟩ := h.passes s (k.moved f) i a ha
    cases hf : fresh s place' i (k.moved f) with
    | none => exact ⟨b, by rw [Checker.carryStep, hf, Option.none_or]; exact hb, hlike, hle, hlanes⟩
    | some c =>
      -- Here one that started before gives way to one of the same kind that is nearer.
      obtain ⟨b₀, hb₀, rfl⟩ := Option.map_eq_some_iff.1 hb
      have hold := (hy b₀ (Option.filter_eq_some_iff.1 hb₀).1).1
      have haged := InFlight.aged_issues b₀ s.generation (k.moved f) (i.inOrder s.generation)
        (i.raised s)
      obtain ⟨_, -, -, hc⟩ := newAmong_eq_some hf
      refine ⟨c, by rw [Checker.carryStep, hf, Option.some_or], ?_, ?_, fun _ _ => by rw [hc]; rfl⟩
      · exact (((hnew c hf).1.trans hold.symm).trans haged.like.symm).trans hlike
      · rw [hc]
        exact UInt16.le_iff_toNat_le.2 (Nat.zero_le _)

variable {p : Program} {b : Block} {block m n : Nat}

/-- Where nothing is found at an instruction, nothing is found with fewer accesses in flight. -/
lemma Spares.step (h : Spares f q r) (hq : Kindly p q) (hb : p.blocks[block]? = some b)
    (hi : b.instructions[m]? = some i) (hplace : f place = .code block m)
    (hstep : step (setting p) q (.code block m) i = .ok (q', [])) :
    ∃ r', step (setting p) r place i = .ok (r', []) ∧ Spares f q' r' := by
  obtain ⟨r', hr'⟩ : ∃ r', Checker.step (setting p) r place i = .ok (r', []) := by
    by_cases hp : ∃ w, i.payload = .wait w
    · obtain ⟨w, hp⟩ := hp
      exact ⟨_, step_of_wait hp⟩
    · obtain ⟨hranges, hstart, hfound⟩ := (step_eq_ok (not_exists.1 hp)).1 hstep
      obtain ⟨huse, hexit⟩ := List.append_eq_nil_iff.1 hfound.symm
      have hw := h.wait (ownWait i)
      obtain ⟨r', hr'⟩ := startAccesses_of_ok hstart (r.wait (ownWait i)) place
      refine ⟨r', (step_eq_ok (not_exists.1 hp)).2 ⟨hw.checkRanges hranges, hr', ?_⟩⟩
      refine (List.append_eq_nil_iff.2 ⟨useFindings_eq_nil.2 (hw.quiet (useFindings_eq_nil.1 huse)),
        ?_⟩).symm
      split
      · rename_i hopcode
        rw [if_pos hopcode, exitFindings_eq_nil] at hexit
        exact exitFindings_eq_nil.2 (hw.getElem?_eq_none hexit)
      · rfl
  refine ⟨r', hr', fun k => ?_⟩
  rw [getElem?_step_eq hstep, getElem?_step_eq hr']
  exact (h k).carryStep_moved hplace (hq _) (ofKind_fresh hb hi)

/-- The code `js` from place `n` on is the code `is` from place `m` on with more waiting, and `l` gives
for the places of `js` those of `is`. -/
inductive Aligned (l : Nat → Nat) : Nat → List Instruction → Nat → List Instruction → Prop where
  | nil {m n : Nat} : Aligned l m [] n []
  | keep {m n : Nat} {i j : Instruction} {is js : List Instruction} (h : i.WaitsLonger j)
      (hplace : l n = m) (hrest : Aligned l (m + 1) is (n + 1) js) :
      Aligned l m (i :: is) n (j :: js)
  | insert {m n : Nat} {j : Instruction} {w : Wait} {is js : List Instruction}
      (hj : j.payload = .wait w) (hrest : Aligned l m is (n + 1) js) : Aligned l m is n (j :: js)

lemma Aligned.congr {l l' : Nat → Nat} {is js : List Instruction} (h : Aligned l m is n js)
    (heq : ∀ k, n ≤ k → l' k = l k) : Aligned l' m is n js := by
  induction h with
  | nil => exact .nil
  | keep h hplace _ ih =>
    exact .keep h ((heq _ (Nat.le_refl _)).trans hplace) (ih fun k hk => heq k (by omega))
  | insert hj _ ih => exact .insert hj (ih fun k hk => heq k (by omega))

lemma exists_aligned {is js : List Instruction} (h : Instruction.WaitsMore is js) (m n : Nat) :
    ∃ l, Aligned l m is n js := by
  induction h generalizing m n with
  | nil => exact ⟨id, .nil⟩
  | keep h _ ih =>
    obtain ⟨l, hl⟩ := ih (m + 1) (n + 1)
    refine ⟨fun k => if k = n then m else l k, .keep h (if_pos rfl) (hl.congr fun k hk => ?_)⟩
    exact if_neg (by omega)
  | insert hj _ ih =>
    obtain ⟨l, hl⟩ := ih m (n + 1)
    exact ⟨l, .insert hj hl⟩

/-- Where nothing is found in a piece of code, nothing is found with fewer accesses in flight and with
more waiting. -/
lemma Spares.steps {l : Nat → Nat} {is js : List Instruction} (hcode : Aligned l m is n js)
    (h : Spares f q r) (hq : Kindly p q) (hb : p.blocks[block]? = some b)
    (his : b.instructions.drop m = is) (hplace : ∀ k, f (.code block k) = .code block (l k))
    (hsteps : steps (setting p) block m is q = .ok (q', [])) :
    ∃ r', steps (setting p) block n js r = .ok (r', []) ∧ Spares f q' r' := by
  induction hcode generalizing q r with
  | nil =>
    cases hsteps
    exact ⟨r, rfl, h⟩
  | @keep m n i j is js hij hmn _ ih =>
    simp only [Checker.steps, bind_eq_ok, pure_eq_ok, Prod.exists, Prod.mk.injEq] at hsteps
    obtain ⟨q₁, found, hstep, q₂, later, hrest, rfl, hfound⟩ := hsteps
    obtain ⟨rfl, rfl⟩ := List.append_eq_nil_iff.1 hfound
    obtain ⟨hi, his'⟩ := getElem?_of_drop his
    have hback : f (.code block n) = .code block m := by rw [hplace, hmn]
    obtain ⟨r₁, hr₁, h₁⟩ := (h.wait_right (ownWait j)).step hq hb hi hback hstep
    obtain ⟨r₂, hr₂, h₂⟩ := ih h₁ (hq.step hb hi hstep) his' hrest
    refine ⟨r₂, ?_, h₂⟩
    simp only [Checker.steps, step_of_waitsLonger hij, hr₁, bind_eq_ok, pure_eq_ok, Prod.exists]
    exact ⟨r₁, [], rfl, r₂, [], hr₂, rfl⟩
  | insert hj _ ih =>
    obtain ⟨r', hr', h'⟩ := ih (h.wait_right (ownWait _)) hq his hsteps
    refine ⟨r', ?_, h'⟩
    simp only [Checker.steps, step_of_wait hj, bind_eq_ok, pure_eq_ok, Prod.exists]
    exact ⟨_, [], rfl, r', [], hr', rfl⟩

lemma Spares.stepBlock {l : Nat → Nat} {b' : Block} (h : Spares f q r) (hq : Kindly p q)
    (hb : p.blocks[block]? = some b) (hkind : b'.kind = b.kind)
    (hcode : Aligned l 0 b.instructions 0 b'.instructions)
    (hplace : ∀ k, f (.code block k) = .code block (l k))
    (hstep : stepBlock (setting p) block b q = .ok (q', [])) :
    ∃ r', stepBlock (setting p) block b' r = .ok (r', []) ∧ Spares f q' r' := by
  simp only [Checker.stepBlock, bind_eq_ok, pure_eq_ok, Prod.exists, Prod.mk.injEq] at hstep
  obtain ⟨q₁, found, hsteps, rfl, hfound⟩ := hstep
  obtain ⟨rfl, hexit⟩ := List.append_eq_nil_iff.1 hfound
  obtain ⟨r', hr', h'⟩ := h.steps hcode hq hb rfl hplace hsteps
  refine ⟨r', ?_, h'⟩
  simp only [Checker.stepBlock, bind_eq_ok, pure_eq_ok, Prod.exists, Prod.mk.injEq]
  refine ⟨r', [], hr', rfl, List.append_eq_nil_iff.2 ⟨rfl, ?_⟩⟩
  rw [hkind]
  split
  · rename_i hend
    rw [if_pos hend, exitFindings_eq_nil] at hexit
    exact exitFindings_eq_nil.2 (h'.getElem?_eq_none hexit)
  · rfl

/-! ### At the entry of a block -/

/-- Leads a place back to another one in the same block. -/
def leadBack (l : Nat → Nat → Nat) : Place → Place
  | .argument index => .argument index
  | .code block index => .code block (l block index)

/-- The program `p'` is `p` with more waiting in its code, and `f` leads from the places of `p'` back to
those of `p`. -/
structure Retraces (p p' : Program) (f : Place → Place) : Prop where
  config : p'.config = p.config
  pendingVmem : p'.pendingVmem = p.pendingVmem
  argument : ∀ index, f (.argument index) = .argument index
  laneless : ∀ place, isLaneless p.blocks (f place) = isLaneless p'.blocks place
  block : ∀ {n : Nat} {b' : Block}, p'.blocks[n]? = some b' → ∃ b l, p.blocks[n]? = some b
    ∧ b.SameFrame b' ∧ Aligned l 0 b.instructions 0 b'.instructions
    ∧ ∀ k, f (.code n k) = .code n (l k)

/-- The states of a program in which the checker has come to rest without a finding. -/
structure Rests (p : Program) (start : Pending) (flows : List Flow) : Prop where
  started : startState p = .ok start
  kindly : KindlyAll p flows
  block : ∀ {n : Nat} {b : Block}, p.blocks[n]? = some b → .discardEarlyExit ∉ b.kind →
    ∃ flow, flows[n]? = some flow ∧ blockEntry p flows start n b = .ok flow.entry
      ∧ stepBlock (setting p) n b flow.entry = .ok (flow.exit, [])

/-- The states at the ends of the blocks of `p'`, on the way to where the checker comes to rest: nothing
is nearer than it is in `p`. -/
structure Trails (p p' : Program) (f : Place → Place) (flows flows' : List Flow) : Prop where
  length : flows'.length = p'.blocks.length
  kindly : KindlyAll p' flows'
  refines : ∀ (k : AccessKey) (n : Nat),
    Refines true (exitAt flows (k.moved f) n) (exitAt flows' k n)

variable {p' : Program} {b' : Block} {flows flows' : List Flow} {start : Pending}

namespace Retraces

lemma setting_eq (hf : Retraces p p' f) : setting p' = setting p := by
  rw [setting, setting, hf.config]

lemma startState_eq (hf : Retraces p p' f) : startState p' = startState p := by
  rw [startState, startState, hf.config, hf.pendingVmem]

end Retraces

/-- What is in flight when the program starts is there on behalf of the arguments. -/
lemma origin_of_startState (h : startState p = .ok start) {k : AccessKey} {a : InFlight}
    (ha : start[k]? = some a) : ∃ index, k.origin = .argument index := by
  refine foldlM_invariant (fun q : Pending => ∀ (k : AccessKey) (a : InFlight), q[k]? = some a →
    ∃ index, k.origin = .argument index) (fun x _ q q' hq hq' k a ha => ?_) ?_ h k a ha
  · obtain ⟨-, -, hq'⟩ := bind_eq_ok.1 hq'
    rw [getElem?_startUnits hq'] at ha
    split at ha
    · rename_i hk
      exact ⟨x.2, hk.1⟩
    · rw [Pending.getElem?_issue q p.config.generation .vmem (fun _ => true)] at ha
      obtain ⟨a₀, ha₀, -⟩ := Option.map_eq_some_iff.1 ha
      exact hq k a₀ ha₀
  · intro k a ha
    rw [Std.ExtTreeMap.getElem?_empty] at ha
    cases ha

lemma Retraces.spares (hf : Retraces p p' f) (h : startState p = .ok start) :
    Spares f start start := by
  intro k a ha
  obtain ⟨index, hk⟩ := origin_of_startState h ha
  have hmoved : k.moved f = k := by
    rw [AccessKey.moved, hk, hf.argument, ← hk]
  exact ⟨a, by rw [hmoved, ha], .refl a, UInt16.le_refl _, fun _ => id⟩

/-- Fewer accesses come in where fewer are left at the ends of the blocks. -/
lemma Trails.blockEntry (h : Trails p p' f flows flows') (hf : Retraces p p' f)
    (hrest : Rests p start flows) (hframe : b.SameFrame b')
    (hq : blockEntry p flows start n b = .ok q) (hr : blockEntry p' flows' start n b' = .ok r) :
    Spares f q r := by
  intro k
  have hstart := kindly_startState hrest.started
  have hstart' := kindly_startState (hf.startState_eq.trans hrest.started)
  have hy := entered_of_blockEntry hq (k.moved f)
  have hx := entered_of_blockEntry hr k
  have hky := hrest.kindly.blockEntry hstart hq (k.moved f)
  have hkx := h.kindly.blockEntry hstart' hr k
  have hsources : sources p b (k.moved f) = sources p' b' k := by
    simp only [sources, AccessKey.moved, hframe.linearPreds, hframe.logicalPreds, hf.laneless]
  have hfirst : Refines true (firstAt start n (k.moved f)) (firstAt start n k) := by
    rw [firstAt, firstAt]
    split
    · exact hf.spares hrest.started k
    · exact .refl _ _
  -- The access is as near as at one of its sources, and from there it comes in with less waiting too.
  have hnear : Refines false q[k.moved f]? r[k]? := by
    rcases hx.attained with heq | ⟨pred, hpred, heq⟩
    · have hleft := refines_false_of_rank_le (hstart.firstAt n _) hky hy.le_first
      have hright := refines_false_of_rank_le hkx (hstart'.firstAt n k) (Nat.le_of_eq heq.symm)
      exact (hleft.trans (refines_true_iff.1 hfirst).1).trans hright
    · have hleft := refines_false_of_rank_le (hrest.kindly _ _) hky (hy.le pred (hsources ▸ hpred))
      have hright := refines_false_of_rank_le hkx (h.kindly k _) (Nat.le_of_eq heq.symm)
      exact (hleft.trans (refines_true_iff.1 (h.refines k pred.toNat)).1).trans hright
  exact refines_true_iff.2 ⟨hnear, hx.seen_mono hy hframe.logicalPreds hnear.rank_le hfirst.seen
    fun m => (h.refines k m).seen⟩

/-- One block of a round: nothing is found in it, and the states go on trailing. -/
lemma Trails.flowBlock (h : Trails p p' f flows flows') (hf : Retraces p p' f)
    (hrest : Rests p start flows) (hb' : p'.blocks[n]? = some b')
    (hkind : .discardEarlyExit ∉ b'.kind) (hr : Checker.blockEntry p' flows' start n b' = .ok r) :
    ∃ r', stepBlock (setting p') n b' r = .ok (r', [])
      ∧ Trails p p' f flows (flows'.set n { entry := r, exit := r' }) := by
  have hstart := kindly_startState hrest.started
  have hstart' := kindly_startState (hf.startState_eq.trans hrest.started)
  obtain ⟨b, l, hb, hframe, hcode, hplace⟩ := hf.block hb'
  obtain ⟨flow, hflow, hentry, hstep⟩ := hrest.block hb (hframe.kind ▸ hkind)
  have hin := h.blockEntry hf hrest hframe hentry hr
  obtain ⟨r', hr', hout⟩ :=
    hin.stepBlock (hrest.kindly.blockEntry hstart hentry) hb hframe.kind hcode hplace hstep
  rw [← hf.setting_eq] at hr'
  refine ⟨r', hr', by rw [List.length_set, h.length], fun k m => ?_, fun k m => ?_⟩
  · rw [exitAt_set]
    split
    · exact (h.kindly.blockEntry hstart' hr).stepBlock hb' hr' k
    · exact h.kindly k m
  · rw [exitAt_set]
    split
    · rename_i hm
      have hat : exitAt flows (k.moved f) m = flow.exit[k.moved f]? := by
        rw [exitAt, hm.1, hflow]
        rfl
      rw [hat]
      exact hout k
    · exact h.refines k m

/-! ### The result -/

lemma rests_of_check (h : p.check = .ok []) : ∃ start flows, Rests p start flows := by
  simp only [Program.check, bind_eq_ok] at h
  obtain ⟨start, hstart, r, hsettle, hfound⟩ := h
  cases r with
  | none => cases hfound
  | some flows =>
    have hfixed := fixed_of_settle (by simp) hsettle
    exact ⟨start, flows, hstart,
      kindlyAll_of_settle (kindly_startState hstart) (kindlyAll_empty p) hsettle,
      fun hb hkind => quiet_of_findings hfixed hfound _ _ hb hkind⟩

/-- Every place of a program with more waiting can be led back. -/
lemma exists_retraces {blocks : List Block} (h : List.Forall₂ Block.WaitsMore p.blocks blocks) :
    ∃ f, Retraces p { p with blocks } f := by
  obtain ⟨hlength, hget⟩ := List.forall₂_iff_get.1 h
  have hblock : ∀ {n : Nat} {b' : Block}, blocks[n]? = some b' →
      ∃ b, p.blocks[n]? = some b ∧ b.WaitsMore b' := by
    intro n b' hb'
    obtain ⟨hn, rfl⟩ := List.getElem?_eq_some_iff.1 hb'
    have hn' : n < p.blocks.length := hlength ▸ hn
    exact ⟨p.blocks[n], List.getElem?_eq_getElem hn', hget n hn' hn⟩
  have halign : ∀ n : Nat, ∃ l : Nat → Nat, ∀ b b' : Block, p.blocks[n]? = some b →
      blocks[n]? = some b' → Aligned l 0 b.instructions 0 b'.instructions := by
    intro n
    cases hb' : blocks[n]? with
    | none => exact ⟨id, fun b b' _ h => by cases h⟩
    | some b' =>
      obtain ⟨b, hb, hmore⟩ := hblock hb'
      obtain ⟨l, hl⟩ := exists_aligned hmore.code 0 0
      refine ⟨l, fun b₁ b₁' h₁ h₁' => ?_⟩
      cases hb.symm.trans h₁
      cases h₁'
      exact hl
  choose g hg using halign
  refine ⟨leadBack g, rfl, rfl, fun _ => rfl, fun place => ?_, fun {n b'} hb' => ?_⟩
  · cases place with
    | argument index => rfl
    | code n k =>
      simp only [leadBack, isLaneless]
      cases hb' : blocks[n]? with
      | none => rw [List.getElem?_eq_none (hlength ▸ List.getElem?_eq_none_iff.1 hb')]
      | some b' =>
        obtain ⟨b, hb, hmore⟩ := hblock hb'
        rw [hb, Option.any_some, Option.any_some, hmore.frame.logicalPreds]
  · obtain ⟨b, hb, hmore⟩ := hblock hb'
    exact ⟨b, g n, hb, hmore.frame, hg n b b' hb hb', fun _ => rfl⟩

lemma trails_empty (p p' : Program) (f : Place → Place) (flows : List Flow) :
    Trails p p' f flows (p'.blocks.map fun _ => {}) where
  length := List.length_map _
  kindly := kindlyAll_empty p'
  refines k n a ha := by
    rw [exitAt_empty] at ha
    cases ha

end Checker

open Checker in
/-- More waiting does no harm: where the checker finds nothing, it finds nothing in the program with
more waits and with waits for more. -/
theorem Program.check_waitsMore {p : Program} {blocks : List Block}
    (hpreds : ∀ b ∈ p.blocks, ∀ pred ∈ b.linearPreds ++ b.logicalPreds,
      pred.toNat < p.blocks.length)
    (hmore : List.Forall₂ Block.WaitsMore p.blocks blocks) (hcheck : p.check = .ok []) :
    ({ p with blocks } : Program).check = .ok [] := by
  obtain ⟨start, flows, hrest⟩ := rests_of_check hcheck
  obtain ⟨f, hf⟩ := exists_retraces hmore
  refine check_eq_nil (Trails p { p with blocks } f flows) (hf.startState_eq.trans hrest.started)
    (trails_empty _ _ _ _) fun {flows' n b'} h hb' hkind => ?_
  obtain ⟨b, -, hb, hframe, -⟩ := hf.block hb'
  have hin : ∀ pred ∈ b'.linearPreds ++ b'.logicalPreds, pred.toNat < flows'.length := by
    rw [hframe.linearPreds, hframe.logicalPreds, h.length, ← hmore.length_eq]
    exact hpreds b (List.mem_of_getElem? hb)
  obtain ⟨r, hr⟩ := blockEntry_total (p := { p with blocks }) hin start n
  obtain ⟨r', hr', h'⟩ := h.flowBlock hf hrest hb' hkind hr
  exact ⟨r, r', hr, hr', h'⟩

/-- A loop that loads twice and exports twice, and waits at its head before it uses what was loaded
first and overwrites what was exported first. -/
def Program.litLoop (more : List Instruction) (targets : Wait) (exports : UInt8) : Program where
  config := { generation := .gfx11 }
  blocks := [
    Sample.block 0 {.topLevel} [] 0
      [Sample.bufferLoad (.vgpr 2) (.vgpr 6), Sample.bufferLoad (.vgpr 4) (.vgpr 6)],
    Sample.block 1 {.loopHeader} [0, 2] 1
      (more ++ [.ofWait targets,
        ⟨.vInterpP10F32Inreg, [⟨.vgpr 0, 1⟩],
          [Sample.one (.vgpr 1), Sample.one (.vgpr 3), Sample.one (.vgpr 1)], .interp exports⟩,
        Sample.vectorOp (.vgpr 5) [.vgpr 0, .vgpr 2]]),
    Sample.block 2 {} [1] 1
      [Sample.exportOne 32 (.vgpr 0), Sample.exportOne 33 (.vgpr 7),
        Sample.bufferLoad (.vgpr 2) (.vgpr 6), Sample.bufferLoad (.vgpr 4) (.vgpr 6), Sample.branch],
    Sample.block 3 {.loopExit} [1] 0 [Sample.endProgram]]

/-- The loop waits for as little as it can.  With one more wait, with a lower and a new target, and with
a lower target for exports, nothing is found in it either. -/
theorem Program.check_waitsMore_litLoop :
    (litLoop [] (.single .vm 2) 1).check ≠ .ok [] ∧ (litLoop [] (.single .vm 1) 2).check ≠ .ok []
      ∧ (litLoop [] (.single .vm 1) 1).check = .ok []
      ∧ (litLoop [.ofWait (.single .lgkm 0)] ((Wait.single .vm 0).set .vs 0) 0).check = .ok [] := by
  have hpreds : (litLoop [] (.single .vm 1) 1).blocks.all
      (fun b => (b.linearPreds ++ b.logicalPreds).all fun pred =>
        pred.toNat < (litLoop [] (.single .vm 1) 1).blocks.length) = true := by decide +kernel
  have hcheck : (litLoop [] (.single .vm 1) 1).check = .ok [] := by decide +kernel
  have hmore : List.Forall₂ Block.WaitsMore (litLoop [] (.single .vm 1) 1).blocks
      (litLoop [.ofWait (.single .lgkm 0)] ((Wait.single .vm 0).set .vs 0) 0).blocks := by
    -- Only the head of the loop is another one.
    refine .cons (.refl _) (.cons ⟨⟨rfl, rfl, rfl, rfl, rfl⟩, ?_⟩
      (.cons (.refl _) (.cons (.refl _) .nil)))
    exact .insert rfl (.keep (.inr ⟨_, _, rfl, Wait.exceeds_eq_false_iff.1 (by decide), rfl⟩)
      (.keep (.inl (.inr ⟨1, 0, rfl, by decide, rfl⟩)) (.refl _)))
  simp only [List.all_eq_true, decide_eq_true_eq] at hpreds
  have heq : ({ litLoop [] (.single .vm 1) 1 with
      blocks := (litLoop [.ofWait (.single .lgkm 0)] ((Wait.single .vm 0).set .vs 0) 0).blocks }
        : Program) = litLoop [.ofWait (.single .lgkm 0)] ((Wait.single .vm 0).set .vs 0) 0 := rfl
  refine ⟨by decide +kernel, by decide +kernel, hcheck, ?_⟩
  rw [← heq]
  exact check_waitsMore hpreds hmore hcheck

end GpuWaits
