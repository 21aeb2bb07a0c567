/-
# A walk over the code that a walk has put out

The second walk meets the same instructions behind waits that are already there.  Between two of them the
first walk has a wait in its queue, and has dropped what this wait completes, while the second has not come
to the wait yet.  `Walk.Mirrors` says how the two compare at such a place: once the second one carries out
the wait as well, its context is below that of the first.

What the second walk looks at is not the same code.  The waits that were merged into one and the barriers are
gone, so that it may see a longer clause and wait for more instructions ahead of time.  But an instruction in
front of which the first walk has put no wait need not wait in any earlier context either, as far back as the
last wait (`Context.Clear`, `Walk.steps_clear`).  So looking ahead adds nothing.

A release that an access carries is deferred when its turn comes, by both walks.  The second one may defer it
earlier, too, when it looks ahead.  This does no harm if the access pays for it by itself
(`Context.Satisfied.below_of_settle`).

`Block.insertWaits_again` puts this together for a block.
-/
import GpuWaits.Proofs.Needs

namespace GpuWaits

/-! ### Steady code -/

namespace Instruction

variable {i j : Instruction} {s : Setting}

lemma format_of_isWait (hc : i.isCoherent = true) (h : i.isWait = true) : i.format = .sopp := by
  have hfits := fits_of_isCoherent hc
  rw [isWait] at h
  cases hp : i.payload with
  | wait w | dependencyWait w =>
    rw [hp] at hfits
    cases hf : i.format with
    | sopp => rfl
    | _ =>
      rw [hf] at hfits
      cases hfits
  | _ =>
    rw [hp] at h
    cases h

lemma format_of_sharesClause (h : i.sharesClause j = true) : j.format = i.format := by
  rw [sharesClause] at h
  split at h
  · cases h
  · rename_i hsame
    simp only [Bool.or_eq_true, bne_iff_ne, ne_eq, not_or, not_not] at hsame
    exact hsame.2.symm

/-- A clause holds no waits. -/
lemma not_isWait_of_sharesClause (hi : i.isCoherent = true) (hj : j.isCoherent = true)
    (h : i.sharesClause j = true) : j.isWait = false := by
  rw [Bool.eq_false_iff]
  intro hwait
  have hsopp : i.format = .sopp := (format_of_sharesClause h).symm.trans (format_of_isWait hj hwait)
  have hlds : i.accessesLds = false := by
    have hfits := fits_of_isCoherent hi
    rw [hsopp] at hfits
    rw [accessesLds]
    cases hp : i.payload with
    | ds access | ldsDir sync | flat access =>
      rw [hp] at hfits
      cases hfits
    | _ => rfl
  rw [sharesClause] at h
  split at h
  · cases h
  split at h
  · simp [isFlatLike, isSmem, isVmem, hsopp, hlds] at h
  · cases h

lemma IsInserted.steady (h : i.IsInserted s) : i.Steady s := by
  have hcoherent := h.regular.coherent
  have hvalid := h.regular.valid
  rcases h with ⟨w, rfl⟩ | ⟨w, rfl⟩ | ⟨-, rfl⟩ <;>
    exact ⟨hcoherent, hvalid, fun _ _ => rfl, (fun h => by cases h),
      fun h => absurd h (Flags.not_mem_empty _), fun h => by cases h⟩

lemma Steady.not_interp (hi : i.Steady s) (n : UInt8) : i.payload ≠ .interp n := by
  intro hn
  have hfits := fits_of_isCoherent hi.coherent
  rw [hn] at hfits
  cases hf : i.format with
  | vinterpInreg => exact hi.waits hf
  | _ =>
    rw [hf] at hfits
    cases hfits

lemma Steady.eq_of_takesOver (hi : i.Steady s) (h : i.TakesOver j) : j = i := by
  rcases h with rfl | ⟨n, m, hn, -, -⟩
  · rfl
  · exact absurd hn (hi.not_interp n)

end Instruction

/-! ### Queues -/

/-- The queue `q'` waits for all that `q` waits for. -/
structure Queue.Covers (q' q : Queue) : Prop where
  wait : q'.wait ≤ q.wait
  fits : q'.dependency.Fits
  dependency : q'.dependency = .none → q.dependency = .none

namespace Queue

variable {q q' q'' : Queue}

lemma Covers.eq_empty (h : q'.Covers q) (hq : q' = {}) : q = {} := by
  have hwait := h.wait
  have hdep := h.dependency (by rw [hq])
  rw [hq] at hwait
  cases q
  exact congrArg₂ Queue.mk (Wait.eq_none_of_le hwait) hdep

lemma Covers.trans (h' : q''.Covers q') (h : q'.Covers q) : q''.Covers q :=
  ⟨Wait.le_trans h'.wait h.wait, h'.fits, fun hno => h.dependency (h'.dependency hno)⟩

lemma covers_both (hq : q.dependency.Fits) (o : Queue) : (q.both o).Covers q :=
  ⟨Wait.both_le_left _ _, hq.both _, hq.eq_none_of_both⟩

lemma covers_await {s : Setting} {i : Instruction} {c c' : Context} (hq : q.dependency.Fits)
    (h : c.await s i q = .ok (c', q')) : q'.Covers q := by
  have hqueued := (Context.awaited_of_await h).queued
  simp only [Context.await, bind_eq_ok, pure_eq_ok, Prod.mk.injEq] at h
  obtain ⟨hazard, -, settled, -, -, rfl⟩ := h
  exact ⟨hqueued, hq.both _, hq.eq_none_of_both⟩

lemma ofInstruction_of_not_isWait {i : Instruction} (h : i.isWait = false) : ofInstruction i = {} := by
  rw [ofInstruction]
  revert h
  cases hp : i.payload <;> simp [Instruction.isWait, hp]

lemma instructions_empty : ({} : Queue).instructions = [] := by decide

/-- What carries a queue out begins with a wait. -/
lemma exists_cons_of_ne (h : q ≠ {}) : ∃ j rest, q.instructions = j :: rest ∧ j.isWait = true := by
  rw [instructions]
  by_cases hwait : q.wait.isNone = true
  · have hdep : q.dependency.isNone = false := by
      rw [Bool.eq_false_iff]
      intro hdep
      refine h ?_
      cases q
      exact congrArg₂ Queue.mk (Wait.isNone_iff.1 hwait) (beq_iff_eq.1 hdep)
    rw [if_pos hwait, hdep]
    exact ⟨_, [], rfl, rfl⟩
  · rw [if_neg hwait]
    exact ⟨_, _, rfl, rfl⟩

lemma takeWhile_instructions (h : q ≠ {}) (l : List Instruction) :
    (q.instructions ++ l).takeWhile (!·.isWait) = [] := by
  obtain ⟨j, rest, hj, hwait⟩ := exists_cons_of_ne h
  rw [hj, List.cons_append, List.takeWhile_cons, hwait]
  rfl

end Queue

lemma Barrier.payment_empty (b : Barrier) (s : Setting) (i : Instruction) :
    b.payment s i ∅ = {} := by
  have hnone : (∅ ∩ b.storage : StorageSet).toList = [] := by
    rw [Flags.toList, List.filter_eq_nil_iff]
    intro k _
    simp [Flags.mem_inter]
  rw [payment, hnone]
  split <;> rfl

/-- A wait defers nothing. -/
lemma Queue.deferBefore_of_mem {q : Queue} {i : Instruction} (hi : i ∈ q.instructions) (s : Setting)
    (c : Context) : c.deferBefore s i = c := by
  rcases eq_of_mem hi with rfl | rfl <;> exact if_neg (Flags.not_mem_empty _)

/-- A wait needs no wait of its own. -/
lemma Queue.satisfied_of_mem {s : Setting} (hs : s.drainAll = false) {q : Queue} {i : Instruction}
    (hi : i ∈ q.instructions) (c : Context) (u : Wait) : c.Satisfied s i u := by
  have hi := eq_of_mem hi
  have hhazard : c.hazardWait s i = .ok .none := by
    rcases hi with rfl | rfl <;> rfl
  have hdrained : c.drainBefore s i = .none := by
    rw [Context.drainBefore, if_neg]
    rcases hi with rfl | rfl <;> simp [hs, Instruction.ofWait, Instruction.ofDependencyWait]
  have hturn : c.turnWait i = .none := by
    rcases hi with rfl | rfl <;> rfl
  have hpaid : ((c.deferBefore s i).payment s i).wait = .none := by
    have hsync : i.sync = {} := by
      rcases hi with rfl | rfl <;> rfl
    have hreleased : i.orderedStorage s {} {.release} = ∅ := by
      rcases hi with rfl | rfl <;>
        simp [Instruction.orderedStorage, Instruction.isControlBarrier, Instruction.endsGeometry,
          Instruction.exportsVisibly, Instruction.ofWait, Instruction.ofDependencyWait]
    have hacquired : (if .unshared ∈ ({} : Sync).semantics then ∅ else ({} : Sync).storage) = ∅ :=
      if_neg (Flags.not_mem_empty _)
    simp only [Context.payment, hsync, hreleased, hacquired, Barrier.payment_empty]
    rfl
  exact ⟨⟨.none, hhazard, Wait.le_none u⟩, hdrained ▸ Wait.le_none u, hturn ▸ Wait.le_none u,
    hpaid ▸ Wait.le_none u⟩

/-! ### Steps over steady code -/

namespace Walk

variable {s : Setting} {i : Instruction} {rest tail out : List Instruction} {w w' v : Walk}
  {c : Context} {q : Queue} {left : Nat}

lemma finish_of_steady (hi : i.Steady s) (c : Context) (q : Queue) : finish s i c q = ([], q) := by
  rw [finish]
  split
  swap
  · rfl
  rename_i hend
  have hno : releasesRegisters s c q = false := by
    rw [Bool.eq_false_iff]
    intro h
    simp only [releasesRegisters, Bool.and_eq_true, decide_eq_true_eq] at h
    exact absurd h.1.1.1.2 (Nat.not_lt.2 (hi.ends hend h.1.1.1.1))
  rw [release, hno]
  rfl

lemma absorb_of_steady (hi : i.Steady s) (q : Queue) : absorb i q = (i, q) := by
  rw [absorb]
  split
  · exact absurd ‹_› (hi.not_interp _)
  · rfl

/-- All that a step over steady code does. -/
lemma step_steady (hi : i.Steady s) :
    step s i rest w = .ok (out, w') ↔
      (i.isRegisterRelease s = true ∧ out = []
          ∧ w' = { w with queue := w.queue.both (.ofInstruction i), clauseLeft := w.clauseLeft - 1 })
        ∨ i.isRegisterRelease s = false ∧ ∃ left c q, prepare s i rest w = .ok (left, c, q)
          ∧ ((i.isBarrier || i.isWait) = true ∧ out = [] ∧ w' = ⟨c, q, left⟩
            ∨ (i.isBarrier || i.isWait) = false ∧ ∃ c', c.start s i = .ok c'
              ∧ out = q.instructions ++ [i]
              ∧ w' = ⟨c'.deferAfter s i, turnQueue (c'.deferAfter s i) i, left⟩) := by
  rw [step_eq_ok]
  refine or_congr Iff.rfl (and_congr_right fun _ => ?_)
  simp only [finish_of_steady hi, absorb_of_steady hi, List.nil_append]
  constructor
  · rintro ⟨left, c, q, c', hprepare, hstart, ⟨hremoved, rfl, rfl⟩ | ⟨hkept, rfl, rfl⟩⟩
    · rw [Context.start, Instruction.effects_of_removed hi.coherent hremoved] at hstart
      cases hstart
      exact ⟨left, c, q, hprepare, .inl ⟨hremoved, rfl, rfl⟩⟩
    · exact ⟨left, c, q, hprepare, .inr ⟨hkept, c', hstart, rfl, rfl⟩⟩
  · rintro ⟨left, c, q, hprepare, ⟨hremoved, rfl, rfl⟩ | ⟨hkept, c', hstart, rfl, rfl⟩⟩
    · refine ⟨left, c, q, c, hprepare, ?_, .inl ⟨hremoved, rfl, rfl⟩⟩
      rw [Context.start, Instruction.effects_of_removed hi.coherent hremoved]
      rfl
    · exact ⟨left, c, q, c', hprepare, hstart, .inr ⟨hkept, rfl, rfl⟩⟩

/-- The instruction itself is waited for first. -/
lemma prepare_awaited (h : prepare s i rest w = .ok (left, c, q)) : ∃ c₁ q₁,
    Context.Awaited s i w.context (w.queue.both (.ofInstruction i)) c₁ q₁
      ∧ Context.AwaitedAll s c₁ q₁ c q := by
  simp only [prepare, bind_eq_ok, Prod.exists] at h
  obtain ⟨c₁, q₁, hawait, h⟩ := h
  refine ⟨c₁, q₁, Context.awaited_of_await hawait, ?_⟩
  split at h
  · exact Context.awaitClause_awaited h
  · cases h
    exact .none _ _

lemma prepare_covers (hw : w.queue.dependency.Fits) (h : prepare s i rest w = .ok (left, c, q)) :
    q.Covers (w.queue.both (.ofInstruction i)) := by
  refine prepare_induction (fun _ => True) (fun _ q => q.Covers _)
    (fun _ hawait hq => (Queue.covers_await hq.fits hawait).trans hq) trivial (fun _ _ => trivial) h ?_
  exact ⟨Wait.le_refl _, hw.both _, id⟩

/-- As long as the queue is empty, the context does not lose anything. -/
lemma prepare_below (hw : w.queue.dependency.Fits) (h : prepare s i rest w = .ok (left, c, q))
    (hq : q = {}) : w.context.Below c := by
  refine (prepare_induction (fun _ => True)
    (fun c q => q.dependency.Fits ∧ (q = {} → w.context.Below c)) (fun _ hawait hc => ?_) trivial
    (fun _ _ => trivial) h ⟨hw.both _, fun _ => .refl _⟩).2 hq
  have hcovers := Queue.covers_await hc.1 hawait
  refine ⟨hcovers.fits, fun hempty => ?_⟩
  have hsettled := (Context.awaited_of_await hawait).settled
  rw [hempty] at hsettled
  cases hsettled
  exact (hc.2 (hcovers.eq_empty hempty)).trans (Context.below_deferBefore _ s _)

end Walk

/-! ### Instructions without a wait in front of them -/

/-- Up to the next wait, no instruction of the code has to wait in the context. -/
def Context.Clear (s : Setting) (c : Context) (l : List Instruction) : Prop :=
  ∀ j ∈ l.takeWhile (!·.isWait), j.Steady s ∧ j.isBarrier = false ∧ c.Satisfied s j .none

namespace Context

variable {s : Setting} {c d : Context} {l : List Instruction}

lemma clear_of_isWait (h : l.takeWhile (!·.isWait) = []) : c.Clear s l := by
  intro j hj
  rw [h] at hj
  cases hj

lemma Clear.mono (h : d.Clear s l) (hw : c.Within .none d) (hc : c.Tidy s.generation)
    (hd : d.Tidy s.generation) : c.Clear s l := by
  intro j hj
  obtain ⟨hsteady, hb, hsat⟩ := h j hj
  exact ⟨hsteady, hb, hsat.mono hw hc hd.sound⟩

/-- A clause does not reach past a wait. -/
lemma Clear.clause {i j : Instruction} (h : c.Clear s l) (hi : i.isCoherent = true)
    (hl : ∀ j ∈ l, j.isCoherent = true) (hj : j ∈ l.takeWhile i.sharesClause) :
    j.Steady s ∧ j.isBarrier = false ∧ c.Satisfied s j .none := by
  refine h j ?_
  clear h
  induction l with
  | nil => cases hj
  | cons k l ih =>
    rw [List.takeWhile_cons] at hj ⊢
    split at hj
    · rename_i hshares
      have hno := Instruction.not_isWait_of_sharesClause hi (hl k (by simp)) hshares
      rw [hno]
      rcases List.mem_cons.1 hj with rfl | hj
      · simp
      · exact List.mem_cons_of_mem _ (ih (fun j hj => hl j (List.mem_cons_of_mem _ hj)) hj)
    · cases hj

end Context

namespace Walk

variable {s : Setting} {is tail out : List Instruction} {w w' : Walk}

lemma dependency_turnQueue (c : Context) (i : Instruction) : (turnQueue c i).dependency = .none := by
  rw [turnQueue]
  split <;> rfl

lemma takeWhile_of_isWait (htail : ∀ j ∈ tail, j.isWait = true) :
    tail.takeWhile (!·.isWait) = [] := by
  cases tail with
  | nil => rfl
  | cons j tail =>
    rw [List.takeWhile_cons, htail j (by simp)]
    rfl

/-- What is queued is put out before anything else. -/
lemma takeWhile_steps (his : ∀ i ∈ is, i.Steady s)
    (htail : ∀ j ∈ tail, j.isWait = true) (h : steps s is w = .ok (out, w'))
    (hfits : w.queue.dependency.Fits) (hq : w.queue ≠ {}) :
    (out ++ tail).takeWhile (!·.isWait) = [] := by
  induction is generalizing w out with
  | nil =>
    cases h
    exact takeWhile_of_isWait htail
  | cons i rest ih =>
    obtain ⟨emitted, w₁, later, hstep, hlater, rfl⟩ := steps_cons h
    have hrest := fun j hj => his j (List.mem_cons_of_mem _ hj)
    have hboth := Queue.covers_both hfits (.ofInstruction i)
    rcases (step_steady (his i (by simp))).1 hstep with ⟨-, rfl, rfl⟩ | ⟨-, left, c, q, hprepare, h⟩
    · exact ih hrest hlater hboth.fits (fun hempty => hq (hboth.eq_empty hempty))
    · have hcovers := (prepare_covers hfits hprepare).trans hboth
      have hne : q ≠ {} := fun hempty => hq (hcovers.eq_empty hempty)
      rcases h with ⟨-, rfl, rfl⟩ | ⟨-, c', -, rfl, -⟩
      · exact ih hrest hlater hcovers.fits hne
      · rw [List.append_assoc, List.append_assoc]
        exact Queue.takeWhile_instructions hne _

/-- Where a walk puts no wait, none is needed in the context from which it came either. -/
lemma steps_clear (his : ∀ i ∈ is, i.Steady s)
    (htail : ∀ j ∈ tail, j.isWait = true) (h : steps s is w = .ok (out, w'))
    (hw : w.context.Tidy s.generation) (hfits : w.queue.dependency.Fits) :
    w.context.Clear s (out ++ tail) := by
  by_cases hq : w.queue = {}
  swap
  · exact Context.clear_of_isWait (takeWhile_steps his htail h hfits hq)
  induction is generalizing w out with
  | nil =>
    cases h
    exact Context.clear_of_isWait (takeWhile_of_isWait htail)
  | cons i rest ih =>
    obtain ⟨emitted, w₁, later, hstep, hlater, rfl⟩ := steps_cons h
    have hi := his i (by simp)
    have hrest := fun j hj => his j (List.mem_cons_of_mem _ hj)
    have hw₁ := (Context.kept_tidy s).step hi hrest hstep hw
    -- The rest is clear where the walk comes to, and what has been put out in between takes nothing away.
    have hclear : w₁.queue.dependency.Fits → (w₁.queue = {} → w.context.Within .none w₁.context) →
        w.context.Clear s (later ++ tail) := by
      intro hfits₁ hwithin
      by_cases hq₁ : w₁.queue = {}
      · exact (ih hrest hlater hw₁ hfits₁ hq₁).mono (hwithin hq₁) hw hw₁
      · exact Context.clear_of_isWait (takeWhile_steps hrest htail hlater hfits₁ hq₁)
    rcases (step_steady hi).1 hstep with ⟨-, rfl, rfl⟩ | ⟨-, left, c, q, hprepare, h⟩
    · exact hclear (hfits.both _) fun _ => (Context.Below.refl _).within _
    · have hcovers := prepare_covers hfits hprepare
      rcases h with ⟨-, rfl, rfl⟩ | ⟨hkept, c', hstart, rfl, rfl⟩
      · exact hclear hcovers.fits fun hempty => (prepare_below hfits hprepare hempty).within _
      · rw [List.append_assoc, List.append_assoc]
        by_cases hempty : q = {}
        swap
        · exact Context.clear_of_isWait (Queue.takeWhile_instructions hempty _)
        have hbelow := prepare_below hfits hprepare hempty
        have hc := (Context.kept_tidy s).prepare hi hrest hprepare hw
        have hwithin := (hbelow.within .none).trans ((hc.within_start hi hstart).trans
          ((c'.below_deferAfter s i).within .none))
        have hlaterClear := hclear ((dependency_turnQueue _ i).symm ▸ DependencyWait.fits_none) fun _ => hwithin
        obtain ⟨hb, hno⟩ := Bool.or_eq_false_iff.1 hkept
        obtain ⟨c₁, q₁, hawaited, hall⟩ := prepare_awaited hprepare
        have hsat : w.context.Satisfied s i .none := by
          refine (Context.satisfied_of_awaited hawaited).of_le ?_
          have hle := hall.le
          rwa [hempty] at hle
        rw [hempty, Queue.instructions_empty, List.nil_append, List.singleton_append]
        intro j hj
        rw [List.takeWhile_cons, hno] at hj
        rcases List.mem_cons.1 hj with rfl | hj
        · exact ⟨hi, hb, hsat⟩
        · exact hlaterClear j hj

end Walk

/-! ### The second walk -/

namespace Walk

variable {s : Setting} {i : Instruction} {is js rest out out' : List Instruction} {v v₁ v' : Walk}
  {x : Context} {q : Queue} {left : Nat}

/-- In front of `rest` the walk over `is` comes from `v` to `v'` and puts `out` out. -/
def Leads (s : Setting) (rest is : List Instruction) (v : Walk) (out : List Instruction) (v' : Walk) :
    Prop :=
  ∀ later v₂, steps s rest v' = .ok (later, v₂) → steps s (is ++ rest) v = .ok (out ++ later, v₂)

lemma leads_nil (s : Setting) (rest : List Instruction) (v : Walk) : Leads s rest [] v [] v :=
  fun _ _ h => h

lemma leads_of_step (h : step s i rest v = .ok (out, v')) : Leads s rest [i] v out v' := by
  intro later v₂ hlater
  rw [List.singleton_append, steps, h]
  change (steps s rest v' >>= fun x => pure (out ++ x.1, x.2)) = _
  rw [hlater]
  rfl

lemma Leads.append (h : Leads s (js ++ rest) is v out v₁) (h' : Leads s rest js v₁ out' v') :
    Leads s rest (is ++ js) v (out ++ out') v' := by
  intro later v₂ hlater
  rw [List.append_assoc, List.append_assoc]
  exact h _ _ (h' _ _ hlater)

/-- A wait that stands in the code is taken out and queued. -/
lemma step_wait (hdrain : s.drainAll = false) (hi : i ∈ q.instructions)
    (rest : List Instruction) (hv : v.context.Tidy s.generation) (hfits : v.queue.dependency.Fits) :
    ∃ x left, v.context.settle s.generation (v.queue.both (.ofInstruction i)).wait = .ok x
      ∧ step s i rest v = .ok ([], ⟨x, v.queue.both (.ofInstruction i), left⟩) := by
  have hsteady := (Queue.isInserted_of_mem hi s).steady
  have hwait := Queue.isWait_of_mem hi
  have hb : i.isBarrier = false := by
    rw [Instruction.isBarrier, Instruction.format_of_isWait hsteady.coherent hwait]
    rfl
  have hmsg : i.isRegisterRelease s = false := by
    rw [Bool.eq_false_iff]
    intro hmsg
    rw [Instruction.not_isWait_of_isRegisterRelease hmsg] at hwait
    cases hwait
  obtain ⟨x, hx, hawait⟩ := Context.await_of_satisfied (q := v.queue.both (.ofInstruction i)) hb
    hv (hfits.both _) (Queue.satisfied_of_mem hdrain hi v.context _)
  rw [Queue.deferBefore_of_mem hi] at hx
  -- A wait has no operands, so that no clause goes on with it.
  obtain ⟨left, hprepare⟩ : ∃ left, prepare s i rest v
      = .ok (left, x, v.queue.both (.ofInstruction i)) := by
    have hnone : ∀ j, i.sharesClause j = false := by
      intro j
      rcases Queue.eq_of_mem hi with rfl | rfl <;>
        simp [Instruction.sharesClause, Instruction.ofWait, Instruction.ofDependencyWait]
    have hclause : x.awaitClause s i rest (v.queue.both (.ofInstruction i))
        = .ok (0, x, v.queue.both (.ofInstruction i)) := by
      rw [Context.awaitClause, if_neg]
      · rfl
      · cases rest <;> simp [hnone]
    simp only [prepare, hawait, bind, Except.bind, hclause]
    split
    · exact ⟨_, rfl⟩
    · exact ⟨_, rfl⟩
  refine ⟨x, left, hx, (step_steady hsteady).2 (.inr ⟨hmsg, left, x, _, hprepare, .inl ⟨?_, rfl, rfl⟩⟩)⟩
  rw [hb, hwait]
  rfl

/-- The waits of a queue, one for each sort of counters, are taken out and queued again. -/
lemma leads_instructions (hdrain : s.drainAll = false)
    (rest : List Instruction) (hv : v.context.Tidy s.generation) (hq : q.dependency.Fits)
    (hle : q.wait ≤ v.queue.wait) (hdep : v.queue.dependency = .none) :
    ∃ (x d : Context) (left : Nat), v.context.settle s.generation q.wait = .ok d ∧ x.Below d
      ∧ x.Tidy s.generation ∧ Leads s rest q.instructions v [] ⟨x, q, left⟩ := by
  have hfits : v.queue.dependency.Fits := hdep ▸ DependencyWait.fits_none
  -- The first one completes what the queue waits for.
  obtain ⟨d, left, hd, hfirst⟩ : ∃ (d : Context) (left : Nat),
      v.context.settle s.generation q.wait = .ok d ∧ Leads s
        ((if q.dependency.isNone then [] else [.ofDependencyWait q.dependency]) ++ rest)
        (if q.wait.isNone then [] else [.ofWait q.wait]) v [] ⟨d, ⟨q.wait, .none⟩, left⟩ := by
    by_cases hnone : q.wait.isNone = true
    · rw [if_pos hnone]
      rw [Wait.isNone_iff.1 hnone] at hle ⊢
      have hqueue : v.queue = ⟨.none, .none⟩ := congrArg₂ Queue.mk (Wait.eq_none_of_le hle) hdep
      exact ⟨v.context, v.clauseLeft, rfl, hqueue ▸ leads_nil s _ v⟩
    · have hmem : .ofWait q.wait ∈ q.instructions := by
        rw [Queue.instructions, if_neg hnone]
        simp
      have hqueue : v.queue.both (.ofInstruction (.ofWait q.wait)) = ⟨q.wait, .none⟩ := by
        refine congrArg₂ Queue.mk ?_ ?_
        · rw [Wait.both_comm]
          exact Wait.both_eq_left hle
        · rw [hdep]
          exact DependencyWait.fits_none.both_none
      obtain ⟨d, left, hd, hstep⟩ := step_wait hdrain hmem _ hv hfits
      rw [hqueue] at hd hstep
      rw [if_neg hnone]
      exact ⟨d, left, hd, leads_of_step hstep⟩
  have hdtidy := hv.settle hd
  obtain ⟨x, left', hx, hxtidy, hsecond⟩ : ∃ (x : Context) (left' : Nat), x.Below d
      ∧ x.Tidy s.generation ∧ Leads s rest
        (if q.dependency.isNone then [] else [.ofDependencyWait q.dependency])
          ⟨d, ⟨q.wait, .none⟩, left⟩ [] ⟨x, q, left'⟩ := by
    by_cases hnone : q.dependency.isNone = true
    · rw [if_pos hnone, show (⟨q.wait, .none⟩ : Queue) = q from congrArg _ (beq_iff_eq.1 hnone).symm]
      exact ⟨d, left, .refl d, hdtidy, leads_nil s rest _⟩
    · have hmem : .ofDependencyWait q.dependency ∈ q.instructions := by
        rw [Queue.instructions, if_neg hnone]
        simp
      have hqueue : (⟨q.wait, .none⟩ : Queue).both (.ofInstruction (.ofDependencyWait q.dependency))
          = q := congrArg₂ Queue.mk (Wait.both_none q.wait) hq.none_both
      obtain ⟨x, left', hx, hstep⟩ := step_wait (v := ⟨d, ⟨q.wait, .none⟩, left⟩) hdrain hmem rest
        hdtidy DependencyWait.fits_none
      rw [hqueue] at hx hstep
      rw [if_neg hnone]
      exact ⟨x, left', Context.settle_below hdtidy hx, hdtidy.settle hx, leads_of_step hstep⟩
  exact ⟨x, d, left', hd, hx, hxtidy, hfirst.append hsecond⟩

/-- An instruction that is satisfied is put back behind the waits that were there.  Looking ahead at the
rest of its clause adds nothing if it is satisfied as well. -/
lemma step_satisfied (hi : i.Steady s) (hkept : (i.isBarrier || i.isWait) = false)
    (hmsg : i.isRegisterRelease s = false) (happlies : ∀ e ∈ i.effects s, e.Applies)
    (hrest : ∀ j ∈ rest, j.Steady s) (hx : x.Tidy s.generation) (hq : q.dependency.Fits)
    (hsat : x.Satisfied s i q.wait) {y₀ : Context}
    (hy₀ : (x.deferBefore s i).settle s.generation q.wait = .ok y₀)
    (hclause : ∀ j ∈ rest.takeWhile i.sharesClause, j.isBarrier = false ∧ y₀.Satisfied s j q.wait) :
    ∃ (y z : Context) (left' : Nat), y.Below y₀ ∧ y.Tidy s.generation ∧ y.start s i = .ok z
      ∧ step s i rest ⟨x, q, left⟩ = .ok (q.instructions ++ [i],
        ⟨z.deferAfter s i, turnQueue (z.deferAfter s i) i, left'⟩) := by
  obtain ⟨hb, hno⟩ := Bool.or_eq_false_iff.1 hkept
  have hqueue : q.both (.ofInstruction i) = q := by
    rw [Queue.ofInstruction_of_not_isWait hno]
    exact congrArg₂ Queue.mk (Wait.both_none _) hq.both_none
  have hy₀tidy := (hx.deferBefore s i).settle hy₀
  obtain ⟨left', y, hprepare, hy, hbelow⟩ : ∃ left' y, prepare s i rest ⟨x, q, left⟩ = .ok (left', y, q)
      ∧ y.Tidy s.generation ∧ y.Below y₀ := by
    obtain ⟨_, hsettled, hfirst⟩ := Context.await_of_satisfied hb hx hq hsat
    cases hy₀.symm.trans hsettled
    simp only [prepare, hqueue, hfirst, bind, Except.bind]
    split
    swap
    · exact ⟨_, y₀, rfl, hy₀tidy, .refl y₀⟩
    rename_i hopens
    have hds : i.isDs = false := by simpa using (Bool.and_eq_true_iff.1 hopens).2
    -- Waiting for what is satisfied only carries out the queue once more.
    have hawait : ∀ {c : Context} {q' : Queue} {j : Instruction},
        j.Steady s ∧ i.sharesClause j = true ∧ j.isBarrier = false ∧ y₀.Satisfied s j q.wait →
          q' = q ∧ c.Tidy s.generation ∧ c.Below y₀ →
            ∃ c' q'', c.await s j q' = .ok (c', q'') ∧ q'' = q ∧ c'.Tidy s.generation ∧ c'.Below y₀ := by
      rintro c q' j ⟨hj, hshares, hbj, hsatj⟩ ⟨rfl, hc, hbelow⟩
      have hsatc := hsatj.mono (hbelow.within _) hc hy₀tidy.sound
      obtain ⟨c', hc', hawait⟩ := Context.await_of_satisfied hbj hc hq hsatc
      refine ⟨c', _, hawait, rfl, (hc.deferBefore s j).settle hc', .trans ?_ hbelow⟩
      refine hsatc.below_of_settle hc hbj hj.coherent (fun hrelease hscope => ?_) hc'
      rcases hj.releases hrelease hscope with hno | hno | hpays
      · rw [hbj] at hno
        cases hno
      · rw [Instruction.isDs, Instruction.format_of_sharesClause hshares] at hno
        exact absurd hno (Bool.eq_false_iff.1 hds)
      · exact hpays
    obtain ⟨n, y, q', hlater, rfl, hy, hbelow⟩ := Context.awaitClause_exists
      (fun j => j.Steady s ∧ i.sharesClause j = true ∧ j.isBarrier = false ∧ y₀.Satisfied s j q.wait)
      (fun c q' => q' = q ∧ c.Tidy s.generation ∧ c.Below y₀)
      hawait hi.valid (fun j hj => (hrest j hj).valid)
      (fun j hj => ⟨hrest j ((List.takeWhile_sublist _).subset hj), List.all_eq_true.1 List.all_takeWhile j hj,
        hclause j hj⟩)
      ⟨rfl, hy₀tidy, .refl y₀⟩
    exact ⟨n, y, hlater, hy, hbelow⟩
  obtain ⟨z, hstart⟩ := Context.start_total hy.sound happlies
  exact ⟨y, z, left', hbelow, hy, hstart,
    (step_steady hi).2 (.inr ⟨hmsg, left', y, q, hprepare, .inr ⟨hkept, z, hstart, rfl, rfl⟩⟩)⟩

end Walk

/-- What a wait has left stays below a context that waits for some more instructions, if the wait is enough
for all of them. -/
lemma Context.AwaitedAll.stays_below {s : Setting} {c c' x y : Context} {q q' : Queue}
    (h : AwaitedAll s c q c' q') (hx : x.Tidy s.generation)
    (hy : x.settle s.generation q'.wait = .ok y) (hc : c.Tidy s.generation) (hbelow : y.Below c) :
    y.Below c' := by
  induction h with
  | none => exact hbelow
  | @more c₀ _ _ _ _ _ i hfirst hrest ih =>
    have hdefer := hc.deferBefore s i
    exact ih hy (hdefer.settle hfirst.settled) ((hbelow.trans (below_deferBefore _ s _)).settle_right hx
      hdefer hy hrest.le hfirst.settled)

/-! ### The two walks side by side -/

/-- The walk `v` over the code that the walk `w` has put out is at the same place.  It has not come to the
wait that `w` has queued, and once it does it has no more accesses than `w`. -/
structure Walk.Mirrors (s : Setting) (w v : Walk) : Prop where
  tidy : w.context.Tidy s.generation
  fits : w.queue.dependency.Fits
  again : v.context.Tidy s.generation
  below : ∀ d, v.context.settle s.generation w.queue.wait = .ok d → d.Below w.context
  queued : w.queue.wait ≤ v.queue.wait
  dependency : v.queue.dependency = .none

namespace Walk

variable {s : Setting} {i : Instruction} {is rest tail out : List Instruction} {w w' v : Walk}
  {c : Context} {q : Queue} {left : Nat}

/-- The first walk may queue more. -/
lemma Mirrors.queue (h : Mirrors s w v) (hq : q.Covers w.queue) (left : Nat) :
    Mirrors s ⟨w.context, q, left⟩ v where
  tidy := h.tidy
  fits := hq.fits
  again := h.again
  below d hd := by
    obtain ⟨d', hd'⟩ := Context.settle_total h.again.sound w.queue.wait
    exact (Context.below_of_settle_le h.again hd hq.wait hd').trans (h.below d' hd')
  queued := Wait.le_trans hq.wait h.queued
  dependency := h.dependency

/-- The first walk waits for an instruction. -/
lemma Mirrors.await (h : Mirrors s w v) (ha : w.context.await s i w.queue = .ok (c, q)) (left : Nat) :
    Mirrors s ⟨c, q, left⟩ v := by
  have hq := h.queue (Queue.covers_await h.fits ha) left
  have hsettled := (Context.awaited_of_await ha).settled
  have hdefer := h.tidy.deferBefore s i
  refine ⟨hdefer.settle hsettled, hq.fits, h.again, fun d hd => ?_, hq.queued, h.dependency⟩
  exact ((hq.below d hd).trans (w.context.below_deferBefore s i)).settle_right h.again hdefer hd
    (Wait.le_refl _) hsettled

lemma Mirrors.prepare (h : Mirrors s w v) (hp : Walk.prepare s i rest w = .ok (left, c, q)) :
    Mirrors s ⟨c, q, left⟩ v := by
  refine prepare_induction (fun _ => True) (fun c q => Mirrors s ⟨c, q, left⟩ v)
    (fun _ hawait hc => hc.await hawait left) trivial (fun _ _ => trivial) hp ?_
  exact h.queue (Queue.covers_both h.fits _) left

/-- Behind an instruction that was put back, nothing but the turn of an ordered count is queued. -/
lemma mirrors_of_below {c x : Context} (hc : c.Tidy s.generation) (hx : x.Tidy s.generation)
    (h : x.Below c) (i : Instruction) (left left' : Nat) :
    Mirrors s ⟨c, turnQueue c i, left⟩ ⟨x, turnQueue x i, left'⟩ where
  tidy := hc
  fits := dependency_turnQueue c i ▸ DependencyWait.fits_none
  again := hx
  below d hd := (Context.settle_below hx hd).trans h
  queued := by
    change (turnQueue c i).wait ≤ (turnQueue x i).wait
    rw [turnQueue, turnQueue]
    split
    · exact (h.demand .releaseDependency .gds).2
    · exact Wait.le_refl _
  dependency := dependency_turnQueue x i

/-- The first walk puts an instruction back behind the waits that it has queued.  The second walk takes
the waits out, finds that they are enough, and puts out the same. -/
lemma Mirrors.kept (hdrain : s.drainAll = false) (hw : Mirrors s w v)
    (hi : i.Steady s) (hmsg : i.isRegisterRelease s = false) (hkept : (i.isBarrier || i.isWait) = false)
    (hp : Walk.prepare s i rest w = .ok (left, c, q))
    {c' : Context} (hstart : c.start s i = .ok c') {l : List Instruction} (hl : ∀ j ∈ l, j.Steady s)
    (hclear : (c'.deferAfter s i).Clear s l) :
    ∃ v', Mirrors s ⟨c'.deferAfter s i, turnQueue (c'.deferAfter s i) i, left⟩ v'
      ∧ Leads s l (q.instructions ++ [i]) v (q.instructions ++ [i]) v' := by
  have hprepared := hw.prepare hp
  have hc' := hprepared.tidy.start hi hstart
  have hafter := hc'.deferAfter s i
  obtain ⟨x, d, leftx, hd, hxd, hx, hwaits⟩ := leads_instructions hdrain ([i] ++ l) hw.again
    hprepared.fits hprepared.queued hprepared.dependency
  have hxw : x.Below w.context := hxd.trans ((hw.queue
    ((prepare_covers hw.fits hp).trans (Queue.covers_both hw.fits _)) left).below d hd)
  obtain ⟨c₁, q₁, hawaited, hall⟩ := prepare_awaited hp
  have hsat : x.Satisfied s i q.wait :=
    ((Context.satisfied_of_awaited hawaited).of_le hall.le).mono (hxw.within _) hx hw.tidy.sound
  -- What the instruction defers at its turn is deferred by both.
  obtain ⟨y₀, hy₀⟩ := Context.settle_total (hx.deferBefore s i).sound q.wait
  have hyc : y₀.Below c := by
    have hdefer := hw.tidy.deferBefore s i
    refine hall.stays_below (hx.deferBefore s i) hy₀ (hdefer.settle hawaited.settled) ?_
    exact ((Context.settle_below (hx.deferBefore s i) hy₀).trans
      (hxw.deferBefore hx hw.tidy.sound s i)).settle_right (hx.deferBefore s i) hdefer hy₀ hall.le
        hawaited.settled
  have hyclear : y₀.Clear s l := hclear.mono
    ((hyc.within _).trans ((hprepared.tidy.within_start hi hstart).trans
      ((c'.below_deferAfter s i).within _))) ((hx.deferBefore s i).settle hy₀) hafter
  obtain ⟨y, z, lefty, hyy₀, hy, hystart, hstep⟩ := step_satisfied hi hkept hmsg
    (Context.applies_of_start hstart) hl
    hx hprepared.fits hsat hy₀ fun j hj => by
      obtain ⟨-, hb, hsatj⟩ := hyclear.clause hi.coherent
        (fun j hj => (hl j hj).coherent) hj
      exact ⟨hb, hsatj.of_le (Wait.le_none _)⟩
  have hz := hy.start hi hystart
  have hzc : z.Below c' := (hyy₀.trans hyc).start hy hprepared.tidy hi hystart hstart
  exact ⟨_, mirrors_of_below hafter (hz.deferAfter s i) (hzc.deferAfter hz hc'.sound s i) i _ _,
    hwaits.append (leads_of_step hstep)⟩

/-- Over the code that the first walk has put out, the second one puts out the same. -/
lemma Mirrors.steps (hdrain : s.drainAll = false)
    (his : ∀ i ∈ is, i.Steady s) (htail : ∀ j ∈ tail, j.Steady s ∧ j.isWait = true)
    (hw : Mirrors s w v) (h : Walk.steps s is w = .ok (out, w')) :
    ∃ v', Mirrors s w' v' ∧ Leads s tail out v out v' := by
  induction is generalizing w v out with
  | nil =>
    cases h
    exact ⟨v, hw, leads_nil s tail v⟩
  | cons i rest ih =>
    obtain ⟨emitted, w₁, later, hstep, hlater, rfl⟩ := steps_cons h
    have hi := his i (by simp)
    have hrest := fun j hj => his j (List.mem_cons_of_mem _ hj)
    rcases (step_steady hi).1 hstep with ⟨-, rfl, rfl⟩ | ⟨hmsg, left, c, q, hprepare, hcase⟩
    · exact ih hrest (hw.queue (Queue.covers_both hw.fits _) _) hlater
    have hprepared := hw.prepare hprepare
    rcases hcase with ⟨-, rfl, rfl⟩ | ⟨hkept, c', hstart, rfl, rfl⟩
    · exact ih hrest hprepared hlater
    have hl : ∀ j ∈ later ++ tail, j.Steady s := by
      intro j hj
      rcases List.mem_append.1 hj with hj | hj
      · rcases mem_steps hlater hj with hinserted | ⟨k, hk, htakes⟩
        · exact hinserted.steady
        · rw [(hrest k hk).eq_of_takesOver htakes]
          exact hrest k hk
      · exact (htail j hj).1
    have hafter := (Context.kept_tidy s).step hi hrest hstep hw.tidy
    have hclear := steps_clear hrest (fun j hj => (htail j hj).2) hlater hafter
      (dependency_turnQueue _ i ▸ DependencyWait.fits_none)
    obtain ⟨v₁, hv₁, hleads⟩ := hw.kept hdrain hi hmsg hkept hprepare hstart hl hclear
    obtain ⟨v', hv', hlaterLeads⟩ := ih hrest hv₁ hlater
    exact ⟨v', hv', hleads.append hlaterLeads⟩

end Walk

namespace Block

variable {s : Setting} {b b' : Block} {c c' d : Context}

lemma covers_finalQueue (b : Block) {w : Walk} (hw : w.queue.dependency.Fits) :
    (b.finalQueue w).Covers w.queue := by
  rw [finalQueue]
  split
  · exact ⟨Wait.both_le_left _ _, hw, id⟩
  · exact ⟨Wait.le_refl _, hw, id⟩

/-- A block with its waits stays as it is when it is entered again with no more accesses, and is left with
no more accesses then. -/
lemma insertWaits_again (hdrain : s.drainAll = false)
    (hb : ∀ i ∈ b.instructions, i.Steady s) (h : b.insertWaits s c = .ok (b', c'))
    (hc : c.Tidy s.generation) (hd : d.Tidy s.generation) (hbelow : d.Below c) :
    ∃ d', b'.insertWaits s d = .ok (b', d') ∧ d'.Below c' ∧ d'.Tidy s.generation := by
  obtain ⟨out, w, hsteps, rfl, rfl⟩ := insertWaits_eq_ok.1 h
  have hstart : Walk.Mirrors s { context := c } { context := d } :=
    Walk.mirrors_of_below hc hd hbelow (.ofWait .none) 0 0
  have htail : ∀ j ∈ (b.finalQueue w).instructions, j.Steady s ∧ j.isWait = true := fun j hj =>
    ⟨(Queue.isInserted_of_mem hj s).steady, Queue.isWait_of_mem hj⟩
  obtain ⟨v, hv, hleads⟩ := hstart.steps hdrain hb htail hsteps
  have hfinal := hv.queue (covers_finalQueue b hv.fits) 0
  obtain ⟨x, e, left, he, hxe, hx, hwaits⟩ := Walk.leads_instructions hdrain [] hv.again hfinal.fits
    hfinal.queued hfinal.dependency
  have hxw : x.Below w.context := hxe.trans (hfinal.below e he)
  -- There is nothing to wait for at the end that has not been waited for.
  have hsame : b.finalQueue ⟨x, b.finalQueue w, left⟩ = b.finalQueue w := by
    by_cases hregs : .endWithRegs ∈ b.kind
    · have hdrain : (b.finalQueue w).wait ≤ .drain x.nonzero := by
        rw [finalQueue, if_pos hregs]
        exact Wait.le_trans (Wait.both_le_right _ _)
          (Wait.drain_le_drain fun n hn => hxw.mem_nonzero hn)
      conv_lhs => rw [finalQueue, if_pos hregs]
      exact congrArg (Queue.mk · _) (Wait.both_eq_left hdrain)
    · rw [finalQueue, if_neg hregs]
  refine ⟨x, insertWaits_eq_ok.2 ⟨out, ⟨x, b.finalQueue w, left⟩, ?_, ?_, rfl⟩, hxw, hx⟩
  · have hend := hwaits [] _ rfl
    rw [List.append_nil] at hend
    have hcode := hleads _ _ hend
    rwa [List.append_nil, List.append_nil] at hcode
  · exact congrArg (fun l => { b with instructions := out ++ Queue.instructions l }) hsame.symm

end Block

end GpuWaits
