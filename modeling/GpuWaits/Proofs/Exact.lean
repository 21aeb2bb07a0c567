/-
# Memories that list what they ask for

A memory of deferred barriers carries two summaries beside its demands: the set of the storage classes
that have one, and whether there is any.  Joins report nothing about the summaries.  So a report of "no
change" means that the context stays as it is only if the demands determine the summaries
(`Context.Agrees.eq`).  This file shows that they do in every context that a walk comes to, as long as
the accesses of the program name storage classes that exist (`Context.kept_exact`).

On the way the file gives a step of a walk in full (`Walk.step_eq_ok`), and says what it takes for a
property of contexts to last through a walk (`Context.Kept`).
-/
import GpuWaits.Proofs.Forms

namespace GpuWaits

/-! ### A step in full -/

lemma Queue.isInserted_of_mem {q : Queue} {j : Instruction} (hj : j ∈ q.instructions)
    (s : Setting) : j.IsInserted s :=
  View.legal_put_queue (s := s) q (.put j) (List.mem_map_of_mem hj)

namespace Walk

variable {s : Setting} {i : Instruction} {rest : List Instruction} {w w' : Walk}

/-- What a step waits for before it puts anything out: the instruction itself, and perhaps the rest of
its clause.  Also tells how much of the clause is left. -/
def prepare (s : Setting) (i : Instruction) (rest : List Instruction) (w : Walk) :
    Except Fault (Nat × Context × Queue) := do
  let (c, q) ← w.context.await s i (w.queue.both (.ofInstruction i))
  if (w.clauseLeft == 0 || !q.wait.isNone) && !i.isDs then c.awaitClause s i rest q
  else return (w.clauseLeft - 1, c, q)

/-- What is put in front of the end of the program, and what stays in the queue. -/
def finish (s : Setting) (i : Instruction) (c : Context) (q : Queue) : List Instruction × Queue :=
  if i.opcode = .sEndpgm then release s c q else ([], q)

/-- All that a step does. -/
lemma step_eq_ok {out : List Instruction} :
    step s i rest w = .ok (out, w') ↔
      (i.isRegisterRelease s = true ∧ out = []
          ∧ w' = { w with queue := w.queue.both (.ofInstruction i), clauseLeft := w.clauseLeft - 1 })
        ∨ i.isRegisterRelease s = false ∧ ∃ left c q c',
          prepare s i rest w = .ok (left, c, q) ∧ c.start s i = .ok c'
            ∧ ((i.isBarrier || i.isWait) = true ∧ out = (finish s i c q).1
                ∧ w' = { context := c', queue := (finish s i c q).2, clauseLeft := left }
              ∨ (i.isBarrier || i.isWait) = false
                ∧ out = (finish s i c q).1 ++ (absorb i (finish s i c q).2).2.instructions
                  ++ [(absorb i (finish s i c q).2).1]
                ∧ w' = { context := c'.deferAfter s i, queue := turnQueue (c'.deferAfter s i) i,
                         clauseLeft := left }) := by
  by_cases hmsg : i.isRegisterRelease s = true
  · rw [step, if_pos hmsg, pure_eq_ok, Prod.mk.injEq]
    constructor
    · rintro ⟨rfl, rfl⟩
      exact .inl ⟨hmsg, rfl, rfl⟩
    · rintro (⟨-, rfl, rfl⟩ | ⟨hno, -⟩)
      · exact ⟨rfl, rfl⟩
      · rw [hmsg] at hno
        cases hno
  -- Whether a clause is opened or not, the rest of the step is the same.
  have hstep : step s i rest w = .ok (out, w') ↔ ∃ left c q, prepare s i rest w = .ok (left, c, q)
      ∧ ∃ c', c.start s i = .ok c' ∧ (if (i.isBarrier || i.isWait) = true then
          pure ((finish s i c q).1,
            { context := c', queue := (finish s i c q).2, clauseLeft := left })
        else pure ((finish s i c q).1 ++ (absorb i (finish s i c q).2).2.instructions
            ++ [(absorb i (finish s i c q).2).1],
          { context := c'.deferAfter s i, queue := turnQueue (c'.deferAfter s i) i,
            clauseLeft := left })) = (.ok (out, w') : Except Fault _) := by
    rw [step, if_neg hmsg, prepare]
    simp only [bind_eq_ok, Prod.exists]
    constructor
    · rintro ⟨c₁, q₁, hawait, h⟩
      split at h
      · simp only [bind_eq_ok, Prod.exists] at h
        obtain ⟨left, c, q, hclause, h⟩ := h
        exact ⟨left, c, q, ⟨c₁, q₁, hawait, by rw [if_pos ‹_›]; exact hclause⟩, h⟩
      · simp only [bind_eq_ok, Prod.exists] at h
        obtain ⟨left, c, q, hclause, h⟩ := h
        exact ⟨left, c, q, ⟨c₁, q₁, hawait, by rw [if_neg ‹_›]; exact hclause⟩, h⟩
    · rintro ⟨left, c, q, ⟨c₁, q₁, hawait, hclause⟩, h⟩
      refine ⟨c₁, q₁, hawait, ?_⟩
      split
      · rw [if_pos ‹_›] at hclause
        simp only [bind_eq_ok, Prod.exists]
        exact ⟨left, c, q, hclause, h⟩
      · rw [if_neg ‹_›] at hclause
        simp only [bind_eq_ok, Prod.exists]
        exact ⟨left, c, q, hclause, h⟩
  rw [hstep, Bool.eq_false_iff.2 hmsg]
  simp only [Bool.false_eq_true, false_and, false_or, true_and]
  constructor
  · rintro ⟨left, c, q, hprepare, c', hstart, h⟩
    refine ⟨left, c, q, c', hprepare, hstart, ?_⟩
    split at h
    · cases h
      exact .inl ⟨‹_›, rfl, rfl⟩
    · cases h
      exact .inr ⟨Bool.eq_false_iff.2 ‹_›, rfl, rfl⟩
  · rintro ⟨left, c, q, c', hprepare, hstart, h⟩
    refine ⟨left, c, q, hprepare, c', hstart, ?_⟩
    rcases h with ⟨hremoved, rfl, rfl⟩ | ⟨hkept, rfl, rfl⟩
    · rw [if_pos hremoved]
      rfl
    · rw [if_neg (by simp [hkept])]
      rfl

/-- What every wait for an instruction keeps, all that a step waits for keeps.  The instructions behind
are looked at only as far as they go on with the clause. -/
lemma prepare_induction (good : Instruction → Prop) (P : Context → Queue → Prop)
    (hawait : ∀ {c c' : Context} {q q' : Queue} {j : Instruction}, good j →
      c.await s j q = .ok (c', q') → P c q → P c' q')
    {c : Context} {q : Queue} {left : Nat} (hi : good i)
    (hrest : ∀ j ∈ rest.takeWhile i.sharesClause, good j)
    (h : prepare s i rest w = .ok (left, c, q))
    (hw : P w.context (w.queue.both (.ofInstruction i))) : P c q := by
  have hlater : ∀ (rest : List Instruction) {written : ClauseWrites} {c c' : Context}
      {q q' : Queue} {n : Nat}, (∀ j ∈ rest.takeWhile i.sharesClause, good j) →
        Context.awaitRest s i rest written c q = .ok (n, c', q') → P c q → P c' q' := by
    intro rest
    induction rest with
    | nil =>
      intro written c c' q q' n _ h hc
      cases h
      exact hc
    | cons next rest ih =>
      intro written c c' q q' n hrest h hc
      rw [Context.awaitRest] at h
      split at h
      · rename_i hshares
        rw [List.takeWhile_cons_of_pos hshares] at hrest
        simp only [bind_eq_ok] at h
        obtain ⟨found, -, h⟩ := h
        cases found with
        | none =>
          cases h
          exact hc
        | some written =>
          simp only [bind_eq_ok, pure_eq_ok, Prod.exists, Prod.mk.injEq] at h
          obtain ⟨c₁, q₁, hnext, n, c₂, q₂, hlater, -, rfl, rfl⟩ := h
          exact ih (fun j hj => hrest j (List.mem_cons_of_mem _ hj)) hlater
            (hawait (hrest next (by simp)) hnext hc)
      · cases h
        exact hc
  simp only [prepare, bind_eq_ok, Prod.exists] at h
  obtain ⟨c₁, q₁, hfirst, h⟩ := h
  have hc₁ := hawait hi hfirst hw
  split at h
  · rw [Context.awaitClause] at h
    split at h
    · simp only [bind_eq_ok] at h
      obtain ⟨written, -, h⟩ := h
      exact hlater rest hrest h hc₁
    · cases h
      exact hc₁
  · cases h
    exact hc₁

lemma isInserted_of_mem_finish {c : Context} {q : Queue} {j : Instruction}
    (hj : j ∈ (finish s i c q).1) : j.IsInserted s := by
  rw [finish] at hj
  split at hj
  · rw [release] at hj
    split at hj
    · rename_i hreleases
      rcases List.mem_append.1 hj with hj | hj
      · exact Queue.isInserted_of_mem hj s
      · simp only [releasesRegisters, Bool.and_eq_true, decide_eq_true_eq] at hreleases
        exact .inr (.inr ⟨hreleases.1.1.1.1, List.mem_singleton.1 hj⟩)
    · cases hj
  · cases hj

/-- What a step puts out is inserted or has been there before. -/
lemma mem_step {out : List Instruction} (h : step s i rest w = .ok (out, w')) {j : Instruction}
    (hj : j ∈ out) : j.IsInserted s ∨ i.TakesOver j := by
  rcases step_eq_ok.1 h with ⟨-, rfl, -⟩ | ⟨-, left, c, q, c', -, -, ⟨-, rfl, -⟩ | ⟨-, rfl, -⟩⟩
  · cases hj
  · exact .inl (isInserted_of_mem_finish hj)
  · rcases List.mem_append.1 hj with hj | hj
    · rcases List.mem_append.1 hj with hj | hj
      · exact .inl (isInserted_of_mem_finish hj)
      · exact .inl (Queue.isInserted_of_mem hj s)
    · rw [List.mem_singleton.1 hj]
      exact .inr (absorb_spec i _).1

lemma mem_steps {is out : List Instruction} (h : steps s is w = .ok (out, w')) {j : Instruction}
    (hj : j ∈ out) : j.IsInserted s ∨ ∃ i ∈ is, i.TakesOver j := by
  induction is generalizing w out with
  | nil =>
    cases h
    cases hj
  | cons i rest ih =>
    obtain ⟨emitted, w₁, later, hstep, hrest, rfl⟩ := steps_cons h
    rcases List.mem_append.1 hj with hj | hj
    · exact (mem_step hstep hj).imp id fun htakes => ⟨i, by simp, htakes⟩
    · refine (ih hrest hj).imp id ?_
      rintro ⟨k, hk, htakes⟩
      exact ⟨k, List.mem_cons_of_mem _ hk, htakes⟩

end Walk

/-- The instructions of a rewritten block have been put in, or were there before. -/
lemma Block.mem_or_mem_of_insertWaits {s : Setting} {b b' : Block} {c c' : Context}
    (h : b.insertWaits s c = .ok (b', c')) {j : Instruction} (hj : j ∈ b'.instructions) :
    j.IsInserted s ∨ ∃ i ∈ b.instructions, i.TakesOver j := by
  obtain ⟨code, w, hsteps, rfl, -⟩ := insertWaits_eq_ok.1 h
  rcases List.mem_append.1 hj with hj | hj
  · exact Walk.mem_steps hsteps hj
  · exact .inl (Queue.isInserted_of_mem hj s)

/-! ### Properties that a walk keeps -/

/-- The operations of a walk over `good` instructions keep the property `P` of contexts. -/
structure Context.Kept (s : Setting) (good : Instruction → Prop) (P : Context → Prop) : Prop where
  defer : ∀ {c : Context} {i : Instruction}, good i → P c → P (c.deferBefore s i)
  settle : ∀ {c c' : Context} {w : Wait}, c.settle s.generation w = .ok c' → P c → P c'
  start : ∀ {c c' : Context} {i : Instruction}, good i → c.start s i = .ok c' → P c → P c'
  after : ∀ {c : Context} {i : Instruction}, good i → P c → P (c.deferAfter s i)

namespace Context.Kept

variable {s : Setting} {good : Instruction → Prop} {P : Context → Prop} (hP : Context.Kept s good P)
  {i : Instruction} {rest : List Instruction} {c c' : Context}

include hP

lemma await {q q' : Queue} (hi : good i) (h : c.await s i q = .ok (c', q')) (hc : P c) : P c' :=
  hP.settle (Context.awaited_of_await h).settled (hP.defer hi hc)

lemma prepare {w : Walk} {q : Queue} {left : Nat} (hi : good i) (hrest : ∀ j ∈ rest, good j)
    (h : Walk.prepare s i rest w = .ok (left, c, q)) (hc : P w.context) : P c :=
  Walk.prepare_induction good (fun c _ => P c) (fun hj hawait hc => hP.await hj hawait hc) hi
    (fun j hj => hrest j ((List.takeWhile_sublist _).subset hj)) h hc

lemma step {w w' : Walk} {out : List Instruction} (hi : good i) (hrest : ∀ j ∈ rest, good j)
    (h : Walk.step s i rest w = .ok (out, w')) (hc : P w.context) : P w'.context := by
  rcases Walk.step_eq_ok.1 h with ⟨-, -, rfl⟩ | ⟨-, left, c, q, c', hprepare, hstart, h⟩
  · exact hc
  · have hc' := hP.start hi hstart (hP.prepare hi hrest hprepare hc)
    rcases h with ⟨-, -, rfl⟩ | ⟨-, -, rfl⟩
    · exact hc'
    · exact hP.after hi hc'

lemma steps {is out : List Instruction} {w w' : Walk} (his : ∀ i ∈ is, good i)
    (h : Walk.steps s is w = .ok (out, w')) (hc : P w.context) : P w'.context := by
  induction is generalizing w out with
  | nil =>
    cases h
    exact hc
  | cons i rest ih =>
    obtain ⟨emitted, w₁, later, hstep, hlater, -⟩ := Walk.steps_cons h
    have hrest : ∀ j ∈ rest, good j := fun j hj => his j (List.mem_cons_of_mem _ hj)
    exact ih hrest hlater (hP.step (his i (by simp)) hrest hstep hc)

lemma insertWaits {b b' : Block} (hb : ∀ i ∈ b.instructions, good i)
    (h : b.insertWaits s c = .ok (b', c')) (hc : P c) : P c' := by
  obtain ⟨code, w, hsteps, -, rfl⟩ := Block.insertWaits_eq_ok.1 h
  exact hP.steps hb hsteps hc

end Context.Kept

/-! ### Storage classes that exist -/

/-- Every bit of the set is that of a storage class. -/
def StorageSet.Named (t : StorageSet) : Prop := StorageSet.all.lacks t = false

instance (t : StorageSet) : Decidable t.Named := inferInstanceAs (Decidable (_ = false))

namespace StorageSet

variable {t u : StorageSet}

lemma named_iff : t.Named ↔ t.IsNamed := by
  have hall : ∀ i < 16, StorageSet.all.bits.getLsbD i = true ↔ ∃ k ∈ Storage.all, Flag.bit k = i := by
    decide
  rw [Named, Flags.lacks_eq_false_iff]
  constructor
  · intro h i hi
    obtain ⟨k, -, hk⟩ := (hall i (BitVec.lt_of_getLsbD hi)).1 (h i hi)
    exact ⟨k, hk⟩
  · intro h i hi
    obtain ⟨k, hk⟩ := h i hi
    exact (hall i (BitVec.lt_of_getLsbD hi)).2 ⟨k, k.mem_all, hk⟩

lemma Named.ext (ht : t.Named) (hu : u.Named) (h : ∀ k, k ∈ t ↔ k ∈ u) : t = u :=
  (named_iff.1 ht).ext (named_iff.1 hu) h

lemma Named.isEmpty_eq_false_iff (ht : t.Named) : t.isEmpty = false ↔ ∃ k, k ∈ t := by
  constructor
  · intro h
    by_contra hno
    have hbit : ∀ i, t.bits.getLsbD i = false := by
      intro i
      by_contra hi
      obtain ⟨k, rfl⟩ := named_iff.1 ht i (by simpa using hi)
      exact hno ⟨k, by simpa [Flags.mem_def] using hi⟩
    rw [Flags.isEmpty_iff_bit.2 hbit] at h
    cases h
  · rintro ⟨k, hk⟩
    exact Flags.isEmpty_eq_false_of_mem hk

lemma named_empty : (∅ : StorageSet).Named := by decide

lemma named_all : StorageSet.all.Named := by decide

lemma Named.union (ht : t.Named) (hu : u.Named) : (t ∪ u).Named :=
  named_iff.2 ((named_iff.1 ht).union (named_iff.1 hu))

lemma Named.inter (ht : t.Named) (u : StorageSet) : (t ∩ u).Named := by
  rw [named_iff] at *
  intro i hi
  simp only [Inter.inter, BitVec.getLsbD_and, Bool.and_eq_true] at hi
  exact ht i hi.1

lemma Named.sdiff (ht : t.Named) (u : StorageSet) : (t \ u).Named := by
  rw [named_iff] at *
  intro i hi
  simp only [SDiff.sdiff, BitVec.getLsbD_and, Bool.and_eq_true] at hi
  exact ht i hi.1

end StorageSet

/-! ### Memories whose summaries are exact -/

/-- The classes with a demand are listed and no others, and the memory is live if there is one. -/
structure Barrier.Exact (b : Barrier) : Prop where
  named : b.storage.Named
  listed : ∀ k, k ∈ b.storage ↔ ∃ ev, ev ∈ (b.demand k).events
  live : b.live = true ↔ ∃ k, k ∈ b.storage

namespace Barrier

variable {g : Generation} {b o : Barrier}

/-- The demands determine the rest of the memory. -/
lemma Exact.eq (hb : b.Exact) (ho : o.Exact) (h : ∀ k, b.demand k = o.demand k) : b = o := by
  have hstorage : b.storage = o.storage := hb.named.ext ho.named fun k => by
    rw [hb.listed, ho.listed, h]
  have hlive : b.live = o.live := by
    rw [Bool.eq_iff_iff, hb.live, ho.live, hstorage]
  have hdemands : b.demands = o.demands := PerStorage.ext_get h
  cases b
  cases o
  simp only [Barrier.mk.injEq]
  exact ⟨hdemands, hstorage, hlive⟩

lemma exact_empty : ({} : Barrier).Exact := by
  have hdemand : ∀ k, ({} : Barrier).demand k = {} := fun k => by simp [demand]
  refine ⟨StorageSet.named_empty, fun k => ?_, by simp⟩
  rw [hdemand]
  simp

lemma Exact.join (hb : b.Exact) (ho : o.Exact) : (b.join o).Exact := by
  cases hl : o.live with
  | false =>
    rw [Barrier.join, hl]
    exact hb
  | true =>
    have hstorage : (b.join o).storage = b.storage ∪ o.storage := by simp [Barrier.join, hl]
    refine ⟨?_, fun k => ?_, ?_⟩
    · rw [hstorage]
      exact hb.named.union ho.named
    · rw [hstorage, demand_join, if_pos hl, Flags.mem_union, hb.listed, ho.listed, Demand.join]
      simp only [Flags.mem_union, exists_or]
    · obtain ⟨k, hk⟩ := ho.live.1 hl
      have hlive : (b.join o).live = true := by simp [Barrier.join, hl]
      rw [hlive, hstorage]
      exact iff_of_true rfl ⟨k, (Flags.mem_union _ _ _).2 (.inr hk)⟩

lemma Exact.record (hb : b.Exact) (ev : Event) {storage : StorageSet} (hs : storage.Named) :
    (b.record g ev storage).Exact := by
  refine ⟨hb.named.union hs, fun k => ?_, ?_⟩
  · rw [demand_record]
    simp only [Barrier.record, Flags.mem_union]
    by_cases hk : k ∈ storage
    · rw [if_pos hk]
      exact iff_of_true (.inr hk) ⟨ev, by simp [Demand.extend]⟩
    · rw [if_neg hk, or_iff_left hk]
      split
      · rw [events_age]
        exact hb.listed k
      · exact hb.listed k
  · simp only [Barrier.record, Flags.mem_union, Bool.or_eq_true, Bool.not_eq_true', exists_or,
      hb.live, hs.isEmpty_eq_false_iff]

end Barrier

/-- What settling leaves of a demand with an access has an access. -/
lemma Demand.event_of_settle {g : Generation} {targets : List (Counter × UInt16)} {d d' : Demand}
    (h : settle g targets d = .ok (some d')) (hd : ∃ ev, ev ∈ d.events) :
    ∃ ev, ev ∈ d'.events := by
  induction targets generalizing d with
  | nil =>
    cases h
    exact hd
  | cons t rest ih =>
    rw [settle_cons] at h
    split at h
    · split at h
      · split at h <;> cases h
      · rename_i hleft
        exact ih h (EventSet.isEmpty_eq_false_iff.1 (by simpa using hleft))
    · exact ih h hd

lemma Barrier.Exact.settle {g : Generation} {b b' : Barrier} {w : Wait} (hb : b.Exact)
    (hlive : b.live = true) (h : b.settle g w = .ok b') : b'.Exact := by
  obtain ⟨left, hleft, hdemand, hstorage, -⟩ := settle_eq_ok h
  have hnamed : b'.storage.Named ∧ b'.live = !b'.storage.isEmpty := by
    simp only [Barrier.settle, bind_eq_ok, pure_eq_ok] at h
    obtain ⟨_, -, rfl⟩ := h
    exact ⟨hb.named.sdiff _, by simp [hlive]⟩
  refine ⟨hnamed.1, fun k => ?_, ?_⟩
  · rw [hstorage, hdemand]
    have hk := hleft k
    split at hk
    · rename_i hmem
      cases hl : left.get k with
      | none => simp
      | some d =>
        rw [hl] at hk
        exact iff_of_true ⟨hmem, rfl⟩ (Demand.event_of_settle hk ((hb.listed k).1 hmem))
    · rename_i hmem
      rw [Except.ok.injEq] at hk
      rw [← hk]
      exact iff_of_false (fun h => hmem h.1) (fun h => hmem ((hb.listed k).2 h))
  · rw [hnamed.2, Bool.not_eq_true', hnamed.1.isEmpty_eq_false_iff]

/-! ### Contexts whose summaries are exact -/

/-- The memories of barriers are exact. -/
def Context.Exact (c : Context) : Prop := ∀ role, (c.barrier role).Exact

namespace Context

variable {c d : Context} {s : Setting} {i : Instruction}

lemma ext_barrier (hnonzero : c.nonzero = d.nonzero) (hlgkm : c.flatLgkm = d.flatLgkm)
    (hvm : c.flatVm = d.flatVm) (hregs : c.regs = d.regs)
    (hbarrier : ∀ role, c.barrier role = d.barrier role) : c = d := by
  have h₁ := hbarrier .releaseDependency
  have h₂ := hbarrier .acquireDependency
  have h₃ := hbarrier .release
  have h₄ := hbarrier .acquire
  cases c
  cases d
  simp only [Context.barrier] at h₁ h₂ h₃ h₄
  simp only [Context.mk.injEq]
  exact ⟨hnonzero, hlgkm, hvm, h₁, h₂, h₃, h₄, hregs⟩

/-- Contexts that differ at most in their summaries do not differ. -/
theorem Agrees.eq (h : c.Agrees d) (hc : c.Exact) (hd : d.Exact) : c = d :=
  ext_barrier h.nonzero h.flatLgkm h.flatVm h.regs fun role => (hc role).eq (hd role) (h.demand role)

lemma exact_empty : ({} : Context).Exact := by
  intro role
  cases role <;> exact Barrier.exact_empty

lemma Exact.join (hc : c.Exact) (hd : d.Exact) (edge : Edge) : (c.join d edge).Exact := by
  intro role
  rw [barrier_join]
  split
  · exact (hc role).join (hd role)
  · exact hc role

/-- Only the memories that are live are settled. -/
lemma barrier_of_settle {g : Generation} {w : Wait} (h : c.settle g w = .ok d) (role : BarrierRole) :
    (d.barrier role = c.barrier role ∧ (w = .none ∨ (c.barrier role).live = false))
      ∨ (c.barrier role).live = true ∧ (c.barrier role).settle g w = .ok (d.barrier role) := by
  have hbarrier : ∀ {role b}, c.settleBarrier g w role = .ok b →
      (b = c.barrier role ∧ (w = .none ∨ (c.barrier role).live = false))
        ∨ (c.barrier role).live = true ∧ (c.barrier role).settle g w = .ok b := by
    intro role b hb
    rw [settleBarrier] at hb
    split at hb
    · exact .inr ⟨‹_›, hb⟩
    · rename_i hlive
      cases hb
      exact .inl ⟨rfl, .inr (by simpa using hlive)⟩
  rw [settle] at h
  split at h
  · rename_i hnone
    cases h
    exact .inl ⟨rfl, .inl (Wait.isNone_iff.1 hnone)⟩
  · simp only [bind_eq_ok, pure_eq_ok] at h
    obtain ⟨b₁, h₁, b₂, h₂, b₃, h₃, b₄, h₄, rfl⟩ := h
    cases role
    · exact hbarrier h₁
    · exact hbarrier h₂
    · exact hbarrier h₃
    · exact hbarrier h₄

lemma Exact.settle {g : Generation} {w : Wait} (hc : c.Exact) (h : c.settle g w = .ok d) :
    d.Exact := by
  intro role
  rcases barrier_of_settle h role with ⟨heq, -⟩ | ⟨hlive, hsettle⟩
  · rw [heq]
    exact hc role
  · exact (hc role).settle hlive hsettle

lemma Exact.defer (hc : c.Exact) {sync : Sync} (hs : sync.storage.Named)
    (source target : BarrierRole) : (c.defer s sync source target).Exact := by
  rw [Context.defer]
  split
  · exact hc
  dsimp only
  split
  · exact hc
  rename_i hmoved
  change ¬(c.movedDemand s sync source).events.isEmpty = true at hmoved
  obtain ⟨ev, hev⟩ := EventSet.isEmpty_eq_false_iff.1 (by simpa using hmoved)
  -- Some class of the barrier has a demand, so that the target memory is not empty.
  obtain ⟨k₀, hk₀⟩ : ∃ k, k ∈ sync.storage := by
    by_contra hno
    have hnil : (sync.storage ∩ (c.barrier source).storage).toList = [] := by
      rw [Flags.toList, List.filter_eq_nil_iff]
      intro k _ hk
      exact hno ⟨k, ((Flags.mem_inter _ _ _).1 (of_decide_eq_true hk)).1⟩
    simp [movedDemand, hnil] at hev
  intro role
  rw [barrier_setBarrier]
  split
  · refine ⟨(hc target).named.union hs, fun k => ?_, ?_⟩
    · simp only [Barrier.demand, PerStorage.get_ofFn, Flags.mem_union]
      by_cases hk : k ∈ sync.storage
      · rw [if_pos hk]
        exact iff_of_true (.inr hk) ⟨ev, (Flags.mem_union _ _ _).2 (.inr hev)⟩
      · rw [if_neg hk, or_iff_left hk]
        exact (hc target).listed k
    · exact iff_of_true rfl ⟨k₀, (Flags.mem_union _ _ _).2 (.inr hk₀)⟩
  · exact hc role

lemma Exact.deferBefore (hc : c.Exact) (hi : i.sync.storage.Named) : (c.deferBefore s i).Exact := by
  have hreleased : (if .release ∈ i.sync.semantics then c.deferRelease s i.sync else c).Exact := by
    split
    · exact hc.defer hi _ _
    · exact hc
  rw [Context.deferBefore]
  split
  · split
    · exact hreleased.defer hi _ _
    · exact hreleased
  · exact hreleased

lemma Exact.deferAfter (hc : c.Exact) (hi : i.sync.storage.Named) : (c.deferAfter s i).Exact := by
  rw [Context.deferAfter]
  split
  · exact hc.defer hi _ _
  · exact hc

end Context

lemma Instruction.named_orderedStorage {i : Instruction} {s : Setting} {sync : Sync}
    (h : sync.storage.Named) (asked : SemanticSet) : (i.orderedStorage s sync asked).Named := by
  rw [orderedStorage]
  dsimp only
  split
  · split
    · exact h
    · exact StorageSet.named_empty
  split
  · exact StorageSet.named_all
  split
  · exact StorageSet.named_all
  · exact StorageSet.named_empty

/-- An event begins on behalf of the access itself, or without any synchronization. -/
lemma Instruction.sync_of_issue {i : Instruction} {s : Setting} {ev : Event} {sync : Sync}
    (h : .issue ev sync ∈ i.effects s) : sync = i.sync ∨ sync = {} := by
  cases mayStart_of_mem h with
  | access => exact .inl rfl
  | event hsync => exact hsync

namespace Context

variable {c d : Context} {s : Setting} {i : Instruction}

lemma Exact.recordEvent (hc : c.Exact) (ev : Event) {sync : Sync} (hs : sync.storage.Named)
    (i? : Option Instruction) : (c.recordEvent s ev sync i?).Exact := by
  intro role
  cases role with
  | releaseDependency =>
    refine (hc .releaseDependency).record ev ?_
    split
    · exact hs.inter _
    · exact hs
  | acquireDependency =>
    cases i? with
    | none => exact hc .acquireDependency
    | some i => exact (hc .acquireDependency).record ev (Instruction.named_orderedStorage hs _)
  | release => exact (hc .release).record ev StorageSet.named_empty
  | acquire => exact (hc .acquire).record ev StorageSet.named_empty

lemma Exact.issue (hc : c.Exact) {ev : Event} {sync : Sync} (hs : sync.storage.Named)
    {i? : Option Instruction} (h : c.issue s ev sync i? = .ok d) : d.Exact := by
  intro role
  rw [(issued_of_issue h).barrier]
  exact hc.recordEvent ev hs i? role

lemma Exact.track {g : Generation} {range : RegRange} {ev : Event} {blocksReads : Bool}
    {types : VmemTypeSet} {halves : BitVec 32} (hc : c.Exact)
    (h : c.track g range ev blocksReads types halves = .ok d) : d.Exact := by
  obtain ⟨-, rfl⟩ := track_eq_ok.1 h
  intro role
  cases role
  · exact hc .releaseDependency
  · exact hc .acquireDependency
  · exact hc .release
  · exact hc .acquire

lemma Exact.start (hc : c.Exact) (hi : i.sync.storage.Named) (h : c.start s i = .ok d) :
    d.Exact := by
  refine foldlM_invariant Exact (fun effect he c d hc h => ?_) hc h
  cases effect with
  | issue ev sync =>
    refine hc.issue ?_ h
    rcases Instruction.sync_of_issue he with rfl | rfl
    · exact hi
    · exact StorageSet.named_empty
  | track range ev blocksReads types halves => exact hc.track h
  | flat =>
    cases h
    intro role
    cases role
    · exact hc .releaseDependency
    · exact hc .acquireDependency
    · exact hc .release
    · exact hc .acquire
  | fail fault => cases h

/-- A walk over accesses that name storage classes which exist keeps contexts exact. -/
lemma kept_exact (s : Setting) : Kept s (·.sync.storage.Named) Exact where
  defer hi hc := hc.deferBefore hi
  settle h hc := hc.settle h
  start hi h hc := hc.start hi h
  after hi hc := hc.deferAfter hi

end Context

end GpuWaits
