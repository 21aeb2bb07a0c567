/-
# The checker accepts a rewritten block

When the context at the entry of a block covers what is in flight there, the checker goes through the
rewritten block without a finding, and the context at the end covers what is in flight there
(`Block.stepBlock_insertWaits`).  The checker is one more view of the code that a walk puts out: its
state is the place of the next instruction and the accesses in flight.
-/
import GpuWaits.Proofs.Cover

namespace GpuWaits

variable {s : Setting}

/-! ### Instructions that take over a wait -/

namespace Instruction

variable {i kept : Instruction}

/-- Taking over a wait changes nothing that the instruction starts. -/
lemma TakesOver.startAccesses (h : i.TakesOver kept) (p : Pending) (place : Place) :
    Checker.startAccesses s p place kept = Checker.startAccesses s p place i := by
  rcases h with rfl | ⟨n, m, hn, -, rfl⟩
  · rfl
  · simp [Checker.startAccesses, started, hn, isUnorderedFlat, mayUseLds]

lemma TakesOver.conflicts (h : i.TakesOver kept) (k : AccessKey) (a : InFlight) :
    Checker.conflicts kept k a = Checker.conflicts i k a := by
  rcases h with rfl | ⟨n, m, hn, -, rfl⟩
  · rfl
  · simp [Checker.conflicts, writesLate, hn]

end Instruction

/-! ### The view of the checker -/

namespace Checker

/-- The context is right about the accesses that are in flight once the wait has been carried out. -/
structure Agrees (s : Setting) (c : Context) (p : Pending) (w : Wait) : Prop where
  sound : c.Sound s.generation
  bounded : p.Bounded s.generation
  covers : c.Covers s.generation (p.wait w)

/-- Nothing stands in the way of the instruction once the wait has been carried out. -/
structure Clear (s : Setting) (i : Instruction) (p : Pending) (w : Wait) : Prop where
  bounded : p.Bounded s.generation
  quiet : Quiet s.generation i (p.wait w)
  left : i.opcode = .sSetpcB64 → ∀ k : AccessKey, (p.wait w)[k]? = none

/-- The checker steps over the instruction at place `n` of the block without a finding. -/
def Passes (s : Setting) (block : Nat) (i : Instruction) (x x' : Nat × Pending) : Prop :=
  x'.1 = x.1 + 1 ∧ step s x.2 (.code block x.1) i = .ok (x'.2, [])

variable {c c' : Context} {p p' : Pending} {i : Instruction} {v w : Wait} {place : Place}

lemma Agrees.mono (hle : w ≤ v) (h : Agrees s c p v) : Agrees s c p w :=
  ⟨h.sound, h.bounded, h.covers.mono fun _ _ => Pending.getElem?_wait_mono hle⟩

lemma Clear.mono (hle : w ≤ v) (h : Clear s i p v) : Clear s i p w := by
  refine ⟨h.bounded, fun k a hk => h.quiet k a (Pending.getElem?_wait_mono hle hk), fun ho k => ?_⟩
  cases hk : (p.wait w)[k]? with
  | none => rfl
  | some a =>
    have := Pending.getElem?_wait_mono hle hk
    rw [h.left ho k] at this
    cases this

/-- Accesses only move away while a message is sent, so a wait completes no fewer of them. -/
lemma getElem?_wait_issues {evs : List Event} {ordered : Event → Bool}
    (hb : p.Bounded s.generation)
    (hp : ∀ k : AccessKey, p'[k]? = p[k]?.map (·.issues s.generation k ordered evs))
    {k : AccessKey} {a' : InFlight} (hk : (p'.wait v)[k]? = some a') :
    ∃ a, (p.wait v)[k]? = some a ∧ a.Aged s.generation a' := by
  obtain ⟨hk, hnot⟩ := Pending.getElem?_wait.1 hk
  rw [hp] at hk
  obtain ⟨a, ha, rfl⟩ := Option.map_eq_some_iff.1 hk
  have hag := InFlight.aged_issues a s.generation k ordered evs
  refine ⟨a, Pending.getElem?_wait.2 ⟨ha, fun hc => hnot ?_⟩, hag⟩
  exact ⟨hag.counter ▸ hc.1, hag.counter ▸ UInt16.le_trans hc.2 (hag.younger (hb k a ha))⟩

/-- An instruction that uses no register and starts no access is passed, and only ages what is in
flight. -/
lemma passes_of_idle (hi : i.Regular) (hdefs : i.definitions = []) (hops : i.operands = [])
    (hwait : ∀ w, i.payload ≠ .wait w) (hown : ownWait i = .none) (ho : i.opcode ≠ .sSetpcB64)
    (hleaves : i.leaves s = []) (p : Pending) (place : Place) :
    ∃ p', step s p place i = .ok (p', [])
      ∧ ∀ k : AccessKey, p'[k]? = p[k]?.map
        (·.issues s.generation k (i.inOrder s.generation) (i.raised s)) := by
  obtain ⟨p', hp'⟩ := startAccesses_total (s := s) hi.workable p place
  refine ⟨p', (step_eq_ok hwait).2 ?_, fun k => ?_⟩
  · rw [hown, Pending.wait_none, if_neg ho, List.append_nil]
    refine ⟨checkRanges_of_workable p hi.workable, hp', (useFindings_eq_nil.2 fun k a _ _ => ?_).symm⟩
    simp [conflicts, hdefs, hops]
  · rw [getElem?_startAccesses hp', fresh, hleaves]
    rfl

/-- A directive other than a wait is passed, and only ages what is in flight. -/
lemma passes_of_inserted (hi : (∃ w, i = .ofDependencyWait w)
      ∨ .gfx11 ≤ s.generation ∧ i = .ofImmediate .sSendmsg Instruction.releaseMessage)
    (p : Pending) (place : Place) : ∃ p', step s p place i = .ok (p', [])
      ∧ ∀ k : AccessKey, p'[k]? = p[k]?.map
        (·.issues s.generation k (i.inOrder s.generation) (i.raised s)) := by
  have hreg : i.Regular := Instruction.IsInserted.regular (s := s) (.inr hi)
  rcases hi with ⟨w, rfl⟩ | ⟨-, rfl⟩
  · exact passes_of_idle hreg rfl rfl (fun _ => by simp [Instruction.ofDependencyWait]) rfl
      (by simp [Instruction.ofDependencyWait]) rfl _ _
  · exact passes_of_idle hreg rfl rfl (fun _ => by simp [Instruction.ofImmediate]) rfl
      (by simp [Instruction.ofImmediate]) rfl _ _

lemma bounded_of_issues {evs : List Event} {ordered : Event → Bool} (hb : p.Bounded s.generation)
    (hp : ∀ k : AccessKey, p'[k]? = p[k]?.map (·.issues s.generation k ordered evs)) :
    p'.Bounded s.generation := by
  intro k a' hk
  rw [hp] at hk
  obtain ⟨a, ha, rfl⟩ := Option.map_eq_some_iff.1 hk
  have hag := InFlight.aged_issues a s.generation k ordered evs
  rw [hag.counter]
  exact hag.bounded (hb k a ha)

lemma Agrees.issues {evs : List Event} {ordered : Event → Bool} (h : Agrees s c p v)
    (hp : ∀ k : AccessKey, p'[k]? = p[k]?.map (·.issues s.generation k ordered evs)) :
    Agrees s c p' v := by
  refine ⟨h.sound, bounded_of_issues h.bounded hp, fun k a' hk => ?_⟩
  obtain ⟨a, ha, hag⟩ := getElem?_wait_issues h.bounded hp hk
  obtain ⟨e, he, hfol⟩ := h.covers k a ha
  exact ⟨e, he, hfol.aged (h.bounded k a (Pending.getElem?_wait.1 ha).1) hag⟩

lemma Clear.issues {evs : List Event} {ordered : Event → Bool} (h : Clear s i p v)
    (hp : ∀ k : AccessKey, p'[k]? = p[k]?.map (·.issues s.generation k ordered evs)) :
    Clear s i p' v := by
  refine ⟨bounded_of_issues h.bounded hp, fun k a' hk hv => ?_, fun ho k => ?_⟩
  · obtain ⟨a, ha, hag⟩ := getElem?_wait_issues h.bounded hp hk
    have hq := h.quiet k a ha (by simpa [isVisible, hag.lanes] using hv)
    simpa [conflicts, hag.write] using hq
  · cases hk : (p'.wait v)[k]? with
    | none => rfl
    | some a' =>
      obtain ⟨a, ha, -⟩ := getElem?_wait_issues h.bounded hp hk
      rw [h.left ho k] at ha
      cases ha

/-- An instruction that nothing stands in the way of is passed, and its accesses are covered. -/
lemma passes_of_clear {kept : Instruction} (hi : i.Regular) (hwait : ∀ w, i.payload ≠ .wait w)
    (htakes : i.TakesOver kept) (h : Agrees s c p (ownWait kept))
    (hclear : Clear s i p (ownWait kept)) (hstart : c.start s i = .ok c') (place : Place) :
    ∃ p', step s p place kept = .ok (p', []) ∧ Agrees s c' p' .none := by
  obtain ⟨p', hp'⟩ := startAccesses_total (s := s) hi.workable (p.wait (ownWait kept)) place
  have hwait' : ∀ w, kept.payload ≠ .wait w := by
    obtain ⟨-, -, -, hpay | ⟨n, m, -, hm, -⟩⟩ := htakes.eq_withPayload
    · rwa [hpay]
    · simp [hm]
  refine ⟨p', (step_eq_ok hwait').2 ⟨checkRanges_of_workable _
    (hi.takesOver htakes).workable, ?_, ?_⟩, ?_⟩
  · rw [htakes.startAccesses]
    exact hp'
  · have huse : useFindings s.generation (p.wait (ownWait kept)) place kept = [] :=
      useFindings_eq_nil.2 fun k a hk hv => by
        rw [htakes.conflicts]
        exact hclear.quiet k a hk hv
    rw [huse, htakes.eq_withPayload.1]
    split
    · exact (exitFindings_eq_nil.2 (hclear.left ‹_›)).symm
    · rfl
  · refine ⟨h.sound.start hstart, bounded_startAccesses (h.bounded.wait _) hp', ?_⟩
    rw [Pending.wait_none]
    exact h.covers.start hi (h.bounded.wait _) hstart hp'

/-- The checker as a view of the code that a walk puts into the block `block`. -/
def view (s : Setting) (block : Nat) : View s (Nat × Pending) where
  Good i := i.Regular
  Run
    | .put i, x, x' => Passes s block i x x'
    | .take _, x, x' => x' = x
    | .keep _ kept, x, x' => Passes s block kept x x'
  Rel c x w := Agrees s c x.2 w
  Ready i x w := Clear s i x.2 w
  coherent hi := hi.coherent
  rel_mono hle h := h.mono hle
  ready_mono hle h := h.mono hle
  settle hflat hsettle h :=
    ⟨h.sound.settle hsettle, h.bounded, h.covers.settle h.sound hflat hsettle⟩
  defer i h := ⟨h.sound.deferBefore s i, h.bounded, h.covers.deferBefore s i⟩
  ready {i c c' x q q'} hi h haw := by
    have hcov := (h.mono haw.queued).covers
    refine ⟨h.bounded, hcov.quiet h.sound hi.coherent haw, fun ho => hcov.drained ?_⟩
    have hd := haw.drained
    rwa [Context.drainBefore, if_pos (.inl ho)] at hd
  take {i} x _ _ :=
    ⟨x, rfl, fun c w h => ⟨h.sound.deferBefore s i, h.bounded, h.covers.deferBefore s i⟩⟩
  putWait w x := by
    refine ⟨(x.1 + 1, x.2.wait w), ⟨rfl, step_of_wait rfl⟩, fun c v h => ?_, fun i v h => ?_⟩
    · exact ⟨h.sound, h.bounded.wait w, by rw [Pending.wait_wait]; exact h.covers⟩
    · exact ⟨h.bounded.wait w, by rw [Pending.wait_wait]; exact h.quiet, by rw [Pending.wait_wait]; exact h.left⟩
  putOther x hi := by
    obtain ⟨p', hstep, hp'⟩ := passes_of_inserted hi x.2 (.code block x.1)
    exact ⟨(x.1 + 1, p'), ⟨rfl, hstep⟩, fun c v h => h.issues hp', fun j v h => h.issues hp'⟩
  keep {i kept c c' x} hi hdir htakes h hclear hstart := by
    have hwait : ∀ w, i.payload ≠ .wait w := fun w hp => by
      simp [Instruction.isDirective, Instruction.isWait, hp] at hdir
    obtain ⟨p', hstep, hagrees⟩ := passes_of_clear hi hwait htakes h hclear hstart (.code block x.1)
    exact ⟨(x.1 + 1, p'), ⟨rfl, hstep⟩, hagrees.sound.deferAfter s i, hagrees.bounded,
      hagrees.covers.deferAfter s i⟩

/-- A run of the view is a run of the checker without findings. -/
lemma steps_of_runs {block : Nat} {es : List Edit} {x x' : Nat × Pending}
    (h : (view s block).Runs es x x') :
    steps s block x.1 (es.flatMap Edit.after) x.2 = .ok (x'.2, []) := by
  induction h with
  | nil => rfl
  | @cons e es x y z hrun _ ih =>
    -- What is put in or stays is one step; what is taken out is none.
    have hpass : ∀ i, Passes s block i x y →
        steps s block x.1 (i :: es.flatMap Edit.after) x.2 = .ok (z.2, []) := by
      rintro i ⟨hn, hstep⟩
      rw [hn] at ih
      simp only [steps, bind_eq_ok, pure_eq_ok, Prod.exists, Prod.mk.injEq]
      exact ⟨_, _, hstep, _, _, ih, rfl, rfl⟩
    cases e with
    | put i => exact hpass i hrun
    | keep i kept => exact hpass kept hrun
    | take i =>
      have hxy : y = x := hrun
      rw [← hxy]
      exact ih

end Checker

/-- The checker finds nothing in a rewritten block, and the context at the end is right. -/
theorem Block.stepBlock_insertWaits {b b' : Block} {c c' : Context} {p : Pending}
    (h : b.insertWaits s c = .ok (b', c')) (hb : ∀ i ∈ b.instructions, i.Regular)
    (hp : Checker.Agrees s c p .none) (block : Nat) :
    ∃ p', Checker.stepBlock s block b' p = .ok (p', []) ∧ Checker.Agrees s c' p' .none := by
  obtain ⟨es, ⟨m, p'⟩, -, hafter, -, hruns, hrel, ⟨n, q⟩, v, hq, hcar, hdrain⟩ :=
    (Checker.view s block).insertWaits (x := (0, p)) h hb hp
  have hsteps := Checker.steps_of_runs hruns
  rw [hafter] at hsteps
  refine ⟨p', ?_, hrel⟩
  have hexit : (if .endWithRegs ∈ b'.kind then
      Checker.exitFindings p' (.code block b'.instructions.length) else []) = [] := by
    split
    · rename_i hend
      rw [(Block.insertWaits_sameFrame h).kind] at hend
      -- Leaving a block is like a jump: nothing may be in flight.
      have hclear : Checker.Clear s ⟨.sSetpcB64, [], [], .salu⟩ q v :=
        ⟨hq.bounded, fun _ _ _ _ => by simp [Checker.conflicts],
          fun _ => hq.covers.drained (hdrain hend)⟩
      have hleft := (hcar.ready _ .none (by rw [Wait.both_none]; exact hclear)).left rfl
      rw [Pending.wait_none] at hleft
      exact Checker.exitFindings_eq_nil.2 hleft
    · rfl
  simp only [Checker.stepBlock, bind_eq_ok, pure_eq_ok, Prod.exists, Prod.mk.injEq]
  exact ⟨p', [], hsteps, rfl, hexit⟩

end GpuWaits
