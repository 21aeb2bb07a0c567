/-
# The code that a walk puts out

A walk takes directives out of the code and puts others in.  Each place of the result is an `Edit`.
What a proof about the result needs is always the same: a state `σ` that follows the code which is
put out, a relation between contexts and states, and the laws of `View` that say how the two change
together.  `View.steps` is the induction over the walk, done once for all views.

Waits are queued before they are put out, and the context runs ahead: it has already dropped what the
queued wait completes.  So the relation has a third argument, the wait that is still to be carried out.
-/
import GpuWaits.Checker
import GpuWaits.Proofs.Settled

namespace GpuWaits

/-! ### Waits that are still to be carried out -/

namespace Wait

lemma isNone_iff {w : Wait} : w.isNone = true ↔ w = none := by
  simp only [isNone, List.all_eq_true, beq_iff_eq]
  constructor
  · intro h
    exact ext_get fun c => by rw [h c c.mem_all, get_none]
  · rintro rfl c -
    exact get_none c

lemma isSet_iff {w : Wait} {c : Counter} : w.isSet c = true ↔ w.get c ≠ unset := by
  simp [isSet]

lemma eq_none_of_le {w : Wait} (h : none ≤ w) : w = none := by
  apply ext_get
  intro c
  have hle := UInt16.le_iff_toNat_le.1 (h c)
  have hge := UInt16.le_iff_toNat_le.1 (le_none w c)
  exact UInt16.toNat_inj.1 (Nat.le_antisymm hge hle)

lemma get_lt_of_isSet {w : Wait} {c : Counter} (h : w.isSet c = true) : w.get c < unset := by
  have hne := isSet_iff.1 h
  have hle := UInt16.le_iff_toNat_le.1 (le_unset (w.get c))
  rw [UInt16.lt_iff_toNat_lt]
  have : (w.get c).toNat ≠ unset.toNat := fun heq => hne (UInt16.toNat_inj.1 heq)
  omega

/-- A stronger wait has a target wherever a weaker one has one. -/
lemma isSet_of_le {v w : Wait} {c : Counter} (hle : v ≤ w) (h : w.isSet c = true) :
    v.isSet c = true := by
  have h₁ := UInt16.le_iff_toNat_le.1 (hle c)
  have h₂ := UInt16.lt_iff_toNat_lt.1 (get_lt_of_isSet h)
  rw [isSet_iff]
  intro heq
  rw [heq] at h₁
  omega

lemma both_le_both {v v' w w' : Wait} (hv : v ≤ v') (hw : w ≤ w') : v.both w ≤ v'.both w' :=
  le_both (le_trans (both_le_left v w) hv) (le_trans (both_le_right v w) hw)

@[simp] lemma both_none (w : Wait) : w.both none = w := both_eq_left (le_none w)

lemma both_comm (v w : Wait) : v.both w = w.both v := by
  apply ext_get
  intro c
  rw [get_both, get_both, ← UInt16.toNat_inj, toNat_min, toNat_min]
  omega

end Wait

/-- No target lies past the limit of its counter, as the ones that are read from the code may. -/
def DependencyWait.Fits (w : DependencyWait) : Prop := ∀ d, (w.get d).toNat ≤ d.limit

namespace DependencyWait

variable {v w : DependencyWait}

lemma toNat_get_none (d : Dependency) : (none.get d).toNat = d.limit := by cases d <;> rfl

lemma toNat_get_both (v w : DependencyWait) (d : Dependency) :
    ((v.both w).get d).toNat = min (v.get d).toNat (w.get d).toNat := by
  rw [get_both]
  change (if v.get d ≤ w.get d then v.get d else w.get d).toNat = _
  split
  · rename_i hle
    have := UInt8.le_iff_toNat_le.1 hle
    omega
  · rename_i hle
    have := mt UInt8.le_iff_toNat_le.2 hle
    omega

lemma fits_none : none.Fits := fun d => Nat.le_of_eq (toNat_get_none d)

lemma Fits.both (h : v.Fits) (w : DependencyWait) : (v.both w).Fits := by
  intro d
  rw [toNat_get_both]
  exact Nat.le_trans (Nat.min_le_left _ _) (h d)

lemma Fits.both_none (h : v.Fits) : v.both none = v := by
  refine ext_get fun d => UInt8.toNat_inj.1 ?_
  have hd := h d
  rw [toNat_get_both, toNat_get_none]
  omega

lemma Fits.none_both (h : v.Fits) : none.both v = v := by
  refine ext_get fun d => UInt8.toNat_inj.1 ?_
  have hd := h d
  rw [toNat_get_both, toNat_get_none]
  omega

lemma Fits.eq_none_of_both (h : v.Fits) (hw : v.both w = none) : v = none := by
  refine ext_get fun d => UInt8.toNat_inj.1 ?_
  have hd := h d
  have hboth := toNat_get_both v w d
  rw [hw] at hboth
  have hlimit := toNat_get_none d
  omega

end DependencyWait

/-! ### Waiting for an instruction -/

namespace Context

/-- The wait drains the counters on which an outstanding flat access leaves no order. -/
structure CoversFlat (c : Context) (w : Wait) : Prop where
  vm : c.flatVm = true → w.isSet .vm = true → w.get .vm = 0
  lgkm : c.flatLgkm = true → w.isSet .lgkm = true → w.get .lgkm = 0

lemma get_coverFlat (c : Context) (w : Wait) (d : Counter) :
    (c.coverFlat w).get d =
      if w.isSet d = true ∧ (d = .vm ∧ c.flatVm = true ∨ d = .lgkm ∧ c.flatLgkm = true) then 0
      else w.get d := by
  have hlgkm : ∀ v : Wait, (v.set .vm 0).isSet .lgkm = v.isSet .lgkm := fun v => by simp [Wait.isSet]
  simp only [coverFlat]
  cases hv : c.flatVm && w.isSet .vm <;> cases hl : c.flatLgkm && w.isSet .lgkm <;>
    simp only [hl, hlgkm, Bool.false_eq_true, if_true, if_false, Wait.get_set] <;>
    cases d <;> grind

lemma coverFlat_le (c : Context) (w : Wait) : c.coverFlat w ≤ w := by
  intro d
  rw [get_coverFlat]
  split
  · exact UInt16.le_iff_toNat_le.2 (Nat.zero_le _)
  · exact UInt16.le_refl _

lemma coversFlat_coverFlat (c : Context) (w : Wait) : c.CoversFlat (c.coverFlat w) := by
  have hset : ∀ d, (c.coverFlat w).isSet d = true → w.isSet d = true := by
    intro d hd
    rw [Wait.isSet_iff, get_coverFlat] at hd
    split at hd
    · exact ‹_ ∧ _›.1
    · exact Wait.isSet_iff.2 hd
  refine ⟨fun hf hs => ?_, fun hf hs => ?_⟩
  · rw [get_coverFlat, if_pos ⟨hset _ hs, .inl ⟨rfl, hf⟩⟩]
  · rw [get_coverFlat, if_pos ⟨hset _ hs, .inr ⟨rfl, hf⟩⟩]

/-- What comes out of waiting for an instruction: the queue is at least as strong as before, pays for
all that the instruction needs, and the context has been settled with it. -/
structure Awaited (s : Setting) (i : Instruction) (c : Context) (q : Queue) (c' : Context)
    (q' : Queue) : Prop where
  queued : q'.wait ≤ q.wait
  hazard : ∃ w, c.hazardWait s i = .ok w ∧ q'.wait ≤ w
  drained : q'.wait ≤ c.drainBefore s i
  turn : q'.wait ≤ c.turnWait i
  paid : q'.wait ≤ ((c.deferBefore s i).payment s i).wait
  flat : (c.deferBefore s i).CoversFlat q'.wait
  settled : (c.deferBefore s i).settle s.generation q'.wait = .ok c'

lemma awaited_of_await {s : Setting} {i : Instruction} {c c' : Context} {q q' : Queue}
    (h : c.await s i q = .ok (c', q')) : Awaited s i c q c' q' := by
  simp only [await, bind_eq_ok, pure_eq_ok, Prod.mk.injEq] at h
  obtain ⟨hazard, hhazard, settled, hsettled, rfl, rfl⟩ := h
  have hle := (c.deferBefore s i).coverFlat_le
    (((q.add (((c.drainBefore s i).both hazard).both (c.turnWait i))).both
      ((c.deferBefore s i).payment s i)).wait)
  -- The queue is the minimum of all parts, and covering flat accesses lowers it further.
  have hadd := Wait.le_trans hle (Wait.both_le_left _ _)
  have hall := Wait.le_trans hadd (Wait.both_le_right _ _)
  have hneeded := Wait.le_trans hall (Wait.both_le_left _ _)
  exact ⟨Wait.le_trans hadd (Wait.both_le_left _ _),
    ⟨hazard, hhazard, Wait.le_trans hneeded (Wait.both_le_right _ _)⟩,
    Wait.le_trans hneeded (Wait.both_le_left _ _), Wait.le_trans hall (Wait.both_le_right _ _),
    Wait.le_trans hle (Wait.both_le_right _ _), coversFlat_coverFlat _ _, hsettled⟩

/-- The context and the queue after waiting for some instructions. -/
inductive AwaitedAll (s : Setting) : Context → Queue → Context → Queue → Prop where
  | none (c : Context) (q : Queue) : AwaitedAll s c q c q
  | more {c c₁ c₂ : Context} {q q₁ q₂ : Queue} {i : Instruction} :
    Awaited s i c q c₁ q₁ → AwaitedAll s c₁ q₁ c₂ q₂ → AwaitedAll s c q c₂ q₂

lemma AwaitedAll.le {s : Setting} {c c' : Context} {q q' : Queue} (h : AwaitedAll s c q c' q') :
    q'.wait ≤ q.wait := by
  induction h with
  | none => exact Wait.le_refl _
  | more h _ ih => exact Wait.le_trans ih h.queued

lemma awaitRest_awaited {s : Setting} {i : Instruction} {rest : List Instruction}
    {written : ClauseWrites} {c c' : Context} {q q' : Queue} {n : Nat}
    (h : awaitRest s i rest written c q = .ok (n, c', q')) : AwaitedAll s c q c' q' := by
  induction rest generalizing written c q n with
  | nil =>
    cases h
    exact .none _ _
  | cons next rest ih =>
    rw [awaitRest] at h
    split at h
    · simp only [bind_eq_ok] at h
      obtain ⟨found, -, h⟩ := h
      cases found with
      | none =>
        cases h
        exact .none _ _
      | some written =>
        simp only [bind_eq_ok, pure_eq_ok, Prod.exists, Prod.mk.injEq] at h
        obtain ⟨c₁, q₁, hawait, n, c₂, q₂, hrest, -, rfl, rfl⟩ := h
        exact .more (awaited_of_await hawait) (ih hrest)
    · cases h
      exact .none _ _

lemma awaitClause_awaited {s : Setting} {i : Instruction} {rest : List Instruction}
    {c c' : Context} {q q' : Queue} {n : Nat}
    (h : c.awaitClause s i rest q = .ok (n, c', q')) : AwaitedAll s c q c' q' := by
  rw [awaitClause] at h
  split at h
  · simp only [bind_eq_ok] at h
    obtain ⟨written, -, h⟩ := h
    exact awaitRest_awaited h
  · cases h
    exact .none _ _

/-- Defers what the instruction asks for after it has issued. -/
def deferAfter (c : Context) (s : Setting) (i : Instruction) : Context :=
  if .acquire ∈ i.sync.semantics then c.deferAcquire s i.sync else c

end Context

/-! ### Edits -/

namespace Instruction

/-- A directive to the hardware or to the analysis, which computes nothing: a wait, a barrier, or the
message that releases the registers. -/
def isDirective (i : Instruction) (s : Setting) : Bool :=
  i.isWait || i.isBarrier || i.isRegisterRelease s

/-- A directive that a walk puts in. -/
def IsInserted (i : Instruction) (s : Setting) : Prop :=
  (∃ w, i = .ofWait w) ∨ (∃ w, i = .ofDependencyWait w)
    ∨ .gfx11 ≤ s.generation ∧ i = .ofImmediate .sSendmsg releaseMessage

/-- The instruction itself, or an interpolation that has taken over a wait for the export counter. -/
def TakesOver (i kept : Instruction) : Prop :=
  kept = i ∨ ∃ n m : UInt8, i.payload = .interp n ∧ m ≤ n ∧ kept = { i with payload := .interp m }

section Coherent

variable {i : Instruction} {s : Setting}

lemma fits_of_isCoherent (hc : i.isCoherent = true) : i.payload.fits i.format = true := by
  simp only [isCoherent, Bool.and_eq_true] at hc
  exact hc.1.1

lemma payload_of_isBarrier (hc : i.isCoherent = true) (hb : i.isBarrier = true) :
    ∃ request, i.payload = .barrier request := by
  have hfits := fits_of_isCoherent hc
  rw [beq_iff_eq.1 hb] at hfits
  cases hp : i.payload with
  | barrier request => exact ⟨request, rfl⟩
  | _ =>
    rw [hp] at hfits
    cases hfits

lemma isBarrier_of_payload (hc : i.isCoherent = true) {request : BarrierRequest}
    (hp : i.payload = .barrier request) : i.isBarrier = true := by
  have hfits := fits_of_isCoherent hc
  rw [isBarrier]
  rw [hp] at hfits
  cases hf : i.format with
  | pseudoBarrier => rfl
  | _ =>
    rw [hf] at hfits
    cases hfits

/-- Directives start nothing. -/
lemma effects_of_removed (hc : i.isCoherent = true) (h : (i.isBarrier || i.isWait) = true) :
    i.effects s = [] := by
  rcases Bool.or_eq_true_iff.1 h with h | h
  · obtain ⟨request, hp⟩ := payload_of_isBarrier hc h
    simp [effects, hp]
  · revert h
    cases hp : i.payload <;> simp [isWait, hp, effects]

lemma opcode_ne_endpgm_of_removed (hc : i.isCoherent = true)
    (h : (i.isBarrier || i.isWait) = true) : i.opcode ≠ .sEndpgm := by
  intro ho
  have hf : i.isBarrier = false := by simp [isBarrier, format, ho, Opcode.format, Opcode.entry]
  rw [hf, Bool.false_or] at h
  simp only [isCoherent, ho, Bool.and_eq_true] at hc
  revert h hc
  cases hp : i.payload <;> simp [isWait, hp]

lemma not_isWait_of_isRegisterRelease (h : i.isRegisterRelease s = true) : i.isWait = false := by
  revert h
  cases hp : i.payload <;> simp [isRegisterRelease, immediate?, isWait, hp]

/-- A message asks for no synchronization. -/
lemma deferBefore_of_isRegisterRelease (h : i.isRegisterRelease s = true) (c : Context) :
    c.deferBefore s i = c := by
  have hsync : i.sync = {} := by
    revert h
    cases hp : i.payload <;> simp [isRegisterRelease, immediate?, sync, hp]
  have hno : .release ∉ i.sync.semantics := by simp [hsync]
  have hbar : ∀ request, i.payload ≠ .barrier request := by
    intro request hp
    simp [isRegisterRelease, immediate?, hp] at h
  rw [Context.deferBefore, if_neg hno]
  split
  · exact absurd ‹_› (hbar _)
  · rfl

end Coherent

end Instruction

/-- What a walk does at one place of the code. -/
inductive Edit where
  /-- A directive is put in. -/
  | put (i : Instruction)
  /-- A directive is taken out. -/
  | take (i : Instruction)
  /-- An instruction stays. -/
  | keep (i kept : Instruction)

namespace Edit

/-- The code in front of the edit. -/
def before : Edit → List Instruction
  | .put _ => []
  | .take i => [i]
  | .keep i _ => [i]

/-- The code behind the edit. -/
def after : Edit → List Instruction
  | .put i => [i]
  | .take _ => []
  | .keep _ kept => [kept]

/-- Only directives come and go. -/
def Legal (s : Setting) : Edit → Prop
  | .put i => i.IsInserted s
  | .take i => i.isDirective s = true
  | .keep i kept => i.isDirective s = false ∧ i.TakesOver kept

/-- What stands behind an edit was put in or has been there before. -/
lemma mem_after {s : Setting} {e : Edit} (he : e.Legal s) {i : Instruction} (hi : i ∈ e.after) :
    i.IsInserted s ∨ ∃ j ∈ e.before, j.isDirective s = false ∧ j.TakesOver i := by
  cases e with
  | put j =>
    rw [List.mem_singleton.1 hi]
    exact .inl he
  | take j => cases hi
  | keep j kept =>
    rw [List.mem_singleton.1 hi]
    exact .inr ⟨j, by simp [before], he.1, he.2⟩

end Edit

namespace Walk

/-- What a step does.  The message that releases the registers is dropped.  For any other instruction
the walk waits, and perhaps for the rest of a clause; a wait or a barrier then stays in the queue,
and all else is put back. -/
lemma step_cases {s : Setting} {i : Instruction} {rest out : List Instruction} {w w' : Walk}
    (h : step s i rest w = .ok (out, w')) :
    (i.isRegisterRelease s = true ∧ out = [] ∧ w'.context = w.context
        ∧ w'.queue = w.queue.both (.ofInstruction i))
      ∨ i.isRegisterRelease s = false ∧ ∃ c₁ q₁ c₂ q₂ c₃,
        Context.Awaited s i w.context (w.queue.both (.ofInstruction i)) c₁ q₁
          ∧ Context.AwaitedAll s c₁ q₁ c₂ q₂ ∧ c₂.start s i = .ok c₃
          ∧ ((i.isBarrier || i.isWait) = true
              ∧ out = (if i.opcode = .sEndpgm then release s c₂ q₂ else ([], q₂)).1
              ∧ w'.context = c₃
              ∧ w'.queue = (if i.opcode = .sEndpgm then release s c₂ q₂ else ([], q₂)).2
            ∨ (i.isBarrier || i.isWait) = false ∧ ∃ released q₃,
              (if i.opcode = .sEndpgm then release s c₂ q₂ else ([], q₂)) = (released, q₃)
              ∧ out = released ++ (absorb i q₃).2.instructions ++ [(absorb i q₃).1]
              ∧ w'.context = c₃.deferAfter s i
              ∧ w'.queue = turnQueue (c₃.deferAfter s i) i) := by
  rw [step] at h
  split at h
  · rename_i hmsg
    cases h
    exact .inl ⟨hmsg, rfl, rfl, rfl⟩
  rename_i hmsg
  refine .inr ⟨by simpa using hmsg, ?_⟩
  simp only [bind_eq_ok, Prod.exists] at h
  obtain ⟨c₁, q₁, hawait, h⟩ := h
  -- Whether a clause is opened or not, some waits follow.
  obtain ⟨left, c₂, q₂, hclause, h⟩ : ∃ left c₂ q₂, Context.AwaitedAll s c₁ q₁ c₂ q₂ ∧ _ := by
    split at h
    · simp only [bind_eq_ok, Prod.exists] at h
      obtain ⟨left, c₂, q₂, hclause, h⟩ := h
      exact ⟨left, c₂, q₂, Context.awaitClause_awaited hclause, h⟩
    · simp only [bind_eq_ok, pure_eq_ok, Prod.exists, Prod.mk.injEq] at h
      obtain ⟨left, c₂, q₂, ⟨rfl, rfl, rfl⟩, h⟩ := h
      exact ⟨_, c₁, q₁, .none _ _, h⟩
  obtain ⟨c₃, hstart, h⟩ := h
  refine ⟨c₁, q₁, c₂, q₂, c₃, Context.awaited_of_await hawait, hclause, hstart, ?_⟩
  split at h
  · cases h
    exact .inl ⟨‹_›, rfl, rfl, rfl⟩
  · rename_i hkept
    cases h
    exact .inr ⟨by simpa using hkept, _, _, rfl, rfl, rfl, rfl⟩

lemma steps_cons {s : Setting} {i : Instruction} {rest out : List Instruction} {w w' : Walk}
    (h : steps s (i :: rest) w = .ok (out, w')) : ∃ emitted w₁ later,
      step s i rest w = .ok (emitted, w₁) ∧ steps s rest w₁ = .ok (later, w')
        ∧ out = emitted ++ later := by
  simp only [steps, bind_eq_ok, pure_eq_ok, Prod.exists, Prod.mk.injEq] at h
  obtain ⟨emitted, w₁, hstep, later, w₂, hrest, rfl, rfl⟩ := h
  exact ⟨emitted, w₁, later, hstep, hrest, rfl⟩

/-- An interpolation carries out what it takes over. -/
lemma absorb_spec (i : Instruction) (q : Queue) :
    i.TakesOver (absorb i q).1
      ∧ (absorb i q).2.wait.both (Checker.ownWait (absorb i q).1) ≤ q.wait := by
  rw [absorb]
  split
  · rename_i n hp
    split
    · have hmin : (min n.toUInt16 q.wait.exp).toUInt8.toUInt16 = min n.toUInt16 q.wait.exp := by
        have hn := n.toNat_lt
        rw [← UInt16.toNat_inj, UInt8.toNat_toUInt16, UInt16.toNat_toUInt8, Wait.toNat_min,
          UInt8.toNat_toUInt16]
        omega
      refine ⟨.inr ⟨n, _, hp, ?_, rfl⟩, fun c => ?_⟩
      · rw [UInt8.le_iff_toNat_le, UInt16.toNat_toUInt8, Wait.toNat_min, UInt8.toNat_toUInt16]
        have hn := n.toNat_lt
        omega
      · simp only [Checker.ownWait, hmin, Wait.single, Wait.get_both, Wait.get_clear, Wait.get_set,
          Wait.get_none]
        split
        · rename_i hc
          subst hc
          exact UInt16.le_trans (Wait.min_le_right _ _) (Wait.min_le_right _ _)
        · exact Wait.min_le_left _ _
    · exact ⟨.inl rfl, Wait.both_le_left _ _⟩
  · exact ⟨.inl rfl, Wait.both_le_left _ _⟩

end Walk

namespace Queue

variable {q : Queue} {i : Instruction}

lemma eq_of_mem (hi : i ∈ q.instructions) :
    i = .ofWait q.wait ∨ i = .ofDependencyWait q.dependency := by
  rw [instructions, List.mem_append] at hi
  rcases hi with hi | hi <;> split at hi
  · cases hi
  · exact .inl (List.mem_singleton.1 hi)
  · cases hi
  · exact .inr (List.mem_singleton.1 hi)

lemma isWait_of_mem (hi : i ∈ q.instructions) : i.isWait = true := by
  rcases eq_of_mem hi with rfl | rfl <;> rfl

end Queue

/-! ### Views -/

/-- A way to look at the code that a walk puts out.  `Rel c x w` says that the context `c` is right
about the state `x` once the wait `w` has been carried out, and `Ready i x w` that the instruction `i`
may issue then. -/
structure View (s : Setting) (σ : Type) where
  /-- The instructions that the view can deal with. -/
  Good : Instruction → Prop
  /-- An edit leads from one state to another. -/
  Run : Edit → σ → σ → Prop
  Rel : Context → σ → Wait → Prop
  Ready : Instruction → σ → Wait → Prop
  coherent : ∀ {i : Instruction}, Good i → i.isCoherent = true
  rel_mono : ∀ {c : Context} {x : σ} {v w : Wait}, w ≤ v → Rel c x v → Rel c x w
  ready_mono : ∀ {i : Instruction} {x : σ} {v w : Wait}, w ≤ v → Ready i x v → Ready i x w
  settle : ∀ {c c' : Context} {x : σ} {w : Wait}, c.CoversFlat w →
    c.settle s.generation w = .ok c' → Rel c x w → Rel c' x w
  defer : ∀ {c : Context} {x : σ} {w : Wait} (i : Instruction), Rel c x w →
    Rel (c.deferBefore s i) x w
  ready : ∀ {i : Instruction} {c c' : Context} {x : σ} {q q' : Queue}, Good i →
    Rel c x q.wait → Context.Awaited s i c q c' q' → Ready i x q'.wait
  take : ∀ {i : Instruction} (x : σ), Good i → i.isDirective s = true →
    ∃ x', Run (.take i) x x' ∧ ∀ c w, Rel c x w → Rel (c.deferBefore s i) x' w
  putWait : ∀ (w : Wait) (x : σ), ∃ x', Run (.put (.ofWait w)) x x'
    ∧ (∀ c v, Rel c x (w.both v) → Rel c x' v) ∧ ∀ i v, Ready i x (w.both v) → Ready i x' v
  putOther : ∀ {i : Instruction} (x : σ),
    (∃ w, i = .ofDependencyWait w)
      ∨ .gfx11 ≤ s.generation ∧ i = .ofImmediate .sSendmsg Instruction.releaseMessage →
    ∃ x', Run (.put i) x x' ∧ (∀ c v, Rel c x v → Rel c x' v) ∧ ∀ i v, Ready i x v → Ready i x' v
  keep : ∀ {i kept : Instruction} {c c' : Context} {x : σ}, Good i → i.isDirective s = false →
    i.TakesOver kept → Rel c x (Checker.ownWait kept) → Ready i x (Checker.ownWait kept) →
    c.start s i = .ok c' → ∃ x', Run (.keep i kept) x x' ∧ Rel (c'.deferAfter s i) x' .none

namespace View

variable {s : Setting} {σ : Type} (V : View s σ)

/-- A list of edits leads from one state to another. -/
inductive Runs : List Edit → σ → σ → Prop where
  | nil (x : σ) : Runs [] x x
  | cons {e : Edit} {es : List Edit} {x y z : σ} : V.Run e x y → Runs es y z → Runs (e :: es) x z

variable {V}

lemma Runs.append {es fs : List Edit} {x y z : σ} (h : V.Runs es x y) (h' : V.Runs fs y z) :
    V.Runs (es ++ fs) x z := by
  induction h with
  | nil => exact h'
  | cons he _ ih => exact .cons he (ih h')

/-- The state `y` is the state `x` with the wait `w` carried out. -/
structure Carried (V : View s σ) (x : σ) (w : Wait) (y : σ) : Prop where
  rel : ∀ c v, V.Rel c x (w.both v) → V.Rel c y v
  ready : ∀ i v, V.Ready i x (w.both v) → V.Ready i y v

lemma Carried.refl (x : σ) : V.Carried x .none x :=
  ⟨fun c v h => by rwa [Wait.none_both] at h, fun i v h => by rwa [Wait.none_both] at h⟩

lemma Carried.trans {x y z : σ} {v w : Wait} (h : V.Carried x v y) (h' : V.Carried y w z) :
    V.Carried x (v.both w) z := by
  have hassoc : ∀ u, v.both (w.both u) ≤ (v.both w).both u := fun u =>
    Wait.le_both (Wait.le_both (Wait.both_le_left _ _)
      (Wait.le_trans (Wait.both_le_right _ _) (Wait.both_le_left _ _)))
      (Wait.le_trans (Wait.both_le_right _ _) (Wait.both_le_right _ _))
  exact ⟨fun c u hu => h'.rel c u (h.rel c _ (V.rel_mono (hassoc u) hu)),
    fun i u hu => h'.ready i u (h.ready i _ (V.ready_mono (hassoc u) hu))⟩

/-- The instructions of a queue carry its wait out. -/
lemma put_queue (q : Queue) (x : σ) :
    ∃ x', V.Runs (q.instructions.map .put) x x' ∧ V.Carried x q.wait x' := by
  obtain ⟨x₁, hrun₁, hcar₁⟩ : ∃ x₁, V.Runs
      ((if q.wait.isNone then [] else [.ofWait q.wait]).map .put) x x₁
        ∧ V.Carried x q.wait x₁ := by
    split
    · rename_i hnone
      rw [Wait.isNone_iff.1 hnone]
      exact ⟨x, .nil x, .refl x⟩
    · obtain ⟨x₁, hrun, hrel, hready⟩ := V.putWait q.wait x
      exact ⟨x₁, .cons hrun (.nil _), hrel, hready⟩
  obtain ⟨x₂, hrun₂, hcar₂⟩ : ∃ x₂, V.Runs
      ((if q.dependency.isNone then [] else [.ofDependencyWait q.dependency]).map .put) x₁ x₂
        ∧ V.Carried x₁ .none x₂ := by
    split
    · exact ⟨x₁, .nil x₁, .refl x₁⟩
    · obtain ⟨x₂, hrun, hrel, hready⟩ := V.putOther x₁ (.inl ⟨q.dependency, rfl⟩)
      exact ⟨x₂, .cons hrun (.nil _), fun c v h => hrel c v (by rwa [Wait.none_both] at h),
        fun i v h => hready i v (by rwa [Wait.none_both] at h)⟩
  refine ⟨x₂, ?_, by simpa using hcar₁.trans hcar₂⟩
  rw [Queue.instructions, List.map_append]
  exact hrun₁.append hrun₂

lemma legal_put_queue (q : Queue) : ∀ e ∈ q.instructions.map Edit.put, e.Legal s := by
  intro e he
  obtain ⟨i, hi, rfl⟩ := List.mem_map.1 he
  rcases Queue.eq_of_mem hi with rfl | rfl
  · exact .inl ⟨_, rfl⟩
  · exact .inr (.inl ⟨_, rfl⟩)

lemma before_map_put (l : List Instruction) : (l.map Edit.put).flatMap Edit.before = [] := by
  induction l with
  | nil => rfl
  | cons i l ih => simp [Edit.before]

lemma after_map_put (l : List Instruction) : (l.map Edit.put).flatMap Edit.after = l := by
  induction l with
  | nil => rfl
  | cons i l ih => simpa [Edit.after] using ih

/-- Waiting for an instruction keeps the context right. -/
lemma rel_awaited {i : Instruction} {c c' : Context} {q q' : Queue} {x : σ}
    (h : Context.Awaited s i c q c' q') (hx : V.Rel (c.deferBefore s i) x q.wait) :
    V.Rel c' x q'.wait :=
  V.settle h.flat h.settled (V.rel_mono h.queued hx)

lemma rel_awaitedAll {c c' : Context} {q q' : Queue} {x : σ} (h : Context.AwaitedAll s c q c' q')
    (hx : V.Rel c x q.wait) : V.Rel c' x q'.wait := by
  induction h with
  | none c q => exact hx
  | more h _ ih => exact ih (rel_awaited h (V.defer _ hx))

/-- What is put in front of the end of the program. -/
lemma put_release {c : Context} {q q' : Queue} {released : List Instruction} {i : Instruction}
    (h : (if i.opcode = .sEndpgm then Walk.release s c q else ([], q)) = (released, q')) (x : σ) :
    ∃ w x', V.Runs (released.map .put) x x' ∧ V.Carried x w x' ∧ w.both q'.wait ≤ q.wait
      ∧ ∀ e ∈ released.map Edit.put, e.Legal s := by
  have hnone : ∃ w x', V.Runs (([] : List Instruction).map .put) x x' ∧ V.Carried x w x'
      ∧ w.both q.wait ≤ q.wait ∧ ∀ e ∈ ([] : List Instruction).map Edit.put, e.Legal s :=
    ⟨.none, x, .nil x, .refl x, by rw [Wait.none_both]; exact Wait.le_refl _, by simp⟩
  split at h
  · rw [Walk.release] at h
    split at h
    · rename_i hrel
      cases h
      have hgen : .gfx11 ≤ s.generation := by
        simp only [Walk.releasesRegisters, Bool.and_eq_true, decide_eq_true_eq] at hrel
        exact hrel.1.1.1.1
      obtain ⟨x₁, hrun₁, hcar₁⟩ := put_queue (V := V) { wait := Walk.releaseWait c q } x
      obtain ⟨x₂, hrun₂, hrel₂, hready₂⟩ := V.putOther x₁ (.inr ⟨hgen, rfl⟩)
      refine ⟨Walk.releaseWait c q, x₂, ?_, ?_, ?_, ?_⟩
      · rw [List.map_append]
        exact hrun₁.append (.cons hrun₂ (.nil _))
      · exact ⟨fun c v h => hrel₂ c v (hcar₁.rel c v h),
          fun i v h => hready₂ i v (hcar₁.ready i v h)⟩
      · exact Wait.le_trans (Wait.both_le_left _ _) (Wait.both_le_right _ _)
      · intro e he
        rw [List.map_append, List.mem_append] at he
        rcases he with he | he
        · exact legal_put_queue _ e he
        · rw [List.map_singleton, List.mem_singleton] at he
          subst he
          exact .inr (.inr ⟨hgen, rfl⟩)
    · cases h
      exact hnone
  · cases h
    exact hnone

/-- One step of a walk. -/
theorem step {i : Instruction} {rest out : List Instruction} {w w' : Walk} {x : σ}
    (h : Walk.step s i rest w = .ok (out, w')) (hi : V.Good i)
    (hx : V.Rel w.context x w.queue.wait) :
    ∃ es x', es.flatMap Edit.before = [i] ∧ es.flatMap Edit.after = out ∧ (∀ e ∈ es, e.Legal s)
      ∧ V.Runs es x x' ∧ V.Rel w'.context x' w'.queue.wait := by
  have hcoh := V.coherent hi
  have hx₀ : V.Rel w.context x (w.queue.both (.ofInstruction i)).wait :=
    V.rel_mono (Wait.both_le_left _ _) hx
  rcases Walk.step_cases h with ⟨hmsg, rfl, hc, hq⟩ | ⟨hmsg, c₁, q₁, c₂, q₂, c₃, hawait, hclause,
    hstart, ⟨hremoved, hout, hc, hq⟩ | ⟨hkept, released, q₃, hrelease, hout, hc, hq⟩⟩
  · -- The message that releases the registers is dropped.
    have hdir : i.isDirective s = true := by simp [Instruction.isDirective, hmsg]
    obtain ⟨x', hrun, hrel⟩ := V.take x hi hdir
    refine ⟨[.take i], x', rfl, rfl, ?_, .cons hrun (.nil _), ?_⟩
    · simp [Edit.Legal, hdir]
    · rw [hc, hq]
      have := hrel _ _ hx₀
      rwa [Instruction.deferBefore_of_isRegisterRelease hmsg] at this
  · -- A wait or a barrier leaves the code, and what it asks for stays in the queue.
    have hdir : i.isDirective s = true := by
      rw [Instruction.isDirective, Bool.or_comm i.isWait, hremoved, Bool.true_or]
    obtain ⟨x', hrun, hrel⟩ := V.take x hi hdir
    have hx₁ := rel_awaited hawait (hrel _ _ hx₀)
    have hx₂ := rel_awaitedAll hclause hx₁
    rw [if_neg (Instruction.opcode_ne_endpgm_of_removed hcoh hremoved)] at hout hq
    rw [Context.start, Instruction.effects_of_removed hcoh hremoved, List.foldlM_nil,
      pure_eq_ok] at hstart
    refine ⟨[.take i], x', rfl, hout.symm, ?_, .cons hrun (.nil _), ?_⟩
    · simp [Edit.Legal, hdir]
    · rw [hc, hq, ← hstart]
      exact hx₂
  · -- All else is put back behind the waits that it needs.
    have hdir : i.isDirective s = false := by
      rw [Instruction.isDirective, Bool.or_comm i.isWait, hkept, hmsg]
      rfl
    have hx₁ := rel_awaited hawait (V.defer i hx₀)
    have hr₁ := V.ready hi hx₀ hawait
    have hx₂ := rel_awaitedAll hclause hx₁
    have hr₂ := V.ready_mono hclause.le hr₁
    obtain ⟨v, x₃, hrun₃, hcar₃, hle₃, hlegal₃⟩ := put_release (V := V) hrelease x
    obtain ⟨htakes, hle₄⟩ := Walk.absorb_spec i q₃
    obtain ⟨x₄, hrun₄, hcar₄⟩ := put_queue (V := V) (Walk.absorb i q₃).2 x₃
    have hle : (v.both (Walk.absorb i q₃).2.wait).both (Checker.ownWait (Walk.absorb i q₃).1)
        ≤ q₂.wait := by
      refine Wait.le_trans ?_ hle₃
      exact Wait.le_both (Wait.le_trans (Wait.both_le_left _ _) (Wait.both_le_left _ _))
        (Wait.le_trans (Wait.both_le_both (Wait.both_le_right _ _) (Wait.le_refl _)) hle₄)
    have hcar := hcar₃.trans hcar₄
    obtain ⟨x₅, hrun₅, hx₅⟩ := V.keep hi hdir htakes (hcar.rel _ _ (V.rel_mono hle hx₂))
      (hcar.ready _ _ (V.ready_mono hle hr₂)) hstart
    refine ⟨released.map .put ++ (Walk.absorb i q₃).2.instructions.map .put
      ++ [.keep i (Walk.absorb i q₃).1], x₅, ?_, ?_, ?_, ?_, ?_⟩
    · simp only [List.flatMap_append, before_map_put, List.nil_append]
      rfl
    · simp only [List.flatMap_append, after_map_put, hout]
      rfl
    · intro e he
      rw [List.mem_append, List.mem_append, List.mem_singleton] at he
      rcases he with (he | he) | rfl
      · exact hlegal₃ e he
      · exact legal_put_queue _ e he
      · exact ⟨hdir, htakes⟩
    · exact (hrun₃.append hrun₄).append (.cons hrun₅ (.nil _))
    · rw [hc, hq]
      exact V.rel_mono (Wait.le_none _) hx₅

/-- A whole walk. -/
theorem steps {is out : List Instruction} {w w' : Walk} {x : σ}
    (h : Walk.steps s is w = .ok (out, w')) (his : ∀ i ∈ is, V.Good i)
    (hx : V.Rel w.context x w.queue.wait) :
    ∃ es x', es.flatMap Edit.before = is ∧ es.flatMap Edit.after = out ∧ (∀ e ∈ es, e.Legal s)
      ∧ V.Runs es x x' ∧ V.Rel w'.context x' w'.queue.wait := by
  induction is generalizing out w x with
  | nil =>
    cases h
    exact ⟨[], x, rfl, rfl, by simp, .nil x, hx⟩
  | cons i rest ih =>
    obtain ⟨emitted, w₁, later, hstep, hrest, rfl⟩ := Walk.steps_cons h
    obtain ⟨es, x₁, hbefore, hafter, hlegal, hrun, hx₁⟩ := V.step hstep (his i (by simp)) hx
    obtain ⟨fs, x₂, hbefore', hafter', hlegal', hrun', hx₂⟩ :=
      ih hrest (fun j hj => his j (List.mem_cons_of_mem _ hj)) hx₁
    refine ⟨es ++ fs, x₂, ?_, ?_, ?_, hrun.append hrun', hx₂⟩
    · rw [List.flatMap_append, hbefore, hbefore']
      rfl
    · rw [List.flatMap_append, hafter, hafter']
    · intro e he
      exact (List.mem_append.1 he).elim (hlegal e) (hlegal' e)

/-- The code of a block, from its entry to its end.  What the last wait carries out drains all
counters where the block leaves the program. -/
theorem insertWaits {b b' : Block} {c c' : Context} {x : σ}
    (h : b.insertWaits s c = .ok (b', c')) (hb : ∀ i ∈ b.instructions, V.Good i)
    (hx : V.Rel c x .none) :
    ∃ es x', es.flatMap Edit.before = b.instructions ∧ es.flatMap Edit.after = b'.instructions
      ∧ (∀ e ∈ es, e.Legal s) ∧ V.Runs es x x' ∧ V.Rel c' x' .none
      ∧ ∃ y v, V.Rel c' y v ∧ V.Carried y v x'
        ∧ (.endWithRegs ∈ b.kind → v ≤ .drain c'.nonzero) := by
  obtain ⟨code, w, hsteps, rfl, rfl⟩ := Block.insertWaits_eq_ok.1 h
  obtain ⟨es, x₁, hbefore, hafter, hlegal, hrun, hx₁⟩ := V.steps hsteps hb hx
  obtain ⟨x₂, hrun₂, hcar⟩ := put_queue (V := V) (b.finalQueue w) x₁
  have hle : (b.finalQueue w).wait.both .none ≤ w.queue.wait := by
    rw [Wait.both_none, Block.finalQueue]
    split
    · exact Wait.both_le_left _ _
    · exact Wait.le_refl _
  refine ⟨es ++ (b.finalQueue w).instructions.map .put, x₂, ?_, ?_, ?_, hrun.append hrun₂,
    hcar.rel _ _ (V.rel_mono hle hx₁), x₁, (b.finalQueue w).wait, ?_, hcar, ?_⟩
  · rw [List.flatMap_append, hbefore, before_map_put, List.append_nil]
  · rw [List.flatMap_append, hafter, after_map_put]
  · intro e he
    exact (List.mem_append.1 he).elim (hlegal e) (legal_put_queue _ e)
  · rw [Wait.both_none] at hle
    exact V.rel_mono hle hx₁
  · intro hend
    rw [Block.finalQueue, if_pos hend]
    exact Wait.both_le_right _ _

end View

end GpuWaits
