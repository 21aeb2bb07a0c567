/-
# Releases and acquires on every path

The sweep rewrites each block from a context that has absorbed what comes in along all edges.  So a
ledger can be carried along every path of the rewritten program, through loops as often as one likes
(`Orderly.exists_edits`), and what it says at each place is this.

* Where an atomic store releases past the workgroup, all accesses before it that are not private are
  complete (`completes_before_release`).
* An atomic load that acquires past the workgroup is complete before any later access that is not
  private (`acquire_completes`).
* A barrier that releases does so for all later atomic stores and control barriers, if it stands
  outside of all loops (`barrier_completes`).  Inside of a loop it need not: the barrier is taken out
  when its block is processed for the first time, and what comes around the loop is met by code that
  has no barrier any more.
-/
import GpuWaits.Proofs.Bounded
import GpuWaits.Proofs.Ledger
import GpuWaits.Proofs.Paths
import GpuWaits.Sample.Code

namespace GpuWaits

/-! ### Edits that serve all states -/

namespace View

variable {s : Setting} {σ : Type} {V : View s σ} {es fs : List Edit}

lemma runs_cons_iff {e : Edit} {x z : σ} :
    V.Runs (e :: es) x z ↔ ∃ y, V.Run e x y ∧ V.Runs es y z := by
  constructor
  · rintro (_ | ⟨he, hes⟩)
    exact ⟨_, he, hes⟩
  · rintro ⟨y, he, hes⟩
    exact .cons he hes

/-- A run can be cut anywhere. -/
lemma runs_append_iff {x z : σ} :
    V.Runs (es ++ fs) x z ↔ ∃ y, V.Runs es x y ∧ V.Runs fs y z := by
  refine ⟨fun h => ?_, fun ⟨y, hes, hfs⟩ => hes.append hfs⟩
  induction es generalizing x with
  | nil => exact ⟨x, .nil x, h⟩
  | cons e es ih =>
    obtain ⟨y, he, h⟩ := runs_cons_iff.1 h
    obtain ⟨y', hes, hfs⟩ := ih h
    exact ⟨y', .cons he hes, hfs⟩

/-- A view of many states at once. -/
def family (V : View s σ) (ι : Type) : View s (ι → σ) where
  Good := V.Good
  Run e x x' := ∀ a, V.Run e (x a) (x' a)
  Rel c x w := ∀ a, V.Rel c (x a) w
  Ready i x w := ∀ a, V.Ready i (x a) w
  coherent := V.coherent
  rel_mono hle h a := V.rel_mono hle (h a)
  ready_mono hle h a := V.ready_mono hle (h a)
  settle hflat hs h a := V.settle hflat hs (h a)
  defer i h a := V.defer i (h a)
  ready hi h haw a := V.ready hi (h a) haw
  take x hi hd := by
    choose x' hrun hrel using fun a => V.take (x a) hi hd
    exact ⟨x', hrun, fun c w h a => hrel a c w (h a)⟩
  putWait w x := by
    choose x' hrun hrel hready using fun a => V.putWait w (x a)
    exact ⟨x', hrun, fun c v h a => hrel a c v (h a), fun i v h a => hready a i v (h a)⟩
  putOther x hi := by
    choose x' hrun hrel hready using fun a => V.putOther (x a) hi
    exact ⟨x', hrun, fun c v h a => hrel a c v (h a), fun i v h a => hready a i v (h a)⟩
  keep {i kept c c' x} hi hd htakes hrel hready hstart := by
    choose x' hrun hrel' using fun a => V.keep hi hd htakes (hrel a) (hready a) hstart
    exact ⟨x', hrun, hrel'⟩

lemma Runs.member {ι : Type} {x x' : ι → σ} (h : (V.family ι).Runs es x x') (a : ι) :
    V.Runs es (x a) (x' a) := by
  induction h with
  | nil x => exact .nil _
  | cons he _ ih => exact .cons (he a) ih

/-- The edits of a block do not depend on the state. -/
theorem exists_edits {b b' : Block} {c c' : Context} (h : b.insertWaits s c = .ok (b', c'))
    (hb : ∀ i ∈ b.instructions, V.Good i) :
    ∃ es : List Edit, es.flatMap Edit.before = b.instructions
      ∧ es.flatMap Edit.after = b'.instructions ∧ (∀ e ∈ es, e.Legal s)
      ∧ ∀ x, V.Rel c x .none → ∃ x', V.Runs es x x' ∧ V.Rel c' x' .none := by
  obtain ⟨es, x', hbefore, hafter, hlegal, hruns, hrel, -⟩ :=
    (V.family { x // V.Rel c x .none }).insertWaits (x := Subtype.val) h hb Subtype.property
  exact ⟨es, hbefore, hafter, hlegal, fun x hx => ⟨x' ⟨x, hx⟩, hruns.member ⟨x, hx⟩, hrel ⟨x, hx⟩⟩⟩

end View

/-! ### Places in edited code -/

namespace Edit

variable {es : List Edit} {e : Edit} {pre post : List Instruction} {x : Instruction} {s : Setting}

/-- An edit has at most one instruction on each side, so that an instruction on one side of some edits
belongs to one of them. -/
lemma exists_cut {side : Edit → List Instruction} (hside : ∀ e, (side e).length ≤ 1)
    (h : es.flatMap side = pre ++ x :: post) :
    ∃ es₁ e es₂, es = es₁ ++ e :: es₂ ∧ side e = [x] ∧ es₁.flatMap side = pre
      ∧ es₂.flatMap side = post := by
  induction es generalizing pre with
  | nil => simp at h
  | cons e es ih =>
    rw [List.flatMap_cons] at h
    have hshort : side e = [] ∨ ∃ i, side e = [i] := by
      have := hside e
      rcases hs : side e with _ | ⟨i, _ | ⟨j, l⟩⟩
      · exact .inl rfl
      · exact .inr ⟨i, rfl⟩
      · simp [hs] at this
    rcases hshort with hnil | ⟨i, hi⟩
    · rw [hnil, List.nil_append] at h
      obtain ⟨es₁, e', es₂, rfl, hx, hpre, hpost⟩ := ih h
      exact ⟨e :: es₁, e', es₂, rfl, hx, by rw [List.flatMap_cons, hnil, hpre]; rfl, hpost⟩
    · rw [hi, List.singleton_append] at h
      cases pre with
      | nil =>
        obtain ⟨rfl, hpost⟩ := List.cons.inj h
        exact ⟨[], e, es, rfl, hi, rfl, hpost⟩
      | cons j pre =>
        obtain ⟨rfl, hrest⟩ := List.cons.inj h
        obtain ⟨es₁, e', es₂, rfl, hx, hpre, hpost⟩ := ih hrest
        exact ⟨e :: es₁, e', es₂, rfl, hx, by rw [List.flatMap_cons, hi, hpre]; rfl, hpost⟩

lemma length_before (e : Edit) : e.before.length ≤ 1 := by
  cases e <;> simp [before]

lemma length_after (e : Edit) : e.after.length ≤ 1 := by
  cases e <;> simp [after]

/-- A directive is taken out. -/
lemma take_of_before (he : e.Legal s) (hx : e.before = [x]) (hdir : x.isDirective s = true) :
    e = .take x := by
  cases e with
  | put i => cases hx
  | take i => rw [List.singleton_inj.1 hx]
  | keep i kept =>
    rw [List.singleton_inj.1 hx, Edit.Legal, hdir] at he
    cases he.1

/-- What has not been put in has been there before. -/
lemma keep_of_after (he : e.Legal s) (hx : e.after = [x]) (hold : ¬x.IsInserted s) :
    ∃ i, e = .keep i x := by
  cases e with
  | put i =>
    obtain rfl : i = x := List.singleton_inj.1 hx
    exact absurd he hold
  | take i => cases hx
  | keep i kept =>
    obtain rfl : kept = x := List.singleton_inj.1 hx
    exact ⟨i, rfl⟩

end Edit

namespace Instruction

variable {i : Instruction} {s : Setting} {k : Storage}

/-- Only accesses of memory and barriers name storage. -/
lemma not_isInserted_of_mem_storage (hk : k ∈ i.sync.storage) : ¬i.IsInserted s := by
  rintro (⟨w, rfl⟩ | ⟨w, rfl⟩ | ⟨-, rfl⟩) <;> exact absurd hk (Flags.not_mem_empty k)

/-- An atomic store releases its storage. -/
lemma mem_orderedStorage_of_stores (hatomic : .atomic ∈ i.sync.semantics)
    (hstores : i.definitions = [] ∨ .rmw ∈ i.sync.semantics) (hk : k ∈ i.sync.storage) :
    k ∈ i.orderedStorage s i.sync {.release} := by
  have hasked : Semantic.release ∈ ({.release} : SemanticSet) := by decide
  have hstores' : (i.definitions.isEmpty || decide (.rmw ∈ i.sync.semantics)) = true := by
    simpa using hstores
  simp only [orderedStorage, if_pos hatomic, hasked, hstores', decide_true, Bool.and_self,
    Bool.or_true, if_true]
  exact hk

/-- An atomic load acquires its storage. -/
lemma mem_orderedStorage_of_loads (hatomic : .atomic ∈ i.sync.semantics)
    (hloads : i.definitions ≠ [] ∨ .rmw ∈ i.sync.semantics) (hk : k ∈ i.sync.storage) :
    k ∈ i.orderedStorage s i.sync {.acquire} := by
  have hasked : Semantic.acquire ∈ ({.acquire} : SemanticSet) := by decide
  have hloads' : (!i.definitions.isEmpty || decide (.rmw ∈ i.sync.semantics)) = true := by
    simpa using hloads
  simp only [orderedStorage, if_pos hatomic, hasked, hloads', decide_true, Bool.and_self,
    Bool.true_or, if_true]
  exact hk

lemma ownWait_of_mem_storage (hk : k ∈ i.sync.storage) : Checker.ownWait i = .none := by
  cases hp : i.payload with
  | wait w | interp n =>
    rw [sync, hp] at hk
    exact absurd hk (Flags.not_mem_empty k)
  | _ => simp [Checker.ownWait, hp]

/-- An atomic store of the storage class `k`, or a control barrier. -/
def Publishes (i : Instruction) (k : Storage) : Prop :=
  .atomic ∈ i.sync.semantics ∧ (i.definitions = [] ∨ .rmw ∈ i.sync.semantics)
    ∧ k ∈ i.sync.storage ∨ i.opcode = .sBarrier

lemma Publishes.not_isInserted (h : i.Publishes k) : ¬i.IsInserted s := by
  rcases h with ⟨-, -, hk⟩ | hbar
  · exact not_isInserted_of_mem_storage hk
  · rintro (⟨w, rfl⟩ | ⟨w, rfl⟩ | ⟨-, rfl⟩) <;> cases hbar

lemma Publishes.orderedStorage (h : i.Publishes k) (hc : i.isCoherent = true) :
    k ∈ i.orderedStorage s i.sync {.release} ∧ Checker.ownWait i = .none := by
  rcases h with ⟨hatomic, hstores, hk⟩ | hbar
  · exact ⟨mem_orderedStorage_of_stores hatomic hstores hk, ownWait_of_mem_storage hk⟩
  · obtain ⟨imm, hp⟩ : ∃ imm, i.payload = .sopp imm := by
      have hfits := fits_of_isCoherent hc
      simp only [isCoherent, hbar, format] at hc hfits
      cases hp : i.payload with
      | sopp imm => exact ⟨imm, rfl⟩
      | wait w | dependencyWait w => simp [hp] at hc
      | _ =>
        rw [hp] at hfits
        cases hfits
    have hall : k ∈ StorageSet.all := by
      cases k <;> decide
    have hasked : Semantic.release ∈ ({.release} : SemanticSet) := by decide
    refine ⟨?_, by simp [Checker.ownWait, hp]⟩
    simpa [Instruction.orderedStorage, sync, hp, isControlBarrier, hbar, hasked] using hall

end Instruction

/-! ### Debts along edited code -/

namespace Ledger

variable {s : Setting} {hgroup : s.config.waveSize < s.config.workgroupSize} {es fs : List Edit}
  {x x' : Ledger} {d : Debt} {o : Operation} {i y : Instruction}

/-- A debt stays until the code completes it. -/
lemma mem_of_runs (h : (view s hgroup).Runs es x x') (hd : d ∈ x)
    (ho : d.op.run? s (es.flatMap Edit.after) = some o) : { d with op := o } ∈ x' := by
  induction h generalizing d with
  | nil x =>
    cases ho
    exact hd
  | @cons e es x x₁ x₂ he _ ih =>
    rw [List.flatMap_cons, Operation.run?_append, Option.bind_eq_some_iff] at ho
    obtain ⟨o₁, ho₁, ho⟩ := ho
    refine ih (d := { d with op := o₁ }) ?_ ho
    rw [he.1]
    exact .pass hd ho₁

/-- What an instruction has to pay has been completed in front of it, unless it waits itself. -/
lemma run?_eq_none_of_pays (h : (view s hgroup).Runs (es ++ .keep i y :: fs) x x') (hd : d ∈ x)
    (hpays : Pays s y d) (hown : Checker.ownWait y = .none) :
    d.op.run? s (es.flatMap Edit.after) = none := by
  by_contra hsome
  obtain ⟨o, ho⟩ := Option.ne_none_iff_exists'.1 hsome
  obtain ⟨x₁, hes, h⟩ := View.runs_append_iff.1 h
  obtain ⟨x₂, hkeep, -⟩ := View.runs_cons_iff.1 h
  have hpaid := hkeep.2 i y rfl _ (mem_of_runs hes hd ho) (hpays.of_op o)
  rw [hown, Operation.isComplete_none] at hpaid
  cases hpaid

/-- A context that has absorbed another one is right about what that one is right about. -/
lemma Agrees.absorbs {c c' : Context} {w : Wait} {edge : Context.Edge} (h : Agrees s c x w)
    (hlogical : edge.logical = true) (habs : c'.Absorbs c edge) (hc' : c'.Sound s.generation) :
    Agrees s c' x w := by
  refine ⟨hc', fun d hd hnot => ?_⟩
  have hasks := h.asks d hd hnot
  obtain ⟨-, hlive⟩ := hasks.listed h.sound
  have hslack : ∀ ctr, c.Slack ctr → c'.Slack ctr := by
    intro ctr
    cases ctr with
    | vm => exact habs.flatVm
    | lgkm => exact habs.flatLgkm
    | _ => exact id
  exact (Demand.Asks.of_grows hasks (habs.demands hlogical d.role hlive d.storage)).slack_mono hslack

lemma agrees_empty {c : Context} (hc : c.Sound s.generation) (w : Wait) : Agrees s c ∅ w :=
  ⟨hc, fun _ hd => absurd hd (Set.notMem_empty _)⟩

end Ledger

/-! ### The edits of a finished sweep -/

section

variable {s : Setting} {σ : Type} {p : Program} {start : Context} {P : Context → Prop}
  {Q : Nat → Block → Prop} {nodes : List Node}

/-- The edits `es` are those of the last rewrite of the block at the place `n`. -/
structure EditsOf (V : View s σ) (p : Program) (start : Context) (P : Context → Prop)
    (Q : Nat → Block → Prop) (nodes : List Node) (n : Nat) (es : List Edit) : Prop where
  legal : ∀ e ∈ es, e.Legal s
  good : ∀ e ∈ es, ∀ i ∈ e.before, V.Good i
  rewritten : ∀ (b : Block) (node : Node), p.blocks[n]? = some b → nodes[n]? = some node →
    .discardEarlyExit ∉ b.kind → ∃ b₀ c₀, Rewritten s p start P Q nodes n b node b₀ c₀
      ∧ es.flatMap Edit.before = b₀.instructions ∧ es.flatMap Edit.after = node.block.instructions
      ∧ ∀ x, V.Rel c₀ x .none → ∃ x', V.Runs es x x' ∧ V.Rel node.exit x' .none

lemma Settled.exists_edits (h : Settled s p start P Q nodes) (V : View s σ)
    (hgood : ∀ {n : Nat} {b : Block}, Q n b → ∀ i ∈ b.instructions, V.Good i) (n : Nat) :
    ∃ es, EditsOf V p start P Q nodes n es := by
  by_cases hn : ∃ b node, p.blocks[n]? = some b ∧ nodes[n]? = some node
      ∧ .discardEarlyExit ∉ b.kind
  · obtain ⟨b, node, hb, hnode, hkind⟩ := hn
    obtain ⟨b₀, c₀, hr⟩ := h.rewritten n b node hb hnode hkind
    obtain ⟨es, hbefore, hafter, hlegal, hruns⟩ := View.exists_edits (V := V) hr.result
      (hgood hr.block)
    refine ⟨es, hlegal, fun e he i hi => hgood hr.block i ?_, fun b' node' hb' hnode' _ => ?_⟩
    · exact hbefore ▸ List.mem_flatMap.2 ⟨e, he, hi⟩
    · cases hb.symm.trans hb'
      cases hnode.symm.trans hnode'
      exact ⟨b₀, c₀, hr, hbefore, hafter, hruns⟩
  · exact ⟨[], by simp, by simp, fun b node hb hnode hkind => absurd ⟨b, node, hb, hnode, hkind⟩ hn⟩

/-- The blocks of the rewritten program are those of the nodes. -/
lemma Settled.block_at (h : Settled s p start P Q nodes) {n : Nat} {b' : Block}
    (hb' : (p.withNodes nodes).blocks[n]? = some b') :
    ∃ b node, p.blocks[n]? = some b ∧ nodes[n]? = some node ∧ b' = node.block ∧ b.SameFrame b' := by
  simp only [Program.withNodes, List.getElem?_map, Option.map_eq_some_iff] at hb'
  obtain ⟨node, hn, rfl⟩ := hb'
  have hlt := (List.getElem?_eq_some_iff.1 hn).1
  rw [h.length] at hlt
  exact ⟨_, node, List.getElem?_eq_getElem hlt, hn, rfl,
    h.frame n _ node (List.getElem?_eq_getElem hlt) hn⟩

lemma EditsOf.after {V : View s σ} {n : Nat} {es : List Edit} {b' : Block}
    (h : EditsOf V p start P Q nodes n es) (hset : Settled s p start P Q nodes)
    (hb' : (p.withNodes nodes).blocks[n]? = some b') (hkind : .discardEarlyExit ∉ b'.kind) :
    es.flatMap Edit.after = b'.instructions := by
  obtain ⟨b, node, hb, hnode, rfl, hframe⟩ := hset.block_at hb'
  obtain ⟨b₀, c₀, -, -, hafter, -⟩ := h.rewritten b node hb hnode (hframe.kind ▸ hkind)
  exact hafter

end

/-! ### Ledgers along the paths of a program -/

/-- The edits along a path, the last block of which comes first. -/
def editsAlong (es : Nat → List Edit) : List Nat → List Edit
  | [] => []
  | n :: path => editsAlong es path ++ es n

lemma editsAlong_append (es : Nat → List Edit) (later earlier : List Nat) :
    editsAlong es (later ++ earlier) = editsAlong es earlier ++ editsAlong es later := by
  induction later with
  | nil => simp [editsAlong]
  | cons n later ih => simp only [List.cons_append, editsAlong, ih, List.append_assoc]

lemma mem_editsAlong {es : Nat → List Edit} {path : List Nat} {e : Edit} (h : e ∈ editsAlong es path) :
    ∃ n ∈ path, e ∈ es n := by
  induction path with
  | nil => cases h
  | cons n path ih =>
    rcases List.mem_append.1 h with h | h
    · obtain ⟨m, hm, he⟩ := ih h
      exact ⟨m, List.mem_cons_of_mem _ hm, he⟩
    · exact ⟨n, List.mem_cons_self, h⟩

namespace Program

variable {p : Program} {drainAll : Bool} {w : Sweep} {es : Nat → List Edit} {path : List Nat}

/-- A program whose barriers reach other waves: it is valid, its payloads fit the opcodes, all its edges
carry lanes, loops are entered and left where they say, and the workgroup has more than one wave. -/
structure Orderly (p : Program) : Prop where
  valid : p.validate = .ok ()
  coherent : ∀ b ∈ p.blocks, ∀ i ∈ b.instructions, i.isCoherent = true
  preds : ∀ b ∈ p.blocks, b.logicalPreds = b.linearPreds
  loops : p.LoopsNest
  group : p.config.waveSize < p.config.workgroupSize

/-- The edits of the blocks that lead to the program `p'`.  Blocks outside of all loops are edited
once. -/
structure EditedBy (p : Program) (s : Setting) (hgroup : s.config.waveSize < s.config.workgroupSize)
    (p' : Program) (es : Nat → List Edit) : Prop where
  legal : ∀ n, ∀ e ∈ es n, e.Legal s
  coherent : ∀ n, ∀ e ∈ es n, ∀ i ∈ e.before, i.isCoherent = true
  after : ∀ (n : Nat) (b : Block), p'.blocks[n]? = some b → .discardEarlyExit ∉ b.kind →
    (es n).flatMap Edit.after = b.instructions
  once : ∀ (n : Nat) (b : Block), p.blocks[n]? = some b → .discardEarlyExit ∉ b.kind →
    openHeaders p.blocks (n + 1) = [] → (es n).flatMap Edit.before = b.instructions
  runs : ∀ path, p'.Path path → ∃ x, (Ledger.view s hgroup).Runs (editsAlong es path) ∅ x

lemma trace_editsAlong
    (h : ∀ n ∈ path, (es n).flatMap Edit.after = (p.blocks[n]?.getD { index := 0 }).instructions) :
    (editsAlong es path).flatMap Edit.after = p.trace path := by
  induction path with
  | nil => rfl
  | cons n path ih =>
    rw [editsAlong, List.flatMap_append, ih fun m hm => h m (List.mem_cons_of_mem _ hm),
      h n List.mem_cons_self]
    rfl

lemma EditedBy.trace {s : Setting} {hgroup : s.config.waveSize < s.config.workgroupSize}
    {p' : Program} (h : p.EditedBy s hgroup p' es) (hpath : p'.Path path) :
    (editsAlong es path).flatMap Edit.after = p'.trace path := by
  refine trace_editsAlong fun n hn => ?_
  obtain ⟨b, hb, hkind⟩ := hpath.block_of_mem hn
  rw [h.after n b hb hkind, hb]
  rfl

lemma EditedBy.mem_along {s : Setting} {hgroup : s.config.waveSize < s.config.workgroupSize}
    {p' : Program} (h : p.EditedBy s hgroup p' es) {path : List Nat} {e : Edit}
    (he : e ∈ editsAlong es path) : e.Legal s ∧ ∀ i ∈ e.before, i.isCoherent = true := by
  obtain ⟨n, -, he⟩ := mem_editsAlong he
  exact ⟨h.legal n e he, h.coherent n e he⟩

/-- The state of the sweep over a program whose payloads fit the opcodes. -/
lemma settled_of_coherent (hvalid : p.validate = .ok ())
    (hcoherent : ∀ b ∈ p.blocks, ∀ i ∈ b.instructions, i.isCoherent = true) (hloops : p.LoopsNest)
    (h : p.solve drainAll = .ok w) :
    ∃ start : Context, start.Sound p.config.generation
      ∧ Settled { config := p.config, drainAll } p start (·.Sound p.config.generation)
        (fun _ b => ∀ i ∈ b.instructions, i.isCoherent = true) w.nodes := by
  have hv := valid_of_validate hvalid
  obtain ⟨start, hstart, hsound⟩ := startContext_total (s := { config := p.config, drainAll }) hv
  refine ⟨start, hsound, settled_of_solve rfl hv hloops (fun _ => hstart) ?_ h⟩
  exact
    { empty := Context.sound_empty _
      start := hsound
      join := fun edge hc ho => hc.join ho edge
      original := fun hb => hcoherent _ (List.mem_of_getElem? hb)
      rewrite := fun hb hc hr => ⟨Block.coherent_insertWaits hr hb, Block.insertWaits_sound hr hc⟩ }

/-- Along a path of the rewritten program, the context at the end of the last block is right about the
ledger. -/
lemma agrees_along {s : Setting} {hgroup : s.config.waveSize < s.config.workgroupSize}
    {start : Context} {nodes : List Node} {Q : Nat → Block → Prop}
    (hpreds : ∀ b ∈ p.blocks, b.logicalPreds = b.linearPreds) (hstart : start.Sound s.generation)
    (hset : Settled s p start (·.Sound s.generation) Q nodes)
    (hes : ∀ n, EditsOf (Ledger.view s hgroup) p start (·.Sound s.generation) Q nodes n (es n))
    {n : Nat} (hpath : (p.withNodes nodes).Path (n :: path)) :
    ∃ x node, nodes[n]? = some node
      ∧ (Ledger.view s hgroup).Runs (editsAlong es (n :: path)) ∅ x
      ∧ Ledger.Agrees s node.exit x .none := by
  induction path generalizing n with
  | nil =>
    obtain ⟨b', hb', hkind⟩ := hpath.block
    obtain ⟨b, node, hb, hnode, rfl, hframe⟩ := hset.block_at hb'
    obtain ⟨b₀, c₀, hr, -, -, hruns⟩ := (hes n).rewritten b node hb hnode (hframe.kind ▸ hkind)
    cases hpath
    obtain ⟨x, hx, hagrees⟩ := hruns ∅ (hr.first rfl ▸ Ledger.agrees_empty hstart _)
    exact ⟨x, node, hnode, by simpa only [editsAlong, List.nil_append] using hx, hagrees⟩
  | cons m path ih =>
    obtain ⟨b', hb', hkind⟩ := hpath.block
    obtain ⟨b, node, hb, hnode, rfl, hframe⟩ := hset.block_at hb'
    obtain ⟨b₀, c₀, hr, -, -, hruns⟩ := (hes n).rewritten b node hb hnode (hframe.kind ▸ hkind)
    cases hpath with
    | next hpath hnext =>
      obtain ⟨x, pred, hpred, hx, hagrees⟩ := ih hpath
      obtain ⟨b', hb'', -, source, hsource, rfl⟩ := hnext
      cases hb'.symm.trans hb''
      -- The edge is a logical one, so that demands come in along it.
      have hedge : (source.toNat, (⟨true, b.mergesLanes⟩ : Context.Edge)) ∈ b.edges := by
        rw [hframe.linearPreds, ← hpreds b (List.mem_of_getElem? hb)] at hsource
        exact List.mem_append_right _ (List.mem_map.2 ⟨source, hsource, rfl⟩)
      obtain ⟨pred', hpred', habs⟩ := hr.absorbs _ hedge
      cases hpred.symm.trans hpred'
      obtain ⟨x', hx', hagrees'⟩ := hruns x (hagrees.absorbs rfl habs hr.context)
      exact ⟨x', node, hnode, hx.append hx', hagrees'⟩

/-- The rewritten program comes with edits, and a ledger can be carried along all its paths. -/
theorem Orderly.exists_edits (hp : p.Orderly) (h : p.solve drainAll = .ok w) :
    ∃ es, p.EditedBy { config := p.config, drainAll } hp.group (p.withNodes w.nodes) es := by
  obtain ⟨start, hstart, hset⟩ := settled_of_coherent hp.valid hp.coherent hp.loops h
  choose es hes using fun n => hset.exists_edits
    (Ledger.view { config := p.config, drainAll } hp.group) (fun hb => hb) n
  refine ⟨es, fun n => (hes n).legal, fun n => (hes n).good, fun n b' hb' hkind => ?_,
    fun n b hb hkind hout => ?_, fun path hpath => ?_⟩
  · exact (hes n).after hset hb' hkind
  · obtain ⟨node, hnode⟩ : ∃ node, w.nodes[n]? = some node := by
      have hlt := (List.getElem?_eq_some_iff.1 hb).1
      rw [← hset.length] at hlt
      exact ⟨_, List.getElem?_eq_getElem hlt⟩
    obtain ⟨b₀, c₀, hr, hbefore, -⟩ := (hes n).rewritten b node hb hnode hkind
    rw [hbefore, hr.once hout]
  · cases path with
    | nil => cases hpath
    | cons n path =>
      obtain ⟨x, -, -, hx, -⟩ := agrees_along hp.preds hstart hset hes hpath
      exact ⟨x, hx⟩

/-! ### A program that hands data over -/

/-- A store of data that others are going to read. -/
def publish : Instruction := Sample.bufferStore (.vgpr 0) (.vgpr 1)

/-- A barrier that releases buffers to the whole device. -/
def releaseBarrier : Instruction :=
  ⟨.pBarrier, [], [],
    .barrier { sync := { storage := {.buffer}, semantics := {.release}, scope := .device } }⟩

/-- An atomic addition to a flag. -/
def addFlag (definitions : List RegRange) (semantics : SemanticSet) : Instruction where
  opcode := .bufferAtomicAdd
  definitions := definitions
  operands := [.reg ⟨.sgpr 0, 4⟩, .reg ⟨.vgpr 0, 1⟩, .const 0, .reg ⟨.vgpr 1, 1⟩]
  payload := .vmem { storage := {.buffer}, semantics, scope := .device }

/-- An addition that takes the flag over and hands it on. -/
def exchange : Instruction :=
  addFlag [⟨.vgpr 2, 1⟩] (.ofList [.acquire, .release, .atomic, .rmw])

/-- Data is stored, and then a flag is exchanged until it is free.  The arguments stand between. -/
def handOverCode (fence waits waits' : List Instruction) : Program where
  config := { workgroupSize := 256 }
  blocks := [
    Sample.block 0 {.topLevel} [] 0 [publish],
    Sample.block 1 ∅ [0] 0 fence,
    Sample.block 2 {.loopHeader} [1, 2] 1
      (waits ++ exchange :: (waits' ++ [Sample.bufferLoad (.vgpr 3) (.vgpr 0)])),
    Sample.block 3 {.loopExit} [2] 0 [Sample.endProgram]]

def handOver : Program := handOverCode [releaseBarrier] [] []

/-- The wait for the data and for the load of the round before. -/
def dataWait : Instruction := .ofWait (.drain (.ofList [.vm, .vs]))

/-- The wait for the flag. -/
def flagWait : Instruction := .ofWait (.drain {.vm})

def handedOver : Program := handOverCode [] [dataWait] [flagWait]

lemma orderly_handOver : handOver.Orderly where
  valid := by decide +kernel
  coherent := by decide +kernel
  preds := by decide +kernel
  loops := by decide +kernel
  group := by decide

lemma solve_handOver :
    ∃ w, handOver.solve false = .ok w ∧ handOver.withNodes w.nodes = handedOver :=
  exists_solve 20 (by decide +kernel)

lemma path_handedOver : handedOver.Path [2, 1, 0] :=
  .next (.next (.entry rfl (by decide)) ⟨_, rfl, by decide, 0, by decide, rfl⟩)
    ⟨_, rfl, by decide, 1, by decide, rfl⟩

/-! ### Releases and acquires -/

section

variable {s : Setting} {hgroup : s.config.waveSize < s.config.workgroupSize} {p' : Program}
  {pre mid post : List Instruction} {x y : Instruction} {k : Storage}

/-- Two instructions of a path that have been there before, and what is owed between them. -/
lemma EditedBy.exists_runs (h : p.EditedBy s hgroup p' es) (hpath : p'.Path path)
    (htrace : p'.trace path = pre ++ x :: (mid ++ y :: post)) (hx : ¬x.IsInserted s)
    (hy : ¬y.IsInserted s) : ∃ i j between behind l l',
      (Ledger.view s hgroup).Runs (.keep i x :: (between ++ .keep j y :: behind)) l l'
        ∧ between.flatMap Edit.after = mid := by
  obtain ⟨l₂, hruns⟩ := h.runs path hpath
  rw [← h.trace hpath] at htrace
  obtain ⟨before, e, rest, hes, hex, -, hrest⟩ := Edit.exists_cut Edit.length_after htrace
  obtain ⟨between, e', behind, rfl, hey, hmid, -⟩ := Edit.exists_cut Edit.length_after hrest
  have hlegal : ∀ e ∈ editsAlong es path, e.Legal s := fun e he => (h.mem_along he).1
  rw [hes] at hlegal hruns
  obtain ⟨i, rfl⟩ := Edit.keep_of_after (hlegal e (by simp)) hex hx
  obtain ⟨j, rfl⟩ := Edit.keep_of_after (hlegal e' (by simp)) hey hy
  obtain ⟨l, -, hl⟩ := View.runs_append_iff.1 hruns
  exact ⟨i, j, between, behind, l, l₂, hl, hmid⟩

/-- What an instruction owes is complete in front of a later one that has to pay it. -/
lemma EditedBy.completesIn (h : p.EditedBy s hgroup p' es) (hpath : p'.Path path)
    (htrace : p'.trace path = pre ++ x :: (mid ++ y :: post)) {ev : Event}
    (hev : .issue ev x.sync ∈ x.effects s) {d : Debt} (hop : d.op = .ofEvent s x ev)
    (howed : ∀ i l, Ledger.Next s l (.keep i x) d) (hxk : k ∈ x.sync.storage)
    (hyk : k ∈ y.sync.storage) (hpays : Ledger.Pays s y d) : x.CompletesIn s ev mid := by
  obtain ⟨i, j, between, behind, l, l', hruns, hmid⟩ := h.exists_runs hpath htrace
    (Instruction.not_isInserted_of_mem_storage hxk) (Instruction.not_isInserted_of_mem_storage hyk)
  obtain ⟨l₁, hkeep, hruns⟩ := View.runs_cons_iff.1 hruns
  have hd : d ∈ l₁ := by
    rw [hkeep.1]
    exact howed i l
  have hnone := Ledger.run?_eq_none_of_pays hruns hd hpays (Instruction.ownWait_of_mem_storage hyk)
  rw [hmid, hop] at hnone
  obtain ⟨counter, hcounter⟩ := Instruction.counter_of_issue hev
  exact Instruction.completesIn_of_run? hcounter hnone

end

/-- Where an atomic store `y` releases past the workgroup, every access `x` before it that is not
private and shares a storage class with it is complete. -/
theorem completes_before_release (hp : p.Orderly) (h : p.solve drainAll = .ok w)
    (hpath : (p.withNodes w.nodes).Path path) {pre mid post : List Instruction} {x y : Instruction}
    (htrace : (p.withNodes w.nodes).trace path = pre ++ x :: (mid ++ y :: post))
    (hatomic : .atomic ∈ y.sync.semantics) (hrelease : .release ∈ y.sync.semantics)
    (hstores : y.definitions = [] ∨ .rmw ∈ y.sync.semantics)
    (hscope : .queueFamily ≤ y.sync.scope) (hshared : .unshared ∉ x.sync.semantics) {k : Storage}
    (hxk : k ∈ x.sync.storage) (hyk : k ∈ y.sync.storage) {ev : Event}
    (hev : .issue ev x.sync ∈ x.effects { config := p.config, drainAll }) :
    x.CompletesIn { config := p.config, drainAll } ev mid := by
  obtain ⟨es, hes⟩ := hp.exists_edits h
  exact hes.completesIn hpath htrace hev
    (d := ⟨.releaseDependency, k, .invocation, .ofEvent _ x ev⟩) rfl
    (fun i l => .access hev hshared hxk) hxk hyk
    (.own rfl hrelease hyk hscope (Instruction.mem_orderedStorage_of_stores hatomic hstores hyk))

theorem completes_before_release_handOver : ∃ w, handOver.Orderly ∧ handOver.solve false = .ok w
    ∧ (handOver.withNodes w.nodes).Path [2, 1, 0]
    ∧ (handOver.withNodes w.nodes).trace [2, 1, 0] = [] ++ publish :: ([dataWait] ++ exchange
      :: [flagWait, Sample.bufferLoad (.vgpr 3) (.vgpr 0)])
    ∧ publish.CompletesIn { config := handOver.config, drainAll := false } .vmemStore [dataWait] := by
  obtain ⟨w, hw, heq⟩ := solve_handOver
  have hpath : (handOver.withNodes w.nodes).Path [2, 1, 0] := heq ▸ path_handedOver
  have htrace : (handOver.withNodes w.nodes).trace [2, 1, 0] = [] ++ publish :: ([dataWait] ++ exchange
      :: [flagWait, Sample.bufferLoad (.vgpr 3) (.vgpr 0)]) := heq ▸ rfl
  exact ⟨w, orderly_handOver, hw, hpath, htrace, completes_before_release (k := .buffer)
    orderly_handOver hw hpath htrace (by decide) (by decide) (by decide) (by decide) (by decide)
    (by decide) (by decide) (List.mem_cons_self)⟩

/-- An atomic load `y` that acquires past the workgroup is complete before every later access `z` that is
not private and shares a storage class with it. -/
theorem acquire_completes (hp : p.Orderly) (h : p.solve drainAll = .ok w)
    (hpath : (p.withNodes w.nodes).Path path) {pre mid post : List Instruction} {y z : Instruction}
    (htrace : (p.withNodes w.nodes).trace path = pre ++ y :: (mid ++ z :: post))
    (hatomic : .atomic ∈ y.sync.semantics) (hacquire : .acquire ∈ y.sync.semantics)
    (hloads : y.definitions ≠ [] ∨ .rmw ∈ y.sync.semantics)
    (hscope : .queueFamily ≤ y.sync.scope) (hshared : .unshared ∉ z.sync.semantics) {k : Storage}
    (hyk : k ∈ y.sync.storage) (hzk : k ∈ z.sync.storage) {ev : Event}
    (hev : .issue ev y.sync ∈ y.effects { config := p.config, drainAll }) :
    y.CompletesIn { config := p.config, drainAll } ev mid := by
  obtain ⟨es, hes⟩ := hp.exists_edits h
  exact hes.completesIn hpath htrace hev (d := ⟨.acquire, k, y.sync.scope, .ofEvent _ y ev⟩) rfl
    (fun i l => .acquire hev hacquire hscope hyk (Instruction.mem_orderedStorage_of_loads hatomic hloads hyk))
    hyk hzk (.acquire rfl hshared hzk hscope)

theorem acquire_completes_handOver : ∃ w, handOver.Orderly ∧ handOver.solve false = .ok w
    ∧ (handOver.withNodes w.nodes).Path [2, 1, 0]
    ∧ (handOver.withNodes w.nodes).trace [2, 1, 0] = [publish, dataWait] ++ exchange :: ([flagWait]
      ++ Sample.bufferLoad (.vgpr 3) (.vgpr 0) :: [])
    ∧ exchange.CompletesIn { config := handOver.config, drainAll := false } .vmem [flagWait] := by
  obtain ⟨w, hw, heq⟩ := solve_handOver
  have hpath : (handOver.withNodes w.nodes).Path [2, 1, 0] := heq ▸ path_handedOver
  have htrace : (handOver.withNodes w.nodes).trace [2, 1, 0] = [publish, dataWait] ++ exchange
      :: ([flagWait] ++ Sample.bufferLoad (.vgpr 3) (.vgpr 0) :: []) := heq ▸ rfl
  exact ⟨w, orderly_handOver, hw, hpath, htrace, acquire_completes (k := .buffer) orderly_handOver hw
    hpath htrace (by decide) (by decide) (by decide) (by decide) (by decide) (by decide) (by decide)
    List.mem_cons_self⟩

/-! ### Barriers -/

/-- What has been walked before a place of a path is nothing or a path. -/
lemma Path.earlier {later earlier : List Nat} {m : Nat} (h : p.Path (later ++ m :: earlier)) :
    earlier = [] ∨ p.Path earlier := by
  induction later with
  | nil =>
    cases h with
    | entry => exact .inl rfl
    | next h _ => exact .inr h
  | cons n later ih =>
    rw [List.cons_append] at h
    generalize hrest : later ++ m :: earlier = rest at h ih
    cases h with
    | entry => simp at hrest
    | next h _ => exact ih h

/-- A debt to releases that meets a barrier outlives neither the code before the barrier nor the code
between the barrier and the next instruction that has to pay. -/
lemma run?_eq_none_of_barrier {s : Setting} {hgroup : s.config.waveSize < s.config.workgroupSize}
    {l l' : Ledger} {d : Debt} {before between behind : List Edit} {bar j y : Instruction}
    (h : (Ledger.view s hgroup).Runs (before ++ .take bar :: (between ++ .keep j y :: behind)) l l')
    (hd : d ∈ l) (hrole : d.role = .releaseDependency) (hk : d.storage ∈ bar.sync.storage)
    (hrelease : .release ∈ bar.sync.semantics) (hscope : .workgroup < bar.sync.scope)
    (hy : d.storage ∈ y.orderedStorage s y.sync {.release}) (hown : Checker.ownWait y = .none) :
    d.op.run? s (before.flatMap Edit.after ++ between.flatMap Edit.after) = none := by
  obtain ⟨l₁, hbefore, h⟩ := View.runs_append_iff.1 h
  obtain ⟨l₂, htake, h⟩ := View.runs_cons_iff.1 h
  rw [Operation.run?_append, Option.bind_eq_none_iff]
  intro o ho
  have hd₁ := Ledger.mem_of_runs hbefore hd ho
  have hd₂ : ⟨.release, d.storage, bar.sync.scope, o⟩ ∈ l₂ := by
    rw [htake.1]
    exact .release hd₁ hrole hrelease hk hscope hk
  exact Ledger.run?_eq_none_of_pays h hd₂ (.release rfl hy hscope) hown

/-- A path, cut at a barrier that its block takes out. -/
lemma EditedBy.completesIn_of_barrier {s : Setting}
    {hgroup : s.config.waveSize < s.config.workgroupSize} {p' : Program}
    (h : p.EditedBy s hgroup p' es) {m : Nat} {before behind : List Edit} {bar : Instruction}
    (hm : es m = before ++ .take bar :: behind) (hrelease : .release ∈ bar.sync.semantics)
    (hscope : .workgroup < bar.sync.scope) {later earlier : List Nat}
    {pre mid mid' post : List Instruction} {x y : Instruction} {k : Storage} {ev : Event}
    (hpath : p'.Path (later ++ m :: earlier))
    (hpre : p'.trace earlier ++ before.flatMap Edit.after = pre ++ x :: mid)
    (htrace : p'.trace (later ++ m :: earlier) = pre ++ x :: (mid ++ (mid' ++ y :: post)))
    (hshared : .unshared ∉ x.sync.semantics) (hxk : k ∈ x.sync.storage)
    (hbark : k ∈ bar.sync.storage) (hy : y.Publishes k) (hev : .issue ev x.sync ∈ x.effects s) :
    x.CompletesIn s ev (mid ++ mid') := by
  obtain ⟨l', hruns⟩ := h.runs _ hpath
  have hmem : ∀ e ∈ editsAlong es (later ++ m :: earlier), e.Legal s
      ∧ ∀ i ∈ e.before, i.isCoherent = true := fun e he => h.mem_along he
  have hcut : editsAlong es (later ++ m :: earlier)
      = (editsAlong es earlier ++ before) ++ .take bar :: (behind ++ editsAlong es later) := by
    rw [editsAlong_append, editsAlong, hm]
    simp
  have hearlier : (editsAlong es earlier).flatMap Edit.after = p'.trace earlier := by
    rcases hpath.earlier with rfl | hpath
    · rfl
    · exact h.trace hpath
  rw [← hearlier, ← List.flatMap_append] at hpre
  rw [← h.trace hpath, hcut, List.flatMap_append, hpre, List.append_assoc] at htrace
  have hpost : (behind ++ editsAlong es later).flatMap Edit.after = mid' ++ y :: post :=
    List.append_cancel_left (List.cons.inj (List.append_cancel_left htrace)).2
  -- The access and the instruction that has to pay have been there before.
  obtain ⟨front, ex, back, hfront, hex, -, rfl⟩ := Edit.exists_cut Edit.length_after hpre
  obtain ⟨between, ey, last, hback, hey, rfl, -⟩ := Edit.exists_cut Edit.length_after hpost
  rw [hcut, hfront, hback] at hruns hmem
  obtain ⟨i, rfl⟩ := Edit.keep_of_after (hmem ex (by simp)).1 hex
    (Instruction.not_isInserted_of_mem_storage hxk)
  obtain ⟨j, rfl⟩ := Edit.keep_of_after (hmem ey (by simp)).1 hey hy.not_isInserted
  obtain ⟨⟨-, htakes⟩, hcoherent⟩ := hmem (.keep j y) (by simp)
  obtain ⟨hordered, hown⟩ := hy.orderedStorage (s := s)
    (htakes.isCoherent (hcoherent j (by simp [Edit.before])))
  rw [List.append_assoc, List.cons_append] at hruns
  obtain ⟨l, -, hruns⟩ := View.runs_append_iff.1 hruns
  obtain ⟨l₁, hkeep, hruns⟩ := View.runs_cons_iff.1 hruns
  have hd : ⟨.releaseDependency, k, .invocation, .ofEvent s x ev⟩ ∈ l₁ := by
    rw [hkeep.1]
    exact .access hev hshared hxk
  obtain ⟨counter, hcounter⟩ := Instruction.counter_of_issue hev
  exact Instruction.completesIn_of_run? hcounter
    (run?_eq_none_of_barrier hruns hd rfl hbark hrelease hscope hordered hown)

/-- Behind a barrier `bar` that releases past the workgroup and stands outside of all loops, every access
`x` before the barrier that is not private is complete where an atomic store `y` of its storage issues,
or a control barrier. -/
theorem barrier_completes (hp : p.Orderly) (h : p.solve drainAll = .ok w) {m : Nat} {b b' : Block}
    (hb : p.blocks[m]? = some b) (hb' : (p.withNodes w.nodes).blocks[m]? = some b')
    (hkind : .discardEarlyExit ∉ b.kind) (hout : openHeaders p.blocks (m + 1) = [])
    {code rest : List Instruction} {bar : Instruction} (hcode : b.instructions = code ++ bar :: rest)
    (hbar : bar.isBarrier = true) (hrelease : .release ∈ bar.sync.semantics)
    (hscope : .queueFamily ≤ bar.sync.scope) :
    ∃ before behind : List Edit, before.flatMap Edit.before = code
      ∧ behind.flatMap Edit.before = rest
      ∧ b'.instructions = before.flatMap Edit.after ++ behind.flatMap Edit.after
      ∧ (∀ e ∈ before ++ behind, e.Legal { config := p.config, drainAll })
      ∧ ∀ {later earlier : List Nat} {pre mid mid' post : List Instruction} {x y : Instruction}
          {k : Storage} {ev : Event}, (p.withNodes w.nodes).Path (later ++ m :: earlier) →
        (p.withNodes w.nodes).trace earlier ++ before.flatMap Edit.after = pre ++ x :: mid →
        (p.withNodes w.nodes).trace (later ++ m :: earlier)
          = pre ++ x :: (mid ++ (mid' ++ y :: post)) →
        .unshared ∉ x.sync.semantics → k ∈ x.sync.storage → k ∈ bar.sync.storage → y.Publishes k →
        .issue ev x.sync ∈ x.effects { config := p.config, drainAll } →
        x.CompletesIn { config := p.config, drainAll } ev (mid ++ mid') := by
  obtain ⟨es, hes⟩ := hp.exists_edits h
  have hbefore := hes.once m b hb hkind hout
  rw [hcode] at hbefore
  obtain ⟨before, e, behind, hm, hbar', hfront, hback⟩ := Edit.exists_cut Edit.length_before hbefore
  have hlegal : ∀ e' ∈ before ++ e :: behind, e'.Legal { config := p.config, drainAll } :=
    hm ▸ hes.legal m
  obtain rfl := Edit.take_of_before (hlegal e (by simp)) hbar'
    (by simp [Instruction.isDirective, hbar])
  have hkind' : .discardEarlyExit ∉ b'.kind := by
    obtain ⟨start, -, hset⟩ := settled_of_coherent hp.valid hp.coherent hp.loops h
    obtain ⟨b₀, node, hb₀, -, -, hframe⟩ := hset.block_at hb'
    cases hb.symm.trans hb₀
    rwa [hframe.kind]
  refine ⟨before, behind, hfront, hback, ?_, fun e' he' => hlegal e' ?_,
    fun hpath hpre htrace hshared hxk hbark hy hev => hes.completesIn_of_barrier hm hrelease hscope
      hpath hpre htrace hshared hxk hbark hy hev⟩
  · rw [← hes.after m b' hb' hkind', hm]
    simp [Edit.after]
  · simp only [List.mem_append, List.mem_cons] at he' ⊢
    exact he'.imp id .inr

theorem barrier_completes_handOver : ∃ w, handOver.Orderly ∧ handOver.solve false = .ok w
    ∧ (handOver.withNodes w.nodes).Path ([2] ++ 1 :: [0])
    ∧ (handOver.withNodes w.nodes).trace ([2] ++ 1 :: [0]) = [] ++ publish :: ([] ++ ([dataWait]
      ++ exchange :: [flagWait, Sample.bufferLoad (.vgpr 3) (.vgpr 0)]))
    ∧ publish.CompletesIn { config := handOver.config, drainAll := false } .vmemStore
      ([] ++ [dataWait]) := by
  obtain ⟨w, hw, heq⟩ := solve_handOver
  have hpath : (handOver.withNodes w.nodes).Path ([2] ++ 1 :: [0]) := heq ▸ path_handedOver
  have htrace : (handOver.withNodes w.nodes).trace ([2] ++ 1 :: [0]) = [] ++ publish :: ([]
      ++ ([dataWait] ++ exchange :: [flagWait, Sample.bufferLoad (.vgpr 3) (.vgpr 0)])) := heq ▸ rfl
  have hempty : (handOver.withNodes w.nodes).blocks[1]? = some (Sample.block 1 ∅ [0] 0 []) := heq ▸ rfl
  have hbarrier : (Sample.block 1 ∅ [0] 0 [releaseBarrier]).instructions
      = [] ++ releaseBarrier :: [] := rfl
  obtain ⟨before, behind, -, -, hcode, -, hcompletes⟩ := barrier_completes orderly_handOver hw (m := 1)
    rfl hempty (by decide) (by decide) hbarrier (by decide) (by decide) (by decide)
  have hpre : (handOver.withNodes w.nodes).trace [0] ++ before.flatMap Edit.after
      = [] ++ publish :: [] := by
    rw [(List.append_eq_nil_iff.1 hcode.symm).1, heq]
    rfl
  exact ⟨w, orderly_handOver, hw, hpath, htrace, hcompletes (k := .buffer) hpath hpre htrace
    (by decide) (by decide) (by decide) (.inl ⟨by decide, by decide, by decide⟩)
    List.mem_cons_self⟩

/-! ### Barriers in loops -/

/-- A barrier and an addition to a flag at the head of a loop, and a store in its body. -/
def fencedLoopCode (fence : List Instruction) : Program where
  config := { workgroupSize := 256 }
  blocks := [
    Sample.block 0 {.topLevel} [] 0 [],
    Sample.block 1 {.loopHeader} [0, 2] 1 (fence ++ [addFlag [] {.atomic}]),
    Sample.block 2 ∅ [1] 1 [publish],
    Sample.block 3 {.loopExit} [1] 0 [Sample.endProgram]]

def fencedLoop : Program := fencedLoopCode [releaseBarrier]

/-- Inside of a loop a barrier may be lost.  The code that the pass makes of the loop has no waits at all,
and so the store is not complete when the flag is raised in the next round. -/
theorem barrier_lost_fencedLoop : fencedLoop.Orderly ∧ ∃ w, fencedLoop.solve false = .ok w
    ∧ (fencedLoop.withNodes w.nodes).Path [1, 2, 1, 0]
    ∧ fencedLoop.trace [1, 2, 1, 0]
      = [releaseBarrier, addFlag [] {.atomic}, publish, releaseBarrier, addFlag [] {.atomic}]
    ∧ (fencedLoop.withNodes w.nodes).trace [1, 2, 1, 0]
      = [addFlag [] {.atomic}] ++ publish :: ([] ++ addFlag [] {.atomic} :: [])
    ∧ ¬publish.CompletesIn { config := fencedLoop.config, drainAll := false } .vmemStore [] := by
  have hsolve : ∃ w, fencedLoop.solve false = .ok w
      ∧ fencedLoop.withNodes w.nodes = fencedLoopCode [] := exists_solve 20 (by decide +kernel)
  obtain ⟨w, hw, heq⟩ := hsolve
  refine ⟨⟨by decide +kernel, by decide +kernel, by decide +kernel, by decide +kernel, by decide⟩, w,
    hw, ?_, rfl, by rw [heq]; rfl, ?_⟩
  · rw [heq]
    exact .next (.next (.next (.entry rfl (by decide)) ⟨_, rfl, by decide, 0, by decide, rfl⟩)
      ⟨_, rfl, by decide, 1, by decide, rfl⟩) ⟨_, rfl, by decide, 2, by decide, rfl⟩
  · rintro ⟨before, wait, behind, counter, hcode, -⟩
    simp at hcode

end Program

end GpuWaits
