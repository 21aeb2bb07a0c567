/-
# The registers are released last

From generation 11 on a program may send a message that releases its vector registers, so that other
waves can start while its last stores complete.  The message is put in front of the end of the program
and nowhere else, and messages that stand in the program are taken out (`ReleasesLast.step`).  Where the
message issues, nothing that a follower keeps in sight is outstanding.

This is a fact about the code that has been executed so far, so it is carried along the paths of the
rewritten program together with the code (`Follower.releasesLast`).
-/
import GpuWaits.Proofs.Outstanding

namespace GpuWaits

/-- The next instruction of the code that is no wait ends the program. -/
def EndsNext (code : List Instruction) : Prop :=
  ∃ waits last rest, code = waits ++ last :: rest ∧ (∀ i ∈ waits, i.isWait = true)
    ∧ last.isWait = false ∧ last.opcode = .sEndpgm

namespace Follower

variable {s : Setting} (F : Follower s)

/-- Where the registers are released, nothing is outstanding, and the program ends next. -/
def ReleasesLast (t : List Instruction) : Prop :=
  ∀ front m back, t = front ++ m :: back → m.isRegisterRelease s = true →
    (∀ o, ¬Outstanding s F.Starts front o) ∧ EndsNext back

variable {F} {t out : List Instruction} {i : Instruction} {w w' : Walk}

/-- Code that follows has no say in what was outstanding before. -/
lemma ReleasesLast.append (h : F.ReleasesLast t)
    (hout : ∀ front m back, out = front ++ m :: back → m.isRegisterRelease s = true →
      (∀ o, ¬Outstanding s F.Starts (t ++ front) o) ∧ EndsNext back) :
    F.ReleasesLast (t ++ out) := by
  intro front m back heq hm
  rcases List.append_eq_append_iff.1 heq with ⟨front', rfl, hcut⟩ | ⟨between, ht, hcut⟩
  · exact hout front' m back hcut hm
  · cases between with
    | nil =>
      rw [List.append_nil] at ht
      have hnew := hout [] m back hcut.symm hm
      rwa [List.append_nil, ht] at hnew
    | cons j between =>
      rw [List.cons_append] at hcut
      obtain ⟨rfl, rfl⟩ := List.cons.inj hcut
      obtain ⟨hnone, waits, last, rest, hends, hlast⟩ := h front m between ht hm
      refine ⟨hnone, waits, last, rest ++ out, ?_, hlast⟩
      rw [hends, List.append_assoc]
      rfl

lemma ReleasesLast.append_of_forall (h : F.ReleasesLast t)
    (hout : ∀ j ∈ out, j.isRegisterRelease s = false) : F.ReleasesLast (t ++ out) := by
  refine h.append fun front m back heq hm => ?_
  have hnot := hout m (heq ▸ List.mem_append_right _ List.mem_cons_self)
  rw [hm] at hnot
  cases hnot

/-- The instructions of a queue release nothing. -/
lemma isRegisterRelease_of_mem {q : Queue} {j : Instruction} (hj : j ∈ q.instructions) :
    j.isRegisterRelease s = false := by
  rw [Bool.eq_false_iff]
  intro hm
  have hwait := Queue.isWait_of_mem hj
  rw [Instruction.not_isWait_of_isRegisterRelease hm] at hwait
  cases hwait

/-- An interpolation that takes a wait over becomes neither a message nor a wait. -/
lemma directive_of_takesOver {kept : Instruction} (htakes : i.TakesOver kept) :
    kept.opcode = i.opcode ∧ kept.isWait = i.isWait
      ∧ kept.isRegisterRelease s = i.isRegisterRelease s := by
  rcases htakes with rfl | ⟨n, m, hn, -, rfl⟩
  · exact ⟨rfl, rfl, rfl⟩
  · refine ⟨rfl, ?_, ?_⟩
    · simp [Instruction.isWait, hn]
    · simp [Instruction.isRegisterRelease, Instruction.immediate?, hn]

/-- What is outstanding behind a wait, the wait has not completed. -/
lemma Outstanding.of_wait {Starts : Instruction → Operation → Prop} {v : Wait} {o : Operation}
    (hstarts : ∀ o, ¬Starts (.ofWait v) o)
    (h : Outstanding s Starts (t ++ Queue.instructions { wait := v }) o) :
    ∃ o', Outstanding s Starts t o' ∧ o'.isComplete v = false := by
  have hcode : Queue.instructions { wait := v } = if v.isNone then [] else [.ofWait v] :=
    List.append_nil _
  rw [hcode] at h
  split at h
  · rename_i hnone
    rw [List.append_nil] at h
    refine ⟨o, h, ?_⟩
    rw [Wait.isNone_iff.1 hnone, Operation.isComplete_none]
  · rcases h.append_singleton with ⟨o', ho', hrun⟩ | hnew
    · exact ⟨o', ho', (Operation.run?_singleton.1 hrun).1⟩
    · exact absurd hnew (hstarts o)

/-- What a step puts out has no message, or the one message that releases the registers: then nothing is
outstanding in front of it, since the wait for the scratch memory has been carried out. -/
lemma ReleasesLast.step {rest : List Instruction} (hstep : Walk.step s i rest w = .ok (out, w'))
    (hi : i.isCoherent = true) (hagrees : F.Agrees w.context t w.queue.wait)
    (h : F.ReleasesLast t) : F.ReleasesLast (t ++ out) := by
  rcases Walk.step_cases hstep with ⟨-, rfl, -⟩ | ⟨hmsg, c₁, q₁, c₂, q₂, c₃, hawait, hclause, -,
    ⟨hremoved, hout, -⟩ | ⟨hkept, released, q₃, hrelease, rfl, -⟩⟩
  · exact h.append_of_forall (by simp)
  · rw [if_neg (Instruction.opcode_ne_endpgm_of_removed hi hremoved)] at hout
    exact h.append_of_forall (by simp [hout])
  obtain ⟨hopcode, hwait, hsame⟩ := directive_of_takesOver (s := s) (Walk.absorb_spec i q₃).1
  have htail : ∀ j ∈ (Walk.absorb i q₃).2.instructions ++ [(Walk.absorb i q₃).1],
      j.isRegisterRelease s = false := by
    intro j hj
    rcases List.mem_append.1 hj with hj | hj
    · exact isRegisterRelease_of_mem hj
    · rw [List.mem_singleton.1 hj, hsame, hmsg]
  rw [List.append_assoc]
  by_cases hend : i.opcode = .sEndpgm ∧ Walk.releasesRegisters s c₂ q₂ = true
  · obtain ⟨hend, hreleases⟩ := hend
    rw [if_pos hend, Walk.release, if_pos hreleases] at hrelease
    cases hrelease
    have hx₂ : F.Agrees c₂ t q₂.wait := View.rel_awaitedAll (V := F.view) hclause
      (View.rel_awaited (V := F.view) hawait
        (F.view.defer i (F.view.rel_mono (Wait.both_le_left _ _) hagrees)))
    rw [List.append_assoc, List.singleton_append]
    refine h.append fun front m back heq hm => ?_
    -- There is one message only, so this is it.
    obtain ⟨hfront, -, hback⟩ := (List.append_cons_inj_of_notMem
      (fun hmem => by rw [isRegisterRelease_of_mem hmem] at hm; cases hm)
      (fun hmem => by rw [htail m hmem] at hm; cases hm)).1 heq
    subst hfront hback
    refine ⟨fun o ho => ?_, _, _, [], rfl, fun j hj => Queue.isWait_of_mem hj,
      hwait.trans (Bool.or_eq_false_iff.1 hkept).2, hopcode.trans hend⟩
    obtain ⟨o', ho', hnot⟩ := Outstanding.of_wait (fun o => F.inserted (.inl ⟨_, rfl⟩)) ho
    have hnot' := Operation.not_isComplete_of_le (Wait.both_le_right _ _) hnot
    rw [F.released hreleases (hx₂.knows o' ho' hnot')] at hnot
    cases hnot
  · have hnone : released = [] := by
      split at hrelease
      · rw [Walk.release, if_neg fun hr => hend ⟨‹_›, hr⟩] at hrelease
        cases hrelease
        rfl
      · cases hrelease
        rfl
    rw [hnone, List.nil_append]
    exact h.append_of_forall htail

/-- A whole walk. -/
lemma ReleasesLast.steps {is : List Instruction} (hsteps : Walk.steps s is w = .ok (out, w'))
    (his : ∀ i ∈ is, i.isCoherent = true) (hagrees : F.Agrees w.context t w.queue.wait)
    (h : F.ReleasesLast t) :
    F.ReleasesLast (t ++ out) ∧ F.Agrees w'.context (t ++ out) w'.queue.wait := by
  induction is generalizing out w t with
  | nil =>
    cases hsteps
    rw [List.append_nil]
    exact ⟨h, hagrees⟩
  | cons i rest ih =>
    obtain ⟨emitted, w₁, later, hstep, hrest, rfl⟩ := Walk.steps_cons hsteps
    have hi := his i List.mem_cons_self
    obtain ⟨es, t₁, -, hafter, -, hruns, hagrees₁⟩ := F.view.step hstep hi hagrees
    obtain rfl := eq_of_runs hruns
    rw [hafter] at hagrees₁
    rw [← List.append_assoc]
    exact ih hrest (fun j hj => his j (List.mem_cons_of_mem _ hj)) hagrees₁ (h.step hstep hi hagrees)

/-- The code of a block, from its entry to its end. -/
theorem ReleasesLast.insertWaits {b b' : Block} {c c' : Context}
    (hinsert : b.insertWaits s c = .ok (b', c'))
    (hb : ∀ i ∈ b.instructions, i.isCoherent = true) (hagrees : F.Agrees c t .none)
    (h : F.ReleasesLast t) :
    F.ReleasesLast (t ++ b'.instructions) ∧ F.Agrees c' (t ++ b'.instructions) .none := by
  obtain ⟨es, t', -, hafter, -, hruns, hagrees', -⟩ := F.view.insertWaits hinsert hb hagrees
  obtain rfl := eq_of_runs hruns
  rw [hafter] at hagrees'
  refine ⟨?_, hagrees'⟩
  obtain ⟨code, w, hsteps, rfl, -⟩ := Block.insertWaits_eq_ok.1 hinsert
  dsimp only
  rw [← List.append_assoc]
  exact (h.steps hsteps hb hagrees).1.append_of_forall fun j hj => isRegisterRelease_of_mem hj

end Follower

/-! ### Along the paths of a program -/

/-- Where all edges carry lanes, every edge comes in twice: once with the entries and once with the
demands. -/
lemma Block.mem_edges_of_logical {b : Block} (hpreds : b.logicalPreds = b.linearPreds) {pred : UInt32}
    (hpred : pred ∈ b.linearPreds) (logical : Bool) :
    (pred.toNat, (⟨logical, false⟩ : Context.Edge)) ∈ b.edges := by
  have hmerges : b.mergesLanes = false := by
    simp [mergesLanes, hpreds]
  rw [edges, hmerges, List.mem_append]
  cases logical with
  | false => exact .inl (List.mem_map.2 ⟨pred, hpred, rfl⟩)
  | true => exact .inr (List.mem_map.2 ⟨pred, hpreds ▸ hpred, rfl⟩)

namespace Program

variable {p : Program} {drainAll : Bool} {path : List Nat}

section

variable {s : Setting} {F : Follower s} {start : Context} {nodes : List Node} {n : Nat}
  {t : List Instruction}

/-- The program is coherent where the sweep has come to rest. -/
abbrev Rests (p : Program) (s : Setting) (start : Context) (nodes : List Node) : Prop :=
  Settled s p start (·.Sound s.generation) (fun _ b => ∀ i ∈ b.instructions, i.isCoherent = true) nodes

/-- At the entry of the block at the place `n` the registers have been released properly so far, and the
context shows what is outstanding. -/
structure EntersWell (p : Program) (F : Follower s) (start : Context) (nodes : List Node) (n : Nat)
    (t : List Instruction) : Prop where
  released : F.ReleasesLast t
  agrees : ∀ {b : Block} {node : Node} {b₀ : Block} {c₀ : Context}, p.blocks[n]? = some b →
    Rewritten s p start (·.Sound s.generation)
      (fun _ b => ∀ i ∈ b.instructions, i.isCoherent = true) nodes n b node b₀ c₀ →
    F.Agrees c₀ t .none

lemma EntersWell.block (h : p.EntersWell F start nodes n t) (hset : p.Rests s start nodes)
    {b' : Block} (hb' : (p.withNodes nodes).blocks[n]? = some b')
    (hkind : .discardEarlyExit ∉ b'.kind) :
    F.ReleasesLast (t ++ b'.instructions)
      ∧ ∃ node, nodes[n]? = some node ∧ F.Agrees node.exit (t ++ b'.instructions) .none := by
  obtain ⟨b, node, hb, hnode, rfl, hframe⟩ := hset.block_at hb'
  obtain ⟨b₀, c₀, hr⟩ := hset.rewritten n b node hb hnode (hframe.kind ▸ hkind)
  obtain ⟨hlast, hagrees⟩ := h.released.insertWaits hr.result hr.block (h.agrees hb hr)
  exact ⟨hlast, node, hnode, hagrees⟩

/-- On every path of the rewritten program the registers are released last. -/
theorem releasesLast_trace (hset : p.Rests s start nodes)
    (hpreds : ∀ b ∈ p.blocks, b.logicalPreds = b.linearPreds)
    (hpath : (p.withNodes nodes).Path (n :: path)) :
    F.ReleasesLast ((p.withNodes nodes).trace (n :: path)) := by
  have hfirst : p.EntersWell F start nodes 0 [] :=
    ⟨fun front m back heq => by simp at heq, fun _ hr => Follower.agrees_nil hr.context _⟩
  have henters : p.EntersWell F start nodes n ((p.withNodes nodes).trace path) := by
    refine hpath.invariant (p.EntersWell F start nodes) hfirst ?_
    intro n m b' t hb' hkind hnext h
    obtain ⟨hlast, node, hnode, hagrees⟩ := h.block hset hb' hkind
    refine ⟨hlast, fun {b node' b₀ c₀} hb hr => ?_⟩
    obtain ⟨bm, hbm, -, pred, hpred, rfl⟩ := hnext
    obtain ⟨b₁, node₁, hb₁, -, rfl, hframe⟩ := hset.block_at hbm
    cases hb.symm.trans hb₁
    rw [hframe.linearPreds] at hpred
    -- Entries and demands come in along different edges from the same block.
    have habs : ∀ logical, c₀.Absorbs node.exit ⟨logical, false⟩ := by
      intro logical
      obtain ⟨node₂, hnode₂, habs⟩ := hr.absorbs _
        (Block.mem_edges_of_logical (hpreds b (List.mem_of_getElem? hb)) hpred logical)
      cases hnode.symm.trans hnode₂
      exact habs
    exact hagrees.absorbs hr.context (habs false) (habs true)
  obtain ⟨b', hb', hkind⟩ := hpath.block
  have htrace : (p.withNodes nodes).trace (n :: path)
      = (p.withNodes nodes).trace path ++ b'.instructions := by
    change (p.withNodes nodes).trace path ++ ((p.withNodes nodes).blocks[n]?.getD _).instructions = _
    rw [hb']
    rfl
  rw [htrace]
  exact (henters.block hset hb' hkind).1

end

/-- Where the vector registers are released, every access of scratch or spill memory before is complete
and so is every export, and the program ends next. -/
theorem release_completes (hgen : .gfx11 ≤ p.config.generation) (hvalid : p.validate = .ok ())
    (hcoherent : ∀ b ∈ p.blocks, ∀ i ∈ b.instructions, i.isCoherent = true)
    (hpreds : ∀ b ∈ p.blocks, b.logicalPreds = b.linearPreds) (hloops : p.LoopsNest) {w : Sweep}
    (h : p.solve drainAll = .ok w) (hpath : (p.withNodes w.nodes).Path path)
    {front back : List Instruction} {m : Instruction}
    (htrace : (p.withNodes w.nodes).trace path = front ++ m :: back) (hmessage : m.opcode = .sSendmsg)
    (hrelease : m.immediate? = some 3) :
    (∀ before x behind, front = before ++ x :: behind →
        (∀ k ev, k = .scratch ∨ k = .vgprSpill → k ∈ x.sync.storage →
          .issue ev x.sync ∈ x.effects { config := p.config, drainAll } →
          x.CompletesIn { config := p.config, drainAll } ev behind)
        ∧ ∀ data ev sync, x.payload = .exp data →
          .issue ev sync ∈ x.effects { config := p.config, drainAll } →
          x.CompletesIn { config := p.config, drainAll } ev behind)
      ∧ ∃ waits last rest, back = waits ++ last :: rest ∧ (∀ i ∈ waits, i.isWait = true)
        ∧ last.isWait = false ∧ last.opcode = .sEndpgm := by
  obtain ⟨start, -, hset⟩ := settled_of_coherent hvalid hcoherent hloops h
  have hm : m.isRegisterRelease { config := p.config, drainAll } = true := by
    simp [Instruction.isRegisterRelease, hmessage, hrelease, Instruction.releaseMessage, hgen,
      Setting.generation]
  have hgen' : .gfx10 ≤ p.config.generation := Nat.le_trans (by decide) hgen
  obtain ⟨n, path, rfl⟩ : ∃ n rest, path = n :: rest := by
    cases hpath with
    | entry => exact ⟨0, [], rfl⟩
    | next => exact ⟨_, _, rfl⟩
  -- Each follower says what it keeps in sight.
  have hlast : ∀ F : Follower { config := p.config, drainAll },
      (∀ o, ¬Outstanding _ F.Starts front o) ∧ EndsNext back := fun F =>
    releasesLast_trace (F := F) hset hpreds hpath front m back htrace hm
  refine ⟨?_, (hlast (.exports hgen')).2⟩
  rintro before x behind rfl
  refine ⟨fun k ev hk hmem hev => ?_, fun data ev sync hp hev => ?_⟩
  · exact completesIn_of_not_outstanding (hlast (.spills hgen' k hk)).1 hev ⟨ev, hev, hmem, rfl⟩
  · exact completesIn_of_not_outstanding (hlast (.exports hgen')).1 hev
      ⟨data, ev, hp, Instruction.eventOf_of_issue hp hev, rfl⟩

/-- A private store that spills a register. -/
def spillStore : Instruction where
  opcode := .scratchStoreDword
  definitions := []
  operands := [.undef, .reg ⟨.sgpr 4, 1⟩, .reg ⟨.vgpr 1, 1⟩]
  payload := .flat { sync := { storage := {.vgprSpill}, semantics := {.unshared} } }

/-- An export whose data is overwritten, then a loop that spills, and a store at the end.  The arguments
are put in front of the overwriting instruction and in front of the end. -/
def spilledLoopCode (waits ending : List Instruction) : Program where
  config := { generation := .gfx11, numVgprs := 128 }
  blocks := [
    Sample.block 0 {.topLevel} [] 0
      (Sample.exportOne 0 (.vgpr 0) :: waits ++ [Sample.vectorOp (.vgpr 0) [.vgpr 2]]),
    Sample.block 1 {.loopHeader} [0, 1] 1 [spillStore],
    Sample.block 2 {.loopExit} [1] 0
      (Sample.bufferStore (.vgpr 0) (.vgpr 1) :: ending ++ [Sample.endProgram])]

/-- The message that releases the registers. -/
def releaseRegisters : Instruction := .ofImmediate .sSendmsg 3

/-- The program releases its registers without any wait. -/
def spilledLoop : Program := spilledLoopCode [] [releaseRegisters]

/-- The wait for the export. -/
def exportWait : Instruction := .ofWait (.drain {.exp})

/-- The wait that lets the last store go on and nothing else. -/
def spillWait : Instruction := .ofWait (.single .vs 1)

theorem release_completes_spilledLoop : .gfx11 ≤ spilledLoop.config.generation
    ∧ spilledLoop.validate = .ok () ∧ spilledLoop.LoopsNest ∧ ∃ w, spilledLoop.solve false = .ok w
    ∧ (spilledLoop.withNodes w.nodes).Path [2, 1, 1, 0]
    ∧ (spilledLoop.withNodes w.nodes).trace [2, 1, 1, 0] = [Sample.exportOne 0 (.vgpr 0), exportWait,
        Sample.vectorOp (.vgpr 0) [.vgpr 2], spillStore, spillStore,
        Sample.bufferStore (.vgpr 0) (.vgpr 1), spillWait] ++ releaseRegisters :: [Sample.endProgram]
    ∧ spillStore.CompletesIn { config := spilledLoop.config, drainAll := false } .vmemStore
      [Sample.bufferStore (.vgpr 0) (.vgpr 1), spillWait]
    ∧ (Sample.exportOne 0 (.vgpr 0)).CompletesIn { config := spilledLoop.config, drainAll := false }
      .expMrtNull [exportWait, Sample.vectorOp (.vgpr 0) [.vgpr 2], spillStore, spillStore,
        Sample.bufferStore (.vgpr 0) (.vgpr 1), spillWait] := by
  have hsolve : ∃ w, spilledLoop.solve false = .ok w
      ∧ spilledLoop.withNodes w.nodes = spilledLoopCode [exportWait] [spillWait, releaseRegisters] :=
    exists_solve 20 (by decide +kernel)
  obtain ⟨w, hw, heq⟩ := hsolve
  have hpath : (spilledLoop.withNodes w.nodes).Path [2, 1, 1, 0] := by
    rw [heq]
    exact .next (.next (.next (.entry rfl (by decide)) ⟨_, rfl, by decide, 0, by decide, rfl⟩)
      ⟨_, rfl, by decide, 1, by decide, rfl⟩) ⟨_, rfl, by decide, 1, by decide, rfl⟩
  have htrace : (spilledLoop.withNodes w.nodes).trace [2, 1, 1, 0] = [Sample.exportOne 0 (.vgpr 0),
      exportWait, Sample.vectorOp (.vgpr 0) [.vgpr 2], spillStore, spillStore,
      Sample.bufferStore (.vgpr 0) (.vgpr 1), spillWait] ++ releaseRegisters :: [Sample.endProgram] :=
    heq ▸ rfl
  have hvalid : spilledLoop.validate = .ok () := by decide +kernel
  have hloops : spilledLoop.LoopsNest := by decide +kernel
  obtain ⟨hcomplete, -⟩ := release_completes (by decide) hvalid (by decide +kernel)
    (by decide +kernel) hloops hw hpath htrace rfl rfl
  exact ⟨by decide, hvalid, hloops, w, hw, hpath, htrace,
    (hcomplete [_, _, _, _] spillStore _ rfl).1 .vgprSpill _ (.inr rfl) (by decide)
      List.mem_cons_self,
    (hcomplete [] (Sample.exportOne 0 (.vgpr 0)) _ rfl).2 _ _ {} rfl List.mem_cons_self⟩

end Program

end GpuWaits
