/-
# The sweep comes to rest

When the sweep is over, nothing is left to take in: joining the ends of its predecessors into the
context at the entry of a block changes nothing, and this context is the very one in which the block
was rewritten last (`Program.atRest_of_solve`).

The sweep keeps no record of its rewrites, so the statement brings one along: a `Sweep.History` is the
run of the sweep together with the list of the rewrites that its steps make.
-/
import GpuWaits.Proofs.Accepted
import GpuWaits.Proofs.Exact

namespace GpuWaits

/-- One rewrite of a block. -/
structure Rewrite where
  place : Nat
  /-- The block as it was. -/
  source : Block
  /-- The context in which it was rewritten. -/
  entry : Context
  /-- What has become of the block. -/
  block : Block
  exit : Context

namespace Sweep

variable {s : Setting} {w w' : Sweep} {place n : Nat} {node : Node} {log : List Rewrite}

/-- The rewrite that a visit makes, if it makes one. -/
def visitRewrite? (s : Setting) (nodes : List Node) (place : Nat) (node : Node) : Option Rewrite :=
  match joinEdges nodes node.block.edges node.entry with
  | .error _ => none
  | .ok (entry, grew) =>
    if node.done && !grew then none
    else match node.block.insertWaits s entry with
      | .error _ => none
      | .ok (block, exit) => some { place, source := node.block, entry, block, exit }

/-- The rewrite that a step makes, if it makes one: a block is not visited where lanes jump to it, nor
where the sweep goes back to the header of the loop that the block leaves. -/
def stepRewrite? (s : Setting) (w : Sweep) (place : Nat) (node : Node) : Option Rewrite :=
  let kind := node.block.kind
  if .discardEarlyExit ∈ kind then none
  else if .loopHeader ∉ kind ∧ .loopExit ∈ kind ∧ w.progress = w.headers.length then none
  else visitRewrite? s w.nodes place node

/-- The steps of the sweep from `first` on lead to `w` and have made the rewrites `log`, the last one
first. -/
inductive History (s : Setting) (first : Sweep) : List Rewrite → Sweep → Prop where
  | start : History s first [] first
  | step {log : List Rewrite} {w w' : Sweep} {node : Node} : History s first log w →
    w.nodes[w.next]? = some node → w.step s w.next node = .ok w' →
    History s first ((w.stepRewrite? s w.next node).toList ++ log) w'

/-- The last rewrite of the block at a place. -/
def lastRewrite? (log : List Rewrite) (place : Nat) : Option Rewrite :=
  log.find? fun r => r.place == place

/-! ### The rewrites of a step -/

lemma visit_rewrite (h : w.visit s place node = .ok w') :
    ∃ entry grew, joinEdges w.nodes node.block.edges node.entry = .ok (entry, grew)
      ∧ (visitRewrite? s w.nodes place node = none ∧ grew = false
          ∧ w'.nodes = w.nodes.set place { node with entry }
        ∨ ∃ block exit, node.block.insertWaits s entry = .ok (block, exit)
          ∧ visitRewrite? s w.nodes place node
            = some { place, source := node.block, entry, block, exit }
          ∧ w'.nodes = w.nodes.set place { block, entry, exit, done := true }) := by
  simp only [visit, bind_eq_ok, Prod.exists] at h
  obtain ⟨entry, grew, hjoin, h⟩ := h
  refine ⟨entry, grew, hjoin, ?_⟩
  simp only [visitRewrite?, hjoin]
  split at h
  · rename_i hquiet
    cases h
    exact .inl ⟨if_pos hquiet, by simpa using (Bool.and_eq_true_iff.1 hquiet).2, rfl⟩
  · rename_i hactive
    simp only [bind_eq_ok, Prod.exists, pure_eq_ok] at h
    obtain ⟨block, exit, hrewrite, rfl⟩ := h
    exact .inr ⟨block, exit, hrewrite, by rw [if_neg hactive, hrewrite], rfl⟩

/-- A step leaves the blocks alone or visits one. -/
lemma step_rewrite (h : w.step s place node = .ok w') :
    w.stepRewrite? s place node = none ∧ w'.nodes = w.nodes
      ∨ .discardEarlyExit ∉ node.block.kind ∧ ∃ v : Sweep, v.nodes = w.nodes
        ∧ v.visit s place node = .ok w'
        ∧ w.stepRewrite? s place node = visitRewrite? s w.nodes place node := by
  rcases step_cases h with ⟨hskip, rfl⟩ | ⟨hkind, ⟨hheader, h⟩ | ⟨hheader, h⟩⟩
  · exact .inl ⟨by simp [stepRewrite?, hskip], rfl⟩
  · exact .inr ⟨hkind, { w with headers := place :: w.headers }, rfl, h,
      by simp [stepRewrite?, hkind, hheader]⟩
  rcases h with ⟨hexit, h⟩ | ⟨hexit, header, headers, hheaders, ⟨hback, rfl⟩ | ⟨hleave, h⟩⟩
  · exact .inr ⟨hkind, w, rfl, h, by simp [stepRewrite?, hkind, hexit]⟩
  · exact .inl ⟨by simp [stepRewrite?, hexit, hheader, hheaders, hback], rfl⟩
  · exact .inr ⟨hkind, { w with headers, progress := min w.progress headers.length }, rfl, h,
      by simp [stepRewrite?, hkind, hheaders, hleave]⟩

/-! ### The record and the nodes -/

/-- The node shows the last rewrite of its block. -/
def Shows (s : Setting) (log : List Rewrite) (n : Nat) (node : Node) : Prop :=
  ∃ r, lastRewrite? log n = some r ∧ r.entry = node.entry ∧ r.block = node.block
    ∧ r.exit = node.exit ∧ r.source.insertWaits s r.entry = .ok (r.block, r.exit)

/-- Nothing is left to do: joining the ends of its predecessors into the entry of a block reports no
change and makes none, and the last rewrite of the block was made in this entry and gave the block and
the context at its end. -/
structure AtRest (s : Setting) (log : List Rewrite) (w : Sweep) : Prop where
  ended : w.nodes[w.next]? = none
  quiet : ∀ (n : Nat) (node : Node), w.nodes[n]? = some node →
    .discardEarlyExit ∉ node.block.kind →
      joinEdges w.nodes node.block.edges node.entry = .ok (node.entry, false)
  last : ∀ (n : Nat) (node : Node), w.nodes[n]? = some node →
    .discardEarlyExit ∉ node.block.kind → Shows s log n node

/-- A step keeps the nodes as the record says, if contexts that agree are equal. -/
lemma shows_step (hn : w.nodes[w.next]? = some node)
    (h : w.step s w.next node = .ok w')
    (hexact : ∀ entry grew, joinEdges w.nodes node.block.edges node.entry = .ok (entry, grew) →
      entry.Agrees node.entry → entry = node.entry)
    (hlog : ∀ n node, w.nodes[n]? = some node → node.done = true → Shows s log n node) :
    ∀ n node', w'.nodes[n]? = some node' → node'.done = true →
      Shows s ((w.stepRewrite? s w.next node).toList ++ log) n node' := by
  intro n node' hn' hdone
  rcases step_rewrite h with ⟨hnone, hnodes⟩ | ⟨-, v, hnodes, hvisit, hsome⟩
  · rw [hnone]
    rw [hnodes] at hn'
    exact hlog n node' hn' hdone
  · obtain ⟨entry, grew, hjoin, ⟨hnone, rfl, hset⟩ | ⟨block, exit, hrewrite, hnew, hset⟩⟩ :=
      visit_rewrite hvisit
    · -- A quiet visit gives the entry back, so that the node stays as it is.
      rw [hnodes] at hjoin hnone hset
      rw [hsome, hnone]
      have hentry := hexact entry false hjoin (joinEdges_agrees hjoin)
      have hsame : w'.nodes = w.nodes := by
        rw [hset, hentry]
        apply List.ext_getElem?
        intro m
        rw [getElem?_visit rfl hn]
        split
        · rename_i hm
          rw [hm, hn]
        · rfl
      rw [hsame] at hn'
      exact hlog n node' hn' hdone
    · rw [hnodes] at hnew hset
      rw [hsome, hnew]
      rw [getElem?_visit hset hn] at hn'
      split at hn'
      · rename_i heq
        subst heq
        cases hn'
        exact ⟨{ place := w.next, source := node.block, entry, block, exit }, by simp [lastRewrite?],
          rfl, rfl, rfl, hrewrite⟩
      · rename_i hne
        obtain ⟨r, hr, hrest⟩ := hlog n node' hn' hdone
        exact ⟨r, by simpa [lastRewrite?, Ne.symm hne] using hr, hrest⟩

/-- What is absorbed along every edge gives the context back. -/
lemma joinEdges_eq_self {nodes : List Node} {edges : List (Nat × Context.Edge)} {c : Context}
    (hc : c.Exact) (hexits : ∀ node ∈ nodes, node.exit.Exact)
    (h : ∀ e ∈ edges, ∃ pred, nodes[e.1]? = some pred ∧ c.Absorbs pred.exit e.2) :
    joinEdges nodes edges c = .ok (c, false) := by
  induction edges with
  | nil => rfl
  | cons e rest ih =>
    obtain ⟨pred, hpred, habs⟩ := h e (by simp)
    have hexact : (c.join pred.exit e.2).Exact :=
      hc.join (hexits pred (List.mem_of_getElem? hpred)) e.2
    have hjoin : c.join pred.exit e.2 = c := (Context.agrees_join habs).eq hexact hc
    have hrest := ih fun e' he' => h e' (List.mem_cons_of_mem _ he')
    refine joinEdges_cons.2 ⟨pred, false, hpred, by rw [hjoin]; exact hrest, ?_⟩
    rw [Context.grows_eq_false_iff.2 habs]
    rfl

end Sweep

/-! ### The result -/

lemma Instruction.IsInserted.named {i : Instruction} {s : Setting} (h : i.IsInserted s) :
    i.sync.storage.Named := by
  rcases h with ⟨w, rfl⟩ | ⟨w, rfl⟩ | ⟨-, rfl⟩ <;> exact StorageSet.named_empty

namespace Program

variable {p : Program} {s : Setting}

/-- Every access of the program names storage classes that exist. -/
def NamesStorage (p : Program) : Prop :=
  ∀ b ∈ p.blocks, ∀ i ∈ b.instructions, i.sync.storage.Named

lemma exact_startContext {c : Context} (h : p.startContext s = .ok c) : c.Exact := by
  refine foldlM_invariant Context.Exact (fun range _ c c' hc h => ?_) ?_ h
  · simp only [bind_eq_ok] at h
    obtain ⟨c₁, hissue, htrack⟩ := h
    exact (hc.issue StorageSet.named_empty hissue).track htrack
  · split
    · exact Context.exact_empty.recordEvent _ (by decide) _
    · exact Context.exact_empty

/-- Joins and rewrites keep contexts exact, and rewrites name no new storage. -/
lemma keeps_exact (hnamed : p.NamesStorage) {start : Context} (hstart : start.Exact) :
    Sweep.Keeps s p start Context.Exact
      (fun _ b => ∀ i ∈ b.instructions, i.sync.storage.Named) where
  empty := Context.exact_empty
  start := hstart
  join edge hc ho := hc.join ho edge
  original hb := hnamed _ (List.mem_of_getElem? hb)
  rewrite hb hc hr := by
    refine ⟨fun i hi => ?_, (Context.kept_exact s).insertWaits hb hr hc⟩
    rcases Block.mem_or_mem_of_insertWaits hr hi with hin | ⟨j, hj, htakes⟩
    · exact hin.named
    · rcases htakes with rfl | ⟨n, m, hn, -, rfl⟩
      · exact hb i hj
      · exact StorageSet.named_empty

/-- When the sweep is over it is at rest. -/
theorem atRest_of_solve {drainAll : Bool} {w : Sweep} (hvalid : p.validate = .ok ())
    (hnamed : p.NamesStorage) (hloops : p.LoopsNest) (h : p.solve drainAll = .ok w) :
    ∃ nodes log, p.nodes { config := p.config, drainAll } = .ok nodes
      ∧ Sweep.History { config := p.config, drainAll } { nodes } log w
      ∧ w.AtRest { config := p.config, drainAll } log := by
  have hv := valid_of_validate hvalid
  simp only [solve, bind_eq_ok] at h
  obtain ⟨nodes, hnodes, h⟩ := h
  obtain ⟨start, hstarts, hstart⟩ : ∃ start, p.StartsIn { config := p.config, drainAll } start
      ∧ start.Exact := by
    cases hb : p.blocks with
    | nil => exact ⟨{}, fun hne => absurd hb hne, Context.exact_empty⟩
    | cons first rest =>
      simp only [Program.nodes, hb, bind_eq_ok] at hnodes
      obtain ⟨start, hstart, -⟩ := hnodes
      exact ⟨start, fun _ => hstart, exact_startContext hstart⟩
  have hk := keeps_exact (s := { config := p.config, drainAll }) hnamed hstart
  obtain ⟨nodes', hnodes', hlength, hinit⟩ := nodes_eq_ok hstarts
  rw [hnodes] at hnodes'
  cases hnodes'
  -- The record grows along with the sweep.
  obtain ⟨⟨hinv, log, hlog, hshows⟩, hend⟩ := Sweep.run_invariant
    (fun w => Sweep.Inv { config := p.config, drainAll } p start Context.Exact _ w w.next
      ∧ ∃ log, Sweep.History { config := p.config, drainAll } { nodes } log w
        ∧ ∀ n node, w.nodes[n]? = some node → node.done = true →
          Sweep.Shows { config := p.config, drainAll } log n node)
    (fun {w w' node} hw hn hs => by
      obtain ⟨hinv, log, hlog, hshows⟩ := hw
      obtain ⟨b, hb⟩ := hinv.block_at hn
      have hentry := (hinv.traced _ b node hb hn).entry
      exact ⟨hinv.step hk hv hloops.entered hn hs, _, hlog.step hn hs,
        Sweep.shows_step hn hs (fun entry grew hjoin hagrees =>
          hagrees.eq (Sweep.joinEdges_keeps hk hinv.exits hentry hjoin) hentry) hshows⟩)
    ⟨Sweep.inv_start hk hinit hlength, [], .start, fun n node hn hdone => by
      obtain ⟨b, -, rfl⟩ := hinit n node hn
      cases hdone⟩ h
  have hnext : w.next = p.blocks.length :=
    Nat.le_antisymm hinv.next (hinv.length ▸ List.getElem?_eq_none_iff.1 hend)
  have hlt : ∀ {n : Nat} {node : Node}, w.nodes[n]? = some node → n < w.next := by
    intro n node hn
    rw [hnext, ← hinv.length]
    exact (List.getElem?_eq_some_iff.1 hn).1
  refine ⟨nodes, log, hnodes, hlog, hend, fun n node hn hkind => ?_, fun n node hn hkind =>
    hshows n node hn (hinv.done n node (hlt hn) hn hkind)⟩
  obtain ⟨b, hb⟩ := hinv.block_at hn
  refine Sweep.joinEdges_eq_self (hinv.traced _ b node hb hn).entry hinv.exits fun e he => ?_
  -- No loop is open at the end.
  have hapart := hloops.not_apart hb ((hinv.traced _ b node hb hn).frame.edges ▸ he)
  refine (hinv.absorbed n node (hlt hn) hn hkind e he hapart).resolve_right ?_
  rintro ⟨_, hopen, -⟩
  rw [hnext, hv.closed] at hopen
  cases hopen

/-- The sweep over an admissible program comes to its end. -/
lemma Admissible.solve_total {p : Program} (h : p.Admissible) : ∃ w, p.solve false = .ok w := by
  have hv := valid_of_validate h.valid
  obtain ⟨start, hstart, hsound⟩ := startContext_total (s := Checker.setting p) hv
  exact Program.solve_total (s := Checker.setting p) rfl hv h.loops (fun _ => hstart) (h.keeps hsound)
    fun hb hc => Block.insertWaits_total hc fun i hi => (hb.regular i hi).workable

theorem atRest_loadLoop : loadLoop.validate = .ok () ∧ loadLoop.NamesStorage ∧ loadLoop.LoopsNest
    ∧ ∃ w, loadLoop.solve false = .ok w
      ∧ ∃ nodes log, loadLoop.nodes { config := loadLoop.config, drainAll := false } = .ok nodes
        ∧ Sweep.History { config := loadLoop.config, drainAll := false } { nodes } log w
        ∧ w.AtRest { config := loadLoop.config, drainAll := false } log := by
  have hnamed : loadLoop.NamesStorage := by
    rw [NamesStorage]
    decide +kernel
  obtain ⟨w, hw⟩ := admissible_loadLoop.solve_total
  exact ⟨admissible_loadLoop.valid, hnamed, admissible_loadLoop.loops, w, hw,
    atRest_of_solve admissible_loadLoop.valid hnamed admissible_loadLoop.loops hw⟩

end Program

end GpuWaits
