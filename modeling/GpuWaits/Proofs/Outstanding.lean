/-
# What is outstanding along the code

An operation that an instruction has started is outstanding until a wait completes it.  The analysis does
not see operations, it sees the demands of deferred barriers and the entries of the registers.  A
`Follower` is a kind of operations and a way to find them in a context; its laws say that the context does
not lose sight of an operation before the operation is complete.  `Follower.view` carries this along the
code that a walk puts out.

Two kinds of operations have to be complete when the vector registers are released: accesses of the
scratch memory, which is released along with the registers, and exports, which still read them.  The
first are found in the demands that releases depend on (`spills`), the others in the entry of the
execution mask, which every export reads (`exports`).
-/
import GpuWaits.Proofs.Ordered

namespace GpuWaits

/-- The operation has been started in the code `t`, and no wait has completed it since. -/
def Outstanding (s : Setting) (Starts : Instruction → Operation → Prop) (t : List Instruction)
    (o : Operation) : Prop :=
  ∃ before x behind o₀, t = before ++ x :: behind ∧ Starts x o₀ ∧ o₀.run? s behind = some o

section

variable {s : Setting} {Starts : Instruction → Operation → Prop} {t : List Instruction}
  {i : Instruction} {o : Operation}

lemma not_outstanding_nil : ¬Outstanding s Starts [] o := by
  rintro ⟨before, x, behind, o₀, ht, -⟩
  simp at ht

/-- What is outstanding behind one more instruction has been so in front of it, or is new. -/
lemma Outstanding.append_singleton (h : Outstanding s Starts (t ++ [i]) o) :
    (∃ o', Outstanding s Starts t o' ∧ o'.run? s [i] = some o) ∨ Starts i o := by
  obtain ⟨before, x, behind, o₀, ht, hx, hrun⟩ := h
  rcases List.eq_nil_or_concat behind with rfl | ⟨between, j, rfl⟩
  · obtain ⟨rfl, hix⟩ := List.append_inj' ht rfl
    cases hix
    cases hrun
    exact .inr hx
  · rw [List.concat_eq_append, ← List.cons_append, ← List.append_assoc] at ht
    obtain ⟨rfl, hij⟩ := List.append_inj' ht rfl
    cases hij
    rw [List.concat_eq_append, Operation.run?_append, Option.bind_eq_some_iff] at hrun
    obtain ⟨o', ho', hrun⟩ := hrun
    exact .inl ⟨o', ⟨before, x, between, o₀, rfl, hx, ho'⟩, hrun⟩

/-- Where nothing is outstanding, all that has been started is complete. -/
lemma completesIn_of_not_outstanding {before behind : List Instruction} {x : Instruction} {ev : Event}
    {sync : Sync} (h : ∀ o, ¬Outstanding s Starts (before ++ x :: behind) o)
    (hev : .issue ev sync ∈ x.effects s) (hstarts : Starts x (.ofEvent s x ev)) :
    x.CompletesIn s ev behind := by
  obtain ⟨counter, hcounter⟩ := Instruction.counter_of_issue hev
  refine Instruction.completesIn_of_run? hcounter ?_
  by_contra hsome
  obtain ⟨o, ho⟩ := Option.ne_none_iff_exists'.1 hsome
  exact h o ⟨before, x, behind, _, rfl, hstarts, ho⟩

end

/-- A kind of operations that contexts keep in sight.  The instruction `i` starts the operation `o` if
`Starts i o` holds, and `Knows c o` says that the context `c` shows it. -/
structure Follower (s : Setting) where
  Starts : Instruction → Operation → Prop
  Knows : Context → Operation → Prop
  inserted : ∀ {i : Instruction} {o : Operation}, i.IsInserted s → ¬Starts i o
  takesOver : ∀ {i kept : Instruction} {o : Operation}, i.TakesOver kept → Starts kept o → Starts i o
  issues : ∀ {c : Context} {o : Operation} (inOrder : Event → Bool) (evs : List Event),
    Knows c o → Knows c (o.issues inOrder evs)
  settle : ∀ {c c' : Context} {o : Operation} {w : Wait}, c.Sound s.generation →
    c.settle s.generation w = .ok c' → o.isComplete w = false → Knows c o → Knows c' o
  deferBefore : ∀ {c : Context} {o : Operation} (i : Instruction), Knows c o →
    Knows (c.deferBefore s i) o
  deferAfter : ∀ {c : Context} {o : Operation} (i : Instruction), Knows c o →
    Knows (c.deferAfter s i) o
  start : ∀ {c c' : Context} {i : Instruction} {o : Operation}, c.start s i = .ok c' → Knows c o →
    Knows c' (o.issues (i.inOrder s.generation) (i.raised s))
  new : ∀ {c c' : Context} {i : Instruction} {o : Operation}, c.start s i = .ok c' → Starts i o →
    Knows c' o
  /-- Where all edges carry lanes, a block takes in entries along one edge and demands along the other. -/
  absorbs : ∀ {c c' : Context} {o : Operation}, c.Sound s.generation → c'.Absorbs c ⟨false, false⟩ →
    c'.Absorbs c ⟨true, false⟩ → Knows c o → Knows c' o
  /-- The registers are not released before the operation is complete. -/
  released : ∀ {c : Context} {q : Queue} {o : Operation}, Walk.releasesRegisters s c q = true →
    Knows c o → o.isComplete (Walk.releaseWait c q) = true

namespace Follower

variable {s : Setting} (F : Follower s)

/-- The context shows all that is outstanding once the wait has been carried out. -/
structure Agrees (c : Context) (t : List Instruction) (w : Wait) : Prop where
  sound : c.Sound s.generation
  knows : ∀ o, Outstanding s F.Starts t o → o.isComplete w = false → F.Knows c o

variable {F} {c c' : Context} {t : List Instruction} {i kept : Instruction} {v w : Wait}

lemma agrees_nil (hc : c.Sound s.generation) (w : Wait) : F.Agrees c [] w :=
  ⟨hc, fun _ ho => absurd ho not_outstanding_nil⟩

/-- Instructions that are put in start nothing, and may carry a wait out. -/
lemma Agrees.put (hi : i.IsInserted s) (h : F.Agrees c t ((Checker.ownWait i).both v)) :
    F.Agrees c (t ++ [i]) v := by
  refine ⟨h.sound, fun o ho hnot => ?_⟩
  rcases ho.append_singleton with ⟨o', ho', hrun⟩ | hstarts
  · obtain ⟨hown, rfl⟩ := Operation.run?_singleton.1 hrun
    refine F.issues _ _ (h.knows o' ho' ?_)
    rw [Operation.isComplete_both, hown, Operation.not_isComplete_of_issues hnot, Bool.or_self]
  · exact absurd hstarts (F.inserted hi)

/-- Behind an instruction that stays the context shows what the instruction has started. -/
lemma Agrees.keep (htakes : i.TakesOver kept) (h : F.Agrees c t (Checker.ownWait kept))
    (hstart : c.start s i = .ok c') : F.Agrees (c'.deferAfter s i) (t ++ [kept]) .none := by
  refine ⟨(h.sound.start hstart).deferAfter s i, fun o ho _ => F.deferAfter i ?_⟩
  rcases ho.append_singleton with ⟨o', ho', hrun⟩ | hstarts
  · obtain ⟨hown, rfl⟩ := Operation.run?_singleton.1 hrun
    obtain ⟨-, -, -, hinOrder, hraised, -⟩ := htakes.memory_eq (s := s)
    rw [hinOrder, hraised]
    exact F.start hstart (h.knows o' ho' hown)
  · exact F.new hstart (F.takesOver htakes hstarts)

/-- A block that takes in all that one before it knows. -/
lemma Agrees.absorbs (h : F.Agrees c t w) (hc' : c'.Sound s.generation)
    (hentries : c'.Absorbs c ⟨false, false⟩) (hdemands : c'.Absorbs c ⟨true, false⟩) :
    F.Agrees c' t w :=
  ⟨hc', fun o ho hnot => F.absorbs h.sound hentries hdemands (h.knows o ho hnot)⟩

variable (F)

/-- The code that a walk puts out, and what is outstanding in it. -/
def view : View s (List Instruction) where
  Good i := i.isCoherent = true
  Run e t t' := t' = t ++ e.after
  Rel := F.Agrees
  Ready _ _ _ := True
  coherent h := h
  rel_mono hle h := ⟨h.sound, fun o ho hnot => h.knows o ho (Operation.not_isComplete_of_le hle hnot)⟩
  ready_mono _ h := h
  settle _ hsettle h := ⟨h.sound.settle hsettle, fun o ho hnot =>
    F.settle h.sound hsettle hnot (h.knows o ho hnot)⟩
  defer i h := ⟨h.sound.deferBefore s i, fun o ho hnot => F.deferBefore i (h.knows o ho hnot)⟩
  ready _ _ _ := trivial
  take {i} t _ _ := ⟨_, rfl, fun c w h => by
    rw [Edit.after, List.append_nil]
    exact ⟨h.sound.deferBefore s i, fun o ho hnot => F.deferBefore i (h.knows o ho hnot)⟩⟩
  putWait w t := ⟨_, rfl, fun c v h => Agrees.put (.inl ⟨w, rfl⟩) h, fun _ _ h => h⟩
  putOther := by
    intro j t hj
    have hown : ∀ v, (Checker.ownWait j).both v = v := by
      intro v
      rcases hj with ⟨w, rfl⟩ | ⟨-, rfl⟩ <;> exact Wait.none_both v
    exact ⟨_, rfl, fun c v h => Agrees.put (.inr hj) ((hown v).symm ▸ h), fun _ _ h => h⟩
  keep _ _ htakes h _ hstart := ⟨_, rfl, h.keep htakes hstart⟩

variable {F}

/-- The state of the view is the code. -/
lemma eq_of_runs {es : List Edit} {t' : List Instruction} (h : F.view.Runs es t t') :
    t' = t ++ es.flatMap Edit.after := by
  induction h with
  | nil => simp
  | cons he _ ih =>
    rw [ih, he, List.flatMap_cons, List.append_assoc]

end Follower

/-! ### Accesses of scratch memory -/

/-- From generation 10 on, flat accesses complete in order as well. -/
lemma Instruction.isUnorderedFlat_of_le {g : Generation} (hg : .gfx10 ≤ g) (i : Instruction) :
    i.isUnorderedFlat g = false := by
  have hnot : ¬g < .gfx10 := by
    intro hlt
    exact absurd hg (Nat.not_le.2 hlt)
  simp [isUnorderedFlat, hnot]

namespace Follower

variable {s : Setting}

/-- The accesses of scratch or spill memory.  Even the private ones are asked for by the demands that
releases depend on. -/
def spills (hgen : .gfx10 ≤ s.generation) (k : Storage) (hk : k = .scratch ∨ k = .vgprSpill) :
    Follower s where
  Starts i o := ∃ ev, .issue ev i.sync ∈ i.effects s ∧ k ∈ i.sync.storage ∧ o = .ofEvent s i ev
  Knows c o := c.Asks s.generation (fun _ => False) ⟨.releaseDependency, k, .invocation, o⟩
  inserted := by
    rintro i o hi ⟨ev, -, hmem, -⟩
    exact Instruction.not_isInserted_of_mem_storage hmem hi
  takesOver := by
    rintro i kept o htakes ⟨ev, hev, hmem, rfl⟩
    obtain ⟨hsync, heffects, -, hinOrder, -, -⟩ := htakes.memory_eq (s := s)
    rw [hsync] at hev hmem
    exact ⟨ev, heffects ▸ hev, hmem, by rw [Operation.ofEvent, Operation.ofEvent, hinOrder]⟩
  issues inOrder evs h := Context.Asks.issues h inOrder evs
  settle _ hsettle hnot h := Context.Asks.settle h hsettle hnot False.elim False.elim
  deferBefore {c} {_} i h := Demand.Asks.of_grows h (c.deferBefore_grows s i _ _)
  deferAfter {c} {_} i h := Demand.Asks.of_grows h (c.deferAfter_grows s i _ _)
  start := by
    intro c c' i o hstart h
    obtain ⟨st, -, hraised, hissues⟩ := Instruction.started_of_start hstart
    have hflat := i.isUnorderedFlat_of_le hgen
    rw [hraised, ← hissues]
    exact Context.Asks.foldlM h (fun hf => by rw [hflat] at hf; cases hf) hstart
  new := by
    rintro c c' i o hstart ⟨ev, hev, hmem, rfl⟩
    have hflat := i.isUnorderedFlat_of_le hgen
    exact Context.asks_releaseDependency hstart hev (fun hf => by rw [hflat] at hf; cases hf) hmem
      (.inr hk)
  absorbs hc _ hdemands h :=
    Demand.Asks.of_grows h (hdemands.demands rfl .releaseDependency (h.listed hc).2 k)
  released := by
    intro c q o _ h
    have hle : Walk.releaseWait c q ≤ ((c.barrier .releaseDependency).demand k).wait := by
      refine Wait.le_trans (Wait.both_le_left _ _) ?_
      rcases hk with rfl | rfl
      · exact Wait.both_le_left _ _
      · exact Wait.both_le_right _ _
    exact Demand.Asks.isComplete h False.elim (hle _)

end Follower

/-! ### Exports -/

/-- The access of a register stands for the operation. -/
structure Operation.StoodFor (o : Operation) (g : Generation) (a : InFlight) : Prop where
  counter : a.counter = o.counter
  ordered : a.ordered = o.ordered
  younger : a.younger.toNat ≤ o.behind
  bounded : a.younger ≤ g.horizon.get a.counter

namespace Operation

variable {o : Operation} {g : Generation} {a : InFlight}

lemma StoodFor.isComplete (h : o.StoodFor g a) {w : Wait} (hw : w.Completes a) :
    o.isComplete w = true := by
  rw [isComplete_iff, ← h.counter]
  exact ⟨hw.1, Nat.le_trans (UInt16.le_iff_toNat_le.1 hw.2) h.younger⟩

/-- Beyond the horizon the access is not counted any further, so it only ever falls behind. -/
lemma StoodFor.issue (h : o.StoodFor g a) {k : AccessKey} (hk : k.event = o.event)
    (inOrder : Event → Bool) (ev : Event) :
    (o.issue inOrder ev).StoodFor g (a.issue g k inOrder ev) := by
  rw [Operation.issue, InFlight.issue, hk, h.ordered]
  split
  · refine ⟨h.counter, rfl, ?_, g.oneMore_le_horizon _ _⟩
    have hyounger := h.younger
    rw [Generation.oneMore_toNat]
    split <;> dsimp only <;> omega
  · exact h

lemma event_issue (o : Operation) (inOrder : Event → Bool) (ev : Event) :
    (o.issue inOrder ev).event = o.event := by
  rw [issue]
  split <;> rfl

lemma StoodFor.issues (h : o.StoodFor g a) {k : AccessKey} (hk : k.event = o.event)
    (inOrder : Event → Bool) (evs : List Event) :
    (o.issues inOrder evs).StoodFor g (a.issues g k inOrder evs) := by
  induction evs generalizing o a with
  | nil => exact h
  | cons ev evs ih =>
    rw [Operation.issues, InFlight.issues, List.foldl_cons, List.foldl_cons]
    exact ih (h.issue hk inOrder ev) (hk.trans (o.event_issue inOrder ev).symm)

end Operation

/-- An export issues the event of its target. -/
lemma Instruction.eventOf_of_issue {s : Setting} {i : Instruction} {data : Export} {ev : Event}
    {sync : Sync} (hp : i.payload = .exp data) (hev : .issue ev sync ∈ i.effects s) :
    Export.eventOf data.dest = .ok ev := by
  have hmem := Effect.mem_issues.2 ⟨sync, hev⟩
  rw [effects, hp] at hmem
  cases hdest : Export.eventOf data.dest with
  | error fault => simp [exportEffects, hdest] at hmem
  | ok ev' =>
    rw [issues_exportEffects hdest, List.mem_singleton] at hmem
    rw [hmem]

namespace Follower

variable {s : Setting}

/-- The access of the execution mask that goes with an export. -/
def maskKey (ev : Event) : AccessKey := ⟨.argument 0, .exec, ev⟩

/-- The exports.  Each of them reads the execution mask until it is complete. -/
def exports (hgen : .gfx10 ≤ s.generation) : Follower s where
  Starts i o := ∃ data ev, i.payload = .exp data ∧ Export.eventOf data.dest = .ok ev
    ∧ o = .ofEvent s i ev
  Knows c o := o.event ∈ EventSet.exports ∧ ∃ a, o.StoodFor s.generation a
    ∧ c.FollowsAt s.generation (fun _ => False) (maskKey o.event) a
  inserted := by
    rintro i o (⟨w, rfl⟩ | ⟨w, rfl⟩ | ⟨-, rfl⟩) ⟨data, ev, hp, -⟩ <;> cases hp
  takesOver := by
    rintro i kept o (rfl | ⟨n, m, hn, -, rfl⟩) ⟨data, ev, hp, h⟩
    · exact ⟨data, ev, hp, h⟩
    · cases hp
  issues := by
    rintro c o inOrder evs ⟨hev, a, ha, hfol⟩
    rw [Operation.issues_eq]
    exact ⟨hev, a, { ha with younger := Nat.le_trans ha.younger (Nat.le_add_right _ _) }, hfol⟩
  settle := by
    rintro c c' o w hc hsettle hnot ⟨hev, a, ha, hfol⟩
    refine ⟨hev, a, ha, hfol.settle hc hsettle (fun hw => ?_) False.elim False.elim⟩
    rw [ha.isComplete hw] at hnot
    cases hnot
  deferBefore := by
    rintro c o i ⟨hev, a, ha, hfol⟩
    obtain ⟨hregs, hnonzero, -⟩ := c.deferBefore_frame s i
    exact ⟨hev, a, ha, hfol.of_frame hregs hnonzero⟩
  deferAfter := by
    rintro c o i ⟨hev, a, ha, hfol⟩
    obtain ⟨hregs, hnonzero, -⟩ := c.deferAfter_frame s i
    exact ⟨hev, a, ha, hfol.of_frame hregs hnonzero⟩
  start := by
    rintro c c' i o hstart ⟨hev, a, ha, hfol⟩
    obtain ⟨st, -, hraised, hissues⟩ := Instruction.started_of_start hstart
    have hflat := i.isUnorderedFlat_of_le hgen
    have hfol' := hfol.foldlM ha.bounded (fun hf => by rw [hflat] at hf; cases hf) hstart
    have hevent : (o.issues (i.inOrder s.generation) (i.raised s)).event = o.event := by
      rw [Operation.issues_eq]
    rw [hissues, ← hraised] at hfol'
    refine ⟨hevent ▸ hev, _, ha.issues (k := maskKey o.event) rfl _ _, ?_⟩
    rw [hevent]
    exact hfol'
  new := by
    rintro c c' i o hstart ⟨data, ev, hp, hdest, rfl⟩
    have hcount := Event.counter?_of_reads (Export.reads_of_eventOf hdest) s.generation
    have hflat := i.isUnorderedFlat_of_le hgen
    have hexport : ev ∈ EventSet.exports ∧ ev ∉ Event.unordered := by
      unfold Export.eventOf at hdest
      repeat' split at hdest
      all_goals cases hdest
      all_goals decide
    have hordered : (Operation.ofEvent s i ev).ordered = true := by
      simp [Operation.ofEvent, Instruction.inOrder, hflat, hexport.2]
    have heffects : i.effects s = i.exportEffects data := by rw [Instruction.effects, hp]
    have htracks : Effect.Tracks .exec ev false (i.effects s) := by
      rw [heffects, Instruction.exportEffects, hdest]
      exact Effect.Tracks.append_left (Effect.tracks_cons (by decide) _ _ (by simp)) _
    have hissued : ev ∈ Effect.issues (i.effects s) := by
      rw [heffects, Instruction.exportEffects, hdest]
      simp
    refine ⟨hexport.1, ⟨false, .exp, 0, true, true⟩, ?_, ?_⟩
    · refine ⟨?_, hordered.symm, Nat.zero_le _, UInt16.le_iff_toNat_le.2 (Nat.zero_le _)⟩
      simp [Operation.ofEvent, hcount]
    · exact Context.followsAt_of_tracks htracks rfl hcount rfl (fun _ => rfl) (fun ho => by cases ho)
        (.inr hissued) (fun hf => by rw [hflat] at hf; cases hf) hstart
  absorbs := by
    rintro c c' o - hentries - ⟨hev, a, ha, e, he, hfol⟩
    obtain ⟨e', he', hgrows⟩ := hentries.entries rfl _ e he
    refine ⟨hev, { a with lanes := false }, { ha with }, e', he', ?_⟩
    exact hfol.of_grows hgrows (fun _ h => h) (fun d hd => Flags.mem_of_lacks_eq_false
      hentries.nonzero hd) rfl rfl rfl rfl (fun h => by cases h)
  released := by
    rintro c q o hreleases ⟨hev, a, -, e, he, hfol⟩
    simp only [Walk.releasesRegisters, Bool.and_eq_true, Bool.not_eq_true',
      List.any_eq_false] at hreleases
    have hmem : (Reg.exec, e) ∈ c.regs.toList := Std.ExtTreeMap.mem_toList_iff_getElem?_eq_some.2 he
    exact absurd (Flags.meets_of_mem hfol.event hev) (hreleases.1.2 _ hmem)

end Follower

end GpuWaits
