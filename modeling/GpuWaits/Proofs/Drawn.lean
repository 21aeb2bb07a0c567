/-
# Random programs are valid

Whatever the bytes are that decide how a program is drawn, and wherever they run out, the program keeps
all rules of validation (`Sample.validate_random`).

What a draw can give is stated by `Draw.Yields`, with one lemma for each way to combine draws.  The
control flow is drawn region by region.  A region puts blocks behind those that are there, and gives the
last of these a role (`Sketch.Extends`); the new blocks enter and leave loops as their depths say
(`Chain`), which is all that validation asks of headers and exits.  The header of a loop gets its back
edge only when the loop has been drawn, so that nothing is said about the blocks of a region before
the region is complete.
-/
import GpuWaits.Proofs.Loops
import GpuWaits.Sample.Random

namespace GpuWaits

/-! ### What a draw can give -/

namespace Draw

variable {α β : Type} {P : α → Prop} {Q : β → Prop} {m : Draw α}

/-- Whatever the bytes are, the draw gives a value with the property. -/
def Yields (m : Draw α) (P : α → Prop) : Prop := ∀ bytes, P (m.run bytes).1

lemma yields_pure {a : α} (h : P a) : Yields (pure a) P := fun _ => h

lemma Yields.bind {f : α → Draw β} (hm : m.Yields P) (hf : ∀ a, P a → (f a).Yields Q) :
    Yields (m >>= f) Q :=
  fun bytes => hf _ (hm bytes) _

lemma Yields.mono {P' : α → Prop} (hm : m.Yields P) (h : ∀ a, P a → P' a) : m.Yields P' :=
  fun bytes => h _ (hm bytes)

lemma Yields.times (hm : m.Yields P) (n : Nat) :
    (m.times n).Yields fun l => l.length = n ∧ ∀ a ∈ l, P a := by
  induction n with
  | zero => exact yields_pure ⟨rfl, by simp⟩
  | succ n ih =>
    refine hm.bind fun a ha => ih.bind fun l hl => yields_pure ⟨by simp [hl.1], ?_⟩
    exact List.forall_mem_cons.2 ⟨ha, hl.2⟩

end Draw

/-! ### Instructions -/

namespace Sample

open Draw

/-- A range of the given size may start at the register. -/
abbrev Starts (size : UInt8) (r : Reg) : Prop := RegRange.isValid ⟨r, size⟩ = true

end Sample

/-! ### Depths -/

namespace Block

/-- The block enters a loop, leaves one or does neither, from depth `d` to depth `d'`. -/
def Turns (b : Block) (d d' : Nat) : Prop :=
  if .loopHeader ∈ b.kind then d' = d + 1 else if .loopExit ∈ b.kind then d = d' + 1 else d' = d

/-- The predecessors of the block at the place `place` exist and are listed once, and only headers are
entered from behind. -/
structure PredsFit (b : Block) (count place : Nat) (preds : List UInt32) : Prop where
  lt : ∀ pred ∈ preds, pred.toNat < count
  backward : ∀ pred ∈ preds, place ≤ pred.toNat → .loopHeader ∈ b.kind
  nodup : preds.Nodup

/-- There is nothing wrong with the block at the place `place` of `count` if `d` loops are open in front
of it.  In the block `d'` loops are open. -/
structure Enters (b : Block) (count place d d' : Nat) : Prop where
  index : b.index.toNat = place
  turns : b.Turns d d'
  depth : b.loopDepth.toNat = d'
  shallow : d' + 1 < UInt32.size
  entry : place = 0 → b.linearPreds = [] ∧ b.logicalPreds = []
  reached : 0 < place → b.linearPreds ≠ []
  linear : b.PredsFit count place b.linearPreds
  logical : b.PredsFit count place b.logicalPreds
  loops : .loopHeader ∈ b.kind → ∃ pred ∈ b.linearPreds, place ≤ pred.toNat
  instructions : ∀ i ∈ b.instructions, i.defect? = none

variable {b b' : Block} {count place d d' : Nat}

lemma PredsFit.predsDefect? {preds seen : List UInt32} (h : b.PredsFit count b.index.toNat preds)
    (hseen : ∀ pred ∈ preds, pred ∉ seen) : predsDefect? b count seen preds = none := by
  induction preds generalizing seen with
  | nil => rfl
  | cons pred rest ih =>
    obtain ⟨hnew, hrest⟩ := List.nodup_cons.1 h.nodup
    have hcount : ¬count ≤ pred.toNat := Nat.not_le_of_lt (h.lt pred List.mem_cons_self)
    have hback : ¬(b.index ≤ pred ∧ .loopHeader ∉ b.kind) := fun hno =>
      hno.2 (h.backward pred List.mem_cons_self (UInt32.le_iff_toNat_le.1 hno.1))
    rw [Block.predsDefect?, if_neg hcount, if_neg, if_neg hback]
    · refine ih ⟨fun q hq => h.lt q (List.mem_cons_of_mem _ hq),
        fun q hq => h.backward q (List.mem_cons_of_mem _ hq), hrest⟩ fun q hq hmem => ?_
      rcases List.mem_cons.1 hmem with rfl | hmem
      · exact hnew hq
      · exact hseen q (List.mem_cons_of_mem _ hq) hmem
    · simpa using hseen pred List.mem_cons_self

lemma Enters.edgesDefect? (h : b.Enters count place d d') : b.edgesDefect? count place = none := by
  have hplace := h.index
  have hnone : ∀ {preds : List UInt32}, b.PredsFit count place preds →
      predsDefect? b count [] preds = none := fun hp =>
    PredsFit.predsDefect? (hplace ▸ hp) fun _ _ => List.not_mem_nil
  have hentry : ¬(place = 0 ∧ (!(b.linearPreds.isEmpty && b.logicalPreds.isEmpty)) = true) := by
    rintro ⟨hzero, hno⟩
    simp [h.entry hzero] at hno
  have hreached : ¬(0 < place ∧ b.linearPreds.isEmpty = true) := fun hno =>
    h.reached hno.1 (List.isEmpty_iff.1 hno.2)
  rw [Block.edgesDefect?, if_neg (not_not.2 hplace), if_neg hentry, if_neg hreached, hnone h.linear,
    hnone h.logical]
  rfl

lemma instructionDefect?_of (h : ∀ i ∈ b.instructions, i.defect? = none) :
    b.instructionDefect? = none := by
  refine List.findSome?_eq_none_iff.2 fun ⟨i, _⟩ hi => ?_
  dsimp only
  rw [h i (List.fst_mem_of_mem_zipIdx hi), Option.map_none]

/-- Every header on the stack has the depth of the stack. -/
def Nested : List Block → Prop
  | [] => True
  | header :: rest => header.loopDepth.toNat = rest.length + 1 ∧ Nested rest

/-- A block that has nothing wrong is accepted, whatever the headers of the open loops are. -/
lemma Enters.validate {headers : List Block} (h : b.Enters count place d d') (hn : Nested headers)
    (hd : headers.length = d) : ∃ headers', b.validate count place headers = .ok headers'
      ∧ Nested headers' ∧ headers'.length = d' := by
  have hturns := h.turns
  obtain ⟨headers', hopen, hn', hd'⟩ : ∃ headers', b.openLoops place headers = .ok headers'
      ∧ Nested headers' ∧ headers'.length = d' := by
    unfold openLoops
    rw [Turns] at hturns
    split
    · rename_i hheader
      rw [if_pos hheader] at hturns
      obtain ⟨pred, hpred, hle⟩ := h.loops hheader
      have hback : (b.linearPreds.any fun pred => decide (b.index ≤ pred)) = true :=
        List.any_eq_true.2 ⟨pred, hpred, decide_eq_true (UInt32.le_iff_toNat_le.2 (h.index ▸ hle))⟩
      rw [if_pos hback]
      exact ⟨_, rfl, ⟨by rw [h.depth, hturns, hd], hn⟩, by rw [List.length_cons, hd, hturns]⟩
    rename_i hheader
    rw [if_neg hheader] at hturns
    split
    · rename_i hexit
      rw [if_pos hexit] at hturns
      cases headers with
      | nil =>
        rw [List.length_nil] at hd
        omega
      | cons header rest =>
        rw [List.length_cons] at hd
        have hsize : b.loopDepth.toNat + 1 ≠ UInt32.size := by
          rw [h.depth]
          exact Nat.ne_of_lt h.shallow
        have hlevel : ¬header.loopDepth.toNat ≠ b.loopDepth.toNat + 1 := by
          rw [hn.1, h.depth]
          omega
        dsimp only
        rw [if_neg hsize, if_neg hlevel]
        exact ⟨_, rfl, hn.2, by omega⟩
    · rename_i hexit
      rw [if_neg hexit] at hturns
      exact ⟨_, rfl, hn, by rw [hd, hturns]⟩
  refine ⟨headers', ?_, hn', hd'⟩
  have hdepth : ¬b.loopDepth.toNat ≠ headers'.length := not_not.2 (by rw [h.depth, hd'])
  simp only [Block.validate, h.edgesDefect?, instructionDefect?_of h.instructions, hopen, reject,
    bind, Except.bind, if_neg hdepth, pure, Except.pure]

/-- The block `b'` is the block `b` with more roles, which are not those of headers and exits, and with
code that is in order if that of `b` is. -/
structure Dressed (b b' : Block) : Prop where
  index : b'.index = b.index
  linear : b'.linearPreds = b.linearPreds
  logical : b'.logicalPreds = b.logicalPreds
  depth : b'.loopDepth = b.loopDepth
  header : .loopHeader ∈ b'.kind ↔ .loopHeader ∈ b.kind
  exit : .loopExit ∈ b'.kind ↔ .loopExit ∈ b.kind
  instructions : (∀ i ∈ b.instructions, i.defect? = none) → ∀ i ∈ b'.instructions, i.defect? = none

lemma Dressed.refl (b : Block) : b.Dressed b := ⟨rfl, rfl, rfl, rfl, .rfl, .rfl, id⟩

lemma Dressed.trans {b'' : Block} (h : b.Dressed b') (h' : b'.Dressed b'') : b.Dressed b'' :=
  ⟨h'.index.trans h.index, h'.linear.trans h.linear, h'.logical.trans h.logical,
    h'.depth.trans h.depth, h'.header.trans h.header, h'.exit.trans h.exit,
    fun hi => h'.instructions (h.instructions hi)⟩

lemma Dressed.predsFit (h : b.Dressed b') {preds : List UInt32} (hp : b.PredsFit count place preds) :
    b'.PredsFit count place preds :=
  ⟨hp.lt, fun pred hpred hle => h.header.2 (hp.backward pred hpred hle), hp.nodup⟩

lemma Enters.dressed (h : b.Enters count place d d') (hb : b.Dressed b') :
    b'.Enters count place d d' where
  index := hb.index ▸ h.index
  turns := by
    have := h.turns
    simp only [Turns, hb.header, hb.exit] at this ⊢
    exact this
  depth := hb.depth ▸ h.depth
  shallow := h.shallow
  entry := by
    rw [hb.linear, hb.logical]
    exact h.entry
  reached := hb.linear ▸ h.reached
  linear := hb.linear ▸ hb.predsFit h.linear
  logical := hb.logical ▸ hb.predsFit h.logical
  loops hheader := hb.linear ▸ h.loops (hb.header.1 hheader)
  instructions := hb.instructions h.instructions

end Block

/-- There is nothing wrong with a list of blocks from the place `place` on, which lead from depth `d` to
depth `d'`. -/
inductive Chain (count : Nat) : Nat → Nat → List Block → Nat → Prop where
  | nil (place d : Nat) : Chain count place d [] d
  | cons {place d d₁ d' : Nat} {b : Block} {rest : List Block} : b.Enters count place d d₁ →
    Chain count (place + 1) d₁ rest d' → Chain count place d (b :: rest) d'

namespace Chain

variable {count place d d₁ d' : Nat} {bs bs' : List Block}

lemma append (h : Chain count place d bs d₁) (h' : Chain count (place + bs.length) d₁ bs' d') :
    Chain count place d (bs ++ bs') d' := by
  induction h with
  | nil => exact h'
  | cons hb _ ih =>
    refine .cons hb (ih ?_)
    rwa [Nat.add_assoc, Nat.add_comm 1, ← List.length_cons]

lemma dressed (h : Chain count place d bs d') (hbs : List.Forall₂ Block.Dressed bs bs') :
    Chain count place d bs' d' := by
  induction h generalizing bs' with
  | nil =>
    cases hbs
    exact .nil _ _
  | cons hb _ ih =>
    cases hbs with
    | cons hfirst hrest => exact .cons (hb.dressed hfirst) (ih hrest)

/-- A chain is accepted. -/
lemma validate (h : Chain count place d bs d') {headers : List Block} (hn : Block.Nested headers)
    (hd : headers.length = d) : ∃ headers', (bs.zipIdx place).foldlM
        (fun headers (b, place) => b.validate count place headers) headers = .ok headers'
      ∧ headers'.length = d' := by
  induction h generalizing headers with
  | nil => exact ⟨headers, rfl, hd⟩
  | cons hb _ ih =>
    obtain ⟨opened, hvalidate, hn', hd'⟩ := hb.validate hn hd
    obtain ⟨headers', hrest, hlength⟩ := ih hn' hd'
    refine ⟨headers', ?_, hlength⟩
    simp only [List.zipIdx_cons, List.foldlM_cons, hvalidate, bind, Except.bind]
    exact hrest

end Chain

/-! ### Steps of drawing a program -/

namespace Sample

open Draw

variable {α β : Type} {P : α → Sketch → Prop} {Q : β → Sketch → Prop} {sk sk' sk'' : Sketch}

/-- From the sketch `sk` the step leads to values and sketches as stated, whatever the bytes are. -/
def Leads (m : Sketching α) (sk : Sketch) (P : α → Sketch → Prop) : Prop :=
  Draw.Yields (m.run sk) fun x => P x.1 x.2

lemma Leads.bind {m : Sketching α} {f : α → Sketching β} (hm : Leads m sk P)
    (hf : ∀ a sk', P a sk' → Leads (f a) sk' Q) : Leads (m >>= f) sk Q :=
  Yields.bind hm fun x hx => hf x.1 x.2 hx

lemma Leads.mono {m : Sketching α} {P' : α → Sketch → Prop} (hm : Leads m sk P)
    (h : ∀ a sk', P a sk' → P' a sk') : Leads m sk P' :=
  Yields.mono hm fun x hx => h x.1 x.2 hx

/-- A block as it is drawn. -/
def drawnBlock (place d : Nat) (kind : BlockKind) (linear logical : List Nat)
    (code : List Instruction) : Block :=
  { divergent place kind linear logical code with loopDepth := .ofNat d }

/-- The sketch with one more block. -/
def Sketch.push (sk : Sketch) (kind : BlockKind) (linear logical : List Nat)
    (code : List Instruction) : Sketch :=
  { sk with
    blocks := sk.blocks ++ [drawnBlock sk.blocks.length sk.depth kind linear logical code]
    current := sk.blocks.length }

@[simp] lemma length_push (sk : Sketch) (kind : BlockKind) (linear logical : List Nat)
    (code : List Instruction) :
    (sk.push kind linear logical code).blocks.length = sk.blocks.length + 1 := by
  simp [Sketch.push]

lemma predsFit_map {b : Block} {count place bound : Nat} {preds : List Nat} (hbound : bound ≤ count)
    (hsmall : bound < UInt32.size) (hlt : ∀ p ∈ preds, p < bound)
    (hback : ∀ p ∈ preds, place ≤ p → .loopHeader ∈ b.kind) (hnodup : preds.Nodup) :
    b.PredsFit count place (preds.map .ofNat) := by
  have hnat : ∀ p ∈ preds, (UInt32.ofNat p).toNat = p := fun p hp =>
    UInt32.toNat_ofNat_of_lt' (Nat.lt_trans (hlt p hp) hsmall)
  refine ⟨fun pred hpred => ?_, fun pred hpred hle => ?_, ?_⟩
  · obtain ⟨p, hp, rfl⟩ := List.mem_map.1 hpred
    rw [hnat p hp]
    exact Nat.lt_of_lt_of_le (hlt p hp) hbound
  · obtain ⟨p, hp, rfl⟩ := List.mem_map.1 hpred
    exact hback p hp (hnat p hp ▸ hle)
  · refine List.pairwise_map.2 (hnodup.imp_of_mem fun {p q} hp hq hne heq => hne ?_)
    rw [← hnat p hp, ← hnat q hq, heq]

/-- A block as it is drawn has nothing wrong, if the numbers of its predecessors do. -/
lemma enters_drawnBlock {count place d d' : Nat} {kind : BlockKind} {linear logical : List Nat}
    {code : List Instruction} (bound : Nat) (hpos : 0 < place) (hplace : place < bound)
    (hbound : bound ≤ count) (hsmall : bound < UInt32.size) (hshallow : d' + 1 < UInt32.size)
    (hturns : (drawnBlock place d' kind linear logical code).Turns d d') (hlinear : linear ≠ [])
    (hlt : ∀ p ∈ linear ++ logical, p < bound)
    (hback : ∀ p ∈ linear ++ logical, place ≤ p → .loopHeader ∈ kind)
    (hloops : .loopHeader ∈ kind → ∃ p ∈ linear, place ≤ p)
    (hnodup : linear.Nodup ∧ logical.Nodup) (hcode : ∀ i ∈ code, i.defect? = none) :
    (drawnBlock place d' kind linear logical code).Enters count place d d' where
  index := UInt32.toNat_ofNat_of_lt' (Nat.lt_trans hplace hsmall)
  turns := hturns
  depth := UInt32.toNat_ofNat_of_lt' (Nat.lt_of_succ_lt hshallow)
  shallow := hshallow
  entry hzero := absurd hzero (Nat.ne_of_gt hpos)
  reached _ hnil := hlinear (List.map_eq_nil_iff.1 hnil)
  linear := predsFit_map hbound hsmall (fun p hp => hlt p (List.mem_append_left _ hp))
    (fun p hp => hback p (List.mem_append_left _ hp)) hnodup.1
  logical := predsFit_map hbound hsmall (fun p hp => hlt p (List.mem_append_right _ hp))
    (fun p hp => hback p (List.mem_append_right _ hp)) hnodup.2
  loops hheader := by
    obtain ⟨p, hp, hle⟩ := hloops hheader
    refine ⟨.ofNat p, List.mem_map_of_mem hp, ?_⟩
    rw [UInt32.toNat_ofNat_of_lt' (Nat.lt_trans (hlt p (List.mem_append_left _ hp)) hsmall)]
    exact hle
  instructions := hcode

/-- The kind is the given one, perhaps with the role of a block outside of loops. -/
def Here (kind kind' : BlockKind) : Prop := kind' = kind ∨ kind' = kind ∪ {.topLevel}

lemma Here.mem_iff {kind kind' : BlockKind} (h : Here kind kind') {role : BlockRole}
    (hrole : role ≠ .topLevel) : role ∈ kind' ↔ role ∈ kind := by
  rcases h with rfl | rfl
  · rfl
  · have hno : role ∉ ({.topLevel} : BlockKind) := by
      revert hrole
      cases role <;> decide
    simp [hno]

/-- The sketch `sk'` has the blocks of `sk`, some with more roles, and behind them new ones, which have
nothing wrong, however many follow, and leave all loops that they enter. -/
structure Extends (sk sk' : Sketch) : Prop where
  depth : sk'.depth = sk.depth
  current : sk'.current + 1 = sk'.blocks.length
  blocks : ∃ old new, sk'.blocks = old ++ new ∧ List.Forall₂ Block.Dressed sk.blocks old
    ∧ ∀ count, sk'.blocks.length ≤ count → Chain count sk.blocks.length sk.depth new sk.depth

lemma forall₂_append_left {R : α → β → Prop} {a a' : List α} {l : List β}
    (h : List.Forall₂ R (a ++ a') l) :
    ∃ b b', l = b ++ b' ∧ List.Forall₂ R a b ∧ List.Forall₂ R a' b' := by
  induction a generalizing l with
  | nil => exact ⟨[], l, rfl, .nil, h⟩
  | cons x a ih =>
    cases h with
    | cons hx hrest =>
      obtain ⟨b, b', rfl, hb, hb'⟩ := ih hrest
      exact ⟨_ :: b, b', rfl, .cons hx hb, hb'⟩

lemma forall₂_dressed_trans {a b c : List Block} (h : List.Forall₂ Block.Dressed a b)
    (h' : List.Forall₂ Block.Dressed b c) : List.Forall₂ Block.Dressed a c := by
  induction h generalizing c with
  | nil => exact h'
  | cons hx _ ih =>
    cases h' with
    | cons hy hrest => exact .cons (hx.trans hy) (ih hrest)

lemma forall₂_dressed_modify {f : Block → Block} (hf : ∀ b : Block, b.Dressed (f b)) (l : List Block)
    (n : Nat) : List.Forall₂ Block.Dressed l (l.modify n f) := by
  induction l generalizing n with
  | nil => simp
  | cons b l ih =>
    cases n with
    | zero => simpa using ⟨hf b, fun b _ => Block.Dressed.refl b⟩
    | succ n => simpa using ⟨Block.Dressed.refl b, ih n⟩

/-- Predecessors in front of the place `n`, each listed once. -/
def InFront (n : Nat) (preds : List Nat) : Prop := preds.Nodup ∧ ∀ p ∈ preds, p < n

/-- The sketch has a first block, and is small enough for all numbers to fit a word. -/
structure Roomy (sk : Sketch) : Prop where
  begun : 0 < sk.blocks.length
  small : sk.blocks.length < 64
  shallow : sk.depth < 64

namespace Extends

lemma refl (h : sk.current + 1 = sk.blocks.length) : Extends sk sk :=
  ⟨rfl, h, sk.blocks, [], by simp, List.forall₂_same.2 fun b _ => .refl b, fun _ _ => .nil _ _⟩

lemma trans (h : Extends sk sk') (h' : Extends sk' sk'') : Extends sk sk'' := by
  obtain ⟨hdepth, -, old, new, hblocks, hold, hnew⟩ := h
  obtain ⟨hdepth', hcurrent', old', new', hblocks', hold', hnew'⟩ := h'
  rw [hblocks] at hold'
  obtain ⟨old₂, new₂, rfl, hold₂, hnew₂⟩ := forall₂_append_left hold'
  have hlength := hold.length_eq
  have hlength₂ := hnew₂.length_eq
  have hsk' : sk'.blocks.length = sk.blocks.length + new₂.length := by
    rw [hblocks, List.length_append, hlength, hlength₂]
  refine ⟨hdepth'.trans hdepth, hcurrent', old₂, new₂ ++ new', by rw [hblocks', List.append_assoc],
    forall₂_dressed_trans hold hold₂, fun count hcount => ?_⟩
  refine ((hnew count ?_).dressed hnew₂).append ?_
  · rw [hblocks', List.length_append, List.length_append, ← hold₂.length_eq, ← hlength] at hcount
    omega
  · rw [← hsk', ← hdepth]
    exact hnew' count hcount

/-- A block is changed in ways that do not matter. -/
lemma change (h : sk.current + 1 = sk.blocks.length) (n : Nat) {f : Block → Block}
    (hf : ∀ b : Block, b.Dressed (f b)) : Extends sk { sk with blocks := sk.blocks.modify n f } :=
  ⟨rfl, by simpa using h, sk.blocks.modify n f, [], by simp, forall₂_dressed_modify hf _ n,
    fun _ _ => .nil _ _⟩

/-- A block is put at the end that neither enters a loop nor leaves one. -/
lemma push {kind : BlockKind} {linear logical : List Nat} {code : List Instruction} (hsk : Roomy sk)
    (hkind : .loopHeader ∉ kind ∧ .loopExit ∉ kind) (hne : linear ≠ [])
    (hlinear : InFront sk.blocks.length linear) (hlogical : InFront sk.blocks.length logical)
    (hcode : ∀ i ∈ code, i.defect? = none) : Extends sk (sk.push kind linear logical code) := by
  have hsize : UInt32.size = 4294967296 := rfl
  have hsmall := hsk.small
  have hshallow := hsk.shallow
  have hlt : ∀ p ∈ linear ++ logical, p < sk.blocks.length := fun p hp =>
    (List.mem_append.1 hp).elim (hlinear.2 p) (hlogical.2 p)
  refine ⟨rfl, by simp [Sketch.push], sk.blocks, _, rfl, List.forall₂_same.2 fun b _ => .refl b,
    fun count hcount => .cons ?_ (.nil _ _)⟩
  rw [length_push] at hcount
  refine enters_drawnBlock _ hsk.begun (Nat.lt_succ_self _) hcount (by omega) (by omega) ?_ hne
    (fun p hp => Nat.lt_succ_of_lt (hlt p hp)) (fun p hp hle => ?_) (fun hheader => ?_)
    ⟨hlinear.1, hlogical.1⟩ hcode
  · rw [Block.Turns, if_neg (by exact hkind.1), if_neg (by exact hkind.2)]
  · exact absurd (hlt p hp) (Nat.not_lt_of_le hle)
  · exact absurd hheader hkind.1

end Extends

lemma Here.plain {kind kind' : BlockKind} (h : Here kind kind')
    (hkind : .loopHeader ∉ kind ∧ .loopExit ∉ kind) : .loopHeader ∉ kind' ∧ .loopExit ∉ kind' :=
  ⟨(h.mem_iff (by decide)).not.2 hkind.1, (h.mem_iff (by decide)).not.2 hkind.2⟩

/-- The block with one more edge into it. -/
def backEdge (latch : Nat) (b : Block) : Block :=
  { b with
    linearPreds := b.linearPreds ++ [.ofNat latch]
    logicalPreds := b.logicalPreds ++ [.ofNat latch] }

end Sample

end GpuWaits
