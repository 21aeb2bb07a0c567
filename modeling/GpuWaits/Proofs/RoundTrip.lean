/-
# Reading what was written

A program whose parts all have names is written without a fault, and reading its text gives the
program back (`Program.Writable.parse_text`).  Every program that comes out of a text is of this sort
(`Program.writable_of_parse`), whatever the text looks like: blanks, comments, other ways to write a
number and default values that are spelled out are lost, but no part of the program is.
-/
import GpuWaits.Proofs.Parsed

namespace GpuWaits

open Token Reader

/-! ### Lines of a text -/

/-- A text is read line by line. -/
lemma readLines_eq_ok {p p' : Program} {line : Nat} {ls : List (List Char)} :
    readLines p line ls = .ok p' ↔ ls.foldlM (fun p l => readLine p (ofLine l)) p = .ok p' := by
  induction ls generalizing p line with
  | nil => rw [readLines, List.foldlM_nil, pure_eq_ok, Except.ok.injEq]
  | cons l ls ih =>
    rw [readLines, List.foldlM_cons]
    cases readLine p (ofLine l) with
    | error cause => exact ⟨fun h => (nomatch h), fun h => (nomatch h)⟩
    | ok q => exact ih

/-- Lines, each of them with a break behind it. -/
def unlines (ls : List String) : String := String.join (ls.map (· ++ "\n"))

lemma unlines_append (ls ls' : List String) : unlines (ls ++ ls') = unlines ls ++ unlines ls' := by
  rw [unlines, List.map_append, String.join_append, unlines, unlines]

lemma unlines_cons (l : String) (ls : List String) : unlines (l :: ls) = l ++ "\n" ++ unlines ls := by
  rw [unlines, List.map_cons, String.join_cons, unlines]

lemma unlines_flatMap {ι : Type} (f : ι → List String) (l : List ι) :
    unlines (l.flatMap f) = String.join (l.map fun x => unlines (f x)) := by
  induction l with
  | nil => rfl
  | cons x l ih => rw [List.flatMap_cons, unlines_append, ih, List.map_cons, String.join_cons]

/-- Lines without breaks in them are found again, and an empty one behind the last break. -/
lemma lines_unlines {ls : List String} (h : ∀ l ∈ ls, '\n' ∉ l.toList) :
    lines (unlines ls).toList = ls.map String.toList ++ [[]] := by
  induction ls with
  | nil => rfl
  | cons l ls ih =>
    have hrest := ih fun l' hl' => h l' (List.mem_cons_of_mem l hl')
    have htext : (unlines (l :: ls)).toList = l.toList ++ '\n' :: (unlines ls).toList := by
      rw [unlines_cons, String.toList_append, String.toList_append, List.append_assoc]
      rfl
    rw [htext, lines_append (h l List.mem_cons_self), hrest]
    rfl

/-! ### Reading a line -/

section ReadLine

variable {p : Program} {spaced : Bool} {tokens : List Token}

lemma readLine_block : readLine p (⟨spaced, .word "block"⟩ :: tokens)
    = (readBlock p.blocks.length tokens >>= fun b => .ok { p with blocks := p.blocks ++ [b] }) := rfl

lemma readLine_config (hp : p.blocks = []) : readLine p (⟨spaced, .word "config"⟩ :: tokens)
    = (readConfig tokens >>= fun config => .ok { p with config }) := by
  cases p
  subst hp
  rfl

lemma readLine_pendingLds (hp : p.blocks = []) :
    readLine p [⟨spaced, .word "pending_lds"⟩] = .ok { p with pendingLds := true } := by
  cases p
  subst hp
  rfl

lemma readLine_pendingVmem (hp : p.blocks = []) {r : RegRange} (hr : r.isValid = true)
    (spaced' : Bool) : readLine p [⟨spaced, .word "pending_vmem"⟩, ⟨spaced', .word r.name⟩]
      = .ok { p with pendingVmem := p.pendingVmem ++ [r] } := by
  cases p
  subst hp
  exact bind_eq_ok.2 ⟨r, readRange_name hr, rfl⟩

lemma readLine_instruction {word : String} (hword : word ≠ "block") (hp : p.blocks ≠ []) :
    readLine p (⟨spaced, .word word⟩ :: tokens)
      = (readInstruction word tokens >>= addInstruction p) := by
  delta readLine
  split
  next h => cases h
  next h => cases h
  next h => cases h; exact absurd rfl hword
  next h =>
    cases h
    split
    · exact absurd ‹p.blocks = []› hp
    · exact absurd ‹p.blocks = []› hp
    · exact absurd ‹p.blocks = []› hp
    · rfl

end ReadLine

/-! ### Writing a program -/

/-- The lines of a block. -/
def Block.lineTexts (b : Block) : List String := b.header :: b.instructions.map fun i => "  " ++ i.line

namespace Program

variable {p : Program}

/-- Everything in the program can be written: blocks are numbered in order, and their parts and the
pending arguments have names. -/
structure Writable (p : Program) : Prop where
  index : ∀ (n : Nat) (b : Block), p.blocks[n]? = some b → b.index.toNat = n
  waveSize : p.config.waveSize = 32 ∨ p.config.waveSize = 64
  pendingVmem : ∀ r ∈ p.pendingVmem, r.isValid = true
  blocks : ∀ b ∈ p.blocks, b.Writable

instance (p : Program) : Decidable p.Writable :=
  decidable_of_iff ((∀ x ∈ p.blocks.zipIdx, x.1.index.toNat = x.2)
      ∧ (p.config.waveSize = 32 ∨ p.config.waveSize = 64)
      ∧ (∀ r ∈ p.pendingVmem, r.isValid = true) ∧ ∀ b ∈ p.blocks, b.Writable)
    ⟨fun h => ⟨fun n b hb => h.1 (b, n) (List.mem_zipIdx_iff_getElem?.2 hb), h.2.1, h.2.2.1, h.2.2.2⟩,
      fun h => ⟨fun x hx => h.index x.2 x.1 (List.mem_zipIdx_iff_getElem?.1 hx), h.waveSize,
        h.pendingVmem, h.blocks⟩⟩

/-- The lines of a program. -/
def lineTexts (p : Program) : List String :=
  [p.config.text] ++ (if p.pendingLds then ["pending_lds"] else [])
    ++ p.pendingVmem.map (fun r => "pending_vmem" ++ (" " ++ r.name))
    ++ p.blocks.flatMap Block.lineTexts

end Program

lemma Block.Writable.printout {b : Block} (h : b.Writable) :
    b.printout = .ofString (unlines b.lineTexts) := by
  have hinstructions := Printout.concat_ofString (l := b.instructions)
    (f := fun i => ("  " : String) ++ i.printout ++ ("\n" : String))
    (g := fun i => "  " ++ i.line ++ "\n")
    (fun i hi => by rw [(h.instructions i hi).printout]; rfl)
  rw [Block.printout, hinstructions, Printout.ofString_append, lineTexts, unlines_cons, unlines,
    List.map_map]
  rfl

/-- The text of a program is its lines. -/
lemma Program.Writable.text {p : Program} (h : p.Writable) : p.text = .ok (unlines p.lineTexts) := by
  have hvmem := Printout.concat_ofString (l := p.pendingVmem)
    (f := fun r => ("pending_vmem " : String) ++ .ofExcept r.text ++ ("\n" : String))
    (g := fun r => "pending_vmem" ++ (" " ++ r.name) ++ "\n")
    (fun r hr => by
      rw [r.text_name (h.pendingVmem r hr), ← String.append_assoc]
      rfl)
  have hblocks := Printout.concat_ofString (l := p.blocks) (fun b hb => (h.blocks b hb).printout)
  have hlds : (if p.pendingLds then "pending_lds\n" else "")
      = unlines (if p.pendingLds then ["pending_lds"] else []) := by
    cases p.pendingLds <;> rfl
  have hpending : unlines (p.pendingVmem.map fun r => "pending_vmem" ++ (" " ++ r.name))
      = String.join (p.pendingVmem.map fun r => "pending_vmem" ++ (" " ++ r.name) ++ "\n") := by
    rw [unlines, List.map_map]
    rfl
  have hconfig : unlines [p.config.text] = p.config.text ++ "\n" := by
    rw [unlines_cons]
    exact String.append_empty
  rw [Program.text, Program.printout, hvmem, hblocks, hlds, lineTexts, unlines_append, unlines_append,
    unlines_append, unlines_flatMap, hconfig, hpending, Printout.ofString_append,
    Printout.ofString_append, Printout.ofString_append]
  rfl

/-! ### Reading a program back -/

/-- Reads the lines one after the other. -/
def readTexts (p : Program) (ls : List String) : Result Program :=
  ls.foldlM (fun p l => readLine p (ofLine l.toList)) p

lemma readTexts_cons {p q : Program} {l : String} (h : readLine p (ofLine l.toList) = .ok q)
    (ls : List String) : readTexts p (l :: ls) = readTexts q ls := by
  rw [readTexts, List.foldlM_cons, h]
  rfl

lemma readTexts_append {p q : Program} {ls ls' : List String} (h : readTexts p ls = .ok q) :
    readTexts p (ls ++ ls') = readTexts q ls' := by
  rw [readTexts, List.foldlM_append]
  show readTexts p ls >>= _ = _
  rw [h]
  rfl

/-- A text of unbroken lines is read as the lines are. -/
lemma parse_unlines {ls : List String} (h : ∀ l ∈ ls, '\n' ∉ l.toList) {p : Program}
    (hread : readTexts {} ls = .ok p) : Program.parse (unlines ls) = .ok p := by
  rw [Program.parse, lines_unlines h, readLines_eq_ok, List.foldlM_append, List.foldlM_map]
  exact bind_eq_ok.2 ⟨p, hread, rfl⟩

/-- Every instruction is added to the block that is open. -/
lemma readTexts_instructions {p : Program} {before : List Block} {b : Block} {is : List Instruction}
    (his : ∀ i ∈ is, i.Writable) (hp : p.blocks = before ++ [b]) :
    readTexts p (is.map fun i => "  " ++ i.line)
      = .ok { p with blocks := before ++ [{ b with instructions := b.instructions ++ is }] } := by
  induction is generalizing p b with
  | nil =>
    rw [List.append_nil, ← hp]
    rfl
  | cons i is ih =>
    obtain ⟨word, text, tokens, hline, hword, htext, hblock, hread⟩ :=
      (his i List.mem_cons_self).exists_line
    have hadd : readLine p (ofLine ("  " ++ i.line).toList)
        = .ok { p with blocks := before ++ [{ b with instructions := b.instructions ++ [i] }] } := by
      rw [hline, ofLine_indented hword htext, readLine_instruction hblock (by simp [hp]), hread]
      show addInstruction p i = _
      simp [addInstruction, hp]
    have hrest := ih (fun i' hi' => his i' (List.mem_cons_of_mem i hi'))
      (p := { p with blocks := before ++ [{ b with instructions := b.instructions ++ [i] }] }) rfl
    rw [List.append_assoc] at hrest
    rw [List.map_cons, readTexts_cons hadd]
    exact hrest

/-- The lines of a block are read into a new block behind the others. -/
lemma readTexts_block {p : Program} {b : Block} (hb : b.Writable)
    (hindex : b.index.toNat = p.blocks.length) :
    readTexts p b.lineTexts = .ok { p with blocks := p.blocks ++ [b] } := by
  obtain ⟨text, tokens, hheader, htext, hread⟩ := readBlock_header hb.kind hindex
  have hopen : readLine p (ofLine b.header.toList)
      = .ok { p with blocks := p.blocks ++ [{ b with instructions := [] }] } := by
    rw [hheader, ofLine_word isWord_ofList htext, readLine_block, hread]
    rfl
  rw [Block.lineTexts, readTexts_cons hopen, readTexts_instructions hb.instructions rfl]
  rfl

/-- Blocks are read back in their order. -/
lemma readTexts_blocks {p : Program} {bs : List Block} (hbs : ∀ b ∈ bs, b.Writable)
    (hindex : ∀ (n : Nat) (b : Block), bs[n]? = some b → b.index.toNat = p.blocks.length + n) :
    readTexts p (bs.flatMap Block.lineTexts) = .ok { p with blocks := p.blocks ++ bs } := by
  induction bs generalizing p with
  | nil =>
    rw [List.append_nil]
    rfl
  | cons b bs ih =>
    have hb := readTexts_block (hbs b List.mem_cons_self) (hindex 0 b rfl)
    rw [List.flatMap_cons, readTexts_append hb, ih fun b' hb' => hbs b' (List.mem_cons_of_mem b hb')]
    · simp
    · intro n b' hn
      have := hindex (n + 1) b' hn
      simp only [List.length_append, List.length_singleton]
      omega

lemma readTexts_pendingVmem {p : Program} (hp : p.blocks = []) {rs : List RegRange}
    (hrs : ∀ r ∈ rs, r.isValid = true) :
    readTexts p (rs.map fun r => "pending_vmem" ++ (" " ++ r.name))
      = .ok { p with pendingVmem := p.pendingVmem ++ rs } := by
  induction rs generalizing p with
  | nil =>
    rw [List.append_nil]
    rfl
  | cons r rs ih =>
    have hr := hrs r List.mem_cons_self
    have hadd : readLine p (ofLine ("pending_vmem" ++ (" " ++ r.name)).toList)
        = .ok { p with pendingVmem := p.pendingVmem ++ [r] } := by
      rw [ofLine_word isWord_ofList (lexes_blank_word (r.isWord_name hr)),
        readLine_pendingVmem hp hr]
    have hrest := ih (p := { p with pendingVmem := p.pendingVmem ++ [r] }) hp fun r' hr' =>
      hrs r' (List.mem_cons_of_mem r hr')
    rw [List.append_assoc] at hrest
    rw [List.map_cons, readTexts_cons hadd]
    exact hrest

lemma Block.Writable.unbroken {b : Block} (h : b.Writable) : ∀ l ∈ b.lineTexts, '\n' ∉ l.toList := by
  rw [lineTexts, List.forall_mem_cons, List.forall_mem_map]
  refine ⟨?_, fun i hi => ?_⟩
  · obtain ⟨text, tokens, hheader, htext, -⟩ := readBlock_header h.kind rfl
    rw [hheader]
    exact unbroken_word isWord_ofList htext
  · obtain ⟨word, text, tokens, hline, hword, htext, -⟩ := (h.instructions i hi).exists_line
    rw [hline, String.toList_append, List.mem_append, not_or]
    exact ⟨by decide, unbroken_word hword htext⟩

namespace Program.Writable

variable {p : Program}

lemma readTexts_lineTexts (h : p.Writable) : readTexts {} p.lineTexts = .ok p := by
  obtain ⟨text, tokens, htext, hlexes, hread⟩ := readConfig_text h.waveSize
  have hconfig : readLine {} (ofLine p.config.text.toList) = .ok { config := p.config } := by
    rw [htext, ofLine_word isWord_ofList hlexes, readLine_config rfl, hread]
    rfl
  have hlds : readTexts { config := p.config } (if p.pendingLds then ["pending_lds"] else [])
      = .ok { config := p.config, pendingLds := p.pendingLds } := by
    have hline := ofLine_word (w := "pending_lds") isWord_ofList lexes_empty
    rw [String.append_empty] at hline
    split
    case isTrue hp =>
      rw [readTexts_cons (hline ▸ readLine_pendingLds rfl), hp]
      rfl
    case isFalse hp =>
      rw [Bool.eq_false_iff.2 hp]
      rfl
  have hvmem := readTexts_pendingVmem (p := { config := p.config, pendingLds := p.pendingLds }) rfl
    h.pendingVmem
  rw [lineTexts, List.append_assoc, List.append_assoc, List.singleton_append, readTexts_cons hconfig,
    readTexts_append hlds, readTexts_append hvmem, readTexts_blocks h.blocks]
  · rfl
  · intro n b hn
    rw [h.index n b hn]
    simp

lemma unbroken (h : p.Writable) : ∀ l ∈ p.lineTexts, '\n' ∉ l.toList := by
  rw [lineTexts, List.forall_mem_append, List.forall_mem_append, List.forall_mem_append,
    List.forall_mem_singleton, List.forall_mem_map]
  refine ⟨⟨⟨?_, ?_⟩, fun r hr => ?_⟩, fun l hl => ?_⟩
  · obtain ⟨text, tokens, htext, hlexes, -⟩ := readConfig_text h.waveSize
    rw [htext]
    exact unbroken_word isWord_ofList hlexes
  · split
    · rw [List.forall_mem_singleton]
      decide
    · exact List.forall_mem_nil _
  · exact unbroken_word isWord_ofList
      (lexes_blank_word (r.isWord_name (h.pendingVmem r hr)))
  · obtain ⟨b, hb, hl⟩ := List.mem_flatMap.1 hl
    exact (h.blocks b hb).unbroken l hl

/-- A program is read back from its text. -/
lemma parse_text (h : p.Writable) : Program.parse (unlines p.lineTexts) = .ok p :=
  parse_unlines h.unbroken h.readTexts_lineTexts

end Program.Writable

/-! ### Programs that are read -/

lemma numbered_concat {bs : List Block} {b : Block} :
    (∀ (n : Nat) (c : Block), (bs ++ [b])[n]? = some c → c.index.toNat = n)
      ↔ (∀ (n : Nat) (c : Block), bs[n]? = some c → c.index.toNat = n) ∧ b.index.toNat = bs.length := by
  constructor
  · intro h
    refine ⟨fun n c hn => h n c ?_, h bs.length b List.getElem?_concat_length⟩
    rw [List.getElem?_append_left (List.getElem?_eq_some_iff.1 hn).1, hn]
  · rintro ⟨hbs, hb⟩ n c hn
    rcases Nat.lt_trichotomy n bs.length with hlt | rfl | hgt
    · rw [List.getElem?_append_left hlt] at hn
      exact hbs n c hn
    · rw [List.getElem?_concat_length] at hn
      rw [← Option.some.inj hn, hb]
    · rw [List.getElem?_eq_none (by simp; omega)] at hn
      cases hn

namespace Program.Writable

variable {p q : Program}

lemma addInstruction (h : p.Writable) {i : Instruction} (hi : i.Writable)
    (hadd : Reader.addInstruction p i = .ok q) : q.Writable := by
  rw [Reader.addInstruction] at hadd
  split at hadd
  next b hlast =>
    cases hadd
    obtain ⟨before, hblocks⟩ : ∃ before, p.blocks = before ++ [b] := List.getLast?_eq_some_iff.1 hlast
    -- only the last block changes, and it keeps its number and its roles
    obtain ⟨hbefore, hindex⟩ := numbered_concat.1 (hblocks ▸ h.index)
    have hwritable := h.blocks
    rw [hblocks, List.forall_mem_append, List.forall_mem_singleton] at hwritable
    obtain ⟨hothers, hkind, hinstructions⟩ := hwritable
    rw [hblocks, List.dropLast_concat]
    refine ⟨numbered_concat.2 ⟨hbefore, hindex⟩, h.waveSize, h.pendingVmem, ?_⟩
    refine List.forall_mem_append.2 ⟨hothers, List.forall_mem_singleton.2 ⟨hkind, ?_⟩⟩
    exact List.forall_mem_append.2 ⟨hinstructions, List.forall_mem_singleton.2 hi⟩
  next => cases hadd

lemma addBlock (h : p.Writable) {b : Block} (hb : b.Writable) (hindex : b.index.toNat = p.blocks.length) :
    Writable { p with blocks := p.blocks ++ [b] } where
  index := numbered_concat.2 ⟨h.index, hindex⟩
  waveSize := h.waveSize
  pendingVmem := h.pendingVmem
  blocks := List.forall_mem_append.2 ⟨h.blocks, List.forall_mem_singleton.2 hb⟩

/-- Reading a line keeps a program one that can be written. -/
lemma readLine (h : p.Writable) {tokens : List Token} (hread : Reader.readLine p tokens = .ok q) :
    q.Writable := by
  delta Reader.readLine at hread
  split at hread
  next =>
    cases hread
    exact h
  next => cases hread
  next tokens =>
    -- a block under any other number than the next one is refused
    obtain ⟨b, hb, hread⟩ := bind_eq_ok.1 hread
    cases hread
    obtain ⟨hb, hindex⟩ := writable_of_readBlock hb
    exact h.addBlock hb hindex
  next =>
    -- the three lines that may stand before the first block, and instructions
    split at hread
    · obtain ⟨c, hc, hread⟩ := bind_eq_ok.1 hread
      cases hread
      exact ⟨h.index, waveSize_of_readConfig hc, h.pendingVmem, h.blocks⟩
    · split at hread
      · cases hread
        exact ⟨h.index, h.waveSize, h.pendingVmem, h.blocks⟩
      · cases hread
    · split at hread
      · obtain ⟨r, hr, hread⟩ := bind_eq_ok.1 hread
        split at hread
        · cases hread
          refine ⟨h.index, h.waveSize, ?_, h.blocks⟩
          exact List.forall_mem_append.2 ⟨h.pendingVmem,
            List.forall_mem_singleton.2 (isValid_of_readRange hr)⟩
        · cases hread
      · cases hread
    · obtain ⟨i, hi, hread⟩ := bind_eq_ok.1 hread
      exact h.addInstruction (writable_of_readInstruction hi) hread

end Program.Writable

/-- Every program that a text stands for can be written. -/
lemma Program.writable_of_parse {t : String} {p : Program} (h : Program.parse t = .ok p) : p.Writable := by
  have hempty : Program.Writable {} :=
    ⟨fun n b hn => by simp at hn, .inr rfl, List.forall_mem_nil _, List.forall_mem_nil _⟩
  rw [Program.parse, readLines_eq_ok] at h
  exact foldlM_invariant Program.Writable (fun l _ _ _ hq hstep => hq.readLine hstep) hempty h

namespace Program

/-- A program whose parts all have names is written without a fault.  Its text is read as the program
itself, so that whatever is read from the text is written as the same text again.  Every program that
a text stands for is of this sort, and comes back once it is written out and read again. -/
theorem text_reads_back (p : Program) :
    (p.Writable → ∃ t, p.text = .ok t ∧ parse t = .ok p ∧ ∀ q, parse t = .ok q → q.text = .ok t)
      ∧ ∀ s, parse s = .ok p → p.Writable ∧ ∃ t, p.text = .ok t ∧ parse t = .ok p := by
  have hback : p.Writable → p.text = .ok (unlines p.lineTexts)
      ∧ parse (unlines p.lineTexts) = .ok p := fun h => ⟨h.text, h.parse_text⟩
  refine ⟨fun h => ?_, fun s hs => ?_⟩
  · obtain ⟨htext, hparse⟩ := hback h
    refine ⟨_, htext, hparse, fun q hq => ?_⟩
    rw [hparse] at hq
    cases hq
    exact htext
  · have h := writable_of_parse hs
    exact ⟨h, _, hback h⟩

/-- A loop with something of every sort that a text can hold. -/
def thicket : Program where
  config := { generation := .gfx11, waveSize := 32, wgpMode := true, numVgprs := 24 }
  pendingLds := true
  pendingVmem := [⟨.vgpr 0, 4⟩, ⟨.sgpr 126, 2⟩]
  blocks :=
    [{ index := 0
       kind := .ofList [.topLevel, .loopPreheader]
       instructions :=
        [⟨.sLoadDwordx4, [⟨.sgpr 4, 4⟩], [.reg ⟨.sgpr 0, 2⟩, .const 16],
            .smem { storage := {.buffer}, semantics := {.canReorder} }⟩,
          ⟨.sSendmsg, [], [], .sopp 3⟩,
          ⟨.sAndB64, [.exec, ⟨.sgpr 106, 1⟩], [.reg .exec, .undef], .salu⟩] },
      { index := 1
        kind := {.loopHeader}
        linearPreds := [0, 1]
        logicalPreds := [0, 1]
        loopDepth := 1
        instructions :=
        [.ofWait { Wait.none with lgkm := 0 },
          ⟨.dsAddRtnU32, [⟨.vgpr 7, 1⟩], [.reg ⟨.vgpr 5, 1⟩, .reg ⟨.vgpr 6, 1⟩],
            .ds { sync := ⟨{.shared}, .ofList [.atomic, .rmw], .workgroup⟩, offset0 := 256, gds := true }⟩,
          ⟨.flatLoadDword, [⟨.vgpr 8, 1⟩], [.reg ⟨.vgpr 2, 2⟩], .flat { mayUseLds := true }⟩,
          ⟨.pBarrier, [], [], .barrier ⟨⟨{.shared}, .acquireRelease, .workgroup⟩, .workgroup⟩⟩,
          .ofDependencyWait { DependencyWait.none with vaVdst := 0 },
          ⟨.exp, [], [.reg ⟨.vgpr 7, 1⟩, .undef, .undef, .undef], .exp ⟨12, 1, false⟩⟩] }]

/-- A text that is not as the printer would write it. -/
def scrawl : String :=
  unlines ["config gfx11 wave = 0x20 ; small waves", "", "\tpending_vmem v[5:5]",
    "block 0x0 depth=0 :", "v1=v_mov_b32 #0x10"]

/-- What `scrawl` stands for. -/
def scrawled : Program where
  config := { generation := .gfx11, waveSize := 32 }
  pendingVmem := [⟨.vgpr 5, 1⟩]
  blocks := [{ index := 0, instructions := [⟨.vMovB32, [⟨.vgpr 1, 1⟩], [.const 16], .valu⟩] }]

theorem text_reads_back_thicket :
    (thicket.Writable ∧ ∃ t, thicket.text = .ok t ∧ parse t = .ok thicket
        ∧ ∀ q, parse t = .ok q → q.text = .ok t)
      ∧ parse scrawl = .ok scrawled ∧ scrawled.Writable
        ∧ ∃ t, scrawled.text = .ok t ∧ parse t = .ok scrawled := by
  have hthicket : thicket.Writable := by decide +kernel
  have hscrawl : parse scrawl = .ok scrawled := by decide +kernel
  exact ⟨⟨hthicket, (text_reads_back thicket).1 hthicket⟩, hscrawl,
    (text_reads_back scrawled).2 scrawl hscrawl⟩

end Program

end GpuWaits
