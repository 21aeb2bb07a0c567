/-
# Lines that are read back

A program is written as a line for its configuration, lines for what is pending, and for every block
a header and the lines of its instructions.  Each sort of line is treated on its own here: what is
written has no line break in it, and reading it adds to the program what was written.
-/
import GpuWaits.Proofs.Arguments

namespace GpuWaits

open Token Reader Attribute

/-! ### Printouts without faults -/

namespace Printout

lemma ofString_append (a b : String) : ofString a ++ ofString b = ofString (a ++ b) := rfl

section

variable {ι : Type} {l : List ι} {f : ι → Printout} {g : ι → String}

lemma foldl_ofString (h : ∀ x ∈ l, f x = ofString (g x)) (before : String) :
    (l.map f).foldl (· ++ ·) (ofString before) = ofString (before ++ String.join (l.map g)) := by
  induction l generalizing before with
  | nil => exact congrArg ofString String.append_empty.symm
  | cons x l ih =>
    rw [List.map_cons, List.foldl_cons, h x List.mem_cons_self, ofString_append,
      ih fun y hy => h y (List.mem_cons_of_mem x hy), List.map_cons, String.join_cons,
      String.append_assoc]

lemma concat_ofString (h : ∀ x ∈ l, f x = ofString (g x)) :
    concat (l.map f) = ofString (String.join (l.map g)) :=
  (foldl_ofString h "").trans (congrArg ofString String.empty_append)

lemma separated_ofString (h : ∀ x ∈ l, f x = ofString (g x)) (divider : String) :
    separated divider (l.map f) = ofString (divider.intercalate (l.map g)) := by
  cases l with
  | nil => rfl
  | cons x l =>
    have hrest : ∀ y ∈ l, ofString divider ++ f y = ofString (divider ++ g y) := fun y hy => by
      rw [h y (List.mem_cons_of_mem x hy), ofString_append]
    show List.foldl (· ++ ·) (ofString "" ++ f x) ((l.map f).map fun p => ofString divider ++ p) = _
    rw [h x List.mem_cons_self, ofString_append, String.empty_append, List.map_map]
    refine (foldl_ofString hrest (g x)).trans ?_
    rw [List.map_cons, intercalate_cons, List.map_map]
    rfl

end

end Printout

/-! ### Instructions -/

namespace Instruction

variable {i : Instruction}

/-- Everything in the instruction can be written: its payload goes with its opcode and has nothing
without a name, and its registers form valid ranges. -/
structure Writable (i : Instruction) : Prop where
  coherent : i.isCoherent = true
  definitions : ∀ r ∈ i.definitions, r.isValid = true
  operands : ∀ op ∈ i.operands, op.isValid = true
  payload : i.payload.Writable

instance (i : Instruction) : Decidable i.Writable :=
  decidable_of_iff (i.isCoherent = true ∧ (∀ r ∈ i.definitions, r.isValid = true)
      ∧ (∀ op ∈ i.operands, op.isValid = true) ∧ i.payload.Writable)
    ⟨fun h => ⟨h.1, h.2.1, h.2.2.1, h.2.2.2⟩,
      fun h => ⟨h.coherent, h.definitions, h.operands, h.payload⟩⟩

/-- What stands behind the opcode. -/
def arguments (i : Instruction) : String :=
  (if i.operands.isEmpty then "" else " ") ++ ", ".intercalate (i.operands.map Operand.name)
    ++ textAll i.payload.attributes

/-- The line of an instruction without its indentation. -/
def line (i : Instruction) : String :=
  ", ".intercalate (i.definitions.map RegRange.name) ++ (if i.definitions.isEmpty then "" else " = ")
    ++ i.opcode.mnemonic ++ i.arguments

lemma Writable.printout (h : i.Writable) : i.printout = .ofString i.line := by
  have hdefinitions := Printout.separated_ofString (l := i.definitions)
    (f := fun d => .ofExcept d.text) (fun r hr => by rw [r.text_name (h.definitions r hr)]; rfl) ", "
  have hoperands := Printout.separated_ofString (l := i.operands)
    (f := fun op => .ofExcept op.text) (fun op hop => by rw [op.text_name (h.operands op hop)]; rfl) ", "
  have hpayload : i.payload.text = textAll i.payload.attributes := by
    refine Payload.text_eq fun w hw => ?_
    have := h.payload
    rwa [hw] at this
  rw [Instruction.printout, hdefinitions, hoperands, hpayload]
  simp only [Printout.ofString_append, line, arguments, String.append_assoc]

/-- The tokens behind the opcode. -/
def argumentTokens (i : Instruction) : List Token :=
  ofWords true (i.operands.map Operand.name) ++ i.payload.attributes.flatMap Attribute.tokens

lemma Writable.lexes_arguments (h : i.Writable) : Lexes i.arguments i.argumentTokens := by
  have hattributes := lexes_textAll (Payload.spelled h.payload)
  rw [arguments, argumentTokens]
  cases hops : i.operands with
  | nil => exact lexes_empty.append hattributes
  | cons op operands =>
    refine Lexes.append ?_ hattributes
    refine lexes_blank_words (List.cons_ne_nil _ _) (List.forall_mem_map.2 fun op' hop' => ?_)
    exact Operand.isWord_name (h.operands op' (hops ▸ hop'))

lemma Writable.readArguments (h : i.Writable) :
    Reader.readArguments [] [] i.argumentTokens = .ok (i.operands, i.payload.attributes) := by
  rw [argumentTokens, readArguments_operands h.operands (detached_attributes _),
    readArguments_attributes (Payload.spelled h.payload)]
  rfl

end Instruction

/-- The tokens of the definitions after the first one. -/
def definitionTokens (rs : List RegRange) : List Token :=
  rs.flatMap fun r => [⟨false, .sign ','⟩, ⟨true, .word r.name⟩]

lemma lexes_definitions {rs : List RegRange} (h : ∀ r ∈ rs, r.isValid = true) :
    Lexes (String.join ((rs.map RegRange.name).map (", " ++ ·))) (definitionTokens rs) := by
  induction rs with
  | nil => exact lexes_empty
  | cons r rs ih =>
    have hcomma : Lexes "," [⟨false, .sign ','⟩] := lexes_sign (by decide)
    have hname := lexes_blank_word (r.isWord_name (h r List.mem_cons_self))
    have hrest := ih fun r' hr' => h r' (List.mem_cons_of_mem r hr')
    rw [List.map_cons, List.map_cons, String.join_cons, show ", " = "," ++ " " from rfl,
      String.append_assoc]
    exact (hcomma.append hname).append hrest

/-- Definitions are read back up to the equals sign. -/
lemma readDefinitions_tokens {r : RegRange} {rs : List RegRange} (h : ∀ r' ∈ r :: rs, r'.isValid = true)
    (rest : List Token) :
    readDefinitions r.name (definitionTokens rs ++ ⟨true, .sign '='⟩ :: rest) = .ok (r :: rs, rest) := by
  induction rs generalizing r with
  | nil =>
    refine bind_eq_ok.2 ⟨r, readRange_name (h r List.mem_cons_self), rfl⟩
  | cons r' rs ih =>
    refine bind_eq_ok.2 ⟨r, readRange_name (h r List.mem_cons_self), ?_⟩
    exact bind_eq_ok.2 ⟨_, ih fun x hx => h x (List.mem_cons_of_mem r hx), rfl⟩

lemma not_detached_definitions (rs : List RegRange) (rest : List Token) :
    ¬ Detached (definitionTokens rs ++ ⟨true, .sign '='⟩ :: rest) := by
  intro h
  cases rs with
  | nil => exact (h _ rfl).2 rfl
  | cons r rs => exact (h _ rfl).1 rfl

namespace Instruction

variable {i : Instruction}

/-- An instruction whose definitions and opcode have been cut off. -/
def readBody (definitions : List RegRange) (word : String) (tokens : List Token) :
    Result Instruction := do
  let some opcode := Opcode.ofMnemonic? word | throw (.unknownOpcode word)
  let (operands, attributes) ← Reader.readArguments [] [] tokens
  match ← readPayload opcode attributes with
  | (payload, []) => return { opcode, definitions, operands, payload }
  | (_, a :: _) => throw (.unexpectedAttribute a.key opcode)

lemma readInstruction_of_body {word : String} {tokens : List Token} (h : Detached tokens) :
    readInstruction word tokens = readBody [] word tokens := by
  rw [readInstruction]
  · rfl
  · rintro spaced rest rfl
    exact (h _ rfl).1 rfl
  · rintro spaced rest rfl
    exact (h _ rfl).2 rfl

/-- The definitions, if there are some, end with an equals sign, and the opcode comes next. -/
lemma readInstruction_of_definitions {word : String} {tokens : List Token} (h : ¬ Detached tokens) :
    readInstruction word tokens = readDefinitions word tokens >>= fun
      | (definitions, ⟨_, .word opcode⟩ :: rest) => readBody definitions opcode rest
      | _ => throw .expectedWord := by
  obtain ⟨t, ht, hsign⟩ : ∃ t ∈ tokens.head?, t.lexeme = .sign ',' ∨ t.lexeme = .sign '=' := by
    simpa only [Detached, not_forall, not_and_or, not_not, exists_prop] using h
  obtain ⟨spaced, lexeme⟩ := t
  obtain ⟨rest, rfl⟩ : ∃ rest, tokens = ⟨spaced, lexeme⟩ :: rest := by
    cases tokens with
    | nil => cases ht
    | cons t rest => exact ⟨rest, by rw [Option.some.inj ht]⟩
  simp only at hsign
  rcases hsign with rfl | rfl <;>
  · unfold readInstruction
    cases readDefinitions word _ with
    | error cause => rfl
    | ok result =>
      obtain ⟨definitions, tokens⟩ := result
      match tokens with
      | [] | ⟨_, .word _⟩ :: _ | ⟨_, .sign _⟩ :: _ => rfl

/-- An instruction is read back from its opcode and arguments. -/
lemma Writable.readBody (h : i.Writable) :
    readBody i.definitions i.opcode.mnemonic i.argumentTokens = .ok i := by
  rw [Instruction.readBody, Opcode.ofMnemonic?_mnemonic]
  refine bind_eq_ok.2 ⟨_, h.readArguments, ?_⟩
  exact bind_eq_ok.2 ⟨_, readPayload_attributes h.coherent h.payload, rfl⟩

lemma detached_argumentTokens (i : Instruction) : Detached i.argumentTokens := by
  rw [argumentTokens]
  match i.operands.map Operand.name with
  | [] => exact detached_attributes _
  | [w] => exact detached_word true w _
  | w :: v :: ws => exact detached_word true w _

/-- The line of an instruction is cut into a word and tokens from which the instruction is read
back. -/
lemma Writable.exists_line (h : i.Writable) : ∃ word text tokens,
    i.line = word ++ text ∧ IsWord word ∧ Lexes text tokens ∧ word ≠ "block"
      ∧ readInstruction word tokens = .ok i := by
  have harguments := h.lexes_arguments
  have hbody := h.readBody
  cases hdef : i.definitions with
  | nil =>
    refine ⟨i.opcode.mnemonic, i.arguments, i.argumentTokens, ?_, i.opcode.isWord_mnemonic, harguments,
      i.opcode.mnemonic_ne_block, ?_⟩
    · rw [line, hdef]
      show "" ++ "" ++ i.opcode.mnemonic ++ i.arguments = _
      rw [String.empty_append, String.empty_append]
    · rw [readInstruction_of_body i.detached_argumentTokens, ← hdef, hbody]
  | cons r rs =>
    have hvalid : ∀ r' ∈ r :: rs, r'.isValid = true := hdef ▸ h.definitions
    have hequals : Lexes " =" [⟨true, .sign '='⟩] := lexes_blank_sign (by decide)
    have hrest := (lexes_definitions fun r' hr' => hvalid r' (List.mem_cons_of_mem r hr')).append
      (hequals.append ((lexes_blank_word i.opcode.isWord_mnemonic).append harguments))
    refine ⟨r.name, _, _, ?_, r.isWord_name (hvalid r List.mem_cons_self), hrest, ?_, ?_⟩
    · rw [line, hdef, List.map_cons, intercalate_cons]
      show _ ++ (" =" ++ " ") ++ _ ++ _ = _
      simp only [String.append_assoc]
    · -- a line that starts with a definition is not taken for the head of a block
      intro hblock
      obtain ⟨c, hc, hhead⟩ := r.head_name (hvalid r List.mem_cons_self)
      rw [hblock] at hhead
      obtain rfl : 'b' = c := Option.some.inj hhead
      exact absurd hc (by decide)
    · rw [List.singleton_append, List.singleton_append,
        readInstruction_of_definitions (not_detached_definitions rs _)]
      refine bind_eq_ok.2 ⟨_, readDefinitions_tokens hvalid _, ?_⟩
      rw [← hdef]
      exact hbody

end Instruction

/-! ### Blocks -/

/-- The numbers of blocks in a list. -/
def numerals (ns : List UInt32) : List String := ns.map fun n => toString n.toNat

lemma isWord_of_mem_numerals {ns : List UInt32} {w : String} (h : w ∈ numerals ns) : IsWord w := by
  obtain ⟨n, -, rfl⟩ := List.mem_map.1 h
  exact (Number.writes_toString _).isWord

/-- A list of block numbers is read back up to its end. -/
lemma readNumbers_numerals {ns : List UInt32} (hne : ns ≠ []) {rest : List Token} (hrest : Detached rest) :
    ∃ hlt, readNumbers (ofWords false (numerals ns) ++ rest) = .ok (ns, ⟨rest, hlt⟩) := by
  induction ns with
  | nil => exact absurd rfl hne
  | cons n ns ih =>
    have hn := readWord32_of_writes (Number.writes_toString n.toNat)
    cases ns with
    | nil =>
      refine ⟨Nat.lt_succ_self _, ?_⟩
      show readNumbers (⟨false, .word (toString n.toNat)⟩ :: rest) = _
      rw [readNumbers]
      · exact bind_eq_ok.2 ⟨n, hn, rfl⟩
      · rintro tokens rfl
        exact (hrest _ rfl).1 rfl
    | cons m ns =>
      obtain ⟨hlt, hread⟩ := ih (List.cons_ne_nil m ns)
      refine ⟨Nat.lt_succ_of_lt (Nat.lt_succ_of_lt hlt), ?_⟩
      show readNumbers (⟨false, .word (toString n.toNat)⟩ :: ⟨false, .sign ','⟩
        :: (ofWords false (numerals (m :: ns)) ++ rest)) = _
      rw [readNumbers]
      refine bind_eq_ok.2 ⟨n, hn, ?_⟩
      exact bind_eq_ok.2 ⟨_, hread, rfl⟩

namespace Block

/-- The attributes of a block; what has its default value is left out. -/
def attributes (b : Block) : List Attribute :=
  (if b.kind.isEmpty then [] else [⟨"kind", some b.kind.labels⟩])
    ++ ((if b.linearPreds.isEmpty then [] else [⟨"preds", some (numerals b.linearPreds)⟩])
    ++ ((if b.logicalPreds.isEmpty then [] else [⟨"logical", some (numerals b.logicalPreds)⟩])
    ++ (if b.loopDepth = 0 then [] else [ofWord "depth" (toString b.loopDepth.toNat)])))

lemma predsAttribute_eq (key : String) (preds : List UInt32) :
    predsAttribute key preds
      = textAll (if preds.isEmpty then [] else [⟨key, some (numerals preds)⟩]) := by
  rw [predsAttribute, apply_ite textAll, textAll_nil, textAll_singleton]
  congr 1
  exact String.append_assoc

lemma header_eq (b : Block) :
    b.header = "block" ++ (" " ++ toString b.index.toNat ++ textAll b.attributes ++ ":") := by
  rw [header, attributes, textAll_append, textAll_append, textAll_append, ← predsAttribute_eq,
    ← predsAttribute_eq]
  simp only [apply_ite textAll, textAll_nil, textAll_singleton, text_ofWord, ← Flags.text_attribute,
    ← String.append_assoc]
  rfl

/-- Everything in the block can be written. -/
structure Writable (b : Block) : Prop where
  kind : b.kind.IsNamed
  instructions : ∀ i ∈ b.instructions, i.Writable

instance (b : Block) : Decidable b.Writable :=
  decidable_of_iff (b.kind.IsNamed ∧ ∀ i ∈ b.instructions, i.Writable)
    ⟨fun h => ⟨h.1, h.2⟩, fun h => ⟨h.kind, h.instructions⟩⟩

lemma Writable.spelled {b : Block} (h : b.kind.IsNamed) : ∀ a ∈ b.attributes, a.Spelled [] := by
  rw [attributes, List.forall_mem_append, List.forall_mem_append, List.forall_mem_append]
  refine ⟨forall_mem_unless fun hne => ?_, forall_mem_unless fun hne => ?_,
    forall_mem_unless fun hne => ?_, forall_mem_unless fun _ => ?_⟩
  · exact spelled_words isWord_ofList (labels_ne_nil h (by simpa using hne))
      fun _ hw => isWord_of_mem_labels hw
  · exact spelled_words isWord_ofList (by simpa [numerals] using hne)
      fun _ hw => isWord_of_mem_numerals hw
  · exact spelled_words isWord_ofList (by simpa [numerals] using hne)
      fun _ hw => isWord_of_mem_numerals hw
  · exact spelled_ofWord isWord_ofList (Number.writes_toString _).isWord

end Block

/-! The attributes of a block are read one after the other, each of them into its own field. -/

section BlockAttributes

variable {rest : List Token} (hrest : Detached rest) (b : Block)

include hrest

lemma readBlockAttributes_kind {kind : BlockKind} (hkind : kind.IsNamed) (hb : b.kind = ∅) :
    readBlockAttributes b
      (List.flatMap tokens (if kind.isEmpty then [] else [⟨"kind", some kind.labels⟩]) ++ rest)
      = readBlockAttributes { b with kind } rest := by
  split
  case isTrue h =>
    rw [Flags.eq_empty_of_isEmpty h, ← hb]
    rfl
  case isFalse h =>
    obtain ⟨hlt, hread⟩ := readWords_ofWords (labels_ne_nil hkind (by simpa using h)) hrest
    show readBlockAttributes b
      (⟨true, .word "kind"⟩ :: ⟨false, .sign '='⟩ :: (ofWords false kind.labels ++ [] ++ rest)) = _
    rw [List.append_nil, readBlockAttributes, hread]
    simp only [readFlags_labels hkind]

/-- Predecessors of either sort are read into the list that the key names. -/
lemma readBlockAttributes_preds {key : String} {set : List UInt32 → Block}
    (hkey : (key = "preds" ∧ set = fun ns => { b with linearPreds := ns })
      ∨ key = "logical" ∧ set = fun ns => { b with logicalPreds := ns })
    (preds : List UInt32) (hb : set [] = b) :
    readBlockAttributes b
      (List.flatMap tokens (if preds.isEmpty then [] else [⟨key, some (numerals preds)⟩]) ++ rest)
      = readBlockAttributes (set preds) rest := by
  split
  case isTrue h =>
    rw [List.isEmpty_iff.1 h, hb]
    rfl
  case isFalse h =>
    obtain ⟨hlt, hread⟩ := readNumbers_numerals (fun hnil => h (List.isEmpty_iff.2 hnil)) hrest
    show readBlockAttributes b
      (⟨true, .word key⟩ :: ⟨false, .sign '='⟩ :: (ofWords false (numerals preds) ++ [] ++ rest)) = _
    rcases hkey with ⟨rfl, rfl⟩ | ⟨rfl, rfl⟩ <;> rw [List.append_nil, readBlockAttributes, hread]

omit hrest in
lemma readBlockAttributes_depth (loopDepth : UInt32) (hb : b.loopDepth = 0) :
    readBlockAttributes b
      (List.flatMap tokens (if loopDepth = 0 then [] else [ofWord "depth" (toString loopDepth.toNat)])
        ++ rest)
      = readBlockAttributes { b with loopDepth } rest := by
  split
  case isTrue h =>
    rw [h, ← hb]
    rfl
  case isFalse h =>
    have hdepth := readWord32_of_writes (Number.writes_toString loopDepth.toNat)
    show readBlockAttributes b
      (⟨true, .word "depth"⟩ :: ⟨false, .sign '='⟩ :: ⟨false, .word (toString loopDepth.toNat)⟩ :: rest) = _
    rw [readBlockAttributes, hdepth]

end BlockAttributes

lemma detached_colon : Detached [⟨false, .sign ':'⟩] := by
  rintro t ht
  obtain rfl := Option.some.inj ht
  exact ⟨by decide, by decide⟩

/-- A block without its instructions is read back from the attributes of its header. -/
lemma readBlockAttributes_attributes {b : Block} (h : b.kind.IsNamed) :
    readBlockAttributes { index := b.index } (b.attributes.flatMap tokens ++ [⟨false, .sign ':'⟩])
      = .ok { b with instructions := [] } := by
  simp only [Block.attributes, List.flatMap_append, List.append_assoc]
  rw [readBlockAttributes_kind _ _ h rfl, readBlockAttributes_preds _ _ (.inl ⟨rfl, rfl⟩) _ rfl,
    readBlockAttributes_preds _ _ (.inr ⟨rfl, rfl⟩) _ rfl, readBlockAttributes_depth _ _ rfl,
    readBlockAttributes]
  · exact detached_colon.attributes_append _
  · exact (detached_colon.attributes_append _).attributes_append _
  · exact ((detached_colon.attributes_append _).attributes_append _).attributes_append _

/-- The line that opens a block is read back. -/
lemma readBlock_header {b : Block} (h : b.kind.IsNamed) {count : Nat} (hcount : b.index.toNat = count) :
    ∃ text tokens, b.header = "block" ++ text ∧ Lexes text tokens
      ∧ readBlock count tokens = .ok { b with instructions := [] } := by
  have hnumber := Number.writes_toString b.index.toNat
  have hcolon : Lexes ":" [⟨false, .sign ':'⟩] := lexes_sign (by decide)
  refine ⟨_, _, b.header_eq, ((lexes_blank_word hnumber.isWord).append
    (lexes_textAll (Block.Writable.spelled h))).append hcolon, ?_⟩
  rw [List.append_assoc, List.singleton_append]
  refine bind_eq_ok.2 ⟨b.index, readWord32_of_writes hnumber, ?_⟩
  rw [if_neg (not_not.2 hcount)]
  exact readBlockAttributes_attributes h

/-! ### The configuration -/

namespace Config

/-- The entries of a configuration. -/
def attributes (c : Config) : List Attribute :=
  [ofWord "wave" (toString c.waveSize.toNat), ofWord "workgroup" (toString c.workgroupSize.toNat)]
    ++ (if c.wgpMode then [⟨"wgp", none⟩] else [])
    ++ (if c.sramEcc then [⟨"sram_ecc", none⟩] else [])
    ++ [ofWord "vgprs" (toString c.numVgprs.toNat),
      ofWord "physical_vgprs" (toString c.physicalVgprs.toNat),
      ofWord "max_waves" (toString c.maxWavesPerSimd.toNat)]

lemma text_eq (c : Config) :
    c.text = "config" ++ (" " ++ c.generation.name ++ textAll c.attributes) := by
  have hkey : ∀ key start word : String, " " ++ key ++ "=" = start →
      (ofWord key word).text = start ++ word := fun key start word h => by rw [text_ofWord, h]
  have hlist : ∀ (a : Attribute) (as : List Attribute), textAll (a :: as) = a.text ++ textAll as :=
    fun a as => by rw [textAll, List.map_cons, String.join_cons, textAll]
  rw [attributes, textAll_append, textAll_append, textAll_append]
  simp only [apply_ite textAll, hlist, textAll_nil, String.append_empty,
    hkey "wave" " wave=" _ rfl, hkey "workgroup" " workgroup=" _ rfl, hkey "vgprs" " vgprs=" _ rfl,
    hkey "physical_vgprs" " physical_vgprs=" _ rfl, hkey "max_waves" " max_waves=" _ rfl]
  show "config " ++ c.generation.name ++ " wave=" ++ toString c.waveSize.toNat ++ " workgroup="
      ++ toString c.workgroupSize.toNat ++ (if c.wgpMode then " wgp" else "")
      ++ (if c.sramEcc then " sram_ecc" else "") ++ (" vgprs=" ++ toString c.numVgprs.toNat
      ++ " physical_vgprs=" ++ toString c.physicalVgprs.toNat)
      ++ (" max_waves=" ++ toString c.maxWavesPerSimd.toNat) = _
  rw [show "config " = "config" ++ " " from rfl]
  simp only [String.append_assoc]
  rfl

lemma spelled (c : Config) : ∀ a ∈ c.attributes, a.Spelled ["wgp", "sram_ecc"] := by
  have hnumber : ∀ {key : String} (n : Nat), IsWord key →
      (ofWord key (toString n)).Spelled ["wgp", "sram_ecc"] :=
    fun n hkey => spelled_ofWord hkey (Number.writes_toString n).isWord
  rw [attributes, List.forall_mem_append, List.forall_mem_append, List.forall_mem_append]
  simp only [List.forall_mem_cons]
  refine ⟨⟨⟨⟨hnumber _ ?_, hnumber _ ?_, List.forall_mem_nil _⟩, forall_mem_when ?_⟩, forall_mem_when ?_⟩,
    hnumber _ ?_, hnumber _ ?_, hnumber _ ?_, List.forall_mem_nil _⟩
  · exact isWord_ofList
  · exact isWord_ofList
  · exact spelled_flag isWord_ofList (by decide)
  · exact spelled_flag isWord_ofList (by decide)
  · exact isWord_ofList
  · exact isWord_ofList
  · exact isWord_ofList

end Config

lemma readConfigEntries_key (c : Config) {key : String} (hkey : key ∉ ["wgp", "sram_ecc"]) (n : UInt32)
    (rest : List Token) :
    readConfigEntries c ((ofWord key (toString n.toNat)).tokens ++ rest)
      = setKey c key n >>= (readConfigEntries · rest) := by
  have hn := readWord32_of_writes (Number.writes_toString n.toNat)
  simp only [List.mem_cons, List.not_mem_nil, or_false, not_or] at hkey
  show readConfigEntries c (⟨true, .word key⟩ :: ⟨false, .sign '='⟩
    :: ⟨false, .word (toString n.toNat)⟩ :: rest) = _
  rw [readConfigEntries, hn]
  · rfl
  · exact hkey.1
  · exact hkey.2

/-- A configuration is read back from its entries. -/
lemma readConfigEntries_attributes {c : Config} (h : c.waveSize = 32 ∨ c.waveSize = 64) :
    readConfigEntries { generation := c.generation } (c.attributes.flatMap tokens) = .ok c := by
  have hwgp : ∀ (c : Config) (b : Bool) (rest : List Token), c.wgpMode = false →
      readConfigEntries c (List.flatMap tokens (if b then [⟨"wgp", none⟩] else []) ++ rest)
        = readConfigEntries { c with wgpMode := b } rest := by
    rintro c (_ | _) rest hc
    · cases c
      subst hc
      rfl
    · rfl
  have hecc : ∀ (c : Config) (b : Bool) (rest : List Token), c.sramEcc = false →
      readConfigEntries c (List.flatMap tokens (if b then [⟨"sram_ecc", none⟩] else []) ++ rest)
        = readConfigEntries { c with sramEcc := b } rest := by
    rintro c (_ | _) rest hc
    · cases c
      subst hc
      rfl
    · rfl
  simp only [Config.attributes, List.flatMap_append, List.flatMap_cons, List.flatMap_nil,
    List.append_assoc, List.nil_append]
  rw [readConfigEntries_key _ (by decide)]
  show readConfigEntries _ (_ ++ _) = _
  rw [readConfigEntries_key _ (by decide)]
  show readConfigEntries _ (_ ++ _) = _
  rw [hwgp _ _ _ rfl, hecc _ _ _ rfl, readConfigEntries_key _ (by decide)]
  show readConfigEntries _ (_ ++ _) = _
  rw [readConfigEntries_key _ (by decide)]
  show readConfigEntries _ (_ ++ _) = _
  rw [readConfigEntries_key _ (by decide)]
  exact if_pos h

/-- The line with the configuration is read back. -/
lemma readConfig_text {c : Config} (h : c.waveSize = 32 ∨ c.waveSize = 64) :
    ∃ text tokens, c.text = "config" ++ text ∧ Lexes text tokens ∧ readConfig tokens = .ok c := by
  refine ⟨_, _, c.text_eq, (lexes_blank_word c.generation.isWord_name).append (lexes_textAll c.spelled), ?_⟩
  rw [List.singleton_append, readConfig, Generation.ofName?_name]
  exact readConfigEntries_attributes h

end GpuWaits
