/-
# Instructions that are read back

After its opcode an instruction lists its operands and then attributes: flags, and keys with values.
The reader first cuts this into operands and attributes, and then hands the attributes to the payload
that the opcode calls for.  Both steps are undone here.  The attributes that a payload writes are
given as data (`Payload.attributes`), so that its text is theirs one after the other, and reading the
payload is a statement about lists of attributes and not about text.
-/
import GpuWaits.Proofs.Reading

namespace GpuWaits

open Token Reader

/-! ### Attributes -/

namespace Reader.Attribute

/-- The text of an attribute. -/
def text (a : Attribute) : String :=
  match a.value? with
  | none => " " ++ a.key
  | some words => " " ++ a.key ++ ("=" ++ ",".intercalate words)

/-- The tokens of an attribute. -/
def tokens (a : Attribute) : List Token :=
  match a.value? with
  | none => [⟨true, .word a.key⟩]
  | some words => ⟨true, .word a.key⟩ :: ⟨false, .sign '='⟩ :: ofWords false words

/-- The attribute is made of words, and if it has no value then it is one of the given flags. -/
structure Spelled (flags : List String) (a : Attribute) : Prop where
  key : IsWord a.key
  words : ∀ words, a.value? = some words → words ≠ [] ∧ ∀ w ∈ words, IsWord w
  flag : a.value? = none → flags.contains a.key = true

variable {flags : List String}

lemma spelled_flag {key : String} (hword : IsWord key) (hflag : flags.contains key = true) :
    Spelled flags ⟨key, none⟩ :=
  ⟨hword, fun _ h => (nomatch h), fun _ => hflag⟩

lemma spelled_words {key : String} {words : List String} (hword : IsWord key) (hne : words ≠ [])
    (hwords : ∀ w ∈ words, IsWord w) : Spelled flags ⟨key, some words⟩ :=
  ⟨hword, fun _ h => Option.some.inj h ▸ ⟨hne, hwords⟩, fun h => (nomatch h)⟩

lemma Spelled.lexes {a : Attribute} (h : a.Spelled flags) : Lexes a.text a.tokens := by
  rw [text, tokens]
  split
  next => exact lexes_blank_word h.key
  next words hvalue =>
    obtain ⟨hne, hwords⟩ := h.words words hvalue
    exact (lexes_blank_word h.key).append (lexes_sign_words (by decide) hne hwords)

/-- The text of a list of attributes. -/
def textAll (as : List Attribute) : String := String.join (as.map text)

lemma lexes_textAll {as : List Attribute} (h : ∀ a ∈ as, a.Spelled flags) :
    Lexes (textAll as) (as.flatMap tokens) := by
  induction as with
  | nil => exact lexes_empty
  | cons a as ih =>
    rw [textAll, List.map_cons, String.join_cons, List.flatMap_cons]
    exact (h a List.mem_cons_self).lexes.append (ih fun b hb => h b (List.mem_cons_of_mem a hb))

end Reader.Attribute

/-- The tokens neither go on with a list of words nor give the word before them a value. -/
def Detached (tokens : List Token) : Prop :=
  ∀ t ∈ tokens.head?, t.lexeme ≠ .sign ',' ∧ t.lexeme ≠ .sign '='

lemma detached_nil : Detached [] := fun _ h => by cases h

lemma detached_word (spaced : Bool) (w : String) (tokens : List Token) :
    Detached (⟨spaced, .word w⟩ :: tokens) := by
  rintro t ht
  obtain rfl := Option.some.inj ht
  exact ⟨Lexeme.noConfusion, Lexeme.noConfusion⟩

lemma Detached.attributes_append {rest : List Token} (h : Detached rest) (as : List Attribute) :
    Detached (as.flatMap Attribute.tokens ++ rest) := by
  cases as with
  | nil => exact h
  | cons a as =>
    rw [List.flatMap_cons, Attribute.tokens]
    split <;> exact detached_word _ _ _

lemma detached_attributes (as : List Attribute) : Detached (as.flatMap Attribute.tokens) := by
  rw [← List.append_nil (List.flatMap _ _)]
  exact detached_nil.attributes_append as

/-- A list of words is read back up to its end. -/
lemma readWords_ofWords {words : List String} (hne : words ≠ []) {rest : List Token}
    (hrest : Detached rest) :
    ∃ hlt, readWords (ofWords false words ++ rest) = .ok (words, ⟨rest, hlt⟩) := by
  induction words with
  | nil => exact absurd rfl hne
  | cons w words ih =>
    cases words with
    | nil =>
      refine ⟨Nat.lt_succ_self _, ?_⟩
      show readWords (⟨false, .word w⟩ :: rest) = _
      rw [readWords]
      · rfl
      · rintro tokens rfl
        exact (hrest _ rfl).1 rfl
    | cons v words =>
      obtain ⟨hlt, hread⟩ := ih (List.cons_ne_nil v words)
      refine ⟨Nat.lt_succ_of_lt (Nat.lt_succ_of_lt hlt), ?_⟩
      show readWords (⟨false, .word w⟩ :: ⟨false, .sign ','⟩ :: (ofWords false (v :: words) ++ rest)) = _
      rw [readWords, hread]
      rfl

/-- A list of attributes is read back to its end. -/
lemma readArguments_attributes {as : List Attribute} (has : ∀ a ∈ as, a.Spelled flagWords)
    (operands : List Operand) (before : List Attribute) :
    readArguments operands before (as.flatMap Attribute.tokens) = .ok (operands, before ++ as) := by
  induction as generalizing before with
  | nil => rw [List.flatMap_nil, readArguments, List.append_nil]
  | cons a as ih =>
    have hrest := ih (fun b hb => has b (List.mem_cons_of_mem a hb)) (before ++ [a])
    have ha := has a List.mem_cons_self
    obtain ⟨key, value?⟩ := a
    rw [List.append_assoc, List.singleton_append] at hrest
    rw [List.flatMap_cons]
    cases value? with
    | none =>
      have hflag := ha.flag rfl
      show readArguments operands before (⟨true, .word key⟩ :: as.flatMap Attribute.tokens) = _
      rw [readArguments, hflag, Bool.or_true, if_pos rfl]
      · exact hrest
      · -- the next attribute starts with its key, so it cannot be taken for a value of the flag
        rintro tokens heq
        exact (detached_attributes as _ (by rw [heq]; rfl)).2 rfl
    | some words =>
      obtain ⟨hlt, hread⟩ := readWords_ofWords (ha.words words rfl).1 (detached_attributes as)
      show readArguments operands before
        (⟨true, .word key⟩ :: ⟨false, .sign '='⟩ :: (ofWords false words ++ _)) = _
      rw [readArguments, hread]
      exact hrest

lemma skipComma_of_detached {tokens : List Token} (h : Detached tokens) : skipComma tokens = tokens := by
  rw [skipComma]
  rintro spaced rest rfl
  exact (h _ rfl).1 rfl

/-- An operand is read back if no equals sign follows it. -/
lemma readArguments_operand {op : Operand} (hop : op.isValid = true) {tokens : List Token}
    (htokens : ∀ rest, tokens ≠ ⟨false, .sign '='⟩ :: rest) (before : List Operand) (spaced : Bool) :
    readArguments before [] (⟨spaced, .word op.name⟩ :: tokens)
      = readArguments (before ++ [op]) [] (skipComma tokens) := by
  rw [readArguments, Operand.contains_flagWords hop, readOperand_name hop]
  · rfl
  · exact htokens

/-- Operands are read back up to the attributes. -/
lemma readArguments_operands {operands : List Operand} (h : ∀ op ∈ operands, op.isValid = true)
    {rest : List Token} (hrest : Detached rest) (before : List Operand) :
    readArguments before [] (ofWords true (operands.map Operand.name) ++ rest)
      = readArguments (before ++ operands) [] rest := by
  induction operands generalizing before with
  | nil => rw [List.append_nil]; rfl
  | cons op operands ih =>
    have hop := h op List.mem_cons_self
    cases operands with
    | nil =>
      show readArguments before [] (⟨true, .word op.name⟩ :: rest) = _
      rw [readArguments_operand hop _ before true, skipComma_of_detached hrest]
      rintro tokens rfl
      exact (hrest _ rfl).2 rfl
    | cons next operands =>
      have hread := ih (fun op' hop' => h op' (List.mem_cons_of_mem op hop')) (before ++ [op])
      rw [List.append_assoc, List.singleton_append] at hread
      rw [← hread]
      refine readArguments_operand hop ?_ before true
      rintro tokens heq
      exact absurd (List.cons.inj heq).1 (by decide)

/-! ### What payloads write -/

namespace Reader.Attribute

/-- A key with a single word as its value. -/
def ofWord (key word : String) : Attribute := ⟨key, some [word]⟩

lemma text_ofWord (key word : String) : (ofWord key word).text = " " ++ key ++ "=" ++ word := by
  show " " ++ key ++ ("=" ++ ",".intercalate [word]) = _
  rw [String.intercalate_singleton, ← String.append_assoc]

lemma spelled_ofWord {key word : String} (hkey : IsWord key) (hword : IsWord word) :
    (ofWord key word).Spelled flags :=
  spelled_words hkey (List.cons_ne_nil _ _) (List.forall_mem_singleton.2 hword)

lemma textAll_nil : textAll [] = "" := rfl

lemma textAll_singleton (a : Attribute) : textAll [a] = a.text := by
  rw [textAll, List.map_singleton, String.join_cons, String.join_nil, String.append_empty]

lemma textAll_append (as bs : List Attribute) : textAll (as ++ bs) = textAll as ++ textAll bs := by
  rw [textAll, List.map_append, String.join_append, textAll, textAll]

end Reader.Attribute

open Attribute

/-- The attributes of an access; what has its default value is left out. -/
def Sync.attributes (s : Sync) : List Attribute :=
  (if s.storage.isEmpty then [] else [⟨"storage", some s.storage.labels⟩])
    ++ (if s.semantics.isEmpty then [] else [⟨"semantics", some s.semantics.labels⟩])
    ++ (if s.scope = .invocation then [] else [ofWord "scope" s.scope.name])

/-- The attributes of an instruction. -/
def Payload.attributes : Payload → List Attribute
  | .salu | .valu => []
  | .sopp imm => if imm = 0 then [] else [ofWord "imm" (toString imm.toNat)]
  | .interp waitExp => [ofWord "wait_exp" (toString waitExp.toNat)]
  | .smem sync | .ldsDir sync | .vmem sync => sync.attributes
  | .ds access =>
    access.sync.attributes
      ++ (if access.gds then [⟨"gds", none⟩] else [])
      ++ (if access.offset0 = 0 then [] else [ofWord "offset0" (toString access.offset0.toNat)])
      ++ (if access.offset1 = 0 then [] else [ofWord "offset1" (toString access.offset1.toNat)])
  | .exp data =>
    [ofWord "dest" (toString data.dest.toNat), ofWord "en" (Number.hex data.enabled.toNat)]
      ++ (if data.compressed then [⟨"compr", none⟩] else [])
  | .flat access => access.sync.attributes ++ (if access.mayUseLds then [⟨"lds", none⟩] else [])
  | .barrier request =>
    request.sync.attributes
      ++ (if request.execScope = .invocation then []
        else [ofWord "exec_scope" request.execScope.name])
  | .wait w => w.targets.map fun x => ofWord x.1.name (toString x.2.toNat)
  | .dependencyWait w =>
    (Dependency.all.filter fun d => (w.get d).toNat < d.limit).map fun d =>
      ofWord d.name (toString (w.get d).toNat)

lemma Flags.text_attribute {α : Type} [Flag α] {w : Nat} (key : String) (s : Flags α w) :
    s.attribute key = Attribute.text ⟨key, some s.labels⟩ :=
  String.append_assoc

lemma Sync.text_eq (s : Sync) : s.text = textAll s.attributes := by
  rw [text, attributes, textAll_append, textAll_append]
  simp only [apply_ite textAll, textAll_nil, textAll_singleton, text_ofWord, ← Flags.text_attribute]
  rfl

/-- The text of targets, each with its name. -/
lemma textAll_targets {ι : Type} (name value : ι → String) (l : List ι) :
    textAll (l.map fun x => ofWord (name x) (value x))
      = if l.isEmpty then "" else " " ++ " ".intercalate (l.map fun x => name x ++ "=" ++ value x) := by
  cases l with
  | nil => rfl
  | cons x l =>
    have htext : ∀ y, (ofWord (name y) (value y)).text = " " ++ (name y ++ "=" ++ value y) := fun y => by
      simp only [text_ofWord, String.append_assoc]
    rw [List.isEmpty_cons, if_neg Bool.false_ne_true, List.map_cons, List.map_cons, intercalate_cons,
      textAll, List.map_cons, String.join_cons, List.map_map, List.map_map, htext, String.append_assoc]
    congr 3
    exact List.map_congr_left fun y _ => htext y

lemma Wait.isEmpty_targets (w : Wait) : w.targets.isEmpty = w.isNone := by
  rw [Bool.eq_iff_iff, isNone_iff, List.isEmpty_iff, targets, List.map_eq_nil_iff,
    List.filter_eq_nil_iff]
  constructor
  · intro h
    refine ext_get fun c => ?_
    have hc := h c c.mem_all
    simpa [isSet] using hc
  · rintro rfl c -
    simp [isSet]

lemma DependencyWait.Fits.isNone_iff {w : DependencyWait} (h : w.Fits) :
    w.isNone = true ↔ Dependency.all.filter (fun d => (w.get d).toNat < d.limit) = [] := by
  rw [isNone, beq_iff_eq, List.filter_eq_nil_iff]
  constructor
  · rintro rfl d -
    simp [toNat_get_none]
  · intro hnone
    refine ext_get fun d => UInt8.toNat_inj.1 ?_
    have hle := h d
    have hge := hnone d d.mem_all
    rw [decide_eq_true_eq] at hge
    rw [toNat_get_none]
    omega

/-- What a payload writes are its attributes. -/
lemma Payload.text_eq {payload : Payload} (h : ∀ w, payload = .dependencyWait w → w.Fits) :
    payload.text = textAll payload.attributes := by
  cases payload with
  | salu | valu => rfl
  | sopp imm =>
    rw [text, attributes, apply_ite textAll, textAll_nil, textAll_singleton, text_ofWord]
    rfl
  | interp waitExp =>
    rw [text, attributes, textAll_singleton, text_ofWord]
    rfl
  | smem sync | ldsDir sync | vmem sync => exact sync.text_eq
  | ds access =>
    rw [text, attributes, textAll_append, textAll_append, textAll_append, ← Sync.text_eq]
    simp only [apply_ite textAll, textAll_nil, textAll_singleton, text_ofWord]
    rfl
  | exp data =>
    have hpair : ∀ a b : Attribute, textAll [a, b] = a.text ++ b.text := fun a b => by
      rw [← textAll_singleton a, ← textAll_singleton b, ← textAll_append]
      rfl
    rw [text, attributes, textAll_append, apply_ite textAll, textAll_nil, textAll_singleton, hpair,
      text_ofWord, text_ofWord]
    congr 1
    simp only [String.append_assoc]
    rfl
  | flat access =>
    rw [text, attributes, textAll_append, ← Sync.text_eq, apply_ite textAll, textAll_nil,
      textAll_singleton]
    rfl
  | barrier request =>
    rw [text, attributes, textAll_append, ← Sync.text_eq, apply_ite textAll, textAll_nil,
      textAll_singleton, text_ofWord]
    rfl
  | wait w =>
    rw [attributes, textAll_targets (fun x : Counter × UInt16 => x.1.name) fun x =>
      toString x.2.toNat, Wait.isEmpty_targets]
    rfl
  | dependencyWait w =>
    rw [attributes, textAll_targets Dependency.name fun d => toString (w.get d).toNat, text]
    simp only [(h w rfl).isNone_iff, List.isEmpty_iff]
    rfl

/-- The access uses only storage classes and semantics that have a name. -/
structure Sync.IsNamed (s : Sync) : Prop where
  storage : s.storage.IsNamed
  semantics : s.semantics.IsNamed

instance (s : Sync) : Decidable s.IsNamed :=
  decidable_of_iff (s.storage.IsNamed ∧ s.semantics.IsNamed)
    ⟨fun h => ⟨h.1, h.2⟩, fun h => ⟨h.storage, h.semantics⟩⟩

/-- Everything in the payload can be written: sets have only named members, and the targets of a wait
for the dependency counters fit their fields. -/
def Payload.Writable : Payload → Prop
  | .smem sync | .ldsDir sync | .vmem sync => sync.IsNamed
  | .ds access => access.sync.IsNamed
  | .flat access => access.sync.IsNamed
  | .barrier request => request.sync.IsNamed
  | .dependencyWait w => w.Fits
  | .salu | .valu | .sopp _ | .interp _ | .exp _ | .wait _ => True

instance (w : DependencyWait) : Decidable w.Fits :=
  decidable_of_iff (∀ d ∈ Dependency.all, (w.get d).toNat ≤ d.limit)
    ⟨fun h d => h d d.mem_all, fun h d _ => h d⟩

instance : (payload : Payload) → Decidable payload.Writable
  | .smem sync | .ldsDir sync | .vmem sync => inferInstanceAs (Decidable sync.IsNamed)
  | .ds access => inferInstanceAs (Decidable access.sync.IsNamed)
  | .flat access => inferInstanceAs (Decidable access.sync.IsNamed)
  | .barrier request => inferInstanceAs (Decidable request.sync.IsNamed)
  | .dependencyWait w => inferInstanceAs (Decidable w.Fits)
  | .salu | .valu | .sopp _ | .interp _ | .exp _ | .wait _ => inferInstanceAs (Decidable True)

section Spelled

variable {P : Attribute → Prop} {p : Prop} [Decidable p] {a : Attribute}

lemma forall_mem_unless (h : ¬ p → P a) : ∀ b ∈ (if p then [] else [a]), P b := by
  split
  case isTrue => exact List.forall_mem_nil P
  case isFalse hp => exact List.forall_mem_singleton.2 (h hp)

lemma forall_mem_when (h : P a) : ∀ b ∈ (if p then [a] else []), P b := by
  split
  · exact List.forall_mem_singleton.2 h
  · exact List.forall_mem_nil P

end Spelled

lemma Sync.spelled {s : Sync} (h : s.IsNamed) : ∀ a ∈ s.attributes, a.Spelled flagWords := by
  rw [attributes, List.forall_mem_append, List.forall_mem_append]
  refine ⟨⟨forall_mem_unless fun hne => ?_, forall_mem_unless fun hne => ?_⟩,
    forall_mem_unless fun _ => spelled_ofWord isWord_ofList s.scope.isWord_name⟩
  · exact spelled_words isWord_ofList (labels_ne_nil h.storage (by simpa using hne))
      fun _ hw => isWord_of_mem_labels hw
  · exact spelled_words isWord_ofList (labels_ne_nil h.semantics (by simpa using hne))
      fun _ hw => isWord_of_mem_labels hw

lemma Payload.spelled {payload : Payload} (h : payload.Writable) :
    ∀ a ∈ payload.attributes, a.Spelled flagWords := by
  have hnumber : ∀ {key : String} (n : Nat), IsWord key →
      (ofWord key (toString n)).Spelled flagWords :=
    fun n hkey => spelled_ofWord hkey (Number.writes_toString n).isWord
  cases payload with
  | salu | valu => exact List.forall_mem_nil _
  | sopp imm => exact forall_mem_unless fun _ => hnumber _ isWord_ofList
  | interp waitExp => exact List.forall_mem_singleton.2 (hnumber _ isWord_ofList)
  | smem sync | ldsDir sync | vmem sync => exact Sync.spelled h
  | ds access =>
    rw [attributes, List.forall_mem_append, List.forall_mem_append, List.forall_mem_append]
    refine ⟨⟨⟨Sync.spelled h, forall_mem_when ?_⟩, forall_mem_unless fun _ => ?_⟩,
      forall_mem_unless fun _ => ?_⟩
    · exact spelled_flag isWord_ofList (by decide)
    · exact hnumber _ isWord_ofList
    · exact hnumber _ isWord_ofList
  | exp data =>
    rw [attributes, List.forall_mem_append, List.forall_mem_cons, List.forall_mem_singleton]
    refine ⟨⟨hnumber _ isWord_ofList, ?_⟩, forall_mem_when ?_⟩
    · exact spelled_ofWord isWord_ofList (Number.writes_hex _).isWord
    · exact spelled_flag isWord_ofList (by decide)
  | flat access =>
    rw [attributes, List.forall_mem_append]
    exact ⟨Sync.spelled h, forall_mem_when (spelled_flag isWord_ofList (by decide))⟩
  | barrier request =>
    rw [attributes, List.forall_mem_append]
    refine ⟨Sync.spelled h, forall_mem_unless fun _ => ?_⟩
    exact spelled_ofWord isWord_ofList request.execScope.isWord_name
  | wait w =>
    rw [attributes, List.forall_mem_map]
    exact fun x _ => hnumber _ (Legible.isWord_label x.1)
  | dependencyWait w =>
    rw [attributes, List.forall_mem_map]
    exact fun d _ => hnumber _ d.isWord_name

/-! ### Reading payloads -/

/-- The keys of an access. -/
def syncKeys : List String := ["storage", "semantics", "scope"]

lemma takeSync_of_foreign {as : List Attribute} (h : ∀ a ∈ as, a.key ∉ syncKeys) (sync : Sync) :
    takeSync sync as = .ok (sync, as) := by
  induction as with
  | nil => rfl
  | cons a as ih =>
    have ha := h a List.mem_cons_self
    have hrest := ih fun b hb => h b (List.mem_cons_of_mem a hb)
    rw [takeSync]
    split
    next words hkey _ => exact absurd (hkey ▸ by decide) ha
    next words hkey _ => exact absurd (hkey ▸ by decide) ha
    next words hkey _ => exact absurd (hkey ▸ by decide) ha
    next => rw [hrest]; rfl

/-- An access is taken out of its own attributes and leaves all others. -/
lemma takeSync_attributes {s : Sync} (hs : s.IsNamed) {rest : List Attribute}
    (hrest : ∀ a ∈ rest, a.key ∉ syncKeys) : takeSync {} (s.attributes ++ rest) = .ok (s, rest) := by
  have hstorage : ∀ as, takeSync {} ((if s.storage.isEmpty then []
      else [⟨"storage", some s.storage.labels⟩]) ++ as) = takeSync { storage := s.storage } as := by
    intro as
    split
    case isTrue h => rw [Flags.eq_empty_of_isEmpty h]; rfl
    case isFalse =>
      show (readFlags s.storage.labels >>= fun t => takeSync { storage := t } as) = _
      rw [readFlags_labels hs.storage]
      rfl
  have hsemantics : ∀ as, takeSync { storage := s.storage } ((if s.semantics.isEmpty then []
      else [⟨"semantics", some s.semantics.labels⟩]) ++ as)
        = takeSync { storage := s.storage, semantics := s.semantics } as := by
    intro as
    split
    case isTrue h => rw [Flags.eq_empty_of_isEmpty h]; rfl
    case isFalse =>
      show (readFlags s.semantics.labels >>= fun t =>
        takeSync { storage := s.storage, semantics := t } as) = _
      rw [readFlags_labels hs.semantics]
      rfl
  have hscope : ∀ as, takeSync { storage := s.storage, semantics := s.semantics }
      ((if s.scope = .invocation then [] else [ofWord "scope" s.scope.name]) ++ as) = takeSync s as := by
    intro as
    split
    case isTrue h => rw [← h]; rfl
    case isFalse =>
      show (readScope (joined [s.scope.name]) >>= fun t =>
        takeSync { storage := s.storage, semantics := s.semantics, scope := t } as) = _
      rw [joined, String.intercalate_singleton, readScope_name]
      rfl
  rw [Sync.attributes, List.append_assoc, List.append_assoc, hstorage, hsemantics, hscope,
    takeSync_of_foreign hrest]

lemma takeValue_ofWord (key word : String) (rest : List Attribute) :
    takeValue key (ofWord key word :: rest) = (some word, rest) := by
  simp [takeValue, ofWord, joined, String.intercalate_singleton]

lemma takeValue_of_foreign {key : String} {as : List Attribute} (h : ∀ a ∈ as, a.key ≠ key) :
    takeValue key as = (none, as) := by
  induction as with
  | nil => rfl
  | cons a as ih =>
    have hrest := ih fun b hb => h b (List.mem_cons_of_mem a hb)
    rw [takeValue]
    split
    · rw [if_neg (h a List.mem_cons_self), hrest]
    · rw [hrest]

/-- A value that is written unless it is the default is read back. -/
lemma takeOr_unless {α : Type} {key word : String} {default value : α} {read : String → Result α}
    {p : Prop} [Decidable p] (hdefault : p → default = value) (hread : read word = .ok value)
    {rest : List Attribute} (hrest : ∀ a ∈ rest, a.key ≠ key) :
    takeOr key default read ((if p then [] else [ofWord key word]) ++ rest) = .ok (value, rest) := by
  split
  case isTrue hp => rw [takeOr, List.nil_append, takeValue_of_foreign hrest, hdefault hp]
  case isFalse =>
    rw [takeOr, List.singleton_append, takeValue_ofWord]
    simp only [hread]
    rfl

lemma takeOr_unless_last {α : Type} {key word : String} {default value : α} {read : String → Result α}
    {p : Prop} [Decidable p] (hdefault : p → default = value) (hread : read word = .ok value) :
    takeOr key default read (if p then [] else [ofWord key word]) = .ok (value, []) := by
  rw [← List.append_nil (ite _ _ _)]
  exact takeOr_unless hdefault hread (List.forall_mem_nil _)

lemma takeFlag_when {flag : String} {b : Bool} {rest : List Attribute}
    (hrest : ∀ a ∈ rest, a.key ≠ flag) :
    takeFlag flag ((if b then [⟨flag, none⟩] else []) ++ rest) = (b, rest) := by
  have hmem : (⟨flag, none⟩ : Attribute) ∉ rest := fun h => hrest _ h rfl
  cases b with
  | true => simp [takeFlag]
  | false => simp [takeFlag, hmem, List.erase_of_not_mem]

lemma takeFlag_when_last (flag : String) (b : Bool) :
    takeFlag flag (if b then [⟨flag, none⟩] else []) = (b, []) := by
  rw [← List.append_nil (ite _ _ _)]
  exact takeFlag_when (List.forall_mem_nil _)

lemma Wait.get_foldl_set (w v : Wait) (cs : List Counter) (d : Counter) :
    (cs.foldl (fun v c => v.set c (w.get c)) v).get d = if d ∈ cs then w.get d else v.get d := by
  induction cs generalizing v with
  | nil => rfl
  | cons c cs ih =>
    rw [List.foldl_cons, ih, get_set]
    by_cases hd : d = c
    · simp [hd]
    · simp [hd]

/-- The targets of a wait are read back. -/
lemma readTargets_attributes (w : Wait) : readTargets (Payload.attributes (.wait w)) = .ok w := by
  rw [readTargets, Payload.attributes, Wait.targets, List.map_map, List.foldlM_map,
    foldlM_eq_foldl fun v c => v.set c (w.get c)]
  · refine congrArg _ (Wait.ext_get fun c => ?_)
    rw [Wait.get_foldl_set]
    by_cases hset : w.isSet c = true
    · rw [if_pos (List.mem_filter.2 ⟨c.mem_all, hset⟩)]
    · have hunset : w.get c = Wait.unset := by simpa [Wait.isSet] using hset
      rw [if_neg fun hc => hset (List.mem_filter.1 hc).2, Wait.get_none, hunset]
  · intro c _ v
    have hname : Counter.ofName? c.name = some c := Legible.ofLabel?_label c
    have hvalue : readWord16 (joined [toString (w.get c).toNat]) = .ok (w.get c) := by
      rw [joined, String.intercalate_singleton]
      exact readWord16_of_writes (Number.writes_toString _)
    simp only [Function.comp, ofWord, hname, hvalue]
    rfl

lemma DependencyWait.get_foldl_set (w v : DependencyWait) (ds : List Dependency) (d : Dependency) :
    (ds.foldl (fun v d => v.set d (w.get d)) v).get d = if d ∈ ds then w.get d else v.get d := by
  induction ds generalizing v with
  | nil => rfl
  | cons e ds ih =>
    rw [List.foldl_cons, ih, get_set]
    by_cases hd : d = e
    · simp [hd]
    · simp [hd]

/-- The targets of a wait for the dependency counters are read back if they fit their fields. -/
lemma readDependencies_attributes {w : DependencyWait} (h : w.Fits) :
    readDependencies (Payload.attributes (.dependencyWait w)) = .ok w := by
  rw [readDependencies, Payload.attributes, List.foldlM_map,
    foldlM_eq_foldl fun v d => v.set d (w.get d)]
  · refine congrArg _ (DependencyWait.ext_get fun d => ?_)
    rw [DependencyWait.get_foldl_set]
    have hmem : d ∈ Dependency.all.filter (fun d => decide ((w.get d).toNat < d.limit))
        ↔ (w.get d).toNat < d.limit := by
      simp [d.mem_all]
    by_cases hset : (w.get d).toNat < d.limit
    · rw [if_pos (hmem.2 hset)]
    · rw [if_neg (mt hmem.1 hset), ← UInt8.toNat_inj, DependencyWait.toNat_get_none]
      have hle := h d
      omega
  · intro d _ v
    have hvalue : readWord8 (joined [toString (w.get d).toNat]) = .ok (w.get d) := by
      rw [joined, String.intercalate_singleton]
      exact readWord8_of_writes (Number.writes_toString _)
    have hset : v.setByName? d.name (w.get d) = some (v.set d (w.get d)) := by
      rw [DependencyWait.setByName?, Dependency.find?_name]
      exact if_pos (h d)
    simp only [ofWord, Option.getD_some, hvalue]
    refine bind_eq_ok.2 ⟨_, rfl, ?_⟩
    rw [hset]
    rfl

section Payload

variable {o : Opcode}

lemma takeSync_attributes_nil {sync : Sync} (h : sync.IsNamed) :
    takeSync {} sync.attributes = .ok (sync, []) := by
  rw [← List.append_nil sync.attributes]
  exact takeSync_attributes h (List.forall_mem_nil _)

lemma readPayload_sopp (hf : o.format = .sopp) (hwait : o ≠ .sWaitcnt) (hdep : o ≠ .sWaitcntDepctr)
    (imm : UInt16) : readPayload o (Payload.attributes (.sopp imm)) = .ok (.sopp imm, []) := by
  have himm := readWord16_of_writes (Number.writes_toString imm.toNat)
  unfold readPayload
  simp only [hf]
  refine bind_eq_ok.2 ⟨_, takeOr_unless_last Eq.symm himm, rfl⟩

lemma readPayload_interp (hf : o.format = .vinterpInreg) (waitExp : UInt8) :
    readPayload o (Payload.attributes (.interp waitExp)) = .ok (.interp waitExp, []) := by
  have hread := readWord8_of_writes (Number.writes_toString waitExp.toNat)
  unfold readPayload
  simp only [hf, Payload.attributes, takeOr, takeValue_ofWord, hread]
  rfl

lemma readPayload_ds (hf : o.format = .ds) {access : DsAccess} (h : access.sync.IsNamed) :
    readPayload o (Payload.attributes (.ds access)) = .ok (.ds access, []) := by
  have hoffset0 := readWord16_of_writes (Number.writes_toString access.offset0.toNat)
  have hoffset1 := readWord8_of_writes (Number.writes_toString access.offset1.toNat)
  unfold readPayload
  simp only [hf, Payload.attributes, List.append_assoc]
  refine bind_eq_ok.2 ⟨_, takeSync_attributes h ?_, ?_⟩
  · rw [List.forall_mem_append, List.forall_mem_append]
    refine ⟨forall_mem_when ?_, forall_mem_unless fun _ => ?_, forall_mem_unless fun _ => ?_⟩
    · decide
    · exact (by decide : "offset0" ∉ syncKeys)
    · exact (by decide : "offset1" ∉ syncKeys)
  rw [takeFlag_when]
  · refine bind_eq_ok.2 ⟨_, takeOr_unless Eq.symm hoffset0 ?_, ?_⟩
    · exact forall_mem_unless fun _ => (by decide : "offset1" ≠ "offset0")
    · exact bind_eq_ok.2 ⟨_, takeOr_unless_last Eq.symm hoffset1, rfl⟩
  · rw [List.forall_mem_append]
    refine ⟨forall_mem_unless fun _ => ?_, forall_mem_unless fun _ => ?_⟩
    · exact (by decide : "offset0" ≠ "gds")
    · exact (by decide : "offset1" ≠ "gds")

lemma readPayload_exp (hf : o.format = .exp) (data : Export) :
    readPayload o (Payload.attributes (.exp data)) = .ok (.exp data, []) := by
  have hdest := readWord8_of_writes (Number.writes_toString data.dest.toNat)
  have henabled := readWord8_of_writes (Number.writes_hex data.enabled.toNat)
  unfold readPayload
  simp only [hf, Payload.attributes, List.cons_append, List.nil_append, takeOr, takeValue_ofWord, hdest,
    henabled]
  show Except.ok _ = _
  rw [takeFlag_when_last]

lemma readPayload_flat (hf : o.format = .flat ∨ o.format = .global ∨ o.format = .scratch)
    {access : FlatAccess} (h : access.sync.IsNamed) :
    readPayload o (Payload.attributes (.flat access)) = .ok (.flat access, []) := by
  unfold readPayload
  rcases hf with hf | hf | hf <;>
  · simp only [hf, Payload.attributes]
    refine bind_eq_ok.2 ⟨_, takeSync_attributes h (forall_mem_when (by decide)), ?_⟩
    rw [takeFlag_when_last]
    rfl

lemma readPayload_barrier (hf : o.format = .pseudoBarrier) {request : BarrierRequest}
    (h : request.sync.IsNamed) :
    readPayload o (Payload.attributes (.barrier request)) = .ok (.barrier request, []) := by
  have hscope := readScope_name request.execScope
  unfold readPayload
  simp only [hf, Payload.attributes]
  refine bind_eq_ok.2 ⟨_, takeSync_attributes h (forall_mem_unless fun _ => ?_), ?_⟩
  · exact (by decide : "exec_scope" ∉ syncKeys)
  · exact bind_eq_ok.2 ⟨_, takeOr_unless_last Eq.symm hscope, rfl⟩

end Payload

/-- The formats that a payload goes with. -/
def Payload.formats : Payload → List Format
  | .salu => [.sop1, .sop2]
  | .sopp _ | .wait _ | .dependencyWait _ => [.sopp]
  | .valu => [.valu]
  | .interp _ => [.vinterpInreg]
  | .smem _ => [.smem]
  | .ds _ => [.ds]
  | .ldsDir _ => [.ldsDir]
  | .exp _ => [.exp]
  | .flat _ => [.flat, .global, .scratch]
  | .vmem _ => [.mubuf, .mtbuf, .mimg]
  | .barrier _ => [.pseudoBarrier]

lemma Payload.fits_iff {payload : Payload} {f : Format} :
    payload.fits f = true ↔ f ∈ payload.formats := by
  have hcontains : payload.fits f = payload.formats.contains f := by
    cases payload <;> cases f <;> rfl
  rw [hcontains, List.contains_iff_mem]

/-- A payload is read back from its attributes, and none of them is left. -/
lemma readPayload_attributes {i : Instruction} (hi : i.isCoherent = true) (h : i.payload.Writable) :
    readPayload i.opcode i.payload.attributes = .ok (i.payload, []) := by
  obtain ⟨opcode, definitions, operands, payload⟩ := i
  simp only [Instruction.isCoherent, Instruction.format, Bool.and_eq_true, beq_iff_eq,
    Payload.fits_iff] at hi h ⊢
  obtain ⟨⟨hf, hwait⟩, hdep⟩ := hi
  cases payload with
  | salu =>
    unfold readPayload
    rcases List.mem_pair.1 hf with hf | hf <;> rw [hf] <;> rfl
  | valu =>
    unfold readPayload
    rw [List.mem_singleton.1 hf]
    rfl
  | smem sync | ldsDir sync =>
    unfold readPayload
    rw [List.mem_singleton.1 hf]
    exact bind_eq_ok.2 ⟨_, takeSync_attributes_nil h, rfl⟩
  | vmem sync =>
    unfold readPayload
    simp only [Payload.formats, List.mem_cons, List.not_mem_nil, or_false] at hf
    rcases hf with hf | hf | hf <;> rw [hf] <;>
      exact bind_eq_ok.2 ⟨_, takeSync_attributes_nil h, rfl⟩
  | sopp imm =>
    exact readPayload_sopp (List.mem_singleton.1 hf) (by simpa using hwait) (by simpa using hdep) imm
  | interp waitExp => exact readPayload_interp (List.mem_singleton.1 hf) waitExp
  | ds access => exact readPayload_ds (List.mem_singleton.1 hf) h
  | exp data => exact readPayload_exp (List.mem_singleton.1 hf) data
  | flat access => exact readPayload_flat (by simpa [Payload.formats] using hf) h
  | barrier request => exact readPayload_barrier (List.mem_singleton.1 hf) h
  | wait w =>
    obtain rfl : opcode = .sWaitcnt := by simpa using hwait
    exact bind_eq_ok.2 ⟨w, readTargets_attributes w, rfl⟩
  | dependencyWait w =>
    obtain rfl : opcode = .sWaitcntDepctr := by simpa using hdep
    exact bind_eq_ok.2 ⟨w, readDependencies_attributes h, rfl⟩

end GpuWaits
