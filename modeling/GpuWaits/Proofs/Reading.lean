/-
# Names and values that are read back

Every part of a program that has a name in the textual format is found again by it: registers,
operands, sets of flags, scopes, generations, opcodes and counters.  Register ranges are written by
their bounds and need care: only a range of at most 32 units inside one register file has a name
that is read as the same range (`readRange_name`), and no other range is ever read
(`isValid_of_readRange`).
-/
import GpuWaits.Proofs.Regular
import GpuWaits.Proofs.Words
import GpuWaits.Text.Parser
import GpuWaits.Text.Printer

namespace GpuWaits

open Token Reader

/-! ### Names -/

/-- The members of the enumeration are all listed, and their names can be told apart. -/
class Legible (α : Type) [Flag α] : Prop where
  mem_members : ∀ a : α, a ∈ (Flag.members : List α)
  ofLabel?_label : ∀ a : α, Flag.ofLabel? (Flag.label a) = some a
  isWord_label : ∀ a : α, IsWord (Flag.label a)

instance : Legible Storage where
  mem_members a := by cases a <;> decide
  ofLabel?_label a := by cases a <;> rfl
  isWord_label a := by cases a <;> exact isWord_ofList

instance : Legible Semantic where
  mem_members a := by cases a <;> decide
  ofLabel?_label a := by cases a <;> rfl
  isWord_label a := by cases a <;> exact isWord_ofList

instance : Legible BlockRole where
  mem_members a := by cases a <;> decide
  ofLabel?_label a := by cases a <;> rfl
  isWord_label a := by cases a <;> exact isWord_ofList

instance : Legible Counter where
  mem_members := Counter.mem_all
  ofLabel?_label a := by cases a <;> rfl
  isWord_label a := by cases a <;> exact isWord_ofList

lemma Scope.ofName?_name (s : Scope) : ofName? s.name = some s := by cases s <;> rfl

lemma Scope.isWord_name (s : Scope) : IsWord s.name := by
  cases s <;> exact isWord_ofList

lemma Generation.ofName?_name (g : Generation) : ofName? g.name = some g := by cases g <;> rfl

lemma Generation.isWord_name (g : Generation) : IsWord g.name := by
  cases g <;> exact isWord_ofList

lemma Opcode.ofMnemonic?_mnemonic (o : Opcode) : ofMnemonic? o.mnemonic = some o := by
  have hall : ∀ o ∈ all, ofMnemonic? o.mnemonic = some o := by decide +kernel
  exact hall o o.mem_all

lemma Opcode.mnemonic_ne_block (o : Opcode) : o.mnemonic ≠ "block" := by
  intro heq
  have hread := o.ofMnemonic?_mnemonic
  rw [heq] at hread
  cases hread

lemma Opcode.isWord_mnemonic (o : Opcode) : IsWord o.mnemonic := by
  cases o <;> exact isWord_ofList

lemma Dependency.mem_all (d : Dependency) : d ∈ all := by cases d <;> decide

lemma Dependency.find?_name (d : Dependency) :
    Dependency.all.find? (fun e => e.name == d.name) = some d := by
  cases d <;> rfl

lemma Dependency.isWord_name (d : Dependency) : IsWord d.name := by
  cases d <;> exact isWord_ofList

/-! ### Sets of flags -/

section Flags

variable {α : Type} [Flag α] {w : Nat}

lemma Flags.eq_empty_of_isEmpty {α : Type} {s : Flags α w} (h : s.isEmpty = true) : s = ∅ := by
  obtain ⟨bits⟩ := s
  exact congrArg Flags.mk (eq_of_beq h)

lemma Flags.IsNamed.ofList_toList [Legible α] {s : Flags α w} (hs : s.IsNamed) : ofList s.toList = s := by
  refine (isNamed_ofList _).ext hs fun a => ?_
  rw [mem_ofList]
  constructor
  · rintro ⟨b, hb, ha⟩
    rw [mem_singleton_iff] at ha
    rw [mem_def, ← ha.2]
    exact of_decide_eq_true (List.mem_filter.1 hb).2
  · intro ha
    refine ⟨a, List.mem_filter.2 ⟨Legible.mem_members a, decide_eq_true ha⟩, ?_⟩
    exact mem_singleton_iff.2 ⟨BitVec.lt_of_getLsbD ha, rfl⟩

instance [Legible α] [DecidableEq α] (s : Flags α w) : Decidable s.IsNamed :=
  decidable_of_iff (Flags.ofList s.toList = s)
    ⟨fun h => h ▸ Flags.isNamed_ofList s.toList, Flags.IsNamed.ofList_toList⟩

/-- A set is read back from the names of its members. -/
lemma readFlags_labels [Legible α] {s : Flags α w} (hs : s.IsNamed) : readFlags s.labels = .ok s := by
  rw [readFlags, Flags.labels, List.foldlM_map, foldlM_eq_foldl fun s a => s ∪ {a}]
  · exact congrArg _ hs.ofList_toList
  · intro a _ t
    simp only [Legible.ofLabel?_label]

/-- What is read has no bits without a name. -/
lemma isNamed_of_readFlags {names : List String} {s : Flags α w} (h : readFlags names = .ok s) :
    s.IsNamed := by
  refine foldlM_invariant Flags.IsNamed ?_ Flags.isNamed_empty h
  intro name _ t t' ht hstep
  split at hstep
  next a _ =>
    cases hstep
    exact ht.union (Flags.isNamed_singleton a)
  next => cases hstep

lemma isWord_of_mem_labels [Legible α] {s : Flags α w} {name : String} (h : name ∈ s.labels) :
    IsWord name := by
  obtain ⟨a, -, rfl⟩ := List.mem_map.1 h
  exact Legible.isWord_label a

lemma labels_ne_nil [Legible α] {s : Flags α w} (hs : s.IsNamed) (h : s.isEmpty = false) :
    s.labels ≠ [] := by
  intro hnil
  have hempty : s = ∅ := by
    rw [← hs.ofList_toList, List.map_eq_nil_iff.1 hnil]
    rfl
  rw [hempty] at h
  simp [Flags.isEmpty, EmptyCollection.emptyCollection] at h

end Flags

lemma readScope_name (s : Scope) : readScope s.name = .ok s := by
  rw [readScope, Scope.ofName?_name]

/-! ### Numbers -/

section Numbers

variable {w : String}

lemma readWord32_of_writes {n : UInt32} (h : Number.Writes w n.toNat) : readWord32 w = .ok n := by
  rw [readWord32, h.read n.toNat_lt, UInt32.ofNat_toNat]

lemma readBelow_of_writes {limit n : Nat} (h : Number.Writes w n) (hn : n < limit)
    (hlimit : limit ≤ UInt32.size) : readBelow limit w = .ok n := by
  have hsmall : n < UInt32.size := by omega
  have htoNat : (UInt32.ofNat n).toNat = n := UInt32.toNat_ofNat_of_lt hsmall
  rw [readBelow, readWord32, h.read hsmall]
  show (if (UInt32.ofNat n).toNat < limit then _ else _) = _
  rw [htoNat, if_pos hn]
  rfl

lemma readWord16_of_writes {n : UInt16} (h : Number.Writes w n.toNat) : readWord16 w = .ok n := by
  rw [readWord16, readBelow_of_writes h n.toNat_lt (by decide)]
  exact congrArg _ n.ofNat_toNat

lemma readWord8_of_writes {n : UInt8} (h : Number.Writes w n.toNat) : readWord8 w = .ok n := by
  rw [readWord8, readBelow_of_writes h n.toNat_lt (by decide)]
  exact congrArg _ n.ofNat_toNat

end Numbers

/-! ### Registers -/

namespace RegRange

variable {r : RegRange}

/-- The letter of a register file. -/
def letter : Bool → Char
  | true => 'v'
  | false => 's'

end RegRange

/-- No other character than a digit stands in a decimal number. -/
lemma ne_of_mem_digits {n : Nat} {c d : Char} (hc : c ∈ (toString n).toList) (hd : d.isDigit = false) :
    c ≠ d := by
  rw [Nat.toString_eq_ofList_toDigits, String.toList_ofList] at hc
  rintro rfl
  rw [Nat.isDigit_of_mem_toDigits (by decide) (by decide) hc] at hd
  cases hd

/-- The bounds of a range in digits. -/
lemma readBounds_digits (m n : UInt16) :
    readBounds ((toString m.toNat).toList ++ ':' :: (toString n.toNat).toList) = .ok (m, n) := by
  have hcolon : ∀ c ∈ (toString m.toNat).toList, decide (c ≠ ':') = true := fun c hc =>
    decide_eq_true (ne_of_mem_digits hc (by decide))
  have hfirst : ((toString m.toNat).toList ++ ':' :: (toString n.toNat).toList).takeWhile (· ≠ ':')
      = (toString m.toNat).toList := by
    rw [List.takeWhile_append_of_pos hcolon, List.takeWhile_cons_of_neg (by decide), List.append_nil]
  have hlast : ((toString m.toNat).toList ++ ':' :: (toString n.toNat).toList).dropWhile (· ≠ ':')
      = ':' :: (toString n.toNat).toList := by
    rw [List.dropWhile_append_of_pos hcolon, List.dropWhile_cons_of_neg (by decide)]
  simp only [readBounds, hfirst, hlast, String.ofList_toList, bind_eq_ok, pure_eq_ok]
  exact ⟨m, readWord16_of_writes (Number.writes_toString _), n,
    readWord16_of_writes (Number.writes_toString _), rfl⟩

lemma bracketed?_append (inner : List Char) : bracketed? ('[' :: (inner ++ [']'])) = some inner := by
  simp [bracketed?]

lemma bracketed?_digits (n : Nat) : bracketed? (toString n).toList = none := by
  cases hdigits : (toString n).toList with
  | nil => rfl
  | cons c cs =>
    have hc : c ≠ '[' := ne_of_mem_digits (n := n) (hdigits ▸ List.mem_cons_self) (by decide)
    rw [bracketed?]
    rintro inner heq
    exact hc (List.cons.inj heq).1

/-- The bounds of a range behind the letter of its file. -/
def readUnits (chars : List Char) : Result (UInt16 × UInt16) :=
  match bracketed? chars with
  | some inner => readBounds inner
  | none => do
    let n ← readWord16 (.ofList chars)
    pure (n, n)

/-- The range between two bounds, if it is allowed. -/
def rangeBetween (word : String) (isVector : Bool) : UInt16 × UInt16 → Result RegRange
  | (first, last) =>
    if last < first ∨ 256 ≤ last ∨ 32 ≤ last - first then .error (.invalidRange word)
    else .ok ⟨if isVector then .vgpr first else .sgpr first, (last - first + 1).toUInt8⟩

lemma rangeBetween_eq_ok {word : String} {isVector : Bool} {bounds : UInt16 × UInt16} {r : RegRange} :
    rangeBetween word isVector bounds = .ok r ↔ bounds.1 ≤ bounds.2 ∧ bounds.2 < 256
      ∧ bounds.2 - bounds.1 < 32
      ∧ r = ⟨if isVector then .vgpr bounds.1 else .sgpr bounds.1, (bounds.2 - bounds.1 + 1).toUInt8⟩ := by
  rw [rangeBetween]
  split
  case isTrue h =>
    refine ⟨fun h => (nomatch h), ?_⟩
    rintro ⟨hle, hlast, hsize, -⟩
    rcases h with h | h | h
    · exact absurd hle (UInt16.not_le.2 h)
    · exact absurd hlast (UInt16.not_lt.2 h)
    · exact absurd hsize (UInt16.not_lt.2 h)
  case isFalse h =>
    simp only [not_or, UInt16.not_lt, UInt16.not_le] at h
    rw [Except.ok.injEq, eq_comm]
    exact ⟨fun hr => ⟨h.1, h.2.1, h.2.2, hr⟩, fun hr => hr.2.2.2⟩

lemma readRange_letter {word : String} {isVector : Bool} {chars : List Char} (hexec : word ≠ "exec")
    (hword : word.toList = RegRange.letter isVector :: chars) :
    readRange word = readUnits chars >>= rangeBetween word isVector := by
  cases isVector <;>
  · simp only [readRange, if_neg hexec, hword, RegRange.letter, readUnits, pure_bind]
    cases hb : bracketed? chars with
    | none => cases readWord16 (.ofList chars) <;> rfl
    | some inner => cases readBounds inner <;> rfl

/-- The digits of a number, as they stand in a word. -/
def digits (n : UInt16) : List Char := (toString n.toNat).toList

/-- The bounds of a range in the textual format: a single unit stands alone. -/
def unitsText (first last : UInt16) : List Char :=
  if first = last then digits first else '[' :: (digits first ++ ':' :: digits last ++ [']'])

lemma readUnits_unitsText (first last : UInt16) :
    readUnits (unitsText first last) = .ok (first, last) := by
  rw [unitsText]
  split
  case isTrue h =>
    rw [readUnits, digits, bracketed?_digits, String.ofList_toList,
      readWord16_of_writes (Number.writes_toString _), h]
    rfl
  case isFalse =>
    rw [readUnits, bracketed?_append]
    exact readBounds_digits first last

lemma scan_digits (inside : Bool) (n : UInt16) : scan inside (digits n) = some inside := by
  refine scan_of_wordChars (fun c hc => ?_) inside
  rw [digits, Nat.toString_eq_ofList_toDigits, String.toList_ofList] at hc
  exact Number.isWordChar_of_mem_toDigits (by decide) (by decide) hc

lemma isWord_letter_unitsText (isVector : Bool) (first last : UInt16) :
    IsWord (.ofList (RegRange.letter isVector :: unitsText first last)) := by
  have hunits : scan false (unitsText first last) = some false := by
    rw [unitsText]
    split
    · exact scan_digits false first
    · rw [scan_open, scan_append, scan_append, scan_digits, Option.bind_some, scan_colon, scan_digits,
        Option.bind_some, scan_close, scan]
  refine isWord_ofList ⟨List.cons_ne_nil _ _, ?_⟩
  rw [scan_wordChar (by cases isVector <;> decide), hunits]

namespace RegRange

variable {r : RegRange}

/-- A valid range starts in one of the two files and ends in the same. -/
lemma exists_place (h : r.isValid = true) : ∃ isVector first,
    r.first.place = (String.ofList [letter isVector], first.toNat)
      ∧ r.first = (if isVector then .vgpr first else .sgpr first)
      ∧ first.toNat + r.size.toNat ≤ 256 := by
  obtain ⟨⟨hpos, -⟩, hfile, hvec⟩ := isValid_iff.1 h
  obtain ⟨⟨unit⟩, size⟩ := r
  simp only [Reg.isVector, Reg.fileSize, decide_eq_decide, UInt16.le_iff_toNat_le] at hpos hfile hvec
  by_cases hunit : 256 ≤ unit
  · have hle : 256 ≤ unit.toNat := UInt16.le_iff_toNat_le.1 hunit
    have hsub : (unit - 256).toNat = unit.toNat - 256 := UInt16.toNat_sub_of_le _ _ hunit
    refine ⟨true, unit - 256, ?_, ?_, ?_⟩
    · simp only [Reg.place, Reg.isVector, hunit, decide_true, if_true, hsub]
      rfl
    · rw [if_pos rfl, Reg.vgpr, Reg.mk.injEq, ← UInt16.toNat_inj, UInt16.toNat_add, hsub]
      have hlt := unit.toNat_lt
      show unit.toNat = (256 + (unit.toNat - 256)) % 2 ^ 16
      omega
    · rw [hsub]
      show unit.toNat - 256 + size.toNat ≤ 256
      omega
  · have hle : ¬ 256 ≤ unit.toNat := fun h => hunit (UInt16.le_iff_toNat_le.2 h)
    refine ⟨false, unit, ?_, rfl, ?_⟩
    · simp only [Reg.place, Reg.isVector, hunit, decide_false, Bool.false_eq_true, if_false]
      rfl
    · show unit.toNat + size.toNat ≤ 256
      have hsame : ¬ 256 ≤ unit.toNat + size.toNat - 1 := fun h => hle (hvec.2 h)
      omega

section Bounds

variable {isVector : Bool} {first last : UInt16} (hlast : last.toNat + 1 = first.toNat + r.size.toNat)

include hlast

/-- The range that lies between its own bounds. -/
lemma rangeBetween_bounds (hfirst : r.first = if isVector then .vgpr first else .sgpr first)
    (hfile : last.toNat < 256) (hpos : 0 < r.size.toNat) (hsize : r.size.toNat ≤ 32) (word : String) :
    rangeBetween word isVector (first, last) = .ok r := by
  have hle : first ≤ last := UInt16.le_iff_toNat_le.2 (by omega)
  have hcount : (last - first).toNat = r.size.toNat - 1 := by
    rw [UInt16.toNat_sub_of_le _ _ hle]
    omega
  have hlen : r.size = (last - first + 1).toUInt8 := by
    rw [← UInt8.toNat_inj, UInt16.toNat_toUInt8, UInt16.toNat_add, hcount]
    show r.size.toNat = (r.size.toNat - 1 + 1) % 2 ^ 16 % 2 ^ 8
    omega
  refine rangeBetween_eq_ok.2 ⟨hle, UInt16.lt_iff_toNat_lt.2 hfile, ?_, ?_⟩
  · rw [UInt16.lt_iff_toNat_lt, hcount]
    show r.size.toNat - 1 < 32
    omega
  · rw [← hlen, ← hfirst]

/-- A range is written by its bounds. -/
lemma text_bounds (hexec : r ≠ exec)
    (hplace : r.first.place = (String.ofList [letter isVector], first.toNat)) :
    r.text = .ok (.ofList (letter isVector :: unitsText first last)) := by
  have hone : r.size = 1 ↔ first = last := by
    rw [← UInt8.toNat_inj, ← UInt16.toNat_inj]
    show r.size.toNat = 1 ↔ _
    omega
  have hstring : ∀ s : String, toString s = s := fun _ => rfl
  rw [text, if_neg hexec, hplace, unitsText]
  by_cases hsingle : r.size = 1
  · rw [if_pos (hone.1 hsingle)]
    simp only [if_pos hsingle, digits]
    exact congrArg _ (String.toList_inj.1 (by simp [hstring]))
  · have hnonempty : ¬ first.toNat + r.size.toNat = 0 := by omega
    have hend : first.toNat + r.size.toNat - 1 = last.toNat := by omega
    rw [if_neg (mt hone.2 hsingle)]
    simp only [if_neg hsingle, if_neg hnonempty, hend, digits]
    exact congrArg _ (String.toList_inj.1 (by simp [hstring]))

end Bounds

/-- A valid range other than the execution mask is written by bounds that it lies between. -/
lemma exists_bounds (h : r.isValid = true) (hexec : r ≠ exec) : ∃ isVector first last,
    r.text = .ok (.ofList (letter isVector :: unitsText first last))
      ∧ ∀ word, rangeBetween word isVector (first, last) = .ok r := by
  obtain ⟨⟨hpos, hsize⟩, -, -⟩ := isValid_iff.1 h
  obtain ⟨isVector, first, hplace, hfirst, hfit⟩ := exists_place h
  have htoNat : (UInt16.ofNat (first.toNat + r.size.toNat - 1)).toNat
      = first.toNat + r.size.toNat - 1 :=
    UInt16.toNat_ofNat_of_lt (show first.toNat + r.size.toNat - 1 < 65536 by omega)
  obtain ⟨last, hlast⟩ : ∃ last : UInt16, last.toNat + 1 = first.toNat + r.size.toNat :=
    ⟨_, by rw [htoNat]; omega⟩
  exact ⟨isVector, first, last, text_bounds hlast hexec hplace,
    rangeBetween_bounds hlast hfirst (by omega) hpos hsize⟩

/-- The name of a valid range. -/
def name (r : RegRange) : String := r.text.toOption.getD ""

lemma name_exec : exec.name = "exec" := rfl

/-- The name of a valid range other than the execution mask. -/
lemma exists_name (h : r.isValid = true) (hexec : r ≠ exec) : ∃ isVector first last,
    r.name = .ofList (letter isVector :: unitsText first last)
      ∧ ∀ word, rangeBetween word isVector (first, last) = .ok r := by
  obtain ⟨isVector, first, last, htext, hbounds⟩ := exists_bounds h hexec
  exact ⟨isVector, first, last, by rw [name, htext]; rfl, hbounds⟩

lemma text_name (h : r.isValid = true) : r.text = .ok r.name := by
  by_cases hexec : r = exec
  · rw [hexec]
    rfl
  · obtain ⟨isVector, first, last, htext, -⟩ := exists_bounds h hexec
    rw [name, htext]
    rfl

lemma isWord_name (h : r.isValid = true) : IsWord r.name := by
  by_cases hexec : r = exec
  · rw [hexec, name_exec]
    exact isWord_ofList
  · obtain ⟨isVector, first, last, hname, -⟩ := exists_name h hexec
    rw [hname]
    exact isWord_letter_unitsText isVector first last

end RegRange

/-- A word that starts with the letter of a register file is not the execution mask. -/
lemma ne_exec_of_letter {word : String} {isVector : Bool} {chars : List Char}
    (h : word.toList = RegRange.letter isVector :: chars) : word ≠ "exec" := by
  rintro rfl
  cases isVector <;> exact absurd (List.cons.inj h).1 (by decide)

/-- A valid range is read back from its name. -/
lemma readRange_name {r : RegRange} (h : r.isValid = true) : readRange r.name = .ok r := by
  by_cases hexec : r = .exec
  · rw [hexec]
    rfl
  · obtain ⟨isVector, first, last, hname, hbounds⟩ := RegRange.exists_name h hexec
    have hword : r.name.toList = RegRange.letter isVector :: unitsText first last := by
      rw [hname, String.toList_ofList]
    rw [readRange_letter (ne_exec_of_letter hword) hword, readUnits_unitsText]
    exact hbounds _

lemma isValid_of_rangeBetween {word : String} {isVector : Bool} {bounds : UInt16 × UInt16}
    {r : RegRange} (h : rangeBetween word isVector bounds = .ok r) : r.isValid = true := by
  obtain ⟨hle, hlast, hsize, rfl⟩ := rangeBetween_eq_ok.1 h
  obtain ⟨first, last⟩ := bounds
  simp only at hle hlast hsize
  have hcount : (last - first).toNat = last.toNat - first.toNat := UInt16.toNat_sub_of_le _ _ hle
  rw [UInt16.le_iff_toNat_le] at hle
  rw [UInt16.lt_iff_toNat_lt] at hlast hsize
  have hlast' : last.toNat < 256 := hlast
  have hsize' : last.toNat - first.toNat < 32 := hcount ▸ hsize
  have hlen : (last - first + 1).toUInt8.toNat = last.toNat - first.toNat + 1 := by
    rw [UInt16.toNat_toUInt8, UInt16.toNat_add, hcount]
    show (last.toNat - first.toNat + 1) % 2 ^ 16 % 2 ^ 8 = _
    omega
  rw [RegRange.isValid_iff, hlen]
  refine ⟨⟨by omega, by omega⟩, ?_⟩
  cases isVector with
  | true =>
    have hunit : (Reg.vgpr first).unit.toNat = 256 + first.toNat := by
      rw [Reg.vgpr, UInt16.toNat_add]
      show (256 + first.toNat) % 2 ^ 16 = _
      omega
    simp only [if_true, Reg.isVector, Reg.fileSize, hunit, UInt16.le_iff_toNat_le]
    refine ⟨by omega, decide_eq_decide.2 ?_⟩
    show 256 ≤ 256 + first.toNat ↔ _
    omega
  | false =>
    simp only [Bool.false_eq_true, if_false, Reg.isVector, Reg.fileSize, Reg.sgpr,
      UInt16.le_iff_toNat_le]
    refine ⟨by omega, decide_eq_decide.2 ?_⟩
    show 256 ≤ first.toNat ↔ _
    omega

/-- Only valid ranges are read. -/
lemma isValid_of_readRange {word : String} {r : RegRange} (h : readRange word = .ok r) :
    r.isValid = true := by
  by_cases hexec : word = "exec"
  · rw [hexec] at h
    obtain rfl : RegRange.exec = r := Except.ok.inj h
    decide
  · -- only the letters of the two register files may start the word
    obtain ⟨isVector, chars, hword⟩ : ∃ isVector chars,
        word.toList = RegRange.letter isVector :: chars := by
      simp only [readRange, if_neg hexec] at h
      split at h
      next chars hword => exact ⟨true, chars, hword⟩
      next chars hword => exact ⟨false, chars, hword⟩
      next => cases h
    rw [readRange_letter hexec hword, bind_eq_ok] at h
    obtain ⟨bounds, -, h⟩ := h
    exact isValid_of_rangeBetween h

/-! ### Operands -/

/-- The name of a range starts with one of three letters. -/
lemma RegRange.head_name {r : RegRange} (h : r.isValid = true) :
    ∃ c ∈ ['e', 'v', 's'], r.name.toList.head? = some c := by
  by_cases hexec : r = .exec
  · rw [hexec]
    exact ⟨'e', by decide, rfl⟩
  · obtain ⟨isVector, first, last, hname, -⟩ := exists_name h hexec
    rw [hname, String.toList_ofList]
    exact ⟨letter isVector, by cases isVector <;> decide, rfl⟩

namespace Operand

variable {op : Operand}

/-- The name of a valid operand. -/
def name : Operand → String
  | .reg r => r.name
  | .const value => "#" ++ toString value.toNat
  | .undef => "undef"

lemma text_name (h : op.isValid = true) : op.text = .ok op.name := by
  cases op with
  | reg r => exact r.text_name h
  | const _ => rfl
  | undef => rfl

lemma toList_name_const (value : UInt32) :
    (name (.const value)).toList = '#' :: (toString value.toNat).toList :=
  String.toList_append

lemma isWord_name (h : op.isValid = true) : IsWord op.name := by
  cases op with
  | reg r => exact r.isWord_name h
  | const value =>
    refine ⟨?_, ?_⟩ <;> rw [toList_name_const]
    · exact List.cons_ne_nil _ _
    · rw [scan_wordChar (by decide)]
      exact (Number.writes_toString value.toNat).isWord.closed
  | undef => exact isWord_ofList

lemma head_name (h : op.isValid = true) :
    ∃ c ∈ ['e', 'v', 's', '#', 'u'], op.name.toList.head? = some c := by
  cases op with
  | reg r =>
    obtain ⟨c, hc, hhead⟩ := r.head_name h
    exact ⟨c, List.mem_append_left ['#', 'u'] hc, hhead⟩
  | const value => exact ⟨'#', by decide, by rw [toList_name_const]; rfl⟩
  | undef => exact ⟨'u', by decide, rfl⟩

/-- An operand is never taken for a flag. -/
lemma contains_flagWords (h : op.isValid = true) : flagWords.contains op.name = false := by
  obtain ⟨c, hc, hhead⟩ := head_name h
  rw [Bool.eq_false_iff, ne_eq, List.contains_iff_mem]
  intro hflag
  -- no flag starts with a letter that an operand may start with
  have hfirst : ∀ word ∈ flagWords, word.toList.head? ∉ ['e', 'v', 's', '#', 'u'].map some := by decide
  exact hfirst _ hflag (hhead ▸ List.mem_map_of_mem hc)

end Operand

/-- A valid operand is read back from its name. -/
lemma readOperand_name {op : Operand} (h : op.isValid = true) : readOperand op.name = .ok op := by
  cases op with
  | reg r =>
    -- the first letter keeps the name of a range apart from the other two sorts of operands
    obtain ⟨c, hc, hhead⟩ := r.head_name h
    have hundef : r.name ≠ "undef" := by
      intro heq
      rw [heq] at hhead
      obtain rfl : 'u' = c := Option.some.inj hhead
      exact absurd hc (by decide)
    rw [readOperand, Operand.name, if_neg hundef, readRange_name h]
    split
    next digits hdigits =>
      rw [hdigits] at hhead
      obtain rfl : '#' = c := Option.some.inj hhead
      exact absurd hc (by decide)
    next => rfl
  | const value =>
    have hundef : Operand.name (.const value) ≠ "undef" := by
      intro heq
      have hlist := Operand.toList_name_const value
      rw [heq] at hlist
      exact absurd (List.cons.inj hlist).1 (by decide)
    rw [readOperand, if_neg hundef, Operand.toList_name_const]
    simp only [String.ofList_toList, readWord32_of_writes (Number.writes_toString _)]
    rfl
  | undef => rfl

/-- Only valid operands are read. -/
lemma isValid_of_readOperand {word : String} {op : Operand} (h : readOperand word = .ok op) :
    op.isValid = true := by
  rw [readOperand] at h
  split at h
  case isTrue =>
    cases h
    rfl
  case isFalse =>
    split at h
    · cases hread : readWord32 (.ofList _) with
      | error _ => rw [hread] at h; cases h
      | ok value => rw [hread] at h; cases h; rfl
    · cases hread : readRange word with
      | error _ => rw [hread] at h; cases h
      | ok r => rw [hread] at h; cases h; exact isValid_of_readRange hread

end GpuWaits
