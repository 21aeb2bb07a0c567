/-
# Images that are loaded back

An image holds all of a program and says where it ends.  Loading it gives back the program, whatever
bytes follow, and nothing is loaded from a part of it (`Image.load_save`).  So no image is the
beginning of another one.

Codecs are put together from smaller ones, and so are the proofs.  There are two laws.  A codec reads
back what it writes for a value, and leaves what follows (`Codec.Reads`).  And a reader that has found
its value finds the same one when more bytes follow (`Codec.Steady`): this holds for bytes that nobody
has written as well, and from it follows that a part of an image cannot be read.

The length of a list is written in eight bytes, so a list may not have 2^64 members
(`Program.Storable`).  No list in memory is that long.
-/
import GpuWaits.Image
import GpuWaits.Validation
import Mathlib.Algebra.Group.Nat.Defs
import Mathlib.Data.List.Basic
import Mathlib.Tactic.Common

namespace GpuWaits

namespace Codec

variable {α β : Type} {c : Codec α} {d : Codec β}

/-- What is written for `a` is read back as `a`, and what follows is left. -/
def Reads (c : Codec α) (a : α) : Prop :=
  ∀ rest, c.decode (c.encode a ++ rest) = some (a, rest)

/-- What has been read is read as well when more bytes follow, and these are left. -/
def Steady (c : Codec α) : Prop :=
  ∀ ⦃bytes : List UInt8⦄ ⦃a : α⦄ ⦃rest : List UInt8⦄, c.decode bytes = some (a, rest) →
    ∀ more, c.decode (bytes ++ more) = some (a, rest ++ more)

/-- Nothing is read from a part of what is written. -/
lemma Reads.decode_eq_none {a : α} (h : c.Reads a) (hsteady : c.Steady) {part : List UInt8}
    (hpart : part <+: c.encode a) (hne : part ≠ c.encode a) : c.decode part = none := by
  obtain ⟨missing, hmissing⟩ := hpart
  cases hread : c.decode part with
  | none => rfl
  | some r =>
    -- What is missing would have been left over.
    have hmore := hsteady (show c.decode part = some (r.1, r.2) from hread) missing
    have hall := h []
    rw [hmissing] at hmore
    rw [List.append_nil, hmore, Option.some.injEq, Prod.mk.injEq, List.append_eq_nil_iff] at hall
    rw [hall.2.2, List.append_nil] at hmissing
    exact absurd hmissing hne

/-! ### Putting codecs together -/

lemma decode_partialMap {f : α → Option β} {g : β → α} {bytes rest : List UInt8} {b : β} :
    (c.partialMap f g).decode bytes = some (b, rest)
      ↔ ∃ a, c.decode bytes = some (a, rest) ∧ f a = some b := by
  simp [partialMap, Option.bind_eq_some_iff]

lemma decode_pair {bytes rest : List UInt8} {x : α × β} :
    (c.pair d).decode bytes = some (x, rest)
      ↔ ∃ mid, c.decode bytes = some (x.1, mid) ∧ d.decode mid = some (x.2, rest) := by
  obtain ⟨a, b⟩ := x
  simp [pair, Option.bind_eq_some_iff]

lemma Reads.partialMap {f : α → Option β} {g : β → α} {b : β} (h : c.Reads (g b))
    (hf : f (g b) = some b) : (c.partialMap f g).Reads b :=
  fun rest => decode_partialMap.2 ⟨g b, h rest, hf⟩

lemma Steady.partialMap (h : c.Steady) {f : α → Option β} {g : β → α} :
    (c.partialMap f g).Steady := by
  intro bytes b rest hb more
  obtain ⟨a, ha, hf⟩ := decode_partialMap.1 hb
  exact decode_partialMap.2 ⟨a, h ha more, hf⟩

lemma Reads.map {f : α → β} {g : β → α} {b : β} (h : c.Reads (g b)) (hf : f (g b) = b) :
    (c.map f g).Reads b :=
  h.partialMap (congrArg some hf)

lemma Steady.map (h : c.Steady) {f : α → β} {g : β → α} : (c.map f g).Steady := h.partialMap

lemma Reads.pair {x : α × β} (h : c.Reads x.1) (h' : d.Reads x.2) : (c.pair d).Reads x := by
  intro rest
  refine decode_pair.2 ⟨d.encode x.2 ++ rest, ?_, h' rest⟩
  rw [← h (d.encode x.2 ++ rest), ← List.append_assoc]
  rfl

lemma Steady.pair (h : c.Steady) (h' : d.Steady) : (c.pair d).Steady := by
  intro bytes x rest hx more
  obtain ⟨mid, ha, hb⟩ := decode_pair.1 hx
  exact decode_pair.2 ⟨mid ++ more, h ha more, h' hb more⟩

/-! ### Numbers -/

lemma reads_littleEndian {width n : Nat} (h : n < 256 ^ width) : (littleEndian width).Reads n := by
  induction width generalizing n with
  | zero =>
    intro rest
    rw [Nat.pow_zero, Nat.lt_one_iff] at h
    rw [h]
    rfl
  | succ width ih =>
    intro rest
    have hhigh : n / 256 < 256 ^ width := by
      rw [Nat.div_lt_iff_lt_mul (by decide), ← Nat.pow_succ]
      exact h
    simp [littleEndian, ih hhigh rest, Nat.mod_add_div]

lemma steady_littleEndian (width : Nat) : (littleEndian width).Steady := by
  induction width with
  | zero =>
    intro bytes a rest h more
    cases h
    rfl
  | succ width ih =>
    intro bytes a rest h more
    cases bytes with
    | nil => cases h
    | cons byte bytes =>
      simp only [littleEndian, Option.bind_eq_bind, Option.bind_eq_some_iff, Prod.exists] at h
      obtain ⟨high, left, hhigh, h⟩ := h
      simp only [List.cons_append, littleEndian, ih hhigh more]
      cases h
      rfl

lemma reads_byte (n : UInt8) : byte.Reads n :=
  .map (reads_littleEndian n.toNat_lt) UInt8.ofNat_toNat

lemma reads_word16 (n : UInt16) : word16.Reads n :=
  .map (reads_littleEndian n.toNat_lt) UInt16.ofNat_toNat

lemma reads_word32 (n : UInt32) : word32.Reads n :=
  .map (reads_littleEndian n.toNat_lt) UInt32.ofNat_toNat

lemma steady_byte : byte.Steady := (steady_littleEndian 1).map

lemma steady_word16 : word16.Steady := (steady_littleEndian 2).map

lemma steady_word32 : word32.Steady := (steady_littleEndian 4).map

lemma reads_bool (b : Bool) : bool.Reads b := by
  refine (reads_byte _).partialMap ?_
  cases b <;> rfl

lemma steady_bool : bool.Steady := steady_byte.partialMap

lemma reads_flags16 (s : Flags α 16) : flags16.Reads s := (reads_word16 _).map rfl

lemma steady_flags16 : (flags16 : Codec (Flags α 16)).Steady := steady_word16.map

lemma reads_flags8 (s : Flags α 8) : flags8.Reads s := (reads_byte _).map rfl

lemma steady_flags8 : (flags8 : Codec (Flags α 8)).Steady := steady_byte.map

/-- A member of an enumeration is found at its place. -/
lemma reads_oneOf [DecidableEq α] {all : List α} {a : α} (ha : a ∈ all)
    (hlength : all.length ≤ 256 ^ 4) : (oneOf all).Reads a :=
  .partialMap (reads_littleEndian (Nat.lt_of_lt_of_le (List.idxOf_lt_length_of_mem ha) hlength))
    (List.getElem?_idxOf ha)

lemma steady_oneOf [DecidableEq α] (all : List α) : (oneOf all).Steady :=
  (steady_littleEndian 4).partialMap

/-! ### Lists -/

lemma decodeMany_flatMap {as : List α} (h : ∀ a ∈ as, c.Reads a) (rest : List UInt8) :
    c.decodeMany as.length (as.flatMap c.encode ++ rest) = some (as, rest) := by
  induction as with
  | nil => rfl
  | cons a as ih =>
    have hfirst := h a List.mem_cons_self (as.flatMap c.encode ++ rest)
    have hrest := ih fun b hb => h b (List.mem_cons_of_mem a hb)
    simp [decodeMany, hfirst, hrest]

lemma Steady.decodeMany (h : c.Steady) {n : Nat} {bytes rest : List UInt8} {as : List α}
    (hread : c.decodeMany n bytes = some (as, rest)) (more : List UInt8) :
    c.decodeMany n (bytes ++ more) = some (as, rest ++ more) := by
  induction n generalizing bytes as with
  | zero =>
    cases hread
    rfl
  | succ n ih =>
    simp only [Codec.decodeMany, Option.bind_eq_bind, Option.bind_eq_some_iff, Prod.exists] at hread
    obtain ⟨a, left, ha, as', left', has, heq⟩ := hread
    cases heq
    simp [Codec.decodeMany, h ha more, ih has]

lemma reads_list {as : List α} (h : ∀ a ∈ as, c.Reads a) (hlength : as.length < UInt64.size) :
    (list c).Reads as := by
  intro rest
  have hcount : (littleEndian 8).Reads as.length := reads_littleEndian hlength
  simp [list, hcount (as.flatMap c.encode ++ rest), decodeMany_flatMap h]

lemma Steady.list (h : c.Steady) : (list c).Steady := by
  intro bytes as rest has more
  simp only [Codec.list, Option.bind_eq_bind, Option.bind_eq_some_iff, Prod.exists] at has ⊢
  obtain ⟨n, left, hn, hmany⟩ := has
  exact ⟨n, left ++ more, steady_littleEndian 8 hn more, h.decodeMany hmany more⟩

/-! ### Parts of an instruction -/

lemma reads_scope (s : Scope) : scope.Reads s := reads_oneOf s.mem_all (by decide)

lemma steady_scope : scope.Steady := steady_oneOf _

lemma reads_opcode (o : Opcode) : opcode.Reads o := reads_oneOf o.mem_all (by decide)

lemma steady_opcode : opcode.Steady := steady_oneOf _

lemma reads_sync (s : Sync) : sync.Reads s :=
  (Reads.pair (reads_flags16 _) (.pair (reads_flags8 _) (reads_scope _))).map rfl

lemma steady_sync : sync.Steady := (steady_flags16.pair (steady_flags8.pair steady_scope)).map

lemma reads_range (r : RegRange) : range.Reads r := (Reads.pair (reads_word16 _) (reads_byte _)).map rfl

lemma steady_range : range.Steady := (steady_word16.pair steady_byte).map

lemma reads_dsAccess (a : DsAccess) : dsAccess.Reads a :=
  (Reads.pair (reads_sync _) (.pair (reads_bool _) (.pair (reads_word16 _) (reads_byte _)))).map rfl

lemma steady_dsAccess : dsAccess.Steady :=
  (steady_sync.pair (steady_bool.pair (steady_word16.pair steady_byte))).map

lemma reads_exportData (e : Export) : exportData.Reads e :=
  (Reads.pair (reads_byte _) (.pair (reads_byte _) (reads_bool _))).map rfl

lemma steady_exportData : exportData.Steady := (steady_byte.pair (steady_byte.pair steady_bool)).map

lemma reads_flatAccess (a : FlatAccess) : flatAccess.Reads a :=
  (Reads.pair (reads_sync _) (reads_bool _)).map rfl

lemma steady_flatAccess : flatAccess.Steady := (steady_sync.pair steady_bool).map

lemma reads_barrierRequest (b : BarrierRequest) : barrierRequest.Reads b :=
  (Reads.pair (reads_sync _) (reads_scope _)).map rfl

lemma steady_barrierRequest : barrierRequest.Steady := (steady_sync.pair steady_scope).map

lemma reads_wait (w : Wait) : wait.Reads w := by
  refine .map ?_ rfl
  repeat' apply Reads.pair
  all_goals exact reads_word16 _

lemma steady_wait : wait.Steady := by
  refine Steady.map ?_
  repeat' apply Steady.pair
  all_goals exact steady_word16

lemma reads_dependencyWait (w : DependencyWait) : dependencyWait.Reads w := by
  refine .map ?_ rfl
  repeat' apply Reads.pair
  all_goals exact reads_byte _

lemma steady_dependencyWait : dependencyWait.Steady := by
  refine Steady.map ?_
  repeat' apply Steady.pair
  all_goals exact steady_byte

/-! ### Alternatives

The number of an alternative comes first and decides how the rest is read. -/

lemma decode_tag {n : Nat} (hn : n < 256 ^ 4) (rest : List UInt8) :
    tag.decode (tag.encode n ++ rest) = some (n, rest) :=
  reads_littleEndian hn rest

lemma steady_tag : tag.Steady := steady_littleEndian 4

lemma Steady.tagged (h : c.Steady) (f : α → β) {bytes rest : List UInt8} {b : β}
    (hread : (c.decode bytes).map (fun x => (f x.1, x.2)) = some (b, rest)) (more : List UInt8) :
    (c.decode (bytes ++ more)).map (fun x => (f x.1, x.2)) = some (b, rest ++ more) := by
  obtain ⟨x, hx, heq⟩ := Option.map_eq_some_iff.1 hread
  cases heq
  rw [h hx more, Option.map_some]

lemma reads_payload (p : Payload) : payload.Reads p := by
  intro rest
  cases p with
  | salu => simp [payload, decode_tag]
  | sopp imm => simp [payload, decode_tag, reads_word16 imm rest]
  | valu => simp [payload, decode_tag]
  | interp waitExp => simp [payload, decode_tag, reads_byte waitExp rest]
  | smem s => simp [payload, decode_tag, reads_sync s rest]
  | ds access => simp [payload, decode_tag, reads_dsAccess access rest]
  | ldsDir s => simp [payload, decode_tag, reads_sync s rest]
  | exp data => simp [payload, decode_tag, reads_exportData data rest]
  | flat access => simp [payload, decode_tag, reads_flatAccess access rest]
  | vmem s => simp [payload, decode_tag, reads_sync s rest]
  | barrier request => simp [payload, decode_tag, reads_barrierRequest request rest]
  | wait w => simp [payload, decode_tag, reads_wait w rest]
  | dependencyWait w => simp [payload, decode_tag, reads_dependencyWait w rest]

lemma steady_payload : payload.Steady := by
  intro bytes p rest h more
  obtain ⟨⟨n, left⟩, hn, h⟩ := Option.bind_eq_some_iff.1 h
  refine Option.bind_eq_some_iff.2 ⟨(n, left ++ more), steady_tag hn more, ?_⟩
  dsimp only at h ⊢
  split at h
  · cases h
    rfl
  · exact steady_word16.tagged Payload.sopp h more
  · cases h
    rfl
  · exact steady_byte.tagged Payload.interp h more
  · exact steady_sync.tagged Payload.smem h more
  · exact steady_dsAccess.tagged Payload.ds h more
  · exact steady_sync.tagged Payload.ldsDir h more
  · exact steady_exportData.tagged Payload.exp h more
  · exact steady_flatAccess.tagged Payload.flat h more
  · exact steady_sync.tagged Payload.vmem h more
  · exact steady_barrierRequest.tagged Payload.barrier h more
  · exact steady_wait.tagged Payload.wait h more
  · exact steady_dependencyWait.tagged Payload.dependencyWait h more
  · cases h

lemma reads_operand (op : Operand) : operand.Reads op := by
  intro rest
  cases op with
  | reg r => simp [operand, decode_tag, reads_range r rest]
  | const value => simp [operand, decode_tag, reads_word32 value rest]
  | undef => simp [operand, decode_tag]

lemma steady_operand : operand.Steady := by
  intro bytes op rest h more
  obtain ⟨⟨n, left⟩, hn, h⟩ := Option.bind_eq_some_iff.1 h
  refine Option.bind_eq_some_iff.2 ⟨(n, left ++ more), steady_tag hn more, ?_⟩
  dsimp only at h ⊢
  split at h
  · exact steady_range.tagged Operand.reg h more
  · exact steady_word32.tagged Operand.const h more
  · cases h
    rfl
  · cases h

end Codec

/-! ### Programs -/

/-- The lengths of the lists of an instruction can be written. -/
structure Instruction.Storable (i : Instruction) : Prop where
  definitions : i.definitions.length < UInt64.size
  operands : i.operands.length < UInt64.size

/-- The lengths of all lists in a block can be written. -/
structure Block.Storable (b : Block) : Prop where
  linearPreds : b.linearPreds.length < UInt64.size
  logicalPreds : b.logicalPreds.length < UInt64.size
  instructions : b.instructions.length < UInt64.size
  code : ∀ i ∈ b.instructions, i.Storable

/-- The lengths of all lists in a program can be written. -/
structure Program.Storable (p : Program) : Prop where
  blocks : p.blocks.length < UInt64.size
  pendingVmem : p.pendingVmem.length < UInt64.size
  code : ∀ b ∈ p.blocks, b.Storable

namespace Codec

lemma reads_instruction {i : Instruction} (h : i.Storable) : instruction.Reads i :=
  (Reads.pair (reads_opcode _) (.pair (reads_list (fun r _ => reads_range r) h.definitions)
    (.pair (reads_list (fun op _ => reads_operand op) h.operands) (reads_payload _)))).map rfl

lemma steady_instruction : instruction.Steady :=
  (steady_opcode.pair (steady_range.list.pair (steady_operand.list.pair steady_payload))).map

lemma reads_block {b : Block} (h : b.Storable) : block.Reads b :=
  (Reads.pair (reads_word32 _) (.pair (reads_flags16 _)
    (.pair (reads_list (fun n _ => reads_word32 n) h.linearPreds)
      (.pair (reads_list (fun n _ => reads_word32 n) h.logicalPreds)
        (.pair (reads_word32 _)
          (reads_list (fun i hi => reads_instruction (h.code i hi)) h.instructions)))))).map rfl

lemma steady_block : block.Steady :=
  (steady_word32.pair (steady_flags16.pair (steady_word32.list.pair (steady_word32.list.pair
    (steady_word32.pair steady_instruction.list))))).map

lemma reads_config (c : Config) : config.Reads c :=
  (Reads.pair (reads_oneOf c.generation.mem_all (by decide)) (.pair (reads_word32 _)
    (.pair (reads_word32 _) (.pair (reads_bool _) (.pair (reads_bool _) (.pair (reads_word32 _)
      (.pair (reads_word32 _) (reads_word32 _)))))))).map rfl

lemma steady_config : config.Steady :=
  ((steady_oneOf _).pair (steady_word32.pair (steady_word32.pair (steady_bool.pair (steady_bool.pair
    (steady_word32.pair (steady_word32.pair steady_word32))))))).map

lemma reads_program {p : Program} (h : p.Storable) : program.Reads p :=
  (Reads.pair (reads_config _) (.pair (reads_list (fun b hb => reads_block (h.code b hb)) h.blocks)
    (.pair (reads_bool _) (reads_list (fun r _ => reads_range r) h.pendingVmem)))).map rfl

lemma steady_program : program.Steady :=
  (steady_config.pair (steady_block.list.pair (steady_bool.pair steady_range.list))).map

end Codec

namespace Image

/-- The image of a program is loaded back, whatever bytes follow it, and from a part of an image no
program is loaded. -/
theorem load_save {p : Program} (h : p.Storable) :
    (∀ more, load (save p ++ more) = .ok p)
      ∧ ∀ part, part <+: save p → part ≠ save p → load part = .error .malformed := by
  have hreads : Codec.image.Reads (version, p) := (Codec.reads_word32 _).pair (Codec.reads_program h)
  have hsteady : Codec.image.Steady := Codec.steady_word32.pair Codec.steady_program
  refine ⟨fun more => ?_, fun part hpart hne => ?_⟩
  · rw [load, save, hreads more]
    exact if_pos rfl
  · rw [load, hreads.decode_eq_none hsteady hpart hne]

example : save {} =
    [1, 0, 0, 0, 4, 0, 0, 0, 64, 0, 0, 0, 64, 0, 0, 0, 0, 0, 0, 2, 0, 0, 16, 0, 0, 0, 0, 0, 0, 0]
      ++ List.replicate 17 0 := by decide

/-- A program that no text stands for: its block is out of place and has roles without a name, its
ranges are empty or outside of all registers, and its payloads do not fit the opcodes. -/
def oddments : Program where
  config := { generation := .gfx10_3, waveSize := 7, sramEcc := true, numVgprs := 0xffffffff }
  blocks := [
    { index := 9, kind := ⟨0xfc00#16⟩, linearPreds := [4, 4], logicalPreds := [0xffffffff]
      loopDepth := 3
      instructions := [
        ⟨.vMovB32, [⟨⟨0xffff⟩, 0⟩, ⟨.vgpr 1, 255⟩], [.const 0xdeadbeef, .undef],
          .wait (.single .vm 300)⟩,
        ⟨.pBarrier, [], [.reg ⟨.sgpr 8, 1⟩],
          .ds { sync := { storage := ⟨0x8001#16⟩, semantics := ⟨0x80#8⟩, scope := .device }
                offset0 := 0x1234 }⟩,
        ⟨.sEndpgm, [], [], .dependencyWait { DependencyWait.none with vaVdst := 200 }⟩] }]
  pendingLds := true
  pendingVmem := [⟨.vgpr 250, 20⟩]

theorem load_save_oddments : oddments.Storable ∧ oddments.validate ≠ .ok ()
    ∧ load (save oddments ++ [0, 1, 2]) = .ok oddments
    ∧ load ((save oddments).take 120) = .error .malformed := by
  have hinstruction : ∀ b ∈ oddments.blocks, ∀ i ∈ b.instructions,
      i.definitions.length < UInt64.size ∧ i.operands.length < UInt64.size := by decide
  have hblock : ∀ b ∈ oddments.blocks, b.linearPreds.length < UInt64.size
      ∧ b.logicalPreds.length < UInt64.size ∧ b.instructions.length < UInt64.size := by decide
  have hstorable : oddments.Storable :=
    { blocks := by decide
      pendingVmem := by decide
      code := fun b hb =>
        { linearPreds := (hblock b hb).1
          logicalPreds := (hblock b hb).2.1
          instructions := (hblock b hb).2.2
          code := fun i hi => ⟨(hinstruction b hb i hi).1, (hinstruction b hb i hi).2⟩ } }
  obtain ⟨hload, hpart⟩ := load_save hstorable
  exact ⟨hstorable, by decide +kernel, hload [0, 1, 2],
    hpart _ (List.take_prefix 120 _) (by decide +kernel)⟩

end Image

end GpuWaits
