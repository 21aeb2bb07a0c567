/-
# What is read can be written

The reader lets through only what the writer has a text for.  Flags are read by their names, so that a
set never gets a bit without one, register ranges and the targets of a dependency wait are checked, and
the payload of an instruction is chosen by its opcode.  This file follows these facts through the
reader, one lemma for each of its functions.
-/
import GpuWaits.Proofs.Lines

namespace GpuWaits

open Token Reader

/-! ### Payloads -/

lemma Sync.isNamed_default : ({} : Sync).IsNamed := ⟨Flags.isNamed_empty, Flags.isNamed_empty⟩

/-- Only named flags are read into an access. -/
lemma isNamed_of_takeSync {sync sync' : Sync} {as rest : List Attribute} (hsync : sync.IsNamed)
    (h : takeSync sync as = .ok (sync', rest)) : sync'.IsNamed := by
  induction as generalizing sync rest with
  | nil =>
    cases h
    exact hsync
  | cons a as ih =>
    rw [takeSync] at h
    split at h
    next words _ _ =>
      obtain ⟨storage, hread, h⟩ := bind_eq_ok.1 h
      refine ih ?_ h
      exact ⟨isNamed_of_readFlags hread, hsync.semantics⟩
    next words _ _ =>
      obtain ⟨semantics, hread, h⟩ := bind_eq_ok.1 h
      refine ih ?_ h
      exact ⟨hsync.storage, isNamed_of_readFlags hread⟩
    next words _ _ =>
      obtain ⟨scope, -, h⟩ := bind_eq_ok.1 h
      refine ih ?_ h
      exact ⟨hsync.storage, hsync.semantics⟩
    next =>
      obtain ⟨⟨sync₁, rest₁⟩, hread, h⟩ := bind_eq_ok.1 h
      cases h
      exact ih hsync hread

lemma DependencyWait.Fits.set {w : DependencyWait} (hw : w.Fits) {d : Dependency} {target : UInt8}
    (h : target.toNat ≤ d.limit) : (w.set d target).Fits := by
  intro e
  rw [get_set]
  split
  case isTrue heq => rw [heq]; exact h
  case isFalse => exact hw e

/-- Only targets that fit their fields are read. -/
lemma fits_of_readDependencies {as : List Attribute} {w : DependencyWait}
    (h : readDependencies as = .ok w) : w.Fits := by
  refine foldlM_invariant DependencyWait.Fits ?_ DependencyWait.fits_none h
  intro a _ v v' hv hstep
  obtain ⟨target, -, hstep⟩ := bind_eq_ok.1 hstep
  split at hstep
  next v₁ hset =>
    cases hstep
    simp only [DependencyWait.setByName?, Option.bind_eq_bind, Option.bind_eq_some_iff] at hset
    obtain ⟨d, -, hset⟩ := hset
    split at hset
    case isTrue hle =>
      cases hset
      exact hv.set hle
    case isFalse => cases hset
  next => cases hstep

/-- Outside of the format of the waits nothing else is asked of a payload. -/
lemma Instruction.isCoherent_of_format {i : Instruction} {f : Format} (hf : i.opcode.format = f)
    (hfits : i.payload.fits f = true) (hne : f ≠ .sopp) : i.isCoherent = true := by
  have hopcode : ∀ o : Opcode, o.format = .sopp → (i.opcode == o) = false := by
    intro o ho
    rw [beq_eq_false_iff_ne]
    rintro rfl
    exact hne (hf.symm.trans ho)
  rw [isCoherent, hopcode _ rfl, hopcode _ rfl, format, hf, hfits]
  rw [Payload.fits_iff] at hfits
  cases hp : i.payload with
  | wait w | dependencyWait w =>
    rw [hp] at hfits
    exact absurd (List.mem_singleton.1 hfits) hne
  | _ => rfl

/-- The payload that is read goes with its opcode and can be written. -/
lemma writable_of_readPayload {i : Instruction} {as rest : List Attribute}
    (h : readPayload i.opcode as = .ok (i.payload, rest)) :
    i.isCoherent = true ∧ i.payload.Writable := by
  obtain ⟨opcode, definitions, operands, payload⟩ := i
  simp only at h ⊢
  unfold readPayload at h
  cases hf : opcode.format with
  | sop1 | sop2 | valu =>
    simp only [hf, pure_eq_ok, Prod.mk.injEq] at h
    obtain ⟨rfl, -⟩ := h
    exact ⟨Instruction.isCoherent_of_format hf rfl (by decide), trivial⟩
  | vinterpInreg =>
    simp only [hf] at h
    obtain ⟨x, -, h⟩ := bind_eq_ok.1 h
    cases h
    exact ⟨Instruction.isCoherent_of_format hf rfl (by decide), trivial⟩
  | smem | ldsDir | mubuf | mtbuf | mimg | flat | global | scratch =>
    simp only [hf] at h
    obtain ⟨x, hsync, h⟩ := bind_eq_ok.1 h
    cases h
    exact ⟨Instruction.isCoherent_of_format hf rfl (by decide),
      isNamed_of_takeSync Sync.isNamed_default hsync⟩
  | ds =>
    simp only [hf] at h
    obtain ⟨x, hsync, h⟩ := bind_eq_ok.1 h
    obtain ⟨y, -, h⟩ := bind_eq_ok.1 h
    obtain ⟨z, -, h⟩ := bind_eq_ok.1 h
    cases h
    exact ⟨Instruction.isCoherent_of_format hf rfl (by decide),
      isNamed_of_takeSync Sync.isNamed_default hsync⟩
  | pseudoBarrier =>
    simp only [hf] at h
    obtain ⟨x, hsync, h⟩ := bind_eq_ok.1 h
    obtain ⟨y, -, h⟩ := bind_eq_ok.1 h
    cases h
    exact ⟨Instruction.isCoherent_of_format hf rfl (by decide),
      isNamed_of_takeSync Sync.isNamed_default hsync⟩
  | exp =>
    simp only [hf] at h
    split at h
    next value _ =>
      obtain ⟨dest, -, h⟩ := bind_eq_ok.1 h
      obtain ⟨x, -, h⟩ := bind_eq_ok.1 h
      cases h
      exact ⟨Instruction.isCoherent_of_format hf rfl (by decide), trivial⟩
    next => cases h
  | sopp =>
    simp only [hf] at h
    split at h
    next =>
      obtain ⟨w, -, h⟩ := bind_eq_ok.1 h
      cases h
      exact ⟨rfl, trivial⟩
    next =>
      obtain ⟨w, hw, h⟩ := bind_eq_ok.1 h
      cases h
      exact ⟨rfl, fits_of_readDependencies hw⟩
    next hwait hdep =>
      obtain ⟨x, -, h⟩ := bind_eq_ok.1 h
      cases h
      refine ⟨?_, trivial⟩
      have hwait' : (opcode == .sWaitcnt) = false := beq_eq_false_iff_ne.2 hwait
      have hdep' : (opcode == .sWaitcntDepctr) = false := beq_eq_false_iff_ne.2 hdep
      rw [Instruction.isCoherent, Instruction.format, hf, hwait', hdep']
      rfl

/-! ### Instructions -/

lemma isValid_of_readDefinitions {word : String} {tokens rest : List Token} {rs : List RegRange}
    (h : readDefinitions word tokens = .ok (rs, rest)) : ∀ r ∈ rs, r.isValid = true := by
  fun_induction readDefinitions word tokens generalizing rs rest with
  | case1 word _ _ next tokens ih =>
    obtain ⟨r, hr, h⟩ := bind_eq_ok.1 h
    obtain ⟨⟨rs', rest'⟩, hrs, h⟩ := bind_eq_ok.1 h
    cases h
    exact List.forall_mem_cons.2 ⟨isValid_of_readRange hr, ih hrs⟩
  | case2 =>
    obtain ⟨r, hr, h⟩ := bind_eq_ok.1 h
    cases h
  | case3 =>
    obtain ⟨r, hr, h⟩ := bind_eq_ok.1 h
    cases h
    exact List.forall_mem_singleton.2 (isValid_of_readRange hr)
  | case4 =>
    obtain ⟨r, hr, h⟩ := bind_eq_ok.1 h
    cases h

/-- Every operand that is read is valid. -/
lemma isValid_of_readArguments {tokens : List Token} {before operands : List Operand}
    {attributes attributes' : List Attribute} (hbefore : ∀ op ∈ before, op.isValid = true)
    (h : readArguments before attributes tokens = .ok (operands, attributes')) :
    ∀ op ∈ operands, op.isValid = true := by
  fun_induction readArguments before attributes tokens with
  | case1 before attributes =>
    cases h
    exact hbefore
  | case2 => cases h
  -- an attribute, with or without a value, leaves the operands alone
  | case3 _ _ _ _ _ _ _ _ ih => exact ih hbefore h
  | case4 _ _ _ _ _ _ _ ih => exact ih hbefore h
  | case5 => cases h
  | case6 before _ _ _ _ _ _ op hread ih =>
    refine ih (List.forall_mem_append.2 ⟨hbefore, ?_⟩) h
    exact List.forall_mem_singleton.2 (isValid_of_readOperand hread)
  | case7 => cases h

lemma writable_of_readBody {definitions : List RegRange} {word : String} {tokens : List Token}
    {i : Instruction} (hdefinitions : ∀ r ∈ definitions, r.isValid = true)
    (h : Instruction.readBody definitions word tokens = .ok i) : i.Writable := by
  rw [Instruction.readBody] at h
  split at h
  next opcode _ =>
    obtain ⟨⟨operands, attributes⟩, hoperands, h⟩ := bind_eq_ok.1 h
    obtain ⟨⟨payload, left⟩, hpayload, h⟩ := bind_eq_ok.1 h
    cases left with
    | cons a left => cases h
    | nil =>
      cases h
      obtain ⟨hcoherent, hwritable⟩ := writable_of_readPayload
        (i := ⟨opcode, definitions, operands, payload⟩) hpayload
      have hvalid := isValid_of_readArguments (List.forall_mem_nil _) hoperands
      exact ⟨hcoherent, hdefinitions, hvalid, hwritable⟩
  next => cases h

/-- Every instruction that is read can be written. -/
lemma writable_of_readInstruction {word : String} {tokens : List Token} {i : Instruction}
    (h : readInstruction word tokens = .ok i) : i.Writable := by
  by_cases htokens : Detached tokens
  · rw [Instruction.readInstruction_of_body htokens] at h
    exact writable_of_readBody (List.forall_mem_nil _) h
  · rw [Instruction.readInstruction_of_definitions htokens] at h
    obtain ⟨⟨definitions, rest⟩, hdefinitions, h⟩ := bind_eq_ok.1 h
    split at h
    next heq =>
      cases heq
      exact writable_of_readBody (isValid_of_readDefinitions hdefinitions) h
    next => cases h

/-! ### Blocks and configurations -/

/-- The attributes of a block leave its number alone, and only named roles are read. -/
lemma block_of_readBlockAttributes {b b' : Block} {tokens : List Token} (hb : b.kind.IsNamed)
    (h : readBlockAttributes b tokens = .ok b') :
    b'.kind.IsNamed ∧ b'.index = b.index ∧ b'.instructions = b.instructions := by
  fun_induction readBlockAttributes b tokens with
  | case1 =>
    cases h
    exact ⟨hb, rfl, rfl⟩
  -- the four keys; with anything else the reader stops
  | case5 _ _ _ _ _ _ _ kind hkind ih => exact ih (isNamed_of_readFlags hkind) h
  | case7 _ _ _ _ _ _ _ ih => exact ih hb h
  | case9 _ _ _ _ _ _ _ ih => exact ih hb h
  | case11 _ _ _ _ _ _ _ _ ih => exact ih hb h
  | _ => cases h

/-- The block that is read has the number that it should have. -/
lemma writable_of_readBlock {count : Nat} {tokens : List Token} {b : Block}
    (h : readBlock count tokens = .ok b) : b.Writable ∧ b.index.toNat = count := by
  rw [readBlock.eq_def] at h
  split at h
  next spaced number tokens =>
    obtain ⟨index, -, h⟩ := bind_eq_ok.1 h
    split at h
    case isTrue => cases h
    case isFalse hindex =>
      obtain ⟨hkind, hnumber, hinstructions⟩ := block_of_readBlockAttributes Flags.isNamed_empty h
      refine ⟨⟨hkind, ?_⟩, ?_⟩
      · rw [hinstructions]
        exact List.forall_mem_nil _
      · rw [hnumber]
        exact not_not.1 hindex
  next => cases h

/-- A configuration is read only with a wave size that exists. -/
lemma waveSize_of_readConfigEntries {c c' : Config} {tokens : List Token}
    (h : readConfigEntries c tokens = .ok c') : c'.waveSize = 32 ∨ c'.waveSize = 64 := by
  fun_induction readConfigEntries c tokens with
  | case1 c hsize =>
    cases h
    exact hsize
  | case3 _ _ _ ih => exact ih h
  | case4 _ _ _ ih => exact ih h
  | case5 _ _ _ _ _ _ _ _ _ ih =>
    obtain ⟨value, -, h⟩ := bind_eq_ok.1 h
    obtain ⟨c', -, h⟩ := bind_eq_ok.1 h
    exact ih c' h
  | _ => cases h

lemma waveSize_of_readConfig {c : Config} {tokens : List Token} (h : readConfig tokens = .ok c) :
    c.waveSize = 32 ∨ c.waveSize = 64 := by
  rw [readConfig.eq_def] at h
  split at h
  next =>
    split at h
    · exact waveSize_of_readConfigEntries h
    · cases h
  next => cases h

end GpuWaits
