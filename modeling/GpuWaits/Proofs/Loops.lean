/-
# Valid programs and their loops

A valid program brackets its loops by headers and exits.  `openHeaders` is the stack of the headers
that are open in front of a block; validation, the sweep and the number of loops around a block all
follow it.  This file reads off from a successful validation what later proofs need of a block
(`Block.Placed`), and shows how the stack behaves between a header and its exit: a header that is
open somewhere has been open ever since it was entered, on top of the same stack.
-/
import GpuWaits.Proofs.Faults
import GpuWaits.Validation

namespace GpuWaits

/-- The headers of the loops that are open in front of the block at the place `n`, innermost first. -/
def openHeaders (blocks : List Block) : Nat → List Nat
  | 0 => []
  | n + 1 =>
    match blocks[n]? with
    | none => openHeaders blocks n
    | some b =>
      if .loopHeader ∈ b.kind then n :: openHeaders blocks n
      else if .loopExit ∈ b.kind then (openHeaders blocks n).tail
      else openHeaders blocks n

section Stack

variable {blocks : List Block} {m n h : Nat}

lemma openHeaders_header {b : Block} (hb : blocks[n]? = some b) (hk : .loopHeader ∈ b.kind) :
    openHeaders blocks (n + 1) = n :: openHeaders blocks n := by
  simp [openHeaders, hb, hk]

lemma openHeaders_exit {b : Block} (hb : blocks[n]? = some b) (hk : .loopHeader ∉ b.kind)
    (he : .loopExit ∈ b.kind) : openHeaders blocks (n + 1) = (openHeaders blocks n).tail := by
  simp [openHeaders, hb, hk, he]

lemma openHeaders_plain {b : Block} (hb : blocks[n]? = some b) (hk : .loopHeader ∉ b.kind)
    (he : .loopExit ∉ b.kind) : openHeaders blocks (n + 1) = openHeaders blocks n := by
  simp [openHeaders, hb, hk, he]

lemma openHeaders_of_length_le (h : blocks.length ≤ n) :
    openHeaders blocks n = openHeaders blocks blocks.length := by
  induction h with
  | refl => rfl
  | step hn ih => rw [openHeaders, List.getElem?_eq_none_iff.2 hn, ih]

/-- A place enters the stack or leaves it, or nothing happens. -/
lemma openHeaders_succ (blocks : List Block) (n : Nat) :
    (∃ b, blocks[n]? = some b ∧ .loopHeader ∈ b.kind
        ∧ openHeaders blocks (n + 1) = n :: openHeaders blocks n)
      ∨ openHeaders blocks (n + 1) = (openHeaders blocks n).tail
      ∨ openHeaders blocks (n + 1) = openHeaders blocks n := by
  rw [openHeaders]
  cases blocks[n]? with
  | none => exact .inr (.inr rfl)
  | some b =>
    dsimp only
    split
    · exact .inl ⟨b, rfl, ‹_›, rfl⟩
    · split
      · exact .inr (.inl rfl)
      · exact .inr (.inr rfl)

/-- Below an open header lies the stack from the time when it was entered. -/
lemma openHeaders_below (above : List Nat) {below : List Nat}
    (hm : openHeaders blocks m = above ++ h :: below) :
    h < m ∧ openHeaders blocks h = below ∧ openHeaders blocks (h + 1) = h :: below := by
  induction m generalizing above with
  | zero => simp [openHeaders] at hm
  | succ m ih =>
    rcases openHeaders_succ blocks m with ⟨b, hb, hk, hpush⟩ | hpop | hsame
    · rw [hpush] at hm
      cases above with
      | nil =>
        obtain ⟨rfl, rfl⟩ : m = h ∧ openHeaders blocks m = below := by simpa using hm
        exact ⟨by omega, rfl, hpush⟩
      | cons a above =>
        obtain ⟨-, hm⟩ : m = a ∧ openHeaders blocks m = above ++ h :: below := by simpa using hm
        have := ih above hm
        exact ⟨by omega, this.2⟩
    · rw [hpop] at hm
      obtain ⟨top, htop⟩ : ∃ top, openHeaders blocks m = top :: (above ++ h :: below) := by
        cases hs : openHeaders blocks m with
        | nil => simp [hs] at hm
        | cons top rest => exact ⟨top, by simpa [hs] using hm⟩
      have := ih (top :: above) htop
      exact ⟨by omega, this.2⟩
    · rw [hsame] at hm
      have := ih above hm
      exact ⟨by omega, this.2⟩

lemma lt_of_mem_openHeaders (hh : h ∈ openHeaders blocks m) : h < m := by
  obtain ⟨above, below, hm⟩ := List.append_of_mem hh
  exact (openHeaders_below above hm).1

/-- The loops around an open header are open as well. -/
lemma openHeaders_length_le (hh : h ∈ openHeaders blocks m) :
    (openHeaders blocks (h + 1)).length ≤ (openHeaders blocks m).length := by
  obtain ⟨above, below, hm⟩ := List.append_of_mem hh
  rw [(openHeaders_below above hm).2.2, hm]
  simp

/-- A header stays open from the block that enters it to every place where it is open. -/
lemma mem_openHeaders_between {n : Nat} (hh : h ∈ openHeaders blocks m) (hn : h ≤ n)
    (hm : n < m) : h ∈ openHeaders blocks (n + 1) := by
  induction m with
  | zero => omega
  | succ m ih =>
    by_cases hnm : n = m
    · exact hnm ▸ hh
    · refine ih ?_ (by omega)
      rcases openHeaders_succ blocks m with ⟨b, -, -, hpush⟩ | hpop | hsame
      · rw [hpush] at hh
        rcases List.mem_cons.1 hh with rfl | hh
        · omega
        · exact hh
      · rw [hpop] at hh
        exact List.mem_of_mem_tail hh
      · exact hsame ▸ hh

end Stack

/-! ### What validation says about a block -/

/-- The block stands where its index says, its predecessors exist, only headers are entered from
behind, exits close a loop, and the instructions are in order. -/
structure Block.Placed (b : Block) (blocks : List Block) (place : Nat) : Prop where
  index : b.index.toNat = place
  entry : place = 0 → b.linearPreds = [] ∧ b.logicalPreds = []
  pred_lt : ∀ pred ∈ b.linearPreds ++ b.logicalPreds, pred.toNat < blocks.length
  backward : ∀ pred ∈ b.linearPreds ++ b.logicalPreds, place ≤ pred.toNat → .loopHeader ∈ b.kind
  exit : .loopHeader ∉ b.kind → .loopExit ∈ b.kind → openHeaders blocks place ≠ []
  depth : b.loopDepth.toNat = (openHeaders blocks (place + 1)).length
  instructions : ∀ i ∈ b.instructions, i.defect? = none

namespace Block

lemma reject_eq_ok {d : Option Defect} {u : Unit} : reject d = .ok u ↔ d = none := by
  cases d <;> simp [reject]

lemma predsDefect?_eq_none {b : Block} {count : Nat} {seen preds : List UInt32}
    (h : predsDefect? b count seen preds = none) :
    ∀ pred ∈ preds, pred.toNat < count ∧ (b.index ≤ pred → .loopHeader ∈ b.kind) := by
  induction preds generalizing seen with
  | nil => simp
  | cons pred rest ih =>
    rw [predsDefect?] at h
    split at h
    · cases h
    split at h
    · cases h
    split at h
    · cases h
    rename_i hcount _ hback
    intro q hq
    rcases List.mem_cons.1 hq with rfl | hq
    · exact ⟨by omega, fun hle => by
        by_contra hk
        exact hback ⟨hle, hk⟩⟩
    · exact ih h q hq

lemma edgesDefect?_eq_none {b : Block} {count place : Nat}
    (h : b.edgesDefect? count place = none) :
    b.index.toNat = place ∧ (place = 0 → b.linearPreds = [] ∧ b.logicalPreds = [])
      ∧ ∀ pred ∈ b.linearPreds ++ b.logicalPreds,
        pred.toNat < count ∧ (b.index ≤ pred → .loopHeader ∈ b.kind) := by
  rw [edgesDefect?] at h
  split at h
  · cases h
  split at h
  · cases h
  split at h
  · cases h
  rename_i hindex hentry _
  obtain ⟨hlinear, hlogical⟩ := Option.or_eq_none_iff.1 h
  refine ⟨by omega, fun hzero => ?_, fun pred hpred => ?_⟩
  · have hempty : (b.linearPreds.isEmpty && b.logicalPreds.isEmpty) = true := by
      by_contra hne
      exact hentry ⟨hzero, by rw [Bool.eq_false_iff.2 hne]; rfl⟩
    simpa using hempty
  · rcases List.mem_append.1 hpred with hp | hp
    · exact predsDefect?_eq_none hlinear pred hp
    · exact predsDefect?_eq_none hlogical pred hp

lemma instructionDefect?_eq_none {b : Block} (h : b.instructionDefect? = none) :
    ∀ i ∈ b.instructions, i.defect? = none := by
  intro i hi
  obtain ⟨n, hn⟩ := List.getElem?_of_mem hi
  have := List.findSome?_eq_none_iff.1 h (i, n) (by simp [List.mem_zipIdx_iff_getElem?, hn])
  simpa using this

/-- The headers that validation keeps are those of the stack. -/
lemma openLoops_eq_ok {b : Block} {blocks headers headers' : List Block} {place : Nat}
    (hb : blocks[place]? = some b) (hindex : b.index.toNat = place)
    (hheaders : headers.map (·.index.toNat) = openHeaders blocks place)
    (h : b.openLoops place headers = .ok headers') :
    headers'.map (·.index.toNat) = openHeaders blocks (place + 1)
      ∧ (.loopHeader ∉ b.kind → .loopExit ∈ b.kind → openHeaders blocks place ≠ []) := by
  unfold openLoops at h
  split at h
  · rename_i hk
    split at h
    · cases h
      rw [openHeaders_header hb hk]
      exact ⟨by simp [hindex, hheaders], fun hnk => absurd hk hnk⟩
    · cases h
  · rename_i hk
    split at h
    · rename_i he
      split at h
      · cases h
      · split at h
        · cases h
        split at h
        · cases h
        cases h
        rw [openHeaders_exit hb hk he, ← hheaders]
        exact ⟨by simp, fun _ _ => by simp⟩
    · rename_i he
      cases h
      rw [openHeaders_plain hb hk he]
      exact ⟨hheaders, fun _ hx => absurd hx he⟩

lemma placed_of_validate {b : Block} {blocks headers headers' : List Block} {place : Nat}
    (hb : blocks[place]? = some b)
    (hheaders : headers.map (·.index.toNat) = openHeaders blocks place)
    (h : b.validate blocks.length place headers = .ok headers') :
    b.Placed blocks place ∧ headers'.map (·.index.toNat) = openHeaders blocks (place + 1) := by
  simp only [validate, bind_eq_ok, reject_eq_ok] at h
  obtain ⟨_, hedges, opened, hopen, h⟩ := h
  obtain ⟨hindex, hentry, hpreds⟩ := edgesDefect?_eq_none hedges
  obtain ⟨hstack, hexit⟩ := openLoops_eq_ok hb hindex hheaders hopen
  split at h
  · simp only [bind_eq_ok, throw_ne_ok, false_and, exists_false] at h
  rename_i hdepth
  simp only [bind_eq_ok, pure_eq_ok, reject_eq_ok] at h
  obtain ⟨_, hinstr, rfl⟩ := h
  refine ⟨⟨hindex, hentry, fun pred hp => (hpreds pred hp).1, fun pred hp hle => ?_, hexit, ?_,
    instructionDefect?_eq_none hinstr⟩, hstack⟩
  · exact (hpreds pred hp).2 (UInt32.le_iff_toNat_le.2 (hindex ▸ hle))
  · rw [← hstack, List.length_map]
    omega

end Block

namespace Program

/-- What a successful validation says. -/
structure Valid (p : Program) : Prop where
  argument : ∀ r ∈ p.pendingVmem, r.isValid = true
  placed : ∀ (n : Nat) (b : Block), p.blocks[n]? = some b → b.Placed p.blocks n
  closed : openHeaders p.blocks p.blocks.length = []

lemma foldlM_validate {blocks rest headers headers' : List Block} (place : Nat)
    (hrest : rest = blocks.drop place)
    (hheaders : headers.map (·.index.toNat) = openHeaders blocks place)
    (h : (rest.zipIdx place).foldlM
      (fun headers (b, place) => b.validate blocks.length place headers) headers = .ok headers') :
    (∀ (n : Nat) (b : Block), place ≤ n → blocks[n]? = some b → b.Placed blocks n)
      ∧ headers'.map (·.index.toNat) = openHeaders blocks (max place blocks.length) := by
  induction rest generalizing place headers with
  | nil =>
    have hlen : blocks.length ≤ place := List.drop_eq_nil_iff.1 hrest.symm
    simp only [List.zipIdx_nil, List.foldlM_nil, pure_eq_ok] at h
    refine ⟨fun n b hn hb => ?_, ?_⟩
    · have := (List.getElem?_eq_some_iff.1 hb).1
      omega
    · rw [← h, Nat.max_eq_left hlen, hheaders]
  | cons b rest ih =>
    have hb : blocks[place]? = some b := by
      rw [← Nat.add_zero place, ← List.getElem?_drop, ← hrest]
      rfl
    have hrest' : rest = blocks.drop (place + 1) := by
      rw [← List.drop_drop, ← hrest]
      rfl
    simp only [List.zipIdx_cons, List.foldlM_cons, bind_eq_ok] at h
    obtain ⟨opened, hvalid, h⟩ := h
    obtain ⟨hplaced, hstack⟩ := Block.placed_of_validate hb hheaders hvalid
    obtain ⟨hlater, hend⟩ := ih (place + 1) hrest' hstack h
    have hlt := (List.getElem?_eq_some_iff.1 hb).1
    refine ⟨fun n b' hn hb' => ?_, ?_⟩
    · by_cases hnp : n = place
      · subst hnp
        rw [hb] at hb'
        cases hb'
        exact hplaced
      · exact hlater n b' (by omega) hb'
    · rw [hend]
      congr 1
      omega

lemma validateArgument_eq_ok {r : RegRange} (h : validateArgument r = .ok ()) :
    r.isValid = true := by
  rw [validateArgument] at h
  split at h
  · rename_i hr
    exact (Bool.and_eq_true_iff.1 hr).2
  · split at h <;> cases h

theorem valid_of_validate {p : Program} (h : p.validate = .ok ()) : p.Valid := by
  simp only [validate] at h
  split at h
  · simp only [bind_eq_ok, throw_ne_ok, false_and, exists_false] at h
  simp only [bind_eq_ok] at h
  obtain ⟨_, hargs, headers, hblocks, h⟩ := h
  obtain ⟨hplaced, hend⟩ := foldlM_validate 0 rfl rfl hblocks
  refine ⟨fun r hr => validateArgument_eq_ok (forM_eq_ok.1 hargs r hr),
    fun n b hb => hplaced n b (Nat.zero_le n) hb, ?_⟩
  split at h
  · simp at h
  · rw [Nat.max_eq_right (Nat.zero_le _)] at hend
    simpa using hend.symm

end Program

end GpuWaits
