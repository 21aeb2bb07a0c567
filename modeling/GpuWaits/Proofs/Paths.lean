/-
# Paths through a program

A path starts in the entry block and follows the edges of the control flow graph, through loops as
often as it likes.  It keeps away from the blocks that lanes jump to when they are discarded.  A state
is carried along a path block by block (`Program.along`), and `Path.invariant` is the induction over
paths: what holds at the start and is handed on along every edge holds wherever a path leads.
-/
import GpuWaits.Insertion
import GpuWaits.Proofs.Settled

namespace GpuWaits

namespace Program

variable {p : Program} {σ : Type}

/-- The control flow may go on from the block at the place `n` to the one at `m`. -/
def Leads (p : Program) (n m : Nat) : Prop :=
  ∃ b, p.blocks[m]? = some b ∧ .discardEarlyExit ∉ b.kind ∧ ∃ pred ∈ b.linearPreds, pred.toNat = n

/-- The blocks of a path from the entry block, the last one first. -/
inductive Path (p : Program) : List Nat → Prop where
  | entry {b : Block} (hb : p.blocks[0]? = some b) (hkind : .discardEarlyExit ∉ b.kind) : Path p [0]
  | next {n m : Nat} {path : List Nat} (h : Path p (n :: path)) (hnext : p.Leads n m) :
      Path p (m :: n :: path)

/-- Carries a state through the blocks of a path. -/
def along (p : Program) (f : Nat → Block → σ → σ) (x : σ) : List Nat → σ
  | [] => x
  | n :: path => f n (p.blocks[n]?.getD { index := 0 }) (p.along f x path)

/-- The instructions of the blocks of a path, in the order in which they are executed. -/
def trace (p : Program) : List Nat → List Instruction :=
  p.along (fun _ b t => t ++ b.instructions) []

namespace Path

/-- A path goes through blocks that lanes do not jump to. -/
lemma block_of_mem {n : Nat} {path : List Nat} (h : p.Path path) (hn : n ∈ path) :
    ∃ b, p.blocks[n]? = some b ∧ .discardEarlyExit ∉ b.kind := by
  induction h with
  | entry hb hkind =>
    rw [List.mem_singleton.1 hn]
    exact ⟨_, hb, hkind⟩
  | next _ hnext ih =>
    rcases List.mem_cons.1 hn with rfl | hn
    · obtain ⟨b, hb, hkind, -⟩ := hnext
      exact ⟨b, hb, hkind⟩
    · exact ih hn

lemma block {n : Nat} {path : List Nat} (h : p.Path (n :: path)) :
    ∃ b, p.blocks[n]? = some b ∧ .discardEarlyExit ∉ b.kind :=
  h.block_of_mem List.mem_cons_self

/-- A path starts in a block that lanes do not jump to. -/
lemma first {path : List Nat} (h : p.Path path) :
    ∃ b, p.blocks[0]? = some b ∧ .discardEarlyExit ∉ b.kind := by
  induction h with
  | entry hb hkind => exact ⟨_, hb, hkind⟩
  | next _ _ ih => exact ih

lemma kind {n : Nat} {path : List Nat} (h : p.Path (n :: path)) {b : Block}
    (hb : p.blocks[n]? = some b) : .discardEarlyExit ∉ b.kind := by
  obtain ⟨b', hb', hkind⟩ := h.block
  cases hb.symm.trans hb'
  exact hkind

/-- What holds at the start and is handed on along every edge holds wherever a path leads. -/
theorem invariant {f : Nat → Block → σ → σ} {x : σ} (Inv : Nat → σ → Prop) (hfirst : Inv 0 x)
    (hstep : ∀ {n m : Nat} {b : Block} {y : σ}, p.blocks[n]? = some b →
      .discardEarlyExit ∉ b.kind → p.Leads n m → Inv n y → Inv m (f n b y))
    {n : Nat} {path : List Nat} (h : p.Path (n :: path)) : Inv n (p.along f x path) := by
  induction path generalizing n with
  | nil =>
    cases h
    exact hfirst
  | cons m path ih =>
    cases h with
    | next h hnext =>
      obtain ⟨b, hb, hkind⟩ := h.block
      rw [along, hb]
      exact hstep hb hkind hnext (ih h)

end Path

end Program

end GpuWaits
