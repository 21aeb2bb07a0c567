/-
# Sweeps of fixed programs

The sweep ends because each step brings it nearer to the end, and a recursion of this kind is not
evaluated by the kernel.  A sweep with a bound on the number of its steps is.  Where such a sweep comes
to its end it is the sweep itself, so that what the pass does to a program that is given can be
computed.
-/
import GpuWaits.Insertion
import GpuWaits.Proofs.Settled

namespace GpuWaits

/-- A sweep of at most `limit` steps, if it comes to its end. -/
def Sweep.runUpTo (s : Setting) : (limit : Nat) → Sweep → Option (Except Fault Sweep)
  | 0, _ => none
  | limit + 1, w =>
    match w.nodes[w.next]? with
    | none => some (.ok w)
    | some node =>
      match w.step s w.next node with
      | .error fault => some (.error fault)
      | .ok w' => runUpTo s limit w'

lemma Sweep.run_eq (s : Setting) (w : Sweep) : run s w =
    match w.nodes[w.next]? with
    | none => .ok w
    | some node => w.step s w.next node >>= run s := by
  rw [run]
  split
  · simp only [*]
  · simp only [*]
    split <;> simp [*, bind, Except.bind]

lemma Sweep.run_of_runUpTo {s : Setting} {limit : Nat} {w : Sweep} {r : Except Fault Sweep}
    (h : w.runUpTo s limit = some r) : run s w = r := by
  induction limit generalizing w with
  | zero => cases h
  | succ limit ih =>
    rw [runUpTo] at h
    rw [run_eq]
    split at h
    · exact Option.some.inj h
    · split at h
      · rename_i hs
        rw [hs]
        exact Option.some.inj h
      · rename_i hs
        rw [hs]
        exact ih h

/-- The result of a sweep of at most `limit` steps.  Unlike `solve` it can be evaluated by the
kernel. -/
def Program.solveUpTo (p : Program) (drainAll : Bool) (limit : Nat) : Option (Except Fault Sweep) :=
  match p.nodes { config := p.config, drainAll } with
  | .error fault => some (.error fault)
  | .ok nodes => Sweep.runUpTo { config := p.config, drainAll } limit { nodes }

lemma Program.solve_of_solveUpTo {p : Program} {drainAll : Bool} {limit : Nat}
    {r : Except Fault Sweep} (h : p.solveUpTo drainAll limit = some r) : p.solve drainAll = r := by
  rw [solveUpTo] at h
  split at h
  · rename_i fault hnodes
    simp only [solve, hnodes, bind, Except.bind]
    exact Option.some.inj h
  · rename_i nodes hnodes
    simp only [solve, hnodes, bind, Except.bind]
    exact Sweep.run_of_runUpTo h

/-- What a bounded sweep finds is what the pass makes of the program. -/
lemma Program.exists_solve {p p' : Program} {drainAll : Bool} (limit : Nat)
    (h : ((p.solveUpTo drainAll limit).any fun r => r.toOption.any fun w =>
      decide (p.withNodes w.nodes = p')) = true) :
    ∃ w, p.solve drainAll = .ok w ∧ p.withNodes w.nodes = p' := by
  obtain ⟨r, hr, h⟩ := (Option.any_eq_true _ _).1 h
  cases r with
  | error fault => cases h
  | ok w => exact ⟨w, solve_of_solveUpTo hr, of_decide_eq_true h⟩

lemma Program.solve_eq_error {p : Program} {drainAll : Bool} {fault : Fault} (limit : Nat)
    (h : ((p.solveUpTo drainAll limit).any fun r => match r with
      | .ok _ => false
      | .error fault' => decide (fault' = fault)) = true) : p.solve drainAll = .error fault := by
  obtain ⟨r, hr, h⟩ := (Option.any_eq_true _ _).1 h
  cases r with
  | ok w => cases h
  | error fault' => rw [solve_of_solveUpTo hr, of_decide_eq_true h]

end GpuWaits
