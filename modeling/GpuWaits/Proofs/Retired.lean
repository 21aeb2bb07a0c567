/-
# What a wait retires

Waiting for an instruction drops the accesses that the wait completes.  What is left of an entry
does not keep the instruction waiting (`Context.await_retires`): neither an access that it would
have waited for, nor one that it was allowed to pass.  The latter is the point.  Whether an access
may be passed depends on the other accesses of the entry, and dropping some of those must not take
the permission away (`Entry.Passes.left`).  It does not, since all that the permission looks at
belongs to one counter, and the accesses on a counter are dropped together.
-/
import GpuWaits.Proofs.Needs
import GpuWaits.Proofs.WellFormed

namespace GpuWaits

/-- A target that the wait is strong enough for and does not meet is not set. -/
lemma Wait.get_eq_unset_of_not_meets {v w : Wait} {c : Counter} (hle : w.get c ≤ v.get c)
    (hno : ¬w.Meets v c) : v.get c = Wait.unset := by
  by_contra hne
  refine hno ⟨isSet_iff.2 fun hunset => hne ?_, hle⟩
  rw [hunset] at hle
  exact UInt16.le_antisymm (le_unset _) hle

/-! ### Entries -/

namespace Entry

variable {g : Generation} {s : Setting} {i : Instruction} {e e' : Entry} {met : Counter → Prop}
  {c : Counter} {r : Reg} {j : Nat} {w : Wait}

/-- The accesses on a counter that has not fallen are all left. -/
lemma Left.inter_eventsOn (h : e.Left g met e') (hc : ¬met c) :
    e'.events ∩ g.eventsOn c = e.events ∩ g.eventsOn c := by
  refine EventSet.ext fun ev => ?_
  simp only [Flags.mem_inter, Generation.mem_eventsOn, h.events]
  constructor
  · rintro ⟨⟨hev, -⟩, hcount⟩
    exact ⟨hev, hcount⟩
  · rintro ⟨hev, hcount⟩
    refine ⟨⟨hev, fun c' hc' => ?_⟩, hcount⟩
    rw [hcount] at hc'
    cases hc'
    exact hc

lemma Left.inter_lanes (h : e.Left g met e') {t : EventSet} (hempty : e.laneEvents ∩ t = ∅) :
    e'.laneEvents ∩ t = ∅ := by
  refine EventSet.ext fun ev => iff_of_false (fun hev => ?_) (Flags.not_mem_empty ev)
  rw [Flags.mem_inter] at hev
  have hin : ev ∈ e.laneEvents ∩ t := (Flags.mem_inter _ _ _).2 ⟨(h.lanes ev hev.1).1, hev.2⟩
  rw [hempty] at hin
  exact Flags.not_mem_empty ev hin

lemma Yields.left {type : VmemType} (h : e.Yields s i type j c)
    (hleft : e.Left s.generation met e')
    (hcount : s.generation.counter? (i.vmemEvent s (some type)) = some c) (hc : ¬met c) :
    e'.Yields s i type j c := by
  rcases h with ⟨hsame, h⟩ | hlanes
  · refine .inl ⟨(hleft.inter_eventsOn hc).trans hsame, ?_⟩
    rcases h with ⟨htype, hgen⟩ | ⟨hev, hhalves⟩
    · refine .inl ⟨?_, hgen⟩
      by_cases hvm : c = .vm
      · subst hvm
        rw [(hleft.loading hc).1]
        exact htype
      · exact .inl hvm
    · -- The halves are those of the loads, which count on the counter that has not fallen.
      rw [hev] at hcount
      cases hcount
      rw [(hleft.loading hc).2]
      exact .inr ⟨hev, hhalves⟩
  · exact .inr (hleft.inter_lanes hlanes)

/-- An instruction that may pass the accesses on a counter may do so when accesses on other counters
have been dropped. -/
lemma Passes.left (h : e.Passes s i j c) (hleft : e.Left s.generation met e') (hc : ¬met c) :
    e'.Passes s i j c := by
  rcases h with ⟨type, htype, hcount, hyields⟩ | ⟨access, hds, rfl, hpermits⟩
  · exact .inl ⟨type, htype, hcount, hyields.left hleft hcount hc⟩
  · refine .inr ⟨access, hds, rfl, ?_⟩
    rw [permitsDs, hleft.inter_eventsOn hc]
    exact hpermits

/-- Where a wait is as strong as the one for the register, no access is left that matters for it. -/
lemma get_waitFor_settle (hle : ¬w.Meets e.wait c → w.get c ≤ (e.waitFor g r).get c) :
    ((e.settle g w).waitFor g r).get c = Wait.unset := by
  have hleft := left_settle e g w
  rcases (e.settle g w).get_waitFor_cases g r c with ⟨hmatters, hget⟩ | ⟨-, -, hget⟩
  · rw [hget]
    by_cases hmet : w.Meets e.wait c
    · exact hleft.gone c hmet
    · rw [hleft.kept c hmet]
      rcases e.get_waitFor_cases g r c with ⟨-, hget'⟩ | ⟨hvec, hno, -⟩
      · exact Wait.get_eq_unset_of_not_meets (hget' ▸ hle hmet) hmet
      · exact absurd ((hmatters hvec).mono hleft.among.1) hno
  · exact hget

lemma waitFor_settle (hle : w ≤ e.waitFor g r) : (e.settle g w).waitFor g r = .none :=
  Wait.ext_get fun c => by rw [get_waitFor_settle fun _ => hle c, Wait.get_none]

lemma overwriteWait_settle {v v' : Wait} (hv : e.overwriteWait s i r j = .ok v) (hle : w ≤ v)
    (hv' : (e.settle s.generation w).overwriteWait s i r j = .ok v') : v' = .none := by
  refine Wait.ext_get fun c => ?_
  rw [Wait.get_none]
  rcases get_overwriteWait_cases hv' c with ⟨-, hget⟩ | ⟨hno, hget⟩
  · exact hget
  · refine hget.trans (get_waitFor_settle fun hmet => ?_)
    rcases get_overwriteWait_cases hv c with ⟨hpasses, -⟩ | ⟨-, hget'⟩
    · exact absurd (hpasses.left (left_settle e s.generation w) hmet) hno
    · exact hget' ▸ hle c

/-- What is left on a counter has a target that the wait does not reach. -/
lemma Timed.lt_of_mem_settle (he : e.Timed g) (hc : c ∈ (e.settle g w).counters) :
    (e.settle g w).wait.get c < w.get c := by
  have hleft := left_settle e g w
  obtain ⟨hin, hno⟩ := (hleft.counters c).1 hc
  rw [hleft.kept c hno]
  by_contra hge
  exact Wait.isSet_iff.1 ((he.timed c).2 hin)
    (Wait.get_eq_unset_of_not_meets (UInt16.not_lt.1 hge) hno)

end Entry

/-! ### Contexts -/

namespace Context

variable {s : Setting} {i : Instruction} {c c' : Context} {q q' : Queue}

lemma Awaited.source (h : Awaited s i c q c' q') {r : Reg} {e' : Entry}
    (he' : c'.regs[r]? = some e') : ∃ e, c.regs[r]? = some e ∧ e' = e.settle s.generation q'.wait := by
  obtain ⟨e, he, heq, -⟩ := (settles_of_settle h.settled).source r e' he'
  rw [(deferBefore_frame c s i).1] at he
  exact ⟨e, he, heq⟩

lemma Awaited.readWait_eq_none (h : Awaited s i c q c' q') {r : Reg}
    (hle : q'.wait ≤ c.readWait s.generation r) : c'.readWait s.generation r = .none := by
  rw [readWait]
  split
  · rename_i e' he'
    obtain ⟨e, he, rfl⟩ := h.source he'
    split
    · rename_i hblocks
      rw [Entry.blocksReads_settle] at hblocks
      simp only [readWait, he, hblocks, if_true] at hle
      exact Entry.waitFor_settle hle
    · rfl
  · rfl

lemma Awaited.writeWait_eq_none (h : Awaited s i c q c' q') {r : Reg} {j : Nat} {v v' : Wait}
    (hv : c.writeWait s i r j = .ok v) (hle : q'.wait ≤ v) (hv' : c'.writeWait s i r j = .ok v') :
    v' = .none := by
  rw [writeWait] at hv hv'
  split at hv'
  · rename_i e' he'
    obtain ⟨e, he, rfl⟩ := h.source he'
    rw [he] at hv
    exact Entry.overwriteWait_settle hv hle hv'
  · cases hv'
    rfl

/-- After a wait for an instruction there are no hazards for it. -/
lemma Awaited.hazardWait_eq_none (h : Awaited s i c q c' q') (hi : i.InBounds) :
    c'.hazardWait s i = .ok .none := by
  obtain ⟨w, hw, hle⟩ := h.hazard
  obtain ⟨w', hw'⟩ := hazardWait_total c' s hi
  have hnone : Wait.none ≤ w' := by
    refine le_hazardWait hw' (fun op hop r hr => ?_) fun d hd r j hj v' hv' => ?_
    · rw [h.readWait_eq_none (Wait.le_trans hle ((hazardWait_le hw).1 op hop r hr))]
      exact Wait.le_refl _
    · obtain ⟨v, hv, hwv⟩ := hazardWait_le_writeWait hw hd hj
      rw [h.writeWait_eq_none hv (Wait.le_trans hle hwv) hv']
      exact Wait.le_refl _
  rw [hw', Wait.eq_none_of_le hnone]

/-- Waiting for an instruction succeeds and is enough: in what is left there is no hazard for the
instruction, every access that is left has a target which the wait does not reach, and the wait is
as strong as the one that was queued before. -/
theorem await_retires (hc : Reachable s.generation c) (hi : i.InBounds) (q : Queue) :
    ∃ c' q', c.await s i q = .ok (c', q') ∧ c'.hazardWait s i = .ok .none
      ∧ (∀ (r : Reg) (e : Entry), c'.regs[r]? = some e →
        ∀ n ∈ e.counters, e.wait.get n < q'.wait.get n)
      ∧ q'.wait ≤ q.wait := by
  obtain ⟨⟨c', q'⟩, hawait⟩ := await_total hc.proper.demands.sound hi q
  have h := awaited_of_await hawait
  refine ⟨c', q', hawait, h.hazardWait_eq_none hi, fun r e' he' n hn => ?_, h.queued⟩
  obtain ⟨e, he, rfl⟩ := h.source he'
  exact (hc.proper.entries r e he).isTimed.lt_of_mem_settle hn

/-- A register that is loaded from a buffer on one path and from shared memory on another. -/
def loadedTwice (s : Setting) : Except Fault Context := do
  let buffer ← ({} : Context).start s (Sample.bufferLoad (.vgpr 2) (.vgpr 3))
  let shared ← ({} : Context).start s (Sample.sharedLoad (.vgpr 2) (.vgpr 4))
  return buffer.join shared ⟨true, true⟩

/-- One more load of the register, from shared memory. -/
def reload : Instruction := Sample.sharedLoad (.vgpr 2) (.vgpr 5)

def reloadSetting : Setting := { config := { generation := .gfx11 } }

/-- One more load waits for the one from the buffer and passes the other. -/
theorem await_retires_reload : ∃ c, loadedTwice reloadSetting = .ok c
    ∧ Reachable reloadSetting.generation c ∧ reload.InBounds
    ∧ c.hazardWait reloadSetting reload = .ok (Wait.none.set .vm 0)
    ∧ ∃ c' q', c.await reloadSetting reload {} = .ok (c', q')
      ∧ c'.hazardWait reloadSetting reload = .ok .none
      ∧ (∀ (r : Reg) (e : Entry), c'.regs[r]? = some e →
        ∀ n ∈ e.counters, e.wait.get n < q'.wait.get n)
      ∧ q'.wait ≤ ({} : Queue).wait := by
  have hhazard : (match loadedTwice reloadSetting with
      | .ok c => decide (c.hazardWait reloadSetting reload = .ok (Wait.none.set .vm 0))
      | .error _ => false) = true := by decide +kernel
  cases hc : loadedTwice reloadSetting with
  | error fault =>
    rw [hc] at hhazard
    cases hhazard
  | ok c =>
    have hreach : Reachable reloadSetting.generation c := by
      simp only [loadedTwice, bind_eq_ok, pure_eq_ok] at hc
      obtain ⟨buffer, hbuffer, shared, hshared, rfl⟩ := hc
      exact .join _ (.start rfl (by decide) .new hbuffer) (.start rfl (by decide) .new hshared)
    have hbounds : reload.InBounds := ⟨by decide, by decide, fun _ _ => by decide⟩
    rw [hc] at hhazard
    exact ⟨c, rfl, hreach, hbounds, of_decide_eq_true hhazard, await_retires hreach hbounds {}⟩

end Context

end GpuWaits
