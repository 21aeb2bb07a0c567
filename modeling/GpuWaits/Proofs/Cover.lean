/-
# The context covers what is in flight

The context that the analysis keeps is coarser than the state of the checker: one entry for each unit,
with one target for each counter.  It is right about the state when every access in flight is followed
by the entry of its unit (`Entry.Follows`).  Then the wait that the analysis inserts in front of an
instruction completes all that the instruction could run into (`Context.Covers.quiet`), and settling
and issuing keep the context right (`Context.Covers.settle`, `Context.Covers.start`).

A flat load that may have gone to shared memory completes in no order.  While one is outstanding, the
targets on its two counters say nothing; every wait on such a counter is a full drain.
-/
import GpuWaits.Proofs.Flight

namespace GpuWaits

lemma Wait.le_allOf_iff {v : Wait} {l : List Wait} : v ≤ allOf l ↔ ∀ w ∈ l, v ≤ w := by
  have hfold : ∀ (l : List Wait) (u : Wait), v ≤ l.foldl both u ↔ v ≤ u ∧ ∀ w ∈ l, v ≤ w := by
    intro l
    induction l with
    | nil => simp
    | cons w l ih =>
      intro u
      rw [List.foldl_cons, ih, List.forall_mem_cons, ← and_assoc]
      refine and_congr_left fun _ => ⟨fun h => ?_, fun h => le_both h.1 h.2⟩
      exact ⟨le_trans h (both_le_left u w), le_trans h (both_le_right u w)⟩
  rw [allOf, hfold]
  exact and_iff_right (le_none v)

lemma Wait.allOf_le {w : Wait} {l : List Wait} (hw : w ∈ l) : allOf l ≤ w :=
  le_allOf_iff.1 (le_refl _) w hw

/-- A flat access is outstanding on the counter, and the targets on it say nothing. -/
def Context.Slack (c : Context) : Counter → Prop
  | .vm => c.flatVm = true
  | .lgkm => c.flatLgkm = true
  | _ => False

/-- The entry follows an access of its unit.  The counters for which `slack` holds have targets that
say nothing, and `nonzero` are the counters that have not drained. -/
structure Entry.Follows (g : Generation) (slack : Counter → Prop) (nonzero : CounterSet) (e : Entry)
    (k : AccessKey) (a : InFlight) : Prop where
  event : k.event ∈ e.events
  counter : g.counter? k.event = some a.counter
  nonzero : a.counter ∈ nonzero
  slot : e.wait.isSet a.counter = true
  target : slack a.counter ∨ e.wait.get a.counter ≤ a.younger
  write : a.write = true → e.blocksReads = true
  lanes : a.lanes = true → k.event ∈ e.laneEvents
  read : a.write = false → a.counter = .exp
  order : a.ordered = false → k.event = .smem ∨ slack a.counter

/-- The entry of the unit follows the access. -/
def Context.FollowsAt (g : Generation) (slack : Counter → Prop) (c : Context) (k : AccessKey)
    (a : InFlight) : Prop :=
  ∃ e : Entry, c.regs[k.unit]? = some e ∧ e.Follows g slack c.nonzero k a

/-- Every access in flight is followed by the entry of its unit. -/
def Context.Covers (g : Generation) (c : Context) (p : Pending) : Prop :=
  ∀ (k : AccessKey) (a : InFlight), p[k]? = some a → c.FollowsAt g c.Slack k a

namespace Context

variable {g : Generation} {c c' : Context} {p : Pending} {w : Wait} {k : AccessKey} {a : InFlight}
  {e : Entry} {slack slack' : Counter → Prop} {nonzero : CounterSet}

lemma CoversFlat.get_eq_zero (h : c.CoversFlat w) {d : Counter} (hd : c.Slack d)
    (hset : w.isSet d = true) : w.get d = 0 := by
  cases d with
  | vm => exact h.vm hd hset
  | lgkm => exact h.lgkm hd hset
  | _ => cases hd

lemma Covers.mono {p' : Pending} (h : c.Covers g p)
    (hp : ∀ (k : AccessKey) (a : InFlight), p'[k]? = some a → p[k]? = some a) : c.Covers g p' :=
  fun k a hk => h k a (hp k a hk)

lemma slack_of_frame (hvm : c'.flatVm = c.flatVm) (hlgkm : c'.flatLgkm = c.flatLgkm) :
    c'.Slack = c.Slack := by
  funext d
  cases d <;> simp [Slack, hvm, hlgkm]

lemma FollowsAt.of_frame (h : c.FollowsAt g slack k a) (hregs : c'.regs = c.regs)
    (hnonzero : c'.nonzero = c.nonzero) : c'.FollowsAt g slack k a := by
  rw [FollowsAt, hregs, hnonzero]
  exact h

/-- Covering looks at the entries, the counters and the flat accesses alone. -/
lemma Covers.of_frame (h : c.Covers g p) (hregs : c'.regs = c.regs)
    (hnonzero : c'.nonzero = c.nonzero) (hvm : c'.flatVm = c.flatVm)
    (hlgkm : c'.flatLgkm = c.flatLgkm) : c'.Covers g p := by
  intro k a hk
  rw [slack_of_frame hvm hlgkm]
  exact (h k a hk).of_frame hregs hnonzero

/-- Deferring looks at barriers alone. -/
lemma deferBefore_frame (c : Context) (s : Setting) (i : Instruction) :
    (c.deferBefore s i).regs = c.regs ∧ (c.deferBefore s i).nonzero = c.nonzero
      ∧ (c.deferBefore s i).flatVm = c.flatVm ∧ (c.deferBefore s i).flatLgkm = c.flatLgkm := by
  have hreleased : ∀ c' : Context, c' = (if .release ∈ i.sync.semantics then c.deferRelease s i.sync
      else c) → c'.regs = c.regs ∧ c'.nonzero = c.nonzero ∧ c'.flatVm = c.flatVm
        ∧ c'.flatLgkm = c.flatLgkm := by
    rintro c' rfl
    split
    · obtain ⟨h₁, h₂, h₃, h₄, -⟩ := defer_frame c s i.sync .releaseDependency .release
      exact ⟨h₁, h₂, h₃, h₄⟩
    · exact ⟨rfl, rfl, rfl, rfl⟩
  obtain ⟨h₁, h₂, h₃, h₄⟩ := hreleased _ rfl
  rw [deferBefore]
  split
  · split
    · obtain ⟨k₁, k₂, k₃, k₄, -⟩ := defer_frame
        (if .release ∈ i.sync.semantics then c.deferRelease s i.sync else c) s i.sync
        .acquireDependency .acquire
      exact ⟨k₁.trans h₁, k₂.trans h₂, k₃.trans h₃, k₄.trans h₄⟩
    · exact ⟨h₁, h₂, h₃, h₄⟩
  · exact ⟨h₁, h₂, h₃, h₄⟩

lemma Covers.deferBefore (h : c.Covers g p) (s : Setting) (i : Instruction) :
    (c.deferBefore s i).Covers g p := by
  obtain ⟨h₁, h₂, h₃, h₄⟩ := deferBefore_frame c s i
  exact h.of_frame h₁ h₂ h₃ h₄

lemma deferAfter_frame (c : Context) (s : Setting) (i : Instruction) :
    (c.deferAfter s i).regs = c.regs ∧ (c.deferAfter s i).nonzero = c.nonzero
      ∧ (c.deferAfter s i).flatVm = c.flatVm ∧ (c.deferAfter s i).flatLgkm = c.flatLgkm := by
  rw [deferAfter]
  split
  · obtain ⟨h₁, h₂, h₃, h₄, -⟩ := defer_frame c s i.sync .acquireDependency .acquire
    exact ⟨h₁, h₂, h₃, h₄⟩
  · exact ⟨rfl, rfl, rfl, rfl⟩

lemma Covers.deferAfter (h : c.Covers g p) (s : Setting) (i : Instruction) :
    (c.deferAfter s i).Covers g p := by
  obtain ⟨h₁, h₂, h₃, h₄⟩ := deferAfter_frame c s i
  exact h.of_frame h₁ h₂ h₃ h₄

/-! ### Waits -/

/-- A wait that meets the target of the entry completes the access. -/
lemma completes_of_follows (h : e.Follows g slack nonzero k a)
    (hflat : slack a.counter → w.isSet a.counter = true → w.get a.counter = 0)
    (hle : w.get a.counter ≤ e.wait.get a.counter) : w.Completes a := by
  have hset : w.isSet a.counter = true := by
    have h₁ := UInt16.le_iff_toNat_le.1 hle
    have h₂ := UInt16.lt_iff_toNat_lt.1 (Wait.get_lt_of_isSet h.slot)
    rw [Wait.isSet_iff]
    intro heq
    rw [heq] at h₁
    omega
  refine ⟨hset, ?_⟩
  rcases h.target with hslack | htarget
  · rw [hflat hslack hset]
    exact UInt16.le_iff_toNat_le.2 (Nat.zero_le _)
  · exact UInt16.le_trans hle htarget

/-- A full drain completes every access on the counter. -/
lemma completes_of_get_eq_zero (h : w.get a.counter = 0) : w.Completes a := by
  refine ⟨Wait.isSet_iff.2 ?_, ?_⟩
  · rw [h]
    decide
  · rw [h]
    exact UInt16.le_iff_toNat_le.2 (Nat.zero_le _)

/-- A wait that leaves something outstanding on a counter leaves the counter slack. -/
lemma Slack.settle (h : c.settle g w = .ok c') {d : Counter} (hd : c.Slack d) (hnz : w.get d ≠ 0) :
    c'.Slack d := by
  have hs := settles_of_settle h
  cases d with
  | vm => simpa [Slack, hs.flatVm, hnz] using hd
  | lgkm => simpa [Slack, hs.flatLgkm, hnz] using hd
  | _ => cases hd

/-- An access that survives the wait is still followed when the context is settled. -/
lemma FollowsAt.settle (hc : c.Sound g) (h : c.settle g w = .ok c') (hfol : c.FollowsAt g slack k a)
    (hnot : ¬w.Completes a) (hflat : slack a.counter → w.isSet a.counter = true → w.get a.counter = 0)
    (hslack : slack a.counter → w.get a.counter ≠ 0 → slack' a.counter) :
    c'.FollowsAt g slack' k a := by
  have hs := settles_of_settle h
  obtain ⟨e, he, hfol⟩ := hfol
  have hmeets : ¬w.Meets e.wait a.counter := fun hm => hnot (completes_of_follows hfol hflat hm.2)
  have hnz : w.get a.counter ≠ 0 := fun h0 => hnot (completes_of_get_eq_zero h0)
  obtain ⟨hget, hev⟩ := Entry.settle_keeps (g := g) hmeets
  obtain ⟨hev, hlanes⟩ := hev k.event hfol.counter hfol.event
  have hleft : (e.settle g w).counters.isEmpty = false := by
    rw [show (e.settle g w).counters = g.countersOf (e.settle g w).events from
      Entry.counters_foldl_forget _ (hc.entry _ e he).counters]
    exact Flags.isEmpty_eq_false_of_mem (Generation.mem_countersOf.2 ⟨_, hev, hfol.counter⟩)
  refine ⟨e.settle g w, hs.entry _ e he hleft, hev, hfol.counter, ?_, ?_, ?_, ?_, ?_, hfol.read,
    fun ho => (hfol.order ho).imp id fun hsl => hslack hsl hnz⟩
  · exact (hs.nonzero _).2 ⟨hfol.nonzero, hnz⟩
  · rw [Wait.isSet_iff, hget]
    exact Wait.isSet_iff.1 hfol.slot
  · rw [hget]
    exact hfol.target.imp (fun hsl => hslack hsl hnz) id
  · rw [Entry.blocksReads_settle]
    exact hfol.write
  · exact fun hl => hlanes (hfol.lanes hl)

lemma Covers.settle (hc : c.Sound g) (hflat : c.CoversFlat w) (h : c.settle g w = .ok c')
    (hp : c.Covers g (p.wait w)) : c'.Covers g (p.wait w) := fun k a hk =>
  (hp k a hk).settle hc h (Pending.getElem?_wait.1 hk).2 hflat.get_eq_zero (Slack.settle h)

end Context

/-! ### Hazards -/

namespace Entry

variable {g : Generation} {s : Setting} {e : Entry} {k : AccessKey} {a : InFlight}
  {i : Instruction} {r : Reg} {j : Nat}

/-- The wait before a unit is used has the target of every access that can be seen there. -/
lemma get_waitFor {slack : Counter → Prop} {nonzero : CounterSet} (he : e.Sound g)
    (h : e.Follows g slack nonzero k a) (hv : Checker.isVisible g k a = true) :
    (e.waitFor g k.unit).get a.counter = e.wait.get a.counter := by
  rw [waitFor]
  split
  · rename_i hvec
    have hlanes : k.event ∈ (if .gfx11 ≤ g then e.laneEvents ∪ .wholeRegister else e.laneEvents) := by
      simp only [Checker.isVisible, hvec, Bool.not_true, Bool.or_false, Bool.or_eq_true,
        Bool.and_eq_true, decide_eq_true_eq] at hv
      rcases hv with hl | ⟨hgen, hev⟩
      · split
        · exact (Flags.mem_union _ _ _).2 (.inl (h.lanes hl))
        · exact h.lanes hl
      · rw [if_pos hgen]
        refine (Flags.mem_union _ _ _).2 (.inr (EventSet.mem_ofList.2 ?_))
        revert hev
        cases k.event <;> simp
    rw [Wait.get_only, if_pos]
    exact (Flags.mem_inter _ _ _).2 ⟨he.counter_mem h.event h.counter,
      Generation.mem_countersOf.2 ⟨_, (Flags.mem_inter _ _ _).2 ⟨h.event, hlanes⟩, h.counter⟩⟩
  · rfl

/-- An instruction that writes at once gets no leave to overwrite what is being written. -/
lemma overwriteWait_of_prompt (hc : i.isCoherent = true) (hlate : i.writesLate = false)
    (e : Entry) (s : Setting) (r : Reg) (j : Nat) :
    e.overwriteWait s i r j = .ok (e.waitFor s.generation r) := by
  have hfits := Instruction.fits_of_isCoherent hc
  rw [Instruction.writesLate] at hlate
  have hds : i.ds? = none := by
    rw [Instruction.ds?]
    revert hlate
    cases i.payload <;> simp
  -- The payload would have to be that of a memory access.
  have hformat : i.format ≠ .mubuf ∧ i.format ≠ .mtbuf ∧ i.format ≠ .mimg ∧ i.format ≠ .global
      ∧ i.format ≠ .scratch := by
    generalize i.payload = payload at hfits hlate
    refine ⟨?_, ?_, ?_, ?_, ?_⟩ <;> intro hf <;> rw [hf] at hfits <;> cases payload with
      | flat access => cases hlate
      | vmem sync => cases hlate
      | _ => cases hfits
  obtain ⟨h₁, h₂, h₃, h₄, h₅⟩ := hformat
  have htype : i.vmemType? s.generation = none := by
    rw [Instruction.vmemType?]
    have himage : ∀ o : Opcode, o.format = .mimg → i.opcode ≠ o := by
      rintro o ho rfl
      exact h₃ ho
    split
    · exact absurd ‹_› (himage _ rfl)
    · exact absurd ‹_› (himage _ rfl)
    · exact absurd ‹_› (himage _ rfl)
    · exact absurd ‹_› (himage _ rfl)
    · rw [if_neg]
      simp only [Instruction.isVmem]
      revert h₁ h₂ h₃ h₄ h₅
      cases i.format <;> simp
  simp only [overwriteWait, htype, hds]
  rfl

lemma permitsLoad_ne_exp {type : VmemType} {c : Counter}
    (h : e.permitsLoad s i type j = .ok (some c)) : c ≠ .exp := by
  simp only [permitsLoad, bind_eq_ok] at h
  obtain ⟨d, hd, h⟩ := h
  have hne : d ≠ .exp := by
    rintro rfl
    exact Generation.counter?_vmemEvent_ne_exp i s (some type) (Generation.counter?_of_counterOf hd)
  have hd' : d = c := by
    split at h
    · split at h
      · simp [bind, Except.bind, throw, throwThe, MonadExceptOf.throw] at h
      · simp only [pure_eq_ok] at h
        split at h <;> cases h
        rfl
    · rw [pure_eq_ok] at h
      split at h <;> cases h
      rfl
  exact hd' ▸ hne

/-- Where a unit may be overwritten out of the order of its accesses, the wait leaves out their
counter. -/
lemma overwriteWait_cases {w : Wait} (h : e.overwriteWait s i r j = .ok w) :
    ∃ v, (v = e.waitFor s.generation r
          ∧ (∀ type, i.vmemType? s.generation = some type → e.permitsLoad s i type j = .ok none)
        ∨ ∃ type c, i.vmemType? s.generation = some type ∧ e.permitsLoad s i type j = .ok (some c)
          ∧ v = (e.waitFor s.generation r).clear c)
      ∧ (w = v ∧ (∀ access, i.ds? = some access → e.permitsDs s.generation access = false)
        ∨ w = v.clear .lgkm
          ∧ ∃ access, i.ds? = some access ∧ e.permitsDs s.generation access = true) := by
  have hds : ∀ v : Wait,
      (i.ds?.elim v fun access => if e.permitsDs s.generation access then v.clear .lgkm else v) = w →
        w = v ∧ (∀ access, i.ds? = some access → e.permitsDs s.generation access = false)
          ∨ w = v.clear .lgkm
            ∧ ∃ access, i.ds? = some access ∧ e.permitsDs s.generation access = true := by
    intro v hv
    cases haccess : i.ds? with
    | none =>
      rw [haccess] at hv
      exact .inl ⟨hv.symm, fun access hno => by cases hno⟩
    | some access =>
      simp only [haccess, Option.elim_some] at hv
      split at hv
      · exact .inr ⟨hv.symm, access, rfl, ‹_›⟩
      · rename_i hno
        refine .inl ⟨hv.symm, fun access' haccess' => ?_⟩
        cases haccess'
        simpa using hno
  rw [overwriteWait] at h
  dsimp only at h
  split at h
  · rename_i type htype
    obtain ⟨permitted, hp, h⟩ := bind_eq_ok.1 h
    cases permitted with
    | none =>
      dsimp only at h
      rw [pure_bind, pure_eq_ok] at h
      refine ⟨_, .inl ⟨rfl, fun type' htype' => ?_⟩, hds _ (by revert h; cases i.ds? <;> exact id)⟩
      rw [htype] at htype'
      cases htype'
      exact hp
    | some c =>
      dsimp only at h
      rw [pure_bind, pure_eq_ok] at h
      exact ⟨_, .inr ⟨type, c, htype, hp, rfl⟩, hds _ (by revert h; cases i.ds? <;> exact id)⟩
  · rename_i htype
    rw [pure_bind, pure_eq_ok] at h
    refine ⟨_, .inl ⟨rfl, fun type' htype' => ?_⟩, hds _ (by revert h; cases i.ds? <;> exact id)⟩
    rw [htype] at htype'
    cases htype'

/-- No leave concerns the export counter, which counts the accesses that read. -/
lemma get_exp_overwriteWait {w : Wait} (h : e.overwriteWait s i r j = .ok w) :
    w.get .exp = (e.waitFor s.generation r).get .exp := by
  have hclear : ∀ (v : Wait) (c : Counter), c ≠ .exp → (v.clear c).get .exp = v.get .exp :=
    fun v c hc => by rw [Wait.get_clear, if_neg hc.symm]
  obtain ⟨v, hload, hds⟩ := overwriteWait_cases h
  have hv : v.get .exp = (e.waitFor s.generation r).get .exp := by
    rcases hload with ⟨rfl, -⟩ | ⟨type, c, -, hp, rfl⟩
    · rfl
    · exact hclear _ c (permitsLoad_ne_exp hp)
  rcases hds with ⟨rfl, -⟩ | ⟨rfl, -⟩
  · exact hv
  · exact (hclear v .lgkm (by decide)).trans hv

end Entry

namespace Context

variable {g : Generation} {s : Setting} {c c' : Context} {p : Pending} {i : Instruction}

/-- The wait for the hazards is as strong as that of each unit that is overwritten. -/
lemma hazardWait_le_writeWait {w : Wait} (h : c.hazardWait s i = .ok w) {d : RegRange}
    (hd : d ∈ i.definitions) {u : Reg} {j : Nat} (hj : d.units[j]? = some u) :
    ∃ v, c.writeWait s i u j = .ok v ∧ w ≤ v := by
  simp only [hazardWait, bind_eq_ok, pure_eq_ok] at h
  obtain ⟨-, -, writes, hwrites, rfl⟩ := h
  obtain ⟨ws, hws, hmap⟩ := mem_of_mapM hwrites hd
  obtain ⟨v, hv, hvw⟩ := mem_of_mapM hmap (List.mem_zipIdx_iff_getElem?.2 hj : (u, j) ∈ d.units.zipIdx)
  exact ⟨v, hvw, Wait.allOf_le (List.mem_append_right _ (List.mem_flatten.2 ⟨ws, hws, hv⟩))⟩

/-- The wait for the hazards is as strong as that of each unit that is used. -/
lemma hazardWait_le {w : Wait} (h : c.hazardWait s i = .ok w) :
    (∀ op ∈ i.operands, ∀ u ∈ op.units, w ≤ c.readWait s.generation u)
      ∧ ∀ d ∈ i.definitions, ∀ u ∈ d.units, ∃ j v, c.writeWait s i u j = .ok v ∧ w ≤ v := by
  refine ⟨fun op hop u hu => ?_, fun d hd u hu => ?_⟩
  · simp only [hazardWait, bind_eq_ok, pure_eq_ok] at h
    obtain ⟨-, -, writes, -, rfl⟩ := h
    exact Wait.allOf_le (List.mem_append_left _
      (List.mem_flatMap.2 ⟨op, hop, List.mem_map.2 ⟨u, hu, rfl⟩⟩))
  · obtain ⟨j, hj⟩ := List.mem_iff_getElem?.1 hu
    exact ⟨j, hazardWait_le_writeWait h hd hj⟩

/-- A wait that is as strong as those of the units is as strong as the one for the hazards. -/
lemma le_hazardWait {u w : Wait} (h : c.hazardWait s i = .ok w)
    (hreads : ∀ op ∈ i.operands, ∀ r ∈ op.units, u ≤ c.readWait s.generation r)
    (hwrites : ∀ d ∈ i.definitions, ∀ (r : Reg) (j : Nat), d.units[j]? = some r →
      ∀ v, c.writeWait s i r j = .ok v → u ≤ v) : u ≤ w := by
  simp only [hazardWait, bind_eq_ok, pure_eq_ok] at h
  obtain ⟨-, -, writes, hmap, rfl⟩ := h
  refine Wait.le_allOf_iff.2 fun v hv => ?_
  rcases List.mem_append.1 hv with hv | hv
  · obtain ⟨op, hop, hv⟩ := List.mem_flatMap.1 hv
    obtain ⟨r, hr, rfl⟩ := List.mem_map.1 hv
    exact hreads op hop r hr
  · obtain ⟨ws, hws, hv⟩ := List.mem_flatten.1 hv
    obtain ⟨d, hd, hmap⟩ := exists_of_mem_mapM hmap hws
    obtain ⟨⟨r, j⟩, hrj, hwrite⟩ := exists_of_mem_mapM hmap hv
    exact hwrites d hd r j (List.mem_zipIdx_iff_getElem?.1 hrj) v hwrite

/-- The wait in front of an instruction completes all that the instruction runs into. -/
lemma Covers.quiet {q q' : Queue} (hc : c.Sound s.generation) (hi : i.isCoherent = true)
    (h : Awaited s i c q c' q') (hp : c.Covers s.generation (p.wait q'.wait)) :
    Checker.Quiet s.generation i (p.wait q'.wait) := by
  intro k a hk hv
  obtain ⟨e, he, hfol⟩ := hp k a hk
  have hnot : ¬q'.wait.Completes a := (Pending.getElem?_wait.1 hk).2
  obtain ⟨w, hw, hle⟩ := h.hazard
  obtain ⟨hreads, hwrites⟩ := hazardWait_le hw
  have hflat : c.CoversFlat q'.wait := by
    obtain ⟨-, -, hvm, hlgkm⟩ := deferBefore_frame c s i
    exact ⟨fun hf => h.flat.vm (hvm ▸ hf), fun hf => h.flat.lgkm (hlgkm ▸ hf)⟩
  -- So no part of the wait may reach the target of the entry.
  have hlt : ∀ v : Wait, q'.wait ≤ v → v.get a.counter ≠ (e.waitFor s.generation k.unit).get a.counter := by
    intro v hv' heq
    rw [Entry.get_waitFor (hc.entry _ e he) hfol hv] at heq
    exact hnot (completes_of_follows hfol hflat.get_eq_zero (heq ▸ hv' a.counter))
  have hread : (a.write && i.operands.any fun op => op.units.contains k.unit) = false := by
    rw [Bool.eq_false_iff]
    intro hr
    simp only [Bool.and_eq_true, List.any_eq_true, List.contains_iff_mem] at hr
    obtain ⟨hwrite, op, hop, hu⟩ := hr
    refine hlt _ (Wait.le_trans hle (hreads op hop _ hu)) ?_
    simp only [readWait, he, hfol.write hwrite, if_true]
  simp only [Checker.conflicts, hread, Bool.false_eq_true, if_false, List.nil_append]
  split
  · rename_i hw'
    simp only [List.any_eq_true, List.contains_iff_mem] at hw'
    obtain ⟨d, hd, hu⟩ := hw'
    obtain ⟨j, v, hv', hlev⟩ := hwrites d hd _ hu
    simp only [writeWait, he] at hv'
    have hne := hlt v (Wait.le_trans hle hlev)
    split
    · rename_i hwrite
      rw [Bool.not_eq_true'] at hwrite
      rw [hfol.read hwrite] at hne
      exact absurd (Entry.get_exp_overwriteWait hv') hne
    · split
      · rfl
      · rename_i hlate
        rw [Entry.overwriteWait_of_prompt hi (by simpa using hlate), Except.ok.injEq] at hv'
        exact absurd (by rw [hv']) hne
  · rfl

/-- A drain of all counters that have not drained leaves nothing in flight. -/
lemma Covers.drained {w : Wait} (hp : c.Covers g (p.wait w)) (hw : w ≤ .drain c.nonzero)
    (k : AccessKey) : (p.wait w)[k]? = none := by
  cases hk : (p.wait w)[k]? with
  | none => rfl
  | some a =>
    obtain ⟨e, -, hfol⟩ := hp k a hk
    refine absurd (completes_of_get_eq_zero ?_) (Pending.getElem?_wait.1 hk).2
    have := hw a.counter
    rw [Wait.get_drain, if_pos hfol.nonzero, UInt16.le_iff_toNat_le] at this
    rw [← UInt16.toNat_inj]
    simpa using this

end Context

/-! ### Issuing -/

namespace Entry

variable {g : Generation} {slack : Counter → Prop} {nonzero : CounterSet} {e o : Entry}
  {k : AccessKey} {a : InFlight}

lemma Follows.mono (h : e.Follows g slack nonzero k a) {nonzero' : CounterSet}
    (hz : ∀ d ∈ nonzero, d ∈ nonzero') : e.Follows g slack nonzero' k a :=
  { h with nonzero := hz _ h.nonzero }

/-- One more access of the unit does not hide those that are followed. -/
lemma Follows.join (h : e.Follows g slack nonzero k a) (o : Entry) (lanes : EventSet) :
    ((e.join o).addLanes lanes).Follows g slack nonzero k a where
  event := (Flags.mem_union _ _ _).2 (.inl h.event)
  counter := h.counter
  nonzero := h.nonzero
  slot := Wait.isSet_of_le (Wait.both_le_left _ _) h.slot
  target := h.target.imp id fun ht => UInt16.le_trans (Wait.both_le_left e.wait o.wait _) ht
  write hw := by simp [Entry.join, addLanes, h.write hw]
  lanes hl := (Flags.mem_union _ _ _).2 (.inl (h.lanes hl))
  read := h.read
  order := h.order

/-- An entry that has absorbed another one follows what that one follows. -/
lemma Follows.of_grows (h : o.Follows g slack nonzero k a) (hg : e.grows o = false)
    {slack' : Counter → Prop} (hslack : ∀ d, slack d → slack' d) {nonzero' : CounterSet}
    (hz : ∀ d ∈ nonzero, d ∈ nonzero') {a' : InFlight} (hwrite : a'.write = a.write)
    (hcounter : a'.counter = a.counter) (hordered : a'.ordered = a.ordered)
    (hyounger : a'.younger = a.younger) (hlanes : a'.lanes = true → k.event ∈ e.laneEvents) :
    e.Follows g slack' nonzero' k a' := by
  obtain ⟨hevents, -, hblocks, -, -, hwait⟩ := grows_eq_false_iff.1 hg
  exact
    { event := Flags.mem_of_lacks_eq_false hevents h.event
      counter := hcounter ▸ h.counter
      nonzero := hcounter ▸ hz _ h.nonzero
      slot := hcounter ▸ Wait.isSet_of_le hwait h.slot
      target := by
        rw [hcounter, hyounger]
        exact h.target.imp (hslack _) fun ht => UInt16.le_trans (hwait _) ht
      write := fun hw => hblocks (h.write (hwrite ▸ hw))
      lanes := hlanes
      read := fun hw => hcounter ▸ h.read (hwrite ▸ hw)
      order := fun ho => hcounter ▸ (h.order (hordered ▸ ho)).imp id (hslack _) }

lemma Follows.join_right (h : o.Follows g slack nonzero k a) (e : Entry) :
    ((e.join o).addLanes o.laneEvents).Follows g slack nonzero k a where
  event := (Flags.mem_union _ _ _).2 (.inr h.event)
  counter := h.counter
  nonzero := h.nonzero
  slot := Wait.isSet_of_le (Wait.both_le_right _ _) h.slot
  target := h.target.imp id fun ht => UInt16.le_trans (Wait.both_le_right e.wait o.wait _) ht
  write hw := by simp [Entry.join, addLanes, h.write hw]
  lanes hl := (Flags.mem_union _ _ _).2 (.inr (h.lanes hl))
  read := h.read
  order := h.order

/-- Where the target stays, an access only moves away from it. -/
lemma Follows.aged (h : e.Follows g slack nonzero k a) (hb : a.younger ≤ g.horizon.get a.counter)
    {a' : InFlight} (hag : a.Aged g a') : e.Follows g slack nonzero k a' where
  event := h.event
  counter := by rw [hag.counter]; exact h.counter
  nonzero := by rw [hag.counter]; exact h.nonzero
  slot := by rw [hag.counter]; exact h.slot
  target := by
    rw [hag.counter]
    exact h.target.imp id fun ht => UInt16.le_trans ht (hag.younger hb)
  write := by rw [hag.write]; exact h.write
  lanes := by rw [hag.lanes]; exact h.lanes
  read := by rw [hag.write, hag.counter]; exact h.read
  order := by rw [hag.ordered, hag.counter]; exact h.order

/-- An event ages the entry no further than the access, if the event completes in order or the targets
on its counter say nothing. -/
lemma Follows.issue (h : e.Follows g slack nonzero k a)
    (hb : a.younger ≤ g.horizon.get a.counter) (ordered : Event → Bool) (ev : Event)
    (hflat : ordered ev = false → ev ∈ Event.unordered ∨ ∀ d, g.counter? ev = some d → slack d) :
    (if ev ∈ Event.unordered then e else e.age g ev).Follows g slack nonzero k
      (a.issue g k ordered ev) := by
  have hag := InFlight.aged_issue a g k ordered ev
  have hkeep := h.aged hb hag
  split
  · exact hkeep
  rename_i hev
  rw [age]
  split
  · exact hkeep
  rename_i hsmem
  rw [EventSet.isUnordered_iff] at hsmem
  by_cases hcond : a.counter ∈ g.countersOf {ev} ∧ e.events ∩ g.eventsOn a.counter = {ev}
  · -- The entry has no other event on the counter, so the access is of this kind.
    have hk : k.event = ev := by
      rw [← EventSet.mem_singleton, ← hcond.2]
      exact (Flags.mem_inter _ _ _).2 ⟨h.event, Generation.mem_eventsOn.2 h.counter⟩
    refine ⟨hkeep.event, hkeep.counter, hkeep.nonzero, ?_, ?_, hkeep.write, hkeep.lanes, hkeep.read,
      hkeep.order⟩
    · rw [hag.counter, Wait.isSet_iff, Wait.get_ofFn, if_pos hcond]
      exact g.oneMore_ne_unset _ _
    · rw [hag.counter, Wait.get_ofFn, if_pos hcond]
      by_cases hslack : slack a.counter
      · exact .inl hslack
      have hordered : a.ordered = true := by
        by_contra hno
        rcases h.order (by simpa using hno) with hs | hs
        · exact hsmem (hs ▸ h.event)
        · exact hslack hs
      have hin : ordered ev = true := by
        by_contra hno
        rcases hflat (by simpa using hno) with hun | hs
        · exact hev hun
        · exact hslack (hs _ (hk ▸ h.counter))
      rw [InFlight.issue, if_pos ⟨hin, hk, hordered⟩]
      exact .inr (Generation.oneMore_le_oneMore (h.target.resolve_left hslack))
  · refine ⟨hkeep.event, hkeep.counter, hkeep.nonzero, ?_, ?_, hkeep.write, hkeep.lanes, hkeep.read,
      hkeep.order⟩
    · rw [hag.counter, Wait.isSet_iff, Wait.get_ofFn, if_neg hcond]
      exact Wait.isSet_iff.1 h.slot
    · have ht := hkeep.target
      rw [hag.counter] at ht ⊢
      rw [Wait.get_ofFn, if_neg hcond]
      exact ht

end Entry

/-- An instruction that starts raises the events that it issues. -/
lemma Instruction.started_of_start {s : Setting} {i : Instruction} {c c' : Context}
    (h : c.start s i = .ok c') :
    ∃ st, i.started s = .ok st ∧ i.raised s = st.events ∧ Effect.issues (i.effects s) = st.events := by
  rcases i.started_or_fail s with ⟨st, hst⟩ | ⟨fault, hfail⟩
  · exact ⟨st, hst, by rw [raised, hst], issues_effects hst⟩
  · rw [Context.start, hfail, List.foldlM_cons, bind_eq_ok] at h
    obtain ⟨c₁, h₁, -⟩ := h
    cases h₁

namespace Context

variable {s : Setting} {c c' : Context} {i : Instruction} {slack : Counter → Prop} {k : AccessKey}
  {a : InFlight}

/-- Tracking units keeps what is followed. -/
lemma FollowsAt.trackUnits {g : Generation} (h : c.FollowsAt g slack k a)
    (new : Nat → Entry) (units : List (Reg × Nat)) :
    FollowsAt g slack
      { c with regs := units.foldl (fun m (r, j) => Context.trackUnit m r (new j)) c.regs } k a :=
  exists_trackUnits new (fun j hold => hold.join (new j) _) units h

/-- A unit that is tracked follows the access that has just started. -/
lemma followsAt_trackUnits {g : Generation} {new : Nat → Entry}
    (hnew : ∀ j, (new j).Follows g slack c.nonzero k a) {units : List (Reg × Nat)} {j : Nat}
    (hk : (k.unit, j) ∈ units) :
    FollowsAt g slack
      { c with regs := units.foldl (fun m (r, j) => Context.trackUnit m r (new j)) c.regs } k a :=
  exists_trackUnits_of_mem new hnew (fun old j => (hnew j).join_right old) hk _

/-- The entry that a unit gets when an access starts follows the access. -/
lemma follows_startedEntry {g : Generation} {nonzero : CounterSet}
    (hcount : g.counter? k.event = some a.counter) (hnonzero : a.counter ∈ nonzero)
    (hyounger : a.younger = 0) {blocksReads : Bool} (hwrite : a.write = true → blocksReads = true)
    (hread : a.write = false → a.counter = .exp)
    (horder : a.ordered = false → k.event = .smem ∨ slack a.counter) (types : VmemTypeSet)
    (halves : HalfSet) :
    (startedEntry g k.event blocksReads types halves).Follows g slack nonzero k a where
  event := by simp [startedEntry, Entry.ofEvent]
  counter := hcount
  nonzero := hnonzero
  slot := by simp [startedEntry, Entry.ofEvent, Wait.isSet_iff, hcount]; decide
  target := .inr (by simp [startedEntry, Entry.ofEvent, hcount, hyounger])
  write := hwrite
  lanes _ := by simp [startedEntry, Entry.ofEvent]
  read := hread
  order := horder

/-- Issuing keeps what is followed, and ages it. -/
lemma FollowsAt.issue (h : c.FollowsAt s.generation slack k a)
    (hb : a.younger ≤ s.generation.horizon.get a.counter) (ordered : Event → Bool) {ev : Event}
    {sync : Sync} {i? : Option Instruction}
    (hord : ordered ev = false → ev ∈ Event.unordered
      ∨ ∀ d, s.generation.counter? ev = some d → slack d)
    (hissue : c.issue s ev sync i? = .ok c') :
    c'.FollowsAt s.generation slack k (a.issue s.generation k ordered ev) := by
  have hi := issued_of_issue hissue
  obtain ⟨e, he, hfol⟩ := h
  refine ⟨_, ?_, (hfol.issue hb ordered ev hord).mono fun d hd => ?_⟩
  · rw [hi.entry, he]
    split <;> rfl
  · rw [hi.nonzero]
    exact (Flags.mem_union _ _ _).2 (.inl hd)

/-- One effect keeps what is followed, and ages it. -/
lemma FollowsAt.apply (h : c.FollowsAt s.generation slack k a)
    (hb : a.younger ≤ s.generation.horizon.get a.counter) {effect : Effect}
    (hflat : i.isUnorderedFlat s.generation = true → ∀ ev ∈ Effect.issues [effect],
      ∀ d, s.generation.counter? ev = some d → slack d)
    (happly : c.apply s i effect = .ok c') :
    c'.FollowsAt s.generation slack k
      (a.issues s.generation k (i.inOrder s.generation) (Effect.issues [effect])) := by
  cases effect with
  | issue ev sync =>
    refine h.issue hb (i.inOrder s.generation) (fun ho => ?_) happly
    by_cases hf : i.isUnorderedFlat s.generation = true
    · exact .inr (hflat hf ev (by simp))
    · left
      simpa [Instruction.inOrder, hf] using ho
  | track range ev blocksReads types halves =>
    obtain ⟨-, rfl⟩ := track_eq_ok.1 happly
    exact h.trackUnits (fun j => startedEntry s.generation ev blocksReads types
      (HalfSet.ofWord halves j)) range.units.zipIdx
  | flat =>
    cases happly
    exact h
  | fail fault => cases happly

lemma FollowsAt.foldlM {l : List Effect} (h : c.FollowsAt s.generation slack k a)
    (hb : a.younger ≤ s.generation.horizon.get a.counter)
    (hflat : i.isUnorderedFlat s.generation = true → ∀ ev ∈ Effect.issues l,
      ∀ d, s.generation.counter? ev = some d → slack d)
    (hfold : l.foldlM (fun c effect => c.apply s i effect) c = .ok c') :
    c'.FollowsAt s.generation slack k
      (a.issues s.generation k (i.inOrder s.generation) (Effect.issues l)) := by
  induction l generalizing c a with
  | nil =>
    rw [List.foldlM_nil, pure_eq_ok] at hfold
    exact hfold ▸ h
  | cons effect l ih =>
    rw [← List.singleton_append, Effect.issues_append] at hflat ⊢
    rw [List.foldlM_cons, bind_eq_ok] at hfold
    obtain ⟨c₁, happly, hfold⟩ := hfold
    have h₁ := h.apply hb (fun hf ev hev => hflat hf ev (List.mem_append_left _ hev)) happly
    have hag := InFlight.aged_issues a s.generation k (i.inOrder s.generation)
      (Effect.issues [effect])
    rw [InFlight.issues, List.foldl_append]
    exact ih h₁ (hag.counter ▸ hag.bounded hb)
      (fun hf ev hev => hflat hf ev (List.mem_append_right _ hev)) hfold

/-- A tracked access is followed when the instruction has issued. -/
lemma followsAt_of_tracks {l : List Effect} {write : Bool}
    (h : Effect.Tracks k.unit k.event write l) (hwrite : a.write = write)
    (hcount : s.generation.counter? k.event = some a.counter) (hyounger : a.younger = 0)
    (hread : a.write = false → a.counter = .exp)
    (horder : a.ordered = false → k.event = .smem ∨ slack a.counter)
    (hz : a.counter ∈ c.nonzero ∨ k.event ∈ Effect.issues l)
    (hflat : i.isUnorderedFlat s.generation = true → ∀ ev ∈ Effect.issues l,
      ∀ d, s.generation.counter? ev = some d → slack d)
    (hfold : l.foldlM (fun c effect => c.apply s i effect) c = .ok c') :
    c'.FollowsAt s.generation slack k a := by
  induction l generalizing c with
  | nil => cases h
  | cons effect l ih =>
    rw [List.foldlM_cons, bind_eq_ok] at hfold
    obtain ⟨c₁, happly, hfold⟩ := hfold
    have hflat' : i.isUnorderedFlat s.generation = true → ∀ ev ∈ Effect.issues l,
        ∀ d, s.generation.counter? ev = some d → slack d := fun hf ev hev => by
      refine hflat hf ev ?_
      rw [← List.singleton_append, Effect.issues_append]
      exact List.mem_append_right _ hev
    cases effect with
    | issue ev sync =>
      refine ih h ?_ hflat' hfold
      rw [(issued_of_issue happly).nonzero, Flags.mem_union, Generation.mem_countersOf_singleton]
      rcases hz with hz | hz
      · exact .inl (.inl hz)
      · rcases List.mem_cons.1 hz with rfl | hz
        · exact .inl (.inr hcount)
        · exact .inr hz
    | track range ev blocksReads types halves =>
      rcases h with ⟨hu, rfl, rfl, hlater⟩ | h
      · obtain ⟨-, rfl⟩ := track_eq_ok.1 happly
        have hz' : a.counter ∈ c.nonzero := hz.resolve_right hlater
        have hnew : ∀ j, (startedEntry s.generation k.event blocksReads types
            (HalfSet.ofWord halves j)).Follows s.generation slack c.nonzero k a := fun j =>
          follows_startedEntry hcount hz' hyounger (fun hw => hwrite ▸ hw) hread horder types _
        obtain ⟨j, hj⟩ : ∃ j, (k.unit, j) ∈ range.units.zipIdx := by
          obtain ⟨j, hj⟩ := List.mem_iff_getElem?.1 hu
          exact ⟨j, List.mem_zipIdx_iff_getElem?.2 hj⟩
        have h₁ := followsAt_trackUnits hnew hj
        have h₂ := h₁.foldlM (by rw [hyounger]; exact UInt16.le_iff_toNat_le.2 (Nat.zero_le _))
          hflat' hfold
        rwa [InFlight.issues_of_notMem hlater] at h₂
      · obtain ⟨-, rfl⟩ := track_eq_ok.1 happly
        refine ih h ?_ hflat' hfold
        exact hz
    | flat =>
      cases happly
      refine ih h ?_ hflat' hfold
      exact hz
    | fail fault => cases happly

lemma nonzero_apply {effect : Effect} (h : c.apply s i effect = .ok c') :
    ∀ n ∈ c.nonzero, n ∈ c'.nonzero := by
  intro n hn
  cases effect with
  | issue ev sync =>
    rw [(issued_of_issue h).nonzero]
    exact (Flags.mem_union _ _ _).2 (.inl hn)
  | track range ev blocksReads types halves =>
    obtain ⟨-, rfl⟩ := track_eq_ok.1 h
    exact hn
  | flat =>
    cases h
    exact hn
  | fail fault => cases h

/-- The counters of all events that are raised may not be zero at the end. -/
lemma nonzero_effects {effects : List Effect}
    (h : effects.foldlM (fun c effect => c.apply s i effect) c = .ok c') :
    (∀ n ∈ c.nonzero, n ∈ c'.nonzero) ∧ ∀ ev sync, .issue ev sync ∈ effects →
      ∀ n, s.generation.counter? ev = some n → n ∈ c'.nonzero := by
  induction effects generalizing c with
  | nil =>
    cases h
    exact ⟨fun _ hn => hn, fun _ _ hno => by cases hno⟩
  | cons effect rest ih =>
    rw [List.foldlM_cons, bind_eq_ok] at h
    obtain ⟨c₁, hfirst, hrest⟩ := h
    obtain ⟨hkept, hraised⟩ := ih hrest
    refine ⟨fun n hn => hkept n (nonzero_apply hfirst n hn), fun ev sync hissue n hn => ?_⟩
    rcases List.mem_cons.1 hissue with rfl | hissue
    · refine hkept n ?_
      rw [(issued_of_issue hfirst).nonzero]
      exact (Flags.mem_union _ _ _).2 (.inr (Generation.mem_countersOf_singleton.2 hn))
    · exact hraised ev sync hissue n hn

/-- Starting an instruction completes no flat access. -/
lemma slack_apply {effect : Effect} (happly : c.apply s i effect = .ok c') (d : Counter) :
    (c.Slack d → c'.Slack d) ∧ (effect = .flat → d = .vm ∨ d = .lgkm → c'.Slack d) := by
  cases effect with
  | issue ev sync =>
    have hi := issued_of_issue happly
    refine ⟨fun h => ?_, fun h => by cases h⟩
    cases d <;> simp only [Slack, hi.flatVm, hi.flatLgkm] at h ⊢ <;> exact h
  | track range ev blocksReads types halves =>
    obtain ⟨-, rfl⟩ := track_eq_ok.1 happly
    refine ⟨fun h => ?_, fun h => by cases h⟩
    cases d <;> exact h
  | flat =>
    cases happly
    refine ⟨fun h => ?_, ?_⟩
    · cases d <;> first | exact h | rfl
    · rintro - (rfl | rfl) <;> rfl
  | fail fault => cases happly

lemma slack_foldlM {l : List Effect}
    (hfold : l.foldlM (fun c effect => c.apply s i effect) c = .ok c') (d : Counter) :
    (c.Slack d → c'.Slack d) ∧ (.flat ∈ l → d = .vm ∨ d = .lgkm → c'.Slack d) := by
  induction l generalizing c with
  | nil =>
    rw [List.foldlM_nil, pure_eq_ok] at hfold
    exact ⟨fun h => hfold ▸ h, fun h => by cases h⟩
  | cons effect l ih =>
    rw [List.foldlM_cons, bind_eq_ok] at hfold
    obtain ⟨c₁, happly, hfold⟩ := hfold
    obtain ⟨hkeep, hset⟩ := slack_apply happly d
    obtain ⟨hkeep', hset'⟩ := ih hfold
    refine ⟨fun h => hkeep' (hkeep h), fun h hd => ?_⟩
    rcases List.mem_cons.1 h with h | h
    · exact hkeep' (hset h.symm hd)
    · exact hset' h hd

/-- While a flat load is outstanding that completes out of order, the targets on its counters say
nothing. -/
lemma slack_of_unorderedFlat (h : c.start s i = .ok c')
    (hf : i.isUnorderedFlat s.generation = true) :
    ∀ ev ∈ Effect.issues (i.effects s), ∀ ctr, s.generation.counter? ev = some ctr →
      c'.Slack ctr := by
  intro ev hev ctr hctr
  obtain ⟨st, hst, -, hissues⟩ := Instruction.started_of_start h
  obtain ⟨hmem, hcount⟩ := Instruction.unorderedFlat_spec hf hst
  refine (slack_foldlM h ctr).2 hmem ?_
  have := hcount ev (hissues ▸ hev)
  rwa [hctr, Option.some.injEq, Option.some.injEq] at this

/-- Starting an instruction keeps what is followed. -/
lemma FollowsAt.start (h : c.FollowsAt s.generation c.Slack k a)
    (hb : a.younger ≤ s.generation.horizon.get a.counter) (hstart : c.start s i = .ok c') :
    c'.FollowsAt s.generation c'.Slack k
      (a.issues s.generation k (i.inOrder s.generation) (i.raised s)) := by
  obtain ⟨st, -, hraised, hissues⟩ := Instruction.started_of_start hstart
  obtain ⟨e, he, hfol⟩ := h
  have hfol' : c.FollowsAt s.generation c'.Slack k a :=
    ⟨e, he, { hfol with
      target := hfol.target.imp (slack_foldlM hstart _).1 id
      order := fun ho => (hfol.order ho).imp id (slack_foldlM hstart _).1 }⟩
  rw [hraised, ← hissues]
  exact hfol'.foldlM hb (slack_of_unorderedFlat hstart) hstart

/-- Starting an instruction keeps the context right about what is in flight. -/
theorem Covers.start {p p' : Pending} {place : Place} (hi : i.Regular)
    (hp : c.Covers s.generation p) (hb : p.Bounded s.generation) (h : c.start s i = .ok c')
    (hs : Checker.startAccesses s p place i = .ok p') : c'.Covers s.generation p' := by
  obtain ⟨st, hst⟩ := Instruction.started_total hi.workable s
  have hflat := slack_of_unorderedFlat h
  intro k a hk
  rw [Checker.getElem?_startAccesses hs, Option.or_eq_some_iff] at hk
  rcases hk with hk | ⟨-, hk⟩
  · -- An access of the instruction itself.
    obtain ⟨⟨u, acc⟩, hx, rfl, rfl⟩ := Checker.newAmong_eq_some hk
    simp only [Instruction.leaves, hst, List.mem_flatMap, List.mem_map, Prod.mk.injEq] at hx
    obtain ⟨acc, hacc, u, hu, rfl, rfl⟩ := hx
    have hfollowed := hi.workable.followed hst hacc
    obtain ⟨d, hd, hread⟩ := hfollowed.counted
    have hctr : (Checker.newAccess s.generation i acc).counter = d := by
      simp [Checker.newAccess, hd]
    refine followsAt_of_tracks (hi.tracks hst hacc hu) rfl (hctr ▸ hd) rfl ?_ ?_ (.inr ?_) hflat h
    · exact fun hw => hctr.trans (hread hw)
    · intro hord
      by_cases hf : i.isUnorderedFlat s.generation = true
      · refine .inr (hflat hf acc.event ?_ _ (hctr ▸ hd))
        rw [Instruction.issues_effects hst]
        exact hfollowed.raised
      · simp only [Checker.newAccess, Instruction.inOrder, hf, Bool.not_false, Bool.true_and,
          Bool.not_eq_false', decide_eq_true_eq, Event.mem_unordered] at hord
        exact .inl hord
    · rw [Instruction.issues_effects hst]
      exact hfollowed.raised
  · -- An access that was in flight before.
    obtain ⟨b, hb', rfl⟩ := Option.map_eq_some_iff.1 hk
    exact (hp k b hb').start (hb k b hb') h

end Context

end GpuWaits
