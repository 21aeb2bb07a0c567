/-
# The checker comes to rest

The states of the checker have far more levels than it has rounds: every access may come nearer step
by step.  But an access comes nearer at the end of a block only because it came nearer at the end of a
predecessor, to a place that is not further away.  Traced back through the rounds, these changes
never meet a block twice, so after as many rounds as there are blocks nothing comes nearer any more.
After as many rounds again, all lanes are seen that ever will be.  This is well below the bound
(`Checker.settle_ne_none`), and what the checker stops at is a fixed point
(`Checker.fixed_of_settle`).  A property that every block keeps then holds of it as well
(`Checker.check_eq_nil`).
-/
import GpuWaits.Proofs.Keywise
import Mathlib.Data.Finset.Card
import Mathlib.Data.Finset.Range

namespace GpuWaits

/-! ### Values that fall -/

/-- A value that falls in a round.  If every fall is brought about by one that goes as deep, further in
front in the same round or anywhere in the round before, then after `T` rounds there are at most
`n` more with a fall, for `n` values. -/
theorem lt_of_fall {n T : Nat} {f : Nat → Nat → Nat} (hanti : ∀ t b, f (t + 1) b ≤ f t b)
    (hout : ∀ t b, f (t + 1) b < f t b → b < n)
    (hcause : ∀ t b, T ≤ t → f (t + 2) b < f (t + 1) b → ∃ q,
      (q < b ∧ f (t + 2) q < f (t + 1) q ∧ f (t + 2) q ≤ f (t + 2) b)
        ∨ (f (t + 1) q < f t q ∧ f (t + 1) q ≤ f (t + 2) b))
    {t b : Nat} (h : f (t + 1) b < f t b) : t < T + n := by
  have hmono : ∀ b {u v : Nat}, u ≤ v → f v b ≤ f u b := by
    intro b u v huv
    induction huv with
    | refl => exact Nat.le_refl _
    | step _ ih => exact Nat.le_trans (hanti _ b) ih
  -- Each fall has behind it one more value for every round, and none of them twice.
  have hchain : ∀ j b, f (T + j + 1) b < f (T + j) b → ∃ s : Finset Nat, j < s.card
      ∧ ∀ q ∈ s, ∃ u ≤ T + j, f (u + 1) q < f u q ∧ f (u + 1) q ≤ f (T + j + 1) b := by
    intro j
    induction j with
    | zero =>
      intro b hb
      refine ⟨{b}, by simp, fun q hq => ?_⟩
      rw [Finset.mem_singleton.1 hq]
      exact ⟨T, Nat.le_refl _, hb, Nat.le_refl _⟩
    | succ j ihj =>
      intro b
      induction b using Nat.strong_induction_on with
      | _ b ihb =>
        intro hb
        obtain ⟨q, ⟨hlt, hq, hle⟩ | ⟨hq, hle⟩⟩ := hcause (T + j) b (Nat.le_add_right _ _) hb
        · obtain ⟨s, hcard, hs⟩ := ihb q hlt hq
          refine ⟨s, hcard, fun r hr => ?_⟩
          obtain ⟨u, hu, hfall, hdeep⟩ := hs r hr
          exact ⟨u, hu, hfall, Nat.le_trans hdeep hle⟩
        · obtain ⟨s, hcard, hs⟩ := ihj q hq
          have hnew : b ∉ s := by
            intro hmem
            obtain ⟨u, hu, -, hdeep⟩ := hs b hmem
            have hup : f (T + j + 1) b ≤ f (u + 1) b := hmono b (by omega)
            have hb' : f (T + j + 2) b < f (T + j + 1) b := hb
            omega
          refine ⟨insert b s, ?_, fun r hr => ?_⟩
          · rw [Finset.card_insert_of_notMem hnew]
            omega
          · rcases Finset.mem_insert.1 hr with rfl | hr
            · exact ⟨T + (j + 1), Nat.le_refl _, hb, Nat.le_refl _⟩
            · obtain ⟨u, hu, hfall, hdeep⟩ := hs r hr
              exact ⟨u, by omega, hfall, Nat.le_trans hdeep hle⟩
  by_contra hlate
  obtain ⟨j, rfl⟩ : ∃ j, t = T + j := ⟨t - T, by omega⟩
  obtain ⟨s, hcard, hs⟩ := hchain j b h
  have hsub : s ⊆ Finset.range n := fun q hq => by
    obtain ⟨u, -, hfall, -⟩ := hs q hq
    exact Finset.mem_range.2 (hout u q hfall)
  have := Finset.card_le_card hsub
  rw [Finset.card_range] at this
  omega

namespace Checker

variable {p : Program} {start : Pending}

/-! ### Rounds -/

/-- The state in which a round comes to block `n`: the blocks in front have been gone through. -/
def midway (next flows : List Flow) (n : Nat) : List Flow := next.take n ++ flows.drop n

/-- As long as nothing has changed in front, the states are still those of before the round. -/
lemma midway_eq_right {next flows : List Flow} {m : Nat} (h : ∀ n < m, next[n]? = flows[n]?) :
    midway next flows m = flows := by
  have htake : next.take m = flows.take m := by
    apply List.ext_getElem?
    intro n
    rw [List.getElem?_take, List.getElem?_take]
    split
    · exact h n ‹_›
    · rfl
  rw [midway, htake, List.take_append_drop]

/-- What a round does to a block. -/
structure Visited (p : Program) (start : Pending) (flows next : List Flow) (n : Nat) (b : Block) :
    Prop where
  skipped : .discardEarlyExit ∈ b.kind → next[n]? = flows[n]?
  entered : .discardEarlyExit ∉ b.kind → ∃ entry exit found,
    blockEntry p (midway next flows n) start n b = .ok entry
      ∧ stepBlock (setting p) n b entry = .ok (exit, found) ∧ next[n]? = some { entry, exit }

lemma foldlM_visited {l : List Block} {m : Nat} {flows next : List Flow}
    (hlen : m + l.length ≤ flows.length)
    (h : ((l.zipIdx m).filter fun (b, _) => .discardEarlyExit ∉ b.kind).foldlM
      (fun flows (b, place) => flowBlock p start flows place b) flows = .ok next) :
    next.length = flows.length ∧ (∀ n < m, next[n]? = flows[n]?)
      ∧ ∀ n b, l[n]? = some b → Visited p start flows next (m + n) b := by
  induction l generalizing m flows with
  | nil =>
    cases h
    exact ⟨rfl, fun _ _ => rfl, by simp⟩
  | cons b l ih =>
    rw [List.zipIdx_cons, List.filter_cons] at h
    rw [List.length_cons] at hlen
    dsimp only at h
    by_cases hkind : .discardEarlyExit ∉ b.kind
    · rw [if_pos (decide_eq_true hkind), List.foldlM_cons, bind_eq_ok] at h
      obtain ⟨flows₁, hflow, h⟩ := h
      simp only [flowBlock, bind_eq_ok, pure_eq_ok, Prod.exists] at hflow
      obtain ⟨entry, hentry, exit, found, hstep, rfl⟩ := hflow
      obtain ⟨hlength, hfront, hrest⟩ := ih (by rw [List.length_set]; omega) h
      rw [List.length_set] at hlength
      have hfront' : ∀ n < m, next[n]? = flows[n]? := fun n hn => by
        rw [hfront n (by omega), List.getElem?_set_ne (by omega)]
      refine ⟨hlength, hfront', fun n b' hb' => ?_⟩
      cases n with
      | zero =>
        cases hb'
        refine ⟨fun hd => absurd hd hkind, fun _ => ⟨entry, exit, found, ?_, hstep, ?_⟩⟩
        · rw [Nat.add_zero, midway_eq_right hfront']
          exact hentry
        · rw [Nat.add_zero, hfront m (by omega), List.getElem?_set_self (by omega)]
      | succ n =>
        have hv := hrest n b' (by simpa using hb')
        have hplace : m + (n + 1) = m + 1 + n := by omega
        rw [hplace]
        refine ⟨fun hd => ?_, fun hd => ?_⟩
        · rw [hv.skipped hd, List.getElem?_set_ne (by omega)]
        · have hmid : midway next flows (m + 1 + n)
              = midway next (flows.set m { entry, exit }) (m + 1 + n) := by
            rw [midway, midway, List.drop_set_of_lt (by omega)]
          rw [hmid]
          exact hv.entered hd
    · rw [if_neg (by simpa using hkind)] at h
      rw [not_not] at hkind
      obtain ⟨hlength, hfront, hrest⟩ := ih (by omega) h
      refine ⟨hlength, fun n hn => hfront n (by omega), fun n b' hb' => ?_⟩
      cases n with
      | zero =>
        cases hb'
        exact ⟨fun _ => hfront m (by omega), fun hd => absurd hkind hd⟩
      | succ n =>
        have hplace : m + (n + 1) = m + 1 + n := by omega
        rw [hplace]
        exact hrest n b' (by simpa using hb')

/-- A round goes through every block once. -/
lemma round_spec {flows next : List Flow} (hlen : flows.length = p.blocks.length)
    (h : round p start flows = .ok next) : next.length = p.blocks.length
      ∧ ∀ n b, p.blocks[n]? = some b → Visited p start flows next n b := by
  obtain ⟨hlength, -, hv⟩ := foldlM_visited (m := 0) (by omega) h
  exact ⟨hlength.trans hlen, fun n b hb => by simpa using hv n b hb⟩

lemma getElem?_midway {next flows : List Flow} (hlen : next.length = flows.length) (n m : Nat) :
    (midway next flows n)[m]? = if m < n then next[m]? else flows[m]? := by
  rw [midway, List.getElem?_append, List.length_take, List.getElem?_take, List.getElem?_drop]
  by_cases hmn : m < n
  · rw [if_pos hmn, if_pos hmn]
    split
    · rfl
    · rw [List.getElem?_eq_none (by omega), List.getElem?_eq_none (by omega)]
  · rw [if_neg (show ¬m < min n next.length by omega), if_neg hmn]
    by_cases hm : m < flows.length
    · congr 1
      omega
    · rw [List.getElem?_eq_none (by omega), List.getElem?_eq_none (by omega)]

lemma exitAt_midway {next flows : List Flow} (hlen : next.length = flows.length) (k : AccessKey)
    (n m : Nat) :
    exitAt (midway next flows n) k m = if m < n then exitAt next k m else exitAt flows k m := by
  rw [exitAt, getElem?_midway hlen]
  split <;> rfl

/-- The states of `R` rounds, one after the other; after the last one nothing is done any more. -/
structure Rounds (p : Program) (start : Pending) (R : Nat) (flows : Nat → List Flow) : Prop where
  first : flows 0 = p.blocks.map fun _ => {}
  next : ∀ t < R, round p start (flows t) = .ok (flows (t + 1))
  rest : ∀ t, R ≤ t → flows (t + 1) = flows t

namespace Rounds

variable {R : Nat} {flows : Nat → List Flow} (h : Rounds p start R flows)
include h

lemma length (t : Nat) : (flows t).length = p.blocks.length := by
  induction t with
  | zero => rw [h.first, List.length_map]
  | succ t ih =>
    by_cases ht : t < R
    · exact (round_spec ih (h.next t ht)).1
    · rw [h.rest t (by omega), ih]

lemma exitAt_zero (k : AccessKey) (n : Nat) : exitAt (flows 0) k n = none := by
  rw [exitAt, h.first, List.getElem?_map]
  cases p.blocks[n]? <;> simp

lemma exitAt_of_le (t : Nat) (k : AccessKey) {n : Nat} (hn : p.blocks.length ≤ n) :
    exitAt (flows t) k n = none := by
  rw [exitAt, List.getElem?_eq_none (by rw [h.length]; exact hn)]
  simp

lemma exitAt_midway (t : Nat) (k : AccessKey) (n m : Nat) :
    exitAt (midway (flows (t + 1)) (flows t) n) k m
      = if m < n then exitAt (flows (t + 1)) k m else exitAt (flows t) k m :=
  Checker.exitAt_midway (by rw [h.length, h.length]) k n m

/-- A block that is left out stays as it is. -/
lemma exitAt_skipped {t : Nat} (ht : t < R) {n : Nat} {b : Block} (hb : p.blocks[n]? = some b)
    (hkind : .discardEarlyExit ∈ b.kind) (k : AccessKey) :
    exitAt (flows (t + 1)) k n = exitAt (flows t) k n := by
  have hv := (round_spec (h.length t) (h.next t ht)).2 n b hb
  rw [exitAt, exitAt, hv.skipped hkind]

/-- All accesses are of their kinds, in all rounds. -/
lemma kindly (hstart : Kindly p start) (t : Nat) : KindlyAll p (flows t) := by
  induction t with
  | zero =>
    rw [h.first]
    exact kindlyAll_empty p
  | succ t ih =>
    by_cases ht : t < R
    · exact ih.round hstart (h.next t ht)
    · rw [h.rest t (by omega)]
      exact ih

/-- What a round makes of one access at one block. -/
lemma visited (hstart : Kindly p start) {t : Nat} (ht : t < R) {n : Nat} {b : Block}
    (hb : p.blocks[n]? = some b) (hkind : .discardEarlyExit ∉ b.kind) (k : AccessKey) :
    ∃ x, Entered p (midway (flows (t + 1)) (flows t) n) start n b k x
      ∧ OfKind p.config.generation (kind p k) x
      ∧ exitAt (flows (t + 1)) k n = carry (setting p) k n 0 b.instructions x := by
  have hv := (round_spec (h.length t) (h.next t ht)).2 n b hb
  obtain ⟨entry, exit, found, hentry, hstep, hnext⟩ := hv.entered hkind
  have hmid : KindlyAll p (midway (flows (t + 1)) (flows t) n) := by
    intro k m
    rw [h.exitAt_midway]
    split
    · exact h.kindly hstart (t + 1) k m
    · exact h.kindly hstart t k m
  refine ⟨entry[k]?, entered_of_blockEntry hentry k, hmid.blockEntry hstart hentry k, ?_⟩
  rw [exitAt, hnext]
  exact getElem?_stepBlock hstep k

/-- From round to round there is only more to be said. -/
lemma refines (hstart : Kindly p start) (t : Nat) (k : AccessKey) (n : Nat) :
    Refines true (exitAt (flows (t + 1)) k n) (exitAt (flows t) k n) := by
  induction t generalizing n with
  | zero =>
    intro a ha
    rw [h.exitAt_zero] at ha
    cases ha
  | succ t ih =>
    by_cases ht : t + 1 < R
    · induction n using Nat.strong_induction_on with
      | _ n ihn =>
        by_cases hn : n < p.blocks.length
        · have hb := List.getElem?_eq_getElem hn
          by_cases hkind : .discardEarlyExit ∈ p.blocks[n].kind
          · rw [h.exitAt_skipped ht hb hkind]
            exact .refl _ _
          · obtain ⟨x, hx, hxk, hexit⟩ := h.visited hstart (t := t) (by omega) hb hkind k
            obtain ⟨y, hy, hyk, hexit'⟩ := h.visited hstart ht hb hkind k
            have hmid : ∀ m, Refines true (exitAt (midway (flows (t + 1 + 1)) (flows (t + 1)) n) k m)
                (exitAt (midway (flows (t + 1)) (flows t) n) k m) := by
              intro m
              rw [h.exitAt_midway, h.exitAt_midway]
              split
              · exact ihn m ‹_›
              · exact ih m
            have hrank := hx.rank_le hy fun m => (hmid m).rank_le
            rw [hexit, hexit']
            exact (refines_of_rank_le hxk hyk hrank fun _ =>
              hx.seen_mono hy rfl hrank id fun m => (hmid m).seen).carry
        · rw [h.exitAt_of_le _ _ (by omega), h.exitAt_of_le _ _ (by omega)]
          exact .refl _ _
    · rw [h.rest (t + 1) (by omega)]
      exact .refl _ _

/-- A block at which something changes in round `t + 2` is gone through in that round and in the one
before, and the change came in at its entry. -/
lemma visited_twice (hstart : Kindly p start) {t : Nat} {k : AccessKey} {n : Nat}
    (hne : exitAt (flows (t + 2)) k n ≠ exitAt (flows (t + 1)) k n) :
    ∃ b x y, p.blocks[n]? = some b
      ∧ Entered p (midway (flows (t + 1)) (flows t) n) start n b k x
      ∧ Entered p (midway (flows (t + 2)) (flows (t + 1)) n) start n b k y
      ∧ OfKind p.config.generation (kind p k) x ∧ OfKind p.config.generation (kind p k) y
      ∧ exitAt (flows (t + 1)) k n = carry (setting p) k n 0 b.instructions x
      ∧ exitAt (flows (t + 2)) k n = carry (setting p) k n 0 b.instructions y
      ∧ Refines true y x := by
  have ht : t + 1 < R := by
    by_contra hlate
    exact hne (by rw [h.rest (t + 1) (by omega)])
  have hn : n < p.blocks.length := by
    by_contra hout
    exact hne (by rw [h.exitAt_of_le _ _ (by omega), h.exitAt_of_le _ _ (by omega)])
  have hb := List.getElem?_eq_getElem hn
  have hkind : .discardEarlyExit ∉ p.blocks[n].kind := fun hd =>
    hne (h.exitAt_skipped ht hb hd k)
  obtain ⟨x, hx, hxk, hexit⟩ := h.visited hstart (t := t) (by omega) hb hkind k
  obtain ⟨y, hy, hyk, hexit'⟩ := h.visited hstart ht hb hkind k
  have hmid : ∀ m, Refines true (exitAt (midway (flows (t + 2)) (flows (t + 1)) n) k m)
      (exitAt (midway (flows (t + 1)) (flows t) n) k m) := by
    intro m
    rw [h.exitAt_midway, h.exitAt_midway]
    split
    · exact h.refines hstart (t + 1) k m
    · exact h.refines hstart t k m
  have hrank := hx.rank_le hy fun m => (hmid m).rank_le
  exact ⟨_, x, y, hb, hx, hy, hxk, hyk, hexit, hexit', refines_of_rank_le hxk hyk hrank fun _ =>
    hx.seen_mono hy rfl hrank id fun m => (hmid m).seen⟩

/-- An access that comes nearer has come nearer at a predecessor, and not less. -/
lemma exists_fall (hstart : Kindly p start) {t : Nat} {k : AccessKey} {n : Nat}
    (hfall : rank (exitAt (flows (t + 2)) k n) < rank (exitAt (flows (t + 1)) k n)) : ∃ m,
      (m < n ∧ rank (exitAt (flows (t + 2)) k m) < rank (exitAt (flows (t + 1)) k m)
          ∧ rank (exitAt (flows (t + 2)) k m) ≤ rank (exitAt (flows (t + 2)) k n))
        ∨ (rank (exitAt (flows (t + 1)) k m) < rank (exitAt (flows t) k m)
          ∧ rank (exitAt (flows (t + 1)) k m) ≤ rank (exitAt (flows (t + 2)) k n)) := by
  obtain ⟨b, x, y, hb, hx, hy, hxk, hyk, hexit, hexit', href⟩ := h.visited_twice hstart
    (t := t) (k := k) (n := n) fun heq => by
      rw [heq] at hfall
      exact Nat.lt_irrefl _ hfall
  -- The access came nearer at the entry, and the block has not brought it nearer still.
  have hxy : rank y < rank x := by
    refine Nat.lt_of_le_of_ne href.rank_le fun heq => ?_
    rw [hexit, hexit', rank_carry_eq hxk hyk heq] at hfall
    exact Nat.lt_irrefl _ hfall
  have hthrough : rank y ≤ rank (exitAt (flows (t + 2)) k n) := by
    have hbound : ∀ a, y = some a → a.younger ≤ (setting p).generation.horizon.get a.counter :=
      fun a ha => (hyk a ha).2
    rcases carry_eq_or_rank_le (k := k) n 0 b.instructions hbound with heq | hle
    · have hnone : Refines true x none := fun a ha => by cases ha
      have hle : rank (carry (setting p) k n 0 b.instructions x)
          ≤ rank (carry (setting p) k n 0 b.instructions none) := hnone.carry.rank_le
      rw [hexit, hexit', heq] at hfall
      exact absurd hfall (Nat.not_lt.2 hle)
    · rw [hexit']
      exact hle
  -- So it came in from a predecessor at which it had come nearer.
  rcases hy.attained with heq | ⟨pred, hpred, heq⟩
  · have := hx.le_first
    omega
  · have hold := hx.le pred hpred
    rw [h.exitAt_midway] at heq hold
    refine ⟨pred.toNat, ?_⟩
    split at heq
    · rw [if_pos ‹_›] at hold
      change rank y = rank (exitAt (flows (t + 2)) k pred.toNat) at heq
      exact .inl ⟨‹_›, by omega, by omega⟩
    · rw [if_neg ‹_›] at hold
      exact .inr ⟨by omega, by omega⟩

/-- After as many rounds as there are blocks, no access comes nearer. -/
lemma rank_eq (hstart : Kindly p start) {t : Nat} (ht : p.blocks.length ≤ t) (k : AccessKey)
    (n : Nat) : rank (exitAt (flows (t + 1)) k n) = rank (exitAt (flows t) k n) := by
  have hle := fun t n => (h.refines hstart t k n).rank_le
  refine Nat.le_antisymm (hle t n) (Nat.not_lt.1 fun hfall => ?_)
  have := lt_of_fall (n := p.blocks.length) (T := 0) (f := fun t n => rank (exitAt (flows t) k n))
    hle (fun t n hfall => ?_) (fun t n _ hfall => h.exists_fall hstart hfall) hfall
  · omega
  · by_contra hout
    simp only [h.exitAt_of_le _ _ (Nat.not_lt.1 hout), Nat.lt_irrefl] at hfall

/-- A number that falls when the lanes of an access are seen. -/
def unseen (x : Option InFlight) : Nat := if seen x then 0 else 1

omit h in
lemma unseen_lt {x y : Option InFlight} :
    unseen y < unseen x ↔ seen y = true ∧ seen x = false := by
  cases hx : seen x <;> cases hy : seen y <;> simp [unseen, hx, hy]

/-- Once no access comes nearer, lanes come to be seen only if they do so at a predecessor. -/
lemma exists_newly_seen (hstart : Kindly p start) {t : Nat} (ht : p.blocks.length ≤ t)
    {k : AccessKey} {n : Nat} (hseen : seen (exitAt (flows (t + 2)) k n) = true)
    (hunseen : seen (exitAt (flows (t + 1)) k n) = false) : ∃ m,
      (m < n ∧ seen (exitAt (flows (t + 2)) k m) = true ∧ seen (exitAt (flows (t + 1)) k m) = false)
        ∨ (seen (exitAt (flows (t + 1)) k m) = true ∧ seen (exitAt (flows t) k m) = false) := by
  obtain ⟨b, x, y, hb, hx, hy, hxk, hyk, hexit, hexit', href⟩ := h.visited_twice hstart
    (t := t) (k := k) (n := n) fun heq => by
      rw [heq, hunseen] at hseen
      cases hseen
  have hmid : ∀ m, rank (exitAt (midway (flows (t + 1)) (flows t) n) k m)
      = rank (exitAt (midway (flows (t + 2)) (flows (t + 1)) n) k m) := by
    intro m
    rw [h.exitAt_midway, h.exitAt_midway]
    split
    · exact (h.rank_eq hstart (t := t + 1) (by omega) k m).symm
    · exact (h.rank_eq hstart ht k m).symm
  have hrank : rank x = rank y := Nat.le_antisymm
    (hy.rank_le hx fun m => Nat.le_of_eq (hmid m)) href.rank_le
  -- Nothing came nearer, so it is the lanes that have changed at the entry.
  have hne : seen x ≠ seen y := fun heq => by
    rw [hexit', ← eq_of_rank_eq hxk hyk hrank heq, ← hexit, hunseen] at hseen
    cases hseen
  have hxy : seen x = false ∧ seen y = true := by
    have := href.seen
    cases hs : seen x <;> cases hs' : seen y <;> simp_all
  obtain ⟨pred, -, hs', hs⟩ := hx.exists_newly_seen hy hrank hxy.1 hxy.2
  rw [h.exitAt_midway] at hs hs'
  refine ⟨pred.toNat, ?_⟩
  split at hs'
  · rw [if_pos ‹_›] at hs
    exact .inl ⟨‹_›, hs', hs⟩
  · rw [if_neg ‹_›] at hs
    exact .inr ⟨hs', hs⟩

/-- After as many rounds again, no more lanes are seen. -/
lemma seen_eq (hstart : Kindly p start) {t : Nat} (ht : p.blocks.length + p.blocks.length ≤ t)
    (k : AccessKey) (n : Nat) : seen (exitAt (flows (t + 1)) k n) = seen (exitAt (flows t) k n) := by
  have hmono := fun t n => (h.refines hstart t k n).seen
  have hle : ∀ t n, unseen (exitAt (flows (t + 1)) k n) ≤ unseen (exitAt (flows t) k n) := by
    intro t n
    refine Nat.not_lt.1 fun hfall => ?_
    rw [unseen_lt] at hfall
    rw [hmono t n hfall.1] at hfall
    cases hfall.2
  by_contra hne
  have hfall : unseen (exitAt (flows (t + 1)) k n) < unseen (exitAt (flows t) k n) := by
    rw [unseen_lt]
    have := hmono t n
    cases hs : seen (exitAt (flows t) k n) <;> cases hs' : seen (exitAt (flows (t + 1)) k n) <;>
      simp_all
  have := lt_of_fall (n := p.blocks.length) (T := p.blocks.length)
    (f := fun t n => unseen (exitAt (flows t) k n)) hle (fun t n hfall => ?_)
    (fun t n ht hfall => ?_) hfall
  · omega
  · by_contra hout
    simp only [h.exitAt_of_le _ _ (Nat.not_lt.1 hout), Nat.lt_irrefl] at hfall
  · simp only [unseen_lt] at hfall ⊢
    have hdeep : ∀ {x y : Option InFlight}, seen x = true → unseen x ≤ unseen y := fun hs => by
      simp [unseen, hs]
    obtain ⟨m, ⟨hm, hs⟩ | hs⟩ := h.exists_newly_seen hstart ht hfall.1 hfall.2
    · exact ⟨m, .inl ⟨hm, hs, hdeep hs.1⟩⟩
    · exact ⟨m, .inr ⟨hs, hdeep hs.1⟩⟩

/-- So the rounds come to rest. -/
lemma exits_eq (hstart : Kindly p start) {t : Nat} (ht : p.blocks.length + p.blocks.length ≤ t) :
    exits (flows (t + 1)) = exits (flows t) := by
  apply List.ext_getElem (by simp only [exits, List.length_map, h.length])
  intro n hn hn'
  simp only [exits, List.getElem_map]
  apply Std.ExtTreeMap.ext_getElem?
  intro k
  have heq : exitAt (flows (t + 1)) k n = exitAt (flows t) k n :=
    eq_of_rank_eq (h.kindly hstart (t + 1) k n) (h.kindly hstart t k n)
      (h.rank_eq hstart (by omega) k n) (h.seen_eq hstart ht k n)
  simp only [exits, List.length_map] at hn hn'
  simpa only [exitAt, List.getElem?_eq_getElem hn, List.getElem?_eq_getElem hn',
    Option.getD_some] using heq

end Rounds

/-! ### The result -/

/-- Rounds that have not come to rest. -/
lemma rounds_of_settle {R : Nat} {flows : List Flow} (h : settle p start R flows = .ok none) :
    ∃ f : Nat → List Flow, f 0 = flows
      ∧ (∀ t < R, round p start (f t) = .ok (f (t + 1)) ∧ exits (f (t + 1)) ≠ exits (f t))
      ∧ ∀ t, R ≤ t → f (t + 1) = f t := by
  induction R generalizing flows with
  | zero => exact ⟨fun _ => flows, rfl, fun t ht => absurd ht (Nat.not_lt_zero t), fun _ _ => rfl⟩
  | succ R ih =>
    simp only [settle, bind_eq_ok] at h
    obtain ⟨next, hround, h⟩ := h
    split at h
    · cases h
    · rename_i hne
      obtain ⟨f, hf, hnext, hrest⟩ := ih h
      refine ⟨fun t => if t = 0 then flows else f (t - 1), rfl, fun t ht => ?_, fun t ht => ?_⟩
      · cases t with
        | zero =>
          change round p start flows = .ok (f 0) ∧ exits (f 0) ≠ exits flows
          rw [hf]
          exact ⟨hround, hne⟩
        | succ t => exact hnext t (by omega)
      · cases t with
        | zero => omega
        | succ t => exact hrest t (by omega)

/-- The checker does not give up. -/
theorem settle_ne_none (hstart : Kindly p start) :
    settle p start (maxRounds p) (p.blocks.map fun _ => {}) ≠ .ok none := by
  intro h
  obtain ⟨f, hf, hnext, hrest⟩ := rounds_of_settle h
  have hrounds : Rounds p start (maxRounds p) f := ⟨hf, fun t ht => (hnext t ht).1, hrest⟩
  refine (hnext (p.blocks.length + p.blocks.length) ?_).2
    (hrounds.exits_eq hstart (Nat.le_refl _))
  rw [maxRounds]
  omega

/-- One more round would change nothing. -/
structure Fixed (p : Program) (start : Pending) (flows : List Flow) : Prop where
  length : flows.length = p.blocks.length
  block : ∀ n b, p.blocks[n]? = some b → .discardEarlyExit ∉ b.kind →
    ∃ flow found, flows[n]? = some flow ∧ blockEntry p flows start n b = .ok flow.entry
      ∧ stepBlock (setting p) n b flow.entry = .ok (flow.exit, found)

theorem fixed_of_settle {R : Nat} {flows result : List Flow}
    (hlen : flows.length = p.blocks.length) (h : settle p start R flows = .ok (some result)) :
    Fixed p start result := by
  induction R generalizing flows with
  | zero => cases h
  | succ R ih =>
    simp only [settle, bind_eq_ok] at h
    obtain ⟨next, hround, h⟩ := h
    obtain ⟨hlength, hvisited⟩ := round_spec hlen hround
    split at h
    · rename_i heq
      cases h
      refine ⟨hlength, fun n b hb hkind => ?_⟩
      obtain ⟨entry, exit, found, hentry, hstep, hflow⟩ := (hvisited n b hb).entered hkind
      refine ⟨{ entry, exit }, found, hflow, ?_, hstep⟩
      -- The round found the same ends in front of the block as it left there.
      rw [← hentry]
      apply blockEntry_congr
      apply List.ext_getElem?
      intro m
      have hm := congrArg (·[m]?) heq
      simp only [exits, List.getElem?_map] at hm ⊢
      rw [getElem?_midway (hlength.trans hlen.symm)]
      split
      · rfl
      · exact hm
    · exact ih hlength h

lemma kindlyAll_of_settle (hstart : Kindly p start) {R : Nat} {flows result : List Flow}
    (hflows : KindlyAll p flows) (h : settle p start R flows = .ok (some result)) :
    KindlyAll p result := by
  induction R generalizing flows with
  | zero => cases h
  | succ R ih =>
    simp only [settle, bind_eq_ok] at h
    obtain ⟨next, hround, h⟩ := h
    split at h
    · cases h
      exact hflows.round hstart hround
    · exact ih (hflows.round hstart hround) h

/-! ### Programs in which nothing is found -/

/-- A property of the states at the ends of the blocks that going through a block keeps, and from which
nothing is found there, lasts for all rounds.  So the checker finds nothing. -/
theorem check_eq_nil (I : List Flow → Prop) (hstart : startState p = .ok start)
    (hempty : I (p.blocks.map fun _ => {}))
    (hblock : ∀ {flows : List Flow} {n : Nat} {b : Block}, I flows → p.blocks[n]? = some b →
      .discardEarlyExit ∉ b.kind → ∃ entry exit, blockEntry p flows start n b = .ok entry
        ∧ stepBlock (setting p) n b entry = .ok (exit, []) ∧ I (flows.set n { entry, exit })) :
    p.check = .ok [] := by
  have hvisited : ∀ {x : Block × Nat}, x ∈ visited p →
      p.blocks[x.2]? = some x.1 ∧ .discardEarlyExit ∉ x.1.kind := fun hx =>
    ⟨List.mem_zipIdx_iff_getElem?.1 (List.mem_filter.1 hx).1,
      of_decide_eq_true (List.mem_filter.1 hx).2⟩
  have hround : ∀ {flows : List Flow}, I flows → ∃ next, round p start flows = .ok next ∧ I next := by
    intro flows hflows
    refine foldlM_total I (fun x hx flows hflows => ?_) hflows
    obtain ⟨entry, exit, hentry, hstep, hnext⟩ := hblock hflows (hvisited hx).1 (hvisited hx).2
    exact ⟨_, bind_eq_ok.2 ⟨entry, hentry, bind_eq_ok.2 ⟨(exit, []), hstep, rfl⟩⟩, hnext⟩
  have hsettle : ∀ (rounds : Nat) {flows : List Flow}, I flows →
      ∃ r, settle p start rounds flows = .ok r ∧ ∀ result, r = some result → I result := by
    intro rounds
    induction rounds with
    | zero => exact fun _ => ⟨none, rfl, fun _ hr => by cases hr⟩
    | succ rounds ih =>
      intro flows hflows
      obtain ⟨next, hnext, hnext'⟩ := hround hflows
      simp only [Checker.settle, hnext, bind, Except.bind]
      split
      · exact ⟨some next, rfl, fun result hr => by cases hr; exact hnext'⟩
      · exact ih hnext'
  obtain ⟨r, hr, hresult⟩ := hsettle (maxRounds p) hempty
  cases r with
  | none => exact absurd hr (settle_ne_none (kindly_startState hstart))
  | some flows =>
    have hfixed := fixed_of_settle (by simp) hr
    have hfound : findings p flows = .ok [] := by
      refine bind_eq_ok.2 ⟨(visited p).map fun _ => [], mapM_eq_ok.2
        (List.forall₂_map_right_iff.2 (List.forall₂_same.2 fun x hx => ?_)), by simp⟩
      obtain ⟨hb, hkind⟩ := hvisited hx
      obtain ⟨flow, -, hflow, hentry, -⟩ := hfixed.block x.2 x.1 hb hkind
      obtain ⟨entry, exit, hentry', hstep, -⟩ := hblock (hresult flows rfl) hb hkind
      cases hentry.symm.trans hentry'
      refine bind_eq_ok.2 ⟨(exit, []), ?_, rfl⟩
      rw [hflow]
      exact hstep
    simp only [Program.check, hstart, hr, bind, Except.bind]
    exact hfound

end Checker

end GpuWaits
