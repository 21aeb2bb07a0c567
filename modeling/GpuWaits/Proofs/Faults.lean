/-
# Runs that do not fail

Most functions of the analysis may meet a fault, and are written as sequences of steps that stop at
the first one.  The lemmas of this file take such a run apart, and put one together from steps that
are known to succeed.
-/
import Mathlib.Data.List.Forall2
import Mathlib.Tactic.Common

namespace GpuWaits

variable {α β γ ε : Type}

@[simp] lemma bind_eq_ok {x : Except ε α} {f : α → Except ε β} {b : β} :
    (x >>= f) = .ok b ↔ ∃ a, x = .ok a ∧ f a = .ok b := by
  cases x with
  | error e => simp [bind, Except.bind]
  | ok a => simp [bind, Except.bind]

@[simp] lemma pure_eq_ok {a b : α} : (pure a : Except ε α) = .ok b ↔ a = b := by
  simp [pure, Except.pure]

@[simp] lemma throw_ne_ok {e : ε} {a : α} : (throw e : Except ε α) ≠ .ok a := by
  simp [throw, throwThe, MonadExceptOf.throw]

lemma forM_eq_ok {f : α → Except ε Unit} {l : List α} {u : Unit} :
    l.forM f = .ok u ↔ ∀ a ∈ l, f a = .ok () := by
  induction l with
  | nil => simp [List.forM_eq_forM, pure, Except.pure]
  | cons a l ih =>
    rw [List.forM_eq_forM] at ih ⊢
    rw [List.forM_cons, bind_eq_ok]
    simp only [ih, List.mem_cons, forall_eq_or_imp]
    constructor
    · rintro ⟨⟨⟩, h⟩
      exact h
    · exact fun h => ⟨(), h⟩

lemma mapM_eq_ok {f : α → Except ε β} {l : List α} {r : List β} :
    l.mapM f = .ok r ↔ List.Forall₂ (fun a b => f a = .ok b) l r := by
  induction l generalizing r with
  | nil =>
    rw [List.mapM_nil, pure_eq_ok, List.forall₂_nil_left_iff]
    exact eq_comm
  | cons a l ih =>
    simp only [List.mapM_cons, bind_eq_ok, pure_eq_ok, List.forall₂_cons_left_iff, ih]
    constructor
    · rintro ⟨b, hb, r, hr, rfl⟩
      exact ⟨b, r, hb, hr, rfl⟩
    · rintro ⟨b, r, hb, hr, rfl⟩
      exact ⟨b, hb, r, hr, rfl⟩

/-- Every element of the list has its result. -/
lemma mem_of_mapM {f : α → Except ε β} {l : List α} {r : List β} (h : l.mapM f = .ok r) {a : α}
    (ha : a ∈ l) : ∃ b ∈ r, f a = .ok b := by
  induction mapM_eq_ok.1 h with
  | nil => cases ha
  | cons hb hrest ih =>
    rcases List.mem_cons.1 ha with rfl | ha
    · exact ⟨_, by simp, hb⟩
    · obtain ⟨b, hmem, hb⟩ := ih (mapM_eq_ok.2 hrest) ha
      exact ⟨b, List.mem_cons_of_mem _ hmem, hb⟩

/-- Every result is the one of some element. -/
lemma exists_of_mem_mapM {f : α → Except ε β} {l : List α} {r : List β} (h : l.mapM f = .ok r) {b : β}
    (hb : b ∈ r) : ∃ a ∈ l, f a = .ok b := by
  induction mapM_eq_ok.1 h with
  | nil => cases hb
  | cons ha hrest ih =>
    rcases List.mem_cons.1 hb with rfl | hb
    · exact ⟨_, by simp, ha⟩
    · obtain ⟨a, hmem, ha⟩ := ih (mapM_eq_ok.2 hrest) hb
      exact ⟨a, List.mem_cons_of_mem _ hmem, ha⟩

/-- A run of successful steps succeeds. -/
lemma mapM_total {f : α → Except ε β} {l : List α} (h : ∀ a ∈ l, ∃ b, f a = .ok b) :
    ∃ r, l.mapM f = .ok r := by
  induction l with
  | nil => exact ⟨[], rfl⟩
  | cons a l ih =>
    obtain ⟨b, hb⟩ := h a (by simp)
    obtain ⟨r, hr⟩ := ih fun a ha => h a (List.mem_cons_of_mem _ ha)
    exact ⟨b :: r, by simp [List.mapM_cons, hb, hr]⟩

/-- An invariant of the steps is one of the run. -/
lemma foldlM_invariant {f : β → α → Except ε β} {l : List α} {b b' : β} (P : β → Prop)
    (hstep : ∀ a ∈ l, ∀ c c', P c → f c a = .ok c' → P c') (hb : P b)
    (h : l.foldlM f b = .ok b') : P b' := by
  induction l generalizing b with
  | nil =>
    rw [List.foldlM_nil, pure_eq_ok] at h
    exact h ▸ hb
  | cons a l ih =>
    rw [List.foldlM_cons, bind_eq_ok] at h
    obtain ⟨c, hc, h⟩ := h
    exact ih (fun a ha => hstep a (List.mem_cons_of_mem _ ha)) (hstep a (by simp) b c hb hc) h

/-- A run keeps a relation to a run without faults that the steps keep. -/
lemma foldlM_relation {f : β → α → Except ε β} {step : γ → α → γ} {l : List α} {b b' : β} {c : γ}
    (R : β → γ → Prop) (hstep : ∀ a ∈ l, ∀ b b' c, R b c → f b a = .ok b' → R b' (step c a))
    (hb : R b c) (h : l.foldlM f b = .ok b') : R b' (l.foldl step c) := by
  induction l generalizing b c with
  | nil =>
    cases h
    exact hb
  | cons a l ih =>
    rw [List.foldlM_cons, bind_eq_ok] at h
    obtain ⟨b₁, h₁, h⟩ := h
    exact ih (fun a ha => hstep a (List.mem_cons_of_mem _ ha)) (hstep a (by simp) b b₁ c hb h₁) h

/-- Two runs through the same list keep a relation that the steps keep. -/
lemma foldlM_related {f : β → α → Except ε β} {l : List α} {b b' c c' : β} (R : β → β → Prop)
    (hstep : ∀ a ∈ l, ∀ b b' c c', R b c → f b a = .ok b' → f c a = .ok c' → R b' c') (hb : R b c)
    (h : l.foldlM f b = .ok b') (h' : l.foldlM f c = .ok c') : R b' c' := by
  induction l generalizing b c with
  | nil =>
    cases h
    cases h'
    exact hb
  | cons a l ih =>
    rw [List.foldlM_cons, bind_eq_ok] at h h'
    obtain ⟨b₁, hb₁, h⟩ := h
    obtain ⟨c₁, hc₁, h'⟩ := h'
    exact ih (fun a ha => hstep a (List.mem_cons_of_mem _ ha)) (hstep a (by simp) b b₁ c c₁ hb hb₁ hc₁)
      h h'

/-- A run whose steps succeed as long as an invariant holds, and keep it, succeeds and keeps it. -/
lemma foldlM_total {f : β → α → Except ε β} {l : List α} {b : β} (P : β → Prop)
    (hstep : ∀ a ∈ l, ∀ c, P c → ∃ c', f c a = .ok c' ∧ P c') (hb : P b) :
    ∃ b', l.foldlM f b = .ok b' ∧ P b' := by
  induction l generalizing b with
  | nil => exact ⟨b, rfl, hb⟩
  | cons a l ih =>
    obtain ⟨c, hc, hP⟩ := hstep a (by simp) b hb
    obtain ⟨b', hb', hP'⟩ := ih (fun a ha => hstep a (List.mem_cons_of_mem _ ha)) hP
    exact ⟨b', by rw [List.foldlM_cons, bind_eq_ok]; exact ⟨c, hc, hb'⟩, hP'⟩

/-- A run whose steps all succeed is one without faults. -/
lemma foldlM_eq_foldl {f : β → α → Except ε β} (g : β → α → β) {l : List α}
    (hstep : ∀ a ∈ l, ∀ b, f b a = .ok (g b a)) (b : β) : l.foldlM f b = .ok (l.foldl g b) := by
  induction l generalizing b with
  | nil => rfl
  | cons a l ih =>
    rw [List.foldlM_cons, hstep a List.mem_cons_self]
    exact ih (fun a' ha' => hstep a' (List.mem_cons_of_mem a ha')) (g b a)

end GpuWaits
