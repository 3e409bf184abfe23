/-
Module: FreqUtility.Library.ReadLog
Layer: Library
Purpose: Computations that may fail and that log the places they read, and a logic for what they read. A
  triple says that the computation does not fail, that it reads exactly the places of a set, and what holds of
  its result; the set of a sequence is the union of the sets of its parts.
Imports: Mathlib.Data.Set.Lattice
Trusted boundary: none (fully proved)
Main exports: Logged, Reads, Reads.pure, Reads.bind, Reads.congr, Reads.mapM, Reads.exists_run
Open obligations: none
-/
import Mathlib.Data.Set.Lattice

namespace ReadLog

variable {ι φ α β : Type}

/-- A computation that may fail with a `φ` and logs the places that it reads. -/
abbrev Logged (ι φ : Type) := StateT (List ι) (Except φ)

/-- The computation does not fail, reads the places of the set and no others, and returns something of the
    wanted kind. -/
def Reads (m : Logged ι φ α) (places : Set ι) (post : α → Prop) : Prop :=
  ∀ log, ∃ x log', m.run log = .ok (x, log') ∧ post x ∧ ∀ i, i ∈ log' ↔ i ∈ log ∨ i ∈ places

namespace Reads

variable {m : Logged ι φ α} {f : α → Logged ι φ β} {places places' : Set ι} {post : α → Prop}
  {post' : β → Prop}

theorem pure {x : α} (hx : post x) : Reads (pure x : Logged ι φ α) ∅ post := by
  intro log
  exact ⟨x, log, rfl, hx, fun i => (or_iff_left (Set.notMem_empty i)).symm⟩

theorem bind (h : Reads m places post) (hf : ∀ x, post x → Reads (f x) places' post') :
    Reads (m >>= f) (places ∪ places') post' := by
  intro log
  obtain ⟨x, log', hrun, hx, hlog⟩ := h log
  obtain ⟨y, log'', hrun', hy, hlog'⟩ := hf x hx log'
  refine ⟨y, log'', ?_, hy, ?_⟩
  · rw [StateT.run_bind, hrun]
    exact hrun'
  · intro i
    rw [hlog', hlog, Set.mem_union, or_assoc]

theorem congr (h : Reads m places post) (hplaces : ∀ i, i ∈ places' ↔ i ∈ places) : Reads m places' post := by
  rw [Set.ext hplaces]
  exact h

/-- A list of computations, one after the other. -/
theorem mapM {γ : Type} {g : γ → Logged ι φ α} {readBy : γ → Set ι} {l : List γ}
    (h : ∀ c ∈ l, Reads (g c) (readBy c) fun _ => True) :
    Reads (l.mapM g) {i | ∃ c ∈ l, i ∈ readBy c} fun _ => True := by
  induction l with
  | nil =>
      rw [List.mapM_nil]
      exact (Reads.pure trivial).congr fun i => by simp
  | cons c l ih =>
      rw [List.mapM_cons]
      have hrest := ih fun d hd => h d (List.mem_cons_of_mem c hd)
      have hall : Reads _ _ fun _ : List α => True :=
        (h c List.mem_cons_self).bind fun x _ => hrest.bind fun xs _ => Reads.pure (x := x :: xs) trivial
      apply hall.congr
      intro i
      simp

/-- What a run from the empty log returns and logs. -/
theorem exists_run (h : Reads m places post) :
    ∃ x log, m.run [] = .ok (x, log) ∧ post x ∧ ∀ i, i ∈ log ↔ i ∈ places := by
  obtain ⟨x, log, hrun, hx, hlog⟩ := h []
  exact ⟨x, log, hrun, hx, fun i => (hlog i).trans (or_iff_right List.not_mem_nil)⟩

end Reads

end ReadLog
