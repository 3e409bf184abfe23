/-
Module: FreqUtility.Library.Sorting
Layer: Library
Purpose: Sorting by a Boolean comparison. A `SortFunction` promises a sorted permutation for every strict
  weak order and nothing for any other comparison; merge sort is one. Under a strict total order the
  result is determined by the entries alone: it depends neither on the order of the input nor on the
  sort function. Comparisons of pairs (`tieLess`) and of lists (`lexLess`) are strict total orders when
  those of their components are.
Imports: Mathlib.Order.RelClasses, Mathlib.Data.List.Lex, Mathlib.Tactic
Trusted boundary: none (fully proved)
Main exports: StrictWeak, StrictTotal, StrictTotal.strictWeak, StrictWeak.not_less_trans,
  tieLess, StrictTotal.tie, lexLess,
  StrictTotal.lex, SortFunction, SortFunction.sort_eq_of_perm, SortFunction.sorted_less, mergeSort
Open obligations: none
-/
import Mathlib.Order.RelClasses
import Mathlib.Data.List.Lex
import Mathlib.Tactic

namespace Sorting

variable {α β : Type*}

/-! ### Comparisons -/

/-- The comparison is a strict weak order. -/
abbrev StrictWeak (less : α → α → Bool) : Prop := IsStrictWeakOrder α fun a b => less a b = true

/-- The comparison is a strict total order. -/
abbrev StrictTotal (less : α → α → Bool) : Prop := IsStrictTotalOrder α fun a b => less a b = true

variable {less : α → α → Bool} {less' : β → β → Bool}

namespace StrictTotal

theorem eq_of_not_less (h : StrictTotal less) {a b : α} (hab : less a b = false)
    (hba : less b a = false) : a = b :=
  h.trichotomous a b (by simp [hab]) (by simp [hba])

/-- Elements that a total order does not separate are equal. -/
theorem strictWeak (h : StrictTotal less) : StrictWeak less where
  irrefl := h.irrefl
  trans := h.trans
  incomp_trans := by
    rintro a b c ⟨hab, hba⟩ ⟨hbc, hcb⟩
    cases h.trichotomous a b hab hba
    exact ⟨hbc, hcb⟩

/-- Comparing the other way round. -/
theorem flip (h : StrictTotal less) : StrictTotal fun a b => less b a where
  irrefl := h.irrefl
  trans _ _ _ hab hbc := h.trans _ _ _ hbc hab
  trichotomous _ _ hab hba := h.trichotomous _ _ hba hab

/-- Comparing by a key that determines the element. -/
theorem comap (h : StrictTotal less) {key : β → α} (hkey : key.Injective) :
    StrictTotal fun a b => less (key a) (key b) where
  irrefl a := h.irrefl (key a)
  trans a b c := h.trans (key a) (key b) (key c)
  trichotomous _ _ hab hba := hkey (h.trichotomous _ _ hab hba)

theorem of_lt [LinearOrder α] : StrictTotal fun a b : α => decide (a < b) where
  irrefl a := by simp
  trans _ _ _ hab hbc := by
    rw [decide_eq_true_eq] at hab hbc ⊢
    exact hab.trans hbc
  trichotomous _ _ hab hba := by
    rw [decide_eq_true_eq, not_lt] at hab hba
    exact le_antisymm hba hab

end StrictTotal

namespace StrictWeak

/-- A strict weak order never compares two elements both ways. -/
theorem not_less_or_not_less (h : StrictWeak less) (a b : α) :
    less a b = false ∨ less b a = false := by
  cases hab : less a b with
  | false => exact Or.inl rfl
  | true =>
      refine Or.inr (Bool.eq_false_iff.mpr ?_)
      exact fun hba => h.irrefl a (h.trans a b a hab hba)

/-- Not being less is transitive. -/
theorem not_less_trans (h : StrictWeak less) {a b c : α} (hba : less b a = false)
    (hcb : less c b = false) : less c a = false := by
  rw [Bool.eq_false_iff] at hba hcb ⊢
  intro hca
  -- Each neighbour is incomparable, or else the chain through `c` and `a` compares it.
  have hbc : ¬ less b c = true := fun hbc => hba (h.trans b c a hbc hca)
  have hab : ¬ less a b = true := fun hab => hcb (h.trans c a b hca hab)
  exact (h.incomp_trans a b c ⟨hab, hba⟩ ⟨hbc, hcb⟩).2 hca

end StrictWeak

/-! ### Pairs -/

/-- `operator<` of tuples of two: the first components decide unless neither is less. -/
def tieLess (less : α → α → Bool) (less' : β → β → Bool) (x y : α × β) : Bool :=
  less x.1 y.1 || (!less y.1 x.1 && less' x.2 y.2)

theorem tieLess_iff (h : StrictTotal less) {x y : α × β} :
    tieLess less less' x y = true ↔ less x.1 y.1 = true ∨ x.1 = y.1 ∧ less' x.2 y.2 = true := by
  rw [tieLess, Bool.or_eq_true, Bool.and_eq_true, Bool.not_eq_true']
  constructor
  · rintro (hfirst | ⟨hnot, hsecond⟩)
    · exact Or.inl hfirst
    · cases hfirst : less x.1 y.1 with
      | true => exact Or.inl rfl
      | false => exact Or.inr ⟨h.eq_of_not_less hfirst hnot, hsecond⟩
  · rintro (hfirst | ⟨heq, hsecond⟩)
    · exact Or.inl hfirst
    · refine Or.inr ⟨?_, hsecond⟩
      rw [heq, ← Bool.not_eq_true]
      exact h.irrefl y.1

theorem StrictTotal.tie (h : StrictTotal less) (h' : StrictTotal less') :
    StrictTotal (tieLess less less') where
  irrefl := by
    intro x hx
    rcases (tieLess_iff h).mp hx with hfirst | ⟨-, hsecond⟩
    · exact h.irrefl _ hfirst
    · exact h'.irrefl _ hsecond
  trans := by
    intro x y z hxy hyz
    rw [tieLess_iff h] at hxy hyz ⊢
    rcases hxy with hxy | ⟨hxy, hxy'⟩
    · rcases hyz with hyz | ⟨hyz, -⟩
      · exact Or.inl (h.trans _ _ _ hxy hyz)
      · exact Or.inl (hyz ▸ hxy)
    · rw [hxy]
      exact hyz.imp_right fun ⟨hyz, hyz'⟩ => ⟨hyz, h'.trans _ _ _ hxy' hyz'⟩
  trichotomous := by
    intro x y hxy hyx
    rw [tieLess_iff h, not_or] at hxy hyx
    have hfirst : x.1 = y.1 := h.trichotomous _ _ hxy.1 hyx.1
    refine Prod.ext hfirst (h'.trichotomous _ _ ?_ ?_)
    · exact fun hsecond => hxy.2 ⟨hfirst, hsecond⟩
    · exact fun hsecond => hyx.2 ⟨hfirst.symm, hsecond⟩

/-! ### Lists -/

/-- `operator<` of strings: the first element that differs decides, and a proper prefix is less. -/
def lexLess (less : α → α → Bool) : List α → List α → Bool
  | _, [] => false
  | [], _ :: _ => true
  | x :: xs, y :: ys => less x y || (!less y x && lexLess less xs ys)

/-- It is the lexicographic order of the elements. -/
theorem lexLess_iff (h : StrictTotal less) {xs ys : List α} :
    lexLess less xs ys = true ↔ List.Lex (fun a b => less a b = true) xs ys := by
  induction xs generalizing ys with
  | nil =>
      cases ys with
      | nil => simp [lexLess]
      | cons y ys => simp [lexLess]
  | cons x xs ih =>
      cases ys with
      | nil => simp [lexLess]
      | cons y ys =>
          have htie : tieLess less (lexLess less) (x, xs) (y, ys) = true ↔
              less x y = true ∨ x = y ∧ lexLess less xs ys = true := tieLess_iff h
          change tieLess less (lexLess less) (x, xs) (y, ys) = true ↔ _
          rw [htie, ih, List.cons_lex_cons_iff]

theorem StrictTotal.lex (h : StrictTotal less) : StrictTotal (lexLess less) := by
  have hlex : IsStrictTotalOrder (List α) (List.Lex fun a b => less a b = true) :=
    { isStrictWeakOrder_of_isOrderConnected with }
  have hrel : (fun xs ys => lexLess less xs ys = true) = List.Lex fun a b => less a b = true := by
    funext xs ys
    exact propext (lexLess_iff h)
  unfold StrictTotal
  rwa [hrel]

/-! ### Sort functions -/

/-- A sort function: for a strict weak order the result is a permutation of the input in which no element
    is less than one before it. Nothing is promised for other comparisons. -/
structure SortFunction (α : Type*) where
  sort : (α → α → Bool) → List α → List α
  perm : ∀ less xs, StrictWeak less → (sort less xs).Perm xs
  sorted : ∀ less xs, StrictWeak less → (sort less xs).Pairwise fun a b => less b a = false

namespace SortFunction

variable (f g : SortFunction α) {xs ys : List α}

/-- Under a strict total order the input may come in any order, and every sort function agrees. -/
theorem sort_eq_of_perm (h : StrictTotal less) (hperm : xs.Perm ys) :
    f.sort less xs = g.sort less ys := by
  have hsame : (f.sort less xs).Perm (g.sort less ys) :=
    (f.perm less xs h.strictWeak).trans (hperm.trans (g.perm less ys h.strictWeak).symm)
  apply hsame.eq_of_pairwise _ (f.sorted less xs h.strictWeak) (g.sorted less ys h.strictWeak)
  intro a b _ _ hba hab
  exact h.eq_of_not_less hab hba

/-- Without repetitions the result is strictly increasing. -/
theorem sorted_less (h : StrictTotal less) (hnodup : xs.Nodup) :
    (f.sort less xs).Pairwise fun a b => less a b = true := by
  have hdistinct : (f.sort less xs).Nodup := (f.perm less xs h.strictWeak).nodup_iff.mpr hnodup
  have hboth := (f.sorted less xs h.strictWeak).and hdistinct
  apply hboth.imp
  rintro a b ⟨hba, hne⟩
  by_contra hab
  exact hne (h.eq_of_not_less (Bool.not_eq_true _ ▸ hab) hba)

end SortFunction

/-- Merge sort is a sort function. -/
def mergeSort : SortFunction α where
  sort less xs := xs.mergeSort fun a b => !less b a
  perm less xs _ := List.mergeSort_perm xs _
  sorted := by
    intro less xs h
    have hsorted := @List.pairwise_mergeSort α (fun a b => !less b a) ?_ ?_ xs
    · exact hsorted.imp fun hle => Bool.not_eq_true' _ ▸ hle
    · intro a b c hba hcb
      rw [Bool.not_eq_true'] at hba hcb ⊢
      exact h.not_less_trans hba hcb
    · intro a b
      rw [Bool.or_eq_true, Bool.not_eq_true', Bool.not_eq_true']
      exact h.not_less_or_not_less b a

end Sorting
