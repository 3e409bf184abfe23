/-
Module: FreqUtility.Library.Replace
Layer: Library
Purpose: One element of a list replaced by another, the rest of the list as it was. With a list of threads
  this is the step of one thread: what holds of every element, and what is collected from the list, is
  carried over by looking at the two elements alone.
Imports: Mathlib.Data.List.Perm.Basic, Mathlib.Algebra.BigOperators.Group.Finset.Basic
Trusted boundary: none (fully proved)
Main exports: Replaces, Replaces.exists_of_mem, Replaces.mem_or, Replaces.map_eq, Replaces.filterMap_perm,
  Replaces.sum_map, sum_update_add
Open obligations: none
-/
import Mathlib.Data.List.Perm.Basic
import Mathlib.Algebra.BigOperators.Group.Finset.Basic

namespace Replace

variable {α β : Type*}

/-- The second list is the first one with one occurrence of `a` replaced by `b`. -/
inductive Replaces (a b : α) : List α → List α → Prop where
  | head (l : List α) : Replaces a b (a :: l) (b :: l)
  | tail (x : α) {l l' : List α} : Replaces a b l l' → Replaces a b (x :: l) (x :: l')

namespace Replaces

variable {a b x : α} {l l' : List α}

theorem exists_of_mem (b : α) (h : a ∈ l) : ∃ l', Replaces a b l l' := by
  induction l with
  | nil => cases h
  | cons x l ih =>
      cases h with
      | head => exact ⟨b :: l, head l⟩
      | tail _ hmem =>
          obtain ⟨l', hl'⟩ := ih hmem
          exact ⟨x :: l', tail x hl'⟩

theorem symm (h : Replaces a b l l') : Replaces b a l' l := by
  induction h with
  | head l => exact head l
  | tail x _ ih => exact tail x ih

theorem mem_left (h : Replaces a b l l') : a ∈ l := by
  induction h with
  | head l => exact List.mem_cons_self
  | tail x _ ih => exact List.mem_cons_of_mem x ih

theorem mem_right (h : Replaces a b l l') : b ∈ l' := h.symm.mem_left

/-- The elements of the new list are the new element and elements of the old list. -/
theorem mem_or (h : Replaces a b l l') (hx : x ∈ l') : x = b ∨ x ∈ l := by
  induction h with
  | head l =>
      cases hx with
      | head => exact Or.inl rfl
      | tail _ hmem => exact Or.inr (List.mem_cons_of_mem a hmem)
  | tail y _ ih =>
      cases hx with
      | head => exact Or.inr List.mem_cons_self
      | tail _ hmem => exact (ih hmem).imp_right (List.mem_cons_of_mem y)

/-- Where the lists differ, the old one has the old element and the new one the new element. -/
theorem getElem?_or (h : Replaces a b l l') {k : ℕ} (hx : l'[k]? = some x) :
    l[k]? = some a ∧ x = b ∨ l[k]? = some x := by
  induction h generalizing k with
  | head l =>
      cases k with
      | zero => exact Or.inl ⟨rfl, (Option.some.inj hx).symm⟩
      | succ k => exact Or.inr hx
  | tail y _ ih =>
      cases k with
      | zero => exact Or.inr hx
      | succ k => exact ih hx

theorem map_eq {f : α → β} (h : Replaces a b l l') (hf : f b = f a) : l'.map f = l.map f := by
  induction h with
  | head l => rw [List.map_cons, List.map_cons, hf]
  | tail y _ ih => rw [List.map_cons, List.map_cons, ih]

theorem length_eq (h : Replaces a b l l') : l'.length = l.length := by
  induction h with
  | head l => rfl
  | tail y _ ih => exact congrArg Nat.succ ih

theorem filterMap_eq {f : α → Option β} (h : Replaces a b l l') (hf : f b = f a) :
    l'.filterMap f = l.filterMap f := by
  induction h with
  | head l => rw [List.filterMap_cons, List.filterMap_cons, hf]
  | tail y _ ih => rw [List.filterMap_cons, List.filterMap_cons, ih]

/-- Replacing an element that gives nothing by one that gives `y` adds `y`. -/
theorem filterMap_perm {f : α → Option β} {y : β} (h : Replaces a b l l') (ha : f a = none)
    (hb : f b = some y) : (l'.filterMap f).Perm (y :: l.filterMap f) := by
  induction h with
  | head l => rw [List.filterMap_cons_some hb, List.filterMap_cons_none ha]
  | tail x _ ih =>
      cases hx : f x with
      | none => rwa [List.filterMap_cons_none hx, List.filterMap_cons_none hx]
      | some z =>
          rw [List.filterMap_cons_some hx, List.filterMap_cons_some hx]
          exact (ih.cons z).trans (List.Perm.swap y z _)

/-- The sum over the list changes by the difference of the two elements. -/
theorem sum_map {M : Type*} [AddCommMonoid M] (h : Replaces a b l l') (f : α → M) :
    (l'.map f).sum + f a = (l.map f).sum + f b := by
  induction h with
  | head l =>
      rw [List.map_cons, List.map_cons, List.sum_cons, List.sum_cons, add_right_comm, add_comm (f b),
        add_right_comm]
  | tail x _ ih =>
      rw [List.map_cons, List.map_cons, List.sum_cons, List.sum_cons, add_assoc, ih, add_assoc]

end Replaces

/-- The same for a family instead of a list. -/
theorem sum_update_add {ι M : Type*} [Fintype ι] [DecidableEq ι] [AddCommMonoid M] (f : ι → α) (g : α → M)
    (i : ι) (x : α) :
    ∑ j, g (Function.update f i x j) + g (f i) = ∑ j, g (f j) + g x := by
  rw [← Finset.add_sum_erase Finset.univ _ (Finset.mem_univ i),
    ← Finset.add_sum_erase Finset.univ (fun j => g (f j)) (Finset.mem_univ i), Function.update_self]
  have hrest : ∑ j ∈ Finset.univ.erase i, g (Function.update f i x j) =
      ∑ j ∈ Finset.univ.erase i, g (f j) := by
    apply Finset.sum_congr rfl
    intro j hj
    rw [Function.update_of_ne (Finset.ne_of_mem_erase hj)]
  rw [hrest, add_right_comm, add_comm (g x), add_right_comm]

end Replace
