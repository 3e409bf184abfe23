/-
Module: FreqUtility.Library.RangeScan
Layer: Library
Purpose: Linear search over the offsets of a random-access range, in both directions. `findIf` walks
  from `first` up to `last` and stops at the first offset whose test succeeds, or at `last`;
  `findIfRev` walks the other way and returns the base of the reverse iterator it stops at, which is
  one past the last offset whose test succeeds, or `first`. A caller reasons with the four facts
  about each search (bounds, what was skipped, where it stopped) and never unfolds the loops.
Imports: Mathlib.Tactic
Trusted boundary: none (fully proved)
Main exports: findIf, findIfNot, findIfRev, findIf_eq, findIf_congr, findIfRev_eq, findIfRev_congr
Open obligations: none
-/
import Mathlib.Tactic

namespace RangeScan

/-- At most `count` forward steps from `f`. -/
def scanForward (p : Nat → Bool) : Nat → Nat → Nat
  | 0, f => f
  | count + 1, f => if p f then f else scanForward p count (f + 1)

/-- At most `count` backward steps from the base `l`; the offset under a base is the one before it. -/
def scanBackward (p : Nat → Bool) : Nat → Nat → Nat
  | 0, l => l
  | count + 1, l => if p (l - 1) then l else scanBackward p count (l - 1)

/-- First offset of `[f, l)` that satisfies `p`, or `l`. -/
def findIf (p : Nat → Bool) (f l : Nat) : Nat :=
  scanForward p (l - f) f

/-- First offset of `[f, l)` that fails `p`, or `l`. -/
def findIfNot (p : Nat → Bool) (f l : Nat) : Nat :=
  findIf (fun i => !p i) f l

/-- The reverse search: one past the last offset of `[f, l)` that satisfies `p`, or `f`. -/
def findIfRev (p : Nat → Bool) (f l : Nat) : Nat :=
  scanBackward p (l - f) l

/-- The reverse search for a failing test. -/
def findIfNotRev (p : Nat → Bool) (f l : Nat) : Nat :=
  findIfRev (fun i => !p i) f l

/-! ### The forward search -/

theorem le_scanForward (p : Nat → Bool) (count f : Nat) :
    f ≤ scanForward p count f := by
  induction count generalizing f with
  | zero => exact Nat.le_refl _
  | succ count ih =>
      simp only [scanForward]
      split
      · exact Nat.le_refl _
      · exact Nat.le_trans (Nat.le_succ _) (ih _)

theorem scanForward_le (p : Nat → Bool) (count f : Nat) :
    scanForward p count f ≤ f + count := by
  induction count generalizing f with
  | zero => exact Nat.le_refl _
  | succ count ih =>
      simp only [scanForward]
      split
      · exact Nat.le_add_right _ _
      · have := ih (f + 1)
        omega

theorem scanForward_skipped (p : Nat → Bool) (count f : Nat) {i : Nat}
    (hlow : f ≤ i) (hhigh : i < scanForward p count f) : p i = false := by
  induction count generalizing f with
  | zero =>
      simp only [scanForward] at hhigh
      omega
  | succ count ih =>
      simp only [scanForward] at hhigh
      split at hhigh
      · omega
      · rename_i hfirst
        by_cases heq : i = f
        · subst heq
          simpa using hfirst
        · exact ih (f + 1) (by omega) hhigh

theorem scanForward_stopped (p : Nat → Bool) (count f : Nat)
    (hstop : scanForward p count f < f + count) :
    p (scanForward p count f) = true := by
  induction count generalizing f with
  | zero =>
      simp only [scanForward] at hstop
      omega
  | succ count ih =>
      simp only [scanForward] at hstop ⊢
      split
      · assumption
      · rename_i hfirst
        rw [if_neg hfirst] at hstop
        exact ih (f + 1) (by omega)

theorem le_findIf (p : Nat → Bool) (f l : Nat) : f ≤ findIf p f l :=
  le_scanForward p _ _

theorem findIf_le (p : Nat → Bool) {f l : Nat} (h : f ≤ l) :
    findIf p f l ≤ l := by
  have := scanForward_le p (l - f) f
  unfold findIf
  omega

/-- Everything the forward search walks over fails the test. -/
theorem findIf_skipped {p : Nat → Bool} {f l i : Nat} (hlow : f ≤ i)
    (hhigh : i < findIf p f l) : p i = false :=
  scanForward_skipped p _ _ hlow hhigh

/-- A forward search that stops early stops at an offset that passes the test. -/
theorem findIf_stopped {p : Nat → Bool} {f l : Nat} (h : findIf p f l < l) :
    p (findIf p f l) = true := by
  have hlow := le_findIf p f l
  refine scanForward_stopped p _ _ ?_
  change findIf p f l < f + (l - f)
  omega

/-- The forward search is determined by what it skips and where it stops. -/
theorem findIf_eq {p : Nat → Bool} {f l target : Nat} (hlow : f ≤ target)
    (hhigh : target ≤ l) (hskip : ∀ i, f ≤ i → i < target → p i = false)
    (hstop : target < l → p target = true) : findIf p f l = target := by
  have hle := findIf_le p (Nat.le_trans hlow hhigh)
  have hge := le_findIf p f l
  rcases Nat.lt_trichotomy (findIf p f l) target with hlt | heq | hgt
  · have hfound := findIf_stopped (Nat.lt_of_lt_of_le hlt hhigh)
    exact absurd hfound (ne_true_of_eq_false (hskip _ hge hlt))
  · exact heq
  · have hpassed := findIf_skipped hlow hgt
    exact absurd (hstop (by omega)) (ne_true_of_eq_false hpassed)

/-- The forward search reads the offsets of its range only. -/
theorem findIf_congr {p q : Nat → Bool} {f l : Nat} (h : f ≤ l)
    (hsame : ∀ i, f ≤ i → i < l → p i = q i) :
    findIf p f l = findIf q f l := by
  have hge := le_findIf q f l
  have hle := findIf_le q h
  refine findIf_eq hge hle ?_ ?_
  · intro i hlow hhigh
    rw [hsame i hlow (by omega)]
    exact findIf_skipped hlow hhigh
  · intro hlt
    rw [hsame _ hge hlt]
    exact findIf_stopped hlt

/-- The forward search finds nothing exactly when every offset fails the test. -/
theorem findIf_eq_last_iff {p : Nat → Bool} {f l : Nat} (h : f ≤ l) :
    findIf p f l = l ↔ ∀ i, f ≤ i → i < l → p i = false := by
  constructor
  · intro heq i hlow hhigh
    exact findIf_skipped hlow (by rw [heq]; exact hhigh)
  · intro hnone
    exact findIf_eq h (Nat.le_refl _) hnone (fun hlt => absurd hlt (Nat.lt_irrefl _))

/-! ### The forward search for a failing test -/

theorem le_findIfNot (p : Nat → Bool) (f l : Nat) : f ≤ findIfNot p f l :=
  le_findIf _ _ _

theorem findIfNot_le (p : Nat → Bool) {f l : Nat} (h : f ≤ l) : findIfNot p f l ≤ l :=
  findIf_le _ h

theorem findIfNot_skipped {p : Nat → Bool} {f l i : Nat} (hlow : f ≤ i)
    (hhigh : i < findIfNot p f l) : p i = true := by
  simpa using findIf_skipped (p := fun i => !p i) hlow hhigh

theorem findIfNot_stopped {p : Nat → Bool} {f l : Nat}
    (h : findIfNot p f l < l) : p (findIfNot p f l) = false := by
  have hstop := findIf_stopped (p := fun i => !p i) h
  simpa only [findIfNot, Bool.not_eq_true'] using hstop

theorem findIfNot_congr {p q : Nat → Bool} {f l : Nat} (h : f ≤ l)
    (hsame : ∀ i, f ≤ i → i < l → p i = q i) : findIfNot p f l = findIfNot q f l :=
  findIf_congr h fun i hf hl => congrArg (!·) (hsame i hf hl)

/-! ### The reverse search -/

theorem scanBackward_le (p : Nat → Bool) (count l : Nat) :
    scanBackward p count l ≤ l := by
  induction count generalizing l with
  | zero => exact Nat.le_refl _
  | succ count ih =>
      simp only [scanBackward]
      split
      · exact Nat.le_refl _
      · exact Nat.le_trans (ih _) (Nat.sub_le _ _)

theorem le_scanBackward (p : Nat → Bool) (count l : Nat) :
    l - count ≤ scanBackward p count l := by
  induction count generalizing l with
  | zero => exact Nat.le_refl _
  | succ count ih =>
      simp only [scanBackward]
      split
      · exact Nat.sub_le _ _
      · have := ih (l - 1)
        omega

theorem scanBackward_skipped (p : Nat → Bool) (count l : Nat) {i : Nat}
    (hlow : scanBackward p count l ≤ i) (hhigh : i < l) : p i = false := by
  induction count generalizing l with
  | zero =>
      simp only [scanBackward] at hlow
      omega
  | succ count ih =>
      simp only [scanBackward] at hlow
      split at hlow
      · omega
      · rename_i hlast
        by_cases heq : i = l - 1
        · subst heq
          simpa using hlast
        · exact ih (l - 1) hlow (by omega)

theorem scanBackward_stopped (p : Nat → Bool) (count l : Nat)
    (hstop : l - count < scanBackward p count l) :
    p (scanBackward p count l - 1) = true := by
  induction count generalizing l with
  | zero =>
      simp only [scanBackward] at hstop
      omega
  | succ count ih =>
      simp only [scanBackward] at hstop ⊢
      split
      · assumption
      · rename_i hlast
        rw [if_neg hlast] at hstop
        exact ih (l - 1) (by omega)

theorem findIfRev_le (p : Nat → Bool) (f l : Nat) : findIfRev p f l ≤ l :=
  scanBackward_le p _ _

theorem le_findIfRev (p : Nat → Bool) {f l : Nat} (h : f ≤ l) :
    f ≤ findIfRev p f l := by
  have := le_scanBackward p (l - f) l
  unfold findIfRev
  omega

/-- Everything the reverse search walks over fails the test. -/
theorem findIfRev_skipped {p : Nat → Bool} {f l i : Nat}
    (hlow : findIfRev p f l ≤ i) (hhigh : i < l) : p i = false :=
  scanBackward_skipped p _ _ hlow hhigh

/-- A reverse search that stops early has an offset that passes the test just below its base. -/
theorem findIfRev_stopped {p : Nat → Bool} {f l : Nat}
    (h : f < findIfRev p f l) : p (findIfRev p f l - 1) = true := by
  have hhigh := findIfRev_le p f l
  refine scanBackward_stopped p _ _ ?_
  change l - (l - f) < findIfRev p f l
  omega

/-- The reverse search is determined by what it skips and where it stops. -/
theorem findIfRev_eq {p : Nat → Bool} {f l base : Nat} (hlow : f ≤ base)
    (hhigh : base ≤ l) (hskip : ∀ i, base ≤ i → i < l → p i = false)
    (hstop : f < base → p (base - 1) = true) : findIfRev p f l = base := by
  have hge := le_findIfRev p (Nat.le_trans hlow hhigh)
  have hle := findIfRev_le p f l
  rcases Nat.lt_trichotomy (findIfRev p f l) base with hlt | heq | hgt
  · have hpassed := findIfRev_skipped (i := base - 1) (p := p) (f := f) (l := l)
      (by omega) (by omega)
    exact absurd (hstop (by omega)) (ne_true_of_eq_false hpassed)
  · exact heq
  · have hfound := findIfRev_stopped (Nat.lt_of_le_of_lt hlow hgt)
    exact absurd hfound (ne_true_of_eq_false (hskip _ (by omega) (by omega)))

/-- The reverse search reads the offsets of its range only. -/
theorem findIfRev_congr {p q : Nat → Bool} {f l : Nat} (h : f ≤ l)
    (hsame : ∀ i, f ≤ i → i < l → p i = q i) :
    findIfRev p f l = findIfRev q f l := by
  have hge := le_findIfRev q h
  have hle := findIfRev_le q f l
  refine findIfRev_eq hge hle ?_ ?_
  · intro i hlow hhigh
    rw [hsame i (by omega) hhigh]
    exact findIfRev_skipped hlow hhigh
  · intro hlt
    rw [hsame _ (by omega) (by omega)]
    exact findIfRev_stopped hlt

/-- The reverse search finds nothing exactly when every offset fails the test. -/
theorem findIfRev_eq_first_iff {p : Nat → Bool} {f l : Nat} (h : f ≤ l) :
    findIfRev p f l = f ↔ ∀ i, f ≤ i → i < l → p i = false := by
  constructor
  · intro heq i hlow hhigh
    exact findIfRev_skipped (by rw [heq]; exact hlow) hhigh
  · intro hnone
    exact findIfRev_eq (Nat.le_refl _) h hnone (fun hlt => absurd hlt (Nat.lt_irrefl _))

/-- A search over a wider range that finds something in the narrower one finds the same. -/
theorem findIfRev_widen {p : Nat → Bool} {u f l : Nat} (hu : u ≤ f) (h : f < findIfRev p f l) :
    findIfRev p u l = findIfRev p f l := by
  have hle := findIfRev_le p f l
  refine findIfRev_eq (by omega) hle ?_ ?_
  · intro i hi hl
    exact findIfRev_skipped hi hl
  · intro _
    exact findIfRev_stopped h

/-- Failing offsets at the end of the range do not change the search. -/
theorem findIfRev_extend {p : Nat → Bool} {f l v : Nat} (h : f ≤ l) (hv : l ≤ v)
    (hfail : ∀ i, l ≤ i → i < v → p i = false) : findIfRev p f v = findIfRev p f l := by
  have hle := findIfRev_le p f l
  refine findIfRev_eq (le_findIfRev p h) (by omega) ?_ ?_
  · intro i hi hv
    rcases Nat.lt_or_ge i l with hil | hil
    · exact findIfRev_skipped hi hil
    · exact hfail i hil hv
  · exact findIfRev_stopped

/-! ### The reverse search for a failing test -/

theorem findIfNotRev_le (p : Nat → Bool) (f l : Nat) :
    findIfNotRev p f l ≤ l :=
  findIfRev_le _ _ _

theorem findIfNotRev_skipped {p : Nat → Bool} {f l i : Nat}
    (hlow : findIfNotRev p f l ≤ i) (hhigh : i < l) : p i = true := by
  simpa using findIfRev_skipped (p := fun i => !p i) hlow hhigh

theorem findIfNotRev_stopped {p : Nat → Bool} {f l : Nat}
    (h : f < findIfNotRev p f l) : p (findIfNotRev p f l - 1) = false := by
  have hstop := findIfRev_stopped (p := fun i => !p i) h
  simpa only [findIfNotRev, Bool.not_eq_true'] using hstop

end RangeScan
