/-
Module: FreqUtility.Library.MaximalRuns
Layer: Library
Purpose: Maximal delimiter-free runs of a window of offsets. `IsRun delim s t b e` says that `[b, e)` is
  a non-empty delimiter-free range of `[s, t)` that cannot be extended on either side. The facts used
  elsewhere are that two runs that overlap are equal, that every delimiter-free offset lies in a run,
  and `isRun_window_iff`: between two delimiters the runs of a window are those of any larger window.
  `foldRuns` is the alternating two-scan loop that visits the runs of a window from left to right;
  `foldRuns_eq_foldl` reduces it to a fold over `runList`, and `mem_runList_iff` says which ranges
  those are. The runs of a window are disjoint and hold exactly its delimiter-free offsets, so their
  lengths add up to the number of these (`sum_length_runs`).
Imports: FreqUtility.Library.RangeScan, Mathlib.Algebra.BigOperators.Ring.Finset,
  Mathlib.Algebra.Order.BigOperators.Group.Finset, Mathlib.Data.Finset.Prod, Mathlib.Data.Finset.Range,
  Mathlib.Order.Interval.Finset.Nat
Trusted boundary: none (fully proved)
Main exports: IsRun, runs, foldRuns, runList, foldRuns_eq_foldl, mem_runList_iff, runList_nodup,
  coe_runList, sum_length_runs, card_runs_le
Open obligations: none
-/
import FreqUtility.Library.RangeScan
import Mathlib.Algebra.BigOperators.Ring.Finset
import Mathlib.Algebra.Order.BigOperators.Group.Finset
import Mathlib.Data.Finset.Prod
import Mathlib.Data.Finset.Range
import Mathlib.Order.Interval.Finset.Nat

namespace MaximalRuns

open RangeScan

/-- `[b, e)` is a maximal delimiter-free run of the window `[s, t)`. -/
structure IsRun (p : Nat → Bool) (s t b e : Nat) : Prop where
  start_le : s ≤ b
  nonempty : b < e
  le_stop : e ≤ t
  inside : ∀ i, i < e → b ≤ i → p i = false
  left : b = s ∨ p (b - 1) = true
  right : e = t ∨ p e = true

theorem isRun_iff {p : Nat → Bool} {s t b e : Nat} :
    IsRun p s t b e ↔
      s ≤ b ∧ b < e ∧ e ≤ t ∧ (∀ i, i < e → b ≤ i → p i = false) ∧
        (b = s ∨ p (b - 1) = true) ∧ (e = t ∨ p e = true) :=
  ⟨fun h => ⟨h.start_le, h.nonempty, h.le_stop, h.inside, h.left, h.right⟩,
    fun ⟨h₁, h₂, h₃, h₄, h₅, h₆⟩ => ⟨h₁, h₂, h₃, h₄, h₅, h₆⟩⟩

instance (p : Nat → Bool) (s t b e : Nat) : Decidable (IsRun p s t b e) :=
  decidable_of_iff _ isRun_iff.symm

variable {p q : Nat → Bool} {s t b e b' e' : Nat}

/-- A delimiter-free offset of one run bounds the start of every other run that begins at or before it. -/
theorem IsRun.start_le_of_mem (h : IsRun p s t b e) (h' : IsRun p s t b' e') {i : Nat}
    (hb : b ≤ i) (hi' : i < e') : b ≤ b' := by
  rcases h.left with heq | hdelim
  · rw [heq]
    exact h'.start_le
  · by_contra hlt
    have hfree := h'.inside (b - 1) (by omega) (by omega)
    exact absurd hdelim (ne_true_of_eq_false hfree)

theorem IsRun.stop_le_of_mem (h : IsRun p s t b e) (h' : IsRun p s t b' e') {i : Nat}
    (hi : i < e) (hb' : b' ≤ i) : e' ≤ e := by
  rcases h.right with heq | hdelim
  · rw [heq]
    exact h'.le_stop
  · by_contra hlt
    have hfree := h'.inside e (by omega) (by omega)
    exact absurd hdelim (ne_true_of_eq_false hfree)

/-- Two runs of one window that share an offset are the same run. -/
theorem IsRun.eq_of_mem (h : IsRun p s t b e) (h' : IsRun p s t b' e') {i : Nat}
    (hb : b ≤ i) (hi : i < e) (hb' : b' ≤ i) (hi' : i < e') : b = b' ∧ e = e' :=
  ⟨Nat.le_antisymm (h.start_le_of_mem h' hb hi') (h'.start_le_of_mem h hb' hi),
    Nat.le_antisymm (h'.stop_le_of_mem h hi' hb) (h.stop_le_of_mem h' hi hb')⟩

/-- The start of a run determines its end. -/
theorem IsRun.stop_unique (h : IsRun p s t b e) (h' : IsRun p s t b e') : e = e' :=
  (h.eq_of_mem h' (Nat.le_refl b) h.nonempty (Nat.le_refl b) h'.nonempty).2

/-- The end of a run determines its start. -/
theorem IsRun.start_unique (h : IsRun p s t b e) (h' : IsRun p s t b' e) : b = b' := by
  have hne := h.nonempty
  have hne' := h'.nonempty
  exact (h.eq_of_mem h' (i := e - 1) (by omega) (by omega) (by omega) (by omega)).1

/-- Between two delimiters the runs of a window are those runs of a larger window that lie strictly
    between them. -/
theorem isRun_window_iff {u v : Nat} (hs : u ≤ s) (ht : t ≤ v)
    (hfirst : p s = true) (hlast : p (t - 1) = true) :
    IsRun p s t b e ↔ IsRun p u v b e ∧ s < b ∧ e < t := by
  constructor
  · intro h
    have hne := h.nonempty
    have hstart := h.start_le
    have hstop := h.le_stop
    have hsb : s < b := by
      by_contra hge
      have hfree := h.inside s (by omega) (by omega)
      exact absurd hfirst (ne_true_of_eq_false hfree)
    have het : e < t := by
      by_contra hge
      have hfree := h.inside (t - 1) (by omega) (by omega)
      exact absurd hlast (ne_true_of_eq_false hfree)
    refine ⟨⟨by omega, hne, by omega, h.inside, ?_, ?_⟩, hsb, het⟩
    · exact Or.inr (h.left.resolve_left (by omega))
    · exact Or.inr (h.right.resolve_left (by omega))
  · rintro ⟨h, hsb, het⟩
    refine ⟨by omega, h.nonempty, by omega, h.inside, ?_, ?_⟩
    · exact Or.inr (h.left.resolve_left (by omega))
    · exact Or.inr (h.right.resolve_left (by omega))

/-- Every delimiter-free offset of a window lies in a run. -/
theorem exists_isRun_mem {i : Nat} (hs : s ≤ i) (ht : i < t) (hfree : p i = false) :
    ∃ b e, IsRun p s t b e ∧ b ≤ i ∧ i < e := by
  have hge := le_findIfRev p hs
  have hle := findIfRev_le p s i
  have hge' := le_findIf p i t
  have hle' := findIf_le p (Nat.le_of_lt ht)
  have hbeyond : i < findIf p i t := by
    rcases Nat.lt_or_eq_of_le hge' with hlt | heq
    · exact hlt
    · have hstop := findIf_stopped (p := p) (f := i) (l := t) (by omega)
      rw [← heq, hfree] at hstop
      exact absurd hstop (by simp)
  refine ⟨findIfRev p s i, findIf p i t, ⟨hge, by omega, hle', ?_, ?_, ?_⟩, hle, hbeyond⟩
  · intro j hj hbj
    rcases Nat.lt_or_ge j i with hlt | hge
    · exact findIfRev_skipped hbj hlt
    · exact findIf_skipped hge hj
  · by_cases heq : findIfRev p s i = s
    · exact Or.inl heq
    · exact Or.inr (findIfRev_stopped (by omega))
  · by_cases heq : findIf p i t = t
    · exact Or.inl heq
    · exact Or.inr (findIf_stopped (by omega))

/-- The finite set of runs of a window. -/
def runs (p : Nat → Bool) (s t : Nat) : Finset (Nat × Nat) :=
  (Finset.range (t + 1) ×ˢ Finset.range (t + 1)).filter fun r => IsRun p s t r.1 r.2

@[simp] theorem mem_runs {r : Nat × Nat} : r ∈ runs p s t ↔ IsRun p s t r.1 r.2 := by
  simp only [runs, Finset.mem_filter, Finset.mem_product, Finset.mem_range, and_iff_right_iff_imp]
  intro h
  have hne := h.nonempty
  have hstop := h.le_stop
  exact ⟨by omega, by omega⟩

/-! ### The offsets of the runs -/

/-- The offsets of the runs are the delimiter-free offsets of the window. -/
theorem biUnion_runs (p : Nat → Bool) (s t : Nat) :
    (runs p s t).biUnion (fun r => Finset.Ico r.1 r.2) =
      (Finset.Ico s t).filter fun i => p i = false := by
  ext i
  rw [Finset.mem_biUnion, Finset.mem_filter, Finset.mem_Ico]
  constructor
  · rintro ⟨r, hr, hi⟩
    have hrun := mem_runs.mp hr
    obtain ⟨hb, he⟩ := Finset.mem_Ico.mp hi
    exact ⟨⟨hrun.start_le.trans hb, he.trans_le hrun.le_stop⟩, hrun.inside i he hb⟩
  · rintro ⟨⟨hs, ht⟩, hfree⟩
    obtain ⟨b, e, hrun, hb, he⟩ := exists_isRun_mem hs ht hfree
    exact ⟨(b, e), mem_runs.mpr hrun, Finset.mem_Ico.mpr ⟨hb, he⟩⟩

/-- Two runs of a window share no offset. -/
theorem disjoint_runs {r r' : Nat × Nat} (h : r ∈ runs p s t) (h' : r' ∈ runs p s t) (hne : r ≠ r') :
    Disjoint (Finset.Ico r.1 r.2) (Finset.Ico r'.1 r'.2) := by
  rw [Finset.disjoint_left]
  intro i hi hi'
  obtain ⟨hb, he⟩ := Finset.mem_Ico.mp hi
  obtain ⟨hb', he'⟩ := Finset.mem_Ico.mp hi'
  obtain ⟨hstart, hstop⟩ := (mem_runs.mp h).eq_of_mem (mem_runs.mp h') hb he hb' he'
  exact hne (Prod.ext hstart hstop)

/-- The lengths of the runs add up to the number of delimiter-free offsets. -/
theorem sum_length_runs (p : Nat → Bool) (s t : Nat) :
    ∑ r ∈ runs p s t, (r.2 - r.1) = ((Finset.Ico s t).filter fun i => p i = false).card := by
  rw [← biUnion_runs, Finset.card_biUnion fun r hr r' hr' hne => disjoint_runs hr hr' hne]
  simp only [Nat.card_Ico]

/-- A window has at most as many runs as offsets. -/
theorem card_runs_le (p : Nat → Bool) (s t : Nat) : (runs p s t).card ≤ t - s := by
  calc (runs p s t).card = ∑ r ∈ runs p s t, 1 := Finset.card_eq_sum_ones _
    _ ≤ ∑ r ∈ runs p s t, (r.2 - r.1) :=
        Finset.sum_le_sum fun r hr => Nat.sub_pos_of_lt (mem_runs.mp hr).nonempty
    _ = ((Finset.Ico s t).filter fun i => p i = false).card := sum_length_runs p s t
    _ ≤ (Finset.Ico s t).card := Finset.card_filter_le _ _
    _ = t - s := Nat.card_Ico s t

/-! ### The loop over the runs of a window

A run is entered at its f offset; `findIf` finds its end, `findIfNot` the start of the next. -/

theorem findIf_progress {l start : Nat} (h : start < l) :
    start < findIfNot p (findIf p start l) l := by
  have hge := le_findIf p start l
  have hge' := le_findIfNot p (findIf p start l) l
  rcases Nat.lt_or_eq_of_le hge with hlt | heq
  · exact Nat.lt_of_lt_of_le hlt hge'
  · -- The loop was entered on a delimiter: the first scan stays, the second one moves on.
    rw [← heq] at hge' ⊢
    rcases Nat.lt_or_eq_of_le hge' with hlt | heq'
    · exact hlt
    · have hstop := findIf_stopped (p := p) (f := start) (l := l) (by omega)
      have hfree := findIfNot_stopped (p := p) (f := start) (l := l) (by omega)
      rw [← heq] at hstop
      rw [← heq', hstop] at hfree
      exact absurd hfree (by simp)

/-- Visit the runs of `[start, l)` from left to right, threading `acc` through `body`. -/
def foldRuns {σ : Type*} (p : Nat → Bool) (l : Nat) (body : σ → Nat → Nat → σ)
    (start : Nat) (acc : σ) : σ :=
  if start < l then
    let wordEnd := findIf p start l
    foldRuns p l body (findIfNot p wordEnd l) (body acc start wordEnd)
  else
    acc
termination_by l - start
decreasing_by
  have := findIf_progress (p := p) (by assumption)
  omega

/-- The ranges the loop visits, in order. -/
def runList (p : Nat → Bool) (l start : Nat) : List (Nat × Nat) :=
  if start < l then
    let wordEnd := findIf p start l
    (start, wordEnd) :: runList p l (findIfNot p wordEnd l)
  else
    []
termination_by l - start
decreasing_by
  have := findIf_progress (p := p) (by assumption)
  omega

/-- The loop is a fold over the list of ranges it visits, whatever its body does. -/
theorem foldRuns_eq_foldl {σ : Type*} (l : Nat) (body : σ → Nat → Nat → σ) (start : Nat)
    (acc : σ) :
    foldRuns p l body start acc =
      (runList p l start).foldl (fun acc r => body acc r.1 r.2) acc := by
  fun_induction foldRuns p l body start acc with
  | case1 start acc hlt wordEnd ih =>
      rw [runList, if_pos hlt]
      exact ih
  | case2 start acc hge =>
      rw [runList, if_neg hge]
      rfl

/-- Every range the loop visits starts at or after the offset it was entered at. -/
theorem le_of_mem_runList {l start : Nat} {r : Nat × Nat} (h : r ∈ runList p l start) :
    start ≤ r.1 := by
  fun_induction runList p l start with
  | case1 start hlt wordEnd ih =>
      rcases List.mem_cons.mp h with rfl | htail
      · exact Nat.le_refl _
      · have hprogress : start < findIfNot p wordEnd l := findIf_progress hlt
        have := ih htail
        omega
  | case2 start hge =>
      exact absurd h (by simp)

/-- The loop visits no range twice. -/
theorem runList_nodup (p : Nat → Bool) (l start : Nat) :
    (runList p l start).Nodup := by
  fun_induction runList p l start with
  | case1 start hlt wordEnd ih =>
      refine List.nodup_cons.mpr ⟨?_, ih⟩
      intro hmem
      have hle : findIfNot p wordEnd l ≤ start := le_of_mem_runList hmem
      have hprogress : start < findIfNot p wordEnd l := findIf_progress hlt
      omega
  | case2 start hge =>
      exact List.nodup_nil

/-- The loop goes from left to right. -/
theorem runList_pairwise (p : Nat → Bool) (l start : Nat) :
    (runList p l start).Pairwise fun r r' => r.2 ≤ r'.1 := by
  fun_induction runList p l start with
  | case1 start hlt wordEnd ih =>
      refine List.Pairwise.cons ?_ ih
      intro r hr
      exact (le_findIfNot p wordEnd l).trans (le_of_mem_runList hr)
  | case2 start hge =>
      exact List.Pairwise.nil

/-- The loop reads the offsets of its window only. -/
theorem runList_congr {l start : Nat} (hsame : ∀ i, start ≤ i → i < l → p i = q i) :
    runList p l start = runList q l start := by
  fun_induction runList p l start with
  | case1 start hlt wordEnd ih =>
      have hword : wordEnd = findIf q start l := findIf_congr (Nat.le_of_lt hlt) hsame
      have hge : start ≤ wordEnd := le_findIf p start l
      have hle : wordEnd ≤ l := findIf_le p (Nat.le_of_lt hlt)
      have hnext : findIfNot p wordEnd l = findIfNot q wordEnd l :=
        findIfNot_congr hle fun i hi hl => hsame i (by omega) hl
      have hnextGe : wordEnd ≤ findIfNot p wordEnd l := le_findIfNot p wordEnd l
      have htail := ih fun i hi hl => hsame i (by omega) hl
      calc (start, wordEnd) :: runList p l (findIfNot p wordEnd l)
          = (start, findIf q start l) :: runList q l (findIfNot q (findIf q start l) l) := by
            rw [htail, hnext, hword]
        _ = runList q l start := by rw [runList.eq_def q l start, if_pos hlt]
  | case2 start hge =>
      rw [runList, if_neg hge]

/-- After a word the second scan moves past its closing delimiter, or the window is used up. -/
theorem findIfNot_after_word {l start : Nat}
    (hnext : findIfNot p (findIf p start l) l < l) :
    p (findIfNot p (findIf p start l) l - 1) = true := by
  have hge := le_findIfNot p (findIf p start l) l
  have hstop : p (findIf p start l) = true :=
    findIf_stopped (Nat.lt_of_le_of_lt hge hnext)
  have hfree := findIfNot_stopped hnext
  rcases Nat.lt_or_eq_of_le hge with hlt | heq
  · exact findIfNot_skipped (p := p) (f := findIf p start l) (l := l)
      (by omega) (by omega)
  · rw [← heq, hstop] at hfree
    exact absurd hfree (by simp)

/-- The range the loop visits first is the run of the window that it was entered at. -/
theorem isRun_of_entry {f l start : Nat} (hfirst : f ≤ start) (hlt : start < l)
    (hentry : p start = false) (hbefore : start = f ∨ p (start - 1) = true) :
    IsRun p f l start (findIf p start l) := by
  have hge := le_findIf p start l
  have hpast : start < findIf p start l := by
    rcases Nat.lt_or_eq_of_le hge with h | h
    · exact h
    · have hstop := findIf_stopped (p := p) (f := start) (l := l) (by omega)
      rw [← h, hentry] at hstop
      exact absurd hstop (by simp)
  refine ⟨hfirst, hpast, findIf_le p (Nat.le_of_lt hlt), ?_, hbefore, ?_⟩
  · intro i hi hb
    exact findIf_skipped hb hi
  · by_cases h : findIf p start l = l
    · exact Or.inl h
    · have hle := findIf_le p (Nat.le_of_lt hlt)
      exact Or.inr (findIf_stopped (by omega))

/-- No run starts between the end of a word and the offset the second scan stops at. -/
theorem le_start_of_isRun {f l stop b e : Nat} (hrun : IsRun p f l b e)
    (hb : stop ≤ b) : findIfNot p stop l ≤ b := by
  by_contra hlow
  have hdelim := findIfNot_skipped (p := p) hb (Nat.lt_of_not_le hlow)
  exact absurd hdelim (ne_true_of_eq_false (hrun.inside b hrun.nonempty (Nat.le_refl b)))

/-- Entered at the first offset of a run of the window, the loop visits that run and those after it. -/
theorem mem_runList_iff {f l start : Nat} (hfirst : f ≤ start)
    (hentry : start < l → p start = false)
    (hbefore : start < l → start = f ∨ p (start - 1) = true) {b e : Nat} :
    (b, e) ∈ runList p l start ↔ IsRun p f l b e ∧ start ≤ b := by
  fun_induction runList p l start with
  | case1 start hlt wordEnd ih =>
      have hrun := isRun_of_entry hfirst hlt (hentry hlt) (hbefore hlt)
      have hprogress : start < findIfNot p wordEnd l := findIf_progress hlt
      rw [List.mem_cons,
        ih (by omega) findIfNot_stopped (fun hnext => Or.inr (findIfNot_after_word hnext))]
      constructor
      · rintro (heq | ⟨h, hle⟩)
        · obtain ⟨rfl, rfl⟩ := Prod.mk.inj heq
          exact ⟨hrun, Nat.le_refl _⟩
        · exact ⟨h, by omega⟩
      · rintro ⟨h, hle⟩
        rcases Nat.lt_or_ge b wordEnd with hb | hb
        · -- The run starts inside the word just visited, so it is that word.
          obtain ⟨rfl, rfl⟩ := h.eq_of_mem hrun (Nat.le_refl b) h.nonempty hle hb
          exact Or.inl rfl
        · exact Or.inr ⟨h, le_start_of_isRun h hb⟩
  | case2 start hge =>
      constructor
      · intro h
        exact absurd h (by simp)
      · rintro ⟨h, hle⟩
        have := h.nonempty
        have := h.le_stop
        omega

/-- The whole loop: skip the leading delimiters of a window, then visit its runs. -/
theorem mem_runList_findIfNot_iff {f l b e : Nat} :
    (b, e) ∈ runList p l (findIfNot p f l) ↔ IsRun p f l b e := by
  have hge := le_findIfNot p f l
  rw [mem_runList_iff hge findIfNot_stopped]
  · constructor
    · exact fun h => h.1
    · exact fun h => ⟨h, le_start_of_isRun h h.start_le⟩
  · intro _
    by_cases heq : findIfNot p f l = f
    · exact Or.inl heq
    · exact Or.inr (findIfNot_skipped (p := p) (f := f) (l := l)
        (by omega) (by omega))

/-- The loop visits every run of the window exactly once. -/
theorem coe_runList (p : Nat → Bool) (f l : Nat) :
    (runList p l (findIfNot p f l) : Multiset (Nat × Nat)) = (runs p f l).val := by
  apply (Multiset.Nodup.ext (Multiset.coe_nodup.mpr (runList_nodup _ _ _)) (Finset.nodup _)).mpr
  rintro ⟨b, e⟩
  rw [Multiset.mem_coe, mem_runList_findIfNot_iff, Finset.mem_val, mem_runs]

theorem length_runList (p : Nat → Bool) (f l : Nat) :
    (runList p l (findIfNot p f l)).length = (runs p f l).card :=
  congrArg Multiset.card (coe_runList p f l)

end MaximalRuns
