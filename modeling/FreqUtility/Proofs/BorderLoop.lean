/-
Module: FreqUtility.Proofs.BorderLoop
Layer: Proofs
Purpose: The loop of `process_edges` over adjacent chunks is exact: the iteration that reaches chunk `k`
  counts the word that the first delimiter of that chunk closes, whenever there is one, and nothing else.
  The invariant `LoopInv` says what the four loop variables hold after `k` iterations. Its one subtle
  part is `left`: it may be stale after a chunk with delimiters, because the next iteration overwrites
  it, but after a chunk without delimiters it is the start of the run that is still open.
Imports: FreqUtility.Proofs.ChunkRun
Trusted boundary: none (fully proved)
Main exports: borderRanges, mem_borderRanges_iff, stitched, LoopInv, loopInv_stitchLoop,
  stitchLoop_counts_border_words
Open obligations: none
-/
import FreqUtility.Proofs.ChunkRun

namespace FreqUtility

open RangeScan MaximalRuns Blocks CountMaps

variable {file : Buffer} {c k b e : ℕ}

/-! ### The words closed by a first delimiter -/

/-- The word closed by the first delimiter of chunk `k`, as a list of at most one range. -/
def borderRanges (file : Buffer) (c k : ℕ) : List (ℕ × ℕ) :=
  let d := findIf (delimAt file) (k * c) (blockStop file.length c k)
  if d < blockStop file.length c k ∧ wordStart file d < d then [(wordStart file d, d)] else []

theorem borderRanges_of_noDelim (hc : 0 < c) (hk : k < blockCount file.length c)
    (h : NoDelim file c k) : borderRanges file c k = [] := by
  have hscan := (findIf_eq_blockStop_iff hc hk).mpr h
  simp [borderRanges, hscan]

theorem borderRanges_of_firstDelim {d : ℕ} (h : IsFirstDelim file c k d) :
    borderRanges file c k = if wordStart file d < d then [(wordStart file d, d)] else [] := by
  simp only [borderRanges, findIf_of_isFirstDelim h, h.lt_stop, true_and]

theorem mem_borderRanges_iff (hc : 0 < c) (hk : k < blockCount file.length c) :
    (b, e) ∈ borderRanges file c k ↔ BorderWord file c k b e := by
  by_cases hnone : NoDelim file c k
  · rw [borderRanges_of_noDelim hc hk hnone]
    constructor
    · intro h
      exact absurd h (by simp)
    · intro h
      exact absurd hnone h.closes.not_noDelim
  · have hfirst := isFirstDelim_findIf hc hk hnone
    rw [borderRanges_of_firstDelim hfirst]
    constructor
    · intro h
      split at h
      · rename_i hne
        obtain ⟨rfl, rfl⟩ := Prod.mk.inj (List.mem_singleton.mp h)
        exact ⟨isWord_wordStart hne (Nat.le_of_lt hfirst.lt_length) hfirst.delim, hfirst⟩
      · exact absurd h (by simp)
    · intro h
      rw [hfirst.unique h.closes, wordStart_of_isWord h.isWord, if_pos h.isWord.nonempty]
      exact List.mem_singleton.mpr rfl

theorem borderRanges_nodup (file : Buffer) (c k : ℕ) : (borderRanges file c k).Nodup := by
  unfold borderRanges
  simp only
  split
  · exact List.nodup_singleton _
  · exact List.nodup_nil

/-- The ranges counted by the first `k` iterations, which reach the chunks `1` to `k`. -/
def stitched (file : Buffer) (c k : ℕ) : List (ℕ × ℕ) :=
  (List.range k).flatMap fun j => borderRanges file c (j + 1)

theorem stitched_succ (file : Buffer) (c k : ℕ) :
    stitched file c (k + 1) = stitched file c k ++ borderRanges file c (k + 1) := by
  unfold stitched
  rw [List.range_succ, List.flatMap_append, List.flatMap_singleton]

theorem mem_stitched_iff (hc : 0 < c) (hk : k < blockCount file.length c) :
    (b, e) ∈ stitched file c k ↔ ∃ j, 0 < j ∧ j ≤ k ∧ BorderWord file c j b e := by
  rw [stitched, List.mem_flatMap]
  constructor
  · rintro ⟨j, hj, hmem⟩
    have hj := List.mem_range.mp hj
    exact ⟨j + 1, Nat.succ_pos _, hj, (mem_borderRanges_iff hc (by omega)).mp hmem⟩
  · rintro ⟨j, hpos, hle, hword⟩
    refine ⟨j - 1, List.mem_range.mpr (by omega), ?_⟩
    rw [Nat.sub_add_cancel hpos]
    exact (mem_borderRanges_iff hc (by omega)).mpr hword

/-- A delimiter is the first one of at most one chunk, so no word is stitched twice. -/
theorem stitched_nodup (hc : 0 < c) (hk : k < blockCount file.length c) :
    (stitched file c k).Nodup := by
  induction k with
  | zero => exact List.nodup_nil
  | succ k ih =>
      rw [stitched_succ]
      refine List.Nodup.append (ih (by omega)) (borderRanges_nodup _ _ _) ?_
      rintro ⟨b, e⟩ hmem hmem'
      obtain ⟨j, -, hj, hword⟩ := (mem_stitched_iff hc (by omega)).mp hmem
      have hword' := (mem_borderRanges_iff hc hk).mp hmem'
      have := hword.closes.div_eq hc
      have := hword'.closes.div_eq hc
      omega

/-! ### The loop -/

/-- The loop of `process_edges` on the recorded edges of a file, after `k` iterations. -/
def stitchLoop (file : Buffer) (c k : ℕ) : EdgeLoop :=
  let chunkEdges := recordedEdges file c
  edgeLoop (lower file) chunkEdges (edgeInit chunkEdges (chunkEdges.head?.getD (none, none))) k

/-- The entry of chunk `k` as the loop reads it. -/
def entry (file : Buffer) (c k : ℕ) : EdgePair := (recordedEdges file c)[k]?.getD (none, none)

theorem stitchLoop_succ (file : Buffer) (c k : ℕ) :
    stitchLoop file c (k + 1) =
      edgeStep (lower file) (entry file c k) (entry file c (k + 1)) (stitchLoop file c k) := rfl

theorem entry_eq (hc : 0 < c) (hk : k < blockCount file.length c) :
    entry file c k = chunkEdge file (k * c) (blockStop file.length c k) := by
  rw [entry, getElem?_recordedEdges hc hk, Option.getD_some]

theorem entry_of_noDelim (hc : 0 < c) (hk : k < blockCount file.length c) (h : NoDelim file c k) :
    entry file c k = (none, none) := by
  rw [entry_eq hc hk, chunkEdge_of_noDelim hc hk h]

theorem entry_of_firstDelim {d : ℕ} (hc : 0 < c) (hk : k < blockCount file.length c)
    (h : IsFirstDelim file c k d) : (entry file c k).1 = some d := by
  rw [entry_eq hc hk, chunkEdge_of_delims h (isLastDelim_findIfRev hc hk h.not_noDelim)]

/-- In a chunk with delimiters the second edge is where the run at the end of the chunk starts. -/
theorem entry_snd_of_delim (hc : 0 < c) (hk : k < blockCount file.length c)
    (h : ¬ NoDelim file c k) :
    (entry file c k).2 = some (wordStart file (blockStop file.length c k)) := by
  have hlt := start_lt_blockStop hc hk
  have hfirst := isFirstDelim_findIf hc hk h
  have hrev := findIf_lt_findIfRev (Nat.le_of_lt hlt) (Nat.ne_of_lt hfirst.lt_stop)
  have hwide : wordStart file (blockStop file.length c k) =
      findIfRev (delimAt file) (k * c) (blockStop file.length c k) :=
    findIfRev_widen (Nat.zero_le _) (Nat.lt_of_le_of_lt hfirst.start_le hrev)
  rw [entry_eq hc hk, hwide, chunkEdge, if_neg (Nat.ne_of_lt hfirst.lt_stop)]

/-- What the variables of the loop hold after `k` iterations. -/
structure LoopInv (file : Buffer) (c k : ℕ) (s : EdgeLoop) : Prop where
  left : NoDelim file c k → s.left = some (wordStart file (blockStop file.length c k))
  right : s.right = none
  result : s.result = countRanges (lower file) Tally.empty (stitched file c k)
  fileIsOneWord : s.fileIsOneWord = true ↔ 1 < blockCount file.length c ∧ stitched file c k = []

/-- Whichever variable it comes from, the compared `left` is the start of the run at the border. -/
theorem LoopInv.comparedLeft_eq {s : EdgeLoop} (h : LoopInv file c k s) (hc : 0 < c)
    (hk : k < blockCount file.length c) :
    comparedLeft (entry file c k) s = some (wordStart file (blockStop file.length c k)) := by
  by_cases hnone : NoDelim file c k
  · rw [comparedLeft, entry_of_noDelim hc hk hnone, if_neg (by simp)]
    exact h.left hnone
  · rw [comparedLeft, entry_snd_of_delim hc hk hnone, if_pos (by simp)]

theorem loopInv_init (hc : 0 < c) (hn : 0 < file.length) :
    LoopInv file c 0 (stitchLoop file c 0) where
  left := by
    intro hnone
    have hk := blockCount_pos hc hn
    have hhead : (recordedEdges file c).head?.getD (none, none) = (none, none) := by
      rw [List.head?_eq_getElem?]
      exact entry_of_noDelim hc hk hnone
    have hstart : wordStart file (blockStop file.length c 0) = 0 :=
      (findIfRev_eq_first_iff (Nat.zero_le _)).mpr fun i _ hi => hnone i (by omega) hi
    rw [hstart]
    simp [stitchLoop, edgeLoop, edgeInit, hhead]
  right := rfl
  result := rfl
  fileIsOneWord := by
    simp [stitchLoop, edgeLoop, edgeInit, length_recordedEdges hc, stitched]

/-- One iteration: the run at the border is counted when the first delimiter of the next chunk lies
    beyond its start, and stays open when the next chunk has no delimiter. -/
theorem LoopInv.step {s : EdgeLoop} (h : LoopInv file c k s) (hc : 0 < c)
    (hk : k + 1 < blockCount file.length c) :
    LoopInv file c (k + 1)
      (edgeStep (lower file) (entry file c k) (entry file c (k + 1)) s) := by
  have hborder : blockStop file.length c k = (k + 1) * c := by
    rw [blockStop_of_lt hc hk, Nat.succ_mul]
  have hleft := h.comparedLeft_eq hc (by omega)
  by_cases hnone : NoDelim file c (k + 1)
  · -- The next chunk belongs to the open run.
    have hstep : edgeStep (lower file) (entry file c k) (entry file c (k + 1)) s =
        { s with left := some (wordStart file (blockStop file.length c k)) } := by
      simp only [edgeStep, hleft, entry_of_noDelim hc hk hnone, h.right, ne_eq, not_true_eq_false,
        false_and, and_false, if_false]
    rw [hstep]
    refine ⟨?_, h.right, ?_, ?_⟩
    · intro _
      have hle := start_lt_blockStop hc hk
      rw [wordStart_extend (Nat.le_of_lt hle) hnone, hborder]
    · rw [stitched_succ, borderRanges_of_noDelim hc hk hnone, List.append_nil]
      exact h.result
    · rw [stitched_succ, borderRanges_of_noDelim hc hk hnone, List.append_nil]
      exact h.fileIsOneWord
  · have hfirst := isFirstDelim_findIf hc hk hnone
    generalize findIf (delimAt file) ((k + 1) * c) (blockStop file.length c (k + 1)) = d at hfirst
    have hstart : wordStart file d = wordStart file (blockStop file.length c k) := by
      rw [hborder]
      exact wordStart_extend hfirst.start_le hfirst.before
    have hranges := borderRanges_of_firstDelim hfirst
    by_cases hlt : wordStart file d < d
    · -- Both ends of the run are known, and it is counted.
      have hstep : edgeStep (lower file) (entry file c k) (entry file c (k + 1)) s =
          { left := none
            right := none
            fileIsOneWord := false
            result := countWord (lower file) s.result (wordStart file d) d } := by
        rw [hstart] at hlt ⊢
        simp [edgeStep, hleft, entry_of_firstDelim hc hk hfirst, h.right, ptrLt, hlt]
      rw [if_pos hlt] at hranges
      rw [hstep]
      refine ⟨fun hcontra => absurd hcontra hnone, rfl, ?_, ?_⟩
      · rw [stitched_succ, hranges, countRanges_append, ← h.result]
        rfl
      · rw [stitched_succ, hranges]
        simp
    · -- The border falls between two words.
      have hstep : edgeStep (lower file) (entry file c k) (entry file c (k + 1)) s =
          { s with left := some (wordStart file (blockStop file.length c k)) } := by
        rw [hstart] at hlt
        simp [edgeStep, hleft, entry_of_firstDelim hc hk hfirst, h.right, ptrLt, hlt]
      rw [if_neg hlt] at hranges
      rw [hstep]
      refine ⟨fun hcontra => absurd hcontra hnone, h.right, ?_, ?_⟩
      · rw [stitched_succ, hranges, List.append_nil]
        exact h.result
      · rw [stitched_succ, hranges, List.append_nil]
        exact h.fileIsOneWord

theorem loopInv_stitchLoop (hc : 0 < c) (hk : k < blockCount file.length c) :
    LoopInv file c k (stitchLoop file c k) := by
  induction k with
  | zero =>
      rw [lt_blockCount_iff hc] at hk
      exact loopInv_init hc (by omega)
  | succ k ih =>
      rw [stitchLoop_succ]
      exact (ih (by omega)).step hc hk

/-- A last chunk without delimiters is the end of a word. -/
theorem tailWord_of_noDelim (hc : 0 < c) (hk : k + 1 = blockCount file.length c)
    (h : NoDelim file c k) : TailWord file (wordStart file file.length) file.length := by
  have hlt := start_lt_blockStop (n := file.length) (k := k) hc (by omega)
  rw [blockStop_last hc (by omega)] at hlt
  have hle := wordStart_extend (Nat.le_of_lt hlt) fun i hi hn =>
    h i hi (by rwa [blockStop_last hc (by omega)])
  have := wordStart_le file (k * c)
  exact ⟨isWord_wordStart (by omega) (Nat.le_refl _) (delimAt_of_length_le (Nat.le_refl _)), rfl⟩

/-- The loop over at least two chunks counts precisely the words closed by the first delimiter of a chunk
    other than the first, each once; `left` is never null when it is compared and `right` is null
    before every iteration; the flag survives exactly when there is no such word; and when the last
    chunk has no delimiter, `left` is the start of the word at the end of the buffer. -/
theorem stitchLoop_counts_border_words (file : Buffer) (c : ℕ) (hc : 0 < c)
    (hchunks : 1 < blockCount file.length c) :
    let chunks := blockCount file.length c
    let final := stitchLoop file c (chunks - 1)
    final.result.calls.Nodup ∧
      (∀ b e, (b, e) ∈ final.result.calls ↔ ∃ k, 0 < k ∧ k < chunks ∧ BorderWord file c k b e) ∧
      final.result.freq = .ok (countAll ∅ (texts (lower file) final.result.calls)) ∧
      (∀ k, k < chunks - 1 → comparedLeft (entry file c k) (stitchLoop file c k) ≠ none ∧
        (stitchLoop file c k).right = none) ∧
      (final.fileIsOneWord = true ↔ ¬ ∃ k b e, 0 < k ∧ k < chunks ∧ BorderWord file c k b e) ∧
      (NoDelim file c (chunks - 1) → final.right = none ∧
        ∃ b, final.left = some b ∧ TailWord file b file.length) := by
  intro chunks final
  have hlast : chunks - 1 < blockCount file.length c := by omega
  have hinv : LoopInv file c (chunks - 1) final := loopInv_stitchLoop hc hlast
  have hcalls : final.result.calls = stitched file c (chunks - 1) := by
    rw [hinv.result, calls_countRanges]
    exact List.nil_append _
  have hmem : ∀ b e, (b, e) ∈ stitched file c (chunks - 1) ↔
      ∃ k, 0 < k ∧ k < chunks ∧ BorderWord file c k b e := by
    intro b e
    rw [mem_stitched_iff hc hlast]
    refine exists_congr fun k => and_congr_right fun _ => and_congr_left fun _ => ?_
    omega
  refine ⟨?_, ?_, ?_, ?_, ?_, ?_⟩
  · rw [hcalls]
    exact stitched_nodup hc hlast
  · rw [hcalls]
    exact hmem
  · rw [hcalls, hinv.result]
    refine freq_countRanges rfl fun r hr => ?_
    obtain ⟨k, -, -, hword⟩ := (hmem r.1 r.2).mp hr
    exact validRange_of_isWord hword.isWord
  · intro k hk
    have hinv : LoopInv file c k (stitchLoop file c k) := loopInv_stitchLoop hc (by omega)
    exact ⟨by rw [hinv.comparedLeft_eq hc (by omega)]; simp, hinv.right⟩
  · rw [hinv.fileIsOneWord, List.eq_nil_iff_forall_not_mem]
    constructor
    · rintro ⟨-, hnone⟩ ⟨k, b, e, hword⟩
      exact hnone (b, e) ((hmem b e).mpr ⟨k, hword⟩)
    · intro hnone
      refine ⟨hchunks, fun r hr => hnone ?_⟩
      obtain ⟨k, hword⟩ := (hmem r.1 r.2).mp hr
      exact ⟨k, r.1, r.2, hword⟩
  · intro hnone
    have hstop : blockStop file.length c (chunks - 1) = file.length := blockStop_last hc (by omega)
    have hleft := hinv.left hnone
    rw [hstop] at hleft
    exact ⟨hinv.right, _, hleft, tailWord_of_noDelim hc (by omega) hnone⟩

/-- In `ab cd` in chunks of two bytes the loop counts the word before the blank, which is the first
    delimiter of a later chunk. -/
theorem stitchLoop_counts_border_words_ab_cd :
    ∃ k, 0 < k ∧ k < blockCount 5 2 ∧ BorderWord [0x61, 0x62, 0x20, 0x63, 0x64] 2 k 0 2 :=
  ((stitchLoop_counts_border_words [0x61, 0x62, 0x20, 0x63, 0x64] 2 (by decide) (by decide)).2.1
    0 2).mp (by decide +kernel)

end FreqUtility
