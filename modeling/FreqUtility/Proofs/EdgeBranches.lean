/-
Module: FreqUtility.Proofs.EdgeBranches
Layer: Proofs
Purpose: What the code after the loop of `process_edges` counts, for every file and chunk size. The loop
  has counted the words closed by the first delimiter of a later chunk; the branches add the word at the
  start and the word at the end of the file. They miss in two ways. `Misfire`: the flag that no border
  was stitched is taken for a file of one word although the first chunk has a delimiter, and the range
  from the byte after that delimiter to the last letter of the file is counted. `LastLetterLost`: a
  one-letter word at the end of the file is dropped, because the start of the range is compared with the
  last byte instead of the end of the buffer.
Imports: FreqUtility.Proofs.BorderLoop
Trusted boundary: none (fully proved)
Main exports: Misfire, LastLetterLost, processEdges_of_not_misfire, processEdges_of_misfire
Open obligations: none
-/
import FreqUtility.Proofs.BorderLoop

namespace FreqUtility

open RangeScan MaximalRuns Blocks CountMaps

variable {file : Buffer} {c k b e : ℕ}

/-- No border between two chunks was stitched, but the first chunk has a delimiter. -/
structure Misfire (file : Buffer) (c : ℕ) : Prop where
  chunks : c < file.length
  delim : ¬ NoDelim file c 0
  noBorder : ∀ k b e, 0 < k → ¬ BorderWord file c k b e

/-- The file ends with a one-letter word that does not begin the last chunk. -/
structure LastLetterLost (file : Buffer) (c : ℕ) : Prop where
  inside : (file.length - 1) % c ≠ 0
  delim : delimAt file (file.length - 2) = true
  letter : delimAt file (file.length - 1) = false

instance : Decidable (LastLetterLost file c) :=
  decidable_of_iff ((file.length - 1) % c ≠ 0 ∧ delimAt file (file.length - 2) = true ∧
      delimAt file (file.length - 1) = false)
    ⟨fun ⟨h₁, h₂, h₃⟩ => ⟨h₁, h₂, h₃⟩, fun h => ⟨h.inside, h.delim, h.letter⟩⟩

/-- The word at the end of the file, as a list of at most one range. -/
def tailRanges (file : Buffer) : List (ℕ × ℕ) :=
  if wordStart file file.length < file.length then [(wordStart file file.length, file.length)]
  else []

theorem mem_tailRanges_iff : (b, e) ∈ tailRanges file ↔ TailWord file b e := by
  constructor
  · intro h
    unfold tailRanges at h
    split at h
    · rename_i hne
      obtain ⟨rfl, rfl⟩ := Prod.mk.inj (List.mem_singleton.mp h)
      exact ⟨isWord_wordStart hne (Nat.le_refl _) (delimAt_of_length_le (Nat.le_refl _)), rfl⟩
    · exact absurd h (by simp)
  · rintro ⟨hword, rfl⟩
    have hstart := wordStart_of_isWord hword
    rw [tailRanges, hstart, if_pos hword.nonempty]
    exact List.mem_singleton.mpr rfl

theorem tailRanges_nodup (file : Buffer) : (tailRanges file).Nodup := by
  unfold tailRanges
  split
  · exact List.nodup_singleton _
  · exact List.nodup_nil

/-! ### The two ends of the file -/

/-- Letters up to an offset are one run from the start of the file. -/
theorem wordStart_eq_zero {stop : ℕ} (h : ∀ i, i < stop → delimAt file i = false) :
    wordStart file stop = 0 :=
  (findIfRev_eq_first_iff (Nat.zero_le _)).mpr fun i _ hi => h i hi

/-- A file that starts with a letter is scanned from its first byte. -/
theorem findIfNot_eq_zero {stop : ℕ} (h : delimAt file 0 = false) :
    findIfNot (delimAt file) 0 stop = 0 := by
  by_contra hpos
  have hskip := findIfNot_skipped (p := delimAt file) (Nat.le_refl 0) (Nat.pos_of_ne_zero hpos)
  exact absurd hskip (ne_true_of_eq_false h)

/-- A file that ends with a letter is scanned back from its end. -/
theorem findIfNotRev_eq_length (hn : 0 < file.length)
    (h : delimAt file (file.length - 1) = false) :
    findIfNotRev (delimAt file) 0 file.length = file.length := by
  have hle := findIfNotRev_le (delimAt file) 0 file.length
  by_contra hne
  have hskip := findIfNotRev_skipped (p := delimAt file) (f := 0) (l := file.length)
    (i := file.length - 1) (by omega) (by omega)
  exact absurd hskip (ne_true_of_eq_false h)

/-- With only letters in the first chunk, a file without border words is one word. -/
theorem letters_of_no_border (hc : 0 < c) (hnone : NoDelim file c 0)
    (hborder : ∀ k b e, 0 < k → ¬ BorderWord file c k b e) {i : ℕ} (hi : i < file.length) :
    delimAt file i = false := by
  have hscan : findIf (delimAt file) 0 file.length = file.length := by
    by_contra hne
    have hlt := Nat.lt_of_le_of_ne (findIf_le (delimAt file) (Nat.zero_le _)) hne
    have hstop := findIf_stopped hlt
    have hbefore : ∀ i, i < findIf (delimAt file) 0 file.length → delimAt file i = false :=
      fun i hi => findIf_skipped (Nat.zero_le i) hi
    generalize findIf (delimAt file) 0 file.length = d at hlt hstop hbefore
    -- The first delimiter of the file closes a word that begins in the first chunk.
    obtain ⟨hlow, hhigh⟩ := (mem_block_iff (k := d / c) hc).mpr ⟨hlt, rfl⟩
    have hchunk : 0 < d / c := by
      by_contra hzero
      have hzero : d / c = 0 := Nat.eq_zero_of_not_pos hzero
      rw [hzero] at hlow hhigh
      exact absurd hstop (ne_true_of_eq_false (hnone d hlow hhigh))
    have hpos : 0 < d := Nat.pos_of_ne_zero fun heq => by simp [heq] at hchunk
    refine hborder (d / c) 0 d hchunk ⟨?_, hlow, hhigh, hstop, fun i _ hi => hbefore i hi⟩
    exact ⟨Nat.le_refl 0, hpos, Nat.le_of_lt hlt, fun i hi _ => hbefore i hi, Or.inl rfl,
      Or.inr hstop⟩
  exact (findIf_eq_last_iff (Nat.zero_le _)).mp hscan i (Nat.zero_le i) hi

/-- The last chunk is what is left when the others are full. -/
theorem last_start_mul (hc : 0 < c) (hn : 0 < file.length) :
    (blockCount file.length c - 1) * c = file.length - 1 - (file.length - 1) % c := by
  have hlt : file.length - 1 < file.length := by omega
  have hdiv : (file.length - 1) / c = blockCount file.length c - 1 := by
    have hk := div_lt_blockCount hc hlt
    have hlast : ¬ (file.length - 1) / c + 1 < blockCount file.length c := by
      rw [lt_blockCount_iff hc, Nat.succ_mul]
      have := Nat.lt_div_mul_add hc (a := file.length - 1)
      omega
    exact Nat.eq_sub_of_add_eq (Nat.le_antisymm hk (Nat.le_of_not_lt hlast))
  rw [← hdiv]
  exact Nat.eq_sub_of_add_eq (Nat.div_add_mod' _ _)

/-- A one-letter word at the end of the file is lost exactly when the last chunk has a delimiter. -/
theorem lastLetterLost_iff (hc : 0 < c) (hn : 0 < file.length) :
    LastLetterLost file c ↔
      ¬ NoDelim file c (blockCount file.length c - 1) ∧
        wordStart file file.length + 1 = file.length := by
  have hstart := last_start_mul hc hn
  have hmod : (file.length - 1) % c ≤ file.length - 1 := Nat.mod_le _ _
  have hpos := blockCount_pos hc hn
  have hstop : blockStop file.length c (blockCount file.length c - 1) = file.length :=
    blockStop_last hc (by omega)
  constructor
  · rintro ⟨hinside, hdelim, hletter⟩
    constructor
    · intro hnone
      exact absurd hdelim (ne_true_of_eq_false (hnone (file.length - 2) (by omega) (by omega)))
    · have hbase : wordStart file file.length = file.length - 1 := by
        refine findIfRev_eq (Nat.zero_le _) (by omega) ?_ ?_
        · intro i hi hin
          have hi : i = file.length - 1 := by omega
          rw [hi]
          exact hletter
        · intro _
          exact hdelim
      omega
  · rintro ⟨hsome, hbase⟩
    have hletter : delimAt file (file.length - 1) = false :=
      findIfRev_skipped (f := 0) (l := file.length) (by unfold wordStart at hbase; omega) (by omega)
    have hinside : (file.length - 1) % c ≠ 0 := by
      intro hzero
      refine hsome fun i hi hin => ?_
      have hi : i = file.length - 1 := by omega
      rw [hi]
      exact hletter
    refine ⟨hinside, ?_, hletter⟩
    have hdelim := findIfRev_stopped (p := delimAt file) (f := 0) (l := file.length)
      (by unfold wordStart at hbase; omega)
    have hindex : findIfRev (delimAt file) 0 file.length - 1 = file.length - 2 := by
      unfold wordStart at hbase
      omega
    rwa [hindex] at hdelim

/-! ### The branches -/

/-- The left-edge branch counts the word closed by the first delimiter of the first chunk. -/
theorem leftEdge_entry (hc : 0 < c) (hn : 0 < file.length) (result : Tally) :
    leftEdge (lower file) (entry file c 0) result =
      countRanges (lower file) result (borderRanges file c 0) := by
  have hk := blockCount_pos hc hn
  by_cases hnone : NoDelim file c 0
  · rw [leftEdge, entry_of_noDelim hc hk hnone, borderRanges_of_noDelim hc hk hnone]
    rfl
  · have hfirst := isFirstDelim_findIf hc hk hnone
    generalize findIf (delimAt file) (0 * c) (blockStop file.length c 0) = d at hfirst
    have hletters : ∀ i, i < d → delimAt file i = false :=
      fun i hi => hfirst.before i (by omega) hi
    rw [leftEdge, entry_of_firstDelim hc hk hfirst, borderRanges_of_firstDelim hfirst,
      wordStart_eq_zero hletters]
    simp only [funext (delimAt_lower file), length_lower]
    split
    · rename_i hpos
      rw [findIfNot_eq_zero (hletters 0 hpos)]
      rfl
    · rfl

/-- The right-edge branches count the word at the end of the file, or lose its only letter. -/
theorem rightEdge_entry (hc : 0 < c) (hn : 0 < file.length) {s : EdgeLoop}
    (h : LoopInv file c (blockCount file.length c - 1) s) (result : Tally) :
    rightEdge (lower file) (entry file c (blockCount file.length c - 1)) s.left s.right result =
      countRanges (lower file) result
        (if LastLetterLost file c then [] else tailRanges file) := by
  have hpos := blockCount_pos hc hn
  have hk : blockCount file.length c - 1 < blockCount file.length c := by omega
  have hstop : blockStop file.length c (blockCount file.length c - 1) = file.length :=
    blockStop_last hc (by omega)
  have hle := wordStart_le file file.length
  by_cases hnone : NoDelim file c (blockCount file.length c - 1)
  · have hkept : ¬ LastLetterLost file c := fun hlost =>
      ((lastLetterLost_iff hc hn).mp hlost).1 hnone
    have hword := tailWord_of_noDelim hc (by omega) hnone
    rw [if_neg hkept, tailRanges, if_pos hword.isWord.nonempty]
    simp only [rightEdge, entry_of_noDelim hc hk hnone, h.left hnone, h.right, hstop, length_lower]
    rfl
  · simp only [rightEdge, entry_snd_of_delim hc hk hnone, hstop, length_lower]
    by_cases hlost : LastLetterLost file c
    · -- The comparison with the last byte drops the word.
      have hbase := ((lastLetterLost_iff hc hn).mp hlost).2
      rw [if_pos hlost]
      simp only [show ¬ wordStart file file.length < file.length - 1 by omega, if_false]
      rfl
    · have hbase : wordStart file file.length + 1 ≠ file.length := fun hbase =>
        hlost ((lastLetterLost_iff hc hn).mpr ⟨hnone, hbase⟩)
      rw [if_neg hlost, tailRanges]
      by_cases hword : wordStart file file.length < file.length
      · rw [if_pos hword]
        simp only [show wordStart file file.length < file.length - 1 by omega, if_true]
        rfl
      · rw [if_neg hword]
        simp only [show ¬ wordStart file file.length < file.length - 1 by omega, if_false]
        rfl

theorem processEdges_eq_edgeBranches (hc : 0 < c) (hn : 0 < file.length) :
    processEdges (lower file) (recordedEdges file c) =
      edgeBranches (lower file) (entry file c 0) (entry file c (blockCount file.length c - 1))
        (stitchLoop file c (blockCount file.length c - 1)) := by
  have hlength := length_recordedEdges hc file
  have hpos := blockCount_pos hc hn
  have hne : recordedEdges file c ≠ [] := by
    intro hnil
    rw [hnil] at hlength
    simp only [List.length_nil] at hlength
    omega
  have hfront : (recordedEdges file c).head? = some (entry file c 0) := by
    rw [List.head?_eq_getElem?, getElem?_recordedEdges hc hpos, entry_eq hc hpos]
  have hback : (recordedEdges file c).getLast? =
      some (entry file c (blockCount file.length c - 1)) := by
    rw [List.getLast?_eq_getElem?, hlength, getElem?_recordedEdges hc (by omega),
      entry_eq hc (by omega)]
  rw [processEdges, hfront, hback]
  simp only [stitchLoop, hfront, Option.getD_some, hlength]

/-- The loop stitched nothing exactly when no word is closed by the first delimiter of a later chunk. -/
theorem stitched_eq_nil_iff (hc : 0 < c) (hn : 0 < file.length) :
    stitched file c (blockCount file.length c - 1) = [] ↔
      ∀ k b e, 0 < k → ¬ BorderWord file c k b e := by
  have hpos := blockCount_pos hc hn
  have hmem : ∀ b e, (b, e) ∈ stitched file c (blockCount file.length c - 1) ↔
      ∃ k, 0 < k ∧ k ≤ blockCount file.length c - 1 ∧ BorderWord file c k b e :=
    fun b e => mem_stitched_iff hc (by omega)
  rw [List.eq_nil_iff_forall_not_mem]
  constructor
  · intro hnil k b e hk hword
    have hchunk := hword.closes.div_eq hc
    have := div_lt_blockCount hc hword.closes.lt_length
    exact hnil (b, e) ((hmem b e).mpr ⟨k, hk, by omega, hword⟩)
  · intro hnone r hr
    obtain ⟨k, hk, -, hword⟩ := (hmem r.1 r.2).mp hr
    exact hnone k r.1 r.2 hk hword

/-- The flag is raised after the loop exactly when there are two chunks and no border word. -/
theorem fileIsOneWord_iff (hc : 0 < c) (hn : 0 < file.length) :
    (stitchLoop file c (blockCount file.length c - 1)).fileIsOneWord = true ↔
      c < file.length ∧ ∀ k b e, 0 < k → ¬ BorderWord file c k b e := by
  have hpos := blockCount_pos hc hn
  have hk : blockCount file.length c - 1 < blockCount file.length c := by omega
  rw [(loopInv_stitchLoop hc hk).fileIsOneWord, one_lt_blockCount_iff hc,
    stitched_eq_nil_iff hc hn]

/-- Unless the flag misfires, `process_edges` counts the border words and the word at the end of the
    file, each once, except for a lost last letter. -/
theorem processEdges_of_not_misfire (hc : 0 < c) (hn : 0 < file.length) (h : ¬ Misfire file c) :
    processEdges (lower file) (recordedEdges file c) =
      countRanges (lower file) Tally.empty
        (stitched file c (blockCount file.length c - 1) ++ borderRanges file c 0 ++
          if LastLetterLost file c then [] else tailRanges file) := by
  have hpos := blockCount_pos hc hn
  have hk : blockCount file.length c - 1 < blockCount file.length c := by omega
  have hinv : LoopInv file c _ _ := loopInv_stitchLoop hc hk
  rw [processEdges_eq_edgeBranches hc hn, countRanges_append, countRanges_append, ← hinv.result]
  cases hflag : (stitchLoop file c (blockCount file.length c - 1)).fileIsOneWord with
  | false =>
      rw [edgeBranches, hflag, if_neg (by simp), leftEdge_entry hc hn,
        rightEdge_entry hc hn hinv]
  | true =>
      -- The first chunk has no delimiter, so the file is one word.
      obtain ⟨hchunks, hborder⟩ := (fileIsOneWord_iff hc hn).mp hflag
      have hnone : NoDelim file c 0 := by
        by_contra hdelim
        exact h ⟨hchunks, hdelim, hborder⟩
      have hletters : ∀ i, i < file.length → delimAt file i = false :=
        fun i => letters_of_no_border hc hnone hborder
      have hkept : ¬ LastLetterLost file c := by
        rintro ⟨-, hdelim, -⟩
        exact absurd hdelim (ne_true_of_eq_false (hletters _ (by omega)))
      rw [edgeBranches, hflag, if_pos rfl, hugeWord, entry_of_noDelim hc hpos hnone,
        borderRanges_of_noDelim hc hpos hnone, if_neg hkept, tailRanges,
        wordStart_eq_zero hletters, if_pos hn]
      simp only [funext (delimAt_lower file), length_lower]
      rw [findIfNot_eq_zero (hletters 0 hn), findIfNotRev_eq_length hn (hletters _ (by omega))]
      rfl

/-- When the flag misfires, the only call takes the range from the byte after the first delimiter to
    the last letter of the file. -/
theorem processEdges_of_misfire {d : ℕ} (hc : 0 < c) (h : Misfire file c)
    (hfirst : IsFirstDelim file c 0 d) :
    processEdges (lower file) (recordedEdges file c) =
      countWord (lower file) Tally.empty (d + 1)
        (findIfNotRev (delimAt file) 0 file.length) := by
  have hn : 0 < file.length := Nat.lt_trans hc h.chunks
  have hpos := blockCount_pos hc hn
  have hk : blockCount file.length c - 1 < blockCount file.length c := by omega
  have hflag := (fileIsOneWord_iff hc hn).mpr ⟨h.chunks, h.noBorder⟩
  have hresult := (loopInv_stitchLoop hc hk).result
  rw [(stitched_eq_nil_iff hc hn).mpr h.noBorder] at hresult
  rw [processEdges_eq_edgeBranches hc hn, edgeBranches, if_pos hflag, hugeWord,
    entry_of_firstDelim hc hpos hfirst, hresult]
  simp only [funext (delimAt_lower file), length_lower]
  rfl

end FreqUtility
