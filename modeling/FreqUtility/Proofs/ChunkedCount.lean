/-
Module: FreqUtility.Proofs.ChunkedCount
Layer: Proofs
Purpose: Chunked counting against plain counting. The sequential counter counts the words of the file
  (`dummyCount_counts`). Chunked counting gives the same map, for every chunk size, order of the chunks
  and distribution over the maps, exactly outside the two defects of `process_edges`; the only files on
  which a misfire happens to give the right counts are those where the range it takes has the text of
  the single word that was missed.
Imports: FreqUtility.Proofs.CountedRanges, FreqUtility.Core.Dummy
Trusted boundary: none (fully proved)
Main exports: dummyCount_counts, chunkedCount_eq_ok_iff, MisfireHarmless, misfireHarmless_iff,
  chunked_counting_equals_plain_iff
Open obligations: none
-/
import FreqUtility.Proofs.CountedRanges
import FreqUtility.Core.Dummy

namespace FreqUtility

open RangeScan MaximalRuns Blocks CountMaps

variable {file : Buffer} {c workers : ℕ}

/-! ### The sequential counter -/

/-- The ranges the sequential counter visits: the words of the file from left to right. -/
theorem coe_runList_words (file : Buffer) :
    (runList (delimAt file) file.length (findIfNot (delimAt file) 0 file.length) :
      Multiset (ℕ × ℕ)) = (words file).val :=
  coe_runList _ _ _

/-- The sequential counter computes the word frequency. -/
theorem dummyCount_counts (file : Buffer) : Counts (dummyCount file) (wordTexts file) := by
  have hcount : dummyCount file = countAll ∅ (texts (lower file)
      (runList (delimAt file) file.length (findIfNot (delimAt file) 0 file.length))) := by
    unfold dummyCount wordLoop
    rw [foldRuns_eq_foldl, texts, countAll, List.foldl_map]
    simp only [emplaceOrIncrement_eq_bump, funext (delimAt_lower file), length_lower]
  rw [hcount, wordTexts, ← coe_runList_words]
  have hcounts := Counts.empty.countAll (texts (lower file)
    (runList (delimAt file) file.length (findIfNot (delimAt file) 0 file.length)))
  rwa [zero_add] at hcounts

/-! ### The result of chunked counting -/

/-- Chunked counting succeeds when the calls of `process_edges` are valid, and then counts them and the
    inner words. -/
theorem chunkedCount_eq_ok_iff (hc : 0 < c) (hn : 0 < file.length)
    (schedule : Schedule (blockCount file.length c) workers) {m : FreqMap} :
    chunkedCount file c schedule = .ok m ↔
      (∀ r ∈ (processEdges (lower file) (recordedEdges file c)).calls,
        ValidRange (lower file) r) ∧
      Counts m (texts (lower file) (processEdges (lower file) (recordedEdges file c)).calls +
        texts (lower file) (innerAll file c)) := by
  obtain ⟨hdata, hedges, hfrequency⟩ := chunkRun_spec hc file schedule
  have hinner : (texts (lower file) ((List.finRange workers).flatMap
      (workerRanges file c schedule.order)) : Multiset Word) = texts (lower file) (innerAll file c) :=
    Multiset.coe_eq_coe.mpr ((sum_workerRanges schedule.perm).map _)
  rw [← hinner]
  apply finish_eq_ok_iff
  · rw [hdata, hedges]
    exact processEdges_recorded_replays hc hn
  · exact hfrequency
  · exact validRange_of_mem_workerRanges hc schedule.perm

/-- Chunked counting gives the word frequency exactly when the calls of `process_edges` are valid and
    their texts are those of the words that no chunk counted. -/
theorem chunkedCount_eq_dummyCount_iff (hc : 0 < c) (hn : 0 < file.length)
    (schedule : Schedule (blockCount file.length c) workers) :
    chunkedCount file c schedule = .ok (dummyCount file) ↔
      (∀ r ∈ (processEdges (lower file) (recordedEdges file c)).calls,
        ValidRange (lower file) r) ∧
      (texts (lower file) (processEdges (lower file) (recordedEdges file c)).calls :
          Multiset Word) =
        texts (lower file) (borderAll file c) + texts (lower file) (tailRanges file) := by
  have hdummy := dummyCount_counts file
  rw [wordTexts_eq hc hn, add_comm] at hdummy
  rw [chunkedCount_eq_ok_iff hc hn schedule]
  apply and_congr_right
  intro _
  constructor
  · intro hcounts
    exact add_right_cancel (hcounts.injective hdummy)
  · intro heq
    rw [heq]
    exact hdummy

/-! ### Misfires -/

/-- When the flag misfires, the words that no chunk counted are the one closed by the first delimiter
    and the one at the end. -/
theorem borderAll_of_misfire {d : ℕ} (hc : 0 < c) (h : Misfire file c)
    (hfirst : IsFirstDelim file c 0 d) :
    borderAll file c = if 0 < d then [(0, d)] else [] := by
  have hletters : ∀ i, i < d → delimAt file i = false :=
    fun i hi => hfirst.before i (by omega) hi
  rw [borderAll, (stitched_eq_nil_iff hc (Nat.lt_trans hc h.chunks)).mpr h.noBorder,
    borderRanges_of_firstDelim hfirst, wordStart_eq_zero hletters, List.nil_append]

theorem tailRanges_of_last_delim
    (h : delimAt file (file.length - 1) = true) : tailRanges file = [] := by
  have hstart : wordStart file file.length = file.length := by
    refine findIfRev_eq (Nat.zero_le _) (Nat.le_refl _) ?_ fun _ => h
    intro i hi hin
    omega
  rw [tailRanges, hstart, if_neg (Nat.lt_irrefl _)]

/-- The same word before and after the only delimiter between letters, and a delimiter at the end. -/
structure SameWordTwice (file : Buffer) (d : ℕ) : Prop where
  nonempty : 0 < d
  lt_length : 2 * d + 1 < file.length
  shape : OneWordAfterDelim file d (2 * d + 1)
  same : slice (lower file) 0 d = slice (lower file) (d + 1) (2 * d + 1)

/-- A range whose text is that of a range of letters holds letters. -/
theorem letters_of_slice_eq {u v : ℕ} (hsame : slice (lower file) 0 u = slice (lower file) v (v + u))
    (hletters : ∀ i, i < u → delimAt file i = false) {i : ℕ} (hlow : v ≤ i) (hhigh : i < v + u) :
    delimAt file i = false := by
  have hbyte := congrArg (fun text => text[i - v]?) hsame
  simp only [getElem?_slice] at hbyte
  rw [if_pos (by omega), if_pos (by omega), Nat.zero_add, Nat.add_sub_cancel' hlow] at hbyte
  rw [← delimAt_lower, delimAt, byteAt, ← hbyte]
  rw [← hletters (i - v) (by omega), ← delimAt_lower, delimAt, byteAt]

/-- The range that a misfire takes after the delimiter `d` is valid and has the text of the only word that
    no chunk counted. -/
def MisfireHarmless (file : Buffer) (d : ℕ) : Prop :=
  ValidRange (lower file) (d + 1, findIfNotRev (delimAt file) 0 file.length) ∧
    ({slice (lower file) (d + 1) (findIfNotRev (delimAt file) 0 file.length)} : Multiset Word) =
      texts (lower file) (if 0 < d then [(0, d)] else []) + texts (lower file) (tailRanges file)

theorem length_misfire (file : Buffer) (d : ℕ) :
    (slice (lower file) (d + 1) (findIfNotRev (delimAt file) 0 file.length)).length =
      findIfNotRev (delimAt file) 0 file.length - (d + 1) := by
  apply length_slice
  rw [length_lower]
  exact findIfNotRev_le (delimAt file) 0 file.length

/-- With a delimiter at the start the missing word is the one at the end, and it starts after the
    delimiter. -/
theorem MisfireHarmless.oneWordAfterDelim (h : MisfireHarmless file 0) (hn : 0 < file.length)
    (hdelim : delimAt file 0 = true) : OneWordAfterDelim file 0 file.length := by
  have hlength := length_misfire file 0
  obtain ⟨-, hsame⟩ := h
  have hword : wordStart file file.length < file.length := by
    by_contra hnone
    rw [tailRanges, if_neg hnone] at hsame
    exact absurd (congrArg Multiset.card hsame) (by simp [texts])
  have htail := isWord_wordStart hword (Nat.le_refl _) (delimAt_of_length_le (Nat.le_refl _))
  have hletter := htail.inside (file.length - 1) (by omega) (by omega)
  rw [findIfNotRev_eq_length hn hletter] at hsame hlength
  rw [tailRanges, if_pos hword, if_neg (Nat.lt_irrefl 0)] at hsame
  have htext : slice (lower file) (0 + 1) file.length =
      slice (lower file) (wordStart file file.length) file.length := by
    simpa [texts] using hsame
  have hlength' : (slice (lower file) (wordStart file file.length) file.length).length =
      file.length - wordStart file file.length := length_slice (by rw [length_lower])
  rw [htext] at hlength
  have hstart : wordStart file file.length = 1 := by omega
  rw [hstart] at htail hword
  exact ⟨fun i hi => absurd hi (Nat.not_lt_zero i), hdelim, hword, Nat.le_refl _,
    fun i hi hin => htail.inside i hin hi, fun i hi hin => absurd hin (Nat.not_lt_of_le hi)⟩

/-- With a word at the start that word is the missing one, and the file ends with a delimiter. -/
theorem MisfireHarmless.sameWordTwice {d : ℕ} (h : MisfireHarmless file d) (hpos : 0 < d)
    (hdelim : delimAt file d = true) (hbefore : ∀ i, i < d → delimAt file i = false)
    (hd : d < file.length) : SameWordTwice file d := by
  have hle := findIfNotRev_le (delimAt file) 0 file.length
  have hlength := length_misfire file d
  obtain ⟨hvalid, hsame⟩ := h
  have hvalid : d + 1 ≤ findIfNotRev (delimAt file) 0 file.length := hvalid.1
  have hnone : ¬ wordStart file file.length < file.length := by
    intro hword
    rw [tailRanges, if_pos hword, if_pos hpos] at hsame
    exact absurd (congrArg Multiset.card hsame) (by simp [texts])
  rw [tailRanges, if_neg hnone, if_pos hpos] at hsame
  have htext : slice (lower file) (d + 1) (findIfNotRev (delimAt file) 0 file.length) =
      slice (lower file) 0 d := by
    simpa [texts] using hsame
  have hlength' : (slice (lower file) 0 d).length = d - 0 :=
    length_slice (by rw [length_lower]; exact Nat.le_of_lt hd)
  rw [htext] at hlength
  have hstop : findIfNotRev (delimAt file) 0 file.length = 2 * d + 1 := by omega
  rw [hstop] at htext hle
  have hlast : 2 * d + 1 < file.length := by
    rcases Nat.lt_or_eq_of_le hle with hlt | heq
    · exact hlt
    · -- Otherwise the last byte is a letter of a word that was missed as well.
      have hletter := findIfNotRev_stopped (p := delimAt file) (f := 0) (l := file.length)
        (by omega)
      rw [hstop, heq] at hletter
      exact absurd (isWord_last (Nat.zero_lt_of_lt hd) hletter).nonempty hnone
  refine ⟨hpos, hlast, ⟨hbefore, hdelim, by omega, hle, ?_, ?_⟩, htext.symm⟩
  · intro i hi hin
    refine letters_of_slice_eq (u := d) (v := d + 1) ?_ hbefore hi (by omega)
    rw [show d + 1 + d = 2 * d + 1 by omega]
    exact htext.symm
  · intro i hi hin
    exact findIfNotRev_skipped (f := 0) (by omega) hin

theorem OneWordAfterDelim.misfireHarmless (h : OneWordAfterDelim file 0 file.length) :
    MisfireHarmless file 0 := by
  have htail : IsWord file 1 file.length :=
    ⟨Nat.zero_le 1, h.nonempty, Nat.le_refl _, fun i hin hi => h.letters i hi hin,
      Or.inr h.delim, Or.inl rfl⟩
  rw [MisfireHarmless, h.findIfNotRev_eq, tailRanges, wordStart_of_isWord htail,
    if_pos htail.nonempty, if_neg (Nat.lt_irrefl 0)]
  refine ⟨⟨Nat.le_of_lt h.nonempty, by rw [length_lower]⟩, ?_⟩
  simp [texts]

theorem SameWordTwice.misfireHarmless {d : ℕ} (h : SameWordTwice file d) :
    MisfireHarmless file d := by
  have hlast := h.lt_length
  rw [MisfireHarmless, h.shape.findIfNotRev_eq, tailRanges_of_last_delim
    (h.shape.after _ (by omega) (by omega)), if_pos h.nonempty]
  refine ⟨⟨Nat.le_of_lt h.shape.nonempty, by rw [length_lower]; exact h.shape.le_length⟩, ?_⟩
  simp [texts, h.same]

/-- A misfire is harmless exactly when the file is a delimiter followed by one word, or has the same word
    on both sides of its first delimiter and nothing but delimiters after. -/
theorem misfireHarmless_iff {d : ℕ} (hdelim : delimAt file d = true)
    (hbefore : ∀ i, i < d → delimAt file i = false) (hd : d < file.length) :
    MisfireHarmless file d ↔
      OneWordAfterDelim file 0 file.length ∨ ∃ d, SameWordTwice file d := by
  constructor
  · intro h
    cases d with
    | zero => exact Or.inl (h.oneWordAfterDelim hd hdelim)
    | succ d => exact Or.inr ⟨d + 1, h.sameWordTwice (Nat.succ_pos d) hdelim hbefore hd⟩
  · rintro (h | ⟨d', h⟩)
    · rw [eq_of_first_delim hdelim hbefore h.delim h.before]
      exact h.misfireHarmless
    · rw [eq_of_first_delim hdelim hbefore h.shape.delim h.shape.before]
      exact h.misfireHarmless

/-- Chunked counting of a non-empty buffer, for every chunk size, order of the chunks and distribution
    over the frequency maps, equals plain counting exactly when the one-word flag does not misfire and
    no last letter is lost, or the flag misfires and the range it takes has the text of the only word
    that was missed. -/
theorem chunked_counting_equals_plain_iff (file : Buffer) (c : ℕ) (hc : 0 < c)
    (hn : 0 < file.length) {workers : ℕ}
    (schedule : Schedule (blockCount file.length c) workers) :
    chunkedCount file c schedule = .ok (dummyCount file) ↔
      (¬ Misfire file c ∧ ¬ LastLetterLost file c) ∨
        (Misfire file c ∧
          (OneWordAfterDelim file 0 file.length ∨ ∃ d, SameWordTwice file d)) := by
  rw [chunkedCount_eq_dummyCount_iff hc hn schedule]
  by_cases hmisfire : Misfire file c
  · obtain ⟨d, hfirst, hdelim, hd, hbefore⟩ := exists_firstDelim_of_misfire hmisfire hc
    rw [processEdges_of_misfire hc hmisfire hfirst, borderAll_of_misfire hc hmisfire hfirst,
      ← misfireHarmless_iff hdelim hbefore hd, MisfireHarmless]
    simp [Tally.empty, texts, hmisfire]
  · rw [processEdges_of_not_misfire hc hn hmisfire, calls_countRanges]
    change (∀ r ∈ [] ++ (borderAll file c ++ _), _) ∧ (texts _ ([] ++ (borderAll file c ++ _)) :
      Multiset Word) = _ ↔ _
    rw [List.nil_append, texts_append, ← Multiset.coe_add, add_right_inj]
    by_cases hlost : LastLetterLost file c
    · have hword := isWord_last hn hlost.letter
      constructor
      · rintro ⟨-, hsame⟩
        rw [if_pos hlost, tailRanges, if_pos hword.nonempty] at hsame
        exact absurd (congrArg Multiset.card hsame) (by simp [texts])
      · rintro (⟨-, hkept⟩ | ⟨hyes, -⟩)
        · exact absurd hlost hkept
        · exact absurd hyes hmisfire
    · rw [if_neg hlost]
      constructor
      · intro _
        exact Or.inl ⟨hmisfire, hlost⟩
      · intro _
        refine ⟨?_, rfl⟩
        intro r hr
        exact validRange_of_isWord
          ((mem_allRanges_iff hc hn).mp (List.mem_append_right _ hr))

/-- `ab cd` in chunks of two bytes, processed out of order by two workers. -/
theorem chunked_counting_equals_plain_ab_cd :
    chunkedCount [0x61, 0x62, 0x20, 0x63, 0x64] 2 ⟨[(2, (0 : Fin 2)), (0, 1), (1, 0)], by decide⟩ =
      .ok (dummyCount [0x61, 0x62, 0x20, 0x63, 0x64]) :=
  (chunked_counting_equals_plain_iff [0x61, 0x62, 0x20, 0x63, 0x64] 2 (by decide) (by decide)
    _).mpr (Or.inl ⟨fun h => h.delim (by decide), by decide⟩)

/-- `a b` in one chunk: the sequential counter counts the last letter, chunked counting does not. -/
theorem chunked_counting_loses_last_letter :
    ¬ chunkedCount [0x61, 0x20, 0x62] 4096 (Schedule.inOrder _ (0 : Fin 1)) =
      .ok (dummyCount [0x61, 0x20, 0x62]) := by
  decide +kernel

end FreqUtility
