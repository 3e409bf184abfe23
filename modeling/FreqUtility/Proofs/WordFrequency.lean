/-
Module: FreqUtility.Proofs.WordFrequency
Layer: Proofs
Purpose: `process_file_dummy` computes the word frequency (`WordFrequency`): its keys are the texts of the
  maximal runs of letters, each with the number of offsets where it stands between non-letters, and the
  letters of the buffer are accounted for. The loop goes through one round for each word.
Imports: FreqUtility.Proofs.ChunkedCount
Trusted boundary: none (fully proved)
Main exports: occursAt_iff, card_occursAt, sum_length_wordTexts, WordFrequency, wordFrequency_of_counts,
  dummy_computes_word_frequency
Open obligations: none
-/
import FreqUtility.Proofs.ChunkedCount

namespace FreqUtility

open RangeScan MaximalRuns CountMaps

variable {data : Buffer} {w : Word} {p b e : ℕ}

/-! ### Words and their offsets -/

theorem length_wordText (h : IsWord data b e) : (slice (lower data) b e).length = e - b :=
  length_slice (by rw [length_lower]; exact h.le_stop)

theorem wordText_lowerCaseWord (h : IsWord data b e) : LowerCaseWord (slice (lower data) b e) :=
  RealWord.lowerCaseWord (r := (b, e)) (RealWord.of_isWord h)

/-- The text of a word consists of letters. -/
theorem isAlpha_of_mem_wordText (h : IsWord data b e) {x : UInt8} (hx : x ∈ slice (lower data) b e) :
    isAlpha x = true := by
  obtain ⟨i, hb, he, rfl⟩ := exists_of_mem_slice hx
  have hfree := h.inside i he hb
  rw [← delimAt_lower, delimAt, isDelim, Bool.not_eq_false'] at hfree
  exact hfree

/-- A text of letters stands between non-letters exactly at the words that have it. -/
theorem occursAt_iff (hw : w ≠ []) (hletters : ∀ x ∈ w, isAlpha x = true) :
    OccursAt data w p ↔ IsWord data p (p + w.length) ∧ slice (lower data) p (p + w.length) = w := by
  constructor
  · intro h
    have hpos : 0 < w.length := List.length_pos_iff.mpr hw
    have hlength := congrArg List.length h.reads
    simp only [slice, List.length_take, List.length_drop, length_lower] at hlength
    refine ⟨⟨Nat.zero_le p, by omega, by omega, ?_, h.left, h.right⟩, h.reads⟩
    intro i hi hp
    -- The byte at `i` is one of the letters of `w`.
    have hget : w[i - p]? = (lower data)[i]? := by
      conv_lhs => rw [← h.reads]
      rw [getElem?_slice, if_pos (by omega), Nat.add_sub_cancel' hp]
    have hmem : byteAt (lower data) i ∈ w := by
      rw [byteAt, ← hget, List.getElem?_eq_getElem (by omega)]
      exact List.getElem_mem _
    rw [← delimAt_lower, delimAt, isDelim, hletters _ hmem]
    rfl
  · rintro ⟨hword, hreads⟩
    exact ⟨hreads, hword.left, hword.right⟩

/-- The number of words with a text is the number of offsets where it stands between non-letters. -/
theorem card_occursAt (hw : w ≠ []) (hletters : ∀ x ∈ w, isAlpha x = true) :
    ((words data).filter fun r => slice (lower data) r.1 r.2 = w).card =
      ((Finset.range data.length).filter (OccursAt data w)).card := by
  apply Finset.card_nbij' Prod.fst fun p => (p, p + w.length)
  · intro r hr
    obtain ⟨hmem, htext⟩ := Finset.mem_filter.mp hr
    have hword := mem_words.mp hmem
    have hstop : r.1 + w.length = r.2 := by
      rw [← htext, length_wordText hword]
      exact Nat.add_sub_cancel' (Nat.le_of_lt hword.nonempty)
    refine Finset.mem_filter.mpr ⟨Finset.mem_range.mpr (hword.nonempty.trans_le hword.le_stop), ?_⟩
    rw [occursAt_iff hw hletters, hstop]
    exact ⟨hword, htext⟩
  · intro p hp
    obtain ⟨hword, htext⟩ := (occursAt_iff hw hletters).mp (Finset.mem_filter.mp hp).2
    exact Finset.mem_filter.mpr ⟨mem_words.mpr hword, htext⟩
  · intro r hr
    obtain ⟨hmem, htext⟩ := Finset.mem_filter.mp hr
    have hword := mem_words.mp hmem
    refine Prod.ext rfl ?_
    rw [← htext, length_wordText hword]
    exact Nat.add_sub_cancel' (Nat.le_of_lt hword.nonempty)
  · intro p _
    rfl

/-- The letters of a buffer are the offsets that read as no delimiter. -/
theorem countP_isAlpha (data : Buffer) :
    data.countP isAlpha = ((Finset.Ico 0 data.length).filter fun i => delimAt data i = false).card := by
  have hletter : ∀ i, isAlpha (byteAt data i) = decide (delimAt data i = false) := by
    intro i
    rw [delimAt, isDelim]
    cases isAlpha (byteAt data i) with
    | true => rfl
    | false => rfl
  calc data.countP isAlpha = ((List.range data.length).map (byteAt data)).countP isAlpha := by
        rw [map_byteAt_range]
    _ = ((List.range data.length).filter fun i => decide (delimAt data i = false)).length := by
        rw [List.countP_map, List.countP_eq_length_filter]
        simp only [Function.comp_def, hletter]
    _ = ((Finset.range data.length).filter fun i => delimAt data i = false).card := rfl
    _ = ((Finset.Ico 0 data.length).filter fun i => delimAt data i = false).card := by
        rw [Finset.range_eq_Ico]

/-- The lengths of the words add up to the number of letters. -/
theorem sum_length_wordTexts (data : Buffer) :
    ((wordTexts data).map List.length).sum = data.countP isAlpha := by
  rw [countP_isAlpha, ← sum_length_runs, wordTexts, Multiset.map_map]
  apply congrArg Multiset.sum
  apply Multiset.map_congr rfl
  intro r hr
  exact length_wordText (mem_words.mp hr)

/-! ### The word frequency -/

/-- `m` is the word frequency of the buffer. -/
structure WordFrequency (data : Buffer) (m : FreqMap) : Prop where
  /-- The keys are the texts of the words. -/
  mem_iff : ∀ w, w ∈ m ↔ ∃ b e, IsWord data b e ∧ slice (lower data) b e = w
  /-- A count is the number of words with that text, -/
  count_words : ∀ w n, m.lookup w = some n →
    n = ((words data).filter fun r => slice (lower data) r.1 r.2 = w).card
  /-- and the number of offsets where the text stands between non-letters. -/
  count_offsets : ∀ w n, m.lookup w = some n →
    n = ((Finset.range data.length).filter (OccursAt data w)).card
  /-- Every letter belongs to one counted word. -/
  letters : ∑ w ∈ m.keys, (m.lookup w).getD 0 * w.length = data.countP isAlpha

theorem mem_wordTexts : w ∈ wordTexts data ↔ ∃ b e, IsWord data b e ∧ slice (lower data) b e = w := by
  rw [wordTexts, Multiset.mem_map]
  constructor
  · rintro ⟨r, hr, htext⟩
    exact ⟨r.1, r.2, mem_words.mp hr, htext⟩
  · rintro ⟨b, e, hword, htext⟩
    exact ⟨(b, e), mem_words.mpr hword, htext⟩

theorem count_wordTexts (data : Buffer) (w : Word) :
    (wordTexts data).count w = ((words data).filter fun r => slice (lower data) r.1 r.2 = w).card := by
  rw [wordTexts, Multiset.count_map]
  simp only [eq_comm (a := w)]
  rfl

/-- A map that counts the texts of the words is the word frequency. -/
theorem wordFrequency_of_counts {m : FreqMap} (h : Counts m (wordTexts data)) :
    WordFrequency data m where
  mem_iff w := h.mem_iff.trans mem_wordTexts
  count_words w n hentry := (h.lookup_eq_some hentry).trans (count_wordTexts data w)
  count_offsets := by
    intro w n hentry
    have hmem : w ∈ m := Finmap.mem_of_lookup_eq_some hentry
    obtain ⟨b, e, hword, rfl⟩ := mem_wordTexts.mp (h.mem_iff.mp hmem)
    have hne : slice (lower data) b e ≠ [] := (wordText_lowerCaseWord hword).1
    rw [h.lookup_eq_some hentry, count_wordTexts]
    exact card_occursAt hne fun x hx => isAlpha_of_mem_wordText hword hx
  letters := (h.sum_keys List.length).trans (sum_length_wordTexts data)

/-! ### The loop -/

/-- The number of rounds of the loop is the number of words. -/
theorem wordLoop_rounds (data : Buffer) :
    wordLoop (lower data) (fun rounds _ _ => rounds + 1) 0 0 data.length = (words data).card := by
  unfold wordLoop
  rw [foldRuns_eq_foldl]
  simp only [funext (delimAt_lower data)]
  rw [List.foldl_const Nat.succ, Nat.succ_iterate, Nat.zero_add, length_runList]
  rfl

/-- Each round moves `start_it` forward, and not beyond the end. -/
theorem wordLoop_progress (data : Buffer) {start : ℕ} (h : start < data.length) :
    let wordEnd := findIf (delimAt data) start data.length
    start < findIfNot (delimAt data) wordEnd data.length ∧
      findIfNot (delimAt data) wordEnd data.length ≤ data.length :=
  ⟨findIf_progress h, findIfNot_le _ (findIf_le _ (Nat.le_of_lt h))⟩

/-- For every buffer the plain counter computes the word frequency; each round of its loop moves forward,
    so there are as many rounds as words, at most one for each byte. When the read delivers the whole
    file, this is the result of `process_file_dummy`. -/
theorem dummy_computes_word_frequency (file : Buffer) :
    WordFrequency file (dummyCount file) ∧
      (∀ start, start < file.length →
        start < findIfNot (delimAt (lower file))
            (findIf (delimAt (lower file)) start (lower file).length) (lower file).length ∧
          findIfNot (delimAt (lower file))
            (findIf (delimAt (lower file)) start (lower file).length) (lower file).length ≤
              (lower file).length) ∧
      wordLoop (lower file) (fun rounds _ _ => rounds + 1) 0 0 (lower file).length =
        (words file).card ∧
      (words file).card ≤ file.length ∧
      (((IfStream.opened.seekg 0).read file (toInt32 file.length)).1 = file →
        processFileDummy file = dummyCount file) := by
  refine ⟨wordFrequency_of_counts (dummyCount_counts file), ?_, ?_, card_runs_le _ _ _,
    processFileDummy_of_read⟩
  · intro start hstart
    exact wordLoop_progress (lower file) (by rwa [length_lower])
  · rw [length_lower]
    exact wordLoop_rounds file

/-- `Ab cab` has the words `ab` and `cab`, each of them once. -/
theorem dummy_computes_word_frequency_ab_cab :
    WordFrequency [0x41, 0x62, 0x20, 0x63, 0x61, 0x62] (processFileDummy [0x41, 0x62, 0x20, 0x63, 0x61, 0x62]) ∧
      (processFileDummy [0x41, 0x62, 0x20, 0x63, 0x61, 0x62]).lookup [0x61, 0x62] = some 1 ∧
      (processFileDummy [0x41, 0x62, 0x20, 0x63, 0x61, 0x62]).lookup [0x63, 0x61, 0x62] = some 1 ∧
      (words [0x41, 0x62, 0x20, 0x63, 0x61, 0x62]).card = 2 := by
  obtain ⟨hfrequency, -, hrounds, -, hread⟩ :=
    dummy_computes_word_frequency [0x41, 0x62, 0x20, 0x63, 0x61, 0x62]
  rw [hread (IfStream.read_whole (by decide))]
  exact ⟨hfrequency, by decide +kernel, by decide +kernel, hrounds.symm.trans (by decide +kernel)⟩

end FreqUtility
