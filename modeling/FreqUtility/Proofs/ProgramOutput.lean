/-
Module: FreqUtility.Proofs.ProgramOutput
Layer: Proofs
Purpose: From the threads or the kernel to the bytes of the output file. Both parallel drivers end in a
  `CompleteRun`: every chunk processed once, its words in the table of some worker. What `main` writes
  then depends on the file and the chunk size alone, not on the interleaving, the hash function or the
  sort algorithm; and it is what the sequential counter writes, except for the two defects of
  `process_edges`.
Imports: FreqUtility.Proofs.PooledRead, FreqUtility.Proofs.AioTable, FreqUtility.Proofs.ChunkedCount,
  FreqUtility.Proofs.Report
Trusted boundary: none (fully proved)
Main exports: CompleteRun, CompleteRun.output_congr, CompleteRun.output_eq_iff,
  sequential_output_lists_words, pooled_output_is_determined, pooled_output_is_sequential_iff,
  aio_output_is_sequential_iff
Open obligations: none
-/
import FreqUtility.Proofs.PooledRead
import FreqUtility.Proofs.AioTable
import FreqUtility.Proofs.ChunkedCount
import FreqUtility.Proofs.Report

namespace FreqUtility

open RangeScan MaximalRuns Blocks CountMaps UnorderedDense Sorting Transition

variable {file : Buffer} {c capa capa' workers workers' : ℕ} {mixedHash mixedHash' : Word → UInt64}

/-! ### The map that chunked counting computes -/

/-- The calls of `process_edges` on the whole file. -/
def edgeCalls (file : Buffer) (c : ℕ) : List (ℕ × ℕ) :=
  (processEdges (lower file) (recordedEdges file c)).calls

/-- The words that chunked counting counts. -/
def chunkedTexts (file : Buffer) (c : ℕ) : Multiset Word :=
  texts (lower file) (edgeCalls file c) + texts (lower file) (innerAll file c)

theorem exists_chunkedMap (file : Buffer) (c : ℕ) : ∃ m, Counts m (chunkedTexts file c) := by
  have hcounts := (Counts.empty.countAll (texts (lower file) (edgeCalls file c))).countAll
    (texts (lower file) (innerAll file c))
  rw [zero_add] at hcounts
  exact ⟨_, hcounts⟩

/-- Every word that is counted is a word of the file, except for the one call of a misfire. -/
theorem card_keys_le (hc : 0 < c) (hn : 0 < file.length) {m : FreqMap}
    (hm : Counts m (chunkedTexts file c)) : m.keys.card ≤ (dummyCount file).keys.card + 1 := by
  have hinner : ∀ w ∈ texts (lower file) (innerAll file c), w ∈ (dummyCount file).keys := by
    intro w hw
    obtain ⟨⟨b, e⟩, hr, rfl⟩ := List.mem_map.mp hw
    obtain ⟨k, -, hword⟩ := (mem_innerAll_iff hc).mp hr
    rw [Finmap.mem_keys, (dummyCount_counts file).mem_iff]
    exact mem_wordTexts.mpr ⟨b, e, hword.isWord, rfl⟩
  have hcalls : ∃ x, ∀ w ∈ texts (lower file) (edgeCalls file c), w = x ∨ w ∈ (dummyCount file).keys := by
    by_cases hmisfire : Misfire file c
    · obtain ⟨d, hfirst, -⟩ := exists_firstDelim_of_misfire hmisfire hc
      refine ⟨slice (lower file) (d + 1) (findIfNotRev (delimAt file) 0 file.length), ?_⟩
      intro w hw
      rw [edgeCalls, processEdges_of_misfire hc hmisfire hfirst] at hw
      exact Or.inl (List.mem_singleton.mp hw)
    · refine ⟨[], ?_⟩
      intro w hw
      obtain ⟨r, hr, rfl⟩ := List.mem_map.mp hw
      have hword := isWord_of_mem_calls hc hn hmisfire hr
      apply Or.inr
      rw [Finmap.mem_keys, (dummyCount_counts file).mem_iff]
      exact mem_wordTexts.mpr ⟨r.1, r.2, hword, rfl⟩
  obtain ⟨x, hcalls⟩ := hcalls
  have hsub : m.keys ⊆ insert x (dummyCount file).keys := by
    intro w hw
    rw [Finmap.mem_keys, hm.mem_iff, chunkedTexts, Multiset.mem_add] at hw
    rw [Finset.mem_insert]
    rcases hw with hcall | hword
    · exact hcalls w hcall
    · exact Or.inr (hinner w hword)
  exact (Finset.card_le_card hsub).trans (Finset.card_insert_le _ _)

/-- Without a misfire the map is the word frequency exactly when no last letter is lost. -/
theorem counts_chunkedTexts_iff (hc : 0 < c) (hn : 0 < file.length) (hmisfire : ¬ Misfire file c) :
    Counts (dummyCount file) (chunkedTexts file c) ↔ ¬ LastLetterLost file c := by
  have hdummy := dummyCount_counts file
  have hcalls : (texts (lower file) (edgeCalls file c) : Multiset Word) =
      texts (lower file) (borderAll file c) +
        texts (lower file) (if LastLetterLost file c then [] else tailRanges file) := by
    rw [edgeCalls, processEdges_of_not_misfire hc hn hmisfire, calls_countRanges, Multiset.coe_add,
      ← texts_append]
    rfl
  rw [wordTexts_eq hc hn] at hdummy
  rw [chunkedTexts, add_comm, hcalls]
  constructor
  · intro hcounts hlost
    have hsame := add_left_cancel (add_left_cancel (hcounts.injective hdummy))
    rw [if_pos hlost, tailRanges, if_pos (isWord_last hn hlost.letter).nonempty] at hsame
    exact absurd (congrArg Multiset.card hsame) (by simp [texts])
  · intro hkept
    rw [if_neg hkept]
    exact hdummy

/-- Without a misfire the map can be reported. -/
theorem wordCounts_of_not_misfire (hc : 0 < c) (hn : 0 < file.length) (hmisfire : ¬ Misfire file c)
    {m : FreqMap} (hm : Counts m (chunkedTexts file c)) : WordCounts m := by
  intro w n hentry
  have hw := hm.mem_iff.mp (Finmap.mem_of_lookup_eq_some hentry)
  refine ⟨?_, ?_⟩
  · rw [chunkedTexts, Multiset.mem_add] at hw
    rcases hw with hcall | hinner
    · obtain ⟨r, hr, rfl⟩ := List.mem_map.mp hcall
      exact wordText_lowerCaseWord (isWord_of_mem_calls hc hn hmisfire hr)
    · obtain ⟨⟨b, e⟩, hr, rfl⟩ := List.mem_map.mp hinner
      obtain ⟨k, -, hword⟩ := (mem_innerAll_iff hc).mp hr
      exact wordText_lowerCaseWord hword.isWord
  · rw [hm.lookup_eq_some hentry]
    exact Multiset.count_pos.mpr hw

/-! ### Complete runs -/

/-- The driver has processed every chunk once, and the words of each chunk are in the table of the worker
    that processed it. -/
def CompleteRun (mixedHash : Word → UInt64) (file : Buffer) (c capa : ℕ) (s : Shared workers)
    (frequency : Fin workers → TableResult) : Prop :=
  ∃ schedule : Schedule (blockCount file.length c) workers, Progress file c schedule.order s ∧
    TablesCount mixedHash file c capa schedule.order frequency

/-- The tables can be reserved, and there are not too many words for them. -/
structure Moderate (file : Buffer) (capa : ℕ) : Prop where
  length_pos : 0 < file.length
  length_le : file.length / 10 ≤ maxReserve
  capa_le : capa ≤ maxReserve
  words_le : (dummyCount file).keys.card + 3 ≤ 2 ^ 24

namespace CompleteRun

variable {s : Shared workers} {frequency : Fin workers → TableResult} {s' : Shared workers'}
  {frequency' : Fin workers' → TableResult}

/-- A range outside of the buffer ends the program. -/
theorem result_of_fault (h : CompleteRun mixedHash file c capa s frequency) (hc : 0 < c) {fault : Fault}
    (hfault : (processEdges (lower file) (recordedEdges file c)).freq = .error fault) :
    tablesResult mixedHash s frequency = .error fault := by
  obtain ⟨schedule, hprogress, -⟩ := h
  rw [tablesResult, hprogress.data_eq hc schedule.perm, hprogress.chunkEdges_eq hc schedule.perm, hfault]
  rfl

/-- Otherwise the result is a table of the words that chunked counting counts. -/
theorem result_of_valid (h : CompleteRun mixedHash file c capa s frequency) (hc : 0 < c)
    (hmoderate : Moderate file capa) {m : FreqMap}
    (hm : Counts m (chunkedTexts file c)) (hvalid : ∀ r ∈ edgeCalls file c, ValidRange (lower file) r) :
    ∃ t, tablesResult mixedHash s frequency = .ok (.ok t) ∧ Enumerates m t.values := by
  obtain ⟨schedule, hprogress, htables⟩ := h
  have hn := hmoderate.length_pos
  have hwords := hmoderate.words_le
  have hkeys := card_keys_le hc hn hm
  have hcount := (chunkedCount_eq_ok_iff hc hn schedule).mpr ⟨hvalid, hm⟩
  obtain ⟨t, hresult, -, henum⟩ := tablesResult_spec hc hn hmoderate.length_le hmoderate.capa_le schedule
    hprogress htables hcount (by omega)
  exact ⟨t, hresult, henum⟩

/-- What is written depends on the file and on the chunk size alone. -/
theorem output_congr (h : CompleteRun mixedHash file c capa s frequency)
    (h' : CompleteRun mixedHash' file c capa' s' frequency') (hc : 0 < c) (hmoderate : Moderate file capa)
    (hmoderate' : Moderate file capa') (stdSort stdSort' : SortFunction (Word × ℕ)) :
    output stdSort (tablesResult mixedHash s frequency) =
      output stdSort' (tablesResult mixedHash' s' frequency') := by
  cases hfreq : (processEdges (lower file) (recordedEdges file c)).freq with
  | error fault =>
      rw [h.result_of_fault hc hfreq, h'.result_of_fault hc hfreq]
      rfl
  | ok m₀ =>
      have hreplays := processEdges_recorded_replays hc hmoderate.length_pos
      rw [hreplays] at hfreq
      obtain ⟨-, -, hvalid, -⟩ := freq_countRanges_eq_ok_iff.mp hfreq
      obtain ⟨m, hm⟩ := exists_chunkedMap file c
      obtain ⟨t, hresult, henum⟩ := h.result_of_valid hc hmoderate hm hvalid
      obtain ⟨t', hresult', henum'⟩ := h'.result_of_valid hc hmoderate' hm hvalid
      rw [hresult, hresult']
      exact congrArg (Except.ok ∘ Except.ok) (report_congr stdSort stdSort' henum henum')

/-- Without a misfire the report of the word frequency is written exactly when no last letter is lost. -/
theorem output_eq_iff (h : CompleteRun mixedHash file c capa s frequency) (hc : 0 < c)
    (hmoderate : Moderate file capa) (hmisfire : ¬ Misfire file c)
    (stdSort stdSort' : SortFunction (Word × ℕ)) {entries : List (Word × ℕ)}
    (hentries : Enumerates (dummyCount file) entries) :
    output stdSort (tablesResult mixedHash s frequency) = .ok (.ok (report stdSort' entries)) ↔
      ¬ LastLetterLost file c := by
  have hn := hmoderate.length_pos
  have hvalid : ∀ r ∈ edgeCalls file c, ValidRange (lower file) r :=
    fun r hr => validRange_of_isWord (isWord_of_mem_calls hc hn hmisfire hr)
  obtain ⟨m, hm⟩ := exists_chunkedMap file c
  obtain ⟨t, hresult, henum⟩ := h.result_of_valid hc hmoderate hm hvalid
  have hwords := (wordFrequency_of_counts (dummyCount_counts file)).wordCounts
  have hsame := report_eq_iff stdSort stdSort' (wordCounts_of_not_misfire hc hn hmisfire hm) hwords henum
    hentries
  rw [hresult, ← counts_chunkedTexts_iff hc hn hmisfire]
  constructor
  · intro heq
    obtain rfl := hsame.mp (Except.ok.inj (Except.ok.inj heq))
    exact hm
  · intro hcounts
    exact congrArg (Except.ok ∘ Except.ok) (hsame.mpr (hm.unique hcounts))

end CompleteRun

/-! ### The sequential counter -/

theorem processFileDummyTable_eq (hn : file.length < 2 ^ 31) :
    processFileDummyTable mixedHash file = dummyTable mixedHash file := by
  unfold processFileDummyTable
  simp only [IfStream.read_whole hn]
  rw [store_zero_of_length_eq List.length_replicate.symm]

/-- For every file below 2^31 bytes with at most 2^24 - 2 different words, every hash function and every
    sort function: the table of `process_file_dummy` lists the words in the order of their first
    occurrence, each with the number of its occurrences; and what `main` writes for it is read back as
    the word frequency of the file. -/
theorem sequential_output_lists_words (mixedHash : Word → UInt64) (stdSort : SortFunction (Word × ℕ))
    (file : Buffer) (hn : file.length < 2 ^ 31) (hwords : (dummyCount file).keys.card + 2 ≤ 2 ^ 24) :
    ∃ t ranges, processFileDummyTable mixedHash file = .ok t ∧
      (∀ b e, (b, e) ∈ ranges ↔ IsWord file b e) ∧ ranges.Pairwise (fun r r' => r.2 ≤ r'.1) ∧
      (t.values = (texts (lower file) ranges).eraseDups.map fun w =>
        (w, (texts (lower file) ranges).count w)) ∧
      ∃ m, readReport (report stdSort t.values) = some m ∧ WordFrequency file m := by
  have hreserve : file.length / 3 ≤ maxReserve := by
    have hmax : 2 ^ 31 / 3 ≤ maxReserve := by decide
    omega
  obtain ⟨t, hrun, -, hvalues, henum⟩ := dummyTable_spec hreserve hwords
  refine ⟨t, wordList file, ?_, ?_, runList_pairwise _ _ _, ?_, readReport_dummyCount stdSort file henum⟩
  · rw [processFileDummyTable_eq hn]
    exact hrun
  · exact fun _ _ => mem_runList_findIfNot_iff
  · -- The equality test of words is that of lists.
    have hsame : (instBEqOfDecidableEq : BEq Word) = List.instBEq := lawful_beq_subsingleton _ _
    rw [hvalues, putEach_nil_eq, hsame]

/-- The words of `b a b` in their order. -/
theorem sequential_output_lists_words_b_a_b :
    ∃ t m, processFileDummyTable (fun _ => 0) [0x62, 0x20, 0x61, 0x20, 0x62] = .ok t ∧
      readReport (report mergeSort t.values) = some m ∧
      WordFrequency [0x62, 0x20, 0x61, 0x20, 0x62] m := by
  obtain ⟨t, -, hrun, -, -, -, m, hread, hfrequency⟩ := sequential_output_lists_words (fun _ => 0)
    mergeSort [0x62, 0x20, 0x61, 0x20, 0x62] (by decide) (by decide +kernel)
  exact ⟨t, m, hrun, hread, hfrequency⟩

/-! ### The threads -/

theorem PooledProgress.completeRun {threads : ℕ} {finished : List (Task threads)}
    {s : PooledState threads} (h : PooledProgress mixedHash file c finished s) (hthreads : 1 ≤ threads)
    (hjoined : s.pool.main = .joined) :
    CompleteRun mixedHash file c (c / 5) s.tables.read.shared s.tables.frequency := by
  obtain ⟨schedule, rfl⟩ := h.exists_schedule hthreads hjoined
  exact ⟨schedule, h.tables.read.shared, h.tables.frequency⟩

theorem chunkSizeOf_le (config : FreqConfig) (n : ℕ) :
    chunkSizeOf config n ≤ max config.diskPageSize n :=
  (Nat.div_mul_le_self _ _).trans (max_le_max_left _ (Nat.div_le_self _ _))

theorem moderate_chunkSizeOf {config : FreqConfig} (hpage : config.diskPageSize ≤ 2 ^ 31)
    (hn : 1 ≤ file.length) (hn' : file.length < 2 ^ 31)
    (hwords : (dummyCount file).keys.card + 3 ≤ 2 ^ 24) :
    Moderate file (chunkSizeOf config file.length / 5) := by
  have hle := chunkSizeOf_le config file.length
  have hmax : 2 ^ 31 / 5 ≤ maxReserve := by decide
  exact ⟨hn, by omega, by omega, hwords⟩

/-- For every non-empty file below 2^31 bytes with at most 2^24 - 3 different words and every machine with
    pages of at most 2^31 bytes: all complete runs of `process_file_blocking_read`, whatever the interleaving
    of the reads and the `process_chunk` calls of their threads, their hash functions and their sort
    functions, write the same bytes, or all end with the same fault. -/
theorem pooled_output_is_determined (config : FreqConfig) (file : Buffer)
    (hP : 1 ≤ config.diskPageSize) (hN : 1 ≤ config.processorCount)
    (hpage : config.diskPageSize ≤ 2 ^ 31) (hn : 1 ≤ file.length) (hn' : file.length < 2 ^ 31)
    (hwords : (dummyCount file).keys.card + 3 ≤ 2 ^ 24) :
    ∃ chunkSize chunks, planChunks config file.length = .ok (chunkSize, chunks) ∧
      ∀ mixedHash mixedHash' stdSort stdSort' labels labels' s s',
        Run (PooledStep mixedHash file chunkSize chunks)
          (PooledState.init mixedHash config.processorCount file.length chunkSize chunks) labels s →
        Run (PooledStep mixedHash' file chunkSize chunks)
          (PooledState.init mixedHash' config.processorCount file.length chunkSize chunks) labels' s' →
        s.pool.main = .joined → s'.pool.main = .joined →
        output stdSort (tablesResult mixedHash s.tables.read.shared s.tables.frequency) =
          output stdSort' (tablesResult mixedHash' s'.tables.read.shared s'.tables.frequency) := by
  have hc := chunkSizeOf_pos hP file.length
  refine ⟨_, _, planChunks_eq hP hN (hn'.trans (by decide)), ?_⟩
  intro mixedHash mixedHash' stdSort stdSort' labels labels' s s' hrun hrun' hjoined hjoined'
  obtain ⟨finished, h⟩ := PooledProgress.run hN hc hn' hrun
  obtain ⟨finished', h'⟩ := PooledProgress.run hN hc hn' hrun'
  have hmoderate := moderate_chunkSizeOf hpage hn hn' hwords
  exact (h.completeRun hN hjoined).output_congr (h'.completeRun hN hjoined') hc hmoderate hmoderate
    stdSort stdSort'

/-- `ab` on two threads with two hash functions. -/
theorem pooled_output_is_determined_ab :
    ∃ s s' : PooledState 2,
      output mergeSort (tablesResult (fun _ => 0) s.tables.read.shared s.tables.frequency) =
        output mergeSort (tablesResult (fun w => w.length.toUInt64) s'.tables.read.shared
          s'.tables.frequency) := by
  obtain ⟨chunkSize, chunks, hplan, hruns⟩ := pooled_output_is_determined
    ⟨2, 1, by decide, by decide⟩ [0x61, 0x62] (by decide) (by decide) (by decide) (by decide) (by decide)
    (by decide +kernel)
  have hone : planChunks ⟨2, 1, by decide, by decide⟩ 2 = .ok (1, 2) := rfl
  cases Except.ok.inj (hplan.symm.trans hone)
  obtain ⟨s, hrun, hjoined, -⟩ := exists_interleaved_run fun _ => 0
  obtain ⟨s', hrun', hjoined', -⟩ := exists_interleaved_run fun w => w.length.toUInt64
  exact ⟨s, s', hruns _ _ mergeSort mergeSort _ _ s s' hrun hrun' hjoined hjoined'⟩

/-- For such a file and machine: as long as the flag does not misfire, a complete run of that kind writes
    the bytes that are written for `process_file_dummy` exactly when no last letter is lost. -/
theorem pooled_output_is_sequential_iff (mixedHash mixedHash' : Word → UInt64)
    (stdSort stdSort' : SortFunction (Word × ℕ)) (config : FreqConfig) (file : Buffer)
    (hP : 1 ≤ config.diskPageSize) (hN : 1 ≤ config.processorCount)
    (hpage : config.diskPageSize ≤ 2 ^ 31) (hn : 1 ≤ file.length) (hn' : file.length < 2 ^ 31)
    (hwords : (dummyCount file).keys.card + 3 ≤ 2 ^ 24) :
    ∃ chunkSize chunks sequential, planChunks config file.length = .ok (chunkSize, chunks) ∧
      processFileDummyTable mixedHash' file = .ok sequential ∧
      ∀ labels s, Run (PooledStep mixedHash file chunkSize chunks)
          (PooledState.init mixedHash config.processorCount file.length chunkSize chunks) labels s →
        s.pool.main = .joined → ¬ Misfire file chunkSize →
        (output stdSort (tablesResult mixedHash s.tables.read.shared s.tables.frequency) =
            .ok (.ok (report stdSort' sequential.values)) ↔
          ¬ LastLetterLost file chunkSize) := by
  have hc := chunkSizeOf_pos hP file.length
  have hreserve : file.length / 3 ≤ maxReserve := by
    have hmax : 2 ^ 31 / 3 ≤ maxReserve := by decide
    omega
  obtain ⟨t, hrun, -, -, henum⟩ := dummyTable_spec hreserve (Nat.le_of_succ_le hwords)
  refine ⟨_, _, t, planChunks_eq hP hN (hn'.trans (by decide)), ?_, ?_⟩
  · rw [processFileDummyTable_eq hn']
    exact hrun
  · intro labels s hrun hjoined hmisfire
    obtain ⟨finished, h⟩ := PooledProgress.run hN hc hn' hrun
    exact (h.completeRun hN hjoined).output_eq_iff hc (moderate_chunkSizeOf hpage hn hn' hwords) hmisfire
      stdSort stdSort' henum

/-- `ab` in chunks of one byte has no delimiter, so its bytes are those of the sequential counter. -/
theorem pooled_output_is_sequential_ab :
    ∃ (s : PooledState 2) (sequential : FreqTable),
      processFileDummyTable (fun _ => 1) [0x61, 0x62] = .ok sequential ∧
      output mergeSort (tablesResult (fun _ => 0) s.tables.read.shared s.tables.frequency) =
        .ok (.ok (report mergeSort sequential.values)) := by
  obtain ⟨chunkSize, chunks, sequential, hplan, hsequential, hruns⟩ := pooled_output_is_sequential_iff
    (fun _ => 0) (fun _ => 1) mergeSort mergeSort ⟨2, 1, by decide, by decide⟩ [0x61, 0x62] (by decide)
    (by decide) (by decide) (by decide) (by decide) (by decide +kernel)
  have hone : planChunks ⟨2, 1, by decide, by decide⟩ 2 = .ok (1, 2) := rfl
  cases Except.ok.inj (hplan.symm.trans hone)
  obtain ⟨s, hrun, hjoined, -⟩ := exists_interleaved_run fun _ => 0
  have hmisfire : ¬ Misfire [0x61, 0x62] 1 := fun h => h.delim (by decide)
  exact ⟨s, sequential, hsequential, (hruns _ s hrun hjoined hmisfire).mpr (by decide)⟩

/-! ### The kernel -/

theorem AioCounted.completeRun {blkSize : ℕ} {s : AioTableState}
    (h : AioCounted mixedHash file blkSize s) (hleft : s.loop.pc = .left) :
    CompleteRun mixedHash file blkSize (file.length / 3) s.loop.shared fun _ => s.frequency := by
  obtain ⟨schedule, horder⟩ := h.exists_schedule hleft
  refine ⟨schedule, ?_, ?_⟩
  · rw [horder]
    exact h.progress
  · rw [horder]
    exact h.tables

/-- For every file of 4 to 2^32 + 1 bytes with at most 2^24 - 3 different words: when the loop of
    `process_file_aio` is left, whatever the kernel did between two calls of `process_chunk`, the buffer
    holds the lowered file; and as long as the flag does not misfire, the bytes written are those for the
    sequential counter of the loaded file exactly when no last letter is lost. -/
theorem aio_output_is_sequential_iff (mixedHash mixedHash' : Word → UInt64)
    (stdSort stdSort' : SortFunction (Word × ℕ)) (file : Buffer) (h4 : 4 ≤ file.length)
    (hn : file.length ≤ 2 ^ 32 + 1) (hwords : (dummyCount file).keys.card + 3 ≤ 2 ^ 24) :
    ∃ sequential, dummyTable mixedHash' file = .ok sequential ∧
      ∀ labels s, Run (AioTableStep mixedHash file (aioBlockSize file.length))
          (aioTableStart mixedHash file.length (aioBlockSize file.length)) labels s →
        s.loop.pc = .left →
        s.loop.shared.data = lower file ∧
          (¬ Misfire file (aioBlockSize file.length) →
            (output stdSort (tablesResult mixedHash s.loop.shared fun _ => s.frequency) =
                .ok (.ok (report stdSort' sequential.values)) ↔
              ¬ LastLetterLost file (aioBlockSize file.length))) := by
  have hg := aioGeometry h4 hn
  have hmax : (2 ^ 32 + 1) / 3 ≤ maxReserve := by decide
  have hreserve : file.length / 3 ≤ maxReserve := by omega
  have hmoderate : Moderate file (file.length / 3) := ⟨by omega, by omega, hreserve, hwords⟩
  obtain ⟨t, hrun, -, -, henum⟩ := dummyTable_spec hreserve (Nat.le_of_succ_le hwords)
  refine ⟨t, hrun, ?_⟩
  intro labels s hrun hleft
  have hcomplete := (AioCounted.run hg hrun).completeRun hleft
  refine ⟨?_, ?_⟩
  · obtain ⟨schedule, hprogress, -⟩ := hcomplete
    exact hprogress.data_eq hg.blkSize_pos schedule.perm
  · intro hmisfire
    exact hcomplete.output_eq_iff hg.blkSize_pos hmoderate hmisfire stdSort stdSort' henum

/-- `ab c` in blocks of one byte, read out of order. -/
theorem aio_output_is_sequential_ab_c :
    ∃ (s : AioTableState) (sequential : FreqTable), s.loop.shared.data = [0x61, 0x62, 0x20, 0x63] ∧
      dummyTable (fun _ => 1) [0x61, 0x62, 0x20, 0x63] = .ok sequential ∧
      output mergeSort (tablesResult (fun _ => 0) s.loop.shared fun _ => s.frequency) =
        .ok (.ok (report mergeSort sequential.values)) := by
  obtain ⟨sequential, hsequential, hruns⟩ := aio_output_is_sequential_iff (fun _ => 0) (fun _ => 1)
    mergeSort mergeSort [0x61, 0x62, 0x20, 0x63] (by decide) (by decide) (by decide +kernel)
  obtain ⟨u, t, hbefore, hafter, -, -, -, hleft, -⟩ := exists_aio_run
  obtain ⟨frequency, hrun⟩ := exists_tableRun (fun _ => 0)
    ((hbefore.append hafter).mono fun _ _ _ h => h.1) _
  rw [aioBlockSize_ab_c] at hruns
  obtain ⟨hdata, houtput⟩ := hruns _ _ hrun hleft
  have hmisfire : ¬ Misfire [0x61, 0x62, 0x20, 0x63] 1 := fun h => h.delim (by decide)
  exact ⟨_, sequential, hdata, hsequential, (houtput hmisfire).mpr (by decide)⟩

end FreqUtility
