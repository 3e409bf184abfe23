/-
Module: FreqUtility.Proofs.WholeProgram
Layer: Proofs
Purpose: What the program writes, whichever way it was built and on every machine. The report that is written
  reads back as the word frequency of the file exactly when the last letter is not lost, as long as the flag
  of `process_edges` does not misfire; where the file is not cut into chunks nothing can be lost.
Imports: FreqUtility.Core.Program, FreqUtility.Proofs.AioBytes
Trusted boundary: none (fully proved)
Main exports: WordFrequency.unique, Reports, CompleteRun.reports_iff, program_reports_word_frequency_iff
Open obligations: none
-/
import FreqUtility.Core.Program
import FreqUtility.Proofs.AioBytes

namespace FreqUtility

open CountMaps UnorderedDense Sorting Transition

/-- A file has one word frequency. -/
theorem WordFrequency.unique {data : Buffer} {m m' : FreqMap} (h : WordFrequency data m)
    (h' : WordFrequency data m') : m = m' := by
  apply Finmap.ext_lookup
  intro w
  have hiff : w ∈ m ↔ w ∈ m' := (h.mem_iff w).trans (h'.mem_iff w).symm
  cases hlookup : m.lookup w with
  | none =>
      rw [Finmap.lookup_eq_none] at hlookup
      exact (Finmap.lookup_eq_none.mpr fun hmem => hlookup (hiff.mpr hmem)).symm
  | some n =>
      obtain ⟨n', hlookup'⟩ := Finmap.mem_iff.mp (hiff.mp (Finmap.mem_of_lookup_eq_some hlookup))
      rw [hlookup', h.count_words w n hlookup, h'.count_words w n' hlookup']

/-- The program wrote a report, and it reads back as the word frequency of the file. -/
def Reports (file : Buffer) (result : Except Fault (Except TableFault Buffer)) : Prop :=
  ∃ bytes m, result = .ok (.ok bytes) ∧ readReport bytes = some m ∧ WordFrequency file m

variable {file : Buffer} {c capa workers : ℕ} {mixedHash : Word → UInt64}

/-- Without a misfire the word frequency is reported exactly when no last letter is lost. -/
theorem CompleteRun.reports_iff {s : Shared workers} {frequency : Fin workers → TableResult}
    (h : CompleteRun mixedHash file c capa s frequency) (hc : 0 < c) (hmoderate : Moderate file capa)
    (hmisfire : ¬ Misfire file c) (stdSort : SortFunction (Word × ℕ)) :
    Reports file (output stdSort (tablesResult mixedHash s frequency)) ↔ ¬ LastLetterLost file c := by
  have hn := hmoderate.length_pos
  have hvalid : ∀ r ∈ edgeCalls file c, ValidRange (lower file) r :=
    fun r hr => validRange_of_isWord (isWord_of_mem_calls hc hn hmisfire hr)
  obtain ⟨m, hm⟩ := exists_chunkedMap file c
  obtain ⟨t, hresult, henum⟩ := h.result_of_valid hc hmoderate hm hvalid
  have hread := readReport_report stdSort (wordCounts_of_not_misfire hc hn hmisfire hm) henum
  have hfrequency := wordFrequency_of_counts (dummyCount_counts file)
  rw [hresult, ← counts_chunkedTexts_iff hc hn hmisfire]
  constructor
  · rintro ⟨_, m', ⟨⟩, hread', hm'⟩
    have hsame : m = m' := Option.some.inj (hread.symm.trans hread')
    rw [hfrequency.unique hm', ← hsame]
    exact hm
  · intro hcounts
    refine ⟨_, m, rfl, hread, ?_⟩
    rw [hm.unique hcounts]
    exact hfrequency

section

variable {build : Build} {config : FreqConfig}

theorem processorCount_gt (h : getMethod build.hasLibaio config = .processFileBlockingRead) :
    1 < config.processorCount := by
  unfold getMethod at h
  split at h
  · assumption
  · split at h
    · cases h
    · cases h

theorem chunkSizeUsed_of_blockingRead {fileSize chunkSize chunks : ℕ}
    (h : getMethod build.hasLibaio config = .processFileBlockingRead)
    (hplan : planChunks config fileSize = .ok (chunkSize, chunks)) :
    chunkSizeUsed build config fileSize = some chunkSize := by
  simp only [chunkSizeUsed, h, hplan]
  rfl

/-- Where the threads read, the chunk size is that of the plan. -/
theorem exists_planChunks {fileSize chunkSize : ℕ}
    (h : getMethod build.hasLibaio config = .processFileBlockingRead)
    (hused : chunkSizeUsed build config fileSize = some chunkSize) :
    ∃ chunks, planChunks config fileSize = .ok (chunkSize, chunks) := by
  simp only [chunkSizeUsed, h] at hused
  cases hplan : planChunks config fileSize with
  | error fault =>
      rw [hplan] at hused
      cases hused
  | ok plan =>
      rw [hplan] at hused
      cases hused
      exact ⟨plan.2, rfl⟩

theorem chunkSizeUsed_of_aio (h : getMethod build.hasLibaio config = .processFileAio) (fileSize : ℕ) :
    chunkSizeUsed build config fileSize = some (aioBlockSize fileSize) := by
  simp only [chunkSizeUsed, h]

theorem chunkSizeUsed_of_dummy (h : getMethod build.hasLibaio config = .processFileDummy) (fileSize : ℕ) :
    chunkSizeUsed build config fileSize = none := by
  simp only [chunkSizeUsed, h]

end

/-- For every build, every machine with pages of at most 2^31 bytes and every sort function, and every file of
    4 to 2^31 - 1 bytes with at most 2^24 - 3 different words: as long as the flag does not misfire for the
    chunk size that is used, a complete run of the program reports the word frequency of the file exactly when
    no last letter is lost. -/
theorem program_reports_word_frequency_iff (build : Build) (config : FreqConfig)
    (stdSort : SortFunction (Word × ℕ)) (file : Buffer) (hpage : config.diskPageSize ≤ 2 ^ 31)
    (h4 : 4 ≤ file.length) (hn : file.length < 2 ^ 31)
    (hwords : (dummyCount file).keys.card + 3 ≤ 2 ^ 24) :
    ∀ result, ProgramRun build config stdSort file result →
      (∀ c ∈ chunkSizeUsed build config file.length, ¬ Misfire file c) →
      (Reports file result ↔ ∀ c ∈ chunkSizeUsed build config file.length, ¬ LastLetterLost file c) := by
  intro result hrun hmisfire
  have hpos : 1 ≤ file.length := Nat.le_trans (by decide) h4
  cases hrun with
  | blockingRead hmethod hplan hrun hjoined =>
      have hthreads : 1 ≤ config.processorCount := Nat.le_of_lt (processorCount_gt hmethod)
      have hP := diskPageSize_pos_of_planChunks hplan
      have hsize := chunkSizeUsed_of_blockingRead hmethod hplan
      cases Except.ok.inj (hplan.symm.trans (planChunks_eq hP hthreads (hn.trans (by decide))))
      have hc := chunkSizeOf_pos hP file.length
      obtain ⟨finished, h⟩ := (byteProgress_init build.mixedHash _ config.processorCount rfl
        fun _ _ _ => rfl).run hthreads hc hn hrun
      simp only [hsize, Option.mem_some_iff, forall_eq'] at hmisfire ⊢
      exact (h.completeRun hthreads hjoined).reports_iff hc (moderate_chunkSizeOf hpage hpos hn hwords)
        hmisfire stdSort
  | aio hmethod hrun hleft =>
      have hsize := chunkSizeUsed_of_aio hmethod file.length
      have hg := aioGeometry h4 (by omega)
      have hreserve : 2 ^ 31 / 3 ≤ maxReserve := by decide
      have hmoderate : Moderate file (file.length / 3) := ⟨by omega, by omega, by omega, hwords⟩
      simp only [hsize, Option.mem_some_iff, forall_eq'] at hmisfire ⊢
      have hcomplete := (AioByteCounted.run hg hrun).counted.completeRun hleft
      exact hcomplete.reports_iff hg.blkSize_pos hmoderate hmisfire stdSort
  | dummy hmethod =>
      have hsize := chunkSizeUsed_of_dummy hmethod file.length
      have hreserve : 2 ^ 31 / 3 ≤ maxReserve := by decide
      obtain ⟨t, htable, -, -, henum⟩ : ∃ t, dummyTable build.mixedHash file = .ok t ∧ _ :=
        dummyTable_spec (by omega) (Nat.le_of_succ_le hwords)
      obtain ⟨m, hread, hfrequency⟩ := readReport_dummyCount stdSort file henum
      rw [processFileDummyTable_eq hn, htable, hsize]
      exact iff_of_true ⟨_, m, rfl, hread, hfrequency⟩ fun _ hnone => nomatch hnone

/-- A complete run on two threads, with chunks of one byte. -/
theorem exists_threaded_run :
    ∃ result, ProgramRun ⟨true, false⟩ ⟨2, 1, by decide, by decide⟩ mergeSort [0x61, 0x62, 0x20, 0x63]
      result := by
  have hplan : planChunks ⟨2, 1, by decide, by decide⟩ ([0x61, 0x62, 0x20, 0x63] : Buffer).length =
      .ok (1, 4) := rfl
  obtain ⟨labels, s, hrun, hjoined⟩ := exists_complete_unheld_run (Build.mixedHash ⟨true, false⟩)
    (Nat.le_refl 1) (Nat.le_succ 1) (by decide) hplan
  exact ⟨_, .blockingRead rfl hplan hrun hjoined⟩

/-- A complete run with `libaio` on one processor. -/
theorem exists_libaio_run :
    ∃ result, ProgramRun ⟨true, true⟩ ⟨1, 1, by decide, by decide⟩ mergeSort [0x61, 0x62, 0x20, 0x63]
      result := by
  obtain ⟨s, ⟨labels, hrun⟩, hleft⟩ := exists_lossless_run
  exact ⟨_, .aio rfl (by rw [aioBlockSize_ab_c]; exact hrun) hleft⟩

/-- The report of `ab c`, on two threads and with `libaio`. -/
theorem program_reports_word_frequency_ab_c :
    (∃ result, ProgramRun ⟨true, false⟩ ⟨2, 1, by decide, by decide⟩ mergeSort [0x61, 0x62, 0x20, 0x63]
        result ∧ Reports [0x61, 0x62, 0x20, 0x63] result) ∧
      ∃ result, ProgramRun ⟨true, true⟩ ⟨1, 1, by decide, by decide⟩ mergeSort [0x61, 0x62, 0x20, 0x63]
        result ∧ Reports [0x61, 0x62, 0x20, 0x63] result := by
  have hmisfire : ¬ Misfire [0x61, 0x62, 0x20, 0x63] 1 := fun h => h.delim (by decide)
  have hlast : ¬ LastLetterLost [0x61, 0x62, 0x20, 0x63] 1 := by decide
  have hthreaded : chunkSizeUsed ⟨true, false⟩ ⟨2, 1, by decide, by decide⟩ 4 = some 1 := rfl
  have hlibaio : chunkSizeUsed ⟨true, true⟩ ⟨1, 1, by decide, by decide⟩ 4 = some 1 := by decide
  obtain ⟨result, hrun⟩ := exists_threaded_run
  obtain ⟨result', hrun'⟩ := exists_libaio_run
  refine ⟨⟨result, hrun, ?_⟩, ⟨result', hrun', ?_⟩⟩
  · refine (program_reports_word_frequency_iff _ _ _ _ (by decide) (by decide) (by decide)
      (by decide +kernel) result hrun ?_).mpr ?_
    · rintro c hc
      exact Option.some.inj (hthreaded.symm.trans hc) ▸ hmisfire
    · rintro c hc
      exact Option.some.inj (hthreaded.symm.trans hc) ▸ hlast
  · refine (program_reports_word_frequency_iff _ _ _ _ (by decide) (by decide) (by decide)
      (by decide +kernel) result' hrun' ?_).mpr ?_
    · rintro c hc
      exact Option.some.inj (hlibaio.symm.trans hc) ▸ hmisfire
    · rintro c hc
      exact Option.some.inj (hlibaio.symm.trans hc) ▸ hlast

end FreqUtility
