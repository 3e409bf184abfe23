/-
Module: FreqUtility.Proofs.LostLetter
Layer: Proofs
Purpose: What a lost byte means for the program. A complete run may lose any letter of the file that is cut
  into chunks, with threads as well as with `libaio`; it then reports the word frequency of the file
  without that letter, and that is never the word frequency of the file.
Imports: FreqUtility.Proofs.LostByte, FreqUtility.Proofs.LostAioByte, FreqUtility.Proofs.WholeProgram
Trusted boundary: none (fully proved)
Main exports: not_reports_of_lost, ProgramRun.interleaved, any_letter_may_be_missing
Open obligations: none
-/
import FreqUtility.Proofs.LostByte
import FreqUtility.Proofs.LostAioByte
import FreqUtility.Proofs.WholeProgram

namespace FreqUtility

open Blocks UnorderedDense Sorting Transition

variable {file : Buffer} {p : ℕ} {build : Build} {config : FreqConfig} {stdSort : SortFunction (Word × ℕ)}
  {result : Except Fault (Except TableFault Buffer)}

/-! ### The letters of a report -/

/-- The letters of the file without one of them. -/
theorem countP_set_zero (hp : p < file.length) (halpha : isAlpha (byteAt file p) = true) :
    (file.set p 0).countP isAlpha + 1 = file.countP isAlpha := by
  have hbyte : byteAt file p = file[p] := by rw [byteAt, List.getElem?_eq_getElem hp, Option.getD_some]
  rw [hbyte] at halpha
  have hpos : 0 < file.countP isAlpha := List.countP_pos_iff.mpr ⟨_, List.getElem_mem hp, halpha⟩
  have hzero : isAlpha 0 = false := by decide
  rw [List.countP_set hp, if_pos halpha, hzero, if_neg Bool.false_ne_true]
  omega

/-- A report has as many letters as the file, so it is not that of a file with a letter less. -/
theorem not_reports_of_lost (hp : p < file.length) (halpha : isAlpha (byteAt file p) = true)
    (h : Reports (file.set p 0) result) : ¬ Reports file result := by
  obtain ⟨bytes, m, rfl, hread, hlost⟩ := h
  rintro ⟨_, m', ⟨⟩, hread', hall⟩
  obtain rfl := Option.some.inj (hread.symm.trans hread')
  have hletters := hlost.letters.symm.trans hall.letters
  have hless := countP_set_zero hp halpha
  omega

/-! ### The runs of the program -/

/-- The runs in which nothing is lost are runs of the program. -/
theorem ProgramRun.interleaved (h : ProgramRun build config stdSort file result) :
    InterleavedRun build config stdSort file result := by
  cases h with
  | blockingRead hmethod hplan hrun hjoined =>
      exact .blockingRead hmethod hplan (hrun.mono fun _ _ _ hstep => hstep.1) hjoined
  | aio hmethod hrun hleft => exact .aio hmethod (hrun.mono fun _ _ _ hstep => hstep.1) hleft
  | dummy hmethod => exact .dummy hmethod

/-- For every build, every machine and every sort function, every file of 4 to 2^31 - 1 bytes that is cut into
    at least two chunks, and every letter of it: if the file without that letter has at most 2^24 - 3
    different words and its borders are counted correctly, some complete run of the program reports the word
    frequency of the file without the letter, and not that of the file. -/
theorem any_letter_may_be_missing (build : Build) (config : FreqConfig) (stdSort : SortFunction (Word × ℕ))
    (file : Buffer) (h4 : 4 ≤ file.length) (hn : file.length < 2 ^ 31) :
    ∀ c ∈ chunkSizeUsed build config file.length, 2 ≤ blockCount file.length c →
      ∀ p, p < file.length → isAlpha (byteAt file p) = true →
        (dummyCount (file.set p 0)).keys.card + 3 ≤ 2 ^ 24 → ¬ Misfire (file.set p 0) c →
        ¬ LastLetterLost (file.set p 0) c →
        ∃ result, InterleavedRun build config stdSort file result ∧ Reports (file.set p 0) result ∧
          ¬ Reports file result := by
  intro c hused hchunks p hp halpha hwords hmisfire hlast
  have hset : (file.set p 0).length = file.length := List.length_set
  have hpos : 1 ≤ file.length := Nat.le_trans (by decide) h4
  -- A run that reports the file without the letter is enough.
  suffices hrun : ∃ result, InterleavedRun build config stdSort file result ∧ Reports (file.set p 0) result by
    obtain ⟨result, hrun, hreports⟩ := hrun
    exact ⟨result, hrun, hreports, not_reports_of_lost hp halpha hreports⟩
  cases hmethod : getMethod build.hasLibaio config with
  | processFileBlockingRead =>
      have hthreads : 2 ≤ config.processorCount := processorCount_gt hmethod
      have hone : 1 ≤ config.processorCount := Nat.one_le_of_lt hthreads
      obtain ⟨chunks, hplan⟩ := exists_planChunks hmethod hused
      have hP := diskPageSize_pos_of_planChunks hplan
      cases Except.ok.inj (hplan.symm.trans (planChunks_eq hP hone (hn.trans (by decide))))
      have hc := chunkSizeOf_pos hP file.length
      -- A page is not larger than a chunk, and the first chunk is not the whole file.
      have hpage : config.diskPageSize ≤ 2 ^ 31 := by
        have hlt := (one_lt_blockCount_iff hc).mp hchunks
        have hle := diskPageSize_le_chunkSizeOf hP file.length
        omega
      obtain ⟨labels, s, finished, hrun, hjoined, h⟩ :=
        exists_losing_run build.mixedHash hthreads hc hn hchunks hp
      have hmoderate : Moderate (file.set p 0) (chunkSizeOf config file.length / 5) := by
        rw [← hset] at hpos hn
        have hmoderate := moderate_chunkSizeOf hpage hpos hn hwords
        rwa [hset] at hmoderate
      exact ⟨_, .blockingRead hmethod hplan hrun hjoined,
        ((h.completeRun hone hjoined).reports_iff hc hmoderate hmisfire stdSort).mpr hlast⟩
  | processFileAio =>
      obtain rfl := Option.some.inj ((chunkSizeUsed_of_aio hmethod file.length).symm.trans hused)
      obtain ⟨labels, s, hrun, hleft, h⟩ := exists_losing_aio_run build.mixedHash h4 (by omega) hp
      have hreserve : 2 ^ 31 / 3 ≤ maxReserve := by decide
      have hmoderate : Moderate (file.set p 0) ((file.set p 0).length / 3) := by
        rw [hset]
        exact ⟨by omega, by omega, by omega, hwords⟩
      exact ⟨_, .aio hmethod hrun hleft, ((h.counted.completeRun hleft).reports_iff
        (aioGeometry h4 (by omega)).blkSize_pos hmoderate hmisfire stdSort).mpr hlast⟩
  | processFileDummy =>
      rw [chunkSizeUsed_of_dummy hmethod] at hused
      cases hused

/-- In `ab c` the letter `b` can be missing: two threads, chunks of one byte. -/
theorem any_letter_may_be_missing_ab_c :
    ∃ result, InterleavedRun ⟨true, false⟩ ⟨2, 1, by decide, by decide⟩ mergeSort [0x61, 0x62, 0x20, 0x63]
        result ∧
      Reports [0x61, 0, 0x20, 0x63] result ∧ ¬ Reports [0x61, 0x62, 0x20, 0x63] result := by
  have hplan : planChunks ⟨2, 1, by decide, by decide⟩ ([0x61, 0x62, 0x20, 0x63] : Buffer).length =
      .ok (1, 4) := rfl
  have hsize : chunkSizeUsed ⟨true, false⟩ _ _ = some 1 := chunkSizeUsed_of_blockingRead rfl hplan
  have hmisfire : ¬ Misfire [0x61, 0, 0x20, 0x63] 1 := fun h => h.delim (by decide)
  exact any_letter_may_be_missing ⟨true, false⟩ ⟨2, 1, by decide, by decide⟩ mergeSort
    [0x61, 0x62, 0x20, 0x63] (by decide) (by decide) 1 hsize (by decide) 1 (by decide) (by decide)
    (by decide +kernel) hmisfire (by decide)

end FreqUtility
