/-
Module: FreqUtility.Proofs.Report
Layer: Proofs
Purpose: The report and the frequency map determine each other. The comparator of `main` is a strict total
  order (`strictTotal_entryLess`), so neither the iteration order of the hash map nor the choice of the
  sort algorithm shows in the output; and cutting the output into lines gives the map back.
Imports: FreqUtility.Core.Main, FreqUtility.Spec.Report, FreqUtility.Proofs.WordFrequency
Trusted boundary: none (fully proved)
Main exports: entryLess_iff, strictTotal_entryLess, lineOf, pieces_report, readReport_report,
  readReport_dummyCount, report_determines_map
Open obligations: none
-/
import FreqUtility.Core.Main
import FreqUtility.Spec.Report
import FreqUtility.Proofs.WordFrequency

namespace FreqUtility

open Sorting Text CountMaps

variable {m m' : FreqMap} {entries entries' : List (Word × ℕ)}

/-! ### The comparator -/

theorem strictTotal_byteLess : StrictTotal fun x y : UInt8 => decide (x < y) := by
  have hvalue : StrictTotal fun x y : UInt8 => decide (x.toNat < y.toNat) :=
    StrictTotal.of_lt.comap fun _ _ h => UInt8.toNat_inj.mp h
  simpa only [UInt8.lt_iff_toNat_lt] using hvalue

theorem strictTotal_stringLess : StrictTotal stringLess := strictTotal_byteLess.lex

theorem stringLess_iff {u v : Word} : stringLess u v = true ↔ u < v := by
  rw [stringLess, lexLess_iff strictTotal_byteLess]
  simp only [decide_eq_true_eq]
  rfl

/-- Exchanging the counts only turns the order of the counts around. -/
theorem entryLess_eq (p q : Word × ℕ) :
    entryLess p q = tieLess (fun x y => decide (y < x)) stringLess p.swap q.swap := rfl

theorem strictTotal_entryLess : StrictTotal entryLess := by
  have hcounts : StrictTotal fun x y : ℕ => decide (y < x) := StrictTotal.of_lt.flip
  exact (hcounts.tie strictTotal_stringLess).comap Prod.swap_injective

/-- The comparator puts the entries into the order of the report. -/
theorem entryLess_iff {p q : Word × ℕ} : entryLess p q = true ↔ ReportOrder p q := by
  have hcounts : StrictTotal fun x y : ℕ => decide (y < x) := StrictTotal.of_lt.flip
  rw [entryLess_eq, tieLess_iff hcounts, decide_eq_true_eq, stringLess_iff]
  rfl

/-! ### The lines -/

/-- A line without its end. -/
def lineOf (entry : Word × ℕ) : Buffer := decimal entry.2 ++ 0x20 :: entry.1

/-- The output consists of lines. -/
theorem report_eq_terminate (stdSort : SortFunction (Word × ℕ)) (entries : List (Word × ℕ)) :
    report stdSort entries = terminate 0x0A ((stdSort.sort entryLess entries).map lineOf) := by
  rw [report, terminate, List.flatMap_map]
  apply congrArg (List.flatMap · _)
  funext entry
  change decimal entry.2 ++ [0x20] ++ entry.1 ++ [0x0A] = decimal entry.2 ++ 0x20 :: entry.1 ++ [0x0A]
  simp only [List.append_assoc, List.cons_append, List.nil_append]

theorem newline_not_mem_lineOf {entry : Word × ℕ} (h : LowerCaseWord entry.1) :
    0x0A ∉ lineOf entry := by
  intro hmem
  rcases List.mem_append.mp hmem with hdigit | hrest
  · exact absurd (mem_decimal hdigit).1 (by decide)
  · rcases List.mem_cons.mp hrest with hblank | hletter
    · exact absurd hblank (by decide)
    · exact absurd (h.2 _ hletter).1 (by decide)

/-- A line is read back as its entry. -/
theorem readLine_lineOf (entry : Word × ℕ) : readLine (lineOf entry) = some entry := by
  have hblank : (0x20 : UInt8) ∉ decimal entry.2 := by
    intro hdigit
    exact absurd (mem_decimal hdigit).1 (by decide)
  rw [readLine, lineOf, cut_append hblank]
  simp only [Option.bind_eq_bind, Option.bind_some, readDecimal_decimal]
  rfl

/-! ### Writing and reading -/

section report

variable (stdSort stdSort' : SortFunction (Word × ℕ))

/-- The entries as they are written. -/
theorem enumerates_sorted (h : Enumerates m entries) :
    Enumerates m (stdSort.sort entryLess entries) :=
  h.of_perm (stdSort.perm entryLess entries strictTotal_entryLess.strictWeak)

/-- The lines of the output are the sorted entries. -/
theorem pieces_report (hm : WordCounts m) (h : Enumerates m entries) :
    pieces 0x0A (report stdSort entries) = (stdSort.sort entryLess entries).map lineOf := by
  rw [report_eq_terminate]
  apply pieces_terminate
  intro line hline
  obtain ⟨⟨w, n⟩, hentry, rfl⟩ := List.mem_map.mp hline
  exact newline_not_mem_lineOf (hm w n (((enumerates_sorted stdSort h).mem_iff w n).mp hentry)).1

/-- Reading the report gives the map back. -/
theorem readReport_report (hm : WordCounts m) (h : Enumerates m entries) :
    readReport (report stdSort entries) = some m := by
  have hread : ((stdSort.sort entryLess entries).map lineOf).mapM readLine =
      some (stdSort.sort entryLess entries) :=
    mapM_map_eq_some fun entry _ => readLine_lineOf entry
  rw [readReport, pieces_report stdSort hm h, hread]
  simp only [Option.bind_eq_bind, Option.bind_some, (enumerates_sorted stdSort h).ofEntries_eq]
  rfl

/-- Neither the iteration order nor the sort algorithm shows in the output. -/
theorem report_congr (h : Enumerates m entries) (h' : Enumerates m entries') :
    report stdSort entries = report stdSort' entries' := by
  rw [report, report, stdSort.sort_eq_of_perm stdSort' strictTotal_entryLess (h.perm h')]

/-- Two maps have the same report exactly when they are the same. -/
theorem report_eq_iff (hm : WordCounts m) (hm' : WordCounts m') (h : Enumerates m entries)
    (h' : Enumerates m' entries') :
    report stdSort entries = report stdSort' entries' ↔ m = m' := by
  constructor
  · intro hsame
    have hread := readReport_report stdSort hm h
    rw [hsame, readReport_report stdSort' hm' h'] at hread
    exact (Option.some.inj hread).symm
  · rintro rfl
    exact report_congr stdSort stdSort' h h'

/-- The entries are written in the order of the report. -/
theorem sorted_entries (h : Enumerates m entries) :
    (stdSort.sort entryLess entries).Pairwise ReportOrder :=
  (stdSort.sorted_less strictTotal_entryLess h.nodup_entries).imp entryLess_iff.mp

/-! ### The report of the sequential counter -/

/-- A word frequency can be reported. -/
theorem WordFrequency.wordCounts {data : Buffer} (h : WordFrequency data m) : WordCounts m := by
  intro w n hentry
  obtain ⟨b, e, hword, rfl⟩ := (h.mem_iff w).mp (Finmap.mem_of_lookup_eq_some hentry)
  refine ⟨wordText_lowerCaseWord hword, ?_⟩
  rw [h.count_words _ n hentry]
  exact Finset.card_pos.mpr ⟨(b, e), Finset.mem_filter.mpr ⟨mem_words.mpr hword, rfl⟩⟩

/-- What `main` writes for `process_file_dummy` is read back as the word frequency of the file. -/
theorem readReport_dummyCount (file : Buffer) (h : Enumerates (dummyCount file) entries) :
    ∃ m, readReport (report stdSort entries) = some m ∧ WordFrequency file m := by
  have hfrequency := wordFrequency_of_counts (dummyCount_counts file)
  exact ⟨dummyCount file, readReport_report stdSort hfrequency.wordCounts h, hfrequency⟩

end report

/-- For every map of words to positive counts: the comparator is a strict total order; for every iteration
    order of the map, the lines of the output are a permutation of the entries, in non-increasing count
    and strictly increasing word order within equal counts, and reading them gives the map back; and two
    outputs, from any iteration orders and sort functions, are equal exactly when the maps are. -/
theorem report_determines_map (stdSort : SortFunction (Word × ℕ)) (m : FreqMap) (hm : WordCounts m) :
    StrictTotal entryLess ∧
      (∃ entries, Enumerates m entries) ∧
      (∀ entries, Enumerates m entries →
        (∃ written : List (Word × ℕ), written.Perm entries ∧ written.Pairwise ReportOrder ∧
          pieces 0x0A (report stdSort entries) = written.map lineOf) ∧
        readReport (report stdSort entries) = some m) ∧
      ∀ (stdSort' : SortFunction (Word × ℕ)) (m' : FreqMap), WordCounts m' →
        ∀ entries entries', Enumerates m entries → Enumerates m' entries' →
          (report stdSort entries = report stdSort' entries' ↔ m = m') := by
  refine ⟨strictTotal_entryLess, exists_enumerates m, ?_, ?_⟩
  · intro entries h
    exact ⟨⟨stdSort.sort entryLess entries,
      stdSort.perm entryLess entries strictTotal_entryLess.strictWeak, sorted_entries stdSort h,
      pieces_report stdSort hm h⟩, readReport_report stdSort hm h⟩
  · intro stdSort' m' hm' entries entries' h h'
    exact report_eq_iff stdSort stdSort' hm hm' h h'

/-- `b` once and `a` twice: both iteration orders give one report, and it is read back. -/
theorem report_determines_map_a_b :
    report mergeSort [([0x62], 1), ([0x61], 2)] = report mergeSort [([0x61], 2), ([0x62], 1)] ∧
      readReport (report mergeSort [([0x62], 1), ([0x61], 2)]) =
        some (ofEntries [([0x62], 1), ([0x61], 2)]) := by
  have h : Enumerates (ofEntries [(([0x62] : Word), 1), ([0x61], 2)]) [([0x62], 1), ([0x61], 2)] :=
    enumerates_ofEntries (by decide)
  have h' : Enumerates (ofEntries [(([0x62] : Word), 1), ([0x61], 2)]) [([0x61], 2), ([0x62], 1)] :=
    h.of_perm (List.Perm.swap _ _ _)
  have hm : WordCounts (ofEntries [(([0x62] : Word), 1), ([0x61], 2)]) := by
    intro w n hentry
    rcases List.mem_pair.mp ((h.mem_iff w n).mpr hentry) with heq | heq
    · cases heq
      exact ⟨⟨List.cons_ne_nil _ _, List.forall_mem_singleton.mpr (by decide)⟩, by decide⟩
    · cases heq
      exact ⟨⟨List.cons_ne_nil _ _, List.forall_mem_singleton.mpr (by decide)⟩, by decide⟩
  obtain ⟨-, -, hone, htwo⟩ := report_determines_map mergeSort _ hm
  exact ⟨(htwo mergeSort _ hm _ _ h h').mpr rfl, (hone _ h).2⟩

end FreqUtility
