/-
Module: FreqUtility.Proofs.CountedRanges
Layer: Proofs
Purpose: What the ranges passed to `count_word` are, and when they are what they should be. Every range of
  `process_chunk` is a word, and so is every range of `process_edges` unless the one-word flag misfires;
  a misfire still counts a real word exactly in files of one delimiter between letters
  (`OneWordAfterDelim`). The word at the start and the word at the end of the file are counted once
  each, unless the flag misfires or the last letter is lost; the exceptions are listed exactly.
Imports: FreqUtility.Proofs.Totals
Trusted boundary: none (fully proved)
Main exports: RealWord, OneWordAfterDelim, CountedOnce, EndsCounted, every_counted_range_is_a_word_iff,
  first_and_last_word_counted_iff
Open obligations: none
-/
import FreqUtility.Proofs.Totals

namespace FreqUtility

open RangeScan MaximalRuns Blocks CountMaps

variable {file : Buffer} {c workers b e : ℕ}

/-! ### Ranges of letters -/

/-- The range lies in the buffer, is not empty and holds letters only. -/
structure RealWord (data : Buffer) (r : ℕ × ℕ) : Prop where
  nonempty : r.1 < r.2
  le_length : r.2 ≤ data.length
  letters : ∀ i, r.1 ≤ i → i < r.2 → delimAt data i = false

theorem RealWord.of_isWord {r : ℕ × ℕ} (h : IsWord file r.1 r.2) : RealWord (lower file) r where
  nonempty := h.nonempty
  le_length := by
    rw [length_lower]
    exact h.le_stop
  letters := by
    intro i hb he
    rw [delimAt_lower]
    exact h.inside i he hb

theorem RealWord.validRange {data : Buffer} {r : ℕ × ℕ} (h : RealWord data r) : ValidRange data r :=
  ⟨Nat.le_of_lt h.nonempty, h.le_length⟩

theorem RealWord.lowerCaseWord {r : ℕ × ℕ} (h : RealWord (lower file) r) :
    LowerCaseWord (slice (lower file) r.1 r.2) := by
  constructor
  · intro hnil
    have hlength : (slice (lower file) r.1 r.2).length = r.2 - r.1 := length_slice h.le_length
    rw [hnil, List.length_nil] at hlength
    have := h.nonempty
    omega
  · intro x hx
    obtain ⟨i, hb, he, rfl⟩ := exists_of_mem_slice hx
    have hletter := h.letters i hb he
    rw [delimAt, isDelim, Bool.not_eq_false', byteAt_lower] at hletter
    rw [byteAt_lower]
    exact isAlpha_lower_range hletter

theorem realWord_of_mem_innerAll (hc : 0 < c) {r : ℕ × ℕ} (h : r ∈ innerAll file c) :
    RealWord (lower file) r := by
  obtain ⟨k, -, hword⟩ := (mem_innerAll_iff hc).mp h
  exact RealWord.of_isWord hword.isWord

/-- Without a misfire every call of `process_edges` takes a word. -/
theorem isWord_of_mem_calls (hc : 0 < c) (hn : 0 < file.length) (h : ¬ Misfire file c) {r : ℕ × ℕ}
    (hr : r ∈ (processEdges (lower file) (recordedEdges file c)).calls) : IsWord file r.1 r.2 := by
  rw [processEdges_of_not_misfire hc hn h, calls_countRanges] at hr
  refine (mem_allRanges_iff hc hn).mp (List.mem_append_right _ ?_)
  rcases List.mem_append.mp hr with hnil | hr
  · exact absurd hnil (by simp [Tally.empty])
  · rcases List.mem_append.mp hr with hborder | htail
    · exact List.mem_append_left _ hborder
    · split at htail
      · exact absurd htail (by simp)
      · exact List.mem_append_right _ htail

/-! ### The range of a misfire -/

/-- The first delimiter of the file. -/
theorem exists_firstDelim_of_misfire (h : Misfire file c) (hc : 0 < c) :
    ∃ d, IsFirstDelim file c 0 d ∧ delimAt file d = true ∧ d < file.length ∧
      ∀ i, i < d → delimAt file i = false := by
  have hpos := blockCount_pos hc (Nat.lt_trans hc h.chunks)
  have hfirst := isFirstDelim_findIf hc hpos h.delim
  exact ⟨_, hfirst, hfirst.delim, hfirst.lt_length, fun i hi => hfirst.before i (by omega) hi⟩

/-- Letters, one delimiter, at least one letter, then delimiters up to the end of the file. -/
structure OneWordAfterDelim (file : Buffer) (d e : ℕ) : Prop where
  before : ∀ i, i < d → delimAt file i = false
  delim : delimAt file d = true
  nonempty : d + 1 < e
  le_length : e ≤ file.length
  letters : ∀ i, d < i → i < e → delimAt file i = false
  after : ∀ i, e ≤ i → i < file.length → delimAt file i = true

/-- In such a file the last letter is the one before `e`. -/
theorem OneWordAfterDelim.findIfNotRev_eq {d : ℕ} (h : OneWordAfterDelim file d e) :
    findIfNotRev (delimAt file) 0 file.length = e := by
  have hne := h.nonempty
  refine findIfRev_eq (Nat.zero_le _) h.le_length ?_ ?_
  · intro i hi hn
    rw [h.after i hi hn]
    rfl
  · intro _
    rw [h.letters (e - 1) (by omega) (by omega)]
    rfl

/-- Two descriptions of the same file agree on the first delimiter. -/
theorem eq_of_first_delim {d d' : ℕ} (hdelim : delimAt file d = true)
    (hbefore : ∀ i, i < d → delimAt file i = false) (hdelim' : delimAt file d' = true)
    (hbefore' : ∀ i, i < d' → delimAt file i = false) : d = d' := by
  rcases Nat.lt_trichotomy d d' with hlt | heq | hgt
  · exact absurd hdelim (ne_true_of_eq_false (hbefore' d hlt))
  · exact heq
  · exact absurd hdelim' (ne_true_of_eq_false (hbefore d' hgt))

/-- A misfire counts a real word exactly in files of one delimiter between letters. -/
theorem realWord_misfire_iff {d : ℕ} (hdelim : delimAt file d = true)
    (hbefore : ∀ i, i < d → delimAt file i = false) :
    RealWord (lower file) (d + 1, findIfNotRev (delimAt file) 0 file.length) ↔
      ∃ d e, OneWordAfterDelim file d e := by
  constructor
  · intro h
    have hlength := h.le_length
    rw [length_lower] at hlength
    refine ⟨d, _, hbefore, hdelim, h.nonempty, hlength, ?_, ?_⟩
    · intro i hd he
      rw [← delimAt_lower]
      exact h.letters i hd he
    · intro i he hn
      exact findIfNotRev_skipped he hn
  · rintro ⟨d', e, h⟩
    have heq := eq_of_first_delim hdelim hbefore h.delim h.before
    subst heq
    rw [h.findIfNotRev_eq]
    refine ⟨h.nonempty, ?_, ?_⟩
    · rw [length_lower]
      exact h.le_length
    · intro i hd he
      rw [delimAt_lower]
      exact h.letters i hd he

/-! ### Every counted range is a word -/

/-- The state of a chunked run after all tasks, up to the distribution over the workers. -/
theorem chunkRun_spec (hc : 0 < c) (file : Buffer)
    (schedule : Schedule (blockCount file.length c) workers) :
    let s := chunkRun c schedule.order (Shared.init workers file (blockCount file.length c))
    s.data = lower file ∧ s.chunkEdges = recordedEdges file c ∧
      ∀ t, s.frequency t =
        countRanges (lower file) Tally.empty (workerRanges file c schedule.order t) := by
  intro s
  have hprogress := Progress.schedule hc file schedule
  exact ⟨hprogress.data_eq hc schedule.perm, hprogress.chunkEdges_eq hc schedule.perm,
    hprogress.frequency⟩

theorem processEdges_recorded_replays (hc : 0 < c) (hn : 0 < file.length) :
    (processEdges (lower file) (recordedEdges file c)).Replays (lower file) := by
  apply processEdges_replays
  intro hnil
  have hlength := length_recordedEdges hc file
  rw [hnil, List.length_nil] at hlength
  exact absurd hlength (Nat.ne_of_lt (blockCount_pos hc hn))

/-- What a worker counts is part of what all workers count. -/
theorem mem_innerAll_of_mem_workerRanges {finished : List (Task workers)}
    (hall : (finished.map Prod.fst).Perm (List.range (blockCount file.length c))) {t : Fin workers}
    {r : ℕ × ℕ} (h : r ∈ workerRanges file c finished t) : r ∈ innerAll file c :=
  (sum_workerRanges hall).subset (List.mem_flatMap.mpr ⟨t, List.mem_finRange t, h⟩)

theorem validRange_of_mem_workerRanges (hc : 0 < c) {finished : List (Task workers)}
    (hall : (finished.map Prod.fst).Perm (List.range (blockCount file.length c))) (t : Fin workers) :
    ∀ r ∈ workerRanges file c finished t, ValidRange (lower file) r :=
  fun _ hr => (realWord_of_mem_innerAll hc (mem_innerAll_of_mem_workerRanges hall hr)).validRange

/-- The calls of `process_edges` all take words, or the one call of a misfire does. -/
theorem realWord_calls_iff (hc : 0 < c) (hn : 0 < file.length) :
    (∀ r ∈ (processEdges (lower file) (recordedEdges file c)).calls, RealWord (lower file) r) ↔
      ¬ Misfire file c ∨ ∃ d e, OneWordAfterDelim file d e := by
  by_cases hmisfire : Misfire file c
  · obtain ⟨d, hfirst, hdelim, -, hbefore⟩ := exists_firstDelim_of_misfire hmisfire hc
    rw [processEdges_of_misfire hc hmisfire hfirst, ← realWord_misfire_iff hdelim hbefore]
    simp [Tally.empty, hmisfire]
  · constructor
    · exact fun _ => Or.inl hmisfire
    · exact fun _ r hr => RealWord.of_isWord (isWord_of_mem_calls hc hn hmisfire hr)

/-- When every call takes a word, the maps can be added and every key is a word in lower case. -/
theorem finish_lowerCase {s : Shared workers} {calls : List (ℕ × ℕ)}
    {ranges : Fin workers → List (ℕ × ℕ)}
    (hedges : processEdges s.data s.chunkEdges = countRanges (lower file) Tally.empty calls)
    (hfrequency : ∀ t, s.frequency t = countRanges (lower file) Tally.empty (ranges t))
    (hcalls : ∀ r ∈ calls, RealWord (lower file) r)
    (hranges : ∀ t, ∀ r ∈ ranges t, RealWord (lower file) r) :
    ∃ freq, finish s = .ok freq ∧ ∀ w ∈ freq, LowerCaseWord w := by
  have hcounts := Counts.empty.countAll
    (texts (lower file) (calls ++ (List.finRange workers).flatMap ranges))
  rw [zero_add, texts_append, ← Multiset.coe_add] at hcounts
  refine ⟨_, (finish_eq_ok_iff hedges hfrequency fun t r hr => (hranges t r hr).validRange).mpr
    ⟨fun r hr => (hcalls r hr).validRange, hcounts⟩, ?_⟩
  intro w hw
  rcases Multiset.mem_add.mp (hcounts.mem_iff.mp hw) with hmem | hmem
  · obtain ⟨r, hr, rfl⟩ := List.mem_map.mp (Multiset.mem_coe.mp hmem)
    exact (hcalls r hr).lowerCaseWord
  · obtain ⟨r, hr, rfl⟩ := List.mem_map.mp (Multiset.mem_coe.mp hmem)
    obtain ⟨t, -, hr⟩ := List.mem_flatMap.mp hr
    exact (hranges t r hr).lowerCaseWord

/-- Every call of `count_word`, by `process_chunk` or by `process_edges`, takes a non-empty range of
    letters inside the buffer, no string view underflows and every key of the result is a non-empty
    string over `a` to `z`, exactly when the one-word flag does not misfire or the file is one
    delimiter between letters, followed by delimiters only. -/
theorem every_counted_range_is_a_word_iff (file : Buffer) (c : ℕ) (hc : 0 < c)
    (hn : 0 < file.length) {workers : ℕ}
    (schedule : Schedule (blockCount file.length c) workers) :
    let s := chunkRun c schedule.order (Shared.init workers file (blockCount file.length c))
    ((∀ t, ∀ r ∈ (s.frequency t).calls, RealWord s.data r) ∧
        (∀ r ∈ (processEdges s.data s.chunkEdges).calls, RealWord s.data r) ∧
        ∃ freq, finish s = .ok freq ∧ ∀ w ∈ freq, LowerCaseWord w) ↔
      ¬ Misfire file c ∨ ∃ d e, OneWordAfterDelim file d e := by
  intro s
  obtain ⟨hdata, hedges, hfrequency⟩ := chunkRun_spec hc file schedule
  change s.data = _ at hdata
  change s.chunkEdges = _ at hedges
  have hchunks : ∀ t, ∀ r ∈ workerRanges file c schedule.order t, RealWord (lower file) r :=
    fun t r hr => realWord_of_mem_innerAll hc (mem_innerAll_of_mem_workerRanges schedule.perm hr)
  rw [hdata, hedges, ← realWord_calls_iff hc hn]
  constructor
  · rintro ⟨-, hcalls, -⟩
    exact hcalls
  · intro hcalls
    refine ⟨?_, hcalls, ?_⟩
    · intro t r hr
      rw [hfrequency t, calls_countRanges] at hr
      exact hchunks t r (by simpa [Tally.empty] using hr)
    · apply finish_lowerCase ?_ hfrequency hcalls hchunks
      rw [hdata, hedges]
      exact processEdges_recorded_replays hc hn

/-- Every call on `ab cd` in chunks of two bytes takes a word. -/
theorem every_counted_range_is_a_word_ab_cd :
    let s := chunkRun 2 [(2, 0), (0, 1), (1, 0)]
      (Shared.init 2 [0x61, 0x62, 0x20, 0x63, 0x64] 3)
    ∀ r ∈ (processEdges s.data s.chunkEdges).calls, RealWord s.data r :=
  ((every_counted_range_is_a_word_iff [0x61, 0x62, 0x20, 0x63, 0x64] 2 (by decide) (by decide)
    ⟨[(2, (0 : Fin 2)), (0, 1), (1, 0)], by decide⟩).mpr
      (Or.inl fun h => h.delim (by decide))).2.1

/-- A letter and seven blanks in blocks of two bytes: the flag misfires and `count_word` gets a range
    that ends before it starts. -/
theorem misfire_range_underflows :
    let s := chunkRun 2 (Schedule.inOrder 4 (0 : Fin 1)).order
      (Shared.init 1 [0x61, 0x20, 0x20, 0x20, 0x20, 0x20, 0x20, 0x20] 4)
    ¬ ((∀ t, ∀ r ∈ (s.frequency t).calls, RealWord s.data r) ∧
      (∀ r ∈ (processEdges s.data s.chunkEdges).calls, RealWord s.data r) ∧
      ∃ freq, finish s = .ok freq ∧ ∀ w ∈ freq, LowerCaseWord w) := by
  intro s
  rintro ⟨-, hcalls, -⟩
  have hword := hcalls (2, 1) (by decide +kernel)
  exact absurd hword.nonempty (by decide)

/-! ### The first and the last word -/

/-- Of all calls, exactly one touches the range, and it takes the range itself. -/
def CountedOnce (calls : List (ℕ × ℕ)) (b e : ℕ) : Prop :=
  (calls.filter fun r => r.1 < e ∧ b < r.2) = [(b, e)]

instance (calls : List (ℕ × ℕ)) (b e : ℕ) : Decidable (CountedOnce calls b e) :=
  inferInstanceAs (Decidable (_ = _))

theorem CountedOnce.mem {calls : List (ℕ × ℕ)} (h : CountedOnce calls b e) : (b, e) ∈ calls := by
  have hmem : (b, e) ∈ calls.filter fun r => r.1 < e ∧ b < r.2 := by
    rw [h]
    exact List.mem_singleton.mpr rfl
  exact (List.mem_filter.mp hmem).1

/-- Words do not overlap, so a list of words counts each of them once. -/
theorem countedOnce_of_mem {calls : List (ℕ × ℕ)} (hnodup : calls.Nodup)
    (hwords : ∀ r ∈ calls, IsWord file r.1 r.2) (hmem : (b, e) ∈ calls) : CountedOnce calls b e := by
  have hword := hwords _ hmem
  have htouch : ∀ r ∈ calls, decide (r.1 < e ∧ b < r.2) = (r == (b, e)) := by
    rintro ⟨b', e'⟩ hr
    have hword' := hwords _ hr
    have hne : b < e := hword.nonempty
    have hne' : b' < e' := hword'.nonempty
    rw [Bool.eq_iff_iff, decide_eq_true_iff, beq_iff_eq]
    constructor
    · rintro ⟨hleft, hright⟩
      obtain ⟨hb, he⟩ := hword'.eq_of_mem hword (i := max b b') (Nat.le_max_right _ _)
        (max_lt hright hne') (Nat.le_max_left _ _) (max_lt hne hleft)
      exact Prod.ext hb he
    · intro heq
      obtain ⟨rfl, rfl⟩ := Prod.mk.inj heq
      exact ⟨hne, hne⟩
  rw [CountedOnce, List.filter_congr htouch, List.filter_beq, List.count_eq_one_of_mem hnodup hmem]
  rfl

/-- Without a misfire the calls are words, each taken once; only a lost last letter is missing. -/
theorem mem_calls_iff (hc : 0 < c) (hn : 0 < file.length) (h : ¬ Misfire file c) :
    (b, e) ∈ (processEdges (lower file) (recordedEdges file c)).calls ↔
      (b, e) ∈ borderAll file c ∨ (¬ LastLetterLost file c ∧ TailWord file b e) := by
  rw [processEdges_of_not_misfire hc hn h, calls_countRanges]
  by_cases hlost : LastLetterLost file c
  · simp [hlost, Tally.empty, borderAll]
  · simp [hlost, Tally.empty, borderAll, mem_tailRanges_iff, or_assoc]

theorem calls_nodup (hc : 0 < c) (hn : 0 < file.length) (h : ¬ Misfire file c) :
    (processEdges (lower file) (recordedEdges file c)).calls.Nodup := by
  rw [processEdges_of_not_misfire hc hn h, calls_countRanges]
  have hall : (borderAll file c ++ tailRanges file).Nodup :=
    (List.nodup_append.mp (allRanges_nodup hc hn)).2.1
  split
  · simpa [Tally.empty, borderAll] using borderAll_nodup hc hn
  · simpa [Tally.empty, borderAll] using hall

/-- A word that starts the file is closed by a first delimiter or ends the file as well. -/
theorem borderAll_or_tail_of_start (hc : 0 < c) (hn : 0 < file.length) (h : IsWord file 0 e) :
    (0, e) ∈ borderAll file c ∨ TailWord file 0 e := by
  rcases Nat.lt_or_eq_of_le h.le_stop with he | he
  · exact Or.inl ((mem_borderAll_iff hc hn).mpr
      ⟨e / c, div_lt_blockCount hc he, h, isFirstDelim_of_not_inner hc h he (Nat.zero_le _)⟩)
  · exact Or.inr ⟨h, he⟩

/-- A file that starts with a letter starts with a word, and so at the other end. -/
theorem exists_isWord_first (hn : 0 < file.length) (h : delimAt file 0 = false) :
    ∃ e, IsWord file 0 e := by
  obtain ⟨b, e, hword, hb, -⟩ := exists_isRun_mem (s := 0) (Nat.le_refl 0) hn h
  have hb : b = 0 := Nat.le_zero.mp hb
  subst hb
  exact ⟨e, hword⟩

theorem isWord_last (hn : 0 < file.length) (h : delimAt file (file.length - 1) = false) :
    IsWord file (wordStart file file.length) file.length := by
  refine isWord_wordStart ?_ (Nat.le_refl _) (delimAt_of_length_le (Nat.le_refl _))
  have hle := wordStart_le file file.length
  by_contra hge
  have hstop := findIfRev_stopped (p := delimAt file) (f := 0) (l := file.length)
    (by unfold wordStart at hge; omega)
  have hindex : findIfRev (delimAt file) 0 file.length - 1 = file.length - 1 := by
    unfold wordStart at hge hle
    omega
  rw [hindex, h] at hstop
  exact absurd hstop (by simp)

/-- A misfire makes one call, so it counts a range once exactly when it takes that range. -/
theorem countedOnce_misfire_iff {d : ℕ} (hc : 0 < c) (h : Misfire file c)
    (hfirst : IsFirstDelim file c 0 d) (hne : b < e) :
    CountedOnce (processEdges (lower file) (recordedEdges file c)).calls b e ↔
      (b, e) = (d + 1, findIfNotRev (delimAt file) 0 file.length) := by
  rw [processEdges_of_misfire hc h hfirst, calls_countWord]
  constructor
  · intro hcounted
    simpa [Tally.empty] using hcounted.mem
  · intro heq
    obtain ⟨rfl, rfl⟩ := Prod.mk.inj heq
    simp [CountedOnce, Tally.empty, hne]

/-- The word at the start and the word at the end are counted once each. -/
def EndsCounted (file : Buffer) (calls : List (ℕ × ℕ)) : Prop :=
  (∀ e, IsWord file 0 e → CountedOnce calls 0 e) ∧
    ∀ b, IsWord file b file.length → CountedOnce calls b file.length

/-- A misfire counts the word at the end only if it is all there is after a delimiter at the start. -/
theorem endsCounted_misfire_iff (hc : 0 < c) (h : Misfire file c) :
    EndsCounted file (processEdges (lower file) (recordedEdges file c)).calls ↔
      delimAt file 0 = true ∧ (delimAt file (file.length - 1) = true ∨
        ∀ i, 0 < i → i < file.length → delimAt file i = false) := by
  obtain ⟨d, hfirst, hdelim, -, hbefore⟩ := exists_firstDelim_of_misfire h hc
  have hn : 0 < file.length := Nat.lt_trans hc h.chunks
  constructor
  · rintro ⟨hstart, hend⟩
    have hzero : delimAt file 0 = true := by
      by_contra hletter
      obtain ⟨e, hword⟩ := exists_isWord_first hn (Bool.eq_false_of_not_eq_true hletter)
      have heq := (countedOnce_misfire_iff hc h hfirst hword.nonempty).mp (hstart e hword)
      exact absurd (Prod.mk.inj heq).1 (by omega)
    refine ⟨hzero, ?_⟩
    by_cases hlast : delimAt file (file.length - 1) = true
    · exact Or.inl hlast
    · -- The word at the end is the range after the delimiter at the start.
      have hword := isWord_last hn (Bool.eq_false_of_not_eq_true hlast)
      have heq := (countedOnce_misfire_iff hc h hfirst hword.nonempty).mp (hend _ hword)
      have hd : d = 0 := eq_of_first_delim hdelim hbefore hzero fun i hi => by omega
      have hb : wordStart file file.length = 1 := by
        rw [(Prod.mk.inj heq).1, hd]
      refine Or.inr fun i hi hin => hword.inside i hin ?_
      omega
  · rintro ⟨hzero, hlast⟩
    have hd : d = 0 := eq_of_first_delim hdelim hbefore hzero fun i hi => by omega
    subst hd
    constructor
    · intro e hword
      exact absurd hzero (ne_true_of_eq_false (hword.inside 0 hword.nonempty (Nat.le_refl 0)))
    · intro b hword
      have hletter := hword.inside (file.length - 1) (by omega)
        (Nat.le_sub_one_of_lt hword.nonempty)
      have hletters := hlast.resolve_left (by rw [hletter]; simp)
      have hone : IsWord file 1 file.length :=
        ⟨Nat.zero_le 1, Nat.lt_of_le_of_lt hc h.chunks, Nat.le_refl _,
          fun i hin hi => hletters i (by omega) hin, Or.inr hzero, Or.inl rfl⟩
      refine (countedOnce_misfire_iff hc h hfirst hword.nonempty).mpr ?_
      rw [hword.start_unique hone, findIfNotRev_eq_length hn hletter]

/-- Without a misfire only a lost last letter is missing at an end of the file. -/
theorem endsCounted_of_not_misfire_iff (hc : 0 < c) (hn : 0 < file.length) (h : ¬ Misfire file c) :
    EndsCounted file (processEdges (lower file) (recordedEdges file c)).calls ↔
      ¬ LastLetterLost file c := by
  have hcounted : ∀ b e, (b, e) ∈ borderAll file c ∨ (¬ LastLetterLost file c ∧ TailWord file b e) →
      CountedOnce (processEdges (lower file) (recordedEdges file c)).calls b e := fun b e hmem =>
    countedOnce_of_mem (calls_nodup hc hn h) (fun _ => isWord_of_mem_calls hc hn h)
      ((mem_calls_iff hc hn h).mpr hmem)
  constructor
  · rintro ⟨-, hend⟩ hlost
    -- The lost word ends the file, and no call ends there.
    have hmem := (hend _ (isWord_last hn hlost.letter)).mem
    rcases (mem_calls_iff hc hn h).mp hmem with hborder | htail
    · obtain ⟨k, -, hword⟩ := (mem_borderAll_iff hc hn).mp hborder
      exact Nat.lt_irrefl _ hword.closes.lt_length
    · exact htail.1 hlost
  · intro hkept
    constructor
    · intro e hword
      apply hcounted
      exact (borderAll_or_tail_of_start hc hn hword).imp_right fun htail => ⟨hkept, htail⟩
    · intro b hword
      apply hcounted
      exact Or.inr ⟨hkept, hword, rfl⟩

/-- The word at the start of the file and the word at its end, if the file starts or ends with a letter,
    are each counted once by `process_edges` and under their own text, exactly when the flag does not
    misfire and no last letter is lost, or the flag misfires in a file that starts with a delimiter and
    either ends with one or has no other. -/
theorem first_and_last_word_counted_iff (file : Buffer) (c : ℕ) (hc : 0 < c)
    (hn : 0 < file.length) :
    let calls := (processEdges (lower file) (recordedEdges file c)).calls
    ((∀ e, IsWord file 0 e → CountedOnce calls 0 e) ∧
        ∀ b, IsWord file b file.length → CountedOnce calls b file.length) ↔
      (¬ Misfire file c ∧ ¬ LastLetterLost file c) ∨
        (Misfire file c ∧ delimAt file 0 = true ∧
          (delimAt file (file.length - 1) = true ∨
            ∀ i, 0 < i → i < file.length → delimAt file i = false)) := by
  intro calls
  change EndsCounted file calls ↔ _
  by_cases hmisfire : Misfire file c
  · rw [endsCounted_misfire_iff hc hmisfire]
    simp [hmisfire]
  · rw [endsCounted_of_not_misfire_iff hc hn hmisfire]
    simp [hmisfire]

/-- The last word of `ab cd` in chunks of two bytes is counted once. -/
theorem first_and_last_word_counted_ab_cd :
    CountedOnce (processEdges (lower [0x61, 0x62, 0x20, 0x63, 0x64])
      (recordedEdges [0x61, 0x62, 0x20, 0x63, 0x64] 2)).calls 3 5 :=
  ((first_and_last_word_counted_iff [0x61, 0x62, 0x20, 0x63, 0x64] 2 (by decide) (by decide)).mpr
    (Or.inl ⟨fun h => h.delim (by decide), by decide⟩)).2 3 (by decide)

/-- The last word of `a b`, a file of one chunk, is not counted. -/
theorem last_letter_not_counted :
    ¬ ((∀ e, IsWord [0x61, 0x20, 0x62] 0 e → CountedOnce (processEdges (lower [0x61, 0x20, 0x62])
          (recordedEdges [0x61, 0x20, 0x62] 4096)).calls 0 e) ∧
        ∀ b, IsWord [0x61, 0x20, 0x62] b 3 → CountedOnce (processEdges (lower [0x61, 0x20, 0x62])
          (recordedEdges [0x61, 0x20, 0x62] 4096)).calls b 3) := by
  rintro ⟨-, hend⟩
  exact absurd (hend 2 (by decide)) (by decide +kernel)

end FreqUtility
