/-
Module: FreqUtility.Proofs.Totals
Layer: Proofs
Purpose: The result of a driver as one multiset of texts. After any schedule the buffer is lowered and the
  edges are the recorded ones (`Progress.data_eq`, `Progress.chunkEdges_eq`); the ranges counted by all
  workers together are the inner words of all chunks (`sum_workerRanges`); and `finish_eq_ok_iff` says
  that adding the maps succeeds exactly when `process_edges` made only valid calls, with the counts of
  all texts. Beside it, the words of the file are the inner words, the words closed by a first delimiter
  and the word at the end, each once (`coe_allRanges`).
Imports: FreqUtility.Proofs.EdgeBranches
Trusted boundary: none (fully proved)
Main exports: Progress.data_eq, Progress.chunkEdges_eq, finish_eq_ok_iff, sum_workerRanges, innerAll,
  coe_allRanges
Open obligations: none
-/
import FreqUtility.Proofs.EdgeBranches

namespace FreqUtility

open MaximalRuns Blocks CountMaps

variable {file : Buffer} {c workers : ℕ}

/-! ### After the last task -/

theorem Progress.data_eq {finished : List (Task workers)} {s : Shared workers}
    (h : Progress file c finished s) (hc : 0 < c)
    (hall : (finished.map Prod.fst).Perm (List.range (blockCount file.length c))) :
    s.data = lower file := by
  apply List.ext_getElem?
  intro p
  rcases Nat.lt_or_ge p file.length with hp | hp
  · have hmem : p / c ∈ finished.map Prod.fst :=
      hall.symm.subset (List.mem_range.mpr (div_lt_blockCount hc hp))
    rw [getElem?_eq_some_byteAt (by rw [h.length]; exact hp), h.lowered p hp hmem,
      getElem?_eq_some_byteAt (by rw [length_lower]; exact hp), byteAt_lower]
  · rw [List.getElem?_eq_none (by rw [h.length]; exact hp),
      List.getElem?_eq_none (by rw [length_lower]; exact hp)]

theorem Progress.chunkEdges_eq {finished : List (Task workers)} {s : Shared workers}
    (h : Progress file c finished s) (hc : 0 < c)
    (hall : (finished.map Prod.fst).Perm (List.range (blockCount file.length c))) :
    s.chunkEdges = recordedEdges file c := by
  rw [h.edges, recordedEdges_eq hc]
  exact edgesOf_eq_of_perm hall

/-! ### Adding the maps of all workers -/

private theorem foldlM_merge_counts {data : Buffer} {s : Shared workers}
    {ranges : Fin workers → List (ℕ × ℕ)}
    (hfrequency : ∀ t, s.frequency t = countRanges data Tally.empty (ranges t))
    (hvalid : ∀ t, ∀ r ∈ ranges t, ValidRange data r) (threads : List (Fin workers))
    {result : FreqMap} {total : Multiset Word} (h : Counts result total) :
    ∃ m, threads.foldlM (fun result t => do
        let frequency ← (s.frequency t).freq
        return merge result frequency) result = (Except.ok m : Except Fault FreqMap) ∧
      Counts m (total + texts data (threads.flatMap ranges)) := by
  induction threads generalizing result total with
  | nil =>
      refine ⟨result, rfl, ?_⟩
      simpa [texts] using h
  | cons t threads ih =>
      have hfreq : (s.frequency t).freq = .ok (countAll ∅ (texts data (ranges t))) := by
        rw [hfrequency t]
        exact freq_countRanges rfl (hvalid t)
      have hthread : Counts (countAll ∅ (texts data (ranges t))) (0 + texts data (ranges t)) :=
        Counts.empty.countAll _
      obtain ⟨m, hm, hcounts⟩ := ih (h.merge hthread)
      refine ⟨m, ?_, ?_⟩
      · rw [List.foldlM_cons, hfreq]
        exact hm
      · rw [List.flatMap_cons, texts_append, ← Multiset.coe_add, ← add_assoc]
        rwa [zero_add] at hcounts

/-- Adding the maps of all workers to the result of `process_edges` succeeds exactly when the calls of
    `process_edges` are valid, and then counts the texts of all ranges. -/
theorem finish_eq_ok_iff {data : Buffer} {s : Shared workers} {calls : List (ℕ × ℕ)}
    {ranges : Fin workers → List (ℕ × ℕ)} {m : FreqMap}
    (hedges : processEdges s.data s.chunkEdges = countRanges data Tally.empty calls)
    (hfrequency : ∀ t, s.frequency t = countRanges data Tally.empty (ranges t))
    (hvalid : ∀ t, ∀ r ∈ ranges t, ValidRange data r) :
    finish s = .ok m ↔ (∀ r ∈ calls, ValidRange data r) ∧
      Counts m (texts data calls + texts data ((List.finRange workers).flatMap ranges)) := by
  unfold finish
  rw [hedges]
  constructor
  · intro h
    cases hfreq : (countRanges data Tally.empty calls).freq with
    | error fault =>
        rw [hfreq] at h
        cases h
    | ok result =>
        rw [hfreq] at h
        obtain ⟨m₀, hempty, hcalls, rfl⟩ := freq_countRanges_eq_ok_iff.mp hfreq
        cases hempty
        obtain ⟨m', hm', hcounts⟩ := foldlM_merge_counts hfrequency hvalid
          (List.finRange workers) (Counts.empty.countAll (texts data calls))
        have hsame : m' = m := Except.ok.inj (hm'.symm.trans h)
        rw [zero_add] at hcounts
        exact ⟨hcalls, hsame ▸ hcounts⟩
  · rintro ⟨hcalls, hcounts⟩
    obtain ⟨m', hm', hcounts'⟩ := foldlM_merge_counts hfrequency hvalid
      (List.finRange workers) (Counts.empty.countAll (texts data calls))
    rw [zero_add] at hcounts'
    rw [freq_countRanges rfl hcalls, hcounts.unique hcounts']
    exact hm'

/-! ### All workers together -/

/-- Splitting a list by a key and putting the parts back together. -/
theorem flatMap_filter_perm {α : Type*} [DecidableEq α] (key : α → Fin workers) (l : List α) :
    ((List.finRange workers).flatMap fun t => l.filter fun x => key x = t).Perm l := by
  rw [List.perm_iff_count]
  intro a
  have hcount : ∀ t, (l.filter fun x => key x = t).count a = if key a = t then l.count a else 0 := by
    intro t
    split
    · rename_i h
      exact List.count_filter (by simp [h])
    · rename_i h
      exact List.count_eq_zero.mpr fun hmem => h (by simpa using (List.mem_filter.mp hmem).2)
  rw [List.count_flatMap]
  calc ((List.finRange workers).map (List.count a ∘ fun t => l.filter fun x => key x = t)).sum
      = ((List.finRange workers).map fun t => if key a = t then l.count a else 0).sum := by
        simp only [Function.comp_def, hcount]
    _ = ∑ t : Fin workers, if key a = t then l.count a else 0 := (Fin.sum_univ_def _).symm
    _ = l.count a := by simp

/-- The ranges that the tasks of all chunks count. -/
def innerAll (file : Buffer) (c : ℕ) : List (ℕ × ℕ) :=
  (List.range (blockCount file.length c)).flatMap (chunkRanges file c)

/-- However the chunks are distributed, the workers together count the inner words of all chunks. -/
theorem sum_workerRanges {finished : List (Task workers)}
    (hall : (finished.map Prod.fst).Perm (List.range (blockCount file.length c))) :
    ((List.finRange workers).flatMap (workerRanges file c finished)).Perm (innerAll file c) := by
  calc (List.finRange workers).flatMap (workerRanges file c finished)
      = ((List.finRange workers).flatMap fun t => finished.filter fun task => task.2 = t).flatMap
          fun task => chunkRanges file c task.1 := List.flatMap_assoc.symm
    _ |>.Perm (finished.flatMap fun task => chunkRanges file c task.1) :=
        (flatMap_filter_perm Prod.snd finished).flatMap_right _
    _ = (finished.map Prod.fst).flatMap (chunkRanges file c) := (List.flatMap_map _ _ _).symm
    _ |>.Perm (innerAll file c) := hall.flatMap_right _

theorem mem_innerAll_iff (hc : 0 < c) {b e : ℕ} :
    (b, e) ∈ innerAll file c ↔ ∃ k, k < blockCount file.length c ∧ InnerWord file c k b e := by
  rw [innerAll, List.mem_flatMap]
  refine exists_congr fun k => ?_
  rw [List.mem_range]
  exact and_congr_right fun hk => mem_innerRanges_iff hc hk

theorem innerAll_nodup (hc : 0 < c) : (innerAll file c).Nodup := by
  refine List.nodup_flatMap.mpr ⟨fun k _ => innerRanges_nodup _ _ _, ?_⟩
  refine List.nodup_range.imp_of_mem ?_
  intro j k hj hk hne
  rintro ⟨b, e⟩ hmem hmem'
  have hword := (mem_innerRanges_iff hc (List.mem_range.mp hj)).mp hmem
  have hword' := (mem_innerRanges_iff hc (List.mem_range.mp hk)).mp hmem'
  exact hne ((hword.div_eq hc).symm.trans (hword'.div_eq hc))

/-! ### The words of the file, class by class -/

/-- The words closed by the first delimiter of a chunk, the first chunk last. -/
def borderAll (file : Buffer) (c : ℕ) : List (ℕ × ℕ) :=
  stitched file c (blockCount file.length c - 1) ++ borderRanges file c 0

theorem mem_borderAll_iff (hc : 0 < c) (hn : 0 < file.length) {b e : ℕ} :
    (b, e) ∈ borderAll file c ↔ ∃ k, k < blockCount file.length c ∧ BorderWord file c k b e := by
  have hpos := blockCount_pos hc hn
  rw [borderAll, List.mem_append, mem_stitched_iff hc (by omega), mem_borderRanges_iff hc hpos]
  constructor
  · rintro (⟨k, -, hk, hword⟩ | hword)
    · exact ⟨k, by omega, hword⟩
    · exact ⟨0, hpos, hword⟩
  · rintro ⟨k, hk, hword⟩
    cases k with
    | zero => exact Or.inr hword
    | succ k => exact Or.inl ⟨k + 1, Nat.succ_pos k, by omega, hword⟩

theorem borderAll_nodup (hc : 0 < c) (hn : 0 < file.length) : (borderAll file c).Nodup := by
  have hpos := blockCount_pos hc hn
  refine List.Nodup.append (stitched_nodup hc (by omega)) (borderRanges_nodup _ _ _) ?_
  rintro ⟨b, e⟩ hmem hmem'
  obtain ⟨k, hk, -, hword⟩ := (mem_stitched_iff hc (by omega)).mp hmem
  have hword' := (mem_borderRanges_iff hc hpos).mp hmem'
  have := hword.closes.div_eq hc
  have := hword'.closes.div_eq hc
  omega

/-- The words of the file, as the three classes list them. -/
def allRanges (file : Buffer) (c : ℕ) : List (ℕ × ℕ) :=
  innerAll file c ++ (borderAll file c ++ tailRanges file)

theorem mem_allRanges_iff (hc : 0 < c) (hn : 0 < file.length) {b e : ℕ} :
    (b, e) ∈ allRanges file c ↔ IsWord file b e := by
  rw [allRanges, List.mem_append, List.mem_append, mem_innerAll_iff hc, mem_borderAll_iff hc hn,
    mem_tailRanges_iff, isWord_iff_class hc]

theorem allRanges_nodup (hc : 0 < c) (hn : 0 < file.length) : (allRanges file c).Nodup := by
  refine List.Nodup.append (innerAll_nodup hc) (List.Nodup.append (borderAll_nodup hc hn)
    (tailRanges_nodup file) ?_) ?_
  · rintro ⟨b, e⟩ hmem hmem'
    obtain ⟨k, -, hword⟩ := (mem_borderAll_iff hc hn).mp hmem
    have := hword.closes.lt_length
    have := (mem_tailRanges_iff.mp hmem').stop
    omega
  · rintro ⟨b, e⟩ hmem hmem'
    obtain ⟨j, -, hinner⟩ := (mem_innerAll_iff hc).mp hmem
    rcases List.mem_append.mp hmem' with hborder | htail
    · obtain ⟨k, -, hword⟩ := (mem_borderAll_iff hc hn).mp hborder
      exact hinner.not_isFirstDelim hc hword.closes
    · have := hinner.lt_length
      have := (mem_tailRanges_iff.mp htail).stop
      omega

/-- Every word belongs to one class and is listed there once. -/
theorem coe_allRanges (hc : 0 < c) (hn : 0 < file.length) :
    (allRanges file c : Multiset (ℕ × ℕ)) = (words file).val := by
  apply (Multiset.Nodup.ext (Multiset.coe_nodup.mpr (allRanges_nodup hc hn)) (Finset.nodup _)).mpr
  rintro ⟨b, e⟩
  rw [Multiset.mem_coe, mem_allRanges_iff hc hn, Finset.mem_val, mem_words]

/-- The word frequency of the file, class by class. -/
theorem wordTexts_eq (hc : 0 < c) (hn : 0 < file.length) :
    wordTexts file = texts (lower file) (innerAll file c) +
      (texts (lower file) (borderAll file c) + texts (lower file) (tailRanges file)) := by
  rw [wordTexts, ← coe_allRanges hc hn, allRanges, Multiset.map_coe, List.map_append,
    List.map_append, ← Multiset.coe_add, ← Multiset.coe_add]
  rfl

end FreqUtility
