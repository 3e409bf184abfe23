/-
Module: FreqUtility.Proofs.ChunkWords
Layer: Proofs
Purpose: `process_chunk` counts exactly the inner words of its chunk and records the right edges. The two
  edge scans are related to the first and the last delimiter of the chunk (`chunkEdge_of_delims`,
  `chunkEdge_of_noDelim`), and `mem_innerRanges_iff` relates the word loop over the narrowed range to the
  maximal runs of the whole buffer.
Imports: FreqUtility.Spec.Words, FreqUtility.Core.ProcessChunk
Trusted boundary: none (fully proved)
Main exports: chunkEdge_of_delims, chunkEdge_of_noDelim, mem_innerRanges_iff, innerRanges_nodup,
  processChunk_counts_inner_words
Open obligations: none
-/
import FreqUtility.Spec.Words
import FreqUtility.Core.ProcessChunk

namespace FreqUtility

open RangeScan MaximalRuns Blocks CountMaps

variable {data : Buffer} {c k b e : ℕ}

/-! ### The two edge scans -/

/-- The forward scan finds nothing exactly in a chunk without delimiters. -/
theorem findIf_eq_blockStop_iff (hc : 0 < c) (hk : k < blockCount data.length c) :
    findIf (delimAt data) (k * c) (blockStop data.length c k) = blockStop data.length c k ↔
      NoDelim data c k :=
  findIf_eq_last_iff (Nat.le_of_lt (start_lt_blockStop hc hk))

theorem isFirstDelim_findIf (hc : 0 < c) (hk : k < blockCount data.length c)
    (h : ¬ NoDelim data c k) :
    IsFirstDelim data c k (findIf (delimAt data) (k * c) (blockStop data.length c k)) := by
  have hle := findIf_le (delimAt data) (Nat.le_of_lt (start_lt_blockStop hc hk))
  rw [← findIf_eq_blockStop_iff hc hk] at h
  have hlt := Nat.lt_of_le_of_ne hle h
  refine ⟨le_findIf _ _ _, hlt, findIf_stopped hlt, ?_⟩
  intro i hlow hhigh
  exact findIf_skipped hlow hhigh

theorem findIf_of_isFirstDelim {d : ℕ} (h : IsFirstDelim data c k d) :
    findIf (delimAt data) (k * c) (blockStop data.length c k) = d :=
  findIf_eq h.start_le (Nat.le_of_lt h.lt_stop) h.before fun _ => h.delim

theorem findIfRev_of_isLastDelim {d : ℕ} (h : IsLastDelim data c k d) :
    findIfRev (delimAt data) (k * c) (blockStop data.length c k) = d + 1 :=
  findIfRev_eq (Nat.le_succ_of_le h.start_le) h.lt_stop h.after fun _ => h.delim

theorem isLastDelim_findIfRev (hc : 0 < c) (hk : k < blockCount data.length c)
    (h : ¬ NoDelim data c k) :
    IsLastDelim data c k (findIfRev (delimAt data) (k * c) (blockStop data.length c k) - 1) := by
  have hlt := start_lt_blockStop hc hk
  have hfirst := isFirstDelim_findIf hc hk h
  have hrev := findIf_lt_findIfRev (Nat.le_of_lt hlt) (Nat.ne_of_lt hfirst.lt_stop)
  have hstart := hfirst.start_le
  have hhigh := findIfRev_le (delimAt data) (k * c) (blockStop data.length c k)
  refine ⟨by omega, by omega, findIfRev_stopped (by omega), ?_⟩
  intro i hlow hi
  exact findIfRev_skipped (f := k * c) (by omega) hi

/-- The edges of a chunk with delimiters. -/
theorem chunkEdge_of_delims {d l : ℕ} (hfirst : IsFirstDelim data c k d)
    (hlast : IsLastDelim data c k l) :
    chunkEdge data (k * c) (blockStop data.length c k) = (some d, some (l + 1)) := by
  rw [chunkEdge, findIf_of_isFirstDelim hfirst, findIfRev_of_isLastDelim hlast,
    if_neg (Nat.ne_of_lt hfirst.lt_stop)]

/-- Both edges of a chunk without delimiters are null. -/
theorem chunkEdge_of_noDelim (hc : 0 < c) (hk : k < blockCount data.length c)
    (h : NoDelim data c k) :
    chunkEdge data (k * c) (blockStop data.length c k) = (none, none) := by
  rw [chunkEdge, if_pos ((findIf_eq_blockStop_iff hc hk).mpr h)]

/-! ### The word loop -/

/-- The loop over the narrowed range visits the inner words of the chunk. -/
theorem mem_innerRanges_iff (hc : 0 < c) (hk : k < blockCount data.length c) :
    (b, e) ∈ innerRanges data (k * c) (blockStop data.length c k) ↔ InnerWord data c k b e := by
  have hlt := start_lt_blockStop hc hk
  by_cases hnone : NoDelim data c k
  · rw [innerRanges, if_pos ((findIf_eq_blockStop_iff hc hk).mpr hnone)]
    constructor
    · intro h
      exact absurd h (by simp)
    · intro h
      -- The delimiter before an inner word lies in the chunk.
      have hb := h.start_lt
      have hne := h.isWord.nonempty
      have hstop := h.lt_stop
      have hdelim := h.isWord.left.resolve_left (by omega)
      exact absurd hdelim (ne_true_of_eq_false (hnone (b - 1) (by omega) (by omega)))
  · have hfirst := isFirstDelim_findIf hc hk hnone
    have hlast := isLastDelim_findIfRev hc hk hnone
    have hrev := findIf_lt_findIfRev (Nat.le_of_lt hlt) (Nat.ne_of_lt hfirst.lt_stop)
    have hhigh := findIfRev_le (delimAt data) (k * c) (blockStop data.length c k)
    have hstop : blockStop data.length c k ≤ data.length := blockStop_le
    rw [innerRanges, if_neg (Nat.ne_of_lt hfirst.lt_stop), mem_runList_findIfNot_iff,
      isRun_window_iff (u := 0) (v := data.length) (Nat.zero_le _) (by omega) hfirst.delim
        hlast.delim]
    constructor
    · rintro ⟨h, hb, he⟩
      have := hfirst.start_le
      exact ⟨h, by omega, by omega⟩
    · intro h
      have hb := h.start_lt
      have hne := h.isWord.nonempty
      have he := h.lt_stop
      refine ⟨h.isWord, ?_, ?_⟩
      · -- The delimiter just before the word is not before the first one.
        by_contra hge
        have hdelim := h.isWord.left.resolve_left (by omega)
        exact absurd hdelim (ne_true_of_eq_false (hfirst.before (b - 1) (by omega) (by omega)))
      · by_contra hge
        have hdelim := delimAt_word_stop h.isWord
        exact absurd hdelim (ne_true_of_eq_false (findIfRev_skipped (Nat.le_of_not_lt hge) he))

theorem innerRanges_nodup (data : Buffer) (startPos endPos : ℕ) :
    (innerRanges data startPos endPos).Nodup := by
  unfold innerRanges
  split
  · exact List.nodup_nil
  · exact runList_nodup _ _ _

theorem validRange_of_isWord {r : ℕ × ℕ} (h : IsWord data r.1 r.2) : ValidRange (lower data) r := by
  have := h.nonempty
  have := h.le_stop
  exact ⟨by omega, by rw [length_lower]; omega⟩

/-- The loop runs at most once for every byte of the chunk. -/
theorem length_innerRanges_le (hc : 0 < c) (hk : k < blockCount data.length c) :
    (innerRanges data (k * c) (blockStop data.length c k)).length ≤ c := by
  have hsub : (innerRanges data (k * c) (blockStop data.length c k)).map Prod.fst ⊆
      List.range' (k * c) c := by
    intro b hb
    obtain ⟨⟨b', e⟩, hmem, rfl⟩ := List.mem_map.mp hb
    have hword := (mem_innerRanges_iff hc hk).mp hmem
    have hb := hword.start_lt
    have hne := hword.isWord.nonempty
    have he := hword.lt_stop
    have hstop : blockStop data.length c k ≤ k * c + c := blockStop_le_add
    rw [List.mem_range'_1]
    simp only
    omega
  have hnodup : ((innerRanges data (k * c) (blockStop data.length c k)).map Prod.fst).Nodup := by
    refine List.Nodup.map_on ?_ (innerRanges_nodup _ _ _)
    rintro ⟨b, e⟩ hmem ⟨b', e'⟩ hmem' heq
    have hword := (mem_innerRanges_iff hc hk).mp hmem
    have hword' := (mem_innerRanges_iff hc hk).mp hmem'
    simp only at heq
    subst heq
    rw [hword.isWord.stop_unique hword'.isWord]
  calc (innerRanges data (k * c) (blockStop data.length c k)).length
      = ((innerRanges data (k * c) (blockStop data.length c k)).map Prod.fst).length := by
        rw [List.length_map]
    _ ≤ (List.range' (k * c) c).length := (hnodup.subperm hsub).length_le
    _ = c := List.length_range'

/-- The ranges the loop visits, as a set: the inner words of the chunk. -/
theorem coe_innerRanges (hc : 0 < c) (hk : k < blockCount data.length c) :
    (innerRanges data (k * c) (blockStop data.length c k) : Multiset (ℕ × ℕ)) =
      ((words data).filter fun r => InnerWord data c k r.1 r.2).val := by
  apply (Multiset.Nodup.ext (Multiset.coe_nodup.mpr (innerRanges_nodup _ _ _))
    (Finset.nodup _)).mpr
  rintro ⟨b, e⟩
  rw [Multiset.mem_coe, mem_innerRanges_iff hc hk, Finset.mem_val, Finset.mem_filter, mem_words]
  constructor
  · exact fun h => ⟨h.isWord, h⟩
  · exact fun h => h.2

/-- The number of times the loop counts a text is the number of inner words with that text. -/
theorem count_texts_innerRanges (hc : 0 < c) (hk : k < blockCount data.length c) (w : Word) :
    Multiset.count w (texts (lower data) (innerRanges data (k * c) (blockStop data.length c k))) =
      ((words data).filter fun r =>
        InnerWord data c k r.1 r.2 ∧ slice (lower data) r.1 r.2 = w).card := by
  rw [texts, ← Multiset.map_coe, coe_innerRanges hc hk, Multiset.count_map, ← Finset.filter_filter,
    Finset.card, Finset.filter_val]
  congr 1
  apply Multiset.filter_congr
  intro r _
  exact eq_comm

/-! ### One call -/

theorem processChunk_chunkEdges_of_noDelim (s : ChunkState) (hc : 0 < c)
    (hk : k < blockCount s.data.length c) (h : NoDelim s.data c k) :
    (processChunk s (k * c) (blockStop s.data.length c k) c).chunkEdges = s.chunkEdges := by
  rw [processChunk_chunkEdges s (Nat.le_of_lt (start_lt_blockStop hc hk)) c,
    if_pos ((findIf_eq_blockStop_iff hc hk).mpr h)]

theorem processChunk_chunkEdges_of_delim (s : ChunkState) (hc : 0 < c)
    (hk : k < blockCount s.data.length c) (h : ¬ NoDelim s.data c k) :
    (processChunk s (k * c) (blockStop s.data.length c k) c).chunkEdges =
      s.chunkEdges.set k (chunkEdge s.data (k * c) (blockStop s.data.length c k)) := by
  rw [processChunk_chunkEdges s (Nat.le_of_lt (start_lt_blockStop hc hk)) c,
    if_neg (mt (findIf_eq_blockStop_iff hc hk).mp h), Nat.mul_div_cancel k hc]

/-- One call of `process_chunk` on chunk `k`: every entry of the map grows by the number of inner words
    of the chunk with that text, in a loop of at most `c` rounds; the edge entry of the chunk becomes
    its first delimiter and one past its last one, or stays as it was when there is none, so both
    components are null together; no other edge entry changes. -/
theorem processChunk_counts_inner_words (s : ChunkState) (m : FreqMap) (c k : ℕ) (hc : 0 < c)
    (hk : k < blockCount s.data.length c) (hfreq : s.freqPerThread.freq = .ok m)
    (hedges : s.chunkEdges.length = blockCount s.data.length c) :
    let s' := processChunk s (k * c) (blockStop s.data.length c k) c
    (∃ m', s'.freqPerThread.freq = .ok m' ∧
        ∀ w, m'.lookup w = grow (m.lookup w) ((words s.data).filter fun r =>
          InnerWord s.data c k r.1 r.2 ∧ slice (lower s.data) r.1 r.2 = w).card) ∧
      s'.freqPerThread.calls.length ≤ s.freqPerThread.calls.length + c ∧
      (∀ d l, IsFirstDelim s.data c k d → IsLastDelim s.data c k l →
        s'.chunkEdges[k]? = some (some d, some (l + 1))) ∧
      (NoDelim s.data c k → s'.chunkEdges = s.chunkEdges) ∧
      (s.chunkEdges[k]? = some (none, none) →
        ∃ edge, s'.chunkEdges[k]? = some edge ∧ (edge.1 = none ↔ edge.2 = none) ∧
          (edge.1 = none ↔ NoDelim s.data c k)) ∧
      ∀ j, j ≠ k → s'.chunkEdges[j]? = s.chunkEdges[j]? := by
  intro s'
  have htally : s'.freqPerThread = countRanges (lower s.data) s.freqPerThread
      (innerRanges s.data (k * c) (blockStop s.data.length c k)) :=
    processChunk_freqPerThread s _ _ _
  have hcounted : s'.freqPerThread.freq = .ok (countAll m (texts (lower s.data)
      (innerRanges s.data (k * c) (blockStop s.data.length c k)))) := by
    rw [htally]
    exact freq_countRanges hfreq fun r hr =>
      validRange_of_isWord ((mem_innerRanges_iff hc hk).mp hr).isWord
  have hnull : NoDelim s.data c k → s'.chunkEdges = s.chunkEdges :=
    processChunk_chunkEdges_of_noDelim s hc hk
  have hset : ¬ NoDelim s.data c k → s'.chunkEdges =
      s.chunkEdges.set k (chunkEdge s.data (k * c) (blockStop s.data.length c k)) :=
    processChunk_chunkEdges_of_delim s hc hk
  refine ⟨⟨_, hcounted, ?_⟩, ?_, ?_, hnull, ?_, ?_⟩
  · intro w
    rw [lookup_countAll, count_texts_innerRanges hc hk]
  · rw [htally, calls_countRanges, List.length_append]
    exact Nat.add_le_add_left (length_innerRanges_le hc hk) _
  · intro d l hfirst hlast
    rw [hset hfirst.not_noDelim, chunkEdge_of_delims hfirst hlast,
      List.getElem?_set_self (by omega)]
  · intro hinit
    by_cases hnone : NoDelim s.data c k
    · rw [hnull hnone]
      exact ⟨(none, none), hinit, Iff.rfl, by simp [hnone]⟩
    · rw [hset hnone, List.getElem?_set_self (by omega),
        chunkEdge_of_delims (isFirstDelim_findIf hc hk hnone) (isLastDelim_findIfRev hc hk hnone)]
      exact ⟨_, rfl, by simp, by simp [hnone]⟩
  · intro j hj
    by_cases hnone : NoDelim s.data c k
    · rw [hnull hnone]
    · rw [hset hnone, List.getElem?_set_ne (Ne.symm hj)]

/-- One chunk of the bytes ` ab ab `: the word is counted twice. -/
theorem processChunk_counts_inner_words_ab_ab :
    ∃ m', (processChunk ⟨[0x20, 0x61, 0x62, 0x20, 0x61, 0x62, 0x20], Tally.empty, [(none, none)]⟩
        (0 * 8) (blockStop 7 8 0) 8).freqPerThread.freq = .ok m' ∧
      m'.lookup [0x61, 0x62] = some 2 := by
  obtain ⟨⟨m', hm', hcount⟩, -⟩ := processChunk_counts_inner_words
    ⟨[0x20, 0x61, 0x62, 0x20, 0x61, 0x62, 0x20], Tally.empty, [(none, none)]⟩ ∅ 8 0 (by decide)
    (by decide) rfl rfl
  exact ⟨m', hm', (hcount [0x61, 0x62]).trans (by decide +kernel)⟩

end FreqUtility
