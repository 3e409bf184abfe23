/-
Module: FreqUtility.Proofs.ChunkRun
Layer: Proofs
Purpose: What a run of chunk tasks has done after any number of tasks, in any order and by any workers.
  `Progress` is the invariant over the set of finished tasks: their bytes are lowered, their edges are
  recorded, and each worker has counted the inner words of its own chunks. `Progress.step` is the only
  place where a task is looked into; a task needs the bytes of its own chunk and nothing else, so the
  same lemma serves the drivers that load a chunk just before they process it.
Imports: FreqUtility.Core.ChunkRun, FreqUtility.Proofs.ChunkWords
Trusted boundary: none (fully proved)
Main exports: chunkRanges, edgesOf, Progress, Progress.step, Progress.chunkRun, Progress.schedule,
  getElem?_recordedEdges
Open obligations: none
-/
import FreqUtility.Core.ChunkRun
import FreqUtility.Proofs.ChunkWords

namespace FreqUtility

open MaximalRuns Blocks CountMaps

variable {workers : ℕ}

/-- The ranges that the task of chunk `k` counts. -/
def chunkRanges (file : Buffer) (c k : ℕ) : List (ℕ × ℕ) :=
  innerRanges file (k * c) (blockStop file.length c k)

/-- The edge vector of a buffer of which the chunks in `finished` have been processed. -/
def edgesOf (file : Buffer) (c : ℕ) (finished : List ℕ) : List EdgePair :=
  (List.range (blockCount file.length c)).map fun k =>
    if k ∈ finished then chunkEdge file (k * c) (blockStop file.length c k) else (none, none)

/-- The ranges that the finished tasks of one worker have counted, in the order of the tasks. -/
def workerRanges (file : Buffer) (c : ℕ) (finished : List (Task workers)) (threadIndex : Fin workers) :
    List (ℕ × ℕ) :=
  (finished.filter fun task => task.2 = threadIndex).flatMap fun task => chunkRanges file c task.1

/-- The state of a run whose finished tasks are `finished`. -/
structure Progress (file : Buffer) (c : ℕ) (finished : List (Task workers))
    (s : Shared workers) : Prop where
  length : s.data.length = file.length
  lowered : ∀ p, p < file.length → p / c ∈ finished.map Prod.fst →
    byteAt s.data p = toLower (byteAt file p)
  edges : s.chunkEdges = edgesOf file c (finished.map Prod.fst)
  frequency : ∀ threadIndex, s.frequency threadIndex =
    countRanges (lower file) Tally.empty (workerRanges file c finished threadIndex)

/-- The bytes of chunk `k` are those of the file, up to case. -/
def Loaded (file : Buffer) (c k : ℕ) (data : Buffer) : Prop :=
  ∀ p, p < file.length → p / c = k → toLower (byteAt data p) = toLower (byteAt file p)

variable {file data : Buffer} {c k : ℕ}

theorem Loaded.byte (hc : 0 < c) (h : Loaded file c k data) {i : ℕ} (hlow : k * c ≤ i)
    (hhigh : i < blockStop file.length c k) : toLower (byteAt data i) = toLower (byteAt file i) := by
  obtain ⟨hlt, hdiv⟩ := (mem_block_iff hc).mp ⟨hlow, hhigh⟩
  exact h i hlt hdiv

/-- Letters stay letters, so a loaded chunk has the delimiters of the file. -/
theorem Loaded.delimAt_eq (hc : 0 < c) (h : Loaded file c k data) {i : ℕ} (hlow : k * c ≤ i)
    (hhigh : i < blockStop file.length c k) : delimAt data i = delimAt file i := by
  rw [← delimAt_lower data, ← delimAt_lower file, delimAt, delimAt, byteAt_lower, byteAt_lower,
    h.byte hc hlow hhigh]

theorem getElem?_eq_some_byteAt {data : Buffer} {i : ℕ} (h : i < data.length) :
    data[i]? = some (byteAt data i) := by
  rw [byteAt, List.getElem?_eq_getElem h, Option.getD_some]

/-- Inside a loaded chunk the lowered buffer has the texts of the lowered file. -/
theorem Loaded.slice_eq (hc : 0 < c) (h : Loaded file c k data)
    (hlength : data.length = file.length) {b e : ℕ} (hb : k * c ≤ b)
    (he : e ≤ blockStop file.length c k) : slice (lower data) b e = slice (lower file) b e := by
  apply slice_congr
  intro i hi hie
  have hstop : blockStop file.length c k ≤ file.length := blockStop_le
  rw [getElem?_eq_some_byteAt (by rw [length_lower]; omega),
    getElem?_eq_some_byteAt (by rw [length_lower]; omega), byteAt_lower, byteAt_lower,
    h.byte hc (by omega) (by omega)]

theorem Loaded.chunkEdge_eq (hc : 0 < c) (hk : k < blockCount file.length c)
    (h : Loaded file c k data) :
    chunkEdge data (k * c) (blockStop file.length c k) =
      chunkEdge file (k * c) (blockStop file.length c k) :=
  chunkEdge_congr (Nat.le_of_lt (start_lt_blockStop hc hk)) fun _ => h.delimAt_eq hc

/-- The task of a loaded chunk counts what it would count in the file. -/
theorem Loaded.countRanges_eq (hc : 0 < c) (hk : k < blockCount file.length c)
    (h : Loaded file c k data) (hlength : data.length = file.length) (tally : Tally) :
    countRanges (lower data) tally (innerRanges data (k * c) (blockStop file.length c k)) =
      countRanges (lower file) tally (chunkRanges file c k) := by
  have hranges : innerRanges data (k * c) (blockStop file.length c k) = chunkRanges file c k :=
    innerRanges_congr (Nat.le_of_lt (start_lt_blockStop hc hk)) fun _ => h.delimAt_eq hc
  rw [hranges]
  apply countRanges_congr
  · rw [length_lower, length_lower, hlength]
  · rintro ⟨b, e⟩ hmem
    have hword := (mem_innerRanges_iff hc hk).mp hmem
    exact h.slice_eq hc hlength (Nat.le_of_lt hword.start_lt) (Nat.le_of_lt hword.lt_stop)

/-- Recording one more chunk. A chunk without delimiters leaves its entry null. -/
theorem edgesOf_append (file : Buffer) (c k : ℕ) (finished : List ℕ) :
    edgesOf file c (finished ++ [k]) =
      (edgesOf file c finished).set k (chunkEdge file (k * c) (blockStop file.length c k)) := by
  apply List.ext_getElem?
  intro j
  rw [List.getElem?_set]
  by_cases hj : j < blockCount file.length c
  · by_cases hjk : k = j
    · subst hjk
      simp [edgesOf, hj]
    · simp [edgesOf, hj, hjk, Ne.symm hjk]
  · by_cases hjk : k = j
    · subst hjk
      simp [edgesOf, hj]
    · simp [edgesOf, hj, hjk]

theorem edgesOf_append_of_noDelim (hc : 0 < c) (hk : k < blockCount file.length c)
    (h : NoDelim file c k) {finished : List ℕ} (hnew : k ∉ finished) :
    edgesOf file c (finished ++ [k]) = edgesOf file c finished := by
  unfold edgesOf
  apply List.map_congr_left
  intro j hj
  by_cases hjk : j = k
  · subst hjk
    simp [hnew, chunkEdge_of_noDelim hc hk h]
  · simp [hjk]

theorem workerRanges_append (file : Buffer) (c : ℕ) (finished : List (Task workers))
    (task : Task workers) (threadIndex : Fin workers) :
    workerRanges file c (finished ++ [task]) threadIndex =
      workerRanges file c finished threadIndex ++
        if task.2 = threadIndex then chunkRanges file c task.1 else [] := by
  unfold workerRanges
  rw [List.filter_append, List.flatMap_append]
  by_cases h : task.2 = threadIndex
  · simp [h]
  · simp [h]

namespace Progress

theorem init (file data : Buffer) (c : ℕ) (hlength : data.length = file.length) :
    Progress file c ([] : List (Task workers))
      (Shared.init workers data (blockCount file.length c)) where
  length := hlength
  lowered := by
    intro p _ hmem
    exact absurd hmem (by simp)
  edges := by
    simp [edgesOf, Shared.init, List.map_const']
  frequency := fun _ => rfl

/-- A task on a loaded chunk that was not processed before extends the finished tasks by itself. -/
theorem step {finished : List (Task workers)} {s : Shared workers} {task : Task workers}
    (h : Progress file c finished s) (hc : 0 < c) (hk : task.1 < blockCount file.length c)
    (hnew : task.1 ∉ finished.map Prod.fst) (hloaded : Loaded file c task.1 s.data) :
    Progress file c (finished ++ [task]) (runChunk c s task) := by
  have hk' : task.1 < blockCount s.data.length c := by rwa [h.length]
  refine ⟨?_, ?_, ?_, ?_⟩
  · change (processChunk _ _ _ _).data.length = file.length
    rw [processChunk_data, length_lower]
    exact h.length
  · intro p hp hmem
    change byteAt (processChunk _ _ _ _).data p = _
    rw [processChunk_data, byteAt_lower]
    simp only [List.map_append, List.map_cons, List.map_nil, List.mem_append,
      List.mem_singleton] at hmem
    rcases hmem with hold | hthis
    · rw [h.lowered p hp hold, toLower_toLower]
    · exact hloaded p hp hthis
  · change (processChunk _ _ _ _).chunkEdges = _
    rw [List.map_append, List.map_singleton]
    have hnoDelim : NoDelim s.data c task.1 ↔ NoDelim file c task.1 := by
      unfold NoDelim
      rw [h.length]
      refine forall_congr' fun i => forall_congr' fun hlow => forall_congr' fun hhigh => ?_
      rw [hloaded.delimAt_eq hc hlow hhigh]
    by_cases hnone : NoDelim file c task.1
    · rw [processChunk_chunkEdges_of_noDelim _ hc hk' (hnoDelim.mpr hnone),
        edgesOf_append_of_noDelim hc hk hnone hnew]
      exact h.edges
    · rw [processChunk_chunkEdges_of_delim _ hc hk' (mt hnoDelim.mp hnone), edgesOf_append]
      change s.chunkEdges.set _ (chunkEdge s.data _ (blockStop s.data.length _ _)) = _
      rw [h.edges, h.length, hloaded.chunkEdge_eq hc hk]
  · intro threadIndex
    rw [workerRanges_append, countRanges_append]
    by_cases hthread : task.2 = threadIndex
    · subst hthread
      change Function.update s.frequency task.2 (processChunk _ _ _ _).freqPerThread task.2 = _
      rw [Function.update_self, processChunk_freqPerThread, if_pos rfl, ← h.frequency]
      change countRanges (lower s.data) (s.frequency task.2)
        (innerRanges s.data _ (blockStop s.data.length _ _)) = _
      rw [h.length]
      exact hloaded.countRanges_eq hc hk h.length _
    · change Function.update s.frequency task.2 _ threadIndex = _
      rw [Function.update_of_ne (Ne.symm hthread), if_neg hthread, countRanges_nil]
      exact h.frequency threadIndex

/-- A run on a loaded buffer, from any point of it on. -/
theorem chunkRun {finished order : List (Task workers)} {s : Shared workers}
    (h : Progress file c finished s) (hc : 0 < c)
    (hbound : ∀ task ∈ order, task.1 < blockCount file.length c)
    (hnodup : ((finished ++ order).map Prod.fst).Nodup) (hloaded : lower s.data = lower file) :
    Progress file c (finished ++ order) (chunkRun c order s) := by
  induction order generalizing finished s with
  | nil =>
      rw [List.append_nil]
      exact h
  | cons task order ih =>
      obtain ⟨hk, hbound⟩ := List.forall_mem_cons.mp hbound
      have hnew : task.1 ∉ finished.map Prod.fst := by
        intro hmem
        rw [List.map_append, List.map_cons] at hnodup
        exact List.disjoint_of_nodup_append hnodup hmem List.mem_cons_self
      have hbytes : Loaded file c task.1 s.data := by
        intro p _ _
        rw [← byteAt_lower, ← byteAt_lower, hloaded]
      have hstep := h.step hc hk hnew hbytes
      have happend : finished ++ task :: order = finished ++ [task] ++ order := by simp
      rw [happend] at hnodup ⊢
      refine ih hstep hbound hnodup ?_
      change lower (processChunk _ _ _ _).data = lower file
      rw [processChunk_data, lower_lower]
      exact hloaded

/-- A whole schedule on a loaded buffer. -/
theorem schedule (hc : 0 < c) (file : Buffer)
    (schedule : Schedule (blockCount file.length c) workers) :
    Progress file c schedule.order (FreqUtility.chunkRun c schedule.order
      (Shared.init workers file (blockCount file.length c))) := by
  exact (init file file c rfl).chunkRun hc schedule.lt_chunks
    (schedule.perm.nodup_iff.mpr List.nodup_range) rfl

end Progress

/-- Once every chunk has been processed, every entry holds the edges of its chunk. -/
theorem getElem?_edgesOf {finished : List ℕ}
    (hall : finished.Perm (List.range (blockCount file.length c))) (hk : k < blockCount file.length c) :
    (edgesOf file c finished)[k]? = some (chunkEdge file (k * c) (blockStop file.length c k)) := by
  have hmem : k ∈ finished := hall.symm.subset (List.mem_range.mpr hk)
  simp [edgesOf, hk, hmem]

theorem edgesOf_eq_of_perm {finished finished' : List ℕ} (h : finished.Perm finished') :
    edgesOf file c finished = edgesOf file c finished' := by
  unfold edgesOf
  apply List.map_congr_left
  intro k _
  simp only [h.mem_iff]

theorem recordedEdges_eq (hc : 0 < c) (file : Buffer) :
    recordedEdges file c = edgesOf file c (List.range (blockCount file.length c)) := by
  have h := Progress.schedule hc file (Schedule.inOrder (blockCount file.length c) (0 : Fin 1))
  unfold recordedEdges
  rw [h.edges]
  exact edgesOf_eq_of_perm (Schedule.inOrder _ _).perm

theorem length_recordedEdges (hc : 0 < c) (file : Buffer) :
    (recordedEdges file c).length = blockCount file.length c := by
  rw [recordedEdges_eq hc, edgesOf, List.length_map, List.length_range]

/-- The entry that `process_chunk` records for chunk `k`. -/
theorem getElem?_recordedEdges (hc : 0 < c) (hk : k < blockCount file.length c) :
    (recordedEdges file c)[k]? = some (chunkEdge file (k * c) (blockStop file.length c k)) := by
  rw [recordedEdges_eq hc]
  exact getElem?_edgesOf (List.Perm.refl _) hk

end FreqUtility
