/-
Module: FreqUtility.Proofs.Schedule
Layer: Proofs
Purpose: `process_file_blocking_read` gives the same result under every schedule. A task reads its chunk and
  then does what `runChunk` does, so the run keeps `Progress`: reading a chunk leaves the finished chunks
  alone (`Progress.load`) and makes its own chunk loaded (`loaded_store`). After the last task the
  buffer, the edges and the sum of the maps do not depend on the order or on the distribution.
Imports: FreqUtility.Core.BlockingRead, FreqUtility.Proofs.CountedRanges
Trusted boundary: none (fully proved)
Main exports: ChunkFits, ReadProgress, ReadProgress.step, ReadProgress.run, finish_congr,
  blockingRead_schedule_independent
Open obligations: none
-/
import FreqUtility.Core.BlockingRead
import FreqUtility.Proofs.CountedRanges

namespace FreqUtility

open MaximalRuns Blocks CountMaps

variable {workers : ℕ} {file data bytes : Buffer} {c k : ℕ}

/-! ### Reading one chunk -/

/-- The bytes of chunk `k`, as a read of the file delivers them. -/
def chunkBytes (file : Buffer) (c k : ℕ) : Buffer :=
  (file.drop (k * c)).take (blockStop file.length c k - k * c)

theorem length_chunkBytes (hc : 0 < c) (hk : k < blockCount file.length c) :
    k * c + (chunkBytes file c k).length = blockStop file.length c k := by
  have hlt := start_lt_blockStop hc hk
  have hle : blockStop file.length c k ≤ file.length := blockStop_le
  rw [chunkBytes, List.length_take, List.length_drop]
  omega

theorem byteAt_chunkBytes {p : ℕ} (hlow : k * c ≤ p) (hhigh : p < blockStop file.length c k) :
    byteAt (chunkBytes file c k) (p - k * c) = byteAt file p := by
  rw [byteAt, byteAt, chunkBytes, List.getElem?_take_of_lt (by omega), List.getElem?_drop,
    Nat.add_sub_cancel' hlow]

theorem length_store_chunkBytes (hc : 0 < c) (hk : k < blockCount file.length c)
    (hlength : data.length = file.length) :
    (store data (k * c) (chunkBytes file c k)).length = data.length := by
  have hle : blockStop file.length c k ≤ file.length := blockStop_le
  exact length_store (by rw [length_chunkBytes hc hk, hlength]; exact hle)

theorem byteAt_store_chunkBytes (hc : 0 < c) (hk : k < blockCount file.length c)
    (hlength : data.length = file.length) {p : ℕ} (hp : p < file.length) :
    byteAt (store data (k * c) (chunkBytes file c k)) p =
      if p / c = k then byteAt file p else byteAt data p := by
  have hle : blockStop file.length c k ≤ file.length := blockStop_le
  have hbound := length_chunkBytes hc hk
  rw [byteAt_store (by rw [hbound, hlength]; exact hle), hbound]
  by_cases hin : p / c = k
  · have hblock := (mem_block_iff hc).mpr ⟨hp, hin⟩
    rw [if_pos hblock, if_pos hin, byteAt_chunkBytes hblock.1 hblock.2]
  · have hblock : ¬ (k * c ≤ p ∧ p < blockStop file.length c k) := fun hblock =>
      hin ((mem_block_iff hc).mp hblock).2
    rw [if_neg hblock, if_neg hin]

/-- A chunk that was just read is loaded. -/
theorem loaded_store (hc : 0 < c) (hk : k < blockCount file.length c)
    (hlength : data.length = file.length) :
    Loaded file c k (store data (k * c) (chunkBytes file c k)) := by
  intro p hp hin
  rw [byteAt_store_chunkBytes hc hk hlength hp, if_pos hin]

/-- Reading a chunk that was not processed yet leaves the finished chunks alone. -/
theorem Progress.load {finished : List (Task workers)} {s : Shared workers}
    (h : Progress file c finished s) (hc : 0 < c) (hk : k < blockCount file.length c)
    (hnew : k ∉ finished.map Prod.fst) :
    Progress file c finished (s.load (k * c) (chunkBytes file c k)) where
  length := (length_store_chunkBytes hc hk h.length).trans h.length
  lowered := by
    intro p hp hmem
    have hother : p / c ≠ k := fun heq => hnew (heq ▸ hmem)
    change byteAt (store s.data _ _) p = _
    rw [byteAt_store_chunkBytes hc hk h.length hp, if_neg hother]
    exact h.lowered p hp hmem
  edges := h.edges
  frequency := h.frequency

/-! ### The driver's task -/

/-- `Progress`, and every stream can still be read. -/
structure ReadProgress (file : Buffer) (c : ℕ) (finished : List (Task workers))
    (s : ReadState workers) : Prop where
  shared : Progress file c finished s.shared
  good : ∀ t, (s.file t).Good

/-- The position and the size of chunk `k` fit into an `int`. -/
def ChunkFits (n c k : ℕ) : Prop := k * c < 2 ^ 31 ∧ blockStop n c k - k * c < 2 ^ 31

theorem chunkFits_of_lt {n : ℕ} (hc : 0 < c) (hn : n < 2 ^ 31) (hk : k < blockCount n c) :
    ChunkFits n c k := by
  have hlt := start_lt_blockStop hc hk
  have hle : blockStop n c k ≤ n := blockStop_le
  exact ⟨by omega, by omega⟩

/-- A task whose chunk fits reads it, and then does what `runChunk` does. -/
theorem readTask_spec {s : ReadState workers} {task : Task workers} (hc : 0 < c)
    (hn : file.length < 2 ^ 63) (hk : task.1 < blockCount file.length c)
    (hfits : ChunkFits file.length c task.1) (hlength : s.shared.data.length = file.length)
    (hgood : ∀ t, (s.file t).Good) :
    (readTask file c (blockCount file.length c) s task).shared =
        runChunk c (s.shared.load (task.1 * c) (chunkBytes file c task.1)) task ∧
      ∀ t, ((readTask file c (blockCount file.length c) s task).file t).Good := by
  have hlt := start_lt_blockStop hc hk
  have hle : blockStop file.length c task.1 ≤ file.length := blockStop_le
  have hbound : task.1 * c + (blockStop file.length c task.1 - task.1 * c) ≤ file.length := by omega
  have hread := IfStream.read_seekg (hgood task.2) file hbound
  unfold readTask runChunk Shared.load
  simp only [taskStart_eq hc hk hn, taskEnd_eq hc hk hn, sub64_blockStop hc hk hn,
    toInt32_of_lt hfits.1, toInt32_of_lt hfits.2]
  constructor
  · rw [length_store_chunkBytes hc hk hlength, hlength, hread.1]
    rfl
  · intro t
    by_cases ht : t = task.2
    · subst ht
      rw [Function.update_self]
      exact hread.2
    · rw [Function.update_of_ne ht]
      exact hgood t

/-- One task extends the finished tasks by itself. -/
theorem ReadProgress.step {finished : List (Task workers)} {s : ReadState workers}
    {task : Task workers} (h : ReadProgress file c finished s) (hc : 0 < c)
    (hn : file.length < 2 ^ 63) (hk : task.1 < blockCount file.length c)
    (hfits : ChunkFits file.length c task.1) (hnew : task.1 ∉ finished.map Prod.fst) :
    ReadProgress file c (finished ++ [task])
      (readTask file c (blockCount file.length c) s task) := by
  obtain ⟨hshared, hgood⟩ := readTask_spec hc hn hk hfits h.shared.length h.good
  refine ⟨?_, hgood⟩
  rw [hshared]
  exact (h.shared.load hc hk hnew).step hc hk hnew (loaded_store hc hk h.shared.length)

/-- A run of tasks on distinct chunks. -/
theorem ReadProgress.run {finished order : List (Task workers)} {s : ReadState workers}
    (h : ReadProgress file c finished s) (hc : 0 < c) (hn : file.length < 2 ^ 63)
    (hbound : ∀ task ∈ order, task.1 < blockCount file.length c)
    (hfits : ∀ k, k < blockCount file.length c → ChunkFits file.length c k)
    (hnodup : ((finished ++ order).map Prod.fst).Nodup) :
    ReadProgress file c (finished ++ order)
      (order.foldl (readTask file c (blockCount file.length c)) s) := by
  induction order generalizing finished s with
  | nil =>
      rw [List.append_nil]
      exact h
  | cons task order ih =>
      obtain ⟨hk, hbound⟩ := List.forall_mem_cons.mp hbound
      have hnew : task.1 ∉ finished.map Prod.fst := by
        intro hmem
        rw [List.map_append, List.map_cons] at hnodup
        exact List.disjoint_of_nodup_append hnodup hmem List.mem_cons_self
      have happend : finished ++ task :: order = finished ++ [task] ++ order := by simp
      rw [happend] at hnodup ⊢
      exact ih (h.step hc hn hk (hfits _ hk) hnew) hbound hnodup

theorem readProgress_init (file : Buffer) (c workers : ℕ) :
    ReadProgress file c [] (ReadState.init workers file.length (blockCount file.length c)) where
  shared := Progress.init file _ c List.length_replicate
  good := fun _ => IfStream.good_opened

/-! ### Every schedule -/

/-- The merged result depends on the buffer, the edges and the multiset of counted ranges only. -/
theorem finish_congr {s s' : Shared workers} {ranges ranges' : Fin workers → List (ℕ × ℕ)}
    (hdata : s.data = s'.data) (hedges : s.chunkEdges = s'.chunkEdges)
    (hreplays : (processEdges s.data s.chunkEdges).Replays s.data)
    (hfrequency : ∀ t, s.frequency t = countRanges s.data Tally.empty (ranges t))
    (hfrequency' : ∀ t, s'.frequency t = countRanges s.data Tally.empty (ranges' t))
    (hvalid : ∀ t, ∀ r ∈ ranges t, ValidRange s.data r)
    (hvalid' : ∀ t, ∀ r ∈ ranges' t, ValidRange s.data r)
    (hperm : ((List.finRange workers).flatMap ranges).Perm ((List.finRange workers).flatMap ranges')) :
    finish s = finish s' := by
  have hreplays' : processEdges s'.data s'.chunkEdges =
      countRanges s.data Tally.empty (processEdges s.data s.chunkEdges).calls := by
    rw [← hdata, ← hedges]
    exact hreplays
  cases hfreq : (processEdges s.data s.chunkEdges).freq with
  | error fault =>
      -- Both runs end with the fault of `process_edges`.
      have hfreq' : (processEdges s'.data s'.chunkEdges).freq = .error fault := by
        rw [← hdata, ← hedges]
        exact hfreq
      unfold finish
      rw [hfreq, hfreq']
      rfl
  | ok m₀ =>
      rw [hreplays] at hfreq
      obtain ⟨-, -, hcalls, -⟩ := freq_countRanges_eq_ok_iff.mp hfreq
      have hcounts := (Counts.empty.countAll (texts s.data
        (processEdges s.data s.chunkEdges).calls)).countAll
          (texts s.data ((List.finRange workers).flatMap ranges))
      rw [zero_add] at hcounts
      have htexts : (texts s.data ((List.finRange workers).flatMap ranges) : Multiset Word) =
          texts s.data ((List.finRange workers).flatMap ranges') :=
        Multiset.coe_eq_coe.mpr (hperm.map _)
      have hok := (finish_eq_ok_iff hreplays hfrequency hvalid).mpr ⟨hcalls, hcounts⟩
      rw [htexts] at hcounts
      have hok' := (finish_eq_ok_iff hreplays' hfrequency' hvalid').mpr ⟨hcalls, hcounts⟩
      rw [hok, hok']

/-- The driver's run under one schedule, as long as every chunk fits. -/
theorem blockingRead_spec {config : FreqConfig} (hP : 1 ≤ config.diskPageSize)
    (hN : 1 ≤ config.processorCount) (hn : file.length < 2 ^ 63)
    (hfits : ∀ k, k < blockCount file.length (chunkSizeOf config file.length) →
      ChunkFits file.length (chunkSizeOf config file.length) k)
    (schedule : Schedule (blockCount file.length (chunkSizeOf config file.length))
      config.processorCount) :
    ∃ s, blockingRead config file schedule.order = .ok s ∧
      Progress file (chunkSizeOf config file.length) schedule.order s := by
  have hc := chunkSizeOf_pos hP file.length
  have hrun := (readProgress_init file (chunkSizeOf config file.length)
    config.processorCount).run hc hn schedule.lt_chunks hfits
      (schedule.perm.nodup_iff.mpr List.nodup_range)
  refine ⟨_, ?_, hrun.shared⟩
  rw [blockingRead, planChunks_eq hP hN hn]
  rfl

/-- Under every schedule `process_file_blocking_read` ends with the lowered file, the same edges and the
    same result (or the same fault of `process_edges`) as the run in order by a single worker. -/
theorem blockingRead_schedule_independent (config : FreqConfig) (file : Buffer)
    (hP : 1 ≤ config.diskPageSize) (hN : 1 ≤ config.processorCount) (hn : 1 ≤ file.length)
    (hn' : file.length < 2 ^ 31)
    (schedule : Schedule (blockCount file.length (chunkSizeOf config file.length))
      config.processorCount) (t : Fin config.processorCount) :
    ∃ s s₀, blockingRead config file schedule.order = .ok s ∧
      blockingRead config file (Schedule.inOrder
        (blockCount file.length (chunkSizeOf config file.length)) t).order = .ok s₀ ∧
      s.data = lower file ∧ s₀.data = lower file ∧ s.chunkEdges = s₀.chunkEdges ∧
      (processEdges s.data s.chunkEdges).calls = (processEdges s₀.data s₀.chunkEdges).calls ∧
      processFileBlockingRead config file schedule.order =
        processFileBlockingRead config file (Schedule.inOrder
          (blockCount file.length (chunkSizeOf config file.length)) t).order := by
  have hc := chunkSizeOf_pos hP file.length
  have hlt : file.length < 2 ^ 63 := by omega
  have hfits : ∀ k, k < blockCount file.length (chunkSizeOf config file.length) →
      ChunkFits file.length (chunkSizeOf config file.length) k :=
    fun k hk => chunkFits_of_lt hc hn' hk
  generalize hinOrder : Schedule.inOrder
    (blockCount file.length (chunkSizeOf config file.length)) t = schedule₀
  obtain ⟨s, hs, hprogress⟩ := blockingRead_spec hP hN hlt hfits schedule
  obtain ⟨s₀, hs₀, hprogress₀⟩ := blockingRead_spec hP hN hlt hfits schedule₀
  have hdata := hprogress.data_eq hc schedule.perm
  have hdata₀ := hprogress₀.data_eq hc schedule₀.perm
  have hedges := hprogress.chunkEdges_eq hc schedule.perm
  have hedges₀ := hprogress₀.chunkEdges_eq hc schedule₀.perm
  refine ⟨s, s₀, hs, hs₀, hdata, hdata₀, hedges.trans hedges₀.symm, ?_, ?_⟩
  · rw [hdata, hdata₀, hedges, hedges₀]
  · rw [processFileBlockingRead, processFileBlockingRead, hs, hs₀]
    refine finish_congr (hdata.trans hdata₀.symm) (hedges.trans hedges₀.symm) ?_ ?_ ?_ ?_ ?_
      ((sum_workerRanges schedule.perm).trans (sum_workerRanges schedule₀.perm).symm)
    · rw [hdata, hedges]
      exact processEdges_recorded_replays hc hn
    · rw [hdata]
      exact hprogress.frequency
    · rw [hdata]
      exact hprogress₀.frequency
    · rw [hdata]
      exact validRange_of_mem_workerRanges hc schedule.perm
    · rw [hdata]
      exact validRange_of_mem_workerRanges hc schedule₀.perm

/-- `ab cd` with pages of two bytes: three tasks out of order on two workers. -/
theorem blockingRead_schedule_independent_ab_cd :
    processFileBlockingRead ⟨2, 2, by decide, by decide⟩ [0x61, 0x62, 0x20, 0x63, 0x64]
        [(2, 0), (0, 1), (1, 0)] =
      processFileBlockingRead ⟨2, 2, by decide, by decide⟩ [0x61, 0x62, 0x20, 0x63, 0x64]
        (Schedule.inOrder 3 0).order := by
  obtain ⟨_, _, -, -, -, -, -, -, hsame⟩ := blockingRead_schedule_independent
    ⟨2, 2, by decide, by decide⟩ [0x61, 0x62, 0x20, 0x63, 0x64] (by decide) (by decide) (by decide)
    (by decide) ⟨[(2, (0 : Fin 2)), (0, 1), (1, 0)], by decide⟩ (0 : Fin 2)
  exact hsame

end FreqUtility
