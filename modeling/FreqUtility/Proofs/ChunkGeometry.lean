/-
Module: FreqUtility.Proofs.ChunkGeometry
Layer: Proofs
Purpose: The chunks that `process_file_blocking_read` plans. For every file, page size and processor count
  the 64-bit arithmetic of the driver is exact, the ranges of its tasks are consecutive and cover the
  file, and each task has an edge entry of its own (`ChunkGeometry`). Rounding the share of a task down
  to whole pages loses less than half of it, so there are at most eight chunks for each processor.
Imports: FreqUtility.Core.BlockingRead
Trusted boundary: none (fully proved)
Main exports: chunkCount_le, taskStart_div, taskRanges_eq, ChunkGeometry, planChunks_geometry
Open obligations: none
-/
import FreqUtility.Core.BlockingRead

namespace FreqUtility

open Blocks

variable {config : FreqConfig} {n c : ℕ}

theorem diskPageSize_dvd_chunkSizeOf (config : FreqConfig) (n : ℕ) :
    config.diskPageSize ∣ chunkSizeOf config n :=
  Nat.dvd_mul_left _ _

/-- A quarter of a processor's share of the file is less than two chunks. -/
theorem share_lt_two_chunks (hP : 1 ≤ config.diskPageSize) (n : ℕ) :
    n / (config.processorCount * 4) < 2 * chunkSizeOf config n := by
  have hround := lt_two_mul_div_mul hP (Nat.le_max_left config.diskPageSize
    (n / (config.processorCount * 4)))
  exact Nat.lt_of_le_of_lt (Nat.le_max_right _ _) hround

/-- At most eight chunks for each processor. -/
theorem chunkCount_le (hP : 1 ≤ config.diskPageSize) (hN : 1 ≤ config.processorCount) (n : ℕ) :
    blockCount n (chunkSizeOf config n) ≤ 8 * config.processorCount := by
  have hshare := share_lt_two_chunks hP n
  have htasks : 0 < config.processorCount * 4 := Nat.mul_pos hN (by decide)
  apply blockCount_le (chunkSizeOf_pos hP n)
  calc n ≤ config.processorCount * 4 * (n / (config.processorCount * 4) + 1) :=
        Nat.le_of_lt (Nat.lt_mul_div_succ n htasks)
    _ ≤ config.processorCount * 4 * (2 * chunkSizeOf config n) := Nat.mul_le_mul_left _ hshare
    _ = 8 * config.processorCount * chunkSizeOf config n := by ring

/-! ### One task -/

section task

variable {i : ℕ} (hc : 0 < c) (hi : i < blockCount n c) (hn : n < 2 ^ 63)

include hc hi hn

theorem taskStart_lt_taskEnd : taskStart c i < taskEnd n c (blockCount n c) i := by
  rw [taskStart_eq hc hi hn, taskEnd_eq hc hi hn]
  exact start_lt_blockStop hc hi

theorem taskSize_eq : sub64 (taskEnd n c (blockCount n c) i) (taskStart c i) =
    taskEnd n c (blockCount n c) i - taskStart c i := by
  rw [taskStart_eq hc hi hn, taskEnd_eq hc hi hn]
  exact sub64_blockStop hc hi hn

theorem taskSize_le : taskEnd n c (blockCount n c) i - taskStart c i ≤ c := by
  rw [taskStart_eq hc hi hn, taskEnd_eq hc hi hn]
  exact Nat.sub_le_of_le_add (blockStop_le_add.trans_eq (Nat.add_comm _ _))

/-- The index that `process_chunk` computes is the number of the task. -/
theorem taskStart_div : taskStart c i / c = i := by
  rw [taskStart_eq hc hi hn]
  exact Nat.mul_div_cancel i hc

end task

/-! ### All tasks -/

/-- The ranges of the tasks, in the order in which they are enqueued. [SRC freq.cpp:188-193] -/
def taskRanges (fileSize chunkSize chunks : ℕ) : List (ℕ × ℕ) :=
  (List.range chunks).map fun i => (taskStart chunkSize i, taskEnd fileSize chunkSize chunks i)

theorem taskRanges_eq (hc : 0 < c) (hn : n < 2 ^ 63) :
    taskRanges n c (blockCount n c) = blockRanges n c (blockCount n c) := by
  apply List.map_congr_left
  intro i hi
  have hi := List.mem_range.mp hi
  rw [taskStart_eq hc hi hn, taskEnd_eq hc hi hn]

/-- The plan `c`, `chunks` for a file of `n` bytes. -/
structure ChunkGeometry (config : FreqConfig) (n c chunks : ℕ) : Prop where
  /-- The chunk size is a positive multiple of the page size. -/
  chunkSize : getChunkSize config n = .ok c
  chunkSize_pos : 0 < c
  page_dvd : config.diskPageSize ∣ c
  /-- Nothing wraps: neither in `get_chunk_size`, nor in the number of chunks, nor in a task. -/
  tasks_lt : config.processorCount * 4 < 2 ^ 64
  pages_lt : max config.diskPageSize (n / (config.processorCount * 4)) / config.diskPageSize *
    config.diskPageSize < 2 ^ 64
  sum_lt : 1 ≤ n + c ∧ n + c < 2 ^ 64
  chunks_pos : 1 ≤ chunks
  start_lt : ∀ i < chunks, i * c < 2 ^ 64
  stop_lt : ∀ i < chunks, i ≠ chunks - 1 → i * c + c < 2 ^ 64
  /-- The bounds of task `i`, its range non-empty and at most `c` long. -/
  start_eq : ∀ i < chunks, taskStart c i = i * c
  stop_eq : ∀ i < chunks, taskEnd n c chunks i = if i = chunks - 1 then n else (i + 1) * c
  start_lt_stop : ∀ i < chunks, taskStart c i < taskEnd n c chunks i
  size_eq : ∀ i < chunks, sub64 (taskEnd n c chunks i) (taskStart c i) =
    taskEnd n c chunks i - taskStart c i
  size_le : ∀ i < chunks, taskEnd n c chunks i - taskStart c i ≤ c
  /-- In order, the ranges are disjoint and cover the file. -/
  contiguous : Contiguous n (taskRanges n c chunks)
  partitions : Partitions n (taskRanges n c chunks)
  /-- The index of a task's edge entry is the task's own number, and inside `chunk_edges`. -/
  entry_eq : ∀ i < chunks, taskStart c i / c = i
  entry_lt : ∀ i < chunks, taskStart c i / c <
    (ReadState.init config.processorCount n chunks).shared.chunkEdges.length
  entry_inj : ∀ i < chunks, ∀ j < chunks, taskStart c i / c = taskStart c j / c → i = j
  chunks_le : chunks ≤ 8 * config.processorCount

/-- For every file size, page size and processor count the plan is made, and its geometry is right. -/
theorem planChunks_geometry (config : FreqConfig) (n : ℕ) (hP : 1 ≤ config.diskPageSize)
    (hN : 1 ≤ config.processorCount) (hn : 1 ≤ n) (hn' : n < 2 ^ 63) :
    ∃ c chunks, planChunks config n = .ok (c, chunks) ∧ ChunkGeometry config n c chunks := by
  refine ⟨_, _, planChunks_eq hP hN hn', ?_⟩
  have hcount := config.processorCount_lt
  have hc := chunkSizeOf_pos hP n
  have hlt := chunkSizeOf_lt config hn'
  have hsize := getChunkSize_eq hP hN hn'
  have hle : blockCount n (chunkSizeOf config n) ≤ 8 * config.processorCount :=
    chunkCount_le hP hN n
  have hpage := diskPageSize_dvd_chunkSizeOf config n
  have hpages : max config.diskPageSize (n / (config.processorCount * 4)) / config.diskPageSize *
      config.diskPageSize < 2 ^ 63 := hlt
  generalize chunkSizeOf config n = c at hc hlt hsize hle hpage
  have hbelow : ∀ i < blockCount n c, i * c < n := fun i hi => (lt_blockCount_iff hc).mp hi
  have hranges := taskRanges_eq hc hn'
  constructor
  case chunkSize => exact hsize
  case chunkSize_pos => exact hc
  case page_dvd => exact hpage
  case tasks_lt => omega
  case pages_lt => omega
  case sum_lt => exact ⟨by omega, by omega⟩
  case chunks_pos => exact blockCount_pos hc hn
  case start_lt =>
      intro i hi
      have := hbelow i hi
      omega
  case stop_lt =>
      intro i hi _
      have := hbelow i hi
      omega
  case start_eq => exact fun i hi => taskStart_eq hc hi hn'
  case stop_eq =>
      intro i hi
      rw [taskEnd_eq hc hi hn', blockStop_eq_ite hc hi, Nat.succ_mul]
  case start_lt_stop => exact fun i hi => taskStart_lt_taskEnd hc hi hn'
  case size_eq => exact fun i hi => taskSize_eq hc hi hn'
  case size_le => exact fun i hi => taskSize_le hc hi hn'
  case contiguous =>
      rw [hranges]
      exact contiguous_blockRanges hc
  case partitions =>
      rw [hranges]
      exact partitions_of_perm hc (List.Perm.refl _)
  case entry_eq => exact fun i hi => taskStart_div hc hi hn'
  case entry_lt =>
      intro i hi
      rw [taskStart_div hc hi hn']
      exact hi.trans_eq List.length_replicate.symm
  case entry_inj =>
      intro i hi j hj hsame
      rwa [taskStart_div hc hi hn', taskStart_div hc hj hn'] at hsame
  case chunks_le => exact hle

/-- A file of five bytes on two processors with pages of two bytes: three chunks. -/
theorem planChunks_geometry_five_bytes :
    ∃ c chunks, planChunks ⟨2, 2, by decide, by decide⟩ 5 = .ok (c, chunks) ∧
      ChunkGeometry ⟨2, 2, by decide, by decide⟩ 5 c chunks :=
  planChunks_geometry ⟨2, 2, by decide, by decide⟩ 5 (by decide) (by decide) (by decide) (by decide)

end FreqUtility
