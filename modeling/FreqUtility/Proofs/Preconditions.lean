/-
Module: FreqUtility.Proofs.Preconditions
Layer: Proofs
Purpose: What the drivers require of a file and a machine without checking it. A driver divides by the page
  size, the number of tasks and the block size, and `process_edges` reads the first and the last entry
  of `chunk_edges`. No task and no step of the AIO loop changes the number of entries, so all of it is
  decided before the first byte is read. `methodPreconditions_iff` lists the files and machines for
  which the method that `get_method` chooses meets its preconditions.
Imports: FreqUtility.Core.Main, FreqUtility.Proofs.AioBlocks
Trusted boundary: none (fully proved)
Main exports: BlockingReadPreconditions, AioPreconditions, MethodPreconditions, methodPreconditions_iff
Open obligations: none
-/
import FreqUtility.Core.Main
import FreqUtility.Proofs.AioBlocks

namespace FreqUtility

open Blocks Transition

variable {workers : ℕ} {config : FreqConfig} {file : Buffer}

/-! ### The number of edge entries -/

theorem length_chunkEdges_readTask (file : Buffer) (chunkSize chunks : ℕ) (s : ReadState workers)
    (task : Task workers) :
    (readTask file chunkSize chunks s task).shared.chunkEdges.length =
      s.shared.chunkEdges.length :=
  Shared.length_chunkEdges_processChunk _ _ _ _ _

theorem length_chunkEdges_readTasks (file : Buffer) (chunkSize chunks : ℕ)
    (order : List (Task workers)) (s : ReadState workers) :
    (order.foldl (readTask file chunkSize chunks) s).shared.chunkEdges.length =
      s.shared.chunkEdges.length := by
  induction order generalizing s with
  | nil => rfl
  | cons task order ih => rw [List.foldl_cons, ih, length_chunkEdges_readTask]

/-- The edges that `process_edges` is called with have one entry for each chunk of the plan. -/
theorem length_chunkEdges_blockingRead {c chunks : ℕ}
    (hplan : planChunks config file.length = .ok (c, chunks))
    (order : List (Task config.processorCount)) :
    ∃ s, blockingRead config file order = .ok s ∧ s.chunkEdges.length = chunks := by
  unfold blockingRead
  rw [hplan]
  refine ⟨_, rfl, ?_⟩
  rw [length_chunkEdges_readTasks]
  exact List.length_replicate

theorem shared_prepRequests (fileSize blkSize : ℕ) (indices : List ℕ) (s : AioState) :
    (indices.foldl (prepRequest fileSize blkSize) s).shared = s.shared := by
  induction indices generalizing s with
  | nil => rfl
  | cons i indices ih => exact ih _

/-- No step of the AIO loop changes the number of edge entries. -/
theorem Step.length_chunkEdges {blkSize : ℕ} {s t : AioState} {label : Label}
    (h : Step file blkSize s label t) :
    t.shared.chunkEdges.length = s.shared.chunkEdges.length := by
  cases h with
  | head hpc =>
      unfold headStep
      split
      · simp only
        split
        · simp only [shared_prepRequests]
        · rfl
      · rfl
  | submit hpc haccepted => rfl
  | submitFailed hpc hret => rfl
  | complete hmem => rfl
  | getevents hpc hlength hle => rfl
  | geteventsFailed hpc hret => rfl
  | reap hpc =>
      cases hevents : s.events with
      | nil => rw [reapStep_nil hevents]
      | cons event rest =>
          cases hevent : validateEvent s.iocbs event with
          | error message => rw [reapStep_error hevents hevent]
          | ok _ =>
              rw [reapStep_ok hevents hevent]
              exact Shared.length_chunkEdges_processChunk _ _ _ _ _

/-! ### The preconditions of the two parallel methods -/

/-- `process_file_blocking_read` never divides by zero, and has an edge entry when it calls
    `process_edges`, whatever the pool does. -/
structure BlockingReadPreconditions (config : FreqConfig) (file : Buffer) : Prop where
  /-- The divisions of `get_chunk_size`, and the one that gives the number of chunks. -/
  plan : ∃ c chunks, planChunks config file.length = .ok (c, chunks)
  /-- `start_pos / chunk_size` in `process_chunk`. -/
  chunkSize_pos : ∀ c chunks, planChunks config file.length = .ok (c, chunks) → 0 < c
  chunkEdges : ∀ (order : List (Task config.processorCount)) s,
    blockingRead config file order = .ok s → s.chunkEdges ≠ []

/-- `process_file_aio` never divides by zero, and has an edge entry at every point of every run, whatever
    the kernel does. -/
structure AioPreconditions (file : Buffer) : Prop where
  /-- The `howmany` in front of the loop. -/
  init : ∃ s₀, aioInit file.length = .ok s₀
  /-- The `howmany` of every round, and `start_pos / chunk_size` in `process_chunk`. -/
  blkSize_pos : 0 < aioBlockSize file.length
  chunkEdges : ∀ s₀ labels s, aioInit file.length = .ok s₀ →
    Run (Step file (aioBlockSize file.length)) s₀ labels s → s.shared.chunkEdges ≠ []

/-- The preconditions of the method that `get_method` returns; `process_file_dummy` has none. -/
def MethodPreconditions (hasLibaio : Bool) (config : FreqConfig) (file : Buffer) : Prop :=
  match getMethod hasLibaio config with
  | .processFileBlockingRead => BlockingReadPreconditions config file
  | .processFileAio => AioPreconditions file
  | .processFileDummy => True

theorem blockingReadPreconditions_iff (hN : 1 ≤ config.processorCount)
    (hn : file.length < 2 ^ 63) :
    BlockingReadPreconditions config file ↔ 1 ≤ config.diskPageSize ∧ 1 ≤ file.length := by
  constructor
  · intro h
    obtain ⟨c, chunks, hplan⟩ := h.plan
    have hP := diskPageSize_pos_of_planChunks hplan
    refine ⟨hP, ?_⟩
    by_contra hempty
    -- An empty file has no chunk, so `chunk_edges` is empty before any task has run.
    obtain ⟨s, hs, hlength⟩ := length_chunkEdges_blockingRead (planChunks_eq hP hN hn) []
    have hnone : blockCount file.length (chunkSizeOf config file.length) ≤ 0 :=
      blockCount_le (chunkSizeOf_pos hP _) (by omega)
    exact h.chunkEdges [] s hs (List.length_eq_zero_iff.mp (by omega))
  · rintro ⟨hP, hpos⟩
    have hc := chunkSizeOf_pos hP file.length
    have hplan := planChunks_eq hP hN hn
    refine ⟨⟨_, _, hplan⟩, ?_, ?_⟩
    · intro c chunks h
      cases hplan.symm.trans h
      exact hc
    · intro order s hs
      obtain ⟨s', hs', hlength⟩ := length_chunkEdges_blockingRead hplan order
      cases hs.symm.trans hs'
      apply List.ne_nil_of_length_pos
      rw [hlength]
      exact blockCount_pos hc hpos

/-- A block size makes at least one block, since it is less than half the file. -/
theorem howMany_pos {n : ℕ} (hn : n < 2 ^ 63) (hpos : 0 < aioBlockSize n) :
    0 < howMany n (aioBlockSize n) := by
  have hle := aioBlockSize_le n
  obtain ⟨hlow, -⟩ := aioBlockSize_pos_iff.mp hpos
  have hhalf : n / 2 % 2 ^ 32 ≤ n / 2 := Nat.mod_le _ _
  rw [howMany_eq hpos (by omega)]
  exact blockCount_pos hpos (by omega)

theorem aioPreconditions_iff (hn : file.length < 2 ^ 63) :
    AioPreconditions file ↔
      2 ≤ file.length / 2 % 2 ^ 32 ∧ file.length / 2 % 2 ^ 32 ≤ 2 ^ 31 := by
  rw [← aioBlockSize_pos_iff]
  constructor
  · exact AioPreconditions.blkSize_pos
  · intro hpos
    have hinit := aioInit_of_pos hpos
    refine ⟨⟨_, hinit⟩, hpos, ?_⟩
    intro s₀ labels s hs₀ hrun
    cases hinit.symm.trans hs₀
    apply List.ne_nil_of_length_pos
    refine hrun.preserves (p := fun s => 0 < s.shared.chunkEdges.length) ?_ ?_
    · intro s label t hs hstep
      rw [hstep.length_chunkEdges]
      exact hs
    · exact (howMany_pos hn hpos).trans_eq List.length_replicate.symm

/-- For every file, machine and build: the chosen method meets its preconditions exactly when, with more
    than one processor, the page size and the file are not empty, and, with libaio and at most one
    processor, half the file size modulo 2^32 lies between 2 and 2^31. -/
theorem methodPreconditions_iff (hasLibaio : Bool) (config : FreqConfig) (file : Buffer)
    (hn : file.length < 2 ^ 63) :
    MethodPreconditions hasLibaio config file ↔
      (1 < config.processorCount → 1 ≤ config.diskPageSize ∧ 1 ≤ file.length) ∧
        (config.processorCount ≤ 1 → hasLibaio = true →
          2 ≤ file.length / 2 % 2 ^ 32 ∧ file.length / 2 % 2 ^ 32 ≤ 2 ^ 31) := by
  unfold MethodPreconditions getMethod
  by_cases hN : config.processorCount > 1
  · have hmany : ¬ config.processorCount ≤ 1 := Nat.not_le_of_gt hN
    simp only [if_pos hN, hmany, false_implies, and_true]
    rw [blockingReadPreconditions_iff (Nat.le_of_lt hN) hn]
    exact ⟨fun h _ => h, fun h => h hN⟩
  · have hone : config.processorCount ≤ 1 := Nat.le_of_not_gt hN
    cases hasLibaio with
    | true =>
        simp only [if_neg hN, if_true]
        rw [aioPreconditions_iff hn]
        exact ⟨fun h => ⟨fun hgt => absurd hgt hN, fun _ _ => h⟩, fun h => h.2 hone trivial⟩
    | false =>
        simp only [if_neg hN]
        exact ⟨fun _ => ⟨fun hgt => absurd hgt hN, fun _ => nofun⟩, fun _ => trivial⟩

/-- Two processors, and a file of one byte. -/
theorem methodPreconditions_one_byte :
    MethodPreconditions true ⟨2, 4096, by decide, by decide⟩ [0x61] :=
  (methodPreconditions_iff true ⟨2, 4096, by decide, by decide⟩ [0x61] (by decide)).mpr
    ⟨fun _ => by decide, fun h => absurd h (by decide)⟩

/-- An empty file has no chunk, so `process_edges` reads the front of an empty vector; a file of three
    bytes has the AIO block size zero; and a page size of zero is divided by. -/
theorem methodPreconditions_fail :
    (¬ MethodPreconditions true ⟨2, 4096, by decide, by decide⟩ [] ∧
        processFileBlockingRead ⟨2, 4096, by decide, by decide⟩ [] [] = .error .emptyChunkEdges) ∧
      (¬ MethodPreconditions true ⟨1, 4096, by decide, by decide⟩ [0x61, 0x62, 0x63] ∧
        aioInit 3 = .error .divisionByZero) ∧
      ¬ MethodPreconditions true ⟨2, 0, by decide, by decide⟩ [0x61] ∧
        planChunks ⟨2, 0, by decide, by decide⟩ 1 = .error .divisionByZero := by
  refine ⟨⟨?_, rfl⟩, ⟨?_, rfl⟩, ?_, rfl⟩
  · intro h
    have hfile := ((blockingReadPreconditions_iff (by decide) (by decide)).mp h).2
    exact absurd hfile (by decide)
  · intro h
    have hsize := ((aioPreconditions_iff (by decide)).mp h).1
    exact absurd hsize (by decide)
  · intro h
    have hpage := ((blockingReadPreconditions_iff (by decide) (by decide)).mp h).1
    exact absurd hpage (by decide)

end FreqUtility
