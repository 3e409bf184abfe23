/-
Module: FreqUtility.Core.BlockingRead
Layer: Core
Purpose: `process_file_blocking_read`: the chunk size and the number of chunks in 64-bit unsigned
  arithmetic, the task of one chunk (seek, read the chunk into the shared buffer, process it) and the
  whole driver. The order in which the pool runs the tasks and the worker each of them gets are
  arguments; every worker has its own stream and its own frequency map.
Imports: FreqUtility.Core.ChunkRun, FreqUtility.Core.Stream
Trusted boundary: one task is one atomic step
Main exports: FreqConfig, getChunkSize, planChunks, ReadState, Shared.load, readTask, blockingRead,
  processFileBlockingRead, getChunkSize_eq, planChunks_eq, diskPageSize_pos_of_planChunks, taskStart_eq,
  taskEnd_eq, sub64_blockStop, wrap64_blockStop
Open obligations: none
-/
import FreqUtility.Core.ChunkRun
import FreqUtility.Core.Stream

namespace FreqUtility

open Blocks

/-- The machine's parameters. The processor count comes from an `unsigned int` and the page size from a
    signed 64-bit offset, which the bounds record. [SRC utils.h:8-40] -/
structure FreqConfig where
  processorCount : ℕ
  diskPageSize : ℕ
  processorCount_lt : 4 * processorCount < 2 ^ 64
  diskPageSize_lt : diskPageSize < 2 ^ 63

/-- Unsigned division, which faults on zero. -/
def checkedDiv (x y : ℕ) : Except Fault ℕ :=
  if y = 0 then throw .divisionByZero else return x / y

/-- [SRC freq.cpp:27-33] -/
def getChunkSize (config : FreqConfig) (fileSize : ℕ) : Except Fault ℕ := do
  let perTask ← checkedDiv fileSize (wrap64 (config.processorCount * 4))
  let pages ← checkedDiv (max config.diskPageSize perTask) config.diskPageSize
  return wrap64 (pages * config.diskPageSize)

/-- The chunk size and the number of chunks. [SRC freq.cpp:161-163] -/
def planChunks (config : FreqConfig) (fileSize : ℕ) : Except Fault (ℕ × ℕ) := do
  let chunkSize ← getChunkSize config fileSize
  let chunks ← checkedDiv (sub64 (wrap64 (fileSize + chunkSize)) 1) chunkSize
  return (chunkSize, chunks)

/-- `start_pos` of task `i`. [SRC freq.cpp:190] -/
def taskStart (chunkSize i : ℕ) : ℕ := wrap64 (i * chunkSize)

/-- `end_pos` of task `i`. [SRC freq.cpp:191-193] -/
def taskEnd (fileSize chunkSize chunks i : ℕ) : ℕ :=
  if i = sub64 chunks 1 then fileSize else wrap64 (taskStart chunkSize i + chunkSize)

/-- The shared variables together with the streams of the workers. -/
structure ReadState (workers : ℕ) where
  shared : Shared workers
  file : Fin workers → IfStream

/-- Bytes of the file arrive in the shared buffer. -/
def Shared.load {workers : ℕ} (s : Shared workers) (startPos : ℕ) (bytes : Buffer) : Shared workers :=
  { s with data := store s.data startPos bytes }

/-- The task of one chunk. [SRC freq.cpp:189-202] -/
def readTask {workers : ℕ} (file : Buffer) (chunkSize chunks : ℕ) (s : ReadState workers)
    (task : Task workers) : ReadState workers :=
  let startPos := taskStart chunkSize task.1
  let endPos := taskEnd file.length chunkSize chunks task.1
  let size := sub64 endPos startPos
  let stream := (s.file task.2).seekg (toInt32 startPos)
  let (bytes, stream) := stream.read file (toInt32 size)
  { shared := (s.shared.load startPos bytes).processChunk task.2 startPos endPos chunkSize
    file := Function.update s.file task.2 stream }

/-- The state before the first task: a zero-initialised buffer and freshly opened streams. -/
def ReadState.init (workers fileSize chunks : ℕ) : ReadState workers where
  shared := Shared.init workers (List.replicate fileSize 0) chunks
  file := fun _ => IfStream.opened

/-- The shared variables once the pool has run the tasks in the given order. [SRC freq.cpp:157-204] -/
def blockingRead (config : FreqConfig) (file : Buffer) (order : List (Task config.processorCount)) :
    Except Fault (Shared config.processorCount) := do
  let (chunkSize, chunks) ← planChunks config file.length
  let s := order.foldl (readTask file chunkSize chunks)
    (ReadState.init config.processorCount file.length chunks)
  return s.shared

/-- [SRC freq.cpp:157-215] -/
def processFileBlockingRead (config : FreqConfig) (file : Buffer)
    (order : List (Task config.processorCount)) : Except Fault FreqMap := do
  let s ← blockingRead config file order
  finish s

/-! ### The arithmetic of the driver -/

/-- The chunk size as a mathematical function of the file size. -/
def chunkSizeOf (config : FreqConfig) (fileSize : ℕ) : ℕ :=
  max config.diskPageSize (fileSize / (config.processorCount * 4)) / config.diskPageSize *
    config.diskPageSize

variable {config : FreqConfig} {n c k : ℕ}

theorem diskPageSize_le_chunkSizeOf (hP : 1 ≤ config.diskPageSize) (n : ℕ) :
    config.diskPageSize ≤ chunkSizeOf config n := by
  have hpages : 1 ≤ max config.diskPageSize (n / (config.processorCount * 4)) /
      config.diskPageSize :=
    (Nat.one_le_div_iff hP).mpr (Nat.le_max_left _ _)
  exact Nat.le_mul_of_pos_left _ hpages

theorem chunkSizeOf_pos (hP : 1 ≤ config.diskPageSize) (n : ℕ) : 0 < chunkSizeOf config n :=
  Nat.lt_of_lt_of_le hP (diskPageSize_le_chunkSizeOf hP n)

/-- A chunk is not larger than a page or the file. -/
theorem chunkSizeOf_lt (config : FreqConfig) (hn : n < 2 ^ 63) : chunkSizeOf config n < 2 ^ 63 := by
  have hpage := config.diskPageSize_lt
  have hdiv : n / (config.processorCount * 4) ≤ n := Nat.div_le_self _ _
  exact Nat.lt_of_le_of_lt (Nat.div_mul_le_self _ _) (max_lt hpage (Nat.lt_of_le_of_lt hdiv hn))

theorem checkedDiv_of_pos {x y : ℕ} (h : 0 < y) : checkedDiv x y = .ok (x / y) := by
  rw [checkedDiv, if_neg (Nat.ne_of_gt h)]
  rfl

/-- On a machine with a page size and a processor, nothing wraps and nothing divides by zero. -/
theorem getChunkSize_eq (hP : 1 ≤ config.diskPageSize) (hN : 1 ≤ config.processorCount)
    (hn : n < 2 ^ 63) : getChunkSize config n = .ok (chunkSizeOf config n) := by
  have hcount := config.processorCount_lt
  have hlt := chunkSizeOf_lt config hn
  unfold getChunkSize
  rw [wrap64_of_lt (by omega), checkedDiv_of_pos (by omega)]
  simp only [checkedDiv_of_pos hP, Except.bind, bind, pure, Except.pure]
  exact congrArg Except.ok (wrap64_of_lt (Nat.lt_trans hlt (by decide)))

theorem planChunks_eq (hP : 1 ≤ config.diskPageSize) (hN : 1 ≤ config.processorCount)
    (hn : n < 2 ^ 63) :
    planChunks config n = .ok (chunkSizeOf config n, blockCount n (chunkSizeOf config n)) := by
  have hpos := chunkSizeOf_pos hP n
  have hlt := chunkSizeOf_lt config hn
  unfold planChunks
  rw [getChunkSize_eq hP hN hn]
  simp only [checkedDiv_of_pos hpos, Except.bind, bind, pure, Except.pure]
  rw [wrap64_of_lt (by omega), sub64_of_le (by omega) (by omega)]
  rfl

/-- Without a page size the plan divides by zero. -/
theorem planChunks_of_diskPageSize_eq_zero (hP : config.diskPageSize = 0) (n : ℕ) :
    planChunks config n = .error .divisionByZero := by
  have hpages : ∀ x, checkedDiv x config.diskPageSize = .error .divisionByZero := fun x => if_pos hP
  unfold planChunks getChunkSize
  cases htasks : checkedDiv n (wrap64 (config.processorCount * 4)) with
  | error fault =>
      unfold checkedDiv at htasks
      split at htasks
      · cases htasks
        rfl
      · cases htasks
  | ok perTask =>
      simp only [Except.bind, bind, hpages]

/-- A machine on which the plan succeeds has a page size. -/
theorem diskPageSize_pos_of_planChunks {chunks : ℕ} (hplan : planChunks config n = .ok (c, chunks)) :
    1 ≤ config.diskPageSize := by
  by_contra hP
  rw [planChunks_of_diskPageSize_eq_zero (by omega)] at hplan
  cases hplan

theorem taskStart_eq (hc : 0 < c) (hk : k < blockCount n c) (hn : n < 2 ^ 63) :
    taskStart c k = k * c := by
  have hlt := (lt_blockCount_iff hc).mp hk
  exact wrap64_of_lt (by omega)

/-- The last task ends at the end of the file and every other one after a full chunk. -/
theorem taskEnd_eq (hc : 0 < c) (hk : k < blockCount n c) (hn : n < 2 ^ 63) :
    taskEnd n c (blockCount n c) k = blockStop n c k := by
  have hlt := (lt_blockCount_iff hc).mp hk
  have hchunks : blockCount n c ≤ n := blockCount_le hc (Nat.le_mul_of_pos_right n hc)
  rw [taskEnd, sub64_of_le (by omega) (by omega), blockStop_eq_ite hc hk, taskStart_eq hc hk hn]
  split
  · rfl
  · rename_i hlast
    have hnext := (lt_blockCount_iff (n := n) (k := k + 1) hc).mp (by omega)
    rw [Nat.succ_mul] at hnext
    exact wrap64_of_lt (by omega)

/-- `size` of a task. -/
theorem sub64_blockStop (hc : 0 < c) (hk : k < blockCount n c) (hn : n < 2 ^ 63) :
    sub64 (blockStop n c k) (k * c) = blockStop n c k - k * c := by
  have hle : blockStop n c k ≤ n := blockStop_le
  exact sub64_of_le (Nat.le_of_lt (start_lt_blockStop hc hk)) (by omega)

/-- Start plus size is the end again. -/
theorem wrap64_blockStop (hc : 0 < c) (hk : k < blockCount n c) (hn : n < 2 ^ 63) :
    wrap64 (k * c + (blockStop n c k - k * c)) = blockStop n c k := by
  have hle : blockStop n c k ≤ n := blockStop_le
  rw [Nat.add_sub_cancel' (Nat.le_of_lt (start_lt_blockStop hc hk))]
  exact wrap64_of_lt (by omega)

end FreqUtility
