/-
Module: FreqUtility.Core.PooledRead
Layer: Core
Purpose: `process_file_blocking_read` with its thread pool as one transition system. Between its dequeue and
  its end a task first reads its chunk into the shared buffer and then processes it, so the reads and the
  `process_chunk` calls of different threads interleave; the steps of the pool are those of `PoolStep`.
Imports: FreqUtility.Core.ThreadPool, FreqUtility.Core.TableDrivers
Trusted boundary: the read of a chunk and the call of `process_chunk` are one atomic step each
Main exports: loadTask, processTask, PooledState, PooledStep
Open obligations: none
-/
import FreqUtility.Core.ThreadPool
import FreqUtility.Core.TableDrivers

namespace FreqUtility

open Replace

section

variable {threads : ℕ} (mixedHash : Word → UInt64) (file : Buffer) (chunkSize chunks : ℕ)

/-! ### The two halves of a task -/

/-- Seek and read. [SRC freq.cpp:190-200] -/
def loadTask (s : TableState threads) (task : Task threads) : TableState threads :=
  let startPos := taskStart chunkSize task.1
  let endPos := taskEnd file.length chunkSize chunks task.1
  let size := sub64 endPos startPos
  let stream := (s.read.file task.2).seekg (toInt32 startPos)
  let (bytes, stream) := stream.read file (toInt32 size)
  { s with
    read :=
      { shared := s.read.shared.load startPos bytes
        file := Function.update s.read.file task.2 stream } }

/-- `process_chunk`, which counts into the map of the thread. [SRC freq.cpp:202] -/
def processTask (s : TableState threads) (task : Task threads) : TableState threads :=
  let startPos := taskStart chunkSize task.1
  let endPos := taskEnd file.length chunkSize chunks task.1
  { read := { s.read with shared := s.read.shared.processChunk task.2 startPos endPos chunkSize }
    frequency := Function.update s.frequency task.2
      (processChunkTable mixedHash s.read.shared.data (s.frequency task.2) startPos endPos) }

/-- Without interleaving the two halves are the task. -/
theorem read_processTask_loadTask (s : TableState threads) (task : Task threads) :
    (processTask mixedHash file chunkSize chunks (loadTask file chunkSize chunks s task) task).read =
      readTask file chunkSize chunks s.read task := rfl

/-! ### The composed system -/

/-- The pool, the variables of the tasks, and which threads have read the chunk of their task. -/
structure PooledState (threads : ℕ) where
  pool : PoolState
  tables : TableState threads
  loaded : Fin threads → Bool

/-- [SRC freq.cpp:165-186] -/
def PooledState.init (threads fileSize chunkSize chunks : ℕ) : PooledState threads where
  pool := PoolState.init
  tables := TableState.init mixedHash threads fileSize chunkSize chunks
  loaded := fun _ => false

inductive PooledLabel where
  | pool (label : PoolLabel)
  | read (index : ℕ)
  | process (index : ℕ)
deriving DecidableEq, Repr

/-- The steps of the pool, where a thread that runs a task reads its chunk and then processes it; with
    that the task is finished. [SRC freq.cpp:185-204] -/
inductive PooledStep : PooledState threads → PooledLabel → PooledState threads → Prop where
  | pool {s} {label : PoolLabel} {pool : PoolState} : (∀ index, label ≠ .finish index) →
      PoolStep threads chunks s.pool label pool →
      PooledStep s (.pool label) { s with pool := pool }
  | read {s} (index : Fin threads) {task : ℕ} :
      ⟨index.val, .running task⟩ ∈ s.pool.workers → s.loaded index = false →
      PooledStep s (.read index.val)
        { s with
          tables := loadTask file chunkSize chunks s.tables (task, index)
          loaded := Function.update s.loaded index true }
  | process {s} (index : Fin threads) {task : ℕ} {workers : List Worker} :
      Replaces ⟨index.val, .running task⟩ ⟨index.val, .checking⟩ s.pool.workers workers →
      s.loaded index = true →
      PooledStep s (.process index.val)
        { pool := { s.pool with
            workers := workers
            finished := s.pool.finished ++ [(task, index.val)] }
          tables := processTask mixedHash file chunkSize chunks s.tables (task, index)
          loaded := Function.update s.loaded index false }

end

end FreqUtility
