/-
Module: FreqUtility.Core.ByteAccess
Layer: Core
Purpose: `process_file_blocking_read` with its accesses to the shared buffer one by one. A read stores the
  bytes of its chunk one after the other; `std::transform` walks over the whole buffer and loads a byte,
  lowers it and stores it again, and between the load and the store any other thread may go on. What
  `process_chunk` does afterwards reads the chunk of its own task only and is one step.
Imports: FreqUtility.Core.PooledRead
Trusted boundary: loads and stores of single bytes are atomic and sequentially consistent, and a read stores
  its bytes in their order
Main exports: countChunk, countChunkTable, seekTask, countTask, TaskPc, ByteState, ByteStep, ByteState.Free,
  UnheldStep
Open obligations: none
-/
import FreqUtility.Core.PooledRead

namespace FreqUtility

open RangeScan Replace

/-! ### The two halves of `process_chunk` -/

/-- What `process_chunk` does after the transformation. [SRC freq.cpp:123-154] -/
def countChunk (s : ChunkState) (startPos endPos chunkSize : ℕ) : ChunkState :=
  let startIt := findIf (delimAt s.data) startPos endPos
  let endIt := findIfRev (delimAt s.data) startPos endPos
  if startIt ≠ endPos then
    let startPtr := some startIt
    let endPtr := if endIt ≠ startPos then some endIt else none
    { data := s.data
      chunkEdges := s.chunkEdges.set (startPos / chunkSize) (startPtr, endPtr)
      freqPerThread := wordLoop s.data (countWord s.data) s.freqPerThread startIt endIt }
  else
    s

theorem processChunk_eq_countChunk (s : ChunkState) (startPos endPos chunkSize : ℕ) :
    processChunk s startPos endPos chunkSize =
      countChunk { s with data := lower s.data } startPos endPos chunkSize := rfl

section

variable {threads : ℕ} (mixedHash : Word → UInt64) (file : Buffer) (chunkSize chunks : ℕ)

/-- What that does to the map of the thread. -/
def countChunkTable (data : Buffer) (freqPerThread : TableResult) (startPos endPos : ℕ) : TableResult :=
  let startIt := findIf (delimAt data) startPos endPos
  let endIt := findIfRev (delimAt data) startPos endPos
  if startIt ≠ endPos then
    wordLoop data (tableCountWord mixedHash data) freqPerThread startIt endIt
  else
    freqPerThread

theorem processChunkTable_eq_countChunkTable (data : Buffer) (freqPerThread : TableResult)
    (startPos endPos : ℕ) :
    processChunkTable mixedHash data freqPerThread startPos endPos =
      countChunkTable mixedHash (lower data) freqPerThread startPos endPos := rfl

/-! ### The parts of a task -/

/-- One byte of the shared buffer is stored. -/
def TableState.setByte (s : TableState threads) (place : ℕ) (byte : UInt8) : TableState threads :=
  { s with
    read :=
      { s.read with shared := { s.read.shared with data := s.read.shared.data.set place byte } } }

/-- Seek, and take the bytes of the chunk out of the stream. [SRC freq.cpp:190-200] -/
def seekTask (s : TableState threads) (task : Task threads) : TableState threads × Buffer :=
  let startPos := taskStart chunkSize task.1
  let endPos := taskEnd file.length chunkSize chunks task.1
  let size := sub64 endPos startPos
  let stream := (s.read.file task.2).seekg (toInt32 startPos)
  let (bytes, stream) := stream.read file (toInt32 size)
  ({ s with read := { s.read with file := Function.update s.read.file task.2 stream } }, bytes)

/-- The call of `process_chunk` after the transformation. [SRC freq.cpp:202] -/
def countTask (s : TableState threads) (task : Task threads) : TableState threads :=
  let startPos := taskStart chunkSize task.1
  let endPos := taskEnd file.length chunkSize chunks task.1
  let result := countChunk
    { data := s.read.shared.data
      freqPerThread := s.read.shared.frequency task.2
      chunkEdges := s.read.shared.chunkEdges } startPos endPos chunkSize
  { read :=
      { s.read with
        shared :=
          { data := result.data
            chunkEdges := result.chunkEdges
            frequency := Function.update s.read.shared.frequency task.2 result.freqPerThread } }
    frequency := Function.update s.frequency task.2
      (countChunkTable mixedHash s.read.shared.data (s.frequency task.2) startPos endPos) }

/-- If nothing comes in between, the bytes of a read arrive at once. -/
theorem loadTask_eq_seekTask (s : TableState threads) (task : Task threads) :
    loadTask file chunkSize chunks s task =
      { (seekTask file chunkSize chunks s task).1 with
        read :=
          { (seekTask file chunkSize chunks s task).1.read with
            shared := s.read.shared.load (taskStart chunkSize task.1)
              (seekTask file chunkSize chunks s task).2 } } := rfl

/-- If nothing comes in between, `process_chunk` lowers the buffer and then counts. -/
theorem processTask_eq_countTask (s : TableState threads) (task : Task threads) :
    processTask mixedHash file chunkSize chunks s task =
      countTask mixedHash file chunkSize chunks
        { s with read := { s.read with shared := { s.read.shared with data := lower s.read.shared.data } } }
        task := rfl

/-! ### The steps -/

/-- Where a thread is in its task, with the local variables it uses there. -/
inductive TaskPc where
  /-- At the top of the task, or without a task. -/
  | entered
  /-- In `read`, with the bytes that are still to be stored from `place` on. [SRC freq.cpp:200] -/
  | copying (task place : ℕ) (bytes : Buffer)
  /-- In `std::transform`, in front of the byte at `place`. [SRC freq.cpp:121] -/
  | lowering (task place : ℕ)
  /-- The byte at `place` is loaded, and what becomes of it is not stored yet. -/
  | holding (task place : ℕ) (byte : UInt8)
deriving DecidableEq, Repr

/-- The pool, the variables of the tasks, and where each thread is in its task. -/
structure ByteState (threads : ℕ) where
  pool : PoolState
  tables : TableState threads
  tasks : Fin threads → TaskPc

/-- [SRC freq.cpp:165-186] -/
def ByteState.init (threads fileSize chunkSize chunks : ℕ) : ByteState threads where
  pool := PoolState.init
  tables := TableState.init mixedHash threads fileSize chunkSize chunks
  tasks := fun _ => .entered

inductive ByteLabel where
  | pool (label : PoolLabel)
  | seek (index : ℕ)
  | copy (index place : ℕ)
  | copied (index : ℕ)
  | load (index place : ℕ)
  | store (index place : ℕ)
  | count (index : ℕ)
deriving DecidableEq, Repr

/-- The steps of the pool, and those of the threads that run a task. [SRC freq.cpp:121, 185-204] -/
inductive ByteStep : ByteState threads → ByteLabel → ByteState threads → Prop where
  | pool {s} {label : PoolLabel} {pool : PoolState} : (∀ index, label ≠ .finish index) →
      PoolStep threads chunks s.pool label pool →
      ByteStep s (.pool label) { s with pool := pool }
  | seek {s} (index : Fin threads) {task : ℕ} :
      ⟨index.val, .running task⟩ ∈ s.pool.workers → s.tasks index = .entered →
      ByteStep s (.seek index.val)
        { s with
          tables := (seekTask file chunkSize chunks s.tables (task, index)).1
          tasks := Function.update s.tasks index (.copying task (taskStart chunkSize task)
            (seekTask file chunkSize chunks s.tables (task, index)).2) }
  | copy {s} (index : Fin threads) {task place : ℕ} {byte : UInt8} {bytes : Buffer} :
      s.tasks index = .copying task place (byte :: bytes) →
      ByteStep s (.copy index.val place)
        { s with
          tables := s.tables.setByte place byte
          tasks := Function.update s.tasks index (.copying task (place + 1) bytes) }
  | copied {s} (index : Fin threads) {task place : ℕ} :
      s.tasks index = .copying task place [] →
      ByteStep s (.copied index.val)
        { s with tasks := Function.update s.tasks index (.lowering task 0) }
  | load {s} (index : Fin threads) {task place : ℕ} :
      s.tasks index = .lowering task place → place < s.tables.read.shared.data.length →
      ByteStep s (.load index.val place)
        { s with
          tasks := Function.update s.tasks index
            (.holding task place (byteAt s.tables.read.shared.data place)) }
  | store {s} (index : Fin threads) {task place : ℕ} {byte : UInt8} :
      s.tasks index = .holding task place byte →
      ByteStep s (.store index.val place)
        { s with
          tables := s.tables.setByte place (toLower byte)
          tasks := Function.update s.tasks index (.lowering task (place + 1)) }
  | count {s} (index : Fin threads) {task place : ℕ} {workers : List Worker} :
      s.tasks index = .lowering task place → ¬ place < s.tables.read.shared.data.length →
      Replaces ⟨index.val, .running task⟩ ⟨index.val, .checking⟩ s.pool.workers workers →
      ByteStep s (.count index.val)
        { pool := { s.pool with
            workers := workers
            finished := s.pool.finished ++ [(task, index.val)] }
          tables := countTask mixedHash file chunkSize chunks s.tables (task, index)
          tasks := Function.update s.tasks index .entered }

/-! ### Races -/

/-- No thread has loaded the byte without having stored it again. -/
def ByteState.Free (s : ByteState threads) (place : ℕ) : Prop :=
  ∀ index task byte, s.tasks index ≠ .holding task place byte

/-- A step that stores a byte of the file only where no thread holds the old one. -/
def UnheldStep (s : ByteState threads) (label : ByteLabel) (t : ByteState threads) : Prop :=
  ByteStep mixedHash file chunkSize chunks s label t ∧
    ∀ index place, label = .copy index place → s.Free place

end

end FreqUtility
