/-
Module: FreqUtility.Core.ChunkRun
Layer: Core
Purpose: What the drivers do with a buffer cut into chunks of `c` bytes: run `process_chunk` on every
  chunk, each call counting into the map of the worker that runs it, then run `process_edges` on the
  recorded edges and add the maps of all workers to its result. A `Schedule` says in which order the
  chunks are processed and by which worker. `process_file_blocking_read` and `process_file_aio`
  also fill the buffer on the way; `process_mmaped_file` maps it, and that the stores of `process_chunk` fault
  in a file mapped with `PROT_READ` is not modelled. [SRC freq.cpp:223-225]
Imports: FreqUtility.Library.Blocks, FreqUtility.Core.ProcessEdges
Trusted boundary: one chunk task is one atomic step
Main exports: Shared, Schedule, runChunk, chunkRun, finish, chunkedCount, recordedEdges
Open obligations: none
-/
import FreqUtility.Library.Blocks
import FreqUtility.Core.ProcessEdges

namespace FreqUtility

open Blocks CountMaps

/-- The variables the chunk tasks share; each worker has its own frequency map. -/
structure Shared (workers : ℕ) where
  data : Buffer
  chunkEdges : List EdgePair
  frequency : Fin workers → Tally

/-- The state before the first task: no edge recorded, nothing counted. -/
def Shared.init (workers : ℕ) (data : Buffer) (chunks : ℕ) : Shared workers where
  data := data
  chunkEdges := List.replicate chunks (none, none)
  frequency := fun _ => Tally.empty

/-- `process_chunk` on the map of worker `threadIndex`. -/
def Shared.processChunk {workers : ℕ} (s : Shared workers) (threadIndex : Fin workers)
    (startPos endPos chunkSize : ℕ) : Shared workers :=
  let result := FreqUtility.processChunk
    { data := s.data
      freqPerThread := s.frequency threadIndex
      chunkEdges := s.chunkEdges } startPos endPos chunkSize
  { data := result.data
    chunkEdges := result.chunkEdges
    frequency := Function.update s.frequency threadIndex result.freqPerThread }

@[simp] theorem Shared.length_chunkEdges_processChunk {workers : ℕ} (s : Shared workers)
    (threadIndex : Fin workers) (startPos endPos chunkSize : ℕ) :
    (s.processChunk threadIndex startPos endPos chunkSize).chunkEdges.length =
      s.chunkEdges.length :=
  FreqUtility.length_chunkEdges_processChunk _ _ _ _

/-- The task of one chunk: the number of the chunk and the worker that runs it. -/
abbrev Task (workers : ℕ) := ℕ × Fin workers

/-- One chunk task on a loaded buffer. [SRC freq.cpp:257-265] -/
def runChunk {workers : ℕ} (c : ℕ) (s : Shared workers) (task : Task workers) : Shared workers :=
  s.processChunk task.2 (task.1 * c) (blockStop s.data.length c task.1) c

/-- The chunk tasks of a loaded buffer, in the given order. -/
def chunkRun {workers : ℕ} (c : ℕ) (order : List (Task workers)) (s : Shared workers) :
    Shared workers :=
  order.foldl (runChunk c) s

/-- Every chunk is processed exactly once, in any order and by any worker. -/
structure Schedule (chunks workers : ℕ) where
  order : List (Task workers)
  perm : (order.map Prod.fst).Perm (List.range chunks)

theorem Schedule.lt_chunks {chunks workers : ℕ} (schedule : Schedule chunks workers) :
    ∀ task ∈ schedule.order, task.1 < chunks :=
  fun _ hmem => List.mem_range.mp (schedule.perm.subset (List.mem_map_of_mem hmem))

/-- All chunks from left to right by one worker. -/
def Schedule.inOrder (chunks : ℕ) {workers : ℕ} (threadIndex : Fin workers) :
    Schedule chunks workers where
  order := (List.range chunks).map fun k => (k, threadIndex)
  perm := by
    rw [List.map_map]
    exact List.Perm.of_eq (List.map_id _)

/-- Stitch the border words, then add the maps of all workers. [SRC freq.cpp:206-214] -/
def finish {workers : ℕ} (s : Shared workers) : Except Fault FreqMap := do
  let result ← (processEdges s.data s.chunkEdges).freq
  (List.finRange workers).foldlM (fun result threadIndex => do
    let frequency ← (s.frequency threadIndex).freq
    return merge result frequency) result

/-- Chunked counting of a loaded buffer. [SRC freq.cpp:233-275] -/
def chunkedCount {workers : ℕ} (data : Buffer) (c : ℕ)
    (schedule : Schedule (blockCount data.length c) workers) : Except Fault FreqMap :=
  finish (chunkRun c schedule.order (Shared.init workers data (blockCount data.length c)))

/-- The edges that `process_chunk` records for a buffer cut into chunks of `c` bytes. -/
def recordedEdges (data : Buffer) (c : ℕ) : List EdgePair :=
  (chunkRun c (Schedule.inOrder (blockCount data.length c) (0 : Fin 1)).order
    (Shared.init 1 data (blockCount data.length c))).chunkEdges

end FreqUtility
