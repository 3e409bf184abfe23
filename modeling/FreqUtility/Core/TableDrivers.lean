/-
Module: FreqUtility.Core.TableDrivers
Layer: Core
Purpose: The drivers on the hash map they really use, with the `reserve` calls of the source. The control
  flow of the program never looks into a frequency map, so the buffer, the edges and the streams are
  those of the drivers on finite maps; here the same words go into hash tables, worker by worker, in
  the order of the tasks. The hash function is a parameter.
Imports: FreqUtility.Core.Dummy, FreqUtility.Core.Main, FreqUtility.Core.UnorderedDense
Trusted boundary: none
Main exports: FreqTable, tableCountWord, processFileDummyTable, processChunkTable, edgesTable, mergeTable,
  TableState, finishTable, tablesResult, output
Open obligations: none
-/
import FreqUtility.Core.Dummy
import FreqUtility.Core.Main
import FreqUtility.Core.UnorderedDense

namespace FreqUtility

open UnorderedDense RangeScan Sorting

/-- A frequency map as the program holds it. [SRC utils.h:56] -/
abbrev FreqTable := Table Word

/-- A table under construction, or what ended the construction. -/
abbrev TableResult := Except TableFault FreqTable

section

variable (mixedHash : Word → UInt64)

/-- `count_word` on a table. [SRC freq.cpp:35-41] -/
def tableCountWord (data : Buffer) (freq : TableResult) (first last : ℕ) : TableResult := do
  let freq ← freq
  UnorderedDense.emplaceOrIncrement mixedHash freq (slice data first last)

/-- Counting a loaded buffer into a table. [SRC freq_dummy.cpp:16-36] -/
def dummyTable (data : Buffer) : TableResult :=
  let result := reserve mixedHash Table.empty (data.length / 3)
  let data := lower data
  wordLoop data (tableCountWord mixedHash data) result 0 data.length

/-- [SRC freq_dummy.cpp:9-37] -/
def processFileDummyTable (file : Buffer) : TableResult :=
  let fileSize := file.length
  let data := List.replicate fileSize 0
  let bytes := ((IfStream.opened.seekg 0).read file (toInt32 fileSize)).1
  dummyTable mixedHash (store data 0 bytes)

/-- What `process_chunk` does to the map of its worker. [SRC freq.cpp:117-155] -/
def processChunkTable (data : Buffer) (freqPerThread : TableResult) (startPos endPos : ℕ) :
    TableResult :=
  let data := lower data
  let startIt := findIf (delimAt data) startPos endPos
  let endIt := findIfRev (delimAt data) startPos endPos
  if startIt ≠ endPos then
    wordLoop data (tableCountWord mixedHash data) freqPerThread startIt endIt
  else
    freqPerThread

/-- The result of `process_edges`: its calls of `count_word` in their order. [SRC freq.cpp:43-115] -/
def edgesTable (data : Buffer) (chunkEdges : List EdgePair) : TableResult :=
  (processEdges data chunkEdges).calls.foldl
    (fun result r => tableCountWord mixedHash data result r.1 r.2)
    (reserve mixedHash Table.empty (data.length / 10))

/-- Add every entry of a worker's map to the result, in the order of its iteration.
    [SRC freq.cpp:209-212] -/
def mergeTable (result frequency : FreqTable) : TableResult :=
  frequency.values.foldlM (fun result e => subscriptAdd mixedHash result e.1 e.2) result

/-- The variables of the driver, with the maps of the workers as tables. -/
structure TableState (workers : ℕ) where
  read : ReadState workers
  frequency : Fin workers → TableResult

/-- [SRC freq.cpp:165-183] -/
def TableState.init (workers fileSize chunkSize chunks : ℕ) : TableState workers where
  read := ReadState.init workers fileSize chunks
  frequency := fun _ => reserve mixedHash Table.empty (chunkSize / 5)

/-- Stitch the border words, then add the maps of all workers. [SRC freq.cpp:206-214] -/
def finishTable {workers : ℕ} (s : Shared workers) (frequency : Fin workers → TableResult) :
    TableResult := do
  let result ← edgesTable mixedHash s.data s.chunkEdges
  (List.finRange workers).foldlM (fun result threadIndex => do
    let frequency ← frequency threadIndex
    mergeTable mixedHash result frequency) result

/-- What a driver returns once its tasks are done; a range outside of the buffer ends the program in
    `process_edges`. [SRC freq.cpp:206-214] -/
def tablesResult {workers : ℕ} (s : Shared workers) (frequency : Fin workers → TableResult) :
    Except Fault TableResult := do
  let _ ← (processEdges s.data s.chunkEdges).freq
  return finishTable mixedHash s frequency

end

/-- The bytes that `main` writes for the result of a method. [SRC main.cpp:31-48] -/
def output (stdSort : SortFunction (Word × ℕ)) (result : Except Fault TableResult) :
    Except Fault (Except TableFault Buffer) :=
  result.map (Except.map fun data => report stdSort data.values)

end FreqUtility
