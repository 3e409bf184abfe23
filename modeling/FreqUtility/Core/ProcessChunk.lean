/-
Module: FreqUtility.Core.ProcessChunk
Layer: Core
Purpose: `process_chunk` and the word loop it shares with `process_file_dummy`. A pointer recorded in
  `chunk_edges` is an offset or null. The function lowers the whole buffer, finds the first and the
  last delimiter of its chunk, records them, and counts the words between them.
Imports: FreqUtility.Library.MaximalRuns, FreqUtility.Core.FreqMap
Trusted boundary: none
Main exports: EdgePair, ChunkState, wordLoop, processChunk, chunkEdge, innerRanges, processChunk_data,
  processChunk_freqPerThread, processChunk_chunkEdges
Open obligations: none
-/
import FreqUtility.Library.MaximalRuns
import FreqUtility.Core.FreqMap

namespace FreqUtility

open RangeScan MaximalRuns

/-- First delimiter of a chunk and one past its last delimiter; null when there is none. -/
abbrev EdgePair := Option ℕ × Option ℕ

/-- The variables that `process_chunk` takes by reference. -/
structure ChunkState where
  data : Buffer
  freqPerThread : Tally
  chunkEdges : List EdgePair

/-- Skip the delimiters, then run `count` on every word up to `endIt`.
    [SRC freq.cpp:148-153, freq_dummy.cpp:23-34] -/
def wordLoop {σ : Type*} (data : Buffer) (count : σ → ℕ → ℕ → σ) (acc : σ) (startIt endIt : ℕ) : σ :=
  foldRuns (delimAt data) endIt count (findIfNot (delimAt data) startIt endIt) acc

/-- [SRC freq.cpp:117-155] -/
def processChunk (s : ChunkState) (startPos endPos chunkSize : ℕ) : ChunkState :=
  let data := lower s.data
  -- Looking for the first delimiter to cut off a word in the beginning.
  let startIt := findIf (delimAt data) startPos endPos
  -- Looking for the last delimiter to cut off a word in the ending: the base of the reverse iterator.
  let endIt := findIfRev (delimAt data) startPos endPos
  if startIt ≠ endPos then
    let startPtr := some startIt
    let endPtr := if endIt ≠ startPos then some endIt else none
    { data := data
      chunkEdges := s.chunkEdges.set (startPos / chunkSize) (startPtr, endPtr)
      freqPerThread := wordLoop data (countWord data) s.freqPerThread startIt endIt }
  else
    { data := data
      chunkEdges := s.chunkEdges
      freqPerThread := s.freqPerThread }

/-! ### What one call does

The three components of the result, each as a function of the bytes of the chunk. -/

/-- The edge pair of the chunk `[startPos, endPos)`. -/
def chunkEdge (data : Buffer) (startPos endPos : ℕ) : EdgePair :=
  if findIf (delimAt data) startPos endPos = endPos then
    (none, none)
  else
    (some (findIf (delimAt data) startPos endPos), some (findIfRev (delimAt data) startPos endPos))

/-- The ranges counted in the chunk `[startPos, endPos)`. -/
def innerRanges (data : Buffer) (startPos endPos : ℕ) : List (ℕ × ℕ) :=
  if findIf (delimAt data) startPos endPos = endPos then
    []
  else
    runList (delimAt data) (findIfRev (delimAt data) startPos endPos)
      (findIfNot (delimAt data) (findIf (delimAt data) startPos endPos)
        (findIfRev (delimAt data) startPos endPos))

variable {data : Buffer} {startPos endPos : ℕ}

theorem wordLoop_countWord (data : Buffer) (tally : Tally) (startIt endIt : ℕ) :
    wordLoop data (countWord data) tally startIt endIt =
      countRanges data tally
        (runList (delimAt data) endIt (findIfNot (delimAt data) startIt endIt)) :=
  foldRuns_eq_foldl endIt (countWord data) _ tally

/-- A chunk that has a first delimiter has a last one, at or after it. -/
theorem findIf_lt_findIfRev (h : startPos ≤ endPos)
    (hfound : findIf (delimAt data) startPos endPos ≠ endPos) :
    findIf (delimAt data) startPos endPos < findIfRev (delimAt data) startPos endPos := by
  have hle := findIf_le (delimAt data) h
  by_contra hge
  have hstop := findIf_stopped (p := delimAt data) (f := startPos) (l := endPos) (by omega)
  have hskip := findIfRev_skipped (p := delimAt data) (f := startPos) (l := endPos)
    (i := findIf (delimAt data) startPos endPos) (by omega) (by omega)
  exact absurd hstop (ne_true_of_eq_false hskip)

theorem chunkEdge_congr {data' : Buffer} (h : startPos ≤ endPos)
    (hsame : ∀ i, startPos ≤ i → i < endPos → delimAt data i = delimAt data' i) :
    chunkEdge data startPos endPos = chunkEdge data' startPos endPos := by
  rw [chunkEdge, chunkEdge, findIf_congr h hsame, findIfRev_congr h hsame]

theorem innerRanges_congr {data' : Buffer} (h : startPos ≤ endPos)
    (hsame : ∀ i, startPos ≤ i → i < endPos → delimAt data i = delimAt data' i) :
    innerRanges data startPos endPos = innerRanges data' startPos endPos := by
  have hfirst := le_findIf (delimAt data') startPos endPos
  have hlast := findIfRev_le (delimAt data') startPos endPos
  rw [innerRanges, innerRanges, findIf_congr h hsame, findIfRev_congr h hsame]
  split
  · rfl
  · rename_i hfound
    have hrev := findIf_lt_findIfRev h hfound
    rw [findIfNot_congr (Nat.le_of_lt hrev) fun i hi hl => hsame i (by omega) (by omega)]
    have hnext := le_findIfNot (delimAt data') (findIf (delimAt data') startPos endPos)
      (findIfRev (delimAt data') startPos endPos)
    exact runList_congr fun i hi hl => hsame i (by omega) (by omega)

@[simp] theorem findIf_delimAt_lower (data : Buffer) (first last : ℕ) :
    findIf (delimAt (lower data)) first last = findIf (delimAt data) first last := by
  simp only [funext (delimAt_lower data)]

@[simp] theorem chunkEdge_lower (data : Buffer) (first last : ℕ) :
    chunkEdge (lower data) first last = chunkEdge data first last := by
  simp only [chunkEdge, funext (delimAt_lower data)]

@[simp] theorem innerRanges_lower (data : Buffer) (first last : ℕ) :
    innerRanges (lower data) first last = innerRanges data first last := by
  simp only [innerRanges, funext (delimAt_lower data)]

/-- The call lowers the whole buffer, not only its chunk. -/
@[simp] theorem processChunk_data (s : ChunkState) (startPos endPos chunkSize : ℕ) :
    (processChunk s startPos endPos chunkSize).data = lower s.data := by
  unfold processChunk
  simp only
  split <;> rfl

theorem processChunk_freqPerThread (s : ChunkState) (startPos endPos chunkSize : ℕ) :
    (processChunk s startPos endPos chunkSize).freqPerThread =
      countRanges (lower s.data) s.freqPerThread (innerRanges s.data startPos endPos) := by
  rw [← innerRanges_lower]
  unfold processChunk innerRanges
  simp only [ne_eq, ite_not]
  split
  · rfl
  · exact wordLoop_countWord _ _ _ _

/-- A chunk with a delimiter writes both of its edges; a chunk without one writes nothing. -/
theorem processChunk_chunkEdges (s : ChunkState) (h : startPos ≤ endPos) (chunkSize : ℕ) :
    (processChunk s startPos endPos chunkSize).chunkEdges =
      if findIf (delimAt s.data) startPos endPos = endPos then s.chunkEdges
      else s.chunkEdges.set (startPos / chunkSize) (chunkEdge s.data startPos endPos) := by
  rw [← findIf_delimAt_lower, ← chunkEdge_lower]
  unfold processChunk
  simp only [ne_eq, ite_not]
  split
  · rfl
  · rename_i hfound
    have hlt := findIf_lt_findIfRev h hfound
    have hge := le_findIf (delimAt (lower s.data)) startPos endPos
    rw [chunkEdge, if_neg hfound, if_neg (by omega)]

/-- No call changes the number of edge entries, whatever its range is. -/
@[simp] theorem length_chunkEdges_processChunk (s : ChunkState) (startPos endPos chunkSize : ℕ) :
    (processChunk s startPos endPos chunkSize).chunkEdges.length = s.chunkEdges.length := by
  unfold processChunk
  simp only
  split
  · exact List.length_set
  · rfl

end FreqUtility
