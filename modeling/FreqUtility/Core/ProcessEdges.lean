/-
Module: FreqUtility.Core.ProcessEdges
Layer: Core
Purpose: `process_edges`, which counts the words that touch a chunk border or an end of the buffer. The
  loop over adjacent chunks is `edgeLoop`, one iteration is `edgeStep`, and the code after the loop is
  `edgeBranches`. A null pointer is `none`; where the source compares two pointers with `<`, null is the
  address zero and lies below every pointer into the buffer.
Imports: FreqUtility.Core.ProcessChunk
Trusted boundary: none
Main exports: EdgeLoop, edgeStep, edgeLoop, hugeWord, leftEdge, rightEdge, edgeBranches, processEdges
Open obligations: none
-/
import FreqUtility.Core.ProcessChunk

namespace FreqUtility

open RangeScan

/-- `left < right` on pointers, null being the address zero. -/
def ptrLt : Option ℕ → Option ℕ → Bool
  | none, none => false
  | none, some _ => true
  | some _, none => false
  | some left, some right => left < right

/-- The variables of `process_edges` that its loop updates. -/
structure EdgeLoop where
  left : Option ℕ
  right : Option ℕ
  fileIsOneWord : Bool
  result : Tally

/-- The state before the loop. [SRC freq.cpp:45-60] -/
def edgeInit (chunkEdges : List EdgePair) (front : EdgePair) : EdgeLoop where
  -- A null left edge of the first chunk means that the chunk is the beginning of a word.
  left := if front.1 = none then some 0 else front.1
  right := none
  fileIsOneWord := decide (chunkEdges.length > 1)
  result := Tally.empty

/-- The value of `left` that an iteration compares with `next_left`. [SRC freq.cpp:67-70] -/
def comparedLeft (curr : EdgePair) (s : EdgeLoop) : Option ℕ :=
  if curr.2 ≠ none then curr.2 else s.left

/-- One iteration over the adjacent chunks `curr` and `next`. [SRC freq.cpp:64-82] -/
def edgeStep (data : Buffer) (curr next : EdgePair) (s : EdgeLoop) : EdgeLoop :=
  let left := comparedLeft curr s
  let right :=
    if s.right = none ∧ next.1 ≠ none ∧ ptrLt left next.1 then next.1 else s.right
  match left, right with
  | some first, some last =>
      { left := none
        right := none
        fileIsOneWord := false
        result := countWord data s.result first last }
  | _, _ => { s with left := left, right := right }

/-- The state after the first `k` iterations. -/
def edgeLoop (data : Buffer) (chunkEdges : List EdgePair) (init : EdgeLoop) : ℕ → EdgeLoop
  | 0 => init
  | k + 1 =>
      edgeStep data (chunkEdges[k]?.getD (none, none)) (chunkEdges[k + 1]?.getD (none, none))
        (edgeLoop data chunkEdges init k)

/-- The case of a huge single word. [SRC freq.cpp:86-94] -/
def hugeWord (data : Buffer) (front : EdgePair) (result : Tally) : Tally :=
  let startPos :=
    match front.1 with
    | some firstWordStart => firstWordStart + 1
    | none => findIfNot (delimAt data) 0 data.length
  let endPos := findIfNotRev (delimAt data) 0 data.length
  countWord data result startPos endPos

/-- The left edge of the first chunk. [SRC freq.cpp:96-102] -/
def leftEdge (data : Buffer) (front : EdgePair) (result : Tally) : Tally :=
  match front.1 with
  | some firstWordStart =>
      -- `firstWordStart` is the start of the buffer when the file starts with a delimiter.
      if 0 < firstWordStart then
        countWord data result (findIfNot (delimAt data) 0 data.length) firstWordStart
      else result
  | none => result

/-- The right edge of the last chunk. [SRC freq.cpp:104-111] -/
def rightEdge (data : Buffer) (back : EdgePair) (left right : Option ℕ) (result : Tally) : Tally :=
  match back.2 with
  | some startPos =>
      -- `&data.back()` points to the last byte.
      if startPos < data.length - 1 then countWord data result startPos data.length else result
  | none =>
      match left, right with
      | some left, none => countWord data result left data.length
      | _, _ => result

/-- The code after the loop. [SRC freq.cpp:85-112] -/
def edgeBranches (data : Buffer) (front back : EdgePair) (s : EdgeLoop) : Tally :=
  if s.fileIsOneWord then hugeWord data front s.result
  else rightEdge data back s.left s.right (leftEdge data front s.result)

/-- [SRC freq.cpp:43-115] -/
def processEdges (data : Buffer) (chunkEdges : List EdgePair) : Tally :=
  match chunkEdges.head?, chunkEdges.getLast? with
  | some front, some back =>
      edgeBranches data front back
        (edgeLoop data chunkEdges (edgeInit chunkEdges front) (chunkEdges.length - 1))
  | _, _ => { freq := .error .emptyChunkEdges, calls := [] }

/-! ### The map of `process_edges` is the replay of its calls -/

theorem edgeStep_replays {data : Buffer} {s : EdgeLoop} (h : s.result.Replays data)
    (curr next : EdgePair) : (edgeStep data curr next s).result.Replays data := by
  unfold edgeStep
  simp only
  split
  · exact h.countWord _ _
  · exact h

theorem edgeLoop_replays {data : Buffer} {init : EdgeLoop} (h : init.result.Replays data)
    (chunkEdges : List EdgePair) (k : ℕ) :
    (edgeLoop data chunkEdges init k).result.Replays data := by
  induction k with
  | zero => exact h
  | succ k ih => exact edgeStep_replays ih _ _

theorem leftEdge_replays {data : Buffer} {result : Tally} (h : result.Replays data)
    (front : EdgePair) : (leftEdge data front result).Replays data := by
  unfold leftEdge
  split
  · split
    · exact h.countWord _ _
    · exact h
  · exact h

theorem rightEdge_replays {data : Buffer} {result : Tally} (h : result.Replays data)
    (back : EdgePair) (left right : Option ℕ) :
    (rightEdge data back left right result).Replays data := by
  unfold rightEdge
  split
  · split
    · exact h.countWord _ _
    · exact h
  · split
    · exact h.countWord _ _
    · exact h

theorem edgeBranches_replays {data : Buffer} {s : EdgeLoop} (h : s.result.Replays data)
    (front back : EdgePair) : (edgeBranches data front back s).Replays data := by
  unfold edgeBranches
  split
  · exact h.countWord _ _
  · exact rightEdge_replays (leftEdge_replays h front) back _ _

theorem processEdges_replays (data : Buffer) {chunkEdges : List EdgePair} (h : chunkEdges ≠ []) :
    (processEdges data chunkEdges).Replays data := by
  unfold processEdges
  rw [List.head?_eq_some_head h, List.getLast?_eq_some_getLast h]
  apply edgeBranches_replays
  apply edgeLoop_replays
  exact Tally.Replays.empty data

end FreqUtility
