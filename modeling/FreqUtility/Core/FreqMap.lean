/-
Module: FreqUtility.Core.FreqMap
Layer: Core
Purpose: Frequency maps and `count_word`. `FreqMap` is a finite map from words to counts; `try_emplace`
  and `++it->second` act on it as in the source. A `Tally` is a frequency map under construction
  together with the ranges `count_word` was called with so far. A call whose range does not lie in the
  buffer is undefined behaviour in the source: the string view would have length `end - begin` modulo
  2^64. The model records the call, turns the map into the `Fault` and keeps it there, so what the
  program does up to that call stays observable.
Imports: FreqUtility.Library.CountMaps, FreqUtility.Core.Bytes
Trusted boundary: the hash map is a finite map (insertion order and hashing are not modelled)
Main exports: FreqMap, tryEmplace, Fault, Tally, countWord, countRanges, freq_countRanges_eq_ok_iff
Open obligations: none
-/
import FreqUtility.Library.CountMaps
import FreqUtility.Core.Bytes

namespace FreqUtility

open CountMaps

/-- Word counts. [SRC utils.h:56] -/
abbrev FreqMap := CountMap Word

/-- `try_emplace(x, value)`: the map afterwards, and whether the key was new. -/
def tryEmplace (freq : FreqMap) (x : Word) (value : ℕ) : FreqMap × Bool :=
  match freq.lookup x with
  | none => (freq.insert x value, true)
  | some _ => (freq, false)

/-- The insertion that `count_word` and `process_file_dummy` share: a new word gets the count one, a
    known one is incremented. [SRC freq.cpp:37-40, freq_dummy.cpp:29-32] -/
def emplaceOrIncrement (freq : FreqMap) (x : Word) : FreqMap :=
  let (freq, emplaced) := tryEmplace freq x 1
  if !emplaced then
    -- `++it->second`
    bump freq x 1
  else
    freq

/-- Both branches of the insertion add one to the entry of the word. -/
theorem emplaceOrIncrement_eq_bump (freq : FreqMap) (x : Word) :
    emplaceOrIncrement freq x = bump freq x 1 := by
  unfold emplaceOrIncrement tryEmplace
  cases hentry : freq.lookup x with
  | none => simp [bump, hentry]
  | some value => simp

/-- What the program runs into when it leaves the contract of a library call. -/
inductive Fault where
  /-- `count_word` with a range that does not lie in the buffer. -/
  | badRange (first last : ℕ)
  /-- `front()` and `back()` of an empty vector. -/
  | emptyChunkEdges
  /-- An integer division by zero. -/
  | divisionByZero
deriving DecidableEq, Repr

/-- A frequency map under construction, with the ranges counted into it so far. -/
structure Tally where
  freq : Except Fault FreqMap
  calls : List (ℕ × ℕ)

/-- The empty frequency map. -/
def Tally.empty : Tally where
  freq := .ok ∅
  calls := []

/-- The ranges that a string view over the buffer may have. -/
def ValidRange (data : Buffer) (r : ℕ × ℕ) : Prop :=
  r.1 ≤ r.2 ∧ r.2 ≤ data.length

instance (data : Buffer) (r : ℕ × ℕ) : Decidable (ValidRange data r) :=
  inferInstanceAs (Decidable (_ ∧ _))

/-- Count the word at `[first, last)`. [SRC freq.cpp:35-41] -/
def countWord (data : Buffer) (tally : Tally) (first last : ℕ) : Tally where
  freq := do
    let freq ← tally.freq
    if ValidRange data (first, last) then
      return emplaceOrIncrement freq (slice data first last)
    else
      throw (.badRange first last)
  calls := tally.calls ++ [(first, last)]

/-- Count a list of ranges from left to right. -/
def countRanges (data : Buffer) (tally : Tally) (ranges : List (ℕ × ℕ)) : Tally :=
  ranges.foldl (fun tally r => countWord data tally r.1 r.2) tally

/-- The texts of a list of ranges. -/
def texts (data : Buffer) (ranges : List (ℕ × ℕ)) : List Word :=
  ranges.map fun r => slice data r.1 r.2

@[simp] theorem countRanges_nil (data : Buffer) (tally : Tally) :
    countRanges data tally [] = tally := rfl

@[simp] theorem countRanges_cons (data : Buffer) (tally : Tally) (r : ℕ × ℕ)
    (ranges : List (ℕ × ℕ)) :
    countRanges data tally (r :: ranges) =
      countRanges data (countWord data tally r.1 r.2) ranges := rfl

theorem countRanges_append (data : Buffer) (tally : Tally) (ranges ranges' : List (ℕ × ℕ)) :
    countRanges data tally (ranges ++ ranges') =
      countRanges data (countRanges data tally ranges) ranges' :=
  List.foldl_append

@[simp] theorem texts_append (data : Buffer) (ranges ranges' : List (ℕ × ℕ)) :
    texts data (ranges ++ ranges') = texts data ranges ++ texts data ranges' :=
  List.map_append

@[simp] theorem calls_countWord (data : Buffer) (tally : Tally) (first last : ℕ) :
    (countWord data tally first last).calls = tally.calls ++ [(first, last)] := rfl

/-- Counting logs exactly the ranges counted. -/
@[simp] theorem calls_countRanges (data : Buffer) (tally : Tally) (ranges : List (ℕ × ℕ)) :
    (countRanges data tally ranges).calls = tally.calls ++ ranges := by
  induction ranges generalizing tally with
  | nil => rw [countRanges_nil, List.append_nil]
  | cons r ranges ih =>
      rw [countRanges_cons, ih, calls_countWord, List.append_assoc, List.singleton_append]

theorem freq_countWord_eq_ok_iff {data : Buffer} {tally : Tally} {first last : ℕ} {m : FreqMap} :
    (countWord data tally first last).freq = .ok m ↔
      ∃ m₀, tally.freq = .ok m₀ ∧ ValidRange data (first, last) ∧
        m = bump m₀ (slice data first last) 1 := by
  rw [countWord]
  cases hfreq : tally.freq with
  | error fault =>
      constructor
      · intro h
        cases h
      · rintro ⟨m₀, h, _⟩
        cases h
  | ok m₀ =>
      by_cases hvalid : ValidRange data (first, last)
      · simp only [hvalid, if_true, emplaceOrIncrement_eq_bump]
        constructor
        · intro h
          cases h
          exact ⟨m₀, rfl, trivial, rfl⟩
        · rintro ⟨m₁, h, -, rfl⟩
          cases h
          rfl
      · simp only [hvalid, if_false]
        constructor
        · intro h
          cases h
        · rintro ⟨_, _, h, _⟩
          exact h.elim

/-- Counting succeeds exactly when every range lies in the buffer, and then counts their texts. -/
theorem freq_countRanges_eq_ok_iff {data : Buffer} {tally : Tally} {ranges : List (ℕ × ℕ)}
    {m : FreqMap} :
    (countRanges data tally ranges).freq = .ok m ↔
      ∃ m₀, tally.freq = .ok m₀ ∧ (∀ r ∈ ranges, ValidRange data r) ∧
        m = countAll m₀ (texts data ranges) := by
  induction ranges generalizing tally with
  | nil =>
      constructor
      · intro h
        exact ⟨m, h, by simp, rfl⟩
      · rintro ⟨m₀, h, -, rfl⟩
        exact h
  | cons r ranges ih =>
      rw [countRanges_cons, ih]
      constructor
      · rintro ⟨m₁, hhead, htail, rfl⟩
        obtain ⟨m₀, hfreq, hvalid, rfl⟩ := freq_countWord_eq_ok_iff.mp hhead
        exact ⟨m₀, hfreq, List.forall_mem_cons.mpr ⟨hvalid, htail⟩, rfl⟩
      · rintro ⟨m₀, hfreq, hvalid, rfl⟩
        obtain ⟨hhead, htail⟩ := List.forall_mem_cons.mp hvalid
        exact ⟨_, freq_countWord_eq_ok_iff.mpr ⟨m₀, hfreq, hhead, rfl⟩, htail, rfl⟩

/-- Counting valid ranges into a map. -/
theorem freq_countRanges {data : Buffer} {tally : Tally} {ranges : List (ℕ × ℕ)} {m : FreqMap}
    (hfreq : tally.freq = .ok m) (hvalid : ∀ r ∈ ranges, ValidRange data r) :
    (countRanges data tally ranges).freq = .ok (countAll m (texts data ranges)) :=
  freq_countRanges_eq_ok_iff.mpr ⟨m, hfreq, hvalid, rfl⟩

theorem countWord_congr {data data' : Buffer} (hlength : data.length = data'.length)
    {first last : ℕ} (hsame : slice data first last = slice data' first last) (tally : Tally) :
    countWord data tally first last = countWord data' tally first last := by
  have hvalid : ValidRange data (first, last) ↔ ValidRange data' (first, last) := by
    rw [ValidRange, ValidRange, hlength]
  simp only [countWord, hvalid, hsame]

/-- Counting reads the bytes of the ranges only. -/
theorem countRanges_congr {data data' : Buffer} (hlength : data.length = data'.length)
    {ranges : List (ℕ × ℕ)}
    (hsame : ∀ r ∈ ranges, slice data r.1 r.2 = slice data' r.1 r.2) (tally : Tally) :
    countRanges data tally ranges = countRanges data' tally ranges := by
  induction ranges generalizing tally with
  | nil => rfl
  | cons r ranges ih =>
      obtain ⟨hhead, htail⟩ := List.forall_mem_cons.mp hsame
      rw [countRanges_cons, countRanges_cons, ih htail, countWord_congr hlength hhead]

/-- The map of a tally is the replay of its calls. -/
def Tally.Replays (data : Buffer) (tally : Tally) : Prop :=
  tally = countRanges data Tally.empty tally.calls

namespace Tally.Replays

theorem empty (data : Buffer) : Tally.Replays data Tally.empty := rfl

theorem countWord {data : Buffer} {tally : Tally} (h : tally.Replays data) (first last : ℕ) :
    (countWord data tally first last).Replays data := by
  unfold Tally.Replays at h ⊢
  rw [calls_countWord, countRanges_append, ← h]
  rfl

end Tally.Replays

end FreqUtility
