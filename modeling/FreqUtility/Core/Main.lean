/-
Module: FreqUtility.Core.Main
Layer: Core
Purpose: `main.cpp`: the choice of the processing method, the order in which the words are reported, and
  the bytes that are written. The hash map hands its entries over in some order; `std::sort` is a
  parameter, any function that keeps the promises of `SortFunction`.
Imports: FreqUtility.Library.Sorting, FreqUtility.Library.Text, FreqUtility.Core.BlockingRead
Trusted boundary: the output file takes every byte it is given
Main exports: Method, getMethod, stringLess, entryLess, reportLine, report
Open obligations: none
-/
import FreqUtility.Library.Sorting
import FreqUtility.Library.Text
import FreqUtility.Core.BlockingRead

namespace FreqUtility

open Sorting Text

/-- The functions that `get_method` may return. -/
inductive Method where
  | processFileBlockingRead
  | processFileAio
  | processFileDummy
deriving DecidableEq, Repr

/-- `hasLibaio` says whether the program was built with libaio. [SRC main.cpp:9-20] -/
def getMethod (hasLibaio : Bool) (config : FreqConfig) : Method :=
  if config.processorCount > 1 then
    .processFileBlockingRead
  else if hasLibaio then
    .processFileAio
  else
    .processFileDummy

/-- `operator<` of `std::string`, which compares characters as unsigned bytes. -/
def stringLess : Word → Word → Bool := lexLess fun x y => decide (x < y)

/-- The comparator of `main`: the counts change sides, the words do not. [SRC main.cpp:37-41] -/
def entryLess (p1 p2 : Word × ℕ) : Bool :=
  let (word1, freq1) := p1
  let (word2, freq2) := p2
  tieLess (fun x y => decide (x < y)) stringLess (freq2, word1) (freq1, word2)

/-- `output << count << ' ' << word << '\n'`. [SRC main.cpp:46] -/
def reportLine (entry : Word × ℕ) : Buffer :=
  let (word, count) := entry
  decimal count ++ [0x20] ++ word ++ [0x0A]

/-- The bytes written for the entries that the hash map hands over. [SRC main.cpp:33-48] -/
def report (stdSort : SortFunction (Word × ℕ)) (wordFreqPairs : List (Word × ℕ)) : Buffer :=
  (stdSort.sort entryLess wordFreqPairs).flatMap reportLine

end FreqUtility
