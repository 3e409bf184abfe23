/-
Module: FreqUtility.Spec.Report
Layer: Spec
Purpose: What a report means, independently of how it is written: its lines are cut at their first blank
  into a count and a word, and together they describe a frequency map. `ReportOrder` is the order of
  the lines, the most frequent word first and equally frequent words in alphabetical order.
Imports: FreqUtility.Library.Text, FreqUtility.Core.FreqMap, FreqUtility.Spec.Words
Trusted boundary: human-reviewed spec
Main exports: readLine, readReport, ReportOrder, WordCounts
Open obligations: none
-/
import FreqUtility.Library.Text
import FreqUtility.Core.FreqMap
import FreqUtility.Spec.Words

namespace FreqUtility

open Text CountMaps

/-- The entry on one line: a decimal count, a blank, and the word. -/
def readLine (line : Buffer) : Option (Word × ℕ) := do
  let (count, word) ← cut 0x20 line
  let n ← readDecimal count
  return (word, n)

/-- The map that a report describes, if every line can be read. -/
def readReport (bytes : Buffer) : Option FreqMap := do
  let entries ← (pieces 0x0A bytes).mapM readLine
  return ofEntries entries

/-- `p` is reported before `q`. -/
def ReportOrder (p q : Word × ℕ) : Prop := q.2 < p.2 ∨ p.2 = q.2 ∧ p.1 < q.1

/-- The maps the program reports: non-empty words over `a` to `z`, with positive counts. -/
def WordCounts (m : FreqMap) : Prop := ∀ w n, m.lookup w = some n → LowerCaseWord w ∧ 0 < n

end FreqUtility
