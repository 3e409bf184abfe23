/-
Module: FreqUtility.Core.Dummy
Layer: Core
Purpose: `process_file_dummy`, the plain sequential counter: read the whole file, lower it, and count every
  word from left to right. `dummyCount` is what it does once the buffer is loaded.
Imports: FreqUtility.Core.ProcessChunk, FreqUtility.Core.Stream
Trusted boundary: none
Main exports: dummyCount, processFileDummy, processFileDummy_of_read
Open obligations: none
-/
import FreqUtility.Core.ProcessChunk
import FreqUtility.Core.Stream

namespace FreqUtility

/-- Counting a loaded buffer. [SRC freq_dummy.cpp:19-36] -/
def dummyCount (data : Buffer) : FreqMap :=
  let data := lower data
  wordLoop data (fun result startIt wordEnd => emplaceOrIncrement result (slice data startIt wordEnd))
    ∅ 0 data.length

/-- [SRC freq_dummy.cpp:9-37] -/
def processFileDummy (file : Buffer) : FreqMap :=
  let fileSize := file.length
  let data := List.replicate fileSize 0
  let bytes := ((IfStream.opened.seekg 0).read file (toInt32 fileSize)).1
  dummyCount (store data 0 bytes)

/-- Once the read has delivered the whole file, the plain counter counts it. -/
theorem processFileDummy_of_read {file : Buffer}
    (hread : ((IfStream.opened.seekg 0).read file (toInt32 file.length)).1 = file) :
    processFileDummy file = dummyCount file := by
  unfold processFileDummy
  simp only [hread]
  rw [store_zero_of_length_eq List.length_replicate.symm]

end FreqUtility
