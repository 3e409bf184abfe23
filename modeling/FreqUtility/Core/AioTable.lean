/-
Module: FreqUtility.Core.AioTable
Layer: Core
Purpose: `process_file_aio` with its frequency map as a hash table. The loop takes the steps of `Step` against
  any kernel; when it processes an event, the same call of `process_chunk` counts into the table. After
  the loop the border words are stitched and the table is added to them.
Imports: FreqUtility.Core.Aio, FreqUtility.Core.TableDrivers
Trusted boundary: as for the loop
Main exports: AioTableState, aioTableStart, reapTable, AioTableStep
Open obligations: none
-/
import FreqUtility.Core.Aio
import FreqUtility.Core.TableDrivers

namespace FreqUtility

open UnorderedDense

section

variable (mixedHash : Word → UInt64)

/-- The variables of the loop and `frequency`. -/
structure AioTableState where
  loop : AioState
  frequency : TableResult

/-- [SRC freq.cpp:324-349] -/
def aioTableStart (fileSize blkSize : ℕ) : AioTableState where
  loop := aioStart fileSize blkSize
  frequency := reserve mixedHash Table.empty (fileSize / 3)

/-- `frequency` after the next event of the batch. [SRC freq.cpp:371-383] -/
def reapTable (s : AioState) (frequency : TableResult) : TableResult :=
  match s.events with
  | [] => frequency
  | event :: _ =>
      match validateEvent s.iocbs event with
      | .error _ => frequency
      | .ok _ =>
          let startPos := (s.iocbs event.obj).offset
          let size := (s.iocbs event.obj).nbytes
          let endPos := wrap64 (startPos + size)
          processChunkTable mixedHash s.shared.data frequency startPos endPos

variable (file : Buffer) (blkSize : ℕ)

/-- The steps of the loop against any kernel. -/
inductive AioTableStep : AioTableState → Label → AioTableState → Prop where
  | reap {s} {t : AioState} : Step file blkSize s.loop .reap t →
      AioTableStep s .reap { loop := t, frequency := reapTable mixedHash s.loop s.frequency }
  | other {s} {label : Label} {t : AioState} : label ≠ .reap → Step file blkSize s.loop label t →
      AioTableStep s label { s with loop := t }

end

end FreqUtility
