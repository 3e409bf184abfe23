/-
Module: FreqUtility.Core.AioBytes
Layer: Core
Purpose: `process_file_aio` with the accesses of `std::transform` to the buffer one by one. `process_chunk`
  lowers the whole buffer for every event, also where the kernel has not stored the bytes of a block yet;
  between the load of a byte and its store a request may complete. What `process_chunk` does afterwards reads
  the block of its event only and is one step.
Imports: FreqUtility.Core.AioTable, FreqUtility.Core.ByteAccess
Trusted boundary: loads and stores of single bytes are atomic, and the bytes of one request arrive at once
Main exports: Shared.countChunk, validEvent, countEvent, TransformPc, AioByteState, AioByteStep, LosslessStep
Open obligations: none
-/
import FreqUtility.Core.AioTable
import FreqUtility.Core.ByteAccess

namespace FreqUtility

/-- What `process_chunk` does after the transformation, on the map of worker `threadIndex`. -/
def Shared.countChunk {workers : ℕ} (s : Shared workers) (threadIndex : Fin workers)
    (startPos endPos chunkSize : ℕ) : Shared workers :=
  let result := FreqUtility.countChunk
    { data := s.data
      freqPerThread := s.frequency threadIndex
      chunkEdges := s.chunkEdges } startPos endPos chunkSize
  { data := result.data
    chunkEdges := result.chunkEdges
    frequency := Function.update s.frequency threadIndex result.freqPerThread }

/-- The next event of the batch, if it passes the validation. [SRC freq.cpp:371-374] -/
def validEvent (s : AioState) : Option IoEvent :=
  match s.events with
  | [] => none
  | event :: _ =>
      match validateEvent s.iocbs event with
      | .error _ => none
      | .ok _ => some event

/-- The buffer replaced. -/
def AioTableState.setData (s : AioTableState) (data : Buffer) : AioTableState :=
  { s with loop := { s.loop with shared := { s.loop.shared with data := data } } }

section

variable (mixedHash : Word → UInt64) (file : Buffer) (blkSize : ℕ)

/-- The rest of the iteration for an event, after the transformation. [SRC freq.cpp:375-383] -/
def countEvent (s : AioTableState) (event : IoEvent) : AioTableState :=
  let startPos := (s.loop.iocbs event.obj).offset
  let size := (s.loop.iocbs event.obj).nbytes
  let endPos := wrap64 (startPos + size)
  { loop :=
      { s.loop with
        events := s.loop.events.tail
        busy := sub64 s.loop.busy 1
        chunks := sub64 s.loop.chunks 1
        shared := s.loop.shared.countChunk ⟨0, Nat.one_pos⟩ startPos endPos blkSize
        processed := s.loop.processed ++ [(startPos, endPos)] }
    frequency := countChunkTable mixedHash s.loop.shared.data s.frequency startPos endPos }

theorem exists_cons_of_validEvent {s : AioState} {event : IoEvent} (h : validEvent s = some event) :
    ∃ rest, s.events = event :: rest ∧ validateEvent s.iocbs event = .ok () := by
  unfold validEvent at h
  split at h
  · cases h
  · rename_i head rest hevents
    split at h
    · cases h
    · cases h
      exact ⟨rest, hevents, by assumption⟩

/-- If nothing comes in between, an event is processed by lowering the buffer and then counting. -/
theorem reap_eq_countEvent {s : AioTableState} {event : IoEvent} (h : validEvent s.loop = some event) :
    (⟨reapStep blkSize s.loop, reapTable mixedHash s.loop s.frequency⟩ : AioTableState) =
      countEvent mixedHash blkSize (s.setData (lower s.loop.shared.data)) event := by
  obtain ⟨rest, hevents, hevent⟩ := exists_cons_of_validEvent h
  rw [reapStep_ok hevents hevent, reapTable]
  simp only [hevents, hevent, countEvent, AioTableState.setData, List.tail_cons]
  rfl

/-! ### The steps -/

/-- Where `std::transform` stands. [SRC freq.cpp:121] -/
inductive TransformPc where
  | idle
  /-- In front of the byte at `place`. -/
  | lowering (place : ℕ)
  /-- The byte at `place` is loaded, and what becomes of it is not stored yet. -/
  | holding (place : ℕ) (byte : UInt8)
deriving DecidableEq, Repr

/-- The loop with its table, and where it is in `process_chunk`. -/
structure AioByteState where
  table : AioTableState
  transform : TransformPc

def aioByteStart (fileSize blkSize : ℕ) : AioByteState where
  table := aioTableStart mixedHash fileSize blkSize
  transform := .idle

inductive AioByteLabel where
  | loop (label : Label)
  | enter
  | load (place : ℕ)
  | store (place : ℕ)
  | count
deriving DecidableEq, Repr

/-- The steps of the loop and of the kernel, where an event that passes the validation is processed byte by
    byte. -/
inductive AioByteStep : AioByteState → AioByteLabel → AioByteState → Prop where
  | loop {s} {label : Label} {table : AioTableState} :
      (label = .reap → s.transform = .idle ∧ validEvent s.table.loop = none) →
      AioTableStep mixedHash file blkSize s.table label table →
      AioByteStep s (.loop label) { s with table := table }
  | enter {s} {event : IoEvent} : s.transform = .idle → s.table.loop.pc = .reap →
      validEvent s.table.loop = some event →
      AioByteStep s .enter { s with transform := .lowering 0 }
  | load {s} {place : ℕ} : s.transform = .lowering place → place < s.table.loop.shared.data.length →
      AioByteStep s (.load place)
        { s with transform := .holding place (byteAt s.table.loop.shared.data place) }
  | store {s} {place : ℕ} {byte : UInt8} : s.transform = .holding place byte →
      AioByteStep s (.store place)
        { table := s.table.setData (s.table.loop.shared.data.set place (toLower byte))
          transform := .lowering (place + 1) }
  | count {s} {place : ℕ} {event : IoEvent} : s.transform = .lowering place →
      ¬ place < s.table.loop.shared.data.length → validEvent s.table.loop = some event →
      AioByteStep s .count { table := countEvent mixedHash blkSize s.table event, transform := .idle }

/-- A step in which no byte arrives where the transformation holds another one. -/
def LosslessStep (s : AioByteState) (label : AioByteLabel) (t : AioByteState) : Prop :=
  AioByteStep mixedHash file blkSize s label t ∧
    ∀ request res res2 place byte, label = .loop (.complete request res res2) →
      s.transform = .holding place byte → request.iocb.offset ≤ place →
      place < request.iocb.offset + min res request.iocb.nbytes →
      toLower byte = toLower (byteAt file place)

end

end FreqUtility
