/-
Module: FreqUtility.Proofs.AioBytes
Layer: Proofs
Purpose: `process_file_aio` byte by byte. A request may complete while `std::transform` walks over the buffer.
  As long as no byte arrives where the transformation holds another one, the bytes of a block stay what they
  are up to case from its completion on, those in front of the transformation are lowered, and the loop ends
  like one that processes every event at once.
Imports: FreqUtility.Core.AioBytes, FreqUtility.Core.Wyhash, FreqUtility.Proofs.UnheldRuns
Trusted boundary: none (fully proved)
Main exports: AioCounted.setData, countEvent_of_lowered, TransformPc.Fits, AioByteCounted, AioByteCounted.step,
  AioByteCounted.run, StillStep, AioTableState.leads_lower, leads_step, lossless_aio_runs_are_chunked_counting
Open obligations: none
-/
import FreqUtility.Core.AioBytes
import FreqUtility.Core.Wyhash
import FreqUtility.Proofs.UnheldRuns

namespace FreqUtility

open RangeScan Blocks Transition UnorderedDense

variable {mixedHash : Word → UInt64} {file : Buffer} {blkSize accepted : ℕ}

/-! ### Another buffer in the same loop -/

theorem Running.setData {fileSize : ℕ} {s : AioTableState} (h : Running fileSize blkSize accepted s.loop)
    (data : Buffer) : Running fileSize blkSize accepted (s.setData data).loop :=
  { h with prepared := ⟨h.prepared.offset, h.prepared.iocbs, h.prepared.submitted⟩ }

@[simp] theorem AioTableState.data_setData (s : AioTableState) (data : Buffer) :
    (s.setData data).loop.shared.data = data := rfl

@[simp] theorem AioTableState.setData_setData (s : AioTableState) (data data' : Buffer) :
    (s.setData data).setData data' = s.setData data' := rfl

/-- A buffer with the same bytes up to case serves as well, if the processed blocks are lowered. -/
theorem AioCounted.setData {s : AioTableState} (h : AioCounted mixedHash file blkSize s) {data : Buffer}
    (hrunning : Running file.length blkSize accepted s.loop) (hlength : data.length = file.length)
    (hsame : ∀ q, q < file.length → toLower (byteAt data q) = toLower (byteAt s.loop.shared.data q))
    (hlowered : ∀ q, q < file.length → q / blkSize ∈ processedSlots blkSize s.loop →
      toLower (byteAt data q) = byteAt data q) : AioCounted mixedHash file blkSize (s.setData data) where
  inv := .running accepted (hrunning.setData data)
  progress :=
    { length := hlength
      lowered := by
        intro q hq hmem
        have hmem' : q / blkSize ∈ processedSlots blkSize s.loop := by
          rw [← map_fst_aioTasks]
          exact hmem
        change byteAt data q = _
        rw [← hlowered q hq hmem', hsame q hq, h.progress.lowered q hq hmem, toLower_toLower]
      edges := h.progress.edges
      frequency := h.progress.frequency }
  tables := h.tables
  delivered := by
    intro event hevent hres q hq hin
    exact (hsame q hq).trans (h.delivered event hevent hres q hq hin)

/-- Counting a lowered chunk does the same in the buffer and in the lowered buffer. -/
theorem Shared.countChunk_of_lowered {workers k : ℕ} {s : Shared workers} (threadIndex : Fin workers)
    (hc : 0 < blkSize) (hk : k < blockCount file.length blkSize) (hlength : s.data.length = file.length)
    (hlowered : Lowered file blkSize k file.length s.data) :
    s.countChunk threadIndex (k * blkSize) (blockStop file.length blkSize k) blkSize =
      { Shared.countChunk { s with data := lower s.data } threadIndex (k * blkSize)
          (blockStop file.length blkSize k) blkSize with
        data := s.data } := by
  have hslices := fun r => hlowered.slice_eq (r := r) hc hk hlength
  have hcounted := countRanges_congr (length_lower s.data).symm hslices
  have hedges := (countChunk_chunkEdges ⟨s.data, s.frequency threadIndex, s.chunkEdges⟩ (k * blkSize)
    (blockStop file.length blkSize k) blkSize).trans
      (congrArg ChunkState.chunkEdges (processChunk_eq_countChunk _ _ _ _))
  simp only [Shared.countChunk, countChunk_data, countChunk_freqPerThread, innerRanges_lower, hcounted, hedges]

theorem countChunkTable_of_lowered (mixedHash : Word → UInt64) {k : ℕ} {data : Buffer} (freq : TableResult)
    (hc : 0 < blkSize) (hk : k < blockCount file.length blkSize) (hlength : data.length = file.length)
    (hlowered : Lowered file blkSize k file.length data) :
    countChunkTable mixedHash data freq (k * blkSize) (blockStop file.length blkSize k) =
      countChunkTable mixedHash (lower data) freq (k * blkSize) (blockStop file.length blkSize k) := by
  have hslices := fun r => hlowered.slice_eq (r := r) hc hk hlength
  have htexts := List.map_congr_left hslices
  rw [countChunkTable_eq, countChunkTable_eq, innerRanges_lower, foldl_tableCountWord,
    foldl_tableCountWord, texts, texts, htexts]

/-- The rest of an iteration, with the block of its event. -/
theorem countEvent_eq (mixedHash : Word → UInt64) {s : AioTableState} {event : IoEvent}
    (hg : AioGeometry file.length blkSize) (hk : event.obj < blockCount file.length blkSize)
    (hiocb : s.loop.iocbs event.obj = iocbOf file.length blkSize event.obj) :
    countEvent mixedHash blkSize s event =
      { loop :=
          { s.loop with
            events := s.loop.events.tail
            busy := sub64 s.loop.busy 1
            chunks := sub64 s.loop.chunks 1
            shared := s.loop.shared.countChunk ⟨0, Nat.one_pos⟩ (event.obj * blkSize)
              (blockStop file.length blkSize event.obj) blkSize
            processed := s.loop.processed ++
              [(event.obj * blkSize, blockStop file.length blkSize event.obj)] }
        frequency := countChunkTable mixedHash s.loop.shared.data s.frequency (event.obj * blkSize)
          (blockStop file.length blkSize event.obj) } := by
  have hstop := wrap64_iocbOf hg hk
  have hstart : (iocbOf file.length blkSize event.obj).offset = event.obj * blkSize := rfl
  rw [hstart] at hstop
  unfold countEvent
  simp only [hiocb, hstop, hstart]

/-- Counting a lowered block does the same in the buffer and in the lowered buffer. -/
theorem countEvent_of_lowered (mixedHash : Word → UInt64) {s : AioTableState} {event : IoEvent}
    (hg : AioGeometry file.length blkSize) (hk : event.obj < blockCount file.length blkSize)
    (hiocb : s.loop.iocbs event.obj = iocbOf file.length blkSize event.obj)
    (hlength : s.loop.shared.data.length = file.length)
    (hlowered : Lowered file blkSize event.obj file.length s.loop.shared.data) :
    countEvent mixedHash blkSize s event =
      (countEvent mixedHash blkSize (s.setData (lower s.loop.shared.data)) event).setData
        s.loop.shared.data := by
  have hiocb' : (s.setData (lower s.loop.shared.data)).loop.iocbs event.obj =
      iocbOf file.length blkSize event.obj := hiocb
  rw [countEvent_eq mixedHash hg hk hiocb, countEvent_eq mixedHash hg hk hiocb',
    countChunkTable_of_lowered mixedHash s.frequency hg.blkSize_pos hk hlength hlowered,
    s.loop.shared.countChunk_of_lowered ⟨0, Nat.one_pos⟩ hg.blkSize_pos hk hlength hlowered]
  obtain ⟨⟨pc, offset, busy, chunks, n, iocbs, inFlight, completed, events, shared, submitted, processed⟩,
    frequency⟩ := s
  dsimp only [AioTableState.setData]

/-! ### Where the transformation stands -/

/-- What holds while an event is processed: the bytes of its block in front of the transformation are lowered,
    and the byte that is held is that of the buffer up to case. -/
def TransformPc.Fits (file : Buffer) (blkSize : ℕ) (s : AioState) : TransformPc → Prop
  | .idle => True
  | .lowering place => ∃ event, s.pc = .reap ∧ validEvent s = some event ∧
      Lowered file blkSize event.obj place s.shared.data
  | .holding place byte => (∃ event, s.pc = .reap ∧ validEvent s = some event ∧
      Lowered file blkSize event.obj place s.shared.data) ∧
      place < file.length ∧ toLower byte = toLower (byteAt s.shared.data place)

/-- What has been counted in a reachable state, and where the transformation stands. -/
structure AioByteCounted (mixedHash : Word → UInt64) (file : Buffer) (blkSize : ℕ) (s : AioByteState) :
    Prop where
  counted : AioCounted mixedHash file blkSize s.table
  transform : s.transform.Fits file blkSize s.table.loop

theorem aioByteCounted_start (mixedHash : Word → UInt64) (hg : AioGeometry file.length blkSize) :
    AioByteCounted mixedHash file blkSize (aioByteStart mixedHash file.length blkSize) where
  counted := aioCounted_start mixedHash hg
  transform := trivial

/-- With a valid event the loop is past its first round. -/
theorem AioInv.exists_running {fileSize : ℕ} {s : AioState} (h : AioInv fileSize blkSize s) {event : IoEvent}
    (hvalid : validEvent s = some event) : ∃ accepted, Running fileSize blkSize accepted s := by
  obtain ⟨rest, hevents, -⟩ := exists_cons_of_validEvent hvalid
  cases h with
  | start hstart =>
      rw [hstart] at hevents
      cases hevents
  | submitting hsubmitting =>
      rw [hsubmitting.events] at hevents
      cases hevents
  | running accepted hrunning => exact ⟨accepted, hrunning⟩

/-- A request in flight is not the one whose event is processed. -/
theorem Running.slot_ne {fileSize : ℕ} {s : AioState} (h : Running fileSize blkSize accepted s)
    {event : IoEvent} (hvalid : validEvent s = some event) {request : Request}
    (hmem : request ∈ s.inFlight) : request.slot ≠ event.obj := by
  obtain ⟨rest, hevents, -⟩ := exists_cons_of_validEvent hvalid
  have hnodup := (Multiset.nodup_add.mp h.nodup).1
  rw [outstanding, hevents, Multiset.nodup_add] at hnodup
  intro hsame
  apply Multiset.disjoint_left.mp hnodup.2.2 (Multiset.mem_add.mpr (Or.inl (Multiset.mem_map_of_mem _ hmem)))
  rw [hsame]
  exact List.mem_cons_self

/-- What a request in flight delivers belongs to its block. -/
theorem Running.mem_slot {fileSize : ℕ} {s : AioState} (h : Running fileSize blkSize accepted s)
    (hg : AioGeometry fileSize blkSize) {request : Request} (hmem : request ∈ s.inFlight) {res p : ℕ}
    (hlow : request.iocb.offset ≤ p) (hhigh : p < request.iocb.offset + min res request.iocb.nbytes) :
    p < fileSize ∧ p / blkSize = request.slot := by
  have hlt := start_lt_blockStop hg.blkSize_pos (h.iocb_eq (mem_outstanding_of_inFlight hmem)).1
  rw [h.requests request hmem] at hlow hhigh
  change request.slot * blkSize ≤ p at hlow
  change p < request.slot * blkSize + min res (blockStop fileSize blkSize request.slot -
    request.slot * blkSize) at hhigh
  apply (mem_block_iff hg.blkSize_pos).mp
  exact ⟨hlow, by omega⟩

theorem Running.delivered_le {fileSize : ℕ} {s : AioState} (h : Running fileSize blkSize accepted s)
    (hg : AioGeometry fileSize blkSize) {request : Request} (hmem : request ∈ s.inFlight) (res : ℕ) :
    request.iocb.offset + min res request.iocb.nbytes ≤ fileSize := by
  by_contra hlong
  have hle : blockStop fileSize blkSize request.slot ≤ fileSize := blockStop_le
  have hlt := start_lt_blockStop hg.blkSize_pos (h.iocb_eq (mem_outstanding_of_inFlight hmem)).1
  rw [h.requests request hmem] at hlong
  change ¬ request.slot * blkSize + min res (blockStop fileSize blkSize request.slot -
    request.slot * blkSize) ≤ fileSize at hlong
  omega

/-- The buffer after a completion. -/
theorem Running.byteAt_complete {s : AioState} (h : Running file.length blkSize accepted s)
    (hg : AioGeometry file.length blkSize) {request : Request} (hmem : request ∈ s.inFlight)
    (hlength : s.shared.data.length = file.length) (res res2 p : ℕ) :
    byteAt (completeStep file s request res res2).shared.data p =
      if request.iocb.offset ≤ p ∧ p < request.iocb.offset + min res request.iocb.nbytes then byteAt file p
      else byteAt s.shared.data p :=
  byteAt_store_part (h.delivered_le hg hmem res) hlength p

namespace AioByteCounted

variable {s t : AioByteState}

/-- A request that completes while the transformation goes on. -/
theorem complete (h : AioByteCounted mixedHash file blkSize s) (hg : AioGeometry file.length blkSize)
    {request : Request} (hmem : request ∈ s.table.loop.inFlight) {res res2 : ℕ}
    (hlossless : ∀ place byte, s.transform = .holding place byte → request.iocb.offset ≤ place →
      place < request.iocb.offset + min res request.iocb.nbytes →
      toLower byte = toLower (byteAt file place)) :
    s.transform.Fits file blkSize (completeStep file s.table.loop request res res2) := by
  have hlength := h.counted.progress.length
  have htransform := h.transform
  have hlowered {event : IoEvent} {place : ℕ} (hvalid : validEvent s.table.loop = some event)
      (hold : Lowered file blkSize event.obj place s.table.loop.shared.data) :
      Lowered file blkSize event.obj place (completeStep file s.table.loop request res res2).shared.data := by
    obtain ⟨accepted, hrunning⟩ := h.counted.inv.exists_running hvalid
    intro q hq hlt hin
    rw [hrunning.byteAt_complete hg hmem hlength, if_neg, hold q hq hlt hin]
    rintro ⟨hlow, hhigh⟩
    exact hrunning.slot_ne hvalid hmem ((hrunning.mem_slot hg hmem hlow hhigh).2.symm.trans hin)
  cases hpc : s.transform with
  | idle => trivial
  | lowering place =>
      rw [hpc] at htransform
      obtain ⟨event, hreap, hvalid, hold⟩ := htransform
      exact ⟨event, hreap, hvalid, hlowered hvalid hold⟩
  | holding place byte =>
      rw [hpc] at htransform
      obtain ⟨⟨event, hreap, hvalid, hold⟩, hplace, hbyte⟩ := htransform
      obtain ⟨accepted, hrunning⟩ := h.counted.inv.exists_running hvalid
      refine ⟨⟨event, hreap, hvalid, hlowered hvalid hold⟩, hplace, ?_⟩
      rw [hrunning.byteAt_complete hg hmem hlength]
      split
      · rename_i hin
        exact hlossless place byte hpc hin.1 hin.2
      · exact hbyte

/-- The byte that is held is stored, lowered. -/
theorem store (h : AioByteCounted mixedHash file blkSize s) {place : ℕ} {byte : UInt8}
    (hpc : s.transform = .holding place byte) :
    AioByteCounted mixedHash file blkSize
      { table := s.table.setData (s.table.loop.shared.data.set place (toLower byte))
        transform := .lowering (place + 1) } := by
  have hlength := h.counted.progress.length
  have htransform := h.transform
  rw [hpc] at htransform
  obtain ⟨⟨event, hreap, hvalid, hold⟩, hplace, hbyte⟩ := htransform
  obtain ⟨accepted, hrunning⟩ := h.counted.inv.exists_running hvalid
  obtain ⟨rest, hevents, hevent⟩ := exists_cons_of_validEvent hvalid
  have hloaded := h.counted.loaded hrunning hevents hevent
  have hbound : place < s.table.loop.shared.data.length := by
    rw [hlength]
    exact hplace
  have hset := byteAt_set hbound (toLower byte)
  refine ⟨h.counted.setData hrunning (List.length_set.trans hlength) ?_ ?_, event, hreap, hvalid, ?_⟩
  · intro q _
    rw [hset]
    split
    · rename_i hq
      rw [toLower_toLower, hbyte, hq]
    · rfl
  · intro q hq hmem
    rw [hset]
    split
    · exact toLower_toLower byte
    · rw [← map_fst_aioTasks] at hmem
      rw [h.counted.progress.lowered q hq hmem, toLower_toLower]
  · intro q hq hlt hin
    change byteAt (s.table.loop.shared.data.set place (toLower byte)) q = _
    rw [hset]
    split
    · rename_i hsame
      rw [hbyte, hsame, hloaded q hq hin]
    · exact hold q hq (by omega) hin

/-- At the end of the buffer the whole block of the event is lowered. -/
theorem lowered (h : AioByteCounted mixedHash file blkSize s) {place : ℕ} {event : IoEvent}
    (hpc : s.transform = .lowering place) (hplace : ¬ place < s.table.loop.shared.data.length)
    (hvalid : validEvent s.table.loop = some event) :
    s.table.loop.pc = .reap ∧ Lowered file blkSize event.obj file.length s.table.loop.shared.data := by
  have htransform := h.transform
  rw [hpc] at htransform
  obtain ⟨event', hreap, hvalid', hold⟩ := htransform
  obtain rfl := Option.some.inj (hvalid.symm.trans hvalid')
  rw [h.counted.progress.length] at hplace
  exact ⟨hreap, fun q hq _ hin => hold q hq (by omega) hin⟩

/-- The event is counted once the whole buffer is lowered. -/
theorem count (h : AioByteCounted mixedHash file blkSize s) (hg : AioGeometry file.length blkSize)
    {place : ℕ} {event : IoEvent} (hpc : s.transform = .lowering place)
    (hplace : ¬ place < s.table.loop.shared.data.length) (hvalid : validEvent s.table.loop = some event) :
    AioByteCounted mixedHash file blkSize
      { table := countEvent mixedHash blkSize s.table event, transform := .idle } := by
  have hlength := h.counted.progress.length
  obtain ⟨hreap, hlowered⟩ := h.lowered hpc hplace hvalid
  obtain ⟨accepted, hrunning⟩ := h.counted.inv.exists_running hvalid
  obtain ⟨rest, hevents, hevent⟩ := exists_cons_of_validEvent hvalid
  obtain ⟨hk, hiocb⟩ := hrunning.iocb_eq (mem_outstanding_of_events hevents)
  have hrunning' := hrunning.reap_event hg hreap hevents hevent
  have hcounted := h.counted.reap_event hg (.running accepted hrunning') hrunning hevents hevent
  have hreap' := reap_eq_countEvent mixedHash blkSize hvalid
  have hprocessed : processedSlots blkSize (reapStep blkSize s.table.loop) =
      processedSlots blkSize s.table.loop ++ [event.obj] := by
    rw [reapStep_ok hevents hevent, hiocb, processedSlots, List.map_append, List.map_singleton]
    congr 2
    exact Nat.mul_div_cancel _ hg.blkSize_pos
  have hdata : (reapStep blkSize s.table.loop).shared.data = lower s.table.loop.shared.data := by
    rw [reapStep_ok hevents hevent]
    exact Shared.data_processChunk _ _ _ _ _
  refine ⟨?_, trivial⟩
  rw [countEvent_of_lowered mixedHash hg hk hiocb hlength hlowered, ← hreap']
  apply hcounted.setData hrunning' hlength
  · intro q _
    rw [hdata, byteAt_lower, toLower_toLower]
  · intro q hq hmem
    rw [hprocessed, List.mem_append, List.mem_singleton] at hmem
    rcases hmem with hbefore | hown
    · rw [← map_fst_aioTasks] at hbefore
      rw [h.counted.progress.lowered q hq hbefore, toLower_toLower]
    · rw [hlowered q hq hq hown, toLower_toLower]

/-- An event is processed in front of `reap` only. -/
theorem pc_eq (h : AioByteCounted mixedHash file blkSize s) (hbusy : s.transform ≠ .idle) :
    s.table.loop.pc = .reap := by
  have htransform := h.transform
  cases hpc : s.transform with
  | idle => exact absurd hpc hbusy
  | lowering place =>
      rw [hpc] at htransform
      obtain ⟨event, hreap, -⟩ := htransform
      exact hreap
  | holding place byte =>
      rw [hpc] at htransform
      obtain ⟨⟨event, hreap, -⟩, -⟩ := htransform
      exact hreap

/-- Every step of the program and of the kernel in which no byte is lost keeps the count. -/
theorem step (h : AioByteCounted mixedHash file blkSize s) (hg : AioGeometry file.length blkSize)
    {label : AioByteLabel} (hstep : LosslessStep mixedHash file blkSize s label t) :
    AioByteCounted mixedHash file blkSize t := by
  obtain ⟨hstep, hlossless⟩ := hstep
  cases hstep with
  | loop hreap htable =>
      refine ⟨h.counted.step hg htable, ?_⟩
      by_cases hidle : s.transform = .idle
      · change s.transform.Fits _ _ _
        rw [hidle]
        trivial
      · have hpc := h.pc_eq hidle
        cases htable with
        | reap _ => exact absurd (hreap rfl).1 hidle
        | other _ hloop =>
            cases hloop with
            | head hpc' => cases hpc.symm.trans hpc'
            | submit hpc' _ => cases hpc.symm.trans hpc'
            | submitFailed hpc' _ => cases hpc.symm.trans hpc'
            | complete hmem => exact h.complete hg hmem fun place byte => hlossless _ _ _ place byte rfl
            | getevents hpc' _ _ => cases hpc.symm.trans hpc'
            | geteventsFailed hpc' _ => cases hpc.symm.trans hpc'
            | reap _ => exact absurd rfl ‹_›
  | @enter event hidle hpc hvalid =>
      exact ⟨h.counted, event, hpc, hvalid, fun q _ hlt _ => absurd hlt (Nat.not_lt_zero q)⟩
  | @load place hpc hplace =>
      have htransform := h.transform
      rw [hpc] at htransform
      rw [h.counted.progress.length] at hplace
      exact ⟨h.counted, htransform, hplace, rfl⟩
  | store hpc => exact h.store hpc
  | count hpc hplace hvalid => exact h.count hg hpc hplace hvalid

theorem run {labels : List AioByteLabel} (hg : AioGeometry file.length blkSize)
    (hrun : Run (LosslessStep mixedHash file blkSize) (aioByteStart mixedHash file.length blkSize) labels s) :
    AioByteCounted mixedHash file blkSize s :=
  hrun.preserves (fun _ _ _ h hstep => h.step hg hstep) (aioByteCounted_start mixedHash hg)

end AioByteCounted

/-! ### Steps in which no request completes -/

/-- The steps of the program alone. -/
def StillStep (mixedHash : Word → UInt64) (file : Buffer) (blkSize : ℕ) (s : AioByteState)
    (label : AioByteLabel) (t : AioByteState) : Prop :=
  AioByteStep mixedHash file blkSize s label t ∧
    ∀ request res res2, label ≠ .loop (.complete request res res2)

theorem StillStep.lossless {s t : AioByteState} {label : AioByteLabel}
    (h : StillStep mixedHash file blkSize s label t) : LosslessStep mixedHash file blkSize s label t :=
  ⟨h.1, fun request res res2 _ _ heq => absurd heq (h.2 request res res2)⟩

/-- The buffer with `m` bytes from `place` on lowered. -/
def lowerPart (data : Buffer) (place m : ℕ) : Buffer :=
  data.mapIdx fun q byte => if place ≤ q ∧ q < place + m then toLower byte else byte

@[simp] theorem length_lowerPart (data : Buffer) (place m : ℕ) :
    (lowerPart data place m).length = data.length :=
  List.length_mapIdx

theorem byteAt_lowerPart (data : Buffer) (place m q : ℕ) :
    byteAt (lowerPart data place m) q =
      if place ≤ q ∧ q < place + m then toLower (byteAt data q) else byteAt data q := by
  rw [byteAt, lowerPart, List.getElem?_mapIdx, byteAt]
  cases data[q]? with
  | none =>
      split
      · rfl
      · rfl
  | some byte => rfl

theorem ext_byteAt {data data' : Buffer} (hlength : data.length = data'.length)
    (h : ∀ q, q < data.length → byteAt data q = byteAt data' q) : data = data' := by
  rw [← map_byteAt_range data, ← map_byteAt_range data', ← hlength]
  exact List.map_congr_left fun q hq => h q (List.mem_range.mp hq)

theorem lowerPart_zero (data : Buffer) (place : ℕ) : lowerPart data place 0 = data := by
  apply ext_byteAt (length_lowerPart _ _ _)
  intro q _
  rw [byteAt_lowerPart, if_neg (by omega)]

theorem lowerPart_length (data : Buffer) : lowerPart data 0 data.length = lower data := by
  apply ext_byteAt ((length_lowerPart _ _ _).trans (length_lower data).symm)
  intro q hq
  rw [length_lowerPart] at hq
  rw [byteAt_lowerPart, if_pos (by omega), byteAt_lower]

/-- One more byte lowered in place. -/
theorem lowerPart_set {data : Buffer} {place : ℕ} (hplace : place < data.length) (m : ℕ) :
    lowerPart (data.set place (toLower (byteAt data place))) (place + 1) m =
      lowerPart data place (m + 1) := by
  apply ext_byteAt (by simp)
  intro q _
  rw [byteAt_lowerPart, byteAt_lowerPart, byteAt_set hplace]
  by_cases hq : place = q
  · rw [if_neg (by omega), if_pos hq, if_pos (by omega), hq]
  · rw [if_neg hq]
    exact if_congr (by omega) rfl rfl

/-- Between the load of a byte and its store nothing has to happen. -/
theorem AioTableState.leads_lower (mixedHash : Word → UInt64) (file : Buffer) (blkSize m : ℕ)
    {s : AioTableState} {place : ℕ} (hm : place + m ≤ s.loop.shared.data.length) :
    Leads (StillStep mixedHash file blkSize) ⟨s, .lowering place⟩
      ⟨s.setData (lowerPart s.loop.shared.data place m), .lowering (place + m)⟩ := by
  induction m generalizing s place with
  | zero =>
      rw [lowerPart_zero, Nat.add_zero]
      exact Leads.refl _
  | succ m ih =>
      have hplace : place < s.loop.shared.data.length := by omega
      have hload : StillStep mixedHash file blkSize ⟨s, .lowering place⟩ (.load place) _ :=
        ⟨.load rfl hplace, fun _ _ _ => AioByteLabel.noConfusion⟩
      have hstore : StillStep mixedHash file blkSize
          ⟨s, .holding place (byteAt s.loop.shared.data place)⟩ (.store place) _ :=
        ⟨.store rfl, fun _ _ _ => AioByteLabel.noConfusion⟩
      have hlength : place + 1 + m ≤
          (s.loop.shared.data.set place (toLower (byteAt s.loop.shared.data place))).length := by
        rw [List.length_set]
        omega
      have hrest := @ih (s.setData (s.loop.shared.data.set place (toLower (byteAt s.loop.shared.data place))))
        (place + 1) hlength
      rw [AioTableState.setData_setData, AioTableState.data_setData, lowerPart_set hplace, Nat.add_assoc,
        Nat.add_comm 1 m] at hrest
      exact ((Leads.single hload).trans (.single hstore)).trans hrest

/-- An event that passes the validation can be processed while no request completes. -/
theorem leads_countEvent {s : AioTableState} {event : IoEvent} (hpc : s.loop.pc = .reap)
    (hvalid : validEvent s.loop = some event) :
    Leads (StillStep mixedHash file blkSize) ⟨s, .idle⟩
      ⟨⟨reapStep blkSize s.loop, reapTable mixedHash s.loop s.frequency⟩, .idle⟩ := by
  have henter : StillStep mixedHash file blkSize ⟨s, .idle⟩ .enter _ :=
    ⟨.enter rfl hpc hvalid, fun _ _ _ => AioByteLabel.noConfusion⟩
  have hlower := s.leads_lower mixedHash file blkSize s.loop.shared.data.length (Nat.zero_add _).le
  rw [lowerPart_length, Nat.zero_add] at hlower
  have hend : ¬ s.loop.shared.data.length < (s.setData (lower s.loop.shared.data)).loop.shared.data.length := by
    rw [AioTableState.data_setData, length_lower]
    exact Nat.lt_irrefl _
  have hcount : StillStep mixedHash file blkSize
      ⟨s.setData (lower s.loop.shared.data), .lowering s.loop.shared.data.length⟩ .count _ :=
    ⟨.count rfl hend hvalid, fun _ _ _ => AioByteLabel.noConfusion⟩
  rw [reap_eq_countEvent mixedHash blkSize hvalid]
  exact ((Leads.single henter).trans hlower).trans (.single hcount)

/-- A step of the loop that processes its event at once is a run byte by byte. -/
theorem leads_step {s t : AioTableState} {label : Label} (h : AioTableStep mixedHash file blkSize s label t) :
    Leads (LosslessStep mixedHash file blkSize) ⟨s, .idle⟩ ⟨t, .idle⟩ := by
  have hstay (hother : label = .reap → validEvent s.loop = none) :
      Leads (LosslessStep mixedHash file blkSize) ⟨s, .idle⟩ ⟨t, .idle⟩ :=
    .single ⟨.loop (fun hreap => ⟨rfl, hother hreap⟩) h, fun _ _ _ _ _ _ => TransformPc.noConfusion⟩
  cases hvalid : validEvent s.loop with
  | none => exact hstay fun _ => hvalid
  | some event =>
      cases h with
      | other hother _ => exact hstay fun hreap => absurd hreap hother
      | reap hstep =>
          cases hstep with
          | reap hpc => exact (leads_countEvent hpc hvalid).mono fun _ _ _ => StillStep.lossless

/-- So every run of the loop is one byte by byte in which nothing is lost. -/
theorem leads_run {s t : AioTableState} (labels : List Label)
    (h : Run (AioTableStep mixedHash file blkSize) s labels t) :
    Leads (LosslessStep mixedHash file blkSize) ⟨s, .idle⟩ ⟨t, .idle⟩ := by
  induction h with
  | nil s => exact Leads.refl _
  | cons hfirst _ ih => exact (leads_step hfirst).trans ih

/-- For every file of 4 to 2^32 + 1 bytes and every behaviour of the kernel, in every run in which requests
    complete while `std::transform` walks over the buffer, but no byte arrives where it holds another one:
    the part of a block that it has walked over stays lowered, and when the loop is left, buffer, edges and
    counts are those of chunked counting in the order in which the blocks were processed. -/
theorem lossless_aio_runs_are_chunked_counting (mixedHash : Word → UInt64) (file : Buffer)
    (h4 : 4 ≤ file.length) (hn : file.length ≤ 2 ^ 32 + 1) :
    ∀ labels s, Run (LosslessStep mixedHash file (aioBlockSize file.length))
        (aioByteStart mixedHash file.length (aioBlockSize file.length)) labels s →
      (∀ place, s.transform = .lowering place → ∃ event, validEvent s.table.loop = some event ∧
        Lowered file (aioBlockSize file.length) event.obj place s.table.loop.shared.data) ∧
      (s.table.loop.pc = .left →
        ∃ schedule : Schedule (blockCount file.length (aioBlockSize file.length)) 1,
          schedule.order.map Prod.fst = processedSlots (aioBlockSize file.length) s.table.loop ∧
          s.table.loop.shared.data = lower file ∧
          s.table.loop.shared.chunkEdges = recordedEdges file (aioBlockSize file.length) ∧
          finish s.table.loop.shared = chunkedCount file (aioBlockSize file.length) schedule) := by
  have hg := aioGeometry h4 hn
  intro labels s hrun
  have h := AioByteCounted.run hg hrun
  refine ⟨?_, h.counted.left hg⟩
  intro place hpc
  have htransform := h.transform
  rw [hpc] at htransform
  obtain ⟨event, -, hvalid, hlowered⟩ := htransform
  exact ⟨event, hvalid, hlowered⟩

/-- The four blocks of `ab c`: the third one completes while the transformation for the first one holds a
    byte, the others while nothing is processed. -/
theorem exists_lossless_run :
    ∃ s, Leads (LosslessStep (Wyhash.wordHash Wyhash.mum128) [0x61, 0x62, 0x20, 0x63] 1)
        (aioByteStart (Wyhash.wordHash Wyhash.mum128) 4 1) s ∧
      s.table.loop.pc = .left := by
  have hfirst : Run (AioTableStep (Wyhash.wordHash Wyhash.mum128) [0x61, 0x62, 0x20, 0x63] 1)
      (aioTableStart (Wyhash.wordHash Wyhash.mum128) 4 1)
      [.head, .submit 4, .complete ⟨0, 0, 1⟩ 1 0, .getevents [⟨0, 1, 0⟩]] _ :=
      .cons (.other Label.noConfusion (.head rfl)) <|
      .cons (.other Label.noConfusion (.submit rfl (by decide +kernel))) <|
      .cons (.other Label.noConfusion (.complete (by decide +kernel))) <|
      .cons (.other Label.noConfusion (.getevents rfl (by decide +kernel) (by decide +kernel))) <| .nil _
  have hheld : Leads (LosslessStep (Wyhash.wordHash Wyhash.mum128) [0x61, 0x62, 0x20, 0x63] 1)
      (aioByteStart (Wyhash.wordHash Wyhash.mum128) 4 1) _ :=
    (leads_run _ hfirst).trans ⟨[.enter, .load 0, .loop (.complete ⟨2, 2, 1⟩ 1 0), .store 0],
      .cons ⟨.enter rfl rfl rfl, fun _ _ _ _ _ => AioByteLabel.noConfusion⟩ <|
      .cons ⟨.load rfl (by decide +kernel), fun _ _ _ _ _ => AioByteLabel.noConfusion⟩ <|
      .cons ⟨.loop Label.noConfusion (.other Label.noConfusion (.complete (by decide +kernel))),
        by rintro _ _ _ place _ ⟨⟩ ⟨⟩ hlow; exact absurd hlow (by decide)⟩ <|
      .cons ⟨.store rfl, fun _ _ _ _ _ => AioByteLabel.noConfusion⟩ <| .nil _⟩
  have hcounted := (hheld.trans ((AioTableState.leads_lower (Wyhash.wordHash Wyhash.mum128)
      [0x61, 0x62, 0x20, 0x63] 1 3 (by decide +kernel)).mono fun _ _ _ => StillStep.lossless)).trans
    (.single ⟨.count rfl (by decide +kernel) rfl, fun _ _ _ _ _ => AioByteLabel.noConfusion⟩)
  have hlast : Leads (LosslessStep (Wyhash.wordHash Wyhash.mum128) [0x61, 0x62, 0x20, 0x63] 1)
      (aioByteStart (Wyhash.wordHash Wyhash.mum128) 4 1) _ :=
    hcounted.trans <| leads_run [.reap, .complete ⟨1, 1, 1⟩ 1 0, .complete ⟨3, 3, 1⟩ 1 0,
        .getevents [⟨3, 1, 0⟩, ⟨1, 1, 0⟩, ⟨2, 1, 0⟩], .reap, .reap, .reap, .reap, .getevents [], .head] <|
      .cons (.reap (.reap rfl)) <|
      .cons (.other Label.noConfusion (.complete (by decide +kernel))) <|
      .cons (.other Label.noConfusion (.complete (by decide +kernel))) <|
      .cons (.other Label.noConfusion (.getevents rfl (by decide +kernel) (by decide +kernel))) <|
      .cons (.reap (.reap rfl)) <| .cons (.reap (.reap rfl)) <| .cons (.reap (.reap rfl)) <|
      .cons (.reap (.reap rfl)) <|
      .cons (.other Label.noConfusion (.getevents rfl (by decide +kernel) (by decide +kernel))) <|
      .cons (.other Label.noConfusion (.head rfl)) <| .nil _
  exact ⟨_, hlast, rfl⟩

/-- In that run the counts are those of chunked counting. -/
theorem lossless_aio_runs_are_chunked_counting_ab_c :
    ∃ (s : AioByteState) (schedule : Schedule 4 1),
      Leads (LosslessStep (Wyhash.wordHash Wyhash.mum128) [0x61, 0x62, 0x20, 0x63] 1)
        (aioByteStart (Wyhash.wordHash Wyhash.mum128) 4 1) s ∧
      schedule.order.map Prod.fst = processedSlots 1 s.table.loop ∧
      finish s.table.loop.shared = chunkedCount [0x61, 0x62, 0x20, 0x63] 1 schedule := by
  have hruns := lossless_aio_runs_are_chunked_counting (Wyhash.wordHash Wyhash.mum128)
    [0x61, 0x62, 0x20, 0x63] (by decide) (by decide)
  rw [aioBlockSize_ab_c] at hruns
  obtain ⟨s, ⟨labels, hrun⟩, hleft⟩ := exists_lossless_run
  obtain ⟨schedule, horder, -, -, hfinish⟩ := (hruns labels s hrun).2 hleft
  exact ⟨s, schedule, ⟨labels, hrun⟩, horder, hfinish⟩

end FreqUtility
