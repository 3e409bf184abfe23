/-
Module: FreqUtility.Proofs.AioTable
Layer: Proofs
Purpose: What `process_file_aio` has counted in every reachable state, whatever the kernel does between two
  calls of `process_chunk`. A completion that reports all bytes of its request has delivered them, an event
  that reports fewer is thrown out by `validate_event`, so every block is loaded when `process_chunk` gets
  it. When the loop is left, the blocks it processed are a schedule of one worker, and buffer, edges and
  table are those of a run on the loaded file.
Imports: FreqUtility.Core.AioTable, FreqUtility.Proofs.AioInvariant, FreqUtility.Proofs.TableCounting
Trusted boundary: none (fully proved)
Main exports: aioTasks, AioCounted, AioCounted.step, AioCounted.run, AioCounted.exists_schedule,
  exists_tableRun, aio_loop_is_chunked_counting
Open obligations: none
-/
import FreqUtility.Core.AioTable
import FreqUtility.Proofs.AioInvariant
import FreqUtility.Proofs.TableCounting

namespace FreqUtility

open Blocks Transition UnorderedDense

variable {mixedHash : Word → UInt64} {file : Buffer} {blkSize c k : ℕ}

/-! ### Completions that deliver a part of a block -/

/-- A part of a chunk that was not processed yet leaves the finished chunks alone. -/
theorem Progress.loadPart {workers : ℕ} {finished : List (Task workers)} {s : Shared workers}
    (h : Progress file c finished s) (hc : 0 < c)
    (hnew : k ∉ finished.map Prod.fst) {count : ℕ} (hcount : k * c + count ≤ blockStop file.length c k) :
    Progress file c finished (s.load (k * c) ((file.drop (k * c)).take count)) := by
  have hle : blockStop file.length c k ≤ file.length := blockStop_le
  have hbound := hcount.trans hle
  refine ⟨?_, ?_, h.edges, h.frequency⟩
  · refine (length_store ?_).trans h.length
    rw [List.length_take, List.length_drop, h.length]
    omega
  · intro p hp hmem
    change byteAt (FreqUtility.store s.data _ _) p = _
    rw [byteAt_store_part hbound h.length, if_neg, h.lowered p hp hmem]
    rintro ⟨hlow, hhigh⟩
    obtain ⟨-, hin⟩ := (mem_block_iff hc).mp ⟨hlow, hhigh.trans_le hcount⟩
    exact hnew (hin ▸ hmem)

/-! ### The invariant -/

/-- The processed blocks, as tasks of the only worker. -/
def aioTasks (blkSize : ℕ) (s : AioState) : List (Task 1) :=
  (processedSlots blkSize s).map fun i => (i, ⟨0, Nat.one_pos⟩)

theorem map_fst_aioTasks (blkSize : ℕ) (s : AioState) :
    (aioTasks blkSize s).map Prod.fst = processedSlots blkSize s := by
  rw [aioTasks, List.map_map]
  exact List.map_id _

/-- The completions that the loop has not processed. -/
def pendingEvents (s : AioState) : Multiset IoEvent := s.completed + s.events

/-- The processed blocks are counted, and a completion that reports all its bytes has delivered them. -/
structure AioCounted (mixedHash : Word → UInt64) (file : Buffer) (blkSize : ℕ) (s : AioTableState) :
    Prop where
  inv : AioInv file.length blkSize s.loop
  progress : Progress file blkSize (aioTasks blkSize s.loop) s.loop.shared
  tables : TablesCount mixedHash file blkSize (file.length / 3) (aioTasks blkSize s.loop)
    fun _ => s.frequency
  delivered : ∀ event ∈ pendingEvents s.loop,
    event.res = (iocbOf file.length blkSize event.obj).nbytes →
      Loaded file blkSize event.obj s.loop.shared.data

theorem aioCounted_start (mixedHash : Word → UInt64) (hg : AioGeometry file.length blkSize) :
    AioCounted mixedHash file blkSize (aioTableStart mixedHash file.length blkSize) where
  inv := .start rfl
  progress := by
    have hinit : Progress file blkSize ([] : List (Task 1)) _ :=
      Progress.init file (List.replicate file.length 0) blkSize List.length_replicate
    rw [← howMany_fileSize hg] at hinit
    exact hinit
  tables := tablesCount_nil mixedHash file blkSize _
  delivered := fun _ h => absurd h (Multiset.notMem_zero _)

theorem mem_outstanding_of_inFlight {s : AioState} {request : Request} (hmem : request ∈ s.inFlight) :
    request.slot ∈ outstanding s := by
  rw [outstanding, add_assoc]
  exact Multiset.mem_add.mpr (Or.inl (Multiset.mem_map_of_mem _ hmem))

theorem mem_outstanding_of_events {s : AioState} {event : IoEvent} {rest : List IoEvent}
    (hevents : s.events = event :: rest) : event.obj ∈ outstanding s := by
  rw [outstanding, hevents]
  exact Multiset.mem_add.mpr (Or.inr List.mem_cons_self)

/-- A slot that is accounted for is the number of a block that was not processed. -/
theorem Running.fresh {fileSize accepted i : ℕ} {s : AioState} (h : Running fileSize blkSize accepted s)
    (hi : i ∈ outstanding s) : i < blockCount fileSize blkSize ∧ i ∉ processedSlots blkSize s := by
  refine ⟨(h.iocb_eq hi).1, ?_⟩
  intro hprocessed
  have hnodup := h.nodup
  rw [Multiset.nodup_add] at hnodup
  exact Multiset.disjoint_left.mp hnodup.2.2 hi hprocessed

/-- Preparing requests touches neither the buffer nor the completions. -/
theorem foldl_prepRequest_frame (fileSize blkSize : ℕ) (slots : List ℕ) (s : AioState) :
    (slots.foldl (prepRequest fileSize blkSize) s).shared = s.shared ∧
      (slots.foldl (prepRequest fileSize blkSize) s).processed = s.processed ∧
      pendingEvents (slots.foldl (prepRequest fileSize blkSize) s) = pendingEvents s := by
  induction slots generalizing s with
  | nil => exact ⟨rfl, rfl, rfl⟩
  | cons i slots ih => exact ih (prepRequest fileSize blkSize s i)

theorem headStep_frame (fileSize blkSize : ℕ) (s : AioState) :
    (headStep fileSize blkSize s).shared = s.shared ∧
      (headStep fileSize blkSize s).processed = s.processed ∧
      pendingEvents (headStep fileSize blkSize s) = pendingEvents s := by
  unfold headStep
  split
  · simp only
    split
    · exact foldl_prepRequest_frame fileSize blkSize _ s
    · exact ⟨rfl, rfl, rfl⟩
  · exact ⟨rfl, rfl, rfl⟩

/-- When the loop is left, every block has been processed. -/
theorem Running.processedSlots_perm {fileSize accepted : ℕ} {s : AioState}
    (h : Running fileSize blkSize accepted s) (hleft : s.pc = .left) :
    (processedSlots blkSize s).Perm (List.range (blockCount fileSize blkSize)) := by
  have hchunks := h.chunks
  rw [h.finished hleft, Nat.zero_add] at hchunks
  apply List.Subperm.perm_of_length_le
  · exact List.subperm_of_subset h.processedSlots_nodup fun i hi =>
      List.mem_range.mpr (h.processedSlots_lt hi)
  · rw [List.length_range, processedSlots, List.length_map, hchunks]

namespace AioCounted

variable {s : AioTableState} {t : AioState}

/-- A step that touches neither the buffer nor the completions counts nothing. -/
theorem frame (h : AioCounted mixedHash file blkSize s) (hinv : AioInv file.length blkSize t)
    (hshared : t.shared = s.loop.shared) (hprocessed : t.processed = s.loop.processed)
    (hpending : pendingEvents t = pendingEvents s.loop) :
    AioCounted mixedHash file blkSize { s with loop := t } := by
  have htasks : aioTasks blkSize t = aioTasks blkSize s.loop := by
    rw [aioTasks, processedSlots, hprocessed]
    rfl
  refine ⟨hinv, ?_, ?_, ?_⟩
  · simp only [hshared, htasks]
    exact h.progress
  · simp only [htasks]
    exact h.tables
  · simp only [hshared, hpending]
    exact h.delivered

/-- A request completes and delivers some of its bytes. -/
theorem complete (h : AioCounted mixedHash file blkSize s) (hg : AioGeometry file.length blkSize)
    {request : Request} (hmem : request ∈ s.loop.inFlight) (res res2 : ℕ)
    (hinv : AioInv file.length blkSize (completeStep file s.loop request res res2)) :
    AioCounted mixedHash file blkSize { s with loop := completeStep file s.loop request res res2 } := by
  obtain ⟨accepted, hrunning⟩ : ∃ accepted, Running file.length blkSize accepted s.loop := by
    cases h.inv with
    | start hstart =>
        rw [hstart] at hmem
        exact absurd hmem (Multiset.notMem_zero _)
    | submitting hsubmitting =>
        rw [hsubmitting.inFlight] at hmem
        exact absurd hmem (Multiset.notMem_zero _)
    | running accepted hrunning => exact ⟨accepted, hrunning⟩
  obtain ⟨hk, hnew⟩ := hrunning.fresh (mem_outstanding_of_inFlight hmem)
  have hiocb := hrunning.requests request hmem
  have hlt := start_lt_blockStop hg.blkSize_pos hk
  have hle : blockStop file.length blkSize request.slot ≤ file.length := blockStop_le
  have hnbytes : request.iocb.nbytes =
      blockStop file.length blkSize request.slot - request.slot * blkSize :=
    congrArg Iocb.nbytes hiocb
  have hoffset : request.iocb.offset = request.slot * blkSize := congrArg Iocb.offset hiocb
  have hcount : request.slot * blkSize + min res request.iocb.nbytes ≤
      blockStop file.length blkSize request.slot := by
    omega
  have hshared : (completeStep file s.loop request res res2).shared =
      s.loop.shared.load (request.slot * blkSize)
        ((file.drop (request.slot * blkSize)).take (min res request.iocb.nbytes)) := by
    rw [← hoffset]
    rfl
  rw [← map_fst_aioTasks] at hnew
  refine ⟨hinv, ?_, h.tables, ?_⟩
  · rw [hshared]
    exact h.progress.loadPart hg.blkSize_pos hnew hcount
  · intro event hevent hres
    rw [hshared]
    simp only [pendingEvents, completeStep, Multiset.cons_add, Multiset.mem_cons] at hevent
    rcases hevent with rfl | hold
    · -- The completion reports all bytes of the request, so all of them have arrived.
      change res = (iocbOf file.length blkSize request.slot).nbytes at hres
      rw [hnbytes, hres]
      change Loaded file blkSize request.slot (FreqUtility.store s.loop.shared.data _
        (List.take (min (blockStop file.length blkSize request.slot - request.slot * blkSize) _) _))
      rw [min_self]
      exact loaded_store hg.blkSize_pos hk h.progress.length
    · exact (h.delivered event hold hres).storePart (hcount.trans hle) h.progress.length

/-- The block of an event that passes the validation is loaded. -/
theorem loaded (h : AioCounted mixedHash file blkSize s) {accepted : ℕ}
    (hrunning : Running file.length blkSize accepted s.loop) {event : IoEvent} {rest : List IoEvent}
    (hevents : s.loop.events = event :: rest) (hevent : validateEvent s.loop.iocbs event = .ok ()) :
    Loaded file blkSize event.obj s.loop.shared.data := by
  have hslot := mem_outstanding_of_events hevents
  have hiocb := (hrunning.iocb_eq hslot).2
  apply h.delivered
  · rw [pendingEvents, hevents]
    exact Multiset.mem_add.mpr (Or.inr List.mem_cons_self)
  · by_contra hshort
    rw [validateEvent, hiocb, if_pos hshort] at hevent
    split at hevent
    · cases hevent
    · cases hevent

/-- An event that passes the validation is counted. -/
theorem reap_event (h : AioCounted mixedHash file blkSize s) (hg : AioGeometry file.length blkSize)
    (hinv : AioInv file.length blkSize (reapStep blkSize s.loop)) {accepted : ℕ}
    (hrunning : Running file.length blkSize accepted s.loop) {event : IoEvent} {rest : List IoEvent}
    (hevents : s.loop.events = event :: rest)
    (hevent : validateEvent s.loop.iocbs event = .ok ()) :
    AioCounted mixedHash file blkSize
      { loop := reapStep blkSize s.loop, frequency := reapTable mixedHash s.loop s.frequency } := by
  have hslot := mem_outstanding_of_events hevents
  obtain ⟨hk, hnew⟩ := hrunning.fresh hslot
  have hiocb := (hrunning.iocb_eq hslot).2
  have hloaded := h.loaded hrunning hevents hevent
  have hreap : reapStep blkSize s.loop = _ := reapStep_ok hevents hevent
  have hindex : event.obj * blkSize / blkSize = event.obj := Nat.mul_div_cancel _ hg.blkSize_pos
  rw [hiocb, wrap64_iocbOf hg hk] at hreap
  have htasks : aioTasks blkSize (reapStep blkSize s.loop) =
      aioTasks blkSize s.loop ++ [(event.obj, ⟨0, Nat.one_pos⟩)] := by
    rw [hreap]
    simp only [aioTasks, processedSlots, iocbOf, List.map_append, List.map_cons, List.map_nil, hindex]
  have htable : reapTable mixedHash s.loop s.frequency =
      processChunkTable mixedHash s.loop.shared.data s.frequency (event.obj * blkSize)
        (blockStop file.length blkSize event.obj) := by
    unfold reapTable
    simp only [hevents, hevent, hiocb, wrap64_iocbOf hg hk]
    rfl
  have hshared : (reapStep blkSize s.loop).shared =
      runChunk blkSize s.loop.shared (event.obj, ⟨0, Nat.one_pos⟩) := by
    rw [hreap, runChunk, h.progress.length]
    rfl
  rw [← map_fst_aioTasks] at hnew
  refine ⟨hinv, ?_, ?_, ?_⟩
  · rw [hshared, htasks]
    exact h.progress.step hg.blkSize_pos hk hnew hloaded
  · have hcounted := h.tables.process (event.obj, ⟨0, Nat.one_pos⟩) hg.blkSize_pos hk hloaded
      h.progress.length
    have honly (table : TableResult) : Function.update (fun _ : Fin 1 => s.frequency) ⟨0, Nat.one_pos⟩
        table = fun _ => table := by
      funext i
      rw [Subsingleton.elim i ⟨0, Nat.one_pos⟩, Function.update_self]
    rw [honly] at hcounted
    simp only [htasks, htable]
    exact hcounted
  · intro other hother hres
    rw [hshared, runChunk, Shared.data_processChunk]
    apply Loaded.lowered
    refine h.delivered other ?_ hres
    simp only [hreap, pendingEvents, Multiset.mem_add, Multiset.mem_coe] at hother
    rw [pendingEvents, hevents, Multiset.mem_add, Multiset.mem_coe]
    exact hother.imp_right (List.mem_cons_of_mem event)

theorem reap (h : AioCounted mixedHash file blkSize s) (hg : AioGeometry file.length blkSize)
    (hpc : s.loop.pc = .reap) (hinv : AioInv file.length blkSize (reapStep blkSize s.loop)) :
    AioCounted mixedHash file blkSize
      { loop := reapStep blkSize s.loop, frequency := reapTable mixedHash s.loop s.frequency } := by
  cases hevents : s.loop.events with
  | nil =>
      have htable : reapTable mixedHash s.loop s.frequency = s.frequency := by
        unfold reapTable
        rw [hevents]
      rw [reapStep_nil hevents] at hinv ⊢
      rw [htable]
      exact h.frame hinv rfl rfl rfl
  | cons event rest =>
      cases hevent : validateEvent s.loop.iocbs event with
      | error message =>
          have htable : reapTable mixedHash s.loop s.frequency = s.frequency := by
            unfold reapTable
            simp only [hevents, hevent]
          rw [reapStep_error hevents hevent] at hinv ⊢
          rw [htable]
          exact h.frame hinv rfl rfl rfl
      | ok _ =>
          obtain ⟨accepted, hrunning⟩ : ∃ accepted, Running file.length blkSize accepted s.loop := by
            cases h.inv with
            | start hstart =>
                rw [hstart] at hpc
                cases hpc
            | submitting hsubmitting =>
                rw [hsubmitting.events] at hevents
                cases hevents
            | running accepted hrunning => exact ⟨accepted, hrunning⟩
          exact h.reap_event hg hinv hrunning hevents hevent

/-- Every step of the program and of the kernel keeps the count. -/
theorem step {t : AioTableState} {label : Label} (h : AioCounted mixedHash file blkSize s)
    (hg : AioGeometry file.length blkSize)
    (hstep : AioTableStep mixedHash file blkSize s label t) : AioCounted mixedHash file blkSize t := by
  cases hstep with
  | reap hloop =>
      have hinv := aioInv_step hg h.inv hloop
      cases hloop with
      | reap hpc => exact h.reap hg hpc hinv
  | other hlabel hloop =>
      have hinv := aioInv_step hg h.inv hloop
      cases hloop with
      | head _ =>
          obtain ⟨hshared, hprocessed, hpending⟩ := headStep_frame file.length blkSize s.loop
          exact h.frame hinv hshared hprocessed hpending
      | submit _ _ => exact h.frame hinv rfl rfl rfl
      | submitFailed _ _ => exact h.frame hinv rfl rfl rfl
      | complete hmem => exact h.complete hg hmem _ _ hinv
      | @getevents events _ _ hle =>
          have hpending : pendingEvents (geteventsStep s.loop events) ≤ pendingEvents s.loop := by
            unfold pendingEvents geteventsStep
            simp only
            rw [Multiset.sub_add_cancel hle]
            exact Multiset.le_add_right _ _
          exact ⟨hinv, h.progress, h.tables,
            fun event hevent => h.delivered event (Multiset.mem_of_le hpending hevent)⟩
      | geteventsFailed _ _ => exact h.frame hinv rfl rfl rfl
      | reap _ => exact absurd rfl hlabel

theorem run {labels : List Label} (hg : AioGeometry file.length blkSize)
    (hrun : Run (AioTableStep mixedHash file blkSize) (aioTableStart mixedHash file.length blkSize)
      labels s) : AioCounted mixedHash file blkSize s :=
  hrun.preserves (fun _ _ _ h hstep => h.step hg hstep) (aioCounted_start mixedHash hg)

/-- When the loop is left, the processed blocks are a schedule of the only worker. -/
theorem exists_schedule (h : AioCounted mixedHash file blkSize s) (hleft : s.loop.pc = .left) :
    ∃ schedule : Schedule (blockCount file.length blkSize) 1,
      schedule.order = aioTasks blkSize s.loop := by
  cases h.inv with
  | start hstart =>
      rw [hstart] at hleft
      cases hleft
  | submitting hsubmitting =>
      have hpc := hsubmitting.pc
      simp [hleft] at hpc
  | running accepted hrunning =>
      have hperm := hrunning.processedSlots_perm hleft
      rw [← map_fst_aioTasks] at hperm
      exact ⟨⟨_, hperm⟩, rfl⟩

/-- When the loop is left, buffer, edges and counts are those of chunked counting. -/
theorem left (h : AioCounted mixedHash file blkSize s) (hg : AioGeometry file.length blkSize)
    (hleft : s.loop.pc = .left) :
    ∃ schedule : Schedule (blockCount file.length blkSize) 1,
      schedule.order.map Prod.fst = processedSlots blkSize s.loop ∧
      s.loop.shared.data = lower file ∧
      s.loop.shared.chunkEdges = recordedEdges file blkSize ∧
      finish s.loop.shared = chunkedCount file blkSize schedule := by
  obtain ⟨schedule, horder⟩ := h.exists_schedule hleft
  have hprogress := h.progress
  rw [← horder] at hprogress
  refine ⟨schedule, ?_, hprogress.data_eq hg.blkSize_pos schedule.perm,
    hprogress.chunkEdges_eq hg.blkSize_pos schedule.perm,
    hprogress.finish_eq hg.blkSize_pos hg.length_pos schedule⟩
  rw [horder]
  exact map_fst_aioTasks _ _

end AioCounted

/-! ### Runs of the loop -/

/-- The table restricts the loop in nothing: every run of the loop is a run with a table. -/
theorem exists_tableRun (mixedHash : Word → UInt64) {s t : AioState} {labels : List Label}
    (hrun : Run (Step file blkSize) s labels t) (frequency : TableResult) :
    ∃ frequency', Run (AioTableStep mixedHash file blkSize) ⟨s, frequency⟩ labels ⟨t, frequency'⟩ := by
  induction hrun generalizing frequency with
  | nil s => exact ⟨frequency, .nil _⟩
  | @cons s t u label labels hstep _ ih =>
      by_cases hreap : label = .reap
      · subst hreap
        obtain ⟨frequency', hrun⟩ := ih (reapTable mixedHash s frequency)
        exact ⟨frequency', .cons (.reap hstep) hrun⟩
      · obtain ⟨frequency', hrun⟩ := ih frequency
        exact ⟨frequency', .cons (.other hreap hstep) hrun⟩

/-- For every file of 4 to 2^32 + 1 bytes and every behaviour of the kernel between two calls of
    `process_chunk`: when the loop is left, the buffer is the lowered file, the edges are those of its blocks,
    and the result is that of chunked counting in the order in which the blocks were processed. -/
theorem aio_loop_is_chunked_counting (file : Buffer) (h4 : 4 ≤ file.length)
    (hn : file.length ≤ 2 ^ 32 + 1) :
    ∃ s₀, aioInit file.length = .ok s₀ ∧ ∀ labels s,
      Run (Step file (aioBlockSize file.length)) s₀ labels s → s.pc = .left →
        ∃ schedule : Schedule (blockCount file.length (aioBlockSize file.length)) 1,
          schedule.order.map Prod.fst = processedSlots (aioBlockSize file.length) s ∧
          s.shared.data = lower file ∧
          s.shared.chunkEdges = recordedEdges file (aioBlockSize file.length) ∧
          finish s.shared = chunkedCount file (aioBlockSize file.length) schedule := by
  have hg := aioGeometry h4 hn
  refine ⟨_, aioInit_of_pos hg.blkSize_pos, ?_⟩
  intro labels s hrun hleft
  obtain ⟨frequency, htable⟩ := exists_tableRun (fun _ => 0) hrun
    (reserve (fun _ => 0) Table.empty (file.length / 3))
  exact (AioCounted.run hg htable).left hg hleft

/-- The run of `ab c` that processes its third block first. -/
theorem aio_loop_is_chunked_counting_ab_c :
    ∃ (s : AioState) (schedule : Schedule 4 1), schedule.order.map Prod.fst = processedSlots 1 s ∧
      finish s.shared = chunkedCount [0x61, 0x62, 0x20, 0x63] 1 schedule := by
  obtain ⟨s₀, hinit, hruns⟩ := aio_loop_is_chunked_counting [0x61, 0x62, 0x20, 0x63] (by decide)
    (by decide)
  cases Except.ok.inj (hinit.symm.trans aioInit_ab_c)
  obtain ⟨t, s, hbefore, hafter, -, -, -, hleft, -⟩ := exists_aio_run
  have hrun := (hbefore.append hafter).mono fun _ _ _ h => h.1
  rw [aioBlockSize_ab_c] at hruns
  obtain ⟨schedule, horder, -, -, hfinish⟩ := hruns _ s hrun hleft
  exact ⟨s, schedule, horder, hfinish⟩

end FreqUtility
