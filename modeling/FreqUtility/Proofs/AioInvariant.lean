/-
Module: FreqUtility.Proofs.AioInvariant
Layer: Proofs
Purpose: What holds in every reachable state of the AIO loop, whatever the kernel does. The loop has three
  phases: before the first round, in front of the only `io_submit` that has requests, and after it. In
  the last phase (`Running`) every accepted slot is in exactly one place: in flight, completed, returned
  but not yet processed, or processed; the counters `busy` and `chunks` are what that account leaves.
  One lemma for each step shows that it moves a slot from one place to the next.
Imports: FreqUtility.Proofs.AioBlocks
Trusted boundary: none (fully proved)
Main exports: outstanding, Running, AioInv, aioInv_step, aioInv_run, aio_processes_every_block_once,
  exists_aio_run
Open obligations: none
-/
import FreqUtility.Proofs.AioBlocks

namespace FreqUtility

open Blocks Transition

variable {file : Buffer} {blkSize accepted : ℕ} {s t : AioState}

/-- The slots whose requests were accepted and not yet reaped. -/
def outstanding (s : AioState) : Multiset ℕ :=
  s.inFlight.map Request.slot + s.completed.map IoEvent.obj + (s.events.map IoEvent.obj : List ℕ)

/-- The indices `start_pos / chunk_size` of the ranges processed so far. -/
def processedSlots (blkSize : ℕ) (s : AioState) : List ℕ := s.processed.map fun r => r.1 / blkSize

/-- In front of the `io_submit` of the first round, or after it failed. -/
structure Submitting (fileSize blkSize : ℕ) (s : AioState) : Prop where
  prepared : Prepared fileSize blkSize s
  pc : s.pc = .submit ∨ ∃ message, s.pc = .thrown message
  n : s.n = blockCount fileSize blkSize
  busy : s.busy = 0
  chunks : s.chunks = blockCount fileSize blkSize
  inFlight : s.inFlight = 0
  completed : s.completed = 0
  events : s.events = []
  processed : s.processed = []
  edges : s.shared.chunkEdges.length = blockCount fileSize blkSize

/-- After the first round: the account of the accepted slots. -/
structure Running (fileSize blkSize accepted : ℕ) (s : AioState) : Prop where
  prepared : Prepared fileSize blkSize s
  accepted_le : accepted ≤ blockCount fileSize blkSize
  account : outstanding s + (processedSlots blkSize s : Multiset ℕ) = Multiset.range accepted
  requests : ∀ request ∈ s.inFlight, request.iocb = iocbOf fileSize blkSize request.slot
  processed : ∀ r ∈ s.processed, r.1 = r.1 / blkSize * blkSize ∧
    r.2 = blockStop fileSize blkSize (r.1 / blkSize)
  busy : s.busy + s.processed.length = blockCount fileSize blkSize
  chunks : s.chunks + s.processed.length = blockCount fileSize blkSize
  edges : s.shared.chunkEdges.length = blockCount fileSize blkSize
  submit : s.pc ≠ .submit
  idle : s.pc = .head ∨ s.pc = .getevents ∨ s.pc = .left → s.events = []
  finished : s.pc = .left → s.chunks = 0

/-- The three phases of the loop. -/
inductive AioInv (fileSize blkSize : ℕ) (s : AioState) : Prop where
  | start : s = aioStart fileSize blkSize → AioInv fileSize blkSize s
  | submitting : Submitting fileSize blkSize s → AioInv fileSize blkSize s
  | running (accepted : ℕ) : Running fileSize blkSize accepted s → AioInv fileSize blkSize s

namespace Running

variable {fileSize : ℕ}

theorem lt_accepted (h : Running fileSize blkSize accepted s) {i : ℕ}
    (hi : i ∈ outstanding s + (processedSlots blkSize s : Multiset ℕ)) : i < accepted := by
  rw [h.account] at hi
  exact Multiset.mem_range.mp hi

theorem card_eq (h : Running fileSize blkSize accepted s) :
    Multiset.card (outstanding s) + s.processed.length = accepted := by
  have hcard := congrArg Multiset.card h.account
  rw [Multiset.card_add, Multiset.coe_card, Multiset.card_range] at hcard
  simpa [processedSlots] using hcard

theorem nodup (h : Running fileSize blkSize accepted s) :
    (outstanding s + (processedSlots blkSize s : Multiset ℕ)).Nodup := by
  rw [h.account]
  exact Multiset.nodup_range accepted

/-- No block is processed twice. -/
theorem processedSlots_nodup (h : Running fileSize blkSize accepted s) :
    (processedSlots blkSize s).Nodup :=
  Multiset.coe_nodup.mp (Multiset.nodup_of_le (Multiset.le_add_left _ _) h.nodup)

theorem processedSlots_lt (h : Running fileSize blkSize accepted s) {i : ℕ}
    (hi : i ∈ processedSlots blkSize s) : i < blockCount fileSize blkSize :=
  Nat.lt_of_lt_of_le (h.lt_accepted (Multiset.mem_add.mpr (Or.inr hi))) h.accepted_le

/-- The slot of a returned event has not been processed, so both counters are positive. -/
theorem processed_lt (h : Running fileSize blkSize accepted s) (hevents : s.events ≠ []) :
    s.processed.length < blockCount fileSize blkSize := by
  have hcard := h.card_eq
  have hpos : 0 < (s.events.map IoEvent.obj).length := by
    rw [List.length_map]
    exact List.length_pos_iff.mpr hevents
  rw [outstanding, Multiset.card_add, Multiset.coe_card] at hcard
  have := h.accepted_le
  omega

/-- The `iocb` of an accepted slot still holds its block. -/
theorem iocb_eq (h : Running fileSize blkSize accepted s) {i : ℕ} (hi : i ∈ outstanding s) :
    i < blockCount fileSize blkSize ∧ s.iocbs i = iocbOf fileSize blkSize i := by
  have hlt : i < blockCount fileSize blkSize :=
    Nat.lt_of_lt_of_le (h.lt_accepted (Multiset.mem_add.mpr (Or.inl hi))) h.accepted_le
  exact ⟨hlt, h.prepared.iocbs i hlt⟩

/-- The program moves on without touching a request. -/
theorem advance (h : Running fileSize blkSize accepted s) {pc : Pc} {n : ℕ} (hsubmit : pc ≠ .submit)
    (hidle : pc = .head ∨ pc = .getevents ∨ pc = .left → s.events = [])
    (hfinished : pc = .left → s.chunks = 0) :
    Running fileSize blkSize accepted { s with pc, n } :=
  { h with
    prepared := ⟨h.prepared.offset, h.prepared.iocbs, h.prepared.submitted⟩
    submit := hsubmit
    idle := hidle
    finished := hfinished }

/-! ### One lemma for each step -/

/-- A new round prepares nothing, since everything was submitted in the first one. -/
theorem head (h : Running fileSize blkSize accepted s) (hg : AioGeometry fileSize blkSize)
    (hpc : s.pc = .head) : Running fileSize blkSize accepted (headStep fileSize blkSize s) := by
  have hevents := h.idle (Or.inl hpc)
  unfold headStep
  by_cases hchunks : 0 < s.chunks
  · rw [if_pos hchunks]
    simp only [roundRequests_prepared hg h.prepared, Nat.lt_irrefl, if_false]
    exact h.advance nofun (fun _ => hevents) nofun
  · rw [if_neg hchunks]
    exact h.advance nofun (fun _ => hevents) fun _ => Nat.eq_zero_of_not_pos hchunks

/-- A completion moves a slot from the requests in flight to the completed ones. -/
theorem complete (h : Running fileSize blkSize accepted s) (file : Buffer) {request : Request}
    (hmem : request ∈ s.inFlight) (res res2 : ℕ) :
    Running fileSize blkSize accepted (completeStep file s request res res2) := by
  have haccount : outstanding (completeStep file s request res res2) = outstanding s := by
    have hsplit : s.inFlight.map Request.slot =
        request.slot ::ₘ (s.inFlight.erase request).map Request.slot := by
      rw [← Multiset.map_cons, Multiset.cons_erase hmem]
    unfold outstanding completeStep
    simp only
    simp only [hsplit, Multiset.map_cons, Multiset.add_cons, Multiset.cons_add]
  refine { h with
    prepared := ⟨h.prepared.offset, h.prepared.iocbs, h.prepared.submitted⟩
    account := ?_
    requests := ?_ }
  · rw [haccount]
    exact h.account
  · intro request' hmem'
    exact h.requests request' (Multiset.mem_of_mem_erase hmem')

/-- A poll moves slots from the completed requests to the batch. -/
theorem getevents (h : Running fileSize blkSize accepted s) (hpc : s.pc = .getevents)
    {events : List IoEvent} (hle : (events : Multiset IoEvent) ≤ s.completed) :
    Running fileSize blkSize accepted (geteventsStep s events) := by
  have hevents := h.idle (Or.inr (Or.inl hpc))
  have haccount : outstanding (geteventsStep s events) = outstanding s := by
    have hsplit : s.completed.map IoEvent.obj =
        (s.completed - events).map IoEvent.obj + (events.map IoEvent.obj : List ℕ) := by
      rw [← Multiset.map_coe, ← Multiset.map_add, Multiset.sub_add_cancel hle]
    unfold outstanding geteventsStep
    simp only
    rw [hsplit, hevents, List.map_nil, Multiset.coe_nil, add_zero, add_assoc]
  refine { h with
    prepared := ⟨h.prepared.offset, h.prepared.iocbs, h.prepared.submitted⟩
    account := ?_
    submit := ?_
    idle := ?_
    finished := ?_ }
  · rw [haccount]
    exact h.account
  · unfold geteventsStep
    simp only
    split <;> nofun
  · intro hidle
    unfold geteventsStep at hidle ⊢
    simp only at hidle ⊢
    by_cases hnil : events = []
    · exact hnil
    · simp [hnil] at hidle
  · intro hleft
    unfold geteventsStep at hleft
    simp only at hleft
    split at hleft <;> cases hleft

end Running

/-- The end of the range of a block, as the loop computes it. -/
theorem wrap64_iocbOf {fileSize i : ℕ} (hg : AioGeometry fileSize blkSize)
    (hi : i < blockCount fileSize blkSize) :
    wrap64 ((iocbOf fileSize blkSize i).offset + (iocbOf fileSize blkSize i).nbytes) =
      blockStop fileSize blkSize i :=
  wrap64_blockStop hg.blkSize_pos hi hg.length_lt

/-- A valid event: its block is processed, and both counters go down by one. -/
theorem Running.reap_event {fileSize : ℕ} (h : Running fileSize blkSize accepted s)
    (hg : AioGeometry fileSize blkSize) (hpc : s.pc = .reap) {event : IoEvent}
    {rest : List IoEvent} (hevents : s.events = event :: rest)
    (hevent : validateEvent s.iocbs event = .ok ()) :
    Running fileSize blkSize accepted (reapStep blkSize s) := by
  have hmem : event.obj ∈ outstanding s := by
    rw [outstanding, hevents]
    exact Multiset.mem_add.mpr (Or.inr List.mem_cons_self)
  obtain ⟨hobj, hiocb⟩ := h.iocb_eq hmem
  have hindex : event.obj * blkSize / blkSize = event.obj :=
    Nat.mul_div_cancel _ hg.blkSize_pos
  have hpos := h.processed_lt (by rw [hevents]; exact List.cons_ne_nil _ _)
  have hbusy := h.busy
  have hchunks := h.chunks
  have hfive := hg.chunks_le
  rw [reapStep_ok hevents hevent, hiocb, wrap64_iocbOf hg hobj]
  refine { h with
    prepared := ⟨h.prepared.offset, h.prepared.iocbs, h.prepared.submitted⟩
    account := ?_
    processed := ?_
    busy := ?_
    chunks := ?_
    edges := (Shared.length_chunkEdges_processChunk _ _ _ _ _).trans h.edges
    submit := ?_
    idle := ?_
    finished := ?_ }
  · rw [← h.account]
    simp only [outstanding, processedSlots, iocbOf, hevents, List.map_append, List.map_cons,
      List.map_nil, hindex, ← Multiset.cons_coe, ← Multiset.coe_add,
      Multiset.coe_nil, Multiset.add_cons, Multiset.cons_add, add_zero]
  · intro r hr
    rcases List.mem_append.mp hr with hold | hnew
    · exact h.processed r hold
    · rw [List.mem_singleton.mp hnew]
      simp only [iocbOf, hindex, and_self]
  · change sub64 s.busy 1 + (s.processed ++ [_]).length = _
    rw [sub64_of_le (by omega) (by omega), List.length_append, List.length_singleton]
    omega
  · change sub64 s.chunks 1 + (s.processed ++ [_]).length = _
    rw [sub64_of_le (by omega) (by omega), List.length_append, List.length_singleton]
    omega
  · simp [hpc]
  · simp [hpc]
  · simp [hpc]

/-- The next event of a batch, or its end. -/
theorem Running.reap {fileSize : ℕ} (h : Running fileSize blkSize accepted s)
    (hg : AioGeometry fileSize blkSize) (hpc : s.pc = .reap) :
    Running fileSize blkSize accepted (reapStep blkSize s) := by
  cases hevents : s.events with
  | nil =>
      rw [reapStep_nil hevents]
      exact h.advance nofun (fun _ => hevents) nofun
  | cons event rest =>
      cases hevent : validateEvent s.iocbs event with
      | error message =>
          rw [reapStep_error hevents hevent]
          exact h.advance nofun (by simp) nofun
      | ok _ => exact h.reap_event hg hpc hevents hevent

/-! ### The first round -/

theorem submitting_of_start {fileSize : ℕ} (hg : AioGeometry fileSize blkSize) :
    Submitting fileSize blkSize (headStep fileSize blkSize (aioStart fileSize blkSize)) := by
  obtain ⟨iocbs, hiocbs, hstep⟩ := headStep_start hg
  have hlength := hg.length_lt
  have hblk := hg.blkSize_lt
  have hcount : howMany fileSize blkSize = blockCount fileSize blkSize :=
    howMany_eq hg.blkSize_pos (by omega)
  rw [hstep]
  exact
    { prepared := ⟨rfl, hiocbs, rfl⟩
      pc := Or.inl rfl
      n := rfl
      busy := rfl
      chunks := hcount
      inFlight := rfl
      completed := rfl
      events := rfl
      processed := rfl
      edges := List.length_replicate.trans hcount }

/-- `io_submit` puts the accepted slots in flight. -/
theorem Submitting.submit {fileSize : ℕ} (h : Submitting fileSize blkSize s)
    (hg : AioGeometry fileSize blkSize) (hle : accepted ≤ s.n) :
    Running fileSize blkSize accepted (submitStep s accepted) := by
  have hfive := hg.chunks_le
  have hle : accepted ≤ blockCount fileSize blkSize := h.n ▸ hle
  refine
    { prepared := ⟨h.prepared.offset, h.prepared.iocbs, h.prepared.submitted⟩
      accepted_le := hle
      account := ?_
      requests := ?_
      processed := ?_
      busy := ?_
      chunks := ?_
      edges := h.edges
      submit := nofun
      idle := fun _ => h.events
      finished := nofun }
  · simp only [outstanding, processedSlots, submitStep, h.inFlight, h.completed, h.events,
      h.processed, Multiset.map_zero, List.map_nil, Multiset.coe_nil, zero_add, add_zero,
      Multiset.map_coe, List.map_map]
    exact congrArg _ (List.map_id _)
  · intro request hmem
    simp only [submitStep, h.inFlight, zero_add, Multiset.mem_coe, List.mem_map,
      List.mem_range] at hmem
    obtain ⟨i, hi, rfl⟩ := hmem
    exact h.prepared.iocbs i (Nat.lt_of_lt_of_le hi hle)
  · intro r hr
    have hr : r ∈ s.processed := hr
    rw [h.processed] at hr
    exact absurd hr (by simp)
  · change wrap64 (s.busy + s.n) + s.processed.length = _
    rw [h.busy, h.n, h.processed, wrap64_of_lt (by omega), List.length_nil, Nat.add_zero,
      Nat.zero_add]
  · change s.chunks + s.processed.length = _
    rw [h.chunks, h.processed, List.length_nil, Nat.add_zero]

/-! ### Every run -/

/-- Every step of the program and of the kernel keeps the invariant. -/
theorem aioInv_step (hg : AioGeometry file.length blkSize) {label : Label}
    (h : AioInv file.length blkSize s) (hstep : Step file blkSize s label t) :
    AioInv file.length blkSize t := by
  cases h with
  | start hstart =>
      subst hstart
      cases hstep with
      | head hpc => exact .submitting (submitting_of_start hg)
      | submit hpc => cases hpc
      | submitFailed hpc => cases hpc
      | complete hmem => exact absurd hmem (Multiset.notMem_zero _)
      | getevents hpc => cases hpc
      | geteventsFailed hpc => cases hpc
      | reap hpc => cases hpc
  | submitting h =>
      have hpc := h.pc
      cases hstep with
      | head hpc' => simp [hpc'] at hpc
      | submit hpc' hle => exact .running _ (h.submit hg hle)
      | submitFailed =>
          exact .submitting { h with
            prepared := ⟨h.prepared.offset, h.prepared.iocbs, h.prepared.submitted⟩
            pc := Or.inr ⟨_, rfl⟩ }
      | complete hmem =>
          rw [h.inFlight] at hmem
          exact absurd hmem (Multiset.notMem_zero _)
      | getevents hpc' => simp [hpc'] at hpc
      | geteventsFailed hpc' => simp [hpc'] at hpc
      | reap hpc' => simp [hpc'] at hpc
  | running accepted h =>
      cases hstep with
      | head hpc => exact .running accepted (h.head hg hpc)
      | submit hpc => exact absurd hpc h.submit
      | submitFailed hpc => exact absurd hpc h.submit
      | complete hmem => exact .running accepted (h.complete file hmem _ _)
      | getevents hpc _ hle => exact .running accepted (h.getevents hpc hle)
      | geteventsFailed hpc => exact .running accepted (h.advance nofun (by simp) nofun)
      | reap hpc => exact .running accepted (h.reap hg hpc)

theorem aioInv_run (hg : AioGeometry file.length blkSize) {labels : List Label}
    (h : Run (Step file blkSize) (aioStart file.length blkSize) labels s) :
    AioInv file.length blkSize s :=
  h.preserves (fun _ _ _ hinv hstep => aioInv_step hg hinv hstep) (.start rfl)

/-! ### What the invariant says -/

theorem Prepared.contiguous {fileSize : ℕ} (h : Prepared fileSize blkSize s)
    (hg : AioGeometry fileSize blkSize) : Contiguous fileSize s.submitted := by
  rw [h.submitted]
  exact contiguous_blockRanges hg.blkSize_pos

/-- When the loop is left normally, every block has been processed. -/
theorem Running.partitions {fileSize : ℕ} (h : Running fileSize blkSize accepted s)
    (hg : AioGeometry fileSize blkSize) (hpc : s.pc = .left) :
    Partitions fileSize s.processed := by
  have hchunks := h.chunks
  rw [h.finished hpc, Nat.zero_add] at hchunks
  have hperm : (processedSlots blkSize s).Perm (List.range (blockCount fileSize blkSize)) := by
    apply List.Subperm.perm_of_length_le
    · exact List.subperm_of_subset h.processedSlots_nodup fun i hi =>
        List.mem_range.mpr (h.processedSlots_lt hi)
    · rw [List.length_range, processedSlots, List.length_map, hchunks]
  have hranges : s.processed = (processedSlots blkSize s).map fun i =>
      (i * blkSize, blockStop fileSize blkSize i) := by
    rw [processedSlots, List.map_map]
    refine (List.map_id _).symm.trans (List.map_congr_left fun r hr => ?_)
    obtain ⟨hstart, hstop⟩ := h.processed r hr
    exact Prod.ext hstart hstop
  rw [hranges]
  exact partitions_of_perm hg.blkSize_pos hperm

/-- For every file of 4 to 2^32 + 1 bytes and every behaviour of the kernel, in every reachable state of
    the loop: an event is reaped only while `busy` and `chunks` are positive; a slot is prepared only
    when no request in it is outstanding; no block is processed twice; the processed blocks have distinct
    indices below the number of edge entries; and the submitted ranges are contiguous, disjoint and
    inside the buffer. When the loop is left normally, the processed ranges partition the file. -/
theorem aio_processes_every_block_once (file : Buffer) (h4 : 4 ≤ file.length)
    (hn : file.length ≤ 2 ^ 32 + 1) :
    ∃ s₀, aioInit file.length = .ok s₀ ∧ ∀ labels s,
      Run (Step file (aioBlockSize file.length)) s₀ labels s →
        (s.pc = .reap → s.events ≠ [] → 0 < s.busy ∧ 0 < s.chunks) ∧
        (s.pc = .head → 0 < s.chunks → ∀ i,
          i < roundRequests file.length (aioBlockSize file.length) s → i ∉ outstanding s) ∧
        s.processed.Nodup ∧
        (processedSlots (aioBlockSize file.length) s).Nodup ∧
        (∀ i ∈ processedSlots (aioBlockSize file.length) s, i < s.shared.chunkEdges.length) ∧
        Contiguous file.length s.submitted ∧
        (s.pc = .left → Partitions file.length s.processed) := by
  have hg := aioGeometry h4 hn
  refine ⟨_, aioInit_of_pos hg.blkSize_pos, ?_⟩
  intro labels s hrun
  cases aioInv_run hg hrun with
  | start hstart =>
      subst hstart
      refine ⟨nofun, fun _ _ i _ => Multiset.notMem_zero i, List.nodup_nil, List.nodup_nil,
        nofun, ⟨nofun, nofun, nofun, List.Pairwise.nil⟩, nofun⟩
  | submitting h =>
      have hpc := h.pc
      refine ⟨?_, ?_, ?_, ?_, ?_, h.prepared.contiguous hg, ?_⟩
      · intro _ hevents
        exact absurd h.events hevents
      · intro hhead
        simp [hhead] at hpc
      · rw [h.processed]
        exact List.nodup_nil
      · rw [processedSlots, h.processed]
        exact List.nodup_nil
      · rw [processedSlots, h.processed]
        exact nofun
      · intro hleft
        simp [hleft] at hpc
  | running accepted h =>
      refine ⟨?_, ?_, h.processedSlots_nodup.of_map, h.processedSlots_nodup, ?_,
        h.prepared.contiguous hg, h.partitions hg⟩
      · intro _ hevents
        have hlt := h.processed_lt hevents
        have hbusy := h.busy
        have hchunks := h.chunks
        exact ⟨by omega, by omega⟩
      · intro _ _ i hi
        rw [roundRequests_prepared hg h.prepared] at hi
        exact absurd hi (Nat.not_lt_zero i)
      · intro i hi
        rw [h.edges]
        exact h.processedSlots_lt hi

/-- The file `ab c` is read in four blocks of one byte. -/
theorem aioBlockSize_ab_c : aioBlockSize ([0x61, 0x62, 0x20, 0x63] : Buffer).length = 1 := by decide

theorem aioInit_ab_c : aioInit ([0x61, 0x62, 0x20, 0x63] : Buffer).length = .ok (aioStart 4 1) := by
  rw [aioInit_of_pos (aioBlockSize_ab_c ▸ Nat.one_pos), aioBlockSize_ab_c]
  rfl

/-- These blocks, completed and polled out of order in two batches; the run is cut in the
    middle of the first batch. -/
theorem exists_aio_run :
    ∃ t s, Run (ReliableStep [0x61, 0x62, 0x20, 0x63] 1) (aioStart 4 1)
        [.head, .submit 4, .complete ⟨0, 0, 1⟩ 1 0, .complete ⟨2, 2, 1⟩ 1 0, .complete ⟨1, 1, 1⟩ 1 0,
          .getevents [⟨2, 1, 0⟩, ⟨0, 1, 0⟩], .reap] t ∧
      Run (ReliableStep [0x61, 0x62, 0x20, 0x63] 1) t
        [.reap, .reap, .complete ⟨3, 3, 1⟩ 1 0, .getevents [⟨3, 1, 0⟩, ⟨1, 1, 0⟩], .reap, .reap, .reap,
          .getevents [], .head] s ∧
      t.pc = .reap ∧ t.events ≠ [] ∧ t.chunks = 3 ∧ s.pc = .left ∧ processedSlots 1 s = [2, 0, 3, 1] :=
  ⟨_, _, .cons ⟨.head rfl, trivial⟩ <| .cons ⟨.submit rfl (by decide +kernel), rfl⟩ <|
      .cons ⟨.complete (by decide +kernel), rfl, rfl⟩ <|
      .cons ⟨.complete (by decide +kernel), rfl, rfl⟩ <|
      .cons ⟨.complete (by decide +kernel), rfl, rfl⟩ <|
      .cons ⟨.getevents rfl (by decide +kernel) (by decide +kernel), trivial⟩ <|
      .cons ⟨.reap rfl, trivial⟩ <| .nil _,
    .cons ⟨.reap rfl, trivial⟩ <| .cons ⟨.reap rfl, trivial⟩ <|
      .cons ⟨.complete (by decide +kernel), rfl, rfl⟩ <|
      .cons ⟨.getevents rfl (by decide +kernel) (by decide +kernel), trivial⟩ <|
      .cons ⟨.reap rfl, trivial⟩ <| .cons ⟨.reap rfl, trivial⟩ <| .cons ⟨.reap rfl, trivial⟩ <|
      .cons ⟨.getevents rfl (by decide +kernel) (by decide +kernel), trivial⟩ <|
      .cons ⟨.head rfl, trivial⟩ <| .nil _,
    rfl, nofun, by decide +kernel, rfl, by decide +kernel⟩

/-- That run processes the third block first. It reaps with positive counters, and when it has left the
    loop, every byte of the file is in exactly one processed block. -/
theorem aio_processes_every_block_once_four_bytes :
    ∃ (labels labels' : List Label) (t s : AioState),
      Run (Step [0x61, 0x62, 0x20, 0x63] 1) (aioStart 4 1) labels t ∧
      Run (Step [0x61, 0x62, 0x20, 0x63] 1) t labels' s ∧
      t.pc = .reap ∧ 0 < t.busy ∧ 0 < t.chunks ∧ s.pc = .left ∧
      s.processed.Nodup ∧ processedSlots 1 s = [2, 0, 3, 1] ∧
      (∀ i ∈ processedSlots 1 s, i < s.shared.chunkEdges.length) ∧
      Contiguous 4 s.submitted ∧ Partitions 4 s.processed := by
  obtain ⟨s₀, hinit, hruns⟩ := aio_processes_every_block_once [0x61, 0x62, 0x20, 0x63] (by decide)
    (by decide)
  cases Except.ok.inj (hinit.symm.trans aioInit_ab_c)
  rw [aioBlockSize_ab_c] at hruns
  obtain ⟨t, s, hbefore, hafter, hreap, hevents, -, hleft, hslots⟩ := exists_aio_run
  have hbefore := hbefore.mono fun _ _ _ h => h.1
  have hafter := hafter.mono fun _ _ _ h => h.1
  obtain ⟨hbusy, hchunks⟩ := (hruns _ t hbefore).1 hreap hevents
  obtain ⟨-, -, hnodup, -, hedges, hcontiguous, hpartition⟩ := hruns _ s (hbefore.append hafter)
  exact ⟨_, _, t, s, hbefore, hafter, hreap, hbusy, hchunks, hleft, hnodup, hslots, hedges,
    hcontiguous, hpartition hleft⟩

end FreqUtility
