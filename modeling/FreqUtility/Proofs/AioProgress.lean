/-
Module: FreqUtility.Proofs.AioProgress
Layer: Proofs
Purpose: When the AIO loop can still be left, against a kernel that accepts every request and completes each
  one successfully. After the first round `n` is the number of its requests until the outer loop is
  entered again, and zero from then on; so a run stays `Live` until a poll returns nothing while a chunk
  is missing, and from that poll on it is `Stuck`: every later poll asks for at most zero events.
Imports: FreqUtility.Proofs.AioInvariant
Trusted boundary: none (fully proved)
Main exports: Polling, Live, Live.step, Live.can_leave, Stuck, Stuck.step, aio_loop_can_be_left_iff
Open obligations: none
-/
import FreqUtility.Proofs.AioInvariant

namespace FreqUtility

open Blocks Transition

variable {file : Buffer} {fileSize blkSize accepted : ℕ} {s t : AioState}

/-- The event reports that its whole block was read. -/
def Complete (fileSize blkSize : ℕ) (event : IoEvent) : Prop :=
  event.res2 = 0 ∧ event.res = (iocbOf fileSize blkSize event.obj).nbytes

/-- In the inner loop of the first round: all blocks are accounted for and none has failed. -/
structure Polling (fileSize blkSize : ℕ) (s : AioState) : Prop where
  running : Running fileSize blkSize (blockCount fileSize blkSize) s
  n : s.n = blockCount fileSize blkSize
  pc : s.pc = .getevents ∨ s.pc = .reap
  completed : ∀ event ∈ s.completed, Complete fileSize blkSize event
  events : ∀ event ∈ s.events, Complete fileSize blkSize event

/-- The states from which the loop can be left. -/
inductive Live (fileSize blkSize : ℕ) (s : AioState) : Prop where
  | start : s = aioStart fileSize blkSize → Live fileSize blkSize s
  | submitting : Submitting fileSize blkSize s → s.pc = .submit → Live fileSize blkSize s
  | polling : Polling fileSize blkSize s → Live fileSize blkSize s
  | finished : s.chunks = 0 → s.pc = .head ∨ s.pc = .left → Live fileSize blkSize s

/-- Back at the outer loop with a chunk missing, or polling for zero events. -/
structure Stuck (fileSize blkSize : ℕ) (s : AioState) : Prop where
  running : ∃ accepted, Running fileSize blkSize accepted s
  chunks : 0 < s.chunks
  pc : s.pc = .head ∨ (s.pc = .getevents ∧ s.n = 0)

/-! ### Steps of the inner loop -/

/-- No event of the inner loop fails the validation. -/
theorem Polling.validateEvent_eq {event : IoEvent} {rest : List IoEvent}
    (h : Polling fileSize blkSize s) (hevents : s.events = event :: rest) :
    validateEvent s.iocbs event = .ok () := by
  have hmem : event.obj ∈ outstanding s := by
    rw [outstanding, hevents]
    exact Multiset.mem_add.mpr (Or.inr List.mem_cons_self)
  obtain ⟨-, hiocb⟩ := h.running.iocb_eq hmem
  obtain ⟨hres2, hres⟩ := h.events event (by rw [hevents]; exact List.mem_cons_self)
  rw [validateEvent, if_neg (not_not_intro hres2), if_neg]
  rw [hiocb]
  exact not_not_intro hres

theorem Polling.reap (h : Polling fileSize blkSize s) (hg : AioGeometry fileSize blkSize)
    (hpc : s.pc = .reap) : Polling fileSize blkSize (reapStep blkSize s) := by
  have hrunning := h.running.reap hg hpc
  cases hevents : s.events with
  | nil =>
      rw [reapStep_nil hevents] at hrunning ⊢
      exact ⟨hrunning, h.n, Or.inl rfl, h.completed, h.events⟩
  | cons event rest =>
      rw [reapStep_ok hevents (h.validateEvent_eq hevents)] at hrunning ⊢
      refine ⟨hrunning, h.n, Or.inr hpc, h.completed, ?_⟩
      intro event' hmem
      exact h.events event' (by rw [hevents]; exact List.mem_cons_of_mem _ hmem)

theorem Polling.complete (h : Polling fileSize blkSize s) (file : Buffer) {request : Request}
    (hmem : request ∈ s.inFlight) :
    Polling fileSize blkSize (completeStep file s request request.iocb.nbytes 0) := by
  refine ⟨h.running.complete file hmem _ _, h.n, h.pc, ?_, h.events⟩
  intro event hevent
  rcases Multiset.mem_cons.mp hevent with rfl | hold
  · exact ⟨rfl, congrArg Iocb.nbytes (h.running.requests request hmem)⟩
  · exact h.completed event hold

/-- A poll that returns something stays in the inner loop. -/
theorem Polling.getevents (h : Polling fileSize blkSize s) (hpc : s.pc = .getevents)
    {events : List IoEvent} (hle : (events : Multiset IoEvent) ≤ s.completed) (hne : events ≠ []) :
    Polling fileSize blkSize (geteventsStep s events) := by
  refine ⟨h.running.getevents hpc hle, h.n, Or.inr (if_neg hne), ?_, ?_⟩
  · intro event hmem
    exact h.completed event (Multiset.mem_of_le (Multiset.sub_le_self _ _) hmem)
  · intro event hmem
    exact h.completed event (Multiset.mem_of_le hle (Multiset.mem_coe.mpr hmem))

/-- A round that the kernel accepts as a whole leads into the inner loop. -/
theorem Submitting.submit_all (h : Submitting fileSize blkSize s)
    (hg : AioGeometry fileSize blkSize) :
    Polling fileSize blkSize (submitStep s (blockCount fileSize blkSize)) := by
  refine ⟨h.submit hg (Nat.le_of_eq h.n.symm), h.n, Or.inl rfl, ?_, ?_⟩
  · intro event hmem
    have hmem : event ∈ s.completed := hmem
    rw [h.completed] at hmem
    exact absurd hmem (Multiset.notMem_zero _)
  · intro event hmem
    have hmem : event ∈ s.events := hmem
    rw [h.events] at hmem
    exact absurd hmem List.not_mem_nil

/-! ### Live states stay live until a poll comes back empty too early -/

theorem Live.step (hg : AioGeometry file.length blkSize) {label : Label}
    (h : Live file.length blkSize s) (hstep : ReliableStep file blkSize s label t)
    (hpoll : label = .getevents [] → s.chunks = 0) : Live file.length blkSize t := by
  obtain ⟨hstep, hreliable⟩ := hstep
  cases h with
  | start hstart =>
      subst hstart
      cases hstep with
      | head hpc =>
          refine .submitting (submitting_of_start hg) ?_
          obtain ⟨_, -, heq⟩ := headStep_start hg
          rw [heq]
      | submit hpc => cases hpc
      | submitFailed hpc => cases hpc
      | complete hmem => exact absurd hmem (Multiset.notMem_zero _)
      | getevents hpc => cases hpc
      | geteventsFailed hpc => cases hpc
      | reap hpc => cases hpc
  | submitting h hpc =>
      cases hstep with
      | head hpc' => simp [hpc'] at hpc
      | submit =>
          have hall : _ = blockCount file.length blkSize := hreliable.trans h.n
          rw [hall]
          exact .polling (h.submit_all hg)
      | submitFailed => exact absurd hreliable id
      | complete hmem =>
          rw [h.inFlight] at hmem
          exact absurd hmem (Multiset.notMem_zero _)
      | getevents hpc' => simp [hpc'] at hpc
      | geteventsFailed => exact absurd hreliable id
      | reap hpc' => simp [hpc'] at hpc
  | polling h =>
      have hpc := h.pc
      cases hstep with
      | head hpc' => simp [hpc'] at hpc
      | submit hpc' => simp [hpc'] at hpc
      | submitFailed => exact absurd hreliable id
      | complete hmem =>
          obtain ⟨rfl, rfl⟩ := hreliable
          exact .polling (h.complete file hmem)
      | @getevents events hpc' _ hle =>
          by_cases hnil : events = []
          · subst hnil
            exact .finished (hpoll rfl) (Or.inl rfl)
          · exact .polling (h.getevents hpc' hle hnil)
      | geteventsFailed => exact absurd hreliable id
      | reap hpc' => exact .polling (h.reap hg hpc')
  | finished hchunks hpc =>
      cases hstep with
      | head =>
          rw [headStep, if_neg (by omega)]
          exact .finished hchunks (Or.inr rfl)
      | submit hpc' => simp [hpc'] at hpc
      | submitFailed => exact absurd hreliable id
      | complete => exact .finished hchunks hpc
      | getevents hpc' => simp [hpc'] at hpc
      | geteventsFailed => exact absurd hreliable id
      | reap hpc' => simp [hpc'] at hpc

/-! ### From a live state the loop can be left -/

/-- Leaving a batch is one more step. -/
def batchCost : Pc → ℕ
  | .reap => 1
  | _ => 0

/-- What is left to do in the inner loop. -/
def remaining (s : AioState) : ℕ :=
  4 * Multiset.card s.inFlight + 3 * Multiset.card s.completed + s.events.length + batchCost s.pc

/-- A request in flight can complete. -/
theorem Polling.reduce_complete (h : Polling file.length blkSize s) (hflight : s.inFlight ≠ 0) :
    ∃ t, Leads (ReliableStep file blkSize) s t ∧ Polling file.length blkSize t ∧
      remaining t < remaining s := by
  obtain ⟨request, hmem⟩ := Multiset.exists_mem_of_ne_zero hflight
  have hlead : Leads (ReliableStep file blkSize) s
      (completeStep file s request request.iocb.nbytes 0) :=
    Leads.single ⟨Step.complete hmem, rfl, rfl⟩
  refine ⟨_, hlead, h.complete file hmem, ?_⟩
  have hcard := Multiset.card_erase_add_one hmem
  simp only [remaining, completeStep, Multiset.card_cons]
  omega

/-- All completed requests fit into one poll. -/
theorem Polling.reduce_poll (h : Polling file.length blkSize s) (hpc : s.pc = .getevents)
    (hcompleted : s.completed ≠ 0) :
    ∃ t, Leads (ReliableStep file blkSize) s t ∧ Polling file.length blkSize t ∧
      remaining t < remaining s := by
  have hevents := h.running.idle (Or.inr (Or.inl hpc))
  have hne : s.completed.toList ≠ [] := mt Multiset.toList_eq_nil.mp hcompleted
  have hle : (s.completed.toList : Multiset IoEvent) ≤ s.completed :=
    Multiset.coe_toList _ |>.le
  have hlength : s.completed.toList.length ≤ s.n := by
    have hcard := h.running.card_eq
    rw [outstanding, Multiset.card_add, Multiset.card_add, Multiset.card_map,
      Multiset.card_map] at hcard
    rw [h.n, Multiset.length_toList]
    omega
  have hlead : Leads (ReliableStep file blkSize) s (geteventsStep s s.completed.toList) :=
    Leads.single ⟨Step.getevents hpc hlength hle, trivial⟩
  refine ⟨_, hlead, h.getevents hpc hle hne, ?_⟩
  have hpos := Multiset.card_pos.mpr hcompleted
  have hcard : Multiset.card (s.completed - (s.completed.toList : Multiset IoEvent)) = 0 := by
    rw [Multiset.coe_toList, tsub_self, Multiset.card_zero]
  simp only [remaining, geteventsStep, hevents, hpc, hcard, if_neg hne, batchCost,
    Multiset.length_toList, List.length_nil]
  omega

/-- The next event of a batch, or its end. -/
theorem Polling.reduce_reap (h : Polling file.length blkSize s)
    (hg : AioGeometry file.length blkSize) (hpc : s.pc = .reap) :
    ∃ t, Leads (ReliableStep file blkSize) s t ∧ Polling file.length blkSize t ∧
      remaining t < remaining s := by
  have hlead : Leads (ReliableStep file blkSize) s (reapStep blkSize s) :=
    Leads.single ⟨Step.reap hpc, trivial⟩
  refine ⟨_, hlead, h.reap hg hpc, ?_⟩
  cases hevents : s.events with
  | nil =>
      rw [reapStep_nil hevents]
      simp [remaining, batchCost, hpc]
  | cons event rest =>
      rw [reapStep_ok hevents (h.validateEvent_eq hevents)]
      simp [remaining, batchCost, hpc, hevents]

/-- As long as something is left, some step reduces it. -/
theorem Polling.reduce (hg : AioGeometry file.length blkSize)
    (h : Polling file.length blkSize s) (hne : remaining s ≠ 0) :
    ∃ t, Leads (ReliableStep file blkSize) s t ∧ Polling file.length blkSize t ∧
      remaining t < remaining s := by
  by_cases hflight : s.inFlight = 0
  · rcases h.pc with hpc | hpc
    · apply h.reduce_poll hpc
      intro hzero
      have hevents := h.running.idle (Or.inr (Or.inl hpc))
      simp [remaining, batchCost, hflight, hzero, hevents, hpc] at hne
    · exact h.reduce_reap hg hpc
  · exact h.reduce_complete hflight

/-- With nothing left, every block was processed. -/
theorem Polling.done (h : Polling fileSize blkSize s) (hzero : remaining s = 0) :
    s.pc = .getevents ∧ s.chunks = 0 := by
  have hpc : s.pc ≠ .reap := by
    intro hpc
    simp [remaining, batchCost, hpc] at hzero
  unfold remaining at hzero
  have hcard := h.running.card_eq
  rw [outstanding, Multiset.card_add, Multiset.card_add, Multiset.card_map, Multiset.card_map,
    Multiset.coe_card, List.length_map] at hcard
  have hchunks := h.running.chunks
  exact ⟨h.pc.resolve_right hpc, by omega⟩

theorem leave_of_finished (hchunks : s.chunks = 0) (hpc : s.pc = .head) :
    ∃ v, Leads (ReliableStep file blkSize) s v ∧ v.pc = .left ∧ v.chunks = 0 := by
  have hlead : Leads (ReliableStep file blkSize) s (headStep file.length blkSize s) :=
    Leads.single ⟨Step.head hpc, trivial⟩
  rw [headStep, if_neg (by omega)] at hlead
  exact ⟨_, hlead, rfl, hchunks⟩

/-- From the inner loop: complete and reap everything, then poll once more and leave. -/
theorem Polling.can_leave (hg : AioGeometry file.length blkSize)
    (h : Polling file.length blkSize s) :
    ∃ v, Leads (ReliableStep file blkSize) s v ∧ v.pc = .left ∧ v.chunks = 0 := by
  obtain ⟨u, hlead, hu, hzero⟩ := Leads.of_measure remaining
    (fun s h hne => Polling.reduce hg h hne) h
  obtain ⟨hpc, hchunks⟩ := hu.done hzero
  have hpoll : Leads (ReliableStep file blkSize) u (geteventsStep u []) :=
    Leads.single ⟨Step.getevents hpc (Nat.zero_le _) (Multiset.zero_le _), trivial⟩
  have hchunks : (geteventsStep u []).chunks = 0 := hchunks
  obtain ⟨v, hleave, hv⟩ := leave_of_finished hchunks rfl
  exact ⟨v, (hlead.trans hpoll).trans hleave, hv⟩

theorem Submitting.can_leave (hg : AioGeometry file.length blkSize)
    (h : Submitting file.length blkSize s) (hpc : s.pc = .submit) :
    ∃ v, Leads (ReliableStep file blkSize) s v ∧ v.pc = .left ∧ v.chunks = 0 := by
  have hlead : Leads (ReliableStep file blkSize) s
      (submitStep s (blockCount file.length blkSize)) :=
    Leads.single ⟨Step.submit hpc (Nat.le_of_eq h.n.symm), h.n.symm⟩
  obtain ⟨v, hleave, hv⟩ := (h.submit_all hg).can_leave hg
  exact ⟨v, hlead.trans hleave, hv⟩

theorem Live.can_leave (hg : AioGeometry file.length blkSize) (h : Live file.length blkSize s) :
    ∃ v, Leads (ReliableStep file blkSize) s v ∧ v.pc = .left ∧ v.chunks = 0 := by
  cases h with
  | start hstart =>
      subst hstart
      have hlead : Leads (ReliableStep file blkSize) (aioStart file.length blkSize)
          (headStep file.length blkSize (aioStart file.length blkSize)) :=
        Leads.single ⟨Step.head rfl, trivial⟩
      have hpc : (headStep file.length blkSize (aioStart file.length blkSize)).pc = .submit := by
        obtain ⟨_, -, heq⟩ := headStep_start hg
        rw [heq]
      obtain ⟨v, hleave, hv⟩ := (submitting_of_start hg).can_leave hg hpc
      exact ⟨v, hlead.trans hleave, hv⟩
  | submitting h hpc => exact h.can_leave hg hpc
  | polling h => exact h.can_leave hg
  | finished hchunks hpc =>
      rcases hpc with hpc | hpc
      · exact leave_of_finished hchunks hpc
      · exact ⟨s, Leads.refl s, hpc, hchunks⟩

/-! ### Stuck states stay stuck -/

theorem Stuck.step (hg : AioGeometry file.length blkSize) {label : Label}
    (h : Stuck file.length blkSize s) (hstep : ReliableStep file blkSize s label t) :
    Stuck file.length blkSize t := by
  obtain ⟨hstep, hreliable⟩ := hstep
  obtain ⟨accepted, hrunning⟩ := h.running
  have hpc := h.pc
  cases hstep with
  | head hpc' =>
      have hnext := hrunning.head hg hpc'
      have heq : headStep file.length blkSize s = { s with n := 0, pc := .getevents } := by
        rw [headStep, if_pos h.chunks]
        simp only [roundRequests_prepared hg hrunning.prepared, Nat.lt_irrefl, if_false]
      rw [heq] at hnext ⊢
      exact ⟨⟨accepted, hnext⟩, h.chunks, Or.inr ⟨rfl, rfl⟩⟩
  | submit hpc' => exact absurd hpc' hrunning.submit
  | submitFailed => exact absurd hreliable id
  | complete hmem => exact ⟨⟨accepted, hrunning.complete file hmem _ _⟩, h.chunks, hpc⟩
  | @getevents events hpc' hle hsub =>
      -- The poll asks for zero events.
      have hn : s.n = 0 := by
        rcases hpc with hhead | ⟨-, hn⟩
        · rw [hhead] at hpc'
          cases hpc'
        · exact hn
      have hnil : events = [] := List.eq_nil_of_length_eq_zero (by omega)
      subst hnil
      exact ⟨⟨accepted, hrunning.getevents hpc' hsub⟩, h.chunks, Or.inl rfl⟩
  | geteventsFailed => exact absurd hreliable id
  | reap hpc' => simp [hpc'] at hpc

/-- A stuck loop is never left. -/
theorem Stuck.not_left (hg : AioGeometry file.length blkSize) (h : Stuck file.length blkSize s)
    (hlead : Leads (ReliableStep file blkSize) s t) : t.pc ≠ .left := by
  have ht := hlead.preserves (fun _ _ _ h hstep => Stuck.step hg h hstep) h
  rcases ht.pc with hpc | ⟨hpc, -⟩
  · rw [hpc]
    nofun
  · rw [hpc]
    nofun

/-- Coming back to the outer loop with a chunk missing makes the loop stuck. -/
theorem stuck_of_empty_poll (hinv : AioInv file.length blkSize s)
    (hstep : Step file blkSize s (.getevents []) t) (hchunks : 0 < s.chunks) :
    Stuck file.length blkSize t := by
  cases hstep with
  | getevents hpc _ hle =>
      cases hinv with
      | start hstart =>
          subst hstart
          cases hpc
      | submitting h =>
          have hpc' := h.pc
          simp [hpc] at hpc'
      | running accepted h => exact ⟨⟨accepted, h.getevents hpc hle⟩, hchunks, Or.inl rfl⟩

/-- For every file of 4 to 2^32 + 1 bytes and every run of the loop against a kernel that accepts every
    request and completes each one successfully: from every state of the run with chunks missing the
    loop can still reach `chunks = 0` and be left, exactly when no poll of the run returned zero events
    while a chunk was missing. -/
theorem aio_loop_can_be_left_iff (file : Buffer) (h4 : 4 ≤ file.length)
    (hn : file.length ≤ 2 ^ 32 + 1) :
    ∃ s₀, aioInit file.length = .ok s₀ ∧ ∀ labels s,
      Run (ReliableStep file (aioBlockSize file.length)) s₀ labels s →
        ((∀ u, Visits (ReliableStep file (aioBlockSize file.length)) s₀ labels s u →
            0 < u.chunks →
            ∃ v, Leads (ReliableStep file (aioBlockSize file.length)) u v ∧
              v.pc = .left ∧ v.chunks = 0) ↔
          ∀ u, Takes (ReliableStep file (aioBlockSize file.length)) s₀ labels s u
            (.getevents []) → u.chunks = 0) := by
  have hg := aioGeometry h4 hn
  refine ⟨_, aioInit_of_pos hg.blkSize_pos, ?_⟩
  intro labels s hrun
  constructor
  · intro hleave u htakes
    by_contra hne
    have hchunks : 0 < u.chunks := Nat.pos_of_ne_zero hne
    obtain ⟨w, hstep, hvisits⟩ := htakes.visits_next
    obtain ⟨k, k', -, hbefore, -⟩ := htakes
    have hinv := aioInv_run hg (hbefore.mono fun _ _ _ h => h.1)
    have hstuck := stuck_of_empty_poll hinv hstep.1 hchunks
    obtain ⟨v, hlead, hpc, -⟩ := hleave w hvisits hstuck.chunks
    exact hstuck.not_left hg hlead hpc
  · rintro hpoll u ⟨k, k', rfl, hbefore, hafter⟩ -
    have hlive : Live file.length (aioBlockSize file.length) u := by
      refine hbefore.preserves_taken ?_ (.start rfl)
      intro v a w htakes hv hstep
      exact hv.step hg hstep fun ha => hpoll v (ha ▸ htakes.append hafter)
    exact hlive.can_leave hg

/-- The run of `ab c` that has reaped one block: its poll returned events, and the loop can be left. -/
theorem aio_loop_can_be_left_four_bytes :
    ∃ (labels : List Label) (u v : AioState),
      Run (ReliableStep [0x61, 0x62, 0x20, 0x63] 1) (aioStart 4 1) labels u ∧ .reap ∈ labels ∧
      u.chunks = 3 ∧ Leads (ReliableStep [0x61, 0x62, 0x20, 0x63] 1) u v ∧
      v.pc = .left ∧ v.chunks = 0 := by
  obtain ⟨s₀, hinit, hruns⟩ := aio_loop_can_be_left_iff [0x61, 0x62, 0x20, 0x63] (by decide)
    (by decide)
  cases Except.ok.inj (hinit.symm.trans aioInit_ab_c)
  rw [aioBlockSize_ab_c] at hruns
  obtain ⟨u, s, hrun, -, -, -, hchunks, -⟩ := exists_aio_run
  have hpolls : ∀ w, Takes (ReliableStep [0x61, 0x62, 0x20, 0x63] 1) (aioStart 4 1)
      [.head, .submit 4, .complete ⟨0, 0, 1⟩ 1 0, .complete ⟨2, 2, 1⟩ 1 0, .complete ⟨1, 1, 1⟩ 1 0,
        .getevents [⟨2, 1, 0⟩, ⟨0, 1, 0⟩], .reap] u w (.getevents []) → w.chunks = 0 := by
    -- The only poll of the run returned two events.
    rintro w ⟨k, k', hlabels, -, -⟩
    have hmem : Label.getevents [] ∈ k ++ .getevents [] :: k' := by simp
    rw [← hlabels] at hmem
    exact absurd hmem (by decide)
  have hvisits : Visits _ _ _ u u := ⟨_, [], (List.append_nil _).symm, hrun, Run.nil u⟩
  obtain ⟨v, hlead, hleft, hzero⟩ := (hruns _ u hrun).mpr hpolls u hvisits (hchunks ▸ Nat.succ_pos 2)
  exact ⟨_, u, v, hrun, by decide, hchunks, hlead, hleft, hzero⟩

/-- A file of four bytes: all four requests are submitted, the first poll returns no event, and from
    then on the loop is never left. -/
theorem aio_loop_gets_stuck :
    ¬ ∀ labels u, Run (ReliableStep [0x61, 0x62, 0x20, 0x63] (aioBlockSize 4))
        (aioStart 4 (aioBlockSize 4)) labels u → 0 < u.chunks →
      ∃ v, Leads (ReliableStep [0x61, 0x62, 0x20, 0x63] (aioBlockSize 4)) u v ∧
        v.pc = .left ∧ v.chunks = 0 := by
  intro hleave
  have hg : AioGeometry ([0x61, 0x62, 0x20, 0x63] : Buffer).length (aioBlockSize 4) :=
    aioGeometry (by decide) (by decide)
  have hhead : ReliableStep [0x61, 0x62, 0x20, 0x63] (aioBlockSize 4) (aioStart 4 (aioBlockSize 4))
      .head (headStep 4 (aioBlockSize 4) (aioStart 4 (aioBlockSize 4))) :=
    ⟨Step.head rfl, trivial⟩
  have hsubmit : ReliableStep [0x61, 0x62, 0x20, 0x63] (aioBlockSize 4) _ (.submit 4)
      (submitStep (headStep 4 (aioBlockSize 4) (aioStart 4 (aioBlockSize 4))) 4) :=
    ⟨Step.submit (by decide) (by decide), by change (4 : ℕ) = _; decide⟩
  have hpoll : ReliableStep [0x61, 0x62, 0x20, 0x63] (aioBlockSize 4) _ (.getevents [])
      (geteventsStep (submitStep
        (headStep 4 (aioBlockSize 4) (aioStart 4 (aioBlockSize 4))) 4) []) :=
    ⟨Step.getevents rfl (Nat.zero_le _) (Multiset.zero_le _), trivial⟩
  have hbefore := (Run.single hhead).snoc hsubmit
  have hstuck := stuck_of_empty_poll (aioInv_run hg (hbefore.mono fun _ _ _ h => h.1)) hpoll.1
    (by decide)
  obtain ⟨v, hlead, hpc, -⟩ := hleave _ _ (hbefore.snoc hpoll) hstuck.chunks
  exact hstuck.not_left hg hlead hpc

end FreqUtility
