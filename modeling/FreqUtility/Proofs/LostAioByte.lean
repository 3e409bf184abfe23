/-
Module: FreqUtility.Proofs.LostAioByte
Layer: Proofs
Purpose: The condition on the steps of `process_file_aio` is needed. Any byte of the file can arrive while
  `std::transform`, called for the event of another block, holds the zero that was there before. The zero
  is stored, and from then on the loop is in a state that it also reaches on the file with a zero in this
  place.
Imports: FreqUtility.Proofs.AioBytes, FreqUtility.Proofs.AioProgress
Trusted boundary: none (fully proved)
Main exports: LeadsBoth, AioTrap, exists_aioTrap, AioTrap.lose, BlockDelivered.leadsBoth,
  exists_losing_aio_run, aio_may_lose_any_byte
Open obligations: none
-/
import FreqUtility.Proofs.AioBytes
import FreqUtility.Proofs.AioProgress

namespace FreqUtility

open Blocks Transition

variable {mixedHash : Word → UInt64} {file : Buffer} {blkSize accepted p : ℕ}

/-! ### Steps on both files -/

/-- A request that does not reach `p` delivers the same bytes of both files. -/
theorem completeStep_set {request : Request} (s : AioState)
    (hout : p < request.iocb.offset ∨ request.iocb.offset + request.iocb.nbytes ≤ p) (res res2 : ℕ) :
    completeStep (file.set p 0) s request res res2 = completeStep file s request res res2 := by
  have hbytes : ((file.set p 0).drop request.iocb.offset).take (min res request.iocb.nbytes) =
      (file.drop request.iocb.offset).take (min res request.iocb.nbytes) := by
    rcases hout with hlow | hhigh
    · rw [List.drop_set_of_lt hlow]
    · rw [List.drop_set, if_neg (by omega), List.take_set_of_le (by omega)]
  rw [completeStep, hbytes, completeStep]

theorem Step.mem_inFlight {s t : AioState} {request : Request} {res res2 : ℕ}
    (h : Step file blkSize s (.complete request res res2) t) : request ∈ s.inFlight := by
  cases h with
  | complete hmem => exact hmem

/-- Apart from completions, the steps depend on the length of the file only. -/
theorem Step.set {s t : AioState} {label : Label} (h : Step file blkSize s label t)
    (hsame : ∀ request res res2, label = .complete request res res2 →
      completeStep (file.set p 0) s request res res2 = completeStep file s request res res2) :
    Step (file.set p 0) blkSize s label t := by
  cases h with
  | head hpc =>
      have hstep : Step (file.set p 0) blkSize s .head _ := .head hpc
      rwa [List.length_set] at hstep
  | submit hpc hle => exact .submit hpc hle
  | submitFailed hpc hret => exact .submitFailed hpc hret
  | complete hmem =>
      rw [← hsame _ _ _ rfl]
      exact .complete hmem
  | getevents hpc hlength hle => exact .getevents hpc hlength hle
  | geteventsFailed hpc hret => exact .geteventsFailed hpc hret
  | reap hpc => exact .reap hpc

theorem AioTableStep.set {s t : AioTableState} {label : Label}
    (h : AioTableStep mixedHash file blkSize s label t)
    (hsame : ∀ request res res2, label = .complete request res res2 →
      completeStep (file.set p 0) s.loop request res res2 = completeStep file s.loop request res res2) :
    AioTableStep mixedHash (file.set p 0) blkSize s label t := by
  cases h with
  | reap hstep => exact .reap (hstep.set hsame)
  | other hother hstep => exact .other hother (hstep.set hsame)

theorem StillStep.set {s t : AioByteState} {label : AioByteLabel}
    (h : StillStep mixedHash file blkSize s label t) :
    StillStep mixedHash (file.set p 0) blkSize s label t := by
  obtain ⟨hstep, hlabel⟩ := h
  refine ⟨?_, hlabel⟩
  cases hstep with
  | loop hreap htable =>
      refine .loop hreap (htable.set ?_)
      rintro request res res2 rfl
      exact absurd rfl (hlabel request res res2)
  | enter hpc hreap hvalid => exact .enter hpc hreap hvalid
  | load hpc hplace => exact .load hpc hplace
  | store hpc => exact .store hpc
  | count hpc hplace hvalid => exact .count hpc hplace hvalid

/-- A run on the file, and one on the file with a zero at `p` in which nothing is lost. -/
def LeadsBoth (mixedHash : Word → UInt64) (file : Buffer) (blkSize p : ℕ) (s t : AioByteState) : Prop :=
  Leads (AioByteStep mixedHash file blkSize) s t ∧
    Leads (LosslessStep mixedHash (file.set p 0) blkSize) s t

theorem LeadsBoth.trans {s t u : AioByteState} (h : LeadsBoth mixedHash file blkSize p s t)
    (hnext : LeadsBoth mixedHash file blkSize p t u) : LeadsBoth mixedHash file blkSize p s u :=
  ⟨h.1.trans hnext.1, h.2.trans hnext.2⟩

theorem leadsBoth_of_still {s t : AioByteState} (h : Leads (StillStep mixedHash file blkSize) s t) :
    LeadsBoth mixedHash file blkSize p s t :=
  ⟨h.mono fun _ _ _ hstep => hstep.1, h.mono fun _ _ _ hstep => hstep.set.lossless⟩

theorem leadsBoth_of_tableStep {s t : AioTableState} {label : Label}
    (h : AioTableStep mixedHash file blkSize s label t)
    (hsame : ∀ request res res2, label = .complete request res res2 →
      completeStep (file.set p 0) s.loop request res res2 = completeStep file s.loop request res res2) :
    LeadsBoth mixedHash file blkSize p ⟨s, .idle⟩ ⟨t, .idle⟩ :=
  ⟨(leads_step h).mono fun _ _ _ hstep => hstep.1, leads_step (h.set hsame)⟩

/-- What has been counted is that of the file with a zero at `p`. -/
theorem LeadsBoth.counted {s : AioByteState} (hg : AioGeometry file.length blkSize)
    (h : LeadsBoth mixedHash file blkSize p (aioByteStart mixedHash file.length blkSize) s) :
    AioByteCounted mixedHash (file.set p 0) blkSize s := by
  obtain ⟨-, labels, hrun⟩ := h
  have hlength : (file.set p 0).length = file.length := List.length_set
  rw [← hlength] at hg hrun
  exact AioByteCounted.run hg hrun

/-- A request for another block does not reach `p`. -/
theorem Running.out {s : AioState} (h : Running file.length blkSize accepted s)
    (hg : AioGeometry file.length blkSize) {request : Request} (hmem : request ∈ s.inFlight)
    (hslot : request.slot ≠ p / blkSize) :
    p < request.iocb.offset ∨ request.iocb.offset + request.iocb.nbytes ≤ p := by
  by_contra hin
  push Not at hin
  apply hslot
  have hhigh : p < request.iocb.offset + min request.iocb.nbytes request.iocb.nbytes := by
    rw [Nat.min_self]
    exact hin.2
  exact (h.mem_slot hg hmem hin.1 hhigh).2.symm

/-! ### Towards the byte -/

theorem Polling.setData {fileSize : ℕ} {s : AioTableState} (h : Polling fileSize blkSize s.loop)
    (data : Buffer) : Polling fileSize blkSize (s.setData data).loop :=
  ⟨h.running.setData data, h.n, h.pc, h.completed, h.events⟩

theorem Polling.validEvent_eq {fileSize : ℕ} {s : AioState} (h : Polling fileSize blkSize s)
    {event : IoEvent} {rest : List IoEvent} (hevents : s.events = event :: rest) :
    validEvent s = some event := by
  have hevent := h.validateEvent_eq hevents
  unfold validEvent
  simp only [hevents, hevent]

/-- A block is about to be counted whose event is not that of `p`, and the request for `p` is in flight. -/
structure AioTrap (file : Buffer) (blkSize p : ℕ) (event : IoEvent) (request : Request) (s : AioTableState) :
    Prop where
  polling : Polling file.length blkSize s.loop
  pc : s.loop.pc = .reap
  valid : validEvent s.loop = some event
  mem : request ∈ s.loop.inFlight
  slot : request.slot = p / blkSize
  zero : byteAt s.loop.shared.data p = 0

theorem mem_submitStep (s : AioState) {k : ℕ} (hk : k < accepted) :
    (⟨k, s.iocbs k⟩ : Request) ∈ (submitStep s accepted).inFlight := by
  unfold submitStep
  refine Multiset.mem_add.mpr (Or.inr (Multiset.mem_coe.mpr (List.mem_map.mpr ?_)))
  exact ⟨k, List.mem_range.mpr hk, rfl⟩

/-- All requests are in flight and the buffer is zero. -/
theorem exists_submitted (mixedHash : Word → UInt64) (hg : AioGeometry file.length blkSize) (p : ℕ) :
    ∃ s : AioTableState,
      LeadsBoth mixedHash file blkSize p (aioByteStart mixedHash file.length blkSize) ⟨s, .idle⟩ ∧
      Polling file.length blkSize s.loop ∧ s.loop.pc = .getevents ∧
      s.loop.shared.data = List.replicate file.length 0 ∧
      ∀ k, k < blockCount file.length blkSize → ∃ request ∈ s.loop.inFlight, request.slot = k := by
  have hsubmitting := submitting_of_start hg
  obtain ⟨iocbs, -, hhead⟩ := headStep_start hg
  obtain ⟨s, hs⟩ : ∃ s, headStep file.length blkSize (aioStart file.length blkSize) = s := ⟨_, rfl⟩
  have hfirst : AioTableStep mixedHash file blkSize (aioTableStart mixedHash file.length blkSize) .head
      ⟨s, (aioTableStart mixedHash file.length blkSize).frequency⟩ := by
    rw [← hs]
    exact .other Label.noConfusion (.head rfl)
  rw [hs] at hsubmitting hhead
  have hpc : s.pc = .submit := by rw [hhead]
  have hdata : s.shared.data = List.replicate file.length 0 := by
    rw [hhead]
    rfl
  have hsecond : AioTableStep mixedHash file blkSize
      ⟨s, (aioTableStart mixedHash file.length blkSize).frequency⟩
      (.submit (blockCount file.length blkSize)) _ :=
    .other Label.noConfusion (.submit hpc (Nat.le_of_eq hsubmitting.n.symm))
  exact ⟨_, (leadsBoth_of_tableStep hfirst nofun).trans (leadsBoth_of_tableStep hsecond nofun),
    hsubmitting.submit_all hg, rfl, hdata, fun k hk => ⟨_, mem_submitStep s hk, rfl⟩⟩

/-- The first or the second block completes, and its event is returned. -/
theorem exists_aioTrap (mixedHash : Word → UInt64) (hg : AioGeometry file.length blkSize)
    (htwo : 2 ≤ blockCount file.length blkSize) (hp : p < file.length) :
    ∃ (s : AioTableState) (event : IoEvent) (request : Request),
      LeadsBoth mixedHash file blkSize p (aioByteStart mixedHash file.length blkSize) ⟨s, .idle⟩ ∧
      AioTrap file blkSize p event request s := by
  obtain ⟨s, hlead, hpolling, hpc, hdata, hflight⟩ := exists_submitted mixedHash hg p
  obtain ⟨k, hk, hne⟩ : ∃ k, k < blockCount file.length blkSize ∧ k ≠ p / blkSize := by
    by_cases hfirst : p / blkSize = 0
    · exact ⟨1, htwo, by omega⟩
    · exact ⟨0, by omega, Ne.symm hfirst⟩
  obtain ⟨other, hother, rfl⟩ := hflight k hk
  obtain ⟨request, hmem, hslot⟩ := hflight (p / blkSize) (div_lt_blockCount hg.blkSize_pos hp)
  have hrunning := hpolling.running
  have hcomplete : AioTableStep mixedHash file blkSize s (.complete other other.iocb.nbytes 0) _ :=
    .other Label.noConfusion (.complete hother)
  have hpolling' := hpolling.complete file hother
  have hdiff : request ≠ other := by
    rintro rfl
    exact hne hslot
  let event : IoEvent := ⟨other.slot, other.iocb.nbytes, 0⟩
  have hmember : (([event] : List IoEvent) : Multiset IoEvent) ≤
      (completeStep file s.loop other other.iocb.nbytes 0).completed :=
    Multiset.singleton_le.mpr (Multiset.mem_cons_self event s.loop.completed)
  have hpoll : AioTableStep mixedHash file blkSize
      ⟨completeStep file s.loop other other.iocb.nbytes 0, s.frequency⟩
      (.getevents [event]) _ :=
    .other Label.noConfusion (.getevents hpc (by rw [hpolling'.n]; exact Nat.one_le_of_lt htwo) hmember)
  have hreaping := hpolling'.getevents hpc hmember (List.cons_ne_nil _ _)
  have hsame : ∀ request res res2, Label.complete other other.iocb.nbytes 0 = .complete request res res2 →
      completeStep (file.set p 0) s.loop request res res2 = completeStep file s.loop request res res2 := by
    rintro _ _ _ ⟨⟩
    exact completeStep_set _ (hrunning.out hg hother hne) _ _
  have hlength : s.loop.shared.data.length = file.length := by rw [hdata, List.length_replicate]
  refine ⟨_, event, request,
    hlead.trans ((leadsBoth_of_tableStep hcomplete hsame).trans (leadsBoth_of_tableStep hpoll nofun)), ?_⟩
  exact
    { polling := hreaping
      pc := rfl
      valid := hreaping.validEvent_eq rfl
      mem := (Multiset.mem_erase_of_ne hdiff).mpr hmem
      slot := hslot
      zero := by
        change byteAt (completeStep file s.loop other other.iocb.nbytes 0).shared.data p = 0
        rw [hrunning.byteAt_complete hg hother hlength, if_neg, hdata, byteAt_replicate_zero]
        rintro ⟨hlow, hhigh⟩
        exact hne (hrunning.mem_slot hg hother hlow hhigh).2.symm }

/-! ### The store of the old byte -/

/-- A request completes successfully. -/
def AioTableState.complete (file : Buffer) (s : AioTableState) (request : Request) : AioTableState :=
  { s with loop := completeStep file s.loop request request.iocb.nbytes 0 }

theorem AioTableState.setData_complete (file file' : Buffer) (s : AioTableState) (request : Request)
    (data : Buffer) : (s.complete file request).setData data = (s.complete file' request).setData data := by
  obtain ⟨⟨pc, offset, busy, chunks, n, iocbs, inFlight, completed, events, shared, submitted, processed⟩,
    frequency⟩ := s
  rfl

theorem Running.length_complete {s : AioState} (h : Running file.length blkSize accepted s)
    (hg : AioGeometry file.length blkSize) {request : Request} (hmem : request ∈ s.inFlight)
    (hlength : s.shared.data.length = file.length) (res res2 : ℕ) :
    (completeStep file s request res res2).shared.data.length = file.length := by
  have hbound := h.delivered_le hg hmem res
  refine (length_store ?_).trans hlength
  rw [List.length_take, List.length_drop, hlength]
  omega

/-- Apart from `p` the same bytes of both files arrive. -/
theorem set_complete_set {s : AioTableState} (hrunning : Running file.length blkSize accepted s.loop)
    (hg : AioGeometry file.length blkSize) {request : Request} (hmem : request ∈ s.loop.inFlight)
    (hlength : s.loop.shared.data.length = file.length) (hp : p < file.length) (x : UInt8) :
    (s.complete (file.set p 0) request).loop.shared.data.set p x =
      (s.complete file request).loop.shared.data.set p x := by
  have hset : (file.set p 0).length = file.length := List.length_set
  have hsame : (s.complete file request).loop.shared.data.length = file.length :=
    hrunning.length_complete hg hmem hlength _ _
  have hbyte := hrunning.byteAt_complete hg hmem hlength request.iocb.nbytes 0
  rw [← hset] at hrunning hg hlength
  have hsame' : (s.complete (file.set p 0) request).loop.shared.data.length = file.length :=
    (hrunning.length_complete hg hmem hlength _ _).trans hset
  have hbyte' := hrunning.byteAt_complete hg hmem hlength request.iocb.nbytes 0
  apply ext_byteAt
  · rw [List.length_set, List.length_set, hsame, hsame']
  · intro q _
    rw [byteAt_set (hp.trans_eq hsame'.symm), byteAt_set (hp.trans_eq hsame.symm)]
    split
    · rfl
    · rename_i hq
      refine (hbyte' q).trans (Eq.trans ?_ (hbyte q).symm)
      rw [byteAt_set hp, if_neg hq]

/-- What a completion delivers at `p` is lost, if the zero is stored there. -/
theorem leadsBoth_lost (mixedHash : Word → UInt64) {s : AioTableState}
    (hrunning : Running file.length blkSize accepted s.loop)
    (hg : AioGeometry file.length blkSize) {request : Request} (hmem : request ∈ s.loop.inFlight)
    (hlength : s.loop.shared.data.length = file.length) (hp : p < file.length) :
    LeadsBoth mixedHash file blkSize p ⟨s, .holding p 0⟩
      ⟨(s.complete file request).setData ((s.complete file request).loop.shared.data.set p (toLower 0)),
        .lowering (p + 1)⟩ := by
  have harrive (file' : Buffer) : AioByteStep mixedHash file' blkSize ⟨s, .holding p 0⟩
      (.loop (.complete request request.iocb.nbytes 0)) ⟨s.complete file' request, .holding p 0⟩ :=
    .loop Label.noConfusion (.other Label.noConfusion (.complete hmem))
  have hstore (file' : Buffer) : AioByteStep mixedHash file' blkSize
      ⟨s.complete file' request, .holding p 0⟩ (.store p)
      ⟨(s.complete file' request).setData ((s.complete file' request).loop.shared.data.set p (toLower 0)),
        .lowering (p + 1)⟩ := .store rfl
  have hzero : LosslessStep mixedHash (file.set p 0) blkSize ⟨s, .holding p 0⟩
      (.loop (.complete request request.iocb.nbytes 0)) ⟨s.complete (file.set p 0) request, .holding p 0⟩ := by
    refine ⟨harrive (file.set p 0), ?_⟩
    rintro _ _ _ _ _ ⟨⟩ ⟨⟩ _ _
    rw [byteAt_set hp, if_pos rfl]
  have hlossless : Leads (LosslessStep mixedHash (file.set p 0) blkSize) ⟨s, .holding p 0⟩ _ :=
    (Leads.single hzero).trans
      (.single ⟨hstore (file.set p 0), fun _ _ _ _ _ => AioByteLabel.noConfusion⟩)
  -- The store hides the only byte in which the two buffers differ.
  rw [set_complete_set hrunning hg hmem hlength hp,
    AioTableState.setData_complete (file.set p 0) file] at hlossless
  exact ⟨(Leads.single (harrive file)).trans (.single (hstore file)), hlossless⟩

/-- Another request in flight is for another block. -/
theorem Running.slot_ne_of_mem_erase {fileSize : ℕ} {s : AioState} (h : Running fileSize blkSize accepted s)
    {request other : Request} (hmem : request ∈ s.inFlight) (hother : other ∈ s.inFlight.erase request) :
    other.slot ≠ request.slot := by
  have hnodup := (Multiset.nodup_add.mp h.nodup).1
  rw [outstanding, add_assoc] at hnodup
  have hslots := (Multiset.nodup_add.mp hnodup).1
  rw [← Multiset.cons_erase hmem, Multiset.map_cons, Multiset.nodup_cons] at hslots
  intro hsame
  apply hslots.1
  rw [← hsame]
  exact Multiset.mem_map_of_mem _ hother

namespace AioTrap

variable {event : IoEvent} {request : Request} {s : AioTableState}

/-- The transformation for the event walks up to `p` and holds the zero, the byte arrives, and the zero is
    stored. -/
theorem lose (h : AioTrap file blkSize p event request s) (hg : AioGeometry file.length blkSize)
    (hlength : s.loop.shared.data.length = file.length) (hp : p < file.length) :
    ∃ t : AioTableState, LeadsBoth mixedHash file blkSize p ⟨s, .idle⟩ ⟨t, .lowering (p + 1)⟩ ∧
      Polling file.length blkSize t.loop ∧ validEvent t.loop = some event ∧
      ∀ other ∈ t.loop.inFlight, other.slot ≠ p / blkSize := by
  let walked := s.setData (lowerPart s.loop.shared.data 0 p)
  have hwalked : walked.loop.shared.data.length = file.length := (length_lowerPart _ _ _).trans hlength
  have hzero : byteAt walked.loop.shared.data p = 0 := by
    change byteAt (lowerPart s.loop.shared.data 0 p) p = 0
    rw [byteAt_lowerPart, if_neg (by omega), h.zero]
  have henter : StillStep mixedHash file blkSize ⟨s, .idle⟩ .enter _ :=
    ⟨.enter rfl h.pc h.valid, fun _ _ _ => AioByteLabel.noConfusion⟩
  have hbound : 0 + p ≤ s.loop.shared.data.length := by omega
  have hlower := s.leads_lower mixedHash file blkSize p hbound
  rw [Nat.zero_add] at hlower
  have hload : StillStep mixedHash file blkSize ⟨walked, .lowering p⟩ (.load p) _ :=
    ⟨.load rfl (hp.trans_eq hwalked.symm), fun _ _ _ => AioByteLabel.noConfusion⟩
  rw [hzero] at hload
  have hheld := leadsBoth_of_still (p := p) (((Leads.single henter).trans hlower).trans (.single hload))
  have hpolling := h.polling.setData (lowerPart s.loop.shared.data 0 p)
  have hlost := leadsBoth_lost mixedHash hpolling.running hg h.mem hwalked hp
  refine ⟨_, hheld.trans hlost, (hpolling.complete file h.mem).setData _, h.valid, ?_⟩
  intro other hother
  rw [← h.slot]
  exact h.polling.running.slot_ne_of_mem_erase h.mem hother

end AioTrap

/-! ### After the byte is lost -/

/-- The block of `p` has been delivered. -/
structure BlockDelivered (fileSize blkSize p : ℕ) (s : AioState) : Prop where
  running : ∃ accepted, Running fileSize blkSize accepted s
  inFlight : ∀ request ∈ s.inFlight, request.slot ≠ p / blkSize

theorem BlockDelivered.step {s t : AioState} {label : Label} (h : BlockDelivered file.length blkSize p s)
    (hg : AioGeometry file.length blkSize) (hstep : Step file blkSize s label t) :
    BlockDelivered file.length blkSize p t := by
  obtain ⟨⟨accepted, hrunning⟩, hflight⟩ := h
  cases hstep with
  | head hpc =>
      -- All requests are prepared, so the outer loop submits nothing any more.
      refine ⟨⟨accepted, hrunning.head hg hpc⟩, ?_⟩
      have hsame : (headStep file.length blkSize s).inFlight = s.inFlight := by
        unfold headStep
        split
        · simp only [roundRequests_prepared hg hrunning.prepared, Nat.lt_irrefl, if_false]
        · rfl
      rw [hsame]
      exact hflight
  | submit hpc => exact absurd hpc hrunning.submit
  | submitFailed hpc => exact absurd hpc hrunning.submit
  | complete hmem =>
      exact ⟨⟨accepted, hrunning.complete file hmem _ _⟩,
        fun request hrequest => hflight request (Multiset.mem_of_mem_erase hrequest)⟩
  | getevents hpc _ hle => exact ⟨⟨accepted, hrunning.getevents hpc hle⟩, hflight⟩
  | geteventsFailed hpc => exact ⟨⟨accepted, hrunning.advance nofun (by simp) nofun⟩, hflight⟩
  | reap hpc =>
      refine ⟨⟨accepted, hrunning.reap hg hpc⟩, ?_⟩
      have hsame : (reapStep blkSize s).inFlight = s.inFlight := by
        unfold reapStep
        split
        · rfl
        · split
          · rfl
          · rfl
      rw [hsame]
      exact hflight

/-- From there on a run of the loop does not depend on the byte. -/
theorem BlockDelivered.leadsBoth {s t : AioTableState} {labels : List Label}
    (h : BlockDelivered file.length blkSize p s.loop) (hg : AioGeometry file.length blkSize)
    (hrun : Run (AioTableStep mixedHash file blkSize) s labels t) :
    LeadsBoth mixedHash file blkSize p ⟨s, .idle⟩ ⟨t, .idle⟩ := by
  induction hrun with
  | nil s => exact ⟨Leads.refl _, Leads.refl _⟩
  | @cons s t u label labels hfirst _ ih =>
      have hstep : Step file blkSize s.loop label t.loop := by
        cases hfirst with
        | reap hstep => exact hstep
        | other _ hstep => exact hstep
      refine (leadsBoth_of_tableStep hfirst ?_).trans (ih (h.step hg hstep))
      rintro request res res2 rfl
      obtain ⟨⟨accepted, hrunning⟩, hflight⟩ := h
      have hmem := hstep.mem_inFlight
      exact completeStep_set _ (hrunning.out hg hmem (hflight request hmem)) res res2

/-- An event that was processed byte by byte leaves the loop as one that was processed at once. -/
theorem AioByteCounted.polling {s : AioTableState} {place : ℕ} {event : IoEvent}
    (h : AioByteCounted mixedHash file blkSize ⟨s, .lowering place⟩) (hg : AioGeometry file.length blkSize)
    (hplace : ¬ place < s.loop.shared.data.length) (hpolling : Polling file.length blkSize s.loop)
    (hvalid : validEvent s.loop = some event) :
    Polling file.length blkSize (countEvent mixedHash blkSize s event).loop := by
  obtain ⟨hreap, hlowered⟩ := h.lowered rfl hplace hvalid
  obtain ⟨rest, hevents, -⟩ := exists_cons_of_validEvent hvalid
  obtain ⟨hk, hiocb⟩ := hpolling.running.iocb_eq (mem_outstanding_of_events hevents)
  rw [countEvent_of_lowered mixedHash hg hk hiocb h.counted.progress.length hlowered,
    ← reap_eq_countEvent mixedHash blkSize hvalid]
  exact (hpolling.reap hg hreap).setData _

theorem inFlight_countEvent (mixedHash : Word → UInt64) (blkSize : ℕ) (s : AioTableState) (event : IoEvent) :
    (countEvent mixedHash blkSize s event).loop.inFlight = s.loop.inFlight := by
  obtain ⟨⟨pc, offset, busy, chunks, n, iocbs, inFlight, completed, events, shared, submitted, processed⟩,
    frequency⟩ := s
  rw [countEvent]

/-- The rest of the buffer is lowered, and the event is counted. -/
theorem LeadsBoth.count {t : AioTableState} {event : IoEvent} (hg : AioGeometry file.length blkSize)
    (h : LeadsBoth mixedHash file blkSize p (aioByteStart mixedHash file.length blkSize)
      ⟨t, .lowering (p + 1)⟩) (hp : p < file.length) (hpolling : Polling file.length blkSize t.loop)
    (hvalid : validEvent t.loop = some event) :
    ∃ u : AioTableState, LeadsBoth mixedHash file blkSize p ⟨t, .lowering (p + 1)⟩ ⟨u, .idle⟩ ∧
      Polling file.length blkSize u.loop ∧ u.loop.inFlight = t.loop.inFlight := by
  have hset : (file.set p 0).length = file.length := List.length_set
  have hlength : t.loop.shared.data.length = file.length :=
    (h.counted hg).counted.progress.length.trans hset
  have hbound : p + 1 + (file.length - (p + 1)) ≤ t.loop.shared.data.length := by omega
  let lowered := t.setData (lowerPart t.loop.shared.data (p + 1) (file.length - (p + 1)))
  have hlower := t.leads_lower mixedHash file blkSize (file.length - (p + 1)) hbound
  rw [Nat.add_sub_cancel' hp] at hlower
  have hend : ¬ file.length < lowered.loop.shared.data.length := by
    change ¬ file.length < (lowerPart _ _ _).length
    rw [length_lowerPart, hlength]
    exact Nat.lt_irrefl _
  have hcount : StillStep mixedHash file blkSize ⟨lowered, .lowering file.length⟩ .count _ :=
    ⟨.count rfl hend hvalid, fun _ _ _ => AioByteLabel.noConfusion⟩
  have hcounted := (h.trans (leadsBoth_of_still hlower)).counted hg
  have hpolling' : Polling (file.set p 0).length blkSize lowered.loop := by
    rw [hset]
    exact hpolling.setData _
  refine ⟨_, leadsBoth_of_still (hlower.trans (.single hcount)), ?_, inFlight_countEvent _ _ _ _⟩
  rw [← hset] at hg
  have hafter := hcounted.polling hg hend hpolling' hvalid
  rwa [hset] at hafter

/-- The other blocks are read and counted, and the loop is left. -/
theorem Polling.leadsBoth_left {s : AioTableState} (mixedHash : Word → UInt64)
    (h : Polling file.length blkSize s.loop) (hg : AioGeometry file.length blkSize)
    (hflight : ∀ request ∈ s.loop.inFlight, request.slot ≠ p / blkSize) :
    ∃ t : AioTableState, LeadsBoth mixedHash file blkSize p ⟨s, .idle⟩ ⟨t, .idle⟩ ∧ t.loop.pc = .left := by
  obtain ⟨t, ⟨labels, hrun⟩, hleft, -⟩ := h.can_leave hg
  obtain ⟨frequency, htable⟩ := exists_tableRun mixedHash (hrun.mono fun _ _ _ hstep => hstep.1) s.frequency
  have hdelivered : BlockDelivered file.length blkSize p s.loop := ⟨⟨_, h.running⟩, hflight⟩
  exact ⟨⟨t, frequency⟩, hdelivered.leadsBoth hg htable, hleft⟩

/-- A run that leaves the loop as on the file with a zero at `p`. -/
theorem exists_losing_aio_run (mixedHash : Word → UInt64) (h4 : 4 ≤ file.length)
    (hn : file.length ≤ 2 ^ 32 + 1) (hp : p < file.length) :
    ∃ labels s, Run (AioByteStep mixedHash file (aioBlockSize file.length))
        (aioByteStart mixedHash file.length (aioBlockSize file.length)) labels s ∧
      s.table.loop.pc = .left ∧ AioByteCounted mixedHash (file.set p 0) (aioBlockSize file.length) s := by
  have hg := aioGeometry h4 hn
  have htwo : 1 < blockCount file.length (aioBlockSize file.length) := by
    have hsmall := (aioBlockSize_bounds h4 hn).1
    rw [lt_blockCount_iff hg.blkSize_pos]
    omega
  obtain ⟨s, event, request, hstart, htrap⟩ := exists_aioTrap mixedHash hg htwo hp
  have hlength := (hstart.counted hg).counted.progress.length.trans List.length_set
  obtain ⟨t, hlost, hpolling, hvalid, hflight⟩ := htrap.lose hg hlength hp
  have hreached := hstart.trans hlost
  obtain ⟨u, hcount, hpolling', hsame⟩ := hreached.count hg hp hpolling hvalid
  rw [← hsame] at hflight
  obtain ⟨v, hleave, hleft⟩ := hpolling'.leadsBoth_left mixedHash hg hflight
  have hend := (hreached.trans hcount).trans hleave
  obtain ⟨labels, hrun⟩ := hend.1
  exact ⟨labels, _, hrun, hleft, hend.counted hg⟩

/-- For every file of 4 to 2^32 + 1 bytes and every byte of it: some run of `process_file_aio` leaves the loop
    normally, with the buffer, the edges and the counts of the file in which that byte is zero. -/
theorem aio_may_lose_any_byte (mixedHash : Word → UInt64) (file : Buffer) (h4 : 4 ≤ file.length)
    (hn : file.length ≤ 2 ^ 32 + 1) (p : ℕ) (hp : p < file.length) :
    ∃ labels s, ∃ schedule : Schedule (blockCount (file.set p 0).length (aioBlockSize file.length)) 1,
      Run (AioByteStep mixedHash file (aioBlockSize file.length))
        (aioByteStart mixedHash file.length (aioBlockSize file.length)) labels s ∧
      s.table.loop.pc = .left ∧
      schedule.order.map Prod.fst = processedSlots (aioBlockSize file.length) s.table.loop ∧
      s.table.loop.shared.data = lower (file.set p 0) ∧
      s.table.loop.shared.chunkEdges = recordedEdges (file.set p 0) (aioBlockSize file.length) ∧
      finish s.table.loop.shared = chunkedCount (file.set p 0) (aioBlockSize file.length) schedule := by
  have hset : (file.set p 0).length = file.length := List.length_set
  have hg : AioGeometry (file.set p 0).length (aioBlockSize file.length) := by
    rw [hset]
    exact aioGeometry h4 hn
  obtain ⟨labels, s, hrun, hleft, hcounted⟩ := exists_losing_aio_run mixedHash h4 hn hp
  obtain ⟨schedule, hall⟩ := hcounted.counted.left hg hleft
  exact ⟨labels, s, schedule, hrun, hleft, hall⟩

/-- In `ab c` the letter `b` can be lost. -/
theorem aio_may_lose_any_byte_ab_c :
    ∃ labels, ∃ s : AioByteState,
      Run (AioByteStep (fun _ => 0) [0x61, 0x62, 0x20, 0x63] 1) (aioByteStart (fun _ => 0) 4 1) labels s ∧
        s.table.loop.pc = .left ∧ s.table.loop.shared.data = [0x61, 0, 0x20, 0x63] := by
  have hlost := aio_may_lose_any_byte (fun _ => 0) [0x61, 0x62, 0x20, 0x63] (by decide) (by decide) 1
    (by decide)
  rw [aioBlockSize_ab_c] at hlost
  obtain ⟨labels, s, -, hrun, hleft, -, hdata, -⟩ := hlost
  exact ⟨labels, s, hrun, hleft, hdata⟩

end FreqUtility
