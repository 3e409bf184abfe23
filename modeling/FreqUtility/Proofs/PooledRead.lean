/-
Module: FreqUtility.Proofs.PooledRead
Layer: Proofs
Purpose: The pool and the tasks together. `PooledProgress` says what every interleaving has done: the finished
  tasks, in the order in which the pool finished them, have the effect of a sequential run in that order,
  and the chunk of a thread that has read it stays loaded until the thread processes it, whatever the
  other threads read and lower meanwhile. A complete run therefore ends in the state of the sequential
  run, and its tables hold the map of chunked counting.
Imports: FreqUtility.Proofs.ThreadPool, FreqUtility.Proofs.TableCounting
Trusted boundary: none (fully proved)
Main exports: PooledProgress, PooledProgress.step, PooledProgress.run, interleaved_tasks_are_sequential,
  PooledProgress.exists_step
Open obligations: none
-/
import FreqUtility.Proofs.ThreadPool
import FreqUtility.Proofs.TableCounting

namespace FreqUtility

open Replace Transition Blocks UnorderedDense CountMaps

section pool

variable {threads chunks : ℕ} {s t : PoolState} {label : PoolLabel}

/-! ### Running threads -/

/-- Only the end of its task takes a thread out of it. -/
theorem PoolStep.mem_running (hstep : PoolStep threads chunks s label t)
    (hlabel : ∀ index, label ≠ .finish index) {index task : ℕ}
    (hw : ⟨index, .running task⟩ ∈ s.workers) : ⟨index, .running task⟩ ∈ t.workers := by
  -- A thread that moves was not running.
  have hmove {a b : Worker} {workers : List Worker} (hmove : Replaces a b s.workers workers)
      (ha : ∀ task, a.pc ≠ .running task) : (⟨index, .running task⟩ : Worker) ∈ workers :=
    (hmove.symm.mem_or hw).resolve_left fun heq => ha task (heq ▸ rfl)
  cases hstep with
  | create => exact List.mem_append_left _ hw
  | push =>
      unfold PoolState.push
      split
      · exact hw
      · exact hw
  | notifyAll => exact List.mem_map.mpr ⟨_, hw, rfl⟩
  | notifyOne _ hreplace => exact hmove hreplace fun _ => WorkerPc.noConfusion
  | sleep hreplace => exact hmove hreplace fun _ => WorkerPc.noConfusion
  | exit hreplace => exact hmove hreplace fun _ => WorkerPc.noConfusion
  | dequeue hreplace => exact hmove hreplace fun _ => WorkerPc.noConfusion
  | spurious hreplace => exact hmove hreplace fun _ => WorkerPc.noConfusion
  | finish => exact absurd rfl (hlabel _)
  | _ => exact hw

theorem PoolStep.finished_eq (hstep : PoolStep threads chunks s label t)
    (hlabel : ∀ index, label ≠ .finish index) : t.finished = s.finished := by
  cases hstep with
  | push =>
      unfold PoolState.push
      split
      · rfl
      · rfl
  | finish => exact absurd rfl (hlabel _)
  | _ => rfl

/-- A task that is being run is one of the enqueued ones and was not finished before. -/
theorem PoolInv.task_of_running (h : PoolInv threads chunks s) {index task : ℕ}
    (hw : ⟨index, .running task⟩ ∈ s.workers) :
    task < chunks ∧ task ∉ s.finished.map Prod.fst := by
  have hrunning : (task, index) ∈ s.running := List.mem_filterMap.mpr ⟨_, hw, rfl⟩
  have hperm := h.logged.started
  have hstarted : (task, index) ∈ s.started := hperm.symm.subset (List.mem_append_right _ hrunning)
  refine ⟨h.task_lt hstarted, ?_⟩
  intro hfinished
  have hnodup := ((hperm.map Prod.fst).nodup_iff).mp h.started_nodup
  rw [List.map_append] at hnodup
  exact List.disjoint_of_nodup_append hnodup hfinished (List.mem_map_of_mem hrunning)

/-- There is one thread of every index. -/
theorem Logged.eq_of_index (h : Logged s) {v w : Worker} (hv : v ∈ s.workers) (hw : w ∈ s.workers)
    (hindex : v.index = w.index) : v = w := by
  have hnodup : (s.workers.map Worker.index).Nodup := by
    rw [h.indices]
    exact List.nodup_range
  exact List.inj_on_of_nodup_map hnodup hv hw hindex

end pool

/-! ### Every interleaving -/

section

variable {threads c : ℕ} {file : Buffer} {mixedHash : Word → UInt64} {s t : PooledState threads}
  {label : PooledLabel}

/-- What has been done when the pool has finished the tasks `finished`, in this order. -/
structure PooledProgress (mixedHash : Word → UInt64) (file : Buffer) (c : ℕ)
    (finished : List (Task threads)) (s : PooledState threads) : Prop where
  pool : PoolInv threads (blockCount file.length c) s.pool
  order : finished.map (fun task => (task.1, task.2.val)) = s.pool.finished
  tables : TableProgress mixedHash file c finished s.tables
  loaded : ∀ index : Fin threads, s.loaded index = true →
    ∃ task, ⟨index.val, .running task⟩ ∈ s.pool.workers ∧
      Loaded file c task s.tables.read.shared.data

theorem pooledProgress_init (mixedHash : Word → UInt64) (file : Buffer) (c threads : ℕ) :
    PooledProgress mixedHash file c []
      (PooledState.init mixedHash threads file.length c (blockCount file.length c)) where
  pool := PoolInv.init threads _
  order := rfl
  tables := tableProgress_init mixedHash file c threads
  loaded := fun _ h => nomatch h

namespace PooledProgress

variable {finished : List (Task threads)}

theorem map_fst (h : PooledProgress mixedHash file c finished s) :
    finished.map Prod.fst = s.pool.finished.map Prod.fst := by
  rw [← h.order, List.map_map]
  rfl

/-- A running task can be processed, or its chunk read. -/
theorem task_of_running (h : PooledProgress mixedHash file c finished s) {index task : ℕ}
    (hw : ⟨index, .running task⟩ ∈ s.pool.workers) :
    task < blockCount file.length c ∧ task ∉ finished.map Prod.fst := by
  rw [h.map_fst]
  exact h.pool.task_of_running hw

/-- A thread reads its chunk. -/
theorem read (h : PooledProgress mixedHash file c finished s) (hc : 0 < c)
    (hn : file.length < 2 ^ 31) {index : Fin threads} {task : ℕ}
    (hw : ⟨index.val, .running task⟩ ∈ s.pool.workers) :
    PooledProgress mixedHash file c finished
      { s with
        tables := loadTask file c (blockCount file.length c) s.tables (task, index)
        loaded := Function.update s.loaded index true } := by
  obtain ⟨hk, hnew⟩ := h.task_of_running hw
  have hlength := h.tables.read.shared.length
  have hle : blockStop file.length c task ≤ file.length := blockStop_le
  have hbound : task * c + (blockStop file.length c task - task * c) ≤ file.length := by
    rw [Nat.add_sub_cancel' (Nat.le_of_lt (start_lt_blockStop hc hk))]
    exact hle
  obtain ⟨hdata, htables⟩ := h.tables.load (task, index) hc (hn.trans (by decide)) hk
    (chunkFits_of_lt hc hn hk) hnew
  refine ⟨h.pool, h.order, htables, ?_⟩
  intro i hi
  change Function.update s.loaded index true i = true at hi
  change ∃ _, _ ∧ Loaded _ _ _ (loadTask _ _ _ _ _).read.shared.data
  rw [hdata]
  by_cases hsame : i = index
  · subst hsame
    exact ⟨task, hw, loaded_store hc hk hlength⟩
  · rw [Function.update_of_ne hsame] at hi
    obtain ⟨task', hw', hloaded⟩ := h.loaded i hi
    exact ⟨task', hw', hloaded.storePart hbound hlength⟩

/-- A thread processes the chunk that it has read. -/
theorem process (h : PooledProgress mixedHash file c finished s) (hthreads : 1 ≤ threads) (hc : 0 < c)
    (hn : file.length < 2 ^ 31) {index : Fin threads} {task : ℕ} {workers : List Worker}
    (hreplace : Replaces ⟨index.val, .running task⟩ ⟨index.val, .checking⟩ s.pool.workers workers)
    (hread : s.loaded index = true) :
    PooledProgress mixedHash file c (finished ++ [(task, index)])
      { pool := { s.pool with
          workers := workers
          finished := s.pool.finished ++ [(task, index.val)] }
        tables := processTask mixedHash file c (blockCount file.length c) s.tables (task, index)
        loaded := Function.update s.loaded index false } := by
  have hw := hreplace.mem_left
  obtain ⟨hk, hnew⟩ := h.task_of_running hw
  -- The chunk that the thread has read is that of its task.
  obtain ⟨task', hw', hloaded⟩ := h.loaded index hread
  cases h.pool.logged.eq_of_index hw hw' rfl
  refine ⟨h.pool.step hthreads (.finish hreplace), ?_, ?_, ?_⟩
  · rw [List.map_append, h.order]
    rfl
  · exact h.tables.process (task, index) hc (hn.trans (by decide)) hk hnew hloaded
  · intro i hi
    change Function.update s.loaded index false i = true at hi
    by_cases hsame : i = index
    · subst hsame
      rw [Function.update_self] at hi
      cases hi
    · rw [Function.update_of_ne hsame] at hi
      obtain ⟨other, hother, hkept⟩ := h.loaded i hi
      have hne : (⟨i.val, .running other⟩ : Worker) ≠ ⟨index.val, .running task⟩ := by
        intro heq
        exact hsame (Fin.ext (congrArg Worker.index heq))
      refine ⟨other, (hreplace.symm.mem_or hother).resolve_left hne, ?_⟩
      rw [processTask, Shared.data_processChunk]
      exact hkept.lowered

/-- Every step extends the finished tasks by the task that it finishes, if any. -/
theorem step (h : PooledProgress mixedHash file c finished s) (hthreads : 1 ≤ threads) (hc : 0 < c)
    (hn : file.length < 2 ^ 31)
    (hstep : PooledStep mixedHash file c (blockCount file.length c) s label t) :
    ∃ finished', PooledProgress mixedHash file c finished' t := by
  cases hstep with
  | pool hlabel hstep =>
      refine ⟨finished, h.pool.step hthreads hstep, ?_, h.tables, ?_⟩
      · rw [h.order]
        exact (hstep.finished_eq hlabel).symm
      · intro index hread
        obtain ⟨task, hw, hloaded⟩ := h.loaded index hread
        exact ⟨task, hstep.mem_running hlabel hw, hloaded⟩
  | read index hw _ => exact ⟨finished, h.read hc hn hw⟩
  | process index hreplace hread => exact ⟨_, h.process hthreads hc hn hreplace hread⟩

theorem run {labels : List PooledLabel} (hthreads : 1 ≤ threads) (hc : 0 < c)
    (hn : file.length < 2 ^ 31)
    (hrun : Run (PooledStep mixedHash file c (blockCount file.length c))
      (PooledState.init mixedHash threads file.length c (blockCount file.length c)) labels s) :
    ∃ finished, PooledProgress mixedHash file c finished s := by
  apply hrun.preserves (p := fun s => ∃ finished, PooledProgress mixedHash file c finished s)
  · rintro s label t ⟨finished, h⟩ hstep
    exact h.step hthreads hc hn hstep
  · exact ⟨[], pooledProgress_init mixedHash file c threads⟩

/-- Once the destructor has joined the threads, the finished tasks are a schedule. -/
theorem exists_schedule (h : PooledProgress mixedHash file c finished s) (hthreads : 1 ≤ threads)
    (hjoined : s.pool.main = .joined) :
    ∃ schedule : Schedule (blockCount file.length c) threads, schedule.order = finished := by
  have hall := (h.pool.finished_perm hthreads hjoined).2
  rw [← h.map_fst] at hall
  exact ⟨⟨finished, hall⟩, rfl⟩

/-- Before that some thread can go on. -/
theorem exists_step (h : PooledProgress mixedHash file c finished s) (hjoined : s.pool.main ≠ .joined) :
    ∃ label t, (∀ index, label ≠ .pool (.spurious index)) ∧
      PooledStep mixedHash file c (blockCount file.length c) s label t := by
  obtain ⟨label, pool, hspurious, hstep⟩ := h.pool.enabled hjoined
  by_cases hfinish : ∀ index, label ≠ .finish index
  · refine ⟨_, _, ?_, .pool hfinish hstep⟩
    intro index heq
    exact hspurious index (PooledLabel.pool.inj heq)
  · push Not at hfinish
    obtain ⟨index, rfl⟩ := hfinish
    cases hstep with
    | finish hreplace =>
        have hlt : index < threads := (h.pool.logged.index_lt hreplace.mem_left).trans_le
          (MainPc.created_le h.pool.control.fits)
        cases hread : s.loaded ⟨index, hlt⟩ with
        | false => exact ⟨_, _, fun _ => PooledLabel.noConfusion, .read ⟨index, hlt⟩ hreplace.mem_left hread⟩
        | true => exact ⟨_, _, fun _ => PooledLabel.noConfusion, .process ⟨index, hlt⟩ hreplace hread⟩

end PooledProgress

end

/-- For every file below 2^31 bytes, every machine and every hash function, in every run of the pool in
    which the reads and the `process_chunk` calls of the threads interleave: until the destructor has
    joined the threads some step other than a spurious wake-up is possible; and after that the shared
    variables are those of the sequential run of the tasks in the order in which they were finished. -/
theorem interleaved_tasks_are_sequential (mixedHash : Word → UInt64) (config : FreqConfig)
    (file : Buffer) (hP : 1 ≤ config.diskPageSize) (hN : 1 ≤ config.processorCount)
    (hn : file.length < 2 ^ 31) :
    ∃ chunkSize chunks, planChunks config file.length = .ok (chunkSize, chunks) ∧
      ∀ labels s, Run (PooledStep mixedHash file chunkSize chunks)
          (PooledState.init mixedHash config.processorCount file.length chunkSize chunks) labels s →
        (s.pool.main ≠ .joined → ∃ label t, (∀ index, label ≠ .pool (.spurious index)) ∧
          PooledStep mixedHash file chunkSize chunks s label t) ∧
        (s.pool.main = .joined → ∃ order : List (Task config.processorCount),
          order.map (fun task => (task.1, task.2.val)) = s.pool.finished ∧
          (order.map Prod.fst).Perm (List.range chunks) ∧
          blockingRead config file order = .ok s.tables.read.shared) := by
  have hc := chunkSizeOf_pos hP file.length
  have hlt : file.length < 2 ^ 63 := hn.trans (by decide)
  refine ⟨_, _, planChunks_eq hP hN hlt, ?_⟩
  intro labels s hrun
  obtain ⟨finished, h⟩ := PooledProgress.run hN hc hn hrun
  refine ⟨h.exists_step, ?_⟩
  intro hjoined
  obtain ⟨schedule, rfl⟩ := h.exists_schedule hN hjoined
  obtain ⟨shared, hsequential, hprogress⟩ :=
    blockingRead_spec hP hN hlt (fun k hk => chunkFits_of_lt hc hn hk) schedule
  refine ⟨schedule.order, h.order, schedule.perm, ?_⟩
  rw [hsequential, hprogress.unique hc schedule.perm h.tables.read.shared]

/-- Two threads and the two chunks of `ab`: the second thread reads and finishes its chunk between the
    read and the end of the first one. -/
theorem exists_interleaved_run (mixedHash : Word → UInt64) :
    ∃ s, Run (PooledStep mixedHash [0x61, 0x62] 1 2) (PooledState.init mixedHash 2 2 1 2)
      [.pool .create, .pool .create, .pool .constructed, .pool .push, .pool .notifyNobody,
        .pool (.dequeue 0), .pool .push, .pool .notifyNobody, .pool (.dequeue 1), .read 0, .read 1,
        .process 1, .process 0, .pool .setStop, .pool .notifyAll, .pool (.exit 0), .pool (.exit 1),
        .pool .join, .pool .join, .pool .allJoined] s ∧
      s.pool.main = .joined ∧ s.pool.finished = [(1, 1), (0, 0)] := by
  have hboth : ∀ w ∈ [(⟨0, .checking⟩ : Worker), ⟨1, .checking⟩], w.pc ≠ .sleeping := by decide
  have hone : ∀ w ∈ [(⟨0, .running 0⟩ : Worker), ⟨1, .checking⟩], w.pc ≠ .sleeping := by decide
  exact ⟨_, .cons (.pool nofun (.create rfl (by decide))) <| .cons (.pool nofun (.create rfl (by decide))) <|
    .cons (.pool nofun (.constructed rfl (by decide))) <|
    .cons (.pool nofun (.push rfl (by decide))) <|
    .cons (.pool nofun (.notifyNobody rfl hboth)) <|
    .cons (.pool nofun (.dequeue (.head _) rfl rfl rfl)) <|
    .cons (.pool nofun (.push rfl (by decide))) <|
    .cons (.pool nofun (.notifyNobody rfl hone)) <|
    .cons (.pool nofun (.dequeue (.tail _ (.head _)) rfl rfl rfl)) <|
    .cons (.read 0 (.head _) rfl) <| .cons (.read 1 (.tail _ (.head _)) rfl) <|
    .cons (.process 1 (.tail _ (.head _)) rfl) <| .cons (.process 0 (.head _) rfl) <|
    .cons (.pool nofun (.setStop rfl (by decide))) <| .cons (.pool nofun (.notifyAll rfl)) <|
    .cons (.pool nofun (.exit (.head _) rfl rfl)) <|
    .cons (.pool nofun (.exit (.tail _ (.head _)) rfl rfl)) <|
    .cons (.pool nofun (.join rfl rfl rfl)) <| .cons (.pool nofun (.join rfl rfl rfl)) <|
    .cons (.pool nofun (.allJoined rfl rfl)) <| .nil _, rfl, rfl⟩

/-- That run ends in the state of the sequential run of the second chunk before the first. -/
theorem interleaved_tasks_are_sequential_ab :
    ∃ s : PooledState 2, ∃ order : List (Task 2),
      order.map (fun task => (task.1, task.2.val)) = [(1, 1), (0, 0)] ∧
        blockingRead ⟨2, 1, by decide, by decide⟩ [0x61, 0x62] order = .ok s.tables.read.shared := by
  obtain ⟨chunkSize, chunks, hplan, hruns⟩ := interleaved_tasks_are_sequential (fun _ => 0)
    ⟨2, 1, by decide, by decide⟩ [0x61, 0x62] (by decide) (by decide) (by decide)
  have hone : planChunks ⟨2, 1, by decide, by decide⟩ 2 = .ok (1, 2) := rfl
  cases Except.ok.inj (hplan.symm.trans hone)
  obtain ⟨s, hrun, hjoined, hfinished⟩ := exists_interleaved_run fun _ => 0
  obtain ⟨order, horder, -, hsequential⟩ := (hruns _ s hrun).2 hjoined
  exact ⟨s, order, horder.trans hfinished, hsequential⟩

end FreqUtility
