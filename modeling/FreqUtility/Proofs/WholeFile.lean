/-
Module: FreqUtility.Proofs.WholeFile
Layer: Proofs
Purpose: For which files `process_file_blocking_read` loads every byte. `seekg` and `read` take an `int`, so a
  task asks for fewer bytes than its chunk has once the position or the size does not fit (`requested`).
  An offset that no task asks for keeps the zero of the fresh buffer through every run (`Missed`). The
  whole file is loaded exactly when the last chunk starts below 2^31 and is shorter than 2^31 bytes.
Imports: FreqUtility.Proofs.Schedule
Trusted boundary: none (fully proved)
Main exports: requested, Missed, missed_run, chunkFits_iff, exists_missed, WholeFileLoaded,
  blockingRead_loads_whole_file_iff
Open obligations: none
-/
import FreqUtility.Proofs.Schedule

namespace FreqUtility

open Blocks

variable {workers : ℕ} {file : Buffer} {n c k p : ℕ}

/-! ### Chunks that fit into an `int` -/

/-- The last chunk decides whether every chunk fits. -/
theorem chunkFits_iff (hc : 0 < c) (hn : 1 ≤ n) :
    (∀ k, k < blockCount n c → ChunkFits n c k) ↔
      (n - 1) / c * c < 2 ^ 31 ∧ n - (n - 1) / c * c < 2 ^ 31 := by
  have hlast : (n - 1) / c < blockCount n c := div_lt_blockCount hc (by omega)
  have hcover : n ≤ ((n - 1) / c + 1) * c := by
    have := Nat.lt_div_mul_add (a := n - 1) hc
    rw [Nat.succ_mul]
    omega
  have hstop : blockStop n c ((n - 1) / c) = n := blockStop_last hc (blockCount_le hc hcover)
  constructor
  · intro hfits
    have hfit := hfits _ hlast
    rwa [ChunkFits, hstop] at hfit
  · rintro ⟨hstart, hsize⟩ k hk
    have hkstart := (lt_blockCount_iff hc).mp hk
    have hle : k ≤ (n - 1) / c := (Nat.le_div_iff_mul_le hc).mpr (by omega)
    have hstart' : k * c ≤ (n - 1) / c * c := Nat.mul_le_mul_right c hle
    refine ⟨by omega, ?_⟩
    rcases Nat.lt_or_eq_of_le hle with hlt | rfl
    · -- A chunk before the last one is full, and not longer than the last one's position.
      have hnext : (k + 1) * c ≤ (n - 1) / c * c := Nat.mul_le_mul_right c hlt
      have hfull : blockStop n c k ≤ k * c + c := blockStop_le_add
      rw [Nat.succ_mul] at hnext
      omega
    · rwa [hstop]

/-- How many bytes the task of chunk `k` asks its stream for; none when the seek fails. -/
def requested (n c k : ℕ) : ℕ :=
  if toInt32 (k * c) < 0 then 0 else (toInt32 (blockStop n c k - k * c)).toNat

theorem requested_le (n c k : ℕ) : requested n c k ≤ blockStop n c k - k * c := by
  unfold requested
  split
  · exact Nat.zero_le _
  · exact Int.toNat_le.mpr (toInt32_le _)

/-- The offset `p` is not among the bytes that the task of its chunk asks for. -/
def Missed (n c p : ℕ) : Prop := p < n ∧ p / c * c + requested n c (p / c) ≤ p

/-- A chunk that is not asked for as a whole has an offset that is missed. -/
theorem missed_of_requested_lt (hc : 0 < c) (h : requested n c k < blockStop n c k - k * c) :
    Missed n c (k * c + requested n c k) := by
  obtain ⟨hlt, hdiv⟩ := (mem_block_iff (n := n) (k := k) hc).mp
    ⟨Nat.le_add_right (k * c) (requested n c k), by omega⟩
  refine ⟨hlt, ?_⟩
  rw [hdiv]

/-- Among the chunks that start at 2^31 or later, the first one starts before 2^32. -/
theorem exists_start_between (hc : 0 < c) (hlt : c < 2 ^ 31) (h : 2 ^ 31 ≤ k * c) :
    ∃ j, j ≤ k ∧ 2 ^ 31 ≤ j * c ∧ j * c < 2 ^ 32 := by
  have hpos : 0 < blockCount (2 ^ 31) c := blockCount_pos hc (by decide)
  refine ⟨blockCount (2 ^ 31) c, blockCount_le hc h, ?_, ?_⟩
  · have hnot := mt (lt_blockCount_iff (n := 2 ^ 31) hc).mpr (Nat.lt_irrefl _)
    exact Nat.le_of_not_lt hnot
  · have hbefore := (lt_blockCount_iff (n := 2 ^ 31) (k := blockCount (2 ^ 31) c - 1) hc).mp (by omega)
    calc blockCount (2 ^ 31) c * c = (blockCount (2 ^ 31) c - 1) * c + c := by
          rw [← Nat.succ_mul, Nat.succ_eq_add_one, Nat.sub_add_cancel hpos]
      _ < 2 ^ 32 := by omega

/-- If some chunk does not fit, some offset is missed. -/
theorem exists_missed (hc : 0 < c) (h : ¬ ∀ k, k < blockCount n c → ChunkFits n c k) :
    ∃ p, Missed n c p := by
  by_cases hsizes : ∀ k, k < blockCount n c → blockStop n c k - k * c < 2 ^ 31
  · -- The first chunk from 2^31 on starts below 2^32, so its seek goes to a negative position.
    push Not at h
    obtain ⟨k, hk, hfits⟩ := h
    have hstart : 2 ^ 31 ≤ k * c := by
      by_contra hlow
      exact hfits ⟨Nat.lt_of_not_le hlow, hsizes k hk⟩
    have hseveral : 0 + 1 < blockCount n c := by
      by_contra hone
      have hzero : k = 0 := by omega
      rw [hzero, Nat.zero_mul] at hstart
      exact absurd hstart (by decide)
    have hfull := hsizes 0 (by omega)
    rw [blockStop_of_lt hc hseveral, Nat.zero_mul, Nat.zero_add, Nat.sub_zero] at hfull
    obtain ⟨j, hle, hlow, hhigh⟩ := exists_start_between hc hfull hstart
    have hnone : requested n c j = 0 := if_pos (toInt32_neg hlow hhigh)
    have hlt : j * c < blockStop n c j := start_lt_blockStop hc (Nat.lt_of_le_of_lt hle hk)
    exact ⟨_, missed_of_requested_lt (k := j) hc (by omega)⟩
  · -- A size from 2^31 on is more than an `int` can ask for.
    push Not at hsizes
    obtain ⟨k, -, hsize⟩ := hsizes
    refine ⟨_, missed_of_requested_lt (k := k) hc ?_⟩
    have hint : toInt32 (blockStop n c k - k * c) < (2 ^ 32 + 1) / 2 := Int.bmod_lt (by decide)
    unfold requested
    split
    · omega
    · omega

/-! ### Missed offsets stay zero -/

/-- The bytes that the read of a task delivers. -/
def readBytes (file : Buffer) (c : ℕ) (s : ReadState workers) (task : Task workers) : Buffer :=
  (((s.file task.2).seekg (toInt32 (task.1 * c))).read file
    (toInt32 (blockStop file.length c task.1 - task.1 * c))).1

theorem length_readBytes_le (file : Buffer) (c : ℕ) (s : ReadState workers) (task : Task workers) :
    (readBytes file c s task).length ≤ requested file.length c task.1 := by
  unfold requested
  split
  · rename_i hneg
    rw [readBytes, (IfStream.read_seekg_of_fail (Or.inr hneg) _ _).1]
    exact Nat.le_refl 0
  · exact IfStream.length_read_le _ _ _

theorem data_readTask (hc : 0 < c) (hn : file.length < 2 ^ 63) (s : ReadState workers)
    {task : Task workers} (hk : task.1 < blockCount file.length c) :
    (readTask file c (blockCount file.length c) s task).shared.data =
      lower (store s.shared.data (task.1 * c) (readBytes file c s task)) := by
  unfold readTask Shared.load readBytes
  simp only [taskStart_eq hc hk hn, taskEnd_eq hc hk hn, sub64_blockStop hc hk hn]
  exact processChunk_data _ _ _ _

/-- What is delivered stays inside the chunk. -/
theorem store_readBytes_le (hc : 0 < c) (s : ReadState workers) {task : Task workers}
    (hk : task.1 < blockCount file.length c) :
    task.1 * c + (readBytes file c s task).length ≤ file.length := by
  have hlt := start_lt_blockStop hc hk
  have hle : blockStop file.length c task.1 ≤ file.length := blockStop_le
  have hread := (length_readBytes_le file c s task).trans (requested_le _ _ _)
  omega

/-- The buffer has the length of the file, and holds zero at `p`. -/
def ZeroAt (file : Buffer) (p : ℕ) (data : Buffer) : Prop :=
  data.length = file.length ∧ byteAt data p = 0

theorem toLower_zero : toLower 0 = 0 := by decide

/-- No task stores anything at a missed offset. -/
theorem ZeroAt.step (hmissed : Missed file.length c p) (hc : 0 < c) (hn : file.length < 2 ^ 63)
    {s : ReadState workers} {task : Task workers} (hk : task.1 < blockCount file.length c)
    (h : ZeroAt file p s.shared.data) :
    ZeroAt file p (readTask file c (blockCount file.length c) s task).shared.data := by
  obtain ⟨hlength, hzero⟩ := h
  have hbound : task.1 * c + (readBytes file c s task).length ≤ s.shared.data.length :=
    hlength.symm ▸ store_readBytes_le hc s hk
  have hread := length_readBytes_le file c s task
  have hinside := requested_le file.length c task.1
  have houtside : ¬ (task.1 * c ≤ p ∧ p < task.1 * c + (readBytes file c s task).length) := by
    rintro ⟨hlow, hhigh⟩
    obtain ⟨-, hdiv⟩ := (mem_block_iff hc).mp ⟨hlow, show p < blockStop file.length c task.1 by omega⟩
    have hafter := hmissed.2
    rw [hdiv] at hafter
    omega
  rw [data_readTask hc hn s hk]
  refine ⟨?_, ?_⟩
  · rw [length_lower, length_store hbound, hlength]
  · rw [byteAt_lower, byteAt_store hbound, if_neg houtside, hzero, toLower_zero]

/-- A missed offset is zero after every run of tasks, in any order and on any workers. -/
theorem missed_run (hmissed : Missed file.length c p) (hc : 0 < c) (hn : file.length < 2 ^ 63)
    {order : List (Task workers)} (hbound : ∀ task ∈ order, task.1 < blockCount file.length c)
    {s : ReadState workers} (h : ZeroAt file p s.shared.data) :
    ZeroAt file p (order.foldl (readTask file c (blockCount file.length c)) s).shared.data := by
  induction order generalizing s with
  | nil => exact h
  | cons task order ih =>
      obtain ⟨hk, hbound⟩ := List.forall_mem_cons.mp hbound
      exact ih hbound (h.step hmissed hc hn hk)

theorem zeroAt_init (file : Buffer) (p workers chunks : ℕ) :
    ZeroAt file p (ReadState.init workers file.length chunks).shared.data := by
  refine ⟨List.length_replicate, ?_⟩
  change byteAt (List.replicate file.length 0) p = 0
  rw [byteAt, List.getElem?_replicate]
  split
  · rfl
  · rfl

/-! ### The whole file -/

/-- The file is in the buffer, lowered, and the `int` arguments of every task are the 64-bit values. -/
structure WholeFileLoaded (file : Buffer) (c chunks : ℕ) (data : Buffer) : Prop where
  length : data.length = file.length
  bytes : ∀ p, p < file.length → byteAt data p = toLower (byteAt file p)
  start_exact : ∀ k, k < chunks → toInt32 (taskStart c k) = taskStart c k
  size_exact : ∀ k, k < chunks →
    toInt32 (sub64 (taskEnd file.length c chunks k) (taskStart c k)) =
      sub64 (taskEnd file.length c chunks k) (taskStart c k)

/-- A chunk fits exactly when both casts of its task are exact. -/
theorem chunkFits_iff_exact (hc : 0 < c) (hn : n < 2 ^ 63) (hk : k < blockCount n c) :
    ChunkFits n c k ↔ toInt32 (taskStart c k) = taskStart c k ∧
      toInt32 (sub64 (taskEnd n c (blockCount n c) k) (taskStart c k)) =
        sub64 (taskEnd n c (blockCount n c) k) (taskStart c k) := by
  rw [toInt32_eq_self_iff, toInt32_eq_self_iff, taskStart_eq hc hk hn, taskEnd_eq hc hk hn,
    sub64_blockStop hc hk hn]
  rfl

theorem wholeFileLoaded_iff (hc : 0 < c) (hn : file.length < 2 ^ 63) {data : Buffer}
    (hdata : (∀ k, k < blockCount file.length c → ChunkFits file.length c k) → data = lower file) :
    WholeFileLoaded file c (blockCount file.length c) data ↔
      ∀ k, k < blockCount file.length c → ChunkFits file.length c k := by
  constructor
  · intro h k hk
    exact (chunkFits_iff_exact hc hn hk).mpr ⟨h.start_exact k hk, h.size_exact k hk⟩
  · intro hfits
    rw [hdata hfits]
    exact
      { length := length_lower file
        bytes := fun p _ => byteAt_lower file p
        start_exact := fun k hk => ((chunkFits_iff_exact hc hn hk).mp (hfits k hk)).1
        size_exact := fun k hk => ((chunkFits_iff_exact hc hn hk).mp (hfits k hk)).2 }

/-- A missed offset differs from the lowered file unless the file has a zero byte there. -/
theorem ZeroAt.ne_lower {data : Buffer} (h : ZeroAt file p data) (hp : p < file.length)
    (hfile : ∀ x ∈ file, x ≠ 0) : data ≠ lower file := by
  intro hsame
  have hbyte := h.2
  have hmem : byteAt file p ∈ file := by
    rw [byteAt, List.getElem?_eq_getElem hp]
    exact List.getElem_mem hp
  rw [hsame, byteAt_lower] at hbyte
  exact toLower_ne_zero (hfile _ hmem) hbyte

variable {config : FreqConfig}

/-- A missed offset is zero at the end, under any schedule. -/
theorem blockingRead_zeroAt (hP : 1 ≤ config.diskPageSize) (hN : 1 ≤ config.processorCount)
    (hn : file.length < 2 ^ 63) (hmissed : Missed file.length (chunkSizeOf config file.length) p)
    (schedule : Schedule (blockCount file.length (chunkSizeOf config file.length))
      config.processorCount) :
    ∃ s, blockingRead config file schedule.order = .ok s ∧ ZeroAt file p s.data := by
  have hc := chunkSizeOf_pos hP file.length
  have hzero := missed_run hmissed hc hn schedule.lt_chunks
    (zeroAt_init file p config.processorCount (blockCount file.length (chunkSizeOf config file.length)))
  refine ⟨_, ?_, hzero⟩
  rw [blockingRead, planChunks_eq hP hN hn]
  rfl

/-- For every file, machine and schedule: the whole file is loaded, through exact `int` arguments, exactly
    when the last chunk, which starts at the largest multiple of the chunk size below the file size,
    starts below 2^31 and is shorter than 2^31 bytes. For a file without a zero byte the same holds of
    the loaded bytes alone. -/
theorem blockingRead_loads_whole_file_iff (config : FreqConfig) (file : Buffer)
    (hP : 1 ≤ config.diskPageSize) (hN : 1 ≤ config.processorCount) (hn : 1 ≤ file.length)
    (hn' : file.length < 2 ^ 63)
    (schedule : Schedule (blockCount file.length (chunkSizeOf config file.length))
      config.processorCount) :
    ∃ s, blockingRead config file schedule.order = .ok s ∧
      (WholeFileLoaded file (chunkSizeOf config file.length)
          (blockCount file.length (chunkSizeOf config file.length)) s.data ↔
        (file.length - 1) / chunkSizeOf config file.length * chunkSizeOf config file.length < 2 ^ 31 ∧
          file.length - (file.length - 1) / chunkSizeOf config file.length *
            chunkSizeOf config file.length < 2 ^ 31) ∧
      ((∀ x ∈ file, x ≠ 0) →
        (s.data = lower file ↔
          (file.length - 1) / chunkSizeOf config file.length * chunkSizeOf config file.length < 2 ^ 31 ∧
            file.length - (file.length - 1) / chunkSizeOf config file.length *
              chunkSizeOf config file.length < 2 ^ 31)) := by
  have hc := chunkSizeOf_pos hP file.length
  rw [← chunkFits_iff hc hn]
  by_cases hfits : ∀ k, k < blockCount file.length (chunkSizeOf config file.length) →
      ChunkFits file.length (chunkSizeOf config file.length) k
  · obtain ⟨s, hs, hprogress⟩ := blockingRead_spec hP hN hn' hfits schedule
    have hdata := hprogress.data_eq hc schedule.perm
    exact ⟨s, hs, wholeFileLoaded_iff hc hn' fun _ => hdata, fun _ => ⟨fun _ => hfits, fun _ => hdata⟩⟩
  · obtain ⟨p, hmissed⟩ := exists_missed hc hfits
    obtain ⟨s, hs, hzero⟩ := blockingRead_zeroAt hP hN hn' hmissed schedule
    refine ⟨s, hs, wholeFileLoaded_iff hc hn' fun h => absurd h hfits, ?_⟩
    intro hfile
    exact ⟨fun hsame => absurd hsame (hzero.ne_lower hmissed.1 hfile), fun h => absurd h hfits⟩

/-- `ab cd` with pages of two bytes, three tasks out of order on two workers. -/
theorem blockingRead_loads_ab_cd :
    ∃ s : Shared 2, blockingRead ⟨2, 2, by decide, by decide⟩ [0x61, 0x62, 0x20, 0x63, 0x64]
        [(2, 0), (0, 1), (1, 0)] = .ok s ∧
      WholeFileLoaded [0x61, 0x62, 0x20, 0x63, 0x64] 2 3 s.data := by
  obtain ⟨s, hs, hloaded, -⟩ := blockingRead_loads_whole_file_iff ⟨2, 2, by decide, by decide⟩
    [0x61, 0x62, 0x20, 0x63, 0x64] (by decide) (by decide) (by decide) (by decide)
    ⟨[(2, (0 : Fin 2)), (0, 1), (1, 0)], by decide⟩
  exact ⟨s, hs, hloaded.mpr (by decide)⟩

/-- A file of 2^31 + 1 times `a` on two processors with pages of 4096 bytes: the chunks have 2^28 bytes,
    the ninth one starts at 2^31, its position is cast to a negative number and its byte is lost. -/
theorem blockingRead_loses_last_byte :
    let file : Buffer := List.replicate (2 ^ 31 + 1) 0x61
    ∃ s : Shared 2, blockingRead ⟨2, 4096, by decide, by decide⟩ file
        (Schedule.inOrder 9 (0 : Fin 2)).order = .ok s ∧
      byteAt s.data (2 ^ 31) = 0 ∧ byteAt file (2 ^ 31) = 0x61 ∧
      toInt32 (taskStart (2 ^ 28) 8) ≠ taskStart (2 ^ 28) 8 ∧
      ¬ WholeFileLoaded file (2 ^ 28) 9 s.data := by
  intro file
  have hlength : file.length = 2 ^ 31 + 1 := List.length_replicate
  have hbyte : byteAt file (2 ^ 31) = 0x61 := by
    have hget : file[2 ^ 31]? = some 0x61 := by
      rw [List.getElem?_replicate]
      exact if_pos (by decide)
    rw [byteAt, hget]
    rfl
  generalize file = file at hlength hbyte
  have hsize : chunkSizeOf ⟨2, 4096, by decide, by decide⟩ file.length = 2 ^ 28 := by
    rw [hlength]
    decide
  have hcount : blockCount file.length (2 ^ 28) = 9 := by
    rw [hlength]
    decide
  have hmissed : Missed file.length (2 ^ 28) (2 ^ 31) := by
    rw [hlength]
    exact ⟨by decide, by decide⟩
  have hcast : toInt32 (taskStart (2 ^ 28) 8) ≠ taskStart (2 ^ 28) 8 := by decide
  rw [← hsize] at hmissed
  obtain ⟨s, hs, hzero⟩ := blockingRead_zeroAt (by decide) (by decide) (by rw [hlength]; decide)
    hmissed (Schedule.inOrder _ (0 : Fin 2))
  rw [hsize, hcount] at hs
  exact ⟨s, hs, hzero.2, hbyte, hcast, fun h => hcast (h.start_exact 8 (by decide))⟩

end FreqUtility
