/-
Module: FreqUtility.Proofs.Footprint
Layer: Proofs
Purpose: Which bytes a chunk task reads and writes. What it counts and what it records depend on the bytes
  of its own chunk only (`runChunk_reads_own_chunk`), but it writes the whole buffer: it lowers every
  byte. So it leaves another chunk alone, and commutes with the arrival of that chunk's bytes, exactly
  when there is nothing to lower there.
Imports: FreqUtility.Proofs.Schedule
Trusted boundary: none (fully proved)
Main exports: runChunk_reads_own_chunk, runChunk_writes_iff, load_commutes_iff,
  chunk_task_footprint_iff
Open obligations: none
-/
import FreqUtility.Proofs.Schedule

namespace FreqUtility

open MaximalRuns Blocks CountMaps

variable {workers : ℕ} {s s' : Shared workers} {c i j : ℕ}

/-- Edges and counts of a task are determined by the bytes of its own chunk. -/
theorem runChunk_reads_own_chunk (hc : 0 < c) (hi : i < blockCount s.data.length c)
    (hlength : s'.data.length = s.data.length)
    (hbytes : ∀ p, p < s.data.length → p / c = i → byteAt s'.data p = byteAt s.data p)
    (t : Fin workers) :
    (s'.chunkEdges = s.chunkEdges →
        (runChunk c s' (i, t)).chunkEdges = (runChunk c s (i, t)).chunkEdges) ∧
      (s'.frequency = s.frequency →
        (runChunk c s' (i, t)).frequency = (runChunk c s (i, t)).frequency) := by
  have hloaded : Loaded s.data c i s'.data := fun p hp hin => by rw [hbytes p hp hin]
  have hi' : i < blockCount s'.data.length c := by rwa [hlength]
  have hle := Nat.le_of_lt (start_lt_blockStop hc hi)
  constructor
  · intro hedges
    change (processChunk _ _ _ _).chunkEdges = (processChunk _ _ _ _).chunkEdges
    have hscan := RangeScan.findIf_congr hle fun p => hloaded.delimAt_eq hc
    rw [hlength, processChunk_chunkEdges _ hle, processChunk_chunkEdges _ hle]
    simp only [hscan, hloaded.chunkEdge_eq hc hi, hedges]
  · intro hfrequency
    change Function.update s'.frequency t (processChunk _ _ _ _).freqPerThread =
      Function.update s.frequency t (processChunk _ _ _ _).freqPerThread
    rw [processChunk_freqPerThread, processChunk_freqPerThread]
    simp only [hlength, hfrequency]
    rw [hloaded.countRanges_eq hc hi hlength]
    rfl

/-- A task leaves the bytes of another chunk alone exactly when there is no upper-case letter there. -/
theorem runChunk_writes_iff (s : Shared workers) (c i j : ℕ) (t : Fin workers) :
    (∀ p, p < s.data.length → p / c = j →
        byteAt (runChunk c s (i, t)).data p = byteAt s.data p) ↔
      ∀ p, p < s.data.length → p / c = j → isUpper (byteAt s.data p) = false := by
  have hbyte : ∀ p, byteAt (runChunk c s (i, t)).data p = toLower (byteAt s.data p) := by
    intro p
    change byteAt (processChunk _ _ _ _).data p = _
    rw [processChunk_data, byteAt_lower]
  refine forall_congr' fun p => imp_congr_right fun _ => imp_congr_right fun _ => ?_
  rw [hbyte, toLower_eq_self_iff]

theorem lower_store (data : Buffer) (startPos : ℕ) (bytes : Buffer) :
    lower (store data startPos bytes) = store (lower data) startPos (lower bytes) := by
  simp only [lower, store, List.map_append, List.map_take, List.map_drop, List.length_map]

theorem lower_eq_self_iff (bytes : Buffer) :
    lower bytes = bytes ↔ ∀ x ∈ bytes, isUpper x = false := by
  induction bytes with
  | nil => simp [lower]
  | cons x bytes ih =>
      rw [lower, List.map_cons, List.cons.injEq, List.forall_mem_cons, toLower_eq_self_iff]
      exact and_congr_right fun _ => ih

/-- A task commutes with the arrival of another chunk's bytes exactly when these have no upper-case
    letter. -/
theorem load_commutes_iff (hc : 0 < c) (hi : i < blockCount s.data.length c) (hij : i ≠ j)
    (t : Fin workers) {bytes : Buffer}
    (hbytes : j * c + bytes.length = blockStop s.data.length c j) :
    runChunk c (s.load (j * c) bytes) (i, t) = (runChunk c s (i, t)).load (j * c) bytes ↔
      ∀ x ∈ bytes, isUpper x = false := by
  have hle : blockStop s.data.length c j ≤ s.data.length := blockStop_le
  have hbound : j * c + bytes.length ≤ s.data.length := hbytes.trans_le hle
  have hlength : (s.load (j * c) bytes).data.length = s.data.length := length_store hbound
  have hown : ∀ p, p < s.data.length → p / c = i →
      byteAt (s.load (j * c) bytes).data p = byteAt s.data p := by
    intro p hp hin
    change byteAt (store s.data (j * c) bytes) p = _
    rw [byteAt_store hbound, hbytes, if_neg]
    intro hblock
    exact hij (hin.symm.trans ((mem_block_iff hc).mp hblock).2)
  obtain ⟨hedges, hfrequency⟩ := runChunk_reads_own_chunk hc hi hlength hown t
  have hdata : (runChunk c (s.load (j * c) bytes) (i, t)).data =
      store (lower s.data) (j * c) (lower bytes) := by
    change (processChunk _ _ _ _).data = _
    rw [processChunk_data]
    exact lower_store _ _ _
  have hdata' : ((runChunk c s (i, t)).load (j * c) bytes).data =
      store (lower s.data) (j * c) bytes := by
    change store (processChunk _ _ _ _).data _ _ = _
    rw [processChunk_data]
  rw [← lower_eq_self_iff]
  constructor
  · intro hsame
    have hstored := congrArg Shared.data hsame
    rw [hdata, hdata', store, store, List.append_assoc, List.append_assoc] at hstored
    exact (List.append_inj (List.append_cancel_left hstored) (length_lower bytes)).1
  · intro hlower
    rw [hlower] at hdata
    have hparts : ∀ u v : Shared workers, u.data = v.data → u.chunkEdges = v.chunkEdges →
        u.frequency = v.frequency → u = v := by
      rintro ⟨_, _, _⟩ ⟨_, _, _⟩ rfl rfl rfl
      rfl
    exact hparts _ _ (hdata.trans hdata'.symm) (hedges rfl) (hfrequency rfl)

/-- For two chunks of a buffer: the task of chunk `i` leaves every byte of chunk `j` unchanged, its edge
    entry and its counts depend on the bytes of chunk `i` only, and the arrival of bytes in chunk `j`
    commutes with it on the whole state, exactly when neither the present bytes of chunk `j` nor the
    arriving ones have an upper-case letter. -/
theorem chunk_task_footprint_iff {workers : ℕ} (s : Shared workers) (c i j : ℕ) (t : Fin workers)
    (bytes : Buffer) (hc : 0 < c) (hi : i < blockCount s.data.length c) (hij : i ≠ j)
    (hbytes : j * c + bytes.length = blockStop s.data.length c j) :
    ((∀ p, p < s.data.length → p / c = j →
          byteAt (runChunk c s (i, t)).data p = byteAt s.data p) ∧
        (∀ s' : Shared workers, s'.data.length = s.data.length →
          (∀ p, p < s.data.length → p / c = i → byteAt s'.data p = byteAt s.data p) →
          (s'.chunkEdges = s.chunkEdges →
            (runChunk c s' (i, t)).chunkEdges = (runChunk c s (i, t)).chunkEdges) ∧
          (s'.frequency = s.frequency →
            (runChunk c s' (i, t)).frequency = (runChunk c s (i, t)).frequency)) ∧
        runChunk c (s.load (j * c) bytes) (i, t) = (runChunk c s (i, t)).load (j * c) bytes) ↔
      (∀ p, p < s.data.length → p / c = j → isUpper (byteAt s.data p) = false) ∧
        ∀ x ∈ bytes, isUpper x = false := by
  rw [runChunk_writes_iff, load_commutes_iff hc hi hij t hbytes]
  constructor
  · rintro ⟨hpresent, -, harriving⟩
    exact ⟨hpresent, harriving⟩
  · rintro ⟨hpresent, harriving⟩
    refine ⟨hpresent, ?_, harriving⟩
    intro s' hlength hown
    exact runChunk_reads_own_chunk hc hi hlength hown t

/-- Two chunks of one byte, in lower case: the task of the first leaves the second alone. -/
theorem chunk_task_footprint_ab :
    byteAt (runChunk 1 (Shared.init 1 [0x61, 0x62] 2) (0, 0)).data 1 = 0x62 :=
  (((chunk_task_footprint_iff (Shared.init 1 [0x61, 0x62] 2) 1 0 1 0 [0x62] (by decide) (by decide)
    (by decide) (by decide)).mpr ⟨by decide, List.forall_mem_singleton.mpr (by decide)⟩).1 1
      (by decide) (by decide)).trans rfl

/-- In `abCD` in chunks of two bytes, the task of the first chunk rewrites the second one. -/
theorem chunk_task_rewrites_other_chunk :
    let s := Shared.init 1 [0x61, 0x62, 0x43, 0x44] 2
    ¬ ((∀ p, p < s.data.length → p / 2 = 1 →
          byteAt (runChunk 2 s (0, 0)).data p = byteAt s.data p) ∧
        (∀ s' : Shared 1, s'.data.length = s.data.length →
          (∀ p, p < s.data.length → p / 2 = 0 → byteAt s'.data p = byteAt s.data p) →
          (s'.chunkEdges = s.chunkEdges →
            (runChunk 2 s' (0, 0)).chunkEdges = (runChunk 2 s (0, 0)).chunkEdges) ∧
          (s'.frequency = s.frequency →
            (runChunk 2 s' (0, 0)).frequency = (runChunk 2 s (0, 0)).frequency)) ∧
        runChunk 2 (s.load 2 [0x43, 0x44]) (0, 0) =
          (runChunk 2 s (0, 0)).load 2 [0x43, 0x44]) := by
  rintro s ⟨hbytes, -, -⟩
  exact absurd (hbytes 2 (by decide) (by decide)) (by decide)

end FreqUtility
