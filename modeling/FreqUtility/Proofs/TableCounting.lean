/-
Module: FreqUtility.Proofs.TableCounting
Layer: Proofs
Purpose: The tables of the program against its finite maps. What `count_word` puts into a table is a run of
  operations on it, so every table holds the entries of the finite map in order of first insertion.
  `TablesCount` carries that through the chunk tasks; the final merge adds table to table, and the tables
  of a complete run hold the map of chunked counting, whatever the hash function is.
Imports: FreqUtility.Core.PooledRead, FreqUtility.Proofs.TableRuns, FreqUtility.Proofs.Schedule
Trusted boundary: none (fully proved)
Main exports: countingOps, counting_spec, dummyTable_spec, TablesCount, TableProgress, TableProgress.load,
  TableProgress.process, finishTable_spec, Progress.finish_eq, Progress.unique, tablesResult_spec
Open obligations: none
-/
import FreqUtility.Core.PooledRead
import FreqUtility.Proofs.TableRuns
import FreqUtility.Proofs.Schedule

namespace FreqUtility

open UnorderedDense RangeScan MaximalRuns Blocks CountMaps

variable {mixedHash : Word → UInt64}

/-! ### Counting words into a table -/

/-- Reserve, then count the words one by one. -/
def countingOps (capa : ℕ) (counted : List Word) : List (TableOp Word) :=
  .reserve capa :: counted.map .emplaceOrIncrement

theorem countingOps_append (capa : ℕ) (counted counted' : List Word) :
    countingOps capa (counted ++ counted') =
      countingOps capa counted ++ counted'.map .emplaceOrIncrement := by
  rw [countingOps, countingOps, List.map_append, List.cons_append]

theorem foldl_onEntries_counting (entries : List (Word × ℕ)) (counted : List Word) :
    (counted.map TableOp.emplaceOrIncrement).foldl TableOp.onEntries entries =
      putEach entries counted := by
  rw [List.foldl_map]
  rfl

/-- Counting the ranges of a buffer is a run of operations. -/
theorem foldl_tableCountWord (data : Buffer) (freq : TableResult) (ranges : List (ℕ × ℕ)) :
    ranges.foldl (fun freq r => tableCountWord mixedHash data freq r.1 r.2) freq =
      freq >>= fun t => runOps mixedHash t ((texts data ranges).map .emplaceOrIncrement) := by
  induction ranges generalizing freq with
  | nil => cases freq <;> rfl
  | cons r ranges ih =>
      rw [List.foldl_cons, ih]
      cases freq with
      | error fault => rfl
      | ok t => rfl

theorem counting_eq_runOps (data : Buffer) (capa : ℕ) (ranges : List (ℕ × ℕ)) :
    ranges.foldl (fun freq r => tableCountWord mixedHash data freq r.1 r.2)
        (reserve mixedHash Table.empty capa) =
      runOps mixedHash Table.empty (countingOps capa (texts data ranges)) :=
  foldl_tableCountWord data _ ranges

variable (mixedHash) in
/-- A fresh table that has counted a list of words. -/
theorem counting_spec {capa : ℕ} (hcapa : capa ≤ maxReserve) {counted : List Word}
    (hmax : (putEach [] counted).length + 2 ≤ 2 ^ 24) :
    ∃ t, runOps mixedHash Table.empty (countingOps capa counted) = .ok t ∧ Sound mixedHash t ∧
      t.values = putEach [] counted := by
  have hentries : (countingOps capa counted).foldl TableOp.onEntries [] = putEach [] counted :=
    foldl_onEntries_counting [] counted
  have hreserve : Reservable (countingOps capa counted) := by
    intro capa' hmem
    rcases List.mem_cons.mp hmem with heq | hmem
    · cases heq
      exact hcapa
    · obtain ⟨word, -, heq⟩ := List.mem_map.mp hmem
      cases heq
  obtain ⟨t, hrun, hsound, hvalues⟩ := runOps_spec (Sound.empty : Sound mixedHash Table.empty)
    hreserve (hentries ▸ hmax)
  exact ⟨t, hrun, hsound, hvalues.trans hentries⟩

/-- `result[key] += value` over the entries of another table. -/
theorem mergeTable_spec {result frequency : FreqTable} (h : Sound mixedHash result)
    (hmax : (putAll result.values frequency.values).length + 2 ≤ 2 ^ 24) :
    ∃ t, mergeTable mixedHash result frequency = .ok t ∧ Sound mixedHash t ∧
      t.values = putAll result.values frequency.values := by
  have hentries : (frequency.values.map fun e => TableOp.subscriptAdd e.1 e.2).foldl
      TableOp.onEntries result.values = putAll result.values frequency.values := by
    rw [List.foldl_map]
    rfl
  have hreserve : Reservable (frequency.values.map fun e => TableOp.subscriptAdd e.1 e.2) := by
    intro capa hmem
    obtain ⟨e, -, heq⟩ := List.mem_map.mp hmem
    cases heq
  obtain ⟨t, hrun, hsound, hvalues⟩ := runOps_spec h hreserve (hentries ▸ hmax)
  refine ⟨t, ?_, hsound, hvalues.trans hentries⟩
  rw [runOps, List.foldlM_map] at hrun
  exact hrun

/-! ### The sequential counter -/

/-- The words of the file from left to right. -/
def wordList (file : Buffer) : List (ℕ × ℕ) :=
  runList (delimAt file) file.length (findIfNot (delimAt file) 0 file.length)

theorem dummyTable_eq (file : Buffer) :
    dummyTable mixedHash file = runOps mixedHash Table.empty
      (countingOps (file.length / 3) (texts (lower file) (wordList file))) := by
  unfold dummyTable wordLoop
  simp only
  rw [foldRuns_eq_foldl, counting_eq_runOps, wordList, length_lower]
  simp only [funext (delimAt_lower file)]

/-- The sequential counter computes the count of its words in their order. -/
theorem dummyCount_eq (file : Buffer) :
    dummyCount file = countAll ∅ (texts (lower file) (wordList file)) := by
  unfold dummyCount wordLoop
  rw [foldRuns_eq_foldl, texts, countAll, List.foldl_map]
  simp only [emplaceOrIncrement_eq_bump, funext (delimAt_lower file), length_lower]
  rfl

/-- `process_file_dummy` on a hash table lists the words in the order of their first occurrence. -/
theorem dummyTable_spec {file : Buffer} (hfile : file.length / 3 ≤ maxReserve)
    (hmax : (dummyCount file).keys.card + 2 ≤ 2 ^ 24) :
    ∃ t, dummyTable mixedHash file = .ok t ∧ Sound mixedHash t ∧
      t.values = putEach [] (texts (lower file) (wordList file)) ∧
      Enumerates (dummyCount file) t.values := by
  have henum := Enumerates.nil.putEach (texts (lower file) (wordList file))
  rw [← dummyCount_eq] at henum
  have hlength := henum.length_eq
  obtain ⟨t, hrun, hsound, hvalues⟩ := counting_spec mixedHash hfile (hlength ▸ hmax)
  refine ⟨t, ?_, hsound, hvalues, hvalues ▸ henum⟩
  rw [dummyTable_eq]
  exact hrun

/-! ### Bytes of the file arrive -/

variable {workers : ℕ} {file data : Buffer} {c k : ℕ}

theorem byteAt_store_part {start count : ℕ} (hbound : start + count ≤ file.length)
    (hlength : data.length = file.length) (p : ℕ) :
    byteAt (store data start ((file.drop start).take count)) p =
      if start ≤ p ∧ p < start + count then byteAt file p else byteAt data p := by
  have hcount : ((file.drop start).take count).length = count := by
    rw [List.length_take, List.length_drop]
    omega
  rw [byteAt_store (by rw [hcount, hlength]; exact hbound), hcount]
  split
  · rename_i hin
    rw [byteAt, byteAt, List.getElem?_take_of_lt (by omega), List.getElem?_drop,
      Nat.add_sub_cancel' hin.1]
  · rfl

/-- Bytes of the file leave loaded chunks loaded. -/
theorem Loaded.storePart (h : Loaded file c k data) {start count : ℕ}
    (hbound : start + count ≤ file.length) (hlength : data.length = file.length) :
    Loaded file c k (store data start ((file.drop start).take count)) := by
  intro p hp hin
  rw [byteAt_store_part hbound hlength]
  split
  · rfl
  · exact h p hp hin

/-- So does the lowering of the whole buffer. -/
theorem Loaded.lowered (h : Loaded file c k data) : Loaded file c k (lower data) := by
  intro p hp hin
  rw [byteAt_lower, toLower_toLower]
  exact h p hp hin

theorem Shared.data_processChunk (s : Shared workers) (threadIndex : Fin workers)
    (startPos endPos chunkSize : ℕ) :
    (s.processChunk threadIndex startPos endPos chunkSize).data = FreqUtility.lower s.data :=
  processChunk_data _ _ _ _

/-! ### The chunk tasks -/

/-- The table of a chunk task counts the ranges that the task counts. -/
theorem processChunkTable_eq (data : Buffer) (freq : TableResult) (startPos endPos : ℕ) :
    processChunkTable mixedHash data freq startPos endPos =
      (innerRanges data startPos endPos).foldl
        (fun freq r => tableCountWord mixedHash (lower data) freq r.1 r.2) freq := by
  rw [← innerRanges_lower]
  unfold processChunkTable innerRanges
  simp only [ne_eq, ite_not]
  split
  · rfl
  · exact foldRuns_eq_foldl _ _ _ _

/-- The task of a loaded chunk counts the texts of the file. -/
theorem Loaded.texts_eq (hc : 0 < c) (hk : k < blockCount file.length c) (h : Loaded file c k data)
    (hlength : data.length = file.length) :
    texts (lower data) (innerRanges data (k * c) (blockStop file.length c k)) =
      texts (lower file) (chunkRanges file c k) := by
  have hranges : innerRanges data (k * c) (blockStop file.length c k) = chunkRanges file c k :=
    innerRanges_congr (Nat.le_of_lt (start_lt_blockStop hc hk)) fun _ => h.delimAt_eq hc
  rw [hranges]
  apply List.map_congr_left
  rintro ⟨b, e⟩ hmem
  have hword := (mem_innerRanges_iff hc hk).mp hmem
  exact h.slice_eq hc hlength (Nat.le_of_lt hword.start_lt) (Nat.le_of_lt hword.lt_stop)

/-- Each table has counted the inner words of the chunks that its worker has finished. -/
def TablesCount (mixedHash : Word → UInt64) (file : Buffer) (c capa : ℕ) (finished : List (Task workers))
    (frequency : Fin workers → TableResult) : Prop :=
  ∀ i, frequency i = runOps mixedHash Table.empty
    (countingOps capa (texts (lower file) (workerRanges file c finished i)))

theorem tablesCount_nil (mixedHash : Word → UInt64) (file : Buffer) (c capa : ℕ) :
    TablesCount mixedHash file c capa ([] : List (Task workers))
      fun _ => reserve mixedHash Table.empty capa :=
  fun _ => counting_eq_runOps (lower file) capa []

/-- `process_chunk` on a loaded chunk counts its inner words into the table of its worker. -/
theorem TablesCount.process {capa : ℕ} {finished : List (Task workers)}
    {frequency : Fin workers → TableResult} (h : TablesCount mixedHash file c capa finished frequency)
    (task : Task workers) (hc : 0 < c) (hk : task.1 < blockCount file.length c)
    (hloaded : Loaded file c task.1 data) (hlength : data.length = file.length) :
    TablesCount mixedHash file c capa (finished ++ [task])
      (Function.update frequency task.2 (processChunkTable mixedHash data (frequency task.2)
        (task.1 * c) (blockStop file.length c task.1))) := by
  intro i
  rw [workerRanges_append]
  by_cases hi : i = task.2
  · subst hi
    rw [Function.update_self, if_pos rfl, processChunkTable_eq, foldl_tableCountWord,
      hloaded.texts_eq hc hk hlength, h, texts_append, countingOps_append, runOps_append]
  · rw [Function.update_of_ne hi, if_neg (Ne.symm hi), List.append_nil]
    exact h i

/-- The state of a run of the threaded driver whose finished tasks are `finished`. -/
structure TableProgress (mixedHash : Word → UInt64) (file : Buffer) (c : ℕ)
    (finished : List (Task workers)) (s : TableState workers) : Prop where
  read : ReadProgress file c finished s.read
  frequency : TablesCount mixedHash file c (c / 5) finished s.frequency

theorem tableProgress_init (mixedHash : Word → UInt64) (file : Buffer) (c workers : ℕ) :
    TableProgress mixedHash file c [] (TableState.init mixedHash workers file.length c
      (blockCount file.length c)) where
  read := readProgress_init file c workers
  frequency := tablesCount_nil mixedHash file c (c / 5)

/-- Reading a chunk that was not processed yet leaves the finished chunks alone, and its own chunk is loaded
    afterwards. -/
theorem TableProgress.load {finished : List (Task workers)} {s : TableState workers}
    (h : TableProgress mixedHash file c finished s) (task : Task workers) (hc : 0 < c)
    (hn : file.length < 2 ^ 63) (hk : task.1 < blockCount file.length c)
    (hfits : ChunkFits file.length c task.1) (hnew : task.1 ∉ finished.map Prod.fst) :
    (loadTask file c (blockCount file.length c) s task).read.shared.data =
        store s.read.shared.data (task.1 * c) (chunkBytes file c task.1) ∧
      TableProgress mixedHash file c finished (loadTask file c (blockCount file.length c) s task) := by
  have hlt := start_lt_blockStop hc hk
  have hle : blockStop file.length c task.1 ≤ file.length := blockStop_le
  have hbound : task.1 * c + (blockStop file.length c task.1 - task.1 * c) ≤ file.length := by omega
  obtain ⟨hread, hgood⟩ := IfStream.read_seekg (h.read.good task.2) file hbound
  have hstate : (loadTask file c (blockCount file.length c) s task).read.shared =
      s.read.shared.load (task.1 * c) (chunkBytes file c task.1) := by
    unfold loadTask
    simp only [taskStart_eq hc hk hn, taskEnd_eq hc hk hn, sub64_blockStop hc hk hn,
      toInt32_of_lt hfits.1, toInt32_of_lt hfits.2, hread]
    rfl
  refine ⟨congrArg Shared.data hstate, ⟨?_, ?_⟩, h.frequency⟩
  · rw [hstate]
    exact h.read.shared.load hc hk hnew
  · intro t
    unfold loadTask
    simp only [taskStart_eq hc hk hn, taskEnd_eq hc hk hn, sub64_blockStop hc hk hn,
      toInt32_of_lt hfits.1, toInt32_of_lt hfits.2]
    by_cases ht : t = task.2
    · subst ht
      rw [Function.update_self]
      exact hgood
    · rw [Function.update_of_ne ht]
      exact h.read.good t

/-- Processing a loaded chunk counts its inner words into the table of its worker. -/
theorem TableProgress.process {finished : List (Task workers)} {s : TableState workers}
    (h : TableProgress mixedHash file c finished s) (task : Task workers) (hc : 0 < c)
    (hn : file.length < 2 ^ 63) (hk : task.1 < blockCount file.length c)
    (hnew : task.1 ∉ finished.map Prod.fst) (hloaded : Loaded file c task.1 s.read.shared.data) :
    TableProgress mixedHash file c (finished ++ [task])
      (processTask mixedHash file c (blockCount file.length c) s task) := by
  have hlength := h.read.shared.length
  refine ⟨⟨?_, h.read.good⟩, ?_⟩
  · have hstep := h.read.shared.step hc hk hnew hloaded
    rw [runChunk, hlength] at hstep
    unfold processTask
    rw [taskStart_eq hc hk hn, taskEnd_eq hc hk hn]
    exact hstep
  · have htables := h.frequency.process task hc hk hloaded hlength
    unfold processTask
    simp only [taskStart_eq hc hk hn, taskEnd_eq hc hk hn]
    exact htables

/-! ### Adding the tables -/

/-- The entries after the tables of some workers have been added. -/
def mergedEntries (entries : List (Word × ℕ)) (added : Fin workers → List Word)
    (order : List (Fin workers)) : List (Word × ℕ) :=
  order.foldl (fun entries i => putAll entries (putEach [] (added i))) entries

theorem length_le_length_mergedEntries (entries : List (Word × ℕ)) (added : Fin workers → List Word)
    (order : List (Fin workers)) :
    entries.length ≤ (mergedEntries entries added order).length := by
  induction order generalizing entries with
  | nil => exact Nat.le_refl _
  | cons i order ih => exact (length_le_length_putAll entries _).trans (ih _)

/-- The merged entries count everything that was counted. -/
theorem exists_enumerates_mergedEntries {m : FreqMap} {entries : List (Word × ℕ)}
    {counted : Multiset Word} (h : Enumerates m entries) (hm : Counts m counted)
    (added : Fin workers → List Word) (order : List (Fin workers)) :
    ∃ m', Enumerates m' (mergedEntries entries added order) ∧
      Counts m' (counted + (order.flatMap added : List Word)) := by
  induction order generalizing m entries counted with
  | nil => exact ⟨m, h, by simpa using hm⟩
  | cons i order ih =>
      have hadded := Counts.empty.countAll (added i)
      rw [zero_add] at hadded
      obtain ⟨m', henum, hcounts⟩ := ih (h.putAll (Enumerates.nil.putEach (added i)))
        (hm.merge hadded)
      refine ⟨m', henum, ?_⟩
      rw [List.flatMap_cons, ← Multiset.coe_add, ← add_assoc]
      exact hcounts

/-- The loop that adds the tables of the workers to the result. -/
theorem foldlM_mergeTable_spec {t : FreqTable} {capa : ℕ} (hcapa : capa ≤ maxReserve)
    (frequency : Fin workers → TableResult) (added : Fin workers → List Word)
    (hfrequency : ∀ i, frequency i = runOps mixedHash Table.empty (countingOps capa (added i)))
    (h : Sound mixedHash t) (order : List (Fin workers))
    (hmax : (mergedEntries t.values added order).length + 2 ≤ 2 ^ 24) :
    ∃ t', order.foldlM (fun result i => do
        let frequency ← frequency i
        mergeTable mixedHash result frequency) t = .ok t' ∧ Sound mixedHash t' ∧
      t'.values = mergedEntries t.values added order := by
  induction order generalizing t with
  | nil => exact ⟨t, rfl, h, rfl⟩
  | cons i order ih =>
      have hgrow := length_le_length_mergedEntries (putAll t.values (putEach [] (added i))) added order
      change (mergedEntries (putAll t.values (putEach [] (added i))) added order).length + 2 ≤ _ at hmax
      have hadded := length_le_length_putAll_right t.values
        ((Enumerates.nil.putEach (added i)).nodup)
      have hsmall : (putEach [] (added i)).length + 2 ≤ 2 ^ 24 := by omega
      obtain ⟨worker, hcount, -, hworker⟩ := counting_spec mixedHash hcapa hsmall
      have hroom : (putAll t.values worker.values).length + 2 ≤ 2 ^ 24 := by
        rw [hworker]
        omega
      obtain ⟨t₁, hmerge, hsound, hvalues⟩ := mergeTable_spec h hroom
      rw [hworker] at hvalues
      obtain ⟨t', hrun, hsound', hvalues'⟩ := ih hsound (by rw [hvalues]; exact hmax)
      refine ⟨t', ?_, hsound', ?_⟩
      · rw [List.foldlM_cons, hfrequency i, hcount]
        simp only [bind, Except.bind, hmerge]
        exact hrun
      · rw [hvalues', hvalues]
        rfl

/-- The tables add up to the finite map, whatever the hash function is. -/
theorem finishTable_spec {s : Shared workers} {calls : List (ℕ × ℕ)}
    {ranges : Fin workers → List (ℕ × ℕ)} {frequency : Fin workers → TableResult} {capa : ℕ} {m : FreqMap}
    (hlength : s.data.length / 10 ≤ maxReserve) (hcapa : capa ≤ maxReserve)
    (hedges : processEdges s.data s.chunkEdges = countRanges s.data Tally.empty calls)
    (htally : ∀ i, s.frequency i = countRanges s.data Tally.empty (ranges i))
    (hvalid : ∀ i, ∀ r ∈ ranges i, ValidRange s.data r)
    (hfrequency : ∀ i, frequency i = runOps mixedHash Table.empty
      (countingOps capa (texts s.data (ranges i))))
    (hfinish : finish s = .ok m) (hmax : m.keys.card + 2 ≤ 2 ^ 24) :
    ∃ t, finishTable mixedHash s frequency = .ok t ∧ Sound mixedHash t ∧ Enumerates m t.values := by
  obtain ⟨-, hcounts⟩ := (finish_eq_ok_iff hedges htally hvalid).mp hfinish
  have hcalls := Counts.empty.countAll (texts s.data calls)
  rw [zero_add] at hcalls
  obtain ⟨m', henum, hcounts'⟩ := exists_enumerates_mergedEntries
    (Enumerates.nil.putEach (texts s.data calls)) hcalls (fun i => texts s.data (ranges i))
    (List.finRange workers)
  have hflat : (List.finRange workers).flatMap (fun i => texts s.data (ranges i)) =
      texts s.data ((List.finRange workers).flatMap ranges) := by
    rw [texts, List.map_flatMap]
    rfl
  rw [hflat] at hcounts'
  obtain rfl := hcounts'.unique hcounts
  have htotal := henum.length_eq
  have hgrow := length_le_length_mergedEntries (putEach [] (texts s.data calls))
    (fun i => texts s.data (ranges i)) (List.finRange workers)
  have hsmall : (putEach [] (texts s.data calls)).length + 2 ≤ 2 ^ 24 := by omega
  obtain ⟨t₀, hrun₀, hsound₀, hvalues₀⟩ := counting_spec mixedHash hlength hsmall
  obtain ⟨t, hrun, hsound, hvalues⟩ := foldlM_mergeTable_spec hcapa frequency _ hfrequency hsound₀
    (List.finRange workers) (by rw [hvalues₀]; omega)
  have hcallsEq : (processEdges s.data s.chunkEdges).calls = calls := by
    rw [hedges, calls_countRanges]
    rfl
  refine ⟨t, ?_, hsound, ?_⟩
  · unfold finishTable edgesTable
    rw [hcallsEq, counting_eq_runOps, hrun₀]
    exact hrun
  · rw [hvalues, hvalues₀]
    exact henum

/-! ### Complete runs -/

/-- After a complete run the result is that of chunked counting. -/
theorem Progress.finish_eq {s : Shared workers} (hc : 0 < c) (hn : 0 < file.length)
    (schedule : Schedule (blockCount file.length c) workers)
    (h : Progress file c schedule.order s) : finish s = chunkedCount file c schedule := by
  obtain ⟨hdata, hedges, hfrequency⟩ := chunkRun_spec hc file schedule
  have hdata' := h.data_eq hc schedule.perm
  have hedges' := h.chunkEdges_eq hc schedule.perm
  have hvalid := validRange_of_mem_workerRanges hc schedule.perm
  rw [← hdata'] at hvalid
  apply finish_congr (hdata'.trans hdata.symm) (hedges'.trans hedges.symm) _ _ _ hvalid hvalid
    (List.Perm.refl _)
  · rw [hdata', hedges']
    exact processEdges_recorded_replays hc hn
  · rw [hdata']
    exact h.frequency
  · rw [hdata']
    exact hfrequency

/-- A complete run has left one state only: that of any other run in the same order. -/
theorem Progress.unique {s s' : Shared workers} (hc : 0 < c) {finished : List (Task workers)}
    (hall : (finished.map Prod.fst).Perm (List.range (blockCount file.length c)))
    (h : Progress file c finished s) (h' : Progress file c finished s') : s = s' := by
  have hdata := (h.data_eq hc hall).trans (h'.data_eq hc hall).symm
  have hedges := (h.chunkEdges_eq hc hall).trans (h'.chunkEdges_eq hc hall).symm
  have hfrequency : s.frequency = s'.frequency :=
    funext fun i => (h.frequency i).trans (h'.frequency i).symm
  cases s
  cases s'
  cases hdata
  cases hedges
  cases hfrequency
  rfl

/-- The tables of a complete run hold the map of chunked counting. -/
theorem tablesResult_spec {s : Shared workers} {frequency : Fin workers → TableResult} {m : FreqMap}
    {capa : ℕ} (hc : 0 < c) (hn : 0 < file.length) (hlength : file.length / 10 ≤ maxReserve)
    (hcapa : capa ≤ maxReserve) (schedule : Schedule (blockCount file.length c) workers)
    (hprogress : Progress file c schedule.order s)
    (htables : TablesCount mixedHash file c capa schedule.order frequency)
    (hresult : chunkedCount file c schedule = .ok m) (hmax : m.keys.card + 2 ≤ 2 ^ 24) :
    ∃ t, tablesResult mixedHash s frequency = .ok (.ok t) ∧ Sound mixedHash t ∧
      Enumerates m t.values := by
  have hfinish := (hprogress.finish_eq hc hn schedule).trans hresult
  have hdata := hprogress.data_eq hc schedule.perm
  have hedges := hprogress.chunkEdges_eq hc schedule.perm
  have hreplays : (processEdges s.data s.chunkEdges).Replays s.data := by
    rw [hdata, hedges]
    exact processEdges_recorded_replays hc hn
  have htally := hprogress.frequency
  have hvalid := validRange_of_mem_workerRanges hc schedule.perm
  unfold TablesCount at htables
  rw [← length_lower, ← hdata] at hlength
  simp only [← hdata] at htally htables hvalid
  obtain ⟨t, hrun, hsound, henum⟩ :=
    finishTable_spec hlength hcapa hreplays htally hvalid htables hfinish hmax
  refine ⟨t, ?_, hsound, henum⟩
  unfold tablesResult
  cases hfreq : (processEdges s.data s.chunkEdges).freq with
  | error fault =>
      rw [finish, hfreq] at hfinish
      cases hfinish
  | ok m₀ => exact congrArg Except.ok hrun

end FreqUtility
