/-
Module: FreqUtility.Proofs.UnheldRuns
Layer: Proofs
Purpose: When the accesses of the threads to the shared buffer interleave byte by byte, a thread may store
  back a byte that it loaded before the file's byte arrived there. In a run in which no byte arrives while
  another thread holds the old one this cannot happen, and such a run ends like a sequential run of the
  tasks. The invariant is stated for the buffer that the threads come to see, which need not be the file.
Imports: FreqUtility.Proofs.ByteRuns, FreqUtility.Proofs.ProgramOutput
Trusted boundary: none (fully proved)
Main exports: Arrived, ByteProgress, ByteProgress.copyAs, ByteProgress.step, ByteProgress.run,
  ByteProgress.completeRun, unheld_runs_are_sequential, unheld_output_is_pooled_output
Open obligations: none
-/
import FreqUtility.Proofs.ByteRuns
import FreqUtility.Proofs.ProgramOutput

namespace FreqUtility

open RangeScan MaximalRuns Blocks CountMaps UnorderedDense Sorting Transition Replace

/-! ### Single bytes -/

theorem byteAt_set {data : Buffer} {p : ℕ} (hp : p < data.length) (x : UInt8) (q : ℕ) :
    byteAt (data.set p x) q = if p = q then x else byteAt data q := by
  rw [byteAt, byteAt, List.getElem?_set]
  by_cases hpq : p = q
  · rw [if_pos hpq, if_pos hpq, if_pos hp]
    rfl
  · rw [if_neg hpq, if_neg hpq]

theorem byteAt_replicate_zero (n p : ℕ) : byteAt (List.replicate n 0) p = 0 := by
  rw [byteAt, List.getElem?_replicate]
  split
  · rfl
  · rfl

section

variable {threads c : ℕ} {file seen data : Buffer} {mixedHash : Word → UInt64}

/-- The bytes of a chunk in front of `place` are those of `seen`, lowered. -/
def Lowered (seen : Buffer) (c task place : ℕ) (data : Buffer) : Prop :=
  ∀ q, q < seen.length → q < place → q / c = task → byteAt data q = toLower (byteAt seen q)

theorem Lowered.set {task place : ℕ} (h : Lowered seen c task place data) {p : ℕ} {x : UInt8}
    (hp : p < data.length)
    (hx : p / c = task → p < place → x = toLower (byteAt seen p)) :
    Lowered seen c task place (data.set p x) := by
  intro q hq hlt hin
  rw [byteAt_set hp]
  by_cases hpq : p = q
  · subst hpq
    rw [if_pos rfl]
    exact hx hin hlt
  · rw [if_neg hpq]
    exact h q hq hlt hin

/-- Storing a byte leaves the finished chunks alone, or changes nothing there. -/
theorem TableProgress.setByte {finished : List (Task threads)} {s : TableState threads}
    (h : TableProgress mixedHash seen c finished s) {p : ℕ} {x : UInt8} (hp : p < seen.length)
    (hx : p / c ∈ finished.map Prod.fst → x = toLower (byteAt seen p)) :
    TableProgress mixedHash seen c finished (s.setByte p x) where
  read :=
    { shared :=
        { length := List.length_set.trans h.read.shared.length
          lowered := by
            intro q hq hmem
            change byteAt (s.read.shared.data.set p x) q = _
            rw [byteAt_set (by rw [h.read.shared.length]; exact hp)]
            by_cases hpq : p = q
            · subst hpq
              rw [if_pos rfl]
              exact hx hmem
            · rw [if_neg hpq]
              exact h.read.shared.lowered q hq hmem
          edges := h.read.shared.edges
          frequency := h.read.shared.frequency }
      good := h.read.good }
  frequency := h.frequency

/-- Seeking changes the stream of the thread only, and takes the bytes of the chunk out of it. -/
theorem TableProgress.seek {finished : List (Task threads)} {s : TableState threads}
    (h : TableProgress mixedHash seen c finished s) (task : Task threads) (hc : 0 < c)
    (hn : file.length < 2 ^ 31) (hk : task.1 < blockCount file.length c) :
    TableProgress mixedHash seen c finished (seekTask file c (blockCount file.length c) s task).1 ∧
      (seekTask file c (blockCount file.length c) s task).1.read.shared = s.read.shared ∧
      (seekTask file c (blockCount file.length c) s task).2 =
        (file.take (blockStop file.length c task.1)).drop (task.1 * c) := by
  have hn' : file.length < 2 ^ 63 := hn.trans (by decide)
  have hlt := start_lt_blockStop hc hk
  have hle : blockStop file.length c task.1 ≤ file.length := blockStop_le
  have hfits := chunkFits_of_lt hc hn hk
  have hbound : task.1 * c + (blockStop file.length c task.1 - task.1 * c) ≤ file.length := by omega
  obtain ⟨hread, hgood⟩ := IfStream.read_seekg (h.read.good task.2) file hbound
  unfold seekTask
  simp only [taskStart_eq hc hk hn', taskEnd_eq hc hk hn', sub64_blockStop hc hk hn',
    toInt32_of_lt hfits.1, toInt32_of_lt hfits.2, hread]
  refine ⟨⟨⟨h.read.shared, ?_⟩, h.frequency⟩, trivial, List.drop_take.symm⟩
  intro t
  change (Function.update s.read.file task.2 _ t).Good
  by_cases ht : t = task.2
  · subst ht
    rw [Function.update_self]
    exact hgood
  · rw [Function.update_of_ne ht]
    exact h.read.good t

/-! ### Counting a lowered chunk -/

theorem countChunk_chunkEdges (s : ChunkState) (startPos endPos chunkSize : ℕ) :
    (countChunk s startPos endPos chunkSize).chunkEdges =
      (processChunk s startPos endPos chunkSize).chunkEdges := by
  unfold countChunk processChunk
  simp only [funext (delimAt_lower s.data)]
  split
  · rfl
  · rfl

theorem countChunk_freqPerThread (s : ChunkState) (startPos endPos chunkSize : ℕ) :
    (countChunk s startPos endPos chunkSize).freqPerThread =
      countRanges s.data s.freqPerThread (innerRanges s.data startPos endPos) := by
  unfold countChunk innerRanges
  simp only [ne_eq, ite_not]
  split
  · rfl
  · exact wordLoop_countWord _ _ _ _

theorem countChunkTable_eq (data : Buffer) (freq : TableResult) (startPos endPos : ℕ) :
    countChunkTable mixedHash data freq startPos endPos =
      (innerRanges data startPos endPos).foldl
        (fun freq r => tableCountWord mixedHash data freq r.1 r.2) freq := by
  unfold countChunkTable innerRanges
  simp only [ne_eq, ite_not]
  split
  · rfl
  · exact foldRuns_eq_foldl _ _ _ _

theorem Lowered.loaded {k : ℕ} (h : Lowered seen c k seen.length data) : Loaded seen c k data := by
  intro q hq hin
  rw [h q hq hq hin, toLower_toLower]

/-- A lowered chunk has the words that it has in the lowered buffer. -/
theorem Lowered.slice_eq {k : ℕ} (h : Lowered seen c k seen.length data) (hc : 0 < c)
    (hk : k < blockCount seen.length c) (hlength : data.length = seen.length) {r : ℕ × ℕ}
    (hr : r ∈ innerRanges data (k * c) (blockStop seen.length c k)) :
    slice data r.1 r.2 = slice (lower data) r.1 r.2 := by
  have hsame : innerRanges data (k * c) (blockStop seen.length c k) = chunkRanges seen c k :=
    innerRanges_congr (Nat.le_of_lt (start_lt_blockStop hc hk)) fun _ => h.loaded.delimAt_eq hc
  rw [hsame] at hr
  have hword := (mem_innerRanges_iff hc hk).mp hr
  have hstart := hword.start_lt
  have hstop := hword.lt_stop
  have hle : blockStop seen.length c k ≤ seen.length := blockStop_le
  apply slice_congr
  intro i hi hie
  have hblock : k * c ≤ i ∧ i < blockStop seen.length c k := ⟨by omega, by omega⟩
  obtain ⟨hlt, hin⟩ := (mem_block_iff hc).mp hblock
  rw [getElem?_eq_some_byteAt (by omega), getElem?_eq_some_byteAt (by rw [length_lower]; omega),
    byteAt_lower, h i hlt hlt hin, toLower_toLower]

/-- Counting a lowered chunk does what processing it does, except that it leaves the buffer as it is. -/
theorem TableProgress.count {finished : List (Task threads)} {s : TableState threads}
    (h : TableProgress mixedHash seen c finished s) (task : Task threads) (hc : 0 < c)
    (hn : seen.length < 2 ^ 63) (hk : task.1 < blockCount seen.length c)
    (hnew : task.1 ∉ finished.map Prod.fst)
    (hlowered : Lowered seen c task.1 seen.length s.read.shared.data) :
    TableProgress mixedHash seen c (finished ++ [task])
      (countTask mixedHash seen c (blockCount seen.length c) s task) := by
  have hlength := h.read.shared.length
  have hprocess := h.process task hc hn hk hnew hlowered.loaded
  have hslices := fun r => hlowered.slice_eq (r := r) hc hk hlength
  have hcounted := countRanges_congr (length_lower s.read.shared.data).symm hslices
  have htexts := List.map_congr_left hslices
  unfold processTask Shared.processChunk at hprocess
  unfold countTask
  simp only [taskStart_eq hc hk hn, taskEnd_eq hc hk hn, countChunk_data] at hprocess ⊢
  refine ⟨⟨⟨hlength, ?_, ?_, ?_⟩, h.read.good⟩, ?_⟩
  · intro q hq hmem
    rw [List.map_append, List.mem_append] at hmem
    rcases hmem with hold | hown
    · exact h.read.shared.lowered q hq hold
    · exact hlowered q hq hq (List.mem_singleton.mp hown)
  · rw [countChunk_chunkEdges]
    exact hprocess.read.shared.edges
  · intro i
    rw [← hprocess.read.shared.frequency i, countChunk_freqPerThread, processChunk_freqPerThread]
    simp only [hcounted]
  · intro i
    rw [← hprocess.frequency i, countChunkTable_eq, processChunkTable_eq, foldl_tableCountWord,
      foldl_tableCountWord, texts, texts, htexts]

end

/-! ### Where the threads are -/

namespace TaskPc

/-- The thread has stored the byte at `q` of its chunk. -/
def Stored (c q : ℕ) : TaskPc → Prop
  | .entered => False
  | .copying task place _ => q / c = task ∧ q < place
  | .lowering task _ => q / c = task
  | .holding task _ _ => q / c = task

/-- The local variables of a thread are right for the buffer. -/
def Fits (file seen : Buffer) (c : ℕ) (data : Buffer) : TaskPc → Prop
  | .entered => True
  | .copying task place bytes =>
      task * c ≤ place ∧ bytes = (file.take (blockStop file.length c task)).drop place
  | .lowering task place => Lowered seen c task place data
  | .holding task place _ => Lowered seen c task place data

theorem Stored.task {c q : ℕ} {pc : TaskPc} (h : pc.Stored c q) : pc.task? = some (q / c) := by
  cases pc with
  | entered => cases h
  | copying task place bytes => exact congrArg some h.1.symm
  | lowering task place => exact congrArg some (Eq.symm h)
  | holding task place byte => exact congrArg some (Eq.symm h)

/-- A store leaves the other threads right, if it lowers what has been stored. -/
theorem Fits.set {file seen data : Buffer} {c p : ℕ} {x : UInt8} {pc : TaskPc}
    (h : pc.Fits file seen c data) (hp : p < data.length)
    (hx : pc.Stored c p → x = toLower (byteAt seen p)) : pc.Fits file seen c (data.set p x) := by
  cases pc with
  | entered => trivial
  | copying task place bytes => exact h
  | lowering task place => exact Lowered.set h hp fun hin _ => hx hin
  | holding task place byte => exact Lowered.set h hp fun hin _ => hx hin

end TaskPc

section

variable {threads c : ℕ} {file seen : Buffer} {mixedHash : Word → UInt64}

/-- The byte of the file has been stored in the buffer. -/
def Arrived (c : ℕ) (finished : List (Task threads)) (tasks : Fin threads → TaskPc) (q : ℕ) : Prop :=
  q / c ∈ finished.map Prod.fst ∨ ∃ index, (tasks index).Stored c q

theorem arrived_update {finished : List (Task threads)} {tasks : Fin threads → TaskPc}
    {index : Fin threads} {pc : TaskPc} {q : ℕ} {p : Prop}
    (h : pc.Stored c q ↔ (tasks index).Stored c q ∨ p) :
    Arrived c finished (Function.update tasks index pc) q ↔ Arrived c finished tasks q ∨ p := by
  unfold Arrived
  rw [or_assoc]
  refine or_congr_right ?_
  constructor
  · rintro ⟨i, hi⟩
    by_cases hsame : i = index
    · subst hsame
      rw [Function.update_self, h] at hi
      exact hi.imp_left fun hi => ⟨i, hi⟩
    · rw [Function.update_of_ne hsame] at hi
      exact Or.inl ⟨i, hi⟩
  · rintro (⟨i, hi⟩ | hp)
    · by_cases hsame : i = index
      · subst hsame
        exact ⟨i, by rw [Function.update_self]; exact h.mpr (Or.inl hi)⟩
      · exact ⟨i, by rw [Function.update_of_ne hsame]; exact hi⟩
    · exact ⟨index, by rw [Function.update_self]; exact h.mpr (Or.inr hp)⟩

/-- What has been done when the pool has finished the tasks `finished`, in this order. The threads see the
    bytes `seen`; where no byte has arrived yet and `stale` does not hold, that is the file. -/
structure ByteProgress (mixedHash : Word → UInt64) (file seen : Buffer) (c : ℕ) (stale : ℕ → Prop)
    (finished : List (Task threads)) (s : ByteState threads) : Prop where
  length : seen.length = file.length
  inv : ByteInv (blockCount file.length c) file s
  order : finished.map (fun task => (task.1, task.2.val)) = s.pool.finished
  tables : TableProgress mixedHash seen c finished s.tables
  fits : ∀ index, (s.tasks index).Fits file seen c s.tables.read.shared.data
  cells : ∀ q, q < seen.length → Arrived c finished s.tasks q →
    toLower (byteAt s.tables.read.shared.data q) = toLower (byteAt seen q)
  held : ∀ index task place byte, s.tasks index = .holding task place byte →
    Arrived c finished s.tasks place → toLower byte = toLower (byteAt seen place)
  agree : ∀ q, q < seen.length → ¬ Arrived c finished s.tasks q → ¬ stale q →
    byteAt file q = byteAt seen q

theorem byteProgress_init (mixedHash : Word → UInt64) (c threads : ℕ) (hlength : seen.length = file.length)
    {stale : ℕ → Prop} (hagree : ∀ q, q < seen.length → ¬ stale q → byteAt file q = byteAt seen q) :
    ByteProgress mixedHash file seen c stale []
      (ByteState.init mixedHash threads file.length c (blockCount file.length c)) where
  length := hlength
  inv := byteInv_init mixedHash threads c _ file
  order := rfl
  tables := by
    rw [← hlength]
    exact tableProgress_init mixedHash seen c threads
  fits := fun _ => trivial
  cells := by
    rintro q - (hmem | ⟨index, hstored⟩)
    · cases hmem
    · cases hstored
  held := fun _ _ _ _ h => nomatch h
  agree := fun q hq _ => hagree q hq

/-- No two threads run the same task. -/
theorem PoolInv.eq_of_running {chunks : ℕ} {s : PoolState} (h : PoolInv threads chunks s)
    {i j task : ℕ} (hi : ⟨i, .running task⟩ ∈ s.workers) (hj : ⟨j, .running task⟩ ∈ s.workers) : i = j := by
  have hperm := h.logged.started
  have hnodup := ((hperm.map Prod.fst).nodup_iff).mp h.started_nodup
  rw [List.map_append] at hnodup
  have hi' : (task, i) ∈ s.running := List.mem_filterMap.mpr ⟨_, hi, rfl⟩
  have hj' : (task, j) ∈ s.running := List.mem_filterMap.mpr ⟨_, hj, rfl⟩
  have hsame := List.inj_on_of_nodup_map (List.Nodup.of_append_right hnodup) hi' hj' rfl
  exact congrArg Prod.snd hsame

namespace ByteProgress

variable {stale : ℕ → Prop} {finished : List (Task threads)} {s t : ByteState threads}

theorem map_fst (h : ByteProgress mixedHash file seen c stale finished s) :
    finished.map Prod.fst = s.pool.finished.map Prod.fst := by
  rw [← h.order, List.map_map]
  rfl

theorem data_length (h : ByteProgress mixedHash file seen c stale finished s) :
    s.tables.read.shared.data.length = seen.length := h.tables.read.shared.length

/-- The task of a running thread is one of the enqueued ones and was not finished before. -/
theorem task_of_running (h : ByteProgress mixedHash file seen c stale finished s) {index task : ℕ}
    (hw : ⟨index, .running task⟩ ∈ s.pool.workers) :
    task < blockCount file.length c ∧ task ∉ finished.map Prod.fst := by
  rw [h.map_fst]
  exact h.inv.pool.task_of_running hw

/-- A thread goes on without storing anything. -/
theorem advance (h : ByteProgress mixedHash file seen c stale finished s) {index : Fin threads} {pc : TaskPc}
    {tables : TableState threads}
    (hinv : ByteInv (blockCount file.length c) file
      { s with
        tables := tables
        tasks := Function.update s.tasks index pc })
    (htables : TableProgress mixedHash seen c finished tables)
    (hdata : tables.read.shared.data = s.tables.read.shared.data)
    (hstored : ∀ q, q < seen.length → (pc.Stored c q ↔ (s.tasks index).Stored c q))
    (hfits : pc.Fits file seen c s.tables.read.shared.data)
    (hheld : ∀ task place byte, pc = .holding task place byte → Arrived c finished s.tasks place →
      toLower byte = toLower (byteAt seen place)) :
    ByteProgress mixedHash file seen c stale finished
      { s with
        tables := tables
        tasks := Function.update s.tasks index pc } := by
  have harrived : ∀ q, q < seen.length →
      (Arrived c finished (Function.update s.tasks index pc) q ↔ Arrived c finished s.tasks q) := by
    intro q hq
    rw [arrived_update (p := False) (by rw [or_false]; exact hstored q hq), or_false]
  refine ⟨h.length, hinv, h.order, htables, ?_, ?_, ?_, ?_⟩
  · intro i
    change (Function.update s.tasks index pc i).Fits file seen c tables.read.shared.data
    rw [hdata]
    by_cases hsame : i = index
    · subst hsame
      rw [Function.update_self]
      exact hfits
    · rw [Function.update_of_ne hsame]
      exact h.fits i
  · intro q hq hmem
    change toLower (byteAt tables.read.shared.data q) = _
    rw [hdata]
    exact h.cells q hq ((harrived q hq).mp hmem)
  · intro i task place byte hi hmem
    change Function.update s.tasks index pc i = _ at hi
    have hplace : place < seen.length := h.length ▸ hinv.places i task place byte hi
    have hmem' := (harrived place hplace).mp hmem
    by_cases hsame : i = index
    · subst hsame
      rw [Function.update_self] at hi
      exact hheld task place byte hi hmem'
    · rw [Function.update_of_ne hsame] at hi
      exact h.held i task place byte hi hmem'
  · intro q hq hmem
    exact h.agree q hq fun hmem' => hmem ((harrived q hq).mpr hmem')

/-- A thread stores a byte, with which a byte of the file may arrive. -/
theorem write (h : ByteProgress mixedHash file seen c stale finished s) (arrives : Prop)
    {index : Fin threads} {pc : TaskPc} {p : ℕ} {x : UInt8} {stale' : ℕ → Prop}
    (hinv : ByteInv (blockCount file.length c) file
      { s with
        tables := s.tables.setByte p x
        tasks := Function.update s.tasks index pc })
    (hp : p < seen.length)
    (hstored : ∀ q, pc.Stored c q ↔ (s.tasks index).Stored c q ∨ q = p ∧ arrives)
    (hfits : pc.Fits file seen c (s.tables.read.shared.data.set p x))
    (hpc : ∀ task place byte, pc ≠ .holding task place byte)
    (hbyte : Arrived c finished s.tasks p ∨ arrives → toLower x = toLower (byteAt seen p))
    (hlow : Arrived c finished s.tasks p → x = toLower (byteAt seen p))
    (hothers : arrives → ∀ i ≠ index, ∀ task byte, s.tasks i = .holding task p byte →
      toLower byte = toLower (byteAt seen p))
    (hstale : ∀ q, ¬ stale' q → stale q → q = p ∧ arrives) :
    ByteProgress mixedHash file seen c stale' finished
      { s with
        tables := s.tables.setByte p x
        tasks := Function.update s.tasks index pc } := by
  have hp' : p < s.tables.read.shared.data.length := by rw [h.data_length]; exact hp
  have harrived : ∀ q, Arrived c finished (Function.update s.tasks index pc) q ↔
      Arrived c finished s.tasks q ∨ q = p ∧ arrives := fun q => arrived_update (hstored q)
  refine ⟨h.length, hinv, h.order, ?_, ?_, ?_, ?_, ?_⟩
  · exact h.tables.setByte hp fun hmem => hlow (Or.inl hmem)
  · intro i
    change (Function.update s.tasks index pc i).Fits file seen c (s.tables.read.shared.data.set p x)
    by_cases hsame : i = index
    · subst hsame
      rw [Function.update_self]
      exact hfits
    · rw [Function.update_of_ne hsame]
      exact (h.fits i).set hp' fun hi => hlow (Or.inr ⟨i, hi⟩)
  · intro q hq hmem
    change toLower (byteAt (s.tables.read.shared.data.set p x) q) = _
    rw [byteAt_set hp']
    have hmem' := (harrived q).mp hmem
    by_cases hpq : p = q
    · subst hpq
      rw [if_pos rfl]
      exact hbyte (hmem'.imp_right And.right)
    · rw [if_neg hpq]
      exact h.cells q hq (hmem'.resolve_right fun hq => hpq hq.1.symm)
  · intro i task place byte hi hmem
    change Function.update s.tasks index pc i = _ at hi
    by_cases hsame : i = index
    · subst hsame
      rw [Function.update_self] at hi
      exact absurd hi (hpc task place byte)
    · rw [Function.update_of_ne hsame] at hi
      rcases (harrived place).mp hmem with hold | ⟨rfl, hnew⟩
      · exact h.held i task place byte hi hold
      · exact hothers hnew i hsame task byte hi
  · intro q hq hmem hstale'
    have hmem' : ¬ (Arrived c finished s.tasks q ∨ q = p ∧ arrives) := fun hq => hmem ((harrived q).mpr hq)
    push Not at hmem'
    exact h.agree q hq hmem'.1 fun hs => hmem'.2 (hstale q hstale' hs).1 (hstale q hstale' hs).2

/-! ### The steps -/

theorem poolStep (h : ByteProgress mixedHash file seen c stale finished s) (hthreads : 1 ≤ threads)
    {label : PoolLabel} {pool : PoolState} (hlabel : ∀ index, label ≠ .finish index)
    (hstep : PoolStep threads (blockCount file.length c) s.pool label pool) :
    ByteProgress mixedHash file seen c stale finished { s with pool := pool } where
  length := h.length
  inv := h.inv.poolStep hthreads hlabel hstep
  order := h.order.trans (hstep.finished_eq hlabel).symm
  tables := h.tables
  fits := h.fits
  cells := h.cells
  held := h.held
  agree := h.agree

theorem seek (h : ByteProgress mixedHash file seen c stale finished s) (hc : 0 < c)
    (hn : file.length < 2 ^ 31) {index : Fin threads} {task : ℕ}
    (hw : ⟨index.val, .running task⟩ ∈ s.pool.workers) (hentered : s.tasks index = .entered) :
    ByteProgress mixedHash file seen c stale finished
      { s with
        tables := (seekTask file c (blockCount file.length c) s.tables (task, index)).1
        tasks := Function.update s.tasks index (.copying task (taskStart c task)
          (seekTask file c (blockCount file.length c) s.tables (task, index)).2) } := by
  obtain ⟨hk, -⟩ := h.task_of_running hw
  obtain ⟨htables, hshared, hbytes⟩ := h.tables.seek (task, index) hc hn hk
  have hstart := taskStart_eq hc hk (hn.trans (by decide))
  apply h.advance _ htables (congrArg Shared.data hshared)
  · -- Nothing of the chunk is stored yet.
    intro q _
    rw [hentered, hstart]
    change q / c = task ∧ q < task * c ↔ False
    rw [iff_false, not_and, not_lt]
    intro hin
    exact hin ▸ Nat.div_mul_le_self q c
  · exact ⟨hstart.ge, by rw [hbytes, hstart]⟩
  · exact fun _ _ _ heq => nomatch heq
  · apply h.inv.advance (hshared ▸ h.inv.length)
    · rintro other ⟨⟩
      exact hw
    · exact fun _ _ _ heq => nomatch heq

/-- Where the next byte of a read goes. -/
theorem copy_place (h : ByteProgress mixedHash file seen c stale finished s) (hc : 0 < c)
    {index : Fin threads} {task place : ℕ} {byte : UInt8} {bytes : Buffer}
    (hpc : s.tasks index = .copying task place (byte :: bytes)) :
    place < seen.length ∧ place / c = task ∧ byte = byteAt file place ∧
      bytes = (file.take (blockStop file.length c task)).drop (place + 1) ∧
      ¬ Arrived c finished s.tasks place := by
  have hw := h.inv.running index task (by rw [hpc]; rfl)
  obtain ⟨hk, hnew⟩ := h.task_of_running hw
  have hfits := h.fits index
  rw [hpc] at hfits
  obtain ⟨hlow, hbytes⟩ := hfits
  have hle : blockStop file.length c task ≤ file.length := blockStop_le
  have hlt : place < (file.take (blockStop file.length c task)).length := by
    apply Nat.lt_of_not_le
    intro hle
    rw [List.drop_eq_nil_of_le hle] at hbytes
    cases hbytes
  rw [List.drop_eq_getElem_cons hlt] at hbytes
  obtain ⟨hbyte, hrest⟩ := List.cons.inj hbytes
  rw [List.length_take] at hlt
  have hblock : task * c ≤ place ∧ place < blockStop file.length c task := ⟨hlow, by omega⟩
  obtain ⟨hplace, hin⟩ := (mem_block_iff hc).mp hblock
  refine ⟨h.length ▸ hplace, hin, ?_, hrest, ?_⟩
  · rw [hbyte, List.getElem_take, byteAt, List.getElem?_eq_getElem hplace, Option.getD_some]
  · rintro (hmem | ⟨i, hi⟩)
    · exact hnew (hin ▸ hmem)
    · -- Only this thread runs the task, and it has not stored the byte.
      have hother := h.inv.running i task (hin ▸ hi.task)
      obtain rfl := Fin.ext (h.inv.pool.eq_of_running hother hw)
      rw [hpc] at hi
      exact absurd hi.2 (Nat.lt_irrefl place)

/-- A byte arrives as one that the threads may see there, as long as no other thread holds another one. -/
theorem copyAs (h : ByteProgress mixedHash file seen c stale finished s) (hc : 0 < c)
    {index : Fin threads} {task place : ℕ} {byte x : UInt8} {bytes : Buffer} {stale' : ℕ → Prop}
    (hpc : s.tasks index = .copying task place (byte :: bytes))
    (hx : toLower x = toLower (byteAt seen place))
    (hothers : ∀ i ≠ index, ∀ task byte, s.tasks i = .holding task place byte →
      toLower byte = toLower (byteAt seen place))
    (hstale : ∀ q, ¬ stale' q → stale q → q = place) :
    ByteProgress mixedHash file seen c stale' finished
      { s with
        tables := s.tables.setByte place x
        tasks := Function.update s.tasks index (.copying task (place + 1) bytes) } := by
  obtain ⟨hplace, hin, -, hbytes, hnew⟩ := h.copy_place hc hpc
  have hfits := h.fits index
  rw [hpc] at hfits
  apply h.write True _ hplace
  · intro q
    rw [hpc]
    change q / c = task ∧ q < place + 1 ↔ (q / c = task ∧ q < place) ∨ q = place ∧ True
    constructor
    · rintro ⟨hq, hlt⟩
      rcases Nat.lt_succ_iff_lt_or_eq.mp hlt with hlt | heq
      · exact Or.inl ⟨hq, hlt⟩
      · exact Or.inr ⟨heq, trivial⟩
    · rintro (⟨hq, hlt⟩ | ⟨rfl, -⟩)
      · exact ⟨hq, Nat.lt_succ_of_lt hlt⟩
      · exact ⟨hin, Nat.lt_succ_self q⟩
  · exact ⟨Nat.le_succ_of_le hfits.1, hbytes⟩
  · exact fun _ _ _ heq => nomatch heq
  · exact fun _ => hx
  · exact fun hold => absurd hold hnew
  · exact fun _ => hothers
  · exact fun q hq hs => ⟨hstale q hq hs, trivial⟩
  · exact h.inv.goOn (List.length_set.trans h.inv.length) (by rw [hpc]; rfl) fun _ _ _ heq => nomatch heq

theorem copy (h : ByteProgress mixedHash file seen c stale finished s) (hc : 0 < c)
    {index : Fin threads} {task place : ℕ} {byte : UInt8} {bytes : Buffer}
    (hpc : s.tasks index = .copying task place (byte :: bytes)) (hfree : s.Free place)
    (hstale : ¬ stale place) :
    ByteProgress mixedHash file seen c stale finished
      { s with
        tables := s.tables.setByte place byte
        tasks := Function.update s.tasks index (.copying task (place + 1) bytes) } := by
  obtain ⟨hplace, -, hbyte, -, hnew⟩ := h.copy_place hc hpc
  apply h.copyAs hc hpc
  · rw [hbyte, h.agree place hplace hnew hstale]
  · exact fun i _ task byte hi => absurd hi (hfree i task byte)
  · exact fun q hq hs => absurd hs hq

theorem copied (h : ByteProgress mixedHash file seen c stale finished s) (hc : 0 < c)
    {index : Fin threads} {task place : ℕ} (hpc : s.tasks index = .copying task place []) :
    ByteProgress mixedHash file seen c stale finished
      { s with tasks := Function.update s.tasks index (.lowering task 0) } := by
  have hfits := h.fits index
  rw [hpc] at hfits
  have hw := h.inv.running index task (by rw [hpc]; rfl)
  obtain ⟨hk, -⟩ := h.task_of_running hw
  apply h.advance _ h.tables rfl
  · -- The whole chunk is stored.
    intro q hq
    rw [hpc]
    change q / c = task ↔ q / c = task ∧ q < place
    refine ⟨?_, And.left⟩
    intro hin
    have hend := List.drop_eq_nil_iff.mp hfits.2.symm
    have hle : blockStop file.length c task ≤ file.length := blockStop_le
    rw [List.length_take, Nat.min_eq_left hle] at hend
    have hblock := (mem_block_iff hc).mpr ⟨h.length ▸ hq, hin⟩
    exact ⟨hin, hblock.2.trans_le hend⟩
  · exact fun q _ hlt _ => absurd hlt (Nat.not_lt_zero q)
  · exact fun _ _ _ heq => nomatch heq
  · exact h.inv.goOn h.inv.length (by rw [hpc]; rfl) fun _ _ _ heq => nomatch heq

theorem load (h : ByteProgress mixedHash file seen c stale finished s) {index : Fin threads}
    {task place : ℕ} (hpc : s.tasks index = .lowering task place)
    (hplace : place < s.tables.read.shared.data.length) :
    ByteProgress mixedHash file seen c stale finished
      { s with
        tasks := Function.update s.tasks index
          (.holding task place (byteAt s.tables.read.shared.data place)) } := by
  have hfits := h.fits index
  rw [hpc] at hfits
  rw [h.inv.length] at hplace
  apply h.advance _ h.tables rfl
  · intro q _
    rw [hpc]
    rfl
  · exact hfits
  · rintro task' place' byte ⟨⟩ hmem
    exact h.cells place (h.length ▸ hplace) hmem
  · apply h.inv.goOn h.inv.length (by rw [hpc]; rfl)
    rintro task' place' byte ⟨⟩
    exact hplace

theorem store (h : ByteProgress mixedHash file seen c stale finished s) {index : Fin threads}
    {task place : ℕ} {byte : UInt8} (hpc : s.tasks index = .holding task place byte) :
    ByteProgress mixedHash file seen c stale finished
      { s with
        tables := s.tables.setByte place (toLower byte)
        tasks := Function.update s.tasks index (.lowering task (place + 1)) } := by
  have hfits := h.fits index
  rw [hpc] at hfits
  have hplace : place < seen.length := h.length ▸ h.inv.places index task place byte hpc
  have hplace' : place < s.tables.read.shared.data.length := by rw [h.data_length]; exact hplace
  have hheld := h.held index task place byte hpc
  apply h.write False _ hplace
  · intro q
    rw [hpc, and_false, or_false]
    rfl
  · intro q hq hlt hin
    rw [byteAt_set hplace']
    by_cases hpq : place = q
    · subst hpq
      rw [if_pos rfl]
      exact hheld (Or.inr ⟨index, by rw [hpc]; exact hin⟩)
    · rw [if_neg hpq]
      exact hfits q hq (by omega) hin
  · exact fun _ _ _ heq => nomatch heq
  · rintro (hmem | hfalse)
    · rw [toLower_toLower]
      exact hheld hmem
    · exact hfalse.elim
  · exact hheld
  · exact fun hfalse => hfalse.elim
  · exact fun q hq hs => absurd hs hq
  · exact h.inv.goOn (List.length_set.trans h.inv.length) (by rw [hpc]; rfl) fun _ _ _ heq => nomatch heq

theorem count (h : ByteProgress mixedHash file seen c stale finished s) (hthreads : 1 ≤ threads)
    (hc : 0 < c) (hn : file.length < 2 ^ 31) {index : Fin threads} {task place : ℕ} {workers : List Worker}
    (hpc : s.tasks index = .lowering task place) (hplace : ¬ place < s.tables.read.shared.data.length)
    (hreplace : Replaces ⟨index.val, .running task⟩ ⟨index.val, .checking⟩ s.pool.workers workers) :
    ByteProgress mixedHash file seen c stale (finished ++ [(task, index)])
      { pool := { s.pool with
          workers := workers
          finished := s.pool.finished ++ [(task, index.val)] }
        tables := countTask mixedHash file c (blockCount file.length c) s.tables (task, index)
        tasks := Function.update s.tasks index .entered } := by
  have hfits := h.fits index
  rw [hpc] at hfits
  rw [h.data_length] at hplace
  obtain ⟨hk, hnew⟩ := h.task_of_running hreplace.mem_left
  have hlowered : Lowered seen c task seen.length s.tables.read.shared.data :=
    fun q hq _ hin => hfits q hq (by omega) hin
  have htables : TableProgress mixedHash seen c (finished ++ [(task, index)])
      (countTask mixedHash file c (blockCount file.length c) s.tables (task, index)) := by
    have hcount := h.tables.count (task, index) hc (by rw [h.length]; exact hn.trans (by decide))
      (by rw [h.length]; exact hk) hnew hlowered
    unfold countTask at hcount ⊢
    rw [h.length] at hcount
    exact hcount
  -- The task of the thread is finished instead of stored.
  have harrived : ∀ q, Arrived c (finished ++ [(task, index)]) (Function.update s.tasks index .entered) q ↔
      Arrived c finished s.tasks q := by
    intro q
    unfold Arrived
    rw [List.map_append, List.mem_append, List.map_singleton, List.mem_singleton]
    constructor
    · rintro ((hold | hown) | ⟨i, hi⟩)
      · exact Or.inl hold
      · exact Or.inr ⟨index, by rw [hpc]; exact hown⟩
      · by_cases hsame : i = index
        · subst hsame
          rw [Function.update_self] at hi
          cases hi
        · rw [Function.update_of_ne hsame] at hi
          exact Or.inr ⟨i, hi⟩
    · rintro (hold | ⟨i, hi⟩)
      · exact Or.inl (Or.inl hold)
      · by_cases hsame : i = index
        · subst hsame
          rw [hpc] at hi
          exact Or.inl (Or.inr hi)
        · exact Or.inr ⟨i, by rw [Function.update_of_ne hsame]; exact hi⟩
  refine ⟨h.length, ?_, ?_, htables, ?_, ?_, ?_, ?_⟩
  · exact h.inv.finish hthreads (by rw [countTask_data]; exact h.inv.length) hreplace
  · rw [List.map_append, h.order]
    rfl
  · intro i
    change (Function.update s.tasks index .entered i).Fits file seen c (countTask _ _ _ _ _ _).read.shared.data
    rw [countTask_data]
    by_cases hsame : i = index
    · subst hsame
      rw [Function.update_self]
      trivial
    · rw [Function.update_of_ne hsame]
      exact h.fits i
  · intro q hq hmem
    change toLower (byteAt (countTask _ _ _ _ _ _).read.shared.data q) = _
    rw [countTask_data]
    exact h.cells q hq ((harrived q).mp hmem)
  · intro i other p byte hi hmem
    change Function.update s.tasks index .entered i = _ at hi
    by_cases hsame : i = index
    · subst hsame
      rw [Function.update_self] at hi
      cases hi
    · rw [Function.update_of_ne hsame] at hi
      exact h.held i other p byte hi ((harrived p).mp hmem)
  · intro q hq hmem
    exact h.agree q hq fun hmem' => hmem ((harrived q).mpr hmem')

/-- Every step in which no byte arrives where another one is held extends the finished tasks by the task
    that it finishes, if any. -/
theorem step (h : ByteProgress mixedHash file seen c stale finished s) (hthreads : 1 ≤ threads) (hc : 0 < c)
    (hn : file.length < 2 ^ 31) {label : ByteLabel}
    (hstep : UnheldStep mixedHash file c (blockCount file.length c) s label t)
    (hstale : ∀ index place, label = .copy index place → ¬ stale place) :
    ∃ finished', ByteProgress mixedHash file seen c stale finished' t := by
  obtain ⟨hstep, hfree⟩ := hstep
  cases hstep with
  | pool hlabel hstep => exact ⟨finished, h.poolStep hthreads hlabel hstep⟩
  | seek index hw hentered => exact ⟨finished, h.seek hc hn hw hentered⟩
  | copy index hpc => exact ⟨finished, h.copy hc hpc (hfree _ _ rfl) (hstale _ _ rfl)⟩
  | copied index hpc => exact ⟨finished, h.copied hc hpc⟩
  | load index hpc hplace => exact ⟨finished, h.load hpc hplace⟩
  | store index hpc => exact ⟨finished, h.store hpc⟩
  | count index hpc hplace hreplace => exact ⟨_, h.count hthreads hc hn hpc hplace hreplace⟩

theorem run {labels : List ByteLabel} (h : ByteProgress mixedHash file seen c (fun _ => False) finished s)
    (hthreads : 1 ≤ threads) (hc : 0 < c) (hn : file.length < 2 ^ 31)
    (hrun : Run (UnheldStep mixedHash file c (blockCount file.length c)) s labels t) :
    ∃ finished', ByteProgress mixedHash file seen c (fun _ => False) finished' t := by
  apply hrun.preserves (p := fun t => ∃ finished', ByteProgress mixedHash file seen c _ finished' t)
  · rintro s label t ⟨finished, h⟩ hstep
    exact h.step hthreads hc hn hstep fun _ _ _ hfalse => hfalse
  · exact ⟨finished, h⟩

/-- Once the destructor has joined the threads, the finished tasks are a schedule. -/
theorem exists_schedule (h : ByteProgress mixedHash file seen c stale finished s) (hthreads : 1 ≤ threads)
    (hjoined : s.pool.main = .joined) :
    ∃ schedule : Schedule (blockCount seen.length c) threads, schedule.order = finished := by
  have hall := (h.inv.pool.finished_perm hthreads hjoined).2
  rw [← h.map_fst, ← h.length] at hall
  exact ⟨⟨finished, hall⟩, rfl⟩

/-- What is then in the shared variables is what a sequential run on the bytes seen leaves there. -/
theorem blockingRead_eq {config : FreqConfig} {s : ByteState config.processorCount}
    {finished : List (Task config.processorCount)}
    (h : ByteProgress mixedHash file seen c stale finished s) (hP : 1 ≤ config.diskPageSize)
    (hN : 1 ≤ config.processorCount) (hn : file.length < 2 ^ 31)
    (hchunk : c = chunkSizeOf config seen.length) (hjoined : s.pool.main = .joined) :
    blockingRead config seen finished = .ok s.tables.read.shared := by
  obtain ⟨schedule, rfl⟩ := h.exists_schedule hN hjoined
  rw [← h.length] at hn
  subst hchunk
  have hc := chunkSizeOf_pos hP seen.length
  obtain ⟨shared, hsequential, hprogress⟩ := blockingRead_spec hP hN (hn.trans (by decide))
    (fun k hk => chunkFits_of_lt hc hn hk) schedule
  rw [hsequential, hprogress.unique hc schedule.perm h.tables.read.shared]

theorem completeRun (h : ByteProgress mixedHash file seen c stale finished s) (hthreads : 1 ≤ threads)
    (hjoined : s.pool.main = .joined) :
    CompleteRun mixedHash seen c (c / 5) s.tables.read.shared s.tables.frequency := by
  obtain ⟨schedule, rfl⟩ := h.exists_schedule hthreads hjoined
  exact ⟨schedule, h.tables.read.shared, h.tables.frequency⟩

/-- Some thread can go on without storing a byte of the file where another one is held. -/
theorem exists_unheld_step (h : ByteProgress mixedHash file seen c stale finished s)
    (hjoined : s.pool.main ≠ .joined) :
    ∃ label t, label.isSpurious = false ∧
      UnheldStep mixedHash file c (blockCount file.length c) s label t := by
  by_cases hheld : ∃ index task place byte, s.tasks index = .holding task place byte
  · -- The store of a byte that is held does not wait for anything.
    obtain ⟨index, task, place, byte, hpc⟩ := hheld
    exact ⟨_, _, rfl, .store index hpc, fun _ _ => ByteLabel.noConfusion⟩
  · push Not at hheld
    obtain ⟨label, t, hspurious, hstep⟩ : ∃ label t, label.isSpurious = false ∧
        ByteStep mixedHash file c (blockCount file.length c) s label t := h.inv.exists_step hjoined
    exact ⟨label, t, hspurious, hstep, fun _ place _ index task byte => hheld index task place byte⟩

/-- So such a run can be completed. -/
theorem exists_complete (h : ByteProgress mixedHash file seen c (fun _ => False) finished s)
    (hthreads : 1 ≤ threads) (hc : 0 < c) (hn : file.length < 2 ^ 31) :
    ∃ t finished', Leads (UnheldStep mixedHash file c (blockCount file.length c)) s t ∧
      ByteProgress mixedHash file seen c (fun _ => False) finished' t ∧ t.pool.main = .joined := by
  have hstep : ∀ s : ByteState threads,
      (∃ finished, ByteProgress mixedHash file seen c (fun _ => False) finished s) →
      s.remaining (blockCount file.length c) file ≠ 0 →
      ∃ t, Leads (UnheldStep mixedHash file c (blockCount file.length c)) s t ∧
        (∃ finished, ByteProgress mixedHash file seen c (fun _ => False) finished t) ∧
        t.remaining (blockCount file.length c) file < s.remaining (blockCount file.length c) file := by
    rintro s ⟨finished, h⟩ hremaining
    have hjoined : s.pool.main ≠ .joined := fun hjoined => hremaining (if_pos hjoined)
    obtain ⟨label, t, hspurious, hstep⟩ := h.exists_unheld_step hjoined
    have hpaid := h.inv.left_step hstep.1
    rw [hspurious, if_neg Bool.false_ne_true] at hpaid
    exact ⟨t, .single hstep, h.step hthreads hc hn hstep fun _ _ _ hfalse => hfalse,
      ByteState.remaining_lt hjoined hpaid⟩
  obtain ⟨t, hlead, ⟨finished', ht⟩, hzero⟩ := Leads.of_measure _ hstep ⟨finished, h⟩
  exact ⟨t, finished', hlead, ht, ByteState.joined_of_remaining hzero⟩

end ByteProgress

end

/-- For every file below 2^31 bytes, every machine and every hash function, in every run in which the
    accesses of the threads to the buffer interleave byte by byte and no byte of the file arrives while
    another thread holds the old one: what a thread has lowered of its chunk stays as it is, and after the
    destructor has joined the threads the shared variables are those of the sequential run of the tasks in
    the order in which they were finished. -/
theorem unheld_runs_are_sequential (mixedHash : Word → UInt64) (config : FreqConfig) (file : Buffer)
    (hP : 1 ≤ config.diskPageSize) (hN : 1 ≤ config.processorCount) (hn : file.length < 2 ^ 31) :
    ∃ chunkSize chunks, planChunks config file.length = .ok (chunkSize, chunks) ∧
      ∀ labels s, Run (UnheldStep mixedHash file chunkSize chunks)
          (ByteState.init mixedHash config.processorCount file.length chunkSize chunks) labels s →
        (∀ index task place, s.tasks index = .lowering task place →
          Lowered file chunkSize task place s.tables.read.shared.data) ∧
        (s.pool.main = .joined → ∃ order : List (Task config.processorCount),
          order.map (fun task => (task.1, task.2.val)) = s.pool.finished ∧
          (order.map Prod.fst).Perm (List.range chunks) ∧
          blockingRead config file order = .ok s.tables.read.shared) := by
  have hc := chunkSizeOf_pos hP file.length
  refine ⟨_, _, planChunks_eq hP hN (hn.trans (by decide)), ?_⟩
  intro labels s hrun
  obtain ⟨finished, h⟩ := (byteProgress_init mixedHash _ config.processorCount rfl
    fun _ _ _ => rfl).run hN hc hn hrun
  refine ⟨?_, ?_⟩
  · intro index task place hpc
    have hfits := h.fits index
    rw [hpc] at hfits
    exact hfits
  · intro hjoined
    have hall := (h.inv.pool.finished_perm hN hjoined).2
    rw [← h.map_fst] at hall
    exact ⟨finished, h.order, hall, h.blockingRead_eq hP hN hn rfl hjoined⟩

/-- Some run of that kind is complete. -/
theorem exists_complete_unheld_run (mixedHash : Word → UInt64) {config : FreqConfig} {file : Buffer}
    (hP : 1 ≤ config.diskPageSize) (hN : 1 ≤ config.processorCount) (hn : file.length < 2 ^ 31)
    {chunkSize chunks : ℕ} (hplan : planChunks config file.length = .ok (chunkSize, chunks)) :
    ∃ labels s, Run (UnheldStep mixedHash file chunkSize chunks)
      (ByteState.init mixedHash config.processorCount file.length chunkSize chunks) labels s ∧
      s.pool.main = .joined := by
  cases Except.ok.inj (hplan.symm.trans (planChunks_eq hP hN (hn.trans (by decide))))
  obtain ⟨s, -, ⟨labels, hrun⟩, -, hjoined⟩ := (byteProgress_init mixedHash _ config.processorCount rfl
    fun _ _ _ => rfl).exists_complete hN (chunkSizeOf_pos hP file.length) hn
  exact ⟨labels, s, hrun, hjoined⟩

/-- `ab` on two threads. -/
theorem unheld_runs_are_sequential_ab :
    ∃ s : ByteState 2, ∃ order : List (Task 2),
      s.pool.main = .joined ∧ (order.map Prod.fst).Perm (List.range 2) ∧
        blockingRead ⟨2, 1, by decide, by decide⟩ [0x61, 0x62] order = .ok s.tables.read.shared := by
  obtain ⟨chunkSize, chunks, hplan, hruns⟩ := unheld_runs_are_sequential (fun _ => 0)
    ⟨2, 1, by decide, by decide⟩ [0x61, 0x62] (by decide) (by decide) (by decide)
  obtain ⟨labels, s, hrun, hjoined⟩ :=
    exists_complete_unheld_run (fun _ => 0) (by decide) (by decide) (by decide) hplan
  have hone : planChunks ⟨2, 1, by decide, by decide⟩ 2 = .ok (1, 2) := rfl
  cases Except.ok.inj (hplan.symm.trans hone)
  obtain ⟨order, -, hall, hsequential⟩ := (hruns labels s hrun).2 hjoined
  exact ⟨s, order, hjoined, hall, hsequential⟩

/-! ### The bytes that are written -/

/-- For every non-empty file below 2^31 bytes with at most 2^24 - 3 different words and every machine with
    pages of at most 2^31 bytes: a complete run in which no byte arrives while another thread holds the old
    one writes the bytes that are written when reads and `process_chunk` calls are single steps. -/
theorem unheld_output_is_pooled_output (config : FreqConfig) (file : Buffer)
    (hP : 1 ≤ config.diskPageSize) (hN : 1 ≤ config.processorCount)
    (hpage : config.diskPageSize ≤ 2 ^ 31) (hn : 1 ≤ file.length) (hn' : file.length < 2 ^ 31)
    (hwords : (dummyCount file).keys.card + 3 ≤ 2 ^ 24) :
    ∃ chunkSize chunks, planChunks config file.length = .ok (chunkSize, chunks) ∧
      ∀ mixedHash mixedHash' stdSort stdSort' labels labels' s s',
        Run (UnheldStep mixedHash file chunkSize chunks)
          (ByteState.init mixedHash config.processorCount file.length chunkSize chunks) labels s →
        Run (PooledStep mixedHash' file chunkSize chunks)
          (PooledState.init mixedHash' config.processorCount file.length chunkSize chunks) labels' s' →
        s.pool.main = .joined → s'.pool.main = .joined →
        output stdSort (tablesResult mixedHash s.tables.read.shared s.tables.frequency) =
          output stdSort' (tablesResult mixedHash' s'.tables.read.shared s'.tables.frequency) := by
  have hc := chunkSizeOf_pos hP file.length
  refine ⟨_, _, planChunks_eq hP hN (hn'.trans (by decide)), ?_⟩
  intro mixedHash mixedHash' stdSort stdSort' labels labels' s s' hrun hrun' hjoined hjoined'
  obtain ⟨finished, h⟩ := (byteProgress_init mixedHash _ config.processorCount rfl
    fun _ _ _ => rfl).run hN hc hn' hrun
  obtain ⟨finished', h'⟩ := PooledProgress.run hN hc hn' hrun'
  have hmoderate := moderate_chunkSizeOf hpage hn hn' hwords
  exact (h.completeRun hN hjoined).output_congr (h'.completeRun hN hjoined') hc hmoderate hmoderate
    stdSort stdSort'

/-- `ab` on two threads with two hash functions. -/
theorem unheld_output_is_pooled_output_ab :
    ∃ (s : ByteState 2) (s' : PooledState 2),
      output mergeSort (tablesResult (fun _ => 0) s.tables.read.shared s.tables.frequency) =
        output mergeSort (tablesResult (fun w => w.length.toUInt64) s'.tables.read.shared
          s'.tables.frequency) := by
  obtain ⟨chunkSize, chunks, hplan, hruns⟩ := unheld_output_is_pooled_output
    ⟨2, 1, by decide, by decide⟩ [0x61, 0x62] (by decide) (by decide) (by decide) (by decide) (by decide)
    (by decide +kernel)
  obtain ⟨labels, s, hrun, hjoined⟩ :=
    exists_complete_unheld_run (fun _ => 0) (by decide) (by decide) (by decide) hplan
  have hone : planChunks ⟨2, 1, by decide, by decide⟩ 2 = .ok (1, 2) := rfl
  cases Except.ok.inj (hplan.symm.trans hone)
  obtain ⟨s', hrun', hjoined', -⟩ := exists_interleaved_run fun w => w.length.toUInt64
  exact ⟨s, s', hruns _ _ mergeSort mergeSort _ _ s s' hrun hrun' hjoined hjoined'⟩

end FreqUtility
