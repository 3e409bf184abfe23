/-
Module: FreqUtility.Proofs.LostByte
Layer: Proofs
Purpose: The condition on the byte steps is needed. `process_chunk` lowers the whole buffer, so the thread of
  another chunk may load a byte before the file's byte arrives there and store it afterwards. With two
  threads and two chunks every byte of the file can be lost in this way, and the run then ends like a run
  on the file in which that byte is zero.
Imports: FreqUtility.Proofs.UnheldRuns
Trusted boundary: none (fully proved)
Main exports: EarlyStep, Early, Early.leads_hold, Early.leads_task, exists_trap, exists_losing_run,
  any_byte_may_be_lost
Open obligations: none
-/
import FreqUtility.Proofs.UnheldRuns

namespace FreqUtility

open Blocks Transition Replace

/-! ### The pool before the tasks -/

/-- The steps of the pool without those that end a task. -/
def StartStep (threads chunks : ℕ) (s : PoolState) (label : PoolLabel) (t : PoolState) : Prop :=
  PoolStep threads chunks s label t ∧ ∀ index, label ≠ .finish index

/-- A pool with `i` threads. -/
def PoolState.created (i : ℕ) : PoolState :=
  { PoolState.init with
    main := .constructing i
    workers := (List.range i).map fun index => ⟨index, .checking⟩ }

/-- A pool with all threads and `i` tasks. -/
def PoolState.enqueued (threads i : ℕ) : PoolState :=
  { PoolState.created threads with
    main := .enqueuing i
    tasks := List.range i }

theorem leads_created {threads : ℕ} (chunks : ℕ) {i : ℕ} (hi : i ≤ threads) :
    Leads (StartStep threads chunks) PoolState.init (PoolState.created i) := by
  induction i with
  | zero => exact Leads.refl _
  | succ i ih =>
      have hnext : PoolState.created (i + 1) = { PoolState.created i with
          main := .constructing (i + 1)
          workers := (PoolState.created i).workers ++ [⟨i, .checking⟩] } := by
        unfold PoolState.created
        rw [List.range_succ, List.map_append]
        rfl
      apply (ih (Nat.le_of_succ_le hi)).trans
      rw [hnext]
      exact .single ⟨.create rfl hi, fun _ => PoolLabel.noConfusion⟩

theorem leads_enqueued {threads chunks i : ℕ} (hi : i ≤ chunks) :
    Leads (StartStep threads chunks) PoolState.init (PoolState.enqueued threads i) := by
  induction i with
  | zero =>
      apply (leads_created chunks (Nat.le_refl threads)).trans
      exact .single ⟨.constructed rfl (Nat.lt_irrefl threads), fun _ => PoolLabel.noConfusion⟩
  | succ i ih =>
      have hawake : ∀ w ∈ (PoolState.enqueued threads i).workers, w.pc ≠ .sleeping := by
        intro w hw
        obtain ⟨index, -, rfl⟩ := List.mem_map.mp hw
        exact WorkerPc.noConfusion
      have hnext : PoolState.enqueued threads (i + 1) = { PoolState.enqueued threads i with
          main := .enqueuing (i + 1)
          tasks := (PoolState.enqueued threads i).tasks ++ [i] } := by
        unfold PoolState.enqueued
        rw [List.range_succ]
      apply (ih (Nat.le_of_succ_le hi)).trans
      rw [hnext]
      have hpush : StartStep threads chunks (PoolState.enqueued threads i) .push _ :=
        ⟨.push rfl hi, fun _ => PoolLabel.noConfusion⟩
      exact (Leads.single hpush).trans
        (.single ⟨.notifyNobody rfl hawake, fun _ => PoolLabel.noConfusion⟩)

section

variable {threads c p : ℕ} {file seen : Buffer} {mixedHash : Word → UInt64} {s t : ByteState threads}

/-! ### Before the byte arrives -/

/-- The steps before the file's byte arrives at `p`. -/
def EarlyStep (mixedHash : Word → UInt64) (file : Buffer) (c p : ℕ) (s : ByteState threads) (label : ByteLabel)
    (t : ByteState threads) : Prop :=
  UnheldStep mixedHash file c (blockCount file.length c) s label t ∧ ∀ index, label ≠ .copy index p

/-- The buffer is still zero at `p`, and so is what any thread has loaded there. -/
def Blank (p : ℕ) (s : ByteState threads) : Prop :=
  byteAt s.tables.read.shared.data p = 0 ∧
    ∀ index task byte, s.tasks index = .holding task p byte → byte = 0

/-- Only the copies of bytes are restricted. -/
theorem earlyStep_of_step {label : ByteLabel}
    (hstep : ByteStep mixedHash file c (blockCount file.length c) s label t)
    (hlabel : ∀ index place, label ≠ .copy index place) : EarlyStep mixedHash file c p s label t :=
  ⟨⟨hstep, fun index place heq => absurd heq (hlabel index place)⟩, fun index => hlabel index p⟩

theorem byteAt_set_eq_zero {data : Buffer} (h : byteAt data p = 0) {q : ℕ} {x : UInt8}
    (hx : q = p → x = 0) : byteAt (data.set q x) p = 0 := by
  rw [byteAt, List.getElem?_set]
  split
  · rename_i hq
    split
    · exact hx hq
    · rfl
  · exact h

theorem Blank.step {label : ByteLabel} (h : Blank p s) (hstep : EarlyStep mixedHash file c p s label t) :
    Blank p t := by
  obtain ⟨hdata, hheld⟩ := h
  -- A thread that holds a byte at `p` held it before, or has just loaded it.
  have hupdate {index : Fin threads} {pc : TaskPc} (hpc : ∀ task byte, pc = .holding task p byte → byte = 0) :
      ∀ i task byte, Function.update s.tasks index pc i = .holding task p byte → byte = 0 := by
    intro i task byte hi
    by_cases hsame : i = index
    · subst hsame
      rw [Function.update_self] at hi
      exact hpc task byte hi
    · rw [Function.update_of_ne hsame] at hi
      exact hheld i task byte hi
  obtain ⟨⟨hstep, -⟩, hlabel⟩ := hstep
  cases hstep with
  | pool _ _ => exact ⟨hdata, hheld⟩
  | seek index _ _ => exact ⟨hdata, hupdate fun _ _ heq => nomatch heq⟩
  | copy index hpc =>
      refine ⟨byteAt_set_eq_zero hdata ?_, hupdate fun _ _ heq => nomatch heq⟩
      rintro rfl
      exact absurd rfl (hlabel index.val)
  | copied index hpc => exact ⟨hdata, hupdate fun _ _ heq => nomatch heq⟩
  | load index hpc _ =>
      refine ⟨hdata, hupdate ?_⟩
      rintro task byte ⟨⟩
      exact hdata
  | store index hpc =>
      refine ⟨byteAt_set_eq_zero hdata ?_, hupdate fun _ _ heq => nomatch heq⟩
      rintro rfl
      rw [hheld index _ _ hpc]
      rfl
  | count index hpc _ _ =>
      refine ⟨?_, hupdate fun _ _ heq => nomatch heq⟩
      rw [countTask_data]
      exact hdata

/-- What holds until then, if the threads are to see `seen`, which differs from the file at `p` only. -/
structure Early (mixedHash : Word → UInt64) (file seen : Buffer) (c p : ℕ) (s : ByteState threads) :
    Prop where
  progress : ∃ finished, ByteProgress mixedHash file seen c (fun q => q = p) finished s
  blank : Blank p s

theorem Early.leads (h : Early mixedHash file seen c p s) (hthreads : 1 ≤ threads) (hc : 0 < c)
    (hn : file.length < 2 ^ 31) (hlead : Leads (EarlyStep mixedHash file c p) s t) :
    Early mixedHash file seen c p t := by
  apply hlead.preserves _ h
  rintro s label t ⟨⟨finished, h⟩, hblank⟩ hstep
  refine ⟨h.step hthreads hc hn hstep.1 ?_, hblank.step hstep⟩
  rintro index place rfl rfl
  exact hstep.2 index rfl

/-! ### What one thread can do while the others wait -/

/-- The pool starts while no thread is in a task. -/
theorem leads_of_start {pool pool' : PoolState}
    (hlead : Leads (StartStep threads (blockCount file.length c)) pool pool') (hpool : s.pool = pool) :
    Leads (EarlyStep mixedHash file c p) s { s with pool := pool' } := by
  obtain ⟨labels, hrun⟩ := hlead
  induction hrun generalizing s with
  | nil pool =>
      subst hpool
      exact Leads.refl s
  | cons hfirst _ ih =>
      subst hpool
      have hstep : EarlyStep mixedHash file c p s (.pool _) _ :=
        earlyStep_of_step (.pool hfirst.2 hfirst.1) fun _ _ => ByteLabel.noConfusion
      exact (Leads.single hstep).trans (ih rfl)

/-- A thread takes the first task. -/
theorem leads_dequeue (mixedHash : Word → UInt64) (file : Buffer) (c p : ℕ) {index task : ℕ} {tasks : List ℕ}
    (hw : ⟨index, .checking⟩ ∈ s.pool.workers)
    (htasks : s.pool.tasks = task :: tasks) :
    ∃ pool, Leads (EarlyStep mixedHash file c p) s { s with pool := pool } ∧ pool.tasks = tasks ∧
      ⟨index, .running task⟩ ∈ pool.workers ∧
      ∀ w ∈ s.pool.workers, w.index ≠ index → w ∈ pool.workers := by
  obtain ⟨workers, hreplace⟩ := Replaces.exists_of_mem ⟨index, .running task⟩ hw
  have hready : s.pool.waitPredicate = true := by
    rw [PoolState.waitPredicate, htasks]
    exact Bool.or_true _
  have hmore : (s.pool.stop && s.pool.tasks.isEmpty) = false := by
    rw [htasks]
    exact Bool.and_false _
  have hstep : StartStep threads (blockCount file.length c) s.pool (.dequeue index) _ :=
    ⟨.dequeue hreplace hready hmore htasks, fun _ => PoolLabel.noConfusion⟩
  refine ⟨_, leads_of_start (.single hstep) rfl, rfl, hreplace.mem_right, ?_⟩
  intro w hw hne
  refine (hreplace.symm.mem_or hw).resolve_left ?_
  rintro rfl
  exact hne rfl

/-- One thread has gone on inside of its task. -/
def ByteState.moved (s : ByteState threads) (index : Fin threads) (tables : TableState threads) (pc : TaskPc) :
    ByteState threads :=
  { s with
    tables := tables
    tasks := Function.update s.tasks index pc }

@[simp] theorem ByteState.tasks_moved (s : ByteState threads) (index : Fin threads)
    (tables : TableState threads) (pc : TaskPc) : (s.moved index tables pc).tasks index = pc :=
  Function.update_self _ _ _

theorem ByteState.tasks_moved_of_ne (s : ByteState threads) {index i : Fin threads} (h : i ≠ index)
    (tables : TableState threads) (pc : TaskPc) : (s.moved index tables pc).tasks i = s.tasks i :=
  Function.update_of_ne h _ _

@[simp] theorem ByteState.moved_moved (s : ByteState threads) (index : Fin threads)
    (tables tables' : TableState threads) (pc pc' : TaskPc) :
    (s.moved index tables pc).moved index tables' pc' = s.moved index tables' pc' := by
  unfold ByteState.moved
  rw [Function.update_idem]

theorem ByteState.moved_eq_self {index : Fin threads} {pc : TaskPc} (h : s.tasks index = pc) :
    s.moved index s.tables pc = s := by
  unfold ByteState.moved
  rw [← h, Function.update_eq_self]

theorem ByteState.Free.moved {r : ℕ} (h : s.Free r) {index : Fin threads} {pc : TaskPc}
    {tables : TableState threads} (hpc : ∀ task byte, pc ≠ .holding task r byte) :
    (s.moved index tables pc).Free r := by
  intro i task byte hi
  by_cases hsame : i = index
  · subst hsame
    rw [ByteState.tasks_moved] at hi
    exact hpc task byte hi
  · rw [ByteState.tasks_moved_of_ne s hsame] at hi
    exact h i task byte hi

/-- The next `m` bytes of a read, none of which is held or goes to `p`. -/
theorem leads_copy (mixedHash : Word → UInt64) (file : Buffer) (c : ℕ) {index : Fin threads} {task : ℕ} (m : ℕ)
    {place : ℕ} {bytes : Buffer} (hm : m ≤ bytes.length) (hpc : s.tasks index = .copying task place bytes)
    (hplaces : ∀ r, place ≤ r → r < place + m → r ≠ p ∧ s.Free r) :
    ∃ tables, Leads (EarlyStep mixedHash file c p) s
      (s.moved index tables (.copying task (place + m) (bytes.drop m))) := by
  induction m generalizing s place bytes with
  | zero =>
      refine ⟨s.tables, ?_⟩
      rw [Nat.add_zero, List.drop_zero, ByteState.moved_eq_self hpc]
      exact Leads.refl s
  | succ m ih =>
      cases bytes with
      | nil => cases hm
      | cons byte bytes =>
          obtain ⟨hne, hfree⟩ := hplaces place (Nat.le_refl _) (by omega)
          have hstep : EarlyStep mixedHash file c p s (.copy index.val place)
              (s.moved index (s.tables.setByte place byte) (.copying task (place + 1) bytes)) := by
            refine ⟨⟨.copy index hpc, ?_⟩, ?_⟩
            · rintro _ _ ⟨⟩
              exact hfree
            · rintro _ ⟨⟩
              exact hne rfl
          have hrest : ∀ r, place + 1 ≤ r → r < place + 1 + m → r ≠ p ∧
              (s.moved index (s.tables.setByte place byte) (.copying task (place + 1) bytes)).Free r := by
            intro r hr hlt
            obtain ⟨hr, hfree⟩ := hplaces r (by omega) (by omega)
            exact ⟨hr, hfree.moved fun _ _ => TaskPc.noConfusion⟩
          obtain ⟨tables, hlead⟩ := ih (Nat.le_of_succ_le_succ hm) (ByteState.tasks_moved _ _ _ _) hrest
          rw [ByteState.moved_moved, Nat.add_assoc, Nat.add_comm 1 m] at hlead
          exact ⟨tables, (Leads.single hstep).trans hlead⟩

theorem leads_copied (mixedHash : Word → UInt64) (file : Buffer) (c p : ℕ) {index : Fin threads}
    {task place : ℕ} (hpc : s.tasks index = .copying task place []) :
    Leads (EarlyStep mixedHash file c p) s (s.moved index s.tables (.lowering task 0)) :=
  .single (earlyStep_of_step (.copied index hpc) fun _ _ => ByteLabel.noConfusion)

theorem leads_load (mixedHash : Word → UInt64) (file : Buffer) (c p : ℕ) {index : Fin threads}
    {task place : ℕ} (hpc : s.tasks index = .lowering task place)
    (hplace : place < s.tables.read.shared.data.length) :
    Leads (EarlyStep mixedHash file c p) s
      (s.moved index s.tables (.holding task place (byteAt s.tables.read.shared.data place))) :=
  .single (earlyStep_of_step (.load index hpc hplace) fun _ _ => ByteLabel.noConfusion)

theorem leads_store (mixedHash : Word → UInt64) (file : Buffer) (c p : ℕ) {index : Fin threads}
    {task place : ℕ} {byte : UInt8} (hpc : s.tasks index = .holding task place byte) :
    Leads (EarlyStep mixedHash file c p) s
      (s.moved index (s.tables.setByte place (toLower byte)) (.lowering task (place + 1))) :=
  .single (earlyStep_of_step (.store index hpc) fun _ _ => ByteLabel.noConfusion)

/-- The next `m` bytes of a transformation. -/
theorem leads_lower (mixedHash : Word → UInt64) (file : Buffer) (c p : ℕ) {index : Fin threads} {task : ℕ}
    (m : ℕ) {place : ℕ} (hm : place + m ≤ s.tables.read.shared.data.length)
    (hpc : s.tasks index = .lowering task place) :
    ∃ tables : TableState threads, tables.read.shared.data.length = s.tables.read.shared.data.length ∧
      Leads (EarlyStep mixedHash file c p) s (s.moved index tables (.lowering task (place + m))) := by
  induction m generalizing s place with
  | zero =>
      refine ⟨s.tables, rfl, ?_⟩
      rw [Nat.add_zero, ByteState.moved_eq_self hpc]
      exact Leads.refl s
  | succ m ih =>
      have hload := leads_load mixedHash file c p hpc (by omega)
      have hstore := leads_store mixedHash file c p (ByteState.tasks_moved s index s.tables
        (.holding task place (byteAt s.tables.read.shared.data place)))
      rw [ByteState.moved_moved] at hstore
      have hlength : ∀ x, (s.tables.setByte place x).read.shared.data.length =
          s.tables.read.shared.data.length := fun _ => List.length_set
      obtain ⟨tables, hsame, hlead⟩ := ih ((Nat.le_of_eq (by omega)).trans (hm.trans (hlength _).ge))
        (ByteState.tasks_moved s index _ (.lowering task (place + 1)))
      rw [ByteState.moved_moved, Nat.add_assoc, Nat.add_comm 1 m] at hlead
      exact ⟨tables, hsame.trans (hlength _), (hload.trans hstore).trans hlead⟩

/-- The bytes of a chunk from a place on. -/
def chunkPart (file : Buffer) (c task place : ℕ) : Buffer :=
  (file.take (blockStop file.length c task)).drop place

/-- A thread begins its read. -/
theorem Early.leads_seek (h : Early mixedHash file seen c p s) (hc : 0 < c) (hn : file.length < 2 ^ 31)
    {index : Fin threads} {task : ℕ} (hw : ⟨index.val, .running task⟩ ∈ s.pool.workers)
    (hentered : s.tasks index = .entered) :
    ∃ tables, Leads (EarlyStep mixedHash file c p) s
      (s.moved index tables (.copying task (task * c) (chunkPart file c task (task * c)))) := by
  obtain ⟨⟨finished, h⟩, -⟩ := h
  obtain ⟨hk, -⟩ := h.task_of_running hw
  obtain ⟨-, -, hbytes⟩ := h.tables.seek (task, index) hc hn hk
  have hseek : EarlyStep mixedHash file c p s (.seek index.val) _ :=
    earlyStep_of_step (.seek index hw hentered) fun _ _ => ByteLabel.noConfusion
  rw [taskStart_eq hc hk (hn.trans (by decide)), hbytes] at hseek
  exact ⟨_, .single hseek⟩

/-- A thread whose chunk does not contain `p` reads it, while the other threads hold nothing or the byte
    at `p`. -/
theorem Early.leads_read (h : Early mixedHash file seen c p s) (hc : 0 < c) (hn : file.length < 2 ^ 31)
    {index : Fin threads} {task : ℕ} (hw : ⟨index.val, .running task⟩ ∈ s.pool.workers)
    (hentered : s.tasks index = .entered) (hne : p / c ≠ task) (hfree : ∀ r, r ≠ p → s.Free r) :
    ∃ tables, Leads (EarlyStep mixedHash file c p) s (s.moved index tables (.lowering task 0)) := by
  obtain ⟨tables, hseek⟩ := h.leads_seek hc hn hw hentered
  -- The bytes of the chunk go to places of the chunk.
  have hplaces : ∀ r, task * c ≤ r → r < task * c + (chunkPart file c task (task * c)).length → r ≠ p ∧
      (s.moved index tables (.copying task (task * c) (chunkPart file c task (task * c)))).Free r := by
    intro r hlow hhigh
    rw [chunkPart, List.length_drop, List.length_take] at hhigh
    have hblock : task * c ≤ r ∧ r < blockStop file.length c task := ⟨hlow, by omega⟩
    have hin := ((mem_block_iff hc).mp hblock).2
    have hr : r ≠ p := by
      rintro rfl
      exact hne hin
    exact ⟨hr, (hfree r hr).moved fun _ _ => TaskPc.noConfusion⟩
  obtain ⟨tables', hcopy⟩ := leads_copy mixedHash file c _ (Nat.le_refl _) (ByteState.tasks_moved _ _ _ _)
    hplaces
  rw [ByteState.moved_moved, List.drop_length] at hcopy
  have hcopied := leads_copied mixedHash file c p (ByteState.tasks_moved s index tables'
    (.copying task (task * c + (chunkPart file c task (task * c)).length) []))
  rw [ByteState.moved_moved] at hcopied
  exact ⟨tables', (hseek.trans hcopy).trans hcopied⟩

/-- Then it goes over the buffer up to any place. -/
theorem Early.leads_lowered (h : Early mixedHash file seen c p s) (hthreads : 1 ≤ threads) (hc : 0 < c)
    (hn : file.length < 2 ^ 31) {index : Fin threads} {task place : ℕ} (hplace : place ≤ file.length)
    (hw : ⟨index.val, .running task⟩ ∈ s.pool.workers) (hentered : s.tasks index = .entered)
    (hne : p / c ≠ task) (hfree : ∀ r, r ≠ p → s.Free r) :
    ∃ tables, Leads (EarlyStep mixedHash file c p) s (s.moved index tables (.lowering task place)) ∧
      Early mixedHash file seen c p (s.moved index tables (.lowering task place)) := by
  obtain ⟨tables, hread⟩ := h.leads_read hc hn hw hentered hne hfree
  obtain ⟨⟨_, hbefore⟩, -⟩ := h.leads hthreads hc hn hread
  obtain ⟨tables', -, hlower⟩ := leads_lower mixedHash file c p place
    (by rw [hbefore.inv.length, Nat.zero_add]; exact hplace) (ByteState.tasks_moved s index tables _)
  rw [ByteState.moved_moved, Nat.zero_add] at hlower
  have hreached := hread.trans hlower
  exact ⟨tables', hreached, h.leads hthreads hc hn hreached⟩

/-- There it can hold the byte at `p`, which is zero. -/
theorem Early.leads_hold (h : Early mixedHash file seen c p s) (hthreads : 1 ≤ threads) (hc : 0 < c)
    (hn : file.length < 2 ^ 31) (hp : p < file.length) {index : Fin threads} {task : ℕ}
    (hw : ⟨index.val, .running task⟩ ∈ s.pool.workers) (hentered : s.tasks index = .entered)
    (hne : p / c ≠ task) (hfree : ∀ r, r ≠ p → s.Free r) :
    ∃ tables, Leads (EarlyStep mixedHash file c p) s (s.moved index tables (.holding task p 0)) := by
  obtain ⟨tables, hlower, ⟨_, hbefore⟩, hblank, -⟩ :=
    h.leads_lowered hthreads hc hn (Nat.le_of_lt hp) hw hentered hne hfree
  have hload := leads_load mixedHash file c p (ByteState.tasks_moved s index tables (.lowering task p))
    (by rw [hbefore.inv.length]; exact hp)
  rw [ByteState.moved_moved, hblank] at hload
  exact ⟨tables, hlower.trans hload⟩

/-- At the end of the buffer it can finish its task. -/
theorem Early.leads_task (h : Early mixedHash file seen c p s) (hthreads : 1 ≤ threads) (hc : 0 < c)
    (hn : file.length < 2 ^ 31) {index : Fin threads} {task : ℕ}
    (hw : ⟨index.val, .running task⟩ ∈ s.pool.workers) (hentered : s.tasks index = .entered)
    (hne : p / c ≠ task) (hfree : ∀ r, r ≠ p → s.Free r) :
    ∃ t, Leads (EarlyStep mixedHash file c p) s t ∧ t.tasks = s.tasks ∧ t.pool.tasks = s.pool.tasks ∧
      ⟨index.val, .checking⟩ ∈ t.pool.workers ∧
      ∀ w ∈ s.pool.workers, w.index ≠ index.val → w ∈ t.pool.workers := by
  obtain ⟨tables, hlower, ⟨_, hbefore⟩, -⟩ :=
    h.leads_lowered hthreads hc hn (Nat.le_refl _) hw hentered hne hfree
  obtain ⟨workers, hreplace⟩ := Replaces.exists_of_mem ⟨index.val, .checking⟩ hw
  have hcount : EarlyStep mixedHash file c p (s.moved index tables (.lowering task file.length))
      (.count index.val) _ :=
    earlyStep_of_step (.count index (ByteState.tasks_moved _ _ _ _)
      (by rw [hbefore.inv.length]; exact Nat.lt_irrefl _) hreplace) fun _ _ => ByteLabel.noConfusion
  refine ⟨_, hlower.trans (.single hcount), ?_, rfl, hreplace.mem_right, ?_⟩
  · change Function.update (Function.update s.tasks index _) index .entered = s.tasks
    rw [Function.update_idem, ← hentered, Function.update_eq_self]
  · intro w hw hindex
    refine (hreplace.symm.mem_or hw).resolve_left ?_
    rintro rfl
    exact hindex rfl

/-! ### The trap -/

/-- `holder` has loaded the zero at `p` for a task of another chunk, the other threads are outside of their
    tasks, and the tasks from `k` on are queued. -/
structure Scene (mixedHash : Word → UInt64) (file seen : Buffer) (c p : ℕ) (holder reader : Fin threads)
    (k : ℕ) (s : ByteState threads) : Prop where
  early : Early mixedHash file seen c p s
  tasks : s.pool.tasks = List.range' k (blockCount file.length c - k)
  idle : ⟨reader.val, .checking⟩ ∈ s.pool.workers
  held : ∃ task, s.tasks holder = .holding task p 0
  others : ∀ i, i ≠ holder → s.tasks i = .entered

theorem Scene.free {holder reader : Fin threads} {k : ℕ} (h : Scene mixedHash file seen c p holder reader k s)
    {r : ℕ} (hr : r ≠ p) : s.Free r := by
  intro i task byte hi
  by_cases hsame : i = holder
  · obtain ⟨task', hheld⟩ := h.held
    rw [hsame, hheld] at hi
    cases hi
    exact hr rfl
  · rw [h.others i hsame] at hi
    cases hi

theorem range'_eq_cons {k n : ℕ} (h : k < n) :
    List.range' k (n - k) = k :: List.range' (k + 1) (n - (k + 1)) := by
  rw [← List.range'_succ]
  congr 1
  omega

/-- The reader takes the next task. -/
theorem Scene.leads_running {holder reader : Fin threads} {k : ℕ}
    (h : Scene mixedHash file seen c p holder reader k s) (hk : k < blockCount file.length c) :
    ∃ pool, Leads (EarlyStep mixedHash file c p) s { s with pool := pool } ∧
      pool.tasks = List.range' (k + 1) (blockCount file.length c - (k + 1)) ∧
      ⟨reader.val, .running k⟩ ∈ pool.workers := by
  obtain ⟨pool, hdequeue, htasks, hw, -⟩ := leads_dequeue mixedHash file c p h.idle
    (h.tasks.trans (range'_eq_cons hk))
  exact ⟨pool, hdequeue, htasks, hw⟩

/-- It finishes the tasks in front of that of `p`. -/
theorem Scene.leads {holder reader : Fin threads} {k m : ℕ}
    (h : Scene mixedHash file seen c p holder reader k s) (hthreads : 1 ≤ threads) (hc : 0 < c)
    (hn : file.length < 2 ^ 31) (hreader : reader ≠ holder) (hm : k + m ≤ p / c)
    (hp : p < file.length) :
    ∃ t, Leads (EarlyStep mixedHash file c p) s t ∧ Scene mixedHash file seen c p holder reader (k + m) t := by
  induction m with
  | zero => exact ⟨s, Leads.refl s, h⟩
  | succ m ih =>
      obtain ⟨t, hlead, ht⟩ := ih (by omega)
      have hlt := div_lt_blockCount (n := file.length) hc hp
      obtain ⟨pool, hdequeue, htasks, hw⟩ := ht.leads_running (by omega)
      have hearly := ht.early.leads hthreads hc hn hdequeue
      obtain ⟨u, htask, hsame, hqueue, hidle, -⟩ := hearly.leads_task hthreads hc hn hw
        (ht.others reader hreader) (by omega) fun r hr => ht.free hr
      refine ⟨u, (hlead.trans hdequeue).trans htask, hearly.leads hthreads hc hn htask, hqueue.trans htasks,
        hidle, ?_, ?_⟩
      · rw [hsame]
        exact ht.held
      · rw [hsame]
        exact ht.others

/-- Some run leads into the trap: a thread holds the zero at `p`, and another one is about to read the
    chunk of `p`. -/
theorem exists_trap (mixedHash : Word → UInt64) {holder reader : Fin threads} (hreader : reader ≠ holder)
    (hc : 0 < c) (hn : file.length < 2 ^ 31) (hp : p < file.length) (hchunks : 2 ≤ blockCount file.length c)
    (hstart : Early mixedHash file seen c p
      (ByteState.init mixedHash threads file.length c (blockCount file.length c))) :
    ∃ s, Leads (EarlyStep mixedHash file c p)
        (ByteState.init mixedHash threads file.length c (blockCount file.length c)) s ∧
      Early mixedHash file seen c p s ∧ ⟨reader.val, .running (p / c)⟩ ∈ s.pool.workers ∧
      (∃ task, s.tasks holder = .holding task p 0) ∧ ∀ i, i ≠ holder → s.tasks i = .entered := by
  have hthreads : 1 ≤ threads := Nat.one_le_of_lt holder.isLt
  let start : ByteState threads :=
    { ByteState.init mixedHash threads file.length c (blockCount file.length c) with
      pool := PoolState.enqueued threads (blockCount file.length c) }
  have hready : Leads (EarlyStep mixedHash file c p) _ start :=
    leads_of_start (leads_enqueued (Nat.le_refl _)) rfl
  have hidle : ∀ i : Fin threads, ⟨i.val, .checking⟩ ∈ start.pool.workers :=
    fun i => List.mem_map_of_mem (List.mem_range.mpr i.isLt)
  have htasks : start.pool.tasks = 0 :: List.range' (0 + 1) (blockCount file.length c - (0 + 1)) :=
    List.range_eq_range'.trans (range'_eq_cons (Nat.lt_of_lt_of_le Nat.two_pos hchunks))
  have hentered : ∀ i, start.tasks i = .entered := fun _ => rfl
  have hfree : ∀ r, start.Free r := fun _ _ _ _ => TaskPc.noConfusion
  by_cases hfirst : p / c = 0
  · -- The reader takes the first task, and the holder the second one.
    obtain ⟨pool, hdequeue, htasks, hrunning, hothers⟩ := leads_dequeue mixedHash file c p (hidle reader) htasks
    have hindex : holder.val ≠ reader.val := fun heq => hreader (Fin.ext heq.symm)
    obtain ⟨pool', hdequeue', -, hw, hkept⟩ := leads_dequeue mixedHash file c p
      (s := { start with pool := pool }) (hothers _ (hidle holder) hindex)
      (htasks.trans (range'_eq_cons (by omega)))
    have hlead := (hready.trans hdequeue).trans hdequeue'
    obtain ⟨tables, hhold⟩ := (hstart.leads hthreads hc hn hlead).leads_hold hthreads hc hn hp hw
      (hentered holder) (by omega) fun r _ => hfree r
    have hlead := hlead.trans hhold
    refine ⟨_, hlead, hstart.leads hthreads hc hn hlead, ?_, ⟨_, ByteState.tasks_moved _ _ _ _⟩, ?_⟩
    · rw [hfirst]
      exact hkept _ hrunning hindex.symm
    · exact fun i hi => (ByteState.tasks_moved_of_ne _ hi _ _).trans (hentered i)
  · -- The holder takes the first task, and the reader those up to that of `p`.
    obtain ⟨pool, hdequeue, htasks, hw, hothers⟩ := leads_dequeue mixedHash file c p (hidle holder) htasks
    have hindex : reader.val ≠ holder.val := fun heq => hreader (Fin.ext heq)
    have hlead := hready.trans hdequeue
    obtain ⟨tables, hhold⟩ := (hstart.leads hthreads hc hn hlead).leads_hold hthreads hc hn hp hw
      (hentered holder) hfirst fun r _ => hfree r
    have hlead := hlead.trans hhold
    have hscene : Scene mixedHash file seen c p holder reader (0 + 1) _ :=
      { early := hstart.leads hthreads hc hn hlead
        tasks := htasks
        idle := hothers _ (hidle reader) hindex
        held := ⟨_, ByteState.tasks_moved _ _ _ _⟩
        others := fun i hi => (ByteState.tasks_moved_of_ne _ hi _ _).trans (hentered i) }
    obtain ⟨m, hm⟩ := Nat.exists_eq_add_of_le' (Nat.pos_of_ne_zero hfirst)
    have hnumber : 0 + 1 + m = p / c := by omega
    obtain ⟨t, hahead, ht⟩ := hscene.leads hthreads hc hn hreader hnumber.le hp
    rw [hnumber] at ht
    obtain ⟨pool', htake, -, hrunning⟩ := ht.leads_running (div_lt_blockCount hc hp)
    have hlead := (hlead.trans hahead).trans htake
    exact ⟨_, hlead, hstart.leads hthreads hc hn hlead, hrunning, ht.held, ht.others⟩

/-! ### The store of the old byte -/

theorem TableState.setByte_setByte (s : TableState threads) (p : ℕ) (x y : UInt8) :
    (s.setByte p x).setByte p y = s.setByte p y := by
  unfold TableState.setByte
  simp only [List.set_set]

theorem ByteState.moved_comm (s : ByteState threads) {i j : Fin threads} (hne : i ≠ j)
    (tables tables' tables'' : TableState threads) (pc pc' : TaskPc) :
    (s.moved i tables pc).moved j tables'' pc' = (s.moved j tables' pc').moved i tables'' pc := by
  unfold ByteState.moved
  rw [Function.update_comm hne]

/-- The file's byte arrives at `p`, and the thread that holds the zero stores it again: after that all is
    as if the file had a zero there. -/
theorem Early.lose (h : Early mixedHash file seen c p s) (hc : 0 < c) (hzero : byteAt seen p = 0)
    {holder reader : Fin threads} (hreader : reader ≠ holder) {task task' : ℕ} {byte : UInt8} {bytes : Buffer}
    (hcopying : s.tasks reader = .copying task p (byte :: bytes))
    (hheld : s.tasks holder = .holding task' p 0) :
    ∃ t finished, Leads (ByteStep mixedHash file c (blockCount file.length c)) s t ∧
      ByteProgress mixedHash file seen c (fun _ => False) finished t := by
  obtain ⟨⟨finished, h⟩, -, hblank⟩ := h
  let arrived := s.moved reader (s.tables.setByte p byte) (.copying task (p + 1) bytes)
  have hcopy : ByteStep mixedHash file c (blockCount file.length c) s (.copy reader.val p) arrived :=
    .copy reader hcopying
  have hheld' : arrived.tasks holder = .holding task' p 0 :=
    (ByteState.tasks_moved_of_ne s hreader.symm _ _).trans hheld
  have hstore : ByteStep mixedHash file c (blockCount file.length c) arrived (.store holder.val p)
      (arrived.moved holder ((s.tables.setByte p byte).setByte p (toLower 0)) (.lowering task' (p + 1))) :=
    .store holder hheld'
  refine ⟨_, finished, (Leads.single hcopy).trans (.single hstore), ?_⟩
  -- The other way around it is the zero that arrives.
  have hstored := h.store hheld
  have hcopying' : (s.moved holder (s.tables.setByte p (toLower 0)) (.lowering task' (p + 1))).tasks reader =
      .copying task p (byte :: bytes) :=
    (ByteState.tasks_moved_of_ne s hreader _ _).trans hcopying
  have hboth : ByteProgress mixedHash file seen c (fun _ => False) finished _ :=
    hstored.copyAs (x := toLower 0) hc hcopying' (by rw [hzero]; rfl) ?_ fun q _ heq => heq
  · rw [TableState.setByte_setByte, ← TableState.setByte_setByte s.tables p (toLower 0) (toLower 0),
      ByteState.moved_comm s hreader _ (s.tables.setByte p (toLower 0))]
    exact hboth
  · intro i _ other byte' hi
    rw [hzero]
    by_cases hsame : i = holder
    · subst hsame
      exact absurd (hi.symm.trans (ByteState.tasks_moved s i _ _)) TaskPc.noConfusion
    · have hbefore := hi.symm.trans (ByteState.tasks_moved_of_ne s hsame _ _)
      rw [hblank i other byte' hbefore.symm]

/-- In the trap, the read of the chunk goes on up to `p`, and the zero is stored there. -/
theorem Early.leads_lost (h : Early mixedHash file seen c p s) (hthreads : 1 ≤ threads) (hc : 0 < c)
    (hn : file.length < 2 ^ 31) (hp : p < file.length) (hzero : byteAt seen p = 0)
    {holder reader : Fin threads} (hreader : reader ≠ holder) {task : ℕ}
    (hw : ⟨reader.val, .running (p / c)⟩ ∈ s.pool.workers) (hheld : s.tasks holder = .holding task p 0)
    (hothers : ∀ i, i ≠ holder → s.tasks i = .entered) :
    ∃ t finished, Leads (ByteStep mixedHash file c (blockCount file.length c)) s t ∧
      ByteProgress mixedHash file seen c (fun _ => False) finished t := by
  obtain ⟨tables, hseek⟩ := h.leads_seek hc hn hw (hothers reader hreader)
  obtain ⟨hlow, hhigh⟩ := (mem_block_iff hc).mpr ⟨hp, rfl⟩
  have hle : blockStop file.length c (p / c) ≤ file.length := blockStop_le
  have hlength : (chunkPart file c (p / c) (p / c * c)).length =
      blockStop file.length c (p / c) - p / c * c := by
    rw [chunkPart, List.length_drop, List.length_take, Nat.min_eq_left hle]
  -- Up to `p` no thread is in the way.
  have hplaces : ∀ r, p / c * c ≤ r → r < p / c * c + (p - p / c * c) → r ≠ p ∧
      (s.moved reader tables (.copying (p / c) (p / c * c) (chunkPart file c (p / c) (p / c * c)))).Free r := by
    intro r _ hr
    refine ⟨by omega, ByteState.Free.moved ?_ fun _ _ => TaskPc.noConfusion⟩
    intro i other byte hi
    by_cases hsame : i = holder
    · rw [hsame, hheld] at hi
      cases hi
      omega
    · rw [hothers i hsame] at hi
      cases hi
  obtain ⟨tables', hcopy⟩ := leads_copy mixedHash file c (p - p / c * c) (by rw [hlength]; omega)
    (ByteState.tasks_moved s reader tables _) hplaces
  rw [ByteState.moved_moved, Nat.add_sub_cancel' hlow, chunkPart, List.drop_drop,
    Nat.add_sub_cancel' hlow] at hcopy
  have hlead := hseek.trans hcopy
  -- The next byte is that of `p`.
  have hlt : p < (file.take (blockStop file.length c (p / c))).length := by
    rw [List.length_take, Nat.min_eq_left hle]
    exact hhigh
  rw [List.drop_eq_getElem_cons hlt] at hlead
  obtain ⟨t, finished, hlost, ht⟩ := (h.leads hthreads hc hn hlead).lose hc hzero hreader
    (ByteState.tasks_moved _ _ _ _) ((ByteState.tasks_moved_of_ne s hreader.symm _ _).trans hheld)
  exact ⟨t, finished, (hlead.mono fun _ _ _ hstep => hstep.1.1).trans hlost, ht⟩

/-- A complete run that ends as on the file with a zero at `p`. -/
theorem exists_losing_run (mixedHash : Word → UInt64) (hthreads : 2 ≤ threads) (hc : 0 < c)
    (hn : file.length < 2 ^ 31) (hchunks : 2 ≤ blockCount file.length c) (hp : p < file.length) :
    ∃ labels, ∃ s : ByteState threads, ∃ finished,
      Run (ByteStep mixedHash file c (blockCount file.length c))
        (ByteState.init mixedHash threads file.length c (blockCount file.length c)) labels s ∧
      s.pool.main = .joined ∧ ByteProgress mixedHash file (file.set p 0) c (fun _ => False) finished s := by
  have hone : 1 ≤ threads := Nat.one_le_of_lt hthreads
  have hlength : (file.set p 0).length = file.length := List.length_set
  have hzero : byteAt (file.set p 0) p = 0 := by rw [byteAt_set hp, if_pos rfl]
  have hagree : ∀ q, q < (file.set p 0).length → ¬ q = p → byteAt file q = byteAt (file.set p 0) q := by
    intro q _ hq
    rw [byteAt_set hp, if_neg (Ne.symm hq)]
  have hstart : Early mixedHash file (file.set p 0) c p _ :=
    { progress := ⟨[], byteProgress_init mixedHash _ threads hlength hagree⟩
      blank := ⟨byteAt_replicate_zero _ _, fun _ _ _ heq => nomatch heq⟩ }
  let holder : Fin threads := ⟨0, hone⟩
  let reader : Fin threads := ⟨1, hthreads⟩
  have hreader : reader ≠ holder := fun heq => Nat.one_ne_zero (congrArg Fin.val heq)
  obtain ⟨s, htrap, hearly, hw, ⟨task, hheld⟩, hothers⟩ :=
    exists_trap mixedHash hreader hc hn hp hchunks hstart
  obtain ⟨t, finished, hlost, ht⟩ := hearly.leads_lost hone hc hn hp hzero hreader hw hheld hothers
  obtain ⟨u, finished', hcomplete, hu, hjoined⟩ := ht.exists_complete hone hc hn
  obtain ⟨labels, hrun⟩ := ((htrap.mono fun _ _ _ hstep => hstep.1.1).trans hlost).trans
    (hcomplete.mono fun _ _ _ hstep => hstep.1)
  exact ⟨labels, u, finished', hrun, hjoined, hu⟩

end

/-- For every file below 2^31 bytes that has at least two chunks, every machine with at least two threads,
    every hash function and every byte of the file: some complete run ends like a sequential run on the
    file in which that byte is zero. -/
theorem any_byte_may_be_lost (mixedHash : Word → UInt64) (config : FreqConfig) (file : Buffer)
    (hP : 1 ≤ config.diskPageSize) (hN : 2 ≤ config.processorCount) (hn : file.length < 2 ^ 31) :
    ∃ chunkSize chunks, planChunks config file.length = .ok (chunkSize, chunks) ∧
      (2 ≤ chunks → ∀ p, p < file.length →
        ∃ labels s, ∃ order : List (Task config.processorCount),
          Run (ByteStep mixedHash file chunkSize chunks)
            (ByteState.init mixedHash config.processorCount file.length chunkSize chunks) labels s ∧
          s.pool.main = .joined ∧ order.map (fun task => (task.1, task.2.val)) = s.pool.finished ∧
          (order.map Prod.fst).Perm (List.range chunks) ∧
          blockingRead config (file.set p 0) order = .ok s.tables.read.shared) := by
  have hc := chunkSizeOf_pos hP file.length
  have hthreads : 1 ≤ config.processorCount := Nat.one_le_of_lt hN
  refine ⟨_, _, planChunks_eq hP hthreads (hn.trans (by decide)), ?_⟩
  intro hchunks p hp
  have hlength : (file.set p 0).length = file.length := List.length_set
  obtain ⟨labels, s, order, hrun, hjoined, h⟩ := exists_losing_run mixedHash hN hc hn hchunks hp
  have hall := (h.inv.pool.finished_perm hthreads hjoined).2
  rw [← h.map_fst] at hall
  exact ⟨labels, s, order, hrun, hjoined, h.order, hall,
    h.blockingRead_eq hP hthreads hn (by rw [hlength]) hjoined⟩

/-- In `ab`, in chunks of one byte, the letter `b` can be lost. -/
theorem any_byte_may_be_lost_ab :
    ∃ labels, ∃ s : ByteState 2, ∃ order : List (Task 2),
      Run (ByteStep (fun _ => 0) [0x61, 0x62] 1 2) (ByteState.init (fun _ => 0) 2 2 1 2) labels s ∧
        s.pool.main = .joined ∧
        blockingRead ⟨2, 1, by decide, by decide⟩ [0x61, 0] order = .ok s.tables.read.shared := by
  obtain ⟨chunkSize, chunks, hplan, hlost⟩ := any_byte_may_be_lost (fun _ => 0)
    ⟨2, 1, by decide, by decide⟩ [0x61, 0x62] (by decide) (by decide) (by decide)
  have hone : planChunks ⟨2, 1, by decide, by decide⟩ 2 = .ok (1, 2) := rfl
  cases Except.ok.inj (hplan.symm.trans hone)
  obtain ⟨labels, s, order, hrun, hjoined, -, -, hsequential⟩ := hlost (by decide) 1 (by decide)
  exact ⟨labels, s, order, hrun, hjoined, hsequential⟩

end FreqUtility
