/-
Module: FreqUtility.Proofs.ByteRuns
Layer: Proofs
Purpose: What holds in every run of the threads, however their accesses to the buffer interleave: a thread
  that is inside of a task runs it, nothing is stored outside of the buffer, and every step but a spurious
  wake-up brings the end nearer. So a run has a bounded length, and it cannot stop before the destructor
  has joined the threads.
Imports: FreqUtility.Core.ByteAccess, FreqUtility.Proofs.PooledRead, FreqUtility.Proofs.PoolMeasure
Trusted boundary: none (fully proved)
Main exports: ByteInv, ByteInv.run, ByteState.left, ByteInv.left_step, ByteInv.exists_step,
  byte_runs_terminate
Open obligations: none
-/
import FreqUtility.Core.ByteAccess
import FreqUtility.Proofs.PooledRead
import FreqUtility.Proofs.PoolMeasure

namespace FreqUtility

open Blocks Transition Replace

namespace TaskPc

/-- The task that a thread has begun. -/
def task? : TaskPc → Option ℕ
  | .entered => none
  | .copying task _ _ => some task
  | .lowering task _ => some task
  | .holding task _ _ => some task

/-- The steps that a thread still takes before the end of a task, in a buffer of `n` bytes. -/
def left (n : ℕ) : TaskPc → ℕ
  | .entered => 3 * n + 4
  | .copying _ _ bytes => bytes.length + 2 * n + 2
  | .lowering _ place => 2 * (n - place) + 1
  | .holding _ place _ => 2 * (n - place)

end TaskPc

/-- A wake-up that no notification caused. -/
def ByteLabel.isSpurious : ByteLabel → Bool
  | .pool label => label.isSpurious
  | _ => false

section

variable {threads chunkSize chunks : ℕ} {file : Buffer} {mixedHash : Word → UInt64}
  {s t : ByteState threads} {label : ByteLabel}

/-- Seeking leaves the shared variables alone. -/
@[simp] theorem seekTask_shared (s : TableState threads) (task : Task threads) :
    (seekTask file chunkSize chunks s task).1.read.shared = s.read.shared := rfl

theorem length_seekTask_le (file : Buffer) (chunkSize chunks : ℕ) (s : TableState threads)
    (task : Task threads) :
    (seekTask file chunkSize chunks s task).2.length ≤ file.length :=
  IfStream.length_read_le_length _ _ _

@[simp] theorem countChunk_data (s : ChunkState) (startPos endPos chunkSize : ℕ) :
    (countChunk s startPos endPos chunkSize).data = s.data := by
  unfold countChunk
  simp only
  split
  · rfl
  · rfl

/-- Counting leaves the buffer alone. -/
@[simp] theorem countTask_data (s : TableState threads) (task : Task threads) :
    (countTask mixedHash file chunkSize chunks s task).read.shared.data = s.read.shared.data :=
  countChunk_data _ _ _ _

/-! ### What every step keeps -/

structure ByteInv (chunks : ℕ) (file : Buffer) (s : ByteState threads) : Prop where
  pool : PoolInv threads chunks s.pool
  length : s.tables.read.shared.data.length = file.length
  running : ∀ (index : Fin threads) task, (s.tasks index).task? = some task →
    ⟨index.val, .running task⟩ ∈ s.pool.workers
  places : ∀ index task place byte, s.tasks index = .holding task place byte → place < file.length

theorem byteInv_init (mixedHash : Word → UInt64) (threads chunkSize chunks : ℕ) (file : Buffer) :
    ByteInv chunks file (ByteState.init mixedHash threads file.length chunkSize chunks) where
  pool := PoolInv.init threads chunks
  length := List.length_replicate
  running := fun _ _ h => nomatch h
  places := fun _ _ _ _ h => nomatch h

namespace ByteInv

/-- A thread goes on inside of its task. -/
theorem advance (h : ByteInv chunks file s) {index : Fin threads} {pc : TaskPc}
    {tables : TableState threads} (hlength : tables.read.shared.data.length = file.length)
    (hrunning : ∀ task, pc.task? = some task → ⟨index.val, .running task⟩ ∈ s.pool.workers)
    (hplaces : ∀ task place byte, pc = .holding task place byte → place < file.length) :
    ByteInv chunks file
      { s with
        tables := tables
        tasks := Function.update s.tasks index pc } := by
  refine ⟨h.pool, hlength, ?_, ?_⟩
  · intro i task hi
    change (Function.update s.tasks index pc i).task? = _ at hi
    by_cases hsame : i = index
    · subst hsame
      rw [Function.update_self] at hi
      exact hrunning task hi
    · rw [Function.update_of_ne hsame] at hi
      exact h.running i task hi
  · intro i task place byte hi
    change Function.update s.tasks index pc i = _ at hi
    by_cases hsame : i = index
    · subst hsame
      rw [Function.update_self] at hi
      exact hplaces task place byte hi
    · rw [Function.update_of_ne hsame] at hi
      exact h.places i task place byte hi

/-- It stays in its task. -/
theorem goOn (h : ByteInv chunks file s) {index : Fin threads} {pc : TaskPc} {tables : TableState threads}
    (hlength : tables.read.shared.data.length = file.length)
    (htask : pc.task? = (s.tasks index).task?)
    (hplaces : ∀ task place byte, pc = .holding task place byte → place < file.length) :
    ByteInv chunks file
      { s with
        tables := tables
        tasks := Function.update s.tasks index pc } :=
  h.advance hlength (fun task hi => h.running index task (htask ▸ hi)) hplaces

theorem poolStep (h : ByteInv chunks file s) (hthreads : 1 ≤ threads) {label : PoolLabel} {pool : PoolState}
    (hlabel : ∀ index, label ≠ .finish index) (hstep : PoolStep threads chunks s.pool label pool) :
    ByteInv chunks file { s with pool := pool } where
  pool := h.pool.step hthreads hstep
  length := h.length
  running := fun index task hi => hstep.mem_running hlabel (h.running index task hi)
  places := h.places

/-- A thread leaves its task. -/
theorem finish (h : ByteInv chunks file s) (hthreads : 1 ≤ threads) {index : Fin threads} {task : ℕ}
    {workers : List Worker} {tables : TableState threads}
    (hlength : tables.read.shared.data.length = file.length)
    (hreplace : Replaces ⟨index.val, .running task⟩ ⟨index.val, .checking⟩ s.pool.workers workers) :
    ByteInv chunks file
      { pool := { s.pool with
          workers := workers
          finished := s.pool.finished ++ [(task, index.val)] }
        tables := tables
        tasks := Function.update s.tasks index .entered } := by
  refine ⟨h.pool.step hthreads (.finish hreplace), hlength, ?_, ?_⟩
  · intro i task' hi
    change (Function.update s.tasks index .entered i).task? = _ at hi
    by_cases hsame : i = index
    · subst hsame
      rw [Function.update_self] at hi
      cases hi
    · rw [Function.update_of_ne hsame] at hi
      apply (hreplace.symm.mem_or (h.running i task' hi)).resolve_left
      intro heq
      exact hsame (Fin.ext (congrArg Worker.index heq))
  · intro i task' place byte hi
    change Function.update s.tasks index .entered i = _ at hi
    by_cases hsame : i = index
    · subst hsame
      rw [Function.update_self] at hi
      cases hi
    · rw [Function.update_of_ne hsame] at hi
      exact h.places i task' place byte hi

theorem step (h : ByteInv chunks file s) (hthreads : 1 ≤ threads)
    (hstep : ByteStep mixedHash file chunkSize chunks s label t) : ByteInv chunks file t := by
  cases hstep with
  | pool hlabel hstep => exact h.poolStep hthreads hlabel hstep
  | seek index hw _ =>
      apply h.advance
      · rw [seekTask_shared]
        exact h.length
      · rintro task ⟨⟩
        exact hw
      · exact fun _ _ _ heq => nomatch heq
  | copy index hpc =>
      exact h.goOn (List.length_set.trans h.length) (by rw [hpc]; rfl) fun _ _ _ heq => nomatch heq
  | copied index hpc => exact h.goOn h.length (by rw [hpc]; rfl) fun _ _ _ heq => nomatch heq
  | load index hpc hplace =>
      apply h.goOn h.length (by rw [hpc]; rfl)
      rintro task place byte ⟨⟩
      exact h.length ▸ hplace
  | store index hpc =>
      exact h.goOn (List.length_set.trans h.length) (by rw [hpc]; rfl) fun _ _ _ heq => nomatch heq
  | count index hpc hplace hreplace =>
      apply h.finish hthreads _ hreplace
      rw [countTask_data]
      exact h.length

theorem run {labels : List ByteLabel} (h : ByteInv chunks file s) (hthreads : 1 ≤ threads)
    (hrun : Run (ByteStep mixedHash file chunkSize chunks) s labels t) : ByteInv chunks file t :=
  hrun.preserves (fun _ _ _ h hstep => h.step hthreads hstep) h

end ByteInv

/-! ### What is left to do -/

/-- The price of what is left to do; a task takes at most `3 * n + 3` steps. -/
def ByteState.left (chunks : ℕ) (file : Buffer) (s : ByteState threads) : ℕ :=
  s.pool.left threads chunks (3 * file.length + 3) + ∑ i, (s.tasks i).left file.length

/-- A thread that goes on inside of its task pays for it. -/
theorem left_of_task {index : Fin threads} {pc : TaskPc} {tables : TableState threads}
    (hpaid : pc.left file.length + 1 ≤ (s.tasks index).left file.length) :
    ByteState.left chunks file
        { s with
          tables := tables
          tasks := Function.update s.tasks index pc } + 1 ≤
      s.left chunks file := by
  have hsum := sum_update_add s.tasks (TaskPc.left file.length) index pc
  unfold ByteState.left
  simp only
  omega

/-- Every step costs something, and a spurious wake-up gives back one. -/
theorem ByteInv.left_step (h : ByteInv chunks file s)
    (hstep : ByteStep mixedHash file chunkSize chunks s label t) :
    t.left chunks file + 1 ≤ s.left chunks file + if label.isSpurious then 2 else 0 := by
  cases hstep with
  | pool hlabel hstep =>
      have hpaid := h.pool.left_step (3 * file.length + 3) hlabel hstep
      change _ ≤ _ + if PoolLabel.isSpurious _ then 2 else 0
      unfold ByteState.left
      simp only
      omega
  | @seek index task hw hentered =>
      have hle := length_seekTask_le file chunkSize chunks s.tables (task, index)
      apply left_of_task
      rw [hentered, TaskPc.left, TaskPc.left]
      omega
  | copy index hpc =>
      apply left_of_task
      rw [hpc, TaskPc.left, TaskPc.left, List.length_cons]
      omega
  | copied index hpc =>
      apply left_of_task
      rw [hpc, TaskPc.left, TaskPc.left, List.length_nil, Nat.sub_zero, Nat.zero_add]
  | load index hpc hplace =>
      apply left_of_task
      rw [hpc, TaskPc.left, TaskPc.left]
  | store index hpc =>
      have hplace := h.places index _ _ _ hpc
      apply left_of_task
      rw [hpc, TaskPc.left, TaskPc.left]
      omega
  | @count index task place workers hpc hplace hreplace =>
      have hpool := left_finish threads chunks (3 * file.length + 3)
        (s.pool.finished ++ [(task, index.val)]) hreplace
      have hsum := sum_update_add s.tasks (TaskPc.left file.length) index .entered
      rw [hpc, TaskPc.left, TaskPc.left] at hsum
      change _ ≤ _ + 0
      unfold ByteState.left
      simp only
      omega

/-- The same, with nothing left once the threads are joined. -/
def ByteState.remaining (chunks : ℕ) (file : Buffer) (s : ByteState threads) : ℕ :=
  if s.pool.main = .joined then 0 else s.left chunks file + 1

theorem ByteState.joined_of_remaining (h : s.remaining chunks file = 0) : s.pool.main = .joined := by
  by_contra hjoined
  rw [ByteState.remaining, if_neg hjoined] at h
  cases h

theorem ByteState.remaining_lt (hjoined : s.pool.main ≠ .joined)
    (hpaid : t.left chunks file + 1 ≤ s.left chunks file) :
    t.remaining chunks file < s.remaining chunks file := by
  unfold ByteState.remaining
  rw [if_neg hjoined]
  split
  · exact Nat.succ_pos _
  · omega

/-! ### Some thread can always go on -/

/-- A thread that runs a task has a next step in it. -/
theorem ByteInv.exists_task_step (h : ByteInv chunks file s) (index : Fin threads) {task : ℕ}
    (hw : ⟨index.val, .running task⟩ ∈ s.pool.workers) :
    ∃ label t, label.isSpurious = false ∧ ByteStep mixedHash file chunkSize chunks s label t := by
  cases hpc : s.tasks index with
  | entered => exact ⟨_, _, rfl, .seek index hw hpc⟩
  | copying task' place bytes =>
      cases bytes with
      | nil => exact ⟨_, _, rfl, .copied index hpc⟩
      | cons byte bytes => exact ⟨_, _, rfl, .copy index hpc⟩
  | lowering task' place =>
      by_cases hplace : place < s.tables.read.shared.data.length
      · exact ⟨_, _, rfl, .load index hpc hplace⟩
      · have hw' := h.running index task' (by rw [hpc]; rfl)
        obtain ⟨workers, hreplace⟩ := Replaces.exists_of_mem ⟨index.val, .checking⟩ hw'
        exact ⟨_, _, rfl, .count index hpc hplace hreplace⟩
  | holding task' place byte => exact ⟨_, _, rfl, .store index hpc⟩

/-- Until the destructor has joined the threads, some thread can go on. -/
theorem ByteInv.exists_step (h : ByteInv chunks file s) (hjoined : s.pool.main ≠ .joined) :
    ∃ label t, label.isSpurious = false ∧ ByteStep mixedHash file chunkSize chunks s label t := by
  obtain ⟨label, pool, hspurious, hstep⟩ := h.pool.enabled hjoined
  by_cases hfinish : ∀ index, label ≠ .finish index
  · refine ⟨_, _, ?_, .pool hfinish hstep⟩
    cases label with
    | spurious index => exact absurd rfl (hspurious index)
    | _ => rfl
  · push Not at hfinish
    obtain ⟨index, rfl⟩ := hfinish
    cases hstep with
    | finish hreplace =>
        have hw := hreplace.mem_left
        have hlt : index < threads :=
          (h.pool.logged.index_lt hw).trans_le (MainPc.created_le h.pool.control.fits)
        exact h.exists_task_step ⟨index, hlt⟩ hw

end

end FreqUtility
