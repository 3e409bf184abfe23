/-
Module: FreqUtility.Proofs.ThreadPool
Layer: Proofs
Purpose: The pool runs every task once, whatever the order of its steps. Four invariants carry it: where the
  main thread is determines `stop`, the number of workers and the number of enqueued tasks (`Control`);
  the dequeued and the queued tasks are the enqueued ones (`Queued`); the dequeued tasks are the completed
  and the running ones, each running under its own index (`Logged`); and nobody sleeps, leaves or is
  joined while there is work that only he could do (`Attended`).
Imports: FreqUtility.Core.ThreadPool
Trusted boundary: none (fully proved)
Main exports: Control.step, Queued.step, Logged.step, Attended.step, PoolInv.run, PoolInv.enabled,
  pool_runs_every_task_once
Open obligations: none
-/
import FreqUtility.Core.ThreadPool

namespace FreqUtility

open Replace Transition

variable {threads chunks : ℕ} {s t : PoolState} {label : PoolLabel} {w : Worker}

/-! ### The main thread -/

/-- The destructor has set `stop`. -/
def MainPc.stopped : MainPc → Bool
  | .notifyingAll | .joining _ | .joined => true
  | _ => false

/-- The tasks enqueued so far. -/
def MainPc.pushed (chunks : ℕ) : MainPc → ℕ
  | .constructing _ => 0
  | .enqueuing i => i
  | .notifying i => i + 1
  | _ => chunks

/-- The loop counters are within their bounds, and the constructor has created `created` threads. -/
def MainPc.Fits (threads chunks created : ℕ) : MainPc → Prop
  | .constructing i => created = i ∧ i ≤ threads
  | .enqueuing i => created = threads ∧ i ≤ chunks
  | .notifying i => created = threads ∧ i < chunks
  | .notifyingAll | .joined => created = threads
  | .joining k => created = threads ∧ k ≤ threads
  | .thrown _ => False

structure Control (threads chunks : ℕ) (s : PoolState) : Prop where
  stop : s.stop = s.main.stopped
  fits : s.main.Fits threads chunks s.workers.length

theorem control_init (threads chunks : ℕ) : Control threads chunks PoolState.init where
  stop := rfl
  fits := ⟨rfl, Nat.zero_le threads⟩

/-- `enqueue` does not throw while the pool is in use. -/
theorem Control.push_eq (h : Control threads chunks s) {i : ℕ} (hmain : s.main = .enqueuing i) :
    s.push i = { s with tasks := s.tasks ++ [i], main := .notifying i } := by
  have hstop := h.stop
  rw [hmain] at hstop
  rw [PoolState.push, hstop]
  rfl

theorem Control.step (h : Control threads chunks s) (hstep : PoolStep threads chunks s label t) :
    Control threads chunks t := by
  have hstop := h.stop
  have hfits := h.fits
  cases hstep with
  | create hmain hlt =>
      rw [hmain] at hstop hfits
      exact ⟨hstop, by rw [List.length_append, hfits.1]; rfl, hlt⟩
  | constructed hmain hge =>
      rw [hmain] at hstop hfits
      exact ⟨hstop, hfits.1.trans (Nat.le_antisymm hfits.2 (Nat.le_of_not_lt hge)), Nat.zero_le chunks⟩
  | push hmain hlt =>
      rw [h.push_eq hmain]
      rw [hmain] at hstop hfits
      exact ⟨hstop, hfits.1, hlt⟩
  | notifyOne hmain hwake =>
      rw [hmain] at hstop hfits
      exact ⟨hstop, hwake.length_eq.trans hfits.1, hfits.2⟩
  | notifyNobody hmain _ =>
      rw [hmain] at hstop hfits
      exact ⟨hstop, hfits.1, hfits.2⟩
  | setStop hmain _ =>
      rw [hmain] at hfits
      exact ⟨rfl, hfits.1⟩
  | notifyAll hmain =>
      rw [hmain] at hstop hfits
      exact ⟨hstop, (List.length_map _).trans hfits, Nat.zero_le threads⟩
  | join hmain hk _ =>
      rw [hmain] at hstop hfits
      obtain ⟨hlt, -⟩ := List.getElem?_eq_some_iff.mp hk
      exact ⟨hstop, hfits.1, hfits.1 ▸ hlt⟩
  | allJoined hmain _ =>
      rw [hmain] at hstop hfits
      exact ⟨hstop, hfits.1⟩
  | sleep hmove _ => exact ⟨hstop, by rw [hmove.length_eq]; exact hfits⟩
  | exit hmove _ _ => exact ⟨hstop, by rw [hmove.length_eq]; exact hfits⟩
  | dequeue hmove _ _ _ => exact ⟨hstop, by rw [hmove.length_eq]; exact hfits⟩
  | finish hmove => exact ⟨hstop, by rw [hmove.length_eq]; exact hfits⟩
  | spurious hmove => exact ⟨hstop, by rw [hmove.length_eq]; exact hfits⟩

/-! ### The critical sections of a worker -/

theorem PoolState.waitPredicate_eq_false_iff :
    s.waitPredicate = false ↔ s.stop = false ∧ s.tasks = [] := by
  rw [PoolState.waitPredicate, Bool.or_eq_false_iff, Bool.not_eq_false', List.isEmpty_iff]

theorem PoolState.leaves_iff : (s.stop && s.tasks.isEmpty) = true ↔ s.stop = true ∧ s.tasks = [] := by
  rw [Bool.and_eq_true, List.isEmpty_iff]

/-! ### The queue -/

/-- The dequeued tasks and then the queued ones are the enqueued tasks in order. -/
def Queued (chunks : ℕ) (s : PoolState) : Prop :=
  s.started.map Prod.fst ++ s.tasks = List.range (s.main.pushed chunks)

theorem queued_init (chunks : ℕ) : Queued chunks PoolState.init := rfl

theorem Queued.step (h : Queued chunks s) (hcontrol : Control threads chunks s)
    (hstep : PoolStep threads chunks s label t) : Queued chunks t := by
  have hfits := hcontrol.fits
  cases hstep with
  | push hmain _ =>
      rw [hcontrol.push_eq hmain]
      rw [Queued, hmain] at h
      rw [Queued, ← List.append_assoc, h]
      exact List.range_succ.symm
  | setStop hmain hge =>
      rw [hmain] at hfits
      rw [Queued, hmain] at h
      rw [Queued, h]
      exact congrArg List.range (Nat.le_antisymm hfits.2 (Nat.le_of_not_lt hge))
  | dequeue _ _ _ htasks =>
      rw [Queued, htasks] at h
      rw [Queued, List.map_append, List.append_assoc]
      exact h
  | create hmain _ | constructed hmain _ | notifyOne hmain _ | notifyNobody hmain _ | notifyAll hmain
  | join hmain _ _ | allJoined hmain _ =>
      rw [Queued, hmain] at h
      exact h
  | sleep _ _ | exit _ _ _ | finish _ | spurious _ => exact h

/-! ### The tasks that are run -/

/-- Every thread has the index of its place, tasks were given such indices only, and the dequeued tasks
    are the completed and the running ones. -/
structure Logged (s : PoolState) : Prop where
  indices : s.workers.map Worker.index = List.range s.workers.length
  bound : ∀ task ∈ s.started, task.2 < s.workers.length
  started : s.started.Perm (s.finished ++ s.running)

theorem logged_init : Logged PoolState.init where
  indices := rfl
  bound := fun _ htask => absurd htask List.not_mem_nil
  started := List.Perm.refl _

theorem Worker.index_wake (w : Worker) : w.wake.index = w.index := by
  unfold Worker.wake
  split
  · rfl
  · rfl

theorem Worker.current_wake (w : Worker) : w.wake.current = w.current := by
  unfold Worker.wake
  split
  · rename_i hpc
    rw [Worker.current, Worker.current, hpc]
  · rfl

theorem Logged.index_lt (h : Logged s) (hw : w ∈ s.workers) : w.index < s.workers.length := by
  apply List.mem_range.mp
  rw [← h.indices]
  exact List.mem_map_of_mem hw

/-- The main thread moves on. -/
theorem Logged.advance (h : Logged s) {main : MainPc} {tasks : List ℕ} {stop : Bool} :
    Logged { s with main, tasks, stop } where
  indices := h.indices
  bound := h.bound
  started := h.started

/-- A step of one thread, with what it adds to the logs. -/
theorem Logged.move (h : Logged s) {a b : Worker} {workers : List Worker} {tasks : List ℕ}
    {started finished : List (ℕ × ℕ)} (hmove : Replaces a b s.workers workers)
    (hindex : b.index = a.index)
    (hbound : ∀ task ∈ started, task ∈ s.started ∨ task.2 = a.index)
    (hstarted : started.Perm (finished ++ workers.filterMap Worker.current)) :
    Logged { s with workers, tasks, started, finished } where
  indices := by
    rw [hmove.map_eq hindex, hmove.length_eq]
    exact h.indices
  bound := by
    intro task htask
    rw [hmove.length_eq]
    obtain hold | hnew := hbound task htask
    · exact h.bound task hold
    · exact hnew ▸ h.index_lt hmove.mem_left
  started := hstarted

/-- A step of one thread outside of its task. -/
theorem Logged.move_outside (h : Logged s) {a b : Worker} {workers : List Worker}
    (hmove : Replaces a b s.workers workers) (hindex : b.index = a.index)
    (hcurrent : b.current = a.current) : Logged { s with workers } := by
  refine h.move hmove hindex (fun task htask => Or.inl htask) ?_
  have hrunning : workers.filterMap Worker.current = s.running := hmove.filterMap_eq hcurrent
  rw [hrunning]
  exact h.started

theorem Logged.step (h : Logged s) (hcontrol : Control threads chunks s)
    (hstep : PoolStep threads chunks s label t) : Logged t := by
  have hindices := h.indices
  have hstarted := h.started
  cases hstep with
  | @create i hmain _ =>
      have hfits := hcontrol.fits
      rw [hmain] at hfits
      have hlength : (s.workers ++ [(⟨i, .checking⟩ : Worker)]).length = s.workers.length + 1 := by
        simp
      refine ⟨?_, ?_, ?_⟩
      · rw [List.map_append, hindices, hlength, hfits.1]
        exact List.range_succ.symm
      · intro task htask
        rw [hlength]
        exact Nat.lt_succ_of_lt (h.bound task htask)
      · rw [PoolState.running, List.filterMap_append]
        exact hstarted.trans (List.Perm.of_eq (by simp [Worker.current, PoolState.running]))
  | push hmain _ =>
      rw [hcontrol.push_eq hmain]
      exact h.advance
  | notifyAll _ =>
      refine ⟨?_, ?_, ?_⟩
      · rw [List.map_map, List.length_map, ← hindices]
        exact List.map_congr_left fun w _ => w.index_wake
      · rw [List.length_map]
        exact h.bound
      · have hrunning : (s.workers.map Worker.wake).filterMap Worker.current = s.running := by
          rw [List.filterMap_map, PoolState.running]
          exact List.filterMap_congr fun w _ => w.current_wake
        rw [PoolState.running, hrunning]
        exact hstarted
  | notifyOne _ hmove => exact (h.move_outside hmove rfl rfl).advance
  | sleep hmove _ => exact h.move_outside hmove rfl rfl
  | exit hmove _ _ => exact h.move_outside hmove rfl rfl
  | spurious hmove => exact h.move_outside hmove rfl rfl
  | @dequeue index task tasks workers hmove _ _ _ =>
      refine h.move hmove rfl (fun task' htask => ?_) ?_
      · rcases List.mem_append.mp htask with hold | hnew
        · exact Or.inl hold
        · exact Or.inr (List.mem_singleton.mp hnew ▸ rfl)
      · have hrunning : (workers.filterMap Worker.current).Perm ((task, index) :: s.running) :=
          hmove.filterMap_perm rfl rfl
        calc s.started ++ [(task, index)]
            _ |>.Perm (s.finished ++ s.running ++ [(task, index)]) := hstarted.append_right _
            _ = s.finished ++ (s.running ++ [(task, index)]) := List.append_assoc _ _ _
            _ |>.Perm (s.finished ++ (task, index) :: s.running) :=
                (List.perm_append_singleton _ _).append_left _
            _ |>.Perm (s.finished ++ workers.filterMap Worker.current) := hrunning.symm.append_left _
  | @finish index task workers hmove =>
      refine h.move hmove rfl (fun task htask => Or.inl htask) ?_
      have hrunning : s.running.Perm ((task, index) :: workers.filterMap Worker.current) :=
        hmove.symm.filterMap_perm rfl rfl
      calc s.started
          _ |>.Perm (s.finished ++ s.running) := hstarted
          _ |>.Perm (s.finished ++ (task, index) :: workers.filterMap Worker.current) :=
              hrunning.append_left _
          _ = s.finished ++ [(task, index)] ++ workers.filterMap Worker.current := by simp
  | constructed _ _ | notifyNobody _ _ | setStop _ _ | join _ _ _ | allJoined _ _ => exact h.advance

/-- The indices of the running tasks are indices of threads, each of at most one. -/
theorem running_sublist (s : PoolState) :
    (s.running.map Prod.snd).Sublist (s.workers.map Worker.index) := by
  unfold PoolState.running
  induction s.workers with
  | nil => exact List.Sublist.slnil
  | cons w workers ih =>
      cases hpc : w.pc with
      | running task =>
          have hcurrent : w.current = some (task, w.index) := by rw [Worker.current, hpc]
          rw [List.filterMap_cons_some hcurrent]
          exact ih.cons_cons w.index
      | _ =>
          have hcurrent : w.current = none := by rw [Worker.current, hpc]
          rw [List.filterMap_cons_none hcurrent]
          exact ih.cons w.index

/-- No two tasks run under one index. -/
theorem Logged.running_nodup (h : Logged s) : (s.running.map Prod.snd).Nodup := by
  have hindices : (s.workers.map Worker.index).Nodup := by
    rw [h.indices]
    exact List.nodup_range
  exact hindices.sublist (running_sublist s)

/-- Once all threads have left, the completed tasks are the dequeued ones. -/
theorem Logged.finished_perm (h : Logged s) (hexited : ∀ w ∈ s.workers, w.pc = .exited) :
    s.finished.Perm s.started := by
  have hrunning : s.running = [] := by
    apply List.filterMap_eq_nil_iff.mpr
    intro w hw
    rw [Worker.current, hexited w hw]
  have hstarted := h.started
  rw [hrunning, List.append_nil] at hstarted
  exact hstarted.symm

/-! ### No wake-up is lost -/

/-- A thread that will test the predicate again without being notified. -/
def Worker.Awake (w : Worker) : Prop := w.pc = .checking ∨ ∃ task, w.pc = .running task

/-- The destructor has notified all threads. -/
def MainPc.Released : MainPc → Prop
  | .joining _ | .joined => True
  | _ => False

theorem MainPc.Released.stopped {main : MainPc} (h : main.Released) : main.stopped = true := by
  cases main with
  | joining _ | joined => rfl
  | _ => exact h.elim

/-- The destructor has joined the thread at place `j`. -/
def MainPc.Joins (j : ℕ) : MainPc → Prop
  | .joining k => j < k
  | .joined => True
  | _ => False

/-- Queued tasks are attended to, nobody sleeps after the last notification, and threads leave only when
    there is nothing left to do. -/
structure Attended (s : PoolState) : Prop where
  awake : s.tasks ≠ [] → (∃ i, s.main = .notifying i) ∨ ∃ w ∈ s.workers, w.Awake
  sleeping : ∀ w ∈ s.workers, w.pc = .sleeping → ¬ s.main.Released
  exited : ∀ w ∈ s.workers, w.pc = .exited → s.stop = true ∧ s.tasks = []
  joined : ∀ j w, s.workers[j]? = some w → s.main.Joins j → w.pc = .exited

theorem attended_init : Attended PoolState.init where
  awake := fun h => absurd rfl h
  sleeping := fun w hw => absurd hw List.not_mem_nil
  exited := fun w hw => absurd hw List.not_mem_nil
  joined := fun j w hw => by cases hw

theorem Worker.pc_wake_ne_sleeping (w : Worker) : w.wake.pc ≠ .sleeping := by
  unfold Worker.wake
  split
  · exact WorkerPc.noConfusion
  · rename_i hpc
    exact hpc

theorem Worker.wake_of_ne {w : Worker} (h : w.pc ≠ .sleeping) : w.wake = w := if_neg h

theorem Worker.pc_of_wake_exited {w : Worker} (h : w.wake.pc = .exited) : w.pc = .exited := by
  unfold Worker.wake at h
  split at h
  · cases h
  · exact h

theorem Worker.Awake.wake {w : Worker} (h : w.Awake) : w.wake.Awake := by
  obtain hpc | ⟨task, hpc⟩ := h
  · rw [Worker.wake_of_ne (by rw [hpc]; exact WorkerPc.noConfusion)]
    exact Or.inl hpc
  · rw [Worker.wake_of_ne (by rw [hpc]; exact WorkerPc.noConfusion)]
    exact Or.inr ⟨task, hpc⟩

/-- Outside of a notification somebody is awake for the queued tasks. -/
theorem Attended.exists_awake (h : Attended s) (hmain : ∀ i, s.main ≠ .notifying i)
    (htasks : s.tasks ≠ []) : ∃ w ∈ s.workers, w.Awake := by
  obtain ⟨i, hi⟩ | hawake := h.awake htasks
  · exact absurd hi (hmain i)
  · exact hawake

/-- With nobody asleep and `stop` not set, every thread is awake. -/
theorem Attended.exists_awake_of_not_sleeping (h : Attended s) (hworkers : 0 < s.workers.length)
    (hstop : s.stop = false) (hsleeping : ∀ w ∈ s.workers, w.pc ≠ .sleeping) :
    ∃ w ∈ s.workers, w.Awake := by
  obtain ⟨w, hw⟩ := List.exists_mem_of_length_pos hworkers
  refine ⟨w, hw, ?_⟩
  cases hpc : w.pc with
  | checking => exact Or.inl hpc
  | sleeping => exact absurd hpc (hsleeping w hw)
  | running task => exact Or.inr ⟨task, hpc⟩
  | exited =>
      have := (h.exited w hw hpc).1
      rw [hstop] at this
      cases this

/-- One thread moves: the others are as they were, and the thread itself is to be looked at. -/
theorem Attended.move (h : Attended s) {a b : Worker} {workers : List Worker} {tasks : List ℕ}
    {started finished : List (ℕ × ℕ)} (hmove : Replaces a b s.workers workers)
    (htasks : s.tasks = [] → tasks = []) (ha : a.pc ≠ .exited)
    (hsleeping : b.pc = .sleeping → ¬ s.main.Released)
    (hexited : b.pc = .exited → s.stop = true ∧ tasks = []) (hawake : tasks ≠ [] → b.Awake) :
    Attended { s with workers, tasks, started, finished } where
  awake := fun hne => Or.inr ⟨b, hmove.mem_right, hawake hne⟩
  sleeping := by
    intro w hw
    obtain rfl | hold := hmove.mem_or hw
    · exact hsleeping
    · exact h.sleeping w hold
  exited := by
    intro w hw
    obtain rfl | hold := hmove.mem_or hw
    · exact hexited
    · exact fun hpc => (h.exited w hold hpc).imp_right htasks
  joined := by
    intro j w hw hjoins
    obtain ⟨hold, -⟩ | hold := hmove.getElem?_or hw
    · exact absurd (h.joined j a hold hjoins) ha
    · exact h.joined j w hold hjoins

/-- One thread goes to the top of its loop: woken up, or done with its task. -/
theorem Attended.awaken (h : Attended s) {index : ℕ} {pc : WorkerPc} {workers : List Worker}
    {finished : List (ℕ × ℕ)} (hmove : Replaces ⟨index, pc⟩ ⟨index, .checking⟩ s.workers workers)
    (hpc : pc ≠ .exited) : Attended { s with workers, finished } :=
  h.move hmove id hpc (fun hpc => by cases hpc) (fun hpc => by cases hpc) fun _ => Or.inl rfl

/-- The main thread moves on before the last notification. -/
theorem Attended.advance (h : Attended s) {main : MainPc} (hreleased : ¬ main.Released)
    (hjoins : ∀ j, ¬ main.Joins j) (hawake : s.tasks ≠ [] → ∃ w ∈ s.workers, w.Awake) :
    Attended { s with main := main } where
  awake := fun htasks => Or.inr (hawake htasks)
  sleeping := fun _ _ _ => hreleased
  exited := h.exited
  joined := fun j _ _ hj => absurd hj (hjoins j)

/-- The main thread moves on after the last notification. -/
theorem Attended.advance_released (h : Attended s) {main : MainPc} (hreleased : s.main.Released)
    (hjoined : ∀ j w, s.workers[j]? = some w → main.Joins j → w.pc = .exited) :
    Attended { s with main := main } where
  awake := by
    intro htasks
    refine Or.inr (h.exists_awake (fun i hi => ?_) htasks)
    rw [hi] at hreleased
    exact hreleased
  sleeping := fun w hw hpc => absurd hreleased (h.sleeping w hw hpc)
  exited := h.exited
  joined := hjoined

theorem Attended.step (h : Attended s) (hcontrol : Control threads chunks s) (hthreads : 1 ≤ threads)
    (hstep : PoolStep threads chunks s label t) : Attended t := by
  have hstop := hcontrol.stop
  have hfits := hcontrol.fits
  cases hstep with
  | create hmain _ =>
      refine ⟨?_, fun _ _ _ => id, ?_, fun _ _ _ => False.elim⟩
      · intro htasks
        obtain ⟨w, hw, hawake⟩ := h.exists_awake (fun i => by rw [hmain]; exact MainPc.noConfusion) htasks
        exact Or.inr ⟨w, List.mem_append_left _ hw, hawake⟩
      · intro w hw hpc
        rcases List.mem_append.mp hw with hold | hnew
        · exact h.exited w hold hpc
        · rw [List.mem_singleton.mp hnew] at hpc
          cases hpc
  | constructed hmain _ =>
      exact h.advance id (fun _ => id)
        (h.exists_awake fun i => by rw [hmain]; exact MainPc.noConfusion)
  | @push i hmain _ =>
      rw [hcontrol.push_eq hmain]
      refine ⟨fun _ => Or.inl ⟨i, rfl⟩, fun _ _ _ => id, ?_, fun _ _ _ => False.elim⟩
      intro w hw hpc
      rw [hmain, (h.exited w hw hpc).1] at hstop
      cases hstop
  | @notifyOne i index workers _ hmove =>
      have hmoved : Attended { s with workers } := h.awaken hmove WorkerPc.noConfusion
      exact hmoved.advance id (fun _ => id) fun _ => ⟨⟨index, .checking⟩, hmove.mem_right, Or.inl rfl⟩
  | notifyNobody hmain hsleeping =>
      rw [hmain] at hstop hfits
      exact h.advance id (fun _ => id) fun _ =>
        h.exists_awake_of_not_sleeping (by rw [hfits.1]; exact hthreads) hstop hsleeping
  | setStop hmain _ =>
      refine ⟨?_, fun _ _ _ => id, ?_, fun _ _ _ => False.elim⟩
      · intro htasks
        exact Or.inr (h.exists_awake (fun i => by rw [hmain]; exact MainPc.noConfusion) htasks)
      · exact fun w hw hpc => ⟨rfl, (h.exited w hw hpc).2⟩
  | notifyAll hmain =>
      refine ⟨?_, ?_, ?_, fun j _ _ hj => absurd hj (Nat.not_lt_zero j)⟩
      · intro htasks
        obtain ⟨w, hw, hawake⟩ := h.exists_awake (fun i => by rw [hmain]; exact MainPc.noConfusion) htasks
        exact Or.inr ⟨w.wake, List.mem_map_of_mem hw, hawake.wake⟩
      · intro w hw hpc
        obtain ⟨w', -, rfl⟩ := List.mem_map.mp hw
        exact absurd hpc w'.pc_wake_ne_sleeping
      · intro w hw hpc
        obtain ⟨w', hw', rfl⟩ := List.mem_map.mp hw
        exact h.exited w' hw' (Worker.pc_of_wake_exited hpc)
  | @join k w hmain hk hpc =>
      refine h.advance_released (by rw [hmain]; trivial) ?_
      intro j w' hj hjoins
      rcases Nat.lt_succ_iff_lt_or_eq.mp hjoins with hlt | rfl
      · exact h.joined j w' hj (by rw [hmain]; exact hlt)
      · rw [hk] at hj
        exact Option.some.inj hj ▸ hpc
  | @allJoined k hmain hk =>
      refine h.advance_released (by rw [hmain]; trivial) ?_
      intro j w hj _
      have hlt := (List.getElem?_eq_some_iff.mp hj).1
      refine h.joined j w hj ?_
      rw [hmain]
      exact Nat.lt_of_lt_of_le hlt (List.getElem?_eq_none_iff.mp hk)
  | sleep hmove hpredicate =>
      obtain ⟨hnotStopped, hempty⟩ := PoolState.waitPredicate_eq_false_iff.mp hpredicate
      refine h.move hmove id WorkerPc.noConfusion (fun _ hreleased => ?_) (fun hpc => by cases hpc)
        fun hne => absurd hempty hne
      rw [hnotStopped] at hstop
      exact absurd hreleased.stopped (by rw [← hstop]; exact Bool.noConfusion)
  | exit hmove _ hdone =>
      obtain ⟨hstopped, hempty⟩ := PoolState.leaves_iff.mp hdone
      exact h.move hmove id WorkerPc.noConfusion (fun hpc => by cases hpc)
        (fun _ => ⟨hstopped, hempty⟩) fun hne => absurd hempty hne
  | dequeue hmove _ _ htasks =>
      refine h.move hmove (fun hempty => ?_) WorkerPc.noConfusion (fun hpc => by cases hpc)
        (fun hpc => by cases hpc) fun _ => Or.inr ⟨_, rfl⟩
      rw [htasks] at hempty
      cases hempty
  | finish hmove => exact h.awaken hmove WorkerPc.noConfusion
  | spurious hmove => exact h.awaken hmove WorkerPc.noConfusion

/-! ### Every run -/

structure PoolInv (threads chunks : ℕ) (s : PoolState) : Prop where
  control : Control threads chunks s
  queued : Queued chunks s
  logged : Logged s
  attended : Attended s

theorem PoolInv.init (threads chunks : ℕ) : PoolInv threads chunks PoolState.init where
  control := control_init threads chunks
  queued := queued_init chunks
  logged := logged_init
  attended := attended_init

theorem PoolInv.step (h : PoolInv threads chunks s) (hthreads : 1 ≤ threads)
    (hstep : PoolStep threads chunks s label t) : PoolInv threads chunks t where
  control := h.control.step hstep
  queued := h.queued.step h.control hstep
  logged := h.logged.step h.control hstep
  attended := h.attended.step h.control hthreads hstep

theorem PoolInv.run {labels : List PoolLabel} (hthreads : 1 ≤ threads)
    (hrun : Run (PoolStep threads chunks) PoolState.init labels s) : PoolInv threads chunks s :=
  hrun.preserves (fun _ _ _ h hstep => h.step hthreads hstep) (PoolInv.init threads chunks)

theorem MainPc.pushed_le {main : MainPc} {created : ℕ} (h : main.Fits threads chunks created) :
    main.pushed chunks ≤ chunks := by
  cases main with
  | constructing i => exact Nat.zero_le chunks
  | enqueuing i => exact h.2
  | notifying i => exact h.2
  | _ => exact Nat.le_refl chunks

theorem MainPc.created_le {main : MainPc} {created : ℕ} (h : main.Fits threads chunks created) :
    created ≤ threads := by
  cases main with
  | constructing i => exact h.1 ▸ h.2
  | enqueuing i | notifying i | joining k => exact Nat.le_of_eq h.1
  | notifyingAll | joined => exact Nat.le_of_eq h
  | thrown message => exact h.elim

/-- No task is dequeued twice. -/
theorem PoolInv.started_nodup (h : PoolInv threads chunks s) : (s.started.map Prod.fst).Nodup := by
  have hall : (s.started.map Prod.fst ++ s.tasks).Nodup := by
    rw [h.queued]
    exact List.nodup_range
  exact hall.of_append_left

theorem PoolInv.task_lt (h : PoolInv threads chunks s) {task : ℕ × ℕ} (htask : task ∈ s.started) :
    task.1 < chunks := by
  have hmem : task.1 ∈ List.range (s.main.pushed chunks) := by
    rw [← h.queued]
    exact List.mem_append_left _ (List.mem_map_of_mem htask)
  exact Nat.lt_of_lt_of_le (List.mem_range.mp hmem) (MainPc.pushed_le h.control.fits)

/-- When all threads are joined, every task was completed once. -/
theorem PoolInv.finished_perm (h : PoolInv threads chunks s) (hthreads : 1 ≤ threads)
    (hjoined : s.main = .joined) :
    s.finished.Perm s.started ∧ (s.finished.map Prod.fst).Perm (List.range chunks) := by
  have hexited : ∀ w ∈ s.workers, w.pc = .exited := by
    intro w hw
    obtain ⟨j, hj⟩ := List.mem_iff_getElem?.mp hw
    exact h.attended.joined j w hj (by rw [hjoined]; trivial)
  have hcreated := h.control.fits
  rw [hjoined] at hcreated
  obtain ⟨w, hw⟩ := List.exists_mem_of_length_pos (hthreads.trans_eq hcreated.symm)
  have hqueued := h.queued
  rw [Queued, (h.attended.exited w hw (hexited w hw)).2, List.append_nil, hjoined] at hqueued
  have hperm := h.logged.finished_perm hexited
  exact ⟨hperm, (hperm.map Prod.fst).trans (List.Perm.of_eq hqueued)⟩

/-! ### Some thread can always go on -/

/-- A step that does not wait for a spurious wake-up. -/
def Enabled (threads chunks : ℕ) (s : PoolState) : Prop :=
  ∃ label t, (∀ index, label ≠ .spurious index) ∧ PoolStep threads chunks s label t

/-- The critical section of a worker has an outcome whatever the queue is. -/
theorem enabled_of_checking {index : ℕ} (hw : ⟨index, .checking⟩ ∈ s.workers) :
    Enabled threads chunks s := by
  cases hpredicate : s.waitPredicate with
  | false =>
      obtain ⟨workers, hmove⟩ := Replaces.exists_of_mem ⟨index, .sleeping⟩ hw
      exact ⟨.sleep index, _, fun _ => PoolLabel.noConfusion, .sleep hmove hpredicate⟩
  | true =>
      cases hdone : s.stop && s.tasks.isEmpty with
      | true =>
          obtain ⟨workers, hmove⟩ := Replaces.exists_of_mem ⟨index, .exited⟩ hw
          exact ⟨.exit index, _, fun _ => PoolLabel.noConfusion, .exit hmove hpredicate hdone⟩
      | false =>
          cases htasks : s.tasks with
          | nil =>
              rw [PoolState.waitPredicate, htasks] at hpredicate
              rw [htasks] at hdone
              cases hstop : s.stop with
              | false => rw [hstop] at hpredicate; cases hpredicate
              | true => rw [hstop] at hdone; cases hdone
          | cons task tasks =>
              obtain ⟨workers, hmove⟩ := Replaces.exists_of_mem ⟨index, .running task⟩ hw
              exact ⟨.dequeue index, _, fun _ => PoolLabel.noConfusion,
                .dequeue hmove hpredicate hdone htasks⟩

theorem enabled_of_running {index task : ℕ} (hw : ⟨index, .running task⟩ ∈ s.workers) :
    Enabled threads chunks s := by
  obtain ⟨workers, hmove⟩ := Replaces.exists_of_mem ⟨index, .checking⟩ hw
  exact ⟨.finish index, _, fun _ => PoolLabel.noConfusion, .finish hmove⟩

/-- The pool is never stuck before the destructor returns. -/
theorem PoolInv.enabled (h : PoolInv threads chunks s) (hjoined : s.main ≠ .joined) :
    Enabled threads chunks s := by
  cases hmain : s.main with
  | constructing i =>
      by_cases hlt : i < threads
      · exact ⟨.create, _, fun _ => PoolLabel.noConfusion, .create hmain hlt⟩
      · exact ⟨.constructed, _, fun _ => PoolLabel.noConfusion, .constructed hmain hlt⟩
  | enqueuing i =>
      by_cases hlt : i < chunks
      · exact ⟨.push, _, fun _ => PoolLabel.noConfusion, .push hmain hlt⟩
      · exact ⟨.setStop, _, fun _ => PoolLabel.noConfusion, .setStop hmain hlt⟩
  | notifying i =>
      by_cases hsleeping : ∀ w ∈ s.workers, w.pc ≠ .sleeping
      · exact ⟨.notifyNobody, _, fun _ => PoolLabel.noConfusion, .notifyNobody hmain hsleeping⟩
      · push Not at hsleeping
        obtain ⟨⟨index, pc⟩, hw, rfl⟩ := hsleeping
        obtain ⟨workers, hmove⟩ := Replaces.exists_of_mem ⟨index, .checking⟩ hw
        exact ⟨.notifyOne index, _, fun _ => PoolLabel.noConfusion, .notifyOne hmain hmove⟩
  | notifyingAll => exact ⟨.notifyAll, _, fun _ => PoolLabel.noConfusion, .notifyAll hmain⟩
  | joining k =>
      cases hk : s.workers[k]? with
      | none => exact ⟨.allJoined, _, fun _ => PoolLabel.noConfusion, .allJoined hmain hk⟩
      | some w =>
          -- The destructor waits for this thread, which is not asleep any more.
          obtain ⟨index, pc⟩ := w
          have hw := List.mem_of_getElem? hk
          cases pc with
          | checking => exact enabled_of_checking hw
          | sleeping => exact absurd (by rw [hmain]; trivial) (h.attended.sleeping _ hw rfl)
          | running task => exact enabled_of_running hw
          | exited => exact ⟨.join, _, fun _ => PoolLabel.noConfusion, .join hmain hk rfl⟩
  | joined => exact absurd hmain hjoined
  | thrown message =>
      have hfits := h.control.fits
      rw [hmain] at hfits
      exact hfits.elim

/-! ### Every task once -/

/-- In every run of a pool with at least one thread: no task is dequeued twice, tasks get indices of
    threads only, those dequeued are completed or running, no two run under one index, no thread has left
    while tasks are queued, after the last join every task was completed exactly once, and before it some
    thread can go on without a spurious wake-up. -/
theorem pool_runs_every_task_once (hthreads : 1 ≤ threads) {labels : List PoolLabel}
    (hrun : Run (PoolStep threads chunks) PoolState.init labels s) :
    (s.started.map Prod.fst).Nodup ∧
      (∀ task ∈ s.started, task.1 < chunks ∧ task.2 < threads) ∧
      s.started.Perm (s.finished ++ s.running) ∧
      (s.running.map Prod.snd).Nodup ∧
      (∀ w ∈ s.workers, w.pc = .exited → s.tasks = []) ∧
      (s.main = .joined → (s.finished.map Prod.fst).Perm (List.range chunks)) ∧
      (s.main ≠ .joined → Enabled threads chunks s) := by
  have hinv := PoolInv.run hthreads hrun
  refine ⟨hinv.started_nodup, ?_, hinv.logged.started, hinv.logged.running_nodup, ?_, ?_, hinv.enabled⟩
  · intro task htask
    exact ⟨hinv.task_lt htask,
      (hinv.logged.bound task htask).trans_le (MainPc.created_le hinv.control.fits)⟩
  · exact fun w hw hpc => (hinv.attended.exited w hw hpc).2
  · exact fun hjoined => (hinv.finished_perm hthreads hjoined).2

/-- Two threads and one task: the first thread is notified, the second one takes the task, and the first
    one sleeps again until the destructor wakes it up. -/
theorem pool_runs_every_task_once_stolen_task :
    ∃ s, Run (PoolStep 2 1) PoolState.init
        [.create, .create, .constructed, .sleep 0, .push, .notifyOne 0, .dequeue 1, .sleep 0, .finish 1,
          .setStop, .notifyAll, .exit 1, .exit 0, .join, .join, .allJoined] s ∧
      s.main = .joined ∧ (s.finished.map Prod.fst).Perm (List.range 1) := by
  have hrun : Run (PoolStep 2 1) PoolState.init
      [.create, .create, .constructed, .sleep 0, .push, .notifyOne 0, .dequeue 1, .sleep 0, .finish 1,
        .setStop, .notifyAll, .exit 1, .exit 0, .join, .join, .allJoined]
      ⟨.joined, [⟨0, .exited⟩, ⟨1, .exited⟩], [], true, [(0, 1)], [(0, 1)]⟩ :=
    .cons (.create rfl (by decide)) <| .cons (.create rfl (by decide)) <|
      .cons (.constructed rfl (by decide)) <| .cons (.sleep (.head _) rfl) <|
      .cons (.push rfl (by decide)) <| .cons (.notifyOne rfl (.head _)) <|
      .cons (.dequeue (.tail _ (.head _)) rfl rfl rfl) <| .cons (.sleep (.head _) rfl) <|
      .cons (.finish (.tail _ (.head _))) <| .cons (.setStop rfl (by decide)) <|
      .cons (.notifyAll rfl) <| .cons (.exit (.tail _ (.head _)) rfl rfl) <|
      .cons (.exit (.head _) rfl rfl) <| .cons (.join rfl rfl rfl) <| .cons (.join rfl rfl rfl) <|
      .cons (.allJoined rfl rfl) <| .nil _
  obtain ⟨-, -, -, -, -, hall, -⟩ := pool_runs_every_task_once (by decide) hrun
  exact ⟨_, hrun, rfl, hall rfl⟩

end FreqUtility
