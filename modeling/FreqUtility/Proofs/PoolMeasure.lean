/-
Module: FreqUtility.Proofs.PoolMeasure
Layer: Proofs
Purpose: What is left to do in the pool. Every step of the main thread, every turn of a worker and every
  task has its price, and a step costs at least one; only a spurious wake-up gives something back. The end
  of a task pays for the steps that the task itself takes.
Imports: FreqUtility.Proofs.ThreadPool
Trusted boundary: none (fully proved)
Main exports: PoolState.left, PoolInv.left_step, PoolInv.left_finish
Open obligations: none
-/
import FreqUtility.Proofs.ThreadPool

namespace FreqUtility

open Replace Transition

variable {threads chunks work : ℕ} {s t : PoolState} {label : PoolLabel}

/-- The steps that the main thread still takes. -/
def MainPc.left (threads chunks : ℕ) : MainPc → ℕ
  | .constructing i => (threads - i) + 2 * chunks + threads + 5
  | .enqueuing i => 2 * (chunks - i) + threads + 4
  | .notifying i => 2 * (chunks - (i + 1)) + 1 + threads + 4
  | .notifyingAll => threads + 3
  | .joining k => (threads - k) + 1
  | .joined | .thrown _ => 0

/-- The price of a worker; `work` bounds the steps inside of a task. -/
def WorkerPc.left (work : ℕ) : WorkerPc → ℕ
  | .checking => 1
  | .running _ => work + 2
  | .sleeping | .exited => 0

def Worker.left (work : ℕ) (w : Worker) : ℕ := w.pc.left work

/-- The price of everything that is left to do. -/
def PoolState.left (threads chunks work : ℕ) (s : PoolState) : ℕ :=
  (work + threads + 4) * s.main.left threads chunks + (work + 2) * s.tasks.length +
    (s.workers.map (Worker.left work)).sum

theorem sum_left_wake_le (work : ℕ) (workers : List Worker) :
    ((workers.map Worker.wake).map (Worker.left work)).sum ≤
      (workers.map (Worker.left work)).sum + workers.length := by
  induction workers with
  | nil => exact Nat.le_refl _
  | cons w workers ih =>
      have hwake : w.wake.left work ≤ w.left work + 1 := by
        unfold Worker.wake
        split
        · exact Nat.le_add_left 1 _
        · exact Nat.le_succ _
      rw [List.map_cons, List.map_cons, List.map_cons, List.sum_cons, List.sum_cons, List.length_cons]
      omega

/-- A wake-up that no notification caused. -/
def PoolLabel.isSpurious : PoolLabel → Bool
  | .spurious _ => true
  | _ => false

/-- A step of the main thread pays for one more task and for a wake-up of every worker. -/
theorem left_of_main (hmain : t.main.left threads chunks + 1 ≤ s.main.left threads chunks)
    (htasks : t.tasks.length ≤ s.tasks.length + 1)
    (hworkers : (t.workers.map (Worker.left work)).sum ≤
      (s.workers.map (Worker.left work)).sum + threads + 1) :
    t.left threads chunks work + 1 ≤ s.left threads chunks work := by
  have hpaid : (work + threads + 4) * t.main.left threads chunks + (work + threads + 4) ≤
      (work + threads + 4) * s.main.left threads chunks := by
    rw [← Nat.mul_succ]
    exact Nat.mul_le_mul_left _ hmain
  have hqueued : (work + 2) * t.tasks.length ≤ (work + 2) * s.tasks.length + (work + 2) := by
    rw [← Nat.mul_succ]
    exact Nat.mul_le_mul_left _ htasks
  unfold PoolState.left
  omega

/-- A worker that goes on pays the difference itself. -/
theorem left_of_worker (threads chunks work : ℕ) {a b : Worker} (hmain : t.main = s.main)
    (hmove : Replaces a b s.workers t.workers) :
    t.left threads chunks work + a.pc.left work + (work + 2) * s.tasks.length =
      s.left threads chunks work + b.pc.left work + (work + 2) * t.tasks.length := by
  have hworkers := hmove.sum_map (Worker.left work)
  change _ + a.pc.left work = _ + b.pc.left work at hworkers
  unfold PoolState.left
  rw [hmain]
  omega

/-- Every step that does not end a task costs something, and a spurious wake-up gives back one. -/
theorem PoolInv.left_step (h : PoolInv threads chunks s) (work : ℕ) (hlabel : ∀ index, label ≠ .finish index)
    (hstep : PoolStep threads chunks s label t) :
    t.left threads chunks work + 1 ≤
      s.left threads chunks work + if label.isSpurious then 2 else 0 := by
  have hcreated := MainPc.created_le h.control.fits
  cases hstep with
  | @create i hmain hlt =>
      apply left_of_main
      · rw [hmain, MainPc.left, MainPc.left]
        omega
      · exact Nat.le_succ _
      · rw [List.map_append, List.sum_append]
        change _ + 1 ≤ _
        omega
  | @constructed i hmain hlt =>
      apply left_of_main
      · rw [hmain, MainPc.left, MainPc.left]
        omega
      · exact Nat.le_succ _
      · exact Nat.le_add_right _ (threads + 1)
  | @push i hmain hlt =>
      rw [h.control.push_eq hmain]
      apply left_of_main
      · rw [hmain, MainPc.left, MainPc.left]
        omega
      · exact List.length_append.le
      · exact Nat.le_add_right _ (threads + 1)
  | @notifyOne i index workers hmain hmove =>
      have hwoken := hmove.sum_map (Worker.left work)
      change (workers.map _).sum + 0 = _ + 1 at hwoken
      apply left_of_main
      · rw [hmain, MainPc.left, MainPc.left]
        omega
      · exact Nat.le_succ _
      · change (List.map _ workers).sum ≤ _
        omega
  | @notifyNobody i hmain hnobody =>
      apply left_of_main
      · rw [hmain, MainPc.left, MainPc.left]
        omega
      · exact Nat.le_succ _
      · exact Nat.le_add_right _ (threads + 1)
  | @setStop i hmain hlt =>
      apply left_of_main
      · rw [hmain, MainPc.left, MainPc.left]
        omega
      · exact Nat.le_succ _
      · exact Nat.le_add_right _ (threads + 1)
  | notifyAll hmain =>
      have hwoken := sum_left_wake_le work s.workers
      apply left_of_main
      · rw [hmain, MainPc.left, MainPc.left]
        omega
      · exact Nat.le_succ _
      · change (List.map _ (s.workers.map Worker.wake)).sum ≤ _
        omega
  | @join k w hmain hk hexited =>
      obtain ⟨hlt, -⟩ := List.getElem?_eq_some_iff.mp hk
      apply left_of_main
      · rw [hmain, MainPc.left, MainPc.left]
        omega
      · exact Nat.le_succ _
      · exact Nat.le_add_right _ (threads + 1)
  | @allJoined k hmain hk =>
      apply left_of_main
      · rw [hmain, MainPc.left, MainPc.left]
        omega
      · exact Nat.le_succ _
      · exact Nat.le_add_right _ (threads + 1)
  | @sleep index workers hmove hwait =>
      have hpaid := left_of_worker threads chunks work (s := s)
        (t := { s with workers := workers }) rfl hmove
      change _ ≤ _ + 0
      simp only [WorkerPc.left] at hpaid
      omega
  | @exit index workers hmove hready hdone =>
      have hpaid := left_of_worker threads chunks work (s := s)
        (t := { s with workers := workers }) rfl hmove
      change _ ≤ _ + 0
      simp only [WorkerPc.left] at hpaid
      omega
  | @dequeue index task tasks workers hmove hready hmore htasks =>
      have hpaid := left_of_worker threads chunks work (s := s)
        (t := { s with workers := workers, tasks := tasks, started := s.started ++ [(task, index)] }) rfl hmove
      change _ ≤ _ + 0
      rw [htasks, List.length_cons, Nat.mul_succ] at hpaid
      simp only [WorkerPc.left] at hpaid
      omega
  | finish _ => exact absurd rfl (hlabel _)
  | @spurious index workers hmove =>
      have hpaid := left_of_worker threads chunks work (s := s)
        (t := { s with workers := workers }) rfl hmove
      change _ ≤ _ + 2
      simp only [WorkerPc.left] at hpaid
      omega

/-- The end of a task pays for the task. -/
theorem left_finish (threads chunks work : ℕ) {index task : ℕ} {workers : List Worker} (finished : List (ℕ × ℕ))
    (hmove : Replaces ⟨index, .running task⟩ ⟨index, .checking⟩ s.workers workers) :
    ({ s with workers := workers, finished := finished } : PoolState).left threads chunks work +
        (work + 1) = s.left threads chunks work := by
  have hpaid := left_of_worker threads chunks work (s := s)
        (t := { s with workers := workers, finished := finished }) rfl hmove
  simp only [WorkerPc.left] at hpaid
  omega

end FreqUtility
