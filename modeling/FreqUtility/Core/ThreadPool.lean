/-
Module: FreqUtility.Core.ThreadPool
Layer: Core
Purpose: The thread pool and the thread that uses it. The main thread creates the workers, enqueues one
  task for every chunk, sets `stop`, notifies and joins; a worker waits for a task or for `stop`, takes
  the first task or leaves, and runs its task outside of the lock. One step is one critical section of
  the queue's mutex, one notification, the end of a task or one join. A sleeping worker may wake up
  without a notification.
Imports: FreqUtility.Library.Replace, FreqUtility.Library.Transition
Trusted boundary: threads can be created, and a task ends (its exceptions stay in its future)
Main exports: MainPc, WorkerPc, Worker, PoolState, PoolLabel, PoolStep, PoolState.running
Open obligations: none
-/
import FreqUtility.Library.Replace
import FreqUtility.Library.Transition

namespace FreqUtility

open Replace

/-- Where the main thread is. -/
inductive MainPc where
  /-- In the loop of the constructor. [SRC threadpool.h:30-32] -/
  | constructing (i : ℕ)
  /-- In the loop over the chunks, before `enqueue` takes the lock. [SRC freq.cpp:188] -/
  | enqueuing (i : ℕ)
  /-- After `enqueue` released the lock. [SRC threadpool.h:67] -/
  | notifying (i : ℕ)
  /-- The destructor has set `stop`. [SRC threadpool.h:76] -/
  | notifyingAll
  /-- In the loop over the workers. [SRC threadpool.h:77-78] -/
  | joining (k : ℕ)
  /-- The destructor has returned. -/
  | joined
  /-- An exception was thrown. -/
  | thrown (message : String)
deriving DecidableEq, Repr

/-- Where a worker is. -/
inductive WorkerPc where
  /-- About to take the lock and test the predicate, at the top of the loop or woken up. -/
  | checking
  /-- Blocked in `wait`, without the lock. -/
  | sleeping
  /-- Running a task. -/
  | running (task : ℕ)
  /-- Returned. -/
  | exited
deriving DecidableEq, Repr

/-- A thread of the pool with the index its lambda captured. -/
structure Worker where
  index : ℕ
  pc : WorkerPc
deriving DecidableEq, Repr

/-- The pool, the threads and the logs of dequeued and completed tasks. A task is the number of its chunk;
    the logs pair it with the index it was given. -/
structure PoolState where
  main : MainPc
  workers : List Worker
  tasks : List ℕ
  stop : Bool
  started : List (ℕ × ℕ)
  finished : List (ℕ × ℕ)
deriving DecidableEq, Repr

def PoolState.init : PoolState where
  main := .constructing 0
  workers := []
  tasks := []
  stop := false
  started := []
  finished := []

/-- The predicate of `wait`. [SRC threadpool.h:38] -/
def PoolState.waitPredicate (s : PoolState) : Bool := s.stop || !s.tasks.isEmpty

/-- What a notification does to a thread. -/
def Worker.wake (w : Worker) : Worker :=
  if w.pc = .sleeping then { w with pc := .checking } else w

/-- The task a thread is running, with the index it was given. -/
def Worker.current (w : Worker) : Option (ℕ × ℕ) :=
  match w.pc with
  | .running task => some (task, w.index)
  | _ => none

/-- The tasks that are being run. -/
def PoolState.running (s : PoolState) : List (ℕ × ℕ) := s.workers.filterMap Worker.current

inductive PoolLabel where
  | create
  | constructed
  | push
  | notifyOne (index : ℕ)
  | notifyNobody
  | setStop
  | notifyAll
  | join
  | allJoined
  | sleep (index : ℕ)
  | exit (index : ℕ)
  | dequeue (index : ℕ)
  | finish (index : ℕ)
  | spurious (index : ℕ)
deriving DecidableEq, Repr

/-- `enqueue` under the lock. [SRC threadpool.h:60-66] -/
def PoolState.push (s : PoolState) (i : ℕ) : PoolState :=
  if s.stop then { s with main := .thrown "enqueue on stopped ThreadPool" }
  else { s with tasks := s.tasks ++ [i], main := .notifying i }

/-- The steps of a pool of `threads` workers that is given `chunks` tasks. -/
inductive PoolStep (threads chunks : ℕ) : PoolState → PoolLabel → PoolState → Prop where
  -- The constructor. [SRC threadpool.h:30-48]
  | create {s} {i : ℕ} : s.main = .constructing i → i < threads →
      PoolStep threads chunks s .create
        { s with main := .constructing (i + 1), workers := s.workers ++ [⟨i, .checking⟩] }
  | constructed {s} {i : ℕ} : s.main = .constructing i → ¬ i < threads →
      PoolStep threads chunks s .constructed { s with main := .enqueuing 0 }
  -- The loop over the chunks. [SRC freq.cpp:188-203]
  | push {s} {i : ℕ} : s.main = .enqueuing i → i < chunks →
      PoolStep threads chunks s .push (s.push i)
  | notifyOne {s} {i index : ℕ} {workers : List Worker} : s.main = .notifying i →
      Replaces ⟨index, .sleeping⟩ ⟨index, .checking⟩ s.workers workers →
      PoolStep threads chunks s (.notifyOne index)
        { s with main := .enqueuing (i + 1), workers := workers }
  | notifyNobody {s} {i : ℕ} : s.main = .notifying i → (∀ w ∈ s.workers, w.pc ≠ .sleeping) →
      PoolStep threads chunks s .notifyNobody { s with main := .enqueuing (i + 1) }
  -- The destructor at the end of the scope. [SRC threadpool.h:71-79]
  | setStop {s} {i : ℕ} : s.main = .enqueuing i → ¬ i < chunks →
      PoolStep threads chunks s .setStop { s with main := .notifyingAll, stop := true }
  | notifyAll {s} : s.main = .notifyingAll →
      PoolStep threads chunks s .notifyAll
        { s with main := .joining 0, workers := s.workers.map Worker.wake }
  | join {s} {k : ℕ} {w : Worker} : s.main = .joining k → s.workers[k]? = some w →
      w.pc = .exited → PoolStep threads chunks s .join { s with main := .joining (k + 1) }
  | allJoined {s} {k : ℕ} : s.main = .joining k → s.workers[k]? = none →
      PoolStep threads chunks s .allJoined { s with main := .joined }
  -- The loop of a worker. [SRC threadpool.h:34-46]
  | sleep {s} {index : ℕ} {workers : List Worker} :
      Replaces ⟨index, .checking⟩ ⟨index, .sleeping⟩ s.workers workers →
      s.waitPredicate = false →
      PoolStep threads chunks s (.sleep index) { s with workers := workers }
  | exit {s} {index : ℕ} {workers : List Worker} :
      Replaces ⟨index, .checking⟩ ⟨index, .exited⟩ s.workers workers →
      s.waitPredicate = true → (s.stop && s.tasks.isEmpty) = true →
      PoolStep threads chunks s (.exit index) { s with workers := workers }
  | dequeue {s} {index task : ℕ} {tasks : List ℕ} {workers : List Worker} :
      Replaces ⟨index, .checking⟩ ⟨index, .running task⟩ s.workers workers →
      s.waitPredicate = true → (s.stop && s.tasks.isEmpty) = false → s.tasks = task :: tasks →
      PoolStep threads chunks s (.dequeue index)
        { s with workers := workers, tasks := tasks, started := s.started ++ [(task, index)] }
  | finish {s} {index task : ℕ} {workers : List Worker} :
      Replaces ⟨index, .running task⟩ ⟨index, .checking⟩ s.workers workers →
      PoolStep threads chunks s (.finish index)
        { s with workers := workers, finished := s.finished ++ [(task, index)] }
  | spurious {s} {index : ℕ} {workers : List Worker} :
      Replaces ⟨index, .sleeping⟩ ⟨index, .checking⟩ s.workers workers →
      PoolStep threads chunks s (.spurious index) { s with workers := workers }

end FreqUtility
