/-
Module: FreqUtility.Core.Aio
Layer: Core
Purpose: `process_file_aio` as a transition system. The state holds the variables of the loop, the requests
  that the kernel has accepted and not completed, the completions that were not returned yet, and two
  logs: the ranges given to `io_submit` and the ranges given to `process_chunk`. The program's steps
  (`headStep`, `submitStep`, `geteventsStep`, `reapStep`) are functions; the kernel chooses how many
  requests it accepts, when and how each one completes, and which completions a poll returns.
Imports: FreqUtility.Library.Transition, FreqUtility.Core.BlockingRead
Trusted boundary: the bytes of one request arrive at once, when the request completes, and a call of
  `process_chunk` is one atomic step
Main exports: toLowerPowerOf2, aioBlockSize, howMany, AioState, aioStart, aioInit, Label, Step, Reliable,
  ReliableStep
Open obligations: none
-/
import FreqUtility.Library.Transition
import FreqUtility.Core.BlockingRead

namespace FreqUtility

open Blocks

/-! ### Block size -/

/-- [SRC freq.cpp:308-317] -/
def toLowerPowerOf2 (v : UInt32) : UInt32 :=
  let v := v - 1
  let v := v ||| v >>> 1
  let v := v ||| v >>> 2
  let v := v ||| v >>> 4
  let v := v ||| v >>> 8
  let v := v ||| v >>> 16
  let v := v + 1
  v / 2

/-- `AIO_BLKSIZE`; the argument is converted to `unsigned int`. [SRC freq.cpp:319] -/
def aioBlockSize (fileSize : ℕ) : ℕ := (toLowerPowerOf2 (UInt32.ofNat (fileSize / 2))).toNat

/-- `AIO_MAXIO`. [SRC freq.cpp:320] -/
def aioMaxIo : ℕ := 32

/-- `howmany` of `sys/param.h`, on `size_t`. -/
def howMany (x y : ℕ) : ℕ := wrap64 (x + sub64 y 1) / y

/-! ### Requests and events -/

/-- The fields of an `iocb` that `io_prep_pread` sets and the loop reads back. -/
structure Iocb where
  offset : ℕ
  nbytes : ℕ
deriving DecidableEq, Repr

/-- An accepted request: the index of its `iocb`, and the copy the kernel took of it. -/
structure Request where
  slot : ℕ
  iocb : Iocb
deriving DecidableEq, Repr

/-- A completion; `obj` is the index of the `iocb` it points to. -/
structure IoEvent where
  obj : ℕ
  res : ℕ
  res2 : ℕ
deriving DecidableEq, Repr

/-- The text of the exception; `-38` is `-ENOSYS`. [SRC freq.cpp:285-293] -/
def ioError (func : String) (rc : ℤ) : String :=
  if rc = -38 then "AIO is not implemented in current kernel version"
  else func ++ ": error " ++ toString rc

/-- [SRC freq.cpp:295-304] -/
def validateEvent (iocbs : ℕ → Iocb) (event : IoEvent) : Except String Unit :=
  if event.res2 ≠ 0 then
    .error (ioError "aio read" (toInt32 event.res2))
  else if event.res ≠ (iocbs event.obj).nbytes then
    .error ("read missing bytes expect " ++ toString (iocbs event.obj).nbytes ++ " got " ++
      toString event.res)
  else
    .ok ()

/-! ### The state -/

/-- Where the loop stands. -/
inductive Pc where
  /-- Before the test of the outer loop. -/
  | head
  /-- Before `io_submit`. -/
  | submit
  /-- Before `io_getevents`. -/
  | getevents
  /-- In the loop over the returned events. -/
  | reap
  /-- The outer loop was left normally. -/
  | left
  /-- An exception was thrown. -/
  | thrown (message : String)
deriving DecidableEq, Repr

/-- The variables of the loop, the kernel's queues and the logs of submitted and processed ranges. -/
structure AioState where
  pc : Pc
  offset : ℕ
  busy : ℕ
  chunks : ℕ
  n : ℕ
  iocbs : ℕ → Iocb
  inFlight : Multiset Request
  completed : Multiset IoEvent
  events : List IoEvent
  shared : Shared 1
  submitted : List (ℕ × ℕ)
  processed : List (ℕ × ℕ)

/-- The state before the loop. [SRC freq.cpp:322-349] -/
def aioStart (fileSize blkSize : ℕ) : AioState where
  pc := .head
  offset := 0
  busy := 0
  chunks := howMany fileSize blkSize
  n := 0
  iocbs := fun _ => { offset := 0, nbytes := 0 }
  inFlight := 0
  completed := 0
  events := []
  shared := Shared.init 1 (List.replicate fileSize 0) (howMany fileSize blkSize)
  submitted := []
  processed := []

/-- The first `howmany` divides by the block size. [SRC freq.cpp:319-341] -/
def aioInit (fileSize : ℕ) : Except Fault AioState :=
  if aioBlockSize fileSize = 0 then throw .divisionByZero
  else return aioStart fileSize (aioBlockSize fileSize)

theorem aioInit_of_pos {fileSize : ℕ} (h : 0 < aioBlockSize fileSize) :
    aioInit fileSize = .ok (aioStart fileSize (aioBlockSize fileSize)) := if_neg (Nat.ne_of_gt h)

/-! ### The steps of the program -/

/-- `n`: the requests of one round. [SRC freq.cpp:353-354] -/
def roundRequests (fileSize blkSize : ℕ) (s : AioState) : ℕ :=
  min (min (sub64 aioMaxIo s.busy) (aioMaxIo / 2)) (howMany (sub64 fileSize s.offset) blkSize)

/-- Prepare request `i` of a round. [SRC freq.cpp:357-360] -/
def prepRequest (fileSize blkSize : ℕ) (s : AioState) (i : ℕ) : AioState :=
  let size := min (sub64 fileSize s.offset) blkSize
  { s with
    iocbs := Function.update s.iocbs i { offset := s.offset, nbytes := size }
    offset := wrap64 (s.offset + size)
    submitted := s.submitted ++ [(s.offset, wrap64 (s.offset + size))] }

/-- The test of the outer loop, and the preparation of a round. [SRC freq.cpp:351-361] -/
def headStep (fileSize blkSize : ℕ) (s : AioState) : AioState :=
  if 0 < s.chunks then
    let n := roundRequests fileSize blkSize s
    if 0 < n then
      { (List.range n).foldl (prepRequest fileSize blkSize) s with n := n, pc := .submit }
    else
      { s with n := n, pc := .getevents }
  else
    { s with pc := .left }

/-- `io_submit` accepts the first `accepted` requests. [SRC freq.cpp:362-366] -/
def submitStep (s : AioState) (accepted : ℕ) : AioState :=
  { s with
    inFlight := s.inFlight +
      ((List.range accepted).map fun i => { slot := i, iocb := s.iocbs i } : List Request)
    -- `busy` grows by the whole round, whatever the kernel accepted.
    busy := wrap64 (s.busy + s.n)
    pc := .getevents }

/-- `io_getevents` returns the given events. [SRC freq.cpp:370] -/
def geteventsStep (s : AioState) (events : List IoEvent) : AioState :=
  { s with
    completed := s.completed - events
    events := events
    pc := if events = [] then .head else .reap }

/-- The next event of the batch, or the end of the batch. [SRC freq.cpp:371-383] -/
def reapStep (blkSize : ℕ) (s : AioState) : AioState :=
  match s.events with
  | [] => { s with pc := .getevents }
  | event :: rest =>
      match validateEvent s.iocbs event with
      | .error message => { s with pc := .thrown message }
      | .ok _ =>
          let startPos := (s.iocbs event.obj).offset
          let size := (s.iocbs event.obj).nbytes
          let endPos := wrap64 (startPos + size)
          { s with
            events := rest
            busy := sub64 s.busy 1
            chunks := sub64 s.chunks 1
            shared := s.shared.processChunk ⟨0, Nat.one_pos⟩ startPos endPos blkSize
            processed := s.processed ++ [(startPos, endPos)] }

section reapStep

variable {blkSize : ℕ} {s : AioState} {event : IoEvent} {rest : List IoEvent}

theorem reapStep_nil (h : s.events = []) : reapStep blkSize s = { s with pc := .getevents } := by
  unfold reapStep
  rw [h]

theorem reapStep_error {message : String} (h : s.events = event :: rest)
    (hevent : validateEvent s.iocbs event = .error message) :
    reapStep blkSize s = { s with pc := .thrown message } := by
  unfold reapStep
  rw [h]
  simp only [hevent]

theorem reapStep_ok (h : s.events = event :: rest) (hevent : validateEvent s.iocbs event = .ok ()) :
    reapStep blkSize s =
      { s with
        events := rest
        busy := sub64 s.busy 1
        chunks := sub64 s.chunks 1
        shared := s.shared.processChunk ⟨0, Nat.one_pos⟩ (s.iocbs event.obj).offset
          (wrap64 ((s.iocbs event.obj).offset + (s.iocbs event.obj).nbytes)) blkSize
        processed := s.processed ++ [((s.iocbs event.obj).offset,
          wrap64 ((s.iocbs event.obj).offset + (s.iocbs event.obj).nbytes))] } := by
  unfold reapStep
  rw [h]
  simp only [hevent]

end reapStep

/-- A request completes: the bytes that were read arrive and the completion is queued. -/
def completeStep (file : Buffer) (s : AioState) (request : Request) (res res2 : ℕ) : AioState :=
  { s with
    inFlight := s.inFlight.erase request
    completed := { obj := request.slot, res := res, res2 := res2 } ::ₘ s.completed
    shared := s.shared.load request.iocb.offset
      ((file.drop request.iocb.offset).take (min res request.iocb.nbytes)) }

/-! ### The transition system -/

inductive Label where
  | head
  | submit (accepted : ℕ)
  | submitFailed (ret : ℤ)
  | complete (request : Request) (res res2 : ℕ)
  | getevents (events : List IoEvent)
  | geteventsFailed (ret : ℤ)
  | reap
deriving DecidableEq, Repr

/-- The steps of the loop against any kernel: it accepts at most the requests it was given, completes an
    accepted request at most once, with any result, and returns completions it has, in any order and at
    most as many as asked for. -/
inductive Step (file : Buffer) (blkSize : ℕ) : AioState → Label → AioState → Prop where
  | head {s} : s.pc = .head → Step file blkSize s .head (headStep file.length blkSize s)
  | submit {s} {accepted : ℕ} : s.pc = .submit → accepted ≤ s.n →
      Step file blkSize s (.submit accepted) (submitStep s accepted)
  | submitFailed {s} {ret : ℤ} : s.pc = .submit → ret < 0 →
      Step file blkSize s (.submitFailed ret) { s with pc := .thrown (ioError "io_submit" ret) }
  | complete {s} {request : Request} {res res2 : ℕ} : request ∈ s.inFlight →
      Step file blkSize s (.complete request res res2) (completeStep file s request res res2)
  | getevents {s} {events : List IoEvent} : s.pc = .getevents → events.length ≤ s.n →
      (events : Multiset IoEvent) ≤ s.completed →
      Step file blkSize s (.getevents events) (geteventsStep s events)
  | geteventsFailed {s} {ret : ℤ} : s.pc = .getevents → ret < 0 →
      Step file blkSize s (.geteventsFailed ret)
        { s with pc := .thrown (ioError "io_getevents" ret) }
  | reap {s} : s.pc = .reap → Step file blkSize s .reap (reapStep blkSize s)

/-- The kernel accepts every request and completes each one successfully. -/
def Reliable (s : AioState) : Label → Prop
  | .submit accepted => accepted = s.n
  | .submitFailed _ => False
  | .complete request res res2 => res = request.iocb.nbytes ∧ res2 = 0
  | .geteventsFailed _ => False
  | _ => True

/-- The steps of the loop against a reliable kernel. -/
def ReliableStep (file : Buffer) (blkSize : ℕ) (s : AioState) (label : Label) (t : AioState) : Prop :=
  Step file blkSize s label t ∧ Reliable s label

end FreqUtility
