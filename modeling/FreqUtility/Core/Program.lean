/-
Module: FreqUtility.Core.Program
Layer: Core
Purpose: `main` as a whole. How the program was built decides how the hash function multiplies and whether
  there is `process_file_aio`; the machine decides with that which method runs. A complete run of the
  method ends with the bytes that are written, or with what ended the program.
Imports: FreqUtility.Core.AioBytes, FreqUtility.Core.Wyhash, FreqUtility.Library.Transition
Trusted boundary: the command line names two files
Main exports: Build, Build.mixedHash, chunkSizeUsed, ProgramRun, InterleavedRun
Open obligations: none
-/
import FreqUtility.Core.AioBytes
import FreqUtility.Core.Wyhash
import FreqUtility.Library.Transition

namespace FreqUtility

open UnorderedDense Sorting Transition

/-- What the preprocessor knows. -/
structure Build where
  /-- `__SIZEOF_INT128__`. -/
  hasInt128 : Bool
  /-- `HAS_LIBAIO`. -/
  hasLibaio : Bool
deriving DecidableEq, Repr

/-- The hash function of `FreqMap`. -/
def Build.mixedHash (build : Build) : Word → UInt64 :=
  Wyhash.wordHash (if build.hasInt128 then Wyhash.mum128 else Wyhash.mumLimbs)

/-- The size of the chunks that the file is cut into, if the method cuts it. -/
def chunkSizeUsed (build : Build) (config : FreqConfig) (fileSize : ℕ) : Option ℕ :=
  match getMethod build.hasLibaio config with
  | .processFileBlockingRead => (planChunks config fileSize).toOption.map Prod.fst
  | .processFileAio => some (aioBlockSize fileSize)
  | .processFileDummy => none

/-- What complete runs of the program end with. Threads and kernel go on in any order in which no byte of the
    file arrives where a thread, or the transformation of `process_file_aio`, holds the old one.
    [SRC main.cpp:9-50] -/
inductive ProgramRun (build : Build) (config : FreqConfig) (stdSort : SortFunction (Word × ℕ))
    (file : Buffer) : Except Fault (Except TableFault Buffer) → Prop where
  | blockingRead {chunkSize chunks : ℕ} {labels : List ByteLabel} {s : ByteState config.processorCount} :
      getMethod build.hasLibaio config = .processFileBlockingRead →
      planChunks config file.length = .ok (chunkSize, chunks) →
      Run (UnheldStep build.mixedHash file chunkSize chunks)
        (ByteState.init build.mixedHash config.processorCount file.length chunkSize chunks) labels s →
      s.pool.main = .joined →
      ProgramRun build config stdSort file
        (output stdSort (tablesResult build.mixedHash s.tables.read.shared s.tables.frequency))
  | aio {labels : List AioByteLabel} {s : AioByteState} :
      getMethod build.hasLibaio config = .processFileAio →
      Run (LosslessStep build.mixedHash file (aioBlockSize file.length))
        (aioByteStart build.mixedHash file.length (aioBlockSize file.length)) labels s →
      s.table.loop.pc = .left →
      ProgramRun build config stdSort file
        (output stdSort (tablesResult build.mixedHash s.table.loop.shared fun _ : Fin 1 => s.table.frequency))
  | dummy :
      getMethod build.hasLibaio config = .processFileDummy →
      ProgramRun build config stdSort file
        (output stdSort (.ok (processFileDummyTable build.mixedHash file)))

/-- The complete runs without that condition: threads, transformations and the kernel go on in any order.
    [SRC main.cpp:9-50] -/
inductive InterleavedRun (build : Build) (config : FreqConfig) (stdSort : SortFunction (Word × ℕ))
    (file : Buffer) : Except Fault (Except TableFault Buffer) → Prop where
  | blockingRead {chunkSize chunks : ℕ} {labels : List ByteLabel} {s : ByteState config.processorCount} :
      getMethod build.hasLibaio config = .processFileBlockingRead →
      planChunks config file.length = .ok (chunkSize, chunks) →
      Run (ByteStep build.mixedHash file chunkSize chunks)
        (ByteState.init build.mixedHash config.processorCount file.length chunkSize chunks) labels s →
      s.pool.main = .joined →
      InterleavedRun build config stdSort file
        (output stdSort (tablesResult build.mixedHash s.tables.read.shared s.tables.frequency))
  | aio {labels : List AioByteLabel} {s : AioByteState} :
      getMethod build.hasLibaio config = .processFileAio →
      Run (AioByteStep build.mixedHash file (aioBlockSize file.length))
        (aioByteStart build.mixedHash file.length (aioBlockSize file.length)) labels s →
      s.table.loop.pc = .left →
      InterleavedRun build config stdSort file
        (output stdSort (tablesResult build.mixedHash s.table.loop.shared fun _ : Fin 1 => s.table.frequency))
  | dummy :
      getMethod build.hasLibaio config = .processFileDummy →
      InterleavedRun build config stdSort file
        (output stdSort (.ok (processFileDummyTable build.mixedHash file)))

end FreqUtility
