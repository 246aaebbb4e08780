import Rmdb.Lib.Framing
import Rmdb.Lib.StepSystem
import Rmdb.Recovery.LogCodec

/-
  This file models the log file: the buffer of `LogManager`,
  its batches, `write_log` at the end of `db.log`, and
  `load_logs`, which reads the file from its start and stops
  at the first place where it finds no record.

  A write may fail, and a run may end, after any part of a
  batch has reached the file.  The next batch is written
  behind it.

  Key definitions include:
    * `readLog`, `loadLogs`
    * `LogManager.step`
    * `LogManager.FileGuard`

  Key theorems include:
    * `loadLogs_eq_scan`
    * `loadLogs_serialize`
    * `loadLogs_take`
    * `LogManager.load_returned`
-/

namespace Rmdb

open LittleEndian StepSystem List Option

------------
-- Reading The File
------------

/- The size of a file, as an `int`. -/
def getFileSize (file : List UInt8) : Int :=
  Int.bmod file.length (2 ^ 32)

/- Up to `size` bytes from an offset; none is the result -1. -/
def readLog
    (file : List UInt8)
    (size offset : Nat) :
    Option (List UInt8) :=
  if getFileSize file < offset then
    none
  else
    some (slice file offset
      (min size (getFileSize file - offset).toNat))

/- One round of `load_logs`: the record at an offset and its
  length, or nothing where the loop ends. -/
def loadRecord
    (file : List UInt8)
    (offset : Nat) :
    Option (LogRecord × Nat) := do
  let header ← readLog file logHeaderSize offset
  let totalLen := decode (slice header 8 4)
  if header.length < logHeaderSize then
    none
  else if totalLen < logHeaderSize ∨
      logBufferSize < totalLen then
    none
  else
    let data ← readLog file totalLen offset
    if data.length ≠ totalLen then
      none
    else
      let r ← deserializeLogRecord data
      some (r, totalLen)

/- The loop. Every record takes bytes of the file, so the
  number of bytes bounds the number of rounds. -/
def loadLogsFrom (load : Nat → Option (LogRecord × Nat)) :
    Nat → Nat → List LogRecord
| 0, _ => []
| fuel + 1, offset =>
  match load offset with
  | none => []
  | some (r, totalLen) =>
    r :: loadLogsFrom load fuel (offset + totalLen)

/- The checkpoint offset is always zero. -/
def loadLogs (file : List UInt8) : List LogRecord :=
  loadLogsFrom (loadRecord file) (file.length + 1) 0

/- The record at the front of some bytes, with its length. -/
def nextRecord (bytes : List UInt8) : Option (LogRecord × Nat) :=
  let totalLen := decode (slice bytes 8 4)
  if bytes.length < logHeaderSize then
    none
  else if totalLen < logHeaderSize ∨
      logBufferSize < totalLen then
    none
  else if bytes.length < totalLen then
    none
  else
    (deserializeLogRecord (bytes.take totalLen)).map
      (fun r => (r, totalLen))

section Reading

variable {file : List UInt8}

variable {offset : Nat}

variable {bytes : List UInt8}

/- The length field of a header that is there. -/
theorem slice_take_header (hLen : logHeaderSize ≤ bytes.length) :
    slice (bytes.take logHeaderSize) 8 4 = slice bytes 8 4 := by
  have hIn : 8 + 4 ≤ (bytes.take logHeaderSize).length := by
    rw [length_take, Nat.min_eq_left hLen]
    decide
  have hSplit := slice_append_left (bytes.drop logHeaderSize) hIn
  rw [take_append_drop] at hSplit
  exact hSplit.symm

variable {r : LogRecord}

/- A record does not reach beyond the file. -/
theorem nextRecord_le
    {n : Nat}
    (hNext : nextRecord bytes = some (r, n)) :
    n ≤ bytes.length := by
  unfold nextRecord at hNext
  dsimp only at hNext
  split at hNext
  · cases hNext
  · split at hNext
    · cases hNext
    · split at hNext
      · cases hNext
      · rw [map_eq_some_iff] at hNext
        rcases hNext with ⟨q, _, hPair⟩
        obtain ⟨_, rfl⟩ := Prod.mk.inj hPair
        omega

variable (hSize : file.length < 2 ^ 31)
include hSize

theorem getFileSize_of_lt : getFileSize file = file.length := by
  apply Int.bmod_eq_of_le_mul_two
  · push_cast
    omega
  · push_cast
    omega

theorem readLog_of_lt
    {size : Nat}
    (hOffset : offset ≤ file.length) :
    readLog file size offset = some ((file.drop offset).take size) := by
  unfold readLog
  rw [getFileSize_of_lt hSize, if_neg (by omega)]
  have hMin : min size ((file.length : Int) - offset).toNat =
      min size (file.drop offset).length := by
    rw [length_drop]
    omega
  rw [hMin, slice, ← take_eq_take_min]

/- A round looks at what follows its offset. -/
theorem loadRecord_eq_nextRecord
    (hOffset : offset ≤ file.length) :
    loadRecord file offset = nextRecord (file.drop offset) := by
  unfold loadRecord nextRecord
  rw [readLog_of_lt hSize hOffset]
  simp only [bind_eq_bind, bind_some, length_take]
  by_cases hShort : (file.drop offset).length < logHeaderSize
  · rw [if_pos (by omega), if_pos hShort]
  rw [if_neg (by omega), if_neg hShort, slice_take_header (not_lt.mp hShort)]
  by_cases hBad : decode (slice (file.drop offset) 8 4) < logHeaderSize ∨
      logBufferSize < decode (slice (file.drop offset) 8 4)
  · rw [if_pos hBad, if_pos hBad]
  rw [if_neg hBad, if_neg hBad, readLog_of_lt hSize hOffset]
  simp only [bind_some, length_take]
  by_cases hLong : (file.drop offset).length < decode (slice (file.drop offset) 8 4)
  · rw [if_pos (by omega), if_pos hLong]
  rw [if_neg (by omega), if_neg hLong]
  cases deserializeLogRecord ((file.drop offset).take (decode (slice (file.drop offset) 8 4))) with
  | none => rfl
  | some r => rfl

/- `load_logs` reads one record after the other. -/
theorem loadLogsFrom_eq_scan
    {fuel : Nat}
    (hOffset : offset ≤ file.length) :
    loadLogsFrom (loadRecord file) fuel offset =
      Framing.scan nextRecord fuel (file.drop offset) := by
  induction fuel generalizing offset with
  | zero => rfl
  | succ fuel ih =>
    rw [loadLogsFrom, Framing.scan, loadRecord_eq_nextRecord hSize hOffset]
    cases hNext : nextRecord (file.drop offset) with
    | none => rfl
    | some pair =>
      have hLe := nextRecord_le hNext
      rw [length_drop] at hLe
      dsimp only
      rw [ih (by omega), drop_drop]

theorem loadLogs_eq_scan :
    loadLogs file = Framing.scan nextRecord (file.length + 1) file := by
  rw [loadLogs, loadLogsFrom_eq_scan hSize (Nat.zero_le _), drop_zero]

omit hSize

/- A record that fits is read back, whatever follows. -/
theorem reads_serialize (hFits : r.Fits) :
    Framing.Reads nextRecord LogRecord.serialize r := by
  have hPos : logHeaderSize ≤ r.logTotLen := by
    unfold LogRecord.logTotLen
    omega
  constructor
  · intro hNil
    have hLen := length_serialize r
    rw [hNil] at hLen
    rw [← hLen] at hPos
    exact absurd hPos (by decide)
  · intro rest
    have hTotal : decode (slice (r.serialize ++ rest) 8 4) =
        r.logTotLen := by
      exact (header_fields hFits _).2.2.1
    have hLen : (r.serialize ++ rest).length = r.logTotLen + rest.length := by simp
    unfold nextRecord
    simp only [hTotal, hLen]
    rw [if_neg (by omega), if_neg, if_neg (by omega), ← length_serialize, take_left,
      deserialize_serialize hFits, map_some]
    have hMax := hFits.2.2.2.2
    omega

variable {logs : List LogRecord}

/- Complete records are read in order, whatever follows. -/
theorem loadLogs_append
    {rest : List UInt8}
    (hFits : ∀ r ∈ logs, r.Fits)
    (hSize : (logs.flatMap LogRecord.serialize ++ rest).length < 2 ^ 31) :
    ∃ more, loadLogs (logs.flatMap LogRecord.serialize ++ rest) = logs ++
      more := by
  rw [loadLogs_eq_scan hSize]
  exact Framing.scan_append logs rest (fun r hR => reads_serialize (hFits r hR))

/- What is written record by record is read back. -/
theorem loadLogs_serialize
    (hFits : ∀ r ∈ logs, r.Fits)
    (hSize :
      (logs.flatMap LogRecord.serialize).length < 2 ^ 31) :
    loadLogs (logs.flatMap LogRecord.serialize) = logs := by
  rw [loadLogs_eq_scan hSize]
  exact Framing.scan_whole logs (fun r hR => reads_serialize (hFits r hR)) (by decide)

/- A part of a record is not read. -/
theorem torn_serialize (hFits : r.Fits) :
    Framing.Torn nextRecord LogRecord.serialize r := by
  intro n hN
  have hLen : (r.serialize.take n).length = n := by
    rw [length_take]
    omega
  unfold nextRecord
  simp only [hLen]
  by_cases hShort : n < logHeaderSize
  · rw [if_pos hShort]
  rw [if_neg hShort]
  -- the header is there, with a length beyond the cut
  have hTotal : decode (slice (r.serialize.take n) 8 4) =
      r.logTotLen := by
    have hIn : 8 + 4 ≤ (r.serialize.take n).length := by
      rw [hLen]
      exact le_trans (by decide) (not_lt.mp hShort)
    have hSplit := slice_append_left (r.serialize.drop n) hIn
    rw [take_append_drop] at hSplit
    rw [← hSplit]
    exact (header_fields hFits _).2.2.1
  rw [length_serialize] at hN
  rw [hTotal, if_pos hN, ite_self]

/- Records are written one after the other and cut at any
  byte. `load_logs` gives back the records that end by the
  cut. -/
theorem loadLogs_take
    {logs : List LogRecord}
    (hFits : ∀ r ∈ logs, r.Fits)
    (hSize : (logs.flatMap LogRecord.serialize).length < 2 ^ 31)
    (cut : Nat) :
    ∃ k ≤ logs.length,
      loadLogs ((logs.flatMap LogRecord.serialize).take cut) = logs.take k ∧
      ((logs.take k).flatMap LogRecord.serialize).length ≤ cut ∧
      (k < logs.length →
        cut < ((logs.take (k + 1)).flatMap LogRecord.serialize).length) := by
  have hTake : ((logs.flatMap LogRecord.serialize).take cut).length < 2 ^ 31 :=
    lt_of_le_of_lt (length_take_le' _ _) hSize
  rw [loadLogs_eq_scan hTake]
  exact Framing.scan_take logs (fun r hR => reads_serialize (hFits r hR))
    (fun r hR => torn_serialize (hFits r hR)) (by decide) cut _ (Nat.lt_succ_self _)

/- An insert and a commit, cut in the commit record. -/
theorem loadLogs_take_insertCommit :
    ∃ k ≤ 2,
      loadLogs (([⟨0, 7, -1, .data (.insert ⟨[116], ⟨1, 0⟩⟩ [1, 2, 3])⟩,
        ⟨1, 7, 0, .commit⟩].flatMap LogRecord.serialize).take 60) =
        ([⟨0, 7, -1, .data (.insert ⟨[116], ⟨1, 0⟩⟩ [1, 2, 3])⟩,
          ⟨1, 7, 0, .commit⟩] : List LogRecord).take k ∧
      1 ≤ k := by
  rcases @loadLogs_take [⟨0, 7, -1, .data (.insert ⟨[116], ⟨1, 0⟩⟩ [1, 2, 3])⟩, ⟨1, 7, 0, .commit⟩]
    (by decide) (by decide) 60 with ⟨k, hK, hLoad, -, hLt⟩
  refine ⟨k, hK, hLoad, ?_⟩
  by_contra hZero
  obtain rfl : k = 0 := by omega
  exact absurd (hLt (by decide)) (by decide)

end Reading

------------
-- Writing The File
------------

/- The bytes of a batch. -/
def batchBytes (batch : List LogRecord) : List UInt8 :=
  batch.flatMap LogRecord.serialize

structure LogManager where
  file : List UInt8
  globalLsn : Int
  logBuffer : List LogRecord
  -- the batch that is being written
  flushBuffer : Option (List LogRecord)
  -- the batches, of all runs, whose write has returned
  returned : List (List LogRecord)
deriving DecidableEq

namespace LogManager

/- A run starts with the file that the last one left. -/
def start
    (file : List UInt8)
    (returned : List (List LogRecord)) :
    LogManager :=
  { file := file,
    globalLsn := 0,
    logBuffer := [],
    flushBuffer := none,
    returned := returned }

inductive Act where
  | addLogToBuffer (tid : TxnId) (prevLsn : Int) (body : LogBody)
  | startFlush
  | writeLog
  | writeLogFails (written : Nat)
  | crash (written : Nat)
deriving DecidableEq

/- A record that is larger than the buffer is refused, and one
  that does not fit now waits for a flush. -/
def addLogToBuffer
    (c : LogManager)
    (r : LogRecord) :
    Option LogManager :=
  if r.Fits ∧ (batchBytes c.logBuffer).length + r.logTotLen ≤
      logBufferSize then
    some { c with
      globalLsn := Int.bmod (c.globalLsn + 1) (2 ^ 32),
      logBuffer := c.logBuffer ++ [r] }
  else
    none

/- The batch leaves the buffer before it is written. -/
def startFlush (c : LogManager) : Option LogManager :=
  if c.flushBuffer = none ∧ c.logBuffer ≠ [] then
    some { c with
      flushBuffer := some c.logBuffer, logBuffer := [] }
  else
    none

def step (c : LogManager) :
    Act → Option LogManager
| .addLogToBuffer tid prevLsn body =>
  c.addLogToBuffer ⟨c.globalLsn, tid, prevLsn, body⟩
| .startFlush => c.startFlush
| .writeLog =>
  match c.flushBuffer with
  | some batch =>
    some { c with
      file := c.file ++ batchBytes batch,
      flushBuffer := none,
      returned := c.returned ++ [batch] }
  | none => none
| .writeLogFails written =>
  match c.flushBuffer with
  | some batch =>
    if written < (batchBytes batch).length then
      some { c with
        file := c.file ++ (batchBytes batch).take written,
        flushBuffer := none }
    else
      none
  | none => none
| .crash written =>
  let batch := c.flushBuffer.getD []
  if written ≤ (batchBytes batch).length then
    some (start
      (c.file ++ (batchBytes batch).take written) c.returned)
  else
    none

/- The file is a sequence of complete records. -/
def Whole (file : List UInt8) : Prop :=
  ∃ logs : List LogRecord,
    (∀ r ∈ logs, r.Fits) ∧ file = batchBytes logs

/- A batch is written only behind complete records, and the
  size of the file stays in the range of an `int`. -/
def FileGuard (c : LogManager) :
    Act → Prop
| .writeLog =>
  Whole c.file ∧
    c.file.length + (batchBytes (c.flushBuffer.getD [])).length
      < 2 ^ 31
| .writeLogFails written => c.file.length + written < 2 ^ 31
| .crash written => c.file.length + written < 2 ^ 31
| _ => True

/- What a guarded run keeps. -/
structure Inv (c : LogManager) : Prop where
  size : c.file.length < 2 ^ 31
  buffer : ∀ r ∈ c.logBuffer, r.Fits
  flushing : ∀ batch ∈ c.flushBuffer, ∀ r ∈ batch, r.Fits
  -- the batches that were written are still in the file
  kept : ∃ logs rest, (∀ r ∈ logs, r.Fits) ∧ c.file = batchBytes logs ++ rest ∧
      c.returned.flatten.Sublist logs

section Steps

variable {c c' : LogManager}

/- Bytes behind the file do not hide what is in it. -/
theorem Inv.kept_append
    (hInv : Inv c)
    (bytes : List UInt8) :
    ∃ logs rest, (∀ r ∈ logs, r.Fits) ∧
      c.file ++ bytes = batchBytes logs ++ rest ∧
      c.returned.flatten.Sublist logs := by
  rcases hInv.kept with ⟨logs, rest, hFits, hFile, hSub⟩
  exact ⟨logs, rest ++ bytes, hFits, by simp [hFile], hSub⟩

theorem Inv.load (hInv : Inv c) :
    c.returned.flatten.Sublist (loadLogs c.file) := by
  rcases hInv.kept with ⟨logs, rest, hFits, hFile, hSub⟩
  have hSize := hInv.size
  rw [hFile] at hSize
  rcases loadLogs_append hFits hSize with ⟨more, hLoad⟩
  rw [hFile, batchBytes, hLoad]
  exact hSub.trans (sublist_append_left logs more)

/- A batch behind complete records. -/
theorem Inv.write
    {batch : List LogRecord}
    (hInv : Inv c)
    (hWhole : Whole c.file)
    (hBatch : ∀ r ∈ batch, r.Fits) :
    ∃ logs rest, (∀ r ∈ logs, r.Fits) ∧
      c.file ++ batchBytes batch = batchBytes logs ++ rest ∧
      (c.returned ++ [batch]).flatten.Sublist logs := by
  rcases hWhole with ⟨logs, hFits, hFile⟩
  -- the file is read as these records and no others
  have hSize := hInv.size
  rw [hFile] at hSize
  have hOld := hInv.load
  rw [hFile, batchBytes, loadLogs_serialize hFits hSize] at hOld
  refine ⟨logs ++ batch, [], ?_, ?_, ?_⟩
  · intro r hR
    rcases mem_append.mp hR with h | h
    · exact hFits r h
    · exact hBatch r h
  · simp [hFile, batchBytes]
  · rw [flatten_append, flatten_singleton]
    exact hOld.append (Sublist.refl batch)

theorem inv_step
    {a : Act}
    (hInv : Inv c)
    (hGuard : c.FileGuard a)
    (hStep : c.step a = some c') :
    Inv c' := by
  cases a with
  | addLogToBuffer tid prevLsn body =>
    simp only [step, addLogToBuffer] at hStep
    split at hStep
    · rename_i hFits
      cases hStep
      refine ⟨hInv.size, ?_, hInv.flushing, hInv.kept⟩
      intro r hR
      rcases mem_append.mp hR with hOld | hNew
      · exact hInv.buffer r hOld
      · rw [mem_singleton] at hNew
        exact hNew ▸ hFits.1
    · cases hStep
  | startFlush =>
    simp only [step, startFlush] at hStep
    split at hStep
    · cases hStep
      refine ⟨hInv.size, by simp, ?_, hInv.kept⟩
      intro batch hBatch
      cases hBatch
      exact hInv.buffer
    · cases hStep
  | writeLog =>
    simp only [step] at hStep
    rcases hGuard with ⟨hWhole, hSize⟩
    split at hStep
    · rename_i batch hBatch
      cases hStep
      rw [hBatch, getD_some] at hSize
      refine ⟨?_, hInv.buffer, by simp, ?_⟩
      · simpa using hSize
      · exact hInv.write hWhole (hInv.flushing batch hBatch)
    · cases hStep
  | writeLogFails written =>
    simp only [step] at hStep
    split at hStep
    · split at hStep
      · cases hStep
        refine ⟨?_, hInv.buffer, by simp, hInv.kept_append _⟩
        have hSize : c.file.length + written < 2 ^ 31 := hGuard
        simp only [length_append, length_take]
        omega
      · cases hStep
    · cases hStep
  | crash written =>
    simp only [step] at hStep
    split at hStep
    · cases hStep
      refine ⟨?_, by simp [start], by simp [start], hInv.kept_append _⟩
      have hSize : c.file.length + written < 2 ^ 31 := hGuard
      simp only [start, length_append, length_take]
      omega
    · cases hStep

/- In every sequence of runs in which batches are written only
  behind complete records, `load_logs` gives, in order, the
  records of every batch whose write has returned. -/
theorem load_returned {acts : List Act}
    (hGuard : StepSystem.Guarded step FileGuard (start [] []) acts)
    (hRun : StepSystem.run step (start [] []) acts = some c) :
    c.returned.flatten.Sublist (loadLogs c.file) := by
  have hInit : Inv (start [] []) := ⟨by simp [start], by simp [start], by simp [start],
      [], [], by simp, rfl, Sublist.refl _⟩
  have hInv : Inv c := invariant_of_guarded_run Inv
      (fun _ _ _ hInv hGuard hStep => inv_step hInv hGuard hStep) hInit hGuard hRun
  exact hInv.load

end Steps

/- A commit record is appended, and its batch is taken. -/
def takeCommit (t : TxnId) : List Act :=
  [.addLogToBuffer t (-1) .commit, .startFlush]

/- The first run ends between two records, and the second one
  inside a record. -/
def tornAtTheEnd : List Act :=
  takeCommit 0 ++ [.writeLog] ++ takeCommit 1 ++ [.crash 24] ++
    takeCommit 2 ++ [.writeLog] ++ takeCommit 3 ++ [.crash 5]

theorem load_returned_tornAtTheEnd :
    ∃ c, StepSystem.run step (start [] []) tornAtTheEnd = some c ∧
      c.returned = [[⟨0, 0, -1, .commit⟩], [⟨0, 2, -1, .commit⟩]] ∧
      c.returned.flatten.Sublist (loadLogs c.file) := by
  have hRun : run step (start [] []) tornAtTheEnd = some _ := (some_get (by decide)).symm
  refine ⟨_, hRun, by decide, load_returned ?_ hRun⟩
  refine ⟨trivial, trivial, ⟨⟨[], ?_, ?_⟩, ?_⟩, trivial, trivial, ?_, trivial, trivial,
    ⟨⟨[⟨0, 0, -1, .commit⟩, ⟨1, 1, -1, .commit⟩], ?_, ?_⟩, ?_⟩, trivial, trivial, ?_, trivial⟩
  case refine_4 =>
    show length _ + 24 < 2 ^ 31
    decide
  case refine_8 =>
    show length _ + 5 < 2 ^ 31
    decide
  all_goals decide

/- The first run leaves five bytes of a record. The batch that
  the second run writes behind them cannot be read. -/
theorem torn_hides_returned : ∃ c, StepSystem.run step (start [] [])
        (takeCommit 0 ++ [.crash 5] ++ takeCommit 0 ++ [.writeLog]) = some c ∧
      c.returned = [[⟨0, 0, -1, .commit⟩]] ∧ loadLogs c.file = [] := by
  exact ⟨_, (some_get (by decide)).symm, by decide, by decide⟩

end LogManager

end Rmdb
