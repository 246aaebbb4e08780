import Rmdb.Recovery.LogFile

/-
  This file models the threads that call `add_log_to_buffer`
  and `flush_log_to_disk`.  One of them at a time writes a
  batch to `db.log`; it releases the latch while it writes.

  A thread works from where it gets the latch to where it
  releases it, or waits, in one step.  A waiting thread may
  wake up at any time.  A write appends the whole batch or
  throws and appends nothing.

  Key definitions include:
    * `LogFlush.Pc`
    * `LogFlush.flushBufferLocked`
    * `LogFlush.step`
    * `LogFlush.Inv`

  Key theorems include:
    * `LogFlush.Inv.step`
    * `LogFlush.log_durable`
    * `LogFlush.failed_write_skipped`
-/

namespace Rmdb

open Function StepSystem List

------------
-- Threads
------------

/- The two calls. -/
inductive LogCall where
  | addLogToBuffer (r : LogRecord)
  | flushLogToDisk (targetLsn : Int)
deriving DecidableEq, Repr

namespace LogFlush

/- Where a thread is. -/
inductive Pc where
  | idle
  -- at the top of the loop of its call
  | ready (k : LogCall)
  -- waits in `flush_buffer_locked`
  | locked (k : LogCall)
  -- writes the batch, without the latch
  | writing (k : LogCall) (flushLsn : Int)
  | written (k : LogCall) (flushLsn : Int)
  | failed
  -- comes back from `flush_buffer_locked`
  | flushed (k : LogCall)
  | returned (k : LogCall)
  | thrown
deriving DecidableEq, Repr

/- Between the two changes of `flush_in_progress_`. -/
def Pc.flushes : Pc → Bool
| .writing _ _ => true
| .written _ _ => true
| .failed => true
| _ => false

end LogFlush

structure LogFlush where
  -- the records of `db.log`
  file : List LogRecord
  globalLsn : Int
  persistLsn : Int
  logBuffer : List LogRecord
  logBufferMaxLsn : Int
  flushBuffer : List LogRecord
  flushInProgress : Bool
  -- all records that got a number, in order
  issued : List LogRecord
  pc : Nat → LogFlush.Pc

namespace LogFlush

def init : LogFlush :=
  { file := [],
    globalLsn := 0,
    persistLsn := invalidLsn,
    logBuffer := [],
    logBufferMaxLsn := invalidLsn,
    flushBuffer := [],
    flushInProgress := false,
    issued := [],
    pc := fun _ => .idle }

def setPc (c : LogFlush) (i : Nat) (pc : Pc) : LogFlush :=
  { c with pc := Function.update c.pc i pc }

------------
-- The Calls
------------

/- The end of `add_log_to_buffer`: the record gets its number. -/
def appendRecord (c : LogFlush) (i : Nat) (r : LogRecord) : LogFlush :=
  { c.setPc i (.returned (.addLogToBuffer r)) with
    globalLsn := Int.bmod (c.globalLsn + 1) (2 ^ 32),
    logBuffer := c.logBuffer ++ [{ r with lsn := c.globalLsn }],
    logBufferMaxLsn := c.globalLsn,
    issued := c.issued ++ [{ r with lsn := c.globalLsn }] }

/- `is_full`. -/
def isFull (c : LogFlush) (r : LogRecord) : Bool :=
  logBufferSize < (batchBytes c.logBuffer).length + r.logTotLen

/- `flush_buffer_locked`, with the call that it works for.
  When there is nothing to write, an add finds the buffer
  empty and a flush has nothing to wait for. -/
def flushBufferLocked
    (c : LogFlush)
    (i : Nat)
    (k : LogCall) :
    LogFlush :=
  if c.flushInProgress then
    c.setPc i (.locked k)
  else if c.logBuffer = [] then
    match k with
    | .addLogToBuffer r => c.appendRecord i r
    | .flushLogToDisk _ => c.setPc i (.returned k)
  else
    { c.setPc i (.writing k c.logBufferMaxLsn) with
      flushBuffer := c.logBuffer,
      logBuffer := [],
      logBufferMaxLsn := invalidLsn,
      flushInProgress := true }

def addLogToBuffer
    (c : LogFlush)
    (i : Nat)
    (r : LogRecord) :
    LogFlush :=
  if logBufferSize < r.logTotLen then
    c.setPc i .thrown
  else if c.isFull r then
    c.flushBufferLocked i (.addLogToBuffer r)
  else
    c.appendRecord i r

/- The loop of `flush_log_to_disk`. -/
def flushLoop (c : LogFlush) (i : Nat) (targetLsn : Int) : LogFlush :=
  let k := LogCall.flushLogToDisk targetLsn
  if c.persistLsn < targetLsn then
    if c.flushInProgress then
      c.setPc i (.ready k)
    else if c.logBuffer = [] then
      c.setPc i (.returned k)
    else
      c.flushBufferLocked i k
  else
    c.setPc i (.returned k)

def flushLogToDisk
    (c : LogFlush)
    (i : Nat)
    (targetLsn : Int) :
    LogFlush :=
  if targetLsn = invalidLsn then
    c.flushBufferLocked i (.flushLogToDisk targetLsn)
  else
    c.flushLoop i targetLsn

/- The call goes on after its flush. -/
def afterFlush
    (c : LogFlush)
    (i : Nat) :
    LogCall → LogFlush
| .addLogToBuffer r => c.addLogToBuffer i r
| .flushLogToDisk targetLsn =>
  if targetLsn = invalidLsn then
    c.setPc i (.returned (.flushLogToDisk targetLsn))
  else
    c.flushLoop i targetLsn

------------
-- Steps
------------

inductive Act where
  | call (i : Nat) (k : LogCall)
  | run (i : Nat)
  | writeLog (i : Nat)
  | writeLogFails (i : Nat)
deriving DecidableEq

/- A thread that has the latch. -/
def resume
    (c : LogFlush)
    (i : Nat) :
    Pc → Option LogFlush
| .ready (.addLogToBuffer r) => some (c.addLogToBuffer i r)
| .ready (.flushLogToDisk targetLsn) =>
  some (c.flushLogToDisk i targetLsn)
| .locked k => some (c.flushBufferLocked i k)
| .written k flushLsn =>
  some { c.setPc i (.flushed k) with
    persistLsn := max c.persistLsn flushLsn,
    flushInProgress := false }
| .failed =>
  some { c.setPc i .thrown with flushInProgress := false }
| .flushed k => some (c.afterFlush i k)
| _ => none

def step (c : LogFlush) :
    Act → Option LogFlush
| .call i k =>
  match c.pc i with
  | .idle => some (c.setPc i (.ready k))
  | .returned _ => some (c.setPc i (.ready k))
  | .thrown => some (c.setPc i (.ready k))
  | _ => none
| .run i => c.resume i (c.pc i)
| .writeLog i =>
  match c.pc i with
  | .writing k flushLsn =>
    some { c.setPc i (.written k flushLsn) with
      file := c.file ++ c.flushBuffer }
  | _ => none
| .writeLogFails i =>
  match c.pc i with
  | .writing _ _ => some (c.setPc i .failed)
  | _ => none

/- No write throws, and the numbers of the records stay in the
  range of their type. -/
def Writes (c : LogFlush) :
    Act → Prop
| .writeLogFails _ => False
| .run _ => c.globalLsn + 1 < 2 ^ 31
| _ => True

instance (c : LogFlush) (a : Act) : Decidable (c.Writes a) := by
  cases a <;> (unfold Writes; infer_instance)

------------
-- The Invariant
------------

/- All records up to a number are in a list. -/
def UpTo (c : LogFlush) (lsn : Int) (records : List LogRecord) : Prop :=
  lsn < c.globalLsn ∧
    ∀ r ∈ c.issued, r.lsn ≤ lsn → r ∈ records

/- The file, the batch that is being written and the buffer
  are all records, in order. -/
structure Inv (c : LogFlush) : Prop where
  nonneg : ∀ r ∈ c.issued, 0 ≤ r.lsn
  below : ∀ r ∈ c.issued, r.lsn < c.globalLsn
  next : 0 ≤ c.globalLsn
  sorted : c.issued.Pairwise (fun r q => r.lsn < q.lsn)
  flushing : ∀ i, (c.pc i).flushes = true → c.flushInProgress = true
  single : ∀ i j, (c.pc i).flushes = true → (c.pc j).flushes = true → i = j
  rest : (∀ i k lsn, c.pc i ≠ .writing k lsn) → c.issued = c.file ++ c.logBuffer
  batch : ∀ i k lsn, c.pc i = .writing k lsn → c.issued = c.file ++ (c.flushBuffer ++ c.logBuffer) ∧
        c.UpTo lsn (c.file ++ c.flushBuffer)
  done : ∀ i k lsn, c.pc i = .written k lsn → c.UpTo lsn c.file
  persist : c.UpTo c.persistLsn c.file
  bufferMax : c.logBufferMaxLsn < c.globalLsn

namespace Inv

variable {c c' : LogFlush} {i : Nat}

theorem init_inv : Inv init := by
  refine ⟨by simp [init], by simp [init], by simp [init],
    by simp [init], ?_, ?_, fun _ => rfl, ?_, ?_, ?_, ?_⟩
  · intro i hFlushes
    cases hFlushes
  · intro i j hFlushes
    cases hFlushes
  · intro i k lsn hPc
    cases hPc
  · intro i k lsn hPc
    cases hPc
  · exact ⟨by decide, by simp [init]⟩
  · decide

variable (hInv : Inv c)
include hInv

/- Nobody writes when no flush is in progress. -/
theorem issued_eq (hIdle : c.flushInProgress = false) :
    c.issued = c.file ++ c.logBuffer := by
  apply hInv.rest
  intro i k lsn hPc
  have hFlushes := hInv.flushing i (by rw [hPc]; rfl)
  rw [hIdle] at hFlushes
  cases hFlushes

/- A thread goes on and does not take part in a flush. -/
theorem setPc
    {pc : Pc}
    (hOld : (c.pc i).flushes = false)
    (hNew : pc.flushes = false) :
    Inv (c.setPc i pc) := by
  have hPc : ∀ j, ((c.setPc i pc).pc j).flushes = true → (c.setPc i pc).pc j = c.pc j := by
    intro j hFlushes
    by_cases hJ : j = i
    · subst hJ
      simp only [LogFlush.setPc, update_self] at hFlushes
      rw [hNew] at hFlushes
      cases hFlushes
    · exact update_of_ne hJ _ _
  refine ⟨hInv.nonneg, hInv.below, hInv.next, hInv.sorted, ?_,
    ?_, ?_, ?_, ?_, hInv.persist, hInv.bufferMax⟩
  · intro j hFlushes
    rw [hPc j hFlushes] at hFlushes
    exact hInv.flushing j hFlushes
  · intro j l hJ hL
    have hJ' := hPc j hJ ▸ hJ
    have hL' := hPc l hL ▸ hL
    exact hInv.single j l hJ' hL'
  · intro hNone
    apply hInv.rest
    intro j k lsn hWriting
    by_cases hJ : j = i
    · rw [← hJ, hWriting] at hOld
      cases hOld
    · apply hNone j k lsn
      rw [← hWriting]
      exact update_of_ne hJ _ _
  · intro j k lsn hWriting
    exact hInv.batch j k lsn ((hPc j (by rw [hWriting]; rfl)).symm.trans hWriting)
  · intro j k lsn hWritten
    exact hInv.done j k lsn ((hPc j (by rw [hWritten]; rfl)).symm.trans hWritten)

/- A record gets the next number. -/
theorem append
    (hRange : c.globalLsn + 1 < 2 ^ 31)
    (r : LogRecord) :
    Inv { c with
      globalLsn := Int.bmod (c.globalLsn + 1) (2 ^ 32),
      logBuffer := c.logBuffer ++ [{ r with lsn := c.globalLsn }],
      logBufferMaxLsn := c.globalLsn,
      issued := c.issued ++ [{ r with lsn := c.globalLsn }] } := by
  have hNext := hInv.next
  have hGlobal : Int.bmod (c.globalLsn + 1) (2 ^ 32) = c.globalLsn + 1 := by
    apply Int.bmod_eq_of_le_mul_two
    · push_cast
      omega
    · push_cast
      omega
  rw [hGlobal]
  -- the new record is above all numbers so far
  have hUpTo : ∀ {lsn : Int} {records : List LogRecord}, c.UpTo lsn records →
        lsn < c.globalLsn + 1 ∧ ∀ q ∈ c.issued ++ [{ r with lsn := c.globalLsn }],
            q.lsn ≤ lsn → q ∈ records := by
    rintro lsn records ⟨hLt, hMem⟩
    refine ⟨by omega, ?_⟩
    intro q hQ hLe
    rcases mem_append.mp hQ with hOld | hNew
    · exact hMem q hOld hLe
    · rw [mem_singleton.mp hNew] at hLe
      exact absurd hLe (not_le.mpr hLt)
  refine ⟨?_, ?_, by simp only; omega, ?_, hInv.flushing,
    hInv.single, ?_, ?_, ?_, hUpTo hInv.persist, by simp only; omega⟩
  · intro q hQ
    rcases mem_append.mp hQ with hOld | hNew
    · exact hInv.nonneg q hOld
    · rw [mem_singleton.mp hNew]
      exact hNext
  · intro q hQ
    rcases mem_append.mp hQ with hOld | hNew
    · exact lt_trans (hInv.below q hOld) (lt_add_one _)
    · rw [mem_singleton.mp hNew]
      exact lt_add_one _
  · refine pairwise_append.mpr ⟨hInv.sorted, pairwise_singleton _ _, ?_⟩
    intro q hQ q' hQ'
    rw [mem_singleton.mp hQ']
    exact hInv.below q hQ
  · intro hNone
    simp only [hInv.rest hNone, append_assoc]
  · intro j k lsn hWriting
    rcases hInv.batch j k lsn hWriting with ⟨hEq, hBatch⟩
    refine ⟨?_, hUpTo hBatch⟩
    simp only [hEq, append_assoc]
  · intro j k lsn hWritten
    exact hUpTo (hInv.done j k lsn hWritten)

theorem appendRecord
    (hOld : (c.pc i).flushes = false)
    (hRange : c.globalLsn + 1 < 2 ^ 31)
    (r : LogRecord) :
    Inv (c.appendRecord i r) := by
  have hReturned : Inv (c.setPc i (.returned (.addLogToBuffer r))) := hInv.setPc hOld rfl
  exact append hReturned hRange r

/- A thread takes the buffer and starts to write. -/
theorem startWrite
    (hIdle : c.flushInProgress = false)
    (k : LogCall) :
    Inv { c.setPc i (.writing k c.logBufferMaxLsn) with
      flushBuffer := c.logBuffer,
      logBuffer := [],
      logBufferMaxLsn := invalidLsn,
      flushInProgress := true } := by
  have hNobody : ∀ j, (c.pc j).flushes = false := by
    intro j
    by_contra hFlushes
    have hBusy := hInv.flushing j (Bool.eq_true_of_not_eq_false hFlushes)
    rw [hIdle] at hBusy
    cases hBusy
  have hOnly : ∀ j, (update c.pc i (.writing k c.logBufferMaxLsn) j).flushes = true →
        j = i := by
    intro j hFlushes
    by_contra hJ
    rw [update_of_ne hJ, hNobody j] at hFlushes
    cases hFlushes
  have hIssued := hInv.issued_eq hIdle
  have hLow : invalidLsn < c.globalLsn := lt_of_lt_of_le (by decide) hInv.next
  refine ⟨hInv.nonneg, hInv.below, hInv.next, hInv.sorted,
    fun _ _ => rfl, ?_, ?_, ?_, ?_, hInv.persist, hLow⟩
  · intro j l hJ hL
    rw [hOnly j hJ, hOnly l hL]
  · intro hNone
    exact absurd (update_self _ _ _) (hNone i k c.logBufferMaxLsn)
  · intro j k' lsn hWriting
    have hJ := hOnly j (by
      simp only [LogFlush.setPc] at hWriting
      rw [hWriting]
      rfl)
    subst hJ
    simp only [LogFlush.setPc, update_self, Pc.writing.injEq] at hWriting
    rw [← hWriting.2]
    refine ⟨?_, hInv.bufferMax, ?_⟩
    · simp [hIssued, LogFlush.setPc]
    · intro r hR _
      have hMem : r ∈ c.issued := hR
      rw [hIssued] at hMem
      exact hMem
  · intro j k' lsn hWritten
    have hJ := hOnly j (by
      simp only [LogFlush.setPc] at hWritten
      rw [hWritten]
      rfl)
    subst hJ
    simp [LogFlush.setPc] at hWritten

theorem flushBufferLocked
    (hOld : (c.pc i).flushes = false)
    (hRange : c.globalLsn + 1 < 2 ^ 31)
    (k : LogCall) :
    Inv (c.flushBufferLocked i k) := by
  unfold LogFlush.flushBufferLocked
  split
  · exact hInv.setPc hOld rfl
  · rename_i hIdle
    split
    · cases k with
      | addLogToBuffer r => exact hInv.appendRecord hOld hRange r
      | flushLogToDisk targetLsn => exact hInv.setPc hOld rfl
    · exact hInv.startWrite (Bool.eq_false_iff.mpr hIdle) k

theorem addLogToBuffer
    (hOld : (c.pc i).flushes = false)
    (hRange : c.globalLsn + 1 < 2 ^ 31)
    (r : LogRecord) :
    Inv (c.addLogToBuffer i r) := by
  unfold LogFlush.addLogToBuffer
  split
  · exact hInv.setPc hOld rfl
  · split
    · exact hInv.flushBufferLocked hOld hRange _
    · exact hInv.appendRecord hOld hRange r

theorem flushLoop
    (hOld : (c.pc i).flushes = false)
    (hRange : c.globalLsn + 1 < 2 ^ 31)
    (targetLsn : Int) :
    Inv (c.flushLoop i targetLsn) := by
  unfold LogFlush.flushLoop
  split
  · split
    · exact hInv.setPc hOld rfl
    · split
      · exact hInv.setPc hOld rfl
      · exact hInv.flushBufferLocked hOld hRange _
  · exact hInv.setPc hOld rfl

/- A flush ends: the thread no longer takes part in one. -/
theorem endFlush
    {pc : Pc}
    {persistLsn : Int}
    (hOld : (c.pc i).flushes = true)
    (hNot : ∀ k lsn, c.pc i ≠ .writing k lsn)
    (hNew : pc.flushes = false)
    (hPersist : c.UpTo persistLsn c.file) :
    Inv { c.setPc i pc with
      persistLsn := persistLsn,
      flushInProgress := false } := by
  have hNobody : ∀ j, (update c.pc i pc j).flushes = false := by
    intro j
    by_cases hJ : j = i
    · rw [hJ, update_self, hNew]
    · rw [update_of_ne hJ]
      by_contra hFlushes
      exact hJ (hInv.single j i (Bool.eq_true_of_not_eq_false hFlushes) hOld)
  have hIssued : c.issued = c.file ++ c.logBuffer := by
    apply hInv.rest
    intro j k lsn hWriting
    have hJ := hInv.single j i (by rw [hWriting]; rfl) hOld
    subst hJ
    exact hNot k lsn hWriting
  refine ⟨hInv.nonneg, hInv.below, hInv.next, hInv.sorted, ?_,
    ?_, fun _ => hIssued, ?_, ?_, hPersist, hInv.bufferMax⟩
  · intro j hFlushes
    exact absurd (hNobody j) (by
      rw [show update c.pc i pc j = (c.setPc i pc).pc j from rfl, hFlushes]
      simp)
  · intro j l hFlushes
    exact absurd (hNobody j) (by
      rw [show update c.pc i pc j = (c.setPc i pc).pc j from rfl, hFlushes]
      simp)
  · intro j k lsn hWriting
    have hFalse := hNobody j
    rw [show update c.pc i pc j = .writing k lsn from
      hWriting] at hFalse
    cases hFalse
  · intro j k lsn hWritten
    have hFalse := hNobody j
    rw [show update c.pc i pc j = .written k lsn from
      hWritten] at hFalse
    cases hFalse

/- The batch is in the file. -/
theorem writeLog
    {k : LogCall}
    {lsn : Int}
    (hPc : c.pc i = .writing k lsn) :
    Inv { c.setPc i (.written k lsn) with
      file := c.file ++ c.flushBuffer } := by
  rcases hInv.batch i k lsn hPc with ⟨hIssued, hUpTo⟩
  have hFlushes : (c.pc i).flushes = true := by
    rw [hPc]
    rfl
  have hSame : ∀ j, (update c.pc i (.written k lsn)
      j).flushes = true → (c.pc j).flushes = true := by
    intro j hJ
    by_cases hEq : j = i
    · rw [hEq, hPc]
      rfl
    · rw [update_of_ne hEq] at hJ
      exact hJ
  refine ⟨hInv.nonneg, hInv.below, hInv.next, hInv.sorted, ?_, ?_, ?_, ?_, ?_, ?_, hInv.bufferMax⟩
  · exact fun j hJ => hInv.flushing j (hSame j hJ)
  · exact fun j l hJ hL => hInv.single j l (hSame j hJ) (hSame l hL)
  · intro _
    simp only [LogFlush.setPc, hIssued, append_assoc]
  · intro j k' lsn' hWriting
    have hJ := hInv.single j i (hSame j (by
      simp only [LogFlush.setPc] at hWriting
      rw [hWriting]
      rfl)) hFlushes
    subst hJ
    simp [LogFlush.setPc] at hWriting
  · intro j k' lsn' hWritten
    have hJ := hInv.single j i (hSame j (by
      simp only [LogFlush.setPc] at hWritten
      rw [hWritten]
      rfl)) hFlushes
    subst hJ
    simp only [LogFlush.setPc, update_self, Pc.written.injEq] at hWritten
    rw [← hWritten.2]
    exact hUpTo
  · refine ⟨hInv.persist.1, ?_⟩
    intro r hR hLe
    exact mem_append_left _ (hInv.persist.2 r hR hLe)

theorem run (hRange : c.globalLsn + 1 < 2 ^ 31)
    (hRun : c.resume i (c.pc i) = some c') : Inv c' := by
  cases hPc : c.pc i with
  | ready k =>
    have hOld : (c.pc i).flushes = false := by
      rw [hPc]
      rfl
    rw [hPc] at hRun
    cases k with
    | addLogToBuffer r =>
      cases hRun
      exact hInv.addLogToBuffer hOld hRange r
    | flushLogToDisk targetLsn =>
      cases hRun
      unfold LogFlush.flushLogToDisk
      split
      · exact hInv.flushBufferLocked hOld hRange _
      · exact hInv.flushLoop hOld hRange targetLsn
  | locked k =>
    have hOld : (c.pc i).flushes = false := by
      rw [hPc]
      rfl
    rw [hPc] at hRun
    cases hRun
    exact hInv.flushBufferLocked hOld hRange k
  | written k lsn =>
    have hUpTo := hInv.done i k lsn hPc
    have hMax : c.UpTo (max c.persistLsn lsn) c.file := by
      rcases max_choice c.persistLsn lsn with hEq | hEq
      · rw [hEq]
        exact hInv.persist
      · rw [hEq]
        exact hUpTo
    rw [hPc] at hRun
    cases hRun
    exact hInv.endFlush (by rw [hPc]; rfl) (by simp [hPc]) rfl hMax
  | failed =>
    rw [hPc] at hRun
    cases hRun
    exact hInv.endFlush (by rw [hPc]; rfl) (by simp [hPc]) rfl hInv.persist
  | flushed k =>
    have hOld : (c.pc i).flushes = false := by
      rw [hPc]
      rfl
    rw [hPc] at hRun
    cases k with
    | addLogToBuffer r =>
      cases hRun
      exact hInv.addLogToBuffer hOld hRange r
    | flushLogToDisk targetLsn =>
      cases hRun
      unfold LogFlush.afterFlush
      dsimp only
      split
      · exact hInv.setPc hOld rfl
      · exact hInv.flushLoop hOld hRange targetLsn
  | _ =>
    rw [hPc] at hRun
    cases hRun

theorem step
    {a : Act}
    (hWrites : c.Writes a)
    (hStep : c.step a = some c') :
    Inv c' := by
  cases a with
  | call i k =>
    simp only [LogFlush.step] at hStep
    split at hStep
    · rename_i hPc
      cases hStep
      exact hInv.setPc (by rw [hPc]; rfl) rfl
    · rename_i hPc
      cases hStep
      exact hInv.setPc (by rw [hPc]; rfl) rfl
    · rename_i hPc
      cases hStep
      exact hInv.setPc (by rw [hPc]; rfl) rfl
    · cases hStep
  | run i => exact hInv.run hWrites hStep
  | writeLog i =>
    simp only [LogFlush.step] at hStep
    split at hStep
    · rename_i k lsn hPc
      cases hStep
      exact hInv.writeLog hPc
    · cases hStep
  | writeLogFails i => exact absurd hWrites id

end Inv

------------
-- Returns
------------

/- All records up to a number are in the file. -/
def Durable (c : LogFlush) (targetLsn : Int) : Prop :=
  ∀ r ∈ c.issued, r.lsn ≤ targetLsn → r ∈ c.file

/- A call of `flush_log_to_disk` that has returned is durable. -/
def ReturnsDurable (i : Nat) (c : LogFlush) : Prop :=
  ∀ targetLsn,
    c.pc i = .returned (.flushLogToDisk targetLsn) →
      c.Durable targetLsn

section Returns

variable {c c' : LogFlush} {i : Nat}

theorem returnsDurable_of_ne
    (hNot : ∀ k, c.pc i ≠ .returned k) :
    ReturnsDurable i c := fun _ hPc => absurd hPc (hNot _)

theorem returnsDurable_setPc
    {targetLsn : Int}
    (hDurable : c.Durable targetLsn) :
    ReturnsDurable i (c.setPc i (.returned (.flushLogToDisk targetLsn))) := by
  intro target hPc
  simp only [LogFlush.setPc, update_self,
    Pc.returned.injEq, LogCall.flushLogToDisk.injEq] at hPc
  rw [← hPc]
  exact hDurable

theorem returnsDurable_append (r : LogRecord) :
    ReturnsDurable i (c.appendRecord i r) := by
  intro target hPc
  simp [LogFlush.appendRecord, LogFlush.setPc] at hPc

namespace Inv

/- Nothing is left to write. -/
theorem durable_of_empty
    (hInv : Inv c)
    (hIdle : c.flushInProgress = false)
    (hEmpty : c.logBuffer = [])
    (targetLsn : Int) :
    c.Durable targetLsn := by
  intro r hR _
  rw [hInv.issued_eq hIdle, hEmpty, append_nil] at hR
  exact hR

theorem returns_flushBufferLocked (hInv : Inv c)
    (k : LogCall) : ReturnsDurable i (c.flushBufferLocked i k) := by
  unfold LogFlush.flushBufferLocked
  split
  · exact returnsDurable_of_ne (by simp [LogFlush.setPc])
  · rename_i hIdle
    split
    · rename_i hEmpty
      cases k with
      | addLogToBuffer r => exact returnsDurable_append r
      | flushLogToDisk targetLsn =>
        exact returnsDurable_setPc (hInv.durable_of_empty
          (Bool.eq_false_iff.mpr hIdle) hEmpty targetLsn)
    · exact returnsDurable_of_ne (by simp [LogFlush.setPc])

theorem returns_addLogToBuffer (hInv : Inv c)
    (r : LogRecord) : ReturnsDurable i (c.addLogToBuffer i r) := by
  unfold LogFlush.addLogToBuffer
  split
  · exact returnsDurable_of_ne (by simp [LogFlush.setPc])
  · split
    · exact hInv.returns_flushBufferLocked _
    · exact returnsDurable_append r

theorem returns_flushLoop (hInv : Inv c)
    (targetLsn : Int) : ReturnsDurable i (c.flushLoop i targetLsn) := by
  unfold LogFlush.flushLoop
  split
  · split
    · exact returnsDurable_of_ne (by simp [LogFlush.setPc])
    · rename_i hIdle
      split
      · rename_i hEmpty
        exact returnsDurable_setPc (hInv.durable_of_empty
          (Bool.eq_false_iff.mpr hIdle) hEmpty targetLsn)
      · exact hInv.returns_flushBufferLocked _
  · -- the target is persistent
    rename_i hPersist
    refine returnsDurable_setPc ?_
    intro r hR hLe
    exact hInv.persist.2 r hR (le_trans hLe (not_lt.mp hPersist))

theorem returns_run (hInv : Inv c)
    (hRun : c.resume i (c.pc i) = some c') : ReturnsDurable i c' := by
  cases hPc : c.pc i with
  | ready k =>
    rw [hPc] at hRun
    cases k with
    | addLogToBuffer r =>
      cases hRun
      exact hInv.returns_addLogToBuffer r
    | flushLogToDisk targetLsn =>
      cases hRun
      unfold LogFlush.flushLogToDisk
      split
      · exact hInv.returns_flushBufferLocked _
      · exact hInv.returns_flushLoop targetLsn
  | locked k =>
    rw [hPc] at hRun
    cases hRun
    exact hInv.returns_flushBufferLocked k
  | written k lsn | failed =>
    rw [hPc] at hRun
    cases hRun
    exact returnsDurable_of_ne (by simp [LogFlush.setPc])
  | flushed k =>
    rw [hPc] at hRun
    cases k with
    | addLogToBuffer r =>
      cases hRun
      exact hInv.returns_addLogToBuffer r
    | flushLogToDisk targetLsn =>
      cases hRun
      unfold LogFlush.afterFlush
      dsimp only
      split
      · -- no record has the invalid number or a smaller one
        rename_i hTarget
        refine returnsDurable_setPc ?_
        intro r hR hLe
        have hPos := hInv.nonneg r hR
        rw [hTarget] at hLe
        exact absurd (le_trans hPos hLe) (by decide)
      · exact hInv.returns_flushLoop targetLsn
  | _ =>
    rw [hPc] at hRun
    cases hRun

end Inv

end Returns

------------
-- Whole Runs
------------

/- No write throws. Then in every state the file has the first
  of all records, in the order of their numbers and each once;
  and when a call of `flush_log_to_disk` returns, the records
  up to its target are in the file. -/
theorem log_durable
    {acts : List Act}
    {c : LogFlush}
    (hWrites : StepSystem.Guarded step Writes init acts)
    (hRun : StepSystem.run step init acts = some c) :
    c.file <+: c.issued ∧ c.issued.Pairwise (fun r q => r.lsn < q.lsn) ∧
    ∀ i c' targetLsn, c.Writes (.run i) → c.step (.run i) = some c' →
      c'.pc i = .returned (.flushLogToDisk targetLsn) →
      ∀ r ∈ c'.issued, r.lsn ≤ targetLsn → r ∈ c'.file := by
  have hInv : Inv c := invariant_of_guarded_run Inv
      (fun _ _ _ hInv hGuard hStep => hInv.step hGuard hStep) Inv.init_inv hWrites hRun
  refine ⟨?_, hInv.sorted, ?_⟩
  · by_cases hWriting : ∃ i k lsn, c.pc i = .writing k lsn
    · rcases hWriting with ⟨i, k, lsn, hPc⟩
      rw [(hInv.batch i k lsn hPc).1]
      exact prefix_append _ _
    · rw [hInv.rest (fun i k lsn hPc => hWriting ⟨i, k, lsn, hPc⟩)]
      exact prefix_append _ _
  · intro i c' targetLsn _ hStep hPc
    exact hInv.returns_run hStep targetLsn hPc

/- Two threads commit; the second one's record gets into the
  buffer while the first one writes. -/
def twoCommits : List Act :=
  [.call 0 (.addLogToBuffer ⟨-1, 0, -1, .commit⟩), .run 0,
    .call 0 (.flushLogToDisk 0), .run 0,
    .call 1 (.addLogToBuffer ⟨-1, 1, -1, .commit⟩), .run 1,
    .call 1 (.flushLogToDisk 1), .run 1, .writeLog 0, .run 1,
    .run 0, .run 1, .run 0, .writeLog 1, .run 1]

theorem log_durable_twoCommits :
    ∃ c c', StepSystem.run step init twoCommits = some c ∧
      c.step (.run 1) = some c' ∧ c'.pc 0 = .returned (.flushLogToDisk 0) ∧
      c'.pc 1 = .returned (.flushLogToDisk 1) ∧
      ∀ r ∈ c'.issued, r.lsn ≤ 1 → r ∈ c'.file := by
  have hRun : run step init twoCommits = some _ := (Option.some_get (by decide)).symm
  refine ⟨_, _, hRun, (Option.some_get (by decide)).symm, by decide, by decide, ?_⟩
  exact (log_durable (by decide) hRun).2.2 1 _ 1 (by decide) (Option.some_get _).symm (by decide)

/- The write of the first record throws. A second flush for
  this record returns at once, and the next record is written
  without it. -/
theorem failed_write_skipped :
    ∃ c c', StepSystem.run step init
        [.call 0 (.addLogToBuffer ⟨-1, 0, -1, .commit⟩), .run 0,
          .call 0 (.flushLogToDisk 0), .run 0, .writeLogFails 0, .run 0,
          .call 1 (.flushLogToDisk 0), .run 1] = some c ∧
      c.pc 1 = .returned (.flushLogToDisk 0) ∧
      c.issued = [⟨0, 0, -1, .commit⟩] ∧ c.file = [] ∧
      StepSystem.run step c
        [.call 1 (.addLogToBuffer ⟨-1, 1, -1, .commit⟩), .run 1,
          .call 1 (.flushLogToDisk 1), .run 1, .writeLog 1] = some c' ∧
      c'.issued = [⟨0, 0, -1, .commit⟩, ⟨1, 1, -1, .commit⟩] ∧
      c'.file = [⟨1, 1, -1, .commit⟩] := by
  refine ⟨_, _, (Option.some_get (by decide)).symm, by decide, by decide, by decide,
    (Option.some_get (by decide)).symm, by decide, by decide⟩

end LogFlush

end Rmdb
