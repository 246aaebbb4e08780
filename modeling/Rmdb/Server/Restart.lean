import Rmdb.Lib.StepSystem
import Rmdb.Recovery.Analysis

/-
  This file models the log of a server over several runs on
  one database directory.  The file `db.log` is appended from
  run to run and read from its first byte at every restart,
  while `next_txn_id_` and `global_lsn_` start at zero in every
  run.

  The model keeps what each ended run has left in the file.
  Transactions of every isolation level are the same here:
  they log changes while they grow, and a commit or an abort
  record at their end.

  Key definitions include:
    * `Server.step`
    * `Server.file`
    * `Server.Classified`
    * `Server.NewIds`

  Key theorems include:
    * `Server.runOk_step`
    * `Server.classified_of_apart`
    * `Server.restart_classified`
-/

namespace Rmdb

open Function StepSystem List

------------
-- The Server And Its Log
------------

/- Where a transaction stands, as far as the log is concerned. -/
inductive Life where
  | fresh
  | growing
  | committing (lsn : Int)
  | committed
  | aborted
deriving DecidableEq, Repr

/- What a run leaves behind when it ends. -/
structure Run where
  -- its records in `db.log`
  log : List LogRecord
  -- the transactions whose commit has returned
  returned : List TxnId
deriving DecidableEq, Repr

/- The transaction has logged a change. -/
def HasData (logs : List LogRecord) (t : TxnId) : Prop :=
  ∃ r ∈ logs, r.data?.isSome ∧ r.tid = t

instance
    (logs : List LogRecord)
    (t : TxnId) :
    Decidable (HasData logs t) := by
  unfold HasData
  infer_instance

/- The server, with its ended runs from the oldest on. -/
structure Server where
  runs : List Run
  -- the records of this run, and how many the file holds
  log : List LogRecord
  flushed : Nat
  nextTxnId : Nat
  life : TxnId → Life
  prevLsn : TxnId → Int
  returned : List TxnId

namespace Server

/- The records that a restart reads. -/
def file (runs : List Run) : List LogRecord :=
  runs.flatMap Run.log

/- A new run: every counter starts again. -/
def start (runs : List Run) : Server :=
  { runs := runs,
    log := [],
    flushed := 0,
    nextTxnId := 0,
    life := fun _ => .fresh,
    prevLsn := fun _ => invalidLsn,
    returned := [] }

/- The LSN that `global_lsn_` hands out next. -/
def nextLsn (c : Server) : Int :=
  c.log.length

def setLife (c : Server) (t : TxnId) (life : Life) : Server :=
  { c with life := Function.update c.life t life }

def addLogRecord (c : Server) (t : TxnId) (body : LogBody) : Server :=
  { c with
    log := c.log ++ [⟨c.nextLsn, t, c.prevLsn t, body⟩],
    prevLsn := Function.update c.prevLsn t c.nextLsn }

/- Write the buffer if the record is not in the file yet. -/
def flushLogToDisk (c : Server) (lsn : Int) : Server :=
  if c.flushed ≤ lsn then
    { c with flushed := c.log.length }
  else
    c

inductive Act where
  | begin
  | data (t : TxnId) (d : DataRecord)
  | startCommit (t : TxnId)
  | finishCommit (t : TxnId)
  | abort (t : TxnId) (hasWrites : Bool)
  | checkpoint
  | flush
  | crash (kept : Nat)
  | close
deriving DecidableEq, Repr

/- The run ends with some of its records in the file. -/
def stop (c : Server) (kept : Nat) : Server :=
  start (c.runs ++ [⟨c.log.take kept, c.returned⟩])

/- The end of a commit: after the flush the call returns. A
  transaction without writes logs nothing. -/
def startCommit (c : Server) (t : TxnId) : Option Server :=
  if c.life t ≠ .growing then
    none
  else if HasData c.log t then
    some ((c.addLogRecord t .commit).setLife t
      (.committing c.nextLsn))
  else
    some { c.setLife t .committed with
      returned := t :: c.returned }

def finishCommit (c : Server) (t : TxnId) : Option Server :=
  match c.life t with
  | .committing lsn =>
    some { (c.flushLogToDisk lsn).setLife t .committed with
      returned := t :: c.returned }
  | _ => none

/- An abort logs its record if the transaction has writes. A
  statement that failed early may have none, and one that
  failed late may have logged its change before. -/
def abort (c : Server) (t : TxnId) (hasWrites : Bool) : Option Server :=
  if c.life t ≠ .growing then
    none
  else if hasWrites then
    some ((c.addLogRecord t .abort).setLife t .aborted)
  else
    some (c.setLife t .aborted)

def step (c : Server) :
    Act → Option Server
| .begin =>
  some { c.setLife c.nextTxnId .growing with
    nextTxnId := c.nextTxnId + 1 }
| .data t d =>
  if c.life t = .growing then
    some (c.addLogRecord t (.data d))
  else
    none
| .startCommit t => c.startCommit t
| .finishCommit t => c.finishCommit t
| .abort t hasWrites => c.abort t hasWrites
| .checkpoint =>
  some { c with
    log := c.log ++
      [⟨c.nextLsn, invalidTxnId, invalidLsn, .checkpoint⟩],
    flushed := c.log.length + 1 }
| .flush => some { c with flushed := c.log.length }
| .crash kept =>
  if c.flushed ≤ kept then
    some (c.stop kept)
  else
    none
| .close => some (c.stop c.log.length)

------------
-- What A Restart Should Find
------------

/- Every change in the file is redone if its transaction has
  committed in its run, and undone if not; and a commit that
  has returned is one of those. -/
def Classified (runs : List Run) : Prop :=
  ∀ R ∈ runs, ∀ r ∈ R.log, ∀ d, r.body = .data d →
    (r.tid ∈ committedTxns (file runs) ↔
      HasCommit R.log r.tid) ∧
    (r ∈ undoLogs (file runs) ↔ ¬ HasCommit R.log r.tid) ∧
    (r.tid ∈ R.returned → HasCommit R.log r.tid)

/- The next LSN is not in the file. -/
def NewLsn (c : Server) : Prop :=
  ∀ r ∈ file c.runs, r.lsn ≠ c.nextLsn

/- Neither the next LSN nor the identifier of the transaction
  is in the file. -/
def NewIds (c : Server) (t : TxnId) : Prop :=
  c.NewLsn ∧ ∀ r ∈ file c.runs, r.tid ≠ t

instance (c : Server) : Decidable c.NewLsn := by
  unfold NewLsn
  infer_instance

instance (c : Server) (t : TxnId) : Decidable (c.NewIds t) := by
  unfold NewIds
  infer_instance

/- A step that appends a record hands out nothing that the file
  holds from an earlier run. -/
def IdGuard (c : Server) :
    Act → Prop
| .data t _ => c.NewIds t
| .startCommit t => HasData c.log t → c.NewIds t
| .abort t hasWrites => hasWrites = true → c.NewIds t
| .checkpoint => c.NewLsn
| _ => True

instance (c : Server) (a : Act) : Decidable (c.IdGuard a) := by
  cases a <;> unfold IdGuard <;> infer_instance

------------
-- One Run
------------

/- What the log of this run says about its transactions. -/
structure RunOk (c : Server) : Prop where
  fresh : ∀ t, (c.nextTxnId : Int) ≤ t → c.life t = .fresh
  noBegin : ∀ r ∈ c.log, r.body ≠ .begin
  committed : ∀ t, HasCommit c.log t → c.life t = .committed ∨ ∃ n, c.life t = .committing n
  aborted : ∀ r ∈ c.log, r.body = .abort → c.life r.tid = .aborted
  pending : ∀ t n, c.life t = .committing n → 0 ≤ n ∧ HasCommit (c.log.take (n.toNat + 1)) t
  returned : ∀ t ∈ c.returned, c.life t = .committed ∧
      (HasData c.log t → HasCommit (c.log.take c.flushed) t)
  flushed : c.flushed ≤ c.log.length

theorem runOk_start (runs : List Run) : RunOk (start runs) := by
  constructor <;> simp [start, HasCommit]

section Steps

variable {c c' : Server} {t : TxnId}

/- A longer part of the file still has the commit record. -/
theorem hasCommit_take
    {logs : List LogRecord}
    {m n : Nat}
    (hLe : m ≤ n)
    (more : List LogRecord)
    (hCommit : HasCommit (logs.take m) t) :
    HasCommit ((logs ++ more).take n) t := by
  rcases hCommit with ⟨r, hR, hRest⟩
  refine ⟨r, ?_, hRest⟩
  have hSame : r ∈ (logs ++ more).take m := by
    rw [take_append]
    exact mem_append_left _ hR
  exact (take_subset_take_left _ hLe) hSame

/- A growing transaction appends one of its records. -/
theorem RunOk.append
    {body : LogBody}
    {life : Life}
    (hOk : RunOk c)
    (hGrowing : c.life t = .growing)
    (hBody : (∃ d, body = .data d ∧ life = .growing) ∨
      (body = .commit ∧ life = .committing c.nextLsn) ∨
      (body = .abort ∧ life = .aborted)) :
    RunOk ((c.addLogRecord t body).setLife t life) := by
  have hOther : ∀ u, c.life u ≠ .growing → update c.life t life u = c.life u := by
    intro u hU
    apply update_of_ne
    rintro rfl
    exact hU hGrowing
  constructor
  · intro u hU
    have hFresh := hOk.fresh u hU
    exact (hOther u (by simp [hFresh])).trans hFresh
  · intro r hR
    rcases mem_concat.mp hR with hOld | rfl
    · exact hOk.noBegin r hOld
    · rcases hBody with ⟨d, rfl, _⟩ | ⟨rfl, _⟩ | ⟨rfl, _⟩ <;> simp
  · intro u hCommit
    rcases (hasCommit_concat _ _ _).mp hCommit with
      hOld | ⟨hNew, rfl⟩
    · have hLife := hOk.committed u hOld
      have hSame := hOther u (by rcases hLife with h | ⟨n, h⟩ <;> simp [h])
      simpa only [setLife, addLogRecord, hSame] using hLife
    · rcases hBody with ⟨d, rfl, _⟩ | ⟨rfl, rfl⟩ | ⟨rfl, _⟩
      · cases hNew
      · exact Or.inr ⟨c.nextLsn, update_self _ _ _⟩
      · cases hNew
  · intro r hR hAbort
    rcases mem_concat.mp hR with hOld | rfl
    · have hLife := hOk.aborted r hOld hAbort
      exact (hOther r.tid (by simp [hLife])).trans hLife
    · rcases hBody with ⟨d, rfl, _⟩ | ⟨rfl, _⟩ | ⟨rfl, rfl⟩
      · cases hAbort
      · cases hAbort
      · exact update_self _ _ _
  · intro u n hLife
    by_cases hU : u = t
    · subst hU
      have hNew : life = .committing n := by simpa [setLife] using hLife
      rcases hBody with ⟨d, _, rfl⟩ | ⟨rfl, rfl⟩ | ⟨_, rfl⟩
      · cases hNew
      · obtain rfl := Life.committing.inj hNew
        refine ⟨Int.natCast_nonneg _, ⟨c.nextLsn, u, c.prevLsn u, .commit⟩, ?_, rfl, rfl⟩
        rw [take_of_length_le]
        · simp [setLife, addLogRecord]
        · simp [setLife, addLogRecord, nextLsn]
      · cases hNew
    · have hOld : c.life u = .committing n := by simpa [setLife, addLogRecord, hU] using hLife
      rcases hOk.pending u n hOld with ⟨hNonneg, hCommit⟩
      exact ⟨hNonneg, hasCommit_take (Nat.le_refl _) _ hCommit⟩
  · intro u hU
    rcases hOk.returned u hU with ⟨hLife, hData⟩
    refine ⟨(hOther u (by simp [hLife])).trans hLife, ?_⟩
    rintro ⟨r, hR, hSome, rfl⟩
    rcases mem_concat.mp hR with hOld | rfl
    · exact hasCommit_take (Nat.le_refl _) _ (hData ⟨r, hOld, hSome, rfl⟩)
    · cases hGrowing.symm.trans hLife
  · exact hOk.flushed.trans (by simp [setLife, addLogRecord])

/- A transaction that has not committed changes its state
  without a record. -/
theorem RunOk.turn
    {life : Life}
    {next : Nat}
    {returned : List TxnId}
    (hOk : RunOk c)
    (hLife : c.life t = .growing ∨ c.life t = .fresh)
    (hNew : ∀ n, life ≠ .committing n)
    (hNext : c.nextTxnId ≤ next ∧ t < (next : Int))
    (hReturned : ∀ u ∈ returned, u ∈ c.returned ∨ u = t ∧
      life = .committed ∧ ¬ HasData c.log t) :
    RunOk { c.setLife t life with
      nextTxnId := next, returned := returned } := by
  have hOther : ∀ u, c.life u ≠ .growing → c.life u ≠ .fresh →
      update c.life t life u = c.life u := by
    intro u hU hU'
    apply update_of_ne
    rintro rfl
    rcases hLife with h | h
    · exact hU h
    · exact hU' h
  refine ⟨?_, hOk.noBegin, ?_, ?_, ?_, ?_, hOk.flushed⟩
  · intro u hU
    have hNe : u ≠ t := by
      rintro rfl
      exact absurd hNext.2 (not_lt.mpr hU)
    have hLe : (c.nextTxnId : Int) ≤ u := by
      have := hNext.1
      simp only at hU
      omega
    exact (update_of_ne hNe _ _).trans (hOk.fresh u hLe)
  · intro u hCommit
    have hDone := hOk.committed u hCommit
    have hSame := hOther u (by rcases hDone with h | ⟨n, h⟩ <;> simp [h])
      (by rcases hDone with h | ⟨n, h⟩ <;> simp [h])
    simpa only [setLife, hSame] using hDone
  · intro r hR hAbort
    have hDone := hOk.aborted r hR hAbort
    exact (hOther r.tid (by simp [hDone]) (by simp [hDone])).trans hDone
  · intro u n hPending
    by_cases hU : u = t
    · subst hU
      have hEq : life = .committing n := by simpa [setLife] using hPending
      exact absurd hEq (hNew n)
    · refine hOk.pending u n ?_
      simpa [setLife, hU] using hPending
  · intro u hU
    rcases hReturned u hU with hOld | ⟨rfl, rfl, hNone⟩
    · rcases hOk.returned u hOld with ⟨hDone, hData⟩
      exact ⟨(hOther u (by simp [hDone]) (by simp [hDone])).trans hDone, hData⟩
    · exact ⟨update_self _ _ _, fun h => absurd h hNone⟩

/- More of the log is in the file. -/
theorem RunOk.flush
    {n : Nat}
    (hOk : RunOk c)
    (hGrow : c.flushed ≤ n ∧ n ≤ c.log.length) :
    RunOk { c with flushed := n } := by
  refine ⟨hOk.fresh, hOk.noBegin, hOk.committed, hOk.aborted, hOk.pending, ?_, hGrow.2⟩
  intro u hU
  rcases hOk.returned u hU with ⟨hDone, hData⟩
  refine ⟨hDone, fun h => ?_⟩
  have hLong := hasCommit_take hGrow.1 [] (hData h)
  simpa using hLong

/- The commit record is in the file before the call returns. -/
theorem RunOk.finish
    {lsn : Int}
    (hOk : RunOk c)
    (hLife : c.life t = .committing lsn) :
    RunOk { (c.flushLogToDisk lsn).setLife t .committed with
      returned := t :: c.returned } := by
  have hFlush : RunOk (c.flushLogToDisk lsn) := by
    unfold flushLogToDisk
    split
    · exact hOk.flush ⟨hOk.flushed, Nat.le_refl _⟩
    · exact hOk
  have hSame : (c.flushLogToDisk lsn).log = c.log ∧ (c.flushLogToDisk lsn).life = c.life ∧
      (c.flushLogToDisk lsn).returned = c.returned := by
    unfold flushLogToDisk
    split <;> exact ⟨rfl, rfl, rfl⟩
  have hMine : HasCommit (c.log.take (c.flushLogToDisk lsn).flushed) t := by
    rcases hOk.pending t lsn hLife with ⟨hNonneg, r, hR, hRest⟩
    refine ⟨r, ?_, hRest⟩
    unfold flushLogToDisk
    split
    · rw [take_length]
      exact mem_of_mem_take hR
    · exact take_subset_take_left _ (by omega) hR
  have hOther : ∀ u, u ≠ t → update c.life t Life.committed u = c.life u :=
    fun u hU => update_of_ne hU _ _
  rcases hSame with ⟨hLog, hLives, hRets⟩
  refine ⟨?_, hFlush.noBegin, ?_, ?_, ?_, ?_, hFlush.flushed⟩
  · intro u hU
    have hFresh := hFlush.fresh u hU
    rw [hLives] at hFresh
    have hNe : u ≠ t := by
      rintro rfl
      cases hFresh.symm.trans hLife
    simp only [setLife, hLives]
    exact (hOther u hNe).trans hFresh
  · intro u hCommit
    simp only [setLife, hLives]
    by_cases hU : u = t
    · subst hU
      exact Or.inl (update_self _ _ _)
    · rw [hOther u hU, ← hLives]
      exact hFlush.committed u hCommit
  · intro r hR hAbort
    have hDone := hFlush.aborted r hR hAbort
    rw [hLives] at hDone
    have hNe : r.tid ≠ t := by
      rintro rfl
      cases hDone.symm.trans hLife
    simp only [setLife, hLives]
    exact (hOther r.tid hNe).trans hDone
  · intro u n hPending
    simp only [setLife, hLives] at hPending
    by_cases hU : u = t
    · subst hU
      exact absurd hPending (by simp)
    · rw [hOther u hU, ← hLives] at hPending
      exact hFlush.pending u n hPending
  · intro u hU
    simp only [setLife, hLives]
    by_cases hEq : u = t
    · subst hEq
      refine ⟨update_self _ _ _, fun _ => ?_⟩
      rw [hLog]
      exact hMine
    · have hOld : u ∈ (c.flushLogToDisk lsn).returned := by
        rw [hRets]
        exact (mem_cons.mp hU).resolve_left hEq
      rw [hOther u hEq, ← hLives]
      exact hFlush.returned u hOld

/- A record that is of no transaction. -/
theorem RunOk.checkpoint (hOk : RunOk c) :
    RunOk { c with
      log := c.log ++ [⟨c.nextLsn, invalidTxnId, invalidLsn, .checkpoint⟩],
      flushed := c.log.length + 1 } := by
  refine ⟨hOk.fresh, ?_, ?_, ?_, ?_, ?_, by simp⟩
  · intro r hR
    rcases mem_append.mp hR with hOld | hNew
    · exact hOk.noBegin r hOld
    · simp_all
  · intro u hCommit
    rcases (hasCommit_concat _ _ _).mp hCommit with
      hOld | ⟨hNew, _⟩
    · exact hOk.committed u hOld
    · cases hNew
  · intro r hR hAbort
    rcases mem_append.mp hR with hOld | hNew
    · exact hOk.aborted r hOld hAbort
    · simp_all
  · intro u n hPending
    rcases hOk.pending u n hPending with ⟨hNonneg, hCommit⟩
    exact ⟨hNonneg, hasCommit_take (Nat.le_refl _) _ hCommit⟩
  · intro u hU
    rcases hOk.returned u hU with ⟨hDone, hData⟩
    refine ⟨hDone, ?_⟩
    rintro ⟨r, hR, hSome, rfl⟩
    rcases mem_concat.mp hR with hOld | rfl
    · exact hasCommit_take (hOk.flushed.trans (Nat.le_succ _)) _ (hData ⟨r, hOld, hSome, rfl⟩)
    · simp [LogRecord.data?] at hSome

theorem runOk_step
    {a : Act}
    (hOk : RunOk c)
    (hStep : c.step a = some c') :
    RunOk c' := by
  have hKnown : ∀ u, c.life u = .growing → u < (c.nextTxnId : Int) := by
    intro u hU
    by_contra hLe
    have hFresh := hOk.fresh u (not_lt.mp hLe)
    cases hU.symm.trans hFresh
  cases a with
  | begin =>
    cases hStep
    have hNew : (c.nextTxnId : Int) < (c.nextTxnId + 1 : Nat) :=
      Int.ofNat_lt.mpr (Nat.lt_succ_self _)
    exact hOk.turn (Or.inr (hOk.fresh _ (le_refl _))) (by simp) ⟨Nat.le_succ _, hNew⟩
      (fun u hU => Or.inl hU)
  | data t d =>
    simp only [step] at hStep
    split at hStep
    · rename_i hLife
      cases hStep
      have hNext := hOk.append hLife (Or.inl ⟨d, rfl, rfl⟩)
      have hSelf : (c.addLogRecord t (.data d)).setLife t
          .growing = c.addLogRecord t (.data d) := by
        simp [setLife, addLogRecord, ← hLife]
      rwa [hSelf] at hNext
    · cases hStep
  | startCommit t =>
    simp only [step, startCommit] at hStep
    split at hStep
    · cases hStep
    · rename_i hLife
      rw [not_not] at hLife
      split at hStep
      · cases hStep
        exact hOk.append hLife (Or.inr (Or.inl ⟨rfl, rfl⟩))
      · rename_i hNone
        cases hStep
        refine hOk.turn (Or.inl hLife) (by simp) ⟨Nat.le_refl _, hKnown t hLife⟩ ?_
        intro u hU
        rcases mem_cons.mp hU with rfl | hOld
        · exact Or.inr ⟨rfl, rfl, hNone⟩
        · exact Or.inl hOld
  | finishCommit t =>
    simp only [step, finishCommit] at hStep
    split at hStep
    · rename_i lsn hLife
      cases hStep
      exact hOk.finish hLife
    · cases hStep
  | abort t hasWrites =>
    simp only [step, abort] at hStep
    split at hStep
    · cases hStep
    · rename_i hLife
      rw [not_not] at hLife
      split at hStep
      · cases hStep
        exact hOk.append hLife (Or.inr (Or.inr ⟨rfl, rfl⟩))
      · cases hStep
        exact hOk.turn (Or.inl hLife) (by simp) ⟨Nat.le_refl _, hKnown t hLife⟩
          (fun u hU => Or.inl hU)
  | checkpoint =>
    cases hStep
    exact hOk.checkpoint
  | flush =>
    cases hStep
    exact hOk.flush ⟨hOk.flushed, Nat.le_refl _⟩
  | crash kept =>
    simp only [step] at hStep
    split at hStep
    · cases hStep
      exact runOk_start _
    · cases hStep
  | close =>
    cases hStep
    exact runOk_start _

/- What a step does to the records: none is written, one is
  appended under a new LSN, or the run ends. -/
theorem log_step
    {a : Act}
    (hGuard : c.IdGuard a)
    (hStep : c.step a = some c') :
    c'.runs = c.runs ∧
        (c'.log = c.log ∨
          c.NewLsn ∧ ∃ r, c'.log = c.log ++ [r] ∧
            r.lsn = c.nextLsn ∧
            (r.body = .checkpoint ∨ c.NewIds r.tid)) ∨
      ∃ kept, (c.flushed ≤ kept ∨ kept = c.log.length) ∧
        c' = c.stop kept := by
  cases a with
  | begin | flush =>
    cases hStep
    exact Or.inl ⟨rfl, Or.inl rfl⟩
  | finishCommit t =>
    simp only [step, finishCommit, flushLogToDisk] at hStep
    split at hStep
    · cases hStep
      refine Or.inl ⟨?_, Or.inl ?_⟩ <;> split <;> rfl
    · cases hStep
  | data t d =>
    simp only [step] at hStep
    split at hStep
    · cases hStep
      exact Or.inl ⟨rfl, Or.inr
        ⟨hGuard.1, _, rfl, rfl, Or.inr hGuard⟩⟩
    · cases hStep
  | startCommit t =>
    simp only [step, startCommit] at hStep
    split at hStep
    · cases hStep
    · split at hStep
      · rename_i hData
        cases hStep
        exact Or.inl ⟨rfl, Or.inr
          ⟨(hGuard hData).1, _, rfl, rfl, Or.inr (hGuard hData)⟩⟩
      · cases hStep
        exact Or.inl ⟨rfl, Or.inl rfl⟩
  | abort t hasWrites =>
    simp only [step, abort] at hStep
    split at hStep
    · cases hStep
    · split at hStep
      · rename_i hWrites
        cases hStep
        exact Or.inl ⟨rfl, Or.inr ⟨(hGuard hWrites).1, _, rfl, rfl,
          Or.inr (hGuard hWrites)⟩⟩
      · cases hStep
        exact Or.inl ⟨rfl, Or.inl rfl⟩
  | checkpoint =>
    cases hStep
    exact Or.inl ⟨rfl, Or.inr
      ⟨hGuard, _, rfl, rfl, Or.inl rfl⟩⟩
  | crash kept =>
    simp only [step] at hStep
    split at hStep
    · rename_i hKept
      cases hStep
      exact Or.inr ⟨kept, Or.inl hKept, rfl⟩
    · cases hStep
  | close =>
    cases hStep
    exact Or.inr ⟨_, Or.inr rfl, rfl⟩

end Steps

------------
-- All Runs
------------

/- No LSN and no transaction is in both logs. -/
def Apart (logs logs' : List LogRecord) : Prop :=
  ∀ r ∈ logs, ∀ r' ∈ logs', r.lsn ≠ r'.lsn ∧
    (r.body ≠ .checkpoint → r'.body ≠ .checkpoint →
      r.tid ≠ r'.tid)

/- What the ended runs have in common. -/
structure RunsOk (runs : List Run) : Prop where
  noBegin : ∀ R ∈ runs, ∀ r ∈ R.log, r.body ≠ .begin
  clean : ∀ R ∈ runs, Clean R.log
  returned : ∀ R ∈ runs, ∀ t ∈ R.returned,
    HasData R.log t → HasCommit R.log t
  apart : runs.Pairwise (fun R R' => Apart R.log R'.log)
  lsns : ∀ R ∈ runs, (R.log.map LogRecord.lsn).Nodup

/- The records of this run are numbered from zero on, and none
  of them is like one of an earlier run. -/
structure LogOk (c : Server) : Prop where
  numbered : c.log.map LogRecord.lsn =
    (range c.log.length).map Int.ofNat
  apart : ∀ R ∈ c.runs, Apart R.log c.log

theorem logOk_start (runs : List Run) : LogOk (start runs) := by
  constructor <;> simp [start, Apart]

theorem LogOk.append
    {c c' : Server}
    {r : LogRecord}
    (hOk : LogOk c)
    (hRuns : c'.runs = c.runs)
    (hLog : c'.log = c.log ++ [r])
    (hLsn : r.lsn = c.nextLsn)
    (hNew : c.NewLsn)
    (hIds : r.body = .checkpoint ∨ c.NewIds r.tid) :
    LogOk c' := by
  constructor
  · rw [hLog]
    simp [hOk.numbered, range_succ, hLsn, nextLsn]
  · intro R hR a hA b hB
    rw [hRuns] at hR
    rw [hLog] at hB
    have hFile : a ∈ file c.runs := mem_flatMap.mpr ⟨R, hR, hA⟩
    rcases mem_concat.mp hB with hOld | rfl
    · exact hOk.apart R hR a hA b hOld
    · refine ⟨hLsn ▸ hNew a hFile, fun _ hBody => ?_⟩
      exact (hIds.resolve_left hBody).2 a hFile

theorem LogOk.nodup
    {c : Server}
    (hOk : LogOk c) :
    (c.log.map LogRecord.lsn).Nodup := by
  rw [hOk.numbered]
  exact nodup_range.map (fun _ _ h => Int.ofNat.inj h)

theorem hasCommit_file {runs : List Run}
    {t : TxnId} : HasCommit (file runs) t ↔ ∃ R ∈ runs, HasCommit R.log t := by
  simp only [HasCommit, file, mem_flatMap]
  constructor
  · rintro ⟨r, ⟨R, hR, hMem⟩, hRest⟩
    exact ⟨R, hR, r, hMem, hRest⟩
  · rintro ⟨R, hR, r, hMem, hRest⟩
    exact ⟨r, ⟨R, hR, hMem⟩, hRest⟩

section Classification

variable {runs : List Run}

instance : Std.Symm
    (fun R R' : Run => Apart R.log R'.log) where
  symm := by
    intro R R' hApart r hR r' hR'
    have h := hApart r' hR' r hR
    exact ⟨h.1.symm,
      fun hBody hBody' => (h.2 hBody' hBody).symm⟩

/- A transaction has its commit record in its own run. -/
theorem hasCommit_of_file
    {R : Run}
    {r : LogRecord}
    (hOk : RunsOk runs)
    (hRun : R ∈ runs)
    (hMem : r ∈ R.log)
    (hBody : r.body ≠ .checkpoint)
    (hCommit : HasCommit (file runs) r.tid) :
    HasCommit R.log r.tid := by
  rcases hasCommit_file.mp hCommit with
    ⟨R', hRun', e, hE, hEnd, hTid⟩
  by_cases hSame : R = R'
  · subst hSame
    exact ⟨e, hE, hEnd, hTid⟩
  · have hApart := hOk.apart.forall hRun hRun' hSame
    exact absurd hTid.symm
      ((hApart r hMem e hE).2 hBody (by simp [hEnd]))

theorem clean_file (hOk : RunsOk runs) : Clean (file runs) := by
  intro r hMem hBody hCommit
  rcases mem_flatMap.mp hMem with ⟨R, hRun, hR⟩
  refine hOk.clean R hRun r hR hBody
    (hasCommit_of_file hOk hRun hR ?_ hCommit)
  rcases hBody with h | h <;> simp [h]

/- Runs that are apart are told apart by the analysis. -/
theorem classified_of_apart (hOk : RunsOk runs) :
    Classified runs := by
  intro R hRun r hMem d hBody
  have hSome : r.data?.isSome := by
    simp [LogRecord.data?_eq_some.mpr hBody]
  have hFile : r ∈ file runs := mem_flatMap.mpr ⟨R, hRun, hMem⟩
  have hOutcome :
      HasCommit (file runs) r.tid ↔ HasCommit R.log r.tid := by
    constructor
    · exact hasCommit_of_file hOk hRun hMem (by simp [hBody])
    · exact fun h => hasCommit_file.mpr ⟨R, hRun, h⟩
  refine ⟨mem_committedTxns.trans hOutcome, ?_, ?_⟩
  · rw [undoLogs_of_clean (clean_file hOk), ← hOutcome]
    simp [hFile, hSome]
  · intro hReturned
    exact hOk.returned R hRun r.tid hReturned
      ⟨r, hMem, hSome, rfl⟩

/- No LSN is in the file twice. -/
theorem nodup_of_apart (hOk : RunsOk runs) :
    ((file runs).map LogRecord.lsn).Nodup := by
  rw [file, map_flatMap, nodup_flatMap]
  refine ⟨hOk.lsns, hOk.apart.imp ?_⟩
  intro R R' hApart lsn hLsn hLsn'
  rcases mem_map.mp hLsn with ⟨r, hR, rfl⟩
  rcases mem_map.mp hLsn' with ⟨r', hR', hSame⟩
  exact (hApart r hR r' hR').1 hSame.symm

/- The run that ends joins the others. -/
theorem RunsOk.stop
    {c : Server}
    {kept : Nat}
    (hRuns : RunsOk c.runs)
    (hOk : RunOk c)
    (hLog : LogOk c)
    (hKept : c.flushed ≤ kept) :
    RunsOk (c.stop kept).runs := by
  have hMem : ∀ R, R ∈ (c.stop kept).runs ↔
      R ∈ c.runs ∨ R = ⟨c.log.take kept, c.returned⟩ := by
    intro R
    simp [Server.stop, start]
  constructor
  · intro R hR
    rcases (hMem R).mp hR with hOld | rfl
    · exact hRuns.noBegin R hOld
    · intro r hIn
      exact hOk.noBegin r (mem_of_mem_take hIn)
  · intro R hR
    rcases (hMem R).mp hR with hOld | rfl
    · exact hRuns.clean R hOld
    · rintro r hIn hBody ⟨q, hQ, hCommit, hTid⟩
      have hHere := mem_of_mem_take hIn
      have hAborted := hOk.aborted r hHere
        (hBody.resolve_left (hOk.noBegin r hHere))
      have hDone := hOk.committed r.tid
        ⟨q, mem_of_mem_take hQ, hCommit, hTid⟩
      rw [hAborted] at hDone
      simp at hDone
  · intro R hR t hT
    rcases (hMem R).mp hR with hOld | rfl
    · exact hRuns.returned R hOld t hT
    · rintro ⟨r, hIn, hSome, hTid⟩
      have hCommit := (hOk.returned t hT).2
        ⟨r, mem_of_mem_take hIn, hSome, hTid⟩
      have hLong := hasCommit_take hKept [] hCommit
      simpa using hLong
  · refine pairwise_append.mpr
      ⟨hRuns.apart, pairwise_singleton _ _, ?_⟩
    intro R hR R' hR' r hA r' hB
    rw [mem_singleton.mp hR'] at hB
    exact hLog.apart R hR r hA r' (mem_of_mem_take hB)
  · intro R hR
    rcases (hMem R).mp hR with hOld | rfl
    · exact hRuns.lsns R hOld
    · exact hLog.nodup.sublist ((take_sublist _ _).map _)

end Classification

/- What holds in every run of runs. -/
structure Inv (c : Server) : Prop where
  run : RunOk c
  log : LogOk c
  runs : RunsOk c.runs

theorem inv_step
    {c c' : Server}
    {a : Act}
    (hInv : Inv c)
    (hIds : c.IdGuard a)
    (hStep : c.step a = some c') :
    Inv c' := by
  have hRun := runOk_step hInv.run hStep
  rcases log_step hIds hStep with
    ⟨hRuns, hLog | ⟨hNew, r, hLog, hLsn, hKind⟩⟩ |
    ⟨kept, hKept, rfl⟩
  · refine ⟨hRun, ⟨?_, ?_⟩, hRuns ▸ hInv.runs⟩
    · rw [hLog]
      exact hInv.log.numbered
    · rw [hRuns, hLog]
      exact hInv.log.apart
  · exact ⟨hRun, hInv.log.append hRuns hLog hLsn hNew hKind,
      hRuns ▸ hInv.runs⟩
  · have hAll : c.flushed ≤ kept := by
      rcases hKept with h | rfl
      · exact h
      · exact hInv.run.flushed
    exact ⟨hRun, logOk_start _,
      hInv.runs.stop hInv.run hInv.log hAll⟩

/- A row of a small table. -/
def someRow : Loc :=
  ⟨[116], ⟨1, 0⟩⟩

/- A transaction of a run inserts a row and commits. -/
def commitInsert (t : TxnId) (rec : RmRecord) : List Act :=
  [.begin, .data t (.insert someRow rec), .startCommit t,
    .finishCommit t]

/- One run logs a commit and an unfinished change; the two that
  follow only read, under the same identifiers. -/
def oneWritingRun : List Act :=
  commitInsert 0 [1] ++
  [.begin, .data 1 (.delete someRow [1]), .flush, .crash 3,
    .begin, .begin, .startCommit 0, .close,
    .begin, .abort 0 false, .crash 0]

end Server

end Rmdb
