import Rmdb.Transaction.Sys

/-
  This file says once what a step of the server does.  The
  cases of the step functions are the constructors of
  relations, with the tests that lead to each case and the
  state after it.  From them follows what a step does to the
  log: at most one record is appended.

  Key definitions include:
    * `Sys.OpStep`, `Sys.Rollback`
    * `Sys.Stepped`
    * `Sys.Appends`

  Key theorems include:
    * `Sys.step_cases`
    * `Sys.Stepped.appends`
-/

namespace Rmdb

open Function

namespace Sys

------------
-- Parts Of A Step That Change One Field
------------

section Parts

variable (s : Sys) (t : TxnId)

theorem flushLogToDisk_eq (lsn : Int) : s.flushLogToDisk lsn =
    { s with flushed := if s.flushed ≤
      lsn then s.log.length else s.flushed } := by
  unfold flushLogToDisk
  split <;> rfl

theorem unregister_eq (x : Loc) : s.unregisterPhysicalInsert t x =
    { s with
      physicalInsertOwners :=
        if s.physicalInsertOwners x =
          some t then update s.physicalInsertOwners x none
        else s.physicalInsertOwners } := by
  unfold unregisterPhysicalInsert
  split <;> rfl

/- Only entries of the transaction itself go away. -/
theorem unregister_owners (x y : Loc) :
    (s.unregisterPhysicalInsert t x).physicalInsertOwners y =
      s.physicalInsertOwners y ∨
      (s.unregisterPhysicalInsert t x).physicalInsertOwners y = none ∧
        s.physicalInsertOwners y = some t := by
  unfold unregisterPhysicalInsert
  split
  · rename_i hMine
    by_cases hY : y = x
    · subst hY
      exact Or.inr ⟨by simp, hMine⟩
    · exact Or.inl (by simp [hY])
  · exact Or.inl rfl

theorem unregisterAll_eq (ws : List WriteRecord) :
    ∃ owners, s.unregisterAll t ws = { s with physicalInsertOwners := owners } ∧
      ∀ y, owners y = s.physicalInsertOwners y ∨ owners y = none ∧
        s.physicalInsertOwners y = some t := by
  induction ws generalizing s with
  | nil => exact ⟨_, rfl, fun _ => Or.inl rfl⟩
  | cons w ws ih =>
    cases w with
    | insertTuple x =>
      rcases ih (s.unregisterPhysicalInsert t x) with ⟨owners, hEq, hOwners⟩
      refine ⟨owners, by rw [unregisterAll, hEq, unregister_eq], ?_⟩
      intro y
      rcases hOwners y with hSame | ⟨hNone, hMine⟩
      · rw [hSame]
        exact unregister_owners s t x y
      · rcases unregister_owners s t x y with h | ⟨h, _⟩
        · exact Or.inr ⟨hNone, h.symm.trans hMine⟩
        · cases h.symm.trans hMine
    | deleteTuple x rec => exact ih s
    | updateTuple x rec => exact ih s

theorem takeOut_eq (x : Loc) :
    s.takeOut t x = { s with db := (s.takeOut t x).db } := by
  unfold takeOut
  split
  · split <;> rfl
  · rfl

end Parts

------------
-- The Cases Of A Step
------------

/- The next step of the row a transaction works on. -/
inductive OpStep
    (s : Sys)
    (t : TxnId) :
    DataRecord → Stage → Sys → Prop where
  | lock (x rec) (hFree : s.lockFree t x) :
      OpStep s t (.insert x rec) .placed
        ((s.setLock x (some t)).setPhase t (.op (.insert x rec) .locked))
  | conflict (x rec) (hHeld : ¬ s.lockFree t x) :
      OpStep s t (.insert x rec) .placed (s.removePlaced t x)
  | index (x rec tab) (hRun : (s.db x.tab).insertKeys rec x.rid = some tab) :
      OpStep s t (.insert x rec) .locked
        ((s.setTable x.tab tab).setPhase t (.op (.insert x rec) .indexed))
  | duplicate (x rec) (hRun : (s.db x.tab).insertKeys rec x.rid = none) :
      OpStep s t (.insert x rec) .locked (s.removePlaced t x)
  | logInsert (x rec) : OpStep s t (.insert x rec) .indexed (s.logOp t (.insert x rec))
  | logChange (d) (hBefore : d.before.isSome) : OpStep s t d .read (s.logOp t d)
  | stampInsert (x rec lsn tab) (hRun : (s.db x.tab).setPageLsn x.rid lsn = .ok tab) :
      OpStep s t (.insert x rec) (.logged lsn) ((s.setTable x.tab tab).setPhase t .idle)
  | stampChange (d lsn tab) (hBefore : d.before.isSome)
      (hRun : (s.db d.tab).setPageLsn d.rid lsn = .ok tab) :
      OpStep s t d (.logged lsn) ((s.setTable d.tab tab).setPhase t (.op d (.stamped lsn)))
  | unindexUpdate (x old new lsn) :
      OpStep s t (.update x old new) (.stamped lsn)
        ((s.setTable x.tab ((s.db x.tab).deleteChangedKeys old new)).setPhase t
          (.op (.update x old new) (.unindexed lsn)))
  | unindexDelete (x rec lsn) :
      OpStep s t (.delete x rec) (.stamped lsn)
        ((s.setTable x.tab ((s.db x.tab).deleteIndexes rec)).setPhase t
          (.op (.delete x rec) (.unindexed lsn)))
  | applyUpdate (x old new lsn tab) (hRun : (s.db x.tab).updateRecord x.rid new = .ok tab) :
      OpStep s t (.update x old new) (.unindexed lsn)
        ((s.setTable x.tab tab).setPhase t (.op (.update x old new) (.applied lsn)))
  | applyDelete (x rec lsn tab) (hRun : (s.db x.tab).deleteRecord x.rid = .ok tab) :
      OpStep s t (.delete x rec) (.unindexed lsn)
        (((s.setTable x.tab tab).appendWriteRecord t (.deleteTuple x rec)).setPhase t .idle)
  | finish (x old new lsn tab) (hRun : (s.db x.tab).insertChangedKeys old new x.rid = some tab) :
      OpStep s t (.update x old new) (.applied lsn)
        (((s.setTable x.tab tab).appendWriteRecord t (.updateTuple x old)).setPhase t .idle)
  | loseUpdate (x old new lsn e) (hRun : (s.db x.tab).updateRecord x.rid new = .error e) :
      OpStep s t (.update x old new) (.unindexed lsn) (s.setPhase t .failed)
  | loseDelete (x rec lsn e) (hRun : (s.db x.tab).deleteRecord x.rid = .error e) :
      OpStep s t (.delete x rec) (.unindexed lsn)
        ((s.setTable x.tab ((s.db x.tab).insertIndexes rec x.rid)).setPhase t .failed)
  | restore (x old new lsn tab) (hKeys : (s.db x.tab).insertChangedKeys old new x.rid = none)
      (hRun : (s.db x.tab).updateRecord x.rid old = .ok tab) :
      OpStep s t (.update x old new) (.applied lsn)
        ((s.setTable x.tab (tab.restoreChangedKeys old new x.rid)).setPhase t .failed)
  | loseRestore (x old new lsn e) (hKeys : (s.db x.tab).insertChangedKeys old new x.rid = none)
      (hRun : (s.db x.tab).updateRecord x.rid old = .error e) :
      OpStep s t (.update x old new) (.applied lsn) (s.setPhase t .failed)

/- A lock is granted, or the statement throws. -/
inductive LockStep (s : Sys) (t : TxnId) (x : Loc) : Sys → Prop where
  | lock (hIdle : s.phase t = .idle) (hFree : s.lockFree t x) :
      LockStep s t x (s.setLock x (some t))
  | conflict (hIdle : s.phase t = .idle) (hHeld : ¬ s.lockFree t x) :
      LockStep s t x (s.setPhase t .failed)

/- The row of an update or a delete is locked, and read if it
  is there. -/
inductive ChangeStep
    (s : Sys)
    (t : TxnId)
    (x : Loc)
    (change : RmRecord → DataRecord) :
    Sys → Prop where
  | stop (s') (hLock : LockStep s t x s') : ChangeStep s t x change s'
  | read (rec) (hIdle : s.phase t = .idle) (hFree : s.lockFree t x)
      (hRecord : s.db.record x = some rec) :
      ChangeStep s t x change ((s.setLock x (some t)).setPhase t (.op (change rec) .read))

/- A write is taken back. -/
inductive Rollback (s : Sys) (t : TxnId) : WriteRecord → Sys → Prop where
  | other (x) (hOther : ¬ s.ownsPhysicalInsert t x) : Rollback s t (.insertTuple x) s
  | insert (x rec) (hMine : s.ownsPhysicalInsert t x) (hPage : (s.db x.tab).HasPage x.rid.pageNo) :
      Rollback s t (.insertTuple x)
        { s with
          db := update s.db x.tab (((s.db x.tab).deleteIndexes rec).setSlot x.rid none),
          locks := if s.locks x = some t then update s.locks x none else s.locks,
          physicalInsertOwners := update s.physicalInsertOwners x none }
  | delete (x old) (hPage : (s.db x.tab).HasPage x.rid.pageNo) :
      Rollback s t (.deleteTuple x old)
        (s.setTable x.tab (((s.db x.tab).setSlot x.rid (some old)).insertIndexes old x.rid))
  | update (x old rec) (hPage : (s.db x.tab).HasPage x.rid.pageNo) :
      Rollback s t (.updateTuple x old)
        (s.setTable x.tab
          ((((s.db x.tab).deleteIndexes rec).setSlot x.rid (some old)).insertIndexes old x.rid))

inductive Stepped (s : Sys) : Act → Sys → Prop where
  | begin : Stepped s .begin s.begin
  | place (t x rec tab) (hIdle : s.phase t = .idle)
      (hRun : (s.db x.tab).allocate x.rid = some tab) :
      Stepped s (.startInsert t x rec)
        ((((s.setTable x.tab (tab.setSlot x.rid (some rec))).registerPhysicalInsert t
          x).appendWriteRecord t (.insertTuple x)).setPhase t (.op (.insert x rec) .placed))
  | update (t x newRec s')
      (hChange : ChangeStep s t x (fun oldRec => .update x oldRec newRec) s') :
      Stepped s (.startUpdate t x newRec) s'
  | delete (t x s') (hChange : ChangeStep s t x (.delete x) s') : Stepped s (.startDelete t x) s'
  | lockRow (t x s') (hLock : LockStep s t x s') : Stepped s (.lockRow t x) s'
  | throw (t) (hIdle : s.phase t = .idle) : Stepped s (.throwStatement t) (s.setPhase t .failed)
  | conflict (t x rec) (hPhase : s.phase t = .op (.insert x rec) .placed) :
      Stepped s (.lockConflict t) (s.removePlaced t x)
  | quietCommit (t) (hIdle : s.phase t = .idle) (hEmpty : (s.txn t).writeSet = []) :
      Stepped s (.startCommit t) (s.setPhase t .commitFlushed)
  | logCommit (t) (hIdle : s.phase t = .idle) :
      Stepped s (.startCommit t) ((s.addLogRecord t .commit).setPhase t (.committing s.nextLsn))
  | startAbort (t) (hPhase : s.phase t = .idle ∨ s.phase t = .failed) :
      Stepped s (.startAbort t)
        (s.setPhase t (.aborting (decide ((s.txn t).writeSet ≠ []))))
  | op (t d st s') (hPhase : s.phase t = .op d st) (hOp : OpStep s t d st s') :
      Stepped s (.next t) s'
  | flushCommit (t lsn) (hPhase : s.phase t = .committing lsn) :
      Stepped s (.next t) ((s.flushLogToDisk lsn).setPhase t .commitFlushed)
  | finishCommit (t) (hPhase : s.phase t = .commitFlushed) : Stepped s (.next t) (s.finishCommit t)
  | unlock (t hasWrites) (hPhase : s.phase t = .aborting hasWrites) :
      Stepped s (.next t) ((s.unlockAll t).setPhase t (.unlocked hasWrites))
  | rollback (t hasWrites w rest s') (hPhase : s.phase t = .aborting hasWrites)
      (hSet : (s.txn t).writeSet = w :: rest) (hBack : Rollback (s.setWriteSet t rest) t w s') :
      Stepped s (.next t) s'
  | logAbort (t) (hPhase : s.phase t = .unlocked true) :
      Stepped s (.next t) ((s.addLogRecord t .abort).setPhase t (.abortLogged s.nextLsn))
  | quietAbort (t) (hPhase : s.phase t = .unlocked false) :
      Stepped s (.next t) (s.setPhase t .aborted)
  | flushAbort (t lsn) (hPhase : s.phase t = .abortLogged lsn) :
      Stepped s (.next t) ((s.flushLogToDisk lsn).setPhase t .aborted)
  | flushLog : Stepped s .flushLog { s with flushed := s.log.length }
  | flushPage (P) (hPage : (s.db P.tab).HasPage P.pageNo) :
      Stepped s (.flushPage P)
        { s.flushLogToDisk (s.db.image P).lsn with
          disk := Function.update s.disk P.tab ((s.disk P.tab).setPage P.pageNo (s.db.image P)) }
  | flushIndex (tab i entries old) (hOld : (s.disk tab).indexes[i]? = some old) :
      Stepped s (.flushIndex tab i entries)
        { s with
          disk := Function.update s.disk tab
            { s.disk tab with
              indexes := (s.disk tab).indexes.set i
                { old with entries := fun key => entries.lookup key } } }
  | checkpoint : Stepped s .checkpoint s.checkpoint

section Cases

variable {s s' : Sys} {t : TxnId} {x : Loc} {d : DataRecord} {st : Stage}

theorem nextOp_cases (hStep : s.nextOp t st d = some s') :
    OpStep s t d st s' := by
  cases d with
  | insert x rec =>
    cases st with
    | placed =>
      simp only [nextOp, nextInsert] at hStep
      split at hStep <;> cases hStep
      · exact .lock x rec ‹_›
      · exact .conflict x rec ‹_›
    | locked =>
      simp only [nextOp, nextInsert] at hStep
      split at hStep <;> cases hStep
      · exact .index x rec _ ‹_›
      · exact .duplicate x rec ‹_›
    | indexed =>
      cases hStep
      exact .logInsert x rec
    | logged lsn =>
      simp only [nextOp, nextInsert, stampOp] at hStep
      split at hStep <;> cases hStep
      exact .stampInsert x rec lsn _ ‹_›
    | _ => simp [nextOp, nextInsert] at hStep
  | update x old new =>
    cases st with
    | read =>
      cases hStep
      exact .logChange _ rfl
    | logged lsn =>
      simp only [nextOp, nextUpdate, stampOp] at hStep
      split at hStep <;> cases hStep
      exact .stampChange _ lsn _ rfl ‹_›
    | stamped lsn =>
      cases hStep
      exact .unindexUpdate x old new lsn
    | unindexed lsn =>
      simp only [nextOp, nextUpdate] at hStep
      split at hStep <;> cases hStep
      · exact .applyUpdate x old new lsn _ ‹_›
      · exact .loseUpdate x old new lsn _ ‹_›
    | applied lsn =>
      simp only [nextOp, nextUpdate] at hStep
      split at hStep
      · cases hStep
        exact .finish x old new lsn _ ‹_›
      · split at hStep <;> cases hStep
        · exact .restore x old new lsn _ ‹_› ‹_›
        · exact .loseRestore x old new lsn _ ‹_› ‹_›
    | _ => simp [nextOp, nextUpdate] at hStep
  | delete x rec =>
    cases st with
    | read =>
      cases hStep
      exact .logChange _ rfl
    | logged lsn =>
      simp only [nextOp, nextDelete, stampOp] at hStep
      split at hStep <;> cases hStep
      exact .stampChange _ lsn _ rfl ‹_›
    | stamped lsn =>
      cases hStep
      exact .unindexDelete x rec lsn
    | unindexed lsn =>
      simp only [nextOp, nextDelete] at hStep
      split at hStep <;> cases hStep
      · exact .applyDelete x rec lsn _ ‹_›
      · exact .loseDelete x rec lsn _ ‹_›
    | _ => simp [nextOp, nextDelete] at hStep

theorem lockRow_cases (hStep : s.lockRow t x = some s') :
    LockStep s t x s' := by
  unfold lockRow at hStep
  split_ifs at hStep with hIdle hFree <;> cases hStep
  · exact .lock (not_not.mp hIdle) hFree
  · exact .conflict (not_not.mp hIdle) hFree

theorem startChange_cases {change : RmRecord → DataRecord}
    (hStep : s.startChange t x change = some s') :
    ChangeStep s t x change s' := by
  unfold startChange at hStep
  rw [Option.bind_eq_bind, Option.bind_eq_some_iff] at hStep
  rcases hStep with ⟨s₁, hLock, hStep⟩
  have hCases := lockRow_cases hLock
  split at hStep
  · cases hStep
    exact .stop _ hCases
  · rename_i hIdle
    split at hStep <;> cases hStep
    · rename_i rec hRecord
      cases hCases with
      | lock hOld hFree => exact .read rec hOld hFree hRecord
      | conflict hOld hHeld => simp [phase, setPhase, setTxn] at hIdle
    · exact .stop _ hCases

theorem rollbackWrite_cases
    {w : WriteRecord}
    (hStep : s.rollbackWrite t w = some s') :
    Rollback s t w s' := by
  cases w with
  | insertTuple x =>
    simp only [rollbackWrite] at hStep
    split at hStep
    · rename_i hMine
      split at hStep
      · rename_i rec _
        split at hStep <;> cases hStep
        rename_i tab hRun
        rcases Table.deleteRecord_eq_ok hRun with ⟨hPage, rfl⟩
        have hBack := Rollback.insert x rec hMine hPage
        have hOwner : s.physicalInsertOwners x = some t := hMine
        by_cases hLock : s.locks x = some t
        · simpa [hLock, unregister_eq, setLock, setTable, hOwner] using hBack
        · simpa [hLock, unregister_eq, setTable, hOwner] using hBack
      · cases hStep
    · rename_i hOther
      cases hStep
      have hSame : s.unregisterPhysicalInsert t x = s := if_neg hOther
      rw [hSame]
      exact .other x hOther
  | deleteTuple x old =>
    simp only [rollbackWrite] at hStep
    split at hStep <;> cases hStep
    rename_i tab hRun
    rcases Table.insertRecordAt_eq_ok hRun with ⟨hPage, rfl⟩
    exact .delete x old hPage
  | updateTuple x old =>
    simp only [rollbackWrite] at hStep
    split at hStep
    · rename_i rec _
      split at hStep <;> cases hStep
      rename_i tab hRun
      rcases Table.updateRecord_eq_ok hRun with ⟨hPage, rfl⟩
      exact .update x old rec hPage
    · cases hStep

variable {a : Act}

theorem next_cases (hStep : s.next t = some s') : Stepped s (.next t) s' := by
  unfold next at hStep
  split at hStep
  · exact .op t _ _ s' ‹_› (nextOp_cases hStep)
  · cases hStep
    exact .flushCommit t _ ‹_›
  · cases hStep
    exact .finishCommit t ‹_›
  · unfold nextAbort at hStep
    split at hStep
    · cases hStep
      exact .unlock t _ ‹_›
    · exact .rollback t _ _ _ s' ‹_› ‹_› (rollbackWrite_cases hStep)
  · cases hStep
    exact .logAbort t ‹_›
  · cases hStep
    exact .quietAbort t ‹_›
  · cases hStep
    exact .flushAbort t _ ‹_›
  · cases hStep

theorem step_cases (hStep : s.step a = some s') : Stepped s a s' := by
  cases a with
  | begin =>
    cases hStep
    exact .begin
  | startInsert t x rec =>
    simp only [step, startInsert] at hStep
    split at hStep
    · cases hStep
    · rename_i hIdle
      rw [Option.bind_eq_bind, Option.bind_eq_some_iff] at hStep
      rcases hStep with ⟨tab, hRun, ⟨⟩⟩
      exact .place t x rec tab (not_not.mp hIdle) hRun
  | startUpdate t x newRec => exact .update t x newRec s' (startChange_cases hStep)
  | startDelete t x => exact .delete t x s' (startChange_cases hStep)
  | lockRow t x => exact .lockRow t x s' (lockRow_cases hStep)
  | throwStatement t =>
    simp only [step] at hStep
    split at hStep <;> cases hStep
    exact .throw t ‹_›
  | lockConflict t =>
    simp only [step, lockConflict] at hStep
    split at hStep <;> cases hStep
    exact .conflict t _ _ ‹_›
  | startCommit t =>
    simp only [step, startCommit] at hStep
    split_ifs at hStep with hIdle hEmpty <;> cases hStep
    · exact .quietCommit t (not_not.mp hIdle) hEmpty
    · exact .logCommit t (not_not.mp hIdle)
  | startAbort t =>
    simp only [step, startAbort] at hStep
    split at hStep <;> cases hStep
    exact .startAbort t ‹_›
  | next t => exact next_cases hStep
  | flushLog =>
    cases hStep
    exact .flushLog
  | flushPage P =>
    simp only [step, flushPage] at hStep
    split at hStep <;> cases hStep
    rename_i hPage
    have hImage : s.db.image P = (s.db P.tab).page P.pageNo := Table.image_of_hasPage hPage
    have hFlush := Stepped.flushPage P hPage
    rw [hImage, flushLogToDisk_eq] at hFlush
    rw [flushLogToDisk_eq]
    exact hFlush
  | flushIndex tab i entries =>
    simp only [step, flushIndex, Option.bind_eq_bind, Option.bind_eq_some_iff] at hStep
    rcases hStep with ⟨old, hOld, ⟨⟩⟩
    exact .flushIndex tab i entries old hOld
  | checkpoint =>
    cases hStep
    exact .checkpoint

end Cases

------------
-- The Log
------------

/- What may be appended to the log by an action. -/
inductive Appends (s s' : Sys) (a : Act) : Prop where
  | nothing (hLog : s'.log = s.log)
  | data (t : TxnId) (d : DataRecord) (st : Stage) (hPhase : s.phase t = .op d st)
      (hLog : s'.log = s.log ++ [⟨s.nextLsn, t, (s.txn t).prevLsn, .data d⟩]) (hAct : a = .next t)
      (hStage : st = .indexed ∨ st = .read)
  | commit (t : TxnId) (hAct : a = .startCommit t) (hPhase : s.phase t = .idle)
      (hLog : s'.log = s.log ++ [⟨s.nextLsn, t, (s.txn t).prevLsn, .commit⟩])
  | abort (t : TxnId) (hPhase : s.phase t = .unlocked true) (hLog : s'.log = s.log ++
        [⟨s.nextLsn, t, (s.txn t).prevLsn, .abort⟩])
  | checkpoint (hLog : s'.log = s.log ++ [⟨s.nextLsn, invalidTxnId, invalidLsn, .checkpoint⟩])

section Acting

variable {s s' : Sys} {t u : TxnId} {x : Loc} {d : DataRecord} {st : Stage} {a : Act}

@[simp] theorem phase_setPhase
    (s : Sys)
    (t : TxnId)
    (ph : Phase) :
    (s.setPhase t ph).phase t = ph := by
  simp [phase, setPhase, setTxn]

theorem removePlaced_eq
    (s : Sys)
    (t : TxnId)
    (x : Loc) :
    s.removePlaced t x =
    { s with
      db := (s.takeOut t x).db,
      physicalInsertOwners :=
        ((s.takeOut t x).unregisterPhysicalInsert t x).physicalInsertOwners,
      txn := update s.txn t { s.txn t with phase := .failed } } := by
  rw [removePlaced, unregister_eq, takeOut_eq]
  rfl

theorem finishCommit_eq
    (s : Sys)
    (t : TxnId) :
    ∃ owners, s.finishCommit t =
    { s with
      physicalInsertOwners := owners,
      locks := (s.unlockAll t).locks,
      txn := update s.txn t
        { s.txn t with phase := .committed, writeSet := [] } } ∧
      ∀ y, owners y = s.physicalInsertOwners y ∨ owners y = none ∧
        s.physicalInsertOwners y = some t := by
  rcases unregisterAll_eq s t (s.txn t).writeSet with ⟨owners, hEq, hOwners⟩
  refine ⟨owners, ?_, hOwners⟩
  rw [finishCommit, hEq]
  rfl

/- At most one record is appended. -/
theorem Stepped.appends (hStep : Stepped s a s') : Appends s s' a := by
  cases hStep with
  | op t d st _ hPhase hOp =>
    cases hOp with
    | logInsert x rec => exact .data t _ _ hPhase rfl rfl (Or.inl rfl)
    | logChange d hBefore => exact .data t _ _ hPhase rfl rfl (Or.inr rfl)
    | conflict x rec hHeld | duplicate x rec hRun => exact .nothing (by rw [removePlaced_eq])
    | _ => exact .nothing rfl
  | logCommit t hIdle => exact .commit t rfl hIdle rfl
  | logAbort t hPhase => exact .abort t hPhase rfl
  | checkpoint => exact .checkpoint rfl
  | conflict t x rec hPhase => exact .nothing (by rw [removePlaced_eq])
  | finishCommit t hPhase =>
    rcases finishCommit_eq s t with ⟨owners, hEq, -⟩
    exact .nothing (by rw [hEq])
  | rollback t hasWrites w rest _ hPhase hSet hBack =>
    cases hBack <;> exact .nothing rfl
  | update t x newRec _ hChange | delete t x _ hChange =>
    cases hChange with
    | stop _ hLock => cases hLock <;> exact .nothing rfl
    | read => exact .nothing rfl
  | lockRow t x _ hLock => cases hLock <;> exact .nothing rfl
  | flushCommit | flushAbort | flushPage =>
    exact .nothing (by simp [flushLogToDisk_eq, setPhase, setTxn])
  | _ => exact .nothing rfl

end Acting

end Sys

end Rmdb
