import Rmdb.Mvcc.Engine
import Rmdb.Mvcc.HeapEffects

/-
  This file says what the parts of a row operation do, and
  how a row operation can end: what it leaves alone, and what
  it does to the heap, the keys, the version entry and the
  transaction.

  A row operation passes its row over or throws before it
  changes anything, or it makes a change.  A change is done,
  or a lock or a key rejects it; a rejected change of a
  transaction with versions ends in an abort.

  Key definitions include:
    * `Engine.Keeps`
    * `Engine.Quiet`
    * `Engine.CanChange`
    * `Engine.Done`
    * `Engine.Rejected`
    * `Engine.Outcome`

  Key theorems include:
    * `Engine.mvccWrite_ok`
    * `Engine.mvccWrite_error`
    * `Engine.logChange_spec`
-/

namespace Rmdb

open Function

------------
-- Changes
------------

namespace DataRecord

/- Does the change make a new row? -/
def inserted : DataRecord → Bool
| .insert _ _ => true
| _ => false

def deleted : DataRecord → Bool
| .delete _ _ => true
| _ => false

/- The record that the version entry has as its newest. -/
def headRecord : DataRecord → RmRecord
| .insert _ insertValue => insertValue
| .delete _ deleteValue => deleteValue
| .update _ _ newValue => newValue

/- The record that the manager takes for the old one. -/
def oldRecord : DataRecord → RmRecord
| .insert _ insertValue => insertValue
| .delete _ deleteValue => deleteValue
| .update _ oldValue _ => oldValue

/- What the transaction remembers of the change. -/
def writeRecord : DataRecord → WriteRecord
| .insert x _ => .insertTuple x
| .delete x deleteValue => .deleteTuple x deleteValue
| .update x oldValue _ => .updateTuple x oldValue

@[simp] theorem loc_writeRecord (d : DataRecord) :
    d.writeRecord.loc = d.loc := by
  cases d <;> rfl

variable {d : DataRecord}

theorem before_of_inserted (hInserted : d.inserted = true) :
    d.before = none := by
  cases d with
  | insert x rec => rfl
  | delete x rec | update x old new => cases hInserted

theorem before_of_not_inserted (hInserted : d.inserted = false) :
    d.before = some d.oldRecord := by
  cases d with
  | insert x rec => cases hInserted
  | delete x rec => rfl
  | update x old new => rfl

theorem after_of_not_deleted (hDeleted : d.deleted = false) :
    d.after = some d.headRecord := by
  cases d with
  | insert x rec => rfl
  | delete x rec => cases hDeleted
  | update x old new => rfl

theorem after_of_deleted (hDeleted : d.deleted = true) : d.after = none := by
  cases d with
  | insert x rec | update x old new => cases hDeleted
  | delete x rec => rfl

theorem not_inserted_of_deleted (hDeleted : d.deleted = true) :
    d.inserted = false := by
  cases d with
  | insert x rec => cases hDeleted
  | delete x rec => rfl
  | update x old new => rfl

end DataRecord

namespace Engine

/- What the row operations of a transaction leave alone: the
  counters, the timestamps, the other transactions and the
  fixed data of the transaction itself. -/
structure Keeps (t : TxnId) (e e' : Engine) : Prop where
  tabCols : e'.tabCols = e.tabCols
  nextTxnId : e'.nextTxnId = e.nextTxnId
  lastCommitTs : e'.lastCommitTs = e.lastCommitTs
  runningTxns : e'.runningTxns = e.runningTxns
  active : e'.activeMvccTxnCount = e.activeMvccTxnCount
  counter : e'.gcCommitCounter = e.gcCommitCounter
  others : ∀ u, u ≠ t → e'.txn u = e.txn u
  level : (e'.txn t).isolationLevel = (e.txn t).isolationLevel
  startTs : (e'.txn t).startTs = (e.txn t).startTs
  commitTs : (e'.txn t).commitTs = (e.txn t).commitTs
  shared : ∀ x u, u ≠ t → u ∈ e'.sharedLocks x → u ∈ e.sharedLocks x

/- The part of the state that `Keeps` speaks of. -/
def frame (e : Engine) :=
  (e.tabCols, e.nextTxnId, e.lastCommitTs, e.runningTxns, e.activeMvccTxnCount, e.gcCommitCounter,
    e.txn, e.sharedLocks)

variable {t : TxnId} {e : Engine}

/- A change of the rest. -/
theorem Keeps.congr
    {e₁ e₂ : Engine}
    (hKeeps : Keeps t e e₁)
    (hFrame : e₂.frame = e₁.frame) :
    Keeps t e e₂ := by
  simp only [frame, Prod.mk.injEq] at hFrame
  rcases hKeeps with ⟨g₁, g₂, g₃, g₄, g₅, g₆, gTxn, gLevel, gStart, gCommit, gShared⟩
  constructor <;> simp_all

theorem Keeps.refl (t : TxnId) (e : Engine) : Keeps t e e :=
  ⟨rfl, rfl, rfl, rfl, rfl, rfl, fun _ _ => rfl, rfl, rfl, rfl, fun _ _ _ hMem => hMem⟩

theorem Keeps.same
    {e₁ : Engine}
    (hFrame : e₁.frame = e.frame) :
    Keeps t e e₁ :=
  (Keeps.refl t e).congr hFrame

variable {e' : Engine}

theorem Keeps.trans
    {e'' : Engine}
    (hFirst : Keeps t e e')
    (hSecond : Keeps t e' e'') :
    Keeps t e e'' where
  tabCols := hSecond.tabCols.trans hFirst.tabCols
  nextTxnId := hSecond.nextTxnId.trans hFirst.nextTxnId
  lastCommitTs := hSecond.lastCommitTs.trans hFirst.lastCommitTs
  runningTxns := hSecond.runningTxns.trans hFirst.runningTxns
  active := hSecond.active.trans hFirst.active
  counter := hSecond.counter.trans hFirst.counter
  others := fun u hU => (hSecond.others u hU).trans (hFirst.others u hU)
  level := hSecond.level.trans hFirst.level
  startTs := hSecond.startTs.trans hFirst.startTs
  commitTs := hSecond.commitTs.trans hFirst.commitTs
  shared := fun x u hU hMem => hFirst.shared x u hU (hSecond.shared x u hU hMem)

/- A change of the transaction's own record. -/
theorem Keeps.setTxn
    {txn : MvccTxn}
    (hLevel : txn.isolationLevel = (e.txn t).isolationLevel)
    (hStart : txn.startTs = (e.txn t).startTs)
    (hCommit : txn.commitTs = (e.txn t).commitTs) :
    Keeps t e (e.setTxn t txn) := by
  refine ⟨rfl, rfl, rfl, rfl, rfl, rfl, ?_, ?_, ?_, ?_, fun _ _ _ hMem => hMem⟩
  · intro u hU
    exact update_of_ne hU _ _
  · simp [Engine.setTxn, hLevel]
  · simp [Engine.setTxn, hStart]
  · simp [Engine.setTxn, hCommit]

theorem Keeps.mvcc
    (hKeeps : Keeps t e e')
    (u : TxnId) :
    e'.isMvccTxn u = e.isMvccTxn u := by
  unfold isMvccTxn
  by_cases hU : u = t
  · rw [hU, hKeeps.level]
  · rw [hKeeps.others u hU]

theorem Keeps.start
    (hKeeps : Keeps t e e')
    (u : TxnId) :
    e'.startTs u = e.startTs u := by
  unfold Engine.startTs
  by_cases hU : u = t
  · rw [hU, hKeeps.startTs]
  · rw [hKeeps.others u hU]

------------
-- Version Entries
------------

/- The keys in use are those of the version entries. -/
def TableKeysOk (e : Engine) : Prop :=
  ∀ y, y ∈ e.mvccTableKeys ↔ e.mvccVersions y ≠ none

/- The entry that a versioned change leaves. -/
def written (e : Engine) (t : TxnId) (d : DataRecord) : MvccEntry :=
  let entry := (e.mvccVersions d.loc).getD
    (MvccEntry.fresh
      (if d.inserted then none else some d.oldRecord))
  let entry :=
    if d.loc ∈ (e.txn t).mvccWriteKeys then
      entry
    else
      entry.remember (e.mvccVersions d.loc).isSome d.oldRecord
        d.inserted
  entry.setHead t d.headRecord d.deleted

/- The common shape of `MvccInsert`, `MvccUpdate`,
  `MvccDelete`. -/
def mvccWrite
    (e : Engine)
    (t : TxnId)
    (d : DataRecord)
    (order : List TxnId) :
    Call := do
  let e ← e.checkSerializableWrite t d.loc d.before d.after order
  let e ← e.prepareWrite t d.loc d.oldRecord d.inserted
  .ok (e.setHead t d.loc d.headRecord d.deleted)

/- What a successful call of the three does. -/
structure Marks (t : TxnId) (d : DataRecord) (e e₁ : Engine) : Prop where
  keeps : Keeps t e e₁
  db : e₁.db = e.db
  log : e₁.log = e.log
  locks : e₁.locks = e.locks
  shared : e₁.sharedLocks = e.sharedLocks
  owners : e₁.physicalInsertOwners = e.physicalInsertOwners
  state : (e₁.txn t).state = (e.txn t).state
  writeSet : (e₁.txn t).writeSet = (e.txn t).writeSet
  prevLsn : (e₁.txn t).prevLsn = (e.txn t).prevLsn
  versions : e₁.mvccVersions = Function.update e.mvccVersions d.loc (some (e.written t d))
  keys : (e₁.txn t).mvccWriteKeys =
      if d.loc ∈ (e.txn t).mvccWriteKeys then
        (e.txn t).mvccWriteKeys
      else
        d.loc :: (e.txn t).mvccWriteKeys
  tableKeys : e.TableKeysOk → e₁.TableKeysOk
  conflict : e.isMvccTxn t = true → ∀ entry, e.mvccVersions d.loc = some entry →
        entry.conflicts t (e.startTs t) = false

section Calls

variable {e e₁ : Engine} {t : TxnId} {x : Loc}
variable {d : DataRecord} {order : List TxnId}

theorem tableKeysOk_putEntry
    (hOk : e.TableKeysOk)
    (x : Loc)
    (entry : MvccEntry) :
    (e.putEntry x entry).TableKeysOk := by
  intro y
  simp only [putEntry, List.mem_insert_iff, update_apply]
  by_cases hY : y = x
  · simp [hY]
  · simp [hY, hOk y]

/- Putting an entry back changes nothing. -/
theorem putEntry_self
    {entry : MvccEntry}
    (hEntry : e.mvccVersions x = some entry) :
    (e.putEntry x entry).mvccVersions = e.mvccVersions := by
  simp only [putEntry]
  rw [← hEntry, update_eq_self]

variable {oldRec newRec : Option RmRecord}

theorem checkSerializableWrite_ok
    (hRun : e.checkSerializableWrite t x oldRec newRec order = .ok e₁) :
    e₁ = { e with ssi := e₁.ssi } := by
  unfold checkSerializableWrite at hRun
  split at hRun
  · split at hRun
    · cases hRun
      rfl
    · cases hRun
  · cases hRun
    rfl

variable {reason : AbortReason}

theorem checkSerializableWrite_error
    (hRun : e.checkSerializableWrite t x oldRec newRec order =
      .error (reason, e₁)) :
    e₁ = { e with ssi := e₁.ssi } := by
  unfold checkSerializableWrite at hRun
  split at hRun
  · split at hRun
    · cases hRun
    · cases hRun
      rfl
  · cases hRun

/- The entry that `PrepareWriteLocked` works on. -/
def oldEntry (e : Engine) (d : DataRecord) : MvccEntry :=
  (e.mvccVersions d.loc).getD
    (MvccEntry.fresh
      (if d.inserted then none else some d.oldRecord))

theorem prepareWrite_eq
    (e : Engine)
    (t : TxnId)
    (d : DataRecord) :
    e.prepareWrite t d.loc d.oldRecord d.inserted =
      if e.isMvccTxn t ∧ (e.oldEntry d).conflicts t (e.startTs t) then
        .error (.mvccConflict, e.putEntry d.loc (e.oldEntry d))
      else if d.loc ∈ (e.txn t).mvccWriteKeys then
        .ok (e.putEntry d.loc (e.oldEntry d))
      else
        .ok ((e.addMvccWriteKey t d.loc).putEntry d.loc ((e.oldEntry d).remember
            (e.mvccVersions d.loc).isSome d.oldRecord d.inserted)) := rfl

theorem prepareWrite_ok
    (hRun : e.prepareWrite t d.loc d.oldRecord d.inserted = .ok e₁) :
    (e.isMvccTxn t = true → (e.oldEntry d).conflicts t (e.startTs t) = false) ∧
    if d.loc ∈ (e.txn t).mvccWriteKeys then
      e₁ = e.putEntry d.loc (e.oldEntry d)
    else
      e₁ = (e.addMvccWriteKey t d.loc).putEntry d.loc ((e.oldEntry d).remember
          (e.mvccVersions d.loc).isSome d.oldRecord d.inserted) := by
  rw [prepareWrite_eq] at hRun
  split at hRun
  · cases hRun
  · rename_i hConflict
    constructor
    · intro hMvcc
      rw [Bool.eq_false_iff]
      intro hBad
      exact hConflict ⟨hMvcc, hBad⟩
    · split at hRun
      · rename_i hKey
        rw [if_pos hKey]
        exact (Except.ok.inj hRun).symm
      · rename_i hKey
        rw [if_neg hKey]
        exact (Except.ok.inj hRun).symm

theorem prepareWrite_error
    (hRun : e.prepareWrite t d.loc d.oldRecord d.inserted = .error (reason,
      e₁)) :
    e.isMvccTxn t = true ∧ (e.oldEntry d).conflicts t (e.startTs t) = true ∧
      e₁ = e.putEntry d.loc (e.oldEntry d) := by
  rw [prepareWrite_eq] at hRun
  split at hRun
  · rename_i hConflict
    refine ⟨hConflict.1, hConflict.2, ?_⟩
    cases hRun
    rfl
  · split at hRun
    · cases hRun
    · cases hRun

/- A new entry never conflicts. -/
theorem fresh_conflicts
    {startTs : Int}
    (hStart : 0 ≤ startTs)
    (physical : Option RmRecord) :
    (MvccEntry.fresh physical).conflicts t startTs = false := by
  cases physical with
  | none | some rec =>
    simp [MvccEntry.fresh, EntryState.toEntry, EntryState.conflicts]
    omega

theorem marks_of_prepareWrite
    (hRun : e.prepareWrite t d.loc d.oldRecord d.inserted = .ok e₁) :
    Marks t d e (e₁.setHead t d.loc d.headRecord d.deleted) := by
  rcases prepareWrite_ok hRun with ⟨hConflict, hCase⟩
  have hNoConflict : e.isMvccTxn t = true → ∀ entry, e.mvccVersions d.loc = some entry →
          entry.conflicts t (e.startTs t) = false := by
    intro hMvcc entry hEntry
    have hOld := hConflict hMvcc
    unfold oldEntry at hOld
    rw [hEntry, Option.getD_some] at hOld
    exact hOld
  by_cases hKey : d.loc ∈ (e.txn t).mvccWriteKeys
  · rw [if_pos hKey] at hCase
    subst hCase
    have hHead : ((e.putEntry d.loc (e.oldEntry d)).setHead t d.loc d.headRecord d.deleted) =
          (e.putEntry d.loc (e.oldEntry d)).putEntry d.loc (e.written t d) := by
      simp only [setHead, putEntry, update_self, written, oldEntry, if_pos hKey]
    rw [hHead]
    refine ⟨.same rfl, rfl, rfl, rfl, rfl, rfl, rfl, rfl, rfl, ?_, ?_, ?_, hNoConflict⟩
    · simp only [putEntry, update_idem]
    · rw [if_pos hKey]
      rfl
    · intro hOk
      exact tableKeysOk_putEntry (tableKeysOk_putEntry hOk _ _) _ _
  · rw [if_neg hKey] at hCase
    subst hCase
    have hHead : (((e.addMvccWriteKey t d.loc).putEntry d.loc ((e.oldEntry d).remember
            (e.mvccVersions d.loc).isSome d.oldRecord d.inserted)).setHead t d.loc
          d.headRecord d.deleted) = ((e.addMvccWriteKey t d.loc).putEntry d.loc
            ((e.oldEntry d).remember (e.mvccVersions d.loc).isSome d.oldRecord
                d.inserted)).putEntry d.loc (e.written t d) := by
      simp only [setHead, putEntry, update_self, written, oldEntry, if_neg hKey]
    rw [hHead]
    have hTxn : Keeps t e (e.addMvccWriteKey t d.loc) := Keeps.setTxn rfl rfl rfl
    refine ⟨hTxn.congr rfl, rfl, rfl, rfl, rfl, rfl, ?_, ?_, ?_, ?_, ?_, ?_, hNoConflict⟩
    · simp [putEntry, addMvccWriteKey, setTxn]
    · simp [putEntry, addMvccWriteKey, setTxn]
    · simp [putEntry, addMvccWriteKey, setTxn]
    · simp only [putEntry, addMvccWriteKey, setTxn, update_idem]
    · rw [if_neg hKey]
      simp [putEntry, addMvccWriteKey, setTxn]
    · intro hOk
      have hAdd : (e.addMvccWriteKey t d.loc).TableKeysOk := hOk
      exact tableKeysOk_putEntry (tableKeysOk_putEntry hAdd _ _) _ _

/- The manager's own state apart from the SSI part. -/
theorem Marks.of_ssi
    {ssi : Ssi}
    (hMarks : Marks t d { e with ssi := ssi } e₁) :
    Marks t d e e₁ :=
  { hMarks with keeps := (Keeps.same rfl : Keeps t e { e with ssi := ssi }).trans hMarks.keeps }

theorem mvccWrite_ok (hRun : e.mvccWrite t d order = .ok e₁) :
    Marks t d e e₁ := by
  unfold mvccWrite at hRun
  cases hCheck : e.checkSerializableWrite t d.loc d.before d.after order with
  | error err => simp [hCheck, bind, Except.bind] at hRun
  | ok e₂ =>
    simp only [hCheck, bind, Except.bind] at hRun
    cases hPrepare : e₂.prepareWrite t d.loc d.oldRecord d.inserted with
    | error err => simp [hPrepare] at hRun
    | ok e₃ =>
      simp only [hPrepare, Except.ok.injEq] at hRun
      subst hRun
      have hSsi := checkSerializableWrite_ok hCheck
      rw [hSsi] at hPrepare
      exact Marks.of_ssi (marks_of_prepareWrite hPrepare)

/- What a call that throws leaves behind. -/
structure Refuses (t : TxnId) (e e₁ : Engine) : Prop where
  keeps : Keeps t e e₁
  db : e₁.db = e.db
  log : e₁.log = e.log
  locks : e₁.locks = e.locks
  owners : e₁.physicalInsertOwners = e.physicalInsertOwners
  txn : e₁.txn t = e.txn t
  versions : e₁.mvccVersions = e.mvccVersions
  tableKeys : e.TableKeysOk → e₁.TableKeysOk

theorem mvccWrite_error (hStart : e.isMvccTxn t = true → 0 ≤ e.startTs t)
    (hRun : e.mvccWrite t d order = .error (reason, e₁)) : Refuses t e e₁ := by
  unfold mvccWrite at hRun
  cases hCheck : e.checkSerializableWrite t d.loc d.before d.after order with
  | error err =>
    simp only [hCheck, bind, Except.bind, Except.error.injEq] at hRun
    subst hRun
    rw [checkSerializableWrite_error hCheck]
    exact ⟨.same rfl, rfl, rfl, rfl, rfl, rfl, rfl, id⟩
  | ok e₂ =>
    simp only [hCheck, bind, Except.bind] at hRun
    cases hPrepare : e₂.prepareWrite t d.loc d.oldRecord d.inserted with
    | ok e₃ => simp [hPrepare] at hRun
    | error err =>
      simp only [hPrepare, Except.error.injEq] at hRun
      subst hRun
      rw [checkSerializableWrite_ok hCheck] at hPrepare
      rcases prepareWrite_error hPrepare with ⟨hMvcc, hConflict, rfl⟩
      -- only an entry that was there can conflict
      cases hEntry : e.mvccVersions d.loc with
      | none =>
        exfalso
        simp only [oldEntry, hEntry, Option.getD_none] at hConflict
        have hNever := fresh_conflicts (t := t) (hStart hMvcc)
          (if d.inserted then none else some d.oldRecord)
        cases hConflict.symm.trans hNever
      | some entry =>
        have hSame : (({ e with ssi := e₂.ssi } : Engine).oldEntry d) = entry := by
          simp [oldEntry, hEntry]
        rw [hSame]
        refine ⟨.same rfl, rfl, rfl, rfl, rfl, rfl, putEntry_self hEntry, ?_⟩
        intro hOk
        have hOk' : ({ e with ssi := e₂.ssi } : Engine).TableKeysOk := hOk
        exact tableKeysOk_putEntry hOk' _ _

end Calls

------------
-- Locks And Log
------------

section Pieces

variable {e e₁ : Engine} {t : TxnId} {x : Loc}

theorem lockRow_eq_some (hRun : e.lockRow t x = some e₁) :
    ∃ locks, e₁ = { e with locks := locks } ∧
      (e.isMvccTxn t = true → locks = e.locks) ∧
      (e.isMvccTxn t = false → locks = update e.locks x (some t) ∧
          (e.locks x = none ∨ e.locks x = some t)) := by
  unfold lockRow at hRun
  split at hRun
  · rename_i hMvcc
    cases hRun
    exact ⟨e.locks, rfl, fun _ => rfl, fun h => absurd (hMvcc.symm.trans h) (by simp)⟩
  · rename_i hMvcc
    unfold lockExclusive at hRun
    split at hRun
    · rename_i hFree
      cases hRun
      exact ⟨_, rfl, fun h => absurd h hMvcc, fun _ => ⟨rfl, hFree.1⟩⟩
    · cases hRun

/- What logging a change does besides the log record. -/
structure Logs (t : TxnId) (d : DataRecord) (e e₁ : Engine) : Prop where
  keeps : Keeps t e e₁
  edits : e.db.Edits e₁.db d.loc (e.db.record d.loc)
  indexes : (e₁.db d.tab).indexes = (e.db d.tab).indexes
  log : e₁.log = e.log ++ [⟨e.log.length, t, (e.txn t).prevLsn, .data d⟩]
  txn : e₁.txn t = { e.txn t with prevLsn := e.log.length }
  locks : e₁.locks = e.locks
  owners : e₁.physicalInsertOwners = e.physicalInsertOwners
  versions : e₁.mvccVersions = e.mvccVersions
  tableKeys : e₁.mvccTableKeys = e.mvccTableKeys

theorem logChange_spec
    (e : Engine)
    (t : TxnId)
    (d : DataRecord) :
    Logs t d e (e.logChange t d) := by
  have hKeeps : Keeps t e (e.addLogRecord t (.data d)) :=
    (Keeps.setTxn rfl rfl rfl :
      Keeps t e (e.setTxn t { e.txn t with prevLsn := e.log.length })).congr rfl
  have hTxn : (e.addLogRecord t (.data d)).txn t = { e.txn t with prevLsn := e.log.length } := by
    simp [addLogRecord]
  unfold logChange stampPage
  cases hStamp : ((e.addLogRecord t (.data d)).db d.loc.tab).setPageLsn d.loc.rid e.log.length with
  | error err => exact ⟨hKeeps, Db.Edits.refl, rfl, rfl, hTxn, rfl, rfl, rfl, rfl⟩
  | ok tab =>
    have hRecord : tab.record = (e.db d.loc.tab).record := Table.record_setPageLsn hStamp
    have hPages : (e.db d.loc.tab).KeepsPages tab := Table.keepsPages_setPageLsn hStamp
    refine ⟨hKeeps.congr rfl, Db.edits_same hRecord hPages, ?_, rfl, hTxn, rfl, rfl, rfl, rfl⟩
    have hIndexes : tab.indexes = (e.db d.loc.tab).indexes := Sys.indexes_setPageLsn hStamp
    simp only [setTable, DataRecord.tab, update_self, hIndexes]

end Pieces

------------
-- How A Row Operation Ends
------------

/- A READ COMMITTED row operation may lock its row. -/
def LockStep (t : TxnId) (x : Loc) (e e' : Engine) : Prop :=
  ∀ y, e'.locks y = e.locks y ∨
    y = x ∧ e.isMvccTxn t = false ∧ e'.locks y = some t ∧
      (e.locks y = none ∨ e.locks y = some t)

/- The row is passed over, or the statement throws at once. -/
structure Quiet (t : TxnId) (x : Loc) (e e' : Engine) : Prop where
  keeps : Keeps t e e'
  growing : e.state t = .growing
  state : e'.state t = .growing ∨ ∃ reason, e'.state t = .failed reason
  edits : e.db.Edits e'.db x (e.db.record x)
  indexes : (e'.db x.tab).indexes = (e.db x.tab).indexes
  versions : e'.mvccVersions = e.mvccVersions
  tableKeys : e.TableKeysOk → e'.TableKeysOk
  locks : LockStep t x e e'
  owners : e'.physicalInsertOwners = e.physicalInsertOwners
  writeSet : (e'.txn t).writeSet = (e.txn t).writeSet
  keys : (e'.txn t).mvccWriteKeys = (e.txn t).mvccWriteKeys
  log : e'.log = e.log

/- The tests before a change have passed. -/
structure CanChange (t : TxnId) (d : DataRecord) (e : Engine) : Prop where
  growing : e.state t = .growing
  row :
    if d.inserted then
      e.db.record d.loc = none ∧ (e.db d.tab).HasSlot d.rid
    else
      e.getVisibleRecord t d.loc = d.before
  unique : e.isMvccTxn t = true → d.deleted = false → e.uniqueConflict t d.tab d.headRecord
        (if d.inserted then none else some d.rid) = false
  conflict : e.isMvccTxn t = true → ∀ entry, e.mvccVersions d.loc = some entry →
        entry.conflicts t (e.startTs t) = false
  -- an insert asks for its lock later
  lock : e.isMvccTxn t = false → d.inserted = false → e.locks d.loc = none ∨ e.locks d.loc = some t

/- The place of an insert. -/
theorem CanChange.place
    {d : DataRecord}
    (hCan : CanChange t d e)
    (hInserted : d.inserted = true) :
    e.db.record d.loc = none ∧ (e.db d.tab).HasSlot d.rid := by
  have hRow := hCan.row
  rw [hInserted, if_pos rfl] at hRow
  exact hRow

/- The version part of a change. -/
structure Versions
    (t : TxnId)
    (d : DataRecord)
    (e e' : Engine) :
    Prop where
  versions : e'.mvccVersions =
      if e.shouldVersionWrites t then
        Function.update e.mvccVersions d.loc (some (e.written t d))
      else
        e.mvccVersions
  keys : (e'.txn t).mvccWriteKeys =
      if e.shouldVersionWrites t ∧
          d.loc ∉ (e.txn t).mvccWriteKeys then
        d.loc :: (e.txn t).mvccWriteKeys
      else
        (e.txn t).mvccWriteKeys
  tableKeys : e.TableKeysOk → e'.TableKeysOk

/- The record in the heap after a change. -/
def physicalAfter
    (e : Engine)
    (t : TxnId)
    (d : DataRecord) :
    Option RmRecord :=
  if e.shouldVersionWrites t ∧ d.deleted then
    e.db.record d.loc
  else
    d.after

/- The change is made. -/
structure Done (t : TxnId) (d : DataRecord) (e e' : Engine) : Prop where
  keeps : Keeps t e e'
  state : e'.state t = .growing
  edits : e.db.Edits e'.db d.loc (e.physicalAfter t d)
  shifts : ∀ i, (e.db d.tab).Shifts (e'.db d.tab) i (keyIn ((e.db d.tab).cols i) d.before)
      (keyIn ((e.db d.tab).cols i) d.after) d.rid
  entry : Versions t d e e'
  writeSet : (e'.txn t).writeSet = d.writeRecord :: (e.txn t).writeSet
  locked : e.isMvccTxn t = false → (e.locks d.loc = none ∨ e.locks d.loc = some t) ∧
        e'.locks d.loc = some t
  locks : LockStep t d.loc e e'
  owners : e'.physicalInsertOwners =
      if d.inserted then
        Function.update e.physicalInsertOwners d.loc (some t)
      else
        e.physicalInsertOwners
  log : e'.log = e.log ++ [⟨e.log.length, t, (e.txn t).prevLsn, .data d⟩]

/- The record in the heap after a rejected change. The handler
  writes the record that the transaction saw. -/
def physicalRejected (e : Engine) (d : DataRecord) : Option RmRecord :=
  if (e.db d.tab).HasSlot d.rid then
    d.before
  else
    e.db.record d.loc

/- A lock or a key rejects the change. -/
structure Rejected
    (t : TxnId)
    (d : DataRecord)
    (e e' : Engine) :
    Prop where
  keeps : Keeps t e e'
  state : ∃ reason, e'.state t = .failed reason
  edits : e.db.Edits e'.db d.loc (e.physicalRejected d)
  rekeys : (e.db d.tab).HasSlot d.rid → (e.db d.tab).Rekeys (e'.db d.tab) d.before d.before d.rid
  -- a delete finds its record
  kept : (e.db d.tab).HasSlot d.rid → d.deleted = false
  entry : Versions t d e e'
  writeSet : (e'.txn t).writeSet =
      if d.inserted ∨ e.shouldVersionWrites t then
        d.writeRecord :: (e.txn t).writeSet
      else
        (e.txn t).writeSet
  locks : LockStep t d.loc e e'
  locked : d.inserted = false → e.isMvccTxn t = false → e'.locks d.loc = some t
  owners : e'.physicalInsertOwners =
      if d.inserted then
        Function.update e.physicalInsertOwners d.loc none
      else
        e.physicalInsertOwners

theorem Rejected.failed
    {d : DataRecord}
    (hRejected : Rejected t d e e') :
    e'.state t ≠ .growing := by
  rcases hRejected.state with ⟨reason, hState⟩
  rw [hState]
  simp

/- The end of a change. -/
inductive Outcome (t : TxnId) (d : DataRecord) (e e' : Engine) : Prop where
  | done (hDone : Done t d e e')
  | rejected (hRejected : Rejected t d e e')
      (hStays : (e.db d.tab).HasSlot d.rid → e.isMvccTxn t = false ∧
            (d.inserted → e.shouldVersionWrites t = false))
  | aborted (e₁ : Engine) (hRejected : Rejected t d e e₁) (hAbort : e₁.abort t = some e')

end Engine

end Rmdb
