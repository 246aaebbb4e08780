import Rmdb.Mvcc.Ssi
import Rmdb.Mvcc.Watermark
import Rmdb.Transaction.Sys

/-
  This file models the transaction manager with transactions
  of every isolation level, at the grain of whole calls: begin,
  the work of an executor on one row, the registration of a
  predicate read, commit, abort and garbage collection are
  single steps.

  SNAPSHOT ISOLATION and SERIALIZABLE transactions, the MVCC
  transactions, keep versions and take no row locks.  READ
  COMMITTED transactions lock rows; they keep versions only
  while an MVCC transaction is running.

  A statement that throws leaves its transaction failed; the
  session then calls abort.

  Key definitions include:
    * `MvccTxn`
    * `Engine`
    * `Engine.getVisibleRecord`
    * `Engine.prepareWrite`
    * `Engine.insertRow`
    * `Engine.updateRow`
    * `Engine.deleteRow`
    * `Engine.commit`
    * `Engine.abort`
    * `Engine.garbageCollection`
    * `Engine.step`
-/

namespace Rmdb

------------
-- Transactions And The State Of The Manager
------------

/- Why a statement throws. -/
inductive AbortReason where
  | mvccConflict
  | ssiConflict
  | lockConflict
  | duplicateKey
  | recordNotFound
deriving DecidableEq, Repr

inductive TxnState where
  | default
  | growing
  -- a statement threw: only an abort can follow
  | failed (reason : AbortReason)
  | committed
  | aborted
deriving DecidableEq, Repr

structure MvccTxn where
  isolationLevel : IsolationLevel
  state : TxnState
  startTs : Int
  commitTs : Int
  -- the latest write first
  writeSet : List WriteRecord
  mvccWriteKeys : List Loc
  prevLsn : Int
deriving DecidableEq, Repr

/- A transaction object that nobody has begun. -/
def MvccTxn.unused : MvccTxn :=
  ⟨.readCommitted, .default, 0, invalidTs, [], [], invalidLsn⟩

/- The row of a write. -/
def WriteRecord.loc : WriteRecord → Loc
| .insertTuple x => x
| .deleteTuple x _ => x
| .updateTuple x _ => x

/- The tables, their columns, the log, the transactions, the
  timestamps, the version entries with the keys that are in
  use, the row locks, the registered owners of physical
  inserts and the state of the SERIALIZABLE transactions. -/
structure Engine where
  db : Db
  tabCols : TabName → List ColMeta
  log : List LogRecord
  nextTxnId : Nat
  txn : TxnId → MvccTxn
  lastCommitTs : Int
  runningTxns : Watermark
  activeMvccTxnCount : Int
  gcCommitCounter : Nat
  mvccVersions : Loc → Option MvccEntry
  mvccTableKeys : List Loc
  mvccIndexCompensationKeys : List Loc
  locks : Loc → Option TxnId
  sharedLocks : Loc → List TxnId
  physicalInsertOwners : Loc → Option TxnId
  ssi : Ssi

/- A call that may throw; the error carries the state. -/
abbrev Call := Except (AbortReason × Engine) Engine

namespace Table

/- Take the records that satisfy a test out of the heap. -/
def removeWhere (t : Table) (p : Rid → Bool) : Table :=
  { t with
    page := fun pageNo =>
      { t.page pageNo with
        val := fun slotNo =>
          if p ⟨pageNo, slotNo⟩ then
            none
          else
            (t.page pageNo).val slotNo } }

/- `index_keys_changed`. -/
def indexKeysChanged (t : Table) (oldRec newRec : RmRecord) : Bool :=
  t.indexes.any (fun ix => ix.keyOf oldRec ≠ ix.keyOf newRec)

/- `RecordsConflictByLogicalKey`: the same key in an index, or
  for a table without indexes the same first column. -/
def recordsConflict
    (t : Table)
    (cols : List ColMeta)
    (lhs rhs : RmRecord)
    (includeFallback : Bool) :
    Bool :=
  if t.indexes = [] then
    includeFallback ∧
      cols.head?.any (fun col =>
        makeIndexKey lhs [col] = makeIndexKey rhs [col])
  else
    t.indexes.any (fun ix => ix.keyOf lhs = ix.keyOf rhs)

end Table

namespace Engine

------------
-- Parts Of A Step
------------

def state (e : Engine) (t : TxnId) : TxnState :=
  (e.txn t).state

def startTs (e : Engine) (t : TxnId) : Int :=
  (e.txn t).startTs

def isMvccTxn (e : Engine) (t : TxnId) : Bool :=
  (e.txn t).isolationLevel.mvcc

def setTxn (e : Engine) (t : TxnId) (txn : MvccTxn) : Engine :=
  { e with txn := Function.update e.txn t txn }

def setState (e : Engine) (t : TxnId) (st : TxnState) : Engine :=
  e.setTxn t { e.txn t with state := st }

/- A statement of the transaction throws. -/
def fail (e : Engine) (t : TxnId) (reason : AbortReason) : Engine :=
  e.setState t (.failed reason)

def setTable (e : Engine) (tab : TabName) (t : Table) : Engine :=
  { e with db := Function.update e.db tab t }

def addLogRecord (e : Engine) (t : TxnId) (body : LogBody) : Engine :=
  { e with
    log := e.log ++
      [⟨e.log.length, t, (e.txn t).prevLsn, body⟩],
    txn := Function.update e.txn t
      { e.txn t with prevLsn := e.log.length } }

/- The page of a row that was just read or placed exists. -/
def stampPage (e : Engine) (x : Loc) (lsn : Int) : Engine :=
  match (e.db x.tab).setPageLsn x.rid lsn with
  | .ok tab => e.setTable x.tab tab
  | .error _ => e

/- Log a change and stamp the page of its row. -/
def logChange (e : Engine) (t : TxnId) (d : DataRecord) : Engine :=
  (e.addLogRecord t (.data d)).stampPage d.loc e.log.length

def appendWriteRecord
    (e : Engine)
    (t : TxnId)
    (w : WriteRecord) :
    Engine :=
  e.setTxn t
    { e.txn t with writeSet := w :: (e.txn t).writeSet }

def registerPhysicalInsert
    (e : Engine)
    (t : TxnId)
    (x : Loc) :
    Engine :=
  { e with
    physicalInsertOwners :=
      Function.update e.physicalInsertOwners x (some t) }

def unregisterPhysicalInsert
    (e : Engine)
    (t : TxnId)
    (x : Loc) :
    Engine :=
  if e.physicalInsertOwners x = some t then
    { e with
      physicalInsertOwners :=
        Function.update e.physicalInsertOwners x none }
  else
    e

/- `lock_exclusive_on_record`; `none` is a conflict. -/
def lockExclusive (e : Engine) (t : TxnId) (x : Loc) : Option Engine :=
  if (e.locks x = none ∨ e.locks x = some t) ∧
      ∀ u ∈ e.sharedLocks x, u = t then
    some { e with locks := Function.update e.locks x (some t) }
  else
    none

/- `lock_shared_on_record`; `none` is a conflict. -/
def lockShared (e : Engine) (t : TxnId) (x : Loc) : Option Engine :=
  if e.locks x = none ∨ e.locks x = some t then
    some { e with
      sharedLocks := Function.update e.sharedLocks x
        ((e.sharedLocks x).insert t) }
  else
    none

def unlock (e : Engine) (t : TxnId) (x : Loc) : Engine :=
  { e with
    locks :=
      if e.locks x = some t then
        Function.update e.locks x none
      else
        e.locks,
    sharedLocks := Function.update e.sharedLocks x
      ((e.sharedLocks x).filter (· ≠ t)) }

/- Release every lock of a transaction. -/
def unlockAll (e : Engine) (t : TxnId) : Engine :=
  { e with
    locks := fun x =>
      if e.locks x = some t then none else e.locks x,
    sharedLocks := fun x =>
      (e.sharedLocks x).filter (· ≠ t) }

/- A READ COMMITTED writer locks its row. -/
def lockRow (e : Engine) (t : TxnId) (x : Loc) : Option Engine :=
  if e.isMvccTxn t then some e else e.lockExclusive t x

------------
-- Versions
------------

def shouldVersionWrites (e : Engine) (t : TxnId) : Bool :=
  e.isMvccTxn t ∨ 0 < e.activeMvccTxnCount

def hasMvccState (e : Engine) : Bool :=
  0 < e.activeMvccTxnCount ∨ e.mvccTableKeys ≠ []

/- `GetVisibleRecord`, with the read of the heap record that
  its callers pass in; a missing record is passed over. -/
def getVisibleRecord
    (e : Engine)
    (t : TxnId)
    (x : Loc) :
    Option RmRecord :=
  match e.db.record x with
  | none => none
  | some physical =>
    if ¬ e.isMvccTxn t ∧ ¬ e.hasMvccState then
      some physical
    else
      match e.mvccVersions x with
      | none => some physical
      | some entry =>
        entry.visibleRecord physical (e.isMvccTxn t) t
          (e.startTs t)

/- `CheckMvccWriteConflict`. -/
def writeConflict (e : Engine) (t : TxnId) (x : Loc) : Bool :=
  (e.mvccVersions x).any (fun entry =>
    entry.conflicts t (e.startTs t))

/- Does a version the snapshot misses share a key? -/
def entryConflict
    (e : Engine)
    (t : TxnId)
    (tab : TabName)
    (newRec : RmRecord)
    (includeFallback : Bool)
    (entry : MvccEntry) :
    Bool :=
  entry.hasHeadRecord ∧ entry.lastWriterTxn ≠ some t ∧
    (entry.writerTxn ≠ none ∨ e.startTs t < entry.commitTs) ∧
    ((entry.entryExists ∧ ¬ entry.isDeleted ∧
        (e.db tab).recordsConflict (e.tabCols tab) newRec
          entry.headRecord includeFallback) ∨
      entry.undoVersions.any (fun v =>
        ¬ v.isDeleted ∧
          (e.db tab).recordsConflict (e.tabCols tab) newRec
            v.record includeFallback))

/- `CheckMvccUniqueConflict`; an insert has no row of its own. -/
def uniqueConflict
    (e : Engine)
    (t : TxnId)
    (tab : TabName)
    (newRec : RmRecord)
    (selfRid : Option Rid) :
    Bool :=
  e.mvccTableKeys.any (fun y =>
    y.tab = tab ∧ selfRid ≠ some y.rid ∧
      (e.mvccVersions y).any
        (e.entryConflict t tab newRec selfRid.isNone))

def putEntry (e : Engine) (x : Loc) (entry : MvccEntry) : Engine :=
  { e with
    mvccVersions := Function.update e.mvccVersions x
      (some entry),
    mvccTableKeys := e.mvccTableKeys.insert x }

def addMvccWriteKey (e : Engine) (t : TxnId) (x : Loc) : Engine :=
  e.setTxn t
    { e.txn t with mvccWriteKeys := x :: (e.txn t).mvccWriteKeys }

/- `PrepareWriteLocked`. Only an MVCC writer meets the test
  for write conflicts. -/
def prepareWrite
    (e : Engine)
    (t : TxnId)
    (x : Loc)
    (oldRec : RmRecord)
    (insertedRecord : Bool) :
    Call :=
  let hadEntry := (e.mvccVersions x).isSome
  let entry := (e.mvccVersions x).getD
    (MvccEntry.fresh
      (if insertedRecord then none else some oldRec))
  if e.isMvccTxn t ∧ entry.conflicts t (e.startTs t) then
    .error (.mvccConflict, e.putEntry x entry)
  else if x ∈ (e.txn t).mvccWriteKeys then
    .ok (e.putEntry x entry)
  else
    .ok ((e.addMvccWriteKey t x).putEntry x
      (entry.remember hadEntry oldRec insertedRecord))

/- The order in which a write meets the registered readers. -/
def validOrder (e : Engine) (t : TxnId) (order : List TxnId) : Prop :=
  (e.txn t).isolationLevel = .serializable →
    order.Perm e.ssi.readers

instance
    (e : Engine)
    (t : TxnId)
    (order : List TxnId) :
    Decidable (e.validOrder t order) := by
  unfold validOrder
  infer_instance

/- `CheckSerializableWriteLocked`. -/
def checkSerializableWrite
    (e : Engine)
    (t : TxnId)
    (x : Loc)
    (oldRec newRec : Option RmRecord)
    (order : List TxnId) :
    Call :=
  if (e.txn t).isolationLevel = .serializable then
    match e.ssi.checkSerializableWrite t (e.startTs t) x oldRec
        newRec order with
    | .ok ssi => .ok { e with ssi := ssi }
    | .error ssi => .error (.ssiConflict, { e with ssi := ssi })
  else
    .ok e

/- Make the transaction the writer of a row's entry. -/
def setHead
    (e : Engine)
    (t : TxnId)
    (x : Loc)
    (rec : RmRecord)
    (deleted : Bool) :
    Engine :=
  match e.mvccVersions x with
  | some entry => e.putEntry x (entry.setHead t rec deleted)
  | none => e

def addCompensationKey (e : Engine) (x : Loc) : Engine :=
  { e with
    mvccIndexCompensationKeys :=
      e.mvccIndexCompensationKeys.insert x }

def mvccInsert
    (e : Engine)
    (t : TxnId)
    (x : Loc)
    (newRec : RmRecord)
    (order : List TxnId) :
    Call := do
  let e ← e.checkSerializableWrite t x none (some newRec) order
  let e ← e.prepareWrite t x newRec true
  .ok (e.setHead t x newRec false)

def mvccUpdate
    (e : Engine)
    (t : TxnId)
    (x : Loc)
    (oldRec newRec : RmRecord)
    (order : List TxnId) :
    Call := do
  let e ← e.checkSerializableWrite t x (some oldRec)
    (some newRec) order
  let e ← e.prepareWrite t x oldRec false
  let e := e.setHead t x newRec false
  if (e.db x.tab).indexKeysChanged oldRec newRec then
    .ok (e.addCompensationKey x)
  else
    .ok e

def mvccDelete
    (e : Engine)
    (t : TxnId)
    (x : Loc)
    (oldRec : RmRecord)
    (order : List TxnId) :
    Call := do
  let e ← e.checkSerializableWrite t x (some oldRec) none order
  let e ← e.prepareWrite t x oldRec false
  .ok ((e.setHead t x oldRec true).addCompensationKey x)

------------
-- Abort
------------

/- Bring the heap and the indexes back to the state before the
  transaction's first write to a row with versions. -/
def rollbackPhysical
    (tab : Table)
    (rid : Rid)
    (entry : MvccEntry) :
    Except RmdbError Table :=
  if entry.rollbackDeletePhysical then
    if tab.isRecord rid then do
      let rec ← tab.getRecord rid
      (tab.deleteIndexes rec).deleteRecord rid
    else
      .ok tab
  else if entry.rollbackRestorePhysical then do
    let tab ←
      if tab.isRecord rid then do
        let rec ← tab.getRecord rid
        (tab.deleteIndexes rec).updateRecord rid
          entry.rollbackRecord
      else
        tab.insertRecordAt rid entry.rollbackRecord
    if entry.restoreDeleted then
      .ok tab
    else
      .ok (tab.insertIndexes entry.rollbackRecord rid)
  else
    .ok tab

/- The entry of a row after an abort. -/
def restoreEntry (e : Engine) (x : Loc) (entry : MvccEntry) : Engine :=
  match entry.rolledEntry with
  | some old => e.putEntry x old
  | none =>
    { e with
      mvccVersions := Function.update e.mvccVersions x none,
      mvccTableKeys := e.mvccTableKeys.filter (· ≠ x),
      mvccIndexCompensationKeys :=
        e.mvccIndexCompensationKeys.filter (· ≠ x) }

def unregisterInsert
    (e : Engine)
    (t : TxnId) :
    WriteRecord → Engine
| .insertTuple x => e.unregisterPhysicalInsert t x
| _ => e

/- Take back the row of one write, unless that has been done
  or the row has another writer. -/
def abortWrite
    (e : Engine)
    (t : TxnId)
    (processed : List Loc)
    (w : WriteRecord) :
    Option Engine :=
  let x := w.loc
  if x ∈ processed then
    some (e.unregisterInsert t w)
  else
    match e.mvccVersions x with
    | none => some (e.unregisterInsert t w)
    | some entry =>
      if entry.writerTxn ≠ some t then
        some (e.unregisterInsert t w)
      else
        match rollbackPhysical (e.db x.tab) x.rid entry with
        | .error _ => none
        | .ok tab =>
          let unlocks :=
            entry.rollbackDeletePhysical ∧
              (e.db x.tab).isRecord x.rid
          let e := e.setTable x.tab tab
          let e := if unlocks then e.unlock t x else e
          let e := e.restoreEntry x entry
          some (e.unregisterInsert t w)

/- Take back the writes of a transaction with versions. -/
def abortWrites (t : TxnId) :
    List WriteRecord → List Loc → Engine → Option Engine
| [], _, e => some e
| w :: rest, processed, e =>
  match e.abortWrite t processed w with
  | none => none
  | some e => abortWrites t rest (w.loc :: processed) e

/- Take back one write of a transaction without versions. -/
def rollbackWrite
    (e : Engine)
    (t : TxnId) :
    WriteRecord → Option Engine
| .insertTuple x =>
  if e.physicalInsertOwners x = some t then
    match (e.db x.tab).getRecord x.rid with
    | .ok rec =>
      match ((e.db x.tab).deleteIndexes rec).deleteRecord
          x.rid with
      | .ok tab =>
        some (((e.setTable x.tab tab).unlock t
          x).unregisterPhysicalInsert t x)
      | .error _ => none
    | .error _ => none
  else
    some (e.unregisterPhysicalInsert t x)
| .deleteTuple x oldRec =>
  match (e.db x.tab).insertRecordAt x.rid oldRec with
  | .ok tab =>
    some (e.setTable x.tab
      (tab.insertIndexes oldRec x.rid))
  | .error _ => none
| .updateTuple x oldRec =>
  match (e.db x.tab).getRecord x.rid with
  | .ok rec =>
    match ((e.db x.tab).deleteIndexes rec).updateRecord
        x.rid oldRec with
    | .ok tab =>
      some (e.setTable x.tab
        (tab.insertIndexes oldRec x.rid))
    | .error _ => none
  | .error _ => none

def rollbackWrites (t : TxnId) :
    List WriteRecord → Engine → Option Engine
| [], e => some e
| w :: rest, e =>
  match e.rollbackWrite t w with
  | none => none
  | some e => rollbackWrites t rest e

/- An MVCC transaction is no longer running. -/
def leave (e : Engine) (t : TxnId) : Engine :=
  if e.isMvccTxn t then
    { e with
      runningTxns := e.runningTxns.removeTxn (e.startTs t),
      activeMvccTxnCount := e.activeMvccTxnCount - 1 }
  else
    e

/- `CleanupSerializableStateLocked`. -/
def cleanupSerializableState (e : Engine) : Engine :=
  { e with ssi := e.ssi.cleanup e.runningTxns.watermark }

def clearTxnState (e : Engine) (t : TxnId) : Engine :=
  { e with ssi := e.ssi.clearTxn t }

/- Does the end of a transaction go through the versions? -/
def hasVersions (e : Engine) (t : TxnId) : Bool :=
  e.isMvccTxn t ∨ (e.txn t).mvccWriteKeys ≠ []

def hasWrites (e : Engine) (t : TxnId) : Bool :=
  (e.txn t).writeSet ≠ [] ∨ (e.txn t).mvccWriteKeys ≠ []

/- The end of an abort: drop the locks, log the abort. -/
def finishAbort (e : Engine) (t : TxnId) (hasWrites : Bool) : Engine :=
  let e := (e.unlockAll t).setTxn t
    { e.txn t with state := .aborted, writeSet := [] }
  if hasWrites then e.addLogRecord t .abort else e

/- `abort`. An exception inside it leaves the transaction
  where it is. -/
def abort (e : Engine) (t : TxnId) : Option Engine :=
  let writes := (e.txn t).writeSet
  if e.hasVersions t then do
    let e₁ ← abortWrites t writes [] e
    some ((((e₁.clearTxnState t).leave t).cleanupSerializableState
      ).finishAbort t (e.hasWrites t))
  else do
    let e₁ ← rollbackWrites t writes e
    some (e₁.finishAbort t (writes ≠ []))

------------
-- Rows Of The Executors
------------

/- Take a row that the transaction put there out of the heap. -/
def takeOut (e : Engine) (t : TxnId) (x : Loc) : Engine :=
  if e.physicalInsertOwners x = some t ∧
      (e.db x.tab).isRecord x.rid then
    match (e.db x.tab).deleteRecord x.rid with
    | .ok tab => e.setTable x.tab tab
    | .error _ => e
  else
    e

/- The handler of an insert that its lock or a key rejects. -/
def rejectInsert
    (e : Engine)
    (t : TxnId)
    (x : Loc)
    (versioned : Bool)
    (reason : AbortReason) :
    Option Engine :=
  let e := ((e.takeOut t x).unregisterPhysicalInsert t x).fail t
    reason
  if versioned then e.abort t else some e

/- Lock, index and log a row that is in the heap. -/
def finishInsert
    (e : Engine)
    (t : TxnId)
    (x : Loc)
    (rec : RmRecord)
    (versioned : Bool) :
    Option Engine :=
  let e := (e.registerPhysicalInsert t x).appendWriteRecord t
    (.insertTuple x)
  match e.lockRow t x with
  | none => e.rejectInsert t x versioned .lockConflict
  | some e =>
    match (e.db x.tab).insertKeys rec x.rid with
    | none => e.rejectInsert t x versioned .duplicateKey
    | some tab =>
      some ((e.setTable x.tab tab).logChange t
        (.insert x rec))

/- The handler that takes the row of a refused insert out. -/
def deletePhysical (e : Engine) (x : Loc) : Engine :=
  match (e.db x.tab).deleteRecord x.rid with
  | .ok tab => e.setTable x.tab tab
  | .error _ => e

/- `InsertExecutor::Next`; the place is an argument, as the
  allocator may hand out any free slot. -/
def insertRow
    (e : Engine)
    (t : TxnId)
    (x : Loc)
    (rec : RmRecord)
    (order : List TxnId) :
    Option Engine :=
  if e.state t ≠ .growing ∨ ¬ e.validOrder t order then
    none
  else if e.isMvccTxn t ∧
      e.uniqueConflict t x.tab rec none then
    some (e.fail t .mvccConflict)
  else
    match (e.db x.tab).allocate x.rid with
    | none => none
    | some tab =>
      let placed := e.setTable x.tab
        (tab.setSlot x.rid (some rec))
      if e.shouldVersionWrites t then
        match placed.mvccInsert t x rec order with
        | .ok e₁ => e₁.finishInsert t x rec true
        | .error (reason, e₁) =>
          some ((e₁.deletePhysical x).fail t reason)
      else
        placed.finishInsert t x rec false

/- The changes of an update to the log, the heap and the keys. -/
def applyUpdate
    (e : Engine)
    (t : TxnId)
    (x : Loc)
    (oldRec newRec : RmRecord)
    (versioned : Bool) :
    Option Engine :=
  let e := e.logChange t (.update x oldRec newRec)
  let tab := (e.db x.tab).deleteChangedKeys oldRec newRec
  match tab.updateRecord x.rid newRec with
  | .error _ =>
    some ((e.setTable x.tab tab).fail t .recordNotFound)
  | .ok tab =>
    match tab.insertChangedKeys oldRec newRec x.rid with
    | some tab =>
      let e := e.setTable x.tab tab
      if versioned then
        some e
      else
        some (e.appendWriteRecord t (.updateTuple x oldRec))
    | none =>
      -- a taken key: the heap and the old keys come back
      match tab.updateRecord x.rid oldRec with
      | .error _ =>
        some ((e.setTable x.tab tab).fail t
          .recordNotFound)
      | .ok tab =>
        let e := (e.setTable x.tab
          (tab.restoreChangedKeys oldRec newRec
            x.rid)).fail t .duplicateKey
        if e.isMvccTxn t then e.abort t else some e

/- `UpdateExecutor::Next` on one row. -/
def updateRow
    (e : Engine)
    (t : TxnId)
    (x : Loc)
    (newRec : RmRecord)
    (order : List TxnId) :
    Option Engine :=
  if e.state t ≠ .growing ∨ ¬ e.validOrder t order then
    none
  else
    match e.lockRow t x with
    | none => some (e.fail t .lockConflict)
    | some e =>
      match e.getVisibleRecord t x with
      | none => some e
      | some oldRec =>
        if e.isMvccTxn t ∧ (e.writeConflict t x ∨
            e.uniqueConflict t x.tab newRec
              (some x.rid)) then
          some (e.fail t .mvccConflict)
        else if e.shouldVersionWrites t then
          match e.mvccUpdate t x oldRec newRec order with
          | .ok e₁ =>
            (e₁.appendWriteRecord t
              (.updateTuple x oldRec)).applyUpdate t x
                oldRec newRec true
          | .error (reason, e₁) => some (e₁.fail t reason)
        else
          e.applyUpdate t x oldRec newRec false

/- The changes of a delete. With versions the record stays in
  the heap. -/
def applyDelete
    (e : Engine)
    (t : TxnId)
    (x : Loc)
    (rec : RmRecord)
    (versioned : Bool) :
    Option Engine :=
  let e := e.logChange t (.delete x rec)
  let tab := (e.db x.tab).deleteIndexes rec
  if versioned then
    some (e.setTable x.tab tab)
  else
    match tab.deleteRecord x.rid with
    | .ok tab =>
      some ((e.setTable x.tab tab).appendWriteRecord t
        (.deleteTuple x rec))
    | .error _ =>
      some ((e.setTable x.tab
        (tab.insertIndexes rec x.rid)).fail t
          .recordNotFound)

/- `DeleteExecutor::Next` on one row. -/
def deleteRow
    (e : Engine)
    (t : TxnId)
    (x : Loc)
    (order : List TxnId) :
    Option Engine :=
  if e.state t ≠ .growing ∨ ¬ e.validOrder t order then
    none
  else
    match e.lockRow t x with
    | none => some (e.fail t .lockConflict)
    | some e =>
      match e.getVisibleRecord t x with
      | none => some e
      | some rec =>
        if e.isMvccTxn t ∧ e.writeConflict t x then
          some (e.fail t .mvccConflict)
        else if e.shouldVersionWrites t then
          match e.mvccDelete t x rec order with
          | .ok e₁ =>
            (e₁.appendWriteRecord t
              (.deleteTuple x rec)).applyDelete t x rec
                true
          | .error (reason, e₁) => some (e₁.fail t reason)
        else
          e.applyDelete t x rec false

/- A READ COMMITTED scan locks a row, or throws. -/
def readRow (e : Engine) (t : TxnId) (x : Loc) : Option Engine :=
  if e.state t ≠ .growing then
    none
  else if e.isMvccTxn t then
    some e
  else
    match e.lockShared t x with
    | some e => some e
    | none => some (e.fail t .lockConflict)

/- A row that a READ COMMITTED writer locks and passes over. -/
def passRow (e : Engine) (t : TxnId) (x : Loc) : Option Engine :=
  if e.state t ≠ .growing then
    none
  else
    match e.lockRow t x with
    | some e => some e
    | none => some (e.fail t .lockConflict)

/- `RegisterSerializableRead`. -/
def registerRead
    (e : Engine)
    (t : TxnId)
    (tab : TabName)
    (conds : RmRecord → Bool)
    (returned : List Rid)
    (order : List Loc) :
    Option Engine :=
  if e.state t ≠ .growing then
    none
  else if (e.txn t).isolationLevel ≠ .serializable then
    some e
  else if ¬ order.Perm e.mvccTableKeys then
    none
  else
    match e.ssi.registerSerializableRead
        ⟨t, tab, conds, returned.map (fun rid => ⟨tab, rid⟩)⟩
        (e.startTs t) e.mvccVersions order with
    | .ok ssi => some { e with ssi := ssi }
    | .error ssi =>
      some ({ e with ssi := ssi }.fail t .ssiConflict)

------------
-- Begin, Commit And Garbage Collection
------------

/- `begin` of a new transaction. -/
def begin (e : Engine) (level : IsolationLevel) : Engine :=
  let txn : MvccTxn :=
    { MvccTxn.unused with
      isolationLevel := level, state := .growing }
  let e' := { e with nextTxnId := e.nextTxnId + 1 }
  if level.mvcc then
    { e'.setTxn e.nextTxnId
        { txn with startTs := e.lastCommitTs } with
      runningTxns := e.runningTxns.addTxn e.lastCommitTs,
      activeMvccTxnCount := e.activeMvccTxnCount + 1 }
  else
    e'.setTxn e.nextTxnId txn

/- The rows whose records garbage collection takes out. -/
def deadRow (e : Engine) (x : Loc) : Bool :=
  (e.mvccVersions x).any
    (MvccEntry.dead e.runningTxns.watermark)

/- The entries that garbage collection keeps. -/
def collectEntry (e : Engine) (x : Loc) : Option MvccEntry :=
  (e.mvccVersions x).bind
    (MvccEntry.collect e.runningTxns.watermark)

def garbageCollection (e : Engine) : Engine :=
  let kept := fun x => (e.collectEntry x).isSome
  { e with
    db := fun tab =>
      (e.db tab).removeWhere (fun rid => e.deadRow ⟨tab, rid⟩),
    mvccVersions := e.collectEntry,
    mvccTableKeys := e.mvccTableKeys.filter kept,
    mvccIndexCompensationKeys :=
      e.mvccIndexCompensationKeys.filter kept
    }.cleanupSerializableState

/- The entries after the commit of a transaction. -/
def settleEntry
    (e : Engine)
    (t : TxnId)
    (commitTs : Int)
    (x : Loc) :
    Option MvccEntry :=
  (e.mvccVersions x).map (fun entry =>
    if x ∈ (e.txn t).mvccWriteKeys ∧
        entry.writerTxn = some t then
      entry.settle commitTs
    else
      entry)

/- Give the versions of a transaction their timestamp. -/
def commitVersions (e : Engine) (t : TxnId) : Engine :=
  let commitTs := e.lastCommitTs + 1
  let ssi :=
    if (e.txn t).isolationLevel = .serializable then
      e.ssi.finish t commitTs
    else
      e.ssi
  let e₁ :=
    { e.setTxn t { e.txn t with commitTs := commitTs } with
      mvccVersions := e.settleEntry t commitTs,
      ssi := ssi,
      lastCommitTs := commitTs,
      runningTxns := e.runningTxns.updateCommitTs commitTs }
  let e₂ := (e₁.leave t).cleanupSerializableState
  let e₃ := { e₂ with gcCommitCounter := e.gcCommitCounter + 1 }
  if e.gcCommitCounter % 1024 = 1023 then
    e₃.garbageCollection
  else
    e₃

def unregisterAll
    (e : Engine)
    (t : TxnId) :
    List WriteRecord → Engine
| [] => e
| w :: rest => (e.unregisterInsert t w).unregisterAll t rest

def commit (e : Engine) (t : TxnId) : Option Engine :=
  if e.state t ≠ .growing then
    none
  else
    let e₁ :=
      if e.hasWrites t then e.addLogRecord t .commit else e
    let e₂ :=
      if e.hasVersions t then e₁.commitVersions t else e₁
    let e₃ :=
      (e₂.unregisterAll t (e.txn t).writeSet).unlockAll t
    some (e₃.setTxn t
      { e₃.txn t with state := .committed, writeSet := [] })

/- `abort` as a session calls it. -/
def abortTxn (e : Engine) (t : TxnId) : Option Engine :=
  match e.state t with
  | .growing => e.abort t
  | .failed _ => e.abort t
  | _ => none

/- The state of a server that has just started. -/
def init (db : Db) (tabCols : TabName → List ColMeta) : Engine :=
  { db := db,
    tabCols := tabCols,
    log := [],
    nextTxnId := 0,
    txn := fun _ => MvccTxn.unused,
    lastCommitTs := 0,
    runningTxns := Watermark.init 0,
    activeMvccTxnCount := 0,
    gcCommitCounter := 0,
    mvccVersions := fun _ => none,
    mvccTableKeys := [],
    mvccIndexCompensationKeys := [],
    locks := fun _ => none,
    sharedLocks := fun _ => [],
    physicalInsertOwners := fun _ => none,
    ssi := Ssi.init }

end Engine

------------
-- Steps
------------

/- The steps of a run. -/
inductive Op where
  | begin (level : IsolationLevel)
  | insertRow (t : TxnId) (x : Loc) (rec : RmRecord) (order : List TxnId)
  | updateRow (t : TxnId) (x : Loc) (newRec : RmRecord) (order : List TxnId)
  | deleteRow (t : TxnId) (x : Loc) (order : List TxnId)
  | readRow (t : TxnId) (x : Loc)
  | passRow (t : TxnId) (x : Loc)
  | registerRead (t : TxnId) (tab : TabName) (conds : RmRecord → Bool) (returned : List Rid)
      (order : List Loc)
  | commit (t : TxnId)
  | abort (t : TxnId)
  | garbageCollection

namespace Engine

def step (e : Engine) :
    Op → Option Engine
| .begin level => some (e.begin level)
| .insertRow t x rec order => e.insertRow t x rec order
| .updateRow t x newRec order => e.updateRow t x newRec order
| .deleteRow t x order => e.deleteRow t x order
| .readRow t x => e.readRow t x
| .passRow t x => e.passRow t x
| .registerRead t tab conds returned order =>
  e.registerRead t tab conds returned order
| .commit t => e.commit t
| .abort t => e.abortTxn t
| .garbageCollection => some e.garbageCollection

end Engine

end Rmdb
