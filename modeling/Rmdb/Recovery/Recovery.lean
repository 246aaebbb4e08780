import Rmdb.Record.HeapFile
import Rmdb.Recovery.LogRecord

/-
  This file models `RecoveryManager`: the analysis of the log,
  the redo of the committed transactions in log order and the
  undo of the others backwards.

  Redo and undo of one record work on the heap file that the
  record names.  Both test the LSN of the record's page, and
  both repair the indexes only as a side effect of the heap
  change.

  Key definitions include:
    * `analyze`
    * `Table.pageHasLog`
    * `HeapFile.applyRedo`
    * `HeapFile.applyUndo`
    * `Files`
    * `recover`
-/

namespace Rmdb

------------
-- Analysis
------------

/- The transaction sets the analysis keeps. -/
structure TxnSets where
  committedTxns : List TxnId
  activeTxns : List TxnId
deriving DecidableEq, Repr

namespace TxnSets

/- Account for one record of the log. -/
def scan (sets : TxnSets) (r : LogRecord) : TxnSets :=
  match r.body with
  | .begin =>
    { sets with activeTxns := sets.activeTxns.insert r.tid }
  | .commit =>
    { committedTxns := sets.committedTxns.insert r.tid,
      activeTxns := sets.activeTxns.filter (· ≠ r.tid) }
  | .abort =>
    { sets with activeTxns := sets.activeTxns.insert r.tid }
  | .data _ =>
    if r.tid ∈ sets.committedTxns then
      sets
    else
      { sets with
        activeTxns := sets.activeTxns.insert r.tid }
  | .checkpoint => sets

end TxnSets

/- The transaction sets of a whole log. -/
def txnSets (logs : List LogRecord) : TxnSets :=
  logs.foldl TxnSets.scan ⟨[], []⟩

/- The transactions that redo repeats. -/
def committedTxns (logs : List LogRecord) : List TxnId :=
  (txnSets logs).committedTxns

/- The transactions that undo takes back. -/
def activeTxns (logs : List LogRecord) : List TxnId :=
  (txnSets logs).activeTxns

/- The data records to undo, latest first. -/
def undoLogs (logs : List LogRecord) : List LogRecord :=
  logs.reverse.filter
    (fun r => r.data?.isSome ∧ r.tid ∈ activeTxns logs)

------------
-- Redo And Undo Of One Record
------------

namespace Table

/- Does the page of a record already carry an LSN? -/
def pageHasLog (t : Table) (rid : Rid) (lsn : Int) : Bool :=
  match t.fetchPageHandle rid.pageNo with
  | .ok p => p.lsn ≠ invalidLsn ∧ lsn ≤ p.lsn
  | .error _ => false

/- Add a record's keys where they are missing. -/
def insertIndexes (t : Table) (record : RmRecord) (rid : Rid) : Table :=
  { t with
    indexes := t.indexes.map (fun ix =>
      ix.insertIfAbsent (ix.keyOf record) rid) }

/- Remove a record's keys. -/
def deleteIndexes (t : Table) (record : RmRecord) : Table :=
  { t with
    indexes := t.indexes.map (fun ix =>
      ix.deleteEntry (ix.keyOf record)) }

end Table

namespace HeapFile

/- The common body of `redo_insert` and `redo_update`: make
  the record identifier hold a record, whatever it held
  before. -/
def redoPut
    (f : HeapFile)
    (rid : Rid)
    (record : RmRecord) :
    Except RmdbError HeapFile := do
  let f := f.ensureRecordSlot rid
  let f ←
    if f.isRecord rid then do
      let old ← f.getRecord rid
      HeapFile.updateRecord
        { f with toTable := f.deleteIndexes old } rid record
    else
      f.insertRecordAt rid record
  .ok { f with toTable := f.insertIndexes record rid }

def redoInsert
    (f : HeapFile)
    (rid : Rid)
    (record : RmRecord) :
    Except RmdbError HeapFile :=
  f.redoPut rid record

def redoUpdate
    (f : HeapFile)
    (rid : Rid)
    (_oldRecord newRecord : RmRecord) :
    Except RmdbError HeapFile :=
  f.redoPut rid newRecord

def redoDelete
    (f : HeapFile)
    (rid : Rid) :
    Except RmdbError HeapFile :=
  if ¬ f.isRecord rid then
    .ok f
  else do
    let old ← f.getRecord rid
    HeapFile.deleteRecord
      { f with toTable := f.deleteIndexes old } rid

/- Stamp the page of a record if the file holds that page. -/
def stampIfPresent
    (f : HeapFile)
    (rid : Rid)
    (lsn : Int) :
    Except RmdbError HeapFile :=
  if rid.pageNo < f.numPages then
    f.setPageLsn rid lsn
  else
    .ok f

/- Redo one data record unless its page carries it. -/
def applyRedo
    (f : HeapFile)
    (lsn : Int)
    (d : DataRecord) :
    Except RmdbError HeapFile :=
  if f.pageHasLog d.rid lsn then
    .ok f
  else
    match d with
    | .insert loc insertValue => do
        let f ← f.redoInsert loc.rid insertValue
        f.setPageLsn loc.rid lsn
    | .delete loc _ => do
        let f ← f.redoDelete loc.rid
        f.stampIfPresent loc.rid lsn
    | .update loc oldValue newValue => do
        let f ← f.redoUpdate loc.rid oldValue newValue
        f.setPageLsn loc.rid lsn

/- Undo one data record if its page carries it. -/
def applyUndo
    (f : HeapFile)
    (lsn : Int)
    (d : DataRecord) :
    Except RmdbError HeapFile :=
  if ¬ f.pageHasLog d.rid lsn then
    .ok f
  else
    match d with
    | .insert loc _ => do
        let f ← f.redoDelete loc.rid
        f.stampIfPresent loc.rid lsn
    | .delete loc deleteValue => do
        let f ← f.redoInsert loc.rid deleteValue
        f.setPageLsn loc.rid lsn
    | .update loc oldValue newValue => do
        let f ← f.redoUpdate loc.rid newValue oldValue
        f.setPageLsn loc.rid lsn

end HeapFile

------------
-- Recovery Of A Database
------------

/- The tables of a database. -/
abbrev Db := TabName → Table

/- The live record at a place. -/
def Db.record (db : Db) (x : Loc) : Option RmRecord :=
  (db x.tab).record x.rid

/- The heap files of a database. -/
abbrev Files := TabName → HeapFile

namespace Files

/- The tables in the files. -/
def db (files : Files) : Db :=
  fun tab => (files tab).toTable

/- Run an operation on one file of the database. -/
def modify
    (files : Files)
    (tab : TabName)
    (op : HeapFile → Except RmdbError HeapFile) :
    Except RmdbError Files := do
  let f ← op (files tab)
  .ok (Function.update files tab f)

end Files

def applyRedo
    (files : Files)
    (r : LogRecord) :
    Except RmdbError Files :=
  match r.body with
  | .data d => files.modify d.tab (fun f => f.applyRedo r.lsn d)
  | _ => .ok files

def applyUndo
    (files : Files)
    (r : LogRecord) :
    Except RmdbError Files :=
  match r.body with
  | .data d => files.modify d.tab (fun f => f.applyUndo r.lsn d)
  | _ => .ok files

/- Redo the committed transactions in log order. -/
def redo
    (logs : List LogRecord)
    (files : Files) :
    Except RmdbError Files :=
  (logs.filter
    (fun r => r.tid ∈ committedTxns logs)).foldlM
      applyRedo files

/- Undo the unfinished transactions, latest record first. -/
def undo
    (logs : List LogRecord)
    (files : Files) :
    Except RmdbError Files :=
  (undoLogs logs).foldlM applyUndo files

/- Recovery: analysis, redo, undo. -/
def recover
    (logs : List LogRecord)
    (files : Files) :
    Except RmdbError Files := do
  let files ← redo logs files
  undo logs files

end Rmdb
