import Rmdb.Recovery.LogRecord

/-
  This file models the version entry that the transaction
  manager keeps for a row: the state of the newest version,
  the older versions and what an abort has to bring back.

  The newest version itself is the record in the heap.  An
  entry without a writer is committed; the writer of an entry
  is the transaction whose uncommitted version is in the heap.

  Key definitions include:
    * `MvccVersion`
    * `EntryState`
    * `MvccEntry`
    * `EntryState.visibleRecord`
    * `MvccEntry.remember`
    * `MvccEntry.setHead`
    * `MvccEntry.settle`
    * `MvccEntry.collect`
-/

namespace Rmdb

------------
-- Versions And Entries
------------

/- The isolation levels a session can choose. The levels below
  READ COMMITTED take the paths of READ COMMITTED. -/
inductive IsolationLevel where
  | readCommitted
  | snapshotIsolation
  | serializable
deriving DecidableEq, Repr

/- Does a level read from versions? -/
def IsolationLevel.mvcc : IsolationLevel → Bool
| .readCommitted => false
| .snapshotIsolation => true
| .serializable => true

/- The commit timestamp of a version that has none. -/
def invalidTs : Int := -1

/- An older version of a row. -/
structure MvccVersion where
  record : RmRecord
  isDeleted : Bool
  commitTs : Int
  writerTxn : Option TxnId
deriving DecidableEq, Repr

/- The part of an entry that an abort can bring back. -/
structure EntryState where
  entryExists : Bool
  isDeleted : Bool
  commitTs : Int
  writerTxn : Option TxnId
  lastWriterTxn : Option TxnId
  hasHeadRecord : Bool
  headRecord : RmRecord
  -- the latest version first
  undoVersions : List MvccVersion
  rollbackRecord : RmRecord
deriving DecidableEq, Repr

/- The version entry of a row. -/
structure MvccEntry extends EntryState where
  rollbackDeletePhysical : Bool
  rollbackRestorePhysical : Bool
  hadEntryOnAbort : Bool
  restoreSnapshot : Option EntryState
deriving DecidableEq, Repr

/- An entry on which no rollback is pending. -/
def EntryState.toEntry (es : EntryState) : MvccEntry :=
  { es with
    rollbackDeletePhysical := false,
    rollbackRestorePhysical := false,
    hadEntryOnAbort := false,
    restoreSnapshot := none }

------------
-- Visibility
------------

namespace MvccVersion

/- What a reader of a version gets. -/
def value (v : MvccVersion) : Option RmRecord :=
  if v.isDeleted then none else some v.record

end MvccVersion

namespace EntryState

/- The newest version, given the record in the heap. -/
def head (es : EntryState) (physical : RmRecord) : Option RmRecord :=
  if ¬ es.entryExists ∨ es.isDeleted then
    none
  else
    some physical

/- The newest committed one among the older versions. -/
def undoLatest (es : EntryState) : Option RmRecord :=
  (es.undoVersions.find? (fun v => v.writerTxn = none)).bind
    MvccVersion.value

/- The newest older version committed by a timestamp. -/
def undoAt (es : EntryState) (ts : Int) : Option RmRecord :=
  (es.undoVersions.find?
    (fun v => v.writerTxn = none ∧ v.commitTs ≤ ts)).bind
      MvccVersion.value

/- `VisibleRecordLocked`. -/
def visibleRecord
    (es : EntryState)
    (physical : RmRecord)
    (mvcc : Bool)
    (txnId : TxnId)
    (startTs : Int) :
    Option RmRecord :=
  if ¬ mvcc then
    if es.writerTxn = some txnId then
      es.head physical
    else if es.writerTxn ≠ none then
      es.undoLatest
    else
      es.head physical
  else if es.writerTxn = some txnId then
    es.head physical
  else if es.writerTxn = none ∧ es.entryExists ∧
      es.commitTs ≤ startTs then
    if es.isDeleted then none else some physical
  else
    es.undoAt startTs

/- Does a snapshot miss the newest version? -/
def conflicts
    (es : EntryState)
    (txnId : TxnId)
    (startTs : Int) :
    Bool :=
  (es.writerTxn ≠ none ∧ es.writerTxn ≠ some txnId) ∨
    (es.writerTxn ≠ some txnId ∧ startTs < es.commitTs)

end EntryState

------------
-- Changes Of An Entry
------------

namespace MvccEntry

/- The entry that `EnsureMvccEntryLocked` makes. -/
def fresh : Option RmRecord → MvccEntry
| some physical =>
  EntryState.toEntry
    { entryExists := true,
      isDeleted := false,
      commitTs := 0,
      writerTxn := none,
      lastWriterTxn := none,
      hasHeadRecord := true,
      headRecord := physical,
      undoVersions := [],
      rollbackRecord := [] }
| none =>
  EntryState.toEntry
    { entryExists := false,
      isDeleted := false,
      commitTs := 0,
      writerTxn := none,
      lastWriterTxn := none,
      hasHeadRecord := false,
      headRecord := [],
      undoVersions := [],
      rollbackRecord := [] }

/- The first write of a transaction to a row: keep what an
  abort needs, and the old version unless the row is new. -/
def remember
    (entry : MvccEntry)
    (hadEntry : Bool)
    (oldRec : RmRecord)
    (insertedRecord : Bool) :
    MvccEntry :=
  { entry with
    hadEntryOnAbort := hadEntry,
    restoreSnapshot :=
      if hadEntry then some entry.toEntryState else none,
    rollbackDeletePhysical := insertedRecord,
    rollbackRestorePhysical := ¬ insertedRecord,
    rollbackRecord :=
      if insertedRecord then entry.rollbackRecord else oldRec,
    undoVersions :=
      if insertedRecord then
        entry.undoVersions
      else
        ⟨oldRec, entry.isDeleted, entry.commitTs,
          entry.writerTxn⟩ :: entry.undoVersions }

/- The entry of a row that a transaction has just written. -/
def setHead
    (entry : MvccEntry)
    (txnId : TxnId)
    (rec : RmRecord)
    (deleted : Bool) :
    MvccEntry :=
  { entry with
    entryExists := true,
    isDeleted := deleted,
    commitTs := invalidTs,
    writerTxn := some txnId,
    lastWriterTxn := some txnId,
    hasHeadRecord := true,
    headRecord := rec }

/- The entry after the commit of its writer. -/
def settle (entry : MvccEntry) (commitTs : Int) : MvccEntry :=
  { entry with
    writerTxn := none,
    commitTs := commitTs,
    rollbackDeletePhysical := false,
    rollbackRestorePhysical := false,
    restoreSnapshot := none,
    hadEntryOnAbort := false }

/- Drop the versions older than the one the watermark sees. -/
def keepFrom (watermark : Int) : List MvccVersion → List MvccVersion
| [] => []
| v :: rest =>
  if v.writerTxn = none ∧ v.commitTs ≤ watermark then
    [v]
  else
    v :: keepFrom watermark rest

/- Garbage collection of one entry; `none` removes it. -/
def collect (watermark : Int) (entry : MvccEntry) : Option MvccEntry :=
  if entry.writerTxn ≠ none then
    some entry
  else
    let undo :=
      if entry.commitTs ≤ watermark then
        []
      else
        keepFrom watermark entry.undoVersions
    if entry.entryExists ∧ entry.isDeleted ∧
        entry.commitTs ≤ watermark then
      none
    else if entry.entryExists ∧ ¬ entry.isDeleted ∧
        entry.commitTs ≤ watermark ∧ undo = [] then
      none
    else
      some { entry with undoVersions := undo }

/- Does garbage collection take the record out of the heap? -/
def dead (watermark : Int) (entry : MvccEntry) : Bool :=
  entry.writerTxn = none ∧ entry.entryExists ∧
    entry.isDeleted ∧ entry.commitTs ≤ watermark

/- The entry after an abort of its writer. -/
def rolledEntry (entry : MvccEntry) : Option MvccEntry :=
  if entry.hadEntryOnAbort then
    entry.restoreSnapshot.map EntryState.toEntry
  else
    none

/- Is the version that an abort brings back a deleted one? -/
def restoreDeleted (entry : MvccEntry) : Bool :=
  match entry.restoreSnapshot with
  | some es => es.isDeleted
  | none => false

end MvccEntry

end Rmdb
