import Rmdb.Lib.StepSystem
import Rmdb.Recovery.DbView

/-
  This file models one run of the server with READ COMMITTED
  transactions, at the grain of the single steps of the
  executors: heap change, lock, index change, log append and
  page stamp are separate steps, and the steps of different
  transactions interleave with log flushes, page write-backs
  and checkpoints.

  The place an insert gets is an argument: the allocator may
  hand out any free slot of an existing page or the first slot
  of a new one.  A lock request that meets a lock of another
  transaction throws, and a statement that throws leaves its
  transaction no choice but to abort.

  Key definitions include:
    * `Phase`
    * `Sys`
    * `Act`
    * `Sys.nextOp`
    * `Sys.next`
    * `Sys.step`
-/

namespace Rmdb

------------
-- Transactions
------------

/- What a transaction remembers of a write, for its abort. -/
inductive WriteRecord where
  | insertTuple (loc : Loc)
  | deleteTuple (loc : Loc) (oldRecord : RmRecord)
  | updateTuple (loc : Loc) (oldRecord : RmRecord)
deriving DecidableEq, Repr

/- How far the executor has come with one row. -/
inductive Stage where
  -- an insert has its row in the heap, but not the row lock
  | placed
  | locked
  | indexed
  -- an update or a delete has locked and read its row
  | read
  | logged (lsn : Int)
  | stamped (lsn : Int)
  | unindexed (lsn : Int)
  -- an update has changed the heap, but not added new keys
  | applied (lsn : Int)
deriving DecidableEq, Repr

/- What a transaction is doing. -/
inductive Phase where
  | fresh
  | idle
  | op (d : DataRecord) (st : Stage)
  -- a statement threw: only an abort can follow
  | failed
  | committing (lsn : Int)
  | commitFlushed
  | committed
  | aborting (hasWrites : Bool)
  | unlocked (hasWrites : Bool)
  | abortLogged (lsn : Int)
  | aborted
deriving DecidableEq, Repr

structure Txn where
  phase : Phase
  -- the latest write first
  writeSet : List WriteRecord
  prevLsn : Int
deriving DecidableEq, Repr

/- The server: the tables as the buffer pool holds them, the
  files on disk, the log with the number of its records that
  are in the log file, the transactions, the row locks and the
  registered owners of physical inserts. -/
structure Sys where
  db : Db
  disk : Db
  log : List LogRecord
  flushed : Nat
  nextTxnId : Nat
  txn : TxnId → Txn
  locks : Loc → Option TxnId
  physicalInsertOwners : Loc → Option TxnId

/- The single steps of a run. -/
inductive Act where
  | begin
  | startInsert (t : TxnId) (x : Loc) (rec : RmRecord)
  | startUpdate (t : TxnId) (x : Loc) (newRec : RmRecord)
  | startDelete (t : TxnId) (x : Loc)
  -- lock a row that the statement then passes over
  | lockRow (t : TxnId) (x : Loc)
  -- a statement throws before it changes anything
  | throwStatement (t : TxnId)
  -- a placed insert meets a shared lock of a reader
  | lockConflict (t : TxnId)
  | startCommit (t : TxnId)
  | startAbort (t : TxnId)
  | next (t : TxnId)
  | flushLog
  | flushPage (P : PageId)
  | flushIndex (tab : TabName) (i : Nat) (entries : List (IndexKey × Rid))
  | checkpoint
deriving DecidableEq, Repr

namespace Sys

------------
-- Parts Of A Step
------------

def phase (s : Sys) (t : TxnId) : Phase :=
  (s.txn t).phase

def setTxn (s : Sys) (t : TxnId) (txn : Txn) : Sys :=
  { s with txn := Function.update s.txn t txn }

def setPhase (s : Sys) (t : TxnId) (ph : Phase) : Sys :=
  s.setTxn t { s.txn t with phase := ph }

/- The LSN the next log record gets. -/
def nextLsn (s : Sys) : Int :=
  s.log.length

/- Append a log record of a transaction. -/
def addLogRecord (s : Sys) (t : TxnId) (body : LogBody) : Sys :=
  { s with
    log := s.log ++
      [⟨s.nextLsn, t, (s.txn t).prevLsn, body⟩],
    txn := Function.update s.txn t
      { s.txn t with prevLsn := s.nextLsn } }

/- `flush_log_to_disk` for a given LSN. -/
def flushLogToDisk (s : Sys) (lsn : Int) : Sys :=
  if s.flushed ≤ lsn then
    { s with flushed := s.log.length }
  else
    s

def setTable (s : Sys) (tab : TabName) (t : Table) : Sys :=
  { s with db := Function.update s.db tab t }

def setLock (s : Sys) (x : Loc) (owner : Option TxnId) : Sys :=
  { s with locks := Function.update s.locks x owner }

/- Can a transaction get the exclusive lock of a row? -/
def lockFree (s : Sys) (t : TxnId) (x : Loc) : Prop :=
  s.locks x = none ∨ s.locks x = some t

instance (s : Sys) (t : TxnId) (x : Loc) : Decidable (s.lockFree t x) := by
  unfold lockFree
  infer_instance

/- Release every lock of a transaction. -/
def unlockAll (s : Sys) (t : TxnId) : Sys :=
  { s with
    locks := fun x =>
      if s.locks x = some t then none else s.locks x }

def registerPhysicalInsert (s : Sys) (t : TxnId) (x : Loc) : Sys :=
  { s with
    physicalInsertOwners :=
      Function.update s.physicalInsertOwners x (some t) }

def unregisterPhysicalInsert (s : Sys) (t : TxnId) (x : Loc) : Sys :=
  if s.physicalInsertOwners x = some t then
    { s with
      physicalInsertOwners :=
        Function.update s.physicalInsertOwners x none }
  else
    s

def ownsPhysicalInsert (s : Sys) (t : TxnId) (x : Loc) : Prop :=
  s.physicalInsertOwners x = some t

instance
    (s : Sys)
    (t : TxnId)
    (x : Loc) :
    Decidable (s.ownsPhysicalInsert t x) := by
  unfold ownsPhysicalInsert
  infer_instance

def appendWriteRecord (s : Sys) (t : TxnId) (w : WriteRecord) : Sys :=
  s.setTxn t
    { s.txn t with writeSet := w :: (s.txn t).writeSet }

end Sys

------------
-- Index Changes Of The Executors
------------

namespace Table

/- Add the keys of a new row; a taken key rejects the row. -/
def insertKeys
    (t : Table)
    (rec : RmRecord)
    (rid : Rid) :
    Option Table := do
  let indexes ← t.indexes.mapM (fun ix =>
    ix.insertEntry (ix.keyOf rec) rid)
  some { t with indexes := indexes }

/- Remove the old keys that an update changes. -/
def deleteChangedKeys (t : Table) (oldRec newRec : RmRecord) : Table :=
  { t with
    indexes := t.indexes.map (fun ix =>
      if ix.keyOf oldRec = ix.keyOf newRec then
        ix
      else
        ix.deleteEntry (ix.keyOf oldRec)) }

/- Add the new keys of an update; a taken key rejects it. -/
def insertChangedKeys
    (t : Table)
    (oldRec newRec : RmRecord)
    (rid : Rid) :
    Option Table := do
  let indexes ← t.indexes.mapM (fun ix =>
    if ix.keyOf oldRec = ix.keyOf newRec then
      some ix
    else
      ix.insertEntry (ix.keyOf newRec) rid)
  some { t with indexes := indexes }

section Keys

variable {t t' : Table} {oldRec rec : RmRecord} {rid : Rid}

theorem insertKeys_eq_some (hRun : t.insertKeys rec rid = some t') :
    ∃ indexes, t.indexes.mapM (fun ix =>
      ix.insertEntry (ix.keyOf rec) rid) = some indexes ∧
      t' = { t with indexes := indexes } := by
  unfold insertKeys at hRun
  rw [Option.bind_eq_bind, Option.bind_eq_some_iff] at hRun
  rcases hRun with ⟨indexes, hMap, ⟨⟩⟩
  exact ⟨indexes, hMap, rfl⟩

theorem insertChangedKeys_eq_some
    (hRun : t.insertChangedKeys oldRec rec rid = some t') :
    ∃ indexes, t.indexes.mapM (fun ix => if ix.keyOf oldRec =
      ix.keyOf rec then some ix else
        ix.insertEntry (ix.keyOf rec) rid) = some indexes ∧
          t' = { t with indexes := indexes } := by
  unfold insertChangedKeys at hRun
  rw [Option.bind_eq_bind, Option.bind_eq_some_iff] at hRun
  rcases hRun with ⟨indexes, hMap, ⟨⟩⟩
  exact ⟨indexes, hMap, rfl⟩

end Keys

/- Put back the old keys of a rejected update. -/
def restoreChangedKeys
    (t : Table)
    (oldRec newRec : RmRecord)
    (rid : Rid) :
    Table :=
  { t with
    indexes := t.indexes.map (fun ix =>
      if ix.keyOf oldRec = ix.keyOf newRec then
        ix
      else
        ix.insertIfAbsent (ix.keyOf oldRec) rid) }

/- The table with room for a new row at a place the allocator
  may hand out: a free slot, or the first slot of a new page. -/
def allocate (t : Table) (rid : Rid) : Option Table :=
  if ¬ t.HasSlot rid then
    none
  else if t.HasPage rid.pageNo then
    if (t.record rid).isNone then some t else none
  else if rid.pageNo = t.numPages ∧ rid.slotNo = 0 ∧
      firstRecordPage ≤ rid.pageNo then
    some t.createNewPage
  else
    none

/- What the allocator hands out. -/
theorem allocate_eq_some
    {t t' : Table}
    {rid : Rid}
    (hRun : t.allocate rid = some t') :
    firstRecordPage ≤ rid.pageNo ∧ t.HasSlot rid ∧ t.record rid = none ∧
      t'.HasPage rid.pageNo ∧
      t'.numRecordsPerPage = t.numRecordsPerPage ∧
      (∀ k, t'.image k = t.image k) ∧
      t'.indexes = t.indexes ∧ t.numPages ≤ t'.numPages := by
  unfold allocate at hRun
  split at hRun
  · cases hRun
  · rename_i hSlot
    rw [not_not] at hSlot
    split at hRun
    · rename_i hPage
      split at hRun
      · rename_i hFree
        cases hRun
        exact ⟨hPage.1, hSlot, by simpa using hFree, hPage, rfl, fun _ => rfl, rfl, le_refl _⟩
      · cases hRun
    · rename_i hPage
      split at hRun
      · rename_i hNew
        cases hRun
        have hMore : t.createNewPage.numPages = t.numPages + 1 := rfl
        refine ⟨hNew.2.2, hSlot, ?_, ⟨hNew.2.2, by omega⟩, rfl,
          image_createNewPage t, rfl, by omega⟩
        simp [record, image_of_not_hasPage hPage, blankPage]
      · cases hRun

end Table

namespace Sys

------------
-- Steps Of The Executors
------------

/- Take a row that the transaction put there out of the heap. -/
def takeOut (s : Sys) (t : TxnId) (x : Loc) : Sys :=
  if s.ownsPhysicalInsert t x ∧
      (s.db x.tab).isRecord x.rid then
    match (s.db x.tab).deleteRecord x.rid with
    | .ok tab => s.setTable x.tab tab
    | .error _ => s
  else
    s

/- The handler of a rejected insert: take the row out of the
  heap again and forget who put it there. -/
def removePlaced (s : Sys) (t : TxnId) (x : Loc) : Sys :=
  ((s.takeOut t x).unregisterPhysicalInsert t x).setPhase t
    .failed

/- Place the row of an insert in the heap. -/
def startInsert
    (s : Sys)
    (t : TxnId)
    (x : Loc)
    (rec : RmRecord) :
    Option Sys := do
  if s.phase t ≠ .idle then
    none
  else
    let tab ← (s.db x.tab).allocate x.rid
    let s := s.setTable x.tab (tab.setSlot x.rid (some rec))
    let s := s.registerPhysicalInsert t x
    let s := s.appendWriteRecord t (.insertTuple x)
    some (s.setPhase t (.op (.insert x rec) .placed))

/- Lock a row; without the lock the statement throws. -/
def lockRow (s : Sys) (t : TxnId) (x : Loc) : Option Sys :=
  if s.phase t ≠ .idle then
    none
  else if s.lockFree t x then
    some (s.setLock x (some t))
  else
    some (s.setPhase t .failed)

/- Lock and read the row of an update or a delete, and go on
  with the change unless the row is gone. -/
def startChange
    (s : Sys)
    (t : TxnId)
    (x : Loc)
    (change : RmRecord → DataRecord) :
    Option Sys := do
  let s₁ ← s.lockRow t x
  if s₁.phase t ≠ .idle then
    some s₁
  else
    match s₁.db.record x with
    | some oldRec =>
      some (s₁.setPhase t (.op (change oldRec) .read))
    | none => some s₁

/- Append the data record of a row. -/
def logOp (s : Sys) (t : TxnId) (d : DataRecord) : Sys :=
  (s.addLogRecord t (.data d)).setPhase t
    (.op d (.logged s.nextLsn))

/- Stamp the page of a row with the LSN of its record. -/
def stampOp
    (s : Sys)
    (t : TxnId)
    (d : DataRecord)
    (lsn : Int)
    (ph : Phase) :
    Option Sys :=
  match (s.db d.tab).setPageLsn d.rid lsn with
  | .ok tab => some ((s.setTable d.tab tab).setPhase t ph)
  | .error _ => none

/- The next step of an insert. -/
def nextInsert
    (s : Sys)
    (t : TxnId)
    (x : Loc)
    (rec : RmRecord) :
    Stage → Option Sys
| .placed =>
  if s.lockFree t x then
    some ((s.setLock x (some t)).setPhase t
      (.op (.insert x rec) .locked))
  else
    some (s.removePlaced t x)
| .locked =>
  match (s.db x.tab).insertKeys rec x.rid with
  | some tab =>
    some ((s.setTable x.tab tab).setPhase t
      (.op (.insert x rec) .indexed))
  | none => some (s.removePlaced t x)
| .indexed => some (s.logOp t (.insert x rec))
| .logged lsn => s.stampOp t (.insert x rec) lsn .idle
| _ => none

/- The next step of an update. -/
def nextUpdate
    (s : Sys)
    (t : TxnId)
    (x : Loc)
    (oldRec newRec : RmRecord) :
    Stage → Option Sys
| .read => some (s.logOp t (.update x oldRec newRec))
| .logged lsn =>
  s.stampOp t (.update x oldRec newRec) lsn
    (.op (.update x oldRec newRec) (.stamped lsn))
| .stamped lsn =>
  some ((s.setTable x.tab
      ((s.db x.tab).deleteChangedKeys oldRec newRec)).setPhase
    t (.op (.update x oldRec newRec) (.unindexed lsn)))
| .unindexed lsn =>
  match (s.db x.tab).updateRecord x.rid newRec with
  | .ok tab =>
    some ((s.setTable x.tab tab).setPhase t
      (.op (.update x oldRec newRec) (.applied lsn)))
  | .error _ => some (s.setPhase t .failed)
| .applied _ =>
  match (s.db x.tab).insertChangedKeys oldRec newRec
      x.rid with
  | some tab =>
    some (((s.setTable x.tab tab).appendWriteRecord t
      (.updateTuple x oldRec)).setPhase t .idle)
  | none =>
    -- a taken key: the heap and the old keys come back
    match (s.db x.tab).updateRecord x.rid oldRec with
    | .ok tab =>
      some ((s.setTable x.tab
        (tab.restoreChangedKeys oldRec newRec
          x.rid)).setPhase t .failed)
    | .error _ => some (s.setPhase t .failed)
| _ => none

/- The next step of a delete. -/
def nextDelete
    (s : Sys)
    (t : TxnId)
    (x : Loc)
    (rec : RmRecord) :
    Stage → Option Sys
| .read => some (s.logOp t (.delete x rec))
| .logged lsn =>
  s.stampOp t (.delete x rec) lsn
    (.op (.delete x rec) (.stamped lsn))
| .stamped lsn =>
  some ((s.setTable x.tab
      ((s.db x.tab).deleteIndexes rec)).setPhase t
    (.op (.delete x rec) (.unindexed lsn)))
| .unindexed _ =>
  match (s.db x.tab).deleteRecord x.rid with
  | .ok tab =>
    some (((s.setTable x.tab tab).appendWriteRecord t
      (.deleteTuple x rec)).setPhase t .idle)
  | .error _ =>
    some ((s.setTable x.tab
      ((s.db x.tab).insertIndexes rec x.rid)).setPhase t
        .failed)
| _ => none

/- The next step of the row a transaction works on. -/
def nextOp
    (s : Sys)
    (t : TxnId)
    (st : Stage) :
    DataRecord → Option Sys
| .insert x rec => s.nextInsert t x rec st
| .update x oldRec newRec => s.nextUpdate t x oldRec newRec st
| .delete x rec => s.nextDelete t x rec st

------------
-- Commit And Abort
------------

/- Forget the registered inserts of a write set. -/
def unregisterAll (s : Sys) (t : TxnId) : List WriteRecord → Sys
| [] => s
| .insertTuple x :: rest =>
  (s.unregisterPhysicalInsert t x).unregisterAll t rest
| _ :: rest => s.unregisterAll t rest

/- Begin to commit: log and later flush a commit record. -/
def startCommit (s : Sys) (t : TxnId) : Option Sys :=
  if s.phase t ≠ .idle then
    none
  else if (s.txn t).writeSet = [] then
    some (s.setPhase t .commitFlushed)
  else
    some ((s.addLogRecord t .commit).setPhase t
      (.committing s.nextLsn))

/- The end of a commit: forget the writes, drop the locks. -/
def finishCommit (s : Sys) (t : TxnId) : Sys :=
  let s := s.unregisterAll t (s.txn t).writeSet
  let s := s.unlockAll t
  s.setTxn t
    { s.txn t with phase := .committed, writeSet := [] }

def startAbort (s : Sys) (t : TxnId) : Option Sys :=
  if s.phase t = .idle ∨ s.phase t = .failed then
    some (s.setPhase t
      (.aborting (decide ((s.txn t).writeSet ≠ []))))
  else
    none

/- Take back one write. An exception inside the abort leaves
  the transaction where it is. -/
def rollbackWrite
    (s : Sys)
    (t : TxnId) :
    WriteRecord → Option Sys
| .insertTuple x =>
  if s.ownsPhysicalInsert t x then
    match (s.db x.tab).getRecord x.rid with
    | .ok rec =>
      match ((s.db x.tab).deleteIndexes rec).deleteRecord
          x.rid with
      | .ok tab =>
        let s := s.setTable x.tab tab
        let s :=
          if s.locks x = some t then
            s.setLock x none
          else
            s
        some (s.unregisterPhysicalInsert t x)
      | .error _ => none
    | .error _ => none
  else
    some (s.unregisterPhysicalInsert t x)
| .deleteTuple x oldRec =>
  match (s.db x.tab).insertRecordAt x.rid oldRec with
  | .ok tab =>
    some (s.setTable x.tab
      (tab.insertIndexes oldRec x.rid))
  | .error _ => none
| .updateTuple x oldRec =>
  match (s.db x.tab).getRecord x.rid with
  | .ok rec =>
    match ((s.db x.tab).deleteIndexes rec).updateRecord
        x.rid oldRec with
    | .ok tab =>
      some (s.setTable x.tab
        (tab.insertIndexes oldRec x.rid))
    | .error _ => none
  | .error _ => none

def setWriteSet (s : Sys) (t : TxnId) (ws : List WriteRecord) : Sys :=
  s.setTxn t { s.txn t with writeSet := ws }

/- The next step of an abort that still holds its locks. -/
def nextAbort (s : Sys) (t : TxnId) (hasWrites : Bool) : Option Sys :=
  match (s.txn t).writeSet with
  | [] => some ((s.unlockAll t).setPhase t (.unlocked hasWrites))
  | w :: rest => (s.setWriteSet t rest).rollbackWrite t w

/- The next step of a transaction that is under way. -/
def next (s : Sys) (t : TxnId) : Option Sys :=
  match s.phase t with
  | .op d st => s.nextOp t st d
  | .committing lsn =>
    some ((s.flushLogToDisk lsn).setPhase t .commitFlushed)
  | .commitFlushed => some (s.finishCommit t)
  | .aborting hasWrites => s.nextAbort t hasWrites
  | .unlocked true =>
    some ((s.addLogRecord t .abort).setPhase t
      (.abortLogged s.nextLsn))
  | .unlocked false => some (s.setPhase t .aborted)
  | .abortLogged lsn =>
    some ((s.flushLogToDisk lsn).setPhase t .aborted)
  | _ => none

------------
-- Steps Of The Server
------------

/- A new transaction. -/
def begin (s : Sys) : Sys :=
  { s with
    nextTxnId := s.nextTxnId + 1,
    txn := Function.update s.txn s.nextTxnId
      ⟨.idle, [], invalidLsn⟩ }

/- A placed insert meets a lock that is not an exclusive one. -/
def lockConflict (s : Sys) (t : TxnId) : Option Sys :=
  match s.phase t with
  | .op (.insert x _) .placed => some (s.removePlaced t x)
  | _ => none

/- Write a page back, after the log up to its LSN. -/
def flushPage (s : Sys) (P : PageId) : Option Sys :=
  if (s.db P.tab).HasPage P.pageNo then
    let p := (s.db P.tab).page P.pageNo
    let s := s.flushLogToDisk p.lsn
    some { s with
      disk := Function.update s.disk P.tab
        ((s.disk P.tab).setPage P.pageNo p) }
  else
    none

/- Write pages of an index back.  The tree on disk is then made
  of pages of different times, so the entries that a reader
  finds in it are an argument. -/
def flushIndex
    (s : Sys)
    (tab : TabName)
    (i : Nat)
    (entries : List (IndexKey × Rid)) :
    Option Sys := do
  let old ← (s.disk tab).indexes[i]?
  some { s with
    disk := Function.update s.disk tab
      { s.disk tab with
        indexes := (s.disk tab).indexes.set i
          { old with
            entries := fun key => entries.lookup key } } }

/- `create_static_checkpoint`. -/
def checkpoint (s : Sys) : Sys :=
  { s with
    log := s.log ++
      [⟨s.nextLsn, invalidTxnId, invalidLsn, .checkpoint⟩],
    flushed := s.log.length + 1,
    disk := s.db }

def step (s : Sys) :
    Act → Option Sys
| .begin => some s.begin
| .startInsert t x rec => s.startInsert t x rec
| .startUpdate t x newRec =>
  s.startChange t x (fun oldRec => .update x oldRec newRec)
| .startDelete t x => s.startChange t x (.delete x)
| .lockRow t x => s.lockRow t x
| .throwStatement t =>
  if s.phase t = .idle then
    some (s.setPhase t .failed)
  else
    none
| .lockConflict t => s.lockConflict t
| .startCommit t => s.startCommit t
| .startAbort t => s.startAbort t
| .next t => s.next t
| .flushLog => some { s with flushed := s.log.length }
| .flushPage P => s.flushPage P
| .flushIndex tab i entries => s.flushIndex tab i entries
| .checkpoint => some s.checkpoint

/- The state before the first transaction: empty tables on
  disk and in the buffer pool, and an empty log. -/
def init (db : Db) : Sys :=
  { db := db,
    disk := db,
    log := [],
    flushed := 0,
    nextTxnId := 0,
    txn := fun _ => ⟨.fresh, [], invalidLsn⟩,
    locks := fun _ => none,
    physicalInsertOwners := fun _ => none }

end Sys

/- Tables as `create_table` leaves them, with their indexes. -/
def Db.Empty (db : Db) : Prop :=
  ∀ tab,
    (db tab).numPages = firstRecordPage ∧
      ∀ ix ∈ (db tab).indexes, ∀ key, ix.entries key = none

------------
-- Orderly Steps
------------

/- The transactions that have begun. -/
def Sys.begun (s : Sys) : List TxnId :=
  (List.range s.nextTxnId).map (fun n => (n : TxnId))

namespace Phase

/- The row an insert has placed without the row lock. -/
def placed? : Phase → Option Loc
| .op (.insert x _) .placed => some x
| _ => none

/- The page on which the next step logs a change. -/
def logs? : Phase → Option PageId
| .op d .indexed => some d.loc.page
| .op d .read => some d.loc.page
| _ => none

/- The page of a change that is logged and not stamped. -/
def unstamped? : Phase → Option PageId
| .op d (.logged _) => some d.loc.page
| _ => none

/- The page of a torn change: an insert is in the heap and not
  stamped, or an update or a delete is stamped and not in the
  heap. -/
def torn? : Phase → Option PageId
| .op (.insert x _) _ => some x.page
| .op d (.stamped _) => some d.loc.page
| .op d (.unindexed _) => some d.loc.page
| _ => none

end Phase

namespace Sys

/- A step is orderly if it reads no row that an insert has
  placed without the row lock, logs no change on a page with
  an unstamped change, and writes no page back that carries a
  torn change. -/
def Orderly (s : Sys) :
    Act → Prop
| .startUpdate _ x _ =>
  ∀ u ∈ s.begun, (s.phase u).placed? ≠ some x
| .startDelete _ x =>
  ∀ u ∈ s.begun, (s.phase u).placed? ≠ some x
| .next t =>
  ∀ P ∈ (s.phase t).logs?, ∀ u ∈ s.begun,
    (s.phase u).unstamped? ≠ some P
| .flushPage P =>
  ∀ u ∈ s.begun, (s.phase u).torn? ≠ some P
| .checkpoint =>
  ∀ u ∈ s.begun, (s.phase u).torn? = none
| _ => True

instance (s : Sys) (a : Act) : Decidable (s.Orderly a) := by
  cases a <;> unfold Orderly <;> infer_instance

end Sys

end Rmdb
