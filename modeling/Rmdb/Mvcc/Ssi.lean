import Rmdb.Mvcc.Entry

/-
  This file models the state the transaction manager keeps for
  SERIALIZABLE transactions: the predicate reads, the rw
  edges with their two indexes, and the finish timestamps.

  The manager walks over hash maps, whose order is not fixed;
  that order is an argument here.  A call that throws leaves
  the edges it has added, so an error carries the state.

  Key definitions include:
    * `PredicateRead`
    * `Ssi`
    * `Ssi.hasDangerousStructure`
    * `Ssi.addRwEdge`
    * `Ssi.checkSerializableWrite`
    * `Ssi.registerSerializableRead`
    * `Ssi.cleanup`
    * `Ssi.clearTxn`
-/

namespace Rmdb

/- A predicate read: its conditions as the test that
  `eval_txn_conds` makes of a record, and the rows it
  returned. -/
structure PredicateRead where
  txnId : TxnId
  tabName : TabName
  conds : RmRecord → Bool
  recordKeys : List Loc

/- Does a write fall under a predicate read? -/
def PredicateRead.hitBy
    (read : PredicateRead)
    (x : Loc)
    (oldRec newRec : Option RmRecord) :
    Bool :=
  read.tabName = x.tab ∧
    (x ∈ read.recordKeys ∨
      (oldRec.any read.conds ∨ newRec.any read.conds))

structure Ssi where
  serializableReads : List PredicateRead
  rwEdges : List (TxnId × TxnId)
  rwIn : TxnId → List TxnId
  rwOut : TxnId → List TxnId
  serTxnStartTs : TxnId → Option Int
  serTxnFinishTs : TxnId → Option Int

namespace Ssi

def init : Ssi :=
  { serializableReads := [],
    rwEdges := [],
    rwIn := fun _ => [],
    rwOut := fun _ => [],
    serTxnStartTs := fun _ => none,
    serTxnFinishTs := fun _ => none }

------------
-- Edges
------------

/- Do two neighbours of a pivot make it dangerous? -/
def dangerous (s : Ssi) (tin tout : TxnId) : Bool :=
  if tin = tout then
    true
  else
    match s.serTxnFinishTs tout with
    | none => false
    | some toutFinish =>
      match s.serTxnFinishTs tin with
      | none => true
      | some tinFinish => toutFinish < tinFinish

def hasDangerousStructure (s : Ssi) (pivot : TxnId) : Bool :=
  (s.rwIn pivot).any (fun tin =>
    (s.rwOut pivot).any (fun tout => s.dangerous tin tout))

/- Record an edge in the edge set and in its two indexes. -/
def insertEdge (s : Ssi) (reader writer : TxnId) : Ssi :=
  { s with
    rwEdges := (reader, writer) :: s.rwEdges,
    rwOut := Function.update s.rwOut reader
      ((s.rwOut reader).insert writer),
    rwIn := Function.update s.rwIn writer
      ((s.rwIn writer).insert reader) }

/- `AddRwEdgeLocked`: a new edge that completes a dangerous
  structure throws. -/
def addRwEdge (s : Ssi) (reader writer : TxnId) : Except Ssi Ssi :=
  if reader = writer then
    .ok s
  else if (reader, writer) ∈ s.rwEdges then
    .ok s
  else
    let s := s.insertEdge reader writer
    if s.hasDangerousStructure reader ∨
        s.hasDangerousStructure writer then
      .error s
    else
      .ok s

def remember (s : Ssi) (txnId : TxnId) (startTs : Int) : Ssi :=
  { s with
    serTxnStartTs := Function.update s.serTxnStartTs txnId
      (some ((s.serTxnStartTs txnId).getD startTs)) }

------------
-- Writes And Reads
------------

/- The transactions with registered reads. -/
def readers (s : Ssi) : List TxnId :=
  (s.serializableReads.map PredicateRead.txnId).dedup

/- The edge of one reader that a write adds. Several reads of
  the reader add the same edge, and the first one counts. -/
def checkReader
    (writer : TxnId)
    (startTs : Int)
    (x : Loc)
    (oldRec newRec : Option RmRecord)
    (s : Ssi)
    (reader : TxnId) :
    Except Ssi Ssi :=
  if reader = writer then
    .ok s
  else if (s.serTxnFinishTs reader).any (· ≤ startTs) then
    .ok s
  else if s.serializableReads.any (fun read =>
      read.txnId = reader ∧ read.hitBy x oldRec newRec) then
    s.addRwEdge reader writer
  else
    .ok s

/- `CheckSerializableWriteLocked`, the readers in some order. -/
def checkSerializableWrite
    (s : Ssi)
    (writer : TxnId)
    (startTs : Int)
    (x : Loc)
    (oldRec newRec : Option RmRecord)
    (order : List TxnId) :
    Except Ssi Ssi :=
  order.foldlM
    (checkReader writer startTs x oldRec newRec)
    (s.remember writer startTs)

/- Does an entry hold a version that a snapshot misses and
  that falls under the read? -/
def misses
    (read : PredicateRead)
    (startTs : Int)
    (x : Loc)
    (entry : EntryState) :
    Bool :=
  ((entry.writerTxn ≠ none ∧
      entry.writerTxn ≠ some read.txnId) ∨
    (entry.writerTxn = none ∧ startTs < entry.commitTs)) ∧
  (x ∈ read.recordKeys ∨
    (entry.entryExists ∧ ¬ entry.isDeleted ∧
      read.conds entry.headRecord) ∨
    (entry.undoAt startTs).any read.conds)

/- The edge of one version entry that a read adds. -/
def checkEntry
    (read : PredicateRead)
    (startTs : Int)
    (versions : Loc → Option MvccEntry)
    (s : Ssi)
    (x : Loc) :
    Except Ssi Ssi :=
  match versions x with
  | none => .ok s
  | some entry =>
    if x.tab ≠ read.tabName ∨ ¬ entry.hasHeadRecord then
      .ok s
    else
      match entry.writerTxn.or entry.lastWriterTxn with
      | none => .ok s
      | some writer =>
        if writer = read.txnId then
          .ok s
        else if misses read startTs x
            entry.toEntryState then
          s.addRwEdge read.txnId writer
        else
          .ok s

/- `RegisterSerializableRead`, the entries in some order. -/
def registerSerializableRead
    (s : Ssi)
    (read : PredicateRead)
    (startTs : Int)
    (versions : Loc → Option MvccEntry)
    (order : List Loc) :
    Except Ssi Ssi := do
  let s ← order.foldlM
    (checkEntry read startTs versions)
    (s.remember read.txnId startTs)
  .ok { s with
    serializableReads := s.serializableReads ++ [read] }

------------
-- The End Of A Transaction
------------

/- Note the finish timestamp of a committed transaction. -/
def finish (s : Ssi) (txnId : TxnId) (commitTs : Int) : Ssi :=
  { s with
    serTxnFinishTs :=
      Function.update s.serTxnFinishTs txnId (some commitTs) }

/- Remove everything about some transactions. -/
def forget (s : Ssi) (gone : TxnId → Bool) : Ssi :=
  { serializableReads :=
      s.serializableReads.filter (fun r => ¬ gone r.txnId),
    rwEdges :=
      s.rwEdges.filter (fun e => ¬ gone e.1 ∧ ¬ gone e.2),
    rwIn := fun t =>
      if gone t then
        []
      else
        (s.rwIn t).filter (fun u => ¬ gone u),
    rwOut := fun t =>
      if gone t then
        []
      else
        (s.rwOut t).filter (fun u => ¬ gone u),
    serTxnStartTs := fun t =>
      if gone t then none else s.serTxnStartTs t,
    serTxnFinishTs := fun t =>
      if gone t then none else s.serTxnFinishTs t }

/- `CleanupSerializableStateLocked`. -/
def cleanup (s : Ssi) (watermark : Int) : Ssi :=
  s.forget (fun t =>
    (s.serTxnFinishTs t).any (· ≤ watermark))

/- `ClearTxnStateLocked`. -/
def clearTxn (s : Ssi) (txnId : TxnId) : Ssi :=
  s.forget (fun t => t = txnId)

end Ssi

end Rmdb
