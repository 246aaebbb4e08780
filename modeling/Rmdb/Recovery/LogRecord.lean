import Rmdb.Record.Table

/-
  This file models the records of the write-ahead log.

  A data record names one row of one table and carries the
  images that its type stores: the new row for an insert, the
  old row for a delete and both for an update.

  Key definitions include:
    * `Loc`
    * `DataRecord`
    * `LogRecord`
    * `DataRecord.entry`
-/

namespace Rmdb

/- The place of a row: a table and a record identifier. -/
structure Loc where
  tab : TabName
  rid : Rid
deriving DecidableEq, Repr

/- A transaction identifier. -/
abbrev TxnId := Int

/- The identifier of no transaction. -/
def invalidTxnId : TxnId := -1

/- The records that describe a change of one row. -/
inductive DataRecord where
  | insert (loc : Loc) (insertValue : RmRecord)
  | delete (loc : Loc) (deleteValue : RmRecord)
  | update (loc : Loc) (oldValue newValue : RmRecord)
deriving DecidableEq, Repr

/- What a log record says. -/
inductive LogBody where
  | data (d : DataRecord)
  | begin
  | commit
  | abort
  | checkpoint
deriving DecidableEq, Repr

/- A log record with its header fields. -/
structure LogRecord where
  lsn : Int
  tid : TxnId
  prevLsn : Int
  body : LogBody
deriving DecidableEq, Repr

namespace DataRecord

/- The row a data record is about. -/
def loc : DataRecord → Loc
| .insert loc _ => loc
| .delete loc _ => loc
| .update loc _ _ => loc

/- The row before the change. -/
def before : DataRecord → Option RmRecord
| .insert _ _ => none
| .delete _ deleteValue => some deleteValue
| .update _ oldValue _ => some oldValue

/- The row after the change. -/
def after : DataRecord → Option RmRecord
| .insert _ insertValue => some insertValue
| .delete _ _ => none
| .update _ _ newValue => some newValue

def tab (d : DataRecord) : TabName :=
  d.loc.tab

def rid (d : DataRecord) : Rid :=
  d.loc.rid

/- The data record as an entry of its page. -/
def entry
    (d : DataRecord)
    (lsn : Int)
    (winner : Bool) :
    PageRecovery.Entry Int (Option RmRecord) :=
  ⟨lsn, d.rid.slotNo, d.before, d.after, winner⟩

@[simp] theorem entry_lsn
    (d : DataRecord)
    (lsn : Int)
    (winner : Bool) :
    (d.entry lsn winner).lsn = lsn := rfl

@[simp] theorem entry_slot
    (d : DataRecord)
    (lsn : Int)
    (winner : Bool) :
    (d.entry lsn winner).slot = d.rid.slotNo := rfl

@[simp] theorem entry_before
    (d : DataRecord)
    (lsn : Int)
    (winner : Bool) :
    (d.entry lsn winner).before = d.before := rfl

@[simp] theorem entry_after
    (d : DataRecord)
    (lsn : Int)
    (winner : Bool) :
    (d.entry lsn winner).after = d.after := rfl

@[simp] theorem entry_winner
    (d : DataRecord)
    (lsn : Int)
    (winner : Bool) :
    (d.entry lsn winner).winner = winner := rfl

end DataRecord

namespace LogRecord

/- The change a log record describes, if it describes one. -/
def data? (r : LogRecord) : Option DataRecord :=
  match r.body with
  | .data d => some d
  | _ => none

theorem data?_eq_some
    {r : LogRecord}
    {d : DataRecord} :
    r.data? = some d ↔ r.body = .data d := by
  unfold data?
  cases r.body <;> simp

end LogRecord

/- The records of a log that has grown by one. -/
theorem mem_concat
    {log : List LogRecord}
    {r r' : LogRecord} :
    r ∈ log ++ [r'] ↔ r ∈ log ∨ r = r' := by
  rw [List.mem_append, List.mem_singleton]

theorem exists_mem_concat
    {log : List LogRecord}
    {r : LogRecord}
    {p : LogRecord → Prop} :
    (∃ a ∈ log ++ [r], p a) ↔ (∃ a ∈ log, p a) ∨ p r := by
  simp only [mem_concat, or_and_right, exists_or, exists_eq_left]

end Rmdb
