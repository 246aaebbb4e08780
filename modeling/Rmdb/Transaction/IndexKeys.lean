import Rmdb.Lib.KeyMap
import Rmdb.Transaction.Sys

/-
  This file looks at the indexes of a table by position: the
  entries of an index, the key under which it should have a
  row, and what the executors' calls do to both.

  Key definitions include:
    * `Table.entry`
    * `Table.holder`
    * `Db.IndexExact`
    * `Table.Shifts`

  Key theorems include:
    * `Table.shifts_insertKeys`
    * `Table.shifts_deleteIndexes`
-/

namespace Rmdb

open Function

------------
-- Indexes By Position
------------

/- The key of a row in an index with some columns. -/
def keyIn
    (cols : Option (List ColMeta))
    (record : Option RmRecord) :
    Option IndexKey :=
  cols.bind (fun c => record.map (makeIndexKey · c))

namespace Table

/- What an index of the table says about a key. -/
def entry (t : Table) (i : Nat) (key : IndexKey) : Option Rid :=
  t.indexes[i]?.bind (fun ix => ix.entries key)

def cols (t : Table) (i : Nat) : Option (List ColMeta) :=
  t.indexes[i]?.map Index.cols

/- The key under which an index should have a row. -/
def holder (t : Table) (i : Nat) (rid : Rid) : Option IndexKey :=
  keyIn (t.cols i) (t.record rid)

end Table

/- Every index of every table maps exactly the key of each
  live record to the record's place. -/
def Db.IndexExact (db : Db) : Prop :=
  ∀ tab i, KeyMap.Exact ((db tab).entry i) ((db tab).holder i)

------------
-- Index Changes Of The Executors
------------

/- A list of optional results, position by position. -/
theorem getElem?_of_mapM
    {α β : Type}
    {f : α → Option β}
    {l : List α}
    {l' : List β}
    (hMap : l.mapM f = some l')
    (i : Nat) :
    l[i]? = none ∧ l'[i]? = none ∨ ∃ a b, l[i]? = some a ∧ l'[i]? = some b ∧
      f a = some b := by
  induction l generalizing l' i with
  | nil =>
    cases hMap
    exact Or.inl ⟨rfl, rfl⟩
  | cons a l ih =>
    rw [List.mapM_cons] at hMap
    simp only [Option.bind_eq_bind, Option.bind_eq_some_iff] at hMap
    rcases hMap with ⟨b, hB, bs, hBs, hEq⟩
    cases hEq
    cases i with
    | zero => exact Or.inr ⟨a, b, rfl, rfl, hB⟩
    | succ i => simpa using ih hBs i

variable {i : Nat} {rec : RmRecord}

namespace Table

/- One index, after a row has gone from one key to another. -/
structure Shifts
    (t t' : Table)
    (i : Nat)
    (old new : Option IndexKey)
    (rid : Rid) :
    Prop where
  layout : t'.cols i = t.cols i
  entries : t'.entry i = t.entry i ∧ old = new ∨ t'.entry i = KeyMap.move (t.entry i) old new rid ∧
        ∀ k q, new = some k → t.entry i k = some q → q = rid

variable {t t' : Table} {rid : Rid}

theorem cols_of_indexes
    (hIndexes : t'.indexes = t.indexes)
    (i : Nat) :
    t'.cols i = t.cols i := by
  simp only [cols, hIndexes]

theorem entry_of_indexes (hIndexes : t'.indexes = t.indexes)
    (i : Nat) : t'.entry i = t.entry i := by
  funext k
  simp only [entry, hIndexes]

variable {key : Option IndexKey}

/- An index that is not there has no keys. -/
theorem shifts_of_none (hOld : t.indexes[i]? = none)
    (hNew : t'.indexes[i]? = none) : t.Shifts t' i key key rid := by
  refine ⟨?_, Or.inl ⟨?_, rfl⟩⟩
  · simp only [cols, hOld, hNew]
  · funext k
    simp only [entry, hOld, hNew]

variable {ix : Index}

/- A free key gets an entry. -/
theorem shifts_of_insertEntry
    {ix' : Index}
    {key : IndexKey}
    (hOld : t.indexes[i]? = some ix)
    (hNew : t'.indexes[i]? = some ix')
    (hInsert : ix.insertEntry key rid = some ix') :
    t.Shifts t' i none (some key) rid := by
  unfold Index.insertEntry at hInsert
  cases hFree : ix.entries key with
  | some q => simp [hFree] at hInsert
  | none =>
    simp only [hFree, Option.some.injEq] at hInsert
    subst hInsert
    refine ⟨?_, Or.inr ⟨?_, ?_⟩⟩
    · simp only [cols, hOld, hNew, Option.map_some]
    · funext k
      simp only [entry, hOld, hNew, Option.bind_some,
        KeyMap.move, Option.some.injEq, reduceCtorEq, if_false]
      by_cases hKey : key = k
      · subst hKey
        simp [hFree]
      · simp [hKey, Ne.symm hKey]
    · intro k q hKey hEntry
      obtain rfl := Option.some.inj hKey
      simp [entry, hOld, hFree] at hEntry

/- The entry of a key goes. -/
theorem shifts_of_deleteEntry
    {key : IndexKey}
    (hOld : t.indexes[i]? = some ix)
    (hNew : t'.indexes[i]? = some (ix.deleteEntry key)) :
    t.Shifts t' i (some key) none rid := by
  refine ⟨?_, Or.inr ⟨?_, by simp⟩⟩
  · simp [cols, hOld, hNew, Index.deleteEntry]
  · funext k
    simp [entry, hOld, hNew, Index.deleteEntry, KeyMap.move, update_apply, eq_comm]

theorem keyIn_of_index (hIx : t.indexes[i]? = some ix)
    (rec : RmRecord) : keyIn (t.cols i) (some rec) = some (ix.keyOf rec) := by
  simp [keyIn, cols, hIx, Index.keyOf]

theorem keyIn_of_no_index (hIx : t.indexes[i]? = none)
    (record : Option RmRecord) : keyIn (t.cols i) record = none := by
  simp [keyIn, cols, hIx]

theorem shifts_insertKeys (hRun : t.insertKeys rec rid = some t')
    (i : Nat) : t.Shifts t' i none (keyIn (t.cols i) (some rec)) rid := by
  rcases insertKeys_eq_some hRun with ⟨indexes, hMap, rfl⟩
  rcases getElem?_of_mapM hMap i with ⟨hOld, hNew⟩ | ⟨ix, ix', hOld, hNew, hInsert⟩
  · rw [keyIn_of_no_index hOld]
    exact shifts_of_none hOld hNew
  · rw [keyIn_of_index hOld]
    exact shifts_of_insertEntry hOld hNew hInsert

theorem shifts_deleteIndexes
    (t : Table)
    (rec : RmRecord)
    (i : Nat) :
    t.Shifts (t.deleteIndexes rec) i (keyIn (t.cols i) (some rec)) none
      rid := by
  cases hOld : t.indexes[i]? with
  | none =>
    rw [keyIn_of_no_index hOld]
    exact shifts_of_none hOld (by simp [deleteIndexes, hOld])
  | some ix =>
    rw [keyIn_of_index hOld]
    exact shifts_of_deleteEntry hOld (by simp [deleteIndexes, hOld])

end Table

namespace Sys

theorem indexes_setPageLsn
    {table table' : Table}
    {rid : Rid}
    {lsn : Int}
    (hRun : table.setPageLsn rid lsn = .ok table') :
    table'.indexes = table.indexes := by
  rcases Table.setPageLsn_cases hRun with ⟨-, rfl⟩ | ⟨-, rfl⟩
  · rfl
  · rfl

/- Empty tables with two slots a page and one index. -/
def indexedTables : Db :=
  fun _ => ⟨firstRecordPage, 2, fun _ => blankPage,
    [⟨[⟨0, 1⟩], fun _ => none⟩]⟩

end Sys

end Rmdb
