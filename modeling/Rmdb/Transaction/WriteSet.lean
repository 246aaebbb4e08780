import Rmdb.Transaction.Refine

/-
  This file states what the server keeps true about the write
  sets of its transactions and the registered owners of
  physical inserts, so that a commit without writes has logged
  nothing and an abort touches logged rows only.

  Key definitions include:
    * `Sys.TxnOk`
    * `Sys.Frame`
    * `Sys.WriteInv`

  Key theorems include:
    * `Sys.TxnOk.frame`
    * `Sys.WriteInv.advance`
-/

namespace Rmdb

open Function Log Wal

/- The row that a write of an update or a delete changed. -/
def WriteRecord.changed? : WriteRecord → Option Loc
| .insertTuple _ => none
| .deleteTuple x _ => some x
| .updateTuple x _ => some x

namespace Sys

------------
-- Write Sets And Owners Of One Transaction
------------

structure TxnOk (s : Sys) (t : TxnId) : Prop where
  idle : s.phase t = .idle → ∀ x, Log.ChangedBy s.log t x → (s.txn t).writeSet ≠ []
  inserting : ∀ x rec st, s.phase t = .op (.insert x rec) st → (s.txn t).writeSet ≠ []
  changed : ∀ w ∈ (s.txn t).writeSet, ∀ x, w.changed? = some x → Log.ChangedBy s.log t x
  owner : ∀ x, s.physicalInsertOwners x = some t → Log.ChangedBy s.log t x ∨
        ∃ rec st, s.phase t = .op (.insert x rec) st
  place : ∀ x rec st, s.phase t = .op (.insert x rec) st →
      st.view.lsn? = none → Wal.Untainted s.view x → s.physicalInsertOwners x = some t

/- A step of one transaction: the others keep their fields,
  and the owner of a row in the heap stays registered. -/
structure Frame (s s' : Sys) (t : TxnId) : Prop where
  begun : s.phase t ≠ .fresh
  next : s'.nextTxnId = s.nextTxnId
  disk : s'.disk = s.disk
  layout : s.db.SameLayout s'.db
  txn : ∀ u, u ≠ t → s'.txn u = s.txn u
  log : ∀ u, u ≠ t → ∀ x, Log.ChangedBy s'.log u x ↔ Log.ChangedBy s.log u x
  owners : ∀ x u, u ≠ t → (s'.physicalInsertOwners x = some u → s.physicalInsertOwners x = some u) ∧
      (s.physicalInsertOwners x = some u → s.db.record x ≠ none →
        s'.physicalInsertOwners x = some u)

/- A placed row is in the heap until it is logged. -/
theorem record_of_placed
    {inRange : Range}
    {s : Sys}
    {t : TxnId}
    {x : Loc}
    {rec : RmRecord}
    {st : Stage}
    (hInv : Inv inRange s.view)
    (hPhase : s.phase t = .op (.insert x rec) st)
    (hClean : Untainted s.view x) :
    s.db.record x = some rec := by
  have hStatus : s.view.status t = .op (.insert x rec) st.view := by simp [view, hPhase, Phase.view]
  have hRow := (hInv.rows x hClean).pending t _ _ hStatus rfl
  exact hRow.1

/- The other transactions are not disturbed. -/
theorem TxnOk.frame
    {inRange : Range}
    {s s' : Sys}
    {t u : TxnId}
    (hOk : s.TxnOk u)
    (hFrame : s.Frame s' t)
    (hNe : u ≠ t)
    (hInv : Inv inRange s.view)
    (hClean : ∀ x, Untainted s'.view x → Untainted s.view x) :
    s'.TxnOk u := by
  have hTxn := hFrame.txn u hNe
  have hPhase : s'.phase u = s.phase u := by simp [phase, hTxn]
  constructor
  · intro hIdle x hChanged
    rw [hTxn]
    exact hOk.idle (hPhase ▸ hIdle) x ((hFrame.log u hNe x).mp hChanged)
  · intro x rec st hOp
    rw [hTxn]
    exact hOk.inserting x rec st (hPhase ▸ hOp)
  · intro w hW x hX
    rw [hTxn] at hW
    exact (hFrame.log u hNe x).mpr (hOk.changed w hW x hX)
  · intro x hOwner
    rw [hPhase, hFrame.log u hNe x]
    exact hOk.owner x ((hFrame.owners x u hNe).1 hOwner)
  · intro x rec st hOp hUnlogged hNow
    rw [hPhase] at hOp
    have hOld := hClean x hNow
    apply (hFrame.owners x u hNe).2
    · exact hOk.place x rec st hOp hUnlogged hOld
    · rw [record_of_placed hInv hOp hOld]
      simp

------------
-- The Acting Transaction
------------

/- What the steps of a transaction have in common: its own
  record changes, and it may log a record and give up owners. -/
structure Turn (s s' : Sys) (t : TxnId) (txn : Txn) : Prop where
  begun : s.phase t ≠ .fresh
  next : s'.nextTxnId = s.nextTxnId
  disk : s'.disk = s.disk
  layout : s.db.SameLayout s'.db
  txn : s'.txn = update s.txn t txn
  log : s'.log = s.log ∨ ∃ r, s'.log = s.log ++ [r] ∧ r.tid = t
  owners : ∀ x, s'.physicalInsertOwners x = s.physicalInsertOwners x ∨
      s'.physicalInsertOwners x = none ∧ s.physicalInsertOwners x = some t

section Acting

variable {s s' : Sys} {t : TxnId} {txn : Txn} (hTurn : Turn s s' t txn)

include hTurn

theorem Turn.self : s'.txn t = txn := by simp [hTurn.txn]

theorem Turn.changedBy
    {x : Loc}
    (hChanged : ChangedBy s.log t x) :
    ChangedBy s'.log t x := by
  rcases hTurn.log with hLog | ⟨r, hLog, _⟩
  · rwa [hLog]
  · rw [hLog]
    exact (changedBy_concat _ _ t x).mpr (Or.inl hChanged)

theorem Turn.owner
    {x : Loc}
    (hMine : s'.physicalInsertOwners x = some t) :
    s.physicalInsertOwners x = some t := by
  rcases hTurn.owners x with hSame | ⟨hNone, _⟩
  · exact hSame.symm.trans hMine
  · cases hNone.symm.trans hMine

theorem Turn.frame : s.Frame s' t := by
  refine ⟨hTurn.begun, hTurn.next, hTurn.disk, hTurn.layout, ?_, ?_, ?_⟩
  · intro u hU
    rw [hTurn.txn, update_of_ne hU]
  · intro u hU x
    rcases hTurn.log with hLog | ⟨r, hLog, hTid⟩
    · rw [hLog]
    · rw [hLog, changedBy_concat, hTid]
      simp [Ne.symm hU]
  · intro x u hU
    rcases hTurn.owners x with h | ⟨hNone, hMine⟩
    · rw [h]
      exact ⟨id, fun h _ => h⟩
    · rw [hNone, hMine]
      refine ⟨fun h => absurd h (by simp), ?_⟩
      intro h
      exact absurd (Option.some.inj h).symm hU

/- A transaction that goes on to something else than an
  insert, with no writes but old ones and logged ones. -/
theorem Turn.txnOk
    (hOk : s.TxnOk t)
    (hInsert : ∀ x rec st, txn.phase ≠ .op (.insert x rec) st)
    (hIdle : txn.phase = .idle → ∀ x, ChangedBy s'.log t x → txn.writeSet ≠ [])
    (hWrites : ∀ w ∈ txn.writeSet, w ∈ (s.txn t).writeSet ∨
        ∀ x, w.changed? = some x → ChangedBy s'.log t x)
    (hOwner : ∀ x rec st, s.phase t = .op (.insert x rec) st →
      s'.physicalInsertOwners x = some t →
        ChangedBy s'.log t x) :
    s'.TxnOk t := by
  rw [← hTurn.self] at hInsert hIdle hWrites
  refine ⟨hIdle, fun x rec st h => absurd h (hInsert x rec st), ?_, ?_,
    fun x rec st h => absurd h (hInsert x rec st)⟩
  · intro w hW x hX
    rcases hWrites w hW with hOld | hNew
    · exact hTurn.changedBy (hOk.changed w hOld x hX)
    · exact hNew x hX
  · intro x hMine
    rcases hOk.owner x (hTurn.owner hMine) with h | ⟨rec, st, h⟩
    · exact Or.inl (hTurn.changedBy h)
    · exact Or.inl (hOwner x rec st h hMine)

/- An insert goes on to its next stage. -/
theorem Turn.insert
    {x : Loc}
    {rec : RmRecord}
    {st st' : Stage}
    (hOk : s.TxnOk t)
    (hOld : s.phase t = .op (.insert x rec) st)
    (hPhase : txn.phase = .op (.insert x rec) st')
    (hWrites : txn.writeSet = (s.txn t).writeSet)
    (hOwners : s'.physicalInsertOwners = s.physicalInsertOwners)
    (hStage : st'.view.lsn? = none → st.view.lsn? = none)
    (hClean : ∀ y, Untainted s'.view y → Untainted s.view y) :
    s'.TxnOk t := by
  rw [← hTurn.self] at hPhase hWrites
  have hNew : s'.phase t = .op (.insert x rec) st' := hPhase
  constructor
  · intro h
    cases hNew.symm.trans h
  · intro y rec' st'' _
    rw [hWrites]
    exact hOk.inserting x rec st hOld
  · intro w hW y hY
    rw [hWrites] at hW
    exact hTurn.changedBy (hOk.changed w hW y hY)
  · intro y hMine
    rw [hOwners] at hMine
    rcases hOk.owner y hMine with h | ⟨rec', st'', h⟩
    · exact Or.inl (hTurn.changedBy h)
    · obtain ⟨⟨rfl, rfl⟩, rfl⟩ : (x = y ∧ rec = rec') ∧ st = st'' := by
        simpa using hOld.symm.trans h
      exact Or.inr ⟨rec, st', hNew⟩
  · intro y rec' st'' h hUnlogged hNow
    obtain ⟨⟨rfl, rfl⟩, rfl⟩ : (x = y ∧ rec = rec') ∧ st' = st'' := by simpa using hNew.symm.trans h
    rw [hOwners]
    exact hOk.place x rec st hOld (hStage hUnlogged) (hClean x hNow)

end Acting

------------
-- All Transactions
------------

/- The rows that tables of a given layout have room for. -/
def inRange (db : Db) (x : Loc) : Prop :=
  firstRecordPage ≤ x.rid.pageNo ∧ (db x.tab).HasSlot x.rid

structure WriteInv (db₀ : Db) (s : Sys) : Prop where
  fresh : ∀ t, t ∉ s.begun → s.phase t = .fresh
  layout : db₀.SameLayout s.db
  diskLayout : db₀.SameLayout s.disk
  txns : ∀ t, s.TxnOk t

/- What is shown of each step of a transaction. -/
structure Advance (db₀ : Db) (s s' : Sys) (t : TxnId) : Prop where
  steps : Wal.Steps (inRange db₀) s.view s'.view
  frame : s.Frame s' t
  own : s'.TxnOk t

theorem WriteInv.advance
    {db₀ : Db}
    {s s' : Sys}
    {t : TxnId}
    (hWrite : WriteInv db₀ s)
    (hInv : Inv (inRange db₀) s.view)
    (hStep : Advance db₀ s s' t) :
    WriteInv db₀ s' := by
  have hFrame := hStep.frame
  have hBegun : s'.begun = s.begun := by
    unfold begun
    rw [hFrame.next]
  constructor
  · intro u hU
    rw [hBegun] at hU
    have hNe : u ≠ t := by
      rintro rfl
      exact hFrame.begun (hWrite.fresh u hU)
    rw [phase, hFrame.txn u hNe]
    exact hWrite.fresh u hU
  · exact hWrite.layout.trans hFrame.layout
  · rw [hFrame.disk]
    exact hWrite.diskLayout
  · intro u
    by_cases hU : u = t
    · exact hU ▸ hStep.own
    · exact (hWrite.txns u).frame hFrame hU hInv (fun _ => untainted_of_steps hStep.steps)

end Sys

end Rmdb
