import Rmdb.Mvcc.RowEffects
import Rmdb.Mvcc.Row

/-
  This file says what the end of a transaction does: what an
  abort takes back, with versions and without, and what a
  commit and garbage collection leave.

  Key definitions include:
    * `Engine.TakesBack`
    * `Engine.Owns`
    * `Engine.undone`
    * `Engine.Ends`

  Key theorems include:
    * `Engine.abortWrite_cases`
    * `Engine.abortWrites_spec`
    * `Engine.rollbackWrite_cases`
    * `Engine.rollbackWrites_spec`
    * `Engine.abort_cases`
    * `Engine.commit_cases`
-/

namespace Rmdb

open Function Table

------------
-- Taking Back With Versions
------------

namespace MvccEntry

/- The record in the heap after the rollback of an entry. -/
def rolledPhysical
    (entry : MvccEntry)
    (physical : Option RmRecord) :
    Option RmRecord :=
  if entry.rollbackDeletePhysical ∨
      entry.rollbackRestorePhysical then
    entry.rolledRecord
  else
    physical

/- The record whose keys the row has after the rollback. -/
def rolledHead
    (entry : MvccEntry)
    (physical : Option RmRecord) :
    Option RmRecord :=
  if entry.rollbackDeletePhysical then
    none
  else if entry.rollbackRestorePhysical then
    if entry.restoreDeleted then
      none
    else
      some entry.rollbackRecord
  else
    physical

end MvccEntry

namespace Table

/- One row gets another record and the keys of a record. -/
structure Restores
    (tab tab' : Table)
    (rid : Rid)
    (value head : Option RmRecord) :
    Prop where
  record : ∀ q, tab'.record q =
      if q = rid then value else tab.record q
  pages : tab.KeepsPages tab'
  keys : tab.MovesKeys tab' (tab.record rid) head rid

section Restore

variable {tab tab' : Table} {rid : Rid} {rec old : RmRecord}

theorem restores_delete (hRecord : tab.record rid = some rec)
    (hRun : (tab.deleteIndexes rec).deleteRecord rid = .ok tab') :
    tab.Restores tab' rid none none := by
  rcases deleteRecord_eq_ok hRun with ⟨hPage, rfl⟩
  refine ⟨fun q => record_setSlot hPage none q, .refl _, ?_⟩
  rw [hRecord]
  exact (movesKeys_delete tab rec rid).congr rfl rfl

theorem restores_update
    (hRecord : tab.record rid = some rec)
    (hRun :
      (tab.deleteIndexes rec).updateRecord rid old = .ok tab') :
    tab.Restores tab' rid (some old) none ∧
        tab.Restores (tab'.insertIndexes old rid) rid (some old)
        (some old) := by
  rcases updateRecord_eq_ok hRun with ⟨hPage, rfl⟩
  have hSlot := fun q => record_setSlot hPage (some old) q
  refine ⟨⟨hSlot, .refl _, ?_⟩, hSlot, .refl _, ?_⟩
  · rw [hRecord]
    exact (movesKeys_delete tab rec rid).congr rfl rfl
  · rw [hRecord]
    exact (movesKeys_restore tab rec old rid).congr rfl rfl

theorem record_of_getRecord (hGet : tab.getRecord rid = .ok rec) :
    tab.record rid = some rec := by
  unfold getRecord at hGet
  split at hGet
  · rename_i hRec
    cases hGet
    exact hRec
  · cases hGet

/- `insert_record` needs a free slot. -/
theorem free_of_insertRecordAt
    (hRun : tab.insertRecordAt rid old = .ok tab') : tab.record rid = none := by
  have hPage := (insertRecordAt_eq_ok hRun).1
  cases hRecord : tab.record rid with
  | none => rfl
  | some rec =>
    rw [record_of_hasPage hPage] at hRecord
    simp only [insertRecordAt, fetchPageHandle_ok hPage, bind,
      Except.bind, hRecord, Option.isSome_some, if_true] at hRun
    split at hRun
    · cases hRun
    · cases hRun

theorem restores_insert (hRun : tab.insertRecordAt rid old = .ok tab') :
    tab.Restores tab' rid (some old) none ∧
        tab.Restores (tab'.insertIndexes old rid) rid (some old)
        (some old) := by
  have hFree := free_of_insertRecordAt hRun
  rcases insertRecordAt_eq_ok hRun with ⟨hPage, rfl⟩
  have hSlot := fun q => record_setSlot hPage (some old) q
  refine ⟨⟨hSlot, .refl _, ?_⟩, hSlot, .refl _, ?_⟩
  · rw [hFree]
    exact MovesKeys.of_indexes rfl
  · rw [hFree]
    exact (movesKeys_insert tab old rid).congr rfl rfl

end Restore

/- What the rollback of one row with versions does. -/
theorem restores_of_rollbackPhysical
    {tab tab' : Table}
    {rid : Rid}
    {entry : MvccEntry}
    (hRun : Engine.rollbackPhysical tab rid entry = .ok tab') :
    if entry.rollbackDeletePhysical ∨ entry.rollbackRestorePhysical then
      tab.Restores tab' rid entry.rolledRecord
        (entry.rolledHead (tab.record rid))
    else
      tab' = tab := by
  unfold Engine.rollbackPhysical at hRun
  unfold MvccEntry.rolledHead MvccEntry.rolledRecord
  cases hDelete : entry.rollbackDeletePhysical with
  | true =>
    simp only [hDelete, if_true, true_or] at hRun ⊢
    cases hRecord : tab.record rid with
    | none =>
      simp only [isRecord, hRecord, Option.isSome_none,
        Bool.false_eq_true, if_false, Except.ok.injEq] at hRun
      subst hRun
      refine ⟨?_, .refl _, ?_⟩
      · intro q
        by_cases hQ : q = rid
        · simp [hQ, hRecord]
        · simp [hQ]
      · rw [hRecord]
        exact MovesKeys.of_indexes rfl
    | some rec =>
      simp only [isRecord, getRecord, hRecord, Option.isSome_some, if_true, bind, Except.bind]
        at hRun
      exact restores_delete hRecord hRun
  | false =>
    cases hRestore : entry.rollbackRestorePhysical with
    | false =>
      simp only [hDelete, hRestore, Bool.false_eq_true,
        if_false, Except.ok.injEq, or_self] at hRun ⊢
      exact hRun.symm
    | true =>
      simp only [hDelete, hRestore, Bool.false_eq_true, if_false, if_true, or_true] at hRun ⊢
      have hBoth : ∃ tab₁, tab.Restores tab₁ rid (some entry.rollbackRecord) none ∧ tab.Restores
            (tab₁.insertIndexes entry.rollbackRecord rid) rid (some entry.rollbackRecord)
            (some entry.rollbackRecord) ∧ tab' = if entry.restoreDeleted then
            tab₁
          else
            tab₁.insertIndexes entry.rollbackRecord rid := by
        cases hRecord : tab.record rid with
        | none =>
          simp only [isRecord, hRecord, Option.isSome_none, Bool.false_eq_true,
            if_false, bind, Except.bind] at hRun
          cases hInsert : tab.insertRecordAt rid entry.rollbackRecord with
          | error err => simp [hInsert] at hRun
          | ok tab₁ =>
            rcases restores_insert hInsert with ⟨hBare, hKeys⟩
            refine ⟨tab₁, hBare, hKeys, ?_⟩
            simp only [hInsert] at hRun
            split at hRun
            · rename_i h
              rw [if_pos h]
              exact (Except.ok.inj hRun).symm
            · rename_i h
              rw [if_neg h]
              exact (Except.ok.inj hRun).symm
        | some rec =>
          simp only [isRecord, getRecord, hRecord, Option.isSome_some, if_true, bind,
            Except.bind] at hRun
          cases hUpdate : (tab.deleteIndexes rec).updateRecord rid entry.rollbackRecord with
          | error err => simp [hUpdate] at hRun
          | ok tab₁ =>
            rcases restores_update hRecord hUpdate with ⟨hBare, hKeys⟩
            refine ⟨tab₁, hBare, hKeys, ?_⟩
            simp only [hUpdate] at hRun
            split at hRun
            · rename_i h
              rw [if_pos h]
              exact (Except.ok.inj hRun).symm
            · rename_i h
              rw [if_neg h]
              exact (Except.ok.inj hRun).symm
      rcases hBoth with ⟨tab₁, hBare, hKeys, rfl⟩
      cases entry.restoreDeleted with
      | true => exact hBare
      | false => exact hKeys

end Table

namespace Engine

/- What taking back the writes of a transaction leaves alone. -/
structure Unwinds (t : TxnId) (e e' : Engine) : Prop where
  tabCols : e'.tabCols = e.tabCols
  log : e'.log = e.log
  nextTxnId : e'.nextTxnId = e.nextTxnId
  txn : e'.txn = e.txn
  lastCommitTs : e'.lastCommitTs = e.lastCommitTs
  runningTxns : e'.runningTxns = e.runningTxns
  active : e'.activeMvccTxnCount = e.activeMvccTxnCount
  counter : e'.gcCommitCounter = e.gcCommitCounter
  ssi : e'.ssi = e.ssi
  pages : e.db.KeepsPages e'.db
  locks : ∀ y, e'.locks y = e.locks y ∨ e.locks y = some t ∧ e'.locks y = none
  owners : ∀ y, e'.physicalInsertOwners y = e.physicalInsertOwners y ∨
      e.physicalInsertOwners y = some t ∧ e'.physicalInsertOwners y = none
  tableKeys : e.TableKeysOk → e'.TableKeysOk
  shared : ∀ x u, u ∈ e'.sharedLocks x → u ∈ e.sharedLocks x

section Frees

/- Entries of one transaction are given up. -/
variable {t : TxnId} {a b c : Loc → Option TxnId}

theorem frees_trans
    (hFirst : ∀ y, b y = a y ∨ a y = some t ∧ b y = none)
    (hSecond : ∀ y, c y = b y ∨ b y = some t ∧ c y = none)
    (y : Loc) :
    c y = a y ∨ a y = some t ∧ c y = none := by
  rcases hFirst y with h | ⟨h, h'⟩
  · rcases hSecond y with k | ⟨k, k'⟩
    · exact Or.inl (k.trans h)
    · exact Or.inr ⟨h.symm.trans k, k'⟩
  · rcases hSecond y with k | ⟨-, k'⟩
    · exact Or.inr ⟨h, k.trans h'⟩
    · exact Or.inr ⟨h, k'⟩

theorem frees_update
    {x : Loc}
    (hMine : a x = some t)
    (y : Loc) :
    update a x none y = a y ∨ a y = some t ∧ update a x none y = none := by
  by_cases hY : y = x
  · subst hY
    exact Or.inr ⟨hMine, by simp⟩
  · exact Or.inl (update_of_ne hY _ _)

end Frees

theorem Unwinds.refl (t : TxnId)
    (e : Engine) :
    Unwinds t e e := ⟨rfl, rfl, rfl, rfl, rfl, rfl, rfl, rfl, rfl,
      fun _ => .refl _,
    fun _ => Or.inl rfl, fun _ => Or.inl rfl, id, fun _ _ hMem => hMem⟩

theorem Unwinds.trans
    {t : TxnId}
    {e e' e'' : Engine}
    (hFirst : Unwinds t e e')
    (hSecond : Unwinds t e' e'') :
    Unwinds t e e'' where
  tabCols := hSecond.tabCols.trans hFirst.tabCols
  log := hSecond.log.trans hFirst.log
  nextTxnId := hSecond.nextTxnId.trans hFirst.nextTxnId
  txn := hSecond.txn.trans hFirst.txn
  lastCommitTs := hSecond.lastCommitTs.trans hFirst.lastCommitTs
  runningTxns := hSecond.runningTxns.trans hFirst.runningTxns
  active := hSecond.active.trans hFirst.active
  counter := hSecond.counter.trans hFirst.counter
  ssi := hSecond.ssi.trans hFirst.ssi
  pages := fun tab => (hFirst.pages tab).trans (hSecond.pages tab)
  locks := frees_trans hFirst.locks hSecond.locks
  owners := frees_trans hFirst.owners hSecond.owners
  tableKeys := fun hOk => hSecond.tableKeys (hFirst.tableKeys hOk)
  shared := fun x u hMem => hFirst.shared x u (hSecond.shared x u hMem)

theorem Unwinds.slots
    {t : TxnId}
    {e e' : Engine}
    (hUnwinds : Unwinds t e e')
    (tab : TabName) :
    (e'.db tab).numRecordsPerPage = (e.db tab).numRecordsPerPage :=
      (hUnwinds.pages tab).1

/- The transaction whose uncommitted version a row has. -/
def Owns (e : Engine) (t : TxnId) (x : Loc) : Prop :=
  ∃ entry, e.mvccVersions x = some entry ∧
    entry.writerTxn = some t

/- A row that keeps its entry keeps its owner. -/
theorem owns_congr
    {e e' : Engine}
    {u : TxnId}
    {x : Loc}
    (hVersion : e'.mvccVersions x = e.mvccVersions x) :
    e'.Owns u x ↔ e.Owns u x := by
  unfold Owns
  rw [hVersion]

section TakeBack

variable {e e' : Engine} {t : TxnId} {x : Loc}
variable {processed : List Loc} {w : WriteRecord}

/- One row is taken back. -/
structure TakesBack
    (x : Loc)
    (entry : MvccEntry)
    (e e' : Engine) :
    Prop where
  restores :
    if entry.rollbackDeletePhysical ∨
        entry.rollbackRestorePhysical then
      (e.db x.tab).Restores (e'.db x.tab) x.rid
        entry.rolledRecord (entry.rolledHead (e.db.record x))
    else
      e'.db x.tab = e.db x.tab
  others : ∀ tab, tab ≠ x.tab → e'.db tab = e.db tab
  versions : e'.mvccVersions = Function.update e.mvccVersions x entry.rolledEntry

theorem unwinds_unregisterPhysicalInsert
    (e : Engine)
    (t : TxnId)
    (x : Loc) :
    Unwinds t e (e.unregisterPhysicalInsert t x) := by
  unfold unregisterPhysicalInsert
  split
  · rename_i hOwner
    exact { Unwinds.refl t e with owners := frees_update hOwner }
  · exact Unwinds.refl t e

theorem unregisterPhysicalInsert_fields
    (e : Engine)
    (t : TxnId)
    (x : Loc) :
    (e.unregisterPhysicalInsert t x).db = e.db ∧
        (e.unregisterPhysicalInsert t x).mvccVersions =
        e.mvccVersions := by
  unfold unregisterPhysicalInsert
  split
  · exact ⟨rfl, rfl⟩
  · exact ⟨rfl, rfl⟩

theorem unwinds_unregisterInsert
    (e : Engine)
    (t : TxnId)
    (w : WriteRecord) :
    Unwinds t e (e.unregisterInsert t w) ∧ (e.unregisterInsert t w).db = e.db ∧
      (e.unregisterInsert t w).mvccVersions =
        e.mvccVersions := by
  cases w with
  | insertTuple x =>
    exact ⟨unwinds_unregisterPhysicalInsert e t x, unregisterPhysicalInsert_fields e t x⟩
  | deleteTuple x rec | updateTuple x rec => exact ⟨Unwinds.refl t e, rfl, rfl⟩

theorem unwinds_unlock
    (e : Engine)
    (t : TxnId)
    (x : Loc) :
    Unwinds t e (e.unlock t x) := by
  refine { Unwinds.refl t e with locks := ?_, shared := ?_ }
  · intro y
    simp only [unlock]
    split
    · rename_i hMine
      exact frees_update hMine y
    · exact Or.inl rfl
  · intro y u hMem
    simp only [unlock, update_apply] at hMem
    split at hMem
    · rename_i hY
      rw [hY]
      exact (List.mem_filter.mp hMem).1
    · exact hMem

theorem restoreEntry_versions
    (e : Engine)
    (x : Loc)
    (entry : MvccEntry) :
    (e.restoreEntry x entry).mvccVersions =
      update e.mvccVersions x entry.rolledEntry := by
  unfold restoreEntry
  cases entry.rolledEntry with
  | none => rfl
  | some old => rfl

theorem unwinds_restoreEntry
    (e : Engine)
    (t : TxnId)
    (x : Loc)
    (entry : MvccEntry) :
    Unwinds t e (e.restoreEntry x entry) := by
  unfold restoreEntry
  cases entry.rolledEntry with
  | some old =>
    exact { Unwinds.refl t e with tableKeys := fun hOk => tableKeysOk_putEntry hOk x old }
  | none =>
    refine { Unwinds.refl t e with tableKeys := ?_ }
    intro hOk y
    by_cases hY : y = x
    · simp [hY]
    · simp [hY, hOk y]

theorem unwinds_setTable
    {tab : TabName}
    {table : Table}
    (hPages : (e.db tab).KeepsPages table) :
    Unwinds t e (e.setTable tab table) := by
  refine { Unwinds.refl t e with pages := ?_ }
  intro tab'
  by_cases hTab : tab' = tab
  · subst hTab
    simpa [setTable] using hPages
  · simpa [setTable, hTab] using KeepsPages.refl _

/- One write of the list is passed over or taken back. -/
theorem abortWrite_cases (hRun : e.abortWrite t processed w = some e') :
    Unwinds t e e' ∧ ((w.loc ∉ processed → ¬ e.Owns t w.loc) ∧
          e'.db = e.db ∧ e'.mvccVersions = e.mvccVersions ∨ ∃ entry,
            w.loc ∉ processed ∧
          e.mvccVersions w.loc = some entry ∧ entry.writerTxn = some t ∧
          TakesBack w.loc entry e e') := by
  rcases unwinds_unregisterInsert e t w with ⟨hSkip, hDb, hVs⟩
  unfold abortWrite at hRun
  simp only at hRun
  split at hRun
  · rename_i hDone
    cases hRun
    exact ⟨hSkip, Or.inl ⟨fun h => absurd hDone h, hDb, hVs⟩⟩
  · rename_i hNew
    split at hRun
    · rename_i hNone
      cases hRun
      refine ⟨hSkip, Or.inl ⟨fun _ => ?_, hDb, hVs⟩⟩
      rintro ⟨entry, hEntry, -⟩
      rw [hNone] at hEntry
      cases hEntry
    · rename_i entry hEntry
      split at hRun
      · rename_i hOther
        cases hRun
        refine ⟨hSkip, Or.inl ⟨fun _ => ?_, hDb, hVs⟩⟩
        rintro ⟨entry', hEntry', hWriter⟩
        rw [hEntry] at hEntry'
        obtain rfl := Option.some.inj hEntry'
        exact hOther hWriter
      · rename_i hMine
        simp only [ne_eq, not_not] at hMine
        cases hBack : rollbackPhysical (e.db w.loc.tab) w.loc.rid entry with
        | error err => simp [hBack] at hRun
        | ok tab =>
          simp only [hBack, Option.some.injEq] at hRun
          have hRestores := restores_of_rollbackPhysical hBack
          have hPages : (e.db w.loc.tab).KeepsPages tab := by
            split at hRestores
            · exact hRestores.pages
            · rw [hRestores]
              exact .refl _
          -- the four parts of the rollback of a row
          have hTable : Unwinds t e (e.setTable w.loc.tab tab) := unwinds_setTable hPages
          have hLock : ∃ e₁, Unwinds t e e₁ ∧ e₁.db = (e.setTable w.loc.tab tab).db ∧
                e₁.mvccVersions = e.mvccVersions ∧ e' = (e₁.restoreEntry w.loc
                  entry).unregisterInsert t w := by
            split at hRun
            · exact ⟨_, hTable.trans (unwinds_unlock _ t w.loc), rfl, rfl, hRun.symm⟩
            · exact ⟨_, hTable, rfl, rfl, hRun.symm⟩
          rcases hLock with ⟨e₁, hUnwinds, hDb₁, hVs₁, rfl⟩
          have hEntries := unwinds_restoreEntry e₁ t w.loc entry
          rcases unwinds_unregisterInsert (e₁.restoreEntry w.loc entry) t w with ⟨hLast, hDb₂, hVs₂⟩
          have hSame : (e₁.restoreEntry w.loc entry).db =
              e₁.db := by
            unfold restoreEntry
            cases entry.rolledEntry with
            | none => rfl
            | some old => rfl
          refine ⟨(hUnwinds.trans hEntries).trans hLast,
            Or.inr ⟨entry, hNew, hEntry, hMine, ?_, ?_, ?_⟩⟩
          · rw [hDb₂, hSame, hDb₁]
            simp only [setTable, update_self]
            exact hRestores
          · intro tab' hTab
            rw [hDb₂, hSame, hDb₁]
            exact update_of_ne hTab _ _
          · rw [hVs₂, restoreEntry_versions, hVs₁]

theorem TakesBack.record
    {entry : MvccEntry}
    (hBack : TakesBack x entry e e') :
    e'.db.record = update e.db.record x
      (entry.rolledPhysical (e.db.record x)) := by
  refine Db.record_of_row (fun q => ?_) hBack.others
  have hRestores := hBack.restores
  unfold MvccEntry.rolledPhysical
  split at hRestores
  · rename_i hFlags
    rw [if_pos hFlags]
    exact hRestores.record q
  · rename_i hFlags
    rw [if_neg hFlags, hRestores]
    split
    · rename_i hQ
      rw [hQ]
      rfl
    · rfl

/- The rows that the transaction owns are taken back. -/
theorem abortWrites_spec
    {ws : List WriteRecord}
    (hRun : abortWrites t ws processed e = some e') :
    Unwinds t e e' ∧ ∀ x, (∀ entry, x ∈ ws.map WriteRecord.loc → x ∉ processed →
          e.mvccVersions x = some entry → entry.writerTxn = some t →
                e'.db.record x =
                entry.rolledPhysical (e.db.record x) ∧
                e'.mvccVersions x = entry.rolledEntry) ∧
        ((x ∈ ws.map WriteRecord.loc → x ∉ processed → ¬ e.Owns t x) →
          e'.db.record x = e.db.record x ∧
          e'.mvccVersions x = e.mvccVersions x) := by
  induction ws generalizing e processed with
  | nil =>
    cases hRun
    refine ⟨Unwinds.refl t _, fun x => ⟨?_, ?_⟩⟩
    · intro entry hMem
      cases hMem
    · intro _
      exact ⟨rfl, rfl⟩
  | cons w rest ih =>
    unfold abortWrites at hRun
    cases hStep : e.abortWrite t processed w with
    | none => simp [hStep] at hRun
    | some e₁ =>
      simp only [hStep] at hRun
      rcases abortWrite_cases hStep with ⟨hUnwinds, hCase⟩
      rcases ih hRun with ⟨hRest, hRows⟩
      refine ⟨hUnwinds.trans hRest, fun x => ?_⟩
      rcases hRows x with ⟨hTaken, hKept⟩
      have hEither : (e₁.db.record x = e.db.record x ∧ e₁.mvccVersions x = e.mvccVersions x ∧
          (x = w.loc → x ∉ processed → ¬ e.Owns t x)) ∨ ∃ entry, x = w.loc ∧ x ∉ processed ∧
          e.mvccVersions x = some entry ∧ entry.writerTxn = some t ∧ TakesBack x entry e e₁ := by
        rcases hCase with ⟨hSkip, hDb, hVs⟩ | ⟨entry, hNew, hEntry, hMine, hBack⟩
        · refine Or.inl ⟨by rw [hDb], by rw [hVs], ?_⟩
          rintro rfl
          exact hSkip
        · by_cases hX : x = w.loc
          · subst hX
            exact Or.inr ⟨entry, rfl, hNew, hEntry, hMine, hBack⟩
          · refine Or.inl ⟨?_, ?_, fun h => absurd h hX⟩
            · rw [hBack.record, update_of_ne hX]
            · rw [hBack.versions, update_of_ne hX]
      rcases hEither with ⟨hRecord, hVersions, hHere⟩ | ⟨entry, rfl, hNew, hEntry, hMine, hBack⟩
      · rw [hRecord, hVersions] at hTaken hKept
        constructor
        · intro entry' hMem hFresh hEntry' hWriter
          have hX : x ≠ w.loc := fun hX => hHere hX hFresh ⟨entry', hEntry', hWriter⟩
          refine hTaken entry' ?_ ?_ hEntry' hWriter
          · simpa [hX] using hMem
          · simp [hX, hFresh]
        · intro hNot
          refine hKept ?_
          intro hMem hFresh
          rw [List.mem_cons, not_or] at hFresh
          rw [owns_congr hVersions]
          exact hNot (by simp [hMem]) hFresh.2
      · -- the rest of the list leaves this row alone
        have hStay := hKept (fun _ hFresh => absurd List.mem_cons_self hFresh)
        rw [hBack.record, hBack.versions, update_self, update_self] at hStay
        constructor
        · intro entry' _ _ hEntry' _
          rw [hEntry] at hEntry'
          obtain rfl := Option.some.inj hEntry'
          exact hStay
        · intro hNot
          exact absurd ⟨entry, hEntry, hMine⟩ (hNot (by simp) hNew)

end TakeBack

------------
-- Taking Back Without Versions
------------

/- The record before a write. -/
def beforeWrite : WriteRecord → Option RmRecord
| .insertTuple _ => none
| .deleteTuple _ oldRec => some oldRec
| .updateTuple _ oldRec => some oldRec

/- Does the rollback act on a write? An insert has to be
  registered as the transaction's own. -/
def actsOn
    (t : TxnId)
    (owner : Option TxnId) :
    WriteRecord → Prop
| .insertTuple _ => owner = some t
| _ => True

instance
    (t : TxnId)
    (owner : Option TxnId)
    (w : WriteRecord) :
    Decidable (actsOn t owner w) := by
  cases w <;> (unfold actsOn; infer_instance)

section ActsOn

variable {t : TxnId} {w : WriteRecord} {owner owner' : Option TxnId}

/- Only the own registration of an insert matters. -/
theorem actsOn_mono
    (hOwner : owner = some t → owner' = some t)
    (hActs : actsOn t owner w) :
    actsOn t owner' w := by
  cases w with
  | insertTuple y => exact hOwner hActs
  | deleteTuple y rec | updateTuple y rec => trivial

theorem actsOn_congr (hOwner : owner' = owner ∨ owner ≠ some t ∧
    owner' ≠ some t) :
    actsOn t owner' w ↔ actsOn t owner w := by
  have hIff : owner' = some t ↔ owner = some t := by
    rcases hOwner with rfl | ⟨hOld, hNew⟩
    · exact Iff.rfl
    · exact iff_of_false hNew hOld
  exact ⟨actsOn_mono hIff.mp, actsOn_mono hIff.mpr⟩

end ActsOn

/- The owner of a physical insert after the rollback of a
  write. -/
def ownerAfter
    (t : TxnId)
    (owner : Option TxnId) :
    WriteRecord → Option TxnId
| .insertTuple _ => if owner = some t then none else owner
| _ => owner

/- The record of a row after the rollback of all writes. -/
def undone
    (t : TxnId)
    (x : Loc) :
    List WriteRecord → Option TxnId → Option RmRecord →
      Option RmRecord
| [], _, v => v
| w :: rest, owner, v =>
  if w.loc = x ∧ actsOn t owner w then
    undone t x rest (ownerAfter t owner w) (beforeWrite w)
  else
    undone t x rest owner v

theorem undone_cons
    (t : TxnId)
    (x : Loc)
    (w : WriteRecord)
    (rest : List WriteRecord)
    (owner : Option TxnId)
    (v : Option RmRecord) :
    undone t x (w :: rest) owner v =
      if w.loc = x ∧ actsOn t owner w then
        undone t x rest (ownerAfter t owner w) (beforeWrite w)
      else
        undone t x rest owner v := rfl

section Rollback

variable {e e' : Engine} {t : TxnId} {w : WriteRecord} {x : Loc}

/- The rollback of one write without versions. -/
structure RollsBack
    (t : TxnId)
    (w : WriteRecord)
    (e e' : Engine) :
    Prop where
  acts : actsOn t (e.physicalInsertOwners w.loc) w
  restores : (e.db w.loc.tab).Restores (e'.db w.loc.tab) w.loc.rid (beforeWrite w) (beforeWrite w)
  others : ∀ tab, tab ≠ w.loc.tab → e'.db tab = e.db tab
  owner : e'.physicalInsertOwners = Function.update e.physicalInsertOwners w.loc
        (ownerAfter t (e.physicalInsertOwners w.loc) w)

theorem rollsBack_setTable
    {tab : Table}
    (hPlain : ∀ y, w ≠ .insertTuple y)
    (hRestores : (e.db w.loc.tab).Restores tab w.loc.rid (beforeWrite w)
        (beforeWrite w)) :
    RollsBack t w e (e.setTable w.loc.tab tab) := by
  constructor
  · cases w with
    | insertTuple y => exact absurd rfl (hPlain y)
    | deleteTuple y rec => trivial
    | updateTuple y rec => trivial
  · simp only [setTable, update_self]
    exact hRestores
  · intro tab' hTab
    exact update_of_ne hTab _ _
  · cases w with
    | insertTuple y => exact absurd rfl (hPlain y)
    | deleteTuple y rec | updateTuple y rec => simp [ownerAfter, setTable]

theorem rollbackWrite_cases (hRun : e.rollbackWrite t w = some e') :
    Unwinds t e e' ∧ e'.mvccVersions = e.mvccVersions ∧
      (¬ actsOn t (e.physicalInsertOwners w.loc) w ∧ e' = e ∨
        RollsBack t w e e') := by
  cases w with
  | insertTuple x =>
    simp only [rollbackWrite] at hRun
    split at hRun
    · rename_i hOwner
      split at hRun
      · rename_i rec hGet
        split at hRun
        · rename_i tab hDelete
          cases hRun
          have hRestores := restores_delete (record_of_getRecord hGet) hDelete
          have hFields := unregisterPhysicalInsert_fields ((e.setTable x.tab tab).unlock t x) t x
          refine ⟨((unwinds_setTable hRestores.pages).trans (unwinds_unlock _ t x)).trans
            (unwinds_unregisterPhysicalInsert _ t x), hFields.2, Or.inr ⟨hOwner, ?_, ?_, ?_⟩⟩
          · rw [hFields.1]
            simp only [unlock, setTable, WriteRecord.loc, update_self]
            exact hRestores
          · intro tab' hTab
            rw [hFields.1]
            exact update_of_ne hTab _ _
          · simp only [unregisterPhysicalInsert, unlock,
              setTable, hOwner, if_true, WriteRecord.loc, ownerAfter]
        · cases hRun
      · cases hRun
    · rename_i hOwner
      cases hRun
      have hSame : e.unregisterPhysicalInsert t x = e := by
        simp [unregisterPhysicalInsert, hOwner]
      rw [hSame]
      exact ⟨Unwinds.refl t e, rfl, Or.inl ⟨hOwner, rfl⟩⟩
  | deleteTuple x rec =>
    simp only [rollbackWrite] at hRun
    split at hRun
    · rename_i tab hInsert
      cases hRun
      have hRestores := (restores_insert hInsert).2
      exact ⟨unwinds_setTable hRestores.pages, rfl,
        Or.inr (rollsBack_setTable (w := .deleteTuple x rec) (fun y h => by cases h) hRestores)⟩
    · cases hRun
  | updateTuple x rec =>
    simp only [rollbackWrite] at hRun
    split at hRun
    · rename_i rec' hGet
      split at hRun
      · rename_i tab hUpdate
        cases hRun
        have hRestores := (restores_update (record_of_getRecord hGet) hUpdate).2
        exact ⟨unwinds_setTable hRestores.pages, rfl,
          Or.inr (rollsBack_setTable (w := .updateTuple x rec) (fun y h => by cases h) hRestores)⟩
      · cases hRun
    · cases hRun

theorem RollsBack.record (hBack : RollsBack t w e e') :
    e'.db.record = update e.db.record w.loc (beforeWrite w) :=
  Db.record_of_row hBack.restores.record hBack.others

theorem rollbackWrites_spec
    {ws : List WriteRecord}
    (hRun : rollbackWrites t ws e = some e') :
    Unwinds t e e' ∧ e'.mvccVersions = e.mvccVersions ∧ ∀ x, e'.db.record x =
        undone t x ws (e.physicalInsertOwners x) (e.db.record x) := by
  induction ws generalizing e with
  | nil =>
    cases hRun
    exact ⟨Unwinds.refl t _, rfl, fun _ => rfl⟩
  | cons w rest ih =>
    unfold rollbackWrites at hRun
    cases hStep : e.rollbackWrite t w with
    | none => simp [hStep] at hRun
    | some e₁ =>
      simp only [hStep] at hRun
      rcases rollbackWrite_cases hStep with ⟨hUnwinds, hVs, hCase⟩
      rcases ih hRun with ⟨hRest, hVsRest, hRows⟩
      refine ⟨hUnwinds.trans hRest, hVsRest.trans hVs, ?_⟩
      intro x
      rw [hRows x, undone_cons]
      rcases hCase with ⟨hNot, rfl⟩ | hBack
      · rw [if_neg]
        rintro ⟨rfl, hActs⟩
        exact hNot hActs
      · by_cases hX : x = w.loc
        · subst hX
          rw [if_pos ⟨rfl, hBack.acts⟩, hBack.record, hBack.owner, update_self, update_self]
        · rw [if_neg (fun h => hX h.1.symm), hBack.record, hBack.owner, update_of_ne hX,
            update_of_ne hX]

end Rollback

------------
-- Abort
------------

/- What an abort does after the writes are taken back. -/
structure Ends (t : TxnId) (e e' : Engine) : Prop where
  db : e'.db = e.db
  versions : e'.mvccVersions = e.mvccVersions
  tableKeys : e'.mvccTableKeys = e.mvccTableKeys
  tabCols : e'.tabCols = e.tabCols
  nextTxnId : e'.nextTxnId = e.nextTxnId
  lastCommitTs : e'.lastCommitTs = e.lastCommitTs
  counter : e'.gcCommitCounter = e.gcCommitCounter
  owners : e'.physicalInsertOwners = e.physicalInsertOwners
  runningTxns : e'.runningTxns =
      if e.isMvccTxn t then
        e.runningTxns.removeTxn (e.startTs t)
      else
        e.runningTxns
  active : e'.activeMvccTxnCount =
      if e.isMvccTxn t then
        e.activeMvccTxnCount - 1
      else
        e.activeMvccTxnCount
  others : ∀ u, u ≠ t → e'.txn u = e.txn u
  state : e'.state t = .aborted
  writeSet : (e'.txn t).writeSet = []
  keys : (e'.txn t).mvccWriteKeys = (e.txn t).mvccWriteKeys
  level : (e'.txn t).isolationLevel = (e.txn t).isolationLevel
  startTs : (e'.txn t).startTs = (e.txn t).startTs
  commitTs : (e'.txn t).commitTs = (e.txn t).commitTs
  locks : ∀ y, e'.locks y =
      if e.locks y = some t then none else e.locks y
  shared : ∀ x u, u ∈ e'.sharedLocks x → u ≠ t ∧ u ∈ e.sharedLocks x

section Abort

variable {e e' : Engine} {t : TxnId}

theorem leave_fields
    (e : Engine)
    (t : TxnId) :
    e.leave t =
      { e with
        runningTxns :=
          if e.isMvccTxn t then
            e.runningTxns.removeTxn (e.startTs t)
          else
            e.runningTxns,
        activeMvccTxnCount :=
          if e.isMvccTxn t then
            e.activeMvccTxnCount - 1
          else
            e.activeMvccTxnCount } := by
  unfold leave
  split
  · rfl
  · rfl

theorem finishAbort_fields
    (e : Engine)
    (t : TxnId)
    (hasWrites : Bool) :
    ∃ log prevLsn, e.finishAbort t hasWrites =
        { (e.unlockAll t) with
          log := log,
          txn := update e.txn t
            { e.txn t with
              state := .aborted,
              writeSet := [],
              prevLsn := prevLsn } } := by
  cases hasWrites with
  | false => exact ⟨e.log, (e.txn t).prevLsn, rfl⟩
  | true =>
    refine ⟨e.log ++ [⟨e.log.length, t, (e.txn t).prevLsn, .abort⟩], e.log.length, ?_⟩
    simp only [finishAbort, addLogRecord, setTxn, unlockAll,
      if_true, update_idem, update_self]

theorem mem_sharedLocks_unlockAll
    (e : Engine)
    (t : TxnId)
    (x : Loc)
    (u : TxnId)
    (hMem : u ∈ (e.unlockAll t).sharedLocks x) :
    u ≠ t ∧ u ∈ e.sharedLocks x := by
  rcases List.mem_filter.mp hMem with ⟨hOld, hOther⟩
  exact ⟨by simpa using hOther, hOld⟩

theorem ends_versioned
    (e : Engine)
    (t : TxnId)
    (hasWrites : Bool) :
    Ends t e ((((e.clearTxnState t).leave t).cleanupSerializableState
        ).finishAbort t hasWrites) := by
  rcases finishAbort_fields (((e.clearTxnState t).leave t).cleanupSerializableState) t
    hasWrites with ⟨log, prevLsn, hEq⟩
  rw [hEq, leave_fields]
  refine ⟨rfl, rfl, rfl, rfl, rfl, rfl, rfl, rfl, rfl, rfl,
    ?_, ?_, ?_, ?_, ?_, ?_, ?_, fun _ => rfl, mem_sharedLocks_unlockAll _ t⟩
  · intro u hU
    exact update_of_ne hU _ _
  all_goals
    simp [state, cleanupSerializableState, clearTxnState]

theorem ends_plain (hPlain : e.isMvccTxn t = false)
    (hasWrites : Bool) : Ends t e (e.finishAbort t hasWrites) := by
  rcases finishAbort_fields e t hasWrites with ⟨log, prevLsn, hEq⟩
  rw [hEq]
  refine ⟨rfl, rfl, rfl, rfl, rfl, rfl, rfl, rfl, ?_, ?_, ?_, ?_, ?_, ?_, ?_, ?_, ?_, fun _ => rfl,
    mem_sharedLocks_unlockAll _ t⟩
  · simp [hPlain, unlockAll]
  · simp [hPlain, unlockAll]
  · intro u hU
    exact update_of_ne hU _ _
  all_goals simp [state]

theorem abort_cases (hRun : e.abort t = some e') :
    e.hasVersions t = true ∧
            (∃ e₁, abortWrites t (e.txn t).writeSet [] e = some e₁ ∧
            Ends t e₁ e') ∨ e.hasVersions t = false ∧ ∃ e₁,
          rollbackWrites t (e.txn t).writeSet e = some e₁ ∧ Ends t e₁ e' := by
  unfold abort at hRun
  simp only at hRun
  split at hRun
  · rename_i hVersions
    cases hBack : abortWrites t (e.txn t).writeSet [] e with
    | none => simp [hBack, bind] at hRun
    | some e₁ =>
      simp only [hBack, bind, Option.bind, Option.some.injEq] at hRun
      subst hRun
      exact Or.inl ⟨hVersions, e₁, rfl, ends_versioned e₁ t _⟩
  · rename_i hVersions
    have hNot : e.hasVersions t = false := Bool.eq_false_iff.mpr hVersions
    cases hBack : rollbackWrites t (e.txn t).writeSet e with
    | none => simp [hBack, bind] at hRun
    | some e₁ =>
      simp only [hBack, bind, Option.bind, Option.some.injEq] at hRun
      subst hRun
      refine Or.inr ⟨hNot, e₁, rfl, ends_plain ?_ _⟩
      have hTxn := (rollbackWrites_spec hBack).1.txn
      unfold isMvccTxn
      rw [hTxn]
      unfold hasVersions at hNot
      simp only [decide_eq_false_iff_not, not_or, Bool.not_eq_true] at hNot
      exact hNot.1

/- The two parts of an abort. -/
theorem ends_of_abort (hRun : e.abort t = some e') :
    ∃ e₁, Unwinds t e e₁ ∧ Ends t e₁ e' := by
  rcases abort_cases hRun with ⟨-, e₁, hBack, hEnds⟩ | ⟨-, e₁, hBack, hEnds⟩
  · exact ⟨e₁, (abortWrites_spec hBack).1, hEnds⟩
  · exact ⟨e₁, (rollbackWrites_spec hBack).1, hEnds⟩

theorem keepsPages_of_abort (hRun : e.abort t = some e') :
    e.db.KeepsPages e'.db := by
  rcases ends_of_abort hRun with ⟨e₁, hUnwinds, hEnds⟩
  rw [hEnds.db]
  exact hUnwinds.pages

/- An abort gives up the shared locks of its transaction. -/
theorem shared_of_abort
    (hRun : e.abort t = some e')
    {x : Loc}
    {u : TxnId}
    (hMem : u ∈ e'.sharedLocks x) :
    u ≠ t ∧ u ∈ e.sharedLocks x := by
  rcases ends_of_abort hRun with ⟨e₁, hUnwinds, hEnds⟩
  rcases hEnds.shared x u hMem with ⟨hOther, hMiddle⟩
  exact ⟨hOther, hUnwinds.shared x u hMiddle⟩

theorem state_of_abort (hRun : e.abort t = some e') :
    e'.state t = .aborted := by
  rcases ends_of_abort hRun with ⟨e₁, -, hEnds⟩
  exact hEnds.state

end Abort

------------
-- Commit And Garbage Collection
------------

/- What a commit does before garbage collection. -/
structure Commits (t : TxnId) (e e' : Engine) : Prop where
  growing : e.state t = .growing
  db : e'.db = e.db
  tabCols : e'.tabCols = e.tabCols
  nextTxnId : e'.nextTxnId = e.nextTxnId
  tableKeys : e'.mvccTableKeys = e.mvccTableKeys
  lastCommitTs : e'.lastCommitTs =
      if e.hasVersions t then
        e.lastCommitTs + 1
      else
        e.lastCommitTs
  versions : e'.mvccVersions =
      if e.hasVersions t then
        e.settleEntry t (e.lastCommitTs + 1)
      else
        e.mvccVersions
  runningTxns : e'.runningTxns =
      if e.hasVersions t then
        if e.isMvccTxn t then
          (e.runningTxns.updateCommitTs (e.lastCommitTs + 1)).removeTxn (e.startTs t)
        else
          e.runningTxns.updateCommitTs (e.lastCommitTs + 1)
      else
        e.runningTxns
  active : e'.activeMvccTxnCount =
      if e.isMvccTxn t then
        e.activeMvccTxnCount - 1
      else
        e.activeMvccTxnCount
  others : ∀ u, u ≠ t → e'.txn u = e.txn u
  state : e'.state t = .committed
  writeSet : (e'.txn t).writeSet = []
  keys : (e'.txn t).mvccWriteKeys = (e.txn t).mvccWriteKeys
  level : (e'.txn t).isolationLevel = (e.txn t).isolationLevel
  startTs : (e'.txn t).startTs = (e.txn t).startTs
  commitTs : (e'.txn t).commitTs =
      if e.hasVersions t then
        e.lastCommitTs + 1
      else
        (e.txn t).commitTs
  locks : ∀ y, e'.locks y =
      if e.locks y = some t then none else e.locks y
  owners : ∀ y, e'.physicalInsertOwners y = e.physicalInsertOwners y ∨
      e.physicalInsertOwners y = some t ∧ e'.physicalInsertOwners y = none
  shared : ∀ x u, u ∈ e'.sharedLocks x → u ≠ t ∧ u ∈ e.sharedLocks x

section Commit

variable {e e' : Engine} {t : TxnId}

/- Only the owners of physical inserts change. -/
theorem unregisterAll_fields
    (t : TxnId)
    (ws : List WriteRecord) :
    ∃ f : (Loc → Option TxnId) → Loc → Option TxnId,
        (∀ owners y, f owners y = owners y ∨
        owners y = some t ∧ f owners y = none) ∧ ∀ e : Engine,
          e.unregisterAll t ws =
        { e with
          physicalInsertOwners := f e.physicalInsertOwners } := by
  induction ws with
  | nil => exact ⟨id, fun _ _ => Or.inl rfl, fun _ => rfl⟩
  | cons w rest ih =>
    rcases ih with ⟨f, hF, hRest⟩
    have hOne : ∃ g : (Loc → Option TxnId) → Loc → Option TxnId,
        (∀ owners y, g owners y = owners y ∨ owners y = some t ∧ g owners y = none) ∧
        ∀ e : Engine, e.unregisterInsert t w =
          { e with
            physicalInsertOwners := g e.physicalInsertOwners } := by
      cases w with
      | insertTuple x =>
        refine ⟨fun owners => if owners x = some t then
          update owners x none else owners, ?_, ?_⟩
        · intro owners y
          simp only
          split
          · rename_i hOwner
            exact frees_update hOwner y
          · exact Or.inl rfl
        · intro e
          simp only [unregisterInsert, unregisterPhysicalInsert]
          split
          · rfl
          · rfl
      | deleteTuple x rec | updateTuple x rec => exact ⟨id, fun _ _ => Or.inl rfl, fun _ => rfl⟩
    rcases hOne with ⟨g, hG, hHere⟩
    refine ⟨fun owners => f (g owners), ?_, ?_⟩
    · exact fun owners => frees_trans (hG owners) (hF (g owners))
    · intro e
      rw [unregisterAll, hHere, hRest]

/- The commit timestamp is given to the versions. -/
def stampVersions (e : Engine) (t : TxnId) : Engine :=
  let commitTs := e.lastCommitTs + 1
  let e₁ :=
    { e.setTxn t { e.txn t with commitTs := commitTs } with
      mvccVersions := e.settleEntry t commitTs,
      ssi :=
        if (e.txn t).isolationLevel =
            IsolationLevel.serializable then
          e.ssi.finish t commitTs
        else
          e.ssi,
      lastCommitTs := commitTs,
      runningTxns := e.runningTxns.updateCommitTs commitTs }
  { (e₁.leave t).cleanupSerializableState with
    gcCommitCounter := e.gcCommitCounter + 1 }

theorem commitVersions_eq
    (e : Engine)
    (t : TxnId) :
    e.commitVersions t =
      if e.gcCommitCounter % 1024 = 1023 then
        (e.stampVersions t).garbageCollection
      else
        e.stampVersions t := rfl

/- The last part of a commit. -/
def release (e : Engine) (t : TxnId) (ws : List WriteRecord) : Engine :=
  let e₃ := (e.unregisterAll t ws).unlockAll t
  e₃.setTxn t { e₃.txn t with state := .committed, writeSet := [] }

/- Garbage collection does not look at what is released. -/
theorem release_garbageCollection
    (e : Engine)
    (t : TxnId)
    (ws : List WriteRecord) :
    (e.garbageCollection).release t ws =
      (e.release t ws).garbageCollection := by
  rcases unregisterAll_fields t ws with ⟨f, -, hEq⟩
  simp only [release, hEq]
  rfl

theorem commits_of_release
    {e₁ : Engine}
    (hGrowing : e.state t = .growing)
    (hLogged :
      ∃ log prevLsn, e₁ = { e with
        log := log,
        txn := update e.txn t
          { e.txn t with prevLsn := prevLsn } }) :
    Commits t e ((if e.hasVersions t then
          e₁.stampVersions t
        else
          e₁).release t (e.txn t).writeSet) := by
  rcases hLogged with ⟨log, prevLsn, rfl⟩
  rcases unregisterAll_fields t (e.txn t).writeSet with ⟨f, hF, hEq⟩
  cases hVersions : e.hasVersions t with
  | true =>
    simp only [if_true, release, hEq, stampVersions, leave_fields]
    refine ⟨hGrowing, rfl, rfl, rfl, rfl, by simp [hVersions, setTxn,
      unlockAll, cleanupSerializableState], ?_, ?_, ?_, ?_,
      ?_, ?_, ?_, ?_, ?_, ?_, fun _ => rfl, hF e.physicalInsertOwners,
      mem_sharedLocks_unlockAll _ t⟩
    · rw [hVersions, if_pos rfl]
      funext x
      simp [settleEntry, setTxn, unlockAll, cleanupSerializableState]
    · simp [hVersions, setTxn, unlockAll, cleanupSerializableState, isMvccTxn, startTs]
      rfl
    · simp [setTxn, unlockAll, cleanupSerializableState, isMvccTxn]
      rfl
    · intro u hU
      simp [setTxn, unlockAll, cleanupSerializableState, hU]
    · simp [setTxn, state]
    · simp [setTxn]
    · simp [setTxn, unlockAll, cleanupSerializableState]
    · simp [setTxn, unlockAll, cleanupSerializableState]
    · simp [setTxn, unlockAll, cleanupSerializableState]
    · simp [setTxn, unlockAll, cleanupSerializableState, hVersions]
  | false =>
    have hPlain : e.isMvccTxn t = false := by
      unfold hasVersions at hVersions
      simp only [decide_eq_false_iff_not, not_or, Bool.not_eq_true] at hVersions
      exact hVersions.1
    simp only [Bool.false_eq_true, if_false, release, hEq]
    refine ⟨hGrowing, rfl, rfl, rfl, rfl, by simp [hVersions, setTxn, unlockAll], ?_, ?_, ?_, ?_,
      ?_, ?_, ?_, ?_, ?_, ?_, fun _ => rfl, hF e.physicalInsertOwners,
      mem_sharedLocks_unlockAll _ t⟩
    · simp [hVersions, setTxn, unlockAll]
    · simp [hVersions, setTxn, unlockAll]
    · simp [hPlain, setTxn, unlockAll]
    · intro u hU
      simp [setTxn, unlockAll, hU]
    · simp [setTxn, state]
    · simp [setTxn]
    · simp [setTxn, unlockAll]
    · simp [setTxn, unlockAll]
    · simp [setTxn, unlockAll]
    · simp [setTxn, unlockAll, hVersions]

theorem commit_cases (hRun : e.commit t = some e') :
    ∃ e₁, Commits t e e₁ ∧
      (e' = e₁ ∨ e.hasVersions t = true ∧ e' = e₁.garbageCollection) := by
  unfold commit at hRun
  split at hRun
  · cases hRun
  · rename_i hGrowing
    simp only [ne_eq, not_not] at hGrowing
    have hLogged : ∃ log prevLsn, (if e.hasWrites t then e.addLogRecord t .commit else e)
            = { e with
              log := log,
              txn := update e.txn t { e.txn t with prevLsn := prevLsn } } := by
      split
      · exact ⟨_, _, rfl⟩
      · refine ⟨e.log, (e.txn t).prevLsn, ?_⟩
        simp
    simp only [Option.some.injEq] at hRun
    generalize (if e.hasWrites t = true then
      e.addLogRecord t .commit else e) = e₁ at hLogged hRun
    have hCommits := commits_of_release hGrowing hLogged
    refine ⟨_, hCommits, ?_⟩
    cases hVersions : e.hasVersions t with
    | false =>
      rw [hVersions] at hRun
      exact Or.inl hRun.symm
    | true =>
      rw [hVersions, if_pos rfl, commitVersions_eq] at hRun
      split at hRun
      · refine Or.inr ⟨rfl, ?_⟩
        rw [if_pos rfl, ← release_garbageCollection]
        exact hRun.symm
      · exact Or.inl hRun.symm

theorem record_garbageCollection
    (e : Engine)
    (x : Loc) :
    e.garbageCollection.db.record x =
      if e.deadRow x then none else e.db.record x := by
  have hTable : ∀ (tab : Table) (p : Rid → Bool) (rid : Rid), (tab.removeWhere p).record rid =
        if p rid then none else tab.record rid := by
    intro tab p rid
    unfold record image
    by_cases hPage : tab.HasPage rid.pageNo
    · have hSame : (tab.removeWhere p).HasPage rid.pageNo := hPage
      rw [if_pos hSame, if_pos hPage]
      rfl
    · have hSame : ¬ (tab.removeWhere p).HasPage rid.pageNo := hPage
      rw [if_neg hSame, if_neg hPage]
      simp [blankPage]
  exact hTable _ _ _

theorem tableKeysOk_garbageCollection (hOk : e.TableKeysOk) :
    e.garbageCollection.TableKeysOk := by
  intro y
  have hMem : y ∈ e.garbageCollection.mvccTableKeys ↔
      y ∈ e.mvccTableKeys ∧ (e.collectEntry y).isSome := by
    simp [garbageCollection, cleanupSerializableState]
  have hEntry : e.garbageCollection.mvccVersions y = e.collectEntry y := rfl
  rw [hMem, hEntry, hOk y]
  cases hVersion : e.mvccVersions y with
  | none => simp [collectEntry, hVersion]
  | some entry => simp [Option.isSome_iff_ne_none]

end Commit

------------
-- Begin
------------

/- What a begin leaves alone, and the new transaction. -/
structure Begins (e e' : Engine) : Prop where
  db : e'.db = e.db
  versions : e'.mvccVersions = e.mvccVersions
  locks : e'.locks = e.locks
  shared : e'.sharedLocks = e.sharedLocks
  owners : e'.physicalInsertOwners = e.physicalInsertOwners
  others : ∀ u : TxnId, u ≠ e.nextTxnId → e'.txn u = e.txn u
  state : e'.state e.nextTxnId = .growing
  writeSet : (e'.txn e.nextTxnId).writeSet = []
  keys : (e'.txn e.nextTxnId).mvccWriteKeys = []

theorem begins_begin
    (e : Engine)
    (level : IsolationLevel) :
    Begins e (e.begin level) := by
  unfold begin
  split
  · refine ⟨rfl, rfl, rfl, rfl, rfl, ?_, ?_, ?_, ?_⟩
    · intro u hU
      exact update_of_ne hU _ _
    all_goals simp [state, setTxn, MvccTxn.unused]
  · refine ⟨rfl, rfl, rfl, rfl, rfl, ?_, ?_, ?_, ?_⟩
    · intro u hU
      exact update_of_ne hU _ _
    all_goals simp [state, setTxn, MvccTxn.unused]

end Engine

end Rmdb
