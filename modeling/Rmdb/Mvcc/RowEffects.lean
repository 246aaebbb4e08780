import Rmdb.Mvcc.Effects

/-
  This file shows how the row operations of the executors end,
  one statement for each of them.

  Key theorems include:
    * `Engine.insertRow_outcome`
    * `Engine.updateRow_outcome`
    * `Engine.deleteRow_outcome`
-/

namespace Rmdb

open Function Table Option

namespace Engine

------------
-- Inserts
------------

/- The row of an insert is in the heap, with its version. -/
structure Placed
    (t : TxnId)
    (x : Loc)
    (rec : RmRecord)
    (e e₁ : Engine) :
    Prop where
  keeps : Keeps t e e₁
  growing : (e₁.txn t).state = .growing
  free : e.db.record x = none
  slot : (e.db x.tab).HasSlot x.rid
  edits : e.db.Edits e₁.db x (some rec)
  indexes : (e₁.db x.tab).indexes = (e.db x.tab).indexes
  entry : Versions t (.insert x rec) e e₁
  locks : e₁.locks = e.locks
  owners : e₁.physicalInsertOwners = e.physicalInsertOwners
  writeSet : (e₁.txn t).writeSet = (e.txn t).writeSet
  prevLsn : (e₁.txn t).prevLsn = (e.txn t).prevLsn
  log : e₁.log = e.log

section Insert

variable {e e₁ e' : Engine} {t : TxnId} {x : Loc}
variable {rec : RmRecord} {order : List TxnId}

/- The insert is registered and remembered for an abort. -/
def enlist (e : Engine) (t : TxnId) (x : Loc) : Engine :=
  (e.registerPhysicalInsert t x).appendWriteRecord t
    (.insertTuple x)

/- The insert has its lock, if it took one. -/
def hold
    (e : Engine)
    (t : TxnId)
    (x : Loc)
    (locks : Loc → Option TxnId) :
    Engine :=
  { e.enlist t x with locks := locks }

theorem keeps_enlist
    (e : Engine)
    (t : TxnId)
    (x : Loc) :
    Keeps t e (e.enlist t x) :=
  (Keeps.setTxn rfl rfl rfl : Keeps t e (e.appendWriteRecord t (.insertTuple x))).congr rfl

variable (hPlaced : Placed t x rec e e₁)
include hPlaced

theorem Placed.record : (e₁.db x.tab).record x.rid = some rec :=
  hPlaced.edits.record_self

/- The record of a placed row can be deleted. -/
theorem Placed.deleteRecord :
    (e₁.db x.tab).deleteRecord x.rid = .ok ((e₁.db x.tab).setSlot x.rid none) :=
  deleteRecord_ok (hasPage_of_record hPlaced.record)
    ((hPlaced.edits.hasSlot x.tab x.rid).mpr hPlaced.slot) hPlaced.record

/- Without its row the heap is as it was. -/
theorem Placed.edits_back :
    e.db.Edits (update e₁.db x.tab ((e₁.db x.tab).setSlot x.rid none)) x
      (e.physicalRejected (.insert x rec)) := by
  have hNone : e.physicalRejected (.insert x rec) = none := if_pos hPlaced.slot
  rw [hNone]
  refine hPlaced.edits.trans (Db.edits_update ?_ (.refl _))
  intro q
  exact record_setSlot (hasPage_of_record hPlaced.record) none q

/- The handler of a rejected insert. -/
theorem rejected_of_placed
    {locks : Loc → Option TxnId}
    (hLocks : LockStep t x e (e₁.hold t x locks))
    (reason : AbortReason) :
    Rejected t (.insert x rec) e
      ((((e₁.hold t x locks).takeOut t x).unregisterPhysicalInsert t x).fail
        t reason) := by
  have hTake : (e₁.hold t x locks).takeOut t x =
      (e₁.hold t x locks).setTable x.tab ((e₁.db x.tab).setSlot x.rid none) := by
    have hOwner : (e₁.hold t x locks).physicalInsertOwners x = some t := by
      simp [hold, enlist, appendWriteRecord, setTxn, registerPhysicalInsert]
    have hRecord : (e₁.db x.tab).isRecord x.rid = true := by
      simp [isRecord, hPlaced.record]
    have hDelete : ((e₁.hold t x locks).db x.tab).deleteRecord x.rid =
        .ok ((e₁.db x.tab).setSlot x.rid none) := hPlaced.deleteRecord
    unfold takeOut
    rw [if_pos ⟨hOwner, hRecord⟩, hDelete]
  have hRest : (((e₁.hold t x locks).takeOut t x).unregisterPhysicalInsert t x).fail t reason =
        { (e₁.enlist t x).fail t reason with
          locks := locks,
          db := update e₁.db x.tab ((e₁.db x.tab).setSlot x.rid none),
          physicalInsertOwners := update e.physicalInsertOwners x none } := by
    rw [hTake]
    simp [unregisterPhysicalInsert, hold, enlist, appendWriteRecord, setTxn,
      registerPhysicalInsert, setTable, fail, setState, hPlaced.owners]
  rw [hRest]
  have hKeeps : Keeps t e ((e₁.enlist t x).fail t reason) :=
    (hPlaced.keeps.trans (keeps_enlist e₁ t x)).trans (Keeps.setTxn rfl rfl rfl)
  refine ⟨hKeeps.congr rfl, ⟨reason, ?_⟩, hPlaced.edits_back, ?_, (fun _ => rfl),
    ⟨hPlaced.entry.versions, ?_, hPlaced.entry.tableKeys⟩, ?_, hLocks,
    (fun hInserted => by cases hInserted), ?_⟩
  · simp [state, fail, setState, setTxn]
  · intro _
    refine Rekeys.of_indexes ?_
    simp only [DataRecord.tab, DataRecord.loc, update_self]
    exact hPlaced.indexes
  · rw [← hPlaced.entry.keys]
    simp [fail, setState, setTxn, enlist, appendWriteRecord, registerPhysicalInsert]
  · simp [fail, setState, setTxn, enlist, appendWriteRecord,
      registerPhysicalInsert, DataRecord.inserted, DataRecord.writeRecord, hPlaced.writeSet]
  · simp [DataRecord.inserted, DataRecord.loc]

/- The key and log work of an insert that goes through. -/
theorem done_of_placed
    {locks : Loc → Option TxnId}
    (hLocks : LockStep t x e (e₁.hold t x locks))
    (hLocked : e.isMvccTxn t = false →
      (e.locks x = none ∨ e.locks x = some t) ∧ locks x = some t)
    {tab : Table}
    (hKeys : (e₁.db x.tab).insertKeys rec x.rid = some tab) :
    Done t (.insert x rec) e
      (((e₁.hold t x locks).setTable x.tab tab).logChange t
        (.insert x rec)) := by
  have hLog := logChange_spec ((e₁.hold t x locks).setTable x.tab tab) t (.insert x rec)
  generalize ((e₁.hold t x locks).setTable x.tab tab).logChange t (.insert x rec) = e' at hLog
  have hShift := fun i => shifts_insertKeys hKeys i
  have hTable : e₁.db.Edits (update e₁.db x.tab tab) x (e₁.db.record x) := by
    rcases insertKeys_eq_some hKeys with ⟨indexes, -, rfl⟩
    exact Db.edits_same rfl (.refl _)
  have hEdits : e.db.Edits e'.db x (some rec) := by
    have hAll := (hPlaced.edits.trans hTable).trans hLog.edits
    have hValue : Db.record (update e₁.db x.tab tab) x = some rec := by
      rw [hTable.record_same]
      exact hPlaced.record
    rw [← hValue]
    exact hAll
  have hHold : Keeps t e ((e₁.hold t x locks).setTable x.tab tab) :=
    (hPlaced.keeps.trans (keeps_enlist e₁ t x)).congr rfl
  have hTxn := hLog.txn
  refine ⟨hHold.trans hLog.keeps, ?_, ?_, ?_, ⟨?_, ?_, ?_⟩, ?_, ?_, ?_, ?_, ?_⟩
  · simp [state, hTxn, setTable, hold, enlist, appendWriteRecord,
      setTxn, registerPhysicalInsert, hPlaced.growing]
  · unfold physicalAfter
    rw [if_neg (by simp [DataRecord.deleted])]
    exact hEdits
  · intro i
    have hCols : (e₁.db x.tab).cols i = (e.db x.tab).cols i :=
      cols_of_indexes hPlaced.indexes i
    have hHere := hShift i
    rw [hCols] at hHere
    have hIndexes : (e'.db x.tab).indexes = tab.indexes := by
      have h := hLog.indexes
      simp only [setTable, DataRecord.tab, DataRecord.loc, update_self] at h
      exact h
    have hNone : keyIn ((e.db x.tab).cols i) (DataRecord.insert x rec).before = none := by
      cases (e.db x.tab).cols i <;> rfl
    change (e.db x.tab).Shifts (e'.db x.tab) i (keyIn ((e.db x.tab).cols i)
        (DataRecord.insert x rec).before) (keyIn ((e.db x.tab).cols i) (some rec)) x.rid
    rw [hNone]
    exact hHere.congr hPlaced.indexes hIndexes
  · rw [hLog.versions]
    exact hPlaced.entry.versions
  · rw [← hPlaced.entry.keys, hTxn]
    simp [setTable, hold, enlist, appendWriteRecord, setTxn, registerPhysicalInsert]
  · intro hOk y
    rw [hLog.tableKeys, hLog.versions]
    exact hPlaced.entry.tableKeys hOk y
  · rw [hTxn]
    simp [setTable, hold, enlist, appendWriteRecord, setTxn,
      registerPhysicalInsert, DataRecord.writeRecord, hPlaced.writeSet]
  · intro hRc
    rw [hLog.locks]
    exact hLocked hRc
  · intro y
    rw [hLog.locks]
    exact hLocks y
  · rw [hLog.owners]
    simp [setTable, hold, enlist, appendWriteRecord, setTxn, registerPhysicalInsert,
      DataRecord.inserted, DataRecord.loc, hPlaced.owners]
  · rw [hLog.log]
    simp [setTable, hold, enlist, appendWriteRecord, setTxn,
      registerPhysicalInsert, hPlaced.log, hPlaced.prevLsn]

/- A lock is all that a row operation has taken. -/
structure Locked
    (t : TxnId)
    (x : Loc)
    (locks : Loc → Option TxnId)
    (e : Engine) :
    Prop where
  step : LockStep t x e { e with locks := locks }
  locked : e.isMvccTxn t = false → (e.locks x = none ∨ e.locks x = some t) ∧ locks x = some t

omit hPlaced in
theorem locked_of_lockRow (hRun : e.lockRow t x = some e₁) :
    ∃ locks, e₁ = { e with locks := locks } ∧ Locked t x locks e := by
  rcases lockRow_eq_some hRun with ⟨locks, rfl, hMvccLocks, hRcLocks⟩
  refine ⟨locks, rfl, ?_, ?_⟩
  · intro y
    cases hKind : e.isMvccTxn t with
    | true =>
      rw [hMvccLocks hKind]
      exact Or.inl rfl
    | false =>
      rcases hRcLocks hKind with ⟨rfl, hFree⟩
      by_cases hY : y = x
      · subst hY
        exact Or.inr ⟨rfl, rfl, by simp, hFree⟩
      · exact Or.inl (by simp [hY])
  · intro hKind
    rcases hRcLocks hKind with ⟨rfl, hFree⟩
    exact ⟨hFree, by simp⟩

theorem finishInsert_outcome
    {versioned : Bool}
    (hVersioned : versioned = e.shouldVersionWrites t)
    (hRun : e₁.finishInsert t x rec versioned = some e') :
    Outcome t (.insert x rec) e e' := by
  have hMvcc : (e₁.enlist t x).isMvccTxn t = e.isMvccTxn t :=
    (hPlaced.keeps.trans (keeps_enlist e₁ t x)).mvcc t
  have hLocksEq : (e₁.enlist t x).locks = e.locks := hPlaced.locks
  have hReject : ∀ (locks : Loc → Option TxnId) (reason : AbortReason),
      LockStep t x e (e₁.hold t x locks) →
        (e₁.hold t x locks).rejectInsert t x versioned reason = some e' →
          Outcome t (.insert x rec) e e' := by
    intro locks reason hLocks hRejected
    have hSpec := rejected_of_placed hPlaced hLocks reason
    unfold rejectInsert at hRejected
    cases versioned with
    | true =>
      exact .aborted _ hSpec hRejected
    | false =>
      rw [if_neg (by simp), some.injEq] at hRejected
      subst hRejected
      have hRc : e.isMvccTxn t = false := by
        unfold shouldVersionWrites at hVersioned
        simp only [false_eq_decide_iff, not_or] at hVersioned
        simpa using hVersioned.1
      exact .rejected hSpec (fun _ => ⟨hRc, fun _ => hVersioned.symm⟩)
  have hEnlist : (e₁.registerPhysicalInsert t x).appendWriteRecord t (.insertTuple x) =
      e₁.enlist t x := rfl
  simp only [finishInsert, hEnlist] at hRun
  cases hLock : (e₁.enlist t x).lockRow t x with
  | none =>
    rw [hLock] at hRun
    refine hReject (e₁.enlist t x).locks .lockConflict ?_ hRun
    intro y
    exact Or.inl (congrFun hLocksEq y)
  | some e₂ =>
    simp only [hLock] at hRun
    rcases locked_of_lockRow hLock with ⟨locks, hEq, hStep, hLocked⟩
    obtain rfl : e₂ = e₁.hold t x locks := hEq
    have hStep' : LockStep t x e (e₁.hold t x locks) := by
      intro y
      have h := hStep y
      rw [hMvcc, hLocksEq] at h
      exact h
    rw [hMvcc, hLocksEq] at hLocked
    cases hKeys : ((e₁.hold t x locks).db x.tab).insertKeys rec x.rid with
    | none =>
      rw [hKeys] at hRun
      exact hReject locks .duplicateKey hStep' hRun
    | some tab =>
      simp only [hKeys, some.injEq] at hRun
      subst hRun
      exact .done (done_of_placed hPlaced hStep' hLocked hKeys)

omit hPlaced

theorem Refuses.refl (e : Engine) : Refuses t e e :=
  ⟨Keeps.refl t e, rfl, rfl, rfl, rfl, rfl, rfl, id⟩

/- A throw that leaves the entries, and the rows as they were. -/
theorem quiet_of_refuses
    {db₀ db : Db}
    {locks : Loc → Option TxnId}
    (hGrowing : e.state t = .growing)
    (hLocks : LockStep t x e { e with locks := locks })
    (hRefuses : Refuses t { e with db := db₀, locks := locks } e₁)
    (hEdits : e.db.Edits db x (e.db.record x))
    (hIndexes : (db x.tab).indexes = (e.db x.tab).indexes)
    (reason : AbortReason) :
    Quiet t x e ({ e₁ with db := db }.fail t reason) := by
  have hStart : Keeps t e { e with db := db₀, locks := locks } := .same rfl
  have hKeeps : Keeps t e ({ e₁ with db := db }.fail t reason) :=
    ((hStart.trans hRefuses.keeps).trans
      (Keeps.setTxn rfl rfl rfl : Keeps t e₁ (e₁.fail t reason))).congr rfl
  have hTxn : e₁.txn t = e.txn t := hRefuses.txn
  refine ⟨hKeeps, hGrowing, Or.inr ⟨reason, ?_⟩, hEdits,
    hIndexes, hRefuses.versions, hRefuses.tableKeys, ?_, hRefuses.owners, ?_, ?_, hRefuses.log⟩
  · simp [state, fail, setState, setTxn]
  · intro y
    have hY : e₁.locks y = locks y := congrFun hRefuses.locks y
    change e₁.locks y = e.locks y ∨ _ ∧ _ ∧ e₁.locks y = some t ∧ _
    rw [hY]
    exact hLocks y
  · simp [fail, setState, setTxn, hTxn]
  · simp [fail, setState, setTxn, hTxn]

theorem quiet_fail
    (hGrowing : e.state t = .growing)
    (x : Loc)
    (reason : AbortReason) :
    Quiet t x e (e.fail t reason) :=
  quiet_of_refuses hGrowing (fun _ => Or.inl rfl) (Refuses.refl e) Db.Edits.refl rfl reason

/- The handler takes the row of a refused insert out again. -/
theorem deletePhysical_of_refuses
    {tab : Table}
    (hAllocate : (e.db x.tab).allocate x.rid = some tab)
    (hRefuses : Refuses t
        (e.setTable x.tab (tab.setSlot x.rid (some rec))) e₁) :
    ∃ db, e₁.deletePhysical x = { e₁ with db := db } ∧
      e.db.Edits db x (e.db.record x) ∧
      (db x.tab).indexes = (e.db x.tab).indexes := by
  rcases allocate_spec hAllocate with ⟨hFree, hSlot, hPage, hRecord, hIndexes, hPages⟩
  have hDb : e₁.db = update e.db x.tab (tab.setSlot x.rid (some rec)) := hRefuses.db
  have hTab : e₁.db x.tab = tab.setSlot x.rid (some rec) := by rw [hDb, update_self]
  have hThere : (tab.setSlot x.rid (some rec)).record x.rid = some rec := by
    rw [record_setSlot hPage, if_pos rfl]
  have hSlotTab : (tab.setSlot x.rid (some rec)).HasSlot x.rid := by
    change 0 ≤ x.rid.slotNo ∧ x.rid.slotNo < tab.numRecordsPerPage
    rw [hPages.1]
    exact hSlot
  have hDelete := deleteRecord_ok ((hasPage_setSlot _ _ _ _).mpr hPage) hSlotTab hThere
  refine ⟨update e.db x.tab ((tab.setSlot x.rid (some rec)).setSlot x.rid none),
    ?_, ?_, ?_⟩
  · unfold deletePhysical
    rw [hTab, hDelete]
    simp only [setTable, hDb, update_idem]
  · rw [show e.db.record x = none from hFree]
    refine Db.edits_update ?_ hPages
    intro q
    rw [record_setSlot ((hasPage_setSlot _ _ _ _).mpr hPage),
      record_setSlot hPage, hRecord]
    by_cases hQ : q = x.rid
    · simp [hQ]
    · simp [hQ]
  · rw [update_self]
    exact hIndexes

theorem Marks.entry
    {d : DataRecord}
    {db : Db}
    {locks : Loc → Option TxnId}
    (hMarks : Marks t d { e with db := db, locks := locks } e₁)
    (hVersioned : e.shouldVersionWrites t = true) :
    Versions t d e e₁ := by
  refine ⟨?_, ?_, hMarks.tableKeys⟩
  · rw [if_pos hVersioned]
    exact hMarks.versions
  · rw [hMarks.keys]
    by_cases hKey : d.loc ∈ (e.txn t).mvccWriteKeys
    · simp [hKey]
    · simp [hKey, hVersioned]

/- The row is in the heap before the version entry is made. -/
theorem placed_of_marks
    {tab : Table}
    (hGrowing : e.state t = .growing)
    (hAllocate : (e.db x.tab).allocate x.rid = some tab)
    (hVersioned : e.shouldVersionWrites t = true)
    (hMarks : Marks t (.insert x rec)
        (e.setTable x.tab (tab.setSlot x.rid (some rec))) e₁) :
    Placed t x rec e e₁ := by
  rcases allocate_spec hAllocate with ⟨hFree, hSlot, hPage, hRecord, hIndexes, hPages⟩
  have hKeeps : Keeps t e e₁ :=
    (.same rfl : Keeps t e (e.setTable x.tab (tab.setSlot x.rid (some rec)))).trans hMarks.keeps
  refine ⟨hKeeps, ?_, hFree, hSlot, ?_, ?_, hMarks.entry hVersioned,
    hMarks.locks, hMarks.owners, hMarks.writeSet, hMarks.prevLsn, hMarks.log⟩
  · rw [hMarks.state]
    exact hGrowing
  · rw [hMarks.db]
    refine Db.edits_update ?_ hPages
    intro q
    rw [record_setSlot hPage, hRecord]
  · rw [hMarks.db]
    simp only [setTable, update_self]
    exact hIndexes

theorem placed_of_allocate
    {tab : Table}
    (hGrowing : e.state t = .growing)
    (hAllocate : (e.db x.tab).allocate x.rid = some tab)
    (hVersioned : e.shouldVersionWrites t = false) :
    Placed t x rec e (e.setTable x.tab (tab.setSlot x.rid (some rec))) := by
  rcases allocate_spec hAllocate with ⟨hFree, hSlot, hPage, hRecord, hIndexes, hPages⟩
  refine ⟨.same rfl, hGrowing, hFree, hSlot, ?_, ?_, ⟨?_, ?_, id⟩, rfl, rfl, rfl, rfl, rfl⟩
  · refine Db.edits_update ?_ hPages
    intro q
    rw [record_setSlot hPage, hRecord]
  · simp only [setTable, update_self]
    exact hIndexes
  · simp [hVersioned, setTable]
  · simp [hVersioned, setTable]

theorem insertRow_outcome (hStart : e.isMvccTxn t = true → 0 ≤ e.startTs t)
    (hRun : e.insertRow t x rec order = some e') :
    Quiet t x e e' ∨ CanChange t (.insert x rec) e ∧
      Outcome t (.insert x rec) e e' := by
  unfold insertRow at hRun
  split at hRun
  · cases hRun
  · rename_i hReady
    simp only [ne_eq, not_or, not_not] at hReady
    rcases hReady with ⟨hGrowing, -⟩
    split at hRun
    · cases hRun
      exact Or.inl (quiet_fail hGrowing x .mvccConflict)
    · rename_i hUnique
      cases hAllocate : (e.db x.tab).allocate x.rid with
      | none => simp [hAllocate] at hRun
      | some tab =>
        have hAlloc := allocate_spec hAllocate
        simp only [hAllocate] at hRun
        have hLater : e.isMvccTxn t = false → (DataRecord.insert x rec).inserted = false →
              e.locks x = none ∨ e.locks x = some t := by
          intro _ hInserted
          cases hInserted
        have hUnique' : e.isMvccTxn t = true → (DataRecord.insert x rec).deleted = false →
              e.uniqueConflict t x.tab rec none = false := by
          intro hMvcc _
          rw [Bool.eq_false_iff]
          exact fun h => hUnique ⟨hMvcc, h⟩
        split at hRun
        · rename_i hVersioned
          have hCall : (e.setTable x.tab (tab.setSlot x.rid (some rec))).mvccInsert t x rec order =
              (e.setTable x.tab (tab.setSlot x.rid (some rec))).mvccWrite t
                (.insert x rec) order := rfl
          rw [hCall] at hRun
          cases hWrite : (e.setTable x.tab (tab.setSlot x.rid (some rec))).mvccWrite t
                (.insert x rec) order with
          | ok e₁ =>
            rw [hWrite] at hRun
            have hMarks := mvccWrite_ok hWrite
            have hPlaced := placed_of_marks hGrowing hAllocate hVersioned hMarks
            exact Or.inr ⟨⟨hGrowing, ⟨hAlloc.1, hAlloc.2.1⟩, hUnique', hMarks.conflict, hLater⟩,
              finishInsert_outcome hPlaced hVersioned.symm hRun⟩
          | error err =>
            rcases err with ⟨reason, e₁⟩
            rw [hWrite] at hRun
            have hRefuses : Refuses t (e.setTable x.tab (tab.setSlot x.rid (some rec))) e₁ :=
              mvccWrite_error (fun hMvcc => hStart hMvcc) hWrite
            rcases deletePhysical_of_refuses hAllocate hRefuses with ⟨db, hDb, hEdits, hIndexes⟩
            simp only [hDb] at hRun
            cases hRun
            exact Or.inl (quiet_of_refuses hGrowing (fun _ => Or.inl rfl)
              hRefuses hEdits hIndexes reason)
        · rename_i hVersioned
          have hNot : e.shouldVersionWrites t = false := by simpa using hVersioned
          have hPlaced : Placed t x rec e (e.setTable x.tab (tab.setSlot x.rid (some rec))) :=
            placed_of_allocate hGrowing hAllocate hNot
          have hRc : e.isMvccTxn t = false := by
            unfold shouldVersionWrites at hNot
            simp only [decide_eq_false_iff_not, not_or] at hNot
            simpa using hNot.1
          refine Or.inr ⟨⟨hGrowing, ⟨hAlloc.1, hAlloc.2.1⟩, hUnique', ?_, hLater⟩,
            finishInsert_outcome hPlaced hNot.symm hRun⟩
          intro hMvcc
          rw [hRc] at hMvcc
          cases hMvcc

end Insert

------------
-- Updates
------------

theorem record_of_visible
    {e : Engine}
    {t : TxnId}
    {x : Loc}
    {rec : RmRecord}
    (hVisible : e.getVisibleRecord t x = some rec) :
    ∃ physical, e.db.record x = some physical := by
  unfold getVisibleRecord at hVisible
  cases hRecord : e.db.record x with
  | none => simp [hRecord] at hVisible
  | some physical => exact ⟨physical, rfl⟩

/- A change is locked and has its version entry. -/
structure Prepared
    (t : TxnId)
    (d : DataRecord)
    (e e₁ : Engine) :
    Prop where
  keeps : Keeps t e e₁
  growing : (e₁.txn t).state = .growing
  record : e.db.record d.loc ≠ none
  kind : d.inserted = false
  db : e₁.db = e.db
  entry : Versions t d e e₁
  locks : LockStep t d.loc e e₁
  locked : e.isMvccTxn t = false → (e.locks d.loc = none ∨ e.locks d.loc = some t) ∧
        e₁.locks d.loc = some t
  owners : e₁.physicalInsertOwners = e.physicalInsertOwners
  writeSet : (e₁.txn t).writeSet =
      if e.shouldVersionWrites t then
        d.writeRecord :: (e.txn t).writeSet
      else
        (e.txn t).writeSet
  prevLsn : (e₁.txn t).prevLsn = (e.txn t).prevLsn
  log : e₁.log = e.log

section Change

variable {e e₁ e' : Engine} {t : TxnId} {x : Loc}
variable {d : DataRecord} {order : List TxnId}

/- The state after the log record, seen from the start. -/
theorem Prepared.logged (hPrepared : Prepared t d e e₁) :
    Keeps t e (e₁.logChange t d) ∧
      e.db.Edits (e₁.logChange t d).db d.loc (e.db.record d.loc) ∧
      ((e₁.logChange t d).db d.tab).indexes = (e.db d.tab).indexes := by
  have hLog := logChange_spec e₁ t d
  refine ⟨hPrepared.keeps.trans hLog.keeps, ?_, ?_⟩
  · have h := hLog.edits
    rw [hPrepared.db] at h
    exact h
  · rw [hLog.indexes, hPrepared.db]

/- The work on the table after the log record, and a change of
  the transaction's own state. -/
theorem Prepared.worked
    (hPrepared : Prepared t d e e₁)
    {tab : Table}
    {v : Option RmRecord}
    {st : TxnState}
    {ws : List WriteRecord}
    (hRecord : ∀ q, tab.record q = if q =
      d.rid then v else (e.db d.tab).record q)
    (hPages : ((e₁.logChange t d).db d.tab).KeepsPages tab)
    {e' : Engine}
    (hE' : e' = ((e₁.logChange t d).setTable d.tab tab).setTxn t
      { (e₁.logChange t d).txn t with state := st, writeSet := ws }) :
    Keeps t e e' ∧ e.db.Edits e'.db d.loc v ∧ Versions t d e e' ∧
      LockStep t d.loc e e' ∧
      (e.isMvccTxn t = false →
        (e.locks d.loc = none ∨ e.locks d.loc = some t) ∧
        e'.locks d.loc = some t) ∧
      e'.physicalInsertOwners =
        (if d.inserted then update e.physicalInsertOwners d.loc (some t)
          else e.physicalInsertOwners) ∧
      e'.log = e.log ++ [⟨e.log.length, t, (e.txn t).prevLsn, .data d⟩] := by
  have hLog := logChange_spec e₁ t d
  rcases hPrepared.logged with ⟨hKeeps, hEdits, -⟩
  generalize e₁.logChange t d = e₂ at hLog hKeeps hEdits hE' hPages
  subst hE'
  have hTable : e₂.db.Edits (update e₂.db d.tab tab) d.loc v := by
    refine Db.edits_update (fun q => ?_) hPages
    have hEq : (e₂.db d.tab).record q = (e.db d.tab).record q :=
      congrFun hEdits.record_same ⟨d.tab, q⟩
    change _ = if q = d.rid then _ else (e₂.db d.tab).record q
    rw [hRecord, hEq]
  refine ⟨?_, hEdits.trans hTable, ⟨hLog.versions.trans hPrepared.entry.versions, ?_, ?_⟩, ?_, ?_,
    ?_, ?_⟩
  · have hTab : Keeps t e (e₂.setTable d.tab tab) := hKeeps.congr rfl
    exact hTab.trans (Keeps.setTxn rfl rfl rfl)
  · rw [← hPrepared.entry.keys]
    simp [setTxn, hLog.txn]
  · intro hOk y
    have h := hPrepared.entry.tableKeys hOk y
    rw [← hLog.tableKeys, ← hLog.versions] at h
    exact h
  · intro y
    have h := hPrepared.locks y
    rw [← hLog.locks] at h
    exact h
  · intro hRc
    have h := hPrepared.locked hRc
    rw [← hLog.locks] at h
    exact h
  · rw [if_neg (by simp [hPrepared.kind])]
    exact hLog.owners.trans hPrepared.owners
  · change e₂.log = _
    rw [hLog.log, hPrepared.log, hPrepared.prevLsn]

/- The change is rejected after the log record. -/
theorem Prepared.rejected
    (hPrepared : Prepared t d e e₁)
    {tab : Table}
    (hRecord : ∀ q, tab.record q = if q = d.rid then e.physicalRejected d
      else (e.db d.tab).record q)
    (hPages : ((e₁.logChange t d).db d.tab).KeepsPages tab)
    (hRekeys : (e.db d.tab).HasSlot d.rid →
      (e.db d.tab).Rekeys tab d.before d.before d.rid)
    (hKept : (e.db d.tab).HasSlot d.rid → d.deleted = false)
    (reason : AbortReason) :
    Rejected t d e (((e₁.logChange t d).setTable d.tab tab).fail t reason) := by
  rcases hPrepared.worked hRecord hPages rfl with
    ⟨hKeeps, hEdits, hVersions, hLocks, hLocked, hOwners, -⟩
  refine ⟨hKeeps, ⟨reason, ?_⟩, hEdits, ?_, hKept, hVersions, ?_, hLocks,
    fun _ hRc => (hLocked hRc).2, ?_⟩
  · simp [state, fail, setState, setTxn]
  · intro hSlot
    simp only [fail, setState, setTxn, setTable, update_self]
    exact hRekeys hSlot
  · simp [fail, setState, setTxn, setTable, (logChange_spec e₁ t d).txn,
      hPrepared.writeSet, hPrepared.kind]
  · rw [if_neg (by simp [hPrepared.kind])] at hOwners ⊢
    exact hOwners

/- The row has no slot to change. -/
theorem Prepared.noSlot
    (hPrepared : Prepared t d e e₁)
    {tab : Table}
    (hRecord : tab.record = (e.db d.tab).record)
    (hPages : ((e₁.logChange t d).db d.tab).KeepsPages tab)
    (hNo : ¬ (e.db d.tab).HasSlot d.rid) :
    Outcome t d e (((e₁.logChange t d).setTable d.tab tab).fail t
      .recordNotFound) := by
  refine .rejected (hPrepared.rejected ?_ hPages (fun h => absurd h hNo) (fun h => absurd h hNo) _)
    (fun h => absurd h hNo)
  intro q
  rw [hRecord, show e.physicalRejected d = e.db.record d.loc from if_neg hNo]
  split
  · rename_i hQ
    rw [hQ]
    rfl
  · rfl

theorem setTxn_self
    (e : Engine)
    (t : TxnId) :
    e.setTxn t (e.txn t) = e := by
  simp [setTxn]

/- The change is made after the log record. -/
theorem Prepared.done
    (hPrepared : Prepared t d e e₁)
    {tab : Table}
    {versioned : Bool}
    (hVersioned : versioned = e.shouldVersionWrites t)
    (hRecord : ∀ q, tab.record q = if q = d.rid then e.physicalAfter t d
      else (e.db d.tab).record q)
    (hPages : ((e₁.logChange t d).db d.tab).KeepsPages tab)
    (hShifts : ∀ i, (e.db d.tab).Shifts tab i
      (keyIn ((e.db d.tab).cols i) d.before)
        (keyIn ((e.db d.tab).cols i) d.after) d.rid) :
    Done t d e (if versioned then (e₁.logChange t d).setTable d.tab tab
      else ((e₁.logChange t d).setTable d.tab tab).appendWriteRecord t
        d.writeRecord) := by
  have hTxn := (logChange_spec e₁ t d).txn
  have hEnd : (if versioned then (e₁.logChange t d).setTable d.tab tab
      else ((e₁.logChange t d).setTable d.tab tab).appendWriteRecord t d.writeRecord) =
      ((e₁.logChange t d).setTable d.tab tab).setTxn t
        { (e₁.logChange t d).txn t with writeSet := d.writeRecord :: (e.txn t).writeSet } := by
    have hSet := hPrepared.writeSet
    rw [← hVersioned] at hSet
    cases versioned with
    | true =>
      have hSame : (e₁.logChange t d).txn t =
          { (e₁.logChange t d).txn t with writeSet := d.writeRecord :: (e.txn t).writeSet } := by
        rw [hTxn]
        simpa using hSet
      rw [← hSame]
      exact (setTxn_self ((e₁.logChange t d).setTable d.tab tab) t).symm
    | false => simp [appendWriteRecord, setTable, hTxn, hSet]
  rw [hEnd]
  rcases hPrepared.worked hRecord hPages rfl with
    ⟨hKeeps, hEdits, hVersions, hLocks, hLocked, hOwners, hLog⟩
  refine ⟨hKeeps, ?_, hEdits, ?_, hVersions, ?_, hLocked, hLocks, hOwners, hLog⟩
  · simp [state, setTxn, hTxn, hPrepared.growing]
  · intro i
    simp only [setTxn, setTable, update_self]
    exact hShifts i
  · simp [setTxn]

theorem physicalAfter_of_not_deleted
    (hKept : d.deleted = false) : e.physicalAfter t d = d.after := by
  simp [physicalAfter, hKept]

/- What the heap part of an update can come to. -/
theorem updateRecord_cases
    {tab : Table}
    {rid : Rid}
    (hRecord : tab.record rid ≠ none)
    (rec : RmRecord) :
    tab.HasSlot rid ∧
      tab.updateRecord rid rec = .ok (tab.setSlot rid (some rec)) ∨
      ¬ tab.HasSlot rid ∧ ∃ err, tab.updateRecord rid rec = .error err := by
  rcases ne_none_iff_exists'.mp hRecord with ⟨old, hOld⟩
  have hPage := hasPage_of_record hOld
  by_cases hSlot : tab.HasSlot rid
  · exact Or.inl ⟨hSlot, updateRecord_ok hPage hSlot hOld rec⟩
  · refine Or.inr ⟨hSlot, .recordNotFound rid, ?_⟩
    simp [updateRecord, fetchPageHandle_ok hPage, hSlot, bind, Except.bind]

/- The heap and key work of an update. -/
theorem applyUpdate_outcome
    {old new : RmRecord}
    {versioned : Bool}
    (hPrepared : Prepared t (.update x old new) e e₁)
    (hVersioned : versioned = e.shouldVersionWrites t)
    (hRun : e₁.applyUpdate t x old new versioned = some e') :
    Outcome t (.update x old new) e e' := by
  rcases hPrepared.logged with ⟨hKeeps, hEdits, hIndexes⟩
  have hDone := fun tab => @Prepared.done e e₁ t (.update x old new) hPrepared tab versioned
  have hRejected := fun tab => @Prepared.rejected e e₁ t (.update x old new) hPrepared tab
  have hNoSlot := fun tab => @Prepared.noSlot e e₁ t (.update x old new) hPrepared tab
  unfold applyUpdate at hRun
  simp only at hRun
  generalize e₁.logChange t (.update x old new) = e₂ at *
  simp only [DataRecord.tab, DataRecord.rid, DataRecord.loc]
    at hEdits hIndexes hDone hRejected hNoSlot
  -- the table with the changed keys gone
  have hRecord₀ : ((e₂.db x.tab).deleteChangedKeys old new).record = (e.db x.tab).record := by
    funext q
    exact congrFun hEdits.record_same ⟨x.tab, q⟩
  have hPages₀ : (e₂.db x.tab).KeepsPages ((e₂.db x.tab).deleteChangedKeys old new) := .refl _
  have hIndexes₀ : ((e₂.db x.tab).deleteChangedKeys old new).indexes =
        ((e.db x.tab).deleteChangedKeys old new).indexes := by
    simp only [deleteChangedKeys, hIndexes]
  generalize (e₂.db x.tab).deleteChangedKeys old new = tab₀ at *
  have hThere : tab₀.record x.rid ≠ none := by
    rw [hRecord₀]
    exact hPrepared.record
  have hSlotIff : tab₀.HasSlot x.rid ↔ (e.db x.tab).HasSlot x.rid := by
    unfold HasSlot
    rw [hPages₀.1.trans hEdits.slots]
  rcases updateRecord_cases hThere new with ⟨hSlot, hUpdate⟩ | ⟨hSlot, err, hUpdate⟩
  · rw [hUpdate] at hRun
    simp only at hRun
    have hSlot' := hSlotIff.mp hSlot
    have hPage : tab₀.HasPage x.rid.pageNo := by
      rcases ne_none_iff_exists'.mp hThere with ⟨r, hR⟩
      exact hasPage_of_record hR
    cases hKeys : (tab₀.setSlot x.rid (some new)).insertChangedKeys old new x.rid with
    | some tab₂ =>
      rw [hKeys] at hRun
      simp only at hRun
      have hIndexes₁ : (tab₀.setSlot x.rid (some new)).indexes =
            ((e.db x.tab).deleteChangedKeys old new).indexes := hIndexes₀
      have hShifts := fun i => shifts_update hIndexes₁ hKeys i
      rcases insertChangedKeys_eq_some hKeys with ⟨indexes, -, rfl⟩
      have hSpec := hDone { tab₀.setSlot x.rid (some new) with indexes := indexes } hVersioned (by
          intro q
          change (tab₀.setSlot x.rid (some new)).record q = _
          rw [record_setSlot hPage, hRecord₀, physicalAfter_of_not_deleted rfl]
          rfl) hPages₀ hShifts
      cases versioned with
      | true | false =>
        cases hRun
        exact .done hSpec
    | none =>
      rw [hKeys] at hRun
      simp only at hRun
      have hThere₁ : (tab₀.setSlot x.rid (some new)).record x.rid ≠
            none := by
        rw [record_setSlot hPage]
        simp
      rcases updateRecord_cases hThere₁ old with ⟨-, hBack⟩ | ⟨hSlot₁, -⟩
      · rw [hBack] at hRun
        simp only at hRun
        have hPage₁ : (tab₀.setSlot x.rid (some new)).HasPage
              x.rid.pageNo := hPage
        have hSpec := hRejected (((tab₀.setSlot x.rid (some new)).setSlot x.rid
            (some old)).restoreChangedKeys old new x.rid) (by
            intro q
            change ((tab₀.setSlot x.rid (some new)).setSlot x.rid (some old)).record q = _
            rw [record_setSlot hPage₁, record_setSlot hPage, hRecord₀,
              show e.physicalRejected (.update x old new) = some old from if_pos hSlot']
            by_cases hQ : q = x.rid
            · simp [hQ]
            · simp [hQ]) hPages₀ (fun _ => rekeys_reject hIndexes₀)
          (fun _ => rfl) .duplicateKey
        have hMvcc₃ : ((e₂.setTable x.tab (((tab₀.setSlot x.rid (some new)).setSlot x.rid
                (some old)).restoreChangedKeys old new x.rid)).fail t .duplicateKey).isMvccTxn t =
              e.isMvccTxn t := hSpec.keeps.mvcc t
        split at hRun
        · exact .aborted _ hSpec hRun
        · rename_i hRc
          rw [some.injEq] at hRun
          subst hRun
          rw [hMvcc₃] at hRc
          exact .rejected hSpec (fun _ => ⟨by simpa using hRc, fun h => by cases h⟩)
      · exact absurd hSlot hSlot₁
  · rw [hUpdate] at hRun
    simp only [some.injEq] at hRun
    subst hRun
    exact hNoSlot tab₀ hRecord₀ hPages₀ (fun h => hSlot (hSlotIff.mpr h))

theorem Locked.quiet
    {locks : Loc → Option TxnId}
    (hLocked : Locked t x locks e)
    (hGrowing : e.state t = .growing) :
    Quiet t x e { e with locks := locks } :=
  ⟨.same rfl, hGrowing, Or.inl hGrowing, Db.Edits.refl, rfl, rfl, id, hLocked.step, rfl, rfl, rfl,
    rfl⟩

/- A throw after the lock. -/
theorem Locked.quiet_fail
    {locks : Loc → Option TxnId}
    (hLocked : Locked t x locks e)
    (hGrowing : e.state t = .growing)
    (hRefuses : Refuses t { e with locks := locks } e₁)
    (reason : AbortReason) :
    Quiet t x e (e₁.fail t reason) := by
  have hDb : e₁.db = e.db := hRefuses.db
  refine quiet_of_refuses hGrowing hLocked.step hRefuses ?_ ?_ reason
  · rw [hDb]
    exact Db.Edits.refl
  · rw [hDb]

/- The compensation keys are no part of a row's effect. -/
theorem Marks.compensate (hMarks : Marks t d e e₁)
    (x : Loc) : Marks t d e (e₁.addCompensationKey x) :=
  { hMarks with keeps := hMarks.keeps.congr rfl }

/- Lock, version entry and write record of a change. -/
theorem prepared_of_marks
    {locks : Loc → Option TxnId}
    (hLocked : Locked t d.loc locks e)
    (hGrowing : e.state t = .growing)
    (hKind : d.inserted = false)
    (hRecord : e.db.record d.loc ≠ none)
    (hVersioned : e.shouldVersionWrites t = true)
    (hMarks : Marks t d { e with locks := locks } e₁) :
    Prepared t d e (e₁.appendWriteRecord t d.writeRecord) := by
  have hLock : Keeps t e { e with locks := locks } := .same rfl
  have hLocks : e₁.locks = locks := hMarks.locks
  have hEntry := hMarks.entry hVersioned
  refine ⟨(hLock.trans hMarks.keeps).trans
    (Keeps.setTxn rfl rfl rfl), ?_, hRecord, hKind, hMarks.db,
    ⟨hEntry.versions, ?_, hEntry.tableKeys⟩, ?_, ?_, hMarks.owners, ?_, ?_, hMarks.log⟩
  · simp only [appendWriteRecord, setTxn, update_self, hMarks.state]
    exact hGrowing
  · simpa [appendWriteRecord, setTxn] using hEntry.keys
  · intro y
    have h := hLocked.step y
    change e₁.locks y = e.locks y ∨ _ ∧ _ ∧ e₁.locks y = some t ∧ _
    rw [hLocks]
    exact h
  · intro hRc
    have h := hLocked.locked hRc
    change _ ∧ e₁.locks d.loc = some t
    rw [hLocks]
    exact h
  · simp [appendWriteRecord, setTxn, hMarks.writeSet, hVersioned]
  · simp [appendWriteRecord, setTxn, hMarks.prevLsn]

/- A change without versions needs only its lock. -/
theorem prepared_of_locked
    {locks : Loc → Option TxnId}
    (hLocked : Locked t d.loc locks e)
    (hGrowing : e.state t = .growing)
    (hKind : d.inserted = false)
    (hRecord : e.db.record d.loc ≠ none)
    (hVersioned : e.shouldVersionWrites t = false) :
    Prepared t d e { e with locks := locks } := by
  refine ⟨.same rfl, hGrowing, hRecord, hKind, rfl, ⟨?_, ?_, id⟩, hLocked.step, hLocked.locked, rfl,
    ?_, rfl, rfl⟩ <;> simp [hVersioned]

/- `MvccUpdate` and `MvccDelete` may note a compensation key
  after the work of `mvccWrite`. -/
def Notes (x : Loc) (call write : Call) : Prop :=
  (∀ err, call = .error err → write = .error err) ∧
    ∀ e₁, call = .ok e₁ → ∃ e₀, write = .ok e₀ ∧ (e₁ = e₀ ∨ e₁ = e₀.addCompensationKey x)

theorem notes_mvccUpdate
    (e : Engine)
    (t : TxnId)
    (x : Loc)
    (old new : RmRecord)
    (order : List TxnId) :
    Notes x (e.mvccUpdate t x old new order)
      (e.mvccWrite t (.update x old new) order) := by
  unfold mvccUpdate mvccWrite
  simp only [DataRecord.loc, DataRecord.before, DataRecord.after, DataRecord.oldRecord,
    DataRecord.inserted, DataRecord.headRecord, DataRecord.deleted, bind, Except.bind]
  cases e.checkSerializableWrite t x (some old) (some new) order with
  | error err => simp [Notes]
  | ok e₁ =>
    cases hPrepare : e₁.prepareWrite t x old false with
    | error err => simp [Notes, hPrepare]
    | ok e₂ =>
      simp only [hPrepare]
      split <;> simp [Notes]

theorem notes_mvccDelete
    (e : Engine)
    (t : TxnId)
    (x : Loc)
    (rec : RmRecord)
    (order : List TxnId) :
    Notes x (e.mvccDelete t x rec order)
      (e.mvccWrite t (.delete x rec) order) := by
  unfold mvccDelete mvccWrite
  simp only [DataRecord.loc, DataRecord.before, DataRecord.after, DataRecord.oldRecord,
    DataRecord.inserted, DataRecord.headRecord, DataRecord.deleted, bind, Except.bind]
  cases e.checkSerializableWrite t x (some rec) none order with
  | error err => simp [Notes]
  | ok e₁ => cases hPrepare : e₁.prepareWrite t x rec false <;> simp [Notes, hPrepare]

theorem Notes.marks
    {call : Call}
    (hNotes : Notes x call (e.mvccWrite t d order))
    (hRun : call = .ok e₁) :
    Marks t d e e₁ := by
  rcases hNotes.2 e₁ hRun with ⟨e₀, hWrite, rfl | rfl⟩
  · exact mvccWrite_ok hWrite
  · exact (mvccWrite_ok hWrite).compensate x

/- The common shape of `UpdateExecutor::Next` and
  `DeleteExecutor::Next`. -/
def changeRow
    (e : Engine)
    (t : TxnId)
    (x : Loc)
    (d : RmRecord → DataRecord)
    (test : Engine → Bool)
    (call : Engine → RmRecord → Call)
    (change : Engine → RmRecord → Bool → Option Engine) :
    Option Engine :=
  match e.lockRow t x with
  | none => some (e.fail t .lockConflict)
  | some e =>
    match e.getVisibleRecord t x with
    | none => some e
    | some old =>
      if e.isMvccTxn t ∧ test e then
        some (e.fail t .mvccConflict)
      else if e.shouldVersionWrites t then
        match call e old with
        | .ok e₁ => change (e₁.appendWriteRecord t (d old).writeRecord) old true
        | .error (reason, e₁) => some (e₁.fail t reason)
      else
        change e old false

theorem updateRow_eq
    (e : Engine)
    (t : TxnId)
    (x : Loc)
    (new : RmRecord)
    (order : List TxnId) :
    e.updateRow t x new order =
      if e.state t ≠ .growing ∨ ¬ e.validOrder t order then none
      else e.changeRow t x (fun old => .update x old new)
        (fun e => e.writeConflict t x ∨
          e.uniqueConflict t x.tab new (some x.rid))
        (fun e old => e.mvccUpdate t x old new order) (fun e old =>
          e.applyUpdate t x old new) := by
  unfold updateRow changeRow
  simp only [decide_eq_true_eq]
  rfl

theorem deleteRow_eq
    (e : Engine)
    (t : TxnId)
    (x : Loc)
    (order : List TxnId) :
    e.deleteRow t x order =
      if e.state t ≠ .growing ∨ ¬ e.validOrder t order then none
      else e.changeRow t x (fun rec => .delete x rec) (fun e =>
        e.writeConflict t x)
        (fun e rec => e.mvccDelete t x rec order) (fun e rec =>
          e.applyDelete t x rec) := rfl

/- The tests, the lock and the version entry come before the
  change. -/
theorem changeRow_outcome
    {d : RmRecord → DataRecord}
    {test : Engine → Bool}
    {call : Engine → RmRecord → Call}
    {change : Engine → RmRecord → Bool → Option Engine}
    (hStart : e.isMvccTxn t = true → 0 ≤ e.startTs t)
    (hGrowing : e.state t = .growing)
    (hLoc : ∀ old, (d old).loc = x ∧ (d old).inserted = false ∧
      (d old).before = some old)
    (hTest : ∀ locks old, test { e with locks := locks } = false →
      e.writeConflict t x = false ∧
      ((d old).deleted = false →
        e.uniqueConflict t x.tab (d old).headRecord (some x.rid) = false))
    (hCall : ∀ e old, Notes x (call e old) (e.mvccWrite t (d old) order))
    (hChange : ∀ e₁ old versioned, Prepared t (d old) e e₁ →
      versioned = e.shouldVersionWrites t →
      change e₁ old versioned = some e' → Outcome t (d old) e e')
    (hRun : e.changeRow t x d test call change = some e') :
    Quiet t x e e' ∨ ∃ old, CanChange t (d old) e ∧ Outcome t (d old) e e' := by
  unfold changeRow at hRun
  cases hLock : e.lockRow t x with
  | none =>
    simp only [hLock, some.injEq] at hRun
    subst hRun
    exact Or.inl (quiet_fail hGrowing x .lockConflict)
  | some e₀ =>
    simp only [hLock] at hRun
    rcases locked_of_lockRow hLock with ⟨locks, rfl, hLocked⟩
    have hSame : ({ e with locks := locks } : Engine).getVisibleRecord t x =
      e.getVisibleRecord t x := rfl
    rw [hSame] at hRun
    cases hVisible : e.getVisibleRecord t x with
    | none =>
      simp only [hVisible, some.injEq] at hRun
      subst hRun
      exact Or.inl (hLocked.quiet hGrowing)
    | some old =>
      simp only [hVisible] at hRun
      rcases record_of_visible hVisible with ⟨p, hP⟩
      have hThere : e.db.record x ≠ none := by simp [hP]
      split at hRun
      · cases hRun
        exact Or.inl (hLocked.quiet_fail hGrowing (Refuses.refl _) .mvccConflict)
      · rename_i hTests
        have hPass : e.isMvccTxn t = true → test { e with locks := locks } = false :=
          fun hMvcc => Bool.eq_false_iff.mpr fun h => hTests ⟨hMvcc, h⟩
        have hOld := hTest locks old
        have hNotes := hCall { e with locks := locks } old
        rcases hLoc old with ⟨hX, hKind, hBefore⟩
        subst hX
        have hCan : CanChange t (d old) e := by
          refine ⟨hGrowing, ?_, ?_, ?_, fun hRc _ => (hLocked.locked hRc).1⟩
          · rw [if_neg (by simp [hKind]), hVisible, hBefore]
          · intro hMvcc hDeleted
            rw [if_neg (by simp [hKind])]
            exact (hOld (hPass hMvcc)).2 hDeleted
          · intro hMvcc entry hEntry
            have h := (hOld (hPass hMvcc)).1
            unfold writeConflict at h
            rw [hEntry] at h
            exact h
        split at hRun
        · rename_i hVersioned
          split at hRun
          · rename_i e₁ hOk
            exact Or.inr ⟨old, hCan, hChange _ _ _ (prepared_of_marks hLocked hGrowing hKind hThere
              hVersioned (hNotes.marks hOk)) hVersioned.symm hRun⟩
          · rename_i reason e₁ hError
            cases hRun
            exact Or.inl (hLocked.quiet_fail hGrowing
              (mvccWrite_error (fun h => hStart h) (hNotes.1 _ hError)) reason)
        · rename_i hVersioned
          have hNot : e.shouldVersionWrites t = false := Bool.eq_false_iff.mpr hVersioned
          exact Or.inr ⟨old, hCan, hChange _ _ _
            (prepared_of_locked hLocked hGrowing hKind hThere hNot)
            hNot.symm hRun⟩

theorem updateRow_outcome
    {new : RmRecord}
    (hStart : e.isMvccTxn t = true → 0 ≤ e.startTs t)
    (hRun : e.updateRow t x new order = some e') :
    Quiet t x e e' ∨ ∃ old, CanChange t (.update x old new) e ∧
        Outcome t (.update x old new) e e' := by
  rw [updateRow_eq] at hRun
  split at hRun
  · cases hRun
  · rename_i hReady
    simp only [ne_eq, not_or, not_not] at hReady
    refine changeRow_outcome hStart hReady.1 (fun old => ⟨rfl, rfl, rfl⟩) ?_
      (fun e old => notes_mvccUpdate e t x old new order)
      (fun e₁ old versioned => applyUpdate_outcome) hRun
    intro locks old hTest
    simp only [decide_eq_false_iff_not, not_or, Bool.not_eq_true] at hTest
    exact ⟨hTest.1, fun _ => hTest.2⟩

------------
-- Deletes
------------

theorem deleteRecord_cases
    {tab : Table}
    {rid : Rid}
    (hRecord : tab.record rid ≠ none) :
    tab.HasSlot rid ∧ tab.deleteRecord rid = .ok (tab.setSlot rid none) ∨
        ¬ tab.HasSlot rid ∧
        ∃ err, tab.deleteRecord rid = .error err := by
  rcases ne_none_iff_exists'.mp hRecord with ⟨old, hOld⟩
  have hPage := hasPage_of_record hOld
  by_cases hSlot : tab.HasSlot rid
  · exact Or.inl ⟨hSlot, deleteRecord_ok hPage hSlot hOld⟩
  · refine Or.inr ⟨hSlot, .recordNotFound rid, ?_⟩
    simp [deleteRecord, fetchPageHandle_ok hPage, hSlot, bind, Except.bind]

/- The heap and key work of a delete. -/
theorem applyDelete_outcome
    {rec : RmRecord}
    {versioned : Bool}
    (hPrepared : Prepared t (.delete x rec) e e₁)
    (hVersioned : versioned = e.shouldVersionWrites t)
    (hRun : e₁.applyDelete t x rec versioned = some e') :
    Outcome t (.delete x rec) e e' := by
  rcases hPrepared.logged with ⟨hKeeps, hEdits, hIndexes⟩
  have hDone := fun tab => @Prepared.done e e₁ t (.delete x rec) hPrepared tab versioned
  have hNoSlot := fun tab => @Prepared.noSlot e e₁ t (.delete x rec) hPrepared tab
  unfold applyDelete at hRun
  simp only at hRun
  generalize e₁.logChange t (.delete x rec) = e₂ at *
  simp only [DataRecord.tab, DataRecord.rid, DataRecord.loc] at hEdits hIndexes hDone hNoSlot
  -- the table with the keys of the row gone
  have hRecord₀ : ((e₂.db x.tab).deleteIndexes rec).record = (e.db x.tab).record := by
    funext q
    exact congrFun hEdits.record_same ⟨x.tab, q⟩
  have hPages₀ : (e₂.db x.tab).KeepsPages ((e₂.db x.tab).deleteIndexes rec) := .refl _
  have hIndexes₀ : ((e₂.db x.tab).deleteIndexes rec).indexes =
        ((e.db x.tab).deleteIndexes rec).indexes := by
    simp only [deleteIndexes, hIndexes]
  generalize (e₂.db x.tab).deleteIndexes rec = tab₀ at *
  have hThere : tab₀.record x.rid ≠ none := by
    rw [hRecord₀]
    exact hPrepared.record
  have hShifts : ∀ i, (e.db x.tab).Shifts tab₀ i (keyIn ((e.db x.tab).cols i)
          (DataRecord.delete x rec).before) (keyIn ((e.db x.tab).cols i)
          (DataRecord.delete x rec).after) x.rid := by
    intro i
    have hNone : keyIn ((e.db x.tab).cols i) (DataRecord.delete x rec).after = none := by
      cases (e.db x.tab).cols i with
      | none => rfl
      | some cols => rfl
    rw [hNone]
    exact (shifts_deleteIndexes (e.db x.tab) rec i).congr rfl hIndexes₀
  cases versioned with
  | true =>
    cases hRun
    refine .done (hDone tab₀ hVersioned ?_ hPages₀ hShifts)
    intro q
    rw [hRecord₀, show e.physicalAfter t (.delete x rec) = e.db.record x from
      if_pos ⟨hVersioned.symm, rfl⟩]
    by_cases hQ : q = x.rid
    · simp [hQ, Db.record]
    · simp [hQ]
  | false =>
    rw [if_neg (by simp)] at hRun
    have hPage : tab₀.HasPage x.rid.pageNo := by
      rcases ne_none_iff_exists'.mp hThere with ⟨r, hR⟩
      exact hasPage_of_record hR
    rcases deleteRecord_cases hThere with ⟨-, hDelete⟩ | ⟨hSlot, err, hDelete⟩
    · simp only [hDelete, some.injEq] at hRun
      subst hRun
      refine .done (hDone (tab₀.setSlot x.rid none) hVersioned ?_ hPages₀ ?_)
      · intro q
        rw [record_setSlot hPage, hRecord₀, show e.physicalAfter t (.delete x rec) = none from
            if_neg (by simp [← hVersioned])]
        rfl
      · intro i
        exact (hShifts i).congr rfl rfl
    · simp only [hDelete, some.injEq] at hRun
      subst hRun
      have hNo : ¬ (e.db x.tab).HasSlot x.rid := by
        unfold HasSlot at hSlot ⊢
        rw [hPages₀.1.trans hEdits.slots] at hSlot
        exact hSlot
      exact hNoSlot (tab₀.insertIndexes rec x.rid) hRecord₀ hPages₀ hNo

theorem deleteRow_outcome (hStart : e.isMvccTxn t = true → 0 ≤ e.startTs t)
    (hRun : e.deleteRow t x order = some e') :
    Quiet t x e e' ∨ ∃ rec, CanChange t (.delete x rec) e ∧
      Outcome t (.delete x rec) e e' := by
  rw [deleteRow_eq] at hRun
  split at hRun
  · cases hRun
  · rename_i hReady
    simp only [ne_eq, not_or, not_not] at hReady
    exact changeRow_outcome hStart hReady.1 (fun rec => ⟨rfl, rfl, rfl⟩)
      (fun locks rec hTest => ⟨hTest, fun hDeleted => by cases hDeleted⟩)
      (fun e rec => notes_mvccDelete e t x rec order)
      (fun e₁ rec versioned => applyDelete_outcome) hRun

end Change

end Engine

end Rmdb
