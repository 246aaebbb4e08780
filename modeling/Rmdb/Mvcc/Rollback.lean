import Rmdb.Mvcc.KeysEnds
import Rmdb.Mvcc.Session

/-
  This file is about one transaction that writes versions to
  tables which nobody else writes.  At any time its abort can
  bring the records, the indexes and the version entries of
  these tables back to what they were when it began.

  The abort takes every row back once, in the reverse order of
  the last writes.  It deletes the key that a row has without
  asking whose it is, and it adds the old key only if that is
  free.  So the order of the writes matters as soon as keys
  move between rows.

  Key definitions include:
    * `Engine.RollsTo`
    * `Engine.Takeable`

  Key theorems include:
    * `Engine.Takeable.done`
    * `Engine.Takeable.abort`
-/

namespace Rmdb

open Table

namespace Engine

------------
-- What An Entry Brings Back
------------

/- The abort of its writer gives a row this record and entry. -/
structure RollsTo
    (record : Option RmRecord)
    (versions : Option MvccEntry)
    (t : TxnId)
    (entry : MvccEntry) :
    Prop where
  writer : entry.writerTxn = some t
  present : entry.entryExists = true
  flag : entry.hadEntryOnAbort = entry.restoreSnapshot.isSome
  rollback : entry.rollbackDeletePhysical = true ∨ entry.rollbackRestorePhysical = true
  record : entry.rolledRecord = record
  versions : entry.rolledEntry = versions

section Rolls

variable {e : Engine} {t : TxnId} {d : DataRecord} {x : Loc}
variable {record : Option RmRecord}
variable {versions : Option MvccEntry} {entry : MvccEntry}

/- Another write to the row does not change that. -/
theorem RollsTo.setHead
    (hRolls : RollsTo record versions t entry)
    (rec : RmRecord)
    (deleted : Bool) :
    RollsTo record versions t (entry.setHead t rec deleted) :=
  ⟨rfl, rfl, hRolls.flag, hRolls.rollback, hRolls.record, hRolls.versions⟩

/- The first write to a row remembers the row. -/
theorem rollsTo_first (hNew : d.inserted = true → e.db.record d.loc = none)
    (hOld : d.inserted = false → e.db.record d.loc = some d.oldRecord)
    (hClean : ∀ entry, e.mvccVersions d.loc = some entry →
      entry.toEntryState.toEntry = entry)
    (hKey : d.loc ∉ (e.txn t).mvccWriteKeys) :
    RollsTo (e.db.record d.loc) (e.mvccVersions d.loc) t (e.written t d) := by
  have hEq : e.written t d = firstWritten (e.mvccVersions d.loc) t d := by
    simp [written, firstWritten, hKey]
  rw [hEq]
  refine ⟨rfl, rfl, ?_, ?_, ?_, ?_⟩
  · cases e.mvccVersions d.loc with
    | none => rfl
    | some entry => rfl
  · cases hInserted : d.inserted with
    | true | false => simp [firstWritten, MvccEntry.setHead, MvccEntry.remember, hInserted]
  · cases hInserted : d.inserted with
    | true =>
      simp [firstWritten, MvccEntry.rolledRecord,
        MvccEntry.setHead, MvccEntry.remember, hInserted, hNew hInserted]
    | false =>
      simp [firstWritten, MvccEntry.rolledRecord,
        MvccEntry.setHead, MvccEntry.remember, hInserted, hOld hInserted]
  · cases hEntry : e.mvccVersions d.loc with
    | none => rfl
    | some entry =>
      simp only [firstWritten, MvccEntry.rolledEntry, MvccEntry.setHead, MvccEntry.remember,
        Option.isSome_some, Option.getD_some, if_true, Option.map_some]
      rw [hClean entry hEntry]

/- The keys that a row gets back are those of its old version. -/
theorem RollsTo.head
    (hRolls : RollsTo (e.db.record x) (e.mvccVersions x) t entry)
    (physical : Option RmRecord) :
    entry.rolledHead physical = e.newest x := by
  have hRecord := hRolls.record
  have hVersions := hRolls.versions
  have hFlag := hRolls.flag
  unfold MvccEntry.rolledRecord at hRecord
  unfold MvccEntry.rolledEntry at hVersions
  unfold MvccEntry.rolledHead newest
  cases hDelete : entry.rollbackDeletePhysical with
  | true =>
    simp only [hDelete, if_true] at hRecord ⊢
    rw [← hRecord, ite_self]
  | false =>
    have hRestore := hRolls.rollback.resolve_left (by simp [hDelete])
    simp only [hDelete, Bool.false_eq_true, if_false] at hRecord ⊢
    rw [if_pos hRestore, ← hRecord, ← hVersions, hFlag]
    unfold MvccEntry.restoreDeleted
    cases entry.restoreSnapshot with
    | none => simp
    | some es => simp [EntryState.toEntry]

end Rolls

------------
-- A Transaction That Can Be Taken Back
------------

/- The tables of the transaction are those of an earlier
  state, except for its own rows, and its abort brings these
  back. -/
structure Takeable
    (start : Engine)
    (t : TxnId)
    (tab : TabName)
    (e : Engine) :
    Prop where
  slots : (e.db tab).InSlots
  size : (e.db tab).numRecordsPerPage = (start.db tab).numRecordsPerPage
  cols : ∀ i, (e.db tab).cols i = (start.db tab).cols i
  sets : ∀ rid, (⟨tab, rid⟩ : Loc) ∈ (e.txn t).mvccWriteKeys ↔ rid ∈ e.rowsOf t tab
  kept : ∀ rid, rid ∉ e.rowsOf t tab → e.db.record ⟨tab, rid⟩ = start.db.record ⟨tab, rid⟩ ∧
        e.mvccVersions ⟨tab, rid⟩ = start.mvccVersions ⟨tab, rid⟩
  own : ∀ rid, rid ∈ e.rowsOf t tab → e.db.record ⟨tab, rid⟩ ≠ none ∧
        ∃ entry, e.mvccVersions ⟨tab, rid⟩ = some entry ∧ RollsTo (start.db.record ⟨tab, rid⟩)
            (start.mvccVersions ⟨tab, rid⟩) t entry
  rows : ∀ i, KeyMap.Retractable ((e.db tab).entry i)
      (e.nowKey tab i) (start.nowKey tab i) (e.lostKey tab i) (e.rowsOf t tab) []

/- When a transaction writes a row again, no other record of
  the table has a key that the row had when the transaction
  began. -/
def AgainSafe
    (start : Engine)
    (t : TxnId)
    (d : DataRecord)
    (e : Engine) :
    Prop :=
  d.rid ∈ e.rowsOf t d.tab → ∀ i q k, q ≠ d.rid →
    start.nowKey d.tab i d.rid = some k →
      e.lostKey d.tab i q ≠ some k

section Takeable

variable {start e e' : Engine} {t : TxnId} {tab : TabName}
variable {d : DataRecord}

theorem nowKey_congr (hSame : SameTable tab e e') :
    ∀ i, e'.nowKey tab i = e.nowKey tab i ∧
      e'.lostKey tab i = e.lostKey tab i := by
  intro i
  constructor
  · funext rid
    unfold nowKey
    rw [hSame.cols, (committedHead_congr (hSame.record rid) (hSame.versions rid)).1]
  · funext rid
    unfold lostKey
    rw [hSame.cols, hSame.record]

/- A step that leaves the table and its rows alone. -/
theorem Takeable.congr
    (hTake : Takeable start t tab e)
    (hSame : SameTable tab e e')
    (hRows : e'.rowsOf t tab = e.rowsOf t tab)
    (hKeys : ∀ rid, (⟨tab, rid⟩ : Loc) ∈ (e'.txn t).mvccWriteKeys ↔
        (⟨tab, rid⟩ : Loc) ∈ (e.txn t).mvccWriteKeys) :
    Takeable start t tab e' := by
  refine ⟨?_, hSame.slots.trans hTake.size, ?_, ?_, ?_, ?_, ?_⟩
  · intro rid hThere
    have hSlot := hTake.slots rid (fun hNone => hThere ((hSame.record rid).trans hNone))
    unfold HasSlot at hSlot ⊢
    rw [hSame.slots]
    exact hSlot
  · intro i
    rw [hSame.cols, hTake.cols]
  · intro rid
    rw [hKeys, hRows]
    exact hTake.sets rid
  · intro rid hNot
    rw [hRows] at hNot
    rw [hSame.record, hSame.versions]
    exact hTake.kept rid hNot
  · intro rid hMem
    rw [hRows] at hMem
    rw [hSame.record, hSame.versions]
    exact hTake.own rid hMem
  · intro i
    rw [hRows, hSame.entry, (nowKey_congr hSame i).1, (nowKey_congr hSame i).2]
    exact hTake.rows i

/- The row of a change is as its writer saw it. -/
theorem Takeable.seen
    (hTake : Takeable start t d.tab e)
    (hSound : start.EntriesSound)
    (hFree : ∀ rid entry, start.mvccVersions ⟨d.tab, rid⟩ = some entry →
      entry.writerTxn = none)
    (hReads : ∀ entry, e.mvccVersions d.loc = some entry →
        e.isMvccTxn t = true ∨ e.hasMvccState = true)
    (hCan : CanChange t d e)
    (hInserted : d.inserted = false) :
    e.db.record d.loc = some d.oldRecord ∧ ∀ entry,
        e.mvccVersions d.loc = some entry →
        entry.isDeleted = false := by
  refine seen_of_entry hCan hInserted ?_
  intro entry hEntry
  refine ⟨hReads entry hEntry, ?_⟩
  by_cases hMem : d.rid ∈ e.rowsOf t d.tab
  · rcases (hTake.own d.rid hMem).2 with ⟨own, hOwn, hRolls⟩
    obtain rfl : own = entry := Option.some.inj (hOwn.symm.trans hEntry)
    exact ⟨hRolls.present, Or.inr hRolls.writer⟩
  · have hSame := (hTake.kept d.rid hMem).2
    have hStart : start.mvccVersions ⟨d.tab, d.rid⟩ = some entry := hSame.symm.trans hEntry
    exact ⟨(hSound _ entry hStart).present, Or.inl (hFree d.rid entry hStart)⟩

/- The newest version of the row is the one before the change. -/
theorem newest_of_seen (hCan : CanChange t d e)
    (hSeen : d.inserted = false → e.db.record d.loc = some d.oldRecord ∧
          ∀ entry, e.mvccVersions d.loc = some entry →
          entry.isDeleted = false) :
    e.newest d.loc = d.before := by
  unfold newest
  cases hInserted : d.inserted with
  | true =>
    have hRow := hCan.row
    rw [hInserted, if_pos rfl] at hRow
    rw [DataRecord.before_of_inserted hInserted, hRow.1, ite_self]
  | false =>
    rcases hSeen hInserted with ⟨hRecord, hLive⟩
    rw [DataRecord.before_of_not_inserted hInserted, if_neg, hRecord]
    cases hEntry : e.mvccVersions d.loc with
    | none => simp
    | some entry => simp [hLive entry hEntry]

/- The entry that a change leaves still brings the row back. -/
theorem Takeable.rollsTo (hTake : Takeable start t d.tab e)
    (hClean : ∀ entry, start.mvccVersions d.loc = some entry →
      entry.toEntryState.toEntry = entry)
    (hNew : d.inserted = true → e.db.record d.loc = none)
    (hOld : d.inserted = false → e.db.record d.loc = some d.oldRecord) :
    RollsTo (start.db.record d.loc) (start.mvccVersions d.loc) t
      (e.written t d) := by
  by_cases hMem : d.rid ∈ e.rowsOf t d.tab
  · have hKey : d.loc ∈ (e.txn t).mvccWriteKeys := (hTake.sets d.rid).mpr hMem
    rcases (hTake.own d.rid hMem).2 with ⟨entry, hEntry, hRolls⟩
    have hHere : e.mvccVersions d.loc = some entry := hEntry
    have hEq : e.written t d = entry.setHead t d.headRecord d.deleted := by
      simp [written, hHere, hKey]
    rw [hEq]
    exact hRolls.setHead _ _
  · have hKey : d.loc ∉ (e.txn t).mvccWriteKeys := fun hKey => hMem ((hTake.sets d.rid).mp hKey)
    rcases hTake.kept d.rid hMem with ⟨hRecord, hVersions⟩
    have hVersions' : e.mvccVersions d.loc = start.mvccVersions d.loc := hVersions
    have hFirst := rollsTo_first (t := t) hNew hOld (by rw [hVersions']; exact hClean) hKey
    have hRecord' : e.db.record d.loc = start.db.record d.loc := hRecord
    rw [hRecord', hVersions'] at hFirst
    exact hFirst

/- The transaction writes a row of the table. -/
theorem Takeable.done
    (hTake : Takeable start t d.tab e)
    (hClean : ∀ entry, start.mvccVersions d.loc = some entry →
      entry.toEntryState.toEntry = entry)
    (hCan : CanChange t d e)
    (hSeen : d.inserted = false → e.db.record d.loc = some d.oldRecord ∧
          ∀ entry, e.mvccVersions d.loc = some entry → entry.isDeleted = false)
    (hVersioned : e.shouldVersionWrites t = true)
    (hAgain : AgainSafe start t d e)
    (hDone : Done t d e e') :
    Takeable start t d.tab e' := by
  have hActs := Consistent.done_acts hCan hDone
  have hCols : ∀ i, (e'.db d.tab).cols i = (e.db d.tab).cols i := fun i => (hDone.shifts i).layout
  have hOld : d.inserted = false → e.db.record d.loc = some d.oldRecord :=
    fun hInserted => (hSeen hInserted).1
  have hNew : d.inserted = true → e.db.record d.loc = none ∧ (e.db d.tab).HasSlot d.rid := by
    intro hInserted
    have hRow := hCan.row
    rw [hInserted, if_pos rfl] at hRow
    exact hRow
  have hBefore : ∀ i, e.nowKey d.tab i d.rid = keyIn ((e.db d.tab).cols i) d.before := by
    intro i
    rw [← newest_of_seen hCan hSeen]
    rfl
  have hLoc : ∀ {q : Rid}, q ≠ d.rid → (⟨d.tab, q⟩ : Loc) ≠ d.loc :=
    fun hQ hEq => hQ (congrArg Loc.rid hEq)
  have hRows := rowsOf_change hDone.writeSet
  have hSlots : (e'.db d.tab).numRecordsPerPage =
      (e.db d.tab).numRecordsPerPage := hDone.edits.slots
  refine ⟨?_, hSlots.trans hTake.size, ?_, ?_, ?_, ?_, ?_⟩
  · intro q hThere
    have hSlot : (e.db d.tab).HasSlot q := by
      by_cases hQ : q = d.rid
      · rw [hQ]
        cases hInserted : d.inserted with
        | true => exact (hNew hInserted).2
        | false =>
          apply hTake.slots
          change e.db.record d.loc ≠ none
          rw [hOld hInserted]
          simp
      · exact hTake.slots q (fun hNone => hThere ((hActs.record _ (hLoc hQ)).trans hNone))
    unfold HasSlot at hSlot ⊢
    rw [hSlots]
    exact hSlot
  · intro i
    rw [hCols, hTake.cols]
  · intro q
    rw [hDone.entry.keys, hRows]
    by_cases hQ : q = d.rid
    · subst hQ
      have hSelf : (⟨d.tab, d.rid⟩ : Loc) = d.loc := rfl
      rw [hSelf]
      by_cases hKey : d.loc ∈ (e.txn t).mvccWriteKeys
      · simp [hKey]
      · simp [hKey, hVersioned]
    · have hMore : (⟨d.tab, q⟩ : Loc) ∈ (if e.shouldVersionWrites t = true ∧
              d.loc ∉ (e.txn t).mvccWriteKeys then
            d.loc :: (e.txn t).mvccWriteKeys
          else
            (e.txn t).mvccWriteKeys) ↔ (⟨d.tab, q⟩ : Loc) ∈ (e.txn t).mvccWriteKeys := by
        split
        · rw [List.mem_cons]
          exact or_iff_right (hLoc hQ)
        · exact Iff.rfl
      rw [hMore, hTake.sets, List.mem_cons]
      exact (or_iff_right hQ).symm
  · intro q hNot
    rw [hRows, List.mem_cons, not_or] at hNot
    rw [hActs.record _ (hLoc hNot.1), hActs.versions _ (hLoc hNot.1)]
    exact hTake.kept q hNot.2
  · intro q hMem
    by_cases hQ : q = d.rid
    · subst hQ
      have hEntries := hDone.entry.versions
      rw [if_pos hVersioned] at hEntries
      refine ⟨?_, e.written t d, ?_, hTake.rollsTo hClean
        (fun hInserted => (hNew hInserted).1) hOld⟩
      · change e'.db.record d.loc ≠ none
        rw [hDone.edits.record_self]
        unfold physicalAfter
        cases hDeleted : d.deleted with
        | true =>
          rw [if_pos ⟨hVersioned, rfl⟩, hOld (DataRecord.not_inserted_of_deleted hDeleted)]
          simp
        | false =>
          rw [if_neg (by simp), DataRecord.after_of_not_deleted hDeleted]
          simp
      · rw [hEntries]
        exact Function.update_self _ _ _
    · rw [hRows] at hMem
      rw [hActs.record _ (hLoc hQ), hActs.versions _ (hLoc hQ)]
      exact hTake.own q ((List.mem_cons.mp hMem).resolve_left hQ)
  · intro i
    have hNow := nowKey_change hActs hCols (newest_done hVersioned hDone) i
    rw [hRows]
    refine (hTake.rows i).push ?_ hNow ?_ ?_ ?_
    · rw [hNow]
      exact exact_done (hTake.rows i).exact (hBefore i) hDone
    · rw [lostKey_change hDone.edits hCols, keyIn_physicalAfter _ hVersioned hOld, hBefore i]
    · -- a row that was not written is as at the start
      intro hMem
      rcases hTake.kept d.rid hMem with ⟨hRecord, hVersions⟩
      unfold nowKey
      rw [hTake.cols, (committedHead_congr hRecord hVersions).1]
    · intro hMem q k hQ hWas
      have hNot := hAgain hMem i q k hQ hWas
      exact ⟨fun hHas => hNot (lostKey_of_nowKey hHas), fun _ => hNot⟩

end Takeable

------------
-- The Abort
------------

section Success

variable {e e' : Engine} {t : TxnId}

/- A record in its place can be taken back. -/
theorem rollbackPhysical_ok
    {tab : Table}
    {rid : Rid}
    (hRecord : tab.record rid ≠ none)
    (hSlot : tab.HasSlot rid)
    (entry : MvccEntry) :
    ∃ tab', rollbackPhysical tab rid entry = .ok tab' := by
  rcases Option.ne_none_iff_exists'.mp hRecord with ⟨rec, hRec⟩
  have hPage : tab.HasPage rid.pageNo := by
    by_contra hPage
    unfold record at hRec
    rw [image_of_not_hasPage hPage] at hRec
    cases hRec
  have hVal : ((tab.page rid.pageNo).val rid.slotNo).isNone =
      false := by
    unfold record at hRec
    rw [image_of_hasPage hPage] at hRec
    rw [hRec]
    rfl
  have hFetch : (tab.deleteIndexes rec).fetchPageHandle
      rid.pageNo = .ok (tab.page rid.pageNo) := if_pos hPage
  have hSlot' : (tab.deleteIndexes rec).HasSlot rid := hSlot
  unfold rollbackPhysical
  simp only [isRecord, getRecord, hRec, Option.isSome_some, if_true, bind, Except.bind,
    deleteRecord, updateRecord, hFetch, hSlot', hVal,
    not_true_eq_false, Bool.false_eq_true, or_self, if_false]
  split
  · exact ⟨_, rfl⟩
  · split
    · split
      · exact ⟨_, rfl⟩
      · exact ⟨_, rfl⟩
    · exact ⟨_, rfl⟩

variable {processed : List Loc}

theorem exists_abortWrite {w : WriteRecord}
    (hRow : w.loc ∉ processed → e.Owns t w.loc → e.db.record w.loc ≠ none ∧
          (e.db w.loc.tab).HasSlot w.loc.rid) :
    ∃ e', e.abortWrite t processed w = some e' := by
  unfold abortWrite
  simp only
  split
  · exact ⟨_, rfl⟩
  · rename_i hNew
    split
    · exact ⟨_, rfl⟩
    · rename_i entry hEntry
      split
      · exact ⟨_, rfl⟩
      · rename_i hMine
        simp only [ne_eq, not_not] at hMine
        rcases hRow hNew ⟨entry, hEntry, hMine⟩ with ⟨hRecord, hSlot⟩
        rcases rollbackPhysical_ok hRecord hSlot entry with ⟨tab, hTab⟩
        rw [hTab]
        exact ⟨_, rfl⟩

variable {ws : List WriteRecord}

theorem exists_abortWrites
    (hRows : ∀ x ∈ ws.map WriteRecord.loc, x ∉ processed → e.Owns t x →
      e.db.record x ≠ none ∧
            (e.db x.tab).HasSlot x.rid) :
    ∃ e', abortWrites t ws processed e = some e' := by
  induction ws generalizing e processed with
  | nil => exact ⟨e, rfl⟩
  | cons w rest ih =>
    rcases exists_abortWrite (fun hNew hOwns => hRows w.loc (by simp) hNew hOwns) with ⟨e₁, hStep⟩
    rcases abortWrite_cases hStep with ⟨hUnwinds, hCase⟩
    have hRest : ∀ x ∈ rest.map WriteRecord.loc, x ∉ w.loc :: processed → e₁.Owns t x →
          e₁.db.record x ≠ none ∧ (e₁.db x.tab).HasSlot x.rid := by
      intro x hMem hNew hOwns
      rw [List.mem_cons, not_or] at hNew
      have hSame : e₁.db.record x = e.db.record x ∧ e₁.mvccVersions x = e.mvccVersions x := by
        rcases hCase with ⟨-, hDb, hVs⟩ | ⟨entry, -, -, -, hBack⟩
        · rw [hDb, hVs]
          exact ⟨rfl, rfl⟩
        · rw [hBack.record, Function.update_of_ne hNew.1, hBack.versions,
            Function.update_of_ne hNew.1]
          exact ⟨rfl, rfl⟩
      unfold Owns at hOwns
      rw [hSame.2] at hOwns
      rw [hSame.1]
      unfold HasSlot
      rw [hUnwinds.slots]
      exact hRows x (List.mem_cons_of_mem _ hMem) hNew.2 hOwns
    rcases ih hRest with ⟨e', hRun⟩
    refine ⟨e', ?_⟩
    unfold abortWrites
    rw [hStep]
    exact hRun

/- The tables without writes are left alone. -/
theorem db_of_abortWrites
    {tab : TabName}
    (hRun : abortWrites t ws processed e = some e')
    (hTab : ∀ x ∈ ws.map WriteRecord.loc, x.tab ≠ tab) :
    e'.db tab = e.db tab := by
  induction ws generalizing e processed with
  | nil =>
    cases hRun
    rfl
  | cons w rest ih =>
    unfold abortWrites at hRun
    cases hStep : e.abortWrite t processed w with
    | none => simp [hStep] at hRun
    | some e₁ =>
      simp only [hStep] at hRun
      rw [ih hRun (fun x hX => hTab x (List.mem_cons_of_mem _ hX))]
      rcases (abortWrite_cases hStep).2 with ⟨-, hDb, -⟩ | ⟨entry, -, -, -, hBack⟩
      · rw [hDb]
      · exact hBack.others tab (Ne.symm (hTab w.loc (by simp)))

end Success

section Abort

variable {start e e₁ e' : Engine} {t : TxnId} {tab : TabName}

/- The rows of the transaction can be taken back. -/
theorem Takeable.unwinding (hTake : Takeable start t tab e) :
    Unwinding e t tab (e.nowKey tab) (start.nowKey tab) (e.lostKey tab)
      (ridsIn tab ((e.txn t).writeSet.map WriteRecord.loc))
        (ridsIn tab []) := by
  rw [← rowsOf_eq_ridsIn]
  refine ⟨hTake.rows, ?_⟩
  intro rid hPending
  rcases (hTake.own rid hPending.mem).2 with ⟨entry, hEntry, hRolls⟩
  refine ⟨entry, hEntry, hRolls.writer, hRolls.rollback, fun i => ⟨?_, rfl⟩⟩
  rw [hRolls.head, hTake.cols]
  rfl

/- The abort gives the table back. -/
theorem Takeable.abort (hTake : Takeable start t tab e)
    (hExact : ∀ i, KeyMap.Exact ((start.db tab).entry i) (start.nowKey tab i))
    (hBack : abortWrites t (e.txn t).writeSet [] e = some e₁)
    (hEnds : Ends t e₁ e') : SameTable tab start e' := by
  rcases retract_abortWrites hTake.unwinding hBack with ⟨hCols, hKeys⟩
  rw [← rowsOf_eq_ridsIn, show ridsIn tab [] = [] from rfl] at hKeys
  rcases abortWrites_spec hBack with ⟨hUnwinds, hRows⟩
  have hRow : ∀ rid, e₁.db.record ⟨tab, rid⟩ = start.db.record ⟨tab, rid⟩ ∧
        e₁.mvccVersions ⟨tab, rid⟩ = start.mvccVersions ⟨tab, rid⟩ := by
    intro rid
    by_cases hMem : rid ∈ e.rowsOf t tab
    · rcases (hTake.own rid hMem).2 with ⟨entry, hEntry, hRolls⟩
      rcases (hRows ⟨tab, rid⟩).1 entry (mem_rowsOf.mp hMem)
        (by simp) hEntry hRolls.writer with ⟨hRecord, hVersion⟩
      unfold MvccEntry.rolledPhysical at hRecord
      rw [if_pos hRolls.rollback, hRolls.record] at hRecord
      exact ⟨hRecord, hVersion.trans hRolls.versions⟩
    · rcases hTake.kept rid hMem with ⟨hRecord, hVersions⟩
      rcases (hRows ⟨tab, rid⟩).2 (fun hLoc =>
        absurd (mem_rowsOf.mpr hLoc) hMem) with
        ⟨hRecord', hVersions'⟩
      exact ⟨hRecord'.trans hRecord, hVersions'.trans hVersions⟩
  -- every row has the key of the start again
  have hRetracted : ∀ i, KeyMap.retracted (e.nowKey tab i)
      (start.nowKey tab i) (e.rowsOf t tab) [] = start.nowKey tab i := by
    intro i
    funext rid
    unfold KeyMap.retracted
    split
    · rfl
    · rename_i hNot
      have hMem : rid ∉ e.rowsOf t tab := fun hMem => hNot ⟨hMem, by simp⟩
      rcases hTake.kept rid hMem with ⟨hRecord, hVersions⟩
      unfold nowKey
      rw [hTake.cols, (committedHead_congr hRecord hVersions).1]
  refine ⟨fun rid => ?_, ?_, ?_, ?_, fun rid => ?_⟩
  · rw [hEnds.db]
    exact (hRow rid).1
  · rw [hEnds.db, hUnwinds.slots, hTake.size]
  · intro i
    rw [hEnds.db, hCols, hTake.cols]
  · intro i
    rw [hEnds.db]
    have hAfter := hKeys i
    rw [hRetracted] at hAfter
    exact hAfter.map_eq (hExact i)
  · rw [hEnds.versions]
    exact (hRow rid).2

end Abort

end Engine

end Rmdb
