import Rmdb.Transaction.IndexKeys

/-
  This file says what the heap and index operations of the
  executors and of the rollback do, seen from the rows: which
  record each place has afterwards, and from which key to
  which key a row has moved in each index.

  Key definitions include:
    * `Table.Rekeys`
    * `Table.MovesKeys`
    * `Db.Edits`

  Key theorems include:
    * `Table.allocate_spec`
    * `Table.shifts_update`
    * `Table.rekeys_reject`
    * `Table.movesKeys_restore`
    * `Db.edits_setSlot`
-/

namespace Rmdb

open Function KeyMap Option

------------
-- Records
------------

namespace Table

variable {t t' : Table} {rid : Rid}

theorem record_setSlot
    (hPage : t.HasPage rid.pageNo)
    (v : Option RmRecord)
    (q : Rid) :
    (t.setSlot rid v).record q =
      if q = rid then v else t.record q := by
  unfold record
  rw [image_setSlot hPage]
  by_cases hQ : q = rid
  · subst hQ
    simp [PageRecovery.Image.write]
  · by_cases hP : q.pageNo = rid.pageNo
    · have hSlot : q.slotNo ≠ rid.slotNo := by
        intro hSlot
        apply hQ
        cases q
        cases rid
        simp_all
      simp [hQ, hP, PageRecovery.Image.write, hSlot]
    · simp [hQ, hP]

theorem record_setPageLsn {lsn : Int}
    (hRun : t.setPageLsn rid lsn = .ok t') : t'.record = t.record := by
  rcases setPageLsn_cases hRun with ⟨-, rfl⟩ | ⟨hPage, rfl⟩
  · rfl
  · funext q
    unfold record
    rw [image_setPage hPage]
    split
    · rename_i hQ
      rw [hQ, image_of_hasPage hPage]
    · rfl

theorem keepsPages_setPageLsn
    {lsn : Int}
    (hRun : t.setPageLsn rid lsn = .ok t') :
    t.KeepsPages t' := by
  rcases setPageLsn_cases hRun with ⟨-, rfl⟩ | ⟨-, rfl⟩
  · exact ⟨rfl, le_refl _⟩
  · exact ⟨rfl, le_refl _⟩

/- What the allocator hands out. -/
theorem allocate_spec (hRun : t.allocate rid = some t') :
    t.record rid = none ∧ t.HasSlot rid ∧ t'.HasPage rid.pageNo ∧
      t'.record = t.record ∧
      t'.indexes = t.indexes ∧ t.KeepsPages t' := by
  rcases allocate_eq_some hRun with ⟨-, hSlot, hFree, hPage, hPer, hImage, hIndexes, hPages⟩
  refine ⟨hFree, hSlot, hPage, ?_, hIndexes, hPer, hPages⟩
  funext q
  unfold record
  rw [hImage]

/- Only a place of the heap can hold a record. -/
def InSlots (t : Table) : Prop :=
  ∀ rid, t.record rid ≠ none → t.HasSlot rid

------------
-- Keys
------------

/- A row has gone from the keys of one record to the keys of
  another; a new key that was taken has not been added. -/
structure Rekeys
    (t t' : Table)
    (old new : Option RmRecord)
    (rid : Rid) :
    Prop where
  layout : ∀ i, t'.cols i = t.cols i
  entries : ∀ i, t'.entry i = t.entry i ∧ keyIn (t.cols i) old = keyIn (t.cols i) new ∨ t'.entry i =
          KeyMap.move (t.entry i) (keyIn (t.cols i) old) (keyIn (t.cols i) new) rid

/- A row loses the keys of one record, whoever has them, and
  gets the keys of another where they are free. -/
structure MovesKeys
    (t t' : Table)
    (old new : Option RmRecord)
    (rid : Rid) :
    Prop where
  layout : ∀ i, t'.cols i = t.cols i
  entries : ∀ i, t'.entry i = KeyMap.move (t.entry i) (keyIn (t.cols i) old)
        (keyIn (t.cols i) new) rid

theorem keyIn_none (cols : Option (List ColMeta)) : keyIn cols none = none := by
  cases cols with
  | none => rfl
  | some c => rfl

theorem MovesKeys.of_indexes
    (hIndexes : t'.indexes = t.indexes) : t.MovesKeys t' none none rid := by
  refine ⟨cols_of_indexes hIndexes, ?_⟩
  intro i
  rw [entry_of_indexes hIndexes, keyIn_none]
  funext k
  simp [move]

/- Heap changes between the index changes do not matter. -/
theorem MovesKeys.congr
    {u u' : Table}
    {old new : Option RmRecord}
    (hMoves : t.MovesKeys t' old new rid)
    (hBefore : t.indexes = u.indexes)
    (hAfter : u'.indexes = t'.indexes) :
    u.MovesKeys u' old new rid := by
  constructor
  · intro i
    rw [cols_of_indexes hAfter, hMoves.layout, cols_of_indexes hBefore]
  · intro i
    rw [entry_of_indexes hAfter, hMoves.entries, cols_of_indexes hBefore, entry_of_indexes hBefore]

theorem Rekeys.of_indexes {value : Option RmRecord}
    (hIndexes : t'.indexes = t.indexes) :
    t.Rekeys t' value value rid := ⟨cols_of_indexes hIndexes,
    fun i => Or.inl ⟨entry_of_indexes hIndexes i, rfl⟩⟩

theorem Shifts.congr
    {u u' : Table}
    {i : Nat}
    {old new : Option IndexKey}
    (hShifts : t.Shifts t' i old new rid)
    (hBefore : t.indexes = u.indexes)
    (hAfter : u'.indexes = t'.indexes) :
    u.Shifts u' i old new rid := by
  constructor
  · rw [cols_of_indexes hAfter, hShifts.layout, cols_of_indexes hBefore]
  · have h := hShifts.entries
    rw [entry_of_indexes hBefore] at h
    rw [entry_of_indexes hAfter]
    exact h

/- The keys of a row are removed, whatever they point to. -/
theorem entry_deleteIndexes
    (t : Table)
    (rec : RmRecord)
    (rid : Rid)
    (i : Nat) :
    (t.deleteIndexes rec).entry i =
        move (t.entry i) (keyIn (t.cols i) (some rec)) none
        rid := by
  have hShifts : t.Shifts (t.deleteIndexes rec) i (keyIn (t.cols i) (some rec)) none rid :=
    shifts_deleteIndexes t rec i
  rcases hShifts.entries with ⟨hSame, hKeys⟩ | ⟨hMove, -⟩
  · rw [hSame, hKeys]
    funext k
    simp [move]
  · exact hMove

/- The keys of a row are added where they are free. -/
theorem entry_insertIndexes
    (t : Table)
    (rec : RmRecord)
    (rid : Rid)
    (i : Nat) :
    (t.insertIndexes rec rid).entry i =
        move (t.entry i) none (keyIn (t.cols i) (some rec))
        rid := by
  funext k
  cases hIx : t.indexes[i]? with
  | none => simp [entry, insertIndexes, hIx, keyIn, cols, move]
  | some ix =>
    simp only [entry, insertIndexes, List.getElem?_map, hIx,
      map_some, bind_some, keyIn, cols,
      move, Index.insertIfAbsent, Index.insertEntry,
      Index.keyOf, some.injEq, reduceCtorEq, if_false]
    cases hTaken : ix.entries (makeIndexKey rec ix.cols) with
    | some q =>
      by_cases hK : makeIndexKey rec ix.cols = k
      · subst hK
        simp [hTaken]
      · simp [hK]
    | none =>
      by_cases hK : makeIndexKey rec ix.cols = k
      · subst hK
        simp [hTaken]
      · simp [hK, update_of_ne (Ne.symm hK)]

theorem cols_deleteIndexes
    (t : Table)
    (rec : RmRecord)
    (i : Nat) :
    (t.deleteIndexes rec).cols i = t.cols i := by
  have hShifts : t.Shifts (t.deleteIndexes rec) i (keyIn (t.cols i) (some rec)) none ⟨0, 0⟩ :=
    shifts_deleteIndexes t rec i
  exact hShifts.layout

theorem cols_insertIndexes
    (t : Table)
    (rec : RmRecord)
    (rid : Rid)
    (i : Nat) :
    (t.insertIndexes rec rid).cols i = t.cols i := by
  simp only [cols, insertIndexes, List.getElem?_map, map_map]
  congr 1
  funext ix
  simp only [comp, Index.insertIfAbsent, Index.insertEntry]
  cases ix.entries (ix.keyOf rec) with
  | some q => rfl
  | none => rfl

/- Two halves of a move. -/
theorem move_move
    {K R : Type}
    [DecidableEq K]
    (m : K → Option R)
    (old new : Option K)
    (r : R) :
    move (move m old none r) none new r = move m old new r := by
  funext k
  simp [move]

/- The row loses the keys of one record and gets others. -/
theorem movesKeys_restore
    (t : Table)
    (old new : RmRecord)
    (rid : Rid) :
    t.MovesKeys ((t.deleteIndexes old).insertIndexes new rid) (some old)
      (some new) rid := by
  constructor
  · intro i
    rw [cols_insertIndexes, cols_deleteIndexes]
  · intro i
    rw [entry_insertIndexes, entry_deleteIndexes t old rid, cols_deleteIndexes, move_move]

theorem movesKeys_delete
    (t : Table)
    (old : RmRecord)
    (rid : Rid) :
    t.MovesKeys (t.deleteIndexes old) (some old) none rid := by
  refine ⟨cols_deleteIndexes t old, ?_⟩
  intro i
  rw [entry_deleteIndexes t old rid, keyIn_none]

theorem movesKeys_insert
    (t : Table)
    (new : RmRecord)
    (rid : Rid) :
    t.MovesKeys (t.insertIndexes new rid) none (some new)
      rid := by
  refine ⟨cols_insertIndexes t new rid, ?_⟩
  intro i
  rw [entry_insertIndexes, keyIn_none]

/- One entry replaces another of the same index. -/
theorem shifts_of_replace
    {i : Nat}
    {ix ix' : Index}
    {old new : IndexKey}
    (hOld : t.indexes[i]? = some ix)
    (hNew : t'.indexes[i]? = some ix')
    (hKey : old ≠ new)
    (hRun : (ix.deleteEntry old).insertEntry new rid = some ix') :
    t.Shifts t' i (some old) (some new) rid := by
  have hFree : ix.entries new = none := by
    cases hTaken : ix.entries new with
    | none => rfl
    | some q =>
      simp [Index.insertEntry, Index.deleteEntry, hTaken,
        update_of_ne (Ne.symm hKey)] at hRun
  simp only [Index.insertEntry, Index.deleteEntry, update_of_ne (Ne.symm hKey), hFree,
    some.injEq] at hRun
  subst hRun
  refine ⟨?_, Or.inr ⟨?_, ?_⟩⟩
  · simp [cols, hOld, hNew]
  · funext k
    simp only [entry, hOld, hNew, bind_some, move, some.injEq]
    by_cases hN : new = k
    · subst hN
      simp [hKey, hFree]
    · by_cases hO : old = k
      · subst hO
        simp [hN, Ne.symm hN]
      · simp [hN, hO, Ne.symm hN, Ne.symm hO]
  · intro k q hN hEntry
    obtain rfl := some.inj hN
    simp [entry, hOld, hFree] at hEntry

/- An update moves its row from the old keys to the new. -/
theorem shifts_update
    {u : Table}
    {old new : RmRecord}
    (hDeleted : u.indexes = (t.deleteChangedKeys old new).indexes)
    (hRun : u.insertChangedKeys old new rid = some t')
    (i : Nat) :
    t.Shifts t' i (keyIn (t.cols i) (some old))
      (keyIn (t.cols i) (some new)) rid := by
  rcases insertChangedKeys_eq_some hRun with ⟨indexes, hMap, rfl⟩
  have hHalf : u.indexes[i]? = t.indexes[i]?.map (fun ix =>
      if ix.keyOf old = ix.keyOf new then
        ix
      else
        ix.deleteEntry (ix.keyOf old)) := by
    rw [hDeleted]
    simp [deleteChangedKeys]
  cases hOld : t.indexes[i]? with
  | none =>
    rw [hOld] at hHalf
    rcases getElem?_of_mapM hMap i with ⟨-, hNew⟩ | ⟨ix, ix', hIx, -, -⟩
    · rw [keyIn_of_no_index hOld, keyIn_of_no_index hOld]
      exact shifts_of_none hOld hNew
    · rw [hHalf] at hIx
      cases hIx
  | some ix =>
    rw [hOld, map_some] at hHalf
    rw [keyIn_of_index hOld, keyIn_of_index hOld]
    rcases getElem?_of_mapM hMap i with ⟨hIx, -⟩ | ⟨half, ix', hIx, hNew, hInsert⟩
    · rw [hHalf] at hIx
      cases hIx
    · obtain rfl := some.inj (hHalf.symm.trans hIx)
      by_cases hKey : ix.keyOf old = ix.keyOf new
      · simp only [hKey, if_true, some.injEq] at hInsert
        subst hInsert
        rw [hKey]
        refine ⟨?_, Or.inl ⟨?_, rfl⟩⟩
        · simp [cols, hOld, hNew]
        · funext k
          simp [entry, hOld, hNew]
      · -- the old entry goes, and the new key is free
        rw [if_neg hKey] at hInsert
        have hCols : ∀ rec, (ix.deleteEntry (ix.keyOf old)).keyOf rec = ix.keyOf rec := fun _ => rfl
        rw [hCols, hCols, if_neg hKey] at hInsert
        exact shifts_of_replace hOld hNew hKey hInsert

/- A rejected update puts the old keys back. -/
theorem rekeys_reject
    {u : Table}
    {old new : RmRecord}
    (hDeleted : u.indexes = (t.deleteChangedKeys old new).indexes) :
    t.Rekeys (u.restoreChangedKeys old new rid) (some old) (some old) rid := by
  have hIndexes : ∀ i : Nat, (u.restoreChangedKeys old new rid).indexes[i]? =
        t.indexes[i]?.map (fun ix =>
          if ix.keyOf old = ix.keyOf new then
            ix
          else
            (ix.deleteEntry (ix.keyOf old)).insertIfAbsent (ix.keyOf old) rid) := by
    intro i
    simp only [restoreChangedKeys, hDeleted, deleteChangedKeys, List.getElem?_map, map_map]
    congr 1
    funext ix
    by_cases hKey : ix.keyOf old = ix.keyOf new
    · simp [hKey]
    · have hCols : ∀ rec, (ix.deleteEntry (ix.keyOf old)).keyOf rec = ix.keyOf rec := fun _ => rfl
      simp [hKey, hCols]
  constructor
  · intro i
    simp only [cols, hIndexes, map_map]
    congr 1
    funext ix
    by_cases hKey : ix.keyOf old = ix.keyOf new
    · simp [hKey]
    · simp [hKey, Index.insertIfAbsent, Index.insertEntry, Index.deleteEntry]
  · intro i
    cases hIx : t.indexes[i]? with
    | none =>
      refine Or.inl ⟨?_, rfl⟩
      funext k
      simp only [entry, hIndexes, hIx, map_none]
    | some ix =>
      by_cases hKey : ix.keyOf old = ix.keyOf new
      · refine Or.inl ⟨?_, rfl⟩
        funext k
        simp [entry, hIndexes, hIx, hKey]
      · refine Or.inr ?_
        rw [keyIn_of_index hIx]
        funext k
        by_cases hK : ix.keyOf old = k
        · subst hK
          simp [entry, hIndexes, hIx, hKey, move, Index.insertIfAbsent, Index.insertEntry,
            Index.deleteEntry]
        · simp [entry, hIndexes, hIx, hKey, move, Index.insertIfAbsent, Index.insertEntry,
            Index.deleteEntry, hK, Ne.symm hK]

end Table

------------
-- The Database
------------

namespace Db

/- No heap file has lost a page. -/
def KeepsPages (db db' : Db) : Prop :=
  ∀ tab, (db tab).KeepsPages (db' tab)

/- One row has a new record, its table new keys perhaps. -/
structure Edits (db db' : Db) (x : Loc) (v : Option RmRecord) : Prop where
  record : db'.record = Function.update db.record x v
  others : ∀ tab, tab ≠ x.tab → db' tab = db tab
  pages : (db x.tab).KeepsPages (db' x.tab)

variable {db db' db'' : Db} {x : Loc} {v v' : Option RmRecord}

theorem record_of_row (hRow : ∀ q, (db' x.tab).record q =
        if q = x.rid then v else (db x.tab).record q)
    (hOthers : ∀ tab, tab ≠ x.tab → db' tab = db tab) :
    db'.record = update db.record x v := by
  funext y
  rw [update_apply]
  unfold Db.record
  by_cases hTab : y.tab = x.tab
  · rw [hTab, hRow]
    by_cases hRid : y.rid = x.rid
    · have hY : y = x := by
        cases x
        cases y
        simp_all
      simp [hY]
    · have hY : y ≠ x := fun h => hRid (h ▸ rfl)
      simp [hRid, hY]
  · have hY : y ≠ x := fun h => hTab (h ▸ rfl)
    rw [hOthers _ hTab, if_neg hY]

theorem edits_update
    {t : Table}
    (hRecord : ∀ q, t.record q =
        if q = x.rid then v else (db x.tab).record q)
    (hPages : (db x.tab).KeepsPages t) :
    db.Edits (update db x.tab t) x v := by
  have hOthers : ∀ tab, tab ≠ x.tab → update db x.tab t tab = db tab :=
    fun tab hTab => update_of_ne hTab _ _
  refine ⟨record_of_row ?_ hOthers, hOthers, ?_⟩
  · rw [update_self]
    exact hRecord
  · rw [update_self]
    exact hPages

/- Only pages, page LSNs or keys of the row's table change. -/
theorem edits_same
    {t : Table}
    (hRecord : t.record = (db x.tab).record)
    (hPages : (db x.tab).KeepsPages t) :
    db.Edits (update db x.tab t) x (db.record x) := by
  apply edits_update _ hPages
  intro q
  rw [hRecord]
  by_cases hQ : q = x.rid
  · simp [hQ, Db.record]
  · simp [hQ]

theorem Edits.refl :
    db.Edits db x (db.record x) := ⟨(update_eq_self x db.record).symm,
    fun _ _ => rfl, .refl _⟩

theorem Edits.trans (hFirst : db.Edits db' x v)
    (hSecond : db'.Edits db'' x v') : db.Edits db'' x v' := by
  constructor
  · rw [hSecond.record, hFirst.record, update_idem]
  · intro tab hTab
    rw [hSecond.others tab hTab, hFirst.others tab hTab]
  · exact hFirst.pages.trans hSecond.pages

theorem Edits.record_self (hEdits : db.Edits db' x v) : db'.record x = v := by
  rw [hEdits.record, update_self]

theorem Edits.record_of_ne
    (hEdits : db.Edits db' x v)
    {y : Loc}
    (hY : y ≠ x) :
    db'.record y = db.record y := by
  rw [hEdits.record, update_of_ne hY]

theorem Edits.slots (hEdits : db.Edits db' x v) :
    (db' x.tab).numRecordsPerPage = (db x.tab).numRecordsPerPage :=
      hEdits.pages.1

theorem Edits.keepsPages (hEdits : db.Edits db' x v) : db.KeepsPages db' := by
  intro tab
  by_cases hTab : tab = x.tab
  · rw [hTab]
    exact hEdits.pages
  · rw [hEdits.others tab hTab]
    exact .refl _

/- An edit that puts back what was there. -/
theorem Edits.record_same (hEdits : db.Edits db' x (db.record x)) :
    db'.record = db.record := by
  rw [hEdits.record, update_eq_self]

theorem Edits.hasSlot
    (hEdits : db.Edits db' x v)
    (tab : TabName)
    (rid : Rid) :
    (db' tab).HasSlot rid ↔ (db tab).HasSlot rid :=
  (hEdits.keepsPages tab).hasSlot rid

end Db

end Rmdb
