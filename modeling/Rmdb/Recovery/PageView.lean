import Rmdb.Recovery.Recovery

/-
  This file describes redo and undo of one record by what they
  do to the page images of the table: on the record's own page
  they are the redo and undo steps of the page recovery
  library, and they leave every other page alone.  On a file
  with a sound free page list neither fails, and the list
  stays sound.

  Key theorems include:
    * `HeapFile.applyRedo_spec`
    * `HeapFile.applyUndo_spec`
-/

namespace Rmdb

open PageRecovery

namespace Table

------------
-- The Page Test
------------

variable {t : Table} {rid : Rid} {lsn : Int}

/- On a valid LSN the page test compares with the image. -/
theorem pageHasLog_iff
    (hLsn : 0 ≤ lsn) :
    t.pageHasLog rid lsn = true ↔ lsn ≤ (t.image rid.pageNo).lsn := by
  unfold pageHasLog
  by_cases hPage : t.HasPage rid.pageNo
  · rw [fetchPageHandle_ok hPage, image_of_hasPage hPage]
    simp only [decide_eq_true_eq]
    constructor
    · exact fun h => h.2
    · intro h
      refine ⟨?_, h⟩
      unfold invalidLsn
      omega
  · rw [image_of_not_hasPage hPage]
    simp only [fetchPageHandle, hPage, if_false, blankPage, invalidLsn]
    constructor
    · intro h
      cases h
    · intro h
      omega

theorem pageHasLog_eq_false (hLsn : 0 ≤ lsn)
    (hNew : ¬ lsn ≤ (t.image rid.pageNo).lsn) :
    t.pageHasLog rid lsn = false := by
  cases hTest : t.pageHasLog rid lsn with
  | false => rfl
  | true => exact absurd ((pageHasLog_iff hLsn).mp hTest) hNew

/- A page that carries a valid LSN exists. -/
theorem hasPage_of_lsn_le
    {pageNo : Int}
    (hLsn : 0 ≤ lsn)
    (hHas : lsn ≤ (t.image pageNo).lsn) :
    t.HasPage pageNo := by
  by_contra hPage
  rw [image_of_not_hasPage hPage] at hHas
  simp only [blankPage, invalidLsn] at hHas
  omega

theorem record_ensureRecordSlot (t : Table)
    (rid rid' : Rid) :
    (t.ensureRecordSlot rid).record rid' = t.record rid' := by
  simp [record, image_ensureRecordSlot]

/- The table changed by giving one row a new value: the slot
  of its page. -/
structure Writes
    (t t' : Table)
    (rid : Rid)
    (v : Option RmRecord) :
    Prop where
  perPage : t'.numRecordsPerPage = t.numRecordsPerPage
  image : ∀ k, t'.image k =
      if k = rid.pageNo then
        (t.image k).write (t.image k).lsn rid.slotNo v
      else
        t.image k

/- The table changed by giving one row a new value and
  stamping its page. -/
structure Stamps
    (t t' : Table)
    (rid : Rid)
    (lsn : Int)
    (v : Option RmRecord) :
    Prop where
  perPage : t'.numRecordsPerPage = t.numRecordsPerPage
  image : ∀ k, t'.image k =
      if k = rid.pageNo then
        (t.image k).write lsn rid.slotNo v
      else
        t.image k

theorem isFull_setPage_lsn
    (t : Table)
    (pageNo lsn p : Int) :
    (t.setPage pageNo { t.page pageNo with lsn := lsn }).isFull p =
      t.isFull p := by
  by_cases hHere : p = pageNo
  · simp [isFull, setPage, hHere]
  · simp [isFull, setPage, hHere]

/- A page on which another record takes a place that was taken. -/
theorem isFull_setSlot_of_record
    {old rec : RmRecord}
    {p : Int}
    (hRecord : t.record rid = some old)
    (hRoom : t.isFull p = false) :
    (t.setSlot rid (some rec)).isFull p = false := by
  by_cases hHere : p = rid.pageNo
  · subst hHere
    rw [record_of_hasPage (hasPage_of_record hRecord)] at hRecord
    rw [isFull, List.all_eq_false] at hRoom ⊢
    rcases hRoom with ⟨slot, hMem, hFree⟩
    refine ⟨slot, hMem, ?_⟩
    have hNe : (slot : Int) ≠ rid.slotNo := by
      intro h
      simp [h, hRecord] at hFree
    simpa [setSlot, setPage, Image.write, hNe] using hFree
  · rw [isFull_setSlot_of_ne _ hHere]
    exact hRoom

end Table

namespace HeapFile

------------
-- Redo Of One Row
------------

open Table

variable {f f' : HeapFile} {rid : Rid} {lsn : Int}

/- The row of a page that exists can always be put in place. -/
theorem redoPut_spec
    (hSound : f.Sound)
    (hFirst : firstRecordPage ≤ rid.pageNo)
    (hSlot : f.HasSlot rid)
    (rec : RmRecord) :
    ∃ f', f.redoPut rid rec = .ok f' ∧ f'.Sound ∧
      f'.numPages = max f.numPages (rid.pageNo + 1) ∧
      f.Writes f'.toTable rid (some rec) := by
  rcases ensureRecordSlot_spec hSound hSlot with ⟨hTable, hGrown⟩
  have hPage : (f.ensureRecordSlot rid).HasPage rid.pageNo := by
    rw [hTable]
    exact hasPage_ensureRecordSlot hFirst
  have hSlot' : (f.ensureRecordSlot rid).HasSlot rid := by
    rw [hTable]
    simpa [HasSlot] using hSlot
  have hSame : (f.ensureRecordSlot rid).record rid = f.record rid := by
    rw [hTable]
    exact record_ensureRecordSlot f.toTable rid rid
  have hPages : (f.ensureRecordSlot rid).numPages = max f.numPages (rid.pageNo + 1) := by
    rw [hTable]
    exact numPages_ensureRecordSlot f.toTable rid
  -- what the row's place holds afterwards, whoever put it there
  have hWrites : ∀ t' : Table, (∀ k, t'.image k =
        ((f.ensureRecordSlot rid).setSlot rid (some rec)).image k) →
      t'.numRecordsPerPage = (f.ensureRecordSlot rid).numRecordsPerPage →
      f.Writes t' rid (some rec) := by
    intro t' hImage hPer
    refine ⟨?_, ?_⟩
    · rw [hPer, hTable]
      exact numRecordsPerPage_ensureRecordSlot f.toTable rid
    · intro k
      rw [hImage, image_setSlot hPage, hTable, image_ensureRecordSlot]
  cases hRecord : f.record rid with
  | none =>
    rw [hRecord] at hSame
    rcases insertRecordAt_spec hGrown hPage hSlot' hSame rec with ⟨g, hRun, hG, hSound'⟩
    refine ⟨{ g with toTable := g.insertIndexes rec rid }, ?_,
      hSound'.of_table rfl (fun _ h => h), ?_, hWrites _ ?_ ?_⟩
    · simp [redoPut, isRecord, hSame, hRun, bind, Except.bind]
    · change g.toTable.numPages = _
      rw [hG]
      exact hPages
    · intro k
      rw [← hG]
      rfl
    · change g.toTable.numRecordsPerPage = _
      rw [hG]
      rfl
  | some old =>
    rw [hRecord] at hSame
    have hUpdate := updateRecord_ok
      (t := (f.ensureRecordSlot rid).deleteIndexes old) hPage hSlot' hSame rec
    refine ⟨{ f.ensureRecordSlot rid with
        toTable := (((f.ensureRecordSlot rid).deleteIndexes old).setSlot rid
          (some rec)).insertIndexes rec rid }, ?_,
      hGrown.of_table rfl (fun p h => isFull_setSlot_of_record hSame h), hPages,
      hWrites _ (fun _ => rfl) rfl⟩
    simp [redoPut, isRecord, getRecord, hSame, HeapFile.updateRecord, onTable, hUpdate, bind,
      Except.bind]

/- Deleting a row succeeds, whether or not it is there. -/
theorem redoDelete_spec
    (hSound : f.Sound)
    (hSlot : f.HasSlot rid) :
    ∃ f', f.redoDelete rid = .ok f' ∧ f'.Sound ∧
      f'.numPages = f.numPages ∧ f.Writes f'.toTable rid none := by
  cases hRecord : f.record rid with
  | none =>
    refine ⟨f, ?_, hSound, rfl, rfl, ?_⟩
    · simp [redoDelete, isRecord, hRecord]
    · intro k
      by_cases hk : k = rid.pageNo
      · subst hk
        have hNone : (f.image rid.pageNo).val rid.slotNo =
            none := hRecord
        simp only [if_true, Image.write]
        rw [← hNone, Function.update_eq_self]
      · simp [hk]
  | some old =>
    have hPage := hasPage_of_record hRecord
    have hSound' : Sound { f with toTable := f.deleteIndexes old } :=
      hSound.of_table rfl (fun _ h => h)
    rcases deleteRecord_spec hSound' hPage hSlot hRecord with ⟨g, hRun, hG, hGSound⟩
    refine ⟨g, ?_, hGSound, by rw [hG]; rfl, by rw [hG]; rfl, ?_⟩
    · simp [redoDelete, isRecord, getRecord, hRecord, hRun, bind, Except.bind]
    · intro k
      rw [hG]
      exact image_setSlot (t := f.deleteIndexes old) hPage none k

------------
-- Redo And Undo Of One Record
------------

/- Stamping the page completes a write. -/
theorem stamps_of_writes
    {v : Option RmRecord}
    (hSound : f'.Sound)
    (hPage : f'.HasPage rid.pageNo)
    (hLsn : 0 ≤ lsn)
    (hWrites : f.Writes f'.toTable rid v) :
    ∃ g, f'.setPageLsn rid lsn = .ok g ∧ g.Sound ∧ g.numPages = f'.numPages ∧
      f.Stamps g.toTable rid lsn v := by
  refine ⟨{ f' with
      toTable := f'.setPage rid.pageNo { f'.page rid.pageNo with lsn := lsn } }, ?_,
    hSound.of_table rfl ?_, rfl, hWrites.perPage, ?_⟩
  · simp [HeapFile.setPageLsn, onTable, setPageLsn_ok hPage hLsn, bind, Except.bind]
  · intro p hRoom
    rw [isFull_setPage_lsn]
    exact hRoom
  · intro k
    change (f'.toTable.setPage _ _).image k = _
    rw [image_setPage hPage]
    by_cases hk : k = rid.pageNo
    · subst hk
      have hImage := hWrites.image rid.pageNo
      rw [image_of_hasPage hPage] at hImage
      simp [hImage, Image.write]
    · have hImage := hWrites.image k
      simpa [hk] using hImage

/- Put a row in place and stamp its page. -/
theorem redoPut_stamp
    (hSound : f.Sound)
    (hFirst : firstRecordPage ≤ rid.pageNo)
    (hSlot : f.HasSlot rid)
    (hLsn : 0 ≤ lsn)
    (rec : RmRecord) :
    ∃ f', (do
        let f ← f.redoPut rid rec
        f.setPageLsn rid lsn) = .ok f' ∧ f'.Sound ∧
      f'.numPages = max f.numPages (rid.pageNo + 1) ∧
      f.Stamps f'.toTable rid lsn (some rec) := by
  rcases redoPut_spec hSound hFirst hSlot rec with ⟨g, hPut, hG, hPages, hWrites⟩
  have hPage : g.HasPage rid.pageNo := by
    refine ⟨hFirst, ?_⟩
    omega
  rcases stamps_of_writes hG hPage hLsn hWrites with ⟨f', hStamp, hSound', hPages', hStamps⟩
  refine ⟨f', ?_, hSound', hPages'.trans hPages, hStamps⟩
  simp [hPut, hStamp, bind, Except.bind]

/- Delete a row and stamp its page, which exists. -/
theorem redoDelete_stamp
    (hSound : f.Sound)
    (hPage : f.HasPage rid.pageNo)
    (hSlot : f.HasSlot rid)
    (hLsn : 0 ≤ lsn) :
    ∃ f', (do
        let f ← f.redoDelete rid
        f.stampIfPresent rid lsn) = .ok f' ∧ f'.Sound ∧
      f'.numPages = f.numPages ∧ f.Stamps f'.toTable rid lsn none := by
  rcases redoDelete_spec hSound hSlot with ⟨g, hDelete, hG, hPages, hWrites⟩
  have hPage' : g.HasPage rid.pageNo := by
    unfold HasPage at hPage ⊢
    omega
  rcases stamps_of_writes hG hPage' hLsn hWrites with ⟨f', hStamp, hSound', hPages', hStamps⟩
  refine ⟨f', ?_, hSound', hPages'.trans hPages, hStamps⟩
  simp [hDelete, stampIfPresent, hPage'.2, hStamp, bind, Except.bind]

/- Deleting a row of a missing page does nothing. -/
theorem redoDelete_absent
    (hFirst : firstRecordPage ≤ rid.pageNo)
    (hPage : ¬ f.HasPage rid.pageNo) :
    (do
      let f ← f.redoDelete rid
      f.stampIfPresent rid lsn) = .ok f := by
  have hNone : f.record rid = none := by simp [record, image_of_not_hasPage hPage, blankPage]
  have hBeyond : ¬ rid.pageNo < f.numPages := fun h => hPage ⟨hFirst, h⟩
  simp [redoDelete, isRecord, hNone, stampIfPresent, hBeyond, bind, Except.bind]

end HeapFile

/- Redo of an insert or an update creates missing pages. -/
def DataRecord.creates (d : DataRecord) : Bool :=
  d.after.isSome

namespace Table

variable {t t' : Table} {lsn : Int} {d : DataRecord}

/- What redo of one record does: on the record's page, if it
  is there or is created, the redo step of the page. -/
structure Redoes (t t' : Table) (lsn : Int) (d : DataRecord) : Prop where
  perPage : t'.numRecordsPerPage = t.numRecordsPerPage
  numPages : t'.numPages =
      if d.creates then
        max t.numPages (d.rid.pageNo + 1)
      else
        t.numPages
  image : ∀ k, t'.image k =
      if k = d.rid.pageNo ∧ (d.creates ∨ t.HasPage k) then
        (t.image k).redo (d.entry lsn true)
      else
        t.image k

/- A record the page carries is skipped. -/
theorem redoes_of_has (hLsn : 0 ≤ lsn)
    (hHas : lsn ≤ (t.image d.rid.pageNo).lsn) : t.Redoes t lsn d := by
  have hPage := hasPage_of_lsn_le hLsn hHas
  refine ⟨rfl, ?_, ?_⟩
  · have := hPage.2
    split <;> omega
  · intro k
    by_cases hk : k = d.rid.pageNo
    · subst hk
      simp [Image.redo, Int.not_lt.mpr hHas]
    · simp [hk]

/- A record the page does not carry is applied and stamped. -/
theorem redoes_of_stamps
    (hPages : t'.numPages =
        if d.creates then
          max t.numPages (d.rid.pageNo + 1)
        else
          t.numPages)
    (hThere : d.creates ∨ t.HasPage d.rid.pageNo)
    (hNew : ¬ lsn ≤ (t.image d.rid.pageNo).lsn)
    (hStamps : t.Stamps t' d.rid lsn d.after) :
    t.Redoes t' lsn d := by
  refine ⟨hStamps.perPage, hPages, ?_⟩
  intro k
  rw [hStamps.image]
  by_cases hk : k = d.rid.pageNo
  · subst hk
    simp [hThere, Image.redo, Int.not_le.mp hNew]
  · simp [hk]

theorem Redoes.keeps (hRedoes : t.Redoes t' lsn d) : t.KeepsPages t' := by
  refine ⟨hRedoes.perPage, ?_⟩
  rw [hRedoes.numPages]
  split <;> omega

/- What undo of one record does: on the record's page the undo
  step of the page. -/
structure Undoes (t t' : Table) (lsn : Int) (d : DataRecord) : Prop where
  perPage : t'.numRecordsPerPage = t.numRecordsPerPage
  numPages : t'.numPages = t.numPages
  image : ∀ k, t'.image k =
      if k = d.rid.pageNo then
        (t.image k).undo (d.entry lsn false)
      else
        t.image k

theorem Undoes.keeps (hUndoes : t.Undoes t' lsn d) : t.KeepsPages t' :=
  ⟨hUndoes.perPage, hUndoes.numPages.ge⟩

theorem undoes_of_stamps (hPages : t'.numPages = t.numPages)
    (hHas : lsn ≤ (t.image d.rid.pageNo).lsn)
    (hStamps : t.Stamps t' d.rid lsn d.before) : t.Undoes t' lsn d := by
  refine ⟨hStamps.perPage, hPages, ?_⟩
  intro k
  rw [hStamps.image]
  by_cases hk : k = d.rid.pageNo
  · subst hk
    simp [Image.undo, hHas]
  · simp [hk]

end Table

namespace HeapFile

open Table

variable {f : HeapFile} {lsn : Int} {d : DataRecord}

theorem applyRedo_spec
    (hSound : f.Sound)
    (hFirst : firstRecordPage ≤ d.rid.pageNo)
    (hSlot : f.HasSlot d.rid)
    (hLsn : 0 ≤ lsn) :
    ∃ f', f.applyRedo lsn d = .ok f' ∧ f'.Sound ∧
      f.Redoes f'.toTable lsn d := by
  by_cases hHas : lsn ≤ (f.image d.rid.pageNo).lsn
  · refine ⟨f, ?_, hSound, redoes_of_has hLsn hHas⟩
    simp [applyRedo, (pageHasLog_iff hLsn).mpr hHas]
  · have hTest := pageHasLog_eq_false hLsn hHas
    unfold applyRedo
    simp only [hTest, Bool.false_eq_true, if_false]
    cases d with
    | insert loc value =>
      rcases redoPut_stamp hSound hFirst hSlot hLsn value with
        ⟨f', hRun, hSound', hPages, hStamps⟩
      exact ⟨f', hRun, hSound', redoes_of_stamps hPages (Or.inl rfl) hHas hStamps⟩
    | update loc old new =>
      rcases redoPut_stamp hSound hFirst hSlot hLsn new with
        ⟨f', hRun, hSound', hPages, hStamps⟩
      exact ⟨f', hRun, hSound', redoes_of_stamps hPages (Or.inl rfl) hHas hStamps⟩
    | delete loc value =>
      by_cases hPage : f.HasPage loc.rid.pageNo
      · rcases redoDelete_stamp hSound hPage hSlot hLsn with
          ⟨f', hRun, hSound', hPages, hStamps⟩
        exact ⟨f', hRun, hSound', redoes_of_stamps hPages (Or.inr hPage) hHas hStamps⟩
      · refine ⟨f, redoDelete_absent hFirst hPage, hSound, rfl, rfl, ?_⟩
        intro k
        by_cases hk : k = loc.rid.pageNo
        · subst hk
          simp [DataRecord.creates, DataRecord.after, hPage]
        · simp [DataRecord.rid, DataRecord.loc, hk]

theorem applyUndo_spec
    (hSound : f.Sound)
    (hSlot : f.HasSlot d.rid)
    (hLsn : 0 ≤ lsn) :
    ∃ f', f.applyUndo lsn d = .ok f' ∧ f'.Sound ∧
      f.Undoes f'.toTable lsn d := by
  by_cases hHas : lsn ≤ (f.image d.rid.pageNo).lsn
  · have hTest := (pageHasLog_iff hLsn).mpr hHas
    have hPage := hasPage_of_lsn_le hLsn hHas
    have hMax : max f.numPages (d.rid.pageNo + 1) = f.numPages := by
      have := hPage.2
      omega
    unfold applyUndo
    simp only [hTest, not_true, if_false]
    cases d with
    | insert loc value =>
      rcases redoDelete_stamp hSound hPage hSlot hLsn with
        ⟨f', hRun, hSound', hPages, hStamps⟩
      exact ⟨f', hRun, hSound', undoes_of_stamps hPages hHas hStamps⟩
    | update loc old new =>
      rcases redoPut_stamp hSound hPage.1 hSlot hLsn old with
        ⟨f', hRun, hSound', hPages, hStamps⟩
      exact ⟨f', hRun, hSound', undoes_of_stamps (hPages.trans hMax) hHas hStamps⟩
    | delete loc value =>
      rcases redoPut_stamp hSound hPage.1 hSlot hLsn value with
        ⟨f', hRun, hSound', hPages, hStamps⟩
      exact ⟨f', hRun, hSound', undoes_of_stamps (hPages.trans hMax) hHas hStamps⟩
  · have hTest := pageHasLog_eq_false hLsn hHas
    refine ⟨f, by simp [applyUndo, hTest], hSound, rfl, rfl, ?_⟩
    intro k
    by_cases hk : k = d.rid.pageNo
    · subst hk
      simp [Image.undo, hHas]
    · simp [hk]

end HeapFile

end Rmdb
