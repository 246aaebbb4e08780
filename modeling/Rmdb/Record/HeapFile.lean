import Rmdb.Lib.LinkChain
import Rmdb.Record.Table
import Mathlib.Data.Int.Interval

/-
  This file models a heap file with its free page list, as a
  restarted server finds it: `first_free_page_no` stands in
  the file header and `next_free_page_no` in each page.

  While a server runs, the list decides only which page the
  allocator hands out.  After a crash it can fail: the header
  is the one of the last checkpoint and each page carries the
  link it had when it was written, so the links may lead to a
  page beyond the header or in a circle.  On a sound list the
  operations of recovery succeed and leave a sound list.

  Key definitions include:
    * `HeapFile`
    * `HeapFile.removePageFromFreeList`
    * `HeapFile.Sound`

  Key theorems include:
    * `HeapFile.insertRecordAt_spec`
    * `HeapFile.deleteRecord_spec`
    * `HeapFile.ensureRecordSlot_spec`
-/

namespace Rmdb

open Function LinkChain

------------
-- Operations
------------

/- The end of the free page list. -/
def noPage : Int := -1

/- Are all slots of a page taken?  `num_records` counts the
  bits that are set in the bitmap. -/
def Table.isFull (t : Table) (pageNo : Int) : Bool :=
  (List.range t.numRecordsPerPage.toNat).all
    (fun slot => ((t.page pageNo).val slot).isSome)

structure HeapFile extends Table where
  firstFreePageNo : Int
  nextFreePageNo : Int → Int

namespace HeapFile

/- Run an operation that leaves the free page list alone. -/
def onTable
    (f : HeapFile)
    (op : Table → Except RmdbError Table) :
    Except RmdbError HeapFile := do
  let t ← op f.toTable
  .ok { f with toTable := t }

/- Take a page out of the free page list. -/
def removePageFromFreeList
    (f : HeapFile)
    (pageNo : Int) :
    Except RmdbError HeapFile :=
  let next := f.nextFreePageNo pageNo
  let cut := update f.nextFreePageNo pageNo noPage
  if f.firstFreePageNo = pageNo then
    .ok { f with
      firstFreePageNo := next, nextFreePageNo := cut }
  else do
    -- a walk of more steps than there are pages is in a circle
    let prev ← findPrev
      (fun k => (f.fetchPageHandle k).map (fun _ => ()))
      .endlessFreeList f.nextFreePageNo noPage pageNo
      (f.numPages.toNat + 1) f.firstFreePageNo
    match prev with
    | some k =>
      .ok { f with
        nextFreePageNo := update
          (update f.nextFreePageNo k next) pageNo noPage }
    | none => .ok { f with nextFreePageNo := cut }

/- A page that was full comes to the front of the list. -/
def releasePageHandle (f : HeapFile) (pageNo : Int) : HeapFile :=
  { f with
    firstFreePageNo := pageNo,
    nextFreePageNo :=
      update f.nextFreePageNo pageNo f.firstFreePageNo }

def insertRecordAt
    (f : HeapFile)
    (rid : Rid)
    (rec : RmRecord) :
    Except RmdbError HeapFile := do
  let f ← f.onTable (fun t => t.insertRecordAt rid rec)
  if f.isFull rid.pageNo then
    f.removePageFromFreeList rid.pageNo
  else
    .ok f

def deleteRecord
    (f : HeapFile)
    (rid : Rid) :
    Except RmdbError HeapFile := do
  let f' ← f.onTable (fun t => t.deleteRecord rid)
  if f.isFull rid.pageNo then
    .ok (f'.releasePageHandle rid.pageNo)
  else
    .ok f'

def updateRecord
    (f : HeapFile)
    (rid : Rid)
    (rec : RmRecord) :
    Except RmdbError HeapFile :=
  f.onTable (fun t => t.updateRecord rid rec)

def setPageLsn
    (f : HeapFile)
    (rid : Rid)
    (lsn : Int) :
    Except RmdbError HeapFile :=
  f.onTable (fun t => t.setPageLsn rid lsn)

/- Append one blank page, in front of the list. -/
def createNewPage (f : HeapFile) : HeapFile :=
  { f.releasePageHandle f.numPages with
    toTable := f.toTable.createNewPage }

def createPages : Nat → HeapFile → HeapFile
| 0, f => f
| n + 1, f => createPages n f.createNewPage

/- Grow the file until it holds the page of a record. -/
def ensureRecordSlot (f : HeapFile) (rid : Rid) : HeapFile :=
  createPages (rid.pageNo + 1 - f.numPages).toNat f

------------
-- Sound Lists
------------

/- The pages of the free page list: it ends, no page is in it
  twice, and its pages are pages of the file. -/
structure Lists (f : HeapFile) (ps : List Int) : Prop where
  links : Links f.nextFreePageNo noPage f.firstFreePageNo ps
  nodup : ps.Nodup
  pages : ∀ p ∈ ps, f.HasPage p

/- The header counts its own page, and no page of the free
  page list is full. -/
structure Sound (f : HeapFile) : Prop where
  header : firstRecordPage ≤ f.numPages
  free : ∃ ps, f.Lists ps ∧ ∀ p ∈ ps, f.isFull p = false

end HeapFile

namespace Table

variable {t : Table} {rid : Rid} {pageNo : Int}

theorem isFull_setSlot_of_ne
    (v : Option RmRecord)
    (hNe : pageNo ≠ rid.pageNo) :
    (t.setSlot rid v).isFull pageNo = t.isFull pageNo := by
  unfold isFull setSlot setPage
  simp only [update_of_ne hNe]

/- A page with a free slot is not full. -/
theorem isFull_setSlot_none (hSlot : t.HasSlot rid) :
    (t.setSlot rid none).isFull rid.pageNo = false := by
  rcases hSlot with ⟨hLow, hHigh⟩
  rw [isFull, List.all_eq_false]
  refine ⟨rid.slotNo.toNat, ?_, ?_⟩
  · rw [List.mem_range]
    change rid.slotNo.toNat < t.numRecordsPerPage.toNat
    omega
  · simp [setSlot, setPage, PageRecovery.Image.write,
      Int.toNat_of_nonneg hLow]

theorem isFull_blank
    (hSlots : 0 < t.numRecordsPerPage)
    (hBlank : t.page pageNo = blankPage) :
    t.isFull pageNo = false := by
  rw [isFull, List.all_eq_false]
  refine ⟨0, ?_, by simp [hBlank, blankPage]⟩
  rw [List.mem_range]
  omega

end Table

namespace HeapFile

variable {f f' : HeapFile} {rid : Rid} {pageNo : Int}
variable {ps : List Int} {rec : RmRecord}

/- A list of pages is not longer than the file. -/
theorem Lists.length_lt (hLists : f.Lists ps) :
    ps.length < f.numPages.toNat + 1 := by
  have hSub : ps.toFinset ⊆
      Finset.Ico firstRecordPage f.numPages := by
    intro p hP
    rw [List.mem_toFinset] at hP
    rw [Finset.mem_Ico]
    exact hLists.pages p hP
  have hCard := Finset.card_le_card hSub
  rw [List.toFinset_card_of_nodup hLists.nodup,
    Int.card_Ico] at hCard
  unfold firstRecordPage at hCard
  omega

theorem ne_noPage (hPage : f.HasPage pageNo) : pageNo ≠ noPage := by
  have := hPage.1
  unfold firstRecordPage at this
  unfold noPage
  omega

/- A file without free pages. -/
theorem sound_of_noPage
    (hHeader : firstRecordPage ≤ f.numPages)
    (hFirst : f.firstFreePageNo = noPage) :
    f.Sound :=
  ⟨hHeader, [], ⟨hFirst, List.nodup_nil, by simp⟩, by simp⟩

/- The list is the same if the table has the same pages. -/
theorem Lists.of_table
    {t : Table}
    (hLists : f.Lists ps)
    (hPages : t.numPages = f.numPages) :
    Lists { f with toTable := t } ps := by
  refine ⟨hLists.links, hLists.nodup, ?_⟩
  intro p hP
  have hPage := hLists.pages p hP
  exact ⟨hPage.1, hPages ▸ hPage.2⟩

/- The list stays sound if no page fills up. -/
theorem Sound.of_table
    {t : Table}
    (hSound : f.Sound)
    (hPages : t.numPages = f.numPages)
    (hFull : ∀ p, f.isFull p = false → t.isFull p = false) :
    Sound { f with toTable := t } := by
  rcases hSound with ⟨hHeader, ps, hLists, hRoom⟩
  refine ⟨hPages ▸ hHeader, ps, hLists.of_table hPages, ?_⟩
  exact fun p hP => hFull p (hRoom p hP)

/- Taking out a page succeeds and leaves the other pages in the
  list. -/
theorem removePageFromFreeList_spec
    (hHeader : firstRecordPage ≤ f.numPages)
    (hLists : f.Lists ps)
    (hRoom : ∀ p ∈ ps, p ≠ pageNo → f.isFull p = false)
    (hPage : f.HasPage pageNo) :
    ∃ f', f.removePageFromFreeList pageNo = .ok f' ∧
      f'.toTable = f.toTable ∧ f'.Sound := by
  have hNil := ne_noPage hPage
  by_cases hFirst : f.firstFreePageNo = pageNo
  · refine ⟨_, if_pos hFirst, rfl, hHeader, ?_⟩
    have hLinks := hLists.links
    rw [hFirst] at hLinks
    rcases hLinks.head hNil with ⟨l, rfl⟩
    have hOut := List.nodup_cons.mp hLists.nodup
    refine ⟨l, ⟨?_, hOut.2, ?_⟩, ?_⟩
    · refine hLinks.2.2.congr ?_
      intro a hA
      exact update_of_ne (ne_of_mem_of_not_mem hA hOut.1) _ _
    · exact fun p hP => hLists.pages p (by simp [hP])
    · intro p hP
      exact hRoom p (by simp [hP])
        (ne_of_mem_of_not_mem hP hOut.1)
  · have hRead : ∀ a ∈ ps,
        (f.fetchPageHandle a).map (fun _ => ()) = .ok () := by
      intro a hA
      have hHas := hLists.pages a hA
      simp [Table.fetchPageHandle, hHas, Except.map]
    unfold removePageFromFreeList
    simp only [if_neg hFirst]
    rcases findPrev_of_links RmdbError.endlessFreeList
      hLists.links hRead hLists.length_lt hNil hFirst with
      ⟨hOut, hWalk⟩ | ⟨q, l₁, l₂, rfl, hWalk⟩
    · -- the page is not in the list
      rw [hWalk]
      refine ⟨_, rfl, rfl, hHeader, ps,
        ⟨?_, hLists.nodup, hLists.pages⟩, ?_⟩
      · refine hLists.links.congr ?_
        intro a hA
        exact update_of_ne (ne_of_mem_of_not_mem hA hOut) _ _
      · intro p hP
        exact hRoom p hP (ne_of_mem_of_not_mem hP hOut)
    · rw [hWalk]
      have hSub : (l₁ ++ q :: l₂).Sublist
          (l₁ ++ q :: pageNo :: l₂) := by
        simp
      have hOut : pageNo ∉ l₁ ++ q :: l₂ := by
        have hNodup := hLists.nodup
        grind
      refine ⟨_, rfl, rfl, hHeader, l₁ ++ q :: l₂,
        ⟨hLists.links.unlink hLists.nodup,
          hLists.nodup.sublist hSub, ?_⟩, ?_⟩
      · exact fun p hP => hLists.pages p (hSub.subset hP)
      · intro p hP
        exact hRoom p (hSub.subset hP)
          (ne_of_mem_of_not_mem hP hOut)

------------
-- The Operations On A Sound List
------------

theorem insertRecordAt_spec
    (hSound : f.Sound)
    (hPage : f.HasPage rid.pageNo)
    (hSlot : f.HasSlot rid)
    (hFree : f.record rid = none)
    (rec : RmRecord) :
    ∃ f', f.insertRecordAt rid rec = .ok f' ∧
      f'.toTable = f.toTable.setSlot rid (some rec) ∧
      f'.Sound := by
  rcases hSound with ⟨hHeader, ps, hLists, hRoom⟩
  have hRun := Table.insertRecordAt_ok hPage hSlot hFree rec
  let g : HeapFile :=
    { f with toTable := f.toTable.setSlot rid (some rec) }
  have hOther : ∀ p ∈ ps, p ≠ rid.pageNo →
      g.isFull p = false := by
    intro p hP hNe
    exact (Table.isFull_setSlot_of_ne _ hNe).trans (hRoom p hP)
  have hLists' : g.Lists ps := hLists.of_table rfl
  simp only [insertRecordAt, onTable, hRun, bind, Except.bind]
  cases hFull : g.isFull rid.pageNo with
  | true =>
    rw [if_pos rfl]
    exact removePageFromFreeList_spec hHeader hLists' hOther hPage
  | false =>
    refine ⟨g, if_neg (by simp), rfl, hHeader, ps,
      hLists', ?_⟩
    intro p hP
    by_cases hHere : p = rid.pageNo
    · rw [hHere]
      exact hFull
    · exact hOther p hP hHere

theorem deleteRecord_spec
    {old : RmRecord}
    (hSound : f.Sound)
    (hPage : f.HasPage rid.pageNo)
    (hSlot : f.HasSlot rid)
    (hRecord : f.record rid = some old) :
    ∃ f', f.deleteRecord rid = .ok f' ∧
      f'.toTable = f.toTable.setSlot rid none ∧
      f'.Sound := by
  rcases hSound with ⟨hHeader, ps, hLists, hRoom⟩
  have hRun := Table.deleteRecord_ok hPage hSlot hRecord
  let g : HeapFile :=
    { f with toTable := f.toTable.setSlot rid none }
  have hRoom' : ∀ p, p = rid.pageNo ∨ p ∈ ps →
      g.isFull p = false := by
    intro p hP
    by_cases hHere : p = rid.pageNo
    · rw [hHere]
      exact Table.isFull_setSlot_none hSlot
    · exact (Table.isFull_setSlot_of_ne _ hHere).trans
        (hRoom p (hP.resolve_left hHere))
  have hLists' : g.Lists ps := hLists.of_table rfl
  simp only [deleteRecord, onTable, hRun, bind, Except.bind]
  cases hFull : f.isFull rid.pageNo with
  | true =>
    -- a full page is not in the list
    have hNew : rid.pageNo ∉ ps := by
      intro hMem
      cases hFull.symm.trans (hRoom _ hMem)
    refine ⟨_, if_pos rfl, rfl, hHeader, rid.pageNo :: ps,
      ⟨hLists.links.push (ne_noPage hPage) hNew,
        List.nodup_cons.mpr ⟨hNew, hLists.nodup⟩, ?_⟩, ?_⟩
    · intro p hP
      rcases List.mem_cons.mp hP with rfl | hP
      · exact hPage
      · exact hLists.pages p hP
    · exact fun p hP => hRoom' p (List.mem_cons.mp hP)
  | false =>
    exact ⟨g, if_neg (by simp), rfl, hHeader, ps, hLists',
      fun p hP => hRoom' p (Or.inr hP)⟩

theorem createNewPage_sound
    (hSound : f.Sound)
    (hSlots : 0 < f.numRecordsPerPage) :
    f.createNewPage.Sound := by
  rcases hSound with ⟨hHeader, ps, hLists, hRoom⟩
  have hMore : f.createNewPage.numPages = f.numPages + 1 := rfl
  have hNew : f.numPages ∉ ps := by
    intro hMem
    have := (hLists.pages _ hMem).2
    omega
  have hNil : f.numPages ≠ noPage := by
    unfold firstRecordPage at hHeader
    unfold noPage
    omega
  refine ⟨by omega, f.numPages :: ps,
    ⟨hLists.links.push hNil hNew,
      List.nodup_cons.mpr ⟨hNew, hLists.nodup⟩, ?_⟩, ?_⟩
  · intro p hP
    rcases List.mem_cons.mp hP with rfl | hP
    · exact ⟨hHeader, by omega⟩
    · have hPage := hLists.pages p hP
      exact ⟨hPage.1, hPage.2.trans (by omega)⟩
  · intro p hP
    by_cases hHere : p = f.numPages
    · exact Table.isFull_blank hSlots
        (by simp [createNewPage, Table.createNewPage,
          Table.setPage, hHere])
    · have hOld := hRoom p ((List.mem_cons.mp hP).resolve_left
        hHere)
      simpa [Table.isFull, createNewPage, Table.createNewPage,
        Table.setPage, hHere] using hOld

theorem createPages_spec
    (n : Nat)
    (hSound : f.Sound)
    (hSlots : 0 < f.numRecordsPerPage) :
    (createPages n f).toTable =
        Table.createPages n f.toTable ∧
      (createPages n f).Sound := by
  induction n generalizing f with
  | zero => exact ⟨rfl, hSound⟩
  | succ n ih =>
    exact ih (createNewPage_sound hSound hSlots) hSlots

/- Growing a file whose pages have slots. -/
theorem ensureRecordSlot_spec
    (hSound : f.Sound)
    (hSlot : f.HasSlot rid) :
    (f.ensureRecordSlot rid).toTable =
        f.toTable.ensureRecordSlot rid ∧
      (f.ensureRecordSlot rid).Sound :=
  createPages_spec _ hSound (lt_of_le_of_lt hSlot.1 hSlot.2)

end HeapFile

end Rmdb
