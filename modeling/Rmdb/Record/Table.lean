import Rmdb.Lib.PageRecovery

/-
  This file models one table: the heap file that
  `RmFileHandle` reads and writes through the buffer pool, and
  the unique indexes kept beside it.

  A heap page is a page LSN and a partial map from slots to
  records; the bitmap of the page is the domain of that map.
  Pages at or beyond `numPages` do not exist.  An index is the
  partial map from keys to record identifiers that its tree
  represents.

  Key definitions include:
    * `Rid`
    * `Page`
    * `Index`
    * `Table`
    * `Table.insertRecordAt`
    * `Table.deleteRecord`
    * `Table.updateRecord`
    * `Table.setPageLsn`
    * `Table.ensureRecordSlot`

  Key theorems include:
    * `Table.image_setPage`
    * `Table.image_ensureRecordSlot`
-/

namespace Rmdb

------------
-- Records, Pages And Indexes
------------

/- The bytes of a record. -/
abbrev RmRecord := List UInt8

/- The bytes of a table name. -/
abbrev TabName := List UInt8

/- The bytes of an index key. -/
abbrev IndexKey := List UInt8

/- The LSN of a page that no logged operation has stamped. -/
def invalidLsn : Int := -1

/- Page 0 of a heap file holds the file header. -/
def firstRecordPage : Int := 1

/- A record identifier. -/
structure Rid where
  pageNo : Int
  slotNo : Int
deriving DecidableEq, Repr

/- A heap page: its LSN and the record in each slot. -/
abbrev Page := PageRecovery.Image Int (Option RmRecord)

/- The page that `new_page_at` hands out. -/
def blankPage : Page :=
  ⟨invalidLsn, fun _ => none⟩

/- The place of one column in a record. -/
structure ColMeta where
  offset : Nat
  len : Nat
deriving DecidableEq, Repr

/- A unique index on some columns of the table. -/
structure Index where
  cols : List ColMeta
  entries : IndexKey → Option Rid

/- The errors the heap file raises. -/
inductive RmdbError where
  | pageNotExist (pageNo : Int)
  | recordNotFound (rid : Rid)
  | recordExists (rid : Rid)
  -- the walk along the free page list never ends
  | endlessFreeList
deriving DecidableEq, Repr

/- A table: the fields of the file header that recovery and
  the executors read, the heap pages and the indexes. -/
structure Table where
  numPages : Int
  numRecordsPerPage : Int
  page : Int → Page
  indexes : List Index

/- The key of a record in an index. -/
def makeIndexKey (record : RmRecord) (cols : List ColMeta) : IndexKey :=
  cols.flatMap
    (fun col => (record.drop col.offset).take col.len)

namespace Index

/- The key of a record in this index. -/
def keyOf (ix : Index) (record : RmRecord) : IndexKey :=
  makeIndexKey record ix.cols

/- Insert an entry, unless the key is taken. -/
def insertEntry
    (ix : Index)
    (key : IndexKey)
    (rid : Rid) :
    Option Index :=
  match ix.entries key with
  | some _ => none
  | none =>
    some { ix with
      entries := Function.update ix.entries key (some rid) }

/- Insert an entry if the key is free. -/
def insertIfAbsent (ix : Index) (key : IndexKey) (rid : Rid) : Index :=
  match ix.insertEntry key rid with
  | some ix' => ix'
  | none => ix

/- Delete the entry of a key, if there is one. -/
def deleteEntry (ix : Index) (key : IndexKey) : Index :=
  { ix with entries := Function.update ix.entries key none }

end Index

------------
-- The Heap File
------------

namespace Table

/- The page numbers the file header admits. -/
def HasPage (t : Table) (pageNo : Int) : Prop :=
  firstRecordPage ≤ pageNo ∧ pageNo < t.numPages

instance (t : Table) (pageNo : Int) : Decidable (t.HasPage pageNo) := by
  unfold HasPage
  infer_instance

/- The page as a reader of the file sees it. -/
def image (t : Table) (pageNo : Int) : Page :=
  if t.HasPage pageNo then t.page pageNo else blankPage

/- The live record at a record identifier. -/
def record (t : Table) (rid : Rid) : Option RmRecord :=
  (t.image rid.pageNo).val rid.slotNo

/- Fetch a page, which has to exist. -/
def fetchPageHandle
    (t : Table)
    (pageNo : Int) :
    Except RmdbError Page :=
  if t.HasPage pageNo then
    .ok (t.page pageNo)
  else
    .error (.pageNotExist pageNo)

def isRecord (t : Table) (rid : Rid) : Bool :=
  (t.record rid).isSome

def getRecord (t : Table) (rid : Rid) : Except RmdbError RmRecord :=
  match t.record rid with
  | some rec => .ok rec
  | none => .error (.recordNotFound rid)

/- Replace the image of a page. -/
def setPage (t : Table) (pageNo : Int) (p : Page) : Table :=
  { t with page := Function.update t.page pageNo p }

/- Put a value into one slot of a page. -/
def setSlot (t : Table) (rid : Rid) (v : Option RmRecord) : Table :=
  t.setPage rid.pageNo
    ((t.page rid.pageNo).write
      (t.page rid.pageNo).lsn rid.slotNo v)

def HasSlot (t : Table) (rid : Rid) : Prop :=
  0 ≤ rid.slotNo ∧ rid.slotNo < t.numRecordsPerPage

instance (t : Table) (rid : Rid) : Decidable (t.HasSlot rid) := by
  unfold HasSlot
  infer_instance

/- `insert_record` at a given place. -/
def insertRecordAt
    (t : Table)
    (rid : Rid)
    (rec : RmRecord) :
    Except RmdbError Table := do
  let p ← t.fetchPageHandle rid.pageNo
  if ¬ t.HasSlot rid then
    .error (.recordNotFound rid)
  else if (p.val rid.slotNo).isSome then
    .error (.recordExists rid)
  else
    .ok (t.setSlot rid (some rec))

def deleteRecord (t : Table) (rid : Rid) : Except RmdbError Table := do
  let p ← t.fetchPageHandle rid.pageNo
  if ¬ t.HasSlot rid ∨ (p.val rid.slotNo).isNone then
    .error (.recordNotFound rid)
  else
    .ok (t.setSlot rid none)

def updateRecord
    (t : Table)
    (rid : Rid)
    (rec : RmRecord) :
    Except RmdbError Table := do
  let p ← t.fetchPageHandle rid.pageNo
  if ¬ t.HasSlot rid ∨ (p.val rid.slotNo).isNone then
    .error (.recordNotFound rid)
  else
    .ok (t.setSlot rid (some rec))

/- Stamp the page of a record; the invalid LSN is ignored. -/
def setPageLsn
    (t : Table)
    (rid : Rid)
    (lsn : Int) :
    Except RmdbError Table :=
  if lsn = invalidLsn then
    .ok t
  else do
    let p ← t.fetchPageHandle rid.pageNo
    .ok (t.setPage rid.pageNo { p with lsn := lsn })

/- Append one blank page to the file. -/
def createNewPage (t : Table) : Table :=
  { t.setPage t.numPages blankPage with
    numPages := t.numPages + 1 }

/- Append several blank pages to the file. -/
def createPages : Nat → Table → Table
| 0, t => t
| n + 1, t => createPages n t.createNewPage

/- Grow the file until it holds the page of a record. -/
def ensureRecordSlot (t : Table) (rid : Rid) : Table :=
  createPages (rid.pageNo + 1 - t.numPages).toNat t

------------
-- How The Operations Change The Images
------------

@[simp] theorem hasPage_setPage
    (t : Table)
    (pageNo k : Int)
    (p : Page) :
    (t.setPage pageNo p).HasPage k ↔ t.HasPage k := Iff.rfl

@[simp] theorem hasPage_setSlot
    (t : Table)
    (rid : Rid)
    (v : Option RmRecord)
    (k : Int) :
    (t.setSlot rid v).HasPage k ↔ t.HasPage k := Iff.rfl

variable {t : Table} {pageNo : Int}

theorem image_of_hasPage (hPage : t.HasPage pageNo) :
    t.image pageNo = t.page pageNo := by
  simp [image, hPage]

theorem image_of_not_hasPage (hPage : ¬ t.HasPage pageNo) :
    t.image pageNo = blankPage := by
  simp [image, hPage]

/- Replacing an existing page changes that image only. -/
theorem image_setPage
    (hPage : t.HasPage pageNo)
    (p : Page)
    (k : Int) :
    (t.setPage pageNo p).image k =
      if k = pageNo then p else t.image k := by
  unfold image
  simp only [hasPage_setPage]
  by_cases hk : k = pageNo
  · subst hk
    simp [hPage, setPage]
  · simp [hk, setPage]

/- Writing a slot keeps the page LSN. -/
theorem image_setSlot
    {rid : Rid}
    (hPage : t.HasPage rid.pageNo)
    (v : Option RmRecord)
    (k : Int) :
    (t.setSlot rid v).image k =
      if k = rid.pageNo then
        (t.image k).write (t.image k).lsn rid.slotNo v
      else
        t.image k := by
  unfold setSlot
  rw [image_setPage hPage]
  by_cases hk : k = rid.pageNo
  · subst hk
    simp [image_of_hasPage hPage]
  · simp [hk]

/- Appending a blank page changes no image. -/
theorem image_createNewPage
    (t : Table)
    (k : Int) :
    t.createNewPage.image k = t.image k := by
  unfold image HasPage createNewPage setPage
  by_cases hk : k = t.numPages
  · subst hk
    simp
  · have hIff : k < t.numPages + 1 ↔ k < t.numPages := by omega
    simp [hk, hIff]

theorem image_createPages
    (n : Nat)
    (t : Table)
    (k : Int) :
    (createPages n t).image k = t.image k := by
  induction n generalizing t with
  | zero => rfl
  | succ n ih => rw [createPages, ih, image_createNewPage]

theorem numPages_createPages (n : Nat)
    (t : Table) : (createPages n t).numPages = t.numPages + n := by
  induction n generalizing t with
  | zero => simp [createPages]
  | succ n ih =>
    rw [createPages, ih]
    simp only [createNewPage]
    push_cast
    omega

/- Growing the file changes no image. -/
theorem image_ensureRecordSlot
    (t : Table)
    (rid : Rid)
    (k : Int) :
    (t.ensureRecordSlot rid).image k = t.image k := image_createPages _ t k

theorem numPages_ensureRecordSlot (t : Table)
    (rid : Rid) :
    (t.ensureRecordSlot rid).numPages = max t.numPages (rid.pageNo + 1) := by
  unfold ensureRecordSlot
  rw [numPages_createPages]
  omega

theorem hasPage_ensureRecordSlot {rid : Rid}
    (hFirst : firstRecordPage ≤ rid.pageNo) :
    (t.ensureRecordSlot rid).HasPage rid.pageNo := by
  refine ⟨hFirst, ?_⟩
  rw [numPages_ensureRecordSlot]
  omega

theorem numRecordsPerPage_createPages
    (n : Nat)
    (t : Table) :
    (createPages n t).numRecordsPerPage =
      t.numRecordsPerPage := by
  induction n generalizing t with
  | zero => rfl
  | succ n ih => rw [createPages, ih]; rfl

@[simp] theorem numRecordsPerPage_ensureRecordSlot
    (t : Table)
    (rid : Rid) :
    (t.ensureRecordSlot rid).numRecordsPerPage =
      t.numRecordsPerPage :=
  numRecordsPerPage_createPages _ t

/- The pages have the size they had, and none is lost. -/
def KeepsPages (t t' : Table) : Prop :=
  t'.numRecordsPerPage = t.numRecordsPerPage ∧ t.numPages ≤ t'.numPages

theorem KeepsPages.refl (t : Table) : t.KeepsPages t := ⟨rfl, le_refl _⟩

theorem KeepsPages.trans
    {t' t'' : Table}
    (hFirst : t.KeepsPages t')
    (hSecond : t'.KeepsPages t'') :
    t.KeepsPages t'' := ⟨hSecond.1.trans hFirst.1, le_trans hFirst.2 hSecond.2⟩

theorem KeepsPages.hasPage
    {t' : Table}
    (hKeeps : t.KeepsPages t')
    (hPage : t.HasPage pageNo) :
    t'.HasPage pageNo := ⟨hPage.1, lt_of_lt_of_le hPage.2 hKeeps.2⟩

theorem KeepsPages.hasSlot
    {t' : Table}
    (hKeeps : t.KeepsPages t')
    (rid : Rid) :
    t'.HasSlot rid ↔ t.HasSlot rid := by
  unfold HasSlot
  rw [hKeeps.1]

------------
-- Heap Operations That Succeed
------------

section Heap

variable {t t' : Table} {rid : Rid}

variable (hPage : t.HasPage rid.pageNo)
include hPage

theorem fetchPageHandle_ok :
    t.fetchPageHandle rid.pageNo = .ok (t.page rid.pageNo) := by
  simp [fetchPageHandle, hPage]

theorem record_of_hasPage :
    t.record rid = (t.page rid.pageNo).val rid.slotNo := by
  simp [record, image_of_hasPage hPage]

theorem insertRecordAt_ok
    (hSlot : t.HasSlot rid)
    (hFree : t.record rid = none)
    (rec : RmRecord) :
    t.insertRecordAt rid rec = .ok (t.setSlot rid (some rec)) := by
  rw [record_of_hasPage hPage] at hFree
  simp [insertRecordAt, fetchPageHandle_ok hPage, hSlot, hFree, bind, Except.bind]

theorem updateRecord_ok
    {old : RmRecord}
    (hSlot : t.HasSlot rid)
    (hRecord : t.record rid = some old)
    (rec : RmRecord) :
    t.updateRecord rid rec = .ok (t.setSlot rid (some rec)) := by
  rw [record_of_hasPage hPage] at hRecord
  simp [updateRecord, fetchPageHandle_ok hPage, hSlot, hRecord, bind, Except.bind]

theorem deleteRecord_ok
    {old : RmRecord}
    (hSlot : t.HasSlot rid)
    (hRecord : t.record rid = some old) :
    t.deleteRecord rid = .ok (t.setSlot rid none) := by
  rw [record_of_hasPage hPage] at hRecord
  simp [deleteRecord, fetchPageHandle_ok hPage, hSlot, hRecord, bind, Except.bind]

variable {lsn : Int}

theorem setPageLsn_ok (hLsn : 0 ≤ lsn) :
    t.setPageLsn rid lsn =
      .ok (t.setPage rid.pageNo { t.page rid.pageNo with lsn := lsn }) := by
  have hValid : lsn ≠ invalidLsn := by
    unfold invalidLsn
    omega
  simp [setPageLsn, hValid, fetchPageHandle_ok hPage, bind, Except.bind]

variable {rec : RmRecord}

omit hPage

/- What a successful heap operation has done. -/
theorem insertRecordAt_eq_ok (hRun : t.insertRecordAt rid rec = .ok t') :
    t.HasPage rid.pageNo ∧ t' = t.setSlot rid (some rec) := by
  by_cases hPage : t.HasPage rid.pageNo
  · refine ⟨hPage, ?_⟩
    simp only [insertRecordAt, fetchPageHandle_ok hPage, bind, Except.bind] at hRun
    split at hRun
    · cases hRun
    · split at hRun
      · cases hRun
      · exact (Except.ok.inj hRun).symm
  · simp [insertRecordAt, fetchPageHandle, hPage, bind, Except.bind] at hRun

theorem deleteRecord_eq_ok
    (hRun : t.deleteRecord rid = .ok t') :
    t.HasPage rid.pageNo ∧ t' = t.setSlot rid none := by
  by_cases hPage : t.HasPage rid.pageNo
  · refine ⟨hPage, ?_⟩
    simp only [deleteRecord, fetchPageHandle_ok hPage, bind, Except.bind] at hRun
    split at hRun
    · cases hRun
    · exact (Except.ok.inj hRun).symm
  · simp [deleteRecord, fetchPageHandle, hPage, bind, Except.bind] at hRun

theorem updateRecord_eq_ok (hRun : t.updateRecord rid rec = .ok t') :
    t.HasPage rid.pageNo ∧ t' = t.setSlot rid (some rec) := by
  by_cases hPage : t.HasPage rid.pageNo
  · refine ⟨hPage, ?_⟩
    simp only [updateRecord, fetchPageHandle_ok hPage, bind, Except.bind] at hRun
    split at hRun
    · cases hRun
    · exact (Except.ok.inj hRun).symm
  · simp [updateRecord, fetchPageHandle, hPage, bind, Except.bind] at hRun

theorem setPageLsn_cases (hRun : t.setPageLsn rid lsn = .ok t') :
    lsn = invalidLsn ∧ t' = t ∨
      t.HasPage rid.pageNo ∧
      t' = t.setPage rid.pageNo { t.page rid.pageNo with lsn := lsn } := by
  unfold setPageLsn at hRun
  split at hRun
  · rename_i hLsn
    exact Or.inl ⟨hLsn, (Except.ok.inj hRun).symm⟩
  · by_cases hPage : t.HasPage rid.pageNo
    · simp only [fetchPageHandle_ok hPage, bind, Except.bind] at hRun
      exact Or.inr ⟨hPage, (Except.ok.inj hRun).symm⟩
    · simp [fetchPageHandle, hPage, bind, Except.bind] at hRun

theorem setPageLsn_eq_ok
    (hLsn : 0 ≤ lsn)
    (hRun : t.setPageLsn rid lsn = .ok t') :
    t.HasPage rid.pageNo ∧
      t' = t.setPage rid.pageNo { t.page rid.pageNo with lsn := lsn } := by
  refine (setPageLsn_cases hRun).resolve_left ?_
  rintro ⟨hValid, -⟩
  unfold invalidLsn at hValid
  omega

/- A missing record's page may itself be missing. -/
theorem hasPage_of_record (hRecord : t.record rid = some rec) :
    t.HasPage rid.pageNo := by
  by_contra hPage
  simp [record, image_of_not_hasPage hPage, blankPage] at hRecord

end Heap

end Table

end Rmdb
