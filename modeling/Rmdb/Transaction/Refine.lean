import Rmdb.Transaction.Moves
import Rmdb.Transaction.WalDisk

/-
  This file defines how the write-ahead machine sees the
  server: without indexes, write sets and the stages that only
  touch them.  Each part of a server step is given the effect
  it has on the machine.

  Key definitions include:
    * `Sys.view`

  Key theorems include:
    * `Sys.view_setTable`
    * `Sys.view_setSlot`
    * `Sys.view_setPageLsn`
    * `Sys.image_writeBack`
-/

namespace Rmdb

open Function Table

------------
-- The Server Seen As The Machine
------------

def Stage.view : Stage → Wal.Stage
| .placed => .placed
| .locked => .held
| .indexed => .held
| .read => .read
| .logged lsn => .logged lsn
| .stamped lsn => .stamped lsn
| .unindexed lsn => .stamped lsn
| .applied lsn => .applied lsn

def Phase.view : Phase → Wal.Status
| .fresh => .fresh
| .idle => .idle
| .op d st => .op d st.view
| .failed => .doomed
| .committing _ => .sealed
| .commitFlushed => .sealed
| .committed => .done
| .aborting _ => .doomed
| .unlocked _ => .doomed
| .abortLogged _ => .doomed
| .aborted => .doomed

namespace Sys

/- The server as the write-ahead machine sees it. -/
def view (s : Sys) : Wal.State :=
  { content := s.db.record,
    pageLsn := fun P => (s.db.image P).lsn,
    disk := s.disk.image,
    log := s.log,
    flushed := s.flushed,
    status := fun t => (s.phase t).view,
    locks := s.locks }

section View

variable (s : Sys)

theorem view_setTxn (t : TxnId)
    (txn : Txn) :
    (s.setTxn t txn).view = s.view.setStatus t txn.phase.view := by
  ext1
  all_goals try rfl
  funext u
  by_cases hU : u = t
  · subst hU
    simp [view, setTxn, phase, Wal.State.setStatus]
  · simp [view, setTxn, phase, Wal.State.setStatus, hU]

theorem view_setPhase
    (t : TxnId)
    (ph : Phase) :
    (s.setPhase t ph).view = s.view.setStatus t ph.view := view_setTxn s t _

/- A transaction's other fields are not seen. -/
theorem view_setTxn_same
    (t : TxnId)
    (txn : Txn)
    (hPhase : txn.phase = s.phase t) :
    (s.setTxn t txn).view = s.view := by
  rw [view_setTxn, hPhase]
  exact s.view.setStatus_self t

theorem view_appendWriteRecord (t : TxnId)
    (w : WriteRecord) :
    (s.appendWriteRecord t w).view = s.view := view_setTxn_same s t _ rfl

theorem view_addLogRecord (t : TxnId)
    (body : LogBody) :
    (s.addLogRecord t body).view = s.view.append t (s.txn t).prevLsn body := by
  ext1
  all_goals try rfl
  funext u
  by_cases hU : u = t
  · subst hU
    simp [view, addLogRecord, phase, Wal.State.append]
  · simp [view, addLogRecord, phase, Wal.State.append, hU]

theorem view_setLock
    (x : Loc)
    (owner : Option TxnId) :
    (s.setLock x owner).view = s.view.setLock x owner := rfl

theorem view_registerPhysicalInsert
    (t : TxnId)
    (x : Loc) :
    (s.registerPhysicalInsert t x).view = s.view := rfl

theorem view_unregisterPhysicalInsert (t : TxnId)
    (x : Loc) : (s.unregisterPhysicalInsert t x).view = s.view := by
  rw [unregister_eq]
  rfl

variable {tab : TabName} {t : Table}

/- A table whose images are the same. -/
theorem view_setTable
    (hImage : ∀ k, t.image k = (s.db tab).image k) :
    (s.setTable tab t).view = s.view := by
  have hDb : Db.image (update s.db tab t) = s.db.image := by
    funext P
    rw [Db.image_update]
    split
    · rename_i hTab
      rw [hImage, ← hTab]
      rfl
    · rfl
  ext1
  all_goals try rfl
  · funext x
    exact congrFun (congrArg PageRecovery.Image.val (congrFun hDb x.page)) x.rid.slotNo
  · funext P
    exact congrArg PageRecovery.Image.lsn (congrFun hDb P)

variable {x : Loc}

/- The database after a change of one page of one table. -/
theorem image_update_page
    {f : Page → Page}
    (hImage : ∀ k, t.image k =
        if k = x.rid.pageNo then
          f ((s.db x.tab).image k)
        else
          (s.db x.tab).image k)
    (P : PageId) :
    Db.image (update s.db x.tab t) P =
      if P = x.page then f (s.db.image P) else s.db.image P := by
  rw [Db.image_update]
  by_cases hTab : P.tab = x.tab
  · have hIff : P = x.page ↔ P.pageNo = x.rid.pageNo := by
      rw [eq_comm, Loc.page_eq_iff]
      constructor
      · exact fun h => h.2.symm
      · exact fun h => ⟨hTab.symm, h.symm⟩
    simp only [hTab, if_true, hImage, hIff, Db.image]
  · have hNe : P ≠ x.page := by
      rintro rfl
      exact hTab rfl
    simp [hTab, hNe]

variable {v : Option RmRecord}

/- A table in which one slot has a new value. -/
theorem view_setTable_slot (hImage : ∀ k, t.image k =
        if k = x.rid.pageNo then
          ((s.db x.tab).image k).write ((s.db x.tab).image k).lsn x.rid.slotNo v
        else
          (s.db x.tab).image k) :
    (s.setTable x.tab t).view = s.view.setContent x v := by
  have hDb := image_update_page s (f := fun p => p.write p.lsn x.rid.slotNo v) hImage
  ext1
  all_goals try rfl
  · funext y
    change (Db.image (update s.db x.tab t) y.page).val
      y.rid.slotNo = update s.db.record x v y
    rw [hDb]
    by_cases hY : y = x
    · subst hY
      simp [PageRecovery.Image.write]
    · rw [update_of_ne hY, Db.record_eq]
      by_cases hPage : y.page = x.page
      · have hSlot : y.rid.slotNo ≠ x.rid.slotNo := by
          intro hSlot
          apply hY
          rw [Loc.page_eq_iff] at hPage
          rcases y with ⟨yt, ⟨yp, ys⟩⟩
          simp only [Loc.page] at hPage hSlot ⊢
          rw [hPage.1, hPage.2, hSlot]
        simp [hPage, PageRecovery.Image.write, hSlot]
      · simp [hPage]
  · funext P
    change (Db.image (update s.db x.tab t) P).lsn = (s.db.image P).lsn
    rw [hDb]
    split
    · rfl
    · rfl

/- A table in which one page has a new LSN. -/
theorem view_setTable_lsn
    {lsn : Int}
    (hImage : ∀ k, t.image k =
        if k = x.rid.pageNo then
          { (s.db x.tab).image k with lsn := lsn }
        else
          (s.db x.tab).image k) :
    (s.setTable x.tab t).view = s.view.setLsn x.page lsn := by
  have hDb := image_update_page s (f := fun p => { p with lsn := lsn }) hImage
  ext1
  all_goals try rfl
  · funext y
    change (Db.image (update s.db x.tab t) y.page).val y.rid.slotNo = s.db.record y
    rw [hDb, Db.record_eq]
    split
    · rfl
    · rfl
  · funext P
    change (Db.image (update s.db x.tab t) P).lsn =
      update (fun P => (s.db.image P).lsn) x.page lsn P
    rw [hDb]
    by_cases hP : P = x.page
    · subst hP
      simp
    · simp [hP]

/- Heap operations of the executors, as the machine sees them. -/
theorem view_setSlot
    (hPage : (s.db x.tab).HasPage x.rid.pageNo)
    (hTable : ∀ k, t.image k =
      ((s.db x.tab).setSlot x.rid v).image k) :
    (s.setTable x.tab t).view = s.view.setContent x v :=
  view_setTable_slot s (fun k => (hTable k).trans (image_setSlot hPage v k))

theorem view_setPageLsn
    {lsn : Int}
    (hLsn : 0 ≤ lsn)
    (hRun : (s.db x.tab).setPageLsn x.rid lsn = .ok t) :
    (s.setTable x.tab t).view = s.view.setLsn x.page lsn := by
  rcases setPageLsn_eq_ok hLsn hRun with ⟨hPage, rfl⟩
  apply view_setTable_lsn
  intro k
  rw [image_setPage hPage]
  split
  · rename_i hk
    subst hk
    rw [image_of_hasPage hPage]
  · rfl

/- A page is written back: the image on disk is the new one. -/
theorem image_writeBack
    (db : Db)
    (P : PageId)
    (p : Page)
    (Q : PageId) :
    Db.image (update db P.tab ((db P.tab).setPage P.pageNo p)) Q = db.image Q ∨
      Q = P ∧ Db.image (update db P.tab ((db P.tab).setPage P.pageNo p)) Q =
        p := by
  rw [Db.image_update]
  by_cases hTab : Q.tab = P.tab
  · rw [if_pos hTab]
    by_cases hDiskPage : (db P.tab).HasPage P.pageNo
    · rw [image_setPage hDiskPage]
      by_cases hNo : Q.pageNo = P.pageNo
      · rw [if_pos hNo]
        refine Or.inr ⟨?_, rfl⟩
        rcases Q with ⟨qt, qn⟩
        simp only at hTab hNo
        rw [hTab, hNo]
      · rw [if_neg hNo]
        exact Or.inl (by rw [Db.image, hTab])
    · -- the header on disk does not cover the page yet
      refine Or.inl ?_
      unfold Db.image image
      rw [hTab]
      simp only [hasPage_setPage]
      split
      · rename_i hQ
        have hNo : Q.pageNo ≠ P.pageNo := by
          intro hNo
          rw [hNo] at hQ
          exact hDiskPage hQ
        simp [setPage, hNo]
      · rfl
  · rw [if_neg hTab]
    exact Or.inl rfl

theorem view_setPhase_same
    (t : TxnId)
    (ph : Phase)
    (hView : ph.view = (s.phase t).view) :
    (s.setPhase t ph).view = s.view := by
  rw [view_setPhase, hView]
  exact s.view.setStatus_self t

/- A step that changes indexes only is not seen. -/
theorem view_setIndexes
    {table : Table}
    {t : TxnId}
    {ph : Phase}
    (hImage : ∀ k, table.image k = (s.db tab).image k)
    (hView : ph.view = (s.phase t).view) :
    ((s.setTable tab table).setPhase t ph).view = s.view :=
  (view_setPhase_same (s.setTable tab table) t ph hView).trans (view_setTable s hImage)

/- Indexes on disk are not seen. -/
theorem image_setIndexes
    (db : Db)
    (tab : TabName)
    (indexes : List Index) :
    Db.image (update db tab { db tab with indexes := indexes }) = db.image := by
  funext Q
  rw [Db.image_update]
  split
  · rename_i hTab
    rw [← hTab]
    rfl
  · rfl

end View

end Sys

end Rmdb
