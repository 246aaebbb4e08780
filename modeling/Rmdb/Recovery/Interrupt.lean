import Rmdb.Lib.StepSystem
import Rmdb.Recovery.DbView

/-
  This file models a recovery that a crash can interrupt: redo
  and undo of single records are separate steps, and between
  two steps the buffer pool may write any page back, with its
  link of the free page list.  The header of a file is not
  written during recovery, so a page that recovery has added
  is not part of the file after the crash.

  Key definitions include:
    * `RecStep`
    * `recoverySteps`
    * `Interrupt.step`

  Key theorems include:
    * `Interrupt.inv_run`
    * `Interrupt.recover_interrupted`
-/

namespace Rmdb

open List Table

------------
-- The Steps Of A Recovery
------------

/- One call of `apply_redo` or `apply_undo`. -/
inductive RecStep where
  | redo (r : LogRecord)
  | undo (r : LogRecord)
deriving DecidableEq, Repr

def RecStep.apply (files : Files) :
    RecStep → Except RmdbError Files
| .redo r => applyRedo files r
| .undo r => applyUndo files r

/- The calls that recovery makes, in their order. -/
def recoverySteps (logs : List LogRecord) : List RecStep :=
  (winnerLogs logs).map .redo ++ (undoLogs logs).map .undo

/- What a step does to one page. -/
def RecStep.onPage (P : PageId) :
    RecStep →
      List (PageRecovery.Step Int (Option RmRecord))
| .redo r => (entriesOn P (fun _ => true) [r]).map .redo
| .undo r => (entriesOn P (fun _ => false) [r]).map .undo

theorem flatMap_onPage_redo
    (P : PageId)
    (logs : List LogRecord) :
    (logs.map RecStep.redo).flatMap (RecStep.onPage P) =
      (entriesOn P (fun _ => true) logs).map .redo := by
  induction logs with
  | nil => rfl
  | cons r logs ih =>
    rw [map_cons, flatMap_cons, ih, entriesOn_cons, map_append]
    rfl

theorem flatMap_onPage_undo
    (P : PageId)
    (logs : List LogRecord) :
    (logs.map RecStep.undo).flatMap (RecStep.onPage P) =
      (entriesOn P (fun _ => false) logs).map .undo := by
  induction logs with
  | nil => rfl
  | cons r logs ih =>
    rw [map_cons, flatMap_cons, ih, entriesOn_cons, map_append]
    rfl

variable {logs : List LogRecord}

/- On one page the steps are the schedule of the page. -/
theorem flatMap_recoverySteps
    (hClean : Clean logs)
    (P : PageId) :
    (recoverySteps logs).flatMap (RecStep.onPage P) =
      PageRecovery.schedule (pageLog P logs) := by
  unfold recoverySteps PageRecovery.schedule
  rw [flatMap_append, flatMap_onPage_redo, flatMap_onPage_undo, entriesOn_winnerLogs,
    entriesOn_undoLogs hClean]

/- The record that a step works on. -/
def RecStep.record : RecStep → LogRecord
| .redo r => r
| .undo r => r

theorem record_mem_of_recoverySteps {a : RecStep}
    (hMem : a ∈ recoverySteps logs) : a.record ∈ logs := by
  rcases mem_append.mp hMem with hRedo | hUndo
  · rcases mem_map.mp hRedo with ⟨r, hR, rfl⟩
    exact mem_of_mem_filter hR
  · rcases mem_map.mp hUndo with ⟨r, hR, rfl⟩
    exact mem_reverse.mp (mem_of_mem_filter hR)

/- One step, on every page that the file has. -/
theorem RecStep.apply_step
    {files : Files}
    {a : RecStep}
    (hSound : files.Sound)
    (hRange : InRange files.db [a.record]) :
    ∃ files', a.apply files = .ok files' ∧ files'.Sound ∧
      files.db.SameLayout files'.db ∧
      ∀ P, (files.db P.tab).HasPage P.pageNo →
        files'.db.image P =
          (a.onPage P).foldl PageRecovery.Step.apply
            (files.db.image P) := by
  cases a with
  | redo r =>
    rcases applyRedo_step hSound hRange with
      ⟨files', hRun, hSound', hLayout, _, hImage⟩
    refine ⟨files', hRun, hSound', hLayout, ?_⟩
    intro P hPage
    rw [hImage P hPage.1, redoEntries_of_lt hPage.2,
      RecStep.onPage, foldl_map]
    rfl
  | undo r =>
    rcases applyUndo_step hSound hRange with
      ⟨files', hRun, hSound', hLayout, _, hImage⟩
    refine ⟨files', hRun, hSound', hLayout, ?_⟩
    intro P _
    rw [hImage P, RecStep.onPage, foldl_map]
    rfl

------------
-- Recovery With Write-Backs
------------

/- A recovery under way: the files in the buffer pool, the
  files on disk and the steps that are left. -/
structure Interrupt where
  files : Files
  disk : Files
  todo : List RecStep

/- Write a page of a file, with its link, to the file on
  disk. -/
def HeapFile.writePage
    (disk f : HeapFile)
    (pageNo : Int) :
    HeapFile :=
  { disk with
    toTable := disk.setPage pageNo (f.page pageNo),
    nextFreePageNo := Function.update disk.nextFreePageNo
      pageNo (f.nextFreePageNo pageNo) }

namespace Interrupt

inductive Act where
  | advance
  | flushPage (P : PageId)
deriving DecidableEq, Repr

def start (logs : List LogRecord) (disk : Files) : Interrupt :=
  ⟨disk, disk, recoverySteps logs⟩

def advance (s : Interrupt) : Option Interrupt :=
  match s.todo with
  | [] => none
  | a :: rest =>
    match a.apply s.files with
    | .ok files => some { s with files := files, todo := rest }
    | .error _ => none

/- Write a page back; the header of the file stays as it is. -/
def flushPage (s : Interrupt) (P : PageId) : Option Interrupt :=
  if (s.files P.tab).HasPage P.pageNo then
    some { s with
      disk := Function.update s.disk P.tab
        ((s.disk P.tab).writePage (s.files P.tab) P.pageNo) }
  else
    none

def step (s : Interrupt) :
    Act → Option Interrupt
| .advance => s.advance
| .flushPage P => s.flushPage P

variable {s s' : Interrupt}

section Invariant

variable {disk₀ : Files} {logs : List LogRecord}

/- A page as some first part of the steps has left it. -/
def Partly
    (disk₀ : Files)
    (logs : List LogRecord)
    (P : PageId)
    (p : Page) :
    Prop :=
  ∃ done rest, recoverySteps logs = done ++ rest ∧
    p = (done.flatMap (RecStep.onPage P)).foldl
      PageRecovery.Step.apply (disk₀.db.image P)

structure Inv
    (disk₀ : Files)
    (logs : List LogRecord)
    (s : Interrupt) :
    Prop where
  sound : s.files.Sound
  layout : disk₀.db.SameLayout s.files.db
  diskLayout : disk₀.db.SameLayout s.disk.db
  header : ∀ tab,
    (s.disk tab).numPages = (disk₀ tab).numPages ∧
      (s.disk tab).firstFreePageNo =
        (disk₀ tab).firstFreePageNo
  image : ∃ done, recoverySteps logs = done ++ s.todo ∧
    ∀ P, (disk₀ P.tab).HasPage P.pageNo →
      s.files.db.image P =
        (done.flatMap (RecStep.onPage P)).foldl
          PageRecovery.Step.apply (disk₀.db.image P)
  onDisk : ∀ P, (disk₀ P.tab).HasPage P.pageNo →
    Partly disk₀ logs P (s.disk.db.image P)

theorem inv_start
    (hSound : disk₀.Sound)
    (logs : List LogRecord) :
    Inv disk₀ logs (start logs disk₀) where
  sound := hSound
  layout := .refl _
  diskLayout := .refl _
  header := fun _ => ⟨rfl, rfl⟩
  image := ⟨[], rfl, fun _ _ => rfl⟩
  onDisk := fun _ _ => ⟨[], recoverySteps logs, rfl, rfl⟩

theorem inv_advance
    (hRange : InRange disk₀.db logs)
    (hInv : Inv disk₀ logs s)
    (hStep : s.advance = some s') :
    Inv disk₀ logs s' := by
  unfold advance at hStep
  split at hStep
  · cases hStep
  · rename_i a rest hTodo
    rcases hInv.image with ⟨done, hSteps, hImage⟩
    rw [hTodo] at hSteps
    have hMem : a.record ∈ logs := by
      apply record_mem_of_recoverySteps
      rw [hSteps]
      simp
    have hHere : InRange s.files.db [a.record] := by
      have hOne : InRange disk₀.db [a.record] := by
        intro r hR
        rw [mem_singleton] at hR
        subst hR
        exact hRange a.record hMem
      exact hOne.of_sameLayout hInv.layout
    rcases RecStep.apply_step hInv.sound hHere with
      ⟨files', hRun, hSound, hLayout, hPage⟩
    rw [hRun] at hStep
    cases hStep
    refine ⟨hSound, ?_, hInv.diskLayout, hInv.header, ?_,
      hInv.onDisk⟩
    · exact hInv.layout.trans hLayout
    · refine ⟨done ++ [a], by simp [hSteps], ?_⟩
      intro P hHas
      have hHasNow : (s.files.db P.tab).HasPage P.pageNo :=
        (hInv.layout P.tab).hasPage hHas
      rw [hPage P hHasNow, hImage P hHas, flatMap_append,
        foldl_append]
      simp

theorem inv_flushPage
    {Q : PageId}
    (hInv : Inv disk₀ logs s)
    (hStep : s.flushPage Q = some s') :
    Inv disk₀ logs s' := by
  unfold flushPage at hStep
  split at hStep
  · rename_i hPage
    cases hStep
    refine ⟨hInv.sound, hInv.layout, ?_, ?_, hInv.image, ?_⟩
    · rw [Files.db_update]
      refine hInv.diskLayout.trans (sameLayout_update ?_)
      exact .refl (s.disk Q.tab).toTable
    · intro tab
      rcases hInv.header tab with ⟨hPages, hFree⟩
      rw [← hPages, ← hFree]
      by_cases hTab : tab = Q.tab
      · subst hTab
        simp only [Function.update_self]
        exact ⟨rfl, rfl⟩
      · simp only [Function.update_of_ne hTab, and_self]
    · intro P hHas
      rw [Files.db_update, Db.image_update]
      by_cases hTab : P.tab = Q.tab
      · rw [if_pos hTab]
        by_cases hNo : P.pageNo = Q.pageNo
        · have hEq : P = Q := by
            rcases P with ⟨pt, pn⟩
            simp only at hTab hNo
            rw [hTab, hNo]
          subst hEq
          have hDisk : (s.disk P.tab).HasPage P.pageNo := by
            refine ⟨hHas.1, ?_⟩
            rw [(hInv.header P.tab).1]
            exact hHas.2
          rw [HeapFile.writePage, image_setPage hDisk,
            if_pos rfl, ← image_of_hasPage hPage]
          rcases hInv.image with ⟨done, hSteps, hImage⟩
          exact ⟨done, s.todo, hSteps, hImage P hHas⟩
        · have hSame : ((s.disk Q.tab).writePage (s.files Q.tab)
              Q.pageNo).image P.pageNo = s.disk.db.image P := by
            unfold Db.image image Files.db
            rw [hTab]
            simp [HeapFile.writePage, setPage, HasPage, hNo]
          rw [hSame]
          exact hInv.onDisk P hHas
      · rw [if_neg hTab]
        exact hInv.onDisk P hHas
  · cases hStep

theorem inv_run
    {acts : List Act}
    (hSound : disk₀.Sound)
    (hRange : InRange disk₀.db logs)
    (hRun : StepSystem.run step (start logs disk₀) acts =
      some s) :
    Inv disk₀ logs s := by
  refine StepSystem.invariant_of_run (Inv disk₀ logs) ?_
    (inv_start hSound logs) hRun
  intro s a s' hInv hStep
  cases a with
  | advance => exact inv_advance hRange hInv hStep
  | flushPage P => exact inv_flushPage hInv hStep

/- The steps done so far are a first part of the schedule. -/
theorem Partly.interrupted
    {P : PageId}
    {p : Page}
    (hClean : Clean logs)
    (hPartly : Partly disk₀ logs P p) :
    ∃ n, p = PageRecovery.interrupted (pageLog P logs) n
      (disk₀.db.image P) := by
  rcases hPartly with ⟨done, rest, hSteps, rfl⟩
  refine ⟨(done.flatMap (RecStep.onPage P)).length, ?_⟩
  unfold PageRecovery.interrupted
  rw [← flatMap_recoverySteps hClean, hSteps, flatMap_append, take_left]

end Invariant

/- A recovery that was interrupted anywhere, run again on the
  files it left, ends with the rows of one recovery of the
  original files, if page by page the log is a history and the
  original image is faithful to it, and both recoveries find
  sound free page lists. -/
theorem recover_interrupted
    {disk₀ : Files}
    {acts : List Act}
    (hSound : disk₀.Sound)
    (hRange : InRange disk₀.db logs)
    (hClean : Clean logs)
    (hHistory : ∀ P,
      PageRecovery.History (fun _ => none) (pageLog P logs))
    (hFaithful : ∀ P,
      (disk₀.db.image P).Faithful (fun _ => none)
        (pageLog P logs))
    (hRun : StepSystem.run step (start logs disk₀) acts =
      some s)
    (hAgain : s.disk.Sound) :
    ∃ files files', recover logs disk₀ = .ok files ∧
      recover logs s.disk = .ok files' ∧
      ∀ x, files'.db.record x = files.db.record x := by
  have hInv := inv_run hSound hRange hRun
  have hRange' : InRange s.disk.db logs :=
    hRange.of_sameLayout hInv.diskLayout
  rcases recover_spec hSound hRange hClean with
    ⟨files, hOnce, hImage⟩
  rcases recover_spec hAgain hRange' hClean with
    ⟨files', hTwice, hImage'⟩
  refine ⟨files, files', hOnce, hTwice, ?_⟩
  intro x
  rw [Db.record_eq, Db.record_eq]
  by_cases hFirst : firstRecordPage ≤ x.rid.pageNo
  · by_cases hHas : (disk₀ x.tab).HasPage x.rid.pageNo
    · -- a page of the file: the page results apply
      have hHas' : (s.disk x.tab).HasPage x.rid.pageNo := by
        refine ⟨hFirst, ?_⟩
        rw [(hInv.header x.tab).1]
        exact hHas.2
      rcases (hInv.onDisk x.page hHas).interrupted hClean with
        ⟨n, hPartly⟩
      have hOld := recover_image hSound hRange hClean hOnce
        (P := x.page) hHas
      have hNew := recover_image hAgain hRange' hClean hTwice
        (P := x.page) hHas'
      rw [hNew, hPartly, hOld]
      exact PageRecovery.recover_restart (hHistory x.page)
        (hFaithful x.page) n x.rid.slotNo
    · -- a page beyond the header: both recoveries start blank
      have hHas' : ¬ (s.disk x.tab).HasPage x.rid.pageNo := by
        rintro ⟨h, hLast⟩
        rw [(hInv.header x.tab).1] at hLast
        exact hHas ⟨h, hLast⟩
      have hBlank :
          s.disk.db.image x.page = disk₀.db.image x.page :=
        (image_of_not_hasPage hHas').trans
          (image_of_not_hasPage hHas).symm
      have hHeader : (s.disk.db x.page.tab).numPages =
          (disk₀.db x.page.tab).numPages :=
        (hInv.header x.tab).1
      rw [hImage' x.page hFirst, hImage x.page hFirst, hBlank,
        hHeader]
  · have hNone : ∀ db : Db,
        ¬ (db x.tab).HasPage x.rid.pageNo :=
      fun db h => hFirst h.1
    have hBlank :
        files'.db.image x.page = files.db.image x.page :=
      (image_of_not_hasPage (hNone files'.db)).trans
        (image_of_not_hasPage (hNone files.db)).symm
    rw [hBlank]

end Interrupt

end Rmdb
