import Rmdb.Recovery.PageView
import Rmdb.Recovery.Analysis

/-
  This file follows a whole recovery page by page: it never
  fails on a log whose records name slots of the tables, and
  on every page it performs the redo and undo steps of that
  page's entries.

  A delete of a page that does not exist yet leaves no stamp,
  so the entries redo performs on a page depend on the number
  of pages the file has by then.

  Key definitions include:
    * `PageId`
    * `entriesOn`
    * `redoEntries`
    * `InRange`

  Key theorems include:
    * `foldlM_applyRedo`
    * `foldlM_applyUndo`
    * `recover_spec`
    * `recover_image`
-/

namespace Rmdb

open List

------------
-- Pages Of A Database
------------

/- A heap page of the database. -/
structure PageId where
  tab : TabName
  pageNo : Int
deriving DecidableEq, Repr

/- The page that holds a row. -/
def Loc.page (x : Loc) : PageId :=
  ⟨x.tab, x.rid.pageNo⟩

/- The image of a page of the database. -/
def Db.image (db : Db) (P : PageId) : Page :=
  (db P.tab).image P.pageNo

theorem Db.record_eq
    (db : Db)
    (x : Loc) :
    db.record x = (db.image x.page).val x.rid.slotNo := rfl

/- A data record names a slot of its table. -/
structure DataRecord.InRange (db : Db) (d : DataRecord) : Prop where
  first : firstRecordPage ≤ d.rid.pageNo
  slot : (db d.tab).HasSlot d.rid

/- Every data record of a log names a slot of its table. -/
def InRange (db : Db) (logs : List LogRecord) : Prop :=
  ∀ r ∈ logs, ∀ d, r.body = .data d →
    0 ≤ r.lsn ∧ d.InRange db

/- Every file has a sound free page list. -/
def Files.Sound (files : Files) : Prop :=
  ∀ tab, (files tab).Sound

/- No table loses a page or changes its page size. -/
def Db.SameLayout (db db' : Db) : Prop :=
  ∀ tab, (db tab).KeepsPages (db' tab)

theorem Db.SameLayout.refl (db : Db) : db.SameLayout db :=
  fun tab => .refl (db tab)

theorem Db.SameLayout.trans
    {db db' db'' : Db}
    (hFirst : db.SameLayout db')
    (hSecond : db'.SameLayout db'') :
    db.SameLayout db'' :=
  fun tab => (hFirst tab).trans (hSecond tab)

variable {db : Db} {logs : List LogRecord}

theorem InRange.of_sameLayout
    {db' : Db}
    (hRange : InRange db logs)
    (hLayout : db.SameLayout db') :
    InRange db' logs := by
  intro r hMem d hBody
  rcases hRange r hMem d hBody with ⟨hLsn, hFirst, hSlot⟩
  exact ⟨hLsn, hFirst, ((hLayout d.tab).hasSlot d.rid).mpr hSlot⟩

theorem InRange.of_cons
    {r : LogRecord}
    (hRange : InRange db (r :: logs)) :
    InRange db logs :=
  fun a hMem => hRange a (mem_cons_of_mem r hMem)

------------
-- The Entries Of A Page
------------

/- The data records of a page, as entries of the page. -/
def entriesOn
    (P : PageId)
    (won : TxnId → Bool)
    (logs : List LogRecord) :
    List (PageRecovery.Entry Int (Option RmRecord)) :=
  logs.filterMap (fun r =>
    match r.data? with
    | some d =>
      if d.loc.page = P then
        some (d.entry r.lsn (won r.tid))
      else
        none
    | none => none)

/- The number of pages of a table after redo of a record,
  given the number before. -/
def grow (tab : TabName) (n : Int) (r : LogRecord) : Int :=
  match r.data? with
  | some d =>
    if d.tab = tab ∧ d.creates then
      max n (d.rid.pageNo + 1)
    else
      n
  | none => n

/- The entries redo performs on a page, given the number of
  pages of its table when redo starts. -/
def redoEntries (P : PageId) :
    Int → List LogRecord →
      List (PageRecovery.Entry Int (Option RmRecord))
| _, [] => []
| n, r :: logs =>
  let rest := redoEntries P (grow P.tab n r) logs
  match r.data? with
  | some d =>
    if d.loc.page = P ∧ (d.creates ∨ P.pageNo < n) then
      d.entry r.lsn true :: rest
    else
      rest
  | none => rest

variable {P : PageId}

/- On a page that exists redo performs every entry. -/
theorem redoEntries_of_lt
    {n : Int}
    (hLt : P.pageNo < n)
    (logs : List LogRecord) :
    redoEntries P n logs = entriesOn P (fun _ => true) logs := by
  induction logs generalizing n with
  | nil => rfl
  | cons r logs ih =>
    have hGrow : P.pageNo < grow P.tab n r := by
      unfold grow
      split
      · split <;> omega
      · exact hLt
    unfold redoEntries
    simp only [ih hGrow, hLt, or_true, and_true]
    unfold entriesOn
    rw [filterMap_cons]
    cases hData : r.data? with
    | none => rfl
    | some d =>
      by_cases hPage : d.loc.page = P
      · simp [hPage]
      · simp [hPage]

/- Redo performs every entry of a page if each delete on it
  finds the page there or follows a record that creates it. -/
theorem redoEntries_of_created
    {n : Int}
    (hSorted : logs.Pairwise (fun a b => a.lsn < b.lsn))
    (hCreated : ∀ r ∈ logs, ∀ d, r.body = .data d → d.loc.page = P →
      d.creates ∨ P.pageNo < n ∨
          ∃ a ∈ logs, ∃ e, a.body = .data e ∧ e.loc.page = P ∧ e.creates ∧
          a.lsn < r.lsn) :
    redoEntries P n logs = entriesOn P (fun _ => true) logs := by
  induction logs generalizing n with
  | nil => rfl
  | cons r logs ih =>
    rcases pairwise_cons.mp hSorted with ⟨hLow, hRest⟩
    -- the first record has none before it
    have hHead : ∀ d, r.body = .data d → d.loc.page = P → d.creates ∨ P.pageNo < n := by
      intro d hBody hPage
      rcases hCreated r (by simp) d hBody hPage with
        h | h | ⟨a, hA, e, _, _, _, hLt⟩
      · exact Or.inl h
      · exact Or.inr h
      · rcases mem_cons.mp hA with rfl | hA
        · omega
        · have := hLow a hA
          omega
    have hTail : redoEntries P (grow P.tab n r) logs = entriesOn P (fun _ => true) logs := by
      apply ih hRest
      intro b hB d hBody hPage
      rcases hCreated b (by simp [hB]) d hBody hPage with
        h | h | ⟨a, hA, e, hE, hEPage, hCreates, hLt⟩
      · exact Or.inl h
      · refine Or.inr (Or.inl ?_)
        unfold grow
        split
        · split <;> omega
        · exact h
      · rcases mem_cons.mp hA with rfl | hA
        · refine Or.inr (Or.inl ?_)
          have hTab : e.tab = P.tab := by
            rw [← hEPage]
            rfl
          have hNo : e.rid.pageNo = P.pageNo := by
            rw [← hEPage]
            rfl
          simp only [grow, LogRecord.data?_eq_some.mpr hE, hTab, hCreates, and_self, if_true, hNo]
          omega
        · exact Or.inr (Or.inr ⟨a, hA, e, hE, hEPage, hCreates, hLt⟩)
    unfold redoEntries
    simp only [hTail]
    unfold entriesOn
    rw [filterMap_cons]
    cases hData : r.data? with
    | none => rfl
    | some d =>
      by_cases hPage : d.loc.page = P
      · have hDo := hHead d (LogRecord.data?_eq_some.mp hData) hPage
        simp [hPage, hDo]
      · simp [hPage]

------------
-- Redo Of A Log
------------

section Redo

variable {files : Files} {db : Db} {r : LogRecord} {d : DataRecord}

theorem Files.Sound.update
    {tab : TabName}
    {f : HeapFile}
    (hSound : files.Sound)
    (hFile : f.Sound) :
    Files.Sound (Function.update files tab f) := by
  intro tab'
  by_cases hTab : tab' = tab
  · subst hTab
    simpa using hFile
  · simpa [hTab] using hSound tab'

theorem Files.db_update
    (files : Files)
    (tab : TabName)
    (f : HeapFile) :
    Files.db (Function.update files tab f) =
      Function.update files.db tab f.toTable := by
  funext tab'
  by_cases hTab : tab' = tab
  · subst hTab
    simp [Files.db]
  · simp [Files.db, hTab]

theorem applyRedo_data
    (hSound : files.Sound)
    (hBody : r.body = .data d)
    (hLsn : 0 ≤ r.lsn)
    (hRange : d.InRange files.db) :
    ∃ f, applyRedo files r = .ok (Function.update files d.tab f) ∧ f.Sound ∧
      (files.db d.tab).Redoes f.toTable r.lsn d := by
  rcases HeapFile.applyRedo_spec (hSound d.tab) hRange.first hRange.slot hLsn with
    ⟨f, hRun, hFile, hRedoes⟩
  refine ⟨f, ?_, hFile, hRedoes⟩
  simp [applyRedo, hBody, Files.modify, hRun, bind, Except.bind]

theorem applyRedo_other (hData : r.data? = none) :
    applyRedo files r = .ok files := by
  unfold applyRedo
  cases h : r.body with
  | data d => simp [LogRecord.data?, h] at hData
  | _ => rfl

theorem Db.image_update
    (db : Db)
    (tab : TabName)
    (t : Table)
    (P : PageId) :
    Db.image (Function.update db tab t) P =
      if P.tab = tab then t.image P.pageNo else db.image P := by
  unfold Db.image
  by_cases hTab : P.tab = tab
  · simp [hTab]
  · simp [hTab]

theorem sameLayout_update
    {t : Table}
    {tab : TabName}
    (hKeeps : (db tab).KeepsPages t) :
    db.SameLayout (Function.update db tab t) := by
  intro tab'
  by_cases hTab : tab' = tab
  · subst hTab
    simpa using hKeeps
  · simpa [hTab] using Table.KeepsPages.refl (db tab')

theorem Loc.page_eq_iff (x : Loc)
    (P : PageId) : x.page = P ↔ x.tab = P.tab ∧ x.rid.pageNo = P.pageNo := by
  cases P
  simp [Loc.page]

/- A change of one page of a table, seen from the pages of the
  database. -/
theorem Db.image_update_page
    {t : Table}
    {f : Page → Page}
    {p : Int → Prop}
    [DecidablePred p]
    (hImage : ∀ k, t.image k = if k = d.rid.pageNo ∧
      p k then f ((db d.tab).image k)
      else (db d.tab).image k)
    (P : PageId) :
    Db.image (Function.update db d.tab t) P =
        if d.loc.page = P ∧ p P.pageNo then f (db.image P) else db.image P := by
  rw [Db.image_update]
  by_cases hTab : P.tab = d.tab
  · have hOn : d.loc.page = P ↔ P.pageNo = d.rid.pageNo := by
      rw [Loc.page_eq_iff]
      constructor
      · exact fun h => h.2.symm
      · exact fun h => ⟨hTab.symm, h.symm⟩
    rw [if_pos hTab, hImage, Db.image, hTab]
    simp only [hOn]
  · have hOff : d.loc.page ≠ P := by
      intro h
      rw [Loc.page_eq_iff] at h
      exact hTab h.1.symm
    simp [hTab, hOff]

/- Redo of one record, on every page of the database. -/
theorem applyRedo_step
    (hSound : files.Sound)
    (hRange : InRange files.db [r]) :
    ∃ files', applyRedo files r = .ok files' ∧ files'.Sound ∧
      files.db.SameLayout files'.db ∧
      (∀ tab, (files'.db tab).numPages = grow tab (files.db tab).numPages r) ∧
      ∀ P, firstRecordPage ≤ P.pageNo → files'.db.image P =
        PageRecovery.redoAll (redoEntries P (files.db P.tab).numPages [r])
          (files.db.image P) := by
  cases hData : r.data? with
  | none =>
    refine ⟨files, applyRedo_other hData, hSound, .refl _, ?_, ?_⟩
    · simp [grow, hData]
    · simp [redoEntries, hData]
  | some d =>
    have hBody := LogRecord.data?_eq_some.mp hData
    rcases hRange r (by simp) d hBody with ⟨hLsn, hIn⟩
    rcases applyRedo_data hSound hBody hLsn hIn with ⟨f, hRun, hFile, hRedoes⟩
    refine ⟨_, hRun, hSound.update hFile, ?_⟩
    rw [Files.db_update]
    refine ⟨sameLayout_update hRedoes.keeps, ?_, ?_⟩
    · intro tab
      by_cases hTab : d.tab = tab
      · subst hTab
        simp [grow, hData, hRedoes.numPages]
      · simp [grow, hData, hTab, Ne.symm hTab]
    · intro P hFirst
      rw [Db.image_update_page (f := (·.redo (d.entry r.lsn true)))
        (p := fun k => d.creates = true ∨
        (files.db d.tab).HasPage k) hRedoes.image]
      by_cases hPage : d.loc.page = P
      · have hTab : d.tab = P.tab := congrArg PageId.tab hPage
        simp only [redoEntries, hData, Table.HasPage, hFirst, true_and, hPage, hTab]
        split <;> rfl
      · simp [redoEntries, hData, hPage]

theorem redoEntries_cons
    (P : PageId)
    (n : Int)
    (r : LogRecord)
    (logs : List LogRecord) :
    redoEntries P n (r :: logs) = redoEntries P n [r] ++
      redoEntries P (grow P.tab n r) logs := by
  simp only [redoEntries]
  cases r.data? with
  | none => rfl
  | some d =>
    dsimp only
    split
    · rfl
    · rfl

end Redo

/- A pass over records in range. What it relies on holds of
  the records to come, and each record keeps it. -/
theorem foldlM_inRange
    {op : Files → LogRecord → Except RmdbError Files}
    {motive : List LogRecord → Files → Prop}
    {files : Files}
    (hStep : ∀ files r logs, files.Sound → InRange files.db [r] →
      motive (r :: logs) files →
        ∃ files', op files r = .ok files' ∧ files'.Sound ∧
          files.db.SameLayout files'.db ∧
          motive logs files')
    (hSound : files.Sound)
    (hRange : InRange files.db logs)
    (hFirst : motive logs files) :
    ∃ files', logs.foldlM op files = .ok files' ∧ files'.Sound ∧
      files.db.SameLayout files'.db ∧ motive [] files' := by
  induction logs generalizing files with
  | nil => exact ⟨files, rfl, hSound, .refl _, hFirst⟩
  | cons r logs ih =>
    have hHead : InRange files.db [r] := by
      intro a hMem
      rw [mem_singleton] at hMem
      subst hMem
      exact hRange a (by simp)
    rcases hStep files r logs hSound hHead hFirst with ⟨files₁, hRun₁, hSound₁, hLayout₁, hNext⟩
    rcases ih hSound₁ (hRange.of_cons.of_sameLayout hLayout₁) hNext with
      ⟨files₂, hRun₂, hSound₂, hLayout₂, hLast⟩
    refine ⟨files₂, ?_, hSound₂, hLayout₁.trans hLayout₂, hLast⟩
    simp [foldlM_cons, hRun₁, hRun₂, bind, Except.bind]

/- Redo of a list of records, on every page. -/
theorem foldlM_applyRedo
    {files : Files}
    (hSound : files.Sound)
    (hRange : InRange files.db logs) :
    ∃ files', logs.foldlM applyRedo files = .ok files' ∧ files'.Sound ∧
      files.db.SameLayout files'.db ∧ ∀ P, firstRecordPage ≤ P.pageNo →
        files'.db.image P =
        PageRecovery.redoAll (redoEntries P (files.db P.tab).numPages logs)
          (files.db.image P) := by
  refine foldlM_inRange (motive := fun todo files' => ∀ P, firstRecordPage ≤ P.pageNo →
    PageRecovery.redoAll (redoEntries P (files'.db P.tab).numPages todo) (files'.db.image P) =
      PageRecovery.redoAll (redoEntries P (files.db P.tab).numPages logs) (files.db.image P)) ?_
    hSound hRange (fun _ _ => rfl)
  intro files₁ r todo hSound₁ hHead hImage
  rcases applyRedo_step hSound₁ hHead with ⟨files₂, hRun, hSound₂, hLayout, hPages₂, hImage₂⟩
  refine ⟨files₂, hRun, hSound₂, hLayout, ?_⟩
  intro P hFirst
  rw [hImage₂ P hFirst, hPages₂, ← PageRecovery.redoAll_append, ← redoEntries_cons]
  exact hImage P hFirst

------------
-- Undo Of A Log
------------

section Undo

variable {files : Files} {r : LogRecord} {d : DataRecord}

theorem applyUndo_data
    (hSound : files.Sound)
    (hBody : r.body = .data d)
    (hLsn : 0 ≤ r.lsn)
    (hRange : d.InRange files.db) :
    ∃ f, applyUndo files r = .ok (Function.update files d.tab f) ∧ f.Sound ∧
      (files.db d.tab).Undoes f.toTable r.lsn d := by
  rcases HeapFile.applyUndo_spec (hSound d.tab) hRange.slot hLsn with ⟨f, hRun, hFile, hUndoes⟩
  refine ⟨f, ?_, hFile, hUndoes⟩
  simp [applyUndo, hBody, Files.modify, hRun, bind, Except.bind]

theorem applyUndo_other (hData : r.data? = none) :
    applyUndo files r = .ok files := by
  unfold applyUndo
  cases h : r.body with
  | data d => simp [LogRecord.data?, h] at hData
  | _ => rfl

/- Undo of one record, on every page of the database. -/
theorem applyUndo_step
    (hSound : files.Sound)
    (hRange : InRange files.db [r]) :
    ∃ files', applyUndo files r = .ok files' ∧ files'.Sound ∧
      files.db.SameLayout files'.db ∧
      (∀ tab, (files'.db tab).numPages = (files.db tab).numPages) ∧
      ∀ P, files'.db.image P = PageRecovery.undoAll
          (entriesOn P (fun _ => false) [r]) (files.db.image P) := by
  cases hData : r.data? with
  | none =>
    refine ⟨files, applyUndo_other hData, hSound, .refl _, fun _ => rfl, ?_⟩
    simp [entriesOn, hData]
  | some d =>
    have hBody := LogRecord.data?_eq_some.mp hData
    rcases hRange r (by simp) d hBody with ⟨hLsn, hIn⟩
    rcases applyUndo_data hSound hBody hLsn hIn with ⟨f, hRun, hFile, hUndoes⟩
    refine ⟨_, hRun, hSound.update hFile, ?_⟩
    rw [Files.db_update]
    refine ⟨sameLayout_update hUndoes.keeps, ?_, ?_⟩
    · intro tab
      by_cases hTab : tab = d.tab
      · subst hTab
        simp [hUndoes.numPages]
      · simp [hTab]
    · intro P
      rw [Db.image_update_page (f := (·.undo (d.entry r.lsn false))) (p := fun _ => True)
        (by simpa using hUndoes.image)]
      by_cases hPage : d.loc.page = P
      · simp [entriesOn, hData, hPage]
      · simp [entriesOn, hData, hPage]

theorem entriesOn_append
    (P : PageId)
    (won : TxnId → Bool)
    (first second : List LogRecord) :
    entriesOn P won (first ++ second) = entriesOn P won first ++
      entriesOn P won second := by
  simp [entriesOn]

end Undo

/- Undo of a list of records, on every page. -/
theorem foldlM_applyUndo
    {files : Files}
    (hSound : files.Sound)
    (hRange : InRange files.db logs) :
    ∃ files', logs.foldlM applyUndo files = .ok files' ∧ files'.Sound ∧
      files.db.SameLayout files'.db ∧ ∀ P, files'.db.image P =
        PageRecovery.undoAll (entriesOn P (fun _ => false) logs)
          (files.db.image P) := by
  refine foldlM_inRange (motive := fun todo files' => ∀ P,
    PageRecovery.undoAll (entriesOn P (fun _ => false) todo) (files'.db.image P) =
      PageRecovery.undoAll (entriesOn P (fun _ => false) logs) (files.db.image P)) ?_
    hSound hRange (fun _ => rfl)
  intro files₁ r todo hSound₁ hHead hImage
  rcases applyUndo_step hSound₁ hHead with ⟨files₂, hRun, hSound₂, hLayout, _, hImage₂⟩
  refine ⟨files₂, hRun, hSound₂, hLayout, ?_⟩
  intro P
  rw [hImage₂, ← PageRecovery.undoAll_append, ← entriesOn_append]
  exact hImage P

------------
-- A Whole Recovery
------------

/- The entries of a page, with the winners of the log. -/
def pageLog
    (P : PageId)
    (logs : List LogRecord) :
    List (PageRecovery.Entry Int (Option RmRecord)) :=
  entriesOn P (fun t => decide (HasCommit logs t)) logs

theorem mem_entriesOn
    {won : TxnId → Bool}
    {e : PageRecovery.Entry Int (Option RmRecord)} :
    e ∈ entriesOn P won logs ↔ ∃ r ∈ logs, ∃ d, r.body = .data d ∧
        d.loc.page = P ∧
        e = d.entry r.lsn (won r.tid) := by
  unfold entriesOn
  rw [mem_filterMap]
  constructor
  · rintro ⟨r, hMem, hSome⟩
    cases hData : r.data? with
    | none => simp [hData] at hSome
    | some d =>
      by_cases hPage : d.loc.page = P
      · simp only [hData, hPage, if_true, Option.some.injEq] at hSome
        exact ⟨r, hMem, d, LogRecord.data?_eq_some.mp hData, hPage, hSome.symm⟩
      · simp [hData, hPage] at hSome
  · rintro ⟨r, hMem, d, hBody, hPage, rfl⟩
    refine ⟨r, hMem, ?_⟩
    simp [LogRecord.data?_eq_some.mpr hBody, hPage]

theorem entriesOn_cons
    (P : PageId)
    (won : TxnId → Bool)
    (r : LogRecord)
    (logs : List LogRecord) :
    entriesOn P won (r :: logs) = entriesOn P won [r] ++ entriesOn P won logs :=
  entriesOn_append P won [r] logs

theorem entriesOn_singleton
    (P : PageId)
    (won : TxnId → Bool)
    (r : LogRecord) :
    entriesOn P won [r] =
      match r.data? with
      | some d =>
        if d.loc.page = P then
          [d.entry r.lsn (won r.tid)]
        else
          []
      | none => [] := by
  unfold entriesOn
  cases hData : r.data? with
  | none => simp [hData]
  | some d =>
    by_cases hPage : d.loc.page = P
    · simp [hData, hPage]
    · simp [hData, hPage]

/- A part of the entries of a page comes from a part of the
  records. -/
theorem filter_entriesOn
    {won won' : TxnId → Bool}
    {p : PageRecovery.Entry Int (Option RmRecord) → Bool}
    {keep : LogRecord → Bool}
    (P : PageId)
    (logs : List LogRecord)
    (hKeep : ∀ r d, r.data? = some d → p (d.entry r.lsn (won r.tid)) = keep r ∧
      (keep r = true → won' r.tid = won r.tid)) :
    (entriesOn P won logs).filter p = entriesOn P won' (logs.filter keep) := by
  unfold entriesOn
  rw [filter_filterMap, filterMap_filter]
  congr 1
  funext r
  cases hData : r.data? with
  | none => simp
  | some d =>
    rcases hKeep r d hData with ⟨hP, hWon⟩
    by_cases hPage : d.loc.page = P
    · cases hK : keep r with
      | true => simp [hPage, hP, hK, hWon hK]
      | false => simp [hPage, hP, hK]
    · simp [hPage]

/- The winners of a page come from the winning records. -/
theorem winners_entriesOn
    (P : PageId)
    (won : TxnId → Bool)
    (logs : List LogRecord) :
    PageRecovery.winners (entriesOn P won logs) = entriesOn P (fun _ => true)
        (logs.filter (fun r => won r.tid)) :=
  filter_entriesOn P logs (fun _ _ _ => ⟨rfl, Eq.symm⟩)

/- The losers of a page come from the other data records. -/
theorem losers_entriesOn
    (P : PageId)
    (won : TxnId → Bool)
    (logs : List LogRecord) :
    PageRecovery.losers (entriesOn P won logs) =
          entriesOn P (fun _ => false) (logs.filter (fun r =>
          r.data?.isSome ∧ ¬ won r.tid = true)) := by
  refine filter_entriesOn P logs ?_
  intro r d hData
  cases hWon : won r.tid <;> simp [hData, DataRecord.entry]

theorem entriesOn_reverse
    (P : PageId)
    (won : TxnId → Bool)
    (logs : List LogRecord) :
    entriesOn P won logs.reverse = (entriesOn P won logs).reverse := by
  simp [entriesOn, filterMap_reverse]

theorem entriesOn_undoLogs
    (hClean : Clean logs)
    (P : PageId) :
    entriesOn P (fun _ => false) (undoLogs logs) =
      (PageRecovery.losers (pageLog P logs)).reverse := by
  rw [undoLogs_of_clean hClean, entriesOn_reverse, pageLog, losers_entriesOn]
  congr 3
  funext r
  simp

/- The winners of a log, in log order. -/
def winnerLogs (logs : List LogRecord) : List LogRecord :=
  logs.filter (fun r => r.tid ∈ committedTxns logs)

theorem entriesOn_winnerLogs
    (P : PageId)
    (logs : List LogRecord) :
    entriesOn P (fun _ => true) (winnerLogs logs) =
      PageRecovery.winners (pageLog P logs) := by
  rw [pageLog, winners_entriesOn]
  simp [winnerLogs, mem_committedTxns]

variable {files : Files}

/- Recovery of files with sound free page lists never fails on
  a log in range, and on every page it redoes the winners it
  can and undoes the losers. -/
theorem recover_spec
    (hSound : files.Sound)
    (hRange : InRange files.db logs)
    (hClean : Clean logs) :
    ∃ files', recover logs files = .ok files' ∧
      ∀ P, firstRecordPage ≤ P.pageNo → files'.db.image P =
        PageRecovery.undoAll (PageRecovery.losers (pageLog P logs)).reverse
            (PageRecovery.redoAll
            (redoEntries P (files.db P.tab).numPages (winnerLogs logs))
              (files.db.image P)) := by
  have hWin : InRange files.db (winnerLogs logs) :=
    fun r hMem => hRange r (mem_of_mem_filter hMem)
  rcases foldlM_applyRedo hSound hWin with ⟨files₁, hRedo, hSound₁, hLayout, hImage₁⟩
  have hLose : InRange files.db (undoLogs logs) := by
    intro r hMem
    exact hRange r (mem_reverse.mp (mem_of_mem_filter hMem))
  rcases foldlM_applyUndo hSound₁ (hLose.of_sameLayout hLayout) with
    ⟨files₂, hUndo, _, _, hImage₂⟩
  refine ⟨files₂, ?_, ?_⟩
  · unfold recover redo undo
    rw [show logs.filter (fun r =>
      decide (r.tid ∈ committedTxns logs)) = winnerLogs logs
      from rfl, hRedo]
    exact hUndo
  · intro P hFirst
    rw [hImage₂, hImage₁ P hFirst, entriesOn_undoLogs hClean]

/- On a page that exists this is the recovery of the page. -/
theorem recover_image
    {files' : Files}
    (hSound : files.Sound)
    (hRange : InRange files.db logs)
    (hClean : Clean logs)
    (hRun : recover logs files = .ok files')
    (hPage : (files.db P.tab).HasPage P.pageNo) :
    files'.db.image P =
      PageRecovery.recover (pageLog P logs) (files.db.image P) := by
  rcases recover_spec hSound hRange hClean with ⟨files₁, hRun₁, hImage⟩
  rw [hRun] at hRun₁
  obtain rfl : files' = files₁ := Except.ok.inj hRun₁
  rw [hImage P hPage.1, redoEntries_of_lt hPage.2, entriesOn_winnerLogs, PageRecovery.recover_eq]

end Rmdb
