import Rmdb.System.Catalog

/-
  This file says what the statements on the catalog leave of
  the rows.

  Versions, write sets and insert owners are kept by table name
  and place.  No statement on the catalog looks at them, so they
  outlive a dropped table and the heap file that the first index
  of a table replaces.  A table that no running transaction has
  a part in leaves nothing behind.

  Key definitions include:
    * `Catalog.retold`
    * `Catalog.without`
    * `Engine.visibleRows`
    * `Catalog.AllowsMvcc`
    * `Catalog.KeepsRows`
    * `Catalog.Serves`

  Key theorems include:
    * `Catalog.recreated_table_reads`
    * `Catalog.createIndex_keeps_reads`
-/

namespace Rmdb

open VersionHistory Function StepSystem List Table Sys

/- What a step adds to any history: a write of a growing
  transaction, a commit, or nothing. -/
inductive Hist.Adds (e' : Engine) (f : Hist → Hist) : Prop where
  | write (w : Write TxnId Loc (Option RmRecord)) (hGrowing : e'.state w.txn = .growing)
      (hAfter : ∀ h, f h = h.write w)
  | stamp (t : TxnId) (ts : Int) (hAfter : ∀ h, f h = h.stamp t ts)
  | nothing (hAfter : ∀ h, f h = h)

theorem Hist.adds_after
    (e e' : Engine)
    (op : Op) :
    Adds e' (fun h => h.after e e' op) := by
  have hRow : ∀ t x v, (∀ h : Hist, h.after e e' op =
      if e.wrote e' t then h.write ⟨t, x, v⟩ else h) → Adds e' (fun h => h.after e e' op) := by
    intro t x v hAfter
    by_cases hWrote : e.wrote e' t
    · exact .write ⟨t, x, v⟩ hWrote.1 fun h => (hAfter h).trans (if_pos hWrote)
    · exact .nothing fun h => (hAfter h).trans (if_neg hWrote)
  cases op with
  | insertRow t x rec order => exact hRow t x (some rec) fun _ => rfl
  | updateRow t x newRec order => exact hRow t x (some newRec) fun _ => rfl
  | deleteRow t x order => exact hRow t x none fun _ => rfl
  | commit t => exact .stamp t e'.lastCommitTs fun _ => rfl
  | _ => exact .nothing fun _ => rfl

------------
-- Dropped Tables
------------

/- Take away the predicate reads on a table and the rw edges,
  which do not say which table they come from. -/
def Ssi.without (s : Ssi) (tab : TabName) : Ssi :=
  { s with
    serializableReads := s.serializableReads.filter
      (fun read => read.tabName ≠ tab),
    rwEdges := [],
    rwIn := fun _ => [],
    rwOut := fun _ => [] }

theorem Ssi.without_eq
    {s : Ssi}
    {tab : TabName}
    (hReads : ∀ read ∈ s.serializableReads, read.tabName ≠ tab)
    (hEdges : s.rwEdges = [])
    (hEdgesOf : ∀ t, s.rwIn t = [] ∧ s.rwOut t = []) :
    s.without tab = s := by
  rcases s with ⟨reads, edges, rwIn, rwOut, starts, finishes⟩
  obtain rfl : edges = [] := hEdges
  obtain rfl : rwIn = fun _ => [] := funext (fun t => (hEdgesOf t).1)
  obtain rfl : rwOut = fun _ => [] := funext (fun t => (hEdgesOf t).2)
  unfold without
  rw [filter_eq_self.mpr (by simpa using hReads)]

namespace Engine

/- The manager keeps nothing about a table, and no rw edges. -/
structure Traceless
    (e : Engine)
    (tab : TabName) :
    Prop extends Unused e tab where
  compensation : ∀ x ∈ e.mvccIndexCompensationKeys, x.tab ≠ tab
  owners : ∀ rid, e.physicalInsertOwners ⟨tab, rid⟩ = none
  reads : ∀ read ∈ e.ssi.serializableReads, read.tabName ≠ tab
  edges : e.ssi.rwEdges = []
  edgesOf : ∀ t, e.ssi.rwIn t = [] ∧ e.ssi.rwOut t = []

/- The manager without what it keeps about a table. -/
def without (e : Engine) (tab : TabName) : Engine :=
  { e with
    mvccVersions := fun x =>
      if x.tab = tab then none else e.mvccVersions x,
    mvccTableKeys := e.mvccTableKeys.filter (fun x => x.tab ≠ tab),
    mvccIndexCompensationKeys :=
      e.mvccIndexCompensationKeys.filter (fun x => x.tab ≠ tab),
    locks := fun x => if x.tab = tab then none else e.locks x,
    sharedLocks := fun x =>
      if x.tab = tab then [] else e.sharedLocks x,
    physicalInsertOwners := fun x =>
      if x.tab = tab then none else e.physicalInsertOwners x,
    ssi := e.ssi.without tab }

theorem erase_eq_self
    {α : Type}
    {tab : TabName}
    {f : Loc → α}
    {d : α}
    (hNone : ∀ x, x.tab = tab → f x = d) :
    (fun x => if x.tab = tab then d else f x) = f := by
  funext x
  split
  · rename_i hTab
    exact (hNone x hTab).symm
  · rfl

/- There is nothing to take away. -/
theorem Traceless.without_eq
    {e : Engine}
    {tab : TabName}
    (hNone : e.Traceless tab)
    (hKeys : e.TableKeysOk) :
    e.without tab = e := by
  have hOwners : ∀ x : Loc, x.tab = tab → e.physicalInsertOwners x = none := by
    rintro x rfl
    exact hNone.owners x.rid
  have hShared : ∀ x : Loc, x.tab = tab → e.sharedLocks x = [] := by
    rintro x rfl
    exact (hNone.locks x.rid).2
  unfold without
  rw [erase_eq_self (fun x => hNone.entry hKeys), erase_eq_self (fun x => hNone.lock),
    erase_eq_self hShared, erase_eq_self hOwners,
    filter_eq_self.mpr (by simpa using hNone.versions),
    filter_eq_self.mpr (by simpa using hNone.compensation),
    Ssi.without_eq hNone.reads hNone.edges hNone.edgesOf]

end Engine

namespace Catalog

variable {c c' : Catalog} {tab : TabName} {h : Hist} {base : Loc → Option RmRecord}

/- The same state with another account of the past. -/
def retold
    (c : Catalog)
    (h : Hist)
    (base : Loc → Option RmRecord) :
    Catalog :=
  ⟨⟨c.eng, h⟩, c.isTable, base⟩

/- The state without a past and without what is kept about a
  table. -/
def without (c : Catalog) (tab : TabName) : Catalog :=
  ⟨⟨c.eng.without tab, .empty⟩, c.isTable, fun _ => none⟩

/- Two accounts say the same about the rows of a table. -/
structure SameOn
    (tab : TabName)
    (c : Catalog)
    (h : Hist)
    (base : Loc → Option RmRecord) :
    Prop where
  rows : ∀ x, x.tab = tab → c.base x = base x
  latest : ∀ p x, x.tab = tab → c.tr.hist.latest p x = h.latest p x
  stamps : ∀ w ∈ h.writes, c.tr.hist.stamps w.txn = h.stamps w.txn
  opened : ∀ t, c.tr.hist.stamps t = none → h.stamps t = none

theorem SameOn.valueAt
    (hSame : SameOn tab c h base)
    {x : Loc}
    (hTab : x.tab = tab)
    (ts : Int) :
    c.tr.hist.valueAt c.base ts x = h.valueAt base ts x := by
  unfold History.valueAt
  rw [hSame.latest _ x hTab, hSame.rows x hTab]
  congr 2
  refine History.latest_congr (fun w hW _ => ?_)
  simp [History.committed, hSame.stamps w hW]

theorem SameOn.after
    (hSame : SameOn tab c h base)
    {op : Op}
    {e' : Engine}
    (hSound : Sound { c with tr := ⟨e', c.tr.hist.after c.eng e' op⟩ }) :
    SameOn tab { c with tr := ⟨e', c.tr.hist.after c.eng e' op⟩ }
      (h.after c.eng e' op) base := by
  cases Hist.adds_after c.eng e' op with
  | write w hGrowing hAfter =>
    rcases hSound.agrees.1 with ⟨floor, hInv⟩
    have hOpen : c.tr.hist.stamps w.txn = none := by
      have hNone := hInv.hist.open_of_running (Or.inl hGrowing)
      rw [hAfter] at hNone
      exact hNone
    simp only [hAfter]
    refine ⟨hSame.rows, ?_, ?_, hSame.opened⟩
    · intro p x hTab
      rw [History.latest_write, History.latest_write, hSame.latest p x hTab]
    · intro v hV
      rcases mem_cons.mp hV with rfl | hOld
      · exact hOpen.trans (hSame.opened _ hOpen).symm
      · exact hSame.stamps v hOld
  | stamp t ts hAfter =>
    simp only [hAfter]
    refine ⟨hSame.rows, hSame.latest, ?_, ?_⟩
    · intro v hV
      simp only [History.stamp, update_apply, hSame.stamps v hV]
    · intro u
      simp only [History.stamp, update_apply]
      split
      · exact fun hNone => hNone
      · exact hSame.opened u
  | nothing hAfter =>
    simp only [hAfter]
    exact ⟨hSame.rows, hSame.latest, hSame.stamps, hSame.opened⟩

theorem SameOn.step
    (hSame : SameOn tab c h base)
    {stmt : Stmt}
    (hSound : c'.Sound)
    (hStep : c.step stmt = some c') :
    ∃ h' base', (c.retold h base).step stmt = some (c'.retold h' base') ∧
      SameOn tab c' h' base' := by
  cases stmt with
  | op op =>
    simp only [Catalog.step, stepOp] at hStep ⊢
    split at hStep
    · rename_i hTable
      cases hEng : c.eng.step op with
      | none => simp [Recorded.step, hEng] at hStep
      | some e' =>
        simp only [Recorded.step, hEng] at hStep
        split at hStep
        · rename_i hFinds
          cases hStep
          have hTr : (c.retold h base).tr.step op = some ⟨e', h.after c.eng e' op⟩ := by
            simp only [Recorded.step, retold, hEng]
          refine ⟨h.after c.eng e' op, base, (if_pos hTable).trans ?_, hSame.after hSound⟩
          rw [hTr]
          exact if_pos hFinds
        · cases hStep
    · cases hStep
  | ddl ddl =>
    simp only [Catalog.step, stepDdl] at hStep ⊢
    split at hStep
    · rename_i hValid
      cases hStep
      refine ⟨_, _, if_pos hValid, ?_, ?_, ?_, hSame.opened⟩
      · intro x hTab
        change (if _ then _ else _) = if _ then _ else _
        rw [hSame.rows x hTab]
        rfl
      · intro p x hTab
        have hAlso : (c.retold h base).exchanged ddl = c.exchanged ddl := rfl
        simp only [Engine.forget, hAlso]
        cases hGone : c.exchanged ddl x.tab with
        | true => rw [History.latest_restrict_of_not (by simp [hGone]),
            History.latest_restrict_of_not (by simp [hGone])]
        | false =>
          exact ((History.latest_restrict (by simp [hGone])).trans (hSame.latest p x hTab)).trans
            (History.latest_restrict (by simp [hGone])).symm
      · intro w hW
        exact hSame.stamps w (mem_filter.mp hW).1
    · cases hStep

theorem SameOn.run
    (hSame : SameOn tab c h base)
    (hSound : c.Sound)
    {stmts : List Stmt}
    (hAllows : Guarded Catalog.step Allows c stmts)
    (hRun : c.run stmts = some c') :
    c'.Sound ∧ ∃ h' base',
      (c.retold h base).run stmts = some (c'.retold h' base') ∧
      SameOn tab c' h' base' := by
  induction stmts generalizing c h base with
  | nil =>
    cases hRun
    exact ⟨hSound, h, base, rfl, hSame⟩
  | cons stmt rest ih =>
    rcases run_cons_eq_some.mp hRun with ⟨c₁, hStep, hRest⟩
    rcases hAllows with ⟨hFirst, hLater⟩
    rw [hStep] at hLater
    have hSound₁ := hSound.step hFirst hStep
    rcases hSame.step hSound₁ hStep with ⟨h₁, base₁, hStep₁, hSame₁⟩
    rcases ih hSame₁ hSound₁ hLater hRest with ⟨hEnd, h', base', hRun', hSame'⟩
    exact ⟨hEnd, h', base', run_cons_eq_some.mpr ⟨_, hStep₁, hRun'⟩, hSame'⟩

/- A table that was created again has no rows and no history. -/
theorem sameOn_created
    {c₀ : Catalog}
    {lens : List Nat}
    (hDrop : c₀.step (.ddl (.dropTable tab)) = some c)
    (hCreate : c.step (.ddl (.createTable tab lens)) = some c')
    (hTable : c'.isTable tab = true) :
    SameOn tab c' .empty (fun _ => none) := by
  have hGone : c.isTable tab = false := by
    cases hDrop
    change update c₀.isTable tab _ tab = false
    cases hOld : c₀.isTable tab <;> simp [Ddl.change, Ddl.tab, hOld]
  cases hCreate
  have hLens : ¬ (lens.sum < 1 ∨ 512 < lens.sum) := by
    intro hBad
    simp only [Ddl.change, Ddl.tab, hGone, update_self, if_pos hBad] at hTable
    cases hTable
  have hNew : ∀ x : Loc, x.tab = tab → c.exchanged (.createTable tab lens) x.tab = true := by
    intro x hTab
    simp [exchanged, Ddl.tab, Ddl.rebuilds, hGone, hTab]
    omega
  refine ⟨?_, ?_, by simp [History.empty], fun _ _ => rfl⟩
  · intro x hTab
    refine (if_pos (hNew x hTab)).trans ?_
    simp only [changedEng, Ddl.change, Ddl.tab, hGone, Bool.false_eq_true, if_false, if_neg hLens,
      hTab, Db.record, update_self, record, image]
    split <;> rfl
  · intro p x hTab
    exact History.latest_restrict_of_not (by simp [hNew x hTab])

/- A table of which the manager keeps nothing is dropped and
  created again.  The statements that follow lead to the same
  state as without any trace of the old table.  Running
  transactions read their own writes and the commits of that
  time, and the newest versions of the rows that nobody is
  writing, which garbage collection leaves, are the last commits
  of that time. -/
theorem recreated_table_reads
    {db : Db}
    {tabCols : TabName → List ColMeta}
    {isTable : TabName → Bool}
    {before later : List Stmt}
    {lens : List Nat}
    {c₀ c₁ c₂ : Catalog}
    (hRoom : ∀ tab, 0 < (db tab).numRecordsPerPage)
    (hSlots : ∀ tab, (db tab).InSlots)
    (hBefore : StepSystem.Guarded Catalog.step Allows
      (init db tabCols isTable) before)
    (hRun₀ : (init db tabCols isTable).run before = some c₀)
    (hTraceless : c₀.eng.Traceless tab)
    (hDrop : c₀.step (.ddl (.dropTable tab)) = some c₁)
    (hCreate : c₁.step (.ddl (.createTable tab lens)) = some c₂)
    (hTable : c₂.isTable tab = true)
    (hLater : StepSystem.Guarded Catalog.step Allows c₂ later)
    (hRun : c₂.run later = some c) :
    ∃ h base, (c₂.without tab).run later = some (c.retold h base) ∧
      ∀ x, x.tab = tab →
        (∀ t, c.eng.state t = .growing →
          (c.eng.isMvccTxn t = false →
            c.eng.locks x = none ∨ c.eng.locks x = some t) →
          c.eng.getVisibleRecord t x =
            Consistent.expected base c.eng h t x) ∧
        ((∀ t, ¬ c.eng.Owns t x ∧ ¬ c.eng.PlainOwns t x) →
          c.eng.newest x = h.valueAt base c.eng.lastCommitTs x) := by
  have hSound₀ : c₀.Sound := invariant_of_guarded_run Sound
    (fun _ _ _ hInv hOk hStep => hInv.step hOk hStep) (Sound.init hRoom hSlots) hBefore hRun₀
  have hUnused := hTraceless.toUnused
  have hSound₁ : c₁.Sound := hSound₀.step
    (show c₀.Allows (.ddl (.dropTable tab)) from fun _ => hUnused) hDrop
  have hTraceless₁ : c₁.eng.Traceless tab := by
    cases hDrop
    exact { hTraceless with }
  have hSound₂ : c₂.Sound := hSound₁.step
    (show c₁.Allows (.ddl (.createTable tab lens)) from
      fun _ => hTraceless₁.toUnused) hCreate
  have hTraceless₂ : c₂.eng.Traceless tab := by
    cases hCreate
    exact { hTraceless₁ with }
  rcases (sameOn_created hDrop hCreate hTable).run hSound₂ hLater hRun with
    ⟨hSound, h, base, hRetold, hSame⟩
  have hWithout : c₂.without tab = c₂.retold .empty (fun _ => none) := by
    rcases hSound₂.agrees.1 with ⟨floor, hInv⟩
    unfold without retold
    rw [hTraceless₂.without_eq hInv.tableKeys]
  rw [hWithout]
  rcases hSound.agrees.1 with ⟨floor, hInv⟩
  refine ⟨h, base, hRetold, fun x hTab => ⟨?_, ?_⟩⟩
  · intro t hGrowing hReadable
    rw [hInv.visible hGrowing hReadable]
    unfold Consistent.expected History.own
    rw [hSame.latest _ x hTab, hSame.valueAt hTab]
  · intro hFree
    have hSettled := (hInv.rows x).settled (fun t => (hFree t).1)
    rw [hInv.pre_eq (fun t => (hFree t).2) (fun t => (hFree t).1)] at hSettled
    rw [← hSame.valueAt hTab]
    exact Consistent.newest_of_settled hSettled hInv.floorLast

/- A row is inserted, deleted and collected. -/
def rowComesAndGoes : List Stmt :=
  [.op (.begin .snapshotIsolation),
    .op (.insertRow 0 firstRow [7] []), .op (.commit 0),
    .op (.begin .snapshotIsolation),
    .op (.deleteRow 1 firstRow []), .op (.commit 1),
    .op .garbageCollection]

/- A row takes its place in the new table. -/
def rowComesAgain : List Stmt :=
  [.op (.begin .readCommitted),
    .op (.insertRow 2 firstRow [9] []), .op (.commit 2),
    .op (.begin .snapshotIsolation)]

def collectedTable : Catalog :=
  (oneTable.run rowComesAndGoes).getD oneTable

theorem run_rowComesAndGoes :
    oneTable.run rowComesAndGoes = some collectedTable :=
  eq_some_getD (by decide) oneTable

theorem traceless_collectedTable :
    collectedTable.eng.Traceless [116] := by
  refine ⟨⟨by decide, by decide, fun rid => ⟨rfl, rfl⟩⟩, by decide, ?_,
    by decide, by decide, fun t => ⟨rfl, rfl⟩⟩
  have hOwners : collectedTable.eng.physicalInsertOwners =
      update (update (fun _ => none) firstRow (some 0)) firstRow none := rfl
  intro rid
  rw [hOwners, update_idem, update_eq_self_iff.mpr rfl]

theorem recreated_table_reads_rowComesAgain :
    ∃ c₂ c, collectedTable.run [.ddl (.dropTable [116]),
        .ddl (.createTable [116] [1])] = some c₂ ∧
      c₂.run rowComesAgain = some c ∧
      c.eng.getVisibleRecord 3 firstRow = some [9] ∧
      ∃ h base, (c₂.without [116]).run rowComesAgain =
          some (c.retold h base) ∧
        Consistent.expected base c.eng h 3 firstRow = some [9] := by
  have hTame : ∀ (c : Catalog) (op : Op), c.eng.Tame op →
      c.Allows (.op op) := fun _ _ hTame => hTame
  have hBefore : Guarded Catalog.step Allows oneTable rowComesAndGoes := by
    refine ⟨hTame _ _ ?_, hTame _ _ ?_, hTame _ _ ?_, hTame _ _ ?_,
      hTame _ _ ?_, hTame _ _ ?_, hTame _ _ ?_, trivial⟩
    all_goals decide
  have hAll := recreated_table_reads (fun _ => (by decide : (0 : Int) < 2))
    (fun _ => inSlots_of_blank rfl) hBefore run_rowComesAndGoes
    traceless_collectedTable rfl
    (show Catalog.step _ (.ddl (.createTable [116] [1])) = some _ from rfl) rfl
    (show Guarded Catalog.step Allows _ rowComesAgain from ?_)
    (show _ = some _ from rfl)
  · rcases hAll with ⟨h, base, hAgain, hReads⟩
    have hSeen := (hReads firstRow rfl).1 3 (by decide) (by decide)
    exact ⟨_, _, rfl, rfl, by decide, h, base, hAgain, hSeen.symm.trans (by decide)⟩
  · refine ⟨hTame _ _ ?_, hTame _ _ ?_, hTame _ _ ?_, hTame _ _ ?_, trivial⟩
    all_goals decide

/- The row of a dropped table was deleted. Its version entry
  hides the committed row that takes its place in the new
  table, and garbage collection removes the row; without the
  old table it is there. -/
theorem recreated_table_loses_row :
    let later : TxnId → List Stmt := fun t => [.op (.begin .readCommitted),
      .op (.insertRow t firstRow [9] []), .op (.commit t), .op (.begin .snapshotIsolation)]
    (∃ c, oneTable.run ([.op (.begin .snapshotIsolation), .op (.insertRow 0 firstRow [7] []),
          .op (.deleteRow 0 firstRow []), .op (.commit 0), .ddl (.dropTable [116]),
          .ddl (.createTable [116] [1])] ++ later 1) = some c ∧
        c.eng.getVisibleRecord 2 firstRow = none ∧
        c.eng.garbageCollection.db.record firstRow = none) ∧
      ∃ c, oneTable.run ([.ddl (.dropTable [116]), .ddl (.createTable [116] [1])] ++ later 0) =
          some c ∧ c.eng.getVisibleRecord 1 firstRow = some [9] ∧
        c.eng.garbageCollection.db.record firstRow = some [9] := by
  intro later
  exact ⟨exists_of_any (p := fun c : Catalog => _) (by decide),
    exists_of_any (p := fun c : Catalog => _) (by decide)⟩

end Catalog

------------
-- New Indexes
------------

namespace Table

/- The places that a scan goes through. -/
def places (t : Table) : List Rid :=
  (range (t.numPages - firstRecordPage).toNat).flatMap (fun p =>
    (range t.numRecordsPerPage.toNat).map (fun s =>
      ⟨firstRecordPage + p, s⟩))

theorem scanRows_eq (t : Table) :
    t.scanRows = t.places.filterMap (fun rid =>
      (t.record rid).map (fun rec => (rid, rec))) := by
  unfold scanRows places
  rw [filterMap_flatMap]
  simp only [filterMap_map]
  rfl

/- Reading every place shows the records of the scan. -/
theorem scanRows_records (t : Table) :
    t.scanRows.map Prod.snd = t.places.filterMap t.record := by
  rw [scanRows_eq, map_filterMap]
  refine filterMap_congr (fun rid _ => ?_)
  cases t.record rid <;> rfl

end Table

namespace Engine

variable {e e' : Engine} {t : TxnId} {tab : TabName}

/- What a scan of a table shows a transaction. -/
def visibleRows
    (e : Engine)
    (t : TxnId)
    (tab : TabName) :
    List RmRecord :=
  (e.db tab).scanRows.filterMap (fun row => e.getVisibleRecord t ⟨tab, row.1⟩)

theorem visibleRows_eq
    (e : Engine)
    (t : TxnId)
    (tab : TabName) :
    e.visibleRows t tab = (e.db tab).places.filterMap (fun rid =>
      e.getVisibleRecord t ⟨tab, rid⟩) := by
  rw [visibleRows, scanRows_eq, filterMap_filterMap]
  refine filterMap_congr (fun rid _ => ?_)
  cases hRecord : (e.db tab).record rid with
  | none => simp [getVisibleRecord, Db.record, hRecord]
  | some rec => rfl

/- The committed rows of a table. -/
def committedRows (e : Engine) (tab : TabName) : List RmRecord :=
  (e.db tab).places.filterMap (fun rid => e.committedHead ⟨tab, rid⟩)

theorem committedHead_of_no_entry
    {x : Loc}
    (hNone : e.mvccVersions x = none) :
    e.committedHead x = e.db.record x := by
  simp [committedHead, newest, hNone]

/- The rows of a table stay, or they are put in another order
  and have no versions.  Reading place by place finds the same
  rows if records without versions are taken as they are. -/
theorem readRows_perm
    {file file' : Table}
    {versions : Rid → Option MvccEntry}
    {read read' : Rid → Option RmRecord}
    (hRows : (∃ indexes, file' = { file with indexes := indexes }) ∨
      (∀ rid, versions rid = none) ∧
        (file'.scanRows.map Prod.snd).Perm (file.scanRows.map Prod.snd))
    (hSame : ∀ rid, file'.record rid = file.record rid →
      read' rid = read rid)
    (hPlain : ∀ rid, versions rid = none →
      read' rid = file'.record rid ∧ read rid = file.record rid) :
    (file'.places.filterMap read').Perm (file.places.filterMap read) := by
  rcases hRows with ⟨indexes, rfl⟩ | ⟨hNone, hPerm⟩
  · exact Perm.of_eq (filterMap_congr (fun rid _ => hSame rid rfl))
  · rw [scanRows_records, scanRows_records] at hPerm
    have hRead' : read' = file'.record :=
      funext (fun rid => (hPlain rid (hNone rid)).1)
    have hRead : read = file.record :=
      funext (fun rid => (hPlain rid (hNone rid)).2)
    rw [hRead', hRead]
    exact hPerm

section ReadRows

variable {db : Db} {tabCols : TabName → List ColMeta}

variable (hRows : (∃ indexes,
    db tab = { e.db tab with indexes := indexes }) ∨
  (∀ rid, e.mvccVersions ⟨tab, rid⟩ = none) ∧
    ((db tab).scanRows.map Prod.snd).Perm
      ((e.db tab).scanRows.map Prod.snd))
include hRows

theorem visibleRows_perm :
    (visibleRows { e with db := db, tabCols := tabCols } t tab).Perm
      (e.visibleRows t tab) := by
  rw [visibleRows_eq, visibleRows_eq]
  refine readRows_perm hRows (fun rid hRecord => ?_) (fun rid hNone =>
    ⟨Consistent.getVisibleRecord_none
      (e := { e with db := db, tabCols := tabCols }) hNone,
      Consistent.getVisibleRecord_none hNone⟩)
  unfold getVisibleRecord Db.record
  rw [hRecord]
  rfl

theorem committedRows_perm :
    (committedRows { e with db := db, tabCols := tabCols } tab).Perm
      (e.committedRows tab) := by
  refine readRows_perm hRows (fun rid hRecord => ?_) (fun rid hNone =>
    ⟨committedHead_of_no_entry
      (e := { e with db := db, tabCols := tabCols }) hNone,
      committedHead_of_no_entry hNone⟩)
  unfold committedHead newest Db.record
  rw [hRecord]

end ReadRows

theorem OnlyMvcc.retable
    {gone : TabName → Bool}
    (hOnly : e.OnlyMvcc)
    (hKeys : e.TableKeysOk)
    (hNew : Retables gone e e') :
    e'.OnlyMvcc := by
  have hUnused := hNew.unused
  have hRecords := hNew.records
  rcases hNew.rest with ⟨db, tabCols, rfl⟩
  refine ⟨hOnly.levels, ?_, hOnly.rolled⟩
  intro x entry hEntry hWriter
  cases hGone : gone x.tab with
  | true => cases hEntry.symm.trans ((hUnused x.tab hGone).entry hKeys rfl)
  | false =>
    rw [hRecords x hGone]
    exact hOnly.settled x entry hEntry hWriter

end Engine

namespace Catalog

variable {c c' : Catalog} {tab : TabName}

/- Only MVCC transactions begin, and a table is exchanged only
  if no running transaction has a part in it. -/
def AllowsMvcc (c : Catalog) : Stmt → Prop
| .op op => op.Mvcc
| .ddl ddl => c.Allows (.ddl ddl)

structure SoundMvcc (c : Catalog) : Prop extends Sound c where
  only : c.eng.OnlyMvcc

theorem SoundMvcc.step
    {stmt : Stmt}
    (hSound : c.SoundMvcc)
    (hAllows : c.AllowsMvcc stmt)
    (hStep : c.step stmt = some c') :
    c'.SoundMvcc := by
  cases stmt with
  | op op =>
    have hInv : AgreesMvcc c.base c.eng c.tr.hist := ⟨hSound.agrees, hSound.only⟩
    refine ⟨hSound.step_op hInv.tame hStep, ?_⟩
    simp only [Catalog.step, stepOp] at hStep
    split at hStep
    · cases hTr : c.tr.step op with
      | none => simp [hTr] at hStep
      | some tr =>
        simp only [hTr] at hStep
        split at hStep
        · cases hStep
          exact (hInv.step hAllows (Recorded.step_eq_some hTr).1).only
        · cases hStep
    · cases hStep
  | ddl ddl =>
    refine ⟨hSound.step_ddl hAllows hStep, ?_⟩
    rcases hSound.agrees.1 with ⟨floor, hInv⟩
    simp only [Catalog.step, stepDdl] at hStep
    split at hStep
    · cases hStep
      exact hSound.only.retable hInv.tableKeys (hSound.retables hAllows)
    · cases hStep

/- Garbage collection takes out rows whose last commit deleted
  them. -/
theorem Sound.collects
    (hSound : c.Sound)
    (x : Loc) :
    c.eng.garbageCollection.db.record x = c.eng.db.record x ∨
      c.eng.garbageCollection.db.record x = none ∧
        c.tr.hist.valueAt c.base c.eng.lastCommitTs x = none := by
  rcases hSound.agrees.1 with ⟨floor, hInv⟩
  rw [c.eng.record_garbageCollection x]
  cases hDead : c.eng.deadRow x with
  | false => exact Or.inl rfl
  | true =>
    refine Or.inr ⟨rfl, ?_⟩
    have hFree : ∀ t, ¬ c.eng.PlainOwns t x := fun t hPlain =>
      absurd (hDead.symm.trans (hInv.not_dead_of_plain hPlain)) (by simp)
    unfold Engine.deadRow at hDead
    cases hEntry : c.eng.mvccVersions x with
    | none => simp [hEntry] at hDead
    | some entry =>
      simp only [hEntry, Option.any_some, MvccEntry.dead, decide_eq_true_eq] at hDead
      have hNone : ∀ t, ¬ c.eng.Owns t x := by
        rintro t ⟨_, hHere, hWriter⟩
        rw [hEntry] at hHere
        cases hHere
        cases hDead.1.symm.trans hWriter
      have hSettled := (hInv.rows x).settled hNone
      rw [hInv.pre_eq hFree hNone] at hSettled
      rw [← Consistent.newest_of_settled hSettled hInv.floorLast]
      exact if_pos (by simp [hEntry, hDead.2.2.1])

/- The rows after `create_index`. -/
theorem createIndex_rows
    {fmt : LoadFormat}
    {cols : List ColMeta}
    {order : List RmRecord}
    (hSound : c.Sound)
    (hAllows : c.Allows (.ddl (.createIndex tab fmt cols order)))
    (hStep : c.step (.ddl (.createIndex tab fmt cols order)) = some c')
    (tab' : TabName) :
    (∃ indexes, c'.eng.db tab' = { c.eng.db tab' with indexes := indexes }) ∨
      (∀ rid, c.eng.mvccVersions ⟨tab', rid⟩ = none) ∧
        ((c'.eng.db tab').scanRows.map Prod.snd).Perm
          ((c.eng.db tab').scanRows.map Prod.snd) := by
  rcases hSound.agrees.1 with ⟨floor, hInv⟩
  simp only [Catalog.step, stepDdl] at hStep
  split at hStep
  · rename_i hValid
    cases hStep
    by_cases hTab : tab' = tab
    · subst hTab
      have hDb : (c.changedEng (.createIndex tab' fmt cols order)).db tab' =
          if c.isTable tab' then ((c.eng.db tab').createIndex fmt cols order).2
          else c.eng.db tab' := by
        refine (update_self _ _ _).trans ?_
        by_cases hTable : c.isTable tab' = true <;> simp [Ddl.change, Ddl.tab, hTable]
      change (∃ indexes, (c.changedEng _).db tab' = _) ∨
        _ ∧ (((c.changedEng _).db tab').scanRows.map _).Perm _
      rw [hDb]
      split
      · rename_i hTable
        rcases (c.eng.db tab').createIndex_cases fmt cols order with
          hSame | ⟨⟨hNone, hOnce⟩, records, indexes, hRecords, hNew⟩
        · exact Or.inl hSame
        · refine Or.inr ⟨fun rid => (hAllows ?_).entry hInv.tableKeys rfl, ?_⟩
          · simp [Ddl.rebuilds, Ddl.tab, hTable, hNone, hOnce]
          · rw [hNew]
            refine (Perm.of_eq (scanRows_refill (hSound.room tab'))).trans ?_
            rcases hRecords with rfl | rfl
            · exact hValid.1
            · exact Perm.refl _
      · exact Or.inl ⟨_, rfl⟩
    · exact Or.inl ⟨_, update_of_ne hTab _ _⟩
  · cases hStep

/- The committed rows of a table at a time, by the account of
  the past. -/
def told (c : Catalog) (ts : Int) (tab : TabName) : List RmRecord :=
  (c.eng.db tab).places.filterMap (fun rid =>
    c.tr.hist.valueAt c.base ts ⟨tab, rid⟩)

theorem SoundMvcc.told_eq
    (hSound : c.SoundMvcc)
    (tab : TabName) :
    c.told c.eng.lastCommitTs tab = c.eng.committedRows tab := by
  rcases hSound.agrees.1 with ⟨floor, hInv⟩
  refine filterMap_congr (fun rid _ => ?_)
  exact (Engine.committedHead_eq_valueAt hInv
    (fun _ => hSound.only.not_plainOwns)).symm

/- A transaction sees its own writes and what was committed when
  it began. -/
theorem SoundMvcc.visibleRows
    {t : TxnId}
    (hSound : c.SoundMvcc)
    (hGrowing : c.eng.state t = .growing)
    (tab : TabName) :
    c.eng.visibleRows t tab =
      (c.eng.db tab).places.filterMap (fun rid =>
        Consistent.expected c.base c.eng c.tr.hist t ⟨tab, rid⟩) := by
  rcases hSound.agrees.1 with ⟨floor, hInv⟩
  have hMvcc := hSound.only.mvcc_of_running (Or.inl hGrowing)
  rw [Engine.visibleRows_eq]
  refine filterMap_congr (fun rid _ => hInv.visible hGrowing ?_)
  intro hPlain
  cases hMvcc.symm.trans hPlain

/- The writes of running transactions outlive a statement on the
  catalog. -/
theorem Sound.own_ddl
    {ddl : Ddl}
    {t : TxnId}
    (hSound : c.Sound)
    (hAllows : c.Allows (.ddl ddl))
    (hStep : c.step (.ddl ddl) = some c')
    (hRunning : c.eng.Running t)
    (x : Loc) :
    c'.tr.hist.own t x = c.tr.hist.own t x := by
  rcases hSound.agrees.1 with ⟨floor, hInv⟩
  simp only [Catalog.step, stepDdl] at hStep
  split at hStep
  · cases hStep
    simp only [Engine.forget, History.own]
    cases hGone : c.exchanged ddl x.tab with
    | false => exact History.latest_restrict (by simp [hGone])
    | true =>
      have hExchanged : x.tab = ddl.tab ∧ ddl.rebuilds
          (c.isTable ddl.tab) (c.eng.db ddl.tab) = true := by
        simpa [exchanged] using hGone
      have hUnused := hAllows hExchanged.2
      refine (History.latest_restrict_of_not (by simp [hGone])).trans ?_
      exact (hInv.own_eq_none hRunning
        (hUnused.not_owns hInv.tableKeys hExchanged.1)
        (hUnused.not_plainOwns hExchanged.1)).symm
  · cases hStep

/- No transaction sees a difference, neither a running one nor
  one that begins now.  The committed rows and the writes that
  are not committed yet are the same. -/
structure KeepsRows (c c' : Catalog) : Prop where
  running : ∀ t tab,
    (c'.eng.visibleRows t tab).Perm (c.eng.visibleRows t tab)
  beginning : ∀ level t tab,
    ((c'.eng.begin level).visibleRows t tab).Perm
      ((c.eng.begin level).visibleRows t tab)
  committed : ∀ tab,
    (c'.told c'.eng.lastCommitTs tab).Perm
      (c.told c.eng.lastCommitTs tab)
  written : ∀ t x, c.eng.Running t →
    c'.tr.hist.own t x = c.tr.hist.own t x

/- Every transaction sees its own writes and the commits before
  it began, every running one can abort, and garbage collection
  takes out rows only that the last commit deleted. -/
structure Serves (c : Catalog) : Prop where
  reads : ∀ t tab, c.eng.state t = .growing →
    c.eng.visibleRows t tab =
      (c.eng.db tab).places.filterMap (fun rid =>
        Consistent.expected c.base c.eng c.tr.hist t ⟨tab, rid⟩)
  aborts : ∀ t, c.eng.Running t →
    ∃ c', c.step (.op (.abort t)) = some c' ∧ Aborts t c c'
  collects : ∀ x,
    c.eng.garbageCollection.db.record x = c.eng.db.record x ∨
      c.eng.garbageCollection.db.record x = none ∧
        c.tr.hist.valueAt c.base c.eng.lastCommitTs x = none

/- `create_index` changes nothing for the running transactions
  and the later ones if the rows stay where they are or no
  running transaction has a part in the table. -/
theorem createIndex_keeps_reads
    {db : Db}
    {tabCols : TabName → List ColMeta}
    {isTable : TabName → Bool}
    {before : List Stmt}
    {fmt : LoadFormat}
    {cols : List ColMeta}
    {order : List RmRecord}
    (hRoom : ∀ tab, 0 < (db tab).numRecordsPerPage)
    (hSlots : ∀ tab, (db tab).InSlots)
    (hBefore : StepSystem.Guarded Catalog.step AllowsMvcc
      (init db tabCols isTable) before)
    (hRun : (init db tabCols isTable).run before = some c)
    (hAllows : c.AllowsMvcc (.ddl (.createIndex tab fmt cols order)))
    (hStep : c.step (.ddl (.createIndex tab fmt cols order)) = some c') :
    KeepsRows c c' ∧
      ∀ later c₁,
        StepSystem.Guarded Catalog.step AllowsMvcc c' later →
        c'.run later = some c₁ → Serves c₁ := by
  have hKeeps : ∀ c stmt c', SoundMvcc c → c.AllowsMvcc stmt →
      c.step stmt = some c' → SoundMvcc c' :=
    fun _ _ _ hInv hOk hStep => hInv.step hOk hStep
  have hSound : c.SoundMvcc := invariant_of_guarded_run SoundMvcc hKeeps
    ⟨Sound.init hRoom hSlots, (Recorded.agreesMvcc_init db tabCols).only⟩
    hBefore hRun
  have hRows := createIndex_rows hSound.toSound hAllows hStep
  have hSound' := hSound.step hAllows hStep
  have hRest : ∃ db tabCols,
      c'.eng = { c.eng with db := db, tabCols := tabCols } := by
    simp only [Catalog.step, stepDdl] at hStep
    split at hStep
    · cases hStep
      exact ⟨_, _, rfl⟩
    · cases hStep
  rcases hRest with ⟨db', tabCols', hEng⟩
  rw [hEng] at hRows
  refine ⟨⟨?_, ?_, ?_, ?_⟩, ?_⟩
  · intro t tab'
    rw [hEng]
    exact Engine.visibleRows_perm (hRows tab')
  · intro level t tab'
    have hBegin : ({ c.eng with db := db', tabCols := tabCols' } :
        Engine).begin level =
          { c.eng.begin level with db := db', tabCols := tabCols' } := by
      cases level <;> rfl
    rw [hEng, hBegin]
    refine Engine.visibleRows_perm ?_
    cases level <;> exact hRows tab'
  · intro tab'
    rw [hSound.told_eq, hSound'.told_eq, hEng]
    exact Engine.committedRows_perm (hRows tab')
  · intro t x hRunning
    exact hSound.own_ddl hAllows hStep hRunning x
  · intro later c₁ hLater hMore
    have hSound₁ := invariant_of_guarded_run SoundMvcc hKeeps hSound'
      hLater hMore
    exact ⟨fun t tab' hGrowing => hSound₁.visibleRows hGrowing tab',
      fun t hRunning => hSound₁.exists_abort hRunning, hSound₁.collects⟩

/- Two rows are committed and collected, and a reader begins. -/
def rowsBesideReader : List Stmt :=
  [.op (.begin .snapshotIsolation),
    .op (.insertRow 0 firstRow [2] []),
    .op (.insertRow 0 secondRow [1] []), .op (.commit 0),
    .op .garbageCollection, .op (.begin .snapshotIsolation)]

/- The row that comes first now is deleted, and another reader
  begins. -/
def rowGoesBesideReader : List Stmt :=
  [.op (.begin .snapshotIsolation),
    .op (.deleteRow 2 firstRow []), .op (.commit 2),
    .op (.begin .snapshotIsolation)]

def besideReader : Catalog :=
  (oneTable.run rowsBesideReader).getD oneTable

theorem run_rowsBesideReader :
    oneTable.run rowsBesideReader = some besideReader :=
  eq_some_getD (by decide) oneTable

/- The first index of a table sorts the rows beside a running
  transaction. -/
theorem createIndex_keeps_reads_besideReader :
    ∃ c' c₁, besideReader.step (.ddl (.createIndex [116] Engine.oneLetter
        [⟨0, 1⟩] [[1], [2]])) = some c' ∧
      besideReader.eng.visibleRows 1 [116] = [[2], [1]] ∧
      c'.eng.visibleRows 1 [116] = [[1], [2]] ∧
      KeepsRows besideReader c' ∧
      c'.run rowGoesBesideReader = some c₁ ∧
      c₁.eng.visibleRows 1 [116] = [[1], [2]] ∧
      c₁.eng.visibleRows 3 [116] = [[2]] ∧
      Serves c₁ := by
  have hMvcc : ∀ (c : Catalog) (op : Op), op.Mvcc →
      c.AllowsMvcc (.op op) := fun _ _ hOp => hOp
  have hBefore : Guarded Catalog.step AllowsMvcc oneTable
      rowsBesideReader := by
    refine ⟨hMvcc _ _ ?_, hMvcc _ _ ?_, hMvcc _ _ ?_, hMvcc _ _ ?_,
      hMvcc _ _ ?_, hMvcc _ _ ?_, trivial⟩
    all_goals decide
  have hUnused : besideReader.eng.Unused [116] :=
    ⟨by decide, by decide, fun rid => ⟨rfl, rfl⟩⟩
  have hAll := createIndex_keeps_reads (fun _ => (by decide : (0 : Int) < 2))
    (fun _ => inSlots_of_blank rfl) hBefore run_rowsBesideReader
    (show besideReader.AllowsMvcc (.ddl (.createIndex [116]
      Engine.oneLetter [⟨0, 1⟩] [[1], [2]])) from fun _ => hUnused)
    (Option.some_get (by decide)).symm
  refine ⟨_, _, (Option.some_get (by decide)).symm, by decide, by decide,
    hAll.1, (Option.some_get (by decide)).symm, by decide, by decide,
    hAll.2 rowGoesBesideReader _ ?_ (Option.some_get (by decide)).symm⟩
  refine ⟨hMvcc _ _ ?_, hMvcc _ _ ?_, hMvcc _ _ ?_, hMvcc _ _ ?_, trivial⟩
  all_goals decide

/- The first index sorts the heap beside a reader: a row that
  was deleted for later transactions and its version entry
  part, and the reader sees one record twice and the other one
  no more. -/
theorem createIndex_moves_rows :
    ∃ c, oneTable.run
        [.op (.begin .snapshotIsolation),
          .op (.insertRow 0 Sys.firstRow [2] []),
          .op (.insertRow 0 Sys.secondRow [1] []), .op (.commit 0),
          .op (.begin .snapshotIsolation), .op (.begin .snapshotIsolation),
          .op (.deleteRow 2 Sys.firstRow []), .op (.commit 2)] = some c ∧
      c.eng.visibleRows 1 [116] = [[2], [1]] ∧
      (c.step (.ddl (.createIndex [116] Engine.oneLetter [⟨0, 1⟩]
          [[1], [2]]))).map (fun c' => c'.eng.visibleRows 1 [116]) =
        some [[2], [2]] :=
  exists_of_any (p := fun c : Catalog => _) (by decide)

end Catalog

end Rmdb
