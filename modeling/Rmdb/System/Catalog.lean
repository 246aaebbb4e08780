import Rmdb.Mvcc.AbortEffects
import Rmdb.Mvcc.Retable
import Rmdb.Mvcc.Session
import Rmdb.System.Ddl

/-
  This file lets statements on the catalog run beside the
  transactions.  They take no locks, and an abort looks up the
  tables of its writes by their names.

  An abort fails if one of these tables is gone, and takes rows
  of the wrong table back if it has got another heap file.  If
  tables are only dropped and rebuilt while no running
  transaction has a part in them, every abort completes.

  Key definitions include:
    * `Catalog`
    * `Catalog.step`
    * `Catalog.Allows`

  Key theorems include:
    * `Catalog.Sound.step`
    * `Catalog.abort_completes`
-/

namespace Rmdb

open Function StepSystem

/- The table that a step looks up. -/
def Op.table? : Op → Option TabName
| .insertRow _ x _ _ => some x.tab
| .updateRow _ x _ _ => some x.tab
| .deleteRow _ x _ => some x.tab
| .readRow _ x => some x.tab
| .passRow _ x => some x.tab
| .registerRead _ tab _ _ _ => some tab
| _ => none

variable {op : Op} {t : TxnId}

theorem Op.table?_of_change
    {d : DataRecord}
    {old : RmRecord}
    (hOp : op.change? old = some (t, d)) :
    op.table? = some d.loc.tab := by
  cases op with
  | insertRow u x rec order | updateRow u x newRec order | deleteRow u x order => cases hOp; rfl
  | _ => cases hOp

/- A transaction writes on the tables of its steps only. -/
theorem Engine.Effect.mem_writeSet
    {e e' : Engine}
    {u : TxnId}
    {w : WriteRecord}
    (hEffect : Effect e e' op)
    (hRunning : e'.Running u)
    (hW : w ∈ (e'.txn u).writeSet) :
    e.Running u ∧ w ∈ (e.txn u).writeSet ∨ op.table? = some w.loc.tab := by
  have hOther : e'.txn u = e.txn u → e.Running u ∧ w ∈ (e.txn u).writeSet := by
    intro hSame
    rw [hSame] at hW
    unfold Running Engine.state at hRunning ⊢
    rw [hSame] at hRunning
    exact ⟨hRunning, hW⟩
  cases hEffect with
  | begin level hNew =>
    subst hNew
    have hBegins := begins_begin e level
    by_cases hU : u = e.nextTxnId
    · rw [hU, hBegins.writeSet] at hW
      cases hW
    · exact Or.inl (hOther (hBegins.others u hU))
  | quiet _ t x _ hQuiet =>
    by_cases hU : u = t
    · subst hU
      rw [hQuiet.writeSet] at hW
      exact Or.inl ⟨Or.inl hQuiet.growing, hW⟩
    · exact Or.inl (hOther (hQuiet.keeps.others u hU))
  | change _ t d old hChange hCan hOutcome =>
    have hTable := Op.table?_of_change hChange
    have hAdded : w ∈ d.writeRecord :: (e.txn t).writeSet → e.Running t ∧ w ∈ (e.txn t).writeSet ∨
          op.table? = some w.loc.tab := by
      intro hMem
      rcases List.mem_cons.mp hMem with rfl | hOld
      · exact Or.inr (by rw [hTable]; simp)
      · exact Or.inl ⟨Or.inl hCan.growing, hOld⟩
    cases hOutcome with
    | done hDone =>
      by_cases hU : u = t
      · subst hU
        rw [hDone.writeSet] at hW
        exact hAdded hW
      · exact Or.inl (hOther (hDone.keeps.others u hU))
    | rejected hRejected _ =>
      by_cases hU : u = t
      · subst hU
        rw [hRejected.writeSet] at hW
        split at hW
        · exact hAdded hW
        · exact Or.inl ⟨Or.inl hCan.growing, hW⟩
      · exact Or.inl (hOther (hRejected.keeps.others u hU))
    | aborted e₁ hRejected hAbort =>
      have hU : u ≠ t := by
        rintro rfl
        exact Consistent.not_running_of_state (state_of_abort hAbort) (Or.inr rfl) hRunning
      refine Or.inl (hOther ?_)
      rw [txn_of_abort hAbort hU, hRejected.keeps.others u hU]
  | commit t e₁ hCommits hLast =>
    have hU : u ≠ t := by
      rintro rfl
      have hState : e'.state u = .committed := by
        rcases hLast with rfl | ⟨-, rfl⟩
        · exact hCommits.state
        · exact hCommits.state
      exact Consistent.not_running_of_state hState (Or.inl rfl) hRunning
    refine Or.inl (hOther ?_)
    rcases hLast with rfl | ⟨-, rfl⟩
    · exact hCommits.others u hU
    · exact hCommits.others u hU
  | abort t _ hAbort =>
    have hU : u ≠ t := by
      rintro rfl
      exact Consistent.not_running_of_state (state_of_abort hAbort) (Or.inr rfl) hRunning
    exact Or.inl (hOther (txn_of_abort hAbort hU))
  | collect hNew =>
    subst hNew
    exact Or.inl (hOther rfl)

/- A step of the transactions or a statement on the catalog. -/
inductive Stmt where
  | op (op : Op)
  | ddl (ddl : Ddl)

/- The transactions and the names of the tables. The rows that
  the tables were created or rebuilt with are kept beside. -/
structure Catalog where
  tr : Recorded
  isTable : TabName → Bool
  base : Loc → Option RmRecord

namespace Catalog

abbrev eng (c : Catalog) : Engine :=
  c.tr.eng

def init
    (db : Db)
    (tabCols : TabName → List ColMeta)
    (isTable : TabName → Bool) :
    Catalog :=
  ⟨Recorded.init db tabCols, isTable, db.record⟩

/- `get_table` of all tables of a transaction's writes. -/
def findsTables (c : Catalog) (t : TxnId) : Prop :=
  ∀ w ∈ (c.eng.txn t).writeSet, c.isTable w.loc.tab = true

instance (c : Catalog) (t : TxnId) : Decidable (c.findsTables t) := by
  unfold findsTables
  infer_instance

/- A step of the transactions. A statement needs its table,
  and an abort, also one inside of an insert, needs the tables
  of all writes. -/
def stepOp (c : Catalog) (op : Op) : Option Catalog :=
  if ∀ tab, op.table? = some tab → c.isTable tab = true then
    match c.tr.step op with
    | none => none
    | some tr =>
      if ∀ t, op.txn? = some t → tr.eng.state t = .aborted →
          c.findsTables t then
        some { c with tr := tr }
      else
        none
  else
    none

/- The table that a statement exchanges. -/
def exchanged (c : Catalog) (ddl : Ddl) : TabName → Bool :=
  fun tab => tab = ddl.tab ∧
    ddl.rebuilds (c.isTable ddl.tab) (c.eng.db ddl.tab)

/- The manager's state after a statement. -/
def changedEng (c : Catalog) (ddl : Ddl) : Engine :=
  let after := ddl.change (c.isTable ddl.tab)
    (c.eng.tabCols ddl.tab) (c.eng.db ddl.tab)
  { c.eng with
    db := Function.update c.eng.db ddl.tab after.2.2.2,
    tabCols := Function.update c.eng.tabCols ddl.tab after.2.2.1 }

/- A statement on the catalog, also one that fails. -/
def stepDdl (c : Catalog) (ddl : Ddl) : Option Catalog :=
  if ddl.validFor (c.eng.db ddl.tab) then
    let gone := c.exchanged ddl
    let e' := c.changedEng ddl
    some
      { tr := ⟨e', Engine.forget gone c.tr.hist⟩,
        isTable := Function.update c.isTable ddl.tab
          (ddl.change (c.isTable ddl.tab)
            (c.eng.tabCols ddl.tab) (c.eng.db ddl.tab)).2.1,
        base := Engine.rebase gone e' c.base }
  else
    none

def step (c : Catalog) :
    Stmt → Option Catalog
| .op op => c.stepOp op
| .ddl ddl => c.stepDdl ddl

def run (c : Catalog) (stmts : List Stmt) : Option Catalog :=
  StepSystem.run step c stmts

/- The steps of transactions are tame, and a table is
  exchanged only if no running transaction has a part in it. -/
def Allows (c : Catalog) :
    Stmt → Prop
| .op op => c.eng.Tame op
| .ddl ddl =>
  ddl.rebuilds (c.isTable ddl.tab) (c.eng.db ddl.tab) = true →
    c.eng.Unused ddl.tab

------------
-- The Invariant
------------

structure Sound (c : Catalog) : Prop where
  agrees : Agrees c.base c.eng c.tr.hist
  undo : c.eng.CanUndo
  numbered : c.eng.Numbered
  room : ∀ tab, 0 < (c.eng.db tab).numRecordsPerPage
  tables : ∀ t, c.eng.Running t → c.findsTables t

namespace Sound

variable {c c' : Catalog}

theorem init
    {db : Db}
    {tabCols : TabName → List ColMeta}
    {isTable : TabName → Bool}
    (hRoom : ∀ tab, 0 < (db tab).numRecordsPerPage)
    (hSlots : ∀ tab, (db tab).InSlots) :
    Sound (Catalog.init db tabCols isTable) := by
  have hIdle : ∀ t, ¬ (Engine.init db tabCols).Running t :=
    fun t => Engine.not_running_of_unused rfl
  refine ⟨Recorded.agrees_init db tabCols, ⟨hSlots, ?_, ?_⟩,
    Engine.numbered_init db tabCols, hRoom, ?_⟩
  · intro t hRunning
    exact absurd hRunning (hIdle t)
  · intro t hRunning
    exact absurd hRunning (hIdle t)
  · intro t hRunning
    exact absurd hRunning (hIdle t)

variable {ddl : Ddl}

variable (hSound : c.Sound)
include hSound

/- A statement exchanges an unused table or keeps all rows. -/
theorem retables (hAllows : c.Allows (.ddl ddl)) :
    Engine.Retables (c.exchanged ddl) c.eng (c.changedEng ddl) := by
  have hOther : ∀ tab, tab ≠ ddl.tab → (c.changedEng ddl).db tab = c.eng.db tab := by
    intro tab hTab
    exact update_of_ne hTab _ _
  have hKept : c.exchanged ddl ddl.tab = false → ∃ indexes, (c.changedEng ddl).db ddl.tab =
        { c.eng.db ddl.tab with indexes := indexes } := by
    intro hGone
    have hSame : ddl.rebuilds (c.isTable ddl.tab) (c.eng.db ddl.tab) = false := by
      simpa [exchanged] using hGone
    rcases ddl.change_kept (c.isTable ddl.tab) (c.eng.tabCols ddl.tab) (c.eng.db ddl.tab) hSame with
      ⟨indexes, hEq⟩
    refine ⟨indexes, ?_⟩
    rw [← hEq]
    exact update_self ddl.tab _ c.eng.db
  refine ⟨⟨_, _, rfl⟩, ?_, ?_, ?_, ?_⟩
  · intro tab hGone
    simp only [exchanged, decide_eq_true_eq] at hGone
    rw [hGone.1]
    exact hAllows hGone.2
  · intro x hGone
    unfold Db.record
    by_cases hTab : x.tab = ddl.tab
    · rw [hTab] at hGone ⊢
      rcases hKept hGone with ⟨indexes, hEq⟩
      rw [hEq]
      rfl
    · rw [hOther x.tab hTab]
  · intro tab hGone
    by_cases hTab : tab = ddl.tab
    · subst hTab
      rcases hKept hGone with ⟨indexes, hEq⟩
      rw [hEq]
      exact ⟨rfl, rfl⟩
    · rw [hOther tab hTab]
      exact ⟨rfl, rfl⟩
  · intro tab
    by_cases hTab : tab = ddl.tab
    · subst hTab
      have hSlots := (ddl.change_inSlots (c.isTable ddl.tab)
        (c.eng.tabCols ddl.tab) (hSound.room ddl.tab) (hSound.undo.slots ddl.tab)).2
      have hTable : (c.changedEng ddl).db ddl.tab = _ := update_self ddl.tab _ c.eng.db
      rw [hTable]
      exact hSlots
    · rw [hOther tab hTab]
      exact hSound.undo.slots tab

theorem room_ddl (ddl : Ddl)
    (tab : TabName) : 0 < ((c.changedEng ddl).db tab).numRecordsPerPage := by
  by_cases hTab : tab = ddl.tab
  · subst hTab
    have hTable : (c.changedEng ddl).db ddl.tab = _ := update_self ddl.tab _ c.eng.db
    rw [hTable]
    exact (ddl.change_inSlots (c.isTable ddl.tab) (c.eng.tabCols ddl.tab) (hSound.room ddl.tab)
      (hSound.undo.slots ddl.tab)).1
  · have hTable : (c.changedEng ddl).db tab = c.eng.db tab := update_of_ne hTab _ _
    rw [hTable]
    exact hSound.room tab

/- The tables of the writes to take back are not dropped. -/
theorem tables_ddl
    {w : WriteRecord}
    (hAllows : c.Allows (.ddl ddl))
    (hRunning : c.eng.Running t)
    (hW : w ∈ (c.eng.txn t).writeSet) :
    update c.isTable ddl.tab
        (ddl.change (c.isTable ddl.tab) (c.eng.tabCols ddl.tab)
        (c.eng.db ddl.tab)).2.1 w.loc.tab = true := by
  have hTable := hSound.tables t hRunning w hW
  by_cases hTab : w.loc.tab = ddl.tab
  · rw [hTab] at hTable
    rw [hTab, update_self]
    by_contra hDropped
    have hRebuilds := Ddl.rebuilds_of_dropped hTable (Bool.eq_false_iff.mpr hDropped)
    exact (hAllows hRebuilds).not_wrote hSound.numbered.ids hRunning hTab (List.mem_map_of_mem hW)
  · rw [update_of_ne hTab]
    exact hTable

theorem step_ddl
    (hAllows : c.Allows (.ddl ddl))
    (hStep : c.stepDdl ddl = some c') :
    c'.Sound := by
  unfold stepDdl at hStep
  split at hStep
  · have hNew := hSound.retables hAllows
    cases hStep
    refine ⟨hSound.agrees.retable hNew, hSound.undo.retable hSound.numbered.ids hNew,
      ⟨hSound.numbered.last, hSound.numbered.starts, hSound.numbered.ids⟩, hSound.room_ddl ddl, ?_⟩
    intro t hRunning w hW
    exact hSound.tables_ddl hAllows hRunning hW
  · cases hStep

theorem step_op
    (hTame : c.eng.Tame op)
    (hStep : c.stepOp op = some c') :
    c'.Sound := by
  unfold stepOp at hStep
  split at hStep
  · rename_i hTable
    cases hTr : c.tr.step op with
    | none => simp [hTr] at hStep
    | some tr =>
      simp only [hTr] at hStep
      split at hStep
      · cases hStep
        rcases Recorded.step_eq_some hTr with ⟨hEng, hHist⟩
        have hEffect := hSound.numbered.cases hEng
        rcases hSound.agrees.1 with ⟨floor, hInv⟩
        refine ⟨?_, hSound.undo.step hInv hSound.agrees.2 hSound.numbered.starts hTame hEng,
          hSound.numbered.step hEng, ?_, ?_⟩
        · have hAgrees := hSound.agrees.step hTame hEng
          rw [← hHist] at hAgrees
          exact hAgrees
        · intro tab
          have hRoom := hSound.room tab
          rw [← (hEffect.keepsPages tab).1] at hRoom
          exact hRoom
        · intro t hRunning w hW
          rcases hEffect.mem_writeSet hRunning hW with ⟨hBefore, hOld⟩ | hNew
          · exact hSound.tables t hBefore w hOld
          · exact hTable w.loc.tab hNew
      · cases hStep
  · cases hStep

/- One statement or step. -/
theorem step
    {stmt : Stmt}
    (hAllows : c.Allows stmt)
    (hStep : c.step stmt = some c') :
    c'.Sound := by
  cases stmt with
  | op op => exact hSound.step_op hAllows hStep
  | ddl ddl => exact hSound.step_ddl hAllows hStep

end Sound

end Catalog

------------
-- Abort Completes
------------

namespace Catalog

/- What the abort of a transaction is to achieve. -/
structure Aborts (t : TxnId) (c c' : Catalog) : Prop where
  state : c'.eng.state t = .aborted
  locks : ∀ x, c'.eng.locks x ≠ some t ∧ t ∉ c'.eng.sharedLocks x
  undone : ∀ x, c.eng.HasWrites t x → c'.eng.newest x =
        c.tr.hist.valueAt c.base c.eng.lastCommitTs x
  others : ∀ x, ¬ c.eng.HasWrites t x → c'.eng.db.record x = c.eng.db.record x ∧
        c'.eng.mvccVersions x = c.eng.mvccVersions x
  indexes : ∀ tab, c.eng.IndexesExact tab → c.eng.KeysReturn t tab → c'.eng.IndexesExact tab

theorem Sound.exists_abort
    {c : Catalog}
    (hSound : c.Sound)
    (hRunning : c.eng.Running t) :
    ∃ c', c.step (.op (.abort t)) = some c' ∧ Aborts t c c' := by
  rcases hSound.agrees.1 with ⟨floor, hInv⟩
  rcases hSound.undo.exists_abort hInv hRunning with ⟨e', hAbort⟩
  have hTr : c.tr.step (.abort t) = some ⟨e', c.tr.hist⟩ := by
    have hTxn : c.eng.abortTxn t = some e' := by
      unfold Engine.abortTxn
      rcases hRunning with hState | ⟨reason, hState⟩
      · rw [hState]
        exact hAbort
      · rw [hState]
        exact hAbort
    unfold Recorded.step
    have hStep : c.tr.eng.step (.abort t) = some e' := hTxn
    rw [hStep]
    rfl
  have hTables : ∀ u, Op.txn? (.abort t) = some u → e'.state u = .aborted → c.findsTables u := by
    intro u hU _
    cases hU
    exact hSound.tables t hRunning
  refine ⟨{ c with tr := ⟨e', c.tr.hist⟩ }, ?_, ?_⟩
  · have hFound : ∀ tab, Op.table? (.abort t) = some tab → c.isTable tab = true := by
      intro tab hTab
      cases hTab
    change c.stepOp (.abort t) = _
    unfold stepOp
    rw [if_pos hFound, hTr]
    exact if_pos hTables
  · have hEnd := hInv.finishes_of_abort hRunning hAbort
    refine ⟨Engine.state_of_abort hAbort, ?_, ?_, ?_, ?_⟩
    · intro x
      refine ⟨?_, fun hMem => (Engine.shared_of_abort hAbort hMem).1 rfl⟩
      intro hLock
      rw [hEnd.locks x] at hLock
      split at hLock
      · cases hLock
      · rename_i hNot
        exact hNot hLock
    · intro x hWrites
      exact hInv.abort_own hRunning hAbort hWrites
    · intro x hNot
      exact hInv.abort_other hRunning hAbort hNot
    · intro tab hExact hReturn
      exact hInv.abort_keys hRunning hAbort hExact hReturn

/- A table is created, indexed and dropped beside an insert. -/
def ddlBesideInsert : List Stmt :=
  [.op (.begin .readCommitted),
    .op (.insertRow 0 Sys.firstRow [7] []),
    .ddl (.createTable [117] [1]),
    .ddl (.createIndex [117] Engine.oneLetter [⟨0, 1⟩] []),
    .ddl (.dropTable [117])]

def oneTable : Catalog :=
  init Sys.twoSlotTables (fun _ => []) (fun tab => tab = [116])

/- One table with an index. -/
def indexedTable : Catalog :=
  init Sys.indexedTables (fun _ => []) (fun tab => tab = [116])

def oneInsert : List Op :=
  [.begin .readCommitted, .insertRow 0 Sys.firstRow [7] []]

/- The key of the row that was inserted is its own. -/
theorem keysReturn_oneInsert
    {e : Engine}
    (hRun : StepSystem.run Engine.step
      (Engine.init Sys.indexedTables (fun _ => [])) oneInsert = some e) :
    e.IndexesExact [116] ∧ e.KeysReturn 0 [116] := by
  have hNow : Guarded Engine.step (fun e op => e.safeNow op = true)
      (Engine.init Sys.indexedTables (fun _ => [])) oneInsert := by decide
  have hSafe := Guarded.mono_of_invariant Engine.Numbered
    (fun _ _ _ hNumbered => hNumbered.step)
    (fun _ _ => Engine.changesSafely_of_safeNow)
    (Engine.numbered_init _ _) hNow
  have hOk := Engine.rcOk_run Recorded.indexedTables_exact.1
    Recorded.indexedTables_exact.2 (by decide) hSafe hRun
  refine hOk.keysReturn ?_ [116]
  have hRunning : (StepSystem.run Engine.step
      (Engine.init Sys.indexedTables (fun _ => [])) oneInsert).all
        (fun e => e.Running 0) = true := by decide
  rw [hRun] at hRunning
  simpa using hRunning

end Catalog

end Rmdb
