import Rmdb.Mvcc.Rollback
import Rmdb.Mvcc.UniqueKeys

/-
  This file shows that the abort of an MVCC transaction takes
  back all that the transaction has done, if nobody else has
  written its tables meanwhile and if it has not given a key
  away that one of its rows, written once more later, had at
  the start.

  Key definitions include:
    * `Engine.AtRest`
    * `Engine.Alone`
    * `Engine.RewritesSafely`

  Key theorems include:
    * `Engine.abort_restores`
-/

namespace Rmdb

open StepSystem

namespace Engine

------------
-- A Transaction Alone On Its Tables
------------

/- Nobody is writing the table: its indexes are exact and its
  versions are committed. -/
structure AtRest (e : Engine) (tab : TabName) : Prop where
  slots : (e.db tab).InSlots
  exact : ∀ i, KeyMap.Exact ((e.db tab).entry i) (e.nowKey tab i)
  committed : ∀ rid entry, e.mvccVersions ⟨tab, rid⟩ = some entry → entry.writerTxn = none

/- The transaction writes to its own tables, and the steps of
  the others leave these alone. -/
structure Alone
    (own : TabName → Prop)
    (t : TxnId)
    (e : Engine)
    (op : Op) :
    Prop where
  mine : ∀ old d, op.change? old = some (t, d) → CanChange t d e → own d.tab
  others : op.txn? ≠ some t → ∀ e', e.step op = some e' → ∀ tab, own tab → SameTable tab e e'

/- A row is written again only while no other record of its
  table has a key that the row had at the start. -/
def RewritesSafely
    (start : Engine)
    (t : TxnId)
    (e : Engine)
    (op : Op) :
    Prop :=
  ∀ old d, op.change? old = some (t, d) → CanChange t d e →
    AgainSafe start t d e

/- The invariant between the begin and the end of the
  transaction. -/
structure Solo
    (own : TabName → Prop)
    (start : Engine)
    (t : TxnId)
    (e : Engine) :
    Prop where
  level : e.isMvccTxn t = true
  writes : ∀ x ∈ (e.txn t).writeSet.map WriteRecord.loc, own x.tab
  tables : ∀ tab, own tab → Takeable start t tab e

section Solo

variable {own : TabName → Prop}
variable {start e e' : Engine} {t : TxnId} {x : Loc} {op : Op}
variable {d : DataRecord}

/- The transaction is not in the step. -/
theorem Solo.other
    (hSolo : Solo own start t e)
    (hTxn : e'.txn t = e.txn t)
    (hSame : ∀ tab, own tab → SameTable tab e e') :
    Solo own start t e' := by
  constructor
  · unfold isMvccTxn
    rw [hTxn]
    exact hSolo.level
  · rw [hTxn]
    exact hSolo.writes
  · intro tab hOwn
    refine (hSolo.tables tab hOwn).congr (hSame tab hOwn) ?_ ?_
    · unfold rowsOf
      rw [hTxn]
    · intro rid
      rw [hTxn]

theorem Solo.quiet (hSolo : Solo own start t e)
    (hQuiet : Quiet t x e e') : Solo own start t e' := by
  constructor
  · rw [hQuiet.keeps.mvcc]
    exact hSolo.level
  · rw [hQuiet.writeSet]
    exact hSolo.writes
  · intro tab hOwn
    refine (hSolo.tables tab hOwn).congr (hQuiet.sameTable tab) ?_ ?_
    · unfold rowsOf
      rw [hQuiet.writeSet]
    · intro rid
      rw [hQuiet.keys]

theorem Solo.done
    (hSolo : Solo own start t e)
    (hSound : start.EntriesSound)
    (hRest : ∀ tab, own tab → start.AtRest tab)
    (hOwn : own d.tab)
    (hCan : CanChange t d e)
    (hAgain : AgainSafe start t d e)
    (hDone : Done t d e e') :
    Solo own start t e' := by
  have hVersioned : e.shouldVersionWrites t = true := by simp [shouldVersionWrites, hSolo.level]
  have hActs := Consistent.done_acts hCan hDone
  have hFree := (hRest d.tab hOwn).committed
  have hTake := hSolo.tables d.tab hOwn
  constructor
  · rw [hDone.keeps.mvcc]
    exact hSolo.level
  · intro y hY
    rw [hDone.writeSet, List.map_cons, List.mem_cons] at hY
    rcases hY with rfl | hY
    · rw [DataRecord.loc_writeRecord]
      exact hOwn
    · exact hSolo.writes y hY
  · intro tab hTab
    by_cases hSame : tab = d.tab
    · subst hSame
      refine hTake.done ?_ hCan ?_ hVersioned hAgain hDone
      · intro entry hEntry
        exact (hSound d.loc entry hEntry).clean (hFree d.rid entry hEntry)
      · exact hTake.seen hSound hFree (fun _ _ => Or.inl hSolo.level) hCan
    · refine (hSolo.tables tab hTab).congr (hActs.sameTable hDone.edits hSame) ?_ ?_
      · unfold rowsOf
        rw [hDone.writeSet, List.filter_cons_of_neg]
        rw [DataRecord.loc_writeRecord]
        simp only [decide_eq_true_eq]
        exact Ne.symm hSame
      · intro rid
        rw [hDone.entry.keys]
        split
        · rw [List.mem_cons, or_iff_right]
          exact fun hEq => hSame (congrArg Loc.tab hEq)
        · exact Iff.rfl

/- One step of anybody. -/
theorem Solo.step
    (hNumbered : e.Numbered)
    (hBegun : t ≠ e.nextTxnId)
    (hSound : start.EntriesSound)
    (hRest : ∀ tab, own tab → start.AtRest tab)
    (hSolo : e.state t = .growing → Solo own start t e)
    (hAlone : e.Alone own t op)
    (hSafe : RewritesSafely start t e op)
    (hStep : e.step op = some e')
    (hGrowing : e'.state t = .growing) :
    Solo own start t e' := by
  have hEffect := hNumbered.cases hStep
  by_cases hOp : op.txn? = some t
  · cases hEffect with
    | begin level _ => cases hOp
    | quiet _ u x hActor hQuiet =>
      rw [Op.txn?_of_actor hActor] at hOp
      cases hOp
      exact (hSolo hQuiet.growing).quiet hQuiet
    | change _ u d old hChange hCan hOutcome =>
      rw [Op.txn?_of_change hChange] at hOp
      cases hOp
      cases hOutcome with
      | done hDone =>
        exact (hSolo hCan.growing).done hSound hRest (hAlone.mine old d hChange hCan) hCan
          (hSafe old d hChange hCan) hDone
      | rejected hRejected _ =>
        rcases hRejected.state with ⟨reason, hFailed⟩
        cases hGrowing.symm.trans hFailed
      | aborted e₁ _ hAbort =>
        cases hGrowing.symm.trans (state_of_abort hAbort)
    | commit u e₁ hCommits hLast =>
      cases hOp
      have hState : e'.state t = .committed := by
        rcases hLast with rfl | ⟨-, rfl⟩
        · exact hCommits.state
        · exact hCommits.state
      cases hGrowing.symm.trans hState
    | abort u _ hAbort =>
      cases hOp
      cases hGrowing.symm.trans (state_of_abort hAbort)
    | collect _ => cases hOp
  · have hTxn := hEffect.txn_of_ne hOp (Or.inr hBegun)
    refine (hSolo ?_).other hTxn (hAlone.others hOp e' hStep)
    unfold Engine.state at hGrowing ⊢
    rw [← hTxn]
    exact hGrowing

/- At the begin there is nothing to take back. -/
theorem solo_begin
    {level : IsolationLevel}
    (hLevel : level.mvcc = true)
    (hRest : ∀ tab, own tab → start.AtRest tab) :
    Solo own start start.nextTxnId (start.begin level) := by
  have hTxn : (start.begin level).txn start.nextTxnId =
      { MvccTxn.unused with
        isolationLevel := level,
        state := .growing,
        startTs := start.lastCommitTs } := by
    simp [Engine.begin, hLevel, Engine.setTxn]
  have hSame : (start.begin level).db = start.db ∧ (start.begin level).mvccVersions =
        start.mvccVersions := by
    simp [Engine.begin, hLevel, Engine.setTxn]
  constructor
  · unfold isMvccTxn
    rw [hTxn]
    exact hLevel
  · rw [hTxn]
    intro x hX
    cases hX
  · intro tab hOwn
    have hRows : (start.begin level).rowsOf start.nextTxnId tab = [] := by
      unfold rowsOf
      rw [hTxn]
      rfl
    have hTab : SameTable tab start (start.begin level) :=
      .of_db (by rw [hSame.1]) (fun _ => by rw [hSame.2])
    refine ⟨?_, hTab.slots, hTab.cols, ?_, ?_, ?_, ?_⟩
    · rw [hSame.1]
      exact (hRest tab hOwn).slots
    · intro rid
      rw [hRows, hTxn]
      simp [MvccTxn.unused]
    · intro rid _
      exact ⟨hTab.record rid, hTab.versions rid⟩
    · intro rid hMem
      rw [hRows] at hMem
      cases hMem
    · intro i
      rw [hRows]
      refine .nil ?_
      rw [hTab.entry, (nowKey_congr hTab i).1]
      exact (hRest tab hOwn).exact i

/- The invariant holds as long as the transaction can write. -/
theorem solo_run
    {level : IsolationLevel}
    {ops : List Op}
    (hNumbered : start.Numbered)
    (hSound : start.EntriesSound)
    (hLevel : level.mvcc = true)
    (hRest : ∀ tab, own tab → start.AtRest tab)
    (hAlone : Guarded Engine.step (fun e op => e.Alone own start.nextTxnId op)
        (start.begin level) ops)
    (hSafe : Guarded Engine.step (RewritesSafely start start.nextTxnId)
        (start.begin level) ops)
    (hRun : run Engine.step (start.begin level) ops = some e)
    (hGrowing : e.state start.nextTxnId = .growing) :
    Solo own start start.nextTxnId e := by
  have hBegin : start.step (.begin level) = some (start.begin level) := rfl
  have hNext : (start.begin level).nextTxnId = start.nextTxnId + 1 := by
    simp [Engine.begin, hLevel, Engine.setTxn]
  have hInv := invariant_of_guarded_run
    (fun e => e.Numbered ∧ start.nextTxnId < e.nextTxnId ∧ (e.state start.nextTxnId = .growing →
        Solo own start start.nextTxnId e)) (fun e op e' hInv hGuard hStep => by
      rcases hInv with ⟨hNum, hLt, hSolo⟩
      have hNe : (start.nextTxnId : TxnId) ≠ e.nextTxnId := fun hEq => absurd hLt
          (not_lt.mpr (le_of_eq (Int.ofNat_inj.mp hEq).symm))
      exact ⟨hNum.step hStep, lt_of_lt_of_le hLt (hNum.cases hStep).nextTxnId_le,
        Solo.step hNum hNe hSound hRest hSolo hGuard.1 hGuard.2 hStep⟩)
    ⟨hNumbered.step hBegin, by rw [hNext]; exact Nat.lt_succ_self _,
      fun _ => solo_begin hLevel hRest⟩ (hAlone.and hSafe) hRun
  exact hInv.2.2 hGrowing

/- The abort succeeds and gives the tables back. -/
theorem Solo.abort
    (hSolo : Solo own start t e)
    (hRest : ∀ tab, own tab → start.AtRest tab)
    (hGrowing : e.state t = .growing) :
    ∃ e', e.step (.abort t) = some e' ∧
      (∀ tab, own tab → SameTable tab start e') ∧
      ∀ tab, ¬ own tab → SameTable tab e e' := by
  have hVersions := hasVersions_of_mvcc hSolo.level
  obtain ⟨e₁, hBack⟩ : ∃ e₁, abortWrites t (e.txn t).writeSet [] e = some e₁ := by
    refine exists_abortWrites ?_
    intro x hX _ _
    have hTake := hSolo.tables x.tab (hSolo.writes x hX)
    have hRecord := (hTake.own x.rid (mem_rowsOf.mpr hX)).1
    exact ⟨hRecord, hTake.slots x.rid hRecord⟩
  have hRun : ∃ e', e.abort t = some e' := by
    unfold Engine.abort
    simp only [hVersions, if_true, hBack, bind, Option.bind]
    exact ⟨_, rfl⟩
  rcases hRun with ⟨e', hAbort⟩
  have hStep : e.step (.abort t) = some e' := by
    change e.abortTxn t = some e'
    unfold abortTxn
    rw [hGrowing]
    exact hAbort
  rcases abort_cases hAbort with ⟨-, e₂, hBack', hEnds⟩ | ⟨hPlain, -⟩
  · refine ⟨e', hStep, ?_, ?_⟩
    · intro tab hOwn
      exact (hSolo.tables tab hOwn).abort (hRest tab hOwn).exact hBack' hEnds
    · intro tab hNot
      have hNone : ∀ x ∈ (e.txn t).writeSet.map WriteRecord.loc, x.tab ≠ tab := by
        rintro x hX rfl
        exact hNot (hSolo.writes x hX)
      refine .of_db ?_ ?_
      · rw [hEnds.db]
        exact db_of_abortWrites hBack' hNone
      · intro rid
        rw [hEnds.versions]
        exact ((abortWrites_spec hBack').2 ⟨tab, rid⟩).2
          (fun hLoc => absurd rfl (hNone _ hLoc)) |>.2
  · rw [hVersions] at hPlain
    cases hPlain

end Solo

------------
-- Every Run
------------

section Restores

variable {db : Db} {tabCols : TabName → List ColMeta}
variable {earlier ops : List Op} {start e : Engine}
variable {level : IsolationLevel} {own : TabName → Prop}

/- An MVCC transaction begins in any state in which nobody is
  writing its tables, and nobody else writes them later. As
  long as it can go on its abort succeeds and brings back the
  records, the indexes and the version entries of its tables;
  the other tables are left alone. -/
theorem abort_restores
    (hReach : StepSystem.run Engine.step (init db tabCols) earlier = some start)
    (hLevel : level.mvcc = true)
    (hRest : ∀ tab, own tab → start.AtRest tab)
    (hAlone : StepSystem.Guarded Engine.step
      (fun e op => e.Alone own start.nextTxnId op) (start.begin level) ops)
    (hSafe : StepSystem.Guarded Engine.step
      (RewritesSafely start start.nextTxnId) (start.begin level) ops)
    (hRun : StepSystem.run Engine.step (start.begin level) ops = some e)
    (hGrowing : e.state start.nextTxnId = .growing) :
    ∃ e', e.step (.abort start.nextTxnId) = some e' ∧
      (∀ tab, own tab → SameTable tab start e') ∧
      ∀ tab, ¬ own tab → SameTable tab e e' := by
  have hNumbered := (numbered_init db tabCols).run hReach
  have hSound : start.EntriesSound := EntriesSound.run (numbered_init db tabCols)
      (fun x entry hEntry => by cases hEntry) hReach
  exact (solo_run hNumbered hSound hLevel hRest hAlone hSafe hRun hGrowing).abort hRest hGrowing

/- Without running transactions the tables are at rest. -/
theorem atRest_of_agreesKeys
    {base : Loc → Option RmRecord}
    {layout : TabName → Nat → Option (List ColMeta)}
    {h : Hist}
    (hInv : AgreesKeys base layout e h)
    (hIdle : ∀ t, ¬ e.Running t)
    (tab : TabName) :
    e.AtRest tab := by
  have hKeys := hInv.indexes.keys tab
  refine ⟨hKeys.slots, hKeys.exact, ?_⟩
  intro rid entry hEntry
  cases hWriter : entry.writerTxn with
  | none => rfl
  | some t =>
    rcases hInv.mvcc.agrees with ⟨⟨floor, hConsistent⟩, -⟩
    have hOwner := (hConsistent.rows ⟨tab, rid⟩).owner t ⟨entry, hEntry, hWriter⟩
    exact absurd hOwner.1 (hIdle t)

/- A transaction that writes every row once rewrites nothing. -/
theorem WritesOnce.rewritesSafely
    {op : Op}
    {t : TxnId}
    (hOnce : e.WritesOnce op) :
    RewritesSafely start t e op := by
  intro old d hOp hCan hMem
  exact absurd (mem_rowsOf.mp hMem) (hOnce old t d hOp hCan)

/- The steps of the transaction itself. -/
theorem alone_of_txn
    {op : Op}
    {t : TxnId}
    (hOp : op.txn? = some t) :
    e.Alone (fun _ => True) t op :=
  ⟨fun _ _ _ _ => trivial, fun hNot => absurd hOp hNot⟩

/- Two committed rows with the keys 1 and 3. -/
def twoKeys : List Op :=
  [.begin .snapshotIsolation,
    .insertRow 0 Sys.firstRow [1] [],
    .insertRow 0 Sys.secondRow [3] [], .commit 0]

def twoKeysStart : Engine :=
  (StepSystem.run Engine.step
    (init Sys.indexedTables (fun _ => [])) twoKeys).getD
      (init Sys.indexedTables (fun _ => []))

theorem run_twoKeys :
    run Engine.step (init Sys.indexedTables (fun _ => [])) twoKeys =
      some twoKeysStart := eq_some_getD (by decide) _

theorem atRest_twoKeysStart (tab : TabName) : twoKeysStart.AtRest tab := by
  rcases exists_of_any (o := (Recorded.init Sys.indexedTables (fun _ => [])).run twoKeys)
    (p := fun tr => tr.eng.nextTxnId = 1 ∧ tr.eng.state 0 = .committed)
    (by decide) with ⟨tr, hRun, hNext, hCommitted⟩
  have hEng : twoKeysStart = tr.eng := Option.some.inj (run_twoKeys.symm.trans
      (Recorded.run_eng hRun))
  have hOnce : Guarded Recorded.step (fun tr op => tr.eng.WritesOnce op)
      (Recorded.init Sys.indexedTables (fun _ => [])) twoKeys := Guarded.mono
      (fun tr op => writesOnce_of_first) (by decide)
  have hInv := Recorded.agreesKeys_run (Recorded.agreesKeys_init Recorded.indexedTables_exact.1
      Recorded.indexedTables_exact.2) (by decide) hOnce hRun
  have hNumbered := (numbered_init Sys.indexedTables (fun _ => [])).run run_twoKeys
  rw [hEng] at hNumbered ⊢
  refine atRest_of_agreesKeys hInv ?_ tab
  -- the only transaction has committed
  intro t hRunning
  by_cases hOut : t < 0 ∨ (tr.eng.nextTxnId : TxnId) ≤ t
  · exact not_running_of_unused (hNumbered.ids t hOut) hRunning
  · have hZero : ∀ i : Int, ¬ (i < 0 ∨ ((1 : Nat) : Int) ≤ i) → i = 0 := by
      intro i hI
      omega
    rw [hNext] at hOut
    obtain rfl := hZero t hOut
    rcases hRunning with hState | ⟨reason, hState⟩
    · cases hCommitted.symm.trans hState
    · cases hCommitted.symm.trans hState

/- The key of the first row goes to the second one. -/
def keyMoves : List Op :=
  [.updateRow 1 Sys.firstRow [2] [],
    .updateRow 1 Sys.secondRow [1] []]

theorem abort_restores_keyMoves :
    ∃ e e', StepSystem.run Engine.step
        (twoKeysStart.begin .snapshotIsolation) keyMoves = some e ∧
      (e.db Sys.firstRow.tab).entry 0 [1] = some Sys.secondRow.rid ∧
      e.step (.abort 1) = some e' ∧
      ∀ tab, SameTable tab twoKeysStart e' := by
  have hRun : run Engine.step (twoKeysStart.begin .snapshotIsolation) keyMoves = some _ :=
    (Option.some_get (by decide)).symm
  have hOwn : Guarded Engine.step (fun e op => e.Alone (fun _ => True) 1 op)
      (twoKeysStart.begin .snapshotIsolation) keyMoves :=
    Guarded.mono (fun e op => alone_of_txn) (guarded_of_forall
        (p := fun op : Op => op.txn? = some 1) _ (by decide))
  have hSafe : Guarded Engine.step (RewritesSafely twoKeysStart 1)
      (twoKeysStart.begin .snapshotIsolation) keyMoves :=
    Guarded.mono (fun e op hFirst =>
      (writesOnce_of_first hFirst).rewritesSafely) (by decide)
  rcases abort_restores run_twoKeys rfl (fun tab _ => atRest_twoKeysStart tab) hOwn hSafe hRun
    (by decide) with ⟨e', hAbort, hSame, -⟩
  exact ⟨_, e', hRun, by decide, hAbort, fun tab => hSame tab trivial⟩

/- The first row is written once more. -/
def rewrites : List Op :=
  keyMoves ++ [.updateRow 1 Sys.firstRow [4] [], .abort 1]

/- The abort takes the first row back while the second one
  still has its old key, so that the key is not added; the
  second row then takes it along. -/
theorem abort_loses_key :
    (∀ tab, twoKeysStart.AtRest tab) ∧
      (twoKeysStart.db Sys.firstRow.tab).entry 0 [1] = some Sys.firstRow.rid ∧
      ∃ e', StepSystem.run Engine.step
          (twoKeysStart.begin .snapshotIsolation) rewrites = some e' ∧
        e'.state 1 = .aborted ∧ e'.db.record Sys.firstRow = some [1] ∧
        e'.db.record Sys.secondRow = some [3] ∧
        (e'.db Sys.firstRow.tab).entry 0 [1] = none := by
  refine ⟨atRest_twoKeysStart, by decide, ?_⟩
  exact exists_of_any (by decide)

end Restores

end Engine

end Rmdb
