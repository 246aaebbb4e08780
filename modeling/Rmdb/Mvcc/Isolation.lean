import Rmdb.Mvcc.Books
import Rmdb.Mvcc.Snapshot
import Rmdb.Transaction.Crash

/-
  This file is about runs that mix the isolation levels.  If
  every step is tame, nobody reads what another transaction
  has written and not committed, and nobody writes to a row
  with an uncommitted write of another transaction.

  The manager does not ensure that its steps are tame.  A READ
  COMMITTED transaction writes without versions while no MVCC
  transaction runs, and one that begins later reads its writes;
  and it does not look at the writer of a version.

  Key theorems include:
    * `Recorded.nothing_dirty`
    * `Recorded.dirty_read_and_write`
    * `Recorded.watermark_of_run`
    * `Recorded.repeatable_read`
-/

namespace Rmdb

open VersionHistory StepSystem Sys

section Writers

variable {base : Loc → Option RmRecord}
variable {e e' : Engine} {h : Hist} {op : Op} {t : TxnId}
variable {w : Write TxnId Loc (Option RmRecord)}

/- The write that a step adds is one of its own change. -/
theorem change_of_write
    (hEffect : Engine.Effect e e' op)
    (hWrite : h.after e e' op = h.write w) :
    ∃ d old, op.change? old = some (w.txn, d) ∧ d.loc = w.loc ∧
      Engine.CanChange w.txn d e := by
  have hNever : h ≠ h.write w := by
    intro hSame
    have hLength := congrArg (fun k => k.writes.length) hSame
    simp [History.write] at hLength
  cases hEffect with
  | begin level hNew | abort t hRunning hAbort | collect hNew => exact absurd hWrite hNever
  | quiet _ t x hOp hQuiet =>
    rw [Hist.after_quiet h hOp hQuiet.not_wrote] at hWrite
    exact absurd hWrite hNever
  | change _ t d old hOp hCan hOutcome =>
    rw [Hist.after_change h hOp] at hWrite
    split at hWrite
    · have hHead := congrArg (fun k => k.writes.head?) hWrite
      simp only [History.write, List.head?_cons, Option.some.injEq] at hHead
      subst hHead
      exact ⟨d, old, hOp, rfl, hCan⟩
    · exact absurd hWrite hNever
  | commit t e₁ hCommits hLast =>
    have hLength := congrArg (fun k => k.writes.length) hWrite
    simp [Hist.after, History.write, History.stamp] at hLength

/- A tame write meets no other running writer. -/
theorem Agrees.no_other_writer
    (hAgrees : Agrees base e h)
    (hTame : e.Tame op)
    (hStep : e.step op = some e')
    (hWrite : h.after e e' op = h.write w) :
    ∀ w' ∈ h.writes, w'.loc = w.loc → w'.txn ≠ w.txn → ¬ e.Running w'.txn := by
  intro w' hW' hLoc hTxn hRunning
  have hEffect := Engine.step_cases (fun t hR hM => hAgrees.start_nonneg hR hM) hStep
  rcases change_of_write hEffect hWrite with ⟨d, old, hOp, hD, hCan⟩
  rcases hAgrees with ⟨⟨floor, hInv⟩, hRoster⟩
  have hMay := hInv.writable hRoster hTame hOp hCan
  rcases hInv.hist.owns w' hW' hRunning with hOwns | hPlain
  · rw [hLoc, ← hD] at hOwns
    exact hTxn (hMay.owner_eq hOwns)
  · rw [hLoc, ← hD] at hPlain
    exact hTxn (hMay.plainOwner_eq hPlain)

/- Whoever runs after a step and had begun before it ran
  before it. -/
theorem Engine.Ages.running
    (hAges : e.Ages e')
    (hBegan : e.state t ≠ .default)
    (hRunning : e'.Running t) :
    e.Running t := by
  cases hState : e.state t with
  | default => exact absurd hState hBegan
  | growing => exact Or.inl hState
  | failed reason => exact Or.inr ⟨reason, hState⟩
  | committed =>
    exact absurd ((Engine.running_congr (hAges.committed t hState)).mp hRunning)
      (Consistent.not_running_of_state hState (Or.inl rfl))
  | aborted =>
    exact absurd hRunning (Consistent.not_running_of_state (hAges.aborted t hState) (Or.inr rfl))

/- A step keeps the snapshots of the running readers. A commit
  without versions has written nothing, or no such reader
  runs. -/
theorem Agrees.snapshot_step
    (hAgrees : Agrees base e h)
    (hStep : e.step op = some e')
    (x : Loc) :
    e.Ages e' ∧ (e.Running t → e.isMvccTxn t = true →
      (h.after e e' op).valueAt base (e.startTs t) x =
        h.valueAt base (e.startTs t) x ∧
        ((h.after e e' op).own t x = none → h.own t x = none)) := by
  have hEffect := Engine.step_cases (fun t hR hM => hAgrees.start_nonneg hR hM) hStep
  rcases hAgrees with ⟨⟨floor, hInv⟩, -⟩
  refine ⟨hEffect.ages (hInv.ids e.nextTxnId (Or.inr (le_refl _))), ?_⟩
  intro hRunning hMvcc
  cases hEffect with
  | begin level hNew | abort u hOther hAbort | collect hNew => exact ⟨rfl, id⟩
  | quiet _ u y hOp hQuiet =>
    rw [Hist.after_quiet h hOp hQuiet.not_wrote]
    exact ⟨rfl, id⟩
  | change _ u d old hOp hCan hOutcome =>
    rw [Hist.after_change h hOp]
    split
    · have hOpen := hInv.hist.open_of_running (Or.inl hCan.growing)
      exact ⟨History.valueAt_write hOpen base _ x, own_of_own_write⟩
    · exact ⟨rfl, id⟩
  | commit u e₁ hCommits hLast =>
    have hOther : e.Running u := Or.inl hCommits.growing
    refine ⟨?_, id⟩
    cases hVersions : e.hasVersions u with
    | true =>
      have hTs := hCommits.lastCommitTs
      rw [hVersions, if_pos rfl] at hTs
      have hStart := (hInv.starts t hRunning hMvcc).2
      have hLater : e.startTs t < e₁.lastCommitTs := by omega
      refine History.valueAt_stamp_of_lt (hInv.hist.open_of_running hOther) ?_ base x
      rcases hLast with rfl | ⟨-, rfl⟩ <;> exact hLater
    | false =>
      refine History.valueAt_stamp_of_own_none ?_ base _ _
      refine hInv.own_eq_none hOther (hInv.not_owns_of_plain hVersions x) ?_
      intro hPlain
      simp [hInv.alone u t hPlain.plain hRunning] at hMvcc

end Writers

namespace Recorded

variable {db : Db} {tabCols : TabName → List ColMeta}
variable {ops : List Op} {tr : Recorded}

/- In a run of tame steps a transaction that may read a row, a
  READ COMMITTED one under its lock, gets its own last write
  or the value that was committed at its read timestamp. A
  write meets no write of another running transaction. -/
theorem nothing_dirty
    (hTame : StepSystem.Guarded step (fun tr op => tr.eng.Tame op)
      (init db tabCols) ops)
    (hRun : (init db tabCols).run ops = some tr) :
    (∀ t x, tr.eng.state t = .growing →
      (tr.eng.isMvccTxn t = false → (tr.eng.lockShared t x).isSome) →
      tr.eng.getVisibleRecord t x =
        Consistent.expected db.record tr.eng tr.hist t x) ∧
    ∀ op tr' w, tr.eng.Tame op → tr.step op = some tr' →
      tr'.hist = tr.hist.write w →
      ∀ w' ∈ tr.hist.writes, w'.loc = w.loc → w'.txn ≠ w.txn →
        ¬ tr.eng.Running w'.txn := by
  have hAgrees := agrees_run (agrees_init db tabCols) hTame hRun
  constructor
  · intro t x hGrowing hLock
    rcases hAgrees with ⟨⟨floor, hInv⟩, -⟩
    refine hInv.visible hGrowing ?_
    intro hRc
    have hFree := hLock hRc
    unfold Engine.lockShared at hFree
    split at hFree
    · assumption
    · cases hFree
  · intro op tr' w hNext hStep hHist
    rcases step_eq_some hStep with ⟨hEng, hAfter⟩
    exact hAgrees.no_other_writer hNext hEng (hAfter.symm.trans hHist)

/- A READ COMMITTED insert commits; a READ COMMITTED update
  and a reader with a snapshot overlap. -/
def updateBesideReader : List Op :=
  [.begin .readCommitted, .insertRow 0 Sys.firstRow [1] [],
    .commit 0, .begin .snapshotIsolation, .begin .readCommitted,
    .updateRow 2 Sys.firstRow [2] [], .begin .serializable]

theorem nothing_dirty_updateBesideReader :
    ∃ tr, (init Sys.twoSlotTables (fun _ => [])).run updateBesideReader =
        some tr ∧
      tr.eng.state 2 = .growing ∧
      tr.hist.own 2 Sys.firstRow = some ⟨2, Sys.firstRow, some [2]⟩ ∧
      tr.eng.getVisibleRecord 1 Sys.firstRow = some [1] ∧
      tr.eng.getVisibleRecord 1 Sys.firstRow =
        Consistent.expected Sys.twoSlotTables.record tr.eng tr.hist 1
          Sys.firstRow := by
  have hRun : (init twoSlotTables (fun _ => [])).run updateBesideReader = some _ :=
    (Option.some_get (by decide)).symm
  refine ⟨_, hRun, by decide, by decide, by decide, ?_⟩
  exact (nothing_dirty (by decide) hRun).1 1 firstRow (by decide) (by decide)

/- An update without versions, then a reader with a snapshot. -/
def readerAfterUpdate : List Op :=
  [.begin .readCommitted, .insertRow 0 Sys.firstRow [1] [],
    .commit 0, .begin .readCommitted,
    .updateRow 1 Sys.firstRow [2] [], .begin .snapshotIsolation]

/- A READ COMMITTED update of an uncommitted version. -/
def updateOfUpdate : List Op :=
  [.begin .readCommitted, .insertRow 0 Sys.firstRow [1] [],
    .commit 0, .begin .snapshotIsolation,
    .updateRow 1 Sys.firstRow [2] [], .begin .readCommitted]

/- The snapshot reads the uncommitted update of the first run.
  In the second one the uncommitted update is overwritten. -/
theorem dirty_read_and_write :
    (∃ tr, (init Sys.twoSlotTables (fun _ => [])).run readerAfterUpdate =
        some tr ∧
      tr.eng.state 1 = .growing ∧ tr.eng.state 2 = .growing ∧
      tr.eng.isMvccTxn 2 = true ∧
      tr.hist.own 1 Sys.firstRow = some ⟨1, Sys.firstRow, some [2]⟩ ∧
      tr.eng.getVisibleRecord 2 Sys.firstRow = some [2] ∧
      Consistent.expected Sys.twoSlotTables.record tr.eng tr.hist 2
        Sys.firstRow = some [1]) ∧
    ∃ tr tr', (init Sys.twoSlotTables (fun _ => [])).run updateOfUpdate =
        some tr ∧
      tr.step (.updateRow 2 Sys.firstRow [3] []) = some tr' ∧
      tr'.hist = tr.hist.write ⟨2, Sys.firstRow, some [3]⟩ ∧
      ⟨1, Sys.firstRow, some [2]⟩ ∈ tr.hist.writes ∧
      tr.eng.state 1 = .growing := by
  constructor
  · exact exists_of_any (by decide)
  · exact ⟨_, _, (Option.some_get (by decide)).symm, (Option.some_get (by decide)).symm, rfl,
      by decide, by decide⟩

/- In every run the watermark is the least start timestamp of
  the running readers, or the last commit's if there is none. -/
theorem watermark_of_run
    (hRun : (init db tabCols).run ops = some tr) :
    ∃ l : List TxnId, l.Nodup ∧
      (∀ t, t ∈ l ↔ tr.eng.Running t ∧ tr.eng.isMvccTxn t = true) ∧
      tr.eng.activeMvccTxnCount = l.length ∧
      tr.eng.runningTxns.watermark =
        (l.map tr.eng.startTs).min?.getD tr.eng.lastCommitTs := by
  have hBooks := invariant_of_run Engine.Books
    (fun _ _ _ hInv hStep => hInv.step hStep) (Engine.Books.init db tabCols) (run_eng hRun)
  rcases hBooks.roster with ⟨l, hL⟩
  refine ⟨l, hL.nodup, hL.mem, hL.count, ?_⟩
  rw [hL.ok, hL.commit]
  congr 1
  ext m
  simp [List.min?_eq_some_iff, hL.reads.mem_iff]

/- The readers 1 and 3 have begun after the first commit. -/
theorem watermark_of_run_updateBesideReader :
    ∃ tr, (init Sys.twoSlotTables (fun _ => [])).run updateBesideReader =
        some tr ∧
      tr.eng.runningTxns.watermark = tr.eng.startTs 1 ∧
      tr.eng.startTs 3 = tr.eng.startTs 1 ∧
      ∃ l : List TxnId, 1 ∈ l ∧ 3 ∈ l ∧ l.Nodup ∧
        (∀ t, t ∈ l ↔ tr.eng.Running t ∧ tr.eng.isMvccTxn t = true) ∧
        tr.eng.activeMvccTxnCount = l.length ∧
        tr.eng.runningTxns.watermark =
          (l.map tr.eng.startTs).min?.getD tr.eng.lastCommitTs := by
  have hRun : (init twoSlotTables (fun _ => [])).run updateBesideReader = some _ :=
    (Option.some_get (by decide)).symm
  rcases watermark_of_run hRun with ⟨l, hNodup, hMem, hRest⟩
  exact ⟨_, hRun, by decide, by decide, l, (hMem 1).mpr (by decide), (hMem 3).mpr (by decide),
    hNodup, hMem, hRest⟩

/- In a run of tame steps that mixes the levels, a transaction
  with a snapshot reads the same from a row it has not
  written, whatever the others write, commit, roll back or
  collect. -/
theorem repeatable_read
    {later : List Op}
    {tr' : Recorded}
    {t : TxnId}
    {x : Loc}
    (hTame : StepSystem.Guarded step (fun tr op => tr.eng.Tame op)
      (init db tabCols) ops)
    (hRun : (init db tabCols).run ops = some tr)
    (hLater : StepSystem.Guarded step (fun tr op => tr.eng.Tame op) tr later)
    (hMore : tr.run later = some tr')
    (hGrowing : tr.eng.state t = .growing)
    (hMvcc : tr.eng.isMvccTxn t = true)
    (hStill : tr'.eng.state t = .growing)
    (hOwn : tr'.hist.own t x = none) :
    tr'.eng.getVisibleRecord t x = tr.eng.getVisibleRecord t x := by
  have hAgrees := agrees_run (agrees_init db tabCols) hTame hRun
  have hBegan : tr.eng.state t ≠ .default := by simp [hGrowing]
  have hLevel : ∀ {e}, tr.eng.Ages e → e.isMvccTxn t = true := fun hAges =>
    (congrArg IsolationLevel.mvcc (hAges.level t hBegan)).trans hMvcc
  -- the snapshot is kept while the reader runs: later a plain commit may reuse its timestamp
  have hKept := invariant_of_guarded_run (fun now => Agrees db.record now.eng now.hist ∧
      tr.eng.Ages now.eng ∧ (now.eng.Running t →
        now.hist.valueAt db.record (tr.eng.startTs t) x =
            tr.hist.valueAt db.record (tr.eng.startTs t) x ∧
          (now.hist.own t x = none → tr.hist.own t x = none)))
    ?_ ⟨hAgrees, .refl _, fun _ => ⟨rfl, id⟩⟩ hLater hMore
  · rcases hKept with ⟨⟨⟨_, hInv'⟩, -⟩, hAges, hSame⟩
    rcases hAgrees with ⟨⟨_, hInv⟩, -⟩
    rcases hSame (Or.inl hStill) with ⟨hValue, hNone⟩
    rw [hInv'.visible hStill (by simp [hLevel hAges]), hInv.visible hGrowing (by simp [hMvcc])]
    simp only [Consistent.expected, hOwn, hNone hOwn, hLevel hAges, hMvcc, hAges.start t hBegan]
    exact hValue
  · rintro now op next ⟨hNow, hAges, hSame⟩ hOp hStep
    rcases step_eq_some hStep with ⟨hEng, hHist⟩
    rw [hHist]
    rcases hNow.snapshot_step hEng x with ⟨hAge, hKeeps⟩
    refine ⟨hNow.step hOp hEng, hAges.trans hAge, ?_⟩
    intro hRunning
    have hBefore := hAge.running (hAges.began t hBegan) hRunning
    rcases hKeeps hBefore (hLevel hAges) with ⟨hValue, hNone⟩
    rw [hAges.start t hBegan] at hValue
    exact ⟨hValue.trans (hSame hBefore).1, fun h => (hSame hBefore).2 (hNone h)⟩

/- The reader after the update is committed and its old
  version collected as far as it may be. -/
theorem repeatable_read_updateBesideReader :
    ∃ tr tr', (init Sys.twoSlotTables (fun _ => [])).run
        (updateBesideReader.take 4) = some tr ∧
      tr.run (updateBesideReader.drop 4 ++
        [.commit 2, .garbageCollection]) = some tr' ∧
      tr'.eng.getVisibleRecord 1 Sys.firstRow =
        tr.eng.getVisibleRecord 1 Sys.firstRow := by
  have hRun : (init twoSlotTables (fun _ => [])).run (updateBesideReader.take 4) = some _ :=
    (Option.some_get (by decide)).symm
  exact ⟨_, _, hRun, (Option.some_get (by decide)).symm, repeatable_read (by decide) hRun
    (by decide) (Option.some_get (by decide)).symm (by decide) (by decide) (by decide) (by decide)⟩

end Recorded

end Rmdb
