import Rmdb.Mvcc.Runs

/-
  This file is about the runs in which all transactions are
  MVCC transactions.  Nobody locks rows, all writes have
  versions, and a row with an entry has a record in the heap,
  also after an abort.  So a slot without a record has no old
  versions, and every step of such a run is tame.

  Key definitions include:
    * `Op.Mvcc`
    * `Engine.OnlyMvcc`
    * `AgreesMvcc`

  Key theorems include:
    * `Engine.OnlyMvcc.respects`
    * `Recorded.agreesMvcc_run`
-/

namespace Rmdb

open Function Engine

/- Only MVCC transactions begin. -/
def Op.Mvcc : Op → Prop
| .begin level => level.mvcc = true
| _ => True

instance : DecidablePred Op.Mvcc
| .begin level => inferInstanceAs (Decidable (level.mvcc = true))
| .insertRow _ _ _ _ => inferInstanceAs (Decidable True)
| .updateRow _ _ _ _ => inferInstanceAs (Decidable True)
| .deleteRow _ _ _ => inferInstanceAs (Decidable True)
| .readRow _ _ => inferInstanceAs (Decidable True)
| .passRow _ _ => inferInstanceAs (Decidable True)
| .registerRead _ _ _ _ _ => inferInstanceAs (Decidable True)
| .commit _ => inferInstanceAs (Decidable True)
| .abort _ => inferInstanceAs (Decidable True)
| .garbageCollection => inferInstanceAs (Decidable True)

/- All transactions are MVCC transactions. A row with versions
  has a record, now and after an abort of its writer. -/
structure Engine.OnlyMvcc (e : Engine) : Prop where
  levels : ∀ t, e.state t ≠ .default → e.isMvccTxn t = true
  settled : ∀ x entry, e.mvccVersions x = some entry → entry.writerTxn = none → e.db.record x ≠ none
  rolled : ∀ x entry t, e.mvccVersions x = some entry → entry.writerTxn = some t →
        entry.rolledEntry ≠ none → entry.rolledRecord ≠ none

namespace Engine.OnlyMvcc

variable {base : Loc → Option RmRecord} {floor : Int}
variable {rejected : Option TxnId}
variable {e e' : Engine} {h : Hist} {t : TxnId} {x : Loc}
variable {d : DataRecord}

variable (hOnly : e.OnlyMvcc)
include hOnly

theorem mvcc_of_running (hRunning : e.Running t) : e.isMvccTxn t = true := by
  apply hOnly.levels
  rcases hRunning with hState | ⟨reason, hState⟩
  · simp [hState]
  · simp [hState]

theorem not_plainOwns : ¬ e.PlainOwns t x := by
  intro hPlain
  have hMvcc := hOnly.mvcc_of_running hPlain.plain.running
  cases hMvcc.symm.trans hPlain.plain.level

/- The levels do not change with the states. -/
theorem levels_of_keeps
    (hRunning : e.Running t)
    (hKeeps : Keeps t e e')
    (u : TxnId)
    (hState : e'.state u ≠ .default) :
    e'.isMvccTxn u = true := by
  rw [hKeeps.mvcc u]
  by_cases hU : u = t
  · rw [hU]
    exact hOnly.mvcc_of_running hRunning
  · apply hOnly.levels
    unfold state at hState ⊢
    rw [← hKeeps.others u hU]
    exact hState

variable (hInv : Consistent base floor none e h)
include hInv

/- A free slot has no versions; there are no lock holders. -/
theorem respects (hGrowing : e.state t = .growing)
    (hNew : d.inserted = true → e.db.record d.loc = none) : Respects t d e := by
  have hMvcc := hOnly.mvcc_of_running (Or.inl hGrowing)
  have hNot : e.isMvccTxn t ≠ false := by simp [hMvcc]
  refine ⟨fun _ hRc => absurd hRc hNot, ?_,
    fun _ hRc => absurd hRc hNot, fun hRc => absurd hRc hNot⟩
  intro hInserted _
  cases hEntry : e.mvccVersions d.loc with
  | none => rfl
  | some entry =>
    cases hWriter : entry.writerTxn with
    | none => exact absurd (hNew hInserted) (hOnly.settled d.loc entry hEntry hWriter)
    | some u =>
      exact absurd (hNew hInserted) (hInv.present d.loc u ⟨entry, hEntry, hWriter⟩ (by simp)).1

omit hInv in
theorem quiet (hQuiet : Quiet t x e e') : e'.OnlyMvcc := by
  have hRecord : e'.db.record = e.db.record := by rw [hQuiet.edits.record, update_eq_self]
  refine ⟨hOnly.levels_of_keeps (Or.inl hQuiet.growing) hQuiet.keeps, ?_, ?_⟩
  · rw [hQuiet.versions, hRecord]
    exact hOnly.settled
  · rw [hQuiet.versions]
    exact hOnly.rolled

/- What an abort brings back after a change. -/
theorem rolled_written
    (hRunning : e.Running t)
    (hRespects : Respects t d e)
    (hSome : (e.written t d).rolledEntry ≠ none) :
    (e.written t d).rolledRecord ≠ none := by
  by_cases hKey : d.loc ∈ (e.txn t).mvccWriteKeys
  · -- another write to an own row
    rcases (hInv.sets t hRunning).keys d.loc hKey with ⟨entry, hEntry, hWriter⟩
    have hOld := hOnly.rolled d.loc entry t hEntry hWriter
    simp only [written, hEntry, Option.getD_some, if_pos hKey] at hSome ⊢
    exact hOld hSome
  · cases hEntry : e.mvccVersions d.loc with
    | none =>
      exact absurd (by
        simp [written, hEntry, hKey, MvccEntry.rolledEntry,
          MvccEntry.setHead, MvccEntry.remember]) hSome
    | some entry =>
      have hVersioned : e.shouldVersionWrites t = true := by
        simp [shouldVersionWrites, hOnly.mvcc_of_running hRunning]
      have hInserted : d.inserted = false := by
        rw [Bool.eq_false_iff]
        intro hInserted
        rw [hRespects.new hInserted hVersioned] at hEntry
        cases hEntry
      simp [written, hEntry, hKey, MvccEntry.rolledRecord,
        MvccEntry.setHead, MvccEntry.remember, hInserted]

/- A change to a row, made or rejected. -/
theorem written
    {v : Option RmRecord}
    (hRunning : e.Running t)
    (hRespects : Respects t d e)
    (hKeeps : Keeps t e e')
    (hEdits : e.db.Edits e'.db d.loc v)
    (hVersions : Versions t d e e') :
    e'.OnlyMvcc := by
  have hVersioned : e.shouldVersionWrites t = true := by
    simp [shouldVersionWrites, hOnly.mvcc_of_running hRunning]
  have hEntries := hVersions.versions
  rw [if_pos hVersioned] at hEntries
  refine ⟨hOnly.levels_of_keeps hRunning hKeeps, ?_, ?_⟩
  · intro y entry hEntry hWriter
    rw [hEntries] at hEntry
    rw [hEdits.record]
    by_cases hY : y = d.loc
    · subst hY
      rw [update_self] at hEntry
      cases hEntry
      cases hWriter
    · rw [update_of_ne hY] at hEntry ⊢
      exact hOnly.settled y entry hEntry hWriter
  · intro y entry u hEntry hWriter
    rw [hEntries] at hEntry
    by_cases hY : y = d.loc
    · subst hY
      rw [update_self] at hEntry
      cases hEntry
      exact hOnly.rolled_written hInv hRunning hRespects
    · rw [update_of_ne hY] at hEntry
      exact hOnly.rolled y entry u hEntry hWriter

omit hInv

theorem levels_of_leaves
    (hEnd : Leaves t e e')
    (u : TxnId)
    (hState : e'.state u ≠ .default) :
    e'.isMvccTxn u = true := by
  rw [hEnd.mvcc u]
  by_cases hU : u = t
  · rw [hU]
    exact hOnly.mvcc_of_running hEnd.running
  · apply hOnly.levels
    rw [hEnd.state_other hU] at hState
    exact hState

theorem abort
    (hInv : Consistent base floor rejected e h)
    (hRunning : e.Running t)
    (hRun : e.abort t = some e') :
    e'.OnlyMvcc := by
  have hMvcc := hOnly.mvcc_of_running hRunning
  rcases abort_cases hRun with ⟨-, e₁, hBack, hEnds⟩ | ⟨hPlain, -⟩
  · rcases hInv.taken_back hBack hEnds with ⟨hMine, hOther⟩
    have hLeaves := Consistent.leaves_of_ends hRunning (abortWrites_spec hBack).1 hEnds
    refine ⟨hOnly.levels_of_leaves hLeaves, ?_, ?_⟩
    · intro x entry hEntry hWriter
      by_cases hT : e.Owns t x
      · rcases hT with ⟨own, hOwn, hOwner⟩
        rcases hMine x own hOwn hOwner with ⟨hRecord, hVersion⟩
        rw [hRecord]
        apply hOnly.rolled x own t hOwn hOwner
        rw [← hVersion, hEntry]
        simp
      · rcases hOther x hT with ⟨hRecord, hVersion⟩
        rw [hRecord]
        rw [hVersion] at hEntry
        exact hOnly.settled x entry hEntry hWriter
    · intro x entry u hEntry hWriter
      by_cases hT : e.Owns t x
      · -- the row has a committed version again
        rcases hT with ⟨own, hOwn, hOwner⟩
        rw [(hMine x own hOwn hOwner).2] at hEntry
        have hOwned := (hInv.rows x).owned own t hOwn hOwner
        have hNone := (hOwned.rolled.entryOk entry hEntry).writer
        cases hNone.symm.trans hWriter
      · rw [(hOther x hT).2] at hEntry
        exact hOnly.rolled x entry u hEntry hWriter
  · rw [hasVersions_of_mvcc hMvcc] at hPlain
    cases hPlain

include hInv

theorem commits (hCommits : Commits t e e') : e'.OnlyMvcc := by
  rcases hInv.versions_commit hCommits with ⟨hMine, hOther⟩
  refine ⟨hOnly.levels_of_leaves (Consistent.leaves_of_commits hCommits), ?_, ?_⟩
  · intro x entry hEntry hWriter
    rw [hCommits.db]
    by_cases hT : e.Owns t x
    · exact (hInv.present x t hT (by simp)).1
    · rw [hOther x hT] at hEntry
      exact hOnly.settled x entry hEntry hWriter
  · intro x entry u hEntry hWriter
    by_cases hT : e.Owns t x
    · rcases hT with ⟨own, hOwn, hOwner⟩
      rw [(hMine x own hOwn hOwner).1] at hEntry
      cases hEntry
      cases hWriter
    · rw [hOther x hT] at hEntry
      exact hOnly.rolled x entry u hEntry hWriter

theorem collect : e.garbageCollection.OnlyMvcc := by
  have hVersion : ∀ x, e.garbageCollection.mvccVersions x = e.collectEntry x := fun _ => rfl
  have hOld : ∀ x entry, e.collectEntry x = some entry → ∃ old, e.mvccVersions x = some old ∧
        old.collect e.runningTxns.watermark = some entry := by
    intro x entry hEntry
    exact Option.bind_eq_some_iff.mp hEntry
  refine ⟨hOnly.levels, ?_, ?_⟩
  · intro x entry hEntry hWriter
    rcases hOld x entry hEntry with ⟨old, hOldEntry, hCollect⟩
    have hNone := (writer_collect hCollect).symm.trans hWriter
    -- what garbage collection takes out has no entry left
    have hAlive : e.deadRow x = false := by
      rw [Bool.eq_false_iff]
      intro hDead
      simp only [deadRow, hOldEntry, Option.any_some, MvccEntry.dead, decide_eq_true_eq] at hDead
      simp [MvccEntry.collect, hDead] at hCollect
    rw [e.record_garbageCollection x, hAlive]
    exact hOnly.settled x old hOldEntry hNone
  · intro x entry u hEntry hWriter
    rw [hVersion] at hEntry
    rcases hOld x entry hEntry with ⟨old, hOldEntry, hCollect⟩
    have hOwner := (writer_collect hCollect).symm.trans hWriter
    rw [(hInv.collectEntry_owned hOldEntry hOwner).1] at hEntry
    cases hEntry
    exact hOnly.rolled x entry u hOldEntry hOwner

omit hInv

theorem begins {level : IsolationLevel}
    (hLevel : level.mvcc = true) : (e.begin level).OnlyMvcc := by
  have hTxn : (e.begin level).txn = update e.txn e.nextTxnId
        { MvccTxn.unused with
          isolationLevel := level,
          state := .growing,
          startTs := e.lastCommitTs } := by
    simp [begin, hLevel, setTxn]
  have hRest : (e.begin level).db = e.db ∧ (e.begin level).mvccVersions = e.mvccVersions := by
    simp [begin, hLevel, setTxn]
  constructor
  · intro t hState
    unfold state at hState
    unfold isMvccTxn
    rw [hTxn] at hState ⊢
    by_cases hT : t = e.nextTxnId
    · rw [hT, update_self]
      exact hLevel
    · rw [update_of_ne hT] at hState ⊢
      exact hOnly.levels t hState
  · rw [hRest.1, hRest.2]
    exact hOnly.settled
  · rw [hRest.2]
    exact hOnly.rolled

end Engine.OnlyMvcc

------------
-- Whole Runs
------------

/- The invariant of a run of MVCC transactions. -/
structure AgreesMvcc
    (base : Loc → Option RmRecord)
    (e : Engine)
    (h : Hist) :
    Prop where
  agrees : Agrees base e h
  only : e.OnlyMvcc

namespace AgreesMvcc

variable {base : Loc → Option RmRecord}
variable {e e' : Engine} {h : Hist} {op : Op}

theorem tame (hInv : AgreesMvcc base e h) : e.Tame op := by
  rcases hInv.agrees with ⟨⟨floor, hConsistent⟩, -⟩
  unfold Tame
  split
  · intro _ n _ hPlain
    have hMvcc := hInv.only.mvcc_of_running hPlain.running
    cases hMvcc.symm.trans hPlain.level
  · exact hInv.only.respects hConsistent
  · trivial

theorem step
    (hInv : AgreesMvcc base e h)
    (hOp : op.Mvcc)
    (hStep : e.step op = some e') :
    AgreesMvcc base e' (h.after e e' op) := by
  refine ⟨hInv.agrees.step hInv.tame hStep, ?_⟩
  have hAgrees := hInv.agrees
  rcases hAgrees with ⟨⟨floor, hConsistent⟩, hRoster⟩
  have hOnly := hInv.only
  have hEffect := step_cases (fun t hR hM => hInv.agrees.start_nonneg hR hM) hStep
  cases hEffect with
  | begin level hNew =>
    subst hNew
    exact hOnly.begins hOp
  | quiet _ t x _ hQuiet => exact hOnly.quiet hQuiet
  | change _ t d old hOp hCan hOutcome =>
    have hMay := hConsistent.writable hRoster hInv.tame hOp hCan
    have hRespects := hMay.toRespects
    have hRunning := hMay.running
    cases hOutcome with
    | done hDone =>
      exact hOnly.written hConsistent hRunning hRespects hDone.keeps hDone.edits hDone.entry
    | rejected hRejected _ =>
      exact hOnly.written hConsistent hRunning hRespects
        hRejected.keeps hRejected.edits hRejected.entry
    | aborted e₁ hRejected hAbort =>
      have hMiddle := hOnly.written hConsistent hRunning
        hRespects hRejected.keeps hRejected.edits hRejected.entry
      exact hMiddle.abort (hMay.broken hRejected)
        (Consistent.rejected_acts hCan hRejected).running hAbort
  | commit t e₁ hCommits hLast =>
    have hAfter := hOnly.commits hConsistent hCommits
    rcases hLast with rfl | ⟨-, rfl⟩
    · exact hAfter
    · rcases (hInv.agrees.commits hCommits).1 with ⟨floor', hConsistent'⟩
      exact hAfter.collect hConsistent'
  | abort t hRunning hAbort => exact hOnly.abort hConsistent hRunning hAbort
  | collect hNew =>
    subst hNew
    exact hOnly.collect hConsistent

end AgreesMvcc

namespace Recorded

theorem agreesMvcc_init
    (db : Db)
    (tabCols : TabName → List ColMeta) :
    AgreesMvcc db.record (init db tabCols).eng (init db tabCols).hist := by
  refine ⟨agrees_init db tabCols, ?_, ?_, ?_⟩
  · intro t hState
    exact absurd rfl hState
  · intro x entry hEntry
    cases hEntry
  · intro x entry t hEntry
    cases hEntry

theorem agreesMvcc_run
    {base : Loc → Option RmRecord}
    {tr tr' : Recorded}
    {ops : List Op}
    (hInit : AgreesMvcc base tr.eng tr.hist)
    (hOps : ∀ op ∈ ops, op.Mvcc)
    (hRun : tr.run ops = some tr') :
    AgreesMvcc base tr'.eng tr'.hist := by
  refine StepSystem.invariant_of_guarded_run (fun tr => AgreesMvcc base tr.eng tr.hist) ?_ hInit
    (StepSystem.guarded_of_forall tr hOps) hRun
  intro tr op tr' hInv hOp hStep
  rcases step_eq_some hStep with ⟨hEng, hHist⟩
  rw [hHist]
  exact hInv.step hOp hEng

end Recorded

end Rmdb
