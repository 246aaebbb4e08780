import Rmdb.Mvcc.Session

/-
  This file shows what the manager's books say in every run,
  tame or not: locks belong to running transactions, and the
  active count and the watermark are those of the running MVCC
  transactions.

  Key definitions include:
    * `Engine.Books`
    * `Engine.Stays`

  Key theorems include:
    * `Engine.Books.step`
    * `Engine.Books.ended`
-/

namespace Rmdb

open Consistent

namespace Engine

structure Books (e : Engine) : Prop where
  numbered : e.Numbered
  roster : e.Roster
  locks : ∀ x t, e.locks x = some t → e.Running t
  shared : ∀ x t, t ∈ e.sharedLocks x → e.Running t

/- Nothing that the books depend on has changed. -/
structure Stays (e e' : Engine) : Prop where
  nextTxnId : e'.nextTxnId = e.nextTxnId
  lastCommitTs : e'.lastCommitTs = e.lastCommitTs
  runningTxns : e'.runningTxns = e.runningTxns
  active : e'.activeMvccTxnCount = e.activeMvccTxnCount
  locks : e'.locks = e.locks
  shared : e'.sharedLocks = e.sharedLocks
  state : ∀ t, e'.state t = e.state t
  mvcc : ∀ t, e'.isMvccTxn t = e.isMvccTxn t
  startTs : ∀ t, e'.startTs t = e.startTs t
  unused : ∀ t, e.txn t = MvccTxn.unused → e'.txn t = MvccTxn.unused

section Stays

variable {e e' e'' : Engine} {t : TxnId}

theorem Stays.refl (e : Engine) : Stays e e :=
  ⟨rfl, rfl, rfl, rfl, rfl, rfl, fun _ => rfl, fun _ => rfl, fun _ => rfl, fun _ h => h⟩

theorem Stays.trans
    (hFirst : Stays e e')
    (hSecond : Stays e' e'') :
    Stays e e'' where
  nextTxnId := hSecond.nextTxnId.trans hFirst.nextTxnId
  lastCommitTs := hSecond.lastCommitTs.trans hFirst.lastCommitTs
  runningTxns := hSecond.runningTxns.trans hFirst.runningTxns
  active := hSecond.active.trans hFirst.active
  locks := hSecond.locks.trans hFirst.locks
  shared := hSecond.shared.trans hFirst.shared
  state := fun t => (hSecond.state t).trans (hFirst.state t)
  mvcc := fun t => (hSecond.mvcc t).trans (hFirst.mvcc t)
  startTs := fun t => (hSecond.startTs t).trans (hFirst.startTs t)
  unused := fun t h => hSecond.unused t (hFirst.unused t h)

theorem Stays.running_iff
    (hStays : Stays e e')
    (t : TxnId) :
    e'.Running t ↔ e.Running t := by
  unfold Running
  rw [hStays.state]

/- A running transaction gets other writes or log records. -/
theorem Stays.setTxn
    {txn : MvccTxn}
    (hRunning : e.Running t)
    (hState : txn.state = e.state t)
    (hLevel : txn.isolationLevel = (e.txn t).isolationLevel)
    (hStart : txn.startTs = e.startTs t) :
    Stays e (e.setTxn t txn) := by
  refine ⟨rfl, rfl, rfl, rfl, rfl, rfl, ?_, ?_, ?_, ?_⟩
  · intro u
    by_cases hU : u = t
    · subst hU
      simp [Engine.state, Engine.setTxn, hState]
    · simp [Engine.state, Engine.setTxn, Function.update_of_ne hU]
  · intro u
    by_cases hU : u = t
    · subst hU
      simp [isMvccTxn, Engine.setTxn, hLevel]
    · simp [isMvccTxn, Engine.setTxn, Function.update_of_ne hU]
  · intro u
    by_cases hU : u = t
    · subst hU
      simp [Engine.startTs, Engine.setTxn, hStart]
    · simp [Engine.startTs, Engine.setTxn, Function.update_of_ne hU]
  · intro u hUnused
    have hU : u ≠ t := by
      rintro rfl
      exact not_running_of_unused hUnused hRunning
    simp [Engine.setTxn, Function.update_of_ne hU, hUnused]

end Stays

namespace Books

variable {e e' : Engine} {op : Op} {t u : TxnId} {x : Loc}

theorem init
    (db : Db)
    (tabCols : TabName → List ColMeta) :
    (Engine.init db tabCols).Books := by
  refine ⟨numbered_init db tabCols, (Recorded.agrees_init db tabCols).2, ?_, ?_⟩
  · intro x t hLock
    cases hLock
  · intro x t hMem
    cases hMem

theorem locks_abort
    (hRunning : e.Running t)
    (hLocks : ∀ x u, e.locks x = some u → e.Running u)
    (hAbort : e.abort t = some e')
    (hLock : e'.locks x = some u) :
    e'.Running u := by
  rcases ends_of_abort hAbort with ⟨e₁, hUnwinds, hEnds⟩
  have hLeaves := leaves_of_ends hRunning hUnwinds hEnds
  rw [hEnds.locks x] at hLock
  split at hLock
  · cases hLock
  · rename_i hOther
    have hBefore : e.locks x = some u := by
      rcases hUnwinds.locks x with hSame | ⟨-, hNone⟩
      · rw [← hSame]
        exact hLock
      · rw [hNone] at hLock
        cases hLock
    have hU : u ≠ t := by
      rintro rfl
      exact hOther hLock
    exact (hLeaves.running_iff hU).mpr (hLocks x u hBefore)

variable (hBooks : e.Books)
include hBooks

/- The books of a state that differs elsewhere. -/
theorem stays (hStays : Stays e e') : e'.Books := by
  refine ⟨⟨?_, ?_, ?_⟩, ?_, ?_, ?_⟩
  · rw [hStays.lastCommitTs]
    exact hBooks.numbered.last
  · intro t hMvcc
    rw [hStays.startTs]
    rw [hStays.mvcc] at hMvcc
    exact hBooks.numbered.starts t hMvcc
  · intro t hOut
    rw [hStays.nextTxnId] at hOut
    exact hStays.unused t (hBooks.numbered.ids t hOut)
  · exact hBooks.roster.same hStays.running_iff hStays.mvcc
      hStays.startTs hStays.runningTxns hStays.active hStays.lastCommitTs
  · intro x t hLock
    rw [hStays.locks] at hLock
    exact (hStays.running_iff t).mpr (hBooks.locks x t hLock)
  · intro x t hMem
    rw [hStays.shared] at hMem
    exact (hStays.running_iff t).mpr (hBooks.shared x t hMem)

theorem locks_acts
    (hActs : Acts t x e e')
    {y : Loc}
    (hLock : e'.locks y = some u) :
    e'.Running u := by
  rcases hActs.locks y with hSame | ⟨-, -, hMine, -⟩
  · rw [hSame] at hLock
    exact (hActs.running_iff u).mpr (hBooks.locks y u hLock)
  · obtain rfl := Option.some.inj (hMine.symm.trans hLock)
    exact hActs.running

/- Locks belong to running transactions. -/
theorem locks_step
    (hStep : e.step op = some e')
    (hLock : e'.locks x = some u) :
    e'.Running u := by
  cases hBooks.numbered.cases hStep with
  | begin level hNew =>
    subst hNew
    have hBegins := begins_begin e level
    rw [hBegins.locks] at hLock
    have hRunning := hBooks.locks x u hLock
    have hU : u ≠ e.nextTxnId := by
      rintro rfl
      exact not_running_of_unused hBooks.numbered.unused hRunning
    unfold Running Engine.state at hRunning ⊢
    rw [hBegins.others u hU]
    exact hRunning
  | quiet _ t y _ hQuiet => exact hBooks.locks_acts hQuiet.acts hLock
  | change _ t d old _ hCan hOutcome =>
    cases hOutcome with
    | done hDone => exact hBooks.locks_acts (done_acts hCan hDone) hLock
    | rejected hRejected _ =>
      exact hBooks.locks_acts (rejected_acts hCan hRejected) hLock
    | aborted e₁ hRejected hAbort =>
      have hActs := rejected_acts hCan hRejected
      exact locks_abort hActs.running (fun _ _ hOld => hBooks.locks_acts hActs hOld) hAbort hLock
  | commit t e₁ hCommits hLast =>
    have hLeaves := leaves_of_commits hCommits
    have hOld : e₁.locks x = some u := by
      rcases hLast with rfl | ⟨-, rfl⟩
      · exact hLock
      · exact hLock
    have hAfter : e₁.Running u := by
      rw [hCommits.locks x] at hOld
      split at hOld
      · cases hOld
      · rename_i hOther
        have hU : u ≠ t := by
          rintro rfl
          exact hOther hOld
        exact (hLeaves.running_iff hU).mpr (hBooks.locks x u hOld)
    rcases hLast with rfl | ⟨-, rfl⟩
    · exact hAfter
    · exact hAfter
  | abort t hRunning hAbort => exact locks_abort hRunning hBooks.locks hAbort hLock
  | collect hNew =>
    subst hNew
    exact hBooks.locks x u hLock

theorem roster_step (hStep : e.step op = some e') : e'.Roster := by
  cases hBooks.numbered.cases hStep with
  | begin level hNew =>
    subst hNew
    exact hBooks.roster.begins level hBooks.numbered.unused
  | quiet _ t y _ hQuiet => exact hBooks.roster.acts hQuiet.acts
  | change _ t d old _ hCan hOutcome =>
    cases hOutcome with
    | done hDone => exact hBooks.roster.acts (done_acts hCan hDone)
    | rejected hRejected _ => exact hBooks.roster.acts (rejected_acts hCan hRejected)
    | aborted e₁ hRejected hAbort =>
      have hActs := rejected_acts hCan hRejected
      exact (hBooks.roster.acts hActs).abort hActs.running hAbort
  | commit t e₁ hCommits hLast =>
    rcases hLast with rfl | ⟨-, rfl⟩
    · exact hBooks.roster.commits hCommits
    · exact (hBooks.roster.commits hCommits).collect
  | abort t hRunning hAbort => exact hBooks.roster.abort hRunning hAbort
  | collect hNew =>
    subst hNew
    exact hBooks.roster.collect

/- Shared locks of others are not given, and the end of a
  transaction takes its own. -/
theorem shared_step
    (hStep : e.step op = some e')
    (hMem : u ∈ e'.sharedLocks x) :
    e'.Running u := by
  have hEffect := hBooks.numbered.cases hStep
  rcases hEffect.shared hMem with hRunning | ⟨hOld, hOp⟩
  · exact hRunning
  · have hRunning := hBooks.shared x u hOld
    have hSame : e'.txn u = e.txn u := by
      refine hEffect.txn_of_ne hOp (Or.inr ?_)
      rintro rfl
      exact not_running_of_unused hBooks.numbered.unused hRunning
    exact (running_congr hSame).mpr hRunning

theorem step (hStep : e.step op = some e') :
    e'.Books := ⟨hBooks.numbered.step hStep, hBooks.roster_step hStep,
    fun _ _ hLock => hBooks.locks_step hStep hLock, fun _ _ hMem => hBooks.shared_step hStep hMem⟩

/- A transaction that has ended is not in the books. -/
theorem ended (hEnded : ¬ e.Running t) :
    (∀ x, e.locks x ≠ some t ∧ t ∉ e.sharedLocks x) ∧ ∃ l, e.RosterOf l ∧
      t ∉ l := by
  constructor
  · intro x
    exact ⟨fun hLock => hEnded (hBooks.locks x t hLock),
      fun hMem => hEnded (hBooks.shared x t hMem)⟩
  · rcases hBooks.roster with ⟨l, hL⟩
    exact ⟨l, hL, fun hMem => hEnded ((hL.mem t).mp hMem).1⟩

end Books

end Engine

end Rmdb
