import Rmdb.Mvcc.PlainKeys
import Rmdb.Mvcc.UniqueKeys

/-
  This file proves that the unique indexes stay exact in every
  run of READ COMMITTED transactions in which nobody takes a
  key that a running transaction has given up.

  Key definitions include:
    * `Op.Rc`
    * `Engine.ChangesSafely`
    * `Engine.RcOk`

  Key theorems include:
    * `Engine.RcOk.step`
    * `Engine.rc_indexes_exact`
    * `Engine.rc_key_twice`
-/

namespace Rmdb

open StepSystem Engine Sys

/- Only READ COMMITTED transactions begin. -/
def Op.Rc : Op → Prop
| .begin level => level.mvcc = false
| _ => True

instance : DecidablePred Op.Rc
| .begin level => inferInstanceAs (Decidable (level.mvcc = false))
| .insertRow _ _ _ _ => inferInstanceAs (Decidable True)
| .updateRow _ _ _ _ => inferInstanceAs (Decidable True)
| .deleteRow _ _ _ => inferInstanceAs (Decidable True)
| .readRow _ _ => inferInstanceAs (Decidable True)
| .passRow _ _ => inferInstanceAs (Decidable True)
| .registerRead _ _ _ _ _ => inferInstanceAs (Decidable True)
| .commit _ => inferInstanceAs (Decidable True)
| .abort _ => inferInstanceAs (Decidable True)
| .garbageCollection => inferInstanceAs (Decidable True)

namespace Engine

------------
-- No Versions
------------

section OnlyRc

variable {e e' : Engine} {t : TxnId} {x : Loc}
variable {d : DataRecord}

variable (hOnly : e.OnlyRc)
include hOnly

/- The transaction of the step gets no versions. -/
theorem OnlyRc.of_keeps
    (hKeeps : Keeps t e e')
    (hVersions : e'.mvccVersions = e.mvccVersions)
    (hKeys :
      (e'.txn t).mvccWriteKeys = (e.txn t).mvccWriteKeys) :
    e'.OnlyRc := by
  constructor
  · intro u
    rw [hKeeps.mvcc u]
    exact hOnly.levels u
  · intro y
    rw [hVersions]
    exact hOnly.versions y
  · intro u
    by_cases hU : u = t
    · rw [hU, hKeys]
      exact hOnly.keys t
    · rw [hKeeps.others u hU]
      exact hOnly.keys u
  · rw [hKeeps.active]
    exact hOnly.active

/- A change that was made or rejected. -/
theorem OnlyRc.written
    (hKeeps : Keeps t e e')
    (hEntry : Versions t d e e') :
    e'.OnlyRc := by
  refine hOnly.of_keeps hKeeps ?_ ?_
  · rw [hEntry.versions, hOnly.unversioned, if_neg (by simp)]
  · rw [hEntry.keys, hOnly.unversioned, if_neg (by simp)]

theorem OnlyRc.begins {level : IsolationLevel}
    (hLevel : level.mvcc = false) : (e.begin level).OnlyRc := by
  unfold begin
  rw [if_neg (by simp [hLevel])]
  refine ⟨?_, hOnly.versions, ?_, hOnly.active⟩
  · intro u
    by_cases hU : u = e.nextTxnId
    · simp [isMvccTxn, setTxn, hU, hLevel]
    · simp only [isMvccTxn, setTxn, Function.update_of_ne hU]
      exact hOnly.levels u
  · intro u
    by_cases hU : u = e.nextTxnId
    · simp [setTxn, hU, MvccTxn.unused]
    · simp only [setTxn, Function.update_of_ne hU]
      exact hOnly.keys u

theorem OnlyRc.commits (hCommits : Commits t e e') : e'.OnlyRc := by
  constructor
  · intro u
    unfold isMvccTxn
    by_cases hU : u = t
    · rw [hU, hCommits.level]
      exact hOnly.levels t
    · rw [hCommits.others u hU]
      exact hOnly.levels u
  · rw [hCommits.versions, hOnly.hasVersions t, if_neg (by simp)]
    exact hOnly.versions
  · intro u
    by_cases hU : u = t
    · rw [hU, hCommits.keys]
      exact hOnly.keys t
    · rw [hCommits.others u hU]
      exact hOnly.keys u
  · rw [hCommits.active, hOnly.levels t, if_neg (by simp)]
    exact hOnly.active

theorem OnlyRc.abort (hRun : e.abort t = some e') : e'.OnlyRc := by
  rcases abort_cases hRun with ⟨hVersions, -⟩ | ⟨-, e₁, hBack, hEnds⟩
  · rw [hOnly.hasVersions t] at hVersions
    cases hVersions
  rcases rollbackWrites_spec hBack with ⟨hUnwinds, hVersions, -⟩
  have hLevel : ∀ u, e₁.isMvccTxn u = false := by
    intro u
    unfold isMvccTxn
    rw [hUnwinds.txn]
    exact hOnly.levels u
  constructor
  · intro u
    by_cases hU : u = t
    · unfold isMvccTxn
      rw [hU, hEnds.level]
      exact hLevel t
    · unfold isMvccTxn
      rw [hEnds.others u hU]
      exact hLevel u
  · rw [hEnds.versions, hVersions]
    exact hOnly.versions
  · intro u
    by_cases hU : u = t
    · rw [hU, hEnds.keys, hUnwinds.txn]
      exact hOnly.keys t
    · rw [hEnds.others u hU, hUnwinds.txn]
      exact hOnly.keys u
  · rw [hEnds.active, hLevel t, if_neg (by simp), hUnwinds.active]
    exact hOnly.active

theorem OnlyRc.collect : e.garbageCollection.OnlyRc := by
  refine ⟨hOnly.levels, ?_, hOnly.keys, hOnly.active⟩
  intro x
  change e.collectEntry x = none
  simp [collectEntry, hOnly.versions x]

end OnlyRc

------------
-- Steps
------------

/- Every change of a step is safe. -/
def ChangesSafely (e : Engine) (op : Op) : Prop :=
  ∀ old t d, op.change? old = some (t, d) →
    CanChange t d e → PlainSafe t d e

/- The invariant of a run of READ COMMITTED transactions. -/
structure RcOk (e : Engine) : Prop where
  only : e.OnlyRc
  keys : e.PlainKeys

namespace RcOk

variable {e e' : Engine} {t : TxnId} {op : Op}

theorem abort
    (hOk : e.RcOk)
    (hRunning : e.Running t)
    (hRun : e.abort t = some e') :
    e'.RcOk := ⟨hOk.only.abort hRun, hOk.keys.abort hOk.only hRunning hRun⟩

theorem collect (hOk : e.RcOk) :
    e.garbageCollection.RcOk := ⟨hOk.only.collect, hOk.keys.collect hOk.only⟩

theorem step
    (hOk : e.RcOk)
    (hOp : op.Rc)
    (hSafe : e.ChangesSafely op)
    (hStep : e.step op = some e') :
    e'.RcOk := by
  have hOnly := hOk.only
  have hEffect := step_cases (fun t _ hMvcc =>
    absurd ((hOnly.levels t).symm.trans hMvcc) (by simp)) hStep
  cases hEffect with
  | begin level hNew =>
    subst hNew
    exact ⟨hOnly.begins hOp, hOk.keys.begins level⟩
  | quiet _ t x _ hQuiet =>
    exact ⟨hOnly.of_keeps hQuiet.keeps hQuiet.versions hQuiet.keys, hOk.keys.quiet hQuiet⟩
  | change _ t d old hChange hCan hOutcome =>
    have hHere := hSafe old t d hChange hCan
    cases hOutcome with
    | done hDone =>
      exact ⟨hOnly.written hDone.keeps hDone.entry, hOk.keys.done hOnly hCan hHere hDone⟩
    | rejected hRejected _ =>
      exact ⟨hOnly.written hRejected.keeps hRejected.entry,
        hOk.keys.reject hOnly hCan hHere hRejected⟩
    | aborted e₁ hRejected hAbort =>
      have hMiddle : e₁.RcOk := ⟨hOnly.written hRejected.keeps hRejected.entry,
          hOk.keys.reject hOnly hCan hHere hRejected⟩
      exact hMiddle.abort (Consistent.rejected_acts hCan hRejected).running hAbort
  | commit t e₁ hCommits hLast =>
    have hAfter : e₁.RcOk := ⟨hOnly.commits hCommits, hOk.keys.commits hCommits⟩
    rcases hLast with rfl | ⟨-, rfl⟩
    · exact hAfter
    · exact hAfter.collect
  | abort t hRunning hAbort => exact hOk.abort hRunning hAbort
  | collect hNew =>
    subst hNew
    exact hOk.collect

end RcOk

------------
-- Whole Runs
------------

section Runs

variable {db : Db} {tabCols : TabName → List ColMeta}
variable {ops : List Op} {e : Engine}

theorem rcOk_init (hIndexes : db.IndexExact)
    (hSlots : ∀ tab, (db tab).InSlots) : (init db tabCols).RcOk := by
  have hIdle : ∀ t, ¬ (init db tabCols).Running t := by
    rintro t (hState | ⟨reason, hState⟩)
    · cases hState
    · cases hState
  refine ⟨⟨fun _ => rfl, fun _ => rfl, fun _ => rfl, rfl⟩, hSlots, hIndexes, ?_, ?_, ?_, ?_, ?_⟩
  · exact fun t w hT => absurd hT (hIdle t)
  · exact fun t w hT => absurd hT (hIdle t)
  · exact fun t hT => absurd hT (hIdle t)
  · exact fun t tab i hT => absurd hT (hIdle t)
  · exact fun t u tab i r q k hT => absurd hT (hIdle t)

theorem rcOk_run
    (hIndexes : db.IndexExact)
    (hSlots : ∀ tab, (db tab).InSlots)
    (hOps : ∀ op ∈ ops, op.Rc)
    (hSafe : StepSystem.Guarded Engine.step ChangesSafely (init db tabCols) ops)
    (hRun : StepSystem.run Engine.step (init db tabCols) ops = some e) :
    e.RcOk := by
  refine invariant_of_guarded_run RcOk ?_ (rcOk_init hIndexes hSlots)
    ((guarded_of_forall _ hOps).and hSafe) hRun
  intro e op e' hOk hGuard hStep
  exact hOk.step hGuard.1 hGuard.2 hStep

/- Only READ COMMITTED transactions begin, and their changes
  are safe. Then in every state of the run, also while some
  are running, each index maps exactly the keys of the records
  to their places, and no two records have one key. -/
theorem rc_indexes_exact
    (hIndexes : db.IndexExact)
    (hSlots : ∀ tab, (db tab).InSlots)
    (hOps : ∀ op ∈ ops, op.Rc)
    (hSafe : StepSystem.Guarded Engine.step ChangesSafely (init db tabCols) ops)
    (hRun : StepSystem.run Engine.step (init db tabCols) ops = some e) :
    e.db.IndexExact ∧
      ∀ tab i r q k, (e.db tab).holder i r = some k →
        (e.db tab).holder i q = some k → q = r := by
  have hExact : e.db.IndexExact := (rcOk_run hIndexes hSlots hOps hSafe hRun).keys.exact
  refine ⟨hExact, ?_⟩
  intro tab i r q k hR hQ
  exact (hExact tab i).eq_of_holder hR hQ

end Runs

------------
-- Runs On Small Tables
------------

/- A test for safe changes that can be computed. -/
def safeNow (e : Engine) (op : Op) : Bool :=
  match op.change? [] with
  | none => true
  | some (t, d) =>
    (d.inserted = true →
      (e.locks d.loc = none ∨ e.locks d.loc = some t) ∧
        .insertTuple d.loc ∉ (e.txn t).writeSet) ∧
    ∀ n ∈ List.range e.nextTxnId, (n : TxnId) ≠ t →
      ∀ w ∈ (e.txn n).writeSet, w.loc.tab = d.tab →
        ∀ i ∈ List.range (e.db d.tab).indexes.length,
          keyIn ((e.db d.tab).cols i) (beforeWrite w) =
              none ∨
            keyIn ((e.db d.tab).cols i) d.after ≠
              keyIn ((e.db d.tab).cols i) (beforeWrite w)

/- The record that is seen does not matter. -/
theorem change_of_seen
    {op : Op}
    {old : RmRecord}
    {t : TxnId}
    {d : DataRecord}
    (hOp : op.change? old = some (t, d)) :
    ∃ d', op.change? [] = some (t, d') ∧ d'.loc = d.loc ∧
      d'.inserted = d.inserted ∧ d'.after = d.after := by
  cases op with
  | insertRow t' x rec order =>
    cases hOp
    exact ⟨.insert x rec, rfl, rfl, rfl, rfl⟩
  | updateRow t' x newRec order =>
    cases hOp
    exact ⟨.update x [] newRec, rfl, rfl, rfl, rfl⟩
  | deleteRow t' x order =>
    cases hOp
    exact ⟨.delete x [], rfl, rfl, rfl, rfl⟩
  | _ => cases hOp

theorem changesSafely_of_safeNow
    {e : Engine}
    {op : Op}
    (hNumbered : e.Numbered)
    (hNow : e.safeNow op = true) :
    e.ChangesSafely op := by
  intro old t d hOp hCan
  rcases change_of_seen hOp with ⟨d', hOp', hLoc, hInserted, hAfter⟩
  have hTab : d'.tab = d.tab := congrArg Loc.tab hLoc
  simp only [safeNow, hOp', hLoc, hInserted, hAfter, hTab, decide_eq_true_eq] at hNow
  rcases hNow with ⟨hInsert, hKeys⟩
  refine ⟨fun h => (hInsert h).1, fun h => (hInsert h).2, ?_⟩
  intro u w i k hRunning hU hW hTab' hOld hNew
  -- a running transaction has a number
  obtain ⟨n, hN, rfl⟩ : ∃ n : Nat, n < e.nextTxnId ∧ (n : TxnId) = u := by
    have hIn : ¬ (u < 0 ∨ e.nextTxnId ≤ u) := fun hOut =>
      not_running_of_unused (hNumbered.ids u hOut) hRunning
    have hNat : ∀ j : Int, ¬ (j < 0 ∨ (e.nextTxnId : Int) ≤ j) →
        ∃ n : Nat, n < e.nextTxnId ∧ (n : Int) = j := by
      intro j hJ
      exact ⟨j.toNat, by omega, by omega⟩
    exact hNat u hIn
  have hIndex : i < (e.db d.tab).indexes.length := by
    by_contra hOut
    have hNone : (e.db d.tab).cols i = none := by
      unfold Table.cols
      rw [List.getElem?_eq_none (not_lt.mp hOut)]
      rfl
    rw [hNone] at hOld
    cases hOld
  rcases hKeys n (List.mem_range.mpr hN) hU w hW hTab' i
    (List.mem_range.mpr hIndex) with hNone | hNe
  · rw [hNone] at hOld
    cases hOld
  · exact hNe (hNew.trans hOld.symm)

/- A transaction deletes a row while another one inserts a row
  with another key; the delete is rolled back. -/
def deleteBesideInsert : List Op :=
  [.begin .readCommitted, .insertRow 0 Sys.firstRow [1] [],
    .commit 0, .begin .readCommitted, .begin .readCommitted,
    .deleteRow 1 Sys.firstRow [],
    .insertRow 2 Sys.secondRow [2] [], .abort 1, .commit 2]

theorem rc_indexes_exact_deleteBesideInsert :
    ∃ e, StepSystem.run Engine.step (init Sys.indexedTables (fun _ => []))
        deleteBesideInsert = some e ∧
      e.db.record Sys.firstRow = some [1] ∧
      (e.db Sys.firstRow.tab).entry 0 [1] = some Sys.firstRow.rid ∧
      (e.db Sys.secondRow.tab).entry 0 [2] = some Sys.secondRow.rid := by
  have hRun : run step (init indexedTables (fun _ => [])) deleteBesideInsert = some _ :=
    (Option.some_get (by decide)).symm
  have hNow : Guarded step (fun e op => e.safeNow op = true)
      (init indexedTables (fun _ => [])) deleteBesideInsert := by decide
  have hSafe := Guarded.mono_of_invariant Numbered
    (fun _ _ _ hNumbered => hNumbered.step) (fun _ _ => changesSafely_of_safeNow)
    (numbered_init _ _) hNow
  have hExact := (rc_indexes_exact Recorded.indexedTables_exact.1
    Recorded.indexedTables_exact.2 (by decide) hSafe hRun).1
  exact ⟨_, hRun, by decide, (hExact _ 0 [1] firstRow.rid).mpr (by decide),
    (hExact _ 0 [2] secondRow.rid).mpr (by decide)⟩

/- The first slot is emptied by a committed delete. The key of
  a row that is being deleted is then taken by another
  transaction, which puts its record into that slot and
  commits; last the delete is rolled back. -/
def keyTakenBeforeAbort : List Op :=
  [.begin .readCommitted, .insertRow 0 Sys.firstRow [5] [],
    .insertRow 0 Sys.secondRow [1] [], .commit 0,
    .begin .readCommitted, .deleteRow 1 Sys.firstRow [], .commit 1,
    .begin .readCommitted, .begin .readCommitted,
    .deleteRow 2 Sys.secondRow [],
    .insertRow 3 Sys.firstRow [1] [], .commit 3, .abort 2]

/- Nobody is running, and two records have one key. -/
theorem rc_key_twice :
    (∀ op ∈ keyTakenBeforeAbort, op.Rc) ∧
      ∃ e, StepSystem.run Engine.step (init Sys.indexedTables (fun _ => []))
          keyTakenBeforeAbort = some e ∧
        (∀ t, ¬ e.Running t) ∧
        (e.db Sys.firstRow.tab).holder 0 Sys.firstRow.rid = some [1] ∧
        (e.db Sys.firstRow.tab).holder 0 Sys.secondRow.rid = some [1] ∧
        ¬ e.db.IndexExact := by
  refine ⟨by decide, ?_⟩
  have hRun : run step (init indexedTables (fun _ => [])) keyTakenBeforeAbort = some _ :=
    (Option.some_get (by decide)).symm
  have hNumbered := (numbered_init indexedTables (fun _ => [])).run hRun
  refine ⟨_, hRun, ?_, by decide, by decide, ?_⟩
  · intro t hRunning
    have hIn : ¬ (t < 0 ∨ ((4 : Nat) : Int) ≤ t) := fun hOut =>
      not_running_of_unused (hNumbered.ids t hOut) hRunning
    have hFour : ∀ j : Int, ¬ (j < 0 ∨ ((4 : Nat) : Int) ≤ j) →
        j = 0 ∨ j = 1 ∨ j = 2 ∨ j = 3 := by
      intro j hJ
      omega
    rcases hFour t hIn with rfl | rfl | rfl | rfl <;>
      exact absurd hRunning (by decide)
  · intro hExact
    have hEq := (hExact firstRow.tab 0).eq_of_holder (r := firstRow.rid) (q := secondRow.rid)
      (k := [1]) (by decide) (by decide)
    exact absurd hEq (by decide)

end Engine

end Rmdb
