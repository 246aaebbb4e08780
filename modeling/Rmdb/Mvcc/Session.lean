import Rmdb.Mvcc.Runs

/-
  This file has what every state that the engine can reach
  satisfies, whatever the levels of the transactions are, and
  what a step leaves alone: the transactions that it does not
  belong to, and the tables that nobody writes.

  Key definitions include:
    * `Op.txn?`
    * `Engine.Numbered`
    * `Engine.EntriesSound`
    * `Engine.SameTable`

  Key theorems include:
    * `Engine.Effect.txn_of_ne`
    * `Engine.Numbered.run`
    * `Engine.EntriesSound.run`
-/

namespace Rmdb

open Option

/- The transaction that a step belongs to. -/
def Op.txn? : Op → Option TxnId
| .commit t => some t
| .abort t => some t
| op => op.actor?

namespace Op

variable {op : Op} {t : TxnId} {d : DataRecord} {old : RmRecord}

theorem txn?_of_actor (hOp : op.actor? = some t) : op.txn? = some t := by
  cases op with
  | commit u => cases hOp
  | abort u => cases hOp
  | _ => exact hOp

theorem txn?_of_change (hOp : op.change? old = some (t, d)) :
    op.txn? = some t := by
  cases op with
  | insertRow u x rec order | updateRow u x newRec order | deleteRow u x order =>
    cases hOp
    rfl
  | _ => cases hOp

end Op

namespace Engine

------------
-- The Transactions Of Others
------------

section Others

variable {e e₁ e' : Engine} {t u : TxnId} {op : Op}

theorem txn_of_abort
    (hRun : e.abort t = some e')
    (hU : u ≠ t) :
    e'.txn u = e.txn u := by
  rcases ends_of_abort hRun with ⟨e₁, hUnwinds, hEnds⟩
  rw [hEnds.others u hU, hUnwinds.txn]

/- A step belongs to a running transaction. -/
theorem Effect.running
    (hEffect : Effect e e' op)
    (hOp : op.txn? = some t) :
    e.Running t := by
  cases hEffect with
  | begin level _ => cases hOp
  | quiet _ u x hActor hQuiet =>
    rw [Op.txn?_of_actor hActor] at hOp
    cases hOp
    exact Or.inl hQuiet.growing
  | change _ u d old hChange hCan _ =>
    rw [Op.txn?_of_change hChange] at hOp
    cases hOp
    exact Or.inl hCan.growing
  | commit u e₁ hCommits _ =>
    cases hOp
    exact Or.inl hCommits.growing
  | abort u hRunning _ =>
    cases hOp
    exact hRunning
  | collect _ => cases hOp

theorem Effect.txn_of_ne
    (hEffect : Effect e e' op)
    (hOp : op.txn? ≠ some u)
    (hNew : op.begins? = none ∨ u ≠ e.nextTxnId) :
    e'.txn u = e.txn u := by
  cases hEffect with
  | begin level hBegin =>
    subst hBegin
    have hNe := hNew.resolve_left (by simp [Op.begins?])
    unfold Engine.begin
    split
    · exact Function.update_of_ne hNe _ _
    · exact Function.update_of_ne hNe _ _
  | quiet _ t x hActor hQuiet =>
    rw [Op.txn?_of_actor hActor] at hOp
    exact hQuiet.keeps.others u (fun hU => hOp (by rw [hU]))
  | change _ t d old hChange hCan hOutcome =>
    rw [Op.txn?_of_change hChange] at hOp
    have hU : u ≠ t := fun hU => hOp (by rw [hU])
    cases hOutcome with
    | done hDone => exact hDone.keeps.others u hU
    | rejected hRejected _ => exact hRejected.keeps.others u hU
    | aborted e₁ hRejected hAbort => rw [txn_of_abort hAbort hU, hRejected.keeps.others u hU]
  | commit t e₁ hCommits hLast =>
    have hU : u ≠ t := fun hU => hOp (by rw [hU]; rfl)
    rcases hLast with rfl | ⟨-, rfl⟩
    · exact hCommits.others u hU
    · exact hCommits.others u hU
  | abort t hRunning hAbort => exact txn_of_abort hAbort (fun hU => hOp (by rw [hU]; rfl))
  | collect hCollect =>
    subst hCollect
    rfl

theorem nextTxnId_of_abort (hRun : e.abort t = some e') :
    e'.nextTxnId = e.nextTxnId := by
  rcases ends_of_abort hRun with ⟨e₁, hUnwinds, hEnds⟩
  rw [hEnds.nextTxnId, hUnwinds.nextTxnId]

theorem Effect.nextTxnId_le (hEffect : Effect e e' op) :
    e.nextTxnId ≤ e'.nextTxnId := by
  cases hEffect with
  | begin level hBegin =>
    subst hBegin
    unfold Engine.begin
    split
    · exact Nat.le_succ _
    · exact Nat.le_succ _
  | quiet _ t x _ hQuiet => exact le_of_eq hQuiet.keeps.nextTxnId.symm
  | change _ t d old _ hCan hOutcome =>
    cases hOutcome with
    | done hDone => exact le_of_eq hDone.keeps.nextTxnId.symm
    | rejected hRejected _ => exact le_of_eq hRejected.keeps.nextTxnId.symm
    | aborted e₁ hRejected hAbort => rw [nextTxnId_of_abort hAbort, hRejected.keeps.nextTxnId]
  | commit t e₁ hCommits hLast =>
    rcases hLast with rfl | ⟨-, rfl⟩
    · exact le_of_eq hCommits.nextTxnId.symm
    · exact le_of_eq hCommits.nextTxnId.symm
  | abort t hRunning hAbort => exact le_of_eq (nextTxnId_of_abort hAbort).symm
  | collect hNew =>
    subst hNew
    exact le_refl _

end Others

------------
-- Numbers And Timestamps
------------

/- The transactions have the numbers below the next one, and
  timestamps are not negative. -/
structure Numbered (e : Engine) : Prop where
  last : 0 ≤ e.lastCommitTs
  starts : ∀ t, e.isMvccTxn t = true → 0 ≤ e.startTs t
  ids : ∀ t : TxnId, t < 0 ∨ e.nextTxnId ≤ t → e.txn t = MvccTxn.unused

section Numbered

variable {e e' : Engine} {t : TxnId} {op : Op}

theorem Numbered.cases
    (hNumbered : e.Numbered)
    (hStep : e.step op = some e') :
    Effect e e' op :=
  step_cases (fun t _ hMvcc => hNumbered.starts t hMvcc) hStep

theorem Numbered.unused (hNumbered : e.Numbered) :
    e.txn e.nextTxnId = MvccTxn.unused :=
  hNumbered.ids e.nextTxnId (Or.inr (le_refl _))

theorem Running.state_ne (hRunning : e.Running t) : e.state t ≠ .default := by
  rcases hRunning with hState | ⟨reason, hState⟩
  · simp [hState]
  · simp [hState]

/- The numbers after a step. -/
theorem Effect.out_of_range
    (hEffect : Effect e e' op)
    (hOut : t < 0 ∨ e'.nextTxnId ≤ t) :
    (t < 0 ∨ e.nextTxnId ≤ t) ∧ (op.begins? = none ∨ t ≠ e.nextTxnId) := by
  have hRange : ∀ i : Int, ∀ m n : Nat, m ≤ n → i < 0 ∨ (n : Int) ≤ i → i < 0 ∨ (m : Int) ≤ i := by
    intro i m n hLe hI
    omega
  refine ⟨hRange t _ _ hEffect.nextTxnId_le hOut, ?_⟩
  cases hEffect with
  | begin level hBegin =>
    refine Or.inr ?_
    rintro rfl
    subst hBegin
    have hNext : (e.begin level).nextTxnId = e.nextTxnId + 1 := by
      unfold Engine.begin
      split
      · rfl
      · rfl
    have hBad : ∀ n : Nat, ¬ ((n : Int) < 0 ∨ ((n + 1 : Nat) : Int) ≤ n) := by
      intro n hN
      omega
    rw [hNext] at hOut
    exact hBad _ hOut
  | quiet _ u x hActor _ =>
    refine Or.inl ?_
    cases op with
    | begin level => cases hActor
    | _ => rfl
  | change _ u d old hChange _ _ =>
    refine Or.inl ?_
    cases op with
    | begin level => cases hChange
    | _ => rfl
  | commit u e₁ _ _ | abort u _ _ | collect _ => exact Or.inl rfl

theorem Numbered.step
    (hNumbered : e.Numbered)
    (hStep : e.step op = some e') :
    e'.Numbered := by
  have hEffect := hNumbered.cases hStep
  have hAges := hEffect.ages hNumbered.unused
  refine ⟨le_trans hNumbered.last hAges.last, ?_, ?_⟩
  · intro t hMvcc
    by_cases hOp : op.txn? = some t
    · -- the transaction keeps its level and its timestamp
      have hBegan := (hEffect.running hOp).state_ne
      rw [hAges.start t hBegan]
      refine hNumbered.starts t ?_
      unfold isMvccTxn at hMvcc ⊢
      rw [hAges.level t hBegan] at hMvcc
      exact hMvcc
    · by_cases hNew : op.begins? = none ∨ t ≠ e.nextTxnId
      · have hTxn := hEffect.txn_of_ne hOp hNew
        unfold isMvccTxn at hMvcc
        unfold startTs
        rw [hTxn] at hMvcc ⊢
        exact hNumbered.starts t hMvcc
      · rw [not_or, not_not] at hNew
        rcases hNew with ⟨hBegins, rfl⟩
        cases op with
        | begin level =>
          obtain rfl : e.begin level = e' := some.inj hStep
          cases hLevel : level.mvcc with
          | true => simp [Engine.begin, hLevel, Engine.setTxn, startTs, hNumbered.last]
          | false => simp [Engine.begin, hLevel, Engine.setTxn, isMvccTxn] at hMvcc
        | _ => exact absurd rfl hBegins
  · intro t hOut
    rcases hEffect.out_of_range hOut with ⟨hBefore, hNew⟩
    have hUnused := hNumbered.ids t hBefore
    rw [hEffect.txn_of_ne ?_ hNew]
    · exact hUnused
    · exact fun hOp => not_running_of_unused hUnused (hEffect.running hOp)

theorem numbered_init (db : Db)
    (tabCols : TabName → List ColMeta) : (init db tabCols).Numbered := by
  refine ⟨le_refl _, ?_, fun _ _ => rfl⟩
  intro t hMvcc
  cases hMvcc

theorem Numbered.run
    {ops : List Op}
    (hNumbered : e.Numbered)
    (hRun : StepSystem.run Engine.step e ops = some e') :
    e'.Numbered := StepSystem.invariant_of_run Numbered
    (fun _ _ _ hInv hStep => hInv.step hStep) hNumbered hRun

end Numbered

------------
-- Version Entries
------------

/- An entry has a newest version, a committed entry has
  nothing to take back, and what an abort brings back is an
  entry with a newest version. -/
structure EntrySound (entry : MvccEntry) : Prop where
  present : entry.entryExists = true
  clean : entry.writerTxn = none → entry.toEntryState.toEntry = entry
  restores : ∀ es, entry.restoreSnapshot = some es → es.entryExists = true

def EntriesSound (e : Engine) : Prop :=
  ∀ x entry, e.mvccVersions x = some entry → EntrySound entry

section Entries

variable {e e' : Engine} {t : TxnId} {d : DataRecord} {op : Op}

theorem entrySound_toEntry {es : EntryState}
    (hExists : es.entryExists = true) : EntrySound es.toEntry := by
  refine ⟨hExists, fun _ => rfl, ?_⟩
  intro old hOld
  cases hOld

variable (hSound : e.EntriesSound)
include hSound

theorem entrySound_written : EntrySound (e.written t d) := by
  refine ⟨rfl, ?_, ?_⟩
  · intro hWriter
    cases hWriter
  intro es hEs
  unfold written at hEs
  cases hEntry : e.mvccVersions d.loc with
  | none =>
    have hNone : ((MvccEntry.fresh (if d.inserted then none
        else some d.oldRecord)).restoreSnapshot) = none := by
      cases d.inserted with
      | true => rfl
      | false => rfl
    by_cases hKey : d.loc ∈ (e.txn t).mvccWriteKeys
    · simp [hEntry, hKey, MvccEntry.setHead, hNone] at hEs
    · simp [hEntry, hKey, MvccEntry.setHead, MvccEntry.remember] at hEs
  | some entry =>
    have hOld := hSound d.loc entry hEntry
    by_cases hKey : d.loc ∈ (e.txn t).mvccWriteKeys
    · simp only [hEntry, getD_some, hKey, if_true, MvccEntry.setHead] at hEs
      exact hOld.restores es hEs
    · simp only [hEntry, getD_some, hKey, if_false, MvccEntry.setHead, MvccEntry.remember,
        isSome_some, if_true, some.injEq] at hEs
      rw [← hEs]
      exact hOld.present

theorem EntriesSound.versions (hVersions : Versions t d e e') :
    e'.EntriesSound := by
  intro x entry hEntry
  rw [hVersions.versions] at hEntry
  split at hEntry
  · by_cases hX : x = d.loc
    · rw [hX, Function.update_self] at hEntry
      cases hEntry
      exact entrySound_written hSound
    · rw [Function.update_of_ne hX] at hEntry
      exact hSound x entry hEntry
  · exact hSound x entry hEntry

theorem EntriesSound.abort (hRun : e.abort t = some e') : e'.EntriesSound := by
  intro x entry hEntry
  rcases abort_cases hRun with ⟨-, e₁, hBack, hEnds⟩ | ⟨-, e₁, hBack, hEnds⟩
  · rcases (abortWrites_spec hBack).2 x with ⟨hTaken, hKept⟩
    rw [hEnds.versions] at hEntry
    by_cases hMine : x ∈ (e.txn t).writeSet.map WriteRecord.loc ∧ e.Owns t x
    · rcases hMine with ⟨hLoc, own, hOwn, hWriter⟩
      rw [(hTaken own hLoc (by simp) hOwn hWriter).2] at hEntry
      unfold MvccEntry.rolledEntry at hEntry
      split at hEntry
      · rcases map_eq_some_iff.mp hEntry with ⟨es, hEs, rfl⟩
        exact entrySound_toEntry ((hSound x own hOwn).restores es hEs)
      · cases hEntry
    · rw [(hKept (fun hLoc _ hOwns => hMine ⟨hLoc, hOwns⟩)).2] at hEntry
      exact hSound x entry hEntry
  · rw [hEnds.versions, (rollbackWrites_spec hBack).2.1] at hEntry
    exact hSound x entry hEntry

theorem EntriesSound.commits (hCommits : Commits t e e') : e'.EntriesSound := by
  intro x entry hEntry
  rw [hCommits.versions] at hEntry
  split at hEntry
  · rcases map_eq_some_iff.mp hEntry with ⟨old, hOld, rfl⟩
    have hBefore := hSound x old hOld
    split
    · refine ⟨hBefore.present, fun _ => rfl, ?_⟩
      intro es hEs
      cases hEs
    · exact hBefore
  · exact hSound x entry hEntry

theorem EntriesSound.collect : e.garbageCollection.EntriesSound := by
  intro x entry hEntry
  rcases bind_eq_some_iff.mp hEntry with ⟨old, hOld, hCollect⟩
  have hBefore := hSound x old hOld
  rcases collect_eq_some hCollect with
    rfl | ⟨hWriter, undo, rfl⟩
  · exact hBefore
  · refine ⟨hBefore.present, ?_, hBefore.restores⟩
    intro _
    rw [← hBefore.clean hWriter]
    rfl

theorem EntriesSound.step (hEffect : Effect e e' op) : e'.EntriesSound := by
  cases hEffect with
  | begin level hBegin =>
    subst hBegin
    unfold Engine.begin
    split
    · exact hSound
    · exact hSound
  | quiet _ t x _ hQuiet =>
    intro x entry hEntry
    rw [hQuiet.versions] at hEntry
    exact hSound x entry hEntry
  | change _ t d old _ hCan hOutcome =>
    cases hOutcome with
    | done hDone => exact hSound.versions hDone.entry
    | rejected hRejected _ => exact hSound.versions hRejected.entry
    | aborted e₁ hRejected hAbort => exact (hSound.versions hRejected.entry).abort hAbort
  | commit t e₁ hCommits hLast =>
    rcases hLast with rfl | ⟨-, rfl⟩
    · exact hSound.commits hCommits
    · exact (hSound.commits hCommits).collect
  | abort t hRunning hAbort => exact hSound.abort hAbort
  | collect hNew =>
    subst hNew
    exact hSound.collect

omit hSound

theorem EntriesSound.run
    {ops : List Op}
    (hNumbered : e.Numbered)
    (hSound : e.EntriesSound)
    (hRun : StepSystem.run Engine.step e ops = some e') :
    e'.EntriesSound := (StepSystem.invariant_of_run (fun e => e.Numbered ∧
      e.EntriesSound)
    (fun _ _ _ hInv hStep => ⟨hInv.1.step hStep, hInv.2.step (hInv.1.cases hStep)⟩)
    ⟨hNumbered, hSound⟩ hRun).2

end Entries

------------
-- Pages And Shared Locks
------------

section Pages

variable {e e' : Engine} {op : Op}

/- No step takes a page away from a heap file. A record that
  was deleted can be put back. -/
theorem Effect.keepsPages (hEffect : Effect e e' op) :
    e.db.KeepsPages e'.db := by
  cases hEffect with
  | begin level hNew =>
    subst hNew
    rw [(begins_begin e level).db]
    exact fun _ => .refl _
  | quiet _ t x _ hQuiet => exact hQuiet.edits.keepsPages
  | change _ t d old _ _ hOutcome =>
    cases hOutcome with
    | done hDone => exact hDone.edits.keepsPages
    | rejected hRejected _ => exact hRejected.edits.keepsPages
    | aborted e₁ hRejected hAbort =>
      exact fun tab => (hRejected.edits.keepsPages tab).trans (keepsPages_of_abort hAbort tab)
  | commit t e₁ hCommits hLast =>
    have hSame : e.db.KeepsPages e₁.db := by
      rw [hCommits.db]
      exact fun _ => .refl _
    rcases hLast with rfl | ⟨-, rfl⟩
    · exact hSame
    · exact hSame
  | abort t _ hAbort => exact keepsPages_of_abort hAbort
  | collect hNew =>
    subst hNew
    exact fun _ => .refl _

/- Shared locks are given to the transaction of the step only,
  and its end takes them. -/
theorem Effect.shared
    (hEffect : Effect e e' op)
    {x : Loc}
    {u : TxnId}
    (hMem : u ∈ e'.sharedLocks x) :
    e'.Running u ∨ u ∈ e.sharedLocks x ∧ op.txn? ≠ some u := by
  cases hEffect with
  | begin level hNew =>
    subst hNew
    rw [(begins_begin e level).shared] at hMem
    exact Or.inr ⟨hMem, fun hTxn => by cases hTxn⟩
  | quiet _ t y hActor hQuiet =>
    by_cases hU : u = t
    · subst hU
      exact Or.inl hQuiet.acts.running
    · refine Or.inr ⟨hQuiet.keeps.shared x u hU hMem, ?_⟩
      rw [Op.txn?_of_actor hActor]
      exact fun hEq => hU (some.inj hEq).symm
  | change _ t d old hChange hCan hOutcome =>
    by_cases hU : u = t
    · subst hU
      cases hOutcome with
      | done hDone => exact Or.inl (Consistent.done_acts hCan hDone).running
      | rejected hRejected _ => exact Or.inl (Consistent.rejected_acts hCan hRejected).running
      | aborted e₁ hRejected hAbort => exact absurd rfl (shared_of_abort hAbort hMem).1
    · refine Or.inr ⟨?_, ?_⟩
      · cases hOutcome with
        | done hDone => exact hDone.keeps.shared x u hU hMem
        | rejected hRejected _ => exact hRejected.keeps.shared x u hU hMem
        | aborted e₁ hRejected hAbort =>
          exact hRejected.keeps.shared x u hU (shared_of_abort hAbort hMem).2
      · rw [Op.txn?_of_change hChange]
        exact fun hEq => hU (some.inj hEq).symm
  | commit t e₁ hCommits hLast =>
    have hOld : u ≠ t ∧ u ∈ e.sharedLocks x := by
      rcases hLast with rfl | ⟨-, rfl⟩
      · exact hCommits.shared x u hMem
      · exact hCommits.shared x u hMem
    exact Or.inr ⟨hOld.2, fun hEq => hOld.1 (some.inj hEq).symm⟩
  | abort t _ hAbort =>
    rcases shared_of_abort hAbort hMem with ⟨hU, hOld⟩
    exact Or.inr ⟨hOld, fun hEq => hU (some.inj hEq).symm⟩
  | collect hNew =>
    subst hNew
    exact Or.inr ⟨hMem, fun hTxn => by cases hTxn⟩

end Pages

------------
-- Tables That Nobody Writes
------------

/- Two states have the same records, indexes and version
  entries in a table. -/
structure SameTable (tab : TabName) (e e' : Engine) : Prop where
  record : ∀ rid, e'.db.record ⟨tab, rid⟩ = e.db.record ⟨tab, rid⟩
  slots : (e'.db tab).numRecordsPerPage = (e.db tab).numRecordsPerPage
  cols : ∀ i, (e'.db tab).cols i = (e.db tab).cols i
  entry : ∀ i, (e'.db tab).entry i = (e.db tab).entry i
  versions : ∀ rid, e'.mvccVersions ⟨tab, rid⟩ = e.mvccVersions ⟨tab, rid⟩

section SameTable

variable {e e' : Engine} {t : TxnId} {x : Loc} {tab : TabName}

theorem SameTable.of_db (hDb : e'.db tab = e.db tab)
    (hVersions : ∀ rid,
      e'.mvccVersions ⟨tab, rid⟩ = e.mvccVersions ⟨tab, rid⟩) :
    SameTable tab e e' := by
  refine ⟨?_, by rw [hDb], fun _ => by rw [hDb], fun _ => by rw [hDb], hVersions⟩
  intro rid
  unfold Db.record
  rw [hDb]

theorem Quiet.sameTable
    (hQuiet : Quiet t x e e')
    (tab : TabName) :
    SameTable tab e e' := by
  have hRecord := hQuiet.edits.record_same
  by_cases hTab : tab = x.tab
  · subst hTab
    exact ⟨fun _ => by rw [hRecord], hQuiet.edits.slots, Table.cols_of_indexes hQuiet.indexes,
      Table.entry_of_indexes hQuiet.indexes, fun _ => by rw [hQuiet.versions]⟩
  · exact .of_db (hQuiet.edits.others tab hTab) (fun _ => by rw [hQuiet.versions])

/- A change of a row of another table. -/
theorem Acts.sameTable
    {v : Option RmRecord}
    (hActs : Acts t x e e')
    (hEdits : e.db.Edits e'.db x v)
    (hTab : tab ≠ x.tab) :
    SameTable tab e e' := .of_db (hEdits.others tab hTab) (fun _ =>
    hActs.versions _ (fun hEq => hTab (congrArg Loc.tab hEq)))

end SameTable

end Engine

end Rmdb
