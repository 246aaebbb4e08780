import Rmdb.Mvcc.KeysEnds
import Rmdb.Mvcc.Snapshot

/-
  This file shows that the unique indexes are exact in every
  run in which only MVCC transactions begin and no transaction
  writes a row twice.  An index has the key of the newest
  version of every row, and no snapshot that can still be
  taken sees two rows with one key.

  The older versions of a table are not in its indexes.  That
  they have different keys follows for each timestamp from the
  state in which it was the last one, since later steps do not
  change what is committed by then.

  Key definitions include:
    * `Engine.WritesOnce`
    * `Engine.IndexesOk`
    * `Engine.seenAt`
    * `AgreesKeys`

  Key theorems include:
    * `AgreesKeys.step`
    * `Recorded.unique_keys`
-/

namespace Rmdb

open StepSystem Sys WriteRecord

namespace Engine

------------
-- The Indexes Of All Tables
------------

/- A transaction changes a row that it has not written yet. -/
def WritesOnce (e : Engine) (op : Op) : Prop :=
  ∀ old t d, op.change? old = some (t, d) → CanChange t d e →
    d.loc ∉ (e.txn t).writeSet.map WriteRecord.loc

theorem writesOnce_of_first
    {e : Engine}
    {op : Op}
    (hFirst : (op.change? []).all (fun c =>
        c.2.loc ∉ (e.txn c.1).writeSet.map loc)) :
    e.WritesOnce op := by
  intro old t d hOp _
  cases op with
  | insertRow t' x rec order | updateRow t' x newRec order | deleteRow t' x order =>
    cases hOp
    exact of_decide_eq_true hFirst
  | _ => cases hOp

/- The indexes of all tables are exact. A deleted row that is
  not committed yet still has the record that an abort brings
  back. -/
structure IndexesOk
    (layout : TabName → Nat → Option (List ColMeta))
    (e : Engine) :
    Prop where
  keys : ∀ tab, e.KeysOk tab
  cols : ∀ tab i, (e.db tab).cols i = layout tab i
  deletes : ∀ x entry t, e.mvccVersions x = some entry →
      entry.writerTxn = some t → entry.isDeleted = true → e.committedHead x = e.db.record x

namespace IndexesOk

variable {layout : TabName → Nat → Option (List ColMeta)}
variable {base : Loc → Option RmRecord} {floor : Int} {h : Hist}
variable {rejected : Option TxnId}
variable {e e₁ e' : Engine} {t : TxnId} {x : Loc}
variable {d : DataRecord}

variable (hIndexes : e.IndexesOk layout)
include hIndexes

theorem quiet (hQuiet : Quiet t x e e') : e'.IndexesOk layout := by
  have hRecord := hQuiet.edits.record_same
  refine ⟨fun tab => (hIndexes.keys tab).quiet hQuiet, ?_, ?_⟩
  · intro tab i
    rw [← hIndexes.cols]
    by_cases hTab : tab = x.tab
    · rw [hTab]
      exact Table.cols_of_indexes hQuiet.indexes i
    · rw [hQuiet.edits.others tab hTab]
  · intro y entry u hEntry hWriter hDeleted
    rw [(committedHead_congr (e := e) (by rw [hRecord]) (by rw [hQuiet.versions])).2, hRecord]
    rw [hQuiet.versions] at hEntry
    exact hIndexes.deletes y entry u hEntry hWriter hDeleted

theorem begins (level : IsolationLevel) : (e.begin level).IndexesOk layout := by
  have hSame : (e.begin level).db = e.db ∧ (e.begin level).mvccVersions = e.mvccVersions := by
    unfold Engine.begin
    split
    · exact ⟨rfl, rfl⟩
    · exact ⟨rfl, rfl⟩
  refine ⟨fun tab => (hIndexes.keys tab).begins level, ?_, ?_⟩
  · rw [hSame.1]
    exact hIndexes.cols
  · intro y entry u hEntry hWriter hDeleted
    rw [(committedHead_congr (e := e) (by rw [hSame.1]) (by rw [hSame.2])).2, hSame.1]
    rw [hSame.2] at hEntry
    exact hIndexes.deletes y entry u hEntry hWriter hDeleted

variable (hMay : Writable base floor h t d e)
include hMay

/- A row that nobody has written in a running transaction. -/
omit hIndexes in
theorem free_of_first
    (hFirst : d.loc ∉ (e.txn t).writeSet.map loc)
    (u : TxnId) :
    ¬ e.Owns u d.loc := by
  intro hU
  obtain rfl := hMay.owner_eq hU
  exact hFirst ((hMay.rows d.loc).owner u hU).2.2

/- Nobody takes the key of a record of another transaction. -/
theorem lostKey_ne
    {u : TxnId}
    {i : Nat}
    {r : Rid}
    {k : IndexKey}
    (hMvcc : e.isMvccTxn t = true)
    (hShifts : (e.db d.tab).Shifts (e'.db d.tab) i
      (keyIn ((e.db d.tab).cols i) d.before)
        (keyIn ((e.db d.tab).cols i) d.after) d.rid)
    (hRunning : e.Running u)
    (hU : u ≠ t)
    (hR : r ∈ e.rowsOf u d.tab)
    (hNew : keyIn ((e.db d.tab).cols i) d.after = some k) :
    e.lostKey d.tab i r ≠ some k := by
  intro hLost
  have hKeys := hIndexes.keys d.tab
  have hOwns := hKeys.owned u r hRunning hR
  rcases hOwns with ⟨entry, hEntry, hWriter⟩
  cases hDeleted : entry.isDeleted with
  | true =>
    -- the key is the one that the row gets back
    have hHead := hIndexes.deletes _ entry u hEntry hWriter hDeleted
    refine wasKey_ne_of_unique hKeys hMay hMvcc hRunning hU hR hNew ?_
    unfold wasKey
    rw [hHead]
    exact hLost
  | false =>
    have hNow : e.nowKey d.tab i r = some k := by
      unfold nowKey newest
      rw [hEntry, Option.any_some, hDeleted]
      exact hLost
    have hSame : r = d.rid := by
      rcases hShifts.entries with ⟨-, hKey⟩ | ⟨-, hFree⟩
      · refine (hKeys.exact i).eq_of_holder ?_ hNow
        rw [nowKey_before hMay, hKey]
        exact hNew
      · exact hFree k r hNew ((hKeys.exact i k r).mpr hNow)
    subst hSame
    exact hU (hMay.owner_eq ⟨entry, hEntry, hWriter⟩)

/- A row that is written for the first time. -/
theorem deletes_written
    {value : Option RmRecord}
    (hVersioned : e.shouldVersionWrites t = true)
    (hFirst : d.loc ∉ (e.txn t).writeSet.map loc)
    (hActs : Acts t d.loc e e')
    (hEdits : e.db.Edits e'.db d.loc value)
    (hValue : d.deleted = true → value = d.before)
    (hVersions : Versions t d e e') :
    ∀ y entry u, e'.mvccVersions y = some entry →
      entry.writerTxn = some u → entry.isDeleted = true →
      e'.committedHead y = e'.db.record y := by
  intro y entry u hEntry hWriter hDeleted
  by_cases hY : y = d.loc
  · subst hY
    have hEntries := hVersions.versions
    rw [if_pos hVersioned] at hEntries
    rw [hEntries, Function.update_self] at hEntry
    cases hEntry
    rw [committedHead_written hMay hVersioned hVersions,
      committedHead_of_free (free_of_first hMay hFirst),
      newest_before hMay, hEdits.record_self, hValue hDeleted]
  · rw [(committedHead_congr (hActs.record y hY) (hActs.versions y hY)).2, hActs.record y hY]
    rw [hActs.versions y hY] at hEntry
    exact hIndexes.deletes y entry u hEntry hWriter hDeleted

theorem done
    (hMvcc : e.isMvccTxn t = true)
    (hFirst : d.loc ∉ (e.txn t).writeSet.map loc)
    (hDone : Done t d e e') :
    e'.IndexesOk layout := by
  have hVersioned : e.shouldVersionWrites t = true := by simp [shouldVersionWrites, hMvcc]
  have hActs := Consistent.done_acts hMay.toCanChange hDone
  have hSafe : KeySafe t d e := by
    refine ⟨fun hMem => absurd (mem_rowsOf.mp hMem) hFirst, ?_⟩
    intro u i r k hRunning hU hR hNew
    exact hIndexes.lostKey_ne hMay hMvcc (hDone.shifts i) hRunning hU hR hNew
  constructor
  · intro tab
    by_cases hTab : tab = d.tab
    · subst hTab
      exact (hIndexes.keys d.tab).done hMay hVersioned hSafe
        (fun u i r k hRunning hU hR hNew =>
          wasKey_ne_of_unique (hIndexes.keys d.tab) hMay hMvcc hRunning hU hR hNew) hDone
    · exact (hIndexes.keys tab).change_other hTab hActs hDone.edits
  · intro tab i
    rw [← hIndexes.cols]
    by_cases hTab : tab = d.tab
    · rw [hTab]
      exact (hDone.shifts i).layout
    · rw [hDone.edits.others tab hTab]
  · refine hIndexes.deletes_written hMay
      hVersioned hFirst hActs hDone.edits ?_ hDone.entry
    intro hDeleted
    have hOld := DataRecord.not_inserted_of_deleted hDeleted
    unfold physicalAfter
    rw [if_pos ⟨hVersioned, hDeleted⟩, (hMay.seen_old hOld).1,
      DataRecord.before_of_not_inserted hOld]

theorem reject
    (hMvcc : e.isMvccTxn t = true)
    (hFirst : d.loc ∉ (e.txn t).writeSet.map loc)
    (hRejected : Rejected t d e e') :
    e'.IndexesOk layout := by
  have hVersioned : e.shouldVersionWrites t = true := by simp [shouldVersionWrites, hMvcc]
  have hActs := Consistent.rejected_acts hMay.toCanChange hRejected
  have hSlot := hMay.hasSlot ((hIndexes.keys d.tab).slots d.rid)
  constructor
  · intro tab
    by_cases hTab : tab = d.tab
    · subst hTab
      exact (hIndexes.keys d.tab).reject hMay hVersioned
        (fun hMem => absurd (mem_rowsOf.mp hMem) hFirst) hRejected
    · exact (hIndexes.keys tab).change_other hTab hActs hRejected.edits
  · intro tab i
    rw [← hIndexes.cols]
    by_cases hTab : tab = d.tab
    · rw [hTab]
      exact (hRejected.rekeys hSlot).layout i
    · rw [hRejected.edits.others tab hTab]
  · refine hIndexes.deletes_written hMay
      hVersioned hFirst hActs hRejected.edits ?_ hRejected.entry
    intro hDeleted
    rw [hRejected.kept hSlot] at hDeleted
    cases hDeleted

omit hMay

theorem abort
    (hOnly : e.OnlyMvcc)
    (hInv : Consistent base floor rejected e h)
    (hRejected : rejected = none ∨ rejected = some t)
    (hRunning : e.Running t)
    (hRun : e.abort t = some e') :
    e'.IndexesOk layout := by
  have hMvcc := hOnly.mvcc_of_running hRunning
  have hInv' := hInv.abort hRejected hRunning hRun
  have hOnly' := hOnly.abort hInv hRunning hRun
  rcases abort_cases hRun with ⟨-, e₁, hBack, hEnds⟩ | ⟨hPlain, -⟩
  · constructor
    · intro tab
      exact (hIndexes.keys tab).abort hInv hInv' (fun rid u => hOnly.not_plainOwns)
        (fun rid u => hOnly'.not_plainOwns) hRunning hBack hEnds
    · intro tab i
      have hCols := (retract_abortWrites ((hIndexes.keys tab).unwinding hInv hRunning) hBack).1 i
      rw [← hIndexes.cols, hEnds.db]
      exact hCols
    · intro y entry u hEntry hWriter hDeleted
      have hNot := not_owns_of_abort hInv hBack hEnds ⟨entry, hEntry, hWriter⟩
      rcases (hInv.taken_back hBack hEnds).2 y hNot with ⟨hRecord, hVersions⟩
      rw [(committedHead_congr hRecord hVersions).2, hRecord]
      rw [hVersions] at hEntry
      exact hIndexes.deletes y entry u hEntry hWriter hDeleted
  · rw [hasVersions_of_mvcc hMvcc] at hPlain
    cases hPlain

variable (hInv : Consistent base floor none e h)
include hInv

theorem commits (hCommits : Commits t e e') : e'.IndexesOk layout := by
  rcases hInv.versions_commit hCommits with ⟨hMine, hOther⟩
  refine ⟨fun tab => (hIndexes.keys tab).commits hInv hCommits, ?_, ?_⟩
  · rw [hCommits.db]
    exact hIndexes.cols
  · intro y entry u hEntry hWriter hDeleted
    have hNot : ¬ e.Owns t y := by
      rintro ⟨own, hOwn, hOwner⟩
      rw [(hMine y own hOwn hOwner).1] at hEntry
      cases hEntry
      cases hWriter
    have hVersions := hOther y hNot
    rw [(committedHead_congr (by rw [hCommits.db]) hVersions).2, hCommits.db]
    rw [hVersions] at hEntry
    exact hIndexes.deletes y entry u hEntry hWriter hDeleted

theorem collect : e.garbageCollection.IndexesOk layout := by
  refine ⟨fun tab => (hIndexes.keys tab).collect hInv, hIndexes.cols, ?_⟩
  intro y entry u hEntry hWriter hDeleted
  rcases (hInv.owns_garbageCollection u y).mp ⟨entry, hEntry, hWriter⟩ with ⟨old, hOld, hOwner⟩
  rcases hInv.collectEntry_owned hOld hOwner with ⟨hKept, hAlive⟩
  change e.collectEntry y = some entry at hEntry
  rw [hKept] at hEntry
  cases hEntry
  have hRecord := e.record_garbageCollection y
  rw [hAlive] at hRecord
  rw [(newest_garbageCollection hInv y).2, hRecord]
  exact hIndexes.deletes y entry u hOld hOwner hDeleted

end IndexesOk

------------
-- Snapshots
------------

/- What a transaction with a start timestamp sees of a row. -/
def seenAt
    (e : Engine)
    (t : TxnId)
    (ts : Int)
    (x : Loc) :
    Option RmRecord :=
  match e.db.record x with
  | none => none
  | some physical =>
    match e.mvccVersions x with
    | none => some physical
    | some entry => entry.visibleRecord physical true t ts

section Snapshots

variable {base : Loc → Option RmRecord} {floor : Int} {h : Hist}
variable {e e' : Engine} {t : TxnId} {x : Loc} {op : Op}

/- A snapshot of rows that others have written. -/
theorem seenAt_eq_valueAt
    {ts : Int}
    (hInv : Consistent base floor none e h)
    (hPlain : ∀ u, ¬ e.PlainOwns u x)
    (hNot : ¬ e.Owns t x)
    (hTs : floor ≤ ts) :
    e.seenAt t ts x = h.valueAt base ts x := by
  by_cases hOwner : ∃ u, e.Owns u x
  · rcases hOwner with ⟨u, hOwns⟩
    rcases Option.ne_none_iff_exists'.mp (hInv.present x u hOwns (by simp)).1 with
      ⟨physical, hRecord⟩
    rcases hOwns with ⟨entry, hEntry, hWriter⟩
    have hOwned := (hInv.rows x).owned entry u hEntry hWriter
    have hOther : t ≠ u := by
      rintro rfl
      exact hNot ⟨entry, hEntry, hWriter⟩
    unfold seenAt
    rw [hRecord, hEntry]
    exact hOwned.visible hInv.floorLast (fun _ => hTs) hOther physical
  · have hFree : ∀ u, ¬ e.Owns u x := fun u hU => hOwner ⟨u, hU⟩
    have hSettled := (hInv.rows x).settled hFree
    rw [hInv.pre_eq hPlain hFree] at hSettled
    unfold seenAt
    cases hRecord : e.db.record x with
    | none => exact (hSettled.gone hRecord ts hTs).symm
    | some physical =>
      cases hEntry : e.mvccVersions x with
      | none =>
        have hReads := hSettled.reads ts hTs
        rw [hRecord, hEntry] at hReads
        exact hReads.symm
      | some entry => exact hSettled.visible hInv.floorLast (fun _ => hTs) hRecord hEntry

/- A step makes at most one commit. -/
theorem Effect.last_le (hEffect : Effect e e' op) :
    e'.lastCommitTs ≤ e.lastCommitTs + 1 := by
  have hAbort : ∀ {e₁ : Engine} {u : TxnId}, e₁.abort u = some e' →
        e'.lastCommitTs = e₁.lastCommitTs := by
    intro e₁ u hRun
    rcases ends_of_abort hRun with ⟨e₂, hUnwinds, hEnds⟩
    rw [hEnds.lastCommitTs, hUnwinds.lastCommitTs]
  cases hEffect with
  | begin level hNew =>
    subst hNew
    unfold Engine.begin
    split
    · exact le_of_lt (lt_add_one _)
    · exact le_of_lt (lt_add_one _)
  | quiet _ t x _ hQuiet =>
    rw [hQuiet.keeps.lastCommitTs]
    exact le_of_lt (lt_add_one _)
  | change _ t d old _ hCan hOutcome =>
    cases hOutcome with
    | done hDone =>
      rw [hDone.keeps.lastCommitTs]
      exact le_of_lt (lt_add_one _)
    | rejected hRejected _ =>
      rw [hRejected.keeps.lastCommitTs]
      exact le_of_lt (lt_add_one _)
    | aborted e₁ hRejected hRun =>
      rw [hAbort hRun, hRejected.keeps.lastCommitTs]
      exact le_of_lt (lt_add_one _)
  | commit t e₁ hCommits hLast =>
    have hTs : e₁.lastCommitTs ≤ e.lastCommitTs + 1 := by
      rw [hCommits.lastCommitTs]
      split
      · exact le_refl _
      · exact le_of_lt (lt_add_one _)
    rcases hLast with rfl | ⟨-, rfl⟩
    · exact hTs
    · exact hTs
  | abort t hRunning hRun =>
    rw [hAbort hRun]
    exact le_of_lt (lt_add_one _)
  | collect hNew =>
    subst hNew
    exact le_of_lt (lt_add_one _)

end Snapshots

end Engine

------------
-- Whole Runs
------------

/- The invariant of a run of MVCC transactions: at no
  timestamp so far two rows have one key. -/
structure AgreesKeys
    (base : Loc → Option RmRecord)
    (layout : TabName → Nat → Option (List ColMeta))
    (e : Engine)
    (h : Hist) :
    Prop where
  mvcc : AgreesMvcc base e h
  indexes : e.IndexesOk layout
  past : ∀ tab i ts r q k, ts ≤ e.lastCommitTs → keyIn (layout tab i) (h.valueAt base ts ⟨tab, r⟩) =
        some k → keyIn (layout tab i) (h.valueAt base ts ⟨tab, q⟩) =
        some k → q = r

namespace AgreesKeys

variable {base : Loc → Option RmRecord}
variable {layout : TabName → Nat → Option (List ColMeta)}
variable {e e' : Engine} {h : Hist} {op : Op}

/- The keys at the last timestamp. -/
theorem wasKey_eq
    (hMvcc : AgreesMvcc base e h)
    (hIndexes : e.IndexesOk layout)
    (tab : TabName)
    (i : Nat)
    (rid : Rid) :
    e.wasKey tab i rid =
      keyIn (layout tab i) (h.valueAt base e.lastCommitTs ⟨tab, rid⟩) := by
  rcases hMvcc.agrees with ⟨⟨floor, hInv⟩, -⟩
  unfold Engine.wasKey
  rw [hIndexes.cols,
    Engine.committedHead_eq_valueAt hInv (fun t => hMvcc.only.not_plainOwns)]

theorem indexes_step
    (hInv : AgreesKeys base layout e h)
    (hOp : op.Mvcc)
    (hOnce : e.WritesOnce op)
    (hStep : e.step op = some e') :
    e'.IndexesOk layout := by
  have hIndexes := hInv.indexes
  have hOnly := hInv.mvcc.only
  have hAgrees := hInv.mvcc.agrees
  rcases hAgrees with ⟨⟨floor, hConsistent⟩, hRoster⟩
  have hEffect := Engine.step_cases (fun t hR hM => hInv.mvcc.agrees.start_nonneg hR hM) hStep
  cases hEffect with
  | begin level hNew =>
    subst hNew
    exact hIndexes.begins level
  | quiet _ t x _ hQuiet => exact hIndexes.quiet hQuiet
  | change _ t d old hChange hCan hOutcome =>
    have hMay := hConsistent.writable hRoster hInv.mvcc.tame hChange hCan
    have hMvcc := hOnly.mvcc_of_running (Or.inl hCan.growing)
    have hFirst := hOnce old t d hChange hCan
    cases hOutcome with
    | done hDone => exact hIndexes.done hMay hMvcc hFirst hDone
    | rejected hRejected _ =>
      exact hIndexes.reject hMay hMvcc hFirst hRejected
    | aborted e₁ hRejected hAbort =>
      have hMiddle := hIndexes.reject hMay hMvcc hFirst hRejected
      have hOnly₁ := hOnly.written hConsistent hMay.running hMay.toRespects hRejected.keeps
        hRejected.edits hRejected.entry
      exact hMiddle.abort hOnly₁ (hMay.broken hRejected) (Or.inr rfl)
        (Consistent.rejected_acts hCan hRejected).running hAbort
  | commit t e₁ hCommits hLast =>
    have hAfter := hIndexes.commits hConsistent hCommits
    rcases hLast with rfl | ⟨-, rfl⟩
    · exact hAfter
    · rcases (hInv.mvcc.agrees.commits hCommits).1 with ⟨floor', hConsistent'⟩
      exact hAfter.collect hConsistent'
  | abort t hRunning hAbort => exact hIndexes.abort hOnly hConsistent (Or.inl rfl) hRunning hAbort
  | collect hNew =>
    subst hNew
    exact hIndexes.collect hConsistent

theorem step
    (hInv : AgreesKeys base layout e h)
    (hOp : op.Mvcc)
    (hOnce : e.WritesOnce op)
    (hStep : e.step op = some e') :
    AgreesKeys base layout e' (h.after e e' op) := by
  have hMvcc := hInv.mvcc.step hOp hStep
  have hIndexes := hInv.indexes_step hOp hOnce hStep
  refine ⟨hMvcc, hIndexes, ?_⟩
  intro tab i ts r q k hTs hR hQ
  by_cases hOld : ts ≤ e.lastCommitTs
  · -- the past stays as it is
    have hPast := (hInv.mvcc.extends_step hStep).past ts
    rw [hPast _ hOld] at hR hQ
    exact hInv.past tab i ts r q k hOld hR hQ
  · have hLe := (Engine.step_cases (fun t hR hM =>
      hInv.mvcc.agrees.start_nonneg hR hM) hStep).last_le
    obtain rfl : ts = e'.lastCommitTs := by omega
    rw [← wasKey_eq hMvcc hIndexes] at hR hQ
    exact (hIndexes.keys tab).unique i r q k hR hQ

/- No snapshot sees two rows with one key. -/
theorem eq_of_seen
    (hInv : AgreesKeys base layout e h)
    {tab : TabName}
    {i : Nat}
    {ts : Int}
    {t : TxnId}
    {r q : Rid}
    {k : IndexKey}
    (hFrom : e.runningTxns.watermark ≤ ts)
    (hTo : ts ≤ e.lastCommitTs)
    (hNot : ∀ x, ¬ e.Owns t x)
    (hR : keyIn ((e.db tab).cols i) (e.seenAt t ts ⟨tab, r⟩) = some k)
    (hQ : keyIn ((e.db tab).cols i) (e.seenAt t ts ⟨tab, q⟩) = some k) :
    q = r := by
  rcases hInv.mvcc.agrees with ⟨⟨floor, hConsistent⟩, hRoster⟩
  have hFloor : floor ≤ ts := le_trans (hRoster.le_watermark
      (fun u hRun hM => (hConsistent.starts u hRun hM).1) hConsistent.floorLast) hFrom
  have hSeen : ∀ rid, e.seenAt t ts ⟨tab, rid⟩ = h.valueAt base ts ⟨tab, rid⟩ := fun rid =>
    Engine.seenAt_eq_valueAt hConsistent (fun u => hInv.mvcc.only.not_plainOwns) (hNot _) hFloor
  rw [hSeen, hInv.indexes.cols] at hR hQ
  exact hInv.past tab i ts r q k hTo hR hQ

end AgreesKeys

namespace Recorded

variable {db : Db} {tabCols : TabName → List ColMeta}
variable {ops : List Op} {tr : Recorded}

theorem agreesKeys_init
    (hIndexes : db.IndexExact)
    (hSlots : ∀ tab, (db tab).InSlots) :
    AgreesKeys db.record (fun tab => (db tab).cols)
      (init db tabCols).eng (init db tabCols).hist := by
  have hIdle : ∀ t, ¬ (init db tabCols).eng.Running t := by
    rintro t (hState | ⟨reason, hState⟩)
    · cases hState
    · cases hState
  have hUnique : ∀ tab i r q k, keyIn ((db tab).cols i) (db.record ⟨tab, r⟩) = some k →
      keyIn ((db tab).cols i) (db.record ⟨tab, q⟩) = some k → q = r := fun tab i r q k hR hQ =>
    (hIndexes tab i).eq_of_holder hR hQ
  refine ⟨agreesMvcc_init db tabCols, ⟨?_, fun _ _ => rfl, ?_⟩, ?_⟩
  · intro tab
    refine ⟨hSlots tab, fun t rid hT => absurd hT (hIdle t), ?_, hIndexes tab, hUnique tab,
      fun t i hT => absurd hT (hIdle t), fun t u i r q k hT => absurd hT (hIdle t)⟩
    intro rid entry t hEntry
    cases hEntry
  · intro x entry t hEntry
    cases hEntry
  · intro tab i ts r q k _
    exact hUnique tab i r q k

theorem agreesKeys_run
    {base : Loc → Option RmRecord}
    {layout : TabName → Nat → Option (List ColMeta)}
    {first last : Recorded}
    (hInit : AgreesKeys base layout first.eng first.hist)
    (hOps : ∀ op ∈ ops, op.Mvcc)
    (hOnce : Guarded step (fun tr op => tr.eng.WritesOnce op) first ops)
    (hRun : first.run ops = some last) :
    AgreesKeys base layout last.eng last.hist := by
  refine invariant_of_guarded_run
    (fun tr => AgreesKeys base layout tr.eng tr.hist) ?_ hInit
    ((guarded_of_forall _ hOps).and hOnce) hRun
  intro tr op tr' hInv hGuard hStep
  rcases step_eq_some hStep with ⟨hEng, hHist⟩
  rw [hHist]
  exact hInv.step hGuard.1 hGuard.2 hEng

/- Only MVCC transactions begin and none of them writes a row
  twice. Then in every state of the run an index has exactly
  the keys of the newest versions that are not deleted, and at
  no timestamp from the watermark on a snapshot sees two rows
  with one key. -/
theorem unique_keys
    (hIndexes : db.IndexExact)
    (hSlots : ∀ tab, (db tab).InSlots)
    (hOps : ∀ op ∈ ops, op.Mvcc)
    (hOnce : StepSystem.Guarded step (fun tr op => tr.eng.WritesOnce op)
      (init db tabCols) ops)
    (hRun : (init db tabCols).run ops = some tr) :
    (∀ tab i, KeyMap.Exact ((tr.eng.db tab).entry i) (tr.eng.nowKey tab i)) ∧
    ∀ t, (∀ x, ¬ tr.eng.Owns t x) → ∀ tab i ts r q k,
      tr.eng.runningTxns.watermark ≤ ts → ts ≤ tr.eng.lastCommitTs →
      keyIn ((tr.eng.db tab).cols i) (tr.eng.seenAt t ts ⟨tab, r⟩) = some k →
      keyIn ((tr.eng.db tab).cols i) (tr.eng.seenAt t ts ⟨tab, q⟩) = some k →
      q = r := by
  have hInv := agreesKeys_run (agreesKeys_init hIndexes hSlots) hOps hOnce hRun
  refine ⟨fun tab => (hInv.indexes.keys tab).exact, ?_⟩
  intro t hNot tab i ts r q k hFrom hTo hR hQ
  exact hInv.eq_of_seen hFrom hTo hNot hR hQ

/- The tables with one index are empty at the start. -/
theorem indexedTables_exact : indexedTables.IndexExact ∧
      ∀ tab, (indexedTables tab).InSlots := by
  have hNone : ∀ tab rid, (indexedTables tab).record rid = none := by
    intro tab rid
    unfold Table.record Table.image
    split <;> rfl
  constructor
  · intro tab i k q
    have hHolder : (indexedTables tab).holder i q = none := by
      unfold Table.holder
      rw [hNone, Table.keyIn_none]
    have hEntry : (indexedTables tab).entry i k = none := by
      cases i with
      | zero => rfl
      | succ i => rfl
    simp [hHolder, hEntry]
  · intro tab rid hThere
    exact absurd (hNone tab rid) hThere

/- Two rows; one gets a new key, and a transaction that takes
  the old one fails, as it is in an older version. The other
  row is deleted and its key is taken again; older snapshots
  still see it there. -/
def keysInTurn : List Op :=
  [.begin .snapshotIsolation,
    .insertRow 0 Sys.firstRow [1] [],
    .insertRow 0 Sys.secondRow [2] [], .commit 0,
    .begin .snapshotIsolation, .begin .serializable,
    .updateRow 2 Sys.firstRow [3] [],
    .updateRow 1 Sys.secondRow [1] [], .commit 2,
    .begin .snapshotIsolation, .deleteRow 3 Sys.secondRow [],
    .commit 3, .begin .snapshotIsolation,
    .updateRow 4 Sys.firstRow [2] []]

theorem unique_keys_keysInTurn :
    ∃ tr, (init Sys.indexedTables (fun _ => [])).run keysInTurn = some tr ∧
      tr.eng.state 1 = .failed .mvccConflict ∧
      (tr.eng.db Sys.firstRow.tab).entry 0 [2] = some Sys.firstRow.rid ∧
      tr.eng.seenAt 5 2 Sys.secondRow = some [2] ∧
      tr.eng.nowKey Sys.firstRow.tab 0 Sys.firstRow.rid = some [2] := by
  have hRun : (init indexedTables (fun _ => [])).run keysInTurn = some _ :=
    (Option.some_get (by decide)).symm
  have hOnce : Guarded step (fun tr op => tr.eng.WritesOnce op)
      (init indexedTables (fun _ => [])) keysInTurn := Guarded.mono
      (fun tr op => Engine.writesOnce_of_first) (by decide)
  have hKeys := unique_keys indexedTables_exact.1 indexedTables_exact.2 (by decide) hOnce hRun
  exact ⟨_, hRun, by decide, by decide, by decide,
    (hKeys.1 firstRow.tab 0 [2] firstRow.rid).mp (by decide)⟩

end Recorded

end Rmdb
