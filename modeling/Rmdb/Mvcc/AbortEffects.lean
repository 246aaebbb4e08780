import Rmdb.Mvcc.AbortOk
import Rmdb.Mvcc.PlainRuns

/-
  This file says what the abort of a transaction leaves, in a
  run in which transactions with and without versions take
  part.  Its rows get their last committed values and all
  other rows stay as they are.  The indexes of a table stay
  exact if no other row has a key that one of its rows gets
  back when the turn of that row comes.

  Key definitions include:
    * `Engine.HasWrites`
    * `Engine.IndexesExact`
    * `Engine.KeysReturn`

  Key theorems include:
    * `Consistent.abort_own`
    * `Consistent.abort_other`
    * `Consistent.abort_keys`
-/

namespace Rmdb

open List KeyMap

------------
-- The Rows
------------

namespace Engine

/- A row with writes of a transaction to take back. -/
def HasWrites (e : Engine) (t : TxnId) (x : Loc) : Prop :=
  x ∈ (e.txn t).writeSet.map WriteRecord.loc ∧
    (e.Owns t x ∨ e.locks x = some t)

end Engine

namespace Consistent

variable {base : Loc → Option RmRecord} {floor : Int}
variable {e e' : Engine} {h : Hist} {t : TxnId} {x : Loc}

/- Other rows keep their records and versions. -/
theorem abort_other
    (hInv : Consistent base floor none e h)
    (hRunning : e.Running t)
    (hRun : e.abort t = some e')
    (hNot : ¬ e.HasWrites t x) :
    e'.db.record x = e.db.record x ∧ e'.mvccVersions x = e.mvccVersions x := by
  rcases Engine.abort_cases hRun with ⟨-, e₁, hBack, hEnds⟩ | ⟨hVersions, e₁, hBack, hEnds⟩
  · rw [hEnds.db, hEnds.versions]
    refine ((Engine.abortWrites_spec hBack).2 x).2 ?_
    intro hMem _ hOwns
    exact hNot ⟨hMem, Or.inl hOwns⟩
  · rcases Engine.rollbackWrites_spec hBack with ⟨-, hVersion, hRows⟩
    rw [hEnds.db, hEnds.versions]
    refine ⟨(hRows x).trans ?_, congrFun hVersion x⟩
    by_cases hMem : x ∈ (e.txn t).writeSet.map WriteRecord.loc
    · refine hInv.undone_unlocked hRunning ?_ ?_ _
      · exact fun hLock => hNot ⟨hMem, Or.inr hLock⟩
      · exact fun hOwns => hNot ⟨hMem, Or.inl hOwns⟩
    · exact Engine.undone_of_not_mem hMem

/- The newest version of a settled row is the last commit. -/
theorem newest_of_settled
    (hSettled : Settled floor e.lastCommitTs (timeline base h x)
      (e.db.record x) (e.mvccVersions x))
    (hFloor : floor ≤ e.lastCommitTs) :
    e.newest x = h.valueAt base e.lastCommitTs x := by
  have hRead : h.valueAt base e.lastCommitTs x = readAt (e.db.record x) (e.mvccVersions x)
        e.lastCommitTs := hSettled.reads _ hFloor
  rw [hRead]
  unfold Engine.newest
  cases hEntry : e.mvccVersions x with
  | none => rfl
  | some entry =>
    have hOk := hSettled.entryOk entry hEntry
    simp [readAt, hOk.writer, hOk.commit]

/- A transaction without versions has locked its rows. -/
theorem plainOwns_of_hasWrites
    (hInv : Consistent base floor none e h)
    (hRunning : e.Running t)
    (hVersions : e.hasVersions t = false)
    (hWrites : e.HasWrites t x) :
    e.PlainOwns t x := by
  rcases Engine.hasVersions_eq_false.mp hVersions with ⟨hLevel, hKeys⟩
  rcases hWrites.2 with hOwns | hLock
  · exact absurd hOwns (hInv.not_owns_of_plain hVersions x)
  · refine ⟨⟨hRunning, hLevel, hKeys, ?_⟩, hLock, hWrites.1⟩
    intro hNil
    have hMem := hWrites.1
    rw [hNil] at hMem
    cases hMem

/- The rows of the transaction get their committed values. -/
theorem abort_own
    (hInv : Consistent base floor none e h)
    (hRunning : e.Running t)
    (hRun : e.abort t = some e')
    (hWrites : e.HasWrites t x) :
    e'.newest x = h.valueAt base e.lastCommitTs x := by
  have hAfter := hInv.abort (Or.inl rfl) hRunning hRun
  have hEnd := hInv.finishes_of_abort hRunning hRun
  have hLast : e'.lastCommitTs = e.lastCommitTs := by
    rcases Engine.ends_of_abort hRun with ⟨e₁, hUnwinds, hEnds⟩
    rw [hEnds.lastCommitTs, hUnwinds.lastCommitTs]
  -- the row has an owner before, so it has none afterwards
  have hMine : e.Owns t x ∨ e.PlainOwns t x := by
    cases hVersions : e.hasVersions t with
    | true =>
      rcases List.mem_map.mp hWrites.1 with ⟨w, hW, rfl⟩
      exact Or.inl ((hInv.sets t hRunning).versioned hVersions w hW)
    | false => exact Or.inr (hInv.plainOwns_of_hasWrites hRunning hVersions hWrites)
  have hNone : ∀ u, ¬ e'.Owns u x := by
    intro u hOwns
    rcases (hEnd.owns u x).mp hOwns with ⟨hU, hBefore⟩
    rcases hMine with hT | hT
    · exact hU (hBefore.unique hT)
    · exact ((hInv.rows x).live t hT).1 u hBefore
  have hFree : ∀ u, ¬ e'.PlainOwns u x := by
    intro u hOwns
    rcases hEnd.plainOwns_iff.mp hOwns with ⟨hU, hBefore⟩
    rcases hMine with hT | hT
    · exact ((hInv.rows x).live u hBefore).1 t hT
    · exact hU (hBefore.unique hT)
  have hSettled := (hAfter.rows x).settled hNone
  rw [hAfter.pre_eq hFree hNone] at hSettled
  rw [← hLast]
  exact newest_of_settled hSettled hAfter.floorLast

end Consistent

------------
-- The Indexes
------------

namespace Engine

/- The indexes of a table have the keys of the newest versions. -/
def IndexesExact (e : Engine) (tab : TabName) : Prop :=
  ∀ i, Exact ((e.db tab).entry i) (e.nowKey tab i)

/- When an abort takes a row back, no other row has the key that
  the row gets back or, with versions, the key that it loses. -/
def KeysReturn (e : Engine) (t : TxnId) (tab : TabName) : Prop :=
  if e.hasVersions t then
    ∀ i, Retractable ((e.db tab).entry i) (e.nowKey tab i)
      (e.wasKey tab i) (e.lostKey tab i) (e.rowsOf t tab) []
  else
    InsertsOnce (e.txn t).writeSet ∧
      ∀ i, Undoable (e.nowKey tab i) (e.plainItems t tab i)

/- Among READ COMMITTED transactions the keys always return. -/
theorem RcOk.keysReturn
    {e : Engine}
    {t : TxnId}
    (hOk : e.RcOk)
    (hRunning : e.Running t)
    (tab : TabName) :
    e.IndexesExact tab ∧ e.KeysReturn t tab := by
  have hNow : ∀ i, e.nowKey tab i = e.lostKey tab i := by
    intro i
    funext rid
    unfold nowKey lostKey newest
    rw [hOk.only.versions]
    rfl
  refine ⟨fun i => ?_, ?_⟩
  · rw [hNow]
    exact hOk.keys.exact tab i
  · unfold KeysReturn
    rw [hOk.only.hasVersions t, if_neg (by simp)]
    refine ⟨hOk.keys.once t hRunning, fun i => ?_⟩
    rw [hNow]
    exact hOk.keys.undo t tab i hRunning

end Engine

namespace Consistent

open Engine

variable {base : Loc → Option RmRecord} {floor : Int}
variable {e e₁ e' : Engine} {h : Hist} {t : TxnId}
variable {tab : TabName} {x : Loc}

/- A row whose newest version has not been deleted. -/
theorem newest_of_live
    (hLive : ∀ entry, e.mvccVersions x = some entry →
      entry.isDeleted = false) :
    e.newest x = e.db.record x := by
  unfold newest
  rw [if_neg]
  intro hAny
  rcases (Option.any_eq_true _ _).mp hAny with ⟨entry, hEntry, hDeleted⟩
  cases (hLive entry hEntry).symm.trans hDeleted

/- The versions of a transaction are taken back. -/
theorem abort_versions_keys
    (hInv : Consistent base floor none e h)
    (hRunning : e.Running t)
    (hRun : e.abort t = some e')
    (hVersions : e.hasVersions t = true)
    (hBack : abortWrites t (e.txn t).writeSet [] e = some e₁)
    (hEnds : Ends t e₁ e')
    (hRows : ∀ i, Retractable ((e.db tab).entry i) (e.nowKey tab i)
      (e.wasKey tab i) (e.lostKey tab i) (e.rowsOf t tab) []) :
    e'.IndexesExact tab := by
  have hOwned : ∀ rid ∈ e.rowsOf t tab, e.Owns t ⟨tab, rid⟩ := by
    intro rid hMem
    rcases mem_map.mp (mem_rowsOf.mp hMem) with ⟨w, hW, hLoc⟩
    rw [← hLoc]
    exact (hInv.sets t hRunning).versioned hVersions w hW
  rcases retract_abortWrites (unwinding_of_rows hInv hOwned hRows) hBack
    with ⟨hCols, hExact⟩
  rw [← rowsOf_eq_ridsIn] at hExact
  intro i
  have hNow : e'.nowKey tab i =
      retracted (e.nowKey tab i) (e.wasKey tab i) (e.rowsOf t tab) [] := by
    funext rid
    unfold retracted nowKey wasKey
    rw [hEnds.db, hCols]
    by_cases hMem : rid ∈ e.rowsOf t tab
    · have hOwns := hOwned rid hMem
      rw [if_pos ⟨hMem, by simp⟩,
        hInv.abort_own hRunning hRun ⟨mem_rowsOf.mp hMem, Or.inl hOwns⟩,
        committedHead_eq_valueAt hInv
          (fun u hPlain => ((hInv.rows _).live u hPlain).1 t hOwns)]
    · rw [if_neg (fun hBad => hMem hBad.1)]
      rcases hInv.abort_other hRunning hRun
        (fun hWrites => hMem (mem_rowsOf.mpr hWrites.1))
        with ⟨hRecord, hEntry⟩
      rw [(committedHead_congr hRecord hEntry).1]
  rw [hNow, hEnds.db]
  exact hExact i

/- The records of a transaction without versions come back. -/
theorem abort_plain_keys
    (hInv : Consistent base floor none e h)
    (hRunning : e.Running t)
    (hRun : e.abort t = some e')
    (hVersions : e.hasVersions t = false)
    (hBack : rollbackWrites t (e.txn t).writeSet e = some e₁)
    (hEnds : Ends t e₁ e')
    (hExact : e.IndexesExact tab)
    (hOnce : InsertsOnce (e.txn t).writeSet)
    (hUndo : ∀ i, Undoable (e.nowKey tab i) (e.plainItems t tab i)) :
    e'.IndexesExact tab := by
  have hActs : ∀ w ∈ (e.txn t).writeSet,
      actsOn t (e.physicalInsertOwners w.loc) w → e.PlainOwns t w.loc :=
    fun w => CanUndo.plainOwns_of_acts hInv hRunning hVersions
  rcases @undo_rollbackWrites _ _ _ tab _ _
    (fun rid => e.PlainOwns t ⟨tab, rid⟩) _ hOnce (fun _ => rfl) hExact
    (fun i rid hPlain => by
      unfold nowKey
      rw [newest_of_live ((hInv.rows _).live t hPlain).2])
    (fun w hW hTab hA => by
      rw [← hTab]
      exact hActs w hW hA) hUndo hBack with ⟨hCols, hKeys⟩
  have hVersion : e'.mvccVersions = e.mvccVersions :=
    hEnds.versions.trans (rollbackWrites_spec hBack).2.1
  intro i
  have hNow : e'.nowKey tab i =
      undoneKeys (e.nowKey tab i) (e.plainItems t tab i) := by
    funext rid
    by_cases hPlain : e.PlainOwns t ⟨tab, rid⟩
    · have hLive := ((hInv.rows _).live t hPlain).2
      rw [← hVersion] at hLive
      unfold nowKey
      rw [newest_of_live hLive, hEnds.db, hCols]
      exact ((hKeys i).2 rid hPlain).symm
    · have hNot : ∀ old, (rid, old) ∉ e.plainItems t tab i := by
        intro old hMem
        rcases mem_undoItems.mp hMem with ⟨w, hW, hLoc, hA, -⟩
        exact hPlain (hLoc ▸ hActs w hW hA)
      rcases hInv.abort_other hRunning hRun
        (fun hWrites => hPlain
          (hInv.plainOwns_of_hasWrites hRunning hVersions hWrites))
        with ⟨hRecord, hEntry⟩
      rw [undoneKeys_of_not_mem hNot]
      unfold nowKey
      rw [(committedHead_congr hRecord hEntry).1, hEnds.db, hCols]
  rw [hNow, hEnds.db]
  exact (hKeys i).1

/- The indexes have the keys of the newest versions again. -/
theorem abort_keys
    (hInv : Consistent base floor none e h)
    (hRunning : e.Running t)
    (hRun : e.abort t = some e')
    (hExact : e.IndexesExact tab)
    (hReturn : e.KeysReturn t tab) :
    e'.IndexesExact tab := by
  unfold KeysReturn at hReturn
  rcases abort_cases hRun with
    ⟨hVersions, e₁, hBack, hEnds⟩ | ⟨hVersions, e₁, hBack, hEnds⟩
  · rw [if_pos hVersions] at hReturn
    exact hInv.abort_versions_keys hRunning hRun hVersions hBack hEnds hReturn
  · rw [if_neg (by simp [hVersions])] at hReturn
    exact hInv.abort_plain_keys hRunning hRun hVersions hBack hEnds hExact
      hReturn.1 hReturn.2

end Consistent

end Rmdb
