import Rmdb.Mvcc.AbortOk

/-
  This file shows that a table may get another heap file or
  other indexes beside the running transactions: if no version
  and no write to take back belongs to a row of the table, state
  and history go on agreeing, the history of the table's rows
  being forgotten.

  Key definitions include:
    * `Engine.Unused`
    * `Engine.Retables`
    * `Hist.forget`

  Key theorems include:
    * `Consistent.retable`
    * `Engine.CanUndo.retable`
-/

namespace Rmdb

open Engine

namespace Engine

/- No running transaction has a part in the table. -/
structure Unused (e : Engine) (tab : TabName) : Prop where
  versions : ∀ x ∈ e.mvccTableKeys, x.tab ≠ tab
  writes : ∀ n < e.nextTxnId, e.Running (n : Int) →
      ∀ w ∈ (e.txn (n : Int)).writeSet, w.loc.tab ≠ tab
  locks : ∀ rid, e.locks ⟨tab, rid⟩ = none ∧ e.sharedLocks ⟨tab, rid⟩ = []

/- Some tables are exchanged, the others keep their rows. -/
structure Retables (gone : TabName → Bool) (e e' : Engine) : Prop where
  rest : ∃ db tabCols, e' = { e with db := db, tabCols := tabCols }
  unused : ∀ tab, gone tab = true → e.Unused tab
  records : ∀ x, gone x.tab = false → e'.db.record x = e.db.record x
  pages : ∀ tab, gone tab = false → (e'.db tab).numPages = (e.db tab).numPages ∧
        (e'.db tab).numRecordsPerPage = (e.db tab).numRecordsPerPage
  slots : ∀ tab, (e'.db tab).InSlots

/- Forget the writes on the rows of some tables. -/
def forget (gone : TabName → Bool) (h : Hist) : Hist :=
  h.restrict (fun x => !gone x.tab)

/- The rows that a history starts with. -/
def rebase
    (gone : TabName → Bool)
    (e : Engine)
    (base : Loc → Option RmRecord) :
    Loc → Option RmRecord :=
  fun x => if gone x.tab then e.db.record x else base x

section Unused

variable {e : Engine} {tab : TabName} {t : TxnId} {x : Loc}

variable (hUnused : e.Unused tab)
include hUnused

theorem Unused.entry
    (hKeys : e.TableKeysOk)
    (hTab : x.tab = tab) :
    e.mvccVersions x = none := by
  by_contra hSome
  exact hUnused.versions x ((hKeys x).mpr hSome) hTab

theorem Unused.not_owns
    (hKeys : e.TableKeysOk)
    (hTab : x.tab = tab) :
    ¬ e.Owns t x := by
  rintro ⟨entry, hEntry, -⟩
  rw [hUnused.entry hKeys hTab] at hEntry
  cases hEntry

theorem Unused.lock (hTab : x.tab = tab) : e.locks x = none := by
  subst hTab
  exact (hUnused.locks x.rid).1

theorem Unused.not_plainOwns (hTab : x.tab = tab) : ¬ e.PlainOwns t x := by
  intro hOwns
  have hLock := hOwns.lock
  rw [hUnused.lock hTab] at hLock
  cases hLock

theorem Unused.not_wrote
    (hIds : ∀ t : TxnId, t < 0 ∨ e.nextTxnId ≤ t → e.txn t = MvccTxn.unused)
    (hRunning : e.Running t)
    (hTab : x.tab = tab) :
    x ∉ (e.txn t).writeSet.map WriteRecord.loc := by
  have hNumber : ∀ i : Int, ¬ (i < 0 ∨ (e.nextTxnId : Int) ≤ i) →
      ∃ n : Nat, n < e.nextTxnId ∧ (n : Int) = i := by
    intro i hI
    exact ⟨i.toNat, by omega, by omega⟩
  have hIn : ¬ (t < 0 ∨ e.nextTxnId ≤ t) := fun hOut => not_running_of_unused (hIds t hOut) hRunning
  rcases hNumber t hIn with ⟨n, hN, rfl⟩
  intro hMem
  rcases List.mem_map.mp hMem with ⟨w, hW, rfl⟩
  exact hUnused.writes n hN hRunning w hW hTab

end Unused

end Engine

------------
-- State And History
------------

namespace Consistent

variable {base : Loc → Option RmRecord} {floor : Int}
variable {e e' : Engine} {h : Hist} {gone : TabName → Bool}
variable {x : Loc}

theorem timeline_forget (hKept : gone x.tab = false) :
    timeline (rebase gone e' base) (forget gone h) x = timeline base h x := by
  unfold timeline forget
  congr 1
  · funext ts
    rw [VersionHistory.History.valueAt_restrict (by simp [hKept])]
    simp [VersionHistory.History.valueAt, rebase, hKept]
  · funext c
    rw [VersionHistory.History.stampedAt_restrict]
    simp [hKept]

/- A row of a table with a new heap file. -/
theorem settled_new
    (floor last : Int)
    (base : Loc → Option RmRecord)
    (h : Hist)
    (e' : Engine)
    (hGone : gone x.tab = true) :
    Settled floor last (timeline (rebase gone e' base) (forget gone h) x)
      (e'.db.record x) none := by
  have hValue : ∀ ts, (timeline (rebase gone e' base)
        (forget gone h) x).value ts = e'.db.record x := by
    intro ts
    refine (VersionHistory.History.valueAt_restrict_of_not (by simp [hGone])).trans ?_
    simp [rebase, hGone]
  refine ⟨fun ts _ => hValue ts, ?_, ?_, ?_⟩
  · intro hNone ts _
    rw [hValue ts, hNone]
  · intro c hC
    have hStamped := VersionHistory.History.stampedAt_restrict.mp hC
    simp [hGone] at hStamped
  · intro en hEntry
    cases hEntry

theorem retable
    (hInv : Consistent base floor none e h)
    (hNew : Retables gone e e') :
    Consistent (rebase gone e' base) floor none e' (forget gone h) := by
  have hUnused := hNew.unused
  have hRecords := hNew.records
  rcases hNew.rest with ⟨db, tabCols, rfl⟩
  have hKept : ∀ t x, e.Owns t x ∨ e.PlainOwns t x → gone x.tab = false := by
    intro t x hOwner
    cases hGone : gone x.tab with
    | false => rfl
    | true =>
      rcases hOwner with hOwns | hPlain
      · exact absurd hOwns ((hUnused x.tab hGone).not_owns hInv.tableKeys rfl)
      · exact absurd hPlain ((hUnused x.tab hGone).not_plainOwns rfl)
  have hPlainOwns : ∀ t x, PlainOwns { e with db := db, tabCols := tabCols } t x →
      e.PlainOwns t x := fun t x => PlainOwns.congr (Eq.refl (e.txn t)) id
  refine ⟨hInv.floorStart, hInv.floorLast, hInv.ids, hInv.starts,
    hInv.tableKeys, hInv.locks, ?_, ?_, ?_, ?_, ?_⟩
  · intro t hRunning
    exact (hInv.sets t hRunning).congr (Eq.refl (e.txn t)) (fun _ => id) (fun _ => id)
      (fun _ => id)
  · intro t u hPlain hRunning
    exact hInv.alone t u ⟨hPlain.running, hPlain.level, hPlain.keys, hPlain.writes⟩ hRunning
  · intro x t hOwns hNot
    have hPresent := hInv.present x t hOwns hNot
    refine ⟨?_, hPresent.2⟩
    rw [hRecords x (hKept t x (Or.inl hOwns))]
    exact hPresent.1
  · intro x
    have hRow := hInv.rows x
    cases hGone : gone x.tab with
    | false =>
      refine ⟨?_, hRow.owner, ?_, ?_⟩
      · intro entry t hEntry hWriter
        rw [timeline_forget hGone]
        exact hRow.owned entry t hEntry hWriter
      · intro hNone
        rw [timeline_forget hGone]
        have hPre : pre { e with db := db, tabCols := tabCols } x = e.pre x := by
          unfold pre
          rw [hRecords x hGone]
        rw [hPre]
        exact hRow.settled hNone
      · intro t hPlain
        exact hRow.live t (hPlainOwns t x hPlain)
    | true =>
      have hTab := hUnused x.tab hGone
      have hNone : e.mvccVersions x = none := hTab.entry hInv.tableKeys rfl
      refine ⟨?_, hRow.owner, ?_, ?_⟩
      · intro entry t hEntry
        cases hEntry.symm.trans hNone
      · intro _
        have hPre : pre { e with db := db, tabCols := tabCols } x = db.record x := by
          have hFree : e.locks x = none := hTab.lock rfl
          unfold pre
          simp only [hFree]
        rw [hPre]
        have hSettled := settled_new floor e.lastCommitTs base h
          { e with db := db, tabCols := tabCols } hGone
        rw [← hNone] at hSettled
        exact hSettled
      · intro t hPlain
        exact absurd (hPlainOwns t x hPlain) (hTab.not_plainOwns rfl)
  · have hHist := hInv.hist
    have hSub : ∀ w ∈ (forget gone h).writes, w ∈ h.writes :=
      fun w hW => (List.mem_filter.mp hW).1
    refine ⟨fun w hW => hHist.began w (hSub w hW),
      fun w hW => hHist.state w (hSub w hW), hHist.stamped, hHist.committed, ?_, ?_, ?_⟩
    · intro w hW hRunning
      rcases hHist.owns w (hSub w hW) hRunning with hOwns | hPlain
      · exact Or.inl hOwns
      · exact Or.inr (hPlain.congr (Eq.refl (e.txn w.txn)) id)
    · intro t x hGrowing hOwner
      have hOld : e.Owns t x ∨ e.PlainOwns t x := by
        rcases hOwner with hOwns | hPlain
        · exact Or.inl hOwns
        · exact Or.inr (hPlainOwns t x hPlain)
      have hGone := hKept t x hOld
      have hNewest : newest { e with db := db, tabCols := tabCols } x = e.newest x := by
        unfold newest
        rw [hRecords x hGone]
      rw [hNewest]
      refine (VersionHistory.History.latest_restrict (by simp [hGone])).trans ?_
      exact hHist.tops t x hGrowing hOld
    · exact hHist.order.filter _

end Consistent

theorem Agrees.retable
    {base : Loc → Option RmRecord}
    {e e' : Engine}
    {h : Hist}
    {gone : TabName → Bool}
    (hAgrees : Agrees base e h)
    (hNew : Retables gone e e') :
    Agrees (rebase gone e' base) e' (forget gone h) := by
  rcases hAgrees with ⟨⟨floor, hInv⟩, hRoster⟩
  refine ⟨⟨floor, hInv.retable hNew⟩, ?_⟩
  rcases hNew.rest with ⟨db, tabCols, rfl⟩
  rcases hRoster with ⟨l, hL⟩
  exact ⟨l, hL.nodup, hL.mem, hL.count, hL.reads, hL.ok, hL.commit⟩

------------
-- Rollback
------------

namespace Engine

theorem CanUndo.retable
    {e e' : Engine}
    {gone : TabName → Bool}
    (hUndo : e.CanUndo)
    (hIds : ∀ t : TxnId, t < 0 ∨ e.nextTxnId ≤ t → e.txn t = MvccTxn.unused)
    (hNew : Retables gone e e') :
    e'.CanUndo := by
  have hUnused := hNew.unused
  have hRecords := hNew.records
  have hPages := hNew.pages
  have hSlots := hNew.slots
  rcases hNew.rest with ⟨db, tabCols, rfl⟩
  have hOther : ∀ t, e.Running t → ∀ x ∈ (e.txn t).writeSet.map WriteRecord.loc,
        gone x.tab = false := by
    intro t hRunning x hMem
    cases hGone : gone x.tab with
    | false => rfl
    | true => exact absurd hMem ((hUnused x.tab hGone).not_wrote hIds hRunning rfl)
  refine ⟨hSlots, ?_, ?_⟩
  · intro t hRunning hVersions w hW hActs
    have hGone := hOther t hRunning w.loc (List.mem_map_of_mem hW)
    rcases hUndo.places t hRunning hVersions w hW hActs with ⟨hPage, hSlot⟩
    rcases hPages w.loc.tab hGone with ⟨hNum, hPer⟩
    refine ⟨⟨hPage.1, ?_⟩, hSlot.1, ?_⟩
    · rw [hNum]
      exact hPage.2
    · rw [hPer]
      exact hSlot.2
  · intro t hRunning hVersions x
    cases hGone : gone x.tab with
    | false =>
      rw [hRecords x hGone]
      exact hUndo.undo t hRunning hVersions x
    | true => exact stacked_of_not_mem ((hUnused x.tab hGone).not_wrote hIds hRunning rfl)

end Engine

end Rmdb
