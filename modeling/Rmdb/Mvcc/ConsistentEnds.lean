import Rmdb.Mvcc.ConsistentWrites

/-
  This file shows that the ends of transactions, garbage
  collection and the begin of a transaction keep the state
  consistent with the history.

  Key definitions include:
    * `Engine.Finishes`

  Key theorems include:
    * `Consistent.abort`
    * `Consistent.commit`
    * `Consistent.collect`
    * `Consistent.begin`
-/

namespace Rmdb

open Function Option

namespace Engine

------------
-- What The End Of A Transaction Leaves Alone
------------

/- A transaction ends; the others go on. -/
structure Leaves (t : TxnId) (e e' : Engine) : Prop where
  running : e.Running t
  ended : ¬ e'.Running t
  others : ∀ u, u ≠ t → e'.txn u = e.txn u
  level : e'.isMvccTxn t = e.isMvccTxn t
  start : e'.startTs t = e.startTs t

/- What happens to the rows and the locks. -/
structure Finishes
    (t : TxnId)
    (e e' : Engine) :
    Prop extends Leaves t e e' where
  began : e'.state t ≠ .default
  nextTxnId : e'.nextTxnId = e.nextTxnId
  locks : ∀ y, e'.locks y =
      if e.locks y = some t then none else e.locks y
  owners : ∀ y, e'.physicalInsertOwners y = e.physicalInsertOwners y ∨
      e.physicalInsertOwners y = some t ∧ e'.physicalInsertOwners y = none
  tableKeys : e.TableKeysOk → e'.TableKeysOk
  owns : ∀ u x, e'.Owns u x ↔ u ≠ t ∧ e.Owns u x
  kept : ∀ u x, u ≠ t → e.Owns u x ∨ e.PlainOwns u x → e'.db.record x = e.db.record x ∧
        e'.mvccVersions x = e.mvccVersions x

section Finishes

variable {e e' : Engine} {t u : TxnId} {x : Loc}

theorem Leaves.ne_of_running
    (hEnd : Leaves t e e')
    (hRunning : e'.Running u) :
    u ≠ t := by
  rintro rfl
  exact hEnd.ended hRunning

theorem Leaves.state_other
    (hEnd : Leaves t e e')
    (hU : u ≠ t) :
    e'.state u = e.state u :=
  state_congr (hEnd.others u hU)

theorem Leaves.running_iff
    (hEnd : Leaves t e e')
    (hU : u ≠ t) :
    e'.Running u ↔ e.Running u :=
  running_congr (hEnd.others u hU)

theorem Leaves.mvcc
    (hEnd : Leaves t e e')
    (u : TxnId) :
    e'.isMvccTxn u = e.isMvccTxn u := by
  by_cases hU : u = t
  · rw [hU, hEnd.level]
  · exact isMvccTxn_congr (hEnd.others u hU)

theorem Leaves.startTs
    (hEnd : Leaves t e e')
    (u : TxnId) :
    e'.startTs u = e.startTs u := by
  by_cases hU : u = t
  · rw [hU, hEnd.start]
  · exact startTs_congr (hEnd.others u hU)

variable (hEnd : Finishes t e e')
include hEnd

theorem Finishes.lock_iff (hU : u ≠ t) :
    e'.locks x = some u ↔ e.locks x = some u := by
  rw [hEnd.locks x]
  by_cases hMine : e.locks x = some t
  · rw [if_pos hMine, hMine]
    simp [Ne.symm hU]
  · rw [if_neg hMine]

theorem Finishes.plain_iff (hU : u ≠ t) : e'.Plain u ↔ e.Plain u :=
  plain_congr (hEnd.others u hU)

theorem Finishes.plainOwns_iff :
    e'.PlainOwns u x ↔ u ≠ t ∧ e.PlainOwns u x := by
  constructor
  · intro hPlain
    have hU := hEnd.ne_of_running hPlain.plain.running
    exact ⟨hU, (plainOwns_congr (hEnd.others u hU) (hEnd.lock_iff hU)).mp hPlain⟩
  · rintro ⟨hU, hPlain⟩
    exact (plainOwns_congr (hEnd.others u hU) (hEnd.lock_iff hU)).mpr hPlain

theorem Finishes.owner_iff :
    e'.Owns u x ∨ e'.PlainOwns u x ↔ u ≠ t ∧
      (e.Owns u x ∨ e.PlainOwns u x) := by
  rw [hEnd.owns, hEnd.plainOwns_iff, and_or_left]

theorem Finishes.setOk (hU : u ≠ t) (hSet : e.SetOk u) : e'.SetOk u := by
  refine hSet.congr (hEnd.others u hU) (fun y hY => (hEnd.owns u y).mpr ⟨hU, hY⟩)
    (fun y => (hEnd.lock_iff hU).mpr) ?_
  intro y hMine
  rcases hEnd.owners y with hSame | ⟨-, hNone⟩
  · exact hSame.symm.trans hMine
  · cases hNone.symm.trans hMine

/- Rows that the transaction has locked. -/
theorem Finishes.pre_released (hLock : e.locks x = some t) :
    e'.pre x = e'.db.record x := by
  unfold pre
  rw [hEnd.locks x, if_pos hLock]

/- Rows that it has not locked. -/
theorem Finishes.pre_other (hLock : e.locks x ≠ some t)
    (hRecord : e'.db.record x = e.db.record x) : e'.pre x = e.pre x := by
  unfold pre
  rw [hEnd.locks x, if_neg hLock]
  cases hHolder : e.locks x with
  | none => exact hRecord
  | some u =>
    have hU : u ≠ t := fun hU => hLock (by rw [hHolder, hU])
    simp only [hEnd.others u hU, hRecord]
    rcases hEnd.owners x with hSame | ⟨hMine, hNone⟩
    · rw [hSame]
    · apply undone_owner_congr
      · rw [hNone]
        simp
      · rw [hMine]
        exact fun h => hU (some.inj h).symm

end Finishes

end Engine

namespace Consistent

open VersionHistory

variable {base : Loc → Option RmRecord} {floor floor' : Int}
variable {rejected : Option TxnId}
variable {e e' : Engine} {h h' : Hist} {t u : TxnId} {x : Loc}

theorem not_owns_of_others
    (hOthers : ∀ u, u ≠ t → ¬ e.Owns u x)
    (hT : ¬ e.Owns t x)
    (u : TxnId) :
    ¬ e.Owns u x := by
  by_cases hU : u = t
  · rw [hU]
    exact hT
  · exact hOthers u hU

/- A row that the transaction does not own keeps its owner. -/
theorem owns_of_kept
    (hVersion : e'.mvccVersions x = e.mvccVersions x)
    (hT : ¬ e.Owns t x) :
    e'.Owns u x ↔ u ≠ t ∧ e.Owns u x := by
  rw [Engine.owns_congr hVersion]
  exact ⟨fun hOwns => ⟨fun hU => hT (hU ▸ hOwns), hOwns⟩, fun hOwns => hOwns.2⟩

------------
-- Abort
------------

theorem not_running_of_state
    {st : TxnState}
    (hState : e.state t = st)
    (hEnded : st = .committed ∨ st = .aborted) :
    ¬ e.Running t := by
  unfold Engine.Running
  rw [hState]
  rcases hEnded with rfl | rfl <;> simp

theorem not_plain_of_versions (hVersions : e.hasVersions t = true) :
    ¬ e.Plain t := by
  intro hPlain
  have hNot := Engine.hasVersions_eq_false.mpr ⟨hPlain.level, hPlain.keys⟩
  cases hVersions.symm.trans hNot

variable {e₁ : Engine}

theorem leaves_of_ends
    (hRunning : e.Running t)
    (hUnwinds : Engine.Unwinds t e e₁)
    (hEnds : Engine.Ends t e₁ e') :
    Engine.Leaves t e e' := by
  refine ⟨hRunning, not_running_of_state hEnds.state (Or.inr rfl), ?_, ?_, ?_⟩
  · intro u hU
    rw [hEnds.others u hU, hUnwinds.txn]
  · unfold Engine.isMvccTxn
    rw [hEnds.level, hUnwinds.txn]
  · unfold Engine.startTs
    rw [hEnds.startTs, hUnwinds.txn]

/- The fields that both kinds of abort treat alike. -/
theorem finishes_of_ends
    (hRunning : e.Running t)
    (hUnwinds : Engine.Unwinds t e e₁)
    (hEnds : Engine.Ends t e₁ e')
    (hOwns : ∀ u x, e'.Owns u x ↔ u ≠ t ∧ e.Owns u x)
    (hKept : ∀ u x, u ≠ t → e.Owns u x ∨ e.PlainOwns u x →
      e'.db.record x = e.db.record x ∧
          e'.mvccVersions x = e.mvccVersions x) :
    Engine.Finishes t e e' := by
  refine ⟨leaves_of_ends hRunning hUnwinds hEnds, ?_, ?_, ?_, ?_, ?_, hOwns, hKept⟩
  · rw [hEnds.state]
    simp
  · rw [hEnds.nextTxnId, hUnwinds.nextTxnId]
  · intro y
    rw [hEnds.locks y]
    rcases hUnwinds.locks y with hSame | ⟨hMine, hNone⟩
    · rw [hSame]
    · rw [hMine, hNone]
      simp
  · intro y
    rw [hEnds.owners]
    exact hUnwinds.owners y
  · intro hOk
    have hOk₁ := hUnwinds.tableKeys hOk
    intro y
    rw [hEnds.tableKeys, hEnds.versions]
    exact hOk₁ y

/- Places that the committed transaction has not written. -/
theorem timeline_stamp
    (base : Loc → Option RmRecord)
    (hOwn : h.own t x = none)
    (c : Int) :
    (∀ ts, (timeline base (h.stamp t c) x).value ts =
      (timeline base h x).value ts) ∧
      ∀ d, (timeline base (h.stamp t c) x).stamped d →
      (timeline base h x).stamped d := by
  constructor
  · intro ts
    exact History.valueAt_stamp_of_own_none hOwn base ts c
  · intro d hD
    rcases History.stampedAt_stamp hD with hOld | ⟨-, hNew⟩
    · exact hOld
    · exact absurd hOwn hNew

variable (hInv : Consistent base floor rejected e h)
include hInv

theorem of_finishes
    (hRejected : rejected = none ∨ rejected = some t)
    (hEnd : Engine.Finishes t e e')
    (hStart : 0 ≤ floor')
    (hFloor : floor' ≤ e'.lastCommitTs)
    (hLast : e.lastCommitTs ≤ e'.lastCommitTs)
    (hStarts : ∀ u, u ≠ t → e.Running u → e.isMvccTxn u = true →
      floor' ≤ e.startTs u)
    (hRows : ∀ x, RowOk base floor' e' h' x)
    (hHist : HistOk e' h') :
    Consistent base floor' none e' h' := by
  refine ⟨hStart, hFloor, ?_, ?_, hEnd.tableKeys hInv.tableKeys, ?_, ?_, ?_, ?_, hRows, hHist⟩
  · intro u hU
    rw [hEnd.nextTxnId] at hU
    have hUnused := hInv.ids u hU
    have hOther : u ≠ t := by
      rintro rfl
      exact Engine.not_running_of_unused hUnused hEnd.running
    rw [hEnd.others u hOther]
    exact hUnused
  · intro u hRunning hMvcc
    have hU := hEnd.ne_of_running hRunning
    have hBefore := (hEnd.running_iff hU).mp hRunning
    rw [hEnd.mvcc] at hMvcc
    rw [hEnd.startTs]
    exact ⟨hStarts u hU hBefore hMvcc, le_trans (hInv.starts u hBefore hMvcc).2 hLast⟩
  · intro y u hLock
    have hU : u ≠ t := by
      rintro rfl
      rw [hEnd.locks y] at hLock
      split at hLock
      · cases hLock
      · rename_i hNot
        exact hNot hLock
    rw [hEnd.mvcc, hEnd.running_iff hU]
    exact hInv.locks y u ((hEnd.lock_iff hU).mp hLock)
  · intro u hRunning
    have hU := hEnd.ne_of_running hRunning
    exact hEnd.setOk hU (hInv.sets u ((hEnd.running_iff hU).mp hRunning))
  · intro u v hPlain hRunning
    have hU := hEnd.ne_of_running hPlain.running
    have hV := hEnd.ne_of_running hRunning
    rw [hEnd.mvcc]
    exact hInv.alone u v ((hEnd.plain_iff hU).mp hPlain) ((hEnd.running_iff hV).mp hRunning)
  · intro y u hOwns _
    rcases (hEnd.owns u y).mp hOwns with ⟨hU, hBefore⟩
    have hNot : rejected ≠ some u := by
      rcases hRejected with rfl | rfl
      · simp
      · exact fun h => hU (some.inj h).symm
    rw [(hEnd.kept u y hU (Or.inl hBefore)).1, hEnd.mvcc, hEnd.lock_iff hU]
    exact hInv.present y u hBefore hNot

/- The parts of a row that do not depend on its history. -/
theorem row_of_finishes (hEnd : Engine.Finishes t e e')
    (hOwned : ∀ entry u, u ≠ t → e.mvccVersions x = some entry →
      entry.writerTxn = some u →
          Owned floor' e'.lastCommitTs (timeline base h' x) u entry)
    (hSettled : (∀ u, u ≠ t → ¬ e.Owns u x) →
      Settled floor' e'.lastCommitTs (timeline base h' x)
          (e'.pre x) (e'.mvccVersions x)) : RowOk base floor' e' h' x := by
  constructor
  · intro entry u hEntry hWriter
    rcases (hEnd.owns u x).mp ⟨entry, hEntry, hWriter⟩ with ⟨hU, hBefore⟩
    rw [(hEnd.kept u x hU (Or.inl hBefore)).2] at hEntry
    exact hOwned entry u hU hEntry hWriter
  · intro u hOwns
    rcases (hEnd.owns u x).mp hOwns with ⟨hU, hBefore⟩
    rw [hEnd.others u hU, hEnd.running_iff hU]
    exact (hInv.rows x).owner u hBefore
  · intro hNone
    apply hSettled
    intro u hU hOwns
    exact hNone u ((hEnd.owns u x).mpr ⟨hU, hOwns⟩)
  · intro u hPlain
    rcases hEnd.plainOwns_iff.mp hPlain with ⟨hU, hBefore⟩
    rcases (hInv.rows x).live u hBefore with ⟨hNone, hLive⟩
    constructor
    · intro v hV
      exact hNone v ((hEnd.owns v x).mp hV).2
    · rw [(hEnd.kept u x hU (Or.inr hBefore)).2]
      exact hLive

/- The parts of a history that do not depend on how the
  transaction ends. -/
theorem hist_of_finishes
    {stamps : TxnId → Option Int}
    (hEnd : Engine.Finishes t e e')
    (hStamped : ∀ u c, stamps u = some c → e'.state u = .committed ∧
      c ≤ e'.lastCommitTs)
    (hCommitted : ∀ u, e'.state u = .committed → ∃ c, stamps u = some c ∧
      (e'.isMvccTxn u = true → c = (e'.txn u).commitTs))
    (hOrder : h.writes.Pairwise (Supersedes e' { h with stamps := stamps })) :
    HistOk e' { h with stamps := stamps } := by
  have hHist := hInv.hist
  refine ⟨?_, ?_, hStamped, hCommitted, ?_, ?_, hOrder⟩
  · rw [hEnd.nextTxnId]
    exact hHist.began
  · intro w hW
    by_cases hT : w.txn = t
    · rw [hT]
      exact hEnd.began
    · rw [hEnd.state_other hT]
      exact hHist.state w hW
  · intro w hW hRunning
    have hU := hEnd.ne_of_running hRunning
    exact hEnd.owner_iff.mpr ⟨hU, hHist.owns w hW ((hEnd.running_iff hU).mp hRunning)⟩
  · intro u y hGrowing hOwner
    rcases hEnd.owner_iff.mp hOwner with ⟨hU, hBefore⟩
    rw [hEnd.state_other hU] at hGrowing
    rcases hEnd.kept u y hU hBefore with ⟨hRecord, hEntry⟩
    have hNewest : e'.newest y = e.newest y := by
      unfold Engine.newest
      rw [hRecord, hEntry]
    rw [hNewest]
    exact hHist.tops u y hGrowing hBefore

/- A transaction ends without a commit. -/
theorem hist_of_abort
    (hEnd : Engine.Finishes t e e')
    (hState : e'.state t = .aborted)
    (hLast : e'.lastCommitTs = e.lastCommitTs) :
    HistOk e' h := by
  have hHist := hInv.hist
  have hOpen := hHist.open_of_running hEnd.running
  refine hInv.hist_of_finishes hEnd ?_ ?_ (hHist.order.imp ?_)
  · intro u c hC
    have hU : u ≠ t := by
      rintro rfl
      cases hOpen.symm.trans hC
    rw [hEnd.state_other hU, hLast]
    exact hHist.stamped u c hC
  · intro u hCommitted
    have hU : u ≠ t := by
      rintro rfl
      cases hState.symm.trans hCommitted
    rw [hEnd.state_other hU] at hCommitted
    rw [hEnd.mvcc, hEnd.others u hU]
    exact hHist.committed u hCommitted
  · intro newer older hPair hLoc hTxn hNewer hOlder
    have hN : newer.txn ≠ t := fun hT => hNewer (hT ▸ hState)
    have hO : older.txn ≠ t := fun hT => hOlder (hT ▸ hState)
    rw [hEnd.state_other hN] at hNewer
    rw [hEnd.state_other hO] at hOlder
    rw [hEnd.mvcc, hEnd.startTs]
    exact hPair hLoc hTxn hNewer hOlder

/- The rows after a transaction that ended without a commit. -/
theorem of_abort
    (hRejected : rejected = none ∨ rejected = some t)
    (hEnd : Engine.Finishes t e e')
    (hState : e'.state t = .aborted)
    (hLast : e'.lastCommitTs = e.lastCommitTs)
    (hSettled : ∀ x, (∀ u, u ≠ t → ¬ e.Owns u x) →
      Settled floor e.lastCommitTs (timeline base h x) (e'.pre x)
        (e'.mvccVersions x)) :
    Consistent base floor none e' h := by
  refine hInv.of_finishes hRejected hEnd hInv.floorStart (by rw [hLast]; exact hInv.floorLast)
    (by rw [hLast]) (fun u _ hRun hMvcc => (hInv.starts u hRun hMvcc).1) ?_
    (hInv.hist_of_abort hEnd hState hLast)
  intro x
  refine hInv.row_of_finishes hEnd ?_ ?_
  · intro entry u _ hEntry hWriter
    rw [hLast]
    exact (hInv.rows x).owned entry u hEntry hWriter
  · rw [hLast]
    exact hSettled x

/- The locks of others do not cover a row that the transaction
  owns. -/
theorem pre_of_owned (hEnd : Engine.Finishes t e e')
    (hOwns : e.Owns t x) : e'.pre x = e'.db.record x := by
  by_cases hLock : e.locks x = some t
  · exact hEnd.pre_released hLock
  · unfold Engine.pre
    rw [hEnd.locks x, if_neg hLock]
    cases hHolder : e.locks x with
    | none => rfl
    | some u =>
      have hU : u ≠ t := fun hU => hLock (by rw [hHolder, hU])
      simp only [hEnd.others u hU]
      exact hInv.undone_holder hHolder (fun hP => ((hInv.rows x).live u hP).1 t hOwns)
        (fun hO => hU (hO.unique hOwns)) _ _

/- A row of another transaction. -/
theorem not_owns_of_other
    (hU : u ≠ t)
    (hOwner : e.Owns u x ∨ e.PlainOwns u x) :
    ¬ e.Owns t x := by
  intro hT
  rcases hOwner with hO | hP
  · exact hU (hO.unique hT)
  · exact ((hInv.rows x).live u hP).1 t hT

/- A transaction without versions owns no row with one. -/
theorem not_owns_of_plain
    (hVersions : e.hasVersions t = false)
    (x : Loc) :
    ¬ e.Owns t x := by
  intro hOwns
  have hKey := ((hInv.rows x).owner t hOwns).2.1
  rw [(Engine.hasVersions_eq_false.mp hVersions).2] at hKey
  cases hKey

/- Rows with and without a version of the transaction. -/
theorem taken_back
    (hBack : Engine.abortWrites t (e.txn t).writeSet [] e = some e₁)
    (hEnds : Engine.Ends t e₁ e') :
    (∀ x entry, e.mvccVersions x = some entry → entry.writerTxn = some t →
          e'.db.record x = entry.rolledRecord ∧
          e'.mvccVersions x = entry.rolledEntry) ∧
      ∀ x, ¬ e.Owns t x → e'.db.record x = e.db.record x ∧
          e'.mvccVersions x = e.mvccVersions x := by
  have hRows := (Engine.abortWrites_spec hBack).2
  constructor
  · intro x entry hEntry hWriter
    have hOwned := (hInv.rows x).owned entry t hEntry hWriter
    have hLoc := ((hInv.rows x).owner t ⟨entry, hEntry, hWriter⟩).2.2
    rcases (hRows x).1 entry hLoc (by simp) hEntry hWriter with ⟨hRecord, hEntry'⟩
    rw [hEnds.db, hEnds.versions, hRecord, hEntry']
    refine ⟨?_, rfl⟩
    unfold MvccEntry.rolledPhysical
    rw [if_pos hOwned.rollback]
  · intro x hNot
    rw [hEnds.db, hEnds.versions]
    exact (hRows x).2 (fun _ _ => hNot)

/- A transaction with versions ends. -/
theorem finishes_of_abortWrites (hRunning : e.Running t)
    (hBack : Engine.abortWrites t (e.txn t).writeSet [] e = some e₁)
    (hEnds : Engine.Ends t e₁ e') : Engine.Finishes t e e' := by
  have hUnwinds := (Engine.abortWrites_spec hBack).1
  rcases hInv.taken_back hBack hEnds with ⟨hMine, hOther⟩
  have hOwns : ∀ u x, e'.Owns u x ↔ u ≠ t ∧ e.Owns u x := by
    intro u x
    by_cases hT : e.Owns t x
    · rcases hT with ⟨entry, hEntry, hWriter⟩
      have hRolled := ((hInv.rows x).owned entry t hEntry hWriter).rolled
      constructor
      · rintro ⟨old, hOld, hBad⟩
        rw [(hMine x entry hEntry hWriter).2] at hOld
        have hNone := (hRolled.entryOk old hOld).writer
        cases hNone.symm.trans hBad
      · rintro ⟨hU, hOwns⟩
        exact absurd (hOwns.unique ⟨entry, hEntry, hWriter⟩) hU
    · exact owns_of_kept (hOther x hT).2 hT
  exact finishes_of_ends hRunning hUnwinds hEnds hOwns
    (fun u x hU hOwner => hOther x (hInv.not_owns_of_other hU hOwner))

/- The rows of a transaction with versions. -/
theorem abort_versions
    (hRejected : rejected = none ∨ rejected = some t)
    (hRunning : e.Running t)
    (hVersions : e.hasVersions t = true)
    (hBack : Engine.abortWrites t (e.txn t).writeSet [] e = some e₁)
    (hEnds : Engine.Ends t e₁ e') :
    Consistent base floor none e' h := by
  have hUnwinds := (Engine.abortWrites_spec hBack).1
  have hLast : e'.lastCommitTs = e.lastCommitTs := by rw [hEnds.lastCommitTs, hUnwinds.lastCommitTs]
  rcases hInv.taken_back hBack hEnds with ⟨hMine, hOther⟩
  have hEnd := hInv.finishes_of_abortWrites hRunning hBack hEnds
  refine hInv.of_abort hRejected hEnd hEnds.state hLast ?_
  intro x hNone
  by_cases hT : e.Owns t x
  · rw [hInv.pre_of_owned hEnd hT]
    rcases hT with ⟨entry, hEntry, hWriter⟩
    rcases hMine x entry hEntry hWriter with ⟨hRecord, hVersion⟩
    rw [hRecord, hVersion]
    exact ((hInv.rows x).owned entry t hEntry hWriter).rolled
  · rcases hOther x hT with ⟨hRecord, hVersion⟩
    have hPre : e'.pre x = e.pre x := by
      by_cases hLock : e.locks x = some t
      · rw [hEnd.pre_released hLock, hRecord, Engine.pre_of_lock hLock]
        exact (hInv.undone_holder hLock (fun hP => not_plain_of_versions hVersions hP.plain)
          hT _ _).symm
      · exact hEnd.pre_other hLock hRecord
    rw [hPre, hVersion]
    exact (hInv.rows x).settled (not_owns_of_others hNone hT)

/- The rows of a transaction without versions: only those it
  has locked change. -/
theorem plain_back
    (hRunning : e.Running t)
    (hVersions : e.hasVersions t = false)
    (hBack : Engine.rollbackWrites t (e.txn t).writeSet e = some e₁)
    (hEnds : Engine.Ends t e₁ e') :
    e'.mvccVersions = e.mvccVersions ∧ ∀ x, ¬ e.Owns t x ∧
        e'.db.record x = Engine.undone t x
        (e.txn t).writeSet (e.physicalInsertOwners x) (e.db.record x) ∧
      (e.locks x ≠ some t → e'.db.record x = e.db.record x) := by
  rcases Engine.rollbackWrites_spec hBack with ⟨_, hVs, hRows⟩
  have hNot := hInv.not_owns_of_plain hVersions
  rw [hEnds.versions, hEnds.db]
  refine ⟨hVs, fun x => ⟨hNot x, hRows x, fun hLock => ?_⟩⟩
  rw [hRows x]
  exact hInv.undone_unlocked hRunning hLock (hNot x) _

/- A transaction without versions ends. -/
theorem finishes_of_rollbackWrites
    (hRunning : e.Running t)
    (hVersions : e.hasVersions t = false)
    (hBack : Engine.rollbackWrites t (e.txn t).writeSet e = some e₁)
    (hEnds : Engine.Ends t e₁ e') :
    Engine.Finishes t e e' := by
  rcases hInv.plain_back hRunning hVersions hBack hEnds with ⟨hVersion, hRows⟩
  have hOwns : ∀ u x, e'.Owns u x ↔ u ≠ t ∧ e.Owns u x :=
    fun u x => owns_of_kept (congrFun hVersion x) (hRows x).1
  have hKept : ∀ u x, u ≠ t → e.Owns u x ∨ e.PlainOwns u x → e'.db.record x = e.db.record x ∧
        e'.mvccVersions x = e.mvccVersions x := by
    intro u x hU hOwner
    refine ⟨?_, by rw [hVersion]⟩
    rcases hRows x with ⟨hNot, hRecord, hUnlocked⟩
    by_cases hLock : e.locks x = some t
    · rw [hRecord]
      apply hInv.undone_holder hLock _ hNot
      intro hP
      rcases hOwner with hO | hP'
      · exact ((hInv.rows x).live t hP).1 u hO
      · exact hU (hP'.unique hP)
    · exact hUnlocked hLock
  have hUnwinds := (Engine.rollbackWrites_spec hBack).1
  exact finishes_of_ends hRunning hUnwinds hEnds hOwns hKept

/- The rows of a transaction without versions. -/
theorem abort_plain
    (hRejected : rejected = none ∨ rejected = some t)
    (hRunning : e.Running t)
    (hVersions : e.hasVersions t = false)
    (hBack : Engine.rollbackWrites t (e.txn t).writeSet e = some e₁)
    (hEnds : Engine.Ends t e₁ e') :
    Consistent base floor none e' h := by
  have hUnwinds := (Engine.rollbackWrites_spec hBack).1
  have hLast : e'.lastCommitTs = e.lastCommitTs := by rw [hEnds.lastCommitTs, hUnwinds.lastCommitTs]
  rcases hInv.plain_back hRunning hVersions hBack hEnds with ⟨hVersion, hRows⟩
  have hEnd := hInv.finishes_of_rollbackWrites hRunning hVersions hBack hEnds
  refine hInv.of_abort hRejected hEnd hEnds.state hLast ?_
  intro x hNone
  rcases hRows x with ⟨hNot, hRecord, hUnlocked⟩
  have hPre : e'.pre x = e.pre x := by
    by_cases hLock : e.locks x = some t
    · rw [hEnd.pre_released hLock, hRecord, Engine.pre_of_lock hLock]
    · exact hEnd.pre_other hLock (hUnlocked hLock)
  rw [hPre, hVersion]
  exact (hInv.rows x).settled (not_owns_of_others hNone hNot)

theorem finishes_of_abort (hRunning : e.Running t)
    (hRun : e.abort t = some e') : Engine.Finishes t e e' := by
  rcases Engine.abort_cases hRun with ⟨-, e₁, hBack, hEnds⟩ | ⟨hVersions, e₁, hBack, hEnds⟩
  · exact hInv.finishes_of_abortWrites hRunning hBack hEnds
  · exact hInv.finishes_of_rollbackWrites hRunning hVersions hBack hEnds

theorem abort
    (hRejected : rejected = none ∨ rejected = some t)
    (hRunning : e.Running t)
    (hRun : e.abort t = some e') :
    Consistent base floor none e' h := by
  rcases Engine.abort_cases hRun with ⟨hVersions, e₁, hBack, hEnds⟩ | ⟨hVersions, e₁, hBack, hEnds⟩
  · exact hInv.abort_versions hRejected hRunning hVersions hBack hEnds
  · exact hInv.abort_plain hRejected hRunning hVersions hBack hEnds

omit hInv

variable (hInv : Consistent base floor none e h) (hCommits : Engine.Commits t e e')
include hInv hCommits

------------
-- Commit
------------

/- The versions of the committed transaction. -/
theorem versions_commit :
    (∀ x entry, e.mvccVersions x = some entry → entry.writerTxn = some t →
      e'.mvccVersions x =
            some (entry.settle (e.lastCommitTs + 1)) ∧
            e.hasVersions t = true) ∧ ∀ x, ¬ e.Owns t x →
        e'.mvccVersions x = e.mvccVersions x := by
  constructor
  · intro x entry hEntry hWriter
    have hKey := ((hInv.rows x).owner t ⟨entry, hEntry, hWriter⟩).2.1
    have hVersions : e.hasVersions t = true := by
      cases hKind : e.hasVersions t with
      | true => rfl
      | false => exact absurd ⟨entry, hEntry, hWriter⟩ (hInv.not_owns_of_plain hKind x)
    refine ⟨?_, hVersions⟩
    rw [hCommits.versions, hVersions, if_pos rfl]
    simp [Engine.settleEntry, hEntry, hKey, hWriter]
  · intro x hNot
    rw [hCommits.versions]
    split
    · unfold Engine.settleEntry
      cases hEntry : e.mvccVersions x with
      | none => rfl
      | some entry =>
        have hWriter : entry.writerTxn ≠ some t := fun h => hNot ⟨entry, hEntry, h⟩
        simp [hWriter]
    · rfl

omit hInv in
theorem leaves_of_commits : Engine.Leaves t e e' := by
  refine ⟨Or.inl hCommits.growing, not_running_of_state hCommits.state (Or.inl rfl),
    hCommits.others, ?_, ?_⟩
  · unfold Engine.isMvccTxn
    rw [hCommits.level]
  · unfold Engine.startTs
    rw [hCommits.startTs]

theorem finishes_of_commits : Engine.Finishes t e e' := by
  rcases hInv.versions_commit hCommits with ⟨hMine, hOther⟩
  refine ⟨leaves_of_commits hCommits, ?_, hCommits.nextTxnId,
    hCommits.locks, hCommits.owners, ?_, ?_, ?_⟩
  · rw [hCommits.state]
    simp
  · intro hOk y
    rw [hCommits.tableKeys, hOk y]
    by_cases hT : e.Owns t y
    · rcases hT with ⟨entry, hEntry, hWriter⟩
      rw [(hMine y entry hEntry hWriter).1, hEntry]
      simp
    · rw [hOther y hT]
  · intro u x
    by_cases hT : e.Owns t x
    · rcases hT with ⟨entry, hEntry, hWriter⟩
      constructor
      · rintro ⟨new, hNew, hBad⟩
        rw [(hMine x entry hEntry hWriter).1] at hNew
        obtain rfl := some.inj hNew
        cases hBad
      · rintro ⟨hU, hOwns⟩
        exact absurd (hOwns.unique ⟨entry, hEntry, hWriter⟩) hU
    · exact owns_of_kept (hOther x hT) hT
  · intro u x hU hOwner
    rw [hCommits.db]
    exact ⟨rfl, hOther x (hInv.not_owns_of_other hU hOwner)⟩

omit hInv in
theorem last_le_commit : e.lastCommitTs ≤ e'.lastCommitTs := by
  rw [hCommits.lastCommitTs]
  split
  · omega
  · exact le_refl _

theorem hist_of_commit : HistOk e' (h.stamp t e'.lastCommitTs) := by
  have hEnd := hInv.finishes_of_commits hCommits
  have hHist := hInv.hist
  have hOpen := hHist.open_of_running hEnd.running
  have hLast := last_le_commit hCommits
  have hOthers : ∀ u, u ≠ t → update h.stamps t (some e'.lastCommitTs) u = h.stamps u :=
    fun u hU => update_of_ne hU _ _
  have hSelf : update h.stamps t (some e'.lastCommitTs) t =
      some e'.lastCommitTs := update_self _ _ _
  refine hInv.hist_of_finishes hEnd ?_ ?_ (hHist.order.imp ?_)
  · intro u c hC
    by_cases hT : u = t
    · subst hT
      rw [hSelf] at hC
      exact ⟨hCommits.state, le_of_eq (some.inj hC).symm⟩
    · rw [hOthers u hT] at hC
      rw [hEnd.state_other hT]
      rcases hHist.stamped u c hC with ⟨hState, hLe⟩
      exact ⟨hState, le_trans hLe hLast⟩
  · intro u hState
    by_cases hT : u = t
    · subst hT
      refine ⟨_, hSelf, ?_⟩
      intro hMvcc
      rw [hEnd.mvcc] at hMvcc
      have hVersions := Engine.hasVersions_of_mvcc hMvcc
      rw [hCommits.commitTs, hCommits.lastCommitTs, hVersions]
      rfl
    · rw [hEnd.state_other hT] at hState
      rw [hOthers u hT, hEnd.mvcc, hEnd.others u hT]
      exact hHist.committed u hState
  · intro newer older hPair hLoc hTxn hNewer hOlder
    have hAlive : ∀ u, e'.state u ≠ .aborted → e.state u ≠ .aborted := by
      intro u hU
      by_cases hT : u = t
      · rw [hT, hCommits.growing]
        simp
      · rw [← hEnd.state_other hT]
        exact hU
    rcases hPair hLoc hTxn (hAlive _ hNewer) (hAlive _ hOlder)
      with ⟨c, hC, hStart, hLater⟩
    -- the older write was committed already
    have hO : older.txn ≠ t := by
      intro hT
      rw [hT] at hC
      cases hOpen.symm.trans hC
    rw [hEnd.mvcc, hEnd.startTs]
    refine ⟨c, (hOthers _ hO).trans hC, hStart, ?_⟩
    intro d hD
    by_cases hN : newer.txn = t
    · rw [hN] at hD
      rw [← some.inj (hSelf.symm.trans hD)]
      exact le_trans (hHist.stamped _ c hC).2 hLast
    · exact hLater d ((hOthers _ hN).symm.trans hD)

omit hCommits

/- A commit without versions may lose the older values of the
  rows it has written. -/
def floorAfter (floor : Int) (e : Engine) (t : TxnId) : Int :=
  if e.hasVersions t = true ∨ (e.txn t).writeSet = [] then
    floor
  else
    e.lastCommitTs

theorem floor_le_after
    (t : TxnId) :
    floor ≤ floorAfter floor e t ∧ floorAfter floor e t ≤ e.lastCommitTs := by
  unfold floorAfter
  split
  · exact ⟨le_refl _, hInv.floorLast⟩
  · exact ⟨hInv.floorLast, le_refl _⟩

include hCommits

/- The pre-image of a row that the committer does not own. -/
theorem pre_of_commit
    (hOwns : ¬ e.Owns t x)
    (hPlain : ¬ e.PlainOwns t x) :
    e'.pre x = e.pre x := by
  have hEnd := hInv.finishes_of_commits hCommits
  by_cases hLock : e.locks x = some t
  · rw [hEnd.pre_released hLock, hCommits.db, Engine.pre_of_lock hLock]
    exact (hInv.undone_holder hLock hPlain hOwns _ _).symm
  · exact hEnd.pre_other hLock (by rw [hCommits.db])

variable {entry : MvccEntry}

/- A row that the committer has written with a version. -/
omit hInv hCommits in
theorem settled_of_owned
    (hInv : Consistent base floor none e h)
    (hCommits : Engine.Commits t e e')
    (hEntry : e.mvccVersions x = some entry)
    (hWriter : entry.writerTxn = some t) :
    Settled floor e'.lastCommitTs (timeline base (h.stamp t e'.lastCommitTs) x)
      (e'.pre x) (e'.mvccVersions x) := by
  have hEnd := hInv.finishes_of_commits hCommits
  have hOwns : e.Owns t x := ⟨entry, hEntry, hWriter⟩
  rcases (hInv.versions_commit hCommits).1 x entry hEntry hWriter
    with ⟨hEntry', hVersions⟩
  have hLast : e'.lastCommitTs = e.lastCommitTs + 1 := by
    rw [hCommits.lastCommitTs, hVersions]
    rfl
  have hOwned := (hInv.rows x).owned entry t hEntry hWriter
  have hTop := hInv.hist.tops t x hCommits.growing (Or.inl hOwns)
  have hOpen := hInv.hist.open_of_running hEnd.running
  have hPre : e'.pre x = e.db.record x := by rw [hInv.pre_of_owned hEnd hOwns, hCommits.db]
  rw [hPre, hEntry', hLast]
  refine hOwned.settle (hInv.present x t hOwns (by simp)).1 ?_ ?_ ?_
  · intro ts hTs
    exact History.valueAt_stamp_of_lt hOpen (by omega) base x
  · intro ts hTs
    have hNewest : e.newest x =
        if entry.isDeleted then none else e.db.record x := by
      simp [Engine.newest, hEntry]
    rw [← hNewest]
    exact History.valueAt_stamp_of_top hTop hTs base
  · intro c hC
    rcases History.stampedAt_stamp hC with ⟨w, hW, -, hStamp⟩ | ⟨hEq, -⟩
    · have hLe := (hInv.hist.stamped w.txn c hStamp).2
      omega
    · omega

/- A row that the committer has written without a version. -/
theorem settled_of_plain (hPlain : e.PlainOwns t x) :
    Settled e.lastCommitTs e'.lastCommitTs
      (timeline base (h.stamp t e'.lastCommitTs) x)
      (e'.pre x) (e'.mvccVersions x) := by
  have hEnd := hInv.finishes_of_commits hCommits
  rcases (hInv.rows x).live t hPlain with ⟨hNone, hLive⟩
  have hVersions := Engine.hasVersions_eq_false.mpr ⟨hPlain.plain.level, hPlain.plain.keys⟩
  have hLast : e'.lastCommitTs = e.lastCommitTs := by
    rw [hCommits.lastCommitTs, hVersions]
    rfl
  have hTop := hInv.hist.tops t x hCommits.growing (Or.inr hPlain)
  have hNewest : e.newest x = e.db.record x := by
    unfold Engine.newest
    cases hEntry : e.mvccVersions x with
    | none => rfl
    | some entry => simp [hLive entry hEntry]
  have hPre : e'.pre x = e.db.record x := by rw [hEnd.pre_released hPlain.lock, hCommits.db]
  have hSettled := (hInv.rows x).settled hNone
  rw [hPre, (hInv.versions_commit hCommits).2 x (hNone t), hLast]
  refine hSettled.overwrite hLive ?_ ?_
  · intro ts hTs
    rw [← hNewest]
    exact History.valueAt_stamp_of_top hTop hTs base
  · intro c hC
    rcases History.stampedAt_stamp hC with ⟨w, hW, -, hStamp⟩ | ⟨hEq, -⟩
    · exact (hInv.hist.stamped w.txn c hStamp).2
    · exact le_of_eq hEq

omit hCommits

omit hInv in
theorem commit
    (hInv : Consistent base floor none e h)
    (hCommits : Engine.Commits t e e') :
    Consistent base (floorAfter floor e t) none e'
      (h.stamp t e'.lastCommitTs) := by
  have hEnd := hInv.finishes_of_commits hCommits
  have hLast := last_le_commit hCommits
  have hRunning : e.Running t := hEnd.running
  rcases hInv.floor_le_after t with ⟨hRaise, hAfter⟩
  refine hInv.of_finishes (Or.inl rfl) hEnd
    (le_trans hInv.floorStart hRaise) (le_trans hAfter hLast)
    hLast ?_ ?_ (hInv.hist_of_commit hCommits)
  · intro u _ hRun hMvcc
    unfold floorAfter
    split
    · exact (hInv.starts u hRun hMvcc).1
    · rename_i hKind
      rw [not_or] at hKind
      rcases Engine.hasVersions_eq_false.mp (Bool.eq_false_iff.mpr hKind.1) with ⟨hLevel, hKeys⟩
      have hAlone := hInv.alone t u ⟨hRunning, hLevel, hKeys, hKind.2⟩ hRun
      cases hMvcc.symm.trans hAlone
  · intro x
    refine hInv.row_of_finishes hEnd ?_ ?_
    · intro entry u hU hEntry hWriter
      have hOwns : e.Owns u x := ⟨entry, hEntry, hWriter⟩
      have hOwn : h.own t x = none := by
        apply hInv.own_eq_none hRunning
        · exact fun hT => hU (hOwns.unique hT)
        · exact fun hT => ((hInv.rows x).live t hT).1 u hOwns
      rcases timeline_stamp base hOwn e'.lastCommitTs
        with ⟨hValue, hStamped⟩
      exact (((hInv.rows x).owned entry u hEntry hWriter).mono hRaise hLast).congr
          (fun ts _ => hValue ts) hStamped
    · intro hNone
      by_cases hT : e.Owns t x
      · rcases hT with ⟨entry, hEntry, hWriter⟩
        exact (hInv.settled_of_owned hCommits hEntry hWriter).mono hRaise (le_refl _)
      · by_cases hP : e.PlainOwns t x
        · have hFloor : floorAfter floor e t = e.lastCommitTs := by
            unfold floorAfter
            rw [if_neg]
            rintro (hVersions | hNoWrites)
            · exact not_plain_of_versions hVersions hP.plain
            · exact hP.plain.writes hNoWrites
          rw [hFloor]
          exact hInv.settled_of_plain hCommits hP
        · have hAll := not_owns_of_others hNone hT
          have hOwn := hInv.own_eq_none hRunning hT hP
          rcases timeline_stamp base hOwn e'.lastCommitTs with ⟨hValue, hStamped⟩
          rw [hInv.pre_of_commit hCommits hT hP, (hInv.versions_commit hCommits).2 x hT]
          exact (((hInv.rows x).settled hAll).mono hRaise
            hLast).congr (fun ts _ => hValue ts) hStamped

------------
-- Garbage Collection
------------

theorem collectEntry_owned (hEntry : e.mvccVersions x = some entry)
    (hWriter : entry.writerTxn = some t) :
    e.collectEntry x = some entry ∧ e.deadRow x = false := by
  have hOwned := (hInv.rows x).owned entry t hEntry hWriter
  rcases hOwned.collect e.runningTxns.watermark with ⟨hKept, hAlive⟩
  simp [Engine.collectEntry, Engine.deadRow, hEntry, hKept, hAlive]

/- Garbage collection leaves the owned rows alone. -/
theorem owns_garbageCollection (u : TxnId)
    (x : Loc) : e.garbageCollection.Owns u x ↔ e.Owns u x := by
  have hVersion : e.garbageCollection.mvccVersions x = e.collectEntry x := rfl
  constructor
  · rintro ⟨entry, hEntry, hWriter⟩
    rw [hVersion] at hEntry
    cases hOld : e.mvccVersions x with
    | none => simp [Engine.collectEntry, hOld] at hEntry
    | some old =>
      simp only [Engine.collectEntry, hOld, bind_some] at hEntry
      exact ⟨old, hOld, (writer_collect hEntry).symm.trans hWriter⟩
  · rintro ⟨entry, hEntry, hWriter⟩
    exact ⟨entry, (hInv.collectEntry_owned hEntry hWriter).1, hWriter⟩

/- A row that was written without versions is not dead. -/
theorem not_dead_of_plain (hPlain : e.PlainOwns t x) : e.deadRow x = false := by
  unfold Engine.deadRow
  cases hEntry : e.mvccVersions x with
  | none => rfl
  | some entry =>
    have hLive := ((hInv.rows x).live t hPlain).2 entry hEntry
    simp [MvccEntry.dead, hLive]

theorem pre_garbageCollection (hNone : ∀ u, ¬ e.Owns u x) :
    e.garbageCollection.pre x =
      if e.deadRow x then none else e.pre x := by
  have hRecord := e.record_garbageCollection x
  by_cases hPlain : ∃ t, e.PlainOwns t x
  · rcases hPlain with ⟨t, hPlain⟩
    have hAlive := hInv.not_dead_of_plain hPlain
    rw [hAlive] at hRecord ⊢
    unfold Engine.pre
    simp only [hRecord]
    rfl
  · have hNoPlain : ∀ t, ¬ e.PlainOwns t x := fun t hT => hPlain ⟨t, hT⟩
    rw [hInv.pre_eq hNoPlain hNone, ← hRecord]
    unfold Engine.pre
    rw [show e.garbageCollection.locks x = e.locks x from rfl]
    cases hLock : e.locks x with
    | none => rfl
    | some t => exact hInv.undone_holder hLock (hNoPlain t) (hNone t) _ _

omit hInv

theorem collect
    (hInv : Consistent base floor none e h)
    (hFloor : floor ≤ e.runningTxns.watermark)
    (hLast : e.runningTxns.watermark ≤ e.lastCommitTs)
    (hStarts : ∀ u, e.Running u → e.isMvccTxn u = true →
      e.runningTxns.watermark ≤ e.startTs u) :
    Consistent base e.runningTxns.watermark none e.garbageCollection h := by
  have hOwns := hInv.owns_garbageCollection
  have hTxn : ∀ t, e.garbageCollection.txn t = e.txn t := fun _ => rfl
  have hPlainOwns : ∀ t x, e.garbageCollection.PlainOwns t x ↔ e.PlainOwns t x :=
    fun t x => Engine.plainOwns_congr (hTxn t) Iff.rfl
  -- owned rows keep their record and their entry
  have hKept : ∀ t x, e.Owns t x ∨ e.PlainOwns t x →
      e.garbageCollection.db.record x = e.db.record x ∧ (e.garbageCollection.mvccVersions x).any
            (fun entry => entry.isDeleted) = (e.mvccVersions x).any
            (fun entry => entry.isDeleted) := by
    rintro t x (⟨entry, hEntry, hWriter⟩ | hPlain)
    · rcases hInv.collectEntry_owned hEntry hWriter with ⟨hSame, hAlive⟩
      rw [e.record_garbageCollection x, hAlive]
      refine ⟨rfl, ?_⟩
      rw [show e.garbageCollection.mvccVersions x = e.collectEntry x from rfl, hSame, hEntry]
    · rw [e.record_garbageCollection x, hInv.not_dead_of_plain hPlain]
      refine ⟨rfl, ?_⟩
      rw [show e.garbageCollection.mvccVersions x = e.collectEntry x from rfl]
      rcases (hInv.rows x).live t hPlain with ⟨hNone, hLive⟩
      unfold Engine.collectEntry
      cases hEntry : e.mvccVersions x with
      | none => rfl
      | some entry =>
        have hNot := hLive entry hEntry
        have hOk := ((hInv.rows x).settled hNone).entryOk entry hEntry
        rw [bind_some, collect_eq _ hOk]
        split
        · simp [hNot]
        · simp [hNot]
  refine ⟨le_trans hInv.floorStart hFloor, hLast, hInv.ids, ?_,
    Engine.tableKeysOk_garbageCollection hInv.tableKeys, hInv.locks, ?_, ?_, ?_, ?_, ?_⟩
  · intro u hRunning hMvcc
    exact ⟨hStarts u hRunning hMvcc, (hInv.starts u hRunning hMvcc).2⟩
  · intro u hRunning
    exact (hInv.sets u hRunning).congr (hTxn u) (fun y => (hOwns u y).mpr)
      (fun _ => id) (fun _ => id)
  · intro u v hPlain hRunning
    exact hInv.alone u v ((Engine.plain_congr (hTxn u)).mp hPlain) hRunning
  · intro y u hOwner hNot
    have hBefore := (hOwns u y).mp hOwner
    rw [(hKept u y (Or.inl hBefore)).1]
    exact hInv.present y u hBefore hNot
  · intro x
    constructor
    · intro entry u hEntry hWriter
      rcases (hOwns u x).mp ⟨entry, hEntry, hWriter⟩ with ⟨old, hOld, hOldWriter⟩
      have hSame : e.garbageCollection.mvccVersions x =
          some old := (hInv.collectEntry_owned hOld hOldWriter).1
      rw [hSame] at hEntry
      obtain rfl := some.inj hEntry
      exact ((hInv.rows x).owned old u hOld hOldWriter).mono hFloor (le_refl _)
    · intro u hOwner
      exact (hInv.rows x).owner u ((hOwns u x).mp hOwner)
    · intro hNone
      have hNone' : ∀ u, ¬ e.Owns u x := fun u hU => hNone u ((hOwns u x).mpr hU)
      rw [hInv.pre_garbageCollection hNone']
      exact ((hInv.rows x).settled hNone').collect _ hFloor
    · intro u hPlain
      have hBefore := (hPlainOwns u x).mp hPlain
      rcases (hInv.rows x).live u hBefore with ⟨hNone, hLive⟩
      refine ⟨fun v hV => hNone v ((hOwns v x).mp hV), ?_⟩
      intro entry hEntry
      have hAny := (hKept u x (Or.inr hBefore)).2
      rw [hEntry, any_some] at hAny
      rw [hAny]
      cases hOld : e.mvccVersions x with
      | none => rfl
      | some old => exact hLive old hOld
  · have hHist := hInv.hist
    refine ⟨hHist.began, hHist.state, hHist.stamped, hHist.committed, ?_, ?_, hHist.order⟩
    · intro w hW hRunning
      rcases hHist.owns w hW hRunning with hO | hP
      · exact Or.inl ((hOwns _ _).mpr hO)
      · exact Or.inr ((hPlainOwns _ _).mpr hP)
    · intro u y hGrowing hOwner
      have hBefore : e.Owns u y ∨ e.PlainOwns u y := by
        rcases hOwner with hO | hP
        · exact Or.inl ((hOwns _ _).mp hO)
        · exact Or.inr ((hPlainOwns _ _).mp hP)
      rcases hKept u y hBefore with ⟨hRecord, hAny⟩
      have hNewest : e.garbageCollection.newest y = e.newest y := by
        unfold Engine.newest
        rw [hAny, hRecord]
      rw [hNewest]
      exact hHist.tops u y hGrowing hBefore

------------
-- Begin
------------

/- A transaction begins with a timestamp that the history
  still covers; an MVCC transaction begins only while nobody
  has written without versions. -/
theorem begins
    (hInv : Consistent base floor none e h)
    {txn : MvccTxn}
    (hNew : e'.txn = update e.txn e.nextTxnId txn)
    (hNext : e'.nextTxnId = e.nextTxnId + 1)
    (hState : txn.state = .growing)
    (hWriteSet : txn.writeSet = [])
    (hKeys : txn.mvccWriteKeys = [])
    (hDb : e'.db = e.db)
    (hVersions : e'.mvccVersions = e.mvccVersions)
    (hTableKeys : e'.mvccTableKeys = e.mvccTableKeys)
    (hLocks : e'.locks = e.locks)
    (hOwners : e'.physicalInsertOwners = e.physicalInsertOwners)
    (hLast : e'.lastCommitTs = e.lastCommitTs)
    (hStart : txn.isolationLevel.mvcc = true → floor ≤ txn.startTs ∧
      txn.startTs ≤ e.lastCommitTs ∧
          ∀ u, ¬ e.Plain u) :
    Consistent base floor none e' h := by
  have hUnused : e.txn e.nextTxnId = MvccTxn.unused := hInv.ids e.nextTxnId (Or.inr (le_refl _))
  have hIdle := Engine.not_running_of_unused hUnused
  have hSelf : e'.txn e.nextTxnId = txn := by rw [hNew, update_self]
  have hOther : ∀ u : TxnId, u ≠ e.nextTxnId → e'.txn u = e.txn u := by
    intro u hU
    rw [hNew, update_of_ne hU]
  have hNe : ∀ u : TxnId, e.Running u → u ≠ e.nextTxnId := by
    rintro u hU rfl
    exact hIdle hU
  have hOwns : ∀ u x, e'.Owns u x ↔ e.Owns u x :=
    fun u x => Engine.owns_congr (congrFun hVersions x)
  have hPlain : ∀ u : TxnId, e'.Plain u → u ≠ e.nextTxnId := by
    rintro u hU rfl
    have hWrites := hU.writes
    rw [hSelf] at hWrites
    exact hWrites hWriteSet
  have hPlainOwns : ∀ u x, e'.PlainOwns u x ↔ e.PlainOwns u x := by
    intro u x
    by_cases hN : u = e.nextTxnId
    · exact ⟨fun hU => absurd hN (hPlain u hU.plain), fun hU => absurd hN (hNe u hU.plain.running)⟩
    · exact Engine.plainOwns_congr (hOther u hN) (by rw [hLocks])
  have hPre : ∀ x, e'.pre x = e.pre x := by
    intro x
    unfold Engine.pre
    rw [hLocks, hDb, hOwners]
    cases hLock : e.locks x with
    | none => rfl
    | some u =>
      simp only
      rw [hOther u (hNe u (hInv.locks x u hLock).1)]
  have hNewest : ∀ x, e'.newest x = e.newest x := by
    intro x
    unfold Engine.newest
    rw [hVersions, hDb]
  -- the new transaction is the only one that has no record before
  have hMvcc : e'.isMvccTxn e.nextTxnId = txn.isolationLevel.mvcc := by rw [Engine.isMvccTxn, hSelf]
  refine ⟨hInv.floorStart, ?_, ?_, ?_, ?_, ?_, ?_, ?_, ?_, ?_, ?_⟩
  · rw [hLast]
    exact hInv.floorLast
  · intro u hU
    rw [hNext] at hU
    have hNot : ∀ i : Int, i < 0 ∨ (e.nextTxnId + 1 : Nat) ≤ i →
        i ≠ e.nextTxnId ∧ (i < 0 ∨ (e.nextTxnId : Int) ≤ i) := by
      intro i hI
      omega
    rcases hNot u hU with ⟨hN, hBefore⟩
    rw [hOther u hN]
    exact hInv.ids u hBefore
  · intro u hRun hLevel
    rw [hLast]
    by_cases hN : u = e.nextTxnId
    · subst hN
      rcases hStart (hMvcc.symm.trans hLevel) with ⟨hFloor, hLe, -⟩
      rw [Engine.startTs, hSelf]
      exact ⟨hFloor, hLe⟩
    · have hTxn := hOther u hN
      rw [Engine.isMvccTxn_congr hTxn] at hLevel
      rw [Engine.startTs_congr hTxn]
      exact hInv.starts u ((Engine.running_congr hTxn).mp hRun) hLevel
  · intro y
    rw [hTableKeys, hVersions]
    exact hInv.tableKeys y
  · intro x u hLock
    rw [hLocks] at hLock
    have hBefore := hInv.locks x u hLock
    have hTxn := hOther u (hNe u hBefore.1)
    rw [Engine.running_congr hTxn, Engine.isMvccTxn_congr hTxn]
    exact hBefore
  · intro u hRun
    by_cases hN : u = e.nextTxnId
    · subst hN
      constructor
      · rw [hSelf, hKeys]
        simp
      · rw [hSelf, hWriteSet]
        simp
      · rw [hSelf, hWriteSet]
        simp
    · have hTxn := hOther u hN
      refine (hInv.sets u ((Engine.running_congr hTxn).mp hRun)).congr hTxn
        (fun y => (hOwns u y).mpr) (fun y => ?_) (fun y => ?_)
      · rw [hLocks]
        exact id
      · rw [hOwners]
        exact id
  · intro u v hU hV
    have hBefore := hU.congr (hOther u (hPlain u hU)).symm
    by_cases hN : v = e.nextTxnId
    · subst hN
      rw [Bool.eq_false_iff, hMvcc]
      exact fun hLevel => (hStart hLevel).2.2 u hBefore
    · have hTxn := hOther v hN
      rw [Engine.isMvccTxn_congr hTxn]
      exact hInv.alone u v hBefore ((Engine.running_congr hTxn).mp hV)
  · intro x u hU hNot
    have hBefore := (hOwns u x).mp hU
    have hTxn := hOther u (hNe u ((hInv.rows x).owner u hBefore).1)
    rw [hDb, hLocks, Engine.isMvccTxn_congr hTxn]
    exact hInv.present x u hBefore hNot
  · intro x
    have hRow := hInv.rows x
    constructor
    · rw [hVersions, hLast]
      exact hRow.owned
    · intro u hU
      have hBefore := hRow.owner u ((hOwns u x).mp hU)
      have hTxn := hOther u (hNe u hBefore.1)
      rw [hTxn, Engine.running_congr hTxn]
      exact hBefore
    · intro hNone
      rw [hPre, hVersions, hLast]
      exact hRow.settled (fun u hU => hNone u ((hOwns u x).mpr hU))
    · intro u hU
      rcases hRow.live u ((hPlainOwns u x).mp hU) with ⟨hNone, hLive⟩
      rw [hVersions]
      exact ⟨fun v hV => hNone v ((hOwns v x).mp hV), hLive⟩
  · have hHist := hInv.hist
    have hState' : ∀ u : TxnId, u ≠ e.nextTxnId → e'.state u = e.state u :=
      fun u hU => Engine.state_congr (hOther u hU)
    have hWriter : ∀ w ∈ h.writes, w.txn ≠ e.nextTxnId :=
      fun w hW => ne_of_lt (hHist.began w hW)
    have hStamped : ∀ (u : TxnId) c, h.stamps u = some c → u ≠ e.nextTxnId := by
      rintro u c hC rfl
      have hBad := (hHist.stamped _ c hC).1
      rw [Engine.state, hUnused] at hBad
      cases hBad
    have hGrowing : e'.state e.nextTxnId = .growing := by rw [Engine.state, hSelf, hState]
    constructor
    · intro w hW
      rw [hNext]
      refine lt_trans (hHist.began w hW) ?_
      exact Int.ofNat_lt.mpr (Nat.lt_succ_self e.nextTxnId)
    · intro w hW
      rw [hState' _ (hWriter w hW)]
      exact hHist.state w hW
    · intro u c hC
      rw [hState' u (hStamped u c hC), hLast]
      exact hHist.stamped u c hC
    · intro u hCommitted
      have hN : u ≠ e.nextTxnId := by
        rintro rfl
        cases hGrowing.symm.trans hCommitted
      rw [hState' u hN] at hCommitted
      rw [Engine.isMvccTxn_congr (hOther u hN), hOther u hN]
      exact hHist.committed u hCommitted
    · intro w hW hRun
      rw [hOwns, hPlainOwns]
      exact hHist.owns w hW ((Engine.running_congr (hOther _ (hWriter w hW))).mp hRun)
    · intro u y hGrow hOwner
      rw [hOwns, hPlainOwns] at hOwner
      have hN : u ≠ e.nextTxnId := by
        rcases hOwner with hO | hP
        · exact hNe u ((hInv.rows y).owner u hO).1
        · exact hNe u hP.plain.running
      rw [hState' u hN] at hGrow
      rw [hNewest]
      exact hHist.tops u y hGrow hOwner
    · refine hHist.order.imp_of_mem ?_
      intro newer older hNewerIn hOlderIn hPair hLoc hTxn hNewer hOlder
      have hN := hWriter newer hNewerIn
      rw [hState' _ hN] at hNewer
      rw [hState' _ (hWriter older hOlderIn)] at hOlder
      rw [Engine.isMvccTxn_congr (hOther _ hN), Engine.startTs_congr (hOther _ hN)]
      exact hPair hLoc hTxn hNewer hOlder

theorem begin
    (hInv : Consistent base floor none e h)
    (level : IsolationLevel)
    (hAlone : level.mvcc = true → ∀ u, ¬ e.Plain u) :
    Consistent base floor none (e.begin level) h := by
  cases hMvcc : level.mvcc with
  | true =>
    have hEq : e.begin level =
        { ({ e with nextTxnId := e.nextTxnId + 1 } :
            Engine).setTxn e.nextTxnId
              { MvccTxn.unused with
                isolationLevel := level,
                state := .growing,
                startTs := e.lastCommitTs } with
          runningTxns := e.runningTxns.addTxn e.lastCommitTs,
          activeMvccTxnCount := e.activeMvccTxnCount + 1 } := by
      simp [Engine.begin, hMvcc]
    rw [hEq]
    exact hInv.begins rfl rfl rfl rfl rfl rfl rfl rfl rfl rfl
      rfl (fun hLevel => ⟨hInv.floorLast, le_refl _, hAlone hLevel⟩)
  | false =>
    have hEq : e.begin level =
        ({ e with nextTxnId := e.nextTxnId + 1 } :
          Engine).setTxn e.nextTxnId
            { MvccTxn.unused with
              isolationLevel := level,
              state := .growing } := by
      simp [Engine.begin, hMvcc]
    rw [hEq]
    refine hInv.begins rfl rfl rfl rfl rfl rfl rfl rfl rfl rfl rfl ?_
    intro hLevel
    cases hMvcc.symm.trans hLevel

end Consistent

end Rmdb
