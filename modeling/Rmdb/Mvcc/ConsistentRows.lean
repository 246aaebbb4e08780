import Rmdb.Mvcc.Consistent

/-
  This file shows that the row operations keep the state
  consistent with the history.

  Key definitions include:
    * `Engine.Acts`

  Key theorems include:
    * `Consistent.quiet`
    * `Consistent.done`
    * `Consistent.reject`
-/

namespace Rmdb

open Engine List WriteRecord

namespace Engine

------------
-- What A Row Operation Leaves Alone
------------

/- A growing transaction does something at one row. -/
structure Acts (t : TxnId) (x : Loc) (e e' : Engine) : Prop where
  keeps : Keeps t e e'
  growing : e.state t = .growing
  running : e'.Running t
  record : ∀ y, y ≠ x → e'.db.record y = e.db.record y
  versions : ∀ y, y ≠ x → e'.mvccVersions y = e.mvccVersions y
  locks : LockStep t x e e'
  owners : ∀ y, y ≠ x → e'.physicalInsertOwners y = e.physicalInsertOwners y
  writeSet : (e'.txn t).writeSet = (e.txn t).writeSet ∨ ∃ w, w.loc = x ∧
        (e'.txn t).writeSet = w :: (e.txn t).writeSet
  keys : (e'.txn t).mvccWriteKeys = (e.txn t).mvccWriteKeys ∨
      (e'.txn t).mvccWriteKeys = x :: (e.txn t).mvccWriteKeys
  tableKeys : e.TableKeysOk → e'.TableKeysOk

section Acts

variable {e e' : Engine} {t u : TxnId} {x y : Loc}

theorem Quiet.acts (hQuiet : Quiet t x e e') :
    Acts t x e e' where
  keeps := hQuiet.keeps
  growing := hQuiet.growing
  running := hQuiet.state
  record := fun _ hY => hQuiet.edits.record_of_ne hY
  versions := fun _ _ => by rw [hQuiet.versions]
  locks := hQuiet.locks
  owners := fun _ _ => by rw [hQuiet.owners]
  writeSet := Or.inl hQuiet.writeSet
  keys := Or.inl hQuiet.keys
  tableKeys := hQuiet.tableKeys

variable (hActs : Acts t x e e')
include hActs

theorem Acts.txn (hU : u ≠ t) : e'.txn u = e.txn u := hActs.keeps.others u hU

theorem Acts.state_other (hU : u ≠ t) :
    e'.state u = e.state u := state_congr (hActs.txn hU)

theorem Acts.running_iff (u : TxnId) : e'.Running u ↔ e.Running u := by
  by_cases hU : u = t
  · subst hU
    exact ⟨fun _ => Or.inl hActs.growing, fun _ => hActs.running⟩
  · exact running_congr (hActs.txn hU)

theorem Acts.owns_iff
    (hY : y ≠ x)
    (u : TxnId) :
    e'.Owns u y ↔ e.Owns u y :=
  owns_congr (hActs.versions y hY)

theorem Acts.lock (hY : y ≠ x) : e'.locks y = e.locks y := by
  rcases hActs.locks y with hSame | ⟨hX, -⟩
  · exact hSame
  · exact absurd hX hY

theorem Acts.mem_locs
    (hY : y ≠ x)
    (u : TxnId) :
    y ∈ (e'.txn u).writeSet.map loc ↔ y ∈ (e.txn u).writeSet.map loc := by
  by_cases hU : u = t
  · subst hU
    rcases hActs.writeSet with hSame | ⟨w, hLoc, hMore⟩
    · rw [hSame]
    · rw [hMore, map_cons, mem_cons, hLoc]
      simp [hY]
  · rw [hActs.txn hU]

theorem Acts.mem_keys (hY : y ≠ x)
    (u : TxnId) :
    y ∈ (e'.txn u).mvccWriteKeys ↔ y ∈ (e.txn u).mvccWriteKeys := by
  by_cases hU : u = t
  · subst hU
    rcases hActs.keys with hSame | hMore
    · rw [hSame]
    · rw [hMore, mem_cons]
      simp [hY]
  · rw [hActs.txn hU]

theorem Acts.undone_eq
    (hY : y ≠ x)
    (u : TxnId)
    (owner : Option TxnId)
    (v : Option RmRecord) :
    undone u y (e'.txn u).writeSet owner v =
      undone u y (e.txn u).writeSet owner v := by
  by_cases hU : u = t
  · subst hU
    rcases hActs.writeSet with hSame | ⟨w, hLoc, hMore⟩
    · rw [hSame]
    · rw [hMore, undone_cons, if_neg]
      rintro ⟨hHere, -⟩
      exact hY (hHere.symm.trans hLoc)
  · rw [hActs.txn hU]

theorem Acts.pre_eq (hY : y ≠ x) : e'.pre y = e.pre y := by
  unfold pre
  rw [hActs.lock hY]
  cases e.locks y with
  | none => exact hActs.record y hY
  | some u =>
    simp only
    rw [hActs.undone_eq hY, hActs.owners y hY, hActs.record y hY]

/- Nobody but the actor changes its kind of writing. -/
theorem Acts.plain_of (hPlain : e'.Plain u) (hU : u ≠ t) : e.Plain u :=
  hPlain.congr (hActs.txn hU).symm

theorem Acts.plainOwns_of
    (hPlain : e'.PlainOwns u y)
    (hY : y ≠ x) :
    e.PlainOwns u y := by
  have hWrote := (hActs.mem_locs hY u).mp hPlain.wrote
  have hLock := (hActs.lock hY).symm.trans hPlain.lock
  by_cases hU : u = t
  · subst hU
    refine ⟨⟨Or.inl hActs.growing, ?_, ?_, ?_⟩, hLock, hWrote⟩
    · rw [← hActs.keeps.mvcc u]
      exact hPlain.plain.level
    · rcases hActs.keys with hSame | hMore
      · rw [← hSame]
        exact hPlain.plain.keys
      · have hNone := hPlain.plain.keys
        rw [hMore] at hNone
        cases hNone
    · intro hNone
      rw [hNone] at hWrote
      cases hWrote
  · exact ⟨hActs.plain_of hPlain.plain hU, hLock, hWrote⟩

/- The other rows. -/
theorem Acts.row
    {base : Loc → Option RmRecord}
    {floor : Int}
    {h h' : Hist}
    (hY : y ≠ x)
    (hTimeline : timeline base h' y = timeline base h y)
    (hRow : RowOk base floor e h y) :
    RowOk base floor e' h' y := by
  constructor
  · intro entry u hEntry hWriter
    rw [hActs.versions y hY] at hEntry
    rw [hTimeline, hActs.keeps.lastCommitTs]
    exact hRow.owned entry u hEntry hWriter
  · intro u hOwns
    rcases hRow.owner u ((hActs.owns_iff hY u).mp hOwns) with ⟨hRunning, hKey, hLoc⟩
    exact ⟨(hActs.running_iff u).mpr hRunning, (hActs.mem_keys hY u).mpr hKey,
      (hActs.mem_locs hY u).mpr hLoc⟩
  · intro hNone
    rw [hTimeline, hActs.keeps.lastCommitTs, hActs.pre_eq hY, hActs.versions y hY]
    exact hRow.settled (fun u hU => hNone u ((hActs.owns_iff hY u).mpr hU))
  · intro u hPlain
    rcases hRow.live u (hActs.plainOwns_of hPlain hY) with ⟨hNone, hLive⟩
    constructor
    · intro v hV
      exact hNone v ((hActs.owns_iff hY v).mp hV)
    · rw [hActs.versions y hY]
      exact hLive

theorem Acts.lock_mono (hLock : e.locks y = some u) : e'.locks y = some u := by
  rcases hActs.locks y with hSame | ⟨-, -, hMine, hFree | hOld⟩
  · exact hSame.trans hLock
  · cases hFree.symm.trans hLock
  · exact hMine.trans (hOld.symm.trans hLock)

/- What the other transactions remember. -/
theorem Acts.setOk
    (hU : u ≠ t)
    (hOwns : e.Owns u x → e'.Owns u x)
    (hOwner : e'.physicalInsertOwners x = some u →
      e.physicalInsertOwners x = some u)
    (hSet : e.SetOk u) :
    e'.SetOk u := by
  refine hSet.congr (hActs.txn hU) ?_ (fun _ => hActs.lock_mono) ?_
  · intro y hY
    by_cases hX : y = x
    · subst hX
      exact hOwns hY
    · exact (hActs.owns_iff hX u).mpr hY
  · intro y hY
    by_cases hX : y = x
    · subst hX
      exact hOwner hY
    · rwa [hActs.owners y hX] at hY

theorem Acts.plainOwns_mono
    (hPlain : e.PlainOwns u y)
    (hKeys : u = t →
        (e'.txn t).mvccWriteKeys = (e.txn t).mvccWriteKeys) :
    e'.PlainOwns u y := by
  by_cases hU : u = t
  · subst hU
    have hWrote : y ∈ (e'.txn u).writeSet.map loc := by
      rcases hActs.writeSet with hSame | ⟨w, -, hMore⟩
      · rw [hSame]
        exact hPlain.wrote
      · rw [hMore, map_cons]
        exact mem_cons_of_mem _ hPlain.wrote
    refine ⟨⟨hActs.running, ?_, ?_, ?_⟩, hActs.lock_mono hPlain.lock, hWrote⟩
    · rw [hActs.keeps.mvcc]
      exact hPlain.plain.level
    · rw [hKeys rfl]
      exact hPlain.plain.keys
    · intro hNone
      rw [hNone] at hWrote
      cases hWrote
  · exact hPlain.congr (hActs.txn hU) hActs.lock_mono

/- An action ends nothing. -/
theorem Acts.state_eq_iff
    (u : TxnId)
    {st : TxnState}
    (hOther : st = .default ∨ st = .committed ∨ st = .aborted) :
    e'.state u = st ↔ e.state u = st := by
  by_cases hU : u = t
  · subst hU
    have hAfter : e'.state u ≠ st := by
      rcases hActs.running with h | ⟨reason, h⟩
      · rw [h]
        rcases hOther with rfl | rfl | rfl <;> simp
      · rw [h]
        rcases hOther with rfl | rfl | rfl <;> simp
    have hBefore : e.state u ≠ st := by
      rw [hActs.growing]
      rcases hOther with rfl | rfl | rfl <;> simp
    simp [hAfter, hBefore]
  · rw [hActs.state_other hU]

theorem Acts.newest_eq (hY : y ≠ x) : e'.newest y = e.newest y := by
  unfold newest
  rw [hActs.versions y hY, hActs.record y hY]

end Acts

end Engine

------------
-- The History
------------

section History

open VersionHistory

variable {e e' : Engine} {h : Hist} {t : TxnId} {x : Loc}
variable {v : Option RmRecord}

theorem Supersedes.acts
    (hActs : Acts t x e e')
    {newer older : Write TxnId Loc (Option RmRecord)}
    (hPair : Supersedes e h newer older) :
    Supersedes e' h newer older := by
  intro hLoc hTxn hNewer hOlder
  have hAborted := fun u => hActs.state_eq_iff u (Or.inr (Or.inr (Eq.refl TxnState.aborted)))
  rcases hPair hLoc hTxn (fun hState => hNewer ((hAborted _).mpr hState))
    (fun hState => hOlder ((hAborted _).mpr hState)) with
    ⟨c, hC, hStart, hLater⟩
  rw [hActs.keeps.mvcc, hActs.keeps.start]
  exact ⟨c, hC, hStart, hLater⟩

/- A write that has not been committed is not seen. -/
theorem timeline_write
    (base : Loc → Option RmRecord)
    (hOpen : h.stamps t = none)
    (y : Loc) :
    timeline base (h.write ⟨t, x, v⟩) y = timeline base h y := by
  unfold timeline
  congr 1
  · funext ts
    exact History.valueAt_write hOpen base ts y
  · funext c
    exact propext (History.stampedAt_write hOpen)

theorem HistOk.open_of_running (hHist : HistOk e h)
    (hRunning : e.Running t) : h.stamps t = none := by
  cases hStamp : h.stamps t with
  | none => rfl
  | some c =>
    have hState := (hHist.stamped t c hStamp).1
    rcases hRunning with hG | ⟨reason, hF⟩
    · cases hG.symm.trans hState
    · cases hF.symm.trans hState

/- The parts of the history that an action cannot change. -/
structure HistFrame (t : TxnId) (x : Loc) (e e' : Engine) : Prop where
  acts : Engine.Acts t x e e'
  owns : ∀ u, e.Owns u x → e'.Owns u x
  keys : ∀ y, e.PlainOwns t y → (e'.txn t).mvccWriteKeys = (e.txn t).mvccWriteKeys

theorem HistFrame.owner
    (hFrame : HistFrame t x e e')
    {u : TxnId}
    {y : Loc}
    (hOwner : e.Owns u y ∨ e.PlainOwns u y) :
    e'.Owns u y ∨ e'.PlainOwns u y := by
  rcases hOwner with hO | hP
  · left
    by_cases hX : y = x
    · subst hX
      exact hFrame.owns u hO
    · exact (hFrame.acts.owns_iff hX u).mpr hO
  · right
    refine hFrame.acts.plainOwns_mono hP ?_
    rintro rfl
    exact hFrame.keys y hP

theorem HistFrame.owner_of
    (hFrame : HistFrame t x e e')
    {u : TxnId}
    {y : Loc}
    (hY : y ≠ x)
    (hOwner : e'.Owns u y ∨ e'.PlainOwns u y) :
    e.Owns u y ∨ e.PlainOwns u y := by
  rcases hOwner with hO | hP
  · exact Or.inl ((hFrame.acts.owns_iff hY u).mp hO)
  · exact Or.inr (hFrame.acts.plainOwns_of hP hY)

theorem HistFrame.growing_of
    (hFrame : HistFrame t x e e')
    {u : TxnId}
    (hGrowing : e'.state u = .growing) :
    e.state u = .growing := by
  by_cases hU : u = t
  · subst hU
    exact hFrame.acts.growing
  · rw [← hFrame.acts.state_other hU]
    exact hGrowing

/- What is left to show of a history that has the same commits. -/
theorem HistOk.of_acts
    {h' : Hist}
    (hHist : HistOk e h)
    (hActs : Acts t x e e')
    (hStamps : h'.stamps = h.stamps)
    (hBegan : ∀ w ∈ h'.writes, w.txn < e.nextTxnId ∧ e.state w.txn ≠ .default)
    (hOwns : ∀ w ∈ h'.writes, e.Running w.txn → e'.Owns w.txn w.loc ∨
      e'.PlainOwns w.txn w.loc)
    (hTops : ∀ u y, e'.state u = .growing → e'.Owns u y ∨ e'.PlainOwns u y →
        h'.top y = some ⟨u, y, e'.newest y⟩)
    (hOrder : h'.writes.Pairwise (Supersedes e h')) :
    HistOk e' h' := by
  refine ⟨?_, ?_, ?_, ?_, ?_, hTops, hOrder.imp (Supersedes.acts hActs)⟩
  · rw [hActs.keeps.nextTxnId]
    exact fun w hW => (hBegan w hW).1
  · intro w hW hState
    exact (hBegan w hW).2 ((hActs.state_eq_iff w.txn (Or.inl rfl)).mp hState)
  · intro u c hC
    rw [hStamps] at hC
    rcases hHist.stamped u c hC with ⟨hState, hLast⟩
    rw [hActs.keeps.lastCommitTs]
    exact ⟨(hActs.state_eq_iff u (Or.inr (Or.inl rfl))).mpr hState, hLast⟩
  · intro u hState
    have hBefore := (hActs.state_eq_iff u (Or.inr (Or.inl rfl))).mp hState
    have hOther : u ≠ t := by
      rintro rfl
      cases hActs.growing.symm.trans hBefore
    rw [hStamps, hActs.keeps.mvcc, hActs.txn hOther]
    exact hHist.committed u hBefore
  · intro w hW hRunning
    exact hOwns w hW ((hActs.running_iff w.txn).mp hRunning)

/- No write is added. -/
theorem HistOk.acts_same
    (hHist : HistOk e h)
    (hFrame : HistFrame t x e e')
    (hTop : ∀ u, e'.state u = .growing → e'.Owns u x ∨ e'.PlainOwns u x →
          h.top x = some ⟨u, x, e'.newest x⟩) :
    HistOk e' h := by
  refine hHist.of_acts hFrame.acts rfl (fun w hW => ⟨hHist.began w hW, hHist.state w hW⟩)
    (fun w hW hRunning => hFrame.owner (hHist.owns w hW hRunning)) ?_ hHist.order
  intro u y hGrowing hOwner
  by_cases hY : y = x
  · subst hY
    exact hTop u hGrowing hOwner
  · rw [hFrame.acts.newest_eq hY]
    exact hHist.tops u y (hFrame.growing_of hGrowing) (hFrame.owner_of hY hOwner)

/- A write is added. -/
theorem HistOk.acts_write
    (hHist : HistOk e h)
    (hFrame : HistFrame t x e e')
    (hBegan : t < e.nextTxnId)
    (hValue : e'.newest x = v)
    (hOwner : e'.Owns t x ∨ e'.PlainOwns t x)
    (hOnly : ∀ u, e'.Owns u x ∨ e'.PlainOwns u x → u = t)
    (hOlder : ∀ w ∈ h.writes, w.loc = x → w.txn ≠ t → e.state w.txn ≠ .aborted →
          ∃ c, h.stamps w.txn = some c ∧
            (e.isMvccTxn t = true → c ≤ e.startTs t)) :
    HistOk e' (h.write ⟨t, x, v⟩) := by
  have hActs := hFrame.acts
  have hOpen := hHist.open_of_running (t := t) (Or.inl hActs.growing)
  refine hHist.of_acts hActs rfl ?_ ?_ ?_ (pairwise_cons.mpr ⟨?_, hHist.order⟩)
  · intro w hW
    rcases mem_cons.mp hW with rfl | hOld
    · refine ⟨hBegan, ?_⟩
      rw [hActs.growing]
      simp
    · exact ⟨hHist.began w hOld, hHist.state w hOld⟩
  · intro w hW hRunning
    rcases mem_cons.mp hW with rfl | hOld
    · exact hOwner
    · exact hFrame.owner (hHist.owns w hOld hRunning)
  · intro u y hGrowing hOwnerY
    unfold History.top
    rw [History.latest_write]
    by_cases hY : y = x
    · subst hY
      obtain rfl := hOnly u hOwnerY
      rw [if_pos ⟨rfl, rfl⟩, hValue]
    · rw [if_neg (fun hHere => hY hHere.1.symm), hActs.newest_eq hY]
      exact hHist.tops u y (hFrame.growing_of hGrowing) (hFrame.owner_of hY hOwnerY)
  · intro w hW hLoc hTxn _ hAlive
    rcases hOlder w hW hLoc.symm (Ne.symm hTxn) hAlive with ⟨c, hC, hStart⟩
    refine ⟨c, hC, hStart, ?_⟩
    intro d hD
    cases hOpen.symm.trans hD

end History

------------
-- The Whole State
------------

namespace Consistent

variable {base : Loc → Option RmRecord} {floor : Int}
variable {e e' : Engine} {h h' : Hist} {t : TxnId} {x : Loc}

/- It is enough to look at the row and at the transaction. -/
theorem of_acts
    {rejected : Option TxnId}
    (hInv : Consistent base floor none e h)
    (hFrame : HistFrame t x e e')
    (hTimeline : ∀ y, timeline base h' y = timeline base h y)
    (hRow : RowOk base floor e' h' x)
    (hSet : e'.SetOk t)
    (hOwner : e'.physicalInsertOwners x = e.physicalInsertOwners x ∨
        e'.physicalInsertOwners x = some t ∨ e'.physicalInsertOwners x = none)
    (hAlone : e'.Plain t → ∀ u, e.Running u → e.isMvccTxn u = false)
    (hPresent : ∀ u, e'.Owns u x → rejected ≠ some u → e'.db.record x ≠ none ∧
          (e.isMvccTxn u = false → e'.locks x = some u))
    (hHist : HistOk e' h') :
    Consistent base floor rejected e' h' := by
  have hActs := hFrame.acts
  refine ⟨hInv.floorStart, ?_, ?_, ?_, hActs.tableKeys hInv.tableKeys, ?_, ?_, ?_, ?_, ?_, hHist⟩
  · rw [hActs.keeps.lastCommitTs]
    exact hInv.floorLast
  · intro u hU
    rw [hActs.keeps.nextTxnId] at hU
    have hUnused := hInv.ids u hU
    have hOther : u ≠ t := by
      rintro rfl
      exact not_running_of_unused hUnused (Or.inl hActs.growing)
    rw [hActs.txn hOther]
    exact hUnused
  · intro u hRunning hMvcc
    rw [hActs.keeps.mvcc] at hMvcc
    rw [hActs.keeps.start, hActs.keeps.lastCommitTs]
    exact hInv.starts u ((hActs.running_iff u).mp hRunning) hMvcc
  · intro y u hLock
    rw [hActs.keeps.mvcc, hActs.running_iff]
    rcases hActs.locks y with hSame | ⟨-, hLevel, hMine, -⟩
    · exact hInv.locks y u (hSame.symm.trans hLock)
    · obtain rfl := Option.some.inj (hMine.symm.trans hLock)
      exact ⟨Or.inl hActs.growing, hLevel⟩
  · intro u hRunning
    by_cases hU : u = t
    · subst hU
      exact hSet
    · refine hActs.setOk hU (hFrame.owns u) ?_ (hInv.sets u ((hActs.running_iff u).mp hRunning))
      intro hMine
      rcases hOwner with hSame | hNew | hNone
      · exact hSame.symm.trans hMine
      · exact absurd (Option.some.inj (hMine.symm.trans hNew)) hU
      · cases hNone.symm.trans hMine
  · intro u v hPlain hRunning
    rw [hActs.keeps.mvcc]
    have hBefore := (hActs.running_iff v).mp hRunning
    by_cases hU : u = t
    · subst hU
      exact hAlone hPlain v hBefore
    · exact hInv.alone u v (hActs.plain_of hPlain hU) hBefore
  · intro y u hOwns hNot
    rw [hActs.keeps.mvcc]
    by_cases hY : y = x
    · subst hY
      exact hPresent u hOwns hNot
    · rw [hActs.record y hY, hActs.lock hY]
      exact hInv.present y u ((hActs.owns_iff hY u).mp hOwns) (by simp)
  · intro y
    by_cases hY : y = x
    · subst hY
      exact hRow
    · exact hActs.row hY (hTimeline y) (hInv.rows y)

------------
-- Nothing Is Written
------------

theorem quiet (hInv : Consistent base floor none e h)
    (hQuiet : Quiet t x e e') : Consistent base floor none e' h := by
  have hActs := hQuiet.acts
  have hRecord : e'.db.record x = e.db.record x := hQuiet.edits.record_self
  have hOwns : ∀ u y, e'.Owns u y ↔ e.Owns u y :=
    fun u y => owns_congr (congrFun hQuiet.versions y)
  have hSame : ∀ u, (e'.txn u).writeSet = (e.txn u).writeSet ∧
      (e'.txn u).mvccWriteKeys = (e.txn u).mvccWriteKeys := by
    intro u
    by_cases hT : u = t
    · rw [hT]
      exact ⟨hQuiet.writeSet, hQuiet.keys⟩
    · rw [hActs.txn hT]
      exact ⟨rfl, rfl⟩
  have hPlainOf : ∀ u, e'.Plain u → e.Plain u := by
    intro u hU
    refine ⟨(hActs.running_iff u).mp hU.running, ?_, ?_, ?_⟩
    · rw [← hActs.keeps.mvcc]
      exact hU.level
    · rw [← (hSame u).2]
      exact hU.keys
    · rw [← (hSame u).1]
      exact hU.writes
  have hRunning : e.Running t := Or.inl hQuiet.growing
  -- a growing transaction has locked what it has written
  have hLocked : ∀ y, e.hasVersions t = false → y ∈ (e.txn t).writeSet.map loc →
        e.locks y = some t := by
    intro y hVersions hMem
    rcases mem_map.mp hMem with ⟨w, hW, rfl⟩
    rcases (hInv.sets t hRunning).plain hVersions w hW with
      hMine | ⟨hState, -⟩
    · exact hMine
    · exact absurd hQuiet.growing hState
  have hPlain : ∀ u, e'.PlainOwns u x → e.PlainOwns u x := by
    intro u hU
    have hBefore := hPlainOf u hU.plain
    have hWrote := hU.wrote
    rw [(hSame u).1] at hWrote
    refine ⟨hBefore, ?_, hWrote⟩
    rcases hActs.locks x with hSame | ⟨-, -, hMine, -⟩
    · exact hSame.symm.trans hU.lock
    · obtain rfl := Option.some.inj (hMine.symm.trans hU.lock)
      exact hLocked x (hasVersions_eq_false.mpr ⟨hBefore.level, hBefore.keys⟩) hWrote
  have hFrame : HistFrame t x e e' := ⟨hActs, fun u hU => (hOwns u x).mpr hU,
      fun _ _ => hQuiet.keys⟩
  refine hInv.of_acts hFrame (fun _ => rfl) ?_ ?_ (Or.inl (by rw [hQuiet.owners])) ?_ ?_ ?_
  · -- the row
    have hRow := hInv.rows x
    constructor
    · intro entry u hEntry hWriter
      rw [hQuiet.versions] at hEntry
      rw [hActs.keeps.lastCommitTs]
      exact hRow.owned entry u hEntry hWriter
    · intro u hU
      rw [(hSame u).1, (hSame u).2, hActs.running_iff]
      exact hRow.owner u ((hOwns u x).mp hU)
    · intro hNone
      have hNone' : ∀ u, ¬ e.Owns u x := fun u hU => hNone u ((hOwns u x).mpr hU)
      have hPre : e'.pre x = e.pre x := by
        rcases hActs.locks x with hKept | ⟨-, -, hMine, hOld⟩
        · unfold pre
          rw [hKept]
          cases e.locks x with
          | none => exact hRecord
          | some u => simp only [hRecord, hQuiet.owners, (hSame u).1]
        · rw [pre_of_lock hMine, hRecord, hQuiet.owners, hQuiet.writeSet]
          exact (hInv.pre_of_lockable hRunning hOld (hNone' t)).symm
      rw [hPre, hQuiet.versions, hActs.keeps.lastCommitTs]
      exact hRow.settled hNone'
    · intro u hU
      rcases hRow.live u (hPlain u hU) with ⟨hNone, hLive⟩
      refine ⟨fun v hV => hNone v ((hOwns v x).mp hV), ?_⟩
      rw [hQuiet.versions]
      exact hLive
  · -- the transaction
    have hSet := hInv.sets t hRunning
    have hVersions : e'.hasVersions t = e.hasVersions t := by
      unfold hasVersions
      rw [hActs.keeps.mvcc, hQuiet.keys]
    constructor
    · intro y hY
      rw [hQuiet.keys] at hY
      exact (hOwns t y).mpr (hSet.keys y hY)
    · intro hV w hW
      rw [hQuiet.writeSet] at hW
      rw [hVersions] at hV
      exact (hOwns t w.loc).mpr (hSet.versioned hV w hW)
    · intro hV w hW
      rw [hQuiet.writeSet] at hW
      rw [hVersions] at hV
      exact Or.inl (hActs.lock_mono (hLocked w.loc hV (mem_map.mpr ⟨w, hW, rfl⟩)))
  · exact fun hPlainT u hU => hInv.alone t u (hPlainOf t hPlainT) hU
  · intro u hU _
    rcases hInv.present x u ((hOwns u x).mp hU) (by simp) with ⟨hThere, hLock⟩
    rw [hRecord]
    exact ⟨hThere, fun hLevel => hActs.lock_mono (hLock hLevel)⟩
  · refine hInv.hist.acts_same hFrame ?_
    intro u hGrowing hOwner
    have hNewest : e'.newest x = e.newest x := by
      unfold newest
      rw [hQuiet.versions, hRecord]
    rw [hNewest]
    refine hInv.hist.tops u x (hFrame.growing_of hGrowing) ?_
    rcases hOwner with hO | hP
    · exact Or.inl ((hOwns u x).mp hO)
    · exact Or.inr (hPlain u hP)

end Consistent

end Rmdb
