import Rmdb.Mvcc.ConsistentEnds

/-
  This file keeps the books of the running MVCC transactions:
  the counter is their number, and the watermark is the least
  of their start timestamps, or the last commit timestamp if
  there is none.

  Key definitions include:
    * `Engine.Roster`

  Key theorems include:
    * `Engine.Roster.countsMvcc`
    * `Engine.Roster.watermark_le_start`
    * `Engine.Roster.same`
    * `Engine.Roster.leaves`
    * `Engine.Roster.begin`
-/

namespace Rmdb

open List

namespace Engine

/- The list is that of the running MVCC transactions. -/
structure RosterOf (e : Engine) (l : List TxnId) : Prop where
  nodup : l.Nodup
  mem : ∀ t, t ∈ l ↔ e.Running t ∧ e.isMvccTxn t = true
  count : e.activeMvccTxnCount = l.length
  reads : e.runningTxns.currentReads.Perm (l.map e.startTs)
  ok : e.runningTxns.Ok
  commit : e.runningTxns.commitTs = e.lastCommitTs

def Roster (e : Engine) : Prop :=
  ∃ l, e.RosterOf l

namespace Roster

variable {e e' : Engine} {t : TxnId} {floor : Int}

variable (hRoster : e.Roster)
include hRoster

theorem countsMvcc : e.CountsMvcc := by
  rcases hRoster with ⟨l, hL⟩
  unfold CountsMvcc
  rw [hL.count]
  constructor
  · intro hSome
    cases l with
    | nil => simp at hSome
    | cons u rest => exact ⟨u, (hL.mem u).mp mem_cons_self⟩
  · rintro ⟨u, hU⟩
    have hMem := (hL.mem u).mpr hU
    have hPos := length_pos_of_mem hMem
    exact Int.ofNat_lt.mpr hPos

theorem watermark_le_start (hRunning : e.Running t)
    (hMvcc : e.isMvccTxn t = true) : e.runningTxns.watermark ≤ e.startTs t := by
  rcases hRoster with ⟨l, hL⟩
  apply hL.ok.le_read
  rw [hL.reads.mem_iff]
  exact mem_map_of_mem ((hL.mem t).mpr ⟨hRunning, hMvcc⟩)

theorem le_watermark
    (hStarts : ∀ t, e.Running t → e.isMvccTxn t = true → floor ≤ e.startTs t)
    (hLast : floor ≤ e.lastCommitTs) :
    floor ≤ e.runningTxns.watermark := by
  rcases hRoster with ⟨l, hL⟩
  apply hL.ok.ge_bound
  · intro r hR
    rw [hL.reads.mem_iff] at hR
    rcases mem_map.mp hR with ⟨u, hU, rfl⟩
    rcases (hL.mem u).mp hU with ⟨hRunning, hMvcc⟩
    exact hStarts u hRunning hMvcc
  · rw [hL.commit]
    exact hLast

theorem watermark_le_last
    (hStarts : ∀ t, e.Running t → e.isMvccTxn t = true →
      e.startTs t ≤ e.lastCommitTs) :
    e.runningTxns.watermark ≤ e.lastCommitTs := by
  rcases hRoster with ⟨l, hL⟩
  cases l with
  | nil =>
    have hNone : e.runningTxns.currentReads = [] := by
      have hPerm := hL.reads
      exact perm_nil.mp hPerm
    rw [hL.ok.of_no_reads hNone, hL.commit]
  | cons u rest =>
    rcases (hL.mem u).mp mem_cons_self with ⟨hRunning, hMvcc⟩
    exact le_trans (watermark_le_start ⟨u :: rest, hL⟩ hRunning hMvcc) (hStarts u hRunning hMvcc)

/- Nobody begins or ends. -/
theorem same
    (hRunning : ∀ t, e'.Running t ↔ e.Running t)
    (hMvcc : ∀ t, e'.isMvccTxn t = e.isMvccTxn t)
    (hStart : ∀ t, e'.startTs t = e.startTs t)
    (hTxns : e'.runningTxns = e.runningTxns)
    (hActive : e'.activeMvccTxnCount = e.activeMvccTxnCount)
    (hLast : e'.lastCommitTs = e.lastCommitTs) :
    e'.Roster := by
  rcases hRoster with ⟨l, hL⟩
  have hStarts : e'.startTs = e.startTs := funext hStart
  refine ⟨l, hL.nodup, ?_, ?_, ?_, ?_, ?_⟩
  · intro t
    rw [hRunning, hMvcc]
    exact hL.mem t
  · rw [hActive]
    exact hL.count
  · rw [hTxns, hStarts]
    exact hL.reads
  · rw [hTxns]
    exact hL.ok
  · rw [hTxns, hLast]
    exact hL.commit

/- A transaction ends, and perhaps gets a timestamp. -/
theorem leaves
    (hEnd : Leaves t e e')
    (running : Watermark)
    (hReads : running.currentReads = e.runningTxns.currentReads)
    (hOk : running.Ok)
    (hCommit : running.commitTs = e'.lastCommitTs)
    (hTxns : e'.runningTxns =
        if e.isMvccTxn t then
          running.removeTxn (e.startTs t)
        else
          running)
    (hActive : e'.activeMvccTxnCount =
        if e.isMvccTxn t then
          e.activeMvccTxnCount - 1
        else
          e.activeMvccTxnCount) :
    e'.Roster := by
  rcases hRoster with ⟨l, hL⟩
  have hStarts : e'.startTs = e.startTs := funext hEnd.startTs
  cases hMvcc : e.isMvccTxn t with
  | false =>
    rw [hMvcc] at hTxns hActive
    simp only [Bool.false_eq_true, if_false] at hTxns hActive
    refine ⟨l, hL.nodup, ?_, ?_, ?_, ?_, ?_⟩
    · intro u
      rw [hL.mem u, hEnd.mvcc u]
      by_cases hU : u = t
      · subst hU
        simp [hMvcc]
      · rw [hEnd.running_iff hU]
    · rw [hActive]
      exact hL.count
    · rw [hTxns, hReads, hStarts]
      exact hL.reads
    · rw [hTxns]
      exact hOk
    · rw [hTxns]
      exact hCommit
  | true =>
    rw [hMvcc] at hTxns hActive
    simp only [if_true] at hTxns hActive
    have hMem : t ∈ l := (hL.mem t).mpr ⟨hEnd.running, hMvcc⟩
    have hRead : e.startTs t ∈ running.currentReads := by
      rw [hReads, hL.reads.mem_iff]
      exact mem_map_of_mem hMem
    have hPerm : (l.map e.startTs).Perm (e.startTs t :: (l.erase t).map e.startTs) :=
      (perm_cons_erase hMem).map e.startTs
    refine ⟨l.erase t, hL.nodup.erase t, ?_, ?_, ?_, ?_, ?_⟩
    · intro u
      rw [hL.nodup.mem_erase_iff, hL.mem u, hEnd.mvcc u]
      by_cases hU : u = t
      · subst hU
        simp [hEnd.ended]
      · simp [hU, hEnd.running_iff hU]
    · have hPos := length_pos_of_mem hMem
      rw [hActive, hL.count, length_erase_of_mem hMem]
      omega
    · rw [hTxns, hStarts]
      have hErased : (running.removeTxn (e.startTs t)).currentReads =
            running.currentReads.erase (e.startTs t) := by
        simp [Watermark.removeTxn, hRead]
      rw [hErased, hReads]
      have hBoth := (hL.reads.trans hPerm).erase (e.startTs t)
      rw [erase_cons_head] at hBoth
      exact hBoth
    · rw [hTxns]
      exact Watermark.ok_removeTxn hOk _
    · rw [hTxns, ← hCommit]
      unfold Watermark.removeTxn
      split
      · rfl
      · rfl

/- An MVCC transaction begins. -/
theorem joins
    (txn : MvccTxn)
    (hIdle : ¬ e.Running e.nextTxnId)
    (hState : txn.state = .growing)
    (hMvcc : txn.isolationLevel.mvcc = true)
    (hTxn : e'.txn = Function.update e.txn e.nextTxnId txn)
    (hTxns : e'.runningTxns = e.runningTxns.addTxn txn.startTs)
    (hActive : e'.activeMvccTxnCount = e.activeMvccTxnCount + 1)
    (hLast : e'.lastCommitTs = e.lastCommitTs) :
    e'.Roster := by
  rcases hRoster with ⟨l, hL⟩
  have hNew : (e.nextTxnId : TxnId) ∉ l := fun hMem => hIdle ((hL.mem _).mp hMem).1
  have hSelf : e'.txn e.nextTxnId = txn := by rw [hTxn, Function.update_self]
  have hOther : ∀ u : TxnId, u ≠ e.nextTxnId → e'.txn u = e.txn u := by
    intro u hU
    rw [hTxn, Function.update_of_ne hU]
  refine ⟨e.nextTxnId :: l, nodup_cons.mpr ⟨hNew, hL.nodup⟩, ?_, ?_, ?_, ?_, ?_⟩
  · intro u
    rw [mem_cons, hL.mem u]
    by_cases hU : u = e.nextTxnId
    · subst hU
      simp [Running, Engine.state, isMvccTxn, hSelf, hState, hMvcc]
    · simp [hU, Running, Engine.state, isMvccTxn, hOther u hU]
  · rw [hActive, hL.count, length_cons]
    omega
  · have hReads : e'.runningTxns.currentReads = txn.startTs :: e.runningTxns.currentReads := by
      rw [hTxns]
      rfl
    have hStart : e'.startTs e.nextTxnId = txn.startTs := by
      unfold Engine.startTs
      rw [hSelf]
    have hRest : l.map e'.startTs = l.map e.startTs := by
      apply map_congr_left
      intro u hU
      unfold Engine.startTs
      rw [hOther u (fun hN => hNew (hN ▸ hU))]
    rw [hReads, map_cons, hStart, hRest]
    exact hL.reads.cons _
  · rw [hTxns]
    exact Watermark.ok_addTxn hL.ok _
  · rw [hTxns, hLast, ← hL.commit]
    rfl

end Roster

end Engine

end Rmdb
