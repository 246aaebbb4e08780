import Rmdb.Transaction.Simulation

/-
  This file looks at the server after a crash: the surviving
  prefix of the log and the files on disk.  Page by page they
  form a history with honest before-images and a faithful
  image, which is what the general results on page recovery
  ask for.

  Key theorems include:
    * `Log.replay_entriesOn`
    * `Sys.crash_inRange`
    * `Sys.crash_clean`
    * `Sys.crash_history`
    * `Sys.crash_faithful`
-/

namespace Rmdb

open Log Wal

variable {P : PageId} {slotNo : Int}

------------
-- The Entries Of A Page And The Value Of A Row
------------

namespace Log

/- A prefix of the log that goes beyond an LSN. -/
theorem upto_take
    {log : List LogRecord}
    {lsn : Int}
    {k : Nat}
    (hOrder : Log.InOrder log)
    (hLt : lsn < k) :
    upto lsn (log.take k) = upto lsn log := by
  have hDrop : upto lsn (log.drop k) = [] := by
    unfold upto
    rw [List.filter_eq_nil_iff]
    intro r hR
    rcases List.mem_iff_getElem?.mp hR with ⟨i, hi⟩
    rw [List.getElem?_drop] at hi
    have hLsn := hOrder (k + i) r hi
    simp only [decide_eq_true_eq, not_le]
    omega
  calc
    upto lsn (log.take k) = upto lsn (log.take k) ++ upto lsn (log.drop k) := by
      rw [hDrop, List.append_nil]
    _ = upto lsn (log.take k ++ log.drop k) := (List.filter_append ..).symm
    _ = upto lsn log := by rw [List.take_append_drop]

theorem upto_entriesOn
    (P : PageId)
    (won : TxnId → Bool)
    (lsn : Int)
    (log : List LogRecord) :
    PageRecovery.upto lsn (entriesOn P won log) =
      entriesOn P won (upto lsn log) :=
  filter_entriesOn P log (fun _ _ _ => ⟨rfl, fun _ => rfl⟩)

theorem loc_eq_slotLoc_iff {x : Loc} :
    x = slotLoc P slotNo ↔ x.page = P ∧ x.rid.slotNo = slotNo := by
  constructor
  · rintro rfl
    exact ⟨rfl, rfl⟩
  · rintro ⟨rfl, rfl⟩
    rfl

/- The entries of a slot replay to the value of its row. -/
theorem replay_entriesOn
    (P : PageId)
    (won : TxnId → Bool)
    (slotNo : Int)
    (log : List LogRecord) :
    PageRecovery.replay none (PageRecovery.on slotNo (entriesOn P won log)) =
      value (slotLoc P slotNo) log := by
  induction log using List.reverseRecOn with
  | nil => rfl
  | append_singleton log r ih =>
    rw [value_concat, ← ih, entriesOn_append,
      PageRecovery.on, List.filter_append, ← PageRecovery.on,
      ← PageRecovery.on, PageRecovery.replay_append, entriesOn_singleton]
    unfold applyTo
    cases hData : r.data? with
    | none => rfl
    | some d =>
      simp only [loc_eq_slotLoc_iff]
      by_cases hPage : d.loc.page = P
      · by_cases hSlot : d.loc.rid.slotNo = slotNo
        · have hKeep : PageRecovery.on slotNo [d.entry r.lsn (won r.tid)] =
              [d.entry r.lsn (won r.tid)] := List.filter_cons_of_pos (decide_eq_true hSlot)
          simp only [hPage, hSlot, and_self, if_true, hKeep]
          rfl
        · have hSkip : PageRecovery.on slotNo [d.entry r.lsn (won r.tid)] = [] :=
            List.filter_cons_of_neg (by rw [decide_eq_true_iff]; exact hSlot)
          simp only [hPage, hSlot, and_false, if_true, if_false, hSkip]
          rfl
      · simp [hPage, PageRecovery.on]

end Log

/- Files on disk, with the start of their free page lists; no
  page has a link to another one. -/
def Db.files (db : Db) (first : TabName → Int) : Files :=
  fun tab => ⟨db tab, first tab, fun _ => noPage⟩

namespace Sys

/- A step is orderly, and index pages are written by
  checkpoints only. -/
def DiskGuard (s : Sys) :
    Act → Prop
| .flushIndex _ _ _ => False
| a => s.Orderly a

instance (s : Sys) (a : Act) : Decidable (s.DiskGuard a) := by
  apply Act.casesOn (motive := fun a => Decidable (s.DiskGuard a)) a <;>
    intros <;> unfold DiskGuard <;> infer_instance

theorem DiskGuard.orderly
    {s : Sys}
    {a : Act}
    (hGuard : s.DiskGuard a) :
    s.Orderly a := by
  cases a with
  | flushIndex => exact trivial
  | _ => exact hGuard

------------
-- What A Crash Leaves
------------

section Crash

variable {db₀ : Db} {s : Sys} {k : Nat}

variable {r : LogRecord}

theorem mem_of_mem_take (hMem : r ∈ s.log.take k) :
    r ∈ s.log := List.mem_of_mem_take hMem

theorem hasCommit_of_take {t : TxnId}
    (hCommit : HasCommit (s.log.take k) t) : HasCommit s.log t := by
  rcases hCommit with ⟨r, hR, hRest⟩
  exact ⟨r, mem_of_mem_take hR, hRest⟩

theorem crash_inRange (hWrite : WriteInv db₀ s)
    (hInv : Inv (inRange db₀) s.view) : InRange s.disk (s.log.take k) := by
  intro r hR d hBody
  have hMem := mem_of_mem_take hR
  have hRange := hInv.range.logged r hMem d.loc ⟨d, hBody, rfl⟩
  refine ⟨(hInv.order.bounds hMem).1, hRange.1, ?_⟩
  exact ((hWrite.diskLayout d.tab).hasSlot d.rid).mpr hRange.2

/- The header of a file counts its own page. -/
theorem crash_header
    (hEmpty : db₀.Empty)
    (hWrite : WriteInv db₀ s)
    (tab : TabName) :
    firstRecordPage ≤ (s.disk tab).numPages := by
  rw [← (hEmpty tab).1]
  exact (hWrite.diskLayout tab).2

/- A record of a slot is an entry of the slot's page. -/
theorem entry_of_changes
    {logs : List LogRecord}
    (hMem : r ∈ logs)
    (hChanges : Changes (slotLoc P slotNo) r) :
    ∃ e ∈ pageLog P logs, e.slot = slotNo ∧ e.lsn = r.lsn ∧
      e.winner = decide (HasCommit logs r.tid) := by
  rcases hChanges with ⟨d, hBody, hLoc⟩
  rcases loc_eq_slotLoc_iff.mp hLoc with ⟨hPage, hSlot⟩
  exact ⟨_, mem_entriesOn.mpr ⟨r, hMem, d, hBody, hPage, rfl⟩, hSlot, rfl, rfl⟩

variable (hInv : Inv (inRange db₀) s.view)
include hInv

/- Who has a commit record in the log is not doomed. -/
theorem not_doomed_of_hasCommit {t : TxnId}
    (hCommit : HasCommit s.log t) : s.view.status t ≠ .doomed := by
  intro hDoomed
  rcases (hInv.status t).commit hCommit with h | h
  · cases hDoomed.symm.trans h
  · cases hDoomed.symm.trans h

/- An aborted transaction has no commit record. -/
theorem crash_clean : Clean (s.log.take k) := by
  intro r hR hBody hCommit
  have hAbort : HasAbort s.log r.tid := ⟨r, mem_of_mem_take hR, hBody, rfl⟩
  exact not_doomed_of_hasCommit hInv (hasCommit_of_take hCommit) ((hInv.status r.tid).abort hAbort)

/- If no covered entry of a slot is a loser, then no covered
  record of its row belongs to a doomed transaction. -/
theorem not_doomed_of_winners
    {lsn : Int}
    (hLsn : lsn < k)
    (hWinners : ∀ e ∈ pageLog P (s.log.take k), e.slot = slotNo →
      e.lsn ≤ lsn → e.winner = true)
    (hMem : r ∈ s.log)
    (hChanges : Changes (slotLoc P slotNo) r)
    (hLe : r.lsn ≤ lsn) :
    s.view.status r.tid ≠ .doomed := by
  have hOrder : Log.InOrder s.log := hInv.order
  have hTake : r ∈ s.log.take k := by
    rw [hOrder.mem_take_iff hMem]
    omega
  rcases entry_of_changes hTake hChanges with ⟨e, hE, hSlot, hELsn, hWin⟩
  have hTrue := hWinners e hE hSlot (by omega)
  rw [hWin, decide_eq_true_iff] at hTrue
  exact not_doomed_of_hasCommit hInv (hasCommit_of_take hTrue)

/- The surviving entries of a page form a history. -/
theorem crash_history
    (P : PageId) :
    PageRecovery.History (fun _ => none) (pageLog P (s.log.take k)) := by
  have hOrder : Log.InOrder s.log := hInv.order
  constructor
  · unfold PageRecovery.Sorted pageLog entriesOn
    rw [List.pairwise_filterMap]
    refine (hOrder.take k).pairwise.imp ?_
    intro a b hLt e hE e' hE'
    cases hA : a.data? with
    | none => simp [hA] at hE
    | some d =>
      cases hB : b.data? with
      | none => simp [hB] at hE'
      | some d' =>
        simp only [hA, Option.ite_none_right_eq_some, Option.some.injEq] at hE
        simp only [hB, Option.ite_none_right_eq_some, Option.some.injEq] at hE'
        rw [← hE.2, ← hE'.2]
        exact hLt
  · intro e hE hWinners
    rcases mem_entriesOn.mp hE with ⟨r, hR, d, hBody, hPage, rfl⟩
    have hMem := mem_of_mem_take hR
    have hLsn : r.lsn < k := (hOrder.mem_take_iff hMem k).mp hR
    have hLoc : d.loc = slotLoc P d.loc.rid.slotNo := loc_eq_slotLoc_iff.mpr ⟨hPage, rfl⟩
    have hBefore := hInv.before r hMem d hBody (by
      intro a hA hChanges hLt
      rw [hLoc] at hChanges
      have hPrev : r.lsn - 1 < k := by omega
      refine not_doomed_of_winners hInv hPrev ?_ hA hChanges (by omega)
      intro e' hE' hSlot hLe
      have hLt' : e'.lsn < (d.entry r.lsn (decide (HasCommit (s.log.take k) r.tid))).lsn := by
        rw [DataRecord.entry_lsn]
        omega
      exact hWinners e' hE' hSlot hLt')
    calc
      d.before = value d.loc (upto (r.lsn - 1) s.log) := hBefore
      _ = value d.loc (upto (r.lsn - 1) (s.log.take k)) := by
        rw [upto_take hOrder (by omega)]
      _ = _ := by
        rw [pageLog, upto_entriesOn, replay_entriesOn, hLoc]
        rfl

/- The image of a page on disk is faithful to its history. -/
theorem crash_faithful (hCrash : s.flushed ≤ k)
    (P : PageId) :
    (s.disk.image P).Faithful (fun _ => none) (pageLog P (s.log.take k)) := by
  intro slotNo hWinners
  have hOrder : Log.InOrder s.log := hInv.order
  have hLsn : (s.disk.image P).lsn < k := by
    have hBound := (hInv.disk.lsn P).2
    have hBound' : (s.disk.image P).lsn < s.flushed := hBound
    omega
  rw [pageLog, upto_entriesOn, replay_entriesOn, upto_take hOrder hLsn]
  apply hInv.disk.image P slotNo
  intro r hR hChanges hLe
  exact not_doomed_of_winners hInv hLsn hWinners hR hChanges hLe

end Crash

------------
-- A Small Database
------------

/- Empty tables with two slots a page and no index. -/
def twoSlotTables : Db :=
  fun _ => ⟨firstRecordPage, 2, fun _ => blankPage, []⟩

theorem twoSlotTables_empty : twoSlotTables.Empty := by
  intro tab
  simp [twoSlotTables]

def firstRow : Loc :=
  ⟨[116], ⟨1, 0⟩⟩

def secondRow : Loc :=
  ⟨[116], ⟨1, 1⟩⟩

/- A result that has been computed. -/
theorem exists_ok_of_any
    {α : Type}
    {e : Except RmdbError α}
    {p : α → Prop}
    [DecidablePred p]
    (hAny : e.toOption.any (fun a => decide (p a)) = true) :
    ∃ a, e = .ok a ∧ p a := by
  cases e with
  | error err => cases hAny
  | ok a => exact ⟨a, rfl, of_decide_eq_true hAny⟩

end Sys

end Rmdb
