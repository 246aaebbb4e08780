import Mathlib.Data.List.Induction
import Rmdb.Recovery.Recovery

/-
  This file says which transactions the analysis of a log
  calls committed and which it calls active.

  Key theorems include:
    * `mem_committedTxns`
    * `mem_activeTxns`
    * `mem_activeTxns_of_clean`
-/

namespace Rmdb

open List

/- The log holds the commit record of a transaction. -/
def HasCommit (logs : List LogRecord) (t : TxnId) : Prop :=
  ∃ r ∈ logs, r.body = .commit ∧ r.tid = t

instance
    (logs : List LogRecord)
    (t : TxnId) :
    Decidable (HasCommit logs t) := by
  unfold HasCommit
  infer_instance

theorem txnSets_concat (logs : List LogRecord)
    (r : LogRecord) : txnSets (logs ++ [r]) = (txnSets logs).scan r := by
  simp [txnSets]

theorem hasCommit_concat
    (logs : List LogRecord)
    (r : LogRecord)
    (t : TxnId) :
    HasCommit (logs ++ [r]) t ↔ HasCommit logs t ∨
      (r.body = .commit ∧ r.tid = t) :=
  exists_mem_concat

variable {logs : List LogRecord}

/- Committed are the transactions with a commit record. -/
theorem mem_committedTxns {t : TxnId} :
    t ∈ committedTxns logs ↔ HasCommit logs t := by
  induction logs using reverseRecOn with
  | nil => simp [committedTxns, txnSets, HasCommit]
  | append_singleton logs r ih =>
    rw [hasCommit_concat, ← ih]
    unfold committedTxns
    rw [txnSets_concat]
    unfold TxnSets.scan
    cases hBody : r.body with
    | commit =>
      simp only [mem_insert_iff, true_and]
      constructor
      · rintro (rfl | hOld)
        · exact Or.inr rfl
        · exact Or.inl hOld
      · rintro (hOld | rfl)
        · exact Or.inr hOld
        · exact Or.inl rfl
    | data d =>
      simp only [reduceCtorEq, false_and, or_false]
      split
      · exact Iff.rfl
      · exact Iff.rfl
    | begin => simp
    | abort => simp
    | checkpoint => simp

/- Does a record, read after some log, put its transaction on
  the active list? -/
def Activates (logs : List LogRecord) (r : LogRecord) : Prop :=
  match r.body with
  | .begin => True
  | .abort => True
  | .data _ => ¬ HasCommit logs r.tid
  | .commit => False
  | .checkpoint => False

theorem mem_activeTxns_concat
    (logs : List LogRecord)
    (r : LogRecord)
    (t : TxnId) :
    t ∈ activeTxns (logs ++ [r]) ↔
        (t ∈ activeTxns logs ∧ ¬ (r.body = .commit ∧ r.tid = t)) ∨
        (r.tid = t ∧ Activates logs r) := by
  unfold activeTxns Activates
  rw [txnSets_concat]
  unfold TxnSets.scan
  cases hBody : r.body with
  | commit =>
    have hFlip : (¬ t = r.tid) ↔ ¬ r.tid = t := not_congr eq_comm
    simp [hFlip]
  | data d =>
    have hCommit : r.tid ∈ (txnSets logs).committedTxns ↔ HasCommit logs r.tid := mem_committedTxns
    by_cases hIn : HasCommit logs r.tid
    · simp [hCommit, hIn]
    · simp only [hCommit, hIn, if_false, mem_insert_iff]
      simp [or_comm, eq_comm]
  | begin | abort => simp [or_comm, eq_comm]
  | checkpoint => simp

/- Active are the transactions with an activating record that
  no commit record of theirs follows. -/
theorem mem_activeTxns {t : TxnId} :
    t ∈ activeTxns logs ↔ ∃ first r second, logs = first ++ r :: second ∧
        r.tid = t ∧
        Activates first r ∧ ¬ HasCommit second t := by
  induction logs using reverseRecOn with
  | nil => simp [activeTxns, txnSets]
  | append_singleton logs a ih =>
    rw [mem_activeTxns_concat, ih]
    constructor
    · rintro (⟨⟨first, r, second, hLogs, hTid, hAct, hNo⟩, hCommit⟩ | ⟨hTid, hAct⟩)
      · refine ⟨first, r, second ++ [a], ?_, hTid, hAct, ?_⟩
        · simp [hLogs]
        · rw [hasCommit_concat]
          rintro (hOld | hNew)
          · exact hNo hOld
          · exact hCommit hNew
      · exact ⟨logs, a, [], by simp, hTid, hAct, by simp [HasCommit]⟩
    · rintro ⟨first, r, second, hLogs, hTid, hAct, hNo⟩
      rcases eq_nil_or_concat second with
        rfl | ⟨init, last, rfl⟩
      · -- the activating record is the last one
        have hSplit := append_inj' hLogs rfl
        rcases hSplit with ⟨rfl, hLast⟩
        obtain rfl : a = r := by simpa using hLast
        exact Or.inr ⟨hTid, hAct⟩
      · left
        rw [concat_eq_append] at hLogs hNo
        rw [← cons_append, ← append_assoc] at hLogs
        have hSplit := append_inj' hLogs rfl
        rcases hSplit with ⟨rfl, hLast⟩
        obtain rfl : a = last := by simpa using hLast
        rw [hasCommit_concat, not_or] at hNo
        exact ⟨⟨first, r, init, rfl, hTid, hAct, hNo.1⟩, hNo.2⟩

/- A log in which no committed transaction has a begin or an
  abort record. -/
def Clean (logs : List LogRecord) : Prop :=
  ∀ r ∈ logs, r.body = .begin ∨ r.body = .abort →
    ¬ HasCommit logs r.tid

/- On such a log a transaction with a data record is active
  exactly if it has no commit record. -/
theorem mem_activeTxns_of_clean
    {r : LogRecord}
    {d : DataRecord}
    (hClean : Clean logs)
    (hMem : r ∈ logs)
    (hBody : r.body = .data d) :
    r.tid ∈ activeTxns logs ↔ ¬ HasCommit logs r.tid := by
  rw [mem_activeTxns]
  constructor
  · rintro ⟨first, a, second, rfl, hTid, hAct, hNo⟩ hCommit
    have hIn : a ∈ first ++ a :: second := by simp
    cases hA : a.body with
    | begin => exact hClean a hIn (Or.inl hA) (hTid ▸ hCommit)
    | abort => exact hClean a hIn (Or.inr hA) (hTid ▸ hCommit)
    | commit | checkpoint => simp [Activates, hA] at hAct
    | data e =>
      simp only [Activates, hA] at hAct
      rw [hTid] at hAct
      rcases hCommit with ⟨c, hC, hCBody, hCTid⟩
      rcases mem_append.mp hC with hC | hC
      · exact hAct ⟨c, hC, hCBody, hCTid⟩
      · rcases mem_cons.mp hC with rfl | hC
        · rw [hA] at hCBody
          cases hCBody
        · exact hNo ⟨c, hC, hCBody, hCTid⟩
  · intro hNo
    rcases append_of_mem hMem with ⟨first, second, rfl⟩
    refine ⟨first, r, second, rfl, rfl, ?_, ?_⟩
    · simp only [Activates, hBody]
      rintro ⟨c, hC, hCBody, hCTid⟩
      exact hNo ⟨c, by simp [hC], hCBody, hCTid⟩
    · rintro ⟨c, hC, hCBody, hCTid⟩
      exact hNo ⟨c, by simp [hC], hCBody, hCTid⟩

/- On such a log undo takes back what redo does not repeat. -/
theorem undoLogs_of_clean (hClean : Clean logs) :
    undoLogs logs = (logs.filter (fun r =>
        r.data?.isSome ∧ ¬ HasCommit logs r.tid)).reverse := by
  unfold undoLogs
  rw [filter_reverse]
  congr 1
  apply filter_congr
  intro r hMem
  cases hData : r.data? with
  | none => simp
  | some d =>
    have hBody := LogRecord.data?_eq_some.mp hData
    simp [mem_activeTxns_of_clean hClean hMem hBody]

end Rmdb
