import Mathlib.Data.List.Induction
import Rmdb.Recovery.DbView

/-
  This file gives a log its meaning: the value that the
  logged changes, applied in log order, leave in a row.

  Key definitions include:
    * `Log.value`
    * `Log.upto`
    * `Log.ChangedBy`
    * `Log.InOrder`

  Key theorems include:
    * `Log.value_concat`
    * `Log.value_filter_congr`
    * `Log.replay_pageLog`
-/

namespace Rmdb

namespace Log

------------
-- The Value Of A Row
------------

/- Does a log record change a row? -/
def Changes (x : Loc) (r : LogRecord) : Prop :=
  ∃ d, r.body = .data d ∧ d.loc = x

variable {x : Loc} {r : LogRecord}

theorem changes_iff : Changes x r ↔ ∃ d, r.data? = some d ∧ d.loc = x := by
  simp [Changes, LogRecord.data?_eq_some]

instance (x : Loc) (r : LogRecord) : Decidable (Changes x r) :=
  match h : r.data? with
  | some d =>
    if hLoc : d.loc = x then
      .isTrue (changes_iff.mpr ⟨d, h, hLoc⟩)
    else
      .isFalse (by
        intro hChanges
        rcases changes_iff.mp hChanges with ⟨e, hE, hX⟩
        rw [h] at hE
        obtain rfl := Option.some.inj hE
        exact hLoc hX)
  | none =>
    .isFalse (by
      intro hChanges
      rcases changes_iff.mp hChanges with ⟨e, hE, _⟩
      rw [h] at hE
      exact absurd hE (by simp))

/- Apply one log record to the value of a row. -/
def applyTo
    (x : Loc)
    (v : Option RmRecord)
    (r : LogRecord) :
    Option RmRecord :=
  match r.data? with
  | some d => if d.loc = x then d.after else v
  | none => v

/- The value of a row after the changes of a log. -/
def value (x : Loc) (log : List LogRecord) : Option RmRecord :=
  log.foldl (applyTo x) none

@[simp] theorem value_nil (x : Loc) : value x [] = none := rfl

theorem value_concat
    (x : Loc)
    (log : List LogRecord)
    (r : LogRecord) :
    value x (log ++ [r]) = applyTo x (value x log) r := by
  simp [value]

theorem applyTo_of_changes
    {d : DataRecord}
    (hBody : r.body = .data d)
    (hLoc : d.loc = x)
    (v : Option RmRecord) :
    applyTo x v r = d.after := by
  simp [applyTo, LogRecord.data?_eq_some.mpr hBody, hLoc]

theorem applyTo_of_not_changes (hOther : ¬ Changes x r)
    (v : Option RmRecord) : applyTo x v r = v := by
  unfold applyTo
  cases hData : r.data? with
  | none => rfl
  | some d =>
    have hLoc : d.loc ≠ x := fun h => hOther (changes_iff.mpr ⟨d, hData, h⟩)
    simp [hLoc]

variable {log : List LogRecord} {p : LogRecord → Bool}

/- The value depends on the records of the row only. -/
theorem value_filter_congr
    {q : LogRecord → Bool}
    (hSame : ∀ r ∈ log, Changes x r → p r = q r) :
    value x (log.filter p) = value x (log.filter q) := by
  induction log using List.reverseRecOn with
  | nil => rfl
  | append_singleton log r ih =>
    have ihRest := ih (fun a hMem => hSame a (List.mem_append_left _ hMem))
    rw [List.filter_append, List.filter_append]
    by_cases hChanges : Changes x r
    · have hPq := hSame r (by simp) hChanges
      cases hq : q r with
      | false =>
        simp [hPq, hq, ihRest]
      | true =>
        simp only [List.filter_cons, hPq, hq, if_true, List.filter_nil]
        rw [value_concat, value_concat, ihRest]
    · have hDrop : ∀ (f : LogRecord → Bool) rs, value x (rs ++ [r].filter f) = value x rs := by
        intro f rs
        cases hf : f r with
        | false => simp [hf]
        | true =>
          simp only [List.filter_cons, hf, if_true, List.filter_nil]
          rw [value_concat, applyTo_of_not_changes hChanges]
      rw [hDrop, hDrop, ihRest]

theorem value_filter
    (hAll : ∀ r ∈ log, Changes x r → p r = true) :
    value x (log.filter p) = value x log := by
  have hTrue := value_filter_congr (q := fun _ => true) hAll
  simpa using hTrue

------------
-- Parts Of A Log
------------

/- The records up to an LSN. -/
def upto (lsn : Int) (log : List LogRecord) : List LogRecord :=
  log.filter (fun r => r.lsn ≤ lsn)

/- A transaction has logged a change of a row. -/
def ChangedBy (log : List LogRecord) (t : TxnId) (x : Loc) : Prop :=
  ∃ r ∈ log, r.tid = t ∧ Changes x r

instance
    (log : List LogRecord)
    (t : TxnId)
    (x : Loc) :
    Decidable (ChangedBy log t x) := by
  unfold ChangedBy
  infer_instance

/- A record's LSN is its position in the log. -/
def InOrder (log : List LogRecord) : Prop :=
  ∀ (i : Nat) (r : LogRecord), log[i]? = some r → r.lsn = i

theorem changedBy_concat
    (log : List LogRecord)
    (r : LogRecord)
    (t : TxnId)
    (x : Loc) :
    ChangedBy (log ++ [r]) t x ↔ ChangedBy log t x ∨
      (r.tid = t ∧ Changes x r) := by
  constructor
  · rintro ⟨a, hMem, hTid, hChanges⟩
    rcases mem_concat.mp hMem with hOld | rfl
    · exact Or.inl ⟨a, hOld, hTid, hChanges⟩
    · exact Or.inr ⟨hTid, hChanges⟩
  · rintro (⟨a, hMem, hTid, hChanges⟩ | ⟨hTid, hChanges⟩)
    · exact ⟨a, List.mem_append_left _ hMem, hTid, hChanges⟩
    · exact ⟨r, by simp, hTid, hChanges⟩

theorem upto_concat
    {lsn : Int}
    (hLt : lsn < r.lsn) :
    upto lsn (log ++ [r]) = upto lsn log := by
  simp [upto, Int.not_le.mpr hLt]

theorem upto_all
    {lsn : Int}
    (hAll : ∀ r ∈ log, r.lsn ≤ lsn) :
    upto lsn log = log := by
  simpa [upto, List.filter_eq_self] using hAll

section InOrder

variable {log : List LogRecord}

variable (hOrder : InOrder log)
include hOrder

theorem InOrder.bounds (hMem : r ∈ log) : 0 ≤ r.lsn ∧ r.lsn < log.length := by
  rcases List.mem_iff_getElem?.mp hMem with ⟨i, hi⟩
  have hLsn := hOrder i r hi
  have hLt : i < log.length := by
    rcases List.getElem?_eq_some_iff.mp hi with ⟨h, _⟩
    exact h
  omega

/- An LSN names one record. -/
theorem InOrder.eq_of_lsn_eq
    {r' : LogRecord}
    (hMem : r ∈ log)
    (hMem' : r' ∈ log)
    (hLsn : r.lsn = r'.lsn) :
    r = r' := by
  rcases List.mem_iff_getElem?.mp hMem with ⟨i, hi⟩
  rcases List.mem_iff_getElem?.mp hMem' with ⟨j, hj⟩
  have hI := hOrder i r hi
  have hJ := hOrder j r' hj
  have hEq : i = j := by omega
  subst hEq
  rw [hi] at hj
  exact Option.some.inj hj

theorem InOrder.concat (hLsn : r.lsn = log.length) : InOrder (log ++ [r]) := by
  intro i a hGet
  rcases Nat.lt_or_ge i log.length with hLt | hGe
  · rw [List.getElem?_append_left hLt] at hGet
    exact hOrder i a hGet
  · rw [List.getElem?_append_right hGe] at hGet
    have hZero : i - log.length = 0 := by
      by_contra hPos
      rw [List.getElem?_eq_none (by simp; omega)] at hGet
      cases hGet
    rw [hZero] at hGet
    obtain rfl : r = a := by simpa using hGet
    omega

theorem InOrder.take (k : Nat) : InOrder (log.take k) := by
  intro i r hGet
  rw [List.getElem?_take] at hGet
  split at hGet
  · exact hOrder i r hGet
  · cases hGet

/- A prefix of the log holds exactly the lower LSNs. -/
theorem InOrder.mem_take_iff
    (hMem : r ∈ log)
    (k : Nat) :
    r ∈ log.take k ↔ r.lsn < k := by
  rcases List.mem_iff_getElem?.mp hMem with ⟨i, hi⟩
  have hLsn := hOrder i r hi
  constructor
  · intro hTake
    rcases List.mem_iff_getElem?.mp hTake with ⟨j, hj⟩
    have hJ := hOrder.take k j r hj
    rw [List.getElem?_take] at hj
    split at hj
    · omega
    · cases hj
  · intro hLt
    have hi' : (log.take k)[i]? = some r := by
      rw [List.getElem?_take]
      rw [if_pos (by omega)]
      exact hi
    exact List.mem_of_getElem? hi'

theorem InOrder.pairwise : log.Pairwise (fun a b => a.lsn < b.lsn) := by
  rw [List.pairwise_iff_getElem]
  intro i j hi hj hLt
  have hI := hOrder i log[i] (List.getElem?_eq_getElem hi)
  have hJ := hOrder j log[j] (List.getElem?_eq_getElem hj)
  omega

end InOrder

end Log

end Rmdb
