import Mathlib.Data.List.Basic

/-
  This file models `Watermark`: the read timestamps of the
  running MVCC transactions and the lowest timestamp that a
  running or a later transaction can still read.

  Key definitions include:
    * `Watermark`
    * `Watermark.addTxn`
    * `Watermark.removeTxn`
    * `Watermark.updateCommitTs`
    * `Watermark.Ok`

  Key theorems include:
    * `Watermark.ok_addTxn`
    * `Watermark.ok_removeTxn`
    * `Watermark.ok_updateCommitTs`
    * `Watermark.Ok.le_read`
-/

namespace Rmdb

open List

/- The last commit timestamp, the watermark and the read
  timestamps of the running transactions. The map from
  timestamps to counts is the list of all of them. -/
structure Watermark where
  commitTs : Int
  watermark : Int
  currentReads : List Int
deriving DecidableEq, Repr

namespace Watermark

def init (commitTs : Int) : Watermark :=
  ⟨commitTs, commitTs, []⟩

def addTxn (w : Watermark) (readTs : Int) : Watermark :=
  { w with
    currentReads := readTs :: w.currentReads,
    watermark :=
      -- the map has one key, or the new key is the least
      if (∀ ts ∈ w.currentReads, ts = readTs) ∨
          readTs < w.watermark then
        readTs
      else
        w.watermark }

def removeTxn (w : Watermark) (readTs : Int) : Watermark :=
  if readTs ∈ w.currentReads then
    let reads := w.currentReads.erase readTs
    { w with
      currentReads := reads,
      watermark := reads.min?.getD w.commitTs }
  else
    w

def updateCommitTs (w : Watermark) (commitTs : Int) : Watermark :=
  { w with
    commitTs := commitTs,
    watermark :=
      if w.currentReads = [] then commitTs else w.watermark }

------------
-- What The Watermark Is
------------

/- The least read timestamp, or the last commit timestamp. -/
def Ok (w : Watermark) : Prop :=
  w.watermark = w.currentReads.min?.getD w.commitTs

variable {w : Watermark} {ts : Int}

theorem ok_init (commitTs : Int) : (init commitTs).Ok := rfl

/- A running transaction reads at or above the watermark. -/
theorem Ok.le_read
    (hOk : w.Ok)
    (hRead : ts ∈ w.currentReads) :
    w.watermark ≤ ts := by
  unfold Ok at hOk
  cases hMin : w.currentReads.min? with
  | none =>
    rw [min?_eq_none_iff] at hMin
    rw [hMin] at hRead
    cases hRead
  | some m =>
    rw [hMin, Option.getD_some] at hOk
    rw [hOk]
    exact (min?_eq_some_iff.mp hMin).2 ts hRead

/- A lower bound of the reads bounds the watermark. -/
theorem Ok.ge_bound
    (hOk : w.Ok)
    (hReads : ∀ r ∈ w.currentReads, ts ≤ r)
    (hCommit : ts ≤ w.commitTs) :
    ts ≤ w.watermark := by
  cases hMin : w.currentReads.min? with
  | none =>
    rw [hOk, hMin]
    exact hCommit
  | some m =>
    rw [hOk, hMin]
    exact hReads m (min?_eq_some_iff.mp hMin).1

theorem Ok.of_no_reads
    (hOk : w.Ok)
    (hNone : w.currentReads = []) :
    w.watermark = w.commitTs := by
  rw [hOk, hNone]
  rfl

theorem ok_addTxn (hOk : w.Ok) (readTs : Int) : (w.addTxn readTs).Ok := by
  unfold Ok addTxn
  have hMin : (readTs :: w.currentReads).min? = some (if (∀ ts ∈ w.currentReads, ts = readTs) ∨
            readTs < w.watermark then
          readTs
        else
          w.watermark) := by
    rw [min?_eq_some_iff]
    split
    · rename_i hLow
      refine ⟨mem_cons_self, ?_⟩
      intro r hR
      rcases mem_cons.mp hR with rfl | hR
      · exact Int.le_refl _
      · rcases hLow with hSame | hLt
        · exact Int.le_of_eq (hSame r hR).symm
        · have hRead := hOk.le_read hR
          omega
    · rename_i hHigh
      push Not at hHigh
      rcases hHigh with ⟨⟨r, hR, -⟩, hGe⟩
      constructor
      · -- some read exists, so the watermark is one
        cases hOld : w.currentReads.min? with
        | none =>
          rw [min?_eq_none_iff] at hOld
          rw [hOld] at hR
          cases hR
        | some m =>
          rw [hOk, hOld]
          exact mem_cons_of_mem _ (min?_eq_some_iff.mp hOld).1
      · intro q hQ
        rcases mem_cons.mp hQ with rfl | hQ
        · omega
        · exact hOk.le_read hQ
  rw [hMin]
  rfl

theorem ok_removeTxn
    (hOk : w.Ok)
    (readTs : Int) :
    (w.removeTxn readTs).Ok := by
  unfold removeTxn
  split
  · rfl
  · exact hOk

theorem ok_updateCommitTs
    (hOk : w.Ok)
    (commitTs : Int) :
    (w.updateCommitTs commitTs).Ok := by
  unfold Ok updateCommitTs
  by_cases hNone : w.currentReads = []
  · simp [hNone]
  · simp only [hNone, if_false]
    rw [hOk]
    cases hMin : w.currentReads.min? with
    | none => exact absurd (min?_eq_none_iff.mp hMin) hNone
    | some m => rfl

end Watermark

end Rmdb
