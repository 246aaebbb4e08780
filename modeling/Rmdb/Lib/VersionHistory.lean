import Mathlib.Data.List.Basic
import Mathlib.Logic.Function.Basic

/-
  The history of a multi-version store: all writes so far, the
  newest first, and the commit timestamps of the transactions
  that have committed.

  A snapshot at a timestamp reads, at every place, the newest
  write of a transaction that had committed by then.  If the
  writes to a place are ordered like the commit timestamps of
  their transactions, this is the last write of the
  transaction with the largest timestamp.

  Key definitions include:
    * `VersionHistory.History`
    * `VersionHistory.History.valueAt`
    * `VersionHistory.History.own`
    * `VersionHistory.History.top`
    * `VersionHistory.History.Ordered`
    * `VersionHistory.History.IsSnapshot`
    * `VersionHistory.History.restrict`

  Key theorems include:
    * `VersionHistory.History.valueAt_write`
    * `VersionHistory.History.valueAt_stamp_of_lt`
    * `VersionHistory.History.valueAt_stamp_of_top`
    * `VersionHistory.History.isSnapshot_valueAt`
-/

namespace VersionHistory

------------
-- Writes And Stamps
------------

structure Write (T X V : Type) where
  txn : T
  loc : X
  value : V
deriving DecidableEq

structure History (T X V : Type) where
  -- the newest write first
  writes : List (Write T X V)
  stamps : T → Option Int

namespace History

variable {T X V : Type} [DecidableEq X]

def empty : History T X V :=
  ⟨[], fun _ => none⟩

def write (h : History T X V) (w : Write T X V) : History T X V :=
  { h with writes := w :: h.writes }

/- A transaction commits. -/
def stamp
    [DecidableEq T]
    (h : History T X V)
    (t : T)
    (c : Int) :
    History T X V :=
  { h with stamps := Function.update h.stamps t (some c) }

/- Has the transaction committed by a timestamp? -/
def committed (h : History T X V) (ts : Int) (t : T) : Bool :=
  (h.stamps t).any (fun c => c ≤ ts)

/- The newest write to a place by one of some transactions. -/
def latest
    (h : History T X V)
    (p : T → Bool)
    (x : X) :
    Option (Write T X V) :=
  h.writes.find? (fun w => w.loc = x ∧ p w.txn)

/- What a snapshot reads. -/
def valueAt (h : History T X V) (base : X → V) (ts : Int) (x : X) : V :=
  ((h.latest (h.committed ts) x).map Write.value).getD (base x)

/- The last write of a transaction to a place. -/
def own
    [DecidableEq T]
    (h : History T X V)
    (t : T)
    (x : X) :
    Option (Write T X V) :=
  h.latest (fun u => u = t) x

/- The last write to a place. -/
def top (h : History T X V) (x : X) : Option (Write T X V) :=
  h.latest (fun _ => true) x

/- A timestamp at which a write to the place was committed. -/
def StampedAt (h : History T X V) (x : X) (c : Int) : Prop :=
  ∃ w ∈ h.writes, w.loc = x ∧ h.stamps w.txn = some c

section Latest

variable {h : History T X V} {w : Write T X V} {p q : T → Bool}
variable {x : X} {t : T} {c ts : Int} {base : X → V}

omit [DecidableEq X] in
theorem committed_iff :
    h.committed ts t = true ↔ ∃ c, h.stamps t = some c ∧ c ≤ ts := by
  unfold committed
  cases h.stamps t with
  | none => simp
  | some c => simp

theorem latest_write
    (h : History T X V)
    (w : Write T X V)
    (p : T → Bool)
    (x : X) :
    (h.write w).latest p x =
      if w.loc = x ∧ p w.txn = true then
        some w
      else
        h.latest p x := by
  unfold latest write
  rw [List.find?_cons]
  by_cases hHit : w.loc = x ∧ p w.txn = true
  · simp [hHit]
  · simp only [hHit, decide_false, if_false]

theorem latest_eq_some
    (hLatest : h.latest p x = some w) :
    w ∈ h.writes ∧ w.loc = x ∧ p w.txn = true := by
  have hTest := List.find?_some hLatest
  simp only [decide_eq_true_eq] at hTest
  exact ⟨List.mem_of_find?_eq_some hLatest, hTest⟩

theorem latest_eq_none :
    h.latest p x = none ↔ ∀ w ∈ h.writes, w.loc = x → p w.txn = false := by
  unfold latest
  simp

/- Tests that agree on the writers of a place. -/
theorem latest_congr
    (hSame : ∀ w ∈ h.writes, w.loc = x → p w.txn = q w.txn) :
    h.latest p x = h.latest q x := by
  unfold latest
  revert hSame
  induction h.writes with
  | nil => intro _; rfl
  | cons w rest ih =>
    intro hSame
    rw [List.find?_cons, List.find?_cons, ih (fun v hV => hSame v (List.mem_cons_of_mem w hV))]
    by_cases hLoc : w.loc = x
    · rw [hSame w List.mem_cons_self hLoc]
    · simp [hLoc]

/- The newest write of all is the newest of its writer. -/
theorem latest_of_top (hTop : h.top x = some w)
    (hTest : p w.txn = true) : h.latest p x = some w := by
  unfold top latest at hTop
  unfold latest
  rw [List.find?_eq_some_iff_append] at hTop ⊢
  rcases hTop with ⟨hW, before, after, hList, hBefore⟩
  simp only [and_true, decide_eq_true_eq] at hW
  refine ⟨by simp [hW, hTest], before, after, hList, ?_⟩
  intro w' hW'
  have hOther := hBefore w' hW'
  simp only [and_true, Bool.not_eq_true', decide_eq_false_iff_not] at hOther
  simp [hOther]

theorem own_of_top [DecidableEq T]
    (hTop : h.top x = some w) :
    h.own w.txn x = some w := latest_of_top hTop (by simp)

/- The last write to a place comes before the others. -/
theorem rel_of_top
    {R : Write T X V → Write T X V → Prop}
    (hOrder : h.writes.Pairwise R)
    (hTop : h.top x = some w)
    {v : Write T X V}
    (hV : v ∈ h.writes)
    (hLoc : v.loc = x) :
    v = w ∨ R w v := by
  unfold top latest at hTop
  rw [List.find?_eq_some_iff_append] at hTop
  rcases hTop with ⟨-, before, after, hList, hBefore⟩
  rw [hList] at hV hOrder
  rcases List.mem_append.mp hV with hIn | hIn
  · have hOther := hBefore v hIn
    simp [hLoc] at hOther
  · rcases List.mem_cons.mp hIn with hHere | hAfter
    · exact Or.inl hHere
    · exact Or.inr (List.rel_of_pairwise_cons (List.pairwise_append.mp hOrder).2.1 hAfter)

------------
-- How A Snapshot Changes
------------

/- A write says nothing before its transaction commits. -/
theorem valueAt_write
    (hOpen : h.stamps w.txn = none)
    (base : X → V)
    (ts : Int)
    (x : X) :
    (h.write w).valueAt base ts x = h.valueAt base ts x := by
  have hNot : h.committed ts w.txn = false := by simp [committed, hOpen]
  unfold valueAt
  rw [latest_write, if_neg]
  · rfl
  · rintro ⟨-, hTest⟩
    rw [show (h.write w).committed ts = h.committed ts from rfl, hNot] at hTest
    cases hTest

omit [DecidableEq X] in
theorem stampedAt_write
    (hOpen : h.stamps w.txn = none) :
    (h.write w).StampedAt x c ↔ h.StampedAt x c := by
  constructor
  · rintro ⟨v, hV, hLoc, hStamp⟩
    rcases List.mem_cons.mp hV with rfl | hMem
    · cases hOpen.symm.trans hStamp
    · exact ⟨v, hMem, hLoc, hStamp⟩
  · rintro ⟨v, hV, hLoc, hStamp⟩
    exact ⟨v, List.mem_cons_of_mem w hV, hLoc, hStamp⟩

variable [DecidableEq T]

omit [DecidableEq X] in
theorem committed_stamp_of_ne {u : T}
    (hU : u ≠ t) : (h.stamp t c).committed ts u = h.committed ts u := by
  simp [committed, stamp, Function.update_of_ne hU]

/- Older snapshots do not see a new commit. -/
theorem valueAt_stamp_of_lt
    (hOpen : h.stamps t = none)
    (hOlder : ts < c)
    (base : X → V)
    (x : X) :
    (h.stamp t c).valueAt base ts x = h.valueAt base ts x := by
  have hSame : (h.stamp t c).committed ts = h.committed ts := by
    funext u
    by_cases hU : u = t
    · subst hU
      have hNot : ¬ c ≤ ts := by omega
      simp [committed, stamp, hOpen, hNot]
    · exact committed_stamp_of_ne hU
  unfold valueAt
  rw [hSame]
  rfl

/- A commit says nothing about places it has not written. -/
theorem valueAt_stamp_of_own_none
    (hNone : h.own t x = none)
    (base : X → V)
    (ts c : Int) :
    (h.stamp t c).valueAt base ts x = h.valueAt base ts x := by
  have hLatest : (h.stamp t c).latest ((h.stamp t c).committed ts) x =
        h.latest (h.committed ts) x := by
    apply latest_congr
    intro w hW hLoc
    have hOther := latest_eq_none.mp hNone w hW hLoc
    exact committed_stamp_of_ne (by simpa using hOther)
  unfold valueAt
  rw [hLatest]

/- Newer snapshots see the last write of the committer. -/
theorem valueAt_stamp_of_top
    (hTop : h.top x = some w)
    (hNewer : c ≤ ts)
    (base : X → V) :
    (h.stamp w.txn c).valueAt base ts x = w.value := by
  have hLatest : (h.stamp w.txn c).latest ((h.stamp w.txn c).committed ts) x = some w := by
    apply latest_of_top hTop
    simp [committed, stamp, hNewer]
  unfold valueAt
  rw [hLatest]
  rfl

theorem stampedAt_stamp {d : Int}
    (hStamped : (h.stamp t d).StampedAt x c) :
    h.StampedAt x c ∨ (c = d ∧ h.own t x ≠ none) := by
  rcases hStamped with ⟨w, hW, hLoc, hStamp⟩
  by_cases hT : w.txn = t
  · refine Or.inr ⟨?_, ?_⟩
    · subst hT
      simpa [stamp, eq_comm] using hStamp
    · intro hNone
      have hOther := latest_eq_none.mp hNone w hW hLoc
      simp [hT] at hOther
  · refine Or.inl ⟨w, hW, hLoc, ?_⟩
    simpa [stamp, Function.update_of_ne hT] using hStamp

------------
-- The Largest Commit Timestamp
------------

/- Newer writes to a place have later commits. -/
def Ordered (h : History T X V) : Prop :=
  h.writes.Pairwise (fun newer older =>
    newer.loc = older.loc →
      ∀ c d, h.stamps older.txn = some c →
        h.stamps newer.txn = some d → c ≤ d)

/- The value is the last one that the transaction with the
  largest commit timestamp not above the given one wrote, or
  the first value if no such transaction wrote to the place. -/
def IsSnapshot
    (h : History T X V)
    (base : X → V)
    (ts : Int)
    (x : X)
    (v : V) :
    Prop :=
  (∃ t c w, h.stamps t = some c ∧ c ≤ ts ∧
      h.own t x = some w ∧ v = w.value ∧
      ∀ u d, h.stamps u = some d → d ≤ ts →
        h.own u x ≠ none → d ≤ c) ∨
    (∀ u d, h.stamps u = some d → d ≤ ts →
      h.own u x = none) ∧ v = base x

theorem latest_max
    (hOrdered : h.Ordered)
    (hLatest : h.latest (h.committed ts) x = some w) :
    h.own w.txn x = some w ∧ ∀ c d, h.stamps w.txn = some c →
        ∀ v ∈ h.writes, v.loc = x → h.stamps v.txn = some d → d ≤ ts →
        d ≤ c := by
  unfold latest at hLatest
  rw [List.find?_eq_some_iff_append] at hLatest
  rcases hLatest with ⟨hW, before, after, hList, hBefore⟩
  simp only [decide_eq_true_eq] at hW
  have hOthers : ∀ v ∈ before, v.loc = x → h.committed ts v.txn = false := by
    intro v hV hLoc
    have hNot := hBefore v hV
    simpa [hLoc] using hNot
  constructor
  · unfold own latest
    rw [List.find?_eq_some_iff_append]
    refine ⟨by simp [hW.1], before, after, hList, ?_⟩
    intro v hV
    simp only [Bool.not_eq_true', decide_eq_false_iff_not, decide_eq_true_eq, not_and]
    intro hLoc hTxn
    have hNot := hOthers v hV hLoc
    rw [hTxn, hW.2] at hNot
    cases hNot
  · intro c d hC v hV hLoc hD hLe
    rw [hList] at hV
    rcases List.mem_append.mp hV with hIn | hIn
    · -- a newer write would have been found first
      have hNot := hOthers v hIn hLoc
      rw [committed_iff.mpr ⟨d, hD, hLe⟩] at hNot
      cases hNot
    · rcases List.mem_cons.mp hIn with rfl | hOlder
      · rw [hC] at hD
        exact Int.le_of_eq (Option.some.inj hD).symm
      · unfold Ordered at hOrdered
        rw [hList, List.pairwise_append] at hOrdered
        have hPair := List.rel_of_pairwise_cons hOrdered.2.1 hOlder
        exact hPair (hW.1.trans hLoc.symm) d c hD hC

theorem isSnapshot_valueAt
    (hOrdered : h.Ordered)
    (base : X → V)
    (ts : Int)
    (x : X) :
    h.IsSnapshot base ts x (h.valueAt base ts x) := by
  cases hLatest : h.latest (h.committed ts) x with
  | none =>
    refine Or.inr ⟨?_, by simp [valueAt, hLatest]⟩
    intro u d hD hLe
    apply latest_eq_none.mpr
    intro w hW hLoc
    have hNot := latest_eq_none.mp hLatest w hW hLoc
    by_cases hU : w.txn = u
    · rw [hU, committed_iff.mpr ⟨d, hD, hLe⟩] at hNot
      cases hNot
    · simp [hU]
  | some w =>
    rcases latest_eq_some hLatest with ⟨-, -, hTest⟩
    rcases committed_iff.mp hTest with ⟨c, hC, hLe⟩
    rcases latest_max hOrdered hLatest with ⟨hOwn, hMax⟩
    refine Or.inl ⟨w.txn, c, w, hC, hLe, hOwn, by simp [valueAt, hLatest], ?_⟩
    intro u d hD hDLe hWrote
    cases hOther : h.own u x with
    | none => exact absurd hOther hWrote
    | some v =>
      rcases latest_eq_some hOther with ⟨hV, hLoc, hU⟩
      have hU' : v.txn = u := by simpa using hU
      exact hMax c d hC v hV hLoc (hU' ▸ hD) hDLe

end Latest

------------
-- Forgetting Places
------------

/- The history of some places only. -/
def restrict (h : History T X V) (keep : X → Bool) : History T X V :=
  { h with writes := h.writes.filter (fun w => keep w.loc) }

section Restrict

variable {h : History T X V} {p : T → Bool} {keep : X → Bool}
variable {x : X} {c ts : Int} {base : X → V}

theorem latest_restrict (hKeep : keep x = true) :
    (h.restrict keep).latest p x = h.latest p x := by
  unfold latest restrict
  rw [List.find?_filter]
  congr 1
  funext w
  by_cases hLoc : w.loc = x
  · simp [hLoc, hKeep]
  · simp [hLoc]

theorem valueAt_restrict
    (hKeep : keep x = true) :
    (h.restrict keep).valueAt base ts x = h.valueAt base ts x := by
  unfold valueAt
  rw [latest_restrict hKeep]
  rfl

theorem latest_restrict_of_not (hKeep : keep x = false) :
    (h.restrict keep).latest p x = none := by
  rw [latest_eq_none]
  intro w hW hLoc
  have hKept := (List.mem_filter.mp hW).2
  rw [hLoc, hKeep] at hKept
  cases hKept

theorem valueAt_restrict_of_not
    (hKeep : keep x = false) :
    (h.restrict keep).valueAt base ts x = base x := by
  simp [valueAt, latest_restrict_of_not hKeep]

omit [DecidableEq X] in
theorem stampedAt_restrict :
    (h.restrict keep).StampedAt x c ↔ keep x = true ∧ h.StampedAt x c := by
  constructor
  · rintro ⟨w, hW, hLoc, hC⟩
    rcases List.mem_filter.mp hW with ⟨hOld, hKept⟩
    rw [hLoc] at hKept
    exact ⟨hKept, w, hOld, hLoc, hC⟩
  · rintro ⟨hKept, w, hW, hLoc, hC⟩
    refine ⟨w, List.mem_filter.mpr ⟨hW, ?_⟩, hLoc, hC⟩
    rw [hLoc]
    exact hKept

end Restrict

end History

end VersionHistory
