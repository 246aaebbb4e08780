import Rmdb.Lib.KeyRollback
import Rmdb.Mvcc.Runs

/-
  This file is about the unique indexes of tables whose writes
  all have versions.  An index has the key of the newest
  version of every row.  The older keys are only in the
  versions that an abort brings back, so the rows of a running
  transaction have to be such that the abort can take them
  back in its order.

  Key definitions include:
    * `Engine.committedHead`
    * `Engine.nowKey`
    * `Engine.wasKey`
    * `Engine.lostKey`
    * `Engine.rowsOf`
    * `Engine.KeysOk`

  Key theorems include:
    * `Engine.KeysOk.change`
    * `Engine.KeysOk.done`
    * `Engine.KeysOk.reject`
-/

namespace Rmdb

open Function List DataRecord

namespace Engine

------------
-- The Keys Of A Row
------------

/- The newest version of a row that is not to be taken back. -/
def committedHead (e : Engine) (x : Loc) : Option RmRecord :=
  match e.mvccVersions x with
  | none => e.newest x
  | some entry =>
    if entry.writerTxn = none then
      e.newest x
    else
      entry.rolledHead (e.db.record x)

/- The key that an index should have for a row. -/
def nowKey
    (e : Engine)
    (tab : TabName)
    (i : Nat)
    (rid : Rid) :
    Option IndexKey :=
  keyIn ((e.db tab).cols i) (e.newest ⟨tab, rid⟩)

/- The key that the row gets back if its writer aborts. -/
def wasKey
    (e : Engine)
    (tab : TabName)
    (i : Nat)
    (rid : Rid) :
    Option IndexKey :=
  keyIn ((e.db tab).cols i) (e.committedHead ⟨tab, rid⟩)

/- The key of the record in the heap. -/
def lostKey
    (e : Engine)
    (tab : TabName)
    (i : Nat)
    (rid : Rid) :
    Option IndexKey :=
  keyIn ((e.db tab).cols i) (e.db.record ⟨tab, rid⟩)

/- The rows that a transaction has written, the latest first. -/
def rowsOf (e : Engine) (t : TxnId) (tab : TabName) : List Rid :=
  ((e.txn t).writeSet.filter (fun w => w.loc.tab = tab)).map
    (fun w => w.loc.rid)

/- The indexes of a table are exact, and every running
  transaction could take its rows back. -/
structure KeysOk (e : Engine) (tab : TabName) : Prop where
  slots : (e.db tab).InSlots
  owned : ∀ t rid, e.Running t → rid ∈ e.rowsOf t tab → e.Owns t ⟨tab, rid⟩
  flags : ∀ rid entry t, e.mvccVersions ⟨tab, rid⟩ = some entry → entry.writerTxn = some t →
        (e.db tab).HasSlot rid ∧ entry.hasHeadRecord = true ∧ entry.lastWriterTxn = some t
  exact : ∀ i, KeyMap.Exact ((e.db tab).entry i) (e.nowKey tab i)
  unique : ∀ i r q k, e.wasKey tab i r = some k → e.wasKey tab i q = some k → q = r
  rows : ∀ t i, e.Running t → KeyMap.Retractable ((e.db tab).entry i) (e.nowKey tab i)
        (e.wasKey tab i) (e.lostKey tab i) (e.rowsOf t tab) []
  apart : ∀ t u i r q k, e.Running t → e.Running u → t ≠ u →
      r ∈ e.rowsOf t tab → q ∈ e.rowsOf u tab →
      e.lostKey tab i r = some k → e.wasKey tab i q ≠ some k

variable {entry : MvccEntry} {i : Nat}

section Keys

variable {e e' : Engine} {t u : TxnId} {tab : TabName}
variable {x y : Loc} {rid : Rid}

theorem mem_rowsOf : rid ∈ e.rowsOf t tab ↔ (⟨tab, rid⟩ : Loc) ∈
        (e.txn t).writeSet.map WriteRecord.loc := by
  unfold rowsOf
  simp only [mem_map, mem_filter, decide_eq_true_eq]
  constructor
  · rintro ⟨w, ⟨hMem, rfl⟩, rfl⟩
    exact ⟨w, hMem, rfl⟩
  · rintro ⟨w, hMem, hLoc⟩
    exact ⟨w, ⟨hMem, by rw [hLoc]⟩, by rw [hLoc]⟩

/- A row without an owner. -/
theorem committedHead_of_free (hFree : ∀ u, ¬ e.Owns u x) :
    e.committedHead x = e.newest x := by
  unfold committedHead
  cases hEntry : e.mvccVersions x with
  | none => rfl
  | some entry =>
    cases hWriter : entry.writerTxn with
    | none => simp [hWriter]
    | some u => exact absurd ⟨entry, hEntry, hWriter⟩ (hFree u)

theorem committedHead_of_owned (hEntry : e.mvccVersions x = some entry)
    (hWriter : entry.writerTxn = some t) :
    e.committedHead x = entry.rolledHead (e.db.record x) := by
  simp [committedHead, hEntry, hWriter]

/- Rows that a step leaves alone. -/
theorem committedHead_congr (hRecord : e'.db.record x = e.db.record x)
    (hVersions : e'.mvccVersions x = e.mvccVersions x) :
    e'.newest x = e.newest x ∧ e'.committedHead x = e.committedHead x := by
  have hNewest : e'.newest x = e.newest x := by
    unfold newest
    rw [hVersions, hRecord]
  refine ⟨hNewest, ?_⟩
  unfold committedHead
  rw [hVersions, hNewest, hRecord]

theorem lostKey_of_nowKey {k : IndexKey}
    (hNow : e.nowKey tab i rid = some k) : e.lostKey tab i rid = some k := by
  unfold nowKey newest at hNow
  split at hNow
  · rw [Table.keyIn_none] at hNow
    cases hNow
  · exact hNow

/- A step that leaves the table and its writers alone. -/
theorem KeysOk.congr (hKeys : e.KeysOk tab)
    (hRecord : ∀ rid, e'.db.record ⟨tab, rid⟩ = e.db.record ⟨tab, rid⟩)
    (hVersions : ∀ rid, e'.mvccVersions ⟨tab, rid⟩ = e.mvccVersions ⟨tab, rid⟩)
    (hSlots : (e'.db tab).numRecordsPerPage = (e.db tab).numRecordsPerPage)
    (hCols : ∀ i, (e'.db tab).cols i = (e.db tab).cols i)
    (hEntry : ∀ i, (e'.db tab).entry i = (e.db tab).entry i)
    (hRows : ∀ t, e'.Running t → e'.rowsOf t tab = [] ∨
        e.Running t ∧ e'.rowsOf t tab = e.rowsOf t tab) : e'.KeysOk tab := by
  have hNow : ∀ i, e'.nowKey tab i = e.nowKey tab i := by
    intro i
    funext rid
    unfold nowKey
    rw [hCols, (committedHead_congr (hRecord rid) (hVersions rid)).1]
  have hWas : ∀ i, e'.wasKey tab i = e.wasKey tab i := by
    intro i
    funext rid
    unfold wasKey
    rw [hCols, (committedHead_congr (hRecord rid) (hVersions rid)).2]
  have hLost : ∀ i, e'.lostKey tab i = e.lostKey tab i := by
    intro i
    funext rid
    unfold lostKey
    rw [hCols, hRecord]
  have hOld : ∀ t rid, e'.Running t → rid ∈ e'.rowsOf t tab →
      e.Running t ∧ rid ∈ e.rowsOf t tab := by
    intro t rid hT hMem
    rcases hRows t hT with hNone | ⟨hRunning, hSame⟩
    · rw [hNone] at hMem
      cases hMem
    · rw [hSame] at hMem
      exact ⟨hRunning, hMem⟩
  constructor
  · intro rid hThere
    have hBefore := hKeys.slots rid (fun hNone => hThere ((hRecord rid).trans hNone))
    unfold Table.HasSlot at hBefore ⊢
    rw [hSlots]
    exact hBefore
  · intro t rid hT hMem
    rcases hOld t rid hT hMem with ⟨hRunning, hRow⟩
    unfold Owns
    rw [hVersions]
    exact hKeys.owned t rid hRunning hRow
  · intro rid entry t hHere
    rw [hVersions] at hHere
    unfold Table.HasSlot
    rw [hSlots]
    exact hKeys.flags rid entry t hHere
  · intro i
    rw [hEntry, hNow]
    exact hKeys.exact i
  · intro i
    rw [hWas]
    exact hKeys.unique i
  · intro t i hT
    rw [hEntry, hNow, hWas, hLost]
    rcases hRows t hT with hNone | ⟨hRunning, hSame⟩
    · rw [hNone]
      exact .nil (hKeys.exact i)
    · rw [hSame]
      exact hKeys.rows t i hRunning
  · intro t u i r q k hT hU hTU hR hQ
    rw [hLost, hWas]
    rcases hOld t r hT hR with ⟨hT', hR'⟩
    rcases hOld u q hU hQ with ⟨hU', hQ'⟩
    exact hKeys.apart t u i r q k hT' hU' hTU hR' hQ'

end Keys

------------
-- A Row Is Changed
------------

section Change

variable {base : Loc → Option RmRecord} {floor : Int} {h : Hist}
variable {e e' : Engine} {t u : TxnId} {d : DataRecord}

/- The newest version is the one that the writer saw. -/
theorem newest_before (hMay : Writable base floor h t d e) :
    e.newest d.loc = d.before := by
  cases hInserted : d.inserted with
  | true =>
    rw [before_of_inserted hInserted]
    unfold newest
    rw [(hMay.place hInserted).1]
    split <;> rfl
  | false =>
    rcases hMay.seen_old hInserted with ⟨hRecord, hLive⟩
    rw [before_of_not_inserted hInserted]
    unfold newest
    rw [if_neg, hRecord]
    cases hEntry : e.mvccVersions d.loc with
    | none => simp
    | some entry => simp [hLive entry hEntry]

theorem newest_written (hVersioned : e.shouldVersionWrites t = true)
    (hVersions : Versions t d e e') :
    e'.newest d.loc =
      if d.deleted then none else e'.db.record d.loc := by
  have hEntries := hVersions.versions
  rw [if_pos hVersioned] at hEntries
  unfold newest
  rw [hEntries, update_self]
  rfl

/- A change does not touch what an abort brings back. -/
theorem committedHead_written
    (hMay : Writable base floor h t d e)
    (hVersioned : e.shouldVersionWrites t = true)
    (hVersions : Versions t d e e') :
    e'.committedHead d.loc = e.committedHead d.loc := by
  have hEntries := hVersions.versions
  rw [if_pos hVersioned] at hEntries
  have hHere : e'.mvccVersions d.loc = some (e.written t d) := by
    rw [hEntries, update_self]
  rw [committedHead_of_owned hHere rfl]
  by_cases hKey : d.loc ∈ (e.txn t).mvccWriteKeys
  · -- the entry keeps what it remembers
    rcases (hMay.sets t hMay.running).keys d.loc hKey with ⟨entry, hEntry, hWriter⟩
    have hOwned := (hMay.rows d.loc).owned entry t hEntry hWriter
    have hEq : e.written t d = entry.setHead t d.headRecord d.deleted := by
      simp [written, hEntry, hKey]
    rw [committedHead_of_owned hEntry hWriter, hEq]
    unfold MvccEntry.rolledHead
    cases hDelete : entry.rollbackDeletePhysical with
    | true => simp [MvccEntry.setHead, hDelete]
    | false =>
      have hRestore := hOwned.rollback.resolve_left (by simp [hDelete])
      have hSame : (entry.setHead t d.headRecord
          d.deleted).restoreDeleted = entry.restoreDeleted := rfl
      rw [hSame]
      simp [MvccEntry.setHead, hDelete, hRestore]
  · have hFree : ∀ u, ¬ e.Owns u d.loc := by
      intro u hU
      obtain rfl := hMay.owner_eq hU
      exact hKey ((hMay.rows d.loc).owner u hU).2.1
    rw [committedHead_of_free hFree, newest_before hMay]
    have hSeen := hMay.seen hVersioned
    have hEq : e.written t d = firstWritten (e.mvccVersions d.loc) t d := by
      simp [written, firstWritten, hKey]
    rw [hEq]
    cases hInserted : d.inserted with
    | true =>
      rw [before_of_inserted hInserted]
      simp [firstWritten, MvccEntry.rolledHead, MvccEntry.setHead, MvccEntry.remember, hInserted]
    | false =>
      rw [before_of_not_inserted hInserted]
      have hLive := (hSeen.old hInserted).2
      cases hEntry : e.mvccVersions d.loc with
      | none =>
        simp [firstWritten, MvccEntry.rolledHead,
          MvccEntry.setHead, MvccEntry.remember, hInserted, MvccEntry.restoreDeleted]
      | some entry =>
        simp [firstWritten, MvccEntry.rolledHead, MvccEntry.setHead, MvccEntry.remember, hInserted,
          MvccEntry.restoreDeleted, hLive entry hEntry]

theorem rowsOf_change (hWrites :
      (e'.txn t).writeSet = d.writeRecord :: (e.txn t).writeSet) :
    e'.rowsOf t d.tab = d.rid :: e.rowsOf t d.tab := by
  unfold rowsOf
  rw [hWrites]
  have hLoc := loc_writeRecord d
  rw [filter_cons_of_pos (by rw [hLoc]; simp [tab]), map_cons, hLoc]
  rfl

/- The keys of the rows after a change of one row. -/
theorem nowKey_change
    {after : Option RmRecord}
    (hActs : Acts t d.loc e e')
    (hCols : ∀ i, (e'.db d.tab).cols i = (e.db d.tab).cols i)
    (hNewest : e'.newest d.loc = after)
    (i : Nat) :
    e'.nowKey d.tab i = update (e.nowKey d.tab i) d.rid
        (keyIn ((e.db d.tab).cols i) after) := by
  funext q
  unfold nowKey
  by_cases hQ : q = d.rid
  · rw [hQ, update_self, hCols, ← hNewest]
    rfl
  · have hLoc : (⟨d.tab, q⟩ : Loc) ≠ d.loc := fun hEq => hQ (congrArg Loc.rid hEq)
    rw [update_of_ne hQ, hCols, hActs.newest_eq hLoc]

variable {value : Option RmRecord}

theorem lostKey_change
    (hEdits : e.db.Edits e'.db d.loc value)
    (hCols : ∀ i, (e'.db d.tab).cols i = (e.db d.tab).cols i)
    (i : Nat) :
    e'.lostKey d.tab i = update (e.lostKey d.tab i) d.rid
        (keyIn ((e.db d.tab).cols i) value) := by
  funext q
  unfold lostKey
  by_cases hQ : q = d.rid
  · rw [hQ, update_self, hCols, ← hEdits.record_self]
    rfl
  · have hLoc : (⟨d.tab, q⟩ : Loc) ≠ d.loc := fun hEq => hQ (congrArg Loc.rid hEq)
    rw [update_of_ne hQ, hCols, hEdits.record_of_ne hLoc]

/- A row gets a newest version and a record in the heap. If
  the transaction writes the row again, no other record of the
  table may have a key that the row gets back; and nobody
  takes a key that an abort of another transaction needs or
  deletes. -/
theorem KeysOk.change
    (hKeys : e.KeysOk d.tab)
    (after : Option RmRecord)
    (hMay : Writable base floor h t d e)
    (hVersioned : e.shouldVersionWrites t = true)
    (hActs : Acts t d.loc e e')
    (hEdits : e.db.Edits e'.db d.loc value)
    (hVersions : Versions t d e e')
    (hWrites : (e'.txn t).writeSet = d.writeRecord :: (e.txn t).writeSet)
    (hSlot : (e.db d.tab).HasSlot d.rid)
    (hCols : ∀ i, (e'.db d.tab).cols i = (e.db d.tab).cols i)
    (hNewest : e'.newest d.loc = after)
    (hExact : ∀ i, KeyMap.Exact ((e'.db d.tab).entry i)
      (update (e.nowKey d.tab i) d.rid
          (keyIn ((e.db d.tab).cols i) after)))
    (hLost : ∀ i, keyIn ((e.db d.tab).cols i) value =
        if keyIn ((e.db d.tab).cols i) after = none then
          e.nowKey d.tab i d.rid
        else
          keyIn ((e.db d.tab).cols i) after)
    (hAgain : d.rid ∈ e.rowsOf t d.tab → ∀ i q k, q ≠ d.rid →
      e.wasKey d.tab i d.rid = some k →
          e.lostKey d.tab i q ≠ some k)
    (hTaken : ∀ u i r k, e.Running u → u ≠ t → r ∈ e.rowsOf u d.tab →
        keyIn ((e.db d.tab).cols i) after = some k →
          e.nowKey d.tab i d.rid ≠ some k →
          e.wasKey d.tab i r ≠ some k ∧ e.lostKey d.tab i r ≠ some k) :
    e'.KeysOk d.tab := by
  have hRunning : e.Running t := Or.inl hMay.growing
  have hLoc : ∀ {q : Rid}, q ≠ d.rid → (⟨d.tab, q⟩ : Loc) ≠ d.loc := by
    intro q hQ hEq
    exact hQ (congrArg Loc.rid hEq)
  have hSelf : (⟨d.tab, d.rid⟩ : Loc) = d.loc := rfl
  have hNow := nowKey_change hActs hCols hNewest
  have hWas : ∀ i, e'.wasKey d.tab i = e.wasKey d.tab i := by
    intro i
    funext q
    unfold wasKey
    rw [hCols]
    by_cases hQ : q = d.rid
    · rw [hQ, hSelf, committedHead_written hMay hVersioned hVersions]
    · rw [(committedHead_congr (hActs.record _ (hLoc hQ)) (hActs.versions _ (hLoc hQ))).2]
  have hLostKey := lostKey_change hEdits hCols
  have hRowsT := rowsOf_change hWrites
  have hRowsU : ∀ {u}, u ≠ t → e'.rowsOf u d.tab = e.rowsOf u d.tab := by
    intro u hU
    unfold rowsOf
    rw [hActs.txn hU]
  -- nobody else has written the row
  have hAlone : ∀ {u}, e.Running u → u ≠ t → d.rid ∉ e.rowsOf u d.tab := by
    intro u hRun hU hMem
    exact hU (hMay.owner_eq (hKeys.owned u d.rid hRun hMem))
  have hFirst : d.rid ∉ e.rowsOf t d.tab → ∀ i,
      e.wasKey d.tab i d.rid = e.nowKey d.tab i d.rid := by
    intro hNew i
    unfold wasKey nowKey
    rw [committedHead_of_free]
    intro u hU
    obtain rfl := hMay.owner_eq hU
    exact hNew (mem_rowsOf.mpr ((hMay.rows d.loc).owner u hU).2.2)
  -- a row of another transaction has nothing of the row
  have hForeign : ∀ {u i r k}, e.Running u → u ≠ t → r ∈ e.rowsOf u d.tab →
      e.nowKey d.tab i d.rid = some k → e.wasKey d.tab i r ≠ some k ∧
          e.lostKey d.tab i r ≠ some k := by
    intro u i r k hRun hU hR hHas
    have hRD : d.rid ≠ r := by
      rintro rfl
      exact hAlone hRun hU hR
    have hNever : ¬ (e.wasKey d.tab i r = some k ∨ e.lostKey d.tab i r = some k) := by
      intro hEither
      exact hAlone hRun hU ((hKeys.rows u i hRun).first r d.rid k
        ⟨hR, by simp⟩ hRD hEither hHas).1.mem
    exact not_or.mp hNever
  have hSlots : ∀ q, (e'.db d.tab).HasSlot q ↔ (e.db d.tab).HasSlot q := by
    intro q
    have hSame : (e'.db d.tab).numRecordsPerPage = (e.db d.tab).numRecordsPerPage := hEdits.slots
    unfold Table.HasSlot
    rw [hSame]
  constructor
  · intro q hThere
    rw [hSlots]
    by_cases hQ : q = d.rid
    · rw [hQ]
      exact hSlot
    · exact hKeys.slots q (fun hNone => hThere ((hActs.record _ (hLoc hQ)).trans hNone))
  · have hEntries := hVersions.versions
    rw [if_pos hVersioned] at hEntries
    have hMine : e'.Owns t d.loc := ⟨e.written t d, by rw [hEntries, update_self], rfl⟩
    intro u q hRun hMem
    rw [hActs.running_iff] at hRun
    by_cases hU : u = t
    · subst hU
      rw [hRowsT] at hMem
      by_cases hQ : q = d.rid
      · rw [hQ]
        exact hMine
      · have hOld := hKeys.owned u q hRun ((mem_cons.mp hMem).resolve_left hQ)
        exact (hActs.owns_iff (hLoc hQ) u).mpr hOld
    · rw [hRowsU hU] at hMem
      have hQ : q ≠ d.rid := by
        rintro rfl
        exact hAlone hRun hU hMem
      exact (hActs.owns_iff (hLoc hQ) u).mpr (hKeys.owned u q hRun hMem)
  · have hEntries := hVersions.versions
    rw [if_pos hVersioned] at hEntries
    intro q entry u hHere hWriter
    by_cases hQ : q = d.rid
    · rw [hQ, hSelf, hEntries, update_self] at hHere
      cases hHere
      cases hWriter
      rw [hQ, hSlots]
      exact ⟨hSlot, rfl, rfl⟩
    · rw [hActs.versions _ (hLoc hQ)] at hHere
      rw [hSlots]
      exact hKeys.flags q entry u hHere hWriter
  · intro i
    rw [hNow]
    exact hExact i
  · intro i
    rw [hWas]
    exact hKeys.unique i
  · intro u i hRun
    rw [hActs.running_iff] at hRun
    rw [hWas]
    by_cases hU : u = t
    · subst hU
      rw [hRowsT]
      refine (hKeys.rows u i hRun).push (by rw [hNow]; exact hExact i) (hNow i) ?_
        (fun hNew => hFirst hNew i) ?_
      · rw [hLostKey, hLost]
      · intro hMem q k hQ hWasKey
        have hNot := hAgain hMem i q k hQ hWasKey
        exact ⟨fun hHas => hNot (lostKey_of_nowKey hHas), fun _ => hNot⟩
    · rw [hRowsU hU]
      refine (hKeys.rows u i hRun).foreign (by rw [hNow]; exact hExact i) ?_ ?_
      · intro r hR
        have hRD : r ≠ d.rid := by
          rintro rfl
          exact hAlone hRun hU hR
        rw [hNow, hLostKey, update_of_ne hRD, update_of_ne hRD]
        exact ⟨rfl, rfl, rfl⟩
      · intro q k hQ hHas hHad r hR
        by_cases hQD : q = d.rid
        · subst hQD
          rw [hNow, update_self] at hHas
          exact hTaken u i r k hRun hU hR hHas hHad
        · rw [hNow, update_of_ne hQD] at hHas
          exact absurd hHas hHad
  · -- the keys of different transactions
    have hLostNew : ∀ {u i q k}, e.Running u → u ≠ t → q ∈ e.rowsOf u d.tab →
        keyIn ((e.db d.tab).cols i) value = some k → e.wasKey d.tab i q ≠ some k := by
      intro u i q k hRun hU hQ hKey
      by_cases hHas : e.nowKey d.tab i d.rid = some k
      · exact (hForeign hRun hU hQ hHas).1
      · rw [hLost] at hKey
        split at hKey
        · exact absurd hKey hHas
        · exact (hTaken u i q k hRun hU hQ hKey hHas).1
    have hOldRow : ∀ {u q}, q ∈ e'.rowsOf u d.tab → q ≠ d.rid → q ∈ e.rowsOf u d.tab := by
      intro u q hMem hQ
      by_cases hU : u = t
      · rw [hU, hRowsT] at hMem
        rw [hU]
        exact (mem_cons.mp hMem).resolve_left hQ
      · rw [hRowsU hU] at hMem
        exact hMem
    have hNotMine : ∀ {u}, e.Running u → u ≠ t → d.rid ∉ e'.rowsOf u d.tab := by
      intro u hRun hU
      rw [hRowsU hU]
      exact hAlone hRun hU
    intro v u i r q k hV hU hVU hR hQ hLoses
    rw [hActs.running_iff] at hV hU
    rw [hWas]
    rw [hLostKey] at hLoses
    by_cases hRD : r = d.rid
    · subst hRD
      rw [update_self] at hLoses
      have hVT : v = t := by
        by_contra hV'
        exact hNotMine hV hV' hR
      have hUT : u ≠ t := fun hU' => hVU (hVT.trans hU'.symm)
      rw [hRowsU hUT] at hQ
      exact hLostNew hU hUT hQ hLoses
    · rw [update_of_ne hRD] at hLoses
      have hR' := hOldRow hR hRD
      by_cases hQD : q = d.rid
      · subst hQD
        have hUT : u = t := by
          by_contra hU'
          exact hNotMine hU hU' hQ
        have hVT : v ≠ t := fun hV' => hVU (hV'.trans hUT.symm)
        by_cases hMem : d.rid ∈ e.rowsOf t d.tab
        · exact hKeys.apart v t i r d.rid k hV hRunning hVT hR' hMem hLoses
        · rw [hFirst hMem]
          intro hHas
          exact (hForeign hV hVT hR' hHas).2 hLoses
      · exact hKeys.apart v u i r q k hV hU hVU hR' (hOldRow hQ hQD) hLoses

/- What the tests of the manager do not ensure: a transaction
  writes a row again only if no other record of the table has
  a key that the row gets back; and nobody takes the key of a
  record that another running transaction has deleted. -/
structure KeySafe (t : TxnId) (d : DataRecord) (e : Engine) : Prop where
  again : d.rid ∈ e.rowsOf t d.tab → ∀ i q k, q ≠ d.rid → e.wasKey d.tab i d.rid = some k →
        e.lostKey d.tab i q ≠ some k
  left : ∀ u i r k, e.Running u → u ≠ t → r ∈ e.rowsOf u d.tab →
      keyIn ((e.db d.tab).cols i) d.after = some k → e.lostKey d.tab i r ≠ some k

/- What an abort brings back is the last committed version. -/
theorem rolledHead_eq_readAt
    {floor last : Int}
    {tl : Timeline}
    (hOwned : Owned floor last tl t entry)
    (physical : Option RmRecord) :
    entry.rolledHead physical = readAt entry.rolledRecord entry.rolledEntry
      last := by
  have hOk := hOwned.rolled.entryOk
  have hFlag := hOwned.flag
  unfold MvccEntry.rolledHead MvccEntry.rolledRecord
  cases hDelete : entry.rollbackDeletePhysical with
  | true =>
    cases hRolled : entry.rolledEntry with
    | none => rfl
    | some en =>
      have hEn := hOk en hRolled
      simp [readAt, hEn.writer, hEn.commit]
  | false =>
    have hRestore := hOwned.rollback.resolve_left (by simp [hDelete])
    simp only [hRestore, Bool.false_eq_true, if_false, if_true]
    cases hSnapshot : entry.restoreSnapshot with
    | none => simp [MvccEntry.rolledEntry, hFlag, hSnapshot, readAt, MvccEntry.restoreDeleted]
    | some es =>
      have hRolled : entry.rolledEntry = some es.toEntry := by
        simp [MvccEntry.rolledEntry, hFlag, hSnapshot]
      have hEn := hOk es.toEntry hRolled
      rw [hRolled]
      simp only [readAt, hEn.writer, hEn.commit, and_self,
        if_true, MvccEntry.restoreDeleted, hSnapshot]
      rfl

/- Every row has the last committed version of the history. -/
theorem committedHead_eq_valueAt
    {rejected : Option TxnId}
    {x : Loc}
    (hInv : Consistent base floor rejected e h)
    (hPlain : ∀ t, ¬ e.PlainOwns t x) :
    e.committedHead x = h.valueAt base e.lastCommitTs x := by
  by_cases hOwner : ∃ t, e.Owns t x
  · rcases hOwner with ⟨t, entry, hEntry, hWriter⟩
    have hOwned := (hInv.rows x).owned entry t hEntry hWriter
    rw [committedHead_of_owned hEntry hWriter, rolledHead_eq_readAt hOwned]
    exact (hOwned.rolled.reads _ hInv.floorLast).symm
  · have hFree : ∀ t, ¬ e.Owns t x := fun t hT => hOwner ⟨t, hT⟩
    have hSettled := (hInv.rows x).settled hFree
    rw [hInv.pre_eq hPlain hFree] at hSettled
    have hReads := hSettled.reads _ hInv.floorLast
    change h.valueAt base e.lastCommitTs x = _ at hReads
    rw [committedHead_of_free hFree, hReads]
    unfold newest
    cases hEntry : e.mvccVersions x with
    | none => rfl
    | some entry =>
      have hOk := hSettled.entryOk entry hEntry
      simp [readAt, hOk.writer, hOk.commit]

/- A key that an older version of a row has is not free. -/
theorem wasKey_ne_of_unique
    {r : Rid}
    {k : IndexKey}
    (hKeys : e.KeysOk d.tab)
    (hMay : Writable base floor h t d e)
    (hMvcc : e.isMvccTxn t = true)
    (hRunning : e.Running u)
    (hU : u ≠ t)
    (hR : r ∈ e.rowsOf u d.tab)
    (hNew : keyIn ((e.db d.tab).cols i) d.after = some k) :
    e.wasKey d.tab i r ≠ some k := by
  intro hWas
  rcases hKeys.owned u r hRunning hR with ⟨entry, hEntry, hWriter⟩
  rcases hKeys.flags r entry u hEntry hWriter with ⟨-, hHead, hLast⟩
  have hOwned := (hMay.rows ⟨d.tab, r⟩).owned entry u hEntry hWriter
  -- the index and the two records
  cases hCols : (e.db d.tab).cols i with
  | none =>
    rw [hCols] at hNew
    cases hNew
  | some cols =>
    rw [hCols] at hNew
    unfold wasKey at hWas
    rw [hCols, committedHead_of_owned hEntry hWriter, rolledHead_eq_readAt hOwned] at hWas
    rw [← hOwned.rolled.reads _ hMay.floorLast, hOwned.reads _ hMay.floorLast] at hWas
    rcases Option.map_eq_some_iff.mp hNew with ⟨newRec, hAfter, hNewKey⟩
    rcases Option.map_eq_some_iff.mp hWas with ⟨oldRec, hUndo, hOldKey⟩
    rcases Option.bind_eq_some_iff.mp hUndo with ⟨v, hFind, hValue⟩
    have hV := mem_of_find?_eq_some hFind
    have hLive : v.isDeleted = false ∧ v.record = oldRec := by
      unfold MvccVersion.value at hValue
      split at hValue
      · cases hValue
      · rename_i hNot
        exact ⟨by simpa using hNot, Option.some.inj hValue⟩
    have hDeleted : d.deleted = false := by
      rw [Bool.eq_false_iff]
      intro hDeleted
      rw [after_of_deleted hDeleted] at hAfter
      cases hAfter
    have hHeadRec : d.headRecord = newRec := by
      rw [after_of_not_deleted hDeleted] at hAfter
      exact Option.some.inj hAfter
    rcases Option.map_eq_some_iff.mp hCols with ⟨ix, hIx, hIxCols⟩
    have hMem : ix ∈ (e.db d.tab).indexes := mem_of_getElem? hIx
    have hNonempty : (e.db d.tab).indexes ≠ [] := ne_nil_of_mem hMem
    have hConflict : ∀ fallback, (e.db d.tab).recordsConflict (e.tabCols d.tab) newRec
          v.record fallback = true := by
      intro fallback
      unfold Table.recordsConflict
      rw [if_neg hNonempty, any_eq_true]
      refine ⟨ix, hMem, ?_⟩
      unfold Index.keyOf
      rw [hIxCols, hNewKey, hLive.2, hOldKey]
      simp
    have hEntryBad : ∀ fallback, e.entryConflict t d.tab newRec fallback entry =
          true := by
      intro fallback
      unfold entryConflict
      simp only [hHead, hLast, hWriter, decide_eq_true_eq]
      refine ⟨trivial, ?_, Or.inl (by simp), Or.inr ?_⟩
      · intro hSame
        exact hU (Option.some.inj hSame)
      · rw [any_eq_true]
        exact ⟨v, hV, by simp [hLive.1, hConflict]⟩
    have hOther : r ≠ d.rid := by
      rintro rfl
      exact hU (hMay.owner_eq ⟨entry, hEntry, hWriter⟩)
    have hTable : (⟨d.tab, r⟩ : Loc) ∈ e.mvccTableKeys := by
      rw [hMay.tableKeys, hEntry]
      simp
    have hUnique := hMay.unique hMvcc hDeleted
    rw [hHeadRec] at hUnique
    unfold uniqueConflict at hUnique
    rw [any_eq_false] at hUnique
    refine hUnique _ hTable ?_
    simp only [hEntry, Option.any_some, hEntryBad, decide_eq_true_eq, and_true, true_and]
    split
    · simp
    · simp [Ne.symm hOther]

theorem nowKey_before
    (hMay : Writable base floor h t d e)
    (i : Nat) :
    e.nowKey d.tab i d.rid = keyIn ((e.db d.tab).cols i) d.before := by
  unfold nowKey
  rw [show (⟨d.tab, d.rid⟩ : Loc) = d.loc from rfl, newest_before hMay]

/- The newest version after a change that is made. -/
theorem newest_done (hVersioned : e.shouldVersionWrites t = true)
    (hDone : Done t d e e') : e'.newest d.loc = d.after := by
  rw [newest_written hVersioned hDone.entry, hDone.edits.record_self]
  cases hDeleted : d.deleted with
  | true => simp [after_of_deleted hDeleted]
  | false => simp [physicalAfter, hDeleted]

variable {now : Rid → Option IndexKey}

/- The entries of an index after a change that is made. -/
theorem exact_done
    (hExact : KeyMap.Exact ((e.db d.tab).entry i) now)
    (hBefore : now d.rid = keyIn ((e.db d.tab).cols i) d.before)
    (hDone : Done t d e e') :
    KeyMap.Exact ((e'.db d.tab).entry i) (update now d.rid
        (keyIn ((e.db d.tab).cols i) d.after)) := by
  rcases (hDone.shifts i).entries with ⟨hSame, hKey⟩ | ⟨hMove, hNew⟩
  · rw [hSame, ← hKey, ← hBefore, update_eq_self]
    exact hExact
  · rw [hMove]
    exact hExact.move hBefore hNew

/- A rejected change puts the keys of its row back. -/
theorem exact_rejected (hExact : KeyMap.Exact ((e.db d.tab).entry i) now)
    (hBefore : now d.rid = keyIn ((e.db d.tab).cols i) d.before)
    (hSlot : (e.db d.tab).HasSlot d.rid)
    (hRejected : Rejected t d e e') :
    KeyMap.Exact ((e'.db d.tab).entry i) now := by
  rcases (hRejected.rekeys hSlot).entries i with ⟨hSame, -⟩ | hMove
  · rw [hSame]
    exact hExact
  · have hMoved := hExact.move hBefore (fun k q hK hM => hExact.eq_of_holder (hBefore.trans hK)
        ((hExact k q).mp hM))
    rw [← hBefore, update_eq_self] at hMoved
    rw [hMove, ← hBefore]
    exact hMoved

/- A deleted row is about to lose the key it had. -/
theorem keyIn_physicalAfter (cols : Option (List ColMeta))
    (hVersioned : e.shouldVersionWrites t = true)
    (hOld : d.inserted = false → e.db.record d.loc = some d.oldRecord) :
    keyIn cols (e.physicalAfter t d) =
      if keyIn cols d.after = none then
        keyIn cols d.before
      else
        keyIn cols d.after := by
  cases hDeleted : d.deleted with
  | true =>
    have hInserted := not_inserted_of_deleted hDeleted
    have hValue : e.physicalAfter t d = d.before := by
      unfold physicalAfter
      rw [if_pos ⟨hVersioned, hDeleted⟩, hOld hInserted,
        before_of_not_inserted hInserted]
    rw [hValue, after_of_deleted hDeleted, Table.keyIn_none, if_pos rfl]
  | false =>
    have hValue : e.physicalAfter t d = d.after := by simp [physicalAfter, hDeleted]
    rw [hValue, after_of_not_deleted hDeleted]
    cases cols with
    | none => rfl
    | some cols => rfl

/- The change is made. -/
theorem KeysOk.done
    (hKeys : e.KeysOk d.tab)
    (hMay : Writable base floor h t d e)
    (hVersioned : e.shouldVersionWrites t = true)
    (hSafe : KeySafe t d e)
    (hWas : ∀ u i r k, e.Running u → u ≠ t → r ∈ e.rowsOf u d.tab →
        keyIn ((e.db d.tab).cols i) d.after = some k →
        e.wasKey d.tab i r ≠ some k)
    (hDone : Done t d e e') :
    e'.KeysOk d.tab := by
  have hBefore := nowKey_before hMay
  refine hKeys.change d.after hMay hVersioned
    (Consistent.done_acts hMay.toCanChange hDone) hDone.edits hDone.entry
    hDone.writeSet (hMay.hasSlot (hKeys.slots d.rid))
    (fun i => (hDone.shifts i).layout) (newest_done hVersioned hDone)
    (fun i => exact_done (hKeys.exact i) (hBefore i) hDone) ?_ hSafe.again ?_
  · intro i
    rw [hBefore i]
    exact keyIn_physicalAfter _ hVersioned (fun hOld => (hMay.seen_old hOld).1)
  · intro u i r k hRun hU hR hKey _
    exact ⟨hWas u i r k hRun hU hR hKey, hSafe.left u i r k hRun hU hR hKey⟩

/- A key rejects the change; the row keeps its keys. -/
theorem KeysOk.reject
    (hKeys : e.KeysOk d.tab)
    (hMay : Writable base floor h t d e)
    (hVersioned : e.shouldVersionWrites t = true)
    (hAgain : d.rid ∈ e.rowsOf t d.tab → ∀ i q k, q ≠ d.rid →
      e.wasKey d.tab i d.rid = some k →
          e.lostKey d.tab i q ≠ some k)
    (hRejected : Rejected t d e e') :
    e'.KeysOk d.tab := by
  have hBefore := nowKey_before hMay
  have hSlot := hMay.hasSlot (hKeys.slots d.rid)
  have hRekeys := hRejected.rekeys hSlot
  have hValue : e.physicalRejected d = d.before := if_pos hSlot
  refine hKeys.change d.before hMay hVersioned
    (Consistent.rejected_acts hMay.toCanChange hRejected) hRejected.edits
    hRejected.entry ?_ hSlot hRekeys.layout ?_ ?_ ?_ hAgain ?_
  · rw [hRejected.writeSet, if_pos (Or.inr hVersioned)]
  · rw [newest_written hVersioned hRejected.entry,
      hRejected.edits.record_self, hRejected.kept hSlot, hValue]
    rfl
  · intro i
    rw [← hBefore i, update_eq_self]
    exact exact_rejected (hKeys.exact i) (hBefore i) hSlot hRejected
  · intro i
    rw [hValue, hBefore i]
    split <;> rfl
  · intro u i r k _ _ _ hKey hNot
    exact absurd ((hBefore i).trans hKey) hNot

end Change

end Engine

end Rmdb
