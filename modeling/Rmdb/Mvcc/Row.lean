import Rmdb.Mvcc.Effects

/-
  This file relates one row of the manager, its record in the
  heap and its version entry, to the history of the row: the
  value that was committed at every timestamp.

  A row is settled when its newest version is committed, and
  owned when that version belongs to a running transaction.
  The history is kept for the timestamps from a floor on;
  garbage collection raises the floor.

  Key definitions include:
    * `readAt`
    * `Timeline`
    * `Settled`
    * `Owned`

  Key theorems include:
    * `Settled.write`
    * `Owned.rewrite`
    * `Owned.settle`
    * `Settled.collect`
    * `Settled.visible`
    * `Owned.visible`
-/

namespace Rmdb

open List Option

------------
-- Settled And Owned Rows
------------

/- What a snapshot reads from a row it has not written. -/
def readAt (physical : Option RmRecord) :
    Option MvccEntry → Int → Option RmRecord
| none, _ => physical
| some entry, ts =>
  if entry.writerTxn = none ∧ entry.commitTs ≤ ts then
    if entry.isDeleted then none else physical
  else
    entry.undoAt ts

/- The history of a row: its committed value at a timestamp,
  and the timestamps at which it was written. -/
structure Timeline where
  value : Int → Option RmRecord
  stamped : Int → Prop

/- The record in the heap after an abort of the writer. -/
def MvccEntry.rolledRecord (entry : MvccEntry) : Option RmRecord :=
  if entry.rollbackDeletePhysical then
    none
  else
    some entry.rollbackRecord

def UndoOk (last : Int) (versions : List MvccVersion) : Prop :=
  ∀ v ∈ versions, v.writerTxn = none ∧ v.commitTs ≤ last

/- An entry whose newest version is committed. -/
structure EntryOk
    (last : Int)
    (physical : Option RmRecord)
    (entry : MvccEntry) :
    Prop where
  writer : entry.writerTxn = none
  present : entry.entryExists = true
  commit : entry.commitTs ≤ last
  deleted : entry.isDeleted = true → physical ≠ none
  undo : UndoOk last entry.undoVersions
  -- no rollback is pending
  clean : entry.toEntryState.toEntry = entry

structure Settled
    (floor last : Int)
    (tl : Timeline)
    (physical : Option RmRecord)
    (entry : Option MvccEntry) :
    Prop where
  reads : ∀ ts, floor ≤ ts → tl.value ts = readAt physical entry ts
  gone : physical = none → ∀ ts, floor ≤ ts → tl.value ts = none
  bound : ∀ c, tl.stamped c → c ≤ floor ∨ ∃ en, entry = some en ∧ c ≤ en.commitTs
  entryOk : ∀ en, entry = some en → EntryOk last physical en

structure Owned
    (floor last : Int)
    (tl : Timeline)
    (t : TxnId)
    (entry : MvccEntry) :
    Prop where
  writer : entry.writerTxn = some t
  present : entry.entryExists = true
  reads : ∀ ts, floor ≤ ts → tl.value ts = entry.undoAt ts
  undo : UndoOk last entry.undoVersions
  rollback : entry.rollbackDeletePhysical = true ∨ entry.rollbackRestorePhysical = true
  flag : entry.hadEntryOnAbort = entry.restoreSnapshot.isSome
  rolled : Settled floor last tl entry.rolledRecord entry.rolledEntry

section Rows

variable {floor last : Int} {tl tl' : Timeline} {t u : TxnId}
variable {physical physical' : Option RmRecord}
variable {entry : Option MvccEntry} {en : MvccEntry}

variable {last' : Int}

------------
-- Later Floors And Timestamps
------------

theorem UndoOk.mono
    {versions : List MvccVersion}
    (hUndo : UndoOk last versions)
    (hLast : last ≤ last') :
    UndoOk last' versions := by
  intro v hV
  have hOld := hUndo v hV
  exact ⟨hOld.1, le_trans hOld.2 hLast⟩

theorem EntryOk.mono (hOk : EntryOk last physical en)
    (hLast : last ≤ last') : EntryOk last' physical en :=
  { hOk with
    commit := le_trans hOk.commit hLast,
    undo := hOk.undo.mono hLast }

------------
-- Writes
------------

/- A version on top of the older ones. -/
theorem undoAt_cons
    (es : EntryState)
    (v : MvccVersion)
    (rest : List MvccVersion)
    (hUndo : es.undoVersions = v :: rest)
    (hWriter : v.writerTxn = none)
    (ts : Int) :
    es.undoAt ts =
      if v.commitTs ≤ ts then
        v.value
      else
        { es with undoVersions := rest }.undoAt ts := by
  unfold EntryState.undoAt
  rw [hUndo, find?_cons]
  by_cases hTs : v.commitTs ≤ ts
  · simp [hWriter, hTs]
  · simp [hTs]

variable {d : DataRecord}

/- A later write of the owner. -/
theorem Owned.rewrite
    (hRow : Owned floor last tl t en)
    (rec : RmRecord)
    (deleted : Bool) :
    Owned floor last tl t (en.setHead t rec deleted) :=
  ⟨rfl, rfl, hRow.reads, hRow.undo, hRow.rollback, hRow.flag, hRow.rolled⟩

------------
-- Commits
------------

/- The writer of a row commits. -/
theorem Owned.settle
    (hRow : Owned floor last tl t en)
    (hThere : physical ≠ none)
    (hOlder : ∀ ts, ts ≤ last → tl'.value ts = tl.value ts)
    (hNewer : ∀ ts, last + 1 ≤ ts →
      tl'.value ts = if en.isDeleted then none else physical)
    (hStamped : ∀ c, tl'.stamped c → c ≤ last + 1) :
    Settled floor (last + 1) tl' physical (some (en.settle (last + 1))) := by
  constructor
  · intro ts hTs
    by_cases hNew : last + 1 ≤ ts
    · rw [hNewer ts hNew]
      exact (if_pos ⟨rfl, hNew⟩).symm
    · rw [hOlder ts (by omega), hRow.reads ts hTs]
      simp [readAt, MvccEntry.settle, hNew, EntryState.undoAt]
  · intro hNone
    exact absurd hNone hThere
  · intro c hC
    exact Or.inr ⟨_, rfl, hStamped c hC⟩
  · intro en' hEn
    obtain rfl := some.inj hEn
    exact ⟨rfl, hRow.present, le_refl _, fun _ => hThere, hRow.undo.mono (by omega), rfl⟩

------------
-- Garbage Collection
------------

/- Dropping old versions keeps what newer snapshots find. -/
theorem find_keepFrom
    (w ts : Int)
    (hTs : w ≤ ts)
    (versions : List MvccVersion) :
    (MvccEntry.keepFrom w versions).find? (fun v => v.writerTxn = none ∧
      v.commitTs ≤ ts) =
      versions.find? (fun v => v.writerTxn = none ∧ v.commitTs ≤ ts) := by
  induction versions with
  | nil => rfl
  | cons v rest ih =>
    unfold MvccEntry.keepFrom
    by_cases hOld : v.writerTxn = none ∧ v.commitTs ≤ w
    · have hSeen : v.commitTs ≤ ts := le_trans hOld.2 hTs
      simp [hOld, hSeen]
    · rw [if_neg hOld, find?_cons, find?_cons, ih]

theorem mem_of_mem_keepFrom
    (w : Int)
    (versions : List MvccVersion)
    (v : MvccVersion)
    (hV : v ∈ MvccEntry.keepFrom w versions) :
    v ∈ versions := by
  induction versions with
  | nil => exact hV
  | cons v' rest ih =>
    unfold MvccEntry.keepFrom at hV
    split at hV
    · rw [mem_singleton] at hV
      exact hV ▸ mem_cons_self
    · rcases mem_cons.mp hV with rfl | hRest
      · exact mem_cons_self
      · exact mem_cons_of_mem v' (ih hRest)

/- What garbage collection makes of a committed entry. -/
theorem collect_eq
    (w : Int)
    (hOk : EntryOk last physical en) :
    en.collect w =
      if en.commitTs ≤ w then
        none
      else
        some { en with
          undoVersions := MvccEntry.keepFrom w en.undoVersions } := by
  unfold MvccEntry.collect
  rw [if_neg (by simp [hOk.writer])]
  by_cases hOld : en.commitTs ≤ w
  · cases hDeleted : en.isDeleted with
    | true | false => simp [hOld, hOk.present]
  · simp [hOld]

/- Garbage collection only drops versions of settled entries. -/
theorem collect_eq_some
    {w : Int}
    {en' : MvccEntry}
    (hCollect : en.collect w = some en') :
    en' = en ∨ en.writerTxn = none ∧ ∃ undo,
      en' = { en with undoVersions := undo } := by
  unfold MvccEntry.collect at hCollect
  split at hCollect
  · cases hCollect
    exact Or.inl rfl
  · rename_i hWriter
    simp only [ne_eq, not_not] at hWriter
    generalize (if en.commitTs ≤ w then []
      else MvccEntry.keepFrom w en.undoVersions) = undo at hCollect
    simp only at hCollect
    split at hCollect
    · cases hCollect
    · split at hCollect
      · cases hCollect
      · cases hCollect
        exact Or.inr ⟨hWriter, undo, rfl⟩

theorem writer_collect
    {w : Int}
    {en' : MvccEntry}
    (hCollect : en.collect w = some en') :
    en'.writerTxn = en.writerTxn := by
  rcases collect_eq_some hCollect with rfl | ⟨-, undo, rfl⟩
  · rfl
  · rfl

theorem dead_eq
    (w : Int)
    (hOk : EntryOk last physical en) :
    MvccEntry.dead w en = (en.isDeleted && decide (en.commitTs ≤ w)) := by
  simp [MvccEntry.dead, hOk.writer, hOk.present]

theorem Owned.collect (hRow : Owned floor last tl t en)
    (w : Int) :
    MvccEntry.collect w en = some en ∧ MvccEntry.dead w en = false := by
  constructor
  · unfold MvccEntry.collect
    rw [if_pos (by simp [hRow.writer])]
  · simp [MvccEntry.dead, hRow.writer]

variable (hRow : Settled floor last tl physical entry)
include hRow

theorem Settled.mono
    {floor' : Int}
    (hFloor : floor ≤ floor')
    (hLast : last ≤ last') :
    Settled floor' last' tl physical entry := by
  constructor
  · intro ts hTs
    exact hRow.reads ts (le_trans hFloor hTs)
  · intro hNone ts hTs
    exact hRow.gone hNone ts (le_trans hFloor hTs)
  · intro c hC
    rcases hRow.bound c hC with h | h
    · exact Or.inl (le_trans h hFloor)
    · exact Or.inr h
  · intro en hEn
    exact (hRow.entryOk en hEn).mono hLast

omit hRow in
theorem Owned.mono
    {floor' : Int}
    (hRow : Owned floor last tl t en)
    (hFloor : floor ≤ floor')
    (hLast : last ≤ last') :
    Owned floor' last' tl t en :=
  { hRow with
    reads := fun ts hTs => hRow.reads ts (le_trans hFloor hTs),
    undo := hRow.undo.mono hLast,
    rolled := hRow.rolled.mono hFloor hLast }

/- A history that says the same of the row. -/
theorem Settled.congr (hValue : ∀ ts, floor ≤ ts → tl'.value ts = tl.value ts)
    (hStamped : ∀ c, tl'.stamped c → tl.stamped c) :
    Settled floor last tl' physical entry := by
  refine ⟨?_, ?_, ?_, hRow.entryOk⟩
  · intro ts hTs
    rw [hValue ts hTs, hRow.reads ts hTs]
  · intro hNone ts hTs
    rw [hValue ts hTs, hRow.gone hNone ts hTs]
  · intro c hC
    exact hRow.bound c (hStamped c hC)

omit hRow

theorem Owned.congr (hRow : Owned floor last tl t en)
    (hValue : ∀ ts, floor ≤ ts → tl'.value ts = tl.value ts)
    (hStamped : ∀ c, tl'.stamped c → tl.stamped c) :
    Owned floor last tl' t en :=
  { hRow with
    reads := fun ts hTs => by rw [hValue ts hTs, hRow.reads ts hTs],
    rolled := hRow.rolled.congr hValue hStamped }

/- The entry that the first write to a row leaves. -/
def firstWritten
    (entry : Option MvccEntry)
    (t : TxnId)
    (d : DataRecord) :
    MvccEntry :=
  ((entry.getD
      (MvccEntry.fresh
        (if d.inserted then none else some d.oldRecord))).remember
    entry.isSome d.oldRecord d.inserted).setHead t d.headRecord
      d.deleted

/- The row is as the writer saw it: a new row had no record
  and no versions, another row has the record and is not
  deleted. -/
structure Seen
    (d : DataRecord)
    (physical : Option RmRecord)
    (entry : Option MvccEntry) :
    Prop where
  new : d.inserted = true → physical = none ∧ entry = none
  old : d.inserted = false → physical = some d.oldRecord ∧
        ∀ en, entry = some en → en.isDeleted = false

theorem rolledRecord_firstWritten
    (hSeen : Seen d physical entry) :
    (firstWritten entry t d).rolledRecord = physical := by
  cases hInserted : d.inserted with
  | true =>
    simp [firstWritten, MvccEntry.rolledRecord, MvccEntry.setHead, MvccEntry.remember, hInserted,
      (hSeen.new hInserted).1]
  | false =>
    simp [firstWritten, MvccEntry.rolledRecord, MvccEntry.setHead, MvccEntry.remember, hInserted,
      (hSeen.old hInserted).1]

theorem rolledEntry_firstWritten (hClean : ∀ en, entry = some en →
    en.toEntryState.toEntry = en) :
    (firstWritten entry t d).rolledEntry = entry := by
  cases entry with
  | none => simp [firstWritten, MvccEntry.rolledEntry, MvccEntry.setHead, MvccEntry.remember]
  | some en =>
    simp [firstWritten, MvccEntry.rolledEntry, MvccEntry.setHead, MvccEntry.remember, hClean en rfl]

include hRow

theorem undoAt_firstWritten
    (hSeen : Seen d physical entry)
    (hFloor : 0 ≤ floor)
    (ts : Int)
    (hTs : floor ≤ ts) :
    (firstWritten entry t d).undoAt ts = readAt physical entry ts := by
  cases hInserted : d.inserted with
  | true =>
    rcases hSeen.new hInserted with ⟨rfl, rfl⟩
    simp [firstWritten, MvccEntry.setHead, MvccEntry.remember,
      hInserted, MvccEntry.fresh, EntryState.toEntry, EntryState.undoAt, readAt]
  | false =>
    rcases hSeen.old hInserted with ⟨rfl, hLive⟩
    cases entry with
    | none =>
      have hStart : (0 : Int) ≤ ts := le_trans hFloor hTs
      simp [firstWritten, MvccEntry.setHead, MvccEntry.remember, hInserted, MvccEntry.fresh,
        EntryState.toEntry, EntryState.undoAt, readAt, MvccVersion.value, hStart]
    | some en =>
      have hWriter := (hRow.entryOk en rfl).writer
      have hNot := hLive en rfl
      rw [undoAt_cons _ ⟨d.oldRecord, en.isDeleted, en.commitTs, en.writerTxn⟩ en.undoVersions
        (by simp [firstWritten, MvccEntry.setHead, MvccEntry.remember, hInserted]) hWriter]
      simp only [readAt, hWriter, true_and, hNot]
      rfl

theorem undoOk_firstWritten
    (hLast : 0 ≤ last) : UndoOk last (firstWritten entry t d).undoVersions := by
  intro v hV
  have hOld : ∀ en, entry = some en → ∀ v ∈ en.undoVersions,
      v.writerTxn = none ∧ v.commitTs ≤ last := fun en hEn => (hRow.entryOk en hEn).undo
  cases entry with
  | none =>
    cases hInserted : d.inserted with
    | true =>
      simp [firstWritten, MvccEntry.setHead, MvccEntry.remember, hInserted, MvccEntry.fresh,
        EntryState.toEntry] at hV
    | false =>
      simp [firstWritten, MvccEntry.setHead, MvccEntry.remember, hInserted, MvccEntry.fresh,
        EntryState.toEntry] at hV
      subst hV
      exact ⟨rfl, hLast⟩
  | some en =>
    have hOk := hRow.entryOk en rfl
    cases hInserted : d.inserted with
    | true =>
      simp [firstWritten, MvccEntry.setHead, MvccEntry.remember, hInserted] at hV
      exact hOld en rfl v hV
    | false =>
      simp only [firstWritten, MvccEntry.setHead, MvccEntry.remember, hInserted, getD_some,
        Bool.false_eq_true, if_false, mem_cons] at hV
      rcases hV with rfl | hV
      · exact ⟨hOk.writer, hOk.commit⟩
      · exact hOld en rfl v hV

/- The first write of a transaction to a settled row. -/
theorem Settled.write
    (hSeen : Seen d physical entry)
    (hFloor : 0 ≤ floor)
    (hLast : 0 ≤ last) :
    Owned floor last tl t (firstWritten entry t d) := by
  refine ⟨rfl, rfl, ?_, undoOk_firstWritten hRow hLast, ?_, ?_, ?_⟩
  · intro ts hTs
    rw [hRow.reads ts hTs, undoAt_firstWritten hRow hSeen hFloor ts hTs]
  · cases hInserted : d.inserted with
    | true =>
      exact Or.inl (by simp [firstWritten, MvccEntry.setHead, MvccEntry.remember, hInserted])
    | false =>
      exact Or.inr (by simp [firstWritten, MvccEntry.setHead, MvccEntry.remember, hInserted])
  · cases entry with
    | none => rfl
    | some en => rfl
  · rw [rolledRecord_firstWritten hSeen, rolledEntry_firstWritten
        (fun en hEn => (hRow.entryOk en hEn).clean)]
    exact hRow

/- The owner of a row without a version of its own commits;
  the older values of the row are lost. -/
theorem Settled.overwrite (hLive : ∀ en, entry = some en → en.isDeleted = false)
    (hNewer : ∀ ts, last ≤ ts → tl'.value ts = physical')
    (hStamped : ∀ c, tl'.stamped c → c ≤ last) :
    Settled last last tl' physical' entry := by
  constructor
  · intro ts hTs
    rw [hNewer ts hTs]
    cases entry with
    | none => rfl
    | some en =>
      have hOk := hRow.entryOk en rfl
      simp [readAt, hOk.writer, le_trans hOk.commit hTs, hLive en rfl]
  · intro hNone ts hTs
    rw [hNewer ts hTs, hNone]
  · intro c hC
    exact Or.inl (hStamped c hC)
  · intro en hEn
    have hOk := hRow.entryOk en hEn
    have hNot := hLive en hEn
    exact { hOk with
      deleted := fun h => absurd (hNot.symm.trans h) (by simp) }

theorem Settled.collect
    (w : Int)
    (hFloor : floor ≤ w) :
    Settled w last tl (if entry.any (MvccEntry.dead w) then none else physical)
      (entry.bind (MvccEntry.collect w)) := by
  cases entry with
  | none => exact hRow.mono hFloor (le_refl last)
  | some en =>
    have hOk := hRow.entryOk en rfl
    simp only [any_some, bind_some, dead_eq w hOk, collect_eq w hOk]
    by_cases hOld : en.commitTs ≤ w
    · -- the entry goes, and with it a deleted record
      have hSeen : ∀ ts, w ≤ ts → tl.value ts =
          if en.isDeleted then none else physical := by
        intro ts hTs
        rw [hRow.reads ts (le_trans hFloor hTs)]
        simp [readAt, hOk.writer, le_trans hOld hTs]
      simp only [hOld, decide_true, Bool.and_true, if_true]
      refine ⟨hSeen, ?_, ?_, fun _ h => by simp at h⟩
      · intro hNone ts hTs
        rw [hSeen ts hTs, hNone]
      · intro c hC
        rcases hRow.bound c hC with h | ⟨en', hEn, h⟩
        · exact Or.inl (le_trans h hFloor)
        · obtain rfl := some.inj hEn
          exact Or.inl (le_trans h hOld)
    · simp only [hOld, decide_false, Bool.and_false, Bool.false_eq_true, if_false]
      constructor
      · intro ts hTs
        rw [hRow.reads ts (le_trans hFloor hTs)]
        simp only [readAt, hOk.writer, true_and]
        split
        · rfl
        · unfold EntryState.undoAt
          rw [find_keepFrom w ts hTs]
      · intro hNone ts hTs
        exact hRow.gone hNone ts (le_trans hFloor hTs)
      · intro c hC
        rcases hRow.bound c hC with h | ⟨en', hEn, h⟩
        · exact Or.inl (le_trans h hFloor)
        · obtain rfl := some.inj hEn
          exact Or.inr ⟨_, rfl, h⟩
      · intro en' hEn
        obtain rfl := some.inj hEn
        refine ⟨hOk.writer, hOk.present, hOk.commit, hOk.deleted, ?_, ?_⟩
        · intro v hV
          exact hOk.undo v (mem_of_mem_keepFrom w _ v hV)
        · have hClean := hOk.clean
          rw [← hClean]
          rfl

------------
-- Reads
------------

/- The timestamp at which a transaction reads. -/
def readTs (mvcc : Bool) (startTs last : Int) : Int :=
  if mvcc then startTs else last

/- Everybody reads the committed value of a settled row. -/
theorem Settled.visible
    (hLast : floor ≤ last)
    {mvcc : Bool}
    {startTs : Int}
    (hStart : mvcc = true → floor ≤ startTs)
    {rec : RmRecord}
    (hRec : physical = some rec)
    (hEntry : entry = some en) :
    en.visibleRecord rec mvcc u startTs =
      tl.value (readTs mvcc startTs last) := by
  have hOk := hRow.entryOk en hEntry
  subst hEntry hRec
  cases mvcc with
  | false =>
    rw [show readTs false startTs last = last from rfl, hRow.reads last hLast]
    simp [EntryState.visibleRecord, hOk.writer, EntryState.head, hOk.present, readAt, hOk.commit]
  | true =>
    rw [show readTs true startTs last = startTs from rfl, hRow.reads startTs (hStart rfl)]
    simp only [EntryState.visibleRecord, hOk.writer, readAt,
      hOk.present, not_true_eq_false, if_false, true_and, reduceCtorEq]

omit hRow

/- All older versions are committed. -/
theorem undoLatest_eq (es : EntryState)
    (hUndo : UndoOk last es.undoVersions) : es.undoLatest = es.undoAt last := by
  unfold EntryState.undoLatest EntryState.undoAt
  congr 1
  have hAll : ∀ vs : List MvccVersion, UndoOk last vs →
      vs.find? (fun v => decide (v.writerTxn = none)) = vs.find? (fun v =>
          decide (v.writerTxn = none ∧ v.commitTs ≤ last)) := by
    intro vs hVs
    induction vs with
    | nil => rfl
    | cons v rest ih =>
      have hV := hVs v mem_cons_self
      simp [hV]
  exact hAll _ hUndo

/- The others read the committed value below an owned row. -/
theorem Owned.visible
    (hRow : Owned floor last tl t en)
    (hLast : floor ≤ last)
    {mvcc : Bool}
    {startTs : Int}
    (hStart : mvcc = true → floor ≤ startTs)
    (hOther : u ≠ t)
    (rec : RmRecord) :
    en.visibleRecord rec mvcc u startTs =
      tl.value (readTs mvcc startTs last) := by
  have hNot : some t ≠ some u := fun h => hOther (some.inj h).symm
  cases mvcc with
  | false =>
    rw [show readTs false startTs last = last from rfl, hRow.reads last hLast]
    simp [EntryState.visibleRecord, hRow.writer, hNot, undoLatest_eq _ hRow.undo]
  | true =>
    rw [show readTs true startTs last = startTs from rfl, hRow.reads startTs (hStart rfl)]
    simp [EntryState.visibleRecord, hRow.writer, hNot]

/- The owner reads its own version. -/
theorem Owned.visible_self
    (hRow : Owned floor last tl t en)
    (mvcc : Bool)
    (startTs : Int)
    (rec : RmRecord) :
    en.visibleRecord rec mvcc t startTs =
      if en.isDeleted then none else some rec := by
  cases mvcc with
  | false | true => simp [EntryState.visibleRecord, hRow.writer, EntryState.head, hRow.present]

end Rows

end Rmdb
