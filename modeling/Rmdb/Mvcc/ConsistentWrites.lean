import Rmdb.Mvcc.ConsistentRows

/-
  This file shows that a change that a row operation makes, or
  that a lock or a key rejects, keeps the state consistent
  with the history, if the change respects the owners that
  its transaction does not check itself.

  Key definitions include:
    * `Engine.Respects`
    * `Writable`

  Key theorems include:
    * `Writable.seen`
    * `Writable.done`
    * `Writable.reject`
-/

namespace Rmdb

open Function Engine List DataRecord Option

namespace Engine

/- What the manager does not check: a READ COMMITTED insert
  takes a place that nobody has locked, an insert with
  versions a place without old versions; a READ COMMITTED
  update or delete leaves rows with an uncommitted version of
  an MVCC transaction alone; and a READ COMMITTED transaction
  with versions writes only while they are needed. -/
structure Respects (t : TxnId) (d : DataRecord) (e : Engine) : Prop where
  free : d.inserted = true → e.isMvccTxn t = false → e.locks d.loc = none
  new : d.inserted = true → e.shouldVersionWrites t = true → e.mvccVersions d.loc = none
  owner : d.inserted = false → e.isMvccTxn t = false → ∀ u, e.Owns u d.loc → e.isMvccTxn u = false
  mode : e.isMvccTxn t = false → (e.txn t).mvccWriteKeys ≠ [] → 0 < e.activeMvccTxnCount

instance
    (t : TxnId)
    (d : DataRecord)
    (e : Engine) :
    Decidable (Respects t d e) :=
  decidable_of_iff
    ((d.inserted = true → e.isMvccTxn t = false →
        e.locks d.loc = none) ∧
      (d.inserted = true → e.shouldVersionWrites t = true →
        e.mvccVersions d.loc = none) ∧
      (d.inserted = false → e.isMvccTxn t = false →
        ∀ u ∈ (e.mvccVersions d.loc).bind (·.writerTxn),
          e.isMvccTxn u = false) ∧
      (e.isMvccTxn t = false → (e.txn t).mvccWriteKeys ≠ [] →
        0 < e.activeMvccTxnCount)) (by
    have hOwner : ∀ u,
        u ∈ (e.mvccVersions d.loc).bind (·.writerTxn) ↔
          e.Owns u d.loc :=
      fun u => Option.bind_eq_some_iff
    simp only [hOwner]
    exact ⟨fun h => ⟨h.1, h.2.1, h.2.2.1, h.2.2.2⟩,
      fun h => ⟨h.free, h.new, h.owner, h.mode⟩⟩)

/- The counter of the MVCC transactions is right. -/
def CountsMvcc (e : Engine) : Prop :=
  0 < e.activeMvccTxnCount ↔
    ∃ u, e.Running u ∧ e.isMvccTxn u = true

/- The writer of a row without a foreign version has seen the
  record in the heap: its tests look at the newest version. -/
theorem seen_of_entry
    {e : Engine}
    {t : TxnId}
    {d : DataRecord}
    (hCan : CanChange t d e)
    (hInserted : d.inserted = false)
    (hRow : ∀ entry, e.mvccVersions d.loc = some entry →
        (e.isMvccTxn t = true ∨ e.hasMvccState = true) ∧
          entry.entryExists = true ∧
          (entry.writerTxn = none ∨ entry.writerTxn = some t)) :
    e.db.record d.loc = some d.oldRecord ∧ ∀ entry,
        e.mvccVersions d.loc = some entry →
        entry.isDeleted = false := by
  have hVisible := hCan.row
  rw [hInserted, if_neg (by simp), before_of_not_inserted hInserted] at hVisible
  unfold getVisibleRecord at hVisible
  cases hRecord : e.db.record d.loc with
  | none => simp [hRecord] at hVisible
  | some physical =>
    cases hEntry : e.mvccVersions d.loc with
    | none =>
      simp only [hRecord, hEntry, ite_self] at hVisible
      exact ⟨hVisible, fun _ hNone => by cases hNone⟩
    | some entry =>
      rcases hRow entry hEntry with ⟨hMode, hPresent, hWriter⟩
      have hReads : ¬ (¬ e.isMvccTxn t = true ∧ ¬ e.hasMvccState = true) := by
        rintro ⟨hLevel, hState⟩
        rcases hMode with h | h
        · exact hLevel h
        · exact hState h
      have hHead : entry.visibleRecord physical (e.isMvccTxn t) t (e.startTs t) =
            if entry.isDeleted then none
            else some physical := by
        rcases hWriter with hNone | hMine
        · cases hMvcc : e.isMvccTxn t with
          | false => simp [EntryState.visibleRecord, hNone, EntryState.head, hPresent]
          | true =>
            have hNo := hCan.conflict hMvcc entry hEntry
            have hSeen : entry.commitTs ≤ e.startTs t := by
              simpa [EntryState.conflicts, hNone] using hNo
            simp [EntryState.visibleRecord, hNone, hPresent, hSeen]
        · simp [EntryState.visibleRecord, hMine, EntryState.head, hPresent]
      simp only [hRecord, hEntry, hReads, if_false, hHead] at hVisible
      cases hDeleted : entry.isDeleted with
      | true => simp [hDeleted] at hVisible
      | false =>
        simp only [hDeleted, Bool.false_eq_true, if_false] at hVisible
        refine ⟨hVisible, ?_⟩
        intro entry' hEntry'
        obtain rfl := some.inj hEntry'
        exact hDeleted

end Engine

namespace Consistent

open VersionHistory

variable {base : Loc → Option RmRecord} {floor : Int}
variable {e e' : Engine} {h : Hist} {t u : TxnId}
variable {d : DataRecord}

------------
-- Who Can Be In The Way
------------

/- Versions are written only while an MVCC transaction runs. -/
theorem mvcc_of_versioned
    (hCount : e.CountsMvcc)
    (hGrowing : e.state t = .growing)
    (hVersioned : e.shouldVersionWrites t = true) :
    ∃ u, e.Running u ∧ e.isMvccTxn u = true := by
  unfold shouldVersionWrites at hVersioned
  simp only [decide_eq_true_eq] at hVersioned
  rcases hVersioned with hMvcc | hActive
  · exact ⟨t, Or.inl hGrowing, hMvcc⟩
  · exact hCount.mp hActive

theorem no_mvcc_of_unversioned
    (hCount : e.CountsMvcc)
    (hVersioned : e.shouldVersionWrites t = false)
    (u : TxnId)
    (hRunning : e.Running u) :
    e.isMvccTxn u = false := by
  have hActive := (shouldVersionWrites_eq_false.mp hVersioned).2
  rw [Bool.eq_false_iff]
  intro hMvcc
  have hMore := hCount.mpr ⟨u, hRunning, hMvcc⟩
  omega

theorem versions_of_ne
    (hVersions : Versions t d e e')
    {y : Loc}
    (hY : y ≠ d.loc) :
    e'.mvccVersions y = e.mvccVersions y := by
  rw [hVersions.versions]
  split
  · exact update_of_ne hY _ _
  · rfl

theorem keys_cases (hVersions : Versions t d e e') :
    (e'.txn t).mvccWriteKeys = (e.txn t).mvccWriteKeys ∨
        (e'.txn t).mvccWriteKeys =
        d.loc :: (e.txn t).mvccWriteKeys := by
  rw [hVersions.keys]
  split
  · exact Or.inr rfl
  · exact Or.inl rfl

/- The rollback of a change gives back the record before it. -/
theorem undone_writeRecord
    (d : DataRecord)
    (ws : List WriteRecord)
    {owner : Option TxnId}
    (hOwner : d.inserted = true → owner = some t)
    (v : Option RmRecord) :
    undone t d.loc (d.writeRecord :: ws) owner v = undone t d.loc ws
        (if d.inserted then none else owner) d.before := by
  rw [undone_cons]
  cases d with
  | insert x rec =>
    have hMine := hOwner rfl
    simp [writeRecord, loc,
      WriteRecord.loc, actsOn, ownerAfter, beforeWrite, before,
      inserted, hMine]
  | delete x rec | update x old new =>
    simp [writeRecord, loc,
      WriteRecord.loc, actsOn, ownerAfter, beforeWrite, before,
      inserted]

theorem done_acts
    (hCan : CanChange t d e)
    (hDone : Done t d e e') :
    Acts t d.loc e e' where
  keeps := hDone.keeps
  growing := hCan.growing
  running := Or.inl hDone.state
  record := fun _ hY => hDone.edits.record_of_ne hY
  versions := fun _ hY => versions_of_ne hDone.entry hY
  locks := hDone.locks
  owners := fun y hY => by
    rw [hDone.owners]
    split
    · exact update_of_ne hY _ _
    · rfl
  writeSet := Or.inr ⟨d.writeRecord, loc_writeRecord d, hDone.writeSet⟩
  keys := keys_cases hDone.entry
  tableKeys := hDone.entry.tableKeys

theorem rejected_acts
    (hCan : CanChange t d e)
    (hRejected : Rejected t d e e') :
    Acts t d.loc e e' where
  keeps := hRejected.keeps
  growing := hCan.growing
  running := Or.inr hRejected.state
  record := fun _ hY => hRejected.edits.record_of_ne hY
  versions := fun _ hY => versions_of_ne hRejected.entry hY
  locks := hRejected.locks
  owners := fun y hY => by
    rw [hRejected.owners]
    split
    · exact update_of_ne hY _ _
    · rfl
  writeSet := by
    rw [hRejected.writeSet]
    split
    · exact Or.inr ⟨d.writeRecord, loc_writeRecord d, rfl⟩
    · exact Or.inl rfl
  keys := keys_cases hRejected.entry
  tableKeys := hRejected.entry.tableKeys

/- Who has registered the insert of the row after a change. -/
theorem owner_done (hDone : Done t d e e') :
    e'.physicalInsertOwners d.loc = e.physicalInsertOwners d.loc ∨
      e'.physicalInsertOwners d.loc = some t ∨
      e'.physicalInsertOwners d.loc = none := by
  rw [hDone.owners]
  split
  · exact Or.inr (Or.inl (update_self _ _ _))
  · exact Or.inl rfl

theorem owner_rejected (hRejected : Rejected t d e e') :
    e'.physicalInsertOwners d.loc = e.physicalInsertOwners d.loc ∨
      e'.physicalInsertOwners d.loc = some t ∨
      e'.physicalInsertOwners d.loc = none := by
  rw [hRejected.owners]
  split
  · exact Or.inr (Or.inr (update_self _ _ _))
  · exact Or.inl rfl

end Consistent

/- A change that its transaction can make and that respects
  the others, in a state that agrees with the history. -/
structure Writable
    (base : Loc → Option RmRecord)
    (floor : Int)
    (h : Hist)
    (t : TxnId)
    (d : DataRecord)
    (e : Engine) :
    Prop extends Consistent base floor none e h, CanChange t d e,
    Respects t d e where
  count : e.CountsMvcc

/- What is left to say of a change with versions. -/
structure Marked (t : TxnId) (d : DataRecord) (e e' : Engine) : Prop where
  acts : Engine.Acts t d.loc e e'
  entry : Engine.Versions t d e e'
  writeSet : (e'.txn t).writeSet = d.writeRecord :: (e.txn t).writeSet

/- What the transaction and the row are at a change without
  versions. -/
structure Unmarked (t : TxnId) (d : DataRecord) (e : Engine) : Prop where
  level : e.isMvccTxn t = false
  keys : (e.txn t).mvccWriteKeys = []
  none : ∀ u, ¬ e.Owns u d.loc
  -- a growing transaction has locked what it has written
  locked : ∀ w ∈ (e.txn t).writeSet, e.locks w.loc = some t
  live : ∀ entry, e.mvccVersions d.loc = some entry → entry.isDeleted = false

/- What is left to say of a change without versions. -/
structure Overwritten
    (t : TxnId)
    (d : DataRecord)
    (e e' : Engine) :
    Prop where
  acts : Engine.Acts t d.loc e e'
  versions : e'.mvccVersions = e.mvccVersions
  keys : (e'.txn t).mvccWriteKeys = (e.txn t).mvccWriteKeys
  pre : e'.pre d.loc = e.pre d.loc
  remembers : ∀ w ∈ (e'.txn t).writeSet, w ∉ (e.txn t).writeSet → w.loc = d.loc ∧
        (e'.locks d.loc = some t ∨ e'.state t ≠ .growing ∧ ¬ Engine.actsOn t
              (e'.physicalInsertOwners d.loc) w)

namespace Writable

open VersionHistory Consistent

variable {base : Loc → Option RmRecord} {floor : Int}
variable {e e' : Engine} {h h' : Hist} {t u : TxnId}
variable {d : DataRecord}

variable (hMay : Writable base floor h t d e)
include hMay

theorem running : e.Running t := Or.inl hMay.growing

theorem no_plain
    (hVersioned : e.shouldVersionWrites t = true)
    (u : TxnId) :
    ¬ e.Plain u := by
  intro hPlain
  rcases mvcc_of_versioned hMay.count hMay.growing hVersioned with ⟨v, hRunning, hMvcc⟩
  cases hMvcc.symm.trans (hMay.alone u v hPlain hRunning)

/- Only the writer itself can own the row. -/
theorem owner_eq (hOwns : e.Owns u d.loc) : u = t := by
  cases hInserted : d.inserted with
  | true => exact absurd (hMay.place hInserted).1 (hMay.present d.loc u hOwns (by simp)).1
  | false =>
    cases hMvcc : e.isMvccTxn t with
    | true =>
      rcases hOwns with ⟨entry, hEntry, hWriter⟩
      have hNo := hMay.conflict hMvcc entry hEntry
      by_contra hOther
      have hBad : entry.conflicts t (e.startTs t) = true := by
        simp [EntryState.conflicts, hWriter, hOther]
      cases hBad.symm.trans hNo
    | false =>
      have hLevel := hMay.owner hInserted hMvcc u hOwns
      have hLock := (hMay.present d.loc u hOwns (by simp)).2
      rcases hMay.lock hMvcc hInserted with hFree | hMine
      · cases hFree.symm.trans (hLock hLevel)
      · exact (some.inj (hMine.symm.trans (hLock hLevel))).symm

theorem plainOwner_eq (hOwns : e.PlainOwns u d.loc) : u = t := by
  cases hVersioned : e.shouldVersionWrites t with
  | true => exact absurd hOwns.plain (hMay.no_plain hVersioned u)
  | false =>
    have hLevel := (shouldVersionWrites_eq_false.mp hVersioned).1
    cases hInserted : d.inserted with
    | true => cases (hMay.free hInserted hLevel).symm.trans hOwns.lock
    | false =>
      rcases hMay.lock hLevel hInserted with hFree | hMine
      · cases hFree.symm.trans hOwns.lock
      · exact (some.inj (hMine.symm.trans hOwns.lock)).symm

------------
-- What The Writer Has Seen
------------

/- A record that can be changed is the one in the heap. -/
theorem seen_old (hInserted : d.inserted = false) :
    e.db.record d.loc = some d.oldRecord ∧ ∀ entry,
        e.mvccVersions d.loc = some entry →
        entry.isDeleted = false := by
  refine seen_of_entry hMay.toCanChange hInserted ?_
  intro entry hEntry
  refine ⟨Or.inr (hMay.hasMvccState_of_entry hEntry), ?_⟩
  cases hWriter : entry.writerTxn with
  | none =>
    have hFree : ∀ u, ¬ e.Owns u d.loc := by
      rintro u ⟨entry', hEntry', hOwner⟩
      obtain rfl := some.inj (hEntry.symm.trans hEntry')
      cases hWriter.symm.trans hOwner
    have hOk := ((hMay.rows d.loc).settled hFree).entryOk entry hEntry
    exact ⟨hOk.present, Or.inl rfl⟩
  | some u =>
    obtain rfl := hMay.owner_eq ⟨entry, hEntry, hWriter⟩
    exact ⟨((hMay.rows d.loc).owned entry u hEntry hWriter).present, Or.inr rfl⟩

theorem seen (hVersioned : e.shouldVersionWrites t = true) :
    Seen d (e.db.record d.loc) (e.mvccVersions d.loc) :=
  ⟨fun hInserted => ⟨(hMay.place hInserted).1, hMay.new hInserted hVersioned⟩, hMay.seen_old⟩

/- A row that can be changed is in a slot. -/
theorem hasSlot (hSlots : e.db.record d.loc ≠ none →
    (e.db d.tab).HasSlot d.rid) :
    (e.db d.tab).HasSlot d.rid := by
  cases hInserted : d.inserted with
  | true => exact (hMay.place hInserted).2
  | false =>
    apply hSlots
    rw [(hMay.seen_old hInserted).1]
    simp

/- The place of an insert that locks its rows. -/
theorem pre_place
    (hInserted : d.inserted = true)
    (hLevel : e.isMvccTxn t = false) :
    e.pre d.loc = none :=
  (pre_of_free (hMay.free hInserted hLevel)).trans (hMay.place hInserted).1

------------
-- Changes With Versions
------------

/- The row is owned after the change. -/
theorem owned_written (hVersioned : e.shouldVersionWrites t = true) :
    Owned floor e.lastCommitTs (timeline base h d.loc) t (e.written t d) := by
  by_cases hKey : d.loc ∈ (e.txn t).mvccWriteKeys
  · rcases (hMay.sets t hMay.running).keys d.loc hKey with ⟨entry, hEntry, hWriter⟩
    have hOwned := (hMay.rows d.loc).owned entry t hEntry hWriter
    have hEq : e.written t d = entry.setHead t d.headRecord d.deleted := by
      simp [written, hEntry, hKey]
    rw [hEq]
    exact hOwned.rewrite d.headRecord d.deleted
  · have hNone : ∀ u, ¬ e.Owns u d.loc := by
      intro u hU
      obtain rfl := hMay.owner_eq hU
      exact hKey ((hMay.rows d.loc).owner u hU).2.1
    have hSettled := (hMay.rows d.loc).settled hNone
    rw [hMay.pre_eq (fun u hU => hMay.no_plain hVersioned u hU.plain) hNone] at hSettled
    have hEq : e.written t d = firstWritten (e.mvccVersions d.loc) t d := by
      simp [written, firstWritten, hKey]
    rw [hEq]
    exact hSettled.write (hMay.seen hVersioned) hMay.floorStart
      (le_trans hMay.floorStart hMay.floorLast)

omit hMay

section Marked

variable (hMarked : Marked t d e e') (hVersioned : e.shouldVersionWrites t = true)
include hMarked hVersioned

theorem owns_marked :
    e'.mvccVersions d.loc = some (e.written t d) ∧ ∀ u, e'.Owns u d.loc ↔
      u = t := by
  have hEntry : e'.mvccVersions d.loc = some (e.written t d) := by
    rw [hMarked.entry.versions, if_pos hVersioned, update_self]
  refine ⟨hEntry, fun u => ?_⟩
  constructor
  · rintro ⟨entry, hHere, hWriter⟩
    rw [hEntry] at hHere
    obtain rfl := some.inj hHere
    exact (some.inj hWriter).symm
  · rintro rfl
    exact ⟨_, hEntry, rfl⟩

theorem mem_keys_marked : d.loc ∈ (e'.txn t).mvccWriteKeys := by
  rw [hMarked.entry.keys]
  by_cases hKey : d.loc ∈ (e.txn t).mvccWriteKeys
  · simp [hVersioned, hKey]
  · simp [hVersioned, hKey]

include hMay

theorem plain_marked (u : TxnId) : ¬ e'.Plain u := by
  intro hPlain
  by_cases hT : u = t
  · have hKey := mem_keys_marked hMarked hVersioned
    rw [← hT, hPlain.keys] at hKey
    cases hKey
  · exact hMay.no_plain hVersioned u (hMarked.acts.plain_of hPlain hT)

/- Nobody else has written the row. -/
theorem only_marked (hU : e'.Owns u d.loc ∨ e'.PlainOwns u d.loc) : u = t := by
  rcases hU with hO | hP
  · exact ((owns_marked hMarked hVersioned).2 u).mp hO
  · exact absurd hP.plain (hMay.plain_marked hMarked hVersioned u)

theorem frame_marked : HistFrame t d.loc e e' := by
  refine ⟨hMarked.acts, ?_, ?_⟩
  · intro u hU
    obtain rfl := hMay.owner_eq hU
    exact ((owns_marked hMarked hVersioned).2 u).mpr rfl
  · intro y hY
    exact absurd hY.plain (hMay.no_plain hVersioned t)

theorem row_marked (hTimeline : timeline base h' d.loc =
    timeline base h d.loc) :
    RowOk base floor e' h' d.loc := by
  rcases owns_marked hMarked hVersioned with ⟨hEntry, hOwns⟩
  have hActs := hMarked.acts
  constructor
  · intro entry u hHere hWriter
    rw [hEntry] at hHere
    obtain rfl := some.inj hHere
    obtain rfl := (hOwns u).mp ⟨_, hEntry, hWriter⟩
    rw [hTimeline, hActs.keeps.lastCommitTs]
    exact hMay.owned_written hVersioned
  · intro u hU
    obtain rfl := (hOwns u).mp hU
    refine ⟨hActs.running, mem_keys_marked hMarked hVersioned, ?_⟩
    rw [hMarked.writeSet]
    simp
  · intro hNone
    exact absurd ((hOwns t).mpr rfl) (hNone t)
  · intro u hU
    exact absurd hU.plain (hMay.plain_marked hMarked hVersioned u)

theorem set_marked : e'.SetOk t := by
  have hSet := hMay.sets t hMay.running
  have hOwns := ((owns_marked hMarked hVersioned).2 t).mpr rfl
  have hKept : ∀ y, e.Owns t y → e'.Owns t y := by
    intro y hY
    by_cases hX : y = d.loc
    · rw [hX]
      exact hOwns
    · exact (hMarked.acts.owns_iff hX t).mpr hY
  constructor
  · intro y hY
    rw [hMarked.entry.keys] at hY
    split at hY
    · rcases mem_cons.mp hY with rfl | hOld
      · exact hOwns
      · exact hKept y (hSet.keys y hOld)
    · exact hKept y (hSet.keys y hY)
  · intro _ w hW
    rw [hMarked.writeSet] at hW
    rcases mem_cons.mp hW with rfl | hOld
    · rw [loc_writeRecord]
      exact hOwns
    · refine hKept w.loc ?_
      cases hKind : e.hasVersions t with
      | true => exact hSet.versioned hKind w hOld
      | false =>
        -- it would have written without versions before
        rcases hasVersions_eq_false.mp hKind with ⟨hLevel, hKeys⟩
        exact absurd ⟨hMay.running, hLevel, hKeys, ne_nil_of_mem hOld⟩ (hMay.no_plain hVersioned t)
  · intro hKind
    have hKey := mem_keys_marked hMarked hVersioned
    rw [(hasVersions_eq_false.mp hKind).2] at hKey
    cases hKey

end Marked

------------
-- Changes Without Versions
------------

include hMay

theorem unmarked (hVersioned : e.shouldVersionWrites t = false) :
    Unmarked t d e := by
  rcases shouldVersionWrites_eq_false.mp hVersioned with ⟨hLevel, hActive⟩
  have hKeys : (e.txn t).mvccWriteKeys = [] := by
    by_contra hSome
    have hMore := hMay.mode hLevel hSome
    omega
  have hNone : ∀ u, ¬ e.Owns u d.loc := by
    intro u hU
    obtain rfl := hMay.owner_eq hU
    have hKey := ((hMay.rows d.loc).owner u hU).2.1
    rw [hKeys] at hKey
    cases hKey
  refine ⟨hLevel, hKeys, hNone, ?_, ?_⟩
  · intro w hW
    rcases (hMay.sets t hMay.running).plain (hasVersions_eq_false.mpr ⟨hLevel, hKeys⟩) w hW with
      hMine | ⟨hState, -⟩
    · exact hMine
    · exact absurd hMay.growing hState
  · cases hInserted : d.inserted with
    | false => exact (hMay.seen_old hInserted).2
    | true =>
      -- a free place has no deleted version
      intro entry hEntry
      have hOk := ((hMay.rows d.loc).settled hNone).entryOk entry hEntry
      rw [Bool.eq_false_iff]
      exact fun hDeleted => hOk.deleted hDeleted (hMay.pre_place hInserted hLevel)

omit hMay

section Overwritten

variable (hUnmarked : Unmarked t d e) (hOver : Overwritten t d e e')
include hOver

theorem frame_overwritten : HistFrame t d.loc e e' :=
  ⟨hOver.acts, fun _ => (owns_congr (congrFun hOver.versions d.loc)).mpr, fun _ _ => hOver.keys⟩

include hUnmarked

theorem owns_overwritten (u : TxnId) : ¬ e'.Owns u d.loc := by
  rw [owns_congr (congrFun hOver.versions d.loc)]
  exact hUnmarked.none u

theorem row_overwritten (hInv : Consistent base floor none e h)
    (hTimeline : timeline base h' d.loc = timeline base h d.loc) :
    RowOk base floor e' h' d.loc := by
  have hNone := owns_overwritten hUnmarked hOver
  constructor
  · intro entry u hEntry hWriter
    exact absurd ⟨entry, hEntry, hWriter⟩ (hNone u)
  · intro u hU
    exact absurd hU (hNone u)
  · intro _
    rw [hTimeline, hOver.pre, hOver.versions, hOver.acts.keeps.lastCommitTs]
    exact (hInv.rows d.loc).settled hUnmarked.none
  · intro u _
    rw [hOver.versions]
    exact ⟨hNone, hUnmarked.live⟩

theorem set_overwritten : e'.SetOk t := by
  have hKind : e'.hasVersions t = false := by
    rw [hasVersions_eq_false, hOver.acts.keeps.mvcc, hOver.keys]
    exact ⟨hUnmarked.level, hUnmarked.keys⟩
  constructor
  · intro y hY
    rw [hOver.keys, hUnmarked.keys] at hY
    cases hY
  · intro hVersions
    cases hVersions.symm.trans hKind
  · intro _ w hW
    by_cases hOld : w ∈ (e.txn t).writeSet
    · exact Or.inl (hOver.acts.lock_mono (hUnmarked.locked w hOld))
    · rcases hOver.remembers w hW hOld with ⟨hLoc, hCase⟩
      rw [hLoc]
      exact hCase

end Overwritten

include hMay

------------
-- The Change Is Made
------------

/- The record that a change without versions replaces. -/
theorem undone_before (hUnmarked : Unmarked t d e) :
    undone t d.loc (e.txn t).writeSet (if d.inserted then none
          else e.physicalInsertOwners d.loc) d.before = e.pre d.loc := by
  cases hInserted : d.inserted with
  | true =>
    rw [hMay.pre_place hInserted hUnmarked.level, before_of_inserted hInserted]
    apply undone_of_not_mem
    intro hMem
    rcases mem_map.mp hMem with ⟨w, hW, hLoc⟩
    have hMine := hUnmarked.locked w hW
    rw [hLoc, hMay.free hInserted hUnmarked.level] at hMine
    cases hMine
  | false =>
    rw [before_of_not_inserted hInserted, ← (hMay.seen_old hInserted).1, hMay.pre_of_lockable
      hMay.running (hMay.lock hUnmarked.level hInserted) (hUnmarked.none t)]
    simp only [Bool.false_eq_true, if_false]

theorem done_overwritten (hVersioned : e.shouldVersionWrites t = false)
    (hDone : Done t d e e') : Overwritten t d e e' := by
  have hUnmarked := hMay.unmarked hVersioned
  have hLock := (hDone.locked hUnmarked.level).2
  refine ⟨done_acts hMay.toCanChange hDone, ?_, ?_, ?_, ?_⟩
  · rw [hDone.entry.versions, hVersioned]
    simp
  · rw [hDone.entry.keys, hVersioned]
    simp
  · rw [← hMay.undone_before hUnmarked, pre_of_lock hLock, hDone.writeSet, undone_writeRecord]
    · rw [hDone.owners]
      cases hInserted : d.inserted with
      | true => rfl
      | false => rfl
    · intro hInserted
      rw [hDone.owners, hInserted, if_pos rfl, update_self]
  · intro w hW hNew
    rw [hDone.writeSet] at hW
    rcases mem_cons.mp hW with rfl | hOld
    · exact ⟨loc_writeRecord d, Or.inl hLock⟩
    · exact absurd hOld hNew

/- The other writers of the row have committed in time. -/
theorem older_committed :
    ∀ w ∈ h.writes, w.loc = d.loc → w.txn ≠ t → e.state w.txn ≠ .aborted →
        ∃ c, h.stamps w.txn = some c ∧
        (e.isMvccTxn t = true → c ≤ e.startTs t) := by
  intro w hW hLoc hTxn hAlive
  have hHist := hMay.hist
  have hNotRunning : ¬ e.Running w.txn := by
    intro hRunning
    rcases hHist.owns w hW hRunning with hO | hP
    · rw [hLoc] at hO
      exact hTxn (hMay.owner_eq hO)
    · rw [hLoc] at hP
      exact hTxn (hMay.plainOwner_eq hP)
  have hCommitted : e.state w.txn = .committed := by
    cases hState : e.state w.txn with
    | default => exact absurd hState (hHist.state w hW)
    | growing => exact absurd (Or.inl hState) hNotRunning
    | failed reason => exact absurd (Or.inr ⟨reason, hState⟩) hNotRunning
    | committed => rfl
    | aborted => exact absurd hState hAlive
  rcases hHist.committed w.txn hCommitted with ⟨c, hC, -⟩
  refine ⟨c, hC, ?_⟩
  intro hMvcc
  by_cases hOwns : e.Owns t d.loc
  · -- an own write already came after the other one
    have hTop := hHist.tops t d.loc hMay.growing (Or.inl hOwns)
    have hGrowing : e.state t ≠ .aborted := by
      rw [hMay.growing]
      simp
    rcases History.rel_of_top hHist.order hTop hW hLoc with
      hSame | hPair
    · rw [hSame] at hTxn
      exact absurd rfl hTxn
    · rcases hPair hLoc.symm (Ne.symm hTxn) hGrowing hAlive with ⟨c', hC', hStart, -⟩
      obtain rfl := some.inj (hC.symm.trans hC')
      exact hStart hMvcc
  · have hNone : ∀ u, ¬ e.Owns u d.loc := by
      intro u hU
      obtain rfl := hMay.owner_eq hU
      exact hOwns hU
    have hSettled := (hMay.rows d.loc).settled hNone
    rcases hSettled.bound c ⟨w, hW, hLoc, hC⟩ with
      hOld | ⟨entry, hEntry, hOld⟩
    · exact le_trans hOld (hMay.starts t hMay.running hMvcc).1
    · have hOk := hSettled.entryOk entry hEntry
      have hNo := hMay.conflict hMvcc entry hEntry
      simp only [EntryState.conflicts, hOk.writer, ne_eq,
        not_true_eq_false, false_and, reduceCtorEq, not_false_eq_true, true_and, false_or,
        decide_eq_false_iff_not, not_lt] at hNo
      exact le_trans hOld hNo

theorem began : t < e.nextTxnId := by
  by_contra hLate
  exact not_running_of_unused (hMay.ids t (Or.inr (not_lt.mp hLate))) hMay.running

theorem done (hDone : Done t d e e') :
    Consistent base floor none e' (h.write ⟨t, d.loc, d.after⟩) := by
  have hActs := done_acts hMay.toCanChange hDone
  have hOpen := hMay.hist.open_of_running hMay.running
  have hTimeline := fun y => timeline_write base hOpen (x := d.loc) (v := d.after) y
  have hRecord : e'.db.record d.loc = e.physicalAfter t d := hDone.edits.record_self
  have hOwner := owner_done hDone
  cases hVersioned : e.shouldVersionWrites t with
  | true =>
    have hMarked : Marked t d e e' := ⟨hActs, hDone.entry, hDone.writeSet⟩
    rcases owns_marked hMarked hVersioned with ⟨hEntry, hOwns⟩
    have hFrame := hMay.frame_marked hMarked hVersioned
    refine hMay.of_acts hFrame hTimeline (hMay.row_marked hMarked hVersioned (hTimeline d.loc))
      (hMay.set_marked hMarked hVersioned) hOwner
      (fun hPlain => absurd hPlain (hMay.plain_marked hMarked hVersioned t)) ?_
      (hMay.hist.acts_write hFrame hMay.began ?_ (Or.inl ((hOwns t).mpr rfl))
        (fun u => hMay.only_marked hMarked hVersioned) hMay.older_committed)
    · intro u hU _
      obtain rfl := (hOwns u).mp hU
      refine ⟨?_, fun hLevel => (hDone.locked hLevel).2⟩
      rw [hRecord]
      unfold physicalAfter
      cases hDeleted : d.deleted with
      | true =>
        rw [if_pos ⟨hVersioned, rfl⟩, (hMay.seen_old (not_inserted_of_deleted hDeleted)).1]
        simp
      | false =>
        rw [if_neg (by simp), after_of_not_deleted hDeleted]
        simp
    · unfold newest
      rw [hEntry, any_some, hRecord]
      have hHead : (e.written t d).isDeleted = d.deleted := rfl
      rw [hHead]
      cases hDeleted : d.deleted with
      | true => simp [after_of_deleted hDeleted]
      | false => simp [physicalAfter, hDeleted]
  | false =>
    have hUnmarked := hMay.unmarked hVersioned
    have hOver := hMay.done_overwritten hVersioned hDone
    have hLock := (hDone.locked hUnmarked.level).2
    have hNone := owns_overwritten hUnmarked hOver
    have hPlain : e'.PlainOwns t d.loc := by
      refine ⟨⟨Or.inl hDone.state, ?_, ?_, ?_⟩, hLock, ?_⟩
      · rw [hActs.keeps.mvcc]
        exact hUnmarked.level
      · rw [hOver.keys]
        exact hUnmarked.keys
      · rw [hDone.writeSet]
        simp
      · rw [hDone.writeSet]
        simp
    have hFrame := frame_overwritten hOver
    refine hMay.of_acts hFrame hTimeline (row_overwritten hUnmarked hOver hMay.toConsistent
        (hTimeline d.loc)) (set_overwritten hUnmarked hOver) hOwner
      (fun _ => no_mvcc_of_unversioned hMay.count hVersioned) (fun u hU => absurd hU (hNone u))
      (hMay.hist.acts_write hFrame hMay.began ?_ (Or.inr hPlain) ?_ hMay.older_committed)
    · unfold newest
      rw [hOver.versions, hRecord]
      have hNot : (e.mvccVersions d.loc).any (fun entry => entry.isDeleted) = false := by
        cases hEntry : e.mvccVersions d.loc with
        | none => rfl
        | some entry => exact hUnmarked.live entry hEntry
      rw [hNot]
      simp [physicalAfter, hVersioned]
    · intro u hU
      rcases hU with hO | hP
      · exact absurd hO (hNone u)
      · exact some.inj (hP.lock.symm.trans hLock)

------------
-- The Change Is Rejected
------------

/- The handlers put the record back. -/
theorem record_rejected : e.physicalRejected d = e.db.record d.loc := by
  unfold physicalRejected
  split
  · cases hInserted : d.inserted with
    | true => rw [before_of_inserted hInserted, (hMay.place hInserted).1]
    | false => rw [before_of_not_inserted hInserted, (hMay.seen_old hInserted).1]
  · rfl

/- The rollback passes over the insert that the handler has
  taken back. -/
omit hMay in
theorem idle_rejected
    (hInserted : d.inserted = true)
    (hRejected : Rejected t d e e') :
    ¬ actsOn t (e'.physicalInsertOwners d.loc) d.writeRecord := by
  rw [hRejected.owners, hInserted, if_pos rfl, update_self]
  cases d with
  | insert x rec => simp [writeRecord, actsOn]
  | delete x rec | update x old new => cases hInserted

theorem rejected_overwritten (hVersioned : e.shouldVersionWrites t = false)
    (hRejected : Rejected t d e e') : Overwritten t d e e' := by
  have hUnmarked := hMay.unmarked hVersioned
  have hActs := rejected_acts hMay.toCanChange hRejected
  have hRecord : e'.db.record d.loc = e.db.record d.loc := by
    rw [hRejected.edits.record_self, hMay.record_rejected]
  refine ⟨hActs, ?_, ?_, ?_, ?_⟩
  · rw [hRejected.entry.versions, hVersioned]
    simp
  · rw [hRejected.entry.keys, hVersioned]
    simp
  · cases hInserted : d.inserted with
    | true =>
      have hFree := hMay.free hInserted hUnmarked.level
      rw [pre_of_free hFree]
      rcases hActs.locks d.loc with hSame | ⟨-, -, hMine, -⟩
      · rw [pre_of_free (hSame.trans hFree)]
        exact hRecord
      · rw [pre_of_lock hMine, hRecord]
        apply undone_of_idle
        intro w hW hLoc
        rw [hRejected.writeSet, if_pos (Or.inl hInserted)] at hW
        rcases mem_cons.mp hW with rfl | hOld
        · exact idle_rejected hInserted hRejected
        · have hLock := hUnmarked.locked w hOld
          rw [hLoc, hFree] at hLock
          cases hLock
    | false =>
      have hWs : (e'.txn t).writeSet = (e.txn t).writeSet := by
        rw [hRejected.writeSet, if_neg]
        simp [hInserted, hVersioned]
      have hOwner : e'.physicalInsertOwners =
          e.physicalInsertOwners := by
        rw [hRejected.owners, hInserted]
        simp
      rw [pre_of_lock (hRejected.locked hInserted hUnmarked.level), hWs, hOwner, hRecord]
      exact (hMay.pre_of_lockable hMay.running (hMay.lock hUnmarked.level hInserted)
        (hUnmarked.none t)).symm
  · intro w hW hNew
    rw [hRejected.writeSet] at hW
    split at hW
    · rename_i hKind
      have hInserted : d.inserted = true := by
        rcases hKind with hI | hV
        · exact hI
        · cases hV.symm.trans hVersioned
      rcases mem_cons.mp hW with rfl | hOld
      · exact ⟨loc_writeRecord d, Or.inr ⟨hRejected.failed, idle_rejected hInserted hRejected⟩⟩
      · exact absurd hOld hNew
    · exact absurd hW hNew

theorem reject
    {rejected : Option TxnId}
    (hRejected : Rejected t d e e')
    (hStays : rejected ≠ some t → e.shouldVersionWrites t = true →
      d.inserted = false) :
    Consistent base floor rejected e' h := by
  have hActs := rejected_acts hMay.toCanChange hRejected
  have hOther : ∀ u, e'.state u = .growing → u ≠ t := by
    rintro u hGrowing rfl
    exact hRejected.failed hGrowing
  have hOwner := owner_rejected hRejected
  cases hVersioned : e.shouldVersionWrites t with
  | true =>
    have hMarked : Marked t d e e' := by
      refine ⟨hActs, hRejected.entry, ?_⟩
      rw [hRejected.writeSet, if_pos (Or.inr hVersioned)]
    have hFrame := hMay.frame_marked hMarked hVersioned
    refine hMay.of_acts hFrame (fun _ => rfl) (hMay.row_marked hMarked hVersioned rfl)
      (hMay.set_marked hMarked hVersioned) hOwner
      (fun hPlain => absurd hPlain (hMay.plain_marked hMarked hVersioned t)) ?_
      (hMay.hist.acts_same hFrame ?_)
    · intro u hU hNot
      obtain rfl := ((owns_marked hMarked hVersioned).2 u).mp hU
      have hInserted := hStays hNot hVersioned
      refine ⟨?_, hRejected.locked hInserted⟩
      rw [hRejected.edits.record_self, hMay.record_rejected, (hMay.seen_old hInserted).1]
      simp
    · intro u hGrowing hU
      exact absurd (hMay.only_marked hMarked hVersioned hU) (hOther u hGrowing)
  | false =>
    have hUnmarked := hMay.unmarked hVersioned
    have hOver := hMay.rejected_overwritten hVersioned hRejected
    have hNone := owns_overwritten hUnmarked hOver
    refine hMay.of_acts (frame_overwritten hOver) (fun _ => rfl)
      (row_overwritten hUnmarked hOver hMay.toConsistent rfl) (set_overwritten hUnmarked hOver)
      hOwner (fun _ => no_mvcc_of_unversioned hMay.count hVersioned)
      (fun u hU => absurd hU (hNone u)) (hMay.hist.acts_same (frame_overwritten hOver) ?_)
    intro u hGrowing hU
    have hT := hOther u hGrowing
    rcases hU with hO | hP
    · exact absurd hO (hNone u)
    · -- nobody else has written the row without versions
      have hBefore : e.PlainOwns u d.loc := by
        refine hP.congr (hActs.txn hT).symm (fun hLock => ?_)
        rcases hActs.locks d.loc with hSame | ⟨-, -, hMine, -⟩
        · exact hSame.symm.trans hLock
        · exact absurd (some.inj (hLock.symm.trans hMine)) hT
      exact absurd (hMay.plainOwner_eq hBefore) hT

/- The transaction may be left without the row of its insert. -/
theorem broken (hRejected : Rejected t d e e') :
    Consistent base floor (some t) e' h :=
  hMay.reject hRejected (fun hNot => absurd rfl hNot)

end Writable

end Rmdb
