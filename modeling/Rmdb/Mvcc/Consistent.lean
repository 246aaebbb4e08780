import Rmdb.Mvcc.EndEffects
import Rmdb.Mvcc.Trace

/-
  This file states how the manager's state is related to the
  history of its run.

  A row is owned by a running transaction if it has a version
  of it, or if a READ COMMITTED transaction has written it
  without versions while it holds its lock.  Every other row
  is settled.  Reads then see what the history says: the own
  last write, or the value committed at the read timestamp.

  Key definitions include:
    * `Engine.Running`
    * `Engine.PlainOwns`
    * `Engine.pre`
    * `RowOk`
    * `HistOk`
    * `Consistent`

  Key theorems include:
    * `Consistent.pre_eq`
    * `Consistent.visible`
-/

namespace Rmdb

open Engine Option

namespace Engine

------------
-- Owners
------------

/- A transaction that has begun and has not ended. -/
def Running (e : Engine) (t : TxnId) : Prop :=
  e.state t = .growing ∨ ∃ reason, e.state t = .failed reason

instance (e : Engine) (t : TxnId) : Decidable (e.Running t) :=
  decidable_of_iff
    (e.state t ≠ .default ∧ e.state t ≠ .committed ∧
      e.state t ≠ .aborted) (by
    unfold Running
    cases e.state t <;> simp)

/- A transaction that has written, but no versions. -/
structure Plain (e : Engine) (t : TxnId) : Prop where
  running : e.Running t
  level : e.isMvccTxn t = false
  keys : (e.txn t).mvccWriteKeys = []
  writes : (e.txn t).writeSet ≠ []

instance (e : Engine) (t : TxnId) : Decidable (e.Plain t) :=
  decidable_of_iff
    (e.Running t ∧ e.isMvccTxn t = false ∧
      (e.txn t).mvccWriteKeys = [] ∧ (e.txn t).writeSet ≠ [])
    ⟨fun h => ⟨h.1, h.2.1, h.2.2.1, h.2.2.2⟩,
      fun h => ⟨h.running, h.level, h.keys, h.writes⟩⟩

/- A row that such a transaction has locked and written. -/
structure PlainOwns (e : Engine) (t : TxnId) (x : Loc) : Prop where
  plain : e.Plain t
  lock : e.locks x = some t
  wrote : x ∈ (e.txn t).writeSet.map WriteRecord.loc

/- The record of a row without the writes of its lock's holder. -/
def pre (e : Engine) (x : Loc) : Option RmRecord :=
  match e.locks x with
  | none => e.db.record x
  | some t =>
    undone t x (e.txn t).writeSet (e.physicalInsertOwners x)
      (e.db.record x)

/- The newest version of a row. -/
def newest (e : Engine) (x : Loc) : Option RmRecord :=
  if (e.mvccVersions x).any (fun entry => entry.isDeleted) then
    none
  else
    e.db.record x

/- What a running transaction remembers. -/
structure SetOk (e : Engine) (t : TxnId) : Prop where
  keys : ∀ x ∈ (e.txn t).mvccWriteKeys, e.Owns t x
  versioned : e.hasVersions t = true → ∀ w ∈ (e.txn t).writeSet, e.Owns t w.loc
  plain : e.hasVersions t = false → ∀ w ∈ (e.txn t).writeSet, e.locks w.loc = some t ∨
          e.state t ≠ .growing ∧ ¬ actsOn t (e.physicalInsertOwners w.loc) w

end Engine

------------
-- The Invariant
------------

/- The history of one row. -/
def timeline
    (base : Loc → Option RmRecord)
    (h : Hist)
    (x : Loc) :
    Timeline :=
  ⟨fun ts => h.valueAt base ts x, h.StampedAt x⟩

structure RowOk
    (base : Loc → Option RmRecord)
    (floor : Int)
    (e : Engine)
    (h : Hist)
    (x : Loc) :
    Prop where
  owned : ∀ entry t, e.mvccVersions x = some entry → entry.writerTxn = some t →
        Owned floor e.lastCommitTs (timeline base h x) t entry
  owner : ∀ t, e.Owns t x → e.Running t ∧ x ∈ (e.txn t).mvccWriteKeys ∧
        x ∈ (e.txn t).writeSet.map WriteRecord.loc
  settled : (∀ t, ¬ e.Owns t x) → Settled floor e.lastCommitTs (timeline base h x)
        (e.pre x) (e.mvccVersions x)
  live : ∀ t, e.PlainOwns t x → (∀ u, ¬ e.Owns u x) ∧ ∀ entry, e.mvccVersions x = some entry →
          entry.isDeleted = false

/- The writes of other live transactions are older commits. -/
def Supersedes
    (e : Engine)
    (h : Hist)
    (newer older : VersionHistory.Write TxnId Loc
      (Option RmRecord)) :
    Prop :=
  newer.loc = older.loc → newer.txn ≠ older.txn →
    e.state newer.txn ≠ .aborted →
    e.state older.txn ≠ .aborted →
      ∃ c, h.stamps older.txn = some c ∧
        (e.isMvccTxn newer.txn = true →
          c ≤ e.startTs newer.txn) ∧
        ∀ d, h.stamps newer.txn = some d → c ≤ d

structure HistOk (e : Engine) (h : Hist) : Prop where
  began : ∀ w ∈ h.writes, w.txn < e.nextTxnId
  state : ∀ w ∈ h.writes, e.state w.txn ≠ .default
  stamped : ∀ t c, h.stamps t = some c → e.state t = .committed ∧ c ≤ e.lastCommitTs
  committed : ∀ t, e.state t = .committed → ∃ c, h.stamps t = some c ∧
        (e.isMvccTxn t = true → c = (e.txn t).commitTs)
  owns : ∀ w ∈ h.writes, e.Running w.txn → e.Owns w.txn w.loc ∨ e.PlainOwns w.txn w.loc
  tops : ∀ t x, e.state t = .growing → e.Owns t x ∨ e.PlainOwns t x →
        h.top x = some ⟨t, x, e.newest x⟩
  order : h.writes.Pairwise (Supersedes e h)

/- The state agrees with the history from the floor on. Only a
  transaction whose insert was just rejected can own a row
  without a record or, if it locks its rows, without a lock. -/
structure Consistent
    (base : Loc → Option RmRecord)
    (floor : Int)
    (rejected : Option TxnId)
    (e : Engine)
    (h : Hist) :
    Prop where
  floorStart : 0 ≤ floor
  floorLast : floor ≤ e.lastCommitTs
  ids : ∀ t : TxnId, t < 0 ∨ e.nextTxnId ≤ t → e.txn t = MvccTxn.unused
  starts : ∀ t, e.Running t → e.isMvccTxn t = true →
      floor ≤ e.startTs t ∧ e.startTs t ≤ e.lastCommitTs
  tableKeys : e.TableKeysOk
  locks : ∀ x t, e.locks x = some t → e.Running t ∧ e.isMvccTxn t = false
  sets : ∀ t, e.Running t → e.SetOk t
  alone : ∀ t u, e.Plain t → e.Running u → e.isMvccTxn u = false
  present : ∀ x t, e.Owns t x → rejected ≠ some t → e.db.record x ≠ none ∧
        (e.isMvccTxn t = false → e.locks x = some t)
  rows : ∀ x, RowOk base floor e h x
  hist : HistOk e h

namespace Engine

section Undone

variable {t u : TxnId} {x : Loc} {ws : List WriteRecord}
variable {owner owner' : Option TxnId} {v : Option RmRecord}

/- Writes on which the rollback does not act. -/
theorem undone_of_idle
    (hIdle : ∀ w ∈ ws, w.loc = x → ¬ actsOn t owner w) :
    undone t x ws owner v = v := by
  induction ws with
  | nil => rfl
  | cons w rest ih =>
    rw [undone_cons, if_neg]
    · exact ih (fun w' hW => hIdle w' (List.mem_cons_of_mem w hW))
    · rintro ⟨hLoc, hActs⟩
      exact hIdle w List.mem_cons_self hLoc hActs

theorem undone_of_not_mem (hOther : x ∉ ws.map WriteRecord.loc) :
    undone t x ws owner v = v := by
  apply undone_of_idle
  intro w hW hLoc
  exact absurd (List.mem_map.mpr ⟨w, hW, hLoc⟩) hOther

/- Only the own registration of an insert matters. -/
theorem undone_owner_congr (hOwner : owner ≠ some t)
    (hOwner' : owner' ≠ some t) :
    undone t x ws owner v = undone t x ws owner' v := by
  induction ws generalizing v with
  | nil => rfl
  | cons w rest ih =>
    rw [undone_cons, undone_cons]
    cases w with
    | insertTuple y =>
      simp only [actsOn, hOwner, hOwner', and_false, if_false]
      exact ih
    | deleteTuple y rec | updateTuple y rec =>
      simp only [actsOn, and_true, ownerAfter]
      split
      · exact ih
      · exact ih

end Undone

section Facts

variable {e : Engine} {t u : TxnId} {x : Loc}

theorem hasVersions_eq_false : e.hasVersions t = false ↔
      e.isMvccTxn t = false ∧ (e.txn t).mvccWriteKeys = [] := by
  unfold hasVersions
  simp

theorem hasVersions_of_mvcc (hMvcc : e.isMvccTxn t = true) :
    e.hasVersions t = true := by
  simp [hasVersions, hMvcc]

theorem shouldVersionWrites_eq_false : e.shouldVersionWrites t = false ↔
      e.isMvccTxn t = false ∧ e.activeMvccTxnCount ≤ 0 := by
  unfold shouldVersionWrites
  simp

theorem Owns.unique (hT : e.Owns t x) (hU : e.Owns u x) : t = u := by
  rcases hT with ⟨entry, hEntry, hWriter⟩
  rcases hU with ⟨entry', hEntry', hWriter'⟩
  rw [hEntry] at hEntry'
  obtain rfl := some.inj hEntry'
  exact some.inj (hWriter.symm.trans hWriter')

theorem PlainOwns.unique (hT : e.PlainOwns t x)
    (hU : e.PlainOwns u x) : t = u := some.inj (hT.lock.symm.trans hU.lock)

theorem pre_of_free (hFree : e.locks x = none) : e.pre x = e.db.record x := by
  unfold pre
  rw [hFree]

theorem pre_of_lock (hLock : e.locks x = some t) :
    e.pre x = undone t x (e.txn t).writeSet (e.physicalInsertOwners x)
      (e.db.record x) := by
  unfold pre
  rw [hLock]

theorem not_running_of_unused (hTxn : e.txn t = MvccTxn.unused) :
    ¬ e.Running t := by
  unfold Running state
  rw [hTxn]
  simp [MvccTxn.unused]

end Facts

section SameTxn

/- A transaction that keeps its record. -/
variable {e e' : Engine} {u : TxnId} {x : Loc} (hTxn : e'.txn u = e.txn u)

include hTxn

theorem state_congr : e'.state u = e.state u := congrArg MvccTxn.state hTxn

theorem startTs_congr :
    e'.startTs u = e.startTs u := congrArg MvccTxn.startTs hTxn

theorem isMvccTxn_congr : e'.isMvccTxn u = e.isMvccTxn u :=
  congrArg (fun txn => txn.isolationLevel.mvcc) hTxn

theorem hasVersions_congr : e'.hasVersions u = e.hasVersions u := by
  unfold hasVersions
  rw [isMvccTxn_congr hTxn, hTxn]

theorem running_congr : e'.Running u ↔ e.Running u := by
  unfold Running
  rw [state_congr hTxn]

/- What it has written without versions. -/
theorem Plain.congr (hPlain : e.Plain u) : e'.Plain u := by
  refine ⟨(running_congr hTxn).mpr hPlain.running, ?_, ?_, ?_⟩
  · rw [isMvccTxn_congr hTxn]
    exact hPlain.level
  · rw [hTxn]
    exact hPlain.keys
  · rw [hTxn]
    exact hPlain.writes

theorem plain_congr : e'.Plain u ↔ e.Plain u :=
  ⟨Plain.congr hTxn.symm, Plain.congr hTxn⟩

theorem PlainOwns.congr (hLock : e.locks x = some u → e'.locks x = some u)
    (hOwns : e.PlainOwns u x) : e'.PlainOwns u x :=
  ⟨hOwns.plain.congr hTxn, hLock hOwns.lock, hTxn.symm ▸ hOwns.wrote⟩

theorem plainOwns_congr (hLock : e'.locks x = some u ↔ e.locks x = some u) :
    e'.PlainOwns u x ↔ e.PlainOwns u x :=
  ⟨PlainOwns.congr hTxn.symm hLock.mp, PlainOwns.congr hTxn hLock.mpr⟩

/- It is enough to look at its rows, its locks and its inserts. -/
theorem SetOk.congr (hOwns : ∀ y, e.Owns u y → e'.Owns u y)
    (hLocks : ∀ y, e.locks y = some u → e'.locks y = some u)
    (hOwners : ∀ y, e'.physicalInsertOwners y = some u →
      e.physicalInsertOwners y = some u)
    (hSet : e.SetOk u) : e'.SetOk u := by
  constructor
  · intro y hY
    rw [hTxn] at hY
    exact hOwns y (hSet.keys y hY)
  · intro hV w hW
    rw [hasVersions_congr hTxn] at hV
    rw [hTxn] at hW
    exact hOwns w.loc (hSet.versioned hV w hW)
  · intro hV w hW
    rw [hasVersions_congr hTxn] at hV
    rw [hTxn] at hW
    rw [state_congr hTxn]
    rcases hSet.plain hV w hW with hMine | ⟨hState, hIdle⟩
    · exact Or.inl (hLocks w.loc hMine)
    · exact Or.inr ⟨hState, fun hActs => hIdle (actsOn_mono (hOwners w.loc) hActs)⟩

end SameTxn

end Engine

------------
-- Reads
------------

namespace Consistent

variable {base : Loc → Option RmRecord} {floor : Int}
variable {rejected : Option TxnId} {e : Engine} {h : Hist}
variable {t u : TxnId} {x : Loc}

theorem getVisibleRecord_none
    (hEntry : e.mvccVersions x = none) :
    e.getVisibleRecord t x = e.db.record x := by
  cases hRecord : e.db.record x with
  | none => simp [getVisibleRecord, hRecord]
  | some physical => simp [getVisibleRecord, hRecord, hEntry]

variable (hInv : Consistent base floor rejected e h)
include hInv

/- The lock's holder has nothing to take back. -/
theorem undone_holder
    (hLock : e.locks x = some t)
    (hPlain : ¬ e.PlainOwns t x)
    (hOwns : ¬ e.Owns t x)
    (owner : Option TxnId)
    (v : Option RmRecord) :
    undone t x (e.txn t).writeSet owner v = v := by
  rcases hInv.locks x t hLock with ⟨hRunning, hLevel⟩
  apply undone_of_not_mem
  intro hMem
  rcases List.mem_map.mp hMem with ⟨w, hW, rfl⟩
  cases hVersions : e.hasVersions t with
  | true => exact hOwns ((hInv.sets t hRunning).versioned hVersions w hW)
  | false =>
    have hKeys := (hasVersions_eq_false.mp hVersions).2
    have hWrites : (e.txn t).writeSet ≠ [] := List.ne_nil_of_mem hW
    exact hPlain ⟨⟨hRunning, hLevel, hKeys, hWrites⟩, hLock, hMem⟩

theorem pre_eq (hPlain : ∀ t, ¬ e.PlainOwns t x)
    (hOwns : ∀ t, ¬ e.Owns t x) : e.pre x = e.db.record x := by
  unfold pre
  cases hLock : e.locks x with
  | none => rfl
  | some t => exact hInv.undone_holder hLock (hPlain t) (hOwns t) _ _

/- A transaction without the lock has nothing to take back. -/
theorem undone_unlocked
    (hRunning : e.Running t)
    (hLock : e.locks x ≠ some t)
    (hOwns : ¬ e.Owns t x)
    (v : Option RmRecord) :
    undone t x (e.txn t).writeSet (e.physicalInsertOwners x) v = v := by
  apply undone_of_idle
  rintro w hW rfl
  cases hVersions : e.hasVersions t with
  | true => exact absurd ((hInv.sets t hRunning).versioned hVersions w hW) hOwns
  | false =>
    rcases (hInv.sets t hRunning).plain hVersions w hW with
      hMine | ⟨-, hIdle⟩
    · exact absurd hMine hLock
    · exact hIdle

/- A row that the transaction has locked or could lock. -/
theorem pre_of_lockable
    (hRunning : e.Running t)
    (hLock : e.locks x = none ∨ e.locks x = some t)
    (hOwns : ¬ e.Owns t x) :
    e.pre x = undone t x (e.txn t).writeSet (e.physicalInsertOwners x)
      (e.db.record x) := by
  rcases hLock with hFree | hMine
  · rw [pre_of_free hFree, hInv.undone_unlocked hRunning (by rw [hFree]; simp) hOwns]
  · exact pre_of_lock hMine

/- The entries of rows show that there are versions. -/
theorem hasMvccState_of_entry {entry : MvccEntry}
    (hEntry : e.mvccVersions x = some entry) : e.hasMvccState = true := by
  have hKey : x ∈ e.mvccTableKeys := by
    rw [hInv.tableKeys x, hEntry]
    simp
  have hNonempty : e.mvccTableKeys ≠ [] := List.ne_nil_of_mem hKey
  simp [hasMvccState, hNonempty]

theorem getVisibleRecord_entry
    {entry : MvccEntry}
    {physical : RmRecord}
    (hEntry : e.mvccVersions x = some entry)
    (hRecord : e.db.record x = some physical) :
    e.getVisibleRecord t x = entry.visibleRecord physical (e.isMvccTxn t) t
      (e.startTs t) := by
  have hState := hInv.hasMvccState_of_entry hEntry
  simp [getVisibleRecord, hRecord, hState, hEntry]

/- An own write is the newest version of its row. -/
theorem own_of_owner (hGrowing : e.state t = .growing)
    (hOwner : e.Owns t x ∨ e.PlainOwns t x) :
    h.own t x = some ⟨t, x, e.newest x⟩ :=
  VersionHistory.History.own_of_top (hInv.hist.tops t x hGrowing hOwner)

/- Without ownership there is no own write. -/
theorem own_eq_none
    (hRunning : e.Running t)
    (hOwns : ¬ e.Owns t x)
    (hPlain : ¬ e.PlainOwns t x) :
    h.own t x = none := by
  apply VersionHistory.History.latest_eq_none.mpr
  intro w hW hLoc
  by_cases hTxn : w.txn = t
  · subst hTxn hLoc
    rcases hInv.hist.owns w hW hRunning with hO | hP
    · exact absurd hO hOwns
    · exact absurd hP hPlain
  · simp [hTxn]

/- What a transaction should see of a row. -/
def expected
    (base : Loc → Option RmRecord)
    (e : Engine)
    (h : Hist)
    (t : TxnId)
    (x : Loc) :
    Option RmRecord :=
  match h.own t x with
  | some w => w.value
  | none =>
    h.valueAt base
      (readTs (e.isMvccTxn t) (e.startTs t) e.lastCommitTs) x

omit hInv

/- A running transaction sees its own last write, or else what
  was committed at its read timestamp. A READ COMMITTED
  transaction has to get past the lock of the row. -/
theorem visible
    (hInv : Consistent base floor none e h)
    (hGrowing : e.state t = .growing)
    (hReadable : e.isMvccTxn t = false → e.locks x = none ∨
      e.locks x = some t) :
    e.getVisibleRecord t x = expected base e h t x := by
  have hRunning : e.Running t := Or.inl hGrowing
  have hStart : e.isMvccTxn t = true → floor ≤ e.startTs t :=
    fun hMvcc => (hInv.starts t hRunning hMvcc).1
  by_cases hOwner : ∃ u, e.Owns u x
  · rcases hOwner with ⟨u, entry, hEntry, hWriter⟩
    have hOwns : e.Owns u x := ⟨entry, hEntry, hWriter⟩
    have hOwned := (hInv.rows x).owned entry u hEntry hWriter
    rcases ne_none_iff_exists'.mp (hInv.present x u hOwns (by simp)).1 with
      ⟨physical, hRecord⟩
    rw [hInv.getVisibleRecord_entry hEntry hRecord]
    by_cases hU : t = u
    · subst hU
      rw [hOwned.visible_self]
      unfold expected
      rw [hInv.own_of_owner hGrowing (Or.inl hOwns)]
      simp only [newest, hEntry, any_some, hRecord]
    · have hNone : h.own t x = none := by
        apply hInv.own_eq_none hRunning
        · exact fun hT => hU (hT.unique hOwns)
        · exact fun hT => ((hInv.rows x).live t hT).1 u hOwns
      rw [hOwned.visible hInv.floorLast hStart hU physical]
      unfold expected
      rw [hNone]
      rfl
  · have hNoOwner : ∀ u, ¬ e.Owns u x := fun u hU => hOwner ⟨u, hU⟩
    have hSettled := (hInv.rows x).settled hNoOwner
    by_cases hPlain : e.PlainOwns t x
    · -- the heap has the own write
      have hLive := ((hInv.rows x).live t hPlain).2
      unfold expected
      rw [hInv.own_of_owner hGrowing (Or.inr hPlain)]
      cases hEntry : e.mvccVersions x with
      | none =>
        rw [getVisibleRecord_none hEntry]
        simp [newest, hEntry]
      | some entry =>
        have hOk := hSettled.entryOk entry hEntry
        have hNot := hLive entry hEntry
        cases hRecord : e.db.record x with
        | none => simp [getVisibleRecord, hRecord, newest]
        | some physical =>
          rw [hInv.getVisibleRecord_entry hEntry hRecord]
          simp [EntryState.visibleRecord, hPlain.plain.level, hOk.writer,
            EntryState.head, hOk.present, hNot, newest, hEntry, hRecord]
    · have hNoPlain : ∀ u, ¬ e.PlainOwns u x := by
        intro u hU
        cases hMvcc : e.isMvccTxn t with
        | true =>
          have hAlone := hInv.alone u t hU.plain hRunning
          cases hMvcc.symm.trans hAlone
        | false =>
          rcases hReadable hMvcc with hFree | hMine
          · cases hFree.symm.trans hU.lock
          · obtain rfl := some.inj (hMine.symm.trans hU.lock)
            exact hPlain hU
      rw [hInv.pre_eq hNoPlain hNoOwner] at hSettled
      have hNone := hInv.own_eq_none hRunning (hNoOwner t) hPlain
      have hLastStart : floor ≤ readTs (e.isMvccTxn t) (e.startTs t)
            e.lastCommitTs := by
        cases hMvcc : e.isMvccTxn t with
        | true => exact hStart hMvcc
        | false => exact hInv.floorLast
      unfold expected
      rw [hNone]
      cases hEntry : e.mvccVersions x with
      | none =>
        rw [getVisibleRecord_none hEntry]
        have hReads := hSettled.reads _ hLastStart
        rw [hEntry] at hReads
        exact hReads.symm
      | some entry =>
        cases hRecord : e.db.record x with
        | none =>
          have hGone := hSettled.gone hRecord _ hLastStart
          simp only [getVisibleRecord, hRecord]
          exact hGone.symm
        | some physical =>
          rw [hInv.getVisibleRecord_entry hEntry hRecord]
          exact hSettled.visible hInv.floorLast hStart hRecord hEntry

end Consistent

end Rmdb
