import Rmdb.Mvcc.Keys
import Rmdb.Mvcc.Undo

/-
  This file is about the unique indexes under READ COMMITTED
  transactions alone.  Nothing has versions: a change is made
  in the heap at once, under the lock of its row, and an abort
  undoes the changes in reverse order.

  Record locks do not protect keys.  A key that a running
  transaction has given up is free for the others, and the
  abort cannot add it again.  So nobody may take such a key;
  then the indexes are exact in every state.

  Key definitions include:
    * `Engine.OnlyRc`
    * `Engine.PlainKeys`
    * `Engine.PlainSafe`

  Key theorems include:
    * `Engine.PlainKeys.done`
    * `Engine.PlainKeys.reject`
    * `Engine.PlainKeys.abort`
-/

namespace Rmdb

open DataRecord KeyMap Consistent Option

namespace Engine

------------
-- The Invariant
------------

/- There are only READ COMMITTED transactions, no versions. -/
structure OnlyRc (e : Engine) : Prop where
  levels : ∀ t, e.isMvccTxn t = false
  versions : ∀ x, e.mvccVersions x = none
  keys : ∀ t, (e.txn t).mvccWriteKeys = []
  active : e.activeMvccTxnCount = 0

/- The writes of a transaction that its abort undoes. -/
def plainItems
    (e : Engine)
    (t : TxnId)
    (tab : TabName)
    (i : Nat) :
    List (Rid × Option IndexKey) :=
  undoItems t e.physicalInsertOwners tab ((e.db tab).cols i)
    (e.txn t).writeSet

/- The indexes are exact, every running transaction can undo
  its writes, and no two of them remember one key. -/
structure PlainKeys (e : Engine) : Prop where
  slots : ∀ tab, (e.db tab).InSlots
  exact : ∀ tab i, KeyMap.Exact ((e.db tab).entry i) (e.lostKey tab i)
  placed : ∀ t w, e.Running t → w ∈ (e.txn t).writeSet → (e.db w.loc.tab).HasSlot w.loc.rid
  locked : ∀ t w, e.Running t → w ∈ (e.txn t).writeSet → actsOn t (e.physicalInsertOwners w.loc) w →
        e.locks w.loc = some t
  once : ∀ t, e.Running t → InsertsOnce (e.txn t).writeSet
  undo : ∀ t tab i, e.Running t → KeyMap.Undoable (e.lostKey tab i) (e.plainItems t tab i)
  apart : ∀ t u tab i r q k, e.Running t → e.Running u → t ≠ u →
      (r, some k) ∈ e.plainItems t tab i → (q, some k) ∉ e.plainItems u tab i

/- What the locks do not ensure. A transaction does not insert
  at a place that another one has locked or where it has
  inserted before, and it does not take a key that a running
  transaction has given up. -/
structure PlainSafe (t : TxnId) (d : DataRecord) (e : Engine) : Prop where
  slot : d.inserted = true → e.locks d.loc = none ∨ e.locks d.loc = some t
  fresh : d.inserted = true → .insertTuple d.loc ∉ (e.txn t).writeSet
  keys : ∀ u w i k, e.Running u → u ≠ t → w ∈ (e.txn u).writeSet → w.loc.tab = d.tab →
      keyIn ((e.db d.tab).cols i) (beforeWrite w) = some k →
        keyIn ((e.db d.tab).cols i) d.after ≠ some k

variable {w : WriteRecord}

section Facts

variable {e e' : Engine} {t u : TxnId} {d : DataRecord}
variable {tab : TabName} {x : Loc} {i : Nat}

theorem OnlyRc.unversioned
    (hOnly : e.OnlyRc)
    (t : TxnId) :
    e.shouldVersionWrites t = false := by
  simp [shouldVersionWrites, hOnly.levels t, hOnly.active]

/- The record is as the writer saw it. -/
theorem OnlyRc.seen
    (hOnly : e.OnlyRc)
    (hCan : CanChange t d e) :
    e.db.record d.loc = d.before := by
  cases hInserted : d.inserted with
  | true => rw [(hCan.place hInserted).1, before_of_inserted hInserted]
  | false =>
    have hRow := hCan.row
    rw [hInserted, if_neg (by simp), getVisibleRecord_none
        (hOnly.versions d.loc)] at hRow
    exact hRow

theorem PlainKeys.hasSlot
    (hKeys : e.PlainKeys)
    (hOnly : e.OnlyRc)
    (hCan : CanChange t d e) :
    (e.db d.tab).HasSlot d.rid := by
  cases hInserted : d.inserted with
  | true => exact (hCan.place hInserted).2
  | false =>
    apply hKeys.slots d.tab
    change e.db.record d.loc ≠ none
    rw [hOnly.seen hCan, before_of_not_inserted hInserted]
    simp

/- The writer has got past the lock of its row. -/
theorem lock_of_safe
    (hOnly : e.OnlyRc)
    (hCan : CanChange t d e)
    (hSafe : PlainSafe t d e) :
    e.locks d.loc = none ∨ e.locks d.loc = some t := by
  cases hInserted : d.inserted with
  | true => exact hSafe.slot hInserted
  | false => exact hCan.lock (hOnly.levels t) hInserted

/- Nobody else has to undo anything at the row. -/
theorem PlainKeys.not_item
    (hKeys : e.PlainKeys)
    (hLock : e.locks x = none ∨ e.locks x = some t)
    (hRunning : e.Running u)
    (hU : u ≠ t)
    (old : Option IndexKey) :
    (x.rid, old) ∉ e.plainItems u x.tab i := by
  intro hMem
  rcases mem_undoItems.mp hMem with ⟨w, hW, hLoc, hActs, -⟩
  have hMine := hKeys.locked u w hRunning hW hActs
  rw [hLoc] at hMine
  rcases hLock with hFree | hOther
  · cases hFree.symm.trans hMine
  · exact hU (some.inj (hMine.symm.trans hOther))

/- A step of others leaves the items of a transaction. -/
theorem plainItems_congr (hWrites : (e'.txn u).writeSet = (e.txn u).writeSet)
    (hCols : (e'.db tab).cols i = (e.db tab).cols i)
    (hOwners : ∀ w ∈ (e.txn u).writeSet,
      (actsOn u (e'.physicalInsertOwners w.loc) w ↔
          actsOn u (e.physicalInsertOwners w.loc) w)) :
    e'.plainItems u tab i = e.plainItems u tab i := by
  unfold plainItems
  rw [hWrites, hCols]
  exact undoItems_congr (fun w hW _ => hOwners w hW)

end Facts

------------
-- Steps That Leave The Records
------------

/- A transaction has the same to undo as before. -/
structure SameUndo (u : TxnId) (e e' : Engine) : Prop where
  running : e.Running u
  items : ∀ tab i, e'.plainItems u tab i = e.plainItems u tab i
  placed : ∀ w ∈ (e'.txn u).writeSet, (e.db w.loc.tab).HasSlot w.loc.rid
  locked : ∀ w ∈ (e'.txn u).writeSet, actsOn u (e'.physicalInsertOwners w.loc) w →
        e'.locks w.loc = some u
  once : InsertsOnce (e'.txn u).writeSet

section Same

variable {e e' : Engine} {t u : TxnId}

/- The transaction takes no part in the step. -/
theorem SameUndo.of_txn
    (hKeys : e.PlainKeys)
    (hRunning : e.Running u)
    (hTxn : (e'.txn u).writeSet = (e.txn u).writeSet)
    (hCols : ∀ tab i, (e'.db tab).cols i = (e.db tab).cols i)
    (hOwners : ∀ w ∈ (e.txn u).writeSet,
      (actsOn u (e'.physicalInsertOwners w.loc) w ↔
          actsOn u (e.physicalInsertOwners w.loc) w))
    (hLocks : ∀ y, e.locks y = some u → e'.locks y = some u) :
    SameUndo u e e' := by
  refine ⟨hRunning, ?_, ?_, ?_, ?_⟩
  · intro tab i
    exact plainItems_congr hTxn (hCols tab i) hOwners
  · rw [hTxn]
    exact fun w hW => hKeys.placed u w hRunning hW
  · rw [hTxn]
    intro w hW hActs
    exact hLocks _ (hKeys.locked u w hRunning hW ((hOwners w hW).mp hActs))
  · rw [hTxn]
    exact hKeys.once u hRunning

/- The indexes are exact again, and what is left to undo suits
  them. -/
theorem PlainKeys.of_undo (hKeys : e.PlainKeys)
    (hSlots : ∀ tab, (e'.db tab).numRecordsPerPage =
      (e.db tab).numRecordsPerPage)
    (hThere : ∀ tab rid, (e'.db tab).record rid ≠ none → (e.db tab).HasSlot rid)
    (hExact : ∀ tab i, Exact ((e'.db tab).entry i) (e'.lostKey tab i))
    (hUndo : ∀ u, e'.Running u → (e'.txn u).writeSet = [] ∨ SameUndo u e e' ∧
        ∀ tab i, Undoable (e'.lostKey tab i) (e.plainItems u tab i)) :
    e'.PlainKeys := by
  have hSlot : ∀ tab rid, (e'.db tab).HasSlot rid ↔ (e.db tab).HasSlot rid := by
    intro tab rid
    unfold Table.HasSlot
    rw [hSlots]
  have hItems : ∀ {u tab i r k}, e'.Running u → (r, some k) ∈ e'.plainItems u tab i →
        e.Running u ∧ (r, some k) ∈ e.plainItems u tab i := by
    intro u tab i r k hRunning hMem
    rcases hUndo u hRunning with hNone | ⟨hSame, -⟩
    · unfold plainItems at hMem
      rw [hNone] at hMem
      cases hMem
    · rw [hSame.items] at hMem
      exact ⟨hSame.running, hMem⟩
  refine ⟨fun tab rid hSome => (hSlot tab rid).mpr (hThere tab rid hSome),
    hExact, ?_, ?_, ?_, ?_, ?_⟩
  · intro u w hRunning hW
    rcases hUndo u hRunning with hNone | ⟨hSame, -⟩
    · rw [hNone] at hW
      cases hW
    · rw [hSlot]
      exact hSame.placed w hW
  · intro u w hRunning hW
    rcases hUndo u hRunning with hNone | ⟨hSame, -⟩
    · rw [hNone] at hW
      cases hW
    · exact hSame.locked w hW
  · intro u hRunning
    rcases hUndo u hRunning with hNone | ⟨hSame, -⟩
    · rw [hNone]
      exact List.Pairwise.nil
    · exact hSame.once
  · intro u tab i hRunning
    rcases hUndo u hRunning with hNone | ⟨hSame, hFits⟩
    · unfold plainItems
      rw [hNone]
      trivial
    · rw [hSame.items]
      exact hFits tab i
  · intro t u tab i r q k hT hU hTU hR hQ
    rcases hItems hT hR with ⟨hT', hR'⟩
    rcases hItems hU hQ with ⟨hU', hQ'⟩
    exact hKeys.apart t u tab i r q k hT' hU' hTU hR' hQ'

/- The records stay, and the indexes are exact again. -/
theorem PlainKeys.keep
    (hKeys : e.PlainKeys)
    (hRecord : ∀ x, e'.db.record x = e.db.record x)
    (hSlots : ∀ tab, (e'.db tab).numRecordsPerPage =
      (e.db tab).numRecordsPerPage)
    (hCols : ∀ tab i, (e'.db tab).cols i = (e.db tab).cols i)
    (hExact : ∀ tab i, Exact ((e'.db tab).entry i) (e.lostKey tab i))
    (hUndo : ∀ u, e'.Running u →
        (e'.txn u).writeSet = [] ∨ SameUndo u e e') :
    e'.PlainKeys := by
  have hLost : ∀ tab i, e'.lostKey tab i = e.lostKey tab i := by
    intro tab i
    funext rid
    unfold lostKey
    rw [hCols, hRecord]
  refine hKeys.of_undo hSlots ?_ (fun tab i => hLost tab i ▸ hExact tab i) ?_
  · intro tab rid hThere
    exact hKeys.slots tab rid (fun hNone => hThere ((hRecord ⟨tab, rid⟩).trans hNone))
  · intro u hU
    refine (hUndo u hU).imp_right fun hSame => ⟨hSame, fun tab i => ?_⟩
    rw [hLost]
    exact hKeys.undo u tab i hSame.running

end Same

section Steps

variable {e e' : Engine} {t u : TxnId} {x : Loc}
variable {d : DataRecord}

theorem locks_of_lockStep
    (hLocks : LockStep t x e e')
    {y : Loc}
    (hLock : e.locks y = some u) :
    e'.locks y = some u := by
  rcases hLocks y with hSame | ⟨-, -, hNew, hFree | hMine⟩
  · rw [hSame]
    exact hLock
  · cases hFree.symm.trans hLock
  · rw [hNew, ← hMine, hLock]

variable (hKeys : e.PlainKeys)
include hKeys

theorem PlainKeys.quiet (hQuiet : Quiet t x e e') : e'.PlainKeys := by
  have hActs := hQuiet.acts
  refine hKeys.keep (fun y => by rw [hQuiet.edits.record_same])
    (fun tab => (hQuiet.sameTable tab).slots) (fun tab => (hQuiet.sameTable tab).cols) ?_ ?_
  · intro tab i
    rw [(hQuiet.sameTable tab).entry]
    exact hKeys.exact tab i
  · intro u hU
    refine Or.inr (.of_txn hKeys ((hActs.running_iff u).mp hU) ?_
      (fun tab => (hQuiet.sameTable tab).cols) ?_ (fun y => locks_of_lockStep hQuiet.locks))
    · by_cases hT : u = t
      · rw [hT, hQuiet.writeSet]
      · rw [hActs.txn hT]
    · intro w _
      rw [hQuiet.owners]

theorem PlainKeys.begins (level : IsolationLevel) :
    (e.begin level).PlainKeys := by
  have hBegins := begins_begin e level
  refine hKeys.keep (fun y => by rw [hBegins.db]) (fun tab => by rw [hBegins.db])
    (fun tab i => by rw [hBegins.db]) ?_ ?_
  · intro tab i
    rw [hBegins.db]
    exact hKeys.exact tab i
  · intro u hU
    by_cases hNew : u = e.nextTxnId
    · subst hNew
      exact Or.inl hBegins.writeSet
    · have hTxn := hBegins.others u hNew
      refine Or.inr (.of_txn hKeys ?_ (by rw [hTxn]) (fun tab i => by rw [hBegins.db]) ?_ ?_)
      · unfold Running Engine.state at hU ⊢
        rw [hTxn] at hU
        exact hU
      · intro w _
        rw [hBegins.owners]
      · intro y hLock
        rw [hBegins.locks]
        exact hLock

theorem PlainKeys.commits (hCommits : Commits t e e') : e'.PlainKeys := by
  have hLeaves := leaves_of_commits hCommits
  refine hKeys.keep (fun y => by rw [hCommits.db]) (fun tab => by rw [hCommits.db])
    (fun tab i => by rw [hCommits.db]) ?_ ?_
  · intro tab i
    rw [hCommits.db]
    exact hKeys.exact tab i
  · intro u hU
    have hNe := hLeaves.ne_of_running hU
    refine Or.inr (.of_txn hKeys ((hLeaves.running_iff hNe).mp hU) (by rw [hLeaves.others u hNe])
      (fun tab i => by rw [hCommits.db]) ?_ ?_)
    · intro w _
      refine actsOn_congr ?_
      rcases hCommits.owners w.loc with hSame | ⟨hMine, hNone⟩
      · exact Or.inl hSame
      · refine Or.inr ⟨?_, by rw [hNone]; simp⟩
        rw [hMine]
        exact fun hEq => hNe (some.inj hEq).symm
    · intro y hLock
      rw [hCommits.locks, if_neg]
      · exact hLock
      · rw [hLock]
        exact fun hEq => hNe (some.inj hEq)

theorem PlainKeys.collect (hOnly : e.OnlyRc) :
    e.garbageCollection.PlainKeys := by
  have hRecord : ∀ y, e.garbageCollection.db.record y = e.db.record y := by
    intro y
    rw [e.record_garbageCollection, if_neg]
    simp [deadRow, hOnly.versions]
  refine hKeys.keep hRecord (fun _ => rfl) (fun _ _ => rfl) hKeys.exact ?_
  intro u hU
  exact Or.inr (.of_txn hKeys hU rfl (fun _ _ => rfl) (fun _ _ => Iff.rfl) (fun _ hLock => hLock))

/- The owner of a place that a transaction has not locked. -/
theorem PlainKeys.owner_ne
    (hLock : e.locks x = none ∨ e.locks x = some t)
    (hRunning : e.Running u)
    (hU : u ≠ t)
    (hW : w ∈ (e.txn u).writeSet)
    (hLoc : w = .insertTuple x) :
    e.physicalInsertOwners x ≠ some u := by
  intro hOwner
  subst hLoc
  have hMine := hKeys.locked u _ hRunning hW hOwner
  rcases hLock with hFree | hOther
  · cases hFree.symm.trans hMine
  · exact hU (some.inj (hMine.symm.trans hOther))

/- The inserts of all transactions keep their owners. -/
theorem PlainKeys.owners_change
    {owner : Option TxnId}
    (hOnly : e.OnlyRc)
    (hCan : CanChange t d e)
    (hSafe : PlainSafe t d e)
    (hOwner : owner = none ∨ owner = some t)
    (hOwners : e'.physicalInsertOwners = if d.inserted = true then
        Function.update e.physicalInsertOwners d.loc owner else
          e.physicalInsertOwners)
    (hRunning : e.Running u)
    (hW : w ∈ (e.txn u).writeSet) :
    actsOn u (e'.physicalInsertOwners w.loc) w ↔
      actsOn u (e.physicalInsertOwners w.loc) w := by
  rw [hOwners]
  split
  · rename_i hInserted
    by_cases hHere : w = .insertTuple d.loc
    · have hNe : u ≠ t := by
        rintro rfl
        exact hSafe.fresh hInserted (hHere ▸ hW)
      have hNot := hKeys.owner_ne (lock_of_safe hOnly hCan hSafe) hRunning hNe hW hHere
      subst hHere
      refine actsOn_congr (Or.inr ⟨hNot, ?_⟩)
      rcases hOwner with rfl | rfl <;> simp [WriteRecord.loc, Ne.symm hNe]
    · exact actsOn_update hHere
  · exact Iff.rfl

/- A key or a lock rejects the change. -/
theorem PlainKeys.reject
    (hOnly : e.OnlyRc)
    (hCan : CanChange t d e)
    (hSafe : PlainSafe t d e)
    (hRejected : Rejected t d e e') :
    e'.PlainKeys := by
  have hActs := rejected_acts hCan hRejected
  have hSlot := hKeys.hasSlot hOnly hCan
  have hSeen := hOnly.seen hCan
  have hLock := lock_of_safe hOnly hCan hSafe
  have hValue : e.physicalRejected d = e.db.record d.loc := by
    rw [hSeen]
    exact if_pos hSlot
  have hCols : ∀ tab i, (e'.db tab).cols i = (e.db tab).cols i := by
    intro tab i
    by_cases hTab : tab = d.tab
    · rw [hTab]
      exact (hRejected.rekeys hSlot).layout i
    · rw [hRejected.edits.others tab hTab]
  have hOwners := fun u hRunning w => hKeys.owners_change (u := u) (w := w) hOnly hCan hSafe
    (Or.inl rfl) hRejected.owners hRunning
  refine hKeys.keep ?_ ?_ hCols ?_ ?_
  · intro y
    by_cases hY : y = d.loc
    · rw [hY, hRejected.edits.record_self, hValue]
    · exact hActs.record y hY
  · intro tab
    by_cases hTab : tab = d.tab
    · rw [hTab]
      exact hRejected.edits.slots
    · rw [hRejected.edits.others tab hTab]
  · intro tab i
    by_cases hTab : tab = d.tab
    · subst hTab
      refine exact_rejected (hKeys.exact d.tab i) ?_ hSlot hRejected
      rw [← hSeen]
      rfl
    · rw [hRejected.edits.others tab hTab]
      exact hKeys.exact tab i
  · intro u hU
    have hRunning := (hActs.running_iff u).mp hU
    refine Or.inr ?_
    have hLocks : ∀ y, e.locks y = some u → e'.locks y = some u :=
      fun y => locks_of_lockStep hRejected.locks
    by_cases hT : u = t
    · subst hT
      have hWrites := hRejected.writeSet
      rw [hOnly.unversioned] at hWrites
      cases hInserted : d.inserted with
      | false =>
        rw [hInserted, if_neg (by simp)] at hWrites
        exact .of_txn hKeys hRunning hWrites hCols (hOwners u hRunning) hLocks
      | true =>
        rw [hInserted, if_pos (Or.inl rfl)] at hWrites
        have hRecord : d.writeRecord = .insertTuple d.loc := by
          cases d with
          | insert y rec => rfl
          | delete y rec | update y rec newRec => cases hInserted
        have hNone : ¬ actsOn u (e'.physicalInsertOwners d.writeRecord.loc) d.writeRecord := by
          rw [hRecord, hRejected.owners, if_pos hInserted]
          simp [actsOn, WriteRecord.loc]
        refine ⟨hRunning, ?_, ?_, ?_, ?_⟩
        · intro tab i
          unfold plainItems
          rw [hWrites, undoItems_cons_of_not (fun _ => hNone), hCols]
          exact undoItems_congr (fun w hW _ => hOwners u hRunning w hW)
        · rw [hWrites]
          intro w hW
          rcases List.mem_cons.mp hW with rfl | hOld
          · rw [loc_writeRecord]
            exact hSlot
          · exact hKeys.placed u w hRunning hOld
        · rw [hWrites]
          intro w hW hA
          rcases List.mem_cons.mp hW with rfl | hOld
          · exact absurd hA hNone
          · exact hLocks _ (hKeys.locked u w hRunning hOld ((hOwners u hRunning w hOld).mp hA))
        · rw [hWrites]
          refine List.pairwise_cons.mpr ⟨?_, hKeys.once u hRunning⟩
          intro w hW y hEq hOther
          rw [hRecord] at hEq
          cases hEq
          exact hSafe.fresh hInserted (hOther ▸ hW)
    · refine .of_txn hKeys hRunning (by rw [hActs.txn hT]) hCols (hOwners u hRunning) hLocks

end Steps

------------
-- A Change
------------

section Done

variable {e e' : Engine} {t u : TxnId} {d : DataRecord}

theorem beforeWrite_writeRecord (d : DataRecord) :
    beforeWrite d.writeRecord = d.before := by
  cases d with
  | insert x rec => rfl
  | delete x rec => rfl
  | update x rec newRec => rfl

theorem eq_insert_of_writeRecord {x : Loc}
    (hEq : d.writeRecord = .insertTuple x) : d.inserted = true ∧ x = d.loc := by
  cases d with
  | insert y rec =>
    cases hEq
    exact ⟨rfl, rfl⟩
  | delete y rec => cases hEq
  | update y rec newRec => cases hEq

variable (hKeys : e.PlainKeys) (hOnly : e.OnlyRc) (hCan : CanChange t d e)
  (hSafe : PlainSafe t d e) (hDone : Done t d e e')

include hKeys hOnly hCan hSafe hDone

/- The own write is the latest one to undo. -/
theorem plainItems_done (i : Nat) :
    e'.plainItems t d.tab i =
      (d.rid, e.lostKey d.tab i d.rid) :: e.plainItems t d.tab i := by
  have hRunning : e.Running t := Or.inl hCan.growing
  have hActs : actsOn t (e'.physicalInsertOwners d.writeRecord.loc) d.writeRecord := by
    rw [loc_writeRecord, hDone.owners]
    cases d with
    | insert x rec => simp [inserted, writeRecord, actsOn]
    | delete x rec => trivial
    | update x rec newRec => trivial
  have hLoc := loc_writeRecord d
  unfold plainItems
  rw [hDone.writeSet, undoItems_cons_of_acts (by rw [hLoc]; rfl) hActs, (hDone.shifts i).layout,
    beforeWrite_writeRecord, hLoc, ← hOnly.seen hCan]
  congr 1
  exact undoItems_congr (fun w hW _ =>
    hKeys.owners_change hOnly hCan hSafe (Or.inr rfl) hDone.owners hRunning hW)

theorem plainItems_done_other
    {tab : TabName}
    (hRunning : e.Running u)
    (hOther : u ≠ t ∨ tab ≠ d.tab)
    (i : Nat) :
    e'.plainItems u tab i = e.plainItems u tab i := by
  have hOwners := fun w => hKeys.owners_change (w := w) hOnly hCan hSafe
    (Or.inr rfl) hDone.owners hRunning
  have hCols : (e'.db tab).cols i = (e.db tab).cols i := by
    by_cases hTab : tab = d.tab
    · rw [hTab]
      exact (hDone.shifts i).layout
    · rw [hDone.edits.others tab hTab]
  by_cases hU : u = t
  · subst hU
    have hTab := hOther.resolve_left (by simp)
    unfold plainItems
    rw [hDone.writeSet, undoItems_cons_of_not, hCols]
    · exact undoItems_congr (fun w hW _ => hOwners w hW)
    · intro hEq
      rw [loc_writeRecord] at hEq
      exact absurd hEq.symm hTab
  · exact plainItems_congr (by rw [hDone.keeps.others u hU]) hCols hOwners

/- The change is made. -/
theorem PlainKeys.done : e'.PlainKeys := by
  have hActs := done_acts hCan hDone
  have hSlot := hKeys.hasSlot hOnly hCan
  have hLock := lock_of_safe hOnly hCan hSafe
  have hCols : ∀ i, (e'.db d.tab).cols i = (e.db d.tab).cols i := fun i => (hDone.shifts i).layout
  have hValue : e.physicalAfter t d = d.after := by
    unfold physicalAfter
    rw [hOnly.unversioned, if_neg (by simp)]
  have hBefore : ∀ i, e.lostKey d.tab i d.rid = keyIn ((e.db d.tab).cols i) d.before := by
    intro i
    rw [← hOnly.seen hCan]
    rfl
  have hLost := lostKey_change hDone.edits hCols
  rw [hValue] at hLost
  have hLostOther : ∀ tab, tab ≠ d.tab → ∀ i, e'.lostKey tab i = e.lostKey tab i := by
    intro tab hTab i
    funext rid
    unfold lostKey Db.record
    rw [hDone.edits.others tab hTab]
  have hSlots : ∀ tab rid, (e'.db tab).HasSlot rid ↔ (e.db tab).HasSlot rid := by
    intro tab rid
    unfold Table.HasSlot
    by_cases hTab : tab = d.tab
    · have hSame : (e'.db d.tab).numRecordsPerPage =
          (e.db d.tab).numRecordsPerPage := hDone.edits.slots
      rw [hTab, hSame]
    · rw [hDone.edits.others tab hTab]
  -- the writes of a transaction are old ones or the new one
  have hWrites : ∀ {u w}, w ∈ (e'.txn u).writeSet →
      w ∈ (e.txn u).writeSet ∨ u = t ∧ w = d.writeRecord := by
    intro u w hW
    by_cases hU : u = t
    · subst hU
      rw [hDone.writeSet] at hW
      rcases List.mem_cons.mp hW with hNew | hOld
      · exact Or.inr ⟨rfl, hNew⟩
      · exact Or.inl hOld
    · rw [hActs.txn hU] at hW
      exact Or.inl hW
  constructor
  · intro tab rid hThere
    rw [hSlots]
    by_cases hX : (⟨tab, rid⟩ : Loc) = d.loc
    · have hTab : tab = d.tab := congrArg Loc.tab hX
      have hRid : rid = d.rid := congrArg Loc.rid hX
      rw [hTab, hRid]
      exact hSlot
    · exact hKeys.slots tab rid (fun hNone => hThere ((hActs.record _ hX).trans hNone))
  · intro tab i
    by_cases hTab : tab = d.tab
    · subst hTab
      rw [hLost]
      exact exact_done (hKeys.exact d.tab i) (hBefore i) hDone
    · rw [hLostOther tab hTab, hDone.edits.others tab hTab]
      exact hKeys.exact tab i
  · intro u w hU hW
    rw [hSlots]
    rcases hWrites hW with hOld | ⟨-, rfl⟩
    · exact hKeys.placed u w ((hActs.running_iff u).mp hU) hOld
    · rw [loc_writeRecord]
      exact hSlot
  · intro u w hU hW hA
    have hRunning := (hActs.running_iff u).mp hU
    rcases hWrites hW with hOld | ⟨rfl, rfl⟩
    · exact locks_of_lockStep hDone.locks (hKeys.locked u w hRunning hOld
          ((hKeys.owners_change hOnly hCan hSafe (Or.inr rfl) hDone.owners hRunning hOld).mp hA))
    · rw [loc_writeRecord]
      exact (hDone.locked (hOnly.levels u)).2
  · intro u hU
    have hRunning := (hActs.running_iff u).mp hU
    by_cases hT : u = t
    · subst hT
      rw [hDone.writeSet]
      refine List.pairwise_cons.mpr ⟨?_, hKeys.once u hRunning⟩
      intro w hW x hEq hOther
      rcases eq_insert_of_writeRecord hEq with ⟨hInserted, rfl⟩
      exact hSafe.fresh hInserted (hOther ▸ hW)
    · rw [hActs.txn hT]
      exact hKeys.once u hRunning
  · intro u tab i hU
    have hRunning := (hActs.running_iff u).mp hU
    by_cases hTab : tab = d.tab
    · subst hTab
      rw [hLost]
      by_cases hT : u = t
      · subst hT
        rw [plainItems_done hKeys hOnly hCan hSafe hDone]
        exact Undoable.push (hKeys.exact d.tab i) (hKeys.undo u d.tab i hRunning) _
      · rw [plainItems_done_other hKeys hOnly hCan hSafe hDone hRunning (Or.inl hT)]
        refine (hKeys.undo u d.tab i hRunning).foreign ?_ ?_
        · intro r old hMem
          have hR : r ≠ d.rid := by
            rintro rfl
            exact hKeys.not_item (x := d.loc) hLock hRunning hT old hMem
          exact Function.update_of_ne hR _ _
        · intro y k _ hHas hHad r hMem
          by_cases hY : y = d.rid
          · rw [hY, Function.update_self] at hHas
            rcases mem_undoItems.mp hMem with ⟨w, hW, hLoc, -, hKey⟩
            exact hSafe.keys u w i k hRunning hT hW (by rw [hLoc]) hKey hHas
          · rw [Function.update_of_ne hY] at hHas
            exact hHad hHas
    · rw [hLostOther tab hTab, plainItems_done_other hKeys hOnly
        hCan hSafe hDone hRunning (Or.inr hTab)]
      exact hKeys.undo u tab i hRunning
  · intro v u tab i r q k hV hU hVU hR hQ
    have hV' := (hActs.running_iff v).mp hV
    have hU' := (hActs.running_iff u).mp hU
    -- the key that the row gives up is not remembered elsewhere
    have hNew : ∀ s, s ≠ t → e.Running s → ∀ z, e.lostKey d.tab i d.rid = some k →
          (z, some k) ∉ e.plainItems s d.tab i := by
      intro s hS hRun z hKey hMem
      exact (hKeys.undo s d.tab i hRun).free hMem
        (fun old => hKeys.not_item (x := d.loc) hLock hRun hS old) hKey
    have hOld : ∀ {s z}, e.Running s → (z, some k) ∈ e'.plainItems s tab i →
          (z, some k) ∈ e.plainItems s tab i ∨ s = t ∧ tab = d.tab ∧
              e.lostKey d.tab i d.rid = some k := by
      intro s z hRun hMem
      by_cases hHere : s = t ∧ tab = d.tab
      · rcases hHere with ⟨rfl, rfl⟩
        rw [plainItems_done hKeys hOnly hCan hSafe hDone] at hMem
        rcases List.mem_cons.mp hMem with hFirst | hLater
        · exact Or.inr ⟨rfl, rfl, (congrArg Prod.snd hFirst).symm⟩
        · exact Or.inl hLater
      · rw [plainItems_done_other hKeys hOnly hCan hSafe hDone hRun (not_and_or.mp hHere)] at hMem
        exact Or.inl hMem
    rcases hOld hV' hR with hR' | ⟨rfl, rfl, hKey⟩
    · rcases hOld hU' hQ with hQ' | ⟨rfl, rfl, hKey⟩
      · exact hKeys.apart v u tab i r q k hV' hU' hVU hR' hQ'
      · exact hNew v hVU hV' r hKey hR'
    · rcases hOld hU' hQ with hQ' | ⟨hUT, -, -⟩
      · exact hNew u (Ne.symm hVU) hU' q hKey hQ'
      · exact hVU hUT.symm

end Done

------------
-- An Abort
------------

section Abort

variable {e e' : Engine} {t u : TxnId}

theorem OnlyRc.hasVersions
    (hOnly : e.OnlyRc)
    (t : TxnId) :
    e.hasVersions t = false := by
  simp [Engine.hasVersions, hOnly.levels t, hOnly.keys t]

/- What an abort leaves to the other transactions. -/
theorem SameUndo.of_abort
    {e₁ : Engine}
    (hKeys : e.PlainKeys)
    (hUnwinds : Unwinds t e e₁)
    (hEnds : Ends t e₁ e')
    (hCols : ∀ tab i, (e₁.db tab).cols i = (e.db tab).cols i)
    (hRunning : e.Running u)
    (hNe : u ≠ t) :
    SameUndo u e e' := by
  refine .of_txn hKeys hRunning ?_ ?_ ?_ ?_
  · rw [hEnds.others u hNe, hUnwinds.txn]
  · intro tab i
    rw [hEnds.db]
    exact hCols tab i
  · intro w _
    refine actsOn_congr ?_
    rw [hEnds.owners]
    rcases hUnwinds.owners w.loc with hSame | ⟨hMine, hNone⟩
    · exact Or.inl hSame
    · refine Or.inr ⟨?_, by rw [hNone]; simp⟩
      rw [hMine]
      exact fun hEq => hNe (some.inj hEq).symm
  · intro y hLock
    have hSame : e₁.locks y = some u := by
      rcases hUnwinds.locks y with hSame | ⟨hMine, -⟩
      · exact hSame.trans hLock
      · exact absurd (some.inj (hLock.symm.trans hMine)) hNe
    rw [hEnds.locks, hSame, if_neg]
    exact fun hEq => hNe (some.inj hEq)

/- The keys that an abort brings back suit the others. -/
theorem PlainKeys.undo_abort
    (hKeys : e.PlainKeys)
    (hT : e.Running t)
    (hU : e.Running u)
    (hNe : u ≠ t)
    (tab : TabName)
    (i : Nat) :
    Undoable (undoneKeys (e.lostKey tab i) (e.plainItems t tab i))
      (e.plainItems u tab i) := by
  refine (hKeys.undo u tab i hU).foreign ?_ ?_
  · intro r old hMem
    apply undoneKeys_of_not_mem
    rcases mem_undoItems.mp hMem with ⟨w, hW, hLoc, hActs, -⟩
    have hLock := hKeys.locked u w hU hW hActs
    rw [hLoc] at hLock
    exact hKeys.not_item (x := ⟨tab, r⟩) (Or.inr hLock) hT (Ne.symm hNe)
  · intro y k _ hHas hHad r hMem
    by_cases hY : ∃ old, (y, old) ∈ e.plainItems t tab i
    · have hBack : (y, undoneKeys (e.lostKey tab i) (e.plainItems t tab i) y) ∈
          e.plainItems t tab i := undoneKeys_mem hY
      rw [hHas] at hBack
      exact hKeys.apart t u tab i y r k hT hU (Ne.symm hNe) hBack hMem
    · rw [undoneKeys_of_not_mem (fun old h => hY ⟨old, h⟩)] at hHas
      exact hHad hHas

theorem PlainKeys.abort
    (hKeys : e.PlainKeys)
    (hOnly : e.OnlyRc)
    (hRunning : e.Running t)
    (hRun : e.abort t = some e') :
    e'.PlainKeys := by
  rcases abort_cases hRun with ⟨hVersions, -⟩ | ⟨-, e₁, hBack, hEnds⟩
  · rw [hOnly.hasVersions t] at hVersions
    cases hVersions
  rcases rollbackWrites_spec hBack with ⟨hUnwinds, -, hRecords⟩
  have hLeaves := leaves_of_ends hRunning hUnwinds hEnds
  -- the rollback, table by table
  have hUndone := fun tab => @undo_rollbackWrites _ _ _ tab _ _ (fun _ => True) _
    (hKeys.once t hRunning) (fun _ => rfl) (hKeys.exact tab)
    (fun _ _ _ => rfl) (fun _ _ _ _ => trivial) (fun i => hKeys.undo t tab i hRunning) hBack
  have hCols : ∀ tab i, (e₁.db tab).cols i = (e.db tab).cols i := fun tab => (hUndone tab).1
  have hLost : ∀ tab i, e'.lostKey tab i = undoneKeys (e.lostKey tab i)
        (e.plainItems t tab i) := by
    intro tab i
    funext rid
    have hKey := ((hUndone tab).2 i).2 rid trivial
    unfold lostKey
    rw [hEnds.db, hCols tab i]
    exact hKey.symm
  refine hKeys.of_undo (fun tab => by rw [hEnds.db, hUnwinds.slots]) ?_ ?_ ?_
  · intro tab rid hThere
    by_cases hMem : (⟨tab, rid⟩ : Loc) ∈ (e.txn t).writeSet.map WriteRecord.loc
    · rcases List.mem_map.mp hMem with ⟨w, hW, hLoc⟩
      have hPlaced := hKeys.placed t w hRunning hW
      rw [hLoc] at hPlaced
      exact hPlaced
    · apply hKeys.slots tab rid
      intro hNone
      apply hThere
      have hRecord := hRecords ⟨tab, rid⟩
      rw [undone_of_not_mem hMem] at hRecord
      rw [hEnds.db]
      exact hRecord.trans hNone
  · intro tab i
    rw [hLost, hEnds.db]
    exact ((hUndone tab).2 i).1
  · intro u hU
    have hNe := hLeaves.ne_of_running hU
    have hU' := (hLeaves.running_iff hNe).mp hU
    refine Or.inr ⟨.of_abort hKeys hUnwinds hEnds hCols hU' hNe, fun tab i => ?_⟩
    rw [hLost]
    exact hKeys.undo_abort hRunning hU' hNe tab i

end Abort

end Engine

end Rmdb
