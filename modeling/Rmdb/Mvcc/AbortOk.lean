import Rmdb.Mvcc.Rollback

/-
  This file shows that an abort can always take back the writes
  of its transaction: for a transaction without versions every
  write finds its row as it left it, and for a transaction with
  versions the rows it owns have records.

  Key definitions include:
    * `Engine.Stacked`
    * `Engine.CanUndo`

  Key theorems include:
    * `Engine.exists_rollbackWrites`
    * `Engine.CanUndo.exists_abort`
    * `Engine.CanUndo.step`
-/

namespace Rmdb

open Function List Table

namespace Table

variable {t : Table} {rid : Rid} {rec : RmRecord}

theorem exists_deleteRecord (hRecord : t.record rid = some rec)
    (hSlot : t.HasSlot rid) : ∃ t', t.deleteRecord rid = .ok t' := by
  have hPage := hasPage_of_record hRecord
  unfold record at hRecord
  rw [image_of_hasPage hPage] at hRecord
  unfold deleteRecord
  simp only [fetchPageHandle_ok hPage, bind, Except.bind]
  rw [hRecord, if_neg]
  · exact ⟨_, rfl⟩
  · rintro (hNot | hNone)
    · exact hNot hSlot
    · cases hNone

theorem exists_updateRecord
    (hRecord : t.record rid = some rec)
    (hSlot : t.HasSlot rid)
    (newRec : RmRecord) :
    ∃ t', t.updateRecord rid newRec = .ok t' := by
  have hPage := hasPage_of_record hRecord
  unfold record at hRecord
  rw [image_of_hasPage hPage] at hRecord
  unfold updateRecord
  simp only [fetchPageHandle_ok hPage, bind, Except.bind]
  rw [hRecord, if_neg]
  · exact ⟨_, rfl⟩
  · rintro (hNot | hNone)
    · exact hNot hSlot
    · cases hNone

theorem exists_insertRecordAt
    (hPage : t.HasPage rid.pageNo)
    (hSlot : t.HasSlot rid)
    (hRecord : t.record rid = none)
    (rec : RmRecord) :
    ∃ t', t.insertRecordAt rid rec = .ok t' := by
  unfold record at hRecord
  rw [image_of_hasPage hPage] at hRecord
  unfold insertRecordAt
  simp only [fetchPageHandle_ok hPage, bind, Except.bind]
  rw [if_neg (not_not_intro hSlot), hRecord, if_neg (by simp)]
  exact ⟨_, rfl⟩

end Table

namespace Engine

------------
-- The Writes Of One Row
------------

/- What the rollback of a write expects in the row. -/
def fits : WriteRecord → Option RmRecord → Prop
| .deleteTuple _ _, v => v = none
| _, v => v ≠ none

/- All writes of a row can be taken back, the newest first:
  each one finds what it expects and leaves the record before
  it. -/
def Stacked
    (t : TxnId)
    (x : Loc) :
    List WriteRecord → Option TxnId → Option RmRecord → Prop
| [], _, _ => True
| w :: rest, owner, v =>
  if w.loc = x ∧ actsOn t owner w then
    fits w v ∧
      Stacked t x rest (ownerAfter t owner w) (beforeWrite w)
  else
    Stacked t x rest owner v

section Stacked

variable {t : TxnId} {x : Loc} {ws : List WriteRecord}
variable {w : WriteRecord} {owner owner' : Option TxnId}
variable {v : Option RmRecord}

theorem stacked_cons : Stacked t x (w :: ws) owner v ↔
      if w.loc = x ∧ actsOn t owner w then
        fits w v ∧ Stacked t x ws (ownerAfter t owner w) (beforeWrite w)
      else
        Stacked t x ws owner v := Iff.rfl

theorem stacked_of_idle
    (hIdle : ∀ w ∈ ws, w.loc = x → ¬ actsOn t owner w) :
    Stacked t x ws owner v := by
  induction ws with
  | nil => trivial
  | cons w rest ih =>
    rw [stacked_cons, if_neg]
    · exact ih (fun w' hW => hIdle w' (mem_cons_of_mem w hW))
    · rintro ⟨hLoc, hActs⟩
      exact hIdle w mem_cons_self hLoc hActs

theorem stacked_of_not_mem (hOther : x ∉ ws.map WriteRecord.loc) :
    Stacked t x ws owner v := by
  apply stacked_of_idle
  intro w hW hLoc
  exact absurd (mem_map.mpr ⟨w, hW, hLoc⟩) hOther

theorem Stacked.owner_congr
    (hOwner : owner' = owner ∨ owner ≠ some t ∧ owner' ≠ some t)
    (hStack : Stacked t x ws owner v) :
    Stacked t x ws owner' v := by
  induction ws generalizing owner owner' v with
  | nil => trivial
  | cons w rest ih =>
    rw [stacked_cons] at hStack ⊢
    split
    · rename_i hActs'
      have hActs := And.intro hActs'.1 ((actsOn_congr hOwner).mp hActs'.2)
      rw [if_pos hActs] at hStack
      refine ⟨hStack.1, ih ?_ hStack.2⟩
      rcases hOwner with rfl | ⟨hOld, hNew⟩
      · exact Or.inl rfl
      · cases w with
        | insertTuple y => exact absurd hActs.2 hOld
        | deleteTuple y rec | updateTuple y rec => exact Or.inr ⟨hOld, hNew⟩
    · rename_i hActs
      rw [if_neg (fun hBoth => hActs ⟨hBoth.1, (actsOn_congr hOwner).mpr hBoth.2⟩)] at hStack
      exact ih hOwner hStack

end Stacked

------------
-- The Rollback Succeeds
------------

section Success

variable {e e' : Engine} {t : TxnId} {w : WriteRecord}
variable {ws : List WriteRecord}

theorem exists_rollbackWrite
    (hPlace : actsOn t (e.physicalInsertOwners w.loc) w →
        (e.db w.loc.tab).HasPage w.loc.rid.pageNo ∧
        (e.db w.loc.tab).HasSlot w.loc.rid)
    (hFits : actsOn t (e.physicalInsertOwners w.loc) w →
      fits w (e.db.record w.loc)) :
    ∃ e', e.rollbackWrite t w = some e' := by
  cases w with
  | insertTuple x =>
    simp only [rollbackWrite]
    split
    · rename_i hOwner
      rcases Option.ne_none_iff_exists'.mp (hFits hOwner) with ⟨rec, hRec⟩
      have hRecord : (e.db x.tab).record x.rid = some rec := hRec
      have hHere : ((e.db x.tab).deleteIndexes rec).record x.rid = some rec := hRec
      rcases exists_deleteRecord hHere (hPlace hOwner).2 with ⟨tab, hDelete⟩
      simp only [getRecord, hRecord, hDelete]
      exact ⟨_, rfl⟩
    · exact ⟨_, rfl⟩
  | deleteTuple x oldRec =>
    rcases hPlace trivial with ⟨hPage, hSlot⟩
    rcases exists_insertRecordAt hPage hSlot (hFits trivial) oldRec with ⟨tab, hInsert⟩
    have hRun : (e.db x.tab).insertRecordAt x.rid oldRec = .ok tab := hInsert
    simp only [rollbackWrite, hRun]
    exact ⟨_, rfl⟩
  | updateTuple x oldRec =>
    rcases Option.ne_none_iff_exists'.mp (hFits trivial) with ⟨rec, hRec⟩
    have hRecord : (e.db x.tab).record x.rid = some rec := hRec
    have hHere : ((e.db x.tab).deleteIndexes rec).record x.rid = some rec := hRec
    rcases exists_updateRecord hHere (hPlace trivial).2 oldRec with ⟨tab, hUpdate⟩
    simp only [rollbackWrite, getRecord, hRecord, hUpdate]
    exact ⟨_, rfl⟩

/- The place of a write that the rollback acts on. -/
def Places (t : TxnId) (ws : List WriteRecord) (e : Engine) : Prop :=
  ∀ w ∈ ws, actsOn t (e.physicalInsertOwners w.loc) w →
    (e.db w.loc.tab).HasPage w.loc.rid.pageNo ∧
      (e.db w.loc.tab).HasSlot w.loc.rid

/- The writes act as before, and their places are still there. -/
theorem Places.mono
    (hPlaces : Places t ws e)
    (hPages : e.db.KeepsPages e'.db)
    (hOwners : ∀ y, e'.physicalInsertOwners y = some t →
      e.physicalInsertOwners y = some t) :
    Places t ws e' := by
  intro w hW hActs
  rcases hPlaces w hW (actsOn_mono (hOwners w.loc) hActs) with ⟨hPage, hSlot⟩
  exact ⟨(hPages _).hasPage hPage, ((hPages _).hasSlot _).mpr hSlot⟩

theorem exists_rollbackWrites (hPlaces : Places t ws e)
    (hStacks : ∀ x, Stacked t x ws (e.physicalInsertOwners x)
        (e.db.record x)) : ∃ e', rollbackWrites t ws e = some e' := by
  induction ws generalizing e with
  | nil => exact ⟨e, rfl⟩
  | cons w rest ih =>
    have hFits : actsOn t (e.physicalInsertOwners w.loc) w → fits w (e.db.record w.loc) := by
      intro hActs
      have hTop := hStacks w.loc
      rw [stacked_cons, if_pos ⟨rfl, hActs⟩] at hTop
      exact hTop.1
    rcases exists_rollbackWrite (hPlaces w mem_cons_self) hFits with ⟨e₁, hStep⟩
    rcases rollbackWrite_cases hStep with ⟨hUnwinds, -, hCase⟩
    have hOwners : ∀ y, e₁.physicalInsertOwners y = some t → e.physicalInsertOwners y = some t := by
      intro y hY
      rcases hUnwinds.owners y with hSame | ⟨hMine, -⟩
      · exact hSame.symm.trans hY
      · exact hMine
    have hRest : Places t rest e₁ := by
      refine Places.mono (fun w' hW =>
        hPlaces w' (mem_cons_of_mem _ hW))
        hUnwinds.pages hOwners
    have hStacks₁ : ∀ x, Stacked t x rest (e₁.physicalInsertOwners x) (e₁.db.record x) := by
      intro x
      have hStack := hStacks x
      rw [stacked_cons] at hStack
      rcases hCase with ⟨hNot, rfl⟩ | hBack
      · rw [if_neg] at hStack
        · exact hStack
        · rintro ⟨rfl, hActs⟩
          exact hNot hActs
      · rw [hBack.record, hBack.owner]
        by_cases hX : x = w.loc
        · subst hX
          rw [if_pos ⟨rfl, hBack.acts⟩] at hStack
          rw [update_self, update_self]
          exact hStack.2
        · rw [if_neg (fun hBoth => hX hBoth.1.symm)] at hStack
          rw [update_of_ne hX, update_of_ne hX]
          exact hStack
    rcases ih hRest hStacks₁ with ⟨e', hRun⟩
    refine ⟨e', ?_⟩
    unfold rollbackWrites
    rw [hStep]
    exact hRun

end Success

------------
-- The Invariant
------------

/- Every running transaction can be rolled back. -/
structure CanUndo (e : Engine) : Prop where
  slots : ∀ tab, (e.db tab).InSlots
  places : ∀ t, e.Running t → e.hasVersions t = false → Places t (e.txn t).writeSet e
  undo : ∀ t, e.Running t → e.hasVersions t = false → ∀ x,
      Stacked t x (e.txn t).writeSet (e.physicalInsertOwners x) (e.db.record x)

namespace CanUndo

variable {base : Loc → Option RmRecord} {floor : Int}
variable {rejected : Option TxnId} {e e' : Engine} {h : Hist}
variable {t u : TxnId} {x : Loc} {d : DataRecord}
variable {w : WriteRecord}

/- A write to take back belongs to a locked row. -/
theorem plainOwns_of_acts
    (hInv : Consistent base floor rejected e h)
    (hRunning : e.Running u)
    (hVersions : e.hasVersions u = false)
    (hW : w ∈ (e.txn u).writeSet)
    (hActs : actsOn u (e.physicalInsertOwners w.loc) w) :
    e.PlainOwns u w.loc := by
  rcases hasVersions_eq_false.mp hVersions with ⟨hLevel, hKeys⟩
  refine ⟨⟨hRunning, hLevel, hKeys, ne_nil_of_mem hW⟩, ?_, mem_map_of_mem hW⟩
  rcases (hInv.sets u hRunning).plain hVersions w hW with
    hLock | ⟨-, hIdle⟩
  · exact hLock
  · exact absurd hActs hIdle

------------
-- Changes
------------

/- The transaction that takes part stays without versions. -/
theorem unversioned
    (hEntry : Versions t d e e')
    (hKeeps : Keeps t e e')
    (hVersions : e'.hasVersions t = false) :
    e.hasVersions t = false ∧ e.shouldVersionWrites t = false := by
  rcases hasVersions_eq_false.mp hVersions with ⟨hLevel, hKeys⟩
  rw [hKeeps.mvcc] at hLevel
  rw [hEntry.keys] at hKeys
  split at hKeys
  · cases hKeys
  · rename_i hNot
    refine ⟨hasVersions_eq_false.mpr ⟨hLevel, hKeys⟩, ?_⟩
    rw [Bool.eq_false_iff]
    intro hVersioned
    apply hNot
    refine ⟨hVersioned, ?_⟩
    rw [hKeys]
    simp

theorem hasVersions_other (hKeeps : Keeps t e e')
    (hU : u ≠ t) : e'.hasVersions u = e.hasVersions u := by
  unfold hasVersions isMvccTxn
  rw [hKeeps.others u hU]

variable (hUndo : e.CanUndo) (hInv : Consistent base floor none e h)
include hUndo hInv

/- An abort can take back everything. -/
theorem exists_abort (hRunning : e.Running t) : ∃ e', e.abort t = some e' := by
  unfold Engine.abort
  cases hVersions : e.hasVersions t with
  | true =>
    have hRows : ∀ x ∈ (e.txn t).writeSet.map WriteRecord.loc, x ∉ ([] : List Loc) → e.Owns t x →
          e.db.record x ≠ none ∧ (e.db x.tab).HasSlot x.rid := by
      intro x _ _ hOwns
      have hRecord := (hInv.present x t hOwns (by simp)).1
      exact ⟨hRecord, hUndo.slots x.tab x.rid hRecord⟩
    rcases exists_abortWrites hRows with ⟨e₁, hBack⟩
    rw [if_pos rfl, hBack]
    exact ⟨_, rfl⟩
  | false =>
    rcases exists_rollbackWrites (hUndo.places t hRunning hVersions)
      (hUndo.undo t hRunning hVersions) with ⟨e₁, hBack⟩
    rw [if_neg (by simp), hBack]
    exact ⟨_, rfl⟩

omit hInv

/- A transaction that takes no part in a step: the rows it has
  to take back keep their records, and nobody unregisters its
  inserts. -/
theorem stack_other
    (hInv : Consistent base floor rejected e h)
    (hRunning : e.Running u)
    (hVersions : e.hasVersions u = false)
    (hRow : e.PlainOwns u x → e'.db.record x = e.db.record x)
    (hOwner : e'.physicalInsertOwners x = e.physicalInsertOwners x ∨
        e'.physicalInsertOwners x ≠ some u ∧ (e.PlainOwns u x →
            e.physicalInsertOwners x ≠ some u)) :
    Stacked u x (e.txn u).writeSet (e'.physicalInsertOwners x)
      (e'.db.record x) := by
  by_cases hIdle : ∀ w ∈ (e.txn u).writeSet, w.loc = x → ¬ actsOn u (e.physicalInsertOwners x) w
  · apply stacked_of_idle
    intro w hW hLoc hActs
    refine hIdle w hW hLoc (actsOn_mono (fun hMine => ?_) hActs)
    rcases hOwner with hSame | ⟨hNot, -⟩
    · exact hSame.symm.trans hMine
    · exact absurd hMine hNot
  · push Not at hIdle
    rcases hIdle with ⟨w, hW, rfl, hActs⟩
    have hOwns := plainOwns_of_acts hInv hRunning hVersions hW hActs
    rw [hRow hOwns]
    refine (hUndo.undo u hRunning hVersions w.loc).owner_congr ?_
    rcases hOwner with hSame | ⟨hNew, hOld⟩
    · exact Or.inl hSame
    · exact Or.inr ⟨hOld hOwns, hNew⟩

theorem places_other
    (hRunning : e.Running u)
    (hVersions : e.hasVersions u = false)
    (hPages : e.db.KeepsPages e'.db)
    (hOwners : ∀ y, e'.physicalInsertOwners y = e.physicalInsertOwners y ∨
        e'.physicalInsertOwners y ≠ some u) :
    Places u (e.txn u).writeSet e' := by
  refine (hUndo.places u hRunning hVersions).mono hPages ?_
  intro y hY
  rcases hOwners y with hSame | hNot
  · exact hSame.symm.trans hY
  · exact absurd hY hNot

variable (hMay : Writable base floor h t d e)
include hMay

/- A change at one row. The other transactions have nothing to
  take back there. -/
theorem of_acts (hPages : e.db.KeepsPages e'.db)
    (hActs : Acts t d.loc e e')
    (hRecord : e'.db.record d.loc ≠ none → (e.db d.tab).HasSlot d.rid)
    (hOwner : e'.physicalInsertOwners d.loc = e.physicalInsertOwners d.loc ∨
        e'.physicalInsertOwners d.loc = some t ∨
        e'.physicalInsertOwners d.loc = none)
    (hPlaces : e'.hasVersions t = false → Places t (e'.txn t).writeSet e')
    (hStack : e'.hasVersions t = false → ∀ y, Stacked t y (e'.txn t).writeSet
          (e'.physicalInsertOwners y) (e'.db.record y)) :
    e'.CanUndo := by
  constructor
  · intro tab rid hHere
    have hOld : (e.db tab).HasSlot rid := by
      by_cases hLoc : (⟨tab, rid⟩ : Loc) = d.loc
      · have hRow : e'.db.record ⟨tab, rid⟩ ≠ none := hHere
        rw [hLoc] at hRow
        have hSlot := hRecord hRow
        unfold DataRecord.tab DataRecord.rid at hSlot
        rw [← hLoc] at hSlot
        exact hSlot
      · have hSame := hActs.record ⟨tab, rid⟩ hLoc
        exact hUndo.slots tab rid (fun hNone => hHere (hSame.trans hNone))
    exact ((hPages tab).hasSlot rid).mpr hOld
  · intro u hRunning hVersions
    by_cases hU : u = t
    · subst hU
      exact hPlaces hVersions
    · rw [hActs.running_iff] at hRunning
      rw [hasVersions_other hActs.keeps hU] at hVersions
      rw [hActs.keeps.others u hU]
      refine hUndo.places_other hRunning hVersions hPages ?_
      intro y
      by_cases hY : y = d.loc
      · subst hY
        rcases hOwner with hSame | hMine | hNone
        · exact Or.inl hSame
        · right
          rw [hMine]
          exact fun hEq => hU (Option.some.inj hEq).symm
        · right
          rw [hNone]
          simp
      · exact Or.inl (hActs.owners y hY)
  · intro u hRunning hVersions y
    by_cases hU : u = t
    · subst hU
      exact hStack hVersions y
    · rw [hActs.running_iff] at hRunning
      rw [hasVersions_other hActs.keeps hU] at hVersions
      rw [hActs.keeps.others u hU]
      by_cases hY : y = d.loc
      · subst hY
        have hNot : ¬ e.PlainOwns u d.loc := fun hOwns =>
          hU (hMay.plainOwner_eq hOwns)
        refine hUndo.stack_other hMay.toConsistent hRunning hVersions
          (fun hOwns => absurd hOwns hNot) ?_
        rcases hOwner with hSame | hMine | hNone
        · exact Or.inl hSame
        · refine Or.inr ⟨?_, fun hOwns => absurd hOwns hNot⟩
          rw [hMine]
          exact fun hEq => hU (Option.some.inj hEq).symm
        · refine Or.inr ⟨?_, fun hOwns => absurd hOwns hNot⟩
          rw [hNone]
          simp
      · exact hUndo.stack_other hMay.toConsistent hRunning hVersions (fun _ => hActs.record y hY)
          (Or.inl (hActs.owners y hY))

/- An insert takes a row that the transaction has not written. -/
omit hUndo in
theorem fresh_of_insert (hVersions : e.hasVersions t = false)
    (hInserted : d.inserted = true) :
    d.loc ∉ (e.txn t).writeSet.map WriteRecord.loc := by
  intro hMem
  rcases mem_map.mp hMem with ⟨w, hW, hLoc⟩
  have hFree := hMay.free hInserted (hasVersions_eq_false.mp hVersions).1
  rcases (hMay.sets t hMay.running).plain hVersions w hW with hLock | ⟨hNot, -⟩
  · rw [hLoc, hFree] at hLock
    cases hLock
  · exact hNot hMay.growing

/- The rows of the transaction that its change leaves alone. -/
omit hMay in
theorem stack_cons
    (hActs : Acts t d.loc e e')
    (hVersions : e.hasVersions t = false)
    {y : Loc}
    (hY : y ≠ d.loc)
    (hWrites : (e'.txn t).writeSet = (e.txn t).writeSet ∨ ∃ w, w.loc = d.loc ∧
          (e'.txn t).writeSet = w :: (e.txn t).writeSet) :
    Stacked t y (e'.txn t).writeSet (e'.physicalInsertOwners y)
      (e'.db.record y) := by
  have hOld := hUndo.undo t (Or.inl hActs.growing) hVersions y
  rw [hActs.record y hY, hActs.owners y hY]
  rcases hWrites with hSame | ⟨w, hLoc, hMore⟩
  · rw [hSame]
    exact hOld
  · rw [hMore, stacked_cons, if_neg]
    · exact hOld
    · rintro ⟨hHere, -⟩
      exact hY (hHere.symm.trans hLoc)

/- The page of a row that was changed. -/
omit hUndo in
theorem hasPage_of_done (hDone : Done t d e e') :
    (e'.db d.tab).HasPage d.rid.pageNo := by
  cases hInserted : d.inserted with
  | true =>
    have hRecord : e'.db.record d.loc = some d.headRecord := by
      rw [hDone.edits.record_self]
      unfold physicalAfter
      cases d with
      | insert x rec => simp [DataRecord.deleted, DataRecord.after, DataRecord.headRecord]
      | delete x rec | update x old new => cases hInserted
    exact hasPage_of_record hRecord
  | false =>
    have hRecord := (hMay.seen_old hInserted).1
    exact (hDone.edits.keepsPages _).hasPage (hasPage_of_record hRecord)

/- The new write comes first. -/
theorem stacked_writeRecord (hVersions : e.hasVersions t = false) :
    Stacked t d.loc (d.writeRecord :: (e.txn t).writeSet) ((if d.inserted then
          update e.physicalInsertOwners d.loc (some t)
        else
          e.physicalInsertOwners) d.loc) d.after := by
  have hOld := hUndo.undo t hMay.running hVersions d.loc
  cases d with
  | insert x rec =>
    have hFresh := fresh_of_insert hMay hVersions rfl
    have hInserted : (DataRecord.insert x rec).inserted = true := rfl
    rw [if_pos hInserted, update_self, stacked_cons, if_pos ⟨rfl, rfl⟩]
    refine ⟨?_, stacked_of_not_mem hFresh⟩
    simp [DataRecord.after, fits, DataRecord.writeRecord]
  | delete x rec =>
    have hRecord := (hMay.seen_old rfl).1
    rw [hRecord] at hOld
    rw [if_neg (by simp [DataRecord.inserted]), stacked_cons, if_pos ⟨rfl, trivial⟩]
    exact ⟨rfl, hOld⟩
  | update x old new =>
    have hRecord := (hMay.seen_old rfl).1
    rw [hRecord] at hOld
    rw [if_neg (by simp [DataRecord.inserted]), stacked_cons, if_pos ⟨rfl, trivial⟩]
    refine ⟨?_, hOld⟩
    simp [DataRecord.after, fits, DataRecord.writeRecord]

/- A change that is made. -/
theorem done (hDone : Done t d e e') : e'.CanUndo := by
  have hActs := Consistent.done_acts hMay.toCanChange hDone
  have hSlot := hMay.hasSlot (hUndo.slots d.tab d.rid)
  have hPages := hDone.edits.keepsPages
  refine hUndo.of_acts hMay hPages hActs (fun _ => hSlot) (Consistent.owner_done hDone) ?_ ?_
  · intro hAfter
    rcases unversioned hDone.entry hDone.keeps hAfter with ⟨hVersions, hPlain⟩
    rw [hDone.writeSet]
    have hOld := hUndo.places t hMay.running hVersions
    intro w hW hW'
    rcases mem_cons.mp hW with rfl | hRest
    · rw [DataRecord.loc_writeRecord]
      exact ⟨hasPage_of_done hMay hDone, ((hPages _).hasSlot _).mpr hSlot⟩
    · have hOwner : e'.physicalInsertOwners w.loc = some t →
          e.physicalInsertOwners w.loc = some t := by
        intro hNew
        rw [hDone.owners] at hNew
        split at hNew
        · rename_i hInserted
          have hY : w.loc ≠ d.loc := fun hLoc => fresh_of_insert hMay hVersions hInserted
            (mem_map.mpr ⟨w, hRest, hLoc⟩)
          rw [update_of_ne hY] at hNew
          exact hNew
        · exact hNew
      rcases hOld w hRest (actsOn_mono hOwner hW') with ⟨hPage, hPlace⟩
      exact ⟨(hPages _).hasPage hPage, ((hPages _).hasSlot _).mpr hPlace⟩
  · intro hAfter y
    rcases unversioned hDone.entry hDone.keeps hAfter with ⟨hVersions, hPlain⟩
    by_cases hY : y = d.loc
    · subst hY
      have hRecord : e'.db.record d.loc = d.after := by
        rw [hDone.edits.record_self]
        unfold physicalAfter
        rw [hPlain]
        simp
      rw [hRecord, hDone.owners, hDone.writeSet]
      exact hUndo.stacked_writeRecord hMay hVersions
    · exact hUndo.stack_cons hActs hVersions hY
        (Or.inr ⟨d.writeRecord, DataRecord.loc_writeRecord d, hDone.writeSet⟩)

/- A change that is rejected puts the record back. -/
theorem reject (hRejected : Rejected t d e e') :
    e'.CanUndo := by
  have hActs := Consistent.rejected_acts hMay.toCanChange hRejected
  have hSlot := hMay.hasSlot (hUndo.slots d.tab d.rid)
  have hPages := hRejected.edits.keepsPages
  have hRecord : e'.db.record d.loc = e.db.record d.loc := by
    rw [hRejected.edits.record_self, hMay.record_rejected]
  refine hUndo.of_acts hMay hPages hActs (fun _ => hSlot)
    (Consistent.owner_rejected hRejected) ?_ ?_
  · intro hAfter
    rcases unversioned hRejected.entry hRejected.keeps hAfter with ⟨hVersions, hPlain⟩
    have hOwners : ∀ y, e'.physicalInsertOwners y = some t → e.physicalInsertOwners y = some t := by
      intro y hY
      rw [hRejected.owners] at hY
      split at hY
      · by_cases hLoc : y = d.loc
        · rw [hLoc, update_self] at hY
          cases hY
        · rw [update_of_ne hLoc] at hY
          exact hY
      · exact hY
    have hOld := (hUndo.places t hMay.running hVersions).mono hPages hOwners
    rw [hRejected.writeSet, hPlain]
    split
    · rename_i hInserted
      have hInserted : d.inserted = true := by simpa using hInserted
      intro w hW hW'
      rcases mem_cons.mp hW with rfl | hRest
      · -- the insert has been unregistered
        rw [hRejected.owners, if_pos hInserted, DataRecord.loc_writeRecord, update_self]
          at hW'
        cases d with
        | insert x rec => cases hW'
        | delete x rec | update x old new => cases hInserted
      · exact hOld w hRest hW'
    · exact hOld
  · intro hAfter y
    rcases unversioned hRejected.entry hRejected.keeps hAfter with ⟨hVersions, hPlain⟩
    by_cases hY : y = d.loc
    · subst hY
      rw [hRecord, hRejected.owners, hRejected.writeSet, hPlain]
      cases hInserted : d.inserted with
      | true =>
        have hFresh := fresh_of_insert hMay hVersions hInserted
        simp only [Bool.false_eq_true, or_false, if_true, update_self]
        rw [stacked_cons, if_neg]
        · exact stacked_of_not_mem hFresh
        · rintro ⟨-, hActs'⟩
          cases d with
          | insert x rec => cases hActs'
          | delete x rec | update x old new => cases hInserted
      | false =>
        exact hUndo.undo t hMay.running hVersions d.loc
    · exact hUndo.stack_cons hActs hVersions hY hActs.writeSet

omit hMay

/- A row that is passed over. -/
theorem quiet (hQuiet : Quiet t x e e') : e'.CanUndo := by
  have hActs := hQuiet.acts
  have hRecord := hQuiet.edits.record_same
  have hPages := hQuiet.edits.keepsPages
  have hTxn : ∀ u, (e'.txn u).writeSet = (e.txn u).writeSet ∧
      e'.hasVersions u = e.hasVersions u := by
    intro u
    by_cases hU : u = t
    · subst hU
      refine ⟨hQuiet.writeSet, ?_⟩
      unfold hasVersions
      rw [hQuiet.keeps.mvcc, hQuiet.keys]
    · exact ⟨by rw [hQuiet.keeps.others u hU], hasVersions_other hQuiet.keeps hU⟩
  constructor
  · intro tab rid hHere
    rw [(hPages tab).hasSlot]
    apply hUndo.slots tab rid
    intro hNone
    exact hHere ((congrFun hRecord ⟨tab, rid⟩).trans hNone)
  · intro u hRunning hVersions
    rw [hActs.running_iff] at hRunning
    rw [(hTxn u).2] at hVersions
    rw [(hTxn u).1]
    refine (hUndo.places u hRunning hVersions).mono hPages ?_
    intro y hY
    rw [hQuiet.owners] at hY
    exact hY
  · intro u hRunning hVersions y
    rw [hActs.running_iff] at hRunning
    rw [(hTxn u).2] at hVersions
    rw [(hTxn u).1, hRecord, hQuiet.owners]
    exact hUndo.undo u hRunning hVersions y

------------
-- Begin, End And Garbage Collection
------------

/- A transaction ends; the others have nothing in its rows. -/
theorem of_finishes
    (hInv : Consistent base floor rejected e h)
    (hEnd : Finishes t e e')
    (hPages : e.db.KeepsPages e'.db)
    (hInSlots : ∀ tab, (e'.db tab).InSlots) :
    e'.CanUndo := by
  have hOther : ∀ u, e'.Running u → u ≠ t ∧ e.Running u ∧
      e'.txn u = e.txn u ∧ e'.hasVersions u = e.hasVersions u := by
    intro u hRunning
    have hU := hEnd.toLeaves.ne_of_running hRunning
    have hTxn := hEnd.others u hU
    refine ⟨hU, (hEnd.toLeaves.running_iff hU).mp hRunning, hTxn, ?_⟩
    unfold hasVersions isMvccTxn
    rw [hTxn]
  have hOwners : ∀ u y, u ≠ t → e'.physicalInsertOwners y = e.physicalInsertOwners y ∨
        e'.physicalInsertOwners y ≠ some u ∧ e.physicalInsertOwners y ≠ some u := by
    intro u y hU
    rcases hEnd.owners y with hSame | ⟨hMine, hNone⟩
    · exact Or.inl hSame
    · right
      rw [hMine, hNone]
      exact ⟨by simp, fun hEq => hU (Option.some.inj hEq).symm⟩
  refine ⟨hInSlots, ?_, ?_⟩
  · intro u hRunning hVersions
    rcases hOther u hRunning with ⟨hU, hOld, hTxn, hSame⟩
    rw [hSame] at hVersions
    rw [hTxn]
    refine hUndo.places_other hOld hVersions hPages ?_
    intro y
    rcases hOwners u y hU with hEq | ⟨hNot, -⟩
    · exact Or.inl hEq
    · exact Or.inr hNot
  · intro u hRunning hVersions y
    rcases hOther u hRunning with ⟨hU, hOld, hTxn, hSame⟩
    rw [hSame] at hVersions
    rw [hTxn]
    refine hUndo.stack_other hInv hOld hVersions ?_ ?_
    · exact fun hOwns => (hEnd.kept u y hU (Or.inr hOwns)).1
    · rcases hOwners u y hU with hEq | ⟨hNew, hNot⟩
      · exact Or.inl hEq
      · exact Or.inr ⟨hNew, fun _ => hNot⟩

include hInv

theorem commits (hCommits : Commits t e e') : e'.CanUndo := by
  refine hUndo.of_finishes hInv (hInv.finishes_of_commits hCommits) ?_ ?_
  · rw [hCommits.db]
    exact fun _ => .refl _
  · rw [hCommits.db]
    exact hUndo.slots

omit hInv

theorem inSlots_of_abort (hRunning : e.Running t)
    (hOwned : ∀ x, e.Owns t x → (e.db x.tab).HasSlot x.rid)
    (hRun : e.abort t = some e') : ∀ tab, (e'.db tab).InSlots := by
  have hPages := keepsPages_of_abort hRun
  rcases abort_cases hRun with ⟨hVersions, e₁, hBack, hEnds⟩ | ⟨hVersions, e₁, hBack, hEnds⟩
  · rcases abortWrites_spec hBack with ⟨hUnwinds, hRows⟩
    intro tab rid hHere
    rw [(hPages tab).hasSlot]
    by_cases hOwns : e.Owns t ⟨tab, rid⟩
    · exact hOwned ⟨tab, rid⟩ hOwns
    · apply hUndo.slots tab rid
      intro hNone
      apply hHere
      rw [hEnds.db]
      exact ((hRows ⟨tab, rid⟩).2 (fun _ _ => hOwns)).1.trans hNone
  · rcases rollbackWrites_spec hBack with ⟨hUnwinds, -, hRows⟩
    intro tab rid hHere
    rw [(hPages tab).hasSlot]
    by_cases hIdle : ∀ w ∈ (e.txn t).writeSet, w.loc = ⟨tab, rid⟩ →
          ¬ actsOn t (e.physicalInsertOwners ⟨tab, rid⟩) w
    · apply hUndo.slots tab rid
      intro hNone
      apply hHere
      rw [hEnds.db]
      refine (hRows ⟨tab, rid⟩).trans ?_
      rw [undone_of_idle hIdle]
      exact hNone
    · push Not at hIdle
      rcases hIdle with ⟨w, hW, hLoc, hActs⟩
      rw [← hLoc] at hActs
      have hPlace := (hUndo.places t hRunning hVersions w hW hActs).2
      rw [hLoc] at hPlace
      exact hPlace

theorem abort
    (hInv : Consistent base floor rejected e h)
    (hRunning : e.Running t)
    (hOwned : ∀ x, e.Owns t x → (e.db x.tab).HasSlot x.rid)
    (hRun : e.abort t = some e') :
    e'.CanUndo := by
  exact hUndo.of_finishes hInv (hInv.finishes_of_abort hRunning hRun)
    (keepsPages_of_abort hRun) (hUndo.inSlots_of_abort hRunning hOwned hRun)

include hInv

theorem hasSlot_of_owns (hOwns : e.Owns t x) : (e.db x.tab).HasSlot x.rid :=
  hUndo.slots x.tab x.rid (hInv.present x t hOwns (by simp)).1

theorem collect : e.garbageCollection.CanUndo := by
  have hRecord : ∀ y, e.garbageCollection.db.record y =
      if e.deadRow y then none else e.db.record y := record_garbageCollection e
  refine ⟨?_, hUndo.places, ?_⟩
  · intro tab rid hHere
    refine hUndo.slots tab rid (fun hNone => hHere ?_)
    refine (hRecord ⟨tab, rid⟩).trans ?_
    have hOld : e.db.record ⟨tab, rid⟩ = none := hNone
    rw [hOld, ite_self]
  · intro u hRunning hVersions y
    refine hUndo.stack_other hInv hRunning hVersions ?_ (Or.inl rfl)
    intro hOwns
    rw [hRecord, hInv.not_dead_of_plain hOwns, if_neg (by simp)]

omit hInv in
theorem begins (level : IsolationLevel) : (e.begin level).CanUndo := by
  have hBegins := begins_begin e level
  have hOld : ∀ u, u ≠ (e.nextTxnId : TxnId) → (e.begin level).Running u →
      (e.begin level).hasVersions u = false → e.Running u ∧ e.hasVersions u = false := by
    intro u hU hRunning hVersions
    have hTxn := hBegins.others u hU
    unfold Running Engine.state at hRunning ⊢
    unfold hasVersions isMvccTxn at hVersions ⊢
    rw [hTxn] at hRunning hVersions
    exact ⟨hRunning, hVersions⟩
  constructor
  · rw [hBegins.db]
    exact hUndo.slots
  · intro u hRunning hVersions
    by_cases hU : u = (e.nextTxnId : TxnId)
    · subst hU
      rw [hBegins.writeSet]
      exact fun w hW => absurd hW (by simp)
    · rcases hOld u hU hRunning hVersions with ⟨hR, hV⟩
      rw [hBegins.others u hU]
      unfold Places
      rw [hBegins.owners, hBegins.db]
      exact hUndo.places u hR hV
  · intro u hRunning hVersions y
    by_cases hU : u = (e.nextTxnId : TxnId)
    · subst hU
      rw [hBegins.writeSet]
      trivial
    · rcases hOld u hU hRunning hVersions with ⟨hR, hV⟩
      rw [hBegins.others u hU, hBegins.owners, hBegins.db]
      exact hUndo.undo u hR hV y

/- The rows of a transaction whose change was rejected. -/
omit hInv in
theorem hasSlot_of_rejected
    (hMay : Writable base floor h t d e)
    (hRejected : Rejected t d e e')
    (hOwns : e'.Owns t x) :
    (e'.db x.tab).HasSlot x.rid := by
  rw [hRejected.edits.hasSlot]
  have hActs := Consistent.rejected_acts hMay.toCanChange hRejected
  by_cases hX : x = d.loc
  · subst hX
    exact hMay.hasSlot (hUndo.slots d.tab d.rid)
  · rw [hActs.owns_iff hX] at hOwns
    exact hUndo.hasSlot_of_owns hMay.toConsistent hOwns

/- Every step of a tame run. -/
theorem step
    {op : Op}
    (hRoster : e.Roster)
    (hStart : ∀ t, e.isMvccTxn t = true → 0 ≤ e.startTs t)
    (hTame : e.Tame op)
    (hStep : e.step op = some e') :
    e'.CanUndo := by
  cases step_cases (fun t _ hMvcc => hStart t hMvcc) hStep with
  | begin level hNew =>
    subst hNew
    exact hUndo.begins level
  | quiet _ t x _ hQuiet => exact hUndo.quiet hQuiet
  | change _ t d old hChange hCan hOutcome =>
    have hMay := hInv.writable hRoster hTame hChange hCan
    cases hOutcome with
    | done hDone => exact hUndo.done hMay hDone
    | rejected hRejected _ => exact hUndo.reject hMay hRejected
    | aborted e₁ hRejected hAbort =>
      refine (hUndo.reject hMay hRejected).abort (hMay.broken hRejected)
        (Consistent.rejected_acts hCan hRejected).running ?_ hAbort
      exact fun x hOwns => hUndo.hasSlot_of_rejected hMay hRejected hOwns
  | commit t e₁ hCommits hLast =>
    have hAfter := hUndo.commits hInv hCommits
    rcases hLast with rfl | ⟨-, rfl⟩
    · exact hAfter
    · exact hAfter.collect (hInv.commit hCommits)
  | abort t hRunning hAbort =>
    exact hUndo.abort hInv hRunning (fun x hOwns => hUndo.hasSlot_of_owns hInv hOwns) hAbort
  | collect hNew =>
    subst hNew
    exact hUndo.collect hInv

end CanUndo

end Engine

end Rmdb
