import Rmdb.Lib.KeyUndo
import Rmdb.Mvcc.Session

/-
  This file says what the rollback of a transaction without
  versions does to the indexes.  All writes are taken back in
  reverse order; the insert of a row is only taken back if it
  is still registered as the transaction's own.

  Key definitions include:
    * `Engine.undoItems`
    * `Engine.InsertsOnce`

  Key theorems include:
    * `Engine.undo_rollbackWrites`
-/

namespace Rmdb

open Function List KeyMap

namespace Engine

/- The writes to a table that the rollback acts on. -/
def undoItems
    (t : TxnId)
    (owners : Loc → Option TxnId)
    (tab : TabName)
    (cols : Option (List ColMeta))
    (ws : List WriteRecord) :
    List (Rid × Option IndexKey) :=
  (ws.filter (fun w =>
    w.loc.tab = tab ∧ actsOn t (owners w.loc) w)).map
      (fun w => (w.loc.rid, keyIn cols (beforeWrite w)))

/- A transaction does not insert twice at one place. -/
def InsertsOnce (ws : List WriteRecord) : Prop :=
  ws.Pairwise (fun w w' =>
    ∀ x, w = .insertTuple x → w' ≠ .insertTuple x)

section Items

variable {t : TxnId} {owners owners' : Loc → Option TxnId}
variable {tab : TabName} {cols : Option (List ColMeta)}
variable {ws : List WriteRecord} {w : WriteRecord}

theorem mem_undoItems
    {rid : Rid}
    {k : Option IndexKey} :
    (rid, k) ∈ undoItems t owners tab cols ws ↔ ∃ w ∈ ws, w.loc = ⟨tab, rid⟩ ∧
        actsOn t (owners w.loc) w ∧ keyIn cols (beforeWrite w) = k := by
  unfold undoItems
  simp only [mem_map, mem_filter, decide_eq_true_eq, Prod.mk.injEq]
  constructor
  · rintro ⟨w, ⟨hMem, rfl, hActs⟩, rfl, hKey⟩
    exact ⟨w, hMem, rfl, hActs, hKey⟩
  · rintro ⟨w, hMem, hLoc, hActs, hKey⟩
    exact ⟨w, ⟨hMem, by rw [hLoc], hActs⟩, by rw [hLoc], hKey⟩

theorem undoItems_congr
    (hActs : ∀ w ∈ ws, w.loc.tab = tab →
      (actsOn t (owners' w.loc) w ↔ actsOn t (owners w.loc) w)) :
    undoItems t owners' tab cols ws = undoItems t owners tab cols ws := by
  unfold undoItems
  congr 1
  apply filter_congr
  intro w hMem
  by_cases hTab : w.loc.tab = tab
  · simp [hTab, hActs w hMem hTab]
  · simp [hTab]

theorem undoItems_cons_of_acts
    (hTab : w.loc.tab = tab)
    (hActs : actsOn t (owners w.loc) w) :
    undoItems t owners tab cols (w :: ws) = (w.loc.rid,
      keyIn cols (beforeWrite w)) ::
        undoItems t owners tab cols ws := by
  unfold undoItems
  rw [filter_cons_of_pos (by simp [hTab, hActs]), map_cons]

theorem undoItems_cons_of_not (hNot : w.loc.tab = tab →
    ¬ actsOn t (owners w.loc) w) :
    undoItems t owners tab cols (w :: ws) = undoItems t owners tab cols ws := by
  unfold undoItems
  rw [filter_cons_of_neg]
  simp only [decide_eq_true_eq, not_and]
  exact hNot

/- Another owner of a place where nothing was inserted. -/
theorem actsOn_update
    {x : Loc}
    {owner : Option TxnId}
    (hOther : w ≠ .insertTuple x) :
    actsOn t (update owners x owner w.loc) w ↔ actsOn t (owners w.loc) w := by
  cases w with
  | insertTuple y =>
    have hY : y ≠ x := fun hEq => hOther (by rw [hEq])
    simp only [WriteRecord.loc]
    rw [update_of_ne hY]
  | deleteTuple y rec | updateTuple y rec => exact Iff.rfl

end Items

/- The tables without writes are left alone. -/
theorem db_of_rollbackWrites
    {e e' : Engine}
    {t : TxnId}
    {tab : TabName}
    {ws : List WriteRecord}
    (hRun : rollbackWrites t ws e = some e')
    (hTab : ∀ w ∈ ws, w.loc.tab ≠ tab) :
    e'.db tab = e.db tab := by
  induction ws generalizing e with
  | nil =>
    cases hRun
    rfl
  | cons w rest ih =>
    unfold rollbackWrites at hRun
    cases hStep : e.rollbackWrite t w with
    | none => simp [hStep] at hRun
    | some e₁ =>
      simp only [hStep] at hRun
      rw [ih hRun (fun w' hW => hTab w' (mem_cons_of_mem _ hW))]
      rcases (rollbackWrite_cases hStep).2.2 with ⟨-, rfl⟩ | hBack
      · rfl
      · exact hBack.others tab (Ne.symm (hTab w mem_cons_self))

/- The rollback leaves the index with the keys that its rows
  get back. On some rows, all those it acts on among them,
  these are the keys of the records. -/
theorem undo_rollbackWrites
    {e e' : Engine}
    {t : TxnId}
    {tab : TabName}
    {cols : Nat → Option (List ColMeta)}
    {now : Nat → Rid → Option IndexKey}
    {rows : Rid → Prop}
    {ws : List WriteRecord}
    (hOnce : InsertsOnce ws)
    (hCols : ∀ i, (e.db tab).cols i = cols i)
    (hExact : ∀ i, Exact ((e.db tab).entry i) (now i))
    (hNow : ∀ i rid, rows rid →
      now i rid = keyIn (cols i) (e.db.record ⟨tab, rid⟩))
    (hRows : ∀ w ∈ ws, w.loc.tab = tab →
      actsOn t (e.physicalInsertOwners w.loc) w → rows w.loc.rid)
    (hUndo : ∀ i, Undoable (now i)
      (undoItems t e.physicalInsertOwners tab (cols i) ws))
    (hRun : rollbackWrites t ws e = some e') :
    (∀ i, (e'.db tab).cols i = cols i) ∧ ∀ i, Exact ((e'.db tab).entry i)
          (undoneKeys (now i)
            (undoItems t e.physicalInsertOwners tab (cols i) ws)) ∧
        ∀ rid, rows rid →
                undoneKeys (now i)
                (undoItems t e.physicalInsertOwners tab (cols i)
                ws) rid = keyIn (cols i) (e'.db.record ⟨tab, rid⟩) := by
  induction ws generalizing e now with
  | nil =>
    cases hRun
    exact ⟨hCols, fun i => ⟨hExact i, hNow i⟩⟩
  | cons w rest ih =>
    unfold rollbackWrites at hRun
    cases hStep : e.rollbackWrite t w with
    | none => simp [hStep] at hRun
    | some e₁ =>
      simp only [hStep] at hRun
      have hLater := (pairwise_cons.mp hOnce).2
      rcases (rollbackWrite_cases hStep).2.2 with ⟨hNot, rfl⟩ | hBack
      · -- an insert that belongs to somebody else
        have hItems : ∀ i, undoItems t e₁.physicalInsertOwners tab (cols i) (w :: rest) =
              undoItems t e₁.physicalInsertOwners tab (cols i) rest :=
          fun i => undoItems_cons_of_not (fun _ => hNot)
        simp only [hItems] at hUndo ⊢
        exact ih hLater hCols hExact hNow (fun w hW => hRows w (mem_cons_of_mem _ hW))
          hUndo hRun
      · -- the owners of the other inserts are the same
        have hActs : ∀ w' ∈ rest, (actsOn t (e₁.physicalInsertOwners w'.loc) w' ↔
              actsOn t (e.physicalInsertOwners w'.loc) w') := by
          intro w' hW'
          rw [hBack.owner]
          cases hW : w with
          | insertTuple x => exact actsOn_update ((pairwise_cons.mp hOnce).1 w' hW' x hW)
          | deleteTuple x rec | updateTuple x rec =>
            simp only [ownerAfter]
            rw [update_eq_self]
        have hSame : ∀ i, undoItems t e₁.physicalInsertOwners tab (cols i) rest =
              undoItems t e.physicalInsertOwners tab (cols i)
                rest := fun i => undoItems_congr (fun w' hW' _ =>
            hActs w' hW')
        have hRows₁ : ∀ w' ∈ rest, w'.loc.tab = tab →
            actsOn t (e₁.physicalInsertOwners w'.loc) w' → rows w'.loc.rid :=
          fun w' hW' hTab hA => hRows w' (mem_cons_of_mem _ hW') hTab ((hActs w' hW').mp hA)
        by_cases hTab : w.loc.tab = tab
        · obtain ⟨z, hLoc⟩ : ∃ z, w.loc = ⟨tab, z⟩ := ⟨w.loc.rid, by rw [← hTab]⟩
          have hRow : rows z := by
            have hHere := hRows w (by simp) hTab hBack.acts
            rw [hLoc] at hHere
            exact hHere
          have hItems : ∀ i, undoItems t e.physicalInsertOwners tab (cols i) (w :: rest) =
                (z, keyIn (cols i) (beforeWrite w)) :: undoItems t e₁.physicalInsertOwners tab
                    (cols i) rest := by
            intro i
            rw [undoItems_cons_of_acts hTab hBack.acts, hSame, hLoc]
          simp only [hItems] at hUndo ⊢
          have hRestores := hBack.restores
          rw [hLoc] at hRestores
          have hCols₁ : ∀ i, (e₁.db tab).cols i = cols i :=
            fun i => (hRestores.keys.layout i).trans (hCols i)
          have hEntry : ∀ i, (e₁.db tab).entry i = move ((e.db tab).entry i) (now i z)
                (keyIn (cols i) (beforeWrite w)) z := by
            intro i
            rw [hNow i z hRow, ← hCols i]
            exact hRestores.keys.entries i
          refine ih hLater hCols₁ ?_ ?_ hRows₁ (fun i => (hUndo i).2) hRun
          · intro i
            rw [hEntry]
            exact Undoable.exact (hExact i) (hUndo i)
          · intro i rid hRid
            rw [hBack.record, hLoc]
            by_cases hZ : rid = z
            · subst hZ
              rw [update_self, update_self]
            · rw [update_of_ne hZ, update_of_ne (fun hEq => hZ (congrArg Loc.rid hEq))]
              exact hNow i rid hRid
        · have hItems : ∀ i, undoItems t e.physicalInsertOwners tab (cols i) (w :: rest) =
                undoItems t e₁.physicalInsertOwners tab (cols i) rest := by
            intro i
            rw [undoItems_cons_of_not (fun h => absurd h hTab), hSame]
          simp only [hItems] at hUndo ⊢
          have hDb := hBack.others tab (Ne.symm hTab)
          refine ih hLater (fun i => by rw [hDb, hCols])
            (fun i => by rw [hDb]; exact hExact i) ?_ hRows₁ hUndo hRun
          intro i rid hRid
          rw [hBack.record, update_of_ne (fun hEq => hTab (congrArg Loc.tab hEq).symm)]
          exact hNow i rid hRid

end Engine

end Rmdb
