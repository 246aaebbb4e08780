import Rmdb.Lib.KeyRollback

/-
  Undoing the writes to the rows of a unique index, all of
  them, in reverse order.

  A list has the writes that are still to be undone, the
  latest one first, each with its row and the key that the row
  had before.  Undoing a write deletes the key that the row
  has now and adds the old key if that is free.

  The writes of one list never get into each other's way.  So
  a writer only has to keep away from the old keys in the
  lists of others.

  Key definitions include:
    * `KeyMap.Undoable`
    * `KeyMap.undoneKeys`

  Key theorems include:
    * `KeyMap.Undoable.exact`
    * `KeyMap.Undoable.push`
    * `KeyMap.Undoable.foreign`
-/

namespace KeyMap

variable {K R : Type} [DecidableEq R]

/- No old key is in use when its write is undone. -/
def Undoable (now : R → Option K) :
    List (R × Option K) → Prop
| [] => True
| (z, old) :: rest =>
  (∀ q k, q ≠ z → old = some k → now q ≠ some k) ∧
    Undoable (Function.update now z old) rest

/- The keys after all writes have been undone. -/
def undoneKeys (now : R → Option K) :
    List (R × Option K) → R → Option K
| [] => now
| (z, old) :: rest =>
  undoneKeys (Function.update now z old) rest

section Undo

variable {now now' : R → Option K}
variable {writes : List (R × Option K)} {z : R}

theorem undoneKeys_of_not_mem {r : R}
    (hNot : ∀ old, (r, old) ∉ writes) : undoneKeys now writes r = now r := by
  induction writes generalizing now with
  | nil => rfl
  | cons w rest ih =>
    have hHere : r ≠ w.1 := by
      rintro rfl
      exact hNot w.2 List.mem_cons_self
    have hRest : undoneKeys (Function.update now w.1 w.2) rest
        r = Function.update now w.1 w.2 r := ih (fun old hMem =>
        hNot old (List.mem_cons_of_mem _ hMem))
    rw [Function.update_of_ne hHere] at hRest
    exact hRest

/- A row of the list gets one of its old keys. -/
theorem undoneKeys_mem {r : R}
    (hMem : ∃ old, (r, old) ∈ writes) :
    (r, undoneKeys now writes r) ∈ writes := by
  induction writes generalizing now with
  | nil =>
    rcases hMem with ⟨old, hOld⟩
    cases hOld
  | cons w rest ih =>
    by_cases hRest : ∃ old, (r, old) ∈ rest
    · exact List.mem_cons_of_mem _ (ih hRest)
    · rcases hMem with ⟨old, hOld⟩
      have hHere : (r, old) = w := (List.mem_cons.mp hOld).resolve_right
          (fun hLater => hRest ⟨old, hLater⟩)
      have hSame : undoneKeys now (w :: rest) r = old := by
        have hKeep : undoneKeys (Function.update now w.1 w.2)
            rest r = Function.update now w.1 w.2 r := undoneKeys_of_not_mem
            (fun old hLater => hRest ⟨old, hLater⟩)
        rw [← hHere, Function.update_self] at hKeep
        rw [← hHere]
        exact hKeep
      rw [hSame]
      exact hOld

/- Rows outside the list do not have its old keys. -/
theorem Undoable.free
    (hUndo : Undoable now writes)
    {r y : R}
    {k : K}
    (hMem : (r, some k) ∈ writes)
    (hNot : ∀ old, (y, old) ∉ writes) :
    now y ≠ some k := by
  induction writes generalizing now with
  | nil => cases hMem
  | cons w rest ih =>
    have hY : y ≠ w.1 := by
      rintro rfl
      exact hNot w.2 List.mem_cons_self
    rcases List.mem_cons.mp hMem with hHere | hLater
    · exact hUndo.1 y k hY (congrArg Prod.snd hHere).symm
    · have hRest := ih hUndo.2 hLater (fun old h => hNot old (List.mem_cons_of_mem _ h))
      rw [Function.update_of_ne hY] at hRest
      exact hRest

/- Rows outside the list get other keys, none of which the
  list has as an old key. -/
theorem Undoable.foreign (hUndo : Undoable now writes)
    (hSame : ∀ r old, (r, old) ∈ writes → now' r = now r)
    (hOther : ∀ y k, (∀ old, (y, old) ∉ writes) → now' y = some k →
        now y ≠ some k → ∀ r, (r, some k) ∉ writes) : Undoable now' writes := by
  -- only the keys that are old keys of the list matter
  have hKeys : ∀ y k r, (r, some k) ∈ writes → now' y = some k → now y = some k := by
    intro y k r hMem hHas
    by_cases hY : ∃ old, (y, old) ∈ writes
    · rcases hY with ⟨old, hOld⟩
      rw [← hSame y old hOld]
      exact hHas
    · by_contra hNot
      exact hOther y k (fun old h => hY ⟨old, h⟩) hHas hNot r hMem
  clear hSame hOther
  induction writes generalizing now now' with
  | nil => trivial
  | cons w rest ih =>
    refine ⟨?_, ih hUndo.2 ?_⟩
    · intro q k hQ hOld hHas
      refine hUndo.1 q k hQ hOld (hKeys q k w.1 ?_ hHas)
      rw [← hOld]
      exact List.mem_cons_self
    · intro y k r hMem hHas
      by_cases hY : y = w.1
      · rw [hY, Function.update_self] at hHas ⊢
        exact hHas
      · rw [Function.update_of_ne hY] at hHas ⊢
        exact hKeys y k r (List.mem_cons_of_mem _ hMem) hHas

variable [DecidableEq K]
variable {m : K → Option R}

/- The write at the front of the list is undone. -/
theorem Undoable.exact
    {old : Option K}
    (hExact : Exact m now)
    (hUndo : Undoable now ((z, old) :: writes)) :
    Exact (move m (now z) old z) (Function.update now z old) := by
  refine hExact.move rfl ?_
  intro k q hOld hM
  by_contra hQ
  exact hUndo.1 q k hQ hOld ((hExact k q).mp hM)

/- A row gets a new key, and the write is remembered. -/
omit [DecidableEq K] in
theorem Undoable.push
    (hExact : Exact m now)
    (hUndo : Undoable now writes)
    (new : Option K) :
    Undoable (Function.update now z new) ((z, now z) :: writes) := by
  constructor
  · intro q k hQ hOld hHas
    rw [Function.update_of_ne hQ] at hHas
    exact hQ (hExact.eq_of_holder hOld hHas)
  · rw [Function.update_idem, Function.update_eq_self]
    exact hUndo

end Undo

end KeyMap
