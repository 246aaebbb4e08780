import Mathlib.Logic.Function.Basic

/-
  A unique index seen from outside: a partial map from keys to
  rows, and the key that every row has now.  Rows move from
  key to key; a move deletes the old key and adds the new one
  if that key is free.

  Key definitions include:
    * `KeyMap.move`
    * `KeyMap.Exact`

  Key theorems include:
    * `KeyMap.move_apply`
    * `KeyMap.Exact.move`
-/

namespace KeyMap

variable {K R : Type} [DecidableEq K]

/- A row moves from its old key to its new one. -/
def move
    (m : K → Option R)
    (old new : Option K)
    (r : R) :
    K → Option R :=
  let rest := fun k => if old = some k then none else m k
  fun k => if new = some k then (rest k).or (some r) else rest k

/- The index maps exactly the key of every row to the row. -/
def Exact (m : K → Option R) (holder : R → Option K) : Prop :=
  ∀ k r, m k = some r ↔ holder r = some k

section Moves

variable {m : K → Option R} {old new : Option K} {r : R}

/- A move whose keys are the row's own leaves the row's new
  key and nothing of the old one. -/
theorem move_apply
    (hNew : ∀ k q, new = some k → m k = some q → q = r)
    (k : K) :
    move m old new r k =
      if new = some k then
        some r
      else if old = some k then
        none
      else
        m k := by
  unfold move
  by_cases hN : new = some k
  · by_cases hO : old = some k
    · simp [hN, hO]
    · cases hM : m k with
      | none => simp [hN, hO, hM]
      | some q => simp [hN, hO, hM, hNew k q hN hM]
  · simp [hN]

variable [DecidableEq R]
variable {holder : R → Option K}

theorem Exact.move
    (hExact : Exact m holder)
    (hOld : holder r = old)
    (hNew : ∀ k q, new = some k → m k = some q → q = r) :
    Exact (KeyMap.move m old new r) (Function.update holder r new) := by
  intro k q
  rw [move_apply hNew]
  by_cases hQ : q = r
  · subst hQ
    by_cases hN : new = some k
    · simp [hN]
    · by_cases hO : old = some k
      · simp [hN, hO]
      · rw [if_neg hN, if_neg hO, hExact k q, hOld]
        simp [hN, hO]
  · rw [Function.update_of_ne hQ]
    by_cases hN : new = some k
    · -- the key is free or the row's own
      have hOther : holder q ≠ some k := by
        intro hHolds
        exact hQ (hNew k q hN ((hExact k q).mpr hHolds))
      simp [hN, hOther, Ne.symm hQ]
    · by_cases hO : old = some k
      · have hOther : holder q ≠ some k := by
          intro hHolds
          have hMine := (hExact k r).mpr (hOld.trans hO)
          have hTheirs := (hExact k q).mpr hHolds
          rw [hMine] at hTheirs
          exact hQ (Option.some.inj hTheirs).symm
        simp [hN, hO, hOther]
      · rw [if_neg hN, if_neg hO, hExact k q]

end Moves

end KeyMap
