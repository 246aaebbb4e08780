import Mathlib.Data.List.Basic
import Rmdb.Lib.KeyMap

/-
  Taking the keys of some rows of a unique index back.

  Every row has the key that the index has now, an older key
  that it is to get back, and the key that is deleted when
  this happens: the key it has now or, for a row without a
  key, perhaps another one.  The rows are taken back one after
  the other, in the order of a list; a row that comes again is
  passed over.

  Deletes are blind and a key that is taken is not added.  So
  the order matters: a row that has the old key of another row
  has to be taken back first.

  Key definitions include:
    * `KeyMap.Pending`
    * `KeyMap.Retractable`
    * `KeyMap.retracted`

  Key theorems include:
    * `KeyMap.Exact.replace`
    * `KeyMap.Retractable.skip`
    * `KeyMap.Retractable.take`
    * `KeyMap.Retractable.push`
    * `KeyMap.Retractable.foreign`
-/

namespace KeyMap

variable {K R : Type} [DecidableEq R]

------------
-- Moves With A Blind Delete
------------

section Replace

variable {m : K → Option R} {holder : R → Option K}
variable {old new : Option K} {r : R}

/- A row without a key may lose a key too, if that key belongs
  to nobody else. -/
theorem Exact.replace
    [DecidableEq K]
    (hExact : Exact m holder)
    (hHolder : holder r = none ∨ holder r = old)
    (hOld : ∀ k q, old = some k → m k = some q → q = r)
    (hNew : ∀ k q, new = some k → m k = some q → q = r) :
    Exact (KeyMap.move m old new r) (Function.update holder r new) := by
  rcases hHolder with hNone | hSame
  · -- the delete does not find anything
    have hFree : ∀ k, old = some k → m k = none := by
      intro k hK
      cases hM : m k with
      | none => rfl
      | some q =>
        have hHolds := (hExact k q).mp hM
        rw [hOld k q hK hM, hNone] at hHolds
        cases hHolds
    have hMove : KeyMap.move m old new r = KeyMap.move m none new r := by
      funext k
      unfold KeyMap.move
      by_cases hK : old = some k
      · simp [hK, hFree k hK]
      · simp [hK]
    rw [hMove]
    exact hExact.move hNone hNew
  · exact hExact.move hSame hNew

/- Nobody else has the key of a row. -/
omit [DecidableEq R] in
theorem Exact.eq_of_holder
    (hExact : Exact m holder)
    {k : K}
    {q : R}
    (hR : holder r = some k)
    (hQ : holder q = some k) :
    q = r := by
  have hFirst := (hExact k r).mpr hR
  rw [(hExact k q).mpr hQ] at hFirst
  exact Option.some.inj hFirst

/- The rows say what is in the index. -/
omit [DecidableEq R] in
theorem Exact.map_eq
    {m' : K → Option R}
    (hExact : Exact m holder)
    (hOther : Exact m' holder) :
    m = m' := by
  funext k
  apply Option.ext
  intro q
  exact (hExact k q).trans (hOther k q).symm

end Replace

------------
-- Rows That Can Be Taken Back
------------

/- A row that is still to be taken back. -/
structure Pending (todo done : List R) (r : R) : Prop where
  mem : r ∈ todo
  waiting : r ∉ done

/- The index is exact, and taking the rows back in the order
  of the list keeps it so: `was` is the key that a row gets
  back and `lost` the key that is deleted then. -/
structure Retractable
    (m : K → Option R)
    (now was lost : R → Option K)
    (todo done : List R) :
    Prop where
  exact : Exact m now
  live : ∀ r, Pending todo done r → now r = none ∨ now r = lost r
  unique : ∀ r q k, Pending todo done r → Pending todo done q →
      was r = some k → was q = some k → q = r
  -- a row with one of the two keys of another row comes first
  first : ∀ r q k, Pending todo done r → q ≠ r → was r = some k ∨ lost r = some k → now q = some k →
        Pending todo done q ∧ todo.idxOf q < todo.idxOf r
  -- and so does a row that only loses the key
  order : ∀ r q k, Pending todo done r → Pending todo done q →
      q ≠ r → was r = some k → lost q = some k → todo.idxOf q < todo.idxOf r

/- The keys after all rows of the list have been taken back. -/
def retracted
    (now was : R → Option K)
    (todo done : List R)
    (r : R) :
    Option K :=
  if r ∈ todo ∧ r ∉ done then was r else now r

section Retracted

variable {now was : R → Option K} {todo done : List R} {z : R}

theorem retracted_skip (hDone : z ∈ done) :
    retracted now was todo (z :: done) =
      retracted now was (z :: todo) done := by
  funext r
  by_cases hR : r = z
  · simp [retracted, hR, hDone]
  · simp [retracted, hR]

theorem retracted_take (hOpen : z ∉ done) :
    retracted (Function.update now z (was z)) was todo (z :: done) =
      retracted now was (z :: todo) done := by
  funext r
  by_cases hR : r = z
  · simp [retracted, hR, hOpen]
  · simp [retracted, hR]

end Retracted

namespace Retractable

variable {m m' : K → Option R} {now was lost : R → Option K}
variable {todo done : List R} {z : R}

omit [DecidableEq R] in
theorem pending_cons_iff {r : R}
    (hR : r ≠ z) : Pending (z :: todo) done r ↔ Pending todo done r := by
  constructor
  · rintro ⟨hMem, hOpen⟩
    exact ⟨(List.mem_cons.mp hMem).resolve_left hR, hOpen⟩
  · rintro ⟨hMem, hOpen⟩
    exact ⟨List.mem_cons_of_mem z hMem, hOpen⟩

theorem lt_of_cons
    {q r : R}
    (hQ : q ≠ z)
    (hR : r ≠ z)
    (hLt : (z :: todo).idxOf q < (z :: todo).idxOf r) :
    todo.idxOf q < todo.idxOf r := by
  rw [List.idxOf_cons_ne _ (Ne.symm hQ), List.idxOf_cons_ne _ (Ne.symm hR)] at hLt
  omega

theorem cons_lt_of
    {q r : R}
    (hR : r ≠ z)
    (hLt : q = z ∨ todo.idxOf q < todo.idxOf r) :
    (z :: todo).idxOf q < (z :: todo).idxOf r := by
  rw [List.idxOf_cons_ne _ (Ne.symm hR)]
  by_cases hQ : q = z
  · rw [hQ, List.idxOf_cons_self]
    omega
  · rw [List.idxOf_cons_ne _ (Ne.symm hQ)]
    have hBefore := hLt.resolve_left hQ
    omega

/- The front of the list comes before nothing. -/
theorem not_lt_front {q : R} : ¬ (z :: todo).idxOf q < (z :: todo).idxOf z := by
  rw [List.idxOf_cons_self]
  omega

/- There is nothing to take back. -/
theorem nil (hExact : Exact m now) : Retractable m now was lost [] done :=
  ⟨hExact, fun _ hR => absurd hR.mem (by simp), fun _ _ _ hR => absurd hR.mem (by simp),
    fun _ _ _ hR => absurd hR.mem (by simp), fun _ _ _ hR => absurd hR.mem (by simp)⟩

/- The front row leaves the list. -/
theorem drop
    {now' : R → Option K}
    (hRows : Retractable m now was lost (z :: todo) done)
    (hExact : Exact m' now')
    (hNow : ∀ r, r ≠ z → now' r = now r)
    (hFront : ∀ r k, Pending (z :: todo) done r → r ≠ z → was r = some k ∨
      lost r = some k →
        now' z ≠ some k) :
    Retractable m' now' was lost todo (z :: done) := by
  have hNe : ∀ {r}, Pending todo (z :: done) r → r ≠ z := by
    rintro r hR rfl
    exact hR.waiting List.mem_cons_self
  have hMore : ∀ {r}, Pending todo (z :: done) r → Pending (z :: todo) done r :=
    fun hR => ⟨List.mem_cons_of_mem z hR.mem, fun hD => hR.waiting (List.mem_cons_of_mem z hD)⟩
  refine ⟨hExact, ?_, ?_, ?_, ?_⟩
  · intro r hR
    rw [hNow r (hNe hR)]
    exact hRows.live r (hMore hR)
  · intro r q k hR hQ
    exact hRows.unique r q k (hMore hR) (hMore hQ)
  · intro r q k hR hQR hKeys hHas
    have hQ : q ≠ z := by
      rintro rfl
      exact hFront r k (hMore hR) (Ne.symm hQR) hKeys hHas
    rw [hNow q hQ] at hHas
    rcases hRows.first r q k (hMore hR) hQR hKeys hHas with ⟨hPending, hLt⟩
    refine ⟨⟨((pending_cons_iff hQ).mp hPending).mem, ?_⟩, lt_of_cons hQ (hNe hR) hLt⟩
    intro hD
    exact hPending.waiting ((List.mem_cons.mp hD).resolve_left hQ)
  · intro r q k hR hQ hQR hWas hLost
    exact lt_of_cons (hNe hQ) (hNe hR) (hRows.order r q k (hMore hR) (hMore hQ) hQR hWas hLost)

/- A row that has been taken back is passed over. -/
theorem skip (hRows : Retractable m now was lost (z :: todo) done)
    (hDone : z ∈ done) : Retractable m now was lost todo (z :: done) := by
  refine hRows.drop hRows.exact (fun _ _ => rfl) ?_
  intro r k hR hRZ hKeys hHas
  exact (hRows.first r z k hR (Ne.symm hRZ) hKeys hHas).1.waiting hDone

/- A row is taken back. -/
theorem take
    [DecidableEq K]
    (hRows : Retractable m now was lost (z :: todo) done)
    (hOpen : z ∉ done) :
    Retractable (move m (lost z) (was z) z) (Function.update now z (was z))
      was lost todo
      (z :: done) := by
  have hHere : Pending (z :: todo) done z := ⟨List.mem_cons_self, hOpen⟩
  have hMine : ∀ k, was z = some k ∨ lost z = some k → ∀ q, m k = some q → q = z := by
    intro k hKeys q hM
    by_contra hQ
    exact not_lt_front (hRows.first z q k hHere hQ hKeys ((hRows.exact k q).mp hM)).2
  refine hRows.drop (hRows.exact.replace (hRows.live z hHere) (fun k q hK => hMine k (Or.inr hK) q)
    (fun k q hK => hMine k (Or.inl hK) q)) (fun r hR => Function.update_of_ne hR _ _) ?_
  -- the old key of the row is not needed elsewhere
  intro r k hR hRZ hKeys hNow
  rw [Function.update_self] at hNow
  rcases hKeys with hWas | hLost
  · exact hRZ (hRows.unique r z k hR hHere hWas hNow).symm
  · exact not_lt_front (hRows.order z r k hHere hR hRZ hNow hLost)

/- A row gets a new key and comes to the front of the list. It
  is about to lose the new key or, if it has none, the one it
  had. If it was in the list before, no other row may have its
  old key. -/
theorem push
    {new : Option K}
    {now' lost' : R → Option K}
    (hRows : Retractable m now was lost todo [])
    (hExact : Exact m' now')
    (hNow : now' = Function.update now z new)
    (hLost : lost' = Function.update lost z (if new = none then now z else new))
    (hFirst : z ∉ todo → was z = now z)
    (hAgain : z ∈ todo → ∀ q k, q ≠ z → was z = some k →
        now q ≠ some k ∧ (q ∈ todo → lost q ≠ some k)) :
    Retractable m' now' was lost' (z :: todo) [] := by
  have hIn : ∀ {r}, r ∈ todo → Pending todo [] r := fun hR => ⟨hR, by simp⟩
  have hNowZ : now' z = new := by rw [hNow, Function.update_self]
  have hNowNe : ∀ {q}, q ≠ z → now' q = now q := fun hQ => by rw [hNow, Function.update_of_ne hQ]
  have hLostNe : ∀ {q}, q ≠ z → lost' q = lost q := fun hQ => by
    rw [hLost, Function.update_of_ne hQ]
  -- nobody else has a key of the row
  have hMine : ∀ q k, q ≠ z → was z = some k ∨ lost' z = some k → now q ≠ some k := by
    intro q k hQ hKeys hHas
    rcases hKeys with hWas | hLoses
    · by_cases hZ : z ∈ todo
      · exact (hAgain hZ q k hQ hWas).1 hHas
      · exact hQ (hRows.exact.eq_of_holder ((hFirst hZ).symm.trans hWas) hHas)
    · rw [hLost, Function.update_self] at hLoses
      split at hLoses
      · exact hQ (hRows.exact.eq_of_holder hLoses hHas)
      · exact hQ (hExact.eq_of_holder (hNowZ.trans hLoses) ((hNowNe hQ).trans hHas))
  -- and nobody else in the list is about to lose its old key
  have hKept : ∀ q k, q ∈ todo → q ≠ z → was z = some k → lost q ≠ some k := by
    intro q k hQ hNe hWas hLoses
    by_cases hZ : z ∈ todo
    · exact (hAgain hZ q k hNe hWas).2 hQ hLoses
    · have hPending := (hRows.first q z k (hIn hQ) (Ne.symm hNe)
        (Or.inr hLoses) ((hFirst hZ).symm.trans hWas)).1
      exact hZ hPending.mem
  have hOld : ∀ {r}, Pending (z :: todo) [] r → r ≠ z → Pending todo [] r :=
    fun hR hNe => (pending_cons_iff hNe).mp hR
  refine ⟨hExact, ?_, ?_, ?_, ?_⟩
  · intro r hR
    by_cases hZ : r = z
    · subst hZ
      rw [hNowZ, hLost, Function.update_self]
      by_cases hNone : new = none
      · exact Or.inl hNone
      · exact Or.inr (by rw [if_neg hNone])
    · rw [hNowNe hZ, hLostNe hZ]
      exact hRows.live r (hOld hR hZ)
  · have hFront : ∀ q k, q ∈ todo → q ≠ z → was z = some k → was q ≠ some k := by
      intro q k hQ hNe hWas hSame
      by_cases hZ : z ∈ todo
      · exact hNe (hRows.unique z q k (hIn hZ) (hIn hQ) hWas hSame)
      · have hPending := (hRows.first q z k (hIn hQ) (Ne.symm hNe) (Or.inl hSame)
          ((hFirst hZ).symm.trans hWas)).1
        exact hZ hPending.mem
    intro r q k hR hQ hWasR hWasQ
    by_cases hRZ : r = z
    · by_cases hQZ : q = z
      · rw [hRZ, hQZ]
      · subst hRZ
        exact absurd hWasQ (hFront q k (hOld hQ hQZ).mem hQZ hWasR)
    · by_cases hQZ : q = z
      · subst hQZ
        exact absurd hWasR (hFront r k (hOld hR hRZ).mem hRZ hWasQ)
      · exact hRows.unique r q k (hOld hR hRZ) (hOld hQ hQZ) hWasR hWasQ
  · intro r q k hR hQR hKeys hHas
    by_cases hRZ : r = z
    · subst hRZ
      rw [hNowNe hQR] at hHas
      exact absurd hHas (hMine q k hQR hKeys)
    · by_cases hQZ : q = z
      · subst hQZ
        exact ⟨⟨List.mem_cons_self, by simp⟩, cons_lt_of hRZ (Or.inl rfl)⟩
      · rw [hLostNe hRZ] at hKeys
        rw [hNowNe hQZ] at hHas
        rcases hRows.first r q k (hOld hR hRZ) hQR hKeys hHas
          with ⟨hPending, hLt⟩
        exact ⟨(pending_cons_iff hQZ).mpr hPending, cons_lt_of hRZ (Or.inr hLt)⟩
  · intro r q k hR hQ hQR hWas hLoses
    by_cases hRZ : r = z
    · subst hRZ
      rw [hLostNe hQR] at hLoses
      exact absurd hLoses (hKept q k (hOld hQ hQR).mem hQR hWas)
    · by_cases hQZ : q = z
      · exact cons_lt_of hRZ (Or.inl hQZ)
      · rw [hLostNe hQZ] at hLoses
        exact cons_lt_of hRZ (Or.inr (hRows.order r q k
          (hOld hR hRZ) (hOld hQ hQZ) hQR hWas hLoses))

/- Rows outside the list get other keys, none of which a row
  of the list has as its old key or is about to lose. -/
theorem foreign
    [DecidableEq K]
    {now' was' lost' : R → Option K}
    (hRows : Retractable m now was lost todo [])
    (hExact : Exact m' now')
    (hSame : ∀ r ∈ todo, now' r = now r ∧ was' r = was r ∧ lost' r = lost r)
    (hOther : ∀ q k, q ∉ todo → now' q = some k → now q ≠ some k →
        ∀ r ∈ todo, was r ≠ some k ∧ lost r ≠ some k) :
    Retractable m' now' was' lost' todo [] := by
  refine ⟨hExact, ?_, ?_, ?_, ?_⟩
  · intro r hR
    rcases hSame r hR.mem with ⟨hNow, -, hLost⟩
    rw [hNow, hLost]
    exact hRows.live r hR
  · intro r q k hR hQ hWasR hWasQ
    rw [(hSame r hR.mem).2.1] at hWasR
    rw [(hSame q hQ.mem).2.1] at hWasQ
    exact hRows.unique r q k hR hQ hWasR hWasQ
  · intro r q k hR hQR hKeys hHas
    rw [(hSame r hR.mem).2.1, (hSame r hR.mem).2.2] at hKeys
    have hBefore : now q = some k := by
      by_cases hQ : q ∈ todo
      · rw [← (hSame q hQ).1]
        exact hHas
      · by_contra hNot
        rcases hOther q k hQ hHas hNot r hR.mem with ⟨hWas, hLost⟩
        rcases hKeys with h | h
        · exact hWas h
        · exact hLost h
    exact hRows.first r q k hR hQR hKeys hBefore
  · intro r q k hR hQ hQR hWas hLoses
    rw [(hSame r hR.mem).2.1] at hWas
    rw [(hSame q hQ.mem).2.2] at hLoses
    exact hRows.order r q k hR hQ hQR hWas hLoses

end Retractable

end KeyMap
