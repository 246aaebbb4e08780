import Mathlib.Data.List.Basic

/-
  Binary search in an interval, and the place where a sorted
  list is cut by a key.

  Key definitions include:
    * `Bisect.search`

  Key theorems include:
    * `Bisect.search_eq`
    * `Bisect.search_append`
    * `Bisect.exists_cut`
-/

namespace Bisect

/- The loop over `[left, right)`: the upper half is kept as
  long as the test holds in the middle. -/
def search (p : Nat → Bool) :
    Nat → Nat → Nat → Nat
| 0, left, _ => left
| fuel + 1, left, right =>
  if left < right then
    let mid := (left + right) / 2
    if p mid then
      search p fuel (mid + 1) right
    else
      search p fuel left mid
  else
    left

/- The test holds exactly below the result. -/
theorem search_eq
    {p : Nat → Bool}
    {cut : Nat}
    (fuel left right : Nat)
    (hFuel : right - left ≤ fuel)
    (hLeft : left ≤ cut)
    (hRight : cut ≤ right)
    (hCut : ∀ i, left ≤ i → i < right → (p i = true ↔ i < cut)) :
    search p fuel left right = cut := by
  induction fuel generalizing left right with
  | zero =>
    have hEq : left = cut := by omega
    exact hEq
  | succ fuel ih =>
    unfold search
    by_cases hLess : left < right
    · rw [if_pos hLess]
      have hMid := hCut ((left + right) / 2) (by omega) (by omega)
      simp only
      split
      · rename_i hTest
        have hBelow := hMid.mp hTest
        refine ih _ _ (by omega) (by omega) hRight ?_
        intro i hI hI'
        exact hCut i (by omega) hI'
      · rename_i hTest
        have hAbove : ¬ (left + right) / 2 < cut := fun hBelow => hTest (hMid.mpr hBelow)
        refine ih _ _ (by omega) hLeft (by omega) ?_
        intro i hI hI'
        exact hCut i hI (by omega)
    · rw [if_neg hLess]
      omega

/- The search for the end of the first part of a list. -/
theorem search_append
    {α : Type}
    {q : α → Bool}
    {first last : List α}
    (from_ : Nat)
    (hFrom : from_ ≤ first.length)
    (hFirst : ∀ a ∈ first.drop from_, q a = true)
    (hLast : ∀ a ∈ last, q a = false) :
    search (fun i => ((first ++ last)[i]?).any q)
      (first ++ last).length from_ (first ++ last).length =
      first.length := by
  apply search_eq
  · omega
  · exact hFrom
  · simp
  · intro i hI hI'
    by_cases hLess : i < first.length
    · rw [List.getElem?_append_left hLess]
      have hMem : first[i] ∈ first.drop from_ := by
        rw [List.mem_drop_iff_getElem]
        exact ⟨i - from_, by omega, by simp [Nat.add_sub_cancel' hI]⟩
      simp [hLess, hFirst _ hMem]
    · simp only [hLess, iff_false]
      rw [List.getElem?_append_right (by omega)]
      rw [List.length_append] at hI'
      have hIn : i - first.length < last.length := by omega
      simp [hIn, hLast _ (List.getElem_mem hIn)]

/- A sorted list is cut in two by a test. -/
theorem exists_cut
    {α : Type}
    {r : α → α → Prop}
    (q : α → Bool)
    (hDown : ∀ a b, r a b → q b = true → q a = true)
    {l : List α}
    (hSorted : l.Pairwise r) :
    ∃ first last, l = first ++ last ∧ (∀ a ∈ first, q a = true) ∧
      ∀ b ∈ last, q b = false := by
  induction l with
  | nil => exact ⟨[], [], rfl, by simp, by simp⟩
  | cons a l ih =>
    rw [List.pairwise_cons] at hSorted
    cases hTest : q a with
    | true =>
      rcases ih hSorted.2 with ⟨first, last, rfl, hFirst, hLast⟩
      refine ⟨a :: first, last, rfl, ?_, hLast⟩
      intro b hB
      rcases List.mem_cons.mp hB with rfl | hB
      · exact hTest
      · exact hFirst b hB
    | false =>
      refine ⟨[], a :: l, rfl, by simp, ?_⟩
      intro b hB
      rcases List.mem_cons.mp hB with rfl | hB
      · exact hTest
      · by_contra hNot
        have hUp := hDown a b (hSorted.1 b hB) (by simpa using hNot)
        rw [hTest] at hUp
        cases hUp

end Bisect
