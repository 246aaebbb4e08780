import Mathlib.Data.List.Nodup
import Mathlib.Logic.Function.Basic

/-
  A singly linked list whose links stand in the elements
  themselves: where the list starts and which element each
  element points to.  An element that is not in the list has a
  link as well, which nobody follows.

  The walk to the predecessor of an element reads the elements
  it passes, and reading can fail.  On a list that ends and
  whose elements can all be read it finds the predecessor if
  there is one.

  Key definitions include:
    * `LinkChain.Links`
    * `LinkChain.findPrev`

  Key theorems include:
    * `LinkChain.Links.push`
    * `LinkChain.Links.unlink`
    * `LinkChain.findPrev_of_links`
-/

namespace LinkChain

open Function

variable {P : Type}

/- The elements of the list that starts at an element. -/
def Links (next : P → P) (nil : P) : P → List P → Prop
| first, [] => first = nil
| first, p :: ps =>
  first = p ∧ p ≠ nil ∧ Links next nil (next p) ps

section Links

variable {next next' : P → P}
variable {nil first p q : P}
variable {ps l₁ l₂ : List P}

theorem Links.congr
    (hLinks : Links next nil first ps)
    (hSame : ∀ a ∈ ps, next' a = next a) :
    Links next' nil first ps := by
  induction ps generalizing first with
  | nil => exact hLinks
  | cons a ps ih =>
    rcases hLinks with ⟨hFirst, hNil, hRest⟩
    refine ⟨hFirst, hNil, ?_⟩
    rw [hSame a (by simp)]
    exact ih hRest (fun b hB => hSame b (by simp [hB]))

/- A list that does not start with `nil` has a head. -/
theorem Links.head
    (hLinks : Links next nil p ps)
    (hNil : p ≠ nil) :
    ∃ l, ps = p :: l := by
  cases ps with
  | nil => exact absurd hLinks hNil
  | cons a ps => exact ⟨ps, by rw [hLinks.1]⟩

variable [DecidableEq P]

/- A new element comes to the front. -/
theorem Links.push
    (hLinks : Links next nil first ps)
    (hNil : p ≠ nil)
    (hNew : p ∉ ps) :
    Links (update next p first) nil p (p :: ps) := by
  refine ⟨rfl, hNil, ?_⟩
  rw [update_self]
  refine hLinks.congr ?_
  intro a hA
  exact update_of_ne (ne_of_mem_of_not_mem hA hNew) _ _

/- The element behind another one is taken out. -/
theorem Links.unlink
    (hLinks : Links next nil first (l₁ ++ q :: p :: l₂))
    (hNodup : (l₁ ++ q :: p :: l₂).Nodup) :
    Links (update (update next q (next p)) p nil) nil first
      (l₁ ++ q :: l₂) := by
  induction l₁ generalizing first with
  | nil =>
    rcases hLinks with ⟨hFirst, hNil, hNext, -, hRest⟩
    rw [List.nil_append, List.nodup_cons, List.nodup_cons,
      List.mem_cons, not_or] at hNodup
    rcases hNodup with ⟨⟨hNe, hQ⟩, hP, -⟩
    refine ⟨hFirst, hNil, ?_⟩
    rw [update_of_ne hNe, update_self]
    refine hRest.congr ?_
    intro a hA
    rw [update_of_ne (ne_of_mem_of_not_mem hA hP),
      update_of_ne (ne_of_mem_of_not_mem hA hQ)]
  | cons a l₁ ih =>
    rcases hLinks with ⟨hFirst, hNil, hRest⟩
    rw [List.cons_append, List.nodup_cons] at hNodup
    have hNotMem : a ∉ l₁ ++ q :: p :: l₂ := hNodup.1
    have hP : a ≠ p := fun h => hNotMem (by simp [h])
    have hQ : a ≠ q := fun h => hNotMem (by simp [h])
    refine ⟨hFirst, hNil, ?_⟩
    rw [update_of_ne hP, update_of_ne hQ]
    exact ih hRest hNodup.2

end Links

section Walk

variable {E : Type} [DecidableEq P]

/- Walk from an element to the one that points to `p`.  The
  walk gives up after a number of steps. -/
def findPrev
    (read : P → Except E Unit)
    (endless : E)
    (next : P → P)
    (nil p : P) :
    Nat → P → Except E (Option P)
| 0, _ => .error endless
| fuel + 1, prev =>
  if prev = nil then
    .ok none
  else do
    read prev
    if next prev = p then
      .ok (some prev)
    else
      findPrev read endless next nil p fuel (next prev)

variable {read : P → Except E Unit}
variable {next : P → P}
variable {nil first p : P}
variable {ps : List P}

theorem findPrev_of_links
    (endless : E)
    {fuel : Nat}
    (hLinks : Links next nil first ps)
    (hRead : ∀ a ∈ ps, read a = .ok ())
    (hFuel : ps.length < fuel)
    (hNil : p ≠ nil)
    (hFirst : first ≠ p) :
    p ∉ ps ∧
        findPrev read endless next nil p fuel first =
          .ok none ∨
      ∃ q l₁ l₂, ps = l₁ ++ q :: p :: l₂ ∧
        findPrev read endless next nil p fuel first =
          .ok (some q) := by
  induction ps generalizing first fuel with
  | nil =>
    obtain ⟨n, rfl⟩ : ∃ n, fuel = n + 1 :=
      ⟨fuel - 1, by simp at hFuel; omega⟩
    have hEnd : first = nil := hLinks
    exact Or.inl ⟨by simp, by simp [findPrev, hEnd]⟩
  | cons a ps ih =>
    rcases hLinks with ⟨rfl, hA, hRest⟩
    obtain ⟨n, rfl⟩ : ∃ n, fuel = n + 1 :=
      ⟨fuel - 1, by simp at hFuel; omega⟩
    have hHere := hRead first (by simp)
    by_cases hNext : next first = p
    · rw [hNext] at hRest
      rcases hRest.head hNil with ⟨l, rfl⟩
      refine Or.inr ⟨first, [], l, rfl, ?_⟩
      simp [findPrev, hA, hHere, hNext, bind, Except.bind]
    · have hStep :
          findPrev read endless next nil p (n + 1) first =
            findPrev read endless next nil p n
              (next first) := by
        simp [findPrev, hA, hHere, hNext, bind, Except.bind]
      rw [hStep]
      rcases ih hRest (fun b hB => hRead b (by simp [hB]))
        (by simpa using hFuel) hNext with
        ⟨hOut, hEnd⟩ | ⟨q, l₁, l₂, rfl, hFound⟩
      · exact Or.inl ⟨by simp [hOut, Ne.symm hFirst], hEnd⟩
      · exact Or.inr ⟨q, first :: l₁, l₂, rfl, hFound⟩

end Walk

end LinkChain
