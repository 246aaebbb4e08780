import Mathlib.Data.List.Basic
import Mathlib.Data.List.Nodup
import Mathlib.Order.Lattice
import Rmdb.Lib.Bisect

/-
  Search trees of equal depth, seen level by level.

  A level is the list of its nodes from left to right.  The
  children of all nodes of a level, put together, are the
  level below.  A node is entered in its parent under a key,
  and the key of an inner node is that of its first child.
  The first key of a level is never looked at.

  Seen so, a node can be split without a change to the level
  below, and a search only compares keys of one level.

  Key definitions include:
    * `Tower.Links`
    * `Tower.Links.Stands`
    * `Tower.Sorted`
    * `Tower.Leads`
    * `Tower.Links.Path`

  Key theorems include:
    * `Tower.Links.Stands.congr`
    * `Tower.Links.Stands.locate`
    * `Tower.Links.Stands.path`
-/

namespace Tower

variable {K P : Type}

/- An element of lists that are put together is in one of them. -/
theorem exists_of_flatMap_eq
    {α β : Type}
    {f : α → List β}
    {l : List α}
    {left right : List β}
    {e : β}
    (hFlat : l.flatMap f = left ++ e :: right) :
    ∃ before n after first last, l = before ++ n :: after ∧
      f n = first ++ e :: last ∧
      left = before.flatMap f ++ first ∧ right = last ++ after.flatMap f := by
  induction l generalizing left with
  | nil => simp at hFlat
  | cons a l ih =>
    -- the element comes after the first list or is in it
    have hLater : ∀ rest, left = f a ++ rest → l.flatMap f = rest ++ e :: right →
        ∃ before n after first last, a :: l = before ++ n :: after ∧ f n = first ++ e :: last ∧
          left = before.flatMap f ++ first ∧ right = last ++ after.flatMap f := by
      intro rest hLeft hRest
      rcases ih hRest with ⟨before, n, after, first, last, hL, hN, hRest', hRight⟩
      refine ⟨a :: before, n, after, first, last, ?_, hN, ?_, hRight⟩
      · rw [hL]
        rfl
      · rw [hLeft, hRest', List.flatMap_cons, List.append_assoc]
    rcases List.append_eq_append_iff.mp hFlat with ⟨rest, hLeft, hRest⟩ | ⟨rest, hFirst, hRest⟩
    · exact hLater rest hLeft hRest
    · cases rest with
      | nil =>
        rw [List.append_nil] at hFirst
        exact hLater [] (by rw [hFirst, List.append_nil]) hRest.symm
      | cons b rest =>
        rw [List.cons_append, List.cons.injEq] at hRest
        rcases hRest with ⟨rfl, hRight⟩
        exact ⟨[], a, l, left, rest, rfl, hFirst, rfl, hRight⟩

------------
-- Levels
------------

/- The children of a node under their keys, and its parent. -/
structure Links (K P : Type) where
  kids : P → List (K × P)
  parent : P → P

namespace Links

variable {v v' : Links K P} {root nil : P}
variable {row : List (K × P)} {up : List P}
variable {ups : List (List P)}

/- The nodes of a level under their first keys. -/
def tags (v : Links K P) (up : List P) : List (K × P) :=
  up.filterMap (fun n =>
    (v.kids n).head?.map (fun e => (e.1, n)))

/- A row of nodes is the bottom of the levels above it. -/
def Stands
    (v : Links K P)
    (nil root : P) :
    List (K × P) → List (List P) → Prop
| row, [] => ∃ k, row = [(k, root)] ∧ v.parent root = nil
| row, up :: ups =>
  up.flatMap v.kids = row ∧
    (∀ n ∈ up, v.kids n ≠ []) ∧
    (∀ n ∈ up, ∀ e ∈ v.kids n, v.parent e.2 = n) ∧
    v.Stands nil root (v.tags up) ups

/- All nodes, each of them once. -/
def nodes (row : List (K × P)) (ups : List (List P)) : List P :=
  row.map Prod.snd ++ ups.flatten

@[simp]
theorem tags_nil : v.tags [] = [] := rfl

theorem tags_cons
    {n : P}
    {e : K × P}
    {rest : List (K × P)}
    (hKids : v.kids n = e :: rest) :
    v.tags (n :: up) = (e.1, n) :: v.tags up := by
  simp [tags, hKids]

theorem tags_append (left right : List P) :
    v.tags (left ++ right) = v.tags left ++ v.tags right :=
  List.filterMap_append

theorem map_snd_tags (hKids : ∀ n ∈ up, v.kids n ≠ []) :
    (v.tags up).map Prod.snd = up := by
  induction up with
  | nil => rfl
  | cons n up ih =>
    have hRest := ih (fun m hM => hKids m (List.mem_cons_of_mem n hM))
    cases hN : v.kids n with
    | nil => exact absurd hN (hKids n List.mem_cons_self)
    | cons e rest => rw [tags_cons hN, List.map_cons, hRest]

theorem tags_congr (hKids : ∀ n ∈ up, v'.kids n = v.kids n) :
    v'.tags up = v.tags up := by
  apply List.filterMap_congr
  intro n hN
  rw [hKids n hN]

theorem flatMap_congr
    (hKids : ∀ n ∈ up, v'.kids n = v.kids n) :
    up.flatMap v'.kids = up.flatMap v.kids :=
  List.flatMap_congr hKids

/- Only the children of upper nodes and all parents count. -/
theorem Stands.congr (hStands : v.Stands nil root row ups)
    (hKids : ∀ n ∈ ups.flatten, v'.kids n = v.kids n)
    (hParent : ∀ n ∈ nodes row ups, v'.parent n = v.parent n) :
    v'.Stands nil root row ups := by
  induction ups generalizing row with
  | nil =>
    rcases hStands with ⟨k, rfl, hRoot⟩
    refine ⟨k, rfl, ?_⟩
    rw [hParent root (by simp [nodes])]
    exact hRoot
  | cons up ups ih =>
    rcases hStands with ⟨hFlat, hSome, hUp, hAbove⟩
    have hHere : ∀ n ∈ up, v'.kids n = v.kids n := by
      intro n hN
      exact hKids n (by simp [hN])
    refine ⟨?_, ?_, ?_, ?_⟩
    · rw [flatMap_congr hHere]
      exact hFlat
    · intro n hN
      rw [hHere n hN]
      exact hSome n hN
    · intro n hN e hE
      rw [hHere n hN] at hE
      have hMem : e ∈ row := by
        rw [← hFlat]
        exact List.mem_flatMap.mpr ⟨n, hN, hE⟩
      rw [hParent e.2 (List.mem_append_left _ (List.mem_map_of_mem hMem))]
      exact hUp n hN e hE
    · rw [tags_congr hHere]
      refine ih hAbove ?_ ?_
      · intro n hN
        exact hKids n (by
          exact List.mem_append_right _ hN)
      · intro n hN
        refine hParent n (List.mem_append_right _ ?_)
        unfold nodes at hN
        rw [map_snd_tags hSome] at hN
        exact hN

/- No level is empty. -/
theorem Stands.row_ne_nil (hStands : v.Stands nil root row ups) : row ≠ [] := by
  induction ups generalizing row with
  | nil =>
    rcases hStands with ⟨k, rfl, -⟩
    exact List.cons_ne_nil _ _
  | cons up ups ih =>
    rcases hStands with ⟨rfl, hSome, -, hAbove⟩
    have hUp := ih hAbove
    cases up with
    | nil => exact absurd rfl hUp
    | cons n up =>
      exact List.append_ne_nil_of_left_ne_nil (hSome n List.mem_cons_self) _

/- All children know their parent, and the root has none. -/
theorem Stands.parents (hStands : v.Stands nil root row ups) :
    v.parent root = nil ∧ ∀ n ∈ ups.flatten, ∀ e ∈ v.kids n,
      v.parent e.2 = n := by
  induction ups generalizing row with
  | nil =>
    rcases hStands with ⟨k, -, hRoot⟩
    exact ⟨hRoot, by simp⟩
  | cons up ups ih =>
    rcases hStands with ⟨-, -, hUp, hAbove⟩
    rcases ih hAbove with ⟨hRoot, hUps⟩
    refine ⟨hRoot, ?_⟩
    intro n hN
    rcases List.mem_append.mp hN with hN | hN
    · exact hUp n hN
    · exact hUps n hN

/- The place of a node in its parent. -/
theorem Stands.locate
    {left right : List (K × P)}
    {e : K × P}
    (hStands : v.Stands nil root (left ++ e :: right) (up :: ups)) :
    ∃ before n after first last, up = before ++ n :: after ∧
      v.kids n = first ++ e :: last ∧
      v.parent e.2 = n ∧ left = before.flatMap v.kids ++ first ∧
      right = last ++ after.flatMap v.kids := by
  rcases hStands with ⟨hFlat, -, hUp, -⟩
  rcases exists_of_flatMap_eq hFlat with ⟨before, n, after, first, last, hSplit, hN, hLeft, hRight⟩
  refine ⟨before, n, after, first, last, hSplit, hN, ?_, hLeft, hRight⟩
  exact hUp n (by simp [hSplit]) e (by simp [hN])

theorem tags_sublist
    (up : List P) :
    ((v.tags up).map Prod.fst).Sublist ((up.flatMap v.kids).map Prod.fst) := by
  induction up with
  | nil => simp
  | cons n up ih =>
    cases hN : v.kids n with
    | nil =>
      have hTags : v.tags (n :: up) = v.tags up := by simp [tags, hN]
      rw [hTags, List.flatMap_cons, hN, List.nil_append]
      exact ih
    | cons e rest =>
      rw [tags_cons hN, List.flatMap_cons, hN]
      simp only [List.map_cons, List.cons_append, List.map_append]
      exact (List.sublist_append_of_sublist_right ih).cons_cons e.1

/- The levels of a part of the tags. -/
theorem tags_eq_append
    {left right : List (K × P)}
    {e : K × P}
    (hSome : ∀ n ∈ up, v.kids n ≠ [])
    (hTags : v.tags up = left ++ e :: right) :
    ∃ before after c rest, up = before ++ e.2 :: after ∧ v.tags before = left ∧
      v.tags after = right ∧ v.kids e.2 = (e.1, c) :: rest := by
  rcases List.filterMap_eq_append_iff.mp hTags with ⟨before, others, rfl, hLeft, hOthers⟩
  rcases List.filterMap_eq_cons_iff.mp hOthers with ⟨skipped, n, after, rfl, hSkipped, hN, hRight⟩
  have hNone : skipped = [] := by
    cases skipped with
    | nil => rfl
    | cons m skipped =>
      have hM := hSkipped m List.mem_cons_self
      rw [Option.map_eq_none_iff, List.head?_eq_none_iff] at hM
      exact absurd hM (hSome m (by simp))
  subst hNone
  rcases Option.map_eq_some_iff.mp hN with ⟨⟨k, c⟩, hHead, rfl⟩
  rcases List.head?_eq_some_iff.mp hHead with ⟨rest, hKids⟩
  exact ⟨before, after, c, rest, rfl, hLeft, hRight, hKids⟩

end Links

------------
-- Search
------------

section Search

variable [LinearOrder K] {row : List (K × P)} {k : K}

/- The keys of a row increase, the first one apart. -/
def Sorted (row : List (K × P)) : Prop :=
  row.tail.Pairwise (fun a b => a.1 < b.1)

/- The entry of a row that a key belongs to. -/
def Leads (row : List (K × P)) (k : K) (e : K × P) : Prop :=
  ∃ left right, row = left ++ e :: right ∧
    (left = [] ∨ e.1 ≤ k) ∧
    ∀ b ∈ right, k < b.1

theorem exists_leads
    (k : K)
    (hSorted : Sorted row)
    (hSome : row ≠ []) :
    ∃ e, Leads row k e := by
  cases row with
  | nil => exact absurd rfl hSome
  | cons a row =>
    have hCut := Bisect.exists_cut (fun e : K × P => decide (e.1 ≤ k)) (fun a b hLess hB => by
        simp only [decide_eq_true_eq] at hB ⊢
        exact le_trans (le_of_lt hLess) hB) hSorted
    rcases hCut with ⟨first, last, hRow, hFirst, hLast⟩
    have hRight : ∀ b ∈ last, k < b.1 := by
      intro b hB
      simpa using hLast b hB
    rw [List.tail_cons] at hRow
    rcases List.eq_nil_or_concat first with rfl | ⟨init, e, rfl⟩
    · exact ⟨a, [], last, by rw [hRow]; rfl, Or.inl rfl, hRight⟩
    · have hLess : e.1 ≤ k := by simpa using hFirst e (by simp)
      refine ⟨e, a :: init, last, ?_, Or.inr hLess, hRight⟩
      rw [hRow]
      simp

/- The entries up to the one that a key belongs to. -/
theorem Sorted.le_of_leads
    {left right : List (K × P)}
    {e b : K × P}
    (hSorted : Sorted (left ++ e :: right))
    (hLow : left = [] ∨ e.1 ≤ k)
    (hMem : b ∈ (left ++ [e]).drop 1) :
    b.1 ≤ k := by
  cases left with
  | nil => simp at hMem
  | cons a left =>
    have hE : e.1 ≤ k := hLow.resolve_left (List.cons_ne_nil a left)
    unfold Sorted at hSorted
    rw [List.cons_append, List.tail_cons, List.pairwise_append] at hSorted
    have hCases : b ∈ left ∨ b = e := by simpa using hMem
    rcases hCases with hMem | rfl
    · exact le_trans (le_of_lt (hSorted.2.2 b hMem e List.mem_cons_self)) hE
    · exact hE

theorem Sorted.suffix
    {left right : List (K × P)}
    (hSorted : Sorted (left ++ right))
    (hLeft : left ≠ []) :
    right.Pairwise (fun a b => a.1 < b.1) := by
  cases left with
  | nil => exact absurd rfl hLeft
  | cons a left =>
    unfold Sorted at hSorted
    rw [List.cons_append, List.tail_cons, List.pairwise_append] at hSorted
    exact hSorted.2.1

theorem Sorted.middle {left middle right : List (K × P)}
    (hSorted : Sorted (left ++ (middle ++ right))) : Sorted middle := by
  refine List.Pairwise.sublist ?_ hSorted
  cases left with
  | nil =>
    cases middle with
    | nil => exact List.nil_sublist _
    | cons e middle => exact List.sublist_append_left middle right
  | cons a left =>
    exact (List.tail_sublist middle).trans ((List.sublist_append_left middle right).trans
        (List.sublist_append_right left _))

theorem sorted_of_map_fst
    {row' : List (K × P)}
    (hSorted : Sorted row)
    (hSub : (row'.map Prod.fst).tail.Sublist (row.map Prod.fst).tail) :
    Sorted row' := by
  have hKeys : (row.map Prod.fst).tail.Pairwise (· < ·) := by
    rw [← List.map_tail, List.pairwise_map]
    exact hSorted
  have hKeys' := hKeys.sublist hSub
  rw [← List.map_tail, List.pairwise_map] at hKeys'
  exact hKeys'

namespace Links

variable {v : Links K P} {root nil : P}
variable {up : List P} {ups : List (List P)}

/- The keys of a level are some of those below. -/
theorem sorted_tags (hSome : ∀ n ∈ up, v.kids n ≠ [])
    (hSorted : Sorted (up.flatMap v.kids)) : Sorted (v.tags up) := by
  refine sorted_of_map_fst hSorted ?_
  cases up with
  | nil => simp
  | cons n up =>
    cases hN : v.kids n with
    | nil => exact absurd hN (hSome n List.mem_cons_self)
    | cons e rest =>
      rw [tags_cons hN, List.flatMap_cons, hN]
      simp only [List.map_cons, List.cons_append, List.map_append, List.tail_cons]
      exact List.sublist_append_of_sublist_right (tags_sublist up)

/- A search goes on from a level to the one below. -/
theorem leads_flatMap
    {e c : K × P}
    (hSome : ∀ n ∈ up, v.kids n ≠ [])
    (hSorted : Sorted (up.flatMap v.kids))
    (hLeads : Leads (v.tags up) k e)
    (hChild : Leads (v.kids e.2) k c) :
    Leads (up.flatMap v.kids) k c := by
  rcases hLeads with ⟨left, right, hTags, hLow, hHigh⟩
  rcases tags_eq_append hSome hTags with ⟨before, after, c₀, rest, hUp, hLeft, hRight, hFirst⟩
  rcases hChild with ⟨first, last, hKids, hLow', hHigh'⟩
  have hFlat : up.flatMap v.kids = (before.flatMap v.kids ++ first) ++
        c :: (last ++ after.flatMap v.kids) := by
    rw [hUp]
    simp [List.flatMap_append, List.flatMap_cons, hKids]
  refine ⟨_, _, hFlat, ?_, ?_⟩
  · rcases hLow' with rfl | hLess
    · -- the first child has the key of the node
      have hKey : c.1 = e.1 := by
        rw [hFirst, List.nil_append, List.cons.injEq] at hKids
        rw [← hKids.1]
      rcases hLow with rfl | hLess
      · left
        have hNone : before = [] := by
          cases before with
          | nil => rfl
          | cons n before =>
            have hBefore : ∀ m ∈ n :: before, v.kids m ≠ [] := by
              intro m hM
              refine hSome m ?_
              rw [hUp]
              exact List.mem_append_left _ hM
            have hN := map_snd_tags hBefore
            rw [hLeft] at hN
            cases hN
        rw [hNone]
        rfl
      · right
        rw [hKey]
        exact hLess
    · exact Or.inr hLess
  · intro b hB
    rcases List.mem_append.mp hB with hB | hB
    · exact hHigh' b hB
    · -- the next node is entered above the key
      cases after with
      | nil => simp at hB
      | cons m after =>
        cases hM : v.kids m with
        | nil => exact absurd hM (hSome m (by rw [hUp]; simp))
        | cons x others =>
          have hX : k < x.1 := by
            refine hHigh (x.1, m) ?_
            rw [← hRight, tags_cons hM]
            exact List.mem_cons_self
          have hEnd : up.flatMap v.kids = (before.flatMap v.kids ++ first ++ c :: last) ++
                x :: (others ++ after.flatMap v.kids) := by
            rw [hFlat, List.flatMap_cons, hM]
            simp
          rw [hEnd] at hSorted
          have hTail := hSorted.suffix (by simp)
          rw [List.flatMap_cons, hM, List.cons_append] at hB
          rcases List.mem_cons.mp hB with rfl | hB
          · exact hX
          · rw [List.pairwise_cons] at hTail
            exact lt_trans hX (hTail.1 b hB)

/- The way of a search down to a node, through inner nodes
  only. -/
inductive Path
    (v : Links K P)
    (k : K)
    (inner : P → Prop) :
    Nat → P → P → Prop
| refl (x : P) : Path v k inner 0 x x
| step
    {n : Nat}
    {x y : P}
    {e : K × P}
    (hInner : inner x)
    (hLeads : Leads (v.kids x) k e)
    (hPath : Path v k inner n e.2 y) :
    Path v k inner (n + 1) x y

theorem Path.snoc
    {inner : P → Prop}
    {n : Nat}
    {x y : P}
    {e : K × P}
    (hPath : v.Path k inner n x y)
    (hInner : inner y)
    (hLeads : Leads (v.kids y) k e) :
    v.Path k inner (n + 1) x e.2 := by
  induction hPath with
  | refl x => exact .step hInner hLeads (.refl e.2)
  | step hHere hFirst _ ih => exact .step hHere hFirst (ih hInner hLeads)

theorem Path.mono
    {inner inner' : P → Prop}
    {n : Nat}
    {x y : P}
    (hPath : v.Path k inner n x y)
    (hSub : ∀ x, inner x → inner' x) :
    v.Path k inner' n x y := by
  induction hPath with
  | refl x => exact .refl x
  | step hHere hFirst _ ih => exact .step (hSub _ hHere) hFirst ih

/- A search ends at the entry that its key belongs to. -/
theorem Stands.path
    (k : K)
    (hStands : v.Stands nil root row ups)
    (hSorted : Sorted row) :
    ∃ e, Leads row k e ∧ v.Path k (· ∈ ups.flatten) ups.length root e.2 := by
  induction ups generalizing row with
  | nil =>
    rcases hStands with ⟨k₀, rfl, -⟩
    exact ⟨(k₀, root), ⟨[], [], rfl, Or.inl rfl, by simp⟩, .refl root⟩
  | cons up ups ih =>
    rcases hStands with ⟨rfl, hSome, -, hAbove⟩
    rcases ih hAbove (sorted_tags hSome hSorted) with ⟨e, hLeads, hPath⟩
    have hUp : e.2 ∈ up := by
      rcases hLeads with ⟨left, right, hTags, -⟩
      rw [← map_snd_tags hSome, hTags]
      simp
    -- the entry's node has a place for the key
    have hKids : Sorted (v.kids e.2) := by
      rcases List.append_of_mem hUp with ⟨before, after, hSplit⟩
      have hFlat : up.flatMap v.kids = before.flatMap v.kids ++
          (v.kids e.2 ++ after.flatMap v.kids) := by
        conv_lhs => rw [hSplit]
        simp [List.flatMap_append, List.flatMap_cons]
      rw [hFlat] at hSorted
      exact hSorted.middle
    rcases exists_leads k hKids (hSome e.2 hUp) with ⟨c, hChild⟩
    refine ⟨c, leads_flatMap hSome hSorted hLeads hChild, ?_⟩
    refine (hPath.mono ?_).snoc ?_ hChild
    · intro x hX
      exact List.mem_append_right _ hX
    · exact List.mem_append_left _ hUp

end Links

end Search

end Tower
