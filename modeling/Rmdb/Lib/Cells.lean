import Rmdb.Lib.Tower

/-
  The bottom row of a search tree with what its nodes hold.

  Each node of the row has a sorted cell of keys and values.
  The keys that nodes are entered under separate the cells,
  and seen from the levels above they separate all that is
  below a node.

  Key definitions include:
    * `Tower.Filled`
    * `Tower.contents`
    * `Tower.Links.Below`

  Key theorems include:
    * `Tower.Filled.rekey`
    * `Tower.Filled.put`
    * `Tower.Filled.split`
    * `Tower.Filled.mem_cell`
    * `Tower.Links.Stands.bounded`
-/

namespace Tower

variable {K P V : Type} [LinearOrder K]
variable {row left right : List (K × P)} {cell cell' : P → List (K × V)}
variable {e key : K} {x m : P}

------------
-- Cells
------------

/- A key of the row is above the cells before it only. -/
def Apart (cell : P → List (K × V)) (a b : K × P) : Prop :=
  (∀ y ∈ cell a.2, y.1 < b.1) ∧ ∀ y ∈ cell b.2, b.1 ≤ y.1

structure Filled
    (row : List (K × P))
    (cell : P → List (K × V)) :
    Prop where
  sorted : Sorted row
  cells : ∀ a ∈ row, (cell a.2).Pairwise (fun y z => y.1 < z.1)
  apart : row.Pairwise (Apart cell)

/- All keys and values, from left to right. -/
def contents
    (row : List (K × P))
    (cell : P → List (K × V)) :
    List (K × V) :=
  row.flatMap (fun a => cell a.2)

omit [LinearOrder K] in
theorem contents_split : contents (left ++ (e, x) :: right) cell =
      contents left cell ++ cell x ++ contents right cell := by
  simp [contents]

omit [LinearOrder K] in
theorem contents_congr
    (hCell : ∀ a ∈ row, cell' a.2 = cell a.2) :
    contents row cell' = contents row cell :=
  List.flatMap_congr hCell

theorem Filled.contents_sorted
    (hFilled : Filled row cell) :
    (contents row cell).Pairwise (fun y z => y.1 < z.1) := by
  unfold contents
  rw [List.pairwise_flatMap]
  refine ⟨hFilled.cells, hFilled.apart.imp ?_⟩
  intro a b hApart y hY z hZ
  exact lt_of_lt_of_le (hApart.1 y hY) (hApart.2 z hZ)

theorem Filled.congr (hFilled : Filled row cell)
    (hCell : ∀ a ∈ row, cell' a.2 = cell a.2) : Filled row cell' := by
  refine ⟨hFilled.sorted, ?_, ?_⟩
  · intro a hA
    rw [hCell a hA]
    exact hFilled.cells a hA
  · refine hFilled.apart.imp_of_mem ?_
    intro a b hA hB hApart
    unfold Apart
    rw [hCell a hA, hCell b hB]
    exact hApart

/- The keys of a row without the first one. -/
theorem sorted_split :
    Sorted (left ++ (e, x) :: right) ↔ right.Pairwise (fun a b => a.1 < b.1) ∧
        (left ≠ [] → left.tail.Pairwise (fun a b => a.1 < b.1) ∧
          (∀ b ∈ right, e < b.1) ∧
          ∀ a ∈ left.tail, a.1 < e ∧ ∀ b ∈ right, a.1 < b.1) := by
  cases left with
  | nil => simp [Sorted]
  | cons a left =>
    simp only [Sorted, List.cons_append, List.tail_cons, List.pairwise_append, List.pairwise_cons,
      List.forall_mem_cons]
    constructor
    · rintro ⟨hLeft, ⟨hE, hRight⟩, hCross⟩
      exact ⟨hRight, fun _ => ⟨hLeft, hE, hCross⟩⟩
    · rintro ⟨hRight, hRest⟩
      rcases hRest (by simp) with ⟨hLeft, hE, hCross⟩
      exact ⟨hLeft, ⟨hE, hRight⟩, hCross⟩

theorem apart_split : (left ++ (e, x) :: right).Pairwise (Apart cell) ↔
      left.Pairwise (Apart cell) ∧ right.Pairwise (Apart cell) ∧
        (∀ a ∈ left, Apart cell a (e, x)) ∧
        (∀ b ∈ right, Apart cell (e, x) b) ∧ ∀ a ∈ left, ∀ b ∈ right,
          Apart cell a b := by
  simp only [List.pairwise_append, List.pairwise_cons, List.forall_mem_cons]
  constructor
  · rintro ⟨hLeft, ⟨hE, hRight⟩, hCross⟩
    exact ⟨hLeft, hRight, fun a hA => (hCross a hA).1, hE, fun a hA => (hCross a hA).2⟩
  · rintro ⟨hLeft, hRight, hA, hE, hCross⟩
    exact ⟨hLeft, ⟨hE, hRight⟩, fun a hMem => ⟨hA a hMem, hCross a hMem⟩⟩

variable (hFilled : Filled (left ++ (e, x) :: right) cell)
include hFilled

/- What is known about one cell of a row. -/
theorem Filled.bounds {y : K × V}
    (hY : y ∈ cell x) : (left ≠ [] → e ≤ y.1) ∧ ∀ b ∈ right, y.1 < b.1 := by
  rcases apart_split.mp hFilled.apart with ⟨-, -, hA, hB, -⟩
  refine ⟨?_, fun b hMem => (hB b hMem).1 y hY⟩
  intro hLeft
  cases left with
  | nil => exact absurd rfl hLeft
  | cons a left => exact (hA a List.mem_cons_self).2 y hY

/- A node is entered under another key. -/
theorem Filled.rekey
    (hUp : left = [] ∨ e ≤ key)
    (hCell : ∀ y ∈ cell x, key ≤ y.1)
    (hRight : ∀ b ∈ right, key < b.1) :
    Filled (left ++ (key, x) :: right) cell := by
  rcases sorted_split.mp hFilled.sorted with ⟨hSorted, hLeft⟩
  rcases apart_split.mp hFilled.apart with ⟨hL, hR, hA, hB, hAB⟩
  have hE : left ≠ [] → e ≤ key := fun hSome => hUp.resolve_left hSome
  refine ⟨sorted_split.mpr ⟨hSorted, ?_⟩, ?_, apart_split.mpr ⟨hL, hR, ?_, hB, hAB⟩⟩
  · intro hSome
    rcases hLeft hSome with ⟨hTail, -, hCross⟩
    refine ⟨hTail, hRight, ?_⟩
    intro a hMem
    exact ⟨lt_of_lt_of_le (hCross a hMem).1 (hE hSome), (hCross a hMem).2⟩
  · intro a hMem
    have hAny : ∃ k, (k, a.2) ∈ left ++ (e, x) :: right := by
      simp only [List.mem_append, List.mem_cons] at hMem ⊢
      rcases hMem with hMem | rfl | hMem
      · exact ⟨a.1, Or.inl hMem⟩
      · exact ⟨e, Or.inr (Or.inl rfl)⟩
      · exact ⟨a.1, Or.inr (Or.inr hMem)⟩
    rcases hAny with ⟨k, hK⟩
    exact hFilled.cells (k, a.2) hK
  · intro a hMem
    refine ⟨?_, hCell⟩
    intro y hY
    exact lt_of_lt_of_le ((hA a hMem).1 y hY) (hE (List.ne_nil_of_mem hMem))

/- The cell of one node is replaced. -/
theorem Filled.put (hOther : ∀ a ∈ left ++ right, cell' a.2 = cell a.2)
    (hSorted : (cell' x).Pairwise (fun y z => y.1 < z.1))
    (hLow : left ≠ [] → ∀ y ∈ cell' x, e ≤ y.1)
    (hHigh : ∀ y ∈ cell' x, ∀ b ∈ right, y.1 < b.1) :
    Filled (left ++ (e, x) :: right) cell' := by
  rcases apart_split.mp hFilled.apart with ⟨hL, hR, hA, hB, hAB⟩
  have hLeft : ∀ a ∈ left, cell' a.2 = cell a.2 := fun a hMem =>
    hOther a (List.mem_append_left _ hMem)
  have hRight : ∀ b ∈ right, cell' b.2 = cell b.2 := fun b hMem =>
    hOther b (List.mem_append_right _ hMem)
  -- two nodes that keep their cells
  have hKept : ∀ a b, cell' a.2 = cell a.2 →
      cell' b.2 = cell b.2 → Apart cell a b → Apart cell' a b := by
    intro a b hAEq hBEq hApart
    unfold Apart
    rw [hAEq, hBEq]
    exact hApart
  refine ⟨hFilled.sorted, ?_, apart_split.mpr ⟨?_, ?_, ?_, ?_, ?_⟩⟩
  · intro a hMem
    have hMem' := hMem
    simp only [List.mem_append, List.mem_cons] at hMem'
    rcases hMem' with hIn | rfl | hIn
    · rw [hLeft a hIn]
      exact hFilled.cells a hMem
    · exact hSorted
    · rw [hRight a hIn]
      exact hFilled.cells a hMem
  · refine hL.imp_of_mem ?_
    intro a b hMem hMem' hApart
    exact hKept a b (hLeft a hMem) (hLeft b hMem') hApart
  · refine hR.imp_of_mem ?_
    intro a b hMem hMem' hApart
    exact hKept a b (hRight a hMem) (hRight b hMem') hApart
  · intro a hMem
    refine ⟨?_, hLow (List.ne_nil_of_mem hMem)⟩
    rw [hLeft a hMem]
    exact (hA a hMem).1
  · intro b hMem
    refine ⟨fun y hY => hHigh y hY b hMem, ?_⟩
    rw [hRight b hMem]
    exact (hB b hMem).2
  · intro a hMem b hMem'
    exact hKept a b (hLeft a hMem) (hRight b hMem') (hAB a hMem b hMem')

/- The upper part of a cell goes to a new node. -/
theorem Filled.split
    {e' : K}
    {y : K × V}
    {lower upper : List (K × V)}
    (hOther : ∀ a ∈ left ++ right, cell' a.2 = cell a.2)
    (hCell : cell x = lower ++ y :: upper)
    (hSome : lower ≠ [])
    (hLower : cell' x = lower)
    (hUpper : cell' m = y :: upper)
    (hFirst : left = [] ∨ e' = e) :
    Filled (left ++ (e', x) :: (y.1, m) :: right) cell' := by
  have hOwn := hFilled.cells (e, x) (by simp)
  rw [hCell] at hOwn
  rw [List.pairwise_append] at hOwn
  rcases hOwn with ⟨hSortedLow, hSortedUp, hCross⟩
  have hIn : ∀ z ∈ lower, z ∈ cell x := by
    intro z hZ
    rw [hCell]
    exact List.mem_append_left _ hZ
  have hIn' : ∀ z ∈ y :: upper, z ∈ cell x := by
    intro z hZ
    rw [hCell]
    exact List.mem_append_right _ hZ
  have hY : y ∈ cell x := hIn' y List.mem_cons_self
  -- the old node keeps the lower part
  have hPut : Filled (left ++ (e, x) :: right) cell' := by
    refine hFilled.put hOther ?_ ?_ ?_
    · rw [hLower]
      exact hSortedLow
    · rw [hLower]
      intro hLeft z hZ
      exact (hFilled.bounds (hIn z hZ)).1 hLeft
    · rw [hLower]
      intro z hZ
      exact (hFilled.bounds (hIn z hZ)).2
  rcases sorted_split.mp hPut.sorted with ⟨hSorted, hLeft⟩
  rcases apart_split.mp hPut.apart with ⟨hL, hR, hA, hB, hAB⟩
  have hLess : left ≠ [] → e < y.1 := by
    intro hSomeLeft
    rcases List.exists_mem_of_ne_nil lower hSome with ⟨z, hZ⟩
    exact lt_of_le_of_lt ((hFilled.bounds (hIn z hZ)).1 hSomeLeft)
      (hCross z hZ y List.mem_cons_self)
  have hEq : left ≠ [] → e' = e := fun hSomeLeft => hFirst.resolve_left hSomeLeft
  have hAfter : ∀ z ∈ y :: upper, y.1 ≤ z.1 := by
    rw [List.pairwise_cons] at hSortedUp
    intro z hZ
    rcases List.mem_cons.mp hZ with rfl | hZ
    · exact le_refl _
    · exact le_of_lt (hSortedUp.1 z hZ)
  have hYRight : ∀ b ∈ right, y.1 < b.1 := (hFilled.bounds hY).2
  refine ⟨sorted_split.mpr ⟨?_, ?_⟩, ?_, apart_split.mpr ⟨hL, ?_, ?_, ?_, ?_⟩⟩
  · rw [List.pairwise_cons]
    exact ⟨hYRight, hSorted⟩
  · intro hSomeLeft
    rcases hLeft hSomeLeft with ⟨hTail, hE, hRest⟩
    rw [hEq hSomeLeft]
    refine ⟨hTail, ?_, ?_⟩
    · rw [List.forall_mem_cons]
      exact ⟨hLess hSomeLeft, hE⟩
    · intro a hMem
      rw [List.forall_mem_cons]
      exact ⟨(hRest a hMem).1, lt_trans (hRest a hMem).1 (hLess hSomeLeft), (hRest a hMem).2⟩
  · intro a hMem
    simp only [List.mem_append, List.mem_cons] at hMem
    rcases hMem with hMem | rfl | rfl | hMem
    · exact hPut.cells a (List.mem_append_left _ hMem)
    · exact hPut.cells (e, x) (by simp)
    · rw [hUpper]
      exact hSortedUp
    · exact hPut.cells a (by simp [hMem])
  · rw [List.pairwise_cons]
    refine ⟨?_, hR⟩
    intro b hMem
    refine ⟨?_, (hB b hMem).2⟩
    rw [hUpper]
    intro z hZ
    exact (hFilled.bounds (hIn' z hZ)).2 b hMem
  · intro a hMem
    rw [hEq (List.ne_nil_of_mem hMem)]
    exact hA a hMem
  · rw [List.forall_mem_cons]
    refine ⟨⟨?_, ?_⟩, hB⟩
    · rw [hLower]
      intro z hZ
      exact hCross z hZ y List.mem_cons_self
    · rw [hUpper]
      exact hAfter
  · intro a hMem
    rw [List.forall_mem_cons]
    refine ⟨⟨?_, ?_⟩, hAB a hMem⟩
    · intro z hZ
      exact lt_trans ((hA a hMem).1 z hZ) (hLess (List.ne_nil_of_mem hMem))
    · rw [hUpper]
      exact hAfter

omit hFilled

/- A key is found in the cell that it leads to. -/
theorem Filled.mem_cell
    {a : K × P}
    {y : K × V}
    (hFilled : Filled row cell)
    (hLeads : Leads row y.1 a) :
    y ∈ contents row cell ↔ y ∈ cell a.2 := by
  rcases hLeads with ⟨left, right, rfl, hLow, hHigh⟩
  rcases apart_split.mp hFilled.apart with ⟨-, -, hA, hB, -⟩
  rw [contents_split]
  simp only [List.mem_append]
  constructor
  · rintro ((hY | hY) | hY)
    · rcases List.mem_flatMap.mp hY with ⟨b, hMem, hIn⟩
      have hLess := (hA b hMem).1 y hIn
      rcases hLow with rfl | hLow
      · exact absurd hMem List.not_mem_nil
      · exact absurd hLess (not_lt_of_ge hLow)
    · exact hY
    · rcases List.mem_flatMap.mp hY with ⟨b, hMem, hIn⟩
      exact absurd (hHigh b hMem) (not_lt_of_ge ((hB b hMem).2 y hIn))
  · intro hY
    exact Or.inl (Or.inr hY)

------------
-- What Is Below A Node
------------

/- A node is reached by going down through inner nodes. -/
inductive Links.Below
    (v : Links K P)
    (inner : P → Prop) :
    Nat → P → P → Prop
| refl (p : P) : Below v inner 0 p p
| step
    {n : Nat}
    {p q : P}
    {a : K × P}
    (hInner : inner p)
    (hKid : a ∈ v.kids p)
    (hBelow : Below v inner n a.2 q) :
    Below v inner (n + 1) p q

namespace Links

variable {v : Links K P} {inner : P → Prop} {nil root p q : P}
variable {up : List P} {ups : List (List P)} {d n : Nat}

omit [LinearOrder K] in
theorem Below.split
    (hBelow : v.Below inner (d + n) p q) :
    ∃ c, v.Below inner d p c ∧ v.Below inner n c q := by
  induction d generalizing p with
  | zero =>
    rw [Nat.zero_add] at hBelow
    exact ⟨p, .refl p, hBelow⟩
  | succ d ih =>
    rw [Nat.succ_add_eq_add_succ] at hBelow
    cases hBelow with
    | step hInner hKid hRest =>
      rcases ih hRest with ⟨c, hFirst, hLast⟩
      exact ⟨c, .step hInner hKid hFirst, hLast⟩

omit [LinearOrder K] in
theorem Below.snoc
    {a : K × P}
    (hBelow : v.Below inner d p q)
    (hInner : inner q)
    (hKid : a ∈ v.kids q) :
    v.Below inner (d + 1) p a.2 := by
  induction hBelow with
  | refl p => exact .step hInner hKid (.refl a.2)
  | step hHere hFirst _ ih => exact .step hHere hFirst (ih hInner hKid)

omit [LinearOrder K] in
/- All nodes of the row have the same depth. -/
theorem Stands.below
    (hStands : v.Stands nil root row ups)
    (hInner : ∀ p ∈ ups.flatten, inner p)
    {a : K × P}
    (hMem : a ∈ row) :
    v.Below inner ups.length root a.2 := by
  induction ups generalizing row a with
  | nil =>
    rcases hStands with ⟨k, rfl, -⟩
    rw [List.mem_singleton.mp hMem]
    exact .refl root
  | cons up ups ih =>
    rcases hStands with ⟨rfl, hSome, -, hAbove⟩
    rcases List.mem_flatMap.mp hMem with ⟨p, hP, hKid⟩
    have hTag : p ∈ (v.tags up).map Prod.snd := by
      rw [map_snd_tags hSome]
      exact hP
    rcases List.mem_map.mp hTag with ⟨b, hB, rfl⟩
    have hUp := ih hAbove (fun p hP => hInner p (by
      exact List.mem_append_right _ hP)) hB
    refine hUp.snoc (hInner b.2 ?_) hKid
    exact List.mem_append_left _ hP

omit [LinearOrder K] in
/- A node that is reached stands on the level of its depth. -/
theorem Stands.level
    (hStands : v.Stands nil root row ups)
    (hBelow : v.Below inner d root q) :
    d < ups.length ∧ q ∈ ups.flatten ∨ d = ups.length ∧
      q ∈ row.map Prod.snd ∨ ups.length < d := by
  induction ups generalizing row d q with
  | nil =>
    rcases hStands with ⟨k, rfl, -⟩
    cases hBelow with
    | refl => simp
    | step => simp
  | cons up ups ih =>
    rcases hStands with ⟨rfl, hSome, -, hAbove⟩
    have hUp := ih hAbove hBelow
    rw [map_snd_tags hSome] at hUp
    rw [List.flatten_cons, List.length_cons]
    rcases hUp with ⟨hLess, hMem⟩ | ⟨hEq, hMem⟩ | hLess
    · exact Or.inl ⟨by omega, List.mem_append_right _ hMem⟩
    · exact Or.inl ⟨by omega, List.mem_append_left _ hMem⟩
    · by_cases hEq : d = ups.length + 1
      · subst hEq
        refine Or.inr (Or.inl ⟨rfl, ?_⟩)
        rcases hBelow.split with ⟨c, hFirst, hLast⟩
        have hC := ih hAbove hFirst
        rw [map_snd_tags hSome] at hC
        have hIn : c ∈ up := by
          rcases hC with ⟨hBad, -⟩ | ⟨-, hIn⟩ | hBad
          · omega
          · exact hIn
          · omega
        cases hLast with
        | step hInner hKid hEnd =>
          cases hEnd with
          | refl => exact List.mem_map_of_mem (List.mem_flatMap.mpr ⟨c, hIn, hKid⟩)
      · exact Or.inr (Or.inr (by omega))

omit [LinearOrder K] in
/- The nodes of the row end every way down. -/
theorem Stands.level_of_ends
    (hStands : v.Stands nil root row ups)
    (hEnds : ∀ a ∈ row, ¬ inner a.2)
    (hBelow : v.Below inner d root q) :
    q ∈ ups.flatten ∨ d = ups.length ∧ q ∈ row.map Prod.snd := by
  rcases hStands.level hBelow with hUp | hRow | hDeep
  · exact Or.inl hUp.2
  · exact Or.inr hRow
  · -- such a way would go on from a node of the row
    rcases Nat.exists_eq_add_of_lt hDeep with ⟨n, rfl⟩
    rw [Nat.add_assoc] at hBelow
    rcases hBelow.split with ⟨c, hFirst, hLast⟩
    have hC : c ∈ row.map Prod.snd := by
      rcases hStands.level hFirst with ⟨hBad, -⟩ | ⟨-, hIn⟩ | hBad
      · exact absurd hBad (Nat.lt_irrefl _)
      · exact hIn
      · exact absurd hBad (Nat.lt_irrefl _)
    rcases List.mem_map.mp hC with ⟨a, hA, rfl⟩
    cases hLast with
    | step hInner => exact absurd hInner (hEnds a hA)

/- The keys in the cells below a node. -/
def Holds
    (v : Links K P)
    (inner : P → Prop)
    (cell : P → List (K × V))
    (p : P)
    (k : K) :
    Prop :=
  ∃ d q, v.Below inner d p q ∧ ¬ inner q ∧ ∃ y ∈ cell q, y.1 = k

omit [LinearOrder K] in
theorem holds_of_ends {k : K}
    (hEnds : ¬ inner p) : v.Holds inner cell p k ↔ ∃ y ∈ cell p, y.1 = k := by
  constructor
  · rintro ⟨d, q, hBelow, -, hY⟩
    cases hBelow with
    | refl => exact hY
    | step hInner => exact absurd hInner hEnds
  · intro hY
    exact ⟨0, p, .refl p, hEnds, hY⟩

omit [LinearOrder K] in
theorem holds_of_inner {k : K}
    (hInner : inner p) :
    v.Holds inner cell p k ↔ ∃ a ∈ v.kids p, v.Holds inner cell a.2 k := by
  constructor
  · rintro ⟨d, q, hBelow, hEnds, hY⟩
    cases hBelow with
    | refl => exact absurd hInner hEnds
    | step _ hKid hRest => exact ⟨_, hKid, _, q, hRest, hEnds, hY⟩
  · rintro ⟨a, hKid, d, q, hRest, hEnds, hY⟩
    exact ⟨d + 1, q, .step hInner hKid hRest, hEnds, hY⟩

/- Keys are above what earlier nodes hold, and not above more. -/
def Bounded (holds : P → K → Prop) (row : List (K × P)) : Prop :=
  row.Pairwise (fun a b =>
    (∀ k, holds a.2 k → k < b.1) ∧ ∀ k, holds b.2 k → b.1 ≤ k)

theorem Bounded.tags
    {holds : P → K → Prop}
    (hBounded : Bounded holds (up.flatMap v.kids))
    (hSorted : Sorted (up.flatMap v.kids))
    (hSome : ∀ n ∈ up, v.kids n ≠ [])
    (hHolds : ∀ n ∈ up, ∀ k, holds n k → ∃ a ∈ v.kids n, holds a.2 k) :
    Bounded holds (v.tags up) := by
  unfold Bounded at hBounded
  induction up with
  | nil => exact List.Pairwise.nil
  | cons n up ih =>
    cases hN : v.kids n with
    | nil => exact absurd hN (hSome n List.mem_cons_self)
    | cons c rest =>
      rw [List.flatMap_cons] at hBounded hSorted
      rw [List.pairwise_append] at hBounded
      rcases hBounded with ⟨-, hLater, hCross⟩
      have hSortedUp : (up.flatMap v.kids).Pairwise (fun a b => a.1 < b.1) :=
        hSorted.suffix (by rw [hN]; simp)
      rw [tags_cons hN]
      refine List.pairwise_cons.mpr ⟨?_, ?_⟩
      · intro b hB
        rcases List.append_of_mem hB with ⟨tagsL, tagsR, hTags⟩
        rcases tags_eq_append (fun m hM =>
            hSome m (List.mem_cons_of_mem n hM)) hTags with
          ⟨before, after, c', others, hUp, -, -, hKids⟩
        have hFirst : (b.1, c') ∈ up.flatMap v.kids := by
          rw [hUp, List.flatMap_append, List.flatMap_cons, hKids]
          simp
        constructor
        · intro k hK
          rcases hHolds n List.mem_cons_self k hK with ⟨a, hA, hIn⟩
          exact (hCross a hA (b.1, c') hFirst).1 k hIn
        · intro k hK
          have hMem : b.2 ∈ n :: up := by
            rw [hUp]
            simp
          rcases hHolds b.2 hMem k hK with ⟨a, hA, hIn⟩
          have hC : c ∈ v.kids n := by
            rw [hN]
            exact List.mem_cons_self
          have hAMem : a ∈ up.flatMap v.kids := by
            rw [hUp, List.flatMap_append, List.flatMap_cons]
            exact List.mem_append_right _ (List.mem_append_left _ hA)
          have hBelow := (hCross c hC a hAMem).2 k hIn
          -- the first child has the least key
          rw [hKids] at hA
          rcases List.mem_cons.mp hA with rfl | hA
          · exact hBelow
          · rw [hUp, List.flatMap_append, List.flatMap_cons,
              hKids, List.pairwise_append, List.cons_append, List.pairwise_cons] at hSortedUp
            exact le_trans (le_of_lt (hSortedUp.2.1.1 a (List.mem_append_left _ hA))) hBelow
      · refine ih hLater ?_ ?_ ?_
        · exact hSortedUp.sublist (List.tail_sublist _)
        · intro m hM
          exact hSome m (List.mem_cons_of_mem n hM)
        · intro m hM
          exact hHolds m (List.mem_cons_of_mem n hM)

/- The children of every node are sorted and bounded. -/
theorem Stands.bounded
    {holds : P → K → Prop}
    (hStands : v.Stands nil root row ups)
    (hSorted : Sorted row)
    (hBounded : Bounded holds row)
    (hHolds : ∀ n ∈ ups.flatten, ∀ k, holds n k → ∃ a ∈ v.kids n, holds a.2 k)
    (hMem : p ∈ ups.flatten) :
    Sorted (v.kids p) ∧ Bounded holds (v.kids p) := by
  induction ups generalizing row with
  | nil => simp at hMem
  | cons up ups ih =>
    rcases hStands with ⟨rfl, hSome, -, hAbove⟩
    rcases List.mem_append.mp hMem with hMem | hMem
    · rcases List.append_of_mem hMem with ⟨before, after, rfl⟩
      rw [List.flatMap_append, List.flatMap_cons] at hSorted
      refine ⟨hSorted.middle, ?_⟩
      unfold Bounded at hBounded
      rw [List.flatMap_append, List.flatMap_cons,
        List.pairwise_append, List.pairwise_append] at hBounded
      exact hBounded.2.1.1
    · refine ih hAbove (sorted_tags hSome hSorted) ?_ ?_ hMem
      · exact hBounded.tags hSorted hSome (fun n hN => hHolds n (List.mem_append_left _ hN))
      · intro n hN
        exact hHolds n (List.mem_append_right _ hN)

/- The row is bounded by its cells. -/
theorem bounded_of_filled (hFilled : Filled row cell)
    (hEnds : ∀ a ∈ row, ¬ inner a.2) : Bounded (v.Holds inner cell) row := by
  refine hFilled.apart.imp_of_mem ?_
  intro a b hA hB hApart
  constructor
  · intro k hK
    rcases (holds_of_ends (hEnds a hA)).mp hK with ⟨y, hY, rfl⟩
    exact hApart.1 y hY
  · intro k hK
    rcases (holds_of_ends (hEnds b hB)).mp hK with ⟨y, hY, rfl⟩
    exact hApart.2 y hY

end Links

end Tower
