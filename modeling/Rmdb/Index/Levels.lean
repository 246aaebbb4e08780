import Rmdb.Index.IxIndexHandle
import Rmdb.Lib.Tower

/-
  This file sees the pages of an index as the levels of a
  tree.

  Key definitions include:
    * `IxFile.links`
    * `IxFile.Tall`

  Key theorems include:
    * `IxFile.Tall.congr`
    * `IxFile.Tall.replace`
    * `IxFile.Tall.rekey`
-/

namespace Rmdb

open Tower List IxNode

variable {K : Type}

------------
-- Pages And Pins
------------

namespace IxFile

variable {f : IxFile K} {p q : Int} {g : IxNode K → IxNode K}

@[simp]
theorem node_modify_self :
    (f.modify p g).node p = g (f.node p) := Function.update_self p _ f.node

@[simp]
theorem node_modify_of_ne
    (hNe : q ≠ p) :
    (f.modify p g).node q = f.node q := Function.update_of_ne hNe _ f.node

@[simp]
theorem modify_fields : (f.modify p g).numPages = f.numPages ∧
      (f.modify p g).rootPage = f.rootPage ∧
      (f.modify p g).firstLeaf = f.firstLeaf ∧
      (f.modify p g).lastLeaf = f.lastLeaf ∧
      (f.modify p g).btreeOrder = f.btreeOrder :=
  ⟨rfl, rfl, rfl, rfl, rfl⟩

/- The children of a node under their keys. -/
def kids (node : IxNode K) : List (K × Int) :=
  node.pairs.map (fun e => (e.1, e.2.pageNo))

def links (f : IxFile K) : Links K Int :=
  ⟨fun p => kids (f.node p), fun p => (f.node p).parent⟩

end IxFile

namespace IxIndexHandle

variable {s : IxIndexHandle K} {p : Int} {isDirty : Bool}
variable {g : IxNode K → IxNode K}

@[simp]
theorem file_fetchNode : (s.fetchNode p).file = s.file := rfl

@[simp]
theorem file_unpinPage : (s.unpinPage p isDirty).file = s.file := by
  unfold unpinPage
  split
  · rfl
  · rfl

@[simp]
theorem file_modify : (s.modify p g).file = s.file.modify p g := rfl

@[simp]
theorem node_modify_self :
    (s.modify p g).node p = g (s.node p) := IxFile.node_modify_self

@[simp]
theorem node_modify_of_ne {q : Int}
    (hNe : q ≠ p) :
    (s.modify p g).node q = s.node q := IxFile.node_modify_of_ne hNe

end IxIndexHandle

variable {key : K}

------------
-- Children
------------

namespace IxNode

variable {node : IxNode K} {first last : List (K × Int)}
variable {k : K} {x : Int}

variable (hKids : IxFile.kids node = first ++ (k, x) :: last)
include hKids

/- The pairs of a node whose children are known. -/
theorem pairs_of_kids :
    ∃ before rid after, node.pairs = before ++ (k, rid) :: after ∧
      rid.pageNo = x ∧
      before.map (fun e => (e.1, e.2.pageNo)) = first ∧
      after.map (fun e => (e.1, e.2.pageNo)) = last := by
  rcases map_eq_append_iff.mp hKids with ⟨before, rest, hPairs, hFirst, hRest⟩
  rcases map_eq_cons_iff.mp hRest with ⟨⟨k', rid⟩, after, rfl, hEntry, hLast⟩
  cases hEntry
  exact ⟨before, rid, after, hPairs, rfl, hFirst, hLast⟩

theorem kids_set
    {e : K × Rid}
    (hPair : node.pairs[first.length]? = some e) :
    e.1 = k ∧
      IxFile.kids { node with
        pairs := node.pairs.set first.length (key, e.2) } =
        first ++ (key, x) :: last := by
  rcases pairs_of_kids hKids with ⟨before, rid, after, hPairs, rfl, rfl, rfl⟩
  rw [hPairs] at hPair
  simp only [length_map, getElem?_append_right, le_refl,
    Nat.sub_self, getElem?_cons_zero, Option.some.injEq] at hPair
  subst hPair
  refine ⟨rfl, ?_⟩
  unfold IxFile.kids
  simp [hPairs]

theorem findChild_eq (hNew : x ∉ first.map Prod.snd) :
    node.findChild x = first.length := by
  rcases pairs_of_kids hKids with ⟨before, rid, after, hPairs, hRid, rfl, -⟩
  unfold findChild
  rw [hPairs, findIdx_append]
  have hNone : ∀ e ∈ before, ¬ e.2.pageNo = x := by
    intro e hE hX
    refine hNew ?_
    rw [← hX]
    exact mem_map_of_mem (mem_map_of_mem hE)
  have hLength : before.findIdx (fun e => e.2.pageNo = x) =
      before.length := by
    rw [findIdx_eq_length]
    intro e hE
    simpa using hNone e hE
  rw [hLength, findIdx_cons]
  simp [hRid]

theorem kids_insertPairs {new : Int} :
    IxFile.kids (node.insertPairs (first.length + 1) [(key, ⟨new, -1⟩)]) =
      first ++ (k, x) :: (key, new) :: last := by
  rcases pairs_of_kids hKids with ⟨before, rid, after, hPairs, rfl, rfl, rfl⟩
  have hTake : node.pairs.take (before.length + 1) = before ++ [(k, rid)] := by
    rw [hPairs, take_length_add_append]
    rfl
  have hDrop : node.pairs.drop (before.length + 1) = after := by
    rw [hPairs, drop_length_add_append]
    rfl
  unfold IxFile.kids insertPairs
  rw [length_map, hTake, hDrop]
  simp

omit hKids

theorem firstKey?_eq :
    node.firstKey? = (IxFile.kids node).head?.map Prod.fst := by
  unfold firstKey? IxFile.kids
  cases node.pairs with
  | nil => rfl
  | cons e rest => rfl

theorem length_kids : (IxFile.kids node).length = node.getSize := length_map _

end IxNode

------------
-- Levels
------------

/- A row of pages and the levels above it. A node that is not
  being worked on has room for one more pair. -/
structure IxFile.Tall
    (f : IxFile K)
    (row : List (K × Int))
    (ups : List (List Int)) :
    Prop where
  stands : f.links.Stands ixNoPage f.rootPage row ups
  nodup : (Links.nodes row ups).Nodup
  pages : ∀ p ∈ Links.nodes row ups, 2 ≤ p ∧ p < f.numPages
  inner : ∀ p ∈ ups.flatten, (f.node p).isLeaf = false ∧ (f.node p).getSize ≤ f.btreeOrder

namespace IxFile

variable {f f' : IxFile K} {row : List (K × Int)}
variable {up : List Int} {ups : List (List Int)}

/- The level above a row. -/
theorem Tall.above (hTall : f.Tall row (up :: ups)) :
    f.Tall (f.links.tags up) ups := by
  rcases hTall.stands with ⟨-, hSome, -, hAbove⟩
  have hNodes : Links.nodes (f.links.tags up) ups = (up :: ups).flatten := by
    unfold Links.nodes
    rw [Links.map_snd_tags hSome, flatten_cons]
  refine ⟨hAbove, ?_, ?_, ?_⟩
  · rw [hNodes]
    exact (nodup_append.mp hTall.nodup).2.1
  · intro p hP
    rw [hNodes] at hP
    exact hTall.pages p (mem_append_right _ hP)
  · intro p hP
    refine hTall.inner p ?_
    exact mem_append_right _ hP

/- A row and a level that are put under the others. -/
theorem Tall.push
    (hAbove : f.Tall (f.links.tags up) ups)
    (hRow : up.flatMap f.links.kids = row)
    (hSome : ∀ n ∈ up, f.links.kids n ≠ [])
    (hParent : ∀ n ∈ up, ∀ e ∈ f.links.kids n, (f.node e.2).parent = n)
    (hNodup : (Links.nodes row (up :: ups)).Nodup)
    (hPages : ∀ e ∈ row, 2 ≤ e.2 ∧ e.2 < f.numPages)
    (hInner : ∀ p ∈ up, (f.node p).isLeaf = false ∧
        (f.node p).getSize ≤ f.btreeOrder) :
    f.Tall row (up :: ups) := by
  have hNodes : Links.nodes (f.links.tags up) ups = (up :: ups).flatten := by
    unfold Links.nodes
    rw [Links.map_snd_tags hSome, flatten_cons]
  refine ⟨⟨hRow, hSome, hParent, hAbove.stands⟩, hNodup, ?_, ?_⟩
  · intro p hP
    rcases mem_append.mp hP with hP | hP
    · rcases mem_map.mp hP with ⟨e, hE, rfl⟩
      exact hPages e hE
    · rw [← hNodes] at hP
      exact hAbove.pages p hP
  · intro p hP
    rcases mem_append.mp hP with hP | hP
    · exact hInner p hP
    · exact hAbove.inner p hP

/- Only upper nodes and the parents of the row count. -/
theorem Tall.congr
    (hTall : f.Tall row ups)
    (hRoot : f'.rootPage = f.rootPage)
    (hOrder : f'.btreeOrder = f.btreeOrder)
    (hNum : f.numPages ≤ f'.numPages)
    (hNode : ∀ p ∈ ups.flatten, f'.node p = f.node p)
    (hParent : ∀ e ∈ row, (f'.node e.2).parent = (f.node e.2).parent) :
    f'.Tall row ups := by
  refine ⟨?_, hTall.nodup, ?_, ?_⟩
  · rw [hRoot]
    refine hTall.stands.congr ?_ ?_
    · intro p hP
      change kids (f'.node p) = kids (f.node p)
      rw [hNode p hP]
    · intro p hP
      change (f'.node p).parent = (f.node p).parent
      rcases mem_append.mp hP with hP | hP
      · rcases mem_map.mp hP with ⟨e, hE, rfl⟩
        exact hParent e hE
      · rw [hNode p hP]
  · intro p hP
    have hRange := hTall.pages p hP
    exact ⟨hRange.1, lt_of_lt_of_le hRange.2 hNum⟩
  · intro p hP
    rw [hNode p hP, hOrder]
    exact hTall.inner p hP

variable {before after : List Int} {n : Int}

/- The entry of a node that is on the level. -/
theorem tags_split (hKey : (f.node n).firstKey? = some key) :
    f.links.tags (before ++ n :: after) =
      f.links.tags before ++ (key, n) :: f.links.tags after := by
  rw [firstKey?_eq] at hKey
  rcases Option.map_eq_some_iff.mp hKey with ⟨e, hHead, rfl⟩
  rcases head?_eq_some_iff.mp hHead with ⟨rest, hKids⟩
  rw [Links.tags_append, Links.tags_cons hKids]

/- A page stands on one level only. -/
theorem Tall.apart (hTall : f.Tall row ((before ++ n :: after) :: ups)) :
    n ∉ before ++ after ∧ (∀ p ∈ before ++ n :: after, p ∉ ups.flatten) ∧
      ∀ e ∈ row, e.2 ∉ before ++ n :: after ∧ e.2 ∉ ups.flatten := by
  have hNodup := hTall.nodup
  unfold Links.nodes at hNodup
  rw [flatten_cons, nodup_append] at hNodup
  rcases hNodup with ⟨-, hUps, hRow⟩
  rw [nodup_append] at hUps
  refine ⟨?_, ?_, ?_⟩
  · exact (nodup_middle.mp hUps.1).notMem
  · intro p hP hUp
    exact hUps.2.2 p hP p hUp rfl
  · intro e hE
    have hOff := hRow e.2 (mem_map_of_mem hE)
    exact ⟨fun hP => hOff e.2 (mem_append_left _ hP) rfl,
      fun hP => hOff e.2 (mem_append_right _ hP) rfl⟩

theorem Tall.sides (hTall : f.Tall row ((before ++ n :: after) :: ups)) :
    ∀ p ∈ before ++ after, p ∉ n :: ups.flatten := by
  rcases hTall.apart with ⟨hOnce, hUps, -⟩
  intro p hP hBad
  rcases mem_cons.mp hBad with rfl | hBad
  · exact hOnce hP
  · refine hUps p ?_ hBad
    simp only [mem_append, mem_cons] at hP ⊢
    tauto

variable {node : IxNode K}

/- A node with children has a first key. -/
theorem exists_firstKey (hSome : kids node ≠ []) :
    ∃ key, node.firstKey? = some key := by
  rw [firstKey?_eq]
  cases hKids : kids node with
  | nil => exact absurd hKids hSome
  | cons e rest => exact ⟨e.1, rfl⟩

/- A node with the same children. -/
structure Similar (node node' : IxNode K) : Prop where
  kids : IxFile.kids node' = IxFile.kids node
  isLeaf : node'.isLeaf = node.isLeaf

variable {node' : IxNode K}

theorem Similar.of_eq (hEq : node' = node) : Similar node node' := by
  rw [hEq]
  exact ⟨rfl, rfl⟩

theorem Similar.getSize (hSimilar : Similar node node') :
    node'.getSize = node.getSize := by
  rw [← length_kids, ← length_kids, hSimilar.kids]

/- Some nodes of a level are put in the place of one. -/
theorem Tall.replace
    {ups' : List (List Int)}
    (mid : List Int)
    (hTall : f.Tall row ((before ++ n :: after) :: ups))
    (hAbove : f'.Tall (f'.links.tags (before ++ mid ++ after)) ups')
    (hOrder : f'.btreeOrder = f.btreeOrder)
    (hNode : ∀ p ∈ before ++ after, Similar (f.node p) (f'.node p))
    (hParent : ∀ p ∈ before ++ after, ∀ e ∈ kids (f.node p),
        (f'.node e.2).parent = (f.node e.2).parent)
    (hMid : ∀ m ∈ mid, kids (f'.node m) ≠ [] ∧
      (∀ e ∈ kids (f'.node m), (f'.node e.2).parent = m) ∧
        (f'.node m).isLeaf = false ∧ (f'.node m).getSize ≤ f'.btreeOrder)
    (hNodup : (Links.nodes (before.flatMap f.links.kids ++
      mid.flatMap f'.links.kids ++
          after.flatMap f.links.kids) ((before ++ mid ++ after) :: ups')).Nodup)
    (hPages : ∀ e ∈ before.flatMap f.links.kids ++
          mid.flatMap f'.links.kids ++ after.flatMap f.links.kids, 2 ≤ e.2 ∧
          e.2 < f'.numPages) :
    f'.Tall (before.flatMap f.links.kids ++ mid.flatMap f'.links.kids ++
      after.flatMap f.links.kids)
      ((before ++ mid ++ after) :: ups') := by
  rcases hTall.stands with ⟨-, hSome, hUp, -⟩
  have hKids : ∀ p ∈ before ++ after, f'.links.kids p = f.links.kids p := by
    intro p hP
    exact (hNode p hP).kids
  have hBefore : before.flatMap f'.links.kids = before.flatMap f.links.kids :=
    Links.flatMap_congr (fun p hP => hKids p (mem_append_left _ hP))
  have hAfter : after.flatMap f'.links.kids = after.flatMap f.links.kids :=
    Links.flatMap_congr (fun p hP => hKids p (mem_append_right _ hP))
  -- a node of the level is one of the new ones or an old one
  have hCases : ∀ p ∈ before ++ mid ++ after, p ∈ mid ∨ p ∈ before ++ after := by
    intro p hP
    simp only [mem_append] at hP ⊢
    tauto
  have hOld : ∀ p ∈ before ++ after, p ∈ before ++ n :: after := by
    intro p hP
    simp only [mem_append, mem_cons] at hP ⊢
    tauto
  refine hAbove.push ?_ ?_ ?_ hNodup hPages ?_
  · rw [flatMap_append, flatMap_append, hBefore, hAfter]
  · intro p hP
    rcases hCases p hP with hM | hP
    · exact (hMid p hM).1
    · rw [hKids p hP]
      exact hSome p (hOld p hP)
  · intro p hP e hE
    rcases hCases p hP with hM | hP
    · exact (hMid p hM).2.1 e hE
    · rw [hKids p hP] at hE
      rw [hParent p hP e hE]
      exact hUp p (hOld p hP) e hE
  · intro p hP
    rcases hCases p hP with hM | hP
    · exact (hMid p hM).2.2
    · rw [(hNode p hP).isLeaf, (hNode p hP).getSize, hOrder]
      refine hTall.inner p ?_
      exact mem_append_left _ (hOld p hP)

variable {left right : List (K × Int)}

/- The place of a page in its parent. -/
theorem Tall.locate
    {e : K}
    {x : Int}
    (hTall : f.Tall (left ++ (e, x) :: right) (up :: ups)) :
    ∃ before n after first last, up = before ++ n :: after ∧
      kids (f.node n) = first ++ (e, x) :: last ∧ (f.node x).parent = n ∧
      left = before.flatMap f.links.kids ++ first ∧
      right = last ++ after.flatMap f.links.kids ∧
      x ∉ first.map Prod.snd ∧ n ≠ ixNoPage := by
  rcases hTall.stands.locate with
    ⟨before, n, after, first, last, hUp, hKids, hParent, hLeft, hRight⟩
  refine ⟨before, n, after, first, last, hUp, hKids, hParent, hLeft, hRight, ?_, ?_⟩
  · have hRow := (nodup_append.mp hTall.nodup).1
    intro hMem
    rw [hLeft, map_append, map_append, map_cons, nodup_append] at hRow
    exact hRow.2.2 x (mem_append_right _ hMem) x mem_cons_self rfl
  · have hRange := hTall.pages n (by simp [Links.nodes, hUp])
    intro hBad
    rw [hBad] at hRange
    exact absurd hRange.1 (by decide)

/- The entry of one node is changed in tags and elsewhere not. -/
theorem tags_of_same
    (hNode : ∀ p ∈ before ++ after, Similar (f.node p) (f'.node p))
    (hKey : (f'.node n).firstKey? = some key) :
    f'.links.tags (before ++ n :: after) =
      f.links.tags before ++ (key, n) :: f.links.tags after := by
  rw [tags_split hKey]
  have hKids : ∀ p ∈ before ++ after, f'.links.kids p = f.links.kids p := by
    intro p hP
    exact (hNode p hP).kids
  rw [Links.tags_congr (fun p hP =>
      hKids p (mem_append_left _ hP)), Links.tags_congr (fun p hP =>
      hKids p (mem_append_right _ hP))]

/- A page is entered under another key. -/
theorem Tall.rekey
    {first last : List (K × Int)}
    {x : Int}
    {e : K}
    (hTall : f.Tall (left ++ (e, x) :: right) ((before ++ n :: after) :: ups))
    (hKids : kids (f.node n) = first ++ (e, x) :: last)
    (hLeft : left = before.flatMap f.links.kids ++ first)
    (hRight : right = last ++ after.flatMap f.links.kids)
    (hKids' : kids (f'.node n) = first ++ (key, x) :: last)
    (hLeaf : (f'.node n).isLeaf = (f.node n).isLeaf)
    (hNode : ∀ p, p ∉ n :: ups.flatten → f'.node p = f.node p)
    (hOrder : f'.btreeOrder = f.btreeOrder)
    (hNum : f'.numPages = f.numPages)
    (hAbove : f'.Tall (f'.links.tags (before ++ n :: after)) ups) :
    f'.Tall (left ++ (key, x) :: right) ((before ++ n :: after) :: ups) := by
  rcases hTall.apart with ⟨-, -, hOff⟩
  have hSides := hTall.sides
  have hRow : ∀ e' ∈ left ++ (e, x) :: right, f'.node e'.2 = f.node e'.2 := by
    intro e' hE
    refine hNode e'.2 ?_
    intro hBad
    rcases mem_cons.mp hBad with hBad | hBad
    · exact (hOff e' hE).1 (by rw [hBad]; simp)
    · exact (hOff e' hE).2 hBad
  have hUp := hTall.stands.2.2.1
  have hFlat : before.flatMap f.links.kids ++
      [n].flatMap f'.links.kids ++ after.flatMap f.links.kids = left ++ (key, x) :: right := by
    have hN : f'.links.kids n = first ++ (key, x) :: last := hKids'
    rw [hLeft, hRight]
    simp [hN]
  have hOldRow : ∀ p ∈ before ++ n :: after,
      ∀ e' ∈ f.links.kids p, e' ∈ left ++ (e, x) :: right := by
    intro p hP e' hE
    rw [← hTall.stands.1]
    exact mem_flatMap.mpr ⟨p, hP, hE⟩
  have hPagesEq : (left ++ (key, x) :: right).map Prod.snd =
      (left ++ (e, x) :: right).map Prod.snd := by
    simp
  have hNew := Tall.replace [n] hTall (by simpa using hAbove) hOrder
    (fun p hP => Similar.of_eq (hNode p (hSides p hP))) ?_ ?_ ?_ ?_
  · rw [hFlat] at hNew
    simpa using hNew
  · intro p hP e' hE
    have hIn : p ∈ before ++ n :: after := by
      simp only [mem_append, mem_cons] at hP ⊢
      tauto
    rw [hRow e' (hOldRow p hIn e' hE)]
  · intro m hM
    rw [mem_singleton.mp hM]
    refine ⟨by rw [hKids']; simp, ?_, ?_, ?_⟩
    · intro e' hE
      rw [hKids'] at hE
      have hAny : ∃ a, (a, e'.2) ∈ kids (f.node n) := by
        rw [hKids]
        simp only [mem_append, mem_cons] at hE ⊢
        rcases hE with hE | rfl | hE
        · exact ⟨e'.1, Or.inl hE⟩
        · exact ⟨e, Or.inr (Or.inl rfl)⟩
        · exact ⟨e'.1, Or.inr (Or.inr hE)⟩
      rcases hAny with ⟨a, hA⟩
      have hMem := hOldRow n (by simp) (a, e'.2) hA
      rw [hRow (a, e'.2) hMem]
      exact hUp n (by simp) (a, e'.2) hA
    · rw [hLeaf]
      exact (hTall.inner n (by simp)).1
    · have hSize := (hTall.inner n (by simp)).2
      rw [← length_kids, hKids] at hSize
      rw [hOrder, ← length_kids, hKids']
      simpa using hSize
  · rw [hFlat]
    have hNodup := hTall.nodup
    unfold Links.nodes at hNodup ⊢
    simpa using hNodup
  · rw [hFlat]
    intro e' hE
    rw [hNum]
    refine hTall.pages e'.2 (mem_append_left _ ?_)
    rw [← hPagesEq]
    exact mem_map_of_mem hE

end IxFile

end Rmdb
