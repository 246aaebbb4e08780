import Mathlib.Data.Int.Interval
import Rmdb.Index.Ascend
import Rmdb.Lib.Cells

/-
  This file says what the pages of an index look like between
  two calls: the levels of the tree, the chain of its leaves,
  and the keys in them.

  Key definitions include:
    * `IxFile.Linked`
    * `IxFile.Shape`
    * `IxFile.entries`

  Key theorems include:
    * `IxFile.Shape.fill`
    * `IxFile.Shape.relevel`
    * `IxFile.Shape.split`
-/

namespace Rmdb

open Tower List

variable {K : Type}

------------
-- Sorted Nodes
------------

namespace IxNode

variable [LinearOrder K] {node : IxNode K} {key : K} {value : Rid}
variable {first last : List (K × Rid)}

/- The keys of a node are cut in two by a key. -/
structure Cut
    (node : IxNode K)
    (key : K)
    (first last : List (K × Rid)) :
    Prop where
  pairs : node.pairs = first ++ last
  first : ∀ y ∈ first, y.1 < key
  last : ∀ y ∈ last, key ≤ y.1

theorem exists_cut
    (key : K)
    (hSorted : node.pairs.Pairwise (fun y z => y.1 < z.1)) :
    ∃ first last, node.Cut key first last := by
  rcases Bisect.exists_cut (fun y : K × Rid => decide (y.1 < key)) (fun y z hLess hZ => by
        simp only [decide_eq_true_eq] at hZ ⊢
        exact lt_trans hLess hZ) hSorted with
    ⟨first, last, hPairs, hFirst, hLast⟩
  refine ⟨first, last, hPairs, ?_, ?_⟩
  · intro y hY
    simpa using hFirst y hY
  · intro y hY
    simpa using hLast y hY

theorem Cut.lowerBound (hCut : node.Cut key first last) :
    node.lowerBound key = first.length := by
  unfold IxNode.lowerBound getSize
  rw [hCut.pairs]
  refine Bisect.search_append 0 (Nat.zero_le _) ?_ ?_
  · intro y hY
    simpa using hCut.first y hY
  · intro y hY
    simpa using hCut.last y hY

theorem Cut.slot
    (hCut : node.Cut key first last) :
    node.pairs[node.lowerBound key]? = last.head? := by
  rw [hCut.lowerBound, hCut.pairs, getElem?_append_right (le_refl _), Nat.sub_self]
  exact head?_eq_getElem?.symm

/- The key is in the node, or it is not. -/
theorem cut_cases
    (key : K)
    (hSorted : node.pairs.Pairwise (fun y z => y.1 < z.1)) :
    (∃ first value last, node.Cut key first ((key, value) :: last) ∧
      ∀ y ∈ last, key < y.1) ∨
      ∃ first last, node.Cut key first last ∧ ∀ y ∈ last, key < y.1 := by
  rcases exists_cut key hSorted with ⟨first, last, hCut⟩
  cases last with
  | nil => exact Or.inr ⟨first, [], hCut, by simp⟩
  | cons y last =>
    have hLater : ∀ z ∈ last, y.1 < z.1 := by
      rw [hCut.pairs, pairwise_append, pairwise_cons] at hSorted
      exact hSorted.2.1.1
    rcases eq_or_lt_of_le (hCut.last y mem_cons_self) with
      hEq | hLess
    · subst hEq
      exact Or.inl ⟨first, y.2, last, hCut, hLater⟩
    · refine Or.inr ⟨first, y :: last, hCut, ?_⟩
      rw [forall_mem_cons]
      exact ⟨hLess, fun z hZ => lt_trans hLess (hLater z hZ)⟩

section Present

variable (hCut : node.Cut key first ((key, value) :: last))

include hCut

theorem Cut.leafLookup_some : node.leafLookup key = some value := by
  unfold leafLookup
  rw [hCut.slot]
  simp

theorem Cut.insert_known (value' : Rid) : node.insert key value' = node := by
  unfold insert
  simp only
  rw [hCut.slot]
  simp

theorem Cut.remove_known :
    node.remove key = { node with pairs := first ++ last } := by
  unfold remove erasePair
  simp only
  rw [hCut.slot, hCut.lowerBound, hCut.pairs]
  simp [eraseIdx_append_of_length_le]

end Present

section Absent

variable
    (hCut : node.Cut key first last)
    (hLast : ∀ y ∈ last, key < y.1)

include hCut hLast

theorem Cut.head_ne : last.head?.any (fun y => decide (y.1 = key)) = false := by
  cases last with
  | nil => rfl
  | cons y last =>
    have hLess := hLast y mem_cons_self
    simp [ne_of_gt hLess]

theorem Cut.leafLookup_none : node.leafLookup key = none := by
  unfold leafLookup
  rw [hCut.slot]
  have hNe := hCut.head_ne hLast
  cases last with
  | nil => rfl
  | cons y last =>
    simp only [head?_cons, Option.any_some, decide_eq_false_iff_not] at hNe ⊢
    exact if_neg hNe

theorem Cut.insert_new (value : Rid) :
    node.insert key value =
      { node with pairs := first ++ (key, value) :: last } := by
  unfold insert insertPairs
  simp only
  rw [hCut.slot, hCut.head_ne hLast, hCut.lowerBound, hCut.pairs]
  simp

theorem Cut.remove_absent : node.remove key = node := by
  unfold remove
  simp only
  rw [hCut.slot, hCut.head_ne hLast]
  simp

end Absent

end IxNode

------------
-- The Chain Of Leaves
------------

namespace IxFile

variable {f f' : IxFile K} {pages before after : List Int}
variable {prev next p new : Int}

/- Each leaf knows the one before and the one behind it. -/
def Linked (f : IxFile K) : Int → List Int → Int → Prop
| _, [], _ => True
| prev, p :: rest, next =>
  (f.node p).prevLeaf = prev ∧
    (f.node p).nextLeaf = rest.headD next ∧
    f.Linked p rest next

theorem linked_append :
    f.Linked prev (before ++ p :: after) next ↔ f.Linked prev before p ∧
        f.Linked (before.getLastD prev) (p :: after) next := by
  induction before generalizing prev with
  | nil => simp [Linked]
  | cons q before ih =>
    have hHead : (before ++ p :: after).headD next = before.headD p := by
      cases before with
      | nil => rfl
      | cons r before => rfl
    have hLast : (q :: before).getLastD prev = before.getLastD q := by
      cases before with
      | nil => rfl
      | cons r before => rfl
    rw [cons_append]
    unfold Linked
    rw [ih, hHead, hLast]
    constructor
    · rintro ⟨hPrev, hNext, hBefore, hRest⟩
      exact ⟨⟨hPrev, hNext, hBefore⟩, hRest⟩
    · rintro ⟨⟨hPrev, hNext, hBefore⟩, hRest⟩
      exact ⟨hPrev, hNext, hBefore, hRest⟩

theorem Linked.congr (hLinked : f.Linked prev pages next)
    (hNode : ∀ p ∈ pages, (f'.node p).prevLeaf = (f.node p).prevLeaf ∧
        (f'.node p).nextLeaf = (f.node p).nextLeaf) :
    f'.Linked prev pages next := by
  induction pages generalizing prev with
  | nil => trivial
  | cons p rest ih =>
    rcases hLinked with ⟨hPrev, hNext, hRest⟩
    have hP := hNode p mem_cons_self
    refine ⟨hP.1.trans hPrev, hP.2.trans hNext, ih hRest ?_⟩
    intro q hQ
    exact hNode q (mem_cons_of_mem p hQ)

/- A new leaf is linked in behind another one. -/
theorem Linked.insert (hLinked : f.Linked prev (before ++ p :: after) next)
    (hSelf : (f'.node p).prevLeaf = (f.node p).prevLeaf ∧
      (f'.node p).nextLeaf = new)
    (hNew : (f'.node new).prevLeaf = p ∧
      (f'.node new).nextLeaf = (f.node p).nextLeaf)
    (hNext : ∀ q ∈ after.head?, (f'.node q).prevLeaf = new ∧
        (f'.node q).nextLeaf = (f.node q).nextLeaf)
    (hOthers : ∀ q ∈ before ++ after.tail,
      (f'.node q).prevLeaf = (f.node q).prevLeaf ∧
          (f'.node q).nextLeaf = (f.node q).nextLeaf) :
    f'.Linked prev (before ++ p :: new :: after) next := by
  rw [linked_append] at hLinked ⊢
  rcases hLinked with ⟨hBefore, hPrev, hP, hAfter⟩
  refine ⟨hBefore.congr (fun q hQ => hOthers q
    (mem_append_left _ hQ)), hSelf.1.trans hPrev, hSelf.2, hNew.1, hNew.2.trans hP, ?_⟩
  cases after with
  | nil => trivial
  | cons q after =>
    rcases hAfter with ⟨-, hQ, hRest⟩
    have hHead := hNext q rfl
    refine ⟨hHead.1, hHead.2.trans hQ, ?_⟩
    exact hRest.congr (fun r hR => hOthers r (mem_append_right _ hR))

end IxFile

------------
-- The Split Of A Leaf
------------

namespace IxIndexHandle

variable {s : IxIndexHandle K} {page new : Int}

theorem file_linkNext {next : Int} :
    (s.linkNext next new).file =
      if next = ixLeafHeaderPage then
        s.file
      else
        s.file.modify next (fun n => { n with prevLeaf := new }) := by
  unfold linkNext
  split
  · rfl
  · simp

/- The new leaf is linked in. -/
structure LinksLeaf (page new : Int) (f f' : IxFile K) : Prop where
  numPages : f'.numPages = f.numPages
  rootPage : f'.rootPage = f.rootPage
  firstLeaf : f'.firstLeaf = f.firstLeaf
  order : f'.btreeOrder = f.btreeOrder
  lastLeaf : f'.lastLeaf = if f.lastLeaf = page then new else f.lastLeaf
  self : f'.node page = { f.node page with nextLeaf := new }
  added :
    f'.node new = { f.node new with
      prevLeaf := page, nextLeaf := (f.node page).nextLeaf }
  next : (f.node page).nextLeaf ≠ ixLeafHeaderPage → f'.node (f.node page).nextLeaf =
        { f.node (f.node page).nextLeaf with prevLeaf := new }
  others : ∀ p, p ≠ page → p ≠ new → p ≠ (f.node page).nextLeaf → f'.node p = f.node p

/- The links without those of the leaf that was split. -/
theorem node_linkNext
    {f : IxFile K}
    {next : Int}
    (hNew : next ≠ new)
    (hFile :
      s.file = f.modify new (fun n => { n with
        prevLeaf := page, nextLeaf := next })) :
    f.Same [new, next] (s.linkNext next new).file ∧
        (s.linkNext next new).file.node new =
        { f.node new with prevLeaf := page, nextLeaf := next } ∧
        (next ≠ ixLeafHeaderPage →
        (s.linkNext next new).file.node next =
          { f.node next with prevLeaf := new }) := by
  rw [file_linkNext, hFile]
  split
  · rename_i hHead
    refine ⟨⟨rfl, rfl, rfl, rfl, rfl, ?_⟩, ?_, ?_⟩
    · intro p hP
      simp only [mem_cons, not_or] at hP
      exact IxFile.node_modify_of_ne hP.1
    · exact IxFile.node_modify_self
    · intro hNot
      exact absurd hHead hNot
  · refine ⟨⟨rfl, rfl, rfl, rfl, rfl, ?_⟩, ?_, ?_⟩
    · intro p hP
      simp only [mem_cons, not_mem_nil, or_false, not_or] at hP
      rw [IxFile.node_modify_of_ne hP.2, IxFile.node_modify_of_ne hP.1]
    · rw [IxFile.node_modify_of_ne hNew.symm, IxFile.node_modify_self]
    · intro _
      rw [IxFile.node_modify_self, IxFile.node_modify_of_ne hNew]

theorem linksLeaf
    (hPage : page ≠ new)
    (hNext : (s.node page).nextLeaf ≠ page)
    (hNew : (s.node page).nextLeaf ≠ new) :
    LinksLeaf page new s.file (s.linkLeaf page new).file := by
  rcases node_linkNext (f := s.file)
    (s := s.modify new (fun n => { n with
      prevLeaf := page, nextLeaf := (s.node page).nextLeaf }))
    hNew rfl with ⟨hSame, hAdded, hBehind⟩
  unfold linkLeaf
  simp only
  generalize IxIndexHandle.linkNext _ _ _ = s₂ at hSame hAdded hBehind ⊢
  have hPage₂ : s₂.node page = s.node page := hSame.node page (by simp [hPage, hNext.symm])
  have hSelf : (s₂.modify page (fun n =>
      { n with nextLeaf := new })).node page =
      { s.node page with nextLeaf := new } := by
    rw [node_modify_self, hPage₂]
  have hOther : ∀ p, p ≠ page → (s₂.modify page (fun n =>
      { n with nextLeaf := new })).node p = s₂.node p := fun p hP => node_modify_of_ne hP
  have hAdded₃ := (hOther new hPage.symm).trans hAdded
  have hBehind₃ := fun hHead => (hOther _ hNext).trans (hBehind hHead)
  have hOther₃ : ∀ p, p ≠ page → p ≠ new → p ≠ (s.node page).nextLeaf → _ = s.node p :=
    fun p hP hP' hP'' => (hOther p hP).trans (hSame.node p (by simp [hP', hP'']))
  have hLast : (s₂.modify page (fun n =>
      { n with nextLeaf := new })).file.lastLeaf =
      s.file.lastLeaf := hSame.lastLeaf
  rw [hLast]
  split
  · rename_i hEq
    exact ⟨hSame.numPages, hSame.rootPage, hSame.firstLeaf,
      hSame.order, (if_pos hEq).symm, hSelf, hAdded₃, hBehind₃, hOther₃⟩
  · rename_i hNe
    exact ⟨hSame.numPages, hSame.rootPage, hSame.firstLeaf,
      hSame.order, hLast.trans (if_neg hNe).symm, hSelf, hAdded₃, hBehind₃, hOther₃⟩

/- A leaf with new pairs has given the upper half of them to a
  new leaf. -/
structure SplitsLeaf
    (page : Int)
    (pairs : List (K × Rid))
    (f f' : IxFile K) :
    Prop where
  numPages : f'.numPages = f.numPages + 1
  rootPage : f'.rootPage = f.rootPage
  firstLeaf : f'.firstLeaf = f.firstLeaf
  order : f'.btreeOrder = f.btreeOrder
  lastLeaf : f'.lastLeaf =
      if f.lastLeaf = page then f.numPages else f.lastLeaf
  lower :
    f'.node page = { f.node page with
      nextLeaf := f.numPages,
      pairs := pairs.take (pairs.length / 2) }
  upper : f'.node f.numPages =
      { parent := (f.node page).parent,
        isLeaf := true,
        prevLeaf := page,
        nextLeaf := (f.node page).nextLeaf,
        pairs := pairs.drop (pairs.length / 2) }
  next : (f.node page).nextLeaf ≠ ixLeafHeaderPage → f'.node (f.node page).nextLeaf =
        { f.node (f.node page).nextLeaf with
          prevLeaf := f.numPages }
  others : ∀ p, p ≠ page → p ≠ f.numPages → p ≠ (f.node page).nextLeaf → f'.node p = f.node p

/- Other leaves keep all but the link to the one before. -/
theorem SplitsLeaf.other
    {f f' : IxFile K}
    {pairs : List (K × Rid)}
    {p : Int}
    (hSplit : SplitsLeaf page pairs f f')
    (hP : p ≠ page)
    (hNew : p ≠ f.numPages)
    (hHead : p ≠ ixLeafHeaderPage) :
    ∃ q, f'.node p = { f.node p with prevLeaf := q } := by
  by_cases hNext : p = (f.node page).nextLeaf
  · rw [hNext] at hHead ⊢
    exact ⟨_, hSplit.next hHead⟩
  · exact ⟨_, hSplit.others p hP hNew hNext⟩

theorem split_leaf
    {f : IxFile K}
    {pairs : List (K × Rid)}
    (hFile : s.file = f.modify page (fun n => { n with pairs := pairs }))
    (hLeaf : (f.node page).isLeaf = true)
    (hPage : page ≠ f.numPages)
    (hNext : (f.node page).nextLeaf ≠ page)
    (hNew : (f.node page).nextLeaf ≠ f.numPages) :
    (s.split page).2 = f.numPages ∧
      SplitsLeaf page pairs f (s.split page).1.file := by
  have hNum : s.file.numPages = f.numPages := by
    rw [hFile]
    rfl
  have hSelf : s.file.node page = { f.node page with pairs := pairs } := by
    rw [hFile, IxFile.node_modify_self]
  have hOther : ∀ p, p ≠ page → s.file.node p = f.node p := by
    intro p hP
    rw [hFile, IxFile.node_modify_of_ne hP]
  have hHalf : Halves page s.file (s.moveHalf page).1.file :=
    halves_moveHalf (by rw [hNum]; exact hPage)
  have hSplit : s.split page = ((s.moveHalf page).1.linkLeaf page s.file.numPages,
        s.file.numPages) := by
    unfold split
    simp only [node, hSelf, hLeaf]
    rfl
  rw [hSplit]
  refine ⟨hNum, ?_⟩
  generalize (s.moveHalf page).1 = s₁ at hHalf ⊢
  have hLower := hHalf.lower
  have hUpper := hHalf.upper
  have hOthers := hHalf.others
  simp only [hSelf, hNum, IxNode.getSize] at hLower hUpper hOthers
  rw [hNum]
  have hNext₁ : (s₁.file.node page).nextLeaf = (f.node page).nextLeaf := by rw [hLower]
  have hLinks := linksLeaf (s := s₁) hPage (by rw [node, hNext₁]; exact hNext)
    (by rw [node, hNext₁]; exact hNew)
  constructor
  · rw [hLinks.numPages, hHalf.numPages, hNum]
  · rw [hLinks.rootPage, hHalf.rootPage, hFile]
    rfl
  · rw [hLinks.firstLeaf, hHalf.firstLeaf, hFile]
    rfl
  · rw [hLinks.order, hHalf.order, hFile]
    rfl
  · rw [hLinks.lastLeaf, hHalf.lastLeaf, hFile]
    rfl
  · rw [hLinks.self, hLower]
  · rw [hLinks.added, hUpper, hNext₁]
    simp only [hLeaf]
  · intro hHead
    have hBehind := hLinks.next (by rw [hNext₁]; exact hHead)
    rw [hNext₁] at hBehind
    rw [hBehind, hOthers _ hNew hNext, hOther _ hNext]
  · intro p hP hP' hP''
    rw [hLinks.others p hP hP' (by rw [hNext₁]; exact hP''), hOthers p hP' hP, hOther p hP]

end IxIndexHandle

------------
-- Between Two Calls
------------

namespace IxFile

variable [LinearOrder K]

/- The tree, its leaves from left to right and their keys. -/
structure Shape
    (f : IxFile K)
    (leaves : List (K × Int))
    (ups : List (List Int)) :
    Prop where
  tall : f.Tall leaves ups
  order : 2 ≤ f.btreeOrder
  leaf : ∀ a ∈ leaves, (f.node a.2).isLeaf = true ∧ (f.node a.2).getSize ≤ f.btreeOrder
  linked : f.Linked ixLeafHeaderPage (leaves.map Prod.snd) ixLeafHeaderPage
  firstLeaf : (leaves.map Prod.snd).head? = some f.firstLeaf
  lastLeaf : (leaves.map Prod.snd).getLast? = some f.lastLeaf
  filled : Filled leaves (fun p => (f.node p).pairs)

/- All keys of the index with their rids. -/
def entries (f : IxFile K) (leaves : List (K × Int)) : List (K × Rid) :=
  contents leaves (fun p => (f.node p).pairs)

variable {f f' : IxFile K} {leaves left right : List (K × Int)}
variable {ups : List (List Int)} {e key : K} {x : Int}

omit [LinearOrder K] in
/- The pages of other leaves. -/
theorem Tall.off (hTall : f.Tall (left ++ (e, x) :: right) ups) :
    x ∉ ups.flatten ∧ ∀ a ∈ left ++ right, a.2 ≠ x := by
  have hNodup := hTall.nodup
  unfold Links.nodes at hNodup
  rw [nodup_append] at hNodup
  constructor
  · intro hBad
    exact hNodup.2.2 x (by simp) x hBad rfl
  · intro a hA hEq
    have hRow := hNodup.1
    rw [map_append, map_cons] at hRow
    have hMem : a.2 ∈ (left ++ right).map Prod.snd := mem_map_of_mem hA
    rw [hEq, map_append] at hMem
    exact (nodup_middle.mp hRow).notMem hMem

/- Only the parents of leaves change with the levels above. -/
theorem Shape.relevel
    {leaves' : List (K × Int)}
    {ups' : List (List Int)}
    (hShape : f.Shape leaves ups)
    (hTall : f'.Tall leaves' ups')
    (hPages : leaves'.map Prod.snd = leaves.map Prod.snd)
    (hFirst : f'.firstLeaf = f.firstLeaf)
    (hLast : f'.lastLeaf = f.lastLeaf)
    (hOrder : f'.btreeOrder = f.btreeOrder)
    (hNode : ∀ p ∈ leaves.map Prod.snd, ∃ q,
      f'.node p = { f.node p with parent := q })
    (hFilled : Filled leaves' (fun p => (f.node p).pairs)) :
    f'.Shape leaves' ups' := by
  have hMem : ∀ a ∈ leaves', ∃ b ∈ leaves, b.2 = a.2 ∧
      ∃ q, f'.node a.2 = { f.node a.2 with parent := q } := by
    intro a hA
    have hIn : a.2 ∈ leaves.map Prod.snd := by
      rw [← hPages]
      exact mem_map_of_mem hA
    rcases mem_map.mp hIn with ⟨b, hB, hEq⟩
    exact ⟨b, hB, hEq, hNode a.2 hIn⟩
  refine ⟨hTall, by rw [hOrder]; exact hShape.order, ?_, ?_, ?_, ?_, ?_⟩
  · intro a hA
    rcases hMem a hA with ⟨b, hB, hEq, q, hQ⟩
    have hLeaf := hShape.leaf b hB
    rw [hEq] at hLeaf
    rw [hQ, hOrder]
    exact hLeaf
  · rw [hPages]
    refine hShape.linked.congr ?_
    intro p hP
    rcases hNode p hP with ⟨q, hQ⟩
    rw [hQ]
    exact ⟨rfl, rfl⟩
  · rw [hPages, hFirst]
    exact hShape.firstLeaf
  · rw [hPages, hLast]
    exact hShape.lastLeaf
  · refine hFilled.congr ?_
    intro a hA
    rcases hMem a hA with ⟨-, -, -, q, hQ⟩
    simp only [hQ]

variable (hShape : f.Shape (left ++ (e, x) :: right) ups)
include hShape

/- The keys when a leaf is filled with other pairs. -/
theorem Shape.filled_modify
    {pairs : List (K × Rid)}
    (hSorted : pairs.Pairwise (fun y z => y.1 < z.1))
    (hLow : left ≠ [] → ∀ y ∈ pairs, e ≤ y.1)
    (hHigh : ∀ y ∈ pairs, ∀ b ∈ right, y.1 < b.1) :
    Filled (left ++ (e, x) :: right) (fun p =>
      ((f.modify x (fun n => { n with pairs := pairs })).node p).pairs) := by
  refine hShape.filled.put ?_ ?_ ?_ ?_
  · intro a hA
    simp only [node_modify_of_ne (hShape.tall.off.2 a hA)]
  · simp only [node_modify_self]
    exact hSorted
  · simp only [node_modify_self]
    exact hLow
  · simp only [node_modify_self]
    exact hHigh

/- A leaf is filled with other pairs. -/
theorem Shape.fill
    {pairs : List (K × Rid)}
    (hSize : pairs.length ≤ f.btreeOrder)
    (hSorted : pairs.Pairwise (fun y z => y.1 < z.1))
    (hLow : left ≠ [] → ∀ y ∈ pairs, e ≤ y.1)
    (hHigh : ∀ y ∈ pairs, ∀ b ∈ right, y.1 < b.1) :
    (f.modify x (fun n => { n with pairs := pairs })).Shape
      (left ++ (e, x) :: right) ups := by
  have hUps := hShape.tall.off.1
  have hNode : ∀ p, p ≠ x → (f.modify x (fun n => { n with pairs := pairs })).node p =
        f.node p := fun p hP => node_modify_of_ne hP
  -- links and parents stay
  have hFields : ∀ p, ((f.modify x (fun n => { n with pairs := pairs })).node
          p).parent = (f.node p).parent ∧ ((f.modify x (fun n => { n with pairs := pairs })).node
          p).isLeaf = (f.node p).isLeaf ∧ ((f.modify x (fun n => { n with pairs := pairs })).node
          p).prevLeaf = (f.node p).prevLeaf ∧
        ((f.modify x (fun n => { n with pairs := pairs })).node
          p).nextLeaf = (f.node p).nextLeaf := by
    intro p
    by_cases hP : p = x
    · subst hP
      rw [node_modify_self]
      exact ⟨rfl, rfl, rfl, rfl⟩
    · rw [hNode p hP]
      exact ⟨rfl, rfl, rfl, rfl⟩
  refine ⟨?_, hShape.order, ?_, ?_, hShape.firstLeaf,
    hShape.lastLeaf, hShape.filled_modify hSorted hLow hHigh⟩
  · refine hShape.tall.congr rfl rfl (le_refl _) ?_ ?_
    · intro p hP
      refine hNode p ?_
      rintro rfl
      exact hUps hP
    · intro a _
      exact (hFields a.2).1
  · intro a hA
    refine ⟨(hFields a.2).2.1.trans (hShape.leaf a hA).1, ?_⟩
    by_cases hX : a.2 = x
    · rw [hX, node_modify_self]
      exact hSize
    · rw [hNode a.2 hX]
      exact (hShape.leaf a hA).2
  · refine hShape.linked.congr ?_
    intro p _
    exact (hFields p).2.2

/- The leaf behind a leaf. -/
theorem Shape.nextLeaf :
    (f.node x).nextLeaf = (right.map Prod.snd).headD ixLeafHeaderPage := by
  have hLinked := hShape.linked
  rw [map_append, map_cons, linked_append] at hLinked
  exact hLinked.2.2.1

theorem Shape.nextLeaf_cases :
    right = [] ∧ (f.node x).nextLeaf = ixLeafHeaderPage ∨
      ∃ b rest, right = b :: rest ∧ (f.node x).nextLeaf = b.2 ∧
      b.2 ≠ ixLeafHeaderPage := by
  rw [hShape.nextLeaf]
  cases right with
  | nil => exact Or.inl ⟨rfl, rfl⟩
  | cons b rest =>
    refine Or.inr ⟨b, rest, rfl, rfl, ?_⟩
    have hRange := hShape.tall.pages b.2 (mem_append_left _ (mem_map_of_mem (by simp)))
    intro hBad
    rw [hBad] at hRange
    exact absurd hRange.1 (by decide)

/- No leaf is behind itself or in a page to come. -/
theorem Shape.nextLeaf_ne :
    (f.node x).nextLeaf ≠ x ∧ (f.node x).nextLeaf ≠ f.numPages ∧
      (f.node x).nextLeaf ∉ ups.flatten := by
  have hX := hShape.tall.pages x (by simp [Links.nodes])
  have hNodup := hShape.tall.nodup
  rcases hShape.nextLeaf_cases with ⟨-, hNext⟩ | ⟨b, rest, rfl, hNext, -⟩
  · rw [hNext]
    unfold ixLeafHeaderPage
    refine ⟨by omega, by omega, ?_⟩
    intro hBad
    have hRange := hShape.tall.pages 1 (mem_append_right _ hBad)
    omega
  · have hRow : b.2 ∈ (left ++ (e, x) :: b :: rest).map Prod.snd := mem_map_of_mem (by simp)
    have hB := hShape.tall.pages b.2 (mem_append_left _ hRow)
    rw [hNext]
    refine ⟨hShape.tall.off.2 b (by simp), ne_of_lt hB.2, ?_⟩
    intro hBad
    exact (nodup_append.mp hNodup).2.2 b.2 hRow b.2 hBad rfl

omit hShape

section LeafSplit

variable {f₃ : IxFile K} {pairs : List (K × Rid)}

variable
    (hShape : f.Shape (left ++ (e, x) :: right) ups)
    (hSplit : IxIndexHandle.SplitsLeaf x pairs f f₃)

include hShape hSplit

/- The levels above are the same until the new leaf is entered. -/
theorem Shape.split_tall : f₃.Tall (left ++ (e, x) :: right) ups := by
  rcases hShape.nextLeaf_ne with ⟨-, -, hNextUps⟩
  refine hShape.tall.congr hSplit.rootPage hSplit.order ?_ ?_ ?_
  · rw [hSplit.numPages]
    omega
  · intro p hP
    have hRange := hShape.tall.pages p (mem_append_right _ hP)
    refine hSplit.others p ?_ (ne_of_lt hRange.2) ?_
    · rintro rfl
      exact hShape.tall.off.1 hP
    · rintro rfl
      exact hNextUps hP
  · intro a hA
    have hRange := hShape.tall.pages a.2 (mem_append_left _ (mem_map_of_mem hA))
    by_cases hX : a.2 = x
    · rw [hX, hSplit.lower]
    · have hHead : a.2 ≠ ixLeafHeaderPage := by
        unfold ixLeafHeaderPage
        omega
      rcases hSplit.other hX (ne_of_lt hRange.2) hHead with ⟨q, hQ⟩
      rw [hQ]

theorem Shape.split_fresh :
    f₃.Fresh (left ++ (e, x) :: right) ups f.numPages := by
  have hX := hShape.tall.pages x (by simp [Links.nodes])
  have hNum := hSplit.numPages
  refine ⟨?_, by omega, by omega⟩
  intro hBad
  have hRange := hShape.tall.pages _ hBad
  omega

/- The chain of the leaves with the new one. -/
theorem Shape.split_linked : f₃.Linked ixLeafHeaderPage
      (left.map Prod.snd ++ x :: f.numPages :: right.map Prod.snd)
      ixLeafHeaderPage := by
  have hLinked := hShape.linked
  rw [map_append, map_cons] at hLinked
  have hRange : ∀ a ∈ left ++ right, a.2 ≠ x ∧ a.2 ≠ f.numPages ∧ a.2 ≠ ixLeafHeaderPage := by
    intro a hA
    have hMem : a ∈ left ++ (e, x) :: right := by
      simp only [mem_append, mem_cons] at hA ⊢
      tauto
    have hPage := hShape.tall.pages a.2 (mem_append_left _ (mem_map_of_mem hMem))
    unfold ixLeafHeaderPage
    exact ⟨hShape.tall.off.2 a hA, ne_of_lt hPage.2, by omega⟩
  refine hLinked.insert ?_ ?_ ?_ ?_
  · rw [hSplit.lower]
    exact ⟨rfl, rfl⟩
  · rw [hSplit.upper]
    exact ⟨rfl, rfl⟩
  · intro q hQ
    cases right with
    | nil => cases hQ
    | cons b rest =>
      cases hQ
      have hNext : (f.node x).nextLeaf = b.2 := hShape.nextLeaf
      have hB := hRange b (by simp)
      have hNode := hSplit.next (by rw [hNext]; exact hB.2.2)
      rw [hNext] at hNode
      rw [hNode]
      exact ⟨rfl, rfl⟩
  · intro q hQ
    -- the leaf behind the new one is the first on the right
    have hOther : ∃ a ∈ left ++ right, a.2 = q ∧ q ≠ (f.node x).nextLeaf := by
      have hNodup := (nodup_append.mp hShape.tall.nodup).1
      rcases hShape.nextLeaf_cases with ⟨rfl, hHead⟩ | ⟨b, rest, rfl, hB, -⟩
      · rcases mem_append.mp hQ with hQ | hQ
        · rcases mem_map.mp hQ with ⟨a, hA, rfl⟩
          refine ⟨a, by simp [hA], rfl, ?_⟩
          rw [hHead]
          exact (hRange a (by simp [hA])).2.2
        · simp at hQ
      · rw [hB]
        simp only [map_append, map_cons,
          nodup_append, nodup_cons, mem_cons, mem_map, not_or] at hNodup
        rcases mem_append.mp hQ with hQ | hQ
        · rcases mem_map.mp hQ with ⟨a, hA, rfl⟩
          refine ⟨a, by simp [hA], rfl, ?_⟩
          exact hNodup.2.2 a.2 ⟨a, hA, rfl⟩ b.2 (Or.inr (Or.inl rfl))
        · rcases mem_map.mp hQ with ⟨a, hA, rfl⟩
          have hA' : a ∈ rest := hA
          refine ⟨a, by simp [hA'], rfl, ?_⟩
          intro hEq
          exact hNodup.2.1.2.1 ⟨a, hA', hEq⟩
    rcases hOther with ⟨a, hA, rfl, hNe⟩
    have hRangeA := hRange a hA
    rw [hSplit.others a.2 hRangeA.1 hRangeA.2.1 hNe]
    exact ⟨rfl, rfl⟩

/- A leaf page has the pairs that the split gave to it. -/
theorem Shape.split_leaf
    {a : K × Int}
    (hA : a ∈ left ++ right) :
    (f₃.node a.2).pairs = (f.node a.2).pairs ∧
      (f₃.node a.2).isLeaf = (f.node a.2).isLeaf := by
  have hMem : a ∈ left ++ (e, x) :: right := by
    simp only [mem_append, mem_cons] at hA ⊢
    tauto
  have hPage := hShape.tall.pages a.2 (mem_append_left _ (mem_map_of_mem hMem))
  have hHead : a.2 ≠ ixLeafHeaderPage := by
    unfold ixLeafHeaderPage
    omega
  rcases hSplit.other (hShape.tall.off.2 a hA) (ne_of_lt hPage.2) hHead with ⟨q, hQ⟩
  rw [hQ]
  exact ⟨rfl, rfl⟩

omit hSplit in
/- The last leaf. -/
theorem Shape.split_last {k k' : K} :
    ((left ++ (k, x) :: (k', f.numPages) :: right).map Prod.snd).getLast? =
      some (if f.lastLeaf = x then f.numPages
        else f.lastLeaf) := by
  have hLast := hShape.lastLeaf
  rw [map_append, map_cons, getLast?_append_of_ne_nil _ (by simp)] at hLast ⊢
  cases right with
  | nil =>
    have hX : x = f.lastLeaf := by simpa using hLast
    simp [hX]
  | cons b right =>
    rw [map_cons, getLast?_cons_cons] at hLast
    have hNe : f.lastLeaf ≠ x := by
      have hMem := mem_of_getLast? hLast
      rw [← map_cons] at hMem
      rcases mem_map.mp hMem with ⟨a, hA, hEq⟩
      rw [← hEq]
      exact hShape.tall.off.2 a (mem_append_right _ hA)
    rw [if_neg hNe, ← hLast]
    rfl

/- The new leaf has been entered in the tree. -/
theorem Shape.split
    {f' : IxFile K}
    {ups' : List (List Int)}
    {e' oldKey : K}
    {y : K × Rid}
    {upper : List (K × Rid)}
    (hSize : pairs.length ≤ f.btreeOrder + 1)
    (hSome : 2 ≤ pairs.length)
    (hSorted : pairs.Pairwise (fun y z => y.1 < z.1))
    (hLow : left ≠ [] → ∀ y ∈ pairs, e ≤ y.1)
    (hHigh : ∀ y ∈ pairs, ∀ b ∈ right, y.1 < b.1)
    (hUpper : pairs.drop (pairs.length / 2) = y :: upper)
    (hGrown : Grown left right e oldKey y.1 x f.numPages ups f₃ f' e' ups') :
    f'.Shape (left ++ (e', x) :: (y.1, f.numPages) :: right)
      ups' := by
  have hFresh := hShape.split_fresh hSplit
  have hTall := hShape.split_tall hSplit
  -- above the leaves only their parents change
  have hKept : ∀ a ∈ left ++ (e, x) :: (y.1, f.numPages) :: right,
      ∃ q, f'.node a.2 = { f₃.node a.2 with parent := q } := by
    intro a hA
    have hRow := hFresh.row hTall hA
    exact hGrown.extends_.row a.2 hRow.2.1 hRow.2.2
  have hKeptX := hKept (e, x) (by simp)
  have hKeptNew := hKept (y.1, f.numPages) (by simp)
  have hKeptOther : ∀ a ∈ left ++ right, ∃ q, f'.node a.2 = { f₃.node a.2 with parent := q } := by
    intro a hA
    refine hKept a ?_
    simp only [mem_append, mem_cons] at hA ⊢
    tauto
  have hOrder : f'.btreeOrder = f.btreeOrder := hGrown.extends_.order.trans hSplit.order
  have hOrder₂ := hShape.order
  rcases hKeptX with ⟨qX, hX⟩
  rcases hKeptNew with ⟨qNew, hNew⟩
  simp only at hX hNew
  rw [hSplit.lower] at hX
  rw [hSplit.upper] at hNew
  refine ⟨hGrown.tall, by omega, ?_, ?_, ?_, ?_, ?_⟩
  · intro a hA
    have hCases : a ∈ left ++ right ∨ a.2 = x ∨ a.2 = f.numPages := by
      simp only [mem_append, mem_cons] at hA ⊢
      rcases hA with hA | rfl | rfl | hA
      · exact Or.inl (Or.inl hA)
      · exact Or.inr (Or.inl rfl)
      · exact Or.inr (Or.inr rfl)
      · exact Or.inl (Or.inr hA)
    rw [hOrder]
    rcases hCases with hA | hA | hA
    · rcases hKeptOther a hA with ⟨q, hQ⟩
      rcases hShape.split_leaf hSplit hA with ⟨hPairs, hLeaf⟩
      have hOld := hShape.leaf a (by
        simp only [mem_append, mem_cons] at hA ⊢
        tauto)
      rw [hQ]
      unfold IxNode.getSize at hOld ⊢
      rw [hPairs, hLeaf]
      exact hOld
    · rw [hA, hX]
      refine ⟨(hShape.leaf (e, x) (by simp)).1, ?_⟩
      simp only [IxNode.getSize, length_take]
      omega
    · rw [hA, hNew]
      refine ⟨rfl, ?_⟩
      simp only [IxNode.getSize, length_drop]
      omega
  · have hLinked := hShape.split_linked hSplit
    rw [map_append, map_cons, map_cons]
    refine hLinked.congr ?_
    intro p hP
    have hMem : p ∈ (left ++ (e, x) :: (y.1, f.numPages) :: right).map Prod.snd := by
      rw [map_append, map_cons, map_cons]
      exact hP
    rcases mem_map.mp hMem with ⟨a, hA, rfl⟩
    rcases hKept a hA with ⟨q, hQ⟩
    rw [hQ]
    exact ⟨rfl, rfl⟩
  · rw [hGrown.extends_.firstLeaf, hSplit.firstLeaf, ← hShape.firstLeaf]
    cases left with
    | nil => rfl
    | cons a left => rfl
  · rw [hGrown.extends_.lastLeaf, hSplit.lastLeaf]
    exact hShape.split_last
  · have hCut : ((f.modify x (fun n =>
        { n with pairs := pairs })).node x).pairs =
        pairs.take (pairs.length / 2) ++ y :: upper := by
      rw [node_modify_self, ← hUpper]
      exact (take_append_drop _ _).symm
    refine Filled.split (hShape.filled_modify hSorted hLow hHigh) ?_ hCut ?_ ?_ ?_ ?_
    · intro a hA
      rcases hKeptOther a hA with ⟨q, hQ⟩
      simp only [hQ, (hShape.split_leaf hSplit hA).1, node_modify_of_ne (hShape.tall.off.2 a hA)]
    · rw [← length_pos_iff, length_take]
      omega
    · simp only [hX]
    · simp only [hNew]
      exact hUpper
    · rcases hGrown.first with hEq | ⟨hNil, -⟩
      · exact Or.inr hEq
      · exact Or.inl hNil

end LeafSplit

end IxFile

end Rmdb
