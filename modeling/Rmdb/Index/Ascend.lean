import Rmdb.Index.Levels

/-
  This file follows the levels of the B+ tree through
  `maintain_parent` and `insert_into_parent`.

  Both go up from a node by its parent link.  The first one
  copies first keys, which are the keys that nodes are entered
  under.  The second one enters a new node behind an old one
  and splits parents that are full.

  Key definitions include:
    * `IxFile.Same`
    * `IxFile.Extends`

  Key theorems include:
    * `IxIndexHandle.tall_maintainParent`
    * `IxIndexHandle.tall_insertIntoParent`
-/

namespace Rmdb

open Tower List Links IxNode IxIndexHandle

variable {K : Type}

/- The header and all pages but some are the same. -/
structure IxFile.Same (changed : List Int) (f f' : IxFile K) : Prop where
  numPages : f'.numPages = f.numPages
  rootPage : f'.rootPage = f.rootPage
  firstLeaf : f'.firstLeaf = f.firstLeaf
  lastLeaf : f'.lastLeaf = f.lastLeaf
  order : f'.btreeOrder = f.btreeOrder
  node : ∀ p, p ∉ changed → f'.node p = f.node p

variable {new : Int} {ups : List (List Int)}

namespace IxIndexHandle

------------
-- Split
------------

/- The children in some slots get another parent. -/
theorem file_maintainChild
    {s : IxIndexHandle K}
    {i : Nat}
    (hInner : (s.node new).isLeaf = false) :
    (s.maintainChild new i).file =
        s.file.modify ((s.node new).valueAt i) (fun n =>
        { n with parent := new }) := by
  unfold maintainChild
  simp [node, hInner]

theorem fold_maintainChild
    (is : List Nat)
    (s : IxIndexHandle K)
    (hInner : (s.node new).isLeaf = false)
    (hSelf : ∀ i ∈ is, (s.node new).valueAt i ≠ new) :
    s.file.Same (is.map (s.node new).valueAt)
      (is.foldl (fun s i => s.maintainChild new i) s).file ∧
      ∀ p ∈ is.map (s.node new).valueAt,
          (is.foldl (fun s i => s.maintainChild new i) s).node p =
          { s.node p with parent := new } := by
  induction is generalizing s with
  | nil => exact ⟨⟨rfl, rfl, rfl, rfl, rfl, fun _ _ => rfl⟩, by simp⟩
  | cons i is ih =>
    rw [foldl_cons]
    have hFile := file_maintainChild (i := i) hInner
    generalize s.maintainChild new i = s₁ at hFile
    have hChild := hSelf i mem_cons_self
    have hNew : s₁.node new = s.node new := by
      rw [node, hFile]
      exact IxFile.node_modify_of_ne (Ne.symm hChild)
    have hNode : ∀ p, s₁.node p =
        if p = (s.node new).valueAt i then
          { s.node p with parent := new }
        else
          s.node p := by
      intro p
      rw [node, hFile]
      split
      · rename_i hP
        subst hP
        exact IxFile.node_modify_self
      · rename_i hP
        exact IxFile.node_modify_of_ne hP
    have hRest := ih s₁ (by rw [hNew]; exact hInner) (by
      intro j hJ
      rw [hNew]
      exact hSelf j (mem_cons_of_mem i hJ))
    rw [hNew, hFile] at hRest
    rcases hRest with ⟨hSame, hMoved⟩
    have hAll : ∀ p ∈ (i :: is).map (s.node new).valueAt,
        (is.foldl (fun s i => s.maintainChild new i) s₁).node
          p = { s.node p with parent := new } := by
      intro p hP
      by_cases hLater : p ∈ is.map (s.node new).valueAt
      · rw [hMoved p hLater, hNode p]
        split <;> rfl
      · have hHere : p = (s.node new).valueAt i := by
          rw [map_cons, mem_cons] at hP
          exact hP.resolve_right hLater
        have hKept := hSame.node p hLater
        rw [← hFile] at hKept
        rw [node, hKept]
        have hP := hNode p
        rw [if_pos hHere] at hP
        exact hP
    refine ⟨⟨hSame.numPages, hSame.rootPage, hSame.firstLeaf,
      hSame.lastLeaf, hSame.order, ?_⟩, hAll⟩
    intro p hP
    rw [map_cons, mem_cons, not_or] at hP
    have hKept := hSame.node p hP.2
    rw [← hFile] at hKept
    rw [hKept]
    have hP' := hNode p
    rw [if_neg hP.1] at hP'
    exact hP'

/- The pages in the slots of a node. -/
theorem map_valueAt
    (n : IxNode K) :
    (range n.getSize).map n.valueAt = (IxFile.kids n).map Prod.snd := by
  apply ext_getElem
  · simp [length_kids]
  · intro i hI hI'
    have hSlot : i < n.pairs.length := by simpa [getSize] using hI
    simp [valueAt, IxFile.kids, hSlot]

theorem node_maintainChildren
    {s : IxIndexHandle K}
    (new : Int)
    (hInner : (s.node new).isLeaf = false)
    (hSelf : ∀ e ∈ IxFile.kids (s.node new), e.2 ≠ new) :
    s.file.Same ((IxFile.kids (s.node new)).map Prod.snd)
      (s.maintainChildren new).file ∧
      ∀ e ∈ IxFile.kids (s.node new), (s.maintainChildren new).node e.2 =
          { s.node e.2 with parent := new } := by
  have hFold := fold_maintainChild (range (s.node new).getSize) s hInner (by
      intro i hI
      have hMem : (s.node new).valueAt i ∈ (IxFile.kids (s.node new)).map Prod.snd := by
        rw [← map_valueAt]
        exact mem_map_of_mem hI
      rcases mem_map.mp hMem with ⟨e, hE, hEq⟩
      rw [← hEq]
      exact hSelf e hE)
  rw [map_valueAt] at hFold
  exact ⟨hFold.1, fun e hE => hFold.2 e.2 (mem_map_of_mem hE)⟩

/- The upper half of a node is in a new page. -/
structure Halves (page : Int) (f f' : IxFile K) : Prop where
  numPages : f'.numPages = f.numPages + 1
  rootPage : f'.rootPage = f.rootPage
  firstLeaf : f'.firstLeaf = f.firstLeaf
  lastLeaf : f'.lastLeaf = f.lastLeaf
  order : f'.btreeOrder = f.btreeOrder
  lower :
    f'.node page = { f.node page with
      pairs := (f.node page).pairs.take ((f.node page).getSize / 2) }
  upper : f'.node f.numPages =
      { parent := (f.node page).parent,
        isLeaf := (f.node page).isLeaf,
        prevLeaf := ixNoPage,
        nextLeaf := ixNoPage,
        pairs := (f.node page).pairs.drop ((f.node page).getSize / 2) }
  others : ∀ p, p ≠ f.numPages → p ≠ page → f'.node p = f.node p

theorem halves_moveHalf
    {s : IxIndexHandle K}
    {page : Int}
    (hPage : page ≠ s.file.numPages) :
    Halves page s.file (s.moveHalf page).1.file := by
  have hFirst : ∀ p, p ≠ s.file.numPages → (s.createNode.1.modify s.createNode.2 fun _ =>
        { parent := (s.node page).parent,
          isLeaf := (s.node page).isLeaf,
          prevLeaf := ixNoPage,
          nextLeaf := ixNoPage,
          pairs := (s.node page).pairs.drop ((s.node page).getSize / 2) }).node p =
        s.node p := fun p hP => node_modify_of_ne hP
  refine ⟨rfl, rfl, rfl, rfl, rfl, ?_, ?_, ?_⟩
  · exact node_modify_self.trans
      (congrArg (fun n : IxNode K => { n with
        pairs := (s.node page).pairs.take ((s.node page).getSize / 2) }) (hFirst page hPage))
  · exact (node_modify_of_ne (Ne.symm hPage)).trans node_modify_self
  · intro p hP hP'
    exact (node_modify_of_ne hP').trans (hFirst p hP)

/- The children in the upper half get the new node as parent. -/
structure SplitsInner (page : Int) (f f' : IxFile K) : Prop where
  numPages : f'.numPages = f.numPages + 1
  rootPage : f'.rootPage = f.rootPage
  firstLeaf : f'.firstLeaf = f.firstLeaf
  lastLeaf : f'.lastLeaf = f.lastLeaf
  order : f'.btreeOrder = f.btreeOrder
  lower :
    f'.node page = { f.node page with
      pairs := (f.node page).pairs.take ((f.node page).getSize / 2) }
  upper : f'.node f.numPages =
      { parent := (f.node page).parent,
        isLeaf := false,
        prevLeaf := ixNoPage,
        nextLeaf := ixNoPage,
        pairs := (f.node page).pairs.drop ((f.node page).getSize / 2) }
  moved : ∀ e ∈ IxFile.kids (f'.node f.numPages),
      f'.node e.2 = { f.node e.2 with parent := f.numPages }
  others : ∀ p, p ≠ f.numPages → p ≠ page → p ∉ (IxFile.kids (f'.node f.numPages)).map Prod.snd →
        f'.node p = f.node p

theorem split_inner
    {s : IxIndexHandle K}
    {page : Int}
    (hInner : (s.node page).isLeaf = false)
    (hPage : page ≠ s.file.numPages)
    (hKids : ∀ e ∈ IxFile.kids (s.node page), e.2 ≠ s.file.numPages ∧
      e.2 ≠ page) :
    (s.split page).2 = s.file.numPages ∧
      SplitsInner page s.file (s.split page).1.file := by
  have hHalf := halves_moveHalf hPage
  have hSplit : s.split page = ((s.moveHalf page).1.maintainChildren s.file.numPages,
        s.file.numPages) := by
    unfold split
    simp only [hInner]
    rfl
  rw [hSplit]
  refine ⟨rfl, ?_⟩
  generalize (s.moveHalf page).1 = s₁ at hHalf
  have hUpper := hHalf.upper
  rw [hInner] at hUpper
  have hMovedKids : ∀ e ∈ IxFile.kids (s₁.file.node s.file.numPages),
        e.2 ≠ s.file.numPages ∧ e.2 ≠ page := by
    intro e hE
    refine hKids e ?_
    rw [hUpper] at hE
    unfold IxFile.kids at hE ⊢
    rw [map_drop] at hE
    exact mem_of_mem_drop hE
  have hOff : ∀ p, p = s.file.numPages ∨ p = page →
      p ∉ (IxFile.kids (s₁.file.node s.file.numPages)).map
        Prod.snd := by
    intro p hP hBad
    rcases mem_map.mp hBad with ⟨e, hE, rfl⟩
    rcases hP with hP | hP
    · exact (hMovedKids e hE).1 hP
    · exact (hMovedKids e hE).2 hP
  rcases node_maintainChildren (s := s₁) s.file.numPages (by rw [node, hUpper])
    (fun e hE => (hMovedKids e hE).1) with ⟨hSame, hMoved⟩
  have hNew := hSame.node _ (hOff _ (Or.inl rfl))
  refine ⟨hSame.numPages.trans hHalf.numPages, hSame.rootPage.trans hHalf.rootPage,
    hSame.firstLeaf.trans hHalf.firstLeaf, hSame.lastLeaf.trans hHalf.lastLeaf,
    hSame.order.trans hHalf.order, (hSame.node _ (hOff _ (Or.inr rfl))).trans hHalf.lower,
    hNew.trans hUpper, ?_, ?_⟩
  · rw [hNew]
    intro e hE
    rw [← hHalf.others e.2 (hMovedKids e hE).1 (hMovedKids e hE).2]
    exact hMoved e hE
  · intro p hP hP' hNot
    rw [hNew] at hNot
    exact (hSame.node p hNot).trans (hHalf.others p hP hP')

------------
-- Maintain Parent
------------

section Ordered

variable [LinearOrder K]

/- A page is entered under its first key. -/
theorem tall_maintainParent
    {s : IxIndexHandle K}
    {left right : List (K × Int)}
    {e key : K}
    {x : Int}
    {fuel : Nat}
    (hTall : s.file.Tall (left ++ (e, x) :: right) ups)
    (hKey : (s.node x).firstKey? = some key)
    (hFuel : ups.length < fuel) :
    ∃ s', maintainParent fuel s x = some s' ∧
      s'.file.Tall (left ++ (key, x) :: right) ups ∧
      s.file.Same ups.flatten s'.file := by
  induction ups generalizing s left right e x key fuel with
  | nil =>
    cases fuel with
    | zero => cases hFuel
    | succ fuel =>
      rcases hTall.stands with ⟨k, hRow, hRoot⟩
      have hShort : left = [] ∧ right = [] := by
        cases left with
        | nil =>
          simp only [nil_append, cons.injEq] at hRow
          exact ⟨rfl, hRow.2⟩
        | cons a left => simp at hRow
      rcases hShort with ⟨rfl, rfl⟩
      cases hRow
      refine ⟨s, ?_, ⟨⟨key, rfl, hRoot⟩, hTall.nodup, hTall.pages, hTall.inner⟩,
        ⟨rfl, rfl, rfl, rfl, rfl, fun _ _ => rfl⟩⟩
      exact if_pos hRoot
  | cons up ups ih =>
    cases fuel with
    | zero => cases hFuel
    | succ fuel =>
      rcases hTall.locate with
        ⟨before, n, after, first, last, rfl, hKids, hParent, rfl, rfl, hFresh, hSome⟩
      rcases pairs_of_kids hKids with ⟨pairs, rid, pairs', hPairs, hRid, hFirst, hLast⟩
      have hPair : (s.node n).pairs[first.length]? = some (e, rid) := by
        rw [hPairs, ← hFirst, length_map]
        simp
      have hStep : maintainParent (fuel + 1) s x =
          if e = key then
            some (s.fetchNode n)
          else
            maintainParent fuel ((s.fetchNode n).modify n (fun node =>
                { node with
                  pairs := node.pairs.set first.length (key, rid) })) n := by
        conv_lhs => unfold maintainParent
        rw [hParent, if_neg hSome]
        simp only [node, file_fetchNode, findChild_eq hKids hFresh]
        rw [hPair, hKey]
      rw [hStep]
      by_cases hEq : e = key
      · subst hEq
        exact ⟨_, if_pos rfl, hTall, ⟨rfl, rfl, rfl, rfl, rfl, fun _ _ => rfl⟩⟩
      · rw [if_neg hEq]
        have hApart := hTall.apart
        generalize hState : (s.fetchNode n).modify n _ = s₁
        have hFile : s₁.file = s.file.modify n (fun node =>
            { node with
              pairs := node.pairs.set first.length (key, rid) }) := by
          rw [← hState]
          rfl
        have hOther : ∀ p, p ≠ n → s₁.file.node p = s.file.node p := by
          intro p hP
          rw [hFile]
          exact IxFile.node_modify_of_ne hP
        have hSelf : s₁.file.node n = { s.file.node n with
            pairs := (s.file.node n).pairs.set first.length (key, rid) } := by
          rw [hFile]
          exact IxFile.node_modify_self
        have hKids₁ : IxFile.kids (s₁.file.node n) = first ++ (key, x) :: last := by
          rw [hSelf]
          exact (kids_set hKids hPair).2
        have hSome₁ : IxFile.kids (s₁.file.node n) ≠ [] := by
          rw [hKids₁]
          simp
        have hSome₀ : IxFile.kids (s.file.node n) ≠ [] := by
          rw [hKids]
          simp
        rcases IxFile.exists_firstKey hSome₁ with ⟨key₁, hKey₁⟩
        rcases IxFile.exists_firstKey hSome₀ with ⟨key₀, hKey₀⟩
        -- the levels above have not changed yet
        have hAbove : s₁.file.Tall (s.file.links.tags before ++ (key₀, n) ::
              s.file.links.tags after) ups := by
          rw [← IxFile.tags_split hKey₀]
          refine hTall.above.congr ?_ ?_ ?_ ?_ ?_
          · rw [hFile]
            rfl
          · rw [hFile]
            rfl
          · rw [hFile]
            exact le_refl _
          · intro p hP
            refine hOther p ?_
            rintro rfl
            exact hApart.2.1 p (by simp) hP
          · intro e' hE
            by_cases hN : e'.2 = n
            · rw [hN, hSelf]
            · rw [hOther e'.2 hN]
        rcases ih hAbove hKey₁ (by simpa using hFuel) with ⟨s', hRun, hTall', hSame⟩
        have hNode : ∀ p, p ∉ n :: ups.flatten → s'.file.node p = s.file.node p := by
          intro p hP
          rw [mem_cons, not_or] at hP
          rw [hSame.node p hP.2, hOther p hP.1]
        have hSelf' : s'.file.node n = s₁.file.node n := hSame.node n (hApart.2.1 n (by simp))
        refine ⟨s', hRun, ?_, ?_⟩
        · refine hTall.rekey hKids rfl rfl (by rw [hSelf', hKids₁]) (by rw [hSelf', hSelf])
            hNode ?_ ?_ ?_
          · rw [hSame.order, hFile]
            rfl
          · rw [hSame.numPages, hFile]
            rfl
          · rw [← hSelf'] at hKey₁
            rw [IxFile.tags_of_same (fun p hP => .of_eq (hNode p (hTall.sides p hP))) hKey₁]
            exact hTall'
        · rw [hFile] at hSame
          refine ⟨hSame.numPages, hSame.rootPage, hSame.firstLeaf, hSame.lastLeaf, hSame.order, ?_⟩
          intro p hP
          refine hNode p ?_
          intro hBad
          refine hP ?_
          simp only [flatten_cons, mem_append, mem_cons] at hBad ⊢
          tauto

end Ordered

end IxIndexHandle

variable {ups' : List (List Int)}

------------
-- Insert Into Parent
------------

namespace IxFile

variable {f f₁ f' : IxFile K} {ups : List (List Int)}
variable {left right first last : List (K × Int)}
variable {before after : List Int} {e key : K} {n old new : Int}

/- One more page in a row. -/
theorem perm_nodes (ups : List (List Int)) :
    (nodes (left ++ (e, old) :: (key, new) :: right) ups).Perm
      (new :: nodes (left ++ (e, old) :: right) ups) := by
  unfold nodes
  rw [← cons_append]
  refine Perm.append_right _ ?_
  simp only [map_append, map_cons]
  exact (Perm.append_left _ (Perm.swap _ _ _)).trans perm_middle

/- A new page is entered behind an old one. -/
structure Enters
    (n old new : Int)
    (first last : List (K × Int))
    (e key : K)
    (f f₁ : IxFile K) :
    Prop where
  numPages : f₁.numPages = f.numPages
  rootPage : f₁.rootPage = f.rootPage
  firstLeaf : f₁.firstLeaf = f.firstLeaf
  lastLeaf : f₁.lastLeaf = f.lastLeaf
  order : f₁.btreeOrder = f.btreeOrder
  kidsBefore : kids (f.node n) = first ++ (e, old) :: last
  kidsAfter : kids (f₁.node n) = first ++ (e, old) :: (key, new) :: last
  isLeaf : (f₁.node n).isLeaf = (f.node n).isLeaf
  parent : (f₁.node n).parent = (f.node n).parent
  entered : f₁.node new = { f.node new with parent := n }
  others : ∀ p, p ≠ n → p ≠ new → f₁.node p = f.node p

/- A page that is no part of the tree yet. -/
structure Fresh
    (f : IxFile K)
    (row : List (K × Int))
    (ups : List (List Int))
    (new : Int) :
    Prop where
  notMem : new ∉ Links.nodes row ups
  low : 2 ≤ new
  high : new < f.numPages

/- The page is new in the row. -/
theorem Fresh.nodup
    (hFresh : f.Fresh (left ++ (e, old) :: right) ups new)
    (hUps : (nodes (left ++ (e, old) :: right) ups').Nodup)
    (hNew : new ∉ ups'.flatten) :
    (nodes (left ++ (e, old) :: (key, new) :: right) ups').Nodup := by
  rw [(perm_nodes ups').nodup_iff, nodup_cons]
  refine ⟨?_, hUps⟩
  intro hBad
  rcases mem_append.mp hBad with hBad | hBad
  · exact hFresh.notMem (mem_append_left _ hBad)
  · exact hNew hBad

theorem mem_level
    {p : Int}
    (hP : p ∈ before ++ after) :
    p ∈ before ++ n :: after := by
  simp only [mem_append, mem_cons] at hP ⊢
  tauto

theorem mem_row_cases
    {e' : K × Int}
    (hE : e' ∈ left ++ (e, old) :: (key, new) :: right) :
    e' ∈ left ++ (e, old) :: right ∨ e' = (key, new) := by
  simp only [mem_append, mem_cons] at hE ⊢
  tauto

/- A page of the longer row is none of the levels above. -/
theorem Fresh.row
    {e' : K × Int}
    (hFresh : f.Fresh (left ++ (e, old) :: right) ups new)
    (hTall : f.Tall (left ++ (e, old) :: right) ups)
    (hE : e' ∈ left ++ (e, old) :: (key, new) :: right) :
    2 ≤ e'.2 ∧ e'.2 < f.numPages ∧ e'.2 ∉ ups.flatten := by
  rcases mem_row_cases hE with hOld | rfl
  · have hMem : e'.2 ∈ (left ++ (e, old) :: right).map Prod.snd := mem_map_of_mem hOld
    have hRange := hTall.pages e'.2 (mem_append_left _ hMem)
    refine ⟨hRange.1, hRange.2, ?_⟩
    intro hBad
    exact (nodup_append.mp hTall.nodup).2.2 e'.2 hMem e'.2 hBad rfl
  · exact ⟨hFresh.low, hFresh.high, fun hBad => hFresh.notMem (mem_append_right _ hBad)⟩

variable {p : Int}

namespace Enters

/- There is one more pair in the node. -/
theorem size (hEnters : Enters n old new first last e key f f₁)
    (hSize : (f.node n).getSize ≤ f.btreeOrder) :
    (f₁.node n).getSize ≤ f.btreeOrder + 1 := by
  rw [← length_kids, hEnters.kidsBefore] at hSize
  rw [← length_kids, hEnters.kidsAfter]
  simp only [length_append, length_cons] at hSize ⊢
  omega

theorem firstKey? (hEnters : Enters n old new first last e key f f₁) :
    (f₁.node n).firstKey? = (f.node n).firstKey? := by
  rw [firstKey?_eq, firstKey?_eq, hEnters.kidsAfter, hEnters.kidsBefore]
  cases first with
  | nil => rfl
  | cons a first => rfl

end Enters

/- A new page is entered in a node of the first level above a
  row. -/
structure EntersAt
    (n old new : Int)
    (before after : List Int)
    (ups : List (List Int))
    (left right first last : List (K × Int))
    (e key : K)
    (f f₁ : IxFile K) :
    Prop where
  tall : f.Tall (left ++ (e, old) :: right) ((before ++ n :: after) :: ups)
  fresh : f.Fresh (left ++ (e, old) :: right) ((before ++ n :: after) :: ups) new
  left : left = before.flatMap f.links.kids ++ first
  right : right = last ++ after.flatMap f.links.kids
  enters : Enters n old new first last e key f f₁

namespace EntersAt

variable (hAt : EntersAt n old new before after ups left right first last e key f f₁)
include hAt

/- Pages of the longer row are different from each other and
  from the levels above. -/
theorem nodup : (nodes (left ++ (e, old) :: (key, new) :: right)
    ((before ++ n :: after) :: ups)).Nodup :=
  hAt.fresh.nodup hAt.tall.nodup (fun hBad => hAt.fresh.notMem (mem_append_right _ hBad))

/- Other pages of the tree are the same. -/
theorem node_eq
    (hP : p ∈ nodes (left ++ (e, old) :: right) ((before ++ n :: after) :: ups))
    (hN : p ≠ n) :
    f₁.node p = f.node p := by
  refine hAt.enters.others p hN ?_
  rintro rfl
  exact hAt.fresh.notMem hP

/- The children of the level are the row. -/
theorem mem_of_kids
    {e' : K × Int}
    (hP : p ∈ before ++ n :: after)
    (hE : e' ∈ f.links.kids p) :
    e' ∈ left ++ (e, old) :: right := by
  rw [← hAt.tall.stands.1]
  exact mem_flatMap.mpr ⟨p, hP, hE⟩

theorem row_eq {e' : K × Int}
    (hE : e' ∈ left ++ (e, old) :: right) : f₁.node e'.2 = f.node e'.2 := by
  refine hAt.node_eq (mem_append_left _ (mem_map_of_mem hE)) ?_
  intro hN
  refine (hAt.tall.apart.2.2 e' hE).1 ?_
  rw [hN]
  simp

/- The levels above do not change. -/
theorem above : f₁.Tall (f.links.tags (before ++ n :: after)) ups := by
  have hUps : ∀ p ∈ ups.flatten, f₁.node p = f.node p := by
    intro p hP
    refine hAt.node_eq ?_ ?_
    · exact mem_append_right _ (by
        exact mem_append_right _ hP)
    · rintro rfl
      exact hAt.tall.apart.2.1 p (by simp) hP
  refine hAt.tall.above.congr hAt.enters.rootPage hAt.enters.order
    (le_of_eq hAt.enters.numPages.symm) hUps ?_
  intro e' hE
  have hUp : e'.2 ∈ before ++ n :: after := by
    rw [← map_snd_tags hAt.tall.stands.2.1]
    exact mem_map_of_mem hE
  by_cases hN : e'.2 = n
  · rw [hN]
    exact hAt.enters.parent
  · rw [hAt.node_eq ?_ hN]
    refine mem_append_right _ ?_
    exact mem_append_left _ hUp

/- The children of other nodes on the level are the same. -/
theorem side_eq (hP : p ∈ before ++ after) : f₁.node p = f.node p := by
  refine hAt.node_eq ?_ ?_
  · exact mem_append_right _ (mem_append_left _ (mem_level hP))
  · rintro rfl
    exact hAt.tall.apart.1 hP

theorem parent_kids {e' : K × Int}
    (hE : e' ∈ IxFile.kids (f₁.node n)) : (f₁.node e'.2).parent = n := by
  rw [hAt.enters.kidsAfter] at hE
  have hCases : e' ∈ IxFile.kids (f.node n) ∨ e' = (key, new) := by
    rw [hAt.enters.kidsBefore]
    simp only [mem_append, mem_cons] at hE ⊢
    tauto
  rcases hCases with hOld | rfl
  · rw [hAt.row_eq (hAt.mem_of_kids (by simp) hOld)]
    exact hAt.tall.stands.2.2.1 n (by simp) e' hOld
  · rw [hAt.enters.entered]

/- There is room for the new page. -/
theorem stays (hRoom : (f₁.node n).getSize ≤ f₁.btreeOrder) :
    f₁.Tall (left ++ (e, old) :: (key, new) :: right)
      ((before ++ n :: after) :: ups) := by
  have hSome : IxFile.kids (f.node n) ≠ [] := by
    rw [hAt.enters.kidsBefore]
    simp
  rcases exists_firstKey hSome with ⟨key₀, hKey₀⟩
  have hKey₁ : (f₁.node n).firstKey? = some key₀ := by
    rw [hAt.enters.firstKey?]
    exact hKey₀
  have hSides : ∀ p ∈ before ++ after, Similar (f.node p) (f₁.node p) := fun p hP =>
    .of_eq (hAt.side_eq hP)
  have hTags : f₁.links.tags (before ++ n :: after) = f.links.tags (before ++ n :: after) := by
    rw [tags_of_same hSides hKey₁, tags_split hKey₀]
  have hFlat : before.flatMap f.links.kids ++
      [n].flatMap f₁.links.kids ++ after.flatMap f.links.kids =
      left ++ (e, old) :: (key, new) :: right := by
    have hN : f₁.links.kids n = first ++ (e, old) :: (key, new) :: last := hAt.enters.kidsAfter
    rw [hAt.left, hAt.right]
    simp [hN]
  have hAbove := hAt.above
  rw [← hTags] at hAbove
  have hNew := Tall.replace [n] hAt.tall (by simpa using hAbove) hAt.enters.order hSides ?_ ?_ ?_ ?_
  · rw [hFlat] at hNew
    simpa using hNew
  · intro p hP e' hE
    rw [hAt.row_eq (hAt.mem_of_kids (mem_level hP) hE)]
  · intro m hM
    rw [mem_singleton.mp hM]
    refine ⟨by rw [hAt.enters.kidsAfter]; simp, ?_, ?_, hRoom⟩
    · intro e' hE
      exact hAt.parent_kids hE
    · rw [hAt.enters.isLeaf]
      exact (hAt.tall.inner n (by simp)).1
  · rw [hFlat]
    simpa using hAt.nodup
  · rw [hFlat]
    intro e' hE
    have hRange := hAt.fresh.row hAt.tall hE
    rw [hAt.enters.numPages]
    exact ⟨hRange.1, hRange.2.1⟩

/- The row is made of the children of the level. -/
theorem flat : before.flatMap f.links.kids ++ kids (f₁.node n) ++
      after.flatMap f.links.kids = left ++ (e, old) :: (key, new) :: right := by
  rw [hAt.left, hAt.right, hAt.enters.kidsAfter]
  simp

theorem mem_row {e' : K × Int}
    (hE : e' ∈ kids (f₁.node n)) :
    e' ∈ left ++ (e, old) :: (key, new) :: right := by
  rw [← hAt.flat]
  simp [hE]

/- The children of the level are all different. -/
theorem kids_apart : ((kids (f₁.node n)).map Prod.snd).Nodup ∧
      ∀ p ∈ before ++ after, ∀ e' ∈ f.links.kids p,
        e'.2 ∉ (kids (f₁.node n)).map Prod.snd := by
  have hRow := (nodup_append.mp hAt.nodup).1
  rw [← hAt.flat, map_append,
    map_append, nodup_append, nodup_append] at hRow
  rcases hRow with ⟨⟨-, hKids, hFirst⟩, -, hLast⟩
  refine ⟨hKids, ?_⟩
  intro p hP e' hE hBad
  rcases mem_append.mp hP with hP | hP
  · refine hFirst e'.2 ?_ e'.2 hBad rfl
    exact mem_map_of_mem (mem_flatMap.mpr ⟨p, hP, hE⟩)
  · refine hLast e'.2 (mem_append_right _ hBad) e'.2 ?_ rfl
    exact mem_map_of_mem (mem_flatMap.mpr ⟨p, hP, hE⟩)

end EntersAt

/- The levels above a row have grown. Pages of the row may
  have got another parent. -/
structure Extends
    (row : List Int)
    (ups : List (List Int))
    (f f' : IxFile K) :
    Prop where
  numPages : f.numPages ≤ f'.numPages
  firstLeaf : f'.firstLeaf = f.firstLeaf
  lastLeaf : f'.lastLeaf = f.lastLeaf
  order : f'.btreeOrder = f.btreeOrder
  node : ∀ p, p < f.numPages → p ∉ row → p ∉ ups.flatten → f'.node p = f.node p
  row : ∀ p, p < f.numPages → p ∉ ups.flatten → ∃ q, f'.node p = { f.node p with parent := q }

theorem Extends.similar
    {row : List Int}
    (hExtends : f.Extends row ups f')
    (hP : p < f.numPages)
    (hUps : p ∉ ups.flatten) :
    Similar (f.node p) (f'.node p) := by
  rcases hExtends.row p hP hUps with ⟨q, hQ⟩
  rw [hQ]
  exact ⟨rfl, rfl⟩

theorem Extends.mono
    {row row' : List Int}
    (hExtends : f.Extends row ups f')
    (hSub : ∀ p ∈ row, p ∈ row') :
    f.Extends row' ups f' :=
  ⟨hExtends.numPages, hExtends.firstLeaf, hExtends.lastLeaf, hExtends.order, fun p hP hRow =>
      hExtends.node p hP (fun hBad => hRow (hSub p hBad)), hExtends.row⟩

/- The halves of the children. -/
theorem kids_halves
    {f₂ : IxFile K}
    (hHalf : SplitsInner n f₁ f₂) :
    kids (f₂.node n) = (kids (f₁.node n)).take ((f₁.node n).getSize / 2) ∧
      kids (f₂.node f₁.numPages) =
        (kids (f₁.node n)).drop ((f₁.node n).getSize / 2) := by
  rw [hHalf.lower, hHalf.upper]
  unfold kids
  simp [map_take, map_drop]

/- A new page is entered in a node, the node is split, and the
  levels above it grow. -/
structure EntersFull
    (n old new : Int)
    (before after : List Int)
    (ups : List (List Int))
    (left right first last : List (K × Int))
    (e key : K)
    (f f₁ f₂ f' : IxFile K) :
    Prop
    extends EntersAt n old new before after ups left right first last e key
      f f₁ where
  halves : IxIndexHandle.SplitsInner n f₁ f₂
  lifts : f₂.Extends ((before ++ n :: after) ++ [f₁.numPages]) ups f'

namespace EntersFull

variable {f₂ : IxFile K} {ups' : List (List Int)}

variable
    (hFull :
      EntersFull n old new before after ups left right first last
        e key f f₁ f₂ f')

include hFull

theorem numPages : f₂.numPages = f.numPages + 1 := by
  rw [hFull.halves.numPages, hFull.enters.numPages]

theorem order : f'.btreeOrder = f.btreeOrder := by
  rw [hFull.lifts.order, hFull.halves.order, hFull.enters.order]

/- Nodes of the level are older than the new one. -/
theorem level (hP : p ∈ before ++ n :: after) :
    p < f.numPages ∧ p ∉ ups.flatten := by
  refine ⟨(hFull.tall.pages p ?_).2, hFull.tall.apart.2.1 p hP⟩
  refine mem_append_right _ ?_
  exact mem_append_left _ hP

/- Pages of the row keep their place among the pages. -/
theorem off
    {e' : K × Int}
    (hE : e' ∈ left ++ (e, old) :: (key, new) :: right) :
    e'.2 < f.numPages ∧ e'.2 ∉ before ++ n :: after ∧ e'.2 ∉ ups.flatten := by
  have hRow := hFull.fresh.row hFull.tall hE
  rw [flatten_cons, mem_append, not_or] at hRow
  exact hRow.2

/- What happens above does not change the row. -/
theorem row_above {e' : K × Int}
    (hE : e' ∈ left ++ (e, old) :: (key, new) :: right) :
    f'.node e'.2 = f₂.node e'.2 := by
  rcases hFull.off hE with ⟨hLess, hLevel, hUps⟩
  have hNum := hFull.numPages
  refine hFull.lifts.node e'.2 (by omega) ?_ hUps
  intro hBad
  rcases mem_append.mp hBad with hBad | hBad
  · exact hLevel hBad
  · rw [mem_singleton.mp hBad, hFull.enters.numPages] at hLess
    exact absurd hLess (lt_irrefl _)

/- The split moves only children of the new node. -/
theorem row_split
    {e' : K × Int}
    (hE : e' ∈ left ++ (e, old) :: (key, new) :: right)
    (hNot : e'.2 ∉ (kids (f₂.node f₁.numPages)).map Prod.snd) :
    f'.node e'.2 = f₁.node e'.2 := by
  rcases hFull.off hE with ⟨hLess, hLevel, -⟩
  rw [hFull.row_above hE]
  refine hFull.halves.others e'.2 ?_ ?_ hNot
  · rw [hFull.enters.numPages]
    exact ne_of_lt hLess
  · rintro rfl
    exact hLevel (by simp)

/- The other nodes of the level keep their children. -/
theorem side (hP : p ∈ before ++ after) : Similar (f.node p) (f'.node p) := by
  have hUp : p ∈ before ++ n :: after := mem_level hP
  rcases hFull.level hUp with ⟨hLess, hOff⟩
  have hNum := hFull.numPages
  have hSame : f₂.node p = f.node p := by
    rw [← hFull.side_eq hP]
    refine hFull.halves.others p ?_ ?_ ?_
    · rw [hFull.enters.numPages]
      exact ne_of_lt hLess
    · rintro rfl
      exact hFull.tall.apart.1 hP
    · intro hBad
      rcases mem_map.mp hBad with ⟨e', hE, rfl⟩
      rw [(kids_halves hFull.halves).2] at hE
      exact (hFull.off (hFull.mem_row (mem_of_mem_drop hE))).2.1 hUp
  rw [← hSame]
  exact hFull.lifts.similar (by omega) hOff

/- The children of other nodes keep their parents. -/
theorem side_parent
    {e' : K × Int}
    (hP : p ∈ before ++ after)
    (hE : e' ∈ f.links.kids p) :
    (f'.node e'.2).parent = (f.node e'.2).parent := by
  have hOldRow := hFull.mem_of_kids (mem_level hP) hE
  have hRow : e' ∈ left ++ (e, old) :: (key, new) :: right := by
    simp only [mem_append, mem_cons] at hOldRow ⊢
    tauto
  rw [hFull.row_split hRow, hFull.row_eq hOldRow]
  intro hBad
  refine hFull.kids_apart.2 p hP e' hE ?_
  rw [(kids_halves hFull.halves).2, map_drop] at hBad
  exact mem_of_mem_drop hBad

/- The two halves have the children of the node. -/
theorem halves_kids :
    kids (f'.node n) = (kids (f₁.node n)).take ((f₁.node n).getSize / 2) ∧
      kids (f'.node f₁.numPages) =
        (kids (f₁.node n)).drop ((f₁.node n).getSize / 2) ∧
      (f'.node n).isLeaf = false ∧ (f'.node f₁.numPages).isLeaf = false := by
  have hNum := hFull.numPages
  rcases hFull.level (p := n) (by simp) with ⟨hLess, hOff⟩
  have hN := hFull.lifts.similar (p := n) (by omega) hOff
  have hTop : f₁.numPages ∉ ups.flatten := by
    intro hBad
    have hRange := hFull.tall.pages f₁.numPages (mem_append_right _ (by
        exact mem_append_right _ hBad))
    rw [hFull.enters.numPages] at hRange
    exact absurd hRange.2 (lt_irrefl _)
  have hM := hFull.lifts.similar (p := f₁.numPages) (by rw [hFull.enters.numPages]; omega) hTop
  rw [hN.kids, hM.kids, hN.isLeaf, hM.isLeaf, hFull.halves.upper]
  refine ⟨(kids_halves hFull.halves).1, ?_, ?_, rfl⟩
  · rw [← hFull.halves.upper]
    exact (kids_halves hFull.halves).2
  · rw [hFull.halves.lower]
    exact hFull.enters.isLeaf.trans (hFull.tall.inner n (by simp)).1

theorem parent_lower
    {e' : K × Int}
    (hE : e' ∈ kids (f'.node n)) :
    (f'.node e'.2).parent = n := by
  rw [hFull.halves_kids.1] at hE
  have hIn := mem_of_mem_take hE
  have hRow := hFull.mem_row hIn
  rw [hFull.row_split hRow]
  · exact hFull.parent_kids hIn
  · have hNodup := hFull.kids_apart.1
    rw [← take_append_drop ((f₁.node n).getSize / 2) ((kids (f₁.node n)).map Prod.snd),
      nodup_append] at hNodup
    rw [(kids_halves hFull.halves).2, map_drop]
    intro hBad
    refine hNodup.2.2 e'.2 ?_ e'.2 hBad rfl
    rw [← map_take]
    exact mem_map_of_mem hE

theorem parent_upper {e' : K × Int}
    (hE : e' ∈ kids (f'.node f₁.numPages)) :
    (f'.node e'.2).parent = f₁.numPages := by
  rw [hFull.halves_kids.2.1] at hE
  have hRow := hFull.mem_row (mem_of_mem_drop hE)
  rw [hFull.row_above hRow, hFull.halves.moved e' (by
    rw [(kids_halves hFull.halves).2]
    exact hE)]

/- Both halves are nodes of the level. -/
theorem mid
    (hOrder : 1 ≤ f.btreeOrder)
    (hSize : f.btreeOrder + 1 ≤ (f₁.node n).getSize)
    {m : Int}
    (hM : m ∈ [n, f₁.numPages]) :
    kids (f'.node m) ≠ [] ∧ (∀ e ∈ kids (f'.node m), (f'.node e.2).parent = m) ∧
      (f'.node m).isLeaf = false ∧ (f'.node m).getSize ≤ f'.btreeOrder := by
  have hMost := hFull.enters.size (hFull.tall.inner n (by simp)).2
  rcases hFull.halves_kids with ⟨hLower, hUpper, hLeaf, hLeaf'⟩
  have hLength : (IxFile.kids (f₁.node n)).length = (f₁.node n).getSize := length_kids
  rw [mem_cons, mem_singleton] at hM
  rw [hFull.order, ← length_kids]
  rcases hM with rfl | rfl
  · refine ⟨?_, fun e hE => hFull.parent_lower hE, hLeaf, ?_⟩
    · rw [hLower, ← length_pos_iff, length_take]
      omega
    · rw [hLower, length_take]
      omega
  · refine ⟨?_, fun e hE => hFull.parent_upper hE, hLeaf', ?_⟩
    · rw [hUpper, ← length_pos_iff, length_drop]
      omega
    · rw [hUpper, length_drop]
      omega

/- The level with the new node stands on the longer row. -/
theorem splits
    (hOrder : 1 ≤ f.btreeOrder)
    (hSize : f.btreeOrder + 1 ≤ (f₁.node n).getSize)
    (hAbove : f'.Tall (f'.links.tags (before ++ [n, f₁.numPages] ++ after))
      ups')
    (hUps : ∀ p ∈ ups'.flatten, p ∈ ups.flatten ∨ f₂.numPages ≤ p) :
    f'.Tall (left ++ (e, old) :: (key, new) :: right)
      ((before ++ [n, f₁.numPages] ++ after) :: ups') := by
  have hFlat : before.flatMap f.links.kids ++ [n, f₁.numPages].flatMap f'.links.kids ++
        after.flatMap f.links.kids = left ++ (e, old) :: (key, new) :: right := by
    rw [← hFull.flat]
    rcases hFull.halves_kids with ⟨hLower, hUpper, -, -⟩
    have hLower' : f'.links.kids n = _ := hLower
    have hUpper' : f'.links.kids f₁.numPages = _ := hUpper
    simp only [flatMap_cons, flatMap_nil,
      append_nil, hLower', hUpper', take_append_drop]
  have hSome : ∀ p ∈ before ++ [n, f₁.numPages] ++ after, f'.links.kids p ≠ [] := by
    intro p hP
    have hCases : p ∈ [n, f₁.numPages] ∨ p ∈ before ++ after := by
      simp only [mem_append] at hP ⊢
      tauto
    rcases hCases with hP | hP
    · exact (hFull.mid hOrder hSize hP).1
    · change kids (f'.node p) ≠ []
      rw [(hFull.side hP).kids]
      exact hFull.tall.stands.2.1 p (mem_level hP)
  have hNew := Tall.replace [n, f₁.numPages] hFull.tall hAbove
    hFull.order (fun p hP => hFull.side hP) (fun p hP e' hE => hFull.side_parent hP hE)
    (fun m hM => hFull.mid hOrder hSize hM) ?_ ?_
  · rw [hFlat] at hNew
    exact hNew
  · rw [hFlat]
    have hLevels := hAbove.nodup
    unfold nodes at hLevels ⊢
    rw [map_snd_tags hSome, ← flatten_cons] at hLevels
    have hRow := hFull.nodup
    refine nodup_append.mpr ⟨(nodup_append.mp hRow).1, hLevels, ?_⟩
    intro a hA b hB hEq
    subst hEq
    rcases mem_map.mp hA with ⟨e', hE, rfl⟩
    rcases hFull.off hE with ⟨hLess, hLevel, hOff⟩
    have hNum := hFull.numPages
    have hNum₁ := hFull.enters.numPages
    rw [flatten_cons] at hB
    simp only [mem_append, mem_cons, not_mem_nil, or_false, not_or] at hB hLevel
    rcases hB with ((hB | hB | hB) | hB) | hB
    · exact hLevel.1 hB
    · exact hLevel.2.1 hB
    · omega
    · exact hLevel.2.2 hB
    · rcases hUps e'.2 hB with hBad | hBad
      · exact hOff hBad
      · omega
  · rw [hFlat]
    intro e' hE
    have hRange := hFull.fresh.row hFull.tall hE
    have hMore := hFull.lifts.numPages
    have hNum := hFull.numPages
    omega

/- Pages below the level only get another parent. -/
theorem below
    (hLess : p < f.numPages)
    (hN : p ∉ before ++ n :: after)
    (hUps : p ∉ ups.flatten) :
    ∃ q, f'.node p = { f.node p with parent := q } := by
  have hNum := hFull.numPages
  rcases hFull.lifts.row p (by omega) hUps with ⟨q, hQ⟩
  have hNe : p ≠ n := by
    rintro rfl
    exact hN (by simp)
  have hEntered : ∃ q, f₁.node p = { f.node p with parent := q } := by
    by_cases hNew : p = new
    · subst hNew
      exact ⟨n, hFull.enters.entered⟩
    · exact ⟨(f.node p).parent, hFull.enters.others p hNe hNew⟩
  rcases hEntered with ⟨q₁, hQ₁⟩
  have hSplit : ∃ q, f₂.node p = { f₁.node p with parent := q } := by
    by_cases hMoved : p ∈ (kids (f₂.node f₁.numPages)).map Prod.snd
    · rcases mem_map.mp hMoved with ⟨e', hE, rfl⟩
      exact ⟨_, hFull.halves.moved e' hE⟩
    · refine ⟨(f₁.node p).parent, hFull.halves.others p ?_ hNe hMoved⟩
      rw [hFull.enters.numPages]
      exact ne_of_lt hLess
  rcases hSplit with ⟨q₂, hQ₂⟩
  refine ⟨q, ?_⟩
  rw [hQ, hQ₂, hQ₁]

/- All other pages are the same. -/
theorem kept
    (hLess : p < f.numPages)
    (hN : p ∉ before ++ n :: after)
    (hUps : p ∉ ups.flatten)
    (hRow : p ∉ (left ++ (e, old) :: (key, new) :: right).map Prod.snd) :
    f'.node p = f.node p := by
  have hNum := hFull.numPages
  have hNum₁ := hFull.enters.numPages
  have hNe : p ≠ n := by
    rintro rfl
    exact hN (by simp)
  rw [hFull.lifts.node p (by omega) ?_ hUps, hFull.halves.others p (by omega) hNe ?_,
    hFull.enters.others p hNe ?_]
  · rintro rfl
    exact hRow (by simp)
  · intro hBad
    rcases mem_map.mp hBad with ⟨e', hE, rfl⟩
    rw [(kids_halves hFull.halves).2] at hE
    exact hRow (mem_map_of_mem (hFull.mem_row (mem_of_mem_drop hE)))
  · intro hBad
    rcases mem_append.mp hBad with hBad | hBad
    · exact hN hBad
    · rw [mem_singleton] at hBad
      omega

end EntersFull

/- A new page has been entered behind an old one. -/
structure Grown
    (left right : List (K × Int))
    (e oldKey key : K)
    (old new : Int)
    (ups : List (List Int))
    (f f' : IxFile K)
    (e' : K)
    (ups' : List (List Int)) :
    Prop where
  tall : f'.Tall (left ++ (e', old) :: (key, new) :: right) ups'
  first : e' = e ∨ left = [] ∧ e' = oldKey
  extends_ : f.Extends ((left ++ (e, old) :: (key, new) :: right).map Prod.snd) ups f'
  levels : ∀ p ∈ ups'.flatten, p ∈ ups.flatten ∨ f.numPages ≤ p

/- The root of a tree is its whole top level. -/
theorem Tall.eq_root (hTall : f.Tall (left ++ (e, old) :: right) []) :
    left = [] ∧ right = [] ∧ f.rootPage = old ∧
      (f.node old).parent = ixNoPage := by
  rcases hTall.stands with ⟨k, hRow, hRoot⟩
  cases left with
  | nil =>
    simp only [nil_append, cons.injEq, Prod.mk.injEq] at hRow
    rcases hRow with ⟨⟨-, rfl⟩, hRight⟩
    exact ⟨rfl, hRight, rfl, hRoot⟩
  | cons a left => simp at hRow

/- The children of the new root are the two nodes. -/
theorem grown_newRoot
    {oldKey : K}
    (hTall : f.Tall (left ++ (e, old) :: right) [])
    (hFresh : f.Fresh (left ++ (e, old) :: right) [] new)
    (hOrder : 2 ≤ f.btreeOrder)
    (hNum : f'.numPages = f.numPages + 1)
    (hRoot : f'.rootPage = f.numPages)
    (hHeader : f'.firstLeaf = f.firstLeaf ∧ f'.lastLeaf = f.lastLeaf ∧
      f'.btreeOrder = f.btreeOrder)
    (hKids : kids (f'.node f.numPages) = [(oldKey, old), (key, new)])
    (hInner : (f'.node f.numPages).isLeaf = false)
    (hTop : (f'.node f.numPages).parent = ixNoPage)
    (hNode : f'.node old = { f.node old with parent := f.numPages } ∧
        f'.node new = { f.node new with parent := f.numPages })
    (hOthers : ∀ p, p ≠ f.numPages → p ≠ old → p ≠ new → f'.node p = f.node p) :
    Grown left right e oldKey key old new [] f f' oldKey [[f.numPages]] := by
  rcases hTall.eq_root with ⟨rfl, rfl, -, -⟩
  have hOld := hTall.pages old (by simp [nodes])
  have hNe : new ≠ old := fun hBad => hFresh.notMem (by simp [nodes, hBad])
  have hNew := hFresh.high
  have hNew' := hFresh.low
  have hRootKids : f'.links.kids f.numPages = [(oldKey, old), (key, new)] := hKids
  refine ⟨?_, Or.inr ⟨rfl, rfl⟩, ?_, ?_⟩
  · refine ⟨⟨by simp [hRootKids], by simp [hRootKids], ?_, ?_⟩, ?_, ?_, ?_⟩
    · intro m hM e' hE
      rw [mem_singleton.mp hM] at hE ⊢
      rw [hRootKids] at hE
      change (f'.node e'.2).parent = f.numPages
      simp only [mem_cons, not_mem_nil, or_false] at hE
      rcases hE with rfl | rfl
      · rw [hNode.1]
      · rw [hNode.2]
    · refine ⟨oldKey, ?_, ?_⟩
      · rw [tags_cons hRootKids, hRoot]
        rfl
      · change (f'.node f'.rootPage).parent = ixNoPage
        rw [hRoot, hTop]
    · simp only [nodes, nil_append, map_cons,
        map_nil, flatten_cons, flatten_nil,
        append_nil, cons_append, nodup_cons,
        mem_cons, not_mem_nil, or_false]
      refine ⟨by omega, by omega, by simp, nodup_nil⟩
    · intro p hP
      simp only [nodes, nil_append, map_cons,
        map_nil, flatten_cons, flatten_nil, append_nil, cons_append,
        mem_cons, not_mem_nil, or_false] at hP
      omega
    · intro p hP
      have hP' : p = f.numPages := by simpa using hP
      rw [hP']
      refine ⟨hInner, ?_⟩
      rw [← length_kids, hKids, hHeader.2.2]
      exact hOrder
  · refine ⟨by omega, hHeader.1, hHeader.2.1, hHeader.2.2, ?_, ?_⟩
    · intro p hP hRow _
      refine hOthers p (ne_of_lt hP) ?_ ?_
      · rintro rfl
        exact hRow (by simp)
      · rintro rfl
        exact hRow (by simp)
    · intro p hP _
      by_cases hPOld : p = old
      · rw [hPOld]
        exact ⟨_, hNode.1⟩
      · by_cases hPNew : p = new
        · rw [hPNew]
          exact ⟨_, hNode.2⟩
        · exact ⟨(f.node p).parent, hOthers p (ne_of_lt hP) hPOld hPNew⟩
  · intro p hP
    have hP' : p = f.numPages := by simpa using hP
    exact Or.inr (le_of_eq hP'.symm)

/- The parent has room. -/
theorem EntersAt.grown {oldKey : K}
    (hAt : EntersAt n old new before after ups left right first last e key f f₁)
    (hRoom : (f₁.node n).getSize ≤ f₁.btreeOrder) :
    Grown left right e oldKey key old new ((before ++ n :: after) :: ups) f f₁ e
      ((before ++ n :: after) :: ups) := by
  have hUp : n ∈ ((before ++ n :: after) :: ups).flatten := by simp
  refine ⟨hAt.stays hRoom,
    Or.inl rfl, ⟨le_of_eq hAt.enters.numPages.symm,
      hAt.enters.firstLeaf, hAt.enters.lastLeaf, hAt.enters.order, ?_, ?_⟩, fun p hP => Or.inl hP⟩
  · intro p _ hRow hUps
    refine hAt.enters.others p ?_ ?_
    · rintro rfl
      exact hUps hUp
    · rintro rfl
      exact hRow (by simp)
  · intro p _ hUps
    by_cases hNew : p = new
    · rw [hNew]
      exact ⟨n, hAt.enters.entered⟩
    · refine ⟨(f.node p).parent, hAt.enters.others p ?_ hNew⟩
      rintro rfl
      exact hUps hUp

/- The parent has been split, and the levels above it grew. -/
theorem EntersFull.grown
    {f₂ : IxFile K}
    {oldKey : K}
    (hFull : EntersFull n old new before after ups left right first last e
      key f f₁ f₂ f')
    (hOrder : 1 ≤ f.btreeOrder)
    (hSize : f.btreeOrder + 1 ≤ (f₁.node n).getSize)
    (hAbove : f'.Tall (f'.links.tags (before ++ [n, f₁.numPages] ++ after))
      ups')
    (hUps : ∀ p ∈ ups'.flatten, p ∈ ups.flatten ∨ f₂.numPages ≤ p) :
    Grown left right e oldKey key old new ((before ++ n :: after) :: ups) f f' e
      ((before ++ [n, f₁.numPages] ++ after) :: ups') := by
  have hNum := hFull.numPages
  have hMore := hFull.lifts.numPages
  refine ⟨hFull.splits hOrder hSize hAbove hUps, Or.inl rfl,
    ⟨by omega, ?_, ?_, hFull.order, ?_, ?_⟩, ?_⟩
  · rw [hFull.lifts.firstLeaf, hFull.halves.firstLeaf, hFull.enters.firstLeaf]
  · rw [hFull.lifts.lastLeaf, hFull.halves.lastLeaf, hFull.enters.lastLeaf]
  · intro p hLess hRow hOff
    rw [flatten_cons, mem_append, not_or] at hOff
    exact hFull.kept hLess hOff.1 hOff.2 hRow
  · intro p hLess hOff
    rw [flatten_cons, mem_append, not_or] at hOff
    exact hFull.below hLess hOff.1 hOff.2
  · intro p hP
    rw [flatten_cons, mem_append] at hP ⊢
    rcases hP with hP | hP
    · simp only [mem_append, mem_cons, not_mem_nil, or_false] at hP ⊢
      rcases hP with (hP | hP | hP) | hP
      · exact Or.inl (Or.inl (Or.inl hP))
      · exact Or.inl (Or.inl (Or.inr (Or.inl hP)))
      · rw [hP, hFull.enters.numPages]
        exact Or.inr (le_refl _)
      · exact Or.inl (Or.inl (Or.inr (Or.inr hP)))
    · rcases hUps p hP with hP | hP
      · exact Or.inl (Or.inr hP)
      · exact Or.inr (by omega)

/- The levels above a split node are still the old ones. -/
theorem EntersAt.above_split
    {f₂ : IxFile K}
    (hAt : EntersAt n old new before after ups left right first last e key f f₁)
    (hHalf : SplitsInner n f₁ f₂) :
    f₂.Tall (f.links.tags (before ++ n :: after)) ups := by
  have hAbove := hAt.above
  -- only children of the node are moved
  have hStay : ∀ p ∈ (before ++ n :: after) ++ ups.flatten, p ≠ n → f₂.node p = f₁.node p := by
    intro p hP hN
    have hRange := hAt.tall.pages p (mem_append_right _ (by
      exact hP))
    refine hHalf.others p ?_ hN ?_
    · rw [hAt.enters.numPages]
      exact ne_of_lt hRange.2
    · intro hBad
      rcases mem_map.mp hBad with ⟨e', hE, rfl⟩
      rw [(kids_halves hHalf).2] at hE
      refine (hAt.fresh.row hAt.tall (hAt.mem_row (mem_of_mem_drop hE))).2.2 ?_
      exact hP
  refine hAbove.congr hHalf.rootPage hHalf.order ?_ ?_ ?_
  · rw [hHalf.numPages]
    omega
  · intro p hP
    refine hStay p (mem_append_right _ hP) ?_
    rintro rfl
    exact hAt.tall.apart.2.1 p (by simp) hP
  · intro e' hE
    have hUp : e'.2 ∈ before ++ n :: after := by
      rw [← map_snd_tags hAt.tall.stands.2.1]
      exact mem_map_of_mem hE
    by_cases hN : e'.2 = n
    · rw [hN, hHalf.lower]
    · rw [hStay e'.2 (mem_append_left _ hUp) hN]

end IxFile

variable {old : Int}

namespace IxIndexHandle

/- The pages after a new root has been put over two nodes. -/
theorem grown_newRoot
    {s : IxIndexHandle K}
    {left right : List (K × Int)}
    {e oldKey key : K}
    (hTall : s.file.Tall (left ++ (e, old) :: right) [])
    (hFresh : s.file.Fresh (left ++ (e, old) :: right) [] new)
    (hOrder : 2 ≤ s.file.btreeOrder) :
    IxFile.Grown left right e oldKey key old new [] s.file
      (s.newRoot old new oldKey key).file oldKey [[s.file.numPages]] := by
  have hOld := hTall.pages old (by simp [nodes])
  have hNe : old ≠ new := fun hBad => hFresh.notMem (by simp [nodes, hBad])
  have hNew := hFresh.high
  have hRootOld : old ≠ s.file.numPages := ne_of_lt hOld.2
  have hRootNew : new ≠ s.file.numPages := ne_of_lt hNew
  refine IxFile.grown_newRoot hTall hFresh hOrder ?_ ?_ ?_ ?_ ?_ ?_ ⟨?_, ?_⟩ ?_
  · simp [newRoot, createNode]
  · simp [newRoot, createNode]
  · simp [newRoot, createNode]
  · simp [newRoot, createNode, hRootOld.symm, hRootNew.symm, insertPairs, IxFile.kids]
  · simp [newRoot, createNode, hRootOld.symm, hRootNew.symm, insertPairs]
  · simp [newRoot, createNode, hRootOld.symm, hRootNew.symm, insertPairs]
  · simp [newRoot, createNode, hRootOld, hNe]
  · simp [newRoot, createNode, hRootNew, hNe.symm]
  · intro p hP hPOld hPNew
    simp [newRoot, createNode, hP, hPOld, hPNew]

/- A new page is entered in the parent of an old one. -/
def enterChild
    (s : IxIndexHandle K)
    (n old : Int)
    (key : K)
    (new : Int) :
    IxIndexHandle K :=
  ((s.fetchNode n).modify n (fun node =>
    node.insertPairs (((s.fetchNode n).node n).findChild old + 1)
      [(key, ⟨new, -1⟩)])).modify new (fun node =>
        { node with parent := n })

theorem enters_enterChild
    {s : IxIndexHandle K}
    {first last : List (K × Int)}
    {e : K}
    {n : Int}
    (key : K)
    (hKids : IxFile.kids (s.node n) = first ++ (e, old) :: last)
    (hOnce : old ∉ first.map Prod.snd)
    (hNew : new ≠ n) :
    IxFile.Enters n old new first last e key s.file
      (s.enterChild n old key new).file := by
  have hFind : (s.file.node n).findChild old = first.length := findChild_eq hKids hOnce
  have hNode : (s.enterChild n old key new).file.node n = (s.node n).insertPairs (first.length + 1)
        [(key, ⟨new, -1⟩)] := by
    unfold enterChild
    rw [node, file_fetchNode, hFind]
    simp [hNew.symm]
  refine ⟨rfl, rfl, rfl, rfl, rfl, hKids, ?_, ?_, ?_, ?_, ?_⟩
  · rw [hNode]
    exact kids_insertPairs hKids
  · rw [hNode]
    rfl
  · rw [hNode]
    rfl
  · simp [enterChild, hNew]
  · intro p hP hP'
    simp [enterChild, hP, hP']

theorem insertIntoParent_eq
    {s : IxIndexHandle K}
    {key : K}
    (fuel : Nat)
    (hParent : (s.node old).parent ≠ ixNoPage) :
    insertIntoParent (fuel + 1) s old key new =
      let n := (s.node old).parent
      let s₃ := s.enterChild n old key new
      if s₃.overflows n then
        none
      else if s₃.getMaxSize ≤ (s₃.node n).getSize then
        let (s₄, newParent) := s₃.split n
        match (s₄.node newParent).firstKey? with
        | none => none
        | some key' =>
          match insertIntoParent fuel s₄ n key' newParent with
          | none => none
          | some s₅ => some ((s₅.unpinPage newParent true).unpinPage n true)
      else
        some (s₃.unpinPage n true) := by
  conv_lhs => unfold insertIntoParent
  rw [if_neg hParent]
  rfl

end IxIndexHandle

namespace IxFile.EntersAt

variable {f : IxFile K} {s₃ : IxIndexHandle K}
variable {ups : List (List Int)}
variable {left right first last : List (K × Int)}
variable {before after : List Int} {e key : K} {n old new : Int}

/- The node with the new page is split. -/
theorem split
    (hAt : EntersAt n old new before after ups left right first last e key f
      s₃.file) :
    (s₃.split n).2 = s₃.file.numPages ∧
      SplitsInner n s₃.file (s₃.split n).1.file := by
  have hUp : n ∈ ((before ++ n :: after) :: ups).flatten := by simp
  refine split_inner ?_ ?_ ?_
  · exact hAt.enters.isLeaf.trans (hAt.tall.inner n hUp).1
  · rw [hAt.enters.numPages]
    exact ne_of_lt (hAt.tall.pages n (mem_append_right _ hUp)).2
  · intro e' hE
    have hRow := hAt.fresh.row hAt.tall (hAt.mem_row hE)
    rw [hAt.enters.numPages]
    refine ⟨ne_of_lt hRow.2.1, ?_⟩
    intro hN
    exact hRow.2.2 (by rw [hN]; exact hUp)

/- Both halves have a first key, and the lower one keeps its. -/
theorem half_keys
    {f₁ f₂ : IxFile K}
    (hAt : EntersAt n old new before after ups left right first last e key f f₁)
    (hOrder : 2 ≤ f.btreeOrder)
    (hSize : f.btreeOrder + 1 ≤ (f₁.node n).getSize)
    (hHalf : SplitsInner n f₁ f₂) :
    ∃ key₀ key', (f.node n).firstKey? = some key₀ ∧
      (f₂.node n).firstKey? = some key₀ ∧
      (f₂.node f₁.numPages).firstKey? = some key' := by
  have hLength : (IxFile.kids (f₁.node n)).length = (f₁.node n).getSize := length_kids
  rcases kids_halves hHalf with ⟨hLower, hUpper⟩
  have hSome : IxFile.kids (f.node n) ≠ [] := by
    rw [hAt.enters.kidsBefore]
    simp
  have hSome' : IxFile.kids (f₂.node f₁.numPages) ≠ [] := by
    rw [hUpper, ← length_pos_iff, length_drop]
    omega
  rcases exists_firstKey hSome with ⟨key₀, hKey₀⟩
  rcases exists_firstKey hSome' with ⟨key', hKey'⟩
  refine ⟨key₀, key', hKey₀, ?_, hKey'⟩
  rw [← hKey₀, ← hAt.enters.firstKey?, firstKey?_eq,
    firstKey?_eq, hLower, head?_take, if_neg]
  omega

/- The new node is no part of the levels above. -/
theorem fresh_split {f₁ f₂ : IxFile K}
    (hAt : EntersAt n old new before after ups left right first last e key f f₁)
    (hHalf : SplitsInner n f₁ f₂) :
    f₂.Fresh (f.links.tags (before ++ n :: after)) ups
      f₁.numPages := by
  have hRange := hAt.tall.above.pages n (by
    unfold nodes
    rw [map_snd_tags hAt.tall.stands.2.1]
    simp)
  have hNum := hAt.enters.numPages
  have hNum₂ := hHalf.numPages
  refine ⟨?_, by omega, by omega⟩
  intro hBad
  have hLess := (hAt.tall.above.pages _ hBad).2
  omega

end IxFile.EntersAt

/- What has grown above a split node, seen from below. -/
theorem IxFile.Grown.lower
    {f f₁ f₂ f' : IxFile K}
    {left right first last : List (K × Int)}
    {before after : List Int}
    {e key key₀ key' oldKey : K}
    {n : Int}
    (hAt : EntersAt n old new before after ups left right first last e key f f₁)
    (hHalf : SplitsInner n f₁ f₂)
    (hOrder : 1 ≤ f.btreeOrder)
    (hSize : f.btreeOrder + 1 ≤ (f₁.node n).getSize)
    (hLower : (f₂.node n).firstKey? = some key₀)
    (hUpper : (f₂.node f₁.numPages).firstKey? = some key')
    (hGrown : Grown (f.links.tags before) (f.links.tags after) key₀ key₀
        key' n f₁.numPages ups f₂ f' key₀ ups') :
    Grown left right e oldKey key old new ((before ++ n :: after) :: ups) f f' e
      ((before ++ [n, f₁.numPages] ++ after) :: ups') := by
  have hSome := hAt.tall.stands.2.1
  have hBefore : (f.links.tags before).map Prod.snd = before :=
    map_snd_tags (fun p hP => hSome p (mem_append_left _ hP))
  have hAfter : (f.links.tags after).map Prod.snd = after :=
    map_snd_tags (fun p hP => hSome p (by simp [hP]))
  have hLifts : f₂.Extends ((before ++ n :: after) ++ [f₁.numPages]) ups f' := by
    refine hGrown.extends_.mono ?_
    intro p hP
    rw [map_append, map_cons, map_cons, hBefore, hAfter] at hP
    simp only [mem_append, mem_cons, not_mem_nil, or_false] at hP ⊢
    tauto
  have hFull : EntersFull n old new before after ups left right first last e key f f₁ f₂ f' :=
    ⟨hAt, hHalf, hLifts⟩
  refine hFull.grown hOrder hSize ?_ hGrown.levels
  -- the halves are entered under the keys that they have
  rcases hFull.halves_kids with ⟨hKidsN, hKidsM, -, -⟩
  rcases kids_halves hHalf with ⟨hLow, hHigh⟩
  rw [firstKey?_eq, hLow, ← hKidsN, ← firstKey?_eq] at hLower
  rw [firstKey?_eq, hHigh, ← hKidsM, ← firstKey?_eq] at hUpper
  have hSides : ∀ p ∈ before ++ after, f'.links.kids p = f.links.kids p := by
    intro p hP
    exact (hFull.side hP).kids
  have hTags : f'.links.tags (before ++ [n, f₁.numPages] ++ after) = f.links.tags before ++
          (key₀, n) :: (key', f₁.numPages) :: f.links.tags after := by
    rw [append_assoc, cons_append, cons_append, nil_append, tags_split hLower]
    have hRest : f'.links.tags ([] ++ f₁.numPages :: after) = _ := tags_split hUpper
    rw [nil_append] at hRest
    rw [hRest, tags_congr (fun p hP =>
        hSides p (mem_append_left _ hP)), tags_congr (fun p hP =>
        hSides p (mem_append_right _ hP))]
    rfl
  rw [hTags]
  exact hGrown.tall

namespace IxIndexHandle

/- A new page gets its place behind an old one. -/
theorem tall_insertIntoParent
    {s : IxIndexHandle K}
    {left right : List (K × Int)}
    {e oldKey key : K}
    {fuel : Nat}
    (hTall : s.file.Tall (left ++ (e, old) :: right) ups)
    (hFresh : s.file.Fresh (left ++ (e, old) :: right) ups new)
    (hOld : (s.node old).firstKey? = some oldKey)
    (hNew : (s.node new).firstKey? = some key)
    (hOrder : 2 ≤ s.file.btreeOrder)
    (hFuel : ups.length < fuel) :
    ∃ s' e' ups', insertIntoParent fuel s old key new = some s' ∧
      IxFile.Grown left right e oldKey key old new ups s.file s'.file e'
        ups' := by
  induction ups generalizing s left right e old oldKey new key fuel with
  | nil =>
    cases fuel with
    | zero => cases hFuel
    | succ fuel =>
      refine ⟨_, oldKey, [[s.file.numPages]], ?_, grown_newRoot hTall hFresh hOrder⟩
      unfold insertIntoParent
      rw [if_pos hTall.eq_root.2.2.2, hOld, hNew]
  | cons up ups ih =>
    cases fuel with
    | zero => cases hFuel
    | succ fuel =>
      rcases hTall.locate with
        ⟨before, n, after, first, last, rfl, hKids, hParent, hLeft, hRight, hOnce, hSome⟩
      have hNewN : new ≠ n := by
        rintro rfl
        exact hFresh.notMem (by simp [nodes])
      have hEnters := enters_enterChild key hKids hOnce hNewN
      rw [insertIntoParent_eq fuel (by rw [hParent]; exact hSome), hParent]
      dsimp only
      generalize s.enterChild n old key new = s₃ at hEnters ⊢
      have hAt : IxFile.EntersAt n old new before after ups _ _ _ _ e key s.file s₃.file :=
        ⟨hTall, hFresh, hLeft, hRight, hEnters⟩
      have hFits : ¬ s₃.overflows n = true := by
        have hMost := hEnters.size (hTall.inner n (by simp)).2
        unfold overflows getMaxSize
        rw [hEnters.order]
        simpa using hMost
      rw [if_neg hFits]
      by_cases hRoom : s₃.getMaxSize ≤ (s₃.node n).getSize
      · rw [if_pos hRoom]
        have hSize : s.file.btreeOrder + 1 ≤ (s₃.node n).getSize := by
          rw [← hEnters.order]
          exact hRoom
        rcases hAt.split with ⟨hPage, hHalf⟩
        generalize s₃.split n = r at hPage hHalf ⊢
        rcases r with ⟨s₄, m⟩
        subst hPage
        rcases hAt.half_keys hOrder hSize hHalf with ⟨key₀, key', hKey₀, hLower, hUpper⟩
        have hAbove := hAt.above_split hHalf
        have hFresh₄ := hAt.fresh_split hHalf
        rw [IxFile.tags_split hKey₀] at hAbove hFresh₄
        rcases ih hAbove hFresh₄ hLower hUpper
          (by rw [hHalf.order, hEnters.order]; exact hOrder) (by simpa using hFuel) with
          ⟨s₅, e', ups', hRun, hGrown⟩
        have hFirst : e' = key₀ := by
          rcases hGrown.first with hEq | ⟨-, hEq⟩
          · exact hEq
          · exact hEq
        subst hFirst
        simp only [hUpper, hRun]
        refine ⟨_, e, (before ++ [n, s₃.file.numPages] ++ after) :: ups', rfl, ?_⟩
        rw [file_unpinPage, file_unpinPage]
        exact IxFile.Grown.lower hAt hHalf (by omega) hSize hLower hUpper hGrown
      · rw [if_neg hRoom]
        refine ⟨_, e, (before ++ n :: after) :: ups, rfl, ?_⟩
        rw [file_unpinPage]
        refine hAt.grown ?_
        exact Nat.le_of_not_lt hRoom

end IxIndexHandle

end Rmdb
