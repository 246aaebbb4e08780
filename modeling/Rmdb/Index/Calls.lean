import Rmdb.Index.Shape

/-
  This file follows the calls on an index: the search for a
  leaf, the lookup, and the two ways to change the tree.

  Between calls the pages have a shape, and they represent a
  map from keys to rids.  Each call does to the pages what it
  should do to the map.

  Key definitions include:
    * `IxFile.Represents`

  Key theorems include:
    * `IxIndexHandle.findLeafPage_eq`
    * `IxIndexHandle.getValue_eq`
    * `IxIndexHandle.insertEntry_new`
    * `IxIndexHandle.deleteEntry_known`
-/

namespace Rmdb

open Tower Function List Links IxNode

variable {K : Type}

------------
-- Search
------------

namespace IxFile

variable {f : IxFile K} {row : List (K × Int)}
variable {ups : List (List Int)}

variable (hTall : f.Tall row ups)
include hTall

theorem Tall.root_mem : f.rootPage ∈ nodes row ups := by
  induction ups generalizing row with
  | nil =>
    rcases hTall.stands with ⟨k, rfl, -⟩
    simp [nodes]
  | cons up ups ih =>
    have hUp := ih hTall.above
    unfold nodes at hUp ⊢
    rw [map_snd_tags hTall.stands.2.1] at hUp
    exact mem_append_right _ hUp

/- There is a node on every level. -/
theorem Tall.length_le : ups.length < (nodes row ups).length := by
  induction ups generalizing row with
  | nil =>
    rcases hTall.stands with ⟨k, rfl, -⟩
    simp [nodes]
  | cons up ups ih =>
    have hUp := ih hTall.above
    unfold nodes at hUp ⊢
    rw [map_snd_tags hTall.stands.2.1] at hUp
    rw [flatten_cons, length_append, length_cons]
    have hRow : 0 < (row.map Prod.snd).length := by
      rw [length_map]
      exact length_pos_iff.mpr hTall.stands.row_ne_nil
    omega

/- There are no more nodes than pages. -/
theorem Tall.card : (nodes row ups).length ≤ (f.numPages - 2).toNat := by
  have hSub : (nodes row ups).toFinset ⊆ Finset.Ico 2 f.numPages := by
    intro p hP
    rw [mem_toFinset] at hP
    rw [Finset.mem_Ico]
    exact hTall.pages p hP
  have hCard := Finset.card_le_card hSub
  rw [toFinset_card_of_nodup hTall.nodup, Int.card_Ico] at hCard
  exact hCard

theorem Tall.height : ups.length < f.numPages.toNat := by
  have hCard := hTall.card
  have hLength := hTall.length_le
  omega

theorem Tall.row_length : row.length < f.numPages.toNat := by
  have hCard := hTall.card
  have hLength := hTall.length_le
  unfold nodes at hCard hLength
  rw [length_append, length_map] at hCard hLength
  omega

end IxFile

section Search

variable [LinearOrder K] {key : K}

/- The child that a key belongs to. -/
theorem IxNode.internalLookup_eq
    {n : IxNode K}
    {e : K × Int}
    (hInner : n.isLeaf = false)
    (hSorted : Sorted (IxFile.kids n))
    (hLeads : Leads (IxFile.kids n) key e) :
    n.internalLookup key = e.2 := by
  rcases hLeads with ⟨left, right, hKids, hLow, hHigh⟩
  rcases pairs_of_kids (k := e.1) (x := e.2) hKids with
    ⟨before, rid, after, hPairs, hRid, hBefore, hAfter⟩
  have hCut : n.pairs = (before ++ [(e.1, rid)]) ++ after := by
    rw [hPairs]
    simp
  -- all keys up to the child are not above the key
  have hUp : n.upperBound key = (before ++ [(e.1, rid)]).length := by
    unfold upperBound getSize
    rw [hInner, hCut]
    refine Bisect.search_append 1 (by simp) ?_ ?_
    · intro y hY
      have hMem : (y.1, y.2.pageNo) ∈ (left ++ [e]).drop 1 := by
        have hMap : (left ++ [e]).drop 1 = ((before ++ [(e.1, rid)]).drop 1).map
              (fun e => (e.1, e.2.pageNo)) := by
          rw [map_drop, map_append, hBefore]
          simp [hRid]
        rw [hMap]
        exact mem_map_of_mem hY
      rw [hKids] at hSorted
      simpa using hSorted.le_of_leads hLow hMem
    · intro y hY
      have hMem : (y.1, y.2.pageNo) ∈ right := by
        rw [← hAfter]
        exact mem_map_of_mem hY
      simpa using hHigh _ hMem
  unfold internalLookup valueAt
  rw [hUp, hPairs]
  simp [hRid]

namespace IxFile

/- A node that is no leaf. -/
def Inner (f : IxFile K) (p : Int) : Prop :=
  (f.node p).isLeaf = false

/- A key in a leaf below a page. -/
def Holds (f : IxFile K) (p : Int) (k : K) : Prop :=
  f.links.Holds f.Inner (fun q => (f.node q).pairs) p k

/- The keys of an inner node separate what is below it. -/
theorem Shape.kids
    {f : IxFile K}
    {leaves : List (K × Int)}
    {ups : List (List Int)}
    {p : Int}
    (hShape : f.Shape leaves ups)
    (hP : p ∈ ups.flatten) :
    Sorted (IxFile.kids (f.node p)) ∧
      Bounded f.Holds (IxFile.kids (f.node p)) := by
  refine hShape.tall.stands.bounded hShape.filled.sorted ?_ ?_ hP
  · refine bounded_of_filled hShape.filled ?_
    intro a hA
    unfold Inner
    rw [(hShape.leaf a hA).1]
    simp
  · intro n hN k hK
    have hInner : f.Inner n := (hShape.tall.inner n hN).1
    exact (holds_of_inner hInner).mp hK

end IxFile

namespace IxIndexHandle

variable {s : IxIndexHandle K}

omit [LinearOrder K] in
/- A page that is fetched and released again. -/
theorem unpinPage_fetchNode {p : Int} :
    (s.fetchNode p).unpinPage p false = s := by
  unfold unpinPage fetchNode
  simp

/- The search ends at the leaf of its way, with the leaf
  pinned. -/
theorem findLeafFrom_eq
    {inner : Int → Prop}
    {n fuel : Nat}
    {p q : Int}
    (hPath : s.file.links.Path key inner n p q)
    (hInner : ∀ p, inner p → (s.node p).isLeaf = false ∧
      Sorted (IxFile.kids (s.node p)))
    (hLeaf : (s.node q).isLeaf = true)
    (hFuel : n < fuel) :
    findLeafFrom key fuel (s.fetchNode p) p = some (s.fetchNode q, q) := by
  induction hPath generalizing fuel with
  | refl p =>
    cases fuel with
    | zero => cases hFuel
    | succ fuel =>
      exact if_pos hLeaf
  | step hHere hLeads hRest ih =>
    cases fuel with
    | zero => cases hFuel
    | succ fuel =>
      rename_i x y e
      rcases hInner x hHere with ⟨hNotLeaf, hSorted⟩
      have hChild : (s.node x).internalLookup key = e.2 :=
        internalLookup_eq hNotLeaf hSorted hLeads
      have hNot : ¬ ((s.fetchNode x).node x).isLeaf = true := by
        rw [node, file_fetchNode, hNotLeaf]
        exact Bool.false_ne_true
      unfold findLeafFrom
      rw [if_neg hNot]
      simp only [node, file_fetchNode] at hChild ⊢
      rw [hChild, unpinPage_fetchNode]
      exact ih hLeaf (by omega)

variable {leaves : List (K × Int)} {ups : List (List Int)}

theorem findLeafPage_eq
    (key : K)
    (hShape : s.file.Shape leaves ups) :
    ∃ e x, Leads leaves key (e, x) ∧
      s.findLeafPage key = some (s.fetchNode x, some x) := by
  rcases hShape.tall.stands.path key hShape.filled.sorted with ⟨⟨e, x⟩, hLeads, hPath⟩
  refine ⟨e, x, hLeads, ?_⟩
  have hRoot : s.file.rootPage ≠ ixNoPage := by
    have hRange := hShape.tall.pages _ hShape.tall.root_mem
    intro hBad
    rw [hBad] at hRange
    exact absurd hRange.1 (by decide)
  have hX : (s.node x).isLeaf = true := by
    rcases hLeads with ⟨left, right, hRow, -⟩
    exact (hShape.leaf (e, x) (by rw [hRow]; simp)).1
  have hInner : ∀ p, p ∈ ups.flatten → (s.node p).isLeaf = false ∧
        Sorted (IxFile.kids (s.node p)) := by
    intro p hP
    exact ⟨(hShape.tall.inner p hP).1, (hShape.kids hP).1⟩
  unfold findLeafPage fuel
  rw [if_neg hRoot, findLeafFrom_eq hPath hInner hX hShape.tall.height]
  rfl

end IxIndexHandle

end Search

------------
-- The Map
------------

section Map

variable [LinearOrder K] {f f' : IxFile K}
variable {leaves left right : List (K × Int)} {ups : List (List Int)}
variable {m : K → Option Rid} {e key : K} {x : Int} {value : Rid}

namespace IxFile

/- The entries of the leaves are those of a map. -/
def Represents
    (f : IxFile K)
    (leaves : List (K × Int))
    (m : K → Option Rid) :
    Prop :=
  ∀ key value, m key = some value ↔ (key, value) ∈ f.entries leaves

omit [LinearOrder K] in
theorem entries_split : f.entries (left ++ (e, x) :: right) =
      f.entries left ++ (f.node x).pairs ++ f.entries right := contents_split

omit [LinearOrder K] in
theorem entries_congr (hNode : ∀ a ∈ leaves,
    (f'.node a.2).pairs = (f.node a.2).pairs) :
    f'.entries leaves = f.entries leaves := contents_congr hNode

variable (hMap : f.Represents leaves m)
include hMap

theorem Represents.insert
    {first last : List (K × Rid)}
    {leaves' : List (K × Int)}
    (hNone : m key = none)
    (hOld : f.entries leaves = first ++ last)
    (hNew : f'.entries leaves' = first ++ (key, value) :: last) :
    f'.Represents leaves' (update m key (some value)) := by
  have hAbsent : ∀ value', (key, value') ∉ first ++ last := by
    intro value' hBad
    rw [← hOld] at hBad
    rw [(hMap key value').mpr hBad] at hNone
    cases hNone
  intro key' value'
  rw [hNew]
  by_cases hKey : key' = key
  · subst hKey
    have hRest := hAbsent value'
    simp only [mem_append, not_or] at hRest
    simp [hRest, eq_comm]
  · have hRest := hMap key' value'
    rw [hOld] at hRest
    rw [update_of_ne hKey, hRest]
    simp [hKey]

theorem Represents.erase
    {first last : List (K × Rid)}
    {leaves' : List (K × Int)}
    (hSorted : (f.entries leaves).Pairwise (fun y z => y.1 < z.1))
    (hOld : f.entries leaves = first ++ (key, value) :: last)
    (hNew : f'.entries leaves' = first ++ last) :
    f'.Represents leaves' (update m key none) := by
  rw [hOld, pairwise_append, pairwise_cons] at hSorted
  rcases hSorted with ⟨-, ⟨hAfter, -⟩, hCross⟩
  intro key' value'
  rw [hNew]
  by_cases hKey : key' = key
  · subst hKey
    rw [update_self]
    constructor
    · intro hBad
      cases hBad
    · intro hBad
      rcases mem_append.mp hBad with hBad | hBad
      · exact absurd (hCross _ hBad _ mem_cons_self) (lt_irrefl _)
      · exact absurd (hAfter _ hBad) (lt_irrefl _)
  · have hRest := hMap key' value'
    rw [hOld] at hRest
    rw [update_of_ne hKey, hRest]
    simp [hKey]

variable (hShape : f.Shape leaves ups) (hLeads : Leads leaves key (e, x))
include hShape hLeads

/- The leaf that a key leads to decides about the key. -/
theorem Shape.mem_leaf :
    m key = some value ↔ (key, value) ∈ (f.node x).pairs := by
  rw [hMap key value]
  exact hShape.filled.mem_cell (y := (key, value)) hLeads

theorem Shape.leafLookup : (f.node x).leafLookup key = m key := by
  have hMem : (e, x) ∈ leaves := by
    rcases hLeads with ⟨left, right, rfl, -⟩
    simp
  rcases cut_cases key (hShape.filled.cells (e, x) hMem)
    with ⟨first, value, last, hCut, -⟩ | ⟨first, last, hCut, hLast⟩
  · rw [hCut.leafLookup_some]
    refine ((hShape.mem_leaf hMap hLeads).mpr ?_).symm
    rw [hCut.pairs]
    simp
  · rw [hCut.leafLookup_none hLast]
    cases hM : m key with
    | none => rfl
    | some value =>
      have hIn := (hShape.mem_leaf hMap hLeads).mp hM
      rw [hCut.pairs] at hIn
      rcases mem_append.mp hIn with hIn | hIn
      · exact absurd (hCut.first _ hIn) (lt_irrefl _)
      · exact absurd (hLast _ hIn) (lt_irrefl _)

/- The place of a known key in its leaf. -/
theorem Shape.cut_known (hKnown : m key = some value) :
    ∃ first last, (f.node x).Cut key first ((key, value) :: last) := by
  have hMem : (e, x) ∈ leaves := by
    rcases hLeads with ⟨left, right, rfl, -⟩
    simp
  have hLookup := hShape.leafLookup hMap hLeads
  rcases cut_cases key (hShape.filled.cells (e, x) hMem)
    with ⟨first, value', last, hCut, -⟩ | ⟨first, last, hCut, hLast⟩
  · rw [hCut.leafLookup_some, hKnown] at hLookup
    cases hLookup
    exact ⟨first, last, hCut⟩
  · rw [hCut.leafLookup_none hLast, hKnown] at hLookup
    cases hLookup

/- The place that a new key gets in its leaf. -/
theorem Shape.cut_new (hNone : m key = none) :
    ∃ first last, (f.node x).Cut key first last ∧ ∀ y ∈ last, key < y.1 := by
  have hMem : (e, x) ∈ leaves := by
    rcases hLeads with ⟨left, right, rfl, -⟩
    simp
  have hLookup := hShape.leafLookup hMap hLeads
  rcases cut_cases key (hShape.filled.cells (e, x) hMem)
    with ⟨first, value', last, hCut, -⟩ | ⟨first, last, hCut, hLast⟩
  · rw [hCut.leafLookup_some, hNone] at hLookup
    cases hLookup
  · exact ⟨first, last, hCut, hLast⟩

end IxFile

namespace IxIndexHandle

variable {s : IxIndexHandle K} {first last : List (K × Rid)}

/- A leaf is fetched and gets other pairs. -/
def fill
    (s : IxIndexHandle K)
    (x : Int)
    (pairs : List (K × Rid)) :
    IxIndexHandle K :=
  (s.fetchNode x).modify x (fun n => { n with pairs := pairs })

omit [LinearOrder K] in
/- Only the node that the page had before is looked at. -/
theorem modify_congr {g h : IxNode K → IxNode K}
    (hEq : g (s.node x) = h (s.node x)) : s.modify x g = s.modify x h := by
  unfold modify IxFile.modify
  rw [show g (s.file.node x) = h (s.file.node x) from hEq]

omit [LinearOrder K] in
theorem modify_id
    {g : IxNode K → IxNode K}
    (hEq : g (s.node x) = s.node x) :
    s.modify x g = s := by
  unfold modify IxFile.modify
  rw [show g (s.file.node x) = s.file.node x from hEq]
  simp

/- `get_value` returns the rid that the key is mapped to. -/
theorem getValue_eq
    (hShape : s.file.Shape leaves ups)
    (hMap : s.file.Represents leaves m)
    (key : K) :
    s.getValue key = some (s, m key) := by
  rcases findLeafPage_eq key hShape with ⟨e, x, hLeads, hFind⟩
  unfold getValue
  rw [hFind]
  simp only [unpinPage_fetchNode]
  exact congrArg (fun v => some (s, v)) (hShape.leafLookup hMap hLeads)

/- A known key is not inserted again. -/
theorem insertEntry_known
    (hShape : s.file.Shape leaves ups)
    (hMap : s.file.Represents leaves m)
    (hKnown : m key ≠ none) :
    s.insertEntry key value = some (s, ixNoPage) := by
  rcases findLeafPage_eq key hShape with ⟨e, x, hLeads, hFind⟩
  rcases Option.ne_none_iff_exists'.mp hKnown with ⟨value', hValue⟩
  rcases hShape.cut_known hMap hLeads hValue with ⟨first, last, hCut⟩
  have hSame : ((s.fetchNode x).modify x (fun n =>
      n.insert key value)) = s.fetchNode x := modify_id (hCut.insert_known value)
  unfold insertEntry
  rw [hFind]
  simp only [hSame, if_true, unpinPage_fetchNode]

theorem deleteEntry_unknown
    (hShape : s.file.Shape leaves ups)
    (hMap : s.file.Represents leaves m)
    (hNone : m key = none) :
    s.deleteEntry key = some (s, false) := by
  rcases findLeafPage_eq key hShape with ⟨e, x, hLeads, hFind⟩
  rcases hShape.cut_new hMap hLeads hNone with ⟨first, last, hCut, hLast⟩
  have hSame : ((s.fetchNode x).modify x (fun n =>
      n.remove key)) = s.fetchNode x := modify_id (hCut.remove_absent hLast)
  unfold deleteEntry
  rw [hFind]
  simp only [hSame, if_true, unpinPage_fetchNode]

/- What becomes of a leaf that a new key is put in. -/
theorem insertEntry_step
    (value : Rid)
    (hFind : s.findLeafPage key = some (s.fetchNode x, some x))
    (hCut : (s.node x).Cut key first last)
    (hLast : ∀ y ∈ last, key < y.1)
    (hSize : (s.node x).getSize ≤ s.file.btreeOrder) :
    s.insertEntry key value =
      let s₂ := s.fill x (first ++ (key, value) :: last)
      if (s.node x).getSize = s.file.btreeOrder then
        let (s₃, new) := s₂.split x
        match (s₃.node new).firstKey? with
        | none => none
        | some key' =>
          match insertIntoParent s₃.fuel s₃ x key' new with
          | none => none
          | some s₄ => some ((s₄.unpinPage new true).unpinPage x true, x)
      else if first.length = 0 then
        match maintainParent s₂.fuel s₂ x with
        | none => none
        | some s₃ => some (s₃.unpinPage x true, x)
      else
        some (s₂.unpinPage x true, x) := by
  have hFill : (s.fetchNode x).modify x (fun n =>
      n.insert key value) =
      s.fill x (first ++ (key, value) :: last) := modify_congr (hCut.insert_new hLast value)
  have hNode : (s.fill x (first ++ (key, value) :: last)).node x =
      { s.node x with pairs := first ++ (key, value) :: last } := node_modify_self
  have hOld : (s.node x).getSize = first.length + last.length := by
    unfold getSize
    rw [hCut.pairs, length_append]
  have hNew : ((s.fill x (first ++ (key, value) ::
      last)).node x).getSize = (s.node x).getSize + 1 := by
    rw [hNode, hOld]
    simp only [getSize, length_append, length_cons]
    omega
  have hPlace : ((s.fill x (first ++ (key, value) ::
      last)).node x).lowerBound key = first.length := by
    rw [hNode]
    have hCut' : Cut { s.node x with pairs := first ++ (key, value) :: last }
        key first ((key, value) :: last) := by
      refine ⟨rfl, hCut.first, ?_⟩
      rw [forall_mem_cons]
      exact ⟨le_refl _, fun y hY => le_of_lt (hLast y hY)⟩
    exact hCut'.lowerBound
  have hMax : (s.fill x (first ++ (key, value) :: last)).getMaxSize = s.file.btreeOrder + 1 := rfl
  unfold insertEntry
  rw [hFind]
  simp only [hFill]
  generalize s.fill x (first ++ (key, value) :: last) = s₂ at hNode hNew hPlace hMax ⊢
  have hGrew : ¬ (s₂.node x).getSize = ((s.fetchNode x).node x).getSize := by
    rw [hNew]
    exact Nat.succ_ne_self _
  have hFits : ¬ s₂.overflows x = true := by
    unfold overflows
    rw [hNew, hMax]
    simpa using hSize
  rw [if_neg hGrew, if_neg hFits]
  have hFull : (s₂.getMaxSize ≤ (s₂.node x).getSize) ↔ (s.node x).getSize = s.file.btreeOrder := by
    omega
  by_cases hIs : (s.node x).getSize = s.file.btreeOrder
  · rw [if_pos (hFull.mpr hIs)]
    exact (if_pos hIs).symm
  · rw [if_neg (mt hFull.mp hIs), hPlace]
    exact (if_neg hIs).symm

omit [LinearOrder K] in
@[simp]
theorem file_fill {pairs : List (K × Rid)} :
    (s.fill x pairs).file =
      s.file.modify x (fun n => { n with pairs := pairs }) := rfl

end IxIndexHandle

namespace IxFile

variable {pairs first last : List (K × Rid)}

omit [LinearOrder K] in
/- The entries when a leaf has got other pairs. -/
theorem Tall.entries_fill (hTall : f.Tall (left ++ (e, x) :: right) ups) :
    (f.modify x (fun n => { n with pairs := pairs })).entries
      (left ++ (e, x) :: right) =
      f.entries left ++ pairs ++ f.entries right := by
  have hOther : ∀ a ∈ left ++ right, ((f.modify x (fun n => { n with pairs := pairs })).node
        a.2).pairs = (f.node a.2).pairs := by
    intro a hA
    rw [node_modify_of_ne (hTall.off.2 a hA)]
  rw [entries_split, node_modify_self, entries_congr (fun a hA =>
      hOther a (mem_append_left _ hA)), entries_congr (fun a hA =>
      hOther a (mem_append_right _ hA))]

/- Pairs that a leaf can hold. -/
structure Suits
    (left right : List (K × Int))
    (e : K)
    (pairs : List (K × Rid)) :
    Prop where
  sorted : pairs.Pairwise (fun y z => y.1 < z.1)
  low : left ≠ [] → ∀ y ∈ pairs, e ≤ y.1
  high : ∀ y ∈ pairs, ∀ b ∈ right, y.1 < b.1

theorem Shape.suits_insert
    (value : Rid)
    (hShape : f.Shape (left ++ (e, x) :: right) ups)
    (hLow : left = [] ∨ e ≤ key)
    (hHigh : ∀ b ∈ right, key < b.1)
    (hCut : (f.node x).Cut key first last)
    (hLast : ∀ y ∈ last, key < y.1) :
    Suits left right e (first ++ (key, value) :: last) := by
  have hSorted := hShape.filled.cells (e, x) (by simp)
  have hOld : ∀ y ∈ first ++ last, y ∈ (f.node x).pairs := by
    intro y hY
    rw [hCut.pairs]
    exact hY
  simp only [hCut.pairs] at hSorted
  rw [pairwise_append] at hSorted
  constructor
  · rw [pairwise_append, pairwise_cons]
    refine ⟨hSorted.1, ⟨hLast, hSorted.2.1⟩, ?_⟩
    intro y hY
    rw [forall_mem_cons]
    exact ⟨hCut.first y hY, hSorted.2.2 y hY⟩
  · intro hSome y hY
    simp only [mem_append, mem_cons] at hY
    rcases hY with hY | rfl | hY
    · exact (hShape.filled.bounds (hOld y (mem_append_left _ hY))).1 hSome
    · exact hLow.resolve_left hSome
    · exact (hShape.filled.bounds (hOld y (mem_append_right _ hY))).1 hSome
  · intro y hY
    simp only [mem_append, mem_cons] at hY
    rcases hY with hY | rfl | hY
    · exact (hShape.filled.bounds (hOld y (mem_append_left _ hY))).2
    · exact hHigh
    · exact (hShape.filled.bounds (hOld y (mem_append_right _ hY))).2

theorem Shape.suits_erase (hShape : f.Shape (left ++ (e, x) :: right) ups)
    (hPairs : (f.node x).pairs = first ++ (key, value) :: last) :
    Suits left right e (first ++ last) := by
  have hSub : (first ++ last).Sublist (f.node x).pairs := by
    rw [hPairs]
    exact Sublist.append_left (sublist_cons_self _ _) first
  refine ⟨(hShape.filled.cells (e, x) (by simp)).sublist hSub, ?_, ?_⟩
  · intro hSome y hY
    exact (hShape.filled.bounds (hSub.subset hY)).1 hSome
  · intro y hY
    exact (hShape.filled.bounds (hSub.subset hY)).2

/- A split moves pairs and loses none. -/
theorem Shape.split_entries
    {f₃ : IxFile K}
    {e' oldKey key' : K}
    {ups' : List (List Int)}
    (hShape : f.Shape (left ++ (e, x) :: right) ups)
    (hSplit : IxIndexHandle.SplitsLeaf x pairs f f₃)
    (hGrown : Grown left right e oldKey key' x f.numPages ups f₃ f' e' ups') :
    f'.entries (left ++ (e', x) :: (key', f.numPages) :: right) =
      f.entries left ++ pairs ++ f.entries right := by
  have hKept : ∀ a ∈ left ++ (e, x) :: (key', f.numPages) :: right,
      (f'.node a.2).pairs = (f₃.node a.2).pairs := by
    intro a hA
    have hRow := (hShape.split_fresh hSplit).row (hShape.split_tall hSplit) hA
    rcases hGrown.extends_.row a.2 hRow.2.1 hRow.2.2 with ⟨q, hQ⟩
    rw [hQ]
  have hX : (f'.node x).pairs = pairs.take (pairs.length / 2) := by
    rw [hKept (e, x) (by simp)]
    simp only [hSplit.lower]
  have hNew : (f'.node f.numPages).pairs = pairs.drop (pairs.length / 2) := by
    rw [hKept (key', f.numPages) (by simp)]
    simp only [hSplit.upper]
  have hOther : ∀ a ∈ left ++ right, (f'.node a.2).pairs = (f.node a.2).pairs := by
    intro a hA
    rw [hKept a (by
      simp only [mem_append, mem_cons] at hA ⊢
      tauto), (hShape.split_leaf hSplit hA).1]
  have hLeft : f'.entries left = f.entries left := entries_congr (fun a hA =>
      hOther a (mem_append_left _ hA))
  have hRight : f'.entries right = f.entries right := entries_congr (fun a hA =>
      hOther a (mem_append_right _ hA))
  have hRest : f'.entries ((key', f.numPages) :: right) =
      pairs.drop (pairs.length / 2) ++ f.entries right := by
    rw [← nil_append ((key', f.numPages) :: right), entries_split, hNew, hRight]
    rfl
  rw [entries_split, hLeft, hX, hRest]
  rw [append_assoc, append_assoc, ← append_assoc
    (pairs.take (pairs.length / 2)), take_append_drop]

end IxFile

namespace IxIndexHandle

variable {s : IxIndexHandle K} {first last : List (K × Rid)}

/- The first key of a leaf is copied upwards. -/
theorem shape_maintainParent
    (hShape : s.file.Shape (left ++ (e, x) :: right) ups)
    (hKey : (s.node x).firstKey? = some key) :
    ∃ s', maintainParent s.fuel s x = some s' ∧
      s'.file.Shape (left ++ (key, x) :: right) ups ∧
      s'.file.entries (left ++ (key, x) :: right) =
        s.file.entries (left ++ (e, x) :: right) ∧
      s.file.Same ups.flatten s'.file := by
  rcases tall_maintainParent hShape.tall hKey hShape.tall.height with ⟨s', hRun, hTall, hSame⟩
  have hLeaf : ∀ p ∈ (left ++ (e, x) :: right).map Prod.snd, s'.file.node p = s.file.node p := by
    intro p hP
    refine hSame.node p ?_
    intro hBad
    exact (nodup_append.mp hShape.tall.nodup).2.2 p hP p hBad rfl
  have hPages : (left ++ (key, x) :: right).map Prod.snd =
      (left ++ (e, x) :: right).map Prod.snd := by
    simp
  -- the first key is one of the leaf and the least of them
  rcases Option.map_eq_some_iff.mp hKey with ⟨y, hHead, rfl⟩
  rcases head?_eq_some_iff.mp hHead with ⟨rest, hPairs⟩
  have hY : y ∈ (s.file.node x).pairs := mem_of_head? hHead
  have hSorted : (y :: rest).Pairwise (fun y z => y.1 < z.1) := by
    rw [← hPairs]
    exact hShape.filled.cells (e, x) (by simp)
  have hFilled : Filled (left ++ (y.1, x) :: right) (fun p => (s.file.node p).pairs) := by
    refine hShape.filled.rekey ?_ ?_ (hShape.filled.bounds hY).2
    · by_cases hLeft : left = []
      · exact Or.inl hLeft
      · exact Or.inr ((hShape.filled.bounds hY).1 hLeft)
    · intro z hZ
      have hZ' : z ∈ y :: rest := by
        rw [← hPairs]
        exact hZ
      rcases mem_cons.mp hZ' with rfl | hZ'
      · exact le_refl _
      · exact le_of_lt ((pairwise_cons.mp hSorted).1 z hZ')
  refine ⟨s', hRun, ?_, ?_, hSame⟩
  · refine hShape.relevel hTall hPages hSame.firstLeaf hSame.lastLeaf hSame.order ?_ hFilled
    intro p hP
    exact ⟨(s.file.node p).parent, hLeaf p hP⟩
  · have hLeft : s'.file.entries left = s.file.entries left := IxFile.entries_congr (fun a hA => by
        rw [hLeaf a.2 (mem_map_of_mem (by simp [hA]))])
    have hRight : s'.file.entries right = s.file.entries right :=
      IxFile.entries_congr (fun a hA => by rw [hLeaf a.2 (mem_map_of_mem (by simp [hA]))])
    rw [IxFile.entries_split, IxFile.entries_split, hLeaf x (by simp), hLeft, hRight]

/- The leaf has room for the key. -/
theorem insert_room
    (value : Rid)
    (hShape : s.file.Shape (left ++ (e, x) :: right) ups)
    (hLow : left = [] ∨ e ≤ key)
    (hHigh : ∀ b ∈ right, key < b.1)
    (hCut : (s.node x).Cut key first last)
    (hLast : ∀ y ∈ last, key < y.1)
    (hRoom : (s.node x).getSize < s.file.btreeOrder) :
    (s.fill x (first ++ (key, value) :: last)).file.Shape
      (left ++ (e, x) :: right) ups ∧
      (s.fill x (first ++ (key, value) :: last)).file.entries
        (left ++ (e, x) :: right) =
        (s.file.entries left ++ first) ++
          (key, value) :: (last ++ s.file.entries right) := by
  have hSuits := hShape.suits_insert value hLow hHigh hCut hLast
  refine ⟨hShape.fill ?_ hSuits.sorted hSuits.low hSuits.high, ?_⟩
  · have hSize : (s.node x).getSize = first.length + last.length := by
      unfold getSize
      rw [hCut.pairs, length_append]
    simp only [length_append, length_cons]
    omega
  · rw [file_fill, hShape.tall.entries_fill]
    simp

/- The leaf is split. -/
theorem insert_split
    {pairs : List (K × Rid)}
    (hShape : s.file.Shape (left ++ (e, x) :: right) ups)
    (hSuits : IxFile.Suits left right e pairs)
    (hSize : pairs.length = s.file.btreeOrder + 1) :
    ∃ key' s₄ leaves' ups', ((s.fill x pairs).split x).2 = s.file.numPages ∧
      (((s.fill x pairs).split x).1.node s.file.numPages).firstKey? =
        some key' ∧
      insertIntoParent ((s.fill x pairs).split x).1.fuel
        ((s.fill x pairs).split x).1 x key' s.file.numPages = some s₄ ∧
        s₄.file.Shape leaves' ups' ∧
      s₄.file.entries leaves' = s.file.entries left ++ pairs ++
        s.file.entries right ∧
      s₄.file.btreeOrder = s.file.btreeOrder := by
  have hX := hShape.tall.pages x (by simp [nodes])
  rcases hShape.nextLeaf_ne with ⟨hNext, hNew, -⟩
  have hOrder := hShape.order
  rcases split_leaf (s := s.fill x pairs) file_fill
    (hShape.leaf (e, x) (by simp)).1 (ne_of_lt hX.2) hNext hNew
    with ⟨hPage, hSplit⟩
  generalize (s.fill x pairs).split x = r at hPage hSplit ⊢
  rcases r with ⟨s₃, new⟩
  simp only at hPage hSplit ⊢
  subst hPage
  -- both halves have a first key
  have hUpperSome : pairs.drop (pairs.length / 2) ≠ [] := by
    rw [← length_pos_iff, length_drop]
    omega
  have hLowerSome : pairs.take (pairs.length / 2) ≠ [] := by
    rw [← length_pos_iff, length_take]
    omega
  rcases exists_cons_of_ne_nil hUpperSome with ⟨y, upper, hUpper⟩
  rcases exists_cons_of_ne_nil hLowerSome with ⟨z, lower, hLower⟩
  have hKeyNew : (s₃.node s.file.numPages).firstKey? = some y.1 := by
    rw [node, hSplit.upper]
    rw [hUpper]
    rfl
  have hKeyOld : (s₃.node x).firstKey? = some z.1 := by
    rw [node, hSplit.lower]
    rw [hLower]
    rfl
  have hTall := hShape.split_tall hSplit
  rcases tall_insertIntoParent hTall (hShape.split_fresh hSplit)
    hKeyOld hKeyNew (by rw [hSplit.order]; exact hOrder)
    hTall.height with ⟨s₄, e', ups', hRun, hGrown⟩
  refine ⟨y.1, s₄, _, ups', rfl, hKeyNew, hRun,
    hShape.split hSplit (by omega) (by omega) hSuits.sorted
      hSuits.low hSuits.high hUpper hGrown, ?_, ?_⟩
  · exact hShape.split_entries hSplit hGrown
  · rw [hGrown.extends_.order, hSplit.order]

/- A new key is added to the map. -/
theorem insertEntry_new
    (value : Rid)
    (hShape : s.file.Shape leaves ups)
    (hMap : s.file.Represents leaves m)
    (hNone : m key = none) :
    ∃ s' x leaves' ups', s.insertEntry key value = some (s', x) ∧ x ≠ ixNoPage ∧
        s'.file.Shape leaves' ups' ∧ s'.file.Represents leaves'
          (update m key (some value)) ∧
          s'.file.btreeOrder = s.file.btreeOrder := by
  rcases findLeafPage_eq key hShape with ⟨e, x, hLeads, hFind⟩
  rcases hShape.cut_new hMap hLeads hNone with ⟨first, last, hCut, hLast⟩
  rcases hLeads with ⟨left, right, rfl, hLow, hHigh⟩
  have hSize := (hShape.leaf (e, x) (by simp)).2
  have hPage : x ≠ ixNoPage := by
    have hRange := hShape.tall.pages x (by simp [nodes])
    unfold ixNoPage
    omega
  have hOld : s.file.entries (left ++ (e, x) :: right) = (s.file.entries left ++ first) ++
        (last ++ s.file.entries right) := by
    rw [IxFile.entries_split]
    simp only [hCut.pairs]
    simp
  have hStep := insertEntry_step value hFind hCut hLast hSize
  by_cases hFull : (s.node x).getSize = s.file.btreeOrder
  · have hLength : (first ++ (key, value) :: last).length = s.file.btreeOrder + 1 := by
      rw [← hFull]
      unfold getSize
      rw [hCut.pairs]
      simp only [length_append, length_cons]
      omega
    rcases insert_split hShape (hShape.suits_insert value hLow hHigh hCut hLast) hLength with
      ⟨key', s₄, leaves', ups', hNew, hKey, hRun, hShape', hEntries, hOrder⟩
    refine ⟨(s₄.unpinPage s.file.numPages true).unpinPage x true,
      x, leaves', ups', ?_, hPage, ?_, ?_, ?_⟩
    · rw [hStep]
      simp only [hFull, if_true, hNew, hKey, hRun]
    · rw [file_unpinPage, file_unpinPage]
      exact hShape'
    · rw [file_unpinPage, file_unpinPage]
      refine hMap.insert hNone hOld ?_
      rw [hEntries]
      simp
    · rw [file_unpinPage, file_unpinPage]
      exact hOrder
  · rcases insert_room value hShape hLow hHigh hCut hLast
      (lt_of_le_of_ne hSize hFull) with ⟨hShape₂, hEntries₂⟩
    rw [if_neg hFull] at hStep
    by_cases hFirst : first.length = 0
    · have hKey : ((s.fill x (first ++ (key, value) :: last)).node x).firstKey? = some key := by
        rw [length_eq_zero_iff.mp hFirst, node, file_fill, IxFile.node_modify_self]
        rfl
      rcases shape_maintainParent hShape₂ hKey with ⟨s₃, hRun, hShape₃, hEntries₃, hSame⟩
      refine ⟨s₃.unpinPage x true, x, left ++ (key, x) :: right, ups, ?_, hPage, ?_, ?_, ?_⟩
      · rw [hStep]
        simp only [hFirst, if_true, hRun]
      · rw [file_unpinPage]
        exact hShape₃
      · rw [file_unpinPage]
        exact hMap.insert hNone hOld (hEntries₃.trans hEntries₂)
      · rw [file_unpinPage]
        exact hSame.order
    · rw [if_neg hFirst] at hStep
      refine ⟨_, x, left ++ (e, x) :: right, ups, hStep, hPage, ?_, ?_, ?_⟩
      · rw [file_unpinPage]
        exact hShape₂
      · rw [file_unpinPage]
        exact hMap.insert hNone hOld hEntries₂
      · rw [file_unpinPage]
        rfl

/- What becomes of the leaf that a key is removed from. -/
theorem deleteEntry_step
    (hFind : s.findLeafPage key = some (s.fetchNode x, some x))
    (hCut : (s.node x).Cut key first ((key, value) :: last)) :
    s.deleteEntry key =
      let s₂ := s.fill x (first ++ last)
      if 0 < (first ++ last).length then
        match maintainParent s₂.fuel s₂ x with
        | none => none
        | some s₃ => some (s₃.unpinPage x true, true)
      else
        some (s₂.unpinPage x true, true) := by
  have hFill : (s.fetchNode x).modify x (fun n =>
      n.remove key) = s.fill x (first ++ last) := modify_congr hCut.remove_known
  have hNode : (s.fill x (first ++ last)).node x = { s.node x with pairs := first ++ last } :=
    node_modify_self
  have hNew : ((s.fill x (first ++ last)).node x).getSize = (first ++ last).length := by
    rw [hNode]
    rfl
  have hOld : ((s.fetchNode x).node x).getSize = (first ++ last).length + 1 := by
    change (s.node x).pairs.length = _
    rw [hCut.pairs]
    simp only [length_append, length_cons]
    omega
  unfold deleteEntry
  rw [hFind]
  simp only [hFill]
  generalize s.fill x (first ++ last) = s₂ at hNode hNew ⊢
  have hShrunk : ¬ (s₂.node x).getSize = ((s.fetchNode x).node x).getSize := by
    omega
  refine (if_neg hShrunk).trans ?_
  by_cases hSome : 0 < (first ++ last).length
  · exact (if_pos (hNew ▸ hSome)).trans (if_pos hSome).symm
  · exact (if_neg (hNew ▸ hSome)).trans (if_neg hSome).symm

/- A known key is taken out of the map. -/
theorem deleteEntry_known
    (hShape : s.file.Shape leaves ups)
    (hMap : s.file.Represents leaves m)
    (hKnown : m key = some value) :
    ∃ s' leaves' ups', s.deleteEntry key = some (s', true) ∧
        s'.file.Shape leaves' ups' ∧
        s'.file.Represents leaves' (update m key none) ∧
        s'.file.btreeOrder = s.file.btreeOrder := by
  rcases findLeafPage_eq key hShape with ⟨e, x, hLeads, hFind⟩
  rcases hShape.cut_known hMap hLeads hKnown with ⟨first, last, hCut⟩
  rcases hLeads with ⟨left, right, rfl, -, -⟩
  have hSuits := hShape.suits_erase hCut.pairs
  have hSize := (hShape.leaf (e, x) (by simp)).2
  have hOld : s.file.entries (left ++ (e, x) :: right) = (s.file.entries left ++ first) ++
        (key, value) :: (last ++ s.file.entries right) := by
    rw [IxFile.entries_split]
    simp only [hCut.pairs]
    simp
  have hSorted := hShape.filled.contents_sorted
  have hShape₂ : (s.fill x (first ++ last)).file.Shape (left ++ (e, x) :: right) ups := by
    refine hShape.fill ?_ hSuits.sorted hSuits.low hSuits.high
    unfold getSize at hSize
    rw [hCut.pairs] at hSize
    simp only [length_append, length_cons] at hSize ⊢
    omega
  have hEntries₂ : (s.fill x (first ++ last)).file.entries (left ++ (e, x) :: right) =
      (s.file.entries left ++ first) ++ (last ++ s.file.entries right) := by
    rw [file_fill, hShape.tall.entries_fill]
    simp
  have hStep := deleteEntry_step hFind hCut
  by_cases hSome : 0 < (first ++ last).length
  · rcases exists_cons_of_ne_nil (length_pos_iff.mp hSome) with ⟨y, rest, hCons⟩
    have hKey : ((s.fill x (first ++ last)).node x).firstKey? = some y.1 := by
      rw [node, file_fill, IxFile.node_modify_self]
      unfold firstKey?
      rw [hCons]
      rfl
    rcases shape_maintainParent hShape₂ hKey with ⟨s₃, hRun, hShape₃, hEntries₃, hSame⟩
    refine ⟨s₃.unpinPage x true, left ++ (y.1, x) :: right, ups, ?_, ?_, ?_, ?_⟩
    · rw [hStep]
      simp only [hSome, if_true, hRun]
    · rw [file_unpinPage]
      exact hShape₃
    · rw [file_unpinPage]
      exact hMap.erase hSorted hOld (hEntries₃.trans hEntries₂)
    · rw [file_unpinPage]
      exact hSame.order
  · simp only at hStep
    rw [if_neg hSome] at hStep
    refine ⟨_, left ++ (e, x) :: right, ups, hStep, ?_, ?_, ?_⟩
    · rw [file_unpinPage]
      exact hShape₂
    · rw [file_unpinPage]
      exact hMap.erase hSorted hOld hEntries₂
    · rw [file_unpinPage]
      rfl

end IxIndexHandle

end Map

end Rmdb
