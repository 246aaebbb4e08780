import Rmdb.Index.Calls
import Rmdb.Index.IxCompare

/-
  This file models the creation of an index, and follows any
  number of calls on it.

  The pages of an index represent a finite map from keys to
  rids, and the tree in them stays well formed.

  Key definitions include:
    * `createIndex`
    * `IxCall`
    * `IxFile.WellFormed`

  Key theorems include:
    * `IxFile.Shape.wellFormed`
    * `tree_refines_map`
-/

namespace Rmdb

open Tower List IxIndexHandle

------------
-- Creation
------------

def pageSize : Nat := 4096

def ixMaxColLen : Nat := 512

/- `sizeof(IxPageHdr)`. -/
def ixPageHdrSize : Nat := 24

/- `sizeof(Rid)`. -/
def ixRidSize : Nat := 8

/- The errors that the index throws. -/
inductive IxError where
| invalidColLength (len : Nat)
| indexEntryNotFound
deriving DecidableEq, Repr

/- The list header page and the root, which is a leaf. -/
def initNode (K : Type) (page : Int) : IxNode K :=
  if page = ixLeafHeaderPage then
    { parent := ixNoPage,
      isLeaf := true,
      prevLeaf := ixInitRootPage,
      nextLeaf := ixInitRootPage,
      pairs := [] }
  else
    { parent := ixNoPage,
      isLeaf := true,
      prevLeaf := ixLeafHeaderPage,
      nextLeaf := ixLeafHeaderPage,
      pairs := [] }

def createIndex (cols : List IxCol) : Except IxError (IxFile (IxKey cols)) :=
  if ixMaxColLen < colTotLen cols then
    .error (.invalidColLength (colTotLen cols))
  else
    .ok
      { numPages := ixInitNumPages,
        rootPage := ixInitRootPage,
        firstLeaf := ixInitRootPage,
        lastLeaf := ixInitRootPage,
        btreeOrder :=
          (pageSize - ixPageHdrSize) /
            (colTotLen cols + ixRidSize) - 1,
        node := initNode (IxKey cols) }

/- No page of the file is in the buffer pool. -/
def openIndex {K : Type} (file : IxFile K) : IxIndexHandle K :=
  ⟨file, fun _ => 0, fun _ => false⟩

------------
-- Calls
------------

/- A call that changes the tree. -/
inductive IxCall (K : Type) where
| insertEntry (key : K) (value : Rid)
| deleteEntry (key : K)

namespace IxCall

variable {K : Type} [LinearOrder K]

def run (s : IxIndexHandle K) :
    IxCall K → Option (IxIndexHandle K)
| insertEntry key value => (s.insertEntry key value).map Prod.fst
| deleteEntry key => (s.deleteEntry key).map Prod.fst

def runAll (s : IxIndexHandle K) :
    List (IxCall K) → Option (IxIndexHandle K)
| [] => some s
| call :: calls =>
  match call.run s with
  | none => none
  | some s' => runAll s' calls

/- What the call should do to a map. -/
def apply (m : K → Option Rid) :
    IxCall K → K → Option Rid
| insertEntry key value =>
  if m key = none then Function.update m key (some value) else m
| deleteEntry key => Function.update m key none

/- The map after some calls. -/
def mapAfter (calls : List (IxCall K)) : K → Option Rid :=
  calls.foldl apply (fun _ => none)

end IxCall

------------
-- Well-Formed Trees
------------

namespace IxFile

variable {K : Type}

/- A page is reached from the root in some steps. -/
def Reaches (f : IxFile K) (depth : Nat) (p : Int) : Prop :=
  f.links.Below f.Inner depth f.rootPage p

/- A leaf of the tree. -/
def LeafAt (f : IxFile K) (depth : Nat) (p : Int) : Prop :=
  f.Reaches depth p ∧ (f.node p).isLeaf = true

variable [LinearOrder K]

structure WellFormed (f : IxFile K) : Prop where
  /- The keys of a leaf increase. -/
  sorted : ∀ depth p, f.LeafAt depth p → (f.node p).pairs.Pairwise (fun y z => y.1 < z.1)
  /- A separator that is not the first of its node. -/
  separators : ∀ depth p, f.Reaches depth p → f.Inner p → ∀ first k c last,
        kids (f.node p) = first ++ (k, c) :: last → first ≠ [] →
          (∀ a ∈ first, ∀ k', f.Holds a.2 k' → k' < k) ∧
            ∀ b ∈ (k, c) :: last, ∀ k', f.Holds b.2 k' → k ≤ k'
  /- All leaves have the same depth. -/
  depth : ∃ height, ∀ depth p, f.LeafAt depth p → depth = height
  root : (f.node f.rootPage).parent = ixNoPage
  parents : ∀ depth p, f.Reaches depth p → f.Inner p →
      ∀ a ∈ kids (f.node p), (f.node a.2).parent = p
  /- The chain lists all leaves in the order of their keys. -/
  chain : ∃ pages, (∀ p, p ∈ pages ↔ ∃ depth, f.LeafAt depth p) ∧ pages.Nodup ∧
      pages.head? = some f.firstLeaf ∧ pages.getLast? = some f.lastLeaf ∧
      f.Linked ixLeafHeaderPage pages ixLeafHeaderPage ∧
      (pages.flatMap (fun p => (f.node p).pairs)).Pairwise (fun y z => y.1 < z.1)
  size : ∀ depth p, f.Reaches depth p → (f.node p).getSize ≤ f.btreeOrder + 1

variable {f : IxFile K} {leaves : List (K × Int)}
variable {ups : List (List Int)} {depth : Nat} {p : Int}

variable (hShape : f.Shape leaves ups)
include hShape

/- A page of the tree is a leaf, or it is on a level above. -/
theorem Shape.reaches (hReaches : f.Reaches depth p) :
    p ∈ ups.flatten ∨ depth = ups.length ∧ p ∈ leaves.map Prod.snd := by
  refine hShape.tall.stands.level_of_ends ?_ hReaches
  intro a hA
  unfold Inner
  rw [(hShape.leaf a hA).1]
  simp

theorem Shape.reaches_leaf
    (hLeaf : f.LeafAt depth p) :
    depth = ups.length ∧ p ∈ leaves.map Prod.snd := by
  rcases hShape.reaches hLeaf.1 with hUp | hRow
  · have hInner := (hShape.tall.inner p hUp).1
    rw [hLeaf.2] at hInner
    cases hInner
  · exact hRow

theorem Shape.reaches_inner (hReaches : f.Reaches depth p)
    (hInner : f.Inner p) : p ∈ ups.flatten := by
  rcases hShape.reaches hReaches with hUp | ⟨-, hRow⟩
  · exact hUp
  · rcases mem_map.mp hRow with ⟨a, hA, rfl⟩
    have hLeaf := (hShape.leaf a hA).1
    rw [hInner] at hLeaf
    cases hLeaf

/- The leaves are those of the row. -/
theorem Shape.leafAt {a : K × Int}
    (hA : a ∈ leaves) : f.LeafAt ups.length a.2 := ⟨hShape.tall.stands.below
    (fun p hP => (hShape.tall.inner p hP).1) hA, (hShape.leaf a hA).1⟩

theorem Shape.wellFormed : f.WellFormed := by
  rcases hShape.tall.stands.parents with ⟨hRoot, hParents⟩
  refine ⟨?_, ?_, ⟨ups.length, ?_⟩, hRoot, ?_, ⟨leaves.map Prod.snd, ?_, ?_, hShape.firstLeaf,
      hShape.lastLeaf, hShape.linked, ?_⟩, ?_⟩
  · intro depth p hLeaf
    rcases mem_map.mp (hShape.reaches_leaf hLeaf).2 with ⟨a, hA, rfl⟩
    exact hShape.filled.cells a hA
  · intro depth p hReaches hInner first k c last hKids hFirst
    rcases hShape.kids (hShape.reaches_inner hReaches hInner) with ⟨hSorted, hBounded⟩
    rw [hKids] at hSorted hBounded
    unfold Links.Bounded at hBounded
    rw [pairwise_append, pairwise_cons] at hBounded
    rcases hBounded with ⟨-, ⟨hAfter, -⟩, hCross⟩
    constructor
    · intro a hA k' hK
      exact (hCross a hA (k, c) mem_cons_self).1 k' hK
    · intro b hB k' hK
      rcases exists_mem_of_ne_nil first hFirst with ⟨a, hA⟩
      have hLow := (hCross a hA b hB).2 k' hK
      rcases mem_cons.mp hB with rfl | hB
      · exact hLow
      · have hLess := pairwise_cons.mp (hSorted.suffix hFirst)
        exact le_trans (le_of_lt (hLess.1 b hB)) hLow
  · intro depth p hLeaf
    exact (hShape.reaches_leaf hLeaf).1
  · intro depth p hReaches hInner
    exact hParents p (hShape.reaches_inner hReaches hInner)
  · intro p
    constructor
    · intro hP
      rcases mem_map.mp hP with ⟨a, hA, rfl⟩
      exact ⟨ups.length, hShape.leafAt hA⟩
    · rintro ⟨depth, hLeaf⟩
      exact (hShape.reaches_leaf hLeaf).2
  · exact (nodup_append.mp hShape.tall.nodup).1
  · rw [flatMap_map]
    exact hShape.filled.contents_sorted
  · intro depth p hReaches
    rcases hShape.reaches hReaches with hUp | ⟨-, hRow⟩
    · exact Nat.le_succ_of_le (hShape.tall.inner p hUp).2
    · rcases mem_map.mp hRow with ⟨a, hA, rfl⟩
      exact Nat.le_succ_of_le (hShape.leaf a hA).2

end IxFile

------------
-- Runs
------------

section Runs

variable {K : Type} [LinearOrder K]

/- The pages of an index represent a map. -/
def IxIndexHandle.Stores
    (s : IxIndexHandle K)
    (m : K → Option Rid) :
    Prop :=
  ∃ leaves ups, s.file.Shape leaves ups ∧
    s.file.Represents leaves m

theorem IxIndexHandle.Stores.run
    {s : IxIndexHandle K}
    {m : K → Option Rid}
    (hStores : s.Stores m)
    (call : IxCall K) :
    ∃ s', call.run s = some s' ∧ s'.Stores (call.apply m) ∧
      s'.file.btreeOrder = s.file.btreeOrder := by
  rcases hStores with ⟨leaves, ups, hShape, hMap⟩
  cases call with
  | insertEntry key value =>
    simp only [IxCall.run, IxCall.apply]
    by_cases hNone : m key = none
    · rcases insertEntry_new value hShape hMap hNone with
        ⟨s', x, leaves', ups', hRun, -, hShape', hMap', hOrder⟩
      refine ⟨s', by rw [hRun]; rfl, ?_, hOrder⟩
      rw [if_pos hNone]
      exact ⟨leaves', ups', hShape', hMap'⟩
    · refine ⟨s, ?_, ?_, rfl⟩
      · rw [insertEntry_known hShape hMap hNone]
        rfl
      · rw [if_neg hNone]
        exact ⟨leaves, ups, hShape, hMap⟩
  | deleteEntry key =>
    simp only [IxCall.run, IxCall.apply]
    cases hKnown : m key with
    | none =>
      refine ⟨s, ?_, ?_, rfl⟩
      · rw [deleteEntry_unknown hShape hMap hKnown]
        rfl
      · rw [← hKnown, Function.update_eq_self]
        exact ⟨leaves, ups, hShape, hMap⟩
    | some value =>
      rcases deleteEntry_known hShape hMap hKnown
        with ⟨s', leaves', ups', hRun, hShape', hMap', hOrder⟩
      exact ⟨s', by rw [hRun]; rfl, ⟨leaves', ups', hShape', hMap'⟩, hOrder⟩

theorem IxIndexHandle.Stores.runAll
    {s : IxIndexHandle K}
    {m : K → Option Rid}
    (hStores : s.Stores m)
    (calls : List (IxCall K)) :
    ∃ s', IxCall.runAll s calls = some s' ∧
      s'.Stores (calls.foldl IxCall.apply m) ∧
      s'.file.btreeOrder = s.file.btreeOrder := by
  induction calls generalizing s m with
  | nil => exact ⟨s, rfl, hStores, rfl⟩
  | cons call calls ih =>
    rcases hStores.run call with ⟨s₁, hRun, hStores₁, hOrder₁⟩
    rcases ih hStores₁ with ⟨s', hRest, hStores', hOrder'⟩
    refine ⟨s', ?_, hStores', hOrder'.trans hOrder₁⟩
    unfold IxCall.runAll
    rw [hRun]
    exact hRest

/- The root of a new index is an empty leaf. -/
theorem IxFile.shape_init
    {f : IxFile K}
    (k : K)
    (hNum : f.numPages = ixInitNumPages)
    (hRoot : f.rootPage = ixInitRootPage)
    (hFirst : f.firstLeaf = ixInitRootPage)
    (hLast : f.lastLeaf = ixInitRootPage)
    (hOrder : 2 ≤ f.btreeOrder)
    (hNode : f.node = initNode K) :
    f.Shape [(k, ixInitRootPage)] [] := by
  have hPage : f.node ixInitRootPage =
      { parent := ixNoPage,
        isLeaf := true,
        prevLeaf := ixLeafHeaderPage,
        nextLeaf := ixLeafHeaderPage,
        pairs := [] } := by
    rw [hNode]
    rfl
  refine ⟨⟨⟨k, by rw [hRoot], ?_⟩, by simp [Links.nodes], ?_,
    by simp⟩, hOrder, ?_, ?_, ?_, ?_, ⟨by simp [Sorted], ?_, by simp⟩⟩
  · change (f.node f.rootPage).parent = ixNoPage
    rw [hRoot, hPage]
  · intro p hP
    have hP' : p = ixInitRootPage := by simpa [Links.nodes] using hP
    rw [hP', hNum]
    decide
  · intro a hA
    rw [mem_singleton.mp hA]
    simp only [hPage]
    exact ⟨trivial, Nat.zero_le _⟩
  · refine ⟨?_, ?_, trivial⟩
    · rw [hPage]
    · rw [hPage]
      rfl
  · rw [hFirst]
    rfl
  · rw [hLast]
    rfl
  · intro a hA
    rw [mem_singleton.mp hA]
    simp only [hPage]
    exact Pairwise.nil

/- A new index is empty, and the pairs of a node fit a page. -/
theorem stores_createIndex
    {cols : List IxCol}
    {file : IxFile (IxKey cols)}
    (hCreate : createIndex cols = .ok file) :
    (openIndex file).Stores (fun _ => none) ∧ ixPageHdrSize +
        (file.btreeOrder + 1) * (colTotLen cols + ixRidSize) ≤
          pageSize := by
  unfold createIndex at hCreate
  split at hCreate
  · cases hCreate
  · rename_i hLen
    cases hCreate
    unfold ixMaxColLen at hLen
    have hMany : 7 ≤ (pageSize - ixPageHdrSize) / (colTotLen cols + ixRidSize) := by
      unfold pageSize ixPageHdrSize ixRidSize
      rw [Nat.le_div_iff_mul_le (by omega)]
      omega
    let blank : IxKey cols :=
      ⟨replicate (colTotLen cols) 0, length_replicate⟩
    refine ⟨⟨[(blank, ixInitRootPage)], [], ?_, ?_⟩, ?_⟩
    · exact IxFile.shape_init blank rfl rfl rfl rfl (by
        simp only [openIndex]
        omega) rfl
    · intro key value
      simp [IxFile.entries, contents, openIndex, initNode, ixInitRootPage, ixLeafHeaderPage]
    · have hDiv := Nat.div_mul_le_self (pageSize - ixPageHdrSize) (colTotLen cols + ixRidSize)
      have hSub : (pageSize - ixPageHdrSize) / (colTotLen cols + ixRidSize) - 1 + 1 =
          (pageSize - ixPageHdrSize) / (colTotLen cols + ixRidSize) := by
        omega
      rw [hSub]
      unfold pageSize ixPageHdrSize at hDiv ⊢
      omega

end Runs

/- The tree is a map. In the model a node with more than
  `btree_order_ + 1` pairs is not defined, so that the run
  exists says that there is none at any moment of it. -/
theorem tree_refines_map
    (cols : List IxCol)
    (file : IxFile (IxKey cols))
    (hCreate : createIndex cols = .ok file)
    (calls : List (IxCall (IxKey cols))) :
    ∃ s, IxCall.runAll (openIndex file) calls = some s ∧
      (∀ key, s.getValue key = some (s, IxCall.mapAfter calls key)) ∧
      (∀ key value, IxCall.mapAfter calls key = none →
        ∃ s' page, s.insertEntry key value = some (s', page) ∧
          page ≠ ixNoPage) ∧
      (∀ key value, IxCall.mapAfter calls key ≠ none →
        s.insertEntry key value = some (s, ixNoPage)) ∧
      (∀ key, IxCall.mapAfter calls key ≠ none →
        ∃ s', s.deleteEntry key = some (s', true)) ∧
      (∀ key, IxCall.mapAfter calls key = none →
        s.deleteEntry key = some (s, false)) ∧
      s.file.WellFormed ∧
      ixPageHdrSize + (s.file.btreeOrder + 1) * (colTotLen cols + ixRidSize) ≤
        pageSize := by
  rcases stores_createIndex hCreate with ⟨hStart, hFits⟩
  rcases hStart.runAll calls with ⟨s, hRun, ⟨leaves, ups, hShape, hMap⟩, hOrder⟩
  refine ⟨s, hRun, ?_, ?_, ?_, ?_, ?_, hShape.wellFormed, ?_⟩
  · exact getValue_eq hShape hMap
  · intro key value hNone
    rcases insertEntry_new value hShape
      hMap hNone with ⟨s', page, -, -, hCall, hPage, -⟩
    exact ⟨s', page, hCall, hPage⟩
  · intro key value hKnown
    exact insertEntry_known hShape hMap hKnown
  · intro key hKnown
    rcases Option.ne_none_iff_exists'.mp hKnown with ⟨value, hValue⟩
    rcases deleteEntry_known hShape hMap hValue with ⟨s', -, -, hCall, -⟩
    exact ⟨s', hCall⟩
  · intro key hNone
    exact deleteEntry_unknown hShape hMap hNone
  · rw [hOrder]
    exact hFits

/- A key of an index on one number. -/
def IxKey.ofByte (byte : UInt8) : IxKey [.int] :=
  ⟨[byte, 0, 0, 0], rfl⟩

/- A key is inserted, inserted again and deleted. -/
theorem tree_refines_map_one :
    ∃ file, createIndex [.int] = .ok file ∧
      ∃ s, IxCall.runAll (openIndex file) [.insertEntry (.ofByte 1) ⟨1, 0⟩,
          .insertEntry (.ofByte 1) ⟨1, 5⟩, .insertEntry (.ofByte 2) ⟨1, 1⟩,
          .deleteEntry (.ofByte 2)] = some s ∧
        s.getValue (.ofByte 1) = some (s, some ⟨1, 0⟩) ∧
        s.getValue (.ofByte 2) = some (s, none) := by
  refine ⟨_, rfl, ?_⟩
  rcases tree_refines_map [.int] _ rfl [.insertEntry (.ofByte 1) ⟨1, 0⟩,
      .insertEntry (.ofByte 1) ⟨1, 5⟩, .insertEntry (.ofByte 2) ⟨1, 1⟩,
      .deleteEntry (.ofByte 2)] with ⟨s, hRun, hValue, -⟩
  refine ⟨s, hRun, ?_, ?_⟩
  · rw [hValue]
    exact congrArg (fun v => some (s, v)) (by decide)
  · rw [hValue]
    exact congrArg (fun v => some (s, v)) (by decide)

end Rmdb
