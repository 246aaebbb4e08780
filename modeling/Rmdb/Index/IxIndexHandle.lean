import Rmdb.Lib.Bisect
import Rmdb.Record.Table

/-
  This file models the B+ tree: the nodes in the pages of an
  index file, and the operations of `IxIndexHandle` on them.

  The pins and dirty marks that the operations leave in the
  buffer pool are part of the state.  In the default build an
  assertion is compiled away with the call inside of it, so
  `maintain_parent` releases no page.  A page can always be
  fetched.

  Keys are taken from any linear order.  Loops run with fuel.
  Reading a slot outside of a node is not defined, and neither
  is a node with more pairs than its page has room for.

  Key definitions include:
    * `IxNode`
    * `IxIndexHandle`
    * `IxIndexHandle.insertEntry`
    * `IxIndexHandle.deleteEntry`
    * `IxIndexHandle.getValue`
-/

namespace Rmdb

def ixNoPage : Int := -1

def ixLeafHeaderPage : Int := 1

def ixInitRootPage : Int := 2

def ixInitNumPages : Int := 3

------------
-- Nodes
------------

/- A node: its header and its pairs of a key and a rid. -/
structure IxNode (K : Type) where
  parent : Int
  isLeaf : Bool
  prevLeaf : Int
  nextLeaf : Int
  pairs : List (K × Rid)

namespace IxNode

variable {K : Type} [LinearOrder K]

def getSize (node : IxNode K) : Nat :=
  node.pairs.length

/- The first slot whose key is not below the target. -/
def lowerBound (node : IxNode K) (target : K) : Nat :=
  Bisect.search
    (fun mid => (node.pairs[mid]?).any (fun e => e.1 < target))
    node.getSize 0 node.getSize

/- The first slot whose key is above the target. In an inner
  node the first key is not compared. -/
def upperBound (node : IxNode K) (target : K) : Nat :=
  Bisect.search
    (fun mid => (node.pairs[mid]?).any (fun e => e.1 ≤ target))
    node.getSize (if node.isLeaf then 0 else 1) node.getSize

def leafLookup (node : IxNode K) (key : K) : Option Rid :=
  match node.pairs[node.lowerBound key]? with
  | some e => if e.1 = key then some e.2 else none
  | none => none

def valueAt (node : IxNode K) (i : Nat) : Int :=
  match node.pairs[i]? with
  | some e => e.2.pageNo
  | none => ixNoPage

def internalLookup (node : IxNode K) (key : K) : Int :=
  node.valueAt (node.upperBound key - 1)

def insertPairs
    (node : IxNode K)
    (pos : Nat)
    (pairs : List (K × Rid)) :
    IxNode K :=
  { node with
    pairs := node.pairs.take pos ++ pairs ++ node.pairs.drop pos }

def insert (node : IxNode K) (key : K) (value : Rid) : IxNode K :=
  let pos := node.lowerBound key
  if (node.pairs[pos]?).any (fun e => e.1 = key) then
    node
  else
    node.insertPairs pos [(key, value)]

def erasePair (node : IxNode K) (pos : Nat) : IxNode K :=
  { node with pairs := node.pairs.eraseIdx pos }

def remove (node : IxNode K) (key : K) : IxNode K :=
  let pos := node.lowerBound key
  if (node.pairs[pos]?).any (fun e => e.1 = key) then
    node.erasePair pos
  else
    node

/- The slot of a child, or the size of the node. -/
def findChild (node : IxNode K) (page : Int) : Nat :=
  node.pairs.findIdx (fun e => e.2.pageNo = page)

/- `get_key(0)`. -/
def firstKey? (node : IxNode K) : Option K :=
  node.pairs.head?.map Prod.fst

end IxNode

------------
-- The File And The Buffer Pool
------------

/- The file header and the nodes in the pages. -/
structure IxFile (K : Type) where
  numPages : Int
  rootPage : Int
  firstLeaf : Int
  lastLeaf : Int
  btreeOrder : Nat
  node : Int → IxNode K

def IxFile.modify
    {K : Type}
    (file : IxFile K)
    (page : Int)
    (f : IxNode K → IxNode K) :
    IxFile K :=
  { file with
    node := Function.update file.node page (f (file.node page)) }

/- The pages of the file with their pins and dirty marks. -/
structure IxIndexHandle (K : Type) where
  file : IxFile K
  pins : Int → Nat
  dirty : Int → Bool

namespace IxIndexHandle

variable {K : Type}

abbrev node (s : IxIndexHandle K) : Int → IxNode K :=
  s.file.node

def fetchNode (s : IxIndexHandle K) (page : Int) : IxIndexHandle K :=
  { s with pins := Function.update s.pins page (s.pins page + 1) }

def unpinPage
    (s : IxIndexHandle K)
    (page : Int)
    (isDirty : Bool) :
    IxIndexHandle K :=
  if s.pins page = 0 then
    s
  else
    { s with
      pins := Function.update s.pins page (s.pins page - 1),
      dirty :=
        if isDirty then
          Function.update s.dirty page true
        else
          s.dirty }

/- Bytes of a page are changed. -/
def modify
    (s : IxIndexHandle K)
    (page : Int)
    (f : IxNode K → IxNode K) :
    IxIndexHandle K :=
  { s with file := s.file.modify page f }

/- `new_page_at` pins the page that it hands out. -/
def createNode (s : IxIndexHandle K) : IxIndexHandle K × Int :=
  let page := s.file.numPages
  ({ file := { s.file with numPages := page + 1 },
     pins := Function.update s.pins page 1,
     dirty := Function.update s.dirty page false }, page)

------------
-- Search
------------

variable [LinearOrder K]

/- The loop of `find_leaf_page`, with its node pinned. -/
def findLeafFrom (key : K) :
    Nat → IxIndexHandle K → Int → Option (IxIndexHandle K × Int)
| 0, _, _ => none
| fuel + 1, s, page =>
  if (s.node page).isLeaf then
    some (s, page)
  else
    let child := (s.node page).internalLookup key
    findLeafFrom key fuel
      ((s.unpinPage page false).fetchNode child) child

/- The loops visit every page at most once. -/
def fuel (s : IxIndexHandle K) : Nat :=
  s.file.numPages.toNat

/- The leaf for a key, or nothing in an empty tree. -/
def findLeafPage
    (s : IxIndexHandle K)
    (key : K) :
    Option (IxIndexHandle K × Option Int) :=
  if s.file.rootPage = ixNoPage then
    some (s, none)
  else
    (findLeafFrom key s.fuel (s.fetchNode s.file.rootPage)
      s.file.rootPage).map (fun r => (r.1, some r.2))

def getValue
    (s : IxIndexHandle K)
    (key : K) :
    Option (IxIndexHandle K × Option Rid) :=
  match s.findLeafPage key with
  | none => none
  | some (s₁, none) => some (s₁, none)
  | some (s₁, some leaf) =>
    some (s₁.unpinPage leaf false,
      (s₁.node leaf).leafLookup key)

------------
-- Insert
------------

/- The parent of a child is set to the node. -/
def maintainChild
    (s : IxIndexHandle K)
    (page : Int)
    (i : Nat) :
    IxIndexHandle K :=
  if (s.node page).isLeaf then
    s
  else
    let child := (s.node page).valueAt i
    ((s.fetchNode child).modify child (fun n =>
      { n with parent := page })).unpinPage child true

def maintainChildren
    (s : IxIndexHandle K)
    (page : Int) :
    IxIndexHandle K :=
  (List.range (s.node page).getSize).foldl
    (fun s i => s.maintainChild page i) s

/- The leaf before the next one is the new leaf. -/
def linkNext (s : IxIndexHandle K) (next new : Int) : IxIndexHandle K :=
  if next = ixLeafHeaderPage then
    s
  else
    ((s.fetchNode next).modify next (fun n =>
      { n with prevLeaf := new })).unpinPage next true

/- The upper half of a node goes to a new node. -/
def moveHalf
    (s : IxIndexHandle K)
    (page : Int) :
    IxIndexHandle K × Int :=
  let node := s.node page
  let moveStart := node.getSize / 2
  let (s₁, new) := s.createNode
  let s₂ := s₁.modify new (fun _ =>
    { parent := node.parent,
      isLeaf := node.isLeaf,
      prevLeaf := ixNoPage,
      nextLeaf := ixNoPage,
      pairs := node.pairs.drop moveStart })
  (s₂.modify page (fun n =>
    { n with pairs := node.pairs.take moveStart }), new)

/- A new leaf stands behind the leaf that was split. -/
def linkLeaf (s : IxIndexHandle K) (page new : Int) : IxIndexHandle K :=
  let next := (s.node page).nextLeaf
  let s₁ := s.modify new (fun n =>
    { n with prevLeaf := page, nextLeaf := next })
  let s₂ := s₁.linkNext next new
  let s₃ := s₂.modify page (fun n => { n with nextLeaf := new })
  if s₃.file.lastLeaf = page then
    { s₃ with file := { s₃.file with lastLeaf := new } }
  else
    s₃

def split (s : IxIndexHandle K) (page : Int) : IxIndexHandle K × Int :=
  let (s₁, new) := s.moveHalf page
  if (s.node page).isLeaf then
    (s₁.linkLeaf page new, new)
  else
    (s₁.maintainChildren new, new)

/- A new root over two nodes. -/
def newRoot
    (s : IxIndexHandle K)
    (old new : Int)
    (oldKey newKey : K) :
    IxIndexHandle K :=
  let (s₁, root) := s.createNode
  let s₂ := s₁.modify root (fun _ =>
    ({ parent := ixNoPage,
       isLeaf := false,
       prevLeaf := ixNoPage,
       nextLeaf := ixNoPage,
       pairs := [] : IxNode K }.insertPairs 0
          [(oldKey, ⟨old, -1⟩)]).insertPairs 1
          [(newKey, ⟨new, -1⟩)])
  let s₃ := s₂.modify old (fun n => { n with parent := root })
  let s₄ := s₃.modify new (fun n => { n with parent := root })
  { s₄ with
    file := { s₄.file with rootPage := root } }.unpinPage root true

def getMaxSize (s : IxIndexHandle K) : Nat :=
  s.file.btreeOrder + 1

/- A pair has been written behind the last slot. -/
def overflows (s : IxIndexHandle K) (page : Int) : Bool :=
  s.getMaxSize < (s.node page).getSize

/- A new node is entered behind the old one. -/
def insertIntoParent :
    Nat → IxIndexHandle K → Int → K → Int →
      Option (IxIndexHandle K)
| 0, _, _, _, _ => none
| fuel + 1, s, old, key, new =>
  if (s.node old).parent = ixNoPage then
    match (s.node old).firstKey?, (s.node new).firstKey? with
    | some oldKey, some newKey =>
      some (s.newRoot old new oldKey newKey)
    | _, _ => none
  else
    let parent := (s.node old).parent
    let s₁ := s.fetchNode parent
    let pos := (s₁.node parent).findChild old + 1
    let s₂ := s₁.modify parent (fun n =>
      n.insertPairs pos [(key, ⟨new, -1⟩)])
    let s₃ := s₂.modify new (fun n => { n with parent := parent })
    if s₃.overflows parent then
      none
    else if s₃.getMaxSize ≤ (s₃.node parent).getSize then
      let (s₄, newParent) := s₃.split parent
      match (s₄.node newParent).firstKey? with
      | none => none
      | some key' =>
        match insertIntoParent fuel s₄ parent key'
            newParent with
        | none => none
        | some s₅ =>
          some ((s₅.unpinPage newParent true).unpinPage
            parent true)
    else
      some (s₃.unpinPage parent true)

/- The first keys are copied upwards. The parents are not
  released. -/
def maintainParent :
    Nat → IxIndexHandle K → Int → Option (IxIndexHandle K)
| 0, _, _ => none
| fuel + 1, s, curr =>
  if (s.node curr).parent = ixNoPage then
    some s
  else
    let parent := (s.node curr).parent
    let s₁ := s.fetchNode parent
    let rank := (s₁.node parent).findChild curr
    match (s₁.node parent).pairs[rank]?,
        (s₁.node curr).firstKey? with
    | some e, some key =>
      if e.1 = key then
        some s₁
      else
        maintainParent fuel
          (s₁.modify parent (fun n =>
            { n with pairs := n.pairs.set rank (key, e.2) }))
          parent
    | _, _ => none

/- The page of the leaf, or `IX_NO_PAGE` for a known key. -/
def insertEntry
    (s : IxIndexHandle K)
    (key : K)
    (value : Rid) :
    Option (IxIndexHandle K × Int) :=
  match s.findLeafPage key with
  | none => none
  | some (s₁, none) => some (s₁, ixNoPage)
  | some (s₁, some leaf) =>
    let oldSize := (s₁.node leaf).getSize
    let s₂ := s₁.modify leaf (fun n => n.insert key value)
    if (s₂.node leaf).getSize = oldSize then
      some (s₂.unpinPage leaf false, ixNoPage)
    else if s₂.overflows leaf then
      none
    else if s₂.getMaxSize ≤ (s₂.node leaf).getSize then
      let (s₃, newLeaf) := s₂.split leaf
      match (s₃.node newLeaf).firstKey? with
      | none => none
      | some key' =>
        match insertIntoParent s₃.fuel s₃ leaf key'
            newLeaf with
        | none => none
        | some s₄ =>
          some ((s₄.unpinPage newLeaf true).unpinPage
            leaf true, leaf)
    else if (s₂.node leaf).lowerBound key = 0 then
      match maintainParent s₂.fuel s₂ leaf with
      | none => none
      | some s₃ => some (s₃.unpinPage leaf true, leaf)
    else
      some (s₂.unpinPage leaf true, leaf)

------------
-- Delete
------------

/- Nodes are never merged, so a leaf may become empty. -/
def deleteEntry
    (s : IxIndexHandle K)
    (key : K) :
    Option (IxIndexHandle K × Bool) :=
  match s.findLeafPage key with
  | none => none
  | some (s₁, none) => some (s₁, false)
  | some (s₁, some leaf) =>
    let oldSize := (s₁.node leaf).getSize
    let s₂ := s₁.modify leaf (fun n => n.remove key)
    if (s₂.node leaf).getSize = oldSize then
      some (s₂.unpinPage leaf false, false)
    else if 0 < (s₂.node leaf).getSize then
      match maintainParent s₂.fuel s₂ leaf with
      | none => none
      | some s₃ => some (s₃.unpinPage leaf true, true)
    else
      some (s₂.unpinPage leaf true, true)

end IxIndexHandle

end Rmdb
