import Rmdb.Index.IxManager

/-
  This file models range scans: the positions of bounds in the
  chain of leaves, and `IxScan`.

  The bounds skip leaves that have become empty.  `next` does
  not: from the last slot of a leaf it goes to the next leaf,
  and there is nothing to read if that leaf is empty and not
  the last one.

  Key definitions include:
    * `IxIndexHandle.lowerBound`, `IxIndexHandle.upperBound`
    * `IxIndexHandle.scan`
    * `IxFile.NoGap`

  Key theorems include:
    * `scan_exact_iff`
-/

namespace Rmdb

open Tower List IxIndexHandle

variable {K : Type}

------------
-- Positions
------------

/- A slot of a leaf. -/
structure Iid where
  pageNo : Int
  slotNo : Nat
deriving DecidableEq, Repr

namespace IxIndexHandle

/- The loop over the chain, with its leaf pinned: leaves with
  nothing from the slot on are skipped. -/
def skipFrom (slotOf : IxNode K → Nat) :
    Nat → IxIndexHandle K → Int → Option (IxIndexHandle K × Iid)
| 0, _, _ => none
| fuel + 1, s, leaf =>
  let slot := slotOf (s.node leaf)
  if slot = (s.node leaf).getSize ∧ leaf ≠ s.file.lastLeaf then
    let next := (s.node leaf).nextLeaf
    skipFrom slotOf fuel
      ((s.unpinPage leaf false).fetchNode next) next
  else
    some (s.unpinPage leaf false, ⟨leaf, slot⟩)

def leafEnd (s : IxIndexHandle K) : IxIndexHandle K × Iid :=
  let s₁ := s.fetchNode s.file.lastLeaf
  (s₁.unpinPage s.file.lastLeaf false,
    ⟨s.file.lastLeaf, (s₁.node s.file.lastLeaf).getSize⟩)

def leafBegin (s : IxIndexHandle K) : Option (IxIndexHandle K × Iid) :=
  skipFrom (fun _ => 0) s.fuel (s.fetchNode s.file.firstLeaf)
    s.file.firstLeaf

variable [LinearOrder K]

def boundOf
    (slotOf : IxNode K → Nat)
    (s : IxIndexHandle K)
    (key : K) :
    Option (IxIndexHandle K × Iid) :=
  match s.findLeafPage key with
  | none => none
  | some (s₁, none) => some s₁.leafEnd
  | some (s₁, some leaf) => skipFrom slotOf s.fuel s₁ leaf

def lowerBound
    (s : IxIndexHandle K)
    (key : K) :
    Option (IxIndexHandle K × Iid) :=
  boundOf (fun n => n.lowerBound key) s key

def upperBound
    (s : IxIndexHandle K)
    (key : K) :
    Option (IxIndexHandle K × Iid) :=
  boundOf (fun n => n.upperBound key) s key

------------
-- Scans
------------

omit [LinearOrder K] in
/- The page stays pinned when there is nothing in the slot. -/
def getRid
    (s : IxIndexHandle K)
    (iid : Iid) :
    IxIndexHandle K × Except IxError Rid :=
  let s₁ := s.fetchNode iid.pageNo
  match (s₁.node iid.pageNo).pairs[iid.slotNo]? with
  | none => (s₁, .error .indexEntryNotFound)
  | some e => (s₁.unpinPage iid.pageNo false, .ok e.2)

/- `IxScan::next`. -/
def next (s : IxIndexHandle K) (iid : Iid) : IxIndexHandle K × Iid :=
  let s₁ := s.fetchNode iid.pageNo
  let node := s₁.node iid.pageNo
  let iid' :=
    if iid.pageNo ≠ s.file.lastLeaf ∧
        iid.slotNo + 1 = node.getSize then
      ⟨node.nextLeaf, 0⟩
    else
      ⟨iid.pageNo, iid.slotNo + 1⟩
  (s₁.unpinPage iid.pageNo false, iid')

/- `rid` is read and `next` is called until `is_end`. -/
def scan (end_ : Iid) :
    Nat → IxIndexHandle K → Iid →
      Option (IxIndexHandle K × Except IxError (List Rid))
| 0, _, _ => none
| fuel + 1, s, iid =>
  if iid = end_ then
    some (s, .ok [])
  else
    match s.getRid iid with
    | (s₁, .error e) => some (s₁, .error e)
    | (s₁, .ok rid) =>
      let (s₂, iid') := s₁.next iid
      match scan end_ fuel s₂ iid' with
      | none => none
      | some (s₃, .error e) => some (s₃, .error e)
      | some (s₃, .ok rids) => some (s₃, .ok (rid :: rids))

end IxIndexHandle

/- Where a scan starts. -/
inductive IxStart (K : Type) where
| lowerBound (key : K)
| upperBound (key : K)
| leafBegin

/- Where a scan ends. -/
inductive IxEnd (K : Type) where
| lowerBound (key : K)
| upperBound (key : K)
| leafEnd

variable [LinearOrder K]

def IxStart.position (s : IxIndexHandle K) :
    IxStart K → Option (IxIndexHandle K × Iid)
| lowerBound key => s.lowerBound key
| upperBound key => s.upperBound key
| leafBegin => s.leafBegin

def IxEnd.position (s : IxIndexHandle K) :
    IxEnd K → Option (IxIndexHandle K × Iid)
| lowerBound key => s.lowerBound key
| upperBound key => s.upperBound key
| leafEnd => some s.leafEnd

/- A whole range scan. -/
def IxIndexHandle.rangeScan
    (s : IxIndexHandle K)
    (start : IxStart K)
    (stop : IxEnd K)
    (fuel : Nat) :
    Option (IxIndexHandle K × Except IxError (List Rid)) :=
  match start.position s with
  | none => none
  | some (s₁, lower) =>
    match stop.position s₁ with
    | none => none
    | some (s₂, upper) => scan upper fuel s₂ lower

/- The same scan step by step: what is read before it ends or
  throws. -/
def IxIndexHandle.scanUntil (end_ : Iid) :
    Nat → IxIndexHandle K → Iid → List Rid × Option IxError
| 0, _, _ => ([], none)
| fuel + 1, s, iid =>
  if iid = end_ then
    ([], none)
  else
    match s.getRid iid with
    | (_, .error e) => ([], some e)
    | (s₁, .ok rid) =>
      let (s₂, iid') := s₁.next iid
      let q := scanUntil end_ fuel s₂ iid'
      (rid :: q.1, q.2)

def IxIndexHandle.rangeUntil
    (s : IxIndexHandle K)
    (start : IxStart K)
    (stop : IxEnd K)
    (fuel : Nat) :
    List Rid × Option IxError :=
  match start.position s with
  | none => ([], none)
  | some (s₁, lower) =>
    match stop.position s₁ with
    | none => ([], none)
    | some (s₂, upper) => scanUntil upper fuel s₂ lower

omit [LinearOrder K] in
theorem IxIndexHandle.scanUntil_of_scan
    {end_ iid : Iid}
    {fuel : Nat}
    {s s' : IxIndexHandle K}
    {res : Except IxError (List Rid)}
    (hScan : scan end_ fuel s iid = some (s', res)) :
    (∀ rids, res = .ok rids → scanUntil end_ fuel s iid = (rids, none)) ∧
      ∀ e, res = .error e → (scanUntil end_ fuel s iid).2 = some e := by
  induction fuel generalizing s iid res with
  | zero => cases hScan
  | succ fuel ih =>
    rw [scan] at hScan
    rw [scanUntil]
    split at hScan
    · cases hScan
      simp [*]
    · rename_i hMore
      rw [if_neg hMore]
      rcases hRid : s.getRid iid with ⟨s₁, _ | rid⟩
      · rw [hRid] at hScan
        cases hScan
        simp
      · rw [hRid] at hScan
        simp only at hScan ⊢
        split at hScan
        · cases hScan
        · rename_i hRest
          cases hScan
          simpa using (ih hRest).2
        · rename_i hRest
          cases hScan
          simp [(ih hRest).1 _ rfl]

theorem IxIndexHandle.rangeUntil_of_rangeScan
    {s s' : IxIndexHandle K}
    {start : IxStart K}
    {stop : IxEnd K}
    {fuel : Nat}
    {res : Except IxError (List Rid)}
    (hScan : s.rangeScan start stop fuel = some (s', res)) :
    (∀ rids, res = .ok rids → s.rangeUntil start stop fuel = (rids, none)) ∧
      ∀ e, res = .error e → (s.rangeUntil start stop fuel).2 = some e := by
  unfold rangeScan at hScan
  unfold rangeUntil
  split at hScan
  · cases hScan
  · split at hScan
    · cases hScan
    · exact scanUntil_of_scan hScan

/- The keys behind the start. -/
def IxStart.admits : IxStart K → K → Bool
| lowerBound lo, k => lo ≤ k
| upperBound lo, k => lo < k
| leafBegin, _ => true

/- The keys before the end. -/
def IxEnd.admits : IxEnd K → K → Bool
| lowerBound hi, k => k < hi
| upperBound hi, k => k ≤ hi
| leafEnd, _ => true

/- The bounds of a range are in order. -/
def InOrder : IxStart K → IxEnd K → Prop
| .lowerBound lo, .lowerBound hi => lo < hi
| .lowerBound lo, .upperBound hi => lo ≤ hi
| .upperBound lo, .lowerBound hi => lo < hi
| .upperBound lo, .upperBound hi => lo < hi
| .leafBegin, _ => True
| _, .leafEnd => True

variable {ups : List (List Int)}

------------
-- The Chain As A List
------------

namespace IxFile

variable {f : IxFile K} {pages : List Int} {iid iid' : Iid}
variable {l : List (K × Rid)}

/- What the leaves hold, from left to right. -/
def pairsOf (f : IxFile K) (pages : List Int) : List (K × Rid) :=
  pages.flatMap (fun p => (f.node p).pairs)

/- What is still to come from a position on. -/
structure Remains
    (f : IxFile K)
    (pages : List Int)
    (iid : Iid)
    (l : List (K × Rid))
    (before after : List Int) :
    Prop where
  pages : pages = before ++ iid.pageNo :: after
  slot : iid.slotNo ≤ (f.node iid.pageNo).getSize
  rest : l = (f.node iid.pageNo).pairs.drop iid.slotNo ++ f.pairsOf after

/- There is an entry in the slot, or the chain has ended. -/
def Normal
    (f : IxFile K)
    (pages : List Int)
    (iid : Iid)
    (l : List (K × Rid)) :
    Prop :=
  ∃ before after, f.Remains pages iid l before after ∧
    (iid.slotNo < (f.node iid.pageNo).getSize ∨ after = [])

/- The leaves in the order of the chain and of their keys. -/
structure Chain (f : IxFile K) (pages : List Int) : Prop where
  linked : f.Linked ixLeafHeaderPage pages ixLeafHeaderPage
  nodup : pages.Nodup
  lastLeaf : pages.getLast? = some f.lastLeaf
  sorted : (f.pairsOf pages).Pairwise (fun y z => y.1 < z.1)

theorem Shape.chain {leaves : List (K × Int)}
    (hShape : f.Shape leaves ups) : f.Chain (leaves.map Prod.snd) := by
  refine ⟨hShape.linked, (nodup_append.mp hShape.tall.nodup).1, hShape.lastLeaf, ?_⟩
  unfold pairsOf
  rw [flatMap_map]
  exact hShape.filled.contents_sorted

variable {before after : List Int} {p b : Int}

theorem Chain.nextLeaf
    (hChain : f.Chain (before ++ p :: b :: after)) :
    (f.node p).nextLeaf = b := by
  have hLinked := hChain.linked
  rw [linked_append] at hLinked
  exact hLinked.2.2.1

theorem Chain.eq_lastLeaf
    (hChain : f.Chain (before ++ p :: after)) :
    p = f.lastLeaf ↔ after = [] := by
  have hLast := hChain.lastLeaf
  rw [getLast?_append_of_ne_nil _ (by simp)] at hLast
  cases after with
  | nil =>
    have hEq : p = f.lastLeaf := by simpa using hLast
    simp [hEq]
  | cons b after =>
    rw [getLast?_cons_cons] at hLast
    have hMem := mem_of_getLast? hLast
    have hNodup := (nodup_append.mp hChain.nodup).2.1
    rw [nodup_cons] at hNodup
    simp only [reduceCtorEq, iff_false]
    rintro rfl
    exact hNodup.1 hMem

omit [LinearOrder K] in
theorem pairsOf_split : f.pairsOf (before ++ p :: after) =
      f.pairsOf before ++ (f.node p).pairs ++ f.pairsOf after := by
  simp [pairsOf]

omit [LinearOrder K] in
/- A position is known from the number of entries before it. -/
theorem Remains.total (hRemains : f.Remains pages iid l before after) :
    (f.pairsOf pages).length = (f.pairsOf before).length + iid.slotNo +
      l.length := by
  have hSlot := hRemains.slot
  unfold IxNode.getSize at hSlot
  rw [hRemains.pages, pairsOf_split, hRemains.rest]
  simp only [length_append, length_drop]
  omega

omit [LinearOrder K] in
/- A page further down the chain is further from the start. -/
theorem Remains.not_later
    {before' after' : List Int}
    {rest : List Int}
    (hRemains : f.Remains pages iid l before after)
    (hSlot : iid.slotNo < (f.node iid.pageNo).getSize ∨ after = [])
    (hRemains' : f.Remains pages iid' l before' after')
    (hBefore : before' = before ++ iid.pageNo :: rest) :
    False := by
  have hTotal := hRemains.total
  rw [hRemains'.total, hBefore, pairsOf_split] at hTotal
  have hPages := hRemains.pages
  rw [hRemains'.pages, hBefore, append_assoc, cons_append] at hPages
  have hAfter := (cons.inj (append_cancel_left hPages)).2
  simp only [length_append] at hTotal
  rcases hSlot with hSlot | rfl
  · unfold IxNode.getSize at hSlot
    omega
  · simp at hAfter

omit [LinearOrder K] in
/- If one position is not before the other one, they are the
  same. -/
theorem Remains.unique
    {before' after' rest : List Int}
    (hRemains : f.Remains pages iid l before after)
    (hSlot : iid.slotNo < (f.node iid.pageNo).getSize ∨ after = [])
    (hRemains' : f.Remains pages iid' l before' after')
    (hBefore : before' = before ++ rest)
    (hRest : iid.pageNo :: after = rest ++ iid'.pageNo :: after') :
    iid = iid' := by
  cases rest with
  | nil =>
    rw [append_nil] at hBefore
    have hPage := (cons.inj hRest).1
    have hTotal := hRemains.total
    rw [hRemains'.total, hBefore] at hTotal
    cases iid
    cases iid'
    simp only at hPage hTotal
    simp only [Iid.mk.injEq]
    exact ⟨hPage, by omega⟩
  | cons q rest =>
    have hQ := (cons.inj hRest).1
    rw [← hQ] at hBefore
    exact (hRemains.not_later hSlot hRemains' hBefore).elim

omit [LinearOrder K] in
theorem Normal.unique (hNormal : f.Normal pages iid l)
    (hNormal' : f.Normal pages iid' l) : iid = iid' := by
  rcases hNormal with ⟨before, after, hRemains, hSlot⟩
  rcases hNormal' with ⟨before', after', hRemains', hSlot'⟩
  have hPages := hRemains.pages.symm.trans hRemains'.pages
  rcases append_eq_append_iff.mp hPages with ⟨rest, hBefore, hRest⟩ | ⟨rest, hBefore, hRest⟩
  · exact hRemains.unique hSlot hRemains' hBefore hRest
  · exact (hRemains'.unique hSlot' hRemains hBefore hRest).symm

end IxFile

variable {fuel : Nat}

------------
-- Bounds
------------

namespace IxIndexHandle

variable {s : IxIndexHandle K} {pages before after : List Int}
variable {p : Int} {q : K → Bool} {slotOf : IxNode K → Nat}

/- A slot of a node is the number of keys with a test. -/
def Counts
    (slotOf : IxNode K → Nat)
    (q : K → Bool)
    (n : IxNode K) :
    Prop :=
  ∃ first last, n.pairs = first ++ last ∧
    (∀ y ∈ first, q y.1 = true) ∧
    (∀ y ∈ last, q y.1 = false) ∧
    slotOf n = first.length

omit [LinearOrder K] in
theorem filter_first
    {first last : List (K × Rid)}
    (hFirst : ∀ y ∈ first, q y.1 = true)
    (hLast : ∀ y ∈ last, q y.1 = false) :
    (first ++ last).filter (fun y => !q y.1) = last := by
  rw [filter_append]
  have hNone : first.filter (fun y => !q y.1) = [] := by
    rw [filter_eq_nil_iff]
    intro y hY
    simp [hFirst y hY]
  have hAll : last.filter (fun y => !q y.1) = last := by
    rw [filter_eq_self]
    intro y hY
    simp [hLast y hY]
  rw [hNone, hAll, nil_append]

/- The leaf where the loop stops. -/
theorem normal_stop
    (hChain : s.file.Chain pages)
    (hCounts : Counts slotOf q (s.node p))
    (hDown : ∀ a b, a < b → q b = true → q a = true)
    (hPages : pages = before ++ p :: after)
    (hStop : slotOf (s.node p) ≠ (s.node p).getSize ∨ after = []) :
    s.file.Normal pages ⟨p,
      slotOf (s.node p)⟩ ((s.file.pairsOf (p :: after)).filter
        (fun y => !q y.1)) := by
  rcases hCounts with ⟨first, last, hPairs, hFirst, hLast, hSlot⟩
  have hSize : (s.node p).getSize = first.length + last.length := by
    unfold IxNode.getSize
    rw [hPairs, length_append]
  have hDrop : (s.file.node p).pairs.drop (slotOf (s.node p)) =
      last := by
    rw [hSlot]
    exact (congrArg (drop first.length) hPairs).trans drop_left
  -- behind an entry without the test there is none with it
  have hRest : (s.file.pairsOf after).filter (fun y => !q y.1) = s.file.pairsOf after := by
    rcases hStop with hStop | rfl
    · have hSome : last ≠ [] := by
        rintro rfl
        exact hStop (by rw [hSlot, hSize]; simp)
      rcases exists_mem_of_ne_nil last hSome with ⟨y, hY⟩
      rw [filter_eq_self]
      intro z hZ
      have hSorted := hChain.sorted
      rw [hPages, IxFile.pairsOf_split, append_assoc,
        pairwise_append, pairwise_append] at hSorted
      have hIn : y ∈ (s.file.node p).pairs := by
        have hIn' : y ∈ first ++ last := mem_append_right _ hY
        rw [← hPairs] at hIn'
        exact hIn'
      have hLess := hSorted.2.1.2.2 y hIn z hZ
      by_contra hBad
      have hTest := hDown y.1 z.1 hLess (by simpa using hBad)
      rw [hLast y hY] at hTest
      cases hTest
    · rfl
  refine ⟨before, after, ⟨hPages, ?_, ?_⟩, ?_⟩
  · rw [hSlot]
    change first.length ≤ (s.node p).getSize
    omega
  · rw [hDrop]
    unfold IxFile.pairsOf at hRest ⊢
    rw [flatMap_cons, filter_append, hRest,
      show (s.file.node p).pairs = first ++ last from hPairs, filter_first hFirst hLast]
  · rcases hStop with hStop | hNil
    · left
      change slotOf (s.node p) < (s.node p).getSize
      omega
    · exact Or.inr hNil

omit [LinearOrder K] in
theorem skipFrom_step (fuel : Nat) :
    skipFrom slotOf (fuel + 1) (s.fetchNode p) p =
      if slotOf (s.node p) = (s.node p).getSize ∧ p ≠ s.file.lastLeaf then
        skipFrom slotOf fuel (s.fetchNode (s.node p).nextLeaf)
          (s.node p).nextLeaf
      else
        some (s, ⟨p, slotOf (s.node p)⟩) := by
  conv_lhs => unfold skipFrom
  rw [unpinPage_fetchNode]
  rfl

/- The loop stops at the first entry without the test. -/
theorem skipFrom_eq
    (hChain : s.file.Chain pages)
    (hCounts : ∀ p ∈ pages, Counts slotOf q (s.node p))
    (hDown : ∀ a b, a < b → q b = true → q a = true)
    (hPages : pages = before ++ p :: after)
    (hFuel : after.length < fuel) :
    ∃ iid, skipFrom slotOf fuel (s.fetchNode p) p = some (s, iid) ∧
        s.file.Normal pages iid
        ((s.file.pairsOf (p :: after)).filter (fun y => !q y.1)) := by
  induction after generalizing p before fuel with
  | nil =>
    cases fuel with
    | zero => cases hFuel
    | succ fuel =>
      have hLast : p = s.file.lastLeaf := by
        rw [hPages] at hChain
        exact hChain.eq_lastLeaf.mpr rfl
      refine ⟨_, ?_, normal_stop hChain (hCounts p (by rw [hPages]; simp)) hDown hPages
        (Or.inr rfl)⟩
      rw [skipFrom_step, if_neg (fun hBoth => hBoth.2 hLast)]
  | cons b after ih =>
    cases fuel with
    | zero => cases hFuel
    | succ fuel =>
      have hP := hCounts p (by rw [hPages]; simp)
      have hNotLast : p ≠ s.file.lastLeaf := by
        rw [hPages] at hChain
        exact fun hBad => absurd (hChain.eq_lastLeaf.mp hBad) (by simp)
      have hNext : (s.file.node p).nextLeaf = b := by
        rw [hPages] at hChain
        exact hChain.nextLeaf
      rw [skipFrom_step]
      by_cases hFull : slotOf (s.node p) = (s.node p).getSize
      · rw [if_pos ⟨hFull, hNotLast⟩, hNext]
        have hSplit : pages = (before ++ [p]) ++ b :: after := by
          rw [hPages]
          simp
        rcases ih hSplit (by simpa using hFuel) with ⟨iid, hRun, hNormal⟩
        refine ⟨iid, hRun, ?_⟩
        -- nothing of the leaf is left
        rcases hP with ⟨first, last, hPairs, hFirst, hLast, hSlot⟩
        have hNil : last = [] := by
          unfold IxNode.getSize at hFull
          rw [hPairs, length_append] at hFull
          exact length_eq_zero_iff.mp (by omega)
        subst hNil
        have hNone : (s.file.node p).pairs.filter (fun y => !q y.1) = [] := by
          rw [show (s.file.node p).pairs = first ++ [] from hPairs]
          exact filter_first hFirst hLast
        have hEq : s.file.pairsOf (p :: b :: after) = (s.file.node p).pairs ++
              s.file.pairsOf (b :: after) := rfl
        rw [hEq, filter_append, hNone, nil_append]
        exact hNormal
      · rw [if_neg (fun hBoth => hFull hBoth.1)]
        exact ⟨_, rfl, normal_stop hChain hP hDown hPages (Or.inl hFull)⟩

variable {leaves : List (K × Int)} {ups : List (List Int)} {key : K}

/- The position of a key in the chain. -/
theorem boundOf_eq
    (hShape : s.file.Shape leaves ups)
    (hCounts : ∀ a ∈ leaves, Counts slotOf q (s.node a.2))
    (hDown : ∀ a b, a < b → q b = true → q a = true)
    (hBelow : ∀ k, k < key → q k = true) :
    ∃ iid, boundOf slotOf s key = some (s, iid) ∧
        s.file.Normal (leaves.map Prod.snd) iid
        ((s.file.pairsOf (leaves.map Prod.snd)).filter (fun y => !q y.1)) := by
  rcases findLeafPage_eq key hShape with ⟨e, x, ⟨left, right, hLeaves, hLow, -⟩, hFind⟩
  have hPages : leaves.map Prod.snd = left.map Prod.snd ++ x :: right.map Prod.snd := by
    rw [hLeaves]
    simp
  have hFuel : (right.map Prod.snd).length < s.fuel := by
    have hRow := hShape.tall.row_length
    rw [hLeaves, length_append, length_cons] at hRow
    rw [length_map]
    unfold fuel
    omega
  have hAll : ∀ p ∈ leaves.map Prod.snd, Counts slotOf q (s.node p) := by
    intro p hP
    rcases mem_map.mp hP with ⟨a, hA, rfl⟩
    exact hCounts a hA
  rcases skipFrom_eq hShape.chain hAll hDown hPages hFuel with ⟨iid, hRun, hNormal⟩
  refine ⟨iid, ?_, ?_⟩
  · unfold boundOf
    rw [hFind]
    exact hRun
  · -- all leaves before the one that was found are below the key
    have hBefore : (s.file.pairsOf (left.map Prod.snd)).filter (fun y => !q y.1) = [] := by
      rw [filter_eq_nil_iff]
      intro y hY
      rcases mem_flatMap.mp hY with ⟨p, hP, hIn⟩
      rcases mem_map.mp hP with ⟨a, hA, rfl⟩
      have hApart := hShape.filled.apart
      rw [hLeaves] at hApart
      have hLess := ((apart_split.mp hApart).2.2.1 a hA).1 y hIn
      have hE : e ≤ key := hLow.resolve_left (ne_nil_of_mem hA)
      simp [hBelow y.1 (lt_of_lt_of_le hLess hE)]
    have hEq : s.file.pairsOf (leaves.map Prod.snd) = s.file.pairsOf (left.map Prod.snd) ++
          s.file.pairsOf (x :: right.map Prod.snd) := by
      rw [hPages]
      exact flatMap_append
    rw [hEq, filter_append, hBefore, nil_append]
    exact hNormal

theorem counts_lowerBound
    {n : IxNode K}
    (hSorted : n.pairs.Pairwise (fun y z => y.1 < z.1)) :
    Counts (fun n => n.lowerBound key) (fun k => k < key) n := by
  rcases IxNode.exists_cut key hSorted with ⟨first, last, hCut⟩
  refine ⟨first, last, hCut.pairs, ?_, ?_, hCut.lowerBound⟩
  · intro y hY
    simpa using hCut.first y hY
  · intro y hY
    simpa using hCut.last y hY

theorem counts_upperBound
    {n : IxNode K}
    (hLeaf : n.isLeaf = true)
    (hSorted : n.pairs.Pairwise (fun y z => y.1 < z.1)) :
    Counts (fun n => n.upperBound key) (fun k => k ≤ key) n := by
  rcases Bisect.exists_cut (fun y : K × Rid => decide (y.1 ≤ key)) (fun y z hLess hZ => by
        simp only [decide_eq_true_eq] at hZ ⊢
        exact le_trans (le_of_lt hLess) hZ) hSorted with
    ⟨first, last, hPairs, hFirst, hLast⟩
  refine ⟨first, last, hPairs, hFirst, hLast, ?_⟩
  unfold IxNode.upperBound IxNode.getSize
  simp only [hLeaf, hPairs, if_true]
  exact Bisect.search_append 0 (Nat.zero_le _) (fun y hY => hFirst y hY) hLast

theorem lowerBound_eq
    (key : K)
    (hShape : s.file.Shape leaves ups) :
    ∃ iid, s.lowerBound key = some (s, iid) ∧
        s.file.Normal (leaves.map Prod.snd) iid
        ((s.file.pairsOf (leaves.map Prod.snd)).filter (fun y =>
          !decide (y.1 < key))) := by
  refine boundOf_eq (q := fun k => decide (k < key)) hShape ?_ ?_ ?_
  · intro a hA
    exact counts_lowerBound (hShape.filled.cells a hA)
  · intro a b hLess hB
    simp only [decide_eq_true_eq] at hB ⊢
    exact lt_trans hLess hB
  · intro k hK
    simpa using hK

theorem upperBound_eq
    (key : K)
    (hShape : s.file.Shape leaves ups) :
    ∃ iid, s.upperBound key = some (s, iid) ∧
        s.file.Normal (leaves.map Prod.snd) iid
        ((s.file.pairsOf (leaves.map Prod.snd)).filter (fun y =>
          !decide (y.1 ≤ key))) := by
  refine boundOf_eq (q := fun k => decide (k ≤ key)) hShape ?_ ?_ ?_
  · intro a hA
    exact counts_upperBound (hShape.leaf a hA).1 (hShape.filled.cells a hA)
  · intro a b hLess hB
    simp only [decide_eq_true_eq] at hB ⊢
    exact le_trans (le_of_lt hLess) hB
  · intro k hK
    simpa using le_of_lt hK

theorem leafBegin_eq (hShape : s.file.Shape leaves ups) :
    ∃ iid, s.leafBegin = some (s, iid) ∧ s.file.Normal (leaves.map Prod.snd) iid
        (s.file.pairsOf (leaves.map Prod.snd)) := by
  have hFirst := hShape.firstLeaf
  rcases head?_eq_some_iff.mp hFirst with ⟨after, hPages⟩
  have hFuel : after.length < s.fuel := by
    have hRow := hShape.tall.row_length
    have hLength := congrArg length hPages
    rw [length_map, length_cons] at hLength
    unfold fuel
    omega
  have hCounts : ∀ p ∈ leaves.map Prod.snd, Counts (fun _ => 0) (fun _ => false) (s.node p) := by
    intro p _
    exact ⟨[], (s.node p).pairs, rfl, by simp, by simp, rfl⟩
  have hPages' : leaves.map Prod.snd = [] ++ s.file.firstLeaf :: after := hPages
  rcases skipFrom_eq hShape.chain hCounts (by simp) hPages' hFuel
    with ⟨iid, hRun, hNormal⟩
  refine ⟨iid, hRun, ?_⟩
  rw [← hPages] at hNormal
  simpa using hNormal

theorem leafEnd_eq (hShape : s.file.Shape leaves ups) :
    ∃ iid, s.leafEnd = (s, iid) ∧
      s.file.Normal (leaves.map Prod.snd) iid [] := by
  refine ⟨⟨s.file.lastLeaf, (s.node s.file.lastLeaf).getSize⟩, ?_, ?_⟩
  · unfold leafEnd
    simp only [unpinPage_fetchNode]
    rfl
  · rcases getLast?_eq_some_iff.mp hShape.lastLeaf with ⟨before, hPages⟩
    refine ⟨before, [], ⟨hPages, le_refl _, ?_⟩, Or.inr rfl⟩
    simp [IxNode.getSize, IxFile.pairsOf]

end IxIndexHandle

section Positions

variable {s : IxIndexHandle K} {leaves : List (K × Int)}
variable {ups : List (List Int)}

theorem IxStart.position_eq
    (start : IxStart K)
    (hShape : s.file.Shape leaves ups) :
    ∃ iid, start.position s = some (s, iid) ∧
        s.file.Normal (leaves.map Prod.snd) iid
        ((s.file.pairsOf (leaves.map Prod.snd)).filter (fun y =>
          start.admits y.1)) := by
  cases start with
  | lowerBound lo =>
    rcases lowerBound_eq lo hShape with ⟨iid, hRun, hNormal⟩
    refine ⟨iid, hRun, ?_⟩
    simpa only [admits, ← not_lt, decide_not] using hNormal
  | upperBound lo =>
    rcases upperBound_eq lo hShape with ⟨iid, hRun, hNormal⟩
    refine ⟨iid, hRun, ?_⟩
    simpa only [admits, ← not_le, decide_not] using hNormal
  | leafBegin =>
    rcases leafBegin_eq hShape with ⟨iid, hRun, hNormal⟩
    refine ⟨iid, hRun, ?_⟩
    simpa [admits] using hNormal

theorem IxEnd.position_eq
    (stop : IxEnd K)
    (hShape : s.file.Shape leaves ups) :
    ∃ iid, stop.position s = some (s, iid) ∧
        s.file.Normal (leaves.map Prod.snd) iid
        ((s.file.pairsOf (leaves.map Prod.snd)).filter (fun y =>
          !stop.admits y.1)) := by
  cases stop with
  | lowerBound hi => exact lowerBound_eq hi hShape
  | upperBound hi => exact upperBound_eq hi hShape
  | leafEnd =>
    rcases leafEnd_eq hShape with ⟨iid, hRun, hNormal⟩
    refine ⟨iid, congrArg some hRun, ?_⟩
    simpa [admits] using hNormal

end Positions

------------
-- Steps Of A Scan
------------

namespace IxFile

variable {f : IxFile K} {pages before after before' after' : List Int}
variable {p p' : Int} {y : K × Rid}

/- The last entry of a leaf that an empty leaf follows, which
  is not the last one. -/
def GapAt (f : IxFile K) (pages : List Int) (y : K × Rid) : Prop :=
  ∃ before p b after, pages = before ++ p :: b :: after ∧
    after ≠ [] ∧ (f.node b).pairs = [] ∧
    (f.node p).pairs.getLast? = some y

/- The leaf of an entry. -/
theorem Chain.page_unique
    (hChain : f.Chain pages)
    (hPages : pages = before ++ p :: after)
    (hPages' : pages = before' ++ p' :: after')
    (hY : y ∈ (f.node p).pairs)
    (hY' : y ∈ (f.node p').pairs) :
    p = p' := by
  have hSorted := hChain.sorted
  unfold pairsOf at hSorted
  rw [pairwise_flatMap] at hSorted
  have hPair := hSorted.2
  have hMem : p' ∈ pages := by
    rw [hPages']
    simp
  rw [hPages] at hMem
  rw [hPages, pairwise_append, pairwise_cons] at hPair
  rcases mem_append.mp hMem with hMem | hMem
  · exact absurd (hPair.2.2 p' hMem p mem_cons_self y hY' y hY) (lt_irrefl _)
  · rcases mem_cons.mp hMem with rfl | hMem
    · rfl
    · exact absurd (hPair.2.1.1 p' hMem y hY y hY') (lt_irrefl _)

theorem Chain.after_unique
    (hChain : f.Chain pages)
    (hPages : pages = before ++ p :: after)
    (hPages' : pages = before' ++ p :: after') :
    after = after' := by
  have hNodup := hChain.nodup
  rw [hPages, nodup_middle, nodup_cons, mem_append, not_or] at hNodup
  have hEq := hPages.symm.trans hPages'
  exact ((append_cons_inj_of_notMem hNodup.1.1 hNodup.1.2).mp hEq).2.2

end IxFile

namespace IxIndexHandle

variable {s : IxIndexHandle K} {pages : List Int} {iid : Iid}
variable {y : K × Rid} {l : List (K × Rid)}

/- A position with nothing in its slot that is not the end. -/
structure Lost
    (s : IxIndexHandle K)
    (pages : List Int)
    (iid : Iid) :
    Prop where
  notEnd : ∀ l, ¬ s.file.Normal pages iid l
  getRid : s.getRid iid = (s.fetchNode iid.pageNo, .error .indexEntryNotFound)

variable {before after : List Int}

/- A gap can only be behind the leaf of the entry. -/
theorem not_gapAt
    {p : Int}
    (hChain : s.file.Chain pages)
    (hPages : pages = before ++ p :: after)
    (hY : y ∈ (s.file.node p).pairs)
    (hNot : ∀ b rest, after = b :: rest → rest ≠ [] →
      (s.file.node b).pairs = [] →
          (s.file.node p).pairs.getLast? ≠ some y) :
    ¬ s.file.GapAt pages y := by
  rintro ⟨before', p', b, rest, hPages', hSome, hEmpty, hLast⟩
  have hEq := hChain.page_unique hPages hPages' hY (mem_of_getLast? hLast)
  subst hEq
  exact hNot b rest (hChain.after_unique hPages hPages') hSome hEmpty hLast

/- The scan stays in its leaf. -/
theorem not_gapAt_of_more
    {p : Int}
    {first last : List (K × Rid)}
    {z : K × Rid}
    (hChain : s.file.Chain pages)
    (hPages : pages = before ++ p :: after)
    (hPairs : (s.file.node p).pairs = first ++ y :: z :: last) :
    ¬ s.file.GapAt pages y := by
  refine not_gapAt hChain hPages (by rw [hPairs]; simp) ?_
  intro b rest _ _ _ hLast
  have hSorted := hChain.sorted
  rw [hPages, IxFile.pairsOf_split, append_assoc,
    pairwise_append, pairwise_append, hPairs,
    pairwise_append, pairwise_cons] at hSorted
  rw [hPairs, getLast?_append_of_ne_nil _ (by simp), getLast?_cons_cons] at hLast
  exact absurd (hSorted.2.1.1.2.1.1 y (mem_of_getLast? hLast)) (lt_irrefl _)

omit [LinearOrder K] in
theorem next_eq : s.next iid = (s,
        if iid.pageNo ≠ s.file.lastLeaf ∧
          iid.slotNo + 1 = (s.node iid.pageNo).getSize then
          ⟨(s.node iid.pageNo).nextLeaf, 0⟩
        else
          ⟨iid.pageNo, iid.slotNo + 1⟩) := by
  unfold next
  simp only [unpinPage_fetchNode]
  rfl

omit [LinearOrder K] in
theorem getRid_eq : s.getRid iid =
      match (s.node iid.pageNo).pairs[iid.slotNo]? with
      | none => (s.fetchNode iid.pageNo, .error .indexEntryNotFound)
      | some e => (s, .ok e.2) := by
  unfold getRid
  simp only [unpinPage_fetchNode]
  rfl

/- What is read, and where the scan goes on. -/
theorem normal_step
    (hChain : s.file.Chain pages)
    (hNormal : s.file.Normal pages iid (y :: l)) :
    s.getRid iid = (s, .ok y.2) ∧ ∃ iid', s.next iid = (s, iid') ∧
        (¬ s.file.GapAt pages y ∧ s.file.Normal pages iid' l ∨
          s.file.GapAt pages y ∧ s.Lost pages iid') := by
  rcases hNormal with ⟨before, after, hRemains, hSlot⟩
  have hRest := hRemains.rest
  have hIn : iid.slotNo < (s.file.node iid.pageNo).pairs.length := by
    rcases hSlot with hSlot | rfl
    · exact hSlot
    · have hLength := congrArg length hRest
      simp only [length_cons, length_append,
        length_drop, IxFile.pairsOf, flatMap_nil, length_nil] at hLength
      omega
  rw [drop_eq_getElem_cons hIn, cons_append] at hRest
  rcases cons.inj hRest with ⟨hY, hL⟩
  have hSplit : (s.file.node iid.pageNo).pairs = (s.file.node iid.pageNo).pairs.take iid.slotNo ++
        y :: (s.file.node iid.pageNo).pairs.drop (iid.slotNo + 1) := by
    rw [hY, ← drop_eq_getElem_cons hIn, take_append_drop]
  have hMem : y ∈ (s.file.node iid.pageNo).pairs := by
    rw [hY]
    exact getElem_mem hIn
  refine ⟨?_, _, next_eq, ?_⟩
  · rw [getRid_eq]
    simp only [node, getElem?_eq_getElem hIn, ← hY]
  · have hChain' := hChain
    rw [hRemains.pages] at hChain'
    cases hMore : (s.file.node iid.pageNo).pairs.drop (iid.slotNo + 1) with
    | cons z last =>
      -- the next slot of the same leaf
      have hLess : iid.slotNo + 1 < (s.file.node iid.pageNo).getSize := by
        have hLength := congrArg length hMore
        rw [length_drop, length_cons] at hLength
        unfold IxNode.getSize
        omega
      rw [hMore] at hSplit
      rw [if_neg (fun hBoth => absurd hBoth.2 (ne_of_lt hLess))]
      exact Or.inl ⟨not_gapAt_of_more hChain hRemains.pages
        hSplit, before, after, ⟨hRemains.pages, le_of_lt hLess, hL⟩, Or.inl hLess⟩
    | nil =>
      have hSize : iid.slotNo + 1 = (s.file.node iid.pageNo).getSize := by
        have hLength := congrArg length hMore
        rw [length_drop, length_nil] at hLength
        unfold IxNode.getSize
        omega
      rw [hMore] at hL hSplit
      rw [nil_append] at hL
      cases after with
      | nil =>
        -- the end of the chain
        rw [if_neg (fun hBoth => hBoth.1 (hChain'.eq_lastLeaf.mpr rfl))]
        refine Or.inl ⟨not_gapAt hChain hRemains.pages hMem (by simp), before, [],
          ⟨hRemains.pages, le_of_eq hSize, ?_⟩, Or.inr rfl⟩
        rw [hMore, hL]
        rfl
      | cons b after =>
        have hNotLast : iid.pageNo ≠ s.file.lastLeaf := fun hBad =>
            absurd (hChain'.eq_lastLeaf.mp hBad) (by simp)
        rw [if_pos ⟨hNotLast, hSize⟩]
        have hNext : (s.node iid.pageNo).nextLeaf = b := hChain'.nextLeaf
        rw [hNext]
        have hPages : pages = (before ++ [iid.pageNo]) ++ b :: after := by
          rw [hRemains.pages]
          simp
        have hThere : s.file.Remains pages ⟨b, 0⟩ l (before ++ [iid.pageNo]) after :=
          ⟨hPages, Nat.zero_le _, hL⟩
        by_cases hGap : (s.file.node b).pairs = [] ∧ after ≠ []
        · refine Or.inr ⟨⟨before, iid.pageNo, b, after, hRemains.pages, hGap.2, hGap.1, ?_⟩, ?_, ?_⟩
          · rw [hSplit]
            simp
          · rintro l' ⟨before', after', hRemains', hSlot'⟩
            rcases hSlot' with hSlot' | hNil
            · unfold IxNode.getSize at hSlot'
              simp only [hGap.1, length_nil] at hSlot'
              omega
            · refine hGap.2 ?_
              rw [← hNil]
              exact hChain.after_unique hPages hRemains'.pages
          · rw [getRid_eq]
            simp only [node, hGap.1, getElem?_nil]
        · refine Or.inl ⟨not_gapAt hChain hRemains.pages hMem ?_, _, _, hThere, ?_⟩
          · intro b' rest hCons hSome hEmpty _
            cases hCons
            exact hGap ⟨hEmpty, hSome⟩
          · rw [not_and_or, not_not] at hGap
            rcases hGap with hSome | hNil
            · exact Or.inl (length_pos_iff.mpr hSome)
            · exact Or.inr hNil

/- The same position has the same rest. -/
theorem normal_rest
    {l' : List (K × Rid)}
    (hChain : s.file.Chain pages)
    (hNormal : s.file.Normal pages iid l)
    (hNormal' : s.file.Normal pages iid l') :
    l = l' := by
  rcases hNormal with ⟨before, after, hRemains, -⟩
  rcases hNormal' with ⟨before', after', hRemains', -⟩
  rw [hRemains.rest, hRemains'.rest, hChain.after_unique hRemains.pages hRemains'.pages]

/- The scan, until it ends or meets a gap. -/
theorem scan_eq
    {end_ : Iid}
    {mid rest : List (K × Rid)}
    (hChain : s.file.Chain pages)
    (hEnd : s.file.Normal pages end_ rest)
    (hNormal : s.file.Normal pages iid (mid ++ rest))
    (hFuel : mid.length < fuel) :
    ((∀ y ∈ mid, ¬ s.file.GapAt pages y) ∧
        scan end_ fuel s iid = some (s, .ok (mid.map Prod.snd))) ∨
      (∃ y ∈ mid, s.file.GapAt pages y) ∧ ∃ s', scan end_ fuel s iid =
          some (s', .error .indexEntryNotFound) := by
  induction mid generalizing iid fuel with
  | nil =>
    cases fuel with
    | zero => cases hFuel
    | succ fuel =>
      refine Or.inl ⟨by simp, ?_⟩
      unfold scan
      rw [if_pos (hNormal.unique hEnd)]
      rfl
  | cons y mid ih =>
    cases fuel with
    | zero => cases hFuel
    | succ fuel =>
      have hFuel' : mid.length < fuel := by simpa using hFuel
      have hNe : iid ≠ end_ := by
        rintro rfl
        have hLength := congrArg length (normal_rest hChain hNormal hEnd)
        simp only [length_append, length_cons] at hLength
        omega
      rcases normal_step hChain hNormal with ⟨hRid, iid', hNext, hCases⟩
      unfold scan
      simp only [if_neg hNe, hRid, hNext]
      rcases hCases with ⟨hNot, hNormal'⟩ | ⟨hGap, hLost⟩
      · rcases ih hNormal' hFuel' with ⟨hNone, hScan⟩ | ⟨⟨z, hZ, hGap⟩, s', hScan⟩
        · refine Or.inl ⟨?_, ?_⟩
          · rw [forall_mem_cons]
            exact ⟨hNot, hNone⟩
          · rw [hScan]
            rfl
        · refine Or.inr ⟨⟨z, mem_cons_of_mem y hZ, hGap⟩, s', ?_⟩
          rw [hScan]
      · -- the error comes with the next reading
        refine Or.inr ⟨⟨y, mem_cons_self, hGap⟩, s.fetchNode iid'.pageNo, ?_⟩
        cases fuel with
        | zero => cases hFuel'
        | succ fuel =>
          have hNe' : iid' ≠ end_ := by
            rintro rfl
            exact hLost.notEnd rest hEnd
          unfold scan
          simp only [if_neg hNe', hLost.getRid]

omit [LinearOrder K] in
/- More fuel does not change a result. -/
theorem scan_mono
    {end_ : Iid}
    {r : IxIndexHandle K × Except IxError (List Rid)}
    (more : Nat)
    (hScan : scan end_ fuel s iid = some r) :
    scan end_ (fuel + more) s iid = some r := by
  induction fuel generalizing s iid r with
  | zero => cases hScan
  | succ fuel ih =>
    rw [Nat.add_right_comm]
    unfold scan at hScan ⊢
    by_cases hEnd : iid = end_
    · rw [if_pos hEnd] at hScan ⊢
      exact hScan
    · rw [if_neg hEnd] at hScan ⊢
      rcases hRid : s.getRid iid with ⟨s₁, e | rid⟩
      · rw [hRid] at hScan
        exact hScan
      · rw [hRid] at hScan
        simp only at hScan ⊢
        cases hRest : scan end_ fuel (s₁.next iid).1 (s₁.next iid).2 with
        | none =>
          rw [hRest] at hScan
          cases hScan
        | some r' =>
          rw [hRest] at hScan
          rw [ih hRest]
          exact hScan

end IxIndexHandle

------------
-- Exact Scans
------------

namespace IxFile

/- No leaf whose last key is in the range is followed by an
  empty leaf, unless that is the last one. -/
def NoGap (f : IxFile K) (start : IxStart K) (stop : IxEnd K) : Prop :=
  ∀ depth p, f.LeafAt depth p → p ≠ f.lastLeaf →
    ∀ y, (f.node p).pairs.getLast? = some y →
      start.admits y.1 = true → stop.admits y.1 = true →
        (f.node (f.node p).nextLeaf).pairs ≠ [] ∨
          (f.node p).nextLeaf = f.lastLeaf

/- The entries of a range. -/
def range
    (f : IxFile K)
    (pages : List Int)
    (start : IxStart K)
    (stop : IxEnd K) :
    List (K × Rid) :=
  (f.pairsOf pages).filter (fun y =>
    start.admits y.1 && stop.admits y.1)

variable {f : IxFile K} {leaves : List (K × Int)}
variable {ups : List (List Int)} {start : IxStart K}
variable {stop : IxEnd K} {pages : List Int}

theorem Chain.range_split
    (hChain : f.Chain pages)
    (hOrder : InOrder start stop) :
    (f.pairsOf pages).filter (fun y => start.admits y.1) =
        f.range pages start stop ++
        (f.pairsOf pages).filter (fun y => !stop.admits y.1) := by
  have hDown : ∀ y z : K × Rid, y.1 < z.1 → stop.admits z.1 = true → stop.admits y.1 = true := by
    intro y z hLess hZ
    cases stop with
    | lowerBound hi =>
      simp only [IxEnd.admits, decide_eq_true_eq] at hZ ⊢
      exact lt_trans hLess hZ
    | upperBound hi =>
      simp only [IxEnd.admits, decide_eq_true_eq] at hZ ⊢
      exact le_trans (le_of_lt hLess) hZ
    | leafEnd => rfl
  have hAfter : ∀ k, stop.admits k = false → start.admits k = true := by
    intro k hK
    cases start with
    | leafBegin => rfl
    | lowerBound lo | upperBound lo =>
      cases stop with
      | leafEnd => cases hK
      | lowerBound hi | upperBound hi =>
        simp only [InOrder, IxEnd.admits, IxStart.admits, decide_eq_false_iff_not,
          decide_eq_true_eq, not_lt, not_le] at hOrder hK ⊢
        grind
  rcases Bisect.exists_cut (fun y : K × Rid => stop.admits y.1)
    hDown hChain.sorted with ⟨first, last, hPairs, hFirst, hLast⟩
  unfold range
  rw [hPairs, filter_first (q := stop.admits) hFirst
    hLast, filter_append, filter_append]
  have hFirst' : first.filter (fun y => start.admits y.1 && stop.admits y.1) =
      first.filter (fun y => start.admits y.1) := by
    apply filter_congr
    intro y hY
    rw [hFirst y hY, Bool.and_true]
  have hLast' : last.filter (fun y => start.admits y.1 && stop.admits y.1) = [] := by
    rw [filter_eq_nil_iff]
    intro y hY
    simp [hLast y hY]
  have hAll : last.filter (fun y => start.admits y.1) = last := by
    rw [filter_eq_self]
    intro y hY
    exact hAfter y.1 (hLast y hY)
  rw [hFirst', hLast', hAll, append_nil]

/- The gaps that a scan of the range meets. -/
theorem Shape.noGap_iff (hShape : f.Shape leaves ups) :
    f.NoGap start stop ↔ ∀ y ∈ f.range (leaves.map Prod.snd) start stop,
        ¬ f.GapAt (leaves.map Prod.snd) y := by
  have hChain := hShape.chain
  constructor
  · rintro hNoGap y hY ⟨before, p, b, after, hPages, hSome, hEmpty, hLast⟩
    have hChain' := hChain
    rw [hPages] at hChain'
    rcases mem_filter.mp hY with ⟨-, hTests⟩
    rw [Bool.and_eq_true] at hTests
    have hLeaf : ∃ depth, f.LeafAt depth p := by
      have hMem : p ∈ leaves.map Prod.snd := by
        rw [hPages]
        simp
      rcases mem_map.mp hMem with ⟨a, hA, rfl⟩
      exact ⟨_, hShape.leafAt hA⟩
    rcases hLeaf with ⟨depth, hLeaf⟩
    have hNotLast : p ≠ f.lastLeaf := fun hBad => absurd (hChain'.eq_lastLeaf.mp hBad) (by simp)
    have hNext := hNoGap depth p hLeaf hNotLast y hLast hTests.1 hTests.2
    rw [hChain'.nextLeaf] at hNext
    rcases hNext with hNext | hNext
    · exact hNext hEmpty
    · have hSplit : before ++ p :: b :: after = (before ++ [p]) ++ b :: after := by simp
      rw [hSplit] at hChain'
      exact hSome (hChain'.eq_lastLeaf.mp hNext)
  · intro hNone depth p hLeaf hNotLast y hLast hStart hStop
    by_contra hBad
    rw [not_or, not_not] at hBad
    rcases append_of_mem (hShape.reaches_leaf hLeaf).2 with ⟨before, after, hPages⟩
    have hChain' := hChain
    rw [hPages] at hChain'
    cases after with
    | nil => exact hNotLast (hChain'.eq_lastLeaf.mpr rfl)
    | cons b after =>
      rw [hChain'.nextLeaf] at hBad
      refine hNone y ?_ ⟨before, p, b, after, hPages, ?_, hBad.1, hLast⟩
      · refine mem_filter.mpr ⟨?_, by simp [hStart, hStop]⟩
        rw [hPages, pairsOf_split]
        simp [mem_of_getLast? hLast]
      · rintro rfl
        have hSplit : before ++ [p, b] = (before ++ [p]) ++ [b] := by simp
        rw [hSplit] at hChain'
        exact hBad.2 (hChain'.eq_lastLeaf.mpr rfl)

end IxFile

/- A scan gives the entries of its range unless it meets a gap. -/
theorem IxIndexHandle.rangeScan_cases
    {s : IxIndexHandle K}
    {leaves : List (K × Int)}
    {start : IxStart K}
    {stop : IxEnd K}
    (hShape : s.file.Shape leaves ups)
    (hOrder : InOrder start stop)
    (hFuel : (s.file.range (leaves.map Prod.snd) start stop).length < fuel) :
    s.file.NoGap start stop ∧ s.rangeScan start stop fuel = some (s, .ok
            ((s.file.range (leaves.map Prod.snd) start stop).map Prod.snd)) ∨
      ¬ s.file.NoGap start stop ∧ ∃ s', s.rangeScan start stop fuel =
          some (s', .error .indexEntryNotFound) := by
  rcases start.position_eq hShape with ⟨lower, hLower, hStart⟩
  rcases stop.position_eq hShape with ⟨upper, hUpper, hStop⟩
  rw [hShape.chain.range_split hOrder] at hStart
  unfold rangeScan
  rw [hLower]
  simp only [hUpper]
  rw [hShape.noGap_iff]
  rcases scan_eq hShape.chain hStop hStart hFuel with
    hOk | ⟨⟨y, hY, hGap⟩, hError⟩
  · exact Or.inl hOk
  · exact Or.inr ⟨fun hNone => hNone y hY hGap, hError⟩

theorem IxIndexHandle.rangeScan_mono
    {s : IxIndexHandle K}
    {start : IxStart K}
    {stop : IxEnd K}
    {r : IxIndexHandle K × Except IxError (List Rid)}
    (more : Nat)
    (hScan : s.rangeScan start stop fuel = some r) :
    s.rangeScan start stop (fuel + more) = some r := by
  unfold rangeScan at hScan ⊢
  cases hLower : start.position s with
  | none =>
    rw [hLower] at hScan
    cases hScan
  | some lower =>
    rw [hLower] at hScan
    simp only at hScan ⊢
    cases hUpper : stop.position lower.1 with
    | none =>
      rw [hUpper] at hScan
      cases hScan
    | some upper =>
      rw [hUpper] at hScan
      exact scan_mono more hScan

/- A scan that ends normally has met no gap. -/
theorem IxIndexHandle.noGap_of_rangeScan
    {s s' : IxIndexHandle K}
    {leaves : List (K × Int)}
    {start : IxStart K}
    {stop : IxEnd K}
    {rids : List Rid}
    (hShape : s.file.Shape leaves ups)
    (hOrder : InOrder start stop)
    (hScan : s.rangeScan start stop fuel = some (s', .ok rids)) :
    s.file.NoGap start stop := by
  rcases rangeScan_cases hShape hOrder (Nat.lt_succ_self _) with ⟨hNoGap, -⟩ | ⟨-, s'', hError⟩
  · exact hNoGap
  · have hLonger := rangeScan_mono fuel hError
    rw [Nat.add_comm, rangeScan_mono _ hScan] at hLonger
    cases hLonger

/- The entries of a range, when the leaves store a map. -/
theorem IxFile.mem_range_iff
    {f : IxFile K}
    {leaves : List (K × Int)}
    {m : K → Option Rid}
    {start : IxStart K}
    {stop : IxEnd K}
    (hMap : ∀ k v, m k = some v ↔ (k, v) ∈ f.entries leaves)
    (key : K)
    (value : Rid) :
    (key, value) ∈ f.range (leaves.map Prod.snd) start stop ↔
      m key = some value ∧ start.admits key = true ∧
      stop.admits key = true := by
  unfold IxFile.range
  rw [mem_filter, Bool.and_eq_true]
  refine and_congr_left (fun _ => ?_)
  rw [hMap key value]
  unfold IxFile.entries contents IxFile.pairsOf
  rw [flatMap_map]

/- A range scan is exact if and only if there is no gap in its
  range. -/
theorem scan_exact_iff
    (cols : List IxCol)
    (file : IxFile (IxKey cols))
    (hCreate : createIndex cols = .ok file)
    (calls : List (IxCall (IxKey cols)))
    (s : IxIndexHandle (IxKey cols))
    (hRun : IxCall.runAll (openIndex file) calls = some s)
    (start : IxStart (IxKey cols))
    (stop : IxEnd (IxKey cols))
    (hOrder : InOrder start stop) :
    (∃ fuel s', ∃ found : List (IxKey cols × Rid),
      s.rangeScan start stop fuel = some (s', .ok (found.map Prod.snd)) ∧
      found.Pairwise (fun y z => y.1 < z.1) ∧
      ∀ key value, (key, value) ∈ found ↔
        IxCall.mapAfter calls key = some value ∧
        start.admits key = true ∧ stop.admits key = true) ↔
    s.file.NoGap start stop := by
  rcases (stores_createIndex hCreate).1.runAll calls with
    ⟨s₀, hRun₀, ⟨leaves, ups, hShape, hMap⟩, -⟩
  rw [hRun] at hRun₀
  cases hRun₀
  constructor
  · rintro ⟨fuel, s', found, hScan, -⟩
    exact noGap_of_rangeScan hShape hOrder hScan
  · intro hNoGap
    rcases rangeScan_cases hShape hOrder (Nat.lt_succ_self _) with ⟨-, hOk⟩ | ⟨hGap, -⟩
    · exact ⟨_, s, _, hOk, hShape.chain.sorted.sublist filter_sublist, IxFile.mem_range_iff hMap⟩
    · exact absurd hNoGap hGap

/- Keys of the greatest length, so that nodes are small. -/
def IxKey.wide (byte : UInt8) : IxKey [.string 512] :=
  ⟨byte :: List.replicate 511 0, by
    rw [List.length_cons, List.length_replicate]
    rfl⟩

/- Three leaves are filled, and the second one is emptied. -/
def emptiedLeaf : List (IxCall (IxKey [.string 512])) :=
  [1, 2, 3, 4, 5, 6, 7, 8, 9, 10].map (fun byte =>
      .insertEntry (.wide byte) ⟨1, 0⟩) ++
    [4, 5, 6].map (fun byte => .deleteEntry (.wide byte))

/- What a range scan of the index with the emptied leaf ends
  with. -/
def scanEmptiedLeaf
    (start : IxStart (IxKey [.string 512]))
    (stop : IxEnd (IxKey [.string 512])) :
    Option (IxIndexHandle (IxKey [.string 512]) × Except IxError (List Rid)) :=
  (createIndex [.string 512]).toOption.bind (fun file =>
    (IxCall.runAll (openIndex file) emptiedLeaf).bind (fun s => s.rangeScan start stop 20))

theorem scanEmptiedLeaf_eq_some {start : IxStart (IxKey [.string 512])}
    {stop : IxEnd (IxKey [.string 512])}
    {r : IxIndexHandle (IxKey [.string 512]) × Except IxError (List Rid)}
    (hScan : scanEmptiedLeaf start stop = some r) :
    ∃ file s, createIndex [.string 512] = .ok file ∧
      IxCall.runAll (openIndex file) emptiedLeaf = some s ∧
      s.rangeScan start stop 20 = some r := by
  rcases Option.bind_eq_some_iff.mp hScan with ⟨file, hFile, hSome⟩
  rcases Option.bind_eq_some_iff.mp hSome with ⟨s, hRun, hScan⟩
  refine ⟨file, s, ?_, hRun, hScan⟩
  cases hCreate : createIndex [.string 512] with
  | error e => simp [hCreate, Except.toOption] at hFile
  | ok file' => simpa [hCreate, Except.toOption] using hFile

/- The scan behind the emptied leaf and the one before it are
  exact. -/
theorem scan_exact_besideGap :
    ∃ file s, createIndex [.string 512] = .ok file ∧
    IxCall.runAll (openIndex file) emptiedLeaf = some s ∧
    ∀ start stop, (start = .lowerBound (.wide 4) ∧ stop = .leafEnd ∨
        start = .leafBegin ∧ stop = .upperBound (.wide 2)) →
      ∃ fuel s', ∃ found : List (IxKey [.string 512] × Rid),
        s.rangeScan start stop fuel = some (s', .ok (found.map Prod.snd)) ∧
        found.Pairwise (fun y z => y.1 < z.1) ∧
        ∀ key value, (key, value) ∈ found ↔
          IxCall.mapAfter emptiedLeaf key = some value ∧
          start.admits key = true ∧ stop.admits key = true := by
  have hEnds : ∀ start stop, (start = .lowerBound (.wide 4) ∧ stop = .leafEnd ∨
        start = .leafBegin ∧ stop = .upperBound (.wide 2)) →
      InOrder start stop ∧ (scanEmptiedLeaf start stop).any (fun r => r.2.isOk) = true := by
    rintro start stop (⟨rfl, rfl⟩ | ⟨rfl, rfl⟩)
    · exact ⟨trivial, by decide +kernel⟩
    · exact ⟨trivial, by decide +kernel⟩
  rcases (Option.any_eq_true _ _).mp (hEnds _ _ (Or.inl ⟨rfl, rfl⟩)).2 with ⟨r, hSome, -⟩
  rcases scanEmptiedLeaf_eq_some hSome with ⟨file, s, hCreate, hRun, -⟩
  refine ⟨file, s, hCreate, hRun, ?_⟩
  intro start stop hRange
  rcases hEnds start stop hRange with ⟨hOrder, hOk⟩
  refine (scan_exact_iff _ file hCreate _ s hRun start stop hOrder).mpr ?_
  rcases (Option.any_eq_true _ _).mp hOk with ⟨⟨s', res⟩, hSome, hOk⟩
  rcases scanEmptiedLeaf_eq_some hSome with ⟨file', t, hCreate', hRun', hScan⟩
  cases hCreate.symm.trans hCreate'
  cases hRun.symm.trans hRun'
  rcases (stores_createIndex hCreate).1.runAll emptiedLeaf with
    ⟨t, hRun', ⟨leaves, ups, hShape, -⟩, -⟩
  cases hRun.symm.trans hRun'
  cases res with
  | error e => cases hOk
  | ok rids => exact noGap_of_rangeScan hShape hOrder hScan

/- The scan has thrown the error of a missing entry. -/
def threwNotFound (r : IxIndexHandle K × Except IxError (List Rid)) : Bool :=
  match r.2 with
  | .error .indexEntryNotFound => true
  | _ => false

/- A scan of all entries throws. -/
theorem scan_throws_at_emptied_leaf :
    ∃ file s s', createIndex [.string 512] = .ok file ∧
      IxCall.runAll (openIndex file) emptiedLeaf = some s ∧
      s.rangeScan .leafBegin .leafEnd 20 =
        some (s', .error .indexEntryNotFound) := by
  have hThrows : (scanEmptiedLeaf .leafBegin .leafEnd).any threwNotFound = true := by
    decide +kernel
  rcases (Option.any_eq_true _ _).mp hThrows with ⟨⟨s', res⟩, hSome, hError⟩
  rcases scanEmptiedLeaf_eq_some hSome with ⟨file, s, hCreate, hRun, hScan⟩
  refine ⟨file, s, s', hCreate, hRun, ?_⟩
  rcases res with (_ | _) | _
  · cases hError
  · exact hScan
  · cases hError

end Rmdb
