import Rmdb.Lib.Cursor

/-
  This file models the executors of a query: the scans, the
  filter, the projection, the renaming, the limit, the nested
  loop join and the executors that read their input up front.
  What a condition or a projection does with a record is a
  parameter, and so is what a scan throws at a record.

  `rows` is the counter that `explain_print` shows; the
  executors that print nothing have none.

  Key definitions include:
    * `Source`
    * `scanExecutor`
    * `limitExecutor`
    * `nestedLoopJoinExecutor`
    * `bufferedExecutor`
-/

namespace Rmdb

open Cursor

variable {E R : Type}

/- The counters of a node and of the trees below it. -/
def node (own : Nat) (left right : List Bool → Nat) : List Bool → Nat
| [] => own
| false :: path => left path
| true :: path => right path

------------
-- Scans
------------

/- What a scan goes through. At a record it takes a lock,
  which may throw, and reads the version it sees; it tells
  whether that passes the conditions, which may look at the
  key that was bound. Behind the last record an index scan may
  throw at a leaf without entries. -/
structure Source (E R : Type) where
  recs : List R
  visit : Option R → R → Except E Bool
  leave : Option R → Option E

/- `advance_to_next_match`, from a record on. -/
def Source.advance
    (src : Source E R)
    (key : Option R) :
    List R → Except E (List R)
| [] =>
  match src.leave key with
  | none => .ok []
  | some e => .error e
| r :: rs =>
  match src.visit key r with
  | .error e => .error e
  | .ok true => .ok (r :: rs)
  | .ok false => src.advance key rs

structure ScanState (R : Type) where
  key : Option R := none
  -- the records from the current one on
  todo : List R := []
  rows : Nat := 0

/- A scan. The inner side of a join binds a key for each left
  record, and without one such a scan is at its end. -/
def scanExecutor
    (src : Source E R)
    (bindJoinKey : Option (R → Except E R)) :
    Cursor E R where
  State := ScanState R
  init := {}
  beginTuple s :=
    if bindJoinKey.isSome && s.key.isNone then
      .ok { s with todo := [] }
    else
      (src.advance s.key src.recs).map (fun l => { s with todo := l })
  nextTuple s :=
    match s.todo with
    | [] => .ok s
    | _ :: rest => (src.advance s.key rest).map (fun l => { s with todo := l })
  isEnd s := s.todo.isEmpty
  next s :=
    match s.todo with
    | [] => (s, none)
    | r :: _ => ({ s with rows := s.rows + 1 }, some r)
  bound := src.recs.length
  bind r s :=
    match bindJoinKey with
    | none => .ok s
    | some key => (key r).map (fun k => { s with key := some k })
  rows s := node s.rows 0 0

/- `SeqScanExecutor` and `IndexScanExecutor`. -/
def plainScanExecutor (src : Source E R) : Cursor E R :=
  scanExecutor src none

/- `IndexScanExecutor` as the inner side of a join. -/
def innerScanExecutor
    (src : Source E R)
    (bindJoinKey : R → Except E R) :
    Cursor E R :=
  scanExecutor src (some bindJoinKey)

------------
-- Filter, Projection, Renaming And Limit
------------

structure FilterState (S R : Type) where
  prev : S
  cur : Option R := none
  rows : Nat := 0

/- `find_next_valid`. -/
def findNextValid
    (prev : Cursor E R)
    (conds : R → Bool)
    (rows : Nat)
    (s : prev.State) :
    Except E (FilterState prev.State R) :=
  (prev.seek false conds (prev.bound + 1) s).map (fun p => ⟨p.1, p.2, rows⟩)

def filterExecutor
    (prev : Cursor E R)
    (conds : R → Bool) :
    Cursor E R where
  State := FilterState prev.State R
  init := ⟨prev.init, none, 0⟩
  beginTuple s := prev.beginTuple s.prev >>= findNextValid prev conds s.rows
  nextTuple s := prev.nextTuple s.prev >>= findNextValid prev conds s.rows
  isEnd s := s.cur.isNone
  next s := ({ s with rows := s.rows + s.cur.toList.length }, s.cur)
  bound := prev.bound
  bind r s := (prev.bind r s.prev).map (fun p => { s with prev := p })
  rows s := node s.rows (prev.rows s.prev) 0

def projectionExecutor
    (prev : Cursor E R)
    (proj : R → R) :
    Cursor E R where
  State := prev.State × Nat
  init := (prev.init, 0)
  beginTuple s := (prev.beginTuple s.1).map (·, s.2)
  nextTuple s := (prev.nextTuple s.1).map (·, s.2)
  isEnd s := prev.isEnd s.1
  next s :=
    if prev.isEnd s.1 then
      (s, none)
    else
      let p := prev.next s.1
      ((p.1, s.2 + p.2.toList.length), p.2.map proj)
  bound := prev.bound
  nextBatch k s :=
    (prev.nextBatch k s.1).map (fun p => ((p.1, s.2 + p.2.length), p.2.map proj))
  bind r s := (prev.bind r s.1).map (·, s.2)
  rows s := node s.2 (prev.rows s.1) 0

/- Only the names of the columns change. -/
def renameExecutor (prev : Cursor E R) : Cursor E R :=
  { prev with rows := fun _ _ => 0 }

/- The second component counts the records of this run. -/
def limitExecutor (prev : Cursor E R) (limit : Nat) : Cursor E R where
  State := prev.State × Nat
  init := (prev.init, 0)
  beginTuple s := (prev.beginTuple s.1).map (·, 0)
  nextTuple s := if s.2 < limit then (prev.nextTuple s.1).map (·, s.2) else .ok s
  isEnd s := decide (limit ≤ s.2) || prev.isEnd s.1
  next s :=
    if decide (limit ≤ s.2) || prev.isEnd s.1 then
      (s, none)
    else
      let p := prev.next s.1
      ((p.1, s.2 + 1), p.2)
  bound := prev.bound
  nextBatch k s :=
    if decide (limit ≤ s.2) || prev.isEnd s.1 then
      .ok (s, [])
    else
      (prev.nextBatch (min k (limit - s.2)) s.1).map (fun p => ((p.1, s.2 + p.2.length), p.2))

------------
-- Nested Loop Join
------------

structure JoinState (S S' R : Type) where
  left : S
  right : S'
  leftRec : Option R := none
  rightRec : Option R := none
  isend : Bool := false
  rows : Nat := 0

section Join

variable (left right : Cursor E R) (conds : R → Bool) (glue : R → R → R)

/- Fetch the left record, bind its key and start the right
  side over for it. -/
def fetchLeft (s : JoinState left.State right.State R) :
    Except E (JoinState left.State right.State R) :=
  let p := left.next s.left
  (right.restart p.2 s.right).map (fun r => { s with left := p.1, leftRec := p.2, right := r })

def advanceToNextMatch : Nat → JoinState left.State right.State R →
    Except E (JoinState left.State right.State R)
| 0, s => .ok { s with rightRec := none, isend := true }
| fuel + 1, s =>
  if left.isEnd s.left then
    .ok { s with rightRec := none, isend := true }
  else do
    let p ← right.seek true (fun r => s.leftRec.any (fun l => conds (glue l r)))
      (right.bound + 1) s.right
    match p.2 with
    | some r => return { s with right := p.1, rightRec := some r, isend := false }
    | none =>
      let s' := { s with left := ← left.nextTuple s.left, right := p.1 }
      if left.isEnd s'.left then
        advanceToNextMatch fuel s'
      else
        advanceToNextMatch fuel (← fetchLeft left right s')

def nestedLoopJoinExecutor : Cursor E R where
  State := JoinState left.State right.State R
  init := { left := left.init, right := right.init }
  beginTuple s := do
    let s' := { s with left := ← left.beginTuple s.left }
    if left.isEnd s'.left then
      return { s' with rightRec := none, isend := true }
    else
      advanceToNextMatch left right conds glue (left.bound + 1) (← fetchLeft left right s')
  nextTuple s :=
    if s.isend then
      .ok s
    else do
      let r ← right.nextTuple s.right
      advanceToNextMatch left right conds glue (left.bound + 1) { s with right := r }
  isEnd s := s.isend
  next s :=
    match s.isend, s.leftRec, s.rightRec with
    | false, some l, some r => ({ s with rows := s.rows + 1 }, some (glue l r))
    | _, _, _ => (s, none)
  bound := left.bound * right.bound
  rows s := node s.rows (left.rows s.left) (right.rows s.right)

end Join

------------
-- Executors That Read Their Input Up Front
------------

/- Running one or several executors to their end. -/
structure Pass (E R : Type) where
  State : Type
  init : State
  run : State → Except E (State × List R)
  bound : Nat

def Pass.empty : Pass E R := ⟨Unit, (), fun s => .ok (s, []), 0⟩

/- One executor before the others, each of its records written
  anew. -/
def Pass.add
    (c : Cursor E R)
    (write : R → R)
    (p : Pass E R) :
    Pass E R where
  State := c.State × p.State
  init := (c.init, p.init)
  run s := do
    let q ← c.drain (c.bound + 1) (← c.beginTuple s.1)
    let q' ← p.run s.2
    return ((q.1, q'.1), q.2.map write ++ q'.2)
  bound := c.bound + p.bound

def bufferedExecutor
    (p : Pass E R)
    (result : List R → List R)
    (bound : Nat) :
    Cursor E R where
  State := p.State × List R
  init := (p.init, [])
  beginTuple s := (p.run s.1).map (fun q => (q.1, result q.2))
  nextTuple s := .ok (s.1, s.2.tail)
  isEnd s := s.2.isEmpty
  next s := (s, s.2.head?)
  bound := bound

def sortExecutor
    (prev : Cursor E R)
    (before : R → R → Bool) :
    Cursor E R :=
  bufferedExecutor (Pass.empty.add prev id) (fun rs => rs.mergeSort (fun a b => !before b a))
    prev.bound

variable [DecidableEq R]

/- The first occurrences, without those seen before. -/
def firsts : List R → List R → List R
| _, [] => []
| seen, r :: rs => if r ∈ seen then firsts seen rs else r :: firsts (r :: seen) rs

def unionExecutor (children : Pass E R) : Cursor E R :=
  bufferedExecutor children (firsts []) children.bound

/- The groups in the order of their first records; without
  group columns there is always one. -/
def aggregateRows
    (groupKey : R → R)
    (grouped : Bool)
    (having : List R → Bool)
    (build : List R → R)
    (rs : List R) :
    List R :=
  let groups := (firsts [] (rs.map groupKey)).map (fun k => rs.filter (fun r => groupKey r = k))
  let groups := if groups.isEmpty && !grouped then [[]] else groups
  (groups.filter having).map build

def aggregateExecutor
    (prev : Cursor E R)
    (groupKey : R → R)
    (grouped : Bool)
    (having : List R → Bool)
    (build : List R → R) :
    Cursor E R :=
  bufferedExecutor (Pass.empty.add prev id) (aggregateRows groupKey grouped having build)
    (prev.bound + 1)

end Rmdb
