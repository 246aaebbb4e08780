import Rmdb.Execution.Streams
import Rmdb.Index.IxScan
import Rmdb.Record.Table

/-
  This file is about whole query plans: the tree of executors
  that `convert_plan_executor` builds for a plan, what such a
  tree hands out, and what its counters show after a run.

  A plan whose scans below need the record of the left side of
  a join has the index `true`; only the right side of a join
  may be one.

  Key definitions include:
    * `Plan`
    * `convertPlanExecutor`
    * `Plan.output`

  Key theorems include:
    * `Plan.serves`
    * `join_pairs_iff`
    * `rows_after_run`
    * `batches_of_plan`
    * `indexScan_spec`
    * `limit_sort_rows`
    * `filter_join_pushed`
-/

namespace Rmdb

open Cursor IxIndexHandle

------------
-- What A Query Throws
------------

inductive QueryError where
-- `init_raw` of a join key that is too long for the column of the inner table
| stringOverflow
-- `IxScan::rid` at a slot without an entry
| index (e : IxError)
-- a shared lock that is not free
| transactionAbort
deriving DecidableEq, Repr

/- `bind_join_key` for CHAR columns: the text of the outer
  column, filled up to the length of the inner one. -/
def bindJoinKey
    (offset outerLen innerLen : Nat)
    (left : RmRecord) :
    Except QueryError RmRecord :=
  let text := ((left.drop offset).take outerLen).takeWhile (fun ch => ch != 0)
  if innerLen < text.length then
    .error .stringOverflow
  else
    .ok (text ++ List.replicate (innerLen - text.length) 0)

/- A scan that throws nothing. -/
def Source.calm
    (recs : List RmRecord)
    (conds : Option RmRecord → RmRecord → Bool) :
    Source QueryError RmRecord :=
  ⟨recs, fun key r => .ok (conds key r), fun _ => none⟩

------------
-- Plans And Their Executors
------------

mutual

inductive Plan : Bool → Type
| scan (recs : List RmRecord) (visit : RmRecord → Except QueryError Bool)
    (leave : Option QueryError) : Plan false
| innerScan (src : Source QueryError RmRecord)
    (bindJoinKey : RmRecord → Except QueryError RmRecord) : Plan true
| filter {b : Bool} (sub : Plan b) (conds : RmRecord → Bool) : Plan b
| projection {b : Bool} (sub : Plan b) (proj : RmRecord → RmRecord) : Plan b
| rename (sub : Plan false) : Plan false
| limit (sub : Plan false) (limit : Nat) : Plan false
| sort (sub : Plan false) (before : RmRecord → RmRecord → Bool) : Plan false
| aggregate (sub : Plan false) (groupKey : RmRecord → RmRecord) (grouped : Bool)
    (having : List RmRecord → Bool) (build : List RmRecord → RmRecord) : Plan false
| union (children : Plans) : Plan false
| join {b : Bool} (left : Plan false) (right : Plan b) (conds : RmRecord → Bool) : Plan false

/- The children of a union, each with the way its records are
  laid out in the result. -/
inductive Plans : Type
| nil : Plans
| cons (child : Plan false) (write : RmRecord → RmRecord) (children : Plans) : Plans

end

mutual

def convertPlanExecutor {b : Bool} : Plan b → Cursor QueryError RmRecord
| .scan recs visit leave => plainScanExecutor ⟨recs, fun _ => visit,
    fun _ => leave⟩
| .innerScan src bindJoinKey => innerScanExecutor src bindJoinKey
| .filter sub conds => filterExecutor (convertPlanExecutor sub) conds
| .projection sub proj => projectionExecutor (convertPlanExecutor sub) proj
| .rename sub => renameExecutor (convertPlanExecutor sub)
| .limit sub limit => limitExecutor (convertPlanExecutor sub) limit
| .sort sub before => sortExecutor (convertPlanExecutor sub) before
| .aggregate sub groupKey grouped having build =>
  aggregateExecutor (convertPlanExecutor sub) groupKey grouped having build
| .union children => unionExecutor (convertChildren children)
| .join left right conds =>
  nestedLoopJoinExecutor (convertPlanExecutor left) (convertPlanExecutor right) conds (· ++ ·)

def convertChildren : Plans → Pass QueryError RmRecord
| .nil => Pass.empty
| .cons child write children => (convertChildren children).add (convertPlanExecutor child) write

end

------------
-- What A Plan Hands Out
------------

structure Output where
  -- the records, for a bound record or without one
  rows : Option RmRecord → List RmRecord
  -- what is thrown behind them
  tail : Option RmRecord → Tail QueryError
  -- after how many records the end is reported before the cursor is moved on
  cut : Nat → Bool
  -- what a run adds to the counters
  counts : Option RmRecord → List Bool → Nat
  -- only scans, filters, projections and joins
  explained : Prop

/- The output of a scan. -/
def Output.scan (out : Option RmRecord → List RmRecord × Option QueryError) :
    Output :=
  ⟨fun key => (out key).1, fun key => .plain (out key).2, fun _ => false,
    fun key => node (out key).1.length 0 0, True⟩

/- The output of an executor that reads its input up front. -/
def Output.buffered
    (result : List RmRecord → List RmRecord)
    (rs : List RmRecord)
    (thrown : Option QueryError) :
    Output :=
  ⟨fun _ => bufferedRows result rs thrown, fun _ => .plain thrown, fun _ => false, fun _ => 0,
    False⟩

mutual

def Plan.output {b : Bool} : Plan b → Output
| .scan recs visit leave =>
  .scan (Source.serve ⟨recs, fun _ => visit, fun _ => leave⟩ none)
| .innerScan src bindJoinKey => .scan (src.serve (some bindJoinKey))
| .filter sub conds =>
  let rows := fun key => (sub.output.rows key).filter conds
  ⟨rows, fun key => .plain (sub.output.tail key).thrown, fun _ => false,
    fun key => node (rows key).length (sub.output.counts key) 0, sub.output.explained⟩
| .projection sub proj =>
  ⟨fun key => (sub.output.rows key).map proj, sub.output.tail, sub.output.cut,
    fun key => node (sub.output.rows key).length (sub.output.counts key) 0, sub.output.explained⟩
| .rename sub => ⟨sub.output.rows, sub.output.tail, sub.output.cut, fun _ => 0, False⟩
| .limit sub limit =>
  let rows := sub.output.rows none
  ⟨fun _ => rows.take limit,
    fun _ => if rows = [] then sub.output.tail none
      else limitTail limit rows.length (sub.output.tail none),
    fun n => decide (n = limit) || sub.output.cut n, fun _ => 0, False⟩
| .sort sub before =>
  .buffered (fun rs => rs.mergeSort (fun a b => !before b a)) (sub.output.rows none)
    (sub.output.tail none).thrown
| .aggregate sub groupKey grouped having build =>
  .buffered (aggregateRows groupKey grouped having build) (sub.output.rows none)
    (sub.output.tail none).thrown
| .union children => .buffered (firsts []) children.rows children.thrown
| .join left right conds =>
  let out := joinRest conds (· ++ ·) left.output.cut (left.output.tail none).thrown
    (rightOf right.output.rows right.output.tail) 0 (left.output.rows none)
  ⟨fun _ => out.1, fun _ => .plain out.2, fun _ => false,
    fun _ => node out.1.length (left.output.counts none)
      ((left.output.rows none).map (fun l => right.output.counts (some l))).sum,
    left.output.explained ∧ right.output.explained⟩

def Plans.rows : Plans → List RmRecord
| .nil => []
| .cons child write children => (child.output.rows none).map write ++ children.rows

/- The first of the children that throws. -/
def Plans.thrown : Plans → Option QueryError
| .nil => none
| .cons child _ children => (child.output.tail none).thrown.or children.thrown

end

theorem node_zero : node 0 0 0 = 0 := by
  funext path
  rcases path with _ | ⟨_ | _, path⟩ <;> rfl

section Lengths

variable {R : Type} [DecidableEq R]

theorem length_firsts_le (seen rs : List R) :
    (firsts seen rs).length ≤ rs.length := by
  induction rs generalizing seen with
  | nil => exact Nat.le_refl _
  | cons r rs ih =>
    simp only [firsts]
    split
    · exact Nat.le_succ_of_le (ih seen)
    · exact Nat.succ_le_succ (ih (r :: seen))

theorem length_aggregateRows_le
    (groupKey : R → R)
    (grouped : Bool)
    (having : List R → Bool)
    (build : List R → R)
    (rs : List R) :
    (aggregateRows groupKey grouped having build rs).length ≤
      rs.length + 1 := by
  have hFirsts := length_firsts_le [] (rs.map groupKey)
  rw [List.length_map] at hFirsts
  simp only [aggregateRows, List.length_map]
  refine Nat.le_trans (List.length_filter_le _ _) ?_
  split
  · exact Nat.succ_le_succ (Nat.zero_le _)
  · rw [List.length_map]
    exact Nat.le_succ_of_le hFirsts

end Lengths

section Single

variable {c : Cursor QueryError RmRecord} {rowsFor : Option RmRecord → List RmRecord}
variable {tailFor : Option RmRecord → Tail QueryError} {cut : Nat → Bool}
variable {counts : Option RmRecord → List Bool → Nat} {clean : Prop}
variable (hServes : Serves c false rowsFor tailFor cut counts clean)
include hServes

/- An executor that reads one other executor up front. -/
theorem serves_buffered_single
    (result : List RmRecord → List RmRecord)
    {more : Nat}
    (hShort : ∀ rs, (result rs).length ≤ rs.length + more) :
    Serves (bufferedExecutor (Pass.empty.add c id) result (c.bound + more))
      false
      (fun _ => bufferedRows result (rowsFor none) (tailFor none).thrown)
      (fun _ => .plain (tailFor none).thrown) (fun _ => false) (fun _ =>
        0) False := by
  have hPass := Pass.yields_empty.add id hServes
  rw [List.map_id, List.append_nil, Option.or_none] at hPass
  apply serves_bufferedExecutor hPass
  exact Nat.le_trans (hShort _) (Nat.add_le_add_right hPass.1 more)

end Single

mutual

/- The executors of a plan hand out what the plan says. The
  end is never reported early in a plan that shows its
  counters, and these start at 0. -/
theorem Plan.serves {b : Bool} : ∀ p : Plan b,
    Serves (convertPlanExecutor p) b p.output.rows p.output.tail
        p.output.cut p.output.counts
        p.output.explained ∧
      (p.output.explained → ∀ n, p.output.cut n = false) ∧
      (convertPlanExecutor p).rows (convertPlanExecutor p).init = 0
| .scan recs visit leave =>
  ⟨serves_scanExecutor ⟨recs, fun _ => visit, fun _ => leave⟩ none (fun _ _ => ⟨rfl, rfl⟩),
    fun _ _ => rfl, node_zero⟩
| .innerScan src bindJoinKey =>
  ⟨serves_scanExecutor src (some bindJoinKey) (by simp), fun _ _ => rfl, node_zero⟩
| .filter sub conds => by
  rcases Plan.serves sub with ⟨hSub, -, hZero⟩
  exact ⟨serves_filterExecutor conds hSub, fun _ _ => rfl,
    (congrArg (node 0 · 0) hZero).trans node_zero⟩
| .projection sub proj => by
  rcases Plan.serves sub with ⟨hSub, hCut, hZero⟩
  exact ⟨serves_projectionExecutor proj hSub, hCut, (congrArg (node 0 · 0) hZero).trans node_zero⟩
| .rename sub => ⟨serves_renameExecutor (Plan.serves sub).1, fun hFalse => hFalse.elim, rfl⟩
| .limit sub limit =>
  ⟨serves_limitExecutor limit (Plan.serves sub).1, fun hFalse => hFalse.elim, rfl⟩
| .sort sub before => by
  have hLength : ∀ rs : List RmRecord,
      (rs.mergeSort (fun a b => !before b a)).length ≤ rs.length + 0 := by simp
  exact ⟨serves_buffered_single (Plan.serves sub).1 _ hLength, fun hFalse => hFalse.elim, rfl⟩
| .aggregate sub groupKey grouped having build => by
  have hLength := length_aggregateRows_le groupKey grouped having build
  exact ⟨serves_buffered_single (Plan.serves sub).1 _ hLength, fun hFalse => hFalse.elim, rfl⟩
| .union children => by
  have hPass := Plans.yields children
  have hLength := Nat.le_trans (length_firsts_le [] children.rows) hPass.1
  exact ⟨serves_bufferedExecutor hPass _ _ hLength, fun hFalse => hFalse.elim, rfl⟩
| .join left right conds => by
  rcases Plan.serves left with ⟨hLeft, hCut, hZeroL⟩
  rcases Plan.serves right with ⟨hRight, -, hZeroR⟩
  refine ⟨serves_nestedLoopJoinExecutor hLeft hRight hCut, fun _ _ => rfl, ?_⟩
  exact (congrArg₂ (node 0) hZeroL hZeroR).trans node_zero

theorem Plans.yields : ∀ children : Plans,
    (convertChildren children).Yields children.rows children.thrown
| .nil => Pass.yields_empty
| .cons child write children => (Plans.yields children).add write (Plan.serves child).1

end

------------
-- Runs Of A Plan
------------

/- The row loop, for a bound record or without one. -/
def Cursor.rowLoop
    {E R : Type}
    (c : Cursor E R)
    (key : Option R)
    (s : c.State) :
    Except E (c.State × List R) :=
  c.restart key s >>= c.drain (c.bound + 1)

/- The loop over batches of `k` records. -/
def Cursor.batchLoop
    {E R : Type}
    (c : Cursor E R)
    (k : Nat)
    (key : Option R)
    (s : c.State) :
    Except E (c.State × List (List R)) :=
  c.restart key s >>= c.drainBatches k (c.bound + 1)

/- The records of one run, or what it throws. -/
def Cursor.records
    {E R : Type}
    (c : Cursor E R)
    (key : Option R)
    (s : c.State) :
    Except E (List R) :=
  (c.rowLoop key s).map Prod.snd

section Runs

variable {b : Bool} (p : Plan b) {key : Option RmRecord} (hKey : key = none → b = false)
include hKey

/- A run ends with the records of the plan, or it throws what
  is behind them. -/
theorem Plan.rowLoop_spec (s : (convertPlanExecutor p).State) :
    (∃ e, (p.output.tail key).thrown = some e ∧
        (convertPlanExecutor p).rowLoop key s = .error e) ∨
      (p.output.tail key).thrown = none ∧
        ∃ s', (convertPlanExecutor p).rowLoop key s =
          .ok (s', p.output.rows key) ∧
          (convertPlanExecutor p).isEnd s' = true ∧
          (p.output.explained → (convertPlanExecutor p).rows s' =
            (convertPlanExecutor p).rows s + p.output.counts key) := by
  rcases (Plan.serves p).1 with ⟨At, Got, hStream, hBegin, hCounts⟩
  have hStart := hBegin key s hKey
  have hShort := hStream.toSteps.short_of_reaches hStart
  unfold Cursor.rowLoop
  rcases hStart with ⟨e, hErr, -, hThrown⟩ | ⟨hSome, s₁, hOk, hAt⟩
  · exact Or.inl ⟨e, hThrown, by rw [hErr]; rfl⟩
  · rw [hOk]
    rcases hStream.drain_spec hAt hSome (Nat.le_succ_of_le hShort) with
      hErr | ⟨s', hNone, hRows, hEnd⟩
    · exact Or.inl hErr
    · exact Or.inr ⟨hNone, s', hRows, hStream.isEnd hEnd,
        fun hExplained => hCounts _ _ _ _ hExplained hEnd⟩

/- What a plan says is what every run of its executors gives. -/
theorem Plan.records_eq_ok_iff
    (s : (convertPlanExecutor p).State)
    (rs : List RmRecord) :
    (convertPlanExecutor p).records key s = .ok rs ↔
      (p.output.tail key).thrown = none ∧ p.output.rows key = rs := by
  unfold Cursor.records
  rcases p.rowLoop_spec hKey s with ⟨e, hThrown, hErr⟩ | ⟨hNone, s', hOk, -⟩
  · simp [hErr, hThrown, Except.map]
  · simp [hOk, hNone, Except.map]

end Runs

/- `select * from a, b where a.name = b.name limit 1`, with an index on the shorter column of `b`
  and a second name in `a` that is too long for it. -/
def limitBeforeLongName : Plan false :=
  .limit (.projection (.join (.scan [[97, 0], [97, 98]] (fun _ => .ok true) none)
    (.innerScan (.calm [[97]] (fun key r => key == some r)) (bindJoinKey 0 2 1))
    (fun _ => true)) id) 1

/- If the left side hands out `ls` and the right side `rs l`
  when it is started for `l`, a join hands out the pairs that
  satisfy its conditions, unless the left side is at its end
  as soon as its last record was fetched and that record has a
  partner. -/
theorem join_pairs_iff
    {b : Bool}
    (left : Plan false)
    (right : Plan b)
    (conds : RmRecord → Bool)
    (s : (convertPlanExecutor (.join left right conds)).State)
    (sLeft : (convertPlanExecutor left).State)
    (sRight : (convertPlanExecutor right).State)
    {ls : List RmRecord}
    {rs : RmRecord → List RmRecord}
    (hLeft : (convertPlanExecutor left).records none sLeft = .ok ls)
    (hRight : ∀ l ∈ ls,
      (convertPlanExecutor right).records (some l) sRight = .ok (rs l)) :
    let pairs := fun l => matchesOf conds (· ++ ·) l (rs l)
    (convertPlanExecutor (.join left right conds)).records none s = .ok (ls.flatMap pairs) ↔
      (left.output.cut ls.length = true → ∀ l ∈ ls.getLast?, pairs l = []) := by
  intro pairs
  rcases (left.records_eq_ok_iff (fun _ => rfl) sLeft ls).mp hLeft with ⟨hCalm, rfl⟩
  have hEach := fun l hL => (right.records_eq_ok_iff (by simp) sRight (rs l)).mp (hRight l hL)
  rw [Plan.records_eq_ok_iff _ (fun _ => rfl)]
  simp only [Plan.output, hCalm, Tail.plain]
  rw [joinRest_eq _ _ _ _ _ _ (fun l hL => (hEach l hL).1), Nat.zero_add]
  have hPairs : ∀ ls' : List RmRecord, ls' ⊆ left.output.rows none →
      ls'.flatMap (fun l => matchesOf conds (· ++ ·) l (rightOf right.output.rows
        right.output.tail l).1) = ls'.flatMap pairs := by
    intro ls' hSub
    refine List.flatMap_congr (fun l hL => ?_)
    rw [rightOf, (hEach l (hSub hL)).2]
  rw [hPairs _ (by split <;> simp [List.dropLast_subset])]
  generalize left.output.rows none = ls
  by_cases hCut : left.output.cut ls.length = true
  · simp only [hCut, if_true, true_imp_iff, true_and]
    rcases List.eq_nil_or_concat ls with rfl | ⟨front, last, rfl⟩
    · simp
    · rw [List.concat_eq_append, List.dropLast_concat, List.flatMap_append, List.getLast?_concat,
        List.self_eq_append_right]
      simp
  · simp [hCut]

/- With `limit 2` on its left side the join loses the partners
  of the second record. -/
theorem join_loses_last :
    let left := Plan.rename
      (.limit (.projection (.scan [[1], [2], [3]] (fun _ => .ok true) none) id) 2)
    let right := Plan.scan [[7]] (fun _ => .ok true) none
    let join := Plan.join left right (fun _ => true)
    (convertPlanExecutor left).records none (convertPlanExecutor left).init = .ok [[1], [2]] ∧
      (convertPlanExecutor right).records none (convertPlanExecutor right).init = .ok [[7]] ∧
      (convertPlanExecutor join).records none (convertPlanExecutor join).init = .ok [[1, 7]] :=
  ⟨rfl, rfl, rfl⟩

theorem sum_apply
    (fs : List (List Bool → Nat))
    (path : List Bool) :
    fs.sum path = (fs.map (fun f => f path)).sum := by
  induction fs with
  | nil => rfl
  | cons f fs ih => simpa using ih

/- The plan that is reached by going down to the left. -/
def Plan.leftmost : Nat → Plan false → Option (Plan false)
| 0, p => some p
| n + 1, .filter sub _ => sub.leftmost n
| n + 1, .projection sub _ => sub.leftmost n
| n + 1, .join left _ _ => left.leftmost n
| _, _ => none

theorem Plan.counts_own
    {b : Bool}
    {p : Plan b}
    (hExplained : p.output.explained)
    (key : Option RmRecord) :
    p.output.counts key [] = (p.output.rows key).length := by
  cases p with
  | scan | innerScan | filter | join => rfl
  | projection => exact (List.length_map _).symm
  | rename | limit | sort | aggregate | union => exact hExplained.elim

theorem Plan.counts_leftmost
    {n : Nat}
    {p p' : Plan false}
    (hDown : p.leftmost n = some p') :
    (p.output.explained → p'.output.explained) ∧
      ∀ path, p.output.counts none (List.replicate n false ++ path) =
        p'.output.counts none path := by
  induction n generalizing p with
  | zero =>
    cases hDown
    exact ⟨id, fun _ => rfl⟩
  | succ n ih =>
    cases p with
    | filter sub _ | projection sub _ => exact ih hDown
    | join left _ _ => exact ⟨fun hBoth => (ih hDown).1 hBoth.1, (ih hDown).2⟩
    | scan | rename | limit | sort | aggregate | union => simp [leftmost] at hDown

/- A scan that throws nothing hands out the records that pass. -/
theorem Source.read_calm
    (recs : List RmRecord)
    (conds : Option RmRecord → RmRecord → Bool)
    (key : Option RmRecord)
    (l : List RmRecord) :
    (Source.calm recs conds).read key l = (l.filter (conds key), none) := by
  induction l with
  | nil => rfl
  | cons r l ih =>
    cases hPass : conds key r <;> simp [read, calm, hPass] at ih ⊢ <;> simp [ih]

/- After a run that throws nothing each counter of a tree of
  scans, filters, projections and joins is the number of
  records its node handed out, over all restarts of the node. -/
theorem rows_after_run
    (p : Plan false)
    (hExplained : p.output.explained)
    (hCalm : (p.output.tail none).thrown = none) :
    let c := convertPlanExecutor p
    ∃ q rows, c.rowLoop none c.init = .ok (q, rows) ∧ c.isEnd q = true ∧
      c.rows q = p.output.counts none ∧ c.rows q [] = rows.length ∧
      ∀ n p', p.leftmost n = some p' →
        c.rows q (List.replicate n false) = (p'.output.rows none).length ∧
        (∀ left recs conds, p' = .join left (.scan recs (fun _ => .ok true) none) conds →
          c.rows q (List.replicate n false ++ [true]) =
            (left.output.rows none).length * recs.length) ∧
        ∀ left src key conds, p' = .join left (.innerScan src key) conds →
          c.rows q (List.replicate n false ++ [true]) =
            ((left.output.rows none).map
              (fun l => (src.serve (some key) (some l)).1.length)).sum ∧
          ∀ recs on, src = .calm recs on → (∀ l, key l = .ok l) →
            c.rows q (List.replicate n false ++ [true]) =
              ((left.output.rows none).map
                (fun l => (recs.filter (on (some l))).length)).sum := by
  intro c
  have hZero : c.rows c.init = 0 := (Plan.serves p).2.2
  rcases p.rowLoop_spec (fun _ : none = none => rfl) c.init with
    ⟨e, hThrown, -⟩ | ⟨-, q, hRun, hEnd, hCounts⟩
  · cases hCalm.symm.trans hThrown
  have hAll : c.rows q = p.output.counts none := by
    rw [← zero_add (p.output.counts none), ← hZero]
    exact hCounts hExplained
  refine ⟨q, _, hRun, hEnd, hAll, ?_, fun n p' hDown => ?_⟩
  · rw [hAll, Plan.counts_own hExplained]
  · rcases Plan.counts_leftmost hDown with ⟨hSub, hPath⟩
    rw [hAll]
    refine ⟨?_, ?_, ?_⟩
    · rw [← Plan.counts_own (hSub hExplained), ← hPath [], List.append_nil]
    · rintro left recs conds rfl
      have hRead := Source.read_calm recs (fun _ _ => true) none recs
      rw [hPath]
      simp only [Source.calm] at hRead
      simp [Plan.output, Output.scan, Source.serve, node, hRead]
    · rintro left src key conds rfl
      rw [hPath]
      have hSum : (Plan.output (.join left (.innerScan src key) conds)).counts none [true] =
          ((left.output.rows none).map
            (fun l => (src.serve (some key) (some l)).1.length)).sum := by
        simp [Plan.output, Output.scan, node, sum_apply, Function.comp_def]
      refine ⟨hSum, ?_⟩
      rintro recs on rfl hKey
      have hServe : ∀ l, ((Source.calm recs on).serve (some key) (some l)).1 =
          recs.filter (on (some l)) := by
        intro l
        simp only [Source.serve, hKey, Source.read_calm]
        rfl
      simp only [hSum, hServe]

/- Two of three records pass the filter, and each has one
  partner. -/
def indexJoin : Plan false :=
  .projection (.join
    (.filter (.scan [[1], [2], [3]] (fun _ => .ok true) none) (fun r => r != [2]))
    (.innerScan (.calm [[1], [3], [5]] (fun key r => key == some r)) .ok) (fun _ => true)) id

theorem rows_after_run_indexJoin :
    let c := convertPlanExecutor indexJoin
    indexJoin.output.explained ∧ ∃ q, c.rowLoop none c.init = .ok (q, [[1, 1], [3, 3]]) ∧
      c.rows q [] = 2 ∧ c.rows q (List.replicate 1 false) = 2 ∧
      c.rows q (List.replicate 1 false ++ [true]) = 2 := by
  intro c
  rcases rows_after_run indexJoin ⟨trivial, trivial⟩ rfl with
    ⟨q, rows, hRun, -, -, hOwn, hDown⟩
  have hRows : (c.rowLoop none c.init).map Prod.snd = .ok [[1, 1], [3, 3]] := rfl
  rw [hRun] at hRows
  cases hRows
  exact ⟨⟨trivial, trivial⟩, q, hRun, hOwn, (hDown 1 _ rfl).1.trans rfl,
    ((hDown 1 _ rfl).2.2 _ _ _ _ rfl).1.trans rfl⟩

/- Each left record of the same plan has its partners. -/
theorem join_pairs_iff_indexJoin :
    let left := Plan.scan [[1], [2], [3]] (fun _ => .ok true) none
    let right := Plan.innerScan (.calm [[1], [3], [5]] (fun key r => key == some r)) .ok
    (convertPlanExecutor (.join left right (fun _ => true))).records none
        (convertPlanExecutor (.join left right (fun _ => true))).init =
      .ok ([[1], [2], [3]].flatMap (fun l => matchesOf (fun _ => true) (· ++ ·) l
        ([[1], [3], [5]].filter (fun r => some l == some r)))) := by
  intro left right
  have hLeft : (convertPlanExecutor left).records none (convertPlanExecutor left).init =
      .ok [[1], [2], [3]] := rfl
  refine (join_pairs_iff left right (fun _ => true) _ _ (convertPlanExecutor right).init hLeft
    ?_).mpr (fun hCut => by cases hCut)
  intro l hL
  have hCases : l = [1] ∨ l = [2] ∨ l = [3] := by simpa using hL
  rcases hCases with rfl | rfl | rfl <;> rfl

------------
-- Index Scans
------------

/- `IndexScanExecutor` over a range of an index: the records
  of its entries in their order. -/
def indexScan
    {cols : List IxCol}
    (h : IxIndexHandle (IxKey cols))
    (start : IxStart (IxKey cols))
    (stop : IxEnd (IxKey cols))
    (fuel : Nat)
    (record : Rid → RmRecord)
    (conds : RmRecord → Bool) :
    Plan false :=
  let q := h.rangeUntil start stop fuel
  .scan (q.1.map record) (fun r => .ok (conds r)) (q.2.map .index)

theorem indexScan_records
    {cols : List IxCol}
    {h : IxIndexHandle (IxKey cols)}
    {start : IxStart (IxKey cols)}
    {stop : IxEnd (IxKey cols)}
    {fuel : Nat}
    {record : Rid → RmRecord}
    {conds : RmRecord → Bool}
    (s : (convertPlanExecutor (indexScan h start stop fuel record conds)).State)
    (rs : List RmRecord) :
    (convertPlanExecutor (indexScan h start stop fuel record conds)).records
      none s = .ok rs ↔
      (h.rangeUntil start stop fuel).2 = none ∧
        ((h.rangeUntil start stop fuel).1.map record).filter conds = rs := by
  have hRead : ∀ l, Source.read ⟨l, fun _ r => .ok (conds r),
      fun _ => (h.rangeUntil start stop fuel).2.map QueryError.index⟩ none l =
      (l.filter conds, (h.rangeUntil start stop fuel).2.map QueryError.index) := by
    intro l
    generalize (h.rangeUntil start stop fuel).2.map QueryError.index = thrown
    have hAll : ∀ recs, Source.read ⟨recs, fun _ r => .ok (conds r), fun _ => thrown⟩ none l =
        (l.filter conds, thrown) := by
      intro recs
      induction l with
      | nil => rfl
      | cons r l ih => cases hPass : conds r <;> simp [Source.read, hPass, ih]
    exact hAll l
  rw [Plan.records_eq_ok_iff _ (fun _ => rfl)]
  simp [indexScan, Plan.output, Output.scan, Source.serve, hRead, Tail.plain]

/- Over an index that was built by calls, the scan of a range
  in order ends normally if and only if there is no gap in the
  range, and then it hands out the records of the entries of
  the range. -/
theorem indexScan_spec
    {cols : List IxCol}
    {file : IxFile (IxKey cols)}
    (hCreate : createIndex cols = .ok file)
    {calls : List (IxCall (IxKey cols))}
    {h : IxIndexHandle (IxKey cols)}
    (hRun : IxCall.runAll (openIndex file) calls = some h)
    {start : IxStart (IxKey cols)}
    {stop : IxEnd (IxKey cols)}
    (hOrder : InOrder start stop)
    (record : Rid → RmRecord)
    (conds : RmRecord → Bool) :
    ∃ fuel, ∀ s, h.file.NoGap start stop ∧ (∃ found : List (IxKey cols × Rid),
        (convertPlanExecutor
          (indexScan h start stop fuel record conds)).records none s =
          .ok ((found.map (fun y => record y.2)).filter conds) ∧
        found.Pairwise (fun y z => y.1 < z.1) ∧
        ∀ key value, (key, value) ∈ found ↔
          IxCall.mapAfter calls key = some value ∧
          start.admits key = true ∧ stop.admits key = true) ∨
      ¬ h.file.NoGap start stop ∧ ∀ rs,
        (convertPlanExecutor
          (indexScan h start stop fuel record conds)).records none s
          ≠ .ok rs := by
  rcases (stores_createIndex hCreate).1.runAll calls with
    ⟨h', hRun', ⟨leaves, ups, hShape, hMap⟩, -⟩
  cases hRun.symm.trans hRun'
  have hCases := rangeScan_cases hShape hOrder (Nat.lt_succ_self _)
  refine ⟨(h.file.range (leaves.map Prod.snd) start stop).length + 1, fun s => ?_⟩
  rcases hCases with ⟨hNoGap, hOk⟩ | ⟨hGap, s', hErr⟩
  · refine Or.inl ⟨hNoGap, h.file.range (leaves.map Prod.snd) start stop, ?_,
      hShape.chain.sorted.sublist List.filter_sublist, IxFile.mem_range_iff hMap⟩
    rw [indexScan_records, (rangeUntil_of_rangeScan hOk).1 _ rfl, List.map_map]
    exact ⟨rfl, rfl⟩
  · refine Or.inr ⟨hGap, fun rs hRecords => ?_⟩
    have hThrown := ((indexScan_records s rs).mp hRecords).1
    rw [(rangeUntil_of_rangeScan hErr).2 _ rfl] at hThrown
    cases hThrown

------------
-- Order, Limit And Pushed Conditions
------------

/- ORDER BY with LIMIT hands out the first of all rows in a
  sorted order that keeps the rows which compare equal as they
  came. -/
theorem limit_sort_rows
    (sub : Plan false)
    (before : RmRecord → RmRecord → Bool)
    (n : Nat)
    (hAsymm : ∀ a b, before a b = true → before b a = false)
    (hTrans : ∀ a b c, before b a = false → before c b = false →
      before c a = false)
    (s : (convertPlanExecutor (.limit (.sort sub before) n)).State)
    (s' : (convertPlanExecutor sub).State)
    {rows : List RmRecord}
    (hSub : (convertPlanExecutor sub).records none s' = .ok rows) :
    ∃ out,
      (convertPlanExecutor (.limit (.sort sub before) n)).records none s =
        .ok out ∧
      out.length = min n rows.length ∧
      ∃ rest, (out ++ rest).Perm rows ∧
        (out ++ rest).Pairwise (fun a b => before b a = false) ∧
        ∀ a b, before b a = false → [a, b].Sublist rows →
          [a, b].Sublist (out ++ rest) := by
  rcases (sub.records_eq_ok_iff (fun _ => rfl) s' rows).mp hSub with ⟨hCalm, rfl⟩
  have hLe : ∀ a b c, (!before b a) = true → (!before c b) = true → (!before c a) = true := by
    simpa using hTrans
  have hTotal : ∀ a b, (!before b a || !before a b) = true := by
    intro a b
    cases hB : before b a with
    | false => rfl
    | true => simp [hAsymm b a hB]
  refine ⟨((sub.output.rows none).mergeSort (fun a b => !before b a)).take n, ?_, by simp,
    ((sub.output.rows none).mergeSort (fun a b => !before b a)).drop n, ?_⟩
  · rw [Plan.records_eq_ok_iff _ (fun _ => rfl)]
    simp only [Plan.output, Output.buffered, bufferedRows, hCalm, Tail.plain, limitTail]
    constructor
    · split <;> simp
    · simp
  rw [List.take_append_drop]
  refine ⟨List.mergeSort_perm _ _, ?_, ?_⟩
  · simpa using List.pairwise_mergeSort hLe hTotal (sub.output.rows none)
  · intro a b hB hPair
    exact List.pair_sublist_mergeSort hLe hTotal (by simp [hB]) hPair

/- The longer record comes last, and of the other two the
  first one stays the first. -/
theorem limit_sort_rows_lengths :
    let sub := Plan.scan [[3, 3], [1], [2]] (fun _ => .ok true) none
    let c := convertPlanExecutor (.limit (.sort sub (fun a b => decide (a.length < b.length))) 2)
    ∃ out, c.records none c.init = .ok out ∧ out.length = 2 ∧
      ∃ rest, (out ++ rest).Perm [[3, 3], [1], [2]] ∧
        (out ++ rest).Pairwise (fun a b => decide (b.length < a.length) = false) ∧
        [[1], [2]].Sublist (out ++ rest) := by
  intro sub c
  rcases limit_sort_rows sub _ 2 (by grind) (by grind) c.init {} rfl with
    ⟨out, hOut, hLen, rest, hPerm, hSorted, hStable⟩
  exact ⟨out, hOut, hLen, rest, hPerm, hSorted, hStable [1] [2] (by decide) (by decide)⟩

/- The conditions above a join may be checked where their
  columns come from, as long as the left side does not report
  its end early and neither side throws: with the conditions
  above the join a key is bound for every left record, and
  with those below only for the ones that pass. -/
theorem filter_join_pushed
    {b : Bool}
    (left : Plan false)
    (right : Plan b)
    (conds above rest f g : RmRecord → Bool)
    (hCut : ∀ n, left.output.cut n = false)
    (sLeft : (convertPlanExecutor left).State)
    (sRight : (convertPlanExecutor right).State)
    {ls : List RmRecord}
    {rs : RmRecord → List RmRecord}
    (hLeft : (convertPlanExecutor left).records none sLeft = .ok ls)
    (hRight : ∀ l ∈ ls,
      (convertPlanExecutor right).records (some l) sRight = .ok (rs l))
    (hSplit : ∀ l ∈ ls, ∀ r ∈ rs l,
      above (l ++ r) = (f l && g r && rest (l ++ r)))
    (s : (convertPlanExecutor (.filter (.join left right conds) above)).State)
    (s' : (convertPlanExecutor (.join (.filter left f) (.filter right g)
      (fun r => conds r && rest r))).State) :
    ∃ out,
      (convertPlanExecutor
        (.filter (.join left right conds) above)).records none s = .ok out ∧
      (convertPlanExecutor (.join (.filter left f) (.filter right g)
        (fun r => conds r && rest r))).records none s' = .ok out := by
  rcases (left.records_eq_ok_iff (fun _ => rfl) sLeft ls).mp hLeft with ⟨hCalm, rfl⟩
  have hEach := fun l hL => (right.records_eq_ok_iff (by simp) sRight (rs l)).mp (hRight l hL)
  simp only [Plan.records_eq_ok_iff _ (fun _ => rfl : none = none → _), Plan.output, hCalm,
    Tail.plain]
  rw [joinRest_eq _ _ _ _ _ _ (fun l hL => (hEach l hL).1),
    joinRest_eq _ _ _ _ _ _ (fun l hL => (hEach l (List.mem_filter.mp hL).1).1)]
  simp only [hCut, Bool.false_eq_true, if_false, true_and]
  refine ⟨_, rfl, ?_⟩
  generalize left.output.rows none = ls at hEach hSplit ⊢
  clear hLeft hRight
  induction ls with
  | nil => rfl
  | cons l ls ih =>
    rw [List.forall_mem_cons] at hSplit hEach
    rw [List.flatMap_cons, List.filter_append, ← ih hEach.2 hSplit.2]
    simp only [matchesOf, rightOf, List.filter_map, List.filter_filter, hEach.1.2]
    -- a left record that fails its condition has no pairs above the join
    cases hL : f l with
    | true =>
      rw [List.filter_cons_of_pos hL, List.flatMap_cons, hEach.1.2]
      congr 2
      apply List.filter_congr
      intro r hR
      have hPair := hSplit.1 r hR
      grind
    | false =>
      have hNone : ∀ r ∈ rs l, ¬ (above (l ++ r) && conds (l ++ r)) = true := by
        intro r hR
        simp [hSplit.1 r hR, hL]
      simp [hL, List.filter_eq_nil_iff.mpr hNone]

theorem filter_join_pushed_head :
    let above : RmRecord → Bool := fun r => r.head? == some 1
    let left := Plan.scan [[1], [2]] (fun _ => .ok true) none
    let right := Plan.scan [[7]] (fun _ => .ok true) none
    let c := convertPlanExecutor (.filter (.join left right (fun _ => true)) above)
    let c' := convertPlanExecutor (.join (.filter left above) (.filter right (fun _ => true))
      (fun _ => true && true))
    c.records none c.init = .ok [[1, 7]] ∧ c'.records none c'.init = .ok [[1, 7]] := by
  intro above left right c c'
  rcases filter_join_pushed left right (fun _ => true) above (fun _ => true) above (fun _ => true)
    (fun _ => rfl) (convertPlanExecutor left).init (convertPlanExecutor right).init rfl
    (fun _ _ => rfl) (by decide) c.init c'.init with ⟨out, hAbove, hBelow⟩
  have hOut : c.records none c.init = .ok [[1, 7]] := rfl
  cases hOut.symm.trans hAbove
  exact ⟨hAbove, hBelow⟩

end Rmdb
