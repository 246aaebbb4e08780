import Rmdb.System.LoadTable

/-
  This file models the statements that change the catalog:
  creating and dropping tables and indexes.

  The first index of a table orders its rows: the heap file is
  emptied and the records are put back in key order, each one
  perhaps at a new place.  Any other index is filled from the
  rows where they are.

  Key definitions include:
    * `Table.scanRows`
    * `Table.refill`
    * `Table.createIndex`
    * `Ddl`
    * `Ddl.change`

  Key theorems include:
    * `Table.inSlots_refill`
    * `Table.createIndex_cases`
-/

namespace Rmdb

open List

inductive DdlError where
  | tableExists
  | tableNotFound
  | invalidRecordSize
  | indexExists
  | indexNotFound
  | duplicateKey
deriving DecidableEq, Repr

------------
-- Heap Files
------------

/- The number of records that fit on a page. -/
def recordsPerPage (recordSize : Nat) : Int :=
  (8 * (4096 - 1 - 20) + 1) / (1 + recordSize * 8)

namespace Table

/- A heap file that has just been created. -/
def created (recordSize : Nat) : Table :=
  ⟨firstRecordPage, recordsPerPage recordSize, fun _ => blankPage,
    []⟩

/- `RmScan`: the rows by page and slot. -/
def scanRows (t : Table) : List (Rid × RmRecord) :=
  (List.range (t.numPages - firstRecordPage).toNat).flatMap
    (fun p =>
      (List.range t.numRecordsPerPage.toNat).filterMap (fun s =>
        let rid : Rid := ⟨firstRecordPage + p, s⟩
        (t.record rid).map (fun rec => (rid, rec))))

/- `reset_data_pages`. -/
def resetDataPages (t : Table) : Table :=
  { t with
    numPages := firstRecordPage,
    page := fun _ => blankPage }

/- The place of the next record in a file without gaps. -/
def ridAt (t : Table) (n : Nat) : Rid :=
  ⟨firstRecordPage + n / t.numRecordsPerPage,
    n % t.numRecordsPerPage⟩

/- Fill an empty file: `insert_record` takes slot after slot
  and page after page. -/
def refill :
    List RmRecord → Nat → Table → Table
| [], _, t => t
| rec :: rest, n, t =>
  let rid := t.ridAt n
  refill rest (n + 1)
    ((t.ensureRecordSlot rid).setSlot rid (some rec))

/- Insert the keys of rows into an index. -/
def fillIndex :
    List (Rid × RmRecord) → Index → Option Index
| [], ix => some ix
| (rid, rec) :: rest, ix =>
  match ix.insertEntry (ix.keyOf rec) rid with
  | none => none
  | some ix' => fillIndex rest ix'

/- Do two records have the same key? -/
def keyEqual
    (fmt : LoadFormat)
    (ix : Index)
    (lhs rhs : RmRecord) :
    Bool :=
  (fmt.typedCols ix).all (fun col =>
    fmt.compareRecordCol lhs rhs col = .eq)

/- Are there equal keys next to each other? -/
def repeatsKey
    (fmt : LoadFormat)
    (ix : Index)
    (records : List RmRecord) :
    Bool :=
  (records.zip records.tail).any
    (fun p => keyEqual fmt ix p.1 p.2)

/- `create_index`. The order in which the sort leaves the
  records is an argument. If a key turns out to be taken after
  the file was emptied, the records come back in the order of
  the scan. -/
def createIndex
    (t : Table)
    (fmt : LoadFormat)
    (cols : List ColMeta)
    (order : List RmRecord) :
    Option DdlError × Table :=
  let ix : Index := ⟨cols, fun _ => none⟩
  if t.indexes.any (fun old => old.cols = cols) then
    (some .indexExists, t)
  else if t.indexes = [] then
    if repeatsKey fmt ix order then
      (some .duplicateKey, t)
    else
      let t₁ := refill order 0 t.resetDataPages
      match fillIndex t₁.scanRows ix with
      | some ix' => (none, { t₁ with indexes := [ix'] })
      | none =>
        (some .duplicateKey,
          refill (t.scanRows.map Prod.snd) 0 t.resetDataPages)
  else
    match fillIndex t.scanRows ix with
    | some ix' => (none, { t with indexes := t.indexes ++ [ix'] })
    | none => (some .duplicateKey, t)

/- The order that the sort of `create_index` may leave. -/
def sortedRows
    (t : Table)
    (fmt : LoadFormat)
    (cols : List ColMeta)
    (order : List RmRecord) :
    Prop :=
  let ix : Index := ⟨cols, fun _ => none⟩
  order.Perm (t.scanRows.map Prod.snd) ∧
    order.Pairwise (fun lhs rhs =>
      fmt.recordLessByIndex rhs lhs ix = false)

instance
    (t : Table)
    (fmt : LoadFormat)
    (cols : List ColMeta)
    (order : List RmRecord) :
    Decidable (t.sortedRows fmt cols order) := by
  unfold sortedRows
  infer_instance

def dropIndex
    (t : Table)
    (cols : List ColMeta) :
    Option DdlError × Table :=
  if t.indexes.any (fun ix => ix.cols = cols) then
    (none,
      { t with
        indexes := t.indexes.eraseP (fun ix => ix.cols = cols) })
  else
    (some .indexNotFound, t)

section Refill

variable {t : Table} {records : List RmRecord} {n : Nat}

theorem numRecordsPerPage_refill : (refill records n t).numRecordsPerPage =
      t.numRecordsPerPage := by
  induction records generalizing t n with
  | nil => rfl
  | cons rec rest ih =>
    rw [refill, ih]
    exact numRecordsPerPage_ensureRecordSlot t _

/- Records come into slots. -/
theorem inSlots_refill (hSlots : 0 < t.numRecordsPerPage)
    (hOld : t.InSlots) : (refill records n t).InSlots := by
  induction records generalizing t n with
  | nil => exact hOld
  | cons rec rest ih =>
    apply ih
    · exact (numRecordsPerPage_ensureRecordSlot t _).symm ▸ hSlots
    · have hFirst : firstRecordPage ≤ (t.ridAt n).pageNo := by
        unfold ridAt firstRecordPage
        have hDiv : 0 ≤ (n : Int) / t.numRecordsPerPage := Int.ediv_nonneg (Int.natCast_nonneg n)
            (Int.le_of_lt hSlots)
        simp only
        omega
      intro rid hHere
      rw [record_setSlot (hasPage_ensureRecordSlot hFirst)] at hHere
      unfold HasSlot
      rw [show ((t.ensureRecordSlot (t.ridAt n)).setSlot
        (t.ridAt n) (some rec)).numRecordsPerPage = t.numRecordsPerPage from
          numRecordsPerPage_ensureRecordSlot t _]
      split at hHere
      · rename_i hRid
        rw [hRid]
        exact ⟨Int.emod_nonneg _ (by omega), Int.emod_lt_of_pos _ hSlots⟩
      · apply hOld
        unfold record at hHere ⊢
        rw [image_ensureRecordSlot] at hHere
        exact hHere

/- A file without records. -/
theorem inSlots_of_blank (hBlank : t.page = fun _ => blankPage) :
    t.InSlots := by
  intro rid hHere
  exfalso
  apply hHere
  unfold record image
  rw [hBlank]
  split
  · rfl
  · rfl

theorem ridAt_inj {i j : Nat} (hRid : t.ridAt i = t.ridAt j) : i = j := by
  simp only [ridAt, Rid.mk.injEq] at hRid
  have hI := Int.emod_add_mul_ediv i t.numRecordsPerPage
  have hJ := Int.emod_add_mul_ediv j t.numRecordsPerPage
  rw [hRid.2, show (i : Int) / t.numRecordsPerPage = j / t.numRecordsPerPage by omega] at hI
  omega

/- The records come one after the other. -/
theorem record_refill
    (hSlots : 0 < t.numRecordsPerPage)
    (i : Nat) :
    (refill records n t).record (t.ridAt i) =
      if n ≤ i ∧ i < n + records.length then records[i - n]? else t.record
        (t.ridAt i) := by
  induction records generalizing t n with
  | nil => simp [refill]
  | cons rec rest ih =>
    have hFirst : firstRecordPage ≤ (t.ridAt n).pageNo := by
      have hDiv := Int.ediv_nonneg (Int.natCast_nonneg n) (Int.le_of_lt hSlots)
      simp only [ridAt]
      omega
    have hSet := record_setSlot (hasPage_ensureRecordSlot (t := t) hFirst) (some rec)
    have hPer : ((t.ensureRecordSlot (t.ridAt n)).setSlot (t.ridAt n)
        (some rec)).numRecordsPerPage = t.numRecordsPerPage :=
      numRecordsPerPage_ensureRecordSlot t _
    rw [refill]
    generalize (t.ensureRecordSlot (t.ridAt n)).setSlot (t.ridAt n) (some rec) = t₁ at hSet hPer
    have hRid : t₁.ridAt i = t.ridAt i := by
      unfold ridAt
      rw [hPer]
    rw [← hRid, ih (hPer.symm ▸ hSlots), hRid, hSet, record_ensureRecordSlot]
    by_cases hI : i = n
    · simp [hI]
    · rw [if_neg (fun h => hI (ridAt_inj h))]
      by_cases hIn : n + 1 ≤ i ∧ i < n + 1 + rest.length
      · rw [if_pos hIn, if_pos (by simp; omega), show i - n = i - (n + 1) + 1 by omega]
        rfl
      · rw [if_neg hIn, if_neg (by simp; omega)]

theorem range_pages
    (g : Nat → Option RmRecord)
    (pages k : Nat) :
    (range pages).flatMap (fun p =>
      (range k).filterMap (fun s => g (p * k + s))) =
      (range (pages * k)).filterMap g := by
  induction pages with
  | zero => simp
  | succ p ih =>
    rw [range_succ, flatMap_append, ih, Nat.succ_mul, range_add,
      filterMap_append, filterMap_map]
    simp

theorem filterMap_range
    (l : List RmRecord)
    (n : Nat)
    (hLength : l.length ≤ n) :
    (range n).filterMap (fun i => l[i]?) = l := by
  induction l generalizing n with
  | nil => simp
  | cons a l ih =>
    rcases n with _ | n
    · simp at hLength
    · rw [range_succ_eq_map, filterMap_cons, filterMap_map]
      simpa [Function.comp_def] using ih n (by simpa using hLength)

/- A file that was filled anew has the records in their order. -/
theorem scanRows_refill (hSlots : 0 < t.numRecordsPerPage) :
    (refill records 0 t.resetDataPages).scanRows.map Prod.snd = records := by
  have hRecord : ∀ i, (refill records 0 t.resetDataPages).record (t.ridAt i) = records[i]? := by
    intro i
    refine (record_refill (t := t.resetDataPages) hSlots i).trans ?_
    split
    · rfl
    · rw [getElem?_eq_none (by omega)]
      unfold record image
      split <;> rfl
  have hPer : (refill records 0 t.resetDataPages).numRecordsPerPage = t.numRecordsPerPage :=
    numRecordsPerPage_refill
  generalize refill records 0 t.resetDataPages = t₁ at hRecord hPer
  rcases Int.eq_ofNat_of_zero_le (Int.le_of_lt hSlots) with ⟨k, hK⟩
  have hRid : ∀ p : Nat, ∀ s ∈ range k,
      t₁.record ⟨firstRecordPage + p, s⟩ = records[p * k + s]? := by
    intro p s hS
    rw [mem_range] at hS
    rw [← hRecord, ridAt, hK, ← Int.natCast_ediv, ← Int.natCast_emod, Nat.mul_comm,
      Nat.mul_add_div (by omega), Nat.mul_add_mod, Nat.div_eq_of_lt hS, Nat.mod_eq_of_lt hS]
    rfl
  have hRoom : records.length ≤ (t₁.numPages - firstRecordPage).toNat * k := by
    rcases Nat.eq_zero_or_pos records.length with hNil | hPos
    · omega
    · have hLast := hRecord (records.length - 1)
      rw [getElem?_eq_getElem (by omega)] at hLast
      have hPage := (hasPage_of_record hLast).2
      simp only [ridAt, hK, ← Int.natCast_ediv] at hPage
      have hDiv := (Nat.div_lt_iff_lt_mul (by omega)).mp
        (show (records.length - 1) / k < (t₁.numPages - firstRecordPage).toNat by omega)
      omega
  have hCast : ∀ n, (do let a ← range n; pure (a : Int)) = (range n).map (↑·) :=
    fun n => map_eq_flatMap.symm
  unfold scanRows
  simp only [hPer, hK, hCast, map_flatMap, flatMap_map, map_filterMap,
    filterMap_map]
  refine Eq.trans ?_ ((range_pages _ _ _).trans (filterMap_range records _ hRoom))
  congr 1
  funext p
  refine filterMap_congr (fun s hS => ?_)
  change Option.map Prod.snd (Option.map _ (t₁.record ⟨_, _⟩)) = _
  rw [hRid p s hS, Option.map_map]
  exact congrFun Option.map_id _

/- The rows of a table stay where they are, or the table had
  no index and is filled anew. -/
theorem createIndex_cases
    (t : Table)
    (fmt : LoadFormat)
    (cols : List ColMeta)
    (order : List RmRecord) :
    (∃ indexes, (t.createIndex fmt cols order).2 =
      { t with indexes := indexes }) ∨
      (t.indexes = [] ∧ repeatsKey fmt ⟨cols, fun _ => none⟩ order = false) ∧
        ∃ records indexes,
          (records = order ∨ records = t.scanRows.map Prod.snd) ∧
          (t.createIndex fmt cols order).2 =
            { refill records 0 t.resetDataPages with
              indexes := indexes } := by
  unfold createIndex
  simp only
  split
  · exact Or.inl ⟨t.indexes, rfl⟩
  · split
    · rename_i hNone
      split
      · exact Or.inl ⟨t.indexes, rfl⟩
      · rename_i hOnce
        refine Or.inr ⟨⟨hNone, Bool.eq_false_iff.mpr hOnce⟩, ?_⟩
        split
        · exact ⟨order, _, Or.inl rfl, rfl⟩
        · exact ⟨_, _, Or.inr rfl, rfl⟩
    · split
      · exact Or.inl ⟨_, rfl⟩
      · exact Or.inl ⟨t.indexes, rfl⟩

end Refill

end Table

------------
-- Statements
------------

/- A statement that changes the catalog. A new table is given
  by the lengths of its columns. -/
inductive Ddl where
  | createTable (tab : TabName) (lens : List Nat)
  | dropTable (tab : TabName)
  | createIndex (tab : TabName) (fmt : LoadFormat) (cols : List ColMeta) (order : List RmRecord)
  | dropIndex (tab : TabName) (cols : List ColMeta)

/- Columns side by side. -/
def columnsFrom : Nat → List Nat → List ColMeta
| _, [] => []
| offset, len :: rest =>
  ⟨offset, len⟩ :: columnsFrom (offset + len) rest

namespace Ddl

/- The table of a statement. -/
def tab : Ddl → TabName
| .createTable tab _ => tab
| .dropTable tab => tab
| .createIndex tab _ _ _ => tab
| .dropIndex tab _ => tab

/- What a statement makes of its table: whether it exists, its
  columns, its heap file and its indexes. -/
def change :
    Ddl → Bool → List ColMeta → Table →
      Option DdlError × Bool × List ColMeta × Table
| .createTable _ lens, isTable, cols, t =>
  if isTable then
    (some .tableExists, isTable, cols, t)
  else if lens.sum < 1 ∨ 512 < lens.sum then
    (some .invalidRecordSize, isTable, cols, t)
  else
    (none, true, columnsFrom 0 lens, Table.created lens.sum)
| .dropTable _, isTable, cols, t =>
  if isTable then
    (none, false, [], Table.created 1)
  else
    (some .tableNotFound, isTable, cols, t)
| .createIndex _ fmt ixCols order, isTable, cols, t =>
  if isTable then
    let (err, t') := t.createIndex fmt ixCols order
    (err, isTable, cols, t')
  else
    (some .tableNotFound, isTable, cols, t)
| .dropIndex _ ixCols, isTable, cols, t =>
  if isTable then
    let (err, t') := t.dropIndex ixCols
    (err, isTable, cols, t')
  else
    (some .tableNotFound, isTable, cols, t)

/- The sort of `create_index` leaves a sorted order. -/
def validFor :
    Ddl → Table → Prop
| .createIndex _ fmt cols order, t => t.sortedRows fmt cols order
| _, _ => True

instance (ddl : Ddl) (t : Table) : Decidable (ddl.validFor t) := by
  cases ddl <;> (unfold validFor; infer_instance)

/- Does the statement give its table a new heap file? -/
def rebuilds : Ddl → Bool → Table → Bool
| .createTable _ lens, isTable, _ =>
  !isTable && !decide (lens.sum < 1 ∨ 512 < lens.sum)
| .dropTable _, isTable, _ => isTable
| .createIndex _ fmt cols order, isTable, t =>
  isTable && t.indexes.isEmpty &&
    !Table.repeatsKey fmt ⟨cols, fun _ => none⟩ order
| .dropIndex _ _, _, _ => false

theorem recordsPerPage_pos
    {size : Nat}
    (hSize : size ≤ 512) :
    0 < recordsPerPage size := by
  apply Int.le_ediv_of_mul_le
  · omega
  · omega

/- The rows of a table that is not rebuilt stay in place. -/
theorem change_kept
    (ddl : Ddl)
    (isTable : Bool)
    (cols : List ColMeta)
    (t : Table)
    (hKept : ddl.rebuilds isTable t = false) :
    ∃ indexes, (ddl.change isTable cols t).2.2.2 =
      { t with indexes := indexes } := by
  cases ddl with
  | createTable tab lens =>
    cases isTable with
    | true => exact ⟨t.indexes, rfl⟩
    | false =>
      simp only [rebuilds, Bool.not_false, Bool.true_and,
        Bool.not_eq_false', decide_eq_true_eq] at hKept
      simp only [change, Bool.false_eq_true, if_false, if_pos hKept]
      exact ⟨t.indexes, rfl⟩
  | dropTable tab =>
    cases isTable with
    | true => cases hKept
    | false => exact ⟨t.indexes, rfl⟩
  | createIndex tab fmt ixCols order =>
    simp only [change]
    split
    · rcases t.createIndex_cases fmt ixCols order with
        hSame | ⟨⟨hNone, hOnce⟩, -⟩
      · exact hSame
      · rename_i hTable
        simp [rebuilds, hTable, hNone, hOnce] at hKept
    · exact ⟨t.indexes, rfl⟩
  | dropIndex tab ixCols =>
    simp only [change]
    split
    · unfold Table.dropIndex
      split
      · exact ⟨_, rfl⟩
      · exact ⟨t.indexes, rfl⟩
    · exact ⟨t.indexes, rfl⟩

/- Only a dropped table goes away. -/
theorem rebuilds_of_dropped
    {ddl : Ddl}
    {isTable : Bool}
    {cols : List ColMeta}
    {t : Table}
    (hTable : isTable = true)
    (hGone : (ddl.change isTable cols t).2.1 = false) :
    ddl.rebuilds isTable t = true := by
  subst hTable
  cases ddl with
  | createTable tab lens => cases hGone
  | dropTable tab => rfl
  | createIndex tab fmt ixCols order => cases hGone
  | dropIndex tab ixCols => cases hGone

section InSlots

variable {t : Table}

theorem createIndex_inSlots
    {fmt : LoadFormat}
    {cols : List ColMeta}
    {order : List RmRecord}
    (hRoom : 0 < t.numRecordsPerPage)
    (hSlots : t.InSlots) :
    0 < (t.createIndex fmt cols order).2.numRecordsPerPage ∧
      (t.createIndex fmt cols order).2.InSlots := by
  rcases t.createIndex_cases fmt cols order with ⟨indexes, hSame⟩ | ⟨-, records, indexes, -, hNew⟩
  · rw [hSame]
    exact ⟨hRoom, hSlots⟩
  · rw [hNew]
    have hReset : 0 < t.resetDataPages.numRecordsPerPage := hRoom
    exact ⟨Table.numRecordsPerPage_refill.symm ▸ hReset,
      Table.inSlots_refill hReset (Table.inSlots_of_blank rfl)⟩

/- A heap file has room for records, and they are in slots. -/
theorem change_inSlots
    (ddl : Ddl)
    (isTable : Bool)
    (cols : List ColMeta)
    (hRoom : 0 < t.numRecordsPerPage)
    (hSlots : t.InSlots) :
    0 < (ddl.change isTable cols t).2.2.2.numRecordsPerPage ∧
      (ddl.change isTable cols t).2.2.2.InSlots := by
  cases ddl with
  | createTable tab lens =>
    simp only [change]
    split
    · exact ⟨hRoom, hSlots⟩
    · split
      · exact ⟨hRoom, hSlots⟩
      · exact ⟨recordsPerPage_pos (by omega),
        Table.inSlots_of_blank rfl⟩
  | dropTable tab =>
    simp only [change]
    split
    · exact ⟨recordsPerPage_pos (by omega), Table.inSlots_of_blank rfl⟩
    · exact ⟨hRoom, hSlots⟩
  | createIndex tab fmt ixCols order =>
    simp only [change]
    split
    · exact createIndex_inSlots hRoom hSlots
    · exact ⟨hRoom, hSlots⟩
  | dropIndex tab ixCols =>
    simp only [change]
    split
    · unfold Table.dropIndex
      split
      · exact ⟨hRoom, hSlots⟩
      · exact ⟨hRoom, hSlots⟩
    · exact ⟨hRoom, hSlots⟩

end InSlots

end Ddl

end Rmdb
