import Rmdb.Lib.LittleEndian
import Rmdb.Mvcc.UniqueKeys
import Rmdb.Mvcc.Rollback
import Rmdb.Mvcc.Undo

/-
  This file models `load_table`, which reads a CSV file and
  inserts its records into a table, and says what an abort of
  the transaction leaves of them.

  All lines are parsed before the first record is inserted.  An
  inserted record is remembered as a write, but it is neither
  registered as a physical insert nor does it get a version,
  so an abort passes it over.

  Key definitions include:
    * `LoadFormat.parseLines`
    * `Engine.loadTable`
    * `Engine.LoadsNothing`

  Key theorems include:
    * `Engine.record_of_abort`
    * `Engine.load_aborted_iff`
    * `Engine.load_not_undone`
-/

namespace Rmdb

open LittleEndian Function Table Option

------------
-- CSV Lines
------------

inductive ColType where
  | int
  | float
  | string
deriving DecidableEq, Repr

/- A column of a table, as the loader needs it. -/
structure TabCol extends ColMeta where
  name : List UInt8
  type : ColType
deriving DecidableEq, Repr

inductive LoadError where
  | invalidValueCount
  | badNumber
  | stringOverflow
  | duplicateKey
deriving DecidableEq, Repr

def isSpace (ch : UInt8) : Bool :=
  ch = 32 ∨ 9 ≤ ch ∧ ch ≤ 13

/- The fields of a line, with the field that is being read and
  whether it is inside quotation marks. -/
def splitCsvFields :
    List UInt8 → List UInt8 → Bool → List (List UInt8)
| [], cur, _ => [cur]
| ch :: line, cur, inQuote =>
  if ch = 34 then
    splitCsvFields line cur (¬ inQuote)
  else if ch = 44 ∧ ¬ inQuote then
    cur :: splitCsvFields line [] inQuote
  else
    splitCsvFields line (cur ++ [ch]) inQuote

def splitCsvLine (line : List UInt8) : List (List UInt8) :=
  splitCsvFields line [] false

def trimSpaces (s : List UInt8) : List UInt8 :=
  ((s.dropWhile isSpace).reverse.dropWhile isSpace).reverse

/- Spaces go, and then one pair of quotation marks. -/
def trimCsvField (s : List UInt8) : List UInt8 :=
  let s := trimSpaces s
  if 2 ≤ s.length ∧
      (s.head? = some 39 ∧ s.getLast? = some 39 ∨
        s.head? = some 34 ∧ s.getLast? = some 34) then
    s.tail.dropLast
  else
    s

def isCsvHeader
    (fields : List (List UInt8))
    (cols : List TabCol) :
    Bool :=
  fields.map trimCsvField = cols.map TabCol.name

def isDigit (ch : UInt8) : Bool :=
  48 ≤ ch ∧ ch ≤ 57

/- `std::stoi`: a number at the front, in the range of `int`. -/
def stoi (s : List UInt8) : Option Int :=
  let s := s.dropWhile isSpace
  let negative := s.head? = some 45
  let s := if s.head? = some 45 ∨ s.head? = some 43 then
    s.tail else s
  let digits := s.takeWhile isDigit
  let digitsValue : Nat := digits.foldl
    (fun n ch => 10 * n + (ch.toNat - 48)) 0
  let value : Int :=
    if negative then -digitsValue else digitsValue
  if digits = [] then
    none
  else if -(2 ^ 31) ≤ value ∧ value < 2 ^ 31 then
    some value
  else
    none

/- Put bytes at a place of a record. -/
def writeAt
    (rec : RmRecord)
    (offset : Nat)
    (bytes : List UInt8) :
    RmRecord :=
  rec.take offset ++ bytes ++ rec.drop (offset + bytes.length)

/- The columns of a table with the size of its records, and
  the conversion and the comparison of floating point numbers. -/
structure LoadFormat where
  cols : List TabCol
  recordSize : Nat
  stof : List UInt8 → Option (List UInt8)
  compareFloat : List UInt8 → List UInt8 → Ordering

namespace LoadFormat

variable (fmt : LoadFormat)

/- The bytes of one field. -/
def fieldBytes
    (col : TabCol)
    (field : List UInt8) :
    Except LoadError (List UInt8) :=
  match col.type with
  | .int =>
    match stoi field with
    | some value => .ok (encodeInt 4 value)
    | none => .error .badNumber
  | .float =>
    match fmt.stof field with
    | some bytes => .ok bytes
    | none => .error .badNumber
  | .string =>
    if col.len < field.length then
      .error .stringOverflow
    else
      .ok (field ++ List.replicate (col.len - field.length) 0)

/- Fill a record field by field. -/
def fillRecord :
    List (TabCol × List UInt8) → RmRecord →
      Except LoadError RmRecord
| [], rec => .ok rec
| (col, field) :: rest, rec => do
    let bytes ← fmt.fieldBytes col (trimCsvField field)
    fillRecord rest (writeAt rec col.offset bytes)

/- `parse_record`: the record of a line, if it has one, and
  whether the first line with data is still to come. -/
def parseRecord
    (line : List UInt8)
    (firstDataLine : Bool) :
    Except LoadError (Option RmRecord × Bool) :=
  let line :=
    if line.getLast? = some 13 then line.dropLast else line
  if line = [] then
    .ok (none, firstDataLine)
  else
    let fields := splitCsvLine line
    if fields.length ≠ fmt.cols.length then
      .error .invalidValueCount
    else if firstDataLine ∧ isCsvHeader fields fmt.cols then
      .ok (none, false)
    else do
      let rec ← fmt.fillRecord (fmt.cols.zip fields)
        (List.replicate fmt.recordSize 0)
      .ok (some rec, false)

def parseLines :
    List (List UInt8) → Bool → Except LoadError (List RmRecord)
| [], _ => .ok []
| line :: rest, firstDataLine => do
    let (rec, firstDataLine) ← fmt.parseRecord line firstDataLine
    let records ← parseLines rest firstDataLine
    .ok (rec.toList ++ records)

/- All records of a file. -/
def parseFile (file : List UInt8) :
    Except LoadError (List RmRecord) :=
  fmt.parseLines (file.splitOn 10) true

------------
-- The Order Of The Records
------------

def compareRecordCol (lhs rhs : RmRecord) (col : TabCol) : Ordering :=
  let l := slice lhs col.offset col.len
  let r := slice rhs col.offset col.len
  match col.type with
  | .int => compare (decodeInt l) (decodeInt r)
  | .float => fmt.compareFloat l r
  | .string => compare (l.map UInt8.toNat) (r.map UInt8.toNat)

/- The columns of an index, with their types. -/
def typedCols (ix : Index) : List TabCol :=
  ix.cols.filterMap (fun col =>
    fmt.cols.find? (fun c => c.toColMeta = col))

def recordLessByIndex (lhs rhs : RmRecord) (ix : Index) : Bool :=
  let differs := (fmt.typedCols ix).find? (fun col =>
    fmt.compareRecordCol lhs rhs col ≠ .eq)
  differs.any (fun col => fmt.compareRecordCol lhs rhs col = .lt)

/- The order in which the records are inserted. `std::sort` by
  the first index may permute equal ones. -/
def validOrder (tab : Table) (records order : List RmRecord) : Prop :=
  match tab.indexes with
  | [] => order = records
  | ix :: _ =>
    order.Perm records ∧
      order.Pairwise (fun lhs rhs =>
        fmt.recordLessByIndex rhs lhs ix = false)

instance
    (tab : Table)
    (records order : List RmRecord) :
    Decidable (fmt.validOrder tab records order) := by
  unfold validOrder
  split <;> infer_instance

end LoadFormat

------------
-- The Loader
------------

namespace Engine

/- `insert_loaded_record` at a free place: the record is in
  the table, or a key is taken and it is removed again. -/
def insertLoadedRecord
    (e : Engine)
    (t : TxnId)
    (x : Loc)
    (rec : RmRecord) :
    Option (Bool × Engine) :=
  match (e.db x.tab).allocate x.rid with
  | none => none
  | some tab =>
    let placed := tab.setSlot x.rid (some rec)
    match placed.insertKeys rec x.rid with
    | some tab' =>
      some (true, ((e.setTable x.tab tab').appendWriteRecord t
        (.insertTuple x)).logChange t (.insert x rec))
    | none =>
      match placed.deleteRecord x.rid with
      | .ok tab' => some (false, e.setTable x.tab tab')
      | .error _ => none

/- Insert records until one is rejected. -/
def insertLoadedRecords
    (t : TxnId)
    (tab : TabName) :
    List (RmRecord × Rid) → Engine → Option (Bool × Engine)
| [], e => some (true, e)
| (rec, rid) :: rest, e =>
  match e.insertLoadedRecord t ⟨tab, rid⟩ rec with
  | none => none
  | some (false, e₁) => some (false, e₁)
  | some (true, e₁) => insertLoadedRecords t tab rest e₁

/- `load_table`, with the error that it throws. The order of
  the records and their places are arguments. -/
def loadTable
    (e : Engine)
    (t : TxnId)
    (tab : TabName)
    (fmt : LoadFormat)
    (file : List UInt8)
    (order : List (RmRecord × Rid)) :
    Option (Option LoadError × Engine) :=
  if e.state t ≠ .growing then
    none
  else
    match fmt.parseFile file with
    | .error err => some (some err, e)
    | .ok records =>
      if fmt.validOrder (e.db tab) records
          (order.map Prod.fst) then
        match insertLoadedRecords t tab order e with
        | none => none
        | some (true, e₁) => some (none, e₁)
        | some (false, e₁) => some (some .duplicateKey, e₁)
      else
        none

/- Is a key of the record in an index of the table? -/
def keyTaken (tab : Table) (rec : RmRecord) : Bool :=
  tab.indexes.any (fun ix =>
    (ix.entries (ix.keyOf rec)).isSome)

/- The file cannot be read, it has no records, or the first
  record to be inserted has a key that is taken. -/
def LoadsNothing
    (e : Engine)
    (tab : TabName)
    (fmt : LoadFormat)
    (file : List UInt8)
    (order : List (RmRecord × Rid)) :
    Prop :=
  (∃ err, fmt.parseFile file = .error err) ∨
    ∀ rec rid, order.head? = some (rec, rid) →
      keyTaken (e.db tab) rec = true

/- The transaction has not written the table. -/
structure Untouched (t : TxnId) (tab : TabName) (e : Engine) : Prop where
  writes : ∀ w ∈ (e.txn t).writeSet, w.loc.tab ≠ tab
  owners : ∀ rid, e.physicalInsertOwners ⟨tab, rid⟩ ≠ some t
  versions : ∀ rid, ¬ e.Owns t ⟨tab, rid⟩

------------
-- What The Loader Does
------------

/- What loading some records keeps: the rows that are there,
  and all that an abort looks at except the new writes. -/
structure Loads (t : TxnId) (tab : TabName) (e e' : Engine) : Prop where
  rows : ∀ x rec, e.db.record x = some rec → e'.db.record x = some rec
  writes : ∀ w ∈ (e'.txn t).writeSet, w ∈ (e.txn t).writeSet ∨ ∃ rid, w = .insertTuple ⟨tab, rid⟩
  owners : e'.physicalInsertOwners = e.physicalInsertOwners
  versions : e'.mvccVersions = e.mvccVersions

section Loads

variable {e e' e'' : Engine} {t : TxnId} {tab : TabName}
variable {x : Loc} {rec : RmRecord} {rid : Rid}

theorem Loads.refl
    (t : TxnId)
    (tab : TabName)
    (e : Engine) :
    Loads t tab e e := ⟨fun _ _ h => h, fun _ h => Or.inl h, rfl, rfl⟩

theorem Loads.trans (hFirst : Loads t tab e e')
    (hSecond : Loads t tab e' e'') : Loads t tab e e'' := by
  refine ⟨?_, ?_, hSecond.owners.trans hFirst.owners, hSecond.versions.trans hFirst.versions⟩
  · exact fun x rec h => hSecond.rows x rec (hFirst.rows x rec h)
  · intro w hW
    rcases hSecond.writes w hW with hOld | hNew
    · exact hFirst.writes w hOld
    · exact Or.inr hNew

theorem isSome_mapM
    {α β : Type}
    {f : α → Option β}
    {l : List α}
    (hAll : ∀ a ∈ l, (f a).isSome = true) :
    (l.mapM f).isSome = true := by
  induction l with
  | nil => rfl
  | cons a l ih =>
    rcases isSome_iff_exists.mp (hAll a (by simp)) with ⟨b, hB⟩
    rcases isSome_iff_exists.mp (ih (fun a' hA => hAll a' (by simp [hA]))) with ⟨l', hL⟩
    simp [List.mapM_cons, hB, hL]

/- A key of the record is taken if it cannot be inserted. -/
theorem insertKeys_eq_none_iff
    {table : Table} :
    table.insertKeys rec rid = none ↔ keyTaken table rec = true := by
  have hFree : ∀ ix : Index, (ix.insertEntry (ix.keyOf rec) rid).isSome =
        (ix.entries (ix.keyOf rec)).isNone := by
    intro ix
    unfold Index.insertEntry
    cases ix.entries (ix.keyOf rec) with
    | none => rfl
    | some q => rfl
  unfold insertKeys keyTaken
  rw [bind_eq_bind]
  cases hMap : table.indexes.mapM (fun ix =>
      ix.insertEntry (ix.keyOf rec) rid) with
  | none =>
    simp only [bind_none, true_iff]
    by_contra hNot
    have hSome := isSome_mapM (l := table.indexes)
      (f := fun ix => ix.insertEntry (ix.keyOf rec) rid) (fun ix hIx => by
        have hKey : ix.entries (ix.keyOf rec) = none := by
          simpa using fun h => hNot (List.any_eq_true.mpr ⟨ix, hIx, h⟩)
        rw [hFree, hKey]
        rfl)
    rw [hMap] at hSome
    cases hSome
  | some indexes =>
    simp only [bind_some, reduceCtorEq, false_iff]
    intro hTaken
    rcases List.any_eq_true.mp hTaken with ⟨ix, hIx, hKey⟩
    rcases List.getElem?_of_mem hIx with ⟨i, hI⟩
    rcases getElem?_of_mapM hMap i with ⟨hOld, -⟩ | ⟨ix₁, ix', hOld, -, hInsert⟩
    · rw [hI] at hOld
      cases hOld
    · obtain rfl := some.inj (hI.symm.trans hOld)
      have hSome := hFree ix
      rw [hInsert] at hSome
      cases hEntry : ix.entries (ix.keyOf rec) with
      | none => simp [hEntry] at hKey
      | some q => simp [hEntry] at hSome

/- A record that is inserted. -/
theorem loads_of_insert (hRun : e.insertLoadedRecord t ⟨tab, rid⟩ rec =
    some (true, e')) :
    Loads t tab e e' ∧ e'.db.record ⟨tab, rid⟩ = some rec ∧
      e.db.record ⟨tab, rid⟩ = none ∧
      keyTaken (e.db tab) rec = false := by
  unfold insertLoadedRecord at hRun
  split at hRun
  · cases hRun
  · rename_i table hAllocate
    rcases allocate_spec hAllocate with ⟨hFree, -, hPage, hRecord, hIndexes, -⟩
    simp only at hRun
    split at hRun
    · rename_i tab' hKeys
      obtain rfl := some.inj hRun |> Prod.mk.inj |>.2
      have hTable : tab'.record = (table.setSlot rid (some rec)).record := by
        rcases insertKeys_eq_some hKeys with ⟨indexes, -, rfl⟩
        rfl
      have hLogs := logChange_spec ((e.setTable tab tab').appendWriteRecord t
          (.insertTuple ⟨tab, rid⟩)) t (.insert ⟨tab, rid⟩ rec)
      have hRow : ∀ y, (((e.setTable tab tab').appendWriteRecord t (.insertTuple
            ⟨tab, rid⟩)).logChange t (.insert ⟨tab, rid⟩ rec)).db.record y =
          if y = ⟨tab, rid⟩ then some rec else e.db.record y := by
        intro y
        rw [hLogs.edits.record_same]
        simp only [appendWriteRecord, setTxn, setTable, Db.record]
        by_cases hTab : y.tab = tab
        · rw [hTab, update_self, hTable, record_setSlot hPage, hRecord]
          have hEq : y = ⟨tab, rid⟩ ↔ y.rid = rid := by
            cases y
            simp_all
          simp [hEq]
        · rw [update_of_ne hTab, if_neg]
          rintro rfl
          exact hTab rfl
      have hTxn := hLogs.txn
      refine ⟨⟨?_, ?_, hLogs.owners, hLogs.versions⟩, ?_, hFree, ?_⟩
      · intro y rec' hThere
        rw [hRow, if_neg]
        · exact hThere
        · rintro rfl
          cases hThere.symm.trans hFree
      · intro w hW
        rw [hTxn] at hW
        simp only [appendWriteRecord, setTxn, setTable, update_self, List.mem_cons] at hW
        rcases hW with hNew | hOld
        · exact Or.inr ⟨rid, hNew⟩
        · exact Or.inl hOld
      · rw [hRow, if_pos rfl]
      · rw [Bool.eq_false_iff]
        intro hTaken
        have hNone : (table.setSlot rid (some rec)).insertKeys rec rid = none := by
          refine insertKeys_eq_none_iff.mpr ?_
          unfold keyTaken at hTaken ⊢
          rw [show (table.setSlot rid (some rec)).indexes = table.indexes from rfl, hIndexes]
          exact hTaken
        rw [hKeys] at hNone
        cases hNone
    · split at hRun
      · cases hRun
      · cases hRun

/- A record that is rejected leaves the table as it was. -/
theorem rejected_of_insert (hRun : e.insertLoadedRecord t ⟨tab, rid⟩ rec =
    some (false, e')) :
    keyTaken (e.db tab) rec = true ∧ e'.txn = e.txn ∧
      e'.physicalInsertOwners = e.physicalInsertOwners ∧
      e'.mvccVersions = e.mvccVersions ∧
      e'.db.record = e.db.record ∧
      (e'.db tab).indexes = (e.db tab).indexes := by
  unfold insertLoadedRecord at hRun
  split at hRun
  · cases hRun
  · rename_i table hAllocate
    rcases allocate_spec hAllocate with ⟨hFree, -, hPage, hRecord, hIndexes, -⟩
    simp only at hRun
    split at hRun
    · cases hRun
    · rename_i hKeys
      split at hRun
      · rename_i tab' hDelete
        obtain rfl := some.inj hRun |> Prod.mk.inj |>.2
        rcases deleteRecord_eq_ok hDelete with ⟨hPage', rfl⟩
        have hTable : (((table.setSlot rid (some rec)).setSlot rid
            none).record) = (e.db tab).record := by
          funext q
          rw [record_setSlot hPage', record_setSlot hPage, hRecord]
          split
          · rename_i hQ
            rw [hQ]
            exact hFree.symm
          · rfl
        refine ⟨?_, rfl, rfl, rfl, ?_, ?_⟩
        · have hTaken := insertKeys_eq_none_iff.mp hKeys
          unfold keyTaken at hTaken ⊢
          rw [← hIndexes]
          exact hTaken
        · funext y
          simp only [setTable, Db.record]
          by_cases hTab : y.tab = tab
          · rw [hTab, update_self, hTable]
          · rw [update_of_ne hTab]
        · simp only [setTable, update_self]
          exact hIndexes
      · cases hRun

/- All records that are loaded, one after the other. -/
theorem loads_of_records
    {order : List (RmRecord × Rid)}
    {ok : Bool}
    (hRun : insertLoadedRecords t tab order e = some (ok, e')) :
    Loads t tab e e' := by
  induction order generalizing e with
  | nil =>
    cases hRun
    exact Loads.refl t tab _
  | cons p rest ih =>
    unfold insertLoadedRecords at hRun
    split at hRun
    · cases hRun
    · rename_i e₁ hFirst
      rcases rejected_of_insert hFirst with ⟨-, hTxn, hOwners, hVersions, hRecord, -⟩
      cases hRun
      refine ⟨?_, ?_, hOwners, hVersions⟩
      · intro x rec' h
        rw [hRecord]
        exact h
      · intro w hW
        rw [hTxn] at hW
        exact Or.inl hW
    · rename_i e₁ hFirst
      exact (loads_of_insert hFirst).1.trans (ih hRun)

end Loads

------------
-- Abort
------------

section Aborted

variable {e e₁ e' : Engine} {t : TxnId} {tab : TabName} {x : Loc}

/- A table without writes of the transaction. -/
theorem db_of_abort (hTab : ∀ w ∈ (e.txn t).writeSet, w.loc.tab ≠ tab)
    (hRun : e.abort t = some e') : e'.db tab = e.db tab := by
  rcases abort_cases hRun with ⟨-, e₁, hBack, hEnds⟩ | ⟨-, e₁, hBack, hEnds⟩
  · rw [hEnds.db]
    apply db_of_abortWrites hBack
    intro x hX
    rcases List.mem_map.mp hX with ⟨w, hW, rfl⟩
    exact hTab w hW
  · rw [hEnds.db]
    exact db_of_rollbackWrites hBack hTab

/- A row where the abort has nothing to take back. -/
theorem record_of_abort
    (hInserts : ∀ w ∈ (e.txn t).writeSet, w.loc = x → w = .insertTuple x)
    (hOwner : e.physicalInsertOwners x ≠ some t)
    (hVersion : ¬ e.Owns t x)
    (hRun : e.abort t = some e') :
    e'.db.record x = e.db.record x := by
  rcases abort_cases hRun with ⟨-, e₁, hBack, hEnds⟩ | ⟨-, e₁, hBack, hEnds⟩
  · rw [hEnds.db]
    exact (((abortWrites_spec hBack).2 x).2 (fun _ _ => hVersion)).1
  · rw [hEnds.db, (rollbackWrites_spec hBack).2.2 x]
    apply undone_of_idle
    intro w hW hLoc hActs
    rw [hInserts w hW hLoc] at hActs
    exact hOwner hActs

/- A loaded row is still there after an abort. -/
theorem record_of_loaded
    {rid : Rid}
    {rec : RmRecord}
    (hUntouched : Untouched t tab e)
    (hLoads : Loads t tab e e₁)
    (hRecord : e₁.db.record ⟨tab, rid⟩ = some rec)
    (hAbort : e₁.abort t = some e') :
    e'.db.record ⟨tab, rid⟩ = some rec := by
  rw [record_of_abort _ _ _ hAbort]
  · exact hRecord
  · intro w hW hLoc
    rcases hLoads.writes w hW with hOld | ⟨q, rfl⟩
    · exact absurd (congrArg Loc.tab hLoc) (hUntouched.writes w hOld)
    · cases hLoc
      rfl
  · rw [hLoads.owners]
    exact hUntouched.owners rid
  · intro hOwns
    apply hUntouched.versions rid
    unfold Owns at hOwns ⊢
    rw [hLoads.versions] at hOwns
    exact hOwns

/- The abort of a transaction that loaded a file gives the
  table back as it was before exactly if nothing was loaded. -/
theorem load_aborted_iff
    {e₂ : Engine}
    {fmt : LoadFormat}
    {file : List UInt8}
    {order : List (RmRecord × Rid)}
    {err : Option LoadError}
    (hUntouched : Untouched t tab e)
    (hLoad : e.loadTable t tab fmt file order = some (err, e₁))
    (hAbort : e₁.abort t = some e₂) :
    ((e₂.db tab).record = (e.db tab).record ∧
      (e₂.db tab).indexes = (e.db tab).indexes) ↔
      e.LoadsNothing tab fmt file order := by
  -- without a new write, the abort leaves the table alone
  have hSame : e₁.txn = e.txn → e₂.db tab = e₁.db tab := by
    intro hTxn
    apply db_of_abort _ hAbort
    rw [hTxn]
    exact hUntouched.writes
  unfold loadTable at hLoad
  split at hLoad
  · cases hLoad
  split at hLoad
  · -- a line that cannot be parsed
    rename_i err' hParse
    cases hLoad
    rw [hSame rfl]
    simp only [and_self, true_iff]
    exact Or.inl ⟨err', hParse⟩
  rename_i records hParse
  split at hLoad
  case isFalse => cases hLoad
  have hInserted : ∃ ok, insertLoadedRecords t tab order e = some (ok, e₁) := by
    split at hLoad
    · cases hLoad
    · rename_i e₁' hRun
      cases hLoad
      exact ⟨true, hRun⟩
    · rename_i e₁' hRun
      cases hLoad
      exact ⟨false, hRun⟩
  rcases hInserted with ⟨ok, hInserted⟩
  cases order with
  | nil =>
    cases hInserted
    rw [hSame rfl]
    simp only [and_self, true_iff]
    exact Or.inr (fun _ _ hHead => by cases hHead)
  | cons p rest =>
    rcases p with ⟨rec, rid⟩
    unfold insertLoadedRecords at hInserted
    split at hInserted
    · cases hInserted
    · -- the first record is rejected
      rename_i hFirst
      rcases rejected_of_insert hFirst with ⟨hTaken, hTxn, -, -, hRecord, hIndexes⟩
      cases hInserted
      rw [hSame hTxn]
      constructor
      · intro _
        exact Or.inr (fun _ _ hHead => by
          cases hHead
          exact hTaken)
      · intro _
        refine ⟨?_, hIndexes⟩
        funext q
        exact congrFun hRecord ⟨tab, q⟩
    · -- the first record stays
      rename_i e₃ hFirst
      rcases loads_of_insert hFirst with ⟨hLoads, hRecord, hFree, hTaken⟩
      have hRest := loads_of_records hInserted
      have hStays := record_of_loaded hUntouched
        (hLoads.trans hRest) (hRest.rows _ _ hRecord) hAbort
      constructor
      · rintro ⟨hBack, -⟩
        have hGone := congrFun hBack rid
        cases hStays.symm.trans (hGone.trans hFree)
      · rintro (⟨err', hErr⟩ | hHead)
        · rw [hParse] at hErr
          cases hErr
        · rw [hHead rec rid rfl] at hTaken
          cases hTaken

end Aborted

------------
-- Small Files
------------

/- A table with one column of one character. -/
def oneLetter : LoadFormat where
  cols := [⟨⟨0, 1⟩, [97], .string⟩]
  recordSize := 1
  stof := fun _ => none
  compareFloat := fun _ _ => .eq

/- The tables when a row with the key `x` is committed. -/
def oneRowTables : Db :=
  ((StepSystem.run step (init Sys.indexedTables (fun _ => []))
    [.begin .readCommitted, .insertRow 0 Sys.firstRow [120] [],
      .commit 0]).getD (init Sys.indexedTables
        (fun _ => []))).db

/- The first transaction on these tables. -/
def beforeLoad : Engine :=
  (init oneRowTables (fun _ => [])).begin .readCommitted

theorem beforeLoad_untouched (tab : TabName) :
    Untouched 0 tab beforeLoad where
  writes := fun _ hW => nomatch hW
  owners := fun _ hOwner => nomatch hOwner
  versions := fun _ ⟨_, hEntry, _⟩ => nomatch hEntry

/- The transaction loads the key `x` once more. -/
theorem load_aborted_iff_takenKey :
    ∃ e₁ e₂, beforeLoad.loadTable 0 Sys.firstRow.tab oneLetter
        [120, 10] [([120], Sys.secondRow.rid)] =
          some (some .duplicateKey, e₁) ∧
      e₁.abort 0 = some e₂ ∧
      (e₂.db Sys.firstRow.tab).record =
        (beforeLoad.db Sys.firstRow.tab).record ∧
      (e₂.db Sys.firstRow.tab).indexes =
        (beforeLoad.db Sys.firstRow.tab).indexes := by
  have hLoad := (Option.some_get (x := beforeLoad.loadTable 0 Sys.firstRow.tab oneLetter
    [120, 10] [([120], Sys.secondRow.rid)]) (by decide)).symm
  have hNothing : beforeLoad.LoadsNothing Sys.firstRow.tab
      oneLetter [120, 10] [([120], Sys.secondRow.rid)] := Or.inr (fun _ _ hHead => by
      cases hHead
      decide)
  refine ⟨_, _, hLoad, (Option.some_get (by decide)).symm, ?_⟩
  exact (load_aborted_iff (beforeLoad_untouched _) hLoad (Option.some_get _).symm).mpr hNothing

/- A line with a new key, and a line with a key that is taken:
  the load fails, and after the abort the first row is there. -/
theorem load_not_undone :
    ∃ e₁ e₂, beforeLoad.loadTable 0 Sys.firstRow.tab oneLetter
        [120, 10, 97, 10] [([97], Sys.secondRow.rid), ([120], ⟨2, 0⟩)] =
          some (some .duplicateKey, e₁) ∧
      e₁.abort 0 = some e₂ ∧
      (beforeLoad.db Sys.firstRow.tab).record Sys.secondRow.rid = none ∧
      (e₂.db Sys.firstRow.tab).record Sys.secondRow.rid = some [97] := by
  have hLoad := (Option.some_get (x := beforeLoad.loadTable 0 Sys.firstRow.tab oneLetter
    [120, 10, 97, 10] [([97], Sys.secondRow.rid), ([120], ⟨2, 0⟩)]) (by decide)).symm
  exact ⟨_, _, hLoad, (Option.some_get (by decide)).symm, by decide, by decide⟩

end Engine

end Rmdb
