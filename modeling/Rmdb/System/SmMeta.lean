import Mathlib.Data.Nat.Digits.Lemmas
import Rmdb.System.LoadTable

/-
  This file models the catalog and the text it is written to and
  read from when a database is opened.

  Key definitions include:
    * `SmMeta.DbMeta.print`
    * `SmMeta.DbMeta.read`
    * `SmMeta.DbMeta.apply`

  Key theorems include:
    * `SmMeta.catalog_round_trip`
-/

namespace Rmdb

namespace SmMeta

abbrev Name := List UInt8

------------
-- Streams
------------

/- An input stream; `none` is a stream that has failed. -/
abbrev Istream := StateT (List UInt8) Option

/- `is >> std::string` -/
def readString : Istream Name := fun s =>
  let s := s.dropWhile isSpace
  let token := s.takeWhile (fun ch => !isSpace ch)
  if token = [] then none else some (token, s.dropWhile (fun ch => !isSpace ch))

def readDigits (negative : Bool) : Istream Int := fun s =>
  let digits := s.takeWhile isDigit
  let value : Nat := digits.foldl (fun n ch => 10 * n + (ch.toNat - 48)) 0
  if digits = [] then
    none
  else
    some (if negative then -value else value, s.dropWhile isDigit)

/- `is >> int` -/
def readInt : Istream Int := fun s =>
  let s := s.dropWhile isSpace
  if s.head? = some 45 then
    readDigits true s.tail
  else if s.head? = some 43 then
    readDigits false s.tail
  else
    readDigits false s

/- `is >> size_t`; the sizes in a catalog have no sign. -/
def readSize : Istream Nat := do
  let n ← readInt
  if n < 0 then failure else pure n.toNat

def readMany {α : Type} (m : Istream α) : Nat → Istream (List α)
| 0 => pure []
| n + 1 => do
  let x ← m
  let xs ← readMany m n
  pure (x :: xs)

def showNat (n : Nat) : List UInt8 :=
  if n = 0 then [48] else (Nat.digits 10 n).reverse.map (fun d => UInt8.ofNat (48 + d))

/- `os << int` -/
def showInt : Int → List UInt8
| .ofNat n => showNat n
| .negSucc n => 45 :: showNat (n + 1)

def space : List UInt8 := [32]

def newline : List UInt8 := [10]

------------
-- The Catalog
------------

structure ColMeta where
  tabName : Name
  name : Name
  type : ColType
  len : Int
  offset : Int
  index : Bool
deriving DecidableEq, Repr

structure IndexMeta where
  tabName : Name
  colTotLen : Int
  colNum : Int
  cols : List ColMeta
deriving DecidableEq, Repr

structure TabMeta where
  name : Name
  cols : List ColMeta
  indexes : List IndexMeta
deriving DecidableEq, Repr

/- The tables by name, in the order of `std::map`. -/
structure DbMeta where
  name : Name
  tabs : List (Name × TabMeta)
deriving DecidableEq, Repr

def typeCode : ColType → Int
| .int => 0
| .float => 1
| .string => 2

/- `static_cast` of a number to a column type. -/
def readType : Istream ColType := do
  let n ← readInt
  if n = 0 then pure .int
  else if n = 1 then pure .float
  else if n = 2 then pure .string
  else failure

def readBool : Istream Bool := do
  let n ← readInt
  if n = 0 then pure false
  else if n = 1 then pure true
  else failure

namespace ColMeta

def print (col : ColMeta) : List UInt8 :=
  col.tabName ++ space ++ col.name ++ space ++ showInt (typeCode col.type) ++ space ++
    showInt col.len ++ space ++ showInt col.offset ++ space ++ showNat col.index.toNat

def read : Istream ColMeta := do
  let tabName ← readString
  let name ← readString
  let type ← readType
  let len ← readInt
  let offset ← readInt
  let index ← readBool
  pure ⟨tabName, name, type, len, offset, index⟩

end ColMeta

namespace IndexMeta

def print (index : IndexMeta) : List UInt8 :=
  index.tabName ++ space ++ showInt index.colTotLen ++ space ++ showInt index.colNum ++
    index.cols.flatMap (fun col => newline ++ col.print)

def read : Istream IndexMeta := do
  let tabName ← readString
  let colTotLen ← readInt
  let colNum ← readInt
  let cols ← readMany ColMeta.read colNum.toNat
  pure ⟨tabName, colTotLen, colNum, cols⟩

end IndexMeta

namespace TabMeta

def print (tab : TabMeta) : List UInt8 :=
  tab.name ++ newline ++ showNat tab.cols.length ++ newline ++
    tab.cols.flatMap (fun col => col.print ++ newline) ++ showNat tab.indexes.length ++ newline ++
    tab.indexes.flatMap (fun index => index.print ++ newline)

def read : Istream TabMeta := do
  let name ← readString
  let n ← readSize
  let cols ← readMany ColMeta.read n
  let n ← readSize
  let indexes ← readMany IndexMeta.read n
  pure ⟨name, cols, indexes⟩

end TabMeta

/- `tabs_[name] = tab` -/
def setTab
    (name : Name)
    (tab : TabMeta) :
    List (Name × TabMeta) → List (Name × TabMeta)
| [] => [(name, tab)]
| (k, old) :: rest =>
  if k < name then
    (k, old) :: setTab name tab rest
  else if k = name then
    (name, tab) :: rest
  else
    (name, tab) :: (k, old) :: rest

namespace DbMeta

def print (db : DbMeta) : List UInt8 :=
  db.name ++ newline ++ showNat db.tabs.length ++ newline ++
    db.tabs.flatMap (fun entry => entry.2.print ++ newline)

/- Read into a catalog without tables. -/
def read : Istream DbMeta := do
  let name ← readString
  let n ← readSize
  let tabs ← readMany TabMeta.read n
  pure ⟨name, tabs.foldl (fun m tab => setTab tab.name tab m) []⟩

end DbMeta

------------
-- Changes Of The Catalog
------------

structure ColDef where
  name : Name
  type : ColType
  len : Int
deriving DecidableEq, Repr

/- The calls; the flag says whether the work on the files goes
  through. -/
inductive DdlCall where
  | createTable (tab : Name) (cols : List ColDef) (ok : Bool)
  | dropTable (tab : Name) (ok : Bool)
  | createIndex (tab : Name) (cols : List Name) (ok : Bool)
  | dropIndex (tab : Name) (cols : List Name) (ok : Bool)
deriving DecidableEq, Repr

/- The columns of a new table, one after the other. -/
def placeCols (tab : Name) : List ColDef → Int → List ColMeta
| [], _ => []
| d :: rest, offset =>
  ⟨tab, d.name, d.type, d.len, offset, false⟩ :: placeCols tab rest (offset + d.len)

namespace IndexMeta

def isOn (index : IndexMeta) (names : List Name) : Bool :=
  index.colNum = names.length && index.cols.map (·.name) = names

end IndexMeta

namespace TabMeta

def getCol (tab : TabMeta) (name : Name) : Option ColMeta :=
  tab.cols.find? (fun col => col.name = name)

/- The columns with some names; an unknown name throws. -/
def getCols (tab : TabMeta) : List Name → Option (List ColMeta)
| [] => some []
| name :: rest => do
  let col ← tab.getCol name
  let cols ← tab.getCols rest
  pure (col :: cols)

/- Set the flag of the first column with a name. -/
def markCol (name : Name) : List ColMeta → List ColMeta
| [] => []
| col :: rest =>
  if col.name = name then { col with index := true } :: rest else col :: markCol name rest

def createIndex
    (tab : TabMeta)
    (tabName : Name)
    (names : List Name) :
    Option TabMeta :=
  if tab.indexes.any (·.isOn names) then
    none
  else do
    let cols ← tab.getCols names
    let index : IndexMeta := ⟨tabName, (cols.map (·.len)).sum, cols.length, cols⟩
    pure ⟨tab.name, names.foldl (fun cols name => markCol name cols) tab.cols,
      tab.indexes ++ [index]⟩

def dropIndex (tab : TabMeta) (names : List Name) : Option TabMeta :=
  if tab.indexes.any (·.isOn names) then
    let indexes := tab.indexes.eraseP (·.isOn names)
    some ⟨tab.name, tab.cols.map (fun col => { col with
      index := indexes.any (fun index => index.cols.any (fun c => c.name = col.name)) }), indexes⟩
  else
    none

end TabMeta

namespace DbMeta

def getTable (db : DbMeta) (name : Name) : Option TabMeta :=
  (db.tabs.find? (fun entry => entry.1 = name)).map Prod.snd

def apply (db : DbMeta) : DdlCall → DbMeta
| .createTable tab cols ok =>
  if (db.getTable tab).isSome || !ok then db
  else { db with tabs := setTab tab ⟨tab, placeCols tab cols 0, []⟩ db.tabs }
| .dropTable tab ok =>
  if (db.getTable tab).isNone || !ok then db
  else { db with tabs := db.tabs.filter (fun entry => entry.1 ≠ tab) }
| .createIndex tab names ok =>
  match (db.getTable tab).bind (fun t => t.createIndex tab names) with
  | some t => if ok then { db with tabs := setTab tab t db.tabs } else db
  | none => db
| .dropIndex tab names ok =>
  match (db.getTable tab).bind (fun t => t.dropIndex names) with
  | some t => if ok then { db with tabs := setTab tab t db.tabs } else db
  | none => db

end DbMeta

------------
-- Catalogs With Good Names
------------

/- Not empty and without white space. -/
def GoodName (name : Name) : Prop :=
  name ≠ [] ∧ ∀ ch ∈ name, isSpace ch = false

instance (name : Name) : Decidable (GoodName name) :=
  inferInstanceAs (Decidable (_ ∧ _))

def ColMeta.Good (col : ColMeta) : Prop :=
  GoodName col.tabName ∧ GoodName col.name

structure IndexMeta.Good (index : IndexMeta) : Prop where
  tabName : GoodName index.tabName
  colNum : index.colNum = index.cols.length
  cols : ∀ col ∈ index.cols, col.Good

structure TabMeta.Good (tab : TabMeta) : Prop where
  name : GoodName tab.name
  cols : ∀ col ∈ tab.cols, col.Good
  indexes : ∀ index ∈ tab.indexes, index.Good

structure DbMeta.Good (db : DbMeta) : Prop where
  name : GoodName db.name
  sorted : (db.tabs.map Prod.fst).Pairwise (· < ·)
  tabs : ∀ entry ∈ db.tabs, entry.1 = entry.2.name ∧ entry.2.Good

def DdlCall.GoodNames : DdlCall → Prop
| .createTable tab cols _ => GoodName tab ∧ ∀ d ∈ cols, GoodName d.name
| .dropTable tab _ => GoodName tab
| .createIndex tab cols _ => GoodName tab ∧ ∀ name ∈ cols, GoodName name
| .dropIndex tab cols _ => GoodName tab ∧ ∀ name ∈ cols, GoodName name

instance (call : DdlCall) : Decidable call.GoodNames := by
  cases call <;> unfold DdlCall.GoodNames <;> infer_instance

section Changes

variable {db : DbMeta} {tab tab' : TabMeta} {name : Name} {names : List Name}

theorem mem_setTab
    {m : List (Name × TabMeta)}
    {entry : Name × TabMeta}
    (hEntry : entry ∈ setTab name tab m) :
    entry = (name, tab) ∨ entry ∈ m := by
  induction m with
  | nil => simpa [setTab] using hEntry
  | cons e rest ih =>
    unfold setTab at hEntry
    grind

theorem sorted_setTab
    {m : List (Name × TabMeta)}
    (hSorted : (m.map Prod.fst).Pairwise (· < ·)) :
    ((setTab name tab m).map Prod.fst).Pairwise (· < ·) := by
  induction m with
  | nil => simp [setTab]
  | cons e rest ih =>
    rw [List.map_cons, List.pairwise_cons] at hSorted
    unfold setTab
    split
    · rename_i hLt
      rw [List.map_cons, List.pairwise_cons]
      refine ⟨?_, ih hSorted.2⟩
      intro k hK
      rcases List.mem_map.mp hK with ⟨entry, hEntry, rfl⟩
      rcases mem_setTab hEntry with rfl | hOld
      · exact hLt
      · exact hSorted.1 _ (List.mem_map_of_mem hOld)
    · split
      · rename_i hIs
        subst hIs
        exact List.pairwise_cons.mpr hSorted
      · rename_i hNot hNe
        have hLt : name < e.1 := Std.lt_of_le_of_ne (List.not_lt.mp hNot) (Ne.symm hNe)
        rw [List.map_cons, List.pairwise_cons, List.map_cons, List.pairwise_cons]
        refine ⟨?_, hSorted⟩
        intro k hK
        rcases List.mem_cons.mp hK with rfl | hK
        · exact hLt
        · exact List.lt_trans hLt (hSorted.1 k hK)

/- The tables read in order come into the map in this order. -/
theorem foldl_setTab (m : List (Name × TabMeta)) :
    ∀ front, ((front ++ m).map Prod.fst).Pairwise (· < ·) →
      (∀ entry ∈ m, entry.1 = entry.2.name) →
      (m.map Prod.snd).foldl (fun m tab => setTab tab.name tab m) front =
        front ++ m := by
  induction m with
  | nil => simp
  | cons e rest ih =>
    intro front hSorted hKeys
    have hLast : ∀ front : List (Name × TabMeta), (∀ entry ∈ front, entry.1 < e.1) →
        setTab e.1 e.2 front = front ++ [e] := by
      intro front hFront
      induction front with
      | nil => rfl
      | cons f front ihFront =>
        rw [setTab, if_pos (hFront f List.mem_cons_self),
          ihFront (fun entry h => hFront entry (List.mem_cons_of_mem _ h))]
        rfl
    have hBelow : ∀ entry ∈ front, entry.1 < e.1 := by
      intro entry hEntry
      rw [List.map_append, List.pairwise_append] at hSorted
      exact hSorted.2.2 _ (List.mem_map_of_mem hEntry) _ List.mem_cons_self
    rw [List.map_cons, List.foldl_cons, ← hKeys e List.mem_cons_self, hLast front hBelow,
      ih (front ++ [e]) (by simpa using hSorted)
        (fun entry h => hKeys entry (List.mem_cons_of_mem _ h)), List.append_assoc]
    rfl

theorem good_placeCols
    {tabName : Name}
    {defs : List ColDef}
    (hTab : GoodName tabName)
    (hDefs : ∀ d ∈ defs, GoodName d.name)
    (offset : Int) :
    ∀ col ∈ placeCols tabName defs offset, col.Good := by
  induction defs generalizing offset with
  | nil => simp [placeCols]
  | cons d rest ih =>
    intro col hCol
    rcases List.mem_cons.mp hCol with rfl | hRest
    · exact ⟨hTab, hDefs d List.mem_cons_self⟩
    · exact ih (fun d h => hDefs d (List.mem_cons_of_mem _ h)) _ col hRest

theorem good_markCol
    {cols : List ColMeta}
    (hCols : ∀ col ∈ cols, col.Good) :
    ∀ col ∈ TabMeta.markCol name cols, col.Good := by
  induction cols with
  | nil => simp [TabMeta.markCol]
  | cons c rest ih =>
    have hHead : c.Good := hCols c List.mem_cons_self
    have hRest := fun col h => hCols col (List.mem_cons_of_mem _ h)
    unfold TabMeta.markCol
    split
    · intro col hCol
      rcases List.mem_cons.mp hCol with rfl | h
      · exact hHead
      · exact hRest col h
    · intro col hCol
      rcases List.mem_cons.mp hCol with rfl | h
      · exact hHead
      · exact ih hRest col h

theorem TabMeta.Good.getCols
    (hGood : tab.Good)
    {cols : List ColMeta}
    (hRun : tab.getCols names = some cols) :
    ∀ col ∈ cols, col.Good := by
  induction names generalizing cols with
  | nil =>
    cases hRun
    simp
  | cons n rest ih =>
    simp only [TabMeta.getCols, Option.bind_eq_bind, Option.bind_eq_some_iff] at hRun
    rcases hRun with ⟨col, hCol, cols, hCols, ⟨⟩⟩
    intro c hC
    rcases List.mem_cons.mp hC with rfl | hC
    · exact hGood.cols c (List.mem_of_find?_eq_some hCol)
    · exact ih hCols c hC

theorem TabMeta.Good.createIndex
    (hGood : tab.Good)
    (hName : GoodName name)
    (hRun : tab.createIndex name names = some tab') :
    tab'.name = tab.name ∧ tab'.Good := by
  unfold TabMeta.createIndex at hRun
  split at hRun
  · cases hRun
  · simp only [Option.bind_eq_bind, Option.bind_eq_some_iff] at hRun
    rcases hRun with ⟨cols, hCols, ⟨⟩⟩
    refine ⟨rfl, hGood.name, ?_, ?_⟩
    · exact List.foldlRecOn (motive := fun cols : List ColMeta => ∀ col ∈ cols, col.Good)
        names _ hGood.cols
        (fun _ hOld _ _ => good_markCol hOld)
    · intro index hIndex
      rcases List.mem_append.mp hIndex with hOld | hNew
      · exact hGood.indexes index hOld
      · rw [List.mem_singleton.mp hNew]
        exact ⟨hName, rfl, hGood.getCols hCols⟩

theorem TabMeta.Good.dropIndex
    (hGood : tab.Good)
    (hRun : tab.dropIndex names = some tab') :
    tab'.name = tab.name ∧ tab'.Good := by
  unfold TabMeta.dropIndex at hRun
  split at hRun
  · cases hRun
    refine ⟨rfl, hGood.name, ?_, fun index h => hGood.indexes index (List.mem_of_mem_eraseP h)⟩
    intro col hCol
    rcases List.mem_map.mp hCol with ⟨c, hC, rfl⟩
    exact hGood.cols c hC
  · cases hRun

theorem DbMeta.Good.setTab
    (hGood : db.Good)
    (hName : name = tab.name)
    (hTab : tab.Good) :
    ({ db with tabs := SmMeta.setTab name tab db.tabs } : DbMeta).Good := by
  refine ⟨hGood.name, sorted_setTab hGood.sorted, ?_⟩
  intro entry hEntry
  rcases mem_setTab hEntry with rfl | hOld
  · exact ⟨hName, hTab⟩
  · exact hGood.tabs entry hOld

theorem DbMeta.Good.getTable
    (hGood : db.Good)
    (hTab : db.getTable name = some tab) :
    tab.Good ∧ name = tab.name := by
  rcases Option.map_eq_some_iff.mp hTab with ⟨entry, hFind, rfl⟩
  have hEntry := hGood.tabs entry (List.mem_of_find?_eq_some hFind)
  have hKey : entry.1 = name := by simpa using List.find?_some hFind
  exact ⟨hEntry.2, hKey ▸ hEntry.1⟩

/- A table is exchanged for one with the same name. -/
theorem DbMeta.Good.change
    (hGood : db.Good)
    {f : TabMeta → Option TabMeta}
    {ok : Bool}
    (hKeeps : ∀ tab tab', tab.Good → f tab = some tab' →
      tab'.name = tab.name ∧ tab'.Good) :
    (match (db.getTable name).bind f with
      | some t => if ok then
        { db with tabs := SmMeta.setTab name t db.tabs } else db
      | none => db).Good := by
  split
  · rename_i tab' hTab
    rcases Option.bind_eq_some_iff.mp hTab with ⟨tab, hGet, hRun⟩
    rcases hGood.getTable hGet with ⟨hOld, hKey⟩
    rcases hKeeps tab tab' hOld hRun with ⟨hName, hNew⟩
    split
    · exact hGood.setTab (hKey.trans hName.symm) hNew
    · exact hGood
  · exact hGood

theorem DbMeta.Good.apply
    (hGood : db.Good)
    {call : DdlCall}
    (hNames : call.GoodNames) :
    (db.apply call).Good := by
  cases call with
  | createTable t cols ok =>
    simp only [DbMeta.apply]
    split
    · exact hGood
    · exact hGood.setTab rfl ⟨hNames.1, good_placeCols hNames.1 hNames.2 0, by simp⟩
  | dropTable t ok =>
    simp only [DbMeta.apply]
    split
    · exact hGood
    · exact ⟨hGood.name, hGood.sorted.sublist (List.filter_sublist.map _),
        fun entry h => hGood.tabs entry (List.mem_of_mem_filter h)⟩
  | createIndex t cols ok =>
    exact hGood.change (fun _ _ hOld hRun => hOld.createIndex hNames.1 hRun)
  | dropIndex t cols ok => exact hGood.change (fun _ _ hOld hRun => hOld.dropIndex hRun)

end Changes

------------
-- Reading What Was Written
------------

/- A reader takes a value from its text, with white space
  before it, and leaves at most white space. -/
def Reads
    {α : Type}
    (m : Istream α)
    (text : List UInt8)
    (x : α) :
    Prop :=
  ∀ pre rest, (∀ ch ∈ pre, isSpace ch = true) →
    ∃ post, (∀ ch ∈ post, isSpace ch = true) ∧ m (pre ++ (text ++ rest)) = some (x, post ++ rest)

section Reading

variable {α β : Type} {m : Istream α} {f : α → Istream β} {x : α} {y : β} {sep : UInt8}
variable {text text' : List UInt8}

theorem Reads.pure :
    Reads (pure x : Istream α) [] x := fun pre _ hPre => ⟨pre, hPre, rfl⟩

theorem Reads.bind
    (hM : Reads m text x)
    (hF : Reads (f x) text' y) :
    Reads (m >>= f) (text ++ text') y := by
  intro pre rest hPre
  rcases hM pre (text' ++ rest) hPre with ⟨mid, hMid, hRun⟩
  rcases hF mid rest hMid with ⟨post, hPost, hRun'⟩
  refine ⟨post, hPost, ?_⟩
  change (m (pre ++ (text ++ text' ++ rest))).bind (fun p => f p.1 p.2) = _
  rw [List.append_assoc text, hRun]
  exact hRun'

theorem Reads.last
    (hM : Reads m text x)
    (g : α → β) :
    Reads (m >>= fun x => Pure.pure (g x)) text (g x) := by
  have hBind := hM.bind (f := fun x => Pure.pure (g x)) Reads.pure
  rwa [List.append_nil] at hBind

theorem Reads.trail
    (hM : Reads m text x)
    (hSep : isSpace sep = true) :
    Reads m (text ++ [sep]) x := by
  intro pre rest hPre
  rcases hM pre (sep :: rest) hPre with ⟨post, hPost, hRun⟩
  refine ⟨post ++ [sep], ?_, by simpa using hRun⟩
  intro ch hCh
  rcases List.mem_append.mp hCh with h | h
  · exact hPost ch h
  · rw [List.mem_singleton.mp h, hSep]

/- One value after the other, each with its separator. -/
theorem Reads.many
    {print : α → List UInt8}
    {xs : List α}
    (hRead : ∀ x ∈ xs, Reads m (print x) x) :
    Reads (readMany m xs.length) (xs.flatMap print) xs := by
  induction xs with
  | nil => exact Reads.pure
  | cons x rest ih =>
    exact (hRead x List.mem_cons_self).bind
      ((ih (fun y h => hRead y (List.mem_cons_of_mem _ h))).last _)

theorem dropWhile_spaces
    {pre text : List UInt8}
    (hPre : ∀ ch ∈ pre, isSpace ch = true)
    (hText : ∀ ch ∈ text.head?, isSpace ch = false) :
    (pre ++ text).dropWhile isSpace = text := by
  rw [List.dropWhile_append_of_pos hPre]
  cases text with
  | nil => rfl
  | cons ch text => exact List.dropWhile_cons_of_neg (by simp [hText ch rfl])

theorem reads_string
    {name : Name}
    (hName : GoodName name)
    (hSep : isSpace sep = true) :
    Reads readString (name ++ [sep]) name := by
  intro pre rest hPre
  rcases name with _ | ⟨first, tail⟩
  · exact absurd rfl hName.1
  refine ⟨[sep], by simpa using hSep, ?_⟩
  have hToken : ∀ ch ∈ first :: tail, (!isSpace ch) = true := fun ch h => by simp [hName.2 ch h]
  unfold readString
  simp only
  rw [dropWhile_spaces hPre (by simpa using hName.2 first List.mem_cons_self), List.append_assoc,
    List.takeWhile_append_of_pos hToken, List.dropWhile_append_of_pos hToken]
  simp [hSep]

theorem foldl_digits
    {ds : List Nat}
    (hDigits : ∀ d ∈ ds, d < 10) :
    (ds.reverse.map (fun d => UInt8.ofNat (48 + d))).foldl
      (fun n ch => 10 * n + (ch.toNat - 48)) 0 =
      Nat.ofDigits 10 ds := by
  rw [List.foldl_map, List.foldl_reverse]
  induction ds with
  | nil => rfl
  | cons d ds ih =>
    have hD := hDigits d List.mem_cons_self
    have hCode : (UInt8.ofNat (48 + d)).toNat = 48 + d := by
      rw [UInt8.toNat_ofNat']
      omega
    rw [List.foldr_cons, ih (fun d h => hDigits d (List.mem_cons_of_mem _ h)), Nat.ofDigits_cons,
      hCode]
    omega

theorem showNat_spec (n : Nat) :
    showNat n ≠ [] ∧ (∀ ch ∈ showNat n, isDigit ch = true) ∧
      (showNat n).foldl (fun n ch => 10 * n + (ch.toNat - 48)) 0 = n := by
  unfold showNat
  split
  · rename_i hZero
    subst hZero
    decide +kernel
  · rename_i hPos
    have hDigits : ∀ d ∈ Nat.digits 10 n, d < 10 := fun d h => Nat.digits_lt_base (by omega) h
    refine ⟨by simpa [Nat.digits_eq_nil_iff_eq_zero] using hPos, ?_, ?_⟩
    · intro ch hCh
      rcases List.mem_map.mp hCh with ⟨d, hD, rfl⟩
      have hLt := hDigits d (List.mem_reverse.mp hD)
      interval_cases d <;> decide
    · rw [foldl_digits hDigits, Nat.ofDigits_digits]

theorem not_digit_of_space
    {ch : UInt8}
    (hSpace : isSpace ch = true) :
    isDigit ch = false := by
  simp only [isSpace, isDigit, decide_eq_true_eq, decide_eq_false_iff_not, ← UInt8.toNat_inj,
    UInt8.le_iff_toNat_le] at hSpace ⊢
  have hCodes : (32 : UInt8).toNat = 32 ∧ (9 : UInt8).toNat = 9 ∧ (13 : UInt8).toNat = 13 ∧
    (48 : UInt8).toNat = 48 := by decide
  omega

theorem readDigits_showNat
    (n : Nat)
    (negative : Bool)
    (hSep : isSpace sep = true)
    (rest : List UInt8) :
    readDigits negative (showNat n ++ sep :: rest) =
      some (if negative then -(n : Int) else n, sep :: rest) := by
  rcases showNat_spec n with ⟨hSome, hDigits, hValue⟩
  unfold readDigits
  rw [List.takeWhile_append_of_pos hDigits, List.dropWhile_append_of_pos hDigits]
  simp [not_digit_of_space hSep, hSome, hValue]

theorem reads_int
    (i : Int)
    (hSep : isSpace sep = true) :
    Reads readInt (showInt i ++ [sep]) i := by
  intro pre rest hPre
  refine ⟨[sep], by simpa using hSep, ?_⟩
  unfold readInt
  cases i with
  | ofNat n =>
    rcases showNat_spec n with ⟨hSome, hDigits, -⟩
    have hRead := readDigits_showNat n false hSep rest
    rcases hText : showNat n with _ | ⟨first, tail⟩
    · exact absurd hText hSome
    have hFirst : isDigit first = true := hDigits first (hText ▸ List.mem_cons_self)
    have hSign : first ≠ 45 ∧ first ≠ 43 ∧ isSpace first = false := by
      refine ⟨?_, ?_, ?_⟩
      · rintro rfl
        exact absurd hFirst (by decide)
      · rintro rfl
        exact absurd hFirst (by decide)
      · by_contra hSpace
        exact absurd ((not_digit_of_space (by simpa using hSpace)).symm.trans hFirst) (by simp)
    simp only [showInt, hText] at hRead ⊢
    have hDrop : (pre ++ (first :: tail ++ [sep] ++ rest)).dropWhile isSpace = _ :=
      dropWhile_spaces hPre (by simp [hSign])
    simp only [hDrop]
    simpa [hSign] using hRead
  | negSucc n =>
    have hRead := readDigits_showNat (n + 1) true hSep rest
    simp only [showInt]
    have hDrop : (pre ++ (45 :: showNat (n + 1) ++ [sep] ++ rest)).dropWhile isSpace = _ :=
      dropWhile_spaces hPre (by simp; decide)
    simp only [hDrop]
    simpa [Int.negSucc_eq] using hRead

/- A number that is then looked up. -/
theorem Reads.check
    (hM : Reads m text x)
    (hF : f x = Pure.pure y) :
    Reads (m >>= f) text y := by
  have hBind := hM.bind (f := f) (hF ▸ Reads.pure)
  rwa [List.append_nil] at hBind

theorem reads_size
    (n : Nat)
    (hSep : isSpace sep = true) :
    Reads readSize (showNat n ++ [sep]) n :=
  (reads_int (.ofNat n) hSep).check (if_neg (by simp))

theorem reads_type
    (type : ColType)
    (hSep : isSpace sep = true) :
    Reads readType (showInt (typeCode type) ++ [sep]) type :=
  (reads_int _ hSep).check (by cases type <;> rfl)

theorem reads_bool
    (b : Bool)
    (hSep : isSpace sep = true) :
    Reads readBool (showNat b.toNat ++ [sep]) b :=
  (reads_int (.ofNat b.toNat) hSep).check (by cases b <;> rfl)

theorem reads_col
    {col : ColMeta}
    (hGood : col.Good)
    (hSep : isSpace sep = true) :
    Reads ColMeta.read (col.print ++ [sep]) col := by
  have hSpace : isSpace 32 = true := by decide
  have hText : col.print ++ [sep] = (col.tabName ++ [32]) ++ ((col.name ++ [32]) ++
      ((showInt (typeCode col.type) ++ [32]) ++ ((showInt col.len ++ [32]) ++
        ((showInt col.offset ++ [32]) ++ (showNat col.index.toNat ++ [sep]))))) := by
    simp [ColMeta.print, space]
  rw [hText]
  exact (reads_string hGood.1 hSpace).bind ((reads_string hGood.2 hSpace).bind
    ((reads_type col.type hSpace).bind ((reads_int col.len hSpace).bind
      ((reads_int col.offset hSpace).bind ((reads_bool col.index hSep).last _)))))

/- Separators before the texts or after them. -/
theorem flatMap_newline
    {γ : Type}
    (print : γ → List UInt8)
    (xs : List γ) :
    xs.flatMap (fun x => newline ++ print x) ++ newline =
      newline ++ xs.flatMap (fun x => print x ++ newline) := by
  induction xs with
  | nil => rfl
  | cons x rest ih => simp only [List.flatMap_cons, List.append_assoc, ih]

theorem reads_index
    {index : IndexMeta}
    (hGood : index.Good) :
    Reads IndexMeta.read (index.print ++ newline) index := by
  have hSpace : isSpace 32 = true := by decide
  have hNew : isSpace 10 = true := by decide
  have hCols := Reads.many (fun col hCol => reads_col (hGood.cols col hCol) hNew)
  have hNum : index.cols.length = index.colNum.toNat := by simp [hGood.colNum]
  rw [hNum] at hCols
  have hText : index.print ++ newline = (index.tabName ++ [32]) ++ ((showInt index.colTotLen ++
      [32]) ++ ((showInt index.colNum ++ [10]) ++
        index.cols.flatMap (fun col => col.print ++ [10]))) := by
    unfold IndexMeta.print
    rw [List.append_assoc _ _ newline, flatMap_newline]
    simp [space, newline]
  rw [hText]
  exact (reads_string hGood.tabName hSpace).bind ((reads_int index.colTotLen hSpace).bind
    ((reads_int index.colNum hNew).bind (hCols.last _)))

theorem reads_tab
    {tab : TabMeta}
    (hGood : tab.Good) :
    Reads TabMeta.read (tab.print ++ newline) tab := by
  have hNew : isSpace 10 = true := by decide
  have hCols := Reads.many (fun col hCol => reads_col (hGood.cols col hCol) hNew)
  have hIndexes := Reads.many (fun index hIndex => reads_index (hGood.indexes index hIndex))
  have hText : tab.print = (tab.name ++ [10]) ++ ((showNat tab.cols.length ++ [10]) ++
      (tab.cols.flatMap (fun col => col.print ++ [10]) ++ ((showNat tab.indexes.length ++ [10]) ++
        tab.indexes.flatMap (fun index => index.print ++ newline)))) := by
    simp [TabMeta.print, newline]
  refine Reads.trail ?_ hNew
  rw [hText]
  exact (reads_string hGood.name hNew).bind ((reads_size tab.cols.length hNew).bind
    (hCols.bind ((reads_size tab.indexes.length hNew).bind (hIndexes.last _))))

theorem reads_db
    {db : DbMeta}
    (hGood : db.Good) :
    Reads DbMeta.read db.print db := by
  have hNew : isSpace 10 = true := by decide
  have hTabs : ∀ tab ∈ db.tabs.map Prod.snd, Reads TabMeta.read (tab.print ++ newline) tab := by
    intro tab hTab
    rcases List.mem_map.mp hTab with ⟨entry, hEntry, rfl⟩
    exact reads_tab (hGood.tabs entry hEntry).2
  have hMany := Reads.many hTabs
  rw [List.length_map] at hMany
  have hText : db.print = (db.name ++ [10]) ++ ((showNat db.tabs.length ++ [10]) ++
      (db.tabs.map Prod.snd).flatMap (fun tab => tab.print ++ newline)) := by
    simp [DbMeta.print, newline, List.flatMap_map]
  rw [hText]
  have hBack : db = ⟨db.name, (db.tabs.map Prod.snd).foldl
      (fun m tab => setTab tab.name tab m) []⟩ := by
    rw [foldl_setTab db.tabs [] hGood.sorted (fun entry h => (hGood.tabs entry h).1)]
    rfl
  rw [show Reads DbMeta.read _ db = Reads DbMeta.read _ _ from congrArg _ hBack]
  exact (reads_string hGood.name hNew).bind ((reads_size db.tabs.length hNew).bind (hMany.last _))

end Reading

/- Every catalog with good names is read back as it was
  written. -/
theorem catalog_round_trip
    {name : Name}
    (hName : GoodName name)
    {calls : List DdlCall}
    (hCalls : ∀ call ∈ calls, call.GoodNames) :
    (DbMeta.read (calls.foldl DbMeta.apply ⟨name, []⟩).print).map Prod.fst =
      some (calls.foldl DbMeta.apply ⟨name, []⟩) := by
  have hGood : (calls.foldl DbMeta.apply ⟨name, []⟩).Good :=
    List.foldlRecOn (motive := DbMeta.Good) calls _ ⟨hName, by simp, by simp⟩
      (fun _ hOld call hCall => hOld.apply (hCalls call hCall))
  rcases reads_db hGood [] [] (by simp) with ⟨post, -, hRun⟩
  rw [List.nil_append, List.append_nil] at hRun
  rw [hRun]
  rfl

/- One table with two columns and an index on the second one. -/
theorem catalog_round_trip_oneIndex :
    let calls : List DdlCall :=
      [.createTable [116] [⟨[97], .int, 4⟩, ⟨[98], .string, 8⟩] true,
      .createIndex [116] [[98]] true]
    (DbMeta.read (calls.foldl DbMeta.apply ⟨[100], []⟩).print).map Prod.fst =
      some ⟨[100], [([116], ⟨[116], [⟨[116], [97], .int, 4, 0, false⟩,
        ⟨[116], [98], .string, 8, 4, true⟩],
        [⟨[116], 8, 1, [⟨[116], [98], .string, 8, 4, false⟩]⟩]⟩)]⟩ :=
  catalog_round_trip (by decide +kernel) (by decide +kernel)

end SmMeta

end Rmdb
