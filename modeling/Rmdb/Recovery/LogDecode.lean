import Rmdb.Recovery.LogCodec

/-
  This file follows `deserialize_log_record` over any memory,
  read by read: an execution stops at the first byte outside
  the input that it looks at, and at the first sum that does
  not fit its type.

  Key definitions include:
    * `load`, `advance`
    * `loadLogRecord`

  Key theorems include:
    * `loadLogRecord_eq`
    * `serialize_of_deserialize`
    * `loadLogRecord_safe`
-/

namespace Rmdb

open LittleEndian

/- The bytes of a memory from an offset on. -/
def bytes (mem : Nat → UInt8) (offset n : Nat) : List UInt8 :=
  (List.range n).map (fun i => mem (offset + i))

/- How an execution stops without a record. -/
inductive Stop
| nullptr
| outOfBounds
| overflow
deriving DecidableEq

------------
-- Guarded Executions
------------

section Loads

variable (mem : Nat → UInt8) (len : Nat)

def load (offset n : Nat) : Except Stop (List UInt8) :=
  if offset + n ≤ len then
    .ok (bytes mem offset n)
  else
    .error .outOfBounds

def loadInt (offset : Nat) : Except Stop Int := do
  let field ← load mem len offset 4
  return decodeInt field

def loadSize (offset : Nat) : Except Stop Nat := do
  let field ← load mem len offset 8
  return decode field

/- `advance_checked`, whose sum is one of `size_t`. -/
def advance (offset amount totalLen : Nat) : Except Stop Nat :=
  if totalLen < amount ∨ totalLen - amount < offset then
    .error .nullptr
  else if offset + amount < 256 ^ 8 then
    .ok (offset + amount)
  else
    .error .overflow

def stepRmRecord (totalLen offset : Nat) : Except Stop Nat := do
  let offset ← advance offset 4 totalLen
  let recSize ← loadInt mem len (offset - 4)
  if recSize < 0 then
    .error .nullptr
  else
    advance offset recSize.toNat totalLen

def stepLoc (totalLen offset : Nat) : Except Stop Nat := do
  let offset ← advance offset 8 totalLen
  let offset ← advance offset 8 totalLen
  let tableNameSize ← loadSize mem len (offset - 8)
  advance offset tableNameSize totalLen

def checkRecordWithTableName
    (totalLen : Nat)
    (hasTwoRecords : Bool) :
    Except Stop Unit := do
  let offset ← stepRmRecord mem len totalLen logHeaderSize
  let offset ←
    if hasTwoRecords then
      stepRmRecord mem len totalLen offset
    else
      .ok offset
  let offset ← stepLoc mem len totalLen offset
  if offset = totalLen then
    return ()
  else
    .error .nullptr

def loadRmRecord (offset : Nat) : Except Stop RmRecord := do
  let size ← loadInt mem len offset
  load mem len (offset + 4) size.toNat

def loadLoc (offset : Nat) : Except Stop Loc := do
  let pageNo ← loadInt mem len offset
  let slotNo ← loadInt mem len (offset + 4)
  let tableNameSize ← loadSize mem len (offset + 8)
  let tab ← load mem len (offset + 16) tableNameSize
  return ⟨tab, ⟨pageNo, slotNo⟩⟩

/- One record and its place, as an insert and a delete have
  them. -/
def loadOne (change : Loc → RmRecord → DataRecord) : Except Stop LogBody := do
  let rec ← loadRmRecord mem len logHeaderSize
  let x ← loadLoc mem len (logHeaderSize + (4 + rec.length))
  return .data (change x rec)

def loadUpdate : Except Stop LogBody := do
  let oldRec ← loadRmRecord mem len logHeaderSize
  let offset := logHeaderSize + (4 + oldRec.length)
  let newRec ← loadRmRecord mem len offset
  let x ← loadLoc mem len (offset + (4 + newRec.length))
  return .data (.update x oldRec newRec)

def loadBody (type : Int) (totalLen : Nat) : Except Stop LogBody :=
  if type = 0 then do
    checkRecordWithTableName mem len totalLen true
    loadUpdate mem len
  else if type = 1 then do
    checkRecordWithTableName mem len totalLen false
    loadOne mem len .insert
  else if type = 2 then do
    checkRecordWithTableName mem len totalLen false
    loadOne mem len .delete
  else if type = 3 then
    .ok .begin
  else if type = 4 then
    .ok .commit
  else if type = 5 then
    .ok .abort
  else if type = 6 then
    .ok .checkpoint
  else
    .error .nullptr

end Loads

/- `deserialize_log_record` on the memory at `src`. -/
def loadLogRecord
    (mem : Nat → UInt8)
    (len : Int) :
    Except Stop LogRecord :=
  if len < logHeaderSize then
    .error .nullptr
  else do
    let type ← loadInt mem len.toNat 0
    let totalLen ← decode <$> load mem len.toNat 8 4
    if totalLen < logHeaderSize ∨ len.toNat < totalLen then
      .error .nullptr
    else
      let body ← loadBody mem len.toNat type totalLen
      let lsn ← loadInt mem len.toNat 4
      let tid ← decodeInt <$> load mem len.toNat 12 8
      let prevLsn ← loadInt mem len.toNat 20
      return { lsn := lsn, tid := tid, prevLsn := prevLsn, body := body }

------------
-- No Execution Leaves The Input
------------

/- A null pointer where there is no value. -/
def orNull {α : Type} : Option α → Except Stop α
| some a => .ok a
| none => .error .nullptr

section Guarded

variable {mem : Nat → UInt8} {len offset totalLen : Nat}

@[simp] theorem length_bytes (n : Nat) :
    (bytes mem offset n).length = n := by simp [bytes]

theorem slice_bytes
    {n : Nat}
    (hLe : offset + n ≤ len) :
    slice (bytes mem 0 len) offset n = bytes mem offset n := by
  apply List.ext_getElem
  · simp [slice]
    omega
  · intro i _ _
    simp [slice, bytes]

theorem load_le
    {n : Nat}
    (hLe : offset + n ≤ len) :
    load mem len offset n = .ok (slice (bytes mem 0 len) offset n) := by
  rw [load, if_pos hLe, slice_bytes hLe]

theorem loadInt_le (hLe : offset + 4 ≤ len) :
    loadInt mem len offset = .ok (readInt (bytes mem 0 len) offset) := by
  rw [loadInt, load_le hLe]
  rfl

theorem loadSize_le (hLe : offset + 8 ≤ len) :
    loadSize mem len offset = .ok (readSize (bytes mem 0 len) offset) := by
  rw [loadSize, load_le hLe]
  rfl

theorem advance_eq
    (hTotal : totalLen < 256 ^ 8)
    (amount : Nat) :
    advance offset amount totalLen =
      orNull (advanceChecked offset amount totalLen) := by
  unfold advance advanceChecked
  split
  · rfl
  · rw [if_pos (by omega)]
    rfl

theorem advanceChecked_eq_some {amount stop : Nat} :
    advanceChecked offset amount totalLen = some stop ↔
      offset + amount ≤ totalLen ∧ stop = offset + amount := by
  unfold advanceChecked
  split
  · simp
    omega
  · simp
    omega

/- A step after one that may give a null pointer. -/
theorem orNull_bind
    {α β : Type}
    {x : Option α}
    {f : α → Except Stop β}
    {g : α → Option β}
    (hStep : ∀ a, x = some a → f a = orNull (g a)) :
    (orNull x >>= f) = orNull (x >>= g) := by
  cases x with
  | none => rfl
  | some a => exact hStep a rfl

section Steps

variable (hLen : totalLen ≤ len) (hTotal : totalLen < 256 ^ 8)
include hLen hTotal

theorem stepRmRecord_eq : stepRmRecord mem len totalLen offset =
    orNull (skipRmRecord (bytes mem 0 len) totalLen offset) := by
  unfold stepRmRecord skipRmRecord
  rw [advance_eq hTotal]
  refine orNull_bind fun next hNext => ?_
  have hIn := advanceChecked_eq_some.mp hNext
  rw [loadInt_le (show next - 4 + 4 ≤ len by omega)]
  simp only [bind, Except.bind, advance_eq hTotal]
  split <;> rfl

theorem stepLoc_eq : stepLoc mem len totalLen offset =
    orNull (skipLoc (bytes mem 0 len) totalLen offset) := by
  unfold stepLoc skipLoc
  simp only [advance_eq hTotal]
  refine orNull_bind fun next _ => orNull_bind fun last hLast => ?_
  have hIn := advanceChecked_eq_some.mp hLast
  rw [loadSize_le (show last - 8 + 8 ≤ len by omega)]
  rfl

/- The checks are those of the bytes of the input. -/
theorem checkRecord_eq (two : Bool) :
    checkRecordWithTableName mem len totalLen two =
    orNull (if validateRecordWithTableName (bytes mem 0 len) totalLen two
      then some () else none) := by
  have hEnd : ∀ stop : Option Nat, (do
      let offset ← stop
      if offset = totalLen then some () else none) =
        if stop == some totalLen then some () else none := by
    intro stop
    cases stop <;> simp
  have hLast : ∀ o, (stepLoc mem len totalLen o >>= fun offset =>
      if offset = totalLen then pure () else .error .nullptr) =
        orNull (do
          let offset ← skipLoc (bytes mem 0 len) totalLen o
          if offset = totalLen then some () else none) := by
    intro o
    rw [stepLoc_eq hLen hTotal]
    refine orNull_bind fun last _ => ?_
    split <;> rfl
  unfold checkRecordWithTableName validateRecordWithTableName
  simp only [stepRmRecord_eq hLen hTotal, ← hEnd, bind_assoc, hLast]
  refine orNull_bind fun next _ => ?_
  cases two with
  | false => rfl
  | true =>
    rw [if_pos rfl, if_pos rfl, bind_assoc]
    exact orNull_bind fun _ _ => rfl

end Steps

/- What is stepped over lies in the record. -/
theorem skipRmRecord_eq_some
    {src : List UInt8}
    {stop : Nat}
    (hSkip : skipRmRecord src totalLen offset = some stop) :
    0 ≤ readInt src offset ∧
      stop = offset + (4 + recordSize src offset) ∧ stop ≤ totalLen := by
  unfold skipRmRecord at hSkip
  rcases Option.bind_eq_some_iff.mp hSkip with ⟨next, hFirst, hRest⟩
  rcases advanceChecked_eq_some.mp hFirst with ⟨-, rfl⟩
  simp only [Nat.add_sub_cancel] at hRest
  split at hRest
  · cases hRest
  · rcases advanceChecked_eq_some.mp hRest with ⟨hLe, rfl⟩
    refine ⟨by omega, ?_, hLe⟩
    unfold recordSize
    omega

theorem skipLoc_eq_some
    {src : List UInt8}
    {stop : Nat}
    (hSkip : skipLoc src totalLen offset = some stop) :
    stop = offset + (16 + readSize src (offset + 8)) ∧ stop ≤ totalLen := by
  unfold skipLoc at hSkip
  rcases Option.bind_eq_some_iff.mp hSkip with ⟨next, hFirst, hRest⟩
  rcases Option.bind_eq_some_iff.mp hRest with ⟨last, hSecond, hThird⟩
  rcases advanceChecked_eq_some.mp hFirst with ⟨-, rfl⟩
  rcases advanceChecked_eq_some.mp hSecond with ⟨-, rfl⟩
  simp only [Nat.add_sub_cancel] at hThird
  rcases advanceChecked_eq_some.mp hThird with ⟨hLe, rfl⟩
  exact ⟨by omega, hLe⟩

end Guarded

section Bodies

variable {mem : Nat → UInt8} {src : List UInt8} {len offset totalLen : Nat}

/- The parts of a record that is checked. -/
theorem one_of_valid (hValid : validateRecordWithTableName src totalLen
    false = true) :
    0 ≤ readInt src logHeaderSize ∧
      totalLen = logHeaderSize + (4 + recordSize src logHeaderSize) +
        (16 + readSize src
          (logHeaderSize + (4 + recordSize src logHeaderSize) + 8)) := by
  rcases Option.bind_eq_some_iff.mp (eq_of_beq hValid) with ⟨next, hFirst, hRest⟩
  rcases skipRmRecord_eq_some hFirst with ⟨hSize, rfl, -⟩
  exact ⟨hSize, (skipLoc_eq_some hRest).1⟩

theorem two_of_valid (hValid : validateRecordWithTableName src totalLen
    true = true) :
    ∃ next, next = logHeaderSize + (4 + recordSize src logHeaderSize) ∧
      0 ≤ readInt src logHeaderSize ∧ 0 ≤ readInt src next ∧
      totalLen = next + (4 + recordSize src next) +
        (16 + readSize src (next + (4 + recordSize src next) + 8)) := by
  rcases Option.bind_eq_some_iff.mp (eq_of_beq hValid) with ⟨next, hFirst, hRest⟩
  rcases Option.bind_eq_some_iff.mp hRest with ⟨last, hSecond, hThird⟩
  rcases skipRmRecord_eq_some hFirst with ⟨hSize, hNext, -⟩
  rcases skipRmRecord_eq_some hSecond with ⟨hSize', rfl, -⟩
  exact ⟨next, hNext, hSize, hSize', (skipLoc_eq_some hThird).1⟩

theorem length_slice
    {n : Nat}
    (hLe : offset + n ≤ src.length) :
    (slice src offset n).length = n := by
  simp [slice]
  omega

theorem loadRmRecord_le
    (hLe : offset + (4 + recordSize (bytes mem 0 len) offset) ≤ len) :
    loadRmRecord mem len offset =
      .ok (deserializeRmRecord (bytes mem 0 len) offset) := by
  unfold loadRmRecord
  rw [loadInt_le (by omega)]
  exact load_le (by unfold recordSize at hLe; omega)

theorem loadLoc_le
    (hLe : offset + (16 + readSize (bytes mem 0 len) (offset + 8)) ≤ len) :
    loadLoc mem len offset = .ok (deserializeLoc (bytes mem 0 len) offset) := by
  unfold loadLoc
  rw [loadInt_le (by omega), loadInt_le (by omega), loadSize_le (by omega)]
  simp only [bind, Except.bind]
  rw [load_le (by omega)]
  rfl

theorem length_deserializeRmRecord
    (hLe : offset + (4 + recordSize src offset) ≤ src.length) :
    (deserializeRmRecord src offset).length = recordSize src offset :=
  length_slice (by omega)

section Whole

variable (hLen : totalLen ≤ len) (hTotal : totalLen < 256 ^ 8)
include hLen hTotal

/- A body is read once its record is checked. -/
theorem check_then
    {two : Bool}
    {body : LogBody}
    {rest : Except Stop LogBody}
    (hRest : validateRecordWithTableName (bytes mem 0 len) totalLen two =
      true → rest = .ok body) :
    (do
      checkRecordWithTableName mem len totalLen two
      rest) = orNull (if validateRecordWithTableName (bytes mem 0 len)
        totalLen two then
        some body else none) := by
  rw [checkRecord_eq hLen hTotal]
  split
  · rename_i hValid
    exact hRest hValid
  · rfl

omit hTotal in
theorem loadOne_eq (change : Loc → RmRecord → DataRecord)
    (hValid : validateRecordWithTableName (bytes mem 0 len) totalLen false =
      true) :
    loadOne mem len change =
      .ok (.data (change (deserializeLoc (bytes mem 0 len)
      (logHeaderSize + (4 + recordSize (bytes mem 0 len) logHeaderSize)))
        (deserializeRmRecord (bytes mem 0 len) logHeaderSize))) := by
  have hParts := (one_of_valid hValid).2
  unfold loadOne
  rw [loadRmRecord_le (by omega)]
  simp only [bind, Except.bind]
  rw [length_deserializeRmRecord (by rw [length_bytes]; omega), loadLoc_le (by omega)]
  rfl

omit hTotal in
theorem loadUpdate_eq
    (hValid : validateRecordWithTableName (bytes mem 0 len) totalLen true =
      true) :
    loadUpdate mem len = .ok (.data (deserializeUpdate (bytes mem 0 len))) := by
  rcases two_of_valid hValid with ⟨next, rfl, -, -, hParts⟩
  unfold loadUpdate
  rw [loadRmRecord_le (by omega)]
  simp only [bind, Except.bind]
  rw [length_deserializeRmRecord (by rw [length_bytes]; omega), loadRmRecord_le (by omega)]
  simp only
  rw [length_deserializeRmRecord (by rw [length_bytes]; omega), loadLoc_le (by omega)]
  rfl

theorem loadBody_eq (type : Int) :
    loadBody mem len type totalLen =
      orNull (deserializeBody (bytes mem 0 len) type totalLen) := by
  unfold loadBody deserializeBody
  rw [check_then hLen hTotal (loadUpdate_eq hLen),
    check_then hLen hTotal (loadOne_eq hLen .insert),
    check_then hLen hTotal (loadOne_eq hLen .delete)]
  simp only [apply_ite orNull]
  rfl

end Whole

/- The guarded decoder is the one on the bytes of the input. -/
theorem loadLogRecord_eq
    (mem : Nat → UInt8)
    (len : Int) :
    loadLogRecord mem len =
      orNull (deserializeLogRecord (bytes mem 0 len.toNat)) := by
  unfold loadLogRecord deserializeLogRecord
  rw [length_bytes]
  by_cases hShort : len < logHeaderSize
  · rw [if_pos hShort, if_pos (by unfold logHeaderSize at hShort ⊢; omega)]
    rfl
  · have hHeader : logHeaderSize ≤ len.toNat := by omega
    unfold logHeaderSize at hHeader
    rw [if_neg hShort, if_neg (by omega), loadInt_le (by omega), load_le (by omega),
      load_le (by omega), loadInt_le (by omega), loadInt_le (by omega)]
    have hTotal : decode (slice (bytes mem 0 len.toNat) 8 4) < 256 ^ 8 := by
      have hLt := decode_lt (slice (bytes mem 0 len.toNat) 8 4)
      rw [length_slice (by rw [length_bytes]; omega)] at hLt
      omega
    simp only [bind, Except.bind, Functor.map, Except.map]
    split
    · rfl
    · rw [loadBody_eq (by omega) hTotal]
      cases deserializeBody (bytes mem 0 len.toNat) (readInt (bytes mem 0 len.toNat) 0)
          (decode (slice (bytes mem 0 len.toNat) 8 4)) with
      | none => rfl
      | some body => rfl

end Bodies

------------
-- What Is Read Is Written Back
------------

section Back

variable {src : List UInt8} {offset totalLen : Nat}

theorem encodeInt_readInt (hLe : offset + 4 ≤ src.length) :
    encodeInt 4 (readInt src offset) = slice src offset 4 := by
  have hLen := length_slice hLe
  have hBack := encodeInt_decodeInt (slice src offset 4)
  rwa [hLen] at hBack

theorem serialize_rmRecord (hSize : 0 ≤ readInt src offset)
    (hLe : offset + (4 + recordSize src offset) ≤ src.length) :
    serializeRmRecord (deserializeRmRecord src offset) =
      slice src offset (4 + recordSize src offset) := by
  have hInt : ((recordSize src offset : Nat) : Int) = readInt src offset :=
    Int.toNat_of_nonneg hSize
  rw [serializeRmRecord, length_deserializeRmRecord hLe, hInt, encodeInt_readInt (by omega),
    slice_add]
  rfl

theorem serialize_loc (hLe : offset + (16 + readSize src (offset + 8)) ≤
    src.length) :
    serializeLoc (deserializeLoc src offset) =
      slice src offset (16 + readSize src (offset + 8)) := by
  have hName : (deserializeLoc src offset).tab.length = readSize src (offset + 8) :=
    length_slice (by omega)
  have hSize : encode 8 (readSize src (offset + 8)) = slice src (offset + 8) 8 := by
    have hBack := encode_decode (slice src (offset + 8) 8)
    rwa [length_slice (by omega)] at hBack
  rw [serializeLoc, hName, hSize, slice_add src offset 16, slice_add src offset 8 8,
    slice_add src offset 4 4, ← @encodeInt_readInt src offset (by omega),
    ← @encodeInt_readInt src (offset + 4) (by omega)]
  simp [deserializeLoc]

/- The lengths that a change has in the bytes: of its table
  records, and of its table name. -/
def recordSizes (src : List UInt8) : DataRecord → List Int
| .update _ _ _ =>
  [readInt src logHeaderSize, readInt src (logHeaderSize + (4 + recordSize src logHeaderSize))]
| _ => [readInt src logHeaderSize]

def recordsEnd (src : List UInt8) (d : DataRecord) : Int :=
  logHeaderSize + ((recordSizes src d).map (4 + ·)).sum

/- The lengths are not negative, they add up, and the change
  is written back. -/
structure Parses
    (src : List UInt8)
    (totalLen : Nat)
    (d : DataRecord) :
    Prop where
  sizes : ∀ n ∈ recordSizes src d, 0 ≤ n
  total : recordsEnd src d + (16 + readSize src ((recordsEnd src d).toNat + 8)) = totalLen
  data : (LogBody.data d).serializeData = slice src logHeaderSize (totalLen - logHeaderSize)

section Changes

variable (hLe : totalLen ≤ src.length)
include hLe

theorem parses_one
    {d : DataRecord}
    {x : Loc}
    {rec : RmRecord}
    (hValid : validateRecordWithTableName src totalLen false = true)
    (hX : x = deserializeLoc src
      (logHeaderSize + (4 + recordSize src logHeaderSize)))
    (hRec : rec = deserializeRmRecord src logHeaderSize)
    (hD : d = .insert x rec ∨ d = .delete x rec) :
    Parses src totalLen d := by
  rcases one_of_valid hValid with ⟨hSize, hTotal⟩
  have hInt := Int.toNat_of_nonneg hSize
  have hSizes : recordSizes src d = [readInt src logHeaderSize] :=
    by rcases hD with rfl | rfl <;> rfl
  have hEnd : recordsEnd src d =
      ((logHeaderSize + (4 + recordSize src logHeaderSize) : Nat) : Int) := by
    simp [recordsEnd, hSizes, recordSize, hInt]
  refine ⟨by simp [hSizes, hSize], by rw [hEnd, Int.toNat_natCast]; exact_mod_cast hTotal.symm, ?_⟩
  have hData : (LogBody.data d).serializeData = serializeRmRecord rec ++ serializeLoc x := by
    rcases hD with rfl | rfl <;> rfl
  rw [hData, hX, hRec, serialize_rmRecord hSize (by omega), serialize_loc (by omega), ← slice_add]
  congr 1
  omega

theorem parses_update (hValid : validateRecordWithTableName src totalLen
    true = true) :
    Parses src totalLen (deserializeUpdate src) := by
  rcases two_of_valid hValid with ⟨next, rfl, hSize, hSize', hTotal⟩
  have hEnd : recordsEnd src (deserializeUpdate src) =
      ((logHeaderSize + (4 + recordSize src logHeaderSize) + (4 + recordSize src
        (logHeaderSize + (4 + recordSize src logHeaderSize))) : Nat) : Int) := by
    have hFirst : ((recordSize src logHeaderSize : Nat) : Int) = _ := Int.toNat_of_nonneg hSize
    have hSecond : ((recordSize src _ : Nat) : Int) = _ := Int.toNat_of_nonneg hSize'
    simp only [recordsEnd, deserializeUpdate, recordSizes, List.map_cons, List.map_nil,
      List.sum_cons, List.sum_nil]
    omega
  refine ⟨by simp [deserializeUpdate, recordSizes, hSize, hSize'], ?_, ?_⟩
  · rw [hEnd, Int.toNat_natCast]
    exact_mod_cast hTotal.symm
  · simp only [deserializeUpdate, LogBody.serializeData]
    rw [serialize_rmRecord hSize (by omega), serialize_rmRecord hSize' (by omega),
      serialize_loc (by omega), ← slice_add, ← slice_add]
    congr 1
    omega

theorem parses_of_body
    {type : Int}
    {d : DataRecord}
    (hBody : deserializeBody src type totalLen = some (.data d)) :
    Parses src totalLen d ∧ (LogBody.data d).logType = type := by
  unfold deserializeBody at hBody
  split_ifs at hBody with hUpdate hValid hInsert hValid hDelete hValid <;> cases hBody
  · exact ⟨parses_update hLe hValid, hUpdate.symm⟩
  · exact ⟨parses_one hLe hValid rfl rfl (Or.inl rfl), hInsert.symm⟩
  · exact ⟨parses_one hLe hValid rfl rfl (Or.inr rfl), hDelete.symm⟩

end Changes

/- A record that is read is written back as it was. -/
theorem serialize_of_deserialize
    {r : LogRecord}
    {d : DataRecord}
    (hRead : deserializeLogRecord src = some r)
    (hBody : r.body = .data d) :
    ∃ totalLen, totalLen = decode (slice src 8 4) ∧ totalLen ≤ src.length ∧
      Parses src totalLen d ∧ r.serialize = slice src 0 totalLen := by
  unfold deserializeLogRecord at hRead
  simp only at hRead
  split_ifs at hRead with hShort hTotal
  rcases Option.map_eq_some_iff.mp hRead with ⟨body, hSome, rfl⟩
  cases hBody
  have hHeader : logHeaderSize = 24 := rfl
  rcases parses_of_body (by omega) hSome with ⟨hParses, hType⟩
  have hField : ∀ offset w, offset + w ≤ 24 → (slice src offset w).length = w :=
    fun offset w hLe => length_slice (by omega)
  have hLen : logHeaderSize + (LogBody.data d).serializeData.length = decode (slice src 8 4) := by
    rw [hParses.data, length_slice (by omega)]
    omega
  refine ⟨_, rfl, by omega, hParses, ?_⟩
  have hTot : encode 4 (decode (slice src 8 4)) = slice src 8 4 := by
    have hBack := encode_decode (slice src 8 4)
    rwa [hField 8 4 (by omega)] at hBack
  have hTid : encodeInt 8 (decodeInt (slice src 12 8)) = slice src 12 8 := by
    have hBack := encodeInt_decodeInt (slice src 12 8)
    rwa [hField 12 8 (by omega)] at hBack
  unfold LogRecord.serialize LogRecord.serializeHeader LogRecord.logTotLen
  rw [hLen, hType, hTot, hTid, hParses.data, encodeInt_readInt (by omega),
    encodeInt_readInt (by omega), encodeInt_readInt (by omega), ← slice_add, ← slice_add,
    ← slice_add, ← slice_add]
  exact (slice_add src 0 24 _).symm.trans (congrArg _ (by omega))

end Back

/- On any memory and for any length, decoding looks at the
  bytes below the length only and no sum of a check overflows,
  and a change that is read is the one that the bytes stand
  for. -/
theorem loadLogRecord_safe
    (mem : Nat → UInt8)
    (len : Int) :
    (∀ stop, loadLogRecord mem len = .error stop → stop = .nullptr) ∧
      ∀ r d, loadLogRecord mem len = .ok r → r.body = .data d →
        ∃ totalLen : Nat, totalLen = decode (bytes mem 8 4) ∧ totalLen ≤ len ∧
          r.serialize = bytes mem 0 totalLen ∧
          Parses (bytes mem 0 len.toNat) totalLen d := by
  rw [loadLogRecord_eq]
  cases hRead : deserializeLogRecord (bytes mem 0 len.toNat) with
  | none =>
    refine ⟨?_, fun r d hOk => nomatch hOk⟩
    rintro stop ⟨⟩
    rfl
  | some r =>
    refine ⟨fun stop hError => (nomatch hError), ?_⟩
    rintro _ d ⟨⟩ hBody
    rcases serialize_of_deserialize hRead hBody with ⟨totalLen, hTotal, hLe, hParses, hBytes⟩
    rw [length_bytes] at hLe
    have hHeader : logHeaderSize ≤ totalLen := by
      have hEq := congrArg List.length hBytes
      rw [slice_bytes (by omega), length_bytes, length_serialize, LogRecord.logTotLen] at hEq
      omega
    unfold logHeaderSize at hHeader
    rw [slice_bytes (by omega)] at hTotal hBytes
    exact ⟨totalLen, hTotal, by omega, hBytes, hParses⟩

end Rmdb
