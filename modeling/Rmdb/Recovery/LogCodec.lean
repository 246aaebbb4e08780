import Rmdb.Lib.LittleEndian
import Rmdb.Recovery.LogRecord

/-
  This file models the bytes of a log record: `serialize` and
  `deserialize` of the record classes, and
  `deserialize_log_record` with its checks.

  Key definitions include:
    * `LogRecord.serialize`
    * `LogRecord.Fits`
    * `validateRecordWithTableName`
    * `deserializeLogRecord`

  Key theorems include:
    * `oneRecord_after`, `twoRecords_after`
    * `header_fields`
    * `deserialize_serialize`
-/

namespace Rmdb

open LittleEndian

------------
-- Writing A Record
------------

/- `LOG_HEADER_SIZE`, which is also `OFFSET_LOG_DATA`. -/
def logHeaderSize : Nat := 24

def logBufferSize : Nat := 1024 * 4096

namespace LogBody

/- The number of a `LogType`. -/
def logType : LogBody → Int
| .data (.update _ _ _) => 0
| .data (.insert _ _) => 1
| .data (.delete _ _) => 2
| .begin => 3
| .commit => 4
| .abort => 5
| .checkpoint => 6

end LogBody

/- A record's size and its bytes. -/
def serializeRmRecord (rec : RmRecord) : List UInt8 :=
  encodeInt 4 rec.length ++ rec

/- The record identifier, the length of the name, the name. -/
def serializeLoc (x : Loc) : List UInt8 :=
  encodeInt 4 x.rid.pageNo ++
    (encodeInt 4 x.rid.slotNo ++
      (encode 8 x.tab.length ++ x.tab))

namespace LogBody

/- What follows the header. -/
def serializeData : LogBody → List UInt8
| .data (.insert x rec) => serializeRmRecord rec ++ serializeLoc x
| .data (.delete x rec) => serializeRmRecord rec ++ serializeLoc x
| .data (.update x oldRec newRec) =>
  serializeRmRecord oldRec ++
    (serializeRmRecord newRec ++ serializeLoc x)
| _ => []

end LogBody

namespace LogRecord

def logTotLen (r : LogRecord) : Nat :=
  logHeaderSize + r.body.serializeData.length

def serializeHeader (r : LogRecord) : List UInt8 :=
  encodeInt 4 r.body.logType ++
    (encodeInt 4 r.lsn ++
      (encode 4 r.logTotLen ++
        (encodeInt 8 r.tid ++ encodeInt 4 r.prevLsn)))

def serialize (r : LogRecord) : List UInt8 :=
  r.serializeHeader ++ r.body.serializeData

end LogRecord

/- The values of a signed type of `w` bytes. -/
def IntFits (w : Nat) (z : Int) : Prop :=
  -(256 ^ w) ≤ 2 * z ∧ 2 * z < 256 ^ w

instance (w : Nat) (z : Int) : Decidable (IntFits w z) := by
  unfold IntFits
  infer_instance

/- The integers of the row fit their types. -/
def Loc.Fits (x : Loc) : Prop :=
  IntFits 4 x.rid.pageNo ∧ IntFits 4 x.rid.slotNo

instance (x : Loc) : Decidable x.Fits := by
  unfold Loc.Fits
  infer_instance

/- The fields of a record fit their types, and the record fits
  the log buffer. -/
def LogRecord.Fits (r : LogRecord) : Prop :=
  IntFits 4 r.lsn ∧ IntFits 8 r.tid ∧ IntFits 4 r.prevLsn ∧
    (∀ d ∈ r.data?, d.loc.Fits) ∧ r.logTotLen ≤ logBufferSize

instance (r : LogRecord) : Decidable r.Fits := by
  unfold LogRecord.Fits
  infer_instance

------------
-- Reading A Record
------------

section Reading

variable (src : List UInt8)

def readInt (offset : Nat) : Int :=
  decodeInt (slice src offset 4)

def readSize (offset : Nat) : Nat :=
  decode (slice src offset 8)

/- The size of a table record, as the log gives it. -/
def recordSize (offset : Nat) : Nat :=
  (readInt src offset).toNat

def deserializeRmRecord (offset : Nat) : RmRecord :=
  slice src (offset + 4) (recordSize src offset)

def deserializeLoc (offset : Nat) : Loc :=
  ⟨slice src (offset + 16) (readSize src (offset + 8)),
    ⟨readInt src offset, readInt src (offset + 4)⟩⟩

def advanceChecked (offset amount totalLen : Nat) : Option Nat :=
  if totalLen < amount ∨ totalLen - amount < offset then
    none
  else
    some (offset + amount)

/- Step over a record of a table and its size. -/
def skipRmRecord (totalLen offset : Nat) : Option Nat := do
  let offset ← advanceChecked offset 4 totalLen
  let recSize := readInt src (offset - 4)
  if recSize < 0 then
    none
  else
    advanceChecked offset recSize.toNat totalLen

/- Step over the record identifier and the table name. -/
def skipLoc (totalLen offset : Nat) : Option Nat := do
  let offset ← advanceChecked offset 8 totalLen
  let offset ← advanceChecked offset 8 totalLen
  let tableNameSize := readSize src (offset - 8)
  advanceChecked offset tableNameSize totalLen

def validateRecordWithTableName
    (totalLen : Nat)
    (hasTwoRecords : Bool) :
    Bool :=
  let stop := do
    let offset ← skipRmRecord src totalLen logHeaderSize
    let offset ←
      if hasTwoRecords then
        skipRmRecord src totalLen offset
      else
        some offset
    skipLoc src totalLen offset
  stop == some totalLen

/- The changes of records whose form is checked. -/
def deserializeUpdate : DataRecord :=
  let offset :=
    logHeaderSize + (4 + recordSize src logHeaderSize)
  .update
    (deserializeLoc src (offset + (4 + recordSize src offset)))
    (deserializeRmRecord src logHeaderSize)
    (deserializeRmRecord src offset)

def deserializeInsert : DataRecord :=
  .insert
    (deserializeLoc src
      (logHeaderSize + (4 + recordSize src logHeaderSize)))
    (deserializeRmRecord src logHeaderSize)

def deserializeDelete : DataRecord :=
  .delete
    (deserializeLoc src
      (logHeaderSize + (4 + recordSize src logHeaderSize)))
    (deserializeRmRecord src logHeaderSize)

/- The body that the type of the record asks for. -/
def deserializeBody (type : Int) (totalLen : Nat) : Option LogBody :=
  if type = 0 then
    if validateRecordWithTableName src totalLen true then
      some (.data (deserializeUpdate src))
    else
      none
  else if type = 1 then
    if validateRecordWithTableName src totalLen false then
      some (.data (deserializeInsert src))
    else
      none
  else if type = 2 then
    if validateRecordWithTableName src totalLen false then
      some (.data (deserializeDelete src))
    else
      none
  else if type = 3 then
    some .begin
  else if type = 4 then
    some .commit
  else if type = 5 then
    some .abort
  else if type = 6 then
    some .checkpoint
  else
    none

def deserializeLogRecord : Option LogRecord :=
  if src.length < logHeaderSize then
    none
  else
    let type := readInt src 0
    let totalLen := decode (slice src 8 4)
    if totalLen < logHeaderSize ∨ src.length < totalLen then
      none
    else
      (deserializeBody src type totalLen).map (fun body =>
        { lsn := readInt src 4,
          tid := decodeInt (slice src 12 8),
          prevLsn := readInt src 20,
          body := body })

end Reading

------------
-- What Is Written Is Read Back
------------

@[simp] theorem length_serializeRmRecord (rec : RmRecord) :
    (serializeRmRecord rec).length = 4 + rec.length := by
  simp [serializeRmRecord]

@[simp] theorem length_serializeLoc (x : Loc) :
    (serializeLoc x).length = 16 + x.tab.length := by
  simp only [serializeLoc, List.length_append, length_encodeInt,
    length_encode]
  omega

@[simp] theorem length_serializeHeader (r : LogRecord) :
    r.serializeHeader.length = logHeaderSize := by
  simp [LogRecord.serializeHeader, logHeaderSize]

@[simp] theorem length_serialize (r : LogRecord) :
    r.serialize.length = r.logTotLen := by
  simp [LogRecord.serialize, LogRecord.logTotLen]

section Fields

variable {src pre rest : List UInt8} {offset totalLen : Nat}

theorem readInt_at
    {z : Int}
    (hSrc : src = pre ++ (encodeInt 4 z ++ rest))
    (hPre : pre.length = offset)
    (hFits : IntFits 4 z) :
    readInt src offset = z := by
  rw [readInt, hSrc, slice_at hPre (length_encodeInt 4 z), decodeInt_encodeInt hFits.1 hFits.2]

theorem readSize_at
    {n : Nat}
    (hSrc : src = pre ++ (encode 8 n ++ rest))
    (hPre : pre.length = offset)
    (hLt : n < 256 ^ 8) :
    readSize src offset = n := by
  rw [readSize, hSrc, slice_at hPre (length_encode 8 n), decode_encode hLt]

theorem advanceChecked_le
    {amount : Nat}
    (hLe : offset + amount ≤ totalLen) :
    advanceChecked offset amount totalLen = some (offset + amount) := by
  unfold advanceChecked
  rw [if_neg (by omega)]

/- A record of a table is read, and stepped over. -/
theorem rmRecord_at
    {rec : RmRecord}
    (hSrc : src = pre ++ (serializeRmRecord rec ++ rest))
    (hPre : pre.length = offset)
    (hLen : rec.length ≤ logBufferSize)
    (hLe : offset + (4 + rec.length) ≤ totalLen) :
    recordSize src offset = rec.length ∧ deserializeRmRecord src offset = rec ∧
      skipRmRecord src totalLen offset = some (offset + (4 + rec.length)) := by
  have hFits : IntFits 4 rec.length := by
    unfold logBufferSize at hLen
    constructor <;> omega
  have hInt : readInt src offset = rec.length := by
    have hBytes : src = pre ++ (encodeInt 4 rec.length ++ (rec ++ rest)) := by
      simp [hSrc, serializeRmRecord]
    exact readInt_at hBytes hPre hFits
  have hSize : recordSize src offset = rec.length := by rw [recordSize, hInt, Int.toNat_natCast]
  refine ⟨hSize, ?_, ?_⟩
  · have hBytes : src = (pre ++ encodeInt 4 rec.length) ++ (rec ++ rest) := by
      simp [hSrc, serializeRmRecord]
    rw [deserializeRmRecord, hSize, hBytes]
    exact slice_at (by simp [hPre]) rfl
  · have hFirst : advanceChecked offset 4 totalLen =
        some (offset + 4) := advanceChecked_le (by omega)
    have hSecond : advanceChecked (offset + 4) rec.length
        totalLen = some (offset + 4 + rec.length) := advanceChecked_le (by omega)
    simp [skipRmRecord, hFirst, hInt, hSecond, Nat.add_assoc]

/- So is the place of a row. -/
theorem loc_at
    {x : Loc}
    (hSrc : src = pre ++ (serializeLoc x ++ rest))
    (hPre : pre.length = offset)
    (hFits : x.Fits)
    (hLen : x.tab.length ≤ logBufferSize)
    (hLe : offset + (16 + x.tab.length) ≤ totalLen) :
    deserializeLoc src offset = x ∧ skipLoc src totalLen offset =
        some (offset + (16 + x.tab.length)) := by
  have hPage : readInt src offset = x.rid.pageNo := by
    have hBytes : src = pre ++ (encodeInt 4 x.rid.pageNo ++ (encodeInt 4 x.rid.slotNo ++
          (encode 8 x.tab.length ++ (x.tab ++ rest)))) := by
      simp [hSrc, serializeLoc]
    exact readInt_at hBytes hPre hFits.1
  have hSlot : readInt src (offset + 4) = x.rid.slotNo := by
    have hBytes : src = (pre ++ encodeInt 4 x.rid.pageNo) ++ (encodeInt 4 x.rid.slotNo ++
          (encode 8 x.tab.length ++ (x.tab ++ rest))) := by
      simp [hSrc, serializeLoc]
    exact readInt_at hBytes (by simp [hPre]) hFits.2
  have hSize : readSize src (offset + 8) = x.tab.length := by
    have hBytes : src = (pre ++ encodeInt 4 x.rid.pageNo ++ encodeInt 4 x.rid.slotNo) ++
        (encode 8 x.tab.length ++ (x.tab ++ rest)) := by
      simp [hSrc, serializeLoc]
    unfold logBufferSize at hLen
    exact readSize_at hBytes (by simp [hPre]) (by omega)
  have hName : slice src (offset + 16) x.tab.length = x.tab := by
    have hBytes : src = (pre ++ encodeInt 4 x.rid.pageNo ++
          encodeInt 4 x.rid.slotNo ++ encode 8 x.tab.length) ++ (x.tab ++ rest) := by
      simp [hSrc, serializeLoc]
    rw [hBytes]
    exact slice_at (by simp [hPre]) rfl
  constructor
  · rw [deserializeLoc, hSize, hName, hPage, hSlot]
  · have hFirst : advanceChecked offset 8 totalLen =
        some (offset + 8) := advanceChecked_le (by omega)
    have hSecond : advanceChecked (offset + 8) 8 totalLen =
        some (offset + 16) := advanceChecked_le (by omega)
    have hThird : advanceChecked (offset + 16) x.tab.length
        totalLen = some (offset + 16 + x.tab.length) := advanceChecked_le (by omega)
    simp [skipLoc, hFirst, hSecond, hSize, hThird, Nat.add_assoc]

end Fields

section Records

variable {src header : List UInt8} {x : Loc}

/- One table record and its place, after a header. -/
theorem oneRecord_after
    {rec : RmRecord}
    (hSrc : src =
      header ++ (serializeRmRecord rec ++ serializeLoc x))
    (hHeader : header.length = logHeaderSize)
    (hFits : x.Fits)
    (hLen : src.length ≤ logBufferSize) :
    validateRecordWithTableName src src.length false = true ∧
      deserializeRmRecord src logHeaderSize = rec ∧
        deserializeLoc src (logHeaderSize +
        (4 + recordSize src logHeaderSize)) = x := by
  have hTotal : src.length = logHeaderSize + (4 + rec.length) + (16 + x.tab.length) := by
    simp [hSrc, hHeader, Nat.add_assoc]
  have hPre : (header ++ serializeRmRecord rec).length =
      logHeaderSize + (4 + rec.length) := by simp [hHeader]
  have hLoc : src = (header ++ serializeRmRecord rec) ++ (serializeLoc x ++ []) := by simp [hSrc]
  rcases rmRecord_at hSrc hHeader (by omega)
    (show _ ≤ src.length by omega) with ⟨hSize, hRec, hSkip⟩
  rcases loc_at hLoc hPre hFits (by omega) (show _ ≤ src.length by omega) with ⟨hX, hStop⟩
  rw [← hTotal] at hStop
  refine ⟨?_, hRec, ?_⟩
  · simp [validateRecordWithTableName, hSkip, hStop]
  · rw [hSize, hX]

/- Two table records and their place. -/
theorem twoRecords_after
    {oldRec newRec : RmRecord}
    (hSrc : src =
      header ++ (serializeRmRecord oldRec ++
        (serializeRmRecord newRec ++ serializeLoc x)))
    (hHeader : header.length = logHeaderSize)
    (hFits : x.Fits)
    (hLen : src.length ≤ logBufferSize) :
    validateRecordWithTableName src src.length true = true ∧
      deserializeUpdate src = .update x oldRec newRec := by
  have hTotal : src.length = logHeaderSize + (4 + oldRec.length) +
        (4 + newRec.length) + (16 + x.tab.length) := by
    simp [hSrc, hHeader, Nat.add_assoc]
  have hPre : (header ++ serializeRmRecord oldRec).length =
      logHeaderSize + (4 + oldRec.length) := by simp [hHeader]
  have hNew : src = (header ++ serializeRmRecord oldRec) ++
      (serializeRmRecord newRec ++ serializeLoc x) := by
    simp [hSrc]
  have hPre' : (header ++ serializeRmRecord oldRec ++ serializeRmRecord newRec).length =
        logHeaderSize + (4 + oldRec.length) + (4 + newRec.length) := by
    simp [hHeader, Nat.add_assoc]
  have hLoc : src = (header ++ serializeRmRecord oldRec ++
      serializeRmRecord newRec) ++ (serializeLoc x ++ []) := by
    simp [hSrc]
  rcases rmRecord_at hSrc hHeader (by omega)
    (show _ ≤ src.length by omega) with ⟨hSize, hRec, hSkip⟩
  rcases rmRecord_at hNew hPre (by omega)
    (show _ ≤ src.length by omega) with ⟨hSize', hRec', hSkip'⟩
  rcases loc_at hLoc hPre' hFits (by omega) (show _ ≤ src.length by omega) with ⟨hX, hStop⟩
  rw [← hTotal] at hStop
  constructor
  · simp [validateRecordWithTableName, hSkip, hSkip', hStop]
  · simp only [deserializeUpdate, hSize, hSize', hRec, hRec', hX]

end Records

------------
-- The Whole Record
------------

section Whole

variable {r : LogRecord}

/- The fields of the header. -/
theorem header_fields
    (hFits : r.Fits)
    (rest : List UInt8) :
    readInt (r.serializeHeader ++ rest) 0 = r.body.logType ∧
      readInt (r.serializeHeader ++ rest) 4 = r.lsn ∧
      decode (slice (r.serializeHeader ++ rest) 8 4) = r.logTotLen ∧
      decodeInt (slice (r.serializeHeader ++ rest) 12 8) = r.tid ∧
      readInt (r.serializeHeader ++ rest) 20 = r.prevLsn := by
  rcases hFits with ⟨hLsn, hTid, hPrev, _, hLen⟩
  unfold logBufferSize at hLen
  have hType : IntFits 4 r.body.logType := by
    unfold LogBody.logType
    split <;> decide
  have hBytes : ∀ pre field post : List UInt8, r.serializeHeader = pre ++ (field ++ post) →
      r.serializeHeader ++ rest = pre ++ (field ++ (post ++ rest)) := by
    intro pre field post hEq
    simp [hEq]
  refine ⟨?_, ?_, ?_, ?_, ?_⟩
  · exact readInt_at (hBytes [] _ _ rfl) rfl hType
  · refine readInt_at (hBytes (encodeInt 4 r.body.logType) _ _ rfl) (by simp) hLsn
  · rw [hBytes (encodeInt 4 r.body.logType ++ encodeInt 4 r.lsn) (encode 4 r.logTotLen)
      (encodeInt 8 r.tid ++ encodeInt 4 r.prevLsn) (by simp [LogRecord.serializeHeader])]
    rw [slice_at (by simp) (by simp)]
    exact decode_encode (by omega)
  · rw [hBytes (encodeInt 4 r.body.logType ++ encodeInt 4 r.lsn ++ encode 4 r.logTotLen)
      (encodeInt 8 r.tid) (encodeInt 4 r.prevLsn) (by simp [LogRecord.serializeHeader])]
    rw [slice_at (by simp) (by simp)]
    exact decodeInt_encodeInt hTid.1 hTid.2
  · refine readInt_at (hBytes (encodeInt 4 r.body.logType ++
        encodeInt 4 r.lsn ++ encode 4 r.logTotLen ++ encodeInt 8 r.tid) (encodeInt 4 r.prevLsn) []
      (by simp [LogRecord.serializeHeader])) (by simp) hPrev

theorem deserializeBody_serialize
    (hFits : r.Fits) :
    deserializeBody r.serialize r.body.logType r.logTotLen = some r.body := by
  rcases hFits with ⟨_, _, _, hLoc, hLen⟩
  have hHeader := length_serializeHeader r
  have hLen' : r.serialize.length ≤ logBufferSize := by rwa [length_serialize]
  cases hBody : r.body with
  | begin | commit | abort | checkpoint => simp [deserializeBody, LogBody.logType]
  | data d =>
    have hD : d.loc.Fits := hLoc d (LogRecord.data?_eq_some.mpr hBody)
    have hSrc : r.serialize = r.serializeHeader ++ (LogBody.data d).serializeData := by
      rw [← hBody, LogRecord.serialize]
    cases d with
    | insert x rec =>
      rcases oneRecord_after hSrc hHeader hD hLen' with ⟨hValid, hRec, hX⟩
      rw [length_serialize] at hValid
      simp [deserializeBody, LogBody.logType, hValid, deserializeInsert, hRec, hX]
    | delete x rec =>
      rcases oneRecord_after hSrc hHeader hD hLen' with ⟨hValid, hRec, hX⟩
      rw [length_serialize] at hValid
      simp [deserializeBody, LogBody.logType, hValid, deserializeDelete, hRec, hX]
    | update x oldRec newRec =>
      rcases twoRecords_after hSrc hHeader hD hLen' with ⟨hValid, hUpdate⟩
      rw [length_serialize] at hValid
      simp [deserializeBody, LogBody.logType, hValid, hUpdate]

/- A record that fits is read back from its bytes. -/
theorem deserialize_serialize (hFits : r.Fits) :
    deserializeLogRecord r.serialize = some r := by
  rcases header_fields hFits r.body.serializeData with ⟨hType, hLsn, hLen, hTid, hPrev⟩
  have hBody := deserializeBody_serialize hFits
  have hShort : ¬ r.serialize.length < logHeaderSize := by
    rw [length_serialize, LogRecord.logTotLen]
    omega
  have hTotal : ¬ (r.logTotLen < logHeaderSize ∨ r.serialize.length < r.logTotLen) := by
    rw [length_serialize]
    unfold LogRecord.logTotLen
    omega
  rw [← LogRecord.serialize] at hType hLsn hLen hTid hPrev
  unfold deserializeLogRecord
  simp only [hShort, if_false, hLen, hTotal, hType, hBody, hLsn, hTid, hPrev, Option.map_some]

end Whole

end Rmdb
