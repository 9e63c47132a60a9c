import Mathlib.Tactic.IntervalCases
import Miqs.AofReplay
import Miqs.BinFileBytes

/-! The log as bytes. A whole log is read back record by record; of a log that was cut
off, the record at the cut is read as well, unless almost nothing of it is there. -/
namespace Miqs.Index
open Miqs.CData Miqs.BinFileOps Miqs.TokenStream Miqs.LittleEndian

structure HeapString where
  text : CString
  fits : text.bytes.length < 2^64

inductive LogValue where
  | unknown
  | integer (v : CInt)
  | float (v : CDouble)
  | string (s : HeapString)

structure LogRecord where
  name : HeapString
  value : LogValue
  filePath : HeapString
  objectPath : HeapString

def LogValue.type : LogValue → AttrType
  | .unknown => .unknown
  | .integer _ => .integer
  | .float _ => .float
  | .string _ => .string

def LogValue.data : LogValue → RecordData
  | .unknown => .null
  | .integer v => .int v
  | .float v => .double v
  | .string s => .string s.text

def LogRecord.toIndexRecord (r : LogRecord) : IndexRecord :=
  ⟨r.value.type, .to r.name.text, r.value.data, .to r.filePath.text, .to r.objectPath.text⟩

def writeLog (records : List LogRecord) : Option (List UInt8) :=
  (records.mapM fun r => appendIndexRecord r.toIndexRecord).map fun fields =>
    fields.flatten.flatMap Field.bytes

section Read
variable {S : Type} [TokenSource S Field]

def readUntilNull : Nat → DiskStream S → Option (List IndexRecord × DiskStream S)
  | 0, _ => none
  | fuel+1, d =>
    match readIndexRecord d with
    | (none, _) => some ([], d)
    | (some ir, d') => (readUntilNull fuel d').map fun r => (ir :: r.1, r.2)

end Read

/-- A record takes more than one byte, so there are fewer records than bytes. -/
def readLog (bytes : List UInt8) : Option (List IndexRecord × DiskStream ByteFile) :=
  readUntilNull (bytes.length + 1) ⟨⟨bytes⟩, false⟩

def LogValue.fields : LogValue → List Field
  | .unknown => []
  | .integer v => [.int [v]]
  | .float v => [.double [v]]
  | .string s => [.string s.text.bytes]

def LogRecord.fields (r : LogRecord) : List Field :=
  .int [r.value.type.toInt] :: .string r.name.text.bytes ::
    (r.value.fields ++ [.string r.filePath.text.bytes, .string r.objectPath.text.bytes])

def LogRecord.bytes (r : LogRecord) : List UInt8 := r.fields.flatMap Field.bytes

theorem appendIndexRecord_toIndexRecord (r : LogRecord) :
    appendIndexRecord r.toIndexRecord = some r.fields := by
  cases hv : r.value <;>
    simp [appendIndexRecord, LogRecord.toIndexRecord, hv, LogValue.type, LogValue.data,
      appendRecordData, miqsAppendString, miqsAppendType, miqsAppendInt, miqsAppendDouble,
      miqsAppendStringWithLen, LogRecord.fields, LogValue.fields]

theorem writeLog_eq (records : List LogRecord) :
    writeLog records = some (records.flatMap LogRecord.bytes) := by
  have hm : (records.mapM fun r => appendIndexRecord r.toIndexRecord) =
      some (records.map LogRecord.fields) := by
    apply mapM_of_map_eq_some
    simp [appendIndexRecord_toIndexRecord]
  have hb : (records.map LogRecord.fields).flatten.flatMap Field.bytes =
      records.flatMap LogRecord.bytes := by
    rw [← List.flatMap_def, List.flatMap_assoc]
    rfl
  rw [writeLog, hm, Option.map_some, hb]

theorem LogRecord.fits (r : LogRecord) : ∀ f ∈ r.fields, f.Fits := by
  have hval : ∀ f ∈ r.value.fields, f.Fits := by
    cases hv : r.value with
    | unknown => simp [LogValue.fields]
    | integer v => simp [LogValue.fields, Field.Fits]
    | float v => simp [LogValue.fields, Field.Fits]
    | string s => simpa [LogValue.fields, Field.Fits] using s.fits
  intro f hf
  simp only [LogRecord.fields, List.mem_cons, List.mem_append, List.not_mem_nil, or_false] at hf
  rcases hf with rfl | rfl | hf | rfl | rfl
  · simp [Field.Fits]
  · exact r.name.fits
  · exact hval f hf
  · exact r.filePath.fits
  · exact r.objectPath.fits

theorem readIndexRecord_bytes (r : LogRecord) (rest : List UInt8) (b : Bool) :
    readIndexRecord (DiskStream.mk (ByteFile.mk (r.bytes ++ rest)) b) =
      (some r.toIndexRecord, ⟨⟨rest⟩, b⟩) := by
  rw [LogRecord.bytes,
    readIndexRecord_of_delivers (appendIndexRecord_toIndexRecord r) (delivers_bytes r.fits rest b)]
  cases hv : r.value <;> simp [LogRecord.toIndexRecord, hv, LogValue.type, LogValue.data]

theorem readUntilNull_bytes (fuel : Nat) (r : LogRecord) (rest : List UInt8) (b : Bool) :
    readUntilNull (fuel + 1) (DiskStream.mk (ByteFile.mk (r.bytes ++ rest)) b) =
      (readUntilNull fuel ⟨⟨rest⟩, b⟩).map fun x => (r.toIndexRecord :: x.1, x.2) := by
  simp only [readUntilNull, readIndexRecord_bytes]

theorem length_bytes_pos (r : LogRecord) : 0 < r.bytes.length := by
  simp [LogRecord.bytes, LogRecord.fields, Field.bytes, fieldBytes]

theorem readIndexRecord_nil (b : Bool) :
    (readIndexRecord (DiskStream.mk (ByteFile.mk []) b)).1 = none := rfl

/-- Enough rounds read all records and stop at the end of the file. -/
theorem readUntilNull_records (records : List LogRecord) {fuel : Nat} (h : records.length < fuel)
    (b : Bool) :
    readUntilNull fuel (DiskStream.mk (ByteFile.mk (records.flatMap LogRecord.bytes)) b) =
      some (records.map LogRecord.toIndexRecord, ⟨⟨[]⟩, b⟩) := by
  induction records generalizing fuel with
  | nil =>
    cases fuel with
    | zero => simp at h
    | succ fuel => rfl
  | cons r records ih =>
    cases fuel with
    | zero => simp at h
    | succ fuel =>
      rw [List.flatMap_cons, readUntilNull_bytes, ih (by simpa using h)]
      rfl

theorem length_le_bytes (records : List LogRecord) :
    records.length ≤ (records.flatMap LogRecord.bytes).length := by
  induction records with
  | nil => simp
  | cons r records ih =>
    have hr := length_bytes_pos r
    rw [List.flatMap_cons, List.length_append, List.length_cons]
    omega

/-- A log is read back as it was written, and the read that returns NULL starts at the
end of the file. -/
theorem log_round_trip (records : List LogRecord) :
    ∃ bytes, writeLog records = some bytes ∧
      readLog bytes = some (records.map LogRecord.toIndexRecord, ⟨⟨[]⟩, false⟩) := by
  refine ⟨_, writeLog_eq records, ?_⟩
  have hlen := length_le_bytes records
  exact readUntilNull_records records (by omega) false

def stringRefs : AttrValue → List StringRef
  | .string vals => vals
  | _ => []

def valueData : AttrValue → List RecordData
  | .integer vals _ => vals.map .int
  | .float vals => vals.map .double
  | .string vals => vals.map fun r => .string r.text
  | .unknown _ => []

def valueRecords (attr : MetaAttribute) (filePath objPath : CharPtr) : List IndexRecord :=
  (valueData attr.attributeValue).map fun data =>
    ⟨attr.attributeValue.type, .to attr.attrName, data, filePath, objPath⟩

def spelled (r : StringRef) : HeapString where
  text := .ofBytes r.addrBytes
  fits := by
    have h := (List.takeWhile_sublist (fun b => decide (b ≠ 0)) (l := r.addrBytes)).length_le
    have h8 : r.addrBytes.length = 8 := by simp [StringRef.addrBytes]
    simp only [CString.ofBytes]
    omega

def loggedValues : AttrValue → List LogValue
  | .integer vals _ => vals.map .integer
  | .float vals => vals.map .float
  | .string vals => vals.map fun r => .string (spelled r)
  | .unknown _ => []

section WriteAof
variable (attrName filePath objPath : HeapString) (value : AttrValue) (filePathStr objPathStr : CharPtr)

def loggedRecords : List LogRecord :=
  (loggedValues value).map fun v => ⟨attrName, v, filePath, objPath⟩

theorem aofRecords_eq_logged :
    aofRecords ⟨attrName.text, value, filePathStr, objPathStr⟩ (.to filePath.text) (.to objPath.text) =
      (loggedRecords attrName filePath objPath value).map LogRecord.toIndexRecord := by
  cases value <;>
    simp [aofRecords, loggedRecords, loggedValues, LogRecord.toIndexRecord, LogValue.type,
      LogValue.data, spelled, Function.comp_def]

/-- What is read back is the list of records that `write_aof` made. -/
theorem readLog_writeAof : ∃ fields,
    writeAof ⟨attrName.text, value, filePathStr, objPathStr⟩ (.to filePath.text)
      (.to objPath.text) = some fields ∧
    readLog (fields.flatMap Field.bytes) = some (aofRecords
      ⟨attrName.text, value, filePathStr, objPathStr⟩ (.to filePath.text) (.to objPath.text),
      ⟨⟨[]⟩, false⟩) := by
  obtain ⟨bytes, hwrite, hread⟩ := log_round_trip (loggedRecords attrName filePath objPath value)
  rw [writeLog, Option.map_eq_some_iff] at hwrite
  obtain ⟨fields, hfields, rfl⟩ := hwrite
  refine ⟨fields.flatten, ?_, ?_⟩
  · rw [writeAof, aofRecords_eq_logged, List.mapM_map]
    exact congrArg (· >>= fun records => some (List.flatten records)) hfields
  · rw [hread, aofRecords_eq_logged]

theorem reads_back_iff (expected : List IndexRecord) : (∃ fields,
      writeAof ⟨attrName.text, value, filePathStr, objPathStr⟩ (.to filePath.text)
        (.to objPath.text) = some fields ∧
      readLog (fields.flatMap Field.bytes) = some (expected, ⟨⟨[]⟩, false⟩)) ↔
    aofRecords ⟨attrName.text, value, filePathStr, objPathStr⟩ (.to filePath.text)
      (.to objPath.text) = expected := by
  obtain ⟨fields, hwrite, hread⟩ :=
    readLog_writeAof attrName filePath objPath value filePathStr objPathStr
  constructor
  · intro h
    obtain ⟨fields', hwrite', hread'⟩ := h
    rw [hwrite, Option.some.injEq] at hwrite'
    subst hwrite'
    rw [hread, Option.some.injEq, Prod.mk.injEq] at hread'
    exact hread'.1
  · intro h
    exact ⟨fields, hwrite, by rw [hread, h]⟩

theorem aofRecords_eq_valueRecords_iff (attr : MetaAttribute) (filePath objPath : CharPtr) :
    aofRecords attr filePath objPath = valueRecords attr filePath objPath ↔
      ∀ r ∈ stringRefs attr.attributeValue, (spelled r).text = r.text := by
  cases hv : attr.attributeValue with
  | unknown n => simp [aofRecords, valueRecords, valueData, stringRefs, hv]
  | integer vals beyond =>
    simp [aofRecords, valueRecords, valueData, stringRefs, hv, AttrValue.type, Function.comp_def]
  | float vals =>
    simp [aofRecords, valueRecords, valueData, stringRefs, hv, AttrValue.type, Function.comp_def]
  | string vals =>
    simp [aofRecords, valueRecords, valueData, stringRefs, hv, AttrValue.type, Function.comp_def,
      spelled]

/-- The records are those of the values if and only if the bytes of each string pointer
spell the string that it points to. -/
theorem logged_values_iff :
    (∃ fields,
      writeAof ⟨attrName.text, value, filePathStr, objPathStr⟩ (.to filePath.text)
        (.to objPath.text) = some fields ∧
      readLog (fields.flatMap Field.bytes) = some (valueRecords
        ⟨attrName.text, value, filePathStr, objPathStr⟩ (.to filePath.text) (.to objPath.text),
        ⟨⟨[]⟩, false⟩)) ↔
    ∀ r ∈ stringRefs value, (spelled r).text = r.text := by
  rw [reads_back_iff]
  exact aofRecords_eq_valueRecords_iff _ _ _

end WriteAof

def sampleRef : StringRef := ⟨0x7f0000001010, .ofBytes [97]⟩

def sampleName : HeapString := ⟨.ofBytes [110], by decide⟩

theorem string_value_not_logged : ¬ ∃ fields,
    writeAof ⟨sampleName.text, .string [sampleRef], .null, .null⟩ (.to sampleName.text)
      (.to sampleName.text) = some fields ∧
    readLog (fields.flatMap Field.bytes) = some (valueRecords
      ⟨sampleName.text, .string [sampleRef], .null, .null⟩ (.to sampleName.text)
      (.to sampleName.text), ⟨⟨[]⟩, false⟩) := by
  rw [reads_back_iff]
  decide

def complete : List LogRecord → Nat → List LogRecord
  | [], _ => []
  | r :: records, n =>
    if r.bytes.length ≤ n then r :: complete records (n - r.bytes.length) else []

def leftover : List LogRecord → Nat → Nat
  | [], _ => 0
  | r :: records, n =>
    if r.bytes.length ≤ n then leftover records (n - r.bytes.length) else n

def recordHeader : List UInt8 := toBytes 4 1 ++ toBytes 8 1

theorem bytes_eq_header (r : LogRecord) : ∃ tail, r.bytes = recordHeader ++ tail := by
  have hint : Field.bytes (.int [r.value.type.toInt]) =
      recordHeader ++ [r.value.type.toInt.toNat].flatMap (toBytes 4) := by
    rw [Field.bytes, fieldBytes, recordHeader, List.append_assoc]
    rfl
  rw [LogRecord.bytes, LogRecord.fields, List.flatMap_cons, hint, List.append_assoc]
  exact ⟨_, rfl⟩

/-- The count read from a header is 1 as soon as its first byte is there. -/
theorem miqsReadInt_isSome_iff (tail : List UInt8) (n : Nat) (b : Bool) :
    (miqsReadInt (DiskStream.mk (ByteFile.mk ((recordHeader ++ tail).take n)) b)).1.isSome ↔
      5 ≤ n := by
  by_cases hn : n < 12
  · have htake : (recordHeader ++ tail).take n = recordHeader.take n :=
      List.take_append_of_le_length (by simp [recordHeader]; omega)
    rw [htake]
    cases b <;> interval_cases n <;> decide
  · have htake : (recordHeader ++ tail).take n = recordHeader ++ tail.take (n - 12) := by
      rw [List.take_append]
      have hlen : recordHeader.length = 12 := by simp [recordHeader]
      rw [hlen, List.take_of_length_le (by omega)]
    have hread : miqsReadGeneral (recordHeader ++ tail.take (n - 12)) =
        readValues 1 1 (tail.take (n - 12)) := by
      rw [recordHeader, List.append_assoc]
      exact miqsReadGeneral_header (by omega) (by omega) _
    have hfive : 5 ≤ n := by omega
    simp [htake, miqsReadInt, readTyped, TokenSource.next, hread, readValues, readCells, cells, hfive]

/-- Without the type there is no record, and with it there is one. -/
theorem readIndexRecord_eq_none_iff {S : Type} [TokenSource S Field] (d : DiskStream S) :
    (readIndexRecord d).1 = none ↔ (miqsReadInt d).1 = none := by
  unfold readIndexRecord
  cases hp : (miqsReadInt d).1 <;> simp [hp]

theorem miqsReadString_rest_le (d : DiskStream ByteFile) :
    (miqsReadString d).2.source.bytes.length ≤ d.source.bytes.length :=
  (readTyped_rest_le _ d).trans (Nat.sub_le _ _)

theorem readRecordData_rest_le (type : AttrType) (d : DiskStream ByteFile) :
    (readRecordData type d).2.source.bytes.length ≤ d.source.bytes.length := by
  cases type with
  | unknown => exact Nat.le_refl _
  | integer => exact (readTyped_rest_le _ d).trans (Nat.sub_le _ _)
  | float => exact (readTyped_rest_le _ d).trans (Nat.sub_le _ _)
  | string => exact (readTyped_rest_le _ d).trans (Nat.sub_le _ _)

/-- A record that is read is taken from the file. -/
theorem readIndexRecord_rest_lt {d d' : DiskStream ByteFile} {ir : IndexRecord}
    (h : readIndexRecord d = (some ir, d')) :
    d'.source.bytes.length < d.source.bytes.length := by
  have hne : d.source.bytes ≠ [] := by
    intro hnil
    have hd : d = ⟨⟨[]⟩, d.misread⟩ := by
      cases d with
      | mk source misread => cases source with
        | mk bytes => simpa using hnil
    have hnone := readIndexRecord_nil d.misread
    rw [← hd, h] at hnone
    cases hnone
  have hpos := List.length_pos_iff.mpr hne
  unfold readIndexRecord at h
  have hint : (miqsReadInt d).2.source.bytes.length ≤ d.source.bytes.length - 12 :=
    readTyped_rest_le _ d
  cases hptr : (miqsReadInt d).1 with
  | none => simp [hptr] at h
  | some number =>
    simp only [hptr, Prod.mk.injEq] at h
    obtain ⟨-, rfl⟩ := h
    have hname := miqsReadString_rest_le (miqsReadInt d).2
    have hdata := readRecordData_rest_le (getMiqsTypeFromInt number)
      (miqsReadString (miqsReadInt d).2).2
    have hfile := miqsReadString_rest_le (readRecordData (getMiqsTypeFromInt number)
      (miqsReadString (miqsReadInt d).2).2).2
    have hobj := miqsReadString_rest_le (miqsReadString (readRecordData (getMiqsTypeFromInt number)
      (miqsReadString (miqsReadInt d).2).2).2).2
    omega

/-- Reading a file until NULL comes to an end. -/
theorem readUntilNull_isSome {fuel : Nat} {d : DiskStream ByteFile}
    (h : d.source.bytes.length < fuel) : (readUntilNull fuel d).isSome := by
  induction fuel generalizing d with
  | zero => omega
  | succ fuel ih =>
    unfold readUntilNull
    cases hr : readIndexRecord d with
    | mk ir d' =>
      cases ir with
      | none => rfl
      | some ir =>
        have hlt := readIndexRecord_rest_lt hr
        simpa using ih (by omega)

theorem readUntilNull_eq_nil_iff {fuel : Nat} {d : DiskStream ByteFile}
    (h : d.source.bytes.length < fuel) :
    (readUntilNull fuel d).map Prod.fst = some [] ↔ (readIndexRecord d).1 = none := by
  cases fuel with
  | zero => omega
  | succ fuel =>
    unfold readUntilNull
    cases hr : readIndexRecord d with
    | mk ir d' =>
      cases ir with
      | none => simp
      | some ir => cases readUntilNull fuel d' <;> simp

/-- One record that is cut. -/
theorem readUntilNull_cut_iff (r : LogRecord) (n : Nat) {fuel : Nat} (h : n < fuel) :
    (readUntilNull fuel (DiskStream.mk (ByteFile.mk (r.bytes.take n)) false)).map Prod.fst =
      some [] ↔ n ≤ 4 := by
  obtain ⟨tail, htail⟩ := bytes_eq_header r
  have hlen : (r.bytes.take n).length < fuel := by
    rw [List.length_take]
    omega
  have hint := miqsReadInt_isSome_iff tail n false
  rw [readUntilNull_eq_nil_iff hlen, readIndexRecord_eq_none_iff, htail, ← Option.not_isSome_iff_eq_none,
    hint]
  omega

/-- The first `n` bytes of a log. -/
theorem readUntilNull_take_iff (records : List LogRecord) (n : Nat) {fuel : Nat}
    (h : ((records.flatMap LogRecord.bytes).take n).length < fuel) :
    (readUntilNull fuel (DiskStream.mk
        (ByteFile.mk ((records.flatMap LogRecord.bytes).take n)) false)).map Prod.fst =
      some ((complete records n).map LogRecord.toIndexRecord) ↔ leftover records n ≤ 4 := by
  induction records generalizing n fuel with
  | nil =>
    have hnil : ((([] : List LogRecord).flatMap LogRecord.bytes).take n) = [] := List.take_nil
    rw [hnil] at h ⊢
    have hread := (readUntilNull_eq_nil_iff h).mpr (readIndexRecord_nil false)
    simp only [complete, leftover, List.map_nil, hread, Nat.zero_le]
  | cons r records ih =>
    rw [List.flatMap_cons] at h ⊢
    by_cases hr : r.bytes.length ≤ n
    · have htake : (r.bytes ++ records.flatMap LogRecord.bytes).take n =
          r.bytes ++ (records.flatMap LogRecord.bytes).take (n - r.bytes.length) := by
        rw [List.take_append, List.take_of_length_le hr]
      rw [htake] at h ⊢
      have hpos := length_bytes_pos r
      cases fuel with
      | zero => omega
      | succ fuel =>
        rw [List.length_append] at h
        have hih := @ih (n - r.bytes.length) fuel (by omega)
        simp only [complete, leftover, if_pos hr]
        rw [← hih, readUntilNull_bytes, Option.map_map]
        generalize readUntilNull fuel (DiskStream.mk (ByteFile.mk _) false) = rest
        cases rest <;> simp
    · have htake : (r.bytes ++ records.flatMap LogRecord.bytes).take n = r.bytes.take n :=
        List.take_append_of_le_length (by omega)
      rw [htake] at h ⊢
      simp only [complete, leftover, if_neg hr, List.map_nil]
      apply readUntilNull_cut_iff
      rw [List.length_take] at h
      omega

/-- Of a log that ends after `n` bytes, exactly the records that are there as a whole are
read if and only if at most four bytes follow the last of them. Otherwise the reader
returns the record that was cut as well. -/
theorem cut_log_iff (records : List LogRecord) (n : Nat) :
    ∃ bytes read d, writeLog records = some bytes ∧ readLog (bytes.take n) = some (read, d) ∧
      (read = (complete records n).map LogRecord.toIndexRecord ↔ leftover records n ≤ 4) := by
  have hsome : (readLog ((records.flatMap LogRecord.bytes).take n)).isSome :=
    readUntilNull_isSome (Nat.lt_succ_self _)
  obtain ⟨⟨read, d⟩, hread⟩ := Option.isSome_iff_exists.mp hsome
  refine ⟨_, read, d, writeLog_eq records, hread, ?_⟩
  have hiff := readUntilNull_take_iff records n (Nat.lt_succ_self _)
  rw [readLog] at hread
  rw [← hiff, hread]
  simp

def sampleRecord : LogRecord :=
  ⟨⟨.ofBytes [110], by decide⟩, .integer 7, ⟨.ofBytes [102], by decide⟩, ⟨.ofBytes [111], by decide⟩⟩

/-- From the first five bytes of a record, a record without a name and without paths is
read. -/
theorem cut_log_returns_empty_record :
    complete [sampleRecord] 5 = [] ∧
      ((writeLog [sampleRecord]).bind fun bytes => (readLog (bytes.take 5)).map Prod.fst) =
        some [⟨.unknown, .null, .null, .null, .null⟩] := by
  constructor
  · have hlen : ¬ sampleRecord.bytes.length ≤ 5 := by decide +kernel
    simp [complete, hlen]
  · decide +kernel

end Miqs.Index
