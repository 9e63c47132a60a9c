import Miqs.AofCodec
import Miqs.GrowArray

/-! The search of a log on disk: `find_index_record` reads the records that may match,
skips the fields of the others, and collects what it finds in an array that doubles. -/
namespace Miqs.OnDiskSearch
open Miqs.CData Miqs.BinFileOps Miqs.TokenStream Miqs.Index Miqs.GrowArray

inductive Slot where
  | null
  | wild
  | to (ir : IndexRecord)
  deriving DecidableEq

structure Found where
  rst : List Slot
  outLen : Nat
  deriving DecidableEq

def capacityOf (outLen : CInt) : Nat := if outLen.toInt ≤ 0 then 10 else outLen.toNat

def intLimit : Nat := 2^31

section Search
variable {κ : Type} (mem : Memory Slot) (name : CString) (compareValue : RecordData → κ → Int)
  (criterion : κ)

def skipFields (n : Nat) (d : DiskStream ByteFile) : Option (DiskStream ByteFile) :=
  times n (fun d => (miqsSkipField d.source.bytes).map fun rest => { d with source := ⟨rest⟩ }) d

/-- What one round makes of the record at its position: nothing, or a new record. A name that
is not there cannot be compared, and neither can the data of a record of an unknown type. -/
def matchRecord (number : CInt) (d : DiskStream ByteFile) :
    Option (Option IndexRecord × DiskStream ByteFile) :=
  let type := getMiqsTypeFromInt number
  match miqsReadString d with
  | (none, _) => none
  | (some nameFromDisk, d) =>
    if name = nameFromDisk then
      if type = .unknown then none
      else
        let (data, d) := readRecordData type d
        if compareValue data criterion = 1 then
          let (filePath, d) := miqsReadString d
          let (objectPath, d) := miqsReadString d
          some (some ⟨type, .to name, data, readCharPtr filePath, readCharPtr objectPath⟩, d)
        else (skipFields 2 d).map fun d => (none, d)
    else (skipFields 3 d).map fun d => (none, d)

def findLoop : Nat → DiskStream ByteFile → Block Slot → Option (Outcome Slot)
  | 0, _, _ => none
  | fuel+1, d, rst =>
    match miqsReadInt d with
    | (none, _) => some (.stored rst)
    | (some number, d) => do
      let (newRecord, d) ← matchRecord name compareValue criterion number d
      match newRecord with
      | none => findLoop fuel d rst
      | some ir =>
        match push intLimit mem rst (.to ir) with
        | .stored rst => findLoop fuel d rst
        | outcome => some outcome

def freeUnused (rst : Block Slot) : Option Nat :=
  (rst.slots.drop rst.count).reverse.foldlM
    (fun outLen slot => if slot = .wild then none else some (outLen - 1)) rst.slots.length

/-- What is returned. When memory runs out, that is what was found so far, and `*out_len`
stays as it is. -/
def finish (outLen : Nat) : Outcome Slot → Option Found
  | .overflow => none
  | .refused rst => some ⟨rst.slots, outLen⟩
  | .stored rst => (freeUnused rst).map fun outLen => ⟨rst.slots, outLen⟩

def findIndexRecord (stream : List UInt8) (outLen : CInt) : Option Found :=
  (findLoop mem name compareValue criterion (stream.length + 1) ⟨⟨stream⟩, false⟩
    ⟨List.replicate (capacityOf outLen) .null, 0⟩).bind (finish (capacityOf outLen))

end Search

def position (fields : List Field) (rest : List UInt8) : DiskStream ByteFile :=
  ⟨⟨fields.flatMap Field.bytes ++ rest⟩, false⟩

theorem delivers_position {fields : List Field} (h : ∀ f ∈ fields, f.Fits) (more : List Field)
    (rest : List UInt8) : Delivers (position (fields ++ more) rest) fields (position more rest) := by
  unfold position
  rw [List.flatMap_append, List.append_assoc]
  exact delivers_bytes h _ false

theorem skipFields_position {fields : List Field} (h : ∀ f ∈ fields, f.Fits) (rest : List UInt8) :
    skipFields fields.length (position fields rest) = some (position [] rest) := by
  induction fields with
  | nil => rfl
  | cons f fields ih =>
    have hf := miqsSkipField_append (h f (by simp)) (fields.flatMap Field.bytes ++ rest)
    rw [skipFields, List.length_cons, times, position, List.flatMap_cons, List.append_assoc, hf]
    exact ih fun g hg => h g (List.mem_cons_of_mem f hg)

section Records
variable {κ : Type} (name : CString) (compareValue : RecordData → κ → Int) (criterion : κ)

def Matches (r : LogRecord) : Prop :=
  r.name.text = name ∧ compareValue r.value.data criterion = 1

instance (r : LogRecord) : Decidable (Matches name compareValue criterion r) :=
  inferInstanceAs (Decidable (_ ∧ _))

def pathFields (r : LogRecord) : List Field :=
  [.string r.filePath.text.bytes, .string r.objectPath.text.bytes]

theorem mem_fields_of_value {r : LogRecord} {f : Field} (hf : f ∈ r.value.fields) : f.Fits :=
  r.fits f (by simp [LogRecord.fields, hf])

theorem pathFields_fits (r : LogRecord) : ∀ f ∈ pathFields r, f.Fits := by
  intro f hf
  apply r.fits f
  simp only [pathFields] at hf
  simp [LogRecord.fields, hf]

theorem readRecordData_position (r : LogRecord) (hr : r.value.type ≠ .unknown) (more : List Field)
    (rest : List UInt8) : readRecordData r.value.type (position (r.value.fields ++ more) rest) =
      (r.value.data, position more rest) := by
  have hwrite : appendRecordData r.value.type r.value.data = some r.value.fields := by
    cases r.value <;> rfl
  rw [readRecordData_of_append hwrite (delivers_position (fun _ => mem_fields_of_value) more rest),
    if_neg hr]

theorem readString_position (s : HeapString) (more : List Field) (rest : List UInt8) :
    miqsReadString (position (.string s.text.bytes :: more) rest) = (some s.text, position more rest) := by
  have hfits : ∀ f ∈ miqsAppendStringWithLen s.text.bytes, f.Fits := by
    simpa [miqsAppendStringWithLen, Field.Fits] using s.fits
  exact miqsReadString_of_delivers (delivers_position hfits more rest)

/-- The value is one field. -/
theorem skipValue_position (r : LogRecord) (hr : r.value.type ≠ .unknown) (rest : List UInt8) :
    skipFields 3 (position (r.value.fields ++ pathFields r) rest) = some (position [] rest) := by
  have hlen : (r.value.fields ++ pathFields r).length = 3 := by
    cases hv : r.value with
    | unknown => exact absurd (by rw [hv]; rfl) hr
    | integer v => rfl
    | float v => rfl
    | string s => rfl
  rw [← hlen]
  apply skipFields_position
  intro f hf
  rcases List.mem_append.mp hf with hf | hf
  · exact mem_fields_of_value hf
  · exact pathFields_fits r f hf

/-- A round reads a matching record and skips what is left of any other. -/
theorem matchRecord_position (r : LogRecord) (hr : r.value.type ≠ .unknown) (rest : List UInt8) :
    matchRecord name compareValue criterion r.value.type.toInt
        (position (.string r.name.text.bytes :: (r.value.fields ++ pathFields r)) rest) =
      some (if Matches name compareValue criterion r then some r.toIndexRecord else none,
        position [] rest) := by
  have htype : getMiqsTypeFromInt r.value.type.toInt = r.value.type := by
    cases r.value <;> rfl
  have hpaths : skipFields 2 (position (pathFields r) rest) = some (position [] rest) :=
    skipFields_position (pathFields_fits r) rest
  unfold matchRecord
  simp only [htype, readString_position, hr, if_false, readRecordData_position r hr,
    skipValue_position r hr, hpaths, Option.map_some]
  by_cases hn : name = r.name.text
  · by_cases hc : compareValue r.value.data criterion = 1
    · simp only [pathFields, readString_position]
      simp [Matches, hn, hc, LogRecord.toIndexRecord, readCharPtr]
    · simp [Matches, hn, hc]
  · simp [Matches, hn, Ne.symm hn]

theorem position_append (fields more : List Field) (rest : List UInt8) :
    position (fields ++ more) rest = position fields (more.flatMap Field.bytes ++ rest) := by
  simp [position]

theorem readInt_position (v : CInt) (more : List Field) (rest : List UInt8) :
    miqsReadInt (position (.int [v] :: more) rest) = (some v, position more rest) := by
  have hfits : ∀ f ∈ miqsAppendInt v, f.Fits := by simp [miqsAppendInt, Field.Fits]
  exact miqsReadInt_of_delivers (delivers_position hfits more rest)

variable (mem : Memory Slot) {records : List LogRecord}

def hits (records : List LogRecord) : List Slot :=
  (records.filter (Matches name compareValue criterion)).map fun r => .to r.toIndexRecord

theorem findLoop_eq_pushAll (hr : ∀ r ∈ records, r.value.type ≠ .unknown) {fuel : Nat}
    (hfuel : records.length < fuel) (rst : Block Slot) :
    findLoop mem name compareValue criterion fuel (position (records.flatMap LogRecord.fields) []) rst =
      some (pushAll intLimit mem (hits name compareValue criterion records) rst) := by
  induction records generalizing fuel rst with
  | nil =>
    cases fuel with
    | zero => simp at hfuel
    | succ fuel => rfl
  | cons r records ih =>
    cases fuel with
    | zero => simp at hfuel
    | succ fuel =>
      have ih := fun rst => ih (fun r hr' => hr r (List.mem_cons_of_mem _ hr')) (by simpa using hfuel) rst
      have hfields : r.fields = .int [r.value.type.toInt] ::
          (.string r.name.text.bytes :: (r.value.fields ++ pathFields r)) := rfl
      have hrest : position [] ((records.flatMap LogRecord.fields).flatMap Field.bytes ++ []) =
          position (records.flatMap LogRecord.fields) [] := (position_append [] _ []).symm
      rw [List.flatMap_cons, hfields, List.cons_append, findLoop, readInt_position, position_append]
      simp only [matchRecord_position name compareValue criterion r (hr r (by simp)), hrest,
        Option.bind_eq_bind, Option.bind_some]
      by_cases hm : Matches name compareValue criterion r
      · have hhits : hits name compareValue criterion (r :: records) =
            .to r.toIndexRecord :: hits name compareValue criterion records := by
          simp [hits, hm]
        rw [if_pos hm, hhits, pushAll]
        cases hp : push intLimit mem rst (.to r.toIndexRecord) with
        | overflow => simp only [hp]
        | refused b => simp only [hp]
        | stored b => simp only [hp, ih]
      · have hhits : hits name compareValue criterion (r :: records) =
            hits name compareValue criterion records := by
          simp [hits, hm]
        rw [if_neg hm, hhits]
        exact ih rst

theorem foldlM_free (slots : List Slot) (n : Nat) :
    slots.foldlM (fun outLen slot => if slot = .wild then none else some (outLen - 1)) n =
      if .wild ∈ slots then none else some (n - slots.length) := by
  induction slots generalizing n with
  | nil => simp
  | cons slot slots ih =>
    by_cases hw : slot = .wild
    · simp [hw]
    · rw [List.foldlM_cons, if_neg hw]
      simp only [Option.bind_eq_bind, Option.bind_some, ih, List.mem_cons, Ne.symm hw, false_or,
        List.length_cons, Nat.sub_sub, Nat.add_comm 1]

/-- Freeing gives the number of the records, unless an unused slot was never set. -/
theorem freeUnused_eq (xs spare : List Slot) : freeUnused ⟨xs ++ spare, xs.length⟩ =
    if .wild ∈ spare then none else some xs.length := by
  unfold freeUnused
  rw [List.drop_left, foldlM_free]
  simp

theorem capacityOf_pos (outLen : CInt) : 0 < capacityOf outLen := by
  unfold capacityOf
  split_ifs with h
  · omega
  · rw [BitVec.toInt_eq_toNat_cond] at h
    split_ifs at h <;> omega

/-- The scan is a run of pushes, then the unused slots are freed. -/
theorem findIndexRecord_eq (hr : ∀ r ∈ records, r.value.type ≠ .unknown) (outLen : CInt) :
    findIndexRecord mem name compareValue criterion (records.flatMap LogRecord.bytes) outLen =
      finish (capacityOf outLen) (pushAll intLimit mem (hits name compareValue criterion records)
        ⟨List.replicate (capacityOf outLen) .null, 0⟩) := by
  have hstream : (⟨⟨records.flatMap LogRecord.bytes⟩, false⟩ : DiskStream ByteFile) =
      position (records.flatMap LogRecord.fields) [] := by
    rw [position, List.append_nil, List.flatMap_assoc]
    rfl
  have hlen := length_le_bytes records
  unfold findIndexRecord
  rw [hstream, findLoop_eq_pushAll name compareValue criterion mem hr (by omega)]
  rfl

def Exact (grants : Nat → Bool) (stream : List UInt8) (outLen : CInt) (expected : List Slot) : Prop :=
  ∀ fresh, ∃ found,
    findIndexRecord ⟨grants, fresh⟩ name compareValue criterion stream outLen = some found ∧
      found.outLen = expected.length ∧ found.rst.take found.outLen = expected

theorem length_hits : (hits name compareValue criterion records).length =
    (records.filter (Matches name compareValue criterion)).length := by
  rw [hits, List.length_map]

theorem found_eq_filter_iff (hr : ∀ r ∈ records, r.value.type ≠ .unknown) (grants : Nat → Bool)
    (outLen : CInt) : (∃ stream, writeLog records = some stream ∧
        Exact name compareValue criterion grants stream outLen (hits name compareValue criterion records)) ↔
      Settled intLimit grants (capacityOf outLen)
        (records.filter (Matches name compareValue criterion)).length := by
  have hpos := capacityOf_pos outLen
  rw [writeLog_eq, ← length_hits]
  simp only [Option.some.injEq, exists_eq_left', Exact, findIndexRecord_eq name compareValue criterion _ hr]
  generalize hits name compareValue criterion records = expected
  constructor
  · intro h
    obtain ⟨found, hfound, hlen, -⟩ := h fun _ => .wild
    by_contra hsettled
    rcases pushAll_of_not_settled intLimit ⟨grants, fun _ => .wild⟩ .null hpos expected hsettled with
      ⟨hlt, hstop⟩ | ⟨spare, hspare, hrun⟩
    · -- the scan stopped at a capacity: what is returned is counted by the first one
      revert hfound hstop
      cases pushAll _ _ expected _ with
      | overflow => simp [finish]
      | refused b =>
        simp only [finish, Option.some.injEq]
        rintro rfl -
        exact absurd hlen (Nat.ne_of_lt hlt)
      | stored b => simp
    · -- the first of the unused slots is freed as it was found
      have hwild : Slot.wild ∈ (List.range' expected.length spare).map fun _ => Slot.wild :=
        List.mem_map.mpr ⟨expected.length, by simpa using hspare, rfl⟩
      rw [hrun, finish, freeUnused_eq, if_pos hwild] at hfound
      cases hfound
  · intro h fresh
    refine ⟨⟨expected ++ List.replicate (capacityOf outLen - expected.length) .null, expected.length⟩, ?_⟩
    rw [pushAll_of_settled intLimit ⟨grants, fresh⟩ .null hpos expected h]
    simp [finish, freeUnused_eq]

end Records

def sameData (data criterion : RecordData) : Int := if data = criterion then 1 else 0

/-- Two matches in an array that starts with one slot fill it after it has doubled. -/
theorem found_eq_filter_two :
    (∀ r ∈ [sampleRecord, sampleRecord], r.value.type ≠ .unknown) ∧
      ∃ stream, writeLog [sampleRecord, sampleRecord] = some stream ∧
        Exact sampleRecord.name.text sameData sampleRecord.value.data (fun _ => true) stream 1
          (hits sampleRecord.name.text sameData sampleRecord.value.data [sampleRecord, sampleRecord]) := by
  have hr : ∀ r ∈ [sampleRecord, sampleRecord], r.value.type ≠ .unknown := by decide
  refine ⟨hr, (found_eq_filter_iff _ _ _ hr (fun _ => true) 1).mpr (.inr ⟨1, by decide, ?_⟩)⟩
  intro j _ hj
  exact ⟨Nat.lt_of_le_of_lt (Nat.mul_le_mul_left _ (Nat.pow_le_pow_right (by omega) hj)) (by decide), rfl⟩

/-- A third one leaves a slot that is freed without having been set. -/
theorem third_match_frees_wild : ¬ ∃ stream,
    writeLog [sampleRecord, sampleRecord, sampleRecord] = some stream ∧
      Exact sampleRecord.name.text sameData sampleRecord.value.data (fun _ => true) stream 1
        (hits sampleRecord.name.text sameData sampleRecord.value.data
          [sampleRecord, sampleRecord, sampleRecord]) := by
  rw [writeLog_eq]
  simp only [Option.some.injEq, exists_eq_left', Exact]
  intro h
  obtain ⟨found, hfound, -⟩ := h fun _ => .wild
  rw [findIndexRecord_eq _ _ _ _ (by decide)] at hfound
  have hfault : finish (capacityOf 1) (pushAll intLimit ⟨fun _ => true, fun _ => .wild⟩
      (hits sampleRecord.name.text sameData sampleRecord.value.data
        [sampleRecord, sampleRecord, sampleRecord])
      ⟨List.replicate (capacityOf 1) .null, 0⟩) = none := by decide
  rw [hfault] at hfound
  cases hfound

end Miqs.OnDiskSearch
