import Miqs.BinFileOps
import Miqs.LittleEndian

/-! The bytes of an index file. What the append calls write is read back field by
field, whatever follows. -/
namespace Miqs.BinFileOps
open Miqs.CData Miqs.TokenStream Miqs.LittleEndian

structure ByteFile where
  bytes : List UInt8
  deriving DecidableEq

def fieldBytes (type length : Nat) (data : List UInt8) : List UInt8 :=
  toBytes 4 type ++ (toBytes 8 length ++ data)

def Field.bytes : Field → List UInt8
  | .int vals => fieldBytes 1 vals.length ((vals.map BitVec.toNat).flatMap (toBytes 4))
  | .double vals => fieldBytes 2 vals.length ((vals.map BitVec.toNat).flatMap (toBytes 8))
  | .string bytes => fieldBytes 3 bytes.length bytes
  | .uint64 vals => fieldBytes 4 vals.length (vals.flatMap (toBytes 8))
  | .sizeT vals => fieldBytes 5 vals.length (vals.flatMap (toBytes 8))

def readCells (width length : Nat) (stream : List UInt8) : List Nat × List UInt8 :=
  let (data, stream) := fread (List.replicate (width * length) 0) stream
  (cells width length data, stream)

def readValues (type length : Nat) (stream : List UInt8) : Option Field × List UInt8 :=
  match type with
  | 1 =>
    let (vals, stream) := readCells 4 length stream
    (some (.int (vals.map (BitVec.ofNat 32))), stream)
  | 2 =>
    let (vals, stream) := readCells 8 length stream
    (some (.double (vals.map (BitVec.ofNat 64))), stream)
  | 3 =>
    let (data, stream) := fread (List.replicate length 0) stream
    (some (.string data), stream)
  | 4 =>
    let (vals, stream) := readCells 8 length stream
    (some (.uint64 vals), stream)
  | 5 =>
    let (vals, stream) := readCells 8 length stream
    (some (.sizeT vals), stream)
  | _ => (none, stream)

def miqsReadGeneral (stream : List UInt8) : Option Field × List UInt8 :=
  let (type, stream) := fread (List.replicate 4 255) stream
  let (length, stream) := fread (List.replicate 8 0) stream
  readValues (ofBytes type) (ofBytes length) stream

/-- A type of -1 is taken for the end of the file. With a type that is none of the five the
block to be freed was never allocated. -/
def miqsSkipField (stream : List UInt8) : Option (List UInt8) :=
  let (type, stream) := fread (List.replicate 4 255) stream
  if ofBytes type = 2^32 - 1 then some stream
  else
    let (length, stream) := fread (List.replicate 8 0) stream
    match readValues (ofBytes type) (ofBytes length) stream with
    | (some _, stream) => some stream
    | (none, _) => none

instance : TokenSource ByteFile Field where
  next file := ((miqsReadGeneral file.bytes).1, ⟨(miqsReadGeneral file.bytes).2⟩)

def Field.Fits : Field → Prop
  | .int vals => vals.length < 2^64
  | .double vals => vals.length < 2^64
  | .string bytes => bytes.length < 2^64
  | .uint64 vals => vals.length < 2^64 ∧ ∀ v ∈ vals, v < 2^64
  | .sizeT vals => vals.length < 2^64 ∧ ∀ v ∈ vals, v < 2^64

theorem readCells_append {width : Nat} {vs : List Nat} (h : ∀ v ∈ vs, v < 256^width)
    (rest : List UInt8) :
    readCells width vs.length (vs.flatMap (toBytes width) ++ rest) = (vs, rest) := by
  have hlen : (vs.flatMap (toBytes width)).length =
      (List.replicate (width * vs.length) (0 : UInt8)).length := by
    rw [length_flatMap_toBytes, List.length_replicate]
  rw [readCells, fread_append hlen]
  simp only [cells_flatMap_toBytes width h]

theorem map_ofNat_toNat {w : Nat} (vals : List (BitVec w)) :
    (vals.map BitVec.toNat).map (BitVec.ofNat w) = vals := by
  simp [List.map_map, Function.comp_def]

theorem miqsReadGeneral_header {type length : Nat} (ht : type < 2^32) (hl : length < 2^64)
    (stream : List UInt8) :
    miqsReadGeneral (toBytes 4 type ++ (toBytes 8 length ++ stream)) =
      readValues type length stream := by
  rw [miqsReadGeneral, fread_append (by simp)]
  simp only [fread_append (show (toBytes 8 length).length = (List.replicate 8 (0 : UInt8)).length by
    simp), ofBytes_toBytes]
  rw [Nat.mod_eq_of_lt (by omega), Nat.mod_eq_of_lt (by omega)]

theorem miqsReadGeneral_fieldBytes {type length : Nat} (ht : type < 2^32) (hl : length < 2^64)
    (data rest : List UInt8) :
    miqsReadGeneral (fieldBytes type length data ++ rest) =
      readValues type length (data ++ rest) := by
  rw [fieldBytes, List.append_assoc, List.append_assoc, miqsReadGeneral_header ht hl]

theorem readCells_bitVec {w width : Nat} (hw : 2^w = 256^width) (vals : List (BitVec w))
    (rest : List UInt8) :
    readCells width vals.length ((vals.map BitVec.toNat).flatMap (toBytes width) ++ rest) =
      (vals.map BitVec.toNat, rest) := by
  have hv : ∀ v ∈ vals.map BitVec.toNat, v < 256^width := by
    intro v hv
    obtain ⟨u, _, rfl⟩ := List.mem_map.mp hv
    rw [← hw]
    exact u.isLt
  have hcells := readCells_append hv rest
  rwa [List.length_map] at hcells

theorem miqsReadGeneral_append {f : Field} (h : f.Fits) (rest : List UInt8) :
    miqsReadGeneral (f.bytes ++ rest) = (some f, rest) := by
  cases f with
  | int vals =>
    rw [Field.bytes, miqsReadGeneral_fieldBytes (by omega) h]
    simp only [readValues, readCells_bitVec (show 2^32 = 256^4 by norm_num), map_ofNat_toNat]
  | double vals =>
    rw [Field.bytes, miqsReadGeneral_fieldBytes (by omega) h]
    simp only [readValues, readCells_bitVec (show 2^64 = 256^8 by norm_num), map_ofNat_toNat]
  | string bytes =>
    rw [Field.bytes, miqsReadGeneral_fieldBytes (by omega) h]
    simp only [readValues, fread_append (List.length_replicate).symm]
  | uint64 vals =>
    rw [Field.bytes, miqsReadGeneral_fieldBytes (by omega) h.1]
    simp only [readValues, readCells_append (show ∀ v ∈ vals, v < 256^8 from h.2)]
  | sizeT vals =>
    rw [Field.bytes, miqsReadGeneral_fieldBytes (by omega) h.1]
    simp only [readValues, readCells_append (show ∀ v ∈ vals, v < 256^8 from h.2)]

theorem miqsSkipField_of_read {stream rest : List UInt8} {f : Field}
    (htype : ofBytes (fread (List.replicate 4 255) stream).1 ≠ 2^32 - 1)
    (hread : miqsReadGeneral stream = (some f, rest)) : miqsSkipField stream = some rest := by
  unfold miqsReadGeneral at hread
  unfold miqsSkipField
  dsimp only at hread ⊢
  rw [if_neg htype, hread]

theorem fread_type_fieldBytes {type : Nat} (ht : type < 2^32) (length : Nat) (data rest : List UInt8) :
    ofBytes (fread (List.replicate 4 255) (fieldBytes type length data ++ rest)).1 = type := by
  rw [fieldBytes, List.append_assoc, fread_append (by simp), ofBytes_toBytes, Nat.mod_eq_of_lt (by omega)]

/-- A field that was written is skipped as a whole. -/
theorem miqsSkipField_append {f : Field} (h : f.Fits) (rest : List UInt8) :
    miqsSkipField (f.bytes ++ rest) = some rest := by
  apply miqsSkipField_of_read ?_ (miqsReadGeneral_append h rest)
  cases f <;> rw [Field.bytes, fread_type_fieldBytes (by omega)] <;> omega

/-- A file delivers the fields it was written from, whatever follows them. -/
theorem delivers_bytes {fields : List Field} (h : ∀ f ∈ fields, f.Fits) (rest : List UInt8)
    (b : Bool) :
    Delivers (DiskStream.mk (ByteFile.mk (fields.flatMap Field.bytes ++ rest)) b) fields
      (DiskStream.mk (ByteFile.mk rest) b) := by
  induction fields with
  | nil => rfl
  | cons f fields ih =>
    have hf := miqsReadGeneral_append (h f (by simp)) (fields.flatMap Field.bytes ++ rest)
    refine ⟨_, ?_, ih fun g hg => h g (List.mem_cons_of_mem f hg)⟩
    simp only [TokenSource.next, List.flatMap_cons, List.append_assoc, hf]

theorem readValues_rest_le (type length : Nat) (stream : List UInt8) :
    (readValues type length stream).2.length ≤ stream.length := by
  unfold readValues
  split <;> simp [readCells, fread]

theorem miqsReadGeneral_rest_le (stream : List UInt8) :
    (miqsReadGeneral stream).2.length ≤ stream.length - 12 := by
  have hvalues := readValues_rest_le (ofBytes (fread (List.replicate 4 255) stream).1)
    (ofBytes (fread (List.replicate 8 0) (stream.drop 4)).1) (stream.drop 12)
  have hstream : miqsReadGeneral stream =
      readValues (ofBytes (fread (List.replicate 4 255) stream).1)
        (ofBytes (fread (List.replicate 8 0) (stream.drop 4)).1) (stream.drop 12) := by
    simp [miqsReadGeneral, fread, List.drop_drop]
  rw [hstream]
  simpa using hvalues

theorem readTyped_source {β : Type} (test : Field → Option β) (d : DiskStream ByteFile) :
    (readTyped test d).2.source = ⟨(miqsReadGeneral d.source.bytes).2⟩ := by
  unfold readTyped
  simp only [TokenSource.next]
  cases (miqsReadGeneral d.source.bytes).1 with
  | none => rfl
  | some f => cases ht : test f <;> simp [ht]

/-- A typed read takes the field's header, or what is left of it. -/
theorem readTyped_rest_le {β : Type} (test : Field → Option β) (d : DiskStream ByteFile) :
    (readTyped test d).2.source.bytes.length ≤ d.source.bytes.length - 12 := by
  rw [readTyped_source]
  exact miqsReadGeneral_rest_le _

end Miqs.BinFileOps
