import Miqs.BinFileBytes

/-! Skipping a field against reading it. Both leave the stream behind the field, so a
file can be crossed with any mixture of the two. -/
namespace Miqs.BinFileOps
open Miqs.LittleEndian

/-- What `miqs_skip_field` returns and where it leaves the stream. The sum is a `size_t`.
A type of -1 is taken for the end of the file; with a type that is none of the five the
block to be freed was never allocated. -/
def miqsSkipFieldRst (stream : List UInt8) : Option (BitVec 64 × List UInt8) :=
  let rst : BitVec 64 := 0
  let (type, stream) := fread (List.replicate 4 255) stream
  if ofBytes type = 2^32 - 1 then some (rst, stream)
  else
    let rst := rst + 4
    let (length, stream) := fread (List.replicate 8 0) stream
    let rst := rst + 8
    let length := ofBytes length
    match ofBytes type with
    | 1 => some (rst + 4 * BitVec.ofNat 64 length, (fread (List.replicate (4 * length) 0) stream).2)
    | 2 => some (rst + 8 * BitVec.ofNat 64 length, (fread (List.replicate (8 * length) 0) stream).2)
    | 3 => some (rst + 1 * BitVec.ofNat 64 length, (fread (List.replicate length 0) stream).2)
    | 4 => some (rst + 8 * BitVec.ofNat 64 length, (fread (List.replicate (8 * length) 0) stream).2)
    | 5 => some (rst + 8 * BitVec.ofNat 64 length, (fread (List.replicate (8 * length) 0) stream).2)
    | _ => none

/-- The header of a field decides which case of the skip is taken. -/
theorem miqsSkipFieldRst_fieldBytes {type length : Nat} (ht : type < 6) (hl : length < 2^64)
    (data rest : List UInt8) :
    miqsSkipFieldRst (fieldBytes type length data ++ rest) =
      match type with
      | 1 => some (12 + 4 * BitVec.ofNat 64 length, (data ++ rest).drop (4 * length))
      | 2 => some (12 + 8 * BitVec.ofNat 64 length, (data ++ rest).drop (8 * length))
      | 3 => some (12 + 1 * BitVec.ofNat 64 length, (data ++ rest).drop length)
      | 4 => some (12 + 8 * BitVec.ofNat 64 length, (data ++ rest).drop (8 * length))
      | 5 => some (12 + 8 * BitVec.ofNat 64 length, (data ++ rest).drop (8 * length))
      | _ => none := by
  have htype : ofBytes (toBytes 4 type) = type := by
    rw [ofBytes_toBytes, Nat.mod_eq_of_lt (by omega)]
  have hlength : ofBytes (toBytes 8 length) = length := by
    rw [ofBytes_toBytes, Nat.mod_eq_of_lt (by omega)]
  have hcount : fread (List.replicate 8 0) (toBytes 8 length ++ (data ++ rest)) =
      (toBytes 8 length, data ++ rest) := fread_append (by simp) _
  rw [miqsSkipFieldRst, fieldBytes, List.append_assoc, List.append_assoc,
    fread_append (by simp)]
  simp only [htype, hcount, hlength, if_neg (show ¬ type = 2^32 - 1 by omega)]
  simp only [fread, List.length_replicate]
  rfl

/-- The sum of a skip, element by element, is the length of what it skipped. -/
theorem rst_eq_size {width length size : Nat} (h : size = 12 + width * length) :
    12 + BitVec.ofNat 64 width * BitVec.ofNat 64 length = BitVec.ofNat 64 size := by
  rw [h, BitVec.ofNat_add, BitVec.ofNat_mul]
  rfl

theorem Field.length_bytes (f : Field) :
    f.bytes.length = match f with
      | .int vals => 12 + 4 * vals.length
      | .double vals => 12 + 8 * vals.length
      | .string bytes => 12 + 1 * bytes.length
      | .uint64 vals => 12 + 8 * vals.length
      | .sizeT vals => 12 + 8 * vals.length := by
  cases f <;> simp only [Field.bytes, fieldBytes, List.length_append, length_toBytes,
    length_flatMap_toBytes, List.length_map] <;> omega

/-- A field as a whole is skipped, and its bytes are counted. -/
theorem miqsSkipFieldRst_append {f : Field} (h : f.Fits) (rest : List UInt8) :
    miqsSkipFieldRst (f.bytes ++ rest) = some (BitVec.ofNat 64 f.bytes.length, rest) := by
  have hsize := f.length_bytes
  have hcells : ∀ (width : Nat) (vs : List Nat),
      (vs.flatMap (toBytes width) ++ rest).drop (width * vs.length) = rest := fun width vs =>
    List.drop_left' (length_flatMap_toBytes width vs)
  cases f with
  | int vals =>
    rw [← rst_eq_size hsize, Field.bytes, miqsSkipFieldRst_fieldBytes (by omega) h]
    have hdrop := hcells 4 (vals.map BitVec.toNat)
    rw [List.length_map] at hdrop
    simp only [hdrop]
    rfl
  | double vals =>
    rw [← rst_eq_size hsize, Field.bytes, miqsSkipFieldRst_fieldBytes (by omega) h]
    have hdrop := hcells 8 (vals.map BitVec.toNat)
    rw [List.length_map] at hdrop
    simp only [hdrop]
    rfl
  | string bytes =>
    rw [← rst_eq_size hsize, Field.bytes, miqsSkipFieldRst_fieldBytes (by omega) h]
    simp only [List.drop_left]
    rfl
  | uint64 vals =>
    rw [← rst_eq_size hsize, Field.bytes, miqsSkipFieldRst_fieldBytes (by omega) h.1]
    simp only [hcells]
    rfl
  | sizeT vals =>
    rw [← rst_eq_size hsize, Field.bytes, miqsSkipFieldRst_fieldBytes (by omega) h.1]
    simp only [hcells]
    rfl

def CompleteField : Type := {f : Field // f.Fits}

inductive Access where
  | skip
  | read
  deriving DecidableEq

inductive Outcome where
  | skipped (rst : BitVec 64)
  | loaded (field : Option Field)
  deriving DecidableEq

def access (a : Access) (stream : List UInt8) : Option (Outcome × List UInt8) :=
  match a with
  | .skip => (miqsSkipFieldRst stream).map fun r => (.skipped r.1, r.2)
  | .read => some (.loaded (miqsReadGeneral stream).1, (miqsReadGeneral stream).2)

def accesses : List Access → List UInt8 → Option (List Outcome × List UInt8)
  | [], stream => some ([], stream)
  | a :: as, stream =>
    match access a stream with
    | none => none
    | some (o, stream) => (accesses as stream).map fun r => (o :: r.1, r.2)

def owed (f : CompleteField) : Access → Outcome
  | .skip => .skipped (BitVec.ofNat 64 f.1.bytes.length)
  | .read => .loaded (some f.1)

theorem access_append (a : Access) (f : CompleteField) (rest : List UInt8) :
    access a (f.1.bytes ++ rest) = some (owed f a, rest) := by
  cases a with
  | skip => simp only [access, miqsSkipFieldRst_append f.2, Option.map_some, owed]
  | read => simp only [access, miqsReadGeneral_append f.2, owed]

theorem accesses_append (plan : List (Access × CompleteField)) (rest : List UInt8) :
    accesses (plan.map Prod.fst) (plan.flatMap (fun p => p.2.1.bytes) ++ rest) =
      some (plan.map fun p => owed p.2 p.1, rest) := by
  induction plan with
  | nil => rfl
  | cons p plan ih =>
    simp only [List.map_cons, List.flatMap_cons, List.append_assoc, accesses, access_append, ih,
      Option.map_some]

/-- A skip ends where a read ends, behind the field, and returns the field's size as a
`size_t`; so every mixture of skips and reads over a sequence of fields meets each field at
its first byte and ends behind the last one. -/
theorem skip_and_read_stay_aligned :
    (∀ (f : CompleteField) (rest : List UInt8), ∃ rst : BitVec 64,
      miqsSkipFieldRst (f.1.bytes ++ rest) =
        some (rst, (miqsReadGeneral (f.1.bytes ++ rest)).2) ∧
      (miqsReadGeneral (f.1.bytes ++ rest)).2 = rest ∧
      rst.toNat = f.1.bytes.length % 2^64) ∧
    ∀ (plan : List (Access × CompleteField)) (rest : List UInt8),
      accesses (plan.map Prod.fst) (plan.flatMap (fun p => p.2.1.bytes) ++ rest) =
        some (plan.map fun p => owed p.2 p.1, rest) := by
  refine ⟨fun f rest => ⟨BitVec.ofNat 64 f.1.bytes.length, ?_⟩, accesses_append⟩
  rw [miqsReadGeneral_append f.2, miqsSkipFieldRst_append f.2]
  exact ⟨rfl, rfl, BitVec.toNat_ofNat f.1.bytes.length 64⟩

end Miqs.BinFileOps
