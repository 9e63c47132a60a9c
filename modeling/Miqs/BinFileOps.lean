import Miqs.CData
import Miqs.TokenStream

/-! Index files as sequences of typed fields. A field is what one append call
writes and one read call consumes: a type number, a count and that many values. -/
namespace Miqs.BinFileOps
open Miqs.CData Miqs.TokenStream

inductive Field where
  | int (vals : List CInt)
  | double (vals : List CDouble)
  | string (bytes : List UInt8)
  | uint64 (vals : List Nat)
  | sizeT (vals : List Nat)
  deriving DecidableEq

def miqsAppendInt (data : CInt) : List Field := [.int [data]]
def miqsAppendDouble (data : CDouble) : List Field := [.double [data]]
def miqsAppendStringWithLen (data : List UInt8) : List Field := [.string data]
def miqsAppendUint64 (data : Nat) : List Field := [.uint64 [data]]
def miqsAppendSizeT (data : Nat) : List Field := [.sizeT [data]]
def miqsAppendType (type : CInt) : List Field := miqsAppendInt type

def miqsAppendString : CharPtr → Option (List Field)
  | .to s => some (miqsAppendStringWithLen s.bytes)
  | _ => none

/-- An open file. `misread` records whether some typed read found a field of
another type or count, or none: the C readers return NULL then. -/
structure DiskStream (S : Type) where
  source : S
  misread : Bool
  deriving DecidableEq

variable {S : Type} [TokenSource S Field]

instance : TokenSource (DiskStream S) Field where
  next d := ((TokenSource.next d.source).1, { d with source := (TokenSource.next d.source).2 })

theorem delivers_file (ts rest : List Field) (b : Bool) :
    Delivers (DiskStream.mk (ts ++ rest) b) ts (DiskStream.mk rest b) := by
  induction ts with
  | nil => rfl
  | cons t ts ih => exact ⟨DiskStream.mk (ts ++ rest) b, rfl, ih⟩

def readTyped {β : Type} (test : Field → Option β) (d : DiskStream S) : Option β × DiskStream S :=
  match TokenSource.next d with
  | (some f, d') =>
    match test f with
    | some v => (some v, d')
    | none => (none, { d' with misread := true })
  | (none, d') => (none, { d' with misread := true })

def miqsReadInt : DiskStream S → Option CInt × DiskStream S :=
  readTyped fun | .int [v] => some v | _ => none

def miqsReadDouble : DiskStream S → Option CDouble × DiskStream S :=
  readTyped fun | .double [v] => some v | _ => none

def miqsReadString : DiskStream S → Option CString × DiskStream S :=
  readTyped fun | .string b => some (CString.ofBytes b) | _ => none

def miqsReadUint64 : DiskStream S → Option Nat × DiskStream S :=
  readTyped fun | .uint64 [v] => some v | _ => none

def miqsReadSizeT : DiskStream S → Option Nat × DiskStream S :=
  readTyped fun | .sizeT [v] => some v | _ => none

theorem readTyped_of_delivers {β : Type} {test : Field → Option β} {f : Field} {v : β}
    {d d' : DiskStream S} (h : Delivers d [f] d') (hv : test f = some v) :
    readTyped test d = (some v, d') := by
  obtain ⟨d₁, hn, rfl⟩ := h
  simp only [readTyped, hn, hv]

theorem miqsReadInt_of_delivers {v : CInt} {d d' : DiskStream S}
    (h : Delivers d (miqsAppendInt v) d') : miqsReadInt d = (some v, d') :=
  readTyped_of_delivers h rfl

theorem miqsReadDouble_of_delivers {v : CDouble} {d d' : DiskStream S}
    (h : Delivers d (miqsAppendDouble v) d') : miqsReadDouble d = (some v, d') :=
  readTyped_of_delivers h rfl

theorem miqsReadString_of_delivers {s : CString} {d d' : DiskStream S}
    (h : Delivers d (miqsAppendStringWithLen s.bytes) d') : miqsReadString d = (some s, d') :=
  readTyped_of_delivers h (congrArg some (CString.ofBytes_bytes s))

theorem miqsReadUint64_of_delivers {n : Nat} {d d' : DiskStream S}
    (h : Delivers d (miqsAppendUint64 n) d') : miqsReadUint64 d = (some n, d') :=
  readTyped_of_delivers h rfl

theorem miqsReadSizeT_of_delivers {n : Nat} {d d' : DiskStream S}
    (h : Delivers d (miqsAppendSizeT n) d') : miqsReadSizeT d = (some n, d') :=
  readTyped_of_delivers h rfl

end Miqs.BinFileOps
