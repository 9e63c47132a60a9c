import Miqs.MdbFile

/-! The append-only log: `indexing_attr` writes a record for each value it indexes,
and `load_aof` indexes the records of a log. -/
namespace Miqs.Index
open Miqs.CData Miqs.BinFileOps Miqs.KeyedTree Miqs.TokenStream

inductive RecordData where
  | null
  | int (v : CInt)
  | double (v : CDouble)
  | string (s : CString)
  deriving DecidableEq

structure IndexRecord where
  type : AttrType
  name : CharPtr
  data : RecordData
  filePath : CharPtr
  objectPath : CharPtr
  deriving DecidableEq

def appendRecordData : AttrType → RecordData → Option (List Field)
  | .integer, .int v => some (miqsAppendInt v)
  | .float, .double v => some (miqsAppendDouble v)
  | .string, .string s => miqsAppendString (.to s)
  | .unknown, _ => some []
  | _, _ => none

def appendIndexRecord (ir : IndexRecord) : Option (List Field) := do
  let name ← miqsAppendString ir.name
  let data ← appendRecordData ir.type ir.data
  let filePath ← miqsAppendString ir.filePath
  let objectPath ← miqsAppendString ir.objectPath
  some (miqsAppendType ir.type.toInt ++ (name ++ (data ++ (filePath ++ objectPath))))

section Read
variable {S : Type} [TokenSource S Field]

def readRecordData (type : AttrType) (d : DiskStream S) : RecordData × DiskStream S :=
  match type with
  | .integer => let (v, d) := miqsReadInt d; ((v.map RecordData.int).getD .null, d)
  | .float => let (v, d) := miqsReadDouble d; ((v.map RecordData.double).getD .null, d)
  | .string => let (s, d) := miqsReadString d; ((s.map RecordData.string).getD .null, d)
  | .unknown => (.null, d)

def readIndexRecord (d : DiskStream S) : Option IndexRecord × DiskStream S :=
  let (ptr, d) := miqsReadInt d
  match ptr with
  | none => (none, d)
  | some number =>
    let type := getMiqsTypeFromInt number
    let (name, d) := miqsReadString d
    let (data, d) := readRecordData type d
    let (filePath, d) := miqsReadString d
    let (objectPath, d) := miqsReadString d
    (some ⟨type, readCharPtr name, data, readCharPtr filePath, readCharPtr objectPath⟩, d)

end Read

/-- The records of an attribute, one per value. For strings the data pointer is
the address of the array element, so that the bytes of the pointer are written. -/
def aofRecords (attr : MetaAttribute) (filePath objPath : CharPtr) : List IndexRecord :=
  match attr.attributeValue with
  | .integer vals _ => vals.map fun v => ⟨.integer, .to attr.attrName, .int v, filePath, objPath⟩
  | .float vals => vals.map fun v => ⟨.float, .to attr.attrName, .double v, filePath, objPath⟩
  | .string vals => vals.map fun r =>
    ⟨.string, .to attr.attrName, .string (.ofBytes r.addrBytes), filePath, objPath⟩
  | .unknown _ => []

def writeAof (attr : MetaAttribute) (filePath objPath : CharPtr) : Option (List Field) := do
  let records ← (aofRecords attr filePath objPath).mapM appendIndexRecord
  some records.flatten

def isSpecifiedField (name : CString) (idx : IndexAnchor) : Bool := decide (name ∈ idx.indexedAttr)

def logAttr (idx : IndexAnchor) (attr : MetaAttribute) : Option IndexAnchor :=
  match idx.onDiskFileStream with
  | none => some idx
  | some stream =>
    if idx.isReadonlyIndexFile then some idx
    else (writeAof attr idx.filePath idx.objPath).map fun fields =>
      { idx with onDiskFileStream := some (stream ++ fields) }

variable [Descent NumKey]

def indexingAttr (idx : IndexAnchor) (attr : MetaAttribute) : Option IndexAnchor := do
  let idx := { idx with totalNumAttrs := idx.totalNumAttrs + 1 }
  if idx.indexedAttr = [] ∨ isSpecifiedField attr.attrName idx then
    let n := attr.attributeValue.length
    let idx ← logAttr { idx with totalNumKvPairs := idx.totalNumKvPairs + n } attr
    let idx ← createInMemIndexForAttr idx attr
    some { idx with totalNumIndexedKvPairs := idx.totalNumIndexedKvPairs + n }
  else some idx

def onAttr (idx : IndexAnchor) (attrName : CString) (value : AttrValue) : Option IndexAnchor :=
  indexingAttr idx ⟨attrName, value, idx.filePath, idx.objPath⟩

def indexAndLog (parallelism : Nat) (indexedAttr : List CString) (attrs : List Attribute) :
    Option IndexAnchor :=
  attrs.foldlM
    (fun idx a =>
      onAttr { idx with filePath := .to a.filePath, objPath := .to a.objPath } a.attrName
        a.attributeValue)
    { initInMemIndex parallelism with
      indexedAttr, onDiskFileStream := some [], isReadonlyIndexFile := false }

/-- What is read from memory that `load_aof` has not set: the two path fields of
its local `attr`, the dead local `str_val` that the value of a string attribute
points to, and the memory after a single int. -/
structure Indeterminate where
  filePathStr : CharPtr
  objPathStr : CharPtr
  strVal : Option StringRef
  beyond : Nat → CInt

def recordValue (ir : IndexRecord) (junk : Indeterminate) : Option AttrValue :=
  match ir.type, ir.data with
  | .string, _ => junk.strVal.map fun r => .string [r]
  | .integer, .int v => some (.integer [v] junk.beyond)
  | .float, .double v => some (.float [v])
  | .unknown, _ => some (.unknown 1)
  | _, _ => none

def convertIndexRecordToInMemParameters (idx : IndexAnchor) (ir : IndexRecord) (junk : Indeterminate) :
    Option (IndexAnchor × MetaAttribute) := do
  let value ← recordValue ir junk
  match ir.name with
  | .to name => some ({ idx with filePath := ir.filePath, objPath := ir.objectPath },
      ⟨name, value, junk.filePathStr, junk.objPathStr⟩)
  | _ => none

/-- The loop of `load_aof`. Every round takes at least one field from the stream. -/
def loadAofLoop {S : Type} [TokenSource S Field] (junk : Nat → Indeterminate) :
    Nat → Nat → IndexAnchor → DiskStream S → Option (Nat × IndexAnchor)
  | 0, _, _, _ => none
  | fuel+1, count, idx, d =>
    match readIndexRecord d with
    | (none, _) => some (count, idx)
    | (some ir, d) => do
      let (idx, attr) ← convertIndexRecordToInMemParameters idx ir (junk count)
      let idx ← indexingAttr idx attr
      loadAofLoop junk fuel (count + 1) idx d

def loadAof (junk : Nat → Indeterminate) (file : List Field) (idx : IndexAnchor) :
    Option (Nat × IndexAnchor) :=
  if file = [] then some (0, idx)
  else loadAofLoop junk (file.length + 1) 0
    { idx with onDiskFileStream := some file, isReadonlyIndexFile := true } ⟨file, false⟩

end Miqs.Index
