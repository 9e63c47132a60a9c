import Miqs.InMemIndex

/-! Exact search: the value tree of a name is asked for a value, and the pairs
found are resolved through the path tables of the partition each pair names. -/
namespace Miqs.Index
open Miqs.CData Miqs.KeyedTree

structure SearchRstEntry where
  filePath : CharPtr
  objPath : CharPtr
  deriving DecidableEq

inductive QueryValue where
  | unknown
  | integer (v : CInt)
  | float (v : CDouble)
  | string (s : CString)
  deriving DecidableEq

def collectResultFromList (idx : IndexAnchor) (foPair : FileObjPair) : Option SearchRstEntry := do
  let part ← idx.partitions[foPair.parallelIndexPos]?
  let file ← listPickTaggedValue part.filePathsList foPair.fileListPos
  let obj ← listPickTaggedValue part.objectPathsList foPair.objListPos
  some ⟨file.tag, obj.tag⟩

variable {π : Type} [Descent NumKey]

/-- The part of `attribute_value_search` that follows the search for the leaf.
An inner `none` is a NULL result. -/
def AttrLeaf.search (leafCnt : AttrLeaf π) (value : QueryValue) : Option (Option (List π)) :=
  match leafCnt.rbt with
  | none => some none
  | some rbt =>
    match value with
    | .string s => leafCnt.art.map fun art => AssocMap.search art s
    | .integer v => some (rbt.find (.int v))
    | .float v => some (rbt.find (.double v))
    | .unknown => some none

def attributeValueSearch (idx : IndexAnchor) (attrName : CString) (value : QueryValue) :
    Option (Option (List FileObjPair)) := do
  let part ← idx.partitions[djb2Hash attrName % idx.parallelism]?
  match AssocMap.search part.rootArt attrName with
  | none => some none
  | some leafCnt => leafCnt.search value

/-- The node is read without a test for NULL. -/
def exactMetadataSearch (idx : IndexAnchor) (attrName : CString) (value : QueryValue) :
    Option (List SearchRstEntry) := do
  let rstNode ← attributeValueSearch idx attrName value
  let fileObjPairList ← rstNode
  fileObjPairList.mapM (collectResultFromList idx)

def answers (idx : IndexAnchor) (n : CString) (value : QueryValue) : List SearchRstEntry :=
  (exactMetadataSearch idx n value).getD []

end Miqs.Index
