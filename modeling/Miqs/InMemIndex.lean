import Miqs.AssocMap
import Miqs.BinFileOps
import Miqs.KeyedTree

/-! The in-memory index: `p` partitions, each with a name tree and two path
tables, and the indexing of one attribute into the partition its name hashes to.
A result `none` is a fault: a NULL or wild pointer is read. -/
namespace Miqs.Index
open Miqs.CData Miqs.BinFileOps Miqs.KeyedTree

structure TaggedValue where
  tag : CharPtr
  value : Nat
  deriving DecidableEq

/-- The values of a list's entries. The entries that fill a gap have none. -/
abbrev LinkedList := List (Option TaggedValue)

def strcmpIsZero : CharPtr → CharPtr → Option Bool
  | .to s, .to t => some (decide (s = t))
  | _, _ => none

def listGetTaggedValue : LinkedList → CharPtr → Option (Option TaggedValue)
  | [], _ => some none
  | none :: list, tag => listGetTaggedValue list tag
  | some tval :: list, tag =>
    (strcmpIsZero tval.tag tag).bind fun same =>
      if same then some (some tval) else listGetTaggedValue list tag

def listCreateTaggedValue (tag : CharPtr) (value : Nat) : Option TaggedValue :=
  if tag = .wild then none else some ⟨tag, value⟩

def listInsertTaggedValue (list : LinkedList) (tval : TaggedValue) (pos : Nat) : LinkedList :=
  if pos = 0 then some tval :: list
  else if pos = list.length then list ++ [some tval]
  else if pos > list.length then
    list ++ List.replicate (pos - list.length) none ++ [some tval]
  else list.take pos ++ some tval :: list.drop pos

def listPickTaggedValue (list : LinkedList) (pos : Nat) : Option TaggedValue := list[pos]?.join

def insertTaggedValue (list : LinkedList) (tag : CharPtr) : Option (LinkedList × Nat) := do
  match ← listGetTaggedValue list tag with
  | some tgv => some (list, tgv.value)
  | none =>
    let lastPos := list.length
    let tgv ← listCreateTaggedValue tag lastPos
    some (listInsertTaggedValue list tgv lastPos, lastPos)

/-- `rbt_t`, its nodes in the order they were added. The value of a node is the
pair list of a `value_tree_leaf_content_t`. -/
structure Rbt (π : Type) where
  cmpKeysCb : CmpKeys
  nodes : List (NumKey × List π)
  deriving DecidableEq

abbrev Art (α : Type) := List (CString × α)

structure AttrLeaf (π : Type) where
  isNumeric : Bool
  isFloat : Bool
  rbt : Option (Rbt π)
  art : Option (Art (List π))
  deriving DecidableEq

variable {π : Type} [Descent NumKey]

def Rbt.create (cmp : CmpKeys) : Rbt π := ⟨cmp, []⟩

def Rbt.find (t : Rbt π) (key : NumKey) : Option (List π) := lookup t.cmpKeysCb.eval t.nodes key

def Rbt.add (t : Rbt π) (key : NumKey) (value : List π) : Rbt π :=
  { t with nodes := KeyedTree.add t.cmpKeysCb.eval t.nodes key value }

def Rbt.pushValue (t : Rbt π) (key : NumKey) (pair : π) : Rbt π :=
  { t with nodes := KeyedTree.push t.cmpKeysCb.eval t.nodes key pair }

def Art.pushValue (t : Art (List π)) (key : CString) (pair : π) : Art (List π) :=
  AssocMap.insert t key ((AssocMap.search t key).getD [] ++ [pair])

def AttrLeaf.numericKey (leaf : AttrLeaf π) (attrVal : NumericArray) (i : Nat) : NumKey :=
  if leaf.isFloat then .double (attrVal.doubleAt i) else .int (attrVal.intAt i)

def AttrLeaf.pushNumeric (leaf : AttrLeaf π) (key : NumKey) (pair : π) : Option (AttrLeaf π) :=
  leaf.rbt.map fun t => { leaf with rbt := some (t.pushValue key pair) }

def AttrLeaf.pushString (leaf : AttrLeaf π) (s : CString) (pair : π) : Option (AttrLeaf π) :=
  leaf.art.map fun t => { leaf with art := some (t.pushValue s pair) }

def AttrLeaf.prepareString (leaf : AttrLeaf π) : AttrLeaf π :=
  { leaf with isNumeric := false, isFloat := false, art := some (leaf.art.getD []) }

structure FileObjPair where
  parallelIndexPos : Nat
  fileListPos : Nat
  objListPos : Nat
  deriving DecidableEq

structure Partition where
  rootArt : Art (AttrLeaf FileObjPair)
  filePathsList : LinkedList
  objectPathsList : LinkedList
  deriving DecidableEq

/-- `index_anchor_t`. Locks, time and memory counters are left out. -/
structure IndexAnchor where
  filePath : CharPtr
  objPath : CharPtr
  partitions : List Partition
  indexedAttr : List CString
  onDiskFileStream : Option (List Field)
  isReadonlyIndexFile : Bool
  totalNumFiles : Nat
  totalNumObjects : Nat
  totalNumAttrs : Nat
  totalNumIndexedKvPairs : Nat
  totalNumKvPairs : Nat
  deriving DecidableEq

def IndexAnchor.parallelism (idx : IndexAnchor) : Nat := idx.partitions.length

def initInMemIndex (parallelism : Nat) : IndexAnchor where
  filePath := .null
  objPath := .null
  partitions := List.replicate parallelism ⟨[], [], []⟩
  indexedAttr := []
  onDiskFileStream := none
  isReadonlyIndexFile := true
  totalNumFiles := 0
  totalNumObjects := 0
  totalNumAttrs := 0
  totalNumIndexedKvPairs := 0
  totalNumKvPairs := 0

def IndexAnchor.setPartition (idx : IndexAnchor) (h : Nat) (part : Partition) : IndexAnchor :=
  { idx with partitions := idx.partitions.set h part }

def insertFilePath (idx : IndexAnchor) (h : Nat) (path : CharPtr) : Option (IndexAnchor × Nat) := do
  let part ← idx.partitions[h]?
  let (list, pos) ← insertTaggedValue part.filePathsList path
  some (idx.setPartition h { part with filePathsList := list }, pos)

def insertObjectPath (idx : IndexAnchor) (h : Nat) (path : CharPtr) : Option (IndexAnchor × Nat) := do
  let part ← idx.partitions[h]?
  let (list, pos) ← insertTaggedValue part.objectPathsList path
  some (idx.setPartition h { part with objectPathsList := list }, pos)

def makeFileObjPair (idx : IndexAnchor) (parallelIndexPos : Nat) (filePath objPath : CharPtr) :
    Option (IndexAnchor × FileObjPair) := do
  let (idx, filePos) ← insertFilePath idx parallelIndexPos filePath
  let (idx, objPos) ← insertObjectPath idx parallelIndexPos objPath
  some (idx, ⟨parallelIndexPos, filePos, objPos⟩)

def indexingNumeric (parallelIndexPos : Nat) (attrVal : NumericArray) (attributeValueLength : Nat)
    (filePath objPath : CharPtr) (s : IndexAnchor × AttrLeaf FileObjPair) :
    Option (IndexAnchor × AttrLeaf FileObjPair) :=
  (List.range attributeValueLength).foldlM (fun (idx, leafCnt) i => do
    let (idx, pair) ← makeFileObjPair idx parallelIndexPos filePath objPath
    let leafCnt ← leafCnt.pushNumeric (leafCnt.numericKey attrVal i) pair
    some (idx, leafCnt)) s

def indexingString (parallelIndexPos : Nat) (attrVal : List StringRef)
    (filePath objPath : CharPtr) (s : IndexAnchor × AttrLeaf FileObjPair) :
    Option (IndexAnchor × AttrLeaf FileObjPair) :=
  attrVal.foldlM (fun (idx, leafCnt) val => do
    let (idx, pair) ← makeFileObjPair idx parallelIndexPos filePath objPath
    let leafCnt ← leafCnt.pushString val.text pair
    some (idx, leafCnt)) (s.1, s.2.prepareString)

/-- The leaf made for a name that is not in the name tree, and `into_art`. The
case of strings has no `break`, so that it also runs the default case. -/
def newLeaf : AttrType → AttrLeaf π × Bool
  | .integer => (⟨true, false, some (Rbt.create .int), none⟩, true)
  | .float => (⟨true, true, some (Rbt.create .double), none⟩, true)
  | .string => (⟨false, false, none, some []⟩, false)
  | .unknown => (⟨false, false, none, none⟩, false)

def indexingByType (h : Nat) (attr : MetaAttribute) (s : IndexAnchor × AttrLeaf FileObjPair) :
    Option (IndexAnchor × AttrLeaf FileObjPair) :=
  match attr.attributeValue with
  | .integer vals beyond =>
    indexingNumeric h (.ints vals beyond) vals.length attr.filePathStr attr.objPathStr s
  | .float vals => indexingNumeric h (.doubles vals) vals.length attr.filePathStr attr.objPathStr s
  | .string vals => indexingString h vals attr.filePathStr attr.objPathStr s
  | .unknown _ => some s

def IndexAnchor.linkLeaf (idx : IndexAnchor) (h : Nat) (name : CString)
    (leafCnt : AttrLeaf FileObjPair) : Option IndexAnchor := do
  let part ← idx.partitions[h]?
  some (idx.setPartition h { part with rootArt := AssocMap.insert part.rootArt name leafCnt })

def createInMemIndexForAttr (idx : IndexAnchor) (attr : MetaAttribute) : Option IndexAnchor := do
  let h := djb2Hash attr.attrName % idx.parallelism
  let part ← idx.partitions[h]?
  match AssocMap.search part.rootArt attr.attrName with
  | some leafCnt =>
    let (idx, leafCnt) ← indexingByType h attr (idx, leafCnt)
    idx.linkLeaf h attr.attrName leafCnt
  | none =>
    let (leafCnt, intoArt) := newLeaf attr.attributeValue.type
    let (idx, leafCnt) ← indexingByType h attr (idx, leafCnt)
    if intoArt then idx.linkLeaf h attr.attrName leafCnt else some idx

def indexAll (parallelism : Nat) (attrs : List Attribute) : Option IndexAnchor :=
  attrs.foldlM (fun idx a => createInMemIndexForAttr idx a.toMeta) (initInMemIndex parallelism)

end Miqs.Index
