import Miqs.Querying

/-! The MDB file: the writer iterates over the trees of the index, the reader
rebuilds them with counted loops. A result `none` is a fault, as when a reader
uses the NULL of a field it did not find. Memory allocation does not fail. -/
namespace Miqs.Index
open Miqs.CData Miqs.BinFileOps Miqs.KeyedTree Miqs.TokenStream
variable [Descent NumKey] [AssocMap.Iteration CString]

def appendFileObjPair (pair : FileObjPair) : List Field :=
  miqsAppendSizeT pair.fileListPos ++ miqsAppendSizeT pair.objListPos

def appendFileObjPairLinkedList (list : List FileObjPair) : List Field :=
  miqsAppendSizeT list.length ++ list.flatMap appendFileObjPair

def appendStringValueNode (node : CString × List FileObjPair) : List Field :=
  miqsAppendStringWithLen node.1.bytes ++ appendFileObjPairLinkedList node.2

def appendIntValueNode (node : NumKey × List FileObjPair) : List Field :=
  miqsAppendInt node.1.asInt ++ appendFileObjPairLinkedList node.2

def appendFloatValueNode (node : NumKey × List FileObjPair) : List Field :=
  miqsAppendDouble node.1.asDouble ++ appendFileObjPairLinkedList node.2

def appendStringValueTree (art : Art (List FileObjPair)) : List Field :=
  miqsAppendType 3 ++ (miqsAppendUint64 art.length ++
    (AssocMap.iter art).flatMap appendStringValueNode)

def Rbt.walk (t : Rbt FileObjPair) : List (NumKey × List FileObjPair) :=
  KeyedTree.walk t.cmpKeysCb.eval t.nodes

def appendNumericValueTree (rbt : Rbt FileObjPair) (isFloat : Bool) : List Field :=
  miqsAppendType (if isFloat then 2 else 1) ++ (miqsAppendUint64 rbt.nodes.length ++
    rbt.walk.flatMap (if isFloat then appendFloatValueNode else appendIntValueNode))

def appendAttrValues (leaf : AttrLeaf FileObjPair) : Option (List Field) :=
  if leaf.isNumeric then leaf.rbt.map fun rbt => appendNumericValueTree rbt leaf.isFloat
  else leaf.art.map appendStringValueTree

def appendAttrNameNode (node : CString × AttrLeaf FileObjPair) : Option (List Field) :=
  (appendAttrValues node.2).map fun values => miqsAppendStringWithLen node.1.bytes ++ values

def appendAttrRootTree (art : Art (AttrLeaf FileObjPair)) : Option (List Field) := do
  let nodes ← (AssocMap.iter art).mapM appendAttrNameNode
  some (miqsAppendUint64 art.length ++ nodes.flatten)

def appendPath : Option TaggedValue → Option (List Field)
  | some tagv => (miqsAppendString tagv.tag).map fun tag => tag ++ miqsAppendSizeT tagv.value
  | none => none

def appendPathList (list : LinkedList) : Option (List Field) := do
  let paths ← list.mapM appendPath
  some (miqsAppendSizeT list.length ++ paths.flatten)

/-- What one round of the outer loop writes: the loop over the name trees inside
it has a counter of its own. -/
def appendPartition (idx : IndexAnchor) (part : Partition) : Option (List Field) := do
  let files ← appendPathList part.filePathsList
  let objects ← appendPathList part.objectPathsList
  let trees ← idx.partitions.mapM fun p => appendAttrRootTree p.rootArt
  some (files ++ (objects ++ trees.flatten))

def dumpMdbIndexToDisk (idx : IndexAnchor) : Option (List Field) := do
  let regions ← idx.partitions.mapM (appendPartition idx)
  some (miqsAppendSizeT idx.parallelism ++ regions.flatten)

variable {S : Type} [TokenSource S Field]

def readCharPtr : Option CString → CharPtr
  | some s => .to s
  | none => .null

def readPath (s : LinkedList × DiskStream S) : Option (LinkedList × DiskStream S) := do
  let (tag, d) := miqsReadString s.2
  let (pos, d) := miqsReadSizeT d
  let pos ← pos
  let tagv ← listCreateTaggedValue (readCharPtr tag) pos
  some (listInsertTaggedValue s.1 tagv pos, d)

def readIntoPathList (list : LinkedList) (d : DiskStream S) : Option (LinkedList × DiskStream S) := do
  let (listLen, d) := miqsReadSizeT d
  times (← listLen) readPath (list, d)

/-- Without a list the two positions are read and dropped. The partition of the
new pair is left at 0. -/
def readIntoFileObjList (s : Option (List FileObjPair) × DiskStream S) :
    Option (Option (List FileObjPair) × DiskStream S) :=
  let (filePos, d) := miqsReadSizeT s.2
  let (objPos, d) := miqsReadSizeT d
  match s.1 with
  | none => some (none, d)
  | some list => do some (some (list ++ [⟨0, ← filePos, ← objPos⟩]), d)

def readFileObjPathPairList (vtreeLeaf : Bool) (d : DiskStream S) :
    Option (Option (List FileObjPair) × DiskStream S) := do
  let (listLen, d) := miqsReadSizeT d
  times (← listLen) readIntoFileObjList (if vtreeLeaf then some [] else none, d)

def readValueAndPairs {κ : Type} (value : Option κ)
    (insert : AttrLeaf FileObjPair → κ → List FileObjPair → Option (AttrLeaf FileObjPair))
    (leaf : AttrLeaf FileObjPair) (numKvPairs : Nat) (d : DiskStream S) :
    Option ((AttrLeaf FileObjPair × Nat) × DiskStream S) := do
  match value with
  | some v =>
    let (pairs, d) ← readFileObjPathPairList true d
    some ((← insert leaf v (← pairs), numKvPairs + 1), d)
  | none =>
    let (_, d) ← readFileObjPathPairList false d
    some ((leaf, numKvPairs), d)

def AttrLeaf.insertString (leaf : AttrLeaf FileObjPair) (s : CString) (pairs : List FileObjPair) :
    Option (AttrLeaf FileObjPair) :=
  leaf.art.map fun t => { leaf with art := some (AssocMap.insert t s pairs) }

def AttrLeaf.addKey (leaf : AttrLeaf FileObjPair) (key : NumKey) (pairs : List FileObjPair) :
    Option (AttrLeaf FileObjPair) :=
  leaf.rbt.map fun t => { leaf with rbt := some (t.add key pairs) }

def readAttrValueNode (type : AttrType) (s : (AttrLeaf FileObjPair × Nat) × DiskStream S) :
    Option ((AttrLeaf FileObjPair × Nat) × DiskStream S) :=
  match type with
  | .string =>
    let (value, d) := miqsReadString s.2
    readValueAndPairs value AttrLeaf.insertString s.1.1 s.1.2 d
  | .float =>
    let (value, d) := miqsReadDouble s.2
    readValueAndPairs (value.map NumKey.double) AttrLeaf.addKey s.1.1 s.1.2 d
  | .integer =>
    let (value, d) := miqsReadInt s.2
    readValueAndPairs (value.map NumKey.int) AttrLeaf.addKey s.1.1 s.1.2 d
  | .unknown => readValueAndPairs (none : Option NumKey) AttrLeaf.addKey s.1.1 s.1.2 s.2

def loadedLeaf : AttrType → AttrLeaf FileObjPair
  | .string => ⟨false, false, none, some []⟩
  | .integer => ⟨true, false, some (Rbt.create .int), none⟩
  | .float => ⟨true, true, some (Rbt.create .double), none⟩
  | .unknown => ⟨true, false, none, none⟩

def readAttrValues (numKvPairs : Nat) (d : DiskStream S) :
    Option ((AttrLeaf FileObjPair × Nat) × DiskStream S) := do
  let (tv, d) := miqsReadInt d
  let type := getMiqsTypeFromInt (← tv)
  let (numValues, d) := miqsReadUint64 d
  times (← numValues) (readAttrValueNode type) ((loadedLeaf type, numKvPairs), d)

def readAttrNameNode (s : (IndexAnchor × Nat) × DiskStream S) :
    Option ((IndexAnchor × Nat) × DiskStream S) := do
  let (attrName, d) := miqsReadString s.2
  let attrName ← attrName
  let ((leaf, numKvPairs), d) ← readAttrValues s.1.2 d
  let idx ← s.1.1.linkLeaf (djb2Hash attrName % s.1.1.parallelism) attrName leaf
  some ((idx, numKvPairs), d)

def readIntoAttrRootTree (idx : IndexAnchor) (d : DiskStream S) :
    Option ((IndexAnchor × Nat) × DiskStream S) := do
  let (numAttrs, d) := miqsReadUint64 d
  times (← numAttrs) readAttrNameNode ((idx, 0), d)

def Rbt.addCode (t : Rbt FileObjPair) (key : NumKey) : Nat :=
  if (KeyedTree.find t.cmpKeysCb.eval t.nodes key).isSome then 1 else 0

/-- The code of adding the value that is next in the file. Inserting a string has none, and
pushing a pair to a list returns 0. -/
def addCode (type : AttrType) (leaf : AttrLeaf FileObjPair) (d : DiskStream S) : Nat :=
  let key := match type with
    | .float => (miqsReadDouble d).1.map NumKey.double
    | .integer => (miqsReadInt d).1.map NumKey.int
    | _ => none
  match key, leaf.rbt with
  | some key, some t => t.addCode key
  | _, _ => 0

def readAttrValueNodeRst (type : AttrType) (s : ((AttrLeaf FileObjPair × Nat) × Nat) × DiskStream S) :
    Option (((AttrLeaf FileObjPair × Nat) × Nat) × DiskStream S) := do
  let (leaf, d) ← readAttrValueNode type (s.1.1, s.2)
  some ((leaf, s.1.2 ||| addCode type s.1.1.1 s.2), d)

def readAttrValuesRst (numKvPairs : Nat) (d : DiskStream S) :
    Option (((AttrLeaf FileObjPair × Nat) × Nat) × DiskStream S) := do
  let (tv, d) := miqsReadInt d
  let type := getMiqsTypeFromInt (← tv)
  let (numValues, d) := miqsReadUint64 d
  times (← numValues) (readAttrValueNodeRst type) (((loadedLeaf type, numKvPairs), 0), d)

def readAttrNameNodeRst (s : ((IndexAnchor × Nat) × Nat) × DiskStream S) :
    Option (((IndexAnchor × Nat) × Nat) × DiskStream S) := do
  let (attrName, d) := miqsReadString s.2
  let attrName ← attrName
  let (((leaf, numKvPairs), rst), d) ← readAttrValuesRst s.1.1.2 d
  let idx ← s.1.1.1.linkLeaf (djb2Hash attrName % s.1.1.1.parallelism) attrName leaf
  some (((idx, numKvPairs), s.1.2 ||| rst), d)

def readIntoAttrRootTreeRst (idx : IndexAnchor) (d : DiskStream S) :
    Option (Int × (IndexAnchor × Nat) × DiskStream S) := do
  let (numAttrs, d) := miqsReadUint64 d
  let ((idx, rst), d) ← times (← numAttrs) readAttrNameNodeRst (((idx, 0), 0), d)
  some (if rst = 0 then 1 else 0, idx, d)

def IndexAnchor.setTables (idx : IndexAnchor) (i : Nat) (part : Partition)
    (files objects : LinkedList) : IndexAnchor :=
  { idx.setPartition i ⟨part.rootArt, files, objects⟩ with
    totalNumFiles := idx.totalNumFiles + files.length
    totalNumObjects := idx.totalNumObjects + objects.length }

def readPartition (s : (IndexAnchor × Nat) × DiskStream S) (i : Nat) :
    Option ((IndexAnchor × Nat) × DiskStream S) := do
  let part ← s.1.1.partitions[i]?
  let (files, d) ← readIntoPathList part.filePathsList s.2
  let (objects, d) ← readIntoPathList part.objectPathsList d
  readIntoAttrRootTree (s.1.1.setTables i part files objects) d

def loadAnchor (idxAnchor : Option IndexAnchor) (parallelism : Option Nat) : Option IndexAnchor :=
  match idxAnchor with
  | some idx => some idx
  | none => parallelism.map initInMemIndex

def IndexAnchor.countLoaded (idx : IndexAnchor) (numKvPairs numAttrs : Nat) : IndexAnchor :=
  { idx with
    totalNumKvPairs := idx.totalNumKvPairs + numKvPairs
    totalNumAttrs := idx.totalNumAttrs + numAttrs }

/-- Loading a file that is there and not empty, into the index given or a fresh
one. `numAttrsPtr` is the address of the attribute count that was read last: that
is what `num_attrs_loaded_mdb` is set to. The returned `rst` is never assigned. -/
def loadMdbFileToIndex (numAttrsPtr : Nat) (file : S) (idxAnchor : Option IndexAnchor) :
    Option (Int × IndexAnchor × DiskStream S) := do
  let (parallelism, d) := miqsReadSizeT (DiskStream.mk file false)
  let idx ← loadAnchor idxAnchor parallelism
  let ((idx, numKvPairs), d) ← (List.range idx.parallelism).foldlM readPartition ((idx, 0), d)
  some (0, idx.countLoaded numKvPairs numAttrsPtr, d)

end Miqs.Index
