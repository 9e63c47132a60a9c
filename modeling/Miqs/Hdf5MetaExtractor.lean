import Miqs.CData

/-! Scanning HDF5 files. The library calls one operator per object, and that calls
another per attribute; both keep linked lists and run the collector's callbacks. A
file is given by what the library visits, in the order it visits it. -/
namespace Miqs.Hdf5
open Miqs.CData
variable {α σ : Type}

inductive H5ObjectType where
  | unknown
  | group
  | dataset
  | namedDatatype
  deriving DecidableEq

structure H5Attribute where
  name : CString
  value : AttrValue

structure H5Object where
  name : CString
  type : H5ObjectType
  attrs : List H5Attribute

structure H5File where
  path : CString
  objects : List H5Object
  links : List H5Object

/-- A node. Nodes are numbered in the order they are linked, so that the head is
node 0; only the head has a tail pointer. -/
structure ListNode (α : Type) where
  item : α
  next : Option Nat
  head : Option Nat
  tail : Option Nat

def ListNode.unlinked (item : α) : ListNode α := ⟨item, none, none, none⟩

def appendObject (list : List (ListNode α)) (item : α) : List (ListNode α) :=
  match list with
  | [] => [.unlinked item]
  | head :: nodes =>
    let pos := list.length
    let linked := match head.tail with
      | none => { head with next := some pos, tail := some pos } :: nodes
      | some tail =>
        (list.modify tail fun n => { n with next := some pos }).modify 0 fun n =>
          { n with tail := some pos }
    linked ++ [{ ListNode.unlinked item with head := some 0 }]

/-- The list code of `attr_info`, where the next node is always that of the head. -/
def appendAttribute (list : List (ListNode α)) (item : α) : List (ListNode α) :=
  match list with
  | [] => [.unlinked item]
  | head :: nodes =>
    let pos := list.length
    ({ head with next := some pos, tail := some pos } :: nodes) ++
      [{ ListNode.unlinked item with head := some 0 }]

inductive ObjectType where
  | unknown
  | group
  | dataset
  deriving DecidableEq

def getMiqsTypeFromH5 : H5ObjectType → ObjectType
  | .group => .group
  | .dataset => .dataset
  | .namedDatatype => .unknown
  | .unknown => .unknown

structure DataObject where
  objName : CString
  objType : ObjectType
  numAttrs : Nat
  attrLinkedList : List (ListNode MetaAttribute)

structure MetadataCollector (σ : Type) where
  objectLinkedList : List (ListNode DataObject)
  numObjs : Nat
  totalNumAttrs : Nat
  opdata : σ
  onObj : Option (σ → DataObject → Option σ)
  onAttr : Option (σ → MetaAttribute → Option (σ × MetaAttribute))

def initMetadataCollector (numObjs : Nat) (opdata : σ) (objListHead : List (ListNode DataObject))
    (onObj : Option (σ → DataObject → Option σ))
    (onAttr : Option (σ → MetaAttribute → Option (σ × MetaAttribute))) : MetadataCollector σ :=
  ⟨objListHead, numObjs, 0, opdata, onObj, onAttr⟩

def attrInfo (onAttr : Option (σ → MetaAttribute → Option (σ × MetaAttribute)))
    (s : σ × DataObject) (attr : H5Attribute) : Option (σ × DataObject) := do
  let currAttr : MetaAttribute := ⟨attr.name, attr.value, .null, .null⟩
  let (opdata, currAttr) ← (match onAttr with
    | none => some (s.1, currAttr)
    | some onAttr => onAttr s.1 currAttr)
  some (opdata, { s.2 with
    attrLinkedList := appendAttribute s.2.attrLinkedList currAttr
    numAttrs := s.2.numAttrs + 1 })

def opFunc (metaColl : MetadataCollector σ) (obj : H5Object) : Option (MetadataCollector σ) := do
  let n := obj.attrs.length
  let mdo : DataObject := ⟨obj.name, getMiqsTypeFromH5 obj.type, n, []⟩
  let (opdata, mdo) ← (if n > 0 then
      obj.attrs.foldlM (attrInfo metaColl.onAttr) (metaColl.opdata, mdo)
    else some (metaColl.opdata, mdo))
  let opdata ← (match metaColl.onObj with
    | none => some opdata
    | some onObj => onObj opdata mdo)
  some { metaColl with
    totalNumAttrs := metaColl.totalNumAttrs + n
    objectLinkedList := appendObject metaColl.objectLinkedList mdo
    numObjs := metaColl.numObjs + 1
    opdata }

def scanHdf5 (file : H5File) (metaCollector : MetadataCollector σ) (isVisitLink : Bool) :
    Option (MetadataCollector σ) := do
  let metaCollector ← file.objects.foldlM opFunc metaCollector
  if isVisitLink then file.links.foldlM opFunc metaCollector else some metaCollector

end Miqs.Hdf5
