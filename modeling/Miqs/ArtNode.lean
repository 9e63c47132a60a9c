import Miqs.CArray
import Miqs.CData

/-! The nodes of the adaptive radix tree: four layouts of one map from characters to children,
which grow and shrink into one another. A node is the header `art_node` with the two arrays that
follow it; the array of a pointer is NULL where nothing was stored. -/
namespace Miqs.Radix
open Miqs.CArray Miqs.CData
variable {V : Type}

inductive NodeType where
  | node4
  | node16
  | node48
  | node256
  deriving DecidableEq

/-- `art_node`, `keys` and `children`; the last two have as many cells as `type` says. -/
structure ArtInner (α : Type) where
  type : NodeType
  numChildren : Nat
  partialLen : Nat
  partialBytes : Nat → UInt8
  keys : Nat → UInt8
  children : Nat → α

inductive ArtNode (V : Type) where
  | null
  | leaf (key : CString) (value : V)
  | inner (n : ArtInner (ArtNode V))

def ArtNode.isNull : ArtNode V → Bool
  | .null => true
  | _ => false

/-- Induction over the nodes below a node. -/
@[elab_as_elim]
theorem ArtNode.induction {P : ArtNode V → Prop} (null : P .null) (leaf : ∀ key value, P (.leaf key value))
    (inner : ∀ n : ArtInner (ArtNode V), (∀ i, P (n.children i)) → P (.inner n)) : ∀ x, P x
  | .null => null
  | .leaf key value => leaf key value
  | .inner ⟨_, _, _, _, _, children⟩ => inner _ fun i => ArtNode.induction null leaf inner (children i)

def maxPrefixLen : Nat := 10

def allocNode (type : NodeType) : ArtInner (ArtNode V) where
  type := type
  numChildren := 0
  partialLen := 0
  partialBytes := fun _ => 0
  keys := fun _ => 0
  children := fun _ => .null

def copyHeader (dest src : ArtInner (ArtNode V)) : ArtInner (ArtNode V) :=
  { dest with
    numChildren := src.numChildren
    partialLen := src.partialLen
    partialBytes := copyFrom dest.partialBytes src.partialBytes 0 (min maxPrefixLen src.partialLen) }

/-- The cell of `children` for a character. In a `node16` it is the lowest bit of the masked
comparison with all keys. -/
def findChild (n : ArtInner (ArtNode V)) (c : UInt8) : Option Nat :=
  match n.type with
  | .node4 => (List.range n.numChildren).find? fun i => n.keys i = c
  | .node16 => (List.range 16).find? fun i => n.keys i = c ∧ i < n.numChildren
  | .node48 => if n.keys c.toNat = 0 then none else some ((n.keys c.toNat).toNat - 1)
  | .node256 => if (n.children c.toNat).isNull then none else some c.toNat

def setChild (n : ArtInner (ArtNode V)) (i : Nat) (child : ArtNode V) : ArtInner (ArtNode V) :=
  { n with children := Function.update n.children i child }

def present (n : ArtInner (ArtNode V)) : List Nat :=
  (List.range 256).filter fun i =>
    match n.type with
    | .node256 => !(n.children i).isNull
    | _ => n.keys i ≠ 0

def edgeSlots (n : ArtInner (ArtNode V)) : List (UInt8 × Nat) :=
  match n.type with
  | .node4 => (List.range n.numChildren).map fun i => (n.keys i, i)
  | .node16 => (List.range n.numChildren).map fun i => (n.keys i, i)
  | .node48 => (present n).map fun i => (UInt8.ofNat i, (n.keys i).toNat - 1)
  | .node256 => (present n).map fun i => (UInt8.ofNat i, i)

/-- `num_children` is a byte, which counts 256 children as none. -/
def addChild256 (n : ArtInner (ArtNode V)) (c : UInt8) (child : ArtNode V) : ArtInner (ArtNode V) :=
  { n with
    numChildren := (n.numChildren + 1) % 256
    children := Function.update n.children c.toNat child }

def growTo256 (n : ArtInner (ArtNode V)) : ArtInner (ArtNode V) :=
  { copyHeader (allocNode .node256) n with
    children := fun i => if n.keys i = 0 then .null else n.children ((n.keys i).toNat - 1) }

def fillSlot (n : ArtInner (ArtNode V)) (pos : Nat) (c : UInt8) (child : ArtNode V) : ArtInner (ArtNode V) :=
  { n with
    numChildren := n.numChildren + 1
    keys := Function.update n.keys c.toNat (UInt8.ofNat (pos + 1))
    children := Function.update n.children pos child }

def addChild48 (n : ArtInner (ArtNode V)) (c : UInt8) (child : ArtNode V) : ArtInner (ArtNode V) :=
  if n.numChildren < 48 then
    fillSlot n (((List.range 48).find? fun pos => (n.children pos).isNull).getD 48) c child
  else addChild256 (growTo256 n) c child

def growTo48 (n : ArtInner (ArtNode V)) : ArtInner (ArtNode V) :=
  { copyHeader (allocNode .node48) n with
    keys := (List.range n.numChildren).foldl
      (fun keys i => Function.update keys (n.keys i).toNat (UInt8.ofNat (i + 1))) fun _ => 0
    children := copyFrom (fun _ => .null) n.children 0 n.numChildren }

def signed (c : UInt8) : Int := if c < 128 then c.toNat else c.toNat - 256

def insertRow (n : ArtInner (ArtNode V)) (idx : Nat) (c : UInt8) (child : ArtNode V) : ArtInner (ArtNode V) :=
  { n with
    numChildren := n.numChildren + 1
    keys := insertAt n.keys n.numChildren idx c
    children := insertAt n.children n.numChildren idx child }

def addChild16 (n : ArtInner (ArtNode V)) (c : UInt8) (child : ArtNode V) : ArtInner (ArtNode V) :=
  if n.numChildren < 16 then
    let idx := ((List.range 16).find? fun i => signed c < signed (n.keys i) ∧ i < n.numChildren).getD
      n.numChildren
    insertRow n idx c child
  else addChild48 (growTo48 n) c child

def growTo16 (n : ArtInner (ArtNode V)) : ArtInner (ArtNode V) :=
  { copyHeader (allocNode .node16) n with
    keys := copyFrom (fun _ => 0) n.keys 0 n.numChildren
    children := copyFrom (fun _ => .null) n.children 0 n.numChildren }

def addChild4 (n : ArtInner (ArtNode V)) (c : UInt8) (child : ArtNode V) : ArtInner (ArtNode V) :=
  if n.numChildren < 4 then
    let idx := ((List.range n.numChildren).find? fun i => c < n.keys i).getD n.numChildren
    insertRow n idx c child
  else addChild16 (growTo16 n) c child

def addChild (n : ArtInner (ArtNode V)) (c : UInt8) (child : ArtNode V) : ArtInner (ArtNode V) :=
  match n.type with
  | .node4 => addChild4 n c child
  | .node16 => addChild16 n c child
  | .node48 => addChild48 n c child
  | .node256 => addChild256 n c child

def shrinkTo48 (n : ArtInner (ArtNode V)) : ArtInner (ArtNode V) :=
  { copyHeader (allocNode .node48) n with
    keys := fun i => if i ∈ present n then UInt8.ofNat ((present n).idxOf i + 1) else 0
    children := fun pos => ((present n)[pos]?).elim .null n.children }

def clearChild (n : ArtInner (ArtNode V)) (c : UInt8) : ArtInner (ArtNode V) :=
  { n with
    numChildren := (n.numChildren + 255) % 256
    children := Function.update n.children c.toNat .null }

def removeChild256 (n : ArtInner (ArtNode V)) (c : UInt8) : ArtInner (ArtNode V) :=
  let n := clearChild n c
  if n.numChildren = 37 then shrinkTo48 n else n

def shrinkTo16 (n : ArtInner (ArtNode V)) : ArtInner (ArtNode V) :=
  { copyHeader (allocNode .node16) n with
    keys := fun child => UInt8.ofNat ((present n).getD child 0)
    children := fun child => ((present n)[child]?).elim .null fun i => n.children ((n.keys i).toNat - 1) }

def clearSlot (n : ArtInner (ArtNode V)) (c : UInt8) : ArtInner (ArtNode V) :=
  { n with
    numChildren := n.numChildren - 1
    keys := Function.update n.keys c.toNat 0
    children := Function.update n.children ((n.keys c.toNat).toNat - 1) .null }

def removeChild48 (n : ArtInner (ArtNode V)) (c : UInt8) : ArtInner (ArtNode V) :=
  let n := clearSlot n c
  if n.numChildren = 12 then shrinkTo16 n else n

def shrinkTo4 (n : ArtInner (ArtNode V)) : ArtInner (ArtNode V) :=
  { copyHeader (allocNode .node4) n with
    keys := copyFrom (fun _ => 0) n.keys 0 4
    children := copyFrom (fun _ => .null) n.children 0 4 }

def removeRow (n : ArtInner (ArtNode V)) (pos : Nat) : ArtInner (ArtNode V) :=
  { n with
    numChildren := n.numChildren - 1
    keys := removeAt n.keys n.numChildren pos
    children := removeAt n.children n.numChildren pos }

def removeChild16 (n : ArtInner (ArtNode V)) (pos : Nat) : ArtInner (ArtNode V) :=
  let n := removeRow n pos
  if n.numChildren = 3 then shrinkTo4 n else n

def concatenatePrefix (n child : ArtInner (ArtNode V)) : ArtInner (ArtNode V) :=
  let p := if n.partialLen < maxPrefixLen then
      (Function.update n.partialBytes n.partialLen (n.keys 0), n.partialLen + 1)
    else (n.partialBytes, n.partialLen)
  let p := if p.2 < maxPrefixLen then
      let subPrefix := min child.partialLen (maxPrefixLen - p.2)
      ((fun i => if p.2 ≤ i ∧ i < p.2 + subPrefix then child.partialBytes (i - p.2) else p.1 i), p.2 + subPrefix)
    else p
  { child with
    partialBytes := copyFrom child.partialBytes p.1 0 (min p.2 maxPrefixLen)
    partialLen := child.partialLen + (n.partialLen + 1) }

def onlyChild (n : ArtInner (ArtNode V)) : ArtNode V :=
  match n.children 0 with
  | .inner child => .inner (concatenatePrefix n child)
  | child => child

def removeChild4 (n : ArtInner (ArtNode V)) (pos : Nat) : ArtNode V :=
  let n := removeRow n pos
  if n.numChildren = 1 then onlyChild n else .inner n

def removeChild (n : ArtInner (ArtNode V)) (c : UInt8) (pos : Nat) : ArtNode V :=
  match n.type with
  | .node4 => removeChild4 n pos
  | .node16 => .inner (removeChild16 n pos)
  | .node48 => .inner (removeChild48 n c)
  | .node256 => .inner (removeChild256 n c)

end Miqs.Radix
