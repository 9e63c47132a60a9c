import Miqs.ArtNode
import Miqs.Runs

/-! Search, insertion, deletion and iteration in the adaptive radix tree. -/
namespace Miqs.Radix
open Miqs.CArray Miqs.CData Miqs.Runs
variable {V : Type}

/-- What the memory holds behind the terminator of a key. -/
abbrev Behind := CString → Nat → UInt8

def charAt (behind : Behind) (key : CString) (i : Nat) : UInt8 :=
  if i ≤ key.bytes.length then key.bytes.getD i 0 else behind key i

def checkPrefix (behind : Behind) (n : ArtInner (ArtNode V)) (key : CString) (depth : Nat) : Nat :=
  compareFrom n.partialBytes (fun i => charAt behind key (depth + i)) 0
    (min (min n.partialLen maxPrefixLen) (key.bytes.length - depth))

def searchFrom (behind : Behind) (key : CString) : ArtNode V → Nat → Option V
  | .null, _ => none
  | .leaf k value, _ => if k = key then some value else none
  | .inner ⟨type, num, len, bytes, keys, children⟩, depth =>
    if len ≠ 0 ∧ checkPrefix behind ⟨type, num, len, bytes, keys, children⟩ key depth ≠ min maxPrefixLen len then
      none
    else
      match findChild ⟨type, num, len, bytes, keys, children⟩ (charAt behind key (depth + len)) with
      | some i => searchFrom behind key (children i) (depth + len + 1)
      | none => none

def firstSlot (n : ArtInner (ArtNode V)) : Option Nat :=
  match n.type with
  | .node4 => some 0
  | .node16 => some 0
  | .node48 => ((List.range 256).find? fun i => n.keys i ≠ 0).map fun i => (n.keys i).toNat - 1
  | .node256 => (List.range 256).find? fun i => !(n.children i).isNull

def minimum : ArtNode V → Option (CString × V)
  | .null => none
  | .leaf key value => some (key, value)
  | .inner ⟨type, num, len, bytes, keys, children⟩ =>
    match firstSlot ⟨type, num, len, bytes, keys, children⟩ with
    | some i => minimum (children i)
    | none => none

def longestCommonPrefix (behind : Behind) (l1 l2 : CString) (depth : Nat) : Nat :=
  compareFrom (fun i => charAt behind l1 (depth + i)) (fun i => charAt behind l2 (depth + i)) 0
    (min l1.bytes.length l2.bytes.length - depth)

/-- Behind the stored part of the path the comparison goes on with the characters of the least leaf. -/
def prefixMismatch (behind : Behind) (n : ArtInner (ArtNode V)) (key : CString) (depth : Nat) : Nat :=
  let maxCmp := min (min maxPrefixLen n.partialLen) (key.bytes.length - depth)
  let idx := compareFrom n.partialBytes (fun i => charAt behind key (depth + i)) 0 maxCmp
  if idx < maxCmp then idx
  else if n.partialLen > maxPrefixLen then
    match minimum (.inner n) with
    | some (l, _) =>
      compareFrom (fun i => charAt behind l (depth + i)) (fun i => charAt behind key (depth + i)) idx
        (min l.bytes.length key.bytes.length - depth - idx)
    | none => idx
  else idx

def splitLeaf (behind : Behind) (l : CString) (old : V) (key : CString) (value : V) (depth : Nat) : ArtNode V :=
  let longest := longestCommonPrefix behind l key depth
  let new : ArtInner (ArtNode V) :=
    { allocNode .node4 with
      partialLen := longest
      partialBytes := copyFrom (fun _ => 0) (charAt behind key) depth (min maxPrefixLen longest) }
  .inner (addChild4 (addChild4 new (charAt behind l (depth + longest)) (.leaf l old))
    (charAt behind key (depth + longest)) (.leaf key value))

def splitNode (behind : Behind) (n : ArtInner (ArtNode V)) (key : CString) (value : V) (depth diff : Nat) :
    ArtNode V :=
  let new : ArtInner (ArtNode V) :=
    { allocNode .node4 with
      partialLen := diff
      partialBytes := copyFrom (fun _ => 0) n.partialBytes 0 (min maxPrefixLen diff) }
  let rest := n.partialLen - (diff + 1)
  let new :=
    if n.partialLen ≤ maxPrefixLen then
      addChild4 new (n.partialBytes diff) (.inner { n with
        partialLen := rest
        partialBytes := copyFrom n.partialBytes n.partialBytes (diff + 1) (min maxPrefixLen rest) })
    else
      match minimum (.inner n) with
      | some (l, _) =>
        addChild4 new (charAt behind l (depth + diff)) (.inner { n with
          partialLen := rest
          partialBytes := copyFrom n.partialBytes (charAt behind l) (depth + diff + 1) (min maxPrefixLen rest) })
      | none => new
  .inner (addChild4 new (charAt behind key (depth + diff)) (.leaf key value))

def recursiveInsert (behind : Behind) (key : CString) (value : V) : ArtNode V → Nat → ArtNode V × Option V
  | .null, _ => (.leaf key value, none)
  | .leaf l old, depth =>
    if l = key then (.leaf l value, some old) else (splitLeaf behind l old key value depth, none)
  | .inner ⟨type, num, len, bytes, keys, children⟩, depth =>
    if len ≠ 0 ∧ prefixMismatch behind ⟨type, num, len, bytes, keys, children⟩ key depth < len then
      (splitNode behind ⟨type, num, len, bytes, keys, children⟩ key value depth
        (prefixMismatch behind ⟨type, num, len, bytes, keys, children⟩ key depth), none)
    else
      match findChild ⟨type, num, len, bytes, keys, children⟩ (charAt behind key (depth + len)) with
      | some i =>
        let child := recursiveInsert behind key value (children i) (depth + len + 1)
        (.inner (setChild ⟨type, num, len, bytes, keys, children⟩ i child.1), child.2)
      | none =>
        (.inner (addChild ⟨type, num, len, bytes, keys, children⟩ (charAt behind key (depth + len))
          (.leaf key value)), none)

def ArtNode.leaf? : ArtNode V → Option (CString × V)
  | .leaf key value => some (key, value)
  | _ => none

def recursiveDelete (behind : Behind) (key : CString) : ArtNode V → Nat → ArtNode V × Option V
  | .null, _ => (.null, none)
  | .leaf l value, _ => if l = key then (.null, some value) else (.leaf l value, none)
  | .inner ⟨type, num, len, bytes, keys, children⟩, depth =>
    if len ≠ 0 ∧ checkPrefix behind ⟨type, num, len, bytes, keys, children⟩ key depth ≠ min maxPrefixLen len then
      (.inner ⟨type, num, len, bytes, keys, children⟩, none)
    else
      match findChild ⟨type, num, len, bytes, keys, children⟩ (charAt behind key (depth + len)) with
      | none => (.inner ⟨type, num, len, bytes, keys, children⟩, none)
      | some i =>
        match (children i).leaf? with
        | some (l, value) =>
          if l = key then
            (removeChild ⟨type, num, len, bytes, keys, children⟩ (charAt behind key (depth + len)) i, some value)
          else (.inner ⟨type, num, len, bytes, keys, children⟩, none)
        | none =>
          let child := recursiveDelete behind key (children i) (depth + len + 1)
          (.inner (setChild ⟨type, num, len, bytes, keys, children⟩ i child.1), child.2)

def lastSlot (n : ArtInner (ArtNode V)) : Option Nat :=
  match n.type with
  | .node4 => some (n.numChildren - 1)
  | .node16 => some (n.numChildren - 1)
  | .node48 => ((List.range 256).reverse.find? fun i => n.keys i ≠ 0).map fun i => (n.keys i).toNat - 1
  | .node256 => (List.range 256).reverse.find? fun i => !(n.children i).isNull

def maximum : ArtNode V → Option (CString × V)
  | .null => none
  | .leaf key value => some (key, value)
  | .inner ⟨type, num, len, bytes, keys, children⟩ =>
    match lastSlot ⟨type, num, len, bytes, keys, children⟩ with
    | some i => maximum (children i)
    | none => none

section Callback
variable {σ : Type} (cb : σ → CString → V → σ × Int)

def recursiveIter : ArtNode V → σ → σ × Int
  | .null, data => (data, 0)
  | .leaf key value, data => cb data key value
  | .inner ⟨type, num, len, bytes, keys, children⟩, data =>
    whileZero (fun data e => recursiveIter (children e.2) data) data
      (edgeSlots ⟨type, num, len, bytes, keys, children⟩)

def leafPrefixMatches (l key : CString) : Bool := key.bytes.isPrefixOf l.bytes

def iterPrefixFrom (behind : Behind) (key : CString) : ArtNode V → Nat → σ → σ × Int
  | .null, _, data => (data, 0)
  | .leaf l value, _, data => if leafPrefixMatches l key then cb data l value else (data, 0)
  | .inner ⟨type, num, len, bytes, keys, children⟩, depth, data =>
    if depth = key.bytes.length then
      match minimum (.inner ⟨type, num, len, bytes, keys, children⟩) with
      | some (l, _) =>
        if leafPrefixMatches l key then recursiveIter cb (.inner ⟨type, num, len, bytes, keys, children⟩) data
        else (data, 0)
      | none => (data, 0)
    else
      let mismatch := min (prefixMismatch behind ⟨type, num, len, bytes, keys, children⟩ key depth) len
      if len ≠ 0 ∧ mismatch = 0 then (data, 0)
      else if len ≠ 0 ∧ depth + mismatch = key.bytes.length then
        recursiveIter cb (.inner ⟨type, num, len, bytes, keys, children⟩) data
      else
        match findChild ⟨type, num, len, bytes, keys, children⟩ (charAt behind key (depth + len)) with
        | some i => iterPrefixFrom behind key (children i) (depth + len + 1) data
        | none => (data, 0)

end Callback

structure ArtTree (V : Type) where
  root : ArtNode V
  size : Nat

def artTreeInit : ArtTree V := ⟨.null, 0⟩

def artSearch (behind : Behind) (t : ArtTree V) (key : CString) : Option V := searchFrom behind key t.root 0

def artInsert (behind : Behind) (t : ArtTree V) (key : CString) (value : V) : ArtTree V × Option V :=
  let r := recursiveInsert behind key value t.root 0
  (⟨r.1, if r.2.isNone then t.size + 1 else t.size⟩, r.2)

def artDelete (behind : Behind) (t : ArtTree V) (key : CString) : ArtTree V × Option V :=
  let r := recursiveDelete behind key t.root 0
  (⟨r.1, if r.2.isSome then t.size - 1 else t.size⟩, r.2)

def artMinimum (t : ArtTree V) : Option (CString × V) := minimum t.root

def artMaximum (t : ArtTree V) : Option (CString × V) := maximum t.root

def artIter {σ : Type} (cb : σ → CString → V → σ × Int) (t : ArtTree V) (data : σ) : σ × Int :=
  recursiveIter cb t.root data

def artIterPrefix {σ : Type} (cb : σ → CString → V → σ × Int) (behind : Behind) (t : ArtTree V) (key : CString)
    (data : σ) : σ × Int :=
  iterPrefixFrom cb behind key t.root 0 data

def sizeIncr (size : Nat) (_ : CString) (_ : V) : Nat × Int := (size + 1, 0)

def artIterSize (t : ArtTree V) : Nat := (artIter sizeIncr t 0).1

end Miqs.Radix
