import Mathlib.Data.List.Basic
import Mathlib.Data.List.TakeWhile
import Mathlib.Tactic.Linarith
import Miqs.AssocMap
import Miqs.TailQueue

/-! The skip list: every layer is a tail queue of wrappers, and the coin flips of an
insertion decide how far up its item goes. A result `none` would be a walk that does not
end or a wild item. -/
namespace Miqs.SkipList
open Miqs.TailQueue
variable {K D : Type}

/-- `&item->wrappers[layer]`, items being numbered in the order they are made. -/
structure Wrapper where
  item : Nat
  layer : Nat
  deriving DecidableEq

structure Skiplist (K D : Type) where
  numLayers : Nat
  items : List (K × D)
  layers : Queues Nat Wrapper

def skiplistCreate (numLayers : Nat) : Skiplist K D := ⟨numLayers, [], Queues.init⟩

namespace Skiplist

def steps (skl : Skiplist K D) : Nat := skl.numLayers * skl.items.length + 2

def start (skl : Skiplist K D) (i : Nat) : Option Wrapper → Option Wrapper
  | some prevItem => skl.layers.ptr (.next ⟨prevItem.item, i⟩)
  | none => skl.layers.ptr (.first i)

def walkLayer (skl : Skiplist K D) (test : K → Bool) (i : Nat) (prevItem : Option Wrapper) :
    Option (Option Wrapper) :=
  skl.layers.advance (fun w => skl.items[w.item]?.map fun item => test item.1) skl.steps prevItem
    (skl.start i prevItem)

/-- The layers `i - 1` to 0. What `path` gets is the wrapper that was passed last, even
if that was in a layer above. -/
def searchLayers (skl : Skiplist K D) (test : K → Bool) :
    Nat → Option Wrapper → (Nat → Option Wrapper) → Option (Option Wrapper × (Nat → Option Wrapper))
  | 0, prevItem, path => some (prevItem, path)
  | i+1, prevItem, path => do
    let prevItem ← skl.walkLayer test i prevItem
    searchLayers skl test i prevItem (Function.update path i prevItem)

def upperLayers (skl : Skiplist K D) (test : K → Bool) : Nat → Option Wrapper → Option (Option Wrapper)
  | 0, prevItem => some prevItem
  | i+1, prevItem => do
    let prevItem ← skl.walkLayer test (i + 1) prevItem
    upperLayers skl test i prevItem

def linkAt (layers : Queues Nat Wrapper) (i : Nat) (at? : Option Wrapper) (w : Wrapper) :
    Queues Nat Wrapper :=
  match at? with
  | some listelm => layers.insertAfter i listelm w
  | none => layers.insertTail i w

def promote (numLayers : Nat) (flips : Nat → Bool) (path : Nat → Option Wrapper) (n : Nat)
    (layers : Queues Nat Wrapper) : Queues Nat Wrapper :=
  ((List.range' 1 (numLayers - 1)).foldl (fun s i =>
    let coin := s.1 && flips i
    (coin, if coin then linkAt s.2 i (path i) ⟨n, i⟩ else s.2)) (true, layers)).2

def addItem (skl : Skiplist K D) (flips : Nat → Bool) (key : K) (value : D)
    (prevItem : Option Wrapper) (path : Nat → Option Wrapper) : Skiplist K D :=
  let n := skl.items.length
  let base := linkAt skl.layers 0 (prevItem.map fun w => ⟨w.item, 0⟩) ⟨n, 0⟩
  { skl with
    items := skl.items ++ [(key, value)]
    layers := promote skl.numLayers flips path n base }

variable (cmp : K → K → Int)

def skiplistSearchInternal (skl : Skiplist K D) (key : K) :
    Option (Option Wrapper × (Nat → Option Wrapper)) :=
  skl.searchLayers (fun k => decide (cmp k key ≤ 0)) skl.numLayers none fun _ => none

def skiplistSearch (skl : Skiplist K D) (key : K) : Option (Option D) := do
  let (prevItem, _) ← skl.skiplistSearchInternal cmp key
  match prevItem with
  | none => some none
  | some w =>
    let item ← skl.items[w.item]?
    some (if cmp item.1 key = 0 then some item.2 else none)

/-- `flips i` is what the coin for layer `i` shows, if it is flipped. -/
def skiplistInsert (skl : Skiplist K D) (flips : Nat → Bool) (key : K) (value : D) :
    Option (Skiplist K D) := do
  let (prevItem, path) ← skl.skiplistSearchInternal cmp key
  match prevItem with
  | none => some (skl.addItem flips key value none path)
  | some w =>
    let item ← skl.items[w.item]?
    if cmp item.1 key = 0 then some { skl with items := skl.items.set w.item (item.1, value) }
    else some (skl.addItem flips key value prevItem path)

def skiplistRangeSearch (skl : Skiplist K D) (beginKey endKey : K) : Option (List D) :=
  if cmp beginKey endKey ≥ 0 then some []
  else do
    let prevItem ← skl.upperLayers (fun k => decide (cmp k beginKey < 0)) (skl.numLayers - 1) none
    let rest ← skl.layers.traverse skl.steps (skl.start 0 prevItem)
    let items ← rest.mapM fun w => skl.items[w.item]?
    some ((items.filter fun item => cmp item.1 beginKey ≥ 0 ∧ cmp item.1 endKey < 0).map Prod.snd)

def insertAll (flips : Nat → Nat → Bool) : Nat → Skiplist K D → List (K × D) → Option (Skiplist K D)
  | _, skl, [] => some skl
  | n, skl, x :: kvs => do insertAll flips (n + 1) (← skl.skiplistInsert cmp (flips n) x.1 x.2) kvs

end Skiplist

end Miqs.SkipList
