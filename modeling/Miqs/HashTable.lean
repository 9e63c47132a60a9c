import Miqs.Buckets
import Miqs.Runs

/-! The hash table: bucket lists that are made when the first key falls into them, and a table that
is doubled when there are more than four items for three buckets. -/
namespace Miqs.Ht
open Miqs.Buckets
variable {D : Type}

structure HtItem (D : Type) where
  hash : UInt32
  key : List UInt8
  data : Option D
  dlen : Nat

/-- `lists` is `iterator_list`, in which every bucket list stands with its index; `items[index]` is
the list with this index. -/
structure HashTable (D : Type) where
  size : Nat
  maxSize : Nat
  count : Nat
  seed : UInt32
  lists : List (Nat × List (HtItem D))

structure Reply (D : Type) where
  ret : Int
  data : Option D
  len : Nat

def htSizeMin : Nat := 128

def htHashOneAtATime (seed : UInt32) (str : List UInt8) : UInt32 :=
  let hash := str.foldl (fun (hash : UInt32) (c : UInt8) =>
    let hash := hash + c.toUInt32
    let hash := hash + (hash <<< 10)
    hash ^^^ (hash >>> 6)) (seed + UInt32.ofNat str.length)
  let hash := hash + (hash <<< 3)
  let hash := hash ^^^ (hash >>> 11)
  hash + (hash <<< 15)

def htCreate (initialSize maxSize : Nat) (seed : UInt32) : HashTable D where
  size := if initialSize > htSizeMin then initialSize else htSizeMin
  maxSize := maxSize
  count := 0
  seed := seed
  lists := []

def htClear (t : HashTable D) : HashTable D := { t with count := t.count - (items t.lists).length, lists := [] }

def htGrowTable (t : HashTable D) : HashTable D :=
  if t.maxSize ≠ 0 ∧ t.size ≥ t.maxSize then t
  else
    let newSize := if t.maxSize ≠ 0 ∧ 2 * t.size > t.maxSize then t.maxSize else 2 * t.size
    { t with
      size := newSize
      lists := distribute (fun item => item.hash.toNat % newSize) (items t.lists) }

def growIfFull (t : HashTable D) : HashTable D :=
  if t.count > t.size + t.size / 3 ∧ (t.maxSize = 0 ∨ t.size < t.maxSize) then htGrowTable t else t

def HashTable.index (t : HashTable D) (key : List UInt8) : Nat := (htHashOneAtATime t.seed key).toNat % t.size

def hasKey (key : List UInt8) (item : HtItem D) : Bool := item.key = key

/-- An item without data counts as none, so that the key gets a second item. -/
def htSetInternal (t : HashTable D) (key : List UInt8) (data : Option D) (dlen : Nat) (inx : Bool) :
    HashTable D × Reply D :=
  if key = [] then (t, ⟨-1, none, 0⟩)
  else
    let list := bucket t.lists (t.index key)
    let found := list.find? (hasKey key)
    let plen := found.elim 0 HtItem.dlen
    match found.bind HtItem.data with
    | none =>
      let item := { hash := htHashOneAtATime t.seed key, key := key, data := data, dlen := dlen }
      (growIfFull { t with
        count := t.count + 1
        lists := AssocMap.insert t.lists (t.index key) (list ++ [item]) }, ⟨0, none, plen⟩)
    | some prev =>
      if inx then (t, ⟨1, some prev, plen⟩)
      else
        (growIfFull { t with
          lists := AssocMap.insert t.lists (t.index key)
            (updateFirst (hasKey key) (fun item => { item with data := data, dlen := dlen }) list) },
          ⟨0, some prev, plen⟩)

def htCallInternal (t : HashTable D) (key : List UInt8) (cb : Option D → Nat → Int × Option D × Nat) :
    HashTable D × Reply D :=
  match AssocMap.search t.lists (t.index key) with
  | none => (t, ⟨-1, none, 0⟩)
  | some list =>
    match list.find? (hasKey key) with
    | none => (t, ⟨-1, none, 0⟩)
    | some item =>
      let r := cb item.data item.dlen
      if r.1 = 1 then
        ({ t with
          count := t.count - 1
          lists := AssocMap.insert t.lists (t.index key) (list.eraseP (hasKey key)) }, ⟨0, item.data, item.dlen⟩)
      else
        ({ t with
          lists := AssocMap.insert t.lists (t.index key)
            (updateFirst (hasKey key) (fun item => { item with data := r.2.1, dlen := r.2.2 }) list) },
          ⟨r.1, item.data, item.dlen⟩)

def htSet (t : HashTable D) (key : List UInt8) (data : Option D) (dlen : Nat) : HashTable D × Reply D :=
  htSetInternal t key data dlen false

def htGetOrSet (t : HashTable D) (key : List UInt8) (data : Option D) (dlen : Nat) : HashTable D × Reply D :=
  htSetInternal t key data dlen true

def htGetHelper (value : Option D) (vlen : Nat) : Int × Option D × Nat := (0, value, vlen)

def htGet (t : HashTable D) (key : List UInt8) : HashTable D × Reply D := htCallInternal t key htGetHelper

def htDeleteHelper (unset : Bool) (value : Option D) (vlen : Nat) : Int × Option D × Nat :=
  if unset then (0, none, 0) else (1, value, vlen)

def htDelete (t : HashTable D) (key : List UInt8) : HashTable D × Reply D :=
  htCallInternal t key (htDeleteHelper false)

def htUnset (t : HashTable D) (key : List UInt8) : HashTable D × Reply D := htCallInternal t key (htDeleteHelper true)

section Foreach
variable {σ : Type} (cb : σ → List UInt8 → Option D → Nat → σ × Int)

def foreachItem (user : σ) : List (HtItem D) → σ × Option (Int × List (HtItem D))
  | [] => (user, none)
  | item :: list =>
    let r := cb user item.key item.data item.dlen
    if r.2 ≤ 0 then (r.1, some (r.2, list))
    else
      let rest := foreachItem r.1 list
      (rest.1, rest.2.map fun s => (s.1, item :: s.2))

/-- After the removal of an item the loop goes on with the next list, not with the next item, and
`count` stays as it is. -/
def foreachList (user : σ) : List (Nat × List (HtItem D)) → σ × List (Nat × List (HtItem D))
  | [] => (user, [])
  | list :: lists =>
    match foreachItem cb user list.2 with
    | (user, none) =>
      let rest := foreachList user lists
      (rest.1, list :: rest.2)
    | (user, some (rc, others)) =>
      if rc = 0 then (user, list :: lists)
      else if rc = -2 then (user, (list.1, others) :: lists)
      else
        let rest := foreachList user lists
        (rest.1, (list.1, others) :: rest.2)

def htForeachPair (t : HashTable D) (user : σ) : HashTable D × σ :=
  let r := foreachList cb user t.lists
  ({ t with lists := r.2 }, r.1)

end Foreach

end Miqs.Ht
