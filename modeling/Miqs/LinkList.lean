import Mathlib.Algebra.Group.Int.Defs
import Mathlib.Algebra.Group.Nat.Defs
import Miqs.DoublyLinked

/-! The linked list: doubly linked entries with a cursor, from which the next position is reached if
it is near. -/
namespace Miqs.LinkList
open Miqs.DoublyLinked
variable {V : Type}

/-- Entries are numbered by their addresses. `live` are the addresses in use. -/
structure LinkedList (V : Type) where
  links : Links Nat
  value : Nat → Option V
  head : Option Nat
  tail : Option Nat
  cur : Option Nat
  pos : Nat
  length : Nat
  live : List Nat

def listCreate : LinkedList V where
  links := ⟨fun _ => none, fun _ => none⟩
  value := fun _ => none
  head := none
  tail := none
  cur := none
  pos := 0
  length := 0
  live := []

def u32 (n : Nat) : Nat := n % 2^32

def toInt (n : Int) : Int := (n + 2^31) % 2^32 - 2^31

def freeEntry (l : LinkedList V) (entry : Nat) : LinkedList V := { l with live := l.live.erase entry }

def unlinked (links : Links Nat) (entry : Nat) : Links Nat :=
  (links.setPrev (some entry) none).setNext (some entry) none

def popEntry (l : LinkedList V) : LinkedList V × Option Nat :=
  match l.tail with
  | none => (if l.length = 0 then { l with head := none, tail := none } else l, none)
  | some entry =>
    let tail := l.links.prev entry
    let l := { l with
      tail := tail
      links := unlinked (l.links.setNext tail none) entry
      length := l.length - 1
      cur := if l.cur = some entry then none else l.cur }
    (if l.length = 0 then { l with head := none, tail := none } else l, some entry)

def pushEntry (l : LinkedList V) (entry : Nat) : LinkedList V :=
  if l.length = 0 then { l with head := some entry, tail := some entry, length := l.length + 1 }
  else
    { l with
      links := ((l.links.setNext l.tail (some entry)).setPrev (some entry) l.tail).setNext (some entry) none
      tail := some entry
      length := l.length + 1 }

def shiftEntry (l : LinkedList V) : LinkedList V × Option Nat :=
  match l.head with
  | none => (if l.length = 0 then { l with head := none, tail := none } else l, none)
  | some entry =>
    let head := l.links.next entry
    let l := { l with
      head := head
      links := unlinked (l.links.setPrev head none) entry
      length := l.length - 1
      cur := if l.cur = some entry then none else l.cur
      pos := if l.cur = some entry then l.pos else l.pos - 1 }
    (if l.length = 0 then { l with head := none, tail := none } else l, some entry)

def unshiftEntry (l : LinkedList V) (entry : Nat) : LinkedList V :=
  let l :=
    if l.length = 0 then { l with head := some entry, tail := some entry, length := l.length + 1 }
    else
      { l with
        links := ((l.links.setPrev l.head (some entry)).setPrev (some entry) none).setNext (some entry) l.head
        head := some entry
        length := l.length + 1 }
  if l.cur.isSome then { l with pos := l.pos + 1 } else l

def pickEntry (l : LinkedList V) (pos : Nat) : LinkedList V × Option Nat :=
  if l.length ≤ pos then (l, none)
  else
    let entry :=
      if l.cur.isSome ∧ (toInt ((l.pos : Int) - pos)).natAbs < l.length / 2 then
        if l.pos < pos then walk l.links.next (pos - u32 l.pos) l.cur
        else walk l.links.prev (u32 l.pos - pos) l.cur
      else if pos > l.length / 2 then walk l.links.prev (u32 (l.length - 1) - pos) l.tail
      else walk l.links.next pos l.head
    (if entry.isSome then { l with pos := pos, cur := entry } else l, entry)

def removeEntry (l : LinkedList V) (pos : Nat) : LinkedList V × Option Nat :=
  match pickEntry l pos with
  | (l, none) => (l, none)
  | (l, some entry) =>
    let prev := l.links.prev entry
    let next := l.links.next entry
    let l := { l with
      head := if pos = 0 then next else l.head
      tail := if pos ≠ 0 ∧ pos = l.length - 1 then prev else l.tail
      links := unlinked ((l.links.setNext prev next).setPrev next prev) entry
      length := l.length - 1 }
    (if l.cur = some entry then { l with cur := none, pos := 0 }
      else if l.pos > pos then { l with pos := l.pos - 1 } else l, some entry)

/-- In an empty list the last position would be `SIZE_MAX`, where neither way finds an entry. -/
def fetchEntry (l : LinkedList V) (pos : Nat) : LinkedList V × Option Nat :=
  if pos = 0 then shiftEntry l else if pos + 1 = l.length then popEntry l else removeEntry l pos

section Malloc
variable (malloc : List Nat → Nat)

def createEntry (l : LinkedList V) : LinkedList V × Nat :=
  let entry := malloc l.live
  ({ l with
    links := unlinked l.links entry
    value := Function.update l.value entry none
    live := entry :: l.live }, entry)

def pad : Nat → LinkedList V → LinkedList V
  | 0, l => l
  | k + 1, l => pad k (pushEntry (createEntry malloc l).1 (createEntry malloc l).2)

def insertEntry (l : LinkedList V) (entry pos : Nat) : LinkedList V × Int :=
  if pos = 0 then (unshiftEntry l entry, 0)
  else if pos = l.length then (pushEntry l entry, 0)
  else if pos > l.length then (pushEntry (pad malloc (pos - u32 l.length) l) entry, 0)
  else
    match pickEntry l (pos - 1) with
    | (l, none) => (l, -1)
    | (l, some prev) =>
      let next := l.links.next prev
      ({ l with
        links := (((l.links.setNext (some prev) (some entry)).setPrev (some entry) (some prev)).setNext
          (some entry) next).setPrev next (some entry)
        length := l.length + 1 }, 0)

def moveEntry (l : LinkedList V) (srcPos dstPos : Nat) : LinkedList V × Int :=
  match fetchEntry l srcPos with
  | (l, none) => (l, -1)
  | (l, some e) =>
    let r := insertEntry malloc l e dstPos
    if r.2 = 0 then r else ((insertEntry malloc r.1 e srcPos).1, -1)

def setEntryValue (l : LinkedList V) (entry : Nat) (val : Option V) : LinkedList V :=
  { l with value := Function.update l.value entry val }

def newEntry (l : LinkedList V) (val : Option V) : LinkedList V × Nat :=
  (setEntryValue (createEntry malloc l).1 (createEntry malloc l).2 val, (createEntry malloc l).2)

def listPushValue (l : LinkedList V) (val : Option V) : LinkedList V × Int :=
  (pushEntry (newEntry malloc l val).1 (newEntry malloc l val).2, 0)

def listUnshiftValue (l : LinkedList V) (val : Option V) : LinkedList V × Int :=
  (unshiftEntry (newEntry malloc l val).1 (newEntry malloc l val).2, 0)

def listInsertValue (l : LinkedList V) (val : Option V) (pos : Nat) : LinkedList V × Int :=
  let entry := (newEntry malloc l val).2
  let r := insertEntry malloc (newEntry malloc l val).1 entry pos
  (if r.2 ≠ 0 then freeEntry r.1 entry else r.1, r.2)

def takeValue (r : LinkedList V × Option Nat) : LinkedList V × Option V :=
  match r.2 with
  | none => (r.1, none)
  | some entry => (freeEntry r.1 entry, r.1.value entry)

def listPopValue (l : LinkedList V) : LinkedList V × Option V := takeValue (popEntry l)

def listShiftValue (l : LinkedList V) : LinkedList V × Option V := takeValue (shiftEntry l)

def listFetchValue (l : LinkedList V) (pos : Nat) : LinkedList V × Option V := takeValue (fetchEntry l pos)

def listPickValue (l : LinkedList V) (pos : Nat) : LinkedList V × Option V :=
  let r := pickEntry l pos
  (r.1, r.2.bind r.1.value)

def listSubstValue (l : LinkedList V) (pos : Nat) (newval : Option V) : LinkedList V × Option V :=
  match pickEntry l pos with
  | (l, none) => (l, none)
  | (l, some entry) => (setEntryValue l entry newval, l.value entry)

def listSetValue (l : LinkedList V) (pos : Nat) (newval : Option V) : LinkedList V × Option V :=
  match pickEntry l pos with
  | (l, none) => ((listInsertValue malloc l newval pos).1, none)
  | (l, some entry) => (setEntryValue l entry newval, l.value entry)

def listMoveValue (l : LinkedList V) (srcPos dstPos : Nat) : LinkedList V × Int := moveEntry malloc l srcPos dstPos

end Malloc

def skipEntry (l : LinkedList V) (d : Nat) (e : Option Nat) : LinkedList V :=
  if l.head = l.tail ∧ l.tail = some d then { l with head := none, tail := none }
  else if l.head = some d then { l with head := l.links.next d, links := l.links.setPrev (l.links.next d) none }
  else if l.tail = some d then { l with tail := l.links.prev d, links := l.links.setNext (l.links.prev d) none }
  else { l with links := (l.links.setPrev e (l.links.prev d)).setNext (l.links.prev d) e }

def dropEntry (l : LinkedList V) (d : Nat) (e : Option Nat) : LinkedList V :=
  let l := skipEntry l d e
  freeEntry { l with cur := if l.cur = some d then none else l.cur, length := l.length - 1 } d

section Foreach
variable {σ : Type} (itemHandler : σ → Option V → Nat → σ × Int)

/-- The loop over the entries from `e` on. The handler stops it with 0, takes an entry out with -1, and
does both with -2. -/
def foreachEntry (idx length : Nat) (e : Option Nat) (user : σ) (l : LinkedList V) : LinkedList V × σ × Nat :=
  match e with
  | none => (l, user, idx)
  | some d =>
    if idx < length then
      let r := itemHandler user (l.value d) idx
      let next := l.links.next d
      if r.2 = 0 then (l, r.1, idx + 1)
      else if r.2 = -1 then foreachEntry (idx + 1) (length - 1) next r.1 (dropEntry l d next)
      else if r.2 = -2 then (dropEntry l d next, r.1, idx + 1)
      else foreachEntry (idx + 1) length next r.1 l
    else (l, user, idx)
  termination_by length - idx

def sliceForeachValue (offset length : Nat) (user : σ) (l : LinkedList V) : LinkedList V × σ × Int :=
  let r := foreachEntry itemHandler 0 length (pickEntry l offset).2 user (pickEntry l offset).1
  (r.1, r.2.1, toInt r.2.2)

def listForeachValue (user : σ) (l : LinkedList V) : LinkedList V × σ × Int :=
  sliceForeachValue itemHandler 0 l.length user l

end Foreach

end Miqs.LinkList
