import Miqs.InMemIndex
import Miqs.InternTable

/-! The path tables are interning tables: on a table of distinct paths whose
entries store their positions, inserting a path never faults and interns it. -/
namespace Miqs.Index
open Miqs.CData Miqs.InternTable

structure PathTable where
  paths : List CString
  nodup : paths.Nodup

def PathTable.empty : PathTable := ⟨[], List.nodup_nil⟩

def PathTable.insert (t : PathTable) (path : CString) : PathTable :=
  ⟨intern t.paths path, nodup_intern t.nodup path⟩

def entriesFrom (pos : Nat) : List CString → LinkedList
  | [] => []
  | path :: paths => some ⟨.to path, pos⟩ :: entriesFrom (pos+1) paths

def PathTable.toLinkedList (t : PathTable) : LinkedList := entriesFrom 0 t.paths

theorem length_entriesFrom (paths : List CString) (pos : Nat) :
    (entriesFrom pos paths).length = paths.length := by
  induction paths generalizing pos with
  | nil => rfl
  | cons path paths ih => simp [entriesFrom, ih]

theorem entriesFrom_append (paths more : List CString) (pos : Nat) :
    entriesFrom pos (paths ++ more) =
      entriesFrom pos paths ++ entriesFrom (pos + paths.length) more := by
  induction paths generalizing pos with
  | nil => simp [entriesFrom]
  | cons path paths ih =>
    simp only [List.cons_append, entriesFrom, ih, List.length_cons]
    rw [Nat.add_assoc, Nat.add_comm 1]

theorem getElem?_entriesFrom (paths : List CString) (pos i : Nat) :
    (entriesFrom pos paths)[i]? = paths[i]?.map fun path => some ⟨.to path, pos + i⟩ := by
  induction paths generalizing pos i with
  | nil => simp [entriesFrom]
  | cons path paths ih =>
    cases i with
    | zero => simp [entriesFrom]
    | succ i =>
      simp only [entriesFrom, List.getElem?_cons_succ, ih]
      rw [Nat.add_assoc, Nat.add_comm 1]

theorem listGetTaggedValue_entriesFrom (paths : List CString) (pos : Nat) (path : CString) :
    listGetTaggedValue (entriesFrom pos paths) (.to path) =
      some (if path ∈ paths then some ⟨.to path, pos + paths.idxOf path⟩ else none) := by
  induction paths generalizing pos with
  | nil => rfl
  | cons x paths ih =>
    by_cases hx : x = path
    · subst hx
      simp [entriesFrom, listGetTaggedValue, strcmpIsZero]
    · have hx' : path ≠ x := fun h => hx h.symm
      simp only [entriesFrom, listGetTaggedValue, strcmpIsZero, hx, decide_false,
        Option.bind_some, Bool.false_eq_true, if_false, ih, List.mem_cons, hx', false_or,
        List.idxOf_cons_ne paths hx]
      rw [Nat.add_assoc, Nat.add_comm 1]

theorem listInsertTaggedValue_end (list : LinkedList) (tval : TaggedValue) :
    listInsertTaggedValue list tval list.length = list ++ [some tval] := by
  cases list with
  | nil => rfl
  | cons e list => simp [listInsertTaggedValue]

/-- Inserting a path interns it and returns its position. -/
theorem insertTaggedValue_toLinkedList (t : PathTable) (path : CString) :
    insertTaggedValue t.toLinkedList (.to path) =
      some ((t.insert path).toLinkedList, slot t.paths path) := by
  unfold insertTaggedValue PathTable.toLinkedList
  simp only [listGetTaggedValue_entriesFrom, Option.bind_eq_bind, Option.bind_some]
  by_cases h : path ∈ t.paths
  · simp [h, PathTable.insert, intern_of_mem h, slot_of_mem h]
  · have he := listInsertTaggedValue_end (entriesFrom 0 t.paths) ⟨.to path, t.paths.length⟩
    rw [length_entriesFrom] at he
    simp only [h, if_false, listCreateTaggedValue, reduceCtorEq, Option.bind_some, he,
      PathTable.insert, intern, entriesFrom_append, entriesFrom, length_entriesFrom,
      slot_of_not_mem h, Nat.zero_add]

theorem listPickTaggedValue_toLinkedList (t : PathTable) (i : Nat) :
    listPickTaggedValue t.toLinkedList i = t.paths[i]?.map fun path => ⟨.to path, i⟩ := by
  simp only [listPickTaggedValue, PathTable.toLinkedList, getElem?_entriesFrom, Nat.zero_add]
  cases t.paths[i]? <;> rfl

theorem PathTable.length_toLinkedList (t : PathTable) : t.toLinkedList.length = t.paths.length :=
  length_entriesFrom _ _

theorem PathTable.pick_of_lt (t : PathTable) {i : Nat} (h : i < t.paths.length) :
    listPickTaggedValue t.toLinkedList i = some ⟨.to t.paths[i], i⟩ := by
  rw [listPickTaggedValue_toLinkedList, List.getElem?_eq_getElem h, Option.map_some]

theorem listPickTaggedValue_append_left {new : LinkedList} {i : Nat} (h : i < new.length)
    (old : LinkedList) : listPickTaggedValue (new ++ old) i = listPickTaggedValue new i := by
  simp only [listPickTaggedValue, List.getElem?_append_left h]

theorem listPickTaggedValue_append_right {new : LinkedList} {i : Nat} (h : new.length ≤ i)
    (old : LinkedList) :
    listPickTaggedValue (new ++ old) i = listPickTaggedValue old (i - new.length) := by
  simp only [listPickTaggedValue, List.getElem?_append_right h]

/-- Paths that are in the table resolve as before after every insertion. -/
theorem listPickTaggedValue_insert {t : PathTable} {i : Nat} {tval : TaggedValue} (path : CString)
    (h : listPickTaggedValue t.toLinkedList i = some tval) :
    listPickTaggedValue (t.insert path).toLinkedList i = some tval := by
  rw [listPickTaggedValue_toLinkedList] at h ⊢
  obtain ⟨x, hx, rfl⟩ := Option.map_eq_some_iff.mp h
  obtain ⟨suffix, hs⟩ := prefix_intern t.paths path
  have hi := (List.getElem?_eq_some_iff.mp hx).1
  simp only [PathTable.insert, ← hs, List.getElem?_append_left hi, hx, Option.map_some]

theorem listPickTaggedValue_slot (t : PathTable) (path : CString) :
    listPickTaggedValue (t.insert path).toLinkedList (slot t.paths path) =
      some ⟨.to path, slot t.paths path⟩ := by
  rw [listPickTaggedValue_toLinkedList]
  simp only [PathTable.insert, getElem?_slot, Option.map_some]

theorem PathTable.insert_insert (t : PathTable) (path : CString) :
    (t.insert path).insert path = t.insert path := by
  simp only [PathTable.insert, intern_intern]

end Miqs.Index
