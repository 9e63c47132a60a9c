import Mathlib.Data.List.Basic
import Mathlib.Data.List.Nodup

/-! Append-only interning tables: a value keeps the position it got first. -/
namespace Miqs.InternTable
variable {α : Type*} [DecidableEq α]

def intern (xs : List α) (a : α) : List α := if a ∈ xs then xs else xs ++ [a]

def slot (xs : List α) (a : α) : Nat := (intern xs a).idxOf a

theorem mem_intern (xs : List α) (a : α) : a ∈ intern xs a := by
  by_cases h : a ∈ xs <;> simp [intern, h]

theorem intern_of_mem {xs : List α} {a : α} (h : a ∈ xs) : intern xs a = xs := if_pos h

theorem intern_intern (xs : List α) (a : α) : intern (intern xs a) a = intern xs a :=
  intern_of_mem (mem_intern xs a)

theorem slot_intern (xs : List α) (a : α) : slot (intern xs a) a = slot xs a := by
  simp only [slot, intern_intern]

theorem slot_of_mem {xs : List α} {a : α} (h : a ∈ xs) : slot xs a = xs.idxOf a := by
  rw [slot, intern_of_mem h]

theorem slot_of_not_mem {xs : List α} {a : α} (h : a ∉ xs) : slot xs a = xs.length := by
  simp [slot, intern, h, List.idxOf_append_of_notMem h]

theorem prefix_intern (xs : List α) (a : α) : xs <+: intern xs a := by
  by_cases h : a ∈ xs <;> simp [intern, h]

theorem nodup_intern {xs : List α} (h : xs.Nodup) (a : α) : (intern xs a).Nodup := by
  by_cases ha : a ∈ xs
  · rwa [intern_of_mem ha]
  · simp only [intern, if_neg ha]
    exact List.Nodup.append h (List.nodup_singleton a) (by simpa using ha)

theorem getElem?_slot (xs : List α) (a : α) : (intern xs a)[slot xs a]? = some a :=
  List.getElem?_idxOf (mem_intern xs a)

end Miqs.InternTable
