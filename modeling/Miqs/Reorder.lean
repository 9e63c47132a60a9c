import Mathlib.Data.List.Basic
import Mathlib.Data.List.Perm.Basic
import Mathlib.Data.List.Range

/-! Lists visited in another order: an order is a list of positions. -/
namespace Miqs.Reorder
variable {α β : Type*}

def reorder (order : List Nat) (xs : List α) : List α := order.filterMap (xs[·]?)

theorem reorder_range (xs : List α) : reorder (List.range xs.length) xs = xs := by
  induction xs using List.reverseRecOn with
  | nil => rfl
  | append_singleton xs x ih =>
    have hold : (List.range xs.length).filterMap ((xs ++ [x])[·]?) =
        (List.range xs.length).filterMap (xs[·]?) := by
      apply List.filterMap_congr
      intro i hi
      exact List.getElem?_append_left (List.mem_range.mp hi)
    rw [reorder] at ih
    simp [reorder, List.range_succ, hold, ih]

theorem reorder_perm {order : List Nat} {xs : List α} (h : order.Perm (List.range xs.length)) :
    (reorder order xs).Perm xs := by
  have hp : (reorder order xs).Perm (reorder (List.range xs.length) xs) := h.filterMap _
  rwa [reorder_range] at hp

theorem reorder_map (order : List Nat) (f : α → β) (xs : List α) :
    reorder order (xs.map f) = (reorder order xs).map f := by
  simp [reorder, List.map_filterMap]

theorem reorder_append (l r : List Nat) (xs : List α) :
    reorder (l ++ r) xs = reorder l xs ++ reorder r xs := List.filterMap_append ..

theorem mem_reorder {order : List Nat} {xs : List α} {x : α} :
    x ∈ reorder order xs ↔ ∃ i ∈ order, xs[i]? = some x := List.mem_filterMap

theorem mapM_getElem? {order : List Nat} {xs : List α} (h : ∀ i ∈ order, i < xs.length) :
    (order.mapM fun i => xs[i]?) = some (reorder order xs) := by
  induction order with
  | nil => rfl
  | cons i order ih =>
    have hlt : i < xs.length := h i (by simp)
    have hi := List.getElem?_eq_getElem hlt
    have hrest := ih fun j hj => h j (List.mem_cons_of_mem i hj)
    simp only [List.mapM_cons, hi, hrest, Option.bind_eq_bind, Option.bind_some, reorder,
      List.filterMap_cons]
    rfl

end Miqs.Reorder
