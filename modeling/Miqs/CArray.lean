import Mathlib.Data.List.Basic
import Mathlib.Data.List.Nodup

/-! Arrays as functions of the index. A write or a move changes the cells it covers and
leaves all others, stale ones included, as they were. -/
namespace Miqs.CArray
variable {α β : Type*}

def cells (a : Nat → α) (n : Nat) : List α := (List.range n).map a

def copyFrom (dst src : Nat → α) (start n : Nat) : Nat → α := fun i => if i < n then src (start + i) else dst i

def insertAt (a : Nat → α) (n idx : Nat) (x : α) : Nat → α := fun i =>
  if i < idx then a i else if i = idx then x else if i ≤ n then a (i - 1) else a i

def removeAt (a : Nat → α) (n pos : Nat) : Nat → α := fun i =>
  if i < pos then a i else if i + 1 < n then a (i + 1) else a i

def compareFrom [DecidableEq α] (a b : Nat → α) : Nat → Nat → Nat
  | idx, 0 => idx
  | idx, n + 1 => if a idx = b idx then compareFrom a b (idx + 1) n else idx

@[simp] theorem length_cells (a : Nat → α) (n : Nat) : (cells a n).length = n := by
  simp [cells]

theorem mem_cells {a : Nat → α} {n : Nat} {x : α} : x ∈ cells a n ↔ ∃ i < n, a i = x := by
  simp [cells]

theorem getD_cells (a : Nat → α) {n i : Nat} (h : i < n) (d : α) : (cells a n).getD i d = a i := by
  simp [cells, h]

theorem cells_succ (a : Nat → α) (n : Nat) : cells a (n + 1) = cells a n ++ [a n] := by
  simp [cells, List.range_succ]

theorem cells_congr {a b : Nat → α} {n : Nat} (h : ∀ i < n, a i = b i) : cells a n = cells b n := by
  apply List.map_congr_left
  intro i hi
  exact h i (List.mem_range.mp hi)

theorem cells_add (a : Nat → α) (m n : Nat) : cells a (m + n) = cells a m ++ cells (fun i => a (m + i)) n := by
  rw [cells, List.range_add, List.map_append, List.map_map]
  rfl

theorem map_cells (f : α → β) (a : Nat → α) (n : Nat) : (cells a n).map f = cells (fun i => f (a i)) n := by
  simp [cells, Function.comp_def]

theorem cells_split {n idx : Nat} (a : Nat → α) (h : idx ≤ n) :
    cells a n = cells a idx ++ cells (fun i => a (idx + i)) (n - idx) := by
  rw [← cells_add, Nat.add_sub_cancel' h]

theorem cells_split_at {n pos : Nat} (a : Nat → α) (h : pos < n) :
    cells a n = cells a pos ++ a pos :: cells (fun i => a (pos + 1 + i)) (n - (pos + 1)) := by
  rw [cells_split a (Nat.succ_le_of_lt h), cells_succ, List.append_assoc]
  rfl

theorem cells_insertAt {n idx : Nat} (a : Nat → α) (x : α) (h : idx ≤ n) :
    cells (insertAt a n idx x) (n + 1) = cells a idx ++ x :: cells (fun i => a (idx + i)) (n - idx) := by
  rw [cells_split_at _ (show idx < n + 1 by omega), Nat.add_sub_add_right]
  congr 1
  · apply cells_congr
    intro i hi
    simp [insertAt, hi]
  · congr 1
    · simp [insertAt]
    · apply cells_congr
      intro i hi
      have hlt : ¬ idx + 1 + i < idx := by omega
      have hne : ¬ idx + 1 + i = idx := by omega
      have hle : idx + 1 + i ≤ n := by omega
      simp only [insertAt, if_neg hlt, if_neg hne, if_pos hle]
      congr 1
      omega

theorem cells_removeAt {n pos : Nat} (a : Nat → α) (h : pos < n) :
    cells (removeAt a n pos) (n - 1) = cells a pos ++ cells (fun i => a (pos + 1 + i)) (n - (pos + 1)) := by
  rw [cells_split _ (show pos ≤ n - 1 by omega), Nat.sub_sub, Nat.add_comm 1 pos]
  congr 1
  · apply cells_congr
    intro i hi
    simp [removeAt, hi]
  · apply cells_congr
    intro i hi
    have hlt : ¬ pos + i < pos := by omega
    have hend : pos + i + 1 < n := by omega
    simp only [removeAt, if_neg hlt, if_pos hend]
    congr 1
    omega

/-- Two arrays that are moved together are one array of pairs. -/
theorem insertAt_pair (a : Nat → α) (b : Nat → β) (n idx : Nat) (x : α) (y : β) (i : Nat) :
    (insertAt a n idx x i, insertAt b n idx y i) = insertAt (fun i => (a i, b i)) n idx (x, y) i := by
  simp only [insertAt]
  split_ifs <;> rfl

theorem removeAt_pair (a : Nat → α) (b : Nat → β) (n pos i : Nat) :
    (removeAt a n pos i, removeAt b n pos i) = removeAt (fun i => (a i, b i)) n pos i := by
  simp only [removeAt]
  split_ifs <;> rfl

section Compare
variable [DecidableEq α] {a b : Nat → α}

theorem le_compareFrom (idx n : Nat) : idx ≤ compareFrom a b idx n := by
  induction n generalizing idx with
  | zero => exact Nat.le_refl idx
  | succ n ih =>
    rw [compareFrom]
    split_ifs
    · exact Nat.le_of_succ_le (ih (idx + 1))
    · exact Nat.le_refl idx

theorem compareFrom_le (idx n : Nat) : compareFrom a b idx n ≤ idx + n := by
  induction n generalizing idx with
  | zero => exact Nat.le_refl idx
  | succ n ih =>
    rw [compareFrom]
    split_ifs
    · have := ih (idx + 1)
      omega
    · omega

/-- Before the result the arrays agree. -/
theorem eq_of_lt_compareFrom {idx n i : Nat} (hi : idx ≤ i) (h : i < compareFrom a b idx n) :
    a i = b i := by
  induction n generalizing idx with
  | zero =>
    rw [compareFrom] at h
    omega
  | succ n ih =>
    rw [compareFrom] at h
    split_ifs at h with heq
    · rcases Nat.eq_or_lt_of_le hi with rfl | hlt
      · exact heq
      · exact ih hlt h
    · omega

/-- At the result they differ, unless everything was compared. -/
theorem ne_at_compareFrom {idx n : Nat} (h : compareFrom a b idx n < idx + n) :
    a (compareFrom a b idx n) ≠ b (compareFrom a b idx n) := by
  induction n generalizing idx with
  | zero =>
    rw [compareFrom] at h
    omega
  | succ n ih =>
    rw [compareFrom] at h ⊢
    split_ifs at h ⊢ with heq
    · exact ih (by omega)
    · exact heq

/-- What the loop has found when it stops. -/
theorem compareFrom_spec (a b : Nat → α) (idx n : Nat) :
    idx ≤ compareFrom a b idx n ∧ compareFrom a b idx n ≤ idx + n ∧
      (∀ i, idx ≤ i → i < compareFrom a b idx n → a i = b i) ∧
      (compareFrom a b idx n < idx + n → a (compareFrom a b idx n) ≠ b (compareFrom a b idx n)) :=
  ⟨le_compareFrom idx n, compareFrom_le idx n, fun _ hi h => eq_of_lt_compareFrom hi h, ne_at_compareFrom⟩

theorem compareFrom_eq {idx n r : Nat} (hle : idx ≤ r) (hr : r ≤ idx + n)
    (heq : ∀ i, idx ≤ i → i < r → a i = b i) (hne : r < idx + n → a r ≠ b r) :
    compareFrom a b idx n = r := by
  rcases Nat.lt_trichotomy (compareFrom a b idx n) r with hlt | heq' | hgt
  · exact absurd (heq _ (le_compareFrom idx n) hlt) (ne_at_compareFrom (by omega))
  · exact heq'
  · have hle' := compareFrom_le (a := a) (b := b) idx n
    exact absurd (eq_of_lt_compareFrom hle hgt) (hne (by omega))

end Compare

end Miqs.CArray
