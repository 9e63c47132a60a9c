import Mathlib.Data.List.Basic
import Mathlib.Data.List.Nodup
import Miqs.Reorder

/-! Finite maps as lists of entries: insertion replaces the value of a key that
is there and appends an entry otherwise. -/
namespace Miqs.AssocMap
variable {K V W : Type*} [DecidableEq K]

def search : List (K × V) → K → Option V
  | [], _ => none
  | e :: m, k => if e.1 = k then some e.2 else search m k

def insert : List (K × V) → K → V → List (K × V)
  | [], k, v => [(k, v)]
  | e :: m, k, v => if e.1 = k then (k, v) :: m else e :: insert m k v

theorem search_insert (m : List (K × V)) (k k' : K) (v : V) :
    search (insert m k v) k' = if k = k' then some v else search m k' := by
  induction m with
  | nil => simp [insert, search]
  | cons e m ih =>
    by_cases he : e.1 = k
    · by_cases hk : k = k' <;> simp [insert, search, he, hk]
    · by_cases hk : k = k'
      · subst hk
        simpa [insert, search, he] using ih
      · simp only [insert, if_neg he, search, ih, if_neg hk]

theorem insert_insert (m : List (K × V)) (k : K) (v w : V) : insert (insert m k v) k w = insert m k w := by
  induction m with
  | nil => simp [insert]
  | cons e m ih =>
    by_cases he : e.1 = k
    · simp [insert, he]
    · simp [insert, he, ih]

theorem search_eq_none (m : List (K × V)) (k : K) : search m k = none ↔ k ∉ m.map Prod.fst := by
  induction m with
  | nil => simp [search]
  | cons e m ih => by_cases he : e.1 = k <;> simp_all [search, eq_comm]

theorem mem_of_search {m : List (K × V)} {k : K} {v : V} (h : search m k = some v) : (k, v) ∈ m := by
  induction m with
  | nil => simp [search] at h
  | cons e m ih =>
    by_cases he : e.1 = k
    · simp only [search, if_pos he, Option.some.injEq] at h
      exact List.mem_cons.mpr (Or.inl (Prod.ext he.symm h.symm))
    · exact List.mem_cons_of_mem _ (ih (by simpa [search, he] using h))

theorem search_of_mem {m : List (K × V)} {k : K} {v : V} (hn : (m.map Prod.fst).Nodup)
    (h : (k, v) ∈ m) : search m k = some v := by
  induction m with
  | nil => simp at h
  | cons e m ih =>
    obtain ⟨hne, hn⟩ := List.nodup_cons.mp hn
    rcases List.mem_cons.mp h with rfl | h
    · simp [search]
    · have he : e.1 ≠ k := by
        intro he
        exact hne (he ▸ List.mem_map_of_mem h)
      simpa [search, he] using ih hn h

theorem search_append (m m' : List (K × V)) (k : K) : search (m ++ m') k = (search m k).or (search m' k) := by
  induction m with
  | nil => rfl
  | cons e m ih => by_cases he : e.1 = k <;> simp [search, he, ih]

def erase (m : List (K × V)) (k : K) : List (K × V) := m.filter fun e => e.1 ≠ k

theorem search_erase (m : List (K × V)) (k k' : K) :
    search (erase m k) k' = if k = k' then none else search m k' := by
  induction m with
  | nil => simp [erase, search]
  | cons e m ih =>
    rw [erase] at ih ⊢
    by_cases he : e.1 = k
    · rw [List.filter_cons_of_neg (by simpa using he), ih]
      by_cases hk : k = k'
      · rw [if_pos hk, if_pos hk]
      · rw [if_neg hk, if_neg hk, search, if_neg (he ▸ hk)]
    · rw [List.filter_cons_of_pos (by simpa using he), search, ih, search]
      by_cases hk : k = k'
      · rw [if_pos hk, if_pos hk, if_neg (hk ▸ he)]
      · rw [if_neg hk, if_neg hk]

theorem erase_append (m m' : List (K × V)) (k : K) : erase (m ++ m') k = erase m k ++ erase m' k :=
  List.filter_append _ _

theorem erase_eq_self {m : List (K × V)} {k : K} (h : ∀ e ∈ m, e.1 ≠ k) : erase m k = m := by
  rw [erase, List.filter_eq_self]
  intro e he
  exact decide_eq_true (h e he)

theorem search_eq_none_of_ne {m : List (K × V)} {k : K} (h : ∀ e ∈ m, e.1 ≠ k) : search m k = none := by
  rw [search_eq_none]
  intro hk
  obtain ⟨e, he, heq⟩ := List.mem_map.mp hk
  exact h e he heq

theorem ne_of_search_eq_none {m : List (K × V)} {k : K} (h : search m k = none) : ∀ e ∈ m, e.1 ≠ k := by
  rintro e he rfl
  exact (search_eq_none m e.1).mp h (List.mem_map_of_mem he)

theorem length_erase {m : List (K × V)} {k : K} (hn : (m.map Prod.fst).Nodup) (hk : search m k ≠ none) :
    (erase m k).length + 1 = m.length := by
  induction m with
  | nil => simp [search] at hk
  | cons e m ih =>
    obtain ⟨hne, hn⟩ := List.nodup_cons.mp hn
    by_cases he : e.1 = k
    · have hm : erase m k = m := erase_eq_self fun e' he' heq => hne (by
        rw [he, ← heq]
        exact List.mem_map_of_mem he')
      rw [erase, List.filter_cons_of_neg (by simpa using he), ← erase, hm, List.length_cons]
    · rw [search, if_neg he] at hk
      rw [erase, List.filter_cons_of_pos (by simpa using he), ← erase, List.length_cons, ih hn hk, List.length_cons]

/-- Keys with one entry at most. -/
theorem nodup_of_filter {m : List (K × V)} (h : ∀ k, (m.filter fun e => e.1 = k).length ≤ 1) :
    (m.map Prod.fst).Nodup := by
  induction m with
  | nil => exact List.nodup_nil
  | cons e m ih =>
    rw [List.map_cons, List.nodup_cons]
    constructor
    · intro hmem
      obtain ⟨e', he', heq⟩ := List.mem_map.mp hmem
      have hlen := h e.1
      rw [List.filter_cons_of_pos (by simp), List.length_cons] at hlen
      have hmem' : e' ∈ m.filter fun x => x.1 = e.1 := List.mem_filter.mpr ⟨he', decide_eq_true heq⟩
      have hpos := List.length_pos_of_mem hmem'
      omega
    · apply ih
      intro k
      exact ((List.sublist_cons_self e m).filter _).length_le.trans (h k)

theorem insert_of_not_mem {m : List (K × V)} {k : K} (h : k ∉ m.map Prod.fst) (v : V) :
    insert m k v = m ++ [(k, v)] := by
  induction m with
  | nil => rfl
  | cons e m ih =>
    have he : e.1 ≠ k := fun he => h (by simp [he])
    have hm : k ∉ m.map Prod.fst := fun hm => h (List.mem_cons_of_mem _ hm)
    simp [insert, he, ih hm]

theorem insert_eq_set {m : List (K × V)} (hn : (m.map Prod.fst).Nodup) {i : Nat} {k : K} {v : V}
    (hi : m[i]? = some (k, v)) (v' : V) : insert m k v' = m.set i (k, v') := by
  induction m generalizing i with
  | nil => simp at hi
  | cons e m ih =>
    rw [List.map_cons, List.nodup_cons] at hn
    cases i with
    | zero =>
      obtain rfl : e = (k, v) := by simpa using hi
      simp [insert]
    | succ i =>
      rw [List.getElem?_cons_succ] at hi
      have he : e.1 ≠ k := by
        intro he
        exact hn.1 (he ▸ List.mem_map_of_mem (List.mem_of_getElem? hi))
      rw [insert, if_neg he, ih hn.2 hi, List.set_cons_succ]

theorem keys_insert (m : List (K × V)) (k : K) (v : V) :
    (insert m k v).map Prod.fst =
      if k ∈ m.map Prod.fst then m.map Prod.fst else m.map Prod.fst ++ [k] := by
  induction m with
  | nil => rfl
  | cons e m ih =>
    by_cases he : e.1 = k
    · simp [insert, he]
    · have hk : k ≠ e.1 := fun hk => he hk.symm
      simp only [insert, if_neg he, List.map_cons, ih, List.mem_cons, hk, false_or]
      split_ifs <;> rfl

theorem mem_keys_insert {m : List (K × V)} {k k' : K} {v : V} :
    k' ∈ (insert m k v).map Prod.fst ↔ k' = k ∨ k' ∈ m.map Prod.fst := by
  rw [keys_insert]
  split_ifs with hk
  · constructor
    · exact Or.inr
    · rintro (rfl | h)
      · exact hk
      · exact h
  · rw [List.mem_append, List.mem_singleton, or_comm]

theorem mem_keys_foldl_insert {l m : List (K × V)} {k : K} :
    k ∈ (l.foldl (fun m x => insert m x.1 x.2) m).map Prod.fst ↔
      k ∈ l.map Prod.fst ∨ k ∈ m.map Prod.fst := by
  induction l generalizing m with
  | nil => simp
  | cons x l ih => rw [List.foldl_cons, ih, mem_keys_insert, List.map_cons, List.mem_cons, or_left_comm, or_assoc]

theorem nodup_insert {m : List (K × V)} (h : (m.map Prod.fst).Nodup) (k : K) (v : V) :
    ((insert m k v).map Prod.fst).Nodup := by
  rw [keys_insert]
  split_ifs with hk
  · exact h
  · exact List.Nodup.append h (List.nodup_singleton k) (by simpa using hk)

theorem nodup_foldl_insert {m : List (K × V)} (h : (m.map Prod.fst).Nodup) (l : List (K × V)) :
    ((l.foldl (fun m x => insert m x.1 x.2) m).map Prod.fst).Nodup := by
  induction l generalizing m with
  | nil => exact h
  | cons x l ih => exact ih (nodup_insert h x.1 x.2)

theorem mem_insert {m : List (K × V)} {k : K} {v : V} {e : K × V} (h : e ∈ insert m k v) :
    e = (k, v) ∨ e ∈ m := by
  induction m with
  | nil => exact Or.inl (by simpa [insert] using h)
  | cons e' m ih =>
    by_cases he : e'.1 = k
    · simp only [insert, if_pos he] at h
      rcases List.mem_cons.mp h with h | h
      · exact Or.inl h
      · exact Or.inr (List.mem_cons_of_mem _ h)
    · simp only [insert, if_neg he] at h
      rcases List.mem_cons.mp h with h | h
      · exact Or.inr (by simp [h])
      · rcases ih h with h | h
        · exact Or.inl h
        · exact Or.inr (List.mem_cons_of_mem _ h)

def mapValues (f : V → W) (m : List (K × V)) : List (K × W) := m.map fun e => (e.1, f e.2)

omit [DecidableEq K] in
theorem keys_mapValues (f : V → W) (m : List (K × V)) :
    (mapValues f m).map Prod.fst = m.map Prod.fst := by
  simp [mapValues, Function.comp_def]

theorem search_mapValues (f : V → W) (m : List (K × V)) (k : K) :
    search (mapValues f m) k = (search m k).map f := by
  induction m with
  | nil => rfl
  | cons e m ih =>
    by_cases he : e.1 = k
    · simp [mapValues, search, he]
    · simpa [mapValues, search, he] using ih

theorem insert_mapValues (f : V → W) (m : List (K × V)) (k : K) (v : V) :
    insert (mapValues f m) k (f v) = mapValues f (insert m k v) := by
  induction m with
  | nil => rfl
  | cons e m ih =>
    by_cases he : e.1 = k
    · simp [mapValues, insert, he]
    · simpa [mapValues, insert, he] using ih

/-- The order in which a map with these keys is iterated. -/
class Iteration (K : Type*) where
  order : List K → List Nat
  order_perm : ∀ ks, (order ks).Perm (List.range ks.length)

@[reducible] def Iteration.oldest : Iteration K := ⟨fun ks => List.range ks.length, fun _ => .refl _⟩

section Iteration
variable [Iteration K]

def iter (m : List (K × V)) : List (K × V) := Reorder.reorder (Iteration.order (m.map Prod.fst)) m

omit [DecidableEq K] in
theorem iter_perm (m : List (K × V)) : (iter m).Perm m := by
  apply Reorder.reorder_perm
  simpa using Iteration.order_perm (m.map Prod.fst)

omit [DecidableEq K] in
theorem iter_mapValues (f : V → W) (m : List (K × V)) : iter (mapValues f m) = mapValues f (iter m) := by
  rw [iter, keys_mapValues]
  exact Reorder.reorder_map _ _ m

end Iteration

theorem search_perm {m m' : List (K × V)} (hp : m'.Perm m) (hn : (m.map Prod.fst).Nodup) (k : K) :
    search m' k = search m k := by
  have hn' : (m'.map Prod.fst).Nodup := (hp.map Prod.fst).nodup_iff.mpr hn
  cases h : search m k with
  | some v => exact search_of_mem hn' (hp.mem_iff.mpr (mem_of_search h))
  | none =>
    rw [search_eq_none] at h ⊢
    rwa [(hp.map Prod.fst).mem_iff]

/-- Inserting the entries of a map anew rebuilds it. -/
theorem foldl_insert {m m' : List (K × V)} (hn : ((m' ++ m).map Prod.fst).Nodup) :
    m.foldl (fun t e => insert t e.1 e.2) m' = m' ++ m := by
  induction m generalizing m' with
  | nil => simp
  | cons e m ih =>
    have he : e.1 ∉ m'.map Prod.fst := by
      rw [List.map_append, List.nodup_append] at hn
      intro hm
      exact hn.2.2 e.1 hm e.1 (by simp) rfl
    rw [List.foldl_cons, insert_of_not_mem he, ih]
    · simp
    · simpa using hn

/-- Inserting a list of entries with distinct keys overrides the old ones. -/
theorem search_foldl_insert {l : List (K × V)} (hn : (l.map Prod.fst).Nodup) (m : List (K × V))
    (k : K) : search (l.foldl (fun t e => insert t e.1 e.2) m) k = (search l k).or (search m k) := by
  induction l generalizing m with
  | nil => rfl
  | cons e l ih =>
    rw [List.map_cons, List.nodup_cons] at hn
    rw [List.foldl_cons, ih hn.2, search_insert]
    by_cases he : e.1 = k
    · have hl : search l k = none := (search_eq_none l k).mpr (he ▸ hn.1)
      simp [search, he, hl]
    · simp [search, he]

omit [DecidableEq K] in
theorem mapValues_append (f : V → W) (m : List (K × V)) (e : K × V) :
    mapValues f (m ++ [e]) = mapValues f m ++ [(e.1, f e.2)] := by
  simp [mapValues]

end Miqs.AssocMap
