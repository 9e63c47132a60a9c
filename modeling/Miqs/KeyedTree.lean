import Mathlib.Algebra.BigOperators.Group.List.Basic
import Mathlib.Algebra.Order.Ring.Nat
import Mathlib.Data.List.Basic
import Mathlib.Data.List.Count
import Mathlib.Data.List.Induction
import Miqs.AssocMap
import Miqs.SearchTree

/-! Search trees descended with a comparator, read as finite maps whose keys are
identified when the comparator returns 0. The comparator need not be an order:
where several nodes compare equal to a key, any of them may be the one found. -/
namespace Miqs.KeyedTree
open SearchTree (OrderedOn)
variable {K V W : Type}

/-- Where a search stops, and the order in which a walk visits the nodes. The nodes are
listed in the order they were added, which determines the tree, so both are functions of
that list. A search may miss a node that compares equal, unless the comparator orders the
keys and no two nodes are level with each other. -/
class Descent (K : Type) where
  locate : (K → K → Int) → List K → K → Option Nat
  walkOrder : (K → K → Int) → List K → List Nat
  locate_some : ∀ {cmp ks k i}, locate cmp ks k = some i → ∃ k', ks[i]? = some k' ∧ cmp k' k = 0
  locate_none : ∀ {cmp ks k}, OrderedOn cmp (· ∈ k :: ks) → (ks.Pairwise fun a b => cmp a b ≠ 0) →
    locate cmp ks k = none → ∀ k' ∈ ks, cmp k' k ≠ 0
  walkOrder_perm : ∀ cmp ks, (walkOrder cmp ks).Perm (List.range ks.length)

@[reducible] def Descent.oldest : Descent K where
  locate cmp ks k := ks.findIdx? fun k' => cmp k' k = 0
  walkOrder _ ks := List.range ks.length
  locate_some := by
    intro cmp ks k i h
    obtain ⟨hi, hp, -⟩ := List.findIdx?_eq_some_iff_getElem.mp h
    exact ⟨ks[i], List.getElem?_eq_getElem hi, by simpa using hp⟩
  locate_none := by
    intro cmp ks k _ _ h k' hk'
    simpa using List.findIdx?_eq_none_iff.mp h k' hk'
  walkOrder_perm _ _ := List.Perm.refl _

def Separated (cmp : K → K → Int) (m : List (K × V)) : Prop :=
  (m.map Prod.fst).Pairwise fun a b => cmp a b ≠ 0

instance (cmp : K → K → Int) (m : List (K × V)) : Decidable (Separated cmp m) :=
  inferInstanceAs (Decidable (List.Pairwise _ _))

theorem separated_nil (cmp : K → K → Int) : Separated cmp ([] : List (K × V)) := List.Pairwise.nil

/-- Two nodes of a separated tree that compare equal both ways are one node. -/
theorem Separated.index_unique {cmp : K → K → Int} {m : List (K × V)} (h : Separated cmp m) {i j : Nat}
    {e e' : K × V} (hi : m[i]? = some e) (hj : m[j]? = some e')
    (hc : cmp e.1 e'.1 = 0) (hc' : cmp e'.1 e.1 = 0) : i = j := by
  obtain ⟨hil, rfl⟩ := List.getElem?_eq_some_iff.mp hi
  obtain ⟨hjl, rfl⟩ := List.getElem?_eq_some_iff.mp hj
  have hp := List.pairwise_iff_getElem.mp (List.pairwise_map.mp h)
  rcases Nat.lt_trichotomy i j with hlt | heq | hgt
  · exact absurd hc (hp i j hil hjl hlt)
  · exact heq
  · exact absurd hc' (hp j i hjl hil hgt)

theorem Separated.eq_of_mem {cmp : K → K → Int} {m : List (K × V)} (h : Separated cmp m)
    {e e' : K × V} (he : e ∈ m) (he' : e' ∈ m) (hc : cmp e.1 e'.1 = 0) (hc' : cmp e'.1 e.1 = 0) :
    e = e' := by
  obtain ⟨i, hi⟩ := List.mem_iff_getElem?.mp he
  obtain ⟨j, hj⟩ := List.mem_iff_getElem?.mp he'
  have hij := h.index_unique hi hj hc hc'
  rw [hij, hj] at hi
  exact (Option.some.inj hi).symm

section Classes
variable {R : K → K → Prop} [DecidableRel R]

structure Consistent (cmp : K → K → Int) (S : K → Prop) (R : K → K → Prop) : Prop where
  equiv : Equivalence R
  zero_iff : ∀ a b, S a → S b → (cmp a b = 0 ↔ R a b)

def valuesOf (R : K → K → Prop) [DecidableRel R] (kvs : List (K × V)) (k : K) : List V :=
  (kvs.filter fun x => R x.1 k).map Prod.snd

theorem valuesOf_congr (hR : Equivalence R) {k k' : K} (h : R k k') (kvs : List (K × V)) :
    valuesOf R kvs k = valuesOf R kvs k' := by
  have he : ∀ x : K × V, decide (R x.1 k) = decide (R x.1 k') := by
    intro x
    exact decide_eq_decide.mpr ⟨fun hx => hR.trans hx h, fun hx => hR.trans hx (hR.symm h)⟩
  simp only [valuesOf, he]

theorem valuesOf_append (kvs : List (K × V)) (x : K × V) (k : K) :
    valuesOf R (kvs ++ [x]) k = valuesOf R kvs k ++ if R x.1 k then [x.2] else [] := by
  by_cases h : R x.1 k <;> simp [valuesOf, h]

end Classes

def pushAt (m : List (K × List V)) (i : Nat) (v : V) : List (K × List V) :=
  m.modify i fun e => (e.1, e.2 ++ [v])

section Counting
variable {R : K → K → Prop} [DecidableRel R]

def total (m : List (K × List V)) : Nat := (m.map fun e => e.2.length).sum

theorem total_pushAt (m : List (K × List V)) (i : Nat) (v : V) (hi : i < m.length) :
    total (pushAt m i v) = total m + 1 := by
  induction m generalizing i with
  | nil => simp at hi
  | cons e m ih =>
    cases i with
    | zero =>
      simp only [total, pushAt, List.modify_zero_cons, List.map_cons, List.sum_cons,
        List.length_append, List.length_singleton]
      omega
    | succ i =>
      have h := ih i (by simpa using hi)
      simp only [total, pushAt, List.modify_succ_cons, List.map_cons, List.sum_cons] at h ⊢
      omega

theorem countP_class_le_one (hR : Equivalence R) {ks : List K}
    (hp : ks.Pairwise fun a b => ¬ R a b) (x : K) : ks.countP (fun k => R x k) ≤ 1 := by
  induction ks with
  | nil => simp
  | cons k ks ih =>
    obtain ⟨hk, hp⟩ := List.pairwise_cons.mp hp
    by_cases hx : R x k
    · have hz : ks.countP (fun k => R x k) = 0 := by
        rw [List.countP_eq_zero]
        intro k' hk' hr
        exact hk k' hk' (hR.trans (hR.symm hx) (of_decide_eq_true hr))
      simp [hx, hz]
    · simpa [hx] using ih hp

theorem sum_class_cons (ks : List K) (x : K × V) (kvs : List (K × V)) :
    (ks.map fun k => (valuesOf R (x :: kvs) k).length).sum =
      ks.countP (fun k => R x.1 k) + (ks.map fun k => (valuesOf R kvs k).length).sum := by
  induction ks with
  | nil => rfl
  | cons k ks ih =>
    have hk : (valuesOf R (x :: kvs) k).length =
        (if R x.1 k then 1 else 0) + (valuesOf R kvs k).length := by
      by_cases h : R x.1 k <;> simp [valuesOf, h, Nat.add_comm]
    simp only [List.map_cons, List.sum_cons, List.countP_cons, ih, hk, decide_eq_true_eq]
    omega

/-- Classes that do not overlap hold at most every value; holding every value,
they cover every key. -/
theorem cover_of_sum (hR : Equivalence R) {ks : List K}
    (hp : ks.Pairwise fun a b => ¬ R a b) (kvs : List (K × V)) :
    (ks.map fun k => (valuesOf R kvs k).length).sum ≤ kvs.length ∧
    ((ks.map fun k => (valuesOf R kvs k).length).sum = kvs.length →
      ∀ x ∈ kvs, ∃ k ∈ ks, R x.1 k) := by
  induction kvs with
  | nil => exact ⟨by simp [valuesOf], by simp⟩
  | cons x kvs ih =>
    obtain ⟨hle, hcov⟩ := ih
    have h1 := countP_class_le_one hR hp x.1
    rw [sum_class_cons, List.length_cons]
    refine ⟨by omega, ?_⟩
    intro hsum y hy
    rcases List.mem_cons.mp hy with rfl | hy
    · have hpos : 0 < ks.countP (fun k => R y.1 k) := by omega
      obtain ⟨k, hk, hr⟩ := List.countP_pos_iff.mp hpos
      exact ⟨k, hk, of_decide_eq_true hr⟩
    · exact hcov (by omega) y hy

end Counting

variable [Descent K] (cmp : K → K → Int)

def find (m : List (K × V)) (k : K) : Option Nat := Descent.locate cmp (m.map Prod.fst) k

def lookup (m : List (K × V)) (k : K) : Option V :=
  (find cmp m k).bind fun i => m[i]?.map Prod.snd

def add (m : List (K × V)) (k : K) (v : V) : List (K × V) :=
  match find cmp m k with
  | some i => m.set i (k, v)
  | none => m ++ [(k, v)]

def push (m : List (K × List V)) (k : K) (v : V) : List (K × List V) :=
  match find cmp m k with
  | some i => pushAt m i v
  | none => m ++ [(k, [v])]

def enter (m : List (K × List V)) (k : K) : List (K × List V) × Nat :=
  match find cmp m k with
  | some i => (m, i)
  | none => (m ++ [(k, [])], m.length)

theorem push_eq_pushAt_enter (m : List (K × List V)) (k : K) (v : V) :
    push cmp m k v = pushAt (enter cmp m k).1 (enter cmp m k).2 v := by
  rw [push, enter]
  cases find cmp m k with
  | some i => rfl
  | none =>
    rw [pushAt, List.modify_eq_take_drop]
    simp

def pushAll (m : List (K × List V)) (kvs : List (K × V)) : List (K × List V) :=
  kvs.foldl (fun m e => push cmp m e.1 e.2) m

def addAll (m : List (K × V)) (kvs : List (K × V)) : List (K × V) :=
  kvs.foldl (fun m e => add cmp m e.1 e.2) m

def mapValues (f : V → W) (m : List (K × V)) : List (K × W) := m.map fun e => (e.1, f e.2)

def walk (m : List (K × V)) : List (K × V) :=
  Reorder.reorder (Descent.walkOrder cmp (m.map Prod.fst)) m

def Finds (S : K → Prop) : Prop :=
  ∀ ks k, (∀ k' ∈ ks, S k') → S k → (ks.Pairwise fun a b => cmp a b ≠ 0) →
    Descent.locate cmp ks k = none → ∀ k' ∈ ks, cmp k' k ≠ 0

def ApartIfFound (m : List (K × V)) : Prop := Finds cmp (· ∈ m.map Prod.fst) → Separated cmp m

/-- The reading of the tree as a finite map: no comparator makes a search miss a node. -/
class FiniteMap (K : Type) [Descent K] : Prop where
  finds : ∀ cmp : K → K → Int, Finds cmp fun _ => True

omit [Descent K] in
theorem finiteMap_oldest : @FiniteMap K .oldest :=
  @FiniteMap.mk K .oldest fun _ _ _ _ _ _ h k' hk' => by simpa using List.findIdx?_eq_none_iff.mp h k' hk'

section Search
variable {cmp} {S : K → Prop}

theorem finds_of_ordered (hc : OrderedOn cmp S) : Finds cmp S := by
  intro ks k hks hk hsep
  refine Descent.locate_none (hc.mono ?_) hsep
  intro k' hk'
  rcases List.mem_cons.mp hk' with rfl | hk'
  · exact hk
  · exact hks k' hk'

theorem Finds.mono {T : K → Prop} (hf : Finds cmp S) (h : ∀ k, T k → S k) : Finds cmp T :=
  fun ks k hks hk => hf ks k (fun k' hk' => h k' (hks k' hk')) (h k hk)

theorem find_some {m : List (K × V)} {k : K} {i : Nat} (h : find cmp m k = some i) :
    ∃ e, m[i]? = some e ∧ cmp e.1 k = 0 := by
  obtain ⟨k', hk', hc⟩ := Descent.locate_some h
  rw [List.getElem?_map] at hk'
  obtain ⟨e, he, rfl⟩ := Option.map_eq_some_iff.mp hk'
  exact ⟨e, he, hc⟩

theorem find_none (hf : Finds cmp S) {m : List (K × V)} (hm : ∀ e ∈ m, S e.1) (hs : Separated cmp m)
    {k : K} (hk : S k) (h : find cmp m k = none) : ∀ e ∈ m, cmp e.1 k ≠ 0 := by
  intro e he
  exact hf _ k (List.forall_mem_map.mpr hm) hk hs h e.1 (List.mem_map_of_mem he)

theorem find_none_of_forall {m : List (K × V)} {k : K} (h : ∀ e ∈ m, cmp e.1 k ≠ 0) :
    find cmp m k = none := by
  cases hf : find cmp m k with
  | none => rfl
  | some i =>
    obtain ⟨e, he, hc⟩ := find_some hf
    exact absurd hc (h e (List.mem_of_getElem? he))

theorem lookup_none_of_forall {m : List (K × V)} {k : K} (h : ∀ e ∈ m, cmp e.1 k ≠ 0) :
    lookup cmp m k = none := by
  rw [lookup, find_none_of_forall h, Option.bind_none]

theorem lookup_some {m : List (K × V)} {k : K} {v : V} (h : lookup cmp m k = some v) :
    ∃ k', (k', v) ∈ m ∧ cmp k' k = 0 := by
  obtain ⟨i, hi, hv⟩ := Option.bind_eq_some_iff.mp h
  obtain ⟨e, he, hc⟩ := find_some hi
  rw [he] at hv
  obtain rfl : e.2 = v := by simpa using hv
  exact ⟨e.1, List.mem_of_getElem? he, hc⟩

theorem lookup_none (hf : Finds cmp S) {m : List (K × V)} (hm : ∀ e ∈ m, S e.1) (hs : Separated cmp m)
    {k : K} (hk : S k) (h : lookup cmp m k = none) : ∀ e ∈ m, cmp e.1 k ≠ 0 := by
  cases hfind : find cmp m k with
  | none => exact find_none hf hm hs hk hfind
  | some i =>
    obtain ⟨e, he, -⟩ := find_some hfind
    simp [lookup, hfind, he] at h

theorem find_mapValues (f : V → W) (m : List (K × V)) (k : K) :
    find cmp (mapValues f m) k = find cmp m k := by
  simp [find, mapValues, Function.comp_def]

theorem lookup_mapValues (f : V → W) (m : List (K × V)) (k : K) :
    lookup cmp (mapValues f m) k = (lookup cmp m k).map f := by
  simp only [lookup, find_mapValues]
  cases find cmp m k with
  | none => rfl
  | some i => simp [mapValues, Function.comp_def]

theorem mapValues_push (f : V → W) (m : List (K × List V)) (k : K) (v : V) :
    push cmp (mapValues (List.map f) m) k (f v) = mapValues (List.map f) (push cmp m k v) := by
  simp only [push, find_mapValues]
  cases find cmp m k with
  | none => simp [mapValues]
  | some i =>
    apply List.ext_getElem?
    intro j
    simp only [pushAt, mapValues, List.getElem?_modify, List.getElem?_map]
    cases m[j]? with
    | none => rfl
    | some e => by_cases hij : i = j <;> simp [hij]

end Search

section Pushing
variable {cmp} {S : K → Prop}

theorem getElem?_push_found {m : List (K × List V)} {k : K} {i : Nat} (h : find cmp m k = some i)
    (v : V) (j : Nat) : (push cmp m k v)[j]? =
      m[j]?.map fun e => if i = j then (e.1, e.2 ++ [v]) else e := by
  simp only [push, h, pushAt, List.getElem?_modify]
  rfl

theorem push_new {m : List (K × List V)} {k : K} (h : find cmp m k = none) (v : V) :
    push cmp m k v = m ++ [(k, [v])] := by
  simp only [push, h]

theorem keys_push (m : List (K × List V)) (k : K) (v : V) :
    (push cmp m k v).map Prod.fst =
      if (find cmp m k).isSome then m.map Prod.fst else m.map Prod.fst ++ [k] := by
  cases hf : find cmp m k with
  | none => simp [push_new hf]
  | some i =>
    apply List.ext_getElem?
    intro j
    simp only [Option.isSome_some, if_true, List.getElem?_map, getElem?_push_found hf]
    cases m[j]? with
    | none => rfl
    | some e => by_cases hij : i = j <;> simp [hij]

theorem forall_key_push {m : List (K × List V)} (hm : ∀ e ∈ m, S e.1) {k : K} (hk : S k) (v : V) :
    ∀ e ∈ push cmp m k v, S e.1 := by
  have hkeys : ∀ k' ∈ (push cmp m k v).map Prod.fst, S k' := by
    rw [keys_push]
    split_ifs
    · simpa only [List.forall_mem_map] using hm
    · simpa only [List.forall_mem_append, List.forall_mem_map, List.forall_mem_singleton] using
        ⟨hm, hk⟩
  exact List.forall_mem_map.mp hkeys

theorem separated_push (hf : Finds cmp S) {m : List (K × List V)} (hm : ∀ e ∈ m, S e.1)
    (h : Separated cmp m) {k : K} (hk : S k) (v : V) : Separated cmp (push cmp m k v) := by
  rw [Separated, keys_push]
  cases hfind : find cmp m k with
  | some i => exact h
  | none =>
    simp only [Option.isSome_none, Bool.false_eq_true, if_false]
    refine List.pairwise_append.mpr ⟨h, List.pairwise_singleton _ _, ?_⟩
    intro a ha b hb
    obtain ⟨e, he, rfl⟩ := List.mem_map.mp ha
    obtain rfl : b = k := by simpa using hb
    exact find_none hf hm h hk hfind e he

/-- No node of a tree that is only pushed to is empty. -/
theorem nonempty_pushAll {m : List (K × List V)} (h : ∀ e ∈ m, e.2 ≠ []) (kvs : List (K × V)) :
    ∀ e ∈ pushAll cmp m kvs, e.2 ≠ [] := by
  induction kvs generalizing m with
  | nil => exact h
  | cons x kvs ih =>
    apply ih
    intro e he
    change e ∈ push cmp m x.1 x.2 at he
    cases hf : find cmp m x.1 with
    | none =>
      rw [push_new hf, List.mem_append, List.mem_singleton] at he
      rcases he with he | rfl
      · exact h e he
      · exact List.cons_ne_nil _ _
    | some i =>
      obtain ⟨j, hj⟩ := List.mem_iff_getElem?.mp he
      rw [getElem?_push_found hf] at hj
      obtain ⟨e', he', rfl⟩ := Option.map_eq_some_iff.mp hj
      have hne := h e' (List.mem_of_getElem? he')
      by_cases hij : i = j <;> simp [hij, hne]

theorem ApartIfFound.push {m : List (K × List V)} (h : ApartIfFound cmp m) (k : K) (v : V) :
    ApartIfFound cmp (push cmp m k v) := by
  intro hf
  rw [keys_push] at hf
  cases hfind : find cmp m k with
  | some i =>
    rw [hfind] at hf
    have hs := h hf
    rwa [Separated, keys_push, hfind]
  | none =>
    simp only [hfind, Option.isSome_none, Bool.false_eq_true, if_false] at hf
    have hold : ∀ k' ∈ m.map Prod.fst, k' ∈ m.map Prod.fst ++ [k] := fun k' => List.mem_append_left _
    exact separated_push hf (fun e he => hold _ (List.mem_map_of_mem he)) (h (hf.mono hold)) (by simp) v

theorem ApartIfFound.pushAll {m : List (K × List V)} (h : ApartIfFound cmp m) (kvs : List (K × V)) :
    ApartIfFound cmp (pushAll cmp m kvs) := by
  induction kvs generalizing m with
  | nil => exact h
  | cons x kvs ih => exact ih (h.push x.1 x.2)

theorem length_pushAll_le (cmp : K → K → Int) (m : List (K × List V)) (kvs : List (K × V)) :
    (pushAll cmp m kvs).length ≤ m.length + kvs.length := by
  induction kvs generalizing m with
  | nil => exact Nat.le_refl _
  | cons x kvs ih =>
    have hpush : (push cmp m x.1 x.2).length ≤ m.length + 1 := by
      cases hfind : find cmp m x.1 with
      | none => simp [push_new hfind]
      | some i => simp [push, hfind, pushAt]
    have hrest := ih (push cmp m x.1 x.2)
    rw [List.length_cons]
    change (pushAll cmp (push cmp m x.1 x.2) kvs).length ≤ _
    omega

theorem separated_pushAll (hf : Finds cmp S) {m : List (K × List V)} (hm : ∀ e ∈ m, S e.1)
    (h : Separated cmp m) {kvs : List (K × V)} (hkvs : ∀ x ∈ kvs, S x.1) :
    Separated cmp (pushAll cmp m kvs) := by
  induction kvs generalizing m with
  | nil => exact h
  | cons x kvs ih =>
    obtain ⟨hx, hkvs⟩ := List.forall_mem_cons.mp hkvs
    exact ih (forall_key_push hm hx x.2) (separated_push hf hm h hx x.2) hkvs

theorem separated_pushAll_nil (hf : Finds cmp S) {kvs : List (K × V)} (hkvs : ∀ x ∈ kvs, S x.1) :
    Separated cmp (pushAll cmp [] kvs) :=
  separated_pushAll hf (by simp) (separated_nil cmp) hkvs

end Pushing

section Walking
variable {cmp}

theorem walk_perm (m : List (K × V)) : (walk cmp m).Perm m := by
  apply Reorder.reorder_perm
  simpa using Descent.walkOrder_perm cmp (m.map Prod.fst)

theorem walk_mapValues (f : V → W) (m : List (K × V)) :
    walk cmp (mapValues f m) = mapValues f (walk cmp m) := by
  have hk : (mapValues f m).map Prod.fst = m.map Prod.fst := by
    simp [mapValues, Function.comp_def]
  rw [walk, hk]
  exact Reorder.reorder_map _ _ m

omit [Descent K] in
theorem Separated.perm {m m' : List (K × V)} (hsymm : ∀ a b, cmp a b = 0 → cmp b a = 0)
    (h : Separated cmp m) (hp : m'.Perm m) : Separated cmp m' := by
  apply ((hp.map Prod.fst).pairwise_iff ?_).mpr h
  intro a b hab hba
  exact hab (hsymm b a hba)

theorem find_of_separated {m : List (K × V)} {k : K} {v : V} (h : Separated cmp (m ++ [(k, v)])) :
    find cmp m k = none := by
  apply find_none_of_forall
  intro x hx
  rw [Separated, List.map_append, List.pairwise_append] at h
  exact h.2.2 x.1 (List.mem_map_of_mem hx) k (by simp)

/-- A node that is separated from the tree is added as a new one. -/
theorem add_of_separated {m : List (K × V)} {k : K} {v : V} (h : Separated cmp (m ++ [(k, v)])) :
    add cmp m k v = m ++ [(k, v)] := by
  simp only [add, find_of_separated h]

theorem addAll_append (m kvs : List (K × V)) (e : K × V) :
    addAll cmp m (kvs ++ [e]) = add cmp (addAll cmp m kvs) e.1 e.2 := by
  rw [addAll, List.foldl_append]
  rfl

/-- Nodes that are apart from each other are all added as new ones. -/
theorem addAll_of_separated {kvs : List (K × V)} (h : Separated cmp kvs) : addAll cmp [] kvs = kvs := by
  induction kvs using List.reverseRecOn with
  | nil => rfl
  | append_singleton kvs e ih =>
    have hkvs : Separated cmp kvs := List.Pairwise.sublist (by simp) h
    rw [addAll_append, ih hkvs]
    exact add_of_separated h

theorem forall_add {P : K × V → Prop} {m : List (K × V)} (hm : ∀ e ∈ m, P e) {k : K} {v : V}
    (hkv : P (k, v)) : ∀ e ∈ add cmp m k v, P e := by
  intro e he
  unfold add at he
  split at he
  · rcases List.mem_or_eq_of_mem_set he with he | rfl
    · exact hm e he
    · exact hkv
  · rcases List.mem_append.mp he with he | he
    · exact hm e he
    · exact List.mem_singleton.mp he ▸ hkv

theorem forall_addAll {P : K × V → Prop} {m kvs : List (K × V)} (hm : ∀ e ∈ m, P e)
    (hkvs : ∀ e ∈ kvs, P e) : ∀ e ∈ addAll cmp m kvs, P e := by
  induction kvs generalizing m with
  | nil => exact hm
  | cons x kvs ih =>
    obtain ⟨hx, hkvs⟩ := List.forall_mem_cons.mp hkvs
    exact ih (forall_add hm hx) hkvs

omit [Descent K] in
theorem total_append (m m' : List (K × List V)) : total (m ++ m') = total m + total m' := by
  simp [total]

/-- Nothing is gained by adding nodes, and a replaced node is lost. -/
theorem total_addAll_le (m kvs : List (K × List V)) :
    total (addAll cmp m kvs) ≤ total m + total kvs := by
  have hadd : ∀ (m : List (K × List V)) (e : K × List V),
      total (add cmp m e.1 e.2) ≤ total m + e.2.length := by
    intro m e
    unfold add
    split
    next i hfind =>
      obtain ⟨e', he', -⟩ := find_some hfind
      have hi := (List.getElem?_eq_some_iff.mp he').1
      have hset := ((List.set_perm_cons_eraseIdx hi (e.1, e.2)).map fun e => e.2.length).sum_eq
      have hall := ((List.getElem_cons_eraseIdx_perm hi).map fun e => e.2.length).sum_eq
      simp only [total, List.map_cons, List.sum_cons] at hset hall ⊢
      omega
    next => rw [total_append]; simp [total]
  induction kvs generalizing m with
  | nil => exact Nat.le_add_right _ _
  | cons e kvs ih =>
    have hrest := ih (add cmp m e.1 e.2)
    have he := hadd m e
    have hcons : total (e :: kvs) = e.2.length + total kvs := by simp [total]
    change total (addAll cmp (add cmp m e.1 e.2) kvs) ≤ _
    omega

theorem mapValues_addAll (f : V → W) (m kvs : List (K × V)) :
    mapValues f (addAll cmp m kvs) = addAll cmp (mapValues f m) (mapValues f kvs) := by
  have hadd : ∀ (m : List (K × V)) (e : K × V),
      mapValues f (add cmp m e.1 e.2) = add cmp (mapValues f m) e.1 (f e.2) := by
    intro m e
    simp only [add, find_mapValues]
    cases find cmp m e.1 <;> simp [mapValues, List.map_set]
  induction kvs generalizing m with
  | nil => rfl
  | cons e kvs ih =>
    change mapValues f (addAll cmp (add cmp m e.1 e.2) kvs) = _
    rw [ih, hadd]
    rfl

omit [Descent K] in
theorem mapValues_append (f : V → W) (m : List (K × V)) (e : K × V) :
    mapValues f (m ++ [e]) = mapValues f m ++ [(e.1, f e.2)] := by
  simp [mapValues]

omit [Descent K] in
theorem separated_mapValues (f : V → W) (m : List (K × V)) :
    Separated cmp (mapValues f m) ↔ Separated cmp m := by
  simp [Separated, mapValues, Function.comp_def]

end Walking

section Plain
variable {cmp} [DecidableEq K] {S : K → Prop}

omit [Descent K] [DecidableEq K] in
theorem separated_of_nodup (hcmp : ∀ a b, cmp a b = 0 ↔ a = b) {m : List (K × V)}
    (hn : (m.map Prod.fst).Nodup) : Separated cmp m :=
  hn.imp fun hne hzero => hne ((hcmp _ _).mp hzero)

theorem add_eq_insert (hf : Finds cmp S) (hcmp : ∀ a b, cmp a b = 0 ↔ a = b) {m : List (K × V)}
    (hm : ∀ e ∈ m, S e.1) (hn : (m.map Prod.fst).Nodup) (k : K) (v : V) :
    add cmp m k v = AssocMap.insert m k v := by
  cases hfind : find cmp m k with
  | none =>
    have hnot : k ∉ m.map Prod.fst := by
      intro hmem
      obtain ⟨e, he, rfl⟩ := List.mem_map.mp hmem
      exact find_none hf hm (separated_of_nodup hcmp hn) (hm e he) hfind e he ((hcmp _ _).mpr rfl)
    simp only [add, hfind, AssocMap.insert_of_not_mem hnot]
  | some i =>
    obtain ⟨⟨k', v'⟩, he, hz⟩ := find_some hfind
    obtain rfl := (hcmp _ _).mp hz
    simp only [add, hfind, AssocMap.insert_eq_set hn he]

theorem lookup_eq_search (hf : Finds cmp S) (hcmp : ∀ a b, cmp a b = 0 ↔ a = b) {m : List (K × V)}
    (hm : ∀ e ∈ m, S e.1) (hn : (m.map Prod.fst).Nodup) (k : K) :
    lookup cmp m k = AssocMap.search m k := by
  cases hl : lookup cmp m k with
  | none =>
    symm
    rw [AssocMap.search_eq_none]
    intro hmem
    obtain ⟨e, he, rfl⟩ := List.mem_map.mp hmem
    exact lookup_none hf hm (separated_of_nodup hcmp hn) (hm e he) hl e he ((hcmp _ _).mpr rfl)
  | some v =>
    obtain ⟨k', hmem, hz⟩ := lookup_some hl
    obtain rfl := (hcmp _ _).mp hz
    exact (AssocMap.search_of_mem hn hmem).symm

theorem foldl_add_eq_insert (hf : Finds cmp S) (hcmp : ∀ a b, cmp a b = 0 ↔ a = b) {m : List (K × V)}
    (hm : ∀ e ∈ m, S e.1) (hn : (m.map Prod.fst).Nodup) {kvs : List (K × V)} (hkvs : ∀ x ∈ kvs, S x.1) :
    kvs.foldl (fun m x => add cmp m x.1 x.2) m =
      kvs.foldl (fun m x => AssocMap.insert m x.1 x.2) m := by
  induction kvs generalizing m with
  | nil => rfl
  | cons x kvs ih =>
    obtain ⟨hx, hkvs⟩ := List.forall_mem_cons.mp hkvs
    rw [List.foldl_cons, List.foldl_cons, add_eq_insert hf hcmp hm hn]
    refine ih ?_ (AssocMap.nodup_insert hn x.1 x.2) hkvs
    intro e he
    rcases AssocMap.mem_insert he with rfl | he
    · exact hx
    · exact hm e he

end Plain

section Exact
variable {cmp} {S : K → Prop} {R : K → K → Prop} [DecidableRel R]

structure Grouped (S : K → Prop) (R : K → K → Prop) [DecidableRel R]
    (kvs : List (K × V)) (m : List (K × List V)) : Prop where
  key_mem : ∀ e ∈ m, S e.1
  nonempty : ∀ e ∈ m, e.2 ≠ []
  value : ∀ e ∈ m, e.2 = valuesOf R kvs e.1
  cover : ∀ x ∈ kvs, ∃ e ∈ m, R e.1 x.1

theorem Grouped.push_of_none (hf : Finds cmp S) (hc : Consistent cmp S R) {kvs : List (K × V)}
    {m : List (K × List V)} (hs : Separated cmp m) (h : Grouped S R kvs m) (x : K × V) (hx : S x.1)
    (hfind : find cmp m x.1 = none) : Grouped S R (kvs ++ [x]) (push cmp m x.1 x.2) := by
  have hn : ∀ e ∈ m, ¬ R e.1 x.1 := by
    intro e he hr
    exact find_none hf h.key_mem hs hx hfind e he ((hc.zero_iff _ _ (h.key_mem e he) hx).mpr hr)
  rw [push_new hfind]
  refine ⟨?_, ?_, ?_, ?_⟩
  · intro e he
    rcases List.mem_append.mp he with he | he
    · exact h.key_mem e he
    · obtain rfl : e = (x.1, [x.2]) := by simpa using he
      exact hx
  · intro e he
    rcases List.mem_append.mp he with he | he
    · exact h.nonempty e he
    · obtain rfl : e = (x.1, [x.2]) := by simpa using he
      simp
  · intro e he
    rw [valuesOf_append]
    rcases List.mem_append.mp he with he | he
    · have hne : ¬ R x.1 e.1 := fun hr => hn e he (hc.equiv.symm hr)
      simp [h.value e he, hne]
    · obtain rfl : e = (x.1, [x.2]) := by simpa using he
      have hnil : valuesOf R kvs x.1 = [] := by
        simp only [valuesOf, List.map_eq_nil_iff, List.filter_eq_nil_iff, decide_eq_true_eq]
        intro y hy hr
        obtain ⟨e, he, hey⟩ := h.cover y hy
        exact hn e he (hc.equiv.trans hey hr)
      simp [hnil, hc.equiv.refl x.1]
  · intro y hy
    rcases List.mem_append.mp hy with hy | hy
    · obtain ⟨e, he, hr⟩ := h.cover y hy
      exact ⟨e, List.mem_append_left _ he, hr⟩
    · obtain rfl : y = x := by simpa using hy
      exact ⟨(y.1, [y.2]), by simp, hc.equiv.refl y.1⟩

theorem Grouped.push_of_some (hc : Consistent cmp S R) {kvs : List (K × V)} {m : List (K × List V)}
    (hs : Separated cmp m) (h : Grouped S R kvs m) (x : K × V) (hx : S x.1) {i : Nat}
    (hf : find cmp m x.1 = some i) : Grouped S R (kvs ++ [x]) (push cmp m x.1 x.2) := by
  obtain ⟨e₀, he₀, hz⟩ := find_some hf
  have hr₀ : R e₀.1 x.1 := (hc.zero_iff _ _ (h.key_mem e₀ (List.mem_of_getElem? he₀)) hx).mp hz
  -- every node of the new tree is an old node, with the value added at index i only
  have hold : ∀ e ∈ KeyedTree.push cmp m x.1 x.2, ∃ j e', m[j]? = some e' ∧
      e = if i = j then (e'.1, e'.2 ++ [x.2]) else e' := by
    intro e he
    obtain ⟨j, hj⟩ := List.mem_iff_getElem?.mp he
    rw [getElem?_push_found hf] at hj
    obtain ⟨e', he', heq⟩ := Option.map_eq_some_iff.mp hj
    exact ⟨j, e', he', heq.symm⟩
  refine ⟨?_, ?_, ?_, ?_⟩
  · intro e he
    obtain ⟨j, e', he', rfl⟩ := hold e he
    have hk := h.key_mem e' (List.mem_of_getElem? he')
    by_cases hij : i = j <;> simpa [hij] using hk
  · intro e he
    obtain ⟨j, e', he', rfl⟩ := hold e he
    have hne := h.nonempty e' (List.mem_of_getElem? he')
    by_cases hij : i = j <;> simp [hij, hne]
  · intro e he
    obtain ⟨j, e', he', rfl⟩ := hold e he
    have hm' := List.mem_of_getElem? he'
    rw [valuesOf_append]
    by_cases hij : i = j
    · subst hij
      obtain rfl : e' = e₀ := by rw [he'] at he₀; exact Option.some.inj he₀
      have hr : R x.1 e'.1 := hc.equiv.symm hr₀
      simp [hr, h.value e' hm']
    · have hne : ¬ R x.1 e'.1 := by
        intro hr
        have hm₀ := List.mem_of_getElem? he₀
        have hre : R e₀.1 e'.1 := hc.equiv.trans hr₀ hr
        exact hij (hs.index_unique he₀ he'
          ((hc.zero_iff _ _ (h.key_mem _ hm₀) (h.key_mem _ hm')).mpr hre)
          ((hc.zero_iff _ _ (h.key_mem _ hm') (h.key_mem _ hm₀)).mpr (hc.equiv.symm hre)))
      simp [hij, hne, h.value e' hm']
  · intro y hy
    have hkeep : ∀ e ∈ m, ∃ e' ∈ KeyedTree.push cmp m x.1 x.2, e'.1 = e.1 := by
      intro e he
      have hk : e.1 ∈ (KeyedTree.push cmp m x.1 x.2).map Prod.fst := by
        rw [keys_push, hf]
        exact List.mem_map_of_mem he
      exact List.mem_map.mp hk
    rcases List.mem_append.mp hy with hy | hy
    · obtain ⟨e, he, hr⟩ := h.cover y hy
      obtain ⟨e', he', hk⟩ := hkeep e he
      exact ⟨e', he', by rwa [hk]⟩
    · obtain rfl : y = x := by simpa using hy
      obtain ⟨e', he', hk⟩ := hkeep e₀ (List.mem_of_getElem? he₀)
      exact ⟨e', he', by rwa [hk]⟩

theorem Grouped.push (hf : Finds cmp S) (hc : Consistent cmp S R) {kvs : List (K × V)}
    {m : List (K × List V)} (hs : Separated cmp m) (h : Grouped S R kvs m) (x : K × V) (hx : S x.1) :
    Grouped S R (kvs ++ [x]) (push cmp m x.1 x.2) := by
  cases hfind : find cmp m x.1 with
  | none => exact h.push_of_none hf hc hs x hx hfind
  | some i => exact h.push_of_some hc hs x hx hfind

theorem grouped_pushAll (hf : Finds cmp S) (hc : Consistent cmp S R) (kvs : List (K × V))
    (hS : ∀ x ∈ kvs, S x.1) : Grouped S R kvs (pushAll cmp [] kvs) := by
  induction kvs using List.reverseRecOn with
  | nil => exact ⟨by simp [pushAll], by simp [pushAll], by simp [pushAll], by simp⟩
  | append_singleton kvs x ih =>
    have hkvs : ∀ y ∈ kvs, S y.1 := fun y hy => hS y (List.mem_append_left _ hy)
    have hp := (ih hkvs).push hf hc (separated_pushAll_nil hf hkvs) x (hS x (by simp))
    simpa only [pushAll, List.foldl_append, List.foldl_cons, List.foldl_nil] using hp

omit [DecidableRel R] in
/-- Of two trees with the same nodes a search finds a node in both or in none. -/
theorem lookup_perm_cases (hf : Finds cmp S) {m m' : List (K × V)} (hp : m'.Perm m) (hs : Separated cmp m)
    (hs' : Separated cmp m') (hS : ∀ e ∈ m, S e.1) {k : K} (hk : S k) :
    (lookup cmp m' k = none ∧ lookup cmp m k = none) ∨ ∃ a ∈ m, ∃ b ∈ m,
      cmp a.1 k = 0 ∧ cmp b.1 k = 0 ∧ lookup cmp m' k = some a.2 ∧ lookup cmp m k = some b.2 := by
  have hS' : ∀ e ∈ m', S e.1 := fun e he => hS e (hp.mem_iff.mp he)
  cases hl : lookup cmp m k with
  | none =>
    have hmiss := lookup_none hf hS hs hk hl
    exact .inl ⟨lookup_none_of_forall fun e he => hmiss e (hp.mem_iff.mp he), rfl⟩
  | some v =>
    obtain ⟨b, hb, hzb⟩ := lookup_some hl
    cases hl' : lookup cmp m' k with
    | none => exact absurd hzb (lookup_none hf hS' hs' hk hl' _ (hp.mem_iff.mpr hb))
    | some w =>
      obtain ⟨a, ha, hza⟩ := lookup_some hl'
      exact .inr ⟨_, hp.mem_iff.mp ha, _, hb, hza, hzb, rfl, rfl⟩

omit [DecidableRel R] in
/-- With a consistent comparator a search does not depend on the shape of the tree. -/
theorem lookup_perm (hf : Finds cmp S) (hc : Consistent cmp S R) {m m' : List (K × V)}
    (hp : m'.Perm m) (hs : Separated cmp m) (hs' : Separated cmp m') (hS : ∀ e ∈ m, S e.1) {k : K}
    (hk : S k) : lookup cmp m' k = lookup cmp m k := by
  rcases lookup_perm_cases hf hp hs hs' hS hk with ⟨hnone', hnone⟩ | ⟨a, ha, b, hb, hza, hzb, hl', hl⟩
  · rw [hnone', hnone]
  · have hRa : R a.1 k := (hc.zero_iff _ _ (hS _ ha) hk).mp hza
    have hRb : R b.1 k := (hc.zero_iff _ _ (hS _ hb) hk).mp hzb
    have hab : R a.1 b.1 := hc.equiv.trans hRa (hc.equiv.symm hRb)
    have hsame : a = b := hs.eq_of_mem ha hb ((hc.zero_iff _ _ (hS _ ha) (hS _ hb)).mpr hab)
      ((hc.zero_iff _ _ (hS _ hb) (hS _ ha)).mpr (hc.equiv.symm hab))
    rw [hl', hl, hsame]

/-- With a consistent comparator a search returns exactly the values pushed
under an equivalent key, and misses when there is none. -/
theorem lookup_pushAll (hf : Finds cmp S) (hc : Consistent cmp S R) (kvs : List (K × V))
    (hS : ∀ x ∈ kvs, S x.1) {k : K} (hk : S k) :
    lookup cmp (pushAll cmp [] kvs) k =
      if valuesOf R kvs k = [] then none else some (valuesOf R kvs k) := by
  have hg := grouped_pushAll hf hc kvs hS
  cases hl : lookup cmp (pushAll cmp [] kvs) k with
  | none =>
    have hnil : valuesOf R kvs k = [] := by
      simp only [valuesOf, List.map_eq_nil_iff, List.filter_eq_nil_iff, decide_eq_true_eq]
      intro x hx hr
      obtain ⟨e, he, hex⟩ := hg.cover x hx
      exact lookup_none hf hg.key_mem (separated_pushAll_nil hf hS) hk hl e he
        ((hc.zero_iff _ _ (hg.key_mem e he) hk).mpr (hc.equiv.trans hex hr))
    rw [if_pos hnil]
  | some l =>
    obtain ⟨k', hm, hz⟩ := lookup_some hl
    have hr : R k' k := (hc.zero_iff _ _ (hg.key_mem _ hm) hk).mp hz
    have hv : l = valuesOf R kvs k := (hg.value _ hm).trans (valuesOf_congr hc.equiv hr kvs)
    rw [← hv, if_neg (hg.nonempty _ hm)]

end Exact

section Converse
variable {cmp} {R : K → K → Prop} [DecidableRel R]

theorem total_pushAll (cmp : K → K → Int) (m : List (K × List V)) (kvs : List (K × V)) :
    total (pushAll cmp m kvs) = total m + kvs.length := by
  induction kvs generalizing m with
  | nil => rfl
  | cons x kvs ih =>
    have hx : total (push cmp m x.1 x.2) = total m + 1 := by
      cases hf : find cmp m x.1 with
      | none => simp [push_new hf, total]
      | some i =>
        obtain ⟨e, he, -⟩ := find_some hf
        simpa only [push, hf] using total_pushAt m i x.2 (List.getElem?_eq_some_iff.mp he).1
    have h := ih (push cmp m x.1 x.2)
    simp only [List.length_cons]
    change total (pushAll cmp (push cmp m x.1 x.2) kvs) = _
    omega

theorem key_mem_pushAll (m : List (K × List V)) (kvs : List (K × V)) (k : K)
    (h : k ∈ (pushAll cmp m kvs).map Prod.fst) : k ∈ m.map Prod.fst ∨ k ∈ kvs.map Prod.fst := by
  induction kvs generalizing m with
  | nil => exact Or.inl h
  | cons x kvs ih =>
    rcases ih (push cmp m x.1 x.2) h with hk | hk
    · rw [keys_push] at hk
      cases hf : find cmp m x.1 with
      | some i =>
        rw [hf] at hk
        exact Or.inl hk
      | none =>
        simp only [hf, Option.isSome_none, Bool.false_eq_true, if_false, List.mem_append,
          List.mem_singleton] at hk
        rcases hk with hk | hk
        · exact Or.inl hk
        · exact Or.inr (by simp [hk])
    · exact Or.inr (by simp only [List.map_cons, List.mem_cons, hk, or_true])

theorem exists_key_of_mem_pushAll {kvs : List (K × V)} {e : K × List V}
    (he : e ∈ pushAll cmp [] kvs) : ∃ x ∈ kvs, x.1 = e.1 := by
  cases key_mem_pushAll [] kvs e.1 (List.mem_map_of_mem he) with
  | inl h => cases h
  | inr h => exact List.mem_map.mp h

/-- Each node is what a search for its own key finds, so its length is known. -/
theorem length_of_exact {kvs : List (K × V)} (hf : Finds cmp fun k => ∃ x ∈ kvs, x.1 = k)
    (hsymm : ∀ x ∈ kvs, ∀ y ∈ kvs, cmp x.1 y.1 = 0 → cmp y.1 x.1 = 0)
    (hexact : ∀ x ∈ kvs, ∃ l, lookup cmp (pushAll cmp [] kvs) x.1 = some l ∧
      l.length = (valuesOf R kvs x.1).length) {e : K × List V} (he : e ∈ pushAll cmp [] kvs) :
    e.2.length = (valuesOf R kvs e.1).length := by
  have hsep := separated_pushAll_nil hf fun x hx => ⟨x, hx, rfl⟩
  obtain ⟨x, hx, hxe⟩ := exists_key_of_mem_pushAll he
  obtain ⟨l, hl, hlen⟩ := hexact x hx
  obtain ⟨k, hk, hz⟩ := lookup_some hl
  obtain ⟨y, hy, hyk⟩ := exists_key_of_mem_pushAll hk
  have hz' : cmp x.1 k = 0 := by
    obtain rfl : y.1 = k := hyk
    exact hsymm y hy x hx hz
  have hsame : e = (k, l) := hsep.eq_of_mem he hk (by rw [← hxe]; exact hz') (by rw [← hxe]; exact hz)
  rw [← hxe, ← hlen, hsame]

/-- If every key in use is answered with as many values as were pushed under
equivalent keys, then no two inequivalent keys compare equal. -/
theorem equiv_of_exact (hR : Equivalence R) (kvs : List (K × V)) (hf : Finds cmp fun k => ∃ x ∈ kvs, x.1 = k)
    (hrefl : ∀ x ∈ kvs, cmp x.1 x.1 = 0)
    (hsymm : ∀ x ∈ kvs, ∀ y ∈ kvs, cmp x.1 y.1 = 0 → cmp y.1 x.1 = 0)
    (hcongr : ∀ x ∈ kvs, ∀ y ∈ kvs, ∀ z ∈ kvs, R x.1 y.1 → cmp z.1 x.1 = 0 → cmp z.1 y.1 = 0)
    (hexact : ∀ x ∈ kvs, ∃ l, lookup cmp (pushAll cmp [] kvs) x.1 = some l ∧
      l.length = (valuesOf R kvs x.1).length) :
    ∀ x ∈ kvs, ∀ y ∈ kvs, cmp x.1 y.1 = 0 → R x.1 y.1 := by
  have hsep := separated_pushAll_nil hf fun x hx => ⟨x, hx, rfl⟩
  have hnr : ((pushAll cmp [] kvs).map Prod.fst).Pairwise fun a b => ¬ R a b := by
    refine List.Pairwise.imp_of_mem ?_ hsep
    intro a b ha hb hne hr
    obtain ⟨e, he, rfl⟩ := List.mem_map.mp ha
    obtain ⟨e', he', rfl⟩ := List.mem_map.mp hb
    obtain ⟨x, hx, hxe⟩ := exists_key_of_mem_pushAll he
    obtain ⟨y, hy, hye⟩ := exists_key_of_mem_pushAll he'
    rw [← hxe, ← hye] at hr hne
    exact hne (hcongr x hx y hy x hx hr (hrefl x hx))
  have hsum : (((pushAll cmp [] kvs).map Prod.fst).map fun k => (valuesOf R kvs k).length).sum =
      kvs.length := by
    have ht := total_pushAll cmp [] kvs
    simp only [total, List.map_nil, List.sum_nil, Nat.zero_add] at ht
    rw [List.map_map, ← ht]
    exact congrArg List.sum
      (List.map_congr_left fun e he => (length_of_exact hf hsymm hexact he).symm)
  -- the nodes account for all values, so every key is equivalent to that of some node
  have hcov : ∀ x ∈ kvs, ∃ e ∈ pushAll cmp [] kvs, ∃ u ∈ kvs, u.1 = e.1 ∧ R x.1 u.1 := by
    intro x hx
    obtain ⟨a, ha, hxa⟩ := (cover_of_sum hR hnr kvs).2 hsum x hx
    obtain ⟨e, he, rfl⟩ := List.mem_map.mp ha
    obtain ⟨u, hu, hue⟩ := exists_key_of_mem_pushAll he
    exact ⟨e, he, u, hu, hue, by rwa [hue]⟩
  intro x hx y hy hz
  obtain ⟨e, he, u, hu, hue, hxu⟩ := hcov x hx
  obtain ⟨e', he', w, hw, hwe, hyw⟩ := hcov y hy
  have hxw : cmp x.1 w.1 = 0 := hcongr y hy w hw x hx hyw hz
  have hwu : cmp w.1 u.1 = 0 := hcongr x hx u hu w hw hxu (hsymm x hx w hw hxw)
  have huw : cmp u.1 w.1 = 0 := hsymm w hw u hu hwu
  have hnode : e = e' :=
    hsep.eq_of_mem he he' (by rw [← hue, ← hwe]; exact huw) (by rw [← hue, ← hwe]; exact hwu)
  rw [hue, hnode, ← hwe] at hxu
  exact hR.trans hxu (hR.symm hyw)

end Converse

end Miqs.KeyedTree
