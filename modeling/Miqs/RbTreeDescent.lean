import Miqs.KeyedTree
import Miqs.RbTreeSize

/-! The red-black tree as a descent for keyed trees, and its calls as calls of a map. -/
namespace Miqs.RbTree
open Miqs.SearchTree Miqs.KeyedTree
variable {K V : Type} {cmp : K → K → Int} {S : K → Prop}

def addNumbered (cmp : K → K → Int) (rbt : Rbt K Nat) (x : K × Nat) : Option (Rbt K Nat) :=
  match rbtFind cmp rbt x.1 with
  | some _ => none
  | none => (rbtAdd cmp (x.2 + 1) rbt x.1 x.2).map Prod.snd

def treeOf (cmp : K → K → Int) (ks : List K) : Option (Rbt K Nat) :=
  ks.zipIdx.foldlM (addNumbered cmp) rbtCreate

def keptTree [DecidableEq K] (cmp : K → K → Int) (ks : List K) : Option (Rbt K Nat) :=
  (treeOf cmp ks).filter fun rbt => (entries rbt.root).Perm ks.zipIdx

theorem treeOf_append (cmp : K → K → Int) (ks : List K) (k : K) :
    treeOf cmp (ks ++ [k]) = (treeOf cmp ks).bind fun rbt => addNumbered cmp rbt (k, ks.length) := by
  rw [treeOf, List.zipIdx_append, List.foldlM_append]
  simp only [List.zipIdx_singleton, List.foldlM_cons, List.foldlM_nil, Nat.zero_add, bind_pure]
  rfl

theorem exists_key_of_mem_zipIdx {ks : List K} {k : K} {i : Nat} (h : (k, i) ∈ ks.zipIdx) :
    ks[i]? = some k := List.mem_zipIdx_iff_getElem?.mp h

/-- Keys that are all apart under an order become a search tree with one node each. -/
theorem treeOf_ordered (hc : StrictOn cmp S) (ks : List K) (hks : ∀ k ∈ ks, S k)
    (hsep : ks.Pairwise fun a b => cmp a b ≠ 0) :
    ∃ rbt, treeOf cmp ks = some rbt ∧ Ordered cmp S rbt.root ∧
      (entries rbt.root).Perm ks.zipIdx := by
  induction ks using List.reverseRecOn with
  | nil => exact ⟨rbtCreate, rfl, ordered_nil, List.Perm.refl _⟩
  | append_singleton ks k ih =>
    obtain ⟨hsep, -, hlast⟩ := List.pairwise_append.mp hsep
    obtain ⟨rbt, htree, hord, hperm⟩ := ih (fun x hx => hks x (by simp [hx])) hsep
    have hk : S k := hks k (by simp)
    have hnew : rbtFind cmp rbt k = none := by
      cases hfind : rbtFind cmp rbt k with
      | none => rfl
      | some i =>
        obtain ⟨k', hmem, hzero⟩ := exists_entry_of_find hfind
        have hk' := exists_key_of_mem_zipIdx (hperm.mem_iff.mp hmem)
        exact absurd hzero (hlast k' (List.mem_of_getElem? hk') k (by simp))
    have hlen : rbt.root.inorder.length < ks.length + 1 := by
      have hlength := hperm.length_eq
      rw [entries, List.length_map, List.length_zipIdx] at hlength
      omega
    obtain ⟨rbt', xs, ys, hadd, hord', hwas, hnow⟩ := rbtAdd_new hc hk ks.length hord hnew hlen
    refine ⟨rbt', ?_, hord', ?_⟩
    · rw [treeOf_append, htree, Option.bind_some, addNumbered, hnew, hadd, Option.map_some]
    · rw [hnow, List.zipIdx_append, List.zipIdx_singleton, Nat.zero_add]
      rw [hwas] at hperm
      exact List.perm_middle.trans ((hperm.cons _).trans (List.perm_append_singleton _ _).symm)

theorem keptTree_some [DecidableEq K] {ks : List K} {rbt : Rbt K Nat} (h : keptTree cmp ks = some rbt) :
    treeOf cmp ks = some rbt ∧ (entries rbt.root).Perm ks.zipIdx := by
  obtain ⟨htree, hperm⟩ := Option.filter_eq_some_iff.mp h
  exact ⟨htree, of_decide_eq_true hperm⟩

theorem keptTree_ordered [DecidableEq K] (hc : StrictOn cmp S) {ks : List K} (hks : ∀ k ∈ ks, S k)
    (hsep : ks.Pairwise fun a b => cmp a b ≠ 0) : ∃ rbt, keptTree cmp ks = some rbt ∧
      Ordered cmp S rbt.root := by
  obtain ⟨rbt, htree, hord, hperm⟩ := treeOf_ordered hc ks hks hsep
  exact ⟨rbt, Option.filter_eq_some_iff.mpr ⟨htree, decide_eq_true hperm⟩, hord⟩

/-- A search tree is searched without a miss, for keys that are level with several nodes too. -/
theorem find_none_of_ordered (hc : OrderedOn cmp S) {rbt : Rbt K V} (h : Ordered cmp S rbt.root) {k : K}
    (hk : S k) (hfind : rbtFind cmp rbt k = none) : ∀ k' ∈ keys rbt.root, cmp k' k ≠ 0 := by
  intro k' hk' hzero
  obtain ⟨x, hx, rfl⟩ := List.mem_map.mp hk'
  have hasc : Ascends (toward cmp k) rbt.root.inorder :=
    hc.ascends (fun y hy => h.keys_in y.key (List.mem_map_of_mem hy)) h.increasing hk
  rw [rbtFind, rbtFindInternal_eq cmp k rbt.root []] at hfind
  rcases @descend_stop _ (toward cmp k) rbt.root [] with hnil | ⟨l, y, r, hnode, -⟩
  · exact descend_ne_nil hasc hx hzero [] hnil
  · simp [hnode, rootValue] at hfind

section Descent
variable [DecidableEq K]

def rbtLocate (cmp : K → K → Int) (ks : List K) (k : K) : Option Nat :=
  match keptTree cmp ks with
  | some rbt => rbtFind cmp rbt k
  | none => ks.findIdx? fun k' => cmp k' k = 0

def rbtWalkOrder (cmp : K → K → Int) (ks : List K) : List Nat :=
  match keptTree cmp ks with
  | some rbt => rbt.root.preorder.map RbtNode.value
  | none => List.range ks.length

theorem rbtLocate_some {ks : List K} {k : K} {i : Nat} (h : rbtLocate cmp ks k = some i) :
    ∃ k', ks[i]? = some k' ∧ cmp k' k = 0 := by
  rw [rbtLocate] at h
  split at h
  next rbt hkept =>
    obtain ⟨-, hperm⟩ := keptTree_some hkept
    obtain ⟨k', hmem, hzero⟩ := exists_entry_of_find h
    exact ⟨k', exists_key_of_mem_zipIdx (hperm.mem_iff.mp hmem), hzero⟩
  next => exact Descent.oldest.locate_some h

theorem rbtLocate_none {ks : List K} {k : K} (hc : OrderedOn cmp (· ∈ k :: ks))
    (hsep : ks.Pairwise fun a b => cmp a b ≠ 0) (h : rbtLocate cmp ks k = none) :
    ∀ k' ∈ ks, cmp k' k ≠ 0 := by
  have hstrict : StrictOn cmp (· ∈ ks) := (hc.mono fun x hx => by simp [hx]).strict hsep
  obtain ⟨rbt, hkept, hord⟩ := keptTree_ordered hstrict (fun _ => id) hsep
  obtain ⟨-, hperm⟩ := keptTree_some hkept
  simp only [rbtLocate, hkept] at h
  intro k' hk'
  have hkeys : k' ∈ keys rbt.root := by
    rw [keys_eq_entries, (hperm.map Prod.fst).mem_iff, List.zipIdx_map_fst]
    exact hk'
  exact find_none_of_ordered hc ⟨fun x hx => by simp [hord.keys_in x hx], hord.increasing⟩
    (by simp) h k' hkeys

theorem rbtWalkOrder_perm (cmp : K → K → Int) (ks : List K) :
    (rbtWalkOrder cmp ks).Perm (List.range ks.length) := by
  rw [rbtWalkOrder]
  split
  next rbt hkept =>
    obtain ⟨-, hperm⟩ := keptTree_some hkept
    have hvalues := rbt.root.preorder_perm_inorder.map RbtNode.value
    have hentries := hperm.map Prod.snd
    rw [entries, List.map_map, List.zipIdx_map_snd, ← List.range_eq_range'] at hentries
    exact hvalues.trans hentries
  next => exact List.Perm.refl _

/-- The descent of the red-black tree. Where its calls of `rbt_add` do not make one node for each
key, which they do under an order, it is the descent that tries the nodes one after another. -/
@[reducible] def rbtDescent : Descent K where
  locate := rbtLocate
  walkOrder := rbtWalkOrder
  locate_some := rbtLocate_some
  locate_none := rbtLocate_none
  walkOrder_perm := rbtWalkOrder_perm

theorem rbtLocate_of_kept {ks : List K} {rbt : Rbt K Nat} (h : keptTree cmp ks = some rbt) (k : K) :
    rbtLocate cmp ks k = rbtFind cmp rbt k := by simp only [rbtLocate, h]

theorem rbtWalkOrder_of_kept {ks : List K} {rbt : Rbt K Nat} (h : keptTree cmp ks = some rbt) :
    rbtWalkOrder cmp ks = rbt.root.preorder.map RbtNode.value := by simp only [rbtWalkOrder, h]

end Descent

structure HoldsMap (cmp : K → K → Int) (S : K → Prop) (rbt : Rbt K V) (m : List (K × V)) : Prop where
  ordered : Ordered cmp S rbt.root
  entries_perm : (entries rbt.root).Perm m

theorem holdsMap_create : HoldsMap cmp S (rbtCreate : Rbt K V) [] := ⟨ordered_nil, List.Perm.refl _⟩

theorem HoldsMap.keys_in {rbt : Rbt K V} {m : List (K × V)} (h : HoldsMap cmp S rbt m) :
    ∀ e ∈ m, S e.1 := fun _ he => h.ordered.keys_in _ (mem_keys_of_entry (h.entries_perm.mem_iff.mpr he))

theorem HoldsMap.nodup (hc : StrictOn cmp S) {rbt : Rbt K V} {m : List (K × V)} (h : HoldsMap cmp S rbt m) :
    (m.map Prod.fst).Nodup := by
  rw [← (h.entries_perm.map Prod.fst).nodup_iff, ← keys_eq_entries]
  exact h.ordered.nodup hc

theorem HoldsMap.separated (hc : StrictOn cmp S) {rbt : Rbt K V} {m : List (K × V)}
    (h : HoldsMap cmp S rbt m) : Separated cmp m := by
  have hkeys : ∀ k ∈ m.map Prod.fst, S k := List.forall_mem_map.mpr h.keys_in
  refine List.Pairwise.imp_of_mem ?_ (h.nodup hc)
  intro a b ha hb hne hzero
  exact hne ((hc.zero_iff (hkeys a ha) (hkeys b hb)).mp hzero)

theorem HoldsMap.length_eq {rbt : Rbt K V} {m : List (K × V)} (h : HoldsMap cmp S rbt m) :
    rbt.root.inorder.length = m.length := by
  rw [← h.entries_perm.length_eq, entries, List.length_map]

section Map
variable [Descent K]

theorem HoldsMap.find (hc : StrictOn cmp S) {rbt : Rbt K V} {m : List (K × V)} (h : HoldsMap cmp S rbt m)
    {k : K} (hk : S k) : rbtFind cmp rbt k = lookup cmp m k := by
  have hiff := rbtFindInternal_iff hc h.ordered hk
  cases hl : lookup cmp m k with
  | some v =>
    obtain ⟨k', hmem, hzero⟩ := lookup_some hl
    obtain rfl := (hc.zero_iff (h.keys_in _ hmem) hk).mp hzero
    exact (hiff v).mpr (h.entries_perm.mem_iff.mpr hmem)
  | none =>
    cases hfind : rbtFind cmp rbt k with
    | none => rfl
    | some v =>
      have hmem := h.entries_perm.mem_iff.mp ((hiff v).mp hfind)
      have hmiss := lookup_none (finds_of_ordered hc.toOrderedOn) h.keys_in (h.separated hc) hk hl
      exact absurd ((hc.zero_iff hk hk).mpr rfl) (hmiss _ hmem)

theorem HoldsMap.add (hc : StrictOn cmp S) {fuel : Nat} {rbt : Rbt K V} {m : List (K × V)}
    (h : HoldsMap cmp S rbt m) {k : K} (hk : S k) (v : V) (hfuel : rbt.root.inorder.length < fuel) :
    ∃ rc rbt', rbtAdd cmp fuel rbt k v = some (rc, rbt') ∧ HoldsMap cmp S rbt' (add cmp m k v) := by
  obtain ⟨xs, ys, hplaced, hxs, hys⟩ := rbtAddInternal_placed hc h.ordered hk v
  have hlen := (rbtAddInternal_path_length cmp ⟨.red, k, v⟩ rbt.root).trans_lt hfuel
  obtain ⟨rbt', hadd, hentries, -⟩ := rbtAdd_entries hc fuel rbt hk v h.ordered rfl hlen
  refine ⟨_, rbt', hadd, (hplaced.ordered hc h.ordered hk hxs hys).of_entries hentries, ?_⟩
  rw [hentries, hplaced.entries_eq]
  have hperm := h.entries_perm
  rcases hplaced.was with ⟨-, hin⟩ | ⟨-, x, hx, hin⟩
  · rw [entries, hin, List.map_append] at hperm
    have hnone : KeyedTree.find cmp m k = none := by
      apply find_none_of_forall
      intro e he hzero
      obtain ⟨z, hz, hze⟩ : ∃ z ∈ xs ++ ys, z.key = e.1 := by
        have hmem := hperm.mem_iff.mpr he
        rw [← List.map_append] at hmem
        obtain ⟨z, hz, rfl⟩ := List.mem_map.mp hmem
        exact ⟨z, hz, rfl⟩
      rw [← hze] at hzero
      rcases List.mem_append.mp hz with hz | hz
      · exact (hxs z hz).ne hzero
      · exact (hys z hz).ne' hzero
    simp only [KeyedTree.add, hnone]
    exact List.perm_middle.trans ((hperm.cons _).trans (List.perm_append_singleton _ _).symm)
  · rw [entries, hin, List.map_append, List.map_cons] at hperm
    have hmem : (k, x.value) ∈ m := hperm.mem_iff.mp (by simp [RbtNode.entry, hx])
    obtain ⟨i, hfind⟩ : ∃ i, KeyedTree.find cmp m k = some i := by
      refine Option.ne_none_iff_exists'.mp fun hnone => ?_
      exact find_none (finds_of_ordered hc.toOrderedOn) h.keys_in (h.separated hc) hk hnone _ hmem
        ((hc.zero_iff hk hk).mpr rfl)
    obtain ⟨e, he, hzero⟩ := find_some hfind
    have hek := (hc.zero_iff (h.keys_in e (List.mem_of_getElem? he)) hk).mp hzero
    obtain ⟨hi, hget⟩ := List.getElem?_eq_some_iff.mp he
    have hsame : m[i] = (k, x.value) := by
      rw [hget]
      exact List.inj_on_of_nodup_map (h.nodup hc) (List.mem_of_getElem? he) hmem hek
    have hrest : (xs.map RbtNode.entry ++ ys.map RbtNode.entry).Perm (m.eraseIdx i) := by
      have hall := List.perm_middle.symm.trans (hperm.trans (List.getElem_cons_eraseIdx_perm hi).symm)
      rw [hsame, RbtNode.entry, hx] at hall
      exact hall.cons_inv
    simp only [KeyedTree.add, hfind]
    exact List.perm_middle.trans ((hrest.cons _).trans (List.set_perm_cons_eraseIdx hi _).symm)

theorem length_add_le (cmp : K → K → Int) (m : List (K × V)) (k : K) (v : V) :
    (KeyedTree.add cmp m k v).length ≤ m.length + 1 := by
  rw [KeyedTree.add]
  split <;> simp

theorem rbtAdds_holdsMap (hc : StrictOn cmp S) (fuel : Nat) (kvs : List (K × V)) (hS : ∀ x ∈ kvs, S x.1)
    {rbt : Rbt K V} {m : List (K × V)} (h : HoldsMap cmp S rbt m) (hfuel : m.length + kvs.length ≤ fuel) :
    ∃ rbt', rbtAdds cmp fuel rbt kvs = some rbt' ∧
      HoldsMap cmp S rbt' (addAll cmp m kvs) := by
  induction kvs generalizing rbt m with
  | nil => exact ⟨rbt, rfl, h⟩
  | cons x kvs ih =>
    obtain ⟨hx, hS⟩ := List.forall_mem_cons.mp hS
    rw [List.length_cons] at hfuel
    obtain ⟨rc, rbt₁, hadd, h₁⟩ := h.add hc hx x.2 (show _ < fuel by rw [h.length_eq]; omega)
    have hlen := length_add_le cmp m x.1 x.2
    obtain ⟨rbt₂, hadds, h₂⟩ := ih hS h₁ (by omega)
    exact ⟨rbt₂, by rw [rbtAdds, List.foldlM_cons, hadd]; exact hadds, h₂⟩

/-- Any calls of `rbt_add` under a strict order are calls of the map, and `rbt_find` then finds
what the map holds. -/
theorem rbt_calls_are_map_calls (hc : StrictOn cmp S) {fuel : Nat} {kvs : List (K × V)}
    (hS : ∀ x ∈ kvs, S x.1) (hfuel : kvs.length ≤ fuel) :
    ∃ rbt, rbtAdds cmp fuel rbtCreate kvs = some rbt ∧ ∀ k, S k →
      rbtFind cmp rbt k = lookup cmp (addAll cmp [] kvs) k := by
  obtain ⟨rbt, hadds, h⟩ := rbtAdds_holdsMap hc fuel kvs hS holdsMap_create (by simpa using hfuel)
  exact ⟨rbt, hadds, fun k hk => h.find hc hk⟩

end Map

end Miqs.RbTree
