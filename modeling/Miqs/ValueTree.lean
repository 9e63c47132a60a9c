import Miqs.KeyOrder
import Miqs.RbTreeDescent
import Miqs.Runs

/-! The value tree of an attribute name as the red-black tree that it is. The comparator of
ints wraps around, so that it orders the keys only where they lie close together. -/
namespace Miqs.ValueTree
open Miqs.CData Miqs.SearchTree Miqs.RbTree
variable {π : Type}

/-- `leaf_cnt->rbt`. The values are the numbers of the lists of pairs, in the order in which
`list_create` made them. -/
structure Leaf (π : Type) where
  rbt : Rbt NumKey Nat
  lists : List (List π)

def Leaf.create : Leaf π := ⟨rbtCreate, []⟩

def indexingValue (cmp : NumKey → NumKey → Int) (fuel : Nat) (s : Leaf π) (key : NumKey)
    (pair : π) : Option (Leaf π) :=
  match rbtFind cmp s.rbt key with
  | some entry => some ⟨s.rbt, s.lists.modify entry (· ++ [pair])⟩
  | none => do
    let (_, rbt) ← rbtAdd cmp fuel s.rbt key s.lists.length
    some ⟨rbt, s.lists ++ [[pair]]⟩

def indexingInts (fuel : Nat) (kvs : List (CInt × π)) : Option (Leaf π) :=
  kvs.foldlM (fun s x => indexingValue libhlCmpKeysInt fuel s (.int x.1) x.2) .create

section Map
open KeyedTree
variable {cmp : NumKey → NumKey → Int} {S : NumKey → Prop}

structure IsMap (cmp : NumKey → NumKey → Int) (S : NumKey → Prop) (s : Leaf π)
    (m : List (NumKey × List π)) : Prop where
  tree : keptTree cmp (m.map Prod.fst) = some s.rbt
  lists : s.lists = m.map Prod.snd
  keys_in : ∀ e ∈ m, S e.1
  separated : Separated cmp m

theorem IsMap.find {s : Leaf π} {m : List (NumKey × List π)} (h : IsMap cmp S s m) (k : NumKey) :
    @KeyedTree.find _ _ rbtDescent cmp m k = rbtFind cmp s.rbt k := by
  exact rbtLocate_of_kept h.tree k

/-- What is found in the tree is found in the map. -/
theorem IsMap.lookup {s : Leaf π} {m : List (NumKey × List π)} (h : IsMap cmp S s m) (k : NumKey) :
    ((rbtFind cmp s.rbt k).bind fun i => s.lists[i]?) = @KeyedTree.lookup _ _ rbtDescent cmp m k := by
  unfold KeyedTree.lookup
  rw [h.find k, h.lists]
  simp only [List.getElem?_map]

/-- A walk of the tree is a walk of the map. -/
theorem IsMap.walk {s : Leaf π} {m : List (NumKey × List π)} (h : IsMap cmp S s m) :
    @KeyedTree.walk _ _ rbtDescent cmp m =
      (s.rbt.root.preorder.map RbtNode.value).filterMap fun i => m[i]? := by
  change Reorder.reorder (rbtWalkOrder cmp (m.map Prod.fst)) m = _
  rw [rbtWalkOrder_of_kept h.tree]
  rfl

theorem IsMap.step (hc : OrderedOn cmp S) {s : Leaf π} {m : List (NumKey × List π)} (h : IsMap cmp S s m)
    {k : NumKey} (hk : S k) (pair : π) {fuel : Nat} (hfuel : m.length < fuel) :
    ∃ s', indexingValue cmp fuel s k pair = some s' ∧ IsMap cmp S s' (@push _ _ rbtDescent cmp m k pair) := by
  have hkeys := @forall_key_push _ _ rbtDescent cmp S m h.keys_in k hk pair
  have hsep := @separated_push _ _ rbtDescent cmp S (@finds_of_ordered _ rbtDescent _ _ hc) m h.keys_in
    h.separated k hk pair
  have hmap := @keys_push _ _ rbtDescent cmp m k pair
  rw [indexingValue, ← h.find k]
  cases hfind : @KeyedTree.find _ _ rbtDescent cmp m k with
  | some i =>
    rw [hfind] at hmap
    refine ⟨_, rfl, ⟨?_, ?_, hkeys, hsep⟩⟩
    · rw [hmap]
      exact h.tree
    · apply List.ext_getElem?
      intro j
      rw [h.lists, List.getElem?_map, @getElem?_push_found _ _ rbtDescent _ _ _ _ hfind, List.getElem?_modify, List.getElem?_map]
      cases m[j]? with
      | none => rfl
      | some e => by_cases hij : i = j <;> simp [hij]
  | none =>
    have hpush := @push_new _ _ rbtDescent cmp m k hfind pair
    rw [hpush] at hsep hkeys ⊢
    have hall : ∀ k' ∈ (m ++ [(k, [pair])]).map Prod.fst, S k' := List.forall_mem_map.mpr hkeys
    obtain ⟨rbt, hkept, -⟩ := keptTree_ordered ((hc.mono hall).strict hsep) (fun _ => id) hsep
    have htree := (keptTree_some hkept).1
    rw [List.map_append, List.map_singleton, treeOf_append, (keptTree_some h.tree).1, Option.bind_some,
      addNumbered, ← h.find k, hfind] at htree
    obtain ⟨⟨rc, rbt'⟩, hadd, rfl⟩ := Option.map_eq_some_iff.mp htree
    rw [List.length_map] at hadd
    refine ⟨⟨rbt', s.lists ++ [[pair]]⟩, ?_, ⟨hkept, ?_, hkeys, hsep⟩⟩
    · rw [h.lists, List.length_map, rbtAdd_mono hfuel hadd]
      rfl
    · rw [h.lists, List.map_append, List.map_singleton]

/-- Indexing keys that the comparator orders is pushing them into the map by which the index is
otherwise modelled, with the descent of red-black trees. -/
theorem indexing_is_pushAll (hc : OrderedOn cmp S) (fuel : Nat) (kvs : List (NumKey × π))
    (hS : ∀ x ∈ kvs, S x.1) (hfuel : kvs.length < fuel) :
    ∃ s, kvs.foldlM (fun s x => indexingValue cmp fuel s x.1 x.2) Leaf.create = some s ∧
      IsMap cmp S s (@pushAll _ _ rbtDescent cmp [] kvs) := by
  induction kvs using List.reverseRecOn with
  | nil => exact ⟨_, rfl, rfl, rfl, by simp [pushAll], separated_nil cmp⟩
  | append_singleton kvs x ih =>
    rw [List.length_append, List.length_singleton] at hfuel
    obtain ⟨s, hs, hmap⟩ := ih (fun y hy => hS y (by simp [hy])) (by omega)
    have hlen := @length_pushAll_le _ _ rbtDescent cmp [] kvs
    rw [List.length_nil, Nat.zero_add] at hlen
    obtain ⟨s', hs', hmap'⟩ := hmap.step hc (hS x (by simp)) x.2 (show _ < fuel by omega)
    refine ⟨s', ?_, ?_⟩
    · rw [Runs.foldlM_append_some _ _ _ _ s hs, List.foldlM_cons, hs']
      rfl
    · unfold pushAll
      rw [List.foldl_append]
      exact hmap'

end Map

def pairsOf (kvs : List (CInt × π)) (k : NumKey) : List π :=
  (kvs.filter fun x => NumKey.int x.1 = k).map Prod.snd

theorem pairsOf_append (kvs : List (CInt × π)) (x : CInt × π) (k : NumKey) :
    pairsOf (kvs ++ [x]) k = pairsOf kvs k ++ if NumKey.int x.1 = k then [x.2] else [] := by
  by_cases h : NumKey.int x.1 = k <;> simp [pairsOf, h]

structure Holds (b : CInt) (kvs : List (CInt × π)) (s : Leaf π) : Prop where
  ordered : Ordered libhlCmpKeysInt (WindowKey b) s.rbt.root
  mem_keys : ∀ k, k ∈ keys s.rbt.root ↔ k ∈ kvs.map fun x => NumKey.int x.1
  lists_eq : ∀ k i, (k, i) ∈ entries s.rbt.root → s.lists[i]? = some (pairsOf kvs k)
  lists_own : ∀ k k' i, (k, i) ∈ entries s.rbt.root → (k', i) ∈ entries s.rbt.root → k = k'

theorem holds_create (b : CInt) : Holds b [] (.create : Leaf π) where
  ordered := ordered_nil
  mem_keys := by simp [Leaf.create, rbtCreate, keys, BinTree.inorder]
  lists_eq := by simp [Leaf.create, rbtCreate]
  lists_own := by simp [Leaf.create, rbtCreate]

/-- There are no more nodes than values. -/
theorem Holds.length_le {b : CInt} {kvs : List (CInt × π)} {s : Leaf π} (h : Holds b kvs s) :
    s.rbt.root.inorder.length ≤ kvs.length := by
  have hsub := List.subperm_of_subset (h.ordered.nodup (strictOn_window b))
    fun k hk => (h.mem_keys k).mp hk
  simpa [keys] using hsub.length_le

/-- A value that is found gets one more pair in its list. -/
theorem Holds.push {b : CInt} {kvs : List (CInt × π)} {s : Leaf π} (h : Holds b kvs s) {x : CInt × π}
    {i : Nat} (hi : (NumKey.int x.1, i) ∈ entries s.rbt.root) :
    Holds b (kvs ++ [x]) ⟨s.rbt, s.lists.modify i (· ++ [x.2])⟩ where
  ordered := h.ordered
  mem_keys := by
    intro k
    have hx := (h.mem_keys _).mp (mem_keys_of_entry hi)
    rw [h.mem_keys, List.map_append, List.mem_append]
    refine ⟨Or.inl, fun hk => hk.elim id ?_⟩
    simp only [List.map_cons, List.map_nil, List.mem_singleton]
    rintro rfl
    exact hx
  lists_eq := by
    intro k j hj
    rw [pairsOf_append, List.getElem?_modify]
    have hk := h.lists_eq k j hj
    by_cases hij : i = j
    · subst hij
      have hkx := h.lists_own _ _ _ hi hj
      simp [hk, hkx]
    · have hkx : NumKey.int x.1 ≠ k := by
        intro heq
        have hfind := (rbtFindInternal_iff (strictOn_window b) h.ordered
          (h.ordered.keys_in k (mem_keys_of_entry hj)) j).mpr hj
        rw [← heq, (rbtFindInternal_iff (strictOn_window b) h.ordered
          (h.ordered.keys_in _ (mem_keys_of_entry hi)) i).mpr hi,
          Option.some.injEq] at hfind
        exact hij hfind
      simp [hij, hk, hkx]
  lists_own := h.lists_own

theorem Holds.pairsOf_eq_nil {b : CInt} {kvs : List (CInt × π)} {s : Leaf π} (h : Holds b kvs s)
    {k : NumKey} (hk : k ∉ keys s.rbt.root) : pairsOf kvs k = [] := by
  have hnot : k ∉ kvs.map fun x => NumKey.int x.1 := fun hmap => hk ((h.mem_keys k).mpr hmap)
  rw [pairsOf, List.map_eq_nil_iff, List.filter_eq_nil_iff]
  intro y hy heq
  exact hnot (List.mem_map.mpr ⟨y, hy, of_decide_eq_true heq⟩)

/-- A value that is not found gets a node with a list of its own. -/
theorem Holds.add {b : CInt} {kvs : List (CInt × π)} {s : Leaf π} (h : Holds b kvs s) {x : CInt × π}
    (hx : NumKey.int x.1 ∉ keys s.rbt.root) {rbt : Rbt NumKey Nat} {xs ys : List (NumKey × Nat)}
    (hord : Ordered libhlCmpKeysInt (WindowKey b) rbt.root) (hwas : entries s.rbt.root = xs ++ ys)
    (hnow : entries rbt.root = xs ++ (.int x.1, s.lists.length) :: ys) :
    Holds b (kvs ++ [x]) ⟨rbt, s.lists ++ [[x.2]]⟩ := by
  have hmem : ∀ e, e ∈ entries rbt.root ↔ e = (.int x.1, s.lists.length) ∨ e ∈ entries s.rbt.root := by
    intro e
    rw [hnow, hwas]
    simp only [List.mem_append, List.mem_cons]
    exact or_left_comm
  have hold : ∀ e ∈ entries s.rbt.root, e.2 < s.lists.length ∧ e.1 ≠ .int x.1 := by
    intro e he
    refine ⟨(List.getElem?_eq_some_iff.mp (h.lists_eq e.1 e.2 he)).1, ?_⟩
    intro heq
    exact hx (heq ▸ mem_keys_of_entry he)
  constructor
  · exact hord
  · intro k
    have hk := h.mem_keys k
    rw [keys_eq_entries] at hk ⊢
    simp only [hwas, hnow, List.map_append, List.map_cons, List.mem_append, List.mem_cons,
      List.map_nil, List.not_mem_nil, or_false] at hk ⊢
    rw [← hk]
    tauto
  · intro k i hi
    rw [pairsOf_append]
    rcases (hmem _).mp hi with heq | he
    · obtain ⟨rfl, rfl⟩ := Prod.mk.inj heq
      simp [h.pairsOf_eq_nil hx]
    · have hlt := hold _ he
      simp only at hlt
      simp [List.getElem?_append_left hlt.1, h.lists_eq k i he, Ne.symm hlt.2]
  · intro k k' i hi hi'
    rcases (hmem _).mp hi with heq | he
    · rcases (hmem _).mp hi' with heq' | he'
      · exact (Prod.mk.inj heq).1.trans (Prod.mk.inj heq').1.symm
      · have hlt := (hold _ he').1
        simp [(Prod.mk.inj heq).2] at hlt
    · rcases (hmem _).mp hi' with heq' | he'
      · have hlt := (hold _ he).1
        simp [(Prod.mk.inj heq').2] at hlt
      · exact h.lists_own k k' i he he'

/-- One value of the window. -/
theorem Holds.step {b : CInt} {kvs : List (CInt × π)} {s : Leaf π} (h : Holds b kvs s)
    {x : CInt × π} (hx : InWindow b x.1) (fuel : Nat) (hfuel : kvs.length < fuel) :
    ∃ s', indexingValue libhlCmpKeysInt fuel s (.int x.1) x.2 = some s' ∧ Holds b (kvs ++ [x]) s' := by
  have hkey : WindowKey b (.int x.1) := ⟨x.1, rfl, hx⟩
  have hiff := rbtFindInternal_iff (strictOn_window b) h.ordered hkey
  rw [indexingValue]
  cases hfind : rbtFind libhlCmpKeysInt s.rbt (.int x.1) with
  | some i => exact ⟨_, rfl, h.push ((hiff i).mp hfind)⟩
  | none =>
    obtain ⟨rbt, xs, ys, hadd, hord, hwas, hnow⟩ := rbtAdd_new (strictOn_window b) hkey s.lists.length
      h.ordered hfind (h.length_le.trans_lt hfuel)
    refine ⟨_, by simp only [hadd]; rfl, h.add ?_ hord hwas hnow⟩
    intro hmem
    rw [keys_eq_entries] at hmem
    obtain ⟨e, he, heq⟩ := List.mem_map.mp hmem
    have hsome := (hiff e.2).mpr (heq ▸ he)
    rw [show rbtFindInternal _ _ _ = none from hfind] at hsome
    exact absurd hsome (by simp)

/-- Any number of values of the window. -/
theorem holds_indexingInts {b : CInt} (fuel : Nat) (kvs : List (CInt × π))
    (hwin : ∀ x ∈ kvs, InWindow b x.1) (hfuel : kvs.length < fuel) :
    ∃ s, indexingInts fuel kvs = some s ∧ Holds b kvs s := by
  induction kvs using List.reverseRecOn with
  | nil => exact ⟨_, rfl, holds_create b⟩
  | append_singleton kvs x ih =>
    rw [List.length_append, List.length_singleton] at hfuel
    obtain ⟨s, hs, hholds⟩ := ih (fun y hy => hwin y (by simp [hy])) (by omega)
    obtain ⟨s', hs', hholds'⟩ := hholds.step (hwin x (by simp)) fuel (by omega)
    refine ⟨s', ?_, hholds'⟩
    rw [indexingInts] at hs ⊢
    rw [Runs.foldlM_append_some _ _ _ _ s hs, List.foldlM_cons, hs']
    rfl

def ValuesKept (kvs : List (CInt × π)) : Prop :=
  ∃ fuel s, indexingInts fuel kvs = some s ∧
    (∀ v ∈ kvs.map Prod.fst, rbtFind libhlCmpKeysInt s.rbt (.int v) ≠ none) ∧
    (keys s.rbt.root).Nodup ∧ ∀ k, k ∈ keys s.rbt.root ↔ k ∈ kvs.map fun x => NumKey.int x.1

theorem Holds.find {b : CInt} {kvs : List (CInt × π)} {s : Leaf π} (h : Holds b kvs s) {v : CInt}
    (hv : v ∈ kvs.map Prod.fst) : ∃ i, rbtFind libhlCmpKeysInt s.rbt (.int v) = some i ∧
      s.lists[i]? = some (pairsOf kvs (.int v)) := by
  obtain ⟨x, hx, rfl⟩ := List.mem_map.mp hv
  have hkey := (h.mem_keys (.int x.1)).mpr (List.mem_map_of_mem hx)
  have hwin := h.ordered.keys_in _ hkey
  rw [keys_eq_entries] at hkey
  obtain ⟨⟨k, i⟩, he, rfl⟩ := List.mem_map.mp hkey
  exact ⟨i, (rbtFindInternal_iff (strictOn_window b) h.ordered hwin i).mpr he, h.lists_eq _ _ he⟩

/-- As long as the values lie in one window of 2^31 consecutive ints, around the circle, no
value is lost, after any number of them. -/
theorem values_kept_of_window (kvs : List (CInt × π)) (b : CInt) (hwin : ∀ x ∈ kvs, InWindow b x.1) :
    ∀ n, ValuesKept (kvs.take n) := by
  intro n
  obtain ⟨s, hs, h⟩ := holds_indexingInts ((kvs.take n).length + 1) (kvs.take n)
    (fun x hx => hwin x (List.mem_of_mem_take hx)) (by omega)
  refine ⟨_, s, hs, ?_, h.ordered.nodup (strictOn_window b), h.mem_keys⟩
  intro v hv hnone
  obtain ⟨i, hi, -⟩ := h.find hv
  rw [hnone] at hi
  exact absurd hi (by simp)

/-- The values of 0 to 5 and those around the antipode of 0, which lie in one window that
starts at 0. -/
theorem values_kept_around_antipode : (∀ x ∈ [(0, ()), (1073741824, ()), (5, ()), (2147483647, ())],
      InWindow 0 x.1) ∧
    ValuesKept ([(0, ()), (1073741824, ()), (5, ()), (2147483647, ())].take 4) := by
  have hwin : ∀ x ∈ [((0 : CInt), ()), (1073741824, ()), (5, ()), (2147483647, ())],
      InWindow 0 x.1 := by
    simp [InWindow]
  exact ⟨hwin, values_kept_of_window _ 0 hwin 4⟩

theorem indexingInts_mono {n m : Nat} (hnm : n ≤ m) {kvs : List (CInt × π)} {s : Leaf π}
    (h : indexingInts n kvs = some s) : indexingInts m kvs = some s := by
  refine Runs.foldlM_mono _ _ ?_ _ _ _ h
  intro s x s' hs
  rw [indexingValue] at hs ⊢
  cases hfind : rbtFind libhlCmpKeysInt s.rbt (.int x.1) with
  | some i => rwa [hfind] at hs
  | none =>
    simp only [hfind] at hs ⊢
    obtain ⟨out, hadd, hout⟩ := Option.bind_eq_some_iff.mp hs
    exact Option.bind_eq_some_iff.mpr ⟨out, rbtAdd_mono hnm hadd, hout⟩

def spreadValues : List (CInt × Unit) :=
  [-536870912, 1342177280, -1073741824, -805306368, -1342177280, -1879048192, -1610612736,
    -2147483648].map fun v => (BitVec.ofInt 32 v, ())

/-- The rotations bring the second value to a side where the search does not look for it. -/
theorem spread_value_lost : ¬ ValuesKept spreadValues := by
  rintro ⟨fuel, s, hs, hfind, -, -⟩
  have hlost : (indexingInts 4 spreadValues).map
      (fun s => rbtFind libhlCmpKeysInt s.rbt (.int 1342177280)) = some none := by
    decide +kernel
  obtain ⟨s', hs', hnone⟩ := Option.map_eq_some_iff.mp hlost
  have heq : s = s' := by
    have h1 := indexingInts_mono (Nat.le_max_left fuel 4) hs
    rw [indexingInts_mono (Nat.le_max_right fuel 4) hs'] at h1
    exact (Option.some.inj h1).symm
  exact hfind 1342177280 (by decide) (heq ▸ hnone)

end Miqs.ValueTree
