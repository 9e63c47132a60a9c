import Mathlib.Data.Set.Card
import Miqs.ArtIter

/-! Every sequence of calls on a new radix tree: it is a map from keys to values. -/
namespace Miqs.Radix
open Miqs.CArray Miqs.CData Miqs.Runs
variable {V σ : Type} {behind : Behind} {asc : Prop}

inductive ArtCall (V : Type) where
  | insert (key : CString) (value : V)
  | delete (key : CString)
  | search (key : CString)

def ArtCall.key : ArtCall V → CString
  | .insert key _ => key
  | .delete key => key
  | .search key => key

def artCall (t : ArtTree V) (call : Behind × ArtCall V) : ArtTree V × Option V :=
  match call.2 with
  | .insert key value => artInsert call.1 t key value
  | .delete key => artDelete call.1 t key
  | .search key => (t, artSearch call.1 t key)

def mapCall (m : CString → Option V) (call : Behind × ArtCall V) : (CString → Option V) × Option V :=
  match call.2 with
  | .insert key value => (Function.update m key (some value), m key)
  | .delete key => (Function.update m key none, m key)
  | .search key => (m, m key)

def treeAfter (calls : List (Behind × ArtCall V)) : ArtTree V := (trace artCall artTreeInit calls).1

def mapAfter (calls : List (Behind × ArtCall V)) : CString → Option V := (trace mapCall (fun _ => none) calls).1

structure Stores (asc : Prop) (t : ArtTree V) (m : CString → Option V) : Prop where
  root : t.root = .null ∨ Wf asc [] t.root
  size : t.size = (leaves t.root).length
  entries : ∀ key, AssocMap.search (leaves t.root) key = m key
  ascii : asc → ∀ l ∈ leaves t.root, ∀ b ∈ l.1.bytes, b < 128

theorem stores_init : Stores asc (artTreeInit : ArtTree V) fun _ => none :=
  ⟨.inl rfl, rfl, fun _ => rfl, fun _ _ hl => absurd hl List.not_mem_nil⟩

section Stores
variable {t : ArtTree V} {m : CString → Option V} (h : Stores asc t m)
include h

theorem Stores.nodup : ((leaves t.root).map Prod.fst).Nodup := by
  rcases h.root with hnull | hwf
  · simp [hnull, leaves]
  · exact hwf.nodup

theorem Stores.mem_iff {key : CString} {value : V} : (key, value) ∈ leaves t.root ↔ m key = some value := by
  rw [← h.entries]
  exact ⟨AssocMap.search_of_mem h.nodup, AssocMap.mem_of_search⟩

theorem Stores.search (behind : Behind) (key : CString) : artSearch behind t key = m key := by
  rw [← h.entries, artSearch]
  rcases h.root with hnull | hwf
  · rw [hnull]
    rfl
  · exact hwf.search_eq key

theorem Stores.insert_spec (behind : Behind) (key : CString) (value : V)
    (hascii : asc → ∀ b ∈ key.bytes, b < 128) :
    Wf asc [] (recursiveInsert behind key value t.root 0).1 ∧
      (leaves (recursiveInsert behind key value t.root 0).1).Perm
        ((key, value) :: AssocMap.erase (leaves t.root) key) ∧
      (recursiveInsert behind key value t.root 0).2 = AssocMap.search (leaves t.root) key := by
  rcases h.root with hnull | hwf
  · rw [hnull, recursiveInsert]
    exact ⟨.leaf List.nil_prefix, List.Perm.refl _, rfl⟩
  · exact hwf.insert List.nil_prefix (fun hasc => ⟨hascii hasc, h.ascii hasc⟩) behind value

theorem Stores.insert (behind : Behind) (key : CString) (value : V) (hascii : asc → ∀ b ∈ key.bytes, b < 128) :
    (artInsert behind t key value).2 = m key ∧
      Stores asc (artInsert behind t key value).1 (Function.update m key (some value)) := by
  obtain ⟨hwf, hperm, hold⟩ := h.insert_spec behind key value hascii
  refine ⟨hold.trans (h.entries key), .inr hwf, ?_, ?_, ?_⟩
  · rw [artInsert, hperm.length_eq, List.length_cons]
    by_cases hnone : AssocMap.search (leaves t.root) key = none
    · rw [AssocMap.erase_eq_self (AssocMap.ne_of_search_eq_none hnone)]
      simp [hold, hnone, h.size]
    · have hsome : (recursiveInsert behind key value t.root 0).2.isNone = false := by
        rw [hold, Option.isNone_eq_false_iff, Option.isSome_iff_ne_none]
        exact hnone
      rw [AssocMap.length_erase h.nodup hnone]
      simp [hsome, h.size]
  · intro key'
    have hnodup := (hperm.map Prod.fst).nodup_iff.mp hwf.nodup
    rw [artInsert, AssocMap.search_perm hperm hnodup, AssocMap.search, AssocMap.search_erase, Function.update_apply,
      h.entries]
    simp only [eq_comm (a := key)]
    split_ifs <;> rfl
  · intro hasc l hl
    rcases List.mem_cons.mp (hperm.mem_iff.mp hl) with rfl | hl
    · exact hascii hasc
    · exact h.ascii hasc l (List.mem_of_mem_filter hl)

theorem Stores.delete_spec (behind : Behind) (key : CString) :
    ((recursiveDelete behind key t.root 0).1 = .null ∨ Wf asc [] (recursiveDelete behind key t.root 0).1) ∧
      leaves (recursiveDelete behind key t.root 0).1 = AssocMap.erase (leaves t.root) key ∧
      (recursiveDelete behind key t.root 0).2 = AssocMap.search (leaves t.root) key := by
  rcases h.root with hnull | hwf
  · rw [hnull, recursiveDelete]
    exact ⟨.inl rfl, rfl, rfl⟩
  cases hs : AssocMap.search (leaves t.root) key with
  | none =>
    have hother := AssocMap.ne_of_search_eq_none hs
    rw [hwf.delete_of_not_mem hother, AssocMap.erase_eq_self hother]
    exact ⟨.inr hwf, rfl, rfl⟩
  | some value =>
    obtain ⟨hval, hleaves, hwf'⟩ := hwf.delete_of_mem (AssocMap.mem_of_search hs) behind
    exact ⟨hwf'.elim .inr fun h => .inl h.2, hleaves, hval⟩

theorem Stores.delete (behind : Behind) (key : CString) :
    (artDelete behind t key).2 = m key ∧ Stores asc (artDelete behind t key).1 (Function.update m key none) := by
  obtain ⟨hroot, hleaves, hold⟩ := h.delete_spec behind key
  refine ⟨hold.trans (h.entries key), hroot, ?_, ?_, ?_⟩
  · rw [artDelete, hleaves]
    by_cases hnone : AssocMap.search (leaves t.root) key = none
    · rw [AssocMap.erase_eq_self (AssocMap.ne_of_search_eq_none hnone)]
      simp [hold, hnone, h.size]
    · have hsome : (recursiveDelete behind key t.root 0).2.isSome = true := by
        rw [hold, Option.isSome_iff_ne_none]
        exact hnone
      have hlen := AssocMap.length_erase h.nodup hnone
      simp only [hsome, if_true, h.size]
      omega
  · intro key'
    rw [artDelete, hleaves, AssocMap.search_erase, Function.update_apply, h.entries]
    simp only [eq_comm (a := key)]
  · intro hasc l hl
    rw [artDelete, hleaves] at hl
    exact h.ascii hasc l (List.mem_of_mem_filter hl)

end Stores

theorem stores_call (t : ArtTree V) (m : CString → Option V) (call : Behind × ArtCall V)
    (hascii : asc → ∀ b ∈ call.2.key.bytes, b < 128) (h : Stores asc t m) :
    (artCall t call).2 = (mapCall m call).2 ∧ Stores asc (artCall t call).1 (mapCall m call).1 := by
  obtain ⟨behind, call⟩ := call
  cases call with
  | insert key value => exact h.insert behind key value hascii
  | delete key => exact h.delete behind key
  | search key => exact ⟨h.search behind key, h⟩

theorem stores_after (asc : Prop) {calls : List (Behind × ArtCall V)}
    (hascii : ∀ call ∈ calls, asc → ∀ b ∈ call.2.key.bytes, b < 128) :
    (trace artCall artTreeInit calls).2 = (trace mapCall (fun _ => none) calls).2 ∧
      Stores asc (treeAfter calls) (mapAfter calls) :=
  trace_rel (Stores asc) (fun call => asc → ∀ b ∈ call.2.key.bytes, b < 128) artCall mapCall
    (fun t m call hascii h => stores_call t m call hascii h) hascii stores_init

theorem stores_any (calls : List (Behind × ArtCall V)) : Stores False (treeAfter calls) (mapAfter calls) :=
  (stores_after False fun _ _ h => h.elim).2

/-- Every call returns what it returns on a map, and the tree counts the keys that are stored. -/
theorem art_calls_are_map_calls (calls : List (Behind × ArtCall V)) :
    (trace artCall artTreeInit calls).2 = (trace mapCall (fun _ => none) calls).2 ∧
      (treeAfter calls).size = Set.ncard {key | mapAfter calls key ≠ none} := by
  obtain ⟨hres, h⟩ := stores_after False (fun call (_ : call ∈ calls) h => h.elim)
  refine ⟨hres, ?_⟩
  have hkeys : {key | mapAfter calls key ≠ none} = ↑((leaves (treeAfter calls).root).map Prod.fst).toFinset := by
    ext key
    rw [Set.mem_ofPred_eq, ← h.entries, Ne, AssocMap.search_eq_none, not_not, List.coe_toFinset, Set.mem_ofPred_eq]
  rw [hkeys, Set.ncard_coe_finset, List.toFinset_card_of_nodup h.nodup, List.length_map, h.size]

/-- `art_iter` calls the callback once for every key that is stored, with its value, until the
callback returns something other than zero, and `art_size` is the number of these calls. -/
theorem art_iter_calls_each_key (calls : List (Behind × ArtCall V)) :
    ∃ entries : List (CString × V), (entries.map Prod.fst).Nodup ∧
      (∀ key value, (key, value) ∈ entries ↔ mapAfter calls key = some value) ∧
      (∀ {σ : Type} (cb : σ → CString → V → σ × Int) (data : σ),
        artIter cb (treeAfter calls) data = callEach cb data entries) ∧
      artIterSize (treeAfter calls) = (treeAfter calls).size := by
  have h := stores_any calls
  refine ⟨leaves (treeAfter calls).root, h.nodup, fun _ _ => h.mem_iff, fun cb => recursiveIter_eq cb _, ?_⟩
  rw [artIterSize, artIter, recursiveIter_eq, callEach, whileZero_eq_foldl (fun _ _ => rfl), h.size]
  simp [sizeIncr, List.foldl_const]

section Order
variable (calls : List (Behind × ArtCall V)) (hascii : ∀ call ∈ calls, ∀ b ∈ call.2.key.bytes, b < 128)
include hascii

/-- With keys of 7-bit characters `art_iter` goes through the stored keys in ascending order, from
`art_minimum` to `art_maximum`. -/
theorem art_iter_ascending :
    ∃ entries : List (CString × V), (entries.Pairwise fun l l' => l.1.bytes < l'.1.bytes) ∧
      (∀ key value, (key, value) ∈ entries ↔ mapAfter calls key = some value) ∧
      (∀ {σ : Type} (cb : σ → CString → V → σ × Int) (data : σ),
        artIter cb (treeAfter calls) data = callEach cb data entries) ∧
      artMinimum (treeAfter calls) = entries.head? ∧ artMaximum (treeAfter calls) = entries.getLast? := by
  have h := (stores_after True fun call hcall _ => hascii call hcall).2
  refine ⟨leaves (treeAfter calls).root, ?_, fun _ _ => h.mem_iff, fun cb => recursiveIter_eq cb _, ?_⟩
  · rcases h.root with hnull | hwf
    · simp [hnull, leaves]
    · exact hwf.leaves_ascending trivial
  · rw [artMinimum, artMaximum]
    rcases h.root with hnull | hwf
    · rw [hnull]
      exact ⟨rfl, rfl⟩
    · obtain ⟨l, hmin, hhead⟩ := hwf.minimum
      obtain ⟨l', hmax, hlast⟩ := hwf.maximum
      exact ⟨hmin.trans hhead.symm, hmax.trans hlast.symm⟩

end Order

def twoCalls : List (Behind × ArtCall Nat) :=
  [(fun _ _ => 0, .insert ⟨[98], by decide⟩ 1), (fun _ _ => 0, .insert ⟨[97], by decide⟩ 2)]

theorem art_iter_ascending_twoCalls :
    ∃ entries : List (CString × Nat), (entries.Pairwise fun l l' => l.1.bytes < l'.1.bytes) ∧
      (∀ key value, (key, value) ∈ entries ↔ mapAfter twoCalls key = some value) ∧
      (∀ {σ : Type} (cb : σ → CString → Nat → σ × Int) (data : σ),
        artIter cb (treeAfter twoCalls) data = callEach cb data entries) ∧
      artMinimum (treeAfter twoCalls) = entries.head? ∧ artMaximum (treeAfter twoCalls) = entries.getLast? :=
  art_iter_ascending twoCalls (by simp [twoCalls, ArtCall.key])

/-- What `art_iter_prefix` reports for a prefix that some stored key has: the stored keys that have
it, in the order of `art_iter`. -/
theorem art_iter_prefix_reports_matches (calls : List (Behind × ArtCall V)) (key : CString)
    (hsome : ∃ stored, mapAfter calls stored ≠ none ∧ key.bytes <+: stored.bytes) :
    ∃ entries : List (CString × V),
      (∀ stored value, (stored, value) ∈ entries ↔ mapAfter calls stored = some value) ∧
      (∀ {σ : Type} (cb : σ → CString → V → σ × Int) (data : σ),
        artIter cb (treeAfter calls) data = callEach cb data entries) ∧
      ∀ {σ : Type} (cb : σ → CString → V → σ × Int) (behind : Behind) (data : σ),
        artIterPrefix cb behind (treeAfter calls) key data =
          callEach cb data (entries.filter fun l => key.bytes <+: l.1.bytes) := by
  have h := stores_any calls
  refine ⟨leaves (treeAfter calls).root, fun _ _ => h.mem_iff, fun cb => recursiveIter_eq cb _, ?_⟩
  intro σ cb behind data
  obtain ⟨stored, hstored, hpre⟩ := hsome
  obtain ⟨value, hvalue⟩ := Option.ne_none_iff_exists'.mp hstored
  have hmem := h.mem_iff.mpr hvalue
  have hfound : Art.iterPrefixFrom key.bytes (spelled (treeAfter calls).root) 0 =
      some (Art.withPrefix key.bytes (spelled (treeAfter calls).root)) :=
    Art.artIterPrefix_of_mem key.nulFree ⟨_, List.mem_map_of_mem hmem, hpre⟩
  have hmatch : (Art.withPrefix key.bytes (spelled (treeAfter calls).root)).map Prod.snd =
      (leaves (treeAfter calls).root).filter fun l => key.bytes <+: l.1.bytes := by
    rw [Art.withPrefix, spelled, List.filter_map, List.map_map]
    exact List.map_id _
  rcases h.root with hnull | hwf
  · rw [hnull] at hmem
    cases hmem
  · rw [← hmatch]
    exact hwf.iterPrefix cb behind hfound data

theorem art_iter_prefix_reports_matches_twoCalls :
    ∃ entries : List (CString × Nat),
      (∀ stored value, (stored, value) ∈ entries ↔ mapAfter twoCalls stored = some value) ∧
      (∀ {σ : Type} (cb : σ → CString → Nat → σ × Int) (data : σ),
        artIter cb (treeAfter twoCalls) data = callEach cb data entries) ∧
      ∀ {σ : Type} (cb : σ → CString → Nat → σ × Int) (behind : Behind) (data : σ),
        artIterPrefix cb behind (treeAfter twoCalls) ⟨[97], by decide⟩ data =
          callEach cb data (entries.filter fun l => [97] <+: l.1.bytes) :=
  art_iter_prefix_reports_matches twoCalls ⟨[97], by decide⟩ ⟨⟨[97], by decide⟩, by decide, by decide⟩

def childCells : ArtNode V → Nat
  | .null => 0
  | .leaf _ _ => 0
  | .inner ⟨type, num, len, bytes, keys, children⟩ =>
    type.capacity + ((edgeSlots ⟨type, num, len, bytes, keys, children⟩).map fun e => childCells (children e.2)).sum

theorem childCells_inner (n : ArtInner (ArtNode V)) :
    childCells (.inner n) = n.type.capacity + ((edges n).map fun e => childCells e.2).sum := by
  obtain ⟨type, num, len, bytes, keys, children⟩ := n
  rw [childCells, edges, List.map_map]
  rfl

/-- A node is never much larger than its children need. -/
theorem capacity_le {type : NodeType} {k : Nat} (h : type.least ≤ k) : type.capacity + 14 ≤ 14 * k := by
  cases type <;> simp only [NodeType.least, NodeType.capacity] at h ⊢ <;> omega

theorem Wf.childCells_le {path : List UInt8} {x : ArtNode V} (h : Wf asc path x) :
    childCells x + 14 ≤ 14 * (leaves x).length := by
  induction h with
  | leaf starts => exact Nat.le_refl _
  | @inner path n common ok least _ _ _ _ below ih =>
    have hsum : ∀ es : List (UInt8 × ArtNode V), (∀ e ∈ es, childCells e.2 + 14 ≤ 14 * (leaves e.2).length) →
        (es.map fun e => childCells e.2).sum + 14 * es.length ≤ 14 * (es.flatMap fun e => leaves e.2).length := by
      intro es hes
      induction es with
      | nil => exact Nat.le_refl _
      | cons e es ih =>
        have he := hes e (by simp)
        have hrest := ih fun e he => hes e (List.mem_cons_of_mem _ he)
        simp only [List.map_cons, List.sum_cons, List.length_cons, List.flatMap_cons, List.length_append]
        omega
    have hcells := hsum (edges n) ih
    have hcap := capacity_le least
    rw [childCells_inner, leaves_inner]
    omega

/-- Whatever was inserted and deleted before, the nodes have no more than fourteen cells for every
key that is stored. -/
theorem art_memory_linear (calls : List (Behind × ArtCall V)) :
    childCells (treeAfter calls).root ≤ 14 * ((treeAfter calls).size - 1) := by
  have h := stores_any calls
  rcases h.root with hnull | hwf
  · rw [hnull]
    exact Nat.zero_le _
  · have hcells := hwf.childCells_le
    rw [h.size]
    omega

end Miqs.Radix
