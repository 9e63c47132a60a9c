import Miqs.ArtShrink

/-! The order of the children. A `node4` compares characters as unsigned bytes and a `node16` as
signed ones, so that the children are in order as long as all characters have 7 bits. -/
namespace Miqs.Radix
open Miqs.CArray Miqs.CData
variable {V : Type} {n m : ArtInner (ArtNode V)} {c : UInt8} {child : ArtNode V}

def Ascending (n : ArtInner (ArtNode V)) : Prop := ((edges n).map Prod.fst).Pairwise (· < ·)

theorem Ascending.of_sublist (h : Ascending n) (hsub : (edges m).Sublist (edges n)) : Ascending m :=
  List.Pairwise.sublist (hsub.map Prod.fst) h

theorem Removed.ascending {x : ArtNode V} (h : Removed n c x m) (hn : Ascending n) : Ascending m := by
  obtain ⟨before, after, hedges, hedges'⟩ := h.edges_eq
  refine hn.of_sublist ?_
  rw [hedges, hedges']
  exact (List.Sublist.refl before).append (List.sublist_cons_self _ _)

/-- The loops over all 256 characters are in order. -/
theorem ascending_present (h : (edges n).map Prod.fst = (present n).map UInt8.ofNat) : Ascending n := by
  rw [Ascending, h, List.pairwise_map]
  have hrange : (present n).Pairwise (· < ·) := List.Pairwise.filter _ List.pairwise_lt_range
  refine hrange.imp_of_mem ?_
  intro i j hi hj hlt
  rw [UInt8.lt_iff_toNat_lt, ofNat_toNat_of_lt (mem_present_lt hi), ofNat_toNat_of_lt (mem_present_lt hj)]
  exact hlt

theorem ascending_mapped (ht : n.type = .node48) : Ascending n := by
  apply ascending_present
  rw [map_fst_edges, edgeSlots_mapped ht, List.map_map]
  rfl

theorem ascending_direct (ht : n.type = .node256) : Ascending n := by
  apply ascending_present
  rw [map_fst_edges, edgeSlots_direct ht, List.map_map]
  rfl

section Rows
variable (ht : n.type = .node4 ∨ n.type = .node16)
include ht

theorem labels_rows : (edges n).map Prod.fst = cells n.keys n.numChildren := by
  rw [edges_rows ht, map_cells]

theorem Ascending.keys_lt (h : Ascending n) {i j : Nat} (hij : i < j) (hj : j < n.numChildren) : n.keys i < n.keys j := by
  rw [Ascending, labels_rows ht, cells, List.pairwise_map, List.pairwise_iff_getElem] at h
  have hlt := h i j (by simp; omega) (by simpa using hj) hij
  rwa [List.getElem_range, List.getElem_range] at hlt

theorem ascending_insertRow {idx : Nat} (hidx : idx ≤ n.numChildren) (h : Ascending n)
    (hbefore : ∀ i < idx, n.keys i < c) (hafter : ∀ i, idx ≤ i → i < n.numChildren → c < n.keys i) :
    Ascending (insertRow n idx c child) := by
  rw [Ascending, labels_rows ht, cells_split _ hidx, List.pairwise_append] at h
  obtain ⟨hfirst, hlast, hall⟩ := h
  rw [Ascending, edges_insertRow ht hidx, List.map_append, List.map_cons, map_cells, map_cells, List.pairwise_append,
    List.pairwise_cons]
  have hlt : ∀ b ∈ cells n.keys idx, b < c := by
    intro b hb
    obtain ⟨i, hi, rfl⟩ := mem_cells.mp hb
    exact hbefore i hi
  refine ⟨hfirst, ⟨?_, hlast⟩, ?_⟩
  · intro b hb
    obtain ⟨i, hi, rfl⟩ := mem_cells.mp hb
    exact hafter (idx + i) (by omega) (by omega)
  · intro b hb b' hb'
    rcases List.mem_cons.mp hb' with rfl | hb'
    · exact hlt b hb
    · exact hall b hb b' hb'

/-- The place of a character among others in order: the loop stops at the first that is greater. -/
theorem ascending_insertRow_find (h : Ascending n) (hc : c ∉ (edges n).map Prod.fst) {p : Nat → Bool} {k : Nat}
    (hk : n.numChildren ≤ k) (hp : ∀ i < n.numChildren, p i = true ↔ c < n.keys i)
    (hlast : ∀ i < k, p i = true → i < n.numChildren) :
    Ascending (insertRow n (((List.range k).find? p).getD n.numChildren) c child) := by
  have hlt : ∀ i < n.numChildren, ¬ p i = true → n.keys i < c := by
    intro i hi hpi
    rw [hp i hi] at hpi
    refine UInt8.lt_of_le_of_ne (UInt8.not_lt.mp hpi) ?_
    rintro rfl
    exact hc (by rw [labels_rows ht]; exact mem_cells.mpr ⟨i, hi, rfl⟩)
  cases hfind : (List.range k).find? p with
  | none =>
    rw [List.find?_eq_none] at hfind
    refine ascending_insertRow ht (Nat.le_refl _) h ?_ (fun i hi hi' => absurd hi' (by simpa using hi))
    intro i hi
    exact hlt i hi (hfind i (List.mem_range.mpr (lt_of_lt_of_le hi hk)))
  | some idx =>
    rw [List.find?_range_eq_some] at hfind
    obtain ⟨hpi, hidx, hfirst⟩ := hfind
    have hidx := hlast idx (List.mem_range.mp hidx) hpi
    have hgt := (hp idx hidx).mp hpi
    refine ascending_insertRow ht hidx.le h ?_ ?_
    · intro i hi
      exact hlt i (hi.trans hidx) (by simpa using hfirst i hi)
    · intro i hi hi'
      rcases Nat.eq_or_lt_of_le hi with rfl | hi
      · exact hgt
      · exact UInt8.lt_trans hgt (h.keys_lt ht hi hi')

end Rows

theorem signed_lt_iff {a b : UInt8} (ha : a < 128) (hb : b < 128) : signed a < signed b ↔ a < b := by
  rw [signed, signed, if_pos ha, if_pos hb, UInt8.lt_iff_toNat_lt]
  exact Int.ofNat_lt

theorem type_addChild48 (ht : n.type = .node48) :
    (addChild48 n c child).type = .node48 ∨ (addChild48 n c child).type = .node256 := by
  rw [addChild48]
  split_ifs
  · exact .inl ht
  · exact .inr rfl

theorem addChild48_ascending (ht : n.type = .node48) : Ascending (addChild48 n c child) :=
  (type_addChild48 ht).elim ascending_mapped ascending_direct

theorem addChild16_ascending (ht : n.type = .node16) (hc : c ∉ (edges n).map Prod.fst) (hasc : Ascending n)
    (hascii : ∀ b ∈ (edges n).map Prod.fst, b < 128) (hc' : c < 128) : Ascending (addChild16 n c child) := by
  rw [addChild16]
  split_ifs with hroom
  · refine ascending_insertRow_find (.inr ht) hasc hc hroom.le ?_ ?_
    · intro i hi
      rw [decide_eq_true_iff, and_iff_left hi]
      refine signed_lt_iff hc' (hascii _ ?_)
      rw [labels_rows (.inr ht)]
      exact mem_cells.mpr ⟨i, hi, rfl⟩
    · intro i _ hi
      exact (of_decide_eq_true hi).2
  · exact addChild48_ascending rfl

theorem addChild4_ascending_of_room (ht : n.type = .node4) (hroom : n.numChildren < 4)
    (hc : c ∉ (edges n).map Prod.fst) (hasc : Ascending n) : Ascending (addChild4 n c child) := by
  rw [addChild4, if_pos hroom]
  refine ascending_insertRow_find (.inl ht) hasc hc (Nat.le_refl _) ?_ ?_
  · intro i _
    exact decide_eq_true_iff
  · intro i hi _
    exact hi

theorem addChild_ascending (hc : c ∉ (edges n).map Prod.fst) (hasc : Ascending n)
    (hascii : ∀ b ∈ (edges n).map Prod.fst, b < 128) (hc' : c < 128) : Ascending (addChild n c child) := by
  rw [addChild]
  cases ht : n.type with
  | node4 =>
    by_cases hroom : n.numChildren < 4
    · exact addChild4_ascending_of_room ht hroom hc hasc
    · have hedges := edges_growTo16 ht
      show Ascending (addChild4 n c child)
      rw [addChild4, if_neg hroom]
      refine addChild16_ascending rfl (by rwa [hedges]) ?_ (by rwa [hedges]) hc'
      rwa [Ascending, hedges]
  | node16 => exact addChild16_ascending ht hc hasc hascii hc'
  | node48 => exact addChild48_ascending ht
  | node256 => exact ascending_direct ht

end Miqs.Radix
