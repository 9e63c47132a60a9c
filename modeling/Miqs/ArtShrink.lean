import Miqs.ArtEdges

/-! Removing a child of a radix tree node, the shrinking of nodes, and how many children a node of
each layout has. -/
namespace Miqs.Radix
open Miqs.CArray Miqs.CData
variable {V : Type} {n : ArtInner (ArtNode V)} {c : UInt8} {child : ArtNode V}

structure Removed (n : ArtInner (ArtNode V)) (c : UInt8) (x : ArtNode V) (m : ArtInner (ArtNode V)) : Prop where
  ok : Ok m
  edges_eq : ∃ before after, edges n = before ++ (c, x) :: after ∧ edges m = before ++ after
  path : SamePath n m

structure Moved (n m : ArtInner (ArtNode V)) : Prop where
  ok : Ok m
  edges_eq : edges m = edges n
  path : SamePath n m

theorem Removed.moved {x : ArtNode V} {m k : ArtInner (ArtNode V)} (h : Removed n c x m) (h' : Moved m k) :
    Removed n c x k := by
  obtain ⟨before, after, hn, hm⟩ := h.edges_eq
  exact ⟨h'.ok, ⟨before, after, hn, h'.edges_eq.trans hm⟩, h.path.trans h'.path⟩

theorem removeRow_removed (ht : n.type = .node4 ∨ n.type = .node16) (h : Ok n) {pos : Nat}
    (hpos : (c, pos) ∈ edgeSlots n) : Removed n c (n.children pos) (removeRow n pos) := by
  have ht' : (removeRow n pos).type = .node4 ∨ (removeRow n pos).type = .node16 := ht
  rw [edgeSlots_rows ht] at hpos
  obtain ⟨i, hi, heq⟩ := List.mem_map.mp hpos
  obtain ⟨rfl, rfl⟩ := Prod.mk.inj heq
  have hlt := List.mem_range.mp hi
  have hsplit := cells_split_at (fun i => (n.keys i, n.children i)) hlt
  have hremoved := edges_removeRow ht hlt
  obtain ⟨hroom, hlabels, hthere⟩ := (ok_rows_iff ht).mp h
  have hsub : (edges (removeRow n i)).Sublist (edges n) := by
    rw [hremoved, edges_rows ht, hsplit]
    exact (List.Sublist.refl _).append (List.sublist_cons_self _ _)
  refine ⟨(ok_rows_iff ht').mpr ⟨?_, ?_, ?_⟩, ⟨_, _, ?_, hremoved⟩, rfl, fun _ _ => rfl⟩
  · exact (Nat.sub_le _ _).trans hroom
  · exact hlabels.sublist (hsub.map Prod.fst)
  · intro e he
    exact hthere e (hsub.subset he)
  · rw [edges_rows ht, hsplit]

theorem shrinkTo4_moved (ht : n.type = .node16) (h : Ok n) (hnum : n.numChildren = 3) : Moved n (shrinkTo4 n) := by
  obtain ⟨-, hlabels, hthere⟩ := (ok_rows_iff (.inr ht)).mp h
  have hedges : edges (shrinkTo4 n) = edges n := by
    rw [edges_rows (n := shrinkTo4 n) (.inl rfl), edges_rows (.inr ht)]
    apply cells_congr
    intro i hi
    have hi4 : i < 4 := by
      have hi' : i < n.numChildren := hi
      omega
    simp [shrinkTo4, copyFrom, hi4]
  refine ⟨(ok_rows_iff (.inl rfl)).mpr ⟨?_, ?_, ?_⟩, hedges, rfl,
    (samePath_copyHeader (allocNode .node4) n).bytes⟩
  · exact hnum.le.trans (show 3 ≤ 4 by decide)
  · rwa [hedges]
  · rwa [hedges]

theorem filter_ne_eq {l before after : List Nat} {a : Nat} (hl : l.Nodup) (hsplit : l = before ++ a :: after) :
    (l.filter fun i => i ≠ a) = before ++ after := by
  subst hsplit
  rw [List.nodup_append, List.nodup_cons] at hl
  have hbefore : ∀ i ∈ before, i ≠ a := fun i hi heq => hl.2.2 i hi a (by simp) heq
  have hafter : ∀ i ∈ after, i ≠ a := fun i hi heq => hl.2.1.1 (heq ▸ hi)
  rw [List.filter_append, List.filter_cons_of_neg (by simp), List.filter_eq_self.mpr, List.filter_eq_self.mpr]
  · simpa using hafter
  · simpa using hbefore

section Mapped
variable (ht : n.type = .node48) (h : Ok n)
include ht h

/-- The cell of a character is given back; the other characters keep their cells. -/
theorem clearSlot_removed {pos : Nat} (hpos : (c, pos) ∈ edgeSlots n) :
    Removed n c (n.children pos) (clearSlot n c) := by
  have ht' : (clearSlot n c).type = .node48 := ht
  rw [edgeSlots_mapped ht] at hpos
  obtain ⟨i, hi, heq⟩ := List.mem_map.mp hpos
  obtain ⟨hic, rfl⟩ := Prod.mk.inj heq
  obtain rfl := (ofNat_eq_iff (mem_present_lt hi)).mp hic
  obtain ⟨before, after, hsplit⟩ := List.append_of_mem hi
  have hkeep : ∀ {j}, j ≠ c.toNat → (clearSlot n c).keys j = n.keys j := by
    intro j hj
    simp [clearSlot, hj]
  have hfilter : present (clearSlot n c) = (present n).filter fun j => j ≠ c.toNat := by
    simp only [present, ht, ht', List.filter_filter]
    apply List.filter_congr
    intro j _
    by_cases hj : j = c.toNat <;> simp [clearSlot, hj]
  have hpresent : present (clearSlot n c) = before ++ after :=
    hfilter.trans (filter_ne_eq (nodup_present n) hsplit)
  have hold : ∀ {j}, j ∈ present (clearSlot n c) ↔ j ∈ present n ∧ j ≠ c.toNat := by
    intro j
    rw [hfilter, List.mem_filter, decide_eq_true_iff]
  have hslot : ∀ {j}, j ∈ present (clearSlot n c) → (n.keys j).toNat - 1 ≠ (n.keys c.toNat).toNat - 1 := by
    intro j hj heq
    apply (hold.mp hj).2
    have hj0 := toNat_ne_zero ((mem_present_mapped ht).mp (hold.mp hj).1).2
    have hi0 := toNat_ne_zero ((mem_present_mapped ht).mp hi).2
    exact h.mapped_inj ht (hold.mp hj).1 hi (UInt8.toNat_inj.mp (by omega))
  have hchild : ∀ {j}, j ∈ present (clearSlot n c) →
      (clearSlot n c).children (((clearSlot n c).keys j).toNat - 1) = n.children ((n.keys j).toNat - 1) := by
    intro j hj
    rw [hkeep (hold.mp hj).2]
    simp [clearSlot, hslot hj]
  have hcount := h.mapped_count ht
  have hroom := h.room
  rw [edgeSlots_mapped ht, List.length_map, ← hcount, ht] at hroom
  refine ⟨ok_mapped ht' ?_ ((Nat.sub_le _ _).trans hroom) ?_ ?_ ?_ ?_,
    ⟨before.map fun j => (UInt8.ofNat j, n.children ((n.keys j).toNat - 1)),
      after.map fun j => (UInt8.ofNat j, n.children ((n.keys j).toNat - 1)), ?_, ?_⟩, rfl, fun _ _ => rfl⟩
  · rw [hpresent]
    simp only [clearSlot, hcount, hsplit, List.length_append, List.length_cons]
    omega
  · intro j hj
    by_cases hjc : j = c.toNat
    · simp [clearSlot, hjc]
    · rw [hkeep hjc]
      exact (h.free ht).1 j hj
  · intro j hj k hk heq
    rw [hkeep (hold.mp hj).2, hkeep (hold.mp hk).2] at heq
    exact h.mapped_inj ht (hold.mp hj).1 (hold.mp hk).1 heq
  · intro j hj
    rw [hchild hj]
    exact h.mapped_there ht (hold.mp hj).1
  · intro pos hpos hne
    have hp : pos ≠ (n.keys c.toNat).toNat - 1 := by
      rintro rfl
      exact hne (by simp [clearSlot])
    have hne' : n.children pos ≠ .null := by simpa [clearSlot, hp] using hne
    obtain ⟨j, hj, heq⟩ := h.mapped_free ht hpos hne'
    have hjc : j ≠ c.toNat := by
      rintro rfl
      exact hp heq.symm
    exact ⟨j, hold.mpr ⟨hj, hjc⟩, by rw [hkeep hjc, heq]⟩
  · rw [edges_mapped ht, hsplit, List.map_append, List.map_cons, UInt8.ofNat_toNat]
  · rw [edges_mapped ht', ← List.map_append, ← hpresent]
    apply List.map_congr_left
    intro j hj
    rw [hchild hj]

end Mapped

theorem clearChild_removed (ht : n.type = .node256) (h : Ok n) {pos : Nat} (hpos : (c, pos) ∈ edgeSlots n) :
    Removed n c (n.children pos) (clearChild n c) := by
  have ht' : (clearChild n c).type = .node256 := ht
  rw [edgeSlots_direct ht] at hpos
  obtain ⟨i, hi, heq⟩ := List.mem_map.mp hpos
  obtain ⟨hic, rfl⟩ := Prod.mk.inj heq
  obtain rfl := (ofNat_eq_iff (mem_present_lt hi)).mp hic
  obtain ⟨before, after, hsplit⟩ := List.append_of_mem hi
  have hfilter : present (clearChild n c) = (present n).filter fun j => j ≠ c.toNat := by
    simp only [present, ht, ht', List.filter_filter]
    apply List.filter_congr
    intro j _
    by_cases hj : j = c.toNat <;> simp [clearChild, hj, ArtNode.isNull]
  have hpresent : present (clearChild n c) = before ++ after :=
    hfilter.trans (filter_ne_eq (nodup_present n) hsplit)
  refine ⟨ok_direct ht' ?_, ⟨before.map fun j => (UInt8.ofNat j, n.children j),
    after.map fun j => (UInt8.ofNat j, n.children j), ?_, ?_⟩, rfl, fun _ _ => rfl⟩
  · have hcount := h.count
    rw [edgeSlots_direct ht, List.length_map, hsplit, List.length_append, List.length_cons] at hcount
    rw [hpresent, List.length_append]
    simp only [clearChild, hcount]
    omega
  · rw [edges_direct ht, hsplit, List.map_append, List.map_cons, UInt8.ofNat_toNat]
  · rw [edges_direct ht', ← List.map_append, ← hpresent]
    apply List.map_congr_left
    intro j hj
    rw [hfilter, List.mem_filter, decide_eq_true_iff] at hj
    simp [clearChild, hj.2]

theorem shrinkTo16_moved (ht : n.type = .node48) (h : Ok n) (hnum : n.numChildren ≤ 16) :
    Moved n (shrinkTo16 n) := by
  have hcount := h.mapped_count ht
  have hedges : edges (shrinkTo16 n) = edges n := by
    rw [edges_rows (n := shrinkTo16 n) (.inr rfl), edges_mapped ht]
    apply List.ext_getElem
    · rw [length_cells, List.length_map, ← hcount]
      rfl
    · intro i hi _
      have hlt : i < (present n).length := by
        rw [length_cells] at hi
        exact hcount ▸ hi
      simp [cells, shrinkTo16, hlt]
  refine ⟨(ok_rows_iff (.inr rfl)).mpr ⟨hnum, ?_, ?_⟩, hedges, rfl,
    (samePath_copyHeader (allocNode .node16) n).bytes⟩
  · rw [hedges, map_fst_edges]
    exact h.labels
  · rw [hedges]
    intro e he
    obtain ⟨e', he', rfl⟩ := List.mem_map.mp he
    exact h.there e' he'

section Direct
variable (ht : n.type = .node256)

theorem shrinkTo48_keys {i : Nat} (hi : i ∈ present n) :
    (shrinkTo48 n).keys i = UInt8.ofNat ((present n).idxOf i + 1) := by
  simp [shrinkTo48, hi]

theorem shrinkTo48_slot (hlen : (present n).length ≤ 48) {i : Nat} (hi : i ∈ present n) :
    ((shrinkTo48 n).keys i).toNat = (present n).idxOf i + 1 := by
  have hlt := List.idxOf_lt_length_of_mem hi
  rw [shrinkTo48_keys hi, ofNat_toNat_of_lt (by omega)]

theorem shrinkTo48_child (hlen : (present n).length ≤ 48) {i : Nat} (hi : i ∈ present n) :
    (shrinkTo48 n).children (((shrinkTo48 n).keys i).toNat - 1) = n.children i := by
  have hlt := List.idxOf_lt_length_of_mem hi
  rw [shrinkTo48_slot hlen hi, Nat.add_sub_cancel]
  simp [shrinkTo48, List.getElem?_idxOf hi]

theorem present_shrinkTo48 (hlen : (present n).length ≤ 48) : present (shrinkTo48 n) = present n := by
  have hkey : ∀ i, (shrinkTo48 n).keys i ≠ 0 ↔ i ∈ present n := by
    intro i
    constructor
    · intro hne
      by_contra hi
      exact hne (by simp [shrinkTo48, hi])
    · intro hi h0
      have hslot := shrinkTo48_slot hlen hi
      rw [h0] at hslot
      simp at hslot
  have hiff : ∀ i, decide ((shrinkTo48 n).keys i ≠ 0) = decide (i ∈ present n) := fun i => by simp only [hkey]
  calc present (shrinkTo48 n)
      = (List.range 256).filter fun i => decide ((shrinkTo48 n).keys i ≠ 0) := rfl
    _ = (List.range 256).filter fun i => decide (i ∈ present n) := by simp only [hiff]
    _ = present n := by
      rw [present]
      apply List.filter_congr
      intro i hi
      simp [List.mem_filter, List.mem_range.mp hi]

include ht in
theorem shrinkTo48_moved (hcount : n.numChildren = (present n).length) (hlen : (present n).length ≤ 48) :
    Moved n (shrinkTo48 n) := by
  have hpresent := present_shrinkTo48 hlen
  refine ⟨ok_mapped rfl ?_ ?_ ?_ ?_ ?_ ?_, ?_, rfl, (samePath_copyHeader (allocNode .node48) n).bytes⟩
  · rw [hpresent]
    exact hcount
  · exact hcount.le.trans hlen
  · intro i _
    by_cases hi : i ∈ present n
    · have hlt := List.idxOf_lt_length_of_mem hi
      rw [shrinkTo48_slot hlen hi]
      omega
    · simp [shrinkTo48, hi]
  · rw [hpresent]
    intro i hi j hj heq
    have hij := congrArg UInt8.toNat heq
    rw [shrinkTo48_slot hlen hi, shrinkTo48_slot hlen hj] at hij
    exact (List.idxOf_inj hi).mp (by omega)
  · rw [hpresent]
    intro i hi
    rw [shrinkTo48_child hlen hi]
    exact ((mem_present_direct ht).mp hi).2
  · rw [hpresent]
    intro pos _ hne
    have hlt : pos < (present n).length := by
      by_contra hge
      exact hne (by simp [shrinkTo48, List.getElem?_eq_none (Nat.le_of_not_lt hge)])
    have hmem := List.getElem_mem hlt
    refine ⟨(present n)[pos], hmem, ?_⟩
    rw [shrinkTo48_slot hlen hmem, List.Nodup.idxOf_getElem (nodup_present n)]
    omega
  · rw [edges_mapped (n := shrinkTo48 n) rfl, edges_direct ht, hpresent]
    apply List.map_congr_left
    intro i hi
    rw [shrinkTo48_child hlen hi]

end Direct

def NodeType.least : NodeType → Nat
  | .node4 => 2
  | .node16 => 4
  | .node48 => 13
  | .node256 => 38

theorem length_edges (n : ArtInner (ArtNode V)) : (edges n).length = (edgeSlots n).length := by
  simp [edges]

theorem Ok.length_eq (h : Ok n) (ht : n.type ≠ .node256) : (edges n).length = n.numChildren := by
  have hcount := h.count
  have hroom := h.room
  rw [← length_edges] at hcount hroom
  have hcap : n.type.capacity ≤ 48 := by
    cases hn : n.type with
    | node4 => decide
    | node16 => decide
    | node48 => decide
    | node256 => exact absurd hn ht
  rw [hcount, Nat.mod_eq_of_lt (by omega)]

theorem type_addChild256 (n : ArtInner (ArtNode V)) (c : UInt8) (child : ArtNode V) :
    (addChild256 n c child).type = n.type := rfl

/-- A node grows only when it is full. -/
theorem addChild_least (h : Ok n) (hleast : n.type.least ≤ (edges n).length + 1) :
    (addChild n c child).type.least ≤ (edges n).length + 1 := by
  rw [addChild]
  cases ht : n.type with
  | node4 =>
    rw [h.length_eq (by rw [ht]; simp)] at hleast ⊢
    rw [ht] at hleast
    by_cases hroom : n.numChildren < 4
    · simpa [addChild4, if_pos hroom, insertRow, ht] using hleast
    · have hnum : (growTo16 n).numChildren = n.numChildren := rfl
      by_cases hroom' : n.numChildren < 16
      · simp only [addChild4, if_neg hroom, addChild16, hnum, if_pos hroom', insertRow]
        exact (show 4 ≤ n.numChildren + 1 by omega)
      · simp only [addChild4, if_neg hroom, addChild16, hnum, if_neg hroom']
        have hcap := h.room
        rw [← length_edges, h.length_eq (by rw [ht]; simp), ht] at hcap
        exact absurd hcap (by simp only [NodeType.capacity]; omega)
  | node16 =>
    rw [h.length_eq (by rw [ht]; simp)] at hleast ⊢
    rw [ht] at hleast
    by_cases hroom : n.numChildren < 16
    · simpa [addChild16, if_pos hroom, insertRow, ht] using hleast
    · have hcap := h.room
      rw [← length_edges, h.length_eq (by rw [ht]; simp), ht] at hcap
      have hcap' : n.numChildren ≤ 16 := hcap
      have hnum : (growTo48 n).numChildren = n.numChildren := rfl
      have hroom' : n.numChildren < 48 := by omega
      simp only [addChild16, if_neg hroom, addChild48, hnum, if_pos hroom', fillSlot]
      exact (show 13 ≤ n.numChildren + 1 by omega)
  | node48 =>
    rw [h.length_eq (by rw [ht]; simp)] at hleast ⊢
    rw [ht] at hleast
    by_cases hroom : n.numChildren < 48
    · simpa [addChild48, if_pos hroom, fillSlot, ht] using hleast
    · simp only [addChild48, if_neg hroom, type_addChild256]
      exact (show 38 ≤ n.numChildren + 1 by omega)
  | node256 =>
    rw [type_addChild256, ht]
    rwa [ht] at hleast

theorem Removed.subset {x : ArtNode V} {m : ArtInner (ArtNode V)} (h : Removed n c x m) : edges m ⊆ edges n := by
  obtain ⟨before, after, hn, hm⟩ := h.edges_eq
  intro e he
  rw [hm, List.mem_append] at he
  rw [hn, List.mem_append, List.mem_cons]
  exact he.imp_right .inr

theorem Removed.length {x : ArtNode V} {m : ArtInner (ArtNode V)} (h : Removed n c x m) :
    (edges n).length = (edges m).length + 1 := by
  obtain ⟨before, after, hn, hm⟩ := h.edges_eq
  rw [hn, hm]
  simp only [List.length_append, List.length_cons]
  omega

/-- What the removal of a child makes of a node: a node without it, or, where one child is left,
that child. -/
theorem removeChild_cases (h : Ok n) (hleast : n.type.least ≤ (edges n).length) {pos : Nat}
    (hpos : (c, pos) ∈ edgeSlots n) :
    (∃ m, removeChild n c pos = .inner m ∧ Removed n c (n.children pos) m ∧ m.type.least ≤ (edges m).length) ∨
      ∃ m, removeChild n c pos = onlyChild m ∧ Removed n c (n.children pos) m ∧
        edges m = [(m.keys 0, m.children 0)] := by
  rw [removeChild]
  cases ht : n.type with
  | node4 =>
    have hremoved := removeRow_removed (.inl ht) h hpos
    have hlen := hremoved.length
    have ht' : (removeRow n pos).type = .node4 := ht
    have hnum := hremoved.ok.length_eq (by rw [ht']; simp)
    rw [ht] at hleast
    by_cases hone : (removeRow n pos).numChildren = 1
    · refine .inr ⟨removeRow n pos, by simp only [removeChild4, if_pos hone], hremoved, ?_⟩
      rw [edges_rows (n := removeRow n pos) (.inl ht'), hone]
      rfl
    · refine .inl ⟨removeRow n pos, by simp only [removeChild4, if_neg hone], hremoved, ?_⟩
      rw [ht']
      simp only [NodeType.least] at hleast ⊢
      omega
  | node16 =>
    have hremoved := removeRow_removed (.inr ht) h hpos
    have hlen := hremoved.length
    have ht' : (removeRow n pos).type = .node16 := ht
    have hnum := hremoved.ok.length_eq (by rw [ht']; simp)
    rw [ht] at hleast
    simp only [NodeType.least] at hleast
    left
    by_cases hthree : (removeRow n pos).numChildren = 3
    · have hmoved := shrinkTo4_moved ht' hremoved.ok hthree
      refine ⟨shrinkTo4 (removeRow n pos), by simp only [removeChild16, if_pos hthree], hremoved.moved hmoved, ?_⟩
      rw [hmoved.edges_eq]
      exact (show 2 ≤ (edges (removeRow n pos)).length by omega)
    · refine ⟨removeRow n pos, by simp only [removeChild16, if_neg hthree], hremoved, ?_⟩
      rw [ht']
      simp only [NodeType.least]
      omega
  | node48 =>
    have hremoved := clearSlot_removed ht h hpos
    have hlen := hremoved.length
    have ht' : (clearSlot n c).type = .node48 := ht
    have hnum := hremoved.ok.length_eq (by rw [ht']; simp)
    rw [ht] at hleast
    simp only [NodeType.least] at hleast
    left
    by_cases htwelve : (clearSlot n c).numChildren = 12
    · have hmoved := shrinkTo16_moved ht' hremoved.ok (by omega)
      refine ⟨shrinkTo16 (clearSlot n c), by simp only [removeChild48, if_pos htwelve], hremoved.moved hmoved, ?_⟩
      rw [hmoved.edges_eq]
      exact (show 4 ≤ (edges (clearSlot n c)).length by omega)
    · refine ⟨clearSlot n c, by simp only [removeChild48, if_neg htwelve], hremoved, ?_⟩
      rw [ht']
      simp only [NodeType.least]
      omega
  | node256 =>
    have hremoved := clearChild_removed ht h hpos
    have hlen := hremoved.length
    have ht' : (clearChild n c).type = .node256 := ht
    have hcount := hremoved.ok.count
    have hfew := length_present_le n
    have hn := length_edges n
    rw [edgeSlots_direct ht, List.length_map] at hn
    rw [← length_edges] at hcount
    rw [ht] at hleast
    simp only [NodeType.least] at hleast
    have hmod : (edges (clearChild n c)).length % 256 = (edges (clearChild n c)).length :=
      Nat.mod_eq_of_lt (by omega)
    rw [hmod] at hcount
    left
    by_cases hfewer : (clearChild n c).numChildren = 37
    · have hpresent : (present (clearChild n c)).length = (edges (clearChild n c)).length := by
        rw [edges_direct ht', List.length_map]
      have hmoved := shrinkTo48_moved ht' (by omega) (by omega)
      refine ⟨shrinkTo48 (clearChild n c), by simp only [removeChild256, if_pos hfewer], hremoved.moved hmoved, ?_⟩
      rw [hmoved.edges_eq]
      exact (show 13 ≤ (edges (clearChild n c)).length by omega)
    · refine ⟨clearChild n c, by simp only [removeChild256, if_neg hfewer], hremoved, ?_⟩
      rw [ht']
      simp only [NodeType.least]
      omega

end Miqs.Radix
