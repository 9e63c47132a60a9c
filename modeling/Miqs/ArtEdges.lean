import Mathlib.Data.List.Find
import Mathlib.Data.List.Perm.Subperm
import Miqs.ArtNode

/-! The children of a radix tree node as a map from characters, whatever the layout: finding,
replacing and adding a child, and the growth of nodes. -/
namespace Miqs.Radix
open Miqs.CArray Miqs.CData
variable {V : Type} {n : ArtInner (ArtNode V)} {c : UInt8} {child : ArtNode V}

def edges (n : ArtInner (ArtNode V)) : List (UInt8 × ArtNode V) :=
  (edgeSlots n).map fun e => (e.1, n.children e.2)

def NodeType.capacity : NodeType → Nat
  | .node4 => 4
  | .node16 => 16
  | .node48 => 48
  | .node256 => 256

/-- Every character has one cell and every cell one character. A `node48` has no other cells that
are not NULL, so that a free one is found as long as there are fewer than 48 children. -/
structure Ok (n : ArtInner (ArtNode V)) : Prop where
  labels : ((edgeSlots n).map Prod.fst).Nodup
  slots : ((edgeSlots n).map Prod.snd).Nodup
  there : ∀ e ∈ edgeSlots n, n.children e.2 ≠ .null
  count : n.numChildren = (edgeSlots n).length % 256
  room : (edgeSlots n).length ≤ n.type.capacity
  free : n.type = .node48 → (∀ i < 256, (n.keys i).toNat ≤ 48) ∧
    ∀ pos < 48, n.children pos ≠ .null → pos ∈ (edgeSlots n).map Prod.snd

theorem isNull_iff {x : ArtNode V} : x.isNull = true ↔ x = .null := by
  cases x <;> simp [ArtNode.isNull]

theorem ofNat_toNat_of_lt {i : Nat} (h : i < 256) : (UInt8.ofNat i).toNat = i := by
  simp [Nat.mod_eq_of_lt h]

theorem ofNat_eq_iff {i : Nat} (h : i < 256) : UInt8.ofNat i = c ↔ i = c.toNat := by
  constructor
  · rintro rfl
    exact (ofNat_toNat_of_lt h).symm
  · rintro rfl
    exact UInt8.ofNat_toNat

theorem mem_present_lt {i : Nat} (h : i ∈ present n) : i < 256 :=
  List.mem_range.mp (List.mem_filter.mp h).1

theorem nodup_present (n : ArtInner (ArtNode V)) : (present n).Nodup :=
  List.nodup_range.filter _

theorem find?_range_mono {p : Nat → Bool} {m k : Nat} (h : m ≤ k) (hp : ∀ i, p i = true → i < m) :
    (List.range k).find? p = (List.range m).find? p := by
  obtain ⟨d, rfl⟩ := Nat.exists_eq_add_of_le h
  rw [List.range_add, List.find?_append]
  have hnone : (List.map (fun x => m + x) (List.range d)).find? p = none := by
    rw [List.find?_eq_none]
    intro i hi hpi
    obtain ⟨j, -, rfl⟩ := List.mem_map.mp hi
    have := hp _ hpi
    omega
  rw [hnone, Option.or_none]

theorem find?_map_toNat {f : Nat → Nat} {l : List Nat} (hl : ∀ i ∈ l, i < 256) :
    ((l.map fun i => (UInt8.ofNat i, f i)).find? fun e => e.1 = c).map Prod.snd =
      if c.toNat ∈ l then some (f c.toNat) else none := by
  induction l with
  | nil => rfl
  | cons i l ih =>
    have hi : UInt8.ofNat i = c ↔ i = c.toNat := ofNat_eq_iff (hl i (by simp))
    have ih := ih fun j hj => hl j (List.mem_cons_of_mem _ hj)
    by_cases hc : i = c.toNat
    · simp [hc]
    · have hne : ¬ UInt8.ofNat i = c := fun heq => hc (hi.mp heq)
      rw [List.map_cons, List.find?_cons_of_neg (by simpa using hne), ih]
      simp [Ne.symm hc]

theorem findChild_eq (h : n.type = .node16 → n.numChildren ≤ 16) :
    findChild n c = ((edgeSlots n).find? fun e => e.1 = c).map Prod.snd := by
  rw [findChild, edgeSlots]
  cases ht : n.type with
  | node4 => simp [List.find?_map, Function.comp_def]
  | node16 =>
    simp only [List.find?_map, Option.map_map, Function.comp_def, Option.map_id']
    rw [find?_range_mono (h ht) (p := fun i => decide (n.keys i = c ∧ i < n.numChildren))]
    · apply List.find?_congr
      intro i hi
      simp [List.mem_range.mp hi]
    · intro i hi
      exact (of_decide_eq_true hi).2
  | node48 =>
    rw [find?_map_toNat fun i => mem_present_lt]
    have hmem : c.toNat ∈ present n ↔ n.keys c.toNat ≠ 0 := by
      simp [present, ht, UInt8.toNat_lt c]
    by_cases hk : n.keys c.toNat = 0 <;> simp [hmem, hk]
  | node256 =>
    rw [find?_map_toNat fun i => mem_present_lt]
    have hmem : c.toNat ∈ present n ↔ (n.children c.toNat).isNull = false := by
      simp [present, ht, UInt8.toNat_lt c]
    cases hk : (n.children c.toNat).isNull <;> simp [hmem, hk]

theorem map_fst_edges (n : ArtInner (ArtNode V)) : (edges n).map Prod.fst = (edgeSlots n).map Prod.fst := by
  simp [edges, Function.comp_def]

section Find
variable (h : Ok n)
include h

theorem Ok.findChild_eq : findChild n c = ((edgeSlots n).find? fun e => e.1 = c).map Prod.snd := by
  apply Radix.findChild_eq
  intro ht
  have hroom := h.room
  simpa [edgeSlots, ht, NodeType.capacity] using hroom

theorem Ok.findChild_eq_none : findChild n c = none ↔ c ∉ (edges n).map Prod.fst := by
  rw [h.findChild_eq, Option.map_eq_none_iff, List.find?_eq_none, map_fst_edges, List.mem_map]
  constructor
  · rintro hall ⟨e, he, rfl⟩
    exact hall e he (by simp)
  · intro hnone e he hc
    exact hnone ⟨e, he, by simpa using hc⟩

theorem Ok.mem_of_findChild {i : Nat} (hi : findChild n c = some i) : (c, i) ∈ edgeSlots n := by
  rw [h.findChild_eq] at hi
  obtain ⟨e, he, rfl⟩ := Option.map_eq_some_iff.mp hi
  have hc : e.1 = c := by simpa using List.find?_some he
  exact hc ▸ List.mem_of_find?_eq_some he

theorem Ok.findChild_of_mem {i : Nat} (hi : (c, i) ∈ edgeSlots n) : findChild n c = some i := by
  cases hf : findChild n c with
  | none =>
    rw [h.findChild_eq_none, map_fst_edges] at hf
    exact absurd (List.mem_map_of_mem hi) hf
  | some j =>
    have heq := List.inj_on_of_nodup_map h.labels (h.mem_of_findChild hf) hi rfl
    rw [(Prod.mk.inj heq).2]

/-- Replacing the child in a cell. -/
theorem Ok.edgeSlots_setChild {i : Nat} (hi : (c, i) ∈ edgeSlots n) (hx : child ≠ .null) :
    edgeSlots (setChild n i child) = edgeSlots n := by
  have hold := h.there _ hi
  cases ht : n.type with
  | node4 => simp only [edgeSlots, setChild, ht]
  | node16 => simp only [edgeSlots, setChild, ht]
  | node48 => simp only [edgeSlots, setChild, ht, present]
  | node256 =>
    simp only [edgeSlots, setChild, ht, present]
    congr 1
    apply List.filter_congr
    intro j _
    by_cases hj : j = i
    · subst hj
      rw [Function.update_self, Bool.eq_false_iff.mpr fun hnull => hx (isNull_iff.mp hnull),
        Bool.eq_false_iff.mpr fun hnull => hold (isNull_iff.mp hnull)]
    · rw [Function.update_of_ne hj]

theorem Ok.ok_setChild {i : Nat} (hi : (c, i) ∈ edgeSlots n) (hx : child ≠ .null) :
    Ok (setChild n i child) := by
  have hslots := h.edgeSlots_setChild hi hx
  refine ⟨?_, ?_, ?_, ?_, ?_, ?_⟩
  · rw [hslots]
    exact h.labels
  · rw [hslots]
    exact h.slots
  · rw [hslots]
    intro e he
    by_cases hj : e.2 = i
    · simpa [setChild, hj] using hx
    · simpa [setChild, hj] using h.there e he
  · rw [hslots]
    exact h.count
  · rw [hslots]
    exact h.room
  · rw [hslots]
    intro ht
    refine ⟨(h.free ht).1, ?_⟩
    intro pos hpos hne
    by_cases hj : pos = i
    · exact hj ▸ List.mem_map_of_mem hi
    · have hold : n.children pos ≠ .null := by simpa [setChild, hj] using hne
      exact (h.free ht).2 pos hpos hold

theorem Ok.edges_setChild {i : Nat} (hi : (c, i) ∈ edgeSlots n) (hx : child ≠ .null) :
    ∃ before after, edges n = before ++ (c, n.children i) :: after ∧
      edges (setChild n i child) = before ++ (c, child) :: after := by
  obtain ⟨l, r, hlr⟩ := List.append_of_mem hi
  have hnodup := h.slots
  rw [hlr, List.map_append, List.map_cons, List.nodup_append] at hnodup
  have hother : ∀ e, e ∈ l ∨ e ∈ r → e.2 ≠ i := by
    rintro e (he | he) rfl
    · exact hnodup.2.2 _ (List.mem_map_of_mem he) _ (by simp) rfl
    · exact (List.nodup_cons.mp hnodup.2.1).1 (List.mem_map.mpr ⟨e, he, rfl⟩)
  refine ⟨l.map fun e => (e.1, n.children e.2), r.map fun e => (e.1, n.children e.2), ?_, ?_⟩
  · rw [edges, hlr, List.map_append, List.map_cons]
  · rw [edges, h.edgeSlots_setChild hi hx, hlr, List.map_append, List.map_cons]
    simp only [setChild, Function.update_self]
    congr 1
    · apply List.map_congr_left
      intro e he
      rw [Function.update_of_ne (hother e (.inl he))]
    · congr 1
      apply List.map_congr_left
      intro e he
      rw [Function.update_of_ne (hother e (.inr he))]

end Find

section Rows
variable (ht : n.type = .node4 ∨ n.type = .node16)
include ht

theorem edgeSlots_rows : edgeSlots n = (List.range n.numChildren).map fun i => (n.keys i, i) := by
  rcases ht with ht | ht <;> rw [edgeSlots, ht]

theorem edges_rows : edges n = cells (fun i => (n.keys i, n.children i)) n.numChildren := by
  rw [edges, edgeSlots_rows ht, List.map_map]
  rfl

theorem capacity_rows : n.type.capacity ≤ 16 := by
  rcases ht with ht | ht <;> rw [ht] <;> decide

theorem ok_rows_iff : Ok n ↔ n.numChildren ≤ n.type.capacity ∧ ((edges n).map Prod.fst).Nodup ∧
    ∀ e ∈ edges n, e.2 ≠ .null := by
  have hslots := edgeSlots_rows ht
  constructor
  · intro h
    refine ⟨?_, ?_, ?_⟩
    · simpa [hslots] using h.room
    · rw [map_fst_edges]
      exact h.labels
    · intro e he
      obtain ⟨e', he', rfl⟩ := List.mem_map.mp he
      exact h.there e' he'
  · rintro ⟨hroom, hlabels, hthere⟩
    have hlt := capacity_rows ht
    refine ⟨?_, ?_, ?_, ?_, ?_, ?_⟩
    · rwa [← map_fst_edges]
    · rw [hslots, List.map_map]
      simpa [Function.comp_def] using List.nodup_range
    · intro e he
      exact hthere (e.1, n.children e.2) (List.mem_map_of_mem he)
    · rw [hslots, List.length_map, List.length_range, Nat.mod_eq_of_lt (by omega)]
    · rwa [hslots, List.length_map, List.length_range]
    · intro h48
      rcases ht with ht | ht <;> rw [ht] at h48 <;> cases h48

theorem edges_insertRow {idx : Nat} (hidx : idx ≤ n.numChildren) :
    edges (insertRow n idx c child) = cells (fun i => (n.keys i, n.children i)) idx ++
      (c, child) :: cells (fun i => (n.keys (idx + i), n.children (idx + i))) (n.numChildren - idx) := by
  rw [edges_rows (n := insertRow n idx c child) ht]
  simp only [insertRow, insertAt_pair]
  exact cells_insertAt _ _ hidx

/-- A row of the two arrays at any place is a new edge. -/
theorem edges_insertRow_perm {idx : Nat} (hidx : idx ≤ n.numChildren) :
    (edges (insertRow n idx c child)).Perm ((c, child) :: edges n) := by
  rw [edges_insertRow ht hidx, edges_rows ht, cells_split _ hidx]
  exact List.perm_middle

theorem edges_removeRow {pos : Nat} (hpos : pos < n.numChildren) :
    edges (removeRow n pos) = cells (fun i => (n.keys i, n.children i)) pos ++
      cells (fun i => (n.keys (pos + 1 + i), n.children (pos + 1 + i))) (n.numChildren - (pos + 1)) := by
  rw [edges_rows (n := removeRow n pos) ht]
  simp only [removeRow, removeAt_pair]
  exact cells_removeAt _ hpos

end Rows

section Mapped
variable (ht : n.type = .node48)
include ht

theorem mem_present_mapped {i : Nat} : i ∈ present n ↔ i < 256 ∧ n.keys i ≠ 0 := by
  simp [present, ht]

theorem edgeSlots_mapped : edgeSlots n = (present n).map fun i => (UInt8.ofNat i, (n.keys i).toNat - 1) := by
  rw [edgeSlots, ht]

theorem edges_mapped : edges n =
    (present n).map fun i => (UInt8.ofNat i, n.children ((n.keys i).toNat - 1)) := by
  rw [edges, edgeSlots_mapped ht, List.map_map]
  rfl

theorem keys_of_not_mem (hc : c ∉ (edges n).map Prod.fst) : n.keys c.toNat = 0 := by
  by_contra hne
  apply hc
  rw [edges_mapped ht, List.map_map]
  exact List.mem_map.mpr ⟨c.toNat, (mem_present_mapped ht).mpr ⟨UInt8.toNat_lt c, hne⟩, UInt8.ofNat_toNat⟩

end Mapped

section Direct
variable (ht : n.type = .node256)
include ht

theorem mem_present_direct {i : Nat} : i ∈ present n ↔ i < 256 ∧ n.children i ≠ .null := by
  have hnull : (n.children i).isNull = false ↔ n.children i ≠ .null := by
    rw [← Bool.not_eq_true, isNull_iff]
  simp [present, ht, hnull]

theorem edgeSlots_direct : edgeSlots n = (present n).map fun i => (UInt8.ofNat i, i) := by
  rw [edgeSlots, ht]

theorem edges_direct : edges n = (present n).map fun i => (UInt8.ofNat i, n.children i) := by
  rw [edges, edgeSlots_direct ht, List.map_map]
  rfl

end Direct

theorem nodup_map_present (n : ArtInner (ArtNode V)) : ((present n).map UInt8.ofNat).Nodup := by
  refine List.Nodup.map_on ?_ (nodup_present n)
  intro i hi j hj heq
  rw [← ofNat_toNat_of_lt (mem_present_lt hi), heq, ofNat_toNat_of_lt (mem_present_lt hj)]

theorem length_present_le (n : ArtInner (ArtNode V)) : (present n).length ≤ 256 :=
  (List.length_filter_le _ _).trans (List.length_range ▸ Nat.le_refl 256)

theorem toNat_ne_zero {k : UInt8} (h : k ≠ 0) : k.toNat ≠ 0 := by
  intro h0
  exact h (UInt8.toNat_inj.mp h0)

theorem ok_mapped (ht : n.type = .node48) (hcount : n.numChildren = (present n).length)
    (hroom : n.numChildren ≤ 48) (hkeys : ∀ i < 256, (n.keys i).toNat ≤ 48)
    (hinj : ∀ i ∈ present n, ∀ j ∈ present n, n.keys i = n.keys j → i = j)
    (hthere : ∀ i ∈ present n, n.children ((n.keys i).toNat - 1) ≠ .null)
    (hfree : ∀ pos < 48, n.children pos ≠ .null → ∃ i ∈ present n, (n.keys i).toNat - 1 = pos) : Ok n := by
  have hslots := edgeSlots_mapped ht
  have hlen : (edgeSlots n).length = n.numChildren := by rw [hslots, List.length_map, hcount]
  refine ⟨?_, ?_, ?_, ?_, ?_, ?_⟩
  · rw [hslots, List.map_map]
    exact nodup_map_present n
  · rw [hslots, List.map_map]
    refine List.Nodup.map_on ?_ (nodup_present n)
    intro i hi j hj heq
    have hi0 := toNat_ne_zero ((mem_present_mapped ht).mp hi).2
    have hj0 := toNat_ne_zero ((mem_present_mapped ht).mp hj).2
    apply hinj i hi j hj
    apply UInt8.toNat_inj.mp
    simp only [Function.comp_apply] at heq
    omega
  · intro e he
    rw [hslots] at he
    obtain ⟨i, hi, rfl⟩ := List.mem_map.mp he
    exact hthere i hi
  · rw [hlen, Nat.mod_eq_of_lt (by omega)]
  · rw [hlen, ht]
    exact hroom
  · intro _
    refine ⟨hkeys, ?_⟩
    intro pos hpos hne
    obtain ⟨i, hi, heq⟩ := hfree pos hpos hne
    rw [hslots, List.map_map]
    exact List.mem_map.mpr ⟨i, hi, heq⟩

theorem ok_direct (ht : n.type = .node256) (hcount : n.numChildren = (present n).length % 256) : Ok n := by
  have hslots := edgeSlots_direct ht
  refine ⟨?_, ?_, ?_, ?_, ?_, ?_⟩
  · rw [hslots, List.map_map]
    exact nodup_map_present n
  · rw [hslots, List.map_map]
    simpa [Function.comp_def] using nodup_present n
  · intro e he
    rw [hslots] at he
    obtain ⟨i, hi, rfl⟩ := List.mem_map.mp he
    exact ((mem_present_direct ht).mp hi).2
  · rwa [hslots, List.length_map]
  · rw [hslots, List.length_map, ht]
    exact length_present_le n
  · intro h48
    rw [ht] at h48
    cases h48

structure SamePath (n m : ArtInner (ArtNode V)) : Prop where
  len : m.partialLen = n.partialLen
  bytes : ∀ i < min maxPrefixLen n.partialLen, m.partialBytes i = n.partialBytes i

theorem SamePath.trans {m k : ArtInner (ArtNode V)} (h : SamePath n m) (h' : SamePath m k) : SamePath n k := by
  refine ⟨h'.len.trans h.len, ?_⟩
  intro i hi
  rw [h'.bytes i (h.len ▸ hi), h.bytes i hi]

theorem samePath_copyHeader (dest n : ArtInner (ArtNode V)) : SamePath n (copyHeader dest n) := by
  refine ⟨rfl, ?_⟩
  intro i hi
  simp [copyHeader, copyFrom, hi]

structure Added (n : ArtInner (ArtNode V)) (c : UInt8) (child : ArtNode V) (m : ArtInner (ArtNode V)) : Prop where
  ok : Ok m
  perm : (edges m).Perm ((c, child) :: edges n)
  path : SamePath n m

structure Copied (n m : ArtInner (ArtNode V)) : Prop where
  ok : Ok m
  perm : (edges m).Perm (edges n)
  path : SamePath n m

theorem Copied.added {m k : ArtInner (ArtNode V)} (h : Copied n m) (h' : Added m c child k) : Added n c child k :=
  ⟨h'.ok, h'.perm.trans (h.perm.cons _), h.path.trans h'.path⟩

theorem Copied.not_mem {m : ArtInner (ArtNode V)} (h : Copied n m) (hc : c ∉ (edges n).map Prod.fst) :
    c ∉ (edges m).map Prod.fst := by
  rwa [(h.perm.map Prod.fst).mem_iff]

theorem insertRow_added (ht : n.type = .node4 ∨ n.type = .node16) (h : Ok n) {idx : Nat}
    (hidx : idx ≤ n.numChildren) (hroom : n.numChildren < n.type.capacity)
    (hc : c ∉ (edges n).map Prod.fst) (hx : child ≠ .null) : Added n c child (insertRow n idx c child) := by
  have hperm : (edges (insertRow n idx c child)).Perm ((c, child) :: edges n) := edges_insertRow_perm ht hidx
  obtain ⟨-, hlabels, hthere⟩ := (ok_rows_iff ht).mp h
  refine ⟨(ok_rows_iff (n := insertRow n idx c child) ht).mpr ⟨hroom, ?_, ?_⟩, hperm, rfl, fun _ _ => rfl⟩
  · rw [(hperm.map Prod.fst).nodup_iff]
    exact List.nodup_cons.mpr ⟨hc, hlabels⟩
  · intro e he
    rcases List.mem_cons.mp (hperm.mem_iff.mp he) with rfl | he
    · exact hx
    · exact hthere e he

theorem filter_perm_cons {l : List Nat} (hl : l.Nodup) {p q : Nat → Bool} {a : Nat} (ha : a ∈ l)
    (hpa : p a = false) (hq : ∀ i, q i = true ↔ i = a ∨ p i = true) :
    (l.filter q).Perm (a :: l.filter p) := by
  rw [List.perm_ext_iff_of_nodup (hl.filter q)]
  · intro i
    rw [List.mem_filter, hq, List.mem_cons, List.mem_filter]
    constructor
    · rintro ⟨hi, rfl | hp⟩
      · exact .inl rfl
      · exact .inr ⟨hi, hp⟩
    · rintro (rfl | ⟨hi, hp⟩)
      · exact ⟨ha, .inl rfl⟩
      · exact ⟨hi, .inr hp⟩
  · refine List.nodup_cons.mpr ⟨?_, hl.filter p⟩
    intro hmem
    rw [(List.mem_filter.mp hmem).2] at hpa
    cases hpa

theorem addChild256_added (ht : n.type = .node256) (h : Ok n) (hc : c ∉ (edges n).map Prod.fst)
    (hx : child ≠ .null) : Added n c child (addChild256 n c child) := by
  have ht' : (addChild256 n c child).type = .node256 := ht
  have hc0 : n.children c.toNat = .null := by
    by_contra hne
    apply hc
    rw [edges_direct ht, List.map_map]
    exact List.mem_map.mpr ⟨c.toNat, (mem_present_direct ht).mpr ⟨UInt8.toNat_lt c, hne⟩, UInt8.ofNat_toNat⟩
  have hpresent : (present (addChild256 n c child)).Perm (c.toNat :: present n) := by
    simp only [present, ht, ht']
    apply filter_perm_cons List.nodup_range (List.mem_range.mpr (UInt8.toNat_lt c))
    · simp [hc0, ArtNode.isNull]
    · intro i
      by_cases hi : i = c.toNat
      · subst hi
        have hx' : child.isNull = false := Bool.eq_false_iff.mpr fun hnull => hx (isNull_iff.mp hnull)
        simp [addChild256, hx']
      · simp [addChild256, hi]
  have hcount := h.count
  rw [edgeSlots_direct ht, List.length_map] at hcount
  refine ⟨ok_direct ht' ?_, ?_, rfl, fun _ _ => rfl⟩
  · rw [hpresent.length_eq, List.length_cons]
    simp only [addChild256, hcount]
    omega
  · rw [edges_direct ht', edges_direct ht]
    refine (hpresent.map _).trans ?_
    rw [List.map_cons]
    simp only [addChild256, Function.update_self, UInt8.ofNat_toNat]
    refine List.Perm.cons _ (List.Perm.of_eq (List.map_congr_left ?_))
    intro i hi
    have hne : i ≠ c.toNat := by
      rintro rfl
      exact ((mem_present_direct ht).mp hi).2 hc0
    rw [Function.update_of_ne hne]

section Mapped
variable (ht : n.type = .node48) (h : Ok n)
include ht h

theorem Ok.mapped_there {i : Nat} (hi : i ∈ present n) : n.children ((n.keys i).toNat - 1) ≠ .null := by
  apply h.there (UInt8.ofNat i, (n.keys i).toNat - 1)
  rw [edgeSlots_mapped ht]
  exact List.mem_map_of_mem hi

theorem Ok.mapped_inj {i j : Nat} (hi : i ∈ present n) (hj : j ∈ present n) (heq : n.keys i = n.keys j) :
    i = j := by
  have hslots := h.slots
  rw [edgeSlots_mapped ht, List.map_map] at hslots
  exact List.inj_on_of_nodup_map hslots hi hj (by simp [heq])

theorem Ok.mapped_count : n.numChildren = (present n).length := by
  have hcount := h.count
  have hroom := h.room
  rw [edgeSlots_mapped ht, List.length_map] at hcount hroom
  rw [ht] at hroom
  rwa [Nat.mod_eq_of_lt (Nat.lt_of_le_of_lt hroom (by decide))] at hcount

theorem Ok.mapped_free {pos : Nat} (hpos : pos < 48) (hne : n.children pos ≠ .null) :
    ∃ i ∈ present n, (n.keys i).toNat - 1 = pos := by
  have hmem := (h.free ht).2 pos hpos hne
  rw [edgeSlots_mapped ht, List.map_map] at hmem
  exact List.mem_map.mp hmem

/-- Fewer than 48 children leave a cell free. -/
theorem Ok.exists_free (hroom : n.numChildren < 48) :
    ∃ pos < 48, n.children pos = .null ∧
      (List.range 48).find? (fun pos => (n.children pos).isNull) = some pos := by
  cases hf : (List.range 48).find? fun pos => (n.children pos).isNull with
  | some pos =>
    refine ⟨pos, List.mem_range.mp (List.mem_of_find?_eq_some hf), ?_, rfl⟩
    have hnull := List.find?_some hf
    exact isNull_iff.mp hnull
  | none =>
    -- all 48 cells are taken, by as many characters
    exfalso
    have hsub : List.range 48 ⊆ (edgeSlots n).map Prod.snd := by
      intro pos hpos
      refine (h.free ht).2 pos (List.mem_range.mp hpos) ?_
      intro hnull
      exact List.find?_eq_none.mp hf pos hpos (isNull_iff.mpr hnull)
    have hle := (List.subperm_of_subset List.nodup_range hsub).length_le
    rw [edgeSlots_mapped ht, List.map_map, List.length_map, List.length_range, ← h.mapped_count ht] at hle
    omega

theorem growTo256_copied : Copied n (growTo256 n) := by
  have ht' : (growTo256 n).type = .node256 := rfl
  have hchild : ∀ i ∈ present n, (growTo256 n).children i = n.children ((n.keys i).toNat - 1) := by
    intro i hi
    simp [growTo256, ((mem_present_mapped ht).mp hi).2]
  have hpresent : present (growTo256 n) = present n := by
    simp only [present, ht, ht']
    apply List.filter_congr
    intro i hi
    by_cases hk : n.keys i = 0
    · simp [growTo256, hk, ArtNode.isNull]
    · have hmem := (mem_present_mapped ht).mpr ⟨List.mem_range.mp hi, hk⟩
      have hne := h.mapped_there ht hmem
      rw [hchild i hmem, Bool.eq_false_iff.mpr fun hnull => hne (isNull_iff.mp hnull)]
      simp [hk]
  refine ⟨ok_direct ht' ?_, List.Perm.of_eq ?_, rfl,
    (samePath_copyHeader (allocNode .node256) n).bytes⟩
  · have hcount := h.count
    rw [edgeSlots_mapped ht, List.length_map] at hcount
    rw [hpresent, ← hcount]
    rfl
  · rw [edges_direct ht', edges_mapped ht, hpresent]
    apply List.map_congr_left
    intro i hi
    rw [hchild i hi]

/-- The free cell is given to a new character; the other characters keep their cells. -/
theorem fillSlot_added {pos : Nat} (hpos : pos < 48) (hnull : n.children pos = .null)
    (hroom : n.numChildren < 48) (hc : c ∉ (edges n).map Prod.fst) (hx : child ≠ .null) :
    Added n c child (fillSlot n pos c child) := by
  have ht' : (fillSlot n pos c child).type = .node48 := ht
  have hc0 := keys_of_not_mem ht hc
  have hkey : (UInt8.ofNat (pos + 1)).toNat = pos + 1 := ofNat_toNat_of_lt (by omega)
  have hnew : (fillSlot n pos c child).keys c.toNat = UInt8.ofNat (pos + 1) := by simp [fillSlot]
  have hkeep : ∀ {i}, i ≠ c.toNat → (fillSlot n pos c child).keys i = n.keys i := by
    intro i hi
    simp [fillSlot, hi]
  have hnewSlot : ((fillSlot n pos c child).keys c.toNat).toNat - 1 = pos := by rw [hnew, hkey]; omega
  have hne : ∀ {i}, i ∈ present n → i ≠ c.toNat := by
    rintro i hi rfl
    exact ((mem_present_mapped ht).mp hi).2 hc0
  have hslot : ∀ {i}, i ∈ present n → (n.keys i).toNat - 1 ≠ pos := by
    rintro i hi heq
    exact h.mapped_there ht hi (heq ▸ hnull)
  have hpresent : (present (fillSlot n pos c child)).Perm (c.toNat :: present n) := by
    simp only [present, ht, ht']
    apply filter_perm_cons List.nodup_range (List.mem_range.mpr (UInt8.toNat_lt c))
    · simp [hc0]
    · intro i
      by_cases hi : i = c.toNat
      · have hk0 : (fillSlot n pos c child).keys i ≠ 0 := by
          intro h0
          rw [hi, hnew] at h0
          rw [h0] at hkey
          simp at hkey
        simpa [hi] using hk0
      · simp [hkeep hi, hi]
  have hmem : ∀ {i}, i ∈ present (fillSlot n pos c child) ↔ i = c.toNat ∨ i ∈ present n := by
    intro i
    rw [hpresent.mem_iff, List.mem_cons]
  have hdiff : ∀ {i}, i ∈ present n → (fillSlot n pos c child).keys i ≠ (fillSlot n pos c child).keys c.toNat := by
    intro i hi heq
    apply hslot hi
    rw [← hkeep (hne hi), heq, hnewSlot]
  refine ⟨ok_mapped ht' ?_ hroom ?_ ?_ ?_ ?_, ?_, rfl, fun _ _ => rfl⟩
  · rw [hpresent.length_eq, List.length_cons, ← h.mapped_count ht]
    rfl
  · intro i hi
    by_cases hic : i = c.toNat
    · rw [hic, hnew, hkey]
      omega
    · rw [hkeep hic]
      exact (h.free ht).1 i hi
  · intro i hi j hj heq
    rcases hmem.mp hi with rfl | hi
    · rcases hmem.mp hj with rfl | hj
      · rfl
      · exact absurd heq.symm (hdiff hj)
    · rcases hmem.mp hj with rfl | hj
      · exact absurd heq (hdiff hi)
      · rw [hkeep (hne hi), hkeep (hne hj)] at heq
        exact h.mapped_inj ht hi hj heq
  · intro i hi
    rcases hmem.mp hi with rfl | hi
    · rw [hnewSlot]
      simpa [fillSlot] using hx
    · rw [hkeep (hne hi)]
      simpa [fillSlot, hslot hi] using h.mapped_there ht hi
  · intro pos' hpos' hother
    by_cases hp : pos' = pos
    · exact ⟨c.toNat, hmem.mpr (.inl rfl), hnewSlot.trans hp.symm⟩
    · have hold : n.children pos' ≠ .null := by simpa [fillSlot, hp] using hother
      obtain ⟨i, hi, heq⟩ := h.mapped_free ht hpos' hold
      exact ⟨i, hmem.mpr (.inr hi), by rw [hkeep (hne hi), heq]⟩
  · rw [edges_mapped ht', edges_mapped ht]
    refine (hpresent.map _).trans ?_
    rw [List.map_cons, hnewSlot, UInt8.ofNat_toNat]
    have hchild : (fillSlot n pos c child).children pos = child := by simp [fillSlot]
    rw [hchild]
    refine List.Perm.cons _ (List.Perm.of_eq (List.map_congr_left ?_))
    intro i hi
    rw [hkeep (hne hi)]
    simp [fillSlot, hslot hi]

theorem addChild48_added (hc : c ∉ (edges n).map Prod.fst) (hx : child ≠ .null) :
    Added n c child (addChild48 n c child) := by
  by_cases hroom : n.numChildren < 48
  · obtain ⟨pos, hpos, hnull, hfind⟩ := h.exists_free ht hroom
    rw [addChild48, if_pos hroom, hfind, Option.getD_some]
    exact fillSlot_added ht h hpos hnull hroom hc hx
  · have hcopied := growTo256_copied ht h
    rw [addChild48, if_neg hroom]
    exact hcopied.added (addChild256_added rfl hcopied.ok (hcopied.not_mem hc) hx)

end Mapped

/-- The loop that fills the characters of a `node48`. -/
theorem foldl_keys {keys : Nat → UInt8} {m : Nat} (hnodup : (cells keys m).Nodup) :
    (∀ i < m, (List.range m).foldl (fun (ks : Nat → UInt8) i => Function.update ks (keys i).toNat (UInt8.ofNat (i + 1)))
        (fun _ => 0) (keys i).toNat = UInt8.ofNat (i + 1)) ∧
    ∀ b, (∀ i < m, (keys i).toNat ≠ b) →
      (List.range m).foldl (fun (ks : Nat → UInt8) i => Function.update ks (keys i).toNat (UInt8.ofNat (i + 1)))
        (fun _ => 0) b = 0 := by
  induction m with
  | zero => simp
  | succ m ih =>
    rw [cells_succ, List.nodup_append] at hnodup
    obtain ⟨ihkey, ihzero⟩ := ih hnodup.1
    simp only [List.range_succ, List.foldl_append, List.foldl_cons, List.foldl_nil]
    constructor
    · intro i hi
      rcases Nat.eq_or_lt_of_le (Nat.le_of_lt_succ hi) with rfl | hlt
      · simp
      · have hne : (keys i).toNat ≠ (keys m).toNat := by
          intro heq
          exact hnodup.2.2 _ (mem_cells.mpr ⟨i, hlt, rfl⟩) _ (by simp) (UInt8.toNat_inj.mp heq)
        rw [Function.update_of_ne hne]
        exact ihkey i hlt
    · intro b hb
      rw [Function.update_of_ne (hb m (Nat.lt_succ_self m)).symm]
      exact ihzero b fun i hi => hb i (Nat.lt_succ_of_lt hi)

theorem growTo48_child {i : Nat} (hi : i < n.numChildren) : (growTo48 n).children i = n.children i := by
  simp [growTo48, copyFrom, hi]

section Rows
variable (ht : n.type = .node4 ∨ n.type = .node16) (h : Ok n)
include ht h

theorem Ok.nodup_keys : (cells n.keys n.numChildren).Nodup := by
  have hlabels := ((ok_rows_iff ht).mp h).2.1
  rwa [edges_rows ht, map_cells] at hlabels

theorem Ok.rows_lt : n.numChildren ≤ 16 :=
  ((ok_rows_iff ht).mp h).1.trans (capacity_rows ht)

theorem growTo48_keys {i : Nat} (hi : i < n.numChildren) :
    (growTo48 n).keys (n.keys i).toNat = UInt8.ofNat (i + 1) :=
  (foldl_keys (h.nodup_keys ht)).1 i hi

theorem growTo48_slot {i : Nat} (hi : i < n.numChildren) :
    ((growTo48 n).keys (n.keys i).toNat).toNat - 1 = i := by
  have hle := h.rows_lt ht
  rw [growTo48_keys ht h hi, ofNat_toNat_of_lt (by omega)]
  omega

theorem mem_present_growTo48 {b : Nat} :
    b ∈ present (growTo48 n) ↔ ∃ i < n.numChildren, (n.keys i).toNat = b := by
  rw [mem_present_mapped rfl]
  constructor
  · rintro ⟨-, hne⟩
    by_contra hnone
    apply hne
    exact (foldl_keys (h.nodup_keys ht)).2 b fun i hi heq => hnone ⟨i, hi, heq⟩
  · rintro ⟨i, hi, rfl⟩
    refine ⟨UInt8.toNat_lt _, ?_⟩
    have hle := h.rows_lt ht
    rw [growTo48_keys ht h hi]
    intro h0
    have hcontra : (UInt8.ofNat (i + 1)).toNat = 0 := by rw [h0]; rfl
    rw [ofNat_toNat_of_lt (by omega)] at hcontra
    omega

theorem growTo48_perm : (edges (growTo48 n)).Perm (edges n) := by
  have hnodup : ((edges n).map Prod.fst).Nodup := ((ok_rows_iff ht).mp h).2.1
  rw [List.perm_ext_iff_of_nodup _ hnodup.of_map]
  · rintro ⟨c, x⟩
    rw [edges_mapped (n := growTo48 n) rfl, edges_rows ht, List.mem_map, mem_cells]
    constructor
    · rintro ⟨b, hb, heq⟩
      obtain ⟨i, hi, rfl⟩ := (mem_present_growTo48 ht h).mp hb
      refine ⟨i, hi, ?_⟩
      rw [← heq, growTo48_slot ht h hi, growTo48_child hi, UInt8.ofNat_toNat]
    · rintro ⟨i, hi, heq⟩
      refine ⟨(n.keys i).toNat, (mem_present_growTo48 ht h).mpr ⟨i, hi, rfl⟩, ?_⟩
      rw [← heq, growTo48_slot ht h hi, growTo48_child hi, UInt8.ofNat_toNat]
  · apply List.Nodup.of_map Prod.fst
    rw [edges_mapped (n := growTo48 n) rfl, List.map_map]
    exact nodup_map_present _

theorem growTo48_copied : Copied n (growTo48 n) := by
  have hle := h.rows_lt ht
  have hperm := growTo48_perm ht h
  have hkeys : ∀ b, (growTo48 n).keys b = 0 ∨ ∃ i < n.numChildren, (n.keys i).toNat = b := by
    intro b
    by_cases hex : ∃ i < n.numChildren, (n.keys i).toNat = b
    · exact .inr hex
    · exact .inl ((foldl_keys (h.nodup_keys ht)).2 b fun i hi heq => hex ⟨i, hi, heq⟩)
  refine ⟨ok_mapped rfl ?_ ?_ ?_ ?_ ?_ ?_, hperm, rfl, (samePath_copyHeader (allocNode .node48) n).bytes⟩
  · have hlen := hperm.length_eq
    rw [edges_mapped (n := growTo48 n) rfl, List.length_map, edges_rows ht, length_cells] at hlen
    exact hlen.symm
  · exact hle.trans (by decide)
  · intro b _
    rcases hkeys b with h0 | ⟨i, hi, rfl⟩
    · simp [h0]
    · rw [growTo48_keys ht h hi, ofNat_toNat_of_lt (by omega)]
      omega
  · intro a ha b hb heq
    obtain ⟨i, hi, rfl⟩ := (mem_present_growTo48 ht h).mp ha
    obtain ⟨j, hj, rfl⟩ := (mem_present_growTo48 ht h).mp hb
    have hij := congrArg (fun k : UInt8 => k.toNat - 1) heq
    simp only [growTo48_slot ht h hi, growTo48_slot ht h hj] at hij
    rw [hij]
  · intro b hb
    obtain ⟨i, hi, rfl⟩ := (mem_present_growTo48 ht h).mp hb
    rw [growTo48_slot ht h hi, growTo48_child hi]
    apply ((ok_rows_iff ht).mp h).2.2 (n.keys i, n.children i)
    rw [edges_rows ht]
    exact mem_cells.mpr ⟨i, hi, rfl⟩
  · intro pos _ hne
    have hlt : pos < n.numChildren := by
      by_contra hge
      exact hne (by simp [growTo48, copyFrom, hge])
    exact ⟨_, (mem_present_growTo48 ht h).mpr ⟨pos, hlt, rfl⟩, growTo48_slot ht h hlt⟩

end Rows

theorem edges_growTo16 (ht : n.type = .node4) : edges (growTo16 n) = edges n := by
  rw [edges_rows (n := growTo16 n) (.inr rfl), edges_rows (.inl ht)]
  apply cells_congr
  intro i hi
  have hi' : i < n.numChildren := hi
  simp [growTo16, copyFrom, hi']

theorem growTo16_copied (ht : n.type = .node4) (h : Ok n) : Copied n (growTo16 n) := by
  obtain ⟨hroom, hlabels, hthere⟩ := (ok_rows_iff (.inl ht)).mp h
  have hedges := edges_growTo16 ht
  refine ⟨(ok_rows_iff (.inr rfl)).mpr ⟨?_, ?_, ?_⟩, List.Perm.of_eq hedges, rfl,
    (samePath_copyHeader (allocNode .node16) n).bytes⟩
  · rw [ht] at hroom
    exact hroom.trans (show 4 ≤ 16 by decide)
  · rwa [hedges]
  · rwa [hedges]

theorem find_le {p : Nat → Bool} {m k : Nat} (hp : ∀ i, p i = true → i < m) :
    ((List.range k).find? p).getD m ≤ m := by
  cases hf : (List.range k).find? p with
  | none => exact Nat.le_refl m
  | some i => exact (hp i (List.find?_some hf)).le

theorem addChild16_added (ht : n.type = .node16) (h : Ok n) (hc : c ∉ (edges n).map Prod.fst)
    (hx : child ≠ .null) : Added n c child (addChild16 n c child) := by
  rw [addChild16]
  split_ifs with hroom
  · refine insertRow_added (.inr ht) h (find_le ?_) (by rwa [ht]) hc hx
    intro i hi
    exact (of_decide_eq_true hi).2
  · have hcopied := growTo48_copied (.inr ht) h
    exact hcopied.added (addChild48_added rfl hcopied.ok (hcopied.not_mem hc) hx)

theorem addChild4_added (ht : n.type = .node4) (h : Ok n) (hc : c ∉ (edges n).map Prod.fst)
    (hx : child ≠ .null) : Added n c child (addChild4 n c child) := by
  rw [addChild4]
  split_ifs with hroom
  · refine insertRow_added (.inl ht) h ?_ (by rwa [ht]) hc hx
    cases hf : (List.range n.numChildren).find? fun i => c < n.keys i with
    | none => exact Nat.le_refl _
    | some i => exact (List.mem_range.mp (List.mem_of_find?_eq_some hf)).le
  · have hcopied := growTo16_copied ht h
    exact hcopied.added (addChild16_added rfl hcopied.ok (hcopied.not_mem hc) hx)

theorem type_addChild4 (hroom : n.numChildren < 4) : (addChild4 n c child).type = n.type := by
  rw [addChild4, if_pos hroom]
  rfl

theorem numChildren_addChild4 (hroom : n.numChildren < 4) :
    (addChild4 n c child).numChildren = n.numChildren + 1 := by
  rw [addChild4, if_pos hroom]
  rfl

/-- A child for a new character is added to the edges, and the rest of the node is the same. -/
theorem addChild_added (h : Ok n) (hc : c ∉ (edges n).map Prod.fst) (hx : child ≠ .null) :
    Added n c child (addChild n c child) := by
  rw [addChild]
  cases ht : n.type with
  | node4 => exact addChild4_added ht h hc hx
  | node16 => exact addChild16_added ht h hc hx
  | node48 => exact addChild48_added ht h hc hx
  | node256 => exact addChild256_added ht h hc hx

end Miqs.Radix
