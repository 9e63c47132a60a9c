import Miqs.TypeIsolation

/-! Searches for what was never indexed. The node a search finds always has an entry,
and a search that finds no node reads it all the same. -/
namespace Miqs.Index
open Miqs.CData Miqs.KeyedTree
variable {π : Type} [Descent NumKey]

def QueryValue.OccursIn : QueryValue → AttrValue → Prop
  | .unknown, _ => False
  | .integer v, value => v ∈ value.ints
  | .float v, value => ∃ w ∈ value.doubles, CDouble.toRat w = CDouble.toRat v
  | .string s, value => s ∈ value.texts

def Absent (as : List Attribute) (n : CString) (query : QueryValue) : Prop :=
  ∀ a ∈ as, a.attrName = n → ¬ query.OccursIn a.attributeValue

structure NodesFull (leaf : AttrLeaf π) : Prop where
  numbers : ∀ t, leaf.rbt = some t → ∀ e ∈ t.nodes, e.2 ≠ []
  strings : ∀ m, leaf.art = some m → ∀ e ∈ m, e.2 ≠ []

omit [Descent NumKey] in
theorem nodesFull_newLeaf (type : AttrType) : NodesFull (newLeaf type : AttrLeaf π × Bool).1 := by
  constructor
  · intro t ht
    cases type <;> simp [newLeaf] at ht <;> simp [← ht, Rbt.create]
  · intro m hm
    cases type <;> simp_all [newLeaf]

omit [Descent NumKey] in
/-- What a string tree holds after some strings are pushed. -/
theorem mem_pushValues {t : Art (List π)} {keys : List CString} {pair : π} {e : CString × List π}
    (he : e ∈ Art.pushValues t keys pair) : e ∈ t ∨ e.1 ∈ keys ∧ e.2 ≠ [] := by
  induction keys generalizing t with
  | nil => exact Or.inl he
  | cons s keys ih =>
    rcases ih he with h | ⟨hk, hne⟩
    · rcases AssocMap.mem_insert h with rfl | h
      · exact Or.inr ⟨by simp, by simp⟩
      · exact Or.inl h
    · exact Or.inr ⟨List.mem_cons_of_mem s hk, hne⟩

theorem NodesFull.addNumeric {leaf : AttrLeaf π} (h : NodesFull leaf) (keys : List NumKey) (pair : π) :
    NodesFull (leaf.addNumeric keys pair) where
  numbers := by
    intro t ht
    obtain ⟨t₀, ht₀, rfl⟩ := Option.map_eq_some_iff.mp ht
    exact nonempty_pushAll (h.numbers t₀ ht₀) _
  strings := h.strings

theorem NodesFull.addValue {leaf : AttrLeaf π} (h : NodesFull leaf) (pair : π) (value : AttrValue) :
    NodesFull (leaf.addValue pair value) := by
  cases value with
  | unknown n => exact h
  | integer vals beyond => exact h.addNumeric _ pair
  | float vals => exact h.addNumeric _ pair
  | string vals =>
    refine ⟨h.numbers, ?_⟩
    intro m hm e he
    obtain rfl := Option.some.inj hm
    rcases mem_pushValues he with hold | ⟨_, hne⟩
    · cases ha : leaf.art with
      | none => simp [ha] at hold
      | some m₀ => exact h.strings m₀ ha e (by simpa [ha] using hold)
    · exact hne

theorem NodesFull.search_ne {leaf : AttrLeaf π} (h : NodesFull leaf) (query : QueryValue) :
    leaf.search query ≠ some (some []) := by
  intro hs
  unfold AttrLeaf.search at hs
  cases hr : leaf.rbt with
  | none => simp [hr] at hs
  | some t =>
    have hnode : ∀ key, t.find key ≠ some [] := by
      intro key hf
      obtain ⟨k, hk, -⟩ := lookup_some hf
      exact h.numbers t hr _ hk rfl
    simp only [hr] at hs
    cases query with
    | unknown => simp at hs
    | integer v => exact hnode _ (Option.some.inj hs)
    | float v => exact hnode _ (Option.some.inj hs)
    | string s =>
      obtain ⟨m, hm, hsm⟩ := Option.map_eq_some_iff.mp hs
      exact h.strings m hm _ (AssocMap.mem_of_search hsm) rfl

/-- The string tree of a name holds only strings indexed under the name. -/
theorem text_of_mem_art {as : List Attribute} {n : CString} {leaf : AttrLeaf SearchRstEntry}
    (h : pathIndexAll as n = some leaf) {m : Art (List SearchRstEntry)} (hm : leaf.art = some m)
    {e : CString × List SearchRstEntry} (he : e ∈ m) :
    ∃ a ∈ as, a.attrName = n ∧ e.1 ∈ a.attributeValue.texts := by
  have hall := pathIndexAll_leaf (fun leaf => ∀ e ∈ leaf.art.getD [],
    ∃ a ∈ as, a.attrName = n ∧ e.1 ∈ a.attributeValue.texts) ?_ ?_ h
  · exact hall e (by simpa [hm] using he)
  · intro a _ _
    cases a.attributeValue.type <;> simp [newLeaf]
  · intro a ha han leaf hleaf e he
    cases hv : a.attributeValue with
    | unknown k => exact hleaf e (by simpa [hv, AttrLeaf.addValue] using he)
    | integer vals beyond =>
      exact hleaf e (by simpa [hv, AttrLeaf.addValue, AttrLeaf.addNumeric] using he)
    | float vals => exact hleaf e (by simpa [hv, AttrLeaf.addValue, AttrLeaf.addNumeric] using he)
    | string vals =>
      simp only [hv, AttrLeaf.addValue, AttrLeaf.addStrings, Option.getD_some] at he
      rcases mem_pushValues he with hold | ⟨hk, _⟩
      · exact hleaf e hold
      · exact ⟨a, ha, han, by simpa [hv, AttrValue.texts] using hk⟩

theorem join_search_absent_string {as : List Attribute} {n : CString} {s : CString}
    (habs : Absent as n (.string s)) : ((pathIndexAll as).search n (.string s)).join = none := by
  unfold PathIndex.search
  cases hl : pathIndexAll as n with
  | none => rfl
  | some leaf =>
    cases hf : (leaf.search (.string s)).join with
    | none => rfl
    | some l =>
      have hs := Option.join_eq_some_iff.mp hf
      unfold AttrLeaf.search at hs
      cases hr : leaf.rbt with
      | none => simp [hr] at hs
      | some t =>
        simp only [hr] at hs
        obtain ⟨m, hm, hsm⟩ := Option.map_eq_some_iff.mp hs
        obtain ⟨a, ha, han, ht⟩ := text_of_mem_art hl hm (AssocMap.mem_of_search hsm)
        exact absurd ht (habs a ha han)

/-- The leaf of a name that one type uses stores the attributes of that type as what
they are. -/
theorem keepsTypes_of_usedOnlyWith {as : List Attribute} {n : CString} {value : AttrValue}
    (hn : UsedOnlyWith as n value.type) : KeepsTypes (pathIndexAll as n) value := by
  have hnumeric : ∀ float, value.type = numericType float →
      ∀ leaf, pathIndexAll as n = some leaf → StoresAs leaf value := by
    intro float hfloat leaf hl
    have hflags := pathIndexAll_leaf (fun leaf => leaf.isFloat = float ∧
      leaf.rbt.map Rbt.cmpKeysCb = some (numericCmp float)) ?_ ?_ hl
    · obtain ⟨t, hr, hcmp⟩ := Option.map_eq_some_iff.mp hflags.2
      exact ⟨float, t, hfloat, hflags.1, hr, hcmp⟩
    · intro a ha han
      rw [hn a ha han, hfloat]
      cases float <;> exact ⟨rfl, rfl⟩
    · intro a ha han leaf hleaf
      have htype := (hn a ha han).trans hfloat
      cases hv : a.attributeValue with
      | unknown k => cases float <;> simp [hv, AttrValue.type, numericType] at htype
      | string vals => cases float <;> simp [hv, AttrValue.type, numericType] at htype
      | integer vals beyond => exact ⟨hleaf.1, by rw [← hleaf.2]; exact Option.map_map _ _ _⟩
      | float vals => exact ⟨hleaf.1, by rw [← hleaf.2]; exact Option.map_map _ _ _⟩
  intro leaf hl
  cases hv : value.type with
  | string => exact Or.inl rfl
  | unknown => exact Or.inr (Or.inl rfl)
  | integer => exact Or.inr (Or.inr (Or.inr (hnumeric false hv leaf hl)))
  | float => exact Or.inr (Or.inr (Or.inr (hnumeric true hv leaf hl)))

/-- Under a name that only another type uses, nothing is found. -/
theorem join_search_other_type {as : List Attribute} {n : CString} {type : AttrType}
    (hn : UsedOnlyWith as n type) {query : QueryValue} (hq : query.type ≠ type) :
    ((pathIndexAll as).search n query).join = none := by
  induction as using List.reverseRecOn with
  | nil => rfl
  | append_singleton as a ih =>
    have has : UsedOnlyWith as n type := fun b hb => hn b (List.mem_append_left _ hb)
    have hstep : pathIndexAll (as ++ [a]) = (pathIndexAll as).step a := by
      simp [pathIndexAll]
    rw [hstep, PathIndex.search_step, ih has]
    by_cases han : n = a.attrName
    · have htype : a.attributeValue.type = type := hn a (by simp) han.symm
      rw [← htype] at has hq
      exact Or.inr ⟨hq, keepsTypes_of_usedOnlyWith (han ▸ has)⟩
    · exact Or.inl han

/-- In no reachable state does a search for something absent answer with an empty
result. If only another type, or no attribute at all, uses the name, and whenever a
string is asked for, it reads the missing node; otherwise it does so or answers with the
entries of another value. -/
theorem absent_search_never_empty {p : Nat} (hp : 0 < p) (as : List Attribute) (n : CString)
    (query : QueryValue) (habs : Absent as n query) :
    ∃ st, indexAll p as = some st ∧ exactMetadataSearch st n query ≠ some [] ∧
      (∀ type, type ≠ query.type → UsedOnlyWith as n type → exactMetadataSearch st n query = none) ∧
      (query.type = .string → exactMetadataSearch st n query = none) := by
  obtain ⟨st, hst, hr⟩ := indexAll_represents hp as
  have hs : exactMetadataSearch st n query = ((pathIndexAll as).search n query).join :=
    exactMetadataSearch_eq (hr.resolves hp) n query
  refine ⟨st, hst, ?_, ?_, ?_⟩
  · rw [hs]
    unfold PathIndex.search
    cases hl : pathIndexAll as n with
    | none => simp
    | some leaf =>
      have hfull := pathIndexAll_leaf NodesFull (fun _ _ _ => nodesFull_newLeaf _)
        (fun _ _ _ _ hleaf => hleaf.addValue _ _) hl
      intro hj
      exact hfull.search_ne query (Option.join_eq_some_iff.mp hj)
  · intro type htype hn
    rw [hs, join_search_other_type hn htype.symm]
  · intro hstring
    cases query with
    | string s => rw [hs, join_search_absent_string habs]
    | unknown => cases hstring
    | integer v => cases hstring
    | float v => cases hstring

omit [Descent NumKey] in
/-- The int 8 is searched for where only 7 was indexed. -/
theorem absent_search_never_empty_sample :
    0 < 1 ∧ Absent [sampleAttribute] sampleAttribute.attrName (.integer 8) ∧
      ∃ st, @indexAll .oldest 1 [sampleAttribute] = some st ∧
        @exactMetadataSearch .oldest st sampleAttribute.attrName (.integer 8) ≠ some [] := by
  have habs : Absent [sampleAttribute] sampleAttribute.attrName (.integer 8) := by
    intro a ha _
    obtain rfl := List.mem_singleton.mp ha
    simp [QueryValue.OccursIn, sampleAttribute, AttrValue.ints]
  obtain ⟨st, hst, hne, -⟩ := @absent_search_never_empty .oldest 1 (by decide) _ _ _ habs
  exact ⟨by decide, habs, st, hst, hne⟩

omit [Descent NumKey] in
/-- The search for a name in an empty index reads the missing node. -/
theorem absent_search_faults :
    Absent [] sampleAttribute.attrName (.integer 7) ∧
      (@indexAll .oldest 1 []).isSome ∧
      ((@indexAll .oldest 1 []).bind fun st =>
        @exactMetadataSearch .oldest st sampleAttribute.attrName (.integer 7)) = none :=
  ⟨by simp [Absent], by decide +kernel, by decide +kernel⟩

end Miqs.Index
