import Miqs.SearchExact

/-! What indexing an attribute of one type does to the answers of the other types of
its name. All types of a name share one leaf. -/
namespace Miqs.Index
open Miqs.CData Miqs.KeyedTree
variable {π : Type}

def QueryValue.type : QueryValue → AttrType
  | .unknown => .unknown
  | .integer _ => .integer
  | .float _ => .float
  | .string _ => .string

/-- The leaf stores the values of this attribute as what they are: in a tree of the
attribute's own type, read with the width of that type. -/
def StoresAs (leaf : AttrLeaf π) (value : AttrValue) : Prop :=
  ∃ float t, value.type = numericType float ∧ leaf.isFloat = float ∧ leaf.rbt = some t ∧
    t.cmpKeysCb = numericCmp float

def KeepsTypes (leaf? : Option (AttrLeaf π)) (value : AttrValue) : Prop :=
  ∀ leaf, leaf? = some leaf → value.type = .string ∨ value.type = .unknown ∨ stored value = 0 ∨
    StoresAs leaf value

structure KeysOk (leaf : AttrLeaf π) : Prop where
  ints : ∀ t, leaf.rbt = some t → t.cmpKeysCb = .int →
    leaf.isFloat = false ∧ ∀ e ∈ t.nodes, keyFits false e.1
  doubles : ∀ t, leaf.rbt = some t → leaf.isFloat = true →
    t.cmpKeysCb = .double ∧ ∀ e ∈ t.nodes, keyFits true e.1

theorem keysOk_newLeaf (type : AttrType) : KeysOk (newLeaf type : AttrLeaf π × Bool).1 := by
  cases type with
  | integer =>
    constructor
    · intro t ht _
      cases ht
      exact ⟨rfl, by simp [Rbt.create]⟩
    · intro t _ hf
      cases hf
  | float =>
    constructor
    · intro t ht hcmp
      cases ht
      cases hcmp
    · intro t ht _
      cases ht
      exact ⟨rfl, by simp [Rbt.create]⟩
  | string => exact ⟨fun t ht _ => by simp [newLeaf] at ht, fun t ht _ => by simp [newLeaf] at ht⟩
  | unknown => exact ⟨fun t ht _ => by simp [newLeaf] at ht, fun t ht _ => by simp [newLeaf] at ht⟩

variable [Descent NumKey]

theorem KeysOk.addNumeric {leaf : AttrLeaf π} (h : KeysOk leaf) {keys : List NumKey}
    (hk : ∀ k ∈ keys, keyFits leaf.isFloat k) (pair : π) : KeysOk (leaf.addNumeric keys pair) := by
  constructor
  · intro t ht hcmp
    obtain ⟨t₀, ht₀, rfl⟩ := Option.map_eq_some_iff.mp ht
    obtain ⟨hf, hkeys⟩ := h.ints t₀ ht₀ hcmp
    exact ⟨hf, keyFits_pushValues hkeys (fun k hm => hf ▸ hk k hm) pair⟩
  · intro t ht hf
    obtain ⟨t₀, ht₀, rfl⟩ := Option.map_eq_some_iff.mp ht
    obtain ⟨hcmp, hkeys⟩ := h.doubles t₀ ht₀ hf
    exact ⟨hcmp, keyFits_pushValues hkeys (fun k hm => (show leaf.isFloat = true from hf) ▸ hk k hm) pair⟩

theorem KeysOk.addValue {leaf : AttrLeaf π} (h : KeysOk leaf) (pair : π) (value : AttrValue) :
    KeysOk (leaf.addValue pair value) := by
  cases value with
  | unknown n => exact h
  | integer vals beyond => exact h.addNumeric (keyFits_numericKeys _ _ _) pair
  | float vals => exact h.addNumeric (keyFits_numericKeys _ _ _) pair
  | string vals => exact ⟨fun t ht hc => ⟨rfl, (h.ints t ht hc).2⟩, fun t ht hf => by cases hf⟩

theorem keysOk_pathIndexAll {as : List Attribute} {n : CString} {leaf : AttrLeaf SearchRstEntry}
    (h : pathIndexAll as n = some leaf) : KeysOk leaf :=
  pathIndexAll_leaf KeysOk (fun _ _ _ => keysOk_newLeaf _) (fun _ _ _ _ hl => hl.addValue _ _) h

/-- Among keys of one size, a key of the other size is not found. -/
theorem Rbt.find_of_keyFits {t : Rbt π} {float : Bool} (ht : ∀ e ∈ t.nodes, keyFits float e.1)
    {key : NumKey} (hk : keyFits (!float) key) : t.find key = none := by
  apply lookup_none_of_forall
  intro e he
  apply CmpKeys.eval_of_size_ne
  have hfit := ht e he
  cases float <;> cases he1 : e.1 <;> cases key <;> simp_all [keyFits, NumKey.size]

/-- The key a query of a numeric type asks for has the size of that type. -/
theorem search_addNumeric_of_type_ne {leaf : AttrLeaf π} {float : Bool} {t : Rbt π}
    (hr : leaf.rbt = some t) (ht : ∀ e ∈ t.nodes, keyFits float e.1) {keys : List NumKey}
    (hk : ∀ k ∈ keys, keyFits float k) (pair : π) {value : QueryValue}
    (hv : value.type ≠ numericType float) :
    (leaf.addNumeric keys pair).search value = leaf.search value := by
  have hpush := keyFits_pushValues ht hk pair
  have hfind : ∀ key, keyFits (!float) key → (t.pushValues keys pair).find key = t.find key := by
    intro key hkey
    rw [Rbt.find_of_keyFits hpush hkey, Rbt.find_of_keyFits ht hkey]
  cases value with
  | unknown => simp [AttrLeaf.search, AttrLeaf.addNumeric, hr]
  | string s => simp [AttrLeaf.search, AttrLeaf.addNumeric, hr]
  | integer v =>
    cases float with
    | false => exact absurd rfl hv
    | true => simp [AttrLeaf.search, AttrLeaf.addNumeric, hr, hfind (.int v) rfl]
  | float v =>
    cases float with
    | true => exact absurd rfl hv
    | false => simp [AttrLeaf.search, AttrLeaf.addNumeric, hr, hfind (.double v) rfl]

/-- Storing in a tree of the attribute's own type leaves the other types' searches alone. -/
theorem StoresAs.search_addValue {leaf : AttrLeaf π} (ok : KeysOk leaf) {value : AttrValue}
    (hs : StoresAs leaf value) (pair : π) {query : QueryValue} (hq : query.type ≠ value.type) :
    (leaf.addValue pair value).search query = leaf.search query := by
  obtain ⟨float, t, htype, hfloat, hr, hcmp⟩ := hs
  have ht : ∀ e ∈ t.nodes, keyFits float e.1 := by
    cases float with
    | false => exact (ok.ints t hr hcmp).2
    | true => exact (ok.doubles t hr hfloat).2
  have hnum : ∀ attrVal n,
      (leaf.addNumeric (leaf.numericKeys attrVal n) pair).search query = leaf.search query :=
    fun attrVal n => search_addNumeric_of_type_ne hr ht
      (hfloat ▸ keyFits_numericKeys leaf attrVal n) pair (htype ▸ hq)
  cases value with
  | unknown n => rfl
  | string vals => cases float <;> cases htype
  | integer vals beyond => exact hnum _ _
  | float vals => exact hnum _ _

theorem AttrLeaf.addNumeric_nil (leaf : AttrLeaf π) (pair : π) : leaf.addNumeric [] pair = leaf := by
  cases leaf with
  | mk isNumeric isFloat rbt art => cases rbt <;> rfl

/-- Strings go to the other tree. -/
theorem search_addStrings_of_type_ne (leaf : AttrLeaf π) (vals : List StringRef) (pair : π)
    {query : QueryValue} (hq : query.type ≠ .string) :
    (leaf.addStrings vals pair).search query = leaf.search query := by
  cases query with
  | string s => exact absurd rfl hq
  | unknown => rfl
  | integer v => rfl
  | float v => rfl

/-- One attribute, in the leaf of its name. -/
theorem search_addValue_of_type_ne {leaf : AttrLeaf π} (ok : KeysOk leaf) {value : AttrValue}
    (hkeep : KeepsTypes (some leaf) value) (pair : π) {query : QueryValue}
    (hq : query.type ≠ value.type) : (leaf.addValue pair value).search query = leaf.search query := by
  rcases hkeep leaf rfl with hstring | hunknown | hzero | hs
  · cases value with
    | string vals => exact search_addStrings_of_type_ne leaf vals pair hq
    | unknown n => cases hstring
    | integer vals beyond => cases hstring
    | float vals => cases hstring
  · cases value with
    | unknown n => rfl
    | string vals => cases hunknown
    | integer vals beyond => cases hunknown
    | float vals => cases hunknown
  · cases value with
    | unknown n => rfl
    | integer vals beyond =>
      obtain rfl : vals = [] := List.eq_nil_of_length_eq_zero hzero
      exact congrArg (AttrLeaf.search · query) (leaf.addNumeric_nil pair)
    | float vals =>
      obtain rfl : vals = [] := List.eq_nil_of_length_eq_zero hzero
      exact congrArg (AttrLeaf.search · query) (leaf.addNumeric_nil pair)
    | string vals => exact search_addStrings_of_type_ne leaf vals pair hq
  · exact hs.search_addValue ok pair hq

/-- A name that had no leaf gets one in which the other types still find nothing. -/
theorem join_search_linkValue_none (pair : π) {value : AttrValue} {query : QueryValue}
    (hq : query.type ≠ value.type) :
    ((linkValue pair value none).bind fun leaf => (leaf.search query).join) = none := by
  have hkeep : KeepsTypes (some (newLeaf value.type : AttrLeaf π × Bool).1) value := by
    intro leaf hl
    cases hl
    cases hv : value.type with
    | string => exact Or.inl rfl
    | unknown => exact Or.inr (Or.inl rfl)
    | integer => exact Or.inr (Or.inr (Or.inr ⟨false, _, hv, rfl, rfl, rfl⟩))
    | float => exact Or.inr (Or.inr (Or.inr ⟨true, _, hv, rfl, rfl, rfl⟩))
  have hfind : ∀ (cmp : CmpKeys) key, (Rbt.create cmp : Rbt π).find key = none := by
    intro cmp key
    apply lookup_none_of_forall
    simp [Rbt.create]
  have hnew : ∀ type, ((newLeaf type : AttrLeaf π × Bool).1.search query).join = none := by
    intro type
    cases type <;> cases query <;> simp [newLeaf, AttrLeaf.search, hfind]
  simp only [linkValue]
  split_ifs
  · rw [Option.bind_some, search_addValue_of_type_ne (keysOk_newLeaf _) hkeep pair hq, hnew]
  · rfl

/-- The answers of another name, or of another type as long as the leaf keeps types
apart, are the same before and after an attribute is indexed. -/
theorem PathIndex.search_step {as : List Attribute} {a : Attribute} {n : CString}
    {query : QueryValue} (h : n ≠ a.attrName ∨
      query.type ≠ a.attributeValue.type ∧ KeepsTypes (pathIndexAll as a.attrName) a.attributeValue) :
    (((pathIndexAll as).step a).search n query).join = ((pathIndexAll as).search n query).join := by
  by_cases hn : n = a.attrName
  · subst hn
    obtain ⟨hq, hkeep⟩ := h.resolve_left fun hne => hne rfl
    simp only [PathIndex.search, PathIndex.step, Function.update_self]
    cases hl : pathIndexAll as a.attrName with
    | none =>
      have hnone := join_search_linkValue_none (Attribute.entry a) hq
      cases hlink : linkValue (Attribute.entry a) a.attributeValue none with
      | none => rfl
      | some leaf =>
        rw [hlink] at hnone
        exact hnone
    | some leaf =>
      rw [hl] at hkeep
      simp only [linkValue]
      rw [search_addValue_of_type_ne (keysOk_pathIndexAll hl) hkeep _ hq]
  · simp only [PathIndex.search, PathIndex.step, Function.update_of_ne hn]

omit [Descent NumKey] in
theorem keepsTypes_leafOf {p : Nat} {idx : IndexAnchor} {I : PathIndex} (hr : Represents p idx I)
    {n : CString} {value : AttrValue} : KeepsTypes (idx.leafOf n) value ↔ KeepsTypes (I n) value := by
  have hmap : ∀ {ρ σ : Type} (f : ρ → σ) (o : Option (AttrLeaf ρ)),
      KeepsTypes (o.map (AttrLeaf.map f)) value ↔ KeepsTypes o value := by
    intro ρ σ f o
    cases o with
    | none => simp [KeepsTypes]
    | some leaf =>
      simp only [KeepsTypes, StoresAs, Option.map_some, Option.some.injEq, forall_eq', AttrLeaf.map,
        Option.map_eq_some_iff]
      constructor
      · rintro (h | h | h | ⟨float, _, ht, hf, ⟨t, hr, rfl⟩, hc⟩)
        · exact Or.inl h
        · exact Or.inr (Or.inl h)
        · exact Or.inr (Or.inr (Or.inl h))
        · exact Or.inr (Or.inr (Or.inr ⟨float, t, ht, hf, hr, hc⟩))
      · rintro (h | h | h | ⟨float, t, ht, hf, hr, hc⟩)
        · exact Or.inl h
        · exact Or.inr (Or.inl h)
        · exact Or.inr (Or.inr (Or.inl h))
        · exact Or.inr (Or.inr (Or.inr ⟨float, _, ht, hf, ⟨t, hr, rfl⟩, hc⟩))
  rw [← hmap (collectResultFromList idx), hr.resolve, hmap]

/-- In every reachable state, indexing an attribute leaves the answers of other names
unchanged, and those of the other types of its name as well, provided that the leaf of
the name stores the attribute as what it is. -/
theorem indexing_isolates {p : Nat} (hp : 0 < p) (as : List Attribute) (a : Attribute) :
    ∃ st st', indexAll p as = some st ∧ createInMemIndexForAttr st a.toMeta = some st' ∧
      ∀ n query, (n ≠ a.attrName ∨
          query.type ≠ a.attributeValue.type ∧ KeepsTypes (st.leafOf a.attrName) a.attributeValue) →
        exactMetadataSearch st' n query = exactMetadataSearch st n query := by
  obtain ⟨st, hst, hr⟩ := indexAll_represents hp as
  obtain ⟨st', hst', hr', -⟩ := hr.step hp a
  refine ⟨st, st', hst, hst', ?_⟩
  intro n query h
  rw [keepsTypes_leafOf hr] at h
  rw [exactMetadataSearch_eq (hr'.resolves hp), exactMetadataSearch_eq (hr.resolves hp)]
  exact PathIndex.search_step h

omit [Descent NumKey] in
/-- A string is indexed under a name that has an int. -/
theorem indexing_isolates_string :
    0 < 2 ∧ ∃ st st', @indexAll .oldest 2 [sampleAttribute] = some st ∧
      @createInMemIndexForAttr .oldest st sampleString.toMeta = some st' ∧
      KeepsTypes (st.leafOf sampleString.attrName) sampleString.attributeValue ∧
      @exactMetadataSearch .oldest st' sampleString.attrName (.integer 7) =
        @exactMetadataSearch .oldest st sampleString.attrName (.integer 7) := by
  obtain ⟨st, st', hst, hst', h⟩ :=
    @indexing_isolates .oldest 2 (by decide) [sampleAttribute] sampleString
  have hkeep : KeepsTypes (st.leafOf sampleString.attrName) sampleString.attributeValue :=
    fun _ _ => Or.inl rfl
  exact ⟨by decide, st, st', hst, hst', hkeep, h _ _ (Or.inr ⟨by decide, hkeep⟩)⟩

def sampleFloat : Attribute :=
  ⟨.ofBytes [110], .float [0x3ff0000000000007], .ofBytes [102], .ofBytes [111]⟩

omit [Descent NumKey] in
/-- After a double is indexed under a name that has an int, the search for the int also
answers with the double. -/
theorem indexing_float_alters_integer :
    (QueryValue.integer 7).type ≠ sampleFloat.attributeValue.type ∧
      ((@indexAll .oldest 1 [sampleAttribute, sampleFloat]).bind fun st =>
        @exactMetadataSearch .oldest st sampleFloat.attrName (.integer 7)) ≠
      (@indexAll .oldest 1 [sampleAttribute]).bind fun st =>
        @exactMetadataSearch .oldest st sampleFloat.attrName (.integer 7) := by
  decide +kernel

end Miqs.Index
