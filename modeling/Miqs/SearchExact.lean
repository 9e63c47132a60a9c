import Miqs.KeyOrder
import Miqs.Refinement

/-! What a search answers under a name that is used with one type only. -/
namespace Miqs.Index
open Miqs.CData Miqs.KeyedTree
variable {π : Type}

def UsedOnlyWith (as : List Attribute) (n : CString) (type : AttrType) : Prop :=
  ∀ a ∈ as, a.attrName = n → a.attributeValue.type = type

def occurrences {α : Type} (values : AttrValue → List α) (as : List Attribute) (n : CString) :
    List (α × SearchRstEntry) :=
  (as.filter fun a => a.attrName = n).flatMap fun a =>
    (values a.attributeValue).map fun v => (v, Attribute.entry a)

theorem occurrences_map {α β : Type} {f : α → β} {values : AttrValue → List α}
    {values' : AttrValue → List β} {as : List Attribute} {n : CString}
    (h : ∀ a ∈ as, a.attrName = n → values' a.attributeValue = (values a.attributeValue).map f) :
    occurrences values' as n = (occurrences values as n).map fun x => (f x.1, x.2) := by
  simp only [occurrences, List.map_flatMap, List.map_map]
  apply List.flatMap_congr
  intro a ha
  simp only [List.mem_filter, decide_eq_true_eq] at ha
  rw [h a ha.1 ha.2, List.map_map]
  rfl

theorem exists_of_mem_occurrences {α : Type} {values : AttrValue → List α} {as : List Attribute}
    {n : CString} {x : α × SearchRstEntry} (h : x ∈ occurrences values as n) :
    ∃ a ∈ as, a.attrName = n := by
  obtain ⟨a, ha, _⟩ := List.mem_flatMap.mp h
  simp only [List.mem_filter, decide_eq_true_eq] at ha
  exact ⟨a, ha⟩

variable [Descent NumKey]

def numericLeaf (float : Bool) (kvs : List (NumKey × π)) : AttrLeaf π :=
  ⟨true, float, some ⟨numericCmp float, pushAll (numericCmp float).eval [] kvs⟩, none⟩

omit [Descent NumKey] in
theorem numericKeys_ints {leaf : AttrLeaf π} (h : leaf.isFloat = false) (vals : List CInt)
    (beyond : Nat → CInt) :
    leaf.numericKeys (.ints vals beyond) vals.length = vals.map .int := by
  apply List.ext_getElem
  · simp [AttrLeaf.numericKeys]
  · intro i h₁ h₂
    have hi : i < vals.length := by simpa using h₂
    simp [AttrLeaf.numericKeys, AttrLeaf.numericKey, h, NumericArray.intAt, hi]

omit [Descent NumKey] in
theorem numericKeys_doubles {leaf : AttrLeaf π} (h : leaf.isFloat = true) (vals : List CDouble) :
    leaf.numericKeys (.doubles vals) vals.length = vals.map .double := by
  apply List.ext_getElem
  · simp [AttrLeaf.numericKeys]
  · intro i h₁ h₂
    have hi : i < vals.length := by simpa using h₂
    simp [AttrLeaf.numericKeys, AttrLeaf.numericKey, h, NumericArray.doubleAt, hi]

theorem numericLeaf_addValue {float : Bool} (kvs : List (NumKey × π)) (pair : π) {value : AttrValue}
    (h : value.type = numericType float) :
    (numericLeaf float kvs).addValue pair value =
      numericLeaf float (kvs ++ value.numKeys.map fun k => (k, pair)) := by
  have hn : ∀ keys, (numericLeaf float kvs).addNumeric keys pair =
      numericLeaf float (kvs ++ keys.map fun k => (k, pair)) := by
    intro keys
    simp [AttrLeaf.addNumeric, numericLeaf, Rbt.pushValues, pushAll]
  cases value with
  | unknown n => cases float <;> cases h
  | string vals => cases float <;> cases h
  | integer vals beyond =>
    cases float with
    | true => cases h
    | false => rw [AttrLeaf.addValue, hn, numericKeys_ints rfl, AttrValue.numKeys]
  | float vals =>
    cases float with
    | false => cases h
    | true => rw [AttrLeaf.addValue, hn, numericKeys_doubles rfl, AttrValue.numKeys]

theorem linkValue_numericLeaf_nil {float : Bool} (pair : π) {value : AttrValue}
    (h : value.type = numericType float) :
    linkValue pair value none = linkValue pair value (some (numericLeaf float [])) := by
  cases float <;> simp [linkValue, h, numericType, newLeaf, numericLeaf, pushAll, Rbt.create, numericCmp]

/-- The leaf of a name that is used with one numeric type. -/
theorem pathIndexAll_numeric {as : List Attribute} {n : CString} {float : Bool}
    (h : UsedOnlyWith as n (numericType float)) (hn : ∃ a ∈ as, a.attrName = n) :
    pathIndexAll as n = some (numericLeaf float (occurrences AttrValue.numKeys as n)) := by
  have hfold : ∀ (bs : List Attribute) (kvs : List (NumKey × SearchRstEntry)),
      (∀ a ∈ bs, a.attributeValue.type = numericType float) →
      bs.foldl (fun o a => linkValue (Attribute.entry a) a.attributeValue o)
        (some (numericLeaf float kvs)) =
      some (numericLeaf float (kvs ++ bs.flatMap fun a =>
        a.attributeValue.numKeys.map fun k => (k, Attribute.entry a))) := by
    intro bs
    induction bs with
    | nil => intro kvs _; simp
    | cons a bs ih =>
      intro kvs hbs
      have ha := numericLeaf_addValue kvs (Attribute.entry a) (hbs a (by simp))
      rw [List.foldl_cons, linkValue_some, ha,
        ih _ fun b hb => hbs b (List.mem_cons_of_mem a hb), List.flatMap_cons, List.append_assoc]
  have htype : ∀ a ∈ as.filter fun a => a.attrName = n,
      a.attributeValue.type = numericType float := by
    intro a ha
    simp only [List.mem_filter, decide_eq_true_eq] at ha
    exact h a ha.1 ha.2
  have hne : as.filter (fun a => a.attrName = n) ≠ [] := by
    obtain ⟨a, ha, han⟩ := hn
    exact List.ne_nil_of_mem (List.mem_filter.mpr ⟨ha, by simpa using han⟩)
  rw [pathIndexAll_apply, occurrences]
  cases hf : as.filter fun a => a.attrName = n with
  | nil => exact absurd hf hne
  | cons a bs =>
    rw [hf] at htype
    have hall := hfold (a :: bs) [] htype
    simp only [List.foldl_cons, List.nil_append] at hall ⊢
    rw [← hall, linkValue_numericLeaf_nil _ (htype a (by simp))]

def QueryValue.numKey : QueryValue → Option NumKey
  | .integer v => some (.int v)
  | .float v => some (.double v)
  | _ => none

/-- A search under a numeric name is a lookup in the tree of its occurrences. -/
theorem exactMetadataSearch_numeric {p : Nat} (hp : 0 < p) (float : Bool) {as : List Attribute}
    {n : CString} (h : UsedOnlyWith as n (numericType float)) (hn : ∃ a ∈ as, a.attrName = n)
    {value : QueryValue} {key : NumKey} (hkey : value.numKey = some key) :
    ∃ st, indexAll p as = some st ∧ exactMetadataSearch st n value =
      lookup (numericCmp float).eval
        (pushAll (numericCmp float).eval [] (occurrences AttrValue.numKeys as n)) key := by
  obtain ⟨st, hst, hr⟩ := indexAll_represents hp as
  refine ⟨st, hst, ?_⟩
  rw [exactMetadataSearch_eq (hr.resolves hp), PathIndex.search, pathIndexAll_numeric h hn]
  cases value <;> cases hkey <;> rfl

omit [Descent NumKey] in
theorem consistent_int {S : NumKey → Prop} (hS : ∀ k, S k → ∃ v, k = .int v) :
    Consistent libhlCmpKeysInt S Eq where
  equiv := eq_equivalence
  zero_iff := by
    intro a b ha hb
    obtain ⟨v, rfl⟩ := hS a ha
    obtain ⟨w, rfl⟩ := hS b hb
    simpa using libhlCmpKeysInt_int v w

theorem finds_ints {vs : List CInt} (h : IntsFit vs) :
    Finds libhlCmpKeysInt fun k => ∃ v ∈ vs, k = .int v := by
  obtain ⟨b, hb⟩ := h
  refine (finds_of_ordered (strictOn_window b).toOrderedOn).mono ?_
  rintro _ ⟨v, hv, rfl⟩
  exact ⟨v, rfl, hb v hv⟩

omit [Descent NumKey] in
theorem occurrences_ints {as : List Attribute} {n : CString} (hn : UsedOnlyWith as n .integer) :
    occurrences AttrValue.numKeys as n =
      (occurrences AttrValue.ints as n).map fun x => (.int x.1, x.2) := by
  apply occurrences_map
  intro a ha han
  have ht := hn a ha han
  cases hval : a.attributeValue <;> simp [hval, AttrValue.type] at ht
  rfl

/-- The tree of some ints finds each with the values pushed under it, in order. -/
theorem lookup_pushAll_int {kvs : List (CInt × SearchRstEntry)}
    (hf : Finds libhlCmpKeysInt fun k => ∃ v ∈ kvs.map Prod.fst, k = .int v) (v : CInt) :
    lookup libhlCmpKeysInt (pushAll libhlCmpKeysInt [] (kvs.map fun x => (NumKey.int x.1, x.2))) (.int v) =
      if (kvs.filter fun x => x.1 = v).map Prod.snd = [] then none
      else some ((kvs.filter fun x => x.1 = v).map Prod.snd) := by
  have hkeys : ∀ y ∈ kvs.map fun x => (NumKey.int x.1, x.2), ∃ v ∈ kvs.map Prod.fst, y.1 = .int v := by
    intro y hy
    obtain ⟨z, hz, rfl⟩ := List.mem_map.mp hy
    exact ⟨z.1, List.mem_map_of_mem hz, rfl⟩
  by_cases hv : v ∈ kvs.map Prod.fst
  · have hlook := lookup_pushAll hf (consistent_int (by rintro _ ⟨w, -, rfl⟩; exact ⟨w, rfl⟩))
      (kvs.map fun x => (NumKey.int x.1, x.2)) hkeys (k := .int v) ⟨v, hv, rfl⟩
    have hvalues : valuesOf Eq (kvs.map fun x => (NumKey.int x.1, x.2)) (.int v) =
        (kvs.filter fun x => x.1 = v).map Prod.snd := by
      simp [valuesOf, List.filter_map, Function.comp_def]
    rwa [hvalues] at hlook
  · have hnil : kvs.filter (fun x => x.1 = v) = [] := by
      rw [List.filter_eq_nil_iff]
      intro x hx hxv
      exact hv (List.mem_map.mpr ⟨x, hx, of_decide_eq_true hxv⟩)
    rw [hnil, List.map_nil, if_pos rfl]
    apply lookup_none_of_forall
    intro e he hzero
    obtain ⟨y, hy, hye⟩ := exists_key_of_mem_pushAll he
    obtain ⟨w, hw, hyw⟩ := hkeys y hy
    rw [← hye, hyw, libhlCmpKeysInt_int] at hzero
    exact hv (hzero ▸ hw)

/-- Where the tree misses no int of a name, a search answers with the occurrences of the int; without
one it reads a NULL node. -/
theorem exactMetadataSearch_int {p : Nat} (hp : 0 < p) {as : List Attribute} {n : CString}
    (hn : UsedOnlyWith as n .integer) (hsome : ∃ a ∈ as, a.attrName = n)
    (hf : Finds libhlCmpKeysInt fun k => ∃ v ∈ (occurrences AttrValue.ints as n).map Prod.fst, k = .int v)
    (v : CInt) : ∃ st, indexAll p as = some st ∧ exactMetadataSearch st n (.integer v) =
      if ((occurrences AttrValue.ints as n).filter fun x => x.1 = v).map Prod.snd = [] then none
      else some (((occurrences AttrValue.ints as n).filter fun x => x.1 = v).map Prod.snd) := by
  obtain ⟨st, hst, hs⟩ := exactMetadataSearch_numeric hp false hn hsome
    (show (QueryValue.integer v).numKey = some (.int v) from rfl)
  refine ⟨st, hst, ?_⟩
  rw [hs, occurrences_ints hn]
  exact lookup_pushAll_int hf v

omit [Descent NumKey] in
theorem ne_nil_of_occurs {α β : Type} [DecidableEq α] {kvs : List (α × β)} {v : α}
    (hv : v ∈ kvs.map Prod.fst) : (kvs.filter fun x => x.1 = v).map Prod.snd ≠ [] := by
  obtain ⟨x, hx, hxv⟩ := List.mem_map.mp hv
  exact List.ne_nil_of_mem (List.mem_map_of_mem (List.mem_filter.mpr ⟨hx, by simpa using hxv⟩))

/-- A search for an int under a name used with ints only answers with the paths
of its occurrences, in indexing order, where the value trees are finite maps. -/
theorem integer_search_exact [FiniteMap NumKey] {p : Nat} (hp : 0 < p) (as : List Attribute) (n : CString)
    (hn : UsedOnlyWith as n .integer) (v : CInt)
    (hv : v ∈ (occurrences AttrValue.ints as n).map Prod.fst) :
    ∃ st, indexAll p as = some st ∧ exactMetadataSearch st n (.integer v) =
      some (((occurrences AttrValue.ints as n).filter fun x => x.1 = v).map Prod.snd) := by
  obtain ⟨x, hx, -⟩ := List.mem_map.mp hv
  obtain ⟨st, hst, hs⟩ := exactMetadataSearch_int hp hn (exists_of_mem_occurrences hx)
    ((FiniteMap.finds _).mono fun _ _ => trivial) v
  exact ⟨st, hst, by rw [hs, if_neg (ne_nil_of_occurs hv)]⟩

omit [Descent NumKey] in
theorem integer_search_exact_sample :
    0 < 2 ∧ UsedOnlyWith [sampleAttribute, sampleAttribute] sampleAttribute.attrName .integer ∧
      ∃ st, @indexAll .oldest 2 [sampleAttribute, sampleAttribute] = some st ∧
        @exactMetadataSearch .oldest st sampleAttribute.attrName (.integer 7) =
          some [Attribute.entry sampleAttribute, Attribute.entry sampleAttribute] := by
  have hn : UsedOnlyWith [sampleAttribute, sampleAttribute] sampleAttribute.attrName .integer := by
    intro a ha _
    simp only [List.mem_cons, List.not_mem_nil, or_false, or_self] at ha
    rw [ha]
    rfl
  exact ⟨by decide, hn, @integer_search_exact .oldest finiteMap_oldest 2 (by decide) _ _ hn 7 (by decide)⟩

/-- The leaf of a string name is never linked into the name tree. -/
theorem pathIndexAll_string {as : List Attribute} {n : CString} (h : UsedOnlyWith as n .string) :
    pathIndexAll as n = none := by
  have hfold : ∀ bs : List Attribute, (∀ a ∈ bs, a.attributeValue.type = .string) →
      bs.foldl (fun o a => linkValue (Attribute.entry a) a.attributeValue o) none = none := by
    intro bs
    induction bs with
    | nil => intro _; rfl
    | cons a bs ih =>
      intro hbs
      have ha : linkValue (Attribute.entry a) a.attributeValue none = none := by
        simp [linkValue, hbs a (by simp), newLeaf]
      rw [List.foldl_cons, ha]
      exact ih fun b hb => hbs b (List.mem_cons_of_mem a hb)
  rw [pathIndexAll_apply]
  apply hfold
  intro a ha
  simp only [List.mem_filter, decide_eq_true_eq] at ha
  exact h a ha.1 ha.2

/-- Under a name used with strings only, every search misses, so that the answer
is never the occurrences of an indexed string. -/
theorem string_search_never_exact {p : Nat} (hp : 0 < p) (as : List Attribute) (n : CString)
    (hn : UsedOnlyWith as n .string) (s : CString) :
    ∃ st, indexAll p as = some st ∧ attributeValueSearch st n (.string s) = some none ∧
      exactMetadataSearch st n (.string s) ≠
        some (((occurrences AttrValue.texts as n).filter fun x => x.1 = s).map Prod.snd) := by
  obtain ⟨st, hst, hr⟩ := indexAll_represents hp as
  have hmiss : attributeValueSearch st n (.string s) = some none := by
    have hv := attributeValueSearch_eq (hr.resolves hp) n (.string s)
    rw [PathIndex.search, pathIndexAll_string hn] at hv
    cases ha : attributeValueSearch st n (.string s) with
    | none => simp [ha] at hv
    | some node => cases node <;> simp_all
  refine ⟨st, hst, hmiss, ?_⟩
  simp [exactMetadataSearch, hmiss]

def sampleString : Attribute :=
  ⟨.ofBytes [110], .string [⟨4096, .ofBytes [115]⟩], .ofBytes [102], .ofBytes [111]⟩

omit [Descent NumKey] in
theorem string_search_never_exact_sample :
    0 < 1 ∧ UsedOnlyWith [sampleString] sampleString.attrName .string ∧
      ∃ st, @indexAll .oldest 1 [sampleString] = some st ∧
        @attributeValueSearch .oldest st sampleString.attrName (.string (.ofBytes [115])) =
          some none := by
  have hn : UsedOnlyWith [sampleString] sampleString.attrName .string := by
    intro a ha _
    simp only [List.mem_singleton] at ha
    rw [ha]
    rfl
  obtain ⟨st, hst, hm, -⟩ :=
    @string_search_never_exact .oldest 1 (by decide) _ _ hn (.ofBytes [115])
  exact ⟨by decide, hn, st, hst, hm⟩

omit [Descent NumKey] in
/-- An indexed string is not found. -/
theorem string_search_misses :
    (@indexAll .oldest 1 [sampleString]).bind (fun st =>
      @exactMetadataSearch .oldest st sampleString.attrName (.string (.ofBytes [115]))) ≠
        some (((occurrences AttrValue.texts [sampleString] sampleString.attrName).filter
          fun x => x.1 = .ofBytes [115]).map Prod.snd) := by
  decide +kernel

def sameDouble (k k' : NumKey) : Prop := CDouble.toRat k.asDouble = CDouble.toRat k'.asDouble

instance : DecidableRel sameDouble := fun _ _ => inferInstanceAs (Decidable (_ = _))

omit [Descent NumKey] in
theorem sameDouble_equivalence : Equivalence sameDouble :=
  ⟨fun _ => rfl, fun h => h.symm, fun h h' => h.trans h'⟩

def WellSpaced (values : List CDouble) : Prop :=
  ∀ v ∈ values, CDouble.isFinite v ∧
    ∀ w ∈ values, CDouble.toRat v = CDouble.toRat w ∨ 1 ≤ |CDouble.toRat v - CDouble.toRat w|

instance (values : List CDouble) : Decidable (WellSpaced values) :=
  decidable_of_iff (values.all fun v => CDouble.isFinite v && values.all fun w =>
    decide (CDouble.toRat v = CDouble.toRat w ∨ 1 ≤ |CDouble.toRat v - CDouble.toRat w|))
    (by simp [WellSpaced])

omit [Descent NumKey] in
theorem consistent_double {values : List CDouble} (h : WellSpaced values) :
    Consistent libhlCmpKeysDouble (fun k => ∃ v ∈ values, k = .double v) sameDouble where
  equiv := sameDouble_equivalence
  zero_iff := by
    rintro _ _ ⟨v, hv, rfl⟩ ⟨w, hw, rfl⟩
    rw [libhlCmpKeysDouble_double, doubleDiff_eq_zero]
    constructor
    · rintro ⟨_, _, hlt⟩
      cases (h v hv).2 w hw with
      | inl heq => exact heq
      | inr hge => exact absurd hlt (not_lt.mpr hge)
    · intro heq
      have heq' : CDouble.toRat v = CDouble.toRat w := heq
      exact ⟨(h v hv).1, (h w hw).1, by simp [heq']⟩

theorem finds_doubles {values : List CDouble} (hfin : ∀ v ∈ values, CDouble.isFinite v)
    (hfit : DoublesFit values) : Finds libhlCmpKeysDouble fun k => ∃ v ∈ values, k = .double v :=
  finds_of_ordered (orderedOn_doubles hfin hfit)

section Float
variable {as : List Attribute} {n : CString}

omit [Descent NumKey] in
theorem occurrences_doubles (hn : UsedOnlyWith as n .float) :
    occurrences AttrValue.numKeys as n =
      (occurrences AttrValue.doubles as n).map fun x => (.double x.1, x.2) := by
  apply occurrences_map
  intro a ha han
  have ht := hn a ha han
  cases hval : a.attributeValue <;> simp [hval, AttrValue.type] at ht
  rfl

omit [Descent NumKey] in
theorem valuesOf_sameDouble (hn : UsedOnlyWith as n .float) (v : CDouble) :
    valuesOf sameDouble (occurrences AttrValue.numKeys as n) (.double v) =
      ((occurrences AttrValue.doubles as n).filter
        fun x => CDouble.toRat x.1 = CDouble.toRat v).map Prod.snd := by
  rw [occurrences_doubles hn]
  simp only [valuesOf, List.filter_map, List.map_map, sameDouble, NumKey.asDouble]
  rfl

omit [Descent NumKey] in
theorem mem_doubles_of_mem_numKeys (hn : UsedOnlyWith as n .float) {x : NumKey × SearchRstEntry}
    (hx : x ∈ occurrences AttrValue.numKeys as n) :
    ∃ v ∈ (occurrences AttrValue.doubles as n).map Prod.fst, x.1 = .double v := by
  rw [occurrences_doubles hn] at hx
  obtain ⟨y, hy, rfl⟩ := List.mem_map.mp hx
  exact ⟨y.1, List.mem_map_of_mem hy, rfl⟩

omit [Descent NumKey] in
theorem mem_numKeys_of_mem_doubles (hn : UsedOnlyWith as n .float) {v : CDouble}
    (hv : v ∈ (occurrences AttrValue.doubles as n).map Prod.fst) :
    ∃ x ∈ occurrences AttrValue.numKeys as n, x.1 = .double v := by
  obtain ⟨y, hy, rfl⟩ := List.mem_map.mp hv
  rw [occurrences_doubles hn]
  exact ⟨_, List.mem_map_of_mem hy, rfl⟩

/-- Only a finite number can be found at all. -/
theorem isFinite_of_lookup (hn : UsedOnlyWith as n .float) {v : CDouble} {l : List SearchRstEntry}
    (h : lookup libhlCmpKeysDouble
      (pushAll libhlCmpKeysDouble [] (occurrences AttrValue.numKeys as n)) (.double v) = some l) :
    CDouble.isFinite v := by
  obtain ⟨k, hk, hz⟩ := lookup_some h
  obtain ⟨x, hx, rfl⟩ := exists_key_of_mem_pushAll hk
  obtain ⟨w, -, hw⟩ := mem_doubles_of_mem_numKeys hn hx
  rw [hw, libhlCmpKeysDouble_double, doubleDiff_eq_zero] at hz
  exact hz.2.1

omit [Descent NumKey] in
/-- Two of the numbers compare equal if they are less than 1 apart. -/
theorem level_numKeys_iff (hn : UsedOnlyWith as n .float)
    (hfin : ∀ v ∈ (occurrences AttrValue.doubles as n).map Prod.fst, CDouble.isFinite v)
    {x y : NumKey × SearchRstEntry} (hx : x ∈ occurrences AttrValue.numKeys as n)
    (hy : y ∈ occurrences AttrValue.numKeys as n) : libhlCmpKeysDouble x.1 y.1 = 0 ↔
      |CDouble.toRat x.1.asDouble - CDouble.toRat y.1.asDouble| < 1 := by
  obtain ⟨v, hv, hxv⟩ := mem_doubles_of_mem_numKeys hn hx
  obtain ⟨w, hw, hyw⟩ := mem_doubles_of_mem_numKeys hn hy
  rw [hxv, hyw, libhlCmpKeysDouble_double, doubleDiff_eq_zero]
  simp [NumKey.asDouble, hfin v hv, hfin w hw]

/-- If every number is found, with as many pairs as it has occurrences, then the
numbers are well spaced. -/
theorem wellSpaced_of_lookup (hn : UsedOnlyWith as n .float)
    (hfit : DoublesFit ((occurrences AttrValue.doubles as n).map Prod.fst))
    (h : ∀ v ∈ (occurrences AttrValue.doubles as n).map Prod.fst,
      ∃ l, lookup libhlCmpKeysDouble
          (pushAll libhlCmpKeysDouble [] (occurrences AttrValue.numKeys as n)) (.double v) = some l ∧
        l.length = (valuesOf sameDouble (occurrences AttrValue.numKeys as n) (.double v)).length) :
    WellSpaced ((occurrences AttrValue.doubles as n).map Prod.fst) := by
  have hfin : ∀ v ∈ (occurrences AttrValue.doubles as n).map Prod.fst, CDouble.isFinite v := by
    intro v hv
    obtain ⟨l, hl, -⟩ := h v hv
    exact isFinite_of_lookup hn hl
  have hfinds := (finds_doubles hfin hfit).mono (T := fun k => ∃ x ∈ occurrences AttrValue.numKeys as n, x.1 = k)
    (by
      rintro _ ⟨x, hx, rfl⟩
      exact mem_doubles_of_mem_numKeys hn hx)
  have heq := equiv_of_exact sameDouble_equivalence (occurrences AttrValue.numKeys as n) hfinds
    (by
      intro x hx
      rw [level_numKeys_iff hn hfin hx hx]
      simp)
    (by
      intro x hx y hy hz
      rw [level_numKeys_iff hn hfin hx hy] at hz
      rwa [level_numKeys_iff hn hfin hy hx, abs_sub_comm])
    (by
      intro x hx y hy z hz hR hc
      rw [level_numKeys_iff hn hfin hz hx] at hc
      have hxy : CDouble.toRat x.1.asDouble = CDouble.toRat y.1.asDouble := hR
      rwa [level_numKeys_iff hn hfin hz hy, ← hxy])
    (by
      intro x hx
      obtain ⟨v, hv, hxv⟩ := mem_doubles_of_mem_numKeys hn hx
      rw [hxv]
      exact h v hv)
  intro v hv
  refine ⟨hfin v hv, ?_⟩
  intro w hw
  by_cases hlt : |CDouble.toRat v - CDouble.toRat w| < 1
  · obtain ⟨x, hx, hxv⟩ := mem_numKeys_of_mem_doubles hn hv
    obtain ⟨y, hy, hyw⟩ := mem_numKeys_of_mem_doubles hn hw
    have hR := heq x hx y hy (by rw [level_numKeys_iff hn hfin hx hy, hxv, hyw]; exact hlt)
    rw [hxv, hyw] at hR
    exact Or.inl hR
  · exact Or.inr (not_lt.mp hlt)

def FloatSearchExact (p : Nat) (as : List Attribute) (n : CString) : Prop :=
  ∀ v ∈ (occurrences AttrValue.doubles as n).map Prod.fst,
    ∃ st res, indexAll p as = some st ∧ exactMetadataSearch st n (.float v) = some res ∧
      res.Perm (((occurrences AttrValue.doubles as n).filter
        fun x => CDouble.toRat x.1 = CDouble.toRat v).map Prod.snd)

/-- The searches under a name used with doubles only are exact if the numbers are far enough apart for
the truncated difference and all differences fit an int. As long as they fit, the distance is necessary. -/
theorem float_search_exact {p : Nat} (hp : 0 < p) (as : List Attribute) (n : CString)
    (hn : UsedOnlyWith as n .float) :
    (WellSpaced ((occurrences AttrValue.doubles as n).map Prod.fst) ∧
      DoublesFit ((occurrences AttrValue.doubles as n).map Prod.fst) → FloatSearchExact p as n) ∧
    (FloatSearchExact p as n → DoublesFit ((occurrences AttrValue.doubles as n).map Prod.fst) →
      WellSpaced ((occurrences AttrValue.doubles as n).map Prod.fst)) := by
  have hsearch : ∀ v ∈ (occurrences AttrValue.doubles as n).map Prod.fst,
      ∃ st, indexAll p as = some st ∧ exactMetadataSearch st n (.float v) =
        lookup libhlCmpKeysDouble
          (pushAll libhlCmpKeysDouble [] (occurrences AttrValue.numKeys as n)) (.double v) := by
    intro v hv
    obtain ⟨x, hx, _⟩ := List.mem_map.mp hv
    exact exactMetadataSearch_numeric hp true hn (exists_of_mem_occurrences hx)
      (show (QueryValue.float v).numKey = some (.double v) from rfl)
  constructor
  · rintro ⟨hw, hfit⟩ v hv
    obtain ⟨st, hst, hs⟩ := hsearch v hv
    obtain ⟨x, hx, hxv⟩ := List.mem_map.mp hv
    have hlook := lookup_pushAll (finds_doubles (fun v hv => (hw v hv).1) hfit) (consistent_double hw)
      (occurrences AttrValue.numKeys as n) (by
        intro y hy
        rw [occurrences_doubles hn] at hy
        obtain ⟨z, hz, rfl⟩ := List.mem_map.mp hy
        exact ⟨z.1, List.mem_map_of_mem hz, rfl⟩) (k := .double v) ⟨v, hv, rfl⟩
    rw [valuesOf_sameDouble hn] at hlook
    have hne : ((occurrences AttrValue.doubles as n).filter
        fun x => CDouble.toRat x.1 = CDouble.toRat v).map Prod.snd ≠ [] :=
      List.ne_nil_of_mem (List.mem_map_of_mem (List.mem_filter.mpr ⟨hx, by simp [hxv]⟩))
    rw [if_neg hne] at hlook
    exact ⟨st, _, hst, hs.trans hlook, List.Perm.refl _⟩
  · intro h hfit
    apply wellSpaced_of_lookup hn hfit
    intro v hv
    obtain ⟨st, hst, hs⟩ := hsearch v hv
    obtain ⟨st', res, hst', hres, hperm⟩ := h v hv
    obtain rfl : st = st' := by
      rw [hst] at hst'
      exact Option.some.inj hst'
    refine ⟨res, by rw [← hs, hres], ?_⟩
    rw [valuesOf_sameDouble hn]
    exact hperm.length_eq

end Float

def sampleDoubles (v w : CDouble) : Attribute :=
  ⟨.ofBytes [110], .float [v, w], .ofBytes [102], .ofBytes [111]⟩

omit [Descent NumKey] in
/-- The numbers 0 and 1 are far enough apart. -/
theorem float_search_exact_zero_one :
    0 < 1 ∧ UsedOnlyWith [sampleDoubles 0 0x3ff0000000000000] (.ofBytes [110]) .float ∧
      ∃ st res, @indexAll .oldest 1 [sampleDoubles 0 0x3ff0000000000000] = some st ∧
        @exactMetadataSearch .oldest st (.ofBytes [110]) (.float 0) = some res ∧
        res.Perm [⟨.to (.ofBytes [102]), .to (.ofBytes [111])⟩] := by
  have hn : UsedOnlyWith [sampleDoubles 0 0x3ff0000000000000] (.ofBytes [110]) .float := by
    intro a ha _
    simp only [List.mem_singleton] at ha
    rw [ha]
    rfl
  obtain ⟨hexact, -⟩ := @float_search_exact .oldest 1 (by decide) _ _ hn
  obtain ⟨st, res, hst, hres, hperm⟩ := hexact (by decide +kernel) 0 (by decide +kernel)
  exact ⟨by decide, hn, st, res, hst, hres, hperm.trans (by decide +kernel)⟩

omit [Descent NumKey] in
/-- The numbers 0 and 0.5 share a node: a search for 0 also answers with 0.5. -/
theorem float_search_not_exact :
    ∃ res, ((@indexAll .oldest 1 [sampleDoubles 0 0x3fe0000000000000]).bind fun st =>
        @exactMetadataSearch .oldest st (.ofBytes [110]) (.float 0)) = some res ∧
      ¬ res.Perm (((occurrences AttrValue.doubles [sampleDoubles 0 0x3fe0000000000000]
        (.ofBytes [110])).filter fun x => CDouble.toRat x.1 = CDouble.toRat 0).map Prod.snd) := by
  refine ⟨[⟨.to (.ofBytes [102]), .to (.ofBytes [111])⟩, ⟨.to (.ofBytes [102]), .to (.ofBytes [111])⟩],
    ?_, ?_⟩
  · decide +kernel
  · decide +kernel

end Miqs.Index
