import Miqs.Querying

/-! The index with paths in place of positions. Leaves are generic in what a pair
is; the path index has one leaf per attribute name, holding the file and object
path of every indexed value, and knows neither partitions nor path tables. -/
namespace Miqs.Index
open Miqs.CData Miqs.KeyedTree
variable {π ρ : Type} [Descent NumKey]

def Rbt.map (f : π → ρ) (t : Rbt π) : Rbt ρ := ⟨t.cmpKeysCb, mapValues (List.map f) t.nodes⟩

def AttrLeaf.map (f : π → ρ) (leaf : AttrLeaf π) : AttrLeaf ρ where
  isNumeric := leaf.isNumeric
  isFloat := leaf.isFloat
  rbt := leaf.rbt.map (Rbt.map f)
  art := leaf.art.map (AssocMap.mapValues (List.map f))

theorem Rbt.find_map (f : π → ρ) (t : Rbt π) (key : NumKey) :
    (t.map f).find key = (t.find key).map (List.map f) :=
  lookup_mapValues _ _ _

theorem AttrLeaf.search_map (f : π → ρ) (leaf : AttrLeaf π) (value : QueryValue) :
    (leaf.map f).search value = (leaf.search value).map (Option.map (List.map f)) := by
  unfold AttrLeaf.search AttrLeaf.map
  cases leaf.rbt with
  | none => rfl
  | some t =>
    cases value with
    | unknown => rfl
    | integer v => simp [Rbt.find_map]
    | float v => simp [Rbt.find_map]
    | string s =>
      cases leaf.art with
      | none => rfl
      | some art => simp [AssocMap.search_mapValues]

def Rbt.pushValues (t : Rbt π) (keys : List NumKey) (pair : π) : Rbt π :=
  { t with nodes := pushAll t.cmpKeysCb.eval t.nodes (keys.map fun k => (k, pair)) }

def Art.pushValues (t : Art (List π)) (keys : List CString) (pair : π) : Art (List π) :=
  keys.foldl (fun t s => Art.pushValue t s pair) t

def AttrLeaf.numericKeys (leaf : AttrLeaf π) (attrVal : NumericArray) (n : Nat) : List NumKey :=
  (List.range n).map (leaf.numericKey attrVal)

def AttrLeaf.addNumeric (leaf : AttrLeaf π) (keys : List NumKey) (pair : π) : AttrLeaf π :=
  { leaf with rbt := leaf.rbt.map fun t => t.pushValues keys pair }

def AttrLeaf.addStrings (leaf : AttrLeaf π) (vals : List StringRef) (pair : π) : AttrLeaf π :=
  { leaf.prepareString with
    art := some (Art.pushValues (leaf.art.getD []) (vals.map StringRef.text) pair) }

def AttrLeaf.addValue (pair : π) (leaf : AttrLeaf π) : AttrValue → AttrLeaf π
  | .integer vals beyond => leaf.addNumeric (leaf.numericKeys (.ints vals beyond) vals.length) pair
  | .float vals => leaf.addNumeric (leaf.numericKeys (.doubles vals) vals.length) pair
  | .string vals => leaf.addStrings vals pair
  | .unknown _ => leaf

def linkValue (pair : π) (value : AttrValue) : Option (AttrLeaf π) → Option (AttrLeaf π)
  | some leaf => some (leaf.addValue pair value)
  | none => if (newLeaf value.type : AttrLeaf π × Bool).2 then
      some ((newLeaf value.type).1.addValue pair value) else none

theorem linkValue_some (pair : π) (value : AttrValue) (leaf : AttrLeaf π) :
    linkValue pair value (some leaf) = some (leaf.addValue pair value) := rfl

theorem Rbt.map_pushValues (f : π → ρ) (t : Rbt π) (keys : List NumKey) (pair : π) :
    (t.map f).pushValues keys (f pair) = (t.pushValues keys pair).map f := by
  have h : ∀ m : List (NumKey × List π),
      pushAll t.cmpKeysCb.eval (mapValues (List.map f) m) (keys.map fun k => (k, f pair)) =
        mapValues (List.map f) (pushAll t.cmpKeysCb.eval m (keys.map fun k => (k, pair))) := by
    induction keys with
    | nil => intro m; rfl
    | cons k keys ih =>
      intro m
      simp only [List.map_cons, pushAll, List.foldl_cons, mapValues_push]
      exact ih _
  simp only [Rbt.map, Rbt.pushValues, h]

omit [Descent NumKey] in
theorem Art.map_pushValues (f : π → ρ) (t : Art (List π)) (keys : List CString) (pair : π) :
    Art.pushValues (AssocMap.mapValues (List.map f) t) keys (f pair) =
      AssocMap.mapValues (List.map f) (Art.pushValues t keys pair) := by
  induction keys generalizing t with
  | nil => rfl
  | cons s keys ih =>
    have hs : Art.pushValue (AssocMap.mapValues (List.map f) t) s (f pair) =
        AssocMap.mapValues (List.map f) (Art.pushValue t s pair) := by
      simp only [Art.pushValue, AssocMap.search_mapValues, ← AssocMap.insert_mapValues]
      cases AssocMap.search t s <;> simp
    simp only [Art.pushValues, List.foldl_cons, hs]
    exact ih _

theorem AttrLeaf.map_addValue (f : π → ρ) (leaf : AttrLeaf π) (pair : π) (value : AttrValue) :
    (leaf.map f).addValue (f pair) value = (leaf.addValue pair value).map f := by
  have hn : ∀ keys, (leaf.map f).addNumeric keys (f pair) = (leaf.addNumeric keys pair).map f := by
    intro keys
    cases h : leaf.rbt <;> simp [AttrLeaf.addNumeric, AttrLeaf.map, h, Rbt.map_pushValues]
  cases value with
  | unknown n => rfl
  | integer vals beyond => exact hn _
  | float vals => exact hn _
  | string vals =>
    have ha : (leaf.art.map (AssocMap.mapValues (List.map f))).getD [] =
        AssocMap.mapValues (List.map f) (leaf.art.getD []) := by
      cases leaf.art <;> rfl
    simp only [AttrLeaf.addValue, AttrLeaf.addStrings, AttrLeaf.prepareString, AttrLeaf.map, ha,
      Art.map_pushValues, Option.map_some]

omit [Descent NumKey] in
theorem map_newLeaf (f : π → ρ) (type : AttrType) :
    (newLeaf type : AttrLeaf π × Bool).1.map f = (newLeaf type).1 := by
  cases type <;> rfl

omit [Descent NumKey] in
theorem newLeaf_intoArt (type : AttrType) :
    (newLeaf type : AttrLeaf π × Bool).2 = (newLeaf type : AttrLeaf ρ × Bool).2 := by
  cases type <;> rfl

theorem map_linkValue (f : π → ρ) (pair : π) (value : AttrValue) (o : Option (AttrLeaf π)) :
    linkValue (f pair) value (o.map (AttrLeaf.map f)) =
      (linkValue pair value o).map (AttrLeaf.map f) := by
  cases o with
  | some leaf => simp [linkValue, AttrLeaf.map_addValue]
  | none =>
    simp only [linkValue, Option.map_none, ← map_newLeaf f value.type, AttrLeaf.map_addValue]
    rw [newLeaf_intoArt (ρ := π)]
    split_ifs <;> rfl

abbrev PathIndex := CString → Option (AttrLeaf SearchRstEntry)

def Attribute.entry (a : Attribute) : SearchRstEntry := ⟨.to a.filePath, .to a.objPath⟩

def PathIndex.step (I : PathIndex) (a : Attribute) : PathIndex :=
  Function.update I a.attrName (linkValue (Attribute.entry a) a.attributeValue (I a.attrName))

def pathIndexAll (attrs : List Attribute) : PathIndex :=
  attrs.foldl PathIndex.step fun _ => none

def PathIndex.search (I : PathIndex) (attrName : CString) (value : QueryValue) :
    Option (Option (List SearchRstEntry)) :=
  match I attrName with
  | none => some none
  | some leaf => leaf.search value

/-- The leaf of a name depends only on the attributes of that name. -/
theorem pathIndexAll_apply (attrs : List Attribute) (n : CString) :
    pathIndexAll attrs n = (attrs.filter fun a => a.attrName = n).foldl
      (fun o a => linkValue (Attribute.entry a) a.attributeValue o) none := by
  have h : ∀ I : PathIndex, attrs.foldl PathIndex.step I n =
      (attrs.filter fun a => a.attrName = n).foldl
        (fun o a => linkValue (Attribute.entry a) a.attributeValue o) (I n) := by
    induction attrs with
    | nil => intro I; rfl
    | cons a attrs ih =>
      intro I
      by_cases hn : a.attrName = n
      · subst hn
        simp [ih, PathIndex.step]
      · have hn' : n ≠ a.attrName := fun h => hn h.symm
        simp [hn, ih, PathIndex.step, hn']
  exact h _

/-- What holds of new leaves and is kept when an attribute of the name is stored holds of
the leaf of the name. -/
theorem pathIndexAll_leaf (P : AttrLeaf SearchRstEntry → Prop) {attrs : List Attribute} {n : CString}
    (hnew : ∀ a ∈ attrs, a.attrName = n →
      P (newLeaf a.attributeValue.type : AttrLeaf SearchRstEntry × Bool).1)
    (hadd : ∀ a ∈ attrs, a.attrName = n → ∀ leaf, P leaf →
      P (leaf.addValue (Attribute.entry a) a.attributeValue))
    {leaf : AttrLeaf SearchRstEntry} (h : pathIndexAll attrs n = some leaf) : P leaf := by
  have hfold : ∀ (bs : List Attribute) (o : Option (AttrLeaf SearchRstEntry)),
      (∀ a ∈ bs, a ∈ attrs ∧ a.attrName = n) → (∀ l, o = some l → P l) → ∀ l, bs.foldl
        (fun o a => linkValue (Attribute.entry a) a.attributeValue o) o = some l → P l := by
    intro bs
    induction bs with
    | nil => intro o _ ho; exact ho
    | cons a bs ih =>
      intro o hbs ho
      obtain ⟨ha, han⟩ := hbs a (by simp)
      apply ih _ fun b hb => hbs b (List.mem_cons_of_mem a hb)
      intro l hl
      cases o with
      | some old =>
        rw [← Option.some.inj hl]
        exact hadd a ha han _ (ho old rfl)
      | none =>
        simp only [linkValue] at hl
        split_ifs at hl
        rw [← Option.some.inj hl]
        exact hadd a ha han _ (hnew a ha han)
  rw [pathIndexAll_apply] at h
  exact hfold _ none (fun a ha => by simpa using List.mem_filter.mp ha) (by simp) leaf h

end Miqs.Index
