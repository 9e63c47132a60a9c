import Miqs.PathIndex
import Miqs.PathTables
import Miqs.Runs

/-! What indexing one attribute does to the partition of its name, in one equation. -/
namespace Miqs.Index
open Miqs.CData Miqs.KeyedTree Miqs.InternTable
variable {π ρ : Type} [Descent NumKey]

def AttrLeaf.pairs (leaf : AttrLeaf π) : List π :=
  ((leaf.rbt.map Rbt.nodes).getD []).flatMap Prod.snd ++ (leaf.art.getD []).flatMap Prod.snd

omit [Descent NumKey] in
theorem AttrLeaf.pairs_map (f : π → ρ) (leaf : AttrLeaf π) :
    (leaf.map f).pairs = leaf.pairs.map f := by
  cases leaf with
  | mk isNumeric isFloat rbt art =>
    cases rbt <;> cases art <;> simp [AttrLeaf.pairs, AttrLeaf.map, Rbt.map, mapValues,
      AssocMap.mapValues, List.map_flatMap, List.flatMap_map]

omit [Descent NumKey] in
theorem AttrLeaf.map_congr {f g : π → ρ} {leaf : AttrLeaf π} (h : ∀ x ∈ leaf.pairs, f x = g x) :
    leaf.map f = leaf.map g := by
  cases leaf with
  | mk isNumeric isFloat rbt art =>
    have hr : rbt.map (Rbt.map f) = rbt.map (Rbt.map g) := by
      cases rbt with
      | none => rfl
      | some t =>
        have hn : mapValues (List.map f) t.nodes = mapValues (List.map g) t.nodes := by
          apply List.map_congr_left
          intro e he
          have hv : e.2.map f = e.2.map g := List.map_congr_left fun x hx => h x (by
            simp only [AttrLeaf.pairs, Option.map_some, Option.getD_some]
            exact List.mem_append_left _ (List.mem_flatMap.mpr ⟨e, he, hx⟩))
          rw [hv]
        simp only [Option.map_some, Rbt.map, hn]
    have ha : art.map (AssocMap.mapValues (List.map f)) =
        art.map (AssocMap.mapValues (List.map g)) := by
      cases art with
      | none => rfl
      | some t =>
        have hn : AssocMap.mapValues (List.map f) t = AssocMap.mapValues (List.map g) t := by
          apply List.map_congr_left
          intro e he
          have hv : e.2.map f = e.2.map g := List.map_congr_left fun x hx => h x (by
            simp only [AttrLeaf.pairs, Option.getD_some]
            exact List.mem_append_right _ (List.mem_flatMap.mpr ⟨e, he, hx⟩))
          rw [hv]
        simp only [Option.map_some, hn]
    simp only [AttrLeaf.map, hr, ha]

/-- Storing an attribute adds no pair but the given one. The pairs are followed by
naturality: mark the expected ones and compare with marking all. -/
theorem AttrLeaf.mem_pairs_addValue {leaf : AttrLeaf π} {pair : π} {value : AttrValue} {x : π}
    (h : x ∈ (leaf.addValue pair value).pairs) : x ∈ leaf.pairs ∨ x = pair := by
  classical
  have hmark : leaf.map (fun y => decide (y ∈ leaf.pairs ∨ y = pair)) = leaf.map fun _ => true :=
    AttrLeaf.map_congr fun y hy => by simp [hy]
  have hnat := AttrLeaf.map_addValue (fun y => decide (y ∈ leaf.pairs ∨ y = pair)) leaf pair value
  rw [hmark, show decide (pair ∈ leaf.pairs ∨ pair = pair) = true by simp,
    AttrLeaf.map_addValue (fun _ => true) leaf pair value] at hnat
  have hpairs := congrArg AttrLeaf.pairs hnat
  rw [AttrLeaf.pairs_map, AttrLeaf.pairs_map] at hpairs
  have hx := List.map_inj_left.mp hpairs x h
  exact of_decide_eq_true hx.symm

omit [Descent NumKey] in
theorem newLeaf_pairs (type : AttrType) : (newLeaf type : AttrLeaf π × Bool).1.pairs = [] := by
  cases type <;> rfl

def AttrLeaf.found (leaf : AttrLeaf π) (value : QueryValue) : List π :=
  (leaf.search value).join.getD []

theorem AttrLeaf.mem_pairs_of_found {leaf : AttrLeaf π} {value : QueryValue} {x : π}
    (h : x ∈ leaf.found value) : x ∈ leaf.pairs := by
  have hnode : ∀ {t : Rbt π} {key : NumKey}, leaf.rbt = some t → x ∈ (t.find key).getD [] →
      x ∈ leaf.pairs := by
    intro t key ht hx
    cases hf : t.find key with
    | none => simp [hf] at hx
    | some l =>
      obtain ⟨k', hk', _⟩ := lookup_some hf
      rw [hf, Option.getD_some] at hx
      simp only [AttrLeaf.pairs, ht, Option.map_some, Option.getD_some]
      exact List.mem_append_left _ (List.mem_flatMap.mpr ⟨_, hk', hx⟩)
  unfold AttrLeaf.found AttrLeaf.search at h
  cases ht : leaf.rbt with
  | none => simp [ht] at h
  | some t =>
    cases value with
    | unknown => simp [ht] at h
    | integer v => exact hnode ht (by simpa [ht] using h)
    | float v => exact hnode ht (by simpa [ht] using h)
    | string s =>
      cases ha : leaf.art with
      | none => simp [ht, ha] at h
      | some m =>
        cases hs : AssocMap.search m s with
        | none => simp [ht, ha, hs] at h
        | some l =>
          have hx : x ∈ l := by simpa [ht, ha, hs] using h
          simp only [AttrLeaf.pairs, ha, Option.getD_some]
          exact List.mem_append_right _
            (List.mem_flatMap.mpr ⟨_, AssocMap.mem_of_search hs, hx⟩)

theorem AttrLeaf.found_of_pairs_eq_nil {leaf : AttrLeaf π} (h : leaf.pairs = [])
    (value : QueryValue) : leaf.found value = [] := by
  apply List.eq_nil_iff_forall_not_mem.mpr
  intro x hx
  have hx' := AttrLeaf.mem_pairs_of_found hx
  rw [h] at hx'
  cases hx'

theorem AttrLeaf.pushNumeric_eq {leaf : AttrLeaf π} (h : leaf.rbt.isSome) (key : NumKey) (pair : π) :
    leaf.pushNumeric key pair = some (leaf.addNumeric [key] pair) := by
  cases hr : leaf.rbt with
  | none => simp [hr] at h
  | some t =>
    simp [AttrLeaf.pushNumeric, AttrLeaf.addNumeric, hr, Rbt.pushValue, Rbt.pushValues, pushAll]

theorem AttrLeaf.foldl_addNumeric (leaf : AttrLeaf π) (attrVal : NumericArray) (is : List Nat)
    (pair : π) :
    is.foldl (fun l i => l.addNumeric [l.numericKey attrVal i] pair) leaf =
      leaf.addNumeric (is.map (leaf.numericKey attrVal)) pair := by
  induction is generalizing leaf with
  | nil =>
    cases leaf with
    | mk isNumeric isFloat rbt art => cases rbt <;> rfl
  | cons i is ih =>
    have hkey : (leaf.addNumeric [leaf.numericKey attrVal i] pair).numericKey attrVal =
        leaf.numericKey attrVal := rfl
    rw [List.foldl_cons, ih, hkey]
    cases leaf with
    | mk isNumeric isFloat rbt art => cases rbt <;> rfl

def AttrLeaf.addString (leaf : AttrLeaf π) (s : CString) (pair : π) : AttrLeaf π :=
  { leaf with art := leaf.art.map fun t => Art.pushValue t s pair }

omit [Descent NumKey] in
theorem AttrLeaf.pushString_eq {leaf : AttrLeaf π} (h : leaf.art.isSome) (s : CString) (pair : π) :
    leaf.pushString s pair = some (leaf.addString s pair) := by
  cases hr : leaf.art with
  | none => simp [hr] at h
  | some t => simp [AttrLeaf.pushString, AttrLeaf.addString, hr]

omit [Descent NumKey] in
theorem AttrLeaf.foldl_addString (leaf : AttrLeaf π) (vals : List StringRef) (pair : π) :
    vals.foldl (fun l val => l.addString val.text pair) leaf.prepareString =
      leaf.addStrings vals pair := by
  have h : ∀ l : AttrLeaf π, vals.foldl (fun l val => l.addString val.text pair) l =
      { l with art := l.art.map fun t => Art.pushValues t (vals.map StringRef.text) pair } := by
    induction vals with
    | nil =>
      intro l
      cases l with
      | mk isNumeric isFloat rbt art => cases art <;> rfl
    | cons val vals ih =>
      intro l
      rw [List.foldl_cons, ih]
      cases l with
      | mk isNumeric isFloat rbt art => cases art <;> rfl
  rw [h]
  rfl

def PathTable.insertTimes (t : PathTable) (n : Nat) (path : CString) : PathTable :=
  if n = 0 then t else t.insert path

def stored : AttrValue → Nat
  | .unknown _ => 0
  | .integer vals _ => vals.length
  | .float vals => vals.length
  | .string vals => vals.length

section Partition
variable {idx : IndexAnchor} {h : Nat} {part : Partition} {F O : PathTable}

omit [Descent NumKey] in
theorem setPartition_self (hp : idx.partitions[h]? = some part) : idx.setPartition h part = idx := by
  obtain ⟨hlt, rfl⟩ := List.getElem?_eq_some_iff.mp hp
  simp [IndexAnchor.setPartition]

omit [Descent NumKey] in
theorem setPartition_setPartition (idx : IndexAnchor) (h : Nat) (a b : Partition) :
    (idx.setPartition h a).setPartition h b = idx.setPartition h b := by
  simp [IndexAnchor.setPartition]

omit [Descent NumKey] in
theorem getElem?_setPartition (hp : idx.partitions[h]? = some part) (a : Partition) (i : Nat) :
    (idx.setPartition h a).partitions[i]? = if h = i then some a else idx.partitions[i]? := by
  have hlt := (List.getElem?_eq_some_iff.mp hp).1
  simp only [IndexAnchor.setPartition, List.getElem?_set, hlt, if_true]

omit [Descent NumKey] in
theorem makeFileObjPair_eq (hp : idx.partitions[h]? = some part)
    (hF : part.filePathsList = F.toLinkedList) (hO : part.objectPathsList = O.toLinkedList)
    (f o : CString) : makeFileObjPair idx h (.to f) (.to o) =
      some (idx.setPartition h ⟨part.rootArt, (F.insert f).toLinkedList, (O.insert o).toLinkedList⟩,
        ⟨h, slot F.paths f, slot O.paths o⟩) := by
  have hp' := getElem?_setPartition hp
    ⟨part.rootArt, (F.insert f).toLinkedList, O.toLinkedList⟩ h
  simp only [if_true] at hp'
  simp only [makeFileObjPair, insertFilePath, insertObjectPath, hp, hF, hO, hp',
    insertTaggedValue_toLinkedList, Option.bind_eq_bind, Option.bind_some,
    setPartition_setPartition]

omit [Descent NumKey] in
/-- Both loops: the paths are interned once and every value gets the same pair. -/
theorem indexingLoop_eq {α : Type} (hp : idx.partitions[h]? = some part)
    (hF : part.filePathsList = F.toLinkedList) (hO : part.objectPathsList = O.toLinkedList)
    (f o : CString) (P : AttrLeaf FileObjPair → Prop)
    (push : AttrLeaf FileObjPair → α → FileObjPair → Option (AttrLeaf FileObjPair))
    (add : AttrLeaf FileObjPair → α → FileObjPair → AttrLeaf FileObjPair)
    (hpush : ∀ l x pr, P l → push l x pr = some (add l x pr)) (hP : ∀ l x pr, P l → P (add l x pr))
    (xs : List α) (leaf : AttrLeaf FileObjPair) (hl : P leaf) :
    xs.foldlM (fun (s : IndexAnchor × AttrLeaf FileObjPair) x => do
      let (idx, pair) ← makeFileObjPair s.1 h (.to f) (.to o)
      let leafCnt ← push s.2 x pair
      some (idx, leafCnt)) (idx, leaf) =
    some (idx.setPartition h ⟨part.rootArt, (F.insertTimes xs.length f).toLinkedList,
        (O.insertTimes xs.length o).toLinkedList⟩,
      xs.foldl (fun l x => add l x ⟨h, slot F.paths f, slot O.paths o⟩) leaf) := by
  induction xs generalizing idx part F O leaf with
  | nil =>
    have hs : (⟨part.rootArt, F.toLinkedList, O.toLinkedList⟩ : Partition) = part := by
      rw [← hF, ← hO]
    simp [PathTable.insertTimes, hs, setPartition_self hp]
  | cons x xs ih =>
    have hp' := getElem?_setPartition hp
      ⟨part.rootArt, (F.insert f).toLinkedList, (O.insert o).toLinkedList⟩ h
    simp only [if_true] at hp'
    have hi := ih hp' rfl rfl (add leaf x ⟨h, slot F.paths f, slot O.paths o⟩) (hP _ _ _ hl)
    have hF' : (F.insert f).insertTimes xs.length f = F.insert f := by
      simp [PathTable.insertTimes, PathTable.insert_insert]
    have hO' : (O.insert o).insertTimes xs.length o = O.insert o := by
      simp [PathTable.insertTimes, PathTable.insert_insert]
    have hf : slot (F.insert f).paths f = slot F.paths f := slot_intern _ _
    have ho : slot (O.insert o).paths o = slot O.paths o := slot_intern _ _
    rw [List.foldlM_cons, makeFileObjPair_eq hp hF hO]
    simp only [Option.bind_eq_bind, Option.bind_some, hpush _ _ _ hl]
    simp only [Option.bind_eq_bind, hf, ho, hF', hO', setPartition_setPartition] at hi
    rw [hi]
    simp [PathTable.insertTimes]

/-- The second `switch`, on a leaf that has the tree the attribute's type needs. -/
theorem indexingByType_eq (hp : idx.partitions[h]? = some part)
    (hF : part.filePathsList = F.toLinkedList) (hO : part.objectPathsList = O.toLinkedList)
    (a : Attribute) (leaf : AttrLeaf FileObjPair)
    (hl : a.attributeValue.type = .string ∨ a.attributeValue.type = .unknown ∨ leaf.rbt.isSome) :
    indexingByType h a.toMeta (idx, leaf) =
      some (idx.setPartition h ⟨part.rootArt,
          (F.insertTimes (stored a.attributeValue) a.filePath).toLinkedList,
          (O.insertTimes (stored a.attributeValue) a.objPath).toLinkedList⟩,
        leaf.addValue ⟨h, slot F.paths a.filePath, slot O.paths a.objPath⟩ a.attributeValue) := by
  have hnil : (⟨part.rootArt, F.toLinkedList, O.toLinkedList⟩ : Partition) = part := by
    rw [← hF, ← hO]
  have hnum : ∀ (attrVal : NumericArray) (n : Nat), leaf.rbt.isSome →
      indexingNumeric h attrVal n (.to a.filePath) (.to a.objPath) (idx, leaf) =
        some (idx.setPartition h ⟨part.rootArt, (F.insertTimes n a.filePath).toLinkedList,
          (O.insertTimes n a.objPath).toLinkedList⟩,
          leaf.addNumeric (leaf.numericKeys attrVal n)
            ⟨h, slot F.paths a.filePath, slot O.paths a.objPath⟩) := by
    intro attrVal n hr
    have hloop := indexingLoop_eq hp hF hO a.filePath a.objPath (fun l => l.rbt.isSome)
      (fun l i pr => l.pushNumeric (l.numericKey attrVal i) pr)
      (fun l i pr => l.addNumeric [l.numericKey attrVal i] pr)
      (fun l i pr hl => l.pushNumeric_eq hl _ _) (fun l i pr hl => by simpa [AttrLeaf.addNumeric])
      (List.range n) leaf hr
    rw [List.length_range, AttrLeaf.foldl_addNumeric] at hloop
    exact hloop
  cases ha : a.attributeValue with
  | unknown n =>
    simp [indexingByType, Attribute.toMeta, ha, stored, PathTable.insertTimes, AttrLeaf.addValue,
      hnil, setPartition_self hp]
  | integer vals beyond =>
    have hr : leaf.rbt.isSome := by simpa [ha, AttrValue.type] using hl
    simpa [indexingByType, Attribute.toMeta, ha, stored, AttrLeaf.addValue] using hnum _ _ hr
  | float vals =>
    have hr : leaf.rbt.isSome := by simpa [ha, AttrValue.type] using hl
    simpa [indexingByType, Attribute.toMeta, ha, stored, AttrLeaf.addValue] using hnum _ _ hr
  | string vals =>
    have hloop := indexingLoop_eq hp hF hO a.filePath a.objPath (fun l => l.art.isSome)
      (fun l val pr => l.pushString (StringRef.text val) pr)
      (fun l val pr => l.addString (StringRef.text val) pr)
      (fun l val pr hl => l.pushString_eq hl _ _) (fun l val pr hl => by simpa [AttrLeaf.addString])
      vals leaf.prepareString rfl
    rw [AttrLeaf.foldl_addString] at hloop
    change indexingString h vals (.to a.filePath) (.to a.objPath) (idx, leaf) = _ at hloop
    simpa [indexingByType, Attribute.toMeta, ha, stored, AttrLeaf.addValue] using hloop

def Art.link {α : Type} (art : Art α) (name : CString) : Option α → Art α
  | some leaf => AssocMap.insert art name leaf
  | none => art

theorem createInMemIndexForAttr_eq (a : Attribute) (hh : djb2Hash a.attrName % idx.parallelism = h)
    (hp : idx.partitions[h]? = some part)
    (hF : part.filePathsList = F.toLinkedList) (hO : part.objectPathsList = O.toLinkedList)
    (hl : ∀ leaf, AssocMap.search part.rootArt a.attrName = some leaf → leaf.rbt.isSome) :
    createInMemIndexForAttr idx a.toMeta = some (idx.setPartition h
      ⟨Art.link part.rootArt a.attrName
        (linkValue ⟨h, slot F.paths a.filePath, slot O.paths a.objPath⟩ a.attributeValue
          (AssocMap.search part.rootArt a.attrName)),
        (F.insertTimes (stored a.attributeValue) a.filePath).toLinkedList,
        (O.insertTimes (stored a.attributeValue) a.objPath).toLinkedList⟩) := by
  have hname : a.toMeta.attrName = a.attrName := rfl
  have hvalue : a.toMeta.attributeValue = a.attributeValue := rfl
  have hset := getElem?_setPartition hp ⟨part.rootArt,
    (F.insertTimes (stored a.attributeValue) a.filePath).toLinkedList,
    (O.insertTimes (stored a.attributeValue) a.objPath).toLinkedList⟩ h
  simp only [if_true] at hset
  unfold createInMemIndexForAttr
  simp only [hname, hvalue, hh, hp, Option.bind_eq_bind, Option.bind_some]
  cases hs : AssocMap.search part.rootArt a.attrName with
  | some leaf =>
    simp only [indexingByType_eq hp hF hO a leaf (Or.inr (Or.inr (hl leaf hs))),
      Option.bind_some, IndexAnchor.linkLeaf, hset, Option.bind_eq_bind,
      setPartition_setPartition, linkValue, Art.link]
  | none =>
    have hnew : a.attributeValue.type = .string ∨ a.attributeValue.type = .unknown ∨
        (newLeaf a.attributeValue.type : AttrLeaf FileObjPair × Bool).1.rbt.isSome := by
      cases a.attributeValue.type <;> simp [newLeaf]
    simp only [indexingByType_eq hp hF hO a _ hnew, Option.bind_some, linkValue]
    split_ifs
    · simp only [IndexAnchor.linkLeaf, hset, Option.bind_eq_bind, Option.bind_some,
        setPartition_setPartition, Art.link]
    · rfl

end Partition

def OnlyPartitions (idx idx' : IndexAnchor) : Prop := idx' = { idx with partitions := idx'.partitions }

omit [Descent NumKey] in
theorem OnlyPartitions.trans {a b c : IndexAnchor} (hab : OnlyPartitions a b)
    (hbc : OnlyPartitions b c) : OnlyPartitions a c := by
  unfold OnlyPartitions at *
  rw [hbc, hab]

omit [Descent NumKey] in
theorem makeFileObjPair_onlyPartitions {idx idx' : IndexAnchor} {h : Nat} {filePath objPath : CharPtr}
    {pair : FileObjPair} (hm : makeFileObjPair idx h filePath objPath = some (idx', pair)) :
    OnlyPartitions idx idx' := by
  simp only [makeFileObjPair, insertFilePath, insertObjectPath, Option.bind_eq_bind,
    Option.bind_eq_some_iff, Option.some.injEq, Prod.exists, Prod.mk.injEq] at hm
  obtain ⟨_, _, ⟨_, _, _, _, _, rfl, _⟩, _, _, ⟨_, _, _, _, _, rfl, _⟩, rfl, _⟩ := hm
  rfl

omit [Descent NumKey] in
/-- Both loops intern the paths of a pair in every round. -/
theorem indexingLoop_onlyPartitions {α : Type} {h : Nat} {filePath objPath : CharPtr}
    (push : AttrLeaf FileObjPair → α → FileObjPair → Option (AttrLeaf FileObjPair)) {xs : List α}
    {s s' : IndexAnchor × AttrLeaf FileObjPair}
    (hrun : xs.foldlM (fun s x => do
      let (idx, pair) ← makeFileObjPair s.1 h filePath objPath
      let leafCnt ← push s.2 x pair
      some (idx, leafCnt)) s = some s') : OnlyPartitions s.1 s'.1 := by
  have hself : OnlyPartitions s.1 s.1 := rfl
  refine Runs.foldlM_invariant (fun t => OnlyPartitions s.1 t.1) _ ?_ xs s s' hself hrun
  intro t x t' ht hstep
  simp only [Option.bind_eq_bind, Option.bind_eq_some_iff, Option.some.injEq, Prod.exists] at hstep
  obtain ⟨idx, pair, hm, leafCnt, _, rfl⟩ := hstep
  exact ht.trans (makeFileObjPair_onlyPartitions hm)

theorem indexingByType_onlyPartitions {h : Nat} {attr : MetaAttribute}
    {s s' : IndexAnchor × AttrLeaf FileObjPair} (hi : indexingByType h attr s = some s') :
    OnlyPartitions s.1 s'.1 := by
  have hnum : ∀ attrVal n, indexingNumeric h attrVal n attr.filePathStr attr.objPathStr s = some s' →
      OnlyPartitions s.1 s'.1 := fun attrVal n hrun =>
    indexingLoop_onlyPartitions (fun l i pr => l.pushNumeric (l.numericKey attrVal i) pr) hrun
  unfold indexingByType at hi
  split at hi
  · exact hnum _ _ hi
  · exact hnum _ _ hi
  · exact indexingLoop_onlyPartitions (s := (s.1, s.2.prepareString))
      (fun l val pr => l.pushString (StringRef.text val) pr) hi
  · cases hi
    rfl

omit [Descent NumKey] in
theorem linkLeaf_onlyPartitions {idx idx' : IndexAnchor} {h : Nat} {name : CString}
    {leafCnt : AttrLeaf FileObjPair} (hl : idx.linkLeaf h name leafCnt = some idx') :
    OnlyPartitions idx idx' := by
  simp only [IndexAnchor.linkLeaf, Option.bind_eq_bind, Option.bind_eq_some_iff,
    Option.some.injEq] at hl
  obtain ⟨part, _, rfl⟩ := hl
  rfl

theorem createInMemIndexForAttr_onlyPartitions {idx idx' : IndexAnchor} {attr : MetaAttribute}
    (hc : createInMemIndexForAttr idx attr = some idx') : OnlyPartitions idx idx' := by
  simp only [createInMemIndexForAttr, Option.bind_eq_bind, Option.bind_eq_some_iff] at hc
  obtain ⟨part, -, hc⟩ := hc
  split at hc
  · obtain ⟨s, hi, hl⟩ := Option.bind_eq_some_iff.mp hc
    exact (indexingByType_onlyPartitions hi).trans (linkLeaf_onlyPartitions hl)
  · obtain ⟨s, hi, hl⟩ := Option.bind_eq_some_iff.mp hc
    split_ifs at hl
    · exact (indexingByType_onlyPartitions hi).trans (linkLeaf_onlyPartitions hl)
    · cases hl
      exact indexingByType_onlyPartitions hi

end Miqs.Index
