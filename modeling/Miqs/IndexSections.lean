import Miqs.CriticalSections
import Miqs.PartitionLocks

/-! Indexing and searching access by access, each call under the lock of its partition. The calls turn
out to be atomic. -/
namespace Miqs.Index
open Miqs.CData Miqs.KeyedTree Miqs.Interleaving Miqs.CriticalSections
variable [Descent NumKey]

/-- `entry` of `indexing_numeric` or `test_cnt` of `indexing_string`: a node of the tree, or what the ART
has under a string. -/
inductive Entry where
  | node (i : Nat)
  | text (s : CString)

section Leaf
variable {π : Type}

def AttrLeaf.enterNumeric (leaf : AttrLeaf π) (key : NumKey) : Option (AttrLeaf π × Entry) :=
  leaf.rbt.map fun t =>
    let r := enter t.cmpKeysCb.eval t.nodes key
    ({ leaf with rbt := some { t with nodes := r.1 } }, .node r.2)

def AttrLeaf.enterString (leaf : AttrLeaf π) (s : CString) : Option (AttrLeaf π × Entry) :=
  leaf.art.map fun t =>
    match AssocMap.search t s with
    | some _ => (leaf, .text s)
    | none => ({ leaf with art := some (AssocMap.insert t s []) }, .text s)

def AttrLeaf.pushEntry (leaf : AttrLeaf π) (entry : Entry) (pair : π) : Option (AttrLeaf π) :=
  match entry with
  | .node i => leaf.rbt.map fun t => { leaf with rbt := some { t with nodes := pushAt t.nodes i pair } }
  | .text s => leaf.art.map fun t => { leaf with art := some (t.pushValue s pair) }

theorem AttrLeaf.pushNumeric_eq_enter (leaf : AttrLeaf π) (key : NumKey) (pair : π) :
    leaf.pushNumeric key pair = (leaf.enterNumeric key).bind fun r => r.1.pushEntry r.2 pair := by
  obtain ⟨isNumeric, isFloat, rbt, art⟩ := leaf
  cases rbt with
  | none => rfl
  | some t =>
    simp only [pushNumeric, enterNumeric, pushEntry, Rbt.pushValue, push_eq_pushAt_enter, Option.map_some,
      Option.bind_some]

omit [Descent NumKey] in
theorem AttrLeaf.pushString_eq_enter (leaf : AttrLeaf π) (s : CString) (pair : π) :
    leaf.pushString s pair = (leaf.enterString s).bind fun r => r.1.pushEntry r.2 pair := by
  obtain ⟨isNumeric, isFloat, rbt, art⟩ := leaf
  cases art with
  | none => rfl
  | some t =>
    cases hs : AssocMap.search t s with
    | some pairs => simp [pushString, enterString, pushEntry, hs]
    | none =>
      simp [pushString, enterString, pushEntry, hs, Art.pushValue, AssocMap.search_insert, AssocMap.insert_insert]

end Leaf

abbrev Enter := AttrLeaf FileObjPair → Option (AttrLeaf FileObjPair × Entry)

def rounds (attr : MetaAttribute) : List Enter :=
  match attr.attributeValue with
  | .integer vals beyond =>
    (List.range vals.length).map fun i leaf => leaf.enterNumeric (leaf.numericKey (.ints vals beyond) i)
  | .float vals => (List.range vals.length).map fun i leaf => leaf.enterNumeric (leaf.numericKey (.doubles vals) i)
  | .string vals => vals.map fun val leaf => leaf.enterString val.text
  | .unknown _ => []

def prepare (attr : MetaAttribute) (leaf : AttrLeaf FileObjPair) : AttrLeaf FileObjPair :=
  match attr.attributeValue with
  | .string _ => leaf.prepareString
  | _ => leaf

/-- How far a call has come. `own` is a leaf that is not linked into the name tree. -/
inductive Point where
  | begin
  /-- At the head of the loop. -/
  | values (own : Option (AttrLeaf FileObjPair)) (rest : List Enter)
  /-- The value has its node. -/
  | entered (own : Option (AttrLeaf FileObjPair)) (entry : Entry) (rest : List Enter)
  /-- The file path has been interned. -/
  | filed (own : Option (AttrLeaf FileObjPair)) (entry : Entry) (rest : List Enter) (fileListPos : Nat)
  /-- The object path too. -/
  | paired (own : Option (AttrLeaf FileObjPair)) (entry : Entry) (rest : List Enter) (pair : FileObjPair)
  /-- The leaf of the name has been found. -/
  | found
  | collecting (entries : List SearchRstEntry)

def Partition.link (part : Partition) (name : CString) (leaf : AttrLeaf FileObjPair) : Partition :=
  { part with rootArt := AssocMap.insert part.rootArt name leaf }

def Partition.intern (part : Partition) (filePathsList objectPathsList : LinkedList) : Partition :=
  { part with filePathsList := filePathsList, objectPathsList := objectPathsList }

def Partition.leafAt (part : Partition) (name : CString) : Option (AttrLeaf FileObjPair) → Option (AttrLeaf FileObjPair)
  | some leaf => some leaf
  | none => AssocMap.search part.rootArt name

def Partition.store (part : Partition) (name : CString) (own : Option (AttrLeaf FileObjPair))
    (leaf : AttrLeaf FileObjPair) : Partition × Option (AttrLeaf FileObjPair) :=
  match own with
  | some _ => (part, some leaf)
  | none => (part.link name leaf, none)

def Partition.begin (part : Partition) (attr : MetaAttribute) : Partition × Option (AttrLeaf FileObjPair) :=
  match AssocMap.search part.rootArt attr.attrName with
  | some leaf => part.store attr.attrName none (prepare attr leaf)
  | none =>
    let (leaf, intoArt) := newLeaf attr.attributeValue.type
    part.store attr.attrName (if intoArt then none else some leaf) (prepare attr leaf)

def indexAccess (h : Nat) (attr : MetaAttribute) :
    Point → Partition → Option (Partition × (Point ⊕ Option (List SearchRstEntry)))
  | .begin, part => some ((part.begin attr).1, .inl (.values (part.begin attr).2 (rounds attr)))
  | .values _ [], part => some (part, .inr none)
  | .values own (enter :: rest), part =>
    (part.leafAt attr.attrName own).bind fun leaf => (enter leaf).map fun r =>
      ((part.store attr.attrName own r.1).1, .inl (.entered (part.store attr.attrName own r.1).2 r.2 rest))
  | .entered own entry rest, part =>
    (insertTaggedValue part.filePathsList attr.filePathStr).map fun r =>
      (part.intern r.1 part.objectPathsList, .inl (.filed own entry rest r.2))
  | .filed own entry rest fileListPos, part =>
    (insertTaggedValue part.objectPathsList attr.objPathStr).map fun r =>
      (part.intern part.filePathsList r.1, .inl (.paired own entry rest ⟨h, fileListPos, r.2⟩))
  | .paired own entry rest pair, part =>
    (part.leafAt attr.attrName own).bind fun leaf => (leaf.pushEntry entry pair).map fun leaf =>
      ((part.store attr.attrName own leaf).1, .inl (.values (part.store attr.attrName own leaf).2 rest))
  | _, _ => none

def Partition.pairsAt (part : Partition) (attrName : CString) (value : QueryValue) : Option (List FileObjPair) :=
  (AssocMap.search part.rootArt attrName).bind fun leaf => (leaf.search value).join

def Partition.collect (part : Partition) (h : Nat) (pair : FileObjPair) : Option SearchRstEntry :=
  if pair.parallelIndexPos = h then do
    let file ← listPickTaggedValue part.filePathsList pair.fileListPos
    let obj ← listPickTaggedValue part.objectPathsList pair.objListPos
    some ⟨file.tag, obj.tag⟩
  else none

def searchAccess (h : Nat) (attrName : CString) (value : QueryValue) :
    Point → Partition → Option (Partition × (Point ⊕ Option (List SearchRstEntry)))
  | .begin, part => (AssocMap.search part.rootArt attrName).map fun _ => (part, .inl .found)
  | .found, part => (part.pairsAt attrName value).map fun _ => (part, .inl (.collecting []))
  | .collecting entries, part =>
    (part.pairsAt attrName value).bind fun pairs =>
      match pairs[entries.length]? with
      | some pair => (part.collect h pair).map fun entry => (part, .inl (.collecting (entries ++ [entry])))
      | none => some (part, .inr (some entries))
  | _, _ => none

section Round
variable (h : Nat) (attr : MetaAttribute) (next : Option (AttrLeaf FileObjPair) → Partition → Option Partition)

def pairedRest (own : Option (AttrLeaf FileObjPair)) (entry : Entry) (pair : FileObjPair) (part : Partition) :
    Option Partition :=
  (part.leafAt attr.attrName own).bind fun leaf => (leaf.pushEntry entry pair).bind fun leaf =>
    next (part.store attr.attrName own leaf).2 (part.store attr.attrName own leaf).1

def filedRest (own : Option (AttrLeaf FileObjPair)) (entry : Entry) (fileListPos : Nat) (part : Partition) :
    Option Partition :=
  (insertTaggedValue part.objectPathsList attr.objPathStr).bind fun r =>
    pairedRest attr next own entry ⟨h, fileListPos, r.2⟩ (part.intern part.filePathsList r.1)

def enteredRest (own : Option (AttrLeaf FileObjPair)) (entry : Entry) (part : Partition) : Option Partition :=
  (insertTaggedValue part.filePathsList attr.filePathStr).bind fun r =>
    filedRest h attr next own entry r.2 (part.intern r.1 part.objectPathsList)

end Round

def valuesRest (h : Nat) (attr : MetaAttribute) : List Enter → Option (AttrLeaf FileObjPair) → Partition → Option Partition
  | [], _, part => some part
  | enter :: rest, own, part =>
    (part.leafAt attr.attrName own).bind fun leaf => (enter leaf).bind fun r =>
      enteredRest h attr (valuesRest h attr rest) (part.store attr.attrName own r.1).2 r.2
        (part.store attr.attrName own r.1).1

def indexRest (h : Nat) (attr : MetaAttribute) : Point → Partition → Option (Partition × Option (List SearchRstEntry))
  | .begin, part => (valuesRest h attr (rounds attr) (part.begin attr).2 (part.begin attr).1).map (·, none)
  | .values own rest, part => (valuesRest h attr rest own part).map (·, none)
  | .entered own entry rest, part => (enteredRest h attr (valuesRest h attr rest) own entry part).map (·, none)
  | .filed own entry rest fileListPos, part =>
    (filedRest h attr (valuesRest h attr rest) own entry fileListPos part).map (·, none)
  | .paired own entry rest pair, part => (pairedRest attr (valuesRest h attr rest) own entry pair part).map (·, none)
  | _, _ => none

def searchRest (h : Nat) (attrName : CString) (value : QueryValue) :
    Point → Partition → Option (Partition × Option (List SearchRstEntry))
  | .collecting entries, part =>
    (part.pairsAt attrName value).bind fun pairs =>
      ((pairs.drop entries.length).mapM (part.collect h)).map fun more => (part, some (entries ++ more))
  | .begin, part | .found, part =>
    (part.pairsAt attrName value).bind fun pairs => (pairs.mapM (part.collect h)).map fun entries => (part, some entries)
  | _, _ => none

theorem indexRest_eq (h : Nat) (attr : MetaAttribute) (l : Point) (part : Partition) :
    indexRest h attr l part = (indexAccess h attr l part).bind (thenRest (indexRest h attr)) := by
  cases l with
  | values own rest =>
    cases rest with
    | nil => rfl
    | cons enter rest =>
      simp only [indexRest, indexAccess, valuesRest, thenRest, Option.map_bind, Option.bind_map, Function.comp_def,
        Option.bind_assoc]
  | entered own entry rest =>
    simp only [indexRest, indexAccess, enteredRest, thenRest, Option.map_bind, Option.bind_map, Function.comp_def]
  | filed own entry rest fileListPos =>
    simp only [indexRest, indexAccess, filedRest, thenRest, Option.map_bind, Option.bind_map, Function.comp_def]
  | paired own entry rest pair =>
    simp only [indexRest, indexAccess, pairedRest, thenRest, Option.map_bind, Option.bind_map, Function.comp_def,
      Option.bind_assoc]
  | _ => rfl

theorem searchRest_eq (h : Nat) (attrName : CString) (value : QueryValue) (l : Point) (part : Partition) :
    searchRest h attrName value l part =
      (searchAccess h attrName value l part).bind (thenRest (searchRest h attrName value)) := by
  cases l with
  | begin =>
    simp only [searchRest, searchAccess, thenRest, Option.bind_map, Function.comp_def, Partition.pairsAt]
    cases AssocMap.search part.rootArt attrName <;> rfl
  | found =>
    simp only [searchRest, searchAccess, thenRest, Option.bind_map, Function.comp_def]
    cases part.pairsAt attrName value <;> simp
  | collecting entries =>
    simp only [searchRest, searchAccess]
    cases hp : part.pairsAt attrName value with
    | none => rfl
    | some pairs =>
      simp only [Option.bind_some]
      cases hget : pairs[entries.length]? with
      | none =>
        have hdrop : pairs.drop entries.length = [] := List.drop_eq_nil_of_le (List.getElem?_eq_none_iff.mp hget)
        simp [hdrop, thenRest]
      | some pair =>
        have hdrop : pairs.drop entries.length = pair :: pairs.drop (entries.length + 1) := by
          obtain ⟨hlt, rfl⟩ := List.getElem?_eq_some_iff.mp hget
          exact List.drop_eq_getElem_cons hlt
        rw [hdrop, List.mapM_cons]
        cases hentry : part.collect h pair with
        | none => simp [hentry]
        | some entry =>
          simp only [hentry, hp, searchRest, thenRest, Option.bind_eq_bind, Option.bind_some, Option.map_some,
            List.length_append, List.length_singleton]
          cases (pairs.drop (entries.length + 1)).mapM (part.collect h) <;> simp
  | _ => rfl

theorem searchAccess_reads {h : Nat} {attrName : CString} {value : QueryValue} {l : Point} {part : Partition}
    {r : Partition × (Point ⊕ Option (List SearchRstEntry))} (hacc : searchAccess h attrName value l part = some r) :
    r.1 = part := by
  cases l with
  | begin =>
    obtain ⟨_, -, rfl⟩ := Option.map_eq_some_iff.mp hacc
    rfl
  | found =>
    obtain ⟨_, -, rfl⟩ := Option.map_eq_some_iff.mp hacc
    rfl
  | collecting entries =>
    obtain ⟨pairs, -, hacc⟩ := Option.bind_eq_some_iff.mp hacc
    split at hacc
    · obtain ⟨_, -, rfl⟩ := Option.map_eq_some_iff.mp hacc
      rfl
    · cases hacc
      rfl
  | _ => cases hacc

def Call.IsIndex : Call → Prop
  | .index _ => True
  | .search _ _ => False

def sections (p : Nat) : Sections Nat Partition Point Call (Option (List SearchRstEntry)) where
  home := Call.partition p
  writes := Call.IsIndex
  start := .begin
  access call l part :=
    match call with
    | .index attr => indexAccess (call.partition p) attr.toMeta l part
    | .search attrName value => searchAccess (call.partition p) attrName value l part
  rest call l part :=
    match call with
    | .index attr => indexRest (call.partition p) attr.toMeta l part
    | .search attrName value => searchRest (call.partition p) attrName value l part
  rest_eq call l part := by
    cases call with
    | index attr => exact indexRest_eq (Call.partition p (.index attr)) attr.toMeta l part
    | search attrName value => exact searchRest_eq (Call.partition p (.search attrName value)) attrName value l part
  reads := by
    intro call l part r hw hacc
    cases call with
    | index attr => exact absurd trivial hw
    | search attrName value => exact searchAccess_reads hacc

def valuesLoop (h : Nat) (attr : MetaAttribute) :
    List Enter → Partition → AttrLeaf FileObjPair → Option (Partition × AttrLeaf FileObjPair)
  | [], part, leaf => some (part, leaf)
  | enter :: rest, part, leaf =>
    (enter leaf).bind fun r =>
      (insertTaggedValue part.filePathsList attr.filePathStr).bind fun f =>
        (insertTaggedValue part.objectPathsList attr.objPathStr).bind fun o =>
          (r.1.pushEntry r.2 ⟨h, f.2, o.2⟩).bind fun leaf =>
            valuesLoop h attr rest (part.intern f.1 o.1) leaf

omit [Descent NumKey] in
theorem valuesRest_own (h : Nat) (attr : MetaAttribute) (rest : List Enter) (part : Partition)
    (leaf : AttrLeaf FileObjPair) :
    valuesRest h attr rest (some leaf) part = (valuesLoop h attr rest part leaf).map Prod.fst := by
  induction rest generalizing part leaf with
  | nil => rfl
  | cons enter rest ih =>
    simp only [valuesRest, valuesLoop, enteredRest, filedRest, pairedRest, Partition.leafAt, Partition.store,
      Partition.intern, Option.bind_some, ih, Option.map_bind, Function.comp_def]

omit [Descent NumKey] in
theorem valuesRest_linked (h : Nat) (attr : MetaAttribute) (rest : List Enter) (part : Partition)
    (leaf : AttrLeaf FileObjPair) :
    valuesRest h attr rest none (part.link attr.attrName leaf) =
      (valuesLoop h attr rest part leaf).map fun r => r.1.link attr.attrName r.2 := by
  induction rest generalizing part leaf with
  | nil => rfl
  | cons enter rest ih =>
    have hleaf (part : Partition) (leaf : AttrLeaf FileObjPair) :
        (part.link attr.attrName leaf).leafAt attr.attrName none = some leaf := by
      simp only [Partition.leafAt, Partition.link, AssocMap.search_insert, if_true]
    have hstore (part : Partition) (leaf leaf' : AttrLeaf FileObjPair) :
        (part.link attr.attrName leaf).store attr.attrName none leaf' = (part.link attr.attrName leaf', none) := by
      simp only [Partition.store, Partition.link, AssocMap.insert_insert]
    have hintern (part : Partition) (leaf : AttrLeaf FileObjPair) (files objects : LinkedList) :
        (part.link attr.attrName leaf).intern files objects = (part.intern files objects).link attr.attrName leaf := rfl
    simp only [valuesRest, valuesLoop, enteredRest, filedRest, pairedRest, hleaf, hstore, hintern, ih, Option.bind_some,
      Option.map_bind, Function.comp_def]
    rfl

omit [Descent NumKey] in
theorem makeFileObjPair_intern {idx : IndexAnchor} {h : Nat} {part : Partition} (hp : idx.partitions[h]? = some part)
    (filePath objPath : CharPtr) :
    makeFileObjPair idx h filePath objPath =
      (insertTaggedValue part.filePathsList filePath).bind fun f =>
        (insertTaggedValue part.objectPathsList objPath).map fun o =>
          (idx.setPartition h (part.intern f.1 o.1), ⟨h, f.2, o.2⟩) := by
  simp only [makeFileObjPair, insertFilePath, hp, Option.bind_eq_bind, Option.bind_some]
  cases insertTaggedValue part.filePathsList filePath with
  | none => rfl
  | some f =>
    have hp' := getElem?_setPartition hp { part with filePathsList := f.1 } h
    simp only [if_true] at hp'
    simp only [insertObjectPath, hp', Option.bind_eq_bind, Option.bind_some]
    cases insertTaggedValue part.objectPathsList objPath with
    | none => rfl
    | some o =>
      simp only [Option.bind_some, Option.map_some, setPartition_setPartition]
      rfl

omit [Descent NumKey] in
theorem foldlM_valuesLoop {idx : IndexAnchor} {h : Nat} {part : Partition} (hp : idx.partitions[h]? = some part)
    (attr : MetaAttribute) (rest : List Enter) (leaf : AttrLeaf FileObjPair) :
    rest.foldlM (fun (s : IndexAnchor × AttrLeaf FileObjPair) enter => do
      let (idx, pair) ← makeFileObjPair s.1 h attr.filePathStr attr.objPathStr
      let leafCnt ← (enter s.2).bind fun r => r.1.pushEntry r.2 pair
      some (idx, leafCnt)) (idx, leaf) =
    (valuesLoop h attr rest part leaf).map fun r => (idx.setPartition h r.1, r.2) := by
  induction rest generalizing idx part leaf with
  | nil => simp [valuesLoop, setPartition_self hp]
  | cons enter rest ih =>
    rw [List.foldlM_cons, valuesLoop, makeFileObjPair_intern hp]
    cases insertTaggedValue part.filePathsList attr.filePathStr with
    | none => simp
    | some f =>
      cases insertTaggedValue part.objectPathsList attr.objPathStr with
      | none => simp
      | some o =>
        simp only [Option.bind_eq_bind, Option.bind_some, Option.map_some]
        -- the value is entered before the paths are interned, which does not change what is stored
        rw [← Option.bind_assoc]
        cases (enter leaf).bind fun r => r.1.pushEntry r.2 ⟨h, f.2, o.2⟩ with
        | none => rfl
        | some leaf' =>
          have hp' := getElem?_setPartition hp (part.intern f.1 o.1) h
          simp only [if_true] at hp'
          have hrest := ih hp' leaf'
          simp only [Option.bind_eq_bind, setPartition_setPartition] at hrest
          exact hrest

theorem indexingByType_rounds {idx : IndexAnchor} {h : Nat} {part : Partition} (hp : idx.partitions[h]? = some part)
    (attr : MetaAttribute) (leaf : AttrLeaf FileObjPair) :
    indexingByType h attr (idx, leaf) =
      (valuesLoop h attr (rounds attr) part (prepare attr leaf)).map fun r => (idx.setPartition h r.1, r.2) := by
  rw [← foldlM_valuesLoop hp]
  obtain ⟨name, value, filePath, objPath⟩ := attr
  cases value with
  | unknown n => rfl
  | _ =>
    simp only [rounds, List.foldlM_map, ← AttrLeaf.pushNumeric_eq_enter, ← AttrLeaf.pushString_eq_enter]
    rfl

/-- The accesses together are `create_in_mem_index_for_attr`. -/
theorem createInMemIndexForAttr_rest {idx : IndexAnchor} {h : Nat} {part : Partition} {attr : MetaAttribute}
    (hh : djb2Hash attr.attrName % idx.parallelism = h) (hp : idx.partitions[h]? = some part) :
    createInMemIndexForAttr idx attr =
      (indexRest h attr .begin part).map fun r => idx.setPartition h r.1 := by
  have hlink : ∀ (part' : Partition) (leaf : AttrLeaf FileObjPair),
      (idx.setPartition h part').linkLeaf h attr.attrName leaf =
        some (idx.setPartition h (part'.link attr.attrName leaf)) := by
    intro part' leaf
    have hp' := getElem?_setPartition hp part' h
    simp only [if_true] at hp'
    simp only [IndexAnchor.linkLeaf, hp', Option.bind_eq_bind, Option.bind_some, setPartition_setPartition]
    rfl
  rw [createInMemIndexForAttr, hh, hp, indexRest, Partition.begin]
  simp only [Option.bind_eq_bind, Option.bind_some]
  cases hs : AssocMap.search part.rootArt attr.attrName with
  | some leaf =>
    simp only [Partition.store, valuesRest_linked, indexingByType_rounds hp, Option.bind_map, Option.map_map,
      Function.comp_def, hlink]
    exact Option.map_eq_bind.symm
  | none =>
    simp only [indexingByType_rounds hp, Option.bind_map, Function.comp_def, hlink, Option.map_map]
    cases hart : (newLeaf attr.attributeValue.type : AttrLeaf FileObjPair × Bool).2 with
    | true =>
      simp only [if_true, Partition.store, valuesRest_linked, Option.map_map, Function.comp_def]
      exact Option.map_eq_bind.symm
    | false =>
      simp only [Bool.false_eq_true, if_false, Partition.store, valuesRest_own, Option.map_map, Function.comp_def]
      exact Option.map_eq_bind.symm

/-- The pairs found under a name are those of its partition. -/
theorem pairs_at_home {p : Nat} {idx : IndexAnchor} {part : Partition} (hi : IndexOk p idx) {n : CString}
    (hp : idx.partitions[djb2Hash n % p]? = some part) {value : QueryValue} {pairs : List FileObjPair}
    (hpairs : part.pairsAt n value = some pairs) : ∀ pair ∈ pairs, pair.parallelIndexPos = djb2Hash n % p := by
  obtain ⟨I, hr⟩ := hi
  obtain ⟨leaf, hleaf, hsearch⟩ := Option.bind_eq_some_iff.mp hpairs
  exact parallelIndexPos_of_search (hr.partition _ part hp) hleaf (Option.join_eq_some_iff.mp hsearch)

theorem exactMetadataSearch_rest {p : Nat} {idx : IndexAnchor} {part : Partition} (hi : IndexOk p idx) {n : CString}
    (hp : idx.partitions[djb2Hash n % p]? = some part) (value : QueryValue) :
    searchRest (djb2Hash n % p) n value .begin part =
      (exactMetadataSearch idx n value).map fun rst => (part, some rst) := by
  have hsearch : exactMetadataSearch idx n value =
      (part.pairsAt n value).bind fun pairs => pairs.mapM (collectResultFromList idx) := by
    simp only [exactMetadataSearch, attributeValueSearch, hi.partition_eq, hp, Option.bind_eq_bind, Option.bind_some,
      Partition.pairsAt]
    cases AssocMap.search part.rootArt n with
    | none => rfl
    | some leaf =>
      cases hnode : leaf.search value with
      | none => simp [hnode]
      | some node => cases node <;> simp [hnode]
  rw [hsearch, searchRest, Option.map_bind]
  cases hpairs : part.pairsAt n value with
  | none => rfl
  | some pairs =>
    have hcollect : pairs.mapM (part.collect (djb2Hash n % p)) = pairs.mapM (collectResultFromList idx) := by
      apply mapM_congr_of_mem
      intro pair hpair
      have hpos := pairs_at_home hi hp hpairs pair hpair
      rw [Partition.collect, if_pos hpos, collectResultFromList, hpos, hp]
      rfl
    simp only [Option.bind_some, Function.comp_apply, hcollect]

structure Holds (p : Nat) (s : Nat → Partition) (idx : IndexAnchor) : Prop where
  ok : IndexOk p idx
  parts : ∀ h < p, idx.partitions[h]? = some (s h)

section Perform
variable {p : Nat} {s s' : Nat → Partition} {idx : IndexAnchor} {out : Option (List SearchRstEntry)}

theorem Holds.perform_index (hpos : 0 < p) (h : Holds p s idx) {a : Attribute}
    (hs : (sections p).perform s (.index a) = some (s', out)) :
    ∃ idx', Call.perform idx (.index a) = some (idx', out) ∧ Holds p s' idx' := by
  have hpart := h.parts (djb2Hash a.attrName % p) (Nat.mod_lt _ hpos)
  have hcall := @createInMemIndexForAttr_rest _ idx _ _ a.toMeta (h.ok.partition_eq a.attrName) hpart
  change ((indexRest (djb2Hash a.attrName % p) a.toMeta .begin (s (djb2Hash a.attrName % p))).map fun r =>
    (Function.update s (djb2Hash a.attrName % p) r.1, r.2)) = some (s', out) at hs
  obtain ⟨⟨part', out'⟩, hrest, heq⟩ := Option.map_eq_some_iff.mp hs
  obtain ⟨rfl, rfl⟩ := Prod.mk.inj heq
  obtain ⟨part, -, heq⟩ := Option.map_eq_some_iff.mp hrest
  obtain ⟨rfl, rfl⟩ := Prod.mk.inj heq
  rw [hrest, Option.map_some] at hcall
  have hperform : Call.perform idx (.index a) = some (idx.setPartition (djb2Hash a.attrName % p) part, none) := by
    simp only [Call.perform, hcall, Option.map_some]
  refine ⟨_, hperform, perform_keeps hpos h.ok hperform, fun k hk => ?_⟩
  rw [getElem?_setPartition hpart, Function.update_apply]
  split_ifs with h₁ h₂ h₂
  · rfl
  · exact absurd h₁.symm h₂
  · exact absurd h₂.symm h₁
  · exact h.parts k hk

theorem Holds.perform_search (hpos : 0 < p) (h : Holds p s idx) {n : CString} {value : QueryValue}
    (hs : (sections p).perform s (.search n value) = some (s', out)) :
    ∃ idx', Call.perform idx (.search n value) = some (idx', out) ∧ Holds p s' idx' := by
  have hpart := h.parts (djb2Hash n % p) (Nat.mod_lt _ hpos)
  change ((searchRest (djb2Hash n % p) n value .begin (s (djb2Hash n % p))).map fun r =>
    (Function.update s (djb2Hash n % p) r.1, r.2)) = some (s', out) at hs
  rw [exactMetadataSearch_rest h.ok hpart, Option.map_map] at hs
  obtain ⟨rst, hrst, heq⟩ := Option.map_eq_some_iff.mp hs
  obtain ⟨rfl, rfl⟩ := Prod.mk.inj heq
  refine ⟨idx, by simp only [Call.perform, hrst, Option.map_some], ?_⟩
  rw [Function.update_eq_self]
  exact h

/-- What the accesses of a call do together is what the call does to the index. -/
theorem Holds.perform (hpos : 0 < p) (h : Holds p s idx) {call : Call}
    (hs : (sections p).perform s call = some (s', out)) :
    ∃ idx', call.perform idx = some (idx', out) ∧ Holds p s' idx' := by
  cases call with
  | index a => exact h.perform_index hpos hs
  | search n value => exact h.perform_search hpos hs

theorem Holds.index_isSome (hpos : 0 < p) (h : Holds p s idx) (a : Attribute) :
    ((sections p).perform s (.index a)).isSome := by
  have hpart := h.parts (djb2Hash a.attrName % p) (Nat.mod_lt _ hpos)
  have hcall := @createInMemIndexForAttr_rest _ idx _ _ a.toMeta (h.ok.partition_eq a.attrName) hpart
  obtain ⟨I, hr⟩ := h.ok
  obtain ⟨idx', hs, -, -⟩ := hr.step hpos a
  obtain ⟨r, hrest, -⟩ := Option.map_eq_some_iff.mp (hcall.symm.trans hs)
  change ((indexRest (djb2Hash a.attrName % p) a.toMeta .begin (s (djb2Hash a.attrName % p))).map _).isSome
  rw [hrest]
  rfl

end Perform

def noPartitions (_ : Nat) : Partition := ⟨[], [], []⟩

omit [Descent NumKey] in
theorem holds_init (p : Nat) : Holds p noPartitions (initInMemIndex p) where
  ok := ⟨_, represents_init p⟩
  parts h hh := by
    change (List.replicate p _)[h]? = _
    rw [List.getElem?_replicate_of_lt hh]
    rfl

variable {ι : Type} [DecidableEq ι]

abbrev LockedState (ι : Type) := State Nat Partition Point Call (Option (List SearchRstEntry)) ι

def LockedReach (p : Nat) (programs : ι → List Call) (m : LockedState ι) : Prop :=
  Reached (sections p) noPartitions programs m

theorem LockedReach.refines {p : Nat} (hpos : 0 < p) {programs : ι → List Call} {m : LockedState ι}
    (h : LockedReach p programs m) :
    ∃ s idx, ReachedBy p programs ⟨idx, m.todo, m.log⟩ ∧ Holds p s idx ∧ Serves (sections p) m s := by
  obtain ⟨s, hrun, hserves⟩ := Reached.serves h
  obtain ⟨idx, hrun', hholds⟩ := hrun.simulate (Holds p) (fun _ _ _ _ _ hst hop => hst.perform hpos hop) (holds_init p)
  exact ⟨s, idx, hrun', hholds, hserves⟩

/-- The locks make the calls atomic: whatever the order of the accesses, there is an index that the calls
that have ended produce one after another, with the outcomes they had, and a partition in which nobody is
indexing is the partition of that index. A thread that indexes is alone in its partition, and no search
reads the path tables of a partition it has not locked. -/
theorem locked_calls_are_atomic {p : Nat} (hpos : 0 < p) {programs : ι → List Call} {m : LockedState ι}
    (h : LockedReach p programs m) :
    (∃ idx, ReachedBy p programs ⟨idx, m.todo, m.log⟩ ∧ ∀ k < p,
      (∀ i call l, m.place i = .inside call l → call.partition p = k → ¬ call.IsIndex) →
        idx.partitions[k]? = some (m.component k)) ∧
    (∀ i j call call' l l', i ≠ j → m.place i = .inside call l → m.place j = .inside call' l' →
      call.partition p = call'.partition p → ¬ call.IsIndex) ∧
    ∀ i n value l pairs, m.place i = .inside (.search n value) l →
      (m.component (djb2Hash n % p)).pairsAt n value = some pairs →
        ∀ pair ∈ pairs, pair.parallelIndexPos = djb2Hash n % p := by
  obtain ⟨s, idx, hrun, hholds, hserves⟩ := h.refines hpos
  refine ⟨⟨idx, hrun, fun k hk hidle => ?_⟩, ?_, ?_⟩
  · rw [hholds.parts k hk, hserves.idle k hidle]
  · intro i j call call' l l' hij hi hj hhome
    exact (hserves.exclusive hij hi hj hhome).1
  · intro i n value l pairs hi hpairs
    have hsame : m.component (djb2Hash n % p) = s (djb2Hash n % p) :=
      hserves.component_eq_of_reader hi (fun hw => hw)
    rw [hsame] at hpairs
    exact pairs_at_home hholds.ok (hholds.parts _ (Nat.mod_lt _ hpos)) hpairs

omit [Descent NumKey] in
/-- One thread indexes in its partition while another one is in the middle of its call. -/
theorem locked_calls_are_atomic_two_threads :
    0 < 2 ∧ ∃ m : LockedState Bool, @LockedReach .oldest Bool _ 2
        (fun i => [.index (cond i siblingAttribute sampleAttribute)]) m ∧
      m.place false = .inside (.index sampleAttribute) (.values none (@rounds .oldest sampleAttribute.toMeta)) ∧
      m.log = [(.index siblingAttribute, none)] ∧
      ∃ idx, @ReachedBy .oldest Bool _ 2 (fun i => [.index (cond i siblingAttribute sampleAttribute)])
        ⟨idx, m.todo, m.log⟩ := by
  have hboth : @LockedReach .oldest Bool _ 2 (fun i => [.index (cond i siblingAttribute sampleAttribute)]) _ :=
    ((Relation.ReflTransGen.single (Step.acquire (i := false) rfl rfl fun _ _ _ hj => by cases hj)).tail
      (Step.access (i := false) rfl rfl)).tail (Step.acquire (i := true) rfl rfl fun j _ _ hj hhome => by
        cases j
        · cases hj
          exact absurd hhome (by decide)
        · cases hj)
  have hended : @LockedReach .oldest Bool _ 2 (fun i => [.index (cond i siblingAttribute sampleAttribute)]) _ :=
    (((((hboth.tail (Step.access (i := true) rfl rfl)).tail (Step.access (i := true) rfl rfl)).tail
      (Step.access (i := true) rfl rfl)).tail (Step.access (i := true) rfl rfl)).tail
        (Step.access (i := true) rfl rfl)).tail (Step.release (i := true) rfl rfl)
  obtain ⟨⟨idx, hrun, -⟩, -⟩ := @locked_calls_are_atomic .oldest Bool _ 2 (by decide) _ _ hended
  exact ⟨by decide, _, hended, rfl, rfl, idx, hrun⟩

end Miqs.Index
