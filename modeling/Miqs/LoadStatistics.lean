import Mathlib.Algebra.BigOperators.Group.List.Basic
import Miqs.AofLog
import Miqs.AttrRegion
import Miqs.MdbLoad

/-! What a load adds to the totals of the anchor: the counters of the reader against what is in
the file, for every index of one partition that the program can build. -/
namespace Miqs.Index
open Miqs.CData Miqs.BinFileOps Miqs.KeyedTree Miqs.TokenStream Miqs.Runs
variable [Descent NumKey]

structure LoadedCounts where
  numKvPairsLoadedMdb : Nat
  numAttrsLoadedMdb : Nat
  deriving DecidableEq

section Load
variable {S : Type} [TokenSource S Field]

/-- One round of the loading loop: both counters are set anew, that of the attributes to the
address of the count, which is `numAttrs i` in round `i`. -/
def readPartitionCounted (numAttrs : Nat → Nat) (s : (IndexAnchor × LoadedCounts) × DiskStream S)
    (i : Nat) : Option ((IndexAnchor × LoadedCounts) × DiskStream S) := do
  let ((idx, numKvPairs), d) ← readPartition ((s.1.1, s.1.2.numKvPairsLoadedMdb), s.2) i
  some ((idx, ⟨numKvPairs, numAttrs i⟩), d)

def loadMdbFileCounted (numAttrs : Nat → Nat) (counts : LoadedCounts) (file : S)
    (idxAnchor : Option IndexAnchor) : Option ((IndexAnchor × LoadedCounts) × DiskStream S) := do
  let (parallelism, d) := miqsReadSizeT (DiskStream.mk file false)
  let idx ← loadAnchor idxAnchor parallelism
  let ((idx, counts), d) ←
    (List.range idx.parallelism).foldlM (readPartitionCounted numAttrs) ((idx, counts), d)
  some ((idx.countLoaded counts.numKvPairsLoadedMdb counts.numAttrsLoadedMdb, counts), d)

/-- The counters that are found do not matter to a round. -/
theorem readPartitionCounted_eq (numAttrs : Nat → Nat)
    (s : (IndexAnchor × LoadedCounts) × DiskStream S) (n i : Nat) :
    readPartitionCounted numAttrs s i = (readPartition ((s.1.1, n), s.2) i).map
      fun r => ((r.1.1, ⟨r.1.2, numAttrs i⟩), r.2) := by
  change (readPartition ((s.1.1, n), s.2) i).bind _ = _
  cases readPartition ((s.1.1, n), s.2) i <;> rfl

end Load

structure LeafSound (leaf : AttrLeaf FileObjPair) : Prop where
  readable : Readable leaf
  numbers : ∀ t, leaf.rbt = some t → ∀ e ∈ t.nodes, e.2 ≠ []
  strings : ∀ m, leaf.art = some m → (m.map Prod.fst).Nodup ∧ ∀ e ∈ m, e.2 ≠ []

theorem LeafSound.pushNumeric {leaf leaf' : AttrLeaf FileObjPair} (h : LeafSound leaf)
    {attrVal : NumericArray} {i : Nat} {pair : FileObjPair}
    (hpush : leaf.pushNumeric (leaf.numericKey attrVal i) pair = some leaf') : LeafSound leaf' := by
  obtain ⟨t, ht, rfl⟩ := Option.map_eq_some_iff.mp hpush
  have hnodes : ∀ e ∈ (t.pushValue (leaf.numericKey attrVal i) pair).nodes, e.2 ≠ [] :=
    nonempty_pushAll (h.numbers t ht) [(leaf.numericKey attrVal i, pair)]
  refine ⟨?_, ?_, h.strings⟩
  · cases h.readable with
    | numeric float nodes art fits =>
      obtain rfl := Option.some.inj ht
      have hkey : ∀ k ∈ [AttrLeaf.numericKey ⟨true, float, some ⟨numericCmp float, nodes⟩, art⟩ attrVal i],
          keyFits float k := by
        intro k hk
        obtain rfl := List.mem_singleton.mp hk
        cases float <;> rfl
      exact Readable.numeric float _ art
        (@keyFits_pushValues _ _ ⟨numericCmp float, nodes⟩ float fits _ hkey pair)
    | string float nodes rbt distinct => exact Readable.string float nodes _ distinct
  · intro t' ht'
    obtain rfl := Option.some.inj ht'
    exact hnodes

omit [Descent NumKey] in
theorem LeafSound.prepareString {leaf : AttrLeaf FileObjPair} (h : LeafSound leaf) :
    LeafSound leaf.prepareString := by
  have hart : ((leaf.art.getD []).map Prod.fst).Nodup ∧ ∀ e ∈ leaf.art.getD [], e.2 ≠ [] := by
    cases hm : leaf.art with
    | none => simp
    | some m => exact h.strings m hm
  refine ⟨Readable.string false _ leaf.rbt hart.1, h.numbers, ?_⟩
  intro m hm
  obtain rfl := Option.some.inj hm
  exact hart

omit [Descent NumKey] in
theorem LeafSound.pushString {leaf leaf' : AttrLeaf FileObjPair} (h : LeafSound leaf)
    (hnum : leaf.isNumeric = false) {s : CString} {pair : FileObjPair}
    (hpush : leaf.pushString s pair = some leaf') : LeafSound leaf' ∧ leaf'.isNumeric = false := by
  obtain ⟨m, hm, rfl⟩ := Option.map_eq_some_iff.mp hpush
  obtain ⟨hnodup, hne⟩ := h.strings m hm
  have hnodup' : ((m.pushValue s pair).map Prod.fst).Nodup := AssocMap.nodup_insert hnodup s _
  have hne' : ∀ e ∈ m.pushValue s pair, e.2 ≠ [] := by
    intro e he
    rcases AssocMap.mem_insert he with rfl | he
    · simp
    · exact hne e he
  refine ⟨⟨?_, h.numbers, ?_⟩, hnum⟩
  · obtain ⟨isNumeric, isFloat, rbt, art⟩ := leaf
    obtain rfl : isNumeric = false := hnum
    exact Readable.string isFloat _ rbt hnodup'
  · intro m' hm'
    obtain rfl := Option.some.inj hm'
    exact ⟨hnodup', hne'⟩

omit [Descent NumKey] in
theorem leafSound_newLeaf {type : AttrType} (h : type ≠ .unknown) :
    LeafSound (newLeaf type : AttrLeaf FileObjPair × Bool).1 := by
  have hnone : ∀ cmp : CmpKeys, ∀ t, some (Rbt.create cmp) = some t → ∀ e ∈ t.nodes,
      (e.2 : List FileObjPair) ≠ [] := by
    intro cmp t ht
    obtain rfl := Option.some.inj ht
    simp [Rbt.create]
  cases type with
  | integer =>
    exact ⟨Readable.numeric false [] none (by simp), hnone .int, by simp [newLeaf]⟩
  | float =>
    exact ⟨Readable.numeric true [] none (by simp), hnone .double, by simp [newLeaf]⟩
  | string => exact ⟨Readable.string false [] none (by simp), by simp [newLeaf], by simp [newLeaf]⟩
  | unknown => exact absurd rfl h

structure IndexSound (idx : IndexAnchor) : Prop where
  one : idx.parallelism = 1
  leaves : ∀ part ∈ idx.partitions, ∀ e ∈ part.rootArt, LeafSound e.2

omit [Descent NumKey] in
theorem IndexSound.setPartition {idx : IndexAnchor} (h : IndexSound idx) {part : Partition} (i : Nat)
    (hpart : ∀ e ∈ part.rootArt, LeafSound e.2) : IndexSound (idx.setPartition i part) where
  one := by
    have hone := h.one
    simpa [IndexAnchor.parallelism, IndexAnchor.setPartition] using hone
  leaves := by
    intro part' hpart'
    rcases List.mem_or_eq_of_mem_set hpart' with hmem | rfl
    · exact h.leaves part' hmem
    · exact hpart

omit [Descent NumKey] in
theorem IndexSound.makeFileObjPair {idx idx' : IndexAnchor} (h : IndexSound idx) {i : Nat}
    {filePath objPath : CharPtr} {pair : FileObjPair}
    (hmake : makeFileObjPair idx i filePath objPath = some (idx', pair)) : IndexSound idx' := by
  rw [Index.makeFileObjPair] at hmake
  obtain ⟨⟨idx₁, filePos⟩, hfile, hmake⟩ := Option.bind_eq_some_iff.mp hmake
  obtain ⟨⟨idx₂, objPos⟩, hobject, hmake⟩ := Option.bind_eq_some_iff.mp hmake
  obtain ⟨rfl, rfl⟩ := Prod.mk.inj (Option.some.inj hmake)
  obtain ⟨part, hpart, hfile⟩ := Option.bind_eq_some_iff.mp hfile
  obtain ⟨files, -, hfile⟩ := Option.bind_eq_some_iff.mp hfile
  obtain ⟨rfl, rfl⟩ := Prod.mk.inj (Option.some.inj hfile)
  have hsound : IndexSound (idx.setPartition i { part with filePathsList := files.1 }) :=
    h.setPartition i (h.leaves part (List.mem_of_getElem? hpart))
  obtain ⟨part', hpart', hobject⟩ := Option.bind_eq_some_iff.mp hobject
  obtain ⟨objects, -, hobject⟩ := Option.bind_eq_some_iff.mp hobject
  obtain ⟨rfl, rfl⟩ := Prod.mk.inj (Option.some.inj hobject)
  exact hsound.setPartition i (hsound.leaves part' (List.mem_of_getElem? hpart'))

omit [Descent NumKey] in
theorem IndexSound.linkLeaf {idx idx' : IndexAnchor} (h : IndexSound idx) {i : Nat} {name : CString}
    {leaf : AttrLeaf FileObjPair} (hleaf : LeafSound leaf) (hlink : idx.linkLeaf i name leaf = some idx') :
    IndexSound idx' := by
  obtain ⟨part, hpart, hlink⟩ := Option.bind_eq_some_iff.mp hlink
  obtain rfl := Option.some.inj hlink
  apply h.setPartition
  intro e he
  rcases AssocMap.mem_insert he with rfl | he
  · exact hleaf
  · exact h.leaves part (List.mem_of_getElem? hpart) e he

theorem indexingByType_sound {i : Nat} {attr : MetaAttribute} {idx idx' : IndexAnchor}
    {leaf leaf' : AttrLeaf FileObjPair} (hidx : IndexSound idx) (hleaf : LeafSound leaf)
    (h : indexingByType i attr (idx, leaf) = some (idx', leaf')) : IndexSound idx' ∧ LeafSound leaf' := by
  have hnumeric : ∀ (attrVal : NumericArray) (n : Nat),
      indexingNumeric i attrVal n attr.filePathStr attr.objPathStr (idx, leaf) = some (idx', leaf') →
        IndexSound idx' ∧ LeafSound leaf' := by
    intro attrVal n hrun
    refine foldlM_invariant (fun s => IndexSound s.1 ∧ LeafSound s.2) _ ?_ (List.range n)
      (idx, leaf) (idx', leaf') ⟨hidx, hleaf⟩ hrun
    intro s j s' hs hstep
    obtain ⟨⟨idx₁, pair⟩, hmake, hstep⟩ := Option.bind_eq_some_iff.mp hstep
    obtain ⟨leaf₁, hpush, hstep⟩ := Option.bind_eq_some_iff.mp hstep
    obtain rfl := Option.some.inj hstep
    exact ⟨hs.1.makeFileObjPair hmake, hs.2.pushNumeric hpush⟩
  rw [indexingByType] at h
  cases hvalue : attr.attributeValue with
  | integer vals beyond => exact hnumeric _ _ (by rwa [hvalue] at h)
  | float vals => exact hnumeric _ _ (by rwa [hvalue] at h)
  | unknown n =>
    rw [hvalue] at h
    obtain ⟨rfl, rfl⟩ := Prod.mk.inj (Option.some.inj h)
    exact ⟨hidx, hleaf⟩
  | string vals =>
    rw [hvalue] at h
    have hend := foldlM_invariant
      (fun s : IndexAnchor × AttrLeaf FileObjPair => IndexSound s.1 ∧ LeafSound s.2 ∧ s.2.isNumeric = false)
      _ ?_ vals (idx, leaf.prepareString) (idx', leaf') ⟨hidx, hleaf.prepareString, rfl⟩ h
    · exact ⟨hend.1, hend.2.1⟩
    · intro s val s' hs hstep
      obtain ⟨⟨idx₁, pair⟩, hmake, hstep⟩ := Option.bind_eq_some_iff.mp hstep
      obtain ⟨leaf₁, hpush, hstep⟩ := Option.bind_eq_some_iff.mp hstep
      obtain rfl := Option.some.inj hstep
      exact ⟨hs.1.makeFileObjPair hmake, hs.2.1.pushString hs.2.2 hpush⟩

theorem IndexSound.createInMemIndexForAttr {idx idx' : IndexAnchor} {attr : MetaAttribute}
    (h : IndexSound idx) (hrun : createInMemIndexForAttr idx attr = some idx') : IndexSound idx' := by
  rw [Index.createInMemIndexForAttr] at hrun
  obtain ⟨part, hpart, hrun⟩ := Option.bind_eq_some_iff.mp hrun
  cases hsearch : AssocMap.search part.rootArt attr.attrName with
  | some leaf =>
    rw [hsearch] at hrun
    obtain ⟨⟨idx₁, leaf₁⟩, hindex, hlink⟩ := Option.bind_eq_some_iff.mp hrun
    have hleaf := h.leaves part (List.mem_of_getElem? hpart) _ (AssocMap.mem_of_search hsearch)
    obtain ⟨hidx₁, hleaf₁⟩ := indexingByType_sound h hleaf hindex
    exact hidx₁.linkLeaf hleaf₁ hlink
  | none =>
    rw [hsearch] at hrun
    obtain ⟨⟨idx₁, leaf₁⟩, hindex, hlink⟩ := Option.bind_eq_some_iff.mp hrun
    by_cases htype : attr.attributeValue.type = .unknown
    · -- nothing is stored
      cases hvalue : attr.attributeValue with
      | unknown n =>
        simp only [indexingByType, hvalue, Option.some.injEq, Prod.mk.injEq] at hindex
        rw [htype] at hlink
        obtain rfl := Option.some.inj hlink
        rwa [← hindex.1]
      | integer vals beyond => simp [hvalue, AttrValue.type] at htype
      | float vals => simp [hvalue, AttrValue.type] at htype
      | string vals => simp [hvalue, AttrValue.type] at htype
    · obtain ⟨hidx₁, hleaf₁⟩ := indexingByType_sound h (leafSound_newLeaf htype) hindex
      dsimp only at hlink
      split_ifs at hlink
      · exact hidx₁.linkLeaf hleaf₁ hlink
      · obtain rfl := Option.some.inj hlink
        exact hidx₁

variable [AssocMap.Iteration CString]

omit [Descent NumKey] [AssocMap.Iteration CString] in
theorem mapM_appendPath {list : LinkedList} {fields : List (List Field)}
    (h : list.mapM appendPath = some fields) :
    ∃ paths : List (CString × Nat), list.length = paths.length ∧ fields = paths.map pathFields := by
  induction list generalizing fields with
  | nil =>
    obtain rfl := Option.some.inj h
    exact ⟨[], rfl, rfl⟩
  | cons item list ih =>
    rw [List.mapM_cons] at h
    obtain ⟨field, hitem, h⟩ := Option.bind_eq_some_iff.mp h
    obtain ⟨rest, hrest, h⟩ := Option.bind_eq_some_iff.mp h
    obtain rfl := Option.some.inj h
    obtain ⟨paths, hlen, rfl⟩ := ih hrest
    cases item with
    | none => simp [appendPath] at hitem
    | some tagv =>
      obtain ⟨tag, value⟩ := tagv
      obtain ⟨tagFields, htag, rfl⟩ := Option.map_eq_some_iff.mp hitem
      rcases tag with - | - | path
      · simp [miqsAppendString] at htag
      · simp [miqsAppendString] at htag
      · obtain rfl := Option.some.inj htag
        exact ⟨(path, value) :: paths, by simp [hlen], rfl⟩

omit [Descent NumKey] [AssocMap.Iteration CString] in
/-- A path list that can be written is a sequence of paths. -/
theorem appendPathList_eq_some {list : LinkedList} {fields : List Field}
    (h : appendPathList list = some fields) : ∃ paths : List (CString × Nat),
      fields = miqsAppendSizeT paths.length ++ paths.flatMap pathFields := by
  rw [appendPathList] at h
  obtain ⟨items, hitems, h⟩ := Option.bind_eq_some_iff.mp h
  obtain rfl := Option.some.inj h
  obtain ⟨paths, hlen, rfl⟩ := mapM_appendPath hitems
  exact ⟨paths, by rw [hlen, List.flatMap_def]⟩

/-- What is written for the two path lists and the name tree. -/
theorem dumpMdbIndexToDisk_one {J : IndexAnchor} (hJ : IndexSound J) {part : Partition}
    (hpart : J.partitions = [part]) {file : List Field} (h : dumpMdbIndexToDisk J = some file) :
    ∃ files objects : List (CString × Nat),
      file = miqsAppendSizeT 1 ++ partitionRegion files objects part.rootArt := by
  have htree : appendAttrRootTree part.rootArt = some (attrRegion part.rootArt) :=
    appendAttrRootTree_eq fun e he => (hJ.leaves part (by simp [hpart]) e he).readable.appendAttrValues_isSome
  rw [dumpMdbIndexToDisk, IndexAnchor.parallelism, hpart] at h
  obtain ⟨regions, hregions, h⟩ := Option.bind_eq_some_iff.mp h
  obtain rfl := Option.some.inj h
  rw [List.mapM_cons, List.mapM_nil] at hregions
  obtain ⟨region, hregion, hregions⟩ := Option.bind_eq_some_iff.mp hregions
  obtain rfl := Option.some.inj hregions
  rw [appendPartition, hpart] at hregion
  obtain ⟨fileFields, hfiles, hregion⟩ := Option.bind_eq_some_iff.mp hregion
  obtain ⟨objectFields, hobjects, hregion⟩ := Option.bind_eq_some_iff.mp hregion
  obtain ⟨files, rfl⟩ := appendPathList_eq_some hfiles
  obtain ⟨objects, rfl⟩ := appendPathList_eq_some hobjects
  refine ⟨files, objects, ?_⟩
  simp only [List.mapM_cons, List.mapM_nil, htree, Option.bind_eq_bind, Option.bind_some,
    Option.pure_def, Option.some.injEq] at hregion
  rw [← hregion]
  simp [partitionRegion]

theorem LeafSound.reload {leaf : AttrLeaf FileObjPair} (h : LeafSound leaf) : LeafSound leaf.reload := by
  have hpairs : ∀ list : List FileObjPair, list ≠ [] → reloadPairs list ≠ [] := by
    intro list hne
    simpa [reloadPairs] using hne
  obtain ⟨hread, hnumbers, hstrings⟩ := h
  cases hread with
  | numeric float nodes art fits =>
    have hwalk : (walk (numericCmp float).eval nodes).Perm nodes := walk_perm nodes
    have hall : ∀ e ∈ mapValues reloadPairs (walk (numericCmp float).eval nodes),
        keyFits float e.1 ∧ e.2 ≠ [] := by
      intro e he
      obtain ⟨e', he', rfl⟩ := List.mem_map.mp he
      have hmem := hwalk.mem_iff.mp he'
      exact ⟨fits e' hmem, hpairs _ (hnumbers _ rfl e' hmem)⟩
    refine ⟨Readable.numeric float _ none ?_, ?_, by simp [AttrLeaf.reload]⟩
    · exact forall_addAll (by simp) fun e he => (hall e he).1
    · intro t ht
      obtain rfl := Option.some.inj ht
      exact forall_addAll (by simp) fun e he => (hall e he).2
  | string float nodes rbt distinct =>
    have hiter : (AssocMap.iter nodes).Perm nodes := AssocMap.iter_perm nodes
    have hkeys : ((AssocMap.mapValues reloadPairs (AssocMap.iter nodes)).map Prod.fst).Nodup := by
      rw [AssocMap.keys_mapValues]
      exact (hiter.map Prod.fst).nodup_iff.mpr distinct
    refine ⟨Readable.string false _ none hkeys, by simp [AttrLeaf.reload], ?_⟩
    intro m hm
    obtain rfl := Option.some.inj hm
    refine ⟨hkeys, ?_⟩
    intro e he
    obtain ⟨e', he', rfl⟩ := List.mem_map.mp he
    exact hpairs _ ((hstrings nodes rfl).2 e' (hiter.mem_iff.mp he'))

omit [Descent NumKey] [AssocMap.Iteration CString] in
theorem IndexSound.foldl_putLeaf {idx : IndexAnchor} (h : IndexSound idx)
    {nodes : List (CString × AttrLeaf FileObjPair)} (hnodes : ∀ node ∈ nodes, LeafSound node.2) :
    IndexSound (nodes.foldl IndexAnchor.putLeaf idx) := by
  induction nodes generalizing idx with
  | nil => exact h
  | cons node nodes ih =>
    have hpos : 0 < idx.parallelism := by rw [h.one]; exact Nat.one_pos
    refine ih (h.linkLeaf (hnodes node (by simp)) (linkLeaf_eq_putLeaf hpos node.1 node.2)) ?_
    intro node' hnode'
    exact hnodes node' (List.mem_cons_of_mem node hnode')

omit [Descent NumKey] [AssocMap.Iteration CString] in
theorem totals_foldl_putLeaf (nodes : List (CString × AttrLeaf FileObjPair)) (idx : IndexAnchor) :
    (nodes.foldl IndexAnchor.putLeaf idx).totalNumAttrs = idx.totalNumAttrs ∧
      (nodes.foldl IndexAnchor.putLeaf idx).totalNumKvPairs = idx.totalNumKvPairs := by
  induction nodes generalizing idx with
  | nil => exact ⟨rfl, rfl⟩
  | cons node nodes ih => exact ih (idx.putLeaf node)

def IndexAnchor.attrNodes (idx : IndexAnchor) : List (AttrLeaf FileObjPair) :=
  idx.partitions.flatMap fun part => part.rootArt.map Prod.snd

def IndexAnchor.valueNodes (idx : IndexAnchor) : List (ValueKey × List FileObjPair) :=
  idx.attrNodes.flatMap AttrLeaf.valueNodes

def IndexAnchor.numEntries (idx : IndexAnchor) : Nat := (idx.valueNodes.map fun v => v.2.length).sum

omit [Descent NumKey] [AssocMap.Iteration CString] in
theorem AttrLeaf.length_valueNodes (leaf : AttrLeaf FileObjPair) :
    leaf.valueNodes.length = leaf.nodeCount := by
  rw [AttrLeaf.valueNodes, AttrLeaf.nodeCount]
  split_ifs <;> rw [List.length_map]

omit [Descent NumKey] in
theorem sum_nodeCount {idx : IndexAnchor} {part : Partition} (h : idx.partitions = [part]) :
    ((AssocMap.iter part.rootArt).map fun node => node.2.nodeCount).sum = idx.valueNodes.length := by
  have hperm := (AssocMap.iter_perm part.rootArt).map fun node => node.2.nodeCount
  rw [hperm.sum_eq, IndexAnchor.valueNodes, IndexAnchor.attrNodes, h, List.flatMap_singleton,
    List.length_flatMap, List.map_map]
  simp only [Function.comp_def, AttrLeaf.length_valueNodes]

omit [Descent NumKey] [AssocMap.Iteration CString] in
theorem IndexSound.pairs_ne_nil {idx : IndexAnchor} (h : IndexSound idx) {v : ValueKey × List FileObjPair}
    (hv : v ∈ idx.valueNodes) : v.2 ≠ [] := by
  obtain ⟨leaf, hleaf, hv⟩ := List.mem_flatMap.mp hv
  obtain ⟨part, hpart, hleaf⟩ := List.mem_flatMap.mp hleaf
  obtain ⟨e, he, rfl⟩ := List.mem_map.mp hleaf
  have hsound := h.leaves part hpart e he
  rw [AttrLeaf.valueNodes] at hv
  split_ifs at hv
  · obtain ⟨node, hnode, rfl⟩ := List.mem_map.mp hv
    cases ht : e.2.rbt with
    | none => simp [ht] at hnode
    | some t => exact hsound.numbers t ht node (by simpa [ht] using hnode)
  · obtain ⟨node, hnode, rfl⟩ := List.mem_map.mp hv
    cases hm : e.2.art with
    | none => simp [hm] at hnode
    | some m => exact (hsound.strings m hm).2 node (by simpa [hm] using hnode)

omit [Descent NumKey] [AssocMap.Iteration CString] in
/-- Lists that are not empty are as many as their elements if each has one. -/
theorem length_eq_sum_length_iff {α β : Type} {l : List (α × List β)} (h : ∀ v ∈ l, v.2 ≠ []) :
    l.length = (l.map fun v => v.2.length).sum ↔ ∀ v ∈ l, v.2.length = 1 := by
  induction l with
  | nil => simp
  | cons v l ih =>
    have hpos := List.length_pos_iff.mpr (h v (by simp))
    have hle : l.length ≤ (l.map fun v => v.2.length).sum := by
      have hones := List.length_le_sum_of_one_le (l.map fun v => v.2.length) (by
        intro n hn
        obtain ⟨v', hv', rfl⟩ := List.mem_map.mp hn
        exact List.length_pos_iff.mpr (h v' (List.mem_cons_of_mem v hv')))
      rwa [List.length_map] at hones
    have hrest := ih fun v' hv' => h v' (List.mem_cons_of_mem v hv')
    rw [List.length_cons, List.map_cons, List.sum_cons, List.forall_mem_cons, ← hrest]
    omega

section OneFile
variable {J : IndexAnchor} (hJ : IndexSound J) {file : List Field}
  (hdump : dumpMdbIndexToDisk J = some file) (numAttrs : Nat → Nat) (counts : LoadedCounts)
  (anchor : Option IndexAnchor)

def loadedInto : IndexAnchor := anchor.getD (initInMemIndex 1)

include hJ hdump

/-- The file is read up to its end in the first round. -/
theorem load_rounds : ∃ d₀,
    loadMdbFileCounted numAttrs counts file anchor =
      (((List.range (loadedInto anchor).parallelism).foldlM (readPartitionCounted numAttrs)
        ((loadedInto anchor, counts), d₀)).map fun r =>
          ((r.1.1.countLoaded r.1.2.numKvPairsLoadedMdb r.1.2.numAttrsLoadedMdb, r.1.2), r.2)) ∧
      (0 < (loadedInto anchor).parallelism → ∃ K : IndexAnchor,
        readPartitionCounted numAttrs ((loadedInto anchor, counts), d₀) 0 =
          some ((K, ⟨J.valueNodes.length, numAttrs 0⟩), ⟨[], false⟩) ∧
        K.totalNumAttrs = (loadedInto anchor).totalNumAttrs ∧
        K.totalNumKvPairs = (loadedInto anchor).totalNumKvPairs ∧
        (IndexSound (loadedInto anchor) → IndexSound K)) := by
  obtain ⟨part, hpart⟩ := List.length_eq_one_iff.mp hJ.one
  obtain ⟨files, objects, rfl⟩ := dumpMdbIndexToDisk_one hJ hpart hdump
  have hhead := miqsReadSizeT_of_delivers (delivers_file (miqsAppendSizeT 1)
    (partitionRegion files objects part.rootArt) false)
  have hanchor : loadAnchor anchor (some 1) = some (loadedInto anchor) := by cases anchor <;> rfl
  refine ⟨⟨partitionRegion files objects part.rootArt, false⟩, ?_, ?_⟩
  · simp only [loadMdbFileCounted, hhead, hanchor, Option.bind_eq_bind, Option.bind_some]
    cases (List.range (loadedInto anchor).parallelism).foldlM (readPartitionCounted numAttrs)
      ((loadedInto anchor, counts), ⟨partitionRegion files objects part.rootArt, false⟩) <;> rfl
  · intro hpos
    obtain ⟨partA, hA⟩ : ∃ partA, (loadedInto anchor).partitions[0]? = some partA :=
      ⟨_, List.getElem?_eq_getElem hpos⟩
    have hleaves := hJ.leaves part (by simp [hpart])
    have hread := readPartition_of_paths hA files objects (fun e he => (hleaves e he).readable) 0
      (delivers_file (partitionRegion files objects part.rootArt) [] false)
    rw [List.append_nil, sum_nodeCount hpart] at hread
    have hcounted := (readPartitionCounted_eq numAttrs ((loadedInto anchor, counts), _) 0 0).trans
      (congrArg _ hread)
    have htotals := totals_foldl_putLeaf ((AssocMap.iter part.rootArt).map reloadNode)
      ((loadedInto anchor).setTables 0 partA (putPaths partA.filePathsList files)
        (putPaths partA.objectPathsList objects))
    refine ⟨_, hcounted, htotals.1, htotals.2, ?_⟩
    intro hsound
    apply IndexSound.foldl_putLeaf
    · have hpartA := hsound.leaves partA (List.mem_of_getElem? hA)
      have htables : IndexSound ((loadedInto anchor).setPartition 0 ⟨partA.rootArt,
          putPaths partA.filePathsList files, putPaths partA.objectPathsList objects⟩) :=
        hsound.setPartition 0 hpartA
      exact ⟨htables.one, htables.leaves⟩
    · intro node hnode
      obtain ⟨e, he, rfl⟩ := List.mem_map.mp hnode
      exact (hleaves e ((AssocMap.iter_perm part.rootArt).mem_iff.mp he)).reload

theorem load_none (hp : (loadedInto anchor).parallelism = 0) : ∃ d,
    loadMdbFileCounted numAttrs counts file anchor =
      some (((loadedInto anchor).countLoaded counts.numKvPairsLoadedMdb counts.numAttrsLoadedMdb,
        counts), d) := by
  obtain ⟨d₀, hload, -⟩ := load_rounds hJ hdump numAttrs counts anchor
  rw [hp] at hload
  exact ⟨d₀, hload⟩

theorem load_once (hp : (loadedInto anchor).parallelism = 1) : ∃ K d,
    loadMdbFileCounted numAttrs counts file anchor =
      some ((K, ⟨J.valueNodes.length, numAttrs 0⟩), d) ∧
    K.totalNumAttrs = (loadedInto anchor).totalNumAttrs + numAttrs 0 ∧
    K.totalNumKvPairs = (loadedInto anchor).totalNumKvPairs + J.valueNodes.length ∧
    (IndexSound (loadedInto anchor) → IndexSound K) := by
  obtain ⟨d₀, hload, hround⟩ := load_rounds hJ hdump numAttrs counts anchor
  obtain ⟨K, hread, hattrs, hpairs, hsound⟩ := hround (by omega)
  rw [hp, List.range_one, List.foldlM_cons, hread] at hload
  refine ⟨K.countLoaded J.valueNodes.length (numAttrs 0), ⟨[], false⟩, hload, ?_, ?_, ?_⟩
  · rw [← hattrs]
    rfl
  · rw [← hpairs]
    rfl
  · intro h
    exact ⟨(hsound h).one, (hsound h).leaves⟩

/-- In a second round there is nothing left to read. -/
theorem load_twice (hp : 2 ≤ (loadedInto anchor).parallelism) :
    loadMdbFileCounted numAttrs counts file anchor = none := by
  obtain ⟨d₀, hload, hround⟩ := load_rounds hJ hdump numAttrs counts anchor
  obtain ⟨K, hread, -⟩ := hround (by omega)
  obtain ⟨q, hq⟩ := Nat.exists_eq_add_of_le hp
  have hrange : List.range (loadedInto anchor).parallelism = 0 :: 1 :: (List.range q).map (· + 2) := by
    rw [hq, Nat.add_comm 2 q]
    simp [List.range_succ_eq_map]
  have hend : ∀ s : IndexAnchor × LoadedCounts,
      readPartitionCounted numAttrs (s, (⟨[], false⟩ : DiskStream (List Field))) 1 = none := by
    intro s
    rw [readPartitionCounted_eq numAttrs _ 0, readPartition]
    cases s.1.partitions[1]? <;> rfl
  rw [hload, hrange, List.foldlM_cons, hread]
  simp only [Option.bind_eq_bind, Option.bind_some, List.foldlM_cons, hend, Option.bind_none,
    Option.map_none]

end OneFile

/-- An index of one partition: a fresh one, after more attributes were indexed and files of such
indexes loaded into it, in any order. The other fields of the anchor are free. -/
inductive Built : IndexAnchor → Prop
  | fresh : Built (initInMemIndex 1)
  | fields {J J' : IndexAnchor} : Built J → J'.partitions = J.partitions → Built J'
  | index {J J' : IndexAnchor} {attr : MetaAttribute} : Built J →
      createInMemIndexForAttr J attr = some J' → Built J'
  | load {J K J' : IndexAnchor} {file : List Field} {numAttrs : Nat → Nat} {counts counts' : LoadedCounts}
      {d : DiskStream (List Field)} : Built J → Built K → dumpMdbIndexToDisk K = some file →
      loadMdbFileCounted numAttrs counts file (some J) = some ((J', counts'), d) → Built J'

theorem Built.sound {J : IndexAnchor} (h : Built J) : IndexSound J := by
  induction h with
  | fresh =>
    refine ⟨rfl, ?_⟩
    intro part hpart
    obtain rfl := List.eq_of_mem_replicate hpart
    simp
  | fields _ heq ih => exact ⟨by rw [IndexAnchor.parallelism, heq]; exact ih.one, by rw [heq]; exact ih.leaves⟩
  | index _ hrun ih => exact ih.createInMemIndexForAttr hrun
  | @load J K J' file numAttrs counts counts' d _ _ hdump hload ihJ ihK =>
    obtain ⟨K', d', hload', -, -, hsound⟩ := load_once ihK hdump numAttrs counts (some J) ihJ.one
    rw [hload, Option.some.injEq, Prod.mk.injEq, Prod.mk.injEq] at hload'
    rw [hload'.1.1]
    exact hsound ihJ

theorem built_indexAll (as : List Attribute) {J : IndexAnchor} (h : indexAll 1 as = some J) : Built J :=
  foldlM_invariant Built _ (fun _ _ _ hJ hrun => hJ.index hrun) as (initInMemIndex 1) J .fresh h

theorem Built.indexingAttr {J J' : IndexAnchor} {attr : MetaAttribute} (h : Built J)
    (hrun : indexingAttr J attr = some J') : Built J' := by
  have hlog : ∀ {idx idx' : IndexAnchor}, logAttr idx attr = some idx' → idx'.partitions = idx.partitions := by
    intro idx idx' hlog
    rw [logAttr] at hlog
    split at hlog
    · rw [← Option.some.inj hlog]
    · split_ifs at hlog
      · rw [← Option.some.inj hlog]
      · obtain ⟨fields, -, rfl⟩ := Option.map_eq_some_iff.mp hlog
        rfl
  rw [Index.indexingAttr] at hrun
  split_ifs at hrun
  · obtain ⟨idx₁, hidx₁, hrun⟩ := Option.bind_eq_some_iff.mp hrun
    obtain ⟨idx₂, hidx₂, hrun⟩ := Option.bind_eq_some_iff.mp hrun
    have hkeep := hlog hidx₁
    have hbuilt : Built idx₁ := h.fields hkeep
    rw [← Option.some.inj hrun]
    exact (hbuilt.index hidx₂).fields rfl
  · rw [← Option.some.inj hrun]
    exact h.fields rfl

def CountsFile (J : IndexAnchor) (anchor : Option IndexAnchor)
    (result : Option ((IndexAnchor × LoadedCounts) × DiskStream (List Field))) : Prop :=
  ∃ K counts d, result = some ((K, counts), d) ∧
    K.totalNumAttrs = (loadedInto anchor).totalNumAttrs + J.attrNodes.length ∧
    K.totalNumKvPairs = (loadedInto anchor).totalNumKvPairs + J.numEntries

/-- The totals are right if the index has one partition, the address of the attribute count
happens to be the count, and no value has a second pair. Without a partition nothing is read and
the counters of the load before are added. -/
theorem load_statistics_iff {J : IndexAnchor} (hJ : Built J) {file : List Field}
    (hdump : dumpMdbIndexToDisk J = some file) (numAttrs : Nat → Nat) (counts : LoadedCounts)
    (anchor : Option IndexAnchor) :
    CountsFile J anchor (loadMdbFileCounted numAttrs counts file anchor) ↔
      ((loadedInto anchor).parallelism = 1 ∧ numAttrs 0 = J.attrNodes.length ∧
        ∀ v ∈ J.valueNodes, v.2.length = 1) ∨
      ((loadedInto anchor).parallelism = 0 ∧ counts.numAttrsLoadedMdb = J.attrNodes.length ∧
        counts.numKvPairsLoadedMdb = J.numEntries) := by
  have hone := length_eq_sum_length_iff fun v hv => hJ.sound.pairs_ne_nil hv
  rw [← hone, ← IndexAnchor.numEntries]
  obtain hp | hp | hp : (loadedInto anchor).parallelism = 0 ∨ (loadedInto anchor).parallelism = 1 ∨
      2 ≤ (loadedInto anchor).parallelism := by omega
  · obtain ⟨d, hload⟩ := load_none hJ.sound hdump numAttrs counts anchor hp
    simp [CountsFile, hload, hp, IndexAnchor.countLoaded]
  · obtain ⟨K, d, hload, hattrs, hpairs, -⟩ := load_once hJ.sound hdump numAttrs counts anchor hp
    simp [CountsFile, hload, hp, hattrs, hpairs]
  · rw [load_twice hJ.sound hdump numAttrs counts anchor hp]
    constructor
    · rintro ⟨K, counts', d, hload, -⟩
      simp at hload
    · omega

def repeatedAttribute : Attribute :=
  ⟨.ofBytes [97], .integer [7, 7] fun _ => 0, .ofBytes [102], .ofBytes [111]⟩

def repeatedIndex : IndexAnchor := (@indexAll .oldest 1 [repeatedAttribute]).getD (initInMemIndex 1)

def repeatedFile : List Field := (@dumpMdbIndexToDisk .oldest .oldest repeatedIndex).getD []

omit [Descent NumKey] [AssocMap.Iteration CString] in
theorem repeatedIndex_built : @Built .oldest .oldest repeatedIndex ∧
    @dumpMdbIndexToDisk .oldest .oldest repeatedIndex = some repeatedFile :=
  ⟨@built_indexAll .oldest .oldest [repeatedAttribute] repeatedIndex (by decide +kernel), by decide +kernel⟩

omit [Descent NumKey] [AssocMap.Iteration CString] in
theorem load_statistics_iff_repeated :
    ¬ CountsFile repeatedIndex none
      (@loadMdbFileCounted .oldest _ _ (fun _ => 94304) ⟨0, 0⟩ repeatedFile none) := by
  intro h
  have hright := (@load_statistics_iff .oldest .oldest _ repeatedIndex_built.1 _ repeatedIndex_built.2
    (fun _ => 94304) ⟨0, 0⟩ none).mp h
  revert hright
  decide +kernel

omit [Descent NumKey] [AssocMap.Iteration CString] in
/-- One attribute node with two entries: the load counts 94304 attributes, the address of the
count, and one pair. -/
theorem load_statistics_address :
    repeatedIndex.attrNodes.length = 1 ∧ repeatedIndex.numEntries = 2 ∧
    ((@loadMdbFileCounted .oldest _ _ (fun _ => 94304) ⟨0, 0⟩ repeatedFile none).map fun r =>
      (r.1.1.totalNumAttrs, r.1.1.totalNumKvPairs)) = some (94304, 1) ∧
    ¬ CountsFile repeatedIndex none
      (@loadMdbFileCounted .oldest _ _ (fun _ => 94304) ⟨0, 0⟩ repeatedFile none) := by
  have hattrs : repeatedIndex.attrNodes.length = 1 := by decide +kernel
  have htotals : ((@loadMdbFileCounted .oldest _ _ (fun _ => 94304) ⟨0, 0⟩ repeatedFile none).map fun r =>
      (r.1.1.totalNumAttrs, r.1.1.totalNumKvPairs)) = some (94304, 1) := by decide +kernel
  refine ⟨hattrs, by decide +kernel, htotals, ?_⟩
  rintro ⟨K, counts, d, hload, hcount, -⟩
  rw [hload, Option.map_some, Option.some.injEq, Prod.mk.injEq] at htotals
  have hzero : (loadedInto none).totalNumAttrs = 0 := rfl
  rw [htotals.1, hattrs, hzero] at hcount
  omega

end Miqs.Index
