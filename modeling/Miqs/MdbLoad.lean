import Miqs.MdbRoundTrip
import Miqs.RbTreeDescent
import Miqs.SearchExact

/-! Dumping an index and loading the file, into a fresh index or another one. -/
namespace Miqs.Index
open Miqs.CData Miqs.BinFileOps Miqs.KeyedTree Miqs.TokenStream
open Miqs.SearchTree (OrderedOn)
variable {π ρ : Type} [Descent NumKey] [AssocMap.Iteration CString]

/-- A leaf whose written tree was built anew in the order it is walked. The trees
that are not written are gone. -/
def AttrLeaf.rewalk (leaf : AttrLeaf π) : AttrLeaf π :=
  if leaf.isNumeric then
    ⟨true, leaf.isFloat,
      leaf.rbt.map fun t => ⟨t.cmpKeysCb, addAll t.cmpKeysCb.eval [] (walk t.cmpKeysCb.eval t.nodes)⟩, none⟩
  else ⟨false, false, none, leaf.art.map AssocMap.iter⟩

theorem AttrLeaf.map_rewalk (f : π → ρ) (leaf : AttrLeaf π) :
    leaf.rewalk.map f = (leaf.map f).rewalk := by
  cases leaf with
  | mk isNumeric isFloat rbt art =>
    cases isNumeric with
    | true =>
      cases rbt with
      | none => rfl
      | some t =>
        have hnodes : mapValues (List.map f) (addAll t.cmpKeysCb.eval [] (walk t.cmpKeysCb.eval t.nodes)) =
            addAll t.cmpKeysCb.eval [] (walk t.cmpKeysCb.eval (mapValues (List.map f) t.nodes)) := by
          rw [mapValues_addAll, walk_mapValues]
          rfl
        simp [AttrLeaf.rewalk, AttrLeaf.map, Rbt.map, hnodes]
    | false => cases art <;> simp [AttrLeaf.rewalk, AttrLeaf.map, AssocMap.iter_mapValues]

omit [Descent NumKey] [AssocMap.Iteration CString] in
theorem AttrLeaf.map_id (leaf : AttrLeaf π) : leaf.map (fun x => x) = leaf := by
  cases leaf with
  | mk isNumeric isFloat rbt art =>
    cases rbt <;> cases art <;> simp [AttrLeaf.map, Rbt.map, mapValues, AssocMap.mapValues]

/-- In a single partition nothing of a pair is lost. -/
theorem AttrLeaf.reload_eq_rewalk {leaf : AttrLeaf FileObjPair}
    (h : ∀ x ∈ leaf.pairs, x.parallelIndexPos = 0) : leaf.reload = leaf.rewalk := by
  have hmap : leaf.map (fun x => { x with parallelIndexPos := 0 }) = leaf := by
    have hid : leaf.map (fun x => { x with parallelIndexPos := 0 }) = leaf.map fun x => x := by
      apply AttrLeaf.map_congr
      intro x hx
      rw [← h x hx]
    rw [hid, AttrLeaf.map_id]
  have hreload : leaf.reload = leaf.rewalk.map fun x => { x with parallelIndexPos := 0 } := by
    cases leaf with
    | mk isNumeric isFloat rbt art =>
      cases isNumeric with
      | true =>
        cases rbt with
        | none => rfl
        | some t =>
          have hnodes : addAll t.cmpKeysCb.eval [] (mapValues reloadPairs t.walk) =
              mapValues reloadPairs (addAll t.cmpKeysCb.eval [] t.walk) := (mapValues_addAll _ [] _).symm
          exact congrArg
            (fun nodes => (⟨true, isFloat, some ⟨t.cmpKeysCb, nodes⟩, none⟩ : AttrLeaf FileObjPair)) hnodes
      | false => cases art <;> rfl
  rw [hreload, AttrLeaf.map_rewalk, hmap]

def AttrLeaf.numEntries (leaf : AttrLeaf π) : List (NumKey × List π) :=
  (leaf.rbt.map Rbt.nodes).getD []

def AttrLeaf.keys (leaf : AttrLeaf π) : List NumKey := leaf.numEntries.map Prod.fst

/-- The comparator orders the keys of a leaf that is numeric: its ints lie in a window, or its
doubles are finite and their differences fit an int. -/
def AttrLeaf.KeysFit (leaf : AttrLeaf π) : Prop :=
  leaf.isNumeric = true →
    if leaf.isFloat then (∀ k ∈ leaf.keys, CDouble.isFinite k.asDouble) ∧
      DoublesFit (leaf.keys.map NumKey.asDouble)
    else IntsFit (leaf.keys.map NumKey.asInt)

def AttrLeaf.Apart (leaf : AttrLeaf π) : Prop :=
  ∀ t, leaf.rbt = some t → Separated t.cmpKeysCb.eval t.nodes

instance (leaf : AttrLeaf π) : Decidable leaf.Apart :=
  inferInstanceAs (Decidable (∀ t ∈ leaf.rbt, Separated t.cmpKeysCb.eval t.nodes))

omit [Descent NumKey] [AssocMap.Iteration CString] in
theorem keyFits_int {k : NumKey} (h : keyFits false k) : ∃ v, k = .int v := by
  cases k with
  | int v => exact ⟨v, rfl⟩
  | double v => cases h

omit [Descent NumKey] [AssocMap.Iteration CString] in
theorem keyFits_double {k : NumKey} (h : keyFits true k) : ∃ v, k = .double v := by
  cases k with
  | int v => cases h
  | double v => exact ⟨v, rfl⟩

omit [Descent NumKey] [AssocMap.Iteration CString] in
theorem LeafOk.cmpKeys {leaf : AttrLeaf π} (ok : LeafOk leaf) (hnum : leaf.isNumeric = true) {t : Rbt π}
    (ht : leaf.rbt = some t) : t.cmpKeysCb = numericCmp leaf.isFloat := by
  obtain ⟨t', ht', hok⟩ := ok.tree
  obtain rfl := Option.some.inj (ht.symm.trans ht')
  exact (hok hnum).1

omit [Descent NumKey] [AssocMap.Iteration CString] in
theorem LeafOk.keyFits {leaf : AttrLeaf π} (ok : LeafOk leaf) (hnum : leaf.isNumeric = true) :
    ∀ k ∈ leaf.keys, keyFits leaf.isFloat k := by
  obtain ⟨t, ht, hok⟩ := ok.tree
  intro k hk
  rw [AttrLeaf.keys, AttrLeaf.numEntries, ht] at hk
  obtain ⟨e, he, rfl⟩ := List.mem_map.mp hk
  exact (hok hnum).2 e he

omit [Descent NumKey] [AssocMap.Iteration CString] in
theorem LeafOk.ordered {leaf : AttrLeaf π} (ok : LeafOk leaf) (hnum : leaf.isNumeric = true)
    (hfit : leaf.KeysFit) : OrderedOn (numericCmp leaf.isFloat).eval (· ∈ leaf.keys) := by
  have hkeys := ok.keyFits hnum
  have hfit := hfit hnum
  cases hfloat : leaf.isFloat with
  | true =>
    rw [hfloat] at hfit hkeys
    obtain ⟨hfin, hdiff⟩ := hfit
    refine (orderedOn_doubles (by simpa using hfin) hdiff).mono fun k hk => ?_
    obtain ⟨v, rfl⟩ := keyFits_double (hkeys k hk)
    exact ⟨v, List.mem_map_of_mem hk, rfl⟩
  | false =>
    rw [hfloat] at hfit hkeys
    obtain ⟨b, hb⟩ := hfit
    refine (strictOn_window b).toOrderedOn.mono fun k hk => ?_
    obtain ⟨v, rfl⟩ := keyFits_int (hkeys k hk)
    exact ⟨v, rfl, hb v (List.mem_map_of_mem hk)⟩

omit [AssocMap.Iteration CString] in
theorem apartIfFound_addValue {pair : π} {leaf : AttrLeaf π}
    (h : ∀ t, leaf.rbt = some t → ApartIfFound t.cmpKeysCb.eval t.nodes) (value : AttrValue) :
    ∀ t, (leaf.addValue pair value).rbt = some t → ApartIfFound t.cmpKeysCb.eval t.nodes := by
  have hnum : ∀ keys t, (leaf.addNumeric keys pair).rbt = some t →
      ApartIfFound t.cmpKeysCb.eval t.nodes := by
    intro keys t ht
    obtain ⟨t, hold, rfl⟩ := Option.map_eq_some_iff.mp ht
    exact (h t hold).pushAll _
  cases value with
  | unknown n => exact h
  | integer vals beyond => exact hnum _
  | float vals => exact hnum _
  | string vals => exact h

omit [AssocMap.Iteration CString] in
theorem apartIfFound_linkValue {pair : π} {value : AttrValue} {o : Option (AttrLeaf π)}
    (h : ∀ leaf, o = some leaf → ∀ t, leaf.rbt = some t → ApartIfFound t.cmpKeysCb.eval t.nodes) :
    ∀ leaf, linkValue pair value o = some leaf →
      ∀ t, leaf.rbt = some t → ApartIfFound t.cmpKeysCb.eval t.nodes := by
  intro leaf hl
  cases o with
  | some old =>
    obtain rfl := Option.some.inj hl
    exact apartIfFound_addValue (h old rfl) value
  | none =>
    simp only [linkValue] at hl
    split_ifs at hl
    obtain rfl := Option.some.inj hl
    refine apartIfFound_addValue (fun t ht => ?_) value
    cases htype : value.type <;> rw [htype] at ht <;> cases ht <;> exact fun _ => separated_nil _

omit [AssocMap.Iteration CString] in
theorem apartIfFound_pathIndexAll (as : List Attribute) (n : CString) :
    ∀ leaf, pathIndexAll as n = some leaf → ∀ t, leaf.rbt = some t → ApartIfFound t.cmpKeysCb.eval t.nodes := by
  rw [pathIndexAll_apply]
  generalize as.filter (fun a => a.attrName = n) = bs
  induction bs using List.reverseRecOn with
  | nil => simp
  | append_singleton bs a ih =>
    rw [List.foldl_append]
    exact apartIfFound_linkValue ih

omit [AssocMap.Iteration CString] in
/-- In an index that was built by indexing, the nodes of a tree are apart if its keys fit. -/
theorem Represents.apart {p : Nat} {idx : IndexAnchor} {as : List Attribute}
    (hr : Represents p idx (pathIndexAll as)) {n : CString} {leaf : AttrLeaf FileObjPair}
    (hl : idx.leafOf n = some leaf) (ok : LeafOk leaf) (hnum : leaf.isNumeric = true) (hfit : leaf.KeysFit) :
    leaf.Apart := by
  have hres := hr.resolve n
  rw [hl] at hres
  obtain ⟨L, hL, hmap⟩ := Option.map_eq_some_iff.mp hres.symm
  intro t ht
  obtain ⟨T, hT, htree⟩ : ∃ T, L.rbt = some T ∧ T.map some = t.map (collectResultFromList idx) := by
    have hrbt := congrArg AttrLeaf.rbt hmap
    simp only [AttrLeaf.map, ht, Option.map_some] at hrbt
    obtain ⟨T, hT, htree⟩ := Option.map_eq_some_iff.mp hrbt
    exact ⟨T, hT, htree⟩
  have hcmp : T.cmpKeysCb = t.cmpKeysCb := congrArg Rbt.cmpKeysCb htree
  have hkeys : T.nodes.map Prod.fst = t.nodes.map Prod.fst := by
    have hnodes := congrArg (fun t => t.nodes.map Prod.fst) htree
    simpa [Rbt.map, mapValues, Function.comp_def] using hnodes
  have hapart := apartIfFound_pathIndexAll as n L hL T hT
  rw [ApartIfFound, Separated, hcmp, hkeys] at hapart
  apply hapart
  have hord := ok.ordered hnum hfit
  rw [AttrLeaf.keys, AttrLeaf.numEntries, ht, ← ok.cmpKeys hnum ht] at hord
  exact finds_of_ordered hord

/-- The tree that is built anew has the nodes of the old one. -/
theorem AttrLeaf.rewalk_of_apart {leaf : AttrLeaf π} (hnum : leaf.isNumeric = true) (h : leaf.Apart) :
    leaf.rewalk = ⟨true, leaf.isFloat,
      leaf.rbt.map fun t => ⟨t.cmpKeysCb, walk t.cmpKeysCb.eval t.nodes⟩, none⟩ := by
  rw [AttrLeaf.rewalk, if_pos hnum]
  cases ht : leaf.rbt with
  | none => rfl
  | some t =>
    have hwalk : Separated t.cmpKeysCb.eval (walk t.cmpKeysCb.eval t.nodes) :=
      (h t ht).perm (fun _ _ => CmpKeys.eval_comm) (walk_perm _)
    simp only [Option.map_some, addAll_of_separated hwalk]

/-- The region of the path tables and all name trees. -/
theorem appendPartition_eq {p : Nat} {idx : IndexAnchor} {I : PathIndex} (hr : Represents p idx I)
    {part : Partition} {F O : PathTable}
    (hF : part.filePathsList = F.toLinkedList) (hO : part.objectPathsList = O.toLinkedList) :
    appendPartition idx part = some (F.region ++ (O.region ++
      idx.partitions.flatMap fun p => attrRegion p.rootArt)) := by
  have htrees : idx.partitions.mapM (fun p => appendAttrRootTree p.rootArt) =
      some (idx.partitions.map fun p => attrRegion p.rootArt) := by
    apply mapM_of_map_eq_some
    rw [List.map_map]
    apply List.map_congr_left
    intro q hq
    obtain ⟨i, hi⟩ := List.mem_iff_getElem?.mp hq
    exact appendAttrRootTree_eq fun e he =>
      ((hr.partition i q hi).tree.leaves e he).readable.appendAttrValues_isSome
  simp [appendPartition, hF, hO, appendPathList_toLinkedList, htrees, List.flatMap_def]

theorem dumpMdbIndexToDisk_eq {p : Nat} {idx : IndexAnchor} {I : PathIndex}
    (hr : Represents p idx I) :
    dumpMdbIndexToDisk idx = some (miqsAppendSizeT p ++
      idx.partitions.flatMap fun part => (appendPartition idx part).getD []) := by
  have hregions : idx.partitions.mapM (appendPartition idx) =
      some (idx.partitions.map fun part => (appendPartition idx part).getD []) := by
    apply mapM_of_map_eq_some
    rw [List.map_map]
    apply List.map_congr_left
    intro part hpart
    obtain ⟨i, hi⟩ := List.mem_iff_getElem?.mp hpart
    obtain ⟨F, hF⟩ := (hr.partition i part hi).files
    obtain ⟨O, hO⟩ := (hr.partition i part hi).objects
    simp [appendPartition_eq hr hF hO]
  simp [dumpMdbIndexToDisk, hregions, IndexAnchor.parallelism, hr.size, List.flatMap_def]

section Read
variable {S : Type} [TokenSource S Field] {d d' : DiskStream S}

def partitionRegion (files objects : List (CString × Nat)) (art : Art (AttrLeaf FileObjPair)) : List Field :=
  (miqsAppendSizeT files.length ++ files.flatMap pathFields) ++
    ((miqsAppendSizeT objects.length ++ objects.flatMap pathFields) ++ attrRegion art)

theorem readPartition_of_paths {idx : IndexAnchor} {i : Nat} {part : Partition}
    (hp : idx.partitions[i]? = some part) (files objects : List (CString × Nat))
    {art : Art (AttrLeaf FileObjPair)} (ok : ∀ e ∈ art, Readable e.2) (n : Nat)
    (h : Delivers d (partitionRegion files objects art) d') :
    readPartition ((idx, n), d) i =
      some ((((AssocMap.iter art).map reloadNode).foldl IndexAnchor.putLeaf
          (idx.setTables i part (putPaths part.filePathsList files) (putPaths part.objectPathsList objects)),
        ((AssocMap.iter art).map fun node => node.2.nodeCount).sum), d') := by
  obtain ⟨d₁, hfiles, h⟩ := delivers_append.mp h
  obtain ⟨d₂, hobjects, htree⟩ := delivers_append.mp h
  have hlt := (List.getElem?_eq_some_iff.mp hp).1
  simp only [readPartition, hp, Option.bind_eq_bind, Option.bind_some,
    readIntoPathList_of_paths files _ hfiles, readIntoPathList_of_paths objects _ hobjects]
  apply readIntoAttrRootTree_of_delivers ?_ ok htree
  simp only [IndexAnchor.parallelism, IndexAnchor.setTables, IndexAnchor.setPartition,
    List.length_set]
  omega

theorem readPartition_of_delivers {idx : IndexAnchor} {i : Nat} {part : Partition}
    (hp : idx.partitions[i]? = some part) (F O : PathTable) {art : Art (AttrLeaf FileObjPair)}
    (ok : ∀ e ∈ art, LeafOk e.2) (n : Nat)
    (h : Delivers d (F.region ++ (O.region ++ attrRegion art)) d') :
    readPartition ((idx, n), d) i =
      some ((((AssocMap.iter art).map reloadNode).foldl IndexAnchor.putLeaf
          (idx.setTables i part (F.toLinkedList ++ part.filePathsList)
            (O.toLinkedList ++ part.objectPathsList)),
        ((AssocMap.iter art).map fun node => node.2.nodeCount).sum), d') := by
  rw [F.region_eq, O.region_eq] at h
  rw [readPartition_of_paths hp _ _ (fun e he => (ok e he).readable) n h, putPaths_zipIdx, putPaths_zipIdx,
    PathTable.toLinkedList, PathTable.toLinkedList]

end Read

omit [Descent NumKey] [AssocMap.Iteration CString] in
theorem foldl_putLeaf_one {idx : IndexAnchor} {part : Partition} (hp : idx.partitions = [part])
    (nodes : List (CString × AttrLeaf FileObjPair)) :
    (nodes.foldl IndexAnchor.putLeaf idx).partitions =
      [{ part with rootArt := nodes.foldl (fun t e => AssocMap.insert t e.1 e.2) part.rootArt }] := by
  induction nodes generalizing idx part with
  | nil => exact hp
  | cons node nodes ih =>
    have hput : (idx.putLeaf node).partitions =
        [{ part with rootArt := AssocMap.insert part.rootArt node.1 node.2 }] := by
      simp [IndexAnchor.putLeaf, IndexAnchor.parallelism, hp, Nat.mod_one]
    rw [List.foldl_cons, ih hput, List.foldl_cons]

theorem iter_map_reloadNode {p h : Nat} {art : Art (AttrLeaf FileObjPair)} (ok : NameTreeOk p h art)
    (hh : h = 0) :
    (AssocMap.iter art).map reloadNode = AssocMap.mapValues AttrLeaf.rewalk (AssocMap.iter art) := by
  apply List.map_congr_left
  intro node hnode
  have hmem := (AssocMap.iter_perm art).mem_iff.mp hnode
  have hzero : ∀ x ∈ node.2.pairs, x.parallelIndexPos = 0 := by
    intro x hx
    rw [ok.pairs node hmem x hx, hh]
  rw [reloadNode, AttrLeaf.reload_eq_rewalk hzero]

def mergedTree (old new : Art (AttrLeaf FileObjPair)) : Art (AttrLeaf FileObjPair) :=
  (AssocMap.mapValues AttrLeaf.rewalk (AssocMap.iter new)).foldl
    (fun t e => AssocMap.insert t e.1 e.2) old

theorem search_mergedTree (old : Art (AttrLeaf FileObjPair)) {new : Art (AttrLeaf FileObjPair)}
    (hn : (new.map Prod.fst).Nodup) (n : CString) :
    AssocMap.search (mergedTree old new) n =
      ((AssocMap.search new n).map AttrLeaf.rewalk).or (AssocMap.search old n) := by
  have hiter := (AssocMap.iter_perm new)
  have hkeys : ((AssocMap.mapValues AttrLeaf.rewalk (AssocMap.iter new)).map Prod.fst).Nodup := by
    rw [AssocMap.keys_mapValues]
    exact (hiter.map Prod.fst).nodup_iff.mpr hn
  rw [mergedTree, AssocMap.search_foldl_insert hkeys, AssocMap.search_mapValues,
    AssocMap.search_perm hiter hn]

/-- Loading the file of a single partition puts its path tables before those of
the anchor and its leaves over those of the anchor. -/
theorem loadMdbFileToIndex_one {J : IndexAnchor} {PJ : PathIndex} (hr : Represents 1 J PJ)
    {partJ : Partition} (hJ : J.partitions = [partJ]) (numAttrsPtr : Nat)
    (anchor : Option IndexAnchor) {partA : Partition}
    (hA : (anchor.getD (initInMemIndex 1)).partitions = [partA]) :
    ∃ file K, dumpMdbIndexToDisk J = some file ∧
      loadMdbFileToIndex numAttrsPtr file anchor = some (0, K, ⟨[], false⟩) ∧
      K.partitions = [⟨mergedTree partA.rootArt partJ.rootArt,
        partJ.filePathsList ++ partA.filePathsList,
        partJ.objectPathsList ++ partA.objectPathsList⟩] := by
  have ok : PartitionOk 1 0 partJ := hr.partition 0 partJ (by simp [hJ])
  obtain ⟨F, hF⟩ := ok.files
  obtain ⟨O, hO⟩ := ok.objects
  have hfile : dumpMdbIndexToDisk J = some (miqsAppendSizeT 1 ++
      ((F.region ++ (O.region ++ attrRegion partJ.rootArt)) ++ [])) := by
    rw [dumpMdbIndexToDisk_eq hr, hJ]
    simp [appendPartition_eq hr hF hO, hJ]
  generalize hs : anchor.getD (initInMemIndex 1) = A at hA
  have hpart : A.partitions[0]? = some partA := by simp [hA]
  have hread := readPartition_of_delivers hpart F O ok.tree.leaves 0
    (delivers_file (F.region ++ (O.region ++ attrRegion partJ.rootArt)) [] false)
  have hanchor : loadAnchor anchor (some 1) = some A := by
    cases anchor <;> simpa [loadAnchor] using hs
  have hhead := miqsReadSizeT_of_delivers (delivers_file (miqsAppendSizeT 1)
    ((F.region ++ (O.region ++ attrRegion partJ.rootArt)) ++ []) false)
  have hone : List.range A.parallelism = [0] := by simp [IndexAnchor.parallelism, hA]
  have htables : (A.setTables 0 partA (F.toLinkedList ++ partA.filePathsList)
      (O.toLinkedList ++ partA.objectPathsList)).partitions =
      [⟨partA.rootArt, F.toLinkedList ++ partA.filePathsList,
        O.toLinkedList ++ partA.objectPathsList⟩] := by
    simp [IndexAnchor.setTables, IndexAnchor.setPartition, hA]
  have hput := foldl_putLeaf_one htables ((AssocMap.iter partJ.rootArt).map reloadNode)
  rw [iter_map_reloadNode ok.tree rfl] at hput hread
  generalize ((AssocMap.iter partJ.rootArt).map fun node => node.2.nodeCount).sum = n at hread
  generalize (AssocMap.mapValues AttrLeaf.rewalk (AssocMap.iter partJ.rootArt)).foldl
    IndexAnchor.putLeaf _ = K at hread hput
  rw [hF, hO]
  refine ⟨_, K.countLoaded n numAttrsPtr, hfile, ?_, hput⟩
  simp only [loadMdbFileToIndex, hhead, hanchor, Option.bind_eq_bind, Option.bind_some, hone,
    List.foldlM_cons, List.foldlM_nil, hread, Option.pure_def]

omit [Descent NumKey] [AssocMap.Iteration CString] in
theorem Represents.one {J : IndexAnchor} {PJ : PathIndex} (hr : Represents 1 J PJ) :
    ∃ partJ, J.partitions = [partJ] := List.length_eq_one_iff.mp hr.size

omit [Descent NumKey] [AssocMap.Iteration CString] in
theorem leafOf_one {idx : IndexAnchor} {part : Partition} (h : idx.partitions = [part])
    (n : CString) : idx.leafOf n = AssocMap.search part.rootArt n := by
  simp [IndexAnchor.leafOf, IndexAnchor.parallelism, h, Nat.mod_one]

/-- The reloaded index holds the path index with its trees built anew. -/
theorem resolves_reloaded {J K : IndexAnchor} {PJ : PathIndex} (hr : Represents 1 J PJ)
    {partJ : Partition} (hJ : J.partitions = [partJ])
    (hK : K.partitions = [⟨mergedTree [] partJ.rootArt, partJ.filePathsList,
      partJ.objectPathsList⟩]) :
    Resolves K fun n => (PJ n).map AttrLeaf.rewalk where
  pos := by simp [IndexAnchor.parallelism, hK]
  leaves := by
    intro n
    have ok : PartitionOk 1 0 partJ := hr.partition 0 partJ (by simp [hJ])
    have hcollect : collectResultFromList K = collectResultFromList J := by
      funext x
      simp only [collectResultFromList, hK, hJ]
      cases x.parallelIndexPos <;> rfl
    have hleaf : K.leafOf n = (J.leafOf n).map AttrLeaf.rewalk := by
      rw [leafOf_one hK, leafOf_one hJ, search_mergedTree _ ok.tree.names]
      simp [AssocMap.search]
    have hswap : ∀ {π ρ : Type} (f : π → ρ) (o : Option (AttrLeaf π)),
        (o.map AttrLeaf.rewalk).map (AttrLeaf.map f) = (o.map (AttrLeaf.map f)).map AttrLeaf.rewalk := by
      intro π ρ f o
      cases o with
      | none => rfl
      | some leaf => simp [AttrLeaf.map_rewalk]
    rw [hleaf, hcollect, hswap, hr.resolve n, hswap]

omit [AssocMap.Iteration CString] in
theorem pathIndexAll_ints {as : List Attribute} {n : CString} (hn : UsedOnlyWith as n .integer)
    (hsome : ∃ a ∈ as, a.attrName = n) : pathIndexAll as n = some (numericLeaf false
      ((occurrences AttrValue.ints as n).map fun x => (NumKey.int x.1, x.2))) := by
  rw [@pathIndexAll_numeric _ _ _ false hn hsome, occurrences_ints hn]

/-- The tree of some ints answers as before once its nodes are added anew. -/
theorem search_rewalk_ints {kvs : List (CInt × π)} (hfit : IntsFit (kvs.map Prod.fst)) {v : CInt}
    (hv : v ∈ kvs.map Prod.fst) :
    (numericLeaf false (kvs.map fun x => (NumKey.int x.1, x.2))).rewalk.search (.integer v) =
      (numericLeaf false (kvs.map fun x => (NumKey.int x.1, x.2))).search (.integer v) := by
  have hf := finds_ints hfit
  have hkeys : ∀ y ∈ kvs.map fun x => (NumKey.int x.1, x.2), ∃ v ∈ kvs.map Prod.fst, y.1 = .int v := by
    intro y hy
    obtain ⟨z, hz, rfl⟩ := List.mem_map.mp hy
    exact ⟨z.1, List.mem_map_of_mem hz, rfl⟩
  generalize hm : pushAll libhlCmpKeysInt [] (kvs.map fun x => (NumKey.int x.1, x.2)) = m
  have hS : ∀ e ∈ m, ∃ v ∈ kvs.map Prod.fst, e.1 = .int v := by
    intro e he
    obtain ⟨x, hx, hxe⟩ := exists_key_of_mem_pushAll (hm ▸ he)
    exact hxe ▸ hkeys x hx
  have hs : Separated libhlCmpKeysInt m := hm ▸ separated_pushAll_nil hf hkeys
  have hwalk : Separated libhlCmpKeysInt (walk libhlCmpKeysInt m) :=
    hs.perm (fun a b => @CmpKeys.eval_comm .int a b) (walk_perm m)
  have hlook : lookup libhlCmpKeysInt (addAll libhlCmpKeysInt [] (walk libhlCmpKeysInt m)) (.int v) =
      lookup libhlCmpKeysInt m (.int v) := by
    rw [addAll_of_separated hwalk]
    exact lookup_perm hf (consistent_int (by rintro _ ⟨w, -, rfl⟩; exact ⟨w, rfl⟩)) (walk_perm m) hs hwalk
      hS ⟨v, hv, rfl⟩
  subst hm
  exact congrArg some hlook

/-- After a dump and a load into a fresh index, a search for an int under a name
used with ints only answers as before, if the ints of the name lie in one window. -/
theorem mdb_round_trip_integer (as : List Attribute) (n : CString) (hn : UsedOnlyWith as n .integer)
    (hfit : IntsFit ((occurrences AttrValue.ints as n).map Prod.fst)) (v : CInt)
    (hv : v ∈ (occurrences AttrValue.ints as n).map Prod.fst) (numAttrsPtr : Nat) :
    ∃ st file K d res, indexAll 1 as = some st ∧ dumpMdbIndexToDisk st = some file ∧
      loadMdbFileToIndex numAttrsPtr file none = some (0, K, d) ∧
      exactMetadataSearch st n (.integer v) = some res ∧
      exactMetadataSearch K n (.integer v) = some res := by
  obtain ⟨st, hst, hr⟩ := indexAll_represents one_pos as
  obtain ⟨part, hpart⟩ := hr.one
  obtain ⟨file, K, hdump, hload, hK⟩ := loadMdbFileToIndex_one hr hpart numAttrsPtr none
    (show ((none : Option IndexAnchor).getD (initInMemIndex 1)).partitions = [⟨[], [], []⟩] from rfl)
  simp only [List.append_nil] at hK
  obtain ⟨x, hx, -⟩ := List.mem_map.mp hv
  have hleaf := pathIndexAll_ints hn (exists_of_mem_occurrences hx)
  obtain ⟨st', hst', hsearch⟩ := exactMetadataSearch_int one_pos hn (exists_of_mem_occurrences hx)
    (finds_ints hfit) v
  obtain rfl : st = st' := Option.some.inj (hst.symm.trans hst')
  rw [if_neg (ne_nil_of_occurs hv)] at hsearch
  refine ⟨st, file, K, _, _, hst, hdump, hload, hsearch, ?_⟩
  rw [← hsearch, exactMetadataSearch_eq (resolves_reloaded hr hpart hK),
    exactMetadataSearch_eq (hr.resolves one_pos), PathIndex.search, PathIndex.search, hleaf]
  exact congrArg Option.join (search_rewalk_ints hfit hv)

omit [Descent NumKey] [AssocMap.Iteration CString] in
theorem mdb_round_trip_integer_sample :
    UsedOnlyWith [sampleAttribute] sampleAttribute.attrName .integer ∧
      IntsFit ((occurrences AttrValue.ints [sampleAttribute] sampleAttribute.attrName).map Prod.fst) ∧
      ∃ st file K d res, @indexAll .oldest 1 [sampleAttribute] = some st ∧
        @dumpMdbIndexToDisk .oldest .oldest st = some file ∧
        @loadMdbFileToIndex .oldest _ _ 0 file none = some (0, K, d) ∧
        @exactMetadataSearch .oldest st sampleAttribute.attrName (.integer 7) = some res ∧
        @exactMetadataSearch .oldest K sampleAttribute.attrName (.integer 7) = some res := by
  have hn : UsedOnlyWith [sampleAttribute] sampleAttribute.attrName .integer := by
    intro a ha _
    simp only [List.mem_singleton] at ha
    rw [ha]
    rfl
  have hints : (occurrences AttrValue.ints [sampleAttribute] sampleAttribute.attrName).map Prod.fst = [7] := by
    simp [occurrences, sampleAttribute, AttrValue.ints]
  have hfit : IntsFit ((occurrences AttrValue.ints [sampleAttribute] sampleAttribute.attrName).map Prod.fst) := by
    rw [hints]
    exact ⟨0, by simp [InWindow]⟩
  exact ⟨hn, hfit, @mdb_round_trip_integer .oldest .oldest [sampleAttribute] sampleAttribute.attrName hn hfit 7
    (by simp [hints]) 0⟩

def spreadAttribute : Attribute :=
  ⟨.ofBytes [110], .integer ([0, -1610612736, -1342177280, -805306368, -1073741824, 536870912, -268435456,
    1073741824].map (BitVec.ofInt 32)) fun _ => 0, .ofBytes [102], .ofBytes [111]⟩

def IndexAnchor.treesKept (idx : IndexAnchor) (n : CString) : Bool :=
  match idx.leafOf n with
  | some leaf => leaf.keys.inits.all fun ks => (RbTree.keptTree libhlCmpKeysInt ks).isSome
  | none => false

omit [Descent NumKey] [AssocMap.Iteration CString] in
/-- In red-black trees of ints all around the circle, a value that was found is lost by the round
trip. -/
theorem mdb_round_trip_loses_spread_int :
    ((@indexAll RbTree.rbtDescent 1 [spreadAttribute]).bind fun st =>
      (@dumpMdbIndexToDisk RbTree.rbtDescent .oldest st).bind fun file =>
        (@loadMdbFileToIndex RbTree.rbtDescent _ _ 0 file none).map fun K =>
          ((st.treesKept spreadAttribute.attrName, K.2.1.treesKept spreadAttribute.attrName),
            @exactMetadataSearch RbTree.rbtDescent st spreadAttribute.attrName (.integer 1073741824),
            @exactMetadataSearch RbTree.rbtDescent K.2.1 spreadAttribute.attrName (.integer 1073741824))) =
      some ((true, true), some [Attribute.entry spreadAttribute], none) := by
  decide +kernel

end Miqs.Index
