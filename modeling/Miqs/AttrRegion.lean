import Miqs.BinFileBytes
import Miqs.MdbRoundTrip

/-! The attribute region as a codec of its own: its bytes, followed by anything, are read
into an array of empty name trees. -/
namespace Miqs.Index
open Miqs.CData Miqs.BinFileOps Miqs.KeyedTree Miqs.TokenStream
variable [Descent NumKey]

/-- A leaf whose values are of one type, no two comparing equal. What its other pointer
points to is not written. -/
inductive TypedLeaf : AttrLeaf FileObjPair → Prop
  | numeric (float : Bool) (nodes : List (NumKey × List FileObjPair)) (art)
      (fits : ∀ e ∈ nodes, keyFits float e.1) (distinct : Separated (numericCmp float).eval nodes) :
      TypedLeaf ⟨true, float, some ⟨numericCmp float, nodes⟩, art⟩
  | string (nodes : List (CString × List FileObjPair)) (rbt)
      (distinct : (nodes.map Prod.fst).Nodup) : TypedLeaf ⟨false, false, rbt, some nodes⟩

omit [Descent NumKey] in
theorem TypedLeaf.readable {leaf : AttrLeaf FileObjPair} (ok : TypedLeaf leaf) : Readable leaf := by
  cases ok with
  | numeric float nodes art fits distinct => exact .numeric float nodes art fits
  | string nodes rbt distinct => exact .string false nodes rbt distinct

def PairsFit (list : List FileObjPair) : Prop :=
  list.length < 2^64 ∧ ∀ pair ∈ list, pair.fileListPos < 2^64 ∧ pair.objListPos < 2^64

inductive ValueKey where
  | num (key : NumKey)
  | str (key : CString)
  deriving DecidableEq

def AttrLeaf.valueNodes (leaf : AttrLeaf FileObjPair) : List (ValueKey × List FileObjPair) :=
  if leaf.isNumeric then ((leaf.rbt.map Rbt.nodes).getD []).map fun e => (.num e.1, e.2)
  else (leaf.art.getD []).map fun e => (.str e.1, e.2)

def ValueKey.Fits : ValueKey → Prop
  | .num _ => True
  | .str s => s.bytes.length < 2^64

structure AttrTree where
  nodes : Art (AttrLeaf FileObjPair)
  distinct : (nodes.map Prod.fst).Nodup
  typed : ∀ e ∈ nodes, TypedLeaf e.2
  count_fits : nodes.length < 2^64
  names_fit : ∀ e ∈ nodes, e.1.bytes.length < 2^64
  values_fit : ∀ e ∈ nodes, e.2.valueNodes.length < 2^64 ∧
    ∀ v ∈ e.2.valueNodes, v.1.Fits ∧ PairsFit v.2

def positions (list : List FileObjPair) : List (Nat × Nat) :=
  list.map fun pair => (pair.fileListPos, pair.objListPos)

structure SameContent (a b : AttrLeaf FileObjPair) : Prop where
  isNumeric : a.isNumeric = b.isNumeric
  isFloat : a.isFloat = b.isFloat
  values : List.Perm (a.valueNodes.map fun v => (v.1, positions v.2))
    (b.valueNodes.map fun v => (v.1, positions v.2))

structure Restored (source : Art (AttrLeaf FileObjPair)) (q h : Nat)
    (target : Art (AttrLeaf FileObjPair)) : Prop where
  names : List.Perm (target.map Prod.fst)
    ((source.filter fun e => djb2Hash e.1 % q = h).map Prod.fst)
  leaves : ∀ name leaf leaf', (name, leaf) ∈ source → (name, leaf') ∈ target → SameContent leaf leaf'

omit [Descent NumKey] in
/-- Each tree gets the nodes that hash to its place, in order. -/
theorem getElem?_foldl_putLeaf (idx : IndexAnchor) (nodes : List (CString × AttrLeaf FileObjPair))
    (h : Nat) : (nodes.foldl IndexAnchor.putLeaf idx).partitions[h]? =
      idx.partitions[h]?.map fun part => { part with
        rootArt := (nodes.filter fun e => djb2Hash e.1 % idx.parallelism = h).foldl
          (fun t e => AssocMap.insert t e.1 e.2) part.rootArt } := by
  induction nodes generalizing idx with
  | nil => simp
  | cons node nodes ih =>
    rw [List.foldl_cons, ih, parallelism_putLeaf, IndexAnchor.putLeaf, List.getElem?_modify]
    by_cases hh : djb2Hash node.1 % idx.parallelism = h
    · simp [hh, Function.comp_def]
    · simp [hh]

omit [Descent NumKey] in
theorem positions_reloadPairs (list : List FileObjPair) : positions (reloadPairs list) = positions list := by
  simp [positions, reloadPairs, Function.comp_def]

section Trees
variable [AssocMap.Iteration CString]

omit [AssocMap.Iteration CString] in
/-- The nodes of a typed tree are all added as new ones. -/
theorem separated_walk {float : Bool} {nodes : List (NumKey × List FileObjPair)}
    (distinct : Separated (numericCmp float).eval nodes) :
    Separated (numericCmp float).eval (mapValues reloadPairs (Rbt.walk ⟨numericCmp float, nodes⟩)) :=
  (separated_mapValues reloadPairs _).mpr (distinct.perm (fun _ _ => CmpKeys.eval_comm) (walk_perm nodes))

omit [AssocMap.Iteration CString] in
theorem TypedLeaf.reloadCode_eq {leaf : AttrLeaf FileObjPair} (ok : TypedLeaf leaf) :
    leaf.reloadCode = 0 := by
  cases ok with
  | numeric float nodes art fits distinct =>
    simp [AttrLeaf.reloadCode, addCodes_of_separated (separated_walk distinct)]
  | string nodes rbt distinct => rfl

theorem sameContent_reload {leaf : AttrLeaf FileObjPair} (ok : TypedLeaf leaf) :
    SameContent leaf leaf.reload := by
  cases ok with
  | numeric float nodes art fits distinct =>
    have hperm : (Rbt.walk ⟨numericCmp float, nodes⟩).Perm nodes := walk_perm nodes
    have hreload : AttrLeaf.reload ⟨true, float, some ⟨numericCmp float, nodes⟩, art⟩ = ⟨true, float,
        some ⟨numericCmp float, mapValues reloadPairs (Rbt.walk ⟨numericCmp float, nodes⟩)⟩, none⟩ := by
      simp only [AttrLeaf.reload, if_true, Option.map_some, addAll_of_separated (separated_walk distinct)]
    rw [hreload]
    refine ⟨rfl, rfl, ?_⟩
    simpa [AttrLeaf.valueNodes, KeyedTree.mapValues, Function.comp_def, positions_reloadPairs] using
      (hperm.symm.map fun e : NumKey × List FileObjPair => (ValueKey.num e.1, positions e.2))
  | string nodes rbt distinct =>
    have hperm := AssocMap.iter_perm nodes
    refine ⟨by simp [AttrLeaf.reload], by simp [AttrLeaf.reload], ?_⟩
    simpa [AttrLeaf.valueNodes, AttrLeaf.reload, AssocMap.mapValues, Function.comp_def,
      positions_reloadPairs] using
      (hperm.symm.map fun e : CString × List FileObjPair => (ValueKey.str e.1, positions e.2))

/-- The nodes of one place of the array, read back. -/
theorem restored_filter (tree : AttrTree) (q h : Nat) : Restored tree.nodes q h
    (((AssocMap.iter tree.nodes).map reloadNode).filter fun e => djb2Hash e.1 % q = h) := by
  have hperm := AssocMap.iter_perm tree.nodes
  constructor
  · rw [List.filter_map, List.map_map]
    exact (hperm.filter _).map Prod.fst
  · intro name leaf leaf' hleaf hleaf'
    obtain ⟨node, hnode, hreload⟩ := List.mem_map.mp (List.mem_of_mem_filter hleaf')
    have hmem : node ∈ tree.nodes := hperm.mem_iff.mp hnode
    obtain ⟨rfl, rfl⟩ := Prod.mk.inj hreload
    obtain rfl : leaf = node.2 := by
      have hsearch := AssocMap.search_of_mem tree.distinct hmem
      rw [AssocMap.search_of_mem tree.distinct hleaf] at hsearch
      exact Option.some.inj hsearch
    exact sameContent_reload (tree.typed _ hmem)

omit [Descent NumKey] [AssocMap.Iteration CString] in
theorem pairList_fits {list : List FileObjPair} (h : PairsFit list) :
    ∀ f ∈ appendFileObjPairLinkedList list, f.Fits := by
  intro f hf
  rw [appendFileObjPairLinkedList, List.mem_append, List.mem_flatMap] at hf
  rcases hf with hf | ⟨pair, hpair, hf⟩
  · obtain rfl : f = .sizeT [list.length] := by simpa [miqsAppendSizeT] using hf
    simpa [Field.Fits] using h.1
  · have hpos := h.2 pair hpair
    simp only [appendFileObjPair, miqsAppendSizeT, List.cons_append, List.nil_append, List.mem_cons,
      List.not_mem_nil, or_false] at hf
    rcases hf with rfl | rfl
    · simpa [Field.Fits] using hpos.1
    · simpa [Field.Fits] using hpos.2

omit [Descent NumKey] [AssocMap.Iteration CString] in
/-- A count and that many nodes, each a value and its pairs. -/
theorem valueRegion_fits {α : Type} {nodes : List α} {type : CInt} {count : Nat} {enc : α → List Field}
    (hcount : count < 2^64) (hnodes : ∀ e ∈ nodes, ∀ f ∈ enc e, f.Fits) :
    ∀ f ∈ miqsAppendType type ++ (miqsAppendUint64 count ++ nodes.flatMap enc), f.Fits := by
  intro f hf
  simp only [miqsAppendType, miqsAppendInt, miqsAppendUint64, List.cons_append, List.nil_append,
    List.mem_cons, List.mem_flatMap] at hf
  rcases hf with rfl | rfl | ⟨e, he, hf⟩
  · simp [Field.Fits]
  · simpa [Field.Fits] using hcount
  · exact hnodes e he f hf

theorem appendAttrValues_fits {leaf : AttrLeaf FileObjPair} (ok : TypedLeaf leaf)
    (hcount : leaf.valueNodes.length < 2^64)
    (hnodes : ∀ v ∈ leaf.valueNodes, v.1.Fits ∧ PairsFit v.2) {values : List Field}
    (hw : appendAttrValues leaf = some values) : ∀ f ∈ values, f.Fits := by
  cases ok with
  | numeric float nodes art fits distinct =>
    obtain rfl : appendNumericValueTree ⟨numericCmp float, nodes⟩ float = values := Option.some.inj hw
    apply valueRegion_fits (by simpa [AttrLeaf.valueNodes] using hcount)
    intro e he f hf
    have hmem : e ∈ nodes := (walk_perm nodes).mem_iff.mp he
    have hpairs := (hnodes (.num e.1, e.2) (by simpa [AttrLeaf.valueNodes] using hmem)).2
    have hint : ∀ f ∈ appendIntValueNode e, f.Fits :=
      List.forall_mem_cons.mpr ⟨by simp [Field.Fits], pairList_fits hpairs⟩
    have hfloat : ∀ f ∈ appendFloatValueNode e, f.Fits :=
      List.forall_mem_cons.mpr ⟨by simp [Field.Fits], pairList_fits hpairs⟩
    cases float with
    | false => exact hint f hf
    | true => exact hfloat f hf
  | string nodes rbt distinct =>
    obtain rfl : appendStringValueTree nodes = values := Option.some.inj hw
    apply valueRegion_fits (by simpa [AttrLeaf.valueNodes] using hcount)
    intro e he f hf
    have hmem : e ∈ nodes := (AssocMap.iter_perm nodes).mem_iff.mp he
    have hnode := hnodes (.str e.1, e.2) (by simpa [AttrLeaf.valueNodes] using hmem)
    have hstring : ∀ f ∈ appendStringValueNode e, f.Fits :=
      List.forall_mem_cons.mpr ⟨hnode.1, pairList_fits hnode.2⟩
    exact hstring f hf

theorem attrRegion_fits (tree : AttrTree) : ∀ f ∈ attrRegion tree.nodes, f.Fits := by
  intro f hf
  rw [attrRegion, List.mem_append, List.mem_flatMap] at hf
  rcases hf with hf | ⟨node, hnode, hf⟩
  · obtain rfl : f = .uint64 [tree.nodes.length] := by simpa [miqsAppendUint64] using hf
    simpa [Field.Fits] using tree.count_fits
  · have hmem : node ∈ tree.nodes := (AssocMap.iter_perm tree.nodes).mem_iff.mp hnode
    obtain ⟨values, hvalues⟩ := (tree.typed node hmem).readable.appendAttrValues_isSome
    simp only [appendAttrNameNode, hvalues, Option.map_some, Option.getD_some,
      miqsAppendStringWithLen, List.mem_append, List.mem_singleton] at hf
    rcases hf with rfl | hf
    · exact tree.names_fit node hmem
    · have hfits := tree.values_fit node hmem
      exact appendAttrValues_fits (tree.typed node hmem) hfits.1 hfits.2 hvalues f hf

theorem attr_region_round_trip (tree : AttrTree) (idx : IndexAnchor) (hpos : 0 < idx.parallelism)
    (hempty : ∀ part ∈ idx.partitions, part.rootArt = []) (trailing : List UInt8) :
    ∃ fields idx' numKvPairs, appendAttrRootTree tree.nodes = some fields ∧
      readIntoAttrRootTreeRst idx ⟨⟨fields.flatMap Field.bytes ++ trailing⟩, false⟩ =
        some (1, (idx', numKvPairs), DiskStream.mk (ByteFile.mk trailing) false) ∧
      idx'.parallelism = idx.parallelism ∧
      ∀ h part, idx'.partitions[h]? = some part →
        Restored tree.nodes idx.parallelism h part.rootArt := by
  have hcodes : reloadCodes (AssocMap.iter tree.nodes) = 0 := by
    refine List.foldlRecOn _ _ (motive := fun rst => rst = 0) rfl fun rst hrst node hnode => ?_
    have hmem := (AssocMap.iter_perm tree.nodes).mem_iff.mp hnode
    rw [hrst, (tree.typed node hmem).reloadCode_eq]
    rfl
  have hread := readIntoAttrRootTreeRst_of_delivers hpos (fun e he => (tree.typed e he).readable)
    (delivers_bytes (attrRegion_fits tree) trailing false)
  rw [if_pos hcodes] at hread
  refine ⟨_, _, _, appendAttrRootTree_eq fun e he => (tree.typed e he).readable.appendAttrValues_isSome,
    hread, parallelism_foldl_putLeaf idx _, ?_⟩
  intro h part hpart
  rw [getElem?_foldl_putLeaf] at hpart
  obtain ⟨part₀, hpart₀, rfl⟩ := Option.map_eq_some_iff.mp hpart
  have hrestored := restored_filter tree idx.parallelism h
  have hnodup := hrestored.names.nodup_iff.mpr (tree.distinct.sublist (List.filter_sublist.map Prod.fst))
  dsimp only
  rwa [hempty part₀ (List.mem_of_getElem? hpart₀), AssocMap.foldl_insert (by simpa using hnodup),
    List.nil_append]

end Trees

def sampleTree : AttrTree where
  nodes := [(.ofBytes [110], ⟨true, false, some ⟨.int, [(.int 7, [⟨0, 1, 2⟩, ⟨0, 3, 4⟩])]⟩, none⟩),
    (.ofBytes [115], ⟨false, false, none, some [(.ofBytes [97], [⟨0, 5, 6⟩])]⟩)]
  distinct := by decide
  typed := by
    intro e he
    simp only [List.mem_cons, List.not_mem_nil, or_false] at he
    rcases he with rfl | rfl
    · exact .numeric false _ _ (by simp [keyFits]) (by simp [Separated])
    · exact .string _ _ (by simp)
  count_fits := by decide
  names_fit := by decide
  values_fit := by
    intro e he
    simp only [List.mem_cons, List.not_mem_nil, or_false] at he
    rcases he with rfl | rfl
    · simp [AttrLeaf.valueNodes, ValueKey.Fits, PairsFit]
    · simp [AttrLeaf.valueNodes, ValueKey.Fits, PairsFit, CString.ofBytes]

omit [Descent NumKey] in
theorem attr_region_round_trip_sample :
    0 < (initInMemIndex 3).parallelism ∧
      (∀ part ∈ (initInMemIndex 3).partitions, part.rootArt = []) ∧
      ∃ fields idx' numKvPairs, @appendAttrRootTree .oldest .oldest sampleTree.nodes = some fields ∧
        @readIntoAttrRootTreeRst .oldest _ _ (initInMemIndex 3)
            ⟨⟨fields.flatMap Field.bytes ++ [1, 2]⟩, false⟩ =
          some (1, (idx', numKvPairs), DiskStream.mk (ByteFile.mk [1, 2]) false) ∧
        idx'.parallelism = (initInMemIndex 3).parallelism ∧
        ∀ h part, idx'.partitions[h]? = some part →
          Restored sampleTree.nodes (initInMemIndex 3).parallelism h part.rootArt := by
  have hempty : ∀ part ∈ (initInMemIndex 3).partitions, part.rootArt = [] := by
    intro part hpart
    obtain rfl := List.eq_of_mem_replicate hpart
    rfl
  exact ⟨by decide, hempty,
    @attr_region_round_trip .oldest .oldest sampleTree (initInMemIndex 3) (by decide) hempty [1, 2]⟩

end Miqs.Index
