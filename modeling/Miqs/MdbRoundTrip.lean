import Miqs.MdbFile
import Miqs.Refinement

/-! Reading back what was written, level by level: pairs, value nodes, value
trees, name trees and path tables. Each reader is verified for every source that
delivers the fields of the writer. -/
namespace Miqs.Index
open Miqs.CData Miqs.BinFileOps Miqs.KeyedTree Miqs.TokenStream
variable [Descent NumKey] [AssocMap.Iteration CString]
variable {S : Type} [TokenSource S Field] {d d' : DiskStream S}

def reloadPairs (list : List FileObjPair) : List FileObjPair :=
  list.map fun pair => { pair with parallelIndexPos := 0 }

omit [Descent NumKey] [AssocMap.Iteration CString] in
theorem readFileObjPathPairList_of_delivers {list : List FileObjPair}
    (h : Delivers d (appendFileObjPairLinkedList list) d') :
    readFileObjPathPairList true d = some (some (reloadPairs list), d') := by
  rw [appendFileObjPairLinkedList, delivers_append] at h
  obtain ⟨d₁, hlen, hpairs⟩ := h
  have hloop := times_delivers appendFileObjPair (fun ys => some (reloadPairs ys))
    readIntoFileObjList list hpairs (by
      intro ys pair zs _ r r' hr
      rw [appendFileObjPair, delivers_append] at hr
      obtain ⟨r₁, hf, ho⟩ := hr
      simp [readIntoFileObjList, miqsReadSizeT_of_delivers hf, miqsReadSizeT_of_delivers ho,
        reloadPairs])
  simp only [readFileObjPathPairList, miqsReadSizeT_of_delivers hlen, Option.bind_eq_bind,
    Option.bind_some, if_true]
  exact hloop

/-- What becomes of a leaf that is written and read back: its nodes are added anew in the order
of the walk. -/
def AttrLeaf.reload (leaf : AttrLeaf FileObjPair) : AttrLeaf FileObjPair :=
  if leaf.isNumeric then
    ⟨true, leaf.isFloat,
      leaf.rbt.map fun t => ⟨t.cmpKeysCb, addAll t.cmpKeysCb.eval [] (mapValues reloadPairs t.walk)⟩, none⟩
  else ⟨false, false, none, leaf.art.map fun m => AssocMap.mapValues reloadPairs (AssocMap.iter m)⟩

def AttrLeaf.nodeCount (leaf : AttrLeaf FileObjPair) : Nat :=
  if leaf.isNumeric then ((leaf.rbt.map Rbt.nodes).getD []).length else (leaf.art.getD []).length

def numericNodes (float : Bool) (nodes : List (NumKey × List FileObjPair)) : AttrLeaf FileObjPair :=
  ⟨true, float, some ⟨numericCmp float, addAll (numericCmp float).eval [] (mapValues reloadPairs nodes)⟩,
    none⟩

omit [AssocMap.Iteration CString] in
theorem readAttrValueNode_numeric {float : Bool} (nodes : List (NumKey × List FileObjPair))
    {node : NumKey × List FileObjPair} (hfit : keyFits float node.1) (n : Nat)
    (h : Delivers d ((if float then appendFloatValueNode else appendIntValueNode) node) d') :
    readAttrValueNode (numericType float) ((numericNodes float nodes, n), d) =
      some ((numericNodes float (nodes ++ [node]), n + 1), d') := by
  have hadd : (numericNodes float nodes).addKey node.1 (reloadPairs node.2) =
      some (numericNodes float (nodes ++ [node])) := by
    simp only [AttrLeaf.addKey, numericNodes, Rbt.add, Option.map_some, mapValues_append, addAll_append]
  cases node with
  | mk key pairs =>
    cases key with
    | int v =>
      obtain rfl : float = false := hfit
      simp only [Bool.false_eq_true, if_false, appendIntValueNode, delivers_append] at h
      obtain ⟨d₁, hv, hp⟩ := h
      simp [numericType, readAttrValueNode, miqsReadInt_of_delivers hv, NumKey.asInt,
        readValueAndPairs, readFileObjPathPairList_of_delivers hp, hadd]
    | double v =>
      obtain rfl : float = true := hfit
      simp only [if_true, appendFloatValueNode, delivers_append] at h
      obtain ⟨d₁, hv, hp⟩ := h
      simp [numericType, readAttrValueNode, miqsReadDouble_of_delivers hv, NumKey.asDouble,
        readValueAndPairs, readFileObjPathPairList_of_delivers hp, hadd]

def stringNodes (nodes : List (CString × List FileObjPair)) : AttrLeaf FileObjPair :=
  ⟨false, false, none, some (AssocMap.mapValues reloadPairs nodes)⟩

omit [AssocMap.Iteration CString] in
theorem readAttrValueNode_string {nodes : List (CString × List FileObjPair)}
    {node : CString × List FileObjPair} (hnew : ((nodes ++ [node]).map Prod.fst).Nodup) (n : Nat)
    (h : Delivers d (appendStringValueNode node) d') :
    readAttrValueNode .string ((stringNodes nodes, n), d) =
      some ((stringNodes (nodes ++ [node]), n + 1), d') := by
  have hins : (stringNodes nodes).insertString node.1 (reloadPairs node.2) =
      some (stringNodes (nodes ++ [node])) := by
    have hnot : node.1 ∉ (AssocMap.mapValues reloadPairs nodes).map Prod.fst := by
      rw [AssocMap.keys_mapValues]
      rw [List.map_append, List.nodup_append] at hnew
      intro hm
      exact hnew.2.2 node.1 hm node.1 (by simp) rfl
    simp only [AttrLeaf.insertString, stringNodes, Option.map_some,
      AssocMap.insert_of_not_mem hnot, AssocMap.mapValues_append]
  rw [appendStringValueNode, delivers_append] at h
  obtain ⟨d₁, hv, hp⟩ := h
  simp [readAttrValueNode, miqsReadString_of_delivers hv, readValueAndPairs,
    readFileObjPathPairList_of_delivers hp, hins]

inductive Readable : AttrLeaf FileObjPair → Prop
  | numeric (float : Bool) (nodes : List (NumKey × List FileObjPair)) (art)
      (fits : ∀ e ∈ nodes, keyFits float e.1) :
      Readable ⟨true, float, some ⟨numericCmp float, nodes⟩, art⟩
  | string (float : Bool) (nodes : List (CString × List FileObjPair)) (rbt)
      (distinct : (nodes.map Prod.fst).Nodup) : Readable ⟨false, float, rbt, some nodes⟩

omit [Descent NumKey] [AssocMap.Iteration CString] in
theorem LeafOk.readable {leaf : AttrLeaf FileObjPair} (ok : LeafOk leaf) : Readable leaf := by
  obtain ⟨isNumeric, isFloat, rbt, art⟩ := leaf
  cases isNumeric with
  | true =>
    obtain ⟨⟨cmp, nodes⟩, ht, hok⟩ := ok.tree
    obtain ⟨hcmp, hfit⟩ := hok rfl
    cases ht
    obtain rfl : cmp = numericCmp isFloat := hcmp
    exact .numeric isFloat nodes art hfit
  | false =>
    obtain ⟨m, hm, hnodup⟩ := ok.strings rfl
    cases hm
    exact .string isFloat m rbt hnodup

theorem Readable.appendAttrValues_isSome {leaf : AttrLeaf FileObjPair} (ok : Readable leaf) :
    ∃ values, appendAttrValues leaf = some values := by
  cases ok with
  | numeric float nodes art fits => exact ⟨_, rfl⟩
  | string float nodes rbt distinct => exact ⟨_, rfl⟩

def addCodes (cmp : CmpKeys) (nodes : List (NumKey × List FileObjPair)) : Nat :=
  (nodes.foldl (fun s e => (add cmp.eval s.1 e.1 e.2, s.2 ||| Rbt.addCode ⟨cmp, s.1⟩ e.1)) ([], 0)).2

omit [AssocMap.Iteration CString] in
theorem addCodes_append (cmp : CmpKeys) (nodes : List (NumKey × List FileObjPair))
    (e : NumKey × List FileObjPair) : addCodes cmp (nodes ++ [e]) =
      addCodes cmp nodes ||| Rbt.addCode ⟨cmp, addAll cmp.eval [] nodes⟩ e.1 := by
  have hfst : ∀ nodes : List (NumKey × List FileObjPair),
      (nodes.foldl (fun s e => (add cmp.eval s.1 e.1 e.2, s.2 ||| Rbt.addCode ⟨cmp, s.1⟩ e.1)) ([], 0)).1 =
        addAll cmp.eval [] nodes := by
    intro nodes
    induction nodes using List.reverseRecOn with
    | nil => rfl
    | append_singleton nodes x ih => rw [List.foldl_append, addAll_append, ← ih]; rfl
  rw [addCodes, List.foldl_append, ← hfst nodes]
  rfl

omit [AssocMap.Iteration CString] in
/-- Nodes that are apart from each other replace none. -/
theorem addCodes_of_separated {cmp : CmpKeys} {nodes : List (NumKey × List FileObjPair)}
    (h : Separated cmp.eval nodes) : addCodes cmp nodes = 0 := by
  induction nodes using List.reverseRecOn with
  | nil => rfl
  | append_singleton nodes e ih =>
    have hnodes : Separated cmp.eval nodes := List.Pairwise.sublist (by simp) h
    rw [addCodes_append, ih hnodes, addAll_of_separated hnodes, Rbt.addCode, find_of_separated h]
    rfl

def AttrLeaf.reloadCode (leaf : AttrLeaf FileObjPair) : Nat :=
  if leaf.isNumeric then
    (leaf.rbt.map fun t => addCodes t.cmpKeysCb (mapValues reloadPairs t.walk)).getD 0
  else 0

omit [AssocMap.Iteration CString] in
theorem addCode_numeric {float : Bool} (nodes : List (NumKey × List FileObjPair))
    {node : NumKey × List FileObjPair} (hfit : keyFits float node.1)
    (h : Delivers d ((if float then appendFloatValueNode else appendIntValueNode) node) d') :
    addCodes (numericCmp float) (mapValues reloadPairs nodes) |||
        addCode (numericType float) (numericNodes float nodes) d =
      addCodes (numericCmp float) (mapValues reloadPairs (nodes ++ [node])) := by
  rw [mapValues_append, addCodes_append]
  cases node with
  | mk key pairs =>
    cases key with
    | int v =>
      obtain rfl : float = false := hfit
      simp only [Bool.false_eq_true, if_false, appendIntValueNode, delivers_append] at h
      obtain ⟨d₁, hv, -⟩ := h
      simp [addCode, numericType, miqsReadInt_of_delivers hv, NumKey.asInt, numericNodes]
    | double v =>
      obtain rfl : float = true := hfit
      simp only [if_true, appendFloatValueNode, delivers_append] at h
      obtain ⟨d₁, hv, -⟩ := h
      simp [addCode, numericType, miqsReadDouble_of_delivers hv, NumKey.asDouble, numericNodes]

omit [AssocMap.Iteration CString] in
/-- A value region is read back if each of its nodes is, from the leaf of those before it. -/
theorem readAttrValuesRst_of_nodes {α : Type} {type : AttrType} {enc : α → List Field}
    {leafOf : List α → AttrLeaf FileObjPair} (codeOf : List α → Nat) (hfresh : loadedLeaf type = leafOf [])
    (hzero : codeOf [] = 0) (nodes : List α)
    (hnode : ∀ ys x zs, nodes = ys ++ x :: zs → ∀ n r r', Delivers r (enc x) r' →
      readAttrValueNode (S := S) type ((leafOf ys, n), r) = some ((leafOf (ys ++ [x]), n + 1), r') ∧
        codeOf ys ||| addCode type (leafOf ys) r = codeOf (ys ++ [x]))
    (n : Nat) (h : Delivers d (miqsAppendType type.toInt ++ (miqsAppendUint64 nodes.length ++
      nodes.flatMap enc)) d') :
    readAttrValuesRst n d = some (((leafOf nodes, n + nodes.length), codeOf nodes), d') := by
  rw [miqsAppendType, delivers_append] at h
  obtain ⟨d₁, htype, h⟩ := h
  obtain ⟨d₂, hcount, hnodes⟩ := delivers_append.mp h
  have hloop := times_delivers enc (fun ys => ((leafOf ys, n + ys.length), codeOf ys))
    (readAttrValueNodeRst type) nodes hnodes (by
      intro ys x zs hx r r' hr
      obtain ⟨hread, hcode⟩ := hnode ys x zs hx (n + ys.length) r r' hr
      simp [readAttrValueNodeRst, hread, hcode, Nat.add_assoc])
  have htypes : getMiqsTypeFromInt type.toInt = type := by cases type <;> rfl
  simp only [readAttrValuesRst, miqsReadInt_of_delivers htype, miqsReadUint64_of_delivers hcount,
    Option.bind_eq_bind, Option.bind_some, htypes, hfresh, ← hzero]
  exact hloop

/-- The value region of a leaf is read back as the reloaded leaf. -/
theorem readAttrValuesRst_of_delivers {leaf : AttrLeaf FileObjPair} (ok : Readable leaf)
    {values : List Field} (hw : appendAttrValues leaf = some values) (n : Nat)
    (h : Delivers d values d') :
    readAttrValuesRst n d = some (((leaf.reload, n + leaf.nodeCount), leaf.reloadCode), d') := by
  cases ok with
  | numeric float nodes art fits =>
    obtain rfl : appendNumericValueTree ⟨numericCmp float, nodes⟩ float = values := Option.some.inj hw
    rw [appendNumericValueTree] at h
    generalize hwalk : Rbt.walk ⟨numericCmp float, nodes⟩ = walked at h
    have hperm : walked.Perm nodes := hwalk ▸ walk_perm nodes
    have hfresh : loadedLeaf (numericType float) = numericNodes float [] := by cases float <;> rfl
    have hcode : (if float then 2 else 1 : CInt) = (numericType float).toInt := by cases float <;> rfl
    rw [hcode, ← hperm.length_eq] at h
    have hread := readAttrValuesRst_of_nodes
      (fun ys => addCodes (numericCmp float) (mapValues reloadPairs ys)) hfresh rfl walked (by
        intro ys node zs hx m r r' hr
        have hfit := fits node (hperm.mem_iff.mp (by simp [hx]))
        exact ⟨readAttrValueNode_numeric ys hfit m hr, addCode_numeric ys hfit hr⟩) n h
    simpa [AttrLeaf.reload, AttrLeaf.reloadCode, AttrLeaf.nodeCount, hwalk, numericNodes,
      hperm.length_eq] using hread
  | string float nodes rbt distinct =>
    obtain rfl : appendStringValueTree nodes = values := Option.some.inj hw
    have hperm : (AssocMap.iter nodes).Perm nodes := AssocMap.iter_perm nodes
    have hkeys : ((AssocMap.iter nodes).map Prod.fst).Nodup :=
      (hperm.map Prod.fst).nodup_iff.mpr distinct
    rw [appendStringValueTree, ← hperm.length_eq] at h
    have hfresh : loadedLeaf .string = stringNodes [] := rfl
    have hread := readAttrValuesRst_of_nodes (fun _ => 0) hfresh rfl (AssocMap.iter nodes) (by
      intro ys node zs hx m r r' hr
      have hpre : ((ys ++ [node]).map Prod.fst).Nodup := by
        rw [hx] at hkeys
        exact hkeys.sublist (by simp)
      exact ⟨readAttrValueNode_string hpre m hr, Nat.zero_or _⟩) n h
    simpa [AttrLeaf.reload, AttrLeaf.reloadCode, AttrLeaf.nodeCount, stringNodes, hperm.length_eq] using hread

def IndexAnchor.putLeaf (idx : IndexAnchor) (node : CString × AttrLeaf FileObjPair) : IndexAnchor :=
  { idx with partitions := idx.partitions.modify (djb2Hash node.1 % idx.parallelism) fun part =>
      { part with rootArt := AssocMap.insert part.rootArt node.1 node.2 } }

omit [Descent NumKey] [AssocMap.Iteration CString] in
theorem parallelism_putLeaf (idx : IndexAnchor) (node : CString × AttrLeaf FileObjPair) :
    (idx.putLeaf node).parallelism = idx.parallelism := by
  simp [IndexAnchor.parallelism, IndexAnchor.putLeaf]

omit [Descent NumKey] [AssocMap.Iteration CString] in
theorem parallelism_foldl_putLeaf (idx : IndexAnchor) (nodes : List (CString × AttrLeaf FileObjPair)) :
    (nodes.foldl IndexAnchor.putLeaf idx).parallelism = idx.parallelism := by
  induction nodes generalizing idx with
  | nil => rfl
  | cons node nodes ih => rw [List.foldl_cons, ih, parallelism_putLeaf]

omit [Descent NumKey] [AssocMap.Iteration CString] in
theorem linkLeaf_eq_putLeaf {idx : IndexAnchor} (hpos : 0 < idx.parallelism) (name : CString)
    (leaf : AttrLeaf FileObjPair) :
    idx.linkLeaf (djb2Hash name % idx.parallelism) name leaf = some (idx.putLeaf (name, leaf)) := by
  have hlt : djb2Hash name % idx.parallelism < idx.partitions.length := Nat.mod_lt _ hpos
  simp [IndexAnchor.linkLeaf, IndexAnchor.putLeaf, IndexAnchor.setPartition,
    List.getElem?_eq_getElem hlt, List.modify_eq_set_getElem?]

def reloadNode (node : CString × AttrLeaf FileObjPair) : CString × AttrLeaf FileObjPair :=
  (node.1, node.2.reload)

theorem readAttrNameNodeRst_of_delivers {idx : IndexAnchor} (hpos : 0 < idx.parallelism)
    {node : CString × AttrLeaf FileObjPair} (ok : Readable node.2) (n rst : Nat)
    (h : Delivers d ((appendAttrNameNode node).getD []) d') :
    readAttrNameNodeRst (((idx, n), rst), d) =
      some (((idx.putLeaf (reloadNode node), n + node.2.nodeCount), rst ||| node.2.reloadCode), d') := by
  obtain ⟨values, hvalues⟩ := ok.appendAttrValues_isSome
  simp only [appendAttrNameNode, hvalues, Option.map_some, Option.getD_some, delivers_append] at h
  obtain ⟨d₁, hname, hv⟩ := h
  simp only [readAttrNameNodeRst, miqsReadString_of_delivers hname, Option.bind_eq_bind,
    Option.bind_some, readAttrValuesRst_of_delivers ok hvalues n hv, linkLeaf_eq_putLeaf hpos]
  rfl

def attrRegion (art : Art (AttrLeaf FileObjPair)) : List Field :=
  miqsAppendUint64 art.length ++
    (AssocMap.iter art).flatMap fun node => (appendAttrNameNode node).getD []

theorem appendAttrRootTree_eq {art : Art (AttrLeaf FileObjPair)}
    (ok : ∀ e ∈ art, ∃ values, appendAttrValues e.2 = some values) :
    appendAttrRootTree art = some (attrRegion art) := by
  have hm : (AssocMap.iter art).mapM appendAttrNameNode =
      some ((AssocMap.iter art).map fun node => (appendAttrNameNode node).getD []) := by
    apply mapM_of_map_eq_some
    rw [List.map_map]
    apply List.map_congr_left
    intro node hnode
    obtain ⟨values, hvalues⟩ := ok node ((AssocMap.iter_perm art).mem_iff.mp hnode)
    simp [appendAttrNameNode, hvalues]
  simp [appendAttrRootTree, hm, attrRegion, List.flatMap_def]

def reloadCodes (nodes : List (CString × AttrLeaf FileObjPair)) : Nat :=
  nodes.foldl (fun rst node => rst ||| node.2.reloadCode) 0

theorem readIntoAttrRootTreeRst_of_delivers {idx : IndexAnchor} (hpos : 0 < idx.parallelism)
    {art : Art (AttrLeaf FileObjPair)} (ok : ∀ e ∈ art, Readable e.2)
    (h : Delivers d (attrRegion art) d') :
    readIntoAttrRootTreeRst idx d =
      some (if reloadCodes (AssocMap.iter art) = 0 then 1 else 0,
        (((AssocMap.iter art).map reloadNode).foldl IndexAnchor.putLeaf idx,
        ((AssocMap.iter art).map fun node => node.2.nodeCount).sum), d') := by
  rw [attrRegion, delivers_append] at h
  obtain ⟨d₁, hcount, hnodes⟩ := h
  have hloop := times_delivers _ (fun ys => (((ys.map reloadNode).foldl IndexAnchor.putLeaf idx,
      (ys.map fun node => node.2.nodeCount).sum), reloadCodes ys)) readAttrNameNodeRst (AssocMap.iter art) hnodes (by
    intro ys node zs hx r r' hr
    have hmem : node ∈ art := (AssocMap.iter_perm art).mem_iff.mp (by simp [hx])
    have hpos' : 0 < ((ys.map reloadNode).foldl IndexAnchor.putLeaf idx).parallelism := by
      rwa [parallelism_foldl_putLeaf]
    have hr := readAttrNameNodeRst_of_delivers hpos' (ok node hmem)
      (ys.map fun node => node.2.nodeCount).sum (reloadCodes ys) hr
    simpa [reloadCodes] using hr)
  rw [(AssocMap.iter_perm art).length_eq] at hloop
  simp only [readIntoAttrRootTreeRst, miqsReadUint64_of_delivers hcount, Option.bind_eq_bind,
    Option.bind_some]
  rw [show times art.length readAttrNameNodeRst (((idx, 0), 0), d₁) = _ from hloop]
  rfl

def dropRst {σ : Type} (s : (σ × Nat) × DiskStream S) : σ × DiskStream S := (s.1.1, s.2)

omit [AssocMap.Iteration CString] in
theorem readAttrValuesRst_dropRst (n : Nat) (d : DiskStream S) :
    (readAttrValuesRst n d).map dropRst = readAttrValues n d := by
  have hnode : ∀ type s, (readAttrValueNodeRst type s).map dropRst =
      readAttrValueNode (S := S) type (dropRst s) := by
    intro type s
    unfold readAttrValueNodeRst
    cases hr : readAttrValueNode type (s.1.1, s.2) <;> simp [dropRst, hr]
  unfold readAttrValuesRst readAttrValues
  generalize miqsReadInt d = r
  obtain ⟨tv, d₁⟩ := r
  cases tv with
  | none => rfl
  | some tv =>
    simp only [Option.bind_eq_bind, Option.bind_some]
    generalize miqsReadUint64 d₁ = r
    obtain ⟨numValues, d₂⟩ := r
    cases numValues with
    | none => rfl
    | some numValues => exact times_map (hnode _) numValues _

omit [AssocMap.Iteration CString] in
theorem readAttrNameNodeRst_dropRst (s : ((IndexAnchor × Nat) × Nat) × DiskStream S) :
    (readAttrNameNodeRst s).map dropRst = readAttrNameNode (dropRst s) := by
  unfold readAttrNameNodeRst readAttrNameNode
  simp only [dropRst, ← readAttrValuesRst_dropRst]
  generalize miqsReadString s.2 = r
  obtain ⟨attrName, d⟩ := r
  cases attrName with
  | none => rfl
  | some attrName =>
    simp only [Option.bind_eq_bind, Option.bind_some]
    cases readAttrValuesRst s.1.1.2 d with
    | none => rfl
    | some r =>
      simp only [Option.map_some, Option.bind_some, dropRst]
      cases s.1.1.1.linkLeaf (djb2Hash attrName % s.1.1.1.parallelism) attrName r.1.1.1 <;> rfl

omit [AssocMap.Iteration CString] in
/-- Apart from the code the reader is the one that loads an MDB file. -/
theorem readIntoAttrRootTreeRst_snd (idx : IndexAnchor) (d : DiskStream S) :
    (readIntoAttrRootTreeRst idx d).map Prod.snd = readIntoAttrRootTree idx d := by
  unfold readIntoAttrRootTreeRst readIntoAttrRootTree
  generalize miqsReadUint64 d = r
  obtain ⟨numAttrs, d₁⟩ := r
  cases numAttrs with
  | none => rfl
  | some numAttrs =>
    have hloop := times_map readAttrNameNodeRst_dropRst numAttrs (((idx, 0), 0), d₁)
    simp only [Option.bind_eq_bind, Option.bind_some]
    rw [dropRst] at hloop
    rw [← hloop]
    cases times numAttrs readAttrNameNodeRst (((idx, 0), 0), d₁) <;> rfl

theorem readIntoAttrRootTree_of_delivers {idx : IndexAnchor} (hpos : 0 < idx.parallelism)
    {art : Art (AttrLeaf FileObjPair)} (ok : ∀ e ∈ art, Readable e.2)
    (h : Delivers d (attrRegion art) d') :
    readIntoAttrRootTree idx d =
      some ((((AssocMap.iter art).map reloadNode).foldl IndexAnchor.putLeaf idx,
        ((AssocMap.iter art).map fun node => node.2.nodeCount).sum), d') := by
  rw [← readIntoAttrRootTreeRst_snd, readIntoAttrRootTreeRst_of_delivers hpos ok h, Option.map_some]

def pathFields (e : CString × Nat) : List Field :=
  miqsAppendStringWithLen e.1.bytes ++ miqsAppendSizeT e.2

def PathTable.region (t : PathTable) : List Field :=
  miqsAppendSizeT t.paths.length ++ t.paths.zipIdx.flatMap pathFields

omit [Descent NumKey] [AssocMap.Iteration CString] in
theorem PathTable.region_eq (t : PathTable) :
    t.region = miqsAppendSizeT t.paths.zipIdx.length ++ t.paths.zipIdx.flatMap pathFields := by
  rw [PathTable.region, List.length_zipIdx]

omit [Descent NumKey] [AssocMap.Iteration CString] in
theorem appendPathList_toLinkedList (t : PathTable) :
    appendPathList t.toLinkedList = some t.region := by
  have hm : ∀ (paths : List CString) (pos : Nat), (entriesFrom pos paths).mapM appendPath =
      some ((paths.zipIdx pos).map pathFields) := by
    intro paths
    induction paths with
    | nil => intro pos; rfl
    | cons path paths ih =>
      intro pos
      simp [entriesFrom, List.mapM_cons, ih, appendPath, miqsAppendString, pathFields]
  simp [appendPathList, PathTable.toLinkedList, hm, PathTable.region, length_entriesFrom,
    List.flatMap_def]

omit [Descent NumKey] [AssocMap.Iteration CString] in
/-- Inserting at the end of the part read so far moves the older entries up. -/
theorem listInsertTaggedValue_append (new list : LinkedList) (tval : TaggedValue) :
    listInsertTaggedValue (new ++ list) tval new.length = new ++ some tval :: list := by
  cases new with
  | nil => simp [listInsertTaggedValue]
  | cons e new =>
    cases list with
    | nil => simp [listInsertTaggedValue]
    | cons e' list => simp [listInsertTaggedValue]

def putPaths (list : LinkedList) (paths : List (CString × Nat)) : LinkedList :=
  paths.foldl (fun l e => listInsertTaggedValue l ⟨.to e.1, e.2⟩ e.2) list

omit [Descent NumKey] [AssocMap.Iteration CString] in
theorem readIntoPathList_of_paths (paths : List (CString × Nat)) (list : LinkedList)
    (h : Delivers d (miqsAppendSizeT paths.length ++ paths.flatMap pathFields) d') :
    readIntoPathList list d = some (putPaths list paths, d') := by
  obtain ⟨d₁, hlen, hpaths⟩ := delivers_append.mp h
  have hloop := times_delivers pathFields (putPaths list) readPath paths hpaths (by
    intro ys e zs _ r r' hr
    rw [pathFields, delivers_append] at hr
    obtain ⟨r₁, htag, hpos⟩ := hr
    simp [readPath, miqsReadString_of_delivers htag, miqsReadSizeT_of_delivers hpos, readCharPtr,
      listCreateTaggedValue, putPaths])
  simp only [readIntoPathList, miqsReadSizeT_of_delivers hlen, Option.bind_eq_bind,
    Option.bind_some]
  exact hloop

omit [Descent NumKey] [AssocMap.Iteration CString] in
/-- A path table goes before what is in the list. -/
theorem putPaths_zipIdx (list : LinkedList) (paths : List CString) :
    putPaths list paths.zipIdx = entriesFrom 0 paths ++ list := by
  induction paths using List.reverseRecOn with
  | nil => rfl
  | append_singleton paths path ih =>
    have hins := listInsertTaggedValue_append (entriesFrom 0 paths) list ⟨.to path, paths.length⟩
    rw [length_entriesFrom] at hins
    rw [putPaths] at ih ⊢
    rw [List.zipIdx_append, List.foldl_append, ih]
    simp [hins, entriesFrom_append, entriesFrom]

end Miqs.Index
