import Miqs.MdbLoad

/-! Writer and reader of the MDB file agree for a single partition only: the
writer puts all name trees after each pair of path tables, the reader expects one. -/
namespace Miqs.Index
open Miqs.CData Miqs.BinFileOps Miqs.KeyedTree Miqs.TokenStream
variable {π : Type} [Descent NumKey] [AssocMap.Iteration CString]

def AttrLeaf.strEntries (leaf : AttrLeaf π) : List (CString × List π) := leaf.art.getD []

structure SamePartition (part part' : Partition) : Prop where
  files : part'.filePathsList = part.filePathsList
  objects : part'.objectPathsList = part.objectPathsList
  names : (part'.rootArt.map Prod.fst).Perm (part.rootArt.map Prod.fst)
  values : ∀ n leaf leaf', (n, leaf) ∈ part.rootArt → (n, leaf') ∈ part'.rootArt →
    leaf'.numEntries.Perm leaf.numEntries ∧ leaf'.strEntries.Perm leaf.strEntries

/-- Every field of the dumped file is read as what it is, none is left over, and
the loaded partitions are those of the index. -/
def ReadsBack (numAttrsPtr : Nat) (idx : IndexAnchor) : Prop :=
  ∃ file K, dumpMdbIndexToDisk idx = some file ∧
    loadMdbFileToIndex numAttrsPtr file none = some (0, K, ⟨[], false⟩) ∧
    K.partitions.length = idx.partitions.length ∧
    ∀ (i : Nat) part part', idx.partitions[i]? = some part → K.partitions[i]? = some part' →
      SamePartition part part'

def NoHiddenNumbers (idx : IndexAnchor) : Prop :=
  ∀ part ∈ idx.partitions, ∀ e ∈ part.rootArt, e.2.isNumeric = false → e.2.numEntries = []

instance (idx : IndexAnchor) : Decidable (NoHiddenNumbers idx) :=
  inferInstanceAs (Decidable (∀ part ∈ idx.partitions, ∀ e ∈ part.rootArt,
    e.2.isNumeric = false → e.2.numEntries = []))

def NodesApart (idx : IndexAnchor) : Prop :=
  ∀ part ∈ idx.partitions, ∀ e ∈ part.rootArt, e.2.isNumeric = true → e.2.Apart

instance (idx : IndexAnchor) : Decidable (NodesApart idx) :=
  inferInstanceAs (Decidable (∀ part ∈ idx.partitions, ∀ e ∈ part.rootArt, e.2.isNumeric = true → e.2.Apart))

def KeysFit (idx : IndexAnchor) : Prop := ∀ part ∈ idx.partitions, ∀ e ∈ part.rootArt, e.2.KeysFit

omit [AssocMap.Iteration CString] in
/-- A path table cannot be read where the writer has put a name tree. -/
theorem readPartition_at_tree (s : IndexAnchor × Nat) (i n : Nat) (rest : List Field) (b : Bool) :
    readPartition (s, (DiskStream.mk (miqsAppendUint64 n ++ rest) b)) i = none := by
  unfold readPartition
  cases hp : s.1.partitions[i]? with
  | none => rfl
  | some part => rfl

/-- With two or more partitions the reader faults in its second round. -/
theorem loadMdbFileToIndex_faults {p : Nat} (hp : 2 ≤ p) {idx : IndexAnchor} {I : PathIndex}
    (hr : Represents p idx I) {file : List Field} (hfile : dumpMdbIndexToDisk idx = some file)
    (numAttrsPtr : Nat) : loadMdbFileToIndex numAttrsPtr file none = none := by
  obtain ⟨part₀, part₁, parts, hparts⟩ : ∃ part₀ part₁ parts,
      idx.partitions = part₀ :: part₁ :: parts := by
    have hsize := hr.size
    cases hl : idx.partitions with
    | nil => simp [hl] at hsize; omega
    | cons part₀ l =>
      cases l with
      | nil => simp [hl] at hsize; omega
      | cons part₁ parts => exact ⟨part₀, part₁, parts, rfl⟩
  have ok : PartitionOk p 0 part₀ := hr.partition 0 part₀ (by simp [hparts])
  obtain ⟨F, hF⟩ := ok.files
  obtain ⟨O, hO⟩ := ok.objects
  -- the file up to the count of the second name tree
  obtain ⟨rest, hshape⟩ : ∃ rest, file = miqsAppendSizeT p ++
      ((F.region ++ (O.region ++ attrRegion part₀.rootArt)) ++
        (miqsAppendUint64 part₁.rootArt.length ++ rest)) := by
    rw [dumpMdbIndexToDisk_eq hr, hparts] at hfile
    simp only [List.flatMap_cons, appendPartition_eq hr hF hO, Option.getD_some, hparts,
      Option.some.injEq] at hfile
    rw [← hfile]
    simp only [attrRegion, List.append_assoc]
    exact ⟨_, rfl⟩
  have hhead := miqsReadSizeT_of_delivers (delivers_file (miqsAppendSizeT p)
    ((F.region ++ (O.region ++ attrRegion part₀.rootArt)) ++
      (miqsAppendUint64 part₁.rootArt.length ++ rest)) false)
  have hpart : (initInMemIndex p).partitions[0]? = some ⟨[], [], []⟩ := by
    simp only [initInMemIndex, List.getElem?_replicate]
    rw [if_pos (by omega)]
  have hread := readPartition_of_delivers hpart F O ok.tree.leaves 0
    (delivers_file (F.region ++ (O.region ++ attrRegion part₀.rootArt))
      (miqsAppendUint64 part₁.rootArt.length ++ rest) false)
  obtain ⟨is, his⟩ : ∃ is, List.range (initInMemIndex p).parallelism = 0 :: 1 :: is := by
    obtain ⟨q, rfl⟩ : ∃ q, p = q + 2 := ⟨p - 2, by omega⟩
    refine ⟨(List.range q).map (· + 2), ?_⟩
    simp [initInMemIndex, IndexAnchor.parallelism, List.range_succ_eq_map]
  rw [hshape]
  simp only [loadMdbFileToIndex, hhead, loadAnchor, Option.map_some, Option.bind_eq_bind,
    Option.bind_some, his, List.foldlM_cons, hread, readPartition_at_tree, Option.bind_none]

/-- A leaf that keeps its entries hides no numbers. -/
theorem numEntries_of_rewalk {leaf : AttrLeaf π} (hnum : leaf.isNumeric = false)
    (h : leaf.rewalk.numEntries.Perm leaf.numEntries) : leaf.numEntries = [] := by
  have hnil : leaf.rewalk.numEntries = [] := by simp [AttrLeaf.rewalk, hnum, AttrLeaf.numEntries]
  rw [hnil, List.nil_perm] at h
  exact h

/-- Only the numbers hidden in a string leaf are lost, if no two nodes of a tree compare equal. -/
theorem entries_rewalk {leaf : AttrLeaf π} (ok : LeafOk leaf) (hapart : leaf.isNumeric = true → leaf.Apart)
    (hhidden : leaf.isNumeric = false → leaf.numEntries = []) :
    leaf.rewalk.numEntries.Perm leaf.numEntries ∧ leaf.rewalk.strEntries.Perm leaf.strEntries := by
  cases hnum : leaf.isNumeric with
  | true =>
    obtain ⟨t, ht, -⟩ := ok.tree
    rw [AttrLeaf.rewalk_of_apart hnum (hapart hnum)]
    simp [AttrLeaf.numEntries, AttrLeaf.strEntries, ht, ok.numeric hnum, walk_perm]
  | false =>
    obtain ⟨m, hm, -⟩ := ok.strings hnum
    rw [hhidden hnum]
    simp [AttrLeaf.rewalk, hnum, AttrLeaf.numEntries, AttrLeaf.strEntries, hm, AssocMap.iter_perm]

theorem mergedTree_nil {new : Art (AttrLeaf FileObjPair)} (hn : (new.map Prod.fst).Nodup) :
    mergedTree [] new = AssocMap.mapValues AttrLeaf.rewalk (AssocMap.iter new) := by
  apply AssocMap.foldl_insert
  rw [List.nil_append, AssocMap.keys_mapValues]
  exact ((AssocMap.iter_perm new).map Prod.fst).nodup_iff.mpr hn

theorem mem_mergedTree_nil {new : Art (AttrLeaf FileObjPair)} (hn : (new.map Prod.fst).Nodup)
    {n : CString} {leaf leaf' : AttrLeaf FileObjPair} (h : (n, leaf) ∈ new)
    (h' : (n, leaf') ∈ mergedTree [] new) : leaf' = leaf.rewalk := by
  have hn' : ((mergedTree [] new).map Prod.fst).Nodup := by
    rw [mergedTree_nil hn, AssocMap.keys_mapValues]
    exact ((AssocMap.iter_perm new).map Prod.fst).nodup_iff.mpr hn
  have hs := search_mergedTree [] hn n
  rw [AssocMap.search_of_mem hn' h', AssocMap.search_of_mem hn h] at hs
  simpa using hs

theorem ReadsBack.noHiddenNumbers {J : IndexAnchor} {PJ : PathIndex} (hr : Represents 1 J PJ)
    {numAttrsPtr : Nat} (h : ReadsBack numAttrsPtr J) : NoHiddenNumbers J := by
  obtain ⟨part, hpart⟩ := hr.one
  have ok : PartitionOk 1 0 part := hr.partition 0 part (by simp [hpart])
  obtain ⟨file, K, hdump, hload, hK⟩ := loadMdbFileToIndex_one hr hpart numAttrsPtr none
    (show ((none : Option IndexAnchor).getD (initInMemIndex 1)).partitions = [⟨[], [], []⟩] from rfl)
  obtain ⟨file', K', hdump', hload', -, hsame⟩ := h
  obtain rfl := Option.some.inj (hdump.symm.trans hdump')
  rw [hload] at hload'
  cases hload'
  intro q hq e he hnum
  obtain rfl : q = part := by simpa [hpart] using hq
  have hs := hsame 0 q _ (by simp [hpart]) (by rw [hK]; rfl)
  have hmem : (e.1, e.2.rewalk) ∈ mergedTree [] q.rootArt := by
    rw [mergedTree_nil ok.tree.names]
    exact List.mem_map.mpr ⟨e, (AssocMap.iter_perm _).mem_iff.mpr he, rfl⟩
  exact numEntries_of_rewalk hnum (hs.values e.1 e.2 e.2.rewalk he hmem).1

theorem readsBack_one {J : IndexAnchor} {PJ : PathIndex} (hr : Represents 1 J PJ) (numAttrsPtr : Nat)
    (hhidden : NoHiddenNumbers J) (hapart : NodesApart J) : ReadsBack numAttrsPtr J := by
  obtain ⟨part, hpart⟩ := hr.one
  have ok : PartitionOk 1 0 part := hr.partition 0 part (by simp [hpart])
  have hmem : part ∈ J.partitions := by simp [hpart]
  obtain ⟨file, K, hdump, hload, hK⟩ := loadMdbFileToIndex_one hr hpart numAttrsPtr none
    (show ((none : Option IndexAnchor).getD (initInMemIndex 1)).partitions = [⟨[], [], []⟩] from rfl)
  simp only [List.append_nil] at hK
  refine ⟨file, K, hdump, hload, by rw [hK, hpart]; rfl, ?_⟩
  intro i q q' hq hq'
  have hi : i = 0 := by
    have hlt := (List.getElem?_eq_some_iff.mp hq).1
    rw [hpart, List.length_singleton] at hlt
    omega
  subst hi
  rw [hpart] at hq
  rw [hK] at hq'
  cases hq
  cases hq'
  refine ⟨rfl, rfl, ?_, ?_⟩
  · rw [mergedTree_nil ok.tree.names, AssocMap.keys_mapValues]
    exact (AssocMap.iter_perm _).map Prod.fst
  · intro n leaf leaf' hl hl'
    rw [mem_mergedTree_nil ok.tree.names hl hl']
    exact entries_rewalk (ok.tree.leaves _ hl) (hapart part hmem _ hl) (hhidden part hmem _ hl)

omit [AssocMap.Iteration CString] in
/-- In an index that was built by indexing, nodes compare equal only if keys do not fit. -/
theorem Represents.nodesApart {p : Nat} {idx : IndexAnchor} {as : List Attribute}
    (hr : Represents p idx (pathIndexAll as)) (hfit : KeysFit idx) : NodesApart idx := by
  intro part hpart e he hnum
  obtain ⟨h, hh⟩ := List.mem_iff_getElem?.mp hpart
  have ok := (hr.partition h part hh).tree
  have hl : idx.leafOf e.1 = some e.2 := by
    simp [IndexAnchor.leafOf, IndexAnchor.parallelism, hr.size, ok.home e he, hh,
      AssocMap.search_of_mem ok.names he]
  exact hr.apart hl (ok.leaves e he) hnum (hfit part hpart e he)

end Miqs.Index
