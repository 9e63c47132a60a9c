import Miqs.MdbAlignment

/-! Loading the file of one index into another. Positions in the file are those of
the dumped index, while the tables already hold other paths, and a loaded leaf
takes the place of the leaf with its name. -/
namespace Miqs.Index
open Miqs.CData Miqs.BinFileOps Miqs.KeyedTree Miqs.TokenStream
variable {π ρ : Type} [Descent NumKey] [AssocMap.Iteration CString]

theorem pairs_rewalk_numeric {leaf : AttrLeaf π} (ok : LeafOk leaf) (hnum : leaf.isNumeric = true)
    (hapart : leaf.Apart) : leaf.rewalk.pairs.Perm leaf.pairs := by
  obtain ⟨t, ht, -⟩ := ok.tree
  rw [AttrLeaf.rewalk_of_apart hnum hapart]
  simp only [AttrLeaf.pairs, ht, ok.numeric hnum, Option.map_some, Option.getD_some]
  exact ((walk_perm t.nodes).flatMap_right _).append_right _

theorem pairs_rewalk_string {leaf : AttrLeaf π} (ok : LeafOk leaf) (hnum : leaf.isNumeric = false) :
    leaf.rewalk.pairs.Perm (leaf.strEntries.flatMap Prod.snd) := by
  obtain ⟨m, hm, -⟩ := ok.strings hnum
  simp only [AttrLeaf.pairs, AttrLeaf.rewalk, hnum, Bool.false_eq_true, if_false, hm,
    Option.map_none, Option.getD_none, Option.map_some, Option.getD_some, AttrLeaf.strEntries,
    List.flatMap_nil, List.nil_append]
  exact (AssocMap.iter_perm m).flatMap_right _

theorem mem_pairs_of_rewalk {leaf : AttrLeaf π} (ok : LeafOk leaf) {x : π}
    (h : x ∈ leaf.rewalk.pairs) : x ∈ leaf.pairs := by
  cases hnum : leaf.isNumeric with
  | true =>
    obtain ⟨t, ht, -⟩ := ok.tree
    simp only [AttrLeaf.pairs, AttrLeaf.rewalk, hnum, if_true, ht, Option.map_some, Option.getD_some,
      Option.getD_none, List.flatMap_nil, List.append_nil] at h ⊢
    obtain ⟨e, he, hx⟩ := List.mem_flatMap.mp h
    have hmem : e ∈ t.nodes := forall_addAll (P := fun e => e ∈ t.nodes) (by simp)
      (fun e he => (walk_perm t.nodes).mem_iff.mp he) e he
    exact List.mem_append_left _ (List.mem_flatMap.mpr ⟨e, hmem, hx⟩)
  | false => exact List.mem_append_right _ ((pairs_rewalk_string ok hnum).mem_iff.mp h)

/-- A leaf that was read back holds no more than before, but it may hold less. -/
theorem length_pairs_rewalk_le {leaf : AttrLeaf π} (ok : LeafOk leaf) :
    leaf.rewalk.pairs.length ≤ leaf.pairs.length := by
  cases hnum : leaf.isNumeric with
  | true =>
    obtain ⟨t, ht, -⟩ := ok.tree
    have hle : total (addAll t.cmpKeysCb.eval [] (walk t.cmpKeysCb.eval t.nodes)) ≤
        total [] + total (walk t.cmpKeysCb.eval t.nodes) := total_addAll_le _ _
    have hperm : (walk t.cmpKeysCb.eval t.nodes).Perm t.nodes := walk_perm _
    have hwalk := (hperm.map fun e => e.2.length).sum_eq
    simp only [AttrLeaf.pairs, AttrLeaf.rewalk, hnum, if_true, ht, ok.numeric hnum, Option.map_some,
      Option.getD_some, Option.getD_none, List.flatMap_nil, List.append_nil, List.length_flatMap]
    simpa only [total, List.map_nil, List.sum_nil, Nat.zero_add, hwalk] using hle
  | false =>
    rw [(pairs_rewalk_string ok hnum).length_eq, AttrLeaf.pairs, List.length_append,
      AttrLeaf.strEntries]
    omega

theorem pairs_rewalk_of_eq_nil {leaf : AttrLeaf π} (ok : LeafOk leaf) (h : leaf.pairs = []) :
    leaf.rewalk.pairs = [] := by
  have hle := length_pairs_rewalk_le ok
  rw [h, List.length_nil] at hle
  exact List.eq_nil_of_length_eq_zero (by omega)

/-- What is found in the tree of a numeric leaf does not depend on its shape: its ints lie in a
window, or its doubles are finite and near each other, and nodes that one query is level with hold
the same pairs, as `f` sees them. -/
structure AttrLeaf.ShapeFree (f : π → ρ) (leaf : AttrLeaf π) : Prop where
  ints : leaf.isFloat = false → IntsFit (leaf.keys.map NumKey.asInt)
  finite : leaf.isFloat = true → ∀ k ∈ leaf.keys, CDouble.isFinite k.asDouble
  near : leaf.isFloat = true → ∀ k ∈ leaf.keys, ∀ k' ∈ leaf.keys,
    |CDouble.toRat k.asDouble - CDouble.toRat k'.asDouble| < (2^31 - 1 : Nat)
  level : leaf.isFloat = true → ∀ e ∈ leaf.numEntries, ∀ e' ∈ leaf.numEntries, ∀ v,
    libhlCmpKeysDouble e.1 (.double v) = 0 → libhlCmpKeysDouble e'.1 (.double v) = 0 →
      (e.2.map f).Perm (e'.2.map f)

omit [Descent NumKey] [AssocMap.Iteration CString] in
theorem AttrLeaf.ShapeFree.keysFit {f : π → ρ} {leaf : AttrLeaf π} (h : leaf.ShapeFree f) :
    leaf.KeysFit := by
  intro _
  cases hfloat : leaf.isFloat with
  | false => exact h.ints hfloat
  | true =>
    refine ⟨h.finite hfloat, ?_⟩
    intro v hv w hw _ _
    obtain ⟨k, hk, rfl⟩ := List.mem_map.mp hv
    obtain ⟨k', hk', rfl⟩ := List.mem_map.mp hw
    exact (h.near hfloat k hk k' hk').trans (by norm_num)

omit [Descent NumKey] [AssocMap.Iteration CString] in
/-- A double that is level with one of them fits with the doubles of a leaf. -/
theorem AttrLeaf.ShapeFree.fit_level {f : π → ρ} {leaf : AttrLeaf π} (h : leaf.ShapeFree f)
    (hfloat : leaf.isFloat = true) {k : NumKey} (hk : k ∈ leaf.keys) {v : CDouble}
    (hlevel : |CDouble.toRat k.asDouble - CDouble.toRat v| < 1) :
    DoublesFit (v :: leaf.keys.map NumKey.asDouble) := by
  have hv : ∀ k' ∈ leaf.keys, |CDouble.toRat v - CDouble.toRat k'.asDouble| < (2^31 : Nat) := by
    intro k' hk'
    calc |CDouble.toRat v - CDouble.toRat k'.asDouble|
        ≤ |CDouble.toRat v - CDouble.toRat k.asDouble| +
            |CDouble.toRat k.asDouble - CDouble.toRat k'.asDouble| := abs_sub_le _ _ _
      _ < 1 + (2^31 - 1 : Nat) := add_lt_add (by rwa [abs_sub_comm]) (h.near hfloat k hk k' hk')
      _ = (2^31 : Nat) := by norm_num
  intro a ha b hb _ _
  simp only [List.mem_cons, List.mem_map] at ha hb
  rcases ha with rfl | ⟨ka, hka, rfl⟩ <;> rcases hb with rfl | ⟨kb, hkb, rfl⟩
  · simp
  · exact hv kb hkb
  · rw [abs_sub_comm]
    exact hv ka hka
  · exact (h.near hfloat ka hka kb hkb).trans (by norm_num)

omit [Descent NumKey] [AssocMap.Iteration CString] in
/-- A key that is level with one of a tree is of its type. -/
theorem keyFits_of_level {float : Bool} {k key : NumKey} (hk : keyFits float k)
    (hlevel : (numericCmp float).eval k key = 0) : keyFits float key := by
  have hsize : k.size = key.size :=
    Decidable.not_not.mp fun hne => CmpKeys.eval_of_size_ne _ hne hlevel
  cases k <;> cases key <;> first | exact hk | simp [NumKey.size] at hsize

omit [AssocMap.Iteration CString] in
/-- No node is missed by a query that one of them is level with. -/
theorem AttrLeaf.ShapeFree.finds {f : π → ρ} {leaf : AttrLeaf π} (h : leaf.ShapeFree f) (ok : LeafOk leaf)
    (hnum : leaf.isNumeric = true) {k key : NumKey} (hk : k ∈ leaf.keys)
    (hlevel : (numericCmp leaf.isFloat).eval k key = 0) :
    Finds (numericCmp leaf.isFloat).eval fun k' => k' = key ∨ k' ∈ leaf.keys := by
  have hfits := ok.keyFits hnum
  have hkey := keyFits_of_level (hfits k hk) hlevel
  cases hfloat : leaf.isFloat with
  | false =>
    have hord := ok.ordered hnum h.keysFit
    rw [hfloat] at hfits hkey hlevel hord
    obtain ⟨v, rfl⟩ := keyFits_int (hfits k hk)
    obtain ⟨w, rfl⟩ := keyFits_int hkey
    obtain rfl := (libhlCmpKeysInt_int v w).mp hlevel
    exact (finds_of_ordered hord).mono fun k' hk' => hk'.elim (fun heq => heq ▸ hk) id
  | true =>
    rw [hfloat] at hfits hkey hlevel
    obtain ⟨v, rfl⟩ := keyFits_double (hfits k hk)
    obtain ⟨w, rfl⟩ := keyFits_double hkey
    have hzero : doubleDiff v w = 0 := (libhlCmpKeysDouble_double v w).symm.trans hlevel
    obtain ⟨-, hfin, hlt⟩ := (doubleDiff_eq_zero v w).mp hzero
    have hall : ∀ u ∈ w :: leaf.keys.map NumKey.asDouble, CDouble.isFinite u := by
      simpa using ⟨hfin, h.finite hfloat⟩
    refine (finds_doubles hall (h.fit_level hfloat hk hlt)).mono ?_
    rintro k' (rfl | hk')
    · exact ⟨w, by simp, rfl⟩
    · obtain ⟨u, rfl⟩ := keyFits_double (hfits k' hk')
      exact ⟨u, List.mem_cons_of_mem _ (List.mem_map.mpr ⟨_, hk', rfl⟩), rfl⟩

omit [Descent NumKey] [AssocMap.Iteration CString] in
/-- The nodes a query may find hold the same pairs. -/
theorem AttrLeaf.ShapeFree.samePairs {f : π → ρ} {leaf : AttrLeaf π} (h : leaf.ShapeFree f) (ok : LeafOk leaf)
    (hnum : leaf.isNumeric = true) (hapart : Separated (numericCmp leaf.isFloat).eval leaf.numEntries)
    {a b : NumKey × List π} (ha : a ∈ leaf.numEntries) (hb : b ∈ leaf.numEntries) {key : NumKey}
    (hza : (numericCmp leaf.isFloat).eval a.1 key = 0) (hzb : (numericCmp leaf.isFloat).eval b.1 key = 0) :
    (a.2.map f).Perm (b.2.map f) := by
  have hfa := ok.keyFits hnum a.1 (List.mem_map_of_mem ha)
  have hfb := ok.keyFits hnum b.1 (List.mem_map_of_mem hb)
  have hkey := keyFits_of_level hfa hza
  cases hfloat : leaf.isFloat with
  | false =>
    rw [hfloat] at hza hzb hapart hfa hfb hkey
    obtain ⟨w, rfl⟩ := keyFits_int hkey
    have hint : ∀ k, keyFits false k → (numericCmp false).eval k (.int w) = 0 → k = .int w := by
      intro k hk hz
      obtain ⟨u, rfl⟩ := keyFits_int hk
      rw [(libhlCmpKeysInt_int u w).mp hz]
    have hself : (numericCmp false).eval a.1 b.1 = 0 := by
      rw [hint _ hfa hza, hint _ hfb hzb]
      exact (libhlCmpKeysInt_int w w).mpr rfl
    rw [hapart.eq_of_mem ha hb hself (CmpKeys.eval_comm hself)]
  | true =>
    rw [hfloat] at hza hzb hkey
    obtain ⟨w, rfl⟩ := keyFits_double hkey
    exact h.level hfloat a ha b hb w hza hzb

omit [AssocMap.Iteration CString] in
/-- A search in the tree that was built anew finds a node with the same pairs. -/
theorem AttrLeaf.ShapeFree.lookup_walk {f : π → ρ} {leaf : AttrLeaf π} (h : leaf.ShapeFree f)
    (ok : LeafOk leaf) (hnum : leaf.isNumeric = true)
    (hapart : Separated (numericCmp leaf.isFloat).eval leaf.numEntries) (key : NumKey) :
    (((lookup (numericCmp leaf.isFloat).eval (walk (numericCmp leaf.isFloat).eval leaf.numEntries) key).getD
        []).map f).Perm
      (((lookup (numericCmp leaf.isFloat).eval leaf.numEntries key).getD []).map f) := by
  have hperm : (walk (numericCmp leaf.isFloat).eval leaf.numEntries).Perm leaf.numEntries := walk_perm _
  have hwalk := hapart.perm (fun _ _ => CmpKeys.eval_comm) hperm
  by_cases hlevel : ∃ e ∈ leaf.numEntries, (numericCmp leaf.isFloat).eval e.1 key = 0
  · obtain ⟨e, he, hzero⟩ := hlevel
    have hf := h.finds ok hnum (List.mem_map_of_mem he) hzero
    have hS : ∀ e ∈ leaf.numEntries, e.1 = key ∨ e.1 ∈ leaf.keys :=
      fun e he => Or.inr (List.mem_map_of_mem he)
    rcases lookup_perm_cases hf hperm hapart hwalk hS (Or.inl rfl) with
      ⟨hl', hl⟩ | ⟨a, ha, b, hb, hza, hzb, hl', hl⟩
    · rw [hl', hl]
    · rw [hl', hl, Option.getD_some, Option.getD_some]
      exact h.samePairs ok hnum hapart ha hb hza hzb
  · push Not at hlevel
    rw [lookup_none_of_forall hlevel, lookup_none_of_forall fun e he => hlevel e (hperm.mem_iff.mp he)]

/-- A numeric leaf that was read back finds the same pairs. -/
theorem AttrLeaf.ShapeFree.found_rewalk {f : π → ρ} {leaf : AttrLeaf π} (h : leaf.ShapeFree f)
    (ok : LeafOk leaf) (hnum : leaf.isNumeric = true) (hapart : leaf.Apart) (value : QueryValue) :
    ((leaf.rewalk.found value).map f).Perm ((leaf.found value).map f) := by
  obtain ⟨t, ht, -⟩ := ok.tree
  have hcmp := ok.cmpKeys hnum ht
  have hnodes : leaf.numEntries = t.nodes := by simp [AttrLeaf.numEntries, ht]
  have hfind := h.lookup_walk ok hnum (by rw [hnodes, ← hcmp]; exact hapart t ht)
  rw [hnodes, ← hcmp] at hfind
  rw [AttrLeaf.rewalk_of_apart hnum hapart]
  cases value with
  | unknown => simp [AttrLeaf.found, AttrLeaf.search, ht]
  | string s => simp [AttrLeaf.found, AttrLeaf.search, ht, ok.numeric hnum]
  | integer v => simpa [AttrLeaf.found, AttrLeaf.search, ht, Rbt.find] using hfind (.int v)
  | float v => simpa [AttrLeaf.found, AttrLeaf.search, ht, Rbt.find] using hfind (.double v)

def pairsOf (idx : IndexAnchor) (n : CString) : List FileObjPair :=
  ((idx.leafOf n).map AttrLeaf.pairs).getD []

def foundIn (idx : IndexAnchor) (n : CString) (value : QueryValue) : List FileObjPair :=
  ((idx.leafOf n).map fun leaf => leaf.found value).getD []

omit [AssocMap.Iteration CString] in
theorem foundIn_of_leafOf {idx : IndexAnchor} {n : CString} {leaf : AttrLeaf FileObjPair}
    (h : idx.leafOf n = some leaf) (value : QueryValue) : foundIn idx n value = leaf.found value := by
  simp [foundIn, h]

omit [Descent NumKey] [AssocMap.Iteration CString] in
theorem pairsOf_of_leafOf {idx : IndexAnchor} {n : CString} {leaf : AttrLeaf FileObjPair}
    (h : idx.leafOf n = some leaf) : pairsOf idx n = leaf.pairs := by
  simp [pairsOf, h]

omit [Descent NumKey] [AssocMap.Iteration CString] in
theorem mem_rootArt_of_leafOf {idx : IndexAnchor} {n : CString} {leaf : AttrLeaf FileObjPair}
    (h : idx.leafOf n = some leaf) : ∃ part ∈ idx.partitions, (n, leaf) ∈ part.rootArt := by
  unfold IndexAnchor.leafOf at h
  simp only [Option.bind_eq_bind, Option.bind_eq_some_iff] at h
  obtain ⟨part, hpart, hleaf⟩ := h
  exact ⟨part, List.mem_of_getElem? hpart, AssocMap.mem_of_search hleaf⟩

omit [AssocMap.Iteration CString] in
theorem foundIn_of_pairsOf_eq_nil {idx : IndexAnchor} {n : CString} (h : pairsOf idx n = [])
    (value : QueryValue) : foundIn idx n value = [] := by
  cases hl : idx.leafOf n with
  | none => simp [foundIn, hl]
  | some leaf =>
    rw [pairsOf_of_leafOf hl] at h
    rw [foundIn_of_leafOf hl, AttrLeaf.found_of_pairs_eq_nil h]

omit [AssocMap.Iteration CString] in
theorem mem_pairsOf_of_foundIn {idx : IndexAnchor} {n : CString} {value : QueryValue}
    {x : FileObjPair} (h : x ∈ foundIn idx n value) : x ∈ pairsOf idx n := by
  unfold foundIn at h
  unfold pairsOf
  cases hl : idx.leafOf n with
  | none => simp [hl] at h
  | some leaf =>
    rw [hl] at h
    exact AttrLeaf.mem_pairs_of_found h

omit [AssocMap.Iteration CString] in
/-- Where all pairs of the name resolve, the answer consists of those found. -/
theorem map_some_answers {idx : IndexAnchor} (hpos : 0 < idx.parallelism) {n : CString}
    (hres : ∀ x ∈ pairsOf idx n, (collectResultFromList idx x).isSome) (value : QueryValue) :
    (answers idx n value).map some = (foundIn idx n value).map (collectResultFromList idx) := by
  have hlt : djb2Hash n % idx.parallelism < idx.partitions.length := Nat.mod_lt _ hpos
  have hsearch : exactMetadataSearch idx n value = (idx.leafOf n).bind fun leaf =>
      (leaf.search value).join.bind fun l => l.mapM (collectResultFromList idx) := by
    simp only [exactMetadataSearch, attributeValueSearch, IndexAnchor.leafOf,
      List.getElem?_eq_getElem hlt, Option.bind_eq_bind, Option.bind_some]
    cases AssocMap.search idx.partitions[djb2Hash n % idx.parallelism].rootArt n with
    | none => rfl
    | some leaf => cases h : leaf.search value <;> simp [h]
  rw [answers, hsearch]
  unfold foundIn
  cases hl : idx.leafOf n with
  | none => rfl
  | some leaf =>
    have hmem : ∀ x ∈ leaf.found value, (collectResultFromList idx x).isSome := by
      intro x hx
      exact hres x (by simpa [pairsOf, hl] using AttrLeaf.mem_pairs_of_found hx)
    unfold AttrLeaf.found at hmem
    simp only [Option.bind_some, Option.map_some, Option.getD_some, AttrLeaf.found]
    cases hj : (leaf.search value).join with
    | none => rfl
    | some l =>
      rw [hj, Option.getD_some] at hmem
      obtain ⟨m, hm⟩ : ∃ m : List SearchRstEntry, l.map (collectResultFromList idx) = m.map some := by
        refine ⟨l.map fun x => (collectResultFromList idx x).getD ⟨.null, .null⟩, ?_⟩
        rw [List.map_map]
        apply List.map_congr_left
        intro x hx
        cases hc : collectResultFromList idx x with
        | none => exact absurd (hmem x hx) (by simp [hc])
        | some entry => simp [hc]
      simp [mapM_of_map_eq_some hm, hm]

/-- `K` is the union of `I` and `J`: every query is answered with both answers, the
pairs of `I` keep their paths, and all entries of a name are there. -/
structure UnionOf (I J K : IndexAnchor) : Prop where
  answered : ∀ n value, (answers K n value).Perm (answers I n value ++ answers J n value)
  kept : ∀ n, ∀ x ∈ pairsOf I n, collectResultFromList K x = collectResultFromList I x
  entries : ∀ n, ((pairsOf K n).map (collectResultFromList K)).Perm
    ((pairsOf I n).map (collectResultFromList I) ++ (pairsOf J n).map (collectResultFromList J))

def samePathAt (new old : LinkedList) (pos : Nat) : Prop :=
  new = [] ∨ (listPickTaggedValue new pos).map TaggedValue.tag =
    (listPickTaggedValue old pos).map TaggedValue.tag

/-- When the file of `J` can be loaded into `I`: string names of `J` have no
entries, names of `J` have none in `I`, and the pairs of `I` point at paths that are at
the same position in `J`. -/
structure Mergeable (I J : IndexAnchor) : Prop where
  strings : ∀ n leaf, J.leafOf n = some leaf → leaf.isNumeric = false → leaf.pairs = []
  names : ∀ n leaf, J.leafOf n = some leaf → pairsOf I n = []
  paths : ∀ n, ∀ x ∈ pairsOf I n, ∀ partI ∈ I.partitions, ∀ partJ ∈ J.partitions,
    samePathAt partJ.filePathsList partI.filePathsList x.fileListPos ∧
      samePathAt partJ.objectPathsList partI.objectPathsList x.objListPos

def ShapeFree (J : IndexAnchor) : Prop := ∀ n leaf, J.leafOf n = some leaf → leaf.isNumeric = true →
  leaf.ShapeFree (collectResultFromList J)

omit [Descent NumKey] [AssocMap.Iteration CString] in
/-- In a table put before another one, an old position resolves as before exactly
if the new table is empty or has the same path there. -/
theorem pick_append_iff (A B : PathTable) {i : Nat} (hi : i < B.paths.length) :
    (listPickTaggedValue (A.toLinkedList ++ B.toLinkedList) i).map TaggedValue.tag =
        (listPickTaggedValue B.toLinkedList i).map TaggedValue.tag ↔
      samePathAt A.toLinkedList B.toLinkedList i := by
  have hlen := A.length_toLinkedList
  have hB := B.pick_of_lt hi
  by_cases hlt : i < A.paths.length
  · have hne : A.toLinkedList ≠ [] := by
      intro h
      rw [h, List.length_nil] at hlen
      omega
    simp [samePathAt, hne, listPickTaggedValue_append_left (hlen.symm ▸ hlt)]
  · have hA : listPickTaggedValue A.toLinkedList i = none := by
      rw [listPickTaggedValue_toLinkedList, List.getElem?_eq_none (by omega), Option.map_none]
    have hj : i - A.paths.length < B.paths.length := by omega
    rw [listPickTaggedValue_append_right (by omega), hlen, hB, B.pick_of_lt hj]
    simp only [Option.map_some, Option.some.injEq, CharPtr.to.injEq, samePathAt, hA, hB,
      Option.map_none, reduceCtorEq, or_false]
    rw [B.nodup.getElem_inj_iff]
    constructor
    · intro h
      apply List.eq_nil_of_length_eq_zero
      omega
    · intro h
      rw [h, List.length_nil] at hlen
      omega

omit [Descent NumKey] [AssocMap.Iteration CString] in
theorem collectResultFromList_one {idx : IndexAnchor} {part : Partition}
    (h : idx.partitions = [part]) {x : FileObjPair} (hx : x.parallelIndexPos = 0) :
    collectResultFromList idx x = (listPickTaggedValue part.filePathsList x.fileListPos).bind fun file =>
      (listPickTaggedValue part.objectPathsList x.objListPos).bind fun obj =>
        some ⟨file.tag, obj.tag⟩ := by
  simp [collectResultFromList, h, hx]

omit [Descent NumKey] [AssocMap.Iteration CString] in
/-- A pair of an index with one partition, by its positions. -/
theorem Represents.pair_one {J : IndexAnchor} {PJ : PathIndex} (hr : Represents 1 J PJ)
    {part : Partition} (hp : J.partitions = [part]) {n : CString} {x : FileObjPair}
    (hx : x ∈ pairsOf J n) : x.parallelIndexPos = 0 ∧ x.fileListPos < part.filePathsList.length ∧
      x.objListPos < part.objectPathsList.length ∧ (collectResultFromList J x).isSome := by
  have hpart : J.partitions[0]? = some part := by simp [hp]
  cases hl : J.leafOf n with
  | none => simp [pairsOf, hl] at hx
  | some leaf =>
    have hx' : x ∈ leaf.pairs := by simpa [pairsOf, hl] using hx
    have hmem : (n, leaf) ∈ part.rootArt := AssocMap.mem_of_search ((leafOf_one hp n).symm.trans hl)
    have hpos : x.parallelIndexPos = 0 := (hr.partition 0 part hpart).tree.pairs _ hmem x hx'
    have hn := hr.resolve n
    cases hI : PJ n with
    | none => simp [hl, hI] at hn
    | some L =>
      have hmap : leaf.map (collectResultFromList J) = L.map some := by simpa [hl, hI] using hn
      obtain ⟨entry, _, he⟩ := resolves_of_map hmap hx'
      have hlt := lt_of_collectResultFromList (hpos ▸ hpart) he
      exact ⟨hpos, hlt.1, hlt.2, by simp [he]⟩

omit [Descent NumKey] [AssocMap.Iteration CString] in
theorem NodesApart.leaf {J : IndexAnchor} (h : NodesApart J) {part : Partition} (hp : J.partitions = [part])
    {n : CString} {leaf : AttrLeaf FileObjPair} (hl : J.leafOf n = some leaf) (hnum : leaf.isNumeric = true) :
    leaf.Apart :=
  h part (by simp [hp]) (n, leaf) (AssocMap.mem_of_search ((leafOf_one hp n).symm.trans hl)) hnum

section Merge
variable {I J K : IndexAnchor} {PI PJ : PathIndex} {partI partJ : Partition}

structure Merged (PI PJ : PathIndex) (partI partJ : Partition) (I J K : IndexAnchor) : Prop where
  older : Represents 1 I PI
  loaded : Represents 1 J PJ
  olderPart : I.partitions = [partI]
  loadedPart : J.partitions = [partJ]
  mergedPart : K.partitions = [⟨mergedTree partI.rootArt partJ.rootArt,
    partJ.filePathsList ++ partI.filePathsList, partJ.objectPathsList ++ partI.objectPathsList⟩]

/-- Under a name there is the loaded leaf if there is one, else the older one. -/
theorem Merged.leafOf (h : Merged PI PJ partI partJ I J K) (n : CString) :
    K.leafOf n = ((J.leafOf n).map AttrLeaf.rewalk).or (I.leafOf n) := by
  have ok : PartitionOk 1 0 partJ := h.loaded.partition 0 partJ (by simp [h.loadedPart])
  rw [leafOf_one h.mergedPart, leafOf_one h.olderPart, leafOf_one h.loadedPart,
    search_mergedTree _ ok.tree.names]

theorem Merged.pairsOf (h : Merged PI PJ partI partJ I J K) (n : CString) : Index.pairsOf K n =
    match J.leafOf n with
    | some leaf => leaf.rewalk.pairs
    | none => Index.pairsOf I n := by
  rw [Index.pairsOf, h.leafOf]
  cases J.leafOf n <;> rfl

theorem Merged.foundIn (h : Merged PI PJ partI partJ I J K) (n : CString) (value : QueryValue) :
    Index.foundIn K n value =
      match J.leafOf n with
      | some leaf => leaf.rewalk.found value
      | none => Index.foundIn I n value := by
  rw [Index.foundIn, h.leafOf]
  cases J.leafOf n <;> rfl

/-- The loaded pairs resolve as they did in `J`. -/
theorem Merged.collect_loaded (h : Merged PI PJ partI partJ I J K) {n : CString} {x : FileObjPair}
    (hx : x ∈ Index.pairsOf J n) : collectResultFromList K x = collectResultFromList J x := by
  obtain ⟨hpos, hf, ho, -⟩ := h.loaded.pair_one h.loadedPart hx
  rw [collectResultFromList_one h.mergedPart hpos, collectResultFromList_one h.loadedPart hpos,
    listPickTaggedValue_append_left hf, listPickTaggedValue_append_left ho]

theorem Merged.map_collect_loaded (h : Merged PI PJ partI partJ I J K) {n : CString}
    {leaf : AttrLeaf FileObjPair} (hl : J.leafOf n = some leaf) {xs : List FileObjPair}
    (hxs : ∀ x ∈ xs, x ∈ leaf.pairs) :
    xs.map (collectResultFromList K) = xs.map (collectResultFromList J) := by
  apply List.map_congr_left
  intro x hx
  exact h.collect_loaded ((pairsOf_of_leafOf hl).symm ▸ hxs x hx)

/-- The older pairs resolve, but to their own paths only where both tables agree. -/
theorem Merged.collect_older (h : Merged PI PJ partI partJ I J K) {n : CString} {x : FileObjPair}
    (hx : x ∈ Index.pairsOf I n) :
    (collectResultFromList K x).isSome ∧
      (collectResultFromList K x = collectResultFromList I x ↔
        samePathAt partJ.filePathsList partI.filePathsList x.fileListPos ∧
          samePathAt partJ.objectPathsList partI.objectPathsList x.objListPos) := by
  obtain ⟨hpos, hf, ho, -⟩ := h.older.pair_one h.olderPart hx
  have okI : PartitionOk 1 0 partI := h.older.partition 0 partI (by simp [h.olderPart])
  have okJ : PartitionOk 1 0 partJ := h.loaded.partition 0 partJ (by simp [h.loadedPart])
  obtain ⟨FI, hFI⟩ := okI.files
  obtain ⟨OI, hOI⟩ := okI.objects
  obtain ⟨FJ, hFJ⟩ := okJ.files
  obtain ⟨OJ, hOJ⟩ := okJ.objects
  rw [hFI, PathTable.length_toLinkedList] at hf
  rw [hOI, PathTable.length_toLinkedList] at ho
  rw [collectResultFromList_one h.mergedPart hpos, collectResultFromList_one h.olderPart hpos, hFI,
    hOI, hFJ, hOJ, ← pick_append_iff FJ FI hf, ← pick_append_iff OJ OI ho]
  have hsome : ∀ (A B : PathTable) (i : Nat), i < B.paths.length →
      ∃ t, listPickTaggedValue (A.toLinkedList ++ B.toLinkedList) i = some t := by
    intro A B i hi
    have hlen := A.length_toLinkedList
    by_cases hlt : i < A.paths.length
    · exact ⟨_, (listPickTaggedValue_append_left (by omega) _).trans (A.pick_of_lt hlt)⟩
    · exact ⟨_, (listPickTaggedValue_append_right (by omega) _).trans (B.pick_of_lt (by omega))⟩
  obtain ⟨f, hfK⟩ := hsome FJ FI _ hf
  obtain ⟨o, hoK⟩ := hsome OJ OI _ ho
  simp [hfK, hoK, FI.pick_of_lt hf, OI.pick_of_lt ho]

omit [Descent NumKey] [AssocMap.Iteration CString] in
theorem Represents.leafOk_one (hJ : Represents 1 J PJ) {n : CString} {leaf : AttrLeaf FileObjPair}
    (h : J.leafOf n = some leaf) : LeafOk leaf := by
  obtain ⟨part, hp⟩ := hJ.one
  rw [leafOf_one hp] at h
  exact (hJ.partition 0 part (by simp [hp])).tree.leaves _ (AssocMap.mem_of_search h)

/-- Answers compared as the pairs that are found. -/
theorem Merged.answers_perm_iff (h : Merged PI PJ partI partJ I J K) (n : CString)
    (value : QueryValue) :
    (answers K n value).Perm (answers I n value ++ answers J n value) ↔
      ((Index.foundIn K n value).map (collectResultFromList K)).Perm
        ((Index.foundIn I n value).map (collectResultFromList I) ++
          (Index.foundIn J n value).map (collectResultFromList J)) := by
  have hresK : ∀ x ∈ Index.pairsOf K n, (collectResultFromList K x).isSome := by
    intro x hx
    rw [h.pairsOf] at hx
    cases hl : J.leafOf n with
    | none =>
      rw [hl] at hx
      exact (h.collect_older hx).1
    | some leaf =>
      rw [hl] at hx
      have hx' : x ∈ Index.pairsOf J n := by
        rw [pairsOf_of_leafOf hl]
        exact mem_pairs_of_rewalk (h.loaded.leafOk_one hl) hx
      rw [h.collect_loaded hx']
      exact (h.loaded.pair_one h.loadedPart hx').2.2.2
  have hone : ∀ {idx : IndexAnchor} {part : Partition}, idx.partitions = [part] →
      0 < idx.parallelism := by
    intro idx part hp
    simp [IndexAnchor.parallelism, hp]
  rw [← map_some_answers (hone h.mergedPart) hresK,
    ← map_some_answers (hone h.olderPart) fun x hx => (h.older.pair_one h.olderPart hx).2.2.2,
    ← map_some_answers (hone h.loadedPart) fun x hx => (h.loaded.pair_one h.loadedPart hx).2.2.2,
    ← List.map_append, List.map_perm_map_iff (Option.some_injective _)]

theorem Mergeable.kept (hm : Mergeable I J) (h : Merged PI PJ partI partJ I J K) (n : CString) :
    ∀ x ∈ Index.pairsOf I n, collectResultFromList K x = collectResultFromList I x := by
  intro x hx
  exact (h.collect_older hx).2.mpr
    (hm.paths n x hx partI (by simp [h.olderPart]) partJ (by simp [h.loadedPart]))

/-- What is found in a loaded leaf was found in it before. -/
theorem Mergeable.found_rewalk (hm : Mergeable I J) (hfree : ShapeFree J)
    (h : Merged PI PJ partI partJ I J K) (hapart : NodesApart J) {n : CString} {leaf : AttrLeaf FileObjPair}
    (hl : J.leafOf n = some leaf) (value : QueryValue) :
    ((leaf.rewalk.found value).map (collectResultFromList J)).Perm
      ((leaf.found value).map (collectResultFromList J)) := by
  have ok := h.loaded.leafOk_one hl
  cases hnum : leaf.isNumeric with
  | false =>
    have hpairs := hm.strings n leaf hl hnum
    simp [AttrLeaf.found_of_pairs_eq_nil hpairs,
      AttrLeaf.found_of_pairs_eq_nil (pairs_rewalk_of_eq_nil ok hpairs)]
  | true => exact (hfree n leaf hl hnum).found_rewalk ok hnum (hapart.leaf h.loadedPart hl hnum) value

theorem Mergeable.pairs_rewalk (hm : Mergeable I J) (h : Merged PI PJ partI partJ I J K)
    (hapart : NodesApart J) {n : CString} {leaf : AttrLeaf FileObjPair} (hl : J.leafOf n = some leaf) :
    leaf.rewalk.pairs.Perm leaf.pairs := by
  have ok := h.loaded.leafOk_one hl
  cases hnum : leaf.isNumeric with
  | true => exact pairs_rewalk_numeric ok hnum (hapart.leaf h.loadedPart hl hnum)
  | false =>
    have hnil := hm.strings n leaf hl hnum
    rw [pairs_rewalk_of_eq_nil ok hnil, hnil]

theorem Mergeable.unionOf (hm : Mergeable I J) (hfree : ShapeFree J)
    (h : Merged PI PJ partI partJ I J K) (hapart : NodesApart J) : UnionOf I J K := by
  refine ⟨?_, hm.kept h, ?_⟩
  · intro n value
    rw [h.answers_perm_iff, h.foundIn]
    cases hl : J.leafOf n with
    | none =>
      have hnil : Index.foundIn J n value = [] := by simp [Index.foundIn, hl]
      have hmap : (Index.foundIn I n value).map (collectResultFromList K) =
          (Index.foundIn I n value).map (collectResultFromList I) :=
        List.map_congr_left fun x hx => hm.kept h n x (mem_pairsOf_of_foundIn hx)
      simp [hnil, hmap]
    | some leaf =>
      have hnone := foundIn_of_pairsOf_eq_nil (hm.names n leaf hl) value
      have hmap := h.map_collect_loaded hl fun x (hx : x ∈ leaf.rewalk.found value) =>
        mem_pairs_of_rewalk (h.loaded.leafOk_one hl) (AttrLeaf.mem_pairs_of_found hx)
      simp only [hnone, foundIn_of_leafOf hl, hmap, List.map_nil, List.nil_append]
      exact hm.found_rewalk hfree h hapart hl value
  · intro n
    rw [h.pairsOf]
    cases hl : J.leafOf n with
    | none =>
      have hnil : Index.pairsOf J n = [] := by simp [Index.pairsOf, hl]
      have hmap : (Index.pairsOf I n).map (collectResultFromList K) =
          (Index.pairsOf I n).map (collectResultFromList I) := List.map_congr_left (hm.kept h n)
      simp [hnil, hmap]
    | some leaf =>
      rw [hm.names n leaf hl, pairsOf_of_leafOf hl, List.map_nil, List.nil_append,
        ← h.map_collect_loaded hl fun x hx => hx]
      exact (hm.pairs_rewalk h hapart hl).map _

/-- The loaded leaf cannot hold more than that of `J`, so nothing of `I` can be left. -/
theorem UnionOf.length_pairs (hu : UnionOf I J K) (h : Merged PI PJ partI partJ I J K)
    {n : CString} {leaf : AttrLeaf FileObjPair} (hl : J.leafOf n = some leaf) :
    Index.pairsOf I n = [] ∧ leaf.rewalk.pairs.length = leaf.pairs.length := by
  have hlen := (hu.entries n).length_eq
  rw [h.pairsOf, hl] at hlen
  simp only [List.length_map, List.length_append, pairsOf_of_leafOf hl] at hlen
  have hle := length_pairs_rewalk_le (h.loaded.leafOk_one hl)
  exact ⟨List.eq_nil_of_length_eq_zero (by omega), by omega⟩

theorem UnionOf.found_rewalk (hu : UnionOf I J K) (h : Merged PI PJ partI partJ I J K)
    {n : CString} {leaf : AttrLeaf FileObjPair} (hl : J.leafOf n = some leaf) (value : QueryValue) :
    ((leaf.rewalk.found value).map (collectResultFromList J)).Perm
      ((leaf.found value).map (collectResultFromList J)) := by
  have hp := (h.answers_perm_iff n value).mp (hu.answered n value)
  have hnone := foundIn_of_pairsOf_eq_nil (hu.length_pairs h hl).1 value
  have hmap := h.map_collect_loaded hl fun x (hx : x ∈ leaf.rewalk.found value) =>
    mem_pairs_of_rewalk (h.loaded.leafOk_one hl) (AttrLeaf.mem_pairs_of_found hx)
  rwa [h.foundIn, hl, hnone, foundIn_of_leafOf hl, List.map_nil, List.nil_append, hmap] at hp

/-- The strings of a leaf are found in `J` but not in `K`, and its numbers are gone. -/
theorem UnionOf.strings (hu : UnionOf I J K) (h : Merged PI PJ partI partJ I J K)
    {n : CString} {leaf : AttrLeaf FileObjPair} (hl : J.leafOf n = some leaf)
    (hnum : leaf.isNumeric = false) : leaf.pairs = [] := by
  have ok := h.loaded.leafOk_one hl
  obtain ⟨m, hm, hnodup⟩ := ok.strings hnum
  have hstr : ∀ e ∈ m, e.2 = [] := by
    intro e he
    have hq := hu.found_rewalk h hl (.string e.1)
    have hnew : leaf.rewalk.found (.string e.1) = [] := by
      simp [AttrLeaf.found, AttrLeaf.search, AttrLeaf.rewalk, hnum]
    have hold : leaf.found (.string e.1) = e.2 := by
      obtain ⟨t, ht, -⟩ := ok.tree
      simp [AttrLeaf.found, AttrLeaf.search, ht, hm, AssocMap.search_of_mem hnodup he]
    rw [hnew, hold] at hq
    simpa using hq.length_eq.symm
  have hnil : leaf.strEntries.flatMap Prod.snd = [] := by
    simp only [AttrLeaf.strEntries, hm, Option.getD_some, List.flatMap_eq_nil_iff]
    exact hstr
  have hlen := (hu.length_pairs h hl).2
  rw [(pairs_rewalk_string ok hnum).length_eq, hnil] at hlen
  exact List.eq_nil_of_length_eq_zero hlen.symm

theorem UnionOf.mergeable (hu : UnionOf I J K) (h : Merged PI PJ partI partJ I J K) :
    Mergeable I J := by
  refine ⟨fun n leaf hl hnum => hu.strings h hl hnum, fun n leaf hl => (hu.length_pairs h hl).1, ?_⟩
  intro n x hx partI' hI' partJ' hJ'
  obtain rfl : partI' = partI := by simpa [h.olderPart] using hI'
  obtain rfl : partJ' = partJ := by simpa [h.loadedPart] using hJ'
  exact (h.collect_older hx).2.mp (hu.kept n x hx)

end Merge

/-- Loading the file of one index into another gives their union if the two are mergeable and the
searches in the loaded one do not depend on the shapes of its trees. Indexes that are not mergeable
never give their union. -/
theorem mdb_merge_union (as bs : List Attribute) (numAttrsPtr : Nat) :
    ∃ I J file K d, indexAll 1 as = some I ∧ indexAll 1 bs = some J ∧
      dumpMdbIndexToDisk J = some file ∧
      loadMdbFileToIndex numAttrsPtr file (some I) = some (0, K, d) ∧
      (Mergeable I J ∧ ShapeFree J → UnionOf I J K) ∧ (UnionOf I J K → Mergeable I J) := by
  obtain ⟨I, hIall, hI⟩ := indexAll_represents one_pos as
  obtain ⟨J, hJall, hJ⟩ := indexAll_represents one_pos bs
  obtain ⟨partI, hpI⟩ := hI.one
  obtain ⟨partJ, hpJ⟩ := hJ.one
  obtain ⟨file, K, hdump, hload, hK⟩ := loadMdbFileToIndex_one hJ hpJ numAttrsPtr (some I) hpI
  have hmerged : Merged (pathIndexAll as) (pathIndexAll bs) partI partJ I J K :=
    ⟨hI, hJ, hpI, hpJ, hK⟩
  refine ⟨I, J, file, K, _, hIall, hJall, hdump, hload, ?_, fun h => h.mergeable hmerged⟩
  rintro ⟨hm, hfree⟩
  refine hm.unionOf hfree hmerged ?_
  intro part hpart e he hnum
  obtain rfl : part = partJ := by simpa [hpJ] using hpart
  have ok := (hJ.partition 0 part (by simp [hpJ])).tree
  have hl : J.leafOf e.1 = some e.2 := (leafOf_one hpJ e.1).trans (AssocMap.search_of_mem ok.names he)
  exact hJ.apart hl (ok.leaves e he) hnum (hfree e.1 e.2 hl hnum).keysFit

omit [Descent NumKey] [AssocMap.Iteration CString] in
/-- The union of two indexes of one object with different names. -/
theorem mdb_merge_union_sibling :
    ∃ I J file K d, @indexAll .oldest 1 [sampleAttribute] = some I ∧
      @indexAll .oldest 1 [siblingAttribute] = some J ∧
      @dumpMdbIndexToDisk .oldest .oldest J = some file ∧
      @loadMdbFileToIndex .oldest _ _ 0 file (some I) = some (0, K, d) ∧ @UnionOf .oldest I J K := by
  obtain ⟨I, J, file, K, d, hI, hJ, hdump, hload, hunion, -⟩ :=
    @mdb_merge_union .oldest .oldest [sampleAttribute] [siblingAttribute] 0
  refine ⟨I, J, file, K, d, hI, hJ, hdump, hload, hunion ?_⟩
  have hleaves : ∀ part ∈ J.partitions, ∀ e ∈ part.rootArt, e.1 = siblingAttribute.attrName ∧
      e.2.isNumeric = true ∧ e.2.isFloat = false ∧ e.2.keys = [.int 8] := by
    cases hJ
    decide
  have hnames : pairsOf I siblingAttribute.attrName = [] := by
    cases hI
    decide
  have hpaths : ∀ part ∈ I.partitions, ∀ e ∈ part.rootArt, ∀ x ∈ e.2.pairs,
      ∀ partI ∈ I.partitions, ∀ partJ ∈ J.partitions,
    samePathAt partJ.filePathsList partI.filePathsList x.fileListPos ∧
      samePathAt partJ.objectPathsList partI.objectPathsList x.objListPos := by
    cases hI
    cases hJ
    unfold samePathAt
    decide
  have hleaf : ∀ {n leaf}, J.leafOf n = some leaf → n = siblingAttribute.attrName ∧
      leaf.isNumeric = true ∧ leaf.isFloat = false ∧ leaf.keys = [.int 8] := by
    intro n leaf h
    obtain ⟨part, hpart, hmem⟩ := mem_rootArt_of_leafOf h
    exact hleaves part hpart (n, leaf) hmem
  refine ⟨⟨?_, ?_, ?_⟩, ?_⟩
  · intro n leaf h hnum
    simp [(hleaf h).2.1] at hnum
  · intro n leaf h
    rw [(hleaf h).1, hnames]
  · intro n x hx partI hI' partJ hJ'
    cases hl : I.leafOf n with
    | none => simp [pairsOf, hl] at hx
    | some leaf =>
      obtain ⟨part, hpart, hmem⟩ := mem_rootArt_of_leafOf hl
      rw [pairsOf_of_leafOf hl] at hx
      exact hpaths part hpart (n, leaf) hmem x hx partI hI' partJ hJ'
  · intro n leaf h _
    obtain ⟨-, -, hfloat, hkeys⟩ := hleaf h
    refine ⟨fun _ => ?_, ?_, ?_, ?_⟩
    · rw [hkeys]
      exact ⟨0, by simp [InWindow, NumKey.asInt]⟩
    all_goals
      intro hf
      rw [hfloat] at hf
      cases hf
def otherAttribute : Attribute :=
  ⟨.ofBytes [109], .integer [8] fun _ => 0, .ofBytes [103], .ofBytes [113]⟩

omit [Descent NumKey] [AssocMap.Iteration CString] in
/-- After the load, the older entry resolves to the paths of the loaded one. -/
theorem mdb_merge_changes_paths :
    ((@indexAll .oldest 1 [sampleAttribute]).bind fun I =>
      (@indexAll .oldest 1 [otherAttribute]).bind fun J =>
        (@dumpMdbIndexToDisk .oldest .oldest J).bind fun file =>
          (@loadMdbFileToIndex .oldest _ _ 0 file (some I)).map fun K =>
            (@answers .oldest I sampleAttribute.attrName (.integer 7),
              @answers .oldest J sampleAttribute.attrName (.integer 7),
              @answers .oldest K.2.1 sampleAttribute.attrName (.integer 7))) =
      some ([Attribute.entry sampleAttribute], [], [Attribute.entry otherAttribute]) ∧
    ¬ [Attribute.entry otherAttribute].Perm ([Attribute.entry sampleAttribute] ++ []) := by
  decide +kernel

end Miqs.Index
