import Miqs.IndexStep
import Miqs.Runs

/-! The partitioned index refines the path index: its pairs, resolved through the
path tables, are the paths the path index holds, after any sequence of steps. -/
namespace Miqs.Index
open Miqs.CData Miqs.KeyedTree Miqs.InternTable
variable {π : Type} [Descent NumKey]

/-- Without values the pair is not used. -/
theorem linkValue_of_stored_eq_zero {value : AttrValue} (h : stored value = 0) (x y : π)
    (o : Option (AttrLeaf π)) : linkValue x value o = linkValue y value o := by
  have ha : ∀ leaf : AttrLeaf π, leaf.addValue x value = leaf.addValue y value := by
    intro leaf
    cases value with
    | unknown n => rfl
    | integer vals beyond =>
      obtain rfl : vals = [] := List.eq_nil_of_length_eq_zero h
      rfl
    | float vals =>
      obtain rfl : vals = [] := List.eq_nil_of_length_eq_zero h
      rfl
    | string vals =>
      obtain rfl : vals = [] := List.eq_nil_of_length_eq_zero h
      rfl
  cases o with
  | some leaf => simp only [linkValue, ha]
  | none => simp only [linkValue, ha]

def keyFits (isFloat : Bool) : NumKey → Prop
  | .int _ => isFloat = false
  | .double _ => isFloat = true

/-- A leaf in the name tree. As long as it is numeric, its tree is of one type and
it has no strings. -/
structure LeafOk (leaf : AttrLeaf π) : Prop where
  tree : ∃ t, leaf.rbt = some t ∧ (leaf.isNumeric = true →
    t.cmpKeysCb = numericCmp leaf.isFloat ∧ ∀ e ∈ t.nodes, keyFits leaf.isFloat e.1)
  numeric : leaf.isNumeric = true → leaf.art = none
  strings : leaf.isNumeric = false → ∃ m, leaf.art = some m ∧ (m.map Prod.fst).Nodup

omit [Descent NumKey] in
theorem LeafOk.rbt_isSome {leaf : AttrLeaf π} (h : LeafOk leaf) : leaf.rbt.isSome := by
  obtain ⟨t, ht, -⟩ := h.tree
  simp [ht]

/-- A tree that is given keys of one size keeps to that size. -/
theorem keyFits_pushValues {t : Rbt π} {float : Bool} (ht : ∀ e ∈ t.nodes, keyFits float e.1)
    {keys : List NumKey} (hk : ∀ k ∈ keys, keyFits float k) (pair : π) :
    ∀ e ∈ (t.pushValues keys pair).nodes, keyFits float e.1 := by
  intro e he
  cases key_mem_pushAll t.nodes _ e.1 (List.mem_map_of_mem he) with
  | inl hold =>
    obtain ⟨e', he', hee⟩ := List.mem_map.mp hold
    rw [← hee]
    exact ht e' he'
  | inr hnew =>
    simp only [List.map_map, List.mem_map, Function.comp_apply] at hnew
    obtain ⟨k, hkm, hke⟩ := hnew
    rw [← hke]
    exact hk k hkm

omit [Descent NumKey] in
theorem keyFits_numericKeys (leaf : AttrLeaf π) (attrVal : NumericArray) (n : Nat) :
    ∀ k ∈ leaf.numericKeys attrVal n, keyFits leaf.isFloat k := by
  intro k hk
  obtain ⟨i, _, rfl⟩ := List.mem_map.mp hk
  cases hf : leaf.isFloat <;> simp [AttrLeaf.numericKey, hf, keyFits]

theorem LeafOk.addNumeric {leaf : AttrLeaf π} (h : LeafOk leaf) {keys : List NumKey}
    (hk : ∀ k ∈ keys, keyFits leaf.isFloat k) (pair : π) : LeafOk (leaf.addNumeric keys pair) := by
  obtain ⟨t, ht, hn⟩ := h.tree
  refine ⟨⟨t.pushValues keys pair, by simp [AttrLeaf.addNumeric, ht], ?_⟩, h.numeric, h.strings⟩
  intro hnum
  exact ⟨(hn hnum).1, keyFits_pushValues (hn hnum).2 hk pair⟩

omit [Descent NumKey] in
theorem LeafOk.addStrings {leaf : AttrLeaf π} (h : LeafOk leaf) (vals : List StringRef) (pair : π) :
    LeafOk (leaf.addStrings vals pair) := by
  obtain ⟨t, ht, hn⟩ := h.tree
  have hnum : (leaf.addStrings vals pair).isNumeric ≠ true := by
    simp [AttrLeaf.addStrings, AttrLeaf.prepareString]
  refine ⟨⟨t, ht, fun h => absurd h hnum⟩, fun h => absurd h hnum, fun _ => ⟨_, rfl, ?_⟩⟩
  have hart : ((leaf.art.getD []).map Prod.fst).Nodup := by
    cases hnum : leaf.isNumeric with
    | true => simp [h.numeric hnum]
    | false =>
      obtain ⟨m, hm, hd⟩ := h.strings hnum
      simpa [hm] using hd
  generalize leaf.art.getD [] = m at hart
  generalize vals.map StringRef.text = keys
  induction keys generalizing m with
  | nil => exact hart
  | cons s keys ih => exact ih _ (AssocMap.nodup_insert hart s _)

theorem LeafOk.addValue {leaf : AttrLeaf π} (h : LeafOk leaf) (pair : π) (value : AttrValue) :
    LeafOk (leaf.addValue pair value) := by
  cases value with
  | unknown n => exact h
  | integer vals beyond => exact h.addNumeric (keyFits_numericKeys _ _ _) pair
  | float vals => exact h.addNumeric (keyFits_numericKeys _ _ _) pair
  | string vals => exact h.addStrings vals pair

theorem LeafOk.linkValue {pair : π} {value : AttrValue} {o : Option (AttrLeaf π)}
    (ho : ∀ leaf, o = some leaf → LeafOk leaf) {leaf : AttrLeaf π}
    (h : linkValue pair value o = some leaf) : LeafOk leaf := by
  cases o with
  | some old =>
    rw [linkValue_some] at h
    cases h
    exact (ho old rfl).addValue pair value
  | none =>
    simp only [Index.linkValue] at h
    split_ifs at h with hi
    cases h
    have hnew : LeafOk (newLeaf value.type : AttrLeaf π × Bool).1 := by
      cases hv : value.type with
      | integer =>
        exact ⟨⟨_, rfl, fun _ => ⟨rfl, by simp [Rbt.create]⟩⟩, fun _ => rfl,
          fun h => absurd h (by simp [newLeaf])⟩
      | float =>
        exact ⟨⟨_, rfl, fun _ => ⟨rfl, by simp [Rbt.create]⟩⟩, fun _ => rfl,
          fun h => absurd h (by simp [newLeaf])⟩
      | string => simp [hv, newLeaf] at hi
      | unknown => simp [hv, newLeaf] at hi
    exact hnew.addValue pair value

theorem mem_pairs_linkValue {pair : π} {value : AttrValue} {o : Option (AttrLeaf π)}
    {leaf : AttrLeaf π} (h : linkValue pair value o = some leaf) {x : π} (hx : x ∈ leaf.pairs) :
    (∃ old, o = some old ∧ x ∈ old.pairs) ∨ x = pair := by
  cases o with
  | some old =>
    simp only [linkValue, Option.some.injEq] at h
    subst h
    cases AttrLeaf.mem_pairs_addValue hx with
    | inl hold => exact Or.inl ⟨old, rfl, hold⟩
    | inr heq => exact Or.inr heq
  | none =>
    simp only [linkValue] at h
    split_ifs at h with hi
    simp only [Option.some.injEq] at h
    subst h
    cases AttrLeaf.mem_pairs_addValue hx with
    | inl hold => simp [newLeaf_pairs] at hold
    | inr heq => exact Or.inr heq

structure NameTreeOk (p h : Nat) (art : Art (AttrLeaf FileObjPair)) : Prop where
  names : (art.map Prod.fst).Nodup
  home : ∀ e ∈ art, djb2Hash e.1 % p = h
  leaves : ∀ e ∈ art, LeafOk e.2
  pairs : ∀ e ∈ art, ∀ x ∈ e.2.pairs, x.parallelIndexPos = h

structure PartitionOk (p h : Nat) (part : Partition) : Prop where
  tree : NameTreeOk p h part.rootArt
  files : ∃ F : PathTable, part.filePathsList = F.toLinkedList
  objects : ∃ O : PathTable, part.objectPathsList = O.toLinkedList

omit [Descent NumKey] in
theorem partitionOk_empty (p h : Nat) : PartitionOk p h ⟨[], [], []⟩ where
  tree := ⟨List.nodup_nil, by simp, by simp, by simp⟩
  files := ⟨PathTable.empty, rfl⟩
  objects := ⟨PathTable.empty, rfl⟩

theorem NameTreeOk.link {p h : Nat} {art : Art (AttrLeaf FileObjPair)} (ok : NameTreeOk p h art)
    {name : CString} (hn : djb2Hash name % p = h) (pair : FileObjPair) (hpair : pair.parallelIndexPos = h)
    (value : AttrValue) :
    NameTreeOk p h (Art.link art name (linkValue pair value (AssocMap.search art name))) := by
  cases hl : linkValue pair value (AssocMap.search art name) with
  | none => exact ok
  | some leaf =>
    have hmem : ∀ old, AssocMap.search art name = some old → (name, old) ∈ art :=
      fun old h => AssocMap.mem_of_search h
    refine ⟨AssocMap.nodup_insert ok.names name leaf, ?_, ?_, ?_⟩
    · intro e he
      cases AssocMap.mem_insert he with
      | inl h => subst h; exact hn
      | inr h => exact ok.home e h
    · intro e he
      cases AssocMap.mem_insert he with
      | inl h =>
        subst h
        exact LeafOk.linkValue (fun old h => ok.leaves _ (hmem old h)) hl
      | inr h => exact ok.leaves e h
    · intro e he x hx
      cases AssocMap.mem_insert he with
      | inl h =>
        subst h
        cases mem_pairs_linkValue hl hx with
        | inl hold =>
          obtain ⟨old, ho, hxo⟩ := hold
          exact ok.pairs _ (hmem old ho) x hxo
        | inr heq => rw [heq, hpair]
      | inr h => exact ok.pairs e h x hx

def IndexAnchor.leafOf (idx : IndexAnchor) (name : CString) : Option (AttrLeaf FileObjPair) := do
  let part ← idx.partitions[djb2Hash name % idx.parallelism]?
  AssocMap.search part.rootArt name

structure Represents (p : Nat) (idx : IndexAnchor) (I : PathIndex) : Prop where
  size : idx.partitions.length = p
  partition : ∀ h part, idx.partitions[h]? = some part → PartitionOk p h part
  resolve : ∀ n, (idx.leafOf n).map (AttrLeaf.map (collectResultFromList idx)) =
    (I n).map (AttrLeaf.map some)

def Extends (idx idx' : IndexAnchor) : Prop :=
  ∀ pair entry, collectResultFromList idx pair = some entry →
    collectResultFromList idx' pair = some entry

omit [Descent NumKey] in
theorem Represents.congr {p : Nat} {idx idx' : IndexAnchor} {I : PathIndex}
    (hr : Represents p idx I) (h : idx'.partitions = idx.partitions) : Represents p idx' I where
  size := by rw [h, hr.size]
  partition := by rw [h]; exact hr.partition
  resolve := by
    intro n
    have hc : collectResultFromList idx' = collectResultFromList idx := by
      funext pair
      simp only [collectResultFromList, h]
    have hl : idx'.leafOf n = idx.leafOf n := by
      simp only [IndexAnchor.leafOf, IndexAnchor.parallelism, h]
    rw [hc, hl, hr.resolve]

omit [Descent NumKey] in
theorem represents_init (p : Nat) : Represents p (initInMemIndex p) fun _ => none where
  size := by simp [initInMemIndex]
  partition := by
    intro h part hp
    obtain ⟨_, rfl⟩ := by simpa [initInMemIndex, List.getElem?_replicate] using hp
    exact partitionOk_empty p h
  resolve := by
    intro n
    simp only [IndexAnchor.leafOf, initInMemIndex, List.getElem?_replicate]
    split_ifs <;> rfl

omit [Descent NumKey] in
theorem resolves_of_map {idx : IndexAnchor} {leaf : AttrLeaf FileObjPair}
    {L : AttrLeaf SearchRstEntry} (hl : leaf.map (collectResultFromList idx) = L.map some)
    {x : FileObjPair} (hx : x ∈ leaf.pairs) :
    ∃ entry ∈ L.pairs, collectResultFromList idx x = some entry := by
  have hpairs := congrArg AttrLeaf.pairs hl
  rw [AttrLeaf.pairs_map, AttrLeaf.pairs_map] at hpairs
  have hm : collectResultFromList idx x ∈ L.pairs.map some := hpairs ▸ List.mem_map_of_mem hx
  obtain ⟨entry, he, heq⟩ := List.mem_map.mp hm
  exact ⟨entry, he, heq.symm⟩

omit [Descent NumKey] in
/-- A leaf whose pairs all resolve is resolved alike in every extension. -/
theorem Extends.map_leaf {idx idx' : IndexAnchor} (h : Extends idx idx')
    {leaf : AttrLeaf FileObjPair} {L : AttrLeaf SearchRstEntry}
    (hl : leaf.map (collectResultFromList idx) = L.map some) :
    leaf.map (collectResultFromList idx') = L.map some := by
  rw [← hl]
  apply AttrLeaf.map_congr
  intro x hx
  obtain ⟨entry, _, he⟩ := resolves_of_map hl hx
  rw [he]
  exact h x entry he

omit [Descent NumKey] in
theorem Extends.resolve {idx idx' : IndexAnchor} (h : Extends idx idx') {p : Nat} {I : PathIndex}
    (hr : Represents p idx I) (n : CString) :
    (idx.leafOf n).map (AttrLeaf.map (collectResultFromList idx')) =
      (I n).map (AttrLeaf.map some) := by
  have hn := hr.resolve n
  cases hi : idx.leafOf n with
  | none =>
    rw [hi] at hn
    exact hn
  | some leaf =>
    cases hI : I n with
    | none => simp [hi, hI] at hn
    | some L =>
      rw [hi, hI] at hn
      exact congrArg some (h.map_leaf (Option.some.inj hn))

section Step
variable {idx : IndexAnchor} {p h : Nat} {part : Partition} {F O : PathTable}

omit [Descent NumKey] in
theorem PathTable.pick_insertTimes (t : PathTable) (n : Nat) (path : CString) {i : Nat}
    {tval : TaggedValue} (h : listPickTaggedValue t.toLinkedList i = some tval) :
    listPickTaggedValue (t.insertTimes n path).toLinkedList i = some tval := by
  unfold PathTable.insertTimes
  split_ifs
  · exact h
  · exact listPickTaggedValue_insert path h

omit [Descent NumKey] in
theorem extends_setPartition (hp : idx.partitions[h]? = some part)
    (hF : part.filePathsList = F.toLinkedList) (hO : part.objectPathsList = O.toLinkedList)
    (art : Art (AttrLeaf FileObjPair)) (n : Nat) (f o : CString) :
    Extends idx (idx.setPartition h
      ⟨art, (F.insertTimes n f).toLinkedList, (O.insertTimes n o).toLinkedList⟩) := by
  intro pair entry he
  unfold collectResultFromList at he ⊢
  rw [getElem?_setPartition hp]
  by_cases hi : h = pair.parallelIndexPos
  · subst hi
    simp only [hp, hF, hO, Option.bind_eq_bind, Option.bind_some, Option.bind_eq_some_iff] at he
    obtain ⟨file, hfile, obj, hobj, he⟩ := he
    simp only [if_true, Option.bind_eq_bind, Option.bind_some, F.pick_insertTimes n f hfile,
      O.pick_insertTimes n o hobj, he]
  · simpa only [hi, if_false] using he

omit [Descent NumKey] in
/-- The pair made for an attribute resolves to the attribute's paths. -/
theorem collectResultFromList_setPartition (hp : idx.partitions[h]? = some part)
    (art : Art (AttrLeaf FileObjPair)) (F O : PathTable) {n : Nat} (hn : n ≠ 0) (f o : CString) :
    collectResultFromList (idx.setPartition h
      ⟨art, (F.insertTimes n f).toLinkedList, (O.insertTimes n o).toLinkedList⟩)
      ⟨h, slot F.paths f, slot O.paths o⟩ = some ⟨.to f, .to o⟩ := by
  simp only [collectResultFromList, getElem?_setPartition hp, if_true, PathTable.insertTimes, hn,
    if_false, listPickTaggedValue_slot, Option.bind_eq_bind, Option.bind_some]

omit [Descent NumKey] in
theorem leafOf_setPartition_link (hp : idx.partitions[h]? = some part) (name : CString)
    (hh : djb2Hash name % idx.parallelism = h) (o : Option (AttrLeaf FileObjPair))
    (ho : o = none → AssocMap.search part.rootArt name = none) (fl ol : LinkedList) (n : CString) :
    (idx.setPartition h ⟨Art.link part.rootArt name o, fl, ol⟩).leafOf n =
      if name = n then o else idx.leafOf n := by
  have hsize : (idx.setPartition h ⟨Art.link part.rootArt name o, fl, ol⟩).parallelism =
      idx.parallelism := by
    simp [IndexAnchor.parallelism, IndexAnchor.setPartition]
  have hsearch : AssocMap.search (Art.link part.rootArt name o) n =
      if name = n then o else AssocMap.search part.rootArt n := by
    cases o with
    | some leaf => exact AssocMap.search_insert _ _ _ _
    | none =>
      by_cases hn : name = n
      · subst hn
        simp [Art.link, ho rfl]
      · simp [Art.link, hn]
  unfold IndexAnchor.leafOf
  rw [hsize, getElem?_setPartition hp]
  by_cases hi : h = djb2Hash n % idx.parallelism
  · simp only [hi, if_true, Option.bind_eq_bind, Option.bind_some, hsearch]
    rw [← hi, hp]
    rfl
  · have hne : name ≠ n := by
      intro he
      exact hi (he ▸ hh.symm)
    simp only [hi, hne, if_false]

/-- One step keeps the refinement and the pairs that resolve. -/
theorem Represents.step {I : PathIndex} (hpos : 0 < p) (hr : Represents p idx I) (a : Attribute) :
    ∃ idx', createInMemIndexForAttr idx a.toMeta = some idx' ∧ Represents p idx' (I.step a) ∧
      Extends idx idx' := by
  have hsize : idx.parallelism = p := hr.size
  have hlt : djb2Hash a.attrName % p < idx.partitions.length := by
    rw [hr.size]
    exact Nat.mod_lt _ hpos
  have hp := List.getElem?_eq_getElem hlt
  generalize idx.partitions[djb2Hash a.attrName % p] = part at hp
  generalize hh : djb2Hash a.attrName % p = h at hp
  have ok := hr.partition h part hp
  obtain ⟨F, hF⟩ := ok.files
  obtain ⟨O, hO⟩ := ok.objects
  have hhash : djb2Hash a.attrName % idx.parallelism = h := by rw [hsize, hh]
  have hstep := createInMemIndexForAttr_eq a hhash hp hF hO
    fun leaf hl => (ok.tree.leaves _ (AssocMap.mem_of_search hl)).rbt_isSome
  have hext := extends_setPartition hp hF hO
    (Art.link part.rootArt a.attrName (linkValue ⟨h, slot F.paths a.filePath, slot O.paths a.objPath⟩
      a.attributeValue (AssocMap.search part.rootArt a.attrName)))
    (stored a.attributeValue) a.filePath a.objPath
  refine ⟨_, hstep, ⟨?_, ?_, ?_⟩, hext⟩
  · simpa [IndexAnchor.setPartition] using hr.size
  · intro i part' hi
    rw [getElem?_setPartition hp] at hi
    split_ifs at hi with he
    · subst he
      cases hi
      exact ⟨ok.tree.link hh _ rfl _, ⟨_, rfl⟩, ⟨_, rfl⟩⟩
    · exact hr.partition i part' hi
  · intro n
    have hnone : linkValue ⟨h, slot F.paths a.filePath, slot O.paths a.objPath⟩ a.attributeValue
        (AssocMap.search part.rootArt a.attrName) = none →
        AssocMap.search part.rootArt a.attrName = none := by
      cases AssocMap.search part.rootArt a.attrName with
      | none => intro _; rfl
      | some leaf => intro hl; cases hl
    rw [leafOf_setPartition_link hp a.attrName hhash _ hnone]
    have hold := fun m => hext.resolve hr m
    by_cases hn : a.attrName = n
    · subst hn
      have hleaf : AssocMap.search part.rootArt a.attrName = idx.leafOf a.attrName := by
        simp [IndexAnchor.leafOf, hhash, hp]
      simp only [if_true, PathIndex.step, Function.update_self]
      rw [hleaf] at hold ⊢
      rw [← map_linkValue, ← map_linkValue, hold]
      by_cases hz : stored a.attributeValue = 0
      · exact linkValue_of_stored_eq_zero hz _ _ _
      · rw [collectResultFromList_setPartition hp _ F O hz]
        rfl
    · have hn' : n ≠ a.attrName := fun he => hn he.symm
      simp only [hn, if_false, PathIndex.step, Function.update_of_ne hn']
      exact hold n

end Step

/-- Indexing never faults and ends in an index that represents the path index. -/
theorem indexAll_represents {p : Nat} (hpos : 0 < p) (as : List Attribute) :
    ∃ idx, indexAll p as = some idx ∧ Represents p idx (pathIndexAll as) :=
  Runs.foldlM_rel (Represents p) _ PathIndex.step
    (fun _ _ a hr => by
      obtain ⟨idx', hs, hr', -⟩ := hr.step hpos a
      exact ⟨idx', hs, hr'⟩) as _ _ (represents_init p)

/-- Whatever is indexed later, the pairs of an index keep their paths. -/
theorem indexAll_extends {p : Nat} (hpos : 0 < p) (as bs : List Attribute) {idx : IndexAnchor}
    (h : indexAll p as = some idx) (hr : Represents p idx (pathIndexAll as)) :
    ∃ idx', indexAll p (as ++ bs) = some idx' ∧ Represents p idx' (pathIndexAll (as ++ bs)) ∧
      Extends idx idx' := by
  have hrun := Runs.foldlM_rel (fun s I => Represents p s I ∧ Extends idx s) _ PathIndex.step
    (fun s I a hs => by
      obtain ⟨idx', hc, hr', he⟩ := hs.1.step hpos a
      exact ⟨idx', hc, hr', fun pair entry hx => he _ _ (hs.2 _ _ hx)⟩)
    bs idx (pathIndexAll as) ⟨hr, fun _ _ hx => hx⟩
  obtain ⟨idx', hb, hr', he⟩ := hrun
  refine ⟨idx', ?_, ?_, he⟩
  · rw [indexAll, Runs.foldlM_append_some _ _ _ _ _ h, hb]
  · rwa [pathIndexAll, List.foldl_append]

structure Resolves (idx : IndexAnchor) (I : PathIndex) : Prop where
  pos : 0 < idx.parallelism
  leaves : ∀ n, (idx.leafOf n).map (AttrLeaf.map (collectResultFromList idx)) =
    (I n).map (AttrLeaf.map some)

omit [Descent NumKey] in
theorem Represents.resolves {p : Nat} {idx : IndexAnchor} {I : PathIndex} (hpos : 0 < p)
    (hr : Represents p idx I) : Resolves idx I :=
  ⟨by rwa [IndexAnchor.parallelism, hr.size], hr.resolve⟩

omit [Descent NumKey] in
theorem mapM_of_map_eq_some {α β : Type} {f : α → Option β} {l : List α} {m : List β}
    (h : l.map f = m.map some) : l.mapM f = some m := by
  induction l generalizing m with
  | nil =>
    cases m with
    | nil => rfl
    | cons b m => simp at h
  | cons a l ih =>
    cases m with
    | nil => simp at h
    | cons b m =>
      simp only [List.map_cons, List.cons.injEq] at h
      simp [List.mapM_cons, h.1, ih h.2]

theorem attributeValueSearch_eq {idx : IndexAnchor} {I : PathIndex} (hr : Resolves idx I)
    (n : CString) (value : QueryValue) :
    (attributeValueSearch idx n value).map (Option.map (List.map (collectResultFromList idx))) =
      (I.search n value).map (Option.map (List.map some)) := by
  have hlt : djb2Hash n % idx.parallelism < idx.partitions.length := Nat.mod_lt _ hr.pos
  have hs : attributeValueSearch idx n value =
      (idx.leafOf n).elim (some none) fun leaf => leaf.search value := by
    cases hl : AssocMap.search idx.partitions[djb2Hash n % idx.parallelism].rootArt n <;>
      simp [attributeValueSearch, IndexAnchor.leafOf, List.getElem?_eq_getElem hlt, hl]
  have hn := hr.leaves n
  rw [hs, PathIndex.search]
  cases hi : idx.leafOf n with
  | none =>
    have hI : I n = none := by simpa [hi] using hn.symm
    rw [hI]
    rfl
  | some leaf =>
    cases hI : I n with
    | none => simp [hi, hI] at hn
    | some L =>
      have hl : leaf.map (collectResultFromList idx) = L.map some := by simpa [hi, hI] using hn
      simp only [Option.elim_some, ← AttrLeaf.search_map, hl]

/-- A search answers what the path index holds. -/
theorem exactMetadataSearch_eq {idx : IndexAnchor} {I : PathIndex} (hr : Resolves idx I)
    (n : CString) (value : QueryValue) :
    exactMetadataSearch idx n value = (I.search n value).join := by
  have hs := attributeValueSearch_eq hr n value
  unfold exactMetadataSearch
  cases ha : attributeValueSearch idx n value with
  | none =>
    have hI : I.search n value = none := by simpa [ha] using hs.symm
    rw [hI]
    rfl
  | some node =>
    cases hI : I.search n value with
    | none => simp [ha, hI] at hs
    | some res =>
      simp only [ha, hI, Option.map_some, Option.some.injEq] at hs
      cases node with
      | none =>
        obtain rfl : res = none := by simpa using hs.symm
        rfl
      | some l =>
        cases res with
        | none => simp at hs
        | some m => exact mapM_of_map_eq_some (Option.some.inj hs)

/-- The answers do not depend on the number of partitions. -/
theorem search_indep_parallelism {p q : Nat} (hp : 0 < p) (hq : 0 < q) (as : List Attribute) :
    ∃ s t, indexAll p as = some s ∧ indexAll q as = some t ∧ ∀ n value,
      (attributeValueSearch s n value).map Option.isSome =
        (attributeValueSearch t n value).map Option.isSome ∧
      exactMetadataSearch s n value = exactMetadataSearch t n value := by
  obtain ⟨s, hs, hrs⟩ := indexAll_represents hp as
  obtain ⟨t, ht, hrt⟩ := indexAll_represents hq as
  refine ⟨s, t, hs, ht, fun n value => ⟨?_, ?_⟩⟩
  · have hit : ∀ {α β : Type} (f : α → β) (o : Option (Option α)),
        (o.map (Option.map f)).map Option.isSome = o.map Option.isSome := by
      intro α β f o
      cases o with
      | none => rfl
      | some o => cases o <;> rfl
    rw [← hit (List.map (collectResultFromList s)), attributeValueSearch_eq (hrs.resolves hp),
      ← attributeValueSearch_eq (hrt.resolves hq), hit]
  · rw [exactMetadataSearch_eq (hrs.resolves hp), exactMetadataSearch_eq (hrt.resolves hq)]

omit [Descent NumKey] in
theorem search_indep_parallelism_two_three :
    0 < 2 ∧ 0 < 3 ∧ ∃ s t, @indexAll .oldest 2 [sampleAttribute] = some s ∧
      @indexAll .oldest 3 [sampleAttribute] = some t ∧
      @exactMetadataSearch .oldest s sampleAttribute.attrName (.integer 7) =
        @exactMetadataSearch .oldest t sampleAttribute.attrName (.integer 7) := by
  obtain ⟨s, t, hs, ht, h⟩ :=
    @search_indep_parallelism .oldest 2 3 (by decide) (by decide) [sampleAttribute]
  exact ⟨by decide, by decide, s, t, hs, ht, (h _ _).2⟩

structure TableOk (list : LinkedList) : Prop where
  nodup : (list.map (Option.map TaggedValue.tag)).Nodup
  numbered : ∀ i e, list[i]? = some e → 
    ∃ path, e = some (TaggedValue.mk (.to path) i)

omit [Descent NumKey] in
theorem PathTable.tableOk (t : PathTable) : TableOk t.toLinkedList where
  nodup := by
    have h : ∀ (paths : List CString) (pos : Nat),
        (entriesFrom pos paths).map (Option.map TaggedValue.tag) =
          paths.map fun path => some (CharPtr.to path) := by
      intro paths
      induction paths with
      | nil => intro pos; rfl
      | cons path paths ih => intro pos; simp [entriesFrom, ih]
    rw [PathTable.toLinkedList, h]
    apply t.nodup.map
    intro a b hab
    simpa using hab
  numbered := by
    intro i e he
    rw [PathTable.toLinkedList, getElem?_entriesFrom] at he
    obtain ⟨path, _, rfl⟩ := Option.map_eq_some_iff.mp he
    exact ⟨path, by simp⟩

omit [Descent NumKey] in
theorem lt_of_collectResultFromList {idx : IndexAnchor} {x : FileObjPair} {entry : SearchRstEntry}
    {part : Partition} (hp : idx.partitions[x.parallelIndexPos]? = some part)
    (h : collectResultFromList idx x = some entry) :
    x.fileListPos < part.filePathsList.length ∧ x.objListPos < part.objectPathsList.length := by
  have hlt : ∀ (list : LinkedList) (i : Nat) (tval : TaggedValue),
      listPickTaggedValue list i = some tval → i < list.length := by
    intro list i tval hi
    exact (List.getElem?_eq_some_iff.mp (Option.join_eq_some_iff.mp hi)).1
  simp only [collectResultFromList, hp, Option.bind_eq_bind, Option.bind_some,
    Option.bind_eq_some_iff] at h
  obtain ⟨file, hf, obj, ho, -⟩ := h
  exact ⟨hlt _ _ _ hf, hlt _ _ _ ho⟩

/-- In every reachable index the tables are interning tables, names are in the
tree of their hash, and the pairs of a tree are those of its partition. They
resolve to the paths they were indexed with: resolving the leaf of a name gives
the leaf of the path index, now and after every later step. -/
theorem reachable_representation {p : Nat} (hp : 0 < p) (as bs : List Attribute) :
    ∃ st st', indexAll p as = some st ∧ indexAll p (as ++ bs) = some st' ∧ st.parallelism = p ∧
      ∀ h part, st.partitions[h]? = some part →
        TableOk part.filePathsList ∧ TableOk part.objectPathsList ∧
        ∀ n leaf, (n, leaf) ∈ part.rootArt → djb2Hash n % p = h ∧
          (∀ x ∈ leaf.pairs, x.parallelIndexPos = h ∧
            x.fileListPos < part.filePathsList.length ∧ x.objListPos < part.objectPathsList.length) ∧
          ∃ L, pathIndexAll as n = some L ∧ leaf.map (collectResultFromList st) = L.map some ∧
            leaf.map (collectResultFromList st') = L.map some := by
  obtain ⟨st, hst, hr⟩ := indexAll_represents hp as
  obtain ⟨st', hst', -, hext⟩ := indexAll_extends hp as bs hst hr
  refine ⟨st, st', hst, hst', hr.size, ?_⟩
  intro h part hpart
  have ok := hr.partition h part hpart
  obtain ⟨F, hF⟩ := ok.files
  obtain ⟨O, hO⟩ := ok.objects
  refine ⟨hF ▸ F.tableOk, hO ▸ O.tableOk, ?_⟩
  intro n leaf hmem
  have hhome : djb2Hash n % p = h := ok.tree.home _ hmem
  have hleaf : st.leafOf n = some leaf := by
    simp [IndexAnchor.leafOf, IndexAnchor.parallelism, hr.size, hhome, hpart,
      AssocMap.search_of_mem ok.tree.names hmem]
  have hn := hr.resolve n
  cases hI : pathIndexAll as n with
  | none => simp [hleaf, hI] at hn
  | some L =>
    have hl : leaf.map (collectResultFromList st) = L.map some := by simpa [hleaf, hI] using hn
    refine ⟨hhome, ?_, L, rfl, hl, hext.map_leaf hl⟩
    intro x hx
    have hpos : x.parallelIndexPos = h := ok.tree.pairs _ hmem x hx
    obtain ⟨entry, _, he⟩ := resolves_of_map hl hx
    exact ⟨hpos, lt_of_collectResultFromList (hpos ▸ hpart) he⟩

omit [Descent NumKey] in
theorem reachable_representation_two :
    0 < 2 ∧ ∃ st, @indexAll .oldest 2 [sampleAttribute] = some st ∧
      ∀ h part, st.partitions[h]? = some part → TableOk part.filePathsList ∧
        ∀ n leaf, (n, leaf) ∈ part.rootArt → djb2Hash n % 2 = h := by
  obtain ⟨st, _, hst, -, -, h⟩ :=
    @reachable_representation .oldest 2 (by decide) [sampleAttribute] [sampleAttribute]
  refine ⟨by decide, st, hst, ?_⟩
  intro i part hp
  exact ⟨(h i part hp).1, fun n leaf hm => ((h i part hp).2.2 n leaf hm).1⟩

end Miqs.Index
