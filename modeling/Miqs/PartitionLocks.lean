import Miqs.Interleaving
import Miqs.Refinement

/-! Threads that index and search. Each call holds the lock of one partition, and all
it reads or writes is in that partition. -/
namespace Miqs.Index
open Miqs.CData Miqs.KeyedTree Miqs.InternTable Miqs.Interleaving
variable [Descent NumKey]

inductive Call where
  | index (attr : Attribute)
  | search (attrName : CString) (value : QueryValue)

def Call.attrName : Call → CString
  | .index attr => attr.attrName
  | .search attrName _ => attrName

def Call.partition (p : Nat) (call : Call) : Nat := djb2Hash call.attrName % p

def Call.perform (idx : IndexAnchor) :
    Call → Option (IndexAnchor × Option (List SearchRstEntry))
  | .index attr =>
    (createInMemIndexForAttr idx attr.toMeta).map fun idx' => (idx', none)
  | .search attrName value =>
    (exactMetadataSearch idx attrName value).map fun rst => (idx, some rst)

/-- An anchor with `p` partitions in which indexing has left every pair resolvable. -/
def IndexOk (p : Nat) (idx : IndexAnchor) : Prop := ∃ I, Represents p idx I

omit [Descent NumKey] in
theorem mapM_congr_of_mem {α β : Type} {f g : α → Option β} {l : List α}
    (h : ∀ x ∈ l, f x = g x) : l.mapM f = l.mapM g := by
  induction l with
  | nil => rfl
  | cons x l ih =>
    rw [List.mapM_cons, List.mapM_cons, h x (by simp), ih fun y hy => h y (List.mem_cons_of_mem x hy)]

section Locality
variable {p : Nat} {idx idx' : IndexAnchor}

omit [Descent NumKey] in
theorem IndexOk.partition_eq (hi : IndexOk p idx) (name : CString) :
    djb2Hash name % idx.parallelism = djb2Hash name % p := by
  obtain ⟨I, hr⟩ := hi
  rw [IndexAnchor.parallelism, hr.size]

omit [Descent NumKey] in
theorem IndexOk.exists_partition (hpos : 0 < p) (hi : IndexOk p idx) (name : CString) :
    ∃ part, idx.partitions[djb2Hash name % p]? = some part := by
  obtain ⟨I, hr⟩ := hi
  have hlt : djb2Hash name % p < idx.partitions.length := by
    rw [hr.size]
    exact Nat.mod_lt _ hpos
  exact ⟨_, List.getElem?_eq_getElem hlt⟩

/-- Indexing replaces one partition, and what it becomes is the same in every index that
agrees on that partition. -/
theorem createInMemIndexForAttr_local (hpos : 0 < p) (hi : IndexOk p idx) (a : Attribute) :
    ∃ part', ∀ idx', IndexOk p idx' →
      idx'.partitions[djb2Hash a.attrName % p]? = idx.partitions[djb2Hash a.attrName % p]? →
      createInMemIndexForAttr idx' a.toMeta =
        some (idx'.setPartition (djb2Hash a.attrName % p) part') := by
  obtain ⟨part, hp⟩ := hi.exists_partition hpos a.attrName
  obtain ⟨I, hr⟩ := hi
  have ok := hr.partition _ part hp
  obtain ⟨F, hF⟩ := ok.files
  obtain ⟨O, hO⟩ := ok.objects
  refine ⟨_, fun idx' hi' he => createInMemIndexForAttr_eq a (hi'.partition_eq _) (he.trans hp) hF hO
    fun leaf hl => (ok.tree.leaves _ (AssocMap.mem_of_search hl)).rbt_isSome⟩

/-- The pairs a search finds are those of the partition of the name. -/
theorem parallelIndexPos_of_search {part : Partition} {h : Nat} (ok : PartitionOk p h part)
    {n : CString} {leaf : AttrLeaf FileObjPair} (hl : AssocMap.search part.rootArt n = some leaf)
    {value : QueryValue} {pairs : List FileObjPair} (hs : leaf.search value = some (some pairs)) :
    ∀ x ∈ pairs, x.parallelIndexPos = h := by
  intro x hx
  have hfound : x ∈ leaf.found value := by simpa [AttrLeaf.found, hs] using hx
  exact ok.tree.pairs _ (AssocMap.mem_of_search hl) x (AttrLeaf.mem_pairs_of_found hfound)

/-- The answer is the same in every index that agrees on the partition of the name,
although the pairs are resolved through the whole anchor. -/
theorem exactMetadataSearch_local (hi : IndexOk p idx) (hi' : IndexOk p idx') (n : CString)
    (value : QueryValue) (he : idx.partitions[djb2Hash n % p]? = idx'.partitions[djb2Hash n % p]?) :
    exactMetadataSearch idx n value = exactMetadataSearch idx' n value := by
  have hnode : attributeValueSearch idx n value = attributeValueSearch idx' n value := by
    simp only [attributeValueSearch, hi.partition_eq, hi'.partition_eq, he]
  unfold exactMetadataSearch
  rw [← hnode]
  cases hs : attributeValueSearch idx n value with
  | none => rfl
  | some node =>
    cases node with
    | none => rfl
    | some pairs =>
      have hpos : ∀ x ∈ pairs, x.parallelIndexPos = djb2Hash n % p := by
        obtain ⟨I, hr⟩ := hi
        simp only [attributeValueSearch, IndexOk.partition_eq ⟨I, hr⟩, Option.bind_eq_bind,
          Option.bind_eq_some_iff] at hs
        obtain ⟨part, hp, hs⟩ := hs
        cases hl : AssocMap.search part.rootArt n with
        | none => simp [hl] at hs
        | some leaf =>
          simp only [hl] at hs
          exact parallelIndexPos_of_search (hr.partition _ part hp) hl hs
      simp only [Option.bind_eq_bind, Option.bind_some]
      apply mapM_congr_of_mem
      intro x hx
      simp only [collectResultFromList, hpos x hx, he]

end Locality

def IndexAnchor.withoutPartitions (idx : IndexAnchor) : IndexAnchor := { idx with partitions := [] }

theorem perform_keeps {p : Nat} (hpos : 0 < p) {idx idx' : IndexAnchor} {call : Call}
    {rst : Option (List SearchRstEntry)} (hi : IndexOk p idx)
    (h : call.perform idx = some (idx', rst)) : IndexOk p idx' := by
  cases call with
  | index a =>
    obtain ⟨I, hr⟩ := hi
    obtain ⟨idx₁, hs, hr', -⟩ := hr.step hpos a
    simp only [Call.perform, hs, Option.map_some, Option.some.injEq, Prod.mk.injEq] at h
    rw [← h.1]
    exact ⟨_, hr'⟩
  | search n value =>
    obtain ⟨rst', -, he⟩ := Option.map_eq_some_iff.mp h
    obtain ⟨rfl, -⟩ := Prod.mk.inj he
    exact hi

/-- Calls are confined to the partition whose lock they hold. -/
theorem perform_confined {p : Nat} (hpos : 0 < p) :
    Confined (IndexOk p) (fun idx h => idx.partitions[h]?) IndexAnchor.withoutPartitions
      (Call.partition p) Call.perform where
  keeps := perform_keeps hpos
  frame := by
    intro idx call idx' rst hi h
    cases call with
    | index a =>
      obtain ⟨part', hl⟩ := createInMemIndexForAttr_local hpos hi a
      obtain ⟨part, hp⟩ := hi.exists_partition hpos a.attrName
      simp only [Call.perform, hl idx hi rfl, Option.map_some, Option.some.injEq,
        Prod.mk.injEq] at h
      rw [← h.1]
      refine ⟨rfl, fun k hk => ?_⟩
      rw [getElem?_setPartition hp, if_neg fun he => hk he.symm]
    | search n value =>
      obtain ⟨rst', -, he⟩ := Option.map_eq_some_iff.mp h
      obtain ⟨rfl, -⟩ := Prod.mk.inj he
      exact ⟨rfl, fun k _ => rfl⟩
  determined := by
    intro idx idx' call hi hi' he
    cases call with
    | index a =>
      obtain ⟨part', hl⟩ := createInMemIndexForAttr_local hpos hi a
      obtain ⟨part, hp⟩ := hi.exists_partition hpos a.attrName
      obtain ⟨part₂, hp₂⟩ := hi'.exists_partition hpos a.attrName
      simp only [Call.perform, Call.partition, Call.attrName, hl idx hi rfl, hl idx' hi' he.symm,
        Option.map_some, getElem?_setPartition hp, getElem?_setPartition hp₂, if_true]
    | search n value =>
      have hs := exactMetadataSearch_local hi hi' n value he
      simp only [Call.perform, hs, Option.map_map]
      congr 1
      funext rst
      exact congrArg (fun c => (c, some rst)) he
  ext := by
    intro idx idx' hi hi' hrest hpart
    have hlist : idx.partitions = idx'.partitions := List.ext_getElem? hpart
    cases idx
    cases idx'
    simp only [IndexAnchor.withoutPartitions, IndexAnchor.mk.injEq] at hrest hlist ⊢
    simp only [hrest, hlist, and_self]

def ReachedBy {ι : Type} [DecidableEq ι] (p : Nat) (programs : ι → List Call)
    (m : Machine IndexAnchor ι Call (Option (List SearchRstEntry))) : Prop :=
  Machine.Reached Call.perform (initInMemIndex p) programs m

theorem ReachedBy.indexed {ι : Type} [DecidableEq ι] {p : Nat} (hpos : 0 < p)
    {programs : ι → List Call} {m : Machine IndexAnchor ι Call (Option (List SearchRstEntry))}
    (h : ReachedBy p programs m) : IndexOk p m.state :=
  (perform_confined hpos).ran_keeps ⟨_, represents_init p⟩ h.ran

/-- In every state that some interleaving reaches, and compared with any other such state
`m'` of any other threads: indexing changes one partition, to a content that is the same
wherever that partition is; so is the answer of a search; calls at different partitions
commute; and the calls made at a partition, in their order, determine its content and
what they returned. -/
theorem partition_locks_cover {p : Nat} (hpos : 0 < p) {ι κ : Type} [DecidableEq ι] [DecidableEq κ]
    {programs : ι → List Call} {programs' : κ → List Call}
    {m : Machine IndexAnchor ι Call (Option (List SearchRstEntry))}
    {m' : Machine IndexAnchor κ Call (Option (List SearchRstEntry))}
    (hm : ReachedBy p programs m) (hm' : ReachedBy p programs' m') :
    (∀ a : Attribute, ∃ part,
      createInMemIndexForAttr m.state a.toMeta =
        some (m.state.setPartition (djb2Hash a.attrName % p) part) ∧
      (m'.state.partitions[djb2Hash a.attrName % p]? =
          m.state.partitions[djb2Hash a.attrName % p]? →
        createInMemIndexForAttr m'.state a.toMeta =
          some (m'.state.setPartition (djb2Hash a.attrName % p) part))) ∧
    (∀ n value, m'.state.partitions[djb2Hash n % p]? = m.state.partitions[djb2Hash n % p]? →
      exactMetadataSearch m'.state n value = exactMetadataSearch m.state n value) ∧
    (∀ c d : Call, c.partition p ≠ d.partition p →
      ((c.perform m.state).bind fun r => (d.perform r.1).map fun r' => (r'.1, r.2, r'.2)) =
        (d.perform m.state).bind fun r => (c.perform r.1).map fun r' => (r'.1, r'.2, r.2)) ∧
    ∀ h, (localLog (Call.partition p) h m.log).map Prod.fst =
        (localLog (Call.partition p) h m'.log).map Prod.fst →
      m.state.partitions[h]? = m'.state.partitions[h]? ∧
        localLog (Call.partition p) h m.log = localLog (Call.partition p) h m'.log := by
  have hi := hm.indexed hpos
  have hi' := hm'.indexed hpos
  refine ⟨?_, ?_, ?_, ?_⟩
  · intro a
    obtain ⟨part, hl⟩ := createInMemIndexForAttr_local hpos hi a
    exact ⟨part, hl _ hi rfl, hl _ hi'⟩
  · intro n value he
    exact exactMetadataSearch_local hi' hi n value he
  · intro c d hcd
    exact (perform_confined hpos).commute hi hcd
  · intro h hops
    exact (perform_confined hpos).component_eq ⟨_, represents_init p⟩ hm.ran hm'.ran hops

omit [Descent NumKey] in
/-- One of two threads indexes an attribute; so does a thread that is alone. -/
theorem partition_locks_cover_two_threads :
    0 < 2 ∧ ∃ (m : Machine IndexAnchor Bool Call (Option (List SearchRstEntry)))
        (m' : Machine IndexAnchor Unit Call (Option (List SearchRstEntry))),
      @ReachedBy .oldest Bool _ 2 (fun _ => [.index sampleAttribute]) m ∧
      @ReachedBy .oldest Unit _ 2 (fun _ => [.index sampleAttribute]) m' ∧
      m.log = [(.index sampleAttribute, none)] ∧
      m.state.partitions[djb2Hash sampleAttribute.attrName % 2]? =
        m'.state.partitions[djb2Hash sampleAttribute.attrName % 2]? := by
  obtain ⟨idx, hs, -⟩ := @Represents.step .oldest (initInMemIndex 2) 2 _ (by decide)
    (represents_init 2) sampleAttribute
  have hcall : @Call.perform .oldest (initInMemIndex 2) (.index sampleAttribute) =
      some (idx, none) := by
    simp only [Call.perform, hs, Option.map_some]
  have hm : @ReachedBy .oldest Bool _ 2 (fun _ => [.index sampleAttribute]) ⟨idx, _, _⟩ :=
    Relation.ReflTransGen.single (Machine.Step.take (i := false) rfl hcall)
  have hm' : @ReachedBy .oldest Unit _ 2 (fun _ => [.index sampleAttribute]) ⟨idx, _, _⟩ :=
    Relation.ReflTransGen.single (Machine.Step.take (i := ()) rfl hcall)
  have hcover := @partition_locks_cover .oldest 2 (by decide) Bool Unit _ _ _ _ _ _ hm hm'
  exact ⟨by decide, _, _, hm, hm', rfl, (hcover.2.2.2 _ rfl).1⟩

end Miqs.Index
