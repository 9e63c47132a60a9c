import Miqs.IndexSections
import Miqs.SearchExact

/-! Threads that index and search at the same time, and the threads of `concurrent_index`, which divide
an array of attributes among them. -/
namespace Miqs.Index
open Miqs.CData Miqs.KeyedTree Miqs.Interleaving Miqs.CriticalSections

abbrev CallLog := List (Call × Option (List SearchRstEntry))

def Call.attr? : Call → Option Attribute
  | .index attr => some attr
  | .search _ _ => none

def indexedBy (log : CallLog) : List Attribute := (log.map Prod.fst).filterMap Call.attr?

def entriesOf (as : List Attribute) (n : CString) (v : CInt) : List SearchRstEntry :=
  ((occurrences AttrValue.ints as n).filter fun x => x.1 = v).map Prod.snd

def doIndexing (attrArr : List Attribute) (numThreads tid : Nat) : List Call :=
  (attrArr.zipIdx.filter fun x => x.2 % numThreads = tid).map fun x => .index x.1

theorem entriesOf_perm {as bs : List Attribute} (h : as.Perm bs) (n : CString) (v : CInt) :
    (entriesOf as n v).Perm (entriesOf bs n v) := by
  unfold entriesOf occurrences
  exact (((h.filter _).flatMap_right _).filter _).map _

/-- Every position falls to one thread. -/
theorem sum_doIndexing {numThreads : Nat} (hpos : 0 < numThreads) (attrArr : List Attribute) :
    ∑ tid : Fin numThreads, (doIndexing attrArr numThreads tid : Multiset Call) =
      (attrArr.map Call.index : List Call) := by
  have hshares := Threads.sum_shares
    (fun x : Attribute × Nat => (⟨x.2 % numThreads, Nat.mod_lt _ hpos⟩ : Fin numThreads))
    (fun x => Call.index x.1) attrArr.zipIdx
  have hmap : attrArr.zipIdx.map (fun x => Call.index x.1) = attrArr.map Call.index := by
    rw [← List.zipIdx_map_fst 0 attrArr, List.map_map, List.zipIdx_map_fst]
    rfl
  rw [hmap] at hshares
  simpa only [doIndexing, Fin.ext_iff] using hshares

variable [Descent NumKey]

/-- Searches leave the index as it is. -/
theorem foldlM_indexedBy {idx idx' : IndexAnchor} {log : CallLog} (h : Ran Call.perform idx log idx') :
    (indexedBy log).foldlM (fun idx a => createInMemIndexForAttr idx a.toMeta) idx = some idx' := by
  induction log generalizing idx with
  | nil => exact congrArg some h
  | cons e log ih =>
    obtain ⟨t, ht, hr⟩ := h
    obtain ⟨call, out⟩ := e
    cases call with
    | index a =>
      obtain ⟨idx₁, hs, heq⟩ := Option.map_eq_some_iff.mp ht
      obtain ⟨rfl, -⟩ := Prod.mk.inj heq
      change (createInMemIndexForAttr idx a.toMeta).bind _ = _
      rw [hs]
      exact ih hr
    | search n value =>
      obtain ⟨rst, -, heq⟩ := Option.map_eq_some_iff.mp ht
      obtain ⟨rfl, -⟩ := Prod.mk.inj heq
      exact ih hr

def NameFits (as : List Attribute) (n : CString) : Prop :=
  IntsFit ((occurrences AttrValue.ints as n).map Prod.fst)

omit [Descent NumKey] in
theorem NameFits.perm {as bs : List Attribute} (h : as.Perm bs) {n : CString} (hfit : NameFits bs n) :
    NameFits as n := by
  obtain ⟨b, hb⟩ := hfit
  refine ⟨b, fun v hv => hb v ?_⟩
  unfold occurrences at hv ⊢
  exact (((h.filter _).flatMap_right _).map _).mem_iff.mp hv

/-- An int that was not indexed under the name makes the search read a NULL node. -/
theorem exactMetadataSearch_entriesOf {p : Nat} (hp : 0 < p) {as : List Attribute} {n : CString}
    (hn : UsedOnlyWith as n .integer) (hfit : NameFits as n) {idx : IndexAnchor}
    (hidx : indexAll p as = some idx) (v : CInt) :
    exactMetadataSearch idx n (.integer v) =
      if entriesOf as n v = [] then none else some (entriesOf as n v) := by
  by_cases hsome : ∃ a ∈ as, a.attrName = n
  · obtain ⟨st, hst, hs⟩ := exactMetadataSearch_int hp hn hsome (finds_ints hfit) v
    obtain rfl := Option.some.inj (hidx.symm.trans hst)
    exact hs
  · have hnone : as.filter (fun a => a.attrName = n) = [] := by
      rw [List.filter_eq_nil_iff]
      intro a ha han
      exact hsome ⟨a, ha, by simpa using han⟩
    obtain ⟨st, hst, hr⟩ := indexAll_represents hp as
    obtain rfl := Option.some.inj (hidx.symm.trans hst)
    rw [exactMetadataSearch_eq (hr.resolves hp), PathIndex.search, pathIndexAll_apply, hnone]
    simp [entriesOf, occurrences, hnone]

section Threads
variable {ι : Type} [DecidableEq ι] {p : Nat} {programs : ι → List Call}

/-- The index is that of the indexing calls, one after another. -/
theorem ReachedBy.indexAll {m : Machine IndexAnchor ι Call (Option (List SearchRstEntry))}
    (h : ReachedBy p programs m) : indexAll p (indexedBy m.log) = some m.state :=
  foldlM_indexedBy h.ran

variable {m : LockedState ι}

/-- However the accesses of the threads fall, a search for an int that has returned has found the paths of
what was indexed by then, in the order in which it was indexed, if the ints of the name lie in a window. -/
theorem concurrent_search_exact (hp : 0 < p) (h : LockedReach p programs m) {before after : CallLog} {n : CString}
    {v : CInt} {rst : Option (List SearchRstEntry)}
    (hlog : m.log = before ++ (.search n (.integer v), rst) :: after)
    (hn : UsedOnlyWith (indexedBy before) n .integer) (hfit : NameFits (indexedBy before) n) :
    rst = some (entriesOf (indexedBy before) n v) ∧ entriesOf (indexedBy before) n v ≠ [] := by
  obtain ⟨s, idx, hrun, -, -⟩ := h.refines hp
  have hran : Ran Call.perform _ m.log idx := hrun.ran
  rw [hlog] at hran
  obtain ⟨t, hbefore, u, hsearch, -⟩ := hran.split
  have hidx : Index.indexAll p (indexedBy before) = some t := foldlM_indexedBy hbefore
  obtain ⟨rst', hs, heq⟩ := Option.map_eq_some_iff.mp hsearch
  obtain ⟨-, rfl⟩ := Prod.mk.inj heq
  rw [exactMetadataSearch_entriesOf hp hn hfit hidx] at hs
  split_ifs at hs with hnil
  exact ⟨hs.symm, hnil⟩

omit [Descent NumKey] in
theorem nameFits_sample : NameFits [sampleAttribute] sampleAttribute.attrName := by
  have hocc : (occurrences AttrValue.ints [sampleAttribute] sampleAttribute.attrName).map Prod.fst = [7] := by
    decide +kernel
  exact ⟨7, by simp [hocc, InWindow]⟩

omit [Descent NumKey] in
/-- One thread indexes an attribute, and then another searches for its value. -/
theorem concurrent_search_exact_two_threads :
    0 < 1 ∧ ∃ (m : LockedState Bool) (rst : Option (List SearchRstEntry)),
      @LockedReach .oldest Bool _ 1 (fun i => if i then [.search sampleAttribute.attrName (.integer 7)]
        else [.index sampleAttribute]) m ∧
      m.log = [(.index sampleAttribute, none)] ++ (.search sampleAttribute.attrName (.integer 7), rst) :: [] ∧
      rst = some (entriesOf [sampleAttribute] sampleAttribute.attrName 7) := by
  have hindexed : @LockedReach .oldest Bool _ 1 (fun i => if i then [.search sampleAttribute.attrName (.integer 7)]
      else [.index sampleAttribute]) _ :=
    ((((((Relation.ReflTransGen.single (Step.acquire (i := false) rfl rfl fun _ _ _ hj => by cases hj)).tail
      (Step.access (i := false) rfl rfl)).tail (Step.access (i := false) rfl rfl)).tail
        (Step.access (i := false) rfl rfl)).tail (Step.access (i := false) rfl rfl)).tail
          (Step.access (i := false) rfl rfl)).tail (Step.release (i := false) rfl rfl)
  have hfound : @LockedReach .oldest Bool _ 1 (fun i => if i then [.search sampleAttribute.attrName (.integer 7)]
      else [.index sampleAttribute]) _ :=
    ((((hindexed.tail (Step.acquire (i := true) rfl rfl fun j _ _ hj => by cases j <;> cases hj)).tail
      (Step.access (i := true) rfl rfl)).tail (Step.access (i := true) rfl rfl)).tail
        (Step.access (i := true) rfl rfl)).tail (Step.release (i := true) rfl rfl)
  have hn : UsedOnlyWith [sampleAttribute] sampleAttribute.attrName .integer := by
    intro a ha _
    rw [List.mem_singleton.mp ha]
    rfl
  exact ⟨by decide, _, _, hfound, rfl,
    (@concurrent_search_exact .oldest Bool _ 1 _ _ (by decide) hfound [(.index sampleAttribute, none)] [] _ _ _ rfl
      hn nameFits_sample).1⟩

/-- A thread that still has attributes to index can go on. -/
theorem LockedReach.index_progress (hp : 0 < p) (h : LockedReach p programs m)
    (hindex : ∀ i, ∀ call ∈ programs i, ∃ a, call = Call.index a) (hi : ∃ i, m.todo i ≠ []) :
    ∃ m', CriticalSections.Step (sections p) m m' := by
  refine Reached.progress h (fun s hs i call hcall => ?_) hi
  obtain ⟨a, rfl⟩ := hindex i call hcall
  obtain ⟨idx, -, hholds⟩ := hs.simulate (Holds p) (fun _ _ _ _ _ hst hop => hst.perform hp hop) (holds_init p)
  exact hholds.index_isSome hp a

end Threads

/-- The threads of `concurrent_index` never block each other for good: as long as there is something left
to do, some thread can go on. In the end each attribute of the array has been indexed once, and a search
for an int of a name whose ints lie in a window finds its paths, as after indexing the array in order. -/
theorem doIndexing_covers {p numThreads : Nat} (hp : 0 < p) (hthreads : 0 < numThreads) {attrArr : List Attribute}
    {m : LockedState (Fin numThreads)}
    (h : LockedReach p (fun tid : Fin numThreads => doIndexing attrArr numThreads tid) m) :
    ((∃ tid, m.todo tid ≠ []) → ∃ m', CriticalSections.Step (sections p) m m') ∧
      ((∀ tid, m.todo tid = []) → (indexedBy m.log).Perm attrArr ∧
        ∃ idx : IndexAnchor, (∀ k < p, idx.partitions[k]? = some (m.component k)) ∧
          ∀ n, UsedOnlyWith attrArr n .integer → NameFits attrArr n → ∀ v, entriesOf attrArr n v ≠ [] →
            ∃ rst, exactMetadataSearch idx n (.integer v) = some rst ∧ rst.Perm (entriesOf attrArr n v)) := by
  refine ⟨fun hsome => h.index_progress hp (fun i call hcall => ?_) hsome, fun hdone => ?_⟩
  · obtain ⟨x, -, rfl⟩ := List.mem_map.mp hcall
    exact ⟨x.1, rfl⟩
  obtain ⟨s, idx, hrun, hholds, hserves⟩ := h.refines hp
  have hnone : ∑ tid, (m.todo tid : Multiset Call) = 0 := Finset.sum_eq_zero fun tid _ => congrArg _ (hdone tid)
  have hops : _ + ∑ tid, (m.todo tid : Multiset Call) = _ := hrun.ops_add_pending
  rw [hnone, add_zero, sum_doIndexing hthreads] at hops
  have hperm : (indexedBy m.log).Perm attrArr := by
    have hattrs := (Multiset.coe_eq_coe.mp hops).filterMap Call.attr?
    have hall : (attrArr.map Call.index).filterMap Call.attr? = attrArr := by
      rw [List.filterMap_map]
      exact List.filterMap_some
    rwa [hall] at hattrs
  refine ⟨hperm, idx, fun k hk => ?_, fun n hn hfit v hv => ?_⟩
  · rw [hholds.parts k hk, hserves.idle k]
    intro tid call l hplace
    have hnil := hdone tid
    rw [State.todo, hplace] at hnil
    cases hnil
  · have hn' : UsedOnlyWith (indexedBy m.log) n .integer := fun a ha => hn a (hperm.subset ha)
    have hentries := entriesOf_perm hperm n v
    refine ⟨_, ?_, hentries⟩
    rw [exactMetadataSearch_entriesOf hp hn' (hfit.perm hperm) hrun.indexAll, if_neg]
    intro hnil
    rw [hnil] at hentries
    exact hv hentries.nil_eq.symm

omit [Descent NumKey] in
/-- Two threads index in their partitions by turns, and the second one ends first. -/
theorem doIndexing_covers_two_threads :
    0 < 2 ∧ 0 < 2 ∧ ∃ m : LockedState (Fin 2),
      @LockedReach .oldest (Fin 2) _ 2 (fun tid => doIndexing [sampleAttribute, siblingAttribute] 2 tid) m ∧
      (∀ tid, m.todo tid = []) ∧ m.log = [(.index siblingAttribute, none), (.index sampleAttribute, none)] ∧
      (indexedBy m.log).Perm [sampleAttribute, siblingAttribute] := by
  have hboth : @LockedReach .oldest (Fin 2) _ 2 (fun tid => doIndexing [sampleAttribute, siblingAttribute] 2 tid) _ :=
    (Relation.ReflTransGen.single (Step.acquire (i := 0) rfl rfl fun _ _ _ hj => by cases hj)).tail
      (Step.acquire (i := 1) rfl rfl (Fin.forall_fin_two.mpr ⟨fun _ _ hj hhome => by
          cases hj
          exact absurd hhome (by decide), fun _ _ hj => by cases hj⟩))
  have hended : @LockedReach .oldest (Fin 2) _ 2 (fun tid => doIndexing [sampleAttribute, siblingAttribute] 2 tid) _ :=
    (((((((((((hboth.tail (Step.access (i := 0) rfl rfl)).tail (Step.access (i := 1) rfl rfl)).tail
      (Step.access (i := 0) rfl rfl)).tail (Step.access (i := 1) rfl rfl)).tail
        (Step.access (i := 0) rfl rfl)).tail (Step.access (i := 1) rfl rfl)).tail
      (Step.access (i := 0) rfl rfl)).tail (Step.access (i := 1) rfl rfl)).tail
        (Step.access (i := 0) rfl rfl)).tail (Step.access (i := 1) rfl rfl)).tail
          (Step.release (i := 1) rfl rfl)).tail (Step.release (i := 0) rfl rfl)
  have hcovers := @doIndexing_covers .oldest 2 2 (by decide) (by decide) [sampleAttribute, siblingAttribute] _ hended
  refine ⟨by decide, by decide, _, hended, ?_, rfl, (hcovers.2 ?_).1⟩ <;>
  exact Fin.forall_fin_two.mpr ⟨rfl, rfl⟩

end Miqs.Index
