import Miqs.AffixArt

/-! Affix searches over the four data structures against a scan of the keys. -/
namespace Miqs.StringSpi
open Miqs.CData Miqs.KeyedTree Miqs.Art Miqs.Trie Miqs.StringUtils
variable {D : Type}

/-- The data structure answers the search. `below keys b` are the stored strings that begin
with `b`, and `lastTouch` tells whether such a string is there as a key or as a reversal. -/
def AffixHarmless (keys : List Keyword) (affix : CString) : StringIdxImpl → AffixType → Prop
  | .hashtable, _ => True
  | .sbst, _ => True
  | .trie, .patternPrefix =>
    (∀ s ∈ below keys affix.bytes, lastTouch keys s = some true) ∧ TrieFollows keys affix.bytes
  | .trie, .patternSuffix => SuffixPalindromes keys affix ∧ TrieFollows keys (reverseStr affix).bytes
  | .trie, .patternMiddle => MiddleHarmless keys affix
  -- where no string begins with the affix, the walk may stray
  | .art, .patternPrefix =>
    if below keys affix.bytes ≠ [] then ∀ s ∈ below keys affix.bytes, lastTouch keys s = some true
    else ∀ s ∈ storedOf keys, ¬ StraysTo keys affix s ∧ ¬ RunsOutOn keys affix s
  | .art, .patternSuffix =>
    if below keys affix.bytes ≠ [] then SuffixMirrored keys affix
    else (∀ s ∈ storedOf keys, ¬ RunsOutOn keys affix s) ∧ StrayMirrored keys affix
  | .art, .patternMiddle => ∀ key ∈ keys, ¬ affix.bytes <:+: key.text.bytes

section Agreement
variable {keys : List Keyword} {affix : CString} {afxType : AffixType}

/-- A scan of the entries, in whatever order, finds the matching keys. -/
theorem affixMatches_perm {data : Keyword → D} {entries : List (Keyword × D)}
    (h : entries.Perm (keys.map fun key => (key, data key))) :
    (affixMatches entries afxType affix).Perm
      ((matching keys afxType affix).map fun key => .data (data key)) := by
  have hscan := (h.filter fun e => isMatchingGivenAffix e.1.text afxType affix).map
    fun e => (.data e.2 : Pointer D)
  rw [List.filter_map, List.map_map] at hscan
  exact hscan

theorem foldl_insert_keys (hnodup : keys.Nodup) (data : Keyword → D) :
    (keys.map fun key => (key, data key)).foldl (fun m x => AssocMap.insert m x.1 x.2) [] =
      keys.map fun key => (key, data key) := by
  apply @AssocMap.foldl_insert _ _ _ _ []
  rw [List.nil_append, List.map_map]
  exact (List.map_id keys).symm ▸ hnodup

theorem visited_of_below (h : below keys affix.bytes ≠ []) :
    visited keys affix = some (below keys affix.bytes) := by
  obtain ⟨s, hs⟩ := List.exists_mem_of_ne_nil _ h
  exact visited_of_mem ⟨s, mem_below.mp hs⟩

theorem artReports_of_below {expected : List Keyword} (h : below keys affix.bytes ≠ []) :
    ArtReports keys affix expected ↔ ((below keys affix.bytes).map (winner keys)).Perm expected := by
  rw [artReports_iff, visited_of_below h]
  simp only [Option.some.injEq, exists_eq_left']

theorem artReports_startsWith (hnodup : keys.Nodup) :
    ArtReports keys affix (matching keys .patternPrefix affix) ↔
      AffixHarmless keys affix .art .patternPrefix := by
  rw [AffixHarmless]
  split_ifs with h
  · rw [artReports_of_below h, winners_startsWith_iff hnodup]
  · rw [not_ne_iff] at h
    have hnone : matching keys .patternPrefix affix = [] := by
      refine List.eq_nil_iff_forall_not_mem.mpr ?_
      intro s hs
      obtain ⟨hkey, hpre⟩ := mem_matching_startsWith.mp hs
      have hmem := mem_below.mpr ⟨stored_of_key hkey, hpre⟩
      rw [h] at hmem
      simp at hmem
    rw [artReports_iff_of_stray h, hnone, List.perm_nil, List.map_eq_nil_iff, List.filter_eq_nil_iff]
    simp only [decide_eq_true_eq]
    exact ⟨fun hall s hs => ⟨hall.2 s hs, hall.1 s hs⟩,
      fun hall => ⟨fun s hs => (hall s hs).2, fun s hs => (hall s hs).1⟩⟩

theorem artReports_endsWith (hnodup : keys.Nodup) :
    ArtReports keys affix (matching keys .patternSuffix affix) ↔
      AffixHarmless keys affix .art .patternSuffix := by
  rw [AffixHarmless]
  split_ifs with h
  · rw [artReports_of_below h, winners_endsWith_iff hnodup]
  · rw [artReports_iff_of_stray (not_ne_iff.mp h), strays_endsWith_iff hnodup]

variable [Descent Keyword] [AssocMap.Iteration Keyword]

theorem hashtable_exact (hnodup : keys.Nodup) : AffixExact .hashtable keys afxType affix := by
  intro D data junk
  rw [insertStrings_hashtable, foldl_insert_keys hnodup]
  exact ⟨_, rfl, affixMatches_perm (AssocMap.iter_perm _)⟩

theorem sbst_exact (hnodup : keys.Nodup) : AffixExact .sbst keys afxType affix := by
  intro D data junk
  rw [insertStrings_sbst, foldl_insert_keys hnodup]
  exact ⟨_, rfl, affixMatches_perm (walk_perm _)⟩

theorem trie_exact_iff (hnodup : keys.Nodup) :
    AffixExact .trie keys afxType affix ↔ AffixHarmless keys affix .trie afxType := by
  simp only [AffixExact, insertStrings_trie]
  cases afxType with
  | patternPrefix => exact trieReports_startsWith hnodup
  | patternSuffix => exact trieReports_endsWith hnodup
  | patternMiddle => exact trie_contains_iff hnodup

theorem art_exact_iff (hnodup : keys.Nodup) :
    AffixExact .art keys afxType affix ↔ AffixHarmless keys affix .art afxType := by
  simp only [AffixExact, insertStrings_art]
  cases afxType with
  | patternPrefix =>
    rw [← artReports_startsWith hnodup]
    exact ⟨fun h D data => h D data fun _ => 0, fun h D data _ => h D data⟩
  | patternSuffix =>
    rw [← artReports_endsWith hnodup]
    exact ⟨fun h D data => h D data fun _ => 0, fun h D data _ => h D data⟩
  | patternMiddle =>
    have hnone : ∀ {D : Type} (tree : List (Keyword × D)),
        searchAffixInArt tree .patternMiddle affix = some [] := by
      intro D tree
      simp [searchAffixInArt, infixCallback]
    have hmatch : matching keys .patternMiddle affix = [] ↔
        ∀ key ∈ keys, ¬ affix.bytes <:+: key.text.bytes := by
      simp only [List.eq_nil_iff_forall_not_mem, mem_matching_contains, not_and]
    simp only [searchAffix, hnone, Option.some.injEq, exists_eq_left', AffixHarmless, ← hmatch]
    constructor
    · intro h
      have hperm := h Keyword id fun _ => 0
      exact List.map_eq_nil_iff.mp hperm.nil_eq.symm
    · intro h D data junk
      rw [h]
      exact List.Perm.nil

end Agreement

end Miqs.StringSpi
