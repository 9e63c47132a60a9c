import Miqs.AffixSearch
import Miqs.ArtRuns
import Miqs.HashTableRuns

/-! The string index over the nodes of the radix tree and over the buckets of the hash table
answers what it answers over lists of entries. -/
namespace Miqs.Art
variable {V : Type}

theorem sharedFrom_perm {depth : Nat} {keys keys' : List (List UInt8)} (h : keys.Perm keys') :
    sharedFrom depth keys = sharedFrom depth keys' := by
  by_cases hne : keys = []
  · subst hne
    rw [h.nil_eq]
  have hne' : keys' ≠ [] := fun h' => hne (List.perm_nil.mp (h' ▸ h))
  have hle : sharedFrom depth keys <+: sharedFrom depth keys' :=
    starts_sharedFrom hne' fun key hkey => sharedFrom_starts (h.mem_iff.mpr hkey)
  have hge : sharedFrom depth keys' <+: sharedFrom depth keys :=
    starts_sharedFrom hne fun key hkey => sharedFrom_starts (h.mem_iff.mp hkey)
  exact hle.eq_of_length_le hge.length_le

theorem compressedPath_perm {below below' : List (List UInt8 × V)} (h : below.Perm below') (depth : Nat) :
    compressedPath below depth = compressedPath below' depth :=
  sharedFrom_perm (h.map Prod.fst)

theorem prefixMismatch_perm {below below' : List (List UInt8 × V)} (h : below.Perm below') (key : List UInt8)
    (depth : Nat) : prefixMismatch below key depth = prefixMismatch below' key depth := by
  rw [prefixMismatch, compressedPath_perm h, prefixMismatch]

def AgreeTo (depth : Nat) (below : List (List UInt8 × V)) : Prop :=
  ∀ leaf ∈ below, 0 ∉ leaf.1 ∧ ∀ leaf' ∈ below, leaf.1.take depth = leaf'.1.take depth

theorem take_eq_of_getD {s s' : List UInt8} {i : Nat} (h0 : 0 ∉ s) (h0' : 0 ∉ s') (h : s.take i = s'.take i)
    (hnext : s.getD i 0 = s'.getD i 0) : s.take (i + 1) = s'.take (i + 1) := by
  rw [List.take_add_one, List.take_add_one, h]
  congr 2
  rw [List.getD_eq_getElem?_getD, List.getD_eq_getElem?_getD] at hnext
  cases hs : s[i]? with
  | none =>
    cases hs' : s'[i]? with
    | none => rfl
    | some c =>
      rw [hs, hs', Option.getD_none, Option.getD_some] at hnext
      exact absurd (List.mem_of_getElem? hs') (hnext ▸ h0')
  | some c =>
    cases hs' : s'[i]? with
    | none =>
      rw [hs, hs', Option.getD_none, Option.getD_some] at hnext
      exact absurd (List.mem_of_getElem? hs) (hnext ▸ h0)
    | some c' =>
      rw [hs, hs'] at hnext
      exact congrArg some hnext

theorem AgreeTo.findChild {depth : Nat} {below : List (List UInt8 × V)} (h : AgreeTo depth below) (c : UInt8) :
    AgreeTo (depth + (compressedPath below depth).length + 1)
      (findChild below (depth + (compressedPath below depth).length) c) := by
  intro leaf hleaf
  obtain ⟨hleaf, hc⟩ := List.mem_filter.mp hleaf
  refine ⟨(h leaf hleaf).1, ?_⟩
  intro leaf' hleaf'
  obtain ⟨hleaf', hc'⟩ := List.mem_filter.mp hleaf'
  apply take_eq_of_getD (h leaf hleaf).1 (h leaf' hleaf').1
  · have hpath : ∀ l ∈ below, (l.1.drop depth).take (compressedPath below depth).length = compressedPath below depth :=
      fun l hl => (List.prefix_iff_eq_take.mp (compressedPath_starts hl)).symm
    rw [List.take_add, List.take_add, hpath leaf hleaf, hpath leaf' hleaf', (h leaf hleaf).2 leaf' hleaf']
  · exact (of_decide_eq_true hc).trans (of_decide_eq_true hc').symm

theorem iterPrefixFrom_perm {key : List UInt8} {below below' : List (List UInt8 × V)} {depth : Nat}
    (h : below.Perm below') (hagree : AgreeTo depth below) {found : List (List UInt8 × V)}
    (hfound : iterPrefixFrom key below depth = some found) :
    ∃ found', iterPrefixFrom key below' depth = some found' ∧ found'.Perm found := by
  fun_induction iterPrefixFrom key below depth generalizing below' with
  | case1 below depth hleaf =>
    obtain rfl := Option.some.inj hfound
    refine ⟨withPrefix key below', ?_, (h.filter _).symm⟩
    rw [iterPrefixFrom, if_pos (h.length_eq ▸ hleaf)]
  | case2 below hnode =>
    obtain rfl := Option.some.inj hfound
    -- the leaves agree on whether they have the prefix
    have hall : ∀ leaf ∈ below, ∀ leaf' ∈ below, key <+: leaf.1 → key <+: leaf'.1 := by
      intro leaf hleaf leaf' hleaf' hpre
      rw [List.prefix_iff_eq_take] at hpre ⊢
      rw [← (hagree leaf hleaf).2 leaf' hleaf']
      exact hpre
    have hany : (below'.head?.any fun leaf => key <+: leaf.1) = below.head?.any fun leaf => key <+: leaf.1 := by
      cases hb : below with
      | nil => rw [hb] at hnode; exact absurd (Nat.zero_le 1) hnode
      | cons leaf rest =>
        cases hb' : below' with
        | nil => rw [h.length_eq, hb'] at hnode; exact absurd (Nat.zero_le 1) hnode
        | cons leaf' rest' =>
          have hleaf : leaf ∈ below := by simp [hb]
          have hleaf' : leaf' ∈ below := h.mem_iff.mpr (by simp [hb'])
          simp only [List.head?_cons, Option.any_some, decide_eq_decide]
          exact ⟨hall leaf' hleaf' leaf hleaf, hall leaf hleaf leaf' hleaf'⟩
    refine ⟨if (below'.head?.any fun leaf => key <+: leaf.1) then below' else [], ?_, ?_⟩
    · rw [iterPrefixFrom, if_neg (h.length_eq ▸ hnode), if_pos rfl]
    · rw [hany]
      split_ifs
      · exact h.symm
      · exact .refl _
  | case3 below depth hnode hdepth hbail =>
    obtain rfl := Option.some.inj hfound
    refine ⟨[], ?_, .refl _⟩
    rw [iterPrefixFrom, if_neg (h.length_eq ▸ hnode), if_neg hdepth, ← compressedPath_perm h, ← prefixMismatch_perm h,
      if_pos hbail]
  | case4 below depth hnode hdepth hbail hmatched =>
    obtain rfl := Option.some.inj hfound
    refine ⟨below', ?_, h.symm⟩
    rw [iterPrefixFrom, if_neg (h.length_eq ▸ hnode), if_neg hdepth, ← compressedPath_perm h, ← prefixMismatch_perm h,
      if_neg hbail, if_pos hmatched]
  | case5 below depth hnode hdepth hbail hmatched hroom ih =>
    obtain ⟨found', hfound', hperm⟩ := ih (h.filter _) (hagree.findChild _) hfound
    refine ⟨found', ?_, hperm⟩
    rw [iterPrefixFrom, if_neg (h.length_eq ▸ hnode), if_neg hdepth, ← compressedPath_perm h, ← prefixMismatch_perm h,
      if_neg hbail, if_neg hmatched, if_pos hroom]
    exact hfound'
  | case6 below depth hnode hdepth hbail hmatched hroom => cases hfound

end Miqs.Art

namespace Miqs.StringSpi
open Miqs.CData Miqs.Radix Miqs.Art Miqs.StringUtils
variable {D : Type}

def insertStringToNodes (t : ArtTree D) (call : Behind × Keyword × D) : ArtTree D :=
  (artInsert call.1 (artInsert call.1 t call.2.1.text call.2.2).1 call.2.1.reverse.text call.2.2).1

def nodesOf (calls : List (Behind × Keyword × D)) : ArtTree D := calls.foldl insertStringToNodes artTreeInit

def prefixCallback (found : List (Pointer D)) (_ : CString) (value : D) : List (Pointer D) × Int :=
  (found ++ [.data value], 0)

def searchPrefixInNodes (behind : Behind) (t : ArtTree D) (affix : CString) : List (Pointer D) :=
  (Radix.artIterPrefix prefixCallback behind t affix []).1

def texts (tree : List (Keyword × D)) : List (CString × D) := tree.map fun e => (e.1.text, e.2)

theorem keyword_text_injective : Function.Injective Keyword.text := fun _ _ h => Keyword.ext h

theorem search_texts_insert (tree : List (Keyword × D)) (key : Keyword) (data : D) :
    AssocMap.search (texts (AssocMap.insert tree key data)) =
      Function.update (AssocMap.search (texts tree)) key.text (some data) := by
  funext s
  rw [Function.update_apply]
  induction tree with
  | nil => simp [AssocMap.insert, texts, AssocMap.search, eq_comm]
  | cons e tree ih =>
    rw [texts] at ih ⊢
    by_cases he : e.1 = key
    · rw [AssocMap.insert, if_pos he, List.map_cons, texts, List.map_cons, AssocMap.search, AssocMap.search, he]
      by_cases hs : key.text = s
      · rw [if_pos hs, if_pos hs.symm]
      · rw [if_neg hs, if_neg (Ne.symm hs), if_neg hs]
    · have hne : e.1.text ≠ key.text := fun h => he (Keyword.ext h)
      rw [AssocMap.insert, if_neg he, List.map_cons, texts, List.map_cons, AssocMap.search, AssocMap.search, ih]
      by_cases hs : e.1.text = s
      · rw [if_pos hs, if_pos hs, if_neg (hs ▸ hne)]
      · rw [if_neg hs, if_neg hs]
        rfl

theorem search_texts (tree : List (Keyword × D)) (key : Keyword) :
    AssocMap.search (texts tree) key.text = AssocMap.search tree key := by
  induction tree with
  | nil => rfl
  | cons e tree ih =>
    rw [texts, List.map_cons, AssocMap.search, AssocMap.search, ← texts, ih]
    simp only [keyword_text_injective.eq_iff]

theorem stores_nodesOf (calls : List (Behind × Keyword × D)) :
    Stores False (nodesOf calls) (AssocMap.search (texts (artOf (calls.map Prod.snd)))) := by
  induction calls using List.reverseRecOn with
  | nil => exact stores_init
  | append_singleton calls call ih =>
    rw [nodesOf, List.foldl_append, ← nodesOf, List.map_append, artOf, List.foldl_append, ← artOf]
    simp only [List.map_singleton, List.foldl_cons, List.foldl_nil, insertStringToArt, search_texts_insert]
    have hfirst := (ih.insert call.1 call.2.1.text call.2.2 False.elim).2
    exact (hfirst.insert call.1 call.2.1.reverse.text call.2.2 False.elim).2

theorem nodup_artOf (kvs : List (Keyword × D)) : ((artOf kvs).map Prod.fst).Nodup := by
  induction kvs using List.reverseRecOn with
  | nil => exact List.nodup_nil
  | append_singleton kvs x ih =>
    rw [artOf, List.foldl_append, ← artOf]
    exact AssocMap.nodup_insert (AssocMap.nodup_insert ih _ _) _ _

theorem leaves_nodesOf (calls : List (Behind × Keyword × D)) :
    (Radix.leaves (nodesOf calls).root).Perm (texts (artOf (calls.map Prod.snd))) := by
  have h := stores_nodesOf calls
  have hnodup : ((texts (artOf (calls.map Prod.snd))).map Prod.fst).Nodup := by
    have hkeys := (nodup_artOf (calls.map Prod.snd)).map keyword_text_injective
    rw [List.map_map] at hkeys
    rwa [texts, List.map_map]
  refine (List.perm_ext_iff_of_nodup h.nodup.of_map hnodup.of_map).mpr ?_
  rintro ⟨s, data⟩
  rw [h.mem_iff]
  exact ⟨AssocMap.mem_of_search, AssocMap.search_of_mem hnodup⟩

theorem callEach_prefixCallback (found : List (Pointer D)) (entries : List (CString × D)) :
    (callEach prefixCallback found entries).1 = found ++ entries.map fun l => .data l.2 := by
  rw [callEach, Runs.whileZero_eq_foldl (fun _ _ => rfl)]
  induction entries generalizing found with
  | nil => simp
  | cons l entries ih =>
    rw [List.foldl_cons, ih]
    simp [prefixCallback]

/-- The search over the nodes visits what the search over the leaves visits. -/
theorem searchPrefixInNodes_perm (behind : Behind) (calls : List (Behind × Keyword × D)) (affix : CString)
    {found : List (List UInt8 × (CString × D))}
    (hfound : Art.artIterPrefix ((texts (artOf (calls.map Prod.snd))).map fun l => (l.1.bytes, l)) affix.bytes =
      some found) :
    (searchPrefixInNodes behind (nodesOf calls) affix).Perm (found.map fun leaf => .data leaf.2.2) := by
  have hperm : (spelled (nodesOf calls).root).Perm
      ((texts (artOf (calls.map Prod.snd))).map fun l => (l.1.bytes, l)) := (leaves_nodesOf calls).map _
  have hagree : AgreeTo 0 ((texts (artOf (calls.map Prod.snd))).map fun l => (l.1.bytes, l)) := by
    intro leaf hleaf
    obtain ⟨l, -, rfl⟩ := List.mem_map.mp hleaf
    exact ⟨l.1.nulFree, fun _ _ => by rw [List.take_zero, List.take_zero]⟩
  obtain ⟨found', hfound', hsame⟩ := iterPrefixFrom_perm hperm.symm hagree hfound
  have hvisit : Radix.artIterPrefix prefixCallback behind (nodesOf calls) affix [] =
      callEach prefixCallback [] (found'.map Prod.snd) := by
    rw [Radix.artIterPrefix]
    rcases (stores_nodesOf calls).root with hnull | hwf
    · rw [hnull, spelled, Radix.leaves, List.map_nil, Art.iterPrefixFrom, if_pos (by simp)] at hfound'
      obtain rfl := Option.some.inj hfound'
      rw [hnull]
      rfl
    · exact hwf.iterPrefix prefixCallback behind hfound' []
  rw [searchPrefixInNodes, hvisit, callEach_prefixCallback, List.nil_append, List.map_map]
  exact hsame.map _

/-- After any calls of `insert_string`, exact searches and prefix searches over the nodes deliver
what they deliver over the list of leaves, wherever the prefix search over the list does not read
behind the terminator of the prefix. -/
theorem art_nodes_answer_as_leaves [KeyedTree.Descent Keyword] (calls : List (Behind × Keyword × D)) :
    (∀ behind key, (artSearch behind (nodesOf calls) key.text).map Pointer.data =
      searchString (insertStrings .art (calls.map Prod.snd)) key) ∧
    ∀ behind affix found, searchAffixInArt (artOf (calls.map Prod.snd)) .patternPrefix affix = some found →
      (searchPrefixInNodes behind (nodesOf calls) affix).Perm found := by
  refine ⟨?_, ?_⟩
  · intro behind key
    rw [(stores_nodesOf calls).search, insertStrings_art, searchString, search_texts]
  · intro behind affix found hfound
    obtain ⟨entries, hentries, rfl⟩ := Option.map_eq_some_iff.mp hfound
    have hmap := artIterPrefix_map (fun l : CString × D => l.2)
      ((texts (artOf (calls.map Prod.snd))).map fun l => (l.1.bytes, l)) affix.bytes
    have hspell : ((texts (artOf (calls.map Prod.snd))).map fun l => (l.1.bytes, l)).map
        (fun leaf => (leaf.1, leaf.2.2)) = (artOf (calls.map Prod.snd)).map fun e => (e.1.text.bytes, e.2) := by
      rw [texts, List.map_map, List.map_map]
      rfl
    rw [hspell, hentries] at hmap
    obtain ⟨visited, hvisited, rfl⟩ := Option.map_eq_some_iff.mp hmap.symm
    rw [List.map_map]
    exact searchPrefixInNodes_perm behind calls affix hvisited

section Hashtable
open Miqs.Ht

def insertCall (x : Keyword × D) : HtCall D := .set x.1.text.bytes (some x.2) 8

def hashtableOf (seed : UInt32) (kvs : List (Keyword × D)) : HashTable D := tableAfter 256 0 seed (kvs.map insertCall)

def searchStringInHashtable (t : HashTable D) (key : Keyword) : Option D := (htGet t key.text.bytes).2.data

theorem noNull_insertCall (kvs : List (Keyword × D)) :
    Runs.Along NoNull Ht.mapCall (fun _ => none) (kvs.map insertCall) := by
  generalize (fun _ => none : List UInt8 → Option (Option D × Nat)) = m
  induction kvs generalizing m with
  | nil => trivial
  | cons x kvs ih => exact ⟨Or.inr (Option.some_ne_none x.2), ih _⟩

theorem mapAfter_snoc (kvs : List (Keyword × D)) (x : Keyword × D) :
    Ht.mapAfter ((kvs ++ [x]).map insertCall) =
      Function.update (Ht.mapAfter (kvs.map insertCall)) x.1.text.bytes (some (some x.2, 8)) := by
  rw [Ht.mapAfter, Ht.mapAfter, Runs.trace_fst, Runs.trace_fst, List.map_append, List.foldl_append]
  exact mapSet_fst x.1.nonempty (some x.2) 8

theorem keyword_bytes_injective {key key' : Keyword} (h : key.text.bytes = key'.text.bytes) : key = key' :=
  Keyword.ext (CString.ext h)

/-- What is stored for the characters of a string. -/
theorem mapAfter_insertCalls (kvs : List (Keyword × D)) (b : List UInt8) (e : Option D × Nat) :
    Ht.mapAfter (kvs.map insertCall) b = some e ↔
      ∃ key data, lastData kvs key = some data ∧ key.text.bytes = b ∧ (some data, 8) = e := by
  induction kvs using List.reverseRecOn with
  | nil => simp [Ht.mapAfter, Runs.trace, lastData]
  | append_singleton kvs x ih =>
    rw [mapAfter_snoc, Function.update_apply]
    simp only [lastData_append]
    by_cases hb : b = x.1.text.bytes
    · rw [if_pos hb]
      constructor
      · intro he
        exact ⟨x.1, x.2, if_pos rfl, hb.symm, Option.some.inj he⟩
      · rintro ⟨key, data, hdata, hkey, rfl⟩
        rw [if_pos (keyword_bytes_injective (hb ▸ hkey).symm)] at hdata
        rw [Option.some.inj hdata]
    · rw [if_neg hb, ih]
      constructor
      · rintro ⟨key, data, hdata, hkey, he⟩
        refine ⟨key, data, ?_, hkey, he⟩
        rw [if_neg]
        · exact hdata
        · rintro rfl
          exact hb hkey.symm
      · rintro ⟨key, data, hdata, hkey, he⟩
        refine ⟨key, data, ?_, hkey, he⟩
        rwa [if_neg] at hdata
        rintro rfl
        exact hb hkey.symm

theorem search_after_inserts (seed : UInt32) (kvs : List (Keyword × D)) (key : Keyword) :
    searchStringInHashtable (hashtableOf seed kvs) key = lastData kvs key := by
  have hstores := (Ht.stores_after 256 0 seed (kvs.map insertCall)).2
  have hget := (Ht.stores_call _ _ (.get key.text.bytes) hstores).1
  have hfirst := (sameMap_after (noNull_insertCall kvs)).2.first key.text.bytes
  have hreply : (htGet (hashtableOf seed kvs) key.text.bytes).2 = mapFirst (Ht.mapAfter (kvs.map insertCall)) key.text.bytes :=
    hget.trans hfirst
  rw [searchStringInHashtable, hreply, mapFirst]
  cases hm : Ht.mapAfter (kvs.map insertCall) key.text.bytes with
  | none =>
    cases hl : lastData kvs key with
    | none => rfl
    | some data =>
      have hsome := (mapAfter_insertCalls kvs key.text.bytes (some data, 8)).mpr ⟨key, data, hl, rfl, rfl⟩
      rw [hm] at hsome
      cases hsome
  | some e =>
    obtain ⟨key', data, hl, hkey, rfl⟩ := (mapAfter_insertCalls kvs key.text.bytes e).mp hm
    rw [keyword_bytes_injective hkey] at hl
    rw [hl]
    rfl

theorem pairs_after_inserts (seed : UInt32) (kvs : List (Keyword × D)) :
    (pairs (hashtableOf seed kvs)).Perm
      ((kvs.foldl (fun m x => AssocMap.insert m x.1 x.2) []).map fun x => (x.1.text.bytes, (some x.2, 8))) := by
  have hnodup := foldl_insert_nodup kvs
  have hsearch := search_foldl_insert_eq kvs
  generalize kvs.foldl (fun m x => AssocMap.insert m x.1 x.2) [] = entries at hnodup hsearch ⊢
  have hkeys : ((entries.map fun x => (x.1.text.bytes, ((some x.2 : Option D), 8))).map Prod.fst).Nodup := by
    have hbytes := hnodup.map fun _ _ h => keyword_bytes_injective h
    rw [List.map_map] at hbytes ⊢
    exact hbytes
  refine (List.perm_ext_iff_of_nodup (nodup_pairs_after 256 0 seed (noNull_insertCall kvs)).of_map hkeys.of_map).mpr ?_
  rintro ⟨b, e⟩
  refine (mem_pairs_after 256 0 seed (noNull_insertCall kvs)).trans ?_
  rw [mapAfter_insertCalls, List.mem_map]
  constructor
  · rintro ⟨key, data, hl, rfl, rfl⟩
    exact ⟨(key, data), AssocMap.mem_of_search ((hsearch key).trans hl), rfl⟩
  · rintro ⟨x, hx, heq⟩
    obtain ⟨rfl, rfl⟩ := Prod.mk.inj heq
    exact ⟨x.1, x.2, (hsearch x.1).symm.trans (AssocMap.search_of_mem hnodup hx), rfl, rfl⟩

/-- After any calls of `insert_string`, whatever the seed of the hash function, exact searches
deliver what they deliver over the list of entries, and the iteration meets the entries of the
list, each once. -/
theorem hashtable_answers_as_entries [KeyedTree.Descent Keyword] (seed : UInt32) (kvs : List (Keyword × D)) :
    (∀ key, (searchStringInHashtable (hashtableOf seed kvs) key).map Pointer.data =
      searchString (insertStrings .hashtable kvs) key) ∧
    ∃ visited : List (List UInt8 × (Option D × Nat)),
      visited.Perm ((kvs.foldl (fun m x => AssocMap.insert m x.1 x.2) []).map fun x =>
        (x.1.text.bytes, (some x.2, 8))) ∧
      ∀ {σ : Type} (cb : σ → List UInt8 → Option D → Nat → σ × Int) (_ : ∀ s key data dlen, 0 < (cb s key data dlen).2)
        (user : σ), (htForeachPair cb (hashtableOf seed kvs) user).2 =
          visited.foldl (fun user e => (cb user e.1 e.2.1 e.2.2).1) user := by
  refine ⟨?_, pairs (hashtableOf seed kvs), pairs_after_inserts seed kvs, ?_⟩
  · intro key
    rw [search_after_inserts, insertStrings_hashtable, searchString, search_foldl_insert_eq]
  · intro σ cb hcb user
    rw [htForeachPair_pairs hcb]

end Hashtable

end Miqs.StringSpi
