import Miqs.Art
import Miqs.ArtRefinement

/-! Iteration in the radix tree: all leaves in order, or those below a prefix. The iteration below
a prefix is that of `Miqs.Art`, where a node is given by the leaves below it. -/
namespace Miqs.Art

theorem commonPrefix_greatest {l s s' : List UInt8} (h : l <+: s) (h' : l <+: s') : l <+: commonPrefix s s' := by
  induction l generalizing s s' with
  | nil => exact List.nil_prefix
  | cons c l ih =>
    obtain ⟨r, rfl⟩ := h
    obtain ⟨r', rfl⟩ := h'
    rw [List.cons_append, List.cons_append, commonPrefix, if_pos rfl]
    exact List.cons_prefix_cons.mpr ⟨rfl, ih (List.prefix_append l r) (List.prefix_append l r')⟩

theorem length_commonPrefix_eq {s s' : List UInt8} {r : Nat} (hs : r ≤ s.length) (hs' : r ≤ s'.length)
    (hsame : ∀ i < r, s.getD i 0 = s'.getD i 0)
    (hne : r < s.length → r < s'.length → s.getD r 0 ≠ s'.getD r 0) : (commonPrefix s s').length = r := by
  induction s generalizing s' r with
  | nil => exact (Nat.le_zero.mp hs).symm
  | cons c s ih =>
    cases s' with
    | nil => exact (Nat.le_zero.mp hs').symm
    | cons c' s' =>
      rw [commonPrefix]
      cases r with
      | zero =>
        have hc : c ≠ c' := by simpa using hne (by simp) (by simp)
        rw [if_neg hc]
        rfl
      | succ r =>
        have hc : c = c' := by simpa using hsame 0 (by omega)
        rw [if_pos hc, List.length_cons]
        congr 1
        refine ih (by simpa using hs) (by simpa using hs') ?_ ?_
        · intro i hi
          simpa using hsame (i + 1) (by omega)
        · intro h h'
          simpa using hne (by simpa using h) (by simpa using h')

theorem starts_sharedFrom {l : List UInt8} {depth : Nat} {keys : List (List UInt8)} (hne : keys ≠ [])
    (hall : ∀ key ∈ keys, l <+: key.drop depth) : l <+: sharedFrom depth keys := by
  fun_induction sharedFrom depth keys with
  | case1 => exact absurd rfl hne
  | case2 key => exact hall key (by simp)
  | case3 key keys hkeys ih =>
    apply commonPrefix_greatest (hall key (by simp))
    exact ih hkeys fun key' hkey' => hall key' (List.mem_cons_of_mem _ hkey')

/-- What keys share ends where two of them differ. -/
theorem sharedFrom_eq {l : List UInt8} {depth : Nat} {keys : List (List UInt8)} {a b : List UInt8}
    (hall : ∀ key ∈ keys, l <+: key.drop depth) (ha : a ∈ keys) (hb : b ∈ keys)
    (hne : a.getD (depth + l.length) 0 ≠ b.getD (depth + l.length) 0) : sharedFrom depth keys = l := by
  have hstarts := starts_sharedFrom (List.ne_nil_of_mem ha) hall
  refine (hstarts.eq_of_length_le ?_).symm
  by_contra hlt
  have hnext : ∀ key ∈ keys, key.getD (depth + l.length) 0 = (sharedFrom depth keys).getD l.length 0 := by
    intro key hkey
    rw [← getD_of_starts (sharedFrom_starts hkey) (by omega), List.getD_eq_getElem?_getD, List.getD_eq_getElem?_getD,
      List.getElem?_drop]
  exact hne ((hnext a ha).trans (hnext b hb).symm)

end Miqs.Art

namespace Miqs.Radix
open Miqs.CArray Miqs.CData Miqs.Runs
variable {V σ : Type} {behind : Behind} {asc : Prop}

section Callback
variable (cb : σ → CString → V → σ × Int)

def callEach (data : σ) (entries : List (CString × V)) : σ × Int :=
  whileZero (fun data l => cb data l.1 l.2) data entries

theorem callEach_single (data : σ) (l : CString × V) : callEach cb data [l] = cb data l.1 l.2 := by
  rw [callEach, whileZero]
  split_ifs with h
  · rfl
  · rw [whileZero]
    exact Prod.ext rfl (not_not.mp h).symm

theorem recursiveIter_inner (n : ArtInner (ArtNode V)) (data : σ) :
    recursiveIter cb (.inner n) data =
      whileZero (fun data e => recursiveIter cb (n.children e.2) data) data (edgeSlots n) := by
  obtain ⟨type, num, len, bytes, keys, children⟩ := n
  rw [recursiveIter]

theorem recursiveIter_eq (x : ArtNode V) (data : σ) : recursiveIter cb x data = callEach cb data (leaves x) := by
  induction x using ArtNode.induction generalizing data with
  | null => rfl
  | leaf key value => exact (callEach_single cb data (key, value)).symm
  | inner n ih =>
    rw [recursiveIter_inner, leaves_inner, edges, List.flatMap_map, callEach, ← whileZero_flatMap]
    apply whileZero_congr
    intro e _ data
    exact ih e.2 data

end Callback

theorem bytes_starts {path : List UInt8} {key : CString} (h : path <+: text key) (h0 : 0 ∉ path) : path <+: key.bytes := by
  apply List.prefix_of_prefix_length_le h (List.prefix_append key.bytes [0])
  exact length_le_of_starts h h0

/-- Where two ways part, the keys are in the order of the characters that follow. -/
theorem bytes_lt {path : List UInt8} {a b : CString} {c c' : UInt8} (h0 : 0 ∉ path) (ha : path ++ [c] <+: text a)
    (hb : path ++ [c'] <+: text b) (hlt : c < c') : a.bytes < b.bytes := by
  have hc' : c' ≠ 0 := by
    rintro rfl
    exact UInt8.not_lt_zero hlt
  -- the greater character is no terminator
  have hb' : path ++ [c'] <+: b.bytes := by
    apply bytes_starts hb
    rw [List.mem_append, List.mem_singleton]
    exact fun h => h.elim h0 (Ne.symm hc')
  obtain ⟨rest, hrest⟩ := hb'
  obtain ⟨tail, htail⟩ := bytes_starts ((List.prefix_append path [c]).trans ha) h0
  rw [← htail, ← hrest, List.append_assoc]
  apply List.append_left_lt
  cases tail with
  | nil => exact List.nil_lt_cons _ _
  | cons d tail =>
    have hd : path ++ [d] <+: text a := by
      rw [text, ← htail]
      exact ⟨tail ++ [0], by simp⟩
    obtain rfl := snoc_inj ha hd
    exact List.cons_lt_cons_iff.mpr (.inl hlt)

theorem Wf.leaves_ascending {path : List UInt8} {x : ArtNode V} (h : Wf asc path x) (hasc : asc) :
    (leaves x).Pairwise fun l l' => l.1.bytes < l'.1.bytes := by
  induction h with
  | leaf starts => exact List.pairwise_singleton _ _
  | @inner path n common _ _ order nul _ _ below ih =>
    rw [leaves_inner, List.pairwise_flatMap]
    refine ⟨ih, ?_⟩
    have hedges := order hasc
    rw [Ascending, List.pairwise_map] at hedges
    refine hedges.imp_of_mem ?_
    intro e e' he he' hlt l hl l' hl'
    exact bytes_lt nul ((below e he).starts l hl) ((below e' he').starts l' hl') hlt

theorem maximum_inner (n : ArtInner (ArtNode V)) :
    maximum (.inner n) = (lastSlot n).bind fun i => maximum (n.children i) := by
  obtain ⟨type, num, len, bytes, keys, children⟩ := n
  rw [maximum]
  cases lastSlot ⟨type, num, len, bytes, keys, children⟩ <;> rfl

theorem lastSlot_eq {n : ArtInner (ArtNode V)} (h : edgeSlots n ≠ []) :
    lastSlot n = (edgeSlots n).getLast?.map Prod.snd := by
  have hrows : (List.range n.numChildren).map (fun i => (n.keys i, i)) ≠ [] →
      some (n.numChildren - 1) = ((List.range n.numChildren).map fun i => (n.keys i, i)).getLast?.map Prod.snd := by
    intro hne
    obtain ⟨m, hm⟩ : ∃ m, n.numChildren = m + 1 := Nat.exists_eq_succ_of_ne_zero (by
      rintro hzero
      simp [hzero] at hne)
    rw [hm, List.range_succ, List.map_append]
    simp
  rw [lastSlot]
  cases ht : n.type with
  | node4 => simpa only [edgeSlots, ht] using hrows (by simpa only [edgeSlots, ht] using h)
  | node16 => simpa only [edgeSlots, ht] using hrows (by simpa only [edgeSlots, ht] using h)
  | node48 => simp [edgeSlots, ht, present, Function.comp_def]
  | node256 => simp [edgeSlots, ht, present, Function.comp_def]

/-- `maximum` finds the leaf that the iteration meets last. -/
theorem Wf.maximum {path : List UInt8} {x : ArtNode V} (h : Wf asc path x) :
    ∃ l, Radix.maximum x = some l ∧ (leaves x).getLast? = some l := by
  induction h with
  | @leaf path key value starts => exact ⟨(key, value), rfl, rfl⟩
  | @inner path n common ok least _ _ _ _ _ ih =>
    obtain ⟨es, e, hes⟩ : ∃ es e, edgeSlots n = es ++ [e] := by
      rcases List.eq_nil_or_concat (edgeSlots n) with hnil | ⟨es, e, hes⟩
      · rw [length_edges, hnil] at least
        cases ht : n.type <;> simp [ht, NodeType.least] at least
      · exact ⟨es, e, by simpa using hes⟩
    obtain ⟨l, hmax, hlast⟩ := ih (e.1, n.children e.2) (by simp [edges, hes])
    refine ⟨l, ?_, ?_⟩
    · rw [maximum_inner, lastSlot_eq (by simp [hes]), hes, List.getLast?_concat]
      exact hmax
    · rw [leaves_inner, edges, hes, List.map_append, List.flatMap_append, List.map_singleton, List.flatMap_singleton,
        List.getLast?_append, hlast]
      rfl

def spelled (x : ArtNode V) : List (List UInt8 × (CString × V)) := (leaves x).map fun l => (l.1.bytes, l)

section Node
variable {path common : List UInt8} {n : ArtInner (ArtNode V)}

/-- A key with the path of a node has the next character of its edge. -/
theorem getD_next {key : CString} {c : UInt8} (h : path ++ [c] <+: text key) (h0 : 0 ∉ path) :
    key.bytes.getD path.length 0 = c := by
  have hlen := length_le_of_starts ((List.prefix_append path [c]).trans h) h0
  have hc : charAt (fun _ _ => 0) key path.length = c := charAt_snoc h
  rwa [charAt, if_pos hlen] at hc

theorem Wf.exists_leaf {x : ArtNode V} (h : Wf asc path x) : ∃ l, l ∈ leaves x := by
  obtain ⟨l, hl, -⟩ := h.exists_minimum
  exact ⟨l, hl⟩

theorem Ok.two_edges (ok : Ok n) (least : n.type.least ≤ (edges n).length) :
    ∃ e ∈ edges n, ∃ e' ∈ edges n, e.1 ≠ e'.1 := by
  have htwo : 2 ≤ (edges n).length := by
    refine Nat.le_trans ?_ least
    cases n.type <;> simp [NodeType.least]
  have hlabels := ok.labels
  rw [← map_fst_edges] at hlabels
  rcases hes : edges n with _ | ⟨e, _ | ⟨e', es⟩⟩
  · simp [hes] at htwo
  · simp [hes] at htwo
  · refine ⟨e, by simp, e', by simp, ?_⟩
    simp only [hes, List.map_cons, List.nodup_cons, List.mem_cons, not_or] at hlabels
    exact hlabels.1.1

theorem compressedPath_eq (ok : Ok n) (least : n.type.least ≤ (edges n).length) (nul : 0 ∉ path ++ common)
    (below : ∀ e ∈ edges n, Wf asc (path ++ common ++ [e.1]) e.2) :
    Art.compressedPath (spelled (.inner n)) path.length = common := by
  obtain ⟨e, he, e', he', hne⟩ := ok.two_edges least
  obtain ⟨l, hl⟩ := (below e he).exists_leaf
  obtain ⟨l', hl'⟩ := (below e' he').exists_leaf
  have hmem : ∀ {e l}, e ∈ edges n → l ∈ leaves e.2 → l.1.bytes ∈ (spelled (.inner n)).map Prod.fst := by
    intro e l he hl
    rw [spelled, List.map_map, leaves_inner]
    exact List.mem_map.mpr ⟨l, List.mem_flatMap.mpr ⟨e, he, hl⟩, rfl⟩
  refine Art.sharedFrom_eq ?_ (hmem he hl) (hmem he' hl') ?_
  · intro key hkey
    obtain ⟨_, hentry, rfl⟩ := List.mem_map.mp hkey
    obtain ⟨l, hl, rfl⟩ := List.mem_map.mp hentry
    have hstarts := (bytes_starts (starts_of_below below l hl) nul).drop path.length
    rwa [List.drop_left] at hstarts
  · rw [← List.length_append, getD_next ((below e he).starts l hl) nul, getD_next ((below e' he').starts l' hl') nul]
    exact hne

theorem prefixMismatch_eq (behind : Behind) (key : CString) (ok : Ok n) (least : n.type.least ≤ (edges n).length)
    (order : asc → Ascending n) (nul : 0 ∉ path ++ common) (len : common.length = n.partialLen)
    (bytes : ∀ i < min maxPrefixLen n.partialLen, n.partialBytes i = common.getD i 0)
    (below : ∀ e ∈ edges n, Wf asc (path ++ common ++ [e.1]) e.2) :
    Art.prefixMismatch (spelled (.inner n)) key.bytes path.length =
      min (prefixMismatch behind n key path.length) n.partialLen := by
  obtain ⟨hsame, hle, hne⟩ := prefixMismatch_agree behind key (.inner common ok least order nul len bytes below) nul len bytes
    (starts_of_below below)
  have hchar : ∀ i < key.bytes.length - path.length,
      (key.bytes.drop path.length).getD i 0 = charAt behind key (path.length + i) := by
    intro i hi
    rw [charAt, if_pos (by omega), List.getD_eq_getElem?_getD, List.getD_eq_getElem?_getD, List.getElem?_drop]
  rw [Art.prefixMismatch, compressedPath_eq ok least nul below]
  apply Art.length_commonPrefix_eq
  · omega
  · rwa [List.length_drop]
  · intro i hi
    rw [hsame i hi, hchar i (by omega)]
  · intro hlt hlt'
    rw [List.length_drop] at hlt'
    rw [hchar _ hlt']
    have hmin : min (prefixMismatch behind n key path.length) n.partialLen = prefixMismatch behind n key path.length := by
      omega
    rw [hmin] at hlt hlt' ⊢
    exact hne (by omega) hlt'

theorem spelled_inner (n : ArtInner (ArtNode V)) : spelled (.inner n) = (edges n).flatMap fun e => spelled e.2 := by
  rw [spelled, leaves_inner, List.map_flatMap]
  rfl

/-- Below the edge with a character are the leaves that have it there. -/
theorem findChild_spelled {c : UInt8} (ok : Ok n) (nul : 0 ∉ path ++ common)
    (below : ∀ e ∈ edges n, Wf asc (path ++ common ++ [e.1]) e.2) :
    Art.findChild (spelled (.inner n)) (path ++ common).length c =
      (findChild n c).elim [] fun i => spelled (n.children i) := by
  have hedge : ∀ e ∈ edges n, (spelled e.2).filter (fun leaf => leaf.1.getD (path ++ common).length 0 = c) =
      if e.1 = c then spelled e.2 else [] := by
    intro e he
    have hnext : ∀ leaf ∈ spelled e.2, leaf.1.getD (path ++ common).length 0 = e.1 := by
      intro leaf hleaf
      obtain ⟨l, hl, rfl⟩ := List.mem_map.mp hleaf
      exact getD_next ((below e he).starts l hl) nul
    split_ifs with hc
    · rw [List.filter_eq_self]
      intro leaf hleaf
      simp only [hnext leaf hleaf, hc, decide_true]
    · rw [List.filter_eq_nil_iff]
      intro leaf hleaf
      simp only [hnext leaf hleaf, hc, decide_false, Bool.false_eq_true, not_false_eq_true]
  rw [Art.findChild, spelled_inner, List.filter_flatMap, List.flatMap_congr hedge]
  cases hfind : findChild n c with
  | none =>
    have hnone := ok.findChild_eq_none.mp hfind
    refine List.flatMap_eq_nil_iff.mpr ?_
    intro e he
    rw [if_neg]
    rintro rfl
    exact hnone (List.mem_map_of_mem he)
  | some i =>
    have he : (c, n.children i) ∈ edges n := List.mem_map.mpr ⟨_, ok.mem_of_findChild hfind, rfl⟩
    obtain ⟨before, after, hedges⟩ := List.append_of_mem he
    have hlabels := ok.labels
    rw [← map_fst_edges, hedges, List.map_append, List.map_cons, List.nodup_append, List.nodup_cons] at hlabels
    have hbefore : (before.flatMap fun e => if e.1 = c then spelled e.2 else []) = [] := by
      refine List.flatMap_eq_nil_iff.mpr ?_
      intro e he
      exact if_neg fun heq => hlabels.2.2 _ (List.mem_map_of_mem he) _ (by simp) heq
    have hafter : (after.flatMap fun e => if e.1 = c then spelled e.2 else []) = [] := by
      refine List.flatMap_eq_nil_iff.mpr ?_
      intro e he
      exact if_neg fun heq => hlabels.2.1.1 (List.mem_map.mpr ⟨e, he, heq⟩)
    rw [hedges, List.flatMap_append, List.flatMap_cons, hbefore, hafter, if_pos rfl]
    simp

/-- Below an inner node are two leaves or more. -/
theorem Ok.two_leaves (ok : Ok n) (least : n.type.least ≤ (edges n).length)
    (below : ∀ e ∈ edges n, Wf asc (path ++ common ++ [e.1]) e.2) : ¬ (spelled (.inner n)).length ≤ 1 := by
  intro hle
  obtain ⟨e, he, e', he', hne⟩ := ok.two_edges least
  obtain ⟨l, hl⟩ := (below e he).exists_leaf
  obtain ⟨l', hl'⟩ := (below e' he').exists_leaf
  have hmem : ∀ {e l}, e ∈ edges n → l ∈ leaves e.2 → l ∈ leaves (.inner n) := by
    intro e l he hl
    rw [leaves_inner]
    exact List.mem_flatMap.mpr ⟨e, he, hl⟩
  have heq : l = l' := by
    rw [spelled, List.length_map] at hle
    have hl := hmem he hl
    have hl' := hmem he' hl'
    rcases hls : leaves (.inner n) with _ | ⟨a, _ | ⟨b, rest⟩⟩ <;> simp [hls] at hl hl' hle
    rw [hl, hl']
  exact hne (snoc_inj ((below e he).starts l hl) (heq ▸ (below e' he').starts l' hl'))

end Node

theorem iterPrefixFrom_inner (cb : σ → CString → V → σ × Int) {key : CString} (n : ArtInner (ArtNode V)) (depth : Nat)
    (data : σ) :
    iterPrefixFrom cb behind key (.inner n) depth data =
      if depth = key.bytes.length then
        (minimum (.inner n)).elim (data, 0) fun l =>
          if leafPrefixMatches l.1 key then recursiveIter cb (.inner n) data else (data, 0)
      else if n.partialLen ≠ 0 ∧ min (prefixMismatch behind n key depth) n.partialLen = 0 then (data, 0)
      else if n.partialLen ≠ 0 ∧ depth + min (prefixMismatch behind n key depth) n.partialLen = key.bytes.length then
        recursiveIter cb (.inner n) data
      else (findChild n (charAt behind key (depth + n.partialLen))).elim (data, 0) fun i =>
        iterPrefixFrom cb behind key (n.children i) (depth + n.partialLen + 1) data := by
  obtain ⟨type, num, len, bytes, keys, children⟩ := n
  rw [iterPrefixFrom]
  congr 1
  · cases minimum (.inner ⟨type, num, len, bytes, keys, children⟩) <;> rfl
  · dsimp only
    congr 2
    cases findChild ⟨type, num, len, bytes, keys, children⟩ (charAt behind key (depth + len)) <;> rfl

/-- The iteration over the nodes is the one over the leaves, wherever that does not read behind
the terminator of the prefix. -/
theorem Wf.iterPrefix {path : List UInt8} {x : ArtNode V} (h : Wf asc path x) (cb : σ → CString → V → σ × Int)
    (behind : Behind) {key : CString} {found : List (List UInt8 × (CString × V))}
    (hfound : Art.iterPrefixFrom key.bytes (spelled x) path.length = some found) (data : σ) :
    iterPrefixFrom cb behind key x path.length data = callEach cb data (found.map Prod.snd) := by
  induction h with
  | @leaf path l value starts =>
    rw [Art.iterPrefixFrom, if_pos (by simp [spelled, leaves])] at hfound
    obtain rfl := Option.some.inj hfound
    rw [iterPrefixFrom, leafPrefixMatches, Art.withPrefix]
    by_cases hpre : key.bytes <+: l.bytes
    · rw [if_pos (List.isPrefixOf_iff_prefix.mpr hpre)]
      simpa [spelled, leaves, hpre] using (callEach_single cb data (l, value)).symm
    · rw [if_neg (fun hp => hpre (List.isPrefixOf_iff_prefix.mp hp))]
      simp [spelled, leaves, hpre, callEach, whileZero]
  | @inner path n common ok least order nul len bytes below ih =>
    have hall : (spelled (.inner n)).map Prod.snd = leaves (.inner n) := by
      rw [spelled, List.map_map]
      exact List.map_id _
    obtain ⟨l, hmin, hhead⟩ := (Wf.inner common ok least order nul len bytes below).minimum
    have hhead : ((spelled (.inner n)).head?.any fun leaf => key.bytes <+: leaf.1) = leafPrefixMatches l.1 key := by
      rw [spelled, List.head?_map, hhead, Option.map_some, Option.any_some, leafPrefixMatches, Bool.eq_iff_iff,
        decide_eq_true_iff, List.isPrefixOf_iff_prefix]
    have hpath : common ≠ [] ↔ n.partialLen ≠ 0 := by rw [← len, List.length_eq_zero_iff.ne]
    rw [Art.iterPrefixFrom, if_neg (ok.two_leaves least below), compressedPath_eq ok least nul below,
      prefixMismatch_eq behind key ok least order nul len bytes below] at hfound
    simp only [hpath, len] at hfound
    rw [iterPrefixFrom_inner, recursiveIter_eq]
    split_ifs at hfound ⊢ with hdepth hfirst hbail hmatched hroom
    · obtain rfl := Option.some.inj hfound
      rw [hmin, Option.elim_some, if_pos (by simpa [hhead] using hfirst), hall]
    · obtain rfl := Option.some.inj hfound
      rw [hmin, Option.elim_some, if_neg (by simpa [hhead] using hfirst)]
      rfl
    · obtain rfl := Option.some.inj hfound
      rfl
    · obtain rfl := Option.some.inj hfound
      rw [hall]
    · -- down to the child with the next character
      have hc : key.bytes.getD (path.length + n.partialLen) 0 = charAt behind key (path.length + n.partialLen) := by
        rw [charAt, if_pos hroom]
      have hchild := findChild_spelled (c := charAt behind key (path.length + n.partialLen)) ok nul below
      rw [List.length_append, len] at hchild
      rw [hc, hchild] at hfound
      cases hfind : findChild n (charAt behind key (path.length + n.partialLen)) with
      | none =>
        rw [hfind, Option.elim_none, Art.iterPrefixFrom, if_pos (by simp)] at hfound
        obtain rfl := Option.some.inj hfound
        rfl
      | some i =>
        have he : (_, n.children i) ∈ edges n := List.mem_map.mpr ⟨_, ok.mem_of_findChild hfind, rfl⟩
        have ih := ih _ he
        rw [List.length_append, List.length_append, List.length_singleton, len] at ih
        rw [hfind, Option.elim_some] at hfound
        exact ih hfound

end Miqs.Radix
