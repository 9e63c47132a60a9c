import Mathlib.Data.List.GetD
import Miqs.ArtOrder
import Miqs.ArtTree
import Miqs.AssocMap

/-! The radix tree is a map: below a node are the keys that begin with the characters on the way
to it, and search, insertion and deletion act on these keys as on a list of entries. -/
namespace Miqs.Radix
open Miqs.CArray Miqs.CData
variable {V : Type} {behind : Behind} {asc : Prop}

def text (key : CString) : List UInt8 := key.bytes ++ [0]

def leaves : ArtNode V → List (CString × V)
  | .null => []
  | .leaf key value => [(key, value)]
  | .inner ⟨type, num, len, bytes, keys, children⟩ =>
    (edgeSlots ⟨type, num, len, bytes, keys, children⟩).flatMap fun e => leaves (children e.2)

/-- A node to which the characters `path` lead. Its own path is stored up to ten characters, and
is as long as it can be, since the node has two children or more. Under `asc`, which stands for
keys of 7-bit characters, the children are in order. -/
inductive Wf (asc : Prop) : List UInt8 → ArtNode V → Prop
  | leaf {path : List UInt8} {key : CString} {value : V} (starts : path <+: text key) :
      Wf asc path (.leaf key value)
  | inner {path : List UInt8} {n : ArtInner (ArtNode V)} (common : List UInt8) (ok : Ok n)
      (least : n.type.least ≤ (edges n).length) (order : asc → Ascending n) (nul : 0 ∉ path ++ common)
      (len : common.length = n.partialLen)
      (bytes : ∀ i < min maxPrefixLen n.partialLen, n.partialBytes i = common.getD i 0)
      (below : ∀ e ∈ edges n, Wf asc (path ++ common ++ [e.1]) e.2) : Wf asc path (.inner n)

theorem length_text (key : CString) : (text key).length = key.bytes.length + 1 := by
  simp [text]

theorem text_inj {key key' : CString} (h : text key = text key') : key = key' := by
  ext1
  exact List.append_cancel_right h

theorem charAt_eq {key : CString} {i : Nat} (h : i ≤ key.bytes.length) :
    charAt behind key i = (text key).getD i 0 := by
  rw [charAt, if_pos h, text]
  rcases Nat.eq_or_lt_of_le h with rfl | hlt
  · simp
  · rw [List.getD_append _ _ _ _ hlt]

theorem charAt_eq_zero_iff {key : CString} {i : Nat} (h : i ≤ key.bytes.length) :
    charAt behind key i = 0 ↔ i = key.bytes.length := by
  rw [charAt, if_pos h]
  constructor
  · intro h0
    by_contra hne
    have hlt : i < key.bytes.length := by omega
    rw [List.getD_eq_getElem _ _ hlt] at h0
    exact key.nulFree (h0 ▸ List.getElem_mem hlt)
  · rintro rfl
    simp

theorem getD_of_prefix {path l : List UInt8} (h : path <+: l) {i : Nat} (hi : i < path.length) :
    l.getD i 0 = path.getD i 0 := by
  obtain ⟨rest, rfl⟩ := h
  exact List.getD_append _ _ _ _ hi

/-- The characters on the way to a key are its characters. -/
theorem charAt_of_starts {path : List UInt8} {key : CString} (h : path <+: text key) {i : Nat}
    (hi : i < path.length) : charAt behind key i = path.getD i 0 := by
  have hlen := h.length_le
  rw [length_text] at hlen
  rw [charAt_eq (by omega), getD_of_prefix h hi]

theorem charAt_snoc {path : List UInt8} {key : CString} {c : UInt8} (h : path ++ [c] <+: text key) :
    charAt behind key path.length = c := by
  rw [charAt_of_starts h (by simp), List.getD_append_right _ _ _ _ (Nat.le_refl _), Nat.sub_self]
  rfl

/-- The way to a key that has not reached the terminator. -/
theorem length_le_of_starts {path : List UInt8} {key : CString} (h : path <+: text key) (h0 : 0 ∉ path) :
    path.length ≤ key.bytes.length := by
  by_contra hlt
  have hlen := h.length_le
  rw [length_text] at hlen
  apply h0
  rw [h.eq_of_length (by rw [length_text]; omega), text]
  simp

theorem starts_snoc (behind : Behind) {path : List UInt8} {key : CString} (h : path <+: text key)
    (hlen : path.length ≤ key.bytes.length) : path ++ [charAt behind key path.length] <+: text key := by
  rw [charAt_eq hlen]
  obtain ⟨rest, hrest⟩ := h
  obtain ⟨c, rest, rfl⟩ : ∃ c rest', rest = c :: rest' := List.exists_cons_of_ne_nil (by
    rintro rfl
    have := congrArg List.length hrest
    rw [length_text, List.append_nil] at this
    omega)
  rw [← hrest, List.getD_append_right _ _ _ _ (Nat.le_refl _), Nat.sub_self]
  simp

/-- A terminator on the way leads to one key only. -/
theorem eq_of_starts {path : List UInt8} {key key' : CString} (h : path <+: text key) (h' : path <+: text key')
    (h0 : 0 ∈ path) : key = key' := by
  have hfull : ∀ {k : CString}, path <+: text k → path = text k := by
    intro k hk
    apply hk.eq_of_length_le
    by_contra hlt
    have hpre : path <+: k.bytes := by
      apply List.prefix_of_prefix_length_le hk (List.prefix_append k.bytes [0])
      rw [length_text] at hlt
      omega
    exact k.nulFree (hpre.subset h0)
  exact text_inj ((hfull h).symm.trans (hfull h'))

theorem leaves_inner (n : ArtInner (ArtNode V)) :
    leaves (.inner n) = (edges n).flatMap fun e => leaves e.2 := by
  obtain ⟨type, num, len, bytes, keys, children⟩ := n
  rw [leaves, edges, List.flatMap_map]

theorem Wf.starts {path : List UInt8} {x : ArtNode V} (h : Wf asc path x) :
    ∀ l ∈ leaves x, path <+: text l.1 := by
  induction h with
  | leaf starts =>
    intro l hl
    obtain rfl := List.mem_singleton.mp hl
    exact starts
  | @inner path n common _ _ _ _ _ _ _ ih =>
    intro l hl
    rw [leaves_inner] at hl
    obtain ⟨e, he, hl⟩ := List.mem_flatMap.mp hl
    exact ((List.prefix_append path common).trans (List.prefix_append _ _)).trans (ih e he l hl)

theorem snoc_inj {path l : List UInt8} {c c' : UInt8} (h : path ++ [c] <+: l) (h' : path ++ [c'] <+: l) : c = c' := by
  have heq := List.prefix_of_prefix_length_le h h' (by simp)
  simpa using heq.eq_of_length (by simp)

theorem Wf.nodup {path : List UInt8} {x : ArtNode V} (h : Wf asc path x) : ((leaves x).map Prod.fst).Nodup := by
  induction h with
  | leaf starts => exact List.nodup_singleton _
  | @inner path n common ok _ _ _ _ _ below ih =>
    rw [leaves_inner, List.map_flatMap, List.nodup_flatMap]
    refine ⟨ih, ?_⟩
    have hlabels := ok.labels
    rw [← map_fst_edges, List.Nodup, List.pairwise_map] at hlabels
    refine hlabels.imp_of_mem ?_
    intro e e' he he' hne key hkey hkey'
    obtain ⟨l, hl, rfl⟩ := List.mem_map.mp hkey
    obtain ⟨l', hl', heq⟩ := List.mem_map.mp hkey'
    have hstarts := (below e' he').starts l' hl'
    rw [heq] at hstarts
    exact hne (snoc_inj ((below e he).starts l hl) hstarts)

theorem minimum_inner (n : ArtInner (ArtNode V)) :
    minimum (.inner n) = (firstSlot n).bind fun i => minimum (n.children i) := by
  obtain ⟨type, num, len, bytes, keys, children⟩ := n
  rw [minimum]
  cases firstSlot ⟨type, num, len, bytes, keys, children⟩ <;> rfl

theorem firstSlot_eq {n : ArtInner (ArtNode V)} (h : edgeSlots n ≠ []) :
    firstSlot n = (edgeSlots n).head?.map Prod.snd := by
  have hrows : (List.range n.numChildren).map (fun i => (n.keys i, i)) ≠ [] →
      some 0 = ((List.range n.numChildren).map fun i => (n.keys i, i)).head?.map Prod.snd := by
    intro hne
    obtain ⟨m, hm⟩ : ∃ m, n.numChildren = m + 1 := Nat.exists_eq_succ_of_ne_zero (by
      rintro hzero
      simp [hzero] at hne)
    rw [hm, List.range_succ_eq_map]
    rfl
  rw [firstSlot]
  cases ht : n.type with
  | node4 => simpa only [edgeSlots, ht] using hrows (by simpa only [edgeSlots, ht] using h)
  | node16 => simpa only [edgeSlots, ht] using hrows (by simpa only [edgeSlots, ht] using h)
  | node48 => simp [edgeSlots, ht, present, List.head?_filter, Function.comp_def]
  | node256 => simp [edgeSlots, ht, present, List.head?_filter, Function.comp_def]

/-- `minimum` finds the leaf that the iteration meets first. -/
theorem Wf.minimum {path : List UInt8} {x : ArtNode V} (h : Wf asc path x) :
    ∃ l, minimum x = some l ∧ (leaves x).head? = some l := by
  induction h with
  | @leaf path key value starts => exact ⟨(key, value), rfl, rfl⟩
  | @inner path n common ok least _ _ _ _ _ ih =>
    obtain ⟨e, es, hes⟩ : ∃ e es, edgeSlots n = e :: es := List.exists_cons_of_ne_nil (by
      intro hnil
      rw [length_edges, hnil] at least
      cases ht : n.type <;> simp [ht, NodeType.least] at least)
    obtain ⟨l, hmin, hhead⟩ := ih (e.1, n.children e.2) (by simp [edges, hes])
    refine ⟨l, ?_, ?_⟩
    · rw [minimum_inner, firstSlot_eq (by simp [hes]), hes]
      exact hmin
    · rw [leaves_inner, edges, hes, List.map_cons, List.flatMap_cons, List.head?_append, hhead]
      rfl

theorem Wf.exists_minimum {path : List UInt8} {x : ArtNode V} (h : Wf asc path x) :
    ∃ l ∈ leaves x, Radix.minimum x = some l := by
  obtain ⟨l, hmin, hhead⟩ := h.minimum
  exact ⟨l, List.mem_of_head? hhead, hmin⟩

theorem searchFrom_inner {key : CString} (n : ArtInner (ArtNode V)) (depth : Nat) :
    searchFrom behind key (.inner n) depth =
      if n.partialLen ≠ 0 ∧ checkPrefix behind n key depth ≠ min maxPrefixLen n.partialLen then none
      else (findChild n (charAt behind key (depth + n.partialLen))).bind fun i =>
        searchFrom behind key (n.children i) (depth + n.partialLen + 1) := by
  obtain ⟨type, num, len, bytes, keys, children⟩ := n
  rw [searchFrom]
  congr 1
  cases findChild ⟨type, num, len, bytes, keys, children⟩ (charAt behind key (depth + len)) <;> rfl

/-- Whatever way the search takes, it delivers the value of the key or nothing. -/
theorem Wf.mem_of_search {path : List UInt8} {x : ArtNode V} (h : Wf asc path x) {key : CString} {depth : Nat} {value : V}
    (hs : searchFrom behind key x depth = some value) : (key, value) ∈ leaves x := by
  induction h generalizing depth with
  | @leaf path key' value' starts =>
    rw [searchFrom] at hs
    split_ifs at hs with heq
    simpa [leaves, heq] using hs.symm
  | @inner path n common ok _ _ _ _ _ _ ih =>
    rw [searchFrom_inner] at hs
    split_ifs at hs
    obtain ⟨i, hi, hs⟩ := Option.bind_eq_some_iff.mp hs
    have he := List.mem_map_of_mem (f := fun e => (e.1, n.children e.2)) (ok.mem_of_findChild hi)
    rw [leaves_inner]
    exact List.mem_flatMap.mpr ⟨_, he, ih _ he hs⟩

section Path
variable {path common : List UInt8} {n : ArtInner (ArtNode V)} {key : CString}
  (nul : 0 ∉ path ++ common) (len : common.length = n.partialLen)
  (bytes : ∀ i < min maxPrefixLen n.partialLen, n.partialBytes i = common.getD i 0)
include nul len

theorem common_length_le (hkey : path ++ common <+: text key) : path.length + n.partialLen ≤ key.bytes.length := by
  have hle := length_le_of_starts hkey nul
  rwa [List.length_append, len] at hle

omit nul in
theorem charAt_common (behind : Behind) (hkey : path ++ common <+: text key) {i : Nat} (hi : i < n.partialLen) :
    charAt behind key (path.length + i) = common.getD i 0 := by
  rw [charAt_of_starts hkey (by rw [List.length_append, len]; omega), List.getD_append_right _ _ _ _ (by omega)]
  congr 1
  omega

include bytes in
theorem checkPrefix_eq (hkey : path ++ common <+: text key) :
    checkPrefix behind n key path.length = min maxPrefixLen n.partialLen := by
  have hle := common_length_le nul len hkey
  rw [checkPrefix, Nat.min_comm n.partialLen, Nat.min_eq_left (by omega)]
  refine compareFrom_eq (Nat.zero_le _) (by omega) ?_ (by omega)
  intro i _ hi
  rw [bytes i hi, charAt_common len behind hkey (by omega)]

end Path

theorem Wf.search_of_mem {path : List UInt8} {x : ArtNode V} (h : Wf asc path x) {key : CString} {value : V}
    (hmem : (key, value) ∈ leaves x) : searchFrom behind key x path.length = some value := by
  induction h with
  | @leaf path key' value' starts =>
    obtain ⟨rfl, rfl⟩ := Prod.mk.inj (List.mem_singleton.mp hmem)
    rw [searchFrom, if_pos rfl]
  | @inner path n common ok _ _ nul len bytes below ih =>
    rw [leaves_inner] at hmem
    obtain ⟨e, he, hmem⟩ := List.mem_flatMap.mp hmem
    have hkey := (below e he).starts _ hmem
    have hpath := (List.prefix_append (path ++ common) [e.1]).trans hkey
    obtain ⟨⟨c, i⟩, hslot, rfl⟩ := List.mem_map.mp he
    have hc : charAt behind key (path ++ common).length = c := charAt_snoc hkey
    have ih := ih _ he hmem
    rw [List.length_append, List.length_append, List.length_singleton, len] at ih
    rw [List.length_append, len] at hc
    rw [searchFrom_inner, if_neg, hc, ok.findChild_of_mem hslot]
    · exact ih
    · rintro ⟨-, hne⟩
      exact hne (checkPrefix_eq nul len bytes hpath)

/-- The search finds what is stored, whatever lies in the memory behind the key. -/
theorem Wf.search_eq {path : List UInt8} {x : ArtNode V} (h : Wf asc path x) (key : CString) :
    searchFrom behind key x path.length = AssocMap.search (leaves x) key := by
  cases hs : AssocMap.search (leaves x) key with
  | some value => exact h.search_of_mem (AssocMap.mem_of_search hs)
  | none =>
    rw [Option.eq_none_iff_forall_ne_some]
    intro value hv
    rw [AssocMap.search_eq_none] at hs
    exact hs (List.mem_map_of_mem (h.mem_of_search hv))

theorem starts_of_below {path : List UInt8} {n : ArtInner (ArtNode V)}
    (below : ∀ e ∈ edges n, Wf asc (path ++ [e.1]) e.2) : ∀ l ∈ leaves (.inner n), path <+: text l.1 := by
  intro l hl
  rw [leaves_inner] at hl
  obtain ⟨e, he, hl⟩ := List.mem_flatMap.mp hl
  exact (List.prefix_append _ _).trans ((below e he).starts l hl)

theorem starts_append (behind : Behind) {path l : List UInt8} {key : CString} (h : path <+: text key)
    (hlen : path.length + l.length ≤ key.bytes.length + 1)
    (hl : ∀ i < l.length, l.getD i 0 = charAt behind key (path.length + i)) : path ++ l <+: text key := by
  induction l using List.reverseRecOn with
  | nil => simpa using h
  | append_singleton l c ih =>
    rw [List.length_append, List.length_singleton] at hlen
    have hstarts := ih (by omega) (by
      intro i hi
      rw [← hl i (by rw [List.length_append]; omega), List.getD_append _ _ _ _ hi])
    have hc := hl l.length (by simp)
    rw [List.getD_append_right _ _ _ _ (Nat.le_refl _), Nat.sub_self, List.getD_cons_zero,
      ← List.length_append] at hc
    rw [← List.append_assoc, hc]
    exact starts_snoc behind hstarts (by rw [List.length_append]; omega)

section Mismatch
variable {path common : List UInt8} {n : ArtInner (ArtNode V)} {key : CString}

theorem Wf.length_le_of_inner (h : Wf asc path (.inner n)) (hkey : path <+: text key) :
    path.length ≤ key.bytes.length := by
  cases h with
  | inner common _ _ _ nul =>
    exact length_le_of_starts hkey fun h0 => nul (List.mem_append_left _ h0)

/-- Up to the mismatch the key has the characters of the path, and there it ends or has another. -/
theorem prefixMismatch_agree (behind : Behind) (key : CString) (hwf : Wf asc path (.inner n)) (hnul : 0 ∉ path ++ common)
    (len : common.length = n.partialLen)
    (bytes : ∀ i < min maxPrefixLen n.partialLen, n.partialBytes i = common.getD i 0)
    (hbelow : ∀ l ∈ leaves (.inner n), path ++ common <+: text l.1) :
    (∀ i < min (prefixMismatch behind n key path.length) n.partialLen,
      common.getD i 0 = charAt behind key (path.length + i)) ∧
    min (prefixMismatch behind n key path.length) n.partialLen ≤ key.bytes.length - path.length ∧
    (prefixMismatch behind n key path.length < n.partialLen →
      prefixMismatch behind n key path.length < key.bytes.length - path.length →
      common.getD (prefixMismatch behind n key path.length) 0 ≠
        charAt behind key (path.length + prefixMismatch behind n key path.length)) := by
  unfold prefixMismatch
  generalize hmax : min (min maxPrefixLen n.partialLen) (key.bytes.length - path.length) = maxCmp
  obtain ⟨-, hle, heq, hne⟩ :=
    compareFrom_spec n.partialBytes (fun i => charAt behind key (path.length + i)) 0 maxCmp
  simp only
  generalize compareFrom n.partialBytes (fun i => charAt behind key (path.length + i)) 0 maxCmp = idx
    at hle heq hne ⊢
  have hsame : ∀ i < idx, common.getD i 0 = charAt behind key (path.length + i) := by
    intro i hi
    rw [← bytes i (by omega)]
    exact heq i (Nat.zero_le i) hi
  by_cases hlt : idx < maxCmp
  · rw [if_pos hlt]
    refine ⟨fun i hi => hsame i (by omega), by omega, ?_⟩
    intro _ _
    rw [← bytes idx (by omega)]
    exact hne (by omega)
  rw [if_neg hlt]
  by_cases hlong : n.partialLen > maxPrefixLen
  · -- the comparison goes on with the least leaf
    obtain ⟨l, hl, hmin⟩ := hwf.exists_minimum
    have hchar : ∀ i < n.partialLen, charAt behind l.1 (path.length + i) = common.getD i 0 := fun i hi =>
      charAt_common len behind (hbelow l hl) hi
    have hll := common_length_le hnul len (hbelow l hl)
    rw [if_pos hlong, hmin]
    simp only
    generalize hrest : min l.1.bytes.length key.bytes.length - path.length - idx = rest
    obtain ⟨hge, hup, hagree, hdiff⟩ := compareFrom_spec (fun i => charAt behind l.1 (path.length + i))
      (fun i => charAt behind key (path.length + i)) idx rest
    generalize compareFrom (fun i => charAt behind l.1 (path.length + i))
      (fun i => charAt behind key (path.length + i)) idx rest = d at hge hup hagree hdiff ⊢
    refine ⟨?_, by omega, ?_⟩
    · intro i hi
      by_cases hi' : i < idx
      · exact hsame i hi'
      · rw [← hchar i (by omega)]
        exact hagree i (by omega) (by omega)
    · intro hd hd'
      rw [← hchar d hd]
      exact hdiff (by omega)
  · rw [if_neg hlong]
    refine ⟨fun i hi => hsame i (by omega), by omega, ?_⟩
    intro hd hd'
    omega

theorem prefixMismatch_spec (behind : Behind) (hwf : Wf asc path (.inner n)) (hkey : path <+: text key)
    (hnul : 0 ∉ path ++ common) (len : common.length = n.partialLen)
    (bytes : ∀ i < min maxPrefixLen n.partialLen, n.partialBytes i = common.getD i 0)
    (hbelow : ∀ l ∈ leaves (.inner n), path ++ common <+: text l.1) :
    (∀ i < min (prefixMismatch behind n key path.length) n.partialLen,
      common.getD i 0 = charAt behind key (path.length + i)) ∧
    path.length + min (prefixMismatch behind n key path.length) n.partialLen ≤ key.bytes.length ∧
    (prefixMismatch behind n key path.length < n.partialLen →
      common.getD (prefixMismatch behind n key path.length) 0 ≠
        charAt behind key (path.length + prefixMismatch behind n key path.length)) := by
  have hdepth := hwf.length_le_of_inner hkey
  obtain ⟨hsame, hle, hne⟩ := prefixMismatch_agree behind key hwf hnul len bytes hbelow
  refine ⟨hsame, by omega, ?_⟩
  intro hlt
  by_cases hend : prefixMismatch behind n key path.length < key.bytes.length - path.length
  · exact hne hlt hend
  · -- the terminator of the key is no character of the path
    intro heq
    rw [(charAt_eq_zero_iff (by omega)).mpr (by omega), List.getD_eq_getElem _ _ (len ▸ hlt)] at heq
    exact hnul (List.mem_append_right _ (heq ▸ List.getElem_mem (len ▸ hlt)))

end Mismatch

/-- A new `node4` with two children. -/
theorem twoChildren {new : ArtInner (ArtNode V)} (ht : new.type = .node4) (hnum : new.numChildren = 0)
    {c₁ c₂ : UInt8} {x₁ x₂ : ArtNode V} (hne : c₁ ≠ c₂) (hx₁ : x₁ ≠ .null) (hx₂ : x₂ ≠ .null) :
    Ok (addChild4 (addChild4 new c₁ x₁) c₂ x₂) ∧
      (edges (addChild4 (addChild4 new c₁ x₁) c₂ x₂)).Perm [(c₂, x₂), (c₁, x₁)] ∧
      SamePath new (addChild4 (addChild4 new c₁ x₁) c₂ x₂) ∧
      (addChild4 (addChild4 new c₁ x₁) c₂ x₂).type = .node4 ∧
      Ascending (addChild4 (addChild4 new c₁ x₁) c₂ x₂) := by
  have hedges : edges new = [] := by
    rw [edges_rows (.inl ht), hnum]
    rfl
  have hok : Ok new := (ok_rows_iff (.inl ht)).mpr ⟨by rw [hnum]; exact Nat.zero_le _, by simp [hedges], by simp [hedges]⟩
  have hfirst : Added new c₁ x₁ (addChild4 new c₁ x₁) := addChild4_added ht hok (by simp [hedges]) hx₁
  have ht' : (addChild4 new c₁ x₁).type = .node4 := (type_addChild4 (by omega)).trans ht
  have hnum' : (addChild4 new c₁ x₁).numChildren = new.numChildren + 1 := numChildren_addChild4 (by omega)
  have hnew : c₂ ∉ (edges (addChild4 new c₁ x₁)).map Prod.fst := by
    rw [(hfirst.perm.map Prod.fst).mem_iff, hedges]
    simpa using Ne.symm hne
  have hsecond := addChild4_added ht' hfirst.ok hnew hx₂
  refine ⟨hsecond.ok, ?_, hfirst.path.trans hsecond.path, ?_, ?_⟩
  · exact hsecond.perm.trans ((hfirst.perm.trans (by rw [hedges])).cons _)
  · exact (type_addChild4 (by omega)).trans ht'
  · apply addChild4_ascending_of_room ht' (by omega) hnew
    apply addChild4_ascending_of_room ht (by omega) (by simp [hedges])
    simp [Ascending, hedges]

/-- Two ways that part at a new node. -/
theorem wf_twoChildren {path common : List UInt8} (new : ArtInner (ArtNode V)) (ht : new.type = .node4)
    (hnum : new.numChildren = 0) (nul : 0 ∉ path ++ common) (len : common.length = new.partialLen)
    (bytes : ∀ i < min maxPrefixLen new.partialLen, new.partialBytes i = common.getD i 0)
    {c₁ c₂ : UInt8} {x₁ x₂ : ArtNode V} (hne : c₁ ≠ c₂) (hx₁ : x₁ ≠ .null) (hx₂ : x₂ ≠ .null)
    (h₁ : Wf asc (path ++ common ++ [c₁]) x₁) (h₂ : Wf asc (path ++ common ++ [c₂]) x₂) :
    Wf asc path (.inner (addChild4 (addChild4 new c₁ x₁) c₂ x₂)) ∧
      (leaves (.inner (addChild4 (addChild4 new c₁ x₁) c₂ x₂))).Perm (leaves x₂ ++ leaves x₁) := by
  obtain ⟨hok, hperm, hpath, ht', hasc⟩ := twoChildren ht hnum hne hx₁ hx₂
  refine ⟨.inner common hok ?_ (fun _ => hasc) nul (len.trans hpath.len.symm) ?_ ?_, ?_⟩
  · rw [ht', hperm.length_eq]
    exact Nat.le_refl 2
  · intro i hi
    rw [hpath.len] at hi
    rw [hpath.bytes i hi, bytes i hi]
  · intro e he
    rcases List.mem_cons.mp (hperm.mem_iff.mp he) with rfl | he
    · exact h₂
    · obtain rfl := List.mem_singleton.mp he
      exact h₁
  · rw [leaves_inner]
    refine (hperm.flatMap_right _).trans ?_
    simp

theorem splitLeaf_spec (behind : Behind) {path : List UInt8} {l key : CString} (hl : path <+: text l) (hkey : path <+: text key)
    (hne : l ≠ key) (old value : V) :
    Wf asc path (splitLeaf behind l old key value path.length) ∧
      (leaves (splitLeaf behind l old key value path.length)).Perm [(key, value), (l, old)] := by
  have h0 : 0 ∉ path := fun h0 => hne (eq_of_starts hl hkey h0)
  have hllen := length_le_of_starts hl h0
  have hklen := length_le_of_starts hkey h0
  obtain ⟨-, hle, hsame, hdiff⟩ := compareFrom_spec (fun i => charAt behind l (path.length + i))
    (fun i => charAt behind key (path.length + i)) 0 (min l.bytes.length key.bytes.length - path.length)
  rw [splitLeaf, longestCommonPrefix]
  generalize compareFrom (fun i => charAt behind l (path.length + i))
    (fun i => charAt behind key (path.length + i)) 0 (min l.bytes.length key.bytes.length - path.length) = longest
    at hle hsame hdiff ⊢
  have hlenc : (cells (fun i => charAt behind key (path.length + i)) longest).length = longest := length_cells _ _
  have hget : ∀ i < longest, (cells (fun i => charAt behind key (path.length + i)) longest).getD i 0 =
      charAt behind key (path.length + i) := fun i hi => getD_cells _ hi 0
  have hnul : 0 ∉ cells (fun i => charAt behind key (path.length + i)) longest := by
    rw [mem_cells]
    rintro ⟨i, hi, hzero⟩
    have := (charAt_eq_zero_iff (by omega)).mp hzero
    omega
  generalize cells (fun i => charAt behind key (path.length + i)) longest = common at hlenc hget hnul
  have hkc : path ++ common <+: text key := starts_append behind hkey (by omega) (by
    intro i hi
    exact hget i (by omega))
  have hlc : path ++ common <+: text l := starts_append behind hl (by omega) (by
    intro i hi
    rw [hget i (by omega)]
    exact (hsame i (Nat.zero_le i) (by omega)).symm)
  have hlen : (path ++ common).length = path.length + longest := by rw [List.length_append, hlenc]
  have hlsnoc := starts_snoc behind hlc (by omega)
  have hksnoc := starts_snoc behind hkc (by omega)
  rw [hlen] at hlsnoc hksnoc
  -- the characters differ, since the two keys do not both end here
  have hchar : charAt behind l (path.length + longest) ≠ charAt behind key (path.length + longest) := by
    intro heq
    by_cases hzero : charAt behind key (path.length + longest) = 0
    · rw [heq, hzero] at hlsnoc
      rw [hzero] at hksnoc
      exact hne (eq_of_starts hlsnoc hksnoc (by simp))
    · have hkne : path.length + longest ≠ key.bytes.length := fun hend =>
        hzero ((charAt_eq_zero_iff (by omega)).mpr hend)
      have hlne : path.length + longest ≠ l.bytes.length := fun hend =>
        hzero (heq ▸ (charAt_eq_zero_iff (by omega)).mpr hend)
      exact hdiff (by omega) heq
  have hnulAll : 0 ∉ path ++ common := by
    rw [List.mem_append]
    exact fun h => h.elim h0 hnul
  refine wf_twoChildren _ rfl rfl hnulAll hlenc ?_ hchar (by simp) (by simp) (.leaf hlsnoc) (.leaf hksnoc)
  intro i hi
  have hi' : i < min maxPrefixLen longest := hi
  rw [hget i (by omega)]
  simp [copyFrom, hi']

def withPath (n : ArtInner (ArtNode V)) (len : Nat) (bytes : Nat → UInt8) : ArtInner (ArtNode V) :=
  { n with partialLen := len, partialBytes := bytes }

theorem edges_withPath (n : ArtInner (ArtNode V)) (len : Nat) (bytes : Nat → UInt8) :
    edges (withPath n len bytes) = edges n := rfl

theorem Ok.withPath {n : ArtInner (ArtNode V)} (h : Ok n) (len : Nat) (bytes : Nat → UInt8) :
    Ok (withPath n len bytes) :=
  ⟨h.labels, h.slots, h.there, h.count, h.room, h.free⟩

theorem getD_take {l : List UInt8} {m i : Nat} (h : i < m) : (l.take m).getD i 0 = l.getD i 0 := by
  rw [List.getD_eq_getElem?_getD, List.getElem?_take_of_lt h, List.getD_eq_getElem?_getD]

theorem getD_drop (l : List UInt8) (m i : Nat) : (l.drop m).getD i 0 = l.getD (m + i) 0 := by
  rw [List.getD_eq_getElem?_getD, List.getElem?_drop, List.getD_eq_getElem?_getD]

theorem take_getD_drop {l : List UInt8} {d : Nat} (h : d < l.length) :
    l.take d ++ [l.getD d 0] ++ l.drop (d + 1) = l := by
  rw [List.getD_eq_getElem _ _ h, List.take_append_getElem, List.take_append_drop]

section Split
variable {path common : List UInt8} {n : ArtInner (ArtNode V)} {key : CString} (ok : Ok n)
  (least : n.type.least ≤ (edges n).length) (order : asc → Ascending n) (nul : 0 ∉ path ++ common)
  (len : common.length = n.partialLen)
  (bytes : ∀ i < min maxPrefixLen n.partialLen, n.partialBytes i = common.getD i 0)
  (below : ∀ e ∈ edges n, Wf asc (path ++ common ++ [e.1]) e.2)

include ok least order nul len bytes below

theorem splitNode_eq (behind : Behind) {diff : Nat} (hdiff : diff < n.partialLen) (key : CString) (value : V) :
    ∃ rest, (∀ i < min maxPrefixLen (n.partialLen - (diff + 1)), rest i = common.getD (diff + 1 + i) 0) ∧
      splitNode behind n key value path.length diff =
        .inner (addChild4 (addChild4
          (withPath (allocNode .node4) diff (copyFrom (fun _ => 0) n.partialBytes 0 (min maxPrefixLen diff)))
          (common.getD diff 0) (.inner (withPath n (n.partialLen - (diff + 1)) rest)))
          (charAt behind key (path.length + diff)) (.leaf key value)) := by
  by_cases hshort : n.partialLen ≤ maxPrefixLen
  · refine ⟨copyFrom n.partialBytes n.partialBytes (diff + 1) (min maxPrefixLen (n.partialLen - (diff + 1))), ?_, ?_⟩
    · intro i hi
      rw [copyFrom, if_pos hi, bytes _ (by omega)]
    · rw [splitNode, ← bytes diff (by omega)]
      simp only [if_pos hshort, withPath]
  · have hwf : Wf asc path (.inner n) := .inner common ok least order nul len bytes below
    obtain ⟨l, hl, hmin⟩ := hwf.exists_minimum
    have hpath := starts_of_below below l hl
    refine ⟨copyFrom n.partialBytes (charAt behind l.1) (path.length + diff + 1)
      (min maxPrefixLen (n.partialLen - (diff + 1))), ?_, ?_⟩
    · intro i hi
      rw [copyFrom, if_pos hi, Nat.add_assoc path.length, Nat.add_assoc path.length,
        charAt_common len behind hpath (by omega)]
    · rw [splitNode, ← charAt_common len behind hpath hdiff]
      simp only [if_neg hshort, hmin, withPath]

theorem splitNode_spec (hkey : path <+: text key)
    (hdiff : prefixMismatch behind n key path.length < n.partialLen) (value : V) :
    Wf asc path (splitNode behind n key value path.length (prefixMismatch behind n key path.length)) ∧
      (leaves (splitNode behind n key value path.length (prefixMismatch behind n key path.length))).Perm
        ((key, value) :: leaves (.inner n)) := by
  have hwf : Wf asc path (.inner n) := .inner common ok least order nul len bytes below
  have hleaf := starts_of_below below
  obtain ⟨hsame, hle, hne⟩ := prefixMismatch_spec behind hwf hkey nul len bytes hleaf
  have hne := hne hdiff
  rw [Nat.min_eq_left hdiff.le] at hsame hle
  generalize prefixMismatch behind n key path.length = diff at hdiff hsame hle hne ⊢
  obtain ⟨rest, hrest, heq⟩ := splitNode_eq ok least order nul len bytes below behind hdiff key value
  have hlen : (common.take diff).length = diff := by rw [List.length_take]; omega
  have hkc : path ++ common.take diff <+: text key := by
    refine starts_append behind hkey (by omega) ?_
    intro i hi
    rw [hlen] at hi
    rw [← hsame i hi, getD_take hi]
  have hsnoc := starts_snoc behind hkc (by rw [List.length_append]; omega)
  rw [List.length_append, hlen] at hsnoc
  have hsplit := take_getD_drop (show diff < common.length by omega)
  have hold : Wf asc (path ++ common.take diff ++ [common.getD diff 0])
      (.inner (withPath n (n.partialLen - (diff + 1)) rest)) := by
    have hall : path ++ common.take diff ++ [common.getD diff 0] ++ common.drop (diff + 1) = path ++ common := by
      rw [List.append_assoc path, List.append_assoc path, hsplit]
    refine .inner (common.drop (diff + 1)) (ok.withPath _ _) least order (hall ▸ nul) ?_ ?_ ?_
    · rw [List.length_drop, len]
      rfl
    · intro i hi
      rw [getD_drop]
      exact hrest i hi
    · rw [hall]
      exact below
  rw [heq]
  have hnul : 0 ∉ path ++ common.take diff := by
    intro h0
    rcases List.mem_append.mp h0 with h0 | h0
    · exact nul (List.mem_append_left _ h0)
    · exact nul (List.mem_append_right _ (List.mem_of_mem_take h0))
  have hbytes : ∀ i < min maxPrefixLen diff, copyFrom (fun _ => 0) n.partialBytes 0 (min maxPrefixLen diff) i =
      (common.take diff).getD i 0 := by
    intro i hi
    rw [copyFrom, if_pos hi, Nat.zero_add, bytes i (by omega), getD_take (by omega)]
  obtain ⟨hnew, hperm⟩ := wf_twoChildren
    (withPath (allocNode .node4) diff (copyFrom (fun _ => 0) n.partialBytes 0 (min maxPrefixLen diff)))
    rfl rfl hnul hlen hbytes hne (by simp) (by simp) hold (.leaf hsnoc)
  refine ⟨hnew, hperm.trans ?_⟩
  rw [leaves_inner, edges_withPath, ← leaves_inner]
  exact List.Perm.refl _

end Split

theorem Wf.ne_null {path : List UInt8} {x : ArtNode V} (h : Wf asc path x) : x ≠ .null := by
  cases h <;> simp

theorem recursiveInsert_inner {key : CString} {value : V} (n : ArtInner (ArtNode V)) (depth : Nat) :
    recursiveInsert behind key value (.inner n) depth =
      if n.partialLen ≠ 0 ∧ prefixMismatch behind n key depth < n.partialLen then
        (splitNode behind n key value depth (prefixMismatch behind n key depth), none)
      else
        match findChild n (charAt behind key (depth + n.partialLen)) with
        | some i =>
          (.inner (setChild n i (recursiveInsert behind key value (n.children i) (depth + n.partialLen + 1)).1),
            (recursiveInsert behind key value (n.children i) (depth + n.partialLen + 1)).2)
        | none => (.inner (addChild n (charAt behind key (depth + n.partialLen)) (.leaf key value)), none) := by
  obtain ⟨type, num, len, bytes, keys, children⟩ := n
  exact recursiveInsert.eq_3 ..

section Edges
variable {path : List UInt8} {n : ArtInner (ArtNode V)} {key : CString} {c : UInt8}
  (below : ∀ e ∈ edges n, Wf asc (path ++ [e.1]) e.2) (hkey : path ++ [c] <+: text key)
include below hkey

/-- A key is below the edge with its next character only. -/
theorem ne_of_edge {e : UInt8 × ArtNode V} (he : e ∈ edges n) (hne : e.1 ≠ c) : ∀ l ∈ leaves e.2, l.1 ≠ key := by
  rintro l hl rfl
  exact hne (snoc_inj ((below e he).starts l hl) hkey)

theorem ne_of_no_edge (hnone : c ∉ (edges n).map Prod.fst) : ∀ l ∈ leaves (.inner n), l.1 ≠ key := by
  intro l hl
  rw [leaves_inner] at hl
  obtain ⟨e, he, hl⟩ := List.mem_flatMap.mp hl
  exact ne_of_edge below hkey he (fun heq => hnone (heq ▸ List.mem_map_of_mem he)) l hl

theorem ne_of_other_edges (ok : Ok n) {before after : List (UInt8 × ArtNode V)} {x : ArtNode V}
    (hedges : edges n = before ++ (c, x) :: after) :
    (∀ l ∈ before.flatMap fun e => leaves e.2, l.1 ≠ key) ∧ ∀ l ∈ after.flatMap fun e => leaves e.2, l.1 ≠ key := by
  have hlabels := ok.labels
  rw [← map_fst_edges, hedges, List.map_append, List.map_cons, List.nodup_append, List.nodup_cons] at hlabels
  constructor
  · intro l hl
    obtain ⟨e, he, hl⟩ := List.mem_flatMap.mp hl
    refine ne_of_edge below hkey (by rw [hedges]; exact List.mem_append_left _ he) ?_ l hl
    intro heq
    exact hlabels.2.2 _ (List.mem_map_of_mem he) _ (by simp) heq
  · intro l hl
    obtain ⟨e, he, hl⟩ := List.mem_flatMap.mp hl
    refine ne_of_edge below hkey (by rw [hedges]; simp [he]) ?_ l hl
    intro heq
    exact hlabels.2.1.1 (List.mem_map.mpr ⟨e, he, heq⟩)

end Edges

/-- The leaves below a node, split at the edge of one character. -/
theorem leaves_split {n : ArtInner (ArtNode V)} {before after : List (UInt8 × ArtNode V)} {c : UInt8} {x : ArtNode V}
    (hedges : edges n = before ++ (c, x) :: after) :
    leaves (.inner n) = (before.flatMap fun e => leaves e.2) ++ (leaves x ++ after.flatMap fun e => leaves e.2) := by
  rw [leaves_inner, hedges, List.flatMap_append, List.flatMap_cons]

theorem char_ascii {path : List UInt8} {key : CString} {c : UInt8} (h : path ++ [c] <+: text key)
    (hkey : ∀ b ∈ key.bytes, b < 128) : c < 128 := by
  have hc : c ∈ text key := h.subset (by simp)
  rcases List.mem_append.mp hc with hc | hc
  · exact hkey c hc
  · obtain rfl := List.mem_singleton.mp hc
    decide

theorem labels_ascii {path : List UInt8} {n : ArtInner (ArtNode V)}
    (below : ∀ e ∈ edges n, Wf asc (path ++ [e.1]) e.2)
    (h : ∀ l ∈ leaves (.inner n), ∀ b ∈ l.1.bytes, b < 128) : ∀ b ∈ (edges n).map Prod.fst, b < 128 := by
  intro b hb
  obtain ⟨e, he, rfl⟩ := List.mem_map.mp hb
  obtain ⟨l, hl, -⟩ := (below e he).exists_minimum
  apply char_ascii ((below e he).starts l hl) (h l ?_)
  rw [leaves_inner]
  exact List.mem_flatMap.mpr ⟨e, he, hl⟩

theorem wf_setChild {path common : List UInt8} {n : ArtInner (ArtNode V)} (ok : Ok n)
    (least : n.type.least ≤ (edges n).length) (order : asc → Ascending n) (nul : 0 ∉ path ++ common)
    (len : common.length = n.partialLen)
    (bytes : ∀ i < min maxPrefixLen n.partialLen, n.partialBytes i = common.getD i 0)
    (below : ∀ e ∈ edges n, Wf asc (path ++ common ++ [e.1]) e.2) {c : UInt8} {i : Nat} (hslot : (c, i) ∈ edgeSlots n)
    {x : ArtNode V} (hx : Wf asc (path ++ common ++ [c]) x) : Wf asc path (.inner (setChild n i x)) := by
  obtain ⟨before, after, hedges, hedges'⟩ := ok.edges_setChild hslot hx.ne_null
  refine .inner common (ok.ok_setChild hslot hx.ne_null) ?_ ?_ nul len bytes ?_
  · rw [length_edges, ok.edgeSlots_setChild hslot hx.ne_null, ← length_edges]
    exact least
  · intro hasc
    rw [Ascending, map_fst_edges, ok.edgeSlots_setChild hslot hx.ne_null, ← map_fst_edges]
    exact order hasc
  · intro e he
    rw [hedges'] at he
    rcases List.mem_append.mp he with he | he
    · exact below e (by rw [hedges]; exact List.mem_append_left _ he)
    rcases List.mem_cons.mp he with rfl | he
    · exact hx
    · exact below e (by rw [hedges]; simp [he])

/-- The insertion puts the entry of the key in the place of the old one, if there was one, and
reports the old value. -/
theorem Wf.insert {path : List UInt8} {x : ArtNode V} (h : Wf asc path x) {key : CString} (hkey : path <+: text key)
    (hascii : asc → (∀ b ∈ key.bytes, b < 128) ∧ ∀ l ∈ leaves x, ∀ b ∈ l.1.bytes, b < 128) (behind : Behind)
    (value : V) :
    Wf asc path (recursiveInsert behind key value x path.length).1 ∧
      (leaves (recursiveInsert behind key value x path.length).1).Perm
        ((key, value) :: AssocMap.erase (leaves x) key) ∧
      (recursiveInsert behind key value x path.length).2 = AssocMap.search (leaves x) key := by
  induction h with
  | @leaf path l old starts =>
    rw [recursiveInsert]
    split_ifs with heq
    · subst heq
      exact ⟨.leaf starts, by simp [leaves, AssocMap.erase], by simp [leaves, AssocMap.search]⟩
    · obtain ⟨hwf, hperm⟩ := splitLeaf_spec behind starts hkey heq old value
      exact ⟨hwf, by simpa [leaves, AssocMap.erase, heq] using hperm, by simp [leaves, AssocMap.search, heq]⟩
  | @inner path n common ok least order nul len bytes below ih =>
    have hwf : Wf asc path (.inner n) := .inner common ok least order nul len bytes below
    have hleaf := starts_of_below below
    obtain ⟨hsame, hle, hne⟩ := prefixMismatch_spec behind hwf hkey nul len bytes hleaf
    rw [recursiveInsert_inner]
    split_ifs with hsplit
    · obtain ⟨hnew, hperm⟩ := splitNode_spec ok least order nul len bytes below hkey hsplit.2 value
      have hother : ∀ l ∈ leaves (.inner n), l.1 ≠ key := by
        rintro l hl rfl
        exact hne hsplit.2 (charAt_common len behind (hleaf l hl) hsplit.2).symm
      refine ⟨hnew, ?_, (AssocMap.search_eq_none_of_ne hother).symm⟩
      rwa [AssocMap.erase_eq_self hother]
    -- the whole path of the node is matched
    have hmin : min (prefixMismatch behind n key path.length) n.partialLen = n.partialLen := by omega
    rw [hmin] at hsame hle
    have hpath : path ++ common <+: text key := starts_append behind hkey (by omega) (by rwa [len])
    have hsnoc := starts_snoc behind hpath (by rw [List.length_append]; omega)
    rw [List.length_append, len] at hsnoc
    generalize charAt behind key (path.length + n.partialLen) = c at hsnoc ⊢
    cases hfind : findChild n c with
    | none =>
      have hnone := ok.findChild_eq_none.mp hfind
      have hother := ne_of_no_edge below hsnoc hnone
      have hadded : Added n c (.leaf key value) (addChild n c (.leaf key value)) :=
        addChild_added ok hnone (by simp)
      refine ⟨.inner common hadded.ok ?_ ?_ nul (len.trans hadded.path.len.symm) ?_ ?_, ?_,
        (AssocMap.search_eq_none_of_ne hother).symm⟩
      · rw [hadded.perm.length_eq]
        exact addChild_least ok (by omega)
      · intro hasc
        obtain ⟨hk, hl⟩ := hascii hasc
        exact addChild_ascending hnone (order hasc) (labels_ascii below hl) (char_ascii hsnoc hk)
      · intro i hi
        rw [hadded.path.len] at hi
        rw [hadded.path.bytes i hi, bytes i hi]
      · intro e he
        rcases List.mem_cons.mp (hadded.perm.mem_iff.mp he) with rfl | he
        · exact .leaf hsnoc
        · exact below e he
      · rw [AssocMap.erase_eq_self hother, leaves_inner, leaves_inner]
        refine (hadded.perm.flatMap_right _).trans ?_
        simp [leaves]
    | some i =>
      have hslot := ok.mem_of_findChild hfind
      have he : (c, n.children i) ∈ edges n := List.mem_map.mpr ⟨_, hslot, rfl⟩
      obtain ⟨hchild, hperm, hold⟩ := ih _ he hsnoc fun hasc => ⟨(hascii hasc).1, fun l hl => (hascii hasc).2 l (by
        rw [leaves_inner]
        exact List.mem_flatMap.mpr ⟨_, he, hl⟩)⟩
      rw [List.length_append, List.length_append, List.length_singleton, len] at hchild hperm hold
      obtain ⟨before, after, hedges, hedges'⟩ := ok.edges_setChild hslot hchild.ne_null
      obtain ⟨hbefore, hafter⟩ := ne_of_other_edges below hsnoc ok hedges
      refine ⟨wf_setChild ok least order nul len bytes below hslot hchild, ?_, ?_⟩
      · rw [leaves_split hedges', leaves_split hedges, AssocMap.erase_append, AssocMap.erase_append,
          AssocMap.erase_eq_self hbefore, AssocMap.erase_eq_self hafter]
        refine ((hperm.append_right _).append_left _).trans ?_
        exact List.perm_middle
      · rw [hold, leaves_split hedges, AssocMap.search_append, AssocMap.search_append,
          AssocMap.search_eq_none_of_ne hbefore, AssocMap.search_eq_none_of_ne hafter, Option.none_or, Option.or_none]

theorem recursiveDelete_inner {key : CString} (n : ArtInner (ArtNode V)) (depth : Nat) :
    recursiveDelete behind key (.inner n) depth =
      if n.partialLen ≠ 0 ∧ checkPrefix behind n key depth ≠ min maxPrefixLen n.partialLen then (.inner n, none)
      else
        match findChild n (charAt behind key (depth + n.partialLen)) with
        | none => (.inner n, none)
        | some i =>
          match (n.children i).leaf? with
          | some (l, value) =>
            if l = key then (removeChild n (charAt behind key (depth + n.partialLen)) i, some value)
            else (.inner n, none)
          | none =>
            (.inner (setChild n i (recursiveDelete behind key (n.children i) (depth + n.partialLen + 1)).1),
              (recursiveDelete behind key (n.children i) (depth + n.partialLen + 1)).2) := by
  obtain ⟨type, num, len, bytes, keys, children⟩ := n
  exact recursiveDelete.eq_3 ..

theorem ArtNode.eq_leaf {x : ArtNode V} {l : CString × V} (h : x.leaf? = some l) : x = .leaf l.1 l.2 := by
  cases x with
  | null => simp [ArtNode.leaf?] at h
  | leaf key value =>
    obtain rfl := Option.some.inj h
    rfl
  | inner n => simp [ArtNode.leaf?] at h

/-- A key that is not there is not removed, whatever way the search for it takes. -/
theorem Wf.delete_of_not_mem {path : List UInt8} {x : ArtNode V} (h : Wf asc path x) {key : CString}
    (hkey : ∀ l ∈ leaves x, l.1 ≠ key) (behind : Behind) (depth : Nat) :
    recursiveDelete behind key x depth = (x, none) := by
  induction h generalizing depth with
  | @leaf path l old starts =>
    rw [recursiveDelete, if_neg (hkey (l, old) (by simp [leaves]))]
  | @inner path n common ok _ _ _ _ _ _ ih =>
    rw [recursiveDelete_inner]
    split_ifs
    · rfl
    cases hfind : findChild n (charAt behind key (depth + n.partialLen)) with
    | none => rfl
    | some i =>
      have he : (_, n.children i) ∈ edges n := List.mem_map.mpr ⟨_, ok.mem_of_findChild hfind, rfl⟩
      have hchild : ∀ l ∈ leaves (n.children i), l.1 ≠ key := by
        intro l hl
        apply hkey
        rw [leaves_inner]
        exact List.mem_flatMap.mpr ⟨_, he, hl⟩
      cases hleaf : (n.children i).leaf? with
      | some l =>
        have hne : l.1 ≠ key := hchild l (by simp [ArtNode.eq_leaf hleaf, leaves])
        simp only [hleaf, if_neg hne]
      | none =>
        have hrest := ih _ he hchild (depth + n.partialLen + 1)
        simp only [hleaf, hrest, setChild, Function.update_eq_self]

theorem concatenatePrefix_bytes {n child : ArtInner (ArtNode V)} {i : Nat}
    (hi : i < min maxPrefixLen (child.partialLen + (n.partialLen + 1))) :
    (concatenatePrefix n child).partialBytes i =
      if i < n.partialLen then n.partialBytes i
      else if i = n.partialLen then n.keys 0 else child.partialBytes (i - (n.partialLen + 1)) := by
  unfold concatenatePrefix
  by_cases hlong : n.partialLen < maxPrefixLen
  · by_cases hroom : n.partialLen + 1 < maxPrefixLen
    · have hlt : i < min (n.partialLen + 1 + min child.partialLen (maxPrefixLen - (n.partialLen + 1))) maxPrefixLen := by
        omega
      simp only [if_pos hlong, if_pos hroom, copyFrom, if_pos hlt, Nat.zero_add]
      rcases Nat.lt_trichotomy i n.partialLen with h | h | h
      · rw [if_neg (by omega), Function.update_of_ne (by omega), if_pos h]
      · rw [if_neg (by omega), h, Function.update_self, if_neg (by omega), if_pos rfl]
      · rw [if_pos (by omega), if_neg (by omega), if_neg (by omega)]
    · have hlt : i < min (n.partialLen + 1) maxPrefixLen := by omega
      simp only [if_pos hlong, if_neg hroom, copyFrom, if_pos hlt, Nat.zero_add]
      by_cases h : i = n.partialLen
      · rw [h, Function.update_self, if_neg (by omega), if_pos rfl]
      · rw [Function.update_of_ne h, if_pos (by omega)]
  · have hlt : i < min n.partialLen maxPrefixLen := by omega
    simp only [if_neg hlong, copyFrom, if_pos hlt, Nat.zero_add]
    rw [if_pos (by omega)]

/-- Where one child is left, its way goes through the node that is gone. -/
theorem onlyChild_spec {path common : List UInt8} {m : ArtInner (ArtNode V)}
    (len : common.length = m.partialLen)
    (bytes : ∀ i < min maxPrefixLen m.partialLen, m.partialBytes i = common.getD i 0)
    (hwf : Wf asc (path ++ common ++ [m.keys 0]) (m.children 0)) :
    Wf asc path (onlyChild m) ∧ leaves (onlyChild m) = leaves (m.children 0) := by
  rw [onlyChild]
  cases hchild : m.children 0 with
  | null => exact absurd hchild hwf.ne_null
  | leaf key value =>
    rw [hchild] at hwf
    cases hwf with
    | leaf starts =>
      exact ⟨.leaf (((List.prefix_append path common).trans (List.prefix_append _ _)).trans starts), rfl⟩
  | inner child =>
    rw [hchild] at hwf
    cases hwf with
    | inner common' ok' least' order' nul' len' bytes' below' =>
      have hall : path ++ (common ++ [m.keys 0] ++ common') = path ++ common ++ [m.keys 0] ++ common' := by
        simp
      refine ⟨.inner (common ++ [m.keys 0] ++ common') (ok'.withPath _ _) least' order' (hall ▸ nul') ?_ ?_ ?_, ?_⟩
      · rw [List.length_append, List.length_append, List.length_singleton, len, len', Nat.add_comm]
        rfl
      · intro i hi
        rw [concatenatePrefix_bytes hi]
        have hi' : i < min maxPrefixLen (child.partialLen + (m.partialLen + 1)) := hi
        rcases Nat.lt_trichotomy i m.partialLen with h | h | h
        · rw [if_pos h, bytes i (by omega), List.append_assoc, List.getD_append _ _ _ _ (by omega)]
        · rw [if_neg (by omega), if_pos h, List.append_assoc, List.getD_append_right _ _ _ _ (by omega), h, len,
            Nat.sub_self]
          rfl
        · rw [if_neg (by omega), if_neg (by omega), bytes' _ (by omega), List.getD_append_right _ _ _ _ (by
            rw [List.length_append, List.length_singleton]
            omega), List.length_append, List.length_singleton, len]
      · rw [hall]
        exact below'
      · rw [leaves_inner, leaves_inner]
        rfl

/-- Below a node from which the child with the key was taken are the other keys. -/
theorem leaves_of_removed {n m : ArtInner (ArtNode V)} {path : List UInt8} {c : UInt8} {key : CString} {value : V}
    (ok : Ok n) (below : ∀ e ∈ edges n, Wf asc (path ++ [e.1]) e.2) (hkey : path ++ [c] <+: text key)
    (h : Removed n c (.leaf key value) m) : leaves (.inner m) = AssocMap.erase (leaves (.inner n)) key := by
  obtain ⟨before, after, hedges, hedges'⟩ := h.edges_eq
  obtain ⟨hbefore, hafter⟩ := ne_of_other_edges below hkey ok hedges
  have hgone : AssocMap.erase (leaves (.leaf key value)) key = [] := by simp [leaves, AssocMap.erase]
  rw [leaves_split hedges, AssocMap.erase_append, AssocMap.erase_append, AssocMap.erase_eq_self hbefore,
    AssocMap.erase_eq_self hafter, hgone, leaves_inner, hedges', List.flatMap_append, List.nil_append]

/-- The deletion takes the entry of the key away and reports its value. A tree of one leaf is gone
then. -/
theorem Wf.delete_of_mem {path : List UInt8} {x : ArtNode V} (h : Wf asc path x) {key : CString} {value : V}
    (hmem : (key, value) ∈ leaves x) (behind : Behind) :
    (recursiveDelete behind key x path.length).2 = some value ∧
      leaves (recursiveDelete behind key x path.length).1 = AssocMap.erase (leaves x) key ∧
      (Wf asc path (recursiveDelete behind key x path.length).1 ∨
        x = .leaf key value ∧ (recursiveDelete behind key x path.length).1 = .null) := by
  induction h with
  | @leaf path l old starts =>
    obtain ⟨rfl, rfl⟩ := Prod.mk.inj (List.mem_singleton.mp hmem)
    rw [recursiveDelete, if_pos rfl]
    exact ⟨rfl, by simp [leaves, AssocMap.erase], .inr ⟨rfl, rfl⟩⟩
  | @inner path n common ok least order nul len bytes below ih =>
    have hmem' := hmem
    rw [leaves_inner] at hmem'
    obtain ⟨e, he, hmem'⟩ := List.mem_flatMap.mp hmem'
    have hkey := (below e he).starts _ hmem'
    have hpath := (List.prefix_append (path ++ common) [e.1]).trans hkey
    have ih := ih e he hmem'
    obtain ⟨⟨c, i⟩, hslot, rfl⟩ := List.mem_map.mp he
    have hc : charAt behind key (path ++ common).length = c := charAt_snoc hkey
    rw [List.length_append, List.length_append, List.length_singleton, len] at ih
    rw [List.length_append, len] at hc
    rw [recursiveDelete_inner, if_neg (fun hne => hne.2 (checkPrefix_eq nul len bytes hpath)), hc,
      ok.findChild_of_mem hslot]
    cases hleaf : (n.children i).leaf? with
    | some l =>
      -- the leaf is a child of this node
      have hl := ArtNode.eq_leaf hleaf
      have heq : (key, value) = l := by simpa [hl, leaves] using hmem'
      subst heq
      simp only [hleaf, if_true]
      rcases removeChild_cases ok least hslot with ⟨m, hm, hremoved, hleast⟩ | ⟨m, hm, hremoved, hone⟩
      · rw [hl] at hremoved
        refine ⟨trivial, ?_, .inl ?_⟩
        · rw [hm]
          exact leaves_of_removed ok below hkey hremoved
        · rw [hm]
          refine .inner common hremoved.ok hleast (fun hasc => hremoved.ascending (order hasc)) nul (len.trans hremoved.path.len.symm) ?_ ?_
          · intro i hi
            rw [hremoved.path.len] at hi
            rw [hremoved.path.bytes i hi, bytes i hi]
          · intro e he
            exact below e (hremoved.subset he)
      · rw [hl] at hremoved
        obtain ⟨hwf, hleaves⟩ := onlyChild_spec (len.trans hremoved.path.len.symm) (by
          intro i hi
          rw [hremoved.path.len] at hi
          rw [hremoved.path.bytes i hi, bytes i hi]) (below (m.keys 0, m.children 0) (hremoved.subset (by simp [hone])))
        refine ⟨trivial, ?_, .inl (hm ▸ hwf)⟩
        rw [hm, hleaves, ← leaves_of_removed ok below hkey hremoved, leaves_inner, hone]
        simp
    | none =>
      obtain ⟨hval, hleaves, hwf⟩ := ih
      have hwf : Wf asc (path ++ common ++ [c]) (recursiveDelete behind key (n.children i) (path.length + n.partialLen + 1)).1 := by
        rcases hwf with hwf | ⟨heq, -⟩
        · exact hwf
        · rw [show n.children i = .leaf key value from heq] at hleaf
          cases hleaf
      simp only [hleaf]
      obtain ⟨before, after, hedges, hedges'⟩ := ok.edges_setChild hslot hwf.ne_null
      obtain ⟨hbefore, hafter⟩ := ne_of_other_edges below hkey ok hedges
      refine ⟨hval, ?_, .inl (wf_setChild ok least order nul len bytes below hslot hwf)⟩
      rw [leaves_split hedges', leaves_split hedges, AssocMap.erase_append, AssocMap.erase_append,
        AssocMap.erase_eq_self hbefore, AssocMap.erase_eq_self hafter, hleaves]

end Miqs.Radix
