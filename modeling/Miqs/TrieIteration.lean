import Miqs.Trie

/-! What the iterators of the trie pass to their callback: the values of the keys below a
node, and those of a prefix again. -/
namespace Miqs.Trie
variable {V : Type}

def CharSeq.Holds (visited : CharSeq) (path : List UInt8) : Prop :=
  ∀ i c, path[i]? = some c → visited.seq i = c

theorem CharSeq.Holds.of_append {visited : CharSeq} {path more : List UInt8}
    (h : visited.Holds (path ++ more)) : visited.Holds path := by
  intro i c hi
  apply h
  rw [List.getElem?_append_left (List.getElem?_eq_some_iff.mp hi).1, hi]

theorem CharSeq.Holds.update {visited : CharSeq} {path : List UInt8} (h : visited.Holds path)
    (c : UInt8) :
    ({ visited with seq := Function.update visited.seq path.length c } : CharSeq).Holds (path ++ [c]) := by
  intro i c' hi
  simp only [Function.update_apply]
  rcases Nat.lt_trichotomy i path.length with hlt | heq | hgt
  · rw [if_neg hlt.ne]
    rw [List.getElem?_append_left hlt] at hi
    exact h i c' hi
  · rw [if_pos heq]
    subst heq
    simpa using hi
  · rw [List.getElem?_eq_none (by simp; omega)] at hi
    exact absurd hi (by simp)

theorem CharSeq.Holds.enter {visited : CharSeq} {path : List UInt8} (h : visited.Holds path) {c : UInt8}
    (hc : 0 < c) : (visited.enter path.length c).Holds (path ++ [c]) := by
  have hseq : (visited.enter path.length c).seq = Function.update visited.seq path.length c :=
    if_pos hc
  intro i c' hi
  rw [hseq]
  exact h.update c i c' hi

/-- What is on the way to the children stays in the buffer. -/
theorem iterateChildren_holds {t : Children V} (ht : t.Ok) {path : List UInt8} {visited : CharSeq}
    (h : visited.Holds path) : (iterateChildren t path.length visited).2.Holds path := by
  induction t generalizing path visited with
  | nil => exact h
  | cons pidx value child next ihc ihn =>
    obtain ⟨hpos, -, -, hok, hnext⟩ := ht
    have hlen : path.length + 1 = (path ++ [pidx]).length := by simp
    have hbuf := ihc hok (h.enter hpos)
    rw [← hlen] at hbuf
    exact ihn hnext hbuf.of_append

theorem iterateChildren_values (t : Children V) (pos : Nat) (visited : CharSeq) :
    (iterateChildren t pos visited).1.map Prod.snd = t.entries.map Prod.snd := by
  induction t generalizing pos visited with
  | nil => rfl
  | cons pidx value child next ihc ihn =>
    simp only [iterateChildren, Children.entries, List.map_append, ihc, ihn, CharSeq.calls, List.map_map]
    rfl

theorem trieIterAll_values (junk : Nat → UInt8) (root : TrieNode V) :
    (trieIterAll junk root).map Prod.snd = root.entries.map Prod.snd := by
  simp only [trieIterAll, TrieNode.entries, List.map_append, iterateChildren_values, CharSeq.calls,
    List.map_map]
  rfl

theorem trieFindInternal_append (node : TrieNode V) (key rest : List UInt8) :
    trieFindInternal node (key ++ rest) =
      (trieFindInternal node key).bind fun n => trieFindInternal n rest := by
  induction key generalizing node with
  | nil => rfl
  | cons c key ih =>
    simp only [List.cons_append, trieFindInternal, ih, Option.bind_assoc]

def WalkSafe (node : TrieNode V) (pre : List UInt8) (room : Nat) : Prop :=
  ∀ q c rest, pre = q ++ c :: rest → (trieFindInternal node q).isSome →
    c < 128 ∧ ((trieFindInternal node (q ++ [c])).isSome → q.length < room)

theorem walkSafe_nil (node : TrieNode V) (room : Nat) : WalkSafe node [] room := by
  intro q c rest h
  simp at h

theorem walkSafe_cons {node : TrieNode V} {c : UInt8} {pre : List UInt8} {room : Nat} :
    WalkSafe node (c :: pre) room ↔
      c < 128 ∧ ∀ n, node.child.get c = some n → 0 < room ∧ WalkSafe n pre (room - 1) := by
  have hdown : ∀ n, node.child.get c = some n → ∀ q,
      trieFindInternal node (c :: q) = trieFindInternal n q := by
    intro n hn q
    rw [trieFindInternal, hn, Option.bind_some]
  constructor
  · intro h
    have hfirst := h [] c pre rfl rfl
    refine ⟨hfirst.1, ?_⟩
    intro n hn
    have hroom : 0 < room := hfirst.2 (by rw [List.nil_append, hdown n hn]; rfl)
    refine ⟨hroom, ?_⟩
    intro q c' rest hpre hq
    have hsafe := h (c :: q) c' rest (by rw [hpre, List.cons_append]) (by rwa [hdown n hn])
    refine ⟨hsafe.1, ?_⟩
    intro hnext
    have hlt := hsafe.2 (by rwa [List.cons_append, hdown n hn])
    rw [List.length_cons] at hlt
    omega
  · rintro ⟨hc, hrest⟩ q c' rest hpre hq
    cases q with
    | nil =>
      obtain ⟨rfl, rfl⟩ : c = c' ∧ pre = rest := by simpa using hpre
      refine ⟨hc, ?_⟩
      intro hnext
      cases hget : node.child.get c with
      | none => simp [trieFindInternal, hget] at hnext
      | some n => exact (hrest n hget).1
    | cons c₀ q =>
      obtain ⟨rfl, htail⟩ : c = c₀ ∧ pre = q ++ c' :: rest := by simpa using hpre
      cases hget : node.child.get c with
      | none => simp [trieFindInternal, hget] at hq
      | some n =>
        obtain ⟨hroom, hsafe⟩ := hrest n hget
        have hstep := hsafe q c' rest htail (by rwa [hdown n hget] at hq)
        refine ⟨hstep.1, ?_⟩
        intro hnext
        rw [List.cons_append, hdown n hget] at hnext
        have hlt := hstep.2 hnext
        rw [List.length_cons]
        omega

theorem descend_isSome (pidx : UInt8) (node : TrieNode V) (pre : List UInt8) (pos : Nat)
    (visited : CharSeq) :
    (descend pidx node pre pos visited).isSome ↔ WalkSafe node pre (visited.seqLen - pos) := by
  induction pre generalizing pidx node pos visited with
  | nil => exact iff_of_true rfl (walkSafe_nil _ _)
  | cons c pre ih =>
    rw [descend, walkSafe_cons]
    by_cases hc : c ≥ 128
    · rw [if_pos hc]
      exact iff_of_false (by simp) fun h => UInt8.not_le.mpr h.1 hc
    · rw [if_neg hc, and_iff_right (UInt8.not_le.mp hc)]
      cases node.child.get c with
      | none => simp
      | some n =>
        by_cases hpos : pos < visited.seqLen
        · have hroom : visited.seqLen - (pos + 1) = visited.seqLen - pos - 1 := by omega
          have hsub : 0 < visited.seqLen - pos := by omega
          have hrec := ih c n (pos + 1) { visited with seq := Function.update visited.seq pos c }
          dsimp only at hrec ⊢
          rw [if_pos hpos, hrec, hroom]
          simp [hsub]
        · have hsub : ¬ 0 < visited.seqLen - pos := by omega
          simp [hpos, hsub]

theorem descend_node {pidx : UInt8} {node : TrieNode V} {pre : List UInt8} {pos : Nat}
    {visited : CharSeq} {found : Option (UInt8 × TrieNode V × CharSeq)}
    (h : descend pidx node pre pos visited = some found) :
    found.map (fun x => x.2.1) = trieFindInternal node pre := by
  induction pre generalizing pidx node pos visited with
  | nil =>
    obtain rfl := Option.some.inj h
    rfl
  | cons c pre ih =>
    rw [descend] at h
    by_cases hc : c ≥ 128
    · rw [if_pos hc] at h
      exact absurd h (by simp)
    · rw [if_neg hc] at h
      rw [trieFindInternal]
      cases hget : node.child.get c with
      | none =>
        rw [hget] at h
        obtain rfl := Option.some.inj h
        rfl
      | some n =>
        rw [hget] at h
        dsimp only at h
        by_cases hpos : pos < visited.seqLen
        · rw [if_pos hpos] at h
          exact ih h
        · rw [if_neg hpos] at h
          exact absurd h (by simp)

/-- The values passed below a prefix: that of the prefix itself first, and once more in
its turn. -/
theorem trieIterPrefix_values {root : TrieNode V} {pre : List UInt8} (junk : Nat → UInt8)
    (h : WalkSafe root pre 4096) :
    (trieIterPrefix junk root pre).map (List.map Prod.snd) =
      some (((trieFindInternal root pre).map fun node =>
        node.value.toList ++ node.entries.map Prod.snd).getD []) := by
  obtain ⟨found, hfound⟩ := Option.isSome_iff_exists.mp
    ((descend_isSome 0 root pre 0 (CharSeq.calloc junk)).mpr h)
  rw [trieIterPrefix, hfound, ← descend_node hfound]
  cases found with
  | none => rfl
  | some x =>
    obtain ⟨pidx, node, visited⟩ := x
    simp only [Option.map_some, Option.getD_some, List.map_append, trieNodeIterate,
      iterateChildren_values, TrieNode.entries, CharSeq.calls, List.map_map]
    simp [Function.comp_def]

theorem trieIterPrefix_eq_none {root : TrieNode V} {pre : List UInt8} (junk : Nat → UInt8)
    (h : ¬ WalkSafe root pre 4096) : trieIterPrefix junk root pre = none := by
  have hnone : ¬ (descend 0 root pre 0 (CharSeq.calloc junk)).isSome := by
    rwa [descend_isSome]
  rw [trieIterPrefix, Option.not_isSome_iff_eq_none.mp hnone]
  rfl

theorem trieFind_append {root node : TrieNode V} {pre : List UInt8}
    (h : trieFindInternal root pre = some node) (rest : List UInt8) :
    trieFind root (pre ++ rest) = trieFind node rest := by
  rw [trieFind, trieFindInternal_append, h, Option.bind_some, trieFind]

theorem Children.Ok.findInternal {root node : TrieNode V} (h : root.child.Ok) {pre : List UInt8}
    (hfind : trieFindInternal root pre = some node) :
    node.child.Ok ∧ (pre ≠ [] → node.entries ≠ []) := by
  induction pre generalizing root with
  | nil =>
    obtain rfl := Option.some.inj hfind
    exact ⟨h, fun hne => absurd rfl hne⟩
  | cons c pre ih =>
    rw [trieFindInternal] at hfind
    obtain ⟨n, hget, hfind⟩ := Option.bind_eq_some_iff.mp hfind
    obtain ⟨hok, hne⟩ := h.get hget
    obtain ⟨hok', hne'⟩ := ih hok hfind
    refine ⟨hok', fun _ => ?_⟩
    cases pre with
    | nil =>
      obtain rfl := Option.some.inj hfind
      exact hne
    | cons c' pre => exact hne' (List.cons_ne_nil c' pre)

theorem findInternal_of_mem {root : TrieNode V} (h : root.child.Ok) {e : List UInt8 × V}
    (he : e ∈ root.entries) {pre : List UInt8} (hpre : pre <+: e.1) :
    (trieFindInternal root pre).isSome := by
  obtain ⟨rest, hrest⟩ := hpre
  have hfind := (mem_entries_iff h).mp he
  rw [← hrest, trieFind, trieFindInternal_append] at hfind
  cases hnode : trieFindInternal root pre with
  | none =>
    rw [hnode] at hfind
    exact absurd hfind (by simp)
  | some node => rfl

/-- There is a node exactly for the initial parts of the keys. -/
theorem findInternal_isSome_iff {root : TrieNode V} (h : root.child.Ok) {pre : List UInt8} :
    (trieFindInternal root pre).isSome ↔ pre = [] ∨ ∃ e ∈ root.entries, pre <+: e.1 := by
  constructor
  · intro hsome
    by_cases hnil : pre = []
    · exact Or.inl hnil
    · obtain ⟨node, hnode⟩ := Option.isSome_iff_exists.mp hsome
      obtain ⟨hok, hne⟩ := h.findInternal hnode
      obtain ⟨⟨rest, v⟩, hmem⟩ := List.exists_mem_of_ne_nil _ (hne hnil)
      refine Or.inr ⟨(pre ++ rest, v), ?_, List.prefix_append pre rest⟩
      rw [mem_entries_iff h, trieFind_append hnode]
      exact (mem_entries_iff hok).mp hmem
  · rintro (rfl | ⟨e, he, hpre⟩)
    · rfl
    · exact findInternal_of_mem h he hpre

theorem entries_below {root node : TrieNode V} (h : root.child.Ok) {pre : List UInt8}
    (hnode : trieFindInternal root pre = some node) :
    (node.entries.map fun e => (pre ++ e.1, e.2)).Perm (root.entries.filter fun e => pre <+: e.1) := by
  have hok := (h.findInternal hnode).1
  have hinj : Function.Injective fun e : List UInt8 × V => (pre ++ e.1, e.2) := by
    rintro ⟨a, v⟩ ⟨b, w⟩ heq
    simpa using heq
  refine (List.perm_ext_iff_of_nodup ?_ ?_).mpr ?_
  · exact ((nodup_entries hok).of_map _).map hinj
  · exact ((nodup_entries h).of_map _).filter _
  · rintro ⟨key, v⟩
    simp only [List.mem_map, List.mem_filter, decide_eq_true_eq, mem_entries_iff h]
    constructor
    · rintro ⟨⟨rest, w⟩, hmem, heq⟩
      obtain ⟨rfl, rfl⟩ := Prod.mk.injEq .. ▸ heq
      refine ⟨?_, List.prefix_append pre rest⟩
      rw [trieFind_append hnode]
      exact (mem_entries_iff hok).mp hmem
    · rintro ⟨hfind, rest, rfl⟩
      rw [trieFind_append hnode] at hfind
      exact ⟨(rest, v), (mem_entries_iff hok).mpr hfind, rfl⟩

/-- The values passed below a prefix are those of the keys that start with it, and that of
the prefix itself once more. -/
theorem trieIterPrefix_perm {root : TrieNode V} (h : root.child.Ok) {pre : List UInt8}
    (junk : Nat → UInt8) (hsafe : WalkSafe root pre 4096) :
    ∃ calls, trieIterPrefix junk root pre = some calls ∧ (calls.map Prod.snd).Perm
      ((trieFind root pre).toList ++ (root.entries.filter fun e => pre <+: e.1).map Prod.snd) := by
  have hvalues := trieIterPrefix_values junk hsafe
  obtain ⟨calls, hcalls, hmap⟩ := Option.map_eq_some_iff.mp hvalues
  refine ⟨calls, hcalls, ?_⟩
  rw [hmap]
  cases hnode : trieFindInternal root pre with
  | none =>
    have hempty : (root.entries.filter fun e => pre <+: e.1) = [] := by
      rw [List.filter_eq_nil_iff]
      intro e he hpre
      have hsome := findInternal_of_mem h he (of_decide_eq_true hpre)
      rw [hnode] at hsome
      exact absurd hsome (by simp)
    simp [trieFind, hnode, hempty]
  | some node =>
    have hperm : (node.entries.map Prod.snd).Perm
        ((root.entries.filter fun e => pre <+: e.1).map Prod.snd) := by
      have hbelow := (entries_below h hnode).map Prod.snd
      rw [List.map_map] at hbelow
      exact hbelow
    simpa [trieFind, hnode] using hperm.append_left node.value.toList

end Miqs.Trie
