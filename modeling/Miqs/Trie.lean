import Mathlib.Data.List.Basic
import Mathlib.Data.List.Forall2
import Mathlib.Data.List.Nodup
import Mathlib.Data.UInt
import Mathlib.Logic.Function.Basic

/-! The trie: a node for every initial part of a key, and the iterators that pass the
characters on the way to a node in one buffer. Keys are made of 7-bit characters, each of
which is an index of `child`. -/
namespace Miqs.Trie
variable {V : Type}

/-- The non-NULL entries of `child`, by ascending index: the index, which is the node's
`pidx`, its value and its children. -/
inductive Children (V : Type) where
  | nil
  | cons (pidx : UInt8) (value : Option V) (child : Children V) (next : Children V)

structure TrieNode (V : Type) where
  value : Option V
  child : Children V

def Children.get : Children V → UInt8 → Option (TrieNode V)
  | .nil, _ => none
  | .cons pidx value child next, c => if pidx = c then some ⟨value, child⟩ else next.get c

def Children.set : Children V → UInt8 → TrieNode V → Children V
  | .nil, c, node => .cons c node.value node.child .nil
  | .cons pidx value child next, c, node =>
    if pidx = c then .cons c node.value node.child next
    else if c < pidx then .cons c node.value node.child (.cons pidx value child next)
    else .cons pidx value child (next.set c node)

def trieCreate : TrieNode V := ⟨none, .nil⟩

def trieFindInternal : TrieNode V → List UInt8 → Option (TrieNode V)
  | node, [] => some node
  | node, c :: key => (node.child.get c).bind fun node => trieFindInternal node key

def trieFind (root : TrieNode V) (key : List UInt8) : Option V :=
  (trieFindInternal root key).bind TrieNode.value

def trieInsert : TrieNode V → List UInt8 → V → TrieNode V
  | node, [], value => { node with value := some value }
  | node, c :: key, value =>
    { node with child := node.child.set c (trieInsert ((node.child.get c).getD trieCreate) key value) }

structure CharSeq where
  seq : Nat → UInt8
  seqLen : Nat

def CharSeq.calloc (junk : Nat → UInt8) : CharSeq := ⟨fun i => if i < 4096 then 0 else junk i, 4096⟩

def CharSeq.enter (visited : CharSeq) (pos : Nat) (pidx : UInt8) : CharSeq where
  seq := if pidx > 0 then Function.update visited.seq pos pidx else visited.seq
  seqLen := if visited.seqLen ≤ pos then visited.seqLen * 2 else visited.seqLen

def CharSeq.calls (visited : CharSeq) (value : Option V) : List (CharSeq × V) :=
  value.toList.map fun v => (visited, v)

def iterateChildren : Children V → Nat → CharSeq → List (CharSeq × V) × CharSeq
  | .nil, _, visited => ([], visited)
  | .cons pidx value child next, pos, visited =>
    let entered := visited.enter pos pidx
    let below := iterateChildren child (pos + 1) entered
    let after := iterateChildren next pos below.2
    (entered.calls value ++ below.1 ++ after.1, after.2)

def trieNodeIterate (pidx : UInt8) (node : TrieNode V) (pos : Nat) (visited : CharSeq) :
    List (CharSeq × V) :=
  let entered := visited.enter pos pidx
  entered.calls node.value ++ (iterateChildren node.child (pos + 1) entered).1

def trieIterAll (junk : Nat → UInt8) (root : TrieNode V) : List (CharSeq × V) :=
  let visited := { CharSeq.calloc junk with seqLen := 4096 * 2 }
  visited.calls root.value ++ (iterateChildren root.child 0 visited).1

/-- The way down to the node of a string; an inner `none` if there is no such node. It is
`none` where a character is a negative index or is written behind the buffer. -/
def descend : UInt8 → TrieNode V → List UInt8 → Nat → CharSeq →
    Option (Option (UInt8 × TrieNode V × CharSeq))
  | pidx, node, [], _, visited => some (some (pidx, node, visited))
  | _, node, c :: pre, pos, visited =>
    if c ≥ 128 then none
    else
      match node.child.get c with
      | none => some none
      | some node =>
        if pos < visited.seqLen then
          descend c node pre (pos + 1) { visited with seq := Function.update visited.seq pos c }
        else none

def trieIterPrefix (junk : Nat → UInt8) (root : TrieNode V) (pre : List UInt8) :
    Option (List (CharSeq × V)) :=
  (descend 0 root pre 0 (CharSeq.calloc junk)).map fun found =>
    match found with
    | none => []
    | some (pidx, node, visited) =>
      visited.calls node.value ++ trieNodeIterate pidx node pre.length visited

theorem Children.get_set (t : Children V) (c c' : UInt8) (node : TrieNode V) :
    (t.set c node).get c' = if c = c' then some node else t.get c' := by
  induction t with
  | nil => by_cases h : c = c' <;> simp [set, get, h]
  | cons pidx value child next _ ih =>
    rw [set]
    split_ifs with h₁ h₂ h₃ h₃ h₃
    all_goals simp_all [get]

theorem trieFind_create (key : List UInt8) : trieFind (trieCreate : TrieNode V) key = none := by
  cases key <;> rfl

theorem trieFind_cons (node : TrieNode V) (c : UInt8) (key : List UInt8) :
    trieFind node (c :: key) = trieFind ((node.child.get c).getD trieCreate) key := by
  rw [trieFind, trieFindInternal]
  cases node.child.get c with
  | none => exact (trieFind_create key).symm
  | some n => rfl

theorem trieFind_insert (node : TrieNode V) (key key' : List UInt8) (value : V) :
    trieFind (trieInsert node key value) key' = if key = key' then some value else trieFind node key' := by
  induction key generalizing node key' with
  | nil => cases key' <;> rfl
  | cons c key ih =>
    cases key' with
    | nil => rfl
    | cons c' key' =>
      rw [trieFind_cons, trieInsert, Children.get_set, trieFind_cons node]
      by_cases hc : c = c'
      · subst hc
        rw [if_pos rfl, Option.getD_some, ih]
        simp
      · simp [hc]

def Children.entries : Children V → List (List UInt8 × V)
  | .nil => []
  | .cons pidx value child next =>
    ((value.toList.map fun v => ([], v)) ++ child.entries).map
      (fun e : List UInt8 × V => (pidx :: e.1, e.2)) ++ next.entries

def TrieNode.entries (node : TrieNode V) : List (List UInt8 × V) :=
  (node.value.toList.map fun v => ([], v)) ++ node.child.entries

theorem Children.entries_cons (pidx : UInt8) (value : Option V) (child next : Children V) :
    (Children.cons pidx value child next).entries =
      (TrieNode.mk value child).entries.map (fun e => (pidx :: e.1, e.2)) ++ next.entries := rfl

def Children.Above (c : UInt8) : Children V → Prop
  | .nil => True
  | .cons pidx _ _ next => c < pidx ∧ next.Above c

def Children.Ok : Children V → Prop
  | .nil => True
  | .cons pidx value child next =>
    0 < pidx ∧ (value.isSome ∨ child.entries ≠ []) ∧ next.Above pidx ∧ child.Ok ∧ next.Ok

theorem Children.Above.trans {t : Children V} {c c' : UInt8} (h : t.Above c) (hc : c' < c) : t.Above c' := by
  induction t with
  | nil => trivial
  | cons pidx value child next _ ih => exact ⟨UInt8.lt_trans hc h.1, ih h.2⟩

theorem Children.Above.get {t : Children V} {c c' : UInt8} (h : t.Above c) (hc : c' ≤ c) :
    t.get c' = none := by
  induction t with
  | nil => rfl
  | cons pidx value child next _ ih =>
    have hne : pidx ≠ c' := (UInt8.ne_of_lt (UInt8.lt_of_le_of_lt hc h.1)).symm
    rw [Children.get, if_neg hne]
    exact ih h.2

theorem Children.above_set {t : Children V} {c c' : UInt8} (node : TrieNode V) (h : t.Above c')
    (hc : c' < c) : (t.set c node).Above c' := by
  induction t with
  | nil => exact ⟨hc, trivial⟩
  | cons pidx value child next _ ih =>
    rw [Children.set]
    split_ifs
    · exact ⟨hc, h.2⟩
    · exact ⟨hc, h⟩
    · exact ⟨h.1, ih h.2⟩

theorem Children.ok_set {t : Children V} {c : UInt8} {node : TrieNode V} (h : t.Ok) (hc : 0 < c)
    (hnode : node.entries ≠ []) (hchild : node.child.Ok) : (t.set c node).Ok := by
  have hlive : node.value.isSome ∨ node.child.entries ≠ [] := by
    rw [TrieNode.entries] at hnode
    cases hv : node.value with
    | none => exact Or.inr (by simpa [hv] using hnode)
    | some v => exact Or.inl rfl
  induction t with
  | nil => exact ⟨hc, hlive, trivial, hchild, trivial⟩
  | cons pidx value child next _ ih =>
    obtain ⟨hpos, hval, habove, hok, hnext⟩ := h
    rw [Children.set]
    split_ifs with h₁ h₂
    · exact ⟨hc, hlive, h₁ ▸ habove, hchild, hnext⟩
    · exact ⟨hc, hlive, ⟨h₂, habove.trans h₂⟩, hchild, hpos, hval, habove, hok, hnext⟩
    · have hlt : pidx < c := UInt8.lt_of_le_of_ne (UInt8.not_lt.mp h₂) h₁
      exact ⟨hpos, hval, above_set node habove hlt, hok, ih hnext⟩

theorem entries_ne_nil {value : Option V} {child : Children V} (h : value.isSome ∨ child.entries ≠ []) :
    (TrieNode.mk value child).entries ≠ [] := by
  rcases h with hv | hc
  · obtain ⟨v, rfl⟩ := Option.isSome_iff_exists.mp hv
    simp [TrieNode.entries]
  · simp [TrieNode.entries, hc]

theorem Children.Ok.get {t : Children V} (h : t.Ok) {c : UInt8} {node : TrieNode V}
    (hget : t.get c = some node) : node.child.Ok ∧ node.entries ≠ [] := by
  induction t with
  | nil => simp [Children.get] at hget
  | cons pidx value child next _ ih =>
    obtain ⟨-, hval, -, hok, hnext⟩ := h
    rw [Children.get] at hget
    split_ifs at hget with hc
    · obtain rfl := Option.some.inj hget
      exact ⟨hok, entries_ne_nil hval⟩
    · exact ih hnext hget

theorem entries_set_ne_nil (t : Children V) (c : UInt8) {node : TrieNode V} (h : node.entries ≠ []) :
    (t.set c node).entries ≠ [] := by
  have hcons : ∀ next : Children V, (Children.cons c node.value node.child next).entries ≠ [] := by
    intro next hnil
    rw [Children.entries_cons, List.append_eq_nil_iff, List.map_eq_nil_iff] at hnil
    exact h hnil.1
  induction t with
  | nil => exact hcons .nil
  | cons pidx value child next _ ih =>
    rw [Children.set]
    split_ifs
    · exact hcons _
    · exact hcons _
    · intro hnil
      simp only [Children.entries, List.append_eq_nil_iff] at hnil
      exact ih hnil.2

theorem entries_insert_ne_nil (node : TrieNode V) (key : List UInt8) (value : V) :
    (trieInsert node key value).entries ≠ [] := by
  induction key generalizing node with
  | nil => simp [trieInsert, TrieNode.entries]
  | cons c key ih => simp [trieInsert, TrieNode.entries, entries_set_ne_nil _ _ (ih _)]

theorem ok_insert {node : TrieNode V} (h : node.child.Ok) {key : List UInt8} (hkey : 0 ∉ key) (value : V) :
    (trieInsert node key value).child.Ok := by
  induction key generalizing node with
  | nil => exact h
  | cons c key ih =>
    rw [List.mem_cons, not_or] at hkey
    have hsub : ((node.child.get c).getD trieCreate).child.Ok := by
      cases hget : node.child.get c with
      | none => trivial
      | some n => exact (h.get hget).1
    have hc : 0 < c := UInt8.pos_iff_ne_zero.mpr (Ne.symm hkey.1)
    exact Children.ok_set h hc (entries_insert_ne_nil _ _ _) (ih hsub hkey.2)

theorem nil_notMem_entries (t : Children V) (v : V) : ([], v) ∉ t.entries := by
  induction t with
  | nil => simp [Children.entries]
  | cons pidx value child next _ ih => simp [Children.entries, ih]

/-- A key below a list of children goes through the child of its first character. -/
theorem mem_entries_cons {t : Children V} (h : t.Ok) {c : UInt8} {key : List UInt8} {v : V} :
    (c :: key, v) ∈ t.entries ↔ ∃ node, t.get c = some node ∧ (key, v) ∈ node.entries := by
  induction t with
  | nil => simp [Children.entries, Children.get]
  | cons pidx value child next _ ih =>
    obtain ⟨-, -, habove, -, hnext⟩ := h
    have hentries : (c :: key, v) ∈ (Children.cons pidx value child next).entries ↔
        (pidx = c ∧ (key, v) ∈ (TrieNode.mk value child).entries) ∨ (c :: key, v) ∈ next.entries := by
      rw [Children.entries_cons, List.mem_append, List.mem_map]
      refine or_congr ?_ Iff.rfl
      constructor
      · rintro ⟨e, he, heq⟩
        simp only [Prod.mk.injEq, List.cons.injEq] at heq
        obtain ⟨⟨rfl, rfl⟩, rfl⟩ := heq
        exact ⟨rfl, he⟩
      · rintro ⟨rfl, he⟩
        exact ⟨_, he, rfl⟩
    rw [hentries, ih hnext, Children.get]
    by_cases hc : pidx = c
    · subst hc
      have hnone := habove.get (UInt8.le_refl pidx)
      simp [hnone]
    · simp [hc]

theorem mem_entries_iff {node : TrieNode V} (h : node.child.Ok) {key : List UInt8} {v : V} :
    (key, v) ∈ node.entries ↔ trieFind node key = some v := by
  induction key generalizing node with
  | nil => simp [TrieNode.entries, nil_notMem_entries, trieFind, trieFindInternal]
  | cons c key ih =>
    have hmem : (c :: key, v) ∈ node.entries ↔ (c :: key, v) ∈ node.child.entries := by
      simp [TrieNode.entries]
    rw [hmem, mem_entries_cons h, trieFind_cons]
    cases hget : node.child.get c with
    | none => simp [trieFind_create]
    | some n =>
      simp only [Option.some.injEq, exists_eq_left', Option.getD_some]
      exact ih (h.get hget).1

theorem Children.Above.entries {t : Children V} {c : UInt8} (h : t.Above c) {e : List UInt8 × V}
    (he : e ∈ t.entries) : ∃ c' rest, e.1 = c' :: rest ∧ c < c' := by
  induction t with
  | nil => simp [Children.entries] at he
  | cons pidx value child next _ ih =>
    rw [Children.entries_cons, List.mem_append, List.mem_map] at he
    rcases he with ⟨e', -, rfl⟩ | he
    · exact ⟨pidx, e'.1, rfl, h.1⟩
    · exact ih h.2 he

theorem node_ascending {value : Option V} {child : Children V}
    (h : (child.entries.map Prod.fst).Pairwise (· < ·)) :
    ((TrieNode.mk value child).entries.map Prod.fst).Pairwise (· < ·) := by
  cases value with
  | none => exact h
  | some v =>
    refine List.pairwise_cons.mpr ⟨?_, h⟩
    intro key hkey
    cases key with
    | nil =>
      obtain ⟨⟨key, v'⟩, he, rfl⟩ := List.mem_map.mp hkey
      exact absurd he (nil_notMem_entries child v')
    | cons c key => exact List.nil_lt_cons c key

theorem children_ascending {t : Children V} (h : t.Ok) : (t.entries.map Prod.fst).Pairwise (· < ·) := by
  induction t with
  | nil => exact List.Pairwise.nil
  | cons pidx value child next ihc ihn =>
    obtain ⟨-, -, habove, hok, hnext⟩ := h
    have hnode := @node_ascending V value child (ihc hok)
    rw [List.pairwise_map] at hnode
    rw [Children.entries_cons, List.map_append, List.map_map, List.pairwise_append, List.pairwise_map]
    refine ⟨?_, ihn hnext, ?_⟩
    · exact hnode.imp fun hlt => List.cons_lt_cons_iff.mpr (Or.inr ⟨rfl, hlt⟩)
    · intro key hkey key' hkey'
      obtain ⟨e, -, rfl⟩ := List.mem_map.mp hkey
      obtain ⟨e', he', rfl⟩ := List.mem_map.mp hkey'
      obtain ⟨c, rest, heq, hlt⟩ := habove.entries he'
      rw [heq]
      exact List.cons_lt_cons_iff.mpr (Or.inl hlt)

/-- The keys are in ascending order. -/
theorem entries_ascending {node : TrieNode V} (h : node.child.Ok) :
    (node.entries.map Prod.fst).Pairwise (· < ·) :=
  node_ascending (children_ascending h)

theorem nodup_entries {node : TrieNode V} (h : node.child.Ok) : (node.entries.map Prod.fst).Nodup := by
  refine (entries_ascending h).imp ?_
  rintro key key' hlt rfl
  exact List.lt_irrefl key hlt

end Miqs.Trie
