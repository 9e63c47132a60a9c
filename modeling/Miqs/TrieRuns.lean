import Mathlib.Data.Set.Card
import Miqs.Runs
import Miqs.Trie

/-! Removal from the trie. What is below the node of the key goes with it, and so do the nodes above it
that nothing else needs. -/
namespace Miqs.Trie
variable {V : Type}

def Children.unset : Children V → UInt8 → Children V
  | .nil, _ => .nil
  | .cons pidx value child next, c => if pidx = c then next else .cons pidx value child (next.unset c)

def Children.put (t : Children V) (c : UInt8) : Option (TrieNode V) → Children V
  | some node => t.set c node
  | none => t.unset c

def Children.numChildren : Children V → Nat
  | .nil => 0
  | .cons _ _ _ next => next.numChildren + 1

def Children.numNodes : Children V → Nat
  | .nil => 0
  | .cons _ _ child next => 1 + child.numNodes + next.numNodes

structure CountedTrie (V : Type) where
  root : TrieNode V
  nodeCount : Int

structure Reply (V : Type) where
  ret : Int
  value : Option V
  deriving DecidableEq

def newNodes : TrieNode V → List UInt8 → Nat
  | _, [] => 0
  | node, c :: key =>
    match node.child.get c with
    | some child => newNodes child key
    | none => key.length + 1

namespace CountedTrie

def create : CountedTrie V := ⟨trieCreate, 0⟩

def insert (t : CountedTrie V) (key : List UInt8) (value : V) : CountedTrie V × Reply V :=
  (⟨trieInsert t.root key value, t.nodeCount + newNodes t.root key⟩, ⟨newNodes t.root key, none⟩)

end CountedTrie

def trieFindOrInsert (t : CountedTrie V) (key : List UInt8) (value : V) : CountedTrie V × Reply V :=
  match trieFindInternal t.root key with
  | none => t.insert key value
  | some node => (t, ⟨0, node.value⟩)

def trieFindAndInsert (t : CountedTrie V) (key : List UInt8) (value : V) : CountedTrie V × Reply V :=
  match trieFindInternal t.root key with
  | some node => (⟨trieInsert t.root key value, t.nodeCount⟩, ⟨0, node.value⟩)
  | none => t.insert key value

/-- The node that the key leads to is destroyed: what is left of the node it is seen from, and how many
nodes are freed. The loop over the parents ends at one with a value or with other children. -/
def trieNodeDestroy : TrieNode V → List UInt8 → Option (Option (TrieNode V) × Nat)
  | node, [] => some (none, 1 + node.child.numNodes)
  | node, c :: key => do
    let child ← node.child.get c
    let (left, freed) ← trieNodeDestroy child key
    if left.isNone ∧ node.value.isNone ∧ node.child.numChildren ≤ 1 then some (none, freed + 1)
    else some (some { node with child := node.child.put c left }, freed)

/-- The key is `c :: key`. With an empty one the root would be freed, to which the trie still points. -/
def trieRemove (t : CountedTrie V) (c : UInt8) (key : List UInt8) : CountedTrie V × Reply V :=
  match (t.root.child.get c).bind fun child => trieNodeDestroy child key with
  | none => (t, ⟨0, none⟩)
  | some (left, freed) =>
    (⟨{ t.root with child := t.root.child.put c left }, t.nodeCount - freed⟩, ⟨freed, trieFind t.root (c :: key)⟩)

def nodesOf (node : Option (TrieNode V)) : Nat := node.elim 0 fun node => 1 + node.child.numNodes

theorem Children.get_put {t : Children V} (h : t.Ok) (c c' : UInt8) (node : Option (TrieNode V)) :
    (t.put c node).get c' = if c = c' then node else t.get c' := by
  cases node with
  | some node => exact t.get_set c c' node
  | none =>
    induction t with
    | nil => simp [put, unset, get]
    | cons pidx value child next _ ih =>
      obtain ⟨-, -, habove, -, hnext⟩ := h
      have hnext' := ih hnext
      rw [put] at hnext' ⊢
      rw [unset]
      by_cases hc : pidx = c
      · subst hc
        by_cases hc' : pidx = c'
        · subst hc'
          simp [habove.get (UInt8.le_refl _)]
        · simp [hc', get]
      · rw [if_neg hc, get, get, hnext']
        by_cases hp : pidx = c'
        · subst hp
          simp [Ne.symm hc]
        · simp [hp]

theorem Children.numNodes_put {t : Children V} (h : t.Ok) (c : UInt8) (node : Option (TrieNode V)) :
    (t.put c node).numNodes + nodesOf (t.get c) = t.numNodes + nodesOf node := by
  cases node with
  | some node =>
    rw [put]
    induction t with
    | nil => simp [set, numNodes, get, nodesOf]
    | cons pidx value child next _ ih =>
      obtain ⟨-, -, habove, -, hnext⟩ := h
      have hnext' := ih hnext
      rw [set, get]
      by_cases hc : pidx = c
      · rw [if_pos hc, if_pos hc]
        simp only [numNodes, nodesOf, Option.elim_some]
        omega
      · rw [if_neg hc, if_neg hc]
        by_cases hlt : c < pidx
        · rw [if_pos hlt, habove.get (UInt8.le_of_lt hlt)]
          simp only [numNodes, nodesOf, Option.elim_some, Option.elim_none]
          omega
        · rw [if_neg hlt]
          simp only [numNodes]
          omega
  | none =>
    rw [put]
    induction t with
    | nil => rfl
    | cons pidx value child next _ ih =>
      obtain ⟨-, -, -, -, hnext⟩ := h
      have hnext' := ih hnext
      rw [unset, get]
      by_cases hc : pidx = c
      · rw [if_pos hc, if_pos hc]
        simp only [numNodes, nodesOf, Option.elim_some, Option.elim_none]
        omega
      · rw [if_neg hc, if_neg hc]
        simp only [numNodes]
        omega

theorem Children.Above.unset {t : Children V} {c : UInt8} (h : t.Above c) (c' : UInt8) : (t.unset c').Above c := by
  induction t with
  | nil => trivial
  | cons pidx value child next _ ih =>
    rw [Children.unset]
    split_ifs
    · exact h.2
    · exact ⟨h.1, ih h.2⟩

theorem Children.ok_put {t : Children V} (h : t.Ok) {c : UInt8} (hc : 0 < c) {node : Option (TrieNode V)}
    (hnode : ∀ n, node = some n → n.child.Ok ∧ n.entries ≠ []) : (t.put c node).Ok := by
  cases node with
  | some n =>
    obtain ⟨hchild, hentries⟩ := hnode n rfl
    exact ok_set h hc hentries hchild
  | none =>
    rw [put]
    induction t with
    | nil => trivial
    | cons pidx value child next _ ih =>
      obtain ⟨hpos, hval, habove, hok, hnext⟩ := h
      rw [unset]
      split_ifs
      · exact hnext
      · exact ⟨hpos, hval, habove.unset c, hok, ih hnext⟩

/-- A list with one child. -/
theorem Children.eq_of_numChildren {t : Children V} {c : UInt8} {node : TrieNode V} (hget : t.get c = some node)
    (hone : t.numChildren ≤ 1) : t = .cons c node.value node.child .nil := by
  cases t with
  | nil => cases hget
  | cons pidx value child next =>
    cases next with
    | nil =>
      rw [get] at hget
      split_ifs at hget with hc
      · subst hc
        rw [← Option.some.inj hget]
      · cases hget
    | cons _ _ _ next =>
      simp only [numChildren] at hone
      omega

theorem Children.entries_unset_ne_nil {t : Children V} (h : t.Ok) (c : UInt8) (hmore : 1 < t.numChildren) :
    (t.unset c).entries ≠ [] := by
  have hfirst : ∀ {pidx value child next}, (Children.cons pidx value child next : Children V).Ok →
      (Children.cons pidx value child next).entries ≠ [] := by
    intro pidx value child next hok hnil
    rw [entries_cons, List.append_eq_nil_iff, List.map_eq_nil_iff] at hnil
    exact entries_ne_nil hok.2.1 hnil.1
  cases t with
  | nil => cases hmore
  | cons pidx value child next =>
    rw [unset]
    split_ifs with hc
    · cases next with
      | nil => exact absurd hmore (Nat.lt_irrefl 1)
      | cons _ _ _ _ => exact hfirst h.2.2.2.2
    · intro hnil
      rw [entries_cons, List.append_eq_nil_iff, List.map_eq_nil_iff] at hnil
      exact entries_ne_nil h.2.1 hnil.1

theorem trieFind_cons_bind (node : TrieNode V) (c : UInt8) (key : List UInt8) :
    trieFind node (c :: key) = (node.child.get c).bind fun child => trieFind child key := by
  rw [trieFind, trieFindInternal, Option.bind_assoc]
  rfl

structure Pruned (node : TrieNode V) (key : List UInt8) (left : Option (TrieNode V)) (freed : Nat) : Prop where
  find : ∀ k, (left.bind fun n => trieFind n k) = if key <+: k then none else trieFind node k
  nodes : nodesOf left + freed = nodesOf (some node)
  ok : ∀ n, left = some n → n.child.Ok ∧ n.entries ≠ []

/-- The same for the node above, which stays. -/
theorem Pruned.put {node child : TrieNode V} (h : node.child.Ok) {c : UInt8} (hget : node.child.get c = some child)
    {key : List UInt8} {left : Option (TrieNode V)} {freed : Nat} (hp : Pruned child key left freed) :
    (∀ k, trieFind { node with child := node.child.put c left } k =
        if c :: key <+: k then none else trieFind node k) ∧
      (node.child.put c left).numNodes + freed = node.child.numNodes := by
  constructor
  · intro k
    cases k with
    | nil => simp [trieFind, trieFindInternal]
    | cons c' k =>
      rw [trieFind_cons_bind, trieFind_cons_bind, Children.get_put h]
      simp only [List.cons_prefix_cons]
      by_cases hc : c = c'
      · subst hc
        rw [if_pos rfl, hp.find, hget]
        simp
      · simp [hc]
  · have hput := Children.numNodes_put h c left
    have hnodes := hp.nodes
    rw [hget] at hput
    omega

theorem trieNodeDestroy_pruned {node : TrieNode V} (h : node.child.Ok) {key : List UInt8} (hkey : ∀ c ∈ key, 0 < c)
    {left : Option (TrieNode V)} {freed : Nat} (hd : trieNodeDestroy node key = some (left, freed)) :
    Pruned node key left freed := by
  induction key generalizing node left freed with
  | nil =>
    obtain ⟨rfl, rfl⟩ := Prod.mk.inj (Option.some.inj hd)
    exact ⟨by simp, Nat.zero_add _, by simp⟩
  | cons c key ih =>
    simp only [trieNodeDestroy, Option.bind_eq_bind, Option.bind_eq_some_iff, Prod.exists] at hd
    obtain ⟨child, hget, left', freed', hbelow, hd⟩ := hd
    have hp := ih (h.get hget).1 (fun d hd => hkey d (List.mem_cons_of_mem c hd)) hbelow
    obtain ⟨hfind, hnodes⟩ := hp.put h hget
    split_ifs at hd with hgone
    · obtain ⟨rfl, rfl⟩ := Prod.mk.inj (Option.some.inj hd)
      obtain ⟨hleft, hvalue, hone⟩ := hgone
      have hput : node.child.put c left' = .nil := by
        rw [Option.isNone_iff_eq_none.mp hleft, Children.put, Children.eq_of_numChildren hget hone, Children.unset,
          if_pos rfl]
      rw [hput, Children.numNodes] at hnodes
      refine ⟨fun k => ?_, ?_, by simp⟩
      · rw [← hfind, hput, Option.isNone_iff_eq_none.mp hvalue]
        exact (trieFind_create k).symm
      · simp only [nodesOf, Option.elim_some, Option.elim_none]
        omega
    · obtain ⟨rfl, rfl⟩ := Prod.mk.inj (Option.some.inj hd)
      refine ⟨hfind, ?_, ?_⟩
      · simp only [nodesOf, Option.elim_some]
        omega
      · rintro n ⟨⟩
        refine ⟨Children.ok_put h (hkey c (by simp)) hp.ok, ?_⟩
        cases hleft : left' with
        | some n => exact entries_ne_nil (Or.inr (entries_set_ne_nil _ _ (hp.ok n hleft).2))
        | none =>
          by_cases hvalue : node.value.isSome
          · exact entries_ne_nil (Or.inl hvalue)
          · refine entries_ne_nil (Or.inr (Children.entries_unset_ne_nil h c ?_))
            by_contra hone
            exact hgone ⟨by rw [hleft]; rfl, by simpa using hvalue, Nat.le_of_not_lt hone⟩

theorem trieNodeDestroy_eq_none {node : TrieNode V} {key : List UInt8} :
    trieNodeDestroy node key = none ↔ trieFindInternal node key = none := by
  induction key generalizing node with
  | nil => simp [trieNodeDestroy, trieFindInternal]
  | cons c key ih =>
    rw [trieFindInternal, trieNodeDestroy]
    cases node.child.get c with
    | none => simp
    | some child =>
      rw [Option.bind_eq_bind, Option.bind_some, Option.bind_some, ← ih]
      cases trieNodeDestroy child key with
      | none => simp
      | some r =>
        rw [Option.bind_eq_bind, Option.bind_some]
        dsimp only
        split_ifs <;> simp

theorem newNodes_create (key : List UInt8) : newNodes (trieCreate : TrieNode V) key = key.length := by
  cases key <;> rfl

theorem newNodes_of_found {node : TrieNode V} {key : List UInt8} (h : (trieFindInternal node key).isSome) :
    newNodes node key = 0 := by
  induction key generalizing node with
  | nil => rfl
  | cons c key ih =>
    rw [trieFindInternal] at h
    rw [newNodes]
    cases hget : node.child.get c with
    | none =>
      rw [hget] at h
      cases h
    | some child =>
      rw [hget] at h
      exact ih h

theorem numNodes_insert {node : TrieNode V} (h : node.child.Ok) (key : List UInt8) (value : V) :
    (trieInsert node key value).child.numNodes = node.child.numNodes + newNodes node key := by
  induction key generalizing node with
  | nil => rfl
  | cons c key ih =>
    rw [trieInsert, newNodes]
    have hput := Children.numNodes_put h c (some (trieInsert ((node.child.get c).getD trieCreate) key value))
    cases hget : node.child.get c with
    | none =>
      have hbelow := @ih trieCreate trivial
      rw [newNodes_create] at hbelow
      simp only [hget, Option.getD_none, nodesOf, Option.elim_none, Option.elim_some, hbelow, Children.put] at hput ⊢
      simp only [trieCreate, Children.numNodes] at hput ⊢
      omega
    | some child =>
      have hbelow := ih (h.get hget).1
      simp only [hget, Option.getD_some, nodesOf, Option.elim_some, hbelow, Children.put] at hput ⊢
      omega

def Children.paths : Children V → List (List UInt8)
  | .nil => []
  | .cons pidx _ child next => ([] :: child.paths).map (pidx :: ·) ++ next.paths

theorem Children.length_paths (t : Children V) : t.paths.length = t.numNodes := by
  induction t with
  | nil => rfl
  | cons pidx value child next ihc ihn =>
    simp only [paths, numNodes, List.length_append, List.length_map, List.length_cons, ihc, ihn]
    omega

theorem Children.nil_notMem_paths (t : Children V) : [] ∉ t.paths := by
  induction t with
  | nil => simp [paths]
  | cons pidx value child next _ ih => simp [paths, ih]

theorem Children.mem_paths_cons {t : Children V} (h : t.Ok) {c : UInt8} {key : List UInt8} :
    c :: key ∈ t.paths ↔ ∃ node, t.get c = some node ∧ key ∈ [] :: node.child.paths := by
  induction t with
  | nil => simp [paths, get]
  | cons pidx value child next _ ih =>
    obtain ⟨-, -, habove, -, hnext⟩ := h
    have hpaths : c :: key ∈ (Children.cons pidx value child next).paths ↔
        (pidx = c ∧ key ∈ [] :: child.paths) ∨ c :: key ∈ next.paths := by
      rw [paths, List.mem_append, List.mem_map]
      refine or_congr ⟨?_, ?_⟩ Iff.rfl
      · rintro ⟨k, hk, heq⟩
        obtain ⟨rfl, rfl⟩ := List.cons.inj heq
        exact ⟨rfl, hk⟩
      · rintro ⟨rfl, hk⟩
        exact ⟨key, hk, rfl⟩
    rw [hpaths, ih hnext, get]
    by_cases hc : pidx = c
    · subst hc
      simp [habove.get (UInt8.le_refl pidx)]
    · simp [hc]

theorem Children.nodup_paths {t : Children V} (h : t.Ok) : t.paths.Nodup := by
  induction t with
  | nil => exact List.nodup_nil
  | cons pidx value child next ihc ihn =>
    obtain ⟨-, -, habove, hok, hnext⟩ := h
    rw [paths, List.nodup_append]
    refine ⟨(List.nodup_cons.mpr ⟨child.nil_notMem_paths, ihc hok⟩).map (List.cons_injective), ihn hnext, ?_⟩
    intro k hk k' hk' heq
    obtain ⟨rest, -, rfl⟩ := List.mem_map.mp hk
    rw [← heq, mem_paths_cons hnext, habove.get (UInt8.le_refl pidx)] at hk'
    simp at hk'

theorem mem_paths_iff {node : TrieNode V} (h : node.child.Ok) {key : List UInt8} :
    key ∈ [] :: node.child.paths ↔ (trieFindInternal node key).isSome := by
  induction key generalizing node with
  | nil => simp [trieFindInternal]
  | cons c key ih =>
    rw [List.mem_cons, Children.mem_paths_cons h, trieFindInternal]
    cases hget : node.child.get c with
    | none => simp
    | some child => simpa using ih (h.get hget).1

def Begins (M : List UInt8 → Option V) (key : List UInt8) : Prop := ∃ key' v, key <+: key' ∧ M key' = some v

noncomputable def beginnings (M : List UInt8 → Option V) : Int := Set.ncard { key | key ≠ [] ∧ Begins M key }

/-- No node is there without a key. -/
theorem isSome_iff_begins {node : TrieNode V} (h : node.child.Ok) {key : List UInt8} :
    (trieFindInternal node key).isSome ↔ key = [] ∨ Begins (trieFind node) key := by
  induction key generalizing node with
  | nil => simp [trieFindInternal]
  | cons c key ih =>
    rw [trieFindInternal]
    cases hget : node.child.get c with
    | none =>
      simp only [Option.bind_none, Option.isSome_none, Bool.false_eq_true, reduceCtorEq, false_or, false_iff]
      rintro ⟨k, v, hpre, hfind⟩
      obtain ⟨rest, rfl⟩ := hpre
      rw [List.cons_append, trieFind_cons_bind, hget] at hfind
      cases hfind
    | some child =>
      obtain ⟨hok, hlive⟩ := h.get hget
      rw [Option.bind_some, ih hok]
      simp only [reduceCtorEq, false_or]
      constructor
      · rintro (rfl | ⟨k, v, hpre, hfind⟩)
        · obtain ⟨⟨k, v⟩, he⟩ := List.exists_mem_of_ne_nil _ hlive
          refine ⟨c :: k, v, List.cons_prefix_cons.mpr ⟨rfl, List.nil_prefix⟩, ?_⟩
          rw [trieFind_cons_bind, hget]
          exact (mem_entries_iff hok).mp he
        · refine ⟨c :: k, v, List.cons_prefix_cons.mpr ⟨rfl, hpre⟩, ?_⟩
          rw [trieFind_cons_bind, hget]
          exact hfind
      · rintro ⟨k, v, hpre, hfind⟩
        obtain ⟨rest, rfl⟩ := hpre
        rw [List.cons_append, trieFind_cons_bind, hget] at hfind
        exact Or.inr ⟨key ++ rest, v, List.prefix_append _ _, hfind⟩

theorem numNodes_eq_beginnings {node : TrieNode V} (h : node.child.Ok) :
    (node.child.numNodes : Int) = beginnings (trieFind node) := by
  have hset : { key | key ≠ [] ∧ Begins (trieFind node) key } = (node.child.paths.toFinset : Set (List UInt8)) := by
    ext key
    have hmem := (@mem_paths_iff V _ h key).trans (isSome_iff_begins h)
    simp only [Set.mem_ofPred_eq, List.coe_toFinset]
    by_cases hnil : key = []
    · subst hnil
      simp [node.child.nil_notMem_paths]
    · simpa [hnil] using hmem.symm
  rw [beginnings, hset, Set.ncard_coe_finset, List.toFinset_card_of_nodup (Children.nodup_paths h),
    Children.length_paths]

inductive Call (V : Type) where
  | find (key : List UInt8)
  | insert (key : List UInt8) (value : V)
  | findOrInsert (key : List UInt8) (value : V)
  | findAndInsert (key : List UInt8) (value : V)
  /-- The key is `c :: key`. -/
  | remove (c : UInt8) (key : List UInt8)

def Call.key : Call V → List UInt8
  | .find key => key
  | .insert key _ => key
  | .findOrInsert key _ => key
  | .findAndInsert key _ => key
  | .remove c key => c :: key

def trieCall (t : CountedTrie V) : Call V → CountedTrie V × Reply V
  | .find key => (t, ⟨0, trieFind t.root key⟩)
  | .insert key value => t.insert key value
  | .findOrInsert key value => trieFindOrInsert t key value
  | .findAndInsert key value => trieFindAndInsert t key value
  | .remove c key => trieRemove t c key

noncomputable def mapInsert (M : List UInt8 → Option V) (key : List UInt8) (value : V) (prev : Option V) :
    (List UInt8 → Option V) × Reply V :=
  (Function.update M key (some value), ⟨beginnings (Function.update M key (some value)) - beginnings M, prev⟩)

def mapRemove (M : List UInt8 → Option V) (key : List UInt8) : List UInt8 → Option V :=
  fun k => if key <+: k then none else M k

open Classical in
noncomputable def mapCall (M : List UInt8 → Option V) : Call V → (List UInt8 → Option V) × Reply V
  | .find key => (M, ⟨0, M key⟩)
  | .insert key value => mapInsert M key value none
  | .findOrInsert key value => if key = [] ∨ Begins M key then (M, ⟨0, M key⟩) else mapInsert M key value none
  | .findAndInsert key value => mapInsert M key value (M key)
  | .remove c key => (mapRemove M (c :: key), ⟨beginnings M - beginnings (mapRemove M (c :: key)), M (c :: key)⟩)

def AsciiKey (key : List UInt8) : Prop := ∀ c ∈ key, 0 < c ∧ c < 128

structure Holds (t : CountedTrie V) (M : List UInt8 → Option V) : Prop where
  ok : t.root.child.Ok
  find : trieFind t.root = M
  count : t.nodeCount = t.root.child.numNodes

theorem Holds.nodeCount_eq {t : CountedTrie V} {M : List UInt8 → Option V} (h : Holds t M) :
    t.nodeCount = beginnings M := by
  rw [h.count, numNodes_eq_beginnings h.ok, h.find]

section Calls
variable {t : CountedTrie V} {M : List UInt8 → Option V} (h : Holds t M) {key : List UInt8} (hkey : AsciiKey key)
include h hkey

theorem Holds.inserted (value : V) {t' : CountedTrie V} (hroot : t'.root = trieInsert t.root key value)
    (hcount : t'.nodeCount = t.nodeCount + newNodes t.root key) :
    Holds t' (Function.update M key (some value)) where
  ok := by
    rw [hroot]
    exact ok_insert h.ok (fun h0 => absurd (hkey 0 h0).1 (UInt8.lt_irrefl 0)) value
  find := by
    funext k
    rw [hroot, trieFind_insert, h.find, Function.update_apply]
    simp only [eq_comm]
  count := by
    rw [hroot, hcount, h.count, numNodes_insert h.ok, Int.natCast_add]

theorem Holds.insert (value : V) (prev : Option V) :
    Reply.mk (newNodes t.root key) prev = (mapInsert M key value prev).2 ∧
      Holds (t.insert key value).1 (mapInsert M key value prev).1 := by
  have hins : Holds (t.insert key value).1 (mapInsert M key value prev).1 := h.inserted hkey value rfl rfl
  have hafter : t.nodeCount + newNodes t.root key = beginnings (Function.update M key (some value)) :=
    hins.nodeCount_eq
  have hbefore := h.nodeCount_eq
  refine ⟨congrArg (Reply.mk · prev) ?_, hins⟩
  omega

theorem Holds.findOrInsert (value : V) :
    (trieFindOrInsert t key value).2 = (mapCall M (.findOrInsert key value)).2 ∧
      Holds (trieFindOrInsert t key value).1 (mapCall M (.findOrInsert key value)).1 := by
  have hiff := @isSome_iff_begins V _ h.ok key
  rw [h.find] at hiff
  rw [trieFindOrInsert, mapCall]
  cases hnode : trieFindInternal t.root key with
  | none =>
    rw [hnode] at hiff
    rw [if_neg fun hb => by cases hiff.mpr hb]
    exact h.insert hkey value none
  | some node =>
    rw [hnode] at hiff
    rw [if_pos (hiff.mp rfl), ← h.find, trieFind, hnode]
    exact ⟨rfl, h.ok, rfl, h.count⟩

theorem Holds.findAndInsert (value : V) :
    (trieFindAndInsert t key value).2 = (mapCall M (.findAndInsert key value)).2 ∧
      Holds (trieFindAndInsert t key value).1 (mapCall M (.findAndInsert key value)).1 := by
  have hprev : M key = (trieFindInternal t.root key).bind TrieNode.value := by rw [← h.find, trieFind]
  have hins := h.insert hkey value (M key)
  rw [trieFindAndInsert, mapCall]
  cases hnode : trieFindInternal t.root key with
  | none =>
    rw [hnode] at hprev
    rw [← hins.1, hprev]
    exact ⟨rfl, hprev ▸ hins.2⟩
  | some node =>
    have hnew : newNodes t.root key = 0 := newNodes_of_found (by rw [hnode]; rfl)
    rw [hnode] at hprev
    rw [← hins.1, hprev, hnew]
    refine ⟨rfl, ?_⟩
    exact h.inserted hkey value rfl (by rw [hnew, Int.natCast_zero, Int.add_zero])

end Calls

theorem Holds.remove {t : CountedTrie V} {M : List UInt8 → Option V} (h : Holds t M) {c : UInt8} {key : List UInt8}
    (hkey : AsciiKey (c :: key)) :
    (trieRemove t c key).2 = (mapCall M (.remove c key)).2 ∧
      Holds (trieRemove t c key).1 (mapCall M (.remove c key)).1 := by
  rw [trieRemove, mapCall]
  have hinternal : (t.root.child.get c).bind (fun child => trieFindInternal child key) =
      trieFindInternal t.root (c :: key) := rfl
  cases hd : (t.root.child.get c).bind fun child => trieNodeDestroy child key with
  | none =>
    have hnone : trieFindInternal t.root (c :: key) = none := by
      rw [Option.bind_eq_none_iff] at hd
      rw [← hinternal, Option.bind_eq_none_iff]
      exact fun child hget => trieNodeDestroy_eq_none.mp (hd child hget)
    have hno : ¬ Begins M (c :: key) := by
      intro hb
      have hsome := (@isSome_iff_begins V _ h.ok (c :: key)).mpr (Or.inr (by rwa [h.find]))
      rw [hnone] at hsome
      cases hsome
    have hsame : mapRemove M (c :: key) = M := by
      funext k
      rw [mapRemove]
      split_ifs with hpre
      · cases hk : M k with
        | none => rfl
        | some v => exact absurd ⟨k, v, hpre, hk⟩ hno
      · rfl
    have hvalue : M (c :: key) = none := by
      rw [← h.find, trieFind, hnone]
      rfl
    rw [hsame, Int.sub_self, hvalue]
    exact ⟨rfl, h⟩
  | some r =>
    obtain ⟨left, freed⟩ := r
    obtain ⟨child, hget, hdestroy⟩ := Option.bind_eq_some_iff.mp hd
    have hp := trieNodeDestroy_pruned (h.ok.get hget).1
      (fun d hmem => (hkey d (List.mem_cons_of_mem c hmem)).1) hdestroy
    obtain ⟨hfind, hnodes⟩ := hp.put h.ok hget
    have hafter : Holds ⟨{ t.root with child := t.root.child.put c left }, t.nodeCount - freed⟩
        (mapRemove M (c :: key)) := by
      refine ⟨Children.ok_put h.ok (hkey c (by simp)).1 hp.ok, ?_, ?_⟩
      · funext k
        rw [hfind, h.find]
        rfl
      · have hcount := h.count
        dsimp only
        omega
    have hbefore := h.nodeCount_eq
    have hcount : t.nodeCount - freed = beginnings (mapRemove M (c :: key)) := hafter.nodeCount_eq
    refine ⟨?_, hafter⟩
    rw [h.find]
    refine congrArg (Reply.mk · (M (c :: key))) ?_
    omega

/-- Every call answers as on a map. An insertion tells how many beginnings of keys are new, and a removal
how many are gone, since there are exactly as many nodes. -/
theorem trie_calls_are_map_calls {calls : List (Call V)} (hcalls : ∀ call ∈ calls, AsciiKey call.key) :
    (Runs.trace trieCall .create calls).2 = (Runs.trace mapCall (fun _ => none) calls).2 ∧
      (Runs.trace trieCall .create calls).1.nodeCount = beginnings (Runs.trace mapCall (fun _ => none) calls).1 := by
  have hstep : ∀ (t : CountedTrie V) (M : List UInt8 → Option V) (call : Call V), AsciiKey call.key → Holds t M →
      (trieCall t call).2 = (mapCall M call).2 ∧ Holds (trieCall t call).1 (mapCall M call).1 := by
    intro t M call hkey h
    cases call with
    | find key => exact ⟨by rw [trieCall, mapCall, h.find], h⟩
    | insert key value => exact h.insert hkey value none
    | findOrInsert key value => exact h.findOrInsert hkey value
    | findAndInsert key value => exact h.findAndInsert hkey value
    | remove c key => exact h.remove hkey
  have hcreate : Holds (.create : CountedTrie V) fun _ => none := ⟨trivial, funext trieFind_create, rfl⟩
  obtain ⟨hreplies, hholds⟩ := Runs.trace_rel Holds (fun call => AsciiKey call.key) trieCall mapCall hstep hcalls hcreate
  exact ⟨hreplies, hholds.nodeCount_eq⟩

/-- With `ab` and `abc` stored, removing `ab` frees three nodes and both keys. -/
theorem trie_calls_are_map_calls_removed :
    (Runs.trace trieCall .create [.insert [97, 98] 1, .insert [97, 98, 99] 2, .remove 97 [98], .find [97, 98, 99]]).2 =
        [⟨2, none⟩, ⟨1, none⟩, ⟨3, some 1⟩, ⟨0, none⟩] ∧
      (Runs.trace mapCall (fun _ => none)
          [.insert [97, 98] 1, .insert [97, 98, 99] 2, .remove 97 [98], .find [97, 98, 99]]).2 =
        [⟨2, none⟩, ⟨1, none⟩, ⟨3, some 1⟩, ⟨0, none⟩] := by
  have hruns := @trie_calls_are_map_calls Nat
    [.insert [97, 98] 1, .insert [97, 98, 99] 2, .remove 97 [98], .find [97, 98, 99]] (by simp [AsciiKey, Call.key])
  exact ⟨by decide, hruns.1.symm.trans (by decide)⟩

end Miqs.Trie
