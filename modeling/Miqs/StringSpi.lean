import Miqs.CData
import Miqs.KeyedTree
import Miqs.Trie

/-! The string index interface over its four data structures. The hash table, the
red-black tree and the adaptive radix tree are maps from strings to data; the trie and the
radix tree are given every key a second time, reversed. -/
namespace Miqs.StringSpi
open Miqs.CData Miqs.KeyedTree Miqs.Trie
open Miqs.SearchTree (OrderedOn)
variable {D : Type}

@[ext]
structure Keyword where
  text : CString
  nonempty : text.bytes ≠ []
  ascii : ∀ b ∈ text.bytes, b < 128
  deriving DecidableEq

def Keyword.reverse (key : Keyword) : Keyword where
  text := ⟨key.text.bytes.reverse, fun h => key.text.nulFree (List.mem_reverse.mp h)⟩
  nonempty := fun h => key.nonempty (List.reverse_eq_nil_iff.mp h)
  ascii := fun b hb => key.ascii b (List.mem_reverse.mp hb)

inductive StringIdxImpl where
  | hashtable
  | sbst
  | trie
  | art
  deriving DecidableEq

/-- A pointer that a search delivers: the data that was inserted, or the address of a
parameter of a call that is over. -/
inductive Pointer (D : Type) where
  | data (d : D)
  | dangling
  deriving DecidableEq

inductive StringIndex (D : Type) where
  | hashtable (table : List (Keyword × D))
  | rbtree (nodes : List (Keyword × D))
  | trie (root : TrieNode (Pointer D))
  | art (tree : List (Keyword × D))

def strcmp : List UInt8 → List UInt8 → Int
  | [], [] => 0
  | [], c :: _ => -c.toNat
  | c :: _, [] => c.toNat
  | c :: s, c' :: s' => if c = c' then strcmp s s' else (c.toNat : Int) - c'.toNat

def libhlCmpKeysString (k1 k2 : Keyword) : Int := strcmp k1.text.bytes k2.text.bytes

/-- The first insertion stores the address of its own parameter `data`. -/
def insertStringToTrie (root : TrieNode (Pointer D)) (key : Keyword) (data : D) : TrieNode (Pointer D) :=
  trieInsert (trieInsert root key.text.bytes .dangling) key.reverse.text.bytes (.data data)

def insertStringToArt (tree : List (Keyword × D)) (key : Keyword) (data : D) : List (Keyword × D) :=
  AssocMap.insert tree key data

def createStringIndex : StringIdxImpl → StringIndex D
  | .hashtable => .hashtable []
  | .sbst => .rbtree []
  | .trie => .trie trieCreate
  | .art => .art []

section Operations
variable [Descent Keyword]

def insertString (idx : StringIndex D) (key : Keyword) (data : D) : StringIndex D :=
  match idx with
  | .hashtable table => .hashtable (AssocMap.insert table key data)
  | .rbtree nodes => .rbtree (add libhlCmpKeysString nodes key data)
  | .trie root => .trie (insertStringToTrie (insertStringToTrie root key data) key.reverse data)
  | .art tree => .art (insertStringToArt (insertStringToArt tree key data) key.reverse data)

def searchString (idx : StringIndex D) (key : Keyword) : Option (Pointer D) :=
  match idx with
  | .hashtable table => (AssocMap.search table key).map .data
  | .rbtree nodes => (lookup libhlCmpKeysString nodes key).map .data
  | .trie root => trieFind root key.text.bytes
  | .art tree => (AssocMap.search tree key).map .data

def insertStrings (impl : StringIdxImpl) (kvs : List (Keyword × D)) : StringIndex D :=
  kvs.foldl (fun idx x => insertString idx x.1 x.2) (createStringIndex impl)

def lastData (kvs : List (Keyword × D)) (key : Keyword) : Option D :=
  ((kvs.filter fun x => x.1 = key).getLast?).map Prod.snd

def IsMap (impl : StringIdxImpl) (kvs : List (Keyword × D)) : Prop :=
  ∀ key, searchString (insertStrings impl kvs) key = (lastData kvs key).map .data

def ReversalHarmless (kvs : List (Keyword × D)) : StringIdxImpl → Prop
  | .hashtable => True
  | .sbst => True
  | .trie => ∀ x ∈ kvs, x.1.reverse = x.1
  | .art => ∀ x ∈ kvs, lastData kvs x.1.reverse = lastData kvs x.1

end Operations

@[simp] theorem Keyword.reverse_reverse (key : Keyword) : key.reverse.reverse = key := by
  ext : 2
  simp [Keyword.reverse]

theorem Keyword.reverse_eq_iff {key key' : Keyword} : key.reverse = key' ↔ key = key'.reverse := by
  constructor
  · rintro rfl
    exact key.reverse_reverse.symm
  · rintro rfl
    exact key'.reverse_reverse

@[simp] theorem Keyword.reverse_inj {key key' : Keyword} : key.reverse = key'.reverse ↔ key = key' := by
  rw [Keyword.reverse_eq_iff, Keyword.reverse_reverse]

theorem Keyword.bytes_inj {key key' : Keyword} : key.text.bytes = key'.text.bytes ↔ key = key' := by
  constructor
  · intro h
    ext : 2
    exact h
  · rintro rfl
    rfl

theorem strcmp_eq_zero {s s' : List UInt8} (h : 0 ∉ s) (h' : 0 ∉ s') : strcmp s s' = 0 ↔ s = s' := by
  have hpos : ∀ c : UInt8, c ≠ 0 → c.toNat ≠ 0 := fun c hc hz => hc (UInt8.toNat_inj.mp hz)
  induction s generalizing s' with
  | nil =>
    cases s' with
    | nil => simp [strcmp]
    | cons c s' =>
      have hc := hpos c fun hz => h' (by simp [hz])
      simp [strcmp, hc]
  | cons c s ih =>
    cases s' with
    | nil =>
      have hc := hpos c fun hz => h (by simp [hz])
      simp [strcmp, hc]
    | cons c' s' =>
      rw [List.mem_cons, not_or] at h h'
      rw [strcmp, List.cons.injEq]
      split_ifs with hc
      · exact (ih h.2 h'.2).trans (and_iff_right hc).symm
      · have hne : (c.toNat : Int) - c'.toNat ≠ 0 := by
          have hnat : c.toNat ≠ c'.toNat := fun heq => hc (UInt8.toNat_inj.mp heq)
          omega
        simp [hc, hne]

theorem strcmp_swap (s s' : List UInt8) : strcmp s' s = -strcmp s s' := by
  induction s generalizing s' with
  | nil => cases s' <;> simp [strcmp]
  | cons c s ih =>
    cases s' with
    | nil => simp [strcmp]
    | cons c' s' =>
      by_cases hc : c = c'
      · simp [strcmp, hc, ih s']
      · simp [strcmp, hc, Ne.symm hc]

theorem strcmp_trans {s s' s'' : List UInt8} (h : strcmp s s' < 0) (h' : strcmp s' s'' < 0) :
    strcmp s s'' < 0 := by
  induction s generalizing s' s'' with
  | nil =>
    cases s' with
    | nil => simp [strcmp] at h
    | cons c' s' =>
      cases s'' with
      | nil => simp [strcmp] at h'; omega
      | cons c'' s'' =>
        simp only [strcmp] at h h' ⊢
        by_cases hc : c' = c''
        · exact hc ▸ h
        · rw [if_neg hc] at h'
          omega
  | cons c s ih =>
    cases s' with
    | nil => simp [strcmp] at h; omega
    | cons c' s' =>
      cases s'' with
      | nil => simp [strcmp] at h'; omega
      | cons c'' s'' =>
        rw [strcmp] at h h' ⊢
        by_cases hc : c = c'
        · subst hc
          by_cases hc' : c = c''
          · simp only [if_pos hc', if_true] at h h' ⊢
            exact ih h h'
          · simpa only [if_neg hc'] using h'
        · rw [if_neg hc] at h
          by_cases hc' : c' = c''
          · subst hc'
            simpa only [if_neg hc] using h
          · rw [if_neg hc'] at h'
            have hne : c ≠ c'' := by
              rintro rfl
              omega
            rw [if_neg hne]
            omega

theorem orderedOn_string : OrderedOn libhlCmpKeysString fun _ => True where
  pos_iff := by
    intro a b _ _
    have hswap := strcmp_swap a.text.bytes b.text.bytes
    simp only [libhlCmpKeysString]
    omega
  trans := fun _ _ _ => strcmp_trans

theorem libhlCmpKeysString_eq_zero (k1 k2 : Keyword) : libhlCmpKeysString k1 k2 = 0 ↔ k1 = k2 := by
  rw [libhlCmpKeysString, strcmp_eq_zero k1.text.nulFree k2.text.nulFree, Keyword.bytes_inj]

theorem lastData_append (kvs : List (Keyword × D)) (x : Keyword × D) (key : Keyword) :
    lastData (kvs ++ [x]) key = if x.1 = key then some x.2 else lastData kvs key := by
  by_cases h : x.1 = key <;> simp [lastData, h]

/-- In the end the key is stored with the data and its reversal with a dangling pointer. -/
theorem trieFind_insertString (root : TrieNode (Pointer D)) (key key' : Keyword) (data : D) :
    trieFind (insertStringToTrie (insertStringToTrie root key data) key.reverse data) key'.text.bytes =
      if key = key' then some (.data data) else if key.reverse = key' then some .dangling
      else trieFind root key'.text.bytes := by
  simp only [insertStringToTrie, trieFind_insert, Keyword.bytes_inj, Keyword.reverse_reverse]
  split_ifs <;> rfl

theorem search_insertStringToArt (tree : List (Keyword × D)) (key key' : Keyword) (data : D) :
    AssocMap.search (insertStringToArt (insertStringToArt tree key data) key.reverse data) key' =
      if key = key' ∨ key.reverse = key' then some data else AssocMap.search tree key' := by
  simp only [insertStringToArt, AssocMap.search_insert]
  split_ifs <;> simp_all

def trieData (kvs : List (Keyword × D)) (key : Keyword) : Option (Pointer D) :=
  kvs.foldl (fun found x => if x.1 = key then some (.data x.2)
    else if x.1.reverse = key then some .dangling else found) none

def artData (kvs : List (Keyword × D)) (key : Keyword) : Option D :=
  kvs.foldl (fun found x => if x.1 = key ∨ x.1.reverse = key then some x.2 else found) none

theorem foldl_insert_nodup (kvs : List (Keyword × D)) :
    ((kvs.foldl (fun m x => AssocMap.insert m x.1 x.2) []).map Prod.fst).Nodup :=
  AssocMap.nodup_foldl_insert (m := []) List.nodup_nil kvs

theorem search_foldl_insert_eq (kvs : List (Keyword × D)) (key : Keyword) :
    AssocMap.search (kvs.foldl (fun m x => AssocMap.insert m x.1 x.2) []) key = lastData kvs key := by
  induction kvs using List.reverseRecOn with
  | nil => rfl
  | append_singleton kvs x ih =>
    rw [List.foldl_append, List.foldl_cons, List.foldl_nil, AssocMap.search_insert, ih, lastData_append]

def trieOf (kvs : List (Keyword × D)) : TrieNode (Pointer D) :=
  kvs.foldl (fun root x =>
    insertStringToTrie (insertStringToTrie root x.1 x.2) x.1.reverse x.2) trieCreate

def artOf (kvs : List (Keyword × D)) : List (Keyword × D) :=
  kvs.foldl (fun tree x => insertStringToArt (insertStringToArt tree x.1 x.2) x.1.reverse x.2) []

theorem trieFind_trieOf (kvs : List (Keyword × D)) (key : Keyword) :
    trieFind (trieOf kvs) key.text.bytes = trieData kvs key := by
  induction kvs using List.reverseRecOn with
  | nil => exact trieFind_create _
  | append_singleton kvs x ih =>
    rw [trieOf, List.foldl_append, List.foldl_cons, List.foldl_nil, trieFind_insertString]
    rw [trieOf] at ih
    rw [ih, trieData, trieData, List.foldl_append, List.foldl_cons, List.foldl_nil]

theorem search_artOf (kvs : List (Keyword × D)) (key : Keyword) :
    AssocMap.search (artOf kvs) key = artData kvs key := by
  induction kvs using List.reverseRecOn with
  | nil => rfl
  | append_singleton kvs x ih =>
    rw [artOf, List.foldl_append, List.foldl_cons, List.foldl_nil, search_insertStringToArt]
    rw [artOf] at ih
    rw [ih, artData, artData, List.foldl_append, List.foldl_cons, List.foldl_nil]

theorem trieData_append (kvs : List (Keyword × D)) (x : Keyword × D) (key : Keyword) :
    trieData (kvs ++ [x]) key = if x.1 = key then some (.data x.2)
      else if x.1.reverse = key then some .dangling else trieData kvs key := by
  rw [trieData, List.foldl_append]
  rfl

theorem trieData_of_palindromes {kvs : List (Keyword × D)} (h : ∀ x ∈ kvs, x.1.reverse = x.1)
    (key : Keyword) : trieData kvs key = (lastData kvs key).map .data := by
  induction kvs using List.reverseRecOn with
  | nil => rfl
  | append_singleton kvs x ih =>
    rw [trieData_append, lastData_append, ih fun y hy => h y (List.mem_append_left _ hy),
      h x (by simp)]
    split_ifs <;> rfl

/-- Of a key and its reversal, one is answered with a dangling pointer. -/
theorem trieData_dangling {kvs : List (Keyword × D)} {key : Keyword} (hne : key.reverse ≠ key)
    (h : ∃ x ∈ kvs, x.1 = key ∨ x.1.reverse = key) :
    trieData kvs key = some .dangling ∨ trieData kvs key.reverse = some .dangling := by
  induction kvs using List.reverseRecOn with
  | nil => simp at h
  | append_singleton kvs x ih =>
    rw [trieData_append, trieData_append]
    by_cases h₁ : x.1 = key
    · have h₂ : ¬ x.1 = key.reverse := fun h₂ => hne (h₂.symm.trans h₁)
      exact Or.inr (by rw [if_neg h₂, if_pos (by rw [h₁])])
    · by_cases h₂ : x.1.reverse = key
      · exact Or.inl (by rw [if_neg h₁, if_pos h₂])
      · have h₃ : ¬ x.1 = key.reverse := fun h₃ => h₂ (Keyword.reverse_eq_iff.mpr h₃)
        have h₄ : ¬ x.1.reverse = key.reverse := fun h₄ => h₁ (Keyword.reverse_inj.mp h₄)
        rw [if_neg h₁, if_neg h₂, if_neg h₃, if_neg h₄]
        apply ih
        obtain ⟨y, hy, hor⟩ := h
        rcases List.mem_append.mp hy with hy | hy
        · exact ⟨y, hy, hor⟩
        · obtain rfl := List.mem_singleton.mp hy
          exact absurd hor (not_or.mpr ⟨h₁, h₂⟩)

theorem artData_append (kvs : List (Keyword × D)) (x : Keyword × D) (key : Keyword) :
    artData (kvs ++ [x]) key = if x.1 = key ∨ x.1.reverse = key then some x.2 else artData kvs key := by
  rw [artData, List.foldl_append]
  rfl

theorem artData_reverse (kvs : List (Keyword × D)) (key : Keyword) :
    artData kvs key.reverse = artData kvs key := by
  induction kvs using List.reverseRecOn with
  | nil => rfl
  | append_singleton kvs x ih =>
    have hiff : (x.1 = key.reverse ∨ x.1.reverse = key.reverse) ↔ (x.1 = key ∨ x.1.reverse = key) := by
      rw [← Keyword.reverse_eq_iff, Keyword.reverse_inj, or_comm]
    rw [artData_append, artData_append, ih]
    simp only [hiff]

theorem artData_eq_lastData (kvs : List (Keyword × D)) (key : Keyword) :
    artData kvs key = lastData kvs key ∨ artData kvs key = lastData kvs key.reverse := by
  induction kvs using List.reverseRecOn with
  | nil => exact Or.inl rfl
  | append_singleton kvs x ih =>
    rw [artData_append, lastData_append, lastData_append]
    by_cases h₁ : x.1 = key
    · exact Or.inl (by rw [if_pos (Or.inl h₁), if_pos h₁])
    · by_cases h₂ : x.1.reverse = key
      · exact Or.inr (by rw [if_pos (Or.inr h₂), if_pos (Keyword.reverse_eq_iff.mp h₂)])
      · have h₃ : ¬ x.1 = key.reverse := fun h₃ => h₂ (Keyword.reverse_eq_iff.mpr h₃)
        rwa [if_neg (not_or.mpr ⟨h₁, h₂⟩), if_neg h₁, if_neg h₃]

theorem lastData_eq_none {kvs : List (Keyword × D)} {key : Keyword} (h : ∀ x ∈ kvs, x.1 ≠ key) :
    lastData kvs key = none := by
  have hnil : (kvs.filter fun x => x.1 = key) = [] := by
    simpa [List.filter_eq_nil_iff] using h
  rw [lastData, hnil]
  rfl

section Index
variable [Descent Keyword]

theorem insertStrings_hashtable (kvs : List (Keyword × D)) : insertStrings .hashtable kvs =
    .hashtable (kvs.foldl (fun m x => AssocMap.insert m x.1 x.2) []) := by
  induction kvs using List.reverseRecOn with
  | nil => rfl
  | append_singleton kvs x ih =>
    rw [insertStrings, List.foldl_append, ← insertStrings, ih, List.foldl_append]
    rfl

theorem insertStrings_sbst (kvs : List (Keyword × D)) : insertStrings .sbst kvs =
    .rbtree (kvs.foldl (fun m x => AssocMap.insert m x.1 x.2) []) := by
  induction kvs using List.reverseRecOn with
  | nil => rfl
  | append_singleton kvs x ih =>
    rw [insertStrings, List.foldl_append, ← insertStrings, ih, List.foldl_append]
    have hadd := add_eq_insert (finds_of_ordered orderedOn_string)
      libhlCmpKeysString_eq_zero (fun _ _ => trivial) (foldl_insert_nodup kvs) x.1 x.2
    exact congrArg StringIndex.rbtree hadd

theorem insertStrings_trie (kvs : List (Keyword × D)) : insertStrings .trie kvs = .trie (trieOf kvs) := by
  induction kvs using List.reverseRecOn with
  | nil => rfl
  | append_singleton kvs x ih =>
    rw [insertStrings, List.foldl_append, ← insertStrings, ih, trieOf, trieOf, List.foldl_append]
    rfl

theorem insertStrings_art (kvs : List (Keyword × D)) : insertStrings .art kvs = .art (artOf kvs) := by
  induction kvs using List.reverseRecOn with
  | nil => rfl
  | append_singleton kvs x ih =>
    rw [insertStrings, List.foldl_append, ← insertStrings, ih, artOf, artOf, List.foldl_append]
    rfl

theorem isMap_trie_iff (kvs : List (Keyword × D)) :
    IsMap .trie kvs ↔ ∀ x ∈ kvs, x.1.reverse = x.1 := by
  have hsearch : ∀ key, searchString (insertStrings .trie kvs) key = trieData kvs key := by
    intro key
    rw [insertStrings_trie]
    exact trieFind_trieOf kvs key
  have hdata : ∀ found : Option D, found.map Pointer.data ≠ some .dangling := by
    intro found
    cases found <;> simp
  constructor
  · intro h x hx
    by_contra hne
    rcases trieData_dangling hne ⟨x, hx, Or.inl rfl⟩ with hd | hd
    · rw [← hsearch, h] at hd
      exact hdata _ hd
    · rw [← hsearch, h] at hd
      exact hdata _ hd
  · intro h key
    rw [hsearch, trieData_of_palindromes h]

theorem isMap_art_iff (kvs : List (Keyword × D)) :
    IsMap .art kvs ↔ ∀ x ∈ kvs, lastData kvs x.1.reverse = lastData kvs x.1 := by
  have hsearch : ∀ key, searchString (insertStrings .art kvs) key = (artData kvs key).map .data := by
    intro key
    rw [insertStrings_art, searchString, search_artOf]
  have hinj : Function.Injective (Option.map (Pointer.data : D → Pointer D)) :=
    Option.map_injective fun a b hab => Pointer.data.inj hab
  constructor
  · intro h x _
    have hexact : ∀ key, artData kvs key = lastData kvs key := by
      intro key
      apply hinj
      rw [← hsearch, h]
    rw [← hexact, ← hexact, artData_reverse]
  · intro h key
    rw [hsearch]
    have hsame : lastData kvs key.reverse = lastData kvs key := by
      by_cases hkey : ∃ x ∈ kvs, x.1 = key ∨ x.1 = key.reverse
      · obtain ⟨x, hx, rfl | hrev⟩ := hkey
        · exact h x hx
        · have hx' := h x hx
          rw [hrev, Keyword.reverse_reverse] at hx'
          exact hx'.symm
      · have hnone : ∀ x ∈ kvs, x.1 ≠ key ∧ x.1 ≠ key.reverse := by
          intro x hx
          exact ⟨fun he => hkey ⟨x, hx, Or.inl he⟩, fun he => hkey ⟨x, hx, Or.inr he⟩⟩
        rw [lastData_eq_none fun x hx => (hnone x hx).1, lastData_eq_none fun x hx => (hnone x hx).2]
    rcases artData_eq_lastData kvs key with heq | heq
    · rw [heq]
    · rw [heq, hsame]

/-- The index is a map exactly when the reversed copies do no harm. -/
theorem string_index_is_map_iff (impl : StringIdxImpl) (kvs : List (Keyword × D)) :
    IsMap impl kvs ↔ ReversalHarmless kvs impl := by
  cases impl with
  | hashtable =>
    refine iff_of_true ?_ trivial
    intro key
    rw [insertStrings_hashtable, searchString, search_foldl_insert_eq]
  | sbst =>
    refine iff_of_true ?_ trivial
    intro key
    rw [insertStrings_sbst, searchString,
      lookup_eq_search (finds_of_ordered orderedOn_string) libhlCmpKeysString_eq_zero
        (fun _ _ => trivial) (foldl_insert_nodup kvs), search_foldl_insert_eq]
  | trie => exact isMap_trie_iff kvs
  | art => exact isMap_art_iff kvs

end Index

/-- With `ab` inserted, the radix tree finds `ba`. -/
theorem reversal_found_in_art :
    ¬ @IsMap Nat .oldest .art [(⟨⟨[97, 98], by decide⟩, by decide, by simp⟩, 1)] := by
  intro h
  have hba := h ⟨⟨[98, 97], by decide⟩, by decide, by simp⟩
  exact absurd hba (by decide)

end Miqs.StringSpi
