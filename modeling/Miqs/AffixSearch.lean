import Miqs.Art
import Miqs.StringSpi
import Miqs.StringUtils
import Miqs.TrieIteration

/-! Affix searches over the four data structures of the string index. Stored keys are read as
NUL-terminated strings. -/
namespace Miqs.StringSpi
open Miqs.CData Miqs.KeyedTree Miqs.Trie Miqs.Art Miqs.StringUtils
variable {D : Type}

def str (visited : CharSeq) : Option CString :=
  if 0 ∈ (List.range visited.seqLen).map visited.seq then
    some (CString.ofBytes ((List.range visited.seqLen).map visited.seq))
  else none

def reverseStr (s : CString) : CString := ⟨s.bytes.reverse, fun h => s.nulFree (List.mem_reverse.mp h)⟩

def trieInfixMatches (calls : List (CharSeq × Pointer D)) (infixStr : CString) :
    Option (List (Pointer D)) :=
  (calls.mapM fun call => (str call.1).map fun key => (key, call.2)).map fun found =>
    (found.filter fun e => contains e.1 infixStr).map Prod.snd

def searchAffixInTrie (junk : Nat → UInt8) (root : TrieNode (Pointer D)) (afxType : AffixType)
    (affix : CString) : Option (List (Pointer D)) :=
  match afxType with
  | .patternMiddle => trieInfixMatches (trieIterAll junk root) affix
  | .patternPrefix => (trieIterPrefix junk root affix.bytes).map (List.map Prod.snd)
  | .patternSuffix => (trieIterPrefix junk root (reverseStr affix).bytes).map (List.map Prod.snd)

def infixCallback (infixStr : Option CString) (key : Keyword) (value : D) : List (Pointer D) :=
  match infixStr with
  | none => []
  | some infixStr => if contains key.text infixStr then [.data value] else []

/-- The argument of `infix_callback` is allocated but never filled in. -/
def searchAffixInArt (tree : List (Keyword × D)) (afxType : AffixType)
    (affix : CString) : Option (List (Pointer D)) :=
  match afxType with
  | .patternMiddle => some (tree.flatMap fun e => infixCallback none e.1 e.2)
  | _ => (artIterPrefix (tree.map fun e => (e.1.text.bytes, e.2)) affix.bytes).map
    (List.map fun leaf => .data leaf.2)

section Search
variable [Descent Keyword] [AssocMap.Iteration Keyword]

def affixMatches (entries : List (Keyword × D)) (afxType : AffixType) (affix : CString) :
    List (Pointer D) :=
  (entries.filter fun e => isMatchingGivenAffix e.1.text afxType affix).map fun e => .data e.2

def searchAffix (junk : Nat → UInt8) (idx : StringIndex D) (afxType : AffixType) (affix : CString) :
    Option (List (Pointer D)) :=
  match idx with
  | .hashtable table => some (affixMatches (AssocMap.iter table) afxType affix)
  | .rbtree nodes => some (affixMatches (walk libhlCmpKeysString nodes) afxType affix)
  | .trie root => searchAffixInTrie junk root afxType affix
  | .art tree => searchAffixInArt tree afxType affix

def matching (keys : List Keyword) (afxType : AffixType) (affix : CString) : List Keyword :=
  keys.filter fun key => isMatchingGivenAffix key.text afxType affix

def AffixExact (impl : StringIdxImpl) (keys : List Keyword) (afxType : AffixType) (affix : CString) : Prop :=
  ∀ (D : Type) (data : Keyword → D) (junk : Nat → UInt8),
    ∃ found, searchAffix junk (insertStrings impl (keys.map fun key => (key, data key))) afxType affix =
        some found ∧
      found.Perm ((matching keys afxType affix).map fun key => .data (data key))

end Search

/-- The last call that concerns a string: whether it was with the string itself. -/
def lastTouch (keys : List Keyword) (s : Keyword) : Option Bool :=
  keys.foldl (fun touch key => if key = s then some true else if key.reverse = s then some false
    else touch) none

def winner (keys : List Keyword) (s : Keyword) : Keyword :=
  if lastTouch keys s = some true then s else s.reverse

def storedOf (keys : List Keyword) : List Keyword :=
  (artOf (keys.map fun key => (key, key))).map Prod.fst

theorem lastTouch_append (keys : List Keyword) (key s : Keyword) : lastTouch (keys ++ [key]) s =
    if key = s then some true else if key.reverse = s then some false else lastTouch keys s := by
  rw [lastTouch, List.foldl_append]
  rfl

theorem lastTouch_eq_none_iff {keys : List Keyword} {s : Keyword} :
    lastTouch keys s = none ↔ s ∉ keys ∧ s.reverse ∉ keys := by
  induction keys using List.reverseRecOn with
  | nil => simp [lastTouch]
  | append_singleton keys key ih =>
    rw [lastTouch_append]
    by_cases h₁ : key = s
    · simp [h₁]
    · by_cases h₂ : key.reverse = s
      · simp [h₁, h₂, ← Keyword.reverse_eq_iff.mp h₂]
      · have h₃ : ¬ s.reverse = key := fun h₃ => h₂ (Keyword.reverse_eq_iff.mpr h₃.symm)
        simp [h₁, h₂, ih, h₃, Ne.symm h₁]

/-- What touched the string last was inserted: the string itself, or its reversal. -/
theorem toucher_mem {keys : List Keyword} {s : Keyword} {asKey : Bool}
    (h : lastTouch keys s = some asKey) : (if asKey then s else s.reverse) ∈ keys := by
  induction keys using List.reverseRecOn with
  | nil => simp [lastTouch] at h
  | append_singleton keys key ih =>
    rw [lastTouch_append] at h
    split_ifs at h with h₁ h₂
    · cases h
      simp [h₁]
    · cases h
      simp [Keyword.reverse_eq_iff.mp h₂]
    · exact List.mem_append_left _ (ih h)

theorem mem_of_lastTouch {keys : List Keyword} {s : Keyword} (h : lastTouch keys s = some true) :
    s ∈ keys := by
  simpa using toucher_mem h

theorem reverse_mem_of_lastTouch {keys : List Keyword} {s : Keyword}
    (h : lastTouch keys s = some false) : s.reverse ∈ keys := by
  simpa using toucher_mem h

theorem lastTouch_of_palindrome {keys : List Keyword} {s : Keyword} (hs : s.reverse = s) (h : s ∈ keys) :
    lastTouch keys s = some true := by
  induction keys using List.reverseRecOn with
  | nil => simp at h
  | append_singleton keys key ih =>
    rw [lastTouch_append]
    by_cases h₁ : key = s
    · rw [if_pos h₁]
    · have h₂ : ¬ key.reverse = s := by
        rw [Keyword.reverse_eq_iff, hs]
        exact h₁
      rw [if_neg h₁, if_neg h₂]
      exact ih (by simpa [Ne.symm h₁] using h)

/-- A string and its reversal are not both touched last by themselves. -/
theorem palindrome_of_lastTouch {keys : List Keyword} {s : Keyword} (h : lastTouch keys s = some true)
    (h' : lastTouch keys s.reverse = some true) : s.reverse = s := by
  induction keys using List.reverseRecOn with
  | nil => simp [lastTouch] at h
  | append_singleton keys key ih =>
    rw [lastTouch_append] at h h'
    by_cases h₁ : key = s
    · by_cases h₂ : key = s.reverse
      · exact h₂.symm.trans h₁
      · rw [if_neg h₂, if_pos (by rw [h₁])] at h'
        simp at h'
    · by_cases h₂ : key.reverse = s
      · rw [if_neg h₁, if_pos h₂] at h
        simp at h
      · have h₃ : ¬ key = s.reverse := fun h₃ => h₂ (Keyword.reverse_eq_iff.mpr h₃)
        rw [if_neg h₁, if_neg h₂] at h
        rw [if_neg h₃, if_neg fun h₄ => h₁ (Keyword.reverse_inj.mp h₄)] at h'
        exact ih h h'

section Stored
variable (keys : List Keyword) (data : Keyword → D)

theorem trieData_eq (s : Keyword) : trieData (keys.map fun key => (key, data key)) s =
    (lastTouch keys s).map fun own => if own then .data (data s) else .dangling := by
  induction keys using List.reverseRecOn with
  | nil => rfl
  | append_singleton keys key ih =>
    rw [List.map_append, List.map_singleton, trieData_append, ih, lastTouch_append]
    dsimp only
    split_ifs with h₁ h₂
    · rw [h₁]
      rfl
    · rfl
    · rfl

theorem artData_eq (s : Keyword) : artData (keys.map fun key => (key, data key)) s =
    (lastTouch keys s).map fun own => data (if own then s else s.reverse) := by
  induction keys using List.reverseRecOn with
  | nil => rfl
  | append_singleton keys key ih =>
    rw [List.map_append, List.map_singleton, artData_append, ih, lastTouch_append]
    dsimp only
    by_cases h₁ : key = s
    · rw [if_pos (Or.inl h₁), if_pos h₁, h₁]
      rfl
    · by_cases h₂ : key.reverse = s
      · rw [if_pos (Or.inr h₂), if_neg h₁, if_pos h₂, Keyword.reverse_eq_iff.mp h₂]
        rfl
      · rw [if_neg (not_or.mpr ⟨h₁, h₂⟩), if_neg h₁, if_neg h₂]

theorem keys_artOf : (artOf (keys.map fun key => (key, data key))).map Prod.fst = storedOf keys := by
  rw [storedOf]
  induction keys using List.reverseRecOn with
  | nil => rfl
  | append_singleton keys key ih =>
    simp only [artOf, List.map_append, List.map_singleton, List.foldl_append, List.foldl_cons,
      List.foldl_nil, insertStringToArt, AssocMap.keys_insert] at ih ⊢
    rw [ih]

theorem nodup_storedOf : (storedOf keys).Nodup := by
  rw [storedOf]
  induction keys using List.reverseRecOn with
  | nil => exact List.nodup_nil
  | append_singleton keys key ih =>
    rw [artOf, List.map_append, List.foldl_append]
    exact AssocMap.nodup_insert (AssocMap.nodup_insert ih key key) key.reverse key

theorem mem_storedOf {s : Keyword} : s ∈ storedOf keys ↔ s ∈ keys ∨ s.reverse ∈ keys := by
  rw [storedOf]
  induction keys using List.reverseRecOn with
  | nil => simp [artOf]
  | append_singleton keys key ih =>
    rw [artOf, List.map_append, List.foldl_append, List.map_singleton, List.foldl_cons, List.foldl_nil]
    rw [insertStringToArt, insertStringToArt, AssocMap.mem_keys_insert, AssocMap.mem_keys_insert,
      ← artOf, ih]
    rw [List.mem_append, List.mem_append, List.mem_singleton, List.mem_singleton,
      @Keyword.reverse_eq_iff s]
    tauto

/-- The radix tree holds each string with the data of its winner. -/
theorem artOf_eq : artOf (keys.map fun key => (key, data key)) =
    (storedOf keys).map fun s => (s, data (winner keys s)) := by
  have hnodup : ((artOf (keys.map fun key => (key, data key))).map Prod.fst).Nodup := by
    rw [keys_artOf]
    exact nodup_storedOf keys
  have hentry : ∀ e ∈ artOf (keys.map fun key => (key, data key)), (e.1, data (winner keys e.1)) = e := by
    rintro ⟨s, d⟩ he
    have hsearch := AssocMap.search_of_mem hnodup he
    rw [search_artOf, artData_eq] at hsearch
    obtain ⟨own, hown, hd⟩ := Option.map_eq_some_iff.mp hsearch
    rw [← hd, winner, hown]
    cases own <;> simp
  rw [← keys_artOf keys data, List.map_map]
  symm
  exact (List.map_congr_left hentry).trans (List.map_id _)

def triePointer (s : Keyword) : Pointer D :=
  if lastTouch keys s = some true then .data (data s) else .dangling

theorem ok_trieOf (kvs : List (Keyword × D)) : (trieOf kvs).child.Ok := by
  induction kvs using List.reverseRecOn with
  | nil => trivial
  | append_singleton kvs x ih =>
    rw [trieOf, List.foldl_append]
    have hstep : ∀ {root : TrieNode (Pointer D)}, root.child.Ok → ∀ (key : Keyword) (d : D),
        (insertStringToTrie root key d).child.Ok := by
      intro root hroot key d
      exact ok_insert (ok_insert hroot key.text.nulFree _) key.reverse.text.nulFree _
    exact hstep (hstep ih x.1 x.2) x.1.reverse x.2

theorem exists_keyword_of_trieFind (kvs : List (Keyword × D)) {b : List UInt8} {p : Pointer D}
    (h : trieFind (trieOf kvs) b = some p) : ∃ s : Keyword, s.text.bytes = b := by
  induction kvs using List.reverseRecOn with
  | nil =>
    rw [show trieOf ([] : List (Keyword × D)) = trieCreate from rfl, trieFind_create] at h
    simp at h
  | append_singleton kvs x ih =>
    rw [trieOf, List.foldl_append] at h
    change trieFind (insertStringToTrie (insertStringToTrie (trieOf kvs) x.1 x.2) x.1.reverse x.2) b =
      some p at h
    simp only [insertStringToTrie, trieFind_insert] at h
    split_ifs at h with h₁ h₂ h₃
    · exact ⟨_, h₁⟩
    · exact ⟨_, h₂⟩
    · exact ⟨_, h₃⟩
    · exact ih h

/-- The trie holds each string with its pointer. -/
theorem entries_trieOf : (trieOf (keys.map fun key => (key, data key))).entries.Perm
    ((storedOf keys).map fun s => (s.text.bytes, triePointer keys data s)) := by
  have hok := ok_trieOf (keys.map fun key => (key, data key))
  have hinj : Function.Injective fun s : Keyword => (s.text.bytes, triePointer keys data s) := by
    intro s s' heq
    exact Keyword.bytes_inj.mp (Prod.mk.inj heq).1
  refine (List.perm_ext_iff_of_nodup ((nodup_entries hok).of_map _)
    ((nodup_storedOf keys).map hinj)).mpr ?_
  rintro ⟨b, p⟩
  rw [mem_entries_iff hok, List.mem_map]
  constructor
  · intro hfind
    obtain ⟨s, rfl⟩ := exists_keyword_of_trieFind _ hfind
    rw [trieFind_trieOf, trieData_eq] at hfind
    obtain ⟨own, hown, rfl⟩ := Option.map_eq_some_iff.mp hfind
    refine ⟨s, ?_, ?_⟩
    · by_contra hs
      rw [mem_storedOf, not_or, ← lastTouch_eq_none_iff, hown] at hs
      simp at hs
    · rw [triePointer, hown]
      cases own <;> simp
  · rintro ⟨s, hs, heq⟩
    obtain ⟨rfl, rfl⟩ := Prod.mk.inj heq
    rw [trieFind_trieOf, trieData_eq]
    cases htouch : lastTouch keys s with
    | none =>
      rw [lastTouch_eq_none_iff] at htouch
      rw [mem_storedOf] at hs
      exact absurd hs (not_or.mpr htouch)
    | some own =>
      rw [triePointer, htouch]
      cases own <;> simp

end Stored

end Miqs.StringSpi
