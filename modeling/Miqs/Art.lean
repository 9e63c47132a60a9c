import Mathlib.Data.List.Basic
import Mathlib.Data.List.GetD
import Mathlib.Data.UInt

/-! The iteration below a prefix in the adaptive radix tree. A node is given by the leaves
below it: its compressed path is what their keys share from its depth on, and its children
are told apart by the next character, for which a key that ends has its terminator. -/
namespace Miqs.Art
variable {V W : Type}

def commonPrefix : List UInt8 → List UInt8 → List UInt8
  | c :: s, c' :: s' => if c = c' then c :: commonPrefix s s' else []
  | _, _ => []

def sharedFrom (depth : Nat) : List (List UInt8) → List UInt8
  | [] => []
  | [key] => key.drop depth
  | key :: keys => commonPrefix (key.drop depth) (sharedFrom depth keys)

def compressedPath (below : List (List UInt8 × V)) (depth : Nat) : List UInt8 :=
  sharedFrom depth (below.map Prod.fst)

def prefixMismatch (below : List (List UInt8 × V)) (key : List UInt8) (depth : Nat) : Nat :=
  (commonPrefix (compressedPath below depth) (key.drop depth)).length

def findChild (below : List (List UInt8 × V)) (depth : Nat) (c : UInt8) : List (List UInt8 × V) :=
  below.filter fun leaf => leaf.1.getD depth 0 = c

def withPrefix (key : List UInt8) (below : List (List UInt8 × V)) : List (List UInt8 × V) :=
  below.filter fun leaf => key <+: leaf.1

/-- The loop of `art_iter_prefix`, with the leaves passed to the callback in no particular
order. It is `none` where the prefix is read behind its terminator. -/
def iterPrefixFrom (key : List UInt8) (below : List (List UInt8 × V)) (depth : Nat) :
    Option (List (List UInt8 × V)) :=
  -- NULL or a leaf
  if below.length ≤ 1 then some (withPrefix key below)
  else if depth = key.length then
    -- the keys agree up to this depth, so the first leaf can stand for the minimum
    some (if below.head?.any fun leaf => key <+: leaf.1 then below else [])
  else if compressedPath below depth ≠ [] ∧ prefixMismatch below key depth = 0 then some []
  else if compressedPath below depth ≠ [] ∧ depth + prefixMismatch below key depth = key.length then
    some below
  -- a path that matches only in part is followed to its end as well
  else if depth + (compressedPath below depth).length ≤ key.length then
    iterPrefixFrom key
      (findChild below (depth + (compressedPath below depth).length)
        (key.getD (depth + (compressedPath below depth).length) 0))
      (depth + (compressedPath below depth).length + 1)
  else none
termination_by key.length + 1 - depth

def artIterPrefix (tree : List (List UInt8 × V)) (key : List UInt8) : Option (List (List UInt8 × V)) :=
  iterPrefixFrom key tree 0

theorem commonPrefix_left (s s' : List UInt8) : commonPrefix s s' <+: s := by
  induction s generalizing s' with
  | nil => simp [commonPrefix]
  | cons c s ih =>
    cases s' with
    | nil => simp [commonPrefix]
    | cons c' s' =>
      rw [commonPrefix]
      split_ifs
      · exact List.cons_prefix_cons.mpr ⟨rfl, ih s'⟩
      · exact List.nil_prefix

theorem commonPrefix_comm (s s' : List UInt8) : commonPrefix s s' = commonPrefix s' s := by
  induction s generalizing s' with
  | nil => cases s' <;> rfl
  | cons c s ih =>
    cases s' with
    | nil => rfl
    | cons c' s' =>
      rw [commonPrefix, commonPrefix]
      by_cases hc : c = c'
      · rw [if_pos hc, if_pos hc.symm, hc, ih]
      · rw [if_neg hc, if_neg (Ne.symm hc)]

theorem commonPrefix_eq_left {s s' : List UInt8} (h : s <+: s') : commonPrefix s s' = s := by
  induction s generalizing s' with
  | nil => cases s' <;> rfl
  | cons c s ih =>
    obtain ⟨rest, rfl⟩ := h
    simp [commonPrefix, ih (List.prefix_append s rest)]

theorem sharedFrom_starts {depth : Nat} {keys : List (List UInt8)} {key : List UInt8} (h : key ∈ keys) :
    sharedFrom depth keys <+: key.drop depth := by
  fun_induction sharedFrom depth keys with
  | case1 => simp at h
  | case2 key' =>
    obtain rfl := List.mem_singleton.mp h
    exact List.prefix_rfl
  | case3 key' keys hne ih =>
    rcases List.mem_cons.mp h with rfl | h
    · exact commonPrefix_left _ _
    · rw [commonPrefix_comm]
      exact (commonPrefix_left _ _).trans (ih h)

theorem compressedPath_starts {below : List (List UInt8 × V)} {depth : Nat} {leaf : List UInt8 × V}
    (h : leaf ∈ below) : compressedPath below depth <+: leaf.1.drop depth :=
  sharedFrom_starts (List.mem_map_of_mem h)

section Map
variable (f : V → W)

theorem compressedPath_map (below : List (List UInt8 × V)) (depth : Nat) :
    compressedPath (below.map fun leaf => (leaf.1, f leaf.2)) depth = compressedPath below depth := by
  rw [compressedPath, List.map_map]
  rfl

theorem prefixMismatch_map (below : List (List UInt8 × V)) (key : List UInt8) (depth : Nat) :
    prefixMismatch (below.map fun leaf => (leaf.1, f leaf.2)) key depth = prefixMismatch below key depth := by
  rw [prefixMismatch, compressedPath_map, prefixMismatch]

theorem findChild_map (below : List (List UInt8 × V)) (depth : Nat) (c : UInt8) :
    findChild (below.map fun leaf => (leaf.1, f leaf.2)) depth c =
      (findChild below depth c).map fun leaf => (leaf.1, f leaf.2) := by
  rw [findChild, List.filter_map]
  rfl

theorem iterPrefixFrom_map (key : List UInt8) (below : List (List UInt8 × V)) (depth : Nat) :
    iterPrefixFrom key (below.map fun leaf => (leaf.1, f leaf.2)) depth =
      (iterPrefixFrom key below depth).map (List.map fun leaf => (leaf.1, f leaf.2)) := by
  fun_induction iterPrefixFrom key below depth with
  | case1 below depth hleaf =>
    rw [iterPrefixFrom, List.length_map, if_pos hleaf, withPrefix, List.filter_map]
    rfl
  | case2 below hnode =>
    rw [iterPrefixFrom, List.length_map, if_neg hnode, if_pos rfl, List.head?_map, Option.any_map]
    simp only [Option.map_some, apply_ite (List.map _), List.map_nil]
  | case3 below depth hnode hdepth hbail =>
    rw [iterPrefixFrom, List.length_map, if_neg hnode, if_neg hdepth, compressedPath_map,
      prefixMismatch_map, if_pos hbail]
    rfl
  | case4 below depth hnode hdepth hbail hmatched =>
    rw [iterPrefixFrom, List.length_map, if_neg hnode, if_neg hdepth, compressedPath_map,
      prefixMismatch_map, if_neg hbail, if_pos hmatched]
    rfl
  | case5 below depth hnode hdepth hbail hmatched hroom ih =>
    rw [iterPrefixFrom, List.length_map, if_neg hnode, if_neg hdepth, compressedPath_map,
      prefixMismatch_map, if_neg hbail, if_neg hmatched, if_pos hroom, findChild_map]
    exact ih
  | case6 below depth hnode hdepth hbail hmatched hroom =>
    rw [iterPrefixFrom, List.length_map, if_neg hnode, if_neg hdepth, compressedPath_map,
      prefixMismatch_map, if_neg hbail, if_neg hmatched, if_neg hroom]
    rfl

theorem artIterPrefix_map (tree : List (List UInt8 × V)) (key : List UInt8) :
    artIterPrefix (tree.map fun leaf => (leaf.1, f leaf.2)) key =
      (artIterPrefix tree key).map (List.map fun leaf => (leaf.1, f leaf.2)) :=
  iterPrefixFrom_map f key tree 0

end Map

section Match
variable {key : List UInt8} {below : List (List UInt8 × V)} {depth : Nat}

/-- Of the rest of the prefix and the compressed path, one begins with the other. -/
theorem path_or_rest (hmem : ∃ leaf ∈ below, key <+: leaf.1) :
    compressedPath below depth <+: key.drop depth ∨ key.drop depth <+: compressedPath below depth := by
  obtain ⟨leaf, hleaf, hkey⟩ := hmem
  exact List.prefix_or_prefix_of_prefix (compressedPath_starts hleaf) (hkey.drop depth)

theorem withPrefix_eq_self (h : ∀ leaf ∈ below, key <+: leaf.1) : withPrefix key below = below := by
  rw [withPrefix, List.filter_eq_self]
  exact fun leaf hleaf => decide_eq_true (h leaf hleaf)

theorem take_add_starts {key leaf : List UInt8} {depth n : Nat} (hdepth : depth ≤ key.length)
    (htake : key.take depth <+: leaf) (hdrop : (key.drop depth).take n <+: leaf.drop depth) :
    key.take (depth + n) <+: leaf := by
  have hleaf := List.prefix_iff_eq_append.mp htake
  rw [List.length_take_of_le hdepth] at hleaf
  rw [← hleaf, List.take_add]
  exact (List.prefix_append_right_inj _).mpr hdrop

theorem take_succ_starts {key leaf : List UInt8} {depth : Nat} (hkey : 0 ∉ key) (hdepth : depth < key.length)
    (htake : key.take depth <+: leaf) (hnext : leaf.getD depth 0 = key.getD depth 0) :
    key.take (depth + 1) <+: leaf := by
  have hc : key.getD depth 0 = key[depth] := List.getD_eq_getElem key 0 hdepth
  have hlt : depth < leaf.length := by
    by_contra hge
    rw [List.getD_eq_default _ _ (by omega), hc] at hnext
    exact hkey (hnext ▸ List.getElem_mem hdepth)
  apply take_add_starts hdepth.le htake
  rw [List.getD_eq_getElem _ 0 hlt, hc] at hnext
  rw [List.drop_eq_getElem_cons hdepth, List.drop_eq_getElem_cons hlt, hnext]
  exact List.cons_prefix_cons.mpr ⟨rfl, List.nil_prefix⟩

theorem prefixMismatch_eq (hmem : ∃ leaf ∈ below, key <+: leaf.1) :
    prefixMismatch below key depth = min (compressedPath below depth).length (key.length - depth) := by
  rw [prefixMismatch, ← List.length_drop]
  rcases path_or_rest hmem with h | h
  · rw [commonPrefix_eq_left h, min_eq_left h.length_le]
  · rw [commonPrefix_comm, commonPrefix_eq_left h, min_eq_right h.length_le]

theorem getD_of_starts {key leaf : List UInt8} {depth : Nat} (h : key <+: leaf) (hdepth : depth < key.length) :
    leaf.getD depth 0 = key.getD depth 0 := by
  obtain ⟨rest, rfl⟩ := h
  exact List.getD_append key rest 0 depth hdepth

/-- The leaves with the prefix are all below the child of its next character. -/
theorem withPrefix_findChild (hdepth : depth < key.length) :
    withPrefix key (findChild below depth (key.getD depth 0)) = withPrefix key below := by
  rw [withPrefix, findChild, List.filter_filter, withPrefix]
  apply List.filter_congr
  intro leaf _
  by_cases hpre : key <+: leaf.1
  · simp only [hpre, getD_of_starts hpre hdepth, decide_true, Bool.and_self]
  · simp only [hpre, decide_false, Bool.false_and]

/-- A path that does not cover the rest of the prefix is a part of it. -/
theorem path_lt_of_not_matched (hne : depth ≠ key.length) (hdepth : depth ≤ key.length)
    (hmem : ∃ leaf ∈ below, key <+: leaf.1)
    (h : ¬ (compressedPath below depth ≠ [] ∧ depth + prefixMismatch below key depth = key.length)) :
    depth + (compressedPath below depth).length < key.length ∧
      compressedPath below depth <+: key.drop depth := by
  rw [prefixMismatch_eq hmem] at h
  have hlt : depth + (compressedPath below depth).length < key.length := by
    by_cases hpath : compressedPath below depth = []
    · rw [hpath, List.length_nil]
      omega
    · have hmin : ¬ depth + min (compressedPath below depth).length (key.length - depth) = key.length :=
        fun heq => h ⟨hpath, heq⟩
      omega
  refine ⟨hlt, ?_⟩
  rcases path_or_rest hmem with hpre | hpre
  · exact hpre
  · have hlen := hpre.length_le
    rw [List.length_drop] at hlen
    omega

theorem iterPrefixFrom_of_mem (hkey : 0 ∉ key) (hdepth : depth ≤ key.length)
    (hbelow : ∀ leaf ∈ below, key.take depth <+: leaf.1) (hmem : ∃ leaf ∈ below, key <+: leaf.1) :
    iterPrefixFrom key below depth = some (withPrefix key below) := by
  -- down to this depth the prefix is matched, so the next path is matched or covers the rest
  fun_induction iterPrefixFrom key below depth with
  | case1 below depth hleaf => rfl
  | case2 below hnode =>
    rw [List.take_length] at hbelow
    rw [withPrefix_eq_self hbelow]
    cases below with
    | nil => rfl
    | cons leaf below => simp [hbelow leaf (by simp)]
  | case3 below depth hnode hne hbail =>
    rw [prefixMismatch_eq hmem] at hbail
    have hpath := List.length_pos_iff.mpr hbail.1
    omega
  | case4 below depth hnode hne hbail hmatched =>
    rw [prefixMismatch_eq hmem] at hmatched
    have hrest : key.drop depth <+: compressedPath below depth := by
      rcases path_or_rest hmem with h | h
      · have hlen := h.length_le
        rw [List.length_drop] at hlen
        rw [h.eq_of_length (by rw [List.length_drop]; omega)]
      · exact h
    rw [withPrefix_eq_self]
    intro leaf hleaf
    have htake := take_add_starts hdepth (hbelow leaf hleaf)
      ((List.take_prefix (key.length - depth) _).trans (hrest.trans (compressedPath_starts hleaf)))
    rwa [Nat.add_sub_cancel' hdepth, List.take_length] at htake
  | case5 below depth hnode hne hbail hmatched hroom ih =>
    have hshort := path_lt_of_not_matched hne hdepth hmem hmatched
    have hpath : ∀ leaf ∈ below, key.take (depth + (compressedPath below depth).length) <+: leaf.1 := by
      intro leaf hleaf
      apply take_add_starts hdepth (hbelow leaf hleaf)
      rw [← List.prefix_iff_eq_take.mp hshort.2]
      exact compressedPath_starts hleaf
    rw [ih hshort.1 ?_ ?_, withPrefix_findChild hshort.1]
    · intro leaf hleaf
      obtain ⟨hleaf, hnext⟩ := List.mem_filter.mp hleaf
      exact take_succ_starts hkey hshort.1 (hpath leaf hleaf) (of_decide_eq_true hnext)
    · obtain ⟨leaf, hleaf, hpre⟩ := hmem
      exact ⟨leaf, List.mem_filter.mpr ⟨hleaf, decide_eq_true (getD_of_starts hpre hshort.1)⟩, hpre⟩
  | case6 below depth hnode hne hbail hmatched hroom =>
    exact absurd (path_lt_of_not_matched hne hdepth hmem hmatched).1.le hroom

/-- If a key has the prefix then the leaves of all such keys are visited and no others. -/
theorem artIterPrefix_of_mem {tree : List (List UInt8 × V)} (hkey : 0 ∉ key)
    (hmem : ∃ leaf ∈ tree, key <+: leaf.1) : artIterPrefix tree key = some (withPrefix key tree) := by
  apply iterPrefixFrom_of_mem hkey (Nat.zero_le _) _ hmem
  intro leaf _
  exact List.nil_prefix

end Match

end Miqs.Art
