import Miqs.Art

/-! Where the iteration below a prefix goes if no key has the prefix. A compressed path that matches
only in part is followed to its end, so that the walk may go on to other keys. -/
namespace Miqs.Art
variable {V : Type}

def SplitsAt (keys : List (List UInt8)) (t : List UInt8) (i : Nat) : Prop :=
  ∃ s ∈ keys, s.take i = t.take i ∧ s.getD i 0 ≠ t.getD i 0

def Followed (keys : List (List UInt8)) (key t : List UInt8) : Prop :=
  ∀ i < key.length, t.getD i 0 ≠ key.getD i 0 →
    0 < i ∧ ¬ SplitsAt keys t (i - 1) ∧ ¬ SplitsAt keys t i

def Accompanied (keys : List (List UInt8)) (key t : List UInt8) : Prop :=
  ∃ s ∈ keys, s ≠ t ∧ s.take key.length = t.take key.length

/-- The prefix differs from the key inside compressed paths only, and not in the last one, which the
key shares with another. -/
structure Strayed (keys : List (List UInt8)) (key t : List UInt8) : Prop where
  followed : Followed keys key t
  accompanied : Accompanied keys key t
  inside : ¬ SplitsAt keys t (key.length - 1)
  later : ∀ i < key.length, t.getD i 0 ≠ key.getD i 0 → ∃ j < key.length, i < j ∧ SplitsAt keys t j

structure RunsOut (keys : List (List UInt8)) (key t : List UInt8) : Prop where
  followed : Followed keys key t
  accompanied : Accompanied keys key t
  last : ∃ i < key.length, t.getD i 0 ≠ key.getD i 0 ∧ ∀ j ≤ key.length, i < j → ¬ SplitsAt keys t j

instance (keys : List (List UInt8)) (t : List UInt8) (i : Nat) : Decidable (SplitsAt keys t i) :=
  inferInstanceAs (Decidable (∃ s ∈ keys, s.take i = t.take i ∧ s.getD i 0 ≠ t.getD i 0))

instance (keys : List (List UInt8)) (key t : List UInt8) : Decidable (Followed keys key t) :=
  inferInstanceAs (Decidable (∀ i < key.length, t.getD i 0 ≠ key.getD i 0 →
    0 < i ∧ ¬ SplitsAt keys t (i - 1) ∧ ¬ SplitsAt keys t i))

instance (keys : List (List UInt8)) (key t : List UInt8) : Decidable (Accompanied keys key t) :=
  inferInstanceAs (Decidable (∃ s ∈ keys, s ≠ t ∧ s.take key.length = t.take key.length))

instance (keys : List (List UInt8)) (key t : List UInt8) : Decidable (Strayed keys key t) :=
  decidable_of_iff (Followed keys key t ∧ Accompanied keys key t ∧ ¬ SplitsAt keys t (key.length - 1) ∧
      ∀ i < key.length, t.getD i 0 ≠ key.getD i 0 → ∃ j < key.length, i < j ∧ SplitsAt keys t j)
    ⟨fun ⟨hf, ha, hi, hl⟩ => ⟨hf, ha, hi, hl⟩, fun ⟨hf, ha, hi, hl⟩ => ⟨hf, ha, hi, hl⟩⟩

theorem getD_take {l : List UInt8} {i n : Nat} (h : i < n) : (l.take n).getD i 0 = l.getD i 0 := by
  simp [h]

theorem getD_of_take_eq {s t : List UInt8} {i n : Nat} (h : s.take n = t.take n) (hi : i < n) :
    s.getD i 0 = t.getD i 0 := by
  rw [← getD_take hi, h, getD_take hi]

theorem take_of_take_eq {s t : List UInt8} {m n : Nat} (h : s.take n = t.take n) (hm : m ≤ n) :
    s.take m = t.take m := by
  have htake := congrArg (List.take m) h
  rwa [List.take_take, List.take_take, min_eq_left hm] at htake

theorem take_succ_eq {s t : List UInt8} {n : Nat} (h : s.take n = t.take n) (hn : s.getD n 0 = t.getD n 0)
    (hs : 0 ∉ s) (ht : 0 ∉ t) : s.take (n + 1) = t.take (n + 1) := by
  have hlt : n < s.length ↔ n < t.length := by
    have hchar : ∀ l : List UInt8, 0 ∉ l → (n < l.length ↔ l.getD n 0 ≠ 0) := by
      intro l hl
      constructor
      · intro hn hz
        rw [List.getD_eq_getElem l 0 hn] at hz
        exact hl (hz ▸ List.getElem_mem hn)
      · intro hz
        by_contra hge
        exact hz (List.getD_eq_default _ _ (by omega))
    rw [hchar s hs, hchar t ht, hn]
  by_cases hlen : n < s.length
  · have hget := hn
    rw [List.getD_eq_getElem s 0 hlen, List.getD_eq_getElem t 0 (hlt.mp hlen)] at hget
    rw [List.take_succ_eq_append_getElem hlen, List.take_succ_eq_append_getElem (hlt.mp hlen), h, hget]
  · have hlen' : ¬ n < t.length := fun hlt' => hlen (hlt.mpr hlt')
    rw [List.take_of_length_le (by omega), List.take_of_length_le (by omega)]
    rwa [List.take_of_length_le (by omega), List.take_of_length_le (by omega)] at h

theorem eq_of_take_eq {s t : List UInt8} {n : Nat} (h : s.take n = t.take n) (hs : s.length ≤ n)
    (ht : t.length ≤ n) : s = t := by
  rwa [List.take_of_length_le hs, List.take_of_length_le ht] at h

theorem le_commonPrefix {p s s' : List UInt8} (h : p <+: s) (h' : p <+: s') : p <+: commonPrefix s s' := by
  induction p generalizing s s' with
  | nil => exact List.nil_prefix
  | cons c p ih =>
    obtain ⟨rest, rfl⟩ := h
    obtain ⟨rest', rfl⟩ := h'
    simp only [List.cons_append, commonPrefix, if_true]
    exact List.cons_prefix_cons.mpr ⟨rfl, ih (List.prefix_append p rest) (List.prefix_append p rest')⟩

theorem le_sharedFrom {depth : Nat} {keys : List (List UInt8)} (hne : keys ≠ []) {p : List UInt8}
    (h : ∀ key ∈ keys, p <+: key.drop depth) : p <+: sharedFrom depth keys := by
  fun_induction sharedFrom depth keys with
  | case1 => exact absurd rfl hne
  | case2 key => exact h key (by simp)
  | case3 key keys hkeys ih =>
    exact le_commonPrefix (h key (by simp))
      (ih (fun hnil => hkeys hnil) fun k hk => h k (List.mem_cons_of_mem key hk))

/-- Behind the common part the next characters differ. -/
theorem commonPrefix_next {s s' : List UInt8} (h : (commonPrefix s s').length < s.length)
    (h' : (commonPrefix s s').length < s'.length) :
    s.getD (commonPrefix s s').length 0 ≠ s'.getD (commonPrefix s s').length 0 := by
  induction s generalizing s' with
  | nil => simp at h
  | cons c s ih =>
    cases s' with
    | nil => simp at h'
    | cons c' s' =>
      by_cases hc : c = c'
      · simp only [commonPrefix, hc, if_true, List.length_cons, Nat.add_lt_add_iff_right] at h h' ⊢
        exact ih h h'
      · simp [commonPrefix, hc]

structure IsNode (tree below : List (List UInt8 × V)) (depth : Nat) : Prop where
  sublist : below.Sublist tree
  mem_iff : ∀ t ∈ below, ∀ s ∈ tree, s ∈ below ↔ s.1.take depth = t.1.take depth

section Node
variable {tree below : List (List UInt8 × V)} {key : List UInt8} {depth : Nat}

theorem getD_path {t : List UInt8 × V} (ht : t ∈ below) {i : Nat}
    (hi : i < (compressedPath below depth).length) :
    t.1.getD (depth + i) 0 = (compressedPath below depth).getD i 0 := by
  obtain ⟨rest, hrest⟩ := @compressedPath_starts _ below depth t ht
  have hdrop : t.1.getD (depth + i) 0 = (t.1.drop depth).getD i 0 := by simp
  rw [hdrop, ← hrest, List.getD_append _ _ _ _ hi]

theorem IsNode.take_path (h : IsNode tree below depth) {s t : List UInt8 × V} (hs : s ∈ below)
    (ht : t ∈ below) : s.1.take (depth + (compressedPath below depth).length) =
      t.1.take (depth + (compressedPath below depth).length) := by
  have hpath : ∀ t ∈ below, (t.1.drop depth).take (compressedPath below depth).length =
      compressedPath below depth :=
    fun t ht => (List.prefix_iff_eq_take.mp (compressedPath_starts ht)).symm
  rw [List.take_add, List.take_add, hpath s hs, hpath t ht,
    (h.mem_iff t ht s (h.sublist.subset hs)).mp hs]

/-- No key branches off inside the path of a node. -/
theorem IsNode.not_splits (h : IsNode tree below depth) {t : List UInt8 × V} (ht : t ∈ below) {i : Nat}
    (hi : depth ≤ i) (hlt : i < depth + (compressedPath below depth).length) :
    ¬ SplitsAt (tree.map Prod.fst) t.1 i := by
  rintro ⟨s, hs, htake, hne⟩
  obtain ⟨s, hmem, rfl⟩ := List.mem_map.mp hs
  have hbelow := (h.mem_iff t ht s hmem).mpr (take_of_take_eq htake hi)
  exact hne (getD_of_take_eq (h.take_path hbelow ht) hlt)

theorem exists_ne_of_length (hnodup : below.Nodup) (hlen : ¬ below.length ≤ 1) (t : List UInt8 × V) :
    ∃ s ∈ below, s ≠ t := by
  by_contra hall
  push Not at hall
  have hsub : below.Subperm [t] := hnodup.subperm fun s hs => by simpa using hall s hs
  exact hlen (by simpa using hsub.length_le)

/-- Behind the path of a node with several leaves some key branches off. -/
theorem IsNode.splits (h : IsNode tree below depth) (hnodup : (tree.map Prod.fst).Nodup)
    (hnul : ∀ leaf ∈ tree, 0 ∉ leaf.1) (hlen : ¬ below.length ≤ 1) {t : List UInt8 × V} (ht : t ∈ below) :
    SplitsAt (tree.map Prod.fst) t.1 (depth + (compressedPath below depth).length) := by
  by_contra hno
  generalize hend : depth + (compressedPath below depth).length = n at hno
  have hall : ∀ s ∈ below, s.1.take (n + 1) = t.1.take (n + 1) := by
    intro s hs
    have hmem := h.sublist.subset hs
    have htake : s.1.take n = t.1.take n := hend ▸ h.take_path hs ht
    refine take_succ_eq htake ?_ (hnul s hmem) (hnul t (h.sublist.subset ht))
    by_contra hne
    exact hno ⟨s.1, List.mem_map_of_mem hmem, htake, hne⟩
  obtain ⟨s, hs, hne⟩ := exists_ne_of_length ((hnodup.of_map _).sublist h.sublist) hlen t
  have hkeys : s.1 ≠ t.1 := fun heq =>
    hne (List.inj_on_of_nodup_map hnodup (h.sublist.subset hs) (h.sublist.subset ht) heq)
  by_cases hlong : n < t.1.length
  · have hpath : (t.1.drop depth).take ((compressedPath below depth).length + 1) <+:
        compressedPath below depth := by
      refine le_sharedFrom (by simpa using List.ne_nil_of_mem ht) ?_
      simp only [List.forall_mem_map]
      intro s hs
      have htake : (s.1.drop depth).take ((compressedPath below depth).length + 1) =
          (t.1.drop depth).take ((compressedPath below depth).length + 1) := by
        rw [List.take_drop, List.take_drop, ← Nat.add_assoc, hend, hall s hs]
      rw [← htake]
      exact List.take_prefix _ _
    have hlength := hpath.length_le
    rw [List.length_take, List.length_drop] at hlength
    omega
  · refine hkeys (eq_of_take_eq (hall s hs) ?_ (by omega))
    have hlength := congrArg List.length (hall s hs)
    rw [List.length_take, List.length_take] at hlength
    omega

structure Walked (tree below : List (List UInt8 × V)) (key : List UInt8) (depth : Nat) : Prop
    extends IsNode tree below depth where
  followed : ∀ t ∈ below, ∀ i < depth, t.1.getD i 0 ≠ key.getD i 0 →
    0 < i ∧ ¬ SplitsAt (tree.map Prod.fst) t.1 (i - 1) ∧ ¬ SplitsAt (tree.map Prod.fst) t.1 i
  entry : ∀ t ∈ below, depth = 0 ∨ SplitsAt (tree.map Prod.fst) t.1 (depth - 1)
  left : ∀ t ∈ tree, t ∉ below →
    ¬ Strayed (tree.map Prod.fst) key t.1 ∧ ¬ RunsOut (tree.map Prod.fst) key t.1

/-- The walk reads behind the prefix exactly if it runs out on some key, and else visits the keys it
strays to. -/
structure Strays (tree : List (List UInt8 × V)) (key : List UInt8)
    (visited : Option (List (List UInt8 × V))) : Prop where
  none_iff : visited = none ↔ ∃ t ∈ tree, RunsOut (tree.map Prod.fst) key t.1
  some_iff : ∀ found, visited = some found → found.Sublist tree ∧
    ∀ t ∈ tree, t ∈ found ↔ Strayed (tree.map Prod.fst) key t.1

theorem strays_nowhere (h : ∀ t ∈ tree, ¬ Strayed (tree.map Prod.fst) key t.1 ∧
    ¬ RunsOut (tree.map Prod.fst) key t.1) : Strays tree key (some []) where
  none_iff := by
    simp only [reduceCtorEq, false_iff, not_exists, not_and]
    exact fun t ht => (h t ht).2
  some_iff := by
    intro found hfound
    obtain rfl := Option.some.inj hfound
    exact ⟨List.nil_sublist tree, fun t ht => by simp [(h t ht).1]⟩

theorem Walked.nowhere (h : Walked tree below key depth) (hbelow : ∀ t ∈ below,
    ¬ Strayed (tree.map Prod.fst) key t.1 ∧ ¬ RunsOut (tree.map Prod.fst) key t.1) :
    Strays tree key (some []) := by
  apply strays_nowhere
  intro t ht
  by_cases hmem : t ∈ below
  · exact hbelow t hmem
  · exact h.left t ht hmem

/-- A single leaf has no company. -/
theorem Walked.not_accompanied (h : Walked tree below key depth) (hdepth : depth ≤ key.length)
    (hlen : below.length ≤ 1) {t : List UInt8 × V} (ht : t ∈ below) :
    ¬ Accompanied (tree.map Prod.fst) key t.1 := by
  rintro ⟨s, hs, hne, htake⟩
  obtain ⟨s, hmem, rfl⟩ := List.mem_map.mp hs
  have hs' := (h.mem_iff t ht s hmem).mpr (take_of_take_eq htake hdepth)
  obtain ⟨leaf, rfl⟩ := List.length_eq_one_iff.mp
    (Nat.le_antisymm hlen (List.length_pos_of_mem ht))
  rw [List.mem_singleton] at hs' ht
  exact hne (by rw [hs', ht])

theorem withPrefix_eq_nil (hsub : below.Sublist tree) (hnone : ∀ leaf ∈ tree, ¬ key <+: leaf.1) :
    withPrefix key below = [] := by
  rw [withPrefix, List.filter_eq_nil_iff]
  exact fun leaf hleaf => by simp [hnone leaf (hsub.subset hleaf)]

/-- At the depth of the prefix the last character was a branch. -/
theorem Walked.nowhere_at_end (h : Walked tree below key key.length)
    (hnone : ∀ leaf ∈ tree, ¬ key <+: leaf.1) : Strays tree key (some []) := by
  refine h.nowhere fun t ht => ?_
  rcases h.entry t ht with hzero | hsplit
  · exact absurd (List.eq_nil_of_length_eq_zero hzero ▸ List.nil_prefix) (hnone t (h.sublist.subset ht))
  refine ⟨fun hstray => hstray.inside hsplit, ?_⟩
  rintro ⟨hfollowed, -, i, hi, hne, hno⟩
  have hlast := hfollowed i hi hne
  by_cases heq : i = key.length - 1
  · exact hlast.2.2 (heq ▸ hsplit)
  · exact hno (key.length - 1) (by omega) (by omega) hsplit

/-- The start of a path is where a key branches off, so the walk stops if it differs there. -/
theorem Walked.not_followed (h : Walked tree below key depth) (hlt : depth < key.length)
    {t : List UInt8 × V} (ht : t ∈ below) (hne : t.1.getD depth 0 ≠ key.getD depth 0) :
    ¬ Followed (tree.map Prod.fst) key t.1 := by
  intro hfollowed
  obtain ⟨hpos, hbefore, -⟩ := hfollowed depth hlt hne
  exact (h.entry t ht).elim (fun hzero => by omega) hbefore

theorem getD_drop_key (i : Nat) : (key.drop depth).getD i 0 = key.getD (depth + i) 0 := by simp

/-- The first mismatch in a path. -/
theorem path_mismatch {t : List UInt8 × V} (ht : t ∈ below)
    (hpath : prefixMismatch below key depth < (compressedPath below depth).length)
    (hkey : depth + prefixMismatch below key depth < key.length) :
    t.1.getD (depth + prefixMismatch below key depth) 0 ≠
      key.getD (depth + prefixMismatch below key depth) 0 := by
  rw [getD_path ht hpath, ← getD_drop_key]
  exact commonPrefix_next hpath (by
    rw [List.length_drop]
    change prefixMismatch below key depth < _
    omega)

theorem getD_of_lt_mismatch {t : List UInt8 × V} (ht : t ∈ below) {i : Nat}
    (hi : i < prefixMismatch below key depth) : t.1.getD (depth + i) 0 = key.getD (depth + i) 0 := by
  have hleft := (commonPrefix_left (compressedPath below depth) (key.drop depth))
  have hright := commonPrefix_left (key.drop depth) (compressedPath below depth)
  rw [commonPrefix_comm] at hright
  rw [getD_path ht (hi.trans_le hleft.length_le), ← getD_drop_key]
  exact (getD_of_starts hleft hi).trans (getD_of_starts hright hi).symm

/-- Inside the path of the node no key branches off, so that mismatches there are passed over. -/
theorem Walked.passed (h : Walked tree below key depth)
    (hstart : compressedPath below depth ≠ [] → prefixMismatch below key depth ≠ 0)
    {t : List UInt8 × V} (ht : t ∈ below) {i : Nat} (hi : i < depth + (compressedPath below depth).length)
    (hne : t.1.getD i 0 ≠ key.getD i 0) :
    0 < i ∧ ¬ SplitsAt (tree.map Prod.fst) t.1 (i - 1) ∧ ¬ SplitsAt (tree.map Prod.fst) t.1 i := by
  by_cases hlt : i < depth
  · exact h.followed t ht i hlt hne
  · have hpath : compressedPath below depth ≠ [] := by
      rintro hnil
      rw [hnil, List.length_nil] at hi
      omega
    have hgt : depth < i := by
      refine lt_of_le_of_ne (by omega) ?_
      rintro rfl
      exact hne (getD_of_lt_mismatch (i := 0) ht (Nat.pos_of_ne_zero (hstart hpath)))
    exact ⟨by omega, h.not_splits ht (by omega) (by omega), h.not_splits ht (by omega) hi⟩

theorem Walked.later (h : Walked tree below key depth) {t : List UInt8 × V} (ht : t ∈ below) {i : Nat}
    (hi : i < depth) (hne : t.1.getD i 0 ≠ key.getD i 0) :
    i < depth - 1 ∧ SplitsAt (tree.map Prod.fst) t.1 (depth - 1) := by
  have hsplit := (h.entry t ht).resolve_left (by omega)
  have hi' : i ≠ depth - 1 := by
    rintro rfl
    exact (h.followed t ht _ hi hne).2.2 hsplit
  exact ⟨by omega, hsplit⟩

theorem IsNode.accompanied (h : IsNode tree below depth) (hnodup : (tree.map Prod.fst).Nodup)
    (hlen : ¬ below.length ≤ 1) (hkey : key.length ≤ depth + (compressedPath below depth).length)
    {t : List UInt8 × V} (ht : t ∈ below) : Accompanied (tree.map Prod.fst) key t.1 := by
  obtain ⟨s, hs, hne⟩ := exists_ne_of_length ((hnodup.of_map _).sublist h.sublist) hlen t
  have hmem := h.sublist.subset hs
  exact ⟨s.1, List.mem_map_of_mem hmem,
    fun heq => hne (List.inj_on_of_nodup_map hnodup hmem (h.sublist.subset ht) heq),
    take_of_take_eq (h.take_path hs ht) hkey⟩

/-- The rest of the prefix matches in the path of the node. -/
theorem Walked.strays_below (h : Walked tree below key depth) (hnodup : (tree.map Prod.fst).Nodup)
    (hlen : ¬ below.length ≤ 1) (hlt : depth < key.length)
    (hmatched : depth + prefixMismatch below key depth = key.length) : Strays tree key (some below) := by
  have hle : prefixMismatch below key depth ≤ (compressedPath below depth).length :=
    (commonPrefix_left _ _).length_le
  have hdiffer : ∀ t ∈ below, ∀ i < key.length, t.1.getD i 0 ≠ key.getD i 0 → i < depth := by
    intro t ht i hi hne
    by_contra hge
    obtain ⟨j, rfl⟩ := Nat.exists_eq_add_of_le (not_lt.mp hge)
    exact hne (getD_of_lt_mismatch ht (by omega))
  have hout : ∀ t ∈ tree, ¬ RunsOut (tree.map Prod.fst) key t.1 := by
    intro t ht hout
    by_cases hmem : t ∈ below
    · obtain ⟨i, hi, hne, hno⟩ := hout.last
      obtain ⟨hlater, hsplit⟩ := h.later hmem (hdiffer t hmem i hi hne) hne
      exact hno (depth - 1) (by omega) hlater hsplit
    · exact (h.left t ht hmem).2 hout
  refine ⟨by simpa using hout, ?_⟩
  intro found hfound
  obtain rfl := Option.some.inj hfound
  refine ⟨h.sublist, fun t ht => ⟨fun hmem => ⟨?_, ?_, ?_, ?_⟩, fun hstray => ?_⟩⟩
  · intro i hi hne
    exact h.followed t hmem i (hdiffer t hmem i hi hne) hne
  · exact h.accompanied hnodup hlen (by omega) hmem
  · exact h.not_splits hmem (by omega) (by omega)
  · intro i hi hne
    obtain ⟨hlater, hsplit⟩ := h.later hmem (hdiffer t hmem i hi hne) hne
    exact ⟨depth - 1, by omega, hlater, hsplit⟩
  · by_contra hmem
    exact (h.left t ht hmem).1 hstray

/-- The path of the node is longer than the prefix and does not match it. -/
theorem Walked.strays_behind (h : Walked tree below key depth) (hnodup : (tree.map Prod.fst).Nodup)
    (hlen : ¬ below.length ≤ 1)
    (hstart : compressedPath below depth ≠ [] → prefixMismatch below key depth ≠ 0)
    (hmismatch : depth + prefixMismatch below key depth < key.length)
    (hroom : key.length < depth + (compressedPath below depth).length) : Strays tree key none := by
  obtain ⟨t, ht⟩ := List.exists_mem_of_length_pos (l := below) (by omega)
  have hout : RunsOut (tree.map Prod.fst) key t.1 := by
    refine ⟨fun i hi hne => h.passed hstart ht (by omega) hne, h.accompanied hnodup hlen hroom.le ht,
      depth + prefixMismatch below key depth, hmismatch, path_mismatch ht (by omega) hmismatch, ?_⟩
    intro j hj hij
    exact h.not_splits ht (by omega) (by omega)
  exact ⟨iff_of_true rfl ⟨t, h.sublist.subset ht, hout⟩, by simp⟩

/-- The path of the node ends with the prefix but does not match it. -/
theorem Walked.nowhere_behind_path (h : Walked tree below key depth) (hnodup : (tree.map Prod.fst).Nodup)
    (hnul : ∀ leaf ∈ tree, 0 ∉ leaf.1) (hlen : ¬ below.length ≤ 1)
    (hmismatch : depth + prefixMismatch below key depth < key.length)
    (hend : depth + (compressedPath below depth).length = key.length) : Strays tree key (some []) := by
  refine h.nowhere fun t ht => ?_
  have hne := @path_mismatch _ below key depth t ht (by omega) hmismatch
  constructor
  · intro hstray
    obtain ⟨j, hj, hij, hsplit⟩ := hstray.later _ hmismatch hne
    exact h.not_splits ht (by omega) (by omega) hsplit
  · rintro ⟨-, -, i, hi, -, hno⟩
    exact hno key.length (Nat.le_refl _) hi (hend ▸ h.splits hnodup hnul hlen ht)

/-- One leaf ends where its path does. -/
theorem IsNode.length_findChild_zero (h : IsNode tree below depth) (hnodup : (tree.map Prod.fst).Nodup)
    (hnul : ∀ leaf ∈ tree, 0 ∉ leaf.1) :
    (findChild below (depth + (compressedPath below depth).length) 0).length ≤ 1 := by
  have hsub : (findChild below (depth + (compressedPath below depth).length) 0).Sublist below :=
    List.filter_sublist
  have hends : ∀ t ∈ findChild below (depth + (compressedPath below depth).length) 0,
      t ∈ below ∧ t.1.length ≤ depth + (compressedPath below depth).length := by
    intro t ht
    obtain ⟨hmem, hchar⟩ := List.mem_filter.mp ht
    refine ⟨hmem, ?_⟩
    by_contra hlong
    have hzero := of_decide_eq_true hchar
    rw [List.getD_eq_getElem _ _ (by omega)] at hzero
    exact hnul t (h.sublist.subset hmem) (hzero ▸ List.getElem_mem _)
  by_contra hlen
  obtain ⟨t, ht⟩ := List.exists_mem_of_length_pos
    (l := findChild below (depth + (compressedPath below depth).length) 0) (by omega)
  obtain ⟨s, hs, hne⟩ := exists_ne_of_length
    ((hnodup.of_map _).sublist (hsub.trans h.sublist)) hlen t
  obtain ⟨htb, htl⟩ := hends t ht
  obtain ⟨hsb, hsl⟩ := hends s hs
  exact hne (List.inj_on_of_nodup_map hnodup (h.sublist.subset hsb) (h.sublist.subset htb)
    (eq_of_take_eq (h.take_path hsb htb) hsl htl))

theorem Walked.child (h : Walked tree below key depth) (hnodup : (tree.map Prod.fst).Nodup)
    (hnul : ∀ leaf ∈ tree, 0 ∉ leaf.1) (hlen : ¬ below.length ≤ 1)
    (hstart : compressedPath below depth ≠ [] → prefixMismatch below key depth ≠ 0)
    (hlt : depth + (compressedPath below depth).length < key.length) :
    Walked tree (findChild below (depth + (compressedPath below depth).length)
      (key.getD (depth + (compressedPath below depth).length) 0)) key
      (depth + (compressedPath below depth).length + 1) := by
  have hmem : ∀ t, t ∈ findChild below (depth + (compressedPath below depth).length)
      (key.getD (depth + (compressedPath below depth).length) 0) ↔
      t ∈ below ∧ t.1.getD (depth + (compressedPath below depth).length) 0 =
        key.getD (depth + (compressedPath below depth).length) 0 := by
    intro t
    rw [findChild, List.mem_filter, decide_eq_true_eq]
  refine ⟨⟨List.filter_sublist.trans h.sublist, ?_⟩, ?_, ?_, ?_⟩
  · intro t ht s hs
    obtain ⟨htb, htc⟩ := (hmem t).mp ht
    rw [hmem]
    constructor
    · rintro ⟨hsb, hsc⟩
      exact take_succ_eq (h.take_path hsb htb) (hsc.trans htc.symm) (hnul s hs)
        (hnul t (h.sublist.subset htb))
    · intro htake
      exact ⟨(h.mem_iff t htb s hs).mpr (take_of_take_eq htake (by omega)),
        (getD_of_take_eq htake (Nat.lt_succ_self _)).trans htc⟩
  · intro t ht i hi hne
    obtain ⟨htb, htc⟩ := (hmem t).mp ht
    refine h.passed hstart htb (lt_of_le_of_ne (by omega) ?_) hne
    rintro rfl
    exact hne htc
  · intro t ht
    exact Or.inr (h.splits hnodup hnul hlen ((hmem t).mp ht).1)
  · intro t ht hout
    by_cases htb : t ∈ below
    · have hne : t.1.getD (depth + (compressedPath below depth).length) 0 ≠
          key.getD (depth + (compressedPath below depth).length) 0 := fun heq => hout ((hmem t).mpr ⟨htb, heq⟩)
      have hstop : ¬ Followed (tree.map Prod.fst) key t.1 := fun hfollowed =>
        (hfollowed _ hlt hne).2.2 (h.splits hnodup hnul hlen htb)
      exact ⟨fun hstray => hstop hstray.followed, fun hout => hstop hout.followed⟩
    · exact h.left t ht htb

theorem mismatch_lt (hdepth : depth ≤ key.length)
    (hmatched : depth + prefixMismatch below key depth ≠ key.length) :
    depth + prefixMismatch below key depth < key.length := by
  have hle := (commonPrefix_left (key.drop depth) (compressedPath below depth)).length_le
  rw [commonPrefix_comm, List.length_drop] at hle
  change prefixMismatch below key depth ≤ _ at hle
  omega

/-- The walk of a prefix that no key has. -/
theorem iterPrefixFrom_strays (hnodup : (tree.map Prod.fst).Nodup) (hnul : ∀ leaf ∈ tree, 0 ∉ leaf.1)
    (hnone : ∀ leaf ∈ tree, ¬ key <+: leaf.1) (hdepth : depth ≤ key.length)
    (h : Walked tree below key depth) : Strays tree key (iterPrefixFrom key below depth) := by
  fun_induction iterPrefixFrom key below depth with
  | case1 below depth hleaf =>
    rw [withPrefix_eq_nil h.sublist hnone]
    refine h.nowhere fun t ht => ?_
    have halone := h.not_accompanied hdepth hleaf ht
    exact ⟨fun hstray => halone hstray.accompanied, fun hout => halone hout.accompanied⟩
  | case2 below hnode =>
    have hany : ¬ (below.head?.any fun leaf => key <+: leaf.1) = true := by
      cases hhead : below.head? with
      | none => simp
      | some leaf => simpa using hnone leaf (h.sublist.subset (List.mem_of_head? hhead))
    rw [if_neg hany]
    exact h.nowhere_at_end hnone
  | case3 below depth hnode hne hbail =>
    refine h.nowhere fun t ht => ?_
    have hlt : depth < key.length := lt_of_le_of_ne hdepth hne
    have hmismatch : t.1.getD depth 0 ≠ key.getD depth 0 := by
      have hfirst := @path_mismatch _ below key depth t ht
      rw [hbail.2] at hfirst
      exact hfirst (List.length_pos_iff.mpr hbail.1) hlt
    have hstop := h.not_followed hlt ht hmismatch
    exact ⟨fun hstray => hstop hstray.followed, fun hout => hstop hout.followed⟩
  | case4 below depth hnode hne hbail hmatched =>
    exact h.strays_below hnodup hnode (lt_of_le_of_ne hdepth hne) hmatched.2
  | case5 below depth hnode hne hbail hmatched hroom ih =>
    by_cases hend : depth + (compressedPath below depth).length = key.length
    · have hpath : compressedPath below depth ≠ [] := by
        intro hnil
        rw [hnil, List.length_nil] at hend
        exact hne hend
      have hmismatch := mismatch_lt hdepth fun heq => hmatched ⟨hpath, heq⟩
      have hchar : key.getD (depth + (compressedPath below depth).length) 0 = 0 :=
        List.getD_eq_default _ _ hend.ge
      have hsub : (findChild below (depth + (compressedPath below depth).length) 0).Sublist tree :=
        List.filter_sublist.trans h.sublist
      rw [hchar, iterPrefixFrom, if_pos (h.length_findChild_zero hnodup hnul),
        withPrefix_eq_nil hsub hnone]
      exact h.nowhere_behind_path hnodup hnul hnode hmismatch hend
    · have hlt : depth + (compressedPath below depth).length < key.length := by omega
      exact ih hlt (h.child hnodup hnul hnode (fun hp hz => hbail ⟨hp, hz⟩) hlt)
  | case6 below depth hnode hne hbail hmatched hroom =>
    have hpath : compressedPath below depth ≠ [] := by
      intro hnil
      rw [hnil, List.length_nil] at hroom
      omega
    exact h.strays_behind hnodup hnode (fun hp hz => hbail ⟨hp, hz⟩)
      (mismatch_lt hdepth fun heq => hmatched ⟨hpath, heq⟩) (by omega)

/-- Below a prefix that no key has the walk visits the keys it strays to, or it reads behind the
prefix. -/
theorem artIterPrefix_strays (hnodup : (tree.map Prod.fst).Nodup) (hnul : ∀ leaf ∈ tree, 0 ∉ leaf.1)
    (hnone : ∀ leaf ∈ tree, ¬ key <+: leaf.1) : Strays tree key (artIterPrefix tree key) := by
  refine iterPrefixFrom_strays hnodup hnul hnone (Nat.zero_le _) ⟨⟨List.Sublist.refl _, ?_⟩, ?_, ?_, ?_⟩
  · intro t _ s hs
    simp [hs]
  · intro t _ i hi
    omega
  · exact fun _ _ => Or.inl rfl
  · exact fun t ht hnot => absurd ht hnot

end Node

end Miqs.Art
