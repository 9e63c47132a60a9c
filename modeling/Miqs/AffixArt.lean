import Miqs.AffixTrie
import Miqs.ArtStray

/-! When the radix tree answers an affix search. -/
namespace Miqs.StringSpi
open Miqs.CData Miqs.KeyedTree Miqs.Art Miqs.StringUtils
variable {D : Type}

def leaves (keys : List Keyword) : List (List UInt8 × Keyword) :=
  (storedOf keys).map fun s => (s.text.bytes, s)

def visited (keys : List Keyword) (affix : CString) : Option (List Keyword) :=
  (artIterPrefix (leaves keys) affix.bytes).map (List.map Prod.snd)

def storedTexts (keys : List Keyword) : List (List UInt8) := (storedOf keys).map fun s => s.text.bytes

def StraysTo (keys : List Keyword) (affix : CString) (s : Keyword) : Prop :=
  Strayed (storedTexts keys) affix.bytes s.text.bytes

instance (keys : List Keyword) (affix : CString) : DecidablePred (StraysTo keys affix) :=
  fun s => inferInstanceAs (Decidable (Strayed (storedTexts keys) affix.bytes s.text.bytes))

def RunsOutOn (keys : List Keyword) (affix : CString) (s : Keyword) : Prop :=
  RunsOut (storedTexts keys) affix.bytes s.text.bytes

def ArtReports (keys : List Keyword) (affix : CString) (expected : List Keyword) : Prop :=
  ∀ (D : Type) (data : Keyword → D), ∃ found : List (Pointer D),
    (artIterPrefix ((artOf (keys.map fun key => (key, data key))).map fun e => (e.1.text.bytes, e.2))
        affix.bytes).map (List.map fun leaf => .data leaf.2) = some found ∧
      found.Perm (expected.map fun key => .data (data key))

section Art
variable {keys : List Keyword} {affix : CString}

theorem artIterPrefix_pointers (keys : List Keyword) (affix : CString) (data : Keyword → D) :
    (artIterPrefix ((artOf (keys.map fun key => (key, data key))).map fun e => (e.1.text.bytes, e.2))
        affix.bytes).map (List.map fun leaf => .data leaf.2) =
      (visited keys affix).map (List.map fun s => (.data (data (winner keys s)) : Pointer D)) := by
  have hleaves : (artOf (keys.map fun key => (key, data key))).map (fun e => (e.1.text.bytes, e.2)) =
      (leaves keys).map fun leaf => (leaf.1, data (winner keys leaf.2)) := by
    rw [artOf_eq, leaves, List.map_map, List.map_map]
    rfl
  rw [hleaves, artIterPrefix_map fun s => data (winner keys s), visited, Option.map_map, Option.map_map]
  congr 1
  funext found
  simp [Function.comp_def]

theorem visited_of_mem (h : ∃ s ∈ storedOf keys, affix.bytes <+: s.text.bytes) :
    visited keys affix = some (below keys affix.bytes) := by
  have hmem : ∃ leaf ∈ leaves keys, affix.bytes <+: leaf.1 := by
    obtain ⟨s, hs, hpre⟩ := h
    exact ⟨_, List.mem_map_of_mem hs, hpre⟩
  rw [visited, artIterPrefix_of_mem affix.nulFree hmem, Option.map_some, withPrefix, leaves, List.filter_map,
    List.map_map]
  congr 1
  exact List.map_id _

theorem artReports_iff {expected : List Keyword} :
    ArtReports keys affix expected ↔
      ∃ strings, visited keys affix = some strings ∧ (strings.map (winner keys)).Perm expected := by
  constructor
  · intro h
    obtain ⟨found, hfound, hperm⟩ := h Keyword id
    rw [artIterPrefix_pointers] at hfound
    obtain ⟨strings, hstrings, rfl⟩ := Option.map_eq_some_iff.mp hfound
    refine ⟨strings, hstrings, ?_⟩
    rw [← List.map_perm_map_iff pointer_data_injective, List.map_map]
    exact hperm
  · rintro ⟨strings, hstrings, hperm⟩ D data
    rw [artIterPrefix_pointers, hstrings]
    refine ⟨_, rfl, ?_⟩
    have hmap := hperm.map fun key => (.data (data key) : Pointer D)
    rw [List.map_map] at hmap
    exact hmap

theorem lastTouch_or_reverse {s : Keyword} (h : s ∈ keys ∨ s.reverse ∈ keys) :
    lastTouch keys s = some true ∨ lastTouch keys s.reverse = some true := by
  induction keys using List.reverseRecOn with
  | nil => simp at h
  | append_singleton keys key ih =>
    rw [lastTouch_append, lastTouch_append]
    by_cases h₁ : key = s
    · exact Or.inl (if_pos h₁)
    · by_cases h₂ : key = s.reverse
      · exact Or.inr (if_pos h₂)
      · have h₃ : ¬ key.reverse = s := fun h₃ => h₂ (Keyword.reverse_eq_iff.mp h₃)
        rw [if_neg h₁, if_neg h₂, if_neg h₃, if_neg fun h₄ => h₁ (Keyword.reverse_inj.mp h₄)]
        apply ih
        simpa [Ne.symm h₁, Ne.symm h₂] using h

theorem winner_of_own {s : Keyword} (h : lastTouch keys s = some true) : winner keys s = s := if_pos h

theorem winner_of_other {s : Keyword} (h : lastTouch keys s ≠ some true) : winner keys s = s.reverse :=
  if_neg h

/-- A string and its reversal have the same winner. -/
theorem winner_reverse {s : Keyword} (h : s ∈ storedOf keys) : winner keys s.reverse = winner keys s := by
  by_cases hpal : s.reverse = s
  · rw [hpal]
  · rcases lastTouch_or_reverse ((mem_storedOf keys).mp h) with hown | hown
    · have hother : lastTouch keys s.reverse ≠ some true := fun h' => hpal (palindrome_of_lastTouch hown h')
      rw [winner_of_own hown, winner_of_other hother, Keyword.reverse_reverse]
    · have hother : lastTouch keys s ≠ some true := fun h' => hpal (palindrome_of_lastTouch h' hown)
      rw [winner_of_own hown, winner_of_other hother]

/-- So both are below the affix only if they are the same. -/
theorem palindrome_of_below (hnodup : ((below keys affix.bytes).map (winner keys)).Nodup) {s : Keyword}
    (h : s ∈ below keys affix.bytes) (h' : s.reverse ∈ below keys affix.bytes) : s.reverse = s :=
  List.inj_on_of_nodup_map hnodup h' h (winner_reverse (mem_below.mp h).1)

theorem map_winner_of_own (h : ∀ s ∈ below keys affix.bytes, lastTouch keys s = some true) :
    (below keys affix.bytes).map (winner keys) = below keys affix.bytes :=
  (List.map_congr_left fun s hs => winner_of_own (h s hs)).trans (List.map_id _)

theorem stored_of_key {s : Keyword} (h : s ∈ keys) : s ∈ storedOf keys := (mem_storedOf keys).mpr (Or.inl h)

theorem winners_startsWith_iff (hnodup : keys.Nodup) :
    ((below keys affix.bytes).map (winner keys)).Perm (matching keys .patternPrefix affix) ↔
      ∀ s ∈ below keys affix.bytes, lastTouch keys s = some true := by
  constructor
  · intro hperm s hs
    by_contra hother
    have hmem := hperm.mem_iff.mp (List.mem_map_of_mem hs)
    rw [winner_of_other hother, mem_matching_startsWith] at hmem
    have hpal := palindrome_of_below (hperm.symm.nodup (nodup_matching hnodup _)) hs
      (mem_below.mpr ⟨stored_of_key hmem.1, hmem.2⟩)
    exact hother (lastTouch_of_palindrome hpal (hpal ▸ hmem.1))
  · intro hown
    rw [map_winner_of_own hown]
    exact below_perm_startsWith hnodup hown

def SuffixMirrored (keys : List Keyword) (affix : CString) : Prop :=
  if reverseStr affix = affix then
    ∀ s ∈ below keys affix.bytes, s.reverse = s ∨ lastTouch keys s = some false
  else
    (∀ s ∈ below keys affix.bytes, lastTouch keys s = some true ∧ affix.bytes <:+ s.text.bytes) ∧
      ∀ key ∈ keys, affix.bytes <:+ key.text.bytes → affix.bytes <+: key.text.bytes

theorem starts_reverse_of_palindrome (hpal : reverseStr affix = affix) {s : Keyword} :
    affix.bytes <+: s.reverse.text.bytes ↔ affix.bytes <:+ s.text.bytes := by
  rw [← starts_reverse, hpal]

theorem reverse_stored {s : Keyword} : s.reverse ∈ storedOf keys ↔ s ∈ storedOf keys := by
  rw [mem_storedOf, mem_storedOf, Keyword.reverse_reverse, or_comm]

theorem lastTouch_of_stored {s : Keyword} (h : s ∈ storedOf keys) (hother : lastTouch keys s ≠ some true) :
    lastTouch keys s = some false := by
  cases htouch : lastTouch keys s with
  | none => exact absurd ((mem_storedOf keys).mp h) (not_or.mpr (lastTouch_eq_none_iff.mp htouch))
  | some own =>
    cases own with
    | true => exact absurd htouch hother
    | false => rfl

/-- Below a palindrome, strings stored with the data of their reversals are those of the
keys that end with it. -/
theorem reversed_below_perm (hnodup : keys.Nodup) (hpal : reverseStr affix = affix)
    (h : ∀ s ∈ below keys affix.bytes, s.reverse ∈ keys) :
    ((below keys affix.bytes).map Keyword.reverse).Perm (matching keys .patternSuffix affix) := by
  have hinj : Function.Injective Keyword.reverse := fun s s' heq => Keyword.reverse_inj.mp heq
  refine (List.perm_ext_iff_of_nodup ((nodup_below keys _).map hinj) (nodup_matching hnodup _)).mpr ?_
  intro key
  rw [mem_matching_endsWith, List.mem_map]
  constructor
  · rintro ⟨s, hs, rfl⟩
    refine ⟨h s hs, ?_⟩
    rw [← starts_reverse_of_palindrome hpal, Keyword.reverse_reverse]
    exact (mem_below.mp hs).2
  · rintro ⟨hkey, hsuf⟩
    refine ⟨key.reverse, mem_below.mpr ⟨?_, ?_⟩, key.reverse_reverse⟩
    · exact reverse_stored.mpr (stored_of_key hkey)
    · exact (starts_reverse_of_palindrome hpal).mpr hsuf

theorem winners_endsWith_palindrome (hnodup : keys.Nodup) (hpal : reverseStr affix = affix) :
    ((below keys affix.bytes).map (winner keys)).Perm (matching keys .patternSuffix affix) ↔
      ∀ s ∈ below keys affix.bytes, s.reverse = s ∨ lastTouch keys s = some false := by
  constructor
  · intro hperm s hs
    by_cases hown : lastTouch keys s = some true
    · have hmem := hperm.mem_iff.mp (List.mem_map_of_mem hs)
      rw [winner_of_own hown, mem_matching_endsWith, ← starts_reverse_of_palindrome hpal] at hmem
      exact Or.inl (palindrome_of_below (hperm.symm.nodup (nodup_matching hnodup _)) hs
        (mem_below.mpr ⟨reverse_stored.mpr (mem_below.mp hs).1, hmem.2⟩))
    · exact Or.inr (lastTouch_of_stored (mem_below.mp hs).1 hown)
  · intro h
    have hwinner : ∀ s ∈ below keys affix.bytes, winner keys s = s.reverse := by
      intro s hs
      by_cases hown : lastTouch keys s = some true
      · rcases h s hs with hsame | hother
        · rw [winner_of_own hown, hsame]
        · simp [hown] at hother
      · exact winner_of_other hown
    rw [List.map_congr_left hwinner]
    apply reversed_below_perm hnodup hpal
    intro s hs
    rcases h s hs with hsame | hother
    · have hstored := (mem_storedOf keys).mp (mem_below.mp hs).1
      rw [hsame, or_self] at hstored
      rwa [hsame]
    · exact reverse_mem_of_lastTouch hother

theorem winners_endsWith_other (hnodup : keys.Nodup) (hpal : reverseStr affix ≠ affix) :
    ((below keys affix.bytes).map (winner keys)).Perm (matching keys .patternSuffix affix) ↔
      (∀ s ∈ below keys affix.bytes, lastTouch keys s = some true ∧ affix.bytes <:+ s.text.bytes) ∧
        ∀ key ∈ keys, affix.bytes <:+ key.text.bytes → affix.bytes <+: key.text.bytes := by
  constructor
  · intro hperm
    have hown : ∀ s ∈ below keys affix.bytes, lastTouch keys s = some true := by
      intro s hs
      by_contra hother
      have hmem := hperm.mem_iff.mp (List.mem_map_of_mem hs)
      rw [winner_of_other hother, mem_matching_endsWith, ← starts_reverse, Keyword.reverse_reverse] at hmem
      -- the affix and its reversal begin the same string
      have hsame := List.prefix_of_prefix_length_le hmem.2 (mem_below.mp hs).2
        (by rw [reverseStr, List.length_reverse])
      apply hpal
      ext : 1
      exact hsame.eq_of_length (by rw [reverseStr, List.length_reverse])
    rw [map_winner_of_own hown] at hperm
    refine ⟨?_, ?_⟩
    · intro s hs
      exact ⟨hown s hs, (mem_matching_endsWith.mp (hperm.mem_iff.mp hs)).2⟩
    · intro key hkey hsuf
      exact (mem_below.mp (hperm.mem_iff.mpr (mem_matching_endsWith.mpr ⟨hkey, hsuf⟩))).2
  · rintro ⟨hbelow, hkeys⟩
    rw [map_winner_of_own fun s hs => (hbelow s hs).1]
    refine (List.perm_ext_iff_of_nodup (nodup_below keys _) (nodup_matching hnodup _)).mpr ?_
    intro s
    rw [mem_matching_endsWith]
    constructor
    · intro hs
      exact ⟨mem_of_lastTouch (hbelow s hs).1, (hbelow s hs).2⟩
    · rintro ⟨hkey, hsuf⟩
      exact mem_below.mpr ⟨stored_of_key hkey, hkeys s hkey hsuf⟩

theorem winners_endsWith_iff (hnodup : keys.Nodup) :
    ((below keys affix.bytes).map (winner keys)).Perm (matching keys .patternSuffix affix) ↔
      SuffixMirrored keys affix := by
  by_cases hpal : reverseStr affix = affix
  · rw [winners_endsWith_palindrome hnodup hpal, SuffixMirrored, if_pos hpal]
  · rw [winners_endsWith_other hnodup hpal, SuffixMirrored, if_neg hpal]

theorem nodup_storedTexts (keys : List Keyword) : (storedTexts keys).Nodup := by
  refine (nodup_storedOf keys).map fun s s' heq => ?_
  cases s
  cases s'
  simp only [Keyword.mk.injEq]
  exact CString.ext heq

theorem strays_visited (h : below keys affix.bytes = []) :
    Strays (leaves keys) affix.bytes (artIterPrefix (leaves keys) affix.bytes) := by
  have htexts : (leaves keys).map Prod.fst = storedTexts keys := by
    rw [leaves, List.map_map]
    rfl
  refine artIterPrefix_strays (htexts ▸ nodup_storedTexts keys) ?_ ?_
  · intro leaf hleaf
    obtain ⟨s, -, rfl⟩ := List.mem_map.mp hleaf
    exact s.text.nulFree
  · intro leaf hleaf hpre
    obtain ⟨s, hs, rfl⟩ := List.mem_map.mp hleaf
    have hmem := mem_below.mpr ⟨hs, hpre⟩
    rw [h] at hmem
    simp at hmem

theorem visited_eq_none_iff (h : below keys affix.bytes = []) :
    visited keys affix = none ↔ ∃ s ∈ storedOf keys, RunsOutOn keys affix s := by
  rw [visited, Option.map_eq_none_iff, (strays_visited h).none_iff]
  simp only [leaves, List.mem_map, List.map_map, exists_exists_and_eq_and]
  rfl

theorem visited_perm (h : below keys affix.bytes = []) {strings : List Keyword}
    (hvisited : visited keys affix = some strings) :
    strings.Perm ((storedOf keys).filter (StraysTo keys affix ·)) := by
  obtain ⟨found, hfound, rfl⟩ := Option.map_eq_some_iff.mp hvisited
  obtain ⟨hsub, hmem⟩ := (strays_visited h).some_iff found hfound
  have htexts : (leaves keys).map Prod.fst = storedTexts keys := by
    rw [leaves, List.map_map]
    rfl
  have hstored : (leaves keys).map Prod.snd = storedOf keys := by
    rw [leaves, List.map_map]
    exact List.map_id _
  have hnodup : (found.map Prod.snd).Nodup :=
    (nodup_storedOf keys).sublist (hstored ▸ hsub.map Prod.snd)
  refine (List.perm_ext_iff_of_nodup hnodup ((nodup_storedOf keys).filter _)).mpr fun s => ?_
  rw [List.mem_filter, decide_eq_true_eq, StraysTo, ← htexts]
  constructor
  · intro hs
    obtain ⟨leaf, hl, rfl⟩ := List.mem_map.mp hs
    obtain ⟨s, hstored, rfl⟩ := List.mem_map.mp (hsub.subset hl)
    exact ⟨hstored, (hmem _ (List.mem_map_of_mem hstored)).mp hl⟩
  · rintro ⟨hs, hstray⟩
    have hl : (s.text.bytes, s) ∈ leaves keys := List.mem_map_of_mem hs
    exact List.mem_map.mpr ⟨_, (hmem _ hl).mpr hstray, rfl⟩

theorem artReports_iff_of_stray (h : below keys affix.bytes = []) {expected : List Keyword} :
    ArtReports keys affix expected ↔ (∀ s ∈ storedOf keys, ¬ RunsOutOn keys affix s) ∧
      (((storedOf keys).filter (StraysTo keys affix ·)).map (winner keys)).Perm expected := by
  have hnone := visited_eq_none_iff h
  rw [artReports_iff]
  cases hvisited : visited keys affix with
  | none =>
    obtain ⟨s, hs, hout⟩ := hnone.mp hvisited
    exact iff_of_false (by simp) fun hall => hall.1 s hs hout
  | some strings =>
    have hperm := (visited_perm h hvisited).map (winner keys)
    have hsafe : ∀ s ∈ storedOf keys, ¬ RunsOutOn keys affix s := by
      intro s hs hout
      rw [hnone.mpr ⟨s, hs, hout⟩] at hvisited
      cases hvisited
    simp only [Option.some.injEq, exists_eq_left']
    exact ⟨fun hwin => ⟨hsafe, hperm.symm.trans hwin⟩, fun hall => hperm.trans hall.2⟩

/-- The strings that the walk strays to hold the data of keys that end with the affix, of each such
key once. -/
structure StrayMirrored (keys : List Keyword) (affix : CString) : Prop where
  ends : ∀ s ∈ storedOf keys, StraysTo keys affix s → affix.bytes <:+ (winner keys s).text.bytes
  once : ∀ s ∈ storedOf keys, StraysTo keys affix s → StraysTo keys affix s.reverse → s.reverse = s
  each : ∀ key ∈ keys, affix.bytes <:+ key.text.bytes →
    lastTouch keys key = some true ∧ (StraysTo keys affix key ∨ StraysTo keys affix key.reverse)

theorem winner_mem {s : Keyword} (h : s ∈ storedOf keys) : winner keys s ∈ keys := by
  by_cases hown : lastTouch keys s = some true
  · rw [winner_of_own hown]
    exact mem_of_lastTouch hown
  · rw [winner_of_other hown]
    exact reverse_mem_of_lastTouch (lastTouch_of_stored h hown)

theorem eq_or_reverse_of_winner {s s' : Keyword} (h : winner keys s = winner keys s') :
    s = s' ∨ s.reverse = s' := by
  have hcases : ∀ s, winner keys s = s ∨ winner keys s = s.reverse := by
    intro s
    rw [winner]
    split_ifs
    · exact Or.inl rfl
    · exact Or.inr rfl
  rcases hcases s with hs | hs <;> rcases hcases s' with hs' | hs' <;> rw [hs, hs'] at h
  · exact Or.inl h
  · exact Or.inr (by rw [h, Keyword.reverse_reverse])
  · exact Or.inr h
  · exact Or.inl (Keyword.reverse_inj.mp h)

theorem strays_endsWith_iff (hnodup : keys.Nodup) :
    (((storedOf keys).filter (StraysTo keys affix ·)).map (winner keys)).Perm
        (matching keys .patternSuffix affix) ↔ StrayMirrored keys affix := by
  have hmem : ∀ s, s ∈ (storedOf keys).filter (StraysTo keys affix ·) ↔
      s ∈ storedOf keys ∧ StraysTo keys affix s := by
    intro s
    rw [List.mem_filter, decide_eq_true_eq]
  constructor
  · intro hperm
    have hinj := List.inj_on_of_nodup_map (hperm.symm.nodup (nodup_matching hnodup _))
    refine ⟨?_, ?_, ?_⟩
    · intro s hs hstray
      have hwin := hperm.mem_iff.mp (List.mem_map_of_mem ((hmem s).mpr ⟨hs, hstray⟩))
      exact (mem_matching_endsWith.mp hwin).2
    · intro s hs hstray hstray'
      exact hinj ((hmem _).mpr ⟨reverse_stored.mpr hs, hstray'⟩) ((hmem s).mpr ⟨hs, hstray⟩)
        (winner_reverse hs)
    · intro key hkey hsuf
      obtain ⟨s, hs, hwin⟩ := List.mem_map.mp (hperm.mem_iff.mpr (mem_matching_endsWith.mpr ⟨hkey, hsuf⟩))
      obtain ⟨hstored, hstray⟩ := (hmem s).mp hs
      by_cases hown : lastTouch keys s = some true
      · rw [winner_of_own hown] at hwin
        exact ⟨hwin ▸ hown, Or.inl (hwin ▸ hstray)⟩
      · rw [winner_of_other hown] at hwin
        have hother := (lastTouch_or_reverse ((mem_storedOf keys).mp hstored)).resolve_left hown
        exact ⟨hwin ▸ hother, Or.inr (by rwa [← hwin, Keyword.reverse_reverse])⟩
  · rintro ⟨hends, honce, heach⟩
    have hnodup' : (((storedOf keys).filter (StraysTo keys affix ·)).map (winner keys)).Nodup := by
      refine List.Nodup.map_on ?_ ((nodup_storedOf keys).filter _)
      intro s hs s' hs' hwin
      obtain ⟨hstored, hstray⟩ := (hmem s).mp hs
      rcases eq_or_reverse_of_winner hwin with heq | heq
      · exact heq
      · subst heq
        exact (honce s hstored hstray ((hmem _).mp hs').2).symm
    refine (List.perm_ext_iff_of_nodup hnodup' (nodup_matching hnodup _)).mpr fun key => ?_
    rw [mem_matching_endsWith, List.mem_map]
    constructor
    · rintro ⟨s, hs, rfl⟩
      obtain ⟨hstored, hstray⟩ := (hmem s).mp hs
      exact ⟨winner_mem hstored, hends s hstored hstray⟩
    · rintro ⟨hkey, hsuf⟩
      obtain ⟨hown, hstray | hstray⟩ := heach key hkey hsuf
      · exact ⟨key, (hmem key).mpr ⟨stored_of_key hkey, hstray⟩, winner_of_own hown⟩
      · exact ⟨key.reverse, (hmem _).mpr ⟨reverse_stored.mpr (stored_of_key hkey), hstray⟩,
          (winner_reverse (stored_of_key hkey)).trans (winner_of_own hown)⟩

end Art

end Miqs.StringSpi
