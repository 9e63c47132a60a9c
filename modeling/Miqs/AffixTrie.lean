import Miqs.AffixSearch
import Miqs.TrieBuffer

/-! When the trie answers an affix search. -/
namespace Miqs.StringSpi
open Miqs.CData Miqs.KeyedTree Miqs.Trie Miqs.StringUtils
variable {D : Type}

def OnPath (keys : List Keyword) (q : List UInt8) : Prop :=
  q = [] ∨ ∃ s ∈ storedOf keys, q <+: s.text.bytes

structure TrieFollows (keys : List Keyword) (pre : List UInt8) : Prop where
  absent : ∀ s ∈ storedOf keys, s.text.bytes ≠ pre
  reach : ∀ q c rest, pre = q ++ c :: rest → OnPath keys q →
    c < 128 ∧ (OnPath keys (q ++ [c]) → q.length < 4096)

def below (keys : List Keyword) (pre : List UInt8) : List Keyword :=
  (storedOf keys).filter fun s => pre <+: s.text.bytes

section Below
variable (keys : List Keyword) (data : Keyword → D) (pre : List UInt8)

theorem onPath_iff : (trieFindInternal (trieOf (keys.map fun key => (key, data key))) pre).isSome ↔
    OnPath keys pre := by
  rw [findInternal_isSome_iff (ok_trieOf _), OnPath]
  refine or_congr Iff.rfl ?_
  simp only [(entries_trieOf keys data).mem_iff, List.mem_map]
  constructor
  · rintro ⟨e, ⟨s, hs, rfl⟩, hpre⟩
    exact ⟨s, hs, hpre⟩
  · rintro ⟨s, hs, hpre⟩
    exact ⟨_, ⟨s, hs, rfl⟩, hpre⟩

theorem walkSafe_iff : WalkSafe (trieOf (keys.map fun key => (key, data key))) pre 4096 ↔
    ∀ q c rest, pre = q ++ c :: rest → OnPath keys q →
      c < 128 ∧ (OnPath keys (q ++ [c]) → q.length < 4096) := by
  simp only [WalkSafe, onPath_iff]

def itself : List (Pointer D) := (trieFind (trieOf (keys.map fun key => (key, data key))) pre).toList

theorem itself_of_absent (h : ∀ s ∈ storedOf keys, s.text.bytes ≠ pre) : itself keys data pre = [] := by
  cases hfind : trieFind (trieOf (keys.map fun key => (key, data key))) pre with
  | none => rw [itself, hfind, Option.toList_none]
  | some p =>
    have hmem := (mem_entries_iff (ok_trieOf _)).mpr hfind
    rw [(entries_trieOf keys data).mem_iff] at hmem
    obtain ⟨s, hs, heq⟩ := List.mem_map.mp hmem
    exact absurd (Prod.mk.inj heq).1 (h s hs)

theorem itself_of_mem {s : Keyword} (h : s ∈ storedOf keys) :
    itself keys data s.text.bytes = [triePointer keys data s] := by
  have hmem : (s.text.bytes, triePointer keys data s) ∈
      (trieOf (keys.map fun key => (key, data key))).entries := by
    rw [(entries_trieOf keys data).mem_iff]
    exact List.mem_map.mpr ⟨s, h, rfl⟩
  rw [itself, (mem_entries_iff (ok_trieOf _)).mp hmem, Option.toList_some]

/-- The iteration reports what is stored for the strings below the prefix. -/
theorem trieIterPrefix_pointers (junk : Nat → UInt8)
    (h : WalkSafe (trieOf (keys.map fun key => (key, data key))) pre 4096) :
    ∃ found, (trieIterPrefix junk (trieOf (keys.map fun key => (key, data key))) pre).map
        (List.map Prod.snd) = some found ∧
      found.Perm (itself keys data pre ++ (below keys pre).map (triePointer keys data)) := by
  obtain ⟨calls, hcalls, hperm⟩ := trieIterPrefix_perm (ok_trieOf _) junk h
  refine ⟨calls.map Prod.snd, by rw [hcalls, Option.map_some], hperm.trans ?_⟩
  apply List.Perm.append_left
  have hentries := ((entries_trieOf keys data).filter fun e => pre <+: e.1).map Prod.snd
  rw [List.filter_map, List.map_map] at hentries
  exact hentries

end Below

def TrieReports (keys : List Keyword) (pre : List UInt8) (expected : List Keyword) : Prop :=
  ∀ (D : Type) (data : Keyword → D) (junk : Nat → UInt8),
    ∃ found, (trieIterPrefix junk (trieOf (keys.map fun key => (key, data key))) pre).map
        (List.map Prod.snd) = some found ∧
      found.Perm (expected.map fun key => .data (data key))

theorem pointer_data_injective : Function.Injective (Pointer.data : D → Pointer D) := by
  intro d d' h
  exact Pointer.data.inj h

/-- The pointers reported are those of the keys expected. -/
theorem TrieReports.pointers {keys expected : List Keyword} {pre : List UInt8}
    (h : TrieReports keys pre expected) :
    WalkSafe (trieOf (keys.map fun key => (key, key))) pre 4096 ∧
      (itself keys id pre ++ (below keys pre).map (triePointer keys id)).Perm (expected.map .data) := by
  obtain ⟨found, hfound, hperm⟩ := h Keyword id fun _ => 0
  have hsafe : WalkSafe (trieOf (keys.map fun key => (key, key))) pre 4096 := by
    by_contra hsafe
    rw [show trieIterPrefix _ (trieOf (keys.map fun key => (key, id key))) pre = none from
      trieIterPrefix_eq_none _ hsafe] at hfound
    simp at hfound
  refine ⟨hsafe, ?_⟩
  obtain ⟨found', hfound', hperm'⟩ := trieIterPrefix_pointers keys id pre (fun _ => 0) hsafe
  obtain rfl := Option.some.inj (hfound.symm.trans hfound')
  exact hperm'.symm.trans hperm

theorem trieReports_iff {keys : List Keyword} {pre : List UInt8} {expected : List Keyword}
    (hnodup : expected.Nodup) :
    TrieReports keys pre expected ↔ (∀ s ∈ below keys pre, lastTouch keys s = some true) ∧
      (below keys pre).Perm expected ∧ TrieFollows keys pre := by
  have howns : ∀ (D : Type) (data : Keyword → D), (∀ s ∈ below keys pre, lastTouch keys s = some true) →
      (below keys pre).map (triePointer keys data) = (below keys pre).map fun s => .data (data s) := by
    intro D data hown
    apply List.map_congr_left
    intro s hs
    rw [triePointer, if_pos (hown s hs)]
  constructor
  · intro h
    obtain ⟨hsafe, hperm⟩ := h.pointers
    have hown : ∀ s ∈ below keys pre, lastTouch keys s = some true := by
      intro s hs
      have hmem : triePointer keys id s ∈ expected.map (.data : Keyword → Pointer Keyword) :=
        hperm.mem_iff.mp (List.mem_append_right _ (List.mem_map_of_mem hs))
      obtain ⟨k, -, hk⟩ := List.mem_map.mp hmem
      by_contra hother
      rw [triePointer, if_neg hother] at hk
      simp at hk
    have habsent : ∀ s ∈ storedOf keys, s.text.bytes ≠ pre := by
      rintro s hs rfl
      -- it would be reported twice
      have hlist := hperm.symm.nodup (hnodup.map pointer_data_injective)
      rw [itself_of_mem keys id hs, List.singleton_append, List.nodup_cons] at hlist
      exact hlist.1 (List.mem_map_of_mem (List.mem_filter.mpr ⟨hs, by simp⟩))
    refine ⟨hown, ?_, habsent, (walkSafe_iff keys id pre).mp hsafe⟩
    rw [itself_of_absent keys id pre habsent, List.nil_append, howns Keyword id hown] at hperm
    exact (List.map_perm_map_iff pointer_data_injective).mp hperm
  · rintro ⟨hown, hperm, hfollows⟩ D data junk
    have hsafe := (walkSafe_iff keys data pre).mpr hfollows.reach
    obtain ⟨found, hfound, hpointers⟩ := trieIterPrefix_pointers keys data pre junk hsafe
    refine ⟨found, hfound, hpointers.trans ?_⟩
    rw [itself_of_absent keys data pre hfollows.absent, List.nil_append, howns D data hown]
    exact hperm.map _

theorem mem_below {keys : List Keyword} {pre : List UInt8} {s : Keyword} :
    s ∈ below keys pre ↔ s ∈ storedOf keys ∧ pre <+: s.text.bytes := by
  rw [below, List.mem_filter, decide_eq_true_eq]

theorem nodup_below (keys : List Keyword) (pre : List UInt8) : (below keys pre).Nodup :=
  (nodup_storedOf keys).filter _

section Affix
variable {keys : List Keyword} {affix : CString}

theorem nodup_matching (hnodup : keys.Nodup) (afxType : AffixType) : (matching keys afxType affix).Nodup :=
  hnodup.filter _

theorem mem_matching_startsWith {s : Keyword} :
    s ∈ matching keys .patternPrefix affix ↔ s ∈ keys ∧ affix.bytes <+: s.text.bytes := by
  rw [matching, List.mem_filter]
  exact and_congr Iff.rfl startsWith_iff

theorem mem_matching_endsWith {s : Keyword} :
    s ∈ matching keys .patternSuffix affix ↔ s ∈ keys ∧ affix.bytes <:+ s.text.bytes := by
  rw [matching, List.mem_filter]
  exact and_congr Iff.rfl endsWith_iff

theorem mem_matching_contains {s : Keyword} :
    s ∈ matching keys .patternMiddle affix ↔ s ∈ keys ∧ affix.bytes <:+: s.text.bytes := by
  rw [matching, List.mem_filter]
  exact and_congr Iff.rfl contains_iff

theorem starts_reverse {s : Keyword} :
    (reverseStr affix).bytes <+: s.reverse.text.bytes ↔ affix.bytes <:+ s.text.bytes :=
  List.reverse_prefix

/-- If all strings below the affix are keys themselves then they are the keys that match. -/
theorem below_perm_startsWith (hnodup : keys.Nodup)
    (hown : ∀ s ∈ below keys affix.bytes, lastTouch keys s = some true) :
    (below keys affix.bytes).Perm (matching keys .patternPrefix affix) := by
  refine (List.perm_ext_iff_of_nodup (nodup_below keys _) (nodup_matching hnodup _)).mpr ?_
  intro s
  rw [mem_matching_startsWith]
  constructor
  · intro hs
    exact ⟨mem_of_lastTouch (hown s hs), (mem_below.mp hs).2⟩
  · rintro ⟨hs, hpre⟩
    exact mem_below.mpr ⟨(mem_storedOf keys).mpr (Or.inl hs), hpre⟩

theorem trieReports_startsWith (hnodup : keys.Nodup) :
    TrieReports keys affix.bytes (matching keys .patternPrefix affix) ↔
      (∀ s ∈ below keys affix.bytes, lastTouch keys s = some true) ∧ TrieFollows keys affix.bytes := by
  rw [trieReports_iff (nodup_matching hnodup _)]
  refine and_congr_right fun hown => and_iff_right ?_
  exact below_perm_startsWith hnodup hown

def SuffixPalindromes (keys : List Keyword) (affix : CString) : Prop :=
  ∀ k ∈ keys, (reverseStr affix).bytes <+: k.text.bytes ∨ affix.bytes <:+ k.text.bytes → k.reverse = k

theorem SuffixPalindromes.of_stored (h : SuffixPalindromes keys affix) {s : Keyword}
    (hs : s ∈ storedOf keys) (hpre : (reverseStr affix).bytes <+: s.text.bytes) :
    s ∈ keys ∧ s.reverse = s := by
  rcases (mem_storedOf keys).mp hs with hkey | hkey
  · exact ⟨hkey, h s hkey (Or.inl hpre)⟩
  · have hsuf : affix.bytes <:+ s.reverse.text.bytes := by
      rwa [← starts_reverse, Keyword.reverse_reverse]
    have hpal := h s.reverse hkey (Or.inr hsuf)
    rw [Keyword.reverse_reverse] at hpal
    exact ⟨hpal ▸ hkey, hpal.symm⟩

theorem trieReports_endsWith (hnodup : keys.Nodup) :
    TrieReports keys (reverseStr affix).bytes (matching keys .patternSuffix affix) ↔
      SuffixPalindromes keys affix ∧ TrieFollows keys (reverseStr affix).bytes := by
  rw [trieReports_iff (nodup_matching hnodup _), ← and_assoc]
  refine and_congr_left fun _ => ?_
  rw [List.perm_ext_iff_of_nodup (nodup_below keys _) (nodup_matching hnodup _)]
  simp only [mem_below, mem_matching_endsWith]
  constructor
  · rintro ⟨hown, hmem⟩ k hk hor
    have hsuf : affix.bytes <:+ k.text.bytes := by
      rcases hor with hpre | hsuf
      · exact ((hmem k).mp ⟨(mem_storedOf keys).mpr (Or.inl hk), hpre⟩).2
      · exact hsuf
    -- the key and its reversal are both below the reversed affix
    have hself := hown k ((hmem k).mpr ⟨hk, hsuf⟩)
    have hrev := hown k.reverse ⟨(mem_storedOf keys).mpr (Or.inr (by rwa [Keyword.reverse_reverse])),
      starts_reverse.mpr hsuf⟩
    exact palindrome_of_lastTouch hself hrev
  · intro hpal
    refine ⟨?_, ?_⟩
    · rintro s ⟨hs, hpre⟩
      obtain ⟨hkey, hrev⟩ := hpal.of_stored hs hpre
      exact lastTouch_of_palindrome hrev hkey
    · intro s
      constructor
      · rintro ⟨hs, hpre⟩
        obtain ⟨hkey, hrev⟩ := hpal.of_stored hs hpre
        exact ⟨hkey, starts_reverse.mp (hrev.symm ▸ hpre)⟩
      · rintro ⟨hkey, hsuf⟩
        have hrev := hpal s hkey (Or.inr hsuf)
        exact ⟨(mem_storedOf keys).mpr (Or.inl hkey), hrev ▸ starts_reverse.mpr hsuf⟩

def ascending (keys : List Keyword) : List Keyword :=
  (storedOf keys).insertionSort fun s s' => s.text.bytes ≤ s'.text.bytes

def passedFor (keys : List Keyword) : List (Keyword × List UInt8) :=
  (ascending keys).zip (overlays [] ((ascending keys).map fun s => s.text.bytes))

theorem entries_eq_ascending (keys : List Keyword) (data : Keyword → D) :
    (trieOf (keys.map fun key => (key, data key))).entries =
      (ascending keys).map fun s => (s.text.bytes, triePointer keys data s) := by
  have hok := ok_trieOf (keys.map fun key => (key, data key))
  have hsorted : ((ascending keys).map fun s => (s.text.bytes, triePointer keys data s)).Pairwise
      fun e e' => e.1 ≤ e'.1 := by
    have htotal : Std.Total fun s s' : Keyword => s.text.bytes ≤ s'.text.bytes :=
      ⟨fun s s' => List.le_total s.text.bytes s'.text.bytes⟩
    have htrans : IsTrans Keyword fun s s' => s.text.bytes ≤ s'.text.bytes :=
      ⟨fun _ _ _ h h' => List.le_trans h h'⟩
    rw [List.pairwise_map]
    exact List.pairwise_insertionSort _ (storedOf keys)
  have hentries : (trieOf (keys.map fun key => (key, data key))).entries.Pairwise
      fun e e' => e.1 ≤ e'.1 := by
    have hlt := entries_ascending hok
    rw [List.pairwise_map] at hlt
    exact hlt.imp fun h => List.le_of_lt h
  have hperm := entries_trieOf keys data
  have hasc := (List.perm_insertionSort (fun s s' : Keyword => s.text.bytes ≤ s'.text.bytes)
    (storedOf keys)).map fun s => (s.text.bytes, triePointer keys data s)
  refine List.Perm.eq_of_pairwise ?_ hentries hsorted (hperm.trans hasc.symm)
  intro e e' he he' hle hle'
  obtain ⟨s, -, rfl⟩ := List.mem_map.mp (hperm.mem_iff.mp he)
  obtain ⟨s', -, rfl⟩ := List.mem_map.mp he'
  rw [Keyword.bytes_inj.mp (List.le_antisymm hle hle')]

theorem mem_ascending {s : Keyword} : s ∈ ascending keys ↔ s ∈ storedOf keys :=
  (List.perm_insertionSort _ _).mem_iff

/-- A string is stored in both directions, so the lengths are those of the keys. -/
theorem length_of_mem_ascending {n : Nat} (h : ∀ key ∈ keys, key.text.bytes.length < n) {s : Keyword}
    (hs : s ∈ ascending keys) : s.text.bytes.length < n := by
  rcases (mem_storedOf keys).mp (mem_ascending.mp hs) with hkey | hkey
  · exact h s hkey
  · have hlen := h s.reverse hkey
    rwa [Keyword.reverse, List.length_reverse] at hlen

theorem str_of_shows {visited : CharSeq} {shown : List UInt8} (h : Shows visited.seq shown)
    (hlen : 4096 ≤ visited.seqLen) : str visited = some ⟨shown, h.nulFree⟩ := by
  obtain ⟨more, hmore⟩ := Nat.exists_eq_add_of_lt (h.room.trans_le hlen)
  have hshown : (List.range shown.length).map visited.seq = shown := by
    apply List.ext_getElem (by simp)
    intro i hi hi'
    rw [List.getElem_map, List.getElem_range, h.get i (hi'.trans h.room), List.getElem?_eq_getElem hi',
      Option.getD_some]
  have hend : visited.seq shown.length = 0 := by
    simp [h.get shown.length h.room]
  have hbytes : (List.range visited.seqLen).map visited.seq =
      shown ++ 0 :: (List.range more).map fun i => visited.seq (shown.length + (i + 1)) := by
    rw [hmore, Nat.add_assoc, List.range_add, List.map_append, hshown, List.range_succ_eq_map]
    simp [hend, Function.comp_def]
  have hpart : ∀ b ∈ shown, decide (b ≠ 0) = true :=
    fun b hb => decide_eq_true fun hz => h.nulFree (hz ▸ hb)
  rw [str, hbytes, if_pos (by simp)]
  congr 1
  ext : 1
  change List.takeWhile _ _ = shown
  rw [List.takeWhile_append_of_pos hpart, List.takeWhile_cons_of_neg (by simp), List.append_nil]

theorem trieInfixMatches_eq {calls : List (CharSeq × Pointer D)} {shown : List (List UInt8)}
    (h : List.Forall₂ Shows (calls.map fun call => call.1.seq) shown)
    (hlen : ∀ call ∈ calls, 4096 ≤ call.1.seqLen) (affix : CString) :
    trieInfixMatches calls affix =
      some ((((calls.map Prod.snd).zip shown).filter fun e => affix.bytes <:+: e.2).map Prod.fst) := by
  induction calls generalizing shown with
  | nil => rfl
  | cons call calls ih =>
    cases h with
    | @cons _ b _ bs hshow hshows =>
      have hstr := str_of_shows hshow (hlen call (by simp))
      have hrest := ih hshows fun c hc => hlen c (List.mem_cons_of_mem call hc)
      obtain ⟨found, hfound, heq⟩ := Option.map_eq_some_iff.mp hrest
      have hcons : ((call :: calls).mapM fun call => (str call.1).map fun key => (key, call.2)) =
          some ((⟨b, hshow.nulFree⟩, call.2) :: found) := by
        rw [List.mapM_cons, hstr, hfound]
        rfl
      rw [trieInfixMatches, hcons, Option.map_some, List.map_cons, List.zip_cons_cons, List.filter_cons,
        List.filter_cons]
      have hiff : contains ⟨b, hshow.nulFree⟩ affix = decide (affix.bytes <:+: b) := by
        rw [Bool.eq_iff_iff, contains_iff, decide_eq_true_eq]
      dsimp only
      rw [hiff, apply_ite (List.map Prod.snd), apply_ite (List.map Prod.fst), List.map_cons, List.map_cons,
        heq]

theorem searchMiddle_eq (hshort : ∀ key ∈ keys, key.text.bytes.length < 4096) (data : Keyword → D)
    (junk : Nat → UInt8) :
    trieInfixMatches (trieIterAll junk (trieOf (keys.map fun key => (key, data key)))) affix =
      some (((passedFor keys).filter fun e => affix.bytes <:+: e.2).map
        fun e => triePointer keys data e.1) := by
  have hentries := entries_eq_ascending keys data
  have hseqs := trieIterAll_seqs (ok_trieOf (keys.map fun key => (key, data key))) junk
  have hvalues := trieIterAll_values junk (trieOf (keys.map fun key => (key, data key)))
  rw [hentries, List.map_map] at hseqs hvalues
  have hkeys : ∀ b ∈ (ascending keys).map fun s => s.text.bytes, 0 ∉ b ∧ b.length < 4096 := by
    intro b hb
    obtain ⟨s, hs, rfl⟩ := List.mem_map.mp hb
    exact ⟨s.text.nulFree, length_of_mem_ascending hshort hs⟩
  have hshows := written_shows (shows_calloc junk) hkeys
  rw [trieInfixMatches_eq (hseqs ▸ hshows) (trieIterAll_seqLen _ junk), hvalues, passedFor,
    List.zip_map_left, List.filter_map, List.map_map]
  rfl

theorem mapM_eq_none {α β : Type} {f : α → Option β} {l : List α} {a : α} (h : a ∈ l) (ha : f a = none) :
    l.mapM f = none := by
  induction l with
  | nil => simp at h
  | cons b l ih =>
    rw [List.mapM_cons]
    rcases List.mem_cons.mp h with rfl | h
    · rw [ha]
      rfl
    · rw [ih h]
      cases f b <;> rfl

/-- With a key that is too long the buffer may not be a string. -/
theorem searchMiddle_eq_none {key : Keyword} (hkey : key ∈ keys) (hlong : 4096 ≤ key.text.bytes.length)
    (data : Keyword → D) :
    trieInfixMatches (trieIterAll (fun _ => 1) (trieOf (keys.map fun key => (key, data key)))) affix =
      none := by
  have hentries := entries_eq_ascending keys data
  have hseqs := trieIterAll_seqs (ok_trieOf (keys.map fun key => (key, data key))) fun _ => 1
  rw [hentries, List.map_map] at hseqs
  have hbehind : ∀ i, 4096 ≤ i → (CharSeq.calloc fun _ => 1).seq i ≠ 0 := by
    intro i hi
    simp [CharSeq.calloc, Nat.not_lt.mpr hi]
  have hmem : key.text.bytes ∈ (ascending keys).map fun s => s.text.bytes :=
    List.mem_map_of_mem (mem_ascending.mpr ((mem_storedOf keys).mpr (Or.inl hkey)))
  obtain ⟨seq, hseq, hne⟩ := written_endless hbehind
    (fun b hb => by obtain ⟨s, -, rfl⟩ := List.mem_map.mp hb; exact s.text.nulFree) hmem hlong
  obtain ⟨call, hcall, rfl⟩ := List.mem_map.mp (hseqs ▸ hseq)
  have hstr : str call.1 = none := by
    rw [str, if_neg]
    intro hzero
    obtain ⟨i, -, hi⟩ := List.mem_map.mp hzero
    exact hne i hi
  rw [trieInfixMatches, mapM_eq_none hcall (by rw [hstr]; rfl)]
  rfl

def MiddleHarmless (keys : List Keyword) (affix : CString) : Prop :=
  (∀ key ∈ keys, key.text.bytes.length < 4096) ∧
    ∀ e ∈ passedFor keys, affix.bytes <:+: e.2 →
      lastTouch keys e.1 = some true ∧ affix.bytes <:+: e.1.text.bytes

theorem map_fst_passedFor (keys : List Keyword) : (passedFor keys).map Prod.fst = ascending keys := by
  apply List.map_fst_zip
  rw [length_overlays, List.length_map]

/-- The strings whose calls contain the affix are the keys that do. -/
theorem MiddleHarmless.perm (hnodup : keys.Nodup) (h : MiddleHarmless keys affix) :
    (((passedFor keys).filter fun e => affix.bytes <:+: e.2).map Prod.fst).Perm
      (matching keys .patternMiddle affix) := by
  have hasc : ((passedFor keys).map Prod.fst).Nodup := by
    rw [map_fst_passedFor]
    exact (List.perm_insertionSort _ _).symm.nodup (nodup_storedOf keys)
  refine (List.perm_ext_iff_of_nodup (hasc.sublist (List.filter_sublist.map _))
    (nodup_matching hnodup _)).mpr ?_
  intro s
  rw [mem_matching_contains, List.mem_map]
  constructor
  · rintro ⟨e, he, rfl⟩
    rw [List.mem_filter, decide_eq_true_eq] at he
    obtain ⟨hown, hcontains⟩ := h.2 e he.1 he.2
    exact ⟨mem_of_lastTouch hown, hcontains⟩
  · rintro ⟨hkey, hcontains⟩
    have hmem : s ∈ ascending keys := mem_ascending.mpr ((mem_storedOf keys).mpr (Or.inl hkey))
    obtain ⟨shown, hshown, hpre⟩ := @exists_overlay _ (fun s : Keyword => s.text.bytes) [] _ _ hmem
    refine ⟨(s, shown), List.mem_filter.mpr ⟨hshown, ?_⟩, rfl⟩
    exact decide_eq_true (hcontains.trans hpre.isInfix)

theorem trie_contains_iff (hnodup : keys.Nodup) :
    (∀ (D : Type) (data : Keyword → D) (junk : Nat → UInt8), ∃ found,
      trieInfixMatches (trieIterAll junk (trieOf (keys.map fun key => (key, data key)))) affix =
          some found ∧
        found.Perm ((matching keys .patternMiddle affix).map fun key => .data (data key))) ↔
      MiddleHarmless keys affix := by
  constructor
  · intro h
    have hshort : ∀ key ∈ keys, key.text.bytes.length < 4096 := by
      intro key hkey
      by_contra hlong
      obtain ⟨found, hfound, -⟩ := h Keyword id fun _ => 1
      rw [searchMiddle_eq_none hkey (Nat.not_lt.mp hlong)] at hfound
      simp at hfound
    refine ⟨hshort, ?_⟩
    intro e he hcontains
    obtain ⟨found, hfound, hperm⟩ := h Keyword id fun _ => 0
    rw [searchMiddle_eq hshort] at hfound
    obtain rfl := Option.some.inj hfound
    have hmem := hperm.mem_iff.mp (List.mem_map.mpr
      ⟨e, List.mem_filter.mpr ⟨he, decide_eq_true hcontains⟩, rfl⟩)
    obtain ⟨key, hkey, heq⟩ := List.mem_map.mp hmem
    rw [triePointer] at heq
    split_ifs at heq with hown
    obtain rfl : key = e.1 := Pointer.data.inj heq
    exact ⟨hown, (mem_matching_contains.mp hkey).2⟩
  · rintro ⟨hshort, hpassed⟩ D data junk
    refine ⟨_, searchMiddle_eq hshort data junk, ?_⟩
    have hptr : (((passedFor keys).filter fun e => affix.bytes <:+: e.2).map
        fun e => triePointer keys data e.1) =
        (((passedFor keys).filter fun e => affix.bytes <:+: e.2).map Prod.fst).map
          fun key => .data (data key) := by
      rw [List.map_map]
      apply List.map_congr_left
      intro e he
      rw [List.mem_filter, decide_eq_true_eq] at he
      rw [triePointer, if_pos (hpassed e he.1 he.2).1, Function.comp_apply]
    rw [hptr]
    exact (MiddleHarmless.perm hnodup ⟨hshort, hpassed⟩).map _

end Affix

end Miqs.StringSpi
