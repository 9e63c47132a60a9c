import Mathlib.Algebra.BigOperators.Group.List.Basic
import Miqs.AffixTrie

/-! The strings that the iterators of the trie pass to their callback, against the keys they are
passed for. -/
namespace Miqs.Trie
open Miqs.CData Miqs.StringSpi
variable {V : Type}

def trieInsertAll (kvs : List (CString × V)) : TrieNode V :=
  kvs.foldl (fun root kv => trieInsert root kv.1.bytes kv.2) trieCreate

def storedValue (kvs : List (CString × V)) (key : List UInt8) : Option V :=
  (kvs.reverse.find? fun kv => kv.1.bytes = key).map Prod.snd

def reports (calls : List (CharSeq × V)) : Option (List (CString × V)) :=
  calls.mapM fun call => (str call.1).map fun key => (key, call.2)

def ReportsExactly (kvs : List (CString × V)) (asked : List UInt8 → Prop)
    (calls : Option (List (CharSeq × V))) : Prop :=
  ∃ cs found, calls = some cs ∧ reports cs = some found ∧ (found.map Prod.fst).Nodup ∧
    ∀ key v, (key, v) ∈ found ↔ asked key.bytes ∧ storedValue kvs key.bytes = some v

structure KeyOk (key : CString) : Prop where
  nonempty : key.bytes ≠ []
  sevenBit : ∀ c ∈ key.bytes, c < 128
  short : key.bytes.length < 4096

theorem trieInsertAll_append (kvs : List (CString × V)) (kv : CString × V) :
    trieInsertAll (kvs ++ [kv]) = trieInsert (trieInsertAll kvs) kv.1.bytes kv.2 := by
  simp [trieInsertAll]

theorem ok_trieInsertAll (kvs : List (CString × V)) : (trieInsertAll kvs).child.Ok := by
  induction kvs using List.reverseRecOn with
  | nil => trivial
  | append_singleton kvs kv ih =>
    rw [trieInsertAll_append]
    exact ok_insert ih kv.1.nulFree kv.2

theorem trieFind_trieInsertAll (kvs : List (CString × V)) (key : List UInt8) :
    trieFind (trieInsertAll kvs) key = storedValue kvs key := by
  induction kvs using List.reverseRecOn with
  | nil => exact trieFind_create key
  | append_singleton kvs kv ih =>
    rw [trieInsertAll_append, trieFind_insert, ih, storedValue, storedValue, List.reverse_append,
      List.reverse_singleton, List.singleton_append, List.find?_cons]
    by_cases h : kv.1.bytes = key <;> simp [h]

theorem exists_of_storedValue {kvs : List (CString × V)} {key : List UInt8} {v : V}
    (h : storedValue kvs key = some v) : ∃ kv ∈ kvs, kv.1.bytes = key := by
  obtain ⟨kv, hfind, -⟩ := Option.map_eq_some_iff.mp h
  refine ⟨kv, ?_, ?_⟩
  · exact List.mem_reverse.mp (List.mem_of_find?_eq_some hfind)
  · simpa using List.find?_some hfind

theorem storedValue_of_mem {kvs : List (CString × V)} {kv : CString × V} (h : kv ∈ kvs) :
    ∃ v, storedValue kvs kv.1.bytes = some v := by
  cases hfind : kvs.reverse.find? fun kv' => kv'.1.bytes = kv.1.bytes with
  | none =>
    have hnone := List.find?_eq_none.mp hfind kv (List.mem_reverse.mpr h)
    simp at hnone
  | some kv' => exact ⟨kv'.2, by rw [storedValue, hfind]; rfl⟩

theorem mem_entries_trieInsertAll {kvs : List (CString × V)} {key : List UInt8} {v : V} :
    (key, v) ∈ (trieInsertAll kvs).entries ↔ storedValue kvs key = some v := by
  rw [mem_entries_iff (ok_trieInsertAll kvs), trieFind_trieInsertAll]

theorem mem_keys_iff {kvs : List (CString × V)} {key : List UInt8} :
    key ∈ (trieInsertAll kvs).entries.map Prod.fst ↔ ∃ kv ∈ kvs, kv.1.bytes = key := by
  constructor
  · intro h
    obtain ⟨⟨key', v⟩, hmem, rfl⟩ := List.mem_map.mp h
    exact exists_of_storedValue (mem_entries_trieInsertAll.mp hmem)
  · intro h
    obtain ⟨kv, hkv, rfl⟩ := h
    obtain ⟨v, hv⟩ := storedValue_of_mem hkv
    exact List.mem_map.mpr ⟨(kv.1.bytes, v), mem_entries_trieInsertAll.mpr hv, rfl⟩

def entryOf (r : CString × V) : List UInt8 × V := (r.1.bytes, r.2)

theorem entryOf_injective : Function.Injective (entryOf : CString × V → List UInt8 × V) := by
  intro r s h
  obtain ⟨hbytes, hvalue⟩ := Prod.mk.inj h
  exact Prod.ext (CString.ext hbytes) hvalue

theorem nodup_fst_iff (found : List (CString × V)) :
    (found.map Prod.fst).Nodup ↔ ((found.map entryOf).map Prod.fst).Nodup := by
  have hmap : (found.map entryOf).map Prod.fst = (found.map Prod.fst).map CString.bytes := by
    simp [entryOf, Function.comp_def]
  rw [hmap, List.nodup_map_iff fun a b h => CString.ext h]

noncomputable def askedEntries (kvs : List (CString × V)) (asked : List UInt8 → Prop) :
    List (List UInt8 × V) :=
  open Classical in (trieInsertAll kvs).entries.filter fun e => asked e.1

theorem mem_askedEntries {kvs : List (CString × V)} {asked : List UInt8 → Prop} {key : List UInt8}
    {v : V} : (key, v) ∈ askedEntries kvs asked ↔ asked key ∧ storedValue kvs key = some v := by
  simp only [askedEntries, List.mem_filter, mem_entries_trieInsertAll, decide_eq_true_eq, and_comm]

theorem nodup_askedEntries (kvs : List (CString × V)) (asked : List UInt8 → Prop) :
    ((askedEntries kvs asked).map Prod.fst).Nodup :=
  (nodup_entries (ok_trieInsertAll kvs)).sublist (List.filter_sublist.map Prod.fst)

/-- Exact reports are the asked entries in some order. -/
theorem exact_iff_perm {kvs : List (CString × V)} {asked : List UInt8 → Prop}
    {found : List (CString × V)} :
    ((found.map Prod.fst).Nodup ∧
      ∀ key v, (key, v) ∈ found ↔ asked key.bytes ∧ storedValue kvs key.bytes = some v) ↔
    (found.map entryOf).Perm (askedEntries kvs asked) := by
  have hnul : ∀ {key : List UInt8} {v : V}, storedValue kvs key = some v → 0 ∉ key := by
    intro key v h
    obtain ⟨kv, -, rfl⟩ := exists_of_storedValue h
    exact kv.1.nulFree
  have hmem : ∀ (key : CString) (v : V),
      (key.bytes, v) ∈ found.map entryOf ↔ (key, v) ∈ found := by
    intro key v
    exact List.mem_map_of_injective entryOf_injective (a := (key, v))
  rw [nodup_fst_iff]
  constructor
  · rintro ⟨hnodup, hexact⟩
    refine (List.perm_ext_iff_of_nodup hnodup.of_map (nodup_askedEntries kvs asked).of_map).mpr ?_
    rintro ⟨key, v⟩
    rw [mem_askedEntries]
    constructor
    · intro h
      obtain ⟨r, hr, heq⟩ := List.mem_map.mp h
      obtain ⟨rfl, rfl⟩ := Prod.mk.inj heq
      exact (hexact r.1 r.2).mp hr
    · intro h
      exact (hmem ⟨key, hnul h.2⟩ v).mpr ((hexact ⟨key, hnul h.2⟩ v).mpr h)
  · intro hperm
    refine ⟨(hperm.map Prod.fst).nodup_iff.mpr (nodup_askedEntries kvs asked), ?_⟩
    intro key v
    rw [← hmem, hperm.mem_iff, mem_askedEntries]

theorem reportsExactly_iff (kvs : List (CString × V)) (asked : List UInt8 → Prop)
    (calls : Option (List (CharSeq × V))) :
    ReportsExactly kvs asked calls ↔ ∃ cs found, calls = some cs ∧ reports cs = some found ∧
      (found.map entryOf).Perm (askedEntries kvs asked) := by
  constructor
  · rintro ⟨cs, found, hcs, hfound, hexact⟩
    exact ⟨cs, found, hcs, hfound, exact_iff_perm.mp hexact⟩
  · rintro ⟨cs, found, hcs, hfound, hperm⟩
    exact ⟨cs, found, hcs, hfound, exact_iff_perm.mpr hperm⟩

/-- Calls whose buffers show strings are reported with these. -/
theorem reports_of_shows {calls : List (CharSeq × V)} {shown : List (List UInt8)}
    (h : List.Forall₂ Shows (calls.map fun call => call.1.seq) shown)
    (hlen : ∀ call ∈ calls, 4096 ≤ call.1.seqLen) :
    ∃ found, reports calls = some found ∧ found.map entryOf = shown.zip (calls.map Prod.snd) := by
  induction calls generalizing shown with
  | nil =>
    cases h
    exact ⟨[], rfl, rfl⟩
  | cons call calls ih =>
    cases h with
    | @cons _ b _ bs hshow hshows =>
      obtain ⟨found, hfound, hentries⟩ := ih hshows fun c hc => hlen c (List.mem_cons_of_mem call hc)
      have hstr := str_of_shows hshow (hlen call (by simp))
      refine ⟨(⟨b, hshow.nulFree⟩, call.2) :: found, ?_, ?_⟩
      · rw [reports] at hfound ⊢
        rw [List.mapM_cons, hstr, hfound]
        rfl
      · rw [List.map_cons, hentries]
        rfl

/-- A string in a buffer begins with what the buffer begins with. -/
theorem CharSeq.Holds.str_begins {visited : CharSeq} {path : List UInt8} (h : visited.Holds path)
    (hnul : 0 ∉ path) {s : CString} (hs : str visited = some s) : path <+: s.bytes := by
  rw [str] at hs
  split_ifs at hs with hzero
  obtain rfl := Option.some.inj hs
  obtain ⟨j, hj, hend⟩ := List.mem_map.mp hzero
  have hroom : path.length ≤ j := by
    by_contra hlt
    have hget := List.getElem?_eq_getElem (Nat.not_le.mp hlt)
    have hheld := h j _ hget
    exact hnul (hend ▸ hheld ▸ List.getElem_mem _)
  obtain ⟨more, hmore⟩ := Nat.exists_eq_add_of_le (hroom.trans (List.mem_range.mp hj).le)
  have hpath : (List.range path.length).map visited.seq = path := by
    apply List.ext_getElem (by simp)
    intro i hi hi'
    rw [List.getElem_map, List.getElem_range]
    exact h i _ (List.getElem?_eq_getElem hi')
  have hbytes : (List.range visited.seqLen).map visited.seq =
      path ++ (List.range more).map fun i => visited.seq (path.length + i) := by
    rw [hmore, List.range_add, List.map_append, hpath, List.map_map]
    rfl
  have hpart : ∀ b ∈ path, decide (b ≠ 0) = true :=
    fun b hb => decide_eq_true fun hz => hnul (hz ▸ hb)
  change path <+: List.takeWhile _ _
  rw [hbytes, List.takeWhile_append_of_pos hpart]
  exact List.prefix_append _ _

theorem reports_forall₂ {calls : List (CharSeq × V)} {found : List (CString × V)}
    (h : reports calls = some found) : List.Forall₂ (fun call r => str call.1 = some r.1) calls found := by
  induction calls generalizing found with
  | nil =>
    obtain rfl := Option.some.inj h
    exact List.Forall₂.nil
  | cons call calls ih =>
    rw [reports, List.mapM_cons] at h
    obtain ⟨r, hr, h⟩ := Option.bind_eq_some_iff.mp h
    obtain ⟨rs, hrs, h⟩ := Option.bind_eq_some_iff.mp h
    obtain rfl := Option.some.inj h
    obtain ⟨s, hs, rfl⟩ := Option.map_eq_some_iff.mp hr
    exact List.Forall₂.cons hs (ih hrs)

theorem exists_call {calls : List (CharSeq × V)} {found : List (CString × V)}
    (h : reports calls = some found) {r : CString × V} (hr : r ∈ found) :
    ∃ call ∈ calls, str call.1 = some r.1 := by
  have hzip := (List.forall₂_iff_zip.mp (reports_forall₂ h))
  obtain ⟨i, hi, rfl⟩ := List.getElem_of_mem hr
  have hi' : i < calls.length := by
    rw [hzip.1]
    exact hi
  refine ⟨calls[i], List.getElem_mem hi', hzip.2 ?_⟩
  exact List.mem_iff_getElem.mpr ⟨i, by simp [hi, hi'], List.getElem_zip⟩

/-- The string reported for each call begins with what its buffer begins with. -/
theorem reported_begins {calls : List (CharSeq × V)} {keys : List (List UInt8)}
    (hkeys : List.Forall₂ (fun call key => CharSeq.Holds call.1 key ∧ 0 ∉ key) calls keys)
    {found : List (CString × V)} (hfound : List.Forall₂ (fun call r => str call.1 = some r.1) calls found) :
    List.Forall₂ (fun key shown => key <+: shown) keys ((found.map entryOf).map Prod.fst) := by
  induction hkeys generalizing found with
  | nil =>
    cases hfound
    exact List.Forall₂.nil
  | cons hkey _ ih =>
    cases hfound with
    | cons hs hfound => exact List.Forall₂.cons (hkey.1.str_begins hkey.2 hs) (ih hfound)

/-- Strings that begin with the keys are together at least as long, and are the keys if they
are not longer. -/
theorem sum_length_le {keys shown : List (List UInt8)}
    (h : List.Forall₂ (fun key s => key <+: s) keys shown) :
    (keys.map List.length).sum ≤ (shown.map List.length).sum ∧
      ((shown.map List.length).sum ≤ (keys.map List.length).sum → shown = keys) := by
  induction h with
  | nil => exact ⟨Nat.le_refl _, fun _ => rfl⟩
  | @cons key s keys shown hpre _ ih =>
    have hlen := hpre.length_le
    rw [List.map_cons, List.map_cons, List.sum_cons, List.sum_cons]
    refine ⟨Nat.add_le_add hlen ih.1, ?_⟩
    intro hle
    have hle' := ih.1
    rw [ih.2 (by omega), hpre.eq_of_length (by omega)]

theorem written_holds (seq : Nat → UInt8) (keys : List (List UInt8)) :
    List.Forall₂ (fun seq' key => ∀ i c, key[i]? = some c → seq' i = c) (written seq keys) keys := by
  induction keys generalizing seq with
  | nil => exact List.Forall₂.nil
  | cons key keys ih =>
    refine List.Forall₂.cons ?_ (ih (write seq key))
    intro i c hi
    rw [write, hi, Option.getD_some]

/-- The strings reported for buffers written with keys begin with the keys. -/
theorem reported_of_written {calls : List (CharSeq × V)} {seq : Nat → UInt8} {keys : List (List UInt8)}
    (hcalls : (calls.map fun call => call.1.seq) = written seq keys) (hnul : ∀ key ∈ keys, 0 ∉ key)
    {found : List (CString × V)} (hfound : reports calls = some found) :
    List.Forall₂ (fun key shown => key <+: shown) keys ((found.map entryOf).map Prod.fst) := by
  have hholds := written_holds seq keys
  rw [← hcalls, List.forall₂_map_left_iff] at hholds
  refine reported_begins ?_ (reports_forall₂ hfound)
  rw [List.forall₂_iff_zip] at hholds ⊢
  refine ⟨hholds.1, ?_⟩
  intro call key hmem
  exact ⟨hholds.2 hmem, hnul key (List.of_mem_zip hmem).2⟩

/-- Every key written stays as it is when no longer one was written before. -/
theorem overlays_eq_iff (s : List UInt8) (keys : List (List UInt8)) :
    overlays s keys = keys ↔
      (∀ key ∈ keys, s.length ≤ key.length) ∧ keys.Pairwise fun a b => a.length ≤ b.length := by
  induction keys generalizing s with
  | nil => simp [overlays]
  | cons key keys ih =>
    have hkey : overlay s key = key ↔ s.length ≤ key.length := by
      rw [overlay, List.append_right_eq_self, List.drop_eq_nil_iff]
    rw [overlays, List.cons.injEq, hkey, List.pairwise_cons, List.forall_mem_cons]
    constructor
    · rintro ⟨hle, hrest⟩
      rw [hkey.mpr hle, ih] at hrest
      exact ⟨⟨hle, fun b hb => hle.trans (hrest.1 b hb)⟩, hrest⟩
    · rintro ⟨⟨hle, -⟩, hrest⟩
      rw [hkey.mpr hle, ih]
      exact ⟨hle, hrest⟩

def LengthsAscend (kvs : List (CString × V)) : Prop :=
  ∀ kv ∈ kvs, ∀ kv' ∈ kvs, kv.1.bytes < kv'.1.bytes → kv.1.bytes.length ≤ kv'.1.bytes.length

theorem lengthsAscend_iff (kvs : List (CString × V)) :
    LengthsAscend kvs ↔
      ((trieInsertAll kvs).entries.map Prod.fst).Pairwise fun a b => a.length ≤ b.length := by
  have hasc := entries_ascending (ok_trieInsertAll kvs)
  constructor
  · intro h
    refine hasc.imp_of_mem ?_
    intro a b ha hb hlt
    obtain ⟨kv, hkv, rfl⟩ := mem_keys_iff.mp ha
    obtain ⟨kv', hkv', rfl⟩ := mem_keys_iff.mp hb
    exact h kv hkv kv' hkv' hlt
  · intro h kv hkv kv' hkv'
    have hboth := hasc.and h
    have hboth' : ((trieInsertAll kvs).entries.map Prod.fst).Pairwise fun a b =>
        (a < b → a.length ≤ b.length) ∧ (b < a → b.length ≤ a.length) := by
      refine hboth.imp ?_
      intro a b hab
      exact ⟨fun _ => hab.2, fun hba => absurd hab.1 (List.lt_asymm hba)⟩
    have hsym : Std.Symm fun a b : List UInt8 =>
        (a < b → a.length ≤ b.length) ∧ (b < a → b.length ≤ a.length) :=
      ⟨fun _ _ hab => ⟨hab.2, hab.1⟩⟩
    refine (List.Pairwise.forall_of_forall ?_ hboth' (mem_keys_iff.mpr ⟨kv, hkv, rfl⟩)
      (mem_keys_iff.mpr ⟨kv', hkv', rfl⟩)).1
    intro a _
    exact ⟨fun _ => Nat.le_refl _, fun _ => Nat.le_refl _⟩

theorem nulFree_of_stored {kvs : List (CString × V)} {key : List UInt8}
    (h : key ∈ (trieInsertAll kvs).entries.map Prod.fst) : 0 ∉ key := by
  obtain ⟨kv, -, rfl⟩ := mem_keys_iff.mp h
  exact kv.1.nulFree

theorem askedEntries_all (kvs : List (CString × V)) :
    askedEntries kvs (fun _ => True) = (trieInsertAll kvs).entries := by
  simp [askedEntries]

/-- What `trie_iter_all` passes: the keys written over one another. -/
theorem reports_trieIterAll {kvs : List (CString × V)} (h : ∀ kv ∈ kvs, KeyOk kv.1) (junk : Nat → UInt8) :
    ∃ found, reports (trieIterAll junk (trieInsertAll kvs)) = some found ∧
      found.map entryOf = (overlays [] ((trieInsertAll kvs).entries.map Prod.fst)).zip
        ((trieInsertAll kvs).entries.map Prod.snd) := by
  have hkeys : ∀ key ∈ (trieInsertAll kvs).entries.map Prod.fst, 0 ∉ key ∧ key.length < 4096 := by
    intro key hkey
    refine ⟨nulFree_of_stored hkey, ?_⟩
    obtain ⟨kv, hkv, rfl⟩ := mem_keys_iff.mp hkey
    exact (h kv hkv).short
  have hshows := written_shows (shows_calloc junk) hkeys
  rw [← trieIterAll_seqs (ok_trieInsertAll kvs) junk] at hshows
  rw [← trieIterAll_values junk]
  exact reports_of_shows hshows (trieIterAll_seqLen _ junk)

theorem reportsExactly_all_iff {kvs : List (CString × V)} (h : ∀ kv ∈ kvs, KeyOk kv.1)
    (junk : Nat → UInt8) :
    ReportsExactly kvs (fun _ => True) (some (trieIterAll junk (trieInsertAll kvs))) ↔
      LengthsAscend kvs := by
  obtain ⟨found, hfound, hentries⟩ := reports_trieIterAll h junk
  have hlen : (overlays [] ((trieInsertAll kvs).entries.map Prod.fst)).length =
      ((trieInsertAll kvs).entries.map Prod.snd).length := by
    rw [length_overlays, List.length_map, List.length_map]
  have hstrings : (found.map entryOf).map Prod.fst =
      overlays [] ((trieInsertAll kvs).entries.map Prod.fst) := by
    rw [hentries, List.map_fst_zip hlen.le]
  have hown : overlays [] ((trieInsertAll kvs).entries.map Prod.fst) =
      (trieInsertAll kvs).entries.map Prod.fst ↔ LengthsAscend kvs := by
    rw [overlays_eq_iff, lengthsAscend_iff]
    simp
  rw [← hown, reportsExactly_iff, askedEntries_all]
  constructor
  · rintro ⟨calls, found', hcalls, hfound', hentries'⟩
    obtain rfl := Option.some.inj hcalls
    obtain rfl := Option.some.inj (hfound.symm.trans hfound')
    have hperm := hentries'.map Prod.fst
    have hbegin := reported_of_written (trieIterAll_seqs (ok_trieInsertAll kvs) junk)
      (fun key hkey => nulFree_of_stored hkey) hfound
    rw [← hstrings]
    exact (sum_length_le hbegin).2 (hperm.map List.length).sum_eq.le
  · intro heq
    refine ⟨_, found, rfl, hfound, List.Perm.of_eq ?_⟩
    rw [hentries, heq]
    exact (List.zip_of_prod rfl rfl).symm

def WalksSevenBit (kvs : List (CString × V)) (pre : List UInt8) : Prop :=
  ∀ q c rest, pre = q ++ c :: rest → (q = [] ∨ ∃ kv ∈ kvs, q <+: kv.1.bytes) → c < 128

theorem onPath_trieInsertAll {kvs : List (CString × V)} {q : List UInt8} :
    (trieFindInternal (trieInsertAll kvs) q).isSome ↔ q = [] ∨ ∃ kv ∈ kvs, q <+: kv.1.bytes := by
  rw [findInternal_isSome_iff (ok_trieInsertAll kvs)]
  refine or_congr Iff.rfl ?_
  constructor
  · rintro ⟨e, he, hpre⟩
    obtain ⟨kv, hkv, heq⟩ := mem_keys_iff.mp (List.mem_map_of_mem he)
    exact ⟨kv, hkv, heq ▸ hpre⟩
  · rintro ⟨kv, hkv, hpre⟩
    obtain ⟨e, he, heq⟩ := List.mem_map.mp (mem_keys_iff.mpr ⟨kv, hkv, rfl⟩)
    exact ⟨e, he, heq ▸ hpre⟩

theorem walkSafe_trieInsertAll {kvs : List (CString × V)} (h : ∀ kv ∈ kvs, KeyOk kv.1) {pre : List UInt8} :
    WalkSafe (trieInsertAll kvs) pre 4096 ↔ WalksSevenBit kvs pre := by
  simp only [WalkSafe, WalksSevenBit, onPath_trieInsertAll]
  constructor
  · intro hsafe q c rest heq hq
    exact (hsafe q c rest heq hq).1
  · intro hwalk q c rest heq hq
    refine ⟨hwalk q c rest heq hq, ?_⟩
    rintro (hnil | ⟨kv, hkv, hpre⟩)
    · simp at hnil
    · have hlen := hpre.length_le
      have hshort := (h kv hkv).short
      simp only [List.length_append, List.length_singleton] at hlen
      omega

theorem askedEntries_below (kvs : List (CString × V)) (pre : List UInt8) :
    askedEntries kvs (fun key => pre <+: key) =
      (trieInsertAll kvs).entries.filter fun e => pre <+: e.1 := by
  rw [askedEntries]
  exact List.filter_congr fun e _ => by simp

/-- The buffer at the node of a string holds the string, whose last character is `pidx`. -/
theorem descend_holds {pidx pidx' : UInt8} {node node' : TrieNode V} {path pre : List UInt8}
    {visited visited' : CharSeq} (hpath : visited.Holds path)
    (h : descend pidx node pre path.length visited = some (some (pidx', node', visited'))) :
    visited'.Holds (path ++ pre) ∧ pidx' = pre.getLastD pidx := by
  induction pre generalizing pidx node path visited with
  | nil =>
    simp only [descend, Option.some.injEq, Prod.mk.injEq] at h
    obtain ⟨rfl, -, rfl⟩ := h
    exact ⟨by rwa [List.append_nil], rfl⟩
  | cons c pre ih =>
    rw [descend] at h
    cases hget : node.child.get c with
    | none =>
      rw [hget] at h
      simp at h
    | some n =>
      rw [hget] at h
      dsimp only at h
      split_ifs at h with hc hroom
      have hlen : path.length + 1 = (path ++ [c]).length := by simp
      rw [hlen] at h
      obtain ⟨hholds, hlast⟩ := ih (hpath.update c) h
      rw [List.append_assoc, List.singleton_append] at hholds
      exact ⟨hholds, by rw [hlast, List.getLastD_cons]⟩

/-- Positions above the children are not written. -/
theorem iterateChildren_above (t : Children V) {pos i : Nat} (hi : i < pos) (visited : CharSeq) :
    (∀ call ∈ (iterateChildren t pos visited).1, call.1.seq i = visited.seq i) ∧
      (iterateChildren t pos visited).2.seq i = visited.seq i := by
  induction t generalizing pos visited with
  | nil => simp [iterateChildren]
  | cons pidx value child next ihc ihn =>
    have henter : (visited.enter pos pidx).seq i = visited.seq i := by
      simp only [CharSeq.enter]
      split_ifs
      · rw [Function.update_of_ne hi.ne]
      · rfl
    obtain ⟨hcalls, hbuf⟩ := ihc (Nat.lt_succ_of_lt hi) (visited.enter pos pidx)
    obtain ⟨hcalls', hbuf'⟩ := ihn hi (iterateChildren child (pos + 1) (visited.enter pos pidx)).2
    rw [hbuf, henter] at hbuf'
    refine ⟨?_, hbuf'⟩
    intro call hcall
    simp only [iterateChildren, CharSeq.calls, List.mem_append, List.mem_map] at hcall
    rcases hcall with (⟨v, -, rfl⟩ | hcall) | hcall
    · exact henter
    · rw [hcalls call hcall, henter]
    · rw [hcalls' call hcall, hbuf, henter]

theorem bytes_eq_nil {visited : CharSeq} (h : visited.seq 0 = 0) {s : CString}
    (hs : str visited = some s) : s.bytes = [] := by
  rw [str] at hs
  split_ifs at hs with hzero
  obtain rfl := Option.some.inj hs
  obtain ⟨j, hj, -⟩ := List.mem_map.mp hzero
  obtain ⟨n, hn⟩ := Nat.exists_eq_add_of_lt (List.mem_range.mp hj)
  change List.takeWhile _ _ = []
  rw [hn, List.range_succ_eq_map, List.map_cons, List.takeWhile_cons_of_neg (by simp [h])]

theorem sum_length_keysBelow (pre : List UInt8) (c : UInt8) (entries : List (List UInt8 × V)) :
    ((keysBelow (pre ++ [c]) entries).map List.length).sum =
      ((keysBelow pre entries).map List.length).sum + entries.length := by
  induction entries with
  | nil => rfl
  | cons e entries ih =>
    rw [keysBelow, keysBelow] at ih ⊢
    simp only [List.map_cons, List.sum_cons, List.length_append, List.length_cons, List.length_nil] at ih ⊢
    omega

section Below
variable {kvs : List (CString × V)} {junk : Nat → UInt8} {pre : List UInt8}
  {calls : List (CharSeq × V)} {found : List (CString × V)}

/-- The calls below a prefix that is not stored: its last character is written once more,
and the characters below behind it. -/
theorem below_calls (hne : pre ≠ []) (hnul : 0 ∉ pre) (habsent : trieFind (trieInsertAll kvs) pre = none)
    {node : TrieNode V} (hnode : trieFindInternal (trieInsertAll kvs) pre = some node)
    (hcalls : trieIterPrefix junk (trieInsertAll kvs) pre = some calls) :
    ∃ seq c, 0 < c ∧
      (calls.map fun call => call.1.seq) = written seq (keysBelow (pre ++ [c]) node.entries) := by
  rw [trieIterPrefix] at hcalls
  obtain ⟨reached, hreached, rfl⟩ := Option.map_eq_some_iff.mp hcalls
  have hreach := descend_node hreached
  rw [hnode] at hreach
  obtain ⟨⟨pidx, node', visited⟩, rfl, hnode'⟩ := Option.map_eq_some_iff.mp hreach
  obtain rfl : node' = node := hnode'
  have hempty : (CharSeq.calloc junk).Holds [] := by
    intro i c hi
    simp at hi
  obtain ⟨hholds, hlast⟩ := descend_holds hempty hreached
  rw [List.nil_append] at hholds
  have hpos : 0 < pidx := by
    rw [UInt8.pos_iff_ne_zero, hlast, List.getLastD_eq_getLast?, List.getLast?_eq_getLast_of_ne_nil hne]
    rintro hz
    exact hnul (hz ▸ List.getLast_mem hne)
  have hvalue : node'.value = none := by
    rwa [trieFind, hnode] at habsent
  have hok := ((ok_trieInsertAll kvs).findInternal hnode).1
  have hseqs := (iterateChildren_seqs hok (hholds.enter hpos)).1
  refine ⟨(visited.enter pre.length pidx).seq, pidx, hpos, ?_⟩
  have hentries : node'.entries = node'.child.entries := by
    rw [TrieNode.entries, hvalue]
    rfl
  rw [hentries, ← hseqs]
  simp [trieNodeIterate, CharSeq.calls, hvalue]

/-- Strings reported below a prefix are longer than the keys. -/
theorem not_exact_of_absent (hne : pre ≠ []) (hnul : 0 ∉ pre)
    (habsent : trieFind (trieInsertAll kvs) pre = none) {kv : CString × V} (hkv : kv ∈ kvs)
    (hpre : pre <+: kv.1.bytes) (hcalls : trieIterPrefix junk (trieInsertAll kvs) pre = some calls)
    (hfound : reports calls = some found) :
    ¬ (found.map entryOf).Perm (askedEntries kvs fun key => pre <+: key) := by
  intro hperm
  obtain ⟨node, hnode⟩ := Option.isSome_iff_exists.mp
    (onPath_trieInsertAll.mpr (Or.inr ⟨kv, hkv, hpre⟩))
  obtain ⟨seq, c, hc, hseqs⟩ := below_calls hne hnul habsent hnode hcalls
  have hbelow := entries_below (ok_trieInsertAll kvs) hnode
  have hkeys : ((found.map entryOf).map Prod.fst).Perm (keysBelow pre node.entries) := by
    rw [askedEntries_below] at hperm
    have h := (hperm.trans hbelow.symm).map Prod.fst
    rwa [List.map_map (l := node.entries)] at h
  have hfree : ∀ key ∈ keysBelow (pre ++ [c]) node.entries, 0 ∉ key := by
    intro key hkey
    obtain ⟨e, he, rfl⟩ := List.mem_map.mp hkey
    have hstored := hbelow.mem_iff.mp (List.mem_map_of_mem (f := fun e => (pre ++ e.1, e.2)) he)
    have hfree := nulFree_of_stored (List.mem_map_of_mem (f := Prod.fst) (List.mem_of_mem_filter hstored))
    rw [List.mem_append, not_or] at hfree
    simp [hnul, hfree.2, (UInt8.pos_iff_ne_zero.mp hc).symm]
  have hle := (sum_length_le (reported_of_written hseqs hfree hfound)).1
  rw [(hkeys.map List.length).sum_eq, sum_length_keysBelow] at hle
  have hnone := ((ok_trieInsertAll kvs).findInternal hnode).2 hne
  exact hnone (List.length_eq_zero_iff.mp (by omega))

/-- Below the empty prefix the buffer stays empty at its first character. -/
theorem not_exact_of_nil (h : ∀ kv ∈ kvs, KeyOk kv.1) (hne : kvs ≠ [])
    (hcalls : trieIterPrefix junk (trieInsertAll kvs) [] = some calls)
    (hfound : reports calls = some found) :
    ¬ (found.map entryOf).Perm (askedEntries kvs fun key => [] <+: key) := by
  intro hperm
  obtain ⟨kv, hkv⟩ := List.exists_mem_of_ne_nil kvs hne
  obtain ⟨v, hv⟩ := storedValue_of_mem hkv
  have hmem := hperm.mem_iff.mpr (mem_askedEntries.mpr ⟨ List.nil_prefix, hv⟩)
  obtain ⟨r, hr, heq⟩ := List.mem_map.mp hmem
  obtain ⟨call, hcall, hstr⟩ := exists_call hfound hr
  have hfirst : call.1.seq 0 = 0 := by
    obtain rfl := Option.some.inj hcalls
    have hcalls := (iterateChildren_above (trieInsertAll kvs).child Nat.zero_lt_one
      ((CharSeq.calloc junk).enter 0 0)).1 call
    simp only [trieNodeIterate, CharSeq.calls, List.mem_append, List.mem_map] at hcall
    rcases hcall with ⟨v, -, rfl⟩ | ⟨v, -, rfl⟩ | hcall
    · rfl
    · rfl
    · exact hcalls hcall
  have hbytes : kv.1.bytes = [] := by
    rw [← (Prod.mk.inj heq).1]
    exact bytes_eq_nil hfirst hstr
  exact (h kv hkv).nonempty hbytes

end Below

theorem reportsExactly_below_iff {kvs : List (CString × V)} (h : ∀ kv ∈ kvs, KeyOk kv.1)
    (junk : Nat → UInt8) (pre : CString) :
    ReportsExactly kvs (fun key => pre.bytes <+: key) (trieIterPrefix junk (trieInsertAll kvs) pre.bytes) ↔
      WalksSevenBit kvs pre.bytes ∧ ∀ kv ∈ kvs, ¬ pre.bytes <+: kv.1.bytes := by
  rw [reportsExactly_iff, ← walkSafe_trieInsertAll h]
  constructor
  · rintro ⟨calls, found, hcalls, hfound, hperm⟩
    have hsafe : WalkSafe (trieInsertAll kvs) pre.bytes 4096 := by
      by_contra hunsafe
      rw [trieIterPrefix_eq_none junk hunsafe] at hcalls
      simp at hcalls
    refine ⟨hsafe, ?_⟩
    intro kv hkv hpre
    cases hfind : trieFind (trieInsertAll kvs) pre.bytes with
    | some v =>
      -- a stored prefix is reported twice
      obtain ⟨calls', hcalls', hvalues⟩ := trieIterPrefix_perm (ok_trieInsertAll kvs) junk hsafe
      obtain rfl := Option.some.inj (hcalls.symm.trans hcalls')
      have hlen := hvalues.length_eq
      have hlen' := hperm.length_eq
      have hlen'' := (reports_forall₂ hfound).length_eq
      rw [askedEntries_below] at hlen'
      simp only [hfind, Option.toList_some, List.length_map, List.length_append,
        List.length_singleton] at hlen hlen' hlen''
      omega
    | none =>
      by_cases hne : pre.bytes = []
      · rw [hne] at hcalls hperm
        exact not_exact_of_nil h (List.ne_nil_of_mem hkv) hcalls hfound hperm
      · exact not_exact_of_absent hne pre.nulFree hfind hkv hpre hcalls hfound hperm
  · rintro ⟨hsafe, habsent⟩
    have hnone : (trieInsertAll kvs).entries.filter (fun e => pre.bytes <+: e.1) = [] := by
      rw [List.filter_eq_nil_iff]
      intro e he hpre
      obtain ⟨kv, hkv, heq⟩ := mem_keys_iff.mp (List.mem_map_of_mem he)
      exact habsent kv hkv (heq ▸ of_decide_eq_true hpre)
    have hfind : trieFind (trieInsertAll kvs) pre.bytes = none := by
      cases hfind : trieFind (trieInsertAll kvs) pre.bytes with
      | none => rfl
      | some v =>
        rw [trieFind_trieInsertAll] at hfind
        obtain ⟨kv, hkv, heq⟩ := exists_of_storedValue hfind
        exact absurd (heq ▸ List.prefix_refl _) (habsent kv hkv)
    obtain ⟨calls, hcalls, hvalues⟩ := trieIterPrefix_perm (ok_trieInsertAll kvs) junk hsafe
    rw [hnone, hfind] at hvalues
    obtain rfl : calls = [] := by simpa using hvalues
    refine ⟨[], [], hcalls, rfl, ?_⟩
    rw [askedEntries_below, hnone]
    exact List.Perm.refl _

/-- `trie_iter_all` passes every key by its own name when no key comes before a shorter one.
`trie_iter_prefix` does so only where there is nothing to pass. -/
theorem trie_iterators_iff (kvs : List (CString × V)) (h : ∀ kv ∈ kvs, KeyOk kv.1) (junk : Nat → UInt8) :
    (ReportsExactly kvs (fun _ => True) (some (trieIterAll junk (trieInsertAll kvs))) ↔
      LengthsAscend kvs) ∧
    ∀ pre : CString,
      ReportsExactly kvs (fun key => pre.bytes <+: key)
          (trieIterPrefix junk (trieInsertAll kvs) pre.bytes) ↔
        WalksSevenBit kvs pre.bytes ∧ ∀ kv ∈ kvs, ¬ pre.bytes <+: kv.1.bytes :=
  ⟨reportsExactly_all_iff h junk, reportsExactly_below_iff h junk⟩

def ascendingKeys : List (CString × Nat) := [(CString.ofBytes [97], 1), (CString.ofBytes [98, 98], 2)]

def descendingKeys : List (CString × Nat) := [(CString.ofBytes [97, 97], 1), (CString.ofBytes [98], 2)]

theorem keyOk_ascendingKeys : ∀ kv ∈ ascendingKeys, KeyOk kv.1 := by
  intro kv hkv
  simp only [ascendingKeys, List.mem_cons, List.not_mem_nil, or_false] at hkv
  rcases hkv with rfl | rfl
  · exact ⟨by decide, by simp [CString.ofBytes], by decide⟩
  · exact ⟨by decide, by simp [CString.ofBytes], by decide⟩

theorem keyOk_descendingKeys : ∀ kv ∈ descendingKeys, KeyOk kv.1 := by
  intro kv hkv
  simp only [descendingKeys, List.mem_cons, List.not_mem_nil, or_false] at hkv
  rcases hkv with rfl | rfl
  · exact ⟨by decide, by simp [CString.ofBytes], by decide⟩
  · exact ⟨by decide, by simp [CString.ofBytes], by decide⟩

theorem trie_iterators_iff_ascending :
    ReportsExactly ascendingKeys (fun _ => True)
        (some (trieIterAll (fun _ => 0) (trieInsertAll ascendingKeys))) ∧
      ¬ ReportsExactly ascendingKeys (fun key => [98] <+: key)
        (trieIterPrefix (fun _ => 0) (trieInsertAll ascendingKeys) [98]) := by
  have h := trie_iterators_iff ascendingKeys keyOk_ascendingKeys fun _ => 0
  refine ⟨h.1.mpr ?_, ?_⟩
  · unfold LengthsAscend
    decide
  · intro hexact
    exact ((h.2 (CString.ofBytes [98])).mp hexact).2 (CString.ofBytes [98, 98], 2) (by decide) (by decide)

/-- After `aa` the key `b` is passed as `ba`, and below `a` the key `aa` is passed as `aaa`. -/
theorem trie_iterators_other_names :
    (∀ kv ∈ descendingKeys, KeyOk kv.1) ∧
      (∃ found, reports (trieIterAll (fun _ => 0) (trieInsertAll descendingKeys)) = some found ∧
        found.map entryOf = [([97, 97], 1), ([98, 97], 2)]) ∧
      ¬ ReportsExactly descendingKeys (fun _ => True)
        (some (trieIterAll (fun _ => 0) (trieInsertAll descendingKeys))) ∧
      ¬ ReportsExactly descendingKeys (fun key => [97] <+: key)
        (trieIterPrefix (fun _ => 0) (trieInsertAll descendingKeys) [97]) := by
  refine ⟨keyOk_descendingKeys, reports_trieIterAll keyOk_descendingKeys _, ?_, ?_⟩
  · rw [reportsExactly_all_iff keyOk_descendingKeys]
    unfold LengthsAscend
    decide
  · intro hexact
    have hbelow := (reportsExactly_below_iff keyOk_descendingKeys _ (CString.ofBytes [97])).mp hexact
    exact hbelow.2 (CString.ofBytes [97, 97], 1) (by decide) (by decide)

end Miqs.Trie
