import Mathlib.Data.List.Lex
import Mathlib.Data.List.Sort
import Miqs.TrieIteration

/-! The buffer of `trie_iter_all` at each call: the keys are written over one another in
ascending order, and what a longer key left behind a shorter one stays. -/
namespace Miqs.Trie
variable {V : Type}

def write (seq : Nat → UInt8) (key : List UInt8) : Nat → UInt8 := fun i => (key[i]?).getD (seq i)

def written (seq : Nat → UInt8) : List (List UInt8) → List (Nat → UInt8)
  | [] => []
  | key :: keys => write seq key :: written (write seq key) keys

theorem written_append (seq : Nat → UInt8) (keys keys' : List (List UInt8)) :
    written seq (keys ++ keys') = written seq keys ++ written (keys.foldl write seq) keys' := by
  induction keys generalizing seq with
  | nil => rfl
  | cons key keys ih => rw [List.cons_append, written, ih, written, List.foldl_cons, List.cons_append]

/-- An initial part that is written first does not matter. -/
theorem write_write {seq : Nat → UInt8} {pre key : List UInt8} (h : pre <+: key) :
    write (write seq pre) key = write seq key := by
  funext i
  cases hi : key[i]? with
  | some c => simp [write, hi]
  | none =>
    have hpre : pre[i]? = none := by
      rw [List.getElem?_eq_none_iff] at hi ⊢
      exact h.length_le.trans hi
    simp [write, hi, hpre]

theorem written_write {seq : Nat → UInt8} {pre : List UInt8} {keys : List (List UInt8)} (hne : keys ≠ [])
    (h : ∀ key ∈ keys, pre <+: key) :
    written (write seq pre) keys = written seq keys ∧
      keys.foldl write (write seq pre) = keys.foldl write seq := by
  cases keys with
  | nil => exact absurd rfl hne
  | cons key keys =>
    rw [written, written, List.foldl_cons, List.foldl_cons, write_write (h key (by simp))]
    exact ⟨rfl, rfl⟩

theorem CharSeq.Holds.enter_seq {visited : CharSeq} {path : List UInt8} (h : visited.Holds path)
    {c : UInt8} (hc : 0 < c) : (visited.enter path.length c).seq = write visited.seq (path ++ [c]) := by
  funext i
  simp only [CharSeq.enter, if_pos (show c > 0 from hc), Function.update_apply, write]
  rcases Nat.lt_trichotomy i path.length with hlt | heq | hgt
  · rw [if_neg hlt.ne, List.getElem?_append_left hlt, List.getElem?_eq_getElem hlt, Option.getD_some]
    exact h i _ (List.getElem?_eq_getElem hlt)
  · subst heq
    simp
  · rw [if_neg hgt.ne', List.getElem?_eq_none (by simp; omega), Option.getD_none]

theorem CharSeq.Holds.seq_eq {visited : CharSeq} {path : List UInt8} (h : visited.Holds path) :
    write visited.seq path = visited.seq := by
  funext i
  cases hi : path[i]? with
  | some c => simp [write, hi, h i c hi]
  | none => simp [write, hi]

def keysBelow (path : List UInt8) (entries : List (List UInt8 × V)) : List (List UInt8) :=
  entries.map fun e => path ++ e.1

theorem keysBelow_cons (path : List UInt8) (pidx : UInt8) (value : Option V) (child next : Children V) :
    keysBelow path (Children.cons pidx value child next).entries =
      keysBelow (path ++ [pidx]) (TrieNode.mk value child).entries ++ keysBelow path next.entries := by
  rw [Children.entries_cons, keysBelow, List.map_append, List.map_map, keysBelow, keysBelow]
  simp [Function.comp_def]

theorem calls_seqs (visited : CharSeq) (value : Option V) (path : List UInt8) (h : visited.Holds path) :
    (visited.calls value).map (fun call => call.1.seq) =
        written visited.seq (keysBelow path (value.toList.map fun v => ([], v))) ∧
      (keysBelow path (value.toList.map fun v => (([] : List UInt8), v))).foldl write visited.seq =
        visited.seq := by
  cases value with
  | none => exact ⟨rfl, rfl⟩
  | some v => simp [CharSeq.calls, keysBelow, written, h.seq_eq]

theorem node_seqs {value : Option V} {child : Children V} {path : List UInt8} {visited : CharSeq}
    (h : visited.Holds path)
    (hcalls : (iterateChildren child path.length visited).1.map (fun call => call.1.seq) =
      written visited.seq (keysBelow path child.entries))
    (hbuf : (iterateChildren child path.length visited).2.seq =
      (keysBelow path child.entries).foldl write visited.seq) :
    (visited.calls value ++ (iterateChildren child path.length visited).1).map (fun call => call.1.seq) =
        written visited.seq (keysBelow path (TrieNode.mk value child).entries) ∧
      (iterateChildren child path.length visited).2.seq =
        (keysBelow path (TrieNode.mk value child).entries).foldl write visited.seq := by
  obtain ⟨hvalue, hvalue'⟩ := calls_seqs visited value path h
  have hkeys : keysBelow path (TrieNode.mk value child).entries =
      keysBelow path (value.toList.map fun v => ([], v)) ++ keysBelow path child.entries :=
    List.map_append
  rw [hkeys, written_append, List.foldl_append, hvalue', List.map_append, hvalue, hcalls]
  exact ⟨rfl, hbuf⟩

theorem iterateChildren_seqs {t : Children V} (ht : t.Ok) {path : List UInt8} {visited : CharSeq}
    (h : visited.Holds path) :
    (iterateChildren t path.length visited).1.map (fun call => call.1.seq) =
        written visited.seq (keysBelow path t.entries) ∧
      (iterateChildren t path.length visited).2.seq = (keysBelow path t.entries).foldl write visited.seq := by
  induction t generalizing path visited with
  | nil => exact ⟨rfl, rfl⟩
  | cons pidx value child next ihc ihn =>
    obtain ⟨hpos, hlive, -, hok, hnext⟩ := ht
    have hin := h.enter hpos
    have hlen : path.length + 1 = (path ++ [pidx]).length := by simp
    have hafter := iterateChildren_holds hok hin
    obtain ⟨hcalls, hbuf⟩ := ihc hok hin
    obtain ⟨hnode, hnode'⟩ := @node_seqs V value child _ _ hin hcalls hbuf
    rw [← hlen] at hafter hnode hnode'
    obtain ⟨hcalls', hbuf'⟩ := ihn hnext hafter.of_append
    -- the character entered here is a part of every key below
    have hpre : ∀ key ∈ keysBelow (path ++ [pidx]) (TrieNode.mk value child).entries,
        path ++ [pidx] <+: key := by
      intro key hkey
      obtain ⟨e, -, rfl⟩ := List.mem_map.mp hkey
      exact List.prefix_append _ _
    have hkeys : keysBelow (path ++ [pidx]) (TrieNode.mk value child).entries ≠ [] := by
      simpa [keysBelow] using entries_ne_nil hlive
    obtain ⟨habsorb, habsorb'⟩ := @written_write visited.seq _ _ hkeys hpre
    rw [h.enter_seq hpos, habsorb] at hnode
    rw [h.enter_seq hpos, habsorb'] at hnode'
    rw [keysBelow_cons, written_append, List.foldl_append, ← hnode, ← hnode']
    refine ⟨?_, hbuf'⟩
    rw [← hcalls', ← List.map_append]
    rfl

theorem iterateChildren_seqLen (t : Children V) (pos : Nat) (visited : CharSeq) :
    (∀ call ∈ (iterateChildren t pos visited).1, visited.seqLen ≤ call.1.seqLen) ∧
      visited.seqLen ≤ (iterateChildren t pos visited).2.seqLen := by
  induction t generalizing pos visited with
  | nil => simp [iterateChildren]
  | cons pidx value child next ihc ihn =>
    have henter : visited.seqLen ≤ (visited.enter pos pidx).seqLen := by
      simp only [CharSeq.enter]
      split_ifs <;> omega
    obtain ⟨hcalls, hbuf⟩ := ihc (pos + 1) (visited.enter pos pidx)
    obtain ⟨hcalls', hbuf'⟩ := ihn pos (iterateChildren child (pos + 1) (visited.enter pos pidx)).2
    have hbelow := henter.trans hbuf
    refine ⟨?_, hbelow.trans hbuf'⟩
    intro call hcall
    simp only [iterateChildren, CharSeq.calls, List.mem_append, List.mem_map] at hcall
    rcases hcall with (⟨v, -, rfl⟩ | hcall) | hcall
    · exact henter
    · exact henter.trans (hcalls call hcall)
    · exact hbelow.trans (hcalls' call hcall)

theorem trieIterAll_seqs {root : TrieNode V} (h : root.child.Ok) (junk : Nat → UInt8) :
    (trieIterAll junk root).map (fun call => call.1.seq) =
      written (CharSeq.calloc junk).seq (root.entries.map Prod.fst) := by
  have hempty : ({ CharSeq.calloc junk with seqLen := 4096 * 2 } : CharSeq).Holds [] := by
    intro i c hi
    simp at hi
  obtain ⟨hcalls, hbuf⟩ := iterateChildren_seqs h hempty
  exact (@node_seqs V root.value root.child _ _ hempty hcalls hbuf).1

theorem trieIterAll_seqLen (root : TrieNode V) (junk : Nat → UInt8) :
    ∀ call ∈ trieIterAll junk root, 4096 ≤ call.1.seqLen := by
  intro call hcall
  simp only [trieIterAll, CharSeq.calls, List.mem_append, List.mem_map] at hcall
  rcases hcall with ⟨v, -, rfl⟩ | hcall
  · dsimp only
    omega
  · have hle := (iterateChildren_seqLen root.child 0 _).1 call hcall
    dsimp only at hle
    omega

def overlay (str key : List UInt8) : List UInt8 := key ++ str.drop key.length

def overlays (str : List UInt8) : List (List UInt8) → List (List UInt8)
  | [] => []
  | key :: keys => overlay str key :: overlays (overlay str key) keys

structure Shows (seq : Nat → UInt8) (str : List UInt8) : Prop where
  nulFree : 0 ∉ str
  room : str.length < 4096
  get : ∀ i < 4096, seq i = (str[i]?).getD 0

theorem shows_calloc (junk : Nat → UInt8) : Shows (CharSeq.calloc junk).seq [] where
  nulFree := by simp
  room := by simp
  get := by
    intro i hi
    simp [CharSeq.calloc, hi]

theorem Shows.write {seq : Nat → UInt8} {str key : List UInt8} (h : Shows seq str) (hkey : 0 ∉ key)
    (hlen : key.length < 4096) : Shows (write seq key) (overlay str key) where
  nulFree := by
    rw [overlay, List.mem_append, not_or]
    exact ⟨hkey, fun hmem => h.nulFree (List.mem_of_mem_drop hmem)⟩
  room := by
    have hroom := h.room
    rw [overlay, List.length_append, List.length_drop]
    omega
  get := by
    intro i hi
    rw [Trie.write, overlay, List.getElem?_append]
    split_ifs with hlt
    · rw [List.getElem?_eq_getElem hlt]
      rfl
    · rw [List.getElem?_drop, Nat.add_sub_cancel' (Nat.not_lt.mp hlt),
        List.getElem?_eq_none (Nat.not_lt.mp hlt), Option.getD_none, h.get i hi]

theorem written_shows {seq : Nat → UInt8} {str : List UInt8} (h : Shows seq str)
    {keys : List (List UInt8)} (hkeys : ∀ key ∈ keys, 0 ∉ key ∧ key.length < 4096) :
    List.Forall₂ Shows (written seq keys) (overlays str keys) := by
  induction keys generalizing seq str with
  | nil => exact List.Forall₂.nil
  | cons key keys ih =>
    obtain ⟨hnul, hlen⟩ := hkeys key (by simp)
    have hwrite := h.write hnul hlen
    exact List.Forall₂.cons hwrite (ih hwrite fun key' hkey' => hkeys key' (List.mem_cons_of_mem key hkey'))

theorem length_overlays (str : List UInt8) (keys : List (List UInt8)) :
    (overlays str keys).length = keys.length := by
  induction keys generalizing str with
  | nil => rfl
  | cons key keys ih => rw [overlays, List.length_cons, ih, List.length_cons]

/-- The string passed for a key begins with the key. -/
theorem exists_overlay {α : Type} (f : α → List UInt8) {str : List UInt8} {l : List α} {a : α} (h : a ∈ l) :
    ∃ shown, (a, shown) ∈ l.zip (overlays str (l.map f)) ∧ f a <+: shown := by
  induction l generalizing str with
  | nil => simp at h
  | cons a' l ih =>
    rw [List.map_cons, overlays, List.zip_cons_cons]
    rcases List.mem_cons.mp h with rfl | h
    · exact ⟨overlay str (f a), List.mem_cons_self, List.prefix_append _ _⟩
    · obtain ⟨shown, hshown, hpre⟩ := @ih (overlay str (f a')) h
      exact ⟨shown, List.mem_cons_of_mem _ hshown, hpre⟩

/-- Behind the bytes that are cleared a long key may find no terminator. -/
theorem written_endless {seq : Nat → UInt8} (hseq : ∀ i, 4096 ≤ i → seq i ≠ 0)
    {keys : List (List UInt8)} (hkeys : ∀ key ∈ keys, 0 ∉ key) {key : List UInt8} (hmem : key ∈ keys)
    (hlong : 4096 ≤ key.length) : ∃ seq' ∈ written seq keys, ∀ i, seq' i ≠ 0 := by
  induction keys generalizing seq with
  | nil => simp at hmem
  | cons key' keys ih =>
    have hget : ∀ i, (i < key'.length ∨ 4096 ≤ i) → write seq key' i ≠ 0 := by
      intro i hi
      cases hc : key'[i]? with
      | some c =>
        rw [write, hc, Option.getD_some]
        rintro rfl
        exact hkeys key' (by simp) (List.mem_of_getElem? hc)
      | none =>
        rw [write, hc, Option.getD_none]
        rw [List.getElem?_eq_none_iff] at hc
        exact hseq i (by omega)
    rcases List.mem_cons.mp hmem with rfl | hmem
    · exact ⟨write seq key, by simp [written], fun i => hget i (by omega)⟩
    · obtain ⟨seq', hseq', hne⟩ := ih (fun i hi => hget i (Or.inr hi))
        (fun k hk => hkeys k (List.mem_cons_of_mem key' hk)) hmem
      exact ⟨seq', List.mem_cons_of_mem _ hseq', hne⟩

end Miqs.Trie
