import Mathlib.Data.List.InsertIdx
import Mathlib.Data.List.Perm.Basic
import Miqs.LinkListEntries
import Miqs.Runs

/-! The linked list is a sequence of values. -/
namespace Miqs.LinkList
open Miqs.DoublyLinked Miqs.Runs
variable {V : Type}

def Holds (l : LinkedList V) (vs : List (Option V)) : Prop := ∃ as, Rep l as ∧ l.live.Perm as ∧ as.map l.value = vs

def HoldsBeside (l : LinkedList V) (vs : List (Option V)) (entry : Nat) (val : Option V) : Prop :=
  ∃ as, Rep l as ∧ Loose l as entry ∧ l.live.Perm (entry :: as) ∧ as.map l.value = vs ∧ l.value entry = val

theorem holds_create : Holds (listCreate : LinkedList V) [] := ⟨[], rep_create, List.Perm.refl _, rfl⟩

theorem Holds.length {l : LinkedList V} {vs : List (Option V)} (h : Holds l vs) : l.length = vs.length := by
  obtain ⟨as, h, -, rfl⟩ := h
  rw [h.length, List.length_map]

theorem Holds.live {l : LinkedList V} {vs : List (Option V)} (h : Holds l vs) : l.live.length = vs.length := by
  obtain ⟨as, -, hperm, rfl⟩ := h
  rw [hperm.length_eq, List.length_map]

theorem map_update_of_not_mem {as : List Nat} {entry : Nat} (hout : entry ∉ as) (f : Nat → Option V) (val : Option V) :
    as.map (Function.update f entry val) = as.map f := by
  refine List.map_congr_left fun a ha => Function.update_of_ne ?_ _ _
  rintro rfl
  exact hout ha

theorem map_update_getElem {as : List Nat} (hnodup : as.Nodup) {pos : Nat} (hpos : pos < as.length) (f : Nat → Option V)
    (val : Option V) : as.map (Function.update f as[pos] val) = (as.map f).set pos val := by
  apply List.ext_getElem
  · simp
  · intro i hi _
    rw [List.getElem_map, List.getElem_set, List.getElem_map, Function.update_apply]
    simp only [hnodup.getElem_inj_iff, eq_comm]

theorem value_push (l : LinkedList V) (entry : Nat) : (pushEntry l entry).value = l.value := by
  rw [pushEntry]
  split_ifs <;> rfl

theorem live_push (l : LinkedList V) (entry : Nat) : (pushEntry l entry).live = l.live := by
  rw [pushEntry]
  split_ifs <;> rfl

theorem live_unshift (l : LinkedList V) (entry : Nat) : (unshiftEntry l entry).live = l.live := by
  simp only [unshiftEntry]
  split_ifs <;> rfl

theorem value_unshift (l : LinkedList V) (entry : Nat) : (unshiftEntry l entry).value = l.value := by
  simp only [unshiftEntry]
  split_ifs <;> rfl

/-- Pushing leaves an entry alone that is in no list. -/
theorem Loose.push {l : LinkedList V} {as : List Nat} {entry b : Nat} (h : Rep l as) (hb : Loose l as b)
    (hne : b ≠ entry) : Loose (pushEntry l entry) (as ++ [entry]) b := by
  have htail : l.tail ≠ some b := fun heq => hb.out (List.mem_of_getLast? (h.tail ▸ heq))
  refine ⟨?_, live_push l entry ▸ hb.live, ?_, ?_⟩
  · rw [List.mem_append, List.mem_singleton, not_or]
    exact ⟨hb.out, hne⟩
  · rw [← hb.prev, pushEntry]
    split_ifs with hzero
    · rfl
    · simp only [prev_setNext, prev_setPrev, Option.some.injEq, hne.symm, if_false]
  · rw [← hb.next, pushEntry]
    split_ifs with hzero
    · rfl
    · simp only [next_setNext, next_setPrev, Option.some.injEq, hne.symm, if_false, if_neg htail]

section Beside
variable {l : LinkedList V} {vs : List (Option V)} {entry : Nat} {val : Option V} (h : HoldsBeside l vs entry val)
include h

theorem HoldsBeside.push : Holds (pushEntry l entry) (vs ++ [val]) := by
  obtain ⟨as, h, hloose, hperm, rfl, rfl⟩ := h
  refine ⟨as ++ [entry], h.push hloose, live_push l entry ▸ hperm.trans (List.perm_append_singleton _ _).symm, ?_⟩
  rw [value_push, List.map_append, List.map_singleton]

theorem HoldsBeside.unshift : Holds (unshiftEntry l entry) (val :: vs) := by
  obtain ⟨as, h, hloose, hperm, rfl, rfl⟩ := h
  refine ⟨entry :: as, h.unshift hloose, live_unshift l entry ▸ hperm, ?_⟩
  rw [value_unshift, List.map_cons]

theorem HoldsBeside.free : Holds (freeEntry l entry) vs := by
  obtain ⟨as, h, hloose, hperm, rfl, rfl⟩ := h
  have hfreed := hperm.erase entry
  rw [List.erase_cons_head] at hfreed
  refine ⟨as, ⟨h.linked, h.head, h.tail, h.length, ?_, h.cursor⟩, hfreed, rfl⟩
  intro a ha
  have hne : a ≠ entry := fun heq => hloose.out (heq ▸ ha)
  exact (List.mem_erase_of_ne hne).mpr (h.live a ha)

end Beside

section Malloc
variable (malloc : List Nat → Nat) (hfresh : ∀ used, malloc used ∉ used)
include hfresh

theorem Rep.create {l : LinkedList V} {as : List Nat} (h : Rep l as) :
    Rep (createEntry malloc l).1 as ∧ Loose (createEntry malloc l).1 as (malloc l.live) := by
  have hout : malloc l.live ∉ as := fun ha => hfresh _ (h.live _ ha)
  refine ⟨⟨⟨h.linked.nodup, seg_congr ?_ h.linked.seg⟩, h.head, h.tail, h.length, ?_, h.cursor⟩, hout, ?_, ?_, ?_⟩
  · intro a ha
    have hne : a ≠ malloc l.live := fun heq => hout (heq ▸ ha)
    simp only [createEntry, prev_unlinked, next_unlinked, if_neg hne, and_self]
  · exact fun a ha => List.mem_cons_of_mem _ (h.live a ha)
  · exact List.mem_cons_self
  · simp only [createEntry, prev_unlinked, if_true]
  · simp only [createEntry, next_unlinked, if_true]

theorem Holds.new {l : LinkedList V} {vs : List (Option V)} (h : Holds l vs) (val : Option V) :
    HoldsBeside (newEntry malloc l val).1 vs (newEntry malloc l val).2 val := by
  obtain ⟨as, h, hperm, rfl⟩ := h
  obtain ⟨hrep, hloose⟩ := h.create malloc hfresh
  refine ⟨as, ⟨hrep.linked, hrep.head, hrep.tail, hrep.length, hrep.live, hrep.cursor⟩,
    ⟨hloose.out, hloose.live, hloose.prev, hloose.next⟩, hperm.cons _, ?_, Function.update_self _ _ _⟩
  exact (map_update_of_not_mem hloose.out _ _).trans (map_update_of_not_mem hloose.out _ _)

/-- One entry without a value behind the end. -/
theorem HoldsBeside.pad_one {l : LinkedList V} {vs : List (Option V)} {entry : Nat} {val : Option V}
    (h : HoldsBeside l vs entry val) :
    HoldsBeside (pushEntry (createEntry malloc l).1 (createEntry malloc l).2) (vs ++ [none]) entry val := by
  obtain ⟨as, h, hloose, hperm, rfl, rfl⟩ := h
  obtain ⟨hrep, hnew⟩ := h.create malloc hfresh
  have hne : entry ≠ malloc l.live := fun heq => hfresh _ (heq ▸ hloose.live)
  have hbeside : Loose (createEntry malloc l).1 as entry := by
    refine ⟨hloose.out, List.mem_cons_of_mem _ hloose.live, ?_, ?_⟩
    · simp only [createEntry, prev_unlinked, if_neg hne, hloose.prev]
    · simp only [createEntry, next_unlinked, if_neg hne, hloose.next]
  refine ⟨as ++ [malloc l.live], hrep.push hnew, hbeside.push hrep hne, ?_, ?_, ?_⟩
  · rw [live_push]
    exact (hperm.cons _).trans ((List.Perm.swap _ _ _).trans ((List.perm_append_singleton _ _).symm.cons _))
  · rw [value_push, List.map_append, List.map_singleton]
    simp only [createEntry, Function.update_self, map_update_of_not_mem hnew.out]
  · rw [value_push]
    exact Function.update_of_ne hne _ _

theorem HoldsBeside.pad {l : LinkedList V} {vs : List (Option V)} {entry : Nat} {val : Option V}
    (h : HoldsBeside l vs entry val) (k : Nat) :
    HoldsBeside (pad malloc k l) (vs ++ List.replicate k none) entry val := by
  induction k generalizing l vs with
  | zero =>
    rw [List.replicate_zero, List.append_nil]
    exact h
  | succ k ih =>
    have hpad := ih (h.pad_one malloc hfresh)
    rwa [List.append_assoc, List.singleton_append, ← List.replicate_succ] at hpad

end Malloc

def insertAt (vs : List (Option V)) (val : Option V) (pos : Nat) : List (Option V) :=
  (vs ++ List.replicate (pos - vs.length) none).insertIdx pos val

theorem insertIdx_eq_take_drop {vs : List (Option V)} {pos : Nat} (hpos : pos ≤ vs.length) (val : Option V) :
    vs.insertIdx pos val = vs.take pos ++ val :: vs.drop pos := by
  induction vs generalizing pos with
  | nil =>
    obtain rfl := Nat.le_zero.mp hpos
    rfl
  | cons v vs ih =>
    cases pos with
    | zero => rfl
    | succ pos => rw [List.insertIdx_succ_cons, ih (Nat.le_of_succ_le_succ hpos), List.take_succ_cons,
        List.drop_succ_cons, List.cons_append]

theorem HoldsBeside.insert {malloc : List Nat → Nat} (hfresh : ∀ used, malloc used ∉ used) {l : LinkedList V}
    {vs : List (Option V)} {entry : Nat} {val : Option V} (h : HoldsBeside l vs entry val) (pos : Nat)
    (hshort : vs.length < 2^32) :
    ∃ l', insertEntry malloc l entry pos = (l', 0) ∧ Holds l' (insertAt vs val pos) := by
  have hlength : l.length = vs.length := by
    obtain ⟨as, h, -, -, rfl, -⟩ := h
    rw [h.length, List.length_map]
  have hshape : pos = 0 ∨ pos = vs.length ∨ pos > vs.length ∨ 0 < pos ∧ pos < vs.length := by omega
  rcases hshape with rfl | rfl | hpos | ⟨hzero, hpos⟩
  · refine ⟨_, by rw [insertEntry, if_pos rfl], ?_⟩
    simpa [insertAt] using h.unshift
  · by_cases hzero : vs.length = 0
    · refine ⟨_, by rw [insertEntry, if_pos hzero], ?_⟩
      simpa [insertAt, hzero] using h.unshift
    · refine ⟨_, by rw [insertEntry, if_neg hzero, if_pos hlength.symm], ?_⟩
      simpa [insertAt] using h.push
  · refine ⟨_, by rw [insertEntry, if_neg (by omega), if_neg (by omega), if_pos (by omega)], ?_⟩
    rw [hlength, u32, Nat.mod_eq_of_lt hshort]
    have hinsert : insertAt vs val pos = vs ++ List.replicate (pos - vs.length) none ++ [val] := by
      have hlong : pos = (vs ++ List.replicate (pos - vs.length) (none : Option V)).length := by
        simp
        omega
      rw [insertAt]
      nth_rewrite 2 [hlong]
      rw [List.insertIdx_length_self]
    rw [hinsert]
    exact (h.pad malloc hfresh _).push
  · obtain ⟨as, h, hloose, hperm, rfl, rfl⟩ := h
    rw [List.length_map] at hpos hshort
    have hsplit : as.take pos ++ as.drop pos = as := List.take_append_drop pos as
    have hlen : (as.take pos).length = pos := List.length_take_of_le (Nat.le_of_lt hpos)
    have hpre : as.take pos ≠ [] := fun hnil => by
      rw [hnil, List.length_nil] at hlen
      omega
    have hpost : as.drop pos ≠ [] := by
      rw [ne_eq, List.drop_eq_nil_iff]
      omega
    obtain ⟨l', hinsert, hrep, hvalue, hlive⟩ :=
      Rep.insert malloc (hsplit.symm ▸ h) (hsplit.symm ▸ hshort) hpre hpost (hsplit.symm ▸ hloose)
    rw [hlen] at hinsert
    have hmiddle : (as.take pos ++ entry :: as.drop pos).Perm (entry :: (as.take pos ++ as.drop pos)) :=
      List.perm_middle
    rw [hsplit] at hmiddle
    refine ⟨l', hinsert, _, hrep, hlive ▸ hperm.trans hmiddle.symm, ?_⟩
    have hpad : pos - (as.map l.value).length = 0 := by
      rw [List.length_map]
      omega
    rw [hvalue, insertAt, hpad, List.replicate_zero, List.append_nil,
      insertIdx_eq_take_drop (by rw [List.length_map]; omega), List.map_append, List.map_cons, List.map_take,
      List.map_drop]

theorem Holds.fetch {l : LinkedList V} {vs : List (Option V)} (h : Holds l vs) (hshort : vs.length < 2^32)
    {pos : Nat} (hpos : pos < vs.length) :
    ∃ l' entry, fetchEntry l pos = (l', some entry) ∧ HoldsBeside l' (vs.eraseIdx pos) entry vs[pos] := by
  obtain ⟨as, h, hperm, rfl⟩ := h
  rw [List.length_map] at hshort hpos
  obtain ⟨l', hfetch, hrep, hloose, hvalue, hlive⟩ := h.fetch hshort hpos
  refine ⟨l', _, hfetch, _, hrep, hloose, hlive ▸ hperm.trans (List.getElem_cons_eraseIdx_perm hpos).symm, ?_, ?_⟩
  · rw [hvalue, List.eraseIdx_map]
  · rw [hvalue, List.getElem_map]

theorem Holds.fetch_none {l : LinkedList V} {vs : List (Option V)} (h : Holds l vs) {pos : Nat}
    (hpos : vs.length ≤ pos) : fetchEntry l pos = (l, none) := by
  obtain ⟨as, h, -, rfl⟩ := h
  rw [List.length_map] at hpos
  exact h.fetch_none hpos

theorem Holds.pick {l : LinkedList V} {vs : List (Option V)} (h : Holds l vs) (hshort : vs.length < 2^32)
    {pos : Nat} (hpos : pos < vs.length) : ∃ l' entry, pickEntry l pos = (l', some entry) ∧ Holds l' vs ∧
      l'.value entry = vs[pos] ∧ ∀ newval, Holds (setEntryValue l' entry newval) (vs.set pos newval) := by
  obtain ⟨as, h, hperm, rfl⟩ := h
  rw [List.length_map] at hshort hpos
  refine ⟨_, as[pos], by rw [h.pick_eq hpos hshort, List.getElem?_eq_getElem hpos], ⟨as, h.picked, hperm, rfl⟩, ?_, ?_⟩
  · rw [List.getElem_map]
  · intro newval
    have hpicked : Rep { l with pos := pos, cur := as[pos]? } as := h.picked
    refine ⟨as, ⟨hpicked.linked, hpicked.head, hpicked.tail, hpicked.length, hpicked.live, hpicked.cursor⟩, hperm, ?_⟩
    exact map_update_getElem h.linked.nodup hpos l.value newval

theorem Holds.pick_none {l : LinkedList V} {vs : List (Option V)} (h : Holds l vs) {pos : Nat}
    (hpos : vs.length ≤ pos) : pickEntry l pos = (l, none) := by
  obtain ⟨as, h, -, rfl⟩ := h
  rw [List.length_map] at hpos
  exact h.pick_none hpos

theorem takeValue_of_beside {l : LinkedList V} {vs : List (Option V)} {entry : Nat} {val : Option V}
    (h : HoldsBeside l vs entry val) : (takeValue (l, some entry)).2 = val ∧ Holds (takeValue (l, some entry)).1 vs := by
  obtain ⟨-, -, -, -, -, hval⟩ := id h
  exact ⟨hval, h.free⟩

theorem Holds.pop {l : LinkedList V} {vs : List (Option V)} (h : Holds l vs) :
    (listPopValue l).2 = vs.getLast?.join ∧ Holds (listPopValue l).1 vs.dropLast := by
  obtain ⟨as, h, hperm, rfl⟩ := h
  rw [listPopValue]
  rcases List.eq_nil_or_concat as with rfl | ⟨as, a, rfl⟩
  · rw [h.pop_empty]
    exact ⟨rfl, [], h, hperm, rfl⟩
  · rw [List.concat_eq_append] at h hperm ⊢
    obtain ⟨l', hpop, hrep, hloose, hvalue, hlive⟩ := h.pop
    rw [hpop, List.map_append, List.map_singleton, List.getLast?_concat, List.dropLast_concat]
    exact takeValue_of_beside ⟨as, hrep, hloose, hlive ▸ hperm.trans (List.perm_append_singleton _ _),
      by rw [hvalue], by rw [hvalue]; rfl⟩

theorem Holds.shift {l : LinkedList V} {vs : List (Option V)} (h : Holds l vs) :
    (listShiftValue l).2 = vs.head?.join ∧ Holds (listShiftValue l).1 vs.tail := by
  obtain ⟨as, h, hperm, rfl⟩ := h
  rw [listShiftValue]
  cases as with
  | nil =>
    rw [h.shift_empty]
    exact ⟨rfl, [], h, hperm, rfl⟩
  | cons a as =>
    obtain ⟨l', hshift, hrep, hloose, hvalue, hlive⟩ := h.shift
    rw [hshift]
    exact takeValue_of_beside ⟨as, hrep, hloose, hlive ▸ hperm, by rw [hvalue]; rfl, by rw [hvalue]; rfl⟩

/-- Only the links and the ends of a list change. -/
theorem skip_same (l : LinkedList V) (d : Nat) (e : Option Nat) :
    (skipEntry l d e).value = l.value ∧ (skipEntry l d e).cur = l.cur ∧ (skipEntry l d e).pos = l.pos ∧
      (skipEntry l d e).length = l.length ∧ (skipEntry l d e).live = l.live := by
  rw [skipEntry]
  split_ifs <;> exact ⟨rfl, rfl, rfl, rfl, rfl⟩

theorem Rep.skip {l : LinkedList V} {pre rest : List Nat} {d : Nat} (h : Rep l (pre ++ d :: rest)) :
    Linked (skipEntry l d rest.head?).links (pre ++ rest) ∧ (skipEntry l d rest.head?).head = (pre ++ rest).head? ∧
      (skipEntry l d rest.head?).tail = (pre ++ rest).getLast? := by
  have hout : d ∉ pre ++ rest := (List.nodup_cons.mp (List.nodup_middle.mp h.linked.nodup)).1
  rw [List.mem_append, not_or] at hout
  have hlinks := h.linked.links
  have hfirst : l.head = some d ↔ pre = [] := by
    rw [h.head]
    cases pre with
    | nil => simp
    | cons a pre => simpa using fun heq => hout.1 (by simp [heq])
  have hlast : l.tail = some d ↔ rest = [] := by
    rw [h.tail]
    rcases List.eq_nil_or_concat rest with rfl | ⟨rest, a, rfl⟩
    · simp
    · rw [List.concat_eq_append] at hout ⊢
      rw [← List.cons_append, ← List.append_assoc, List.getLast?_concat]
      simpa using fun heq => hout.2 (by simp [heq])
  have honly : (l.head = l.tail ∧ l.tail = some d) ↔ pre = [] ∧ rest = [] := by
    rw [← hlast, ← hfirst]
    exact ⟨fun hd => ⟨hd.1.trans hd.2, hd.2⟩, fun hd => ⟨hd.1.trans hd.2.symm, hd.2⟩⟩
  rw [skipEntry, hlinks.1, hlinks.2]
  split_ifs with hd₁ hd₂ hd₃
  · obtain ⟨rfl, rfl⟩ := honly.mp hd₁
    exact ⟨⟨List.nodup_nil, trivial⟩, rfl, rfl⟩
  · obtain rfl := hfirst.mp hd₂
    have hrest : rest ≠ [] := fun hnil => hd₁ (honly.mpr ⟨rfl, hnil⟩)
    refine ⟨h.linked.remove ?_ ?_, rfl, ?_⟩
    · intro b hb
      rw [next_setPrev]
      simp
    · intro b hb
      rw [prev_setPrev]
      rfl
    · obtain ⟨b, rest, rfl⟩ := List.exists_cons_of_ne_nil hrest
      simpa using h.tail
  · obtain rfl := hlast.mp hd₃
    have hpre : pre ≠ [] := fun hnil => hd₂ (hfirst.mpr hnil)
    refine ⟨h.linked.remove ?_ ?_, ?_, by rw [List.append_nil]⟩
    · intro b hb
      rw [next_setNext]
      rfl
    · intro b hb
      rw [prev_setNext]
      simp
    · obtain ⟨b, pre, rfl⟩ := List.exists_cons_of_ne_nil hpre
      exact h.head
  · have hpre : pre ≠ [] := fun hnil => hd₂ (hfirst.mpr hnil)
    have hrest : rest ≠ [] := fun hnil => hd₃ (hlast.mpr hnil)
    refine ⟨h.linked.remove ?_ ?_, ?_, ?_⟩
    · intro b hb
      rw [next_setNext, next_setPrev]
    · intro b hb
      rw [prev_setNext, prev_setPrev]
    · obtain ⟨b, pre, rfl⟩ := List.exists_cons_of_ne_nil hpre
      exact h.head
    · obtain ⟨b, rest, rfl⟩ := List.exists_cons_of_ne_nil hrest
      simp only [h.tail, List.getLast?_append, List.getLast?_cons_cons]

/-- The entries `pre` were visited, `d` is taken out and `rest` is to come. The cursor is not behind
them. -/
theorem Rep.drop {l : LinkedList V} {pre rest : List Nat} {d : Nat} (h : Rep l (pre ++ d :: rest))
    (hcur : ∀ a, l.cur = some a → l.pos ≤ pre.length) :
    Rep (dropEntry l d rest.head?) (pre ++ rest) ∧ (dropEntry l d rest.head?).live = l.live.erase d ∧
      ∀ a, (dropEntry l d rest.head?).cur = some a → (dropEntry l d rest.head?).pos ≤ pre.length := by
  have hout : d ∉ pre ++ rest := (List.nodup_cons.mp (List.nodup_middle.mp h.linked.nodup)).1
  obtain ⟨hlinked, hhead, htail⟩ := h.skip
  obtain ⟨-, hsame, hpos, hlength, hlive⟩ := skip_same l d rest.head?
  have hcursor : ∀ a, (if l.cur = some d then none else l.cur) = some a →
      (pre ++ rest)[l.pos]? = some a ∧ l.pos ≤ pre.length := by
    intro a ha
    split_ifs at ha with hd
    have hget := h.cursor a ha
    have hle := hcur a ha
    have hlt : l.pos < pre.length := by
      refine Nat.lt_of_le_of_ne hle fun heq => hd ?_
      rw [heq, List.getElem?_append_right (Nat.le_refl _), Nat.sub_self] at hget
      exact ha.trans hget.symm
    rw [List.getElem?_append_left hlt] at hget ⊢
    exact ⟨hget, hle⟩
  simp only [dropEntry, freeEntry, hsame, hpos, hlength, hlive]
  refine ⟨⟨hlinked, hhead, htail, ?_, ?_, fun a ha => (hcursor a ha).1⟩, trivial,
    fun a ha => (hcursor a ha).2⟩
  · simp only [h.length, List.length_append, List.length_cons]
    rfl
  · intro a ha
    have hne : a ≠ d := fun heq => hout (heq ▸ ha)
    refine (List.mem_erase_of_ne hne).mpr (h.live a ?_)
    rw [List.mem_append, List.mem_cons]
    exact (List.mem_append.mp ha).imp_right Or.inr

/-- The values that stay, what the handler made of the others, and how many it got. Each value it takes
out also makes the slice shorter. -/
def visit {σ : Type} (itemHandler : σ → Option V → Nat → σ × Int) (idx length : Nat) (user : σ) :
    List (Option V) → List (Option V) × σ × Nat
  | [] => ([], user, idx)
  | val :: vs =>
    if idx < length then
      let r := itemHandler user val idx
      if r.2 = 0 then (val :: vs, r.1, idx + 1)
      else if r.2 = -1 then visit itemHandler (idx + 1) (length - 1) r.1 vs
      else if r.2 = -2 then (vs, r.1, idx + 1)
      else
        let r := visit itemHandler (idx + 1) length r.1 vs
        (val :: r.1, r.2)
    else (val :: vs, user, idx)

theorem Rep.foreach {σ : Type} (itemHandler : σ → Option V → Nat → σ × Int) {l : LinkedList V} {pre rest : List Nat}
    (h : Rep l (pre ++ rest)) (hperm : l.live.Perm (pre ++ rest)) (hcur : ∀ a, l.cur = some a → l.pos ≤ pre.length)
    (idx length : Nat) (user : σ) :
    ∃ l', foreachEntry itemHandler idx length rest.head? user l =
        (l', (visit itemHandler idx length user (rest.map l.value)).2) ∧
      Holds l' (pre.map l.value ++ (visit itemHandler idx length user (rest.map l.value)).1) := by
  induction rest generalizing l pre idx length user with
  | nil =>
    refine ⟨l, by rw [List.head?_nil, foreachEntry]; rfl, pre ++ [], h, hperm, ?_⟩
    rw [List.map_append]
    rfl
  | cons d rest ih =>
    have hnext : l.links.next d = rest.head? := h.linked.links.2
    have hall : Holds l (pre.map l.value ++ l.value d :: rest.map l.value) :=
      ⟨_, h, hperm, by rw [List.map_append, List.map_cons]⟩
    have hfreed : (l.live.erase d).Perm (pre ++ rest) := by
      have herase := (hperm.trans List.perm_middle).erase d
      rwa [List.erase_cons_head] at herase
    rw [List.head?_cons, foreachEntry, hnext, List.map_cons, visit]
    dsimp only
    split_ifs
    · exact ⟨l, rfl, hall⟩
    · obtain ⟨hrep, hlive, hcur'⟩ := h.drop hcur
      have hvalue : (dropEntry l d rest.head?).value = l.value := (skip_same l d rest.head?).1
      have hrest := ih hrep (hlive ▸ hfreed) hcur' (idx + 1) (length - 1) (itemHandler user (l.value d) idx).1
      rwa [hvalue] at hrest
    · obtain ⟨hrep, hlive, -⟩ := h.drop hcur
      have hvalue : (dropEntry l d rest.head?).value = l.value := (skip_same l d rest.head?).1
      refine ⟨_, rfl, _, hrep, hlive ▸ hfreed, ?_⟩
      rw [hvalue, List.map_append]
    · have happ : pre ++ d :: rest = pre ++ [d] ++ rest := by simp
      have hcur' : ∀ a, l.cur = some a → l.pos ≤ (pre ++ [d]).length := by
        intro a ha
        have hle := hcur a ha
        rw [List.length_append]
        omega
      have hrest := ih (happ ▸ h) (happ ▸ hperm) hcur' (idx + 1) length (itemHandler user (l.value d) idx).1
      simpa using hrest
    · exact ⟨l, rfl, hall⟩

theorem Holds.foreach {σ : Type} (itemHandler : σ → Option V → Nat → σ × Int) {l : LinkedList V}
    {vs : List (Option V)} (h : Holds l vs) (hshort : vs.length < 2^32) (user : σ) :
    ∃ l', listForeachValue itemHandler user l =
        (l', (visit itemHandler 0 vs.length user vs).2.1, toInt (visit itemHandler 0 vs.length user vs).2.2) ∧
      Holds l' (visit itemHandler 0 vs.length user vs).1 := by
  obtain ⟨as, h, hperm, rfl⟩ := h
  rw [List.length_map] at hshort ⊢
  rw [listForeachValue, sliceForeachValue, h.length]
  cases as with
  | nil =>
    rw [h.pick_none (Nat.le_refl 0)]
    have hrep : Rep l ([] ++ []) := h
    obtain ⟨l', hloop, hholds⟩ :=
      hrep.foreach itemHandler hperm (fun a ha => by simpa using h.cursor a ha) 0 0 user
    have hloop' : foreachEntry itemHandler 0 0 none user l = _ := hloop
    exact ⟨l', congrArg (fun r => (r.1, r.2.1, toInt (r.2.2 : Nat))) hloop', hholds⟩
  | cons a as =>
    rw [h.pick_eq (Nat.succ_pos _) hshort]
    have hrep : Rep { l with pos := 0, cur := (a :: as)[0]? } ([] ++ a :: as) := h.picked
    obtain ⟨l', hloop, hholds⟩ := hrep.foreach itemHandler hperm (fun _ _ => Nat.le_refl 0) 0 (a :: as).length user
    exact ⟨l', congrArg (fun r => (r.1, r.2.1, toInt (r.2.2 : Nat))) hloop, hholds⟩

inductive Call (V σ : Type) where
  | push (val : Option V)
  | unshift (val : Option V)
  | insert (val : Option V) (pos : Nat)
  | pop
  | shift
  | fetch (pos : Nat)
  | pick (pos : Nat)
  | subst (pos : Nat) (newval : Option V)
  | set (pos : Nat) (newval : Option V)
  | move (srcPos dstPos : Nat)
  | count
  | foreach (itemHandler : σ → Option V → Nat → σ × Int) (user : σ)

inductive Reply (V σ : Type) where
  | code (res : Int)
  | value (val : Option V)
  | count (len : Nat)
  | visited (user : σ) (idx : Int)

def listCall {σ : Type} (malloc : List Nat → Nat) (l : LinkedList V) : Call V σ → LinkedList V × Reply V σ
  | .push val => (listPushValue malloc l val).map id .code
  | .unshift val => (listUnshiftValue malloc l val).map id .code
  | .insert val pos => (listInsertValue malloc l val pos).map id .code
  | .pop => (listPopValue l).map id .value
  | .shift => (listShiftValue l).map id .value
  | .fetch pos => (listFetchValue l pos).map id .value
  | .pick pos => (listPickValue l pos).map id .value
  | .subst pos newval => (listSubstValue l pos newval).map id .value
  | .set pos newval => (listSetValue malloc l pos newval).map id .value
  | .move srcPos dstPos => (listMoveValue malloc l srcPos dstPos).map id .code
  | .count => (l, .count l.length)
  | .foreach itemHandler user => (listForeachValue itemHandler user l).map id fun r => .visited r.1 r.2

def seqCall {σ : Type} (vs : List (Option V)) : Call V σ → List (Option V) × Reply V σ
  | .push val => (vs ++ [val], .code 0)
  | .unshift val => (val :: vs, .code 0)
  | .insert val pos => (insertAt vs val pos, .code 0)
  | .pop => (vs.dropLast, .value vs.getLast?.join)
  | .shift => (vs.tail, .value vs.head?.join)
  | .fetch pos => (vs.eraseIdx pos, .value vs[pos]?.join)
  | .pick pos => (vs, .value vs[pos]?.join)
  | .subst pos newval => (vs.set pos newval, .value vs[pos]?.join)
  | .set pos newval => (if pos < vs.length then vs.set pos newval else insertAt vs newval pos, .value vs[pos]?.join)
  | .move srcPos dstPos =>
    match vs[srcPos]? with
    | none => (vs, .code (-1))
    | some val => (insertAt (vs.eraseIdx srcPos) val dstPos, .code 0)
  | .count => (vs, .count vs.length)
  | .foreach itemHandler user => (visit itemHandler 0 vs.length user vs).map id fun r => .visited r.1 (toInt r.2)

theorem holds_call {σ : Type} {malloc : List Nat → Nat} (hfresh : ∀ used, malloc used ∉ used) {l : LinkedList V}
    {vs : List (Option V)} (call : Call V σ) (hshort : vs.length < 2^32) (h : Holds l vs) :
    (listCall malloc l call).2 = (seqCall vs call).2 ∧
      Holds (listCall malloc l call).1 (seqCall vs call).1 := by
  cases call with
  | push val => exact ⟨rfl, (h.new malloc hfresh val).push⟩
  | unshift val => exact ⟨rfl, (h.new malloc hfresh val).unshift⟩
  | insert val pos =>
    obtain ⟨l', hinsert, hholds⟩ := (h.new malloc hfresh val).insert hfresh pos hshort
    simp only [listCall, listInsertValue, hinsert, seqCall]
    exact ⟨rfl, hholds⟩
  | pop => exact ⟨congrArg Reply.value h.pop.1, h.pop.2⟩
  | shift => exact ⟨congrArg Reply.value h.shift.1, h.shift.2⟩
  | fetch pos =>
    rw [listCall, listFetchValue, seqCall]
    rcases Nat.lt_or_ge pos vs.length with hpos | hpos
    · obtain ⟨l', entry, hfetch, hbeside⟩ := h.fetch hshort hpos
      obtain ⟨hval, hholds⟩ := takeValue_of_beside hbeside
      rw [hfetch, List.getElem?_eq_getElem hpos]
      exact ⟨congrArg Reply.value hval, hholds⟩
    · rw [h.fetch_none hpos, List.getElem?_eq_none hpos, List.eraseIdx_of_length_le hpos]
      exact ⟨rfl, h⟩
  | pick pos =>
    rw [listCall, listPickValue, seqCall]
    rcases Nat.lt_or_ge pos vs.length with hpos | hpos
    · obtain ⟨l', entry, hpick, hholds, hval, -⟩ := h.pick hshort hpos
      rw [hpick, List.getElem?_eq_getElem hpos]
      exact ⟨congrArg Reply.value hval, hholds⟩
    · rw [h.pick_none hpos, List.getElem?_eq_none hpos]
      exact ⟨rfl, h⟩
  | subst pos newval =>
    rw [listCall, listSubstValue, seqCall]
    rcases Nat.lt_or_ge pos vs.length with hpos | hpos
    · obtain ⟨l', entry, hpick, -, hval, hset⟩ := h.pick hshort hpos
      rw [hpick, List.getElem?_eq_getElem hpos]
      exact ⟨congrArg Reply.value hval, hset newval⟩
    · rw [h.pick_none hpos, List.getElem?_eq_none hpos, List.set_eq_of_length_le hpos]
      exact ⟨rfl, h⟩
  | set pos newval =>
    rw [listCall, listSetValue, seqCall]
    rcases Nat.lt_or_ge pos vs.length with hpos | hpos
    · obtain ⟨l', entry, hpick, -, hval, hset⟩ := h.pick hshort hpos
      rw [hpick, List.getElem?_eq_getElem hpos, if_pos hpos]
      exact ⟨congrArg Reply.value hval, hset newval⟩
    · obtain ⟨l', hinsert, hholds⟩ := (h.new malloc hfresh newval).insert hfresh pos hshort
      rw [h.pick_none hpos, List.getElem?_eq_none hpos, if_neg (Nat.not_lt.mpr hpos)]
      simp only [listInsertValue, hinsert]
      exact ⟨rfl, hholds⟩
  | move srcPos dstPos =>
    rw [listCall, listMoveValue, moveEntry, seqCall]
    rcases Nat.lt_or_ge srcPos vs.length with hpos | hpos
    · obtain ⟨l', entry, hfetch, hbeside⟩ := h.fetch hshort hpos
      have hless : (vs.eraseIdx srcPos).length < 2^32 := by
        rw [List.length_eraseIdx_of_lt hpos]
        omega
      obtain ⟨l'', hinsert, hholds⟩ := hbeside.insert hfresh dstPos hless
      rw [hfetch, List.getElem?_eq_getElem hpos]
      simp only [hinsert]
      exact ⟨rfl, hholds⟩
    · rw [h.fetch_none hpos, List.getElem?_eq_none hpos]
      exact ⟨rfl, h⟩
  | count => exact ⟨congrArg Reply.count h.length, h⟩
  | foreach itemHandler user =>
    obtain ⟨l', heach, hholds⟩ := h.foreach itemHandler hshort user
    rw [listCall, seqCall, heach]
    exact ⟨rfl, hholds⟩

section Calls
variable {σ : Type} {malloc : List Nat → Nat} (hfresh : ∀ used, malloc used ∉ used) {calls : List (Call V σ)}
  (hshort : ∀ pre, pre <+: calls → (trace seqCall [] pre).1.length < 2^32)
include hfresh hshort

/-- As long as the list is shorter than 2^32, every call gives what it gives on a sequence of values,
and after the calls there are as many entries as values. -/
theorem list_calls_are_sequence_calls :
    (trace (listCall malloc) listCreate calls).2 = (trace seqCall [] calls).2 ∧
      (trace (listCall malloc) listCreate calls).1.live.length = (trace seqCall [] calls).1.length := by
  obtain ⟨hreplies, hholds⟩ := trace_rel_while Holds (fun vs => vs.length < 2^32) (listCall malloc) seqCall
    (fun l vs call hvs _ h => holds_call hfresh call hvs h) hshort holds_create
  exact ⟨hreplies, hholds.live⟩

end Calls

def nextAddress (used : List Nat) : Nat := used.foldr max 0 + 1

theorem nextAddress_not_mem (used : List Nat) : nextAddress used ∉ used := by
  have hle : ∀ a ∈ used, a ≤ used.foldr max 0 := by
    induction used with
    | nil => simp
    | cons b used ih =>
      intro a ha
      rcases List.mem_cons.mp ha with rfl | ha
      · exact Nat.le_max_left _ _
      · exact Nat.le_trans (ih a ha) (Nat.le_max_right _ _)
  intro hmem
  exact Nat.not_succ_le_self _ (hle _ hmem)

theorem list_calls_are_sequence_calls_padded :
    (trace (listCall nextAddress) listCreate [.push (some 5), .insert (some 6) 2, .move 2 0, .pop]).2 =
        (trace seqCall [] ([.push (some 5), .insert (some 6) 2, .move 2 0, .pop] : List (Call Nat Unit))).2 ∧
      (trace (listCall nextAddress) listCreate
          ([.push (some 5), .insert (some 6) 2, .move 2 0, .pop] : List (Call Nat Unit))).1.live.length =
        (trace seqCall [] ([.push (some 5), .insert (some 6) 2, .move 2 0, .pop] : List (Call Nat Unit))).1.length := by
  refine list_calls_are_sequence_calls nextAddress_not_mem ?_
  intro pre hpre
  simp only [List.prefix_cons_iff, List.prefix_nil] at hpre
  rcases hpre with rfl | ⟨_, rfl, rfl | ⟨_, rfl, rfl | ⟨_, rfl, rfl | ⟨_, rfl, rfl⟩⟩⟩⟩ <;> decide

end Miqs.LinkList
