import Miqs.LinkList

/-! What the operations of the linked list do to its entries, wherever the cursor stands. -/
namespace Miqs.LinkList
open Miqs.DoublyLinked
variable {V : Type}

structure Rep (l : LinkedList V) (as : List Nat) : Prop where
  linked : Linked l.links as
  head : l.head = as.head?
  tail : l.tail = as.getLast?
  length : l.length = as.length
  live : ∀ a ∈ as, a ∈ l.live
  cursor : ∀ a, l.cur = some a → as[l.pos]? = some a

structure Loose (l : LinkedList V) (as : List Nat) (entry : Nat) : Prop where
  out : entry ∉ as
  live : entry ∈ l.live
  prev : l.links.prev entry = none
  next : l.links.next entry = none

theorem rep_create : Rep (listCreate : LinkedList V) [] :=
  ⟨⟨List.nodup_nil, trivial⟩, rfl, rfl, rfl, by simp, by simp [listCreate]⟩

section Entries
variable {l : LinkedList V} {as : List Nat} (h : Rep l as)
include h

theorem Rep.ne_nil_iff : l.length = 0 ↔ as = [] := by rw [h.length, List.length_eq_zero_iff]

theorem Rep.pick_eq {pos : Nat} (hpos : pos < as.length) (hshort : as.length < 2^32) :
    pickEntry l pos = ({ l with pos := pos, cur := as[pos]? }, as[pos]?) := by
  have hlast : as.getLast? = as[as.length - 1]? := List.getLast?_eq_getElem?
  have hhead : as.head? = as[0]? := List.head?_eq_getElem?
  have hwalk : (if l.cur.isSome ∧ (toInt ((l.pos : Int) - pos)).natAbs < l.length / 2 then
        if l.pos < pos then walk l.links.next (pos - u32 l.pos) l.cur
        else walk l.links.prev (u32 l.pos - pos) l.cur
      else if pos > l.length / 2 then walk l.links.prev (u32 (l.length - 1) - pos) l.tail
      else walk l.links.next pos l.head) = as[pos]? := by
    split_ifs with hcur hfwd htail
    · obtain ⟨a, ha⟩ := Option.isSome_iff_exists.mp hcur.1
      have hget := h.cursor a ha
      have hlt := (List.getElem?_eq_some_iff.mp hget).1
      rw [ha, ← hget, h.linked.walk_next, u32, Nat.mod_eq_of_lt (by omega)]
      congr 1
      omega
    · obtain ⟨a, ha⟩ := Option.isSome_iff_exists.mp hcur.1
      have hget := h.cursor a ha
      have hlt := (List.getElem?_eq_some_iff.mp hget).1
      rw [ha, ← hget, u32, Nat.mod_eq_of_lt (by omega), h.linked.walk_prev (by omega) hlt]
      congr 1
      omega
    · rw [h.tail, hlast, h.length, u32, Nat.mod_eq_of_lt (by omega), h.linked.walk_prev (by omega) (by omega)]
      congr 1
      omega
    · rw [h.head, hhead, h.linked.walk_next]
      congr 1
      omega
  rw [pickEntry, if_neg (by rw [h.length]; omega)]
  simp only [hwalk, List.getElem?_eq_getElem hpos, Option.isSome_some, if_true]

theorem Rep.pick_none {pos : Nat} (hpos : as.length ≤ pos) : pickEntry l pos = (l, none) := by
  rw [pickEntry, if_pos (by rw [h.length]; exact hpos)]

theorem Rep.picked {pos : Nat} : Rep { l with pos := pos, cur := as[pos]? } as :=
  ⟨h.linked, h.head, h.tail, h.length, h.live, fun _ ha => ha⟩

omit h in
theorem Loose.linked {entry : Nat} (he : Loose l as entry) : Linked l.links [entry] :=
  ⟨List.nodup_singleton entry, he.prev, he.next, trivial⟩

theorem Rep.push {entry : Nat} (he : Loose l as entry) : Rep (pushEntry l entry) (as ++ [entry]) := by
  have hcursor : ∀ a, l.cur = some a → (as ++ [entry])[l.pos]? = some a := by
    intro a ha
    have hget := h.cursor a ha
    rw [List.getElem?_append_left (List.getElem?_eq_some_iff.mp hget).1]
    exact hget
  have hlive : ∀ a ∈ as ++ [entry], a ∈ l.live := by
    intro a ha
    rcases List.mem_append.mp ha with ha | ha
    · exact h.live a ha
    · rw [List.mem_singleton.mp ha]
      exact he.live
  have hlength : l.length + 1 = (as ++ [entry]).length := by simp [h.length]
  rw [pushEntry]
  split_ifs with hzero
  · obtain rfl := h.ne_nil_iff.mp hzero
    exact ⟨he.linked, rfl, rfl, hlength, hlive, hcursor⟩
  · have hlinked : Linked l.links (as ++ []) := by
      rw [List.append_nil]
      exact h.linked
    have hout : entry ∉ as ++ [] := by
      rw [List.append_nil]
      exact he.out
    refine ⟨hlinked.insert hout ?_ ?_, ?_, ?_, hlength, hlive, hcursor⟩
    · intro b
      simp only [next_setNext, next_setPrev, h.tail, List.head?_nil, Option.some.injEq, eq_comm (a := entry)]
    · intro b
      simp only [prev_setNext, prev_setPrev, h.tail, Option.some.injEq, eq_comm (a := entry), List.head?_nil,
        reduceCtorEq, if_false]
    · have hne : as ≠ [] := fun hnil => hzero (h.ne_nil_iff.mpr hnil)
      obtain ⟨a, as, rfl⟩ := List.exists_cons_of_ne_nil hne
      exact h.head
    · rw [List.getLast?_concat]

theorem Rep.unshift {entry : Nat} (he : Loose l as entry) : Rep (unshiftEntry l entry) (entry :: as) := by
  have hlive : ∀ a ∈ entry :: as, a ∈ l.live := by
    intro a ha
    rcases List.mem_cons.mp ha with rfl | ha
    · exact he.live
    · exact h.live a ha
  have hlength : l.length + 1 = (entry :: as).length := by simp [h.length]
  rw [unshiftEntry]
  by_cases hzero : l.length = 0
  · obtain rfl := h.ne_nil_iff.mp hzero
    have hcur : l.cur = none := Option.eq_none_iff_forall_ne_some.mpr fun a ha => by
      have := h.cursor a ha
      simp at this
    simp only [if_pos hzero, hcur, Option.isSome_none, Bool.false_eq_true, if_false]
    exact ⟨he.linked, rfl, rfl, hlength, hlive, by simp⟩
  · have hlinked : Linked (((l.links.setPrev l.head (some entry)).setPrev (some entry) none).setNext
        (some entry) l.head) (entry :: as) := by
      have hlinked : Linked l.links ([] ++ as) := h.linked
      refine hlinked.insert he.out ?_ ?_
      · intro b
        simp only [next_setNext, next_setPrev, h.head, Option.some.injEq, eq_comm (a := entry),
          List.getLast?_nil, reduceCtorEq, if_false]
      · intro b
        simp only [prev_setNext, prev_setPrev, h.head, Option.some.injEq, eq_comm (a := entry), List.getLast?_nil]
    have htail : l.tail = (entry :: as).getLast? := by
      have hne : as ≠ [] := fun hnil => hzero (h.ne_nil_iff.mpr hnil)
      obtain ⟨a, as, rfl⟩ := List.exists_cons_of_ne_nil hne
      rw [List.getLast?_cons_cons]
      exact h.tail
    simp only [if_neg hzero]
    split_ifs with hcur
    · exact ⟨hlinked, rfl, htail, hlength, hlive, h.cursor⟩
    · exact ⟨hlinked, rfl, htail, hlength, hlive, fun a ha => absurd (by rw [ha]; rfl) hcur⟩

omit h in
theorem next_unlinked (links : Links Nat) (entry b : Nat) :
    (unlinked links entry).next b = if b = entry then none else links.next b := by
  simp only [unlinked, next_setNext, next_setPrev, Option.some.injEq, eq_comm (a := entry)]

omit h in
theorem prev_unlinked (links : Links Nat) (entry b : Nat) :
    (unlinked links entry).prev b = if b = entry then none else links.prev b := by
  simp only [unlinked, prev_setNext, prev_setPrev, Option.some.injEq, eq_comm (a := entry)]

end Entries

structure Taken (l l' : LinkedList V) (as : List Nat) (a : Nat) : Prop where
  rep : Rep l' as
  loose : Loose l' as a
  value : l'.value = l.value
  live : l'.live = l.live

/-- A list whose last entry went has neither end. -/
theorem taken_of_emptied (l l' : LinkedList V) {as : List Nat} {a : Nat} {links : Links Nat}
    (hlinks : l'.links = unlinked links a) (hlinked : Linked l'.links as) (hlength : l'.length = as.length)
    (hhead : as ≠ [] → l'.head = as.head?) (htail : as ≠ [] → l'.tail = as.getLast?)
    (hlive : ∀ b ∈ a :: as, b ∈ l.live) (hcursor : ∀ b, l'.cur = some b → as[l'.pos]? = some b) (hout : a ∉ as)
    (hvalue : l'.value = l.value) (hsame : l'.live = l.live) :
    Taken l (if l'.length = 0 then { l' with head := none, tail := none } else l') as a := by
  have hprev : l'.links.prev a = none := by rw [hlinks, prev_unlinked, if_pos rfl]
  have hnext : l'.links.next a = none := by rw [hlinks, next_unlinked, if_pos rfl]
  have hused : ∀ b ∈ as, b ∈ l'.live := fun b hb => hsame ▸ hlive b (List.mem_cons_of_mem _ hb)
  have halive : a ∈ l'.live := hsame ▸ hlive a (by simp)
  by_cases hzero : l'.length = 0
  · rw [if_pos hzero]
    rw [hlength, List.length_eq_zero_iff] at hzero
    subst hzero
    exact ⟨⟨hlinked, rfl, rfl, hlength, hused, hcursor⟩, ⟨hout, halive, hprev, hnext⟩, hvalue, hsame⟩
  · rw [if_neg hzero]
    rw [hlength, List.length_eq_zero_iff] at hzero
    exact ⟨⟨hlinked, hhead hzero, htail hzero, hlength, hused, hcursor⟩, ⟨hout, halive, hprev, hnext⟩, hvalue, hsame⟩

theorem Rep.pop {l : LinkedList V} {as : List Nat} {a : Nat} (h : Rep l (as ++ [a])) :
    ∃ l', popEntry l = (l', some a) ∧ Taken l l' as a := by
  have htail : l.tail = some a := by rw [h.tail, List.getLast?_concat]
  have hprev : l.links.prev a = as.getLast? := h.linked.links.1
  have hout : a ∉ as := by
    have hnodup := h.linked.nodup
    rw [List.nodup_append] at hnodup
    exact fun ha => hnodup.2.2 a ha a (by simp) rfl
  simp only [popEntry, htail, hprev]
  refine ⟨_, rfl, ?_⟩
  refine taken_of_emptied l { l with
    tail := as.getLast?
    links := unlinked (l.links.setNext as.getLast? none) a
    length := l.length - 1
    cur := if l.cur = some a then none else l.cur } rfl ?_ ?_ ?_ (fun _ => rfl) ?_ ?_ hout rfl rfl
  · show Linked _ as
    rw [← List.append_nil as]
    refine h.linked.remove ?_ ?_
    · intro b hb
      rw [next_unlinked, if_neg hb, next_setNext, List.append_nil]
      rfl
    · intro b hb
      rw [prev_unlinked, if_neg hb, prev_setNext]
      simp
  · simp [h.length]
  · intro hne
    obtain ⟨b, as, rfl⟩ := List.exists_cons_of_ne_nil hne
    exact h.head
  · intro b hb
    exact h.live b (by simpa [or_comm] using hb)
  · intro b hb
    simp only at hb
    split_ifs at hb with hcur
    have hget := h.cursor b hb
    rw [List.getElem?_append] at hget
    split_ifs at hget with hpos
    · exact hget
    · have hmem := List.mem_of_getElem? hget
      rw [List.mem_singleton] at hmem
      exact absurd (hmem ▸ hb) hcur

theorem Rep.shift {l : LinkedList V} {as : List Nat} {a : Nat} (h : Rep l (a :: as)) :
    ∃ l', shiftEntry l = (l', some a) ∧ Taken l l' as a := by
  have hhead : l.head = some a := h.head
  have hlinked : Linked l.links ([] ++ a :: as) := h.linked
  have hnext : l.links.next a = as.head? := hlinked.links.2
  have hout : a ∉ as := (List.nodup_cons.mp h.linked.nodup).1
  simp only [shiftEntry, hhead, hnext]
  refine ⟨_, rfl, ?_⟩
  refine taken_of_emptied l { l with
    head := as.head?
    links := unlinked (l.links.setPrev as.head? none) a
    length := l.length - 1
    cur := if l.cur = some a then none else l.cur
    pos := if l.cur = some a then l.pos else l.pos - 1 } rfl ?_ ?_ (fun _ => rfl) ?_ h.live ?_ hout rfl rfl
  · refine hlinked.remove ?_ ?_
    · intro b hb
      rw [next_unlinked, if_neg hb, next_setPrev]
      simp
    · intro b hb
      rw [prev_unlinked, if_neg hb, prev_setPrev]
      rfl
  · simp [h.length]
  · intro hne
    obtain ⟨b, as, rfl⟩ := List.exists_cons_of_ne_nil hne
    simp only [h.tail, List.getLast?_cons_cons]
  · intro b hb
    simp only at hb ⊢
    split_ifs at hb ⊢ with hcur
    have hget := h.cursor b hb
    cases hpos : l.pos with
    | zero =>
      rw [hpos, List.getElem?_cons_zero] at hget
      exact absurd (hb.trans hget.symm) hcur
    | succ pos =>
      rw [hpos, List.getElem?_cons_succ] at hget
      exact hget

/-- Inside the list the cursor is on the entry, and is reset. -/
theorem Rep.remove {l : LinkedList V} {pre post : List Nat} {a : Nat} (h : Rep l (pre ++ a :: post))
    (hpre : pre ≠ []) (hpost : post ≠ []) (hshort : (pre ++ a :: post).length < 2^32) :
    ∃ l', removeEntry l pre.length = (l', some a) ∧ Taken l l' (pre ++ post) a := by
  have hpos : pre.length < (pre ++ a :: post).length := by simp
  have hget : (pre ++ a :: post)[pre.length]? = some a := by simp
  have hlinks := h.linked.links
  have hzero : ¬ pre.length = 0 := fun hnil => hpre (List.length_eq_zero_iff.mp hnil)
  have hlast : ¬ (pre.length ≠ 0 ∧ pre.length = l.length - 1) := by
    rintro ⟨-, heq⟩
    rw [h.length, List.length_append, List.length_cons] at heq
    exact hpost (List.length_eq_zero_iff.mp (by omega))
  have hout : a ∉ pre ++ post := (List.nodup_cons.mp (List.nodup_middle.mp h.linked.nodup)).1
  have hmem : ∀ b, b = a ∨ b ∈ pre ++ post → b ∈ pre ++ a :: post := by
    intro b hb
    rw [List.mem_append, List.mem_cons]
    rw [List.mem_append] at hb
    exact or_left_comm.mp hb
  simp only [removeEntry, h.pick_eq hpos hshort, hget, if_neg hzero, if_neg hlast, hlinks, if_true]
  refine ⟨_, rfl, ⟨?_, ?_, ?_, ?_, ?_, ?_⟩, ⟨hout, ?_, ?_, ?_⟩, rfl, rfl⟩
  · refine Linked.remove h.linked ?_ ?_
    · intro b hb
      rw [next_unlinked, if_neg hb, next_setPrev, next_setNext]
    · intro b hb
      rw [prev_unlinked, if_neg hb, prev_setPrev, prev_setNext]
  · obtain ⟨b, pre, rfl⟩ := List.exists_cons_of_ne_nil hpre
    exact h.head
  · obtain ⟨b, post, rfl⟩ := List.exists_cons_of_ne_nil hpost
    simp only [h.tail, List.getLast?_append, List.getLast?_cons_cons]
  · simp only [h.length, List.length_append, List.length_cons]
    rfl
  · exact fun b hb => h.live b (hmem b (Or.inr hb))
  · intro b hb
    cases hb
  · exact h.live a (hmem a (Or.inl rfl))
  · rw [prev_unlinked, if_pos rfl]
  · rw [next_unlinked, if_pos rfl]

theorem Rep.pop_empty {l : LinkedList V} (h : Rep l []) : popEntry l = (l, none) := by
  have hhead : l.head = none := h.head
  have htail : l.tail = none := h.tail
  simp only [popEntry, htail]
  have hzero : l.length = 0 := h.length
  rw [if_pos hzero, ← hhead]
  cases l
  simp_all

theorem Rep.shift_empty {l : LinkedList V} (h : Rep l []) : shiftEntry l = (l, none) := by
  have hhead : l.head = none := h.head
  have htail : l.tail = none := h.tail
  simp only [shiftEntry, hhead]
  have hzero : l.length = 0 := h.length
  rw [if_pos hzero]
  cases l
  simp_all

theorem Rep.fetch {l : LinkedList V} {as : List Nat} (h : Rep l as) (hshort : as.length < 2^32) {pos : Nat}
    (hpos : pos < as.length) : ∃ l', fetchEntry l pos = (l', some as[pos]) ∧ Taken l l' (as.eraseIdx pos) as[pos] := by
  rw [fetchEntry, h.length]
  split_ifs with hzero hlast
  · subst hzero
    obtain ⟨a, as, rfl⟩ := List.exists_cons_of_length_pos hpos
    exact h.shift
  · rcases List.eq_nil_or_concat as with rfl | ⟨as, a, rfl⟩
    · exact absurd hpos (Nat.not_lt_zero _)
    · rw [List.concat_eq_append] at h
      obtain rfl : pos = as.length := by simpa using hlast
      simpa [List.eraseIdx_append_of_length_le] using h.pop
  · have hsplit : as = as.take pos ++ as[pos] :: as.drop (pos + 1) := by
      rw [← List.drop_eq_getElem_cons hpos, List.take_append_drop]
    have hlen : (as.take pos).length = pos := List.length_take_of_le (Nat.le_of_lt hpos)
    have hpre : as.take pos ≠ [] := fun hnil => hzero (by rw [← hlen, hnil, List.length_nil])
    have hpost : as.drop (pos + 1) ≠ [] := by
      rw [ne_eq, List.drop_eq_nil_iff]
      omega
    rw [List.eraseIdx_eq_take_drop_succ]
    have hremove := Rep.remove (hsplit ▸ h) hpre hpost (hsplit ▸ hshort)
    rwa [hlen] at hremove

theorem Rep.fetch_none {l : LinkedList V} {as : List Nat} (h : Rep l as) {pos : Nat} (hpos : as.length ≤ pos) :
    fetchEntry l pos = (l, none) := by
  rw [fetchEntry, h.length]
  split_ifs with hzero hlast
  · subst hzero
    obtain rfl := List.length_eq_zero_iff.mp (Nat.le_zero.mp hpos)
    exact h.shift_empty
  · omega
  · rw [removeEntry, h.pick_none hpos]

theorem Rep.insert {l : LinkedList V} {pre post : List Nat} (malloc : List Nat → Nat) (h : Rep l (pre ++ post))
    (hshort : (pre ++ post).length < 2^32) (hpre : pre ≠ []) (hpost : post ≠ []) {entry : Nat}
    (he : Loose l (pre ++ post) entry) : ∃ l', insertEntry malloc l entry pre.length = (l', 0) ∧
      Rep l' (pre ++ entry :: post) ∧ l'.value = l.value ∧ l'.live = l.live := by
  obtain ⟨pre, prev, rfl⟩ := (List.eq_nil_or_concat pre).resolve_left hpre
  rw [List.concat_eq_append] at *
  have hassoc : ∀ bs : List Nat, pre ++ [prev] ++ bs = pre ++ prev :: bs := by simp
  have hlen : (pre ++ [prev]).length = pre.length + 1 := by simp
  have hlong : 0 < post.length := List.length_pos_iff.mpr hpost
  have hpos : pre.length < (pre ++ [prev] ++ post).length := by simp
  have hget : (pre ++ [prev] ++ post)[pre.length]? = some prev := by simp
  have hnext : l.links.next prev = post.head? := by
    have hlinked := h.linked
    rw [hassoc] at hlinked
    exact hlinked.links.2
  have hlength : l.length = pre.length + 1 + post.length := by rw [h.length, List.length_append, hlen]
  rw [insertEntry, hlen, if_neg (by omega), if_neg (by omega), if_neg (by omega), Nat.add_sub_cancel,
    h.pick_eq hpos hshort, hget]
  refine ⟨_, rfl, ⟨?_, ?_, ?_, ?_, ?_, ?_⟩, rfl, rfl⟩
  · refine h.linked.insert he.out ?_ ?_
    · intro b
      simp only [next_setPrev, next_setNext, hnext, List.getLast?_concat, Option.some.injEq, eq_comm (a := entry)]
    · intro b
      simp only [prev_setPrev, prev_setNext, hnext, List.getLast?_concat, Option.some.injEq, eq_comm (a := entry)]
      by_cases hb : b = entry
      · have hhead : post.head? ≠ some b := fun heq =>
          he.out (hb ▸ List.mem_append_right _ (List.mem_of_head? heq))
        rw [if_neg hhead, if_pos hb, if_pos hb]
      · rw [if_neg hb, if_neg hb]
  · rw [hassoc]
    exact h.head.trans (by simp)
  · obtain ⟨b, post, rfl⟩ := List.exists_cons_of_ne_nil hpost
    simp only [h.tail, List.getLast?_append, List.getLast?_cons_cons]
  · simp [hlength]
    omega
  · intro a ha
    rw [List.mem_append, List.mem_cons, or_left_comm, ← List.mem_append] at ha
    rcases ha with rfl | ha
    · exact he.live
    · exact h.live a ha
  · intro a ha
    rw [hassoc, List.getElem?_append_right (Nat.le_refl _), Nat.sub_self]
    exact ha

end Miqs.LinkList
