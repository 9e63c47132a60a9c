import Mathlib.Data.List.Nodup
import Mathlib.Logic.Function.Basic

/-! Doubly linked cells. A segment is a list of cells that are linked in order between two
pointers, and what happens to other cells does not concern it. -/
namespace Miqs.DoublyLinked
variable {A : Type*}

structure Links (A : Type*) where
  prev : A → Option A
  next : A → Option A

def Seg (l : Links A) : Option A → List A → Option A → Prop
  | _, [], _ => True
  | p, a :: as, n => l.prev a = p ∧ l.next a = as.head?.or n ∧ Seg l (some a) as n

structure Linked (l : Links A) (as : List A) : Prop where
  nodup : as.Nodup
  seg : Seg l none as none

theorem seg_congr {l l' : Links A} {p n : Option A} {as : List A}
    (h : ∀ a ∈ as, l'.prev a = l.prev a ∧ l'.next a = l.next a) (hs : Seg l p as n) : Seg l' p as n := by
  induction as generalizing p with
  | nil => trivial
  | cons a as ih =>
    obtain ⟨hprev, hnext, hs⟩ := hs
    have ha := h a (by simp)
    exact ⟨ha.1.trans hprev, ha.2.trans hnext, ih (fun b hb => h b (List.mem_cons_of_mem _ hb)) hs⟩

theorem seg_append {l : Links A} {p n : Option A} {as bs : List A} :
    Seg l p (as ++ bs) n ↔ Seg l p as (bs.head?.or n) ∧ Seg l (as.getLast?.or p) bs n := by
  induction as generalizing p with
  | nil => simp [Seg]
  | cons a as ih =>
    rw [List.cons_append, Seg, Seg, ih]
    have hhead : (as ++ bs).head?.or n = as.head?.or (bs.head?.or n) := by
      cases as <;> simp
    have hlast : (a :: as).getLast?.or p = as.getLast?.or (some a) := by
      cases as with
      | nil => simp
      | cons b as =>
        rw [List.getLast?_cons_cons]
        cases h : (b :: as).getLast? with
        | none => simp at h
        | some c => rfl
    rw [hhead, hlast]
    exact ⟨fun ⟨h₁, h₂, h₃, h₄⟩ => ⟨⟨h₁, h₂, h₃⟩, h₄⟩, fun ⟨⟨h₁, h₂, h₃⟩, h₄⟩ => ⟨h₁, h₂, h₃, h₄⟩⟩

def walk (f : A → Option A) : Nat → Option A → Option A
  | 0, a => a
  | k + 1, a => walk f k (a.bind f)

theorem Linked.links {l : Links A} {pre post : List A} {a : A} (h : Linked l (pre ++ a :: post)) :
    l.prev a = pre.getLast? ∧ l.next a = post.head? := by
  have hseg := (seg_append.mp h.seg).2
  rw [Option.or_none] at hseg
  exact ⟨hseg.1, by simpa using hseg.2.1⟩

theorem Linked.next_getElem {l : Links A} {as : List A} (h : Linked l as) (i : Nat) :
    as[i]?.bind l.next = as[i + 1]? := by
  cases ha : as[i]? with
  | none =>
    rw [List.getElem?_eq_none_iff] at ha
    exact (List.getElem?_eq_none (by omega)).symm
  | some a =>
    obtain ⟨hi, rfl⟩ := List.getElem?_eq_some_iff.mp ha
    have hsplit : as = as.take i ++ as[i] :: as.drop (i + 1) := by
      rw [← List.drop_eq_getElem_cons hi, List.take_append_drop]
    rw [hsplit] at h
    rw [Option.bind_some, h.links.2, List.head?_drop]

theorem Linked.prev_getElem {l : Links A} {as : List A} (h : Linked l as) {i : Nat} (hi : i + 1 < as.length) :
    as[i + 1]?.bind l.prev = as[i]? := by
  rw [List.getElem?_eq_getElem hi, Option.bind_some]
  have hsplit : as = as.take (i + 1) ++ as[i + 1] :: as.drop (i + 1 + 1) := by
    rw [← List.drop_eq_getElem_cons hi, List.take_append_drop]
  have hlinks := h
  rw [hsplit] at hlinks
  rw [hlinks.links.1, List.getLast?_take, if_neg (by omega), Nat.add_sub_cancel]
  cases hget : as[i]? with
  | none =>
    rw [List.getElem?_eq_none_iff] at hget
    omega
  | some b => rfl

theorem Linked.walk_next {l : Links A} {as : List A} (h : Linked l as) (k i : Nat) :
    walk l.next k as[i]? = as[i + k]? := by
  induction k generalizing i with
  | zero => rfl
  | succ k ih =>
    rw [walk, h.next_getElem, ih]
    congr 1
    omega

theorem Linked.walk_prev {l : Links A} {as : List A} (h : Linked l as) {k i : Nat} (hk : k ≤ i) (hi : i < as.length) :
    walk l.prev k as[i]? = as[i - k]? := by
  induction k generalizing i with
  | zero => rfl
  | succ k ih =>
    obtain ⟨j, rfl⟩ : ∃ j, i = j + 1 := ⟨i - 1, by omega⟩
    rw [walk, h.prev_getElem hi, ih (by omega) (by omega)]
    congr 1
    omega

variable [DecidableEq A]

def Links.setNext (l : Links A) (p x : Option A) : Links A :=
  p.elim l fun p => { l with next := Function.update l.next p x }

def Links.setPrev (l : Links A) (n x : Option A) : Links A :=
  n.elim l fun n => { l with prev := Function.update l.prev n x }

@[simp] theorem prev_setNext (l : Links A) (p x : Option A) : (l.setNext p x).prev = l.prev := by
  cases p <;> rfl

@[simp] theorem next_setPrev (l : Links A) (n x : Option A) : (l.setPrev n x).next = l.next := by
  cases n <;> rfl

theorem next_setNext (l : Links A) (p x : Option A) (a : A) :
    (l.setNext p x).next a = if p = some a then x else l.next a := by
  cases p with
  | none => rfl
  | some p => simp [Links.setNext, Function.update_apply, eq_comm]

theorem prev_setPrev (l : Links A) (n x : Option A) (a : A) :
    (l.setPrev n x).prev a = if n = some a then x else l.prev a := by
  cases n with
  | none => rfl
  | some n => simp [Links.setPrev, Function.update_apply, eq_comm]

theorem seg_setNext_of_not_mem {l : Links A} {p n q x : Option A} {as : List A} (h : Seg l p as n)
    (hq : ∀ a ∈ as, q ≠ some a) : Seg (l.setNext q x) p as n := by
  refine seg_congr ?_ h
  intro a ha
  rw [prev_setNext, next_setNext, if_neg (hq a ha)]
  exact ⟨rfl, rfl⟩

theorem seg_setPrev_of_not_mem {l : Links A} {p n q x : Option A} {as : List A} (h : Seg l p as n)
    (hq : ∀ a ∈ as, q ≠ some a) : Seg (l.setPrev q x) p as n := by
  refine seg_congr ?_ h
  intro a ha
  rw [next_setPrev, prev_setPrev, if_neg (hq a ha)]
  exact ⟨rfl, rfl⟩

/-- The last cell gets another successor. -/
theorem seg_setNext_last {l : Links A} {p n x : Option A} {as : List A} (h : Seg l p as n) (hnodup : as.Nodup) :
    Seg (l.setNext as.getLast? x) p as x := by
  rcases List.eq_nil_or_concat as with rfl | ⟨as, a, rfl⟩
  · trivial
  · rw [List.concat_eq_append] at h hnodup ⊢
    rw [seg_append] at h ⊢
    rw [List.nodup_append] at hnodup
    refine ⟨seg_setNext_of_not_mem (by simpa using h.1) ?_, ?_⟩
    · intro b hb heq
      rw [List.getLast?_concat] at heq
      exact hnodup.2.2 b hb a (by simp) (Option.some.inj heq).symm
    · refine ⟨?_, ?_, trivial⟩
      · rw [prev_setNext]
        exact h.2.1
      · rw [next_setNext, List.getLast?_concat, if_pos rfl]
        rfl

/-- The first cell gets another predecessor. -/
theorem seg_setPrev_head {l : Links A} {p n x : Option A} {as : List A} (h : Seg l p as n) (hnodup : as.Nodup) :
    Seg (l.setPrev as.head? x) x as n := by
  cases as with
  | nil => trivial
  | cons a as =>
    obtain ⟨-, hnext, h⟩ := h
    rw [List.nodup_cons] at hnodup
    refine ⟨?_, ?_, seg_setPrev_of_not_mem h ?_⟩
    · rw [prev_setPrev, List.head?_cons, if_pos rfl]
    · rw [next_setPrev]
      exact hnext
    · rintro b hb heq
      obtain rfl := Option.some.inj heq
      exact hnodup.1 hb

/-- A new cell between two others. -/
theorem Linked.insert {l l' : Links A} {pre post : List A} {a : A} (h : Linked l (pre ++ post)) (ha : a ∉ pre ++ post)
    (hnext : ∀ b, l'.next b = if b = a then post.head? else if pre.getLast? = some b then some a else l.next b)
    (hprev : ∀ b, l'.prev b = if b = a then pre.getLast? else if post.head? = some b then some a else l.prev b) :
    Linked l' (pre ++ a :: post) := by
  have hnodup := List.nodup_append.mp h.nodup
  have hseg := seg_append.mp h.seg
  rw [Option.or_none, Option.or_none] at hseg
  rw [List.mem_append, not_or] at ha
  refine ⟨?_, seg_append.mpr ⟨?_, ?_⟩⟩
  · rw [List.nodup_middle, List.nodup_cons, List.mem_append, not_or]
    exact ⟨ha, h.nodup⟩
  · -- the last cell before the new one points to it
    rw [List.head?_cons, Option.some_or]
    refine seg_congr ?_ (seg_setNext_last hseg.1 hnodup.1)
    intro b hb
    have hne : b ≠ a := fun heq => ha.1 (heq ▸ hb)
    have hpost : post.head? ≠ some b := fun heq => hnodup.2.2 b hb b (List.mem_of_head? heq) rfl
    rw [hnext, hprev, prev_setNext, next_setNext, if_neg hne, if_neg hne, if_neg hpost]
    exact ⟨rfl, rfl⟩
  · rw [Option.or_none]
    refine ⟨?_, ?_, ?_⟩
    · rw [hprev, if_pos rfl]
    · rw [hnext, if_pos rfl, Option.or_none]
    · refine seg_congr ?_ (seg_setPrev_head hseg.2 hnodup.2.1)
      intro b hb
      have hne : b ≠ a := fun heq => ha.2 (heq ▸ hb)
      have hpre : pre.getLast? ≠ some b := fun heq => hnodup.2.2 b (List.mem_of_getLast? heq) b hb rfl
      rw [hnext, hprev, next_setPrev, prev_setPrev, if_neg hne, if_neg hne, if_neg hpre]
      exact ⟨rfl, rfl⟩

/-- A cell is taken out. -/
theorem Linked.remove {l l' : Links A} {pre post : List A} {a : A} (h : Linked l (pre ++ a :: post))
    (hnext : ∀ b, b ≠ a → l'.next b = if pre.getLast? = some b then post.head? else l.next b)
    (hprev : ∀ b, b ≠ a → l'.prev b = if post.head? = some b then pre.getLast? else l.prev b) :
    Linked l' (pre ++ post) := by
  have hnodup := h.nodup
  rw [List.nodup_middle, List.nodup_cons, List.mem_append, not_or, List.nodup_append] at hnodup
  obtain ⟨ha, hpre, hpost, hdisjoint⟩ := hnodup
  have hseg := seg_append.mp h.seg
  obtain ⟨hseg, -, -, hseg'⟩ := hseg
  refine ⟨List.nodup_append.mpr ⟨hpre, hpost, hdisjoint⟩, seg_append.mpr ⟨?_, ?_⟩⟩
  · rw [Option.or_none]
    refine seg_congr ?_ (seg_setNext_last hseg hpre)
    intro b hb
    have hne : b ≠ a := fun heq => ha.1 (heq ▸ hb)
    have hhead : post.head? ≠ some b := fun heq => hdisjoint b hb b (List.mem_of_head? heq) rfl
    rw [hnext b hne, hprev b hne, prev_setNext, next_setNext, if_neg hhead]
    exact ⟨rfl, rfl⟩
  · rw [Option.or_none]
    refine seg_congr ?_ (seg_setPrev_head hseg' hpost)
    intro b hb
    have hne : b ≠ a := fun heq => ha.2 (heq ▸ hb)
    have hlast : pre.getLast? ≠ some b := fun heq => hdisjoint b (List.mem_of_getLast? heq) b hb rfl
    rw [hnext b hne, hprev b hne, next_setPrev, prev_setPrev, if_neg hlast]
    exact ⟨rfl, rfl⟩

end Miqs.DoublyLinked
