import Mathlib.Data.List.Nodup
import Mathlib.Logic.Function.Basic

/-! Intrusive tail queues over one memory. An element's link field belongs to no queue
in particular: inserting after an element links into whichever chain the element is in,
and a queue's last pointer may become stale. -/
namespace Miqs.TailQueue
variable {H E : Type}

inductive Field (H E : Type) where
  | first (h : H)
  | next (e : E)
  deriving DecidableEq

structure Queues (H E : Type) where
  ptr : Field H E → Option E
  last : H → Field H E

def Queues.init : Queues H E := ⟨fun _ => none, Field.first⟩

namespace Queues
variable [DecidableEq H] [DecidableEq E]

def insertTail (q : Queues H E) (h : H) (elm : E) : Queues H E where
  ptr := Function.update (Function.update q.ptr (.next elm) none) (q.last h) (some elm)
  last := Function.update q.last h (.next elm)

def insertAfter (q : Queues H E) (h : H) (listelm elm : E) : Queues H E where
  ptr := Function.update (Function.update q.ptr (.next elm) (q.ptr (.next listelm)))
    (.next listelm) (some elm)
  last := if (q.ptr (.next listelm)).isSome then q.last else Function.update q.last h (.next elm)

omit [DecidableEq H] [DecidableEq E] in
/-- Walk as long as `go` says so; the result is the last element passed. `none` if the
chain does not end in `fuel` steps or `go` fails. -/
def advance (q : Queues H E) (go : E → Option Bool) : Nat → Option E → Option E → Option (Option E)
  | 0, _, _ => none
  | _+1, prev, none => some prev
  | fuel+1, prev, some e => do
    if ← go e then advance q go fuel (some e) (q.ptr (.next e)) else some prev

omit [DecidableEq H] [DecidableEq E] in
def traverse (q : Queues H E) : Nat → Option E → Option (List E)
  | 0, _ => none
  | _+1, none => some []
  | fuel+1, some e => (traverse q fuel (q.ptr (.next e))).map (e :: ·)

def Ranked (q : Queues H E) (n : Nat) : Prop :=
  ∃ rank : E → Nat, (∀ e e', q.ptr (.next e) = some e' → rank e' < rank e) ∧ ∀ e, rank e ≤ n

structure Fresh (q : Queues H E) (elm : E) : Prop where
  next : q.ptr (.next elm) = none
  ptr : ∀ f, q.ptr f ≠ some elm
  last : ∀ h, q.last h ≠ .next elm

omit [DecidableEq H] [DecidableEq E] in
theorem ranked_init (n : Nat) : (Queues.init : Queues H E).Ranked n :=
  ⟨fun _ => 0, by simp [Queues.init], by simp⟩

def shift (rank : E → Nat) (pivot elm e : E) : Nat :=
  if e = elm then rank pivot else if rank pivot ≤ rank e then rank e + 1 else rank e

theorem shift_le {rank : E → Nat} {n : Nat} (hle : ∀ e, rank e ≤ n) (pivot elm e : E) :
    shift rank pivot elm e ≤ n + 1 := by
  have he := hle e
  have hp := hle pivot
  unfold shift
  split_ifs <;> omega

theorem Ranked.insertAfter {q : Queues H E} {n : Nat} (hr : q.Ranked n) {elm : E}
    (hf : q.Fresh elm) (h : H) {listelm : E} (hne : listelm ≠ elm) :
    (q.insertAfter h listelm elm).Ranked (n + 1) := by
  obtain ⟨rank, hfall, hle⟩ := hr
  refine ⟨shift rank listelm elm, ?_, shift_le hle listelm elm⟩
  intro e e' he
  simp only [Queues.insertAfter, Function.update_apply, Field.next.injEq] at he
  split_ifs at he with h₁ h₂
  · obtain rfl := Option.some.inj he
    subst h₁
    simp [shift, hne]
  · -- the new element points where `listelm` did
    subst h₂
    have hlt := hfall _ _ he
    have he' : e' ≠ e := fun h => hf.ptr _ (h ▸ he)
    simp only [shift, he', if_false, if_true]
    split_ifs <;> omega
  · have hlt := hfall _ _ he
    have he' : e' ≠ elm := fun h => hf.ptr _ (h ▸ he)
    simp only [shift, he', h₂, if_false]
    split_ifs <;> omega

theorem Ranked.insertTail {q : Queues H E} {n : Nat} (hr : q.Ranked n) {elm : E}
    (hf : q.Fresh elm) (h : H) : (q.insertTail h elm).Ranked (n + 1) := by
  obtain ⟨rank, hfall, hle⟩ := hr
  cases hlast : q.last h with
  | first h' =>
    refine ⟨fun e => if e = elm then 0 else rank e + 1, ?_, ?_⟩
    · intro e e' he
      simp only [Queues.insertTail, hlast, Function.update_apply, reduceCtorEq, if_false,
        Field.next.injEq] at he
      split_ifs at he with h₁
      have hlt := hfall _ _ he
      have he' : e' ≠ elm := fun h => hf.ptr _ (h ▸ he)
      simp [h₁, he', hlt]
    · intro e
      have he := hle e
      dsimp only
      split_ifs <;> omega
  | next w =>
    have hw : w ≠ elm := fun h' => hf.last h (h' ▸ hlast)
    refine ⟨shift rank w elm, ?_, shift_le hle w elm⟩
    intro e e' he
    simp only [Queues.insertTail, hlast, Function.update_apply, Field.next.injEq] at he
    split_ifs at he with h₁ h₂
    · obtain rfl := Option.some.inj he
      subst h₁
      simp [shift, hw]
    · have hlt := hfall _ _ he
      have he' : e' ≠ elm := fun h => hf.ptr _ (h ▸ he)
      simp only [shift, he', h₂, if_false]
      split_ifs <;> omega

omit [DecidableEq H] [DecidableEq E] in
/-- A walk through ranked elements ends, at an element that was passed or where it began. -/
theorem advance_total {q : Queues H E} {n : Nat} (hr : q.Ranked n) (P : E → Prop)
    (go : E → Option Bool) (hP : ∀ e e', P e → q.ptr (.next e) = some e' → P e')
    (hgo : ∀ e, P e → ∃ b, go e = some b) {fuel : Nat} (hfuel : n + 1 < fuel) (prev : Option E)
    {item : Option E} (hitem : ∀ e, item = some e → P e) :
    ∃ out, q.advance go fuel prev item = some out ∧
      (out = prev ∨ ∃ e, out = some e ∧ P e ∧ go e = some true) := by
  obtain ⟨rank, hfall, hle⟩ := hr
  have hwalk : ∀ fuel prev item, (∀ e, item = some e → P e ∧ rank e + 1 < fuel) → 0 < fuel →
      ∃ out, q.advance go fuel prev item = some out ∧
        (out = prev ∨ ∃ e, out = some e ∧ P e ∧ go e = some true) := by
    intro fuel
    induction fuel with
    | zero => intro prev item _ h0; omega
    | succ fuel ih =>
      intro prev item hi _
      cases item with
      | none => exact ⟨prev, rfl, Or.inl rfl⟩
      | some e =>
        obtain ⟨hPe, hre⟩ := hi e rfl
        obtain ⟨b, hb⟩ := hgo e hPe
        cases b with
        | false => exact ⟨prev, by simp [advance, hb], Or.inl rfl⟩
        | true =>
          obtain ⟨out, hout, hor⟩ := ih (some e) (q.ptr (.next e)) (by
            intro e' he'
            have hlt := hfall e e' he'
            exact ⟨hP e e' hPe he', by omega⟩) (by omega)
          refine ⟨out, by simpa [advance, hb] using hout, ?_⟩
          cases hor with
          | inl h => exact Or.inr ⟨e, h, hPe, hb⟩
          | inr h => exact Or.inr h
  refine hwalk fuel prev item ?_ (by omega)
  intro e he
  have hrank := hle e
  exact ⟨hitem e he, by omega⟩

omit [DecidableEq H] [DecidableEq E] in
def Chain (q : Queues H E) : Field H E → List E → Prop
  | f, [] => q.ptr f = none
  | f, e :: es => q.ptr f = some e ∧ Chain q (.next e) es

omit [DecidableEq H] [DecidableEq E] in
theorem Chain.congr {q q' : Queues H E} {f f' : Field H E} {es : List E} (h : q.Chain f es)
    (hf : q'.ptr f' = q.ptr f) (hes : ∀ e ∈ es, q'.ptr (.next e) = q.ptr (.next e)) :
    q'.Chain f' es := by
  induction es generalizing f f' with
  | nil => exact hf.trans h
  | cons e es ih =>
    exact ⟨hf.trans h.1, ih h.2 (hes e (by simp)) fun e' he' => hes e' (List.mem_cons_of_mem e he')⟩

omit [DecidableEq H] [DecidableEq E] in
theorem Chain.from {q : Queues H E} {f : Field H E} {l r : List E} {e : E}
    (h : q.Chain f (l ++ e :: r)) : q.Chain (.next e) r := by
  induction l generalizing f with
  | nil => exact h.2
  | cons a l ih => exact ih h.2

/-- Insertion after an element of a chain, whatever queue it is said to be in. -/
theorem Chain.insertAfter {q : Queues H E} {f : Field H E} {l r : List E} {e elm : E}
    (h : q.Chain f (l ++ e :: r)) (hn : (l ++ e :: r).Nodup) (helm : elm ∉ l ++ e :: r) (k : H)
    (hf : f ≠ .next e) (hf' : f ≠ .next elm) :
    (q.insertAfter k e elm).Chain f (l ++ e :: elm :: r) := by
  have hother : ∀ x, x ≠ e → x ≠ elm → (q.insertAfter k e elm).ptr (.next x) = q.ptr (.next x) := by
    intro x h₁ h₂
    simp [Queues.insertAfter, h₁, h₂]
  have hfirst : (q.insertAfter k e elm).ptr f = q.ptr f := by
    simp [Queues.insertAfter, hf, hf']
  induction l generalizing f with
  | nil =>
    have hne : elm ≠ e := by
      rintro rfl
      simp at helm
    have hr : ∀ x ∈ r, x ≠ e ∧ x ≠ elm := by
      intro x hx
      constructor
      · rintro rfl
        simp only [List.nil_append, List.nodup_cons] at hn
        exact hn.1 hx
      · rintro rfl
        exact helm (by simp [hx])
    refine ⟨hfirst.trans h.1, by simp [Queues.insertAfter], Chain.congr h.2 ?_ ?_⟩
    · simp [Queues.insertAfter, hne]
    · intro x hx
      exact hother x (hr x hx).1 (hr x hx).2
  | cons a l ih =>
    simp only [List.cons_append, List.nodup_cons, List.mem_cons, not_or] at hn helm
    have hae : a ≠ e := by
      rintro rfl
      exact hn.1 (by simp)
    have haelm : a ≠ elm := fun h => helm.1 h.symm
    exact ⟨hfirst.trans h.1, ih h.2 hn.2 helm.2 (by simpa using hae) (by simpa using haelm)
      (hother a hae haelm)⟩

omit [DecidableEq H] [DecidableEq E] in
/-- A walk along a chain passes the longest initial part that `go` lets through. -/
theorem advance_chain {q : Queues H E} {f : Field H E} {es : List E} (h : q.Chain f es)
    {go : E → Option Bool} {test : E → Bool} (hgo : ∀ e ∈ es, go e = some (test e)) {fuel : Nat}
    (hfuel : es.length < fuel) (prev : Option E) :
    q.advance go fuel prev (q.ptr f) = some ((es.takeWhile test).getLast?.or prev) := by
  induction es generalizing f fuel prev with
  | nil =>
    cases fuel with
    | zero => simp at hfuel
    | succ fuel =>
      rw [show q.ptr f = none from h]
      rfl
  | cons e es ih =>
    cases fuel with
    | zero => simp at hfuel
    | succ fuel =>
      have hrest := ih h.2 (fun e' he' => hgo e' (List.mem_cons_of_mem e he'))
        (by simpa using hfuel) (some e)
      rw [h.1]
      cases ht : test e with
      | false => simp [advance, hgo e (by simp), ht]
      | true =>
        simp only [advance, hgo e (by simp), ht, Option.bind_eq_bind, Option.bind_some, if_true,
          hrest, List.takeWhile_cons]
        rw [List.getLast?_cons]
        cases (es.takeWhile test).getLast? <;> rfl

omit [DecidableEq H] [DecidableEq E] in
theorem traverse_chain {q : Queues H E} {f : Field H E} {es : List E} (h : q.Chain f es)
    {fuel : Nat} (hfuel : es.length < fuel) : q.traverse fuel (q.ptr f) = some es := by
  induction es generalizing f fuel with
  | nil =>
    cases fuel with
    | zero => simp at hfuel
    | succ fuel =>
      rw [show q.ptr f = none from h]
      rfl
  | cons e es ih =>
    cases fuel with
    | zero => simp at hfuel
    | succ fuel =>
      rw [h.1, traverse, ih h.2 (by simpa using hfuel)]
      rfl

end Queues

end Miqs.TailQueue
