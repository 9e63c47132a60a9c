import Miqs.Interleaving

/-! Calls that hold a readers-writer lock from their first access to their last. Whatever the order of
the accesses of different calls, the calls are as good as atomic. -/
namespace Miqs.CriticalSections
open Miqs.Interleaving Miqs.Threads
variable {κ C L Op Out ι : Type}

def thenRest (rest : L → C → Option (C × Out)) : C × (L ⊕ Out) → Option (C × Out)
  | (c, .inl l) => rest l c
  | (c, .inr out) => some (c, out)

/-- Calls at home in one component each, access by access. `rest` is all that a call still does from
some point on. -/
structure Sections (κ C L Op Out : Type) where
  home : Op → κ
  writes : Op → Prop
  start : L
  access : Op → L → C → Option (C × (L ⊕ Out))
  rest : Op → L → C → Option (C × Out)
  rest_eq : ∀ op l c, rest op l c = (access op l c).bind (thenRest (rest op))
  reads : ∀ {op l c r}, ¬ writes op → access op l c = some r → r.1 = c

inductive Place (L Op : Type) where
  | outside
  | inside (op : Op) (l : L)

structure State (κ C L Op Out ι : Type) where
  component : κ → C
  place : ι → Place L Op
  pending : ι → List Op
  log : List (Op × Out)

def Place.op? : Place L Op → List Op
  | .outside => []
  | .inside op _ => [op]

def State.todo (m : State κ C L Op Out ι) (i : ι) : List Op := (m.place i).op? ++ m.pending i

variable [DecidableEq κ] (S : Sections κ C L Op Out)

def Sections.perform (s : κ → C) (op : Op) : Option ((κ → C) × Out) :=
  (S.rest op S.start (s (S.home op))).map fun r => (Function.update s (S.home op) r.1, r.2)

variable [DecidableEq ι]

/-- A writer waits for all others at its component, a reader for writers. The log tells the calls in the
order in which they end. -/
inductive Step : State κ C L Op Out ι → State κ C L Op Out ι → Prop where
  | acquire {m : State κ C L Op Out ι} {i : ι} {op : Op} {ops : List Op} :
      m.place i = .outside → m.pending i = op :: ops →
      (∀ j op' l, m.place j = .inside op' l → S.home op' = S.home op → ¬ S.writes op ∧ ¬ S.writes op') →
      Step m { m with
        place := Function.update m.place i (.inside op S.start)
        pending := Function.update m.pending i ops }
  | access {m : State κ C L Op Out ι} {i : ι} {op : Op} {l l' : L} {c : C} :
      m.place i = .inside op l → S.access op l (m.component (S.home op)) = some (c, .inl l') →
      Step m { m with
        component := Function.update m.component (S.home op) c
        place := Function.update m.place i (.inside op l') }
  | release {m : State κ C L Op Out ι} {i : ι} {op : Op} {l : L} {c : C} {out : Out} :
      m.place i = .inside op l → S.access op l (m.component (S.home op)) = some (c, .inr out) →
      Step m { m with
        component := Function.update m.component (S.home op) c
        place := Function.update m.place i .outside
        log := m.log ++ [(op, out)] }

def Reached (s : κ → C) (programs : ι → List Op) (m : State κ C L Op Out ι) : Prop :=
  Relation.ReflTransGen (Step S) ⟨s, fun _ => .outside, programs, []⟩ m

/-- The components are those of `s`, the state after the calls that have ended, but for what the writers
that are inside have done; and what a call that is inside will do in all is what it would do to `s`. -/
structure Serves (m : State κ C L Op Out ι) (s : κ → C) : Prop where
  exclusive : ∀ {i j op op' l l'}, i ≠ j → m.place i = .inside op l → m.place j = .inside op' l' →
    S.home op = S.home op' → ¬ S.writes op ∧ ¬ S.writes op'
  idle : ∀ k, (∀ i op l, m.place i = .inside op l → S.home op = k → ¬ S.writes op) → m.component k = s k
  inside : ∀ {i op l}, m.place i = .inside op l →
    S.rest op l (m.component (S.home op)) = S.rest op S.start (s (S.home op))

section Places
variable {S} {m : State κ C L Op Out ι} {s : κ → C} {i : ι}

omit [DecidableEq κ] in
/-- A thread that is inside after one has moved was there before, or is that one. -/
theorem inside_update {a : Place L Op} {j : ι} {op : Op} {l : L}
    (h : Function.update m.place i a j = .inside op l) :
    j = i ∧ a = .inside op l ∨ j ≠ i ∧ m.place j = .inside op l := by
  by_cases hj : j = i
  · subst hj
    rw [Function.update_self] at h
    exact Or.inl ⟨rfl, h⟩
  · rw [Function.update_of_ne hj] at h
    exact Or.inr ⟨hj, h⟩

omit [DecidableEq κ] in
/-- A reader sees the state after the calls that have ended. -/
theorem Serves.component_eq_of_reader (h : Serves S m s) {op : Op} {l : L} (hi : m.place i = .inside op l)
    (hr : ¬ S.writes op) : m.component (S.home op) = s (S.home op) := by
  refine h.idle _ fun j op' l' hj hhome => ?_
  by_cases hij : i = j
  · subst hij
    obtain ⟨rfl, -⟩ := Place.inside.inj (hi.symm.trans hj)
    exact hr
  · exact (h.exclusive hij hi hj hhome.symm).2

omit [DecidableEq κ] in
theorem Serves.acquire (h : Serves S m s) {op : Op} {ops : List Op} (hi : m.place i = .outside)
    (hfree : ∀ j op' l, m.place j = .inside op' l → S.home op' = S.home op → ¬ S.writes op ∧ ¬ S.writes op') :
    Serves S { m with
      place := Function.update m.place i (.inside op S.start)
      pending := Function.update m.pending i ops } s where
  exclusive := by
    intro j j' op₁ op₂ l₁ l₂ hne hj hj' hhome
    rcases inside_update hj with ⟨hji, heq⟩ | ⟨-, hold⟩ <;> rcases inside_update hj' with ⟨hji', heq'⟩ | ⟨-, hold'⟩
    · exact absurd (hji.trans hji'.symm) hne
    · obtain ⟨rfl, -⟩ := Place.inside.inj heq
      exact hfree _ _ _ hold' hhome.symm
    · obtain ⟨rfl, -⟩ := Place.inside.inj heq'
      exact (hfree _ _ _ hold hhome).symm
    · exact h.exclusive hne hold hold' hhome
  idle := by
    intro k hk
    refine h.idle k fun j op' l hj hhome => hk j op' l ?_ hhome
    change Function.update m.place i _ j = _
    rw [Function.update_of_ne ?_]
    · exact hj
    · rintro rfl
      cases hi.symm.trans hj
  inside := by
    intro j op' l hj
    rcases inside_update hj with ⟨-, heq⟩ | ⟨-, hj⟩
    · obtain ⟨rfl, rfl⟩ := Place.inside.inj heq
      have hsame : m.component (S.home op) = s (S.home op) :=
        h.idle _ fun j op' l hj hhome => (hfree j op' l hj hhome).2
      change S.rest op S.start (m.component (S.home op)) = _
      rw [hsame]
    · exact h.inside hj

omit [DecidableEq ι] in
/-- An access changes its own component, if it is a writer's. -/
theorem update_component {op : Op} {l : L} {r : C × (L ⊕ Out)}
    (hacc : S.access op l (m.component (S.home op)) = some r) {k : κ} (hk : k = S.home op → ¬ S.writes op) :
    Function.update m.component (S.home op) r.1 k = m.component k := by
  by_cases heq : k = S.home op
  · subst heq
    rw [Function.update_self, S.reads (hk rfl) hacc]
  · exact Function.update_of_ne heq _ _

theorem Serves.access (h : Serves S m s) {op : Op} {l l' : L} {c : C} (hi : m.place i = .inside op l)
    (hacc : S.access op l (m.component (S.home op)) = some (c, .inl l')) :
    Serves S { m with
      component := Function.update m.component (S.home op) c
      place := Function.update m.place i (.inside op l') } s := by
  have hold : ∀ {j op' l₁}, Function.update m.place i (.inside op l') j = .inside op' l₁ →
      ∃ l₂, m.place j = .inside op' l₂ := by
    intro j op' l₁ hj
    rcases inside_update hj with ⟨rfl, heq⟩ | ⟨-, hj⟩
    · obtain ⟨rfl, -⟩ := Place.inside.inj heq
      exact ⟨l, hi⟩
    · exact ⟨l₁, hj⟩
  refine ⟨?_, ?_, ?_⟩
  · intro j j' op₁ op₂ l₁ l₂ hne hj hj' hhome
    obtain ⟨_, hj⟩ := hold hj
    obtain ⟨_, hj'⟩ := hold hj'
    exact h.exclusive hne hj hj' hhome
  · intro k hk
    have hnow : Function.update m.place i (.inside op l') i = .inside op l' := Function.update_self _ _ _
    change Function.update m.component (S.home op) c k = s k
    rw [update_component hacc fun heq => hk i op l' hnow heq.symm]
    refine h.idle k fun j op' l₁ hj hhome => ?_
    by_cases hji : j = i
    · subst hji
      obtain ⟨rfl, -⟩ := Place.inside.inj (hi.symm.trans hj)
      exact hk j op l' hnow hhome
    · refine hk j op' l₁ ?_ hhome
      change Function.update m.place i _ j = _
      rw [Function.update_of_ne hji]
      exact hj
  · intro j op' l₁ hj
    change S.rest op' l₁ (Function.update m.component (S.home op) c (S.home op')) = _
    rcases inside_update hj with ⟨-, heq⟩ | ⟨hji, hj⟩
    · obtain ⟨rfl, rfl⟩ := Place.inside.inj heq
      rw [Function.update_self, ← h.inside hi, S.rest_eq op l, hacc]
      rfl
    · rw [update_component hacc fun heq => (h.exclusive hji hj hi heq).2]
      exact h.inside hj

omit [DecidableEq ι] in
theorem Serves.perform (h : Serves S m s) {op : Op} {l : L} {c : C} {out : Out} (hi : m.place i = .inside op l)
    (hacc : S.access op l (m.component (S.home op)) = some (c, .inr out)) :
    S.perform s op = some (Function.update s (S.home op) c, out) := by
  rw [Sections.perform, ← h.inside hi, S.rest_eq, hacc]
  rfl

theorem Serves.release (h : Serves S m s) {op : Op} {l : L} {c : C} {out : Out} (hi : m.place i = .inside op l)
    (hacc : S.access op l (m.component (S.home op)) = some (c, .inr out)) (log : List (Op × Out)) :
    Serves S { m with
      component := Function.update m.component (S.home op) c
      place := Function.update m.place i .outside
      log := log } (Function.update s (S.home op) c) := by
  have hold : ∀ {j op' l₁}, Function.update m.place i .outside j = .inside op' l₁ →
      j ≠ i ∧ m.place j = .inside op' l₁ := by
    intro j op' l₁ hj
    rcases inside_update hj with ⟨-, heq⟩ | hj
    · cases heq
    · exact hj
  refine ⟨?_, ?_, ?_⟩
  · intro j j' op₁ op₂ l₁ l₂ hne hj hj' hhome
    exact h.exclusive hne (hold hj).2 (hold hj').2 hhome
  · intro k hk
    change Function.update m.component (S.home op) c k = _
    by_cases heq : k = S.home op
    · subst heq
      rw [Function.update_self, Function.update_self]
    · rw [Function.update_of_ne heq, Function.update_of_ne heq]
      refine h.idle k fun j op' l₁ hj hhome => ?_
      have hji : j ≠ i := by
        rintro rfl
        obtain ⟨rfl, -⟩ := Place.inside.inj (hi.symm.trans hj)
        exact heq hhome.symm
      refine hk j op' l₁ ?_ hhome
      change Function.update m.place i _ j = _
      rw [Function.update_of_ne hji]
      exact hj
  · intro j op' l₁ hj
    obtain ⟨hji, hj⟩ := hold hj
    change S.rest op' l₁ (Function.update m.component (S.home op) c (S.home op')) = _
    have hreader : S.home op' = S.home op → ¬ S.writes op := fun heq => (h.exclusive hji hj hi heq).2
    have hs : Function.update s (S.home op) c (S.home op') = s (S.home op') := by
      by_cases heq : S.home op' = S.home op
      · rw [heq, Function.update_self, ← h.component_eq_of_reader hi (hreader heq)]
        exact S.reads (hreader heq) hacc
      · exact Function.update_of_ne heq _ _
    rw [update_component hacc hreader, hs]
    exact h.inside hj

end Places

variable {S} {m : State κ C L Op Out ι} {s₀ : κ → C} {programs : ι → List Op} {i : ι} {op : Op} {l l' : L}

omit [DecidableEq κ] in
theorem todo_acquire {ops : List Op} (hout : m.place i = .outside) (hpending : m.pending i = op :: ops) :
    State.todo { m with
      place := Function.update m.place i (.inside op l)
      pending := Function.update m.pending i ops } = m.todo := by
  funext j
  change (Function.update m.place i _ j).op? ++ Function.update m.pending i ops j = _
  by_cases hj : j = i
  · subst hj
    rw [Function.update_self, Function.update_self, State.todo, hout, hpending]
    rfl
  · rw [Function.update_of_ne hj, Function.update_of_ne hj]
    rfl

omit [DecidableEq κ] in
theorem todo_access (hi : m.place i = .inside op l) (component : κ → C) :
    State.todo { m with component := component, place := Function.update m.place i (.inside op l') } = m.todo := by
  funext j
  change (Function.update m.place i _ j).op? ++ m.pending j = _
  by_cases hj : j = i
  · subst hj
    rw [Function.update_self, State.todo, hi]
    rfl
  · rw [Function.update_of_ne hj]
    rfl

omit [DecidableEq κ] in
theorem todo_release (component : κ → C) (log : List (Op × Out)) :
    State.todo { m with component := component, place := Function.update m.place i .outside, log := log } =
      Function.update m.todo i (m.pending i) := by
  funext j
  change (Function.update m.place i _ j).op? ++ m.pending j = _
  by_cases hj : j = i
  · subst hj
    rw [Function.update_self, Function.update_self]
    rfl
  · rw [Function.update_of_ne hj, Function.update_of_ne hj]
    rfl

/-- The calls that have ended might have been made one after another, in the order in which they ended. -/
theorem Reached.serves (h : Reached S s₀ programs m) :
    ∃ s, Machine.Reached S.perform s₀ programs ⟨s, m.todo, m.log⟩ ∧ Serves S m s := by
  induction h with
  | refl =>
    refine ⟨s₀, Relation.ReflTransGen.refl, ?_, fun _ _ => rfl, ?_⟩
    · intro _ _ _ _ _ _ _ hi
      cases hi
    · intro _ _ _ hi
      cases hi
  | @tail m _ _ hstep ih =>
    obtain ⟨s, hrun, hs⟩ := ih
    cases hstep with
    | acquire hi hpending hfree =>
      rw [todo_acquire hi hpending]
      exact ⟨s, hrun, hs.acquire hi hfree⟩
    | access hi hacc =>
      rw [todo_access hi]
      exact ⟨s, hrun, hs.access hi hacc⟩
    | @release i op _ _ _ hi hacc =>
      rw [todo_release]
      have hop : m.todo i = op :: m.pending i := by
        rw [State.todo, hi]
        rfl
      exact ⟨_, hrun.tail (.take hop (hs.perform hi hacc)), hs.release hi hacc _⟩

/-- A thread inside can go on as long as its call does not fail, and if no thread is inside a thread with
calls to make can begin. -/
theorem Reached.progress (h : Reached S s₀ programs m)
    (hcan : ∀ s, Machine.Reached S.perform s₀ programs ⟨s, m.todo, m.log⟩ →
      ∀ i, ∀ op ∈ programs i, (S.perform s op).isSome)
    (hi : ∃ i, m.todo i ≠ []) : ∃ m', Step S m m' := by
  obtain ⟨s, hrun, hs⟩ := h.serves
  by_cases hin : ∃ i op l, m.place i = .inside op l
  · obtain ⟨i, op, l, hplace⟩ := hin
    have hmem : op ∈ programs i := (hrun.pending_suffix i).subset (by simp [State.todo, hplace, Place.op?])
    have hsome := hcan s hrun i op hmem
    rw [Sections.perform, Option.isSome_map, ← hs.inside hplace, S.rest_eq] at hsome
    cases hacc : S.access op l (m.component (S.home op)) with
    | none =>
      rw [hacc] at hsome
      cases hsome
    | some r =>
      obtain ⟨c, l' | out⟩ := r
      · exact ⟨_, .access hplace hacc⟩
      · exact ⟨_, .release hplace hacc⟩
  · have hout : ∀ i, m.place i = .outside := by
      intro i
      cases hplace : m.place i with
      | outside => rfl
      | inside op l => exact absurd ⟨i, op, l, hplace⟩ hin
    obtain ⟨i, hne⟩ := hi
    rw [State.todo, hout i] at hne
    obtain ⟨op, ops, hpending⟩ := List.exists_cons_of_ne_nil hne
    exact ⟨_, .acquire (hout i) hpending fun j op' l hj _ => by cases (hout j).symm.trans hj⟩

end Miqs.CriticalSections
