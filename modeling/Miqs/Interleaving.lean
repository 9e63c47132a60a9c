import Mathlib.Algebra.Order.Group.Multiset
import Mathlib.Data.List.Basic
import Mathlib.Logic.Relation
import Miqs.Threads

/-! Threads that take atomic steps on a shared state. If every step is confined to
one component of the state, each component sees only its own steps. -/
namespace Miqs.Interleaving
variable {S R κ C Op Out ι : Type}

/-- Each step reads and writes only the component it is at home in. `rest` is what no
step touches, and a state is its components together with the rest. -/
structure Confined (Inv : S → Prop) (component : S → κ → C) (rest : S → R) (home : Op → κ)
    (step : S → Op → Option (S × Out)) : Prop where
  keeps : ∀ {s op s' out}, Inv s → step s op = some (s', out) → Inv s'
  frame : ∀ {s op s' out}, Inv s → step s op = some (s', out) →
    rest s' = rest s ∧ ∀ k, k ≠ home op → component s' k = component s k
  determined : ∀ {s t op}, Inv s → Inv t → component s (home op) = component t (home op) →
    (step s op).map (fun r => (component r.1 (home op), r.2)) =
      (step t op).map fun r => (component r.1 (home op), r.2)
  ext : ∀ {s t}, Inv s → Inv t → rest s = rest t → (∀ k, component s k = component t k) → s = t

def Ran (step : S → Op → Option (S × Out)) (s : S) : List (Op × Out) → S → Prop
  | [], s' => s = s'
  | (op, out) :: log, s' => ∃ t, step s op = some (t, out) ∧ Ran step t log s'

theorem Ran.snoc {step : S → Op → Option (S × Out)} {s t u : S} {log : List (Op × Out)} {op : Op}
    {out : Out} (h : Ran step s log t) (hs : step t op = some (u, out)) :
    Ran step s (log ++ [(op, out)]) u := by
  induction log generalizing s with
  | nil =>
    obtain rfl : s = t := h
    exact ⟨u, hs, rfl⟩
  | cons e log ih =>
    obtain ⟨s₁, h₁, hr⟩ := h
    exact ⟨s₁, h₁, ih hr⟩

theorem Ran.split {step : S → Op → Option (S × Out)} {s u : S} {log log' : List (Op × Out)}
    (h : Ran step s (log ++ log') u) : ∃ t, Ran step s log t ∧ Ran step t log' u := by
  induction log generalizing s with
  | nil => exact ⟨s, rfl, h⟩
  | cons e log ih =>
    obtain ⟨s₁, h₁, hr⟩ := h
    obtain ⟨t, ht, hr⟩ := ih hr
    exact ⟨t, ⟨s₁, h₁, ht⟩, hr⟩

namespace Confined
variable {Inv : S → Prop} {component : S → κ → C} {rest : S → R} {home : Op → κ}
  {step : S → Op → Option (S × Out)} (hc : Confined Inv component rest home step)
include hc

theorem ran_keeps {s s' : S} {log : List (Op × Out)} (hs : Inv s) (h : Ran step s log s') :
    Inv s' := by
  induction log generalizing s with
  | nil =>
    obtain rfl : s = s' := h
    exact hs
  | cons e log ih =>
    obtain ⟨t, ht, hr⟩ := h
    exact ih (hc.keeps hs ht) hr

/-- A step that succeeds does so, with the same outcome, in every state that agrees on
its component, and the component becomes the same. -/
theorem step_of_eq {s s' t : S} {op : Op} {out : Out} (hs : Inv s) (ht : Inv t)
    (he : component s (home op) = component t (home op)) (h : step s op = some (s', out)) :
    ∃ t', step t op = some (t', out) ∧ component t' (home op) = component s' (home op) := by
  have hd := hc.determined hs ht he
  rw [h] at hd
  cases hstep : step t op with
  | none => simp [hstep] at hd
  | some r =>
    obtain ⟨t', out'⟩ := r
    simp only [hstep, Option.map_some, Option.some.injEq, Prod.mk.injEq] at hd
    obtain ⟨hcomp, rfl⟩ := hd
    exact ⟨t', rfl, hcomp.symm⟩

theorem step_eq_none {s t : S} {op : Op} (hs : Inv s) (ht : Inv t)
    (he : component s (home op) = component t (home op)) (h : step s op = none) :
    step t op = none := by
  have hd := hc.determined hs ht he
  rw [h] at hd
  exact Option.map_eq_none_iff.mp hd.symm

/-- Steps at home in different components commute, outcomes included. -/
theorem commute {s : S} (hs : Inv s) {a b : Op} (hab : home a ≠ home b) :
    ((step s a).bind fun r => (step r.1 b).map fun r' => (r'.1, r.2, r'.2)) =
      (step s b).bind fun r => (step r.1 a).map fun r' => (r'.1, r'.2, r.2) := by
  cases ha : step s a with
  | none =>
    cases hb : step s b with
    | none => rfl
    | some r =>
      have hn := hc.step_eq_none hs (hc.keeps hs hb) ((hc.frame hs hb).2 _ hab).symm ha
      simp [hn]
  | some r =>
    have hsa := hc.keeps hs ha
    have hfb := (hc.frame hs ha).2 _ hab.symm
    cases hb : step s b with
    | none =>
      have hn := hc.step_eq_none hs hsa hfb.symm hb
      simp [hn]
    | some r' =>
      have hsb := hc.keeps hs hb
      obtain ⟨t, ht, htc⟩ := hc.step_of_eq hs hsa hfb.symm hb
      obtain ⟨u, hu, huc⟩ := hc.step_of_eq hs hsb ((hc.frame hs hb).2 _ hab).symm ha
      have htu : t = u := by
        apply hc.ext (hc.keeps hsa ht) (hc.keeps hsb hu)
        · rw [(hc.frame hsa ht).1, (hc.frame hsb hu).1, (hc.frame hs ha).1, (hc.frame hs hb).1]
        · intro k
          by_cases hka : k = home a
          · subst hka
            rw [huc, (hc.frame hsa ht).2 _ hab]
          · by_cases hkb : k = home b
            · subst hkb
              rw [htc, (hc.frame hsb hu).2 _ hab.symm]
            · rw [(hc.frame hsa ht).2 k hkb, (hc.frame hsb hu).2 k hka, (hc.frame hs ha).2 k hka,
                (hc.frame hs hb).2 k hkb]
      simp [ht, hu, htu]

end Confined

section Local
variable [DecidableEq κ] {Inv : S → Prop} {component : S → κ → C} {rest : S → R} {home : Op → κ}
  {step : S → Op → Option (S × Out)}

def localLog (home : Op → κ) (k : κ) (log : List (Op × Out)) : List (Op × Out) :=
  log.filter fun e => home e.1 = k

def RanAt (Inv : S → Prop) (component : S → κ → C) (step : S → Op → Option (S × Out)) (k : κ)
    (c : C) : List (Op × Out) → C → Prop
  | [], c' => c = c'
  | (op, out) :: log, c' => ∃ s t, Inv s ∧ component s k = c ∧ step s op = some (t, out) ∧
      RanAt Inv component step k (component t k) log c'

theorem Confined.ranAt (hc : Confined Inv component rest home step) {s s' : S}
    {log : List (Op × Out)} (hs : Inv s) (h : Ran step s log s') (k : κ) :
    RanAt Inv component step k (component s k) (localLog home k log) (component s' k) := by
  induction log generalizing s with
  | nil =>
    obtain rfl : s = s' := h
    rfl
  | cons e log ih =>
    obtain ⟨t, ht, hr⟩ := h
    have hlog := ih (hc.keeps hs ht) hr
    by_cases hk : home e.1 = k
    · rw [localLog, List.filter_cons_of_pos (by simpa using hk)]
      exact ⟨s, t, hs, rfl, ht, hlog⟩
    · rw [localLog, List.filter_cons_of_neg (by simpa using hk)]
      rwa [(hc.frame hs ht).2 k (fun he => hk he.symm)] at hlog

omit [DecidableEq κ] in
/-- The operations at home in a component determine its content and their outcomes. -/
theorem Confined.ranAt_unique (hc : Confined Inv component rest home step) {k : κ} {c d e : C}
    {log log' : List (Op × Out)} (hlog : ∀ x ∈ log, home x.1 = k)
    (h : RanAt Inv component step k c log d) (h' : RanAt Inv component step k c log' e)
    (hops : log.map Prod.fst = log'.map Prod.fst) : d = e ∧ log = log' := by
  induction log generalizing c log' with
  | nil =>
    obtain rfl : log' = [] := by simpa using hops.symm
    exact ⟨Eq.trans (Eq.symm h) h', rfl⟩
  | cons x log ih =>
    cases log' with
    | nil => simp at hops
    | cons y log' =>
      simp only [List.map_cons, List.cons.injEq] at hops
      obtain ⟨hxy, hops⟩ := hops
      obtain ⟨s, t, hs, hsc, hst, hr⟩ := h
      obtain ⟨s', t', hs', hsc', hst', hr'⟩ := h'
      have hk : home x.1 = k := hlog x (by simp)
      subst hk
      rw [← hxy] at hst'
      obtain ⟨u, hu, huc⟩ := hc.step_of_eq hs hs' (hsc.trans hsc'.symm) hst
      have hut : (u, x.2) = (t', y.2) := Option.some.inj (hu.symm.trans hst')
      simp only [Prod.mk.injEq] at hut
      rw [← huc, hut.1] at hr
      obtain ⟨hde, hl⟩ := ih (fun z hz => hlog z (List.mem_cons_of_mem x hz)) hr hr' hops
      exact ⟨hde, by rw [Prod.ext hxy hut.2, hl]⟩

/-- Two runs that agree on the operations of a component, in their order, agree on its
content and on the outcomes of these operations. -/
theorem Confined.component_eq (hc : Confined Inv component rest home step) {s s₁ s₂ : S}
    {log₁ log₂ : List (Op × Out)} (hs : Inv s) (h₁ : Ran step s log₁ s₁) (h₂ : Ran step s log₂ s₂)
    {k : κ} (hops : (localLog home k log₁).map Prod.fst = (localLog home k log₂).map Prod.fst) :
    component s₁ k = component s₂ k ∧ localLog home k log₁ = localLog home k log₂ :=
  hc.ranAt_unique (fun x hx => by simpa using (List.mem_filter.mp hx).2)
    (hc.ranAt hs h₁ k) (hc.ranAt hs h₂ k) hops

end Local

structure Machine (S ι Op Out : Type) where
  state : S
  pending : ι → List Op
  log : List (Op × Out)

inductive Machine.Step [DecidableEq ι] (step : S → Op → Option (S × Out)) :
    Machine S ι Op Out → Machine S ι Op Out → Prop
  | take {m : Machine S ι Op Out} {i : ι} {op : Op} {ops : List Op} {s : S} {out : Out} :
    m.pending i = op :: ops → step m.state op = some (s, out) →
      Machine.Step step m ⟨s, Function.update m.pending i ops, m.log ++ [(op, out)]⟩

def Machine.Reached [DecidableEq ι] (step : S → Op → Option (S × Out)) (s : S)
    (programs : ι → List Op) (m : Machine S ι Op Out) : Prop :=
  Relation.ReflTransGen (Machine.Step step) ⟨s, programs, []⟩ m

theorem Machine.Reached.ran [DecidableEq ι] {step : S → Op → Option (S × Out)} {s : S}
    {programs : ι → List Op} {m : Machine S ι Op Out} (h : Machine.Reached step s programs m) :
    Ran step s m.log m.state := by
  induction h with
  | refl => rfl
  | tail _ hstep ih =>
    cases hstep with
    | take _ hs => exact ih.snoc hs

/-- Steps that another state can follow, with the same outcomes, can be followed along every run. -/
theorem Machine.Reached.simulate [DecidableEq ι] {S' : Type} {step : S → Op → Option (S × Out)}
    {step' : S' → Op → Option (S' × Out)} {s : S} {t : S'} {programs : ι → List Op} {m : Machine S ι Op Out}
    (h : Machine.Reached step s programs m) (R : S → S' → Prop)
    (hstep : ∀ s t op s' out, R s t → step s op = some (s', out) → ∃ t', step' t op = some (t', out) ∧ R s' t')
    (hst : R s t) : ∃ u, Machine.Reached step' t programs ⟨u, m.pending, m.log⟩ ∧ R m.state u := by
  induction h with
  | refl => exact ⟨t, Relation.ReflTransGen.refl, hst⟩
  | tail _ hs ih =>
    obtain ⟨u, hrun, hu⟩ := ih
    cases hs with
    | take hpending hop =>
      obtain ⟨u', hop', hu'⟩ := hstep _ _ _ _ _ hu hop
      exact ⟨u', hrun.tail (.take hpending hop'), hu'⟩

section Programs
variable [DecidableEq ι] {step : S → Op → Option (S × Out)} {s : S} {programs : ι → List Op}
  {m : Machine S ι Op Out} (h : Machine.Reached step s programs m)
include h

/-- A thread still has to do the end of its program. -/
theorem Machine.Reached.pending_suffix (i : ι) : m.pending i <:+ programs i := by
  induction h with
  | refl => exact List.suffix_refl _
  | @tail m _ _ hstep ih =>
    cases hstep with
    | @take j op ops _ _ hpending _ =>
      change Function.update m.pending j ops i <:+ _
      by_cases hij : i = j
      · subst hij
        rw [hpending] at ih
        rw [Function.update_self]
        exact (List.suffix_cons op ops).trans ih
      · rw [Function.update_of_ne hij]
        exact ih

/-- What was done and what is still to be done are the programs. -/
theorem Machine.Reached.ops_add_pending [Fintype ι] :
    ((m.log.map Prod.fst : List Op) : Multiset Op) + ∑ i, (m.pending i : Multiset Op) =
      ∑ i, (programs i : Multiset Op) := by
  induction h with
  | refl => exact zero_add _
  | @tail m _ _ hstep ih =>
    cases hstep with
    | @take j op ops _ out hpending _ =>
      have hsum := Threads.sum_update_add m.pending j ops fun l => (l : Multiset Op)
      rw [hpending, ← Multiset.cons_coe, ← Multiset.singleton_add, ← add_assoc] at hsum
      have hone := add_right_cancel hsum
      rw [← ih, ← hone, List.map_append, ← Multiset.coe_add, add_assoc, add_comm (Finset.sum _ _)]
      rfl

end Programs

end Miqs.Interleaving
