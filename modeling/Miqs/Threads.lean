import Mathlib.Algebra.BigOperators.Group.Finset.Piecewise
import Mathlib.Algebra.Order.BigOperators.Group.Finset
import Mathlib.Logic.Relation

/-! Threads that are each at some place of their program. What is summed over the threads changes by
what one of them does, and waking those that sleep keeps what does not tell asleep from awake. -/
namespace Miqs.Threads
variable {S ι A M : Type*}

/-- A property of the first state that every step keeps holds in every state reached. -/
theorem invariant_of_step {step : S → S → Prop} {s t : S} (P : S → Prop) (hinit : P s)
    (hstep : ∀ a b, P a → step a b → P b) (h : Relation.ReflTransGen step s t) : P t := by
  induction h with
  | refl => exact hinit
  | tail _ hs ih => exact hstep _ _ ih hs

section Sum
variable [Fintype ι] [DecidableEq ι] [AddCommMonoid M]

theorem sum_update_add (w : ι → A) (i : ι) (a : A) (f : A → M) :
    ∑ j, f (Function.update w i a j) + f (w i) = ∑ j, f (w j) + f a := by
  have hrest : ∑ j ∈ Finset.univ.erase i, f (Function.update w i a j) = ∑ j ∈ Finset.univ.erase i, f (w j) :=
    Finset.sum_congr rfl fun j hj => by rw [Function.update_of_ne (Finset.ne_of_mem_erase hj)]
  rw [← Finset.add_sum_erase _ _ (Finset.mem_univ i), ← Finset.add_sum_erase _ (fun j => f (w j)) (Finset.mem_univ i),
    hrest, Function.update_self, add_comm (f a), add_comm (f (w i)), add_right_comm]

end Sum

theorem le_sum [Fintype ι] (w : ι → A) (i : ι) (f : A → Nat) : f (w i) ≤ ∑ j, f (w j) :=
  Finset.single_le_sum (f := fun j => f (w j)) (fun _ _ => Nat.zero_le _) (Finset.mem_univ i)

/-- Two threads count twice. -/
theorem add_le_sum [Fintype ι] [DecidableEq ι] (w : ι → A) {i j : ι} (hij : i ≠ j) (f : A → Nat) :
    f (w i) + f (w j) ≤ ∑ k, f (w k) := by
  rw [← Finset.add_sum_erase _ (fun k => f (w k)) (Finset.mem_univ i)]
  exact Nat.add_le_add_left (Finset.single_le_sum (f := fun k => f (w k)) (fun _ _ => Nat.zero_le _)
    (Finset.mem_erase.mpr ⟨hij.symm, Finset.mem_univ j⟩)) _

/-- What has an owner each is divided among the threads. -/
theorem sum_shares {B : Type*} [Fintype ι] [DecidableEq ι] (owner : A → ι) (f : A → B) (l : List A) :
    ∑ i, (((l.filter fun x => owner x = i).map f : List B) : Multiset B) = (l.map f : List B) := by
  induction l with
  | nil => exact Finset.sum_const_zero
  | cons x l ih =>
    have hone : ∀ i, ((((x :: l).filter fun x => owner x = i).map f : List B) : Multiset B) =
        (if owner x = i then {f x} else 0) + ((l.filter fun x => owner x = i).map f : List B) := by
      intro i
      by_cases hi : owner x = i <;> simp [hi, Multiset.singleton_add]
    rw [Finset.sum_congr rfl fun i _ => hone i, Finset.sum_add_distrib, ih, Finset.sum_ite_eq,
      if_pos (Finset.mem_univ _)]
    rfl

theorem update_false (a b c : A) :
    Function.update (fun i => bif i then b else a) false c = fun i => bif i then b else c := by
  funext i
  cases i <;> rfl

theorem update_true (a b c : A) :
    Function.update (fun i => bif i then b else a) true c = fun i => bif i then c else a := by
  funext i
  cases i <;> rfl

section Exists
variable [DecidableEq ι] {P : A → Prop} {w : ι → A} {i : ι} {a : A}

theorem exists_update (h : ∃ j, P (w j)) (hi : P (w i) → P a) : ∃ j, P (Function.update w i a j) := by
  obtain ⟨j, hj⟩ := h
  by_cases hji : j = i
  · subst hji
    exact ⟨j, by rw [Function.update_self]; exact hi hj⟩
  · exact ⟨j, by rw [Function.update_of_ne hji]; exact hj⟩

theorem exists_of_update (h : ∃ j, P (Function.update w i a j)) (ha : ¬ P a) : ∃ j, P (w j) := by
  obtain ⟨j, hj⟩ := h
  by_cases hji : j = i
  · subst hji
    rw [Function.update_self] at hj
    exact absurd hj ha
  · rw [Function.update_of_ne hji] at hj
    exact ⟨j, hj⟩

end Exists

structure Guards (locked : Bool) (holds : ι → Prop) : Prop where
  locked : ∀ i, holds i → locked = true
  alone : ∀ i j, holds i → holds j → i = j

namespace Guards
variable {locked : Bool} {holds holds' : ι → Prop}

theorem mono (h : Guards locked holds) (hholds : ∀ i, holds' i → holds i) : Guards locked holds' :=
  ⟨fun i hi => h.locked i (hholds i hi), fun i j hi hj => h.alone i j (hholds i hi) (hholds j hj)⟩

variable [DecidableEq ι] {i : ι} {P : Prop}

theorem not_holding (h : Guards locked holds) (hP : ¬ P) : Guards locked (Function.update holds i P) := by
  refine h.mono fun j hj => ?_
  by_cases hji : j = i
  · rw [hji, Function.update_self] at hj
    exact absurd hj hP
  · rwa [Function.update_of_ne hji] at hj

theorem holding (h : Guards locked holds) (hi : holds i) : Guards locked (Function.update holds i P) := by
  refine h.mono fun j hj => ?_
  by_cases hji : j = i
  · rwa [hji]
  · rwa [Function.update_of_ne hji] at hj

theorem acquire (h : Guards false holds) : Guards true (Function.update holds i P) := by
  have hone (j : ι) (hj : Function.update holds i P j) : j = i := by
    by_contra hji
    rw [Function.update_of_ne hji] at hj
    exact absurd (h.locked j hj) nofun
  exact ⟨fun _ _ => rfl, fun j k hj hk => (hone j hj).trans (hone k hk).symm⟩

theorem release (h : Guards locked holds) (hi : holds i) (hP : ¬ P) : Guards false (Function.update holds i P) := by
  have hnone (j : ι) (hj : Function.update holds i P j) : False := by
    by_cases hji : j = i
    · rw [hji, Function.update_self] at hj
      exact hP hj
    · rw [Function.update_of_ne hji] at hj
      exact hji (h.alone j i hj hi)
  exact ⟨fun j hj => (hnone j hj).elim, fun j _ hj => (hnone j hj).elim⟩

end Guards

structure Wakes (sleeps : A → Prop) (wake : A → A) (w w' : ι → A) : Prop where
  each : ∀ i, w' i = w i ∨ sleeps (w i) ∧ w' i = wake (w i)
  some : (∃ i, sleeps (w i)) → ∃ i, sleeps (w i) ∧ w' i = wake (w i)

namespace Wakes
variable {sleeps : A → Prop} {wake : A → A} {w w' : ι → A} (h : Wakes sleeps wake w w')
include h

theorem sum_eq [Fintype ι] [AddCommMonoid M] {f : A → M} (hf : ∀ a, sleeps a → f (wake a) = f a) :
    ∑ i, f (w' i) = ∑ i, f (w i) := by
  refine Finset.sum_congr rfl fun i _ => ?_
  rcases h.each i with heq | ⟨hsleeps, heq⟩
  · rw [heq]
  · rw [heq, hf _ hsleeps]

/-- A thread that does not sleep stays where it is. -/
theorem eq_of_not {i : ι} (hi : ¬ sleeps (w i)) : w' i = w i :=
  (h.each i).resolve_right fun hsleeps => hi hsleeps.1

theorem exists_awake {P : A → Prop} (hP : ∀ a, sleeps a → ¬ P a) (hw : ∃ i, P (w i)) : ∃ i, P (w' i) := by
  obtain ⟨i, hi⟩ := hw
  exact ⟨i, by rw [h.eq_of_not fun hsleeps => hP _ hsleeps hi]; exact hi⟩

end Wakes

end Miqs.Threads
