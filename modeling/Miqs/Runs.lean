import Mathlib.Data.List.Basic

/-! Runs of fallible steps: a step that may fail is folded over a list of actions. -/
namespace Miqs.Runs
variable {σ τ α : Type*}

/-- Forward simulation. A step that is matched from every related pair is
matched along the whole list of actions, and never fails there. -/
theorem foldlM_rel (R : σ → τ → Prop) (f : σ → α → Option σ) (g : τ → α → τ)
    (hstep : ∀ s t a, R s t → ∃ s', f s a = some s' ∧ R s' (g t a))
    (as : List α) (s : σ) (t : τ) (h : R s t) :
    ∃ s', as.foldlM f s = some s' ∧ R s' (as.foldl g t) := by
  induction as generalizing s t with
  | nil => exact ⟨s, rfl, h⟩
  | cons a as ih =>
    obtain ⟨s₁, hs, hr⟩ := hstep s t a h
    obtain ⟨s₂, hs₂, hr₂⟩ := ih s₁ (g t a) hr
    exact ⟨s₂, by simp [List.foldlM_cons, hs, hs₂], hr₂⟩

/-- What a run of an appended list does is the second run after the first. -/
theorem foldlM_append_some (f : σ → α → Option σ) (as bs : List α) (s s₁ : σ)
    (h : as.foldlM f s = some s₁) : (as ++ bs).foldlM f s = bs.foldlM f s₁ := by
  rw [List.foldlM_append, h]
  rfl

/-- A property kept by every successful step holds after every successful run. -/
theorem foldlM_invariant (P : σ → Prop) (f : σ → α → Option σ)
    (hstep : ∀ s a s', P s → f s a = some s' → P s')
    (as : List α) (s s' : σ) (h : P s) (hr : as.foldlM f s = some s') : P s' := by
  induction as generalizing s with
  | nil =>
    cases hr
    exact h
  | cons a as ih =>
    rw [List.foldlM_cons] at hr
    obtain ⟨s₁, hs, hr⟩ := Option.bind_eq_some_iff.mp hr
    exact ih s₁ (hstep s a s₁ h hs) hr

/-- A run of a step that fails more often is a run of the other. -/
theorem foldlM_mono (f g : σ → α → Option σ) (hstep : ∀ s a s', f s a = some s' → g s a = some s')
    (as : List α) (s s' : σ) (hr : as.foldlM f s = some s') : as.foldlM g s = some s' := by
  induction as generalizing s with
  | nil => exact hr
  | cons a as ih =>
    rw [List.foldlM_cons] at hr ⊢
    obtain ⟨s₁, hs, hr⟩ := Option.bind_eq_some_iff.mp hr
    exact Option.bind_eq_some_iff.mpr ⟨s₁, hstep s a s₁ hs, ih s₁ hr⟩

/-- A run seen through `φ` is a run of `g`, as long as the step is so wherever `P`
holds. -/
theorem foldlM_map (P : σ → Prop) (φ : σ → τ) (f : σ → α → Option σ) (g : τ → α → Option τ)
    (hstep : ∀ s a, P s → (f s a).map φ = g (φ s) a) (hkeep : ∀ s a s', P s → f s a = some s' → P s')
    (as : List α) (s : σ) (h : P s) : (as.foldlM f s).map φ = as.foldlM g (φ s) := by
  induction as generalizing s with
  | nil => rfl
  | cons a as ih =>
    rw [List.foldlM_cons, List.foldlM_cons, ← hstep s a h]
    cases hs : f s a with
    | none => rfl
    | some s₁ => exact ih s₁ (hkeep s a s₁ h hs)

section Trace
variable {β : Type*}

def trace (f : σ → α → σ × β) : σ → List α → σ × List β
  | s, [] => (s, [])
  | s, a :: as => ((trace f (f s a).1 as).1, (f s a).2 :: (trace f (f s a).1 as).2)

theorem trace_fst (f : σ → α → σ × β) (s : σ) (as : List α) :
    (trace f s as).1 = as.foldl (fun s a => (f s a).1) s := by
  induction as generalizing s with
  | nil => rfl
  | cons a as ih => rw [trace, ih, List.foldl_cons]

def Along (P : τ → α → Prop) (g : τ → α → τ × β) : τ → List α → Prop
  | _, [] => True
  | t, a :: as => P t a ∧ Along P g (g t a).1 as

/-- Steps with the same results from related states have the same results along the run. -/
theorem trace_rel_along (R : σ → τ → Prop) (P : τ → α → Prop) (f : σ → α → σ × β) (g : τ → α → τ × β)
    (hstep : ∀ s t a, P t a → R s t → (f s a).2 = (g t a).2 ∧ R (f s a).1 (g t a).1)
    {as : List α} {s : σ} {t : τ} (hP : Along P g t as) (h : R s t) :
    (trace f s as).2 = (trace g t as).2 ∧ R (trace f s as).1 (trace g t as).1 := by
  induction as generalizing s t with
  | nil => exact ⟨rfl, h⟩
  | cons a as ih =>
    obtain ⟨hres, hrel⟩ := hstep s t a hP.1 h
    obtain ⟨hres', hrel'⟩ := ih hP.2 hrel
    exact ⟨by rw [trace, trace, hres, hres'], hrel'⟩

theorem trace_rel (R : σ → τ → Prop) (P : α → Prop) (f : σ → α → σ × β) (g : τ → α → τ × β)
    (hstep : ∀ s t a, P a → R s t → (f s a).2 = (g t a).2 ∧ R (f s a).1 (g t a).1)
    {as : List α} (hP : ∀ a ∈ as, P a) {s : σ} {t : τ} (h : R s t) :
    (trace f s as).2 = (trace g t as).2 ∧ R (trace f s as).1 (trace g t as).1 := by
  refine trace_rel_along R (fun _ a => P a) f g hstep ?_ h
  clear h
  induction as generalizing t with
  | nil => trivial
  | cons a as ih => exact ⟨hP a (by simp), ih fun b hb => hP b (List.mem_cons_of_mem _ hb)⟩

/-- The second run stays where `Q` holds. -/
theorem trace_rel_while (R : σ → τ → Prop) (Q : τ → Prop) (f : σ → α → σ × β) (g : τ → α → τ × β)
    (hstep : ∀ s t a, Q t → Q (g t a).1 → R s t → (f s a).2 = (g t a).2 ∧ R (f s a).1 (g t a).1)
    {as : List α} {s : σ} {t : τ} (hQ : ∀ pre, pre <+: as → Q (trace g t pre).1) (h : R s t) :
    (trace f s as).2 = (trace g t as).2 ∧ R (trace f s as).1 (trace g t as).1 := by
  refine trace_rel_along R (fun t a => Q t ∧ Q (g t a).1) f g (fun s t a hq => hstep s t a hq.1 hq.2) ?_ h
  clear h
  induction as generalizing t with
  | nil => trivial
  | cons a as ih =>
    refine ⟨⟨hQ [] List.nil_prefix, hQ [a] ⟨as, rfl⟩⟩, ih fun pre hpre => ?_⟩
    exact hQ (a :: pre) (List.prefix_cons_inj a |>.mpr hpre)

end Trace

def whileZero (f : σ → α → σ × Int) : σ → List α → σ × Int
  | s, [] => (s, 0)
  | s, a :: as => if (f s a).2 ≠ 0 then f s a else whileZero f (f s a).1 as

theorem whileZero_append (f : σ → α → σ × Int) (s : σ) (as bs : List α) :
    whileZero f s (as ++ bs) =
      if (whileZero f s as).2 ≠ 0 then whileZero f s as else whileZero f (whileZero f s as).1 bs := by
  induction as generalizing s with
  | nil => simp [whileZero]
  | cons a as ih =>
    rw [List.cons_append, whileZero, whileZero]
    by_cases ha : (f s a).2 ≠ 0
    · rw [if_pos ha, if_pos ha, if_pos ha]
    · rw [if_neg ha, if_neg ha, ih]

/-- Nested loops are one loop over the items of all lists. -/
theorem whileZero_flatMap {β : Type*} (f : σ → β → σ × Int) (g : α → List β) (s : σ) (as : List α) :
    whileZero (fun s a => whileZero f s (g a)) s as = whileZero f s (as.flatMap g) := by
  induction as generalizing s with
  | nil => rfl
  | cons a as ih => rw [List.flatMap_cons, whileZero_append, whileZero, ih]

theorem whileZero_congr {f g : σ → α → σ × Int} {as : List α} (h : ∀ a ∈ as, ∀ s, f s a = g s a) (s : σ) :
    whileZero f s as = whileZero g s as := by
  induction as generalizing s with
  | nil => rfl
  | cons a as ih =>
    rw [whileZero, whileZero, h a (by simp), ih fun b hb => h b (List.mem_cons_of_mem _ hb)]

/-- A loop that nothing stops. -/
theorem whileZero_eq_foldl {f : σ → α → σ × Int} (h : ∀ s a, (f s a).2 = 0) (s : σ) (as : List α) :
    whileZero f s as = (as.foldl (fun s a => (f s a).1) s, 0) := by
  induction as generalizing s with
  | nil => rfl
  | cons a as ih => rw [whileZero, if_neg (by simp [h]), ih, List.foldl_cons]

end Miqs.Runs
