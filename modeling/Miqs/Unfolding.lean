import Mathlib.Data.List.Nodup
import Mathlib.Data.Set.Card

/-! Trees given by their places: at each place stands a list of entries, and an entry may
lead on to another place. An entry of the tree is its place's entry together with those
passed on the way from the root. -/
namespace Miqs.Unfolding
variable {α β : Type}

structure Places (α β : Type) where
  entries : β → List α
  sub : β → α → Option β

namespace Places
variable (S : Places α β)

inductive Reached : β → List α → α → Prop where
  | here {b : β} {a : α} : a ∈ S.entries b → Reached b [] a
  | behind {b b' : β} {d a : α} {ds : List α} :
    d ∈ S.entries b → S.sub b d = some b' → Reached b' ds a → Reached b (d :: ds) a

inductive Passed (root : β) : β → Prop where
  | root : Passed root root
  | sub {b b' : β} {a : α} : Passed root b → a ∈ S.entries b → S.sub b a = some b' → Passed root b'

def Within : Nat → β → Prop
  | 0, _ => False
  | n + 1, b => ∀ a ∈ S.entries b, ∀ b', S.sub b a = some b' → Within n b'

instance decidableWithin : ∀ n b, Decidable (S.Within n b)
  | 0, _ => isFalse id
  | n + 1, b =>
    have := decidableWithin n
    inferInstanceAs (Decidable (∀ a ∈ S.entries b, ∀ b' ∈ S.sub b a, S.Within n b'))

def walk : Nat → β → List (List α × α)
  | 0, _ => []
  | n + 1, b => (S.entries b).flatMap fun a => ([], a) :: match S.sub b a with
    | none => []
    | some b' => (walk n b').map fun x => (a :: x.1, x.2)

variable {S}

theorem mem_walk_succ {n : Nat} {b : β} {x : List α × α} : x ∈ S.walk (n + 1) b ↔
    ∃ a ∈ S.entries b, x = ([], a) ∨
      ∃ b', S.sub b a = some b' ∧ ∃ y ∈ S.walk n b', x = (a :: y.1, y.2) := by
  rw [walk, List.mem_flatMap]
  refine exists_congr fun a => and_congr_right fun _ => ?_
  rw [List.mem_cons]
  refine or_congr_right ?_
  cases S.sub b a with
  | none => simp
  | some b' => simp [eq_comm]

/-- A deep enough walk comes to every entry. -/
theorem mem_walk {n : Nat} {b : β} (h : S.Within n b) (ds : List α) (a : α) :
    (ds, a) ∈ S.walk n b ↔ S.Reached b ds a := by
  induction n generalizing b ds with
  | zero => exact h.elim
  | succ n ih =>
    rw [mem_walk_succ]
    constructor
    · rintro ⟨d, hd, heq | ⟨b', hb', y, hy, heq⟩⟩
      · obtain ⟨rfl, rfl⟩ := Prod.mk.inj heq
        exact .here hd
      · obtain ⟨rfl, rfl⟩ := Prod.mk.inj heq
        exact .behind hd hb' ((ih (h d hd b' hb') y.1).mp hy)
    · intro hr
      cases hr with
      | here ha => exact ⟨a, ha, Or.inl rfl⟩
      | @behind _ b' d _ ds hd hb' hr =>
        exact ⟨d, hd, Or.inr ⟨b', hb', (ds, a), (ih (h d hd b' hb') ds).mpr hr, rfl⟩⟩

def Part (S' S : Places α β) (root : β) : Prop :=
  ∀ b, S.Passed root b → ∀ a ∈ S'.entries b, a ∈ S.entries b ∧ S'.sub b a = S.sub b a

theorem Part.within {S' : Places α β} {root b : β} (h : Part S' S root) (hb : S.Passed root b)
    {n : Nat} (hn : S.Within n b) : S'.Within n b := by
  induction n generalizing b with
  | zero => exact hn
  | succ n ih =>
    intro a ha b' hb'
    obtain ⟨hent, hsub⟩ := h b hb a ha
    rw [hsub] at hb'
    exact ih (hb.sub hent hb') (hn a hent b' hb')

theorem Part.reached {S' : Places α β} {root b : β} (h : Part S' S root) (hb : S.Passed root b)
    {ds : List α} {a : α} (hr : S'.Reached b ds a) : S.Reached b ds a := by
  induction ds generalizing b with
  | nil =>
    cases hr with
    | here ha => exact .here (h b hb a ha).1
  | cons d ds ih =>
    cases hr with
    | @behind _ b' _ _ _ hd hb' hr =>
      obtain ⟨hent, hsub⟩ := h b hb d hd
      rw [hsub] at hb'
      exact .behind hent hb' (ih (hb.sub hent hb') hr)

/-- With all of the entries it is the same tree. -/
theorem Part.reached_iff {S' : Places α β} {root b : β} (h : Part S' S root)
    (hall : ∀ b, S.Passed root b → S.entries b ⊆ S'.entries b) (hb : S.Passed root b) (ds : List α)
    (a : α) : S'.Reached b ds a ↔ S.Reached b ds a := by
  refine ⟨h.reached hb, fun hr => ?_⟩
  induction ds generalizing b with
  | nil =>
    cases hr with
    | here ha => exact .here (hall b hb ha)
  | cons d ds ih =>
    cases hr with
    | @behind _ b' _ _ _ hd hb' hr =>
      have hd' := hall b hb hd
      exact .behind hd' ((h b hb d hd').2.trans hb') (ih (hb.sub hd hb') hr)

/-- Where the entries of each place are distinct, a walk comes to each entry once. -/
theorem nodup_walk (hnd : ∀ b, (S.entries b).Nodup) (n : Nat) (b : β) : (S.walk n b).Nodup := by
  induction n generalizing b with
  | zero => exact List.nodup_nil
  | succ n ih =>
    rw [walk, List.nodup_flatMap]
    constructor
    · intro a _
      rw [List.nodup_cons]
      cases S.sub b a with
      | none => simp
      | some b' =>
        constructor
        · simp
        · refine (ih b').map ?_
          intro x y hxy
          obtain ⟨h1, h2⟩ := Prod.mk.inj hxy
          exact Prod.ext (List.cons.inj h1).2 h2
    · refine (hnd b).imp ?_
      intro a a' hne x hx hx'
      -- an entry that is not the place's own begins with the one it is behind
      have hfirst : ∀ c : α, x ∈ ([], c) :: (match S.sub b c with
          | none => []
          | some b' => (S.walk n b').map fun y => (c :: y.1, y.2)) →
          x = ([], c) ∨ x.1.head? = some c := by
        intro c hc
        rcases List.mem_cons.mp hc with hc | hc
        · exact Or.inl hc
        · cases hsub : S.sub b c with
          | none => simp [hsub] at hc
          | some b' =>
            rw [hsub] at hc
            obtain ⟨y, -, rfl⟩ := List.mem_map.mp hc
            exact Or.inr rfl
      rcases hfirst a hx with rfl | h1 <;> rcases hfirst a' hx' with h2 | h2
      · exact hne (Prod.mk.inj h2).2
      · simp at h2
      · rw [h2] at h1
        simp at h1
      · exact hne (Option.some.inj (h1.symm.trans h2))

/-- The entries that lead nowhere, walked with the entries of every place in reverse, come in
reverse. -/
theorem walk_reverse {S' : Places α β} (hent : ∀ b, S'.entries b = (S.entries b).reverse)
    (hsub : S'.sub = S.sub) {p : α → Bool} (hp : ∀ b a b', S.sub b a = some b' → p a = false)
    (n : Nat) (b : β) : (S'.walk n b).filter (fun x => p x.2) =
      ((S.walk n b).filter fun x => p x.2).reverse := by
  induction n generalizing b with
  | zero => rfl
  | succ n ih =>
    rw [walk, walk, hent, hsub, List.filter_flatMap, List.filter_flatMap, List.reverse_flatMap]
    congr 1
    funext a
    simp only [Function.comp_apply]
    cases hsa : S.sub b a with
    | none => cases hpa : p a <;> simp [hpa]
    | some b' =>
      have hback := congrArg (List.map fun x : List α × α => (a :: x.1, x.2)) (ih b')
      simp only [List.filter_cons, hp b a b' hsa, Bool.false_eq_true, if_false, List.filter_map,
        Function.comp_def, ← List.map_reverse] at hback ⊢
      exact hback

/-- The number of entries with a property, in a tree of finite depth. -/
theorem ncard_reached (hnd : ∀ b, (S.entries b).Nodup) {n : Nat} {b : β} (h : S.Within n b)
    (p : α → Bool) : {x : List α × α | S.Reached b x.1 x.2 ∧ p x.2}.ncard =
      ((S.walk n b).filter fun x => p x.2).length := by
  classical
  have hset : {x : List α × α | S.Reached b x.1 x.2 ∧ p x.2} =
      ((S.walk n b).filter fun x => p x.2).toFinset := by
    ext x
    simp [← mem_walk h]
  rw [hset, Set.ncard_coe_finset, List.toFinset_card_of_nodup ((nodup_walk hnd n b).filter _)]

end Places

end Miqs.Unfolding
