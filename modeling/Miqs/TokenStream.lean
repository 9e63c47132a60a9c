import Mathlib.Data.List.Basic

/-! Sources of tokens and counted loops over them. What a source delivers is
stated once, so that a reader is verified for every source of the same tokens. -/
namespace Miqs.TokenStream
variable {S β α σ : Type}

class TokenSource (S : Type) (β : outParam Type) where
  next : S → Option β × S

instance : TokenSource (List β) β where
  next
    | [] => (none, [])
    | t :: ts => (some t, ts)

def Delivers [TokenSource S β] (s : S) : List β → S → Prop
  | [], s' => s = s'
  | t :: ts, s' => ∃ s₁, TokenSource.next s = (some t, s₁) ∧ Delivers s₁ ts s'

theorem delivers_append [TokenSource S β] {s s' : S} {ts us : List β} :
    Delivers s (ts ++ us) s' ↔ ∃ s₁, Delivers s ts s₁ ∧ Delivers s₁ us s' := by
  induction ts generalizing s with
  | nil => simp [Delivers]
  | cons t ts ih =>
    simp only [List.cons_append, Delivers, ih]
    constructor
    · rintro ⟨s₁, hn, s₂, h₁, h₂⟩
      exact ⟨s₂, ⟨s₁, hn, h₁⟩, h₂⟩
    · rintro ⟨s₂, ⟨s₁, hn, h₁⟩, h₂⟩
      exact ⟨s₁, hn, s₂, h₁, h₂⟩

def times (n : Nat) (body : σ → Option σ) (s : σ) : Option σ :=
  match n with
  | 0 => some s
  | n+1 => (body s).bind (times n body)

/-- A loop on a richer state does what the loop on its image does. -/
theorem times_map {τ : Type} {f : τ → σ} {body : σ → Option σ} {body' : τ → Option τ}
    (h : ∀ s, (body' s).map f = body (f s)) (n : Nat) (s : τ) :
    (times n body' s).map f = times n body (f s) := by
  induction n generalizing s with
  | zero => rfl
  | succ n ih =>
    rw [times, times, ← h s]
    cases body' s with
    | none => rfl
    | some t => exact ih t

/-- A counted loop reads a written region back. `st` is the state after a prefix
of the region; the body has to read one more element from there. -/
theorem times_delivers [TokenSource S β] (enc : α → List β) (st : List α → σ)
    (body : σ × S → Option (σ × S)) (xs : List α) {s s' : S}
    (h : Delivers s (xs.flatMap enc) s')
    (hbody : ∀ ys x zs, xs = ys ++ x :: zs → ∀ r r', Delivers r (enc x) r' →
      body (st ys, r) = some (st (ys ++ [x]), r')) :
    times xs.length body (st [], s) = some (st xs, s') := by
  have hrun : ∀ zs ys r, xs = ys ++ zs → Delivers r (zs.flatMap enc) s' →
      times zs.length body (st ys, r) = some (st xs, s') := by
    intro zs
    induction zs with
    | nil =>
      intro ys r hxs hr
      obtain rfl : r = s' := hr
      simp [times, hxs]
    | cons x zs ih =>
      intro ys r hxs hr
      rw [List.flatMap_cons, delivers_append] at hr
      obtain ⟨r₁, hr₁, hr₂⟩ := hr
      simp only [List.length_cons, times, hbody ys x zs hxs r r₁ hr₁, Option.bind_some]
      exact ih (ys ++ [x]) r₁ (by simp [hxs]) hr₂
  exact hrun xs [] s rfl h

end Miqs.TokenStream
