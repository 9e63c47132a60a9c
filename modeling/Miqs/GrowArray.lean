import Mathlib.Data.List.Basic
import Mathlib.Tactic.Ring

/-! Arrays that double when they are full. The slots that a doubling adds hold whatever the
memory held before; a doubling may be refused, or be too large for its index type. -/
namespace Miqs.GrowArray
variable {σ : Type}

structure Block (σ : Type) where
  slots : List σ
  count : Nat
  deriving DecidableEq

structure Memory (σ : Type) where
  grants : Nat → Bool
  fresh : Nat → σ

inductive Outcome (σ : Type) where
  | overflow
  | refused (b : Block σ)
  | stored (b : Block σ)

def Block.put (b : Block σ) (x : σ) : Block σ := ⟨b.slots.set b.count x, b.count + 1⟩

def Block.double (mem : Memory σ) (b : Block σ) : Block σ :=
  { b with slots := b.slots ++ (List.range' b.slots.length b.slots.length).map mem.fresh }

section Push
variable (limit : Nat) (mem : Memory σ)

def push (b : Block σ) (x : σ) : Outcome σ :=
  if b.count = b.slots.length then
    if limit ≤ b.slots.length * 2 then .overflow
    else if mem.grants (b.slots.length * 2) then .stored ((b.double mem).put x)
    else .refused b
  else .stored (b.put x)

def pushAll : List σ → Block σ → Outcome σ
  | [], b => .stored b
  | x :: xs, b =>
    match push limit mem b x with
    | .stored b => pushAll xs b
    | outcome => outcome

end Push

def Allowed (limit : Nat) (grants : Nat → Bool) (n : Nat) : Prop := n < limit ∧ grants n = true

/-- The block holds `xs` after `k` doublings from the capacity `c`, with the slots that are
left as `init` or the memory filled them. -/
structure Holds (mem : Memory σ) (init : σ) (c k : Nat) (xs : List σ) (b : Block σ) : Prop where
  count : b.count = xs.length
  fits : xs.length ≤ c * 2^k
  needed : k = 0 ∨ c * 2^(k - 1) < xs.length
  slots : b.slots = xs ++
    (List.range' xs.length (c * 2^k - xs.length)).map (if k = 0 then fun _ => init else mem.fresh)

section Runs
variable (limit : Nat) {mem : Memory σ} {init : σ} {c k : Nat} {xs : List σ} {b : Block σ}

theorem Holds.capacity (h : Holds mem init c k xs b) : b.slots.length = c * 2^k := by
  have hfits := h.fits
  rw [h.slots, List.length_append, List.length_map, List.length_range']
  omega

theorem holds_nil (mem : Memory σ) (init : σ) (c : Nat) :
    Holds mem init c 0 [] ⟨List.replicate c init, 0⟩ where
  count := rfl
  fits := Nat.zero_le _
  needed := .inl rfl
  slots := by simp

/-- The next slot is taken, the others stay. -/
theorem Holds.put (h : Holds mem init c k xs b) (hroom : xs.length < c * 2^k) (x : σ) :
    Holds mem init c k (xs ++ [x]) (b.put x) where
  count := by rw [Block.put, h.count, List.length_append, List.length_singleton]
  fits := by rw [List.length_append, List.length_singleton]; omega
  needed := h.needed.imp_right fun hk => by rw [List.length_append]; omega
  slots := by
    have hleft : c * 2^k - xs.length = c * 2^k - (xs.length + 1) + 1 := by omega
    rw [Block.put, h.slots, h.count, hleft, List.range'_succ, List.map_cons,
      List.set_append_right _ _ (Nat.le_refl _), Nat.sub_self, List.set_cons_zero, List.append_assoc,
      List.singleton_append, List.length_append, List.length_singleton]

theorem Holds.double (hc : 0 < c) (h : Holds mem init c k xs b) (hfull : xs.length = c * 2^k) (x : σ) :
    Holds mem init c (k + 1) (xs ++ [x]) ((b.double mem).put x) := by
  have hpos : 0 < c * 2^k := Nat.mul_pos hc (Nat.two_pow_pos k)
  have hpow : c * 2^(k + 1) = c * 2^k + c * 2^k := by ring
  have hslots : b.slots = xs := by
    rw [h.slots, hfull, Nat.sub_self]
    simp
  constructor
  · rw [Block.put, Block.double, h.count, List.length_append, List.length_singleton]
  · rw [List.length_append, List.length_singleton, hpow]
    omega
  · refine .inr ?_
    rw [Nat.add_sub_cancel, List.length_append, List.length_singleton]
    omega
  · have hleft : c * 2^(k + 1) - (xs.length + 1) = c * 2^k - 1 := by omega
    have hcap : xs.length = xs.length - 1 + 1 := by omega
    rw [Block.put, Block.double, hslots, h.count, List.length_append, List.length_singleton, hleft,
      ← hfull, if_neg (Nat.succ_ne_zero k), List.set_append_right _ _ (Nat.le_refl _), Nat.sub_self]
    nth_rewrite 2 [hcap]
    rw [List.range'_succ, List.map_cons, List.set_cons_zero, List.append_assoc, List.singleton_append]

/-- One more element is stored, or the capacity is reached and the next one is not allowed. -/
theorem Holds.push (hc : 0 < c) (h : Holds mem init c k xs b) (x : σ) :
    (∃ k' b', push limit mem b x = .stored b' ∧ Holds mem init c k' (xs ++ [x]) b' ∧ k ≤ k' ∧
      ∀ j, k < j → j ≤ k' → Allowed limit mem.grants (c * 2^j)) ∨
    (xs.length = c * 2^k ∧ ¬ Allowed limit mem.grants (c * 2^(k + 1)) ∧
      ∀ b', GrowArray.push limit mem b x ≠ .stored b') := by
  have hpow : b.slots.length * 2 = c * 2^(k + 1) := by
    rw [h.capacity]
    ring
  unfold GrowArray.push
  rw [hpow, h.capacity, h.count]
  split_ifs with hfull hlimit hgrant
  · exact .inr ⟨hfull, fun ha => absurd ha.1 (by omega), fun b' => by simp⟩
  · refine .inl ⟨k + 1, _, rfl, h.double hc hfull x, Nat.le_succ k, ?_⟩
    intro j hj hj'
    obtain rfl : j = k + 1 := by omega
    exact ⟨by omega, hgrant⟩
  · exact .inr ⟨hfull, fun ha => hgrant ha.2, fun b' => by simp⟩
  · have hfits := h.fits
    exact .inl ⟨k, _, rfl, h.put (by omega) x, Nat.le_refl k, fun j hj hj' => by omega⟩

/-- All elements are stored, or some capacity was reached whose double is not allowed. -/
theorem Holds.pushAll (hc : 0 < c) (h : Holds mem init c k xs b) (ys : List σ) :
    (∃ k' b', pushAll limit mem ys b = .stored b' ∧ Holds mem init c k' (xs ++ ys) b' ∧ k ≤ k' ∧
      ∀ j, k < j → j ≤ k' → Allowed limit mem.grants (c * 2^j)) ∨
    (∃ j, c * 2^j < (xs ++ ys).length ∧ ¬ Allowed limit mem.grants (c * 2^(j + 1)) ∧
      ∀ b', GrowArray.pushAll limit mem ys b ≠ .stored b') := by
  induction ys generalizing k xs b with
  | nil => exact .inl ⟨k, b, rfl, by simpa using h, Nat.le_refl k, fun j hj hj' => by omega⟩
  | cons y ys ih =>
    rw [GrowArray.pushAll]
    rcases h.push limit hc y with ⟨k₁, b₁, hb₁, h₁, hk₁, hall₁⟩ | ⟨hfull, hnot, hstop⟩
    · rw [hb₁]
      rcases ih h₁ with ⟨k₂, b₂, hb₂, h₂, hk₂, hall₂⟩ | ⟨j, hj, hnot, hstop⟩
      · refine .inl ⟨k₂, b₂, hb₂, by simpa using h₂, by omega, ?_⟩
        intro j hj hj'
        by_cases hle : j ≤ k₁
        · exact hall₁ j hj hle
        · exact hall₂ j (by omega) hj'
      · exact .inr ⟨j, by simpa using hj, hnot, hstop⟩
    · refine .inr ⟨k, by simp [hfull], hnot, ?_⟩
      intro b'
      split
      · rename_i b₁ hb₁
        exact absurd hb₁ (hstop b₁)
      · rename_i hne
        exact hne b'

def Settled (limit : Nat) (grants : Nat → Bool) (c n : Nat) : Prop :=
  n ≤ c ∨ ∃ k, n = c * 2^k ∧ ∀ j, 0 < j → j ≤ k → Allowed limit grants (c * 2^j)

theorem le_mul_two_pow (c k : Nat) : c ≤ c * 2^k := Nat.le_mul_of_pos_right c (Nat.two_pow_pos k)

theorem pow_le_of_mul_lt {i j : Nat} (h : c * 2^i < c * 2^j) : i < j :=
  (Nat.pow_lt_pow_iff_right (by omega)).mp (Nat.lt_of_mul_lt_mul_left h)

/-- Then every slot holds an element or is one of the first block. -/
theorem pushAll_of_settled (mem : Memory σ) (init : σ) (hc : 0 < c) (ys : List σ)
    (h : Settled limit mem.grants c ys.length) :
    pushAll limit mem ys ⟨List.replicate c init, 0⟩ =
      .stored ⟨ys ++ List.replicate (c - ys.length) init, ys.length⟩ := by
  rcases (holds_nil mem init c).pushAll limit hc ys with ⟨k, b, hb, hh, -, -⟩ | ⟨j, hj, hnot, -⟩
  · have hfits := hh.fits
    have hslots := hh.slots
    rw [List.nil_append] at hfits hslots
    have hbs : b.slots = ys ++ List.replicate (c - ys.length) init := by
      cases k with
      | zero => simpa using hslots
      | succ k =>
        have hneeded : c * 2^k < ys.length := by simpa using hh.needed
        have hle := le_mul_two_pow c k
        rcases h with h | ⟨m, hm, -⟩
        · omega
        · have hkm : k < m := pow_le_of_mul_lt (hm ▸ hneeded)
          have hfull : c * 2^(k + 1) ≤ c * 2^m :=
            Nat.mul_le_mul_left c (Nat.pow_le_pow_right (by omega) hkm)
          rw [hslots, Nat.sub_eq_zero_of_le (by omega), Nat.sub_eq_zero_of_le (by omega)]
          simp
    rw [hb, ← hbs, ← show b.count = ys.length by simpa using hh.count]
  · have hle := le_mul_two_pow c j
    rw [List.nil_append] at hj
    rcases h with h | ⟨m, hm, hall⟩
    · omega
    · exact absurd (hall (j + 1) (Nat.succ_pos j) (pow_le_of_mul_lt (hm ▸ hj))) hnot

/-- Otherwise the run stops early, or it leaves slots that nothing has set. -/
theorem pushAll_of_not_settled (mem : Memory σ) (init : σ) (hc : 0 < c) (ys : List σ)
    (h : ¬ Settled limit mem.grants c ys.length) :
    (c < ys.length ∧ ∀ b, pushAll limit mem ys ⟨List.replicate c init, 0⟩ ≠ .stored b) ∨
    ∃ spare, 0 < spare ∧ pushAll limit mem ys ⟨List.replicate c init, 0⟩ =
      .stored ⟨ys ++ (List.range' ys.length spare).map mem.fresh, ys.length⟩ := by
  rcases (holds_nil mem init c).pushAll limit hc ys with ⟨k, b, hb, hh, -, hall⟩ | ⟨j, hj, -, hstop⟩
  · have hfits := hh.fits
    have hslots := hh.slots
    rw [List.nil_append] at hfits hslots
    have hk : k ≠ 0 := by
      intro hk
      exact h (.inl (by simpa [hk] using hfits))
    have hspare : ys.length ≠ c * 2^k := fun hn => h (.inr ⟨k, hn, hall⟩)
    refine .inr ⟨c * 2^k - ys.length, by omega, ?_⟩
    rw [if_neg hk] at hslots
    rw [hb, ← hslots, ← show b.count = ys.length by simpa using hh.count]
  · have hle := le_mul_two_pow c j
    rw [List.nil_append] at hj
    exact .inl ⟨by omega, hstop⟩

end Runs

end Miqs.GrowArray
