import Mathlib.Algebra.Order.Field.Rat
import Miqs.CData
import Miqs.SearchTree

/-! Where the numeric comparators order the keys. The difference of two ints wraps around and
that of two doubles is cut to an int, so the keys have to lie close together. -/
namespace Miqs.CData
open Miqs.SearchTree

/-- The ints from `b` on, around the circle of the 32-bit ints, before its antipode. -/
def InWindow (b v : CInt) : Prop := 0 ≤ (v - b).toInt

instance (b v : CInt) : Decidable (InWindow b v) := inferInstanceAs (Decidable (_ ≤ _))

/-- Within a window the difference of two ints is that of their distances from its start. -/
theorem libhlCmpKeysInt_window {b v w : CInt} (hv : InWindow b v) (hw : InWindow b w) :
    libhlCmpKeysInt (.int v) (.int w) = (v - b).toInt - (w - b).toInt := by
  have hvw : v - w = (v - b) - (w - b) := by bv_omega
  have hdiff : ((v - b) - (w - b)).toInt = (v - b).toInt - (w - b).toInt := by
    rw [BitVec.toInt_sub]
    have hv' := BitVec.toInt_lt (x := v - b)
    have hw' := BitVec.toInt_lt (x := w - b)
    rw [InWindow] at hv hw
    apply Int.bmod_eq_of_le <;> omega
  rw [← hdiff, ← hvw]
  simp [libhlCmpKeysInt, libhlCmpKeysType, NumKey.size, NumKey.asInt]

def WindowKey (b : CInt) (k : NumKey) : Prop := ∃ v, k = .int v ∧ InWindow b v

theorem strictOn_window (b : CInt) : StrictOn libhlCmpKeysInt (WindowKey b) where
  zero_iff := by
    rintro _ _ ⟨v, rfl, -⟩ ⟨w, rfl, -⟩
    rw [libhlCmpKeysInt_int, NumKey.int.injEq]
  pos_iff := by
    rintro _ _ ⟨v, rfl, hv⟩ ⟨w, rfl, hw⟩
    rw [libhlCmpKeysInt_window hv hw, libhlCmpKeysInt_window hw hv]
    omega
  trans := by
    rintro _ _ _ ⟨u, rfl, hu⟩ ⟨v, rfl, hv⟩ ⟨w, rfl, hw⟩
    rw [libhlCmpKeysInt_window hu hv, libhlCmpKeysInt_window hv hw, libhlCmpKeysInt_window hu hw]
    omega

def IntsFit (values : List CInt) : Prop := ∃ b, ∀ v ∈ values, InWindow b v

def DoublesFit (values : List CDouble) : Prop :=
  ∀ v ∈ values, ∀ w ∈ values, CDouble.isFinite v → CDouble.isFinite w →
    |CDouble.toRat v - CDouble.toRat w| < (2^31 : Nat)

instance (values : List CDouble) : Decidable (DoublesFit values) :=
  decidable_of_iff (values.all fun v => values.all fun w =>
    !CDouble.isFinite v || !CDouble.isFinite w ||
      decide (|CDouble.toRat v - CDouble.toRat w| < (2^31 : Nat))) (by
    simp only [DoublesFit, List.all_eq_true, Bool.or_eq_true, Bool.not_eq_true', decide_eq_true_eq]
    grind)

/-- A quotient that fits is only truncated. -/
theorem castToInt_of_lt {q : ℚ} (h : |q| < (2^31 : Nat)) : castToInt q = q.num.tdiv q.den := by
  have hden : (0 : ℚ) < q.den := by exact_mod_cast q.den_pos
  have hnum : (q.num.natAbs : ℚ) < ((2^31 : Nat) : ℚ) * q.den := by
    rw [Rat.abs_def, Rat.divInt_eq_div] at h
    exact (div_lt_iff₀ (by simpa using hden)).mp h
  have hnat : q.num.natAbs < 2^31 * q.den := by exact_mod_cast hnum
  have habs : (q.num.tdiv q.den).natAbs < 2^31 := by
    rw [Int.natAbs_tdiv, Int.natAbs_natCast]
    exact Nat.div_lt_of_lt_mul (by omega)
  rw [castToInt, intMin]
  exact if_pos (by omega)

theorem castToInt_neg {q : ℚ} (h : |q| < (2^31 : Nat)) : castToInt (-q) = -castToInt q := by
  rw [castToInt_of_lt h, castToInt_of_lt (by rwa [abs_neg]), Rat.num_neg_eq_neg_num, Rat.den_neg_eq_den,
    Int.neg_tdiv]

theorem castToInt_pos_iff {q : ℚ} (h : |q| < (2^31 : Nat)) : 0 < castToInt q ↔ 1 ≤ q := by
  have hden : (0 : Int) < q.den := by exact_mod_cast q.den_pos
  have hle : 1 ≤ q ↔ (q.den : Int) ≤ q.num := by
    rw [← not_lt, ← Rat.num_lt_denom_iff, not_lt]
  rw [castToInt_of_lt h, hle]
  rcases le_or_gt 0 q.num with hnum | hnum
  · have hone := Int.le_ediv_iff_mul_le (a := 1) (b := q.num) hden
    rw [one_mul] at hone
    rw [Int.tdiv_eq_ediv_of_nonneg hnum]
    exact hone
  · have hneg : (-q.num).tdiv q.den = -q.num.tdiv q.den := Int.neg_tdiv ..
    have hpos := Int.tdiv_nonneg (show 0 ≤ -q.num by omega) hden.le
    constructor <;> intro <;> omega

theorem orderedOn_doubles {values : List CDouble} (hfin : ∀ v ∈ values, CDouble.isFinite v)
    (hfit : DoublesFit values) :
    OrderedOn libhlCmpKeysDouble fun k => ∃ v ∈ values, k = .double v := by
  have hdiff : ∀ v ∈ values, ∀ w ∈ values, libhlCmpKeysDouble (.double v) (.double w) =
      castToInt (CDouble.toRat v - CDouble.toRat w) := by
    intro v hv w hw
    rw [libhlCmpKeysDouble_double, doubleDiff, hfin v hv, hfin w hw]
    rfl
  have hneg : ∀ v ∈ values, ∀ w ∈ values, libhlCmpKeysDouble (.double v) (.double w) =
      -libhlCmpKeysDouble (.double w) (.double v) := by
    intro v hv w hw
    rw [hdiff v hv w hw, hdiff w hw v hv, ← castToInt_neg (hfit w hw v hv (hfin w hw) (hfin v hv)), neg_sub]
  have hlt : ∀ v ∈ values, ∀ w ∈ values,
      (libhlCmpKeysDouble (.double v) (.double w) < 0 ↔ 1 ≤ CDouble.toRat w - CDouble.toRat v) := by
    intro v hv w hw
    rw [hneg v hv w hw, Int.neg_neg_iff_pos, hdiff w hw v hv]
    exact castToInt_pos_iff (hfit w hw v hv (hfin w hw) (hfin v hv))
  constructor
  · rintro _ _ ⟨v, hv, rfl⟩ ⟨w, hw, rfl⟩
    rw [hneg v hv w hw]
    omega
  · rintro _ _ _ ⟨u, hu, rfl⟩ ⟨v, hv, rfl⟩ ⟨w, hw, rfl⟩
    rw [hlt u hu v hv, hlt v hv w hw, hlt u hu w hw]
    intro huv hvw
    linarith

end Miqs.CData
