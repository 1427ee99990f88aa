import Mathlib

/-!
# How far a rounded result lies off

Doubles are rounded by dropping bits of a mantissa until it has 53 and adding one where the bits
that were dropped are worth more than half of the last one kept. So the result lies at most half of
that last bit above the exact value (`exists_roundWithAccuracy`), and rounding raises the position
of the leading bit by one at most (`below_roundWithAccuracy`). A result is packed without loss if
its exponent is small enough (`unpack_pack`).
-/

namespace Postlink.Rounding

open Float.Model (Format UnpackedFloat totalExponent)
open Float.Model.UnpackedFloat

/-- How many bits a mantissa has to lose. -/
def excess (m : Nat) (e : Int) : Nat :=
  (Format.binary64.targetExponent (totalExponent m e) - e).toNat

theorem excess_eq (m : Nat) (e : Int) :
    excess m e = (max ((m.log2 : Int) + 1 + e - 53) (-1074) - e).toNat := rfl

/-- Shifting to the exponent of a double drops the excess of the mantissa. -/
theorem shiftToTargetExponent_eq (m : Nat) (e : Int) (accuracy : Accuracy) :
    shiftToTargetExponent Format.binary64 m e accuracy =
      (ExtendedMantissa.ofMantissaAndAccuracy m accuracy >>> excess m e, e + excess m e) := rfl

/-- A mantissa that lost its excess, rounded. -/
def rounded (m : Nat) (e : Int) (accuracy : Accuracy) : Nat :=
  (ExtendedMantissa.ofMantissaAndAccuracy m accuracy >>> excess m e).roundedMantissa

/-- The accuracy of a mantissa does not change its value. -/
theorem mantissa_ofMantissaAndAccuracy (m : Nat) (accuracy : Accuracy) :
    (ExtendedMantissa.ofMantissaAndAccuracy m accuracy).mantissa = m := by
  cases accuracy with
  | exact => rfl
  | inexact side => cases side <;> rfl

theorem shiftRight_succ (x : ExtendedMantissa) (k : Nat) :
    x >>> (k + 1) = (x >>> k).shiftRightOne :=
  rfl

/-- Dropping bits divides. -/
theorem mantissa_shiftRight (x : ExtendedMantissa) (k : Nat) :
    (x >>> k).mantissa = x.mantissa / 2 ^ k := by
  induction k with
  | zero => rw [pow_zero, Nat.div_one]; rfl
  | succ k ih => rw [shiftRight_succ, ExtendedMantissa.shiftRightOne, ih,
      Nat.div_div_eq_div_mul, pow_succ]

/-- Twice the mantissa and the bit dropped last are worth no more than before. -/
theorem halves_shiftRight (x : ExtendedMantissa) (k : Nat) :
    (2 * (x >>> k).mantissa + (x >>> k).roundBit.toNat) * 2 ^ k ≤
      2 * x.mantissa + x.roundBit.toNat := by
  induction k with
  | zero => rw [pow_zero, Nat.mul_one]; exact Nat.le_refl _
  | succ k ih =>
      rw [shiftRight_succ]
      generalize x >>> k = y at ih ⊢
      have hhalf : 2 * (y.mantissa / 2) + (y.mantissa % 2 != 0).toNat = y.mantissa := by
        rcases Nat.mod_two_eq_zero_or_one y.mantissa with h | h <;> simp [h] <;> omega
      calc (2 * (y.mantissa / 2) + (y.mantissa % 2 != 0).toNat) * 2 ^ (k + 1)
          = 2 * y.mantissa * 2 ^ k := by rw [hhalf, pow_succ]; ring
        _ ≤ (2 * y.mantissa + y.roundBit.toNat) * 2 ^ k :=
            Nat.mul_le_mul_right _ (Nat.le_add_right _ _)
        _ ≤ 2 * x.mantissa + x.roundBit.toNat := ih

/-- Rounding adds one at most, and only if the bit dropped last was set. -/
theorem roundedMantissa_bounds (x : ExtendedMantissa) :
    x.mantissa ≤ x.roundedMantissa ∧ x.roundedMantissa ≤ x.mantissa + x.roundBit.toNat := by
  obtain ⟨m, round, sticky⟩ := x
  cases round <;> cases sticky <;>
    simp [ExtendedMantissa.roundedMantissa, ExtendedMantissa.accuracy, Accuracy.roundToNearestEven]
  omega

section Rounded

variable (m : Nat) (e : Int) (accuracy : Accuracy)

/-- Rounding keeps the mantissa without its excess or raises it by one. -/
theorem rounded_bounds : m / 2 ^ excess m e ≤ rounded m e accuracy ∧
    rounded m e accuracy ≤ m / 2 ^ excess m e + 1 := by
  obtain ⟨hlower, hupper⟩ := roundedMantissa_bounds
    (ExtendedMantissa.ofMantissaAndAccuracy m accuracy >>> excess m e)
  rw [mantissa_shiftRight, mantissa_ofMantissaAndAccuracy] at hlower hupper
  exact ⟨hlower, hupper.trans (Nat.add_le_add_left (Bool.toNat_le _) _)⟩

/-- Half of the last bit kept is the most that is added to an exact mantissa. -/
theorem rounded_exact_le : 2 * rounded m e .exact * 2 ^ excess m e ≤ 2 * m + 2 ^ excess m e := by
  have hhalves := halves_shiftRight (.ofMantissaAndAccuracy m .exact) (excess m e)
  rw [rounded]
  generalize ExtendedMantissa.ofMantissaAndAccuracy m .exact >>> excess m e = x at hhalves ⊢
  have hupper := (roundedMantissa_bounds x).2
  have hbit := Bool.toNat_le x.roundBit
  calc 2 * x.roundedMantissa * 2 ^ excess m e
      ≤ (2 * x.mantissa + x.roundBit.toNat + 1) * 2 ^ excess m e :=
        Nat.mul_le_mul_right _ (by omega)
    _ = (2 * x.mantissa + x.roundBit.toNat) * 2 ^ excess m e + 2 ^ excess m e := by ring
    _ ≤ 2 * m + 2 ^ excess m e := Nat.add_le_add_right hhalves _

/-- Without the excess, the exponent is no lower than the least one. -/
theorem neg_le_add_excess : -1074 ≤ e + excess m e := by
  rw [excess_eq]
  omega

/-- What is kept has 53 bits at most. -/
theorem div_excess_lt : m / 2 ^ excess m e < 2 ^ 53 := by
  have hlog : m.log2 + 1 ≤ 53 + excess m e := by
    rw [excess_eq]
    omega
  rw [Nat.div_lt_iff_lt_mul (by positivity), ← pow_add]
  exact Nat.lt_log2_self.trans_le (Nat.pow_le_pow_right (by decide) hlog)

/-- A rounded mantissa has 53 bits at most, or is the least one with 54. -/
theorem rounded_le : rounded m e accuracy ≤ 2 ^ 53 :=
  (rounded_bounds m e accuracy).2.trans (div_excess_lt m e)

end Rounded

/-- What has 53 bits loses none. -/
theorem excess_of_lt {m : Nat} (hm : m < 2 ^ 53) {e : Int} (he : -1074 ≤ e) : excess m e = 0 := by
  have hlog : m.log2 ≤ 52 := by
    by_cases hzero : m = 0
    · simp [hzero]
    · exact Nat.le_of_lt_succ ((Nat.log2_lt hzero).2 hm)
  rw [excess_eq]
  omega

/-- The least mantissa with 54 bits loses one of them. -/
theorem excess_two_pow {e : Int} (he : -1074 ≤ e) : excess (2 ^ 53) e = 1 := by
  rw [excess_eq, Nat.log2_two_pow]
  omega

/-- The result of rounding: the mantissa that is kept, one bit less if it was rounded up to the next
power of two. -/
theorem roundWithAccuracy_eq (s : Sign) (m : Nat) (e : Int) (accuracy : Accuracy) :
    roundWithAccuracy Format.binary64 s m e accuracy =
      if h : rounded m e accuracy = 0 then .zero s
      else if rounded m e accuracy < 2 ^ 53 then
        .finite s (rounded m e accuracy) (e + excess m e) (Nat.pos_of_ne_zero h)
      else .finite s (2 ^ 52) (e + excess m e + 1) (by decide) := by
  have hmin := neg_le_add_excess m e
  -- A second shift takes away the bit that rounding up can add.
  have hround : roundWithAccuracy Format.binary64 s m e accuracy =
      if h : (shiftToTargetExponent Format.binary64 (rounded m e accuracy) (e + excess m e)
        .exact).1.mantissa = 0 then .zero s
      else .finite s _ (shiftToTargetExponent Format.binary64 (rounded m e accuracy)
        (e + excess m e) .exact).2 (Nat.pos_of_ne_zero h) := rfl
  rw [hround]
  by_cases hsmall : rounded m e accuracy < 2 ^ 53
  · simp only [shiftToTargetExponent_eq, mantissa_shiftRight, mantissa_ofMantissaAndAccuracy,
      excess_of_lt hsmall hmin, pow_zero, Nat.div_one, Nat.cast_zero, add_zero, if_pos hsmall]
  · have hfull : rounded m e accuracy = 2 ^ 53 :=
      (rounded_le m e accuracy).antisymm (Nat.not_lt.1 hsmall)
    simp only [shiftToTargetExponent_eq, mantissa_shiftRight, mantissa_ofMantissaAndAccuracy, hfull,
      excess_two_pow hmin]
    rfl

/-- A mantissa with all 53 bits. -/
def Full (m : Nat) : Prop := 2 ^ 52 ≤ m ∧ m < 2 ^ 53

/-- A full mantissa has its leading bit in position 52. -/
theorem Full.log2_eq {m : Nat} (h : Full m) : m.log2 = 52 :=
  (Nat.log2_eq_iff (by have := h.1; omega)).2 h

/-- The exact value is exceeded by half of the last bit kept at most. -/
theorem value_rounded_le (m : Nat) (e : Int) :
    (rounded m e .exact : ℚ) * 2 ^ (e + excess m e) ≤ m * 2 ^ e + 2 ^ (e + excess m e - 1) := by
  have hle : 2 * (rounded m e .exact : ℚ) * 2 ^ excess m e ≤ 2 * m + 2 ^ excess m e := by
    exact_mod_cast rounded_exact_le m e
  have hscale : (0 : ℚ) ≤ 2 ^ e / 2 := by positivity
  have hsum : (2 : ℚ) ^ (e + excess m e) = 2 ^ e * 2 ^ excess m e := by
    rw [zpow_add₀ two_ne_zero, zpow_natCast]
  rw [zpow_sub_one₀ two_ne_zero, hsum]
  calc (rounded m e .exact : ℚ) * (2 ^ e * 2 ^ excess m e)
      = 2 * rounded m e .exact * 2 ^ excess m e * (2 ^ e / 2) := by ring
    _ ≤ (2 * m + 2 ^ excess m e) * (2 ^ e / 2) := mul_le_mul_of_nonneg_right hle hscale
    _ = m * 2 ^ e + 2 ^ e * 2 ^ excess m e * 2⁻¹ := by ring

/-- A mantissa of enough bits is rounded to a full one, at most half of the last bit above it. -/
theorem exists_roundWithAccuracy (s : Sign) {m : Nat} (hm : 2 ^ 52 ≤ m) {e : Int}
    (he : -1021 ≤ totalExponent m e) :
    ∃ m' e' h, roundWithAccuracy Format.binary64 s m e .exact = .finite s m' e' h ∧ Full m' ∧
      totalExponent m e - 53 ≤ e' ∧ e' ≤ totalExponent m e - 52 ∧
      (m' : ℚ) * 2 ^ e' ≤ m * 2 ^ e + 2 ^ (totalExponent m e - 54) := by
  have hlog : 52 ≤ m.log2 := (Nat.le_log2 (by omega)).2 hm
  rw [totalExponent] at he ⊢
  have hexcess : (excess m e : Int) = m.log2 - 52 := by
    rw [excess_eq]
    omega
  have hkept : 2 ^ 52 ≤ m / 2 ^ excess m e := by
    rw [Nat.le_div_iff_mul_le (by positivity), ← pow_add, show 52 + excess m e = m.log2 by omega]
    exact Nat.log2_self_le (by omega)
  have hfull := hkept.trans (rounded_bounds m e .exact).1
  have hvalue := value_rounded_le m e
  rw [show e + (excess m e : Int) = m.log2 + 1 + e - 53 by omega] at hvalue
  rw [roundWithAccuracy_eq, dif_neg (by omega),
    show e + (excess m e : Int) = m.log2 + 1 + e - 53 by omega]
  by_cases hsmall : rounded m e .exact < 2 ^ 53
  · rw [if_pos hsmall]
    refine ⟨_, _, _, rfl, ⟨hfull, hsmall⟩, le_refl _, by omega, ?_⟩
    rwa [show (m.log2 : Int) + 1 + e - 54 = m.log2 + 1 + e - 53 - 1 by omega]
  · rw [if_neg hsmall]
    refine ⟨_, _, _, rfl, ⟨le_refl _, by decide⟩, by omega, by omega, ?_⟩
    have heq : rounded m e .exact = 2 ^ 53 := (rounded_le m e .exact).antisymm (Nat.not_lt.1 hsmall)
    rw [heq] at hvalue
    rw [show (m.log2 : Int) + 1 + e - 54 = m.log2 + 1 + e - 53 - 1 by omega]
    refine le_trans (le_of_eq ?_) hvalue
    rw [zpow_add_one₀ two_ne_zero]
    push_cast
    ring

/-- The leading bit lies where the value says. -/
theorem two_zpow_le_value {m : Nat} (hm : m ≠ 0) (e : Int) :
    (2 : ℚ) ^ (totalExponent m e - 1) ≤ m * 2 ^ e := by
  have hlog : (2 : ℚ) ^ m.log2 ≤ m := by exact_mod_cast Nat.log2_self_le hm
  rw [totalExponent, show (m.log2 : Int) + 1 + e - 1 = m.log2 + e by ring, zpow_add₀ two_ne_zero,
    zpow_natCast]
  exact mul_le_mul_of_nonneg_right hlog (by positivity)

/-- A value lies below the power of two that its leading bit gives. -/
theorem value_lt_two_zpow (m : Nat) (e : Int) : (m : ℚ) * 2 ^ e < 2 ^ totalExponent m e := by
  have hlog : (m : ℚ) < 2 ^ (m.log2 + 1) := by exact_mod_cast Nat.lt_log2_self
  rw [totalExponent, zpow_add₀ two_ne_zero, ← Nat.cast_succ, zpow_natCast]
  exact mul_lt_mul_of_pos_right hlog (by positivity)

/-- The least value that is rounded to an infinity. -/
def overflow : ℚ := 2 ^ (1024 : Int) - 2 ^ (970 : Int)

theorem overflow_eq : overflow = (2 ^ 54 - 1) * 2 ^ (970 : Int) := by
  rw [overflow, show (1024 : Int) = (54 : Nat) + 970 by norm_num, zpow_add₀ two_ne_zero,
    zpow_natCast]
  ring

/-- A value of one or more that lies below all that overflows is rounded to an exponent that can be
packed. -/
theorem exists_roundWithAccuracy_of_lt (s : Sign) {m : Nat} (hm : 2 ^ 52 ≤ m) {e : Int}
    (hlow : (1 : ℚ) ≤ m * 2 ^ e) (hhigh : (m : ℚ) * 2 ^ e < overflow) :
    ∃ m' e' h, roundWithAccuracy Format.binary64 s m e .exact = .finite s m' e' h ∧ Full m' ∧
      totalExponent m e - 53 ≤ e' ∧ -52 ≤ e' ∧ e' ≤ 971 ∧
      (m' : ℚ) * 2 ^ e' ≤ m * 2 ^ e * (1 + 2 ^ (-53 : Int)) := by
  have hleading := two_zpow_le_value (m := m) (by omega) e
  rw [overflow] at hhigh
  have hone : 1 ≤ totalExponent m e := by
    have hlt := hlow.trans_lt (value_lt_two_zpow m e)
    rw [← zpow_zero (2 : ℚ)] at hlt
    exact (zpow_lt_zpow_iff_right₀ one_lt_two).1 hlt
  have htop : totalExponent m e ≤ 1024 := by
    have hlt : (2 : ℚ) ^ (totalExponent m e - 1) < 2 ^ (1024 : Int) :=
      hleading.trans_lt (hhigh.trans (sub_lt_self _ (by positivity)))
    have := (zpow_lt_zpow_iff_right₀ one_lt_two).1 hlt
    omega
  obtain ⟨m', e', h, hround, hfull, hlower, -, hvalue⟩ :=
    exists_roundWithAccuracy s hm (e := e) (by omega)
  have hfits : e' ≤ 971 := by
    have hulp : (2 : ℚ) ^ (totalExponent m e - 54) ≤ 2 ^ (970 : Int) :=
      zpow_le_zpow_right₀ one_le_two (by omega)
    have hle : (2 : ℚ) ^ (52 + e') ≤ m' * 2 ^ e' := by
      have hm' : (2 : ℚ) ^ 52 ≤ m' := by exact_mod_cast hfull.1
      rw [zpow_add₀ two_ne_zero]
      exact mul_le_mul_of_nonneg_right (by exact_mod_cast hm') (by positivity)
    have hlt : (2 : ℚ) ^ (52 + e') < 2 ^ (1024 : Int) :=
      calc (2 : ℚ) ^ (52 + e') ≤ m * 2 ^ e + 2 ^ (totalExponent m e - 54) := hle.trans hvalue
        _ < 2 ^ (1024 : Int) - 2 ^ (970 : Int) + 2 ^ (970 : Int) :=
          add_lt_add_of_lt_of_le hhigh hulp
        _ = 2 ^ (1024 : Int) := sub_add_cancel ..
    have := (zpow_lt_zpow_iff_right₀ one_lt_two).1 hlt
    omega
  refine ⟨m', e', h, hround, hfull, hlower, by omega, hfits, hvalue.trans ?_⟩
  have hulp : (2 : ℚ) ^ (totalExponent m e - 54) ≤ m * 2 ^ e * 2 ^ (-53 : Int) := by
    rw [show totalExponent m e - 54 = totalExponent m e - 1 + -53 by ring, zpow_add₀ two_ne_zero]
    exact mul_le_mul_of_nonneg_right hleading (by positivity)
  linarith

/-- A float that is zero, or finite with its leading bit no higher than at a position. -/
def Below (c : Int) : UnpackedFloat → Prop
  | .zero _ => True
  | .finite _ m e _ => totalExponent m e ≤ c
  | _ => False

theorem Below.mono {c c' : Int} (hc : c ≤ c') {u : UnpackedFloat} (h : Below c u) : Below c' u := by
  cases u with
  | finite s m e hm => exact h.trans hc
  | zero s => trivial
  | _ => exact h

/-- Rounding raises the leading bit by one position at most, or to the lowest position. -/
theorem below_roundWithAccuracy (s : Sign) (m : Nat) (e : Int) (accuracy : Accuracy) :
    Below (max (totalExponent m e + 1) (-1073))
    (roundWithAccuracy Format.binary64 s m e accuracy) := by
  have hupper := (rounded_bounds m e accuracy).2
  rw [roundWithAccuracy_eq]
  by_cases hzero : rounded m e accuracy = 0
  · rw [dif_pos hzero]
    trivial
  rw [dif_neg hzero]
  by_cases hsmall : rounded m e accuracy < 2 ^ 53
  · rw [if_pos hsmall]
    simp only [Below, totalExponent]
    by_cases hk : excess m e ≤ m.log2
    · have hdiv : m / 2 ^ excess m e < 2 ^ (m.log2 + 1 - excess m e) := by
        rw [Nat.div_lt_iff_lt_mul (by positivity), ← pow_add,
          show m.log2 + 1 - excess m e + excess m e = m.log2 + 1 by omega]
        exact Nat.lt_log2_self
      have hlog : (rounded m e accuracy).log2 ≤ m.log2 + 1 - excess m e := by
        rw [← Nat.lt_succ_iff, Nat.log2_lt hzero, Nat.succ_eq_add_one, pow_succ]
        omega
      omega
    · -- All bits are dropped, which happens at the lowest position only.
      have hmin : e + (excess m e : Int) = -1074 := by
        rw [excess_eq] at hk ⊢
        omega
      have hdiv : m / 2 ^ excess m e = 0 :=
        Nat.div_eq_of_lt (Nat.lt_log2_self.trans_le (Nat.pow_le_pow_right (by decide) (by omega)))
      have hlog : (rounded m e accuracy).log2 = 0 := by
        rw [show rounded m e accuracy = 1 by omega]
        decide
      omega
  · rw [if_neg hsmall]
    have hkept : 2 ^ 52 ≤ m / 2 ^ excess m e := by omega
    rw [Nat.le_div_iff_mul_le (by positivity), ← pow_add] at hkept
    have hm : m ≠ 0 := by
      have := Nat.two_pow_pos (52 + excess m e)
      omega
    have hlog := (Nat.le_log2 hm).2 hkept
    simp only [Below, totalExponent, Nat.log2_two_pow]
    omega

/-- The leading bit of a quotient of mantissas, one of them shifted. -/
theorem log2_div_le {m₁ m₂ k : Nat} (hq : (m₁ <<< k) / m₂ ≠ 0) :
    ((m₁ <<< k) / m₂).log2 + m₂.log2 ≤ m₁.log2 + k := by
  have hm₂ : m₂ ≠ 0 := by
    rintro rfl
    exact hq (Nat.div_zero _)
  have hlt : 2 ^ (((m₁ <<< k) / m₂).log2 + m₂.log2) < 2 ^ (m₁.log2 + 1 + k) := by
    calc 2 ^ (((m₁ <<< k) / m₂).log2 + m₂.log2)
        = 2 ^ ((m₁ <<< k) / m₂).log2 * 2 ^ m₂.log2 := pow_add ..
      _ ≤ (m₁ <<< k) / m₂ * m₂ := Nat.mul_le_mul (Nat.log2_self_le hq) (Nat.log2_self_le hm₂)
      _ ≤ m₁ <<< k := Nat.div_mul_le_self ..
      _ = m₁ * 2 ^ k := Nat.shiftLeft_eq ..
      _ < 2 ^ (m₁.log2 + 1) * 2 ^ k := Nat.mul_lt_mul_of_pos_right Nat.lt_log2_self (by positivity)
      _ = 2 ^ (m₁.log2 + 1 + k) := (pow_add ..).symm
  have := (Nat.pow_lt_pow_iff_right (by decide)).1 hlt
  omega

/-- A quotient of finite floats is finite. Its leading bit is as high as the bits of the two say. -/
theorem below_div (s₁ s₂ : Sign) {m₁ m₂ : Nat} (e₁ e₂ : Int) (hm₁ : 0 < m₁) (hm₂ : 0 < m₂) :
    Below (max (totalExponent m₁ e₁ - totalExponent m₂ e₂ + 2) (-1072))
      (div Format.binary64 (.finite s₁ m₁ e₁ hm₁) (.finite s₂ m₂ e₂ hm₂)) := by
  rw [div]
  simp only [divCore]
  refine (below_roundWithAccuracy ..).mono ?_
  have htarget : Format.binary64.targetExponent (totalExponent m₁ e₁ - totalExponent m₂ e₂) =
      max (totalExponent m₁ e₁ - totalExponent m₂ e₂ - 53) (-1074) := rfl
  rw [htarget]
  simp only [totalExponent]
  generalize he : min (e₁ - e₂) (max ((m₁.log2 : Int) + 1 + e₁ - (m₂.log2 + 1 + e₂) - 53) (-1074)) =
    e
  by_cases hq : m₁ <<< (e₁ - e₂ - e).toNat / m₂ = 0
  · rw [hq, Nat.log2_zero]
    omega
  · have hlog := log2_div_le hq
    omega

/-- A float that is zero, or finite with an exponent that can be packed. -/
def Fits : UnpackedFloat → Prop
  | .zero _ => True
  | .finite _ _ e _ => e ≤ 971
  | _ => False

/-- What lies below the greatest position can be packed. -/
theorem Below.fits {c : Int} (hc : c ≤ 972) {u : UnpackedFloat} (h : Below c u) : Fits u := by
  cases u with
  | finite s m e hm =>
      simp only [Below, totalExponent, Fits] at h ⊢
      omega
  | zero s => trivial
  | _ => exact h

/-- What can be packed is no infinity. -/
theorem Fits.isInf_eq_false {u : UnpackedFloat} (h : Fits u) : u.isInf = false := by
  cases u with
  | infinity s => exact h.elim
  | _ => rfl

theorem Fits.neg {u : UnpackedFloat} (h : Fits u) : Fits u.neg := by
  cases u with
  | _ => exact h

/-- The exponent field of a double. -/
def field (b : BitVec 64) : Nat := (@unpackExponent Format.binary64 b).toNat

/-- The exponent field is packed as it is. -/
theorem field_packComponents (s : Sign) (x : BitVec 11) (f : BitVec 52) :
    field (packComponents Format.binary64 s x f) = x.toNat := by
  rw [field, unpackExponent_packComponents]

section Unpacking

variable {b : BitVec 64}

/-- The exponent field with all bits set. -/
theorem eq_neg_one_iff (x : BitVec 11) : x = -1#11 ↔ x.toNat = 2047 := by
  rw [← BitVec.toNat_inj]
  rfl

/-- The greatest exponent field is kept for infinities and for what is no number. -/
theorem not_fits_unpack (h : field b = 2047) : ¬ Fits (unpack Format.binary64 b) := by
  rw [unpack, if_pos ((eq_neg_one_iff _).2 h)]
  split <;> exact id

/-- The least exponent field goes with mantissas that are not full. -/
theorem below_unpack (h : field b = 0) : Below (-1022) (unpack Format.binary64 b) := by
  have hzero : @unpackExponent Format.binary64 b = 0#11 := BitVec.eq_of_toNat_eq h
  have hmax : @unpackExponent Format.binary64 b ≠ -1#11 := by
    rw [hzero]
    decide
  rw [unpack, if_neg hmax, if_pos hzero]
  split
  · trivial
  · rename_i hf
    have hlog := (Nat.log2_lt (fun h0 => hf (BitVec.eq_of_toNat_eq h0))).2
      (@unpackMantissa Format.binary64 b).isLt
    have hexponent : (@unpackExponent Format.binary64 b).toNat -
        ((Format.binary64.exponentBias : Int) + Format.binary64.mantissaBitsWithoutImplicit) + 1 =
          -1074 := by
      rw [hzero]
      rfl
    simp only [Below, totalExponent, hexponent]
    exact Int.add_le_add_right (Int.ofNat_le.2 hlog) (-1074)

/-- Every other exponent field gives the exponent of a full mantissa. -/
theorem exists_unpack (hmax : field b ≠ 2047) (hzero : field b ≠ 0) : ∃ s h,
    unpack Format.binary64 b = .finite s (2 ^ 52 + (@unpackMantissa Format.binary64 b).toNat)
      (field b - 1075) h := by
  have hmax' : @unpackExponent Format.binary64 b ≠ -1#11 := fun h =>
    hmax ((eq_neg_one_iff _).1 h)
  have hzero' : @unpackExponent Format.binary64 b ≠ 0#11 := fun h =>
    hzero (congrArg BitVec.toNat h)
  have hfull : (1#1 ++ @unpackMantissa Format.binary64 b).toNat =
      2 ^ 52 + (@unpackMantissa Format.binary64 b).toNat := by
    rw [BitVec.toNat_append, ← Nat.shiftLeft_add_eq_or_of_lt (BitVec.isLt _)]
    rfl
  rw [unpack, if_neg hmax', if_neg hzero']
  simp only [hfull]
  exact ⟨_, by omega, rfl⟩

/-- Finite doubles fit. -/
theorem fits_unpack (h : field b ≠ 2047) : Fits (unpack Format.binary64 b) := by
  by_cases hzero : field b = 0
  · exact (below_unpack hzero).fits (by decide)
  · obtain ⟨s, hm, heq⟩ := exists_unpack h hzero
    have hlt : field b < 2048 := BitVec.isLt _
    rw [heq, Fits]
    omega

end Unpacking

section Packing

variable {s : Sign} {m : Nat} {e : Int} {hm : 0 < m}

/-- How a finite float is packed: as an infinity, with a full mantissa or below the normal range. -/
theorem pack_finite : pack Format.binary64 (.finite s m e hm) =
    if 2 ^ 11 ≤ (e + 1023 + 52).toNat + 1 then packedInfinity Format.binary64 s
    else if m.log2 + 1 = 53 then
      packComponents Format.binary64 s (.ofNat 11 (e + 1023 + 52).toNat) (.ofNat 52 m)
    else packComponents Format.binary64 s 0#11 (.ofNat 52 m) := rfl

/-- What does not fit becomes an infinity. -/
theorem isInf_unpack_pack (h : 971 < e) :
    (unpack Format.binary64 (pack Format.binary64 (.finite s m e hm))).isInf = true := by
  rw [pack_finite, if_pos (by omega), packedInfinity, unpack]
  simp only [unpackExponent_packComponents, unpackMantissa_packComponents]
  rfl

/-- A full mantissa is packed with its exponent, and any other with the least. -/
theorem field_pack (s : Sign) (hm : 0 < m) (he : e ≤ 971) :
    field (pack Format.binary64 (.finite s m e hm)) = 0 ∨
      m.log2 = 52 ∧ (field (pack Format.binary64 (.finite s m e hm)) : Int) = e + 1075 := by
  rw [pack_finite, if_neg (by omega)]
  by_cases hlog : m.log2 + 1 = 53
  · rw [if_pos hlog, field_packComponents, BitVec.toNat_ofNat, Nat.mod_eq_of_lt (by omega)]
    omega
  · rw [if_neg hlog, field_packComponents]
    exact .inl rfl

/-- What does not become an infinity fits. -/
theorem Below.fits_of_isInf {c : Int} {u : UnpackedFloat} (h : Below c u)
    (hinf : (unpack Format.binary64 (pack Format.binary64 u)).isInf = false) : Fits u := by
  cases u with
  | zero s => trivial
  | finite s m e hm =>
      by_contra he
      rw [isInf_unpack_pack (Int.not_le.1 he)] at hinf
      cases hinf
  | _ => exact h

/-- What fits is packed as a finite double. -/
theorem field_pack_ne {u : UnpackedFloat} (h : Fits u) : field (pack Format.binary64 u) ≠ 2047 := by
  cases u with
  | zero s =>
      rw [pack, packedZero, field_packComponents]
      decide
  | finite s m e hm =>
      simp only [Fits] at h
      rcases field_pack s hm h with hzero | ⟨_, hfield⟩
      · omega
      · omega
  | _ => exact h.elim

/-- What can be packed still can be after packing. -/
theorem Fits.unpack_pack {u : UnpackedFloat} (h : Fits u) :
    Fits (unpack Format.binary64 (pack Format.binary64 u)) :=
  fits_unpack (field_pack_ne h)

/-- Packing does not raise the leading bit. -/
theorem Below.unpack_pack {c : Int} (hc : -1022 ≤ c) (hc' : c ≤ 972) {u : UnpackedFloat}
    (h : Below c u) : Below c (unpack Format.binary64 (pack Format.binary64 u)) := by
  by_cases hzero : field (pack Format.binary64 u) = 0
  · exact (below_unpack hzero).mono hc
  cases u with
  | zero s => exact absurd (field_packComponents s 0 0) hzero
  | finite s m e hm =>
      have hfits := h.fits hc'
      obtain hzero' | ⟨hlog, hfield⟩ := field_pack s hm hfits
      · exact absurd hzero' hzero
      obtain ⟨s', hm', heq⟩ := exists_unpack (field_pack_ne hfits) hzero
      have hfull : Full (2 ^ 52 + (@unpackMantissa Format.binary64
          (pack Format.binary64 (.finite s m e hm))).toNat) :=
        ⟨Nat.le_add_right _ _, Nat.add_lt_add_left (BitVec.isLt _) _⟩
      rw [heq]
      simp only [Below, totalExponent, hfull.log2_eq, hlog] at h ⊢
      omega
  | _ => exact h.elim

/-- A full mantissa with an exponent that can be packed is packed without loss. -/
theorem unpack_pack (s : Sign) (hm : 0 < m) (hfull : Full m) (he : -1074 ≤ e) (he' : e ≤ 971) :
    ∃ s', unpack Format.binary64 (pack Format.binary64 (.finite s m e hm)) = .finite s' m e hm := by
  have hpack : pack Format.binary64 (.finite s m e hm) =
      packComponents Format.binary64 s (.ofNat 11 (e + 1023 + 52).toNat) (.ofNat 52 m) := by
    rw [pack_finite, if_neg (by omega), if_pos (by rw [hfull.log2_eq])]
  have hfield : field (pack Format.binary64 (.finite s m e hm)) = (e + 1075).toNat := by
    rw [hpack, field_packComponents, BitVec.toNat_ofNat, Nat.mod_eq_of_lt (by omega)]
    omega
  obtain ⟨s', hm', heq⟩ := exists_unpack (b := pack Format.binary64 (.finite s m e hm))
    (by omega) (by omega)
  refine ⟨s', ?_⟩
  rw [heq]
  have hmantissa : 2 ^ 52 + (@unpackMantissa Format.binary64
      (pack Format.binary64 (.finite s m e hm))).toNat = m := by
    obtain ⟨hlower, hupper⟩ := hfull
    rw [hpack, unpackMantissa_packComponents, BitVec.toNat_ofNat]
    change 2 ^ 52 + m % 2 ^ 52 = m
    omega
  have hexponent : (field (pack Format.binary64 (.finite s m e hm)) : Int) - 1075 = e := by omega
  simp only [hmantissa, hexponent]

end Packing

end Postlink.Rounding
