import Postlink.Decimal.Shortest
import Postlink.Proofs.Decimal.Rounding

/-!
# Scaling by powers of ten

A literal is read as a double by scaling a significand with a power of ten. The significand and the
power are rounded each, and their product is rounded again, so what is scaled up overflows only if
it lies close to the greatest double (`Decimal.isSome_scaleUp?`). What is scaled down becomes
smaller. So whatever a literal is read as is finite (`Decimal.isFinite_of_toBinary64?`).
-/

namespace Postlink

open Float.Model (Format UnpackedFloat totalExponent)
open Float.Model.UnpackedFloat Rounding

/-- The exponent field as the model of doubles has it. -/
theorem Binary64.exponentField_ofFloat (x : Float) :
    (ofFloat x).exponentField = field x.toModel.toBits.toBitVec := by
  change (x.toModel.toBits.toNat >>> 52) &&& (2 ^ 11 - 1) = (x.toModel.toBits.toNat >>> 52) % 2 ^ 11
  exact Nat.and_two_pow_sub_one_eq_mod ..

/-- A double is finite if what it stands for is. -/
theorem Binary64.isFinite_ofFloat {x : Float} (h : Fits x.toModel.unpack) :
    (ofFloat x).isFinite = true := by
  rw [isFinite, exponentField_ofFloat, bne_iff_ne]
  exact fun hfield => not_fits_unpack hfield h

namespace Decimal

/-- A float of one or more that lies above a value by a rounding at most, and is not so much smaller
that its leading bit would lie lower. -/
def Near (x : Float) (v : ℚ) : Prop :=
  ∃ s m e h, x.toModel.unpack = .finite s m e h ∧ Full m ∧ -52 ≤ e ∧ v < 2 ^ (53 + e) ∧
    (m : ℚ) * 2 ^ e ≤ v * (1 + 2 ^ (-53 : Int))

theorem unpack_div (x y : Float) : (x / y).toModel.unpack = unpack Format.binary64
    (pack Format.binary64 (div Format.binary64 x.toModel.unpack y.toModel.unpack)) := rfl

theorem unpack_neg (x : Float) : (-x).toModel.unpack = unpack Format.binary64
    (pack Format.binary64 x.toModel.unpack.neg) := rfl

theorem powerOfTen_eq (k : Nat) : powerOfTen k = .ofModel (.ofScientific 1 k) := by
  by_cases hk : k ≤ 22
  · have htable : ∀ i : Fin 23, powerOfTen i = .ofModel (.ofScientific 1 i) := by decide +kernel
    exact htable ⟨k, by omega⟩
  · rw [powerOfTen, Float.ofScientific, dif_neg (by omega)]
    rfl

/-- The result of rounding a value that does not overflow is near it. -/
theorem near_of_unpack {x : Float} {s : Sign} {m : Nat} {e : Int}
    (hx : x.toModel.unpack = unpack Format.binary64
      (pack Format.binary64 (roundWithAccuracy Format.binary64 s m e .exact)))
    (hm : 2 ^ 52 ≤ m) (hlow : (1 : ℚ) ≤ m * 2 ^ e) (hhigh : (m : ℚ) * 2 ^ e < overflow) :
    Near x (m * 2 ^ e) := by
  obtain ⟨m', e', h, hround, hfull, hleading, hlower, hupper, hvalue⟩ :=
    exists_roundWithAccuracy_of_lt s hm hlow hhigh
  obtain ⟨s', hunpack⟩ := unpack_pack s h hfull (by omega) hupper
  refine ⟨s', m', e', h, by rw [hx, hround, hunpack], hfull, hlower, ?_, hvalue⟩
  exact (value_lt_two_zpow m e).trans_le (zpow_le_zpow_right₀ one_le_two (by omega))

/-- A power of ten is rounded from its exact value. -/
theorem ofScientific_one {k : Nat} (hk : k ≤ topPower) :
    ofScientific Format.binary64 1 k =
      roundWithAccuracy Format.binary64 .positive (1 <<< 53 * 10 ^ k) (-53) .exact := by
  rw [topPower] at hk
  have hlarge : ¬ (k : Int) > 2 ^ Format.binary64.exponentBits := by
    change ¬ (k : Int) > 2 ^ 11
    omega
  have hsmall : ¬ (k : Int) < -((2 ^ Format.binary64.exponentBits : Int) + Nat.log2 1) := by
    change ¬ (k : Int) < -((2 ^ 11 : Int) + Nat.log2 1)
    omega
  rw [ofScientific, dif_neg Nat.one_ne_zero, if_neg hlarge, if_neg hsmall,
    if_pos (Int.natCast_nonneg k), mul, Int.toNat_natCast]
  rfl

/-- The greatest power of ten in use is rounded to a finite double. -/
theorem ten_pow_topPower_lt : (10 : ℚ) ^ topPower < overflow := by
  have hlt : 10 ^ 308 + 2 ^ 970 < 2 ^ 1024 := by decide +kernel
  rw [overflow, lt_sub_iff_add_lt, topPower]
  exact_mod_cast hlt

/-- A power of ten in the range of doubles is rounded to something near it. -/
theorem near_powerOfTen {k : Nat} (hk : k ≤ topPower) : Near (powerOfTen k) (10 ^ k) := by
  have hvalue : ((1 <<< 53 * 10 ^ k : Nat) : ℚ) * 2 ^ (-53 : Int) = 10 ^ k := by
    push_cast
    norm_num
    ring
  have hx : (powerOfTen k).toModel.unpack = unpack Format.binary64 (pack Format.binary64
      (roundWithAccuracy Format.binary64 .positive (1 <<< 53 * 10 ^ k) (-53) .exact)) := by
    rw [powerOfTen_eq, ← ofScientific_one hk]
    rfl
  rw [← hvalue]
  refine near_of_unpack hx ?_ ?_ ?_
  · have := Nat.one_le_pow k 10 (by decide)
    rw [Nat.one_shiftLeft]
    omega
  · rw [hvalue]
    exact one_le_pow₀ (by norm_num)
  · rw [hvalue]
    exact (pow_le_pow_right₀ (by norm_num) hk).trans_lt ten_pow_topPower_lt

/-- The float of a number above zero: the mantissa is lengthened before it is rounded. -/
theorem ofNat_of_pos {n : Nat} (hn : 0 < n) : UnpackedFloat.ofNat Format.binary64 n =
    roundWithAccuracy Format.binary64 .positive (n <<< (52 - n.log2))
    (-(52 - n.log2 : Nat)) .exact := by
  have hcompare : compare (n : Int) 0 = .gt := Int.compare_eq_gt.2 (by omega)
  have htarget : Format.binary64.targetExponent (totalExponent n 0) =
      max ((n.log2 : Int) + 1 + 0 - 53) (-1074) := rfl
  rw [UnpackedFloat.ofNat, UnpackedFloat.ofInt, UnpackedFloat.normalize, hcompare]
  simp only [Int.toNat_natCast, UnpackedFloat.round, htarget, decreaseExponent]
  have hshift : (0 - max ((n.log2 : Int) + 1 + 0 - 53) (-1074)).toNat = 52 - n.log2 := by omega
  rw [hshift]
  congr 1
  omega

/-- A number below the bound of significands is rounded to something near it. -/
theorem near_toFloat {n : Nat} (hn : 0 < n) (hbound : n < significandBound) :
    Near n.toUInt64.toFloat n := by
  have hvalue : ((n <<< (52 - n.log2) : Nat) : ℚ) * 2 ^ (-(52 - n.log2 : Nat) : Int) = n := by
    rw [Nat.shiftLeft_eq, Nat.cast_mul, Nat.cast_pow, zpow_neg, zpow_natCast, Nat.cast_two,
      mul_assoc, mul_inv_cancel₀ (by positivity), mul_one]
  have hx : n.toUInt64.toFloat.toModel.unpack = unpack Format.binary64 (pack Format.binary64
      (roundWithAccuracy Format.binary64 .positive (n <<< (52 - n.log2)) (-(52 - n.log2 : Nat))
        .exact)) := by
    have htoNat : n.toUInt64.toNat = n := by
      rw [Nat.toUInt64, UInt64.toNat_ofNat']
      exact Nat.mod_eq_of_lt hbound
    rw [← ofNat_of_pos hn]
    conv_rhs => rw [← htoNat]
    rfl
  have hbound' : (n : ℚ) < overflow := by
    have hle : (n : ℚ) ≤ 10 ^ topPower := by
      have hle : n ≤ 10 ^ topPower := by
        rw [significandBound] at hbound
        exact hbound.le.trans (by decide +kernel)
      exact_mod_cast hle
    exact hle.trans_lt ten_pow_topPower_lt
  have hnear := near_of_unpack hx ?_ ?_ ?_
  · rwa [hvalue] at hnear
  · rw [Nat.shiftLeft_eq]
    calc 2 ^ 52 ≤ 2 ^ (n.log2 + (52 - n.log2)) := Nat.pow_le_pow_right (by decide) (by omega)
      _ = 2 ^ n.log2 * 2 ^ (52 - n.log2) := pow_add ..
      _ ≤ n * 2 ^ (52 - n.log2) := Nat.mul_le_mul_right _ (Nat.log2_self_le (by omega))
  · rw [hvalue]
    exact_mod_cast hn
  · rwa [hvalue]

/-- What is read without overflow in spite of all roundings: about the third greatest double. -/
def safe : ℚ := (2 ^ 54 - 5) * 2 ^ (970 : Int)

/-- Two roundings do not take a safe value to an infinity. -/
theorem safe_lt : safe * (1 + 2 ^ (-53 : Int)) * (1 + 2 ^ (-53 : Int)) < overflow := by
  have hpos : (0 : ℚ) < 2 ^ (970 : Int) := by positivity
  rw [safe, overflow_eq]
  generalize (2 : ℚ) ^ (970 : Int) = unit at hpos
  have hfactor : ((2 : ℚ) ^ 54 - 5) * (1 + 2 ^ (-53 : Int)) * (1 + 2 ^ (-53 : Int)) <
      2 ^ 54 - 1 := by
    norm_num
  calc ((2 : ℚ) ^ 54 - 5) * unit * (1 + 2 ^ (-53 : Int)) * (1 + 2 ^ (-53 : Int))
      = (2 ^ 54 - 5) * (1 + 2 ^ (-53 : Int)) * (1 + 2 ^ (-53 : Int)) * unit := by ring
    _ < (2 ^ 54 - 1) * unit := mul_lt_mul_of_pos_right hfactor hpos

/-- A product of floats near values with a safe product does not overflow. -/
theorem Near.fits_mul {x y : Float} {v w : ℚ} (hx : Near x v) (hy : Near y w)
    (hsafe : v * w ≤ safe) : Fits (mul Format.binary64 x.toModel.unpack y.toModel.unpack) := by
  obtain ⟨s₁, m₁, e₁, h₁, hunpack₁, hfull₁, hlower₁, -, hvalue₁⟩ := hx
  obtain ⟨s₂, m₂, e₂, h₂, hunpack₂, hfull₂, hlower₂, -, hvalue₂⟩ := hy
  have hvalue : ((m₁ * m₂ : Nat) : ℚ) * 2 ^ (e₁ + e₂) = m₁ * 2 ^ e₁ * (m₂ * 2 ^ e₂) := by
    rw [zpow_add₀ two_ne_zero, Nat.cast_mul]
    ring
  have hone : ∀ {m : Nat} {e : Int}, Full m → -52 ≤ e → (1 : ℚ) ≤ m * 2 ^ e := by
    intro m e hfull he
    have hm : (2 : ℚ) ^ (52 : Int) ≤ m := by exact_mod_cast hfull.1
    calc (1 : ℚ) = 2 ^ (52 : Int) * 2 ^ (-52 : Int) := by norm_num
      _ ≤ m * 2 ^ e := mul_le_mul hm (zpow_le_zpow_right₀ one_le_two he) (by positivity)
        (by positivity)
  have hlow : (1 : ℚ) ≤ ((m₁ * m₂ : Nat) : ℚ) * 2 ^ (e₁ + e₂) := by
    rw [hvalue]
    exact one_le_mul_of_one_le_of_one_le (hone hfull₁ hlower₁) (hone hfull₂ hlower₂)
  have hhigh : ((m₁ * m₂ : Nat) : ℚ) * 2 ^ (e₁ + e₂) < overflow := by
    rw [hvalue]
    calc (m₁ : ℚ) * 2 ^ e₁ * (m₂ * 2 ^ e₂)
        ≤ v * (1 + 2 ^ (-53 : Int)) * (w * (1 + 2 ^ (-53 : Int))) :=
          mul_le_mul hvalue₁ hvalue₂ (by positivity) (le_trans (by positivity) hvalue₁)
      _ = v * w * (1 + 2 ^ (-53 : Int)) * (1 + 2 ^ (-53 : Int)) := by ring
      _ ≤ safe * (1 + 2 ^ (-53 : Int)) * (1 + 2 ^ (-53 : Int)) := by gcongr
      _ < overflow := safe_lt
  have hm : 2 ^ 52 ≤ m₁ * m₂ := hfull₁.1.trans (Nat.le_mul_of_pos_right _ h₂)
  obtain ⟨m', e', h', hround, -, -, -, hupper, -⟩ :=
    exists_roundWithAccuracy_of_lt (s₁ * s₂) hm hlow hhigh
  rw [hunpack₁, hunpack₂, mul, hround]
  exact hupper

theorem unpack_toFloat_zero : (0 : Nat).toUInt64.toFloat.toModel.unpack = .zero .positive := rfl

/-- Powers of ten that are not in use lie above the safe values. -/
theorem safe_lt_ten_pow {k : Nat} (hk : topPower < k) : safe < 10 ^ k := by
  have hlt : 2 ^ 1024 < 10 ^ (topPower + 1) := by decide +kernel
  calc safe ≤ 2 ^ (54 : Int) * 2 ^ (970 : Int) :=
        mul_le_mul_of_nonneg_right (by norm_num) (by positivity)
    _ = 2 ^ 1024 := by
        rw [← zpow_add₀ two_ne_zero]
        exact zpow_natCast 2 1024
    _ < 10 ^ (topPower + 1) := by exact_mod_cast hlt
    _ ≤ 10 ^ k := pow_le_pow_right₀ (by norm_num) hk

/-- A significand times a power of ten is no infinity if it is safe. -/
theorem isSome_scaleUp? {n k : Nat} (hn : n < significandBound) (hsafe : (n : ℚ) * 10 ^ k ≤ safe) :
    (scaleUp? n.toUInt64.toFloat k).isSome = true := by
  rw [scaleUp?]
  by_cases hk : k ≤ topPower
  · have hfits : Fits (mul Format.binary64 n.toUInt64.toFloat.toModel.unpack
        (powerOfTen k).toModel.unpack) := by
      by_cases hzero : n = 0
      · obtain ⟨s, m, e, h, hunpack, -⟩ := near_powerOfTen hk
        rw [hzero, unpack_toFloat_zero, hunpack]
        trivial
      · exact (near_toFloat (Nat.pos_of_ne_zero hzero) hn).fits_mul (near_powerOfTen hk) hsafe
    have hinf : (n.toUInt64.toFloat * powerOfTen k).isInf = false :=
      hfits.unpack_pack.isInf_eq_false
    rw [if_pos hk]
    dsimp only
    rw [hinf]
    rfl
  · -- Only zero is safe at such a power.
    have hzero : n = 0 := by
      by_contra hne
      have hone : (1 : ℚ) ≤ n := by exact_mod_cast Nat.pos_of_ne_zero hne
      have hle : (10 : ℚ) ^ k ≤ n * 10 ^ k := le_mul_of_one_le_left (by positivity) hone
      exact absurd (hle.trans hsafe) (not_le.2 (safe_lt_ten_pow (Nat.lt_of_not_le hk)))
    have hbeq : ((0 : Nat).toUInt64.toFloat == 0) = true := by decide +kernel
    rw [if_neg hk, hzero, if_pos hbeq]
    rfl

/-- Dividing by a power of ten other than one does not raise the leading bit. -/
theorem below_div_powerOfTen {c : Int} (hc : -1022 ≤ c) (hc' : c ≤ 972) {x : Float}
    (hx : Below c x.toModel.unpack) {k : Nat} (hpos : 0 < k) (hk : k ≤ topPower) :
    Below c (x / powerOfTen k).toModel.unpack := by
  obtain ⟨s₂, m₂, e₂, h₂, hunpack₂, hfull₂, -, hvalue₂, -⟩ := near_powerOfTen hk
  have hleading : 2 ≤ totalExponent m₂ e₂ := by
    have hlt : (2 : ℚ) ^ (1 : Int) < 2 ^ (53 + e₂) := by
      refine lt_trans ?_ hvalue₂
      calc (2 : ℚ) ^ (1 : Int) < 10 ^ 1 := by norm_num
        _ ≤ 10 ^ k := pow_le_pow_right₀ (by norm_num) hpos
    have := (zpow_lt_zpow_iff_right₀ one_lt_two).1 hlt
    rw [totalExponent, hfull₂.log2_eq]
    omega
  rw [unpack_div, hunpack₂]
  refine Below.unpack_pack hc hc' ?_
  cases hunpack : x.toModel.unpack with
  | zero s => trivial
  | finite s m e h =>
      rw [hunpack] at hx
      refine (below_div s s₂ e e₂ h h₂).mono ?_
      simp only [Below] at hx
      omega
  | _ => rw [hunpack] at hx; exact hx.elim

/-- Nor does scaling down, by induction on how often it divides. -/
theorem below_scaleDown {c : Int} (hc : -1022 ≤ c) (hc' : c ≤ 972) {x : Float}
    (hx : Below c x.toModel.unpack) {k : Nat} (hpos : 0 < k) :
    Below c (scaleDown x k).toModel.unpack := by
  fun_induction scaleDown x k with
  | case1 x k hk => exact below_div_powerOfTen hc hc' hx hpos hk
  | case2 x k hk hzero => exact hx
  | case3 x k hk hzero ih =>
      exact ih (below_div_powerOfTen hc hc' hx (by decide) (Nat.le_refl _)) (by omega)

/-- The float of a significand. -/
theorem below_toFloat {n : Nat} (hn : n < significandBound) :
    Below 65 n.toUInt64.toFloat.toModel.unpack := by
  by_cases hzero : n = 0
  · rw [hzero, unpack_toFloat_zero]
    trivial
  obtain ⟨s, m, e, h, hunpack, hfull, -, -, hvalue⟩ := near_toFloat (Nat.pos_of_ne_zero hzero) hn
  have hlt : (2 : ℚ) ^ (52 + e) < 2 ^ (65 : Int) := by
    have hm : (2 : ℚ) ^ (52 : Int) ≤ m := by exact_mod_cast hfull.1
    have hn' : (n : ℚ) ≤ 2 ^ (64 : Int) := by exact_mod_cast hn.le
    calc (2 : ℚ) ^ (52 + e) = 2 ^ (52 : Int) * 2 ^ e := zpow_add₀ two_ne_zero ..
      _ ≤ m * 2 ^ e := mul_le_mul_of_nonneg_right hm (by positivity)
      _ ≤ n * (1 + 2 ^ (-53 : Int)) := hvalue
      _ ≤ 2 ^ (64 : Int) * (1 + 2 ^ (-53 : Int)) := by gcongr
      _ < 2 ^ (65 : Int) := by norm_num
  have := (zpow_lt_zpow_iff_right₀ one_lt_two).1 hlt
  rw [hunpack, Below, totalExponent, hfull.log2_eq]
  omega

/-- Digits are appended only as long as the significand stays below the bound. -/
theorem absorb_fst_lt {n : Nat} (hn : n < significandBound) (ds : List Digit) :
    (absorb n ds).1 < significandBound := by
  fun_induction absorb n ds with
  | case1 n => exact hn
  | case2 n d ds hlt ih => exact ih hlt
  | case3 n d ds hlt => exact hn

/-- What a power of ten scales up is finite. -/
theorem fits_of_scaleUp? {n k : Nat} (hn : n < significandBound) {y : Float}
    (h : scaleUp? n.toUInt64.toFloat k = some y) : Fits y.toModel.unpack := by
  rw [scaleUp?] at h
  by_cases hk : k ≤ topPower
  · rw [if_pos hk] at h
    dsimp only at h
    cases hinf : (n.toUInt64.toFloat * powerOfTen k).isInf with
    | true => rw [hinf] at h; cases h
    | false =>
        rw [hinf] at h
        cases h
        obtain ⟨s, m, e, hm, hunpack, -⟩ := near_powerOfTen hk
        have hbelow : ∃ c, Below c (mul Format.binary64 n.toUInt64.toFloat.toModel.unpack
            (powerOfTen k).toModel.unpack) := by
          have hx := below_toFloat hn
          rw [hunpack]
          cases hxunpack : n.toUInt64.toFloat.toModel.unpack with
          | zero s' => exact ⟨0, trivial⟩
          | finite s' m' e' hm' => exact ⟨_, below_roundWithAccuracy ..⟩
          | _ => rw [hxunpack] at hx; exact hx.elim
        obtain ⟨c, hbelow⟩ := hbelow
        exact (hbelow.fits_of_isInf hinf).unpack_pack
  · rw [if_neg hk] at h
    split at h
    · cases h
      exact (below_toFloat hn).fits (by decide)
    · cases h

/-- The significand of a literal: the leading digits that stay below the bound. -/
def significand (d : Decimal) : Nat := (absorb (absorb 0 d.whole).1 d.fraction).1

/-- The power of ten that goes with the significand. -/
def shift (d : Decimal) : Int :=
  (absorb 0 d.whole).2.length -
    (d.fraction.length - (absorb (absorb 0 d.whole).1 d.fraction).2.length) + d.exponent.getD 0

/-- Reading a literal scales its significand up or down and sets the sign. -/
theorem toBinary64?_eq (d : Decimal) : d.toBinary64? =
    (if 0 ≤ d.shift then scaleUp? d.significand.toUInt64.toFloat d.shift.toNat
      else some (scaleDown d.significand.toUInt64.toFloat d.shift.natAbs)).map fun y =>
        .ofFloat (if d.negative then -y else y) := rfl

/-- A significand stays below its bound. -/
theorem significand_lt (d : Decimal) : d.significand < significandBound :=
  absorb_fst_lt (absorb_fst_lt (by decide) _) _

/-- What a literal is read as is finite. -/
theorem isFinite_of_toBinary64? {d : Decimal} {x : Binary64} (h : d.toBinary64? = some x) :
    x.isFinite = true := by
  rw [toBinary64?_eq] at h
  obtain ⟨y, hy, rfl⟩ := Option.map_eq_some_iff.1 h
  have hfits : Fits y.toModel.unpack := by
    split at hy
    · exact fits_of_scaleUp? d.significand_lt hy
    · cases hy
      exact (below_scaleDown (by decide) (by decide) (below_toFloat d.significand_lt)
        (by omega)).fits (by decide)
  refine Binary64.isFinite_ofFloat ?_
  split
  · rw [unpack_neg]
    exact hfits.neg.unpack_pack
  · exact hfits

/-- A literal is read if it is scaled down or to a safe value. -/
theorem isSome_toBinary64? {d : Decimal} (h : (d.significand : ℚ) * 10 ^ d.shift ≤ safe) :
    d.toBinary64?.isSome = true := by
  rw [toBinary64?_eq, Option.isSome_map]
  split
  · rename_i hshift
    refine isSome_scaleUp? d.significand_lt ?_
    rwa [← zpow_natCast, Int.toNat_of_nonneg hshift]
  · rfl

end Decimal

end Postlink
