import Postlink.Codec.Fields
import Postlink.Proofs.Decimal.Scaling

/-!
# Every finite double is read again

The text of a double can be read, though it may be read as a neighbour of the double. What is
written lies in the interval of reals that round to the double, so reading it overflows only where
the double is one of the greatest two, and for these the text happens to be read as well
(`Binary64.isSome_toBinary64?_decimal`). So whatever double was read once is read from its own text
(`Json.binary64?_of_eq_some`).
-/

namespace Postlink

namespace Digit

/-- Digits behind a number. -/
theorem foldl_eq (n : Nat) (ds : List Digit) :
    ds.foldl (fun n d => 10 * n + d.val) n = n * 10 ^ ds.length + value ds := by
  induction ds generalizing n with
  | nil => simp [value]
  | cons d ds ih =>
      rw [value, List.foldl_cons, List.foldl_cons, ih, ih, List.length_cons, pow_succ]
      ring

/-- The value of digits one after the other, in terms of both parts. -/
theorem value_append (ds es : List Digit) :
    value (ds ++ es) = value ds * 10 ^ es.length + value es := by
  rw [value, List.foldl_append, foldl_eq]
  rfl

theorem value_replicate_zero (k : Nat) : value (List.replicate k zero) = 0 := by
  induction k with
  | zero => rfl
  | succ k ih => rw [List.replicate_succ', value_concat, ih]; rfl

/-- Digits have a value below the power of ten that their number gives. -/
theorem value_lt (ds : List Digit) : value ds < 10 ^ ds.length := by
  induction ds using List.reverseRecOn with
  | nil => decide
  | append_singleton ds d ih =>
      have := d.isLt
      rw [value_concat, List.length_append, List.length_singleton, pow_succ]
      omega

end Digit

namespace Decimal

/-- Nothing is left over as long as the number stays below the bound. -/
theorem absorb_eq {n : Nat} {ds : List Digit}
    (h : n * 10 ^ ds.length + Digit.value ds < significandBound) :
    absorb n ds = (n * 10 ^ ds.length + Digit.value ds, []) := by
  induction ds generalizing n with
  | nil => simp [absorb, Digit.value]
  | cons d ds ih =>
      have hcons : n * 10 ^ (d :: ds).length + Digit.value (d :: ds) =
          (10 * n + d.val) * 10 ^ ds.length + Digit.value ds := by
        rw [← Digit.foldl_eq, List.foldl_cons, Digit.foldl_eq]
      rw [hcons] at h ⊢
      have hlt : 10 * n + d.val < significandBound := by
        refine lt_of_le_of_lt ?_ h
        exact (Nat.le_mul_of_pos_right _ (by positivity)).trans (Nat.le_add_right _ _)
      rw [absorb, if_pos hlt, ih h]

/-- What is left over is cut off. -/
theorem absorb_mul_le (n : Nat) (ds : List Digit) :
    (absorb n ds).1 * 10 ^ (absorb n ds).2.length ≤ n * 10 ^ ds.length + Digit.value ds := by
  fun_induction absorb n ds with
  | case1 n => simp [Digit.value]
  | case2 n d ds hlt ih =>
      rw [← Digit.foldl_eq, List.foldl_cons, Digit.foldl_eq]
      exact ih
  | case3 n d ds hlt => exact Nat.le_add_right _ _

/-- The value of a literal without its sign. -/
def value (d : Decimal) : ℚ :=
  Digit.value (d.whole ++ d.fraction) * 10 ^ (d.exponent.getD 0 - d.fraction.length : Int)

/-- The significand and its power do not exceed the value, if the whole part is short. -/
theorem significand_mul_le {d : Decimal} (h : Digit.value d.whole < significandBound) :
    (d.significand : ℚ) * 10 ^ d.shift ≤ d.value := by
  have hvalue : 0 * 10 ^ d.whole.length + Digit.value d.whole = Digit.value d.whole := by
    rw [Nat.zero_mul, Nat.zero_add]
  have hwhole : absorb 0 d.whole = (Digit.value d.whole, []) := by
    rw [absorb_eq (by rwa [hvalue]), hvalue]
  have hle := absorb_mul_le (Digit.value d.whole) d.fraction
  rw [← Digit.value_append] at hle
  rw [significand, shift, hwhole, value]
  generalize absorb (Digit.value d.whole) d.fraction = r at hle ⊢
  have hshift : (([] : List Digit).length : Int) - (d.fraction.length - r.2.length) +
      d.exponent.getD 0 = r.2.length + (d.exponent.getD 0 - d.fraction.length) := by
    rw [List.length_nil]
    ring
  rw [hshift, zpow_add₀ (by norm_num), zpow_natCast, ← mul_assoc]
  exact mul_le_mul_of_nonneg_right (by exact_mod_cast hle) (by positivity)

end Decimal

namespace Layout

open Decimal

/-- Digits before the point alone, with zeros up to it. -/
theorem value_whole (negative : Bool) {ds : List Digit} {points : Nat} (h : ds.length ≤ points) :
    Decimal.value ⟨negative, ds ++ List.replicate (points - ds.length) .zero, [.zero], none⟩ =
      Digit.value ds * 10 ^ (points - ds.length : Int) := by
  have hdigits : Digit.value (ds ++ List.replicate (points - ds.length) .zero ++ [.zero]) =
      Digit.value ds * 10 ^ (points - ds.length) * 10 := by
    rw [Digit.value_concat, Digit.value_append, Digit.value_replicate_zero, List.length_replicate,
      Nat.add_zero, Nat.mul_comm]
    rfl
  have hlength : (points : Int) - ds.length = (points - ds.length : Nat) := by omega
  rw [Decimal.value]
  dsimp only
  rw [hdigits, hlength, zpow_natCast]
  push_cast
  rw [Option.getD_none, List.length_singleton]
  norm_num
  ring

/-- Digits on both sides of the point. -/
theorem value_split (negative : Bool) (ds : List Digit) {points : Nat} (h : points ≤ ds.length) :
    Decimal.value ⟨negative, ds.take points, ds.drop points, none⟩ =
      Digit.value ds * 10 ^ (points - ds.length : Int) := by
  rw [Decimal.value]
  dsimp only
  rw [List.take_append_drop, List.length_drop, Option.getD_none]
  congr 2
  omega

/-- Where the digits are placed, they have the value that their exponent says. -/
theorem value_place (l : Layout) (negative : Bool) {ds : List Digit} (hne : ds ≠ []) (e : Int) :
    (l.place negative ds e).value = Digit.value ds * 10 ^ (e + 1 - ds.length) := by
  have hlength := List.length_pos_iff.2 hne
  unfold place
  split
  · split
    · have hdigits : Digit.value ([.zero] ++ (List.replicate (e.natAbs - 1) .zero ++ ds)) =
          Digit.value ds := by
        rw [← List.append_assoc, ← List.replicate_one, List.replicate_append_replicate,
          Digit.value_append, Digit.value_replicate_zero, Nat.zero_mul, Nat.zero_add]
      rw [Decimal.value]
      dsimp only
      rw [hdigits, List.length_append, List.length_replicate, Option.getD_none]
      congr 2
      omega
    · dsimp only
      have hpoints : (e + 1 : Int) = (e.toNat + 1 : Nat) := by omega
      rw [hpoints]
      by_cases hshort : ds.length ≤ e.toNat + 1
      · rw [List.drop_of_length_le hshort, List.take_of_length_le hshort]
        exact value_whole negative hshort
      · have hfraction : (ds.drop (e.toNat + 1)).isEmpty = false := by
          rw [List.isEmpty_eq_false_iff, Ne, List.drop_eq_nil_iff]
          exact hshort
        rw [hfraction, Nat.sub_eq_zero_of_le (by omega), List.replicate_zero, List.append_nil]
        exact value_split negative ds (by omega)
  · rw [Decimal.value]
    dsimp only
    rw [List.take_append_drop, List.length_drop, Option.getD_some]
    congr 2
    omega

/-- A layout leaves few enough digits before the point for a significand. -/
theorem value_whole_place_lt {l : Layout} (hl : l.greatest ≤ 15) (negative : Bool) (ds : List Digit)
    (e : Int) : Digit.value (l.place negative ds e).whole < significandBound := by
  have hlength : (l.place negative ds e).whole.length ≤ 16 := by
    unfold place
    split
    · split
      · exact Nat.le_add_left 1 15
      · dsimp only
        rw [List.length_append, List.length_take, List.length_replicate]
        omega
    · dsimp only
      rw [List.length_take]
      omega
  refine (Digit.value_lt _).trans_le ?_
  exact (Nat.pow_le_pow_right (by decide) hlength).trans (by decide)

end Layout

namespace Interval

/-- What the ends of an interval are multiplied with to compare them with multiples of `10 ^ k`. -/
def scale (i : Interval) (k : Int) : Nat := 2 ^ i.exponent.toNat * 10 ^ (-k).toNat

/-- What a multiple of `10 ^ k` is multiplied with for the comparison. -/
def unit (i : Interval) (k : Int) : Nat := 2 ^ (-i.exponent).toNat * 10 ^ k.toNat

/-- What is reached lies no lower. -/
theorem le_of_reaches {i : Interval} {a b : Nat} (h : i.reaches a b = true) : a ≤ b := by
  simp only [reaches, Bool.or_eq_true, Bool.and_eq_true, decide_eq_true_eq, beq_iff_eq] at h
  omega

/-- The multiple chosen on a grid is the neighbour below or the one above, whichever lies inside. -/
theorem onGrid?_cases {i : Interval} {tie : Tie} {k : Int} {n : Nat}
    (h : i.onGrid? tie k = some n) :
    (n * i.unit k ≤ i.mid * i.scale k ∧ i.low * i.scale k ≤ n * i.unit k) ∨
      (n ≠ 0 ∧ n * i.unit k ≤ i.high * i.scale k) := by
  unfold onGrid? at h
  extract_lets scale unit value below above rest belowIn aboveIn at h
  have hbelow : belowIn = true → below * unit ≤ value ∧ i.low * scale ≤ below * unit := fun hin =>
    ⟨Nat.div_mul_le_self .., le_of_reaches hin⟩
  have habove : aboveIn = true → above ≠ 0 ∧ above * unit ≤ i.high * scale := fun hin =>
    ⟨Nat.succ_ne_zero _, le_of_reaches hin⟩
  have hchosen : (n = below ∧ belowIn = true) ∨ (n = above ∧ aboveIn = true) := by
    split at h
    · rename_i hin
      obtain ⟨hlow, hhigh⟩ := Bool.and_eq_true_iff.1 hin
      split at h
      · exact .inl ⟨(Option.some.inj h).symm, hlow⟩
      · split at h
        · exact .inr ⟨(Option.some.inj h).symm, hhigh⟩
        · cases tie with
          | up => exact .inr ⟨(Option.some.inj h).symm, hhigh⟩
          | toEven =>
              rw [← Option.some.inj h]
              split
              · exact .inl ⟨rfl, hlow⟩
              · exact .inr ⟨rfl, hhigh⟩
    · split at h
      · rename_i hin
        exact .inl ⟨(Option.some.inj h).symm, hin⟩
      · split at h
        · rename_i hin
          exact .inr ⟨(Option.some.inj h).symm, hin⟩
        · cases h
  rcases hchosen with ⟨rfl, hin⟩ | ⟨rfl, hin⟩
  · exact .inl (hbelow hin)
  · exact .inr (habove hin)

/-- Moving the negative part of an exponent to the other side. -/
theorem zpow_mul_pow_toNat {a : ℚ} (ha : a ≠ 0) (k : Int) :
    a ^ k * a ^ (-k).toNat = a ^ k.toNat := by
  rw [← zpow_natCast, ← zpow_natCast, ← zpow_add₀ ha]
  congr 1
  omega

/-- It does not lie above the interval. -/
theorem value_le_of_onGrid? {i : Interval} (hmid : i.mid ≤ i.high) {tie : Tie} {k : Int} {n : Nat}
    (h : i.onGrid? tie k = some n) : (n : ℚ) * 10 ^ k ≤ i.high * 2 ^ i.exponent := by
  have hle : n * i.unit k ≤ i.high * i.scale k := by
    rcases onGrid?_cases h with ⟨hle, _⟩ | ⟨_, hle⟩
    · exact hle.trans (Nat.mul_le_mul_right _ hmid)
    · exact hle
  have hcast : (n : ℚ) * i.unit k ≤ i.high * i.scale k := by exact_mod_cast hle
  have hunit : (i.unit k : ℚ) = 10 ^ k * (10 ^ (-k).toNat * 2 ^ (-i.exponent).toNat) := by
    rw [unit, ← mul_assoc, zpow_mul_pow_toNat (by norm_num)]
    push_cast
    ring
  have hscale : (i.scale k : ℚ) = 2 ^ i.exponent * (10 ^ (-k).toNat * 2 ^ (-i.exponent).toNat) := by
    rw [scale, mul_comm (10 ^ (-k).toNat : ℚ), ← mul_assoc, zpow_mul_pow_toNat (by norm_num)]
    push_cast
    ring
  rw [hunit, hscale, ← mul_assoc (n : ℚ), ← mul_assoc (i.high : ℚ)] at hcast
  exact le_of_mul_le_mul_right hcast (by positivity)

/-- The shortest decimal of an interval is one on the grid of its exponent. -/
theorem onGrid?_of_shortest? {i : Interval} {tie : Tie} {n : Nat} {k : Int}
    (h : i.shortest? tie = some (n, k)) : i.onGrid? tie k = some n := by
  obtain ⟨grid, _, hgrid⟩ := List.exists_of_findSome?_eq_some h
  obtain ⟨n', hn', heq⟩ := Option.map_eq_some_iff.1 hgrid
  cases heq
  exact hn'

end Interval

namespace Binary64

/-- The exponent field are the eleven bits above the fraction. -/
theorem exponentField_eq (x : Binary64) : x.exponentField = x.bits.toNat / 2 ^ 52 % 2 ^ 11 := by
  rw [← Nat.shiftRight_eq_div_pow, ← Nat.and_two_pow_sub_one_eq_mod]
  rfl

/-- The fraction field are the lowest 52 bits. -/
theorem fractionField_eq (x : Binary64) : x.fractionField = x.bits.toNat % 2 ^ 52 := by
  rw [← Nat.and_two_pow_sub_one_eq_mod]
  rfl

/-- The greatest two doubles, with either sign. -/
def greatest : List Binary64 :=
  [⟨0x7fefffffffffffff⟩, ⟨0x7feffffffffffffe⟩, ⟨0xffefffffffffffff⟩, ⟨0xffeffffffffffffe⟩]

/-- Only these have a mantissa and an exponent that great. -/
theorem mem_greatest {x : Binary64} (hexponent : x.exponentField = 2046)
    (hfraction : 2 ^ 52 - 2 ≤ x.fractionField) : x ∈ greatest := by
  rw [exponentField_eq] at hexponent
  rw [fractionField_eq] at hfraction
  have hlt := x.bits.toNat_lt
  have hbits : x.bits.toNat ∈ greatest.map fun y => y.bits.toNat := by
    simp only [greatest, List.map_cons, List.map_nil, List.mem_cons, List.not_mem_nil, or_false]
    change _ = 0x7fefffffffffffff ∨ _ = 0x7feffffffffffffe ∨ _ = 0xffefffffffffffff ∨
      _ = 0xffeffffffffffffe
    omega
  obtain ⟨y, hy, heq⟩ := List.mem_map.1 hbits
  have hxy : y = x := congrArg Binary64.mk (UInt64.toNat_inj.1 heq)
  rwa [← hxy]

/-- The intervals of all other doubles end at a safe value. -/
theorem high_interval_le {x : Binary64} (hfinite : x.isFinite = true) (h : x ∉ greatest) :
    (x.interval.high : ℚ) * 2 ^ x.interval.exponent ≤ Decimal.safe := by
  have hexponent : x.exponentField ≤ 2046 := by
    rw [isFinite, bne_iff_ne, exponentField_eq] at hfinite
    rw [exponentField_eq]
    omega
  have hfraction : x.fractionField < 2 ^ 52 := by
    rw [fractionField_eq]
    omega
  have hsafe : Decimal.safe = (2 ^ 55 - 10) * 2 ^ (969 : Int) := by
    rw [Decimal.safe, show (970 : Int) = 1 + 969 by norm_num, zpow_add₀ two_ne_zero]
    ring
  rw [hsafe]
  by_cases htop : x.exponentField = 2046
  · have hfew : x.fractionField < 2 ^ 52 - 2 := by
      by_contra hmany
      exact h (mem_greatest htop (Nat.not_lt.1 hmany))
    have hhigh : x.interval.high + 10 ≤ 2 ^ 55 := by
      simp only [interval, htop, OfNat.ofNat_ne_zero, if_false]
      omega
    have hexponent' : x.interval.exponent = 969 := by
      simp only [interval, htop]
      omega
    have hcast : (x.interval.high : ℚ) + 10 ≤ 2 ^ 55 := by exact_mod_cast hhigh
    rw [hexponent']
    exact mul_le_mul_of_nonneg_right (le_sub_right_of_add_le hcast) (by positivity)
  · have hhigh : x.interval.high + 2 ≤ 2 ^ 55 := by
      simp only [interval]
      split <;> omega
    have hexponent' : x.interval.exponent ≤ 968 := by
      simp only [interval]
      omega
    have hcast : (x.interval.high : ℚ) + 2 ≤ 2 ^ 55 := by exact_mod_cast hhigh
    calc (x.interval.high : ℚ) * 2 ^ x.interval.exponent
        ≤ (2 ^ 55 - 2) * 2 ^ (968 : Int) :=
          mul_le_mul (le_sub_right_of_add_le hcast) (zpow_le_zpow_right₀ one_le_two hexponent')
            (by positivity) (by norm_num)
      _ ≤ (2 ^ 55 - 10) * 2 * 2 ^ (968 : Int) :=
          mul_le_mul_of_nonneg_right (by norm_num) (by positivity)
      _ = (2 ^ 55 - 10) * 2 ^ (969 : Int) := by
          rw [show (969 : Int) = 1 + 968 by norm_num, zpow_add₀ two_ne_zero, zpow_one, mul_assoc]

/-- The text of a double has a value in the interval of the double, or is zero. -/
theorem value_decimal_le {l : Layout} {x : Binary64} :
    (l.decimal x).value ≤ x.interval.high * 2 ^ x.interval.exponent := by
  have hmid : x.interval.mid ≤ x.interval.high := by
    simp only [interval]
    omega
  have hzero : Decimal.value ⟨x.isNegative, [.zero], [.zero], none⟩ ≤
      x.interval.high * 2 ^ x.interval.exponent := by
    have hvalue : Decimal.value ⟨x.isNegative, [.zero], [.zero], none⟩ = 0 := by
      rw [Decimal.value]
      exact zero_mul _
    rw [hvalue]
    positivity
  unfold Layout.decimal
  split
  · exact hzero
  · split
    · exact hzero
    · rename_i n k hshortest
      dsimp only
      rw [Layout.value_place l _ (Digit.ofNat_ne_nil n), Digit.value_ofNat, sub_add_cancel,
        add_sub_cancel_right]
      exact Interval.value_le_of_onGrid? hmid (Interval.onGrid?_of_shortest? hshortest)

/-- The whole part of a laid-out double stays below the bound of significands. -/
theorem value_whole_decimal_lt {l : Layout} (hl : l.greatest ≤ 15) (x : Binary64) :
    Digit.value (l.decimal x).whole < Decimal.significandBound := by
  have hzero : Digit.value [.zero] < Decimal.significandBound := by decide
  unfold Layout.decimal
  split
  · exact hzero
  · split
    · exact hzero
    · exact Layout.value_whole_place_lt hl ..

/-- The text of a finite double is read. -/
theorem isSome_toBinary64?_decimal {x : Binary64} (h : x.isFinite = true) :
    (Layout.data.decimal x).toBinary64?.isSome = true := by
  by_cases hgreatest : x ∈ greatest
  · have hall : ∀ y ∈ greatest, (Layout.data.decimal y).toBinary64?.isSome = true := by
      decide +kernel
    exact hall x hgreatest
  · refine Decimal.isSome_toBinary64? ?_
    calc ((Layout.data.decimal x).significand : ℚ) * 10 ^ (Layout.data.decimal x).shift
        ≤ (Layout.data.decimal x).value :=
          Decimal.significand_mul_le (value_whole_decimal_lt (by decide) x)
      _ ≤ x.interval.high * 2 ^ x.interval.exponent := value_decimal_le
      _ ≤ Decimal.safe := high_interval_le h hgreatest

/-- What the text of a double is read as: the double or a neighbour of it. -/
def reread (x : Binary64) : Binary64 := (Layout.data.decimal x).toBinary64?.getD x

/-- A finite double is read from its data form as the double that its text is read as. -/
theorem binary64?_binary64 {x : Binary64} (h : x.isFinite = true) :
    (Json.binary64 x).binary64? = some x.reread := by
  obtain ⟨y, hy⟩ := Option.isSome_iff_exists.1 (isSome_toBinary64?_decimal h)
  rw [Json.binary64, if_pos h, Json.binary64?, reread, hy]
  rfl

end Binary64

/-- A double that was decoded is finite, so its own data form is decoded. -/
theorem Json.binary64?_of_eq_some {j : Json} {x : Binary64} (h : j.binary64? = some x) :
    (Json.binary64 x).binary64? = some x.reread := by
  cases j with
  | num d => exact Binary64.binary64?_binary64 (Decimal.isFinite_of_toBinary64? h)
  | _ => cases h

end Postlink
