import Postlink.Decimal.Basic

/-!
# Reading a decimal literal as a double

A double is held as its bits. A literal is read in two roundings: the leading digits that fit in 64
bits give a whole significand, which is rounded to a double, and the result is multiplied or divided
by a power of ten, itself a double. The second step rounds again, so the answer can be a neighbour
of the nearest double. A literal too large for any double has no reading, and one too small reads as
zero.
-/

namespace Postlink

/-- A 64-bit floating-point number, held as its bits. -/
structure Binary64 where
  /-- Sign, exponent and fraction, from the most significant bit down. -/
  bits : UInt64
  deriving DecidableEq, Repr

namespace Binary64

/-- The bits of a float. -/
def ofFloat (x : Float) : Binary64 := ⟨x.toBits⟩

/-- The float with these bits. -/
def toFloat (x : Binary64) : Float := Float.ofBits x.bits

/-- The bits of the nearest 32-bit float; what is too large becomes an infinity. -/
def narrow (x : Binary64) : UInt32 := x.toFloat.toFloat32.toBits

end Binary64

namespace Decimal

/-- The largest exponent at which a power of ten is a finite double. -/
def topPower : Nat := 308

/-- The double nearest to a power of ten. -/
def powerOfTen (k : Nat) : Float := Float.ofScientific 1 false k

/-- `x` times ten to the `k`, unless that is too large. -/
def scaleUp? (x : Float) (k : Nat) : Option Float :=
  if k ≤ topPower then
    let y := x * powerOfTen k
    if y.isInf then none else some y
  else if x == 0 then some x else none

/-- `x` divided by ten to the `k`, in steps of the largest power while one step is not enough. -/
def scaleDown (x : Float) (k : Nat) : Float :=
  if k ≤ topPower then x / powerOfTen k
  else if x == 0 then x
  else scaleDown (x / powerOfTen topPower) (k - topPower)
termination_by k
decreasing_by simp only [topPower] at *; omega

/-- Significands lie below this bound, which is two to the 64. -/
def significandBound : Nat := 0x10000000000000000

/-- Append digits to a significand while it stays below the bound; also the digits left over. -/
def absorb (significand : Nat) : List Digit → Nat × List Digit
  | [] => (significand, [])
  | d :: ds =>
      if 10 * significand + d.val < significandBound then absorb (10 * significand + d.val) ds
      else (significand, d :: ds)

/-- The double that a literal is read as, if it is not too large. -/
def toBinary64? (d : Decimal) : Option Binary64 :=
  let (head, dropped) := absorb 0 d.whole
  let (significand, unused) := absorb head d.fraction
  let shift : Int := dropped.length - (d.fraction.length - unused.length) + d.exponent.getD 0
  let x := significand.toUInt64.toFloat
  let scaled := if 0 ≤ shift then scaleUp? x shift.toNat else some (scaleDown x shift.natAbs)
  scaled.map fun y => .ofFloat (if d.negative then -y else y)

end Decimal

end Postlink
