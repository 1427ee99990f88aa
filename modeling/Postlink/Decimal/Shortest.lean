import Postlink.Decimal.Binary64

/-!
# The fewest digits that determine a double

The reals that round to a positive double form an interval around it. The decimal chosen for the
double is a multiple of the largest power of ten that has a multiple inside that interval; if both
neighbours of the double on that grid lie inside, it is the nearer one. All comparisons are made on
natural numbers, so nothing is rounded on the way.
-/

namespace Postlink

/-- What to do when a value lies halfway between two candidates. -/
inductive Tie where
  /-- Take the even candidate. -/
  | toEven
  /-- Take the larger candidate. -/
  | up
  deriving DecidableEq, Repr

/-- The reals that round to a positive double, in units of a power of two. -/
structure Interval where
  /-- The lower end. -/
  low : Nat
  /-- The double itself. -/
  mid : Nat
  /-- The upper end. -/
  high : Nat
  /-- The unit is two to this power. -/
  exponent : Int
  /-- Whether the ends belong to the interval. -/
  closed : Bool
  deriving DecidableEq, Repr

namespace Interval

/-- Whether `a` may stand below `b` at an end of the interval. -/
def reaches (i : Interval) (a b : Nat) : Bool := a < b || (i.closed && a == b)

/-- The multiple of `10 ^ k` chosen inside the interval, as a count of that power. -/
def onGrid? (tie : Tie) (i : Interval) (k : Int) : Option Nat :=
  let scale := Nat.pow 2 i.exponent.toNat * Nat.pow 10 (-k).toNat
  let unit := Nat.pow 2 (-i.exponent).toNat * Nat.pow 10 k.toNat
  let value := i.mid * scale
  let below := value / unit
  let above := below + 1
  let rest := value - below * unit
  let belowIn := i.reaches (i.low * scale) (below * unit)
  let aboveIn := i.reaches (above * unit) (i.high * scale)
  if belowIn && aboveIn then
    if 2 * rest < unit then some below
    else if unit < 2 * rest then some above
    else match tie with
      | .toEven => some (if below % 2 = 0 then below else above)
      | .up => some above
  else if belowIn then some below
  else if aboveIn then some above
  else none

/-- The exponents of ten to try, from the coarsest grid any double needs to the finest. -/
def grids : List Int := (List.range 634).map fun i : Nat => (309 : Int) - i

/-- The coarsest grid with a multiple inside the interval, and that multiple. -/
def shortest? (tie : Tie) (i : Interval) : Option (Nat × Int) :=
  grids.findSome? fun k => (i.onGrid? tie k).map fun n => (n, k)

end Interval

namespace Binary64

/-- Whether the sign bit is set. -/
def isNegative (x : Binary64) : Bool := x.bits >>> 63 == 1

/-- The exponent bits. -/
def exponentField (x : Binary64) : Nat := ((x.bits >>> 52) &&& 0x7ff).toNat

/-- The fraction bits. -/
def fractionField (x : Binary64) : Nat := (x.bits &&& 0xfffffffffffff).toNat

/-- Neither an infinity nor a NaN. -/
def isFinite (x : Binary64) : Bool := x.exponentField != 0x7ff

/-- A zero of either sign. -/
def isZero (x : Binary64) : Bool := x.exponentField == 0 && x.fractionField == 0

/-- The interval of reals that round to the magnitude of a finite double other than zero. Below a
power of two the neighbour is half as far away. -/
def interval (x : Binary64) : Interval :=
  let e := x.exponentField
  let f := x.fractionField
  let m := if e = 0 then f else f + 0x10000000000000
  { low := 4 * m - (if f = 0 && 1 < e then 1 else 2)
    mid := 4 * m
    high := 4 * m + 2
    exponent := (max e 1 : Nat) - 1077
    closed := m % 2 = 0 }

end Binary64

end Postlink
