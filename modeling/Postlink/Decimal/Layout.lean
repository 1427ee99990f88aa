import Postlink.Decimal.Shortest

/-!
# Laying out the digits of a double

A layout says between which exponents a double is written with a point alone, whether a positive
exponent carries a sign, and which way a tie between two shortest decimals goes. Data files and
listings use different layouts of the same digits.
-/

namespace Postlink

/-- How the shortest digits of a double are written. -/
structure Layout where
  /-- The least exponent written with a point alone. -/
  least : Int
  /-- The greatest exponent written with a point alone. -/
  greatest : Int
  /-- Whether an exponent that is not negative carries a plus sign. -/
  plus : Bool
  /-- Which of two equally near decimals is taken. -/
  tie : Tie

namespace Layout

/-- Data files write `0.00001` and `1000000000000000.0` in full, then `1e-6` and `1e+16`. -/
def data : Layout := ⟨-5, 15, true, .toEven⟩

/-- Listings write `0.0001` and `1000000000000000.0` in full, then `1e-5` and `1e16`. -/
def listing : Layout := ⟨-4, 15, false, .up⟩

/-- The literal with these digits whose first digit stands for ten to the `e`. -/
def place (l : Layout) (negative : Bool) (ds : List Digit) (e : Int) : Decimal :=
  if l.least ≤ e ∧ e ≤ l.greatest then
    if e < 0 then ⟨negative, [.zero], List.replicate (e.natAbs - 1) .zero ++ ds, none⟩
    else
      let points := e.toNat + 1
      let whole := ds.take points ++ List.replicate (points - ds.length) .zero
      let fraction := ds.drop points
      ⟨negative, whole, if fraction.isEmpty then [.zero] else fraction, none⟩
  else ⟨negative, ds.take 1, ds.drop 1, some e⟩

/-- The literal of a finite double. A zero keeps its sign. -/
def decimal (l : Layout) (x : Binary64) : Decimal :=
  if x.isZero then ⟨x.isNegative, [.zero], [.zero], none⟩
  else match x.interval.shortest? l.tie with
    | none => ⟨x.isNegative, [.zero], [.zero], none⟩
    | some (n, k) =>
        let ds := Digit.ofNat n
        l.place x.isNegative ds (k + ds.length - 1)

/-- The text of a double in a layout. -/
def text (l : Layout) (x : Binary64) : String :=
  if x.isFinite then (l.decimal x).text l.plus
  else if x.fractionField = 0 then (if x.isNegative then "-inf" else "inf")
  else "NaN"

end Layout

end Postlink
