/-!
# Decimal literals

A decimal literal is kept as it is written: a sign, the digits before the point, the digits after it
and an exponent of ten. Reading it as a number is a separate question, so a literal that is too
large for every machine format is still a literal.
-/

namespace Postlink

/-- A decimal digit. -/
abbrev Digit := Fin 10

namespace Digit

/-- The digit zero. -/
def zero : Digit := ⟨0, by decide⟩

/-- The character that writes a digit. -/
def char (d : Digit) : Char := Char.ofNat (48 + d.val)

/-- The digit that a byte of text writes. -/
def ofByte? (b : UInt8) : Option Digit :=
  if h : 48 ≤ b.toNat ∧ b.toNat < 58 then some ⟨b.toNat - 48, by omega⟩ else none

/-- The number that a digit list writes, most significant digit first. -/
def value (ds : List Digit) : Nat := ds.foldl (fun n d => 10 * n + d.val) 0

/-- The digits of a number, most significant first and without a leading zero. -/
def ofNat (n : Nat) : List Digit :=
  if n < 10 then [Fin.ofNat 10 n] else ofNat (n / 10) ++ [Fin.ofNat 10 n]

/-- One more digit multiplies by ten and adds. -/
theorem value_concat (ds : List Digit) (d : Digit) : value (ds ++ [d]) = 10 * value ds + d.val := by
  simp [value]

/-- The digits of a number write that number. -/
theorem value_ofNat (n : Nat) : value (ofNat n) = n := by
  fun_induction ofNat n with
  | case1 n h => simp [value, Nat.mod_eq_of_lt h]
  | case2 n h ih =>
      rw [value_concat, ih]
      simp only [Fin.val_ofNat]
      omega

/-- Every number has a digit. -/
theorem ofNat_ne_nil (n : Nat) : ofNat n ≠ [] := by
  rw [ofNat]
  split <;> simp

end Digit

/-- A decimal literal. -/
structure Decimal where
  /-- Whether a minus sign stands in front. -/
  negative : Bool
  /-- The digits before the point. -/
  whole : List Digit
  /-- The digits after the point, none when there is no point. -/
  fraction : List Digit
  /-- The exponent of ten, if one is written. -/
  exponent : Option Int
  deriving DecidableEq, Repr

namespace Decimal

/-- The literal of a natural number. -/
def ofNat (n : Nat) : Decimal := ⟨false, Digit.ofNat n, [], none⟩

/-- The natural number below `bound` that a literal writes without sign, point or exponent. -/
def toNat? (bound : Nat) (d : Decimal) : Option Nat :=
  if d.negative || !d.fraction.isEmpty || d.exponent.isSome then none
  else if Digit.value d.whole < bound then some (Digit.value d.whole) else none

/-- A number below the bound is read back from its literal. -/
theorem toNat?_ofNat {n bound : Nat} (h : n < bound) : toNat? bound (ofNat n) = some n := by
  simp [toNat?, ofNat, Digit.value_ofNat, h]

/-- Nothing at or above the bound is read. -/
theorem lt_of_toNat?_eq_some {d : Decimal} {n bound : Nat} (h : toNat? bound d = some n) :
    n < bound := by
  unfold toNat? at h
  split at h
  · exact absurd h (by simp)
  · split at h
    · cases h; assumption
    · exact absurd h (by simp)

/-- The text of a digit list. -/
def digitsText (ds : List Digit) : String := String.ofList (ds.map Digit.char)

/-- The text of an exponent; `plus` asks for the sign of an exponent that is not negative. -/
def exponentText (plus : Bool) (e : Int) : String :=
  "e" ++ (if e < 0 then "-" else if plus then "+" else "") ++ digitsText (Digit.ofNat e.natAbs)

/-- The text of a literal. -/
def text (plus : Bool) (d : Decimal) : String :=
  (if d.negative then "-" else "") ++ digitsText d.whole
    ++ (if d.fraction.isEmpty then "" else "." ++ digitsText d.fraction)
    ++ (match d.exponent with
      | none => ""
      | some e => exponentText plus e)

end Decimal

end Postlink
