import Postlink.Decimal.Layout
import Postlink.Signature

/-!
# Constants and operands

An operand of an instruction is the result of another instruction, an argument, a constant, a named
symbol, or a pointer cast of another operand. Casts hide nothing: `base` looks through them, and
renaming reaches the symbol below them.
-/

namespace Postlink

/-- A constant. -/
inductive Constant where
  /-- An integer of a width. -/
  | int (width value : Nat)
  /-- A floating-point number of a width. -/
  | float (width : Nat) (value : Binary64)
  /-- The null value of a type. -/
  | null (ty : Ty)
  /-- An unspecified value of a type. -/
  | undef (ty : Ty)
  deriving DecidableEq, Repr

namespace Constant

/-- A 32-bit integer. -/
def word (value : Nat) : Constant := .int 32 value

/-- The value of an integer constant. -/
def toNat? : Constant → Option Nat
  | .int _ value => some value
  | _ => none

/-- The constant in a listing. -/
def text : Constant → String
  | .int width value => "i" ++ toString width ++ " " ++ toString value
  | .float width value => "f" ++ toString width ++ " " ++ Layout.listing.text value
  | .null ty => ty.text ++ " null"
  | .undef ty => ty.text ++ " undef"

end Constant

/-- An operand of an instruction. -/
inductive Operand where
  /-- The result of an instruction of the same function. -/
  | inst (id : Nat)
  /-- An argument of the function. -/
  | arg (index : Nat)
  /-- A constant. -/
  | const (c : Constant)
  /-- The address of a function. -/
  | func (name : String)
  /-- The address of a global variable. -/
  | global (name : String)
  /-- A pointer cast. -/
  | cast (value : Operand) (ty : Ty)
  deriving DecidableEq, Repr

namespace Operand

/-- The operand below all pointer casts. -/
def base : Operand → Operand
  | .cast value _ => value.base
  | o => o

/-- The function that an operand names, possibly through casts. -/
def func? (o : Operand) : Option String :=
  match o.base with
  | .func name => some name
  | _ => none

/-- Rename a function, also below casts. -/
def rename (old new : String) : Operand → Operand
  | .func name => .func (if name = old then new else name)
  | .cast value ty => .cast (value.rename old new) ty
  | o => o

/-- The operand in a listing. -/
def text : Operand → String
  | .inst id => "%" ++ toString id
  | .arg index => "%arg" ++ toString index
  | .const c => c.text
  | .func name => "@" ++ name
  | .global name => "@" ++ name
  | .cast value ty => "bitcast (" ++ value.text ++ " to " ++ ty.text ++ ")"

/-- Renaming renames the function that an operand names. -/
theorem func?_rename (old new : String) (o : Operand) :
    (o.rename old new).func? = o.func?.map fun name => if name = old then new else name := by
  induction o with
  | cast value ty ih => exact ih
  | _ => rfl

end Operand

end Postlink
