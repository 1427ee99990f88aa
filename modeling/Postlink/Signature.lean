/-!
# Types and signatures

The types of values: nothing, integers and floats of a width, pointers and functions. A signature is
the result and parameter types that a function type is built from. Types are compared structurally
(`Ty.beq_iff`), written in listings, and mangled into the names of overloaded operations.
-/

namespace Postlink

/-- The type of a value. -/
inductive Ty where
  /-- No value. -/
  | void
  /-- An integer of a width in bits. -/
  | int (width : Nat)
  /-- A floating-point number of a width in bits. -/
  | float (width : Nat)
  /-- A pointer. -/
  | ptr (pointee : Ty)
  /-- A function. -/
  | func (ret : Ty) (params : List Ty)
  deriving Repr

namespace Ty

mutual

/-- Structural comparison. -/
def beq : Ty → Ty → Bool
  | .void, .void => true
  | .int m, .int n => m == n
  | .float m, .float n => m == n
  | .ptr s, .ptr t => s.beq t
  | .func r ps, .func s qs => r.beq s && beqAll ps qs
  | _, _ => false

/-- Comparison of two lists, type by type. -/
def beqAll : List Ty → List Ty → Bool
  | [], [] => true
  | s :: ss, t :: ts => s.beq t && beqAll ss ts
  | _, _ => false

end

mutual

/-- Structural comparison decides equality. -/
theorem beq_iff (s t : Ty) : s.beq t = true ↔ s = t := by
  cases s <;> cases t <;>
    simp [beq, beq_iff _ _, beqAll_iff _ _]

theorem beqAll_iff (ss ts : List Ty) : beqAll ss ts = true ↔ ss = ts := by
  cases ss <;> cases ts <;>
    simp [beqAll, beq_iff _ _, beqAll_iff _ _]

end

instance : DecidableEq Ty := fun s t => decidable_of_iff _ (beq_iff s t)

/-- The width of an integer or a float. -/
def width? : Ty → Option Nat
  | .int n => some n
  | .float n => some n
  | _ => none

/-- Whether the type is an integer type. -/
def isInteger : Ty → Bool
  | .int _ => true
  | _ => false

/-- Whether the type is a floating-point type. -/
def isFloat : Ty → Bool
  | .float _ => true
  | _ => false

mutual

/-- The part of a declaration's name that stands for a type. -/
def mangle : Ty → String
  | .void => "isVoid"
  | .int n => "i" ++ toString n
  | .float n => "f" ++ toString n
  | .ptr t => "p0" ++ t.mangle
  | .func r ps => "f_" ++ r.mangle ++ mangleAll ps ++ "f"

/-- Mangled types one after another. -/
def mangleAll : List Ty → String
  | [] => ""
  | t :: ts => t.mangle ++ mangleAll ts

end

mutual

/-- The type in a listing. The usual widths of floats have names. -/
def text : Ty → String
  | .void => "void"
  | .int n => "i" ++ toString n
  | .float n =>
      if n = 16 then "half" else if n = 32 then "float" else if n = 64 then "double"
      else "f" ++ toString n
  | .ptr t => t.text ++ "*"
  | .func r ps => r.text ++ " (" ++ String.intercalate ", " (texts ps) ++ ")"

/-- The types of a list in a listing. -/
def texts : List Ty → List String
  | [] => []
  | t :: ts => t.text :: texts ts

end

end Ty

/-- The result and parameter types of a function. -/
structure Signature where
  /-- The type of the result. -/
  ret : Ty
  /-- The types of the parameters. -/
  params : List Ty
  deriving DecidableEq, Repr

namespace Signature

/-- The number of parameters. -/
def arity (s : Signature) : Nat := s.params.length

/-- The type of functions with this signature. -/
def toTy (s : Signature) : Ty := .func s.ret s.params

end Signature

end Postlink
