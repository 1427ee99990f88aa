import Postlink.Linking

/-!
# Why preparing a program fails
-/

namespace Postlink

/-- Why preparing a program fails. -/
inductive Failure where
  /-- A body cannot be loaded, or an instruction is missing. -/
  | fault (f : Fault)
  /-- The library cannot be linked in. -/
  | link (e : LinkError)
  /-- An operation is called at a type that the target lacks. -/
  | unsupportedOperand (function : String) (op : Intrinsic) (expected found : Ty)
  /-- A call lacks an argument that its replacement needs. -/
  | malformedCall (function callee : String)
  deriving DecidableEq, Repr

namespace Failure

/-- The message of a failure. -/
def message : Failure → String
  | .fault f => "IR error: " ++ f.message
  | .link e => "Link error: " ++ e.message
  | .unsupportedOperand function op expected found =>
      "Unsupported operand in '" ++ function ++ "': " ++ op.text ++ " expects " ++ expected.text
        ++ ", found " ++ found.text
  | .malformedCall function callee =>
      "Malformed call to '" ++ callee ++ "' in '" ++ function ++ "'"

/-- The message of the failure that this one passes on. -/
def cause? : Failure → Option String
  | .fault f => some f.message
  | .link e => some e.message
  | _ => none

end Failure

end Postlink
