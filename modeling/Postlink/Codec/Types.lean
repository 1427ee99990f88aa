import Postlink.Codec.Fields
import Postlink.Operand

/-!
# Data form of types, constants and operands

Every type has one written form. Decoding accepts that form and its variants as records and arrays;
widths fit in 16 bits, identifiers and indices in 32, and integer constants in 64.
-/

namespace Postlink

open Json

/-- Widths in bits lie below this bound. -/
def widthBound : Nat := 0x10000

/-- Identifiers, indices, lines and columns lie below this bound. -/
def wordBound : Nat := 0x100000000

/-- Integer constants, offsets and lengths lie below this bound. -/
def longBound : Nat := 0x10000000000000000

mutual

/-- The data form of a type. -/
def Ty.encode : Ty → Json
  | .void => .string "Void"
  | .int n => .tagged "Int" (.nat n)
  | .float n => .tagged "Float" (.nat n)
  | .ptr t => .tagged "Ptr" t.encode
  | .func r ps =>
      .tagged "Function" (.record [("ret", r.encode), ("params", .arr (Ty.encodeAll ps))])

/-- The data forms of a list of types. -/
def Ty.encodeAll : List Ty → List Json
  | [] => []
  | t :: ts => t.encode :: Ty.encodeAll ts

end

/-- The data form of a signature. -/
def Signature.encode (s : Signature) : Json :=
  .record [("ret", s.ret.encode), ("params", .arr (Ty.encodeAll s.params))]

/-- A signature, given how to decode its result and its parameters. -/
def Signature.decodeWith? (ret param : Json → Option Ty) (j : Json) : Option Signature := do
  let fs ← j.fields? ["ret", "params"]
  return ⟨← fs.required? "ret" ret, ← fs.required? "params" (items? param)⟩

/-- Decode a type. -/
def Ty.decode? : Nat → Json → Option Ty
  | _, .str (some "Void") => some .void
  | _ + 1, .obj [(some "Void", .null)] => some .void
  | _ + 1, .obj [(some "Int", j)] => (j.nat? widthBound).map .int
  | _ + 1, .obj [(some "Float", j)] => (j.nat? widthBound).map .float
  | depth + 1, .obj [(some "Ptr", j)] => (Ty.decode? depth j).map .ptr
  | depth + 3, .obj [(some "Function", j)] =>
      (Signature.decodeWith? (Ty.decode? (depth + 1)) (Ty.decode? depth) j).map Signature.toTy
  | _, _ => none

/-- Decode a signature. -/
def Signature.decode? : Nat → Json → Option Signature
  | depth + 2, j => Signature.decodeWith? (Ty.decode? (depth + 1)) (Ty.decode? depth) j
  | _, _ => none

/-- The data form of a constant. -/
def Constant.encode : Constant → Json
  | .int width value => .tagged "Int" (.record [("bits", .nat width), ("value", .nat value)])
  | .float width value =>
      .tagged "Float" (.record [("bits", .nat width), ("value", .binary64 value)])
  | .null ty => .tagged "Null" ty.encode
  | .undef ty => .tagged "Undef" ty.encode

/-- Decode a constant. -/
def Constant.decode? : Nat → Json → Option Constant
  | _ + 2, .obj [(some "Int", j)] => do
      let fs ← j.fields? ["bits", "value"]
      return .int (← fs.required? "bits" (nat? widthBound))
        (← fs.required? "value" (nat? longBound))
  | _ + 2, .obj [(some "Float", j)] => do
      let fs ← j.fields? ["bits", "value"]
      return .float (← fs.required? "bits" (nat? widthBound)) (← fs.required? "value" binary64?)
  | depth + 1, .obj [(some "Null", j)] => (Ty.decode? depth j).map .null
  | depth + 1, .obj [(some "Undef", j)] => (Ty.decode? depth j).map .undef
  | _, _ => none

/-- The data form of an operand. -/
def Operand.encode : Operand → Json
  | .inst id => .tagged "Inst" (.nat id)
  | .arg index => .tagged "Arg" (.nat index)
  | .const c => .tagged "Const" c.encode
  | .func name => .tagged "Function" (.string name)
  | .global name => .tagged "Global" (.string name)
  | .cast value ty => .tagged "Cast" (.record [("value", value.encode), ("to", ty.encode)])

/-- Decode an operand. -/
def Operand.decode? : Nat → Json → Option Operand
  | _ + 1, .obj [(some "Inst", j)] => (j.nat? wordBound).map .inst
  | _ + 1, .obj [(some "Arg", j)] => (j.nat? wordBound).map .arg
  | depth + 1, .obj [(some "Const", j)] => (Constant.decode? depth j).map .const
  | _ + 1, .obj [(some "Function", j)] => j.string?.map .func
  | _ + 1, .obj [(some "Global", j)] => j.string?.map .global
  | depth + 2, .obj [(some "Cast", j)] => do
      let fs ← j.fields? ["value", "to"]
      return .cast (← fs.required? "value" (Operand.decode? depth))
        (← fs.required? "to" (Ty.decode? depth))
  | _, _ => none

end Postlink
