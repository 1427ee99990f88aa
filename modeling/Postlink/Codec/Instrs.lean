import Postlink.Codec.Types
import Postlink.Blocks

/-!
# Data form of instructions and blocks

Names, places and scopes that are absent are not written; a convention always is.
-/

namespace Postlink

open Json

/-- All conventions. -/
def Convention.all : List Convention := [.c, .fast, .spirFunc, .spirKernel]

/-- The name of a convention in data. -/
def Convention.key : Convention → String
  | .c => "C"
  | .fast => "Fast"
  | .spirFunc => "SpirFunc"
  | .spirKernel => "SpirKernel"

/-- Decode a convention. -/
def Convention.decode? : Nat → Json → Option Convention := choice? Convention.all Convention.key

/-- All arithmetic operations. -/
def BinaryOp.all : List BinaryOp := [.add, .sub, .mul, .fadd, .fsub, .fmul, .fdiv]

/-- Decode an arithmetic operation. -/
def BinaryOp.decode? : Nat → Json → Option BinaryOp := choice? BinaryOp.all BinaryOp.name

/-- All conversions. -/
def CastOp.all : List CastOp :=
  [.signedToFloat, .unsignedToFloat, .floatToSigned, .floatToUnsigned, .bitcast]

/-- Decode a conversion. -/
def CastOp.decode? : Nat → Json → Option CastOp := choice? CastOp.all CastOp.name

/-- The data form of a place. -/
def Loc.encode (l : Loc) : Json :=
  .record ([("line", .nat l.line), ("column", .nat l.column)]
    ++ l.scope.toList.map fun s => ("scope", .string s))

/-- Decode a place. -/
def Loc.decode? : Nat → Json → Option Loc
  | _ + 1, j => do
      let fs ← j.fields? ["line", "column", "scope"]
      return ⟨← fs.required? "line" (nat? wordBound), ← fs.required? "column" (nat? wordBound),
        ← fs.optional? "scope" none (orNull? string?)⟩
  | _, _ => none

/-- The data form of what an instruction does. -/
def InstrKind.encode : InstrKind → Json
  | .call c =>
      .tagged "Call" (.record [("callee", c.callee.encode), ("fn_ty", c.sig.encode),
        ("args", .arr (c.args.map Operand.encode)), ("conv", .string c.conv.key)])
  | .binary op lhs rhs =>
      .tagged "Binary"
        (.record [("op", .string op.name), ("lhs", lhs.encode), ("rhs", rhs.encode)])
  | .cast op value =>
      .tagged "Cast" (.record [("op", .string op.name), ("value", value.encode)])
  | .ret value => .tagged "Ret" (.ofOption Operand.encode value)

/-- Decode what an instruction does. -/
def InstrKind.decode? : Nat → Json → Option InstrKind
  | depth + 2, .obj [(some "Call", j)] => do
      let fs ← j.fields? ["callee", "fn_ty", "args", "conv"]
      return .call ⟨← fs.required? "callee" (Operand.decode? depth),
        ← fs.required? "fn_ty" (Signature.decode? depth),
        ← fs.required? "args" (list? Operand.decode? depth),
        ← fs.optional? "conv" .c (Convention.decode? depth)⟩
  | depth + 2, .obj [(some "Binary", j)] => do
      let fs ← j.fields? ["op", "lhs", "rhs"]
      return .binary (← fs.required? "op" (BinaryOp.decode? depth))
        (← fs.required? "lhs" (Operand.decode? depth))
          (← fs.required? "rhs" (Operand.decode? depth))
  | depth + 2, .obj [(some "Cast", j)] => do
      let fs ← j.fields? ["op", "value"]
      return .cast (← fs.required? "op" (CastOp.decode? depth))
        (← fs.required? "value" (Operand.decode? depth))
  | depth + 1, .obj [(some "Ret", j)] => (orNull? (Operand.decode? depth) j).map .ret
  | _, _ => none

/-- The data form of an instruction. -/
def Instr.encode (i : Instr) : Json :=
  .record ([("id", .nat i.id)] ++ (if i.name.isEmpty then [] else [("name", .string i.name)])
    ++ [("ty", i.ty.encode), ("kind", i.kind.encode)]
    ++ i.loc.toList.map fun l => ("loc", l.encode))

/-- Decode an instruction. -/
def Instr.decode? : Nat → Json → Option Instr
  | depth + 1, j => do
      let fs ← j.fields? ["id", "name", "ty", "kind", "loc"]
      return ⟨← fs.required? "id" (nat? wordBound), ← fs.optional? "name" "" string?,
        ← fs.required? "ty" (Ty.decode? depth), ← fs.required? "kind" (InstrKind.decode? depth),
        ← fs.optional? "loc" none (orNull? (Loc.decode? depth))⟩
  | _, _ => none

/-- The data form of a block. -/
def Block.encode (b : Block) : Json :=
  .record [("label", .string b.label), ("insts", .arr (b.instrs.map Instr.encode))]

/-- Decode a block. -/
def Block.decode? : Nat → Json → Option Block
  | depth + 1, j => do
      let fs ← j.fields? ["label", "insts"]
      return ⟨← fs.required? "label" string?, ← fs.required? "insts" (list? Instr.decode? depth)⟩
  | _, _ => none

/-- The data form of a body's blocks. -/
def Blocks.encode (bs : Blocks) : Json := .arr (bs.map Block.encode)

/-- Decode the blocks of a body. -/
def Blocks.decode? : Nat → Json → Option Blocks := list? Block.decode?

/-- The blocks that a text writes. -/
def Blocks.read? (s : List UInt8) : Option Blocks := (parse? s).bind (Blocks.decode? nestingLimit)

end Postlink
