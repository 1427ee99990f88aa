import Postlink.Operand

/-!
# Instructions and blocks

An instruction has an identifier inside its function, a type, and a kind: a call, an arithmetic
operation, a conversion or a return. Everything that reads or changes operands goes through
`operands` and `mapOperands`, which agree on their order.
-/

namespace Postlink

/-- How arguments are passed. -/
inductive Convention where
  /-- The default convention. -/
  | c
  /-- The fast convention. -/
  | fast
  /-- A device function. -/
  | spirFunc
  /-- A device entry point. -/
  | spirKernel
  deriving DecidableEq, Repr

/-- The convention in a listing. -/
def Convention.text : Convention → String
  | .c => "ccc"
  | .fast => "fastcc"
  | .spirFunc => "spir_func"
  | .spirKernel => "spir_kernel"

/-- An arithmetic operation. -/
inductive BinaryOp where
  /-- Integer addition. -/
  | add
  /-- Integer subtraction. -/
  | sub
  /-- Integer multiplication. -/
  | mul
  /-- Floating-point addition. -/
  | fadd
  /-- Floating-point subtraction. -/
  | fsub
  /-- Floating-point multiplication. -/
  | fmul
  /-- Floating-point division. -/
  | fdiv
  deriving DecidableEq, Repr

/-- The name of an arithmetic operation. -/
def BinaryOp.name : BinaryOp → String
  | .add => "Add"
  | .sub => "Sub"
  | .mul => "Mul"
  | .fadd => "FAdd"
  | .fsub => "FSub"
  | .fmul => "FMul"
  | .fdiv => "FDiv"

/-- A conversion between types. -/
inductive CastOp where
  /-- Signed integer to float. -/
  | signedToFloat
  /-- Unsigned integer to float. -/
  | unsignedToFloat
  /-- Float to signed integer. -/
  | floatToSigned
  /-- Float to unsigned integer. -/
  | floatToUnsigned
  /-- The same bits at another type. -/
  | bitcast
  deriving DecidableEq, Repr

/-- The name of a conversion. -/
def CastOp.name : CastOp → String
  | .signedToFloat => "SIToFP"
  | .unsignedToFloat => "UIToFP"
  | .floatToSigned => "FPToSI"
  | .floatToUnsigned => "FPToUI"
  | .bitcast => "Bitcast"

/-- A place in the source of the program. -/
structure Loc where
  /-- The line. -/
  line : Nat
  /-- The column. -/
  column : Nat
  /-- The enclosing scope, if known. -/
  scope : Option String
  deriving DecidableEq, Repr

/-- A call. -/
structure Call where
  /-- What is called. -/
  callee : Operand
  /-- The signature the call expects. -/
  sig : Signature
  /-- The arguments. -/
  args : List Operand
  /-- How the arguments are passed. -/
  conv : Convention
  deriving DecidableEq, Repr

/-- What an instruction does. -/
inductive InstrKind where
  /-- Call a function. -/
  | call (c : Call)
  /-- Combine two values. -/
  | binary (op : BinaryOp) (lhs rhs : Operand)
  /-- Convert a value. -/
  | cast (op : CastOp) (value : Operand)
  /-- Return from the function, possibly with a value. -/
  | ret (value : Option Operand)
  deriving DecidableEq, Repr

namespace InstrKind

/-- The operands in order; a call's callee comes first. -/
def operands : InstrKind → List Operand
  | .call c => c.callee :: c.args
  | .binary _ lhs rhs => [lhs, rhs]
  | .cast _ value => [value]
  | .ret value => value.toList

/-- Change every operand. -/
def mapOperands (f : Operand → Operand) : InstrKind → InstrKind
  | .call c => .call { c with callee := f c.callee, args := c.args.map f }
  | .binary op lhs rhs => .binary op (f lhs) (f rhs)
  | .cast op value => .cast op (f value)
  | .ret value => .ret (value.map f)

/-- The operands after a change are the changed operands. -/
theorem operands_mapOperands (f : Operand → Operand) (k : InstrKind) :
    (k.mapOperands f).operands = k.operands.map f := by
  cases k with
  | ret value => cases value <;> rfl
  | _ => rfl

/-- Change a call and nothing else. -/
def mapCall (f : Call → Call) : InstrKind → InstrKind
  | .call c => .call (f c)
  | k => k

/-- The call, if it is one. -/
def call? : InstrKind → Option Call
  | .call c => some c
  | _ => none

end InstrKind

/-- An instruction. -/
structure Instr where
  /-- The identifier inside its function. -/
  id : Nat
  /-- A name for readers, possibly empty. -/
  name : String
  /-- The type of the result. -/
  ty : Ty
  /-- What the instruction does. -/
  kind : InstrKind
  /-- The place it was compiled from, if known. -/
  loc : Option Loc
  deriving DecidableEq, Repr

/-- The function that a call names without a cast. -/
def Call.direct? (c : Call) : Option String :=
  match c.callee with
  | .func name => some name
  | _ => none

namespace Instr

/-- The operands in order. -/
def operands (i : Instr) : List Operand := i.kind.operands

/-- Change every operand. -/
def mapOperands (f : Operand → Operand) (i : Instr) : Instr :=
  { i with kind := i.kind.mapOperands f }

/-- Change the call, if the instruction is one. -/
def mapCall (f : Call → Call) (i : Instr) : Instr := { i with kind := i.kind.mapCall f }

/-- The call, if the instruction is one. -/
def call? (i : Instr) : Option Call := i.kind.call?

/-- The function that the instruction calls by name. -/
def called? (i : Instr) : Option String := i.call?.bind Call.direct?

/-- The arguments of a call; other instructions have none. -/
def args (i : Instr) : List Operand := (i.call?.map Call.args).getD []

/-- Changing every operand changes the list of operands element by element. -/
@[simp] theorem operands_mapOperands (f : Operand → Operand) (i : Instr) :
    (i.mapOperands f).operands = i.operands.map f :=
  i.kind.operands_mapOperands f

@[simp] theorem id_mapOperands (f : Operand → Operand) (i : Instr) : (i.mapOperands f).id = i.id :=
  rfl

@[simp] theorem id_mapCall (f : Call → Call) (i : Instr) : (i.mapCall f).id = i.id := rfl

/-- What the instruction does, in a listing. -/
def action (i : Instr) : String :=
  match i.kind with
  | .call c =>
      "call " ++ c.conv.text ++ " " ++ i.ty.text ++ " " ++ c.callee.text ++ "("
        ++ String.intercalate ", " (c.args.map Operand.text) ++ ")"
  | .binary op lhs rhs => op.name ++ " " ++ i.ty.text ++ " " ++ lhs.text ++ ", " ++ rhs.text
  | .cast op value => op.name ++ " " ++ value.text ++ " to " ++ i.ty.text
  | .ret (some value) => "ret " ++ value.text
  | .ret none => "ret void"

/-- The instruction in a listing: result, action, name and place. -/
def text (i : Instr) : String :=
  (if i.ty = .void then "" else "%" ++ toString i.id ++ " = ") ++ i.action
    ++ (if i.name.isEmpty then "" else " ; " ++ i.name)
    ++ (match i.loc with
      | none => ""
      | some loc => " !dbg " ++ toString loc.line ++ ":" ++ toString loc.column)

end Instr

/-- A straight-line sequence of instructions. -/
structure Block where
  /-- The label of the block. -/
  label : String
  /-- The instructions in order. -/
  instrs : List Instr
  deriving DecidableEq, Repr

namespace Block

/-- Change every instruction. -/
def mapInstrs (f : Instr → Instr) (b : Block) : Block := { b with instrs := b.instrs.map f }

/-- The block in a listing. -/
def text (b : Block) : String :=
  b.label ++ ":\n" ++ String.join (b.instrs.map fun i => "  " ++ i.text ++ "\n")

end Block

end Postlink
