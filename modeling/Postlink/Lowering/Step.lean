import Postlink.Module

/-!
# Calls and what stands in for them

A direct call names the function it calls without a cast. Its replacement is a list of steps, each
of which becomes one instruction; a step may take the result of the step before it.
-/

namespace Postlink

/-- A direct call: an instruction, the call that it is, and the function called. -/
structure DirectCall where
  /-- The instruction. -/
  instr : Instr
  /-- The call. -/
  call : Call
  /-- The function called. -/
  callee : String
  deriving DecidableEq, Repr

/-- The instruction as a direct call. -/
def Instr.directCall? (i : Instr) : Option DirectCall := do
  let c ← i.call?
  let callee ← c.direct?
  return ⟨i, c, callee⟩

/-- The direct calls of a function in order. -/
def Func.directCalls (f : Func) : List DirectCall := f.instrs.filterMap Instr.directCall?

/-- An argument of a replacement. -/
inductive Source where
  /-- A value of the old call. -/
  | value (o : Operand)
  /-- The result of the replacement just before. -/
  | previous
  deriving DecidableEq, Repr

/-- One instruction of a replacement. -/
inductive Step where
  /-- Call an intrinsic at overload types. -/
  | intrinsic (op : Intrinsic) (tys : List Ty) (args : List Source)
  /-- Combine two values. -/
  | binary (op : BinaryOp) (ty : Ty) (lhs rhs : Operand)
  /-- Convert a value. -/
  | convert (op : CastOp) (ty : Ty) (value : Operand)
  deriving DecidableEq, Repr

/-- All arguments of the old call. -/
def DirectCall.sources (site : DirectCall) : List Source := site.call.args.map .value

namespace Step

/-- Call an intrinsic at as many of some types as it takes. -/
def atTypes (op : Intrinsic) (tys : List Ty) (args : List Source) : Step :=
  .intrinsic op (tys.take op.overloads) args

/-- Declare what the step calls. -/
def declare (m : Module) : Step → Module
  | .intrinsic op tys _ => m.declareIntrinsic op tys
  | _ => m

/-- The values of a step's arguments, given the result of the step before. -/
def values (previous : Option Operand) (args : List Source) : List Operand :=
  args.filterMap fun
    | .value o => some o
    | .previous => previous

/-- The type and the kind of the instruction that a step stands for. -/
def instruction (previous : Option Operand) : Step → Ty × InstrKind
  | .intrinsic op tys args =>
      ((op.signature tys).ret,
        .call ⟨.func (op.declName tys), op.signature tys, values previous args, .c⟩)
  | .binary op ty lhs rhs => (ty, .binary op lhs rhs)
  | .convert op ty value => (ty, .cast op value)

end Step

end Postlink
