import Postlink.Blocks

/-!
# Writing a block from scratch

A draft numbers its instructions from zero and returns each result as an operand for later ones. The
current place in the source is attached to every instruction written under it.
-/

namespace Postlink

/-- A block being written. -/
structure Draft where
  /-- The label of the block. -/
  label : String
  /-- The instructions written so far. -/
  instrs : List Instr
  /-- The place attached to the next instructions. -/
  loc : Option Loc
  deriving DecidableEq, Repr

namespace Draft

/-- An empty draft. -/
def start (label : String) : Draft := ⟨label, [], none⟩

/-- Write an instruction; its identifier is the number of instructions before it. -/
def push (ty : Ty) (kind : InstrKind) (d : Draft) : Operand × Draft :=
  (.inst d.instrs.length, { d with instrs := d.instrs ++ [⟨d.instrs.length, "", ty, kind, d.loc⟩] })

/-- Write a call with the default convention. -/
def call (callee : Operand) (sig : Signature) (args : List Operand) (d : Draft) : Operand × Draft :=
  d.push sig.ret (.call ⟨callee, sig, args, .c⟩)

/-- Write an arithmetic operation. -/
def binary (op : BinaryOp) (ty : Ty) (lhs rhs : Operand) (d : Draft) : Operand × Draft :=
  d.push ty (.binary op lhs rhs)

/-- Write a return. -/
def ret (value : Option Operand) (d : Draft) : Draft := (d.push .void (.ret value)).2

/-- The finished block. -/
def finish (d : Draft) : Block := ⟨d.label, d.instrs⟩

end Draft

end Postlink
