import Postlink.Instr

/-!
# Bodies as lists of blocks

An identifier is looked up in block order and then in instruction order; the first instruction that
carries it is the one meant. Insertion and removal happen at that instruction and leave every other
instruction as it was.

Identifiers have 32 bits. The one after the greatest of them does not exist: it is the first one
again where sums wrap around, and where sums are checked the program stops.
-/

namespace Postlink

/-- What becomes of a sum that has no place in 32 bits. -/
inductive Overflow where
  /-- It wraps around. -/
  | wraps
  /-- The program stops. -/
  | stops
  deriving DecidableEq, Repr

/-- The identifier after another one, unless the program stops there. -/
def Overflow.next? (id : Nat) : Overflow → Option Nat
  | .wraps => some ((id + 1) % UInt32.size)
  | .stops => if id + 1 < UInt32.size then some (id + 1) else none

namespace Instr

/-- Put an instruction in front of the first one with the identifier `before`. -/
def insertBefore (before : Nat) (new : Instr) : List Instr → List Instr
  | [] => []
  | i :: is => if i.id = before then new :: i :: is else i :: insertBefore before new is

/-- Remove the first instruction with an identifier. -/
def erase (id : Nat) : List Instr → List Instr
  | [] => []
  | i :: is => if i.id = id then is else i :: erase id is

/-- The greatest of the identifiers that come after one in use, or the first one of all. -/
def startId? (mode : Overflow) : List Instr → Option Nat
  | [] => some 0
  | i :: is =>
      match mode.next? i.id, startId? mode is with
      | some next, some start => some (max next start)
      | _, _ => none

end Instr

/-- Whether a block has an instruction with an identifier. -/
def Block.has (id : Nat) (b : Block) : Bool := b.instrs.any fun i => i.id = id

/-- The blocks of a body in order. -/
abbrev Blocks := List Block

namespace Blocks

/-- All instructions in order. -/
def instrs (bs : Blocks) : List Instr := bs.flatMap Block.instrs

/-- The instruction with an identifier. -/
def instr? (id : Nat) (bs : Blocks) : Option Instr := bs.instrs.find? fun i => i.id = id

/-- The block and the position in it of the instruction with an identifier. -/
def position? (id : Nat) : Blocks → Option (Nat × Nat)
  | [] => none
  | b :: bs =>
      match b.instrs.findIdx? fun i => i.id = id with
      | some n => some (0, n)
      | none => (position? id bs).map fun p => (p.1 + 1, p.2)

/-- Change every instruction. -/
def mapInstrs (f : Instr → Instr) (bs : Blocks) : Blocks := bs.map (Block.mapInstrs f)

/-- Put an instruction in front of the one with the identifier `before`. -/
def insertBefore (before : Nat) (new : Instr) : Blocks → Blocks
  | [] => []
  | b :: bs =>
      if b.has before then { b with instrs := Instr.insertBefore before new b.instrs } :: bs
      else b :: insertBefore before new bs

/-- Remove the instruction with an identifier. -/
def erase (id : Nat) : Blocks → Blocks
  | [] => []
  | b :: bs =>
      if b.has id then { b with instrs := Instr.erase id b.instrs } :: bs else b :: erase id bs

@[simp] theorem instrs_nil : instrs [] = [] := rfl

@[simp] theorem instrs_cons (b : Block) (bs : Blocks) : instrs (b :: bs) = b.instrs ++ instrs bs :=
  rfl

/-- Changing the blocks changes the instructions. -/
@[simp] theorem instrs_mapInstrs (f : Instr → Instr) (bs : Blocks) :
    (bs.mapInstrs f).instrs = bs.instrs.map f := by
  induction bs with
  | nil => rfl
  | cons b bs ih =>
      show (b.mapInstrs f).instrs ++ instrs (mapInstrs f bs) = _
      rw [ih]
      simp [Block.mapInstrs]

end Blocks

end Postlink
