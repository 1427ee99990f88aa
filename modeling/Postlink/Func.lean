import Postlink.Blocks
import Postlink.Intrinsic

/-!
# Functions

A function is declared only, or defined by blocks, or defined by a body that is still stored in an
archive. Each function hands out identifiers for new instructions from a counter. The counter starts
after the identifiers in its body, and from then on it goes its own way.
-/

namespace Postlink

/-- Who may refer to a symbol. -/
inductive Linkage where
  /-- Other modules too. -/
  | external
  /-- Only its own module. -/
  | internal
  deriving DecidableEq, Repr

/-- The linkage in a listing. -/
def Linkage.text : Linkage → String
  | .external => ""
  | .internal => "internal "

/-- A stretch of bytes. -/
structure Span where
  /-- Where it starts. -/
  offset : Nat
  /-- How many bytes it has. -/
  length : Nat
  deriving DecidableEq, Repr

/-- A body that is still encoded in the body section of an archive. -/
structure StoredBody where
  /-- The whole body section. -/
  bytes : List UInt8
  /-- Where in the section this body lies. -/
  span : Span
  deriving DecidableEq, Repr

/-- The encoded blocks. -/
def StoredBody.slice (s : StoredBody) : List UInt8 :=
  (s.bytes.drop s.span.offset).take s.span.length

/-- What is known of a function's body. -/
inductive Body where
  /-- There is none in this module. -/
  | declared
  /-- These blocks. -/
  | loaded (blocks : Blocks)
  /-- Blocks not decoded yet. -/
  | stored (s : StoredBody)
  deriving DecidableEq, Repr

namespace Body

/-- The blocks that are loaded. -/
def blocks : Body → Blocks
  | .loaded bs => bs
  | _ => []

/-- Change the blocks that are loaded. -/
def mapBlocks (f : Blocks → Blocks) : Body → Body
  | .loaded bs => .loaded (f bs)
  | b => b

/-- Whether there is no body. -/
def isDeclared : Body → Bool
  | .declared => true
  | _ => false

/-- Whether the blocks are known. -/
def isLoaded : Body → Bool
  | .loaded _ => true
  | _ => false

/-- Whether the body is still in an archive. -/
def isStored : Body → Bool
  | .stored _ => true
  | _ => false

@[simp] theorem isStored_mapBlocks (f : Blocks → Blocks) (b : Body) :
    (b.mapBlocks f).isStored = b.isStored := by
  cases b <;> rfl

end Body

/-- Why an operation on a module fails. -/
inductive Fault where
  /-- A stored body does not decode. -/
  | unreadableBody (function : String)
  /-- No function has this name. -/
  | unknownFunction (name : String)
  /-- No instruction of the function has this identifier. -/
  | unknownInstr (function : String) (id : Nat)
  /-- There is no next identifier, and the program stops. -/
  | overflow
  deriving DecidableEq, Repr

/-- The message of a fault. -/
def Fault.message : Fault → String
  | .unreadableBody function => "failed to materialize '" ++ function ++ "': "
  | .unknownFunction name => "unknown function '" ++ name ++ "'"
  | .unknownInstr function id =>
      "no instruction %" ++ toString id ++ " in function '" ++ function ++ "'"
  | .overflow => "attempt to add with overflow"

/-- A function. -/
structure Func where
  /-- The name. -/
  name : String
  /-- The signature. -/
  sig : Signature
  /-- How it receives its arguments. -/
  conv : Convention
  /-- Who may refer to it. -/
  linkage : Linkage
  /-- Whether it is an entry point of the finished program. -/
  exported : Bool
  /-- Attributes, kept as they are. -/
  attributes : List String
  /-- The operation it declares, if any. -/
  intrinsic : Option Intrinsic
  /-- Names of the leading parameters. -/
  params : List String
  /-- The body. -/
  body : Body
  /-- The next fresh identifier, once one has been taken. -/
  nextId : Option Nat
  deriving DecidableEq, Repr

namespace Func

/-- A declaration with every property at its default. -/
def declare (name : String) (sig : Signature) : Func :=
  ⟨name, sig, .c, .external, false, [], none, [], .declared, none⟩

/-- A definition with every other property at its default. -/
def define (name : String) (sig : Signature) (blocks : Blocks) : Func :=
  { declare name sig with body := .loaded blocks }

/-- The declaration of an intrinsic at some overload types. -/
def ofIntrinsic (op : Intrinsic) (tys : List Ty) : Func :=
  { declare (op.declName tys) (op.signature tys) with intrinsic := some op }

/-- The declaration of an intrinsic, if there are overload types enough for its signature. -/
def ofIntrinsic? (op : Intrinsic) (tys : List Ty) : Option Func :=
  if op.overloads ≤ tys.length then some (ofIntrinsic op tys) else none

/-- Whether the function has no body here. -/
def isDeclared (f : Func) : Bool := f.body.isDeclared

/-- Whether the body is still in an archive. -/
def isStored (f : Func) : Bool := f.body.isStored

/-- The loaded blocks. -/
def blocks (f : Func) : Blocks := f.body.blocks

/-- The loaded instructions in order. -/
def instrs (f : Func) : List Instr := f.blocks.instrs

/-- The loaded instruction with an identifier. -/
def instr? (id : Nat) (f : Func) : Option Instr := f.blocks.instr? id

/-- Change every loaded instruction. -/
def mapInstrs (g : Instr → Instr) (f : Func) : Func :=
  { f with body := f.body.mapBlocks (Blocks.mapInstrs g) }

/-- The identifier to hand out next. -/
def nextId? (mode : Overflow) (f : Func) : Option Nat :=
  match f.nextId with
  | some id => some id
  | none => Instr.startId? mode f.instrs

/-- Take a fresh identifier and set the counter to the one after it. -/
def freshId (mode : Overflow) (f : Func) : Except Fault (Nat × Func) :=
  match f.nextId? mode with
  | none => .error .overflow
  | some id =>
      match mode.next? id with
      | none => .error .overflow
      | some next => .ok (id, { f with nextId := some next })

/-- Insert an instruction under a fresh identifier, in front of the one with the identifier
`before`. -/
def insertBefore (mode : Overflow) (before : Nat) (new : Instr) (f : Func) :
    Except Fault (Nat × Func) :=
  match f.instr? before with
  | none => .error (.unknownInstr f.name before)
  | some _ =>
      (f.freshId mode).map fun fresh =>
        (fresh.1, { fresh.2 with
          body := fresh.2.body.mapBlocks (Blocks.insertBefore before { new with id := fresh.1 }) })

/-- Replace an operand that is exactly the result of instruction `id`. -/
def replaceUses (id : Nat) (value : Operand) (f : Func) : Func :=
  f.mapInstrs (Instr.mapOperands fun o => if o = .inst id then value else o)

/-- Remove the instruction with an identifier. -/
def eraseInstr (id : Nat) (f : Func) : Func :=
  { f with body := f.body.mapBlocks (Blocks.erase id) }

/-- The operands of the loaded instructions in order. -/
def operands (f : Func) : List Operand := f.instrs.flatMap Instr.operands

/-- How often the loaded instructions name a function, also below casts. -/
def usesOf (name : String) (f : Func) : Nat := f.operands.countP fun o => o.func? = some name

/-- Rename a function wherever the loaded instructions name it. -/
def renameRefs (old new : String) (f : Func) : Func :=
  f.mapInstrs (Instr.mapOperands (Operand.rename old new))

/-- The parameter list in a listing: types, followed by names while there are any. -/
def paramTexts : List Ty → List String → List String
  | [], _ => []
  | t :: ts, [] => t.text :: paramTexts ts []
  | t :: ts, n :: ns => (t.text ++ " %" ++ n) :: paramTexts ts ns

/-- The body in a listing. -/
def bodyText : Body → String
  | .declared => "\n"
  | .stored _ => " ; not materialized\n"
  | .loaded bs => " \x7b\n" ++ String.join (bs.map Block.text) ++ "\x7d\n"

/-- The function in a listing. -/
def text (f : Func) : String :=
  (if f.isDeclared then "declare " else "define ") ++ f.linkage.text ++ f.conv.text ++ " "
    ++ f.sig.ret.text ++ " @" ++ f.name ++ "("
    ++ String.intercalate ", " (paramTexts f.sig.params f.params) ++ ")"
    ++ (if f.exported then " dllexport" else "") ++ bodyText f.body

@[simp] theorem name_mapInstrs (g : Instr → Instr) (f : Func) : (f.mapInstrs g).name = f.name := rfl

@[simp] theorem isStored_mapInstrs (g : Instr → Instr) (f : Func) :
    (f.mapInstrs g).isStored = f.isStored := by
  simp [isStored, mapInstrs]

/-- Changing the instructions of a function changes the list of its instructions. -/
@[simp] theorem instrs_mapInstrs (g : Instr → Instr) (f : Func) :
    (f.mapInstrs g).instrs = f.instrs.map g := by
  cases h : f.body <;> simp [instrs, blocks, mapInstrs, Body.mapBlocks, Body.blocks, h]

end Func

end Postlink
