import Postlink.FirstMatch
import Postlink.Func

/-!
# Modules

A module is a list of global variables and a list of functions. A name means the first symbol of its
kind that carries it. A new name is taken from a base by appending the first number that is free.
-/

namespace Postlink

/-- A global variable. -/
structure Global where
  /-- The name. -/
  name : String
  /-- The type of its contents. -/
  ty : Ty
  /-- The contents at the start; a variable without them is only declared. -/
  init : Option Constant
  /-- Who may refer to it. -/
  linkage : Linkage
  deriving DecidableEq, Repr

namespace Global

/-- Whether the variable is only declared. -/
def isDeclared (g : Global) : Bool := g.init.isNone

/-- The variable in a listing. -/
def text (g : Global) : String :=
  match g.init with
  | some c => "@" ++ g.name ++ " = " ++ g.linkage.text ++ "global " ++ c.text
  | none => "@" ++ g.name ++ " = external global " ++ g.ty.text

end Global

/-- A module. -/
structure Module where
  /-- The name. -/
  name : String
  /-- The global variables in order. -/
  globals : List Global
  /-- The functions in order. -/
  functions : List Func
  deriving DecidableEq, Repr

namespace Module

/-- A module without symbols. -/
def empty (name : String) : Module := ⟨name, [], []⟩

/-- The function with a name. -/
def func? (name : String) (m : Module) : Option Func := m.functions.find? fun f => f.name = name

/-- The position of the function with a name. -/
def funcIndex? (name : String) (m : Module) : Option Nat :=
  m.functions.findIdx? fun f => f.name = name

/-- The global variable with a name. -/
def global? (name : String) (m : Module) : Option Global := m.globals.find? fun g => g.name = name

/-- Whether a function of this name has a body, loaded or not. -/
def defines (name : String) (m : Module) : Bool :=
  match m.func? name with
  | some f => !f.isDeclared
  | none => false

/-- Change the function with a name. -/
def modifyFunc (name : String) (f : Func → Func) (m : Module) : Module :=
  { m with functions := modifyFirst (fun g => g.name = name) f m.functions }

/-- Change every function. -/
def mapFuncs (f : Func → Func) (m : Module) : Module := { m with functions := m.functions.map f }

/-- Put a function at a position. -/
def setFunc (index : Nat) (f : Func) (m : Module) : Module :=
  { m with functions := m.functions.set index f }

/-- Append a function. -/
def addFunc (f : Func) (m : Module) : Module := { m with functions := m.functions ++ [f] }

/-- Append a global variable. -/
def addGlobal (g : Global) (m : Module) : Module := { m with globals := m.globals ++ [g] }

/-- Remove the function with a name. -/
def eraseFunc (name : String) (m : Module) : Module :=
  { m with functions := m.functions.eraseP fun f => f.name = name }

/-- Whether a function or a global variable has this name. -/
def taken (name : String) (m : Module) : Bool := (m.func? name).isSome || (m.global? name).isSome

/-- A base name with a number appended. -/
def numbered (base : String) (n : Nat) : String := base ++ "." ++ toString n

/-- The numbered names to try, one for each symbol. -/
def candidates (base : String) (count : Nat) : List String :=
  (List.range' 1 count).map (numbered base)

/-- The base if it is free, and otherwise the first numbered name that is. There are as many
candidates as symbols, and the base itself is one of the symbols, so one of them is free. -/
def freeName (base : String) (m : Module) : String :=
  if m.taken base then
    ((candidates base (m.functions.length + m.globals.length)).find? fun n => !m.taken n).getD base
  else base

/-- The loaded instructions of all functions in order. -/
def instrs (m : Module) : List Instr := m.functions.flatMap Func.instrs

/-- How often the loaded bodies name a function, also below casts. -/
def useCount (name : String) (m : Module) : Nat :=
  (m.functions.flatMap Func.operands).countP fun o => o.func? = some name

/-- Make sure that an intrinsic is declared at some overload types. -/
def declareIntrinsic (op : Intrinsic) (tys : List Ty) (m : Module) : Module :=
  if (m.func? (op.declName tys)).isSome then m else m.addFunc (Func.ofIntrinsic op tys)

/-- Make sure that an intrinsic is declared at any overload types. A declaration that is there
already needs no signature, so only a new one asks for types enough. -/
def declareIntrinsic? (op : Intrinsic) (tys : List Ty) (m : Module) : Option Module :=
  if (m.func? (op.declName tys)).isSome then some m
  else (Func.ofIntrinsic? op tys).map fun f => m.addFunc f

/-- With types enough an intrinsic can always be declared. -/
theorem declareIntrinsic?_eq_some {op : Intrinsic} {tys : List Ty} (h : op.overloads ≤ tys.length)
    (m : Module) : m.declareIntrinsic? op tys = some (m.declareIntrinsic op tys) := by
  unfold declareIntrinsic? declareIntrinsic
  split
  · rfl
  · simp [Func.ofIntrinsic?, h]

/-- Whether no body is left in an archive. -/
def isLoaded (m : Module) : Bool := !m.functions.any Func.isStored

/-- The number of bodies still in an archive. -/
def storedCount (m : Module) : Nat := m.functions.countP Func.isStored

/-- The module as a listing. -/
def text (m : Module) : String :=
  "; ModuleID = '" ++ m.name ++ "'\n" ++ String.join (m.globals.map fun g => g.text ++ "\n")
    ++ String.join (m.functions.map fun f => "\n" ++ f.text)

end Module

end Postlink
