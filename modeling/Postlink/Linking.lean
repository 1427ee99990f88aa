import Postlink.Module

/-!
# Linking one module into another

The symbols of a source module move into a destination. A declaration gives way to a definition; two
definitions of one name clash, unless the source's is internal, in which case it first takes a new
name throughout the source. Callers in the destination that expect another signature than the
definition's go on calling it through a cast. Clashes of global variables are found while symbols
already move, so a failed link can leave the destination changed; the result therefore carries it.
-/

namespace Postlink

/-- Why a module cannot be linked. -/
inductive LinkError where
  /-- Both modules define a symbol. -/
  | duplicateSymbol (name : String)
  /-- A body of the source is still in an archive. -/
  | unloadedBody (name : String)
  deriving DecidableEq, Repr

/-- The message of a link error. -/
def LinkError.message : LinkError → String
  | .duplicateSymbol name => "symbol '" ++ name ++ "' is defined in both modules"
  | .unloadedBody name => "cannot link '" ++ name ++ "': body is not materialized"

/-- Apply a step to each element in turn until one fails, keeping the state reached. -/
def stepAll {σ α ε : Type} (step : σ → α → Except ε σ) (s : σ) : List α → Except ε Unit × σ
  | [] => (.ok (), s)
  | a :: as =>
      match step s a with
      | .error e => (.error e, s)
      | .ok s' => stepAll step s' as

namespace Module

/-- Give a function another name, together with every reference to it. -/
def renameFunc (old new : String) (m : Module) : Module :=
  m.mapFuncs fun f =>
    { f.renameRefs old new with name := if f.name = old then new else f.name }

/-- The definitions of a source that the destination defines too, in order. -/
def clashes (dest src : Module) : List String :=
  (src.functions.filter fun f => !f.isDeclared && dest.defines f.name).map Func.name

/-- A name that no function of either module has. The first try is free in the destination. -/
def freshName (dest src : Module) (name : String) : String :=
  let tries := dest.freeName name
    :: candidates name (dest.functions.length + src.functions.length + 1)
  (tries.find? fun n => !(src.func? n).isSome && !(dest.func? n).isSome).getD name

/-- Whether a function of this name is internal. -/
def isInternal (name : String) (m : Module) : Bool :=
  match m.func? name with
  | some f => f.linkage = .internal
  | none => false

/-- Rename one clashing definition of the source, if it is internal. -/
def settleClash (dest src : Module) (name : String) : Except LinkError Module :=
  if src.isInternal name then .ok (src.renameFunc name (freshName dest src name))
  else .error (.duplicateSymbol name)

/-- Move one global variable. -/
def mergeGlobal (dest : Module) (g : Global) : Except LinkError Module :=
  match dest.global? g.name with
  | none => .ok (dest.addGlobal g)
  | some old =>
      if g.isDeclared then .ok dest
      else if old.isDeclared then
        .ok { dest with
          globals := modifyFirst (fun h => h.name = g.name) (fun _ => g) dest.globals }
      else .error (.duplicateSymbol old.name)

/-- A direct call of `name` with another signature than `sig` goes through a cast. -/
def castCall (name : String) (sig : Signature) (c : Call) : Call :=
  if c.callee = .func name ∧ c.sig ≠ sig then
    { c with callee := .cast (.func name) (.ptr c.sig.toTy) }
  else c

/-- Let callers that expect another signature call a function through a cast. -/
def castCallers (name : String) (m : Module) : Module :=
  match m.func? name with
  | none => m
  | some f => m.mapFuncs (Func.mapInstrs (Instr.mapCall (castCall name f.sig)))

/-- Move one function, counting the definitions that the destination gains. -/
def mergeFunc (s : Module × Nat) (f : Func) : Except LinkError (Module × Nat) :=
  match s.1.func? f.name with
  | none => .ok (s.1.addFunc f, if f.isDeclared then s.2 else s.2 + 1)
  | some old =>
      if f.isDeclared then .ok s
      else if !old.isDeclared then .error (.duplicateSymbol f.name)
      else
        let dest := s.1.modifyFunc f.name fun _ => f
        .ok (if old.sig = f.sig then dest else dest.castCallers f.name, s.2 + 1)

/-- Move the symbols of a source without clashes between definitions of functions. -/
def merge (dest src : Module) : Except LinkError Nat × Module :=
  match stepAll mergeGlobal dest src.globals with
  | (.error e, dest) => (.error e, dest)
  | (.ok (), dest) =>
      match stepAll mergeFunc (dest, 0) src.functions with
      | (.error e, (dest, _)) => (.error e, dest)
      | (.ok (), (dest, gained)) => (.ok gained, dest)

/-- Link a source into a destination: how many definitions the destination gains, or why linking
stopped, and the destination as it then is. -/
def link (dest src : Module) : Except LinkError Nat × Module :=
  match src.functions.find? Func.isStored with
  | some f => (.error (.unloadedBody f.name), dest)
  | none =>
      match stepAll (settleClash dest) src (clashes dest src) with
      | (.error e, _) => (.error e, dest)
      | (.ok (), src) => merge dest src

end Module

end Postlink
