import Postlink.Module

/-!
# Staged removal

A pass that walks a module records what became dead and removes it afterwards. Instructions go
first, then functions; what is no longer there is skipped.
-/

namespace Postlink

/-- Instructions and functions to be removed. -/
structure Erasure where
  /-- Instructions, each by its function's name and its identifier. -/
  instrs : List (String × Nat)
  /-- Functions by name, each once. -/
  functions : List String
  deriving DecidableEq, Repr

namespace Erasure

/-- Nothing to remove. -/
def empty : Erasure := ⟨[], []⟩

/-- Whether there is nothing to remove. -/
def isEmpty (e : Erasure) : Bool := e.instrs.isEmpty && e.functions.isEmpty

/-- Stage an instruction. -/
def addInstr (function : String) (id : Nat) (e : Erasure) : Erasure :=
  { e with instrs := e.instrs ++ [(function, id)] }

/-- Stage a function, unless it is staged already. -/
def addFunc (name : String) (e : Erasure) : Erasure :=
  if name ∈ e.functions then e else { e with functions := e.functions ++ [name] }

/-- Remove one instruction, counting removals. -/
def eraseInstr (s : Module × Nat) (target : String × Nat) : Module × Nat :=
  match (s.1.func? target.1).bind (Func.instr? target.2) with
  | none => s
  | some _ => (s.1.modifyFunc target.1 (Func.eraseInstr target.2), s.2 + 1)

/-- Remove one function, counting removals. -/
def eraseFunc (s : Module × Nat) (name : String) : Module × Nat :=
  match s.1.func? name with
  | none => s
  | some _ => (s.1.eraseFunc name, s.2 + 1)

/-- What carrying out a removal gives. -/
structure Outcome where
  /-- The module without what was staged. -/
  module : Module
  /-- How much was removed. -/
  count : Nat
  /-- What is staged afterwards. -/
  left : Erasure
  deriving DecidableEq, Repr

/-- Remove everything staged from a module; nothing stays staged. -/
def carryOut (e : Erasure) (m : Module) : Outcome :=
  let removed := e.functions.foldl eraseFunc (e.instrs.foldl eraseInstr (m, 0))
  ⟨removed.1, removed.2, empty⟩

end Erasure

end Postlink
