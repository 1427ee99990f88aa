import Postlink.Loading

/-!
# What a program asks of a library

A call of a name means a definition in the caller's own module, and otherwise one in the library. If
the body meant is still stored it is loaded, takes over the caller's convention, and its own calls
become requests in turn. Every call adopts the convention of the function it stands in.
-/

namespace Postlink

/-- Which of the two modules a function is in. -/
inductive Side where
  /-- The program. -/
  | program
  /-- The library. -/
  | library
  deriving DecidableEq, Repr

/-- The state of the walk. -/
structure Demand where
  /-- The program so far. -/
  program : Module
  /-- The library so far. -/
  library : Module
  /-- The functions whose calls have been followed. -/
  visited : List (Side × String)
  /-- How many bodies have been loaded on the way. -/
  loaded : Nat

/-- A call to be followed. -/
structure Request where
  /-- The module of the caller. -/
  side : Side
  /-- The convention of the caller. -/
  conv : Convention
  /-- The name that is called. -/
  callee : String
  deriving DecidableEq, Repr

namespace Func

/-- Let every call adopt the function's own convention. -/
def adoptConvention (f : Func) : Func :=
  f.mapInstrs (Instr.mapCall fun c => { c with conv := f.conv })

/-- The names that a function calls without a cast, each once, in order. -/
def callees (f : Func) : List String := (f.instrs.filterMap Instr.called?).eraseDups

end Func

namespace Demand

/-- The start of a walk. -/
def start (program library : Module) : Demand := ⟨program, library, [], 0⟩

/-- The module on a side. -/
def module (d : Demand) : Side → Module
  | .program => d.program
  | .library => d.library

/-- Change the function with a name in the module on a side. -/
def modifyFunc (side : Side) (name : String) (f : Func → Func) (d : Demand) : Demand :=
  match side with
  | .program => { d with program := d.program.modifyFunc name f }
  | .library => { d with library := d.library.modifyFunc name f }

/-- The side whose definition a call of a name means. -/
def provider? (d : Demand) (side : Side) (callee : String) : Option Side :=
  if (d.module side).defines callee then some side
  else if d.library.defines callee then some .library
  else none

/-- The stored function that a request needs loaded, and its side. -/
def missing? (d : Demand) (r : Request) : Option (Side × Func) :=
  match d.provider? r.side r.callee with
  | none => none
  | some side =>
      match (d.module side).func? r.callee with
      | none => none
      | some f => if f.isStored then some (side, f) else none

/-- Follow the calls of a function, unless that has been done: its calls adopt its convention and
become requests. -/
def visit (side : Side) (name : String) (d : Demand) : Demand × List Request :=
  if (side, name) ∈ d.visited then (d, [])
  else
    let d := { d with visited := (side, name) :: d.visited }
    match (d.module side).func? name with
    | none => (d, [])
    | some f =>
        (d.modifyFunc side name fun _ => f.adoptConvention,
          f.callees.map fun callee => ⟨side, f.conv, callee⟩)

/-- Load what a request needs, if anything, and follow its calls. -/
def supply (d : Demand) (r : Request) : Except Fault (Option (Demand × List Request)) :=
  match d.missing? r with
  | none => .ok none
  | some (side, f) =>
      match f.load with
      | .error e => .error e
      | .ok g =>
          let d := d.modifyFunc side r.callee fun _ => { g with conv := r.conv }
          .ok (some (visit side r.callee { d with loaded := d.loaded + 1 }))

end Demand

end Postlink
