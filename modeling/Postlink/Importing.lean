import Postlink.Demand.Walk
import Postlink.Failure

/-!
# Importing from a library

The bodies that a program reaches are loaded, the library symbols that nothing uses are dropped, the
rest is loaded as well, and the library is linked in as one unit.
-/

namespace Postlink

namespace Module

/-- The functions without a loaded body that nothing in the module uses. -/
def unused (m : Module) : List String :=
  (m.functions.filter fun f => (f.isDeclared || f.isStored) && m.useCount f.name == 0).map Func.name

/-- Drop the unused functions without a loaded body. -/
def dropUnused (m : Module) : Module := m.unused.foldl (fun m name => m.eraseFunc name) m

end Module

/-- What an import did. -/
structure ImportStats where
  /-- Bodies loaded because something reached them. -/
  loaded : Nat
  /-- Library symbols dropped. -/
  pruned : Nat
  /-- Definitions the program gained. -/
  linked : Nat
  deriving DecidableEq, Repr

/-- Import from a library what a program needs. -/
def Module.importFrom (program library : Module) : Except Failure (ImportStats × Module) :=
  match (Demand.start program library).walk (program.functions.map Func.name) with
  | .error e => .error (.fault e)
  | .ok d =>
      match d.library.dropUnused.loadAll with
      | (.error e, _) => .error (.fault e)
      | (.ok (), library) =>
          match d.program.link library with
          | (.error e, _) => .error (.link e)
          | (.ok linked, program) => .ok (⟨d.loaded, d.library.unused.length, linked⟩, program)

end Postlink
