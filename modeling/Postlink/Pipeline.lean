import Postlink.CastRepair
import Postlink.Flags
import Postlink.Importing
import Postlink.Lowering.Sweep

/-!
# Preparing a program

In order: import what the program needs from the library, set the configuration flags, repair calls
through casts, lower builtin calls and make symbols internal.
-/

namespace Postlink

/-- How a program is prepared. -/
structure Config where
  /-- The flags to set. -/
  flags : List Flag
  /-- Whether symbols that are not exported become internal. -/
  internalize : Bool
  deriving DecidableEq, Repr

namespace Config

/-- The default flags, and symbols become internal. -/
def standard : Config := ⟨Flag.defaults, true⟩

/-- Set a flag. -/
def withFlag (name : String) (value : FlagValue) (c : Config) : Config :=
  { c with flags := Flag.set name value c.flags }

/-- Set no flags. -/
def withoutFlags (c : Config) : Config := { c with flags := [] }

/-- Choose whether symbols become internal. -/
def withInternalize (enable : Bool) (c : Config) : Config := { c with internalize := enable }

end Config

/-- What preparing a program did. -/
structure PrepareStats where
  /-- What the import did. -/
  imported : ImportStats
  /-- Flags that found their variable. -/
  flagsSet : Nat
  /-- What the repair of casts did. -/
  repaired : RepairStats
  /-- What lowering did. -/
  lowering : LoweringStats
  deriving DecidableEq, Repr

/-- Prepare a program with a library. -/
def Module.prepare (mode : Overflow) (config : Config) (program library : Module) :
    Except Failure (PrepareStats × Module) :=
  match program.importFrom library with
  | .error e => .error e
  | .ok (imported, program) =>
      let flagged := program.setFlags config.flags
      match flagged.1.repairCasts mode with
      | .error e => .error (.fault e)
      | .ok (repaired, program) =>
          match program.lower mode config.internalize with
          | .error e => .error e
          | .ok (lowering, program) =>
              .ok (⟨imported, flagged.2, repaired, lowering⟩, program)

end Postlink
