import Postlink.Module

/-!
# Configuration flags

A flag sets the initial value of the global variable with its name, if the module has one. Integers
and 32-bit floats are both stored as the word with their bits.
-/

namespace Postlink

/-- The value of a flag. -/
inductive FlagValue where
  /-- A 32-bit integer. -/
  | int (value : UInt32)
  /-- A 32-bit float, held as its bits. -/
  | float (bits : UInt32)
  deriving DecidableEq, Repr

/-- The bits of a value. -/
def FlagValue.bits : FlagValue → UInt32
  | .int value => value
  | .float bits => bits

/-- A flag. -/
structure Flag where
  /-- The global variable it sets. -/
  name : String
  /-- What it is set to. -/
  value : FlagValue
  deriving DecidableEq, Repr

namespace Flag

/-- The flags that are set unless a configuration says otherwise. -/
def defaults : List Flag :=
  [⟨"__FlushDenormals", .int 1⟩, ⟨"__DashGSpecified", .int 0⟩, ⟨"__FastRelaxedMath", .int 0⟩,
    ⟨"__UseNative64BitSubgroupBuiltin", .int 1⟩, ⟨"__CRMacros", .int 1⟩, ⟨"__IsSPIRV", .int 0⟩,
    ⟨"__EnableSWSrgbWrites", .int 0⟩, ⟨"__ProfilingTimerResolution", .float 0⟩]

/-- Set a flag in a list: in its place if it is there, and otherwise at the end. -/
def set (name : String) (value : FlagValue) (flags : List Flag) : List Flag :=
  if flags.any (fun f => f.name = name) then
    modifyFirst (fun f => f.name = name) (fun f => { f with value := value }) flags
  else flags ++ [⟨name, value⟩]

end Flag

namespace Module

/-- Set one flag, counting the flags that find their variable. -/
def setFlag (s : Module × Nat) (flag : Flag) : Module × Nat :=
  match s.1.global? flag.name with
  | none => s
  | some _ =>
      let word := Constant.word flag.value.bits.toNat
      let globals := modifyFirst (fun g => g.name = flag.name)
        (fun g => { g with init := some word }) s.1.globals
      ({ s.1 with globals := globals }, s.2 + 1)

/-- Set flags in order: the module and how many found their variable. -/
def setFlags (flags : List Flag) (m : Module) : Module × Nat := flags.foldl setFlag (m, 0)

end Module

end Postlink
