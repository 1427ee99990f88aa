import Postlink.Module

/-!
# Closing a program

Once a program is complete, nothing outside it refers to the symbols that it does not export. All
that is defined and not exported becomes internal; declarations and intrinsics stay as they are.
-/

namespace Postlink

/-- Whether a definition becomes internal when a program is closed. -/
def Func.closes (f : Func) : Bool :=
  f.intrinsic.isNone && !f.isDeclared && !f.exported && f.linkage != .internal

/-- Whether a variable becomes internal when a program is closed. -/
def Global.closes (g : Global) : Bool := !g.isDeclared && g.linkage != .internal

namespace Module

/-- Make everything internal that is defined here and not exported: the module, and how many symbols
changed. -/
def internalize (m : Module) : Module × Nat :=
  let globals := m.globals.map fun g => if g.closes then { g with linkage := .internal } else g
  let functions := m.functions.map fun f => if f.closes then { f with linkage := .internal } else f
  ({ m with globals := globals, functions := functions },
    m.globals.countP Global.closes + m.functions.countP Func.closes)

end Module

end Postlink
