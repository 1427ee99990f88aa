import Postlink.Codec.Instrs
import Postlink.Module

/-!
# Data form of modules

A module is written with all its loaded bodies; a body still in an archive cannot be written, and no
text decodes to one. Properties at their default may be left out, and lists of names and the
intrinsic tag are left out when writing.
-/

namespace Postlink

open Json

/-- All linkages. -/
def Linkage.all : List Linkage := [.external, .internal]

/-- The name of a linkage in data. -/
def Linkage.key : Linkage → String
  | .external => "External"
  | .internal => "Internal"

/-- Decode a linkage. -/
def Linkage.decode? : Nat → Json → Option Linkage := choice? Linkage.all Linkage.key

/-- The name of an intrinsic in data. -/
def Intrinsic.key : Intrinsic → String
  | .lifetimeStart => "LifetimeStart"
  | .lifetimeEnd => "LifetimeEnd"
  | .ctlz => "Ctlz"
  | .fma => "Fma"
  | .rnde => "GenxRnde"
  | .rndd => "GenxRndd"
  | .rndu => "GenxRndu"
  | .rndz => "GenxRndz"
  | .cos => "GenxCos"
  | .sin => "GenxSin"
  | .exp => "GenxExp"
  | .log => "GenxLog"
  | .sqrt => "GenxSqrt"
  | .cbit => "GenxCbit"
  | .pow => "GenxPow"
  | .bfrev => "GenxBfrev"
  | .fmax => "GenxFmax"
  | .fmin => "GenxFmin"
  | .ieeeSqrt => "GenxIeeeSqrt"
  | .ieeeDiv => "GenxIeeeDiv"
  | .fptosiSat => "GenxFptosiSat"
  | .fptouiSat => "GenxFptouiSat"
  | .lzd => "GenxLzd"

/-- Decode an intrinsic. -/
def Intrinsic.decode? : Nat → Json → Option Intrinsic := choice? Intrinsic.all Intrinsic.key

/-- The data form of a global variable. -/
def Global.encode (g : Global) : Json :=
  .record ([("name", .string g.name), ("ty", g.ty.encode)]
    ++ (g.init.toList.map fun c => ("initializer", c.encode))
    ++ [("linkage", .string g.linkage.key)])

/-- Decode a global variable. -/
def Global.decode? : Nat → Json → Option Global
  | depth + 1, j => do
      let fs ← j.fields? ["name", "ty", "initializer", "linkage"]
      return ⟨← fs.required? "name" string?, ← fs.required? "ty" (Ty.decode? depth),
        ← fs.optional? "initializer" none (orNull? (Constant.decode? depth)),
        ← fs.optional? "linkage" .external (Linkage.decode? depth)⟩
  | _, _ => none

/-- A list of strings. -/
def Json.strings (ss : List String) : Json := .arr (ss.map Json.string)

/-- Decode a list of strings. -/
def Json.strings? : Nat → Json → Option (List String) := list? fun _ => string?

/-- The data form of a body, unless it is still in an archive. -/
def Body.encode? : Body → Option Json
  | .declared => some (.string "Declaration")
  | .loaded bs => some (.tagged "Defined" bs.encode)
  | .stored _ => none

/-- Decode a body. -/
def Body.decode? : Nat → Json → Option Body
  | _, .str (some "Declaration") => some .declared
  | _ + 1, .obj [(some "Declaration", .null)] => some .declared
  | depth + 1, .obj [(some "Defined", j)] => (Blocks.decode? depth j).map .loaded
  | _, _ => none

/-- The data form of a function whose body is written as `body`. -/
def Func.encodeWith (body : Json) (f : Func) : Json :=
  .record ([("name", .string f.name), ("ty", f.sig.encode), ("conv", .string f.conv.key),
      ("linkage", .string f.linkage.key), ("dll_export", .bool f.exported)]
    ++ (if f.attributes.isEmpty then [] else [("attributes", .strings f.attributes)])
    ++ (f.intrinsic.toList.map fun op => ("intrinsic", .string op.key))
    ++ (if f.params.isEmpty then [] else [("params", .strings f.params)])
    ++ [("body", body)])

/-- The data form of a function, unless its body is still in an archive. -/
def Func.encode? (f : Func) : Option Json := f.body.encode?.map fun body => f.encodeWith body

/-- The names of a function's fields in order. -/
def Func.fieldNames : List String :=
  ["name", "ty", "conv", "linkage", "dll_export", "attributes", "intrinsic", "params", "body"]

/-- Decode the fields of a function other than its body. -/
def Func.decodeWith? (depth : Nat) (fs : Fields) (body : Body) : Option Func := do
  return ⟨← fs.required? "name" string?, ← fs.required? "ty" (Signature.decode? depth),
    ← fs.optional? "conv" .c (Convention.decode? depth),
    ← fs.optional? "linkage" .external (Linkage.decode? depth),
    ← fs.optional? "dll_export" false bool?,
    ← fs.optional? "attributes" [] (strings? depth),
    ← fs.optional? "intrinsic" none (orNull? (Intrinsic.decode? depth)),
    ← fs.optional? "params" [] (strings? depth), body, none⟩

/-- Decode a function. -/
def Func.decode? : Nat → Json → Option Func
  | depth + 1, j => do
      let fs ← j.fields? Func.fieldNames
      Func.decodeWith? depth fs (← fs.required? "body" (Body.decode? depth))
  | _, _ => none

/-- The data form of a module with its functions written as `functions`. -/
def Module.encodeWith (functions : List Json) (m : Module) : Json :=
  .record [("name", .string m.name), ("globals", .arr (m.globals.map Global.encode)),
    ("functions", .arr functions)]

/-- The data form of a module, unless a body is still in an archive. -/
def Module.encode? (m : Module) : Option Json :=
  (m.functions.mapM Func.encode?).map fun functions => m.encodeWith functions

/-- Decode a module. -/
def Module.decode? : Nat → Json → Option Module
  | depth + 1, j => do
      let fs ← j.fields? ["name", "globals", "functions"]
      return ⟨← fs.required? "name" string?,
        ← fs.optional? "globals" [] (list? Global.decode? depth),
        ← fs.optional? "functions" [] (list? Func.decode? depth)⟩
  | _, _ => none

/-- The module that a text writes. -/
def Module.read? (s : List UInt8) : Option Module := (parse? s).bind (Module.decode? nestingLimit)

/-- The compact text of a module, unless a body is still in an archive. -/
def Module.write? (m : Module) : Option String := m.encode?.map Json.compact

end Postlink
