import Postlink.Signature

/-!
# Intrinsic operations

The catalogue of operations that the target provides or that a front end may leave behind. Each has
a name and a signature built from its overload types, so that a declaration can be made wherever one
is needed; the mangled overload types tell the declarations of one operation apart.
-/

namespace Postlink

/-- An operation of the catalogue. -/
inductive Intrinsic where
  /-- A value's storage comes alive. -/
  | lifetimeStart
  /-- A value's storage dies. -/
  | lifetimeEnd
  /-- Count leading zeros, in its generic form. -/
  | ctlz
  /-- Fused multiply and add. -/
  | fma
  /-- Round to even. -/
  | rnde
  /-- Round down. -/
  | rndd
  /-- Round up. -/
  | rndu
  /-- Round toward zero. -/
  | rndz
  /-- Cosine. -/
  | cos
  /-- Sine. -/
  | sin
  /-- Power of two. -/
  | exp
  /-- Logarithm to base two. -/
  | log
  /-- Square root. -/
  | sqrt
  /-- Count set bits. -/
  | cbit
  /-- Power. -/
  | pow
  /-- Reverse bits. -/
  | bfrev
  /-- Greater of two. -/
  | fmax
  /-- Lesser of two. -/
  | fmin
  /-- Correctly rounded square root. -/
  | ieeeSqrt
  /-- Correctly rounded quotient. -/
  | ieeeDiv
  /-- Saturating conversion to a signed integer. -/
  | fptosiSat
  /-- Saturating conversion to an unsigned integer. -/
  | fptouiSat
  /-- Count leading zeros on the target. -/
  | lzd
  deriving DecidableEq, Repr

namespace Intrinsic

/-- All operations in catalogue order. -/
def all : List Intrinsic :=
  [.lifetimeStart, .lifetimeEnd, .ctlz, .fma, .rnde, .rndd, .rndu, .rndz, .cos, .sin, .exp, .log,
    .sqrt, .cbit, .pow, .bfrev, .fmax, .fmin, .ieeeSqrt, .ieeeDiv, .fptosiSat, .fptouiSat, .lzd]

theorem mem_all (op : Intrinsic) : op ∈ all := by cases op <;> decide

/-- The name inside the family of intrinsics. -/
def baseName : Intrinsic → String
  | .lifetimeStart => "lifetime.start"
  | .lifetimeEnd => "lifetime.end"
  | .ctlz => "ctlz"
  | .fma => "fma"
  | .rnde => "genx.rnde"
  | .rndd => "genx.rndd"
  | .rndu => "genx.rndu"
  | .rndz => "genx.rndz"
  | .cos => "genx.cos"
  | .sin => "genx.sin"
  | .exp => "genx.exp"
  | .log => "genx.log"
  | .sqrt => "genx.sqrt"
  | .cbit => "genx.cbit"
  | .pow => "genx.pow"
  | .bfrev => "genx.bfrev"
  | .fmax => "genx.fmax"
  | .fmin => "genx.fmin"
  | .ieeeSqrt => "genx.ieee.sqrt"
  | .ieeeDiv => "genx.ieee.div"
  | .fptosiSat => "genx.fptosi.sat"
  | .fptouiSat => "genx.fptoui.sat"
  | .lzd => "genx.lzd"

/-- The full name without overload types. -/
def text (op : Intrinsic) : String := "llvm." ++ op.baseName

/-- How many overload types the operation takes. -/
def overloads : Intrinsic → Nat
  | .lifetimeStart => 0
  | .lifetimeEnd => 0
  | .fptosiSat => 2
  | .fptouiSat => 2
  | _ => 1

/-- The name of the declaration at some overload types. -/
def declName (op : Intrinsic) (tys : List Ty) : String :=
  op.text ++ String.join (tys.map fun t => "." ++ t.mangle)

/-- The signature at some overload types. It means something when there are as many types as the
operation takes. -/
def signature (op : Intrinsic) (tys : List Ty) : Signature :=
  let t := tys.headD .void
  match op with
  | .lifetimeStart => ⟨.void, [.int 64, .ptr (.int 8)]⟩
  | .lifetimeEnd => ⟨.void, [.int 64, .ptr (.int 8)]⟩
  | .fptosiSat => ⟨t, [tys.tail.headD .void]⟩
  | .fptouiSat => ⟨t, [tys.tail.headD .void]⟩
  | .ctlz => ⟨t, [t, .int 1]⟩
  | .fma => ⟨t, [t, t, t]⟩
  | .pow => ⟨t, [t, t]⟩
  | .fmax => ⟨t, [t, t]⟩
  | .fmin => ⟨t, [t, t]⟩
  | .ieeeDiv => ⟨t, [t, t]⟩
  | _ => ⟨t, [t]⟩

end Intrinsic

end Postlink
