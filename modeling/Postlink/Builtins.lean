import Postlink.Intrinsic

/-!
# The builtin catalogue

Builtins that become one intrinsic or two in a row are listed by name. A few families are recognised
by how their names start.
-/

namespace Postlink

/-- What a listed builtin becomes. -/
inductive Recipe where
  /-- One intrinsic. -/
  | one (op : Intrinsic)
  /-- An intrinsic whose result goes into another. -/
  | two (producer consumer : Intrinsic)
  deriving DecidableEq, Repr

/-- A family of builtins. -/
inductive Family where
  /-- Signed integer to float. -/
  | signedToFloat
  /-- Unsigned integer to float. -/
  | unsignedToFloat
  /-- Multiply and round toward zero. -/
  | mulRoundToZero
  /-- Add and round toward zero. -/
  | addRoundToZero
  deriving DecidableEq, Repr

namespace Builtins

/-- Builtins that become one intrinsic. -/
def oneStep : List (String × Intrinsic) :=
  [("__builtin_IB_frnd_ne", .rnde),
    ("__builtin_IB_ftoh_rtn", .rndd),
    ("__builtin_IB_ftoh_rtp", .rndu),
    ("__builtin_IB_ftoh_rtz", .rndz),
    ("__builtin_IB_dtoh_rtn", .rnde),
    ("__builtin_IB_dtoh_rtp", .rndu),
    ("__builtin_IB_dtoh_rtz", .rndz),
    ("__builtin_IB_dtof_rtn", .rnde),
    ("__builtin_IB_dtof_rtp", .rndu),
    ("__builtin_IB_dtof_rtz", .rndz),
    ("__builtin_IB_frnd_pi", .rndu),
    ("__builtin_IB_frnd_ni", .rndd),
    ("__builtin_IB_frnd_zi", .rndz),
    ("__builtin_IB_native_cosf", .cos),
    ("__builtin_IB_native_cosh", .cos),
    ("__builtin_IB_native_sinf", .sin),
    ("__builtin_IB_native_sinh", .sin),
    ("__builtin_IB_native_exp2f", .exp),
    ("__builtin_IB_native_exp2h", .exp),
    ("__builtin_IB_native_log2f", .log),
    ("__builtin_IB_native_log2h", .log),
    ("__builtin_IB_native_sqrtf", .sqrt),
    ("__builtin_IB_native_sqrth", .sqrt),
    ("__builtin_IB_native_sqrtd", .sqrt),
    ("__builtin_IB_popcount_1u32", .cbit),
    ("__builtin_IB_popcount_1u16", .cbit),
    ("__builtin_IB_popcount_1u8", .cbit),
    ("__builtin_IB_native_powrf", .pow),
    ("__builtin_IB_fma", .fma),
    ("__builtin_IB_fmah", .fma),
    ("__builtin_IB_bfrev", .bfrev),
    ("__builtin_IB_fmax", .fmax),
    ("__builtin_IB_fmin", .fmin),
    ("__builtin_IB_HMAX", .fmax),
    ("__builtin_IB_HMIN", .fmin),
    ("__builtin_IB_dmin", .fmin),
    ("__builtin_IB_dmax", .fmax),
    ("__builtin_IB_ieee_sqrt", .ieeeSqrt),
    ("__builtin_IB_ieee_divide", .ieeeDiv),
    ("__builtin_IB_ieee_divide_f64", .ieeeDiv)]

/-- Builtins that become two intrinsics in a row. -/
def twoStep : List (String × Intrinsic × Intrinsic) :=
  [("__builtin_IB_dtoi8_rtn", .rndd, .fptosiSat),
    ("__builtin_IB_dtoi8_rtp", .rndu, .fptosiSat),
    ("__builtin_IB_dtoi8_rte", .rnde, .fptosiSat),
    ("__builtin_IB_dtoi16_rtn", .rndd, .fptosiSat),
    ("__builtin_IB_dtoi16_rtp", .rndu, .fptosiSat),
    ("__builtin_IB_dtoi16_rte", .rnde, .fptosiSat),
    ("__builtin_IB_dtoi32_rtn", .rndd, .fptosiSat),
    ("__builtin_IB_dtoi32_rtp", .rndu, .fptosiSat),
    ("__builtin_IB_dtoi32_rte", .rnde, .fptosiSat),
    ("__builtin_IB_dtoi64_rtn", .rndd, .fptosiSat),
    ("__builtin_IB_dtoi64_rtp", .rndu, .fptosiSat),
    ("__builtin_IB_dtoi64_rte", .rnde, .fptosiSat),
    ("__builtin_IB_dtoui8_rtn", .rndd, .fptouiSat),
    ("__builtin_IB_dtoui8_rtp", .rndu, .fptouiSat),
    ("__builtin_IB_dtoui8_rte", .rnde, .fptouiSat),
    ("__builtin_IB_dtoui16_rtn", .rndd, .fptouiSat),
    ("__builtin_IB_dtoui16_rtp", .rndu, .fptouiSat),
    ("__builtin_IB_dtoui16_rte", .rnde, .fptouiSat),
    ("__builtin_IB_dtoui32_rtn", .rndd, .fptouiSat),
    ("__builtin_IB_dtoui32_rtp", .rndu, .fptouiSat),
    ("__builtin_IB_dtoui32_rte", .rnde, .fptouiSat),
    ("__builtin_IB_dtoui64_rtn", .rndd, .fptouiSat),
    ("__builtin_IB_dtoui64_rtp", .rndu, .fptouiSat),
    ("__builtin_IB_dtoui64_rte", .rnde, .fptouiSat),
    ("__builtin_IB_fma_rtz_f64", .fma, .rndz),
    ("__builtin_IB_fma_rtz_f32", .fma, .rndz)]

/-- What a name of the catalogue becomes. -/
def recipe? (name : String) : Option Recipe :=
  match oneStep.lookup name with
  | some op => some (.one op)
  | none => (twoStep.lookup name).map fun ops => .two ops.1 ops.2

/-- How the names of each family start. -/
def families : List (String × Family) :=
  [("__builtin_IB_itof", .signedToFloat), ("__builtin_IB_uitof", .unsignedToFloat),
    ("__builtin_IB_mul_rtz", .mulRoundToZero), ("__builtin_IB_add_rtz", .addRoundToZero)]

/-- The family that a name belongs to. -/
def family? (name : String) : Option Family :=
  (families.find? fun r => r.1.toList.isPrefixOf name.toList).map Prod.snd

/-- The number of names in the catalogue. -/
def size : Nat := oneStep.length + twoStep.length

end Builtins

end Postlink
