import Postlink.Builtins
import Postlink.Failure
import Postlink.Lowering.Step

/-!
# What becomes of a call

A callee that is declared as a lifetime marker or as a count of leading zeros is recognised by that.
Every other callee is recognised by its name, first in the catalogue and then by family. A call
without the arguments that its replacement needs is refused.
-/

namespace Postlink

/-- What becomes of a call. -/
inductive Verdict where
  /-- It is dropped. -/
  | drop
  /-- It is replaced. -/
  | replace (steps : List Step)
  deriving DecidableEq, Repr

/-- The argument at a position with the type that the call expects of it. -/
def DirectCall.arg (site : DirectCall) (caller : String) (index : Nat) :
    Except Failure (Operand × Ty) :=
  match site.call.args[index]?, site.call.sig.params[index]? with
  | some o, some t => .ok (o, t)
  | _, _ => .error (.malformedCall caller site.callee)

/-- The steps for a listed builtin whose result has type `ret`. -/
def Recipe.steps (caller : String) (site : DirectCall) (ret : Ty) :
    Recipe → Except Failure (List Step)
  | .one op => .ok [.atTypes op [ret] site.sources]
  | .two producer consumer =>
      (site.arg caller 0).map fun a =>
        [.atTypes producer [a.2] site.sources,
          .atTypes consumer [ret, (producer.signature ([a.2].take producer.overloads)).ret]
            [.previous]]

/-- Two values combined and the result rounded toward zero. -/
def Family.roundedSteps (caller : String) (site : DirectCall) (op : BinaryOp) (lhs : Operand × Ty) :
    Except Failure (List Step) :=
  (site.arg caller 1).map fun rhs =>
    [.binary op lhs.2 lhs.1 rhs.1, .atTypes .rndz [lhs.2] [.previous]]

/-- The steps for a builtin of a family whose result has type `ret`. -/
def Family.steps (caller : String) (site : DirectCall) (ret : Ty) (family : Family) :
    Except Failure (List Step) :=
  match site.arg caller 0 with
  | .error e => .error e
  | .ok lhs =>
      match family with
      | .signedToFloat => .ok [.convert .signedToFloat ret lhs.1]
      | .unsignedToFloat => .ok [.convert .unsignedToFloat ret lhs.1]
      | .mulRoundToZero => roundedSteps caller site .fmul lhs
      | .addRoundToZero => roundedSteps caller site .fadd lhs

/-- The steps for a count of leading zeros, which the target has for 32 bits only. -/
def DirectCall.leadingZeros (site : DirectCall) (caller : String) : Except Failure (List Step) :=
  match site.arg caller 0 with
  | .error e => .error e
  | .ok (o, t) =>
      if t = .int 32 then .ok [.atTypes .lzd [t] [.value o]]
      else .error (.unsupportedOperand caller .ctlz (.int 32) t)

/-- What becomes of a call by its callee's name alone. -/
def DirectCall.byName (site : DirectCall) (caller : String) (ret : Ty) :
    Except Failure (Option Verdict) :=
  match Builtins.recipe? site.callee with
  | some recipe => (recipe.steps caller site ret).map fun steps => some (.replace steps)
  | none =>
      match Builtins.family? site.callee with
      | some family => (family.steps caller site ret).map fun steps => some (.replace steps)
      | none => .ok none

/-- What becomes of a call, if anything. A callee declared as an intrinsic of the generic kind is
recognised by that, every other callee by its name. -/
def Module.verdict (m : Module) (caller : String) (site : DirectCall) :
    Except Failure (Option Verdict) :=
  let callee := m.func? site.callee
  let ret := (callee.map fun f => f.sig.ret).getD site.instr.ty
  match callee.bind Func.intrinsic with
  | some .lifetimeStart => .ok (some .drop)
  | some .lifetimeEnd => .ok (some .drop)
  | some .ctlz => (site.leadingZeros caller).map fun steps => some (.replace steps)
  | _ => site.byName caller ret

end Postlink
