import Postlink.Erasure
import Postlink.Lowering.Verdict
import Postlink.Visibility

/-!
# Lowering builtin calls

Direct calls of catalogued builtins are replaced by intrinsics or plain arithmetic, and calls that
mark lifetimes are dropped. The calls of a function are listed before any of them is replaced, and a
replacement takes its arguments from that list. New instructions go in front of the old call, carry
its name and place, and the last one takes over its uses; old calls are removed at the end.
-/

namespace Postlink

/-- What lowering did. -/
structure LoweringStats where
  /-- Calls replaced. -/
  lowered : Nat
  /-- Lifetime markers dropped. -/
  dropped : Nat
  /-- Symbols made internal. -/
  internalized : Nat
  deriving DecidableEq, Repr

/-- The state of lowering. -/
structure Lowering where
  /-- The module so far. -/
  module : Module
  /-- The old calls. -/
  pending : Erasure
  /-- What has been done. -/
  stats : LoweringStats
  deriving DecidableEq, Repr

namespace Lowering

/-- The start of lowering. -/
def start (m : Module) : Lowering := ⟨m, .empty, ⟨0, 0, 0⟩⟩

/-- Insert one step in front of the old call; the new result is for the next step. -/
def emitStep (mode : Overflow) (site : DirectCall) (s : Func × Option Operand) (step : Step) :
    Except Fault (Func × Option Operand) :=
  let (ty, kind) := step.instruction s.2
  (s.1.insertBefore mode site.instr.id ⟨0, site.instr.name, ty, kind, site.instr.loc⟩).map
    fun r => (r.2, some (.inst r.1))

/-- Insert the steps in front of the old call and let the last one take over its uses. -/
def emit (mode : Overflow) (site : DirectCall) (steps : List Step) (f : Func) :
    Except Fault Func :=
  (steps.foldlM (emitStep mode site) (f, none)).map fun r =>
    match r.2 with
    | none => r.1
    | some result => r.1.replaceUses site.instr.id result

/-- Lower one call of the function at a position. -/
def lowerSite (mode : Overflow) (index : Nat) (s : Lowering) (site : DirectCall) :
    Except Failure Lowering :=
  match s.module.functions[index]? with
  | none => .ok s
  | some f =>
      match s.module.verdict f.name site with
      | .error e => .error e
      | .ok none => .ok s
      | .ok (some .drop) =>
          .ok { s with
            pending := s.pending.addInstr f.name site.instr.id
            stats := { s.stats with dropped := s.stats.dropped + 1 } }
      | .ok (some (.replace steps)) =>
          match emit mode site steps f with
          | .error e => .error (.fault e)
          | .ok g =>
              .ok { s with
                module := (steps.foldl Step.declare s.module).setFunc index g
                pending := s.pending.addInstr f.name site.instr.id
                stats := { s.stats with lowered := s.stats.lowered + 1 } }

/-- Lower the calls of the function at a position. -/
def lowerAt (mode : Overflow) (s : Lowering) (index : Nat) : Except Failure Lowering :=
  match s.module.functions[index]? with
  | none => .ok s
  | some f => f.directCalls.foldlM (lowerSite mode index) s

/-- Lower the calls of every function that is there at the start. -/
def sweep (mode : Overflow) (m : Module) : Except Failure Lowering :=
  (List.range m.functions.length).foldlM (lowerAt mode) (start m)

end Lowering

/-- Lower the builtin calls, then make symbols internal if asked to. -/
def Module.lower (mode : Overflow) (internal : Bool) (m : Module) :
    Except Failure (LoweringStats × Module) :=
  (Lowering.sweep mode m).map fun s =>
    let cleared := (s.pending.carryOut s.module).module
    if internal then
      ({ s.stats with internalized := cleared.internalize.2 }, cleared.internalize.1)
    else (s.stats, cleared)

end Postlink
