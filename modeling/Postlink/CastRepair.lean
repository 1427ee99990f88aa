import Postlink.Erasure

/-!
# Repairing calls through casts

A call whose callee is a cast of a defined function expects a signature that the function does not
have. Such a call is redirected to a copy of the function that has the expected signature, provided
the number of arguments agrees. One copy serves all calls that expect the same signature of the same
function. Copies are appended and swept in their turn, and the old calls are removed at the end,
together with copied functions that nothing uses any more.

The sweep visits as many positions as the module has functions and calls through casts. Each copy
answers to a call through a cast that was there at the start, so no copy is left out.
-/

namespace Postlink

/-- A call through a cast of a defined function. -/
structure CastCall where
  /-- The identifier of the call. -/
  id : Nat
  /-- The function below the cast. -/
  target : String
  /-- The signature that the call expects. -/
  sig : Signature
  deriving DecidableEq, Repr

/-- What a repair did. -/
structure RepairStats where
  /-- Copies made. -/
  created : Nat
  /-- Calls redirected to a copy. -/
  redirected : Nat
  /-- Calls left alone because the number of arguments differs. -/
  unresolved : Nat
  /-- Copied functions removed because nothing uses them. -/
  removed : Nat
  deriving DecidableEq, Repr

/-- The state of a repair. -/
structure Repair where
  /-- The module so far. -/
  module : Module
  /-- The name of each copy, by function and signature. -/
  copies : List ((String × Signature) × String)
  /-- The old calls. -/
  pending : Erasure
  /-- What has been done. -/
  stats : RepairStats
  deriving DecidableEq, Repr

/-- The function that a call names through a cast. -/
def Call.throughCast? (c : Call) : Option String :=
  match c.callee with
  | .cast _ _ => c.callee.func?
  | _ => none

namespace Module

/-- The instruction as a call through a cast of a function defined here. -/
def castCall? (m : Module) (i : Instr) : Option CastCall := do
  let c ← i.call?
  let target ← c.throughCast?
  if m.defines target then some ⟨i.id, target, c.sig⟩ else none

/-- The calls through casts in a function, in order. -/
def castCalls (m : Module) (f : Func) : List CastCall := f.instrs.filterMap m.castCall?

/-- The number of calls through a cast of a named function, defined or not. -/
def castCallCount (m : Module) : Nat :=
  m.instrs.countP fun i => (i.call?.bind Call.throughCast?).isSome

/-- The copy of a function that a call through a cast asks for. -/
def copyFor? (m : Module) (c : CastCall) : Option Func :=
  match m.func? c.target with
  | none => none
  | some f =>
      if f.sig.arity = c.sig.arity then
        some { Func.define (m.freeName f.name) c.sig f.blocks with
          conv := f.conv, linkage := f.linkage, attributes := f.attributes, params := f.params }
      else none

end Module

namespace Repair

/-- The start of a repair. -/
def start (m : Module) : Repair := ⟨m, [], .empty, ⟨0, 0, 0, 0⟩⟩

/-- The name of the copy for a call, made if it is not there yet. -/
def copy? (s : Repair) (c : CastCall) : Option (String × Repair) :=
  match s.copies.lookup (c.target, c.sig) with
  | some name => some (name, s)
  | none =>
      match s.module.copyFor? c with
      | none => none
      | some f =>
          some (f.name, { s with
            module := s.module.addFunc f
            copies := s.copies ++ [((c.target, c.sig), f.name)]
            stats := { s.stats with created := s.stats.created + 1 } })

/-- The call that replaces an old one. -/
def redirected (name : String) (sig : Signature) (old : Instr) (call : Call) : Instr :=
  { old with kind := .call { call with callee := .func name, sig := sig } }

/-- Put a call of the copy in front of the old call, let it take over the uses, and stage the old
call for removal. -/
def retarget (mode : Overflow) (index : Nat) (c : CastCall) (name : String) (s : Repair) :
    Except Fault Repair :=
  match s.module.functions[index]? with
  | none => .ok s
  | some f =>
      match f.instr? c.id with
      | none => .ok s
      | some old =>
          match old.call? with
          | none => .ok s
          | some call =>
              match f.insertBefore mode c.id (redirected name c.sig old call) with
              | .error e => .error e
              | .ok (id, g) =>
                  .ok { s with
                    module := s.module.setFunc index (g.replaceUses c.id (.inst id))
                    pending := s.pending.addInstr f.name c.id
                    stats := { s.stats with redirected := s.stats.redirected + 1 } }

/-- Redirect one call, if a copy can be had. -/
def repairCall (mode : Overflow) (index : Nat) (s : Repair) (c : CastCall) :
    Except Fault Repair :=
  match s.copy? c with
  | none => .ok { s with stats := { s.stats with unresolved := s.stats.unresolved + 1 } }
  | some (name, s) => s.retarget mode index c name

/-- Redirect the calls in the function at a position. -/
def sweepAt (mode : Overflow) (s : Repair) (index : Nat) : Except Fault Repair :=
  match s.module.functions[index]? with
  | none => .ok s
  | some f => (s.module.castCalls f).foldlM (repairCall mode index) s

/-- The positions that a sweep visits. -/
def positions (m : Module) : List Nat := List.range (m.functions.length + m.castCallCount)

/-- Redirect the calls in every function, copies included. -/
def sweep (mode : Overflow) (m : Module) : Except Fault Repair :=
  (positions m).foldlM (sweepAt mode) (start m)

/-- The module without the old calls. -/
def cleared (s : Repair) : Module := (s.pending.carryOut s.module).module

/-- The copied functions that nothing uses once the old calls are gone. -/
def unneeded (s : Repair) : List String :=
  ((s.copies.map fun c => c.1.1).eraseDups).filter fun name => s.cleared.useCount name == 0

/-- Remove the old calls and the functions that are no longer needed. -/
def finish (s : Repair) : RepairStats × Module :=
  let erasure := s.unneeded.foldl (fun e name => Erasure.addFunc name e) Erasure.empty
  ({ s.stats with removed := s.unneeded.length }, (erasure.carryOut s.cleared).module)

end Repair

/-- Redirect the calls through casts to copies with the signatures they expect. -/
def Module.repairCasts (mode : Overflow) (m : Module) : Except Fault (RepairStats × Module) :=
  (Repair.sweep mode m).map Repair.finish

end Postlink
