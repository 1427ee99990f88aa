import Postlink.Codec.Modules

/-!
# Loading stored bodies

A stored body is decoded when it is asked for, and only then is it found to be unreadable. Loading
changes nothing but the body and the counter of fresh identifiers, which starts anew. Loading all
bodies stops at the first unreadable one and keeps those before it.
-/

namespace Postlink

/-- Decode the body if it is stored. -/
def Func.load (f : Func) : Except Fault Func :=
  match f.body with
  | .stored s =>
      match Blocks.read? s.slice with
      | some bs => .ok { f with body := .loaded bs, nextId := none }
      | none => .error (.unreadableBody f.name)
  | _ => .ok f

/-- A loaded function keeps its name. -/
theorem Func.name_load {f g : Func} (h : f.load = .ok g) : g.name = f.name := by
  unfold load at h
  split at h
  · split at h
    · cases h; rfl
    · cases h
  · cases h; rfl

/-- No body is stored after loading. -/
theorem Func.isStored_load {f g : Func} (h : f.load = .ok g) : g.isStored = false := by
  unfold load at h
  split at h
  · split at h
    · cases h; rfl
    · cases h
  · rename_i hb
    cases h
    unfold isStored
    cases hf : f.body with
    | stored s => exact absurd hf (hb s)
    | _ => rfl

/-- Load functions in order up to the first unreadable one. -/
def loadEach : List Func → Except Fault Unit × List Func
  | [] => (.ok (), [])
  | f :: fs =>
      match f.load with
      | .error e => (.error e, f :: fs)
      | .ok g => ((loadEach fs).1, g :: (loadEach fs).2)

namespace Module

/-- Load the function with a name. -/
def load (name : String) (m : Module) : Except Fault Module :=
  match m.func? name with
  | none => .error (.unknownFunction name)
  | some f => f.load.map fun g => m.modifyFunc name fun _ => g

/-- Load every function: whether all could be, and the module as far as it got. -/
def loadAll (m : Module) : Except Fault Unit × Module :=
  ((loadEach m.functions).1, { m with functions := (loadEach m.functions).2 })

end Module

end Postlink
