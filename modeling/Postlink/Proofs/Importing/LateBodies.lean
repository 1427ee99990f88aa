import Postlink.Proofs.Importing.Definitions
import Postlink.Proofs.Importing.Retention

/-!
# Program bodies that an import loads

A program with bodies still stored has those loaded that the functions followed call. What such a
body calls in turn is fetched if its function comes after the root on whose behalf it was loaded. A
function that had its turn before gets its body too late: its calls are not followed any more
(`Late`), and what it needs from the library is there only if another body asks for it or names it.
-/

namespace Postlink

/-- What the bodies of the program that are loaded in the result call has a body, if the program
defines no such function and the library does. -/
def Provided (program library out : Module) : Prop :=
  ∀ f ∈ program.functions, out.loads f.name = true → ∀ callee ∈ f.opened.callees,
    program.defines callee = false → library.defines callee = true → out.defines callee = true

instance (program library out : Module) : Decidable (Provided program library out) :=
  inferInstanceAs (Decidable (∀ f ∈ program.functions, out.loads f.name = true →
    ∀ callee ∈ f.opened.callees, program.defines callee = false → library.defines callee = true →
      out.defines callee = true))

/-- A body of the program that is loaded without its calls being followed. -/
def Late (program library : Module) (caller : String) : Prop :=
  Woken program library caller ∧ ∀ root, ¬ Follows program library root .program caller

/-- A function that only the library defines, and that it does not retain although a body of the
program calls it that is loaded in the end. -/
def Neglected (program library : Module) (callee : String) : Prop :=
  program.defines callee = false ∧ library.defines callee = true ∧
    ¬ Retained program library callee ∧
    ∃ f ∈ program.functions, callee ∈ f.opened.callees ∧
      (f.isStored = true → Woken program library f.name)

section Callers

variable {program library : Module} (hprogram : program.DistinctNames)

/-- A function that calls another one has a body. -/
theorem Func.isDeclared_of_mem_callees {f : Func} {callee : String}
    (h : callee ∈ f.opened.callees) : f.isDeclared = false := by
  obtain ⟨i, hi, _⟩ := (Func.mem_callees_iff _ _).1 h
  rw [← Func.isDeclared_opened]
  exact Func.isDeclared_of_mem hi

include hprogram

/-- Where names are distinct, a name is stored if its function is. -/
theorem Module.DistinctNames.stores_eq {f : Func} (hf : f ∈ program.functions) :
    program.stores f.name = f.isStored := by
  rw [Module.stores, hprogram.func?_eq hf, Option.any_some]

/-- Where names are distinct, a name calls what its function does. -/
theorem Module.DistinctNames.mem_callees_iff {f : Func} (hf : f ∈ program.functions)
    (callee : String) : callee ∈ program.callees f.name ↔ callee ∈ f.opened.callees := by
  rw [Module.callees, hprogram.func?_eq hf, Option.elim_some]

/-- A caller whose body is loaded in the end is late, or what it calls in the library is fetched. -/
theorem late_or_fetched (harchived : library.Archived) {f : Func} (hf : f ∈ program.functions)
    (hwoken : f.isStored = true → Woken program library f.name) {callee : String}
    (hcallee : callee ∈ f.opened.callees) (hown : program.defines callee = false)
    (hdefines : library.defines callee = true) :
    Late program library f.name ∨ Fetched program library callee := by
  by_cases hfollows : ∃ root, Follows program library root .program f.name
  · obtain ⟨root, hfollows⟩ := hfollows
    have hpresent := hfollows.present ((hprogram.mem_callees_iff hf callee).2 hcallee)
      ⟨hdefines, fun _ => hown⟩
    exact Or.inr (hpresent.fetched harchived)
  · refine Or.inl ⟨hwoken ?_, fun root hroot => hfollows ⟨root, hroot⟩⟩
    -- A function that is not stored is followed for its own sake.
    by_contra hstored
    rw [Bool.not_eq_true, ← hprogram.stores_eq hf] at hstored
    refine hfollows ⟨f.name, .root ?_ hstored⟩
    rw [hprogram.func?_eq hf]
    rfl

/-- What is neglected is called too late, or has a declaration after its definition. -/
theorem Neglected.late_or_declared (harchived : library.Archived) {callee : String}
    (h : Neglected program library callee) :
    (∃ f ∈ program.functions, Late program library f.name ∧ callee ∈ f.opened.callees) ∨
      ∃ g, (library.namesakes callee).getLast? = some g ∧ g.isDeclared = true := by
  obtain ⟨hown, hdefines, hnot, f, hf, hcallee, hwoken⟩ := h
  rcases late_or_fetched hprogram harchived hf hwoken hcallee hown hdefines with hlate | hfetched
  · exact Or.inl ⟨f, hf, hlate, hcallee⟩
  · right
    obtain ⟨g, hg, _⟩ := Module.defines_iff.1 hdefines
    cases hlast : (library.namesakes callee).getLast? with
    | none =>
        rw [List.getLast?_eq_none_iff, Module.namesakes_eq_cons hg] at hlast
        cases hlast
    | some last =>
        refine ⟨last, rfl, ?_⟩
        by_contra hdef
        exact hnot (Or.inr ⟨Or.inr hfetched, last, hlast, Bool.not_eq_true _ ▸ hdef⟩)

end Callers

/-- What the loaded bodies of the program call is provided after an import, except for what was
neglected, unless a renamed definition happened to get its name. Only bodies that were loaded too
late have their calls neglected, or calls of a name that the library defines and then declares
again. -/
theorem provided_importFrom_iff {program library out : Module} (hprogram : program.DistinctNames)
    (harchived : library.Archived) {stats : ImportStats}
    (h : program.importFrom library = .ok (stats, out)) :
    (Provided program library out ↔
      ∀ callee, Neglected program library callee → Usurped program library out callee) ∧
    ∀ callee, Neglected program library callee →
      (∃ f ∈ program.functions, Late program library f.name ∧ callee ∈ f.opened.callees) ∨
        ∃ g, (library.namesakes callee).getLast? = some g ∧ g.isDeclared = true := by
  -- The bodies that are loaded in the end are those that were, or that something woke.
  have hloads : ∀ f ∈ program.functions, ∀ callee ∈ f.opened.callees,
      (out.loads f.name = true ↔ (f.isStored = true → Woken program library f.name)) := by
    intro f hf callee hcallee
    rw [← hprogram.stores_eq hf]
    refine loads_importFrom_iff hprogram h (Module.defines_iff.2 ⟨f, hprogram.func?_eq hf, ?_⟩)
    exact Func.isDeclared_of_mem_callees hcallee
  refine ⟨⟨?_, ?_⟩, fun callee hneglected => hneglected.late_or_declared hprogram harchived⟩
  · rintro hprovided callee ⟨hown, hdefines, hnot, f, hf, hcallee, hwoken⟩
    have hout := hprovided f hf ((hloads f hf callee hcallee).2 hwoken) callee hcallee hown hdefines
    exact ((defines_importFrom_iff hprogram h harchived.fronted hown).1 hout).resolve_left hnot
  · intro husurped f hf hloaded callee hcallee hown hdefines
    rw [defines_importFrom_iff hprogram h harchived.fronted hown]
    by_cases hretained : Retained program library callee
    · exact Or.inl hretained
    · have hwoken := (hloads f hf callee hcallee).1 hloaded
      exact Or.inr (husurped callee ⟨hown, hdefines, hretained, f, hf, hcallee, hwoken⟩)

section Sample

/-- A kernel that calls a relay. -/
def relayCaller : Func := .calling "f" [("g", [])]

/-- The relay, which calls a library procedure and is still stored. -/
def storedRelay : Func := (Func.calling "g" [("h", [])]).packed

/-- A program with some functions, in which one procedure is left to a library. -/
def relayProgram (functions : List Func) : Module :=
  ⟨"p", [], functions ++ [.declare "h" ⟨.void, []⟩]⟩

/-- The library with that procedure. -/
def relayLibrary : Module := ⟨"l", [], [(Func.calling "h" []).packed]⟩

/-- The relay comes after its caller, so its call is followed. -/
theorem provided_importFrom_callerFirst :
    (relayProgram [relayCaller, storedRelay]).DistinctNames ∧ relayLibrary.Archived ∧
    ∃ stats out, (relayProgram [relayCaller, storedRelay]).importFrom relayLibrary =
      .ok (stats, out) ∧ out.loads "g" = true ∧ out.defines "h" = true ∧
      ∀ callee, Neglected (relayProgram [relayCaller, storedRelay]) relayLibrary callee →
        Usurped (relayProgram [relayCaller, storedRelay]) relayLibrary out callee := by
  have hprogram : (relayProgram [relayCaller, storedRelay]).DistinctNames := by decide +kernel
  -- Evaluated together, so that the bodies are decoded only once.
  obtain ⟨harchived, hgood⟩ : relayLibrary.Archived ∧
      ((relayProgram [relayCaller, storedRelay]).importFrom relayLibrary).toOption.any (fun r =>
        r.2.loads "g" = true ∧ r.2.defines "h" = true ∧
          Provided (relayProgram [relayCaller, storedRelay]) relayLibrary r.2) = true := by
    decide +kernel
  refine ⟨hprogram, harchived, ?_⟩
  obtain ⟨r, hr, hout⟩ := exists_ok_of_any hgood
  obtain ⟨hloads, hdefines, hprovided⟩ := of_decide_eq_true hout
  exact ⟨r.1, r.2, hr, hloads, hdefines,
    (provided_importFrom_iff hprogram harchived hr).1.1 hprovided⟩

/-- The relay comes before its caller and is loaded after its turn, so its call finds no body. -/
theorem not_provided_importFrom_relayFirst :
    (relayProgram [storedRelay, relayCaller]).DistinctNames ∧ relayLibrary.Archived ∧
    ∃ stats out, (relayProgram [storedRelay, relayCaller]).importFrom relayLibrary =
      .ok (stats, out) ∧ out.loads "g" = true ∧ out.defines "h" = false ∧
      ¬ Provided (relayProgram [storedRelay, relayCaller]) relayLibrary out := by
  obtain ⟨harchived, hbad⟩ : relayLibrary.Archived ∧
      ((relayProgram [storedRelay, relayCaller]).importFrom relayLibrary).toOption.any (fun r =>
        r.2.loads "g" = true ∧ r.2.defines "h" = false ∧
          ¬ Provided (relayProgram [storedRelay, relayCaller]) relayLibrary r.2) = true := by
    decide +kernel
  refine ⟨by decide +kernel, harchived, ?_⟩
  obtain ⟨r, hr, hout⟩ := exists_ok_of_any hbad
  exact ⟨r.1, r.2, hr, of_decide_eq_true hout⟩

end Sample

end Postlink
