import Postlink.Proofs.Importing.Outcome

/-!
# The definitions that an import brings

An import loads as many bodies as the program reaches definitions. All of these end up in the result
with the bodies they have in the library, and whatever else the result gained is named by one of
them. Names change only where an internal definition of the library meets a definition of the
program.
-/

namespace Postlink

namespace Func

/-- Whether a body is loaded does not depend on callees and conventions. -/
theorem isLoaded_congr {f g : Func} (h : f.skeleton = g.skeleton) :
    f.body.isLoaded = g.body.isLoaded := by
  have hplain : ∀ f : Func, f.skeleton.body.isLoaded = f.body.isLoaded := by
    intro f
    simp only [skeleton, plain, mapInstrs]
    cases f.body <;> rfl
  rw [← hplain f, h, hplain g]

/-- Renaming does not decode a body. -/
theorem isLoaded_renameBy (ρ : String → String) (f : Func) :
    (f.renameBy ρ).body.isLoaded = f.body.isLoaded := by
  simp only [renameBy, mapInstrs]
  cases f.body <;> rfl

end Func

section Definitions

variable {program library : Module}

theorem Reached.defines {name : String} (h : Reached program library name) :
    library.defines name = true := by
  cases h <;> assumption

/-- A definition that is stored and can be decoded has a body. -/
theorem Module.Archived.isLoaded_opened (h : library.Archived) {f : Func}
    (hf : f ∈ library.functions) (hdef : f.isDeclared = false) : f.opened.body.isLoaded = true := by
  rw [Func.isLoaded_iff, Func.isDeclared_opened]
  refine ⟨hdef, ?_⟩
  obtain ⟨g, hload⟩ := h.exists_load hf hdef
  rw [Func.opened_of_load hload, Func.isStored_load hload]

/-- An import loads the bodies of exactly the definitions that the program reaches. Each of them is
in the result with its body, under its own name or, where an internal definition clashed with one of
the program, under a new one. What else the program gains is named by the body of one of them. -/
theorem importFrom_reached {out : Module} (hloaded : program.isLoaded = true)
    (hprogram : program.DistinctNames) (hlibrary : library.DistinctNames)
    (harchived : library.Archived) {stats : ImportStats}
    (h : program.importFrom library = .ok (stats, out)) :
    stats.loaded = Set.ncard {name | Reached program library name} ∧
    ∃ ρ : String → String,
      (∀ name, ρ name ≠ name → library.isInternal name = true ∧ program.defines name = true ∧
        program.func? (ρ name) = none) ∧
      Set.InjOn ρ {name | (library.func? name).isSome ∧ Kept program library name} ∧
      (∀ name, Reached program library name → ∃ f g, library.func? name = some f ∧
        out.func? (ρ name) = some g ∧ g.body.isLoaded = true ∧
        g.skeleton = (f.opened.renameBy ρ).skeleton) ∧
      ∀ g ∈ out.functions, program.func? g.name = none → ∃ name, g.name = ρ name ∧
        (library.func? name).isSome ∧
        (Reached program library name ∨
          ∃ holder, Reached program library holder ∧ library.Mentions holder name) := by
  obtain ⟨hcount, moved, ρ, himported⟩ :=
    exists_imported hloaded hprogram hlibrary harchived h
  have hsub : ∀ f ∈ moved, f ∈ library.functions := fun f hf => himported.sublist.subset hf
  refine ⟨hcount, ρ, fun name => himported.isInternal_of_ne hlibrary, ?_, ?_, ?_⟩
  · have hmoved : ∀ name, (library.func? name).isSome ∧ Kept program library name →
        ∃ f ∈ moved, f.name = name := by
      rintro name ⟨hsome, hkept⟩
      obtain ⟨f, hf⟩ := Option.isSome_iff_exists.1 hsome
      obtain ⟨hmem, rfl⟩ := Module.mem_of_func? hf
      exact ⟨f, (himported.mem_iff f hmem).2 hkept, rfl⟩
    intro a ha b hb hab
    obtain ⟨f, hf, rfl⟩ := hmoved a ha
    obtain ⟨g, hg, rfl⟩ := hmoved b hb
    rw [List.inj_on_of_nodup_map himported.distinct hf hg hab]
  · intro name hreached
    obtain ⟨f, hf, hdef⟩ := Module.defines_iff.1 hreached.defines
    obtain ⟨hmem, rfl⟩ := Module.mem_of_func? hf
    have hmoved := (himported.mem_iff f hmem).2 (Or.inl hreached)
    obtain ⟨g, hg, hname, hskeleton⟩ := himported.exists_of_moved hprogram hmoved
    refine ⟨f, g, hf, ?_, ?_, hskeleton hdef⟩
    · exact (himported.distinctNames hprogram).func?_eq_some_iff.2 ⟨hg, hname⟩
    · rw [Func.isLoaded_congr (hskeleton hdef), Func.isLoaded_renameBy]
      exact harchived.isLoaded_opened hmem hdef
  · intro g hg hnew
    rcases himported.mem_cases hg with ⟨p, hp, hskeleton⟩ | ⟨f, hf, hskeleton⟩
    · have hname : p.name = g.name := by rw [← p.name_skeleton, ← hskeleton, Func.name_skeleton]
      exact absurd hname (Module.func?_eq_none_iff.1 hnew p hp)
    · have hname : g.name = ρ f.name := by
        rw [← g.name_skeleton, hskeleton, Func.name_skeleton, Func.name_renameBy, Func.name_opened]
      refine ⟨f.name, hname, ?_, (himported.mem_iff f (hsub f hf)).1 hf⟩
      rw [hlibrary.func?_eq (hsub f hf)]
      rfl

end Definitions

section Sample

/-- A procedure that makes some calls one after the other. -/
def Func.calling (name : String) (calls : List (String × List Operand)) : Func :=
  .define name ⟨.void, []⟩ [⟨"entry",
    (calls.mapIdx fun id c => ⟨id,
      "", .void, .call ⟨.func c.1, ⟨.void, c.2.map fun _ => .ptr .void⟩,
      c.2, .c⟩, none⟩) ++ [⟨calls.length, "", .void, .ret none, none⟩]⟩]

/-- The same function with its body encoded. -/
def Func.packed (f : Func) : Func :=
  match f.body with
  | .loaded blocks =>
      let bytes := Json.utf8 blocks.encode.compact
      { f with body := .stored ⟨bytes, ⟨0, bytes.length⟩⟩ }
  | _ => f

/-- A kernel with a helper of its own. -/
def ringProgram : Module :=
  ⟨"p", [], [.declare "even" ⟨.void, []⟩, .declare "odd" ⟨.void, []⟩, .calling "helper" [],
    .calling "kernel" [("even", []), ("odd", []), ("helper", [])]]⟩

/-- Two procedures that call each other, an internal helper of one of them, and a procedure that
nothing calls. -/
def ringLibrary : Module :=
  ⟨"l", [], [(Func.calling "even" [("odd", [])]).packed,
    (Func.calling "odd" [("even", []), ("helper", [])]).packed,
    { (Func.calling "helper" []).packed with linkage := .internal },
    (Func.calling "spare" []).packed]⟩

/-- The ring and its helper are loaded once each, and nothing else comes with them. -/
theorem importFrom_reached_ring :
    ringProgram.isLoaded = true ∧ ringProgram.DistinctNames ∧ ringLibrary.DistinctNames ∧
    ringLibrary.Archived ∧
    ∃ stats out, ringProgram.importFrom ringLibrary = .ok (stats, out) ∧
      Set.ncard {name | Reached ringProgram ringLibrary name} = 3 ∧
      ∃ ρ : String → String, ∀ g ∈ out.functions, ringProgram.func? g.name = none →
        ∃ name, g.name = ρ name ∧ (ringLibrary.func? name).isSome ∧
          (Reached ringProgram ringLibrary name ∨ ∃ holder,
            Reached ringProgram ringLibrary holder ∧ ringLibrary.Mentions holder name) := by
  have hloaded : ringProgram.isLoaded = true := by decide +kernel
  have hprogram : ringProgram.DistinctNames := by decide +kernel
  have hlibrary : ringLibrary.DistinctNames := by decide +kernel
  -- Evaluated together, so that the bodies are decoded only once.
  obtain ⟨harchived, hcount⟩ : ringLibrary.Archived ∧
      (ringProgram.importFrom ringLibrary).toOption.map (fun r => r.1.loaded) = some 3 := by
    decide +kernel
  refine ⟨hloaded, hprogram, hlibrary, harchived, ?_⟩
  obtain ⟨r, hr, hthree⟩ := exists_ok_of_map hcount
  obtain ⟨hncard, ρ, _, _, _, hnew⟩ := importFrom_reached hloaded hprogram hlibrary harchived hr
  exact ⟨r.1, r.2, hr, hncard.symm.trans hthree, ρ, hnew⟩

end Sample

end Postlink
