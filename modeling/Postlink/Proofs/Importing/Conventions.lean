import Postlink.Proofs.Demand.Conventions
import Postlink.Proofs.Importing.Definitions

/-!
# The conventions of an import

What an import links has the conventions that the walk gave it, and linking changes callees and
names only. So the definitions of the program keep their conventions, the library bodies that were
loaded have conventions of definitions of the program that reach them, and each call in these bodies
has the convention of the function that it stands in (`Conforms`).
-/

namespace Postlink

/-- Conventions after an import that renames the library's functions. -/
structure Conforms (program library : Module) (ρ : String → String) (out : Module) : Prop where
  /-- Only an internal definition that the program defines too takes another name, which is new. -/
  other : ∀ name, ρ name ≠ name → library.isInternal name = true ∧ program.defines name = true ∧
    program.func? (ρ name) = none
  /-- A definition of the program keeps its body and its convention, which all its calls have. -/
  own : ∀ p ∈ program.functions, p.isDeclared = false →
    ∃ g, out.func? p.name = some g ∧ g.skeleton = p.skeleton ∧ g.conv = p.conv ∧ g.Uniform
  /-- A library definition that is reached has the convention of a definition of the program that
  reaches it, and all its calls have it too. -/
  reached : ∀ name, Reached program library name →
    ∃ f g, library.func? name = some f ∧ out.func? (ρ name) = some g ∧
      g.skeleton = (f.opened.renameBy ρ).skeleton ∧ g.Uniform ∧
      ∃ p ∈ program.functions, p.isDeclared = false ∧ ReachedFrom program library p.name name ∧
        g.conv = p.conv

section Links

variable {program library out src src' : Module} {d : Demand} {ρ : String → String} {gained : Nat}
  (hd : Demand.Explored program library d []) (hattuned : Demand.Attuned program library d [])

include hd hattuned

/-- A definition of the program after a link. -/
theorem Demand.Attuned.exists_own (hprogram : program.DistinctNames)
    (hroots : ∀ root ∈ program.functions.map Func.name, (Side.program, root) ∈ d.visited)
    (hsettled : Module.Settled d.program src (d.program.clashes src) ρ src')
    (hout : Module.Moved d.program src'.functions (out, gained)) {p : Func}
    (hp : p ∈ program.functions) (hdef : p.isDeclared = false) :
    ∃ g, out.func? p.name = some g ∧ g.skeleton = p.skeleton ∧ g.conv = p.conv ∧ g.Uniform := by
  obtain ⟨q, hq, hneutral⟩ : ∃ q, d.program.func? p.name = some q ∧ q.neutral = p.neutral := by
    have hfind := (hd.program_func? p.name).1
    rw [hprogram.func?_eq hp, Option.map_some, Option.map_eq_some_iff] at hfind
    exact hfind
  obtain ⟨hmem, hname⟩ := Module.mem_of_func? hq
  have hqdef : q.isDeclared = false := by
    rw [← q.isDeclared_neutral, hneutral, Func.isDeclared_neutral, hdef]
  obtain ⟨p', hp', hconv⟩ := hattuned.granted .program p.name q hq (Or.inl rfl)
  rw [hprogram.func?_eq hp] at hp'
  cases hp'
  have huniform : q.Uniform :=
    hattuned.uniform .program p.name q hq (hroots _ (List.mem_map_of_mem hp))
  have hfound := hout.func?_of_defined (hd.program_distinctNames hprogram) hsettled hmem hqdef
  rw [hname] at hfound
  refine ⟨_, hfound, ?_, hconv.symm, huniform.recast _ _⟩
  rw [Func.skeleton_recast, Func.skeleton_congr hneutral]

/-- A library definition that was reached after a link. -/
theorem Demand.Attuned.exists_reached (hprogram : program.DistinctNames)
    (hlibrary : library.DistinctNames) (harchived : library.Archived)
    (hvisited : ∀ name, (Side.library, name) ∈ d.visited ↔ Reached program library name)
    (hload : d.library.dropUnused.loadAll = (.ok (), src))
    (hsettled : Module.Settled d.program src (d.program.clashes src) ρ src')
    (hout : Module.Moved d.program src'.functions (out, gained)) {name : String}
    (hreached : Reached program library name) :
    ∃ f g, library.func? name = some f ∧ out.func? (ρ name) = some g ∧
      g.skeleton = (f.opened.renameBy ρ).skeleton ∧ g.Uniform ∧
      ∃ p ∈ program.functions, p.isDeclared = false ∧ ReachedFrom program library p.name name ∧
        g.conv = p.conv := by
  have hseen := (hvisited name).2 hreached
  obtain ⟨f, hf, hdef⟩ := Module.defines_iff.1 hreached.defines
  obtain ⟨hfmem, rfl⟩ := Module.mem_of_func? hf
  obtain ⟨g, hg, hneutral⟩ : ∃ g, d.library.func? f.name = some g ∧
      g.neutral = f.opened.neutral := by
    have hfind := (hd.library_func? f.name).1
    rw [hf, Option.map_some, Option.map_eq_some_iff, Demand.view_of_mem hseen] at hfind
    exact hfind
  obtain ⟨hgmem, hgname⟩ := Module.mem_of_func? hg
  -- The walk has decoded the function, so it is linked as it is.
  have hgloaded : g.body.isLoaded = true := by
    rw [Func.isLoaded_congr (Func.skeleton_congr hneutral)]
    exact harchived.isLoaded_opened hfmem hdef
  obtain ⟨hgdef, hgstored⟩ := Func.isLoaded_iff.1 hgloaded
  have hgsrc : g ∈ src.functions := by
    rw [Module.functions_of_loadAll hload, Module.dropUnused,
      (hd.library_distinctNames hlibrary).foldl_eraseFunc]
    refine List.mem_map.2 ⟨g, List.mem_filter.2 ⟨hgmem, ?_⟩, Func.opened_eq_self hgstored⟩
    rw [decide_eq_true_iff, hgname, hd.mem_unused_iff harchived hvisited hlibrary hfmem, not_not]
    exact Or.inl hreached
  have hdest := hd.program_distinctNames hprogram
  obtain ⟨gs, _, hlanded⟩ := hout.exists_landed hdest hsettled hgsrc hgdef
  have hfound : out.func? (ρ f.name) = some ((g.renameBy ρ).recast d.program.functions gs) := by
    refine (hout.distinctNames hdest hsettled.names).func?_eq_some_iff.2 ⟨hlanded, ?_⟩
    rw [Func.name_recast, Func.name_renameBy, hgname]
  obtain ⟨p, hp, hpdef, hchain, hconv⟩ := hattuned.granted .library f.name g hg (Or.inr hseen)
  have huniform := hattuned.uniform .library f.name g hg hseen
  refine ⟨f, _, hf, hfound, ?_, (huniform.renameBy ρ).recast _ _, p, hp, hpdef, hchain, hconv.symm⟩
  rw [Func.skeleton_recast, Func.skeleton_renameBy, Func.skeleton_congr hneutral,
    ← Func.skeleton_renameBy]

end Links

/-- After an import the definitions of the program have their own conventions, the library bodies
that were loaded have conventions of definitions of the program that reach them, and all calls in
these bodies have the convention of the function that they stand in. -/
theorem importFrom_conforms {program library out : Module} (hloaded : program.isLoaded = true)
    (hprogram : program.DistinctNames) (hlibrary : library.DistinctNames)
    (harchived : library.Archived) {stats : ImportStats}
    (h : program.importFrom library = .ok (stats, out)) :
    ∃ ρ : String → String, Conforms program library ρ out := by
  obtain ⟨d, src, hwalk, _, hload, hlink⟩ := Module.importFrom_eq_ok h
  obtain ⟨hd, hvisited⟩ := Demand.Explored.of_walk hloaded hprogram hlibrary harchived hwalk
  obtain ⟨_, hroots, _⟩ :=
    (Demand.Explored.start program library).walk hloaded hprogram hlibrary harchived hwalk
  have hattuned := Demand.Attuned.of_walk hloaded hprogram hlibrary harchived hwalk
  obtain ⟨ρ, src', hsettled, hout⟩ := Module.link_eq (hd.program_distinctNames hprogram)
    (hd.distinctNames_loadAll hlibrary hload) hlink
  have himported := hd.imported hvisited hlibrary harchived hload hsettled hout
  refine ⟨ρ, ?_, ?_, ?_⟩
  · intro name hchanged
    exact himported.isInternal_of_ne hlibrary hchanged
  · intro p hp hdef
    exact hattuned.exists_own hd hprogram hroots hsettled hout hp hdef
  · intro name hreached
    exact hattuned.exists_reached hd hprogram hlibrary harchived hvisited hload hsettled
      hout hreached

section Sample

/-- The same function with another convention. -/
def Func.under (conv : Convention) (f : Func) : Func := { f with conv := conv }

/-- A procedure that calls another one, and then what it is handed. -/
def Func.callingBack (name target : String) : Func :=
  .define name ⟨.void, [.ptr .void]⟩ [⟨"entry",
    [⟨0, "", .void, .call ⟨.func target, ⟨.void, []⟩, [], .c⟩, none⟩,
      ⟨1, "", .void, .call ⟨.arg 0, ⟨.void, []⟩, [], .c⟩, none⟩,
      ⟨2, "", .void, .ret none, none⟩]⟩]

/-- A kernel and a fast procedure, which call a ring at different places, and a helper. -/
def mixedProgram : Module :=
  ⟨"p", [], [.declare "even" ⟨.void, []⟩, .declare "odd" ⟨.void, []⟩,
    (Func.calling "helper" []).under .spirFunc,
    (Func.calling "driver" [("odd", []), ("helper", [])]).under .fast,
    (Func.calling "kernel" [("even", []), ("driver", [])]).under .spirKernel]⟩

/-- A ring of two procedures, one of which calls what it is handed, and an internal helper. -/
def mixedLibrary : Module :=
  ⟨"l", [], [(Func.calling "even" [("odd", []), ("helper", [])]).packed,
    (Func.callingBack "odd" "even").packed,
    { (Func.calling "helper" []).packed with linkage := .internal }]⟩

/-- The conventions of the functions and of their calls. -/
def Module.conventions (m : Module) : List (String × Convention × List Convention) :=
  m.functions.map fun f => (f.name, f.conv, f.calls.map Call.conv)

/-- Both the kernel and the fast procedure reach the ring. It takes the convention of the one that
asks first, and so does the helper that comes with it under a new name. -/
theorem importFrom_conforms_mixed :
    mixedProgram.isLoaded = true ∧ mixedProgram.DistinctNames ∧ mixedLibrary.DistinctNames ∧
    mixedLibrary.Archived ∧
    ∃ stats out, mixedProgram.importFrom mixedLibrary = .ok (stats, out) ∧
      out.conventions = [("even", .fast, [.fast, .fast]), ("odd", .fast, [.fast, .fast]),
        ("helper", .spirFunc, []), ("driver", .fast, [.fast, .fast]),
        ("kernel", .spirKernel, [.spirKernel, .spirKernel]), ("helper.1", .fast, [])] ∧
      ∃ ρ : String → String, Conforms mixedProgram mixedLibrary ρ out := by
  have hloaded : mixedProgram.isLoaded = true := by decide +kernel
  have hprogram : mixedProgram.DistinctNames := by decide +kernel
  have hlibrary : mixedLibrary.DistinctNames := by decide +kernel
  -- Evaluated together, so that the bodies are decoded only once.
  obtain ⟨harchived, hconvs⟩ : mixedLibrary.Archived ∧
      (mixedProgram.importFrom mixedLibrary).toOption.map (fun r => r.2.conventions) =
      some [("even", .fast, [.fast, .fast]), ("odd", .fast, [.fast, .fast]),
        ("helper", .spirFunc, []), ("driver", .fast, [.fast, .fast]),
        ("kernel", .spirKernel, [.spirKernel, .spirKernel]), ("helper.1", .fast, [])] := by
    decide +kernel
  refine ⟨hloaded, hprogram, hlibrary, harchived, ?_⟩
  obtain ⟨r, hr, hout⟩ := exists_ok_of_map hconvs
  exact ⟨r.1, r.2, hr, hout, importFrom_conforms hloaded hprogram hlibrary harchived hr⟩

end Sample

end Postlink
