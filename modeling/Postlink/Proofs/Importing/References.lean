import Postlink.Proofs.Importing.Definitions

/-!
# References after an import

A body that was not reached is still moved when a reached one names it. What such a body names in
turn is kept only if a reached body names it too, and the same holds for functions that the program
names without calling them. These are the stranded names: no other reference can be left unsatisfied
by an import.
-/

namespace Postlink

namespace Module

/-- In a closed module what a body names is there. -/
theorem Closed.isSome_func? {m : Module} (h : (m.mapFuncs Func.opened).Closed)
    {holder name : String} (hname : m.Mentions holder name) : (m.func? name).isSome = true := by
  obtain ⟨f, hf, _, o, ho, hfunc⟩ := hname
  have hsome := h f.opened (List.mem_map_of_mem hf) o ho name hfunc
  rw [isSome_func?_iff, functions_mapFuncs, List.map_map] at hsome
  rw [isSome_func?_iff]
  simpa only [Function.comp_def, Func.name_opened] using hsome

/-- A loaded module has nothing left to decode. -/
theorem mapFuncs_opened_of_isLoaded {m : Module} (h : m.isLoaded = true) :
    m.mapFuncs Func.opened = m := by
  rw [mapFuncs, List.map_congr_left fun f hf => opened_of_isLoaded h hf, List.map_id']

/-- A name stands for a function, and for a definition if the library had one. -/
def Supplies (library out : Module) (name : String) : Prop :=
  (out.func? name).isSome = true ∧ (library.defines name = true → out.defines name = true)

instance (library out : Module) (name : String) : Decidable (library.Supplies out name) :=
  inferInstanceAs (Decidable (_ ∧ _))

/-- Every function that a body names is supplied. -/
def Satisfied (library out : Module) : Prop :=
  ∀ g ∈ out.functions, ∀ o ∈ g.operands, ∀ name ∈ o.func?, library.Supplies out name

instance (library out : Module) : Decidable (library.Satisfied out) :=
  inferInstanceAs (Decidable (∀ g ∈ out.functions, ∀ o ∈ g.operands, ∀ name ∈ o.func?,
    library.Supplies out name))

/-- What is defined is supplied. -/
theorem supplies_of_defines {library out : Module} {name : String} (h : out.defines name = true) :
    library.Supplies out name :=
  ⟨isSome_func?_of_defines h, fun _ => h⟩

end Module

/-- In a closed library what is kept is there. -/
theorem Kept.isSome_func? {program library : Module}
    (hclosed : (library.mapFuncs Func.opened).Closed) {name : String}
    (h : Kept program library name) : (library.func? name).isSome = true := by
  rcases h with hreached | ⟨holder, _, hname⟩
  · exact Module.isSome_func?_of_defines hreached.defines
  · exact Module.Closed.isSome_func? hclosed hname

/-- A library function that an import leaves behind, although the program or a body that is moved
names it and no definition of the program stands in for it. -/
def Stranded (program library : Module) (name : String) : Prop :=
  (library.func? name).isSome = true ∧ ¬ Kept program library name ∧
  program.defines name = false ∧ (library.defines name = true ∨ program.func? name = none) ∧
  ((∃ holder, program.Mentions holder name) ∨
    ∃ holder, Kept program library holder ∧ library.Mentions holder name)

/-- An internal definition of the library that clashed with the program got this name, which was not
its own. -/
def Captured (program library out : Module) (name : String) : Prop :=
  out.defines name = true ∧ ∃ clash, clash ≠ name ∧ Kept program library clash ∧
    library.isInternal clash = true ∧ program.defines clash = true

namespace Func

theorem isDeclared_congr {f g : Func} (h : f.skeleton = g.skeleton) :
    f.isDeclared = g.isDeclared := by
  rw [← f.isDeclared_skeleton, h, g.isDeclared_skeleton]

theorem name_congr {f g : Func} (h : f.skeleton = g.skeleton) : f.name = g.name := by
  rw [← f.name_skeleton, h, g.name_skeleton]

/-- Which functions a body names does not depend on callees and conventions. -/
theorem mentions_iff_of_skeleton {f g : Func} (h : f.skeleton = g.skeleton) (name : String) :
    f.Mentions name ↔ g.Mentions name := by
  rw [← f.mentions_skeleton, h, g.mentions_skeleton]

end Func

namespace Imported

variable {program library out : Module} {moved : List Func} {ρ : String → String} {name : String}

/-- What is not kept keeps its name. -/
theorem rename_of_not_kept (h : Imported program library moved ρ out)
    (hkept : ¬ Kept program library name) : ρ name = name := by
  by_contra hchanged
  obtain ⟨_, f, hf, rfl, _⟩ := h.other name hchanged
  exact hkept ((h.mem_iff f (h.sublist.subset hf)).1 hf)

/-- What the program does not define keeps its name. -/
theorem rename_of_not_defines (h : Imported program library moved ρ out)
    (hdefines : program.defines name = false) : ρ name = name := by
  by_contra hchanged
  rw [(h.other name hchanged).1] at hdefines
  cases hdefines

/-- What the program has, the result has. -/
theorem isSome_of_program (h : Imported program library moved ρ out)
    (hprogram : program.DistinctNames) (hthere : (program.func? name).isSome = true) :
    (out.func? name).isSome = true := by
  obtain ⟨p, hp⟩ := Option.isSome_iff_exists.1 hthere
  obtain ⟨hmem, rfl⟩ := Module.mem_of_func? hp
  obtain ⟨g, hg, hname, _⟩ := h.exists_of_program hmem
  rw [(h.distinctNames hprogram).func?_eq_some_iff.2 ⟨hg, hname⟩]
  rfl

/-- What the program defines is still defined. -/
theorem defines_of_program (h : Imported program library moved ρ out)
    (hprogram : program.DistinctNames) (hdefines : program.defines name = true) :
    out.defines name = true := by
  obtain ⟨p, hp, hdef⟩ := Module.defines_iff.1 hdefines
  obtain ⟨hmem, rfl⟩ := Module.mem_of_func? hp
  obtain ⟨g, hg, hname, hskeleton⟩ := h.exists_of_program hmem
  refine Module.defines_iff.2
    ⟨g, (h.distinctNames hprogram).func?_eq_some_iff.2 ⟨hg, hname⟩, ?_⟩
  rw [Func.isDeclared_congr (hskeleton hdef), hdef]

/-- What is kept is in the result under its new name. A declaration keeps its name. -/
theorem supplies_of_kept (h : Imported program library moved ρ out)
    (hprogram : program.DistinctNames) (hlibrary : library.DistinctNames)
    (hthere : (library.func? name).isSome = true) (hkept : Kept program library name) :
    library.Supplies out (ρ name) := by
  obtain ⟨f, hf⟩ := Option.isSome_iff_exists.1 hthere
  obtain ⟨hmem, rfl⟩ := Module.mem_of_func? hf
  have hmoved := (h.mem_iff f hmem).2 hkept
  obtain ⟨g, hg, hname, hskeleton⟩ := h.exists_of_moved hprogram hmoved
  have hfound := (h.distinctNames hprogram).func?_eq_some_iff.2 ⟨hg, hname⟩
  cases hdef : f.isDeclared with
  | false =>
      refine Module.supplies_of_defines (Module.defines_iff.2 ⟨g, hfound, ?_⟩)
      rw [Func.isDeclared_congr (hskeleton hdef), Func.isDeclared_renameBy, Func.isDeclared_opened,
        hdef]
  | true =>
      refine ⟨by rw [hfound]; rfl, fun hdefines => ?_⟩
      have hsame : ρ f.name = f.name := by
        by_contra hchanged
        obtain ⟨_, f', hf', hname', hdef', _⟩ := h.other f.name hchanged
        rw [List.inj_on_of_nodup_map hlibrary (h.sublist.subset hf') hmem hname', hdef] at hdef'
        cases hdef'
      obtain ⟨f', hf', hdef'⟩ := Module.defines_iff.1 hdefines
      rw [hsame, hf, Option.some.injEq] at hf'
      rw [← hf', hdef] at hdef'
      cases hdef'

/-- A name that is left behind is supplied unless it is stranded. -/
theorem supplies_of_not_kept (h : Imported program library moved ρ out)
    (hprogram : program.DistinctNames) (hkept : ¬ Kept program library name)
    (hnamed : (∃ holder, program.Mentions holder name) ∨
      ∃ holder, Kept program library holder ∧ library.Mentions holder name)
    (hthere : (program.func? name).isSome = true ∨ (library.func? name).isSome = true)
    (hcaptured : Stranded program library name → out.defines name = true) :
    library.Supplies out name := by
  cases hdefines : program.defines name with
  | true => exact Module.supplies_of_defines (h.defines_of_program hprogram hdefines)
  | false =>
      by_cases hmissing : library.defines name = true ∨ program.func? name = none
      · refine Module.supplies_of_defines (hcaptured ⟨?_, hkept, hdefines, hmissing, hnamed⟩)
        rcases hmissing with hlib | hnone
        · exact Module.isSome_func?_of_defines hlib
        · rw [hnone] at hthere
          exact hthere.resolve_left Bool.false_ne_true
      · rw [not_or] at hmissing
        refine ⟨h.isSome_of_program hprogram ?_, fun hlib => absurd hlib hmissing.1⟩
        exact Option.isSome_iff_ne_none.2 hmissing.2

/-- A function of the result under a name that was left behind is one of the program, or it was
renamed to it. -/
theorem captured_of_func? (h : Imported program library moved ρ out)
    (hlibrary : library.DistinctNames) (hkept : ¬ Kept program library name) {g : Func}
    (hg : out.func? name = some g) :
    (∃ p ∈ program.functions, p.name = name ∧ p.isDeclared = g.isDeclared) ∨
      Captured program library out name := by
  obtain ⟨hmem, rfl⟩ := Module.mem_of_func? hg
  rcases h.mem_cases hmem with ⟨p, hp, hskeleton⟩ | ⟨f, hf, hskeleton⟩
  · exact Or.inl ⟨p, hp, (Func.name_congr hskeleton).symm, (Func.isDeclared_congr hskeleton).symm⟩
  · right
    have hname : g.name = ρ f.name := by
      rw [Func.name_congr hskeleton, Func.name_renameBy, Func.name_opened]
    have hfmem := h.sublist.subset hf
    have hfkept := (h.mem_iff f hfmem).1 hf
    have hne : f.name ≠ g.name := fun hsame => hkept (hsame ▸ hfkept)
    obtain ⟨hdefines, f', hf', hname', hdef, hinternal⟩ := h.other f.name (hname ▸ hne.symm)
    rw [List.inj_on_of_nodup_map hlibrary (h.sublist.subset hf') hfmem hname'] at hdef hinternal
    refine ⟨Module.defines_iff.2 ⟨g, hg, ?_⟩, f.name, hne, hfkept, ?_, hdefines⟩
    · rw [Func.isDeclared_congr hskeleton, Func.isDeclared_renameBy, Func.isDeclared_opened, hdef]
    · rw [Module.isInternal, hlibrary.func?_eq hfmem]
      exact decide_eq_true hinternal

/-- What the bodies of the result name, the program names or a body that was moved. -/
theorem mentions_cases (h : Imported program library moved ρ out)
    (hloaded : program.isLoaded = true)
    {g : Func} (hg : g ∈ out.functions) (hname : g.Mentions name) :
    (∃ holder, program.Mentions holder name) ∨ ∃ holder old, Kept program library holder ∧
      library.Mentions holder old ∧ ρ old = name := by
  rcases h.mem_cases hg with ⟨p, hp, hskeleton⟩ | ⟨f, hf, hskeleton⟩
  · rw [Func.mentions_iff_of_skeleton hskeleton, ← Module.opened_of_isLoaded hloaded hp] at hname
    exact Or.inl ⟨p.name, p, hp, rfl, hname⟩
  · rw [Func.mentions_iff_of_skeleton hskeleton, Func.mentions_renameBy] at hname
    obtain ⟨old, hold, hrename⟩ := hname
    have hmem := h.sublist.subset hf
    exact Or.inr ⟨f.name, old, (h.mem_iff f hmem).1 hf, ⟨f, hmem, rfl, hold⟩, hrename⟩

/-- What the program names or a body that is moved, the bodies of the result name. -/
theorem exists_mentions (h : Imported program library moved ρ out)
    (hprogram : program.DistinctNames)
    (hloaded : program.isLoaded = true) (hkept : ¬ Kept program library name)
    (hnamed : (∃ holder, program.Mentions holder name) ∨
      ∃ holder, Kept program library holder ∧ library.Mentions holder name) :
    ∃ g ∈ out.functions, g.Mentions name := by
  rcases hnamed with ⟨holder, p, hp, _, hname⟩ | ⟨holder, hholder, f, hf, rfl, hname⟩
  · rw [Module.opened_of_isLoaded hloaded hp] at hname
    have hdef : p.isDeclared = false := by
      by_contra hdecl
      exact Func.not_mentions (Or.inl (Bool.of_not_eq_false hdecl)) name hname
    obtain ⟨g, hg, _, hskeleton⟩ := h.exists_of_program hp
    exact ⟨g, hg, (Func.mentions_iff_of_skeleton (hskeleton hdef) name).2 hname⟩
  · have hdef : f.isDeclared = false := by
      by_contra hdecl
      rw [← f.isDeclared_opened] at hdecl
      exact Func.not_mentions (Or.inl (Bool.of_not_eq_false hdecl)) name hname
    obtain ⟨g, hg, _, hskeleton⟩ := h.exists_of_moved hprogram ((h.mem_iff f hf).2 hholder)
    refine ⟨g, hg, (Func.mentions_iff_of_skeleton (hskeleton hdef) name).2 ?_⟩
    exact (Func.mentions_renameBy ρ f.opened name).2 ⟨name, hname, h.rename_of_not_kept hkept⟩

/-- If stranded names are defined after all, every reference is satisfied. -/
theorem satisfied (h : Imported program library moved ρ out) (hprogram : program.DistinctNames)
    (hlibrary : library.DistinctNames) (hloaded : program.isLoaded = true)
    (hprogramClosed : program.Closed) (hlibraryClosed : (library.mapFuncs Func.opened).Closed)
    (hstranded : ∀ name, Stranded program library name → out.defines name = true) :
    library.Satisfied out := by
  have hprogramOpened : (program.mapFuncs Func.opened).Closed := by
    rwa [Module.mapFuncs_opened_of_isLoaded hloaded]
  intro g hg o ho name hname
  rcases h.mentions_cases hloaded hg ⟨o, ho, hname⟩ with
    ⟨holder, hholder⟩ | ⟨holder, old, hholder, hold, rfl⟩
  · by_cases hkept : Kept program library name
    · cases hdefines : program.defines name with
      | true => exact Module.supplies_of_defines (h.defines_of_program hprogram hdefines)
      | false =>
          have hsupplied := h.supplies_of_kept hprogram hlibrary
            (hkept.isSome_func? hlibraryClosed) hkept
          rwa [h.rename_of_not_defines hdefines] at hsupplied
    · exact h.supplies_of_not_kept hprogram hkept (Or.inl ⟨holder, hholder⟩)
        (Or.inl (Module.Closed.isSome_func? hprogramOpened hholder)) (hstranded name)
  · have hthere := Module.Closed.isSome_func? hlibraryClosed hold
    by_cases hkept : Kept program library old
    · exact h.supplies_of_kept hprogram hlibrary hthere hkept
    · rw [h.rename_of_not_kept hkept]
      exact h.supplies_of_not_kept hprogram hkept (Or.inr ⟨holder, hholder, hold⟩) (Or.inr hthere)
        (hstranded old)

/-- A stranded name that is supplied was captured. -/
theorem captured (h : Imported program library moved ρ out) (hprogram : program.DistinctNames)
    (hlibrary : library.DistinctNames) (hstranded : Stranded program library name)
    (hsupplied : library.Supplies out name) : Captured program library out name := by
  obtain ⟨_, hkept, hdefines, hmissing, _⟩ := hstranded
  obtain ⟨g, hg⟩ := Option.isSome_iff_exists.1 hsupplied.1
  rcases h.captured_of_func? hlibrary hkept hg with ⟨p, hp, rfl, hbody⟩ | hcaptured
  · have hfound := hprogram.func?_eq hp
    exfalso
    rcases hmissing with hlib | hnone
    · obtain ⟨g', hg', hdef⟩ := Module.defines_iff.1 (hsupplied.2 hlib)
      rw [hg, Option.some.injEq] at hg'
      rw [← hg', ← hbody] at hdef
      rw [Module.defines_iff.2 ⟨p, hfound, hdef⟩] at hdefines
      cases hdefines
    · rw [hfound] at hnone
      cases hnone
  · exact hcaptured

end Imported

/-- An import satisfies every reference if and only if no name is stranded, except for stranded
names that some renamed definition happened to get. -/
theorem satisfied_importFrom_iff {program library out : Module} (hloaded : program.isLoaded = true)
    (hprogram : program.DistinctNames) (hlibrary : library.DistinctNames)
    (harchived : library.Archived) (hprogramClosed : program.Closed)
    (hlibraryClosed : (library.mapFuncs Func.opened).Closed) {stats : ImportStats}
    (h : program.importFrom library = .ok (stats, out)) :
    library.Satisfied out ↔
      ∀ name, Stranded program library name → Captured program library out name := by
  obtain ⟨_, moved, ρ, himported⟩ := exists_imported hloaded hprogram hlibrary harchived h
  constructor
  · intro hsatisfied name hstranded
    obtain ⟨g, hg, o, ho, hname⟩ :=
      himported.exists_mentions hprogram hloaded hstranded.2.1 hstranded.2.2.2.2
    exact himported.captured hprogram hlibrary hstranded (hsatisfied g hg o ho name hname)
  · intro hcaptured
    exact himported.satisfied hprogram hlibrary hloaded hprogramClosed hlibraryClosed
      fun name hstranded => (hcaptured name hstranded).1

section Sample

/-- A kernel that calls one library procedure. -/
def callbackProgram : Module :=
  ⟨"p", [], [.declare "f" ⟨.void, []⟩, .calling "kernel" [("f", [])]]⟩

/-- A procedure that hands a callback to an external one, the callback, and what the callback
calls. -/
def callbackLibrary (calls : List (String × List Operand)) : Module :=
  ⟨"l", [], [(Func.calling "f" (("ext", [.func "g"]) :: calls)).packed,
    (Func.calling "g" [("h", [])]).packed, (Func.calling "h" []).packed,
    .declare "ext" ⟨.void, [.ptr .void]⟩]⟩

/-- If the procedure also calls what its callback calls, nothing is stranded. -/
theorem satisfied_importFrom_callback :
    callbackProgram.isLoaded = true ∧ callbackProgram.DistinctNames ∧
    (callbackLibrary [("h", [])]).DistinctNames ∧ (callbackLibrary [("h", [])]).Archived ∧
    callbackProgram.Closed ∧ ((callbackLibrary [("h", [])]).mapFuncs Func.opened).Closed ∧
    ∃ stats out, callbackProgram.importFrom (callbackLibrary [("h", [])]) = .ok (stats, out) ∧
      (callbackLibrary [("h", [])]).Satisfied out ∧
      ∀ name, Stranded callbackProgram (callbackLibrary [("h", [])]) name →
        Captured callbackProgram (callbackLibrary [("h", [])]) out name := by
  have hloaded : callbackProgram.isLoaded = true := by decide +kernel
  have hprogram : callbackProgram.DistinctNames := by decide +kernel
  have hlibrary : (callbackLibrary [("h", [])]).DistinctNames := by decide +kernel
  have hprogramClosed : callbackProgram.Closed := by decide +kernel
  -- Evaluated together, so that the bodies are decoded only once.
  obtain ⟨harchived, hlibraryClosed, hgood⟩ : (callbackLibrary [("h", [])]).Archived ∧
      ((callbackLibrary [("h", [])]).mapFuncs Func.opened).Closed ∧
      (callbackProgram.importFrom (callbackLibrary [("h", [])])).toOption.any (fun r =>
        (callbackLibrary [("h", [])]).Satisfied r.2) = true := by decide +kernel
  refine ⟨hloaded, hprogram, hlibrary, harchived, hprogramClosed, hlibraryClosed, ?_⟩
  obtain ⟨r, hr, hsatisfied⟩ := exists_ok_of_any hgood
  have hsatisfied := of_decide_eq_true hsatisfied
  exact ⟨r.1, r.2, hr, hsatisfied, (satisfied_importFrom_iff hloaded hprogram hlibrary harchived
    hprogramClosed hlibraryClosed hr).1 hsatisfied⟩

/-- Otherwise the callback comes without what it calls. -/
theorem not_satisfied_importFrom_callback :
    callbackProgram.isLoaded = true ∧ callbackProgram.DistinctNames ∧
    (callbackLibrary []).DistinctNames ∧ (callbackLibrary []).Archived ∧
    callbackProgram.Closed ∧ ((callbackLibrary []).mapFuncs Func.opened).Closed ∧
    ∃ stats out, callbackProgram.importFrom (callbackLibrary []) = .ok (stats, out) ∧
      (∃ g ∈ out.functions, g.Mentions "h") ∧ out.func? "h" = none ∧
      (callbackLibrary []).defines "h" = true := by
  obtain ⟨harchived, hlibraryClosed, hbad⟩ : (callbackLibrary []).Archived ∧
      ((callbackLibrary []).mapFuncs Func.opened).Closed ∧
      (callbackProgram.importFrom (callbackLibrary [])).toOption.any (fun r =>
        (r.2.functions.any fun g => g.operands.any fun o => o.func? = some "h") ∧
          r.2.func? "h" = none) = true := by decide +kernel
  refine ⟨by decide +kernel, by decide +kernel, by decide +kernel, harchived, by decide +kernel,
    hlibraryClosed, ?_⟩
  obtain ⟨r, hr, hstranded⟩ := exists_ok_of_any hbad
  obtain ⟨hnamed, habsent⟩ := of_decide_eq_true hstranded
  obtain ⟨g, hg, hoperand⟩ := List.any_eq_true.1 hnamed
  obtain ⟨o, ho, hname⟩ := List.any_eq_true.1 hoperand
  exact ⟨r.1, r.2, hr, ⟨g, hg, o, ho, of_decide_eq_true hname⟩, habsent, by decide +kernel⟩

end Sample

end Postlink
