import Postlink.Proofs.Linking.Refusals

/-!
# Variables of both modules

Functions that a source keeps to itself take new names where they clash. Variables do not, whether
they are internal or not: two variables with contents under one name are an error. So variables of a
source that are internal get past those of the destination (`SeparatesVariables`) exactly if none of
them collides, and the first one that does is reported (`separatesVariables_link_iff`).
-/

namespace Postlink

namespace Operand

/-- The variable that an operand names, possibly through casts. -/
def global? (o : Operand) : Option String :=
  match o.base with
  | .global name => some name
  | _ => none

/-- Renaming functions renames no variable. -/
theorem global?_renameBy (ρ : String → String) (o : Operand) :
    (o.renameBy ρ).global? = o.global? := by
  induction o with
  | cast value ty ih => exact ih
  | _ => rfl

end Operand

namespace Func

/-- Renaming functions leaves the variables that a body names. -/
theorem map_global?_renameBy (ρ : String → String) (f : Func) :
    (f.renameBy ρ).operands.map Operand.global? = f.operands.map Operand.global? := by
  have hinstrs : (f.renameBy ρ).instrs = f.instrs.map (Instr.mapOperands (Operand.renameBy ρ)) :=
    f.instrs_mapInstrs _
  rw [operands, hinstrs, List.flatMap_map, List.map_flatMap, operands, List.map_flatMap]
  refine List.flatMap_congr fun i _ => ?_
  rw [Instr.operands_mapOperands, List.map_map]
  exact List.map_congr_left fun o _ => o.global?_renameBy ρ

/-- Casts around callees leave the variables that a body names. -/
theorem map_global?_recast (dest fs : List Func) (f : Func) :
    (f.recast dest fs).operands.map Operand.global? = f.operands.map Operand.global? := by
  have hcall : ∀ c : Call, (c.recast dest fs).args = c.args ∧
      (c.recast dest fs).callee.global? = c.callee.global? := by
    intro c
    rcases c.recast_cases dest fs with h | ⟨_, h⟩
    · rw [h]
      exact ⟨rfl, rfl⟩
    · rw [h, Call.viaCast]
      split
      · rename_i name hname
        rw [hname]
        exact ⟨rfl, rfl⟩
      · exact ⟨rfl, rfl⟩
  rw [recast, operands, instrs_mapInstrs, List.flatMap_map, List.map_flatMap, operands,
    List.map_flatMap]
  refine List.flatMap_congr fun i _ => ?_
  rcases i with ⟨id, name, ty, kind, loc⟩
  cases kind with
  | call c =>
      obtain ⟨hargs, hcallee⟩ := hcall c
      simp only [Instr.mapCall, Instr.operands, InstrKind.mapCall, InstrKind.operands,
        List.map_cons, hargs, hcallee]
  | _ => rfl

end Func

namespace Module

/-- A link in which the variables of the source that collide have new names, and references to them
follow. -/
structure VariablesApart (dest src : Module) (ρ σ : String → String) (out : Module) : Prop where
  /-- Only clashing functions take new names. -/
  functionNames : ∀ name, ¬ dest.Clash src name → ρ name = name
  /-- Only colliding variables take new names. -/
  variableNames : ∀ name, (∀ g ∈ src.globals, g.name = name → dest.collides g = false) →
    σ name = name
  /-- New names are those of no symbol. -/
  fresh : ∀ g ∈ src.globals, dest.collides g = true →
    dest.taken (σ g.name) = false ∧ src.taken (σ g.name) = false
  /-- Variables of the destination keep their contents. -/
  kept : ∀ d ∈ dest.globals, d.isDeclared = false → out.global? d.name = some d
  /-- Variables of the source are there with theirs, under their new names. -/
  moved : ∀ g ∈ src.globals, g.isDeclared = false →
    out.global? (σ g.name) = some { g with name := σ g.name }
  /-- The bodies of the source name them so. -/
  references : ∀ f ∈ src.functions, f.isDeclared = false → ∃ g, out.func? (ρ f.name) = some g ∧
    g.operands.map Operand.global? = f.operands.map fun o => o.global?.map σ

/-- Linking succeeds and keeps variables apart. -/
def SeparatesVariables (dest src : Module) : Prop :=
  ∃ gained out ρ σ, dest.link src = (.ok gained, out) ∧ dest.VariablesApart src ρ σ out

section Variables

variable {dest src m : Module} {done : List Global} {g : Global}

/-- Contents that do not collide are taken. -/
theorem takes_of_not_collides (hdef : g.isDeclared = false) (hg : dest.collides g = false) :
    dest.takes g = true := by
  unfold takes
  cases hold : dest.global? g.name with
  | none => rfl
  | some old => simpa [collides, initializes, hold, hdef] using hg

/-- What was taken is there. -/
theorem VariablesMoved.global?_of_takes (h : VariablesMoved dest done m)
    (hnames : (done.map Global.name).Nodup) (hg : g ∈ done) (htakes : dest.takes g = true) :
    m.global? g.name = some g := by
  cases hfind : done.find? fun g' => g'.name = g.name && dest.takes g' with
  | none =>
      have hnot := List.find?_eq_none.1 hfind g hg
      simp [htakes] at hnot
  | some g' =>
      have hname := List.find?_some hfind
      rw [Bool.and_eq_true, decide_eq_true_iff] at hname
      rw [h.lookup, hfind, Option.some_or,
        List.inj_on_of_nodup_map hnames (List.mem_of_find?_eq_some hfind) hg hname.1]

/-- A definition of the source names the same variables in the result. -/
theorem Moved.exists_references {src' out : Module} {ρ : String → String} {gained : Nat}
    (hdest : dest.DistinctNames) (h : Settled dest src (clashes dest src) ρ src')
    (hout : Moved dest src'.functions (out, gained)) {f : Func} (hf : f ∈ src.functions)
    (hdef : f.isDeclared = false) : ∃ g, out.func? (ρ f.name) = some g ∧
      g.operands.map Operand.global? = f.operands.map Operand.global? := by
  obtain ⟨gs, _, hmem⟩ := hout.exists_landed hdest h hf hdef
  refine ⟨_, (hout.distinctNames hdest h.names).func?_eq_some_iff.2 ⟨hmem, rfl⟩, ?_⟩
  rw [Func.map_global?_recast, Func.map_global?_renameBy]

/-- Variables that do not collide are kept apart under their own names. -/
theorem VariablesMoved.apart {src' mid out : Module} {ρ : String → String} {gained : Nat}
    (hdest : dest.DistinctNames) (hsrc : src.DistinctNames)
    (hdestGlobals : (dest.globals.map Global.name).Nodup)
    (hsrcGlobals : (src.globals.map Global.name).Nodup)
    (hnone : ∀ g ∈ src.globals, dest.collides g = false)
    (hsettled : Settled dest src (clashes dest src) ρ src')
    (hmid : VariablesMoved dest src.globals mid) (hglobals : out.globals = mid.globals)
    (hmoved : Moved dest src'.functions (out, gained)) :
    dest.VariablesApart src ρ (fun n => n) out := by
  have hlookup : ∀ n, out.global? n = mid.global? n := fun n => by rw [global?, hglobals, global?]
  refine ⟨fun name hnot => ?_, fun _ _ => rfl, fun g hg hcollides => ?_, fun d hd hdef => ?_,
    fun g hg hdef => ?_, fun f hf hdef => ?_⟩
  · exact hsettled.other name (mt (hsettled.mem_clashes_iff hsrc).1 hnot)
  · rw [hnone g hg] at hcollides
    cases hcollides
  · have hfound : dest.global? d.name = some d :=
      (find?_eq_some_iff_of_nodup hdestGlobals).2 ⟨hd, rfl⟩
    rw [hlookup, hmid.global?_of_initializes, hfound]
    simp [initializes, hfound, hdef]
  · rw [hlookup]
    exact hmid.global?_of_takes hsrcGlobals hg (takes_of_not_collides hdef (hnone g hg))
  · simpa using hmoved.exists_references hdest hsettled hf hdef

/-- Linking loaded modules that share only internal functions keeps their variables apart exactly if
no variables collide, and otherwise reports the first one that does. -/
theorem separatesVariables_link_iff (hdest : dest.DistinctNames) (hsrc : src.DistinctNames)
    (hdestGlobals : (dest.globals.map Global.name).Nodup)
    (hsrcGlobals : (src.globals.map Global.name).Nodup) (hloaded : src.isLoaded = true)
    (hinternal : ∀ f ∈ src.functions, f.isDeclared = false → dest.defines f.name = true →
      f.linkage = .internal) :
    (dest.SeparatesVariables src ↔ ∀ g ∈ src.globals, dest.collides g = false) ∧
      ∀ g, src.globals.find? dest.collides = some g →
        (dest.link src).1 = .error (.duplicateSymbol g.name) := by
  have houtcome := outcome_link hdest hsrc hsrcGlobals
  generalize hlink : dest.link src = result at houtcome
  cases houtcome with
  | unloaded hstored =>
      rw [isLoaded_iff_find?.1 hloaded] at hstored
      cases hstored
  | @rejected f _ hrejected =>
      have hf := List.find?_some hrejected
      simp only [rejects, Bool.and_eq_true, Bool.not_eq_true', decide_eq_true_iff] at hf
      exact absurd (hinternal f (List.mem_of_find?_eq_some hrejected) hf.1.1 hf.2) hf.1.2
  | @collided g _ _ _ hcollided _ =>
      refine ⟨iff_of_false ?_ ?_, fun g' hg' => ?_⟩
      · rintro ⟨_, _, _, _, hok, _⟩
        rw [hlink] at hok
        cases hok
      · intro hnone
        have hg := hnone g (List.mem_of_find?_eq_some hcollided)
        rw [List.find?_some hcollided] at hg
        cases hg
      · rw [hcollided] at hg'
        cases hg'
        rfl
  | @linked ρ src' mid out gained _ _ hcollided hsettled hmid hglobals hmoved =>
      have hnone : ∀ g ∈ src.globals, dest.collides g = false := by
        intro g hg
        simpa using List.find?_eq_none.1 hcollided g hg
      refine ⟨iff_of_true ?_ hnone, fun g hg => ?_⟩
      · exact ⟨gained, out, ρ, fun n => n, hlink,
          hmid.apart hdest hsrc hdestGlobals hsrcGlobals hnone hsettled hglobals hmoved⟩
      · rw [hcollided] at hg
        cases hg

end Variables

/-- A function that hands out the address of a variable. -/
def addressOf (name : String) : Func :=
  .define "lookup" ⟨.ptr (.int 8), []⟩ [⟨"entry",
    [⟨0, "", .void, .ret (some (.cast (.global name) (.ptr (.int 8)))), none⟩]⟩]

/-- A program with a variable and a function that hands out its address. -/
def lookupProgram : Module := ⟨"p", [wordVariable "table" 7], [addressOf "table"]⟩

/-- A library with another such function, and it keeps function and variable to itself. -/
def lookupLibrary (name : String) : Module :=
  ⟨"l", [{ wordVariable name 9 with linkage := .internal }],
    [{ addressOf name with linkage := .internal }]⟩

/-- The functions clash, and the variables have different names. -/
theorem separatesVariables_link_index :
    lookupProgram.DistinctNames ∧ (lookupLibrary "index").DistinctNames ∧
    (lookupProgram.globals.map Global.name).Nodup ∧
    ((lookupLibrary "index").globals.map Global.name).Nodup ∧
    (lookupLibrary "index").isLoaded = true ∧
    (∀ f ∈ (lookupLibrary "index").functions, f.isDeclared = false →
      lookupProgram.defines f.name = true → f.linkage = .internal) ∧
    lookupProgram.SeparatesVariables (lookupLibrary "index") := by
  have hprogram : lookupProgram.DistinctNames := by decide +kernel
  have hlibrary : (lookupLibrary "index").DistinctNames := by decide +kernel
  have hprogramGlobals : (lookupProgram.globals.map Global.name).Nodup := by decide +kernel
  have hlibraryGlobals : ((lookupLibrary "index").globals.map Global.name).Nodup := by
    decide +kernel
  have hloaded : (lookupLibrary "index").isLoaded = true := by decide +kernel
  have hinternal : ∀ f ∈ (lookupLibrary "index").functions, f.isDeclared = false →
      lookupProgram.defines f.name = true → f.linkage = .internal := by decide +kernel
  refine ⟨hprogram, hlibrary, hprogramGlobals, hlibraryGlobals, hloaded, hinternal, ?_⟩
  exact (separatesVariables_link_iff hprogram hlibrary hprogramGlobals hlibraryGlobals hloaded
    hinternal).1.2 (by decide +kernel)

/-- The variables have one name too, and that is an error although the library keeps its own to
itself. -/
theorem not_separatesVariables_link_table :
    lookupProgram.DistinctNames ∧ (lookupLibrary "table").DistinctNames ∧
    (lookupProgram.globals.map Global.name).Nodup ∧
    ((lookupLibrary "table").globals.map Global.name).Nodup ∧
    (lookupLibrary "table").isLoaded = true ∧
    (∀ f ∈ (lookupLibrary "table").functions, f.isDeclared = false →
      lookupProgram.defines f.name = true → f.linkage = .internal) ∧
    (∀ g ∈ (lookupLibrary "table").globals, lookupProgram.collides g = true →
      g.linkage = .internal) ∧
    (lookupProgram.link (lookupLibrary "table")).1 = .error (.duplicateSymbol "table") ∧
    ¬ lookupProgram.SeparatesVariables (lookupLibrary "table") := by
  have herror : (lookupProgram.link (lookupLibrary "table")).1 =
      .error (.duplicateSymbol "table") := by
    decide +kernel
  refine ⟨by decide +kernel, by decide +kernel, by decide +kernel, by decide +kernel, by
    decide +kernel, by decide +kernel, by decide +kernel, herror, ?_⟩
  rintro ⟨_, _, _, _, hok, _⟩
  rw [hok] at herror
  cases herror

end Module

end Postlink
