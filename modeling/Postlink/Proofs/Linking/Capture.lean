import Postlink.Proofs.Linking.Merge

/-!
# Linking captures no name

A link that succeeds comes with one renaming of the source's functions. Every definition of either
module is in the result with its body, and the references in a body of the source follow the
renaming, so that they still mean what they meant before (`Linked`, `exists_linked`). All that may
be added to a body are casts around direct callees, and these only where a call does not fit a
definition of the source (`Misfits`).
-/

namespace Postlink

namespace Func

/-- The same function, except that some direct calls with a property go through a cast. -/
def UpToCasts (p : Call → Prop) (f g : Func) : Prop :=
  ∃ w : Call → Call, (∀ c, w c = c ∨ p c ∧ w c = c.viaCast) ∧ g = f.mapInstrs (Instr.mapCall w)

theorem UpToCasts.name_eq {p : Call → Prop} {f g : Func} (h : f.UpToCasts p g) :
    g.name = f.name := by
  obtain ⟨w, _, rfl⟩ := h
  rfl

/-- Recasting by functions of a list puts only misfits behind casts. -/
theorem upToCasts_recast {p : Call → Prop} {dest fs : List Func}
    (h : ∀ c, ∀ f ∈ fs, misfit dest c f = true → p c) (f : Func) :
    f.UpToCasts p (f.recast dest fs) := by
  refine ⟨Call.recast dest fs, ?_, rfl⟩
  intro c
  refine (c.recast_cases dest fs).imp_right ?_
  rintro ⟨⟨g, hg, hmisfit⟩, heq⟩
  exact ⟨h c g hg hmisfit, heq⟩

end Func

namespace Module

/-- The source defines a function for itself under a name that the destination defines too. -/
def Clash (dest src : Module) (name : String) : Prop :=
  ∃ f ∈ src.functions, f.name = name ∧ f.isDeclared = false ∧ f.linkage = .internal ∧
    dest.defines name = true

/-- A direct call of a definition of the source, under its new name, that expects another signature
than the definition has. -/
def Misfits (src : Module) (ρ : String → String) (c : Call) : Prop :=
  ∃ f ∈ src.functions, f.isDeclared = false ∧ c.direct? = some (ρ f.name) ∧ c.sig ≠ f.sig

/-- What linking a source into a destination amounts to. -/
structure Linked (dest src : Module) (ρ : String → String) (gained : Nat) (out : Module) :
    Prop where
  /-- Different functions of the source keep different names. -/
  injective : ∀ f ∈ src.functions, ∀ g ∈ src.functions, ρ f.name = ρ g.name → f.name = g.name
  /-- Only clashing internal definitions take another name. -/
  other : ∀ name, ¬ dest.Clash src name → ρ name = name
  /-- The names that they take are in neither module. -/
  fresh : ∀ name, dest.Clash src name → dest.func? (ρ name) = none ∧ src.func? (ρ name) = none
  /-- Every definition of the source is found under its new name, and what it names is renamed. -/
  moved : ∀ f ∈ src.functions, f.isDeclared = false →
    ∃ g, out.func? (ρ f.name) = some g ∧ (f.renameBy ρ).UpToCasts (src.Misfits ρ) g
  /-- Every definition of the destination stays at its place and under its name. -/
  kept : ∀ (k : Nat) d, dest.functions[k]? = some d → d.isDeclared = false →
    ∃ g, out.functions[k]? = some g ∧ out.func? d.name = some g ∧ d.UpToCasts (src.Misfits ρ) g
  /-- Every declaration that the source defines gives its place to the definition. -/
  resolved : ∀ (k : Nat) d, dest.functions[k]? = some d → d.isDeclared = true →
    ∀ f ∈ src.functions, f.name = d.name → f.isDeclared = false →
      ∃ g, out.functions[k]? = some g ∧ (f.renameBy ρ).UpToCasts (src.Misfits ρ) g
  /-- Every other declaration stays as it is. -/
  unresolved : ∀ (k : Nat) d, dest.functions[k]? = some d → d.isDeclared = true →
    (∀ f ∈ src.functions, f.name = d.name → f.isDeclared = true) → out.functions[k]? = some d
  /-- The other functions of the source follow in their order. -/
  appended : List.Forall₂ (Func.UpToCasts (src.Misfits ρ))
    ((src.functions.filter fun f => (dest.func? (ρ f.name)).isNone).map (Func.renameBy ρ))
    (out.functions.drop dest.functions.length)
  /-- The definitions of the source are counted. -/
  count : gained = src.functions.countP fun f => !f.isDeclared
  /-- So many more functions have a body. -/
  grown : out.functions.countP (fun f => !f.isDeclared) =
    dest.functions.countP (fun f => !f.isDeclared) + gained

/-- The clashes that are settled are those between the two modules. -/
theorem Settled.mem_clashes_iff {dest src src' : Module} {ρ : String → String}
    (hsrc : src.DistinctNames) (h : Settled dest src (clashes dest src) ρ src') {name : String} :
    name ∈ clashes dest src ↔ dest.Clash src name := by
  constructor
  · intro hmem
    obtain ⟨f, hf, rfl, hdef, hdest⟩ := Module.mem_clashes_iff.1 hmem
    have hinternal := h.internal f.name hmem
    rw [Module.isInternal, hsrc.func?_eq hf] at hinternal
    exact ⟨f, hf, rfl, hdef, of_decide_eq_true hinternal, hdest⟩
  · rintro ⟨f, hf, hname, hdef, _, hdest⟩
    exact Module.mem_clashes_iff.2 ⟨f, hf, hname, hdef, hdest⟩

/-- After clashes are settled, a definition of the source meets declarations only. -/
theorem Settled.isDeclared_of_name_eq {dest src src' : Module} {ρ : String → String}
    (hdest : dest.DistinctNames) (h : Settled dest src (clashes dest src) ρ src') {f d : Func}
    (hf : f ∈ src.functions) (hdef : f.isDeclared = false) (hd : d ∈ dest.functions)
    (hname : d.name = ρ f.name) : d.isDeclared = true := by
  by_contra hdefined
  rw [Bool.not_eq_true] at hdefined
  have hdefines : dest.defines d.name = true := by
    rw [defines, hdest.func?_eq hd]
    simpa using hdefined
  have hsame : f.name = d.name := h.eq_of_renamed (isSome_func?_of_defines hdefines) hname.symm
  have hclash : f.name ∈ clashes dest src :=
    Module.mem_clashes_iff.2 ⟨f, hf, rfl, hdef, hsame ▸ hdefines⟩
  have hnone := (h.fresh f.name hclash).1
  rw [← hname, hdest.func?_eq hd] at hnone
  cases hnone

section Links

variable {dest src src' out : Module} {ρ : String → String} {gained : Nat}

/-- A call that misfits a function of the renamed source misfits a definition of the source. -/
theorem Settled.misfits (h : Settled dest src (clashes dest src) ρ src') {c : Call} {f : Func}
    (hf : f ∈ src'.functions) (hmisfit : Func.misfit dest.functions c f = true) :
    src.Misfits ρ c := by
  rw [h.module_eq] at hf
  obtain ⟨g, hg, rfl⟩ := List.mem_map.1 hf
  simp only [Func.misfit, Func.recasts, Bool.and_eq_true, Bool.not_eq_true', decide_eq_true_iff,
    Func.isDeclared_renameBy] at hmisfit
  exact ⟨g, hg, hmisfit.1.1.1, hmisfit.1.2, hmisfit.2⟩

/-- Recasting changes only calls that misfit. -/
theorem Settled.upToCasts (h : Settled dest src (clashes dest src) ρ src') {gs : List Func}
    (hgs : gs ⊆ src'.functions) (f : Func) :
    f.UpToCasts (src.Misfits ρ) (f.recast dest.functions gs) :=
  Func.upToCasts_recast (fun _ _ hg hmisfit => h.misfits (hgs hg) hmisfit) f

/-- A definition of the source is in the result under its new name. -/
theorem Moved.exists_landed (hdest : dest.DistinctNames)
    (h : Settled dest src (clashes dest src) ρ src')
    (hout : Moved dest src'.functions (out, gained))
    {f : Func} (hf : f ∈ src.functions) (hdef : f.isDeclared = false) :
    ∃ gs, gs ⊆ src'.functions ∧ (f.renameBy ρ).recast dest.functions gs ∈ out.functions := by
  have hf' : f.renameBy ρ ∈ src'.functions := by
    rw [h.module_eq]
    exact List.mem_map_of_mem hf
  obtain ⟨gs, hgs, hmem⟩ := Func.exists_recast_mem_landed dest.functions hf'
  refine ⟨gs, hgs, ?_⟩
  rw [hout.functions]
  refine Func.mem_merged_of_defined ?_ hmem (by simpa using hdef) ?_
  · rw [Func.map_name_landed]
    exact h.names
  · intro e he hname
    obtain ⟨d, hd, rfl⟩ := List.mem_map.1 he
    rw [Func.isDeclared_recast]
    exact h.isDeclared_of_name_eq hdest hf hdef hd hname

/-- What stands at a place of the destination afterwards. -/
theorem Moved.getElem?_functions (hout : Moved dest src'.functions (out, gained))
    {k : Nat} {d : Func} (hd : dest.functions[k]? = some d) :
    out.functions[k]? = some (Func.supersede (Func.landed dest.functions src'.functions)
      (d.recast dest.functions src'.functions)) := by
  rw [hout.functions]
  refine Func.getElem?_merged ?_
  rw [List.getElem?_map, hd]
  rfl

/-- A definition of the destination keeps its place. -/
theorem Moved.getElem?_of_defined (hout : Moved dest src'.functions (out, gained))
    {k : Nat} {d : Func} (hd : dest.functions[k]? = some d) (hdef : d.isDeclared = false) :
    out.functions[k]? = some (d.recast dest.functions src'.functions) := by
  rw [hout.getElem?_functions hd, Func.supersede_of_defined (by rwa [Func.isDeclared_recast])]

/-- A definition of the destination is found under its name. -/
theorem Moved.func?_of_defined (hdest : dest.DistinctNames)
    (h : Settled dest src (clashes dest src) ρ src')
    (hout : Moved dest src'.functions (out, gained))
    {d : Func} (hd : d ∈ dest.functions) (hdef : d.isDeclared = false) :
    out.func? d.name = some (d.recast dest.functions src'.functions) := by
  obtain ⟨k, hk⟩ := List.getElem?_of_mem hd
  refine (hout.distinctNames hdest h.names).func?_eq_some_iff.2 ⟨?_, rfl⟩
  exact List.mem_of_getElem? (hout.getElem?_of_defined hk hdef)

/-- A declaration gives its place to the definition of that name. -/
theorem Moved.exists_resolved (h : Settled dest src (clashes dest src) ρ src')
    (hout : Moved dest src'.functions (out, gained)) {k : Nat} {d f : Func}
    (hd : dest.functions[k]? = some d) (hdecl : d.isDeclared = true) (hf : f ∈ src.functions)
    (hname : f.name = d.name) (hdef : f.isDeclared = false) (hkeep : ρ f.name = f.name) :
    ∃ g, out.functions[k]? = some g ∧ (f.renameBy ρ).UpToCasts (src.Misfits ρ) g := by
  have hf' : f.renameBy ρ ∈ src'.functions := by
    rw [h.module_eq]
    exact List.mem_map_of_mem hf
  obtain ⟨gs, hgs, hmem⟩ := Func.exists_recast_mem_landed dest.functions hf'
  refine ⟨_, hout.getElem?_functions hd, ?_⟩
  have hnames : ((Func.landed dest.functions src'.functions).map Func.name).Nodup := by
    rw [Func.map_name_landed]
    exact h.names
  rw [Func.supersede_of_mem hmem (fun g hg => List.inj_on_of_nodup_map hnames hg hmem)
    (by rw [Func.name_recast, Func.name_recast, Func.name_renameBy, hkeep, hname])
    (by rw [Func.isDeclared_recast, Func.isDeclared_renameBy, hdef])
    (by rw [Func.isDeclared_recast, hdecl])]
  exact h.upToCasts hgs (f.renameBy ρ)

/-- A declaration that the source does not define stays. -/
theorem Moved.getElem?_of_unresolved (h : Settled dest src (clashes dest src) ρ src')
    (hout : Moved dest src'.functions (out, gained)) {k : Nat} {d : Func}
    (hd : dest.functions[k]? = some d) (hdecl : d.isDeclared = true)
    (hnone : ∀ f ∈ src.functions, ρ f.name = d.name → f.isDeclared = true) :
    out.functions[k]? = some d := by
  rw [hout.getElem?_functions hd, Func.recast_of_isDeclared hdecl]
  have hfind : (Func.landed dest.functions src'.functions).find?
      (fun f => f.name = d.name && !f.isDeclared) = none := by
    rw [List.find?_eq_none]
    intro g hg
    obtain ⟨f', hf', gs, _, rfl⟩ := Func.exists_of_mem_landed hg
    rw [h.module_eq] at hf'
    obtain ⟨f, hf, rfl⟩ := List.mem_map.1 hf'
    by_cases hname : ρ f.name = d.name
    · simp [hnone f hf hname]
    · simp [hname]
  rw [Func.supersede, if_pos hdecl, hfind]
  rfl

/-- The functions of the source whose names are new follow those of the destination. -/
theorem Moved.forall₂_appended (h : Settled dest src (clashes dest src) ρ src')
    (hout : Moved dest src'.functions (out, gained)) :
    List.Forall₂ (Func.UpToCasts (src.Misfits ρ))
      ((src.functions.filter fun f => (dest.func? (ρ f.name)).isNone).map (Func.renameBy ρ))
      (out.functions.drop dest.functions.length) := by
  have hlength : dest.functions.length =
      (dest.functions.map (Func.recast dest.functions src'.functions)).length :=
    (List.length_map _).symm
  have hisNone : ∀ f : Func, (dest.func? f.name).isNone =
      !(dest.functions.map (Func.recast dest.functions src'.functions)).any
        fun d => d.name = f.name := by
    intro f
    rw [Bool.eq_iff_iff, Option.isNone_iff_eq_none, func?_eq_none_iff, Bool.not_eq_true',
      List.any_eq_false, List.forall_mem_map]
    simp only [decide_eq_true_iff]
    rfl
  have hfilter : (src.functions.filter fun f => (dest.func? (ρ f.name)).isNone).map
      (Func.renameBy ρ) = src'.functions.filter fun f => (dest.func? f.name).isNone := by
    rw [h.module_eq, functions_mapFuncs, List.filter_map]
    rfl
  rw [hout.functions, hlength, Func.linked, Func.drop_merged, hfilter]
  refine List.rel_filter ?_ ((Func.forall₂_landed dest.functions src'.functions).imp ?_)
  · intro f g hsame
    dsimp only
    rw [hisNone f, hsame.name_eq]
  · rintro f g ⟨gs, hgs, rfl⟩
    exact h.upToCasts hgs f

end Links

/-- Linking renames the internal definitions of the source that clash, and captures no name. -/
theorem exists_linked {dest src out : Module} (hdest : dest.DistinctNames)
    (hsrc : src.DistinctNames) {gained : Nat} (h : dest.link src = (.ok gained, out)) :
    ∃ ρ, Linked dest src ρ gained out := by
  obtain ⟨ρ, src', hsettled, hout⟩ := link_eq hdest hsrc h
  have hnames : out.DistinctNames := hout.distinctNames hdest hsettled.names
  have hfunctions : src'.functions = src.functions.map (Func.renameBy ρ) := by
    rw [hsettled.module_eq]
    rfl
  have hrenamed : (src.functions.map fun f => ρ f.name).Nodup := by
    have hdistinct := hsettled.names
    rwa [DistinctNames, hfunctions, List.map_map] at hdistinct
  -- A declaration of the destination is no clash, so its name means the same in both modules.
  have hkeep : ∀ (k : Nat) d, dest.functions[k]? = some d → d.isDeclared = true →
      ρ d.name = d.name := by
    intro k d hd hdecl
    refine hsettled.other d.name fun hclash => ?_
    obtain ⟨_, _, _, _, hdefines⟩ := mem_clashes_iff.1 hclash
    rw [defines, hdest.func?_eq (List.mem_of_getElem? hd)] at hdefines
    simp [hdecl] at hdefines
  refine ⟨ρ, ⟨?_, ?_, ?_, ?_, ?_, ?_, ?_, hout.forall₂_appended hsettled, ?_, hout.grown⟩⟩
  · intro f hf g hg hsame
    rw [List.inj_on_of_nodup_map hrenamed hf hg hsame]
  · intro name hclash
    exact hsettled.other name fun hmem => hclash ((hsettled.mem_clashes_iff hsrc).1 hmem)
  · intro name hclash
    exact hsettled.fresh name ((hsettled.mem_clashes_iff hsrc).2 hclash)
  · intro f hf hdef
    obtain ⟨gs, hgs, hmem⟩ := hout.exists_landed hdest hsettled hf hdef
    exact ⟨_, hnames.func?_eq_some_iff.2 ⟨hmem, rfl⟩, hsettled.upToCasts hgs _⟩
  · intro k d hd hdef
    exact ⟨_, hout.getElem?_of_defined hd hdef,
      hout.func?_of_defined hdest hsettled (List.mem_of_getElem? hd) hdef,
      hsettled.upToCasts (List.Subset.refl _) d⟩
  · intro k d hd hdecl f hf hname hdef
    exact hout.exists_resolved hsettled hd hdecl hf hname hdef (hname ▸ hkeep k d hd hdecl)
  · intro k d hd hdecl hnone
    refine hout.getElem?_of_unresolved hsettled hd hdecl fun f hf hname => hnone f hf ?_
    have hthere : (dest.func? d.name).isSome = true := by
      rw [hdest.func?_eq (List.mem_of_getElem? hd)]
      rfl
    exact hsettled.eq_of_renamed hthere hname
  · have hcount := hout.count
    rw [hfunctions, List.countP_map] at hcount
    simpa only [Function.comp_def, Func.isDeclared_renameBy] using hcount

/-- A function that hands its argument to another one, of which it expects a signature. -/
def relay (name : String) (ty : Ty) (target : String) (expected : Signature) : Func :=
  .define name ⟨ty, [ty]⟩ [⟨"entry",
    [⟨0, "", expected.ret, .call ⟨.func target, expected, [.arg 0], .c⟩, none⟩,
      ⟨1, "", .void, .ret (some (.inst 0)), none⟩]⟩]

/-- A program with a helper of its own that expects integers of a library function. -/
def helperProgram : Module :=
  ⟨"p", [], [.declare "f" ⟨.int 32, [.int 32]⟩, relay "helper" (.int 32) "f" ⟨.int 32, [.int 32]⟩]⟩

/-- A library with another helper, which it keeps to itself, and floats instead. -/
def helperLibrary : Module :=
  ⟨"l", [], [{ relay "helper" (.float 32) "ext" ⟨.float 32,
    [.float 32]⟩ with linkage := .internal },
    relay "f" (.float 32) "helper" ⟨.float 32, [.float 32]⟩,
    .declare "ext" ⟨.float 32, [.float 32]⟩]⟩

/-- The two helpers clash, and both modules keep their own. -/
theorem exists_linked_helper :
    helperProgram.DistinctNames ∧ helperLibrary.DistinctNames ∧ helperProgram.Closed ∧
    helperLibrary.Closed ∧ helperProgram.Clash helperLibrary "helper" ∧
    ∃ gained out, helperProgram.link helperLibrary = (.ok gained, out) ∧
      ∃ ρ, Linked helperProgram helperLibrary ρ gained out := by
  have hprogram : helperProgram.DistinctNames := by decide +kernel
  have hlibrary : helperLibrary.DistinctNames := by decide +kernel
  have hok : (helperProgram.link helperLibrary).1.isOk = true := by decide +kernel
  refine ⟨hprogram, hlibrary, by decide +kernel, by decide +kernel,
    ⟨_, List.mem_cons_self .., rfl, rfl, rfl, by decide +kernel⟩, ?_⟩
  rcases h : helperProgram.link helperLibrary with ⟨gained | gained, out⟩
  · rw [h] at hok
    cases hok
  · exact ⟨gained, out, rfl, exists_linked hprogram hlibrary h⟩

end Module

end Postlink
