import Postlink.Proofs.Linking.Capture

/-!
# Linking and the signatures that calls expect

In a module that is typed, a direct call expects the signature that the function it names has
(`CallTyped`). A definition of the source in the place of a declaration puts the calls that do not
fit it behind casts. Nothing is done the other way round: a definition of the destination keeps its
place against a declaration of the source, and the source's calls come in as they are. So the calls
of the result fit the definitions that they name exactly if the source calls no function that the
destination defines with another signature (`Misdeclared`, `bodyTyped_link_iff`).
-/

namespace Postlink

/-- The calls of the loaded instructions in order. -/
def Func.calls (f : Func) : List Call := f.instrs.filterMap Instr.call?

/-- Rename the functions that a call names. -/
def Call.renameBy (ρ : String → String) (c : Call) : Call :=
  { c with callee := c.callee.renameBy ρ, args := c.args.map (Operand.renameBy ρ) }

theorem Call.direct?_renameBy (ρ : String → String) (c : Call) :
    (c.renameBy ρ).direct? = c.direct?.map ρ := by
  rcases c with ⟨callee, sig, args, conv⟩
  cases callee <;> rfl

namespace Func

/-- A change of instructions that changes calls in one way changes the calls of a function so. -/
theorem calls_mapInstrs {g : Instr → Instr} {w : Call → Call}
    (h : ∀ i : Instr, (g i).call? = i.call?.map w) (f : Func) :
    (f.mapInstrs g).calls = f.calls.map w := by
  rw [calls, instrs_mapInstrs, List.filterMap_map, calls, List.map_filterMap]
  exact List.filterMap_congr fun i _ => h i

theorem calls_recast (dest fs : List Func) (f : Func) :
    (f.recast dest fs).calls = f.calls.map (Call.recast dest fs) := by
  refine calls_mapInstrs (fun i => ?_) f
  rcases i with ⟨id, name, ty, kind, loc⟩
  cases kind <;> rfl

theorem calls_renameBy (ρ : String → String) (f : Func) :
    (f.renameBy ρ).calls = f.calls.map (Call.renameBy ρ) := by
  refine calls_mapInstrs (fun i => ?_) f
  rcases i with ⟨id, name, ty, kind, loc⟩
  cases kind <;> rfl

/-- A function that calls something has a body. -/
theorem isDeclared_of_mem_calls {f : Func} {c : Call} (h : c ∈ f.calls) : f.isDeclared = false := by
  obtain ⟨i, hi, _⟩ := List.mem_filterMap.1 h
  exact isDeclared_of_mem hi

/-- The callee of a call is an operand. -/
theorem callee_mem_operands {f : Func} {c : Call} (h : c ∈ f.calls) : c.callee ∈ f.operands := by
  obtain ⟨i, hi, hcall⟩ := List.mem_filterMap.1 h
  refine List.mem_flatMap.2 ⟨i, hi, ?_⟩
  rw [Instr.operands_of_call? hcall]
  exact List.mem_cons_self ..

end Func

namespace Module

/-- Every direct call of a function of the module expects the signature that the function has. -/
def CallTyped (m : Module) : Prop :=
  ∀ f ∈ m.functions, ∀ c ∈ f.calls, ∀ name ∈ c.direct?, ∀ g ∈ m.func? name, c.sig = g.sig

/-- Every direct call of a function with a body expects the signature that the function has. -/
def BodyTyped (m : Module) : Prop :=
  ∀ f ∈ m.functions, ∀ c ∈ f.calls, ∀ name ∈ c.direct?, ∀ g ∈ m.func? name,
    g.isDeclared = false → c.sig = g.sig

/-- The source calls a function that it declares with another signature than the destination defines
it with. -/
def Misdeclared (dest src : Module) : Prop :=
  ∃ f ∈ src.functions, ∃ c ∈ f.calls, ∃ name ∈ c.direct?, ∃ s ∈ src.func? name,
  ∃ d ∈ dest.func? name,
    s.isDeclared = true ∧ d.isDeclared = false ∧ s.sig ≠ d.sig

instance (m : Module) : Decidable m.CallTyped :=
  inferInstanceAs (Decidable (∀ f ∈ m.functions, ∀ c ∈ f.calls, ∀ name ∈ c.direct?,
    ∀ g ∈ m.func? name, c.sig = g.sig))

instance (m : Module) : Decidable m.BodyTyped :=
  inferInstanceAs (Decidable (∀ f ∈ m.functions, ∀ c ∈ f.calls, ∀ name ∈ c.direct?,
    ∀ g ∈ m.func? name, g.isDeclared = false → c.sig = g.sig))

instance (dest src : Module) : Decidable (dest.Misdeclared src) :=
  inferInstanceAs (Decidable (∃ f ∈ src.functions, ∃ c ∈ f.calls, ∃ name ∈ c.direct?,
    ∃ s ∈ src.func? name, ∃ d ∈ dest.func? name,
      s.isDeclared = true ∧ d.isDeclared = false ∧ s.sig ≠ d.sig))

/-- A direct call names a function of the module, and fits it. -/
theorem CallTyped.exists_func? {m : Module} (hclosed : m.Closed) (htyped : m.CallTyped) {f : Func}
    (hf : f ∈ m.functions) {c : Call} (hc : c ∈ f.calls) {name : String}
    (hname : c.direct? = some name) : ∃ g, m.func? name = some g ∧ c.sig = g.sig := by
  have hfunc : c.callee.func? = some name := by
    rw [Call.direct?_eq_some_iff.1 hname]
    rfl
  have hthere := hclosed f hf c.callee (Func.callee_mem_operands hc) name hfunc
  obtain ⟨g, hg⟩ := Option.isSome_iff_exists.1 hthere
  exact ⟨g, hg, htyped f hf c hc name hname g hg⟩

section Links

variable {dest src src' out : Module} {ρ : String → String} {gained : Nat}

/-- A function of the result comes from the destination, or it comes from the source and is new or a
definition in the place of a declaration. -/
theorem Moved.mem_cases (hdest : dest.DistinctNames)
    (hout : Moved dest src'.functions (out, gained)) {g : Func} (hg : g ∈ out.functions) :
    (∃ d ∈ dest.functions, g = d.recast dest.functions src'.functions) ∨
      ∃ f ∈ src'.functions, (∃ gs, gs ⊆ src'.functions ∧ g = f.recast dest.functions gs) ∧
        ∀ d ∈ dest.functions, d.name = f.name → d.isDeclared = true ∧ f.isDeclared = false := by
  rw [hout.functions] at hg
  have hnodup :
      ((dest.functions.map (Func.recast dest.functions src'.functions)).map Func.name).Nodup := by
    rw [Func.map_name_recast]
    exact hdest
  rcases Func.mem_merged_cases hnodup hg with hold | ⟨hnew, honly⟩
  · obtain ⟨d, hd, rfl⟩ := List.mem_map.1 hold
    exact Or.inl ⟨d, hd, rfl⟩
  · obtain ⟨f, hf, gs, hgs, rfl⟩ := Func.exists_of_mem_landed hnew
    refine Or.inr ⟨f, hf, ⟨gs, hgs, rfl⟩, ?_⟩
    intro d hd hname
    simpa using honly _ (List.mem_map_of_mem hd) hname

/-- A call of the destination that is still direct fits the definition that it names. -/
theorem Moved.sig_eq_of_dest (hdest : dest.DistinctNames) (hclosed : dest.Closed)
    (htyped : dest.CallTyped) (hout : Moved dest src'.functions (out, gained))
    {d g : Func} {c : Call}
    (hd : d ∈ dest.functions) (hc : c ∈ (d.recast dest.functions src'.functions).calls)
    (hg : g ∈ out.functions) (hname : c.direct? = some g.name) : c.sig = g.sig := by
  rw [Func.calls_recast] at hc
  obtain ⟨c₀, hc₀, rfl⟩ := List.mem_map.1 hc
  obtain ⟨hsame, hfits⟩ := Call.recast_of_direct? hname
  rw [hsame] at hname ⊢
  obtain ⟨e, he, hsig⟩ := htyped.exists_func? hclosed hd hc₀ hname
  obtain ⟨hmem, hename⟩ := mem_of_func? he
  rcases hout.mem_cases hdest hg with ⟨d', hd', rfl⟩ | ⟨f, hf, ⟨gs, _, rfl⟩, hmeets⟩
  · rw [hsig, List.inj_on_of_nodup_map hdest hmem hd' hename, Func.sig_recast]
  · have hfname : e.name = f.name := hename
    obtain ⟨hdecl, hdef⟩ := hmeets e hmem hfname
    by_cases hsigs : e.sig = f.sig
    · rw [hsig, hsigs, Func.sig_recast]
    · have hrecasts : f.recasts dest.functions = true :=
        (Func.recasts_iff hdest hmem hfname hdecl hdef).2 hsigs
      exact hfits f hf hrecasts rfl

/-- A call of the source that is still direct fits the definition that it names, unless that is one
of the destination. -/
theorem Moved.sig_eq_of_src (hdest : dest.DistinctNames) (hclosed : src.Closed)
    (htyped : src.CallTyped) (hdeclared : ¬ dest.Misdeclared src)
    (h : Settled dest src (clashes dest src) ρ src')
    (hout : Moved dest src'.functions (out, gained))
    {f g : Func} {gs : List Func} {c : Call} (hf : f ∈ src.functions)
    (hc : c ∈ ((f.renameBy ρ).recast dest.functions gs).calls) (hg : g ∈ out.functions)
    (hdef : g.isDeclared = false) (hname : c.direct? = some g.name) : c.sig = g.sig := by
  rw [Func.calls_recast, Func.calls_renameBy, List.map_map] at hc
  obtain ⟨c₀, hc₀, rfl⟩ := List.mem_map.1 hc
  obtain ⟨hsame, -⟩ := Call.recast_of_direct? hname
  rw [Function.comp_apply, hsame] at hname ⊢
  rw [Call.direct?_renameBy, Option.map_eq_some_iff] at hname
  obtain ⟨old, hold, hrenamed⟩ := hname
  obtain ⟨s, hs, hsig⟩ := htyped.exists_func? hclosed hf hc₀ hold
  obtain ⟨hmem, hsname⟩ := mem_of_func? hs
  change c₀.sig = g.sig
  rw [hsig]
  rcases hout.mem_cases hdest hg with ⟨d, hd, rfl⟩ | ⟨f', hf', ⟨_, _, rfl⟩, -⟩
  · -- Two definitions would have clashed, so the source only declares the function.
    rw [Func.isDeclared_recast] at hdef
    have hdecl : s.isDeclared = true := by
      by_contra hnot
      rw [Bool.not_eq_true] at hnot
      have := h.isDeclared_of_name_eq hdest hmem hnot hd (by rw [hsname, hrenamed]; rfl)
      rw [hdef] at this
      cases this
    have hthere : dest.func? d.name = some d := hdest.func?_eq hd
    have hkept : old = d.name := h.eq_of_renamed (by rw [hthere]; rfl) hrenamed
    by_contra hne
    exact hdeclared ⟨f, hf, c₀, hc₀, old, hold, s, hs, d, hkept ▸ hthere, hdecl, hdef, hne⟩
  · have hrenames : s.renameBy ρ ∈ src'.functions := by
      rw [h.module_eq]
      exact List.mem_map_of_mem hmem
    have hsame : (s.renameBy ρ).name = f'.name := by
      rw [Func.name_renameBy, hsname, hrenamed]
      rfl
    rw [← List.inj_on_of_nodup_map h.names hrenames hf' hsame]
    rfl

/-- A call of the source is not recast if the destination defines the function that it names. -/
theorem Settled.recast_eq_self (hdest : dest.DistinctNames)
    (h : Settled dest src (clashes dest src) ρ src') {gs : List Func} (hgs : gs ⊆ src'.functions)
    {c : Call} {d : Func} (hd : d ∈ dest.functions) (hdef : d.isDeclared = false)
    (hname : c.direct? = some d.name) : c.recast dest.functions gs = c := by
  rcases c.recast_cases dest.functions gs with heq | ⟨⟨f, hf, hmisfit⟩, _⟩
  · exact heq
  · simp only [Func.misfit, Func.recasts, Bool.and_eq_true, Bool.not_eq_true', decide_eq_true_iff,
      hname, Option.some.injEq] at hmisfit
    have hf' := hgs hf
    rw [h.module_eq] at hf'
    obtain ⟨f₀, hf₀, rfl⟩ := List.mem_map.1 hf'
    have hdecl := h.isDeclared_of_name_eq hdest hf₀ (by simpa using hmisfit.1.1.1) hd hmisfit.1.2
    rw [hdef] at hdecl
    cases hdecl

/-- A call of a function that the source misdeclares stays direct, and does not fit. -/
theorem Moved.not_bodyTyped (hdest : dest.DistinctNames) (hsrc : src.DistinctNames)
    (htyped : src.CallTyped) (hdeclared : dest.Misdeclared src)
    (h : Settled dest src (clashes dest src) ρ src')
    (hout : Moved dest src'.functions (out, gained)) : ¬ out.BodyTyped := by
  obtain ⟨f, hf, c, hc, name, hname, s, hs, d, hd, hdecl, hdef, hsig⟩ := hdeclared
  obtain ⟨hdmem, rfl⟩ := mem_of_func? hd
  -- The name is no clash, since the source only declares it.
  have hkeep : ρ d.name = d.name := by
    refine h.other d.name fun hclash => ?_
    obtain ⟨t, ht, htname, htdef, _⟩ := Module.mem_clashes_iff.1 hclash
    rw [hsrc.func?_eq_some_iff.2 ⟨ht, htname⟩] at hs
    cases hs
    rw [htdef] at hdecl
    cases hdecl
  have hcρ : (c.renameBy ρ).direct? = some d.name := by
    rw [Call.direct?_renameBy, hname, Option.map_some, hkeep]
  obtain ⟨gs, hgs, hmem⟩ := hout.exists_landed hdest h hf (Func.isDeclared_of_mem_calls hc)
  have hcall : c.renameBy ρ ∈ ((f.renameBy ρ).recast dest.functions gs).calls := by
    rw [Func.calls_recast, Func.calls_renameBy]
    refine List.mem_map.2 ⟨c.renameBy ρ, List.mem_map_of_mem hc, ?_⟩
    exact h.recast_eq_self hdest hgs hdmem hdef hcρ
  intro hbody
  refine hsig ?_
  rw [← htyped f hf c hc d.name hname s hs]
  exact hbody _ hmem _ hcall d.name hcρ (d.recast dest.functions src'.functions)
    (hout.func?_of_defined hdest h hdmem hdef) (by rwa [Func.isDeclared_recast])

end Links

/-- Linking typed modules gives a module whose calls fit the definitions that they name, exactly if
the source misdeclares no function that it calls. -/
theorem bodyTyped_link_iff {dest src out : Module} (hdest : dest.DistinctNames)
    (hsrc : src.DistinctNames) (hdestClosed : dest.Closed) (hsrcClosed : src.Closed)
    (hdestTyped : dest.CallTyped) (hsrcTyped : src.CallTyped) {gained : Nat}
    (h : dest.link src = (.ok gained, out)) : out.BodyTyped ↔ ¬ dest.Misdeclared src := by
  obtain ⟨ρ, src', hsettled, hout⟩ := link_eq hdest hsrc h
  constructor
  · intro hbody hdeclared
    exact hout.not_bodyTyped hdest hsrc hsrcTyped hdeclared hsettled hbody
  · intro hdeclared f hf c hc name hname g hg hdef
    obtain ⟨hgmem, rfl⟩ := mem_of_func? hg
    rcases hout.mem_cases hdest hf with ⟨d, hd, rfl⟩ | ⟨f', hf', ⟨gs, _, rfl⟩, -⟩
    · exact hout.sig_eq_of_dest hdest hdestClosed hdestTyped hd hc hgmem hname
    · rw [hsettled.module_eq] at hf'
      obtain ⟨s, hs, rfl⟩ := List.mem_map.1 hf'
      exact hout.sig_eq_of_src hdest hsrcClosed hsrcTyped hdeclared hsettled hs hc hgmem hdef hname

/-- A program that expects integers of a function, and defines another one on floats. -/
def floatProgram : Module :=
  ⟨"p", [], [.declare "f" ⟨.int 32, [.int 32]⟩, relay "main" (.int 32) "f" ⟨.int 32, [.int 32]⟩,
    relay "g" (.float 32) "g" ⟨.float 32, [.float 32]⟩]⟩

/-- A library that defines the first function on floats, and declares the second one as it is. -/
def floatLibrary : Module :=
  ⟨"l", [], [relay "f" (.float 32) "g" ⟨.float 32, [.float 32]⟩,
    .declare "g" ⟨.float 32, [.float 32]⟩]⟩

/-- The program's call goes through a cast, and the library's call fits. -/
theorem bodyTyped_link_floatLibrary :
    floatProgram.DistinctNames ∧ floatLibrary.DistinctNames ∧ floatProgram.Closed ∧
    floatLibrary.Closed ∧ floatProgram.CallTyped ∧ floatLibrary.CallTyped ∧
    ∃ gained out, floatProgram.link floatLibrary = (.ok gained, out) ∧ out.BodyTyped := by
  have hprogram : floatProgram.DistinctNames := by decide +kernel
  have hlibrary : floatLibrary.DistinctNames := by decide +kernel
  have hprogramClosed : floatProgram.Closed := by decide +kernel
  have hlibraryClosed : floatLibrary.Closed := by decide +kernel
  have hprogramTyped : floatProgram.CallTyped := by decide +kernel
  have hlibraryTyped : floatLibrary.CallTyped := by decide +kernel
  have hok : (floatProgram.link floatLibrary).1.isOk = true := by decide +kernel
  refine ⟨hprogram, hlibrary, hprogramClosed, hlibraryClosed, hprogramTyped, hlibraryTyped, ?_⟩
  rcases h : floatProgram.link floatLibrary with ⟨gained | gained, out⟩
  · rw [h] at hok
    cases hok
  · refine ⟨gained, out, rfl, ?_⟩
    exact (bodyTyped_link_iff hprogram hlibrary hprogramClosed hlibraryClosed hprogramTyped
      hlibraryTyped h).2 (by decide +kernel)

/-- A program that defines a function on integers. -/
def intProgram : Module :=
  ⟨"p", [], [relay "f" (.int 32) "ext" ⟨.int 32, [.int 32]⟩, .declare "ext" ⟨.int 32, [.int 32]⟩]⟩

/-- A library that expects floats of it. -/
def intMisdeclared : Module :=
  ⟨"l", [], [relay "lib" (.float 32) "f" ⟨.float 32, [.float 32]⟩,
    .declare "f" ⟨.float 32, [.float 32]⟩]⟩

/-- Both modules are typed, and the library's call stays direct although it does not fit. -/
theorem not_bodyTyped_link_intMisdeclared :
    intProgram.DistinctNames ∧ intMisdeclared.DistinctNames ∧ intProgram.Closed ∧
    intMisdeclared.Closed ∧ intProgram.CallTyped ∧ intMisdeclared.CallTyped ∧
    (intProgram.link intMisdeclared).1 = .ok 1 ∧
    ¬ (intProgram.link intMisdeclared).2.BodyTyped := by
  decide +kernel

end Module

end Postlink
