import Postlink.Proofs.Lowering.Arity

/-!
# Lowered calls agree with what they name

The instructions that lowering inserts into a function stand in its result one for each step of the
replacements of its calls, in the order of the calls (`Module.LoweredAs`). Each step of a rule has
as many overload types as its intrinsic takes, and the result has a function under the name that the
step calls. So if functions under the names of intrinsics are what their names say, every inserted
call agrees with the declaration of the intrinsic that the rule for its own call has chosen
(`Module.callsAgree_lower`).
-/

namespace Postlink

namespace Module

/-- A step that stands in for a call is one of the replacement that its rule gives. -/
theorem exists_verdict_of_mem_stepsFor {m : Module} {caller : String} {site : DirectCall}
    {step : Step} (h : step ∈ m.stepsFor caller site) :
    ∃ steps, m.verdict caller site = .ok (some (.replace steps)) ∧ step ∈ steps := by
  rw [stepsFor] at h
  cases hsteps : m.replacement? caller site with
  | none =>
      rw [hsteps] at h
      cases h
  | some steps =>
      rw [hsteps] at h
      exact ⟨steps, replacement?_eq_some_iff.1 hsteps, h⟩

/-- What steps have become is realised in a module that has what they call. -/
theorem IntrinsicConsistent.forall₂_realises {m : Module} (h : m.IntrinsicConsistent)
    (hnames : m.DistinctNames) {steps : List Step} {new : List Instr}
    (hsteps : ∀ step ∈ steps, step.Sized ∧ step.Named m)
    (hnew : List.Forall₂ Step.Emits steps new) : List.Forall₂ m.Realises steps new := by
  refine ((List.forall₂_and_left _ _).2 ⟨hsteps, hnew⟩).imp ?_
  rintro step j ⟨⟨hsized, hnamed⟩, hj⟩
  exact h.realises hnames ⟨hsized, hnamed, hj.yields⟩

/-- The calls of a lowered module that stand in for others agree with the declarations they name. -/
structure CallsAgree (m out : Module) : Prop where
  /-- Names are distinct. -/
  names : out.DistinctNames
  /-- Functions under the names of intrinsics are what their names say. -/
  consistent : out.IntrinsicConsistent
  /-- Every intrinsic that the rule for a call asks for is declared, with its signature. -/
  declared : ∀ f ∈ m.functions, ∀ site ∈ f.directCalls, ∀ steps,
    m.verdict f.name site = .ok (some (.replace steps)) →
      ∀ op tys args, Step.intrinsic op tys args ∈ steps →
        ∃ d, out.func? (op.declName tys) = some d ∧ d.intrinsic = some op ∧ d.sig = op.signature tys
  /-- Bodies are reworked in order, and what is new in them comes from the rule for a call. -/
  shape : m.Shaped out.Realises out
  /-- What is inserted into a function are the steps of the replacements of its calls, each of them
  once, in the order of the calls. An instruction for a step that calls an intrinsic names a
  function that is declared as this intrinsic, with the signature that the call expects, and it has
  the type of the result. -/
  lowered : ∀ (k : Nat) f, m.functions[k]? = some f → ∃ g new gone, out.functions[k]? = some g ∧
    m.LoweredAs f g new gone ∧
    List.Forall₂ out.Realises (f.directCalls.flatMap (m.stepsFor f.name)) new

/-- Lowering keeps functions under the names of intrinsics what their names say, and each call of an
intrinsic that it inserts agrees with the declaration that it names, which is the one that the rule
for the replaced call asks for. -/
theorem callsAgree_lower {m out : Module} {mode : Overflow} {internal : Bool}
    {stats : LoweringStats} (hnames : m.DistinctNames) (hconsistent : m.IntrinsicConsistent)
    (h : m.lower mode internal = .ok (stats, out)) : m.CallsAgree out := by
  obtain ⟨hlowered, hcovers⟩ := loweredTo_lower hnames h
  have hout := hconsistent.grows hlowered.shape.grows
  have hnamed : ∀ f ∈ m.functions, ∀ site ∈ f.directCalls, ∀ steps,
      m.verdict f.name site = .ok (some (.replace steps)) →
        ∀ step ∈ steps, step.Sized ∧ step.Named out := fun f hf site hsite steps hv step hstep =>
    ⟨sized_of_verdict hv step hstep, hcovers f hf site hsite steps hv step hstep⟩
  refine ⟨hlowered.names, hout, fun f hf site hsite steps hv op tys args hstep => ?_,
    hlowered.shape.mono fun _ _ => hout.realises hlowered.names, fun k f hf => ?_⟩
  · obtain ⟨hsized, hthere⟩ := hnamed f hf site hsite steps hv _ hstep
    obtain ⟨d, hd, hname⟩ := List.mem_map.1 hthere
    exact ⟨d, hlowered.names.func?_eq_some_iff.2 ⟨hd, hname⟩, hout d hd op tys hsized hname⟩
  · obtain ⟨⟨g, new, gone, hg, hrecord⟩, _⟩ := exists_loweredAs h hf
    refine ⟨g, new, gone, hg, hrecord,
      hout.forall₂_realises hlowered.names (fun step hstep => ?_) hrecord.inserted⟩
    obtain ⟨site, hsite, hstep⟩ := List.mem_flatMap.1 hstep
    obtain ⟨steps, hv, hmem⟩ := exists_verdict_of_mem_stepsFor hstep
    exact hnamed f (List.mem_of_getElem? hf) site hsite steps hv step hmem

/-- A choice between handlers and a conversion, the calls of which share an identifier. One of the
intrinsics that they become is declared before. -/
def handlerCalls : Module :=
  let handler := Ty.ptr (.func .void [.float 32, .func (.int 8) []])
  let pick := Func.declare "__builtin_IB_fmax" ⟨handler, [handler, handler]⟩
  let round := Func.declare "__builtin_IB_dtoi32_rtn" ⟨.int 32, [.float 64]⟩
  ⟨"m", [], [pick, round, .ofIntrinsic .rndd [.float 64],
    .define "kernel" ⟨.int 32, [handler, .float 64]⟩ [⟨"entry",
      [callOf 0 pick [.arg 0, .arg 0], callOf 0 round [.arg 1],
        ⟨1, "", .void, .ret (some (.inst 0)), none⟩]⟩]]⟩

/-- Two declarations are made and one is found, and the three calls agree with them. -/
theorem callsAgree_lower_handlerCalls :
    handlerCalls.DistinctNames ∧ handlerCalls.IntrinsicConsistent ∧ ¬ handlerCalls.Numbered ∧
    ∃ stats out, handlerCalls.lower .wraps true = .ok (stats, out) ∧
      out.instrs.map Instr.called? = [some "llvm.genx.fmax.p0f_isVoidf32f_i8ff",
        some "llvm.genx.rndd.f64", some "llvm.genx.fptosi.sat.i32.f64", none] ∧
      out.functions.length = handlerCalls.functions.length + 2 ∧ handlerCalls.CallsAgree out := by
  have hnames : handlerCalls.DistinctNames := by decide +kernel
  have hconsistent : handlerCalls.IntrinsicConsistent := by
    refine intrinsicConsistent_of_cases fun f hf => ?_
    simp only [handlerCalls, List.mem_cons, List.not_mem_nil, or_false] at hf
    rcases hf with rfl | rfl | rfl | rfl
    · exact Or.inl (by decide +kernel)
    · exact Or.inl (by decide +kernel)
    · exact Or.inr ⟨_, _, rfl⟩
    · exact Or.inl (by decide +kernel)
  have hcalls : (handlerCalls.lower .wraps true).toOption.map (fun r =>
      (r.2.instrs.map Instr.called?, r.2.functions.length)) =
      some ([some "llvm.genx.fmax.p0f_isVoidf32f_i8ff", some "llvm.genx.rndd.f64",
        some "llvm.genx.fptosi.sat.i32.f64", none], handlerCalls.functions.length + 2) := by
    decide +kernel
  refine ⟨hnames, hconsistent, by decide +kernel, ?_⟩
  obtain ⟨r, hr, hpair⟩ := exists_ok_of_map hcalls
  obtain ⟨hcalled, hlength⟩ := Prod.mk.inj hpair
  exact ⟨r.1, r.2, hr, hcalled, hlength, callsAgree_lower hnames hconsistent hr⟩

end Module

end Postlink
