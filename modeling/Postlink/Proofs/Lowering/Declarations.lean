import Postlink.Proofs.Lowering.InPlace
import Postlink.Proofs.Mangling
import Postlink.Proofs.Reworking

/-!
# Lowered calls and the declarations they name

The declaration that a lowered call needs is found or made by its name, and the signature that the
call expects is computed from the overload types. Both agree in a module where functions under the
names of intrinsics are what their names say (`IntrinsicConsistent`): a name gives away the
operation and its types, and every rule gives as many types as the operation takes
(`sized_of_verdict`). Identifiers do not matter, so bodies are followed by `Instr.Reworked`.
-/

namespace Postlink

namespace Step

/-- There are as many overload types as the intrinsic takes. -/
def Sized : Step → Prop
  | .intrinsic op tys _ => tys.length = op.overloads
  | _ => True

/-- The module has a function under the name that the step calls. -/
def Named (m : Module) : Step → Prop
  | .intrinsic op tys _ => op.declName tys ∈ m.functions.map Func.name
  | _ => True

/-- An instruction that the step becomes, whatever values it takes. -/
def Yields : Step → Instr → Prop
  | .intrinsic op tys _, j => j.ty = (op.signature tys).ret ∧
      ∃ c, j.call? = some c ∧ c.callee = .func (op.declName tys) ∧ c.sig = op.signature tys
  | .binary op ty _ _, j => j.ty = ty ∧ ∃ lhs rhs, j.kind = .binary op lhs rhs
  | .convert op ty _, j => j.ty = ty ∧ ∃ value, j.kind = .cast op value

/-- A step becomes an instruction that it yields. -/
theorem yields_instruction (step : Step) (previous : Option Operand) (id : Nat) (name : String)
    (loc : Option Loc) :
    step.Yields ⟨id, name, (step.instruction previous).1, (step.instruction previous).2, loc⟩ := by
  cases step with
  | intrinsic op tys args => exact ⟨rfl, _, rfl, rfl, rfl⟩
  | binary op ty lhs rhs => exact ⟨rfl, lhs, rhs, rfl⟩
  | convert op ty value => exact ⟨rfl, value, rfl⟩

/-- Renumbering results keeps what a step yields. -/
theorem Yields.renumber {step : Step} {j : Instr} (h : step.Yields j) (ρ : Nat → Nat) :
    step.Yields (j.renumber ρ) := by
  rcases j with ⟨id, name, ty, kind, loc⟩
  cases step with
  | intrinsic op tys args =>
      obtain ⟨hty, c, hcall, hcallee, hsig⟩ := h
      cases kind with
      | call d =>
          cases hcall
          refine ⟨hty, _, rfl, ?_, hsig⟩
          rw [hcallee]
          rfl
      | _ => cases hcall
  | binary op ty lhs rhs =>
      obtain ⟨hty, lhs, rhs, hkind⟩ := h
      cases hkind
      exact ⟨hty, _, _, rfl⟩
  | convert op ty value =>
      obtain ⟨hty, value, hkind⟩ := h
      cases hkind
      exact ⟨hty, _, rfl⟩

/-- An instruction that a step has become in a module that has what it calls. -/
structure Placed (m : Module) (step : Step) (j : Instr) : Prop where
  /-- There are as many overload types as the intrinsic takes. -/
  sized : step.Sized
  /-- What is called is there. -/
  named : step.Named m
  /-- The instruction is what the step becomes. -/
  yields : step.Yields j

theorem Named.mono {m m' : Module} (hsub : m.functions.map Func.name ⊆ m'.functions.map Func.name)
    {step : Step} (h : step.Named m) : step.Named m' := by
  cases step with
  | intrinsic op tys args => exact hsub h
  | _ => trivial

/-- Declaring what a step calls removes no name. -/
theorem map_name_declare_subset (m : Module) (step : Step) :
    m.functions.map Func.name ⊆ (step.declare m).functions.map Func.name := by
  cases step with
  | intrinsic op tys args =>
      rw [declare, Module.declareIntrinsic]
      split
      · exact List.Subset.refl _
      · rw [Module.addFunc, List.map_append]
        exact List.subset_append_left ..
  | binary op ty lhs rhs => exact List.Subset.refl _
  | convert op ty value => exact List.Subset.refl _

/-- Declaring what some steps call removes no name. -/
theorem map_name_foldl_declare_subset (m : Module) (steps : List Step) :
    m.functions.map Func.name ⊆ (steps.foldl declare m).functions.map Func.name := by
  induction steps generalizing m with
  | nil => exact List.Subset.refl _
  | cons step steps ih => exact List.Subset.trans (map_name_declare_subset m step) (ih _)

/-- What a step calls is there once it is declared. -/
theorem named_declare (m : Module) (step : Step) : step.Named (step.declare m) := by
  cases step with
  | intrinsic op tys args =>
      rw [Named, declare, Module.declareIntrinsic]
      split
      · rename_i hsome
        exact Module.isSome_func?_iff.1 hsome
      · rw [Module.addFunc, List.map_append]
        exact List.mem_append_right _ (List.mem_singleton_self _)
  | binary op ty lhs rhs => trivial
  | convert op ty value => trivial

/-- What some steps call is there once it is declared. -/
theorem named_foldl_declare (m : Module) (steps : List Step) :
    ∀ step ∈ steps, step.Named (steps.foldl declare m) := by
  induction steps generalizing m with
  | nil => exact fun step hstep => absurd hstep List.not_mem_nil
  | cons step steps ih =>
      rw [List.forall_mem_cons]
      exact ⟨(named_declare m step).mono (map_name_foldl_declare_subset _ steps), ih _⟩

/-- An intrinsic at enough types is at as many as it takes. -/
theorem sized_atTypes {op : Intrinsic} {tys : List Ty} (h : op.overloads ≤ tys.length)
    (args : List Source) : (atTypes op tys args).Sized := by
  show (tys.take op.overloads).length = op.overloads
  rw [List.length_take, Nat.min_eq_left h]

end Step

/-- A recipe gives as many types as its intrinsics take. -/
theorem Recipe.sized_of_steps {caller name : String} {site : DirectCall} {ret : Ty}
    {recipe : Recipe} (hr : Builtins.recipe? name = some recipe) {steps : List Step}
    (h : recipe.steps caller site ret = .ok steps) : ∀ step ∈ steps, step.Sized := by
  have hone : ∀ e ∈ Builtins.oneStep, e.2.overloads ≤ 1 := by decide +kernel
  have htwo : ∀ e ∈ Builtins.twoStep, e.2.1.overloads ≤ 1 ∧ e.2.2.overloads ≤ 2 := by decide +kernel
  rcases Builtins.mem_of_recipe? hr with ⟨op, rfl, hmem⟩ | ⟨op, op', rfl, hmem⟩
  · cases h
    intro step hstep
    rw [List.mem_singleton.1 hstep]
    exact Step.sized_atTypes (hone _ hmem) _
  · obtain ⟨a, _, rfl⟩ := map_eq_ok h
    obtain ⟨hproducer, hconsumer⟩ := htwo _ hmem
    intro step hstep
    rcases List.mem_cons.1 hstep with rfl | hstep
    · exact Step.sized_atTypes hproducer _
    · rw [List.mem_singleton.1 hstep]
      exact Step.sized_atTypes hconsumer _

/-- The steps of a builtin family call intrinsics at as many types as they take. -/
theorem Family.sized_of_steps {caller : String} {site : DirectCall} {ret : Ty} {family : Family}
    {steps : List Step} (h : family.steps caller site ret = .ok steps) :
    ∀ step ∈ steps, step.Sized := by
  unfold Family.steps at h
  split at h
  · cases h
  · rename_i lhs _
    have hrounded : ∀ op : BinaryOp, roundedSteps caller site op lhs = .ok steps →
        ∀ step ∈ steps, step.Sized := by
      intro op hop
      obtain ⟨rhs, _, rfl⟩ := map_eq_ok hop
      intro step hstep
      rcases List.mem_cons.1 hstep with rfl | hstep
      · trivial
      · rw [List.mem_singleton.1 hstep]
        refine Step.sized_atTypes ?_ _
        exact Nat.le_refl 1
    cases family with
    | signedToFloat => cases h; exact fun step hstep => List.mem_singleton.1 hstep ▸ trivial
    | unsignedToFloat => cases h; exact fun step hstep => List.mem_singleton.1 hstep ▸ trivial
    | mulRoundToZero => exact hrounded _ h
    | addRoundToZero => exact hrounded _ h

/-- The step for a count of leading zeros calls the intrinsic at as many types as it takes. -/
theorem DirectCall.sized_of_leadingZeros {caller : String} {site : DirectCall} {steps : List Step}
    (h : site.leadingZeros caller = .ok steps) : ∀ step ∈ steps, step.Sized := by
  unfold leadingZeros at h
  split at h
  · cases h
  · split at h
    · cases h
      intro step hstep
      rw [List.mem_singleton.1 hstep]
      refine Step.sized_atTypes ?_ _
      exact Nat.le_refl 1
    · cases h

namespace Module

/-- Every rule gives as many types as the intrinsics take. -/
theorem sized_of_verdict {m : Module} {caller : String} {site : DirectCall} {steps : List Step}
    (h : m.verdict caller site = .ok (some (.replace steps))) : ∀ step ∈ steps, step.Sized := by
  rcases steps_of_verdict h with hzeros | ⟨ret, recipe, hrecipe, hsteps⟩ | ⟨ret, family, hsteps⟩
  · exact DirectCall.sized_of_leadingZeros hzeros
  · exact Recipe.sized_of_steps hrecipe hsteps
  · exact Family.sized_of_steps hsteps

/-- A function under the name that an intrinsic has at as many types as it takes is declared as that
intrinsic, with the signature at these types. -/
def IntrinsicConsistent (m : Module) : Prop :=
  ∀ f ∈ m.functions, ∀ (op : Intrinsic) (tys : List Ty), tys.length = op.overloads →
    f.name = op.declName tys → f.intrinsic = some op ∧ f.sig = op.signature tys

/-- A declaration of an intrinsic is what its name says. -/
theorem ofIntrinsic_consistent {op op' : Intrinsic} {tys tys' : List Ty}
    (h : (Func.ofIntrinsic op tys).name = op'.declName tys') :
    (Func.ofIntrinsic op tys).intrinsic = some op' ∧
      (Func.ofIntrinsic op tys).sig = op'.signature tys' := by
  obtain ⟨rfl, rfl⟩ := Intrinsic.eq_of_declName_eq h
  exact ⟨rfl, rfl⟩

/-- It is enough that functions are declarations of intrinsics or are not named like any. -/
theorem intrinsicConsistent_of_cases {m : Module} (h : ∀ f ∈ m.functions,
    firstByte f.name ≠ some 108 ∨ ∃ op tys, f = Func.ofIntrinsic op tys) :
    m.IntrinsicConsistent := by
  intro f hf op tys _ hname
  rcases h f hf with hother | ⟨op', tys', rfl⟩
  · rw [hname] at hother
    exact absurd (op.firstByte_declName tys) hother
  · exact ofIntrinsic_consistent hname

/-- New declarations of intrinsics are what their names say. -/
theorem IntrinsicConsistent.grows {m m' : Module} (h : m.IntrinsicConsistent)
    (hgrows : m.Grows m') : m'.IntrinsicConsistent := by
  obtain ⟨fs, ds, hfuncs, hheaders, hds⟩ := hgrows
  intro g hg op tys hlength hname
  rw [hfuncs] at hg
  rcases List.mem_append.1 hg with hg | hg
  · have hmem : g.header ∈ m.functions.map Func.header := hheaders ▸ List.mem_map_of_mem hg
    obtain ⟨f, hf, hheader⟩ := List.mem_map.1 hmem
    simp only [Func.header, Prod.mk.injEq] at hheader
    obtain ⟨hfname, hsig, htag⟩ := hheader
    rw [← hsig, ← htag]
    exact h f hf op tys hlength (hfname.trans hname)
  · obtain ⟨op', tys', _, rfl⟩ := hds g hg
    exact ofIntrinsic_consistent hname

/-- An instruction that a step has become, where the function that it calls is declared as the
intrinsic of the step, with the signature that the call expects. -/
def Realises (m : Module) : Step → Instr → Prop
  | .intrinsic op tys _, j => ∃ c d, j.call? = some c ∧ c.callee = .func d.name ∧
      m.func? d.name = some d ∧ d.intrinsic = some op ∧ d.sig = c.sig ∧ c.sig = op.signature tys ∧
      j.ty = c.sig.ret
  | step, j => step.Yields j

/-- Where intrinsics are declared as what they are, a step that is placed is realised. -/
theorem IntrinsicConsistent.realises {m : Module} (h : m.IntrinsicConsistent)
    (hnames : m.DistinctNames) {step : Step} {j : Instr} (hj : step.Placed m j) :
    m.Realises step j := by
  obtain ⟨hsized, hnamed, hyields⟩ := hj
  cases step with
  | intrinsic op tys args =>
      obtain ⟨hty, c, hcall, hcallee, hsig⟩ := hyields
      obtain ⟨d, hd, hname⟩ := List.mem_map.1 hnamed
      obtain ⟨htag, hdsig⟩ := h d hd op tys hsized hname
      refine ⟨c, d, hcall, ?_, hnames.func?_eq hd, htag, ?_, hsig, ?_⟩
      · rw [hcallee, hname]
      · rw [hdsig, hsig]
      · rw [hty, hsig]
  | binary op ty lhs rhs => exact hyields
  | convert op ty value => exact hyields

/-- An instruction that stands in for a direct call of a function, related to the step that it comes
from. -/
def StandsIn (m : Module) (p : Step → Instr → Prop) (f : Func) (j : Instr) : Prop :=
  ∃ site ∈ f.directCalls, ∃ steps, m.verdict f.name site = .ok (some (.replace steps)) ∧
    ∃ step ∈ steps, p step j

theorem StandsIn.mono {m : Module} {p q : Step → Instr → Prop} (hpq : ∀ step j, p step j → q step j)
    {f : Func} {j : Instr} (h : m.StandsIn p f j) : m.StandsIn q f j := by
  obtain ⟨site, hsite, steps, hv, step, hstep, hp⟩ := h
  exact ⟨site, hsite, steps, hv, step, hstep, hpq step j hp⟩

end Module

namespace Func

/-- The function with its body reworked. -/
def Reworks (new : Instr → Prop) (f g : Func) : Prop :=
  g.header = f.header ∧ ∃ ρ, Instr.Reworked ρ new f.instrs g.instrs

namespace Reworks

variable {mode : Overflow} {new : Instr → Prop} {f g g' : Func}

theorem refl (new : Instr → Prop) (f : Func) : f.Reworks new f := ⟨rfl, _, .refl new f.instrs⟩

theorem mono {new' : Instr → Prop} (h : f.Reworks new g) (hnew : ∀ j, new j → new' j) :
    f.Reworks new' g := by
  obtain ⟨hheader, ρ, h⟩ := h
  exact ⟨hheader, ρ, h.mono hnew⟩

/-- A body that was reworked may lose instructions. -/
theorem sublist (h : f.Reworks new g) (hheader : g'.header = g.header)
    (hsub : g'.instrs.Sublist g.instrs) : f.Reworks new g' := by
  obtain ⟨hheader', ρ, h⟩ := h
  exact ⟨hheader.trans hheader', ρ, h.sublist hsub⟩

/-- A new instruction is inserted. -/
theorem insertBefore (h : f.Reworks new g) {k id : Nat} {x : Instr}
    (hs : g.insertBefore mode k x = .ok (id, g')) (hx : new { x with id := id }) :
    f.Reworks new g' := by
  obtain ⟨hheader, ρ, h⟩ := h
  refine ⟨?_, ρ, ?_⟩
  · obtain ⟨_, _, _, _, rfl⟩ := insertBefore_cases hs
    exact hheader
  · rw [instrs_insertBefore hs]
    exact h.insertBefore hx k

variable (hclosed : ∀ ρ j, new j → new (j.renumber ρ))

include hclosed

/-- Handing the uses of a result to another one reworks the body. -/
theorem replaceUses (h : f.Reworks new g) (a b : Nat) :
    f.Reworks new (g.replaceUses a (.inst b)) := by
  obtain ⟨hheader, ρ, h⟩ := h
  have hnext := h.renumber (fun k => if k = a then b else k) (hclosed _)
  refine ⟨hheader, (fun k => if k = a then b else k) ∘ ρ, ?_⟩
  rw [Func.replaceUses, Operand.replace_eq_renumber, instrs_mapInstrs]
  exact hnext

/-- Emitting the steps of a replacement. -/
theorem emit (h : f.Reworks new g) {site : DirectCall} {steps : List Step}
    (hnew : ∀ step ∈ steps, ∀ j, step.Yields j → new j)
    (hs : Lowering.emit mode site steps g = .ok g') : f.Reworks new g' := by
  obtain ⟨r, hr, rfl⟩ := map_eq_ok hs
  obtain ⟨hrun, hresult⟩ : f.Reworks new r.1 ∧ ∀ o ∈ r.2, ∃ id, o = .inst id := by
    refine foldlM_induction
      (motive := fun s => f.Reworks new s.1 ∧ ∀ o ∈ s.2, ∃ id, o = Operand.inst id)
      ⟨h, fun o ho => by cases ho⟩ ?_ hr
    rintro ⟨t, previous⟩ step s' hstep ⟨ht, _⟩ hemit
    obtain ⟨⟨id, t'⟩, hinsert, rfl⟩ := map_eq_ok hemit
    refine ⟨ht.insertBefore hinsert ?_, fun o ho => ?_⟩
    · exact hnew step hstep _ (step.yields_instruction previous id _ _)
    · cases ho
      exact ⟨id, rfl⟩
  cases ho : r.2 with
  | none => exact hrun
  | some o =>
      obtain ⟨id, rfl⟩ := hresult o ho
      exact hrun.replaceUses hclosed _ id

end Reworks

/-- The function with instructions removed, or nothing but its linkage changed. -/
structure Trims (g g' : Func) : Prop where
  /-- What a verdict reads stays. -/
  header : g'.header = g.header
  /-- A declaration stays. -/
  declared : g.isDeclared = true → g' = g
  /-- Instructions may be gone. -/
  instrs : g'.instrs.Sublist g.instrs

theorem Trims.refl (g : Func) : g.Trims g := ⟨rfl, fun _ => rfl, List.Sublist.refl _⟩

/-- Removing an instruction trims a function. -/
theorem trims_eraseInstr (g : Func) (k : Nat) : g.Trims (g.eraseInstr k) :=
  ⟨rfl, fun h => eraseInstr_of_isDeclared h k, g.instrs_eraseInstr_sublist k⟩

end Func

namespace Module

/-- The functions of a module in place, their bodies reworked by the replacements of their calls,
followed by declarations of intrinsics. -/
def Shaped (m : Module) (p : Step → Instr → Prop) (m' : Module) : Prop :=
  ∃ fs ds, m'.functions = fs ++ ds ∧
    List.Forall₂ (fun f g => f.Reworks (m.StandsIn p f) g) m.functions fs ∧ ∀ d ∈ ds, d.IsTarget

namespace Shaped

variable {m m' m'' : Module} {p q : Step → Instr → Prop}

theorem refl (m : Module) (p : Step → Instr → Prop) : m.Shaped p m :=
  ⟨m.functions, [], (List.append_nil _).symm, List.forall₂_same.2 fun f _ => .refl _ f,
    fun _ hd => absurd hd List.not_mem_nil⟩

theorem mono (h : m.Shaped p m') (hpq : ∀ step j, p step j → q step j) : m.Shaped q m' := by
  obtain ⟨fs, ds, hfuncs, hall, hds⟩ := h
  exact ⟨fs, ds, hfuncs, hall.imp fun f g hfg => hfg.mono fun j hj => hj.mono hpq, hds⟩

/-- A module that has been lowered in part has grown. -/
theorem grows (h : m.Shaped p m') : m.Grows m' := by
  obtain ⟨fs, ds, hfuncs, hall, hds⟩ := h
  exact ⟨fs, ds, hfuncs, map_eq_of_forall₂ (fun _ _ hfg => hfg.1) hall, hds⟩

/-- Functions stay at their positions. -/
theorem getElem? (h : m.Shaped p m') {k : Nat} {f : Func} (hf : m.functions[k]? = some f) :
    ∃ g, m'.functions[k]? = some g ∧ f.Reworks (m.StandsIn p f) g := by
  obtain ⟨fs, ds, hfuncs, hall, _⟩ := h
  obtain ⟨g, hg, hfg⟩ := exists_getElem?_of_forall₂ hall hf
  refine ⟨g, ?_, hfg⟩
  rw [hfuncs, List.getElem?_append_left (List.getElem?_eq_some_iff.1 hg).1, hg]

/-- A function may be exchanged for one that is reworked as well. -/
theorem setFunc (h : m.Shaped p m') {k : Nat} {f g : Func} (hf : m.functions[k]? = some f)
    (hg : f.Reworks (m.StandsIn p f) g) : m.Shaped p (m'.setFunc k g) := by
  obtain ⟨fs, ds, hfuncs, hall, hds⟩ := h
  have hlt : k < fs.length := hall.length_eq ▸ (List.getElem?_eq_some_iff.1 hf).1
  refine ⟨fs.set k g, ds, ?_, forall₂_set hall hf hg, hds⟩
  rw [Module.setFunc, hfuncs, List.set_append_left k g hlt]

/-- Declarations may be added. -/
theorem declared (h : m.Shaped p m') (hmore : m'.Declared m'') : m.Shaped p m'' := by
  obtain ⟨fs, ds, hfuncs, hall, hds⟩ := h
  obtain ⟨ds', rfl, hds'⟩ := hmore
  refine ⟨fs, ds ++ ds', ?_, hall, fun d hd => ?_⟩
  · rw [← List.append_assoc, ← hfuncs]
  · rcases List.mem_append.1 hd with hd | hd
    · exact hds d hd
    · exact hds' d hd

/-- The steps of a replacement are emitted. -/
theorem emit (hclosed : ∀ step ρ j, p step j → p step (j.renumber ρ)) (h : m.Shaped p m') {k : Nat}
    {f g g' : Func} (hf : m.functions[k]? = some f) (hg : m'.functions[k]? = some g)
    {site : DirectCall} (hsite : site ∈ f.directCalls) {steps : List Step}
    (hv : m.verdict f.name site = .ok (some (.replace steps)))
    (hp : ∀ step ∈ steps, ∀ j, step.Yields j → p step j) {mode : Overflow}
    (hemit : Lowering.emit mode site steps g = .ok g') :
    m.Shaped p (m'.setFunc k g') ∧ g'.header = g.header := by
  obtain ⟨g₀, hg₀, hreworks⟩ := h.getElem? hf
  rw [hg] at hg₀
  cases hg₀
  have hnext : f.Reworks (m.StandsIn p f) g' := by
    refine hreworks.emit ?_ (fun step hstep j hj => ?_) hemit
    · rintro ρ j ⟨site, hsite, steps, hv, step, hstep, hj⟩
      exact ⟨site, hsite, steps, hv, step, hstep, hclosed step ρ j hj⟩
    · exact ⟨site, hsite, steps, hv, step, hstep, hp step hstep j hj⟩
  exact ⟨h.setFunc hf hnext, hnext.1.trans hreworks.1.symm⟩

/-- Functions may be trimmed. -/
theorem trim (h : m.Shaped p m') (htrims : List.Forall₂ Func.Trims m'.functions m''.functions) :
    m.Shaped p m'' := by
  obtain ⟨fs, ds, hfuncs, hall, hds⟩ := h
  rw [hfuncs] at htrims
  have hfs := List.forall₂_take fs.length htrims
  have hrest := List.forall₂_drop fs.length htrims
  rw [List.take_left] at hfs
  rw [List.drop_left] at hrest
  refine ⟨_, _, (List.take_append_drop fs.length m''.functions).symm, ?_, ?_⟩
  · exact forall₂_trans (fun _ _ _ hfg hgg' => hfg.sublist hgg'.header hgg'.instrs) hall hfs
  · -- There is nothing to remove from a declaration.
    refine forall_mem_of_forall₂ (fun d d' hdd' hd => ?_) hrest hds
    have hdecl : d.isDeclared = true := by
      obtain ⟨op, tys, _, rfl⟩ := hd
      rfl
    rwa [hdd'.declared hdecl]

end Shaped

/-- A module in which some calls have been lowered. -/
structure LoweredTo (m m' : Module) : Prop where
  /-- Bodies are reworked, and what new calls name is there. -/
  shape : m.Shaped (Step.Placed m') m'
  /-- Names stay distinct. -/
  names : m'.DistinctNames

namespace LoweredTo

variable {m m' m'' : Module}

/-- Only the names of a module count for what is called in it. -/
theorem of_shape (hshape : m.Shaped (Step.Placed m') m'')
    (hsub : m'.functions.map Func.name ⊆ m''.functions.map Func.name) (hnames : m''.DistinctNames) :
    m.LoweredTo m'' :=
  ⟨hshape.mono fun _ _ h => ⟨h.sized, h.named.mono hsub, h.yields⟩, hnames⟩

/-- The steps of a replacement are declared, and then emitted. -/
theorem replace (h : m.LoweredTo m') {k : Nat} {f g g' : Func} (hf : m.functions[k]? = some f)
    (hg : m'.functions[k]? = some g) {site : DirectCall} (hsite : site ∈ f.directCalls)
    {steps : List Step} (hv : m.verdict f.name site = .ok (some (.replace steps))) {mode : Overflow}
    (hemit : Lowering.emit mode site steps g = .ok g') :
    m.LoweredTo ((steps.foldl Step.declare m').setFunc k g') ∧
      (∀ step ∈ steps, step.Named ((steps.foldl Step.declare m').setFunc k g')) ∧
      m'.functions.map Func.name ⊆
        ((steps.foldl Step.declare m').setFunc k g').functions.map Func.name := by
  have hmore := m'.declared_foldl_declare (replacement_of_verdict hv).not_recognised
  have hdistinct := h.names.foldl_declare steps
  have hdeclared : m.LoweredTo (steps.foldl Step.declare m') :=
    .of_shape (h.shape.declared hmore) (Step.map_name_foldl_declare_subset m' steps) hdistinct
  have hthere : (steps.foldl Step.declare m').functions[k]? = some g := by
    rw [hmore.getElem? (List.getElem?_eq_some_iff.1 hg).1, hg]
  obtain ⟨hshape, hheader⟩ := hdeclared.shape.emit
    (fun step ρ j hj => ⟨hj.sized, hj.named, hj.yields.renumber ρ⟩) hf hthere hsite hv
    (fun step hstep j hj => ⟨sized_of_verdict hv step hstep,
      Step.named_foldl_declare m' steps step hstep, hj⟩) hemit
  have hmap : ((steps.foldl Step.declare m').setFunc k g').functions.map Func.name =
      (steps.foldl Step.declare m').functions.map Func.name :=
    map_setFunc hthere (congrArg Prod.fst hheader)
  have hsub : (steps.foldl Step.declare m').functions.map Func.name ⊆
      ((steps.foldl Step.declare m').setFunc k g').functions.map Func.name := by
    rw [hmap]
    exact List.Subset.refl _
  refine ⟨.of_shape hshape hsub ?_, fun step hstep => ?_, ?_⟩
  · rw [DistinctNames, hmap]
    exact hdistinct
  · exact (Step.named_foldl_declare m' steps step hstep).mono hsub
  · exact List.Subset.trans (Step.map_name_foldl_declare_subset m' steps) hsub

/-- A lowered module may be trimmed, and keeps its names. -/
theorem trim (h : m.LoweredTo m') (htrims : List.Forall₂ Func.Trims m'.functions m''.functions) :
    m.LoweredTo m'' ∧ m''.functions.map Func.name = m'.functions.map Func.name := by
  have hmap : m''.functions.map Func.name = m'.functions.map Func.name :=
    map_eq_of_forall₂ (fun _ _ hgg' => congrArg Prod.fst hgg'.header) htrims
  refine ⟨.of_shape (h.shape.trim htrims) (hmap ▸ List.Subset.refl _) ?_, hmap⟩
  rw [DistinctNames, hmap]
  exact h.names

end LoweredTo

end Module

/-- What the rule for a call asks for is there under its name. -/
def Module.Covers (m m' : Module) (f : Func) (site : DirectCall) : Prop :=
  ∀ steps, m.verdict f.name site = .ok (some (.replace steps)) → ∀ step ∈ steps, step.Named m'

theorem Module.Covers.mono {m m' m'' : Module} {f : Func} {site : DirectCall}
    (h : m.Covers m' f site) (hsub : m'.functions.map Func.name ⊆ m''.functions.map Func.name) :
    m.Covers m'' f site :=
  fun steps hv step hstep => (h steps hv step hstep).mono hsub

namespace Lowering

/-- The sweep while it is at a function, with the functions from a position on as they were. -/
structure Tracked (m : Module) (count : Nat) (s : Lowering) : Prop where
  /-- Some calls have been lowered. -/
  lowered : m.LoweredTo s.module
  /-- The other functions are as they were. -/
  untouched : ∀ k, count ≤ k → k < m.functions.length → s.module.functions[k]? = m.functions[k]?
  /-- No function is staged for removal. -/
  pending : s.pending.functions = []

namespace Tracked

variable {mode : Overflow} {m : Module} {count : Nat} {s s' : Lowering}

theorem start (hnames : m.DistinctNames) : Tracked m 0 (start m) :=
  ⟨⟨.refl m _, hnames⟩, fun _ _ _ => rfl, rfl⟩

theorem lt_length (h : Tracked m count s) {k : Nat} (hk : k < m.functions.length) :
    k < s.module.functions.length := by
  obtain ⟨g, hg, _⟩ := h.lowered.shape.getElem? (List.getElem?_eq_getElem hk)
  exact (List.getElem?_eq_some_iff.1 hg).1

/-- Lowering one call of the function at a position. -/
theorem lowerSite (h : Tracked m (count + 1) s) {f : Func} (hf : m.functions[count]? = some f)
    {site : DirectCall} (hsite : site ∈ f.directCalls) (hs : lowerSite mode count s site = .ok s') :
    Tracked m (count + 1) s' ∧ m.Covers s'.module f site ∧
      s.module.functions.map Func.name ⊆ s'.module.functions.map Func.name := by
  obtain ⟨g, hg, hreworks⟩ := h.lowered.shape.getElem? hf
  have hname : g.name = f.name := congrArg Prod.fst hreworks.1
  have hverdict : s.module.verdict g.name site = m.verdict f.name site := by
    rw [hname, Module.verdict_of_grows h.lowered.shape.grows]
  rcases lowerSite_cases hs with
    ⟨hnone, rfl⟩ | ⟨g₀, hg₀, hv, rfl⟩ | ⟨g₀, steps, g', hg₀, hv, hemit, rfl⟩
  · have hv := hnone g hg
    rw [hverdict] at hv
    exact ⟨h, fun steps hsteps => (by rw [hv] at hsteps; cases hsteps), List.Subset.refl _⟩
  · rw [hg] at hg₀
    cases hg₀
    rw [hverdict] at hv
    exact ⟨⟨h.lowered, h.untouched, h.pending⟩,
      fun steps hsteps => (by rw [hv] at hsteps; cases hsteps), List.Subset.refl _⟩
  · rw [hg] at hg₀
    cases hg₀
    rw [hverdict] at hv
    obtain ⟨hlowered, hnamed, hsub⟩ := h.lowered.replace hf hg hsite hv hemit
    refine ⟨⟨hlowered, fun k hk hlt => ?_, h.pending⟩, fun steps' hv' => ?_, hsub⟩
    · have hmore := s.module.declared_foldl_declare
        (Module.replacement_of_verdict hv).not_recognised
      rw [Module.setFunc, List.getElem?_set_ne (by omega), hmore.getElem? (h.lt_length hlt),
        h.untouched k hk hlt]
    · rw [hv] at hv'
      cases hv'
      exact hnamed

/-- Lowering the calls of one more function. -/
theorem lowerAt (h : Tracked m count s) (hcount : count < m.functions.length)
    (hs : lowerAt mode s count = .ok s') : Tracked m (count + 1) s' ∧
      (∀ site ∈ m.functions[count].directCalls, m.Covers s'.module m.functions[count] site) ∧
      s.module.functions.map Func.name ⊆ s'.module.functions.map Func.name := by
  have hf : m.functions[count]? = some m.functions[count] := List.getElem?_eq_getElem hcount
  rw [Lowering.lowerAt, h.untouched count (Nat.le_refl _) hcount, hf] at hs
  have hbefore : Tracked m (count + 1) s :=
    ⟨h.lowered, fun k hk => h.untouched k (Nat.le_of_succ_le hk), h.pending⟩
  refine foldlM_done_induction (motive := fun done t => Tracked m (count + 1) t ∧
    (∀ site ∈ done, m.Covers t.module m.functions[count] site) ∧
      s.module.functions.map Func.name ⊆ t.module.functions.map Func.name)
    ⟨hbefore, List.forall_mem_nil _, List.Subset.refl _⟩ ?_ hs
  rintro done site t t' hsite ⟨ht, hdone, hsub⟩ hstep
  obtain ⟨ht', hcovers, hmore⟩ := ht.lowerSite hf hsite hstep
  refine ⟨ht', fun site' hsite' => ?_, List.Subset.trans hsub hmore⟩
  rcases List.mem_append.1 hsite' with hsite' | hsite'
  · exact (hdone site' hsite').mono hmore
  · rw [List.mem_singleton.1 hsite']
    exact hcovers

/-- A sweep covers the calls of all functions. -/
theorem sweep (hnames : m.DistinctNames) (hs : sweep mode m = .ok s) :
    Tracked m m.functions.length s ∧ ∀ f ∈ m.functions, ∀ site ∈ f.directCalls,
    m.Covers s.module f site := by
  have hrun : Tracked m m.functions.length s ∧
      ∀ f ∈ m.functions.take m.functions.length, ∀ site ∈ f.directCalls,
      m.Covers s.module f site := by
    refine foldlM_range_induction (motive := fun count t => Tracked m count t ∧
      ∀ f ∈ m.functions.take count, ∀ site ∈ f.directCalls, m.Covers t.module f site)
      ⟨.start hnames, fun f hf => absurd hf List.not_mem_nil⟩ ?_ hs
    rintro count hcount t t' ⟨ht, hdone⟩ hstep
    obtain ⟨ht', hcovers, hmore⟩ := ht.lowerAt hcount hstep
    refine ⟨ht', fun f hf site hsite => ?_⟩
    rw [← List.take_append_getElem hcount] at hf
    rcases List.mem_append.1 hf with hf | hf
    · exact (hdone f hf site hsite).mono hmore
    · obtain rfl := List.mem_singleton.1 hf
      exact hcovers site hsite
  rwa [List.take_length] at hrun

end Tracked

end Lowering

namespace Module

/-- Removing staged instructions. -/
theorem LoweredTo.carryOut {m m' : Module} (h : m.LoweredTo m') {e : Erasure}
    (he : e.functions = []) : m.LoweredTo (e.carryOut m').module ∧
      (e.carryOut m').module.functions.map Func.name = m'.functions.map Func.name := by
  have hall : ∀ (targets : List (String × Nat)) (s : Module × Nat), m.LoweredTo s.1 →
      m.LoweredTo (targets.foldl Erasure.eraseInstr s).1 ∧
        (targets.foldl Erasure.eraseInstr s).1.functions.map Func.name =
          s.1.functions.map Func.name := by
    intro targets
    induction targets with
    | nil => exact fun s hs => ⟨hs, rfl⟩
    | cons target targets ih =>
        intro s hs
        have hstep : m.LoweredTo (Erasure.eraseInstr s target).1 ∧
            (Erasure.eraseInstr s target).1.functions.map Func.name =
              s.1.functions.map Func.name := by
          unfold Erasure.eraseInstr
          split
          · exact ⟨hs, rfl⟩
          · exact hs.trim (forall₂_modifyFirst Func.Trims.refl (fun g _ => g.trims_eraseInstr _) _)
        obtain ⟨hrest, hmap⟩ := ih _ hstep.1
        exact ⟨hrest, hmap.trans hstep.2⟩
  rw [Erasure.carryOut, he]
  exact hall e.instrs (m', 0) h

/-- Making symbols internal keeps a module lowered. -/
theorem LoweredTo.internalize {m m' : Module} (h : m.LoweredTo m') :
    m.LoweredTo m'.internalize.1 ∧
      m'.internalize.1.functions.map Func.name = m'.functions.map Func.name := by
  refine h.trim ?_
  rw [Module.internalize, List.forall₂_map_right_iff, List.forall₂_same]
  intro g _
  split
  · rename_i hcloses
    refine ⟨rfl, fun hdecl => ?_, List.Sublist.refl _⟩
    rw [Func.closes, hdecl] at hcloses
    simp at hcloses
  · exact .refl g

/-- What lowering leaves has distinct names and has what every rule asks for. -/
theorem loweredTo_lower {m out : Module} {mode : Overflow} {internal : Bool}
    {stats : LoweringStats} (hnames : m.DistinctNames)
    (h : m.lower mode internal = .ok (stats, out)) :
    m.LoweredTo out ∧ ∀ f ∈ m.functions, ∀ site ∈ f.directCalls, m.Covers out f site := by
  obtain ⟨s, hsweep, hout⟩ := map_eq_ok h
  obtain ⟨hswept, hcovers⟩ := Lowering.Tracked.sweep hnames hsweep
  obtain ⟨hcleared, hmap⟩ := hswept.lowered.carryOut hswept.pending
  obtain ⟨hlowered, hkept⟩ : m.LoweredTo out ∧
      out.functions.map Func.name = s.module.functions.map Func.name := by
    dsimp only at hout
    split at hout
    · cases hout
      exact ⟨hcleared.internalize.1, hcleared.internalize.2.trans hmap⟩
    · cases hout
      exact ⟨hcleared, hmap⟩
  refine ⟨hlowered, fun f hf site hsite => (hcovers f hf site hsite).mono ?_⟩
  rw [hkept]
  exact List.Subset.refl _

end Module

end Postlink
