import Postlink.Proofs.Lowering.Refusals
import Postlink.Proofs.Linking.CallTyping
import Mathlib.Data.List.Perm.Basic

/-!
# How many arguments lowered calls pass

Every instruction that lowering inserts comes from one step of one replacement, and every step is
inserted once, whatever names and identifiers there are (`Module.LoweredAs`). A step that calls an
intrinsic passes a value of the old call, the result of the step before, or all that the old call
passes. Only in the last case can the number be wrong: listed builtins are replaced without a look
at how many arguments they are called with (`Module.suits_iff_of_verdict`).
-/

namespace Postlink

/-- How many arguments an intrinsic takes, whatever its overload types are. -/
def Intrinsic.arity (op : Intrinsic) : Nat := (op.signature []).arity

/-- Overload types do not change how many arguments an intrinsic takes. -/
theorem Intrinsic.arity_signature (op : Intrinsic) (tys : List Ty) :
    (op.signature tys).arity = op.arity := by
  cases op <;> rfl

/-- A call passes as many arguments as it expects to; any other instruction fits. -/
def Instr.Fits (i : Instr) : Prop := ∀ c ∈ i.call?, c.args.length = c.sig.arity

instance (i : Instr) : Decidable i.Fits :=
  inferInstanceAs (Decidable (∀ c ∈ i.call?, c.args.length = c.sig.arity))

namespace Step

/-- How many values the step takes. -/
def inputs : Step → Nat
  | .intrinsic _ _ args => args.length
  | .binary _ _ _ _ => 2
  | .convert _ _ _ => 1

/-- The step takes as many values as the intrinsic that it calls. -/
def Fits : Step → Prop
  | .intrinsic op _ args => args.length = op.arity
  | _ => True

/-- The step takes no result of a step before it. -/
def Grounded : Step → Prop
  | .intrinsic _ _ args => Source.previous ∉ args
  | _ => True

/-- An instruction that the step becomes, with all the values that the step takes. -/
structure Emits (step : Step) (j : Instr) : Prop where
  /-- The instruction is what the step becomes. -/
  yields : step.Yields j
  /-- No value is missing. -/
  count : ∀ c ∈ j.call?, c.args.length = step.inputs

/-- A step takes as many values as it asks for. -/
theorem length_values {previous : Option Operand} {args : List Source}
    (h : previous = none → Source.previous ∉ args) :
    (values previous args).length = args.length := by
  rw [values, List.length_filterMap_eq_countP, List.countP_eq_length]
  intro a ha
  cases a with
  | value o => rfl
  | previous =>
      cases previous with
      | none => exact absurd ha (h rfl)
      | some o => rfl

/-- A step becomes an instruction with all its values. -/
theorem emits_instruction {step : Step} {previous : Option Operand}
    (h : previous = none → step.Grounded) (id : Nat) (name : String) (loc : Option Loc) :
    step.Emits ⟨id, name, (step.instruction previous).1, (step.instruction previous).2, loc⟩ := by
  refine ⟨step.yields_instruction previous id name loc, fun c hc => ?_⟩
  cases step with
  | intrinsic op tys args =>
      cases hc
      exact length_values h
  | binary op ty lhs rhs => cases hc
  | convert op ty value => cases hc

theorem Emits.renumber {step : Step} {j : Instr} (h : step.Emits j) (ρ : Nat → Nat) :
    step.Emits (j.renumber ρ) := by
  refine ⟨h.yields.renumber ρ, fun c hc => ?_⟩
  rcases j with ⟨id, name, ty, kind, loc⟩
  cases kind with
  | call d =>
      cases hc
      rw [← h.count d rfl]
      exact List.length_map ..
  | _ => cases hc

/-- Whether an inserted call fits can be read off its step. -/
theorem Emits.fits_iff {step : Step} {j : Instr} (h : step.Emits j) : j.Fits ↔ step.Fits := by
  obtain ⟨hyields, hcount⟩ := h
  cases step with
  | intrinsic op tys args =>
      obtain ⟨_, c, hcall, _, hsig⟩ := hyields
      have hlength : c.args.length = args.length := hcount c hcall
      have hfits : j.Fits ↔ c.args.length = c.sig.arity := by simp [Instr.Fits, hcall]
      rw [hfits, hlength, hsig, Intrinsic.arity_signature]
      rfl
  | binary op ty lhs rhs =>
      obtain ⟨_, _, _, hkind⟩ := hyields
      simp [Instr.Fits, Instr.call?, hkind, InstrKind.call?, Fits]
  | convert op ty value =>
      obtain ⟨_, _, hkind⟩ := hyields
      simp [Instr.Fits, Instr.call?, hkind, InstrKind.call?, Fits]

end Step

/-- There is no step before the first one. -/
theorem Replacement.grounded {site : DirectCall} {steps : List Step} (h : Replacement site steps) :
    ∀ step ∈ steps.head?, step.Grounded := by
  intro step hstep
  cases h with
  | intrinsic => cases hstep; simp [Step.Grounded]
  | convert => cases hstep; trivial
  | intrinsicChain => cases hstep; simp [Step.Grounded, DirectCall.sources]
  | binaryChain => cases hstep; trivial

namespace Func

/-- The function has what another one has, with results renumbered, and one instruction for each of
some steps. -/
def Receives (f : Func) (steps : List Step) (g : Func) : Prop :=
  ∃ ρ new, g.instrs.Perm (f.instrs.map (Instr.renumber ρ) ++ new) ∧
  List.Forall₂ Step.Emits steps new

namespace Receives

variable {mode : Overflow} {f g g' : Func} {done steps : List Step}

theorem refl (f : Func) : f.Receives [] f := by
  refine ⟨fun k => k, [], ?_, .nil⟩
  rw [List.append_nil, funext Instr.renumber_self, List.map_id']

/-- One more instruction is inserted. -/
theorem insertBefore (h : f.Receives done g) {k id : Nat} {x : Instr}
    (hs : g.insertBefore mode k x = .ok (id, g')) {step : Step}
    (hx : step.Emits { x with id := id }) : f.Receives (done ++ [step]) g' := by
  obtain ⟨ρ, new, hperm, hnew⟩ := h
  refine ⟨ρ, new ++ [{ x with id := id }], ?_, List.rel_append hnew (.cons hx .nil)⟩
  calc g'.instrs
    _ |>.Perm ({ x with id := id } :: g.instrs) := perm_insertBefore hs
    _ |>.Perm ({ x with id := id } :: (f.instrs.map (Instr.renumber ρ) ++ new)) := hperm.cons _
    _ |>.Perm (f.instrs.map (Instr.renumber ρ) ++ (new ++ [{ x with id := id }])) := by
        rw [← List.append_assoc]
        exact (List.perm_append_singleton _ _).symm

/-- Handing the uses of a result to another one is a renumbering. -/
theorem replaceUses (h : f.Receives done g) (a b : Nat) :
    f.Receives done (g.replaceUses a (.inst b)) := by
  obtain ⟨ρ, new, hperm, hnew⟩ := h
  refine ⟨(fun k => if k = a then b else k) ∘ ρ,
    new.map (Instr.renumber fun k => if k = a then b else k), ?_, ?_⟩
  · rw [Func.replaceUses, Operand.replace_eq_renumber, instrs_mapInstrs]
    refine (hperm.map _).trans ?_
    rw [List.map_append, List.map_map]
    refine List.Perm.append_right _ (List.Perm.of_eq (List.map_congr_left fun i _ => ?_))
    exact i.renumber_renumber _ _
  · rw [List.forall₂_map_right_iff]
    exact hnew.imp fun step j hj => hj.renumber _

/-- Emitting steps, the first of which may take the result of a step before it only if there is
one. -/
theorem foldlM_emitStep {site : DirectCall} {s s' : Func × Option Operand} (h : f.Receives done s.1)
    (hfirst : s.2 = none → ∀ step ∈ steps.head?, step.Grounded)
    (hs : steps.foldlM (Lowering.emitStep mode site) s = .ok s') :
    f.Receives (done ++ steps) s'.1 ∧ (s'.2 = s.2 ∨ ∃ id, s'.2 = some (.inst id)) := by
  induction steps generalizing s done with
  | nil =>
      cases hs
      rw [List.append_nil]
      exact ⟨h, Or.inl rfl⟩
  | cons step steps ih =>
      rw [List.foldlM_cons] at hs
      obtain ⟨t, hemit, hs⟩ := bind_eq_ok hs
      obtain ⟨⟨id, g'⟩, hinsert, rfl⟩ := map_eq_ok hemit
      have hnext := h.insertBefore hinsert
        (Step.emits_instruction (fun hnone => hfirst hnone step rfl) id _ _)
      obtain ⟨hrun, hlast⟩ := ih hnext (fun hnone => by cases hnone) hs
      rw [List.append_assoc, List.singleton_append] at hrun
      refine ⟨hrun, Or.inr ?_⟩
      rcases hlast with hlast | hlast
      · exact ⟨id, hlast⟩
      · exact hlast

/-- Emitting a replacement. -/
theorem emit (h : f.Receives done g) {site : DirectCall} (hsteps : Replacement site steps)
    (hs : Lowering.emit mode site steps g = .ok g') : f.Receives (done ++ steps) g' := by
  obtain ⟨r, hr, rfl⟩ := map_eq_ok hs
  obtain ⟨hrun, hlast⟩ := h.foldlM_emitStep (fun _ => hsteps.grounded) hr
  rcases hlast with hnone | ⟨id, hid⟩
  · rw [hnone]
    exact hrun
  · rw [hid]
    exact hrun.replaceUses _ id

end Receives

/-- The function without some instructions, each of which is listed under the function's name. -/
def Sheds (targets : List (String × Nat)) (g g' : Func) : Prop :=
  g'.name = g.name ∧ ∃ gone, (g'.instrs ++ gone).Perm g.instrs ∧
  ∀ i ∈ gone, (g.name, i.id) ∈ targets

end Func

/-- At most one instruction goes, and it has the identifier. -/
theorem Instr.exists_perm_erase (k : Nat) (is : List Instr) :
    ∃ gone, (erase k is ++ gone).Perm is ∧ ∀ i ∈ gone, i.id = k := by
  induction is with
  | nil => exact ⟨[], List.Perm.refl _, List.forall_mem_nil _⟩
  | cons i is ih =>
      rw [erase]
      split
      · rename_i hi
        exact ⟨[i], List.perm_append_singleton i is, by simpa using hi⟩
      · obtain ⟨gone, hperm, hgone⟩ := ih
        exact ⟨gone, hperm.cons i, hgone⟩

/-- Removing an instruction from blocks takes away only that one. -/
theorem Blocks.exists_perm_erase (k : Nat) (bs : Blocks) :
    ∃ gone, ((bs.erase k).instrs ++ gone).Perm bs.instrs ∧ ∀ i ∈ gone, i.id = k := by
  induction bs with
  | nil => exact ⟨[], List.Perm.refl _, List.forall_mem_nil _⟩
  | cons b bs ih =>
      rw [erase]
      split
      · obtain ⟨gone, hperm, hgone⟩ := Instr.exists_perm_erase k b.instrs
        refine ⟨gone, ?_, hgone⟩
        rw [instrs_cons, instrs_cons, List.append_assoc]
        refine (List.perm_append_comm.append_left _).trans ?_
        rw [← List.append_assoc]
        exact hperm.append_right _
      · obtain ⟨gone, hperm, hgone⟩ := ih
        refine ⟨gone, ?_, hgone⟩
        rw [instrs_cons, instrs_cons, List.append_assoc]
        exact hperm.append_left _

namespace Func

theorem Sheds.refl (targets : List (String × Nat)) (g : Func) : g.Sheds targets g :=
  ⟨rfl, [], by simp, List.forall_mem_nil _⟩

theorem Sheds.trans {targets : List (String × Nat)} {g g' g'' : Func} (h : g.Sheds targets g')
    (h' : g'.Sheds targets g'') : g.Sheds targets g'' := by
  obtain ⟨hname, gone, hperm, hgone⟩ := h
  obtain ⟨hname', gone', hperm', hgone'⟩ := h'
  refine ⟨hname'.trans hname, gone' ++ gone, ?_, fun i hi => ?_⟩
  · rw [← List.append_assoc]
    exact (hperm'.append_right gone).trans hperm
  · rcases List.mem_append.1 hi with hi | hi
    · exact hname ▸ hgone' i hi
    · exact hgone i hi

/-- Removing an instruction that is listed sheds it. -/
theorem sheds_eraseInstr {targets : List (String × Nat)} {g : Func} {k : Nat}
    (h : (g.name, k) ∈ targets) : g.Sheds targets (g.eraseInstr k) := by
  have hbody : ∃ gone, ((g.eraseInstr k).instrs ++ gone).Perm g.instrs ∧ ∀ i ∈ gone, i.id = k := by
    rw [instrs, blocks, instrs, blocks, eraseInstr]
    cases g.body with
    | loaded bs => exact bs.exists_perm_erase k
    | declared => exact ⟨[], List.Perm.refl _, List.forall_mem_nil _⟩
    | stored b => exact ⟨[], List.Perm.refl _, List.forall_mem_nil _⟩
  obtain ⟨gone, hperm, hgone⟩ := hbody
  exact ⟨rfl, gone, hperm, fun i hi => hgone i hi ▸ h⟩

end Func

namespace Module

/-- Removing staged instructions leaves functions without some of them. -/
theorem sheds_foldl_eraseInstr {all targets : List (String × Nat)} (hsub : targets ⊆ all)
    (s : Module × Nat) : List.Forall₂ (Func.Sheds all) s.1.functions
      (targets.foldl Erasure.eraseInstr s).1.functions := by
  induction targets generalizing s with
  | nil => exact List.forall₂_same.2 fun g _ => .refl all g
  | cons target targets ih =>
      obtain ⟨htarget, hrest⟩ := List.cons_subset.1 hsub
      refine forall₂_trans (R := Func.Sheds all) (fun _ _ _ hg hg' => hg.trans hg') ?_ (ih hrest _)
      unfold Erasure.eraseInstr
      split
      · exact List.forall₂_same.2 fun g _ => .refl all g
      · refine forall₂_modifyFirst (Func.Sheds.refl all) (fun g hg => Func.sheds_eraseInstr ?_) _
        have hname : g.name = target.1 := by simpa using hg
        rw [hname]
        exact htarget

/-- After the sweep only staged instructions go. -/
theorem exists_sweep_of_lower {m out : Module} {mode : Overflow} {internal : Bool}
    {stats : LoweringStats} (h : m.lower mode internal = .ok (stats, out)) :
    ∃ s, Lowering.sweep mode m = .ok s ∧
      (s.pending.functions = [] →
        List.Forall₂ (Func.Sheds s.pending.instrs) s.module.functions out.functions) := by
  obtain ⟨s, hsweep, hout⟩ := map_eq_ok h
  refine ⟨s, hsweep, fun hnone => ?_⟩
  have hcleared : List.Forall₂ (Func.Sheds s.pending.instrs) s.module.functions
      (s.pending.carryOut s.module).module.functions := by
    rw [Erasure.carryOut, hnone]
    exact sheds_foldl_eraseInstr (List.Subset.refl _) (s.module, 0)
  dsimp only at hout
  split at hout
  · cases hout
    refine forall₂_trans (S := Func.Sheds _) (fun _ _ _ hg hg' => hg.trans hg') hcleared ?_
    rw [internalize, List.forall₂_map_right_iff, List.forall₂_same]
    intro g _
    split
    · exact ⟨rfl, [], by rw [List.append_nil]; exact List.Perm.refl _, List.forall_mem_nil _⟩
    · exact .refl _ g
  · cases hout
    exact hcleared

/-- The steps that stand in for a call. -/
def stepsFor (m : Module) (caller : String) (site : DirectCall) : List Step :=
  (m.replacement? caller site).getD []

/-- A call that is replaced or dropped, by the name of its function and by its identifier. -/
def Treated (m : Module) (target : String × Nat) : Prop :=
  ∃ f ∈ m.functions, f.name = target.1 ∧
    ∃ site ∈ f.directCalls, m.treats f.name site = true ∧ site.instr.id = target.2

/-- What lowering makes of a function: `new` is what it inserts, and `gone` is what it removes. -/
structure LoweredAs (m : Module) (f g : Func) (new gone : List Instr) : Prop where
  /-- Nothing else comes or goes, apart from renumbered results. -/
  instrs : ∃ ρ, (g.instrs ++ gone).Perm (f.instrs.map (Instr.renumber ρ) ++ new)
  /-- Every step of every replacement is inserted once. -/
  inserted : List.Forall₂ Step.Emits (f.directCalls.flatMap (m.stepsFor f.name)) new
  /-- What is removed has the identifier of a call that was replaced or dropped. -/
  removed : ∀ i ∈ gone, m.Treated (f.name, i.id)

end Module

namespace Lowering

/-- Lowering in the middle of the function at a position, which has what stands in for some of its
calls; the other functions are as they were in a state before. -/
structure Recording (m : Module) (count : Nat) (f : Func) (before : Lowering)
    (done : List DirectCall) (s : Lowering) : Prop where
  /-- Bodies are reworked, and declarations are added. -/
  shape : m.Shaped Step.Yields s.module
  /-- The other functions are as they were. -/
  others : ∀ k, k ≠ count → k < m.functions.length →
    s.module.functions[k]? = before.module.functions[k]?
  /-- The function has what stands in for its calls. -/
  current : ∃ g, s.module.functions[count]? = some g ∧
    f.Receives (done.flatMap (m.stepsFor f.name)) g
  /-- No call was refused. -/
  judged : ∀ site ∈ done, ∃ verdict, m.verdict f.name site = .ok verdict
  /-- Only treated calls are staged. -/
  staged : ∀ target ∈ s.pending.instrs, m.Treated target
  /-- No function is staged for removal. -/
  pending : s.pending.functions = []

/-- The sweep after the functions up to a position. -/
structure Recorded (m : Module) (count : Nat) (s : Lowering) : Prop where
  /-- Bodies are reworked, and declarations are added. -/
  shape : m.Shaped Step.Yields s.module
  /-- The functions up to the position have what stands in for their calls. -/
  record : ∀ k < count, ∀ f, m.functions[k]? = some f → ∃ g, s.module.functions[k]? = some g ∧
    f.Receives (f.directCalls.flatMap (m.stepsFor f.name)) g
  /-- None of their calls was refused. -/
  judged : ∀ k < count, ∀ f, m.functions[k]? = some f → ∀ site ∈ f.directCalls,
    ∃ verdict, m.verdict f.name site = .ok verdict
  /-- The other functions are as they were. -/
  untouched : ∀ k, count ≤ k → k < m.functions.length → s.module.functions[k]? = m.functions[k]?
  /-- Only treated calls are staged. -/
  staged : ∀ target ∈ s.pending.instrs, m.Treated target
  /-- No function is staged for removal. -/
  pending : s.pending.functions = []

section Calls

variable {mode : Overflow} {m : Module} {count : Nat} {f : Func} {before s s' : Lowering}
  {done : List DirectCall}

namespace Recording

theorem name_eq (h : Recording m count f before done s)
    (hf : m.functions[count]? = some f) {g : Func}
    (hg : s.module.functions[count]? = some g) : g.name = f.name := by
  obtain ⟨g₀, hg₀, hreworks⟩ := h.shape.getElem? hf
  rw [hg, Option.some.injEq] at hg₀
  subst hg₀
  exact congrArg Prod.fst hreworks.1

theorem verdict_eq (h : Recording m count f before done s)
    (hf : m.functions[count]? = some f) {g : Func}
    (hg : s.module.functions[count]? = some g) (site : DirectCall) :
    s.module.verdict g.name site = m.verdict f.name site := by
  rw [h.name_eq hf hg, Module.verdict_of_grows h.shape.grows]

/-- One more call has been judged. -/
theorem judge (h : Recording m count f before done s) {site : DirectCall} {verdict : Option Verdict}
    (hv : m.verdict f.name site = .ok verdict) :
    ∀ site' ∈ done ++ [site], ∃ verdict, m.verdict f.name site' = .ok verdict := by
  intro site' hsite'
  rcases List.mem_append.1 hsite' with hsite' | hsite'
  · exact h.judged site' hsite'
  · rw [List.mem_singleton.1 hsite']
    exact ⟨verdict, hv⟩

/-- Nothing stands in for the call. -/
theorem skip (h : Recording m count f before done s) {site : DirectCall} {verdict : Option Verdict}
    (hv : m.verdict f.name site = .ok verdict) (hnone : m.stepsFor f.name site = []) :
    Recording m count f before (done ++ [site]) s := by
  refine ⟨h.shape, h.others, ?_, h.judge hv, h.staged, h.pending⟩
  rw [List.flatMap_append, List.flatMap_singleton, hnone, List.append_nil]
  exact h.current

/-- Steps stand in for the call. -/
theorem replace (h : Recording m count f before done s) (hf : m.functions[count]? = some f)
    {site : DirectCall} (hsite : site ∈ f.directCalls) {steps : List Step}
    (hv : m.verdict f.name site = .ok (some (.replace steps))) {g g' : Func}
    (hg : s.module.functions[count]? = some g) (hemit : emit mode site steps g = .ok g') :
    Recording m count f before (done ++ [site])
      { s with module := (steps.foldl Step.declare s.module).setFunc count g' } := by
  obtain ⟨g₀, hg₀, hreceives⟩ := h.current
  rw [hg, Option.some.injEq] at hg₀
  subst hg₀
  have hreplacement := Module.replacement_of_verdict hv
  have hsteps : m.stepsFor f.name site = steps := by
    simp [Module.stepsFor, Module.replacement?, hv]
  have hmore := s.module.declared_foldl_declare hreplacement.not_recognised
  have hthere := (hmore.getElem? (List.getElem?_eq_some_iff.1 hg).1).trans hg
  refine ⟨?_, fun k hk hlt => ?_, ⟨g', ?_, ?_⟩, h.judge hv, h.staged, h.pending⟩
  · exact ((h.shape.declared hmore).emit (fun step ρ j hj => hj.renumber ρ) hf hthere hsite hv
      (fun _ _ _ hj => hj) hemit).1
  · obtain ⟨g₁, hg₁, _⟩ := h.shape.getElem? (List.getElem?_eq_getElem hlt)
    rw [Module.setFunc, List.getElem?_set_ne (Ne.symm hk),
      hmore.getElem? (List.getElem?_eq_some_iff.1 hg₁).1, h.others k hk hlt]
  · rw [Module.setFunc, List.getElem?_set_self', hthere]
    rfl
  · rw [List.flatMap_append, List.flatMap_singleton, hsteps]
    exact hreceives.emit hreplacement hemit

/-- A treated call is put up for removal. -/
theorem stage (h : Recording m count f before done s) (hf : m.functions[count]? = some f)
    {site : DirectCall} (hsite : site ∈ f.directCalls) (htreats : m.treats f.name site = true)
    (stats : LoweringStats) : Recording m count f before done
      { s with pending := s.pending.addInstr f.name site.instr.id, stats := stats } := by
  refine ⟨h.shape, h.others, h.current, h.judged, fun target htarget => ?_, h.pending⟩
  rcases List.mem_append.1 htarget with htarget | htarget
  · exact h.staged target htarget
  · rw [List.mem_singleton.1 htarget]
    exact ⟨f, List.mem_of_getElem? hf, rfl, site, hsite, htreats, rfl⟩

/-- Lowering one more call. -/
theorem lowerSite (h : Recording m count f before done s) (hf : m.functions[count]? = some f)
    {site : DirectCall} (hsite : site ∈ f.directCalls) (hs : lowerSite mode count s site = .ok s') :
    Recording m count f before (done ++ [site]) s' := by
  obtain ⟨g, hg, _⟩ := h.current
  rcases lowerSite_cases hs with
    ⟨hnone, rfl⟩ | ⟨g₀, hg₀, hv, rfl⟩ | ⟨g₀, steps, g', hg₀, hv, hemit, rfl⟩
  · have hv := hnone g hg
    rw [h.verdict_eq hf hg] at hv
    exact h.skip hv (by simp [Module.stepsFor, Module.replacement?, hv])
  · rw [h.verdict_eq hf hg₀] at hv
    rw [h.name_eq hf hg₀]
    have hskip := h.skip hv (by simp [Module.stepsFor, Module.replacement?, hv])
    exact hskip.stage hf hsite (by simp [Module.treats, hv]) _
  · rw [h.verdict_eq hf hg₀] at hv
    rw [h.name_eq hf hg₀]
    have hreplace := h.replace hf hsite hv hg₀ hemit
    exact hreplace.stage hf hsite (by simp [Module.treats, hv]) _

end Recording

/-- Lowering the calls of one more function. -/
theorem Recorded.lowerAt (h : Recorded m count s) (hcount : count < m.functions.length)
    (hs : lowerAt mode s count = .ok s') : Recorded m (count + 1) s' := by
  have hf : m.functions[count]? = some m.functions[count] := List.getElem?_eq_getElem hcount
  have hfound := (h.untouched count (Nat.le_refl _) hcount).trans hf
  rw [Lowering.lowerAt, hfound] at hs
  have hstart : Recording m count m.functions[count] s [] s :=
    ⟨h.shape, fun _ _ _ => rfl, ⟨_, hfound, .refl _⟩, List.forall_mem_nil _, h.staged, h.pending⟩
  have hrun : Recording m count m.functions[count] s m.functions[count].directCalls s' :=
    foldlM_done_induction (motive := Recording m count m.functions[count] s) hstart
      (fun _ _ _ _ hsite ht hstep => ht.lowerSite hf hsite hstep) hs
  have hlt : ∀ {k f}, m.functions[k]? = some f → k < m.functions.length := fun hk =>
    (List.getElem?_eq_some_iff.1 hk).1
  refine ⟨hrun.shape, fun k hk f hfk => ?_, fun k hk f hfk => ?_, fun k hk hlt => ?_, hrun.staged,
    hrun.pending⟩
  · rcases Nat.lt_succ_iff_lt_or_eq.1 hk with hk | rfl
    · rw [hrun.others k (Nat.ne_of_lt hk) (hlt hfk)]
      exact h.record k hk f hfk
    · rw [hf, Option.some.injEq] at hfk
      exact hfk ▸ hrun.current
  · rcases Nat.lt_succ_iff_lt_or_eq.1 hk with hk | rfl
    · exact h.judged k hk f hfk
    · rw [hf, Option.some.injEq] at hfk
      exact hfk ▸ hrun.judged
  · rw [hrun.others k (Nat.ne_of_gt hk) hlt, h.untouched k (Nat.le_of_succ_le hk) hlt]

/-- A sweep inserts what stands in for the calls of all functions. -/
theorem Recorded.sweep (hs : sweep mode m = .ok s) : Recorded m m.functions.length s := by
  have hstart : Recorded m 0 (start m) :=
    ⟨.refl m _, fun k hk => absurd hk (Nat.not_lt_zero k),
      fun k hk => absurd hk (Nat.not_lt_zero k), fun _ _ _ => rfl, List.forall_mem_nil _, rfl⟩
  exact foldlM_range_induction hstart (fun _ hcount _ _ h ht => h.lowerAt hcount ht) hs

end Calls

end Lowering

namespace Module

/-- What lowering makes of each function, whatever names and identifiers there are. -/
theorem exists_loweredAs {m out : Module} {mode : Overflow} {internal : Bool}
    {stats : LoweringStats} (h : m.lower mode internal = .ok (stats, out)) {k : Nat} {f : Func}
    (hf : m.functions[k]? = some f) :
    (∃ g new gone, out.functions[k]? = some g ∧ m.LoweredAs f g new gone) ∧
      ∀ site ∈ f.directCalls, ∃ verdict, m.verdict f.name site = .ok verdict := by
  obtain ⟨s, hsweep, hcleared⟩ := exists_sweep_of_lower h
  have hswept := Lowering.Recorded.sweep hsweep
  have hk := (List.getElem?_eq_some_iff.1 hf).1
  obtain ⟨g, hg, ρ, new, hperm, hnew⟩ := hswept.record k hk f hf
  obtain ⟨g₀, hg₀, hreworks⟩ := hswept.shape.getElem? hf
  rw [hg, Option.some.injEq] at hg₀
  subst hg₀
  have hname : g.name = f.name := congrArg Prod.fst hreworks.1
  obtain ⟨g', hg', _, gone, hsheds, hgone⟩ :=
    exists_getElem?_of_forall₂ (hcleared hswept.pending) hg
  refine ⟨⟨g', new, gone, hg', ⟨ρ, hsheds.trans hperm⟩, hnew, fun i hi => ?_⟩,
    hswept.judged k hk f hf⟩
  exact hname ▸ hswept.staged _ (hgone i hi)

end Module

/-- How many arguments the intrinsic takes that is passed all arguments of a call of a listed
builtin. -/
def Recipe.inputs : Recipe → Nat
  | .one op => op.arity
  | .two producer _ => producer.arity

/-- The steps for a listed builtin fit if the call passes what the intrinsic takes, since a second
intrinsic takes one result. -/
theorem Recipe.fits_iff_of_steps {caller name : String} {site : DirectCall} {ret : Ty}
    {recipe : Recipe} (hr : Builtins.recipe? name = some recipe) {steps : List Step}
    (h : recipe.steps caller site ret = .ok steps) :
    (∀ step ∈ steps, step.Fits) ↔ site.call.args.length = recipe.inputs := by
  have hconsumer : ∀ e ∈ Builtins.twoStep, e.2.2.arity = 1 := by decide +kernel
  have hsources : site.sources.length = site.call.args.length := List.length_map ..
  rcases Builtins.mem_of_recipe? hr with ⟨op, rfl, _⟩ | ⟨op, op', rfl, hmem⟩
  · cases h
    simp [Step.atTypes, Step.Fits, hsources, inputs]
  · obtain ⟨a, _, rfl⟩ := map_eq_ok h
    simp [Step.atTypes, Step.Fits, hsources, inputs, hconsumer _ hmem]

/-- The steps of a builtin family take as many values as the intrinsics. -/
theorem Family.fits_of_steps {caller : String} {site : DirectCall} {ret : Ty} {family : Family}
    {steps : List Step} (h : family.steps caller site ret = .ok steps) :
    ∀ step ∈ steps, step.Fits := by
  unfold Family.steps at h
  split at h
  · cases h
  · cases family with
    | signedToFloat => cases h; simp [Step.Fits]
    | unsignedToFloat => cases h; simp [Step.Fits]
    | _ =>
        obtain ⟨_, _, rfl⟩ := map_eq_ok h
        simp [Step.atTypes, Step.Fits, Intrinsic.arity, Intrinsic.signature, Signature.arity]

/-- The step for a count of leading zeros takes as many values as the intrinsic. -/
theorem DirectCall.fits_of_leadingZeros {caller : String} {site : DirectCall} {steps : List Step}
    (h : site.leadingZeros caller = .ok steps) : ∀ step ∈ steps, step.Fits := by
  unfold leadingZeros at h
  split at h
  · cases h
  · split at h
    · cases h
      simp [Step.atTypes, Step.Fits, Intrinsic.arity, Intrinsic.signature, Signature.arity]
    · cases h

namespace Module

instance (m : Module) (site : DirectCall) : Decidable (m.ByName site) :=
  inferInstanceAs (Decidable (∀ op ∈ m.tag? site, op.recognised = false))

/-- If the call is one of a listed builtin, it passes as many arguments as the intrinsic takes that
is passed all of them. -/
def Suits (m : Module) (site : DirectCall) : Prop :=
  m.ByName site → ∀ recipe ∈ Builtins.recipe? site.callee, site.call.args.length = recipe.inputs

instance (m : Module) (site : DirectCall) : Decidable (m.Suits site) :=
  inferInstanceAs (Decidable (m.ByName site → ∀ recipe ∈ Builtins.recipe? site.callee,
    site.call.args.length = recipe.inputs))

/-- The steps for a call that is not refused fit exactly if the call suits them. -/
theorem suits_iff_of_verdict {m : Module} {caller : String} {site : DirectCall}
    {verdict : Option Verdict} (h : m.verdict caller site = .ok verdict) :
    m.Suits site ↔ ∀ step ∈ m.stepsFor caller site, step.Fits := by
  have hreplace : ∀ steps, m.verdict caller site = .ok (some (.replace steps)) →
      m.stepsFor caller site = steps := by
    intro steps hv
    rw [stepsFor, replacement?_eq_some_iff.2 hv, Option.getD_some]
  have hother : ∀ op, m.tag? site = some op → op.recognised = true → m.Suits site :=
    fun op htag hop hname => absurd ((hname op htag).symm.trans hop) Bool.false_ne_true
  rcases m.verdict_cases caller site with ⟨hname, ret, hv⟩ | ⟨htag, hv⟩ | ⟨op, htag, hop, _, hv⟩
  · have hsuits : m.Suits site ↔ ∀ recipe ∈ Builtins.recipe? site.callee,
        site.call.args.length = recipe.inputs := ⟨fun h => h hname, fun h _ => h⟩
    have hbyName := hv.symm.trans h
    unfold DirectCall.byName at hbyName
    split at hbyName
    · rename_i recipe hrecipe
      obtain ⟨steps, hsteps, rfl⟩ := map_eq_ok hbyName
      rw [hreplace steps h, Recipe.fits_iff_of_steps hrecipe hsteps, hsuits]
      simp [hrecipe]
    · rename_i hrecipe
      have hall : m.Suits site := by simp [hsuits, hrecipe]
      refine iff_of_true hall ?_
      split at hbyName
      · obtain ⟨steps, hsteps, rfl⟩ := map_eq_ok hbyName
        rw [hreplace steps h]
        exact Family.fits_of_steps hsteps
      · cases hbyName
        simp [stepsFor, replacement?, h]
  · refine iff_of_true (hother _ htag rfl) ?_
    obtain ⟨steps, hsteps, rfl⟩ := map_eq_ok (hv.symm.trans h)
    rw [hreplace steps h]
    exact DirectCall.fits_of_leadingZeros hsteps
  · refine iff_of_true (hother op htag hop) ?_
    simp [stepsFor, replacement?, hv]

/-- Lowering inserts one instruction for each step of each replacement. Those of a function pass as
many arguments as they expect exactly if every call of a listed builtin in it passes as many
arguments as the intrinsic takes. -/
theorem fits_lower_iff {m out : Module} {mode : Overflow} {internal : Bool}
    {stats : LoweringStats} (h : m.lower mode internal = .ok (stats, out)) {k : Nat} {f : Func}
    (hf : m.functions[k]? = some f) :
    ∃ g new gone, out.functions[k]? = some g ∧ m.LoweredAs f g new gone ∧
      ((∀ j ∈ new, j.Fits) ↔ ∀ site ∈ f.directCalls, m.Suits site) := by
  obtain ⟨⟨g, new, gone, hg, hlowered⟩, hjudged⟩ := exists_loweredAs h hf
  have hsteps : (∀ j ∈ new, j.Fits) ↔
      ∀ step ∈ f.directCalls.flatMap (m.stepsFor f.name), step.Fits :=
    ⟨forall_mem_of_forall₂ (fun _ _ hj => hj.fits_iff.1) hlowered.inserted.flip,
      forall_mem_of_forall₂ (fun _ _ hj => hj.fits_iff.2) hlowered.inserted⟩
  refine ⟨g, new, gone, hg, hlowered, ?_⟩
  rw [hsteps, List.forall_mem_flatMap]
  refine forall₂_congr fun site hsite => ?_
  obtain ⟨verdict, hv⟩ := hjudged site hsite
  exact (suits_iff_of_verdict hv).symm

/-- A kernel that picks the greater of two values, counts leading zeros, and rounds a fused sum and
a product. -/
def exactCalls : Module :=
  let greater := Func.declare "__builtin_IB_fmax" ⟨.float 32, [.float 32, .float 32]⟩
  let zeros := Func.ofIntrinsic .ctlz [.int 32]
  let fused := Func.declare "__builtin_IB_fma_rtz_f32" ⟨.float 32,
    [.float 32, .float 32, .float 32]⟩
  let product := Func.declare "__builtin_IB_mul_rtz_f32" ⟨.float 32, [.float 32, .float 32]⟩
  ⟨"m", [], [greater, zeros, fused, product,
    .define "kernel" ⟨.float 32, [.float 32, .int 32]⟩ [⟨"entry",
      [callOf 0 greater [.arg 0, .arg 0], callOf 1 zeros [.arg 1, .arg 1],
        callOf 2 fused [.arg 0, .arg 0, .arg 0], callOf 3 product [.arg 0, .arg 0],
        ⟨4, "", .void, .ret (some (.inst 3)), none⟩]⟩]]⟩

/-- Four calls become six instructions, all of which fit. -/
theorem fits_lower_exactCalls :
    ∃ stats out f g new gone, exactCalls.lower .wraps true = .ok (stats, out) ∧
      exactCalls.functions[4]? = some f ∧ out.functions[4]? = some g ∧
      exactCalls.LoweredAs f g new gone ∧ new.length = 6 ∧ ∀ j ∈ new, j.Fits := by
  have hok : (exactCalls.lower .wraps true).isOk = true := by decide +kernel
  have hlength : (exactCalls.functions[4].directCalls.flatMap
      (exactCalls.stepsFor exactCalls.functions[4].name)).length = 6 := by decide +kernel
  have hsuits : ∀ site ∈ exactCalls.functions[4].directCalls, exactCalls.Suits site := by
    decide +kernel
  obtain ⟨r, hr⟩ := exists_ok_of_isOk hok
  obtain ⟨g, new, gone, hg, hlowered, hfits⟩ := fits_lower_iff (k := 4) hr rfl
  exact ⟨r.1, r.2, _, g, new, gone, hr, rfl, hg, hlowered,
    hlowered.inserted.length_eq.symm.trans hlength, hfits.2 hsuits⟩

/-- A kernel that chooses the greater of one value, as the builtin is declared. -/
def loneValue : Module :=
  let greater := Func.declare "__builtin_IB_fmax" ⟨.float 32, [.float 32]⟩
  ⟨"m", [], [greater, .define "kernel" ⟨.float 32, [.float 32]⟩ [⟨"entry",
    [callOf 0 greater [.arg 0], ⟨1, "", .void, .ret (some (.inst 0)), none⟩]⟩]]⟩

/-- All calls fit the builtin, and the call of the intrinsic that takes two values passes one,
whichever way sums are made. -/
theorem not_fits_lower_loneValue :
    loneValue.DistinctNames ∧ loneValue.CallTyped ∧ (∀ i ∈ loneValue.instrs, i.Fits) ∧
      ∃ stats out, (∀ mode, loneValue.lower mode false = .ok (stats, out)) ∧
        ∃ j ∈ out.instrs, j.called? = some "llvm.genx.fmax.f32" ∧ ¬ j.Fits := by
  have hrun : (loneValue.lower .stops false).toOption.any (fun r => ∃ j ∈ r.2.instrs,
      j.called? = some "llvm.genx.fmax.f32" ∧ ¬ j.Fits) = true := by decide +kernel
  have hrange : loneValue.LowersInRange false := by decide +kernel
  obtain ⟨r, hr, hbad⟩ := exists_ok_of_any hrun
  exact ⟨by decide +kernel, by decide +kernel, by decide +kernel, r.1, r.2,
    fun mode => (hrange.lower_eq mode).trans hr, of_decide_eq_true hbad⟩

end Module

end Postlink
