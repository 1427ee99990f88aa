import Postlink.Proofs.Pipeline.Distinctness
import Postlink.Proofs.CastRepair.Correspondence
import Postlink.Proofs.Namesakes

/-!
# Exported functions of a prepared program

A function that is exported is an entry point of the finished program. Every stage keeps the profile
of a function, which says whether it is one and with which linkage, and functions that a stage adds
are not exported (`Module.Extends`). Only cast repair removes functions: the first one of a name, if
calls were redirected to copies of it and nothing names it any more (`Repair.Abandons`). It does not
ask whether the function is exported, and so these are the entry points that are lost
(`Module.exports_prepare_iff`).
-/

namespace Postlink

/-- The name of a function, and its linkage if it has a body and is exported. -/
def Func.profile (f : Func) : String × Option Linkage :=
  (f.name, if !f.isDeclared && f.exported then some f.linkage else none)

namespace Func

/-- A declaration exports nothing. -/
theorem profile_of_isDeclared {f : Func} (h : f.isDeclared = true) : f.profile.2 = none := by
  rw [profile, h]
  rfl

/-- A profile reads neither blocks nor the counter. -/
theorem profile_with_body {f : Func} {b : Body} (h : b.isDeclared = f.isDeclared)
    (next : Option Nat) : profile { f with body := b, nextId := next } = f.profile := by
  have hsame : isDeclared { f with body := b, nextId := next } = f.isDeclared := h
  rw [profile, profile, hsame]

/-- Changing blocks and the counter keeps the profile. -/
theorem profile_mapBlocks (f : Func) (k : Blocks → Blocks) (next : Option Nat) :
    profile { f with body := f.body.mapBlocks k, nextId := next } = f.profile := by
  apply profile_with_body
  rw [isDeclared]
  cases f.body <;> rfl

theorem profile_mapInstrs (f : Func) (k : Instr → Instr) : (f.mapInstrs k).profile = f.profile :=
  f.profile_mapBlocks _ f.nextId

theorem profile_eraseInstr (id : Nat) (f : Func) : (f.eraseInstr id).profile = f.profile :=
  f.profile_mapBlocks _ f.nextId

/-- Loading a body keeps the profile. -/
theorem profile_load {f g : Func} (h : f.load = .ok g) : g.profile = f.profile := by
  unfold load at h
  split at h
  · rename_i s hs
    split at h
    · cases h
      apply profile_with_body
      rw [isDeclared, hs]
      rfl
    · cases h
  · cases h
    rfl

/-- Inserting an instruction keeps the profile. -/
theorem profile_insertBefore {mode : Overflow} {f g : Func} {before id : Nat} {new : Instr}
    (h : f.insertBefore mode before new = .ok (id, g)) : g.profile = f.profile := by
  obtain ⟨_, next, _, _, rfl⟩ := insertBefore_cases h
  exact f.profile_mapBlocks _ _

end Func

namespace Module

/-- A function of this name has a body, is exported and has this linkage. -/
def Exports (m : Module) (name : String) (linkage : Linkage) : Prop :=
  ∃ f ∈ m.functions, f.name = name ∧ f.isDeclared = false ∧ f.exported = true ∧ f.linkage = linkage

instance (m : Module) (name : String) (linkage : Linkage) : Decidable (m.Exports name linkage) :=
  inferInstanceAs (Decidable (∃ f ∈ m.functions,
    f.name = name ∧ f.isDeclared = false ∧ f.exported = true ∧ f.linkage = linkage))

/-- The profiles of all functions in order. -/
def profiles (m : Module) : List (String × Option Linkage) := m.functions.map Func.profile

variable {m m' m'' : Module}

/-- Exports can be read off the profiles. -/
theorem exports_iff {name : String} {linkage : Linkage} :
    m.Exports name linkage ↔ (name, some linkage) ∈ m.profiles := by
  rw [Exports, profiles, List.mem_map]
  refine exists_congr fun f => and_congr_right fun _ => ?_
  cases hdecl : f.isDeclared <;> cases hexp : f.exported <;> simp [Func.profile, hdecl, hexp]

/-- Replacing a function by one with its profile keeps all profiles. -/
theorem profiles_modifyFunc {name : String} {f g : Func} (hf : m.func? name = some f)
    (hg : g.profile = f.profile) : (m.modifyFunc name fun _ => g).profiles = m.profiles :=
  map_modifyFirst_const hf hg

/-- Changing all functions without changing a profile keeps all profiles. -/
theorem profiles_mapFuncs {k : Func → Func} (hk : ∀ f, (k f).profile = f.profile) (m : Module) :
    (m.mapFuncs k).profiles = m.profiles := by
  rw [profiles, functions_mapFuncs, List.map_map]
  exact List.map_congr_left fun f _ => hk f

/-- Exchanging a function for one with its profile keeps all profiles. -/
theorem profiles_setFunc {index : Nat} {f g : Func} (hf : m.functions[index]? = some f)
    (hg : g.profile = f.profile) : (m.setFunc index g).profiles = m.profiles :=
  map_setFunc hf hg

/-- Removing a function takes away the first profile of its name. -/
theorem profiles_eraseFunc (name : String) (m : Module) :
    (m.eraseFunc name).profiles = m.profiles.eraseP fun q => q.1 = name := by
  rw [profiles, profiles, List.eraseP_map]
  rfl

/-- The functions are there with their profiles, and whatever follows them is not exported. -/
def Extends (m m' : Module) : Prop :=
  ∃ new, m'.profiles = m.profiles ++ new ∧ ∀ q ∈ new, q.2 = none

namespace Extends

theorem of_eq (h : m'.profiles = m.profiles) : m.Extends m' := by
  refine ⟨[], by rw [h, List.append_nil], fun q hq => ?_⟩
  cases hq

theorem trans (h : m.Extends m') (h' : m'.Extends m'') : m.Extends m'' := by
  obtain ⟨new, hnew, hnone⟩ := h
  obtain ⟨new', hnew', hnone'⟩ := h'
  refine ⟨new ++ new', by rw [hnew', hnew, List.append_assoc], fun q hq => ?_⟩
  exact (List.mem_append.1 hq).elim (hnone q) (hnone' q)

/-- A function that is not exported may be added. -/
theorem addFunc (m : Module) {f : Func} (hf : f.profile.2 = none) : m.Extends (m.addFunc f) := by
  refine ⟨[f.profile], ?_, fun q hq => ?_⟩
  · rw [profiles, Module.addFunc, List.map_append]
    rfl
  · rwa [List.mem_singleton.1 hq]

/-- An extension exports what the module exports. -/
theorem exports_iff (h : m.Extends m') {name : String} {linkage : Linkage} :
    m'.Exports name linkage ↔ m.Exports name linkage := by
  obtain ⟨new, hnew, hnone⟩ := h
  rw [Module.exports_iff, Module.exports_iff, hnew, List.mem_append]
  refine or_iff_left fun hmem => ?_
  cases hnone _ hmem

/-- The first function of a name is the same. -/
theorem eraseFunc (h : m.Extends m') {name : String} (hname : ∃ q ∈ m.profiles, q.1 = name) :
    (m.eraseFunc name).Extends (m'.eraseFunc name) := by
  obtain ⟨new, hnew, hnone⟩ := h
  obtain ⟨q, hq, hqname⟩ := hname
  refine ⟨new, ?_, hnone⟩
  rw [profiles_eraseFunc, profiles_eraseFunc, hnew, List.eraseP_append_left (a := q) _ _ hq]
  simpa using hqname

end Extends

end Module

namespace Demand

variable {d e : Demand}

/-- Loading bodies and following calls keeps the program's profiles. -/
theorem profiles_modifyFunc {side : Side} {name : String} {f g : Func}
    (hf : (d.module side).func? name = some f) (hg : g.profile = f.profile) :
    (d.modifyFunc side name fun _ => g).program.profiles = d.program.profiles := by
  cases side with
  | program => exact Module.profiles_modifyFunc hf hg
  | library => rfl

/-- A visit keeps the profiles of the program. -/
theorem profiles_visit (side : Side) (name : String) (d : Demand) :
    (d.visit side name).1.program.profiles = d.program.profiles := by
  unfold visit
  split
  · rfl
  · dsimp only
    split
    · rfl
    · rename_i f hf
      exact profiles_modifyFunc hf (f.profile_mapInstrs _)

/-- Serving a request keeps the profiles of the program. -/
theorem profiles_supply {r : Request} {more : List Request}
    (hs : d.supply r = .ok (some (e, more))) : e.program.profiles = d.program.profiles := by
  obtain ⟨side, g, g', hmissing, hload, hvisit⟩ := supply_eq_some hs
  obtain ⟨_, hg, _⟩ := missing?_eq_some_iff.1 hmissing
  have hprofile : Func.profile { g' with conv := r.conv } = g'.profile := rfl
  rw [Prod.mk.injEq] at hvisit
  rw [hvisit.1, profiles_visit]
  exact profiles_modifyFunc hg (hprofile.trans (Func.profile_load hload))

/-- A walk keeps the profiles of the program. -/
theorem profiles_walk {roots : List String} (hs : d.walk roots = .ok e) :
    e.program.profiles = d.program.profiles := by
  refine walk_induction (motive := fun e _ => e.program.profiles = d.program.profiles)
    ?_ ?_ ?_ rfl hs
  · intro e root he
    rw [profiles_visit, he]
  · intro e r rest he _
    exact he
  · intro e r rest e' more he hsupply
    exact (profiles_supply hsupply).trans he

end Demand

namespace Module

variable {m dest src out : Module} {name : String} {linkage : Linkage}

/-- What takes the place of a declaration takes no exported function away. -/
theorem Exports.modifyFunc (h : m.Exports name linkage) {f old : Func}
    (hold : m.func? f.name = some old) (hdecl : old.isDeclared = true) :
    (m.modifyFunc f.name fun _ => f).Exports name linkage := by
  obtain ⟨g, hg, hname, hbody, hexported⟩ := h
  refine ⟨g, mem_modifyFirst_of_ne hold hg ?_, hname, hbody, hexported⟩
  rintro rfl
  rw [hdecl] at hbody
  cases hbody

/-- Recasting calls keeps exports. -/
theorem Exports.castCallers (h : m.Exports name linkage) (target : String) :
    (m.castCallers target).Exports name linkage := by
  unfold Module.castCallers
  split
  · exact h
  · rwa [exports_iff, profiles_mapFuncs fun f => f.profile_mapInstrs _, ← exports_iff]

/-- Moving a function in keeps exports. -/
theorem Exports.mergeFunc {s s' : Module × Nat} (h : s.1.Exports name linkage) {f : Func}
    (hs : Module.mergeFunc s f = .ok s') : s'.1.Exports name linkage := by
  unfold Module.mergeFunc at hs
  split at hs
  · cases hs
    obtain ⟨g, hg, hprofile⟩ := h
    exact ⟨g, List.mem_append_left _ hg, hprofile⟩
  · rename_i old hold
    split at hs
    · cases hs
      exact h
    · split at hs
      · cases hs
      · rename_i hdecl
        cases hs
        have hmoved := h.modifyFunc hold (by simpa using hdecl)
        dsimp only
        split
        · exact hmoved
        · exact hmoved.castCallers f.name

/-- Linking takes no exported function away. -/
theorem Exports.link (h : dest.Exports name linkage) {gained : Nat}
    (hs : dest.link src = (.ok gained, out)) : out.Exports name linkage := by
  unfold Module.link at hs
  split at hs
  · cases hs
  · split at hs
    · cases hs
    · unfold Module.merge at hs
      split at hs
      · cases hs
      · rename_i dest' hglobals
        have hdest : dest'.Exports name linkage := by
          refine stepAll_induction (motive := fun _ m => m.Exports name linkage) h ?_ hglobals
          intro _ _ _ _ _ _ h hstep
          rwa [Exports, mergeGlobal_functions hstep]
        split at hs
        · cases hs
        · rename_i out' gained' hfuncs
          cases hs
          exact stepAll_induction (motive := fun _ s => s.1.Exports name linkage) hdest
            (fun _ _ _ _ _ _ h hstep => h.mergeFunc hstep) hfuncs

/-- Importing keeps exports. -/
theorem Exports.importFrom {library : Module} (h : m.Exports name linkage) {stats : ImportStats}
    (hs : m.importFrom library = .ok (stats, out)) : out.Exports name linkage := by
  obtain ⟨d, src, hwalk, _, _, hlink⟩ := importFrom_eq_ok hs
  have hd : d.program.Exports name linkage := by
    rw [exports_iff, Demand.profiles_walk hwalk, Demand.start, ← exports_iff]
    exact h
  exact hd.link hlink

/-- Setting flags changes no function. -/
theorem functions_setFlags (flags : List Flag) (m : Module) :
    (m.setFlags flags).1.functions = m.functions := by
  have hstep : ∀ (s : Module × Nat) flag, (setFlag s flag).1.functions = s.1.functions := by
    intro s flag
    unfold setFlag
    split <;> rfl
  have hrun : ∀ s : Module × Nat, (flags.foldl setFlag s).1.functions = s.1.functions := by
    induction flags with
    | nil => exact fun s => rfl
    | cons flag flags ih => exact fun s => (ih _).trans (hstep s flag)
  exact hrun (m, 0)

end Module

namespace Erasure

/-- Removing an instruction keeps profiles. -/
theorem profiles_eraseInstr (s : Module × Nat) (target : String × Nat) :
    (eraseInstr s target).1.profiles = s.1.profiles := by
  unfold eraseInstr
  split
  · rfl
  · exact map_modifyFirst (Func.profile_eraseInstr target.2) _

theorem profiles_foldl_eraseInstr (staged : List (String × Nat)) (s : Module × Nat) :
    (staged.foldl eraseInstr s).1.profiles = s.1.profiles := by
  induction staged generalizing s with
  | nil => rfl
  | cons target staged ih => rw [List.foldl_cons, ih, profiles_eraseInstr]

/-- Without functions to remove, profiles stay. -/
theorem profiles_carryOut {e : Erasure} (h : e.functions = []) (m : Module) :
    (e.carryOut m).module.profiles = m.profiles := by
  rw [carryOut, h]
  exact profiles_foldl_eraseInstr e.instrs (m, 0)

/-- Carrying out the removal of a function takes away the first profile of its name. -/
theorem profiles_eraseFunc (s : Module × Nat) (name : String) :
    (eraseFunc s name).1.profiles = s.1.profiles.eraseP fun q => q.1 = name := by
  unfold eraseFunc
  split
  · rename_i hnone
    rw [List.eraseP_of_forall_not]
    intro q hq
    obtain ⟨f, hf, rfl⟩ := List.mem_map.1 hq
    simpa [Func.profile] using Module.func?_eq_none_iff.1 hnone f hf
  · exact Module.profiles_eraseFunc name s.1

/-- Of the functions with one name, the first goes if the name is staged. -/
theorem filter_foldl_eraseFunc {names : List String} (hnames : names.Nodup) (s : Module × Nat)
    (k : String) : (names.foldl eraseFunc s).1.profiles.filter (fun q => q.1 = k) =
      if k ∈ names then (s.1.eraseFunc k).profiles.filter (fun q => q.1 = k)
      else s.1.profiles.filter fun q => q.1 = k := by
  induction names generalizing s with
  | nil => simp
  | cons name names ih =>
      rw [List.nodup_cons] at hnames
      rw [List.foldl_cons, ih hnames.2, profiles_eraseFunc, filter_eraseP_key Prod.fst,
        Module.profiles_eraseFunc, Module.profiles_eraseFunc, filter_eraseP_key Prod.fst,
        filter_eraseP_key Prod.fst, profiles_eraseFunc, filter_eraseP_key Prod.fst]
      by_cases hk : name = k
      · subst hk
        simp [hnames.1]
      · have hk' : k ≠ name := fun h => hk h.symm
        simp [hk, hk']

/-- Staging functions stages none twice. -/
theorem nodup_foldl_addFunc (names : List String) {e : Erasure} (h : e.functions.Nodup) :
    (names.foldl (fun e name => addFunc name e) e).functions.Nodup := by
  induction names generalizing e with
  | nil => exact h
  | cons name names ih =>
      refine ih ?_
      dsimp only [addFunc]
      split
      · exact h
      · rename_i hnew
        refine List.nodup_append.2 ⟨h, List.nodup_singleton _, fun a ha b hb hab => hnew ?_⟩
        rwa [← List.mem_singleton.1 hb, ← hab]

end Erasure

namespace Repair

variable {mode : Overflow} {m : Module} {s s' : Repair}

/-- While calls are redirected, functions keep their profiles and none is staged. -/
structure Extending (m : Module) (s : Repair) : Prop where
  /-- Copies are not exported. -/
  extended : m.Extends s.module
  /-- Only calls are staged. -/
  functions : s.pending.functions = []

namespace Extending

/-- Making a copy, or finding one, extends the module. -/
theorem copy? (h : s.Extending m) {c : CastCall} {name : String}
    (hs : s.copy? c = some (name, s')) : s'.Extending m := by
  rcases copy?_cases hs with ⟨_, rfl⟩ | ⟨g, _, hg, _, rfl⟩
  · exact h
  · have hnone : g.profile.2 = none := by
      obtain ⟨f, _, _, rfl⟩ := Module.exists_of_copyFor? hg
      rfl
    exact ⟨h.extended.trans (.addFunc s.module hnone), h.functions⟩

/-- Redirecting a call keeps profiles. -/
theorem retarget (h : s.Extending m) {index : Nat} {c : CastCall} {name : String}
    (hs : s.retarget mode index c name = .ok s') : s'.Extending m := by
  rcases retarget_cases hs with rfl | ⟨f, old, call, id, g, hf, _, _, hinsert, rfl⟩
  · exact h
  · refine ⟨h.extended.trans (.of_eq (Module.profiles_setFunc hf ?_)), h.functions⟩
    exact (g.profile_mapInstrs _).trans (Func.profile_insertBefore hinsert)

/-- A sweep of cast repair extends the module. -/
theorem sweep (hs : Repair.sweep mode m = .ok s) : s.Extending m :=
  sweep_induction ⟨.of_eq rfl, rfl⟩ (fun _ _ _ _ hcopy h => h.copy? hcopy)
    (fun _ _ _ _ _ hstep h => h.retarget hstep) (fun _ h => ⟨h.extended, h.functions⟩) hs

/-- Removing the old calls keeps profiles. -/
theorem cleared (h : s.Extending m) : m.Extends s.cleared :=
  h.extended.trans (.of_eq (Erasure.profiles_carryOut h.functions s.module))

/-- An exported function is there after a repair unless it is given up, or another one is exported
in its name. -/
theorem exports_finish_iff (h : s.Extending m) {name : String} {linkage : Linkage}
    (hname : m.Exports name linkage) : s.finish.2.Exports name linkage ↔
      ¬ s.Abandons name ∨ (m.eraseFunc name).Exports name linkage := by
  obtain ⟨hinstrs, hfunctions⟩ := Erasure.foldl_addFunc s.unneeded Erasure.empty
  have hnodup := Erasure.nodup_foldl_addFunc s.unneeded (e := Erasure.empty) List.nodup_nil
  have hthere : ∃ q ∈ m.profiles, q.1 = name := ⟨_, Module.exports_iff.1 hname, rfl⟩
  have hfilter : ∀ m' : Module, m'.Exports name linkage ↔
      (name, some linkage) ∈ m'.profiles.filter fun q => q.1 = name := by
    intro m'
    rw [List.mem_filter, Module.exports_iff]
    simp
  have hstaged : ∀ k, k ∈ (s.unneeded.foldl (fun e name => Erasure.addFunc name e)
      Erasure.empty).functions ↔ s.Abandons k := by
    intro k
    rw [hfunctions, abandons_iff]
    exact or_iff_right List.not_mem_nil
  rw [hfilter, finish]
  simp only [Erasure.carryOut, hinstrs]
  rw [Erasure.filter_foldl_eraseFunc hnodup]
  by_cases habandons : s.Abandons name
  · rw [if_pos ((hstaged name).2 habandons), ← hfilter]
    exact (h.cleared.eraseFunc hthere).exports_iff.trans
      (or_iff_right fun hnot => hnot habandons).symm
  · rw [if_neg (fun hmem => habandons ((hstaged name).1 hmem)), ← hfilter]
    exact ⟨fun _ => Or.inl habandons, fun _ => h.cleared.exports_iff.2 hname⟩

end Extending

end Repair

namespace Module

/-- Declaring what a step calls adds a declaration at most. -/
theorem extends_foldl_declare (steps : List Step) (m : Module) :
    m.Extends (steps.foldl Step.declare m) ∧
    m.functions <+: (steps.foldl Step.declare m).functions := by
  induction steps generalizing m with
  | nil => exact ⟨.of_eq rfl, List.prefix_refl _⟩
  | cons step steps ih =>
      have hstep : m.Extends (step.declare m) ∧ m.functions <+: (step.declare m).functions := by
        unfold Step.declare
        split
        · unfold declareIntrinsic
          split
          · exact ⟨.of_eq rfl, List.prefix_refl _⟩
          · exact ⟨.addFunc m (Func.profile_of_isDeclared rfl), List.prefix_append _ _⟩
        · exact ⟨.of_eq rfl, List.prefix_refl _⟩
      exact ⟨hstep.1.trans (ih _).1, hstep.2.trans (ih _).2⟩

/-- What becomes internal is not exported. -/
theorem profiles_internalize (m : Module) : m.internalize.1.profiles = m.profiles := by
  have hprofile : ∀ f : Func,
      Func.profile (if f.closes then { f with linkage := .internal } else f) = f.profile := by
    intro f
    split
    · rename_i hcloses
      have hexported : f.exported = false := by
        simp only [Func.closes, Bool.and_eq_true, Bool.not_eq_true'] at hcloses
        exact hcloses.1.2
      rw [Func.profile, Func.profile, hexported, Bool.and_false, Bool.and_false]
      rfl
    · rfl
  exact profiles_mapFuncs hprofile m

end Module

namespace Lowering

variable {mode : Overflow}

/-- Emitting a step keeps the profile. -/
theorem profile_emitStep {site : DirectCall} {s s' : Func × Option Operand} {step : Step}
    (hs : emitStep mode site s step = .ok s') : s'.1.profile = s.1.profile := by
  obtain ⟨r, hr, rfl⟩ := map_eq_ok hs
  exact Func.profile_insertBefore hr

/-- Emitting all steps of a call keeps the profile. -/
theorem profile_emit {site : DirectCall} {steps : List Step} {f g : Func}
    (hs : emit mode site steps f = .ok g) : g.profile = f.profile := by
  obtain ⟨r, hr, rfl⟩ := map_eq_ok hs
  have hsteps : r.1.profile = f.profile :=
    foldlM_induction (motive := fun s => s.1.profile = f.profile) rfl
      (fun _ _ _ _ h hstep => (profile_emitStep hstep).trans h) hr
  split
  · exact hsteps
  · exact (r.1.profile_mapInstrs _).trans hsteps

/-- While builtin calls are replaced, functions keep their profiles and none is staged. -/
structure Extending (m : Module) (s : Lowering) : Prop where
  /-- Declarations are added only. -/
  extended : m.Extends s.module
  /-- Only calls are staged. -/
  functions : s.pending.functions = []

variable {m : Module} {s s' : Lowering}

/-- Lowering a call extends the module. -/
theorem Extending.lowerSite (h : s.Extending m) {index : Nat} {site : DirectCall}
    (hs : s.lowerSite mode index site = .ok s') : s'.Extending m := by
  rcases lowerSite_cases hs with ⟨_, rfl⟩ | ⟨f, _, _, rfl⟩ | ⟨f, steps, g, hf, _, hemit, rfl⟩
  · exact h
  · exact ⟨h.extended, h.functions⟩
  · obtain ⟨hdeclared, new, hfunctions⟩ := Module.extends_foldl_declare steps s.module
    have hthere : (steps.foldl Step.declare s.module).functions[index]? = some f := by
      rw [← hfunctions, List.getElem?_append_left (List.getElem?_eq_some_iff.1 hf).1, hf]
    have hset := Module.profiles_setFunc hthere (profile_emit hemit)
    exact ⟨(h.extended.trans hdeclared).trans (.of_eq hset), h.functions⟩

/-- A sweep of lowering extends the module. -/
theorem Extending.sweep (hs : Lowering.sweep mode m = .ok s) : s.Extending m := by
  refine foldlM_induction (motive := Extending m) ⟨.of_eq rfl, rfl⟩ ?_ hs
  intro s index s' _ h hstep
  unfold lowerAt at hstep
  split at hstep
  · cases hstep
    exact h
  · exact foldlM_induction (motive := Extending m) h (fun _ _ _ _ h hsite => h.lowerSite hsite)
      hstep

end Lowering

namespace Module

/-- Lowering adds declarations only, and makes no exported function internal. -/
theorem extends_lower {mode : Overflow} {m out : Module} {internal : Bool} {stats : LoweringStats}
    (hs : m.lower mode internal = .ok (stats, out)) : m.Extends out := by
  obtain ⟨s, hsweep, hout⟩ := map_eq_ok hs
  have hswept := Lowering.Extending.sweep hsweep
  have hcleared := hswept.extended.trans
    (.of_eq (Erasure.profiles_carryOut hswept.functions s.module))
  dsimp only at hout
  split at hout
  · cases hout
    exact hcleared.trans (.of_eq (profiles_internalize _))
  · cases hout
    exact hcleared

/-- An exported function of a program is there after preparing it, with a body, exported and with
its linkage, unless cast repair gives it up; apart from others that are exported in its name. -/
theorem exports_prepare_iff {mode : Overflow} {program library out : Module} {config : Config}
    {stats : PrepareStats} (h : program.prepare mode config library = .ok (stats, out)) :
    ∃ imported linked s, program.importFrom library = .ok (imported, linked) ∧
      Repair.sweep mode (linked.setFlags config.flags).1 = .ok s ∧
      ∀ name linkage, program.Exports name linkage → (out.Exports name linkage ↔
        ¬ s.Abandons name ∨ (linked.eraseFunc name).Exports name linkage) := by
  unfold prepare at h
  split at h
  · cases h
  · rename_i imported linked himport
    dsimp only at h
    split at h
    · cases h
    · rename_i repaired cast hrepair
      split at h
      · cases h
      · rename_i lowering lowered hlower
        cases h
        obtain ⟨s, hsweep, hfinish⟩ := map_eq_ok hrepair
        refine ⟨imported, linked, s, himport, hsweep, fun name linkage hexports => ?_⟩
        have hflags := functions_setFlags config.flags linked
        have hlinked : (linked.setFlags config.flags).1.Exports name linkage := by
          rw [Exports, hflags]
          exact hexports.importFrom himport
        have hkept := (Repair.Extending.sweep hsweep).exports_finish_iff hlinked
        rw [hfinish] at hkept
        rw [(extends_lower hlower).exports_iff, hkept, Exports, Exports, eraseFunc,
          eraseFunc, hflags]

/-- Exported functions that are called through casts only. The first of the two that are called also
calls itself. -/
def exposed : Module :=
  let real : Ty := .float 32
  ⟨"m", [], [forwarder "main" (.int 32) "loop", forwarder "other" (.int 32) "entry",
    relay "loop" real "loop" ⟨real, [real]⟩, returner "entry" real].map
      fun f => { f with exported := true }⟩

/-- Calls of `loop` are redirected to a copy, but it names itself and so it stays. -/
theorem exports_prepare_exposed :
    ∃ stats out, exposed.prepare .wraps .standard (empty "l") = .ok (stats, out) ∧
      stats.repaired = ⟨2, 2, 0, 1⟩ ∧ exposed.Exports "loop" .external ∧
      out.Exports "loop" .external := by
  have hexports : exposed.Exports "loop" .external := by decide +kernel
  have hrun : (exposed.prepare .wraps .standard (empty "l")).toOption.map (fun r => r.1.repaired) =
      some ⟨2, 2, 0, 1⟩ := by decide +kernel
  have hneeded : ((exposed.importFrom (empty "l")).toOption.bind fun r =>
      (Repair.sweep .wraps (r.2.setFlags Config.standard.flags).1).toOption).any
        (fun s => ¬ s.Abandons "loop") = true := by decide +kernel
  obtain ⟨r, hr, hrepaired⟩ := exists_ok_of_map hrun
  obtain ⟨imported, linked, s, himport, hsweep, hiff⟩ := exports_prepare_iff hr
  rw [himport, Except.toOption, Option.bind_some, hsweep] at hneeded
  exact ⟨r.1, r.2, hr, hrepaired, hexports,
    (hiff "loop" .external hexports).2 (Or.inl (of_decide_eq_true hneeded))⟩

/-- Calls of `entry` are redirected to a copy, and it is removed although it is exported. -/
theorem not_exports_prepare_exposed :
    exposed.Exports "entry" .external ∧
    ∃ stats out, (∀ mode, exposed.prepare mode .standard (empty "l") = .ok (stats, out)) ∧
      out.func? "entry" = none := by
  have hexports : exposed.Exports "entry" .external := by decide +kernel
  have hrun : (exposed.prepare .stops .standard (empty "l")).toOption.any
      (fun r => r.2.func? "entry" = none) = true := by decide +kernel
  obtain ⟨r, hr, hgone⟩ := exists_ok_of_any hrun
  have hrange : PreparesInRange .standard exposed (empty "l") := by
    rw [PreparesInRange, hr]
    exact fun heq => by cases heq
  exact ⟨hexports, r.1, r.2, fun mode => (hrange.prepare_eq mode).trans hr, of_decide_eq_true hgone⟩

end Module

end Postlink
