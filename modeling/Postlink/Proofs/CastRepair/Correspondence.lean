import Postlink.Proofs.CastRepair.Sweep
import Postlink.Proofs.Overflow

/-!
# Bodies before and after cast repair

Once the old calls are gone, a function stands in the same order and the same blocks as before, with
one direct call for each call that was redirected (`Func.Redirected.corresponds_clear`). A copy
stands so to what it was made of. If calls of its origin had been redirected by then, that was more
than the origin, and the copy calls twice what the origin calls once. So bodies correspond exactly
if no copy is made late.
-/

namespace Postlink

/-- An instruction and what became of it: itself with results renumbered, or a call of a function
that it may go to. -/
inductive Instr.Counterpart (goes : Instr → String → Prop) (ρ : Nat → Nat) (i : Instr) :
    Instr → Prop where
  /-- The same instruction, which keeps its identifier. -/
  | kept (hid : ρ i.id = i.id) : Counterpart goes ρ i (i.renumber ρ)
  /-- A direct call. -/
  | redirected {name : String} (hgoes : goes i name) : Counterpart goes ρ i (i.directed name ρ)

/-- Blocks that stand one to one, with instructions that do. -/
def Blocks.Corresponds (R : Instr → Instr → Prop) (bs bs' : Blocks) : Prop :=
  List.Forall₂ (fun b b' => b.label = b'.label ∧ List.Forall₂ R b.instrs b'.instrs) bs bs'

/-- Functions whose bodies stand one to one, up to redirected calls. Only results of instructions
are renumbered. -/
def Func.Corresponds (goes : Instr → String → Prop) (f g : Func) : Prop :=
  ∃ ρ : Nat → Nat, (∀ k, (∀ i ∈ f.instrs, i.id ≠ k) → ρ k = k) ∧
    Blocks.Corresponds (Instr.Counterpart goes ρ) f.blocks g.blocks

namespace Blocks

variable {R : Instr → Instr → Prop} {bs bs' : Blocks}

theorem Corresponds.length_eq (h : Corresponds R bs bs') :
    bs.instrs.length = bs'.instrs.length := by
  induction h with
  | nil => rfl
  | cons hblock _ ih =>
      rw [instrs_cons, instrs_cons, List.length_append, List.length_append, ih, hblock.2.length_eq]

/-- Replacing each instruction by one counterpart. -/
theorem corresponds_expand {g : Instr → List Instr}
    (h : ∀ i ∈ bs.instrs, ∃ o, R i o ∧ g i = [o]) : Corresponds R bs (bs.expand g) := by
  have hinstrs : ∀ is : List Instr, (∀ i ∈ is, ∃ o, R i o ∧ g i = [o]) →
      List.Forall₂ R is (is.flatMap g) := by
    intro is his
    induction is with
    | nil => exact .nil
    | cons i is ih =>
        obtain ⟨o, ho, hg⟩ := his i (List.mem_cons_self ..)
        rw [List.flatMap_cons, hg]
        exact .cons ho (ih fun j hj => his j (List.mem_cons_of_mem _ hj))
  induction bs with
  | nil => exact .nil
  | cons b bs ih =>
      rw [instrs_cons] at h
      refine .cons ⟨rfl, hinstrs _ fun i hi => h i (List.mem_append_left _ hi)⟩ ?_
      exact ih fun i hi => h i (List.mem_append_right _ hi)

end Blocks

namespace Func

variable {goes : Instr → String → Prop} {f g : Func} {rs : List Rewrite}

theorem Corresponds.length_eq (h : f.Corresponds goes g) : f.instrs.length = g.instrs.length := by
  obtain ⟨ρ, _, hblocks⟩ := h
  exact hblocks.length_eq

/-- Without the old calls, a function with redirected calls corresponds to what it was. -/
theorem Redirected.corresponds_clear (h : f.Redirected goes rs) (hf : f.Numbered)
    {staged : List (String × Nat)} (hstaged : ∀ k, (f.name, k) ∈ staged ↔ ∃ r ∈ rs, r.old = k) :
    f.Corresponds goes ((f.rewriteBy rs).clear staged) := by
  refine ⟨Rewrite.redirect rs, ?_, ?_⟩
  · intro k hk
    refine Rewrite.redirect_eq_self fun r hr hold => ?_
    obtain ⟨i, hi, hid⟩ := h.planned.exists_old hr
    exact hk i hi (hid.trans hold)
  rw [clear, name_rewriteBy, blocks_expand, rewriteBy, blocks_expand, Blocks.expand_expand]
  have hblocks : (f.advance (Rewrite.width rs)).blocks = f.blocks := by
    rw [blocks, body_advance, blocks]
  rw [hblocks]
  apply Blocks.corresponds_expand
  intro i hi
  by_cases hr : ∃ r ∈ rs, r.old = i.id
  · obtain ⟨name, hname, hins⟩ := h.direct i hi hr
    refine ⟨_, .redirected hname, ?_⟩
    -- The direct call has a fresh identifier, and only old ones are staged.
    have hnew : (f.name, Rewrite.redirect rs i.id) ∉ staged := by
      obtain ⟨r, hmem, hold⟩ := hr
      rw [← hold, Rewrite.redirect_of_mem h.planned.nodup hmem, hstaged]
      rintro ⟨r', hmem', hold'⟩
      have hge := h.planned.upcomingId_le_result hf hmem
      have hlt := (h.planned.bounds hf r' hmem').1
      omega
    have hold : (f.name, i.id) ∈ staged := (hstaged i.id).2 hr
    rw [Rewrite.image, hins]
    simp [Instr.directed, hnew, hold]
  · have hkept : (f.name, i.id) ∉ staged := fun hmem => hr ((hstaged i.id).1 hmem)
    push Not at hr
    refine ⟨_, .kept (Rewrite.redirect_eq_self hr), ?_⟩
    rw [Rewrite.image, Rewrite.inserted_eq_nil hr]
    simp [hkept]

/-- Redirected calls stand beside the old ones. -/
theorem Redirected.length_lt (h : f.Redirected goes rs) (hne : rs ≠ []) :
    f.instrs.length < (f.rewriteBy rs).instrs.length := by
  have hle : ∀ is : List Instr, is.length ≤ (is.flatMap (Rewrite.image rs)).length := by
    intro is
    induction is with
    | nil => exact Nat.le_refl 0
    | cons i is ih =>
        rw [List.flatMap_cons, List.length_append, Rewrite.image, List.length_append]
        simp only [List.length_cons, List.length_nil]
        omega
  obtain ⟨r, hr⟩ := List.exists_mem_of_ne_nil rs hne
  obtain ⟨i, hi, hid⟩ := h.planned.exists_old hr
  obtain ⟨before, after, hsplit⟩ := List.append_of_mem hi
  obtain ⟨name, _, hins⟩ := h.direct i hi ⟨r, hr, hid.symm⟩
  have hbefore := hle before
  have hafter := hle after
  rw [instrs_rewriteBy, hsplit, List.flatMap_append, List.flatMap_cons, Rewrite.image, hins]
  simp only [List.length_append, List.length_cons, List.length_nil]
  omega

end Func

namespace Erasure

/-- Staging functions one by one stages them all and nothing else. -/
theorem foldl_addFunc (names : List String) (e : Erasure) :
    (names.foldl (fun e name => addFunc name e) e).instrs = e.instrs ∧
      ∀ name, name ∈ (names.foldl (fun e name => addFunc name e) e).functions ↔
        name ∈ e.functions ∨ name ∈ names := by
  induction names generalizing e with
  | nil => simp
  | cons n names ih =>
      rw [List.foldl_cons]
      obtain ⟨hinstrs, hfunctions⟩ := ih (addFunc n e)
      refine ⟨hinstrs.trans (instrs_addFunc n e), fun name => ?_⟩
      rw [hfunctions, mem_functions_addFunc, List.mem_cons, or_assoc]

end Erasure

namespace Repair

/-- A function is given up: a copy was made of it, and without the old calls nothing names it. -/
structure Abandons (s : Repair) (name : String) : Prop where
  /-- There is a copy of it. -/
  copied : ∃ entry ∈ s.copies, entry.1.1 = name
  /-- No body names it, also not below casts. -/
  unused : ∀ g ∈ s.cleared.functions, ∀ o ∈ g.operands, o.func? ≠ some name

/-- A function is abandoned if it is listed as unneeded. -/
theorem abandons_iff {s : Repair} {name : String} : s.Abandons name ↔ name ∈ s.unneeded := by
  rw [unneeded, List.mem_filter, List.mem_eraseDups, List.mem_map, beq_iff_eq,
    Module.useCount, List.countP_eq_zero]
  simp only [List.mem_flatMap, decide_eq_true_eq]
  constructor
  · rintro ⟨hcopied, hunused⟩
    refine ⟨hcopied, ?_⟩
    rintro o ⟨g, hg, ho⟩
    exact hunused g hg o ho
  · rintro ⟨hcopied, hunused⟩
    exact ⟨hcopied, fun g hg o ho => hunused o ⟨g, hg, ho⟩⟩

instance (s : Repair) (name : String) : Decidable (s.Abandons name) :=
  decidable_of_iff (name ∈ s.unneeded) abandons_iff.symm

/-- A function with its calls redirected and the old calls gone. -/
def settled (plan : String → List Rewrite) (done : List (String × CastCall)) (f : Func) : Func :=
  (f.rewriteBy (plan f.name)).clear (done.map fun e => (e.1, e.2.id))

namespace Underway

variable {m : Module} {clones : List Func} {plan : String → List Rewrite}
  {asked done : List (String × CastCall)} {s : Repair}

@[simp] theorem name_settled (f : Func) : (settled plan done f).name = f.name := by
  rw [settled, Func.name_clear, Func.name_rewriteBy]

/-- Once old calls are gone, every function and every copy is rewritten and cleared. -/
theorem cleared_eq (h : Underway m clones plan asked done s) :
    s.cleared = { m with functions := (m.functions ++ clones).map (settled plan done) } := by
  have hids : s.module.DistinctIds := by
    intro f hf
    rw [h.module_eq] at hf
    obtain ⟨b, hb, rfl⟩ := List.mem_map.1 hf
    exact (h.redirected b hb).numbered.distinct
  rw [cleared, Erasure.carryOut_module h.distinctNames hids, h.pending, h.module_eq]
  have hkeep : ∀ fs : List Func, fs.filter (fun f => decide (f.name ∉ ([] : List String))) = fs :=
    fun fs => List.filter_eq_self.2 fun f _ => by simp
  rw [Module.keep, hkeep, Module.mapFuncs, List.map_map]
  rfl

/-- Only functions of the input are unneeded. -/
theorem mem_unneeded (h : Underway m clones plan asked done s) {name : String}
    (hname : name ∈ s.unneeded) : ∃ f ∈ m.functions, f.name = name := by
  rw [unneeded, List.mem_filter, List.mem_eraseDups] at hname
  obtain ⟨entry, hentry, rfl⟩ := List.mem_map.1 hname.1
  obtain ⟨_, _, f, _, hsnapshot⟩ := h.copying.exists_snapshot_of_mem hentry
  exact ⟨f, hsnapshot.mem, hsnapshot.name⟩

/-- The functions of the result. -/
theorem functions_finish (h : Underway m clones plan asked done s) : s.finish.2.functions =
    ((m.functions ++ clones).map (settled plan done)).filter fun f => f.name ∉ s.unneeded := by
  have hnames : s.cleared.DistinctNames := by
    rw [Module.DistinctNames, h.cleared_eq, List.map_map]
    simpa only [Function.comp_def, name_settled] using h.names
  have hids : s.cleared.DistinctIds := by
    intro f hf
    rw [h.cleared_eq] at hf
    obtain ⟨b, hb, rfl⟩ := List.mem_map.1 hf
    exact Func.nodup_clear (h.redirected b hb).numbered.distinct _
  obtain ⟨hinstrs, hfunctions⟩ := Erasure.foldl_addFunc s.unneeded Erasure.empty
  have hcarry := Erasure.carryOut_module hnames hids
    (s.unneeded.foldl (fun e name => Erasure.addFunc name e) Erasure.empty)
  have hstaged : ∀ name, name ∈ (s.unneeded.foldl (fun e name => Erasure.addFunc name e)
      Erasure.empty).functions ↔ name ∈ s.unneeded := by
    intro name
    rw [hfunctions]
    exact or_iff_right List.not_mem_nil
  have hclear : ∀ f : Func, f.clear Erasure.empty.instrs = f := fun f => f.clear_nil
  rw [finish, hcarry, hinstrs, h.cleared_eq, Module.keep, Module.mapFuncs, List.map_congr_left
    fun f _ => hclear f, List.map_id']
  exact List.filter_congr fun f _ => decide_eq_decide.2 (not_congr (hstaged f.name))

/-- Every function and every copy corresponds to what it was when its sweep began. -/
theorem corresponds_settled (h : Underway m clones plan asked done s) (hnum : m.Numbered) {f : Func}
    (hf : f ∈ m.functions ++ clones) : f.Corresponds (m.Goes s.copies) (settled plan done f) := by
  refine (h.redirected f hf).corresponds_clear (h.numbered hnum hf) fun k => ?_
  have holds : k ∈ (plan f.name).map Rewrite.old ↔
      k ∈ (done.filter fun e => e.1 = f.name).map fun e => e.2.id := by rw [h.olds f hf]
  rw [List.mem_map] at holds
  rw [holds]
  simp only [List.mem_map, List.mem_filter, decide_eq_true_eq, Prod.mk.injEq]
  constructor
  · rintro ⟨e, he, hname, hid⟩
    exact ⟨e, ⟨he, hname⟩, hid⟩
  · rintro ⟨e, ⟨he, hname⟩, hid⟩
    exact ⟨e, he, hname, hid⟩

/-- A copy corresponds to its origin if and only if it was made before calls of the origin were
redirected. -/
theorem corresponds_copy_iff (h : Underway m clones plan asked done s) (hnum : m.Numbered)
    {entry : (String × Signature) × String} {g f : Func} {rs : List Rewrite} (hg : g ∈ clones)
    (hsnapshot : Snapshot m s.copies asked entry g f rs) :
    f.Corresponds (m.Goes s.copies) (settled plan done g) ↔ rs = [] := by
  have hsettled := h.corresponds_settled hnum (List.mem_append_right m.functions hg)
  constructor
  · intro hcorresponds
    by_contra hne
    have hlt := hsnapshot.redirected.length_lt hne
    have hlength := hcorresponds.length_eq.trans hsettled.length_eq.symm
    rw [hsnapshot.instrs_eq, ← Func.instrs_rewriteBy] at hlength
    omega
  · rintro rfl
    have hblocks : g.blocks = f.blocks := by
      rw [hsnapshot.copy, Func.copyWith, Func.rewriteBy_nil]
      rfl
    have hinstrs : g.instrs = f.instrs := congrArg Blocks.instrs hblocks
    unfold Func.Corresponds at hsettled ⊢
    rwa [hinstrs, hblocks] at hsettled

end Underway

end Repair

namespace Module

/-- The calls of a module that are redirected, in order. -/
def repairs (m : Module) : List (String × CastCall) := m.functions.flatMap m.repairsOf

/-- Some call is the first to ask for its copy when a call of the function to be copied has been
redirected already. -/
def CopiesLate (m : Module) : Prop :=
  ∃ e ∈ m.repairs, ∃ e' ∈ beforeKey e.2.key m.repairs, e'.1 = e.2.target

instance (m : Module) : Decidable m.CopiesLate :=
  inferInstanceAs (Decidable (∃ e ∈ m.repairs, ∃ e' ∈ beforeKey e.2.key m.repairs,
    e'.1 = e.2.target))

end Module

namespace Repair

/-- What a finished repair should leave: functions that are still needed, and a copy for each
record, with the bodies they come from. -/
structure Faithful (m : Module) (s : Repair) : Prop where
  /-- A function that is needed corresponds to what it was. -/
  functions : ∀ f ∈ m.functions, f.name ∈ s.unneeded ∨
    ∃ g ∈ s.finish.2.functions, g.name = f.name ∧ f.Corresponds (m.Goes s.copies) g
  /-- A copy corresponds to what its origin was. -/
  copies : ∀ entry ∈ s.copies, ∃ f ∈ m.functions, f.name = entry.1.1 ∧
    ∃ g ∈ s.finish.2.functions, g.name = entry.2 ∧ f.Corresponds (m.Goes s.copies) g

namespace Underway

variable {m : Module} {clones : List Func} {plan : String → List Rewrite} {s : Repair}
  {asked done : List (String × CastCall)}

/-- Names are distinct when cast repair is done. -/
theorem distinctNames_finish (h : Underway m clones plan asked done s) :
    s.finish.2.DistinctNames := by
  have hnames : (((m.functions ++ clones).map (settled plan done)).map Func.name).Nodup := by
    rw [List.map_map]
    simpa only [Function.comp_def, name_settled] using h.names
  rw [Module.DistinctNames, h.functions_finish]
  exact hnames.sublist (List.filter_sublist.map Func.name)

/-- What is needed is in the result, rewritten and cleared. -/
theorem mem_functions_finish (h : Underway m clones plan asked done s) {f : Func}
    (hf : f ∈ m.functions ++ clones) (hneeded : f.name ∉ s.unneeded) :
    settled plan done f ∈ s.finish.2.functions := by
  rw [h.functions_finish, List.mem_filter]
  exact ⟨List.mem_map.2 ⟨f, hf, rfl⟩, by simpa using hneeded⟩

/-- Copies have new names, and only functions of the module are removed. -/
theorem copy_mem_functions_finish (h : Underway m clones plan asked done s) {g : Func}
    (hg : g ∈ clones) : settled plan done g ∈ s.finish.2.functions := by
  apply h.mem_functions_finish (List.mem_append_right _ hg)
  intro hunneeded
  obtain ⟨f, hf, hname⟩ := h.mem_unneeded hunneeded
  have hnames := h.names
  rw [List.map_append] at hnames
  exact List.disjoint_of_nodup_append hnames (hname ▸ List.mem_map_of_mem hf)
    (List.mem_map_of_mem hg)

/-- A function of the result comes from a function of the module or is a recorded copy. -/
theorem finish_cases (h : Underway m clones plan asked done s) (hnum : m.Numbered) {g : Func}
    (hg : g ∈ s.finish.2.functions) :
    (∃ f ∈ m.functions, f.name = g.name ∧ f.Corresponds (m.Goes s.copies) g) ∨
      g.name ∈ s.copies.map Prod.snd := by
  rw [h.functions_finish] at hg
  obtain ⟨f, hf, rfl⟩ := List.mem_map.1 (List.mem_of_mem_filter hg)
  rw [name_settled]
  rcases List.mem_append.1 hf with hmem | hmem
  · exact Or.inl ⟨f, hmem, rfl, h.corresponds_settled hnum hf⟩
  · obtain ⟨entry, hentry, _, _, hsnapshot⟩ := h.copying.exists_snapshot hmem
    right
    rw [hsnapshot.copy]
    exact List.mem_map_of_mem hentry

end Underway

section Swept

variable {m : Module} {clones : List Func} {plan : String → List Rewrite} {s : Repair}
  (h : Underway m clones plan ((m.functions ++ clones).flatMap m.repairsOf)
    ((m.functions ++ clones).flatMap m.repairsOf) s)

include h

/-- What a copy asks for, a call of the module asks for. -/
theorem Underway.exists_repair {e : String × CastCall}
    (he : e ∈ (m.functions ++ clones).flatMap m.repairsOf) :
    ∃ e' ∈ m.repairs, e'.2.key = e.2.key := by
  obtain ⟨f, hf, he⟩ := List.mem_flatMap.1 he
  obtain ⟨_, x, hx, hrepair⟩ := Module.mem_repairsIn_iff.1 he
  rcases h.traced hf hx with hnone | ⟨g, hg, i, hi, ρ, rfl⟩
  · rw [Module.repairable?_eq_none hnone] at hrepair
    cases hrepair
  · rw [Module.repairable?_renumber] at hrepair
    refine ⟨(g.name, e.2), List.mem_flatMap.2 ⟨g, hg, ?_⟩, rfl⟩
    exact Module.mem_repairsIn_iff.2 ⟨rfl, i, hi, hrepair⟩

/-- There are copies for the keys of the module's own calls. -/
theorem Underway.exists_entry_iff {key : String × Signature} :
    (∃ entry ∈ s.copies, entry.1 = key) ↔ ∃ e ∈ m.repairs, e.2.key = key := by
  constructor
  · rintro ⟨entry, hentry, rfl⟩
    obtain ⟨_, _, _, _, hsnapshot⟩ := h.copying.exists_snapshot_of_mem hentry
    obtain ⟨e, he, hkey⟩ := hsnapshot.wanted
    obtain ⟨e', he', hkey'⟩ := h.exists_repair he
    exact ⟨e', he', hkey'.trans hkey⟩
  · rintro ⟨e, he, rfl⟩
    have hasked : e ∈ (m.functions ++ clones).flatMap m.repairsOf := by
      rw [List.flatMap_append]
      exact List.mem_append_left _ he
    exact List.mem_map.1 (isSome_lookup_iff.1 (h.copying.served e hasked))

/-- A copy is made before calls of its origin are redirected if none of them asks before the first
call for it. -/
theorem Underway.rewrites_eq_nil_iff {entry : (String × Signature) × String} {g f : Func}
    {rs : List Rewrite}
    (hentry : entry ∈ s.copies)
    (hsnapshot : Snapshot m s.copies ((m.functions ++ clones).flatMap m.repairsOf) entry g f rs) :
    rs = [] ↔ ∀ e ∈ Module.beforeKey entry.1 m.repairs, e.1 ≠ entry.1.1 := by
  -- The first call for a copy is a call of the module, so the copies' own calls come too late.
  have hfirst : ∃ e ∈ m.repairs, e.2.key = entry.1 := h.exists_entry_iff.1 ⟨entry, hentry, rfl⟩
  have holds := hsnapshot.olds
  rw [List.flatMap_append, ← Module.repairs, Module.beforeKey_append hfirst,
    hsnapshot.name] at holds
  rw [← List.map_eq_nil_iff, holds, List.map_eq_nil_iff, List.filter_eq_nil_iff]
  simp only [decide_eq_true_eq, ne_eq]

/-- A recorded copy corresponds to its origin if and only if no call of the origin asks before the
first call for the copy. -/
theorem Underway.corresponds_entry_iff (hnames : m.DistinctNames) (hnum : m.Numbered)
    {entry : (String × Signature) × String} (hentry : entry ∈ s.copies) :
    (∃ f ∈ m.functions, f.name = entry.1.1 ∧
      ∃ g ∈ s.finish.2.functions, g.name = entry.2 ∧ f.Corresponds (m.Goes s.copies) g) ↔
      ∀ e ∈ Module.beforeKey entry.1 m.repairs, e.1 ≠ entry.1.1 := by
  obtain ⟨g, hg, f, rs, hsnapshot⟩ := h.copying.exists_snapshot_of_mem hentry
  have hout := h.copy_mem_functions_finish hg
  have hcopy : (settled plan ((m.functions ++ clones).flatMap m.repairsOf) g).name = entry.2 := by
    rw [name_settled, hsnapshot.copy]
    rfl
  rw [← h.rewrites_eq_nil_iff hentry hsnapshot, ← h.corresponds_copy_iff hnum hg hsnapshot]
  constructor
  · -- Names tell functions apart, so there is only this origin and only this copy.
    rintro ⟨f', hf', hname, g', hg', hname', hcorresponds⟩
    obtain rfl := List.inj_on_of_nodup_map hnames hf' hsnapshot.mem
      (hname.trans hsnapshot.name.symm)
    obtain rfl := List.inj_on_of_nodup_map h.distinctNames_finish hg' hout (hname'.trans hcopy.symm)
    exact hcorresponds
  · intro hcorresponds
    exact ⟨f, hsnapshot.mem, hsnapshot.name, _, hout, hcopy, hcorresponds⟩

/-- Bodies correspond if and only if no copy is made late. -/
theorem Underway.faithful_iff (hnames : m.DistinctNames) (hnum : m.Numbered) :
    s.Faithful m ↔ ¬ m.CopiesLate := by
  constructor
  · rintro hfaithful ⟨e, he, e', he', htarget⟩
    obtain ⟨entry, hentry, hkey⟩ := h.exists_entry_iff.2 ⟨e, he, rfl⟩
    have hnone := (h.corresponds_entry_iff hnames hnum hentry).1 (hfaithful.copies entry hentry)
    rw [hkey] at hnone
    exact hnone e' he' htarget
  · intro hnever
    refine ⟨fun f hf => ?_, fun entry hentry => ?_⟩
    · have hmem : f ∈ m.functions ++ clones := List.mem_append_left _ hf
      by_cases hunneeded : f.name ∈ s.unneeded
      · exact Or.inl hunneeded
      · exact Or.inr ⟨_, h.mem_functions_finish hmem hunneeded, name_settled f,
          h.corresponds_settled hnum hmem⟩
    · apply (h.corresponds_entry_iff hnames hnum hentry).2
      intro e' he' htarget
      obtain ⟨e, he, hkey⟩ := h.exists_entry_iff.1 ⟨entry, hentry, rfl⟩
      refine hnever ⟨e, he, e', hkey ▸ he', ?_⟩
      rw [htarget, ← hkey]
      rfl

end Swept

end Repair

namespace Module

/-- Let names and identifiers be distinct, let every counter stand above the identifiers in use, and
let identifiers stay in range. Then cast repair succeeds, whichever way sums are made, and leaves
functions and copies under distinct names. The functions correspond to what they were, and so do all
the copies if and only if none is made late. -/
theorem faithful_repairCasts_iff {m : Module} (hnames : m.DistinctNames) (hnum : m.Numbered)
    (hclosed : m.Closed) (hrange : m.RepairsInRange) (mode : Overflow) :
    ∃ s, Repair.sweep mode m = .ok s ∧ m.repairCasts mode = .ok s.finish ∧
      s.finish.2.DistinctNames ∧
      (∀ g ∈ s.finish.2.functions,
        (∃ f ∈ m.functions, f.name = g.name ∧ f.Corresponds (m.Goes s.copies) g) ∨
          g.name ∈ s.copies.map Prod.snd) ∧
      (s.Faithful m ↔ ¬ m.CopiesLate) := by
  obtain ⟨s, hs⟩ := hrange.exists_sweep
  obtain ⟨clones, plan, h⟩ := Repair.swept hnames hnum hclosed (hs .stops)
  exact ⟨s, hs mode, Repair.repairCasts_eq_finish (hs mode), h.distinctNames_finish,
    fun g => h.finish_cases hnum, h.faithful_iff hnames hnum⟩

/-- A function that hands its argument to another one through a cast. -/
def forwarder (name : String) (ty : Ty) (target : String) : Func :=
  .define name ⟨ty, [ty]⟩ [⟨"entry",
    [⟨0, "", ty, .call ⟨.cast (.func target) (.ptr (.func ty [ty])), ⟨ty, [ty]⟩, [.arg 0], .c⟩,
      none⟩, ⟨1, "", .void, .ret (some (.inst 0)), none⟩]⟩]

/-- A function that returns its argument. -/
def returner (name : String) (ty : Ty) : Func :=
  .define name ⟨ty, [ty]⟩ [⟨"entry", [⟨0, "", .void, .ret (some (.arg 0)), none⟩]⟩]

/-- A function with some calls of another one through casts, given by their identifiers and their
arguments, and with a counter that was set before. -/
def castsIn (calls : List (Nat × Operand)) (last : Nat) (counter : Option Nat) : Module :=
  let word : Ty := .int 32
  let callee : Operand := .cast (.func "f") (.ptr (.func word [word]))
  let body : List Instr := calls.map (fun c =>
      ⟨c.1, "", word, .call ⟨callee, ⟨word, [word]⟩, [c.2], .c⟩, none⟩) ++
    [⟨last, "", .void, .ret (some (.arg 0)), none⟩]
  ⟨"m", [], [{ Func.define "main" ⟨word, [word]⟩ [⟨"entry", body⟩] with nextId := counter },
    returner "f" (.float 32)]⟩

/-- Two calls through casts in a row, the outer one first. -/
def outerFirst : Module :=
  ⟨"m", [], [forwarder "main" (.int 32) "f", forwarder "f" (.float 32) "g", returner "g" (.int 32)]⟩

/-- The same functions, the inner call first. -/
def innerFirst : Module :=
  ⟨"m", [], [forwarder "f" (.float 32) "g", returner "g" (.int 32), forwarder "main" (.int 32) "f"]⟩

/-- If the outer call comes first, its copy is made in time. -/
theorem faithful_repairCasts_outerFirst :
    outerFirst.DistinctNames ∧ outerFirst.Numbered ∧ outerFirst.Closed ∧
    outerFirst.RepairsInRange ∧
    ∃ s, Repair.sweep .wraps outerFirst = .ok s ∧ outerFirst.repairCasts .wraps = .ok s.finish ∧
      s.copies.length = 2 ∧ s.Faithful outerFirst := by
  have hnames : outerFirst.DistinctNames := by decide +kernel
  have hnum : outerFirst.Numbered := by decide +kernel
  have hclosed : outerFirst.Closed := by decide +kernel
  have hrange : outerFirst.RepairsInRange := by decide +kernel
  have hcopies : (Repair.sweep .wraps outerFirst).toOption.any
      (fun s => s.copies.length = 2) = true := by
    decide +kernel
  obtain ⟨s, hs, hrepair, _, _, hiff⟩ :=
    faithful_repairCasts_iff hnames hnum hclosed hrange .wraps
  rw [hs] at hcopies
  exact ⟨hnames, hnum, hclosed, hrange, s, hs, hrepair, of_decide_eq_true hcopies,
    hiff.2 (by decide +kernel)⟩

/-- If the inner call comes first, the copy of its function has both the direct call and one more
for the call that was to go. Every identifier here is small, so this happens whichever way sums are
made. -/
theorem not_corresponds_repairCasts_innerFirst :
    innerFirst.DistinctNames ∧ innerFirst.Numbered ∧ innerFirst.Closed ∧ innerFirst.CopiesLate ∧
    ∃ s, (∀ mode, Repair.sweep mode innerFirst = .ok s ∧
        innerFirst.repairCasts mode = .ok s.finish) ∧
      s.copies.lookup ("f", ⟨.int 32, [.int 32]⟩) = some "f.1" ∧
      ∃ g ∈ s.finish.2.functions, g.name = "f.1" ∧
        ∀ goes, ¬ (forwarder "f" (.float 32) "g").Corresponds goes g := by
  have hbad : (Repair.sweep .stops innerFirst).toOption.any (fun s =>
      s.copies.lookup ("f", ⟨.int 32, [.int 32]⟩) = some "f.1" ∧
        s.finish.2.functions.any fun g => g.name = "f.1" ∧ g.instrs.length = 3) = true := by
    decide +kernel
  have hrange : innerFirst.RepairsInRange := by decide +kernel
  obtain ⟨s, hs⟩ := hrange.exists_sweep
  rw [hs] at hbad
  obtain ⟨hcopy, hbad⟩ := of_decide_eq_true hbad
  obtain ⟨g, hg, hthree⟩ := List.any_eq_true.1 hbad
  obtain ⟨hname, hlength⟩ := of_decide_eq_true hthree
  refine ⟨by decide +kernel, by decide +kernel, by decide +kernel, by decide +kernel, s,
    fun mode => ⟨hs mode, Repair.repairCasts_eq_finish (hs mode)⟩, hcopy, g, hg, hname,
    fun goes hcorresponds => ?_⟩
  have htwo : (forwarder "f" (.float 32) "g").instrs.length = 2 := by decide
  have hsame := hcorresponds.length_eq
  omega

end Module

end Postlink
