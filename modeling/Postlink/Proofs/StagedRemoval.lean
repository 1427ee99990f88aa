import Postlink.Proofs.Lookup
import Mathlib.Data.Finset.Card

/-!
# Staged removal as one filter

A pass stages targets as it comes across them, in any order and possibly more than once, and some
that are not there. Carrying out the removal takes them one at a time, instructions before
functions, and looks each of them up in what the earlier ones have left. Where names and identifiers
are distinct this leaves exactly the module without the targets (`Module.without`) and counts the
different targets that were there (`Erasure.Removes`), so only the set of targets matters
(`Erasure.removes_carryOut`).
-/

namespace Postlink

/-- Steps that each take one thing away, if it is there, and count it: together they count how many
different things were there. -/
theorem foldl_count {σ τ : Type} [DecidableEq τ] (step : σ × Nat → τ → σ × Nat)
    (holds : σ → τ → Prop) [∀ s, DecidablePred (holds s)] (inv : σ → Prop)
    (hinv : ∀ s t, inv s.1 → inv (step s t).1)
    (hcount : ∀ s t, inv s.1 → (step s t).2 = s.2 + if holds s.1 t then 1 else 0)
    (hgone : ∀ s t u, inv s.1 → (holds (step s t).1 u ↔ holds s.1 u ∧ u ≠ t))
    (ts : List τ) {s : σ × Nat} (hs : inv s.1) :
    (ts.foldl step s).2 = s.2 + (ts.toFinset.filter (holds s.1)).card := by
  induction ts generalizing s with
  | nil => rfl
  | cons t ts ih =>
      -- What the later steps find is what was there, less what the first step took.
      have hrest : ts.toFinset.filter (holds (step s t).1) =
          (ts.toFinset.filter (holds s.1)).erase t := by
        ext u
        rw [Finset.mem_filter, hgone s t u hs, Finset.mem_erase, Finset.mem_filter]
        tauto
      rw [List.foldl_cons, ih (hinv s t hs), hcount s t hs, hrest, List.toFinset_cons,
        Finset.filter_insert]
      split
      · rw [← Finset.card_erase_add_one (Finset.mem_insert_self ..), Finset.erase_insert_eq_erase]
        omega
      · rename_i hnone
        rw [Finset.erase_eq_of_notMem fun hmem => hnone (Finset.mem_filter.1 hmem).2, Nat.add_zero]

/-- What a list holds decides what its images are. -/
theorem toFinset_filterMap_congr {τ α : Type} [DecidableEq α] {ts ts' : List τ} {g : τ → Option α}
    (h : ∀ t, t ∈ ts ↔ t ∈ ts') : (ts.filterMap g).toFinset = (ts'.filterMap g).toFinset := by
  ext a
  simp only [List.mem_toFinset, List.mem_filterMap, h]

namespace Erasure

/-- Something to be removed. -/
inductive Target where
  /-- An instruction of a function. -/
  | instr (function : String) (id : Nat)
  /-- A function. -/
  | func (name : String)
  deriving DecidableEq

namespace Target

/-- The instruction, if the target is one. -/
def instr? : Target → Option (String × Nat)
  | .instr function id => some (function, id)
  | .func _ => none

/-- The function, if the target is one. -/
def func? : Target → Option String
  | .instr _ _ => none
  | .func name => some name

variable {targets : List Target}

theorem mem_filterMap_instr? {target : String × Nat} :
    target ∈ targets.filterMap instr? ↔ .instr target.1 target.2 ∈ targets := by
  rw [List.mem_filterMap]
  constructor
  · rintro ⟨t, ht, heq⟩
    cases t with
    | instr function id => cases heq; exact ht
    | func name => cases heq
  · exact fun h => ⟨_, h, rfl⟩

theorem mem_filterMap_func? {name : String} :
    name ∈ targets.filterMap func? ↔ .func name ∈ targets := by
  rw [List.mem_filterMap]
  constructor
  · rintro ⟨t, ht, heq⟩
    cases t with
    | instr function id => cases heq
    | func n => cases heq; exact ht
  · exact fun h => ⟨_, h, rfl⟩

end Target

/-- Stage a target. -/
def stage (e : Erasure) : Target → Erasure
  | .instr function id => e.addInstr function id
  | .func name => e.addFunc name

/-- Stage targets one after the other, from nothing on. -/
def stageAll (targets : List Target) : Erasure := targets.foldl stage empty

/-- Instructions are staged as they come, each time that they do. -/
theorem instrs_stageAll (targets : List Target) :
    (stageAll targets).instrs = targets.filterMap Target.instr? := by
  have hrun : ∀ e : Erasure,
      (targets.foldl stage e).instrs = e.instrs ++ targets.filterMap Target.instr? := by
    induction targets with
    | nil => exact fun e => (List.append_nil _).symm
    | cons t ts ih =>
        intro e
        rw [List.foldl_cons, ih]
        cases t with
        | instr function id => exact List.append_assoc ..
        | func name => rw [stage, instrs_addFunc]; rfl
  exact hrun empty

theorem mem_instrs_stageAll {targets : List Target} {target : String × Nat} :
    target ∈ (stageAll targets).instrs ↔ .instr target.1 target.2 ∈ targets := by
  rw [instrs_stageAll, Target.mem_filterMap_instr?]

/-- Every function that comes is staged, and no other one. -/
theorem mem_functions_stageAll {targets : List Target} {name : String} :
    name ∈ (stageAll targets).functions ↔ .func name ∈ targets := by
  have hrun : ∀ e : Erasure, name ∈ (targets.foldl stage e).functions ↔
      name ∈ e.functions ∨ .func name ∈ targets := by
    induction targets with
    | nil => simp
    | cons t ts ih =>
        intro e
        rw [List.foldl_cons, ih, List.mem_cons]
        cases t with
        | instr function id => simp [stage, addInstr]
        | func n => rw [stage, mem_functions_addFunc, Target.func.injEq, or_assoc]
  rw [stageAll, hrun]
  simp [empty]

end Erasure

/-- The function without those of its instructions that are among some targets. -/
def Func.without (targets : List Erasure.Target) (f : Func) : Func :=
  { f with body := f.body.mapBlocks fun bs => bs.map fun b =>
      { b with instrs := b.instrs.filter fun i => .instr f.name i.id ∉ targets } }

/-- Clearing the staged instructions leaves the others in their blocks. -/
theorem Func.clear_stageAll (targets : List Erasure.Target) (f : Func) :
    f.clear (Erasure.stageAll targets).instrs = f.without targets := by
  have hexpand : (Blocks.expand fun i =>
      if (f.name, i.id) ∈ (Erasure.stageAll targets).instrs then [] else [i]) =
        List.map fun b =>
          { b with instrs := b.instrs.filter fun i => .instr f.name i.id ∉ targets } := by
    funext bs
    apply List.map_congr_left
    intro b _
    rw [flatMap_ite_eq_filter]
    simp only [Erasure.mem_instrs_stageAll]
  rw [clear, expand, hexpand, without]

namespace Module

/-- The module without some targets. -/
def without (targets : List Erasure.Target) (m : Module) : Module :=
  { m with
    functions := (m.functions.filter fun f => .func f.name ∉ targets).map (Func.without targets) }

/-- A function with the name has an instruction with the identifier. -/
def HasInstr (m : Module) (target : String × Nat) : Prop :=
  ∃ f ∈ m.functions, f.name = target.1 ∧ target.2 ∈ f.instrs.map Instr.id

instance (m : Module) : DecidablePred m.HasInstr := fun target =>
  inferInstanceAs (Decidable (∃ f ∈ m.functions,
    f.name = target.1 ∧ target.2 ∈ f.instrs.map Instr.id))

/-- With distinct names, an instruction is found exactly if it is there. -/
theorem DistinctNames.isSome_instr?_iff {m : Module} (h : m.DistinctNames) {target : String × Nat} :
    ((m.func? target.1).bind (Func.instr? target.2)).isSome = true ↔ m.HasInstr target := by
  rw [Option.isSome_bind, Option.any_eq_true]
  constructor
  · rintro ⟨f, hf, hsome⟩
    obtain ⟨hmem, hname⟩ := mem_of_func? hf
    obtain ⟨i, hi⟩ := Option.isSome_iff_exists.1 hsome
    refine ⟨f, hmem, hname, List.mem_map.2 ⟨i, List.mem_of_find?_eq_some hi, ?_⟩⟩
    simpa using List.find?_some hi
  · rintro ⟨f, hmem, hname, hid⟩
    obtain ⟨i, hi, hid⟩ := List.mem_map.1 hid
    obtain ⟨j, hj⟩ := Func.exists_instr?_of_mem hi
    refine ⟨f, hname ▸ h.func?_eq hmem, ?_⟩
    rw [← hid, hj]
    rfl

/-- Clearing an instruction leaves every other one. -/
theorem hasInstr_clear {m : Module} {target u : String × Nat} :
    (m.mapFuncs (Func.clear [target])).HasInstr u ↔ m.HasInstr u ∧ u ≠ target := by
  have hone : ∀ f : Func, f.name = u.1 →
      (u.2 ∈ (f.clear [target]).instrs.map Instr.id ↔ u.2 ∈ f.instrs.map
        Instr.id ∧ u ≠ target) := by
    intro f hname
    have hpair : ∀ i : Instr, i.id = u.2 → ((f.name, i.id) = target ↔ u = target) := by
      intro i hid
      rw [hname, hid]
    rw [Func.instrs_clear]
    simp only [List.mem_map, List.mem_filter, List.mem_singleton, decide_eq_true_eq]
    constructor
    · rintro ⟨i, ⟨hi, hne⟩, hid⟩
      exact ⟨⟨i, hi, hid⟩, fun h => hne ((hpair i hid).2 h)⟩
    · rintro ⟨⟨i, hi, hid⟩, hne⟩
      exact ⟨i, ⟨hi, fun h => hne ((hpair i hid).1 h)⟩, hid⟩
  constructor
  · rintro ⟨g, hg, hname, hid⟩
    obtain ⟨f, hf, rfl⟩ := List.mem_map.1 hg
    obtain ⟨hid, hne⟩ := (hone f hname).1 hid
    exact ⟨⟨f, hf, hname, hid⟩, hne⟩
  · rintro ⟨⟨f, hf, hname, hid⟩, hne⟩
    exact ⟨_, List.mem_map_of_mem hf, hname, (hone f hname).2 ⟨hid, hne⟩⟩

end Module

namespace Erasure

/-- As many instructions are counted as there were different ones to remove. -/
theorem foldl_eraseInstr_snd {m : Module} (hnames : m.DistinctNames) (hids : m.DistinctIds)
    (staged : List (String × Nat)) :
    (staged.foldl eraseInstr (m, 0)).2 = (staged.toFinset.filter m.HasInstr).card := by
  have hrun := foldl_count eraseInstr Module.HasInstr (fun m => m.DistinctNames ∧ m.DistinctIds)
    ?_ ?_ ?_ staged (s := (m, 0)) ⟨hnames, hids⟩
  · rwa [Nat.zero_add] at hrun
  · rintro s t ⟨hnames, hids⟩
    rw [eraseInstr_fst hnames hids]
    exact ⟨hnames.mapFuncs fun f => f.name_clear _, hids.clear [t]⟩
  · rintro s t ⟨hnames, _⟩
    simp only [← hnames.isSome_instr?_iff]
    unfold eraseInstr
    cases (s.1.func? t.1).bind (Func.instr? t.2) <;> rfl
  · rintro s t u ⟨hnames, hids⟩
    rw [eraseInstr_fst hnames hids]
    exact Module.hasInstr_clear

/-- As many functions are counted as there were different ones to remove. -/
theorem foldl_eraseFunc_snd {s : Module × Nat} (hnames : s.1.DistinctNames) (names : List String) :
    (names.foldl eraseFunc s).2 =
      s.2 + (names.toFinset.filter fun n => n ∈ s.1.functions.map Func.name).card := by
  refine foldl_count eraseFunc (fun m n => n ∈ m.functions.map Func.name) Module.DistinctNames
    ?_ ?_ ?_ names hnames
  · intro s name hnames
    rw [eraseFunc_fst hnames]
    exact hnames.keep _
  · intro s name _
    simp only [← Module.isSome_func?_iff]
    unfold eraseFunc
    cases s.1.func? name <;> rfl
  · intro s name u hnames
    rw [eraseFunc_fst hnames, Module.keep]
    simp only [List.mem_map, List.mem_filter, decide_eq_true_eq]
    constructor
    · rintro ⟨f, ⟨hf, hne⟩, rfl⟩
      exact ⟨⟨f, hf, rfl⟩, hne⟩
    · rintro ⟨⟨f, hf, rfl⟩, hne⟩
      exact ⟨f, ⟨hf, hne⟩, rfl⟩

/-- What removing targets from a module has to give. -/
structure Removes (targets : List Target) (m : Module) (o : Outcome) : Prop where
  /-- The targets are gone, and everything else is as it was and in the same order. -/
  module : o.module = m.without targets
  /-- Those that were there are counted once each, instructions and functions. -/
  count : o.count = ((targets.filterMap Target.instr?).toFinset.filter m.HasInstr).card +
    ((targets.filterMap Target.func?).toFinset.filter fun n => n ∈ m.functions.map Func.name).card
  /-- Nothing stays staged. -/
  left : o.left = empty

/-- Whatever was staged, in whatever order, carrying it out removes it. -/
theorem removes_stageAll {m : Module} (hnames : m.DistinctNames) (hids : m.DistinctIds)
    (targets : List Target) : Removes targets m ((stageAll targets).carryOut m) where
  module := by
    have hclear : Func.clear (stageAll targets).instrs = Func.without targets :=
      funext (Func.clear_stageAll targets)
    rw [carryOut_module hnames hids, hclear, Module.mapFuncs, Module.keep, List.filter_map]
    simp only [Function.comp_def, mem_functions_stageAll]
    rfl
  count := by
    have hfirst := foldl_eraseInstr_fst (s := (m, 0)) hnames hids (stageAll targets).instrs
    have hnames' : ((stageAll targets).instrs.foldl eraseInstr (m, 0)).1.DistinctNames := by
      rw [hfirst]
      exact hnames.mapFuncs fun f => f.name_clear _
    have hsame : ((stageAll targets).instrs.foldl eraseInstr (m, 0)).1.functions.map Func.name =
        m.functions.map Func.name := by
      rw [hfirst, Module.functions_mapFuncs, List.map_map]
      rfl
    have hstaged : (stageAll targets).functions.toFinset =
        (targets.filterMap Target.func?).toFinset := by
      ext name
      rw [List.mem_toFinset, List.mem_toFinset, mem_functions_stageAll, Target.mem_filterMap_func?]
    rw [carryOut, foldl_eraseFunc_snd hnames', foldl_eraseInstr_snd hnames hids, hsame, hstaged,
      instrs_stageAll]
  left := rfl

/-- Two removals of the same targets from a module give the same. -/
theorem Removes.unique {targets targets' : List Target} {m : Module} {o o' : Outcome}
    (h : Removes targets m o) (h' : Removes targets' m o')
    (hsame : ∀ t, t ∈ targets ↔ t ∈ targets') : o = o' := by
  have hwithout : Func.without targets = Func.without targets' := by
    funext f
    simp only [Func.without, hsame]
  have hmodule : o.module = o'.module := by
    rw [h.module, h'.module, Module.without, Module.without]
    simp only [hwithout, hsame]
  have hcount : o.count = o'.count := by
    rw [h.count, h'.count, toFinset_filterMap_congr hsame, toFinset_filterMap_congr hsame]
  have hleft : o.left = o'.left := h.left.trans h'.left.symm
  cases o
  cases o'
  simp only [Outcome.mk.injEq]
  exact ⟨hmodule, hcount, hleft⟩

/-- Where names and identifiers are distinct, staged targets are removed in one sweep: what is left
is the module without them, those that were there are counted once each, and nothing stays staged.
Their order and repetitions do not matter. -/
theorem removes_carryOut {m : Module} (hnames : m.DistinctNames) (hids : m.DistinctIds) :
    (∀ targets, Removes targets m ((stageAll targets).carryOut m)) ∧
      ∀ targets targets', (∀ t, t ∈ targets ↔ t ∈ targets') →
        (stageAll targets).carryOut m = (stageAll targets').carryOut m :=
  ⟨removes_stageAll hnames hids, fun targets targets' =>
    (removes_stageAll hnames hids targets).unique (removes_stageAll hnames hids targets')⟩

/-- A function with three instructions, one that is to go with its only instruction, and a
declaration. -/
def trio : Module :=
  let word : Ty := .int 32
  ⟨"m", [], [
    .define "main" ⟨word, [word]⟩ [
      ⟨"entry", [⟨0, "", word, .call ⟨.func "spare", ⟨word, []⟩, [], .c⟩, none⟩]⟩,
      ⟨"exit", [⟨2, "", word, .binary .add (.arg 0) (.inst 0), none⟩,
        ⟨1, "", .void, .ret (some (.inst 2)), none⟩]⟩],
    .define "spare" ⟨word, []⟩ [⟨"entry", [⟨0, "", .void, .ret none, none⟩]⟩],
    .declare "outside" ⟨word, []⟩]⟩

/-- A function and an instruction of it, an instruction twice, and targets that are not there. -/
def crossed : List Target :=
  [.func "spare", .instr "main" 2, .instr "main" 7, .instr "spare" 0, .func "absent",
    .instr "main" 2, .instr "absent" 0, .instr "outside" 0, .func "spare"]

/-- Three of the targets are there, and their order makes no difference. -/
theorem removes_carryOut_crossed :
    trio.DistinctNames ∧ trio.DistinctIds ∧
    Removes crossed trio ((stageAll crossed).carryOut trio) ∧
    ((stageAll crossed).carryOut trio).count = 3 ∧
    ((stageAll crossed).carryOut trio).module.functions.map
      (fun f => (f.name, f.instrs.map Instr.id)) = [("main", [0, 1]), ("outside", [])] ∧
    (stageAll crossed).carryOut trio = (stageAll crossed.reverse).carryOut trio := by
  have hnames : trio.DistinctNames := by decide +kernel
  have hids : trio.DistinctIds := by
    unfold Module.DistinctIds
    decide +kernel
  obtain ⟨hremoves, horder⟩ := removes_carryOut hnames hids
  exact ⟨hnames, hids, hremoves crossed, by decide +kernel, by decide +kernel,
    horder _ _ fun _ => List.mem_reverse.symm⟩

end Erasure

end Postlink
