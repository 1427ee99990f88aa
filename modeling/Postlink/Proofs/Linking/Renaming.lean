import Postlink.Proofs.Linking.FreshNames

/-!
# Settling clashes between definitions

Clashing internal definitions of a source are renamed one after the other. Together that is a single
renaming of the source (`Settled`): it leaves alone every name that does not clash, and sends the
others to names that neither module has. Names that were taken before do not matter, so it can be
read off both modules (`settled_respelling`).
-/

namespace Postlink

/-- What holds at the start and is kept by every step that succeeds holds when all have. -/
theorem stepAll_induction {σ α ε : Type} {step : σ → α → Except ε σ} {motive : List α → σ → Prop}
    {as : List α} {s t : σ} (start : motive [] s)
    (next : ∀ done a rest s s', as = done ++ a :: rest → motive done s → step s a = .ok s' →
      motive (done ++ [a]) s')
    (h : stepAll step s as = (.ok (), t)) : motive as t := by
  have hrun : ∀ done rest s, as = done ++ rest → motive done s →
      stepAll step s rest = (.ok (), t) → motive as t := by
    intro done rest
    induction rest generalizing done with
    | nil =>
        intro s hsplit hdone hs
        cases hs
        rw [hsplit, List.append_nil]
        exact hdone
    | cons a rest ih =>
        intro s hsplit hdone hs
        rw [stepAll] at hs
        cases hstep : step s a with
        | error e => rw [hstep] at hs; cases hs
        | ok s' =>
            rw [hstep] at hs
            have hnext := next done a rest s s' hsplit hdone hstep
            exact ih (done ++ [a]) s' (by simp [hsplit]) hnext hs
  exact hrun [] as s rfl start h

namespace Operand

/-- Rename functions, also below casts. -/
def renameBy (ρ : String → String) : Operand → Operand
  | .func name => .func (ρ name)
  | .cast value ty => .cast (value.renameBy ρ) ty
  | o => o

/-- Renaming one function is a renaming of all. -/
theorem rename_eq_renameBy (old new : String) :
    rename old new = renameBy fun n => if n = old then new else n := by
  funext o
  induction o with
  | cast value ty ih => simp only [rename, renameBy, ih]
  | _ => rfl

theorem renameBy_renameBy (ρ ρ' : String → String) (o : Operand) :
    (o.renameBy ρ).renameBy ρ' = o.renameBy (ρ' ∘ ρ) := by
  induction o with
  | cast value ty ih => simp only [renameBy, ih]
  | _ => rfl

@[simp] theorem renameBy_self (o : Operand) : o.renameBy (fun n => n) = o := by
  induction o with
  | cast value ty ih => simp only [renameBy, ih]
  | _ => rfl

/-- Renaming changes which function an operand names. -/
theorem func?_renameBy (ρ : String → String) (o : Operand) :
    (o.renameBy ρ).func? = o.func?.map ρ := by
  induction o with
  | cast value ty ih => exact ih
  | _ => rfl

end Operand

namespace Func

/-- Give a function and all functions that it names other names. -/
def renameBy (ρ : String → String) (f : Func) : Func :=
  { f.mapInstrs (Instr.mapOperands (Operand.renameBy ρ)) with name := ρ f.name }

@[simp] theorem name_renameBy (ρ : String → String) (f : Func) : (f.renameBy ρ).name = ρ f.name :=
  rfl

@[simp] theorem isDeclared_renameBy (ρ : String → String) (f : Func) :
    (f.renameBy ρ).isDeclared = f.isDeclared :=
  f.isDeclared_mapInstrs _

theorem renameBy_renameBy (ρ ρ' : String → String) (f : Func) :
    (f.renameBy ρ).renameBy ρ' = f.renameBy (ρ' ∘ ρ) := by
  have hinstr : Instr.mapOperands (Operand.renameBy ρ') ∘ Instr.mapOperands (Operand.renameBy ρ) =
      Instr.mapOperands (Operand.renameBy (ρ' ∘ ρ)) := by
    funext i
    rw [Function.comp_apply, Instr.mapOperands_mapOperands]
    congr 1
    funext o
    exact Operand.renameBy_renameBy ρ ρ' o
  have hbody := congrArg Func.body (mapInstrs_mapInstrs (Instr.mapOperands (Operand.renameBy ρ'))
    (Instr.mapOperands (Operand.renameBy ρ)) f)
  rw [hinstr] at hbody
  simp only [mapInstrs] at hbody
  simp only [renameBy, mapInstrs, hbody, Function.comp_apply]

@[simp] theorem renameBy_self (f : Func) : f.renameBy (fun n => n) = f := by
  have hinstr : Instr.mapOperands (Operand.renameBy fun n => n) = fun i => i := by
    funext i
    exact (Instr.mapOperands_congr fun o _ => o.renameBy_self).trans i.mapOperands_self
  rw [renameBy, hinstr, mapInstrs_self]

end Func

namespace Module

/-- Renaming one function of a module renames it everywhere. -/
theorem renameFunc_eq (old new : String) (m : Module) :
    m.renameFunc old new = m.mapFuncs (Func.renameBy fun n => if n = old then new else n) := by
  rw [renameFunc, mapFuncs, mapFuncs]
  simp only [Func.renameRefs, Operand.rename_eq_renameBy]
  rfl

/-- The names where clashes have been settled, and the renaming of the source that did it. -/
structure Settled (dest src : Module) (done : List String) (ρ : String → String) (src' : Module) :
    Prop where
  /-- The source is renamed as a whole. -/
  module_eq : src' = src.mapFuncs (Func.renameBy ρ)
  /-- Names that do not clash stay. -/
  other : ∀ name, name ∉ done → ρ name = name
  /-- New names are in neither module. -/
  fresh : ∀ name ∈ done, dest.func? (ρ name) = none ∧ src.func? (ρ name) = none
  /-- Only internal definitions take new names. -/
  internal : ∀ name ∈ done, src.isInternal name = true
  /-- Names stay distinct. -/
  names : src'.DistinctNames

/-- A clash is a definition of the source under a name that the destination defines. -/
theorem mem_clashes_iff {dest src : Module} {name : String} : name ∈ clashes dest src ↔
    ∃ f ∈ src.functions, f.name = name ∧ f.isDeclared = false ∧ dest.defines name = true := by
  simp only [clashes, List.mem_map, List.mem_filter, Bool.and_eq_true, Bool.not_eq_true']
  constructor
  · rintro ⟨f, ⟨hf, hdef, hdest⟩, rfl⟩
    exact ⟨f, hf, rfl, hdef, hdest⟩
  · rintro ⟨f, hf, rfl, hdef, hdest⟩
    exact ⟨f, ⟨hf, hdef, hdest⟩, rfl⟩

/-- A clash is with a definition of the destination. -/
theorem defines_of_mem_clashes {dest src : Module} {name : String} (h : name ∈ clashes dest src) :
    dest.defines name = true := by
  obtain ⟨_, _, _, _, hdest⟩ := mem_clashes_iff.1 h
  exact hdest

/-- When it is a clash's turn, the destination defines it and those before it, and it is none of
them. -/
theorem clashes_turn {dest src : Module} (hnames : src.DistinctNames) {done rest : List String}
    {name : String} (hsplit : clashes dest src = done ++ name :: rest) :
    name ∉ done ∧ dest.defines name = true ∧ ∀ n ∈ done, dest.defines n = true := by
  have hnodup : (clashes dest src).Nodup := hnames.sublist (List.filter_sublist.map Func.name)
  rw [hsplit, List.nodup_append] at hnodup
  refine ⟨fun hmem => hnodup.2.2 name hmem name (List.mem_cons_self ..) rfl, ?_, fun n hn => ?_⟩
  · apply defines_of_mem_clashes
    rw [hsplit]
    exact List.mem_append_right _ (List.mem_cons_self ..)
  · apply defines_of_mem_clashes
    rw [hsplit]
    exact List.mem_append_left _ hn

/-- What is defined is there. -/
theorem isSome_func?_of_defines {m : Module} {name : String} (h : m.defines name = true) :
    (m.func? name).isSome = true := by
  unfold defines at h
  cases hf : m.func? name with
  | none => rw [hf] at h; cases h
  | some f => rfl

/-- No clash is settled at the start. -/
theorem Settled.start {dest src : Module} (hnames : src.DistinctNames) :
    Settled dest src [] (fun n => n) src := by
  refine ⟨?_, fun _ _ => rfl, ?_, ?_, hnames⟩
  · rw [mapFuncs, List.map_congr_left fun f _ => f.renameBy_self, List.map_id']
  · intro name h
    cases h
  · intro name h
    cases h

/-- A name of the destination stands for itself in a source where other clashes are settled. -/
theorem Settled.eq_of_renamed {dest src src' : Module} {done : List String} {ρ : String → String}
    (h : Settled dest src done ρ src') {name name' : String}
    (hdest : (dest.func? name).isSome = true) (hρ : ρ name' = name) : name' = name := by
  by_cases hdone : name' ∈ done
  · have hfresh := (h.fresh name' hdone).1
    rw [hρ] at hfresh
    rw [hfresh] at hdest
    cases hdest
  · rwa [h.other name' hdone] at hρ

/-- A name of the destination is internal in the source before and after. -/
theorem Settled.isInternal {dest src src' : Module} {done : List String} {ρ : String → String}
    (hnames : src.DistinctNames) (h : Settled dest src done ρ src') {name : String}
    (hdest : (dest.func? name).isSome = true) (hinternal : src'.isInternal name = true) :
    src.isInternal name = true := by
  unfold Module.isInternal at hinternal
  split at hinternal
  · rename_i g hg
    obtain ⟨hgmem, hgname⟩ := mem_of_func? hg
    rw [h.module_eq] at hgmem
    obtain ⟨f, hf, rfl⟩ := List.mem_map.1 hgmem
    have hfname : f.name = name := h.eq_of_renamed hdest hgname
    rw [Module.isInternal, hnames.func?_eq_some_iff.2 ⟨hf, hfname⟩]
    exact hinternal
  · cases hinternal

/-- A name that is new while clashes are settled was new before. -/
theorem Settled.func?_eq_none {dest src src' : Module} {done : List String} {ρ : String → String}
    (h : Settled dest src done ρ src') (hdone : ∀ name ∈ done, dest.defines name = true)
    {new : String} (hdest : dest.func? new = none) (hsrc : src'.func? new = none) :
    src.func? new = none := by
  have hkept : ρ new = new := by
    apply h.other
    intro hmem
    have hsome := isSome_func?_of_defines (hdone new hmem)
    rw [hdest] at hsome
    cases hsome
  rw [func?_eq_none_iff] at hsrc ⊢
  intro f hf hsame
  refine hsrc (f.renameBy ρ) ?_ ?_
  · rw [h.module_eq]
    exact List.mem_map_of_mem hf
  · rw [Func.name_renameBy, hsame, hkept]

/-- Giving one function a new name keeps names distinct. -/
theorem DistinctNames.renameFunc {m : Module} (h : m.DistinctNames) (old : String) {new : String}
    (hnew : m.func? new = none) : (m.renameFunc old new).DistinctNames := by
  let step : String → String := fun n => if n = old then new else n
  have hne : ∀ a ∈ m.functions.map Func.name, a ≠ new := by
    rintro a ha rfl
    rw [← isSome_func?_iff, hnew] at ha
    cases ha
  have hinj : ∀ a ∈ m.functions.map Func.name, ∀ b ∈ m.functions.map Func.name,
      step a = step b → a = b := by
    intro a ha b hb hab
    simp only [step] at hab
    split at hab <;> split at hab
    · rename_i hold hold'
      rw [hold, hold']
    · exact absurd hab.symm (hne b hb)
    · exact absurd hab (hne a ha)
    · exact hab
  have hcomp : Func.name ∘ Func.renameBy step = step ∘ Func.name := rfl
  rw [DistinctNames, renameFunc_eq, functions_mapFuncs, List.map_map, hcomp, ← List.map_map]
  exact List.Nodup.map_on hinj h

/-- Settling one more clash. -/
theorem Settled.rename {dest src src' : Module} {done : List String} {ρ : String → String}
    (hnames : src.DistinctNames) (h : Settled dest src done ρ src')
    (hdone : ∀ name ∈ done, dest.defines name = true) {name new : String} (hname : name ∉ done)
    (hclash : dest.defines name = true) (hinternal : src'.isInternal name = true)
    (hdest : dest.func? new = none) (hsrc : src'.func? new = none) :
    Settled dest src (done ++ [name]) ((fun n => if n = name then new else n) ∘ ρ)
      (src'.renameFunc name new) := by
  have hthere := isSome_func?_of_defines hclash
  refine ⟨?_, ?_, ?_, ?_, h.names.renameFunc name hsrc⟩
  · rw [renameFunc_eq, h.module_eq]
    simp only [mapFuncs, List.map_map]
    congr 1
    exact List.map_congr_left fun f _ => f.renameBy_renameBy ρ _
  · intro n hn
    rw [List.mem_append, List.mem_singleton, not_or] at hn
    rw [Function.comp_apply, h.other n hn.1]
    exact if_neg hn.2
  · intro n hn
    rw [Function.comp_apply]
    rcases List.mem_append.1 hn with hn | hn
    · have hne : ρ n ≠ name := by
        intro hsame
        have hold := (h.fresh n hn).1
        rw [hsame] at hold
        rw [hold] at hthere
        cases hthere
      rw [if_neg hne]
      exact h.fresh n hn
    · rw [List.mem_singleton] at hn
      rw [hn, h.other name hname, if_pos rfl]
      exact ⟨hdest, h.func?_eq_none hdone hdest hsrc⟩
  · intro n hn
    rcases List.mem_append.1 hn with hn | hn
    · exact h.internal n hn
    · rw [List.mem_singleton] at hn
      rw [hn]
      exact h.isInternal hnames hthere hinternal

/-- The renaming that gives some clashing definitions their new names. -/
def respelling (dest src : Module) (done : List String) (name : String) : String :=
  if name ∈ done then freshName dest src name else name

/-- Definitions that were renamed before are not in the way of another one. -/
theorem Settled.freshName_eq {dest src src' : Module} {done : List String}
    (h : Settled dest src done (dest.respelling src done) src')
    (hdone : ∀ name ∈ done, dest.defines name = true) {name : String} (hname : name ∉ done)
    (hclash : dest.defines name = true) : freshName dest src' name = freshName dest src name := by
  have hthere := isSome_func?_of_defines hclash
  have hsame : ∀ k, dest.func? (numbered name k) = none →
      (src'.func? (numbered name k) = none ↔ src.func? (numbered name k) = none) := by
    intro k hnew
    refine ⟨h.func?_eq_none hdone hnew, fun hsrc => ?_⟩
    rw [func?_eq_none_iff] at hsrc ⊢
    intro g hg hgname
    rw [h.module_eq] at hg
    obtain ⟨f, hf, rfl⟩ := List.mem_map.1 hg
    rw [Func.name_renameBy, respelling] at hgname
    split at hgname
    · rename_i hmem
      -- The number would belong to another base.
      obtain ⟨j, hfresh, _⟩ := exists_picks src (isSome_func?_of_defines (hdone f.name hmem))
      rw [base_eq_of_numbered_eq (hfresh.symm.trans hgname)] at hmem
      exact hname hmem
    · exact hsrc f hf hgname
  obtain ⟨k, hk, hpick⟩ := exists_picks src' hthere
  obtain ⟨j, hj, hpick'⟩ := exists_picks src hthere
  rw [hk, hj, (hpick.congr hsame).unique hpick']

/-- Settling all clashes gives each definition the name that it would take alone. -/
theorem settled_respelling {dest src src' : Module} (hnames : src.DistinctNames)
    (hs : stepAll (settleClash dest) src (clashes dest src) = (.ok (), src')) :
    Settled dest src (clashes dest src) (dest.respelling src (clashes dest src)) src' := by
  refine stepAll_induction
    (motive := fun done s => Settled dest src done (dest.respelling src done) s) ?_ ?_ hs
  · have hself : dest.respelling src [] = fun n => n := funext fun n => if_neg List.not_mem_nil
    rw [hself]
    exact Settled.start hnames
  · intro done name rest s s' hsplit h hstep
    obtain ⟨hnew, hdefines, hdone⟩ := clashes_turn hnames hsplit
    unfold settleClash at hstep
    split at hstep
    · rename_i hinternal
      cases hstep
      obtain ⟨hdest, hsrc⟩ := freshName_isFresh dest s name
      have hnext := h.rename hnames hdone hnew hdefines hinternal hdest hsrc
      have hsame : (fun n => if n = name then freshName dest s name else n) ∘
          dest.respelling src done = dest.respelling src (done ++ [name]) := by
        funext n
        rw [h.freshName_eq hdone hnew hdefines, Function.comp_apply]
        by_cases hn : n = name
        · rw [hn, h.other name hnew, if_pos rfl, respelling, if_pos (by simp)]
        · by_cases hmem : n ∈ done
          · have hne : dest.respelling src done n ≠ name := fun heq =>
              hn (h.eq_of_renamed (isSome_func?_of_defines hdefines) heq)
            rw [if_neg hne, respelling, if_pos hmem, respelling,
              if_pos (List.mem_append_left _ hmem)]
          · rw [h.other n hmem, if_neg hn, respelling, if_neg (by simp [hmem, hn])]
      rwa [hsame] at hnext
    · cases hstep

/-- Settling all clashes renames the source as a whole. -/
theorem exists_settled {dest src src' : Module} (hnames : src.DistinctNames)
    (hs : stepAll (settleClash dest) src (clashes dest src) = (.ok (), src')) :
    ∃ ρ, Settled dest src (clashes dest src) ρ src' :=
  ⟨_, settled_respelling hnames hs⟩

end Module

end Postlink
