import Postlink.Proofs.Linking.Merge
import Postlink.Proofs.Namesakes

/-!
# The names that a link defines

Two definitions of one name never meet in a link that succeeds: an internal one of the source takes
a fresh name first (`Module.Respelled`). So the destination keeps its own definitions, and gains
those of the source under the names that they then have (`Module.Gained`). Nothing here needs the
functions of either module to have distinct names.
-/

namespace Postlink

namespace Module

/-- Changes that keep names and whether there is a definition. -/
theorem defines_mapFuncs {k : Func → Func} (hname : ∀ f, (k f).name = f.name)
    (hdecl : ∀ f, (k f).isDeclared = f.isDeclared) (m : Module) (n : String) :
    (m.mapFuncs k).defines n = m.defines n := by
  rw [defines_eq_any, func?_mapFuncs hname, Option.any_map, defines_eq_any]
  simp only [hdecl]

theorem stores_mapFuncs {k : Func → Func} (hname : ∀ f, (k f).name = f.name)
    (hstored : ∀ f, (k f).isStored = f.isStored) (m : Module) (n : String) :
    (m.mapFuncs k).stores n = m.stores n := by
  rw [stores, func?_mapFuncs hname, Option.any_map, stores]
  simp only [hstored]

/-- A renaming of a source, after which none of the names that it changed is the destination's. -/
structure Respelled (dest src : Module) (ρ : String → String) : Prop where
  /-- New names are not in the destination. -/
  fresh : ∀ name, ρ name ≠ name → dest.func? (ρ name) = none
  /-- Only names change that the destination defines, and the source has for something internal. -/
  clash : ∀ name, ρ name ≠ name →
    dest.defines name = true ∧ ∃ f ∈ src.functions, f.name = name ∧ f.linkage = .internal

namespace Respelled

variable {dest src : Module} {ρ : String → String}

/-- What is internal under a name of the destination had this name all along. -/
theorem exists_internal (h : Respelled dest src ρ) {name : String}
    (hdefines : dest.defines name = true)
    (hinternal : (src.mapFuncs (Func.renameBy ρ)).isInternal name = true) :
    ∃ f ∈ src.functions, f.name = name ∧ f.linkage = .internal := by
  unfold isInternal at hinternal
  cases hg : (src.mapFuncs (Func.renameBy ρ)).func? name with
  | none => rw [hg] at hinternal; cases hinternal
  | some g =>
      rw [hg] at hinternal
      obtain ⟨hmem, hname⟩ := mem_of_func? hg
      obtain ⟨f, hf, rfl⟩ := List.mem_map.1 hmem
      have hkept : ρ f.name = f.name := by
        by_contra hchanged
        have hfresh := h.fresh f.name hchanged
        rw [show ρ f.name = name from hname] at hfresh
        have hsome := isSome_func?_of_defines hdefines
        rw [hfresh] at hsome
        cases hsome
      exact ⟨f, hf, hkept.symm.trans hname, of_decide_eq_true hinternal⟩

/-- A name of the destination that is still internal in the source takes a new one. -/
theorem rename (h : Respelled dest src ρ) {name new : String} (hdefines : dest.defines name = true)
    (hinternal : (src.mapFuncs (Func.renameBy ρ)).isInternal name = true)
    (hnew : dest.func? new = none) :
    Respelled dest src ((fun n => if n = name then new else n) ∘ ρ) := by
  refine ⟨fun n hchanged => ?_, fun n hchanged => ?_⟩
  · rw [Function.comp_apply] at hchanged ⊢
    by_cases hn : ρ n = name
    · rw [if_pos hn]
      exact hnew
    · rw [if_neg hn] at hchanged ⊢
      exact h.fresh n hchanged
  · by_cases hold : ρ n = n
    · have hn : n = name := by
        by_contra hne
        rw [Function.comp_apply, hold, if_neg hne] at hchanged
        exact hchanged rfl
      rw [hn]
      exact ⟨hdefines, h.exists_internal hdefines hinternal⟩
    · exact h.clash n hold

/-- Settling all clashes is one renaming. -/
theorem of_stepAll {src' : Module}
    (hs : stepAll dest.settleClash src (dest.clashes src) = (.ok (), src')) :
    ∃ ρ, Respelled dest src ρ ∧ src' = src.mapFuncs (Func.renameBy ρ) := by
  refine stepAll_induction
    (motive := fun _ m => ∃ ρ, Respelled dest src ρ ∧ m = src.mapFuncs (Func.renameBy ρ)) ?_ ?_ hs
  · refine ⟨fun n => n, ⟨fun _ h => absurd rfl h, fun _ h => absurd rfl h⟩, ?_⟩
    rw [mapFuncs, List.map_congr_left fun f _ => f.renameBy_self, List.map_id']
  · rintro done name rest m m' hsplit ⟨ρ, h, rfl⟩ hstep
    have hclash : name ∈ dest.clashes src := by
      rw [hsplit]
      exact List.mem_append_right _ (List.mem_cons_self ..)
    have hdefines := defines_of_mem_clashes hclash
    unfold settleClash at hstep
    split at hstep
    · rename_i hinternal
      cases hstep
      have hfresh := (freshName_isFresh dest (src.mapFuncs (Func.renameBy ρ)) name).1
      refine ⟨_, h.rename hdefines hinternal hfresh, ?_⟩
      rw [renameFunc_eq, mapFuncs, mapFuncs, mapFuncs, List.map_map]
      simp only [Function.comp_def, Func.renameBy_renameBy]
    · cases hstep

end Respelled

/-- A module that has gained definitions and kept its own. -/
structure Gained (dest : Module) (moved : List Func) (out : Module) : Prop where
  /-- The definitions are its own and those moved. -/
  defines_iff : ∀ name, out.defines name = true ↔
    dest.defines name = true ∨ ∃ f ∈ moved, f.name = name ∧ f.isDeclared = false
  /-- What it defined is stored if it was stored. -/
  stores_eq : ∀ name, dest.defines name = true → out.stores name = dest.stores name

namespace Gained

variable {dest m out : Module} {moved more : List Func}

theorem of_functions (h : m.functions = dest.functions) : Gained dest [] m := by
  have hfunc : ∀ name, m.func? name = dest.func? name := by
    intro name
    rw [func?, h, func?]
  refine ⟨fun name => ?_, fun name _ => ?_⟩
  · rw [defines, hfunc, ← defines]
    simp
  · rw [stores, hfunc, stores]

theorem trans (h : Gained dest moved m) (h' : Gained m more out) :
    Gained dest (moved ++ more) out := by
  refine ⟨fun name => ?_, fun name hname => ?_⟩
  · rw [h'.defines_iff, h.defines_iff, or_assoc]
    refine or_congr_right ?_
    constructor
    · rintro (⟨f, hf, hdef⟩ | ⟨f, hf, hdef⟩)
      · exact ⟨f, List.mem_append_left _ hf, hdef⟩
      · exact ⟨f, List.mem_append_right _ hf, hdef⟩
    · rintro ⟨f, hf, hdef⟩
      exact (List.mem_append.1 hf).imp (⟨f, ·, hdef⟩) (⟨f, ·, hdef⟩)
  · rw [h'.stores_eq name ((h.defines_iff name).2 (Or.inl hname)), h.stores_eq name hname]

/-- Casts around callees change no definition. -/
theorem castCallers (h : Gained dest moved m) (name : String) :
    Gained dest moved (m.castCallers name) := by
  unfold Module.castCallers
  split
  · exact h
  · refine ⟨fun n => ?_, fun n hn => ?_⟩
    · rw [defines_mapFuncs (fun f => f.name_mapInstrs _) (fun f => f.isDeclared_mapInstrs _)]
      exact h.defines_iff n
    · rw [stores_mapFuncs (fun f => f.name_mapInstrs _) (fun f => f.isStored_mapInstrs _)]
      exact h.stores_eq n hn

/-- A function under a name that was free. -/
theorem addFunc {f : Func} (hnew : m.func? f.name = none) : Gained m [f] (m.addFunc f) := by
  have hother : ∀ n, f.name ≠ n → (m.addFunc f).func? n = m.func? n := by
    intro n hn
    rw [func?_addFunc, if_neg hn, Option.or_none]
  have hfound : (m.addFunc f).func? f.name = some f := by
    rw [func?_addFunc, hnew, if_pos rfl, Option.none_or]
  refine ⟨fun n => ?_, fun n hn => ?_⟩
  · by_cases hname : f.name = n
    · subst hname
      simp [defines, hfound, hnew]
    · rw [defines, hother n hname, ← defines]
      simp [hname]
  · have hname : f.name ≠ n := by
      rintro rfl
      rw [defines_eq_any, hnew] at hn
      cases hn
    rw [stores, hother n hname, stores]

/-- A definition in the place of a declaration. -/
theorem modifyFunc {f old : Func} (hold : m.func? f.name = some old) (hdecl : old.isDeclared = true)
    (hdef : f.isDeclared = false) : Gained m [f] (m.modifyFunc f.name fun _ => f) := by
  refine ⟨fun n => ?_, fun n hn => ?_⟩
  · rw [defines, func?_modifyFunc hold rfl]
    by_cases hname : n = f.name
    · subst hname
      simp [hdef]
    · rw [if_neg hname, ← defines]
      simp [Ne.symm hname]
  · have hname : n ≠ f.name := by
      rintro rfl
      rw [defines_eq_any, hold, Option.any_some, hdecl] at hn
      cases hn
    rw [stores, func?_modifyFunc hold rfl, if_neg hname, stores]

/-- A declaration of something that is there. -/
theorem declare {f : Func} (hdecl : f.isDeclared = true) : Gained m [f] m := by
  refine ⟨fun n => ?_, fun _ _ => rfl⟩
  simp [hdecl]

/-- Moving a function in gains it. -/
theorem mergeFunc {s s' : Module × Nat} {f : Func} (hs : mergeFunc s f = .ok s') :
    Gained s.1 [f] s'.1 := by
  unfold Module.mergeFunc at hs
  cases hold : s.1.func? f.name with
  | none =>
      rw [hold] at hs
      cases hs
      exact addFunc hold
  | some old =>
      rw [hold] at hs
      simp only at hs
      split at hs
      · rename_i hdecl
        cases hs
        exact declare hdecl
      · rename_i hdef
        split at hs
        · cases hs
        · rename_i hdecl
          rw [Bool.not_eq_true', Bool.not_eq_false] at hdecl
          cases hs
          have hmodified := modifyFunc hold hdecl (Bool.not_eq_true _ ▸ hdef)
          split
          · exact hmodified
          · exact hmodified.castCallers f.name

/-- Linking gains the functions of the source. -/
theorem merge {src : Module} {gained : Nat} (h : dest.merge src = (.ok gained, out)) :
    Gained dest src.functions out := by
  unfold Module.merge at h
  split at h
  · cases h
  · rename_i hglobals
    split at h
    · cases h
    · rename_i hmoved
      cases h
      refine stepAll_induction (motive := fun done s => Gained dest done s.1)
        (of_functions (functions_of_mergeGlobals hglobals)) ?_ hmoved
      intro done f rest s s' _ hdone hstep
      exact hdone.trans (mergeFunc hstep)

end Gained

/-- A link that succeeds renames the source and gains its definitions. -/
theorem exists_gained {dest src out : Module} {gained : Nat}
    (h : dest.link src = (.ok gained, out)) :
    ∃ ρ, Respelled dest src ρ ∧ Gained dest (src.functions.map (Func.renameBy ρ)) out := by
  obtain ⟨src', hsettled, hmerge⟩ := link_cases h
  obtain ⟨ρ, hρ, rfl⟩ := Respelled.of_stepAll hsettled
  exact ⟨ρ, hρ, Gained.merge hmerge⟩

end Module

end Postlink
