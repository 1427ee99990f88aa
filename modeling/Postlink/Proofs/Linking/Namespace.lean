import Postlink.Proofs.Linking.Capture

/-!
# Functions and variables after a link

Functions and variables share one namespace. A link brings in all variables of the source, and its
functions under their own names except for clashing definitions, so only a new name can be one that
a variable has. The first name tried is no variable of the destination, but variables of the source
are not looked at, and after the first try no variables are (`Module.Picks`). Whether functions and
variables stay apart is therefore decided by the numbers that clashing definitions get
(`Module.PicksApart`).
-/

namespace Postlink

namespace Module

/-- No function has the name of a variable. -/
def OneNamespace (m : Module) : Prop :=
  ∀ name ∈ m.functions.map Func.name, name ∉ m.globals.map Global.name

/-- No function of either module has the name of a variable of either module. -/
def Apart (dest src : Module) : Prop :=
  ∀ name ∈ dest.functions.map Func.name ++ src.functions.map Func.name,
    name ∉ dest.globals.map Global.name ++ src.globals.map Global.name

/-- No clashing definition gets the number of a variable of either module. -/
def PicksApart (dest src : Module) : Prop :=
  ∀ name k, dest.Clash src name → dest.Picks src name k →
    numbered name k ∉ dest.globals.map Global.name ++ src.globals.map Global.name

instance (m : Module) : Decidable m.OneNamespace :=
  inferInstanceAs (Decidable (∀ name ∈ m.functions.map Func.name, name ∉ m.globals.map Global.name))

instance (dest src : Module) : Decidable (dest.Apart src) :=
  inferInstanceAs (Decidable (∀ name ∈ dest.functions.map Func.name ++ src.functions.map Func.name,
    name ∉ dest.globals.map Global.name ++ src.globals.map Global.name))

/-- What the symbols of a link are called. -/
structure NamesLinked (dest src : Module) (ρ : String → String) (out : Module) : Prop where
  /-- Only clashing definitions take new names. -/
  other : ∀ name, ¬ dest.Clash src name → ρ name = name
  /-- They are numbered. -/
  picked : ∀ name, dest.Clash src name → ∃ k, dest.Picks src name k ∧ ρ name = numbered name k
  /-- New names are those of no function. -/
  fresh : ∀ name, dest.Clash src name → dest.func? (ρ name) = none ∧ src.func? (ρ name) = none
  /-- Functions are those of both modules. -/
  functions : ∀ name, name ∈ out.functions.map Func.name ↔
    name ∈ dest.functions.map Func.name ∨ ∃ f ∈ src.functions, ρ f.name = name
  /-- Variables are those of both modules. -/
  globals : ∀ name, name ∈ out.globals.map Global.name ↔
    name ∈ dest.globals.map Global.name ++ src.globals.map Global.name

section Variables

variable {dest dest' out : Module} {name : String}

/-- A variable is added, or it is there already. -/
theorem mem_globals_mergeGlobal {g : Global} (h : dest.mergeGlobal g = .ok dest') :
    name ∈ dest'.globals.map Global.name ↔ name ∈ dest.globals.map Global.name ∨ name = g.name := by
  unfold mergeGlobal at h
  split at h
  · cases h
    simp [addGlobal]
  · rename_i old hold
    have hname : old.name = g.name := by simpa using List.find?_some hold
    have hthere : g.name ∈ dest.globals.map Global.name := by
      rw [← hname]
      exact List.mem_map_of_mem (List.mem_of_find?_eq_some hold)
    have hsame : dest'.globals.map Global.name = dest.globals.map Global.name := by
      split at h
      · cases h
        rfl
      · split at h
        · cases h
          exact map_modifyFirst_const hold hname.symm
        · cases h
    rw [hsame]
    refine (or_iff_left_of_imp ?_).symm
    rintro rfl
    exact hthere

/-- A merge moves all variables. -/
theorem mem_globals_merge {src : Module} {gained : Nat} (h : dest.merge src = (.ok gained, out)) :
    name ∈ out.globals.map Global.name ↔
      name ∈ dest.globals.map Global.name ++ src.globals.map Global.name := by
  unfold merge at h
  split at h
  · cases h
  · rename_i mid hglobals
    have hmid : name ∈ mid.globals.map Global.name ↔
        name ∈ dest.globals.map Global.name ++ src.globals.map Global.name := by
      refine stepAll_induction (motive := fun done d => name ∈ d.globals.map Global.name ↔
        name ∈ dest.globals.map Global.name ++ done.map Global.name) (by simp) ?_ hglobals
      intro done g rest d d' _ hd hstep
      rw [mem_globals_mergeGlobal hstep, hd]
      simp [or_assoc]
    split at h
    · cases h
    · rename_i hfuncs
      cases h
      have hsame : out.globals = mid.globals := globals_of_mergeFuncs hfuncs
      rw [hsame]
      exact hmid

end Variables

/-- After functions were moved, all of them are there. -/
theorem Moved.mem_names {dest : Module} {done : List Func} {s : Module × Nat}
    (h : Moved dest done s) (name : String) : name ∈ s.1.functions.map Func.name ↔
      name ∈ dest.functions.map Func.name ∨ name ∈ done.map Func.name := by
  rw [h.functions, Func.linked, Func.map_name_merged, Func.map_name_recast, List.mem_append,
    ← Func.map_name_landed dest.functions done]
  refine or_congr_right' fun hnew => ?_
  simp only [List.mem_map, List.mem_filter]
  constructor
  · rintro ⟨f, ⟨hf, _⟩, hname⟩
    exact ⟨f, hf, hname⟩
  · rintro ⟨f, hf, rfl⟩
    refine ⟨f, ⟨hf, ?_⟩, rfl⟩
    rw [Bool.not_eq_true', List.any_eq_false]
    intro d hd hsame
    obtain ⟨d₀, hd₀, rfl⟩ := List.mem_map.1 hd
    exact hnew (List.mem_map.2 ⟨d₀, hd₀, of_decide_eq_true hsame⟩)

/-- A link takes all symbols over, under new names where definitions clash. -/
theorem exists_namesLinked {dest src out : Module} (hdest : dest.DistinctNames)
    (hsrc : src.DistinctNames) {gained : Nat} (h : dest.link src = (.ok gained, out)) :
    ∃ ρ, dest.NamesLinked src ρ out := by
  obtain ⟨src', hsettle, hmerge⟩ := link_cases h
  have hsettled := settled_respelling hsrc hsettle
  have hmoved := merge_functions hdest hsettled.names hmerge
  have hclash : ∀ name, name ∈ clashes dest src ↔ dest.Clash src name := fun _ =>
    hsettled.mem_clashes_iff hsrc
  refine ⟨dest.respelling src (clashes dest src), ?_, ?_, ?_, fun name => ?_, fun name => ?_⟩
  · intro name hnot
    exact hsettled.other name (mt (hclash name).1 hnot)
  · intro name hname
    have hdefines : dest.defines name = true := by
      obtain ⟨_, _, _, _, _, hdefines⟩ := hname
      exact hdefines
    obtain ⟨k, hk, hpicks⟩ := exists_picks src (isSome_func?_of_defines hdefines)
    refine ⟨k, hpicks, ?_⟩
    rw [respelling, if_pos ((hclash name).2 hname), hk]
  · intro name hname
    exact hsettled.fresh name ((hclash name).2 hname)
  · rw [hmoved.mem_names, hsettled.module_eq, functions_mapFuncs, List.map_map]
    exact or_congr_right List.mem_map
  · rw [mem_globals_merge hmerge, hsettled.module_eq]
    rfl

namespace NamesLinked

variable {dest src out : Module} {ρ : String → String}

theorem eq_numbered (h : dest.NamesLinked src ρ out) {name : String} {k : Nat}
    (hclash : dest.Clash src name) (hpick : dest.Picks src name k) : ρ name = numbered name k := by
  obtain ⟨j, hj, hname⟩ := h.picked name hclash
  rw [hname, hj.unique hpick]

/-- Functions under their old names are apart from all variables, so only new names decide. -/
theorem oneNamespace_iff (h : dest.NamesLinked src ρ out) (hapart : dest.Apart src) :
    out.OneNamespace ↔ dest.PicksApart src := by
  constructor
  · intro hone name k hclash hpick hglobal
    have hnew := h.eq_numbered hclash hpick
    obtain ⟨f, hf, rfl, _⟩ := hclash
    exact hone _ ((h.functions _).2 (Or.inr ⟨f, hf, hnew⟩)) ((h.globals _).2 hglobal)
  · intro hpicks name hname hglobal
    rw [h.globals] at hglobal
    rcases (h.functions name).1 hname with hold | ⟨f, hf, rfl⟩
    · exact hapart name (List.mem_append_left _ hold) hglobal
    · by_cases hclash : dest.Clash src f.name
      · obtain ⟨k, hpick, hnew⟩ := h.picked f.name hclash
        exact hpicks f.name k hclash hpick (hnew ▸ hglobal)
      · rw [h.other f.name hclash] at hglobal
        exact hapart f.name (List.mem_append_right _ (List.mem_map_of_mem hf)) hglobal

/-- New names are those of no function, so only variables decide. -/
theorem forall_taken_iff (h : dest.NamesLinked src ρ out) :
    (∀ name, dest.Clash src name → dest.taken (ρ name) = false ∧ src.taken (ρ name) = false) ↔
      dest.PicksApart src := by
  constructor
  · intro hfree name k hclash hpick hglobal
    obtain ⟨hdest, hsrc⟩ := hfree name hclash
    rw [h.eq_numbered hclash hpick, taken_eq_false_iff] at hdest hsrc
    rcases List.mem_append.1 hglobal with hglobal | hglobal
    · exact hdest.2 hglobal
    · exact hsrc.2 hglobal
  · intro hpicks name hclash
    obtain ⟨k, hpick, hnew⟩ := h.picked name hclash
    obtain ⟨hdest, hsrc⟩ := h.fresh name hclash
    have hnone := hpicks name k hclash hpick
    rw [← hnew, List.mem_append, not_or] at hnone
    exact ⟨taken_eq_false_iff.2 ⟨hdest, hnone.1⟩, taken_eq_false_iff.2 ⟨hsrc, hnone.2⟩⟩

end NamesLinked

/-- Functions and variables stay apart in a link of modules where they are apart exactly if no
clashing definition gets the number of a variable, and exactly then new names are those of no
symbol. -/
theorem oneNamespace_link_iff {dest src out : Module} (hdest : dest.DistinctNames)
    (hsrc : src.DistinctNames) (hapart : dest.Apart src) {gained : Nat}
    (h : dest.link src = (.ok gained, out)) :
    ∃ ρ, dest.NamesLinked src ρ out ∧ (out.OneNamespace ↔ dest.PicksApart src) ∧
      ((∀ name, dest.Clash src name → dest.taken (ρ name) = false ∧ src.taken (ρ name) = false) ↔
        dest.PicksApart src) := by
  obtain ⟨ρ, hlinked⟩ := exists_namesLinked hdest hsrc h
  exact ⟨ρ, hlinked, hlinked.oneNamespace_iff hapart, hlinked.forall_taken_iff⟩

/-- A program with a helper and a numbered variable. -/
def numberedProgram : Module :=
  ⟨"p", [⟨"helper.1", .int 32, some (.int 32 7), .external⟩],
    [.define "helper" ⟨.void, []⟩ [⟨"entry", [⟨0, "", .void, .ret none, none⟩]⟩]]⟩

/-- A library with a helper that it keeps to itself, and a numbered function. -/
def numberedLibrary (number : Nat) : Module :=
  let sig : Signature := ⟨.void, []⟩
  let ret : Block := ⟨"entry", [⟨0, "", .void, .ret none, none⟩]⟩
  ⟨"l", [], [{ Func.define "helper" sig [ret] with linkage := .internal },
    .define (numbered "helper" number) sig [ret],
    .define "lib" sig [⟨"entry", [⟨0, "", .void, .call ⟨.func "helper", sig, [], .c⟩, none⟩,
      ⟨1, "", .void, .ret none, none⟩]⟩]]⟩

/-- The first number is that of the variable, and the second one is free in both modules. -/
theorem oneNamespace_link_numberedLibrary :
    numberedProgram.DistinctNames ∧ (numberedLibrary 3).DistinctNames ∧
    numberedProgram.Apart (numberedLibrary 3) ∧
    ∃ gained out, numberedProgram.link (numberedLibrary 3) = (.ok gained, out) ∧
      ∃ ρ, numberedProgram.NamesLinked (numberedLibrary 3) ρ out ∧ out.OneNamespace ∧
        numberedProgram.taken (ρ "helper") = false ∧
        (numberedLibrary 3).taken (ρ "helper") = false := by
  have hprogram : numberedProgram.DistinctNames := by decide +kernel
  have hlibrary : (numberedLibrary 3).DistinctNames := by decide +kernel
  have hapart : numberedProgram.Apart (numberedLibrary 3) := by decide +kernel
  have hok : (numberedProgram.link (numberedLibrary 3)).1.isOk = true := by decide +kernel
  have hone : (numberedProgram.link (numberedLibrary 3)).2.OneNamespace := by decide +kernel
  refine ⟨hprogram, hlibrary, hapart, ?_⟩
  rcases h : numberedProgram.link (numberedLibrary 3) with ⟨gained | gained, out⟩
  · rw [h] at hok
    cases hok
  · rw [h] at hone
    obtain ⟨ρ, hlinked, hiff, hfree⟩ := oneNamespace_link_iff hprogram hlibrary hapart h
    refine ⟨gained, out, rfl, ρ, hlinked, hone, ?_⟩
    exact hfree.2 (hiff.1 hone) "helper" ⟨_, List.mem_cons_self .., rfl, rfl,
      rfl, by decide +kernel⟩

/-- The second number, the first one that is free in the program, is that of a function of the
library, and the search after it does not look at variables. -/
theorem not_oneNamespace_link_numberedLibrary :
    numberedProgram.DistinctNames ∧ (numberedLibrary 2).DistinctNames ∧
    numberedProgram.Apart (numberedLibrary 2) ∧
    (numberedProgram.link (numberedLibrary 2)).1 = .ok 3 ∧
    ((numberedProgram.link (numberedLibrary 2)).2.func? "helper.1").isSome = true ∧
    ¬ (numberedProgram.link (numberedLibrary 2)).2.OneNamespace := by
  decide +kernel

end Module

end Postlink
