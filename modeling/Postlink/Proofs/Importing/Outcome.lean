import Postlink.Importing
import Postlink.Proofs.Demand.Closure
import Postlink.Proofs.Linking.Merge

/-!
# What an import amounts to

After the walk, the library keeps the definitions that were reached and the functions that their
bodies name (`Kept`). These are all decoded and moved into the program, some under new names. Up to
conventions and casts around callees, that determines the result (`Imported`, `exists_imported`).
-/

namespace Postlink

namespace Func

@[simp] theorem skeleton_neutral (f : Func) : f.neutral.skeleton = f.skeleton := f.plain_plain _ _

theorem skeleton_congr {f g : Func} (h : f.neutral = g.neutral) : f.skeleton = g.skeleton := by
  rw [← f.skeleton_neutral, h, g.skeleton_neutral]

/-- Which functions a body names does not depend on conventions. -/
theorem mentions_congr {f g : Func} (h : f.neutral = g.neutral) (name : String) :
    f.Mentions name ↔ g.Mentions name := by
  rw [← f.mentions_skeleton, skeleton_congr h, g.mentions_skeleton]

/-- A body that is not loaded names nothing. -/
theorem not_mentions {f : Func} (h : f.isDeclared = true ∨ f.isStored = true) (name : String) :
    ¬ f.Mentions name := by
  rintro ⟨o, ho, _⟩
  rw [isDeclared, isStored] at h
  cases hb : f.body with
  | declared => simp [operands, instrs, blocks, hb, Body.blocks, Blocks.instrs] at ho
  | stored s => simp [operands, instrs, blocks, hb, Body.blocks, Blocks.instrs] at ho
  | loaded bs => simp [hb, Body.isDeclared, Body.isStored] at h

end Func

/-- Loading all functions decodes all of them. -/
theorem loadEach_eq {fs gs : List Func} (h : loadEach fs = (.ok (), gs)) :
    gs = fs.map Func.opened := by
  induction fs generalizing gs with
  | nil =>
      cases h
      rfl
  | cons f fs ih =>
      rw [loadEach] at h
      cases hload : f.load with
      | error e => rw [hload] at h; cases h
      | ok g =>
          simp only [hload, Prod.mk.injEq] at h
          obtain ⟨hok, rfl⟩ := h
          have hrest : loadEach fs = (.ok (), (loadEach fs).2) := Prod.ext hok rfl
          rw [ih hrest, List.map_cons, Func.opened_of_load hload]

namespace Module

/-- A module after all its functions have been decoded. -/
theorem functions_of_loadAll {m m' : Module} (h : m.loadAll = (.ok (), m')) :
    m'.functions = m.functions.map Func.opened := by
  rw [loadAll, Prod.mk.injEq] at h
  obtain ⟨hok, rfl⟩ := h
  exact loadEach_eq (Prod.ext hok rfl)

/-- An import walks, decodes what is left of the library, and links it. -/
theorem importFrom_eq_ok {program library out : Module} {stats : ImportStats}
    (h : program.importFrom library = .ok (stats, out)) :
    ∃ d src, (Demand.start program library).walk (program.functions.map Func.name) = .ok d ∧
      stats.loaded = d.loaded ∧ d.library.dropUnused.loadAll = (.ok (), src) ∧
      d.program.link src = (.ok stats.linked, out) := by
  unfold importFrom at h
  split at h
  · cases h
  · rename_i d hwalk
    split at h
    · cases h
    · rename_i src hload
      split at h
      · cases h
      · rename_i hlink
        cases h
        exact ⟨d, src, hwalk, rfl, hload, hlink⟩

/-- The body of one function names another, possibly below casts. -/
def Mentions (m : Module) (holder name : String) : Prop :=
  ∃ f ∈ m.functions, f.name = holder ∧ f.opened.Mentions name

/-- Where names are distinct, removing functions by name leaves those of other names. -/
theorem DistinctNames.foldl_eraseFunc {m : Module} (h : m.DistinctNames) (names : List String) :
    (names.foldl (fun m name => m.eraseFunc name) m).functions =
      m.functions.filter fun f => f.name ∉ names := by
  induction names generalizing m with
  | nil => simp
  | cons name names ih =>
      have hdistinct : (m.eraseFunc name).DistinctNames := by
        rw [DistinctNames, h.eraseFunc_functions]
        exact List.Nodup.sublist (List.filter_sublist.map _) h
      rw [List.foldl_cons, ih hdistinct, h.eraseFunc_functions, List.filter_filter]
      apply List.filter_congr
      intro f _
      by_cases hname : f.name = name <;> simp [hname]

/-- A name has no uses if no body names it. -/
theorem useCount_eq_zero_iff {m : Module} {name : String} :
    m.useCount name = 0 ↔ ∀ f ∈ m.functions, ¬ f.Mentions name := by
  simp only [useCount, List.countP_eq_zero, List.mem_flatMap, Func.Mentions, decide_eq_true_eq]
  constructor
  · rintro h f hf ⟨o, ho, hname⟩
    exact h o ⟨f, hf, ho⟩ hname
  · rintro h o ⟨f, hf, ho⟩ hname
    exact h f hf ⟨o, ho, hname⟩

/-- What is unused has no loaded body and no body names it. -/
theorem mem_unused_iff {m : Module} (h : m.DistinctNames) {f : Func} (hf : f ∈ m.functions) :
    f.name ∈ m.unused ↔
      (f.isDeclared = true ∨ f.isStored = true) ∧ ∀ g ∈ m.functions, ¬ g.Mentions f.name := by
  rw [← useCount_eq_zero_iff]
  simp only [unused, List.mem_map, List.mem_filter, Bool.and_eq_true, Bool.or_eq_true, beq_iff_eq]
  constructor
  · rintro ⟨g, ⟨hg, hbody, hcount⟩, hname⟩
    have hsame : g = f := List.inj_on_of_nodup_map h hg hf hname
    rw [hsame] at hbody hcount
    exact ⟨hbody, hcount⟩
  · rintro ⟨hbody, hcount⟩
    exact ⟨f, ⟨hf, hbody, hcount⟩, rfl⟩

end Module

/-- The library functions that an import keeps: those reached, and those that their bodies name. -/
def Kept (program library : Module) (name : String) : Prop :=
  Reached program library name ∨
    ∃ holder, Reached program library holder ∧ library.Mentions holder name

/-- What an import moves, under which names, and what that gives. -/
structure Imported (program library : Module) (moved : List Func) (ρ : String → String)
    (out : Module) : Prop where
  /-- What is moved comes from the library. -/
  sublist : moved.Sublist library.functions
  /-- It is what an import keeps. -/
  mem_iff : ∀ f ∈ library.functions, f ∈ moved ↔ Kept program library f.name
  /-- Names stay unless both modules define them. -/
  other : ∀ name, ρ name ≠ name → program.defines name = true ∧
    ∃ f ∈ moved, f.name = name ∧ f.isDeclared = false ∧ f.linkage = .internal
  /-- Names that both modules define change, and new names are in neither. -/
  fresh : ∀ f ∈ moved, f.isDeclared = false → program.defines f.name = true →
    program.func? (ρ f.name) = none ∧ ∀ g ∈ moved, g.name ≠ ρ f.name
  /-- Names stay distinct. -/
  distinct : (moved.map fun f => ρ f.name).Nodup
  /-- The functions of the result. -/
  functions : out.functions.map Func.skeleton =
    (Func.merged program.functions (moved.map fun f => f.opened.renameBy ρ)).map Func.skeleton

section Import

variable {program library : Module} {d : Demand} {pending : List Request}

/-- A function of the library as the walk left it. -/
theorem Demand.Explored.exists_library (h : Demand.Explored program library d pending) {f : Func}
    (hf : f ∈ library.functions) : ∃ g ∈ d.library.functions, g.neutral = (d.view f).neutral := by
  have hmem : (d.view f).neutral ∈ library.functions.map fun f => (d.view f).neutral :=
    List.mem_map_of_mem hf
  rw [← h.library_neutral] at hmem
  obtain ⟨g, hg, hneutral⟩ := List.mem_map.1 hmem
  exact ⟨g, hg, hneutral⟩

/-- A library function during a walk comes from one of the library. -/
theorem Demand.Explored.exists_origin (h : Demand.Explored program library d pending) {g : Func}
    (hg : g ∈ d.library.functions) : ∃ f ∈ library.functions, g.neutral = (d.view f).neutral := by
  have hmem : g.neutral ∈ d.library.functions.map Func.neutral := List.mem_map_of_mem hg
  rw [h.library_neutral] at hmem
  obtain ⟨f, hf, hneutral⟩ := List.mem_map.1 hmem
  exact ⟨f, hf, hneutral.symm⟩

variable (harchived : library.Archived)
  (hvisited : ∀ name, (Side.library, name) ∈ d.visited ↔ Reached program library name)

include harchived hvisited

/-- After the walk exactly the bodies of what was reached are loaded. -/
theorem Demand.isDeclared_or_isStored_view_iff {f : Func} (hf : f ∈ library.functions)
    (hdef : Reached program library f.name → f.isDeclared = false) :
    (d.view f).isDeclared = true ∨ (d.view f).isStored = true ↔
    ¬ Reached program library f.name := by
  constructor
  · intro hbody hreached
    rw [Demand.view_of_mem ((hvisited _).2 hreached)] at hbody
    rcases hbody with hbody | hbody
    · rw [Func.isDeclared_opened, hdef hreached] at hbody
      cases hbody
    · obtain ⟨g, hload⟩ := harchived.exists_load hf (hdef hreached)
      rw [Func.opened_of_load hload, Func.isStored_load hload] at hbody
      cases hbody
  · intro hnot
    rw [Demand.view_of_not_mem fun hv => hnot ((hvisited _).1 hv)]
    exact (harchived f hf).imp_right And.left

/-- After the walk the loaded bodies name what the bodies of the definitions reached name. -/
theorem Demand.Explored.mentions_iff (h : Demand.Explored program library d pending)
    (name : String) : (∃ g ∈ d.library.functions, g.Mentions name) ↔
      ∃ holder, Reached program library holder ∧ library.Mentions holder name := by
  constructor
  · rintro ⟨g, hg, hname⟩
    obtain ⟨f, hf, hneutral⟩ := h.exists_origin hg
    rw [Func.mentions_congr hneutral] at hname
    by_cases hv : (Side.library, f.name) ∈ d.visited
    · rw [Demand.view_of_mem hv] at hname
      exact ⟨f.name, (hvisited _).1 hv, f, hf, rfl, hname⟩
    · rw [Demand.view_of_not_mem hv] at hname
      exact absurd hname (Func.not_mentions ((harchived f hf).imp_right And.left) name)
  · rintro ⟨_, hreached, f, hf, rfl, hname⟩
    obtain ⟨g, hg, hneutral⟩ := h.exists_library hf
    rw [Demand.view_of_mem ((hvisited _).2 hreached)] at hneutral
    exact ⟨g, hg, (Func.mentions_congr hneutral name).2 hname⟩

/-- What is dropped is what an import does not keep. -/
theorem Demand.Explored.mem_unused_iff (h : Demand.Explored program library d pending)
    (hnames : library.DistinctNames) {f : Func} (hf : f ∈ library.functions) :
    f.name ∈ d.library.unused ↔ ¬ Kept program library f.name := by
  obtain ⟨g, hg, hneutral⟩ := h.exists_library hf
  have hname : g.name = f.name := by
    rw [← g.name_neutral, hneutral, Func.name_neutral, d.name_view]
  have hdef : Reached program library f.name → f.isDeclared = false := by
    intro hreached
    have hdefines : library.defines f.name = true := by cases hreached <;> assumption
    obtain ⟨f', hf', hdecl⟩ := Module.defines_iff.1 hdefines
    rw [hnames.func?_eq hf] at hf'
    cases hf'
    exact hdecl
  have hbody : g.isDeclared = true ∨ g.isStored = true ↔ ¬ Reached program library f.name := by
    rw [← g.isDeclared_neutral, ← g.isStored_neutral, hneutral, Func.isDeclared_neutral,
      Func.isStored_neutral]
    exact isDeclared_or_isStored_view_iff harchived hvisited hf hdef
  rw [← hname, Module.mem_unused_iff (h.library_distinctNames hnames) hg, hbody, hname,
    Kept, not_or, ← h.mentions_iff harchived hvisited]
  push Not
  rfl

end Import

/-- What is left of the library when it is linked, function by function. -/
theorem Demand.Explored.map_neutral_loadAll {program library : Module} {d : Demand}
    {pending : List Request} (h : Demand.Explored program library d pending)
    (hnames : library.DistinctNames) {lib : Module}
    (hload : d.library.dropUnused.loadAll = (.ok (), lib)) :
    lib.functions.map Func.neutral =
      (library.functions.filter fun f => f.name ∉ d.library.unused).map fun f =>
        f.opened.neutral := by
  have hdropped := (h.library_distinctNames hnames).foldl_eraseFunc d.library.unused
  have hfuncs := Module.functions_of_loadAll hload
  -- Both the filter and the decoding can be read off the neutral functions.
  have hpush : ∀ fs : List Func,
      (fs.filter fun f => f.name ∉ d.library.unused).map (fun f => f.opened.neutral) =
        ((fs.map Func.neutral).filter fun f => f.name ∉ d.library.unused).map
          fun f => f.opened.neutral := by
    intro fs
    rw [List.filter_map, List.map_map]
    refine List.map_congr_left fun f _ => ?_
    exact Func.neutral_opened_congr f.neutral_neutral.symm
  have hview : ∀ f, (d.view f).opened.neutral = f.opened.neutral := by
    intro f
    unfold Demand.view
    split
    · rw [Func.opened_opened]
    · rfl
  have hlist : (library.functions.map d.view).map Func.neutral =
      d.library.functions.map Func.neutral := by
    rw [h.library_neutral, List.map_map]
    rfl
  rw [hfuncs, Module.dropUnused, hdropped, List.map_map]
  change (d.library.functions.filter fun f => f.name ∉ d.library.unused).map
    (fun f => f.opened.neutral) = _
  rw [hpush, ← hlist, ← hpush, List.filter_map, List.map_map]
  simp only [Function.comp_def, hview, d.name_view]

section Clashes

variable {dest dest' src src' : Module} {moved : List Func} {ρ : String → String}
  (hdest : dest.functions.map Func.neutral = dest'.functions.map Func.neutral)
  (hsrc : src.functions.map Func.neutral = moved.map fun f => f.opened.neutral)

include hsrc

/-- Each function of a source stands for one that is moved. -/
theorem exists_moved {g : Func} (hg : g ∈ src.functions) :
    ∃ f ∈ moved, f.name = g.name ∧ f.isDeclared = g.isDeclared ∧ f.linkage = g.linkage := by
  have hmem : g.neutral ∈ src.functions.map Func.neutral := List.mem_map_of_mem hg
  rw [hsrc] at hmem
  obtain ⟨f, hf, hneutral⟩ := List.mem_map.1 hmem
  refine ⟨f, hf, ?_, ?_, ?_⟩
  · rw [← f.name_opened, ← Func.name_neutral, hneutral, Func.name_neutral]
  · rw [← f.isDeclared_opened, ← Func.isDeclared_neutral, hneutral, Func.isDeclared_neutral]
  · rw [← f.linkage_opened, ← Func.linkage_neutral, hneutral, Func.linkage_neutral]

/-- A function that was moved comes from one of the source. -/
theorem exists_source {f : Func} (hf : f ∈ moved) :
    ∃ g ∈ src.functions, g.name = f.name ∧ g.isDeclared = f.isDeclared := by
  have hmem : f.opened.neutral ∈ moved.map fun f => f.opened.neutral := List.mem_map_of_mem hf
  rw [← hsrc] at hmem
  obtain ⟨g, hg, hneutral⟩ := List.mem_map.1 hmem
  refine ⟨g, hg, ?_, ?_⟩
  · rw [← g.name_neutral, hneutral, Func.name_neutral, Func.name_opened]
  · rw [← g.isDeclared_neutral, hneutral, Func.isDeclared_neutral, Func.isDeclared_opened]

/-- Functions are moved in order, with their names at that time. -/
theorem map_name_moved : src.functions.map Func.name = moved.map Func.name := by
  have hmap := congrArg (List.map Func.name) hsrc
  simpa only [List.map_map, Function.comp_def, Func.name_neutral, Func.name_opened] using hmap

include hdest

/-- Clashes, seen on what is moved. -/
theorem mem_clashes_iff_of_neutral {name : String} : name ∈ dest.clashes src ↔
    dest'.defines name = true ∧ ∃ f ∈ moved, f.name = name ∧ f.isDeclared = false := by
  have hdefines : dest.defines name = dest'.defines name :=
    (Module.defines_congr (fun f => rfl) (fun f => rfl) hdest name).2
  rw [Module.mem_clashes_iff, ← hdefines]
  constructor
  · rintro ⟨g, hg, rfl, hdef, hclash⟩
    obtain ⟨f, hf, hname, hdecl, _⟩ := exists_moved hsrc hg
    exact ⟨hclash, f, hf, hname, hdecl.trans hdef⟩
  · rintro ⟨hclash, f, hf, rfl, hdef⟩
    obtain ⟨g, hg, hname, hdecl⟩ := exists_source hsrc hf
    exact ⟨g, hg, hname, hdecl.trans hdef, hclash⟩

/-- Names change only where both modules define them, and the source's definition is internal. -/
theorem settled_other (hnames : src.DistinctNames)
    (h : Module.Settled dest src (dest.clashes src) ρ src') {name : String}
    (hchanged : ρ name ≠ name) : dest'.defines name = true ∧
      ∃ f ∈ moved, f.name = name ∧ f.isDeclared = false ∧ f.linkage = .internal := by
  have hclash : name ∈ dest.clashes src := by
    by_contra hnot
    exact hchanged (h.other name hnot)
  obtain ⟨hdefines, f, hf, hname, hdef⟩ := (mem_clashes_iff_of_neutral hdest hsrc).1 hclash
  have hinternal := h.internal name hclash
  unfold Module.isInternal at hinternal
  split at hinternal
  · rename_i g hg
    obtain ⟨hgmem, hgname⟩ := Module.mem_of_func? hg
    obtain ⟨f', hf', hname', _, hlinkage⟩ := exists_moved hsrc hgmem
    have hdistinct : (moved.map Func.name).Nodup := map_name_moved hsrc ▸ hnames
    have hsame : f' = f :=
      List.inj_on_of_nodup_map hdistinct hf' hf ((hname'.trans hgname).trans hname.symm)
    rw [hsame] at hlinkage
    exact ⟨hdefines, f, hf, hname, hdef, hlinkage.trans (of_decide_eq_true hinternal)⟩
  · cases hinternal

/-- New names are in neither module. -/
theorem settled_fresh (h : Module.Settled dest src (dest.clashes src) ρ src') {f : Func}
    (hf : f ∈ moved) (hdef : f.isDeclared = false) (hdefines : dest'.defines f.name = true) :
    dest'.func? (ρ f.name) = none ∧ ∀ g ∈ moved, g.name ≠ ρ f.name := by
  have hclash := (mem_clashes_iff_of_neutral hdest hsrc).2 ⟨hdefines, f, hf, rfl, hdef⟩
  obtain ⟨hfreshDest, hfreshSrc⟩ := h.fresh _ hclash
  refine ⟨?_, ?_⟩
  · have hlook := (Module.defines_congr (fun f => rfl) (fun f => rfl) hdest (ρ f.name)).1
    rw [hfreshDest, Option.map_none, eq_comm, Option.map_eq_none_iff] at hlook
    exact hlook
  · intro g hg hname
    obtain ⟨g', hg', hname', _⟩ := exists_source hsrc hg
    exact Module.func?_eq_none_iff.1 hfreshSrc g' hg' (hname'.trans hname)

end Clashes

/-- What is left of the library has distinct names. -/
theorem Demand.Explored.distinctNames_loadAll {program library : Module} {d : Demand}
    {pending : List Request} (h : Demand.Explored program library d pending)
    (hlibrary : library.DistinctNames) {lib : Module}
    (hload : d.library.dropUnused.loadAll = (.ok (), lib)) : lib.DistinctNames := by
  rw [Module.DistinctNames, map_name_moved (h.map_neutral_loadAll hlibrary hload)]
  exact List.Nodup.sublist (List.filter_sublist.map _) hlibrary

/-- Linking what a walk has left of the library moves what an import keeps, under names that stay
distinct. -/
theorem Demand.Explored.imported {program library out lib src' : Module} {d : Demand}
    {ρ : String → String} {gained : Nat} (hd : Demand.Explored program library d [])
    (hvisited : ∀ name, (Side.library, name) ∈ d.visited ↔ Reached program library name)
    (hlibrary : library.DistinctNames) (harchived : library.Archived)
    (hload : d.library.dropUnused.loadAll = (.ok (), lib))
    (hsettled : Module.Settled d.program lib (d.program.clashes lib) ρ src')
    (hout : Module.Moved d.program src'.functions (out, gained)) :
    Imported program library (library.functions.filter fun f => f.name ∉ d.library.unused) ρ
    out := by
  have hsrc := hd.map_neutral_loadAll hlibrary hload
  have hlib := hd.distinctNames_loadAll hlibrary hload
  refine ⟨List.filter_sublist, ?_, ?_, ?_, ?_, ?_⟩
  · intro f hf
    rw [List.mem_filter, decide_eq_true_iff, hd.mem_unused_iff harchived hvisited hlibrary hf,
      not_not]
    exact and_iff_right hf
  · intro name hchanged
    exact settled_other hd.program_neutral hsrc hlib hsettled hchanged
  · intro f hf hdef hdefines
    exact settled_fresh hd.program_neutral hsrc hsettled hf hdef hdefines
  · have hnames := hsettled.names
    rw [hsettled.module_eq, Module.DistinctNames, Module.functions_mapFuncs, List.map_map] at hnames
    have hcomp : Func.name ∘ Func.renameBy ρ = ρ ∘ Func.name := rfl
    rw [hcomp, ← List.map_map, map_name_moved hsrc, List.map_map] at hnames
    exact hnames
  · have hprog : d.program.functions.map Func.skeleton = program.functions.map Func.skeleton := by
      have hmap := congrArg (List.map Func.skeleton) hd.program_neutral
      simpa only [List.map_map, Function.comp_def, Func.skeleton_neutral] using hmap
    have hsrc' : src'.functions.map Func.skeleton =
        ((library.functions.filter fun f => f.name ∉ d.library.unused).map fun f =>
          f.opened.renameBy ρ).map Func.skeleton := by
      have hmap := congrArg (List.map fun f => f.skeleton.renameBy ρ) hsrc
      simp only [List.map_map, Function.comp_def, Func.skeleton_neutral] at hmap
      rw [hsettled.module_eq, Module.functions_mapFuncs, List.map_map, List.map_map]
      simpa only [Function.comp_def, Func.skeleton_renameBy] using hmap
    rw [hout.skeletons, Func.map_skeleton_merged, Func.map_skeleton_merged, hprog, hsrc']

/-- A successful import moves what it keeps, under names that stay distinct. -/
theorem exists_imported {program library out : Module} (hloaded : program.isLoaded = true)
    (hprogram : program.DistinctNames) (hlibrary : library.DistinctNames)
    (harchived : library.Archived) {stats : ImportStats}
    (h : program.importFrom library = .ok (stats, out)) :
    stats.loaded = Set.ncard {name | Reached program library name} ∧
      ∃ moved ρ, Imported program library moved ρ out := by
  obtain ⟨d, lib, hwalk, hcount, hload, hlink⟩ := Module.importFrom_eq_ok h
  obtain ⟨hd, hvisited⟩ := Demand.Explored.of_walk hloaded hprogram hlibrary harchived hwalk
  obtain ⟨ρ, src', hsettled, hout⟩ := Module.link_eq (hd.program_distinctNames hprogram)
    (hd.distinctNames_loadAll hlibrary hload) hlink
  exact ⟨hcount.trans (hd.loaded_eq hvisited), _, ρ,
    hd.imported hvisited hlibrary harchived hload hsettled hout⟩

namespace Imported

variable {program library out : Module} {moved : List Func} {ρ : String → String}

/-- An import keeps names distinct. -/
theorem distinctNames (h : Imported program library moved ρ out)
    (hprogram : program.DistinctNames) : out.DistinctNames := by
  have hnames := congrArg (List.map Func.name) h.functions
  simp only [List.map_map, Function.comp_def, Func.name_skeleton] at hnames
  rw [Module.DistinctNames, hnames]
  refine Func.nodup_merged hprogram ?_
  have hdistinct := h.distinct
  rw [List.map_map]
  simpa only [Function.comp_def, Func.name_renameBy, Func.name_opened] using hdistinct

/-- Names change only where an internal definition meets one of the program, and are new then. -/
theorem isInternal_of_ne (h : Imported program library moved ρ out)
    (hlibrary : library.DistinctNames)
    {name : String} (hchanged : ρ name ≠ name) : library.isInternal name = true ∧
      program.defines name = true ∧ program.func? (ρ name) = none := by
  obtain ⟨hdefines, f, hf, rfl, hdef, hinternal⟩ := h.other name hchanged
  refine ⟨?_, hdefines, (h.fresh f hf hdef hdefines).1⟩
  rw [Module.isInternal, hlibrary.func?_eq (h.sublist.subset hf)]
  exact decide_eq_true hinternal

/-- A function of the program keeps its place. -/
theorem rename_eq_self (h : Imported program library moved ρ out) {name : String}
    (hthere : (program.func? (ρ name)).isSome = true) : ρ name = name := by
  by_contra hchanged
  obtain ⟨hdefines, f, hf, rfl, hdef, _⟩ := h.other name hchanged
  rw [(h.fresh f hf hdef hdefines).1] at hthere
  cases hthere

/-- Every function of the result is one of the program, or one that was moved. -/
theorem mem_cases (h : Imported program library moved ρ out) {g : Func} (hg : g ∈ out.functions) :
    (∃ p ∈ program.functions, g.skeleton = p.skeleton) ∨
      ∃ f ∈ moved, g.skeleton = (f.opened.renameBy ρ).skeleton := by
  have hmem : g.skeleton ∈ out.functions.map Func.skeleton := List.mem_map_of_mem hg
  rw [h.functions] at hmem
  obtain ⟨g', hg', hskeleton⟩ := List.mem_map.1 hmem
  rcases List.mem_append.1 hg' with hg' | hg'
  · obtain ⟨p, hp, rfl⟩ := List.mem_map.1 hg'
    unfold Func.supersede at hskeleton
    split at hskeleton
    · rcases Option.eq_none_or_eq_some ((moved.map fun f => f.opened.renameBy ρ).find?
        fun f => f.name = p.name && !f.isDeclared) with hfind | ⟨f', hfind⟩
      · rw [hfind] at hskeleton
        exact Or.inl ⟨p, hp, hskeleton.symm⟩
      · rw [hfind] at hskeleton
        obtain ⟨f, hf, rfl⟩ := List.mem_map.1 (List.mem_of_find?_eq_some hfind)
        exact Or.inr ⟨f, hf, hskeleton.symm⟩
    · exact Or.inl ⟨p, hp, hskeleton.symm⟩
  · obtain ⟨f, hf, rfl⟩ := List.mem_map.1 (List.mem_filter.1 hg').1
    exact Or.inr ⟨f, hf, hskeleton.symm⟩

/-- What is merged is in the result. -/
theorem exists_of_mem_merged (h : Imported program library moved ρ out) {g : Func}
    (hg : g ∈ Func.merged program.functions (moved.map fun f => f.opened.renameBy ρ)) :
    ∃ g' ∈ out.functions, g'.skeleton = g.skeleton := by
  have hmem : g.skeleton ∈ (Func.merged program.functions
      (moved.map fun f => f.opened.renameBy ρ)).map Func.skeleton := List.mem_map_of_mem hg
  rw [← h.functions] at hmem
  exact List.mem_map.1 hmem

/-- Every function of the program is in the result, with its body if it has one. -/
theorem exists_of_program (h : Imported program library moved ρ out) {p : Func}
    (hp : p ∈ program.functions) :
    ∃ g ∈ out.functions, g.name = p.name ∧ (p.isDeclared = false → g.skeleton = p.skeleton) := by
  obtain ⟨g, hg, hskeleton⟩ :=
    h.exists_of_mem_merged (List.mem_append_left _ (List.mem_map_of_mem hp))
  refine ⟨g, hg, ?_, ?_⟩
  · rw [← g.name_skeleton, hskeleton, Func.name_skeleton, Func.name_supersede]
  · intro hdef
    rw [hskeleton, Func.supersede, if_neg (by simp [hdef])]

/-- Every function that is moved is in the result under its new name, with its body if it has
one. -/
theorem exists_of_moved (h : Imported program library moved ρ out)
    (hprogram : program.DistinctNames) {f : Func} (hf : f ∈ moved) :
    ∃ g ∈ out.functions, g.name = ρ f.name ∧
      (f.isDeclared = false → g.skeleton = (f.opened.renameBy ρ).skeleton) := by
  have himage : f.opened.renameBy ρ ∈ moved.map fun f => f.opened.renameBy ρ :=
    List.mem_map_of_mem hf
  have hname : (f.opened.renameBy ρ).name = ρ f.name := by
    rw [Func.name_renameBy, Func.name_opened]
  by_cases hthere : ∃ p ∈ program.functions, p.name = ρ f.name
  · obtain ⟨p, hp, hpname⟩ := hthere
    obtain ⟨g, hg, hskeleton⟩ :=
      h.exists_of_mem_merged (List.mem_append_left _ (List.mem_map_of_mem hp))
    refine ⟨g, hg, ?_, ?_⟩
    · rw [← g.name_skeleton, hskeleton, Func.name_skeleton, Func.name_supersede, hpname]
    · intro hdef
      have hfound := hprogram.func?_eq_some_iff.2 ⟨hp, hpname⟩
      have hsame : ρ f.name = f.name := h.rename_eq_self (by rw [hfound]; rfl)
      -- A definition of the program would have clashed, so the program only declares it.
      have hdecl : p.isDeclared = true := by
        by_contra hnot
        rw [Bool.not_eq_true] at hnot
        have hdefines : program.defines f.name = true :=
          Module.defines_iff.2 ⟨p, hsame ▸ hfound, hnot⟩
        have hfresh := (h.fresh f hf hdef hdefines).1
        rw [hfound] at hfresh
        cases hfresh
      have hdistinct : ((moved.map fun f => f.opened.renameBy ρ).map Func.name).Nodup := by
        have hnodup := h.distinct
        rw [List.map_map]
        simpa only [Function.comp_def, Func.name_renameBy, Func.name_opened] using hnodup
      have hbody : (f.opened.renameBy ρ).isDeclared = false := by
        rw [Func.isDeclared_renameBy, Func.isDeclared_opened, hdef]
      have honly : ∀ g ∈ moved.map fun f => f.opened.renameBy ρ,
          g.name = (f.opened.renameBy ρ).name → g = f.opened.renameBy ρ :=
        fun g hg => List.inj_on_of_nodup_map hdistinct hg himage
      rw [hskeleton, Func.supersede_of_mem himage honly (hpname.trans hname.symm) hbody hdecl]
  · have hnew : f.opened.renameBy ρ ∈ (moved.map fun f => f.opened.renameBy ρ).filter
        fun f => !program.functions.any fun d => d.name = f.name := by
      refine List.mem_filter.2 ⟨himage, ?_⟩
      rw [Bool.not_eq_true', List.any_eq_false]
      intro p hp hpname
      exact hthere ⟨p, hp, (of_decide_eq_true hpname).trans hname⟩
    obtain ⟨g, hg, hskeleton⟩ := h.exists_of_mem_merged (List.mem_append_right _ hnew)
    refine ⟨g, hg, ?_, fun _ => hskeleton⟩
    rw [← g.name_skeleton, hskeleton, Func.name_skeleton, hname]

end Imported

end Postlink
