import Postlink.Proofs.Demand.Following
import Postlink.Proofs.Importing.Outcome
import Postlink.Proofs.Linking.Definitions

/-!
# What an import retains

A library may come with some of its bodies loaded, and a program with some of its own still stored.
After the walk, those library bodies are there that were loaded from the start or fetched
(`Present`). A function that one of these names is retained. Of a name that none of them mentions,
as many functions are dropped as have no body loaded, and these are taken from the front. So with
several functions of one name the loaded one may go and the last one stay (`Retained`). The
definitions of the result are the program's own, what is retained, and what had to be renamed on the
way (`defines_importFrom_iff`).
-/

namespace Postlink

namespace Module

/-- Only the first function of a name can have its body loaded. -/
def Fronted (m : Module) : Prop :=
  ∀ name, ∀ f ∈ (m.namesakes name).tail, f.isDeclared = true ∨ f.isStored = true

/-- Where names are distinct, every function is the first of its name. -/
theorem DistinctNames.fronted {m : Module} (h : m.DistinctNames) : m.Fronted := by
  intro name f hf
  rw [h.tail_namesakes] at hf
  cases hf

/-- No body of an archive is there. -/
theorem Archived.not_isLoaded {m : Module} (h : m.Archived) {f : Func} (hf : f ∈ m.functions) :
    ¬ f.body.isLoaded = true := by
  rw [Func.isLoaded_iff]
  rintro ⟨hdef, hnot⟩
  rcases h f hf with hdecl | ⟨hstored, _⟩
  · rw [hdef] at hdecl
    cases hdecl
  · rw [hnot] at hstored
    cases hstored

/-- In an archived module no body is loaded. -/
theorem Archived.fronted {m : Module} (h : m.Archived) : m.Fronted := by
  intro name f hf
  exact (h f (mem_namesakes_iff.1 (List.mem_of_mem_tail hf)).1).imp_right And.left

end Module

/-- A library body that is loaded when the walk is over. -/
def Present (program library : Module) (name : String) : Prop :=
  library.loads name = true ∨ Fetched program library name

/-- A body that is loaded when the walk is over names a function. -/
def Mentioned (program library : Module) (name : String) : Prop :=
  ∃ holder f, Present program library holder ∧ library.func? holder = some f ∧
    f.opened.Mentions name

/-- The library has a definition of a name that is not dropped. -/
def Retained (program library : Module) (name : String) : Prop :=
  (Mentioned program library name ∧ ∃ f ∈ library.namesakes name, f.isDeclared = false) ∨
    Present program library name ∧
      ∃ f, (library.namesakes name).getLast? = some f ∧ f.isDeclared = false

/-- An internal definition that clashed with one of the program got this name, which was not its
own. -/
def Usurped (program library out : Module) (name : String) : Prop :=
  out.defines name = true ∧ ∃ clash, clash ≠ name ∧ Retained program library clash ∧
    program.defines clash = true ∧ ∃ f ∈ library.namesakes clash, f.linkage = .internal

section Presence

variable {program library : Module} {name : String}

theorem Fetched.stores (h : Fetched program library name) : library.stores name = true := by
  obtain ⟨_, hfollows⟩ := h
  cases hfollows with
  | call _ _ _ hstored _ => exact hstored

theorem Present.defines (h : Present program library name) : library.defines name = true := by
  rcases h with hloads | hfetched
  · exact (Module.loads_iff.1 hloads).1
  · exact Module.defines_of_stores hfetched.stores

/-- What a function followed calls is present, if the call is meant for the library. -/
theorem Follows.present {root caller callee : String} {side : Side}
    (h : Follows program library root side caller)
    (hcall : callee ∈ (Demand.origin program library side).callees caller)
    (hneeds : Demand.Needs program library side callee) : Present program library callee := by
  cases hstores : library.stores callee with
  | false => exact Or.inl (Module.loads_iff.2 ⟨hneeds.1, hstores⟩)
  | true =>
      have hprovider := (Demand.provider?_start_iff program library side callee).2 hneeds
      exact Or.inr ⟨root, .call h hcall hprovider hstores nofun⟩

/-- In a library that is all stored, only what was fetched is present. -/
theorem Present.fetched (h : Present program library name) (harchived : library.Archived) :
    Fetched program library name := by
  rcases h with hloads | hfetched
  · obtain ⟨f, hf, hloaded⟩ := (Option.any_eq_true _ _).1 hloads
    exact absurd hloaded (harchived.not_isLoaded (Module.mem_of_func? hf).1)
  · exact hfetched

/-- With distinct names a definition is retained if its body is there or something that is there
names it. -/
theorem retained_iff (hnames : library.DistinctNames) : Retained program library name ↔
    library.defines name = true ∧
      (Present program library name ∨ Mentioned program library name) := by
  cases hf : library.func? name with
  | none =>
      rw [Retained, Module.namesakes_eq_nil hf, Module.defines_eq_any, hf]
      simp
  | some f =>
      have honly : library.namesakes name = [f] := by
        rw [Module.namesakes_eq_cons hf, hnames.tail_namesakes]
      rw [Retained, honly, Module.defines_eq_any, hf]
      simp only [List.mem_singleton, exists_eq_left, List.getLast?_singleton, Option.some.injEq,
        exists_eq_left', Option.any_some, Bool.not_eq_true']
      tauto

end Presence

section Walk

variable {program library : Module} {d : Demand} (hprogram : program.DistinctNames)
  (hwalk : (Demand.start program library).walk (program.functions.map Func.name) = .ok d)

include hprogram hwalk

/-- A walk decodes some bodies of the library and changes nothing else there. -/
theorem Demand.opens_library : library.Opens d.library :=
  (Demand.Tracked.of_walk hprogram hwalk).opens .library

/-- A walk decodes some bodies of the program and changes nothing else there. -/
theorem Demand.opens_program : program.Opens d.program :=
  (Demand.Tracked.of_walk hprogram hwalk).opens .program

/-- The walk leaves the bodies loaded that are then present. -/
theorem Demand.loads_library_iff (name : String) :
    d.library.loads name = true ↔ Present program library name := by
  rw [Module.loads_iff, (opens_library hprogram hwalk).defines_eq, Present, Module.loads_iff,
    ← Bool.not_eq_true, ← Bool.not_eq_true, stores_library_iff hprogram hwalk, not_and, not_not]
  constructor
  · rintro ⟨hdefines, hfetched⟩
    by_cases hstores : library.stores name = true
    · exact Or.inr (hfetched hstores)
    · exact Or.inl ⟨hdefines, hstores⟩
  · rintro (⟨hdefines, hstores⟩ | hfetched)
    · exact ⟨hdefines, fun h => absurd h hstores⟩
    · exact ⟨Present.defines (Or.inr hfetched), fun _ => hfetched⟩

variable (hfront : library.Fronted)

include hfront

/-- A function with a body is the first of its name. -/
theorem Demand.func?_of_isLoaded {g : Func} (hg : g ∈ d.library.functions)
    (hloaded : g.body.isLoaded = true) : d.library.func? g.name = some g := by
  have hmem : g ∈ d.library.namesakes g.name := Module.mem_namesakes_iff.2 ⟨hg, rfl⟩
  cases hhead : d.library.func? g.name with
  | none =>
      rw [Module.namesakes_eq_nil hhead] at hmem
      cases hmem
  | some head =>
      rw [Module.namesakes_eq_cons hhead, List.mem_cons] at hmem
      rcases hmem with rfl | htail
      · rfl
      · rw [(opens_library hprogram hwalk).tails] at htail
        obtain ⟨hdef, hstored⟩ := Func.isLoaded_iff.1 hloaded
        rcases hfront _ g htail with h | h
        · rw [hdef] at h
          cases h
        · rw [hstored] at h
          cases h

/-- After a walk, bodies of the library name what was mentioned. -/
theorem Demand.exists_mentions_iff (name : String) :
    (∃ g ∈ d.library.functions, g.Mentions name) ↔ Mentioned program library name := by
  have hopens := opens_library hprogram hwalk
  constructor
  · rintro ⟨g, hg, hmentions⟩
    have hloaded : g.body.isLoaded = true := by
      rw [Func.isLoaded_iff, ← Bool.not_eq_true, ← Bool.not_eq_true, ← not_or]
      exact fun h => Func.not_mentions h name hmentions
    have hfirst := func?_of_isLoaded hprogram hwalk hfront hg hloaded
    obtain ⟨f, hf, hsame⟩ := hopens.exists_func? hfirst
    refine ⟨g.name, f, (loads_library_iff hprogram hwalk g.name).1 ?_, hf, ?_⟩
    · rw [Module.loads, hfirst]
      exact hloaded
    · rw [Func.opened_eq_self (Func.isLoaded_iff.1 hloaded).2] at hsame
      exact (Func.mentions_congr hsame name).1 hmentions
  · rintro ⟨holder, f, hpresent, hf, hmentions⟩
    obtain ⟨g, hg, hsame⟩ := hopens.exists_func?' hf
    have hloads := (loads_library_iff hprogram hwalk holder).2 hpresent
    rw [Module.loads, hg] at hloads
    rw [Func.opened_eq_self (Func.isLoaded_iff.1 hloads).2] at hsame
    exact ⟨g, (Module.mem_of_func? hg).1, (Func.mentions_congr hsame name).2 hmentions⟩

/-- What is left of the functions with a name that nothing mentions. -/
theorem Demand.namesakes_of_not_mentioned {name : String}
    (hnot : ¬ Mentioned program library name) :
    (∃ f ∈ d.library.dropUnused.namesakes name, f.isDeclared = false) ↔
      Present program library name ∧
        ∃ f, (library.namesakes name).getLast? = some f ∧ f.isDeclared = false := by
  have hopens := opens_library hprogram hwalk
  have huse : d.library.useCount name = 0 := by
    rw [Module.useCount_eq_zero_iff]
    intro g hg hmentions
    exact hnot ((exists_mentions_iff hprogram hwalk hfront name).1 ⟨g, hg, hmentions⟩)
  rw [Module.namesakes_dropUnused, if_pos huse, ← loads_library_iff hprogram hwalk]
  -- Whether the last one is a definition can be read off the walked library.
  have hlast : (∃ f, (library.namesakes name).getLast? = some f ∧ f.isDeclared = false) ↔
      ∃ f, (d.library.namesakes name).getLast? = some f ∧ f.isDeclared = false := by
    have hflags := congrArg List.getLast? (hopens.map_isDeclared_namesakes name)
    rw [List.getLast?_map, List.getLast?_map] at hflags
    rw [← Option.map_eq_some_iff, ← Option.map_eq_some_iff, hflags]
  rw [hlast, Module.loads]
  cases hg : d.library.func? name with
  | none =>
      rw [Module.namesakes_eq_nil hg]
      simp
  | some g =>
      have htail : (d.library.namesakes name).tail.countP (fun f => f.isDeclared || f.isStored) =
          (d.library.namesakes name).tail.length := by
        rw [List.countP_eq_length]
        intro f hf
        rw [hopens.tails] at hf
        exact Bool.or_eq_true_iff.2 (hfront name f hf)
      rw [Module.namesakes_eq_cons hg, List.countP_cons, htail, Option.any_some]
      generalize (d.library.namesakes name).tail = rest
      cases hloaded : g.body.isLoaded with
      | true =>
          obtain ⟨hdef, hstored⟩ := Func.isLoaded_iff.1 hloaded
          rw [hdef, hstored, List.getLast?_eq_getLast_of_ne_nil (List.cons_ne_nil g rest)]
          have hdrop : (g :: rest).drop rest.length =
              [(g :: rest).getLast (List.cons_ne_nil g rest)] :=
            List.drop_length_sub_one (List.cons_ne_nil g rest)
          simp [hdrop]
      | false =>
          have hnot : (g.isDeclared || g.isStored) = true := by
            by_contra hneither
            rw [Bool.or_eq_true, not_or, Bool.not_eq_true, Bool.not_eq_true,
              ← Func.isLoaded_iff, hloaded] at hneither
            cases hneither
          simp [hnot]

/-- The definitions left in the library are those that are retained. -/
theorem Demand.exists_namesake_iff (name : String) :
    (∃ f ∈ d.library.dropUnused.namesakes name, f.isDeclared = false) ↔
      Retained program library name := by
  by_cases hmentioned : Mentioned program library name
  · have huse : d.library.useCount name ≠ 0 := by
      rw [Ne, Module.useCount_eq_zero_iff]
      obtain ⟨g, hg, hmentions⟩ := (exists_mentions_iff hprogram hwalk hfront name).2 hmentioned
      exact fun h => h g hg hmentions
    have hflags := (opens_library hprogram hwalk).map_isDeclared_namesakes name
    rw [Module.namesakes_dropUnused, if_neg huse, List.drop_zero, ← List.mem_map, hflags,
      List.mem_map, Retained]
    constructor
    · intro hsome
      exact Or.inl ⟨hmentioned, hsome⟩
    · rintro (⟨_, hsome⟩ | ⟨_, f, hlast, hdef⟩)
      · exact hsome
      · exact ⟨f, List.mem_of_getLast? hlast, hdef⟩
  · rw [namesakes_of_not_mentioned hprogram hwalk hfront hmentioned, Retained]
    tauto

end Walk

section Import

variable {program library out : Module} {stats : ImportStats} (hprogram : program.DistinctNames)
  (h : program.importFrom library = .ok (stats, out))

include hprogram h

/-- A definition of the program keeps its body, and has it loaded unless it was stored and nothing
that was followed calls it. -/
theorem loads_importFrom_iff {name : String} (hdefines : program.defines name = true) :
    out.loads name = true ↔ (program.stores name = true → Woken program library name) := by
  obtain ⟨d, src, hwalk, _, _, hlink⟩ := Module.importFrom_eq_ok h
  obtain ⟨ρ, _, hgained⟩ := Module.exists_gained hlink
  have hd : d.program.defines name = true := by
    rw [(Demand.opens_program hprogram hwalk).defines_eq, hdefines]
  rw [Module.loads_iff, hgained.stores_eq name hd, ← Bool.not_eq_true,
    Demand.stores_program_iff hprogram hwalk, not_and, not_not]
  exact and_iff_right ((hgained.defines_iff name).2 (Or.inl hd))

/-- Where the program has no definition, the result has what is retained, possibly renamed. -/
theorem defines_importFrom_iff (hfront : library.Fronted) {name : String}
    (hundefined : program.defines name = false) :
    out.defines name = true ↔ Retained program library name ∨ Usurped program library out name := by
  obtain ⟨d, src, hwalk, _, hload, hlink⟩ := Module.importFrom_eq_ok h
  have hsrc := Module.functions_of_loadAll hload
  obtain ⟨ρ, hρ, hgained⟩ := Module.exists_gained hlink
  have hopens := Demand.opens_program hprogram hwalk
  have hsame : ∀ n, d.program.defines n = program.defines n := hopens.defines_eq
  -- The definitions moved are those retained, under their new names.
  have hmoved : ∀ n, (∃ f ∈ src.functions, f.name = n ∧ f.isDeclared = false) ↔
      Retained program library n := by
    intro n
    rw [← Demand.exists_namesake_iff hprogram hwalk hfront, hsrc]
    constructor
    · rintro ⟨_, hmem, hname, hdef⟩
      obtain ⟨f, hf, rfl⟩ := List.mem_map.1 hmem
      rw [Func.name_opened] at hname
      rw [Func.isDeclared_opened] at hdef
      exact ⟨f, Module.mem_namesakes_iff.2 ⟨hf, hname⟩, hdef⟩
    · rintro ⟨f, hf, hdef⟩
      obtain ⟨hmem, hname⟩ := Module.mem_namesakes_iff.1 hf
      refine ⟨f.opened, List.mem_map_of_mem hmem, f.name_opened.trans hname, ?_⟩
      rw [Func.isDeclared_opened, hdef]
  constructor
  · intro hdefines
    rcases (hgained.defines_iff name).1 hdefines with hown | ⟨_, hmem, hname, hdef⟩
    · rw [hsame, hundefined] at hown
      cases hown
    · obtain ⟨f, hf, rfl⟩ := List.mem_map.1 hmem
      rw [Func.isDeclared_renameBy] at hdef
      have hretained := (hmoved f.name).1 ⟨f, hf, rfl, hdef⟩
      by_cases hkept : f.name = name
      · exact Or.inl (hkept ▸ hretained)
      · obtain ⟨hclash, g, hg, hgname, hinternal⟩ :=
          hρ.clash f.name fun hρf => hkept (hρf.symm.trans hname)
        refine Or.inr ⟨hdefines, f.name, hkept, hretained, hsame f.name ▸ hclash, ?_⟩
        rw [hsrc] at hg
        obtain ⟨b, hb, rfl⟩ := List.mem_map.1 hg
        have hleft : b ∈ d.library.namesakes f.name :=
          Module.mem_namesakes_of_dropUnused
            (Module.mem_namesakes_iff.2 ⟨hb, b.name_opened ▸ hgname⟩)
        obtain ⟨c, hc, hlinkage⟩ := (Demand.opens_library hprogram hwalk).exists_linkage hleft
        exact ⟨c, hc, hlinkage.trans (b.linkage_opened ▸ hinternal)⟩
  · rintro (hretained | husurped)
    · obtain ⟨f, hf, rfl, hdef⟩ := (hmoved name).2 hretained
      have hkept : ρ f.name = f.name := by
        by_contra hchanged
        have hclash := (hρ.clash f.name hchanged).1
        rw [hsame, hundefined] at hclash
        cases hclash
      refine (hgained.defines_iff _).2 (Or.inr ⟨_, List.mem_map_of_mem hf, hkept, ?_⟩)
      rw [Func.isDeclared_renameBy, hdef]
    · exact husurped.1

end Import

end Postlink
