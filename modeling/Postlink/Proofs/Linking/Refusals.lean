import Postlink.Proofs.Linking.Outcome

/-!
# Links that fail

The functions of a source are looked at before anything is moved: unloaded bodies first, and then
definitions that the destination has too. When the functions are moved, a definition meets
declarations only, so that the check made there never fails (`ChecksFirst`). Variables are looked at
one by one while they are moved. So a link that fails leaves the destination as it was, except where
a variable that the destination takes stands before the first one that collides (`Interrupted`).
-/

namespace Postlink

namespace Module

theorem isLoaded_iff_find? {m : Module} :
    m.isLoaded = true ↔ m.functions.find? Func.isStored = none := by
  rw [isLoaded, Bool.not_eq_true', List.any_eq_false, List.find?_eq_none]

/-- A link reports that a function is defined in both modules, when it settles clashes or when it
moves functions. -/
def Blames (dest src : Module) (name : String) : Prop :=
  src.isLoaded = true ∧
    ((∃ src', stepAll dest.settleClash src (dest.clashes src) =
        (.error (.duplicateSymbol name), src')) ∨
      ∃ src' mid s, stepAll dest.settleClash src (dest.clashes src) = (.ok (), src') ∧
        stepAll mergeGlobal dest src'.globals = (.ok (), mid) ∧
        stepAll mergeFunc (mid, 0) src'.functions = (.error (.duplicateSymbol name), s))

/-- A link finds out what is wrong with the functions of a source before it moves anything. -/
structure ChecksFirst (dest src : Module) : Prop where
  /-- An unloaded body is reported exactly if there is one, and the first one is. -/
  unloaded : ∀ name, (dest.link src).1 = .error (.unloadedBody name) ↔
    ∃ f, src.functions.find? Func.isStored = some f ∧ f.name = name
  /-- If all bodies are loaded, a function is reported exactly if one is defined in both modules and
  not internal, and the first one is. -/
  rejected : ∀ name, dest.Blames src name ↔
    src.isLoaded = true ∧ ∃ f, src.functions.find? dest.rejects = some f ∧ f.name = name
  /-- The destination is then as it was. -/
  unchanged : ∀ name, dest.Blames src name → dest.link src = (.error (.duplicateSymbol name), dest)
  /-- All other symbols that are reported are variables. -/
  others : ∀ name out, dest.link src = (.error (.duplicateSymbol name), out) →
    dest.Blames src name ∨ ∃ g, src.globals.find? dest.collides = some g ∧ g.name = name
  /-- Whenever it is a function's turn to be moved, it is. -/
  late : ∀ src' mid done f rest s, stepAll dest.settleClash src (dest.clashes src) =
    (.ok (), src') →
    stepAll mergeGlobal dest src'.globals = (.ok (), mid) → src'.functions = done ++ f :: rest →
    stepAll mergeFunc (mid, 0) done = (.ok (), s) → ∃ s', mergeFunc s f = .ok s'

section Functions

variable {dest src : Module}

/-- A function is reported only when clashes are settled. -/
theorem blames_iff (hdest : dest.DistinctNames) (hsrc : src.DistinctNames) {name : String} :
    dest.Blames src name ↔
      src.isLoaded = true ∧ ∃ f, src.functions.find? dest.rejects = some f ∧ f.name = name := by
  refine and_congr_right fun _ => ?_
  rcases settle_cases dest hsrc with ⟨hnone, src', hs⟩ | ⟨f, src', hf, hs⟩
  · simp only [hnone, reduceCtorEq, false_and, exists_false, iff_false]
    rintro (⟨_, hs'⟩ | ⟨_, mid, _, hs', hmid, hrun⟩)
    · rw [hs] at hs'
      cases hs'
    · obtain ⟨ρ, hsettled⟩ := exists_settled hsrc hs'
      obtain ⟨s, hmoved, _⟩ :=
        exists_moveFunctions hdest hsettled (functions_of_mergeGlobals hmid)
      rw [hmoved] at hrun
      cases hrun
  · constructor
    · rintro (⟨_, hs'⟩ | ⟨_, _, _, hs', _⟩)
      · rw [hs] at hs'
        cases hs'
        exact ⟨f, hf, rfl⟩
      · rw [hs] at hs'
        cases hs'
    · rintro ⟨_, hf', rfl⟩
      rw [hf] at hf'
      cases hf'
      exact Or.inl ⟨src', hs⟩

/-- What is wrong with functions is found before anything is moved. -/
theorem checksFirst_link (hdest : dest.DistinctNames) (hsrc : src.DistinctNames)
    (hglobals : (src.globals.map Global.name).Nodup) : dest.ChecksFirst src := by
  have houtcome := outcome_link hdest hsrc hglobals
  generalize hlink : dest.link src = result at houtcome
  refine ⟨fun name => ?_, fun name => blames_iff hdest hsrc, fun name hblames => ?_,
    fun name out hout => ?_, ?_⟩
  · rw [hlink]
    cases houtcome with
    | unloaded hstored => simp [hstored]
    | rejected hloaded _ => simp [hloaded]
    | collided hloaded _ _ _ => simp [hloaded]
    | linked hloaded _ _ _ _ _ _ => simp [hloaded]
  · obtain ⟨hloaded', f, hf, rfl⟩ := (blames_iff hdest hsrc).1 hblames
    rw [isLoaded_iff_find?] at hloaded'
    rw [hlink]
    cases houtcome with
    | unloaded hstored => rw [hstored] at hloaded'; cases hloaded'
    | rejected _ hrejected => rw [hrejected] at hf; cases hf; rfl
    | collided _ hrejected _ _ => rw [hrejected] at hf; cases hf
    | linked _ hrejected _ _ _ _ _ => rw [hrejected] at hf; cases hf
  · rw [hlink] at hout
    subst hout
    cases houtcome with
    | rejected hloaded hrejected =>
        exact Or.inl ((blames_iff hdest hsrc).2 ⟨isLoaded_iff_find?.2 hloaded, _, hrejected, rfl⟩)
    | collided _ _ hcollided _ => exact Or.inr ⟨_, hcollided, rfl⟩
  · intro src' mid done f rest s hs hmid hsplit hrun
    obtain ⟨ρ, hsettled⟩ := exists_settled hsrc hs
    have hdone : (done.map Func.name).Nodup := by
      have hnames := hsettled.names
      rw [DistinctNames, hsplit, List.map_append] at hnames
      exact hnames.of_append_left
    have hmoved := moved_of_mergeFuncs hdest (functions_of_mergeGlobals hmid) hdone hrun
    obtain ⟨s', hs', _⟩ := hsettled.exists_mergeFunc hdest hsplit hmoved
    exact ⟨s', hs'⟩

end Functions

/-- A variable with contents. -/
def wordVariable (name : String) (value : Nat) : Global :=
  ⟨name, .int 32, some (.word value), .external⟩

/-- A program with two functions. -/
def twinProgram : Module :=
  ⟨"p", [], [relay "helper" (.int 32) "f" ⟨.int 32, [.int 32]⟩,
    relay "f" (.int 32) "f" ⟨.int 32, [.int 32]⟩]⟩

/-- A library that has functions of both names, one of them for itself, and a variable. -/
def twinLibrary : Module :=
  ⟨"l", [wordVariable "table" 1],
    [{ relay "helper" (.float 32) "f" ⟨.float 32, [.float 32]⟩ with linkage := .internal },
      relay "f" (.float 32) "helper" ⟨.float 32, [.float 32]⟩]⟩

/-- The internal function is no obstacle, the other one is, and the variable is not moved. -/
theorem checksFirst_link_twins :
    twinProgram.DistinctNames ∧ twinLibrary.DistinctNames ∧
    (twinLibrary.globals.map Global.name).Nodup ∧ twinLibrary.isLoaded = true ∧
    twinProgram.Clash twinLibrary "helper" ∧ twinProgram.Blames twinLibrary "f" ∧
    twinProgram.link twinLibrary = (.error (.duplicateSymbol "f"), twinProgram) := by
  have hprogram : twinProgram.DistinctNames := by decide +kernel
  have hlibrary : twinLibrary.DistinctNames := by decide +kernel
  have hglobals : (twinLibrary.globals.map Global.name).Nodup := by decide +kernel
  have hloaded : twinLibrary.isLoaded = true := by decide +kernel
  have hchecks := checksFirst_link hprogram hlibrary hglobals
  have hblames : twinProgram.Blames twinLibrary "f" := by
    rw [hchecks.rejected]
    refine ⟨hloaded, relay "f" (.float 32) "helper" ⟨.float 32, [.float 32]⟩, ?_, rfl⟩
    decide +kernel
  exact ⟨hprogram, hlibrary, hglobals, hloaded,
    ⟨_, List.mem_cons_self .., rfl, rfl, rfl, by decide +kernel⟩,
    hblames, hchecks.unchanged "f" hblames⟩

section Interruptions

variable {dest src out : Module}

/-- The variables of a source that the destination takes before it meets one that collides. -/
def arrivals (dest src : Module) : List Global :=
  (src.globals.takeWhile fun g => !dest.collides g).filter dest.takes

/-- Variables are moved, and then one is found that collides. -/
def Interrupted (dest src : Module) : Prop :=
  src.isLoaded = true ∧ (∀ f ∈ src.functions, dest.rejects f = false) ∧
    (∃ g ∈ src.globals, dest.collides g = true) ∧ dest.arrivals src ≠ []

instance (dest src : Module) : Decidable (dest.Interrupted src) :=
  inferInstanceAs (Decidable (src.isLoaded = true ∧ (∀ f ∈ src.functions, dest.rejects f = false) ∧
    (∃ g ∈ src.globals, dest.collides g = true) ∧ dest.arrivals src ≠ []))

/-- What a link that fails leaves of the destination. -/
structure Aborted (dest src out : Module) : Prop where
  /-- Everything but the variables is as it was. -/
  frame : { out with globals := dest.globals } = dest
  /-- What was initialized still is, and with the same contents. -/
  kept : ∀ n, dest.initializes n = true → out.global? n = dest.global? n
  /-- If the link was interrupted, names mean the variables that arrived, and else what they
  meant. -/
  arrived : dest.Interrupted src →
    ∀ n, out.global? n = ((dest.arrivals src).find? fun g => g.name = n).or (dest.global? n)
  /-- If not, and only then, the destination is as it was. -/
  unchanged_iff : out = dest ↔ ¬ dest.Interrupted src

theorem Aborted.of_not_interrupted (h : ¬ dest.Interrupted src) : dest.Aborted src dest :=
  ⟨rfl, fun _ _ => rfl, fun hinterrupted => absurd hinterrupted h, iff_of_true rfl h⟩

/-- A link that fails has moved the variables before the first one that collides, if it came to
variables at all. -/
theorem aborted_of_link (hdest : dest.DistinctNames) (hsrc : src.DistinctNames)
    (hglobals : (src.globals.map Global.name).Nodup) {e : LinkError}
    (h : dest.link src = (.error e, out)) : dest.Aborted src out := by
  have houtcome := outcome_link hdest hsrc hglobals
  rw [h] at houtcome
  cases houtcome with
  | unloaded hstored =>
      refine .of_not_interrupted fun hinterrupted => ?_
      rw [isLoaded_iff_find?.1 hinterrupted.1] at hstored
      cases hstored
  | @rejected f hloaded hrejected =>
      refine .of_not_interrupted fun hinterrupted => ?_
      have hf := hinterrupted.2.1 f (List.mem_of_find?_eq_some hrejected)
      rw [List.find?_some hrejected] at hf
      cases hf
  | @collided g _ hloaded hrejected hcollided hmid =>
      have hfuncs : ∀ f ∈ src.functions, dest.rejects f = false := by
        intro f hf
        simpa using List.find?_eq_none.1 hrejected f hf
      have hcollides : ∃ g ∈ src.globals, dest.collides g = true :=
        ⟨g, List.mem_of_find?_eq_some hcollided, List.find?_some hcollided⟩
      have hiff : dest.Interrupted src ↔ dest.arrivals src ≠ [] :=
        ⟨fun hi => hi.2.2.2, fun ha => ⟨isLoaded_iff_find?.2 hloaded, hfuncs, hcollides, ha⟩⟩
      refine ⟨hmid.frame, fun n => hmid.global?_of_initializes, fun _ n => ?_, ?_⟩
      · rw [hmid.lookup, arrivals, List.find?_filter]
        congr 2
        funext g'
        rw [Bool.and_comm]
        simp
      · rw [hmid.eq_iff, hiff, not_not, arrivals, List.filter_eq_nil_iff]
        simp only [Bool.not_eq_true]

end Interruptions

/-- A program with a variable. -/
def tableProgram : Module := ⟨"p", [wordVariable "table" 7], []⟩

/-- A library with another one of that name, and one of a new name after it. -/
def tableFirst : Module := ⟨"l", [wordVariable "table" 9, wordVariable "size" 3], []⟩

/-- The same the other way round. -/
def tableSecond : Module := ⟨"l", [wordVariable "size" 3, wordVariable "table" 9], []⟩

/-- Nothing was moved when the variable that collides is found. -/
theorem aborted_of_link_tableFirst :
    tableProgram.DistinctNames ∧ tableFirst.DistinctNames ∧
    (tableFirst.globals.map Global.name).Nodup ∧ ¬ tableProgram.Interrupted tableFirst ∧
    tableProgram.link tableFirst = (.error (.duplicateSymbol "table"), tableProgram) := by
  have hprogram : tableProgram.DistinctNames := by decide +kernel
  have hlibrary : tableFirst.DistinctNames := by decide +kernel
  have hglobals : (tableFirst.globals.map Global.name).Nodup := by decide +kernel
  have hnot : ¬ tableProgram.Interrupted tableFirst := by decide +kernel
  have herror : (tableProgram.link tableFirst).1 = .error (.duplicateSymbol "table") := by
    decide +kernel
  have haborted := aborted_of_link hprogram hlibrary hglobals (Prod.ext herror rfl)
  exact ⟨hprogram, hlibrary, hglobals, hnot, Prod.ext herror (haborted.unchanged_iff.2 hnot)⟩

/-- The variable before it was moved, and stays. -/
theorem not_unchanged_link_tableSecond :
    tableProgram.DistinctNames ∧ (tableProgram.globals.map Global.name).Nodup ∧
    tableSecond.DistinctNames ∧ (tableSecond.globals.map Global.name).Nodup ∧
    (tableProgram.link tableSecond).1 = .error (.duplicateSymbol "table") ∧
    (tableProgram.link tableSecond).2.global? "size" = some (wordVariable "size" 3) ∧
    (tableProgram.link tableSecond).2 ≠ tableProgram := by
  decide +kernel

end Module

end Postlink
