import Postlink.Proofs.Importing.References
import Postlink.Proofs.Importing.Retention
import Mathlib.Logic.Relation

/-!
# Library bodies that are loaded before an import

A library body that is there from the start is never asked for, so its calls are not followed. What
it names is retained all the same, and decoded before it is moved, but what is decoded then is not
looked into any more. Loading a body early can therefore put others to sleep that an import would
have fetched (`Dormant`), and what only these name is lost.
-/

namespace Postlink

namespace Func

/-- What a function calls it names. -/
theorem mentions_of_mem_callees {f : Func} {callee : String} (h : callee ∈ f.callees) :
    f.Mentions callee := by
  obtain ⟨i, hi, hcalled⟩ := (mem_callees_iff f callee).1 h
  obtain ⟨c, hc, hdirect⟩ := Option.bind_eq_some_iff.1 hcalled
  rw [Call.direct?_eq_some_iff] at hdirect
  refine ⟨.func callee, List.mem_flatMap.2 ⟨i, hi, ?_⟩, rfl⟩
  rcases i with ⟨id, name, ty, kind, loc⟩
  cases kind with
  | call c' =>
      cases hc
      rw [← hdirect]
      exact List.mem_cons_self ..
  | _ => cases hc

end Func

namespace Module

/-- The same module with some of its bodies decoded. -/
def openSome (early : String → Bool) (m : Module) : Module :=
  m.mapFuncs fun f => if early f.name then f.opened else f

/-- What a function calls once it is decoded, its decoded body names. -/
theorem exists_mentions_of_mem_callees {m : Module} {holder name : String}
    (h : name ∈ m.callees holder) : ∃ f, m.func? holder = some f ∧ f.opened.Mentions name := by
  rw [callees] at h
  cases hf : m.func? holder with
  | none => rw [hf] at h; cases h
  | some f =>
      rw [hf] at h
      exact ⟨f, rfl, Func.mentions_of_mem_callees h⟩

section Opening

variable {m : Module} (early : String → Bool)

/-- A function is found as before, decoded or not. -/
theorem func?_openSome (m : Module) (name : String) : (m.openSome early).func? name =
    (m.func? name).map fun f => if early f.name then f.opened else f := by
  refine func?_mapFuncs (fun f => ?_) m name
  split
  · exact f.name_opened
  · rfl

/-- Decoding bodies keeps names distinct. -/
theorem DistinctNames.openSome (h : m.DistinctNames) : (m.openSome early).DistinctNames := by
  refine h.mapFuncs fun f => ?_
  split
  · exact f.name_opened
  · rfl

/-- Decoding bodies changes only that they are decoded. -/
theorem DistinctNames.opens_openSome (h : m.DistinctNames) : m.Opens (m.openSome early) := by
  refine ⟨fun name => ?_, fun name => ?_, fun name => ?_⟩
  · rw [func?_openSome, Option.map_map]
    congr 1
    funext f
    rw [Function.comp_apply]
    split
    · rw [Func.opened_opened]
    · rfl
  · rw [(h.openSome early).tail_namesakes, h.tail_namesakes]
  · intro hstores
    obtain ⟨g, hg, hstored⟩ := stores_iff.1 hstores
    rw [func?_openSome, Option.map_eq_some_iff] at hg
    obtain ⟨f, hf, rfl⟩ := hg
    refine stores_iff.2 ⟨f, hf, ?_⟩
    by_contra hnot
    rw [Bool.not_eq_true] at hnot
    rw [Func.opened_eq_self hnot, ite_self, hnot] at hstored
    cases hstored

/-- If nothing was loaded before, what is loaded now is among the bodies decoded. -/
theorem Archived.early_of_loads (h : m.Archived) {name : String}
    (hloads : (m.openSome early).loads name = true) : early name = true := by
  obtain ⟨g, hg, hloaded⟩ := (Option.any_eq_true _ _).1 hloads
  rw [func?_openSome, Option.map_eq_some_iff] at hg
  obtain ⟨f, hf, rfl⟩ := hg
  obtain ⟨hmem, rfl⟩ := mem_of_func? hf
  by_contra hnot
  rw [if_neg hnot] at hloaded
  exact h.not_isLoaded hmem hloaded

end Opening

end Module

/-- A body that is fetched from a library, but is not there if the library comes in another
state. -/
def Dormant (program library library' : Module) (name : String) : Prop :=
  Fetched program library name ∧ ¬ Present program library' name

/-- A call of a body that is dormant. -/
def DormantCall (program library library' : Module) (caller callee : String) : Prop :=
  callee ∈ library.callees caller ∧ Dormant program library library' callee

/-- A definition that an import brings, but does not retain if the library comes in another
state. -/
def Lost (program library library' out : Module) (name : String) : Prop :=
  library.defines name = true ∧ program.defines name = false ∧
    (Retained program library name ∨ Usurped program library out name) ∧
    ¬ Retained program library' name

/-- What only the library defines and has a body in one result has one in the other. -/
def Preserved (program library out out' : Module) : Prop :=
  ∀ f ∈ library.functions, f.isDeclared = false → program.defines f.name = false →
    out.defines f.name = true → out'.defines f.name = true

instance (program library out out' : Module) : Decidable (Preserved program library out out') :=
  inferInstanceAs (Decidable (∀ f ∈ library.functions, f.isDeclared = false →
    program.defines f.name = false → out.defines f.name = true → out'.defines f.name = true))

section Opened

variable {program library library' : Module}

/-- Of a program that is loaded, only roots are followed. -/
theorem Follows.of_isLoaded (hloaded : program.isLoaded = true) {root caller : String}
    (h : Follows program library root .program caller) :
    Follows program library' root .program caller := by
  cases h with
  | root hthere hstores => exact .root hthere hstores
  | call _ _ _ hstored _ =>
      obtain ⟨f, hf, hst⟩ := Module.stores_iff.1 hstored
      rw [Module.isStored_of_isLoaded hloaded (Module.mem_of_func? hf).1] at hst
      cases hst

variable (hloaded : program.isLoaded = true) (hopens : library.Opens library')

include hloaded hopens

/-- A body is dormant because a body was there from the start that leads to it. -/
theorem Dormant.exists_chain {name : String} (h : Dormant program library library' name) :
    ∃ start, library'.loads start = true ∧ Fetched program library start ∧
      Relation.TransGen (DormantCall program library library') start name := by
  obtain ⟨⟨root, hfollows⟩, habsent⟩ := h
  -- The chain is found backwards, along the calls that were followed.
  have hback : ∀ side n, Follows program library root side n → side = .library →
      ¬ Present program library' n → ∃ start, library'.loads start = true ∧
        Fetched program library start ∧
        Relation.TransGen (DormantCall program library library') start n := by
    intro side n hfollows
    induction hfollows with
    | root _ _ =>
        intro hside
        cases hside
    | @call side target caller callee hcaller hcall hprovider hstored hahead ih =>
        rintro rfl habsent
        have hdormant : Dormant program library library' callee :=
          ⟨⟨root, .call hcaller hcall hprovider hstored hahead⟩, habsent⟩
        have hneeds := (Demand.provider?_start_iff program library side callee).1 hprovider
        have hneeds' : Demand.Needs program library' side callee :=
          ⟨(hopens.defines_eq callee).trans hneeds.1, hneeds.2⟩
        cases side with
        | program =>
            have hcaller' : Follows program library' root .program caller :=
              hcaller.of_isLoaded hloaded
            exact absurd (hcaller'.present hcall hneeds') habsent
        | library =>
            by_cases hpresent : Present program library' caller
            · rcases hpresent with hloads | ⟨root', hfollows'⟩
              · exact ⟨caller, hloads, ⟨root, hcaller⟩, .single ⟨hcall, hdormant⟩⟩
              · have hcall' : callee ∈ library'.callees caller :=
                  (hopens.mem_callees_iff _ _).2 hcall
                exact absurd (hfollows'.present hcall' hneeds') habsent
            · obtain ⟨start, hloads, hfetched, hchain⟩ := ih rfl hpresent
              exact ⟨start, hloads, hfetched, hchain.tail ⟨hcall, hdormant⟩⟩
  exact hback .library name hfollows rfl habsent

omit hloaded in
/-- What a body names that is there in both states is mentioned in the second. -/
theorem Mentioned.of_present {holder name : String} {f : Func}
    (hpresent : Present program library' holder) (hf : library.func? holder = some f)
    (hmentions : f.opened.Mentions name) : Mentioned program library' name := by
  obtain ⟨g, hg, hsame⟩ := hopens.exists_func?' hf
  exact ⟨holder, g, hpresent, hg, (Func.mentions_congr hsame name).2 hmentions⟩

/-- What is no longer retained is named by a dormant body. -/
theorem exists_dormant_holder (hlibrary : library.DistinctNames)
    (hlibrary' : library'.DistinctNames)
    (harchived : library.Archived) {name : String} (h : Retained program library name)
    (hnot : ¬ Retained program library' name) :
    ∃ start holder, library'.loads start = true ∧ Fetched program library start ∧
      Relation.TransGen (DormantCall program library library') start holder ∧
      library.Mentions holder name := by
  rw [retained_iff hlibrary] at h
  rw [retained_iff hlibrary', hopens.defines_eq, and_iff_right h.1, not_or] at hnot
  obtain ⟨habsent, hunmentioned⟩ := hnot
  rcases h.2 with hpresent | ⟨holder, f, hpresent, hf, hmentions⟩
  · obtain ⟨start, hloads, hfetched, hchain⟩ :=
      Dormant.exists_chain hloaded hopens ⟨hpresent.fetched harchived, habsent⟩
    -- The body that was there from the start does not name it, so the chain is longer.
    cases hchain with
    | single hcall =>
        obtain ⟨f, hf, hmentions⟩ := Module.exists_mentions_of_mem_callees hcall.1
        exact absurd (Mentioned.of_present hopens (Or.inl hloads) hf hmentions) hunmentioned
    | tail hchain hcall =>
        obtain ⟨f, hf, hmentions⟩ := Module.exists_mentions_of_mem_callees hcall.1
        obtain ⟨hmem, hname⟩ := Module.mem_of_func? hf
        exact ⟨start, _, hloads, hfetched, hchain, f, hmem, hname, hmentions⟩
  · have hasleep : ¬ Present program library' holder := fun hp =>
      hunmentioned (Mentioned.of_present hopens hp hf hmentions)
    obtain ⟨start, hloads, hfetched, hchain⟩ :=
      Dormant.exists_chain hloaded hopens ⟨hpresent.fetched harchived, hasleep⟩
    obtain ⟨hmem, hname⟩ := Module.mem_of_func? hf
    exact ⟨start, holder, hloads, hfetched, hchain, f, hmem, hname, hmentions⟩

end Opened

/-- Loading library bodies before an import preserves the definitions that it brings, except for
those lost, unless a renamed definition happens to get their name. A definition is lost if only
bodies name it that are called by way of one that was loaded early. -/
theorem preserved_importFrom_openSome_iff {program library out out' : Module}
    (hloaded : program.isLoaded = true) (hprogram : program.DistinctNames)
    (hlibrary : library.DistinctNames) (harchived : library.Archived) (early : String → Bool)
    {stats stats' : ImportStats} (h : program.importFrom library = .ok (stats, out))
    (h' : program.importFrom (library.openSome early) = .ok (stats', out')) :
    (Preserved program library out out' ↔
      ∀ name, Lost program library (library.openSome early) out name →
        Usurped program (library.openSome early) out' name) ∧
    ∀ name, Lost program library (library.openSome early) out name →
      Usurped program library out name ∨ ∃ start holder, early start = true ∧
        Fetched program library start ∧
        Relation.TransGen (DormantCall program library (library.openSome early)) start holder ∧
        library.Mentions holder name := by
  have hlibrary' := hlibrary.openSome early
  refine ⟨⟨?_, ?_⟩, ?_⟩
  · rintro hpreserved name ⟨hdefines, hown, hfirst, hnot⟩
    obtain ⟨f, hf, hdef⟩ := Module.defines_iff.1 hdefines
    obtain ⟨hmem, rfl⟩ := Module.mem_of_func? hf
    have hout := (defines_importFrom_iff hprogram h hlibrary.fronted hown).2 hfirst
    have hout' := hpreserved f hmem hdef hown hout
    exact ((defines_importFrom_iff hprogram h' hlibrary'.fronted hown).1 hout').resolve_left hnot
  · intro husurped f hf hdef hown hout
    rw [defines_importFrom_iff hprogram h' hlibrary'.fronted hown]
    by_cases hretained : Retained program (library.openSome early) f.name
    · exact Or.inl hretained
    · have hdefines := Module.defines_iff.2 ⟨f, hlibrary.func?_eq hf, hdef⟩
      have hfirst := (defines_importFrom_iff hprogram h hlibrary.fronted hown).1 hout
      exact Or.inr (husurped f.name ⟨hdefines, hown, hfirst, hretained⟩)
  · rintro name ⟨_, _, hretained | husurped, hnot⟩
    · obtain ⟨start, holder, hloads, hrest⟩ := exists_dormant_holder hloaded
        (hlibrary.opens_openSome early) hlibrary hlibrary' harchived hretained hnot
      exact Or.inr ⟨start, holder, harchived.early_of_loads early hloads, hrest⟩
    · exact Or.inl husurped

section Sample

/-- A procedure, one that it calls, and a third one that the second may call. -/
def chainLibrary (calls : List (String × List Operand)) : Module :=
  ⟨"l", [], [(Func.calling "f" [("h", [])]).packed, (Func.calling "h" calls).packed,
    (Func.calling "k" []).packed]⟩

/-- With the first body loaded early, the second still comes with it. -/
theorem preserved_importFrom_openSome_short :
    callbackProgram.isLoaded = true ∧ callbackProgram.DistinctNames ∧
    (chainLibrary []).DistinctNames ∧ (chainLibrary []).Archived ∧
    ∃ stats out stats' out', callbackProgram.importFrom (chainLibrary []) = .ok (stats, out) ∧
      callbackProgram.importFrom ((chainLibrary []).openSome fun n => n == "f") =
        .ok (stats', out') ∧
      out.defines "h" = true ∧ out'.defines "h" = true ∧
      ∀ name, Lost callbackProgram (chainLibrary []) ((chainLibrary []).openSome fun n => n == "f")
          out name →
        Usurped callbackProgram ((chainLibrary []).openSome fun n => n == "f") out' name := by
  have hloaded : callbackProgram.isLoaded = true := by decide +kernel
  have hprogram : callbackProgram.DistinctNames := by decide +kernel
  have hlibrary : (chainLibrary []).DistinctNames := by decide +kernel
  -- Evaluated together, so that the bodies are decoded only once.
  obtain ⟨harchived, hgood⟩ : (chainLibrary []).Archived ∧
      (callbackProgram.importFrom (chainLibrary [])).toOption.any (fun r =>
        (callbackProgram.importFrom ((chainLibrary []).openSome fun n => n == "f")).toOption.any
          fun r' => r.2.defines "h" = true ∧ r'.2.defines "h" = true ∧
            Preserved callbackProgram (chainLibrary []) r.2 r'.2) = true := by
    decide +kernel
  refine ⟨hloaded, hprogram, hlibrary, harchived, ?_⟩
  obtain ⟨r, hr, hearly⟩ := exists_ok_of_any hgood
  obtain ⟨r', hr', hboth⟩ := exists_ok_of_any hearly
  obtain ⟨hfirst, hsecond, hpreserved⟩ := of_decide_eq_true hboth
  exact ⟨r.1, r.2, r'.1, r'.2, hr, hr', hfirst, hsecond,
    (preserved_importFrom_openSome_iff hloaded hprogram hlibrary harchived _ hr hr').1.1
      hpreserved⟩

/-- If the second calls the third, that one is lost. -/
theorem not_preserved_importFrom_openSome_chain :
    callbackProgram.isLoaded = true ∧ callbackProgram.DistinctNames ∧
    (chainLibrary [("k", [])]).DistinctNames ∧ (chainLibrary [("k", [])]).Archived ∧
    ∃ stats out stats' out', callbackProgram.importFrom (chainLibrary [("k", [])]) =
        .ok (stats, out) ∧
      callbackProgram.importFrom ((chainLibrary [("k", [])]).openSome fun n => n == "f") =
        .ok (stats', out') ∧
      out.defines "k" = true ∧ out'.defines "k" = false ∧
      ¬ Preserved callbackProgram (chainLibrary [("k", [])]) out out' := by
  obtain ⟨harchived, hbad⟩ : (chainLibrary [("k", [])]).Archived ∧
      (callbackProgram.importFrom (chainLibrary [("k", [])])).toOption.any (fun r =>
        (callbackProgram.importFrom
          ((chainLibrary [("k", [])]).openSome fun n => n == "f")).toOption.any fun r' =>
            r.2.defines "k" = true ∧ r'.2.defines "k" = false ∧
              ¬ Preserved callbackProgram (chainLibrary [("k", [])]) r.2 r'.2) = true := by
    decide +kernel
  refine ⟨by decide +kernel, by decide +kernel, by decide +kernel, harchived, ?_⟩
  obtain ⟨r, hr, hearly⟩ := exists_ok_of_any hbad
  obtain ⟨r', hr', hboth⟩ := exists_ok_of_any hearly
  exact ⟨r.1, r.2, r'.1, r'.2, hr, hr', of_decide_eq_true hboth⟩

end Sample

end Postlink
