import Postlink.Proofs.Linking.Capture
import Postlink.Proofs.Namesakes
import Mathlib.Data.List.Find

/-!
# What a link comes to

A link goes through the source three times: it settles clashes of functions, moves the variables,
and moves the functions. Which step of a pass fails is known before the pass begins. A clash is
settled exactly if the source's definition is internal (`settle_cases`), a variable is moved exactly
if not both modules initialize it (`moveVariables_cases`), and once clashes are settled every
function is moved (`exists_moveFunctions`). Together they leave four ways in which a link can end
(`Outcome`).
-/

namespace Postlink

/-- A run in which it is known beforehand which steps fail ends at the first of those, if there is
one. -/
theorem stepAll_foreseen {σ α ε : Type} (step : σ → α → Except ε σ) (as : List α) (fails : α → Bool)
    (fault : α → ε) {motive : List α → σ → Prop} {s : σ} (start : motive [] s)
    (fail : ∀ done a rest s, as = done ++ a :: rest → motive done s → fails a = true →
      step s a = .error (fault a))
    (pass : ∀ done a rest s, as = done ++ a :: rest → motive done s → fails a = false →
      ∃ s', step s a = .ok s' ∧ motive (done ++ [a]) s') :
    (as.find? fails = none ∧ ∃ t, stepAll step s as = (.ok (), t) ∧ motive as t) ∨
      ∃ a t, as.find? fails = some a ∧ stepAll step s as = (.error (fault a), t) ∧
        motive (as.takeWhile fun a => !fails a) t := by
  have hrun : ∀ rest done s, as = done ++ rest → motive done s →
      (rest.find? fails = none ∧ ∃ t, stepAll step s rest = (.ok (), t) ∧ motive as t) ∨
        ∃ a t, rest.find? fails = some a ∧ stepAll step s rest = (.error (fault a), t) ∧
          motive (done ++ rest.takeWhile fun a => !fails a) t := by
    intro rest
    induction rest with
    | nil =>
        intro done s hsplit hdone
        rw [List.append_nil] at hsplit
        exact Or.inl ⟨rfl, s, rfl, hsplit ▸ hdone⟩
    | cons a rest ih =>
        intro done s hsplit hdone
        cases ha : fails a with
        | true =>
            refine Or.inr ⟨a, s, List.find?_cons_of_pos ha, ?_, ?_⟩
            · rw [stepAll, fail done a rest s hsplit hdone ha]
            · rw [List.takeWhile_cons_of_neg (by simp [ha]), List.append_nil]
              exact hdone
        | false =>
            obtain ⟨s', hstep, hnext⟩ := pass done a rest s hsplit hdone ha
            rw [stepAll, hstep, List.find?_cons_of_neg (by simp [ha]),
              List.takeWhile_cons_of_pos (by simp [ha]), ← List.singleton_append,
                ← List.append_assoc]
            exact ih (done ++ [a]) s' (by simp [hsplit]) hnext
  exact hrun as [] s rfl start

namespace Module

/-- Whether the variable with a name has contents at the start. -/
def initializes (name : String) (m : Module) : Bool := (m.global? name).any fun g => !g.isDeclared

/-- Whether a function of a source defines for others what the destination defines too. -/
def rejects (dest : Module) (f : Func) : Bool :=
  !f.isDeclared && f.linkage ≠ .internal && dest.defines f.name

/-- Whether a variable of a source has contents under a name that has contents in the
destination. -/
def collides (dest : Module) (g : Global) : Bool := !g.isDeclared && dest.initializes g.name

/-- Whether a variable of a source is new to the destination, or gives contents to a declaration. -/
def takes (dest : Module) (g : Global) : Bool :=
  match dest.global? g.name with
  | none => true
  | some old => old.isDeclared && !g.isDeclared

section Settling

variable {dest src src' : Module} {ρ : String → String} {done : List String}

/-- A name that is not yet settled is internal in the source if it was at the start. -/
theorem Settled.isInternal_iff (hnames : src.DistinctNames) (h : Settled dest src done ρ src')
    {name : String} (hname : name ∉ done) (hdest : (dest.func? name).isSome = true) :
    src'.isInternal name = true ↔ src.isInternal name = true := by
  refine ⟨h.isInternal hnames hdest, fun hinternal => ?_⟩
  unfold Module.isInternal at hinternal
  cases hf : src.func? name with
  | none => rw [hf] at hinternal; cases hinternal
  | some f =>
      rw [hf] at hinternal
      obtain ⟨hmem, rfl⟩ := mem_of_func? hf
      have hfound : src'.func? f.name = some (f.renameBy ρ) := by
        rw [h.names.func?_eq_some_iff, h.module_eq]
        exact ⟨List.mem_map_of_mem hmem, h.other f.name hname⟩
      rw [Module.isInternal, hfound]
      exact hinternal

/-- The first clash that is not internal is the first function of the source that is rejected. -/
theorem find?_clashes (hsrc : src.DistinctNames) :
    (clashes dest src).find? (fun name => !src.isInternal name) =
      (src.functions.find? dest.rejects).map Func.name := by
  rw [clashes, List.find?_map, List.find?_filter]
  congr 1
  refine List.find?_congr fun f hf => ?_
  simp only [Function.comp_apply, isInternal, hsrc.func?_eq hf, rejects]
  cases f.isDeclared <;> cases dest.defines f.name <;> simp

/-- Clashes are settled up to the first function of the source that is rejected. -/
theorem settle_cases (dest : Module) (hsrc : src.DistinctNames) :
    (src.functions.find? dest.rejects = none ∧
      ∃ src', stepAll dest.settleClash src (clashes dest src) = (.ok (), src')) ∨
    ∃ f src', src.functions.find? dest.rejects = some f ∧
      stepAll dest.settleClash src (clashes dest src) =
        (.error (.duplicateSymbol f.name), src') := by
  have hrun := stepAll_foreseen dest.settleClash (clashes dest src)
    (fun name => !src.isInternal name)
    LinkError.duplicateSymbol (motive := fun done m => ∃ ρ, Settled dest src done ρ m)
    ⟨_, Settled.start hsrc⟩ ?_ ?_
  · rw [find?_clashes hsrc] at hrun
    rcases hrun with ⟨hnone, src', hs, _⟩ | ⟨name, src', hfind, hs, _⟩
    · exact Or.inl ⟨Option.map_eq_none_iff.1 hnone, src', hs⟩
    · obtain ⟨f, hf, rfl⟩ := Option.map_eq_some_iff.1 hfind
      exact Or.inr ⟨f, src', hf, hs⟩
  · rintro done name rest m hsplit ⟨ρ, hm⟩ hfails
    obtain ⟨hname, hdefines, _⟩ := clashes_turn hsrc hsplit
    have hnot : ¬ m.isInternal name = true := by
      rw [hm.isInternal_iff hsrc hname (isSome_func?_of_defines hdefines)]
      simpa using hfails
    rw [settleClash, if_neg hnot]
  · rintro done name rest m hsplit ⟨ρ, hm⟩ hfails
    obtain ⟨hname, hdefines, hdone⟩ := clashes_turn hsrc hsplit
    have hinternal : m.isInternal name = true := by
      rw [hm.isInternal_iff hsrc hname (isSome_func?_of_defines hdefines)]
      simpa using hfails
    obtain ⟨hdest, hm'⟩ := freshName_isFresh dest m name
    exact ⟨_, if_pos hinternal, _, hm.rename hsrc hdone hname hdefines hinternal hdest hm'⟩

end Settling

section Variables

variable {dest m m' : Module} {done : List Global} {g : Global}

theorem global?_addGlobal (g : Global) (m : Module) (n : String) :
    (m.addGlobal g).global? n = (m.global? n).or (if g.name = n then some g else none) := by
  rw [global?, addGlobal, List.find?_append, ← global?, List.find?_singleton]
  by_cases h : g.name = n <;> simp [h]

/-- Putting a variable in the place of the first one of its name. -/
theorem global?_replace {old : Global} (hold : m.global? g.name = some old) (n : String) :
    Module.global? n
      { m with globals := modifyFirst (fun h => h.name = g.name) (fun _ => g) m.globals } =
      if n = g.name then some g else m.global? n := by
  rw [global?, ← List.head?_filter, filter_modifyFirst_key hold rfl, global?, ← List.head?_filter]
  split <;> rfl

/-- The variables of a source that have been moved into a destination. -/
structure VariablesMoved (dest : Module) (done : List Global) (m : Module) : Prop where
  /-- Everything but the variables is as it was. -/
  frame : { m with globals := dest.globals } = dest
  /-- A name means the variable that was taken under it, and else what it meant. -/
  lookup : ∀ n, m.global? n =
    (done.find? fun g => g.name = n && dest.takes g).or (dest.global? n)
  /-- If none was taken, the module is as it was. -/
  unchanged : (∀ g ∈ done, dest.takes g = false) → m = dest

theorem VariablesMoved.functions (h : VariablesMoved dest done m) :
    m.functions = dest.functions := by
  have hframe := congrArg Module.functions h.frame
  exact hframe

/-- A name under which nothing was moved means what it meant. -/
theorem VariablesMoved.global?_eq (h : VariablesMoved dest done m) {n : String}
    (hother : ∀ g ∈ done, g.name ≠ n) : m.global? n = dest.global? n := by
  have hnone : (done.find? fun g => g.name = n && dest.takes g) = none := by
    rw [List.find?_eq_none]
    intro g hg
    simp [hother g hg]
  rw [h.lookup, hnone, Option.none_or]

/-- A variable with contents in both modules is not moved. -/
theorem VariablesMoved.mergeGlobal_error (h : VariablesMoved dest done m)
    (hother : ∀ g' ∈ done, g'.name ≠ g.name) (hg : dest.collides g = true) :
    m.mergeGlobal g = .error (.duplicateSymbol g.name) := by
  rw [collides, initializes, Bool.and_eq_true, Bool.not_eq_true', Option.any_eq_true] at hg
  obtain ⟨hdef, old, hold, hinit⟩ := hg
  rw [Bool.not_eq_true'] at hinit
  have hname : old.name = g.name := by simpa using List.find?_some hold
  simp only [mergeGlobal, h.global?_eq hother, hold, hdef, hinit, hname,
    Bool.false_eq_true, if_false]

/-- One more variable changes the module exactly if it is taken. -/
theorem VariablesMoved.concat (h : VariablesMoved dest done m)
    (hframe : { m' with globals := m.globals } = m)
    (hlookup : ∀ n, m'.global? n = if g.name = n && dest.takes g then some g else m.global? n)
    (hother : ∀ g' ∈ done, g'.name ≠ g.name) (hsame : dest.takes g = false → m' = m) :
    VariablesMoved dest (done ++ [g]) m' := by
  refine ⟨?_, fun n => ?_, fun hnone => ?_⟩
  · have hsame := congrArg (fun m => { m with globals := dest.globals }) hframe
    exact hsame.trans h.frame
  · rw [hlookup, List.find?_append, List.find?_singleton, h.lookup, Option.or_assoc]
    by_cases hn : (g.name = n && dest.takes g) = true
    · have hfirst : (done.find? fun g => g.name = n && dest.takes g) = none := by
        rw [Bool.and_eq_true, decide_eq_true_iff] at hn
        rw [List.find?_eq_none]
        intro g' hg'
        have hne : g'.name ≠ n := hn.1 ▸ hother g' hg'
        simp [hne]
      simp [hn, hfirst]
    · simp [hn]
  · have hg := hnone g (List.mem_append_right _ (List.mem_singleton_self g))
    rw [hsame hg]
    exact h.unchanged fun g' hg' => hnone g' (List.mem_append_left _ hg')

/-- Any other variable is moved. -/
theorem VariablesMoved.exists_mergeGlobal (h : VariablesMoved dest done m)
    (hother : ∀ g' ∈ done, g'.name ≠ g.name) (hg : dest.collides g = false) :
    ∃ m', m.mergeGlobal g = .ok m' ∧ VariablesMoved dest (done ++ [g]) m' := by
  have hthere := h.global?_eq hother
  unfold mergeGlobal
  cases hold : dest.global? g.name with
  | none =>
      have htakes : dest.takes g = true := by rw [takes, hold]
      rw [hthere, hold]
      refine ⟨_, rfl, h.concat rfl (fun n => ?_) hother fun hnot => ?_⟩
      · rw [global?_addGlobal]
        by_cases hn : g.name = n
        · subst hn
          simp [hthere, hold, htakes]
        · simp [hn]
      · rw [htakes] at hnot
        cases hnot
  | some old =>
      have htakes : dest.takes g = (old.isDeclared && !g.isDeclared) := by rw [takes, hold]
      rw [hthere, hold]
      cases hdecl : g.isDeclared with
      | true =>
          rw [hdecl, Bool.not_true, Bool.and_false] at htakes
          exact ⟨m, rfl, h.concat rfl (fun n => by simp [htakes]) hother fun _ => rfl⟩
      | false =>
          -- Contents do not meet contents, so they meet a declaration.
          have hold' : old.isDeclared = true := by
            simpa [collides, initializes, hold, hdecl] using hg
          rw [hdecl, hold', Bool.not_false, Bool.and_true] at htakes
          simp only [Bool.false_eq_true, if_false, hold', if_true]
          refine ⟨_, rfl, h.concat rfl (fun n => ?_) hother fun hnot => ?_⟩
          · rw [global?_replace (hthere.trans hold)]
            by_cases hn : n = g.name
            · simp [hn, htakes]
            · simp [hn, Ne.symm hn]
          · rw [htakes] at hnot
            cases hnot

/-- Variables are moved up to the first one that collides. -/
theorem moveVariables_cases (dest : Module) {globals : List Global}
    (hnames : (globals.map Global.name).Nodup) :
    (globals.find? dest.collides = none ∧
      ∃ mid, stepAll mergeGlobal dest globals = (.ok (), mid) ∧ VariablesMoved dest globals mid) ∨
    ∃ g mid, globals.find? dest.collides = some g ∧
      stepAll mergeGlobal dest globals = (.error (.duplicateSymbol g.name), mid) ∧
      VariablesMoved dest (globals.takeWhile fun g => !dest.collides g) mid := by
  have hother : ∀ done g rest, globals = done ++ g :: rest → ∀ g' ∈ done, g'.name ≠ g.name := by
    intro done g rest hsplit g' hg'
    rw [hsplit, List.map_append, List.nodup_append] at hnames
    exact hnames.2.2 _ (List.mem_map_of_mem hg') _ (List.mem_map_of_mem (List.mem_cons_self ..))
  refine stepAll_foreseen mergeGlobal globals dest.collides (fun g => .duplicateSymbol g.name)
    (motive := fun done m => VariablesMoved dest done m) ?_ ?_ ?_
  · exact ⟨rfl, fun n => rfl, fun _ => rfl⟩
  · intro done g rest m hsplit hm hg
    exact hm.mergeGlobal_error (hother done g rest hsplit) hg
  · intro done g rest m hsplit hm hg
    exact hm.exists_mergeGlobal (hother done g rest hsplit) hg

/-- What the destination initializes is not lost. -/
theorem VariablesMoved.global?_of_initializes (h : VariablesMoved dest done m) {n : String}
    (hn : dest.initializes n = true) : m.global? n = dest.global? n := by
  obtain ⟨old, hold, hinit⟩ := (Option.any_eq_true _ _).1 hn
  have hnone : (done.find? fun g => g.name = n && dest.takes g) = none := by
    rw [List.find?_eq_none]
    intro g _ hg
    rw [Bool.and_eq_true, decide_eq_true_iff] at hg
    obtain ⟨rfl, htakes⟩ := hg
    rw [Bool.not_eq_true'] at hinit
    simp [takes, hold, hinit] at htakes
  rw [h.lookup, hnone, Option.none_or]

/-- The module is as it was exactly if no variable was taken. -/
theorem VariablesMoved.eq_iff (h : VariablesMoved dest done m) :
    m = dest ↔ ∀ g ∈ done, dest.takes g = false := by
  refine ⟨?_, h.unchanged⟩
  rintro rfl g hg
  by_contra htakes
  rw [Bool.not_eq_false] at htakes
  obtain ⟨g', hfind⟩ : ∃ g', (done.find? fun h => h.name = g.name && m.takes h) = some g' := by
    rw [← Option.isSome_iff_exists, List.find?_isSome]
    exact ⟨g, hg, by simp [htakes]⟩
  have hg' := List.find?_some hfind
  rw [Bool.and_eq_true, decide_eq_true_iff] at hg'
  have hfound : m.global? g'.name = some g' := by
    rw [hg'.1, h.lookup, hfind, Option.some_or]
  -- What was taken is there, and it is not taken over itself.
  rw [takes, hfound] at hg'
  cases hdecl : g'.isDeclared <;> simp [hdecl] at hg'

end Variables

section Functions

variable {dest src src' mid : Module} {ρ : String → String}

/-- The next function is moved, if it is a declaration or meets declarations only. -/
theorem Moved.exists_mergeFunc (hdest : dest.DistinctNames) {done : List Func} {f : Func}
    (hdone : ((done ++ [f]).map Func.name).Nodup) {s : Module × Nat} (h : Moved dest done s)
    (hmeets : f.isDeclared = false → ∀ d ∈ dest.functions, d.name = f.name → d.isDeclared = true) :
    ∃ s', Module.mergeFunc s f = .ok s' ∧ Moved dest (done ++ [f]) s' := by
  have hother : ∀ g ∈ done, g.name ≠ f.name := by
    intro g hg
    rw [List.map_append, List.nodup_append] at hdone
    exact hdone.2.2 _ (List.mem_map_of_mem hg) _ (by simp)
  have hok : ∃ s', Module.mergeFunc s f = .ok s' := by
    unfold Module.mergeFunc
    cases hold : s.1.func? f.name with
    | none => exact ⟨_, rfl⟩
    | some old =>
        obtain ⟨d, hd, hname, rfl⟩ := h.exists_dest hold hother
        cases hf : f.isDeclared with
        | true => exact ⟨s, rfl⟩
        | false =>
            have hdecl := hmeets hf d hd hname
            simp only [Func.isDeclared_recast, hdecl, Bool.false_eq_true, if_false, Bool.not_true]
            exact ⟨_, rfl⟩
  obtain ⟨s', hs'⟩ := hok
  exact ⟨s', hs', h.mergeFunc hdest hdone hs'⟩

/-- Where clashes are settled, functions can be moved one after the other. -/
theorem Settled.exists_mergeFunc (hdest : dest.DistinctNames)
    (h : Settled dest src (clashes dest src) ρ src') {done rest : List Func} {f : Func}
    (hsplit : src'.functions = done ++ f :: rest) {s : Module × Nat} (hs : Moved dest done s) :
    ∃ s', mergeFunc s f = .ok s' ∧ Moved dest (done ++ [f]) s' := by
  have hdone : ((done ++ [f]).map Func.name).Nodup := by
    have hsub : done ++ [f] <+: src'.functions := ⟨rest, by rw [hsplit]; simp⟩
    exact h.names.sublist (hsub.sublist.map _)
  refine hs.exists_mergeFunc hdest hdone fun hdef d hd hname => ?_
  have hf : f ∈ src'.functions := by
    rw [hsplit]
    exact List.mem_append_right _ (List.mem_cons_self ..)
  rw [h.module_eq] at hf
  obtain ⟨f₀, hf₀, rfl⟩ := List.mem_map.1 hf
  exact h.isDeclared_of_name_eq hdest hf₀ (by simpa using hdef) hd hname

/-- Where clashes are settled, every function is moved. -/
theorem exists_moveFunctions (hdest : dest.DistinctNames)
    (h : Settled dest src (clashes dest src) ρ src') (hmid : mid.functions = dest.functions) :
    ∃ s, stepAll mergeFunc (mid, 0) src'.functions = (.ok (), s) ∧ Moved dest src'.functions s := by
  have hrun := stepAll_foreseen mergeFunc src'.functions (fun _ => false)
    (fun f => .duplicateSymbol f.name) (motive := fun done s => Moved dest done s)
      (Moved.start hmid)
    ?_ ?_
  · rcases hrun with ⟨_, s, hs, hmoved⟩ | ⟨_, _, hfind, _⟩
    · exact ⟨s, hs, hmoved⟩
    · exact absurd (List.find?_some hfind) Bool.false_ne_true
  · intro done f rest s hsplit hs hfails
    cases hfails
  · intro done f rest s hsplit hs _
    exact h.exists_mergeFunc hdest hsplit hs

end Functions

/-- The ways in which a link can end. -/
inductive Outcome (dest src : Module) : Except LinkError Nat × Module → Prop
  /-- A body of the source is not loaded. -/
  | unloaded {f : Func} (hstored : src.functions.find? Func.isStored = some f) :
      Outcome dest src (.error (.unloadedBody f.name), dest)
  /-- A definition that others may use is there twice. -/
  | rejected {f : Func} (hloaded : src.functions.find? Func.isStored = none)
      (hrejected : src.functions.find? dest.rejects = some f) :
      Outcome dest src (.error (.duplicateSymbol f.name), dest)
  /-- A variable has contents twice; those before it were moved. -/
  | collided {g : Global} {mid : Module} (hloaded : src.functions.find? Func.isStored = none)
      (hrejected : src.functions.find? dest.rejects = none)
      (hcollided : src.globals.find? dest.collides = some g)
      (hmid : VariablesMoved dest (src.globals.takeWhile fun g => !dest.collides g) mid) :
      Outcome dest src (.error (.duplicateSymbol g.name), mid)
  /-- Everything was moved. -/
  | linked {ρ : String → String} {src' mid out : Module} {gained : Nat}
      (hloaded : src.functions.find? Func.isStored = none)
      (hrejected : src.functions.find? dest.rejects = none)
      (hcollided : src.globals.find? dest.collides = none)
      (hsettled : Settled dest src (clashes dest src) ρ src')
      (hmid : VariablesMoved dest src.globals mid) (hglobals : out.globals = mid.globals)
      (hmoved : Moved dest src'.functions (out, gained)) : Outcome dest src (.ok gained, out)

/-- Every link of modules with distinct names ends in one of these ways. -/
theorem outcome_link {dest src : Module} (hdest : dest.DistinctNames) (hsrc : src.DistinctNames)
    (hglobals : (src.globals.map Global.name).Nodup) : Outcome dest src (dest.link src) := by
  unfold link
  cases hstored : src.functions.find? Func.isStored with
  | some f => exact .unloaded hstored
  | none =>
      rcases settle_cases dest hsrc with ⟨hnone, src', hs⟩ | ⟨f, src', hf, hs⟩
      · obtain ⟨ρ, hsettled⟩ := exists_settled hsrc hs
        have hsame : src'.globals = src.globals := by
          rw [hsettled.module_eq]
          rfl
        simp only [hs, merge, hsame]
        rcases moveVariables_cases dest hglobals with
          ⟨hcollides, mid, hm, hmid⟩ | ⟨g, mid, hg, hm, hmid⟩
        · obtain ⟨⟨out, gained⟩, hrun, hmoved⟩ := exists_moveFunctions hdest hsettled hmid.functions
          simp only [hm, hrun]
          exact .linked hstored hnone hcollides hsettled hmid (globals_of_mergeFuncs hrun) hmoved
        · simp only [hm]
          exact .collided hstored hnone hg hmid
      · simp only [hs]
        exact .rejected hstored hf

end Module

end Postlink
