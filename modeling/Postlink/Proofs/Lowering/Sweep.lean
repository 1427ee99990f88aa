import Postlink.Proofs.Lowering.Shape

/-!
# What a sweep of lowering does

The sweep visits the functions in order and the calls of each in order. A call that it replaces adds
declarations behind all functions and one rewrite to the function it is in (`Underway.lowerSite`).
After the sweep every function has been expanded by its rewrites, the old calls are staged, and what
was done is counted (`Swept.sweep`).
-/

namespace Postlink

namespace Module

/-- The steps that a call is replaced by. -/
def replacement? (m : Module) (caller : String) (site : DirectCall) : Option (List Step) :=
  match m.verdict caller site with
  | .ok (some (.replace steps)) => some steps
  | _ => none

/-- Whether a call is replaced or dropped. -/
def treats (m : Module) (caller : String) (site : DirectCall) : Bool :=
  match m.verdict caller site with
  | .ok (some _) => true
  | _ => false

/-- The rewrites that a list of calls leads to, with fresh identifiers from `next` on. -/
def rewritesFrom (m : Module) (caller : String) : Nat → List DirectCall → List Rewrite
  | _, [] => []
  | next, site :: sites =>
      match m.replacement? caller site with
      | some steps => site.rewrite steps next :: rewritesFrom m caller (next + steps.length) sites
      | none => rewritesFrom m caller next sites

/-- The rewrites of a function. -/
def rewrites (m : Module) (f : Func) : List Rewrite :=
  m.rewritesFrom f.name f.upcomingId f.directCalls

/-- The calls that are staged for removal, by the function they are in. -/
def staged (m : Module) (caller : String) (sites : List DirectCall) : List (String × Nat) :=
  (sites.filter (m.treats caller)).map fun site => (caller, site.instr.id)

/-- What lowering some calls adds to the count of what has been done. -/
def tally (m : Module) (sites : List DirectCall) (stats : LoweringStats) : LoweringStats :=
  { stats with
    lowered := stats.lowered + sites.countP m.replaces
    dropped := stats.dropped + sites.countP m.marks }

/-- A function with all its rewrites carried out and the old calls still there. -/
def expanded (m : Module) (f : Func) : Func := f.rewriteBy (m.rewrites f)

theorem replacement?_eq_some_iff {m : Module} {caller : String} {site : DirectCall}
    {steps : List Step} : m.replacement? caller site = some steps ↔
      m.verdict caller site = .ok (some (.replace steps)) := by
  unfold replacement?
  split
  · rename_i heq
    simp [heq]
  · rename_i hne
    simpa using hne steps

/-- Later calls take later identifiers. -/
theorem rewritesFrom_append (m : Module) (caller : String) (next : Nat)
    (sites sites' : List DirectCall) :
    m.rewritesFrom caller next (sites ++ sites') =
      m.rewritesFrom caller next sites ++ m.rewritesFrom caller
        (next + Rewrite.width (m.rewritesFrom caller next sites)) sites' := by
  induction sites generalizing next with
  | nil => rfl
  | cons site sites ih =>
      rw [List.cons_append, rewritesFrom, rewritesFrom]
      split
      · rw [ih, List.cons_append, Rewrite.width, DirectCall.rewrite, DirectCall.length_instrsFor,
          Nat.add_assoc]
      · exact ih next

theorem staged_append (m : Module) (caller : String) (sites sites' : List DirectCall) :
    m.staged caller (sites ++ sites') = m.staged caller sites ++ m.staged caller sites' := by
  rw [staged, List.filter_append, List.map_append]
  rfl

theorem tally_append (m : Module) (sites sites' : List DirectCall) (stats : LoweringStats) :
    m.tally (sites ++ sites') stats = m.tally sites' (m.tally sites stats) := by
  simp [tally, List.countP_append, Nat.add_assoc]

/-- A call counts as what its verdict makes of it. -/
theorem tally_singleton {m : Module} {caller : String} {site : DirectCall}
    {verdict : Option Verdict} (h : m.verdict caller site = .ok verdict) (stats : LoweringStats) :
    m.tally [site] stats = match verdict with
      | none => stats
      | some .drop => { stats with dropped := stats.dropped + 1 }
      | some (.replace _) => { stats with lowered := stats.lowered + 1 } := by
  have hwidth := width?_of_verdict h
  have hmarks : m.marks site = decide (m.width? site.callee = some 0) := by
    rw [Bool.eq_iff_iff, decide_eq_true_iff]
    exact marks_iff
  simp only [tally, List.countP_singleton, replaces, hmarks, hwidth]
  cases verdict with
  | none => rfl
  | some verdict =>
      cases verdict with
      | drop => rfl
      | replace steps =>
          cases steps with
          | nil => exact absurd rfl (replacement_of_verdict h).ne_nil
          | cons step steps => rfl

/-- A rewrite belongs to a call that is replaced. -/
theorem mem_rewritesFrom {m : Module} {caller : String} {next : Nat} {sites : List DirectCall}
    {r : Rewrite} (h : r ∈ m.rewritesFrom caller next sites) :
    ∃ site ∈ sites, ∃ steps first, m.replacement? caller site = some steps ∧
      r = site.rewrite steps first := by
  induction sites generalizing next with
  | nil => cases h
  | cons site sites ih =>
      rw [rewritesFrom] at h
      split at h
      · rename_i steps hv
        rcases List.mem_cons.1 h with rfl | h
        · exact ⟨site, List.mem_cons_self .., steps, next, hv, rfl⟩
        · obtain ⟨site', hsite', hr⟩ := ih h
          exact ⟨site', List.mem_cons_of_mem _ hsite', hr⟩
      · obtain ⟨site', hsite', hr⟩ := ih h
        exact ⟨site', List.mem_cons_of_mem _ hsite', hr⟩

/-- A module with declarations of target intrinsics added. -/
def Declared (m m' : Module) : Prop :=
  ∃ ds, m' = { m with functions := m.functions ++ ds } ∧ ∀ d ∈ ds, d.IsTarget

theorem Declared.refl (m : Module) : m.Declared m := ⟨[], by simp, by simp⟩

theorem Declared.trans {m m' m'' : Module} (h : m.Declared m') (h' : m'.Declared m'') :
    m.Declared m'' := by
  obtain ⟨ds, rfl, hds⟩ := h
  obtain ⟨ds', rfl, hds'⟩ := h'
  refine ⟨ds ++ ds', by simp, fun d hd => ?_⟩
  rcases List.mem_append.1 hd with hd | hd
  · exact hds d hd
  · exact hds' d hd

/-- The functions that were there stay where they are. -/
theorem Declared.getElem? {m m' : Module} (h : m.Declared m') {k : Nat}
    (hk : k < m.functions.length) : m'.functions[k]? = m.functions[k]? := by
  obtain ⟨ds, rfl, _⟩ := h
  exact List.getElem?_append_left hk

/-- Declaring an intrinsic that is not recognised by its tag adds at most a target declaration. -/
theorem declared_declareIntrinsic (m : Module) {op : Intrinsic} (hop : op.recognised = false)
    (tys : List Ty) : m.Declared (m.declareIntrinsic op tys) := by
  unfold declareIntrinsic
  split
  · exact .refl m
  · exact ⟨[Func.ofIntrinsic op tys], rfl, fun d hd => ⟨op, tys, hop, List.mem_singleton.1 hd⟩⟩

/-- Declaring an intrinsic keeps names distinct. -/
theorem DistinctNames.declareIntrinsic {m : Module} (h : m.DistinctNames) (op : Intrinsic)
    (tys : List Ty) : (m.declareIntrinsic op tys).DistinctNames := by
  unfold Module.declareIntrinsic
  split
  · exact h
  · rename_i hnone
    rw [isSome_func?_iff] at hnone
    exact h.addFunc hnone

/-- Declaring what some steps call adds target declarations. -/
theorem declared_foldl_declare (m : Module) {steps : List Step}
    (hops : ∀ op tys args, Step.intrinsic op tys args ∈ steps → op.recognised = false) :
    m.Declared (steps.foldl Step.declare m) := by
  induction steps generalizing m with
  | nil => exact .refl m
  | cons step steps ih =>
      have hrest := fun m => ih m fun op tys args h => hops op tys args (List.mem_cons_of_mem _ h)
      cases step with
      | intrinsic op tys args =>
          have hop := hops op tys args (List.mem_cons_self ..)
          exact (m.declared_declareIntrinsic hop tys).trans (hrest _)
      | binary op ty lhs rhs => exact hrest m
      | convert op ty value => exact hrest m

/-- Declaring what some steps call keeps names distinct. -/
theorem DistinctNames.foldl_declare {m : Module} (h : m.DistinctNames) (steps : List Step) :
    (steps.foldl Step.declare m).DistinctNames := by
  induction steps generalizing m with
  | nil => exact h
  | cons step steps ih =>
      cases step with
      | intrinsic op tys args => exact ih (h.declareIntrinsic op tys)
      | binary op ty lhs rhs => exact ih h
      | convert op ty value => exact ih h

end Module

/-- The intrinsics of a replacement are not recognised by their tags. -/
theorem Replacement.not_recognised {site : DirectCall} {steps : List Step}
    (h : Replacement site steps) (op : Intrinsic) (tys : List Ty) (args : List Source)
    (hmem : Step.intrinsic op tys args ∈ steps) : op.recognised = false := by
  cases h with
  | intrinsic hop hos => simp_all
  | convert ho => simp at hmem
  | intrinsicChain hop hop' =>
      simp only [List.mem_cons, Step.intrinsic.injEq, List.not_mem_nil, or_false] at hmem
      rcases hmem with ⟨rfl, _⟩ | ⟨rfl, _⟩
      · exact hop
      · exact hop'
  | binaryChain hlhs hrhs hop' => simp_all

namespace Func

@[simp] theorem header_rewriteBy (rs : List Rewrite) (f : Func) :
    (f.rewriteBy rs).header = f.header := by
  simp only [rewriteBy, advance]
  split <;> rfl

/-- A direct call is found at its own instruction. -/
theorem directCall?_eq_some {i : Instr} {site : DirectCall} (h : i.directCall? = some site) :
    site.instr = i := by
  simp only [Instr.directCall?, Option.bind_eq_bind, Option.bind_eq_some_iff, Option.pure_def,
    Option.some.injEq] at h
  obtain ⟨_, _, _, _, rfl⟩ := h
  rfl

/-- The direct calls stand in the order of the body. -/
theorem directCalls_sublist (f : Func) : (f.directCalls.map DirectCall.instr).Sublist f.instrs := by
  rw [directCalls]
  induction f.instrs with
  | nil => exact List.Sublist.slnil
  | cons i is ih =>
      rw [List.filterMap_cons]
      split
      · exact ih.cons _
      · rename_i site hsite
        rw [List.map_cons, directCall?_eq_some hsite]
        exact ih.cons_cons _

theorem mem_instrs_of_mem_directCalls {f : Func} {site : DirectCall} (h : site ∈ f.directCalls) :
    site.instr ∈ f.instrs :=
  f.directCalls_sublist.subset (List.mem_map_of_mem h)

/-- Where identifiers are distinct, no call is listed twice. -/
theorem Numbered.nodup_directCalls {f : Func} (hf : f.Numbered) :
    (f.directCalls.map fun site => site.instr.id).Nodup := by
  have hsub := f.directCalls_sublist.map Instr.id
  rw [List.map_map] at hsub
  exact hf.distinct.sublist hsub

end Func

namespace Lowering

/-- What lowering some calls of a function does besides changing the module. -/
structure Accounted (m : Module) (caller : String) (sites : List DirectCall) (s s' : Lowering) :
    Prop where
  /-- No call is refused. -/
  judged : ∀ site ∈ sites, ∃ verdict, m.verdict caller site = .ok verdict
  /-- The old calls are staged. -/
  pending : s'.pending = ⟨s.pending.instrs ++ m.staged caller sites, s.pending.functions⟩
  /-- The calls are counted. -/
  stats : s'.stats = m.tally sites s.stats

theorem Accounted.nil (m : Module) (caller : String) (s : Lowering) : Accounted m caller [] s s :=
  ⟨by simp, by simp [Module.staged], rfl⟩

/-- Lowering calls one after the other adds up. -/
theorem Accounted.append {m : Module} {caller : String} {sites sites' : List DirectCall}
    {s t u : Lowering} (h : Accounted m caller sites s t) (h' : Accounted m caller sites' t u) :
    Accounted m caller (sites ++ sites') s u := by
  refine ⟨?_, ?_, ?_⟩
  · intro site hsite
    rcases List.mem_append.1 hsite with hsite | hsite
    · exact h.judged site hsite
    · exact h'.judged site hsite
  · rw [h'.pending, h.pending, m.staged_append, List.append_assoc]
  · rw [h'.stats, h.stats, m.tally_append]

/-- Lowering in the middle of one function: some of its calls are rewritten, and declarations have
been added behind all functions. -/
structure Underway (m : Module) (before : List Func) (f : Func) (after : List Func)
    (rs : List Rewrite) (s : Lowering) : Prop where
  /-- The rewrites follow one another. -/
  planned : f.Planned rs
  /-- Identifiers stay in order. -/
  numbered : (f.rewriteBy rs).Numbered
  /-- Only the function and the declarations at the end have changed. -/
  shape : ∃ ds, s.module = { m with functions := before ++ f.rewriteBy rs :: (after ++ ds) } ∧
    ∀ d ∈ ds, d.IsTarget
  /-- Earlier functions have kept their headers. -/
  headers : (before ++ f :: after).map Func.header = m.functions.map Func.header
  /-- Names stay distinct. -/
  names : s.module.DistinctNames

/-- A call is left alone, dropped, or replaced once what the replacement calls is declared. -/
theorem lowerSite_cases {mode : Overflow} {s s' : Lowering} {index : Nat} {site : DirectCall}
    (hs : lowerSite mode index s site = .ok s') :
    ((∀ f, s.module.functions[index]? = some f → s.module.verdict f.name site = .ok none) ∧
      s' = s) ∨
    (∃ f, s.module.functions[index]? = some f ∧ s.module.verdict f.name site = .ok (some .drop) ∧
      s' = { s with
        pending := s.pending.addInstr f.name site.instr.id
        stats := { s.stats with dropped := s.stats.dropped + 1 } }) ∨
    ∃ f steps g, s.module.functions[index]? = some f ∧
      s.module.verdict f.name site = .ok (some (.replace steps)) ∧ emit mode site steps f = .ok g ∧
      s' = { s with
        module := (steps.foldl Step.declare s.module).setFunc index g
        pending := s.pending.addInstr f.name site.instr.id
        stats := { s.stats with lowered := s.stats.lowered + 1 } } := by
  unfold lowerSite at hs
  split at hs
  · rename_i hnone
    refine Or.inl ⟨fun f hf => ?_, (Except.ok.inj hs).symm⟩
    rw [hnone] at hf
    cases hf
  · rename_i f hf
    split at hs
    · cases hs
    · rename_i hv
      refine Or.inl ⟨fun g hg => ?_, (Except.ok.inj hs).symm⟩
      rw [hf] at hg
      cases hg
      exact hv
    · rename_i hv
      exact Or.inr (Or.inl ⟨f, hf, hv, (Except.ok.inj hs).symm⟩)
    · rename_i steps hv
      split at hs
      · cases hs
      · rename_i g hemit
        exact Or.inr (Or.inr ⟨f, steps, g, hf, hv, hemit, (Except.ok.inj hs).symm⟩)

namespace Underway

variable {m : Module} {before after : List Func} {f : Func} {rs : List Rewrite} {s s' : Lowering}

/-- Only the module counts. -/
theorem of_module_eq (h : Underway m before f after rs s) (heq : s'.module = s.module) :
    Underway m before f after rs s' := by
  refine ⟨h.planned, h.numbered, ?_, h.headers, ?_⟩
  · rw [heq]
    exact h.shape
  · rw [heq]
    exact h.names

/-- A module that is being lowered has grown. -/
theorem grows (h : Underway m before f after rs s) : m.Grows s.module := by
  obtain ⟨ds, hmodule, hds⟩ := h.shape
  refine ⟨before ++ f.rewriteBy rs :: after, ds, ?_, ?_, hds⟩
  · rw [hmodule, List.append_assoc, List.cons_append]
  · rw [← h.headers]
    simp

/-- The function that is being lowered stays at its position. -/
theorem getElem?_functions (h : Underway m before f after rs s) :
    s.module.functions[before.length]? = some (f.rewriteBy rs) := by
  obtain ⟨ds, hmodule, _⟩ := h.shape
  rw [hmodule]
  simp

/-- Replacing a call adds its rewrite and the declarations that its steps need. -/
theorem replace (h : Underway m before f after rs s) (hf : f.Numbered) {site : DirectCall}
    (hthere : site.instr ∈ f.instrs) (hnew : ∀ t ∈ rs, t.old ≠ site.instr.id) {steps : List Step}
    (hsteps : Replacement site steps) {first : Nat}
    (hfirst : first = f.upcomingId + Rewrite.width rs) {g : Func}
    (hemit : emit .stops site steps (f.rewriteBy rs) = .ok g) (pending : Erasure)
    (stats : LoweringStats) :
    Underway m before f after (rs ++ [site.rewrite steps first])
      ⟨(steps.foldl Step.declare s.module).setFunc before.length g, pending, stats⟩ := by
  obtain ⟨rfl, hnumbered⟩ := h.planned.emit hf h.numbered hthere hnew hsteps.ne_nil hfirst hemit
  obtain ⟨ds, hmodule, hds⟩ := h.shape
  obtain ⟨ds', hdecl, hds'⟩ := s.module.declared_foldl_declare hsteps.not_recognised
  have hnames := h.names.foldl_declare steps
  have hset : (steps.foldl Step.declare s.module).setFunc before.length
        (f.rewriteBy (rs ++ [site.rewrite steps first])) =
      { m with functions := before ++ f.rewriteBy (rs ++ [site.rewrite steps first]) ::
        (after ++ (ds ++ ds')) } := by
    rw [hdecl, hmodule]
    simp [Module.setFunc]
  have hne : (site.rewrite steps first).instrs ≠ [] :=
    site.instrsFor_ne_nil hsteps.ne_nil none first
  refine ⟨.concat h.planned ⟨site.instr, hthere, rfl⟩ hnew hne hfirst, hnumbered, ⟨_, hset, ?_⟩,
    h.headers, ?_⟩
  · intro d hd
    rcases List.mem_append.1 hd with hd | hd
    · exact hds d hd
    · exact hds' d hd
  · rw [hdecl, hmodule] at hnames
    simp only [hset]
    simpa [Module.DistinctNames] using hnames

/-- Lowering one call: it is left alone, dropped, or replaced by its rewrite. -/
theorem lowerSite (h : Underway m before f after rs s) (hf : f.Numbered) {site : DirectCall}
    (hthere : site.instr ∈ f.instrs) (hnew : ∀ r ∈ rs, r.old ≠ site.instr.id)
    (hs : lowerSite .stops before.length s site = .ok s') :
    Underway m before f after
        (rs ++ m.rewritesFrom f.name (f.upcomingId + Rewrite.width rs) [site]) s' ∧
      Accounted m f.name [site] s s' := by
  simp only [Lowering.lowerSite, h.getElem?_functions, Func.name_rewriteBy,
    Module.verdict_of_grows h.grows] at hs
  cases hv : m.verdict f.name site with
  | error e => simp [hv] at hs
  | ok verdict =>
      have hjudged : ∀ site' ∈ [site], ∃ verdict, m.verdict f.name site' = .ok verdict := by
        intro site' hsite'
        rw [List.mem_singleton.1 hsite']
        exact ⟨verdict, hv⟩
      have htally := Module.tally_singleton hv s.stats
      cases verdict with
      | none =>
          simp only [hv, Except.ok.injEq] at hs
          subst hs
          refine ⟨?_, hjudged, ?_, htally.symm⟩
          · simpa [Module.rewritesFrom, Module.replacement?, hv] using h
          · simp [Module.staged, Module.treats, hv]
      | some verdict =>
          have hstaged : m.staged f.name [site] = [(f.name, site.instr.id)] := by
            simp [Module.staged, Module.treats, hv]
          cases verdict with
          | drop =>
              simp only [hv, Except.ok.injEq] at hs
              subst hs
              refine ⟨?_, hjudged, ?_, htally.symm⟩
              · simp only [Module.rewritesFrom, Module.replacement?, hv, List.append_nil]
                exact h.of_module_eq rfl
              · rw [hstaged]
                rfl
          | replace steps =>
              have hsteps := Module.replacement_of_verdict hv
              simp only [hv] at hs
              cases hemit : emit .stops site steps (f.rewriteBy rs) with
              | error e => rw [hemit] at hs; cases hs
              | ok g =>
                  rw [hemit] at hs
                  cases hs
                  refine ⟨?_, hjudged, ?_, htally.symm⟩
                  · simp only [Module.rewritesFrom, Module.replacement?, hv]
                    exact h.replace hf hthere hnew hsteps rfl hemit _ _
                  · rw [hstaged]
                    rfl

/-- Lowering some calls of the function carries out their rewrites and stages the old calls. -/
theorem foldlM_lowerSite (h : Underway m before f after rs s) (hf : f.Numbered)
    {sites : List DirectCall} (hthere : ∀ site ∈ sites, site.instr ∈ f.instrs)
    (hdistinct : (sites.map fun site => site.instr.id).Nodup)
    (hnew : ∀ r ∈ rs, ∀ site ∈ sites, r.old ≠ site.instr.id)
    (hs : sites.foldlM (Lowering.lowerSite .stops before.length) s = .ok s') :
    Underway m before f after
        (rs ++ m.rewritesFrom f.name (f.upcomingId + Rewrite.width rs) sites) s' ∧
      Accounted m f.name sites s s' := by
  induction sites generalizing rs s with
  | nil =>
      cases hs
      refine ⟨?_, .nil _ _ _⟩
      simpa [Module.rewritesFrom] using h
  | cons site sites ih =>
      rw [List.foldlM_cons] at hs
      obtain ⟨t, ht, hs⟩ := bind_eq_ok hs
      obtain ⟨hstep, hdone⟩ := h.lowerSite hf (hthere site (List.mem_cons_self ..))
        (fun r hr => hnew r hr site (List.mem_cons_self ..)) ht
      rw [List.map_cons, List.nodup_cons] at hdistinct
      have hnew' : ∀ r ∈ rs ++ m.rewritesFrom f.name (f.upcomingId + Rewrite.width rs) [site],
          ∀ site' ∈ sites, r.old ≠ site'.instr.id := by
        intro r hr site' hsite'
        rcases List.mem_append.1 hr with hr | hr
        · exact hnew r hr site' (List.mem_cons_of_mem _ hsite')
        · obtain ⟨_, hmem, steps, first, _, rfl⟩ := Module.mem_rewritesFrom hr
          rw [List.mem_singleton.1 hmem]
          exact fun he => hdistinct.1 (List.mem_map.2 ⟨site', hsite', he.symm⟩)
      obtain ⟨hrun, hrest⟩ := ih hstep
        (fun site' hsite' => hthere site' (List.mem_cons_of_mem _ hsite')) hdistinct.2 hnew' hs
      refine ⟨?_, hdone.append hrest⟩
      rw [← List.singleton_append, Module.rewritesFrom_append, ← List.append_assoc]
      rw [Rewrite.width_append, ← Nat.add_assoc] at hrun
      exact hrun

end Underway

/-- The sweep after the functions up to a position: they are expanded, the others as they were. -/
structure Swept (m : Module) (count : Nat) (s : Lowering) : Prop where
  /-- Only functions that were swept have changed, and declarations are added at the end. -/
  shape : ∃ ds, s.module = { m with
      functions := (m.functions.take count).map m.expanded ++ m.functions.drop count ++ ds } ∧
    ∀ d ∈ ds, d.IsTarget
  /-- Names stay distinct. -/
  names : s.module.DistinctNames
  /-- Rewrites follow one another and keep identifiers in order. -/
  rewritten : ∀ f ∈ m.functions.take count, f.Planned (m.rewrites f) ∧ (m.expanded f).Numbered
  /-- No call of a function that was swept is refused. -/
  judged : ∀ f ∈ m.functions.take count, ∀ site ∈ f.directCalls,
    ∃ verdict, m.verdict f.name site = .ok verdict
  /-- The old calls of the functions that were swept are staged. -/
  pending : s.pending =
    ⟨(m.functions.take count).flatMap fun f => m.staged f.name f.directCalls, []⟩
  /-- The calls of the functions that were swept are counted. -/
  stats : s.stats = m.tally ((m.functions.take count).flatMap Func.directCalls) ⟨0, 0, 0⟩

/-- Nothing has changed at the start. -/
theorem Swept.start {m : Module} (hnames : m.DistinctNames) : Swept m 0 (start m) := by
  refine ⟨⟨[], ?_, ?_⟩, hnames, ?_, ?_, rfl, rfl⟩
  · simp [Lowering.start]
  · simp
  · simp
  · simp

/-- Sweeping one more function. -/
theorem Swept.lowerAt {m : Module} (hm : m.Numbered) {count : Nat} {s s' : Lowering}
    (h : Swept m count s) (hcount : count < m.functions.length)
    (hs : lowerAt .stops s count = .ok s') : Swept m (count + 1) s' := by
  obtain ⟨ds, hmodule, hds⟩ := h.shape
  let f := m.functions[count]
  have hf : f.Numbered := hm f (List.getElem_mem hcount)
  have hdrop : m.functions.drop count = f :: m.functions.drop (count + 1) :=
    List.drop_eq_getElem_cons hcount
  have htake : m.functions.take (count + 1) = m.functions.take count ++ [f] :=
    (List.take_append_getElem hcount).symm
  have hlength : ((m.functions.take count).map m.expanded).length = count := by
    rw [List.length_map, List.length_take]
    omega
  have hunder : Underway m ((m.functions.take count).map m.expanded) f
      (m.functions.drop (count + 1)) [] s := by
    refine ⟨.nil, by rwa [Func.rewriteBy_nil], ⟨ds, ?_, hds⟩, ?_, h.names⟩
    · rw [Func.rewriteBy_nil, hmodule, hdrop, List.append_assoc, List.cons_append]
    · have hheader : Func.header ∘ m.expanded = Func.header :=
        funext fun g => g.header_rewriteBy _
      rw [← hdrop, List.map_append, List.map_map, hheader, ← List.map_append, List.take_append_drop]
  have hfound := hunder.getElem?_functions
  rw [hlength, Func.rewriteBy_nil] at hfound
  rw [Lowering.lowerAt, hfound] at hs
  obtain ⟨hrun, hdone⟩ := hunder.foldlM_lowerSite hf
    (fun site => Func.mem_instrs_of_mem_directCalls) hf.nodup_directCalls
    (fun r hr => absurd hr (List.not_mem_nil)) (by rw [hlength]; exact hs)
  have hexpanded : f.rewriteBy ([] ++ m.rewritesFrom f.name (f.upcomingId + Rewrite.width [])
      f.directCalls) = m.expanded f := rfl
  obtain ⟨ds', hmodule', hds'⟩ := hrun.shape
  have hnumbered := hrun.numbered
  have hplanned : f.Planned (m.rewrites f) := hrun.planned
  rw [hexpanded] at hmodule' hnumbered
  refine ⟨⟨ds', ?_, hds'⟩, hrun.names, ?_, ?_, ?_, ?_⟩
  · rw [hmodule', htake, List.map_append, List.map_singleton]
    simp
  · intro g hg
    rw [htake] at hg
    rcases List.mem_append.1 hg with hg | hg
    · exact h.rewritten g hg
    · rw [List.mem_singleton.1 hg]
      exact ⟨hplanned, hnumbered⟩
  · intro g hg
    rw [htake] at hg
    rcases List.mem_append.1 hg with hg | hg
    · exact h.judged g hg
    · rw [List.mem_singleton.1 hg]
      exact hdone.judged
  · rw [hdone.pending, h.pending, htake, List.flatMap_append, List.flatMap_singleton]
  · rw [hdone.stats, h.stats, htake, List.flatMap_append, List.flatMap_singleton, m.tally_append]

/-- A sweep of all functions that meets no overflow. -/
theorem Swept.sweep {m : Module} (hnames : m.DistinctNames) (hm : m.Numbered) {s : Lowering}
    (hs : sweep .stops m = .ok s) : Swept m m.functions.length s :=
  foldlM_range_induction (Swept.start hnames)
    (fun _ hcount _ _ h ht => h.lowerAt hm hcount ht) hs

end Lowering

end Postlink
