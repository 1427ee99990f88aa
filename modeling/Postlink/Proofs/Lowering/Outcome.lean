import Postlink.Proofs.Lowering.Sweep

/-!
# What lowering leaves of a function

Once the old calls are gone, every instruction of a function has left itself, the instructions that
stand in for it, or nothing (`outcome`, `lowered_eq`). With the declarations that were added this is
the module after lowering (`lower_eq`).
-/

namespace Postlink

theorem Func.IsTarget.instrs_eq_nil {d : Func} (h : d.IsTarget) : d.instrs = [] := by
  obtain ⟨op, tys, _, rfl⟩ := h
  rfl

namespace Module

/-- A function after lowering: its rewrites are carried out and the old calls are gone. -/
def lowered (m : Module) (f : Func) : Func := (m.expanded f).clear (m.staged f.name f.directCalls)

/-- The old calls of other functions do not count. -/
theorem mem_staged_iff {m : Module} (hnames : m.DistinctNames) {f : Func} (hf : f ∈ m.functions)
    (k : Nat) :
    (f.name, k) ∈ (m.functions.flatMap fun g => m.staged g.name g.directCalls) ↔
      (f.name, k) ∈ m.staged f.name f.directCalls := by
  constructor
  · intro h
    obtain ⟨g, hg, h⟩ := List.mem_flatMap.1 h
    have hname : g.name = f.name := by
      obtain ⟨site, _, he⟩ := List.mem_map.1 h
      exact congrArg Prod.fst he
    have hsame : g = f := List.inj_on_of_nodup_map hnames hg hf hname
    rwa [hsame] at h
  · intro h
    exact List.mem_flatMap.2 ⟨f, hf, h⟩

/-- Whether an instruction is a call that is replaced or dropped. -/
def removes (m : Module) (f : Func) (i : Instr) : Bool := i.directCall?.any (m.treats f.name)

/-- What is left of an instruction and what stands in its place after lowering. -/
def outcome (m : Module) (f : Func) (i : Instr) : List Instr :=
  if m.removes f i then Rewrite.inserted (m.rewrites f) i.id
  else [i.renumber (Rewrite.redirect (m.rewrites f))]

theorem treats_of_replacement? {m : Module} {caller : String} {site : DirectCall}
    {steps : List Step} (h : m.replacement? caller site = some steps) :
    m.treats caller site = true := by
  rw [replacement?_eq_some_iff] at h
  simp [treats, h]

/-- The calls that are staged are the ones that are removed. -/
theorem mem_staged_iff_removes {m : Module} {f : Func} (hf : f.Numbered) {i : Instr}
    (hi : i ∈ f.instrs) :
    (f.name, i.id) ∈ m.staged f.name f.directCalls ↔ m.removes f i = true := by
  simp only [staged, List.mem_map, List.mem_filter, Prod.mk.injEq, true_and, removes,
    Option.any_eq_true_iff_get, Func.directCalls, List.mem_filterMap]
  constructor
  · rintro ⟨site, ⟨⟨j, hj, hsite⟩, htreats⟩, hid⟩
    have hinstr := Func.directCall?_eq_some hsite
    rw [hinstr] at hid
    have hji : j = i := List.inj_on_of_nodup_map hf.distinct hj hi hid
    subst hji
    exact ⟨by simp [hsite], by simpa [hsite] using htreats⟩
  · rintro ⟨hsome, htreats⟩
    obtain ⟨site, hsite⟩ := Option.isSome_iff_exists.1 hsome
    refine ⟨site, ⟨⟨i, hi, hsite⟩, by simpa [hsite] using htreats⟩, ?_⟩
    rw [Func.directCall?_eq_some hsite]

/-- A rewrite replaces a call that asks for it. -/
theorem exists_of_mem_rewrites {m : Module} {f : Func} (hf : f.Numbered) {i : Instr}
    (hi : i ∈ f.instrs) {r : Rewrite} (hr : r ∈ m.rewrites f) (hold : r.old = i.id) :
    ∃ site ∈ f.directCalls, i.directCall? = some site ∧
      ∃ steps, m.replacement? f.name site = some steps := by
  obtain ⟨site, hsite, steps, first, hsteps, rfl⟩ := mem_rewritesFrom hr
  obtain ⟨j, hj, hcall⟩ := List.mem_filterMap.1 hsite
  have hij : j = i := by
    refine List.inj_on_of_nodup_map hf.distinct hj hi ?_
    rw [← Func.directCall?_eq_some hcall]
    exact hold
  exact ⟨site, hsite, hij ▸ hcall, steps, hsteps⟩

/-- An instruction that is not removed has no rewrite. -/
theorem old_ne_of_not_removes {m : Module} {f : Func} (hf : f.Numbered) {i : Instr}
    (hi : i ∈ f.instrs) (h : m.removes f i = false) : ∀ r ∈ m.rewrites f, r.old ≠ i.id := by
  intro r hr hold
  obtain ⟨site, _, hsite, steps, hsteps⟩ := exists_of_mem_rewrites hf hi hr hold
  simp [removes, hsite, treats_of_replacement? hsteps] at h

section Lowered

variable {m : Module} {f : Func}

/-- A lowered function has kept its blocks, with what each instruction has left. -/
theorem lowered_eq (hf : f.Numbered) (hplan : f.Planned (m.rewrites f)) :
    m.lowered f = (f.advance (Rewrite.width (m.rewrites f))).expand (m.outcome f) := by
  rw [lowered, Func.clear, expanded, Func.name_rewriteBy, Func.rewriteBy, Func.expand_expand]
  refine Func.expand_congr fun i hi => ?_
  rw [Func.instrs_advance] at hi
  -- New instructions have fresh identifiers, and only old ones are staged.
  have hfresh : ∀ x ∈ Rewrite.inserted (m.rewrites f) i.id,
      (f.name, x.id) ∉ m.staged f.name f.directCalls := by
    intro x hx hmem
    have hge := Rewrite.le_id_of_mem_inserted (fun r hr => (hplan.bounds hf r hr).2) hx
    obtain ⟨site, hsite, he⟩ := List.mem_map.1 hmem
    have hthere := Func.mem_instrs_of_mem_directCalls (List.mem_filter.1 hsite).1
    have hlt := hf.below _ hthere
    have hid := congrArg Prod.snd he
    dsimp only at hid
    omega
  have hinserted : (Rewrite.inserted (m.rewrites f) i.id).flatMap
      (fun x => if (f.name, x.id) ∈ m.staged f.name f.directCalls then [] else [x]) =
      Rewrite.inserted (m.rewrites f) i.id := by
    rw [List.flatMap_congr fun x hx => if_neg (hfresh x hx), List.flatMap_singleton']
  have hiff := mem_staged_iff_removes (m := m) hf hi
  rw [Rewrite.image, List.flatMap_append, hinserted, List.flatMap_singleton, outcome]
  cases hr : m.removes f i with
  | true =>
      rw [hr] at hiff
      simp [hiff]
  | false =>
      rw [Rewrite.inserted_eq_nil (old_ne_of_not_removes hf hi hr)]
      rw [hr] at hiff
      simp [hiff]

/-- The instructions of a lowered function are what became of those that it had. -/
theorem instrs_lowered (hf : f.Numbered) (hplan : f.Planned (m.rewrites f)) :
    (m.lowered f).instrs = f.instrs.flatMap (m.outcome f) := by
  rw [lowered_eq hf hplan, Func.instrs_expand, Func.instrs_advance]

/-- The rewrites before and after that of a call belong to the calls before and after it. -/
theorem rewrites_split {before after : List Instr} {i : Instr}
    (h : f.instrs = before ++ i :: after) {site : DirectCall} (hsite : i.directCall? = some site)
    {steps : List Step} (hsteps : m.replacement? f.name site = some steps) :
    ∃ rs first ss, m.rewrites f = rs ++ site.rewrite steps first :: ss ∧
      (∀ s ∈ rs, s.old ∈ before.map Instr.id) ∧ ∀ s ∈ ss, s.old ∈ after.map Instr.id := by
  have hcalls : f.directCalls =
      before.filterMap Instr.directCall? ++ site :: after.filterMap Instr.directCall? := by
    rw [Func.directCalls, h, List.filterMap_append, List.filterMap_cons, hsite]
  have hmem : ∀ {is : List Instr} {next : Nat},
      ∀ s ∈ m.rewritesFrom f.name next (is.filterMap Instr.directCall?),
      s.old ∈ is.map Instr.id := by
    intro is next s hs
    obtain ⟨site', hsite', steps', first, _, rfl⟩ := mem_rewritesFrom hs
    obtain ⟨j, hj, hcall⟩ := List.mem_filterMap.1 hsite'
    rw [← Func.directCall?_eq_some hcall] at hj
    exact List.mem_map_of_mem hj
  rw [rewrites, hcalls, rewritesFrom_append, rewritesFrom, hsteps]
  exact ⟨_, _, _, rfl, hmem, hmem⟩

/-- A call that is replaced leaves its new instructions. They still take the results of earlier
instructions under their old identifiers, whether or not those are replaced as well. -/
theorem outcome_of_replacement? (hf : f.Numbered) (hplan : f.Planned (m.rewrites f))
    {before after : List Instr} {i : Instr} (h : f.instrs = before ++ i :: after)
    {site : DirectCall} (hsite : i.directCall? = some site) {steps : List Step}
    (hsteps : m.replacement? f.name site = some steps) :
    ∃ first, site.rewrite steps first ∈ m.rewrites f ∧ ∃ ρ : Nat → Nat,
      m.outcome f i = (site.instrsFor none first steps).map (Instr.renumber ρ) ∧
        (∀ j ∈ before, ρ j.id = j.id) ∧ ∀ k, f.upcomingId ≤ k → ρ k = k := by
  obtain ⟨rs, first, ss, hrewrites, hrs, hss⟩ := rewrites_split h hsite hsteps
  have hold : (site.rewrite steps first).old = i.id :=
    congrArg Instr.id (Func.directCall?_eq_some hsite)
  have hids : ((before ++ i :: after).map Instr.id).Nodup := h ▸ hf.distinct
  rw [List.map_append, List.nodup_append] at hids
  obtain ⟨_, hafter, hbefore⟩ := hids
  have hmem : site.rewrite steps first ∈ m.rewrites f := by simp [hrewrites]
  refine ⟨first, hmem, Rewrite.redirect (site.rewrite steps first :: ss), ?_, ?_, ?_⟩
  · have hother : ∀ s ∈ rs, s.old ≠ i.id := fun s hs => hbefore _ (hrs s hs) _ (by simp)
    have hremoves : m.removes f i = true := by
      simp [removes, hsite, treats_of_replacement? hsteps]
    rw [outcome, if_pos hremoves, hrewrites, Rewrite.inserted_append_left hother, Rewrite.inserted,
      if_pos hold]
    rfl
  · intro j hj
    apply Rewrite.redirect_eq_self
    intro s hs
    have hlater : s.old ∈ (i :: after).map Instr.id := by
      rcases List.mem_cons.1 hs with rfl | hs
      · rw [hold]
        exact List.mem_cons_self ..
      · exact List.mem_cons_of_mem _ (hss s hs)
    exact (hbefore _ (List.mem_map_of_mem hj) _ hlater).symm
  · intro k hk
    apply Rewrite.redirect_eq_self
    intro s hs
    have hlt := (hplan.bounds hf s (by rw [hrewrites]; exact List.mem_append_right _ hs)).1
    omega

/-- New instructions stand for a call that is replaced. -/
theorem exists_replacement?_of_mem_inserted (hf : f.Numbered) {i x : Instr} (hi : i ∈ f.instrs)
    (hx : x ∈ Rewrite.inserted (m.rewrites f) i.id) :
    ∃ site ∈ f.directCalls, i.directCall? = some site ∧
      ∃ steps, m.replacement? f.name site = some steps := by
  have hold : ∃ r ∈ m.rewrites f, r.old = i.id := by
    by_contra hnone
    push Not at hnone
    rw [Rewrite.inserted_eq_nil hnone] at hx
    cases hx
  obtain ⟨r, hr, hold⟩ := hold
  exact exists_of_mem_rewrites hf hi hr hold

end Lowered

/-- A module after lowering, before symbols are made internal: every function lowered, and
declarations at the end. -/
def loweredWith (m : Module) (ds : List Func) : Module :=
  { m with functions := m.functions.map m.lowered ++ ds }

/-- A declaration that was added carries a name that no function had. -/
theorem func?_eq_none_of_loweredWith {m : Module} {ds : List Func}
    (h : (m.loweredWith ds).DistinctNames) {d : Func} (hd : d ∈ ds) : m.func? d.name = none := by
  have hnodup : ((m.functions.map m.lowered ++ ds).map Func.name).Nodup := h
  rw [List.map_append, List.nodup_append] at hnodup
  rw [func?_eq_none_iff]
  intro f hf hsame
  have hname : f.name ∈ (m.functions.map m.lowered).map Func.name := by
    rw [List.map_map]
    exact List.mem_map.2 ⟨f, hf, f.name_rewriteBy _⟩
  exact hnodup.2.2 _ hname _ (List.mem_map_of_mem hd) hsame

/-- Lowering refuses no call, gives no identifier twice, and counts the calls by what becomes of
them. -/
theorem lower_accounted {m out : Module} (hnames : m.DistinctNames) (hm : m.Numbered)
    {stats : LoweringStats} (h : m.lower .stops false = .ok (stats, out)) :
    (∀ f ∈ m.functions, ∀ site ∈ f.directCalls, ∃ verdict, m.verdict f.name site = .ok verdict) ∧
      (∀ f ∈ m.functions, ((m.lowered f).instrs.map Instr.id).Nodup) ∧
      stats = m.tally (m.functions.flatMap Func.directCalls) ⟨0, 0, 0⟩ := by
  obtain ⟨s, hs, heq⟩ := map_eq_ok h
  have hswept := Lowering.Swept.sweep hnames hm hs
  have hjudged := hswept.judged
  have hrewritten := hswept.rewritten
  have hstats := hswept.stats
  rw [List.take_length] at hjudged hrewritten hstats
  refine ⟨hjudged, ?_, ?_⟩
  · intro f hf
    exact Func.nodup_clear (hrewritten f hf).2.distinct _
  · rw [← hstats]
    exact (congrArg Prod.fst heq).symm

/-- Lowering gives every function its outcome and adds declarations of target intrinsics. -/
theorem lower_eq {m out : Module} (hnames : m.DistinctNames) (hm : m.Numbered) {internal : Bool}
    {stats : LoweringStats} (h : m.lower .stops internal = .ok (stats, out)) :
    (∀ f ∈ m.functions, f.Planned (m.rewrites f)) ∧ ∃ ds, (∀ d ∈ ds, d.IsTarget) ∧
      (m.loweredWith ds).DistinctNames ∧
      out = if internal then (m.loweredWith ds).internalize.1 else m.loweredWith ds := by
  cases hs : Lowering.sweep .stops m with
  | error e => simp [lower, hs, Except.map] at h
  | ok s =>
      have hswept := Lowering.Swept.sweep hnames hm hs
      obtain ⟨ds, hmodule, hds⟩ := hswept.shape
      have hrewritten := hswept.rewritten
      have hpending := hswept.pending
      rw [List.take_length, List.drop_length, List.append_nil] at hmodule
      rw [List.take_length] at hrewritten hpending
      have hids : s.module.DistinctIds := by
        intro g hg
        rw [hmodule] at hg
        rcases List.mem_append.1 hg with hg | hg
        · obtain ⟨f, hf, rfl⟩ := List.mem_map.1 hg
          exact (hrewritten f hf).2.distinct
        · rw [(hds g hg).instrs_eq_nil]
          exact List.nodup_nil
      have hcleared : (s.pending.carryOut s.module).module = m.loweredWith ds := by
        have hfuncs : ∀ f ∈ m.functions,
            (Func.clear s.pending.instrs ∘ m.expanded) f = m.lowered f := by
          intro f hf
          refine Func.clear_congr fun i _ => ?_
          rw [hpending]
          have hname : (m.expanded f).name = f.name := f.name_rewriteBy _
          rw [hname]
          exact mem_staged_iff hnames hf i.id
        have hdecls : ∀ d ∈ ds, d.clear s.pending.instrs = d := by
          intro d hd
          refine Func.clear_of_forall fun i hi => ?_
          rw [(hds d hd).instrs_eq_nil] at hi
          cases hi
        have hnone : s.pending.functions = [] := by rw [hpending]
        rw [Erasure.carryOut_module hswept.names hids, hnone, hmodule]
        simp only [keep, mapFuncs, List.map_append, List.map_map, List.map_congr_left hfuncs,
          List.map_congr_left hdecls]
        simp [loweredWith]
      have hkept : (m.loweredWith ds).DistinctNames := by
        have hsame : Func.name ∘ m.lowered = Func.name ∘ m.expanded := rfl
        have hswept := hswept.names
        rw [hmodule, DistinctNames, List.map_append, List.map_map] at hswept
        rwa [DistinctNames, loweredWith, List.map_append, List.map_map, hsame]
      refine ⟨fun f hf => (hrewritten f hf).1, ds, hds, hkept, ?_⟩
      simp only [lower, hs, Except.map, hcleared, Except.ok.injEq] at h
      cases internal with
      | true => exact (congrArg Prod.snd h).symm
      | false => exact (congrArg Prod.snd h).symm

end Module

end Postlink
