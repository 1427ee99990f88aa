import Postlink.Proofs.Lowering.Outcome
import Postlink.Proofs.Overflow

/-!
# Uses of results after lowering

A replacement takes its values from the call as it was listed at the start. If one of them is the
result of another call that is replaced as well, the new instruction keeps the old result, and the
instruction that gave it is removed at the end. Apart from such chains every result that a lowered
body uses comes from further up (`usesEarlier_lowered_iff`).
-/

namespace Postlink

namespace Operand

/-- The instruction whose result an operand is, also below casts. -/
def result? (o : Operand) : Option Nat :=
  match o.base with
  | .inst k => some k
  | _ => none

/-- Where no cast hides a result, renumbering renumbers the result. -/
theorem result?_renumber {o : Operand} (h : ∀ k, o.result? = some k → o = .inst k) (ρ : Nat → Nat) :
    (o.renumber ρ).result? = o.result?.map ρ := by
  cases o with
  | cast value ty =>
      have hnone : (Operand.cast value ty).result? = none := by
        rw [Option.eq_none_iff_forall_ne_some]
        intro k hk
        cases h k hk
      rw [hnone, Option.map_none]
      exact hnone
  | _ => rfl

end Operand

namespace Instr

/-- Every result that is used comes from an instruction further up. -/
def UsesEarlier (is : List Instr) : Prop :=
  ∀ pre x post, is = pre ++ x :: post →
    ∀ o ∈ x.operands, ∀ k, o.result? = some k → ∃ y ∈ pre, y.id = k

theorem usesEarlier_iff (is : List Instr) :
    (∀ n : Fin is.length, ∀ o ∈ is[n].operands, ∀ k ∈ o.result?.toList,
      ∃ y ∈ is.take n, y.id = k) ↔ UsesEarlier is := by
  constructor
  · rintro h pre x post rfl o ho k hk
    have hn : pre.length < (pre ++ x :: post).length := by simp
    have hpre := h ⟨pre.length, hn⟩ o (by simpa using ho) k (by simpa using hk)
    simpa using hpre
  · intro h n o ho k hk
    have hsplit : is = is.take n ++ is[n] :: is.drop (n + 1) := by simp
    exact h _ _ _ hsplit o ho k (by simpa using hk)

instance (is : List Instr) : Decidable (UsesEarlier is) :=
  decidable_of_iff _ (usesEarlier_iff is)

end Instr

/-- The values that a step takes from the call it stands in for. -/
def Step.operands (step : Step) : List Operand := (step.instruction none).2.operands

namespace Module

/-- A body whose results can be followed: they come from further up, no cast hides one, and no one
takes the result of a lifetime marker. -/
structure Traceable (m : Module) (f : Func) : Prop where
  /-- Results come from further up. -/
  earlier : Instr.UsesEarlier f.instrs
  /-- No cast hides a result. -/
  plain : ∀ i ∈ f.instrs, ∀ o ∈ i.operands, ∀ k ∈ o.result?, o = .inst k
  /-- Lifetime markers have no result. -/
  unmarked : ∀ site ∈ f.directCalls, m.marks site = true →
    ∀ i ∈ f.instrs, .inst site.instr.id ∉ i.operands

instance (m : Module) (f : Func) : Decidable (m.Traceable f) :=
  decidable_of_iff (Instr.UsesEarlier f.instrs ∧
      (∀ i ∈ f.instrs, ∀ o ∈ i.operands, ∀ k ∈ o.result?, o = .inst k) ∧
      ∀ site ∈ f.directCalls, m.marks site = true →
        ∀ i ∈ f.instrs, .inst site.instr.id ∉ i.operands)
    ⟨fun h => ⟨h.1, h.2.1, h.2.2⟩, fun h => ⟨h.1, h.2, h.3⟩⟩

/-- A call that is replaced hands the result of another call that is replaced to its replacement. -/
def Chained (m : Module) (f : Func) : Prop :=
  ∃ site ∈ f.directCalls, ∃ step ∈ (m.replacement? f.name site).getD [],
    ∃ site' ∈ f.directCalls, (m.replacement? f.name site').isSome ∧
      .inst site'.instr.id ∈ step.operands

instance (m : Module) (f : Func) : Decidable (m.Chained f) :=
  inferInstanceAs (Decidable (∃ site ∈ f.directCalls, _))

end Module

/-- What a step's instruction takes besides values of the call is the result of the step before. -/
theorem Step.mem_operands_instruction {step : Step} {prev : Option Operand} {o : Operand} :
    o ∈ (step.instruction prev).2.operands → o ∈ step.operands ∨ prev = some o := by
  intro h
  cases step with
  | binary op ty lhs rhs => exact Or.inl h
  | convert op ty value => exact Or.inl h
  | intrinsic op tys args =>
      rcases List.mem_cons.1 h with rfl | h
      · exact Or.inl (List.mem_cons_self ..)
      · obtain ⟨source, hsource, ho⟩ := List.mem_filterMap.1 h
        cases source with
        | value v => exact Or.inl (List.mem_cons_of_mem _ (List.mem_filterMap.2 ⟨_, hsource, ho⟩))
        | previous => exact Or.inr ho

/-- The values of a call reach the step's instruction whatever stands before it. -/
theorem Step.mem_instruction_operands {step : Step} {o : Operand} (h : o ∈ step.operands)
    (prev : Option Operand) : o ∈ (step.instruction prev).2.operands := by
  cases step with
  | binary op ty lhs rhs => exact h
  | convert op ty value => exact h
  | intrinsic op tys args =>
      rcases List.mem_cons.1 h with rfl | h
      · exact List.mem_cons_self ..
      · obtain ⟨source, hsource, ho⟩ := List.mem_filterMap.1 h
        cases source with
        | value v => exact List.mem_cons_of_mem _ (List.mem_filterMap.2 ⟨_, hsource, ho⟩)
        | previous => cases ho

/-- A replacement takes arguments of the call, and the functions that it calls. -/
theorem Replacement.mem_args {site : DirectCall} {steps : List Step} (h : Replacement site steps)
    {step : Step} (hstep : step ∈ steps) {o : Operand} (ho : o ∈ step.operands) :
    o ∈ site.call.args ∨ ∃ name, o = .func name := by
  -- An intrinsic takes its own name and those of its sources that are values.
  have hvalues : ∀ {op : Intrinsic} {tys : List Ty} {os : List Operand},
      o ∈ (Step.intrinsic op tys (os.map .value)).operands → o ∈ os ∨ ∃ name, o = .func name := by
    intro op tys os ho
    rcases List.mem_cons.1 ho with rfl | ho
    · exact Or.inr ⟨_, rfl⟩
    · obtain ⟨source, hsource, he⟩ := List.mem_filterMap.1 ho
      obtain ⟨p, hp, rfl⟩ := List.mem_map.1 hsource
      cases he
      exact Or.inl hp
  have hprevious : ∀ {op : Intrinsic} {tys : List Ty},
      o ∈ (Step.intrinsic op tys [.previous]).operands → ∃ name, o = .func name := by
    intro op tys ho
    exact ⟨_, List.mem_singleton.1 ho⟩
  cases h with
  | intrinsic hop hos =>
      rw [List.mem_singleton] at hstep
      subst hstep
      exact (hvalues ho).imp_left (hos o)
  | convert harg =>
      rw [List.mem_singleton] at hstep
      subst hstep
      rw [List.mem_singleton.1 ho]
      exact Or.inl harg
  | intrinsicChain hop hop' =>
      rcases List.mem_cons.1 hstep with rfl | hstep
      · exact hvalues ho
      · rw [List.mem_singleton] at hstep
        subst hstep
        exact Or.inr (hprevious ho)
  | binaryChain hlhs hrhs hop' =>
      rcases List.mem_cons.1 hstep with rfl | hstep
      · rcases List.mem_cons.1 ho with rfl | ho
        · exact Or.inl hlhs
        · rw [List.mem_singleton.1 ho]
          exact Or.inl hrhs
      · rw [List.mem_singleton] at hstep
        subst hstep
        exact Or.inr (hprevious ho)

/-- The arguments of a direct call are operands of its instruction. -/
theorem Instr.mem_operands_of_directCall? {i : Instr} {site : DirectCall}
    (h : i.directCall? = some site) {o : Operand} (ho : o ∈ site.call.args) : o ∈ i.operands := by
  simp only [directCall?, Option.bind_eq_bind, Option.bind_eq_some_iff, Option.pure_def,
    Option.some.injEq] at h
  obtain ⟨c, hc, _, _, rfl⟩ := h
  rw [operands_of_call? hc]
  exact List.mem_cons_of_mem _ ho

/-- An element of a list that was put together piece by piece stands in one of the pieces. -/
theorem flatMap_split {α β : Type} {g : α → List β} {as : List α} {pre post : List β} {b : β}
    (h : as.flatMap g = pre ++ b :: post) :
    ∃ before a after u v, as = before ++ a :: after ∧ g a = u ++ b :: v ∧
      pre = before.flatMap g ++ u := by
  induction as generalizing pre with
  | nil => simp at h
  | cons a as ih =>
      rw [List.flatMap_cons, List.append_eq_append_iff] at h
      rcases h with ⟨t, rfl, h⟩ | ⟨t, h, hrest⟩
      · obtain ⟨before, c, after, u, v, rfl, hc, rfl⟩ := ih h
        exact ⟨a :: before, c, after, u, v, rfl, hc, by simp⟩
      · cases t with
        | nil =>
            have hlater : as.flatMap g = [] ++ b :: post := hrest.symm
            obtain ⟨before, c, after, u, v, rfl, hc, hpre⟩ := ih hlater
            rw [List.append_nil] at h
            refine ⟨a :: before, c, after, u, v, rfl, hc, ?_⟩
            rw [List.flatMap_cons, List.append_assoc, ← hpre, List.append_nil, h]
        | cons c t =>
            rw [List.cons_append, List.cons.injEq] at hrest
            refine ⟨[], a, as, pre, t, rfl, ?_, by simp⟩
            rw [h, hrest.1]

namespace Module

variable {m : Module} {f : Func}

/-- A call that is removed although its result is used is replaced. -/
theorem Traceable.replaced (h : m.Traceable f) {i j : Instr} (hi : i ∈ f.instrs)
    (hj : j ∈ f.instrs) (huse : .inst j.id ∈ i.operands) (hremoves : m.removes f j = true) :
    ∃ site ∈ f.directCalls, site.instr = j ∧ j.directCall? = some site ∧
      ∃ steps, m.replacement? f.name site = some steps := by
  obtain ⟨site, hsite, htreats⟩ := (Option.any_eq_true _ _).1 hremoves
  have hinstr := Func.directCall?_eq_some hsite
  have hmem : site ∈ f.directCalls := List.mem_filterMap.2 ⟨j, hj, hsite⟩
  refine ⟨site, hmem, hinstr, hsite, ?_⟩
  unfold treats at htreats
  split at htreats
  · rename_i verdict hv
    cases verdict with
    | drop =>
        have hunused := h.unmarked site hmem (marks_iff.2 (width?_of_verdict hv)) i hi
        rw [hinstr] at hunused
        exact absurd huse hunused
    | replace steps => exact ⟨steps, replacement?_eq_some_iff.2 hv⟩
  · cases htreats

/-- Where uses of a result go, there is an instruction in its place. -/
theorem exists_mem_outcome (hf : f.Numbered) (hplan : f.Planned (m.rewrites f)) {j : Instr}
    (hj : j ∈ f.instrs)
    (h : m.removes f j = true → ∃ site, j.directCall? = some site ∧
      ∃ steps, m.replacement? f.name site = some steps) :
    ∃ x ∈ m.outcome f j, x.id = Rewrite.redirect (m.rewrites f) j.id := by
  cases hremoves : m.removes f j with
  | false =>
      rw [Rewrite.redirect_eq_self (old_ne_of_not_removes hf hj hremoves)]
      refine ⟨j.renumber (Rewrite.redirect (m.rewrites f)), ?_, rfl⟩
      simp [outcome, hremoves]
  | true =>
      obtain ⟨site, hsite, steps, hsteps⟩ := h hremoves
      obtain ⟨before, after, hsplit⟩ := List.append_of_mem hj
      obtain ⟨first, hr, ρ, houtcome, _, _⟩ :=
        outcome_of_replacement? hf hplan hsplit hsite hsteps
      have hne : (site.rewrite steps first).instrs ≠ [] := site.instrsFor_ne_nil
        (replacement_of_verdict (replacement?_eq_some_iff.1 hsteps)).ne_nil none first
      obtain ⟨x, hx, hid⟩ := Rewrite.exists_mem_result hne
      have hold : (site.rewrite steps first).old = j.id :=
        congrArg Instr.id (Func.directCall?_eq_some hsite)
      rw [← hold, Rewrite.redirect_of_mem hplan.nodup hr, houtcome]
      exact ⟨_, List.mem_map_of_mem hx, hid⟩

/-- An old identifier in a lowered body belongs to an instruction that was kept. -/
theorem not_removes_of_mem_outcome (hf : f.Numbered) (hplan : f.Planned (m.rewrites f))
    {i j x : Instr} (hi : i ∈ f.instrs) (hx : x ∈ m.outcome f i) (hj : j ∈ f.instrs)
    (hid : x.id = j.id) : m.removes f j = false := by
  have hlt := hf.below j hj
  rw [outcome] at hx
  split at hx
  · have hge := Rewrite.le_id_of_mem_inserted (fun r hr => (hplan.bounds hf r hr).2) hx
    omega
  · rename_i hremoves
    rw [List.mem_singleton] at hx
    subst hx
    have hij : i = j := List.inj_on_of_nodup_map hf.distinct hi hj hid
    subst hij
    simpa using hremoves

/-- What a kept instruction uses is there, or has been replaced further up. -/
theorem Traceable.exists_of_kept (hf : f.Numbered) (hplan : f.Planned (m.rewrites f))
    (h : m.Traceable f) {before after : List Instr} {i : Instr}
    (hinstrs : f.instrs = before ++ i :: after) {o : Operand}
    (ho : o ∈ (i.renumber (Rewrite.redirect (m.rewrites f))).operands) {k : Nat}
    (hk : o.result? = some k) : ∃ y ∈ before.flatMap (m.outcome f), y.id = k := by
  have hi : i ∈ f.instrs := by simp [hinstrs]
  rw [Instr.operands_mapOperands, List.mem_map] at ho
  obtain ⟨p, hp, rfl⟩ := ho
  rw [Operand.result?_renumber (fun k hk => h.plain i hi p hp k hk)] at hk
  obtain ⟨l, hl, rfl⟩ := Option.map_eq_some_iff.1 hk
  obtain ⟨j, hj, rfl⟩ := h.earlier before i after hinstrs p hp l hl
  have hj' : j ∈ f.instrs := by simp [hinstrs, hj]
  have huse : .inst j.id ∈ i.operands := h.plain i hi p hp _ hl ▸ hp
  obtain ⟨y, hy, hid⟩ := exists_mem_outcome hf hplan hj' fun hr => by
    obtain ⟨site, _, _, hsite, hsteps⟩ := h.replaced hi hj' huse hr
    exact ⟨site, hsite, hsteps⟩
  exact ⟨y, List.mem_flatMap.2 ⟨j, hj, hy⟩, hid⟩

/-- What a replacement takes from its call is there unless the calls are chained. -/
theorem Traceable.exists_of_taken (hf : f.Numbered) (hplan : f.Planned (m.rewrites f))
    (h : m.Traceable f) (hchain : ¬ m.Chained f) {before after : List Instr} {i : Instr}
    (hinstrs : f.instrs = before ++ i :: after) {site : DirectCall}
    (hsite : i.directCall? = some site) {steps : List Step}
    (hsteps : m.replacement? f.name site = some steps) {step : Step} (hstep : step ∈ steps)
    {k : Nat} (hk : .inst k ∈ step.operands) :
    ∃ j ∈ before, j.id = k ∧ ∃ y ∈ before.flatMap (m.outcome f), y.id = k := by
  have hi : i ∈ f.instrs := by simp [hinstrs]
  have hform := replacement_of_verdict (replacement?_eq_some_iff.1 hsteps)
  have hmem : site ∈ f.directCalls := List.mem_filterMap.2 ⟨i, hi, hsite⟩
  have huse : .inst k ∈ i.operands := by
    rcases hform.mem_args hstep hk with harg | ⟨_, hfunc⟩
    · exact Instr.mem_operands_of_directCall? hsite harg
    · cases hfunc
  obtain ⟨j, hj, rfl⟩ := h.earlier before i after hinstrs _ huse k rfl
  have hj' : j ∈ f.instrs := by simp [hinstrs, hj]
  have hkept : m.removes f j = false := by
    by_contra hremoves
    rw [Bool.not_eq_false] at hremoves
    obtain ⟨site', hmem', hinstr', _, steps', hsteps'⟩ := h.replaced hi hj' huse hremoves
    refine hchain ⟨site, hmem, step, ?_, site', hmem', ?_, ?_⟩
    · rw [hsteps]
      exact hstep
    · rw [hsteps']
      rfl
    · rw [hinstr']
      exact hk
  obtain ⟨y, hy, hid⟩ := exists_mem_outcome hf hplan hj' fun hr => by
    rw [hkept] at hr
    cases hr
  rw [Rewrite.redirect_eq_self (old_ne_of_not_removes hf hj' hkept)] at hid
  exact ⟨j, hj, rfl, y, List.mem_flatMap.2 ⟨j, hj, hy⟩, hid⟩

/-- What a new instruction uses is there unless the calls are chained. -/
theorem Traceable.exists_of_new (hf : f.Numbered) (hplan : f.Planned (m.rewrites f))
    (h : m.Traceable f) (hchain : ¬ m.Chained f) {before after : List Instr} {i : Instr}
    (hinstrs : f.instrs = before ++ i :: after) (hremoves : m.removes f i = true)
    {pre post : List Instr} {x : Instr} (hx : m.outcome f i = pre ++ x :: post) {o : Operand}
    (ho : o ∈ x.operands) {k : Nat} (hk : o.result? = some k) :
    ∃ y ∈ before.flatMap (m.outcome f) ++ pre, y.id = k := by
  have hi : i ∈ f.instrs := by simp [hinstrs]
  have hmem : x ∈ Rewrite.inserted (m.rewrites f) i.id := by
    rw [outcome, if_pos hremoves] at hx
    simp [hx]
  obtain ⟨site, _, hsite, steps, hsteps⟩ := exists_replacement?_of_mem_inserted hf hi hmem
  obtain ⟨first, hr, ρ, houtcome, hbefore, hfresh⟩ :=
    outcome_of_replacement? hf hplan hinstrs hsite hsteps
  rw [houtcome] at hx
  obtain ⟨pre', rest, hsplit, rfl, hrest⟩ := List.map_eq_append_iff.1 hx
  obtain ⟨x', post', rfl, rfl, _⟩ := List.map_eq_cons_iff.1 hrest
  obtain ⟨step, hstep, p, hkind, hp⟩ := DirectCall.instrsFor_split hsplit
  rw [Instr.operands_mapOperands, List.mem_map] at ho
  obtain ⟨q, hq, rfl⟩ := ho
  rw [Instr.operands, hkind] at hq
  rcases Step.mem_operands_instruction hq with htaken | hprev
  · -- A value of the call, under its old identifier.
    have hform := replacement_of_verdict (replacement?_eq_some_iff.1 hsteps)
    rcases hform.mem_args hstep htaken with harg | ⟨name, rfl⟩
    · have hplain := h.plain i hi q (Instr.mem_operands_of_directCall? hsite harg)
      rw [Operand.result?_renumber (fun k hk => hplain k hk)] at hk
      obtain ⟨l, hl, rfl⟩ := Option.map_eq_some_iff.1 hk
      rw [hplain l hl] at htaken
      obtain ⟨j, hj, rfl, y, hy, hid⟩ :=
        h.exists_of_taken hf hplan hchain hinstrs hsite hsteps hstep htaken
      exact ⟨y, List.mem_append_left _ hy, by rw [hid, hbefore j hj]⟩
    · cases hk
  · -- The result of the new instruction before, which is fresh.
    rcases hp with rfl | ⟨y, hy, rfl⟩
    · cases hprev
    · cases hprev
      cases hk
      have hge : f.upcomingId ≤ y.id := by
        have hy' : y ∈ site.instrsFor none first steps := by
          rw [hsplit]
          exact List.mem_append_left _ hy
        have hfirst : first ≤ y.id := (site.rewrite steps first).first_le_id hy'
        exact Nat.le_trans (hplan.bounds hf _ hr).2 hfirst
      refine ⟨y.renumber ρ, List.mem_append_right _ (List.mem_map_of_mem hy), ?_⟩
      exact (hfresh _ hge).symm

/-- Of two chained calls, the second keeps a use of the first, which is gone. -/
theorem Chained.not_usesEarlier (hf : f.Numbered) (hplan : f.Planned (m.rewrites f))
    (h : m.Traceable f) (hchain : m.Chained f) :
    ¬ Instr.UsesEarlier (f.instrs.flatMap (m.outcome f)) := by
  intro huses
  obtain ⟨site, hmem, step, hstep, site', hmem', hreplaced, hk⟩ := hchain
  obtain ⟨i, hi, hsite⟩ := List.mem_filterMap.1 hmem
  obtain ⟨j, hj, hsite'⟩ := List.mem_filterMap.1 hmem'
  rw [Func.directCall?_eq_some hsite'] at hk
  cases hsteps : m.replacement? f.name site with
  | none => rw [hsteps] at hstep; cases hstep
  | some steps =>
      rw [hsteps, Option.getD_some] at hstep
      obtain ⟨before, after, hinstrs⟩ := List.append_of_mem hi
      obtain ⟨first, _, ρ, houtcome, hbefore, _⟩ :=
        outcome_of_replacement? hf hplan hinstrs hsite hsteps
      have hform := replacement_of_verdict (replacement?_eq_some_iff.1 hsteps)
      have huse : .inst j.id ∈ i.operands := by
        rcases hform.mem_args hstep hk with harg | ⟨_, hfunc⟩
        · exact Instr.mem_operands_of_directCall? hsite harg
        · cases hfunc
      obtain ⟨j', hj', hid⟩ := h.earlier before i after hinstrs _ huse j.id rfl
      obtain ⟨x, hx, p, hkind⟩ := site.exists_mem_instrsFor hstep none first
      have hnew : x.renumber ρ ∈ f.instrs.flatMap (m.outcome f) := by
        refine List.mem_flatMap.2 ⟨i, hi, ?_⟩
        rw [houtcome]
        exact List.mem_map_of_mem hx
      have ho : .inst j.id ∈ (x.renumber ρ).operands := by
        rw [Instr.operands_mapOperands, Instr.operands, hkind, List.mem_map]
        refine ⟨_, Step.mem_instruction_operands hk p, ?_⟩
        rw [Operand.renumber, ← hid, hbefore j' hj']
      obtain ⟨pre, post, hsplit⟩ := List.append_of_mem hnew
      obtain ⟨y, hy, hyid⟩ := huses pre _ post hsplit _ ho j.id rfl
      -- Only an instruction that was kept carries the old identifier, and this one was not.
      have hy' : y ∈ f.instrs.flatMap (m.outcome f) := by
        rw [hsplit]
        exact List.mem_append_left _ hy
      obtain ⟨l, hl, hyl⟩ := List.mem_flatMap.1 hy'
      have hkept := not_removes_of_mem_outcome hf hplan hl hyl hj hyid
      obtain ⟨steps', hsteps'⟩ := Option.isSome_iff_exists.1 hreplaced
      have hremoves : m.removes f j = true := by
        simp [removes, hsite', treats_of_replacement? hsteps']
      rw [hkept] at hremoves
      cases hremoves

/-- A lowered body uses only what comes further up, exactly if no calls are chained. -/
theorem usesEarlier_lowered_iff (hf : f.Numbered) (hplan : f.Planned (m.rewrites f))
    (h : m.Traceable f) : Instr.UsesEarlier (m.lowered f).instrs ↔ ¬ m.Chained f := by
  rw [instrs_lowered hf hplan]
  constructor
  · intro huses hchain
    exact hchain.not_usesEarlier hf hplan h huses
  · intro hchain pre x post hsplit o ho k hk
    obtain ⟨before, i, after, u, v, hinstrs, hx, rfl⟩ := flatMap_split hsplit
    cases hremoves : m.removes f i with
    | true => exact h.exists_of_new hf hplan hchain hinstrs hremoves hx ho hk
    | false =>
        rw [outcome, hremoves] at hx
        have hu : u = [] ∧ x = i.renumber (Rewrite.redirect (m.rewrites f)) := by
          cases u with
          | nil => exact ⟨rfl, (List.cons.inj hx).1.symm⟩
          | cons y u => simp at hx
        obtain ⟨rfl, rfl⟩ := hu
        obtain ⟨y, hy, hid⟩ := h.exists_of_kept hf hplan hinstrs ho hk
        exact ⟨y, by rwa [List.append_nil], hid⟩

/-- Making symbols internal changes no body. -/
theorem mem_functions_internalize {g : Func} (h : g ∈ m.internalize.1.functions) :
    ∃ f ∈ m.functions, f.name = g.name ∧ f.instrs = g.instrs := by
  obtain ⟨f, hf, rfl⟩ := List.mem_map.1 h
  refine ⟨f, hf, ?_, ?_⟩
  · split <;> rfl
  · split <;> rfl

/-- Let names and identifiers be distinct, let every counter stand above the identifiers in use, and
let identifiers stay in range. After lowering a module whose results can be followed, each function
uses only what comes further up, exactly if no calls were chained in the function of that name, and
no function is lost. -/
theorem usesEarlier_lower_iff {m out : Module} (hnames : m.DistinctNames) (hnum : m.Numbered)
    (htrace : ∀ f ∈ m.functions, m.Traceable f) {internal : Bool}
    (hrange : m.LowersInRange internal) {mode : Overflow} {stats : LoweringStats}
    (h : m.lower mode internal = .ok (stats, out)) :
    (∀ g ∈ out.functions,
      Instr.UsesEarlier g.instrs ↔ ∀ f ∈ m.functions, f.name = g.name → ¬ m.Chained f) ∧
    ∀ f ∈ m.functions, ∃ g ∈ out.functions, g.name = f.name := by
  rw [hrange.lower_eq] at h
  obtain ⟨hplan, ds, hds, hdistinct, rfl⟩ := lower_eq hnames hnum h
  have hiff : ∀ g ∈ (m.loweredWith ds).functions,
      Instr.UsesEarlier g.instrs ↔ ∀ f ∈ m.functions, f.name = g.name → ¬ m.Chained f := by
    intro g hg
    rcases List.mem_append.1 hg with hg | hg
    · obtain ⟨f, hf, rfl⟩ := List.mem_map.1 hg
      have hname : (m.lowered f).name = f.name := f.name_rewriteBy _
      rw [usesEarlier_lowered_iff (hnum f hf) (hplan f hf) (htrace f hf), hname]
      constructor
      · intro hchain f' hf' hsame
        rwa [List.inj_on_of_nodup_map hnames hf' hf hsame]
      · intro hall
        exact hall f hf rfl
    · -- A declaration that was added carries a name that no function had.
      rw [(hds g hg).instrs_eq_nil]
      constructor
      · intro _ f hf hsame
        rw [DistinctNames, loweredWith, List.map_append, List.nodup_append] at hdistinct
        have hname : f.name ∈ (m.functions.map m.lowered).map Func.name := by
          rw [List.map_map]
          exact List.mem_map.2 ⟨f, hf, f.name_rewriteBy _⟩
        exact absurd hsame (hdistinct.2.2 _ hname _ (List.mem_map_of_mem hg))
      · intro _ pre x post hnil
        simp at hnil
  have hkept : ∀ f ∈ m.functions, ∃ g ∈ (m.loweredWith ds).functions, g.name = f.name := by
    intro f hf
    exact ⟨m.lowered f, List.mem_append_left _ (List.mem_map_of_mem hf), f.name_rewriteBy _⟩
  cases internal with
  | false => exact ⟨hiff, hkept⟩
  | true =>
      refine ⟨?_, ?_⟩
      · intro g hg
        obtain ⟨g', hg', hname, hinstrs⟩ := mem_functions_internalize hg
        rw [← hname, ← hinstrs]
        exact hiff g' hg'
      · intro f hf
        obtain ⟨g, hg, hname⟩ := hkept f hf
        refine ⟨_, List.mem_map_of_mem hg, ?_⟩
        rw [← hname]
        split <;> rfl

/-- A call of the square root. -/
def rootCall (id : Nat) (x : Operand) : Instr :=
  ⟨id, "", .float 32,
    .call ⟨.func "__builtin_IB_native_sqrtf", ⟨.float 32, [.float 32]⟩, [x], .c⟩, none⟩

/-- A kernel that returns the square root of a square root. -/
def nestedRoots : Func :=
  .define "kernel" ⟨.float 32, [.float 32]⟩ [⟨"entry",
    [rootCall 0 (.arg 0), rootCall 1 (.inst 0), ⟨2, "", .void, .ret (some (.inst 1)), none⟩]⟩]

/-- A function that returns the sum of two square roots. -/
def sumOfRoots : Func :=
  .define "sum" ⟨.float 32, [.float 32]⟩ [⟨"entry",
    [rootCall 0 (.arg 0), rootCall 1 (.arg 0),
      ⟨2, "", .float 32, .binary .fadd (.inst 0) (.inst 1), none⟩,
      ⟨3, "", .void, .ret (some (.inst 2)), none⟩]⟩]

/-- Functions together with the declaration of the square root. -/
def withRoot (fs : List Func) : Module :=
  ⟨"m", [], .declare "__builtin_IB_native_sqrtf" ⟨.float 32, [.float 32]⟩ :: fs⟩

/-- Of the two, only the kernel has chained calls. -/
theorem usesEarlier_lower_roots :
    (withRoot [nestedRoots, sumOfRoots]).Chained nestedRoots ∧
    ¬ (withRoot [nestedRoots, sumOfRoots]).Chained sumOfRoots ∧
    (withRoot [nestedRoots, sumOfRoots]).LowersInRange true ∧
    ∃ stats out, (withRoot [nestedRoots, sumOfRoots]).lower .wraps true = .ok (stats, out) ∧
      (∀ g ∈ out.functions, Instr.UsesEarlier g.instrs ↔
        ∀ f ∈ (withRoot [nestedRoots, sumOfRoots]).functions, f.name = g.name →
          ¬ (withRoot [nestedRoots, sumOfRoots]).Chained f) ∧
      ∀ f ∈ (withRoot [nestedRoots, sumOfRoots]).functions, ∃ g ∈ out.functions,
        g.name = f.name := by
  have hrange : (withRoot [nestedRoots, sumOfRoots]).LowersInRange true := by decide +kernel
  have hok : ((withRoot [nestedRoots, sumOfRoots]).lower .wraps true).isOk = true := by
    decide +kernel
  refine ⟨by decide +kernel, by decide +kernel, hrange, ?_⟩
  obtain ⟨r, hr⟩ := exists_ok_of_isOk hok
  exact ⟨r.1, r.2, hr, usesEarlier_lower_iff (by decide +kernel) (by decide +kernel)
    (by decide +kernel) hrange hr⟩

/-- Lowering the kernel leaves a use of a call that is gone, whichever way sums are made. -/
theorem not_usesEarlier_lower_nestedRoots :
    (withRoot [nestedRoots]).DistinctNames ∧ (withRoot [nestedRoots]).Numbered ∧
    (∀ f ∈ (withRoot [nestedRoots]).functions, (withRoot [nestedRoots]).Traceable f) ∧
    ∃ stats out, (∀ mode, (withRoot [nestedRoots]).lower mode false = .ok (stats, out)) ∧
      ∃ g ∈ out.functions, ¬ Instr.UsesEarlier g.instrs := by
  have hbad : ((withRoot [nestedRoots]).lower .stops false).toOption.any (fun r =>
      r.2.functions.any fun g => ¬ Instr.UsesEarlier g.instrs) = true := by decide +kernel
  have hrange : (withRoot [nestedRoots]).LowersInRange false := by decide +kernel
  obtain ⟨r, hr, hbad⟩ := exists_ok_of_any hbad
  obtain ⟨g, hg, huses⟩ := List.any_eq_true.1 hbad
  exact ⟨by decide +kernel, by decide +kernel, by decide +kernel, r.1, r.2,
    fun mode => (hrange.lower_eq mode).trans hr, g, hg, of_decide_eq_true huses⟩

end Module

end Postlink
