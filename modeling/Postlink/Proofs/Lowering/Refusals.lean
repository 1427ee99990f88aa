import Postlink.Proofs.Lowering.Declarations
import Mathlib.Data.List.Induction

/-!
# Which calls lowering refuses

A call is refused if it lacks a value that its replacement needs, or if it counts leading zeros at a
type that the target lacks (`Module.Offends`). That is read off the call and the headers of the
module as it was, and no rewrite changes either of them. Old calls stay in place until the end, so
each of them is still found when its turn comes (`Lowering.exists_emit`). The sweep therefore stops
at the first call that offends, and for no other reason (`Module.refuses_lower`).
-/

namespace Postlink

/-- A run in which a judgement of the elements says which steps fail. It fails with the first
failure there is, and otherwise keeps what the steps keep. -/
theorem foldlM_judged {ε α β : Type} (step : β → α → Except ε β) (judge : α → Option ε)
    {motive : List α → β → Prop} (as : List α) {b : β} (start : motive [] b)
    (next : ∀ before a after s, as = before ++ a :: after → motive before s →
      (∃ e, judge a = some e ∧ step s a = .error e) ∨
        judge a = none ∧ ∃ s', step s a = .ok s' ∧ motive (before ++ [a]) s') :
    (∃ e, as.findSome? judge = some e ∧ as.foldlM step b = .error e) ∨
      as.findSome? judge = none ∧ ∃ c, as.foldlM step b = .ok c ∧ motive as c := by
  induction as using List.reverseRecOn with
  | nil => exact Or.inr ⟨rfl, b, rfl, start⟩
  | append_singleton as a ih =>
      have hbefore := ih fun before a' after s hsplit =>
        next before a' (after ++ [a]) s (by rw [hsplit, List.append_assoc, List.cons_append])
      rw [List.findSome?_append, List.foldlM_append]
      rcases hbefore with ⟨e, hjudge, hrun⟩ | ⟨hjudge, s, hrun, hs⟩
      · rw [hjudge, hrun]
        exact Or.inl ⟨e, rfl, rfl⟩
      · rw [hjudge, hrun]
        rcases next as a [] s rfl hs with ⟨e, hlast, hstep⟩ | ⟨hlast, s', hstep, hs'⟩
        · exact Or.inl ⟨e, by simp [hlast], by simp [bind, Except.bind, hstep]⟩
        · exact Or.inr ⟨by simp [hlast], s', by simp [bind, Except.bind, hstep, pure, Except.pure],
            hs'⟩

namespace DirectCall

/-- The call passes a value at a position and expects a type there. -/
def Has (site : DirectCall) (k : Nat) : Prop :=
  k < site.call.args.length ∧ k < site.call.sig.params.length

instance (site : DirectCall) (k : Nat) : Decidable (site.Has k) :=
  inferInstanceAs (Decidable (k < site.call.args.length ∧ k < site.call.sig.params.length))

/-- A value that is not there is what makes a call malformed. -/
theorem arg_eq_error_iff {site : DirectCall} {caller : String} {k : Nat} {e : Failure} :
    site.arg caller k = .error e ↔ ¬ site.Has k ∧ e = .malformedCall caller site.callee := by
  unfold arg Has
  split
  · rename_i o t ho ht
    have hargs := (List.getElem?_eq_some_iff.1 ho).1
    have hparams := (List.getElem?_eq_some_iff.1 ht).1
    simp [hargs, hparams]
  · rename_i hnone
    have hmissing : ¬ (k < site.call.args.length ∧ k < site.call.sig.params.length) := by
      rintro ⟨hargs, hparams⟩
      exact hnone _ _ (List.getElem?_eq_getElem hargs) (List.getElem?_eq_getElem hparams)
    simp [hmissing, eq_comm]

/-- An argument is there if both its value and its type are. -/
theorem arg_eq_ok_iff {site : DirectCall} {caller : String} {k : Nat} {o : Operand} {t : Ty} :
    site.arg caller k = .ok (o, t) ↔
      site.call.args[k]? = some o ∧ site.call.sig.params[k]? = some t := by
  unfold arg
  split
  · rename_i o' t' ho ht
    simp [ho, ht]
  · rename_i hnone
    simpa using fun ho ht => hnone o t ho ht

end DirectCall

/-- Whether the builtins of a family take two values. -/
def Family.isBinary : Family → Bool
  | .signedToFloat => false
  | .unsignedToFloat => false
  | .mulRoundToZero => true
  | .addRoundToZero => true

namespace Module

/-- What the callee of a call is declared as. -/
def tag? (m : Module) (site : DirectCall) : Option Intrinsic :=
  (m.func? site.callee).bind Func.intrinsic

/-- The callee is not recognised by what it is declared as, so that its name counts. -/
def ByName (m : Module) (site : DirectCall) : Prop := ∀ op ∈ m.tag? site, op.recognised = false

/-- A call that cannot be lowered, and why. -/
inductive Offends (m : Module) (caller : String) (site : DirectCall) : Failure → Prop where
  /-- A count of leading zeros lacks the value to count in. -/
  | zerosOfNothing (htag : m.tag? site = some .ctlz) (hmissing : ¬ site.Has 0) :
      Offends m caller site (.malformedCall caller site.callee)
  /-- A count of leading zeros is not at 32 bits. -/
  | zerosAtType {t : Ty} (htag : m.tag? site = some .ctlz) (hthere : 0 < site.call.args.length)
      (hty : site.call.sig.params[0]? = some t) (hwidth : t ≠ .int 32) :
      Offends m caller site (.unsupportedOperand caller .ctlz (.int 32) t)
  /-- A builtin that becomes two intrinsics lacks the value that gives the type of the first one. -/
  | pairOfNothing {producer consumer : Intrinsic} (hname : m.ByName site)
      (hrecipe : Builtins.recipe? site.callee = some (.two producer consumer))
      (hmissing : ¬ site.Has 0) : Offends m caller site (.malformedCall caller site.callee)
  /-- A builtin of a family lacks a value that it takes. -/
  | familyOfFewer {family : Family} {k : Nat} (hname : m.ByName site)
      (hrecipe : Builtins.recipe? site.callee = none)
      (hfamily : Builtins.family? site.callee = some family)
      (hk : k = 0 ∨ k = 1 ∧ family.isBinary = true) (hmissing : ¬ site.Has k) :
      Offends m caller site (.malformedCall caller site.callee)

end Module

/-- A listed builtin is refused if it takes two steps and has no argument. -/
theorem Recipe.steps_eq_error_iff {caller : String} {site : DirectCall} {ret : Ty} {recipe : Recipe}
    {e : Failure} : recipe.steps caller site ret = .error e ↔
      (∃ producer consumer, recipe = .two producer consumer) ∧ ¬ site.Has 0 ∧
        e = .malformedCall caller site.callee := by
  cases recipe with
  | one op => simp [steps]
  | two producer consumer =>
      rw [← DirectCall.arg_eq_error_iff, steps]
      cases site.arg caller 0 <;> simp [Except.map]

/-- A builtin of a family is refused if it lacks a value. -/
theorem Family.steps_eq_error_iff {caller : String} {site : DirectCall} {ret : Ty} {family : Family}
    {e : Failure} : family.steps caller site ret = .error e ↔
      (∃ k, (k = 0 ∨ k = 1 ∧ family.isBinary = true) ∧ ¬ site.Has k) ∧
        e = .malformedCall caller site.callee := by
  have hrounded : ∀ op lhs, roundedSteps caller site op lhs = .error e ↔
      ¬ site.Has 1 ∧ e = .malformedCall caller site.callee := by
    intro op lhs
    rw [← DirectCall.arg_eq_error_iff, roundedSteps]
    cases site.arg caller 1 <;> simp [Except.map]
  unfold steps
  split
  · rename_i e' harg
    obtain ⟨hmissing, rfl⟩ := DirectCall.arg_eq_error_iff.1 harg
    simp only [Except.error.injEq]
    constructor
    · rintro rfl
      exact ⟨⟨0, Or.inl rfl, hmissing⟩, rfl⟩
    · rintro ⟨_, rfl⟩
      rfl
  · rename_i lhs harg
    have hthere : site.Has 0 := by
      by_contra hmissing
      rw [DirectCall.arg_eq_error_iff.2 ⟨hmissing, rfl⟩] at harg
      cases harg
    cases family with
    | signedToFloat => simp [isBinary, hthere]
    | unsignedToFloat => simp [isBinary, hthere]
    | mulRoundToZero => simp [isBinary, hthere, hrounded]
    | addRoundToZero => simp [isBinary, hthere, hrounded]

/-- A count of leading zeros is refused without a value, or for values that are not of 32 bits. -/
theorem DirectCall.leadingZeros_eq_error_iff {caller : String} {site : DirectCall} {e : Failure} :
    site.leadingZeros caller = .error e ↔
      ¬ site.Has 0 ∧ e = .malformedCall caller site.callee ∨
        ∃ t, 0 < site.call.args.length ∧ site.call.sig.params[0]? = some t ∧ t ≠ .int 32 ∧
          e = .unsupportedOperand caller .ctlz (.int 32) t := by
  unfold leadingZeros
  split
  · rename_i e' harg
    obtain ⟨hmissing, rfl⟩ := arg_eq_error_iff.1 harg
    simp only [Except.error.injEq]
    constructor
    · rintro rfl
      exact Or.inl ⟨hmissing, rfl⟩
    · rintro (⟨_, rfl⟩ | ⟨t, hargs, ht, _⟩)
      · rfl
      · exact absurd ⟨hargs, (List.getElem?_eq_some_iff.1 ht).1⟩ hmissing
  · rename_i o t harg
    obtain ⟨ho, ht⟩ := arg_eq_ok_iff.1 harg
    have hargs := (List.getElem?_eq_some_iff.1 ho).1
    have hthere : site.Has 0 := ⟨hargs, (List.getElem?_eq_some_iff.1 ht).1⟩
    by_cases hwidth : t = .int 32
    · simp [hthere, ht, hwidth]
    · simp [hthere, ht, hwidth, hargs, eq_comm]

namespace Module

section Offences

variable {m : Module} {caller : String} {site : DirectCall} {e : Failure}

/-- What can be wrong with a call whose callee counts by its name. -/
theorem offends_iff_of_byName (hname : m.ByName site) : m.Offends caller site e ↔
    ((∃ producer consumer, Builtins.recipe? site.callee = some (.two producer consumer)) ∧
        ¬ site.Has 0 ∨
      Builtins.recipe? site.callee = none ∧ ∃ family, Builtins.family? site.callee = some family ∧
        ∃ k, (k = 0 ∨ k = 1 ∧ family.isBinary = true) ∧ ¬ site.Has k) ∧
      e = .malformedCall caller site.callee := by
  have htag : m.tag? site ≠ some .ctlz := fun h => Bool.false_ne_true (hname _ h).symm
  constructor
  · intro h
    cases h with
    | zerosOfNothing h => exact absurd h htag
    | zerosAtType h => exact absurd h htag
    | pairOfNothing _ hrecipe hmissing => exact ⟨Or.inl ⟨⟨_, _, hrecipe⟩, hmissing⟩, rfl⟩
    | familyOfFewer _ hrecipe hfamily hk hmissing =>
        exact ⟨Or.inr ⟨hrecipe, _, hfamily, _, hk, hmissing⟩, rfl⟩
  · rintro ⟨⟨⟨_, _, hrecipe⟩, hmissing⟩ | ⟨hrecipe, _, hfamily, _, hk, hmissing⟩, rfl⟩
    · exact .pairOfNothing hname hrecipe hmissing
    · exact .familyOfFewer hname hrecipe hfamily hk hmissing

theorem map_replace_eq_error_iff {steps : Except Failure (List Step)} :
    steps.map (fun steps => some (Verdict.replace steps)) = .error e ↔ steps = .error e := by
  cases steps <;> simp [Except.map]

/-- A call that is known by its name is refused if it offends. -/
theorem byName_eq_error_iff (hname : m.ByName site) (ret : Ty) :
    site.byName caller ret = .error e ↔ m.Offends caller site e := by
  rw [DirectCall.byName, offends_iff_of_byName hname]
  cases hrecipe : Builtins.recipe? site.callee with
  | some recipe => simp [map_replace_eq_error_iff, Recipe.steps_eq_error_iff, and_assoc]
  | none =>
      cases hfamily : Builtins.family? site.callee with
      | some family => simp [map_replace_eq_error_iff, Family.steps_eq_error_iff]
      | none => simp

/-- A count of leading zeros is refused if it offends. -/
theorem leadingZeros_eq_error_iff_offends (htag : m.tag? site = some .ctlz) :
    site.leadingZeros caller = .error e ↔ m.Offends caller site e := by
  rw [DirectCall.leadingZeros_eq_error_iff]
  constructor
  · rintro (⟨hmissing, rfl⟩ | ⟨t, hthere, hty, hwidth, rfl⟩)
    · exact .zerosOfNothing htag hmissing
    · exact .zerosAtType htag hthere hty hwidth
  · intro h
    cases h with
    | zerosOfNothing _ hmissing => exact Or.inl ⟨hmissing, rfl⟩
    | zerosAtType _ hthere hty hwidth => exact Or.inr ⟨_, hthere, hty, hwidth, rfl⟩
    | pairOfNothing h => exact absurd (h _ htag) (by decide)
    | familyOfFewer h => exact absurd (h _ htag) (by decide)

/-- A callee counts by its name, or else it is declared as a count of leading zeros or marks a
lifetime. -/
theorem verdict_cases (m : Module) (caller : String) (site : DirectCall) :
    (m.ByName site ∧ ∃ ret, m.verdict caller site = site.byName caller ret) ∨
    (m.tag? site = some .ctlz ∧
      m.verdict caller site = (site.leadingZeros caller).map fun steps => some (.replace steps)) ∨
    ∃ op, m.tag? site = some op ∧ op.recognised = true ∧ op ≠ .ctlz ∧
      m.verdict caller site = .ok (some .drop) := by
  have hname : ∀ op, m.tag? site = some op → op.recognised = false → m.ByName site := by
    intro op htag hop op' hop'
    rw [Option.mem_def, htag, Option.some.injEq] at hop'
    exact hop' ▸ hop
  unfold verdict
  dsimp only
  rw [show (m.func? site.callee).bind Func.intrinsic = m.tag? site from rfl]
  cases htag : m.tag? site with
  | none =>
      refine Or.inl ⟨fun op hop => ?_, _, rfl⟩
      rw [htag] at hop
      cases hop
  | some op =>
      cases op with
      | lifetimeStart => exact Or.inr (Or.inr ⟨_, rfl, rfl, by decide, rfl⟩)
      | lifetimeEnd => exact Or.inr (Or.inr ⟨_, rfl, rfl, by decide, rfl⟩)
      | ctlz => exact Or.inr (Or.inl ⟨rfl, rfl⟩)
      | _ => exact Or.inl ⟨hname _ htag rfl, _, rfl⟩

/-- A call is refused exactly if it offends. -/
theorem verdict_eq_error_iff : m.verdict caller site = .error e ↔ m.Offends caller site e := by
  rcases m.verdict_cases caller site with ⟨hname, ret, hv⟩ | ⟨htag, hv⟩ | ⟨op, htag,
    hmarks, hne, hv⟩
  · rw [hv, byName_eq_error_iff hname]
  · rw [hv, map_replace_eq_error_iff, leadingZeros_eq_error_iff_offends htag]
  · -- A lifetime marker is dropped as it is.
    have hnone : ¬ m.Offends caller site e := by
      intro h
      cases h with
      | zerosOfNothing h => exact hne (Option.some.inj (htag.symm.trans h))
      | zerosAtType h => exact hne (Option.some.inj (htag.symm.trans h))
      | pairOfNothing h => exact Bool.false_ne_true ((h op htag).symm.trans hmarks)
      | familyOfFewer h => exact Bool.false_ne_true ((h op htag).symm.trans hmarks)
    simp [hv, hnone]

end Offences

end Module

namespace Instr

theorem subset_insertBefore (k : Nat) (x : Instr) (is : List Instr) : is ⊆ insertBefore k x is := by
  induction is with
  | nil => exact List.Subset.refl _
  | cons i is ih =>
      rw [insertBefore]
      split
      · exact List.subset_cons_self ..
      · exact List.cons_subset_cons i ih

end Instr

namespace Func

/-- The function still has every identifier that another one has. -/
def Keeps (f g : Func) : Prop := f.instrs.map Instr.id ⊆ g.instrs.map Instr.id

/-- Insertion removes no identifier. -/
theorem Keeps.insertBefore {f g g' : Func} (h : f.Keeps g) {mode : Overflow}
    {k id : Nat} {x : Instr} (hs : g.insertBefore mode k x = .ok (id, g')) : f.Keeps g' := by
  refine List.Subset.trans h ?_
  rw [instrs_insertBefore hs]
  exact List.map_subset _ (Instr.subset_insertBefore ..)

/-- Handing over uses removes no identifier. -/
theorem Keeps.replaceUses {f g : Func} (h : f.Keeps g) (id : Nat) (o : Operand) :
    f.Keeps (g.replaceUses id o) := by
  rw [Keeps, Func.replaceUses, instrs_mapInstrs, List.map_map]
  exact h

end Func

namespace Lowering

/-- Where sums wrap around, a step can be put in front of a call that is there. -/
theorem exists_emitStep {f : Func} {s : Func × Option Operand} (h : f.Keeps s.1) {site : DirectCall}
    (hsite : site.instr.id ∈ f.instrs.map Instr.id) (step : Step) :
    ∃ s', emitStep .wraps site s step = .ok s' ∧ f.Keeps s'.1 := by
  obtain ⟨i, hi, hid⟩ := List.mem_map.1 (h hsite)
  obtain ⟨old, hold⟩ := Func.exists_instr?_of_mem hi
  rw [hid] at hold
  obtain ⟨id, g, hinsert⟩ := Func.exists_insertBefore_wraps hold
    ⟨0, site.instr.name, (step.instruction s.2).1, (step.instruction s.2).2, site.instr.loc⟩
  refine ⟨(g, some (.inst id)), ?_, h.insertBefore hinsert⟩
  simp only [emitStep, hinsert]
  rfl

/-- So can a replacement. -/
theorem exists_emit {f g : Func} (h : f.Keeps g) {site : DirectCall}
    (hsite : site.instr.id ∈ f.instrs.map Instr.id) (steps : List Step) :
    ∃ g', emit .wraps site steps g = .ok g' ∧ f.Keeps g' := by
  obtain ⟨⟨t, result⟩, hrun, ht⟩ := exists_foldlM (motive := fun s => f.Keeps s.1)
    (b := (g, none)) h (fun _ step hs => exists_emitStep hs hsite step) steps
  rw [emit, hrun]
  cases result with
  | none => exact ⟨t, rfl, ht⟩
  | some o => exact ⟨_, rfl, ht.replaceUses _ o⟩

end Lowering

namespace Module

/-- Why a call is refused. -/
def refusal? (m : Module) (caller : String) (site : DirectCall) : Option Failure :=
  match m.verdict caller site with
  | .error e => some e
  | .ok _ => none

/-- Why a function is refused: its first call that is. -/
def refusalIn? (m : Module) (f : Func) : Option Failure :=
  f.directCalls.findSome? (m.refusal? f.name)

/-- A call is refused for what offends. -/
theorem refusal?_eq_some_iff {m : Module} {caller : String} {site : DirectCall} {e : Failure} :
    m.refusal? caller site = some e ↔ m.Offends caller site e := by
  rw [← verdict_eq_error_iff, refusal?]
  cases m.verdict caller site <;> simp

theorem refusal?_eq_none_iff {m : Module} {caller : String} {site : DirectCall} :
    m.refusal? caller site = none ↔ ∀ e, ¬ m.Offends caller site e := by
  rw [Option.eq_none_iff_forall_ne_some]
  exact forall_congr' fun e => not_congr refusal?_eq_some_iff

/-- A function is not refused if no call of it offends. -/
theorem refusalIn?_eq_none_iff {m : Module} {f : Func} :
    m.refusalIn? f = none ↔ ∀ site ∈ f.directCalls, ∀ e, ¬ m.Offends f.name site e := by
  rw [refusalIn?, List.findSome?_eq_none_iff]
  exact forall₂_congr fun site _ => refusal?_eq_none_iff

end Module

namespace Lowering

/-- The function at a position has all the calls that it had. -/
def Located (f : Func) (count : Nat) (s : Lowering) : Prop :=
  ∃ g, s.module.functions[count]? = some g ∧ f.Keeps g

namespace Tracked

variable {m : Module} {count : Nat} {s : Lowering}

/-- A call fails exactly if it offends in the module as it was, and otherwise all calls stay. -/
theorem lowerSite_judged (h : Tracked m (count + 1) s) {f : Func}
    (hf : m.functions[count]? = some f)
    (hthere : Located f count s) {site : DirectCall} (hsite : site ∈ f.directCalls) :
    (∃ e, m.refusal? f.name site = some e ∧ Lowering.lowerSite .wraps count s site = .error e) ∨
      m.refusal? f.name site = none ∧
        ∃ s', Lowering.lowerSite .wraps count s site = .ok s' ∧ Located f count s' := by
  obtain ⟨g, hg, hkeeps⟩ := hthere
  obtain ⟨g₀, hg₀, hreworks⟩ := h.lowered.shape.getElem? hf
  rw [hg, Option.some.injEq] at hg₀
  subst hg₀
  have hname : g.name = f.name := congrArg Prod.fst hreworks.1
  have hverdict : s.module.verdict g.name site = m.verdict f.name site := by
    rw [hname, Module.verdict_of_grows h.lowered.shape.grows]
  have hid : site.instr.id ∈ f.instrs.map Instr.id :=
    List.mem_map_of_mem (Func.mem_instrs_of_mem_directCalls hsite)
  unfold Lowering.lowerSite Module.refusal?
  rw [hg]
  simp only [hverdict]
  cases hv : m.verdict f.name site with
  | error e => exact Or.inl ⟨e, rfl, rfl⟩
  | ok verdict =>
      refine Or.inr ⟨rfl, ?_⟩
      cases verdict with
      | none => exact ⟨s, rfl, g, hg, hkeeps⟩
      | some verdict =>
          cases verdict with
          | drop => exact ⟨_, rfl, g, hg, hkeeps⟩
          | replace steps =>
              obtain ⟨g', hemit, hkeeps'⟩ := exists_emit hkeeps hid steps
              have hmore := s.module.declared_foldl_declare
                (Module.replacement_of_verdict hv).not_recognised
              simp only [hemit]
              refine ⟨_, rfl, g', ?_, hkeeps'⟩
              rw [Module.setFunc, List.getElem?_set_self',
                hmore.getElem? (List.getElem?_eq_some_iff.1 hg).1, hg]
              rfl

/-- A function fails with its first call that offends. -/
theorem lowerAt_judged (h : Tracked m count s) (hcount : count < m.functions.length) :
    (∃ e, m.refusalIn? m.functions[count] = some e ∧ Lowering.lowerAt .wraps s count = .error e) ∨
      m.refusalIn? m.functions[count] = none ∧
        ∃ s', Lowering.lowerAt .wraps s count = .ok s' ∧ Tracked m (count + 1) s' := by
  have hf : m.functions[count]? = some m.functions[count] := List.getElem?_eq_getElem hcount
  have huntouched := h.untouched count (Nat.le_refl _) hcount
  have hbefore : Tracked m (count + 1) s :=
    ⟨h.lowered, fun k hk => h.untouched k (Nat.le_of_succ_le hk), h.pending⟩
  have hthere : Located m.functions[count] count s :=
    ⟨_, huntouched.trans hf, List.Subset.refl _⟩
  rw [Lowering.lowerAt, huntouched, hf, Module.refusalIn?]
  have hrun := foldlM_judged (Lowering.lowerSite .wraps count) (m.refusal? m.functions[count].name)
    (motive := fun _ t => Tracked m (count + 1) t ∧ Located m.functions[count] count t)
    m.functions[count].directCalls ⟨hbefore, hthere⟩ ?_
  · refine hrun.imp_right ?_
    rintro ⟨hnone, s', hs', htracked, _⟩
    exact ⟨hnone, s', hs', htracked⟩
  · rintro before site after t hsplit ⟨ht, hlocated⟩
    have hsite : site ∈ m.functions[count].directCalls := by simp [hsplit]
    refine (ht.lowerSite_judged hf hlocated hsite).imp_right ?_
    rintro ⟨hnone, t', ht', hlocated'⟩
    exact ⟨hnone, t', ht', (ht.lowerSite hf hsite ht').1, hlocated'⟩

end Tracked

/-- A sweep fails with the first call that offends. -/
theorem sweep_judged {m : Module} (hnames : m.DistinctNames) :
    (∃ e, m.functions.findSome? m.refusalIn? = some e ∧ sweep .wraps m = .error e) ∨
      m.functions.findSome? m.refusalIn? = none ∧ ∃ s, sweep .wraps m = .ok s := by
  have hjudge : (List.range m.functions.length).findSome?
      (fun k => m.functions[k]?.bind m.refusalIn?) = m.functions.findSome? m.refusalIn? := by
    have hmap : (List.range m.functions.length).map (fun k => m.functions[k]?) =
        m.functions.map some := by
      apply List.ext_getElem?
      intro k
      by_cases hk : k < m.functions.length <;> simp [hk]
    have hfind := congrArg (List.findSome? fun o : Option Func => o.bind m.refusalIn?) hmap
    rwa [List.findSome?_map, List.findSome?_map] at hfind
  have hrun := foldlM_judged (lowerAt .wraps) (fun k => m.functions[k]?.bind m.refusalIn?)
    (motive := fun done s => Tracked m done.length s) (List.range m.functions.length)
    (Tracked.start hnames) ?_
  · rw [hjudge] at hrun
    refine hrun.imp_right ?_
    rintro ⟨hnone, s, hs, _⟩
    exact ⟨hnone, s, hs⟩
  · rintro before k after s hsplit hs
    have hk : (List.range m.functions.length)[before.length]? = some k := by simp [hsplit]
    obtain ⟨hlt, heq⟩ := List.getElem?_eq_some_iff.1 hk
    rw [List.getElem_range] at heq
    rw [List.length_range, heq] at hlt
    subst heq
    simp only [List.getElem?_eq_getElem hlt, Option.bind_some]
    refine (hs.lowerAt_judged hlt).imp_right ?_
    rintro ⟨hnone, s', hs', htracked⟩
    exact ⟨hnone, s', hs', by simpa using htracked⟩

end Lowering

namespace Module

/-- The failure of the first call that offends, in the order of the functions and then of their
calls. -/
def FirstOffence (m : Module) (e : Failure) : Prop :=
  ∃ before f after calls site rest, m.functions = before ++ f :: after ∧
    f.directCalls = calls ++ site :: rest ∧ m.Offends f.name site e ∧
    (∀ g ∈ before, ∀ earlier ∈ g.directCalls, ∀ e', ¬ m.Offends g.name earlier e') ∧
    ∀ earlier ∈ calls, ∀ e', ¬ m.Offends f.name earlier e'

/-- The first refusal is the first offence. -/
theorem findSome?_refusalIn?_eq_some_iff {m : Module} {e : Failure} :
    m.functions.findSome? m.refusalIn? = some e ↔ m.FirstOffence e := by
  rw [List.findSome?_eq_some_iff]
  constructor
  · rintro ⟨before, f, after, hfuncs, hf, hbefore⟩
    rw [refusalIn?, List.findSome?_eq_some_iff] at hf
    obtain ⟨calls, site, rest, hcalls, hsite, hearlier⟩ := hf
    exact ⟨before, f, after, calls, site, rest, hfuncs, hcalls, refusal?_eq_some_iff.1 hsite,
      fun g hg => refusalIn?_eq_none_iff.1 (hbefore g hg),
      fun earlier h => refusal?_eq_none_iff.1 (hearlier earlier h)⟩
  · rintro ⟨before, f, after, calls, site, rest, hfuncs, hcalls, hsite, hbefore, hearlier⟩
    refine ⟨before, f, after, hfuncs, ?_, fun g hg => refusalIn?_eq_none_iff.2 (hbefore g hg)⟩
    rw [refusalIn?, List.findSome?_eq_some_iff]
    exact ⟨calls, site, rest, hcalls, refusal?_eq_some_iff.2 hsite,
      fun earlier h => refusal?_eq_none_iff.2 (hearlier earlier h)⟩

/-- A kernel that takes a square root, counts leading zeros in 16 bits and rounds a sum of one
value; all three calls share an identifier. -/
def fewerValues : Module :=
  let root := Func.declare "__builtin_IB_native_sqrtf" ⟨.float 32, [.float 32]⟩
  let zeros := Func.ofIntrinsic .ctlz [.int 16]
  let sum := Func.declare "__builtin_IB_add_rtz_f32" ⟨.float 32, [.float 32]⟩
  ⟨"m", [], [root, zeros, sum,
    .define "kernel" ⟨.float 32, [.float 32, .int 16]⟩ [⟨"entry",
      [callOf 0 root [.arg 0], callOf 0 zeros [.arg 1, .arg 1], callOf 0 sum [.arg 0],
        ⟨1, "", .void, .ret (some (.inst 0)), none⟩]⟩]]⟩

end Module

end Postlink
