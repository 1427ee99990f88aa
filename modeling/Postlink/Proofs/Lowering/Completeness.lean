import Postlink.Proofs.Lowering.InPlace
import Postlink.Proofs.Mangling

/-!
# Lowering once is enough

A lowered module calls nothing that lowering would look at (`IsLowered`). For the calls that are
kept this is what they are kept for. The calls that are new are calls of intrinsics, whose names no
builtin has; they could only be recognised by a tag, and a tag can only be wrong if it was there
before (`Untagged`). So lowering once more changes nothing (`lower_of_isLowered`), and the first
time it has counted every call that there was.
-/

namespace Postlink

namespace Module

/-- No direct call is one of a function with a recognised tag, or of a builtin. -/
def IsLowered (m : Module) : Prop :=
  ∀ f ∈ m.functions, ∀ site ∈ f.directCalls,
    (∀ g ∈ m.func? site.callee, ∀ op ∈ g.intrinsic, op.recognised = false) ∧
      Builtins.recipe? site.callee = none ∧ Builtins.family? site.callee = none

instance (m : Module) : Decidable m.IsLowered :=
  inferInstanceAs (Decidable (∀ f ∈ m.functions, ∀ site ∈ f.directCalls,
    (∀ g ∈ m.func? site.callee, ∀ op ∈ g.intrinsic, op.recognised = false) ∧
      Builtins.recipe? site.callee = none ∧ Builtins.family? site.callee = none))

/-- No function under the name of an intrinsic that is not recognised by its tag has a tag that
is. -/
def Untagged (m : Module) : Prop :=
  ∀ f ∈ m.functions, ∀ (op : Intrinsic) (tys : List Ty), op.recognised = false →
    f.name = op.declName tys → ∀ tag ∈ f.intrinsic, tag.recognised = false

end Module

/-- The name of an intrinsic tells whether it is recognised by its tag. -/
theorem Intrinsic.recognised_of_declName_eq {op op' : Intrinsic} {tys tys' : List Ty}
    (h : op.declName tys = op'.declName tys') : op.recognised = op'.recognised := by
  rw [(eq_of_declName_eq h).1]

namespace Module

/-- Functions that are named for their tags carry no wrong ones. -/
theorem untagged_of_named {m : Module}
    (h : ∀ f ∈ m.functions, ∀ tag ∈ f.intrinsic, ∃ tys, f.name = tag.declName tys) :
    m.Untagged := by
  intro f hf op tys hop hname tag htag
  obtain ⟨tys', hname'⟩ := h f hf tag htag
  rw [← hop]
  exact Intrinsic.recognised_of_declName_eq (hname'.symm.trans hname)

/-- There is nothing to do in a lowered module. -/
theorem lower_of_isLowered {m : Module} (h : m.IsLowered) (mode : Overflow) :
    m.lower mode false = .ok (⟨0, 0, 0⟩, m) := by
  have hsite : ∀ (index : Nat) f, m.functions[index]? = some f → ∀ site ∈ f.directCalls,
      Lowering.lowerSite mode index (.start m) site = .ok (.start m) := by
    intro index f hf site hsite
    have hwidth := width?_eq_none_iff.2 (h f (List.mem_of_getElem? hf) site hsite)
    simp only [Lowering.lowerSite, Lowering.start, hf, verdict_of_width?_eq_none hwidth]
  have hat : ∀ index, Lowering.lowerAt mode (.start m) index = .ok (.start m) := by
    intro index
    unfold Lowering.lowerAt
    split
    · rfl
    · rename_i f hf
      exact foldlM_eq_self (hsite index f hf)
  have hsweep : Lowering.sweep mode m = .ok (.start m) :=
    foldlM_eq_self fun index _ => hat index
  rw [lower, hsweep]
  rfl

end Module

/-- A new instruction calls an intrinsic that is not recognised by its tag, if it calls anything. -/
theorem Replacement.called?_instrsFor {site : DirectCall} {steps : List Step}
    (h : Replacement site steps) {first : Nat} {x : Instr}
    (hx : x ∈ site.instrsFor none first steps)
    {callee : String} (hcallee : x.called? = some callee) :
    ∃ (op : Intrinsic) (tys : List Ty), op.recognised = false ∧ callee = op.declName tys := by
  obtain ⟨pre, post, hsplit⟩ := List.append_of_mem hx
  obtain ⟨step, hstep, prev, hkind, _⟩ := DirectCall.instrsFor_split hsplit
  rw [Instr.called?, Instr.call?, hkind] at hcallee
  cases step with
  | intrinsic op tys args =>
      cases hcallee
      exact ⟨op, tys, h.not_recognised op tys args hstep, rfl⟩
  | binary op ty lhs rhs => cases hcallee
  | convert op ty value => cases hcallee

namespace Module

variable {m : Module} {f : Func} {ds : List Func}

theorem header_lowered (m : Module) (f : Func) : (m.lowered f).header = f.header :=
  f.header_rewriteBy _

/-- Lowering keeps headers and adds declarations. -/
theorem grows_loweredWith (hds : ∀ d ∈ ds, d.IsTarget) : m.Grows (m.loweredWith ds) := by
  refine ⟨m.functions.map m.lowered, ds, rfl, ?_, hds⟩
  rw [List.map_map]
  exact List.map_congr_left fun f _ => m.header_lowered f

/-- A call that is kept is still not asked to be lowered. -/
theorem width?_loweredWith (hds : ∀ d ∈ ds, d.IsTarget) {site : DirectCall}
    (h : m.width? site.callee = none) : (m.loweredWith ds).width? site.callee = none := by
  have hverdict := verdict_of_width?_eq_none h ""
  rw [← verdict_of_grows (grows_loweredWith hds)] at hverdict
  exact width?_of_verdict hverdict

/-- The intrinsics that new instructions call are not asked to be lowered. -/
theorem Untagged.width?_loweredWith (htags : m.Untagged) (hds : ∀ d ∈ ds, d.IsTarget)
    {op : Intrinsic} (hop : op.recognised = false) (tys : List Ty) :
    (m.loweredWith ds).width? (op.declName tys) = none := by
  have hbyte := op.firstByte_declName tys
  refine width?_eq_none_iff.2 ⟨?_, ?_, ?_⟩
  · intro g hg tag htag
    obtain ⟨hmem, hname⟩ := mem_of_func? hg
    rcases List.mem_append.1 hmem with hmem | hmem
    · obtain ⟨f, hf, rfl⟩ := List.mem_map.1 hmem
      have hheader := m.header_lowered f
      simp only [Func.header, Prod.mk.injEq] at hheader
      exact htags f hf op tys hop (hheader.1 ▸ hname) tag (hheader.2.2 ▸ htag)
    · obtain ⟨op', tys', hop', rfl⟩ := hds g hmem
      cases htag
      exact hop'
  · rw [Option.eq_none_iff_forall_ne_some]
    intro recipe hrecipe
    rw [Builtins.firstByte_of_recipe? hrecipe] at hbyte
    cases hbyte
  · rw [Option.eq_none_iff_forall_ne_some]
    intro family hfamily
    rw [Builtins.firstByte_of_family? hfamily] at hbyte
    cases hbyte

/-- What is called after lowering is called by an instruction that was kept, or it is an
intrinsic. -/
theorem called?_outcome (hf : f.Numbered) (hplan : f.Planned (m.rewrites f))
    (hjudged : ∀ site ∈ f.directCalls, ∃ verdict, m.verdict f.name site = .ok verdict) {i x : Instr}
    (hi : i ∈ f.instrs) (hx : x ∈ m.outcome f i) {callee : String}
    (hcallee : x.called? = some callee) : m.width? callee = none ∨
      ∃ (op : Intrinsic) (tys : List Ty), op.recognised = false ∧ callee = op.declName tys := by
  cases hremoves : m.removes f i with
  | false =>
      rw [outcome_of_not_removes hremoves, List.mem_singleton] at hx
      subst hx
      rw [Instr.called?_renumber, Instr.called?_eq_map, Option.map_eq_some_iff] at hcallee
      obtain ⟨site, hsite, rfl⟩ := hcallee
      obtain ⟨verdict, hv⟩ := hjudged site (List.mem_filterMap.2 ⟨i, hi, hsite⟩)
      have hnone : verdict = none := by
        simp only [removes, hsite, Option.any_some, treats, hv] at hremoves
        cases verdict with
        | none => rfl
        | some _ => cases hremoves
      rw [hnone] at hv
      exact Or.inl (width?_of_verdict hv)
  | true =>
      have hinserted : x ∈ Rewrite.inserted (m.rewrites f) i.id := by
        rwa [outcome, if_pos hremoves] at hx
      obtain ⟨site, _, hsite, steps, hsteps⟩ := exists_replacement?_of_mem_inserted hf hi hinserted
      obtain ⟨before, after, hsplit⟩ := List.append_of_mem hi
      obtain ⟨first, _, ρ, houtcome, _⟩ := outcome_of_replacement? hf hplan hsplit hsite hsteps
      rw [houtcome] at hx
      obtain ⟨y, hy, rfl⟩ := List.mem_map.1 hx
      rw [Instr.called?_renumber] at hcallee
      have hform := replacement_of_verdict (replacement?_eq_some_iff.1 hsteps)
      exact Or.inr (hform.called?_instrsFor hy hcallee)

/-- A lowered module has no call left that asks for lowering. -/
theorem isLowered_loweredWith (hm : m.Numbered) (htags : m.Untagged)
    (hplan : ∀ f ∈ m.functions, f.Planned (m.rewrites f))
    (hjudged : ∀ f ∈ m.functions, ∀ site ∈ f.directCalls,
      ∃ verdict, m.verdict f.name site = .ok verdict)
    (hds : ∀ d ∈ ds, d.IsTarget) : (m.loweredWith ds).IsLowered := by
  intro g hg site hsite
  rw [← width?_eq_none_iff]
  obtain ⟨x, hx, hcall⟩ := List.mem_filterMap.1 hsite
  have hcallee : x.called? = some site.callee := by
    rw [x.called?_eq_map, hcall]
    rfl
  rcases List.mem_append.1 hg with hg | hg
  · obtain ⟨f, hf, rfl⟩ := List.mem_map.1 hg
    rw [instrs_lowered (hm f hf) (hplan f hf)] at hx
    obtain ⟨i, hi, hx⟩ := List.mem_flatMap.1 hx
    rcases called?_outcome (hm f hf) (hplan f hf) (hjudged f hf) hi hx hcallee with
      hnone | ⟨op, tys, hop, hname⟩
    · exact width?_loweredWith hds hnone
    · rw [hname]
      exact htags.width?_loweredWith hds hop tys
  · rw [(hds g hg).instrs_eq_nil] at hx
    cases hx

/-- Functions without tags carry no wrong ones. -/
theorem untagged_of_forall_none {m : Module} (h : ∀ f ∈ m.functions, f.intrinsic = none) :
    m.Untagged := by
  refine untagged_of_named fun f hf tag htag => ?_
  rw [h f hf] at htag
  cases htag

end Module

end Postlink
