import Postlink.Proofs.Lookup
import Postlink.CastRepair

/-!
# The steps of a cast repair

A call through a cast first asks for a copy of the function that it names, which is there or is made
under a name that is free (`copy?_cases`). A call of the copy is then put in front of it
(`retarget_cases`). What both steps keep, a sweep keeps (`sweep_induction`).
-/

namespace Postlink

/-- A copy is made of a function with as many parameters as the call expects. -/
theorem Module.exists_of_copyFor? {m : Module} {c : CastCall} {g : Func}
    (h : m.copyFor? c = some g) : ∃ f, m.func? c.target = some f ∧ f.sig.arity = c.sig.arity ∧
      g = { Func.define (m.freeName f.name) c.sig f.blocks with
        conv := f.conv, linkage := f.linkage, attributes := f.attributes, params := f.params } := by
  unfold copyFor? at h
  split at h
  · cases h
  · rename_i f hf
    obtain ⟨harity, hg⟩ := Option.ite_none_right_eq_some.1 h
    exact ⟨f, hf, harity, (Option.some.inj hg).symm⟩

namespace Repair

variable {mode : Overflow} {s s' : Repair} {c : CastCall} {name : String}

/-- A copy is there, or it is made and recorded. -/
theorem copy?_cases (hs : s.copy? c = some (name, s')) :
    s.copies.lookup (c.target, c.sig) = some name ∧ s' = s ∨
    ∃ g, s.copies.lookup (c.target, c.sig) = none ∧ s.module.copyFor? c = some g ∧ name = g.name ∧
      s' = { s with
        module := s.module.addFunc g
        copies := s.copies ++ [((c.target, c.sig), g.name)]
        stats := { s.stats with created := s.stats.created + 1 } } := by
  unfold copy? at hs
  split at hs
  · rename_i hlookup
    cases hs
    exact Or.inl ⟨hlookup, rfl⟩
  · rename_i hlookup
    split at hs
    · cases hs
    · rename_i g hg
      cases hs
      exact Or.inr ⟨g, hlookup, hg, rfl, rfl⟩

/-- A call that is there is redirected and staged. -/
theorem retarget_cases {index : Nat} (hs : s.retarget mode index c name = .ok s') :
    s' = s ∨ ∃ f old call id g, s.module.functions[index]? = some f ∧ f.instr? c.id = some old ∧
      old.call? = some call ∧ f.insertBefore mode c.id (redirected name c.sig old call) =
        .ok (id, g) ∧
      s' = { s with
        module := s.module.setFunc index (g.replaceUses c.id (.inst id))
        pending := s.pending.addInstr f.name c.id
        stats := { s.stats with redirected := s.stats.redirected + 1 } } := by
  unfold retarget at hs
  split at hs
  · exact Or.inl (Except.ok.inj hs).symm
  · rename_i f hf
    split at hs
    · exact Or.inl (Except.ok.inj hs).symm
    · rename_i old hold
      split at hs
      · exact Or.inl (Except.ok.inj hs).symm
      · rename_i call hcall
        split at hs
        · cases hs
        · rename_i id g hinsert
          exact Or.inr ⟨f, old, call, id, g, hf, hold, hcall, hinsert, (Except.ok.inj hs).symm⟩

/-- Redirecting a call does not fail as long as there is an identifier for the new call: there is an
instruction to put it in front of. -/
theorem exists_retarget {index : Nat} (s : Repair) (c : CastCall) (name : String)
    (hroom : ∀ f old new, s.module.functions[index]? = some f → f.instr? c.id = some old →
      ∃ id g, f.insertBefore mode c.id new = .ok (id, g)) :
    ∃ s', s.retarget mode index c name = .ok s' := by
  unfold retarget
  cases hf : s.module.functions[index]? with
  | none => exact ⟨s, rfl⟩
  | some f =>
      cases hold : f.instr? c.id with
      | none => exact ⟨s, by simp [hold]⟩
      | some old =>
          cases hcall : old.call? with
          | none => exact ⟨s, by simp [hold, hcall]⟩
          | some call =>
              obtain ⟨id, g, hinsert⟩ := hroom f old (redirected name c.sig old call) hf hold
              simp only [hold, hcall, hinsert]
              exact ⟨_, rfl⟩

/-- Where sums wrap around there always is one. -/
theorem exists_retarget_wraps (s : Repair) (index : Nat) (c : CastCall) (name : String) :
    ∃ s', s.retarget .wraps index c name = .ok s' :=
  exists_retarget s c name fun _ _ new _ hold => Func.exists_insertBefore_wraps hold new

/-- What making copies, redirecting calls and counting the other ones keep, a sweep keeps. -/
theorem sweep_induction {m : Module} {motive : Repair → Prop} (start : motive (start m))
    (copy : ∀ s c name s', s.copy? c = some (name, s') → motive s → motive s')
    (retarget : ∀ s index c name s', s.retarget mode index c name = .ok s' → motive s → motive s')
    (skip : ∀ s, motive s →
      motive { s with stats := { s.stats with unresolved := s.stats.unresolved + 1 } })
    (hs : sweep mode m = .ok s) : motive s := by
  have hcall : ∀ index s c s', motive s → repairCall mode index s c = .ok s' → motive s' := by
    intro index s c s' h hstep
    unfold repairCall at hstep
    split at hstep
    · cases hstep
      exact skip s h
    · rename_i name t hcopy
      exact retarget t index c name s' hstep (copy s c name t hcopy h)
  refine foldlM_induction start (fun s index s' _ h hstep => ?_) hs
  unfold sweepAt at hstep
  split at hstep
  · cases hstep
    exact h
  · exact foldlM_induction h (fun s c s' _ h hstep => hcall index s c s' h hstep) hstep

/-- Cast repair is a sweep and what comes after it. -/
theorem repairCasts_eq_finish {m : Module} (hs : sweep mode m = .ok s) :
    m.repairCasts mode = .ok s.finish := by
  rw [Module.repairCasts, hs]
  rfl

end Repair

end Postlink
