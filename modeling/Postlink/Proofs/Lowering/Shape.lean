import Postlink.Lowering.Sweep
import Postlink.Proofs.Lowering.Verdicts
import Postlink.Proofs.Rewriting

/-!
# The shape of a lowered function

Lowering a function amounts to a list of rewrites, known before the first of them is carried out:
the calls that are replaced, in order, each with its steps and the identifier of its first new
instruction. Emitting the steps of a call carries out its rewrite (`Func.Planned.emit`).
-/

namespace Postlink

namespace DirectCall

/-- The instructions that steps become when they are numbered from `next`. -/
def instrsFor (site : DirectCall) : Option Operand → Nat → List Step → List Instr
  | _, _, [] => []
  | prev, next, step :: steps =>
      ⟨next, site.instr.name, (step.instruction prev).1, (step.instruction prev).2, site.instr.loc⟩
        :: instrsFor site (some (.inst next)) (next + 1) steps

@[simp] theorem length_instrsFor (site : DirectCall) (prev : Option Operand) (next : Nat)
    (steps : List Step) : (site.instrsFor prev next steps).length = steps.length := by
  induction steps generalizing prev next with
  | nil => rfl
  | cons step steps ih => simp [instrsFor, ih]

theorem instrsFor_ne_nil (site : DirectCall) {steps : List Step} (h : steps ≠ [])
    (prev : Option Operand) (next : Nat) : site.instrsFor prev next steps ≠ [] := by
  cases steps with
  | nil => exact absurd rfl h
  | cons step steps => exact List.cons_ne_nil _ _

/-- The identifiers of new instructions are consecutive. -/
theorem ids_instrsFor (site : DirectCall) (prev : Option Operand) (next : Nat)
    (steps : List Step) :
    (site.instrsFor prev next steps).map Instr.id = List.range' next steps.length := by
  induction steps generalizing prev next with
  | nil => rfl
  | cons step steps ih => simp [instrsFor, ih, List.range'_succ]

/-- A new instruction takes values of the call, or the result of a new instruction before it. -/
theorem instrsFor_split {site : DirectCall} {prev : Option Operand} {next : Nat} {steps : List Step}
    {pre post : List Instr} {x : Instr} (h : site.instrsFor prev next steps = pre ++ x :: post) :
    ∃ step ∈ steps, ∃ p, x.kind = (step.instruction p).2 ∧
      (p = prev ∨ ∃ y ∈ pre, p = some (.inst y.id)) := by
  induction steps generalizing prev next pre with
  | nil => simp [instrsFor] at h
  | cons step steps ih =>
      rw [instrsFor] at h
      cases pre with
      | nil =>
          rw [List.nil_append, List.cons.injEq] at h
          exact ⟨step, List.mem_cons_self .., prev, by rw [← h.1], Or.inl rfl⟩
      | cons y pre =>
          rw [List.cons_append, List.cons.injEq] at h
          obtain ⟨step', hstep', p, hkind, hp⟩ := ih h.2
          refine ⟨step', List.mem_cons_of_mem _ hstep', p, hkind, Or.inr ?_⟩
          rcases hp with rfl | ⟨z, hz, rfl⟩
          · exact ⟨y, List.mem_cons_self .., by rw [← h.1]⟩
          · exact ⟨z, List.mem_cons_of_mem _ hz, rfl⟩

/-- Every step becomes an instruction. -/
theorem exists_mem_instrsFor (site : DirectCall) {steps : List Step} {step : Step}
    (h : step ∈ steps) (prev : Option Operand) (next : Nat) :
    ∃ x ∈ site.instrsFor prev next steps, ∃ p, x.kind = (step.instruction p).2 := by
  induction steps generalizing prev next with
  | nil => cases h
  | cons step' steps ih =>
      rw [instrsFor]
      rcases List.mem_cons.1 h with rfl | h
      · exact ⟨_, List.mem_cons_self .., prev, rfl⟩
      · obtain ⟨x, hx, hkind⟩ := ih h (some (.inst next)) (next + 1)
        exact ⟨x, List.mem_cons_of_mem _ hx, hkind⟩

/-- The call replaced by what some steps become. -/
def rewrite (site : DirectCall) (steps : List Step) (first : Nat) : Rewrite where
  old := site.instr.id
  first := first
  instrs := site.instrsFor none first steps
  ids := by rw [ids_instrsFor, length_instrsFor]

end DirectCall

namespace Lowering

/-- The result of the last step, given the result of the step before the first. -/
def lastResult (prev : Option Operand) (next : Nat) : List Step → Option Operand
  | [] => prev
  | _ :: steps => some (.inst (next + steps.length))

/-- Emitting steps puts what they become in front of the old call. -/
theorem foldlM_emitStep {site : DirectCall} {old : Instr} (hid : old.id = site.instr.id)
    {f : Func} (hf : f.Numbered) (hold : old ∈ f.instrs) {prev last : Option Operand}
    {steps : List Step} {g : Func}
    (hs : steps.foldlM (emitStep .stops site) (f, prev) = .ok (g, last)) :
    last = lastResult prev f.upcomingId steps ∧ g.Numbered ∧
      g = (f.advance steps.length).expand fun i =>
        (if i.id = site.instr.id then site.instrsFor prev f.upcomingId steps else []) ++ [i] := by
  induction steps generalizing f prev with
  | nil =>
      cases hs
      exact ⟨rfl, hf, by simp [DirectCall.instrsFor, Func.advance]⟩
  | cons step steps ih =>
      let new : Instr := ⟨f.upcomingId, site.instr.name, (step.instruction prev).1,
        (step.instruction prev).2, site.instr.loc⟩
      let f' : Func := (f.advance 1).expand fun i =>
        if i.id = site.instr.id then [new, i] else [i]
      have hnew : new.id ≠ site.instr.id := by
        rw [← hid]
        exact Nat.ne_of_gt (hf.below old hold)
      rw [List.foldlM_cons] at hs
      obtain ⟨t, hemit, hs⟩ := bind_eq_ok hs
      have ht : t = (f', some (.inst f.upcomingId)) := by
        obtain ⟨⟨id, h⟩, hinsert, rfl⟩ := map_eq_ok hemit
        obtain ⟨rfl, rfl⟩ := hf.insertBefore_eq hinsert
        rfl
      subst ht
      have hf' : f'.Numbered := hf.insert site.instr.id new
      have hold' : old ∈ f'.instrs := by
        simp only [f', Func.instrs_expand, Func.instrs_advance, List.mem_flatMap]
        exact ⟨old, hold, by simp [hid]⟩
      have hnext : f'.upcomingId = f.upcomingId + 1 :=
        Func.upcomingId_expand_advance Nat.one_ne_zero _ f
      obtain ⟨hlast, hgn, rfl⟩ := ih hf' hold' hs
      refine ⟨?_, hgn, ?_⟩
      · rw [hlast, hnext]
        cases steps with
        | nil => rfl
        | cons step' steps => simp [lastResult, Nat.add_assoc, Nat.add_comm 1]
      · rw [hnext, Func.advance_expand_advance Nat.one_ne_zero, Func.expand_expand,
          Nat.add_comm 1]
        apply Func.expand_congr
        intro i _
        by_cases hi : i.id = site.instr.id
        · simp [hi, hnew, DirectCall.instrsFor, new]
        · simp [hi]

end Lowering

namespace Func

/-- Emitting the steps of a call carries out its rewrite. -/
theorem Planned.emit {f g : Func} {rs : List Rewrite} (h : f.Planned rs) (hf : f.Numbered)
    (hnum : (f.rewriteBy rs).Numbered) {site : DirectCall} (hthere : site.instr ∈ f.instrs)
    (hnew : ∀ s ∈ rs, s.old ≠ site.instr.id) {steps : List Step} (hsteps : steps ≠ []) {first : Nat}
    (hfirst : first = f.upcomingId + Rewrite.width rs)
    (hemit : Lowering.emit .stops site steps (f.rewriteBy rs) = .ok g) :
    g = f.rewriteBy (rs ++ [site.rewrite steps first]) ∧ g.Numbered := by
  have hold : site.instr.renumber (Rewrite.redirect rs) ∈ (f.rewriteBy rs).instrs := by
    rw [instrs_rewriteBy, List.mem_flatMap]
    exact ⟨_, hthere, List.mem_append_right _ (List.mem_singleton_self _)⟩
  have hid : (site.instr.renumber (Rewrite.redirect rs)).id = site.instr.id := rfl
  obtain ⟨⟨g, last⟩, hg, rfl⟩ := map_eq_ok hemit
  obtain ⟨hlast, hgn, hgeq⟩ := Lowering.foldlM_emitStep hid hnum hold hg
  have hresult : Lowering.lastResult none (f.rewriteBy rs).upcomingId steps =
      some (.inst (site.rewrite steps first).result) := by
    rw [h.upcomingId_rewriteBy, ← hfirst, Rewrite.result]
    cases steps with
    | nil => exact absurd rfl hsteps
    | cons step steps => simp [Lowering.lastResult, DirectCall.rewrite]
  have hout : g.replaceUses site.instr.id (.inst (site.rewrite steps first).result) =
      f.rewriteBy (rs ++ [site.rewrite steps first]) := by
    have hlength : (site.rewrite steps first).instrs.length = steps.length :=
      site.length_instrsFor none first steps
    rw [← h.concat_eq hf ⟨site.instr, hthere, rfl⟩ hnew, hlength, hgeq, h.upcomingId_rewriteBy,
      ← hfirst]
    rfl
  rw [hlast, hresult]
  refine ⟨hout, ?_⟩
  dsimp only
  rw [replaceUses_inst]
  exact hgn.renumber _

end Func

end Postlink
