import Postlink.CastRepair
import Postlink.Proofs.Rewriting

/-!
# Calls redirected one after the other

Redirecting a call is a rewrite: a direct call is put in front of it and takes over its uses. In a
function of which some calls were redirected, the new calls take the values that the old ones take
(`Func.Redirected`), and a call whose insertion succeeds is redirected in the same way
(`Func.Redirected.exists_concat`).
-/

namespace Postlink

namespace Instr

/-- The function that a call names through a cast. -/
def castTarget? (i : Instr) : Option String := i.call?.bind Call.throughCast?

/-- A call by name instead of what is called. -/
def calling (name : String) (i : Instr) : Instr :=
  i.mapCall fun c => { c with callee := .func name }

/-- A call by name, with all results renumbered, its own included. -/
def directed (name : String) (ρ : Nat → Nat) (i : Instr) : Instr :=
  { (i.calling name).renumber ρ with id := ρ i.id }

/-- Renumbering results renumbers them in the operands of a call. -/
theorem call?_renumber (ρ : Nat → Nat) (i : Instr) : (i.renumber ρ).call? = i.call?.map fun c =>
    { c with callee := c.callee.renumber ρ, args := c.args.map (Operand.renumber ρ) } := by
  cases i with
  | mk id name ty kind loc => cases kind <;> rfl

/-- A call by name goes through no cast. -/
@[simp] theorem castTarget?_directed (name : String) (ρ : Nat → Nat) (i : Instr) :
    (i.directed name ρ).castTarget? = none := by
  cases i with
  | mk id name ty kind loc => cases kind <;> rfl

/-- Renumbering a call by name once more, if its own identifier is kept. -/
theorem renumber_directed {σ ρ : Nat → Nat} {i : Instr} (h : σ (ρ i.id) = ρ i.id) (name : String) :
    (i.directed name ρ).renumber σ = i.directed name (σ ∘ ρ) := by
  have hinner := renumber_renumber σ ρ (i.calling name)
  simp only [directed, Function.comp_apply, h]
  rw [← hinner]
  rfl

end Instr

namespace Module

variable {m : Module}

/-- A call to repair goes through a cast, to a function with a body. -/
theorem castCall?_eq_some_iff {i : Instr} {c : CastCall} : m.castCall? i = some c ↔
    ∃ call, i.call? = some call ∧ call.throughCast? = some c.target ∧ m.defines c.target = true ∧
      c.id = i.id ∧ c.sig = call.sig := by
  unfold castCall?
  cases i.call? with
  | none => simp
  | some call =>
      cases hcast : call.throughCast? with
      | none => simp [hcast]
      | some target =>
          cases c with
          | mk id target' sig =>
              by_cases hdef : m.defines target = true
              · simp only [hcast, hdef, Option.bind_eq_bind, Option.bind_some, if_true,
                  Option.some.injEq, CastCall.mk.injEq]
                constructor
                · rintro ⟨rfl, rfl, rfl⟩
                  exact ⟨call, rfl, hcast, hdef, rfl, rfl⟩
                · rintro ⟨_, rfl, hcast', _, rfl, rfl⟩
                  rw [hcast, Option.some.injEq] at hcast'
                  exact ⟨rfl, hcast', rfl⟩
              · simp only [hcast, hdef, Option.bind_eq_bind, Option.bind_some]
                constructor
                · intro h
                  cases h
                · rintro ⟨call', hcall, hcast', hdef', _⟩
                  rw [Option.some.injEq] at hcall
                  rw [← hcall, hcast, Option.some.injEq] at hcast'
                  exact absurd (hcast' ▸ hdef') hdef

/-- What goes through no cast is no call to repair. -/
theorem castCall?_eq_none {i : Instr} (h : i.castTarget? = none) : m.castCall? i = none := by
  cases hc : m.castCall? i with
  | none => rfl
  | some c =>
      obtain ⟨call, hcall, hcast, _⟩ := castCall?_eq_some_iff.1 hc
      rw [Instr.castTarget?, hcall, Option.bind_some, hcast] at h
      cases h

/-- Whether an instruction is a call to repair does not depend on identifiers. -/
@[simp] theorem castCall?_renumber (ρ : Nat → Nat) (i : Instr) :
    m.castCall? (i.renumber ρ) = m.castCall? i := by
  unfold castCall?
  rw [Instr.call?_renumber]
  cases i.call? with
  | none => rfl
  | some c => cases hc : c.callee <;> simp [Call.throughCast?, hc, Operand.renumber]

end Module

namespace Func

/-- Some calls of a function were redirected, each to a function that it may go to. -/
structure Redirected (goes : Instr → String → Prop) (f : Func) (rs : List Rewrite) : Prop where
  /-- The redirections follow one another. -/
  planned : f.Planned rs
  /-- Identifiers stay in order. -/
  numbered : (f.rewriteBy rs).Numbered
  /-- In front of a call that was redirected stands one direct call. -/
  direct : ∀ i ∈ f.instrs, (∃ r ∈ rs, r.old = i.id) → ∃ name, goes i name ∧
    Rewrite.inserted rs i.id = [i.directed name (Rewrite.redirect rs)]

namespace Redirected

variable {goes goes' : Instr → String → Prop} {f : Func} {rs : List Rewrite}

theorem nil (goes : Instr → String → Prop) (hf : f.Numbered) : f.Redirected goes [] := by
  refine ⟨.nil, by rwa [rewriteBy_nil], ?_⟩
  rintro i _ ⟨r, hr, _⟩
  cases hr

theorem mono (h : f.Redirected goes rs)
    (hgoes : ∀ i ∈ f.instrs, ∀ name, goes i name → goes' i name) : f.Redirected goes' rs := by
  refine ⟨h.planned, h.numbered, ?_⟩
  intro i hi hr
  obtain ⟨name, hname, hins⟩ := h.direct i hi hr
  exact ⟨name, hgoes i hi name hname, hins⟩

/-- Each instruction is one that was there, or the direct call in front of it. -/
theorem mem_rewriteBy (h : f.Redirected goes rs) {x : Instr} (hx : x ∈ (f.rewriteBy rs).instrs) :
    ∃ i ∈ f.instrs, x = i.renumber (Rewrite.redirect rs) ∨
      ∃ name, goes i name ∧ x = i.directed name (Rewrite.redirect rs) := by
  rw [instrs_rewriteBy] at hx
  obtain ⟨i, hi, hx⟩ := List.mem_flatMap.1 hx
  refine ⟨i, hi, ?_⟩
  rcases List.mem_append.1 hx with hx | hx
  · by_cases hr : ∃ r ∈ rs, r.old = i.id
    · obtain ⟨name, hname, hins⟩ := h.direct i hi hr
      rw [hins, List.mem_singleton] at hx
      exact Or.inr ⟨name, hname, hx⟩
    · push Not at hr
      rw [Rewrite.inserted_eq_nil hr] at hx
      cases hx
  · exact Or.inl (List.mem_singleton.1 hx)

/-- The direct calls after one more rewrite. -/
theorem direct_concat (h : f.Redirected goes rs) (hf : f.Numbered) {i : Instr} (hi : i ∈ f.instrs)
    {r : Rewrite} (hold : r.old = i.id) (hnew : ∀ s ∈ rs, s.old ≠ r.old) {name : String}
    (hgoes : goes i name) (hinstrs : r.instrs =
      [{ (i.calling name).renumber (Rewrite.redirect rs) with id := r.result }])
    {j : Instr} (hj : j ∈ f.instrs) (hr : ∃ s ∈ rs ++ [r], s.old = j.id) :
    ∃ name, goes j name ∧
      Rewrite.inserted (rs ++ [r]) j.id = [j.directed name (Rewrite.redirect (rs ++ [r]))] := by
  have hresult : ∀ s ∈ rs, s.result ≠ r.old := by
    intro s hs
    have hge := h.planned.upcomingId_le_result hf hs
    have hlt := hf.below i hi
    omega
  rw [Rewrite.inserted_concat hresult hnew, Rewrite.redirect_concat hresult]
  by_cases hid : j.id = r.old
  · have hji : j = i := List.inj_on_of_nodup_map hf.distinct hj hi (hid.trans hold)
    have hself : Rewrite.redirect rs j.id = r.old := by rw [hid, Rewrite.redirect_eq_self hnew]
    refine ⟨name, hji ▸ hgoes, ?_⟩
    rw [hid, Rewrite.inserted_eq_nil hnew, if_pos rfl, hinstrs, List.nil_append, List.map_singleton,
      Instr.directed, Function.comp_apply, hself, if_pos rfl, ← Instr.renumber_renumber, hji]
    rfl
  · have hearlier : ∃ s ∈ rs, s.old = j.id := by
      obtain ⟨s, hs, hsold⟩ := hr
      rcases List.mem_append.1 hs with hs | hs
      · exact ⟨s, hs, hsold⟩
      · rw [List.mem_singleton.1 hs] at hsold
        exact absurd hsold.symm hid
    have hkeep : Rewrite.redirect rs j.id ≠ r.old := by
      obtain ⟨s, hs, hsold⟩ := hearlier
      rw [← hsold, Rewrite.redirect_of_mem h.planned.nodup hs]
      exact hresult s hs
    obtain ⟨name', hname', hins⟩ := h.direct j hj hearlier
    refine ⟨name', hname', ?_⟩
    rw [if_neg hid, List.append_nil, hins, List.map_singleton, List.singleton_inj]
    apply Instr.renumber_directed
    exact if_neg hkeep

/-- One more call is redirected: a direct call is put in front of it and takes over its uses. -/
theorem exists_concat (h : f.Redirected goes rs) (hf : f.Numbered) {i : Instr} (hi : i ∈ f.instrs)
    (hnew : ∀ s ∈ rs, s.old ≠ i.id) {name : String} (hgoes : goes i name) {id : Nat} {g : Func}
    (hinsert : (f.rewriteBy rs).insertBefore .stops i.id
      ((i.calling name).renumber (Rewrite.redirect rs)) = .ok (id, g)) :
    ∃ r, r.old = i.id ∧ f.Redirected goes (rs ++ [r]) ∧
      g.replaceUses i.id (.inst id) = f.rewriteBy (rs ++ [r]) := by
  let new := (i.calling name).renumber (Rewrite.redirect rs)
  obtain ⟨r, hold, hfirst, hinstrs⟩ : ∃ r : Rewrite, r.old = i.id ∧
      r.first = f.upcomingId + Rewrite.width rs ∧
      r.instrs = [{ new with id := f.upcomingId + Rewrite.width rs }] :=
    ⟨⟨i.id, _, [{ new with id := f.upcomingId + Rewrite.width rs }], rfl⟩, rfl, rfl, rfl⟩
  have hresult : r.result = f.upcomingId + Rewrite.width rs := by
    rw [Rewrite.result, hinstrs, hfirst, List.length_singleton, Nat.sub_self, Nat.add_zero]
  have hthere : ∃ j ∈ f.instrs, j.id = r.old := ⟨i, hi, hold.symm⟩
  have hnew' : ∀ s ∈ rs, s.old ≠ r.old := hold ▸ hnew
  obtain ⟨rfl, rfl⟩ := h.numbered.insertBefore_eq hinsert
  have hnumbered := h.numbered.insert i.id new
  rw [h.planned.upcomingId_rewriteBy] at hnumbered ⊢
  have hconcat := h.planned.concat_eq hf hthere hnew'
  -- The insertion as it is made and as the rewrite describes it.
  have hshape : (fun x : Instr => (if x.id = i.id then r.instrs else []) ++ [x]) = fun x =>
      if x.id = i.id then [{ new with id := f.upcomingId + Rewrite.width rs }, x] else [x] := by
    funext x
    rw [hinstrs]
    split <;> rfl
  rw [hold, hshape, hresult, hinstrs, List.length_singleton] at hconcat
  rw [← hresult] at hinstrs
  refine ⟨r, hold, ⟨?_, ?_, ?_⟩, hconcat⟩
  · refine h.planned.concat hthere hnew' ?_ hfirst
    rw [hinstrs]
    exact List.cons_ne_nil _ _
  · rw [← hconcat, replaceUses_inst]
    exact hnumbered.renumber _
  · intro j hj hr
    exact h.direct_concat hf hi hold hnew' hgoes hinstrs hj hr

end Redirected

end Func

end Postlink
