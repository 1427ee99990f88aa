import Postlink.Proofs.CastRepair.Correspondence

/-!
# Which calls through casts are left

A sweep redirects every call through a cast for which a copy can be had, in functions and in copies
alike, and the old call is staged under the name and the identifier that it is found by. What is
left after a repair is therefore a call that expects another number of arguments than its function
takes (`Module.castsTo_repairCasts`).
-/

namespace Postlink

/-- A call goes through pointer casts, however many, to a function with a body. -/
def Module.CastsTo (m : Module) (call : Call) (f : Func) : Prop :=
  m.func? f.name = some f ∧ f.isDeclared = false ∧
    ∃ value ty, call.callee = .cast value ty ∧ value.func? = some f.name

/-- A call goes through casts if its callee is a cast of something that names a function. -/
theorem Call.throughCast?_eq_some_iff {call : Call} {name : String} :
    call.throughCast? = some name ↔
      ∃ value ty, call.callee = .cast value ty ∧ value.func? = some name := by
  unfold throughCast?
  cases hcallee : call.callee with
  | cast value ty =>
      have hbase : (Operand.cast value ty).func? = value.func? := rfl
      simp [hbase]
  | _ => simp

/-- Which function a call through casts names does not depend on identifiers. -/
@[simp] theorem Instr.castTarget?_renumber (ρ : Nat → Nat) (i : Instr) :
    (i.renumber ρ).castTarget? = i.castTarget? := by
  rw [castTarget?, call?_renumber, castTarget?]
  cases i.call? with
  | none => rfl
  | some c => cases hc : c.callee <;> simp [Call.throughCast?, hc, Operand.renumber]

instance (m : Module) (call : Call) (f : Func) : Decidable (m.CastsTo call f) :=
  decidable_of_iff
    (m.func? f.name = some f ∧ f.isDeclared = false ∧ call.throughCast? = some f.name)
    (and_congr_right' (and_congr_right' Call.throughCast?_eq_some_iff))

/-- A call through a cast of a function with a body is one for the sweep. -/
theorem Module.CastsTo.castCall? {m : Module} {i : Instr} {call : Call} {f : Func}
    (h : m.CastsTo call f) (hcall : i.call? = some call) :
    m.castCall? i = some ⟨i.id, f.name, call.sig⟩ := by
  obtain ⟨hfound, hbody, hcast⟩ := h
  have hdefines : m.defines f.name = true := by
    rw [defines, hfound]
    simp [hbody]
  exact castCall?_eq_some_iff.2
    ⟨call, hcall, Call.throughCast?_eq_some_iff.2 hcast, hdefines, rfl, rfl⟩

/-- A call is left alone exactly where the number of arguments differs. -/
theorem Module.CastsTo.repairable?_eq_none_iff {m : Module} {i : Instr} {call : Call} {f : Func}
    (h : m.CastsTo call f) (hcall : i.call? = some call) :
    m.repairable? i = none ↔ f.sig.arity ≠ call.sig.arity := by
  have hcopy := isSome_copyFor?_iff (c := ⟨i.id, f.name, call.sig⟩) h.1
  rw [repairable?, h.castCall? hcall, Option.filter_some, ite_eq_right_iff, ne_eq, ← hcopy]
  simp

theorem Func.sig_rewriteBy (rs : List Rewrite) (f : Func) : (f.rewriteBy rs).sig = f.sig := by
  rw [rewriteBy_eq]

namespace Repair

variable {m : Module} {clones : List Func} {plan : String → List Rewrite} {s : Repair}
  {done : List (String × CastCall)}

theorem sig_settled (f : Func) : (settled plan done f).sig = f.sig := f.sig_rewriteBy _

theorem isDeclared_settled (f : Func) : (settled plan done f).isDeclared = f.isDeclared := by
  rw [settled, Func.clear, Func.expand, ← f.isDeclared_rewriteBy (plan f.name), Func.isDeclared,
    Func.isDeclared]
  cases (f.rewriteBy (plan f.name)).body <;> rfl

section Swept

variable (h : Underway m clones plan ((m.functions ++ clones).flatMap m.repairsOf)
  ((m.functions ++ clones).flatMap m.repairsOf) s)

include h

/-- Staged are the calls for which a copy can be had. -/
theorem Underway.mem_staged_iff (hnum : m.Numbered) {f : Func} (hf : f ∈ m.functions ++ clones)
    {i : Instr} (hi : i ∈ f.instrs) :
    (f.name, i.id) ∈ ((m.functions ++ clones).flatMap m.repairsOf).map (fun e => (e.1, e.2.id)) ↔
      (m.repairable? i).isSome = true := by
  constructor
  · intro hstaged
    obtain ⟨e, he, hsame⟩ := List.mem_map.1 hstaged
    obtain ⟨g, hg, he⟩ := List.mem_flatMap.1 he
    obtain ⟨hcaller, x, hx, hrepair⟩ := Module.mem_repairsIn_iff.1 he
    rw [Prod.mk.injEq, hcaller, Module.id_of_repairable? hrepair] at hsame
    obtain rfl := List.inj_on_of_nodup_map h.names hg hf hsame.1
    obtain rfl := List.inj_on_of_nodup_map (h.numbered hnum hf).distinct hx hi hsame.2
    rw [hrepair]
    rfl
  · intro hsome
    obtain ⟨c, hc⟩ := Option.isSome_iff_exists.1 hsome
    have hrepair : (f.name, c) ∈ m.repairsOf f := Module.mem_repairsIn_iff.2 ⟨rfl, i, hi, hc⟩
    refine List.mem_map.2 ⟨(f.name, c), List.mem_flatMap.2 ⟨f, hf, hrepair⟩, ?_⟩
    rw [Module.id_of_repairable? hc]

/-- What is left of a function are the calls without a copy and the other instructions, each in its
place, and direct calls with fresh identifiers. -/
theorem Underway.mem_settled (hnum : m.Numbered) {f : Func} (hf : f ∈ m.functions ++ clones)
    {x : Instr} (hx : x ∈ (settled plan ((m.functions ++ clones).flatMap m.repairsOf) f).instrs) :
    (x.castTarget? = none ∧ f.upcomingId ≤ x.id) ∨
      ∃ i ∈ f.instrs, x = i.renumber (Rewrite.redirect (plan f.name)) ∧ m.repairable? i = none := by
  have hredirected := h.redirected f hf
  rw [settled, Func.instrs_clear, List.mem_filter, Func.name_rewriteBy, Func.instrs_rewriteBy] at hx
  obtain ⟨hx, hkept⟩ := hx
  obtain ⟨i, hi, hx⟩ := List.mem_flatMap.1 hx
  rcases List.mem_append.1 hx with hx | hx
  · left
    have hfresh := Rewrite.le_id_of_mem_inserted
      (fun r hr => (hredirected.planned.bounds (h.numbered hnum hf) r hr).2) hx
    by_cases hr : ∃ r ∈ plan f.name, r.old = i.id
    · obtain ⟨name, _, hins⟩ := hredirected.direct i hi hr
      rw [hins, List.mem_singleton] at hx
      exact ⟨by rw [hx, Instr.castTarget?_directed], hfresh⟩
    · push Not at hr
      rw [Rewrite.inserted_eq_nil hr] at hx
      cases hx
  · right
    rw [List.mem_singleton] at hx
    refine ⟨i, hi, hx, ?_⟩
    rw [decide_eq_true_iff, hx, Instr.id_mapOperands, h.mem_staged_iff hnum hf hi] at hkept
    exact Option.not_isSome_iff_eq_none.1 hkept

/-- A call without a copy stays where it is. -/
theorem Underway.renumber_mem_settled (hnum : m.Numbered) {f : Func}
    (hf : f ∈ m.functions ++ clones) {i : Instr} (hi : i ∈ f.instrs)
    (hnone : m.repairable? i = none) : i.renumber (Rewrite.redirect (plan f.name)) ∈
      (settled plan ((m.functions ++ clones).flatMap m.repairsOf) f).instrs := by
  rw [settled, Func.instrs_clear, List.mem_filter, Func.name_rewriteBy, Func.instrs_rewriteBy]
  refine ⟨List.mem_flatMap.2 ⟨i, hi, List.mem_append_right _ (List.mem_singleton_self _)⟩, ?_⟩
  rw [decide_eq_true_iff, Instr.id_mapOperands, h.mem_staged_iff hnum hf hi, hnone]
  exact Bool.false_ne_true

/-- A function that is called through a cast once the old calls are gone is one of the module, as it
was apart from its body. -/
theorem Underway.castsTo_of_subset (hnum : m.Numbered) (hclosed : m.Closed)
    (hnames : m.DistinctNames) {out : Module} (hout : out.functions ⊆
      (m.functions ++ clones).map (settled plan ((m.functions ++ clones).flatMap m.repairsOf)))
    {g : Func} (hg : g ∈ out.functions) {x : Instr} (hx : x ∈ g.instrs) {call : Call}
    (hcall : x.call? = some call) {t : Func} (ht : out.CastsTo call t) :
    ∃ f, f.sig = t.sig ∧ m.CastsTo call f ∧ m.repairable? x = none := by
  obtain ⟨hfound, hbody, hcast⟩ := ht
  have htarget : x.castTarget? = some t.name := by
    rw [Instr.castTarget?, hcall, Option.bind_some]
    exact Call.throughCast?_eq_some_iff.2 hcast
  obtain ⟨b, hb, rfl⟩ := List.mem_map.1 (hout hg)
  rcases h.mem_settled hnum hb hx with ⟨hnone, _⟩ | ⟨i, hi, rfl, hrepair⟩
  · rw [htarget] at hnone
    cases hnone
  rw [Instr.castTarget?_renumber] at htarget
  -- The call is a call of the module, and there its function is known.
  have hthere : (m.func? t.name).isSome = true := by
    rcases h.traced hb hi with hnone | ⟨c, hc, j, hj, ρ, rfl⟩
    · rw [htarget] at hnone
      cases hnone
    · rw [Instr.castTarget?_renumber] at htarget
      exact hclosed.isSome_castTarget? hc hj htarget
  obtain ⟨f, hf⟩ := Option.isSome_iff_exists.1 hthere
  obtain ⟨hmem, hname⟩ := Module.mem_of_func? hf
  have hsame : t = settled plan ((m.functions ++ clones).flatMap m.repairsOf) f := by
    obtain ⟨htmem, _⟩ := Module.mem_of_func? hfound
    obtain ⟨f', hf', rfl⟩ := List.mem_map.1 (hout htmem)
    rw [Underway.name_settled] at hname
    rw [List.inj_on_of_nodup_map h.names (List.mem_append_left clones hmem) hf' hname]
  refine ⟨f, ?_, ⟨?_, ?_, ?_⟩, ?_⟩
  · rw [hsame, sig_settled]
  · exact hnames.func?_eq hmem
  · rwa [hsame, isDeclared_settled] at hbody
  · rwa [hname]
  · rwa [Module.repairable?_renumber]

/-- So it is in the end. -/
theorem Underway.castsTo (hnum : m.Numbered) (hclosed : m.Closed) (hnames : m.DistinctNames)
    {g : Func} (hg : g ∈ s.finish.2.functions) {x : Instr} (hx : x ∈ g.instrs) {call : Call}
    (hcall : x.call? = some call) {t : Func} (ht : s.finish.2.CastsTo call t) :
    ∃ f, f.sig = t.sig ∧ m.CastsTo call f ∧ m.repairable? x = none := by
  refine h.castsTo_of_subset hnum hclosed hnames ?_ hg hx hcall ht
  rw [h.functions_finish]
  exact List.filter_subset_self _

end Swept

end Repair

namespace Module

/-- A call through two casts and one with an argument too many, of functions of which the first
calls itself through a cast. -/
def tangled : Module :=
  let word : Ty := .int 32
  ⟨"m", [], [
    .define "main" ⟨word, [word]⟩ [⟨"entry",
      [⟨0, "", word, .call ⟨.cast (.cast (.func "f") (.ptr word)) (.ptr (.func word [word])),
          ⟨word, [word]⟩, [.arg 0], .c⟩, none⟩,
        ⟨1, "", word, .call ⟨.cast (.func "g") (.ptr (.func word [word, word])),
          ⟨word, [word, word]⟩, [.inst 0, .arg 0], .c⟩, none⟩,
        ⟨2, "", .void, .ret (some (.inst 1)), none⟩]⟩],
    forwarder "f" (.float 32) "f", returner "g" word]⟩

/-- Two calls through casts, of which the first one is redirected to the last identifier. -/
def castsAtEnd : Module := castsIn [(4294967294, .arg 0), (0, .arg 0)] 1 none

/-- Two calls through casts in a function whose counter stands too low. -/
def castsBelow : Module := castsIn [(0, .arg 0), (1, .arg 0)] 2 (some 1)

end Module

end Postlink
