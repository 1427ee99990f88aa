import Postlink.Proofs.Lowering.Outcome
import Postlink.Proofs.Overflow

/-!
# Lowering in place

Lowering goes through a body call by call, and the old calls stay until the end. All of it together
is one substitution: every instruction is kept, dropped, or gives its place to one instruction or to
two, and uses of a result follow it to where it has gone (`Becomes`). Nothing else of a function
changes, and functions keep their places (`exists_inPlace`).

For this the identifiers that are handed out have to be new. They are as long as the counter of each
function stands above the identifiers in use and does not overflow. Otherwise an old call can stay
in place of the new one (`not_inPlace_rootsAtEnd`).
-/

namespace Postlink

/-- A new instruction of a function, with the name and the place of an old one. -/
structure Instr.StandsFor (f : Func) (i x : Instr) : Prop where
  /-- It has the name of the old one. -/
  name : x.name = i.name
  /-- It was compiled from the same place. -/
  loc : x.loc = i.loc
  /-- Its identifier is new. -/
  fresh : ∀ j ∈ f.instrs, j.id ≠ x.id

namespace Module

/-- How many instructions stand in for an instruction that is lowered. -/
def widthAt? (m : Module) (i : Instr) : Option Nat := i.called?.bind m.width?

/-- What an instruction becomes. Uses of its result are renumbered by `ρ`. -/
inductive Becomes (m : Module) (f : Func) (ρ : Nat → Nat) (i : Instr) : List Instr → Prop where
  /-- It stays, up to the results that it uses. -/
  | kept (h : m.widthAt? i = none) (hρ : ρ i.id = i.id) : Becomes m f ρ i [i.renumber ρ]
  /-- It goes. -/
  | dropped (h : m.widthAt? i = some 0) (hρ : ρ i.id = i.id) : Becomes m f ρ i []
  /-- It gives its place to one instruction. -/
  | one {x : Instr} (h : m.widthAt? i = some 1) (hx : i.StandsFor f x) (hρ : ρ i.id = x.id) :
      Becomes m f ρ i [x]
  /-- It gives its place to two, and all that the second takes is the result of the first. -/
  | two {x y : Instr} (h : m.widthAt? i = some 2) (hx : i.StandsFor f x) (hy : i.StandsFor f y)
      (hargs : y.args = [.inst x.id]) (hρ : ρ i.id = y.id) : Becomes m f ρ i [x, y]

/-- A function with each of its instructions replaced in place, and no identifier given twice. -/
def InPlace (m : Module) (f g : Func) : Prop :=
  ∃ (ρ : Nat → Nat) (pieces : Instr → List Instr),
    g = { f with body := f.body.mapBlocks (Blocks.expand pieces), nextId := g.nextId } ∧
    (∀ i ∈ f.instrs, m.Becomes f ρ i (pieces i)) ∧
    (∀ k, (∀ i ∈ f.instrs, i.id ≠ k) → ρ k = k) ∧ (g.instrs.map Instr.id).Nodup

end Module

theorem Instr.called?_eq_map (i : Instr) : i.called? = i.directCall?.map DirectCall.callee := by
  rw [called?, directCall?]
  cases i.call? with
  | none => rfl
  | some c => cases hc : c.direct? <;> simp [hc]

/-- A replacement is one step, or it is two of which the second takes the result of the first. -/
theorem Replacement.one_or_two {site : DirectCall} {steps : List Step}
    (h : Replacement site steps) :
    (∃ step, steps = [step]) ∨ ∃ step op tys, steps = [step, .intrinsic op tys [.previous]] := by
  cases h with
  | intrinsic hop hos => exact Or.inl ⟨_, rfl⟩
  | convert ho => exact Or.inl ⟨_, rfl⟩
  | intrinsicChain hop hop' => exact Or.inr ⟨_, _, _, rfl⟩
  | binaryChain hlhs hrhs hop' => exact Or.inr ⟨_, _, _, rfl⟩

/-- Renumbering results does not change which function is called. -/
theorem Instr.called?_renumber (ρ : Nat → Nat) (i : Instr) :
    (i.renumber ρ).called? = i.called? := by
  rcases i with ⟨id, name, ty, kind, loc⟩
  cases kind with
  | call c =>
      rcases c with ⟨callee, sig, args, conv⟩
      cases callee <;> rfl
  | _ => rfl

namespace Module

variable {m : Module} {f : Func}

theorem outcome_of_not_removes {i : Instr} (h : m.removes f i = false) :
    m.outcome f i = [i.renumber (Rewrite.redirect (m.rewrites f))] := by
  rw [outcome, h]
  rfl

/-- A call that is replaced gives its place to one instruction or to two. -/
theorem becomes_of_replacement? (hf : f.Numbered) (hplan : f.Planned (m.rewrites f)) {i : Instr}
    (hi : i ∈ f.instrs) {site : DirectCall} (hsite : i.directCall? = some site) {steps : List Step}
    (hsteps : m.replacement? f.name site = some steps) (hwidth : m.widthAt? i = some steps.length) :
    m.Becomes f (Rewrite.redirect (m.rewrites f)) i (m.outcome f i) := by
  obtain rfl : site.instr = i := Func.directCall?_eq_some hsite
  obtain ⟨before, after, hsplit⟩ := List.append_of_mem hi
  obtain ⟨first, hr, ρ, houtcome, _, hfresh⟩ := outcome_of_replacement? hf hplan hsplit hsite hsteps
  have hfirst : f.upcomingId ≤ first := (hplan.bounds hf _ hr).2
  have hresult : Rewrite.redirect (m.rewrites f) site.instr.id = first + (steps.length - 1) := by
    have hredirect := Rewrite.redirect_of_mem hplan.nodup hr
    rwa [Rewrite.result, DirectCall.rewrite, DirectCall.length_instrsFor] at hredirect
  have hnew : ∀ k, f.upcomingId ≤ k → ∀ j ∈ f.instrs, j.id ≠ k := by
    intro k hk j hj
    have hlt := hf.below j hj
    omega
  rw [houtcome]
  rcases (replacement_of_verdict (replacement?_eq_some_iff.1 hsteps)).one_or_two with
    ⟨step, rfl⟩ | ⟨step, op, tys, rfl⟩
  · exact .one hwidth ⟨rfl, rfl, hnew _ hfirst⟩ hresult
  · refine .two hwidth ⟨rfl, rfl, hnew _ hfirst⟩ ⟨rfl, rfl,
      hnew _ (Nat.le_succ_of_le hfirst)⟩ ?_ hresult
    exact congrArg (fun k => [Operand.inst k]) (hfresh first hfirst)

/-- What an instruction leaves is what its callee asks for. -/
theorem becomes_outcome (hf : f.Numbered) (hplan : f.Planned (m.rewrites f))
    (hjudged : ∀ site ∈ f.directCalls, ∃ verdict, m.verdict f.name site = .ok verdict) {i : Instr}
    (hi : i ∈ f.instrs) : m.Becomes f (Rewrite.redirect (m.rewrites f)) i (m.outcome f i) := by
  have hkept : m.removes f i = false → m.widthAt? i = none →
      m.Becomes f (Rewrite.redirect (m.rewrites f)) i (m.outcome f i) := by
    intro hremoves hwidth
    rw [outcome_of_not_removes hremoves]
    exact .kept hwidth (Rewrite.redirect_eq_self (old_ne_of_not_removes hf hi hremoves))
  cases hsite : i.directCall? with
  | none => exact hkept (by simp [removes, hsite]) (by simp [widthAt?, i.called?_eq_map, hsite])
  | some site =>
      obtain ⟨verdict, hv⟩ := hjudged site (List.mem_filterMap.2 ⟨i, hi, hsite⟩)
      have hwidth : m.widthAt? i = verdict.map Verdict.width := by
        rw [widthAt?, i.called?_eq_map, hsite]
        exact width?_of_verdict hv
      cases verdict with
      | none => exact hkept (by simp [removes, hsite, treats, hv]) hwidth
      | some verdict =>
          cases verdict with
          | drop =>
              have hnone : ∀ r ∈ m.rewrites f, r.old ≠ i.id := by
                intro r hr hold
                obtain ⟨site', _, hsite', steps, hsteps⟩ := exists_of_mem_rewrites hf hi hr hold
                rw [hsite] at hsite'
                cases hsite'
                rw [replacement?_eq_some_iff, hv] at hsteps
                cases hsteps
              have hremoves : m.removes f i = true := by simp [removes, hsite, treats, hv]
              rw [outcome, if_pos hremoves, Rewrite.inserted_eq_nil hnone]
              exact .dropped hwidth (Rewrite.redirect_eq_self hnone)
          | replace steps =>
              exact becomes_of_replacement? hf hplan hi hsite (replacement?_eq_some_iff.2 hv) hwidth

/-- Every instruction of a function is lowered in place. -/
theorem inPlace_lowered (hf : f.Numbered) (hplan : f.Planned (m.rewrites f))
    (hjudged : ∀ site ∈ f.directCalls, ∃ verdict, m.verdict f.name site = .ok verdict)
    (hids : ((m.lowered f).instrs.map Instr.id).Nodup) : m.InPlace f (m.lowered f) := by
  refine ⟨Rewrite.redirect (m.rewrites f), m.outcome f, ?_, fun i hi => ?_, fun k hk => ?_, hids⟩
  · rw [lowered_eq hf hplan]
    unfold Func.advance
    split <;> rfl
  · exact becomes_outcome hf hplan hjudged hi
  · refine Rewrite.redirect_eq_self fun r hr => ?_
    obtain ⟨i, hi, hid⟩ := hplan.exists_old hr
    rw [← hid]
    exact hk i hi

/-- A call of a function as it is declared. -/
def callOf (id : Nat) (callee : Func) (args : List Operand) : Instr :=
  ⟨id, "", callee.sig.ret, .call ⟨.func callee.name, callee.sig, args, .c⟩, none⟩

/-- A lifetime marker, a count of leading zeros and a conversion, with the functions they call. -/
def mixedCalls : Module :=
  let marker := Func.ofIntrinsic .lifetimeStart []
  let zeros := Func.ofIntrinsic .ctlz [.int 32]
  let round := Func.declare "__builtin_IB_dtoi32_rtn" ⟨.int 32, [.float 64]⟩
  ⟨"m", [], [marker, zeros, round,
    .define "kernel" ⟨.int 32, [.ptr (.int 8), .int 32, .float 64]⟩ [⟨"entry",
      [callOf 0 marker [.arg 1, .arg 0], callOf 1 zeros [.arg 1, .arg 1], callOf 2 round [.arg 2],
        ⟨3, "", .int 32, .binary .add (.inst 1) (.inst 2), none⟩,
        ⟨4, "", .void, .ret (some (.inst 3)), none⟩]⟩]]⟩

/-- Where instructions are replaced in place, no call that is lowered stands under the identifier of
an old instruction. -/
theorem InPlace.widthAt?_eq_none {g : Func} (h : m.InPlace f g) {x : Instr} (hx : x ∈ g.instrs)
    (hold : ∃ j ∈ f.instrs, j.id = x.id) : m.widthAt? x = none := by
  obtain ⟨ρ, pieces, hg, hpieces, _, _⟩ := h
  obtain ⟨j, hj, hid⟩ := hold
  have hinstrs : g.instrs = f.instrs.flatMap pieces := by
    rw [hg]
    exact Func.instrs_expand pieces f
  rw [hinstrs] at hx
  obtain ⟨i, hi, hx⟩ := List.mem_flatMap.1 hx
  have hbecomes := hpieces i hi
  generalize pieces i = piece at hx hbecomes
  -- New instructions have new identifiers, so the instruction is one that was kept.
  cases hbecomes with
  | kept hwidth hρ =>
      rw [List.mem_singleton.1 hx, widthAt?, Instr.called?_renumber]
      exact hwidth
  | dropped hwidth hρ => cases hx
  | one hwidth hnew hρ =>
      rw [List.mem_singleton.1 hx] at hid
      exact absurd hid (hnew.fresh j hj)
  | two hwidth hnew hnew' hargs hρ =>
      rcases List.mem_pair.1 hx with rfl | rfl
      · exact absurd hid (hnew.fresh j hj)
      · exact absurd hid (hnew'.fresh j hj)

/-- A call that asks for lowering stands in the result under the identifier of an old
instruction. -/
def LeavesOld (m out : Module) : Prop :=
  ∃ p ∈ m.functions.zip out.functions, ∃ x ∈ p.2.instrs,
    (∃ j ∈ p.1.instrs, j.id = x.id) ∧ m.widthAt? x ≠ none

instance (m out : Module) : Decidable (m.LeavesOld out) :=
  inferInstanceAs (Decidable (∃ p ∈ m.functions.zip out.functions, ∃ x ∈ p.2.instrs,
    (∃ j ∈ p.1.instrs, j.id = x.id) ∧ m.widthAt? x ≠ none))

/-- One such call is enough for instructions not to be replaced in place. -/
theorem LeavesOld.not_inPlace {out : Module} (h : m.LeavesOld out) {gs ds : List Func}
    (hout : out.functions = gs ++ ds) : ¬ List.Forall₂ m.InPlace m.functions gs := by
  intro hall
  obtain ⟨⟨f, g⟩, hp, x, hx, hold, hwidth⟩ := h
  obtain ⟨hlength, hzip⟩ := List.forall₂_iff_zip.1 hall
  rw [hout, ← List.append_nil m.functions, List.zip_append hlength, List.zip_nil_left,
    List.append_nil] at hp
  exact hwidth ((hzip hp).widthAt?_eq_none hx hold)

/-- Two square roots of the argument, of which the second one is returned. -/
def twoRoots (first second last : Nat) (counter : Option Nat) : Module :=
  let root := Func.declare "__builtin_IB_native_sqrtf" ⟨.float 32, [.float 32]⟩
  let body : Blocks := [⟨"entry", [callOf first root [.arg 0], callOf second root [.arg 0],
    ⟨last, "", .void, .ret (some (.inst second)), none⟩]⟩]
  ⟨"m", [], [root, { Func.define "kernel" ⟨.float 32, [.float 32]⟩ body with nextId := counter }]⟩

/-- Two square roots, of which the first one gives its place to the last identifier. -/
def rootsAtEnd : Module := twoRoots 4294967294 0 1 none

/-- Two square roots in a function whose counter stands too low. -/
def rootsBelow : Module := twoRoots 0 1 2 (some 1)

end Module

end Postlink
