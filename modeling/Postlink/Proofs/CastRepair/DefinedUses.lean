import Postlink.Proofs.CastRepair.Correspondence
import Postlink.Proofs.CastRepair.Steps
import Postlink.Proofs.Lowering.DefinedUses
import Postlink.Proofs.Pipeline.Orderly

/-!
# Uses of results after cast repair

A call of a copy is put in front of the old call, takes the values that the old call takes, and
takes over its uses at once. So at any point of a sweep results come from further up, and nothing
uses the result of a call that is to go (`Func.Ordered`). A copy is made of a body in that state,
whatever has been redirected in it by then, and nothing is staged under its name yet. What is staged
can therefore be taken out of every body at the end (`Func.Ordered.clear`). All of this needs
identifiers that are new, and fails where an old one is handed out again
(`not_usesEarlier_repairCasts`).
-/

namespace Postlink

/-- Replacing instructions by others that take the same results, under new numbers, keeps results
further up if each result that is used has its replacement. -/
theorem Instr.UsesEarlier.flatMap {is : List Instr} (h : UsesEarlier is) {g : Instr → List Instr}
    {σ : Nat → Nat}
    (hoperands : ∀ i ∈ is, ∀ x ∈ g i, ∀ o ∈ x.operands, ∀ k, o.result? = some k →
      ∃ p ∈ i.operands, ∃ l, p.result? = some l ∧ σ l = k)
    (hresults : ∀ i ∈ is, ∀ o ∈ i.operands, ∀ j ∈ is, o.result? = some j.id →
      ∃ y ∈ g j, y.id = σ j.id) : UsesEarlier (is.flatMap g) := by
  intro pre x post hsplit o ho k hk
  obtain ⟨before, i, after, u, v, rfl, hi, rfl⟩ := flatMap_split hsplit
  have hmem : i ∈ before ++ i :: after := by simp
  obtain ⟨p, hp, l, hl, rfl⟩ := hoperands i hmem x (by simp [hi]) o ho k hk
  obtain ⟨j, hj, rfl⟩ := h before i after rfl p hp l hl
  obtain ⟨y, hy, hid⟩ := hresults i hmem p hp j (by simp [hj]) hl
  exact ⟨y, List.mem_append_left _ (List.mem_flatMap.2 ⟨j, hj, hy⟩), hid⟩

namespace Func

/-- No cast hides a result. -/
def BareResults (f : Func) : Prop := ∀ i ∈ f.instrs, ∀ o ∈ i.operands, ∀ k ∈ o.result?, o = .inst k

instance (f : Func) : Decidable f.BareResults :=
  inferInstanceAs (Decidable (∀ i ∈ f.instrs, ∀ o ∈ i.operands, ∀ k ∈ o.result?, o = .inst k))

/-- A body in which results come from further up, and never from an instruction that is to go. -/
structure Ordered (staged : List (String × Nat)) (f : Func) : Prop where
  /-- Identifiers are distinct and below the counter. -/
  numbered : f.Numbered
  /-- Results come from further up. -/
  earlier : Instr.UsesEarlier f.instrs
  /-- No cast hides one. -/
  bare : f.BareResults
  /-- What is staged is old, and nothing uses its result. -/
  released : ∀ k, (f.name, k) ∈ staged → k < f.upcomingId ∧ ∀ i ∈ f.instrs, .inst k ∉ i.operands

variable {f g : Func} {staged : List (String × Nat)}

/-- Results that no cast hides are renumbered with their operands. -/
theorem BareResults.exists_of_renumber (h : f.BareResults) {i : Instr} (hi : i ∈ f.instrs)
    {p : Operand} (hp : p ∈ i.operands) {σ : Nat → Nat} {k : Nat}
    (hk : (p.renumber σ).result? = some k) : ∃ l, p = .inst l ∧ σ l = k := by
  have hbare := h i hi p hp
  rw [Operand.result?_renumber fun l hl => hbare l hl] at hk
  obtain ⟨l, hl, hlk⟩ := Option.map_eq_some_iff.1 hk
  exact ⟨l, hbare l hl, hlk⟩

/-- The same body under a name for which nothing is staged. -/
theorem Ordered.copy (h : f.Ordered staged) (hbody : g.instrs = f.instrs) (hnext : g.nextId = none)
    (hnew : ∀ e ∈ staged, e.1 ≠ g.name) : g.Ordered staged := by
  refine ⟨numbered_of_nodup hnext (hbody ▸ h.numbered.distinct), hbody ▸ h.earlier, ?_, ?_⟩
  · intro i hi
    exact h.bare i (hbody ▸ hi)
  · intro k hk
    exact absurd rfl (hnew _ hk)

section HandOver

/-- The instructions that stand for one when a new one takes over the uses of an old one. -/
def handed (old new : Instr) (id : Nat) (i : Instr) : List Instr :=
  (if i.id = old.id then [{ new with id := id }, i] else [i]).map
    (Instr.renumber fun k => if k = old.id then id else k)

variable {old new : Instr} {id : Nat}

/-- An instruction that stands for another takes its values, under new numbers. -/
theorem mem_handed (hdistinct : (f.instrs.map Instr.id).Nodup) (hold : old ∈ f.instrs)
    (hnew : ∀ o ∈ new.operands, o ∈ old.operands ∨ ∃ name, o = .func name) {i x : Instr}
    (hi : i ∈ f.instrs) (hx : x ∈ handed old new id i) {o : Operand} (ho : o ∈ x.operands) :
    (∃ p ∈ i.operands, o = p.renumber fun k => if k = old.id then id else k) ∨
      ∃ name, o = .func name := by
  obtain ⟨y, hy, rfl⟩ := List.mem_map.1 hx
  rw [Instr.operands_mapOperands, List.mem_map] at ho
  obtain ⟨p, hp, rfl⟩ := ho
  by_cases hid : i.id = old.id
  · obtain rfl := List.inj_on_of_nodup_map hdistinct hi hold hid
    rw [if_pos rfl, List.mem_pair] at hy
    rcases hy with rfl | rfl
    · rcases hnew p hp with hp | ⟨name, rfl⟩
      · exact Or.inl ⟨p, hp, rfl⟩
      · exact Or.inr ⟨name, rfl⟩
    · exact Or.inl ⟨p, hp, rfl⟩
  · rw [if_neg hid, List.mem_singleton] at hy
    subst hy
    exact Or.inl ⟨p, hp, rfl⟩

/-- Every result has its replacement. -/
theorem exists_mem_handed (i : Instr) :
    ∃ y ∈ handed old new id i, y.id = if i.id = old.id then id else i.id := by
  unfold handed
  by_cases hid : i.id = old.id
  · rw [if_pos hid, if_pos hid]
    exact ⟨_, List.mem_map_of_mem (List.mem_cons_self ..), rfl⟩
  · rw [if_neg hid, if_neg hid]
    exact ⟨_, List.mem_map_of_mem (List.mem_cons_self ..), rfl⟩

/-- Where no cast hides a result, a result that is taken was taken before, under another number. -/
theorem BareResults.exists_of_handed (h : f.BareResults) (hdistinct : (f.instrs.map Instr.id).Nodup)
    (hold : old ∈ f.instrs) (hnew : ∀ o ∈ new.operands, o ∈ old.operands ∨ ∃ name, o = .func name)
    {i x : Instr} (hi : i ∈ f.instrs) (hx : x ∈ handed old new id i) {o : Operand}
    (ho : o ∈ x.operands) {k : Nat} (hk : o.result? = some k) :
    ∃ l, .inst l ∈ i.operands ∧ (if l = old.id then id else l) = k ∧ o = .inst k := by
  rcases mem_handed hdistinct hold hnew hi hx ho with ⟨p, hp, rfl⟩ | ⟨name, rfl⟩
  · obtain ⟨l, rfl, rfl⟩ := h.exists_of_renumber hi hp hk
    exact ⟨l, hp, rfl, rfl⟩
  · cases hk

/-- Inserting an instruction and letting it take over the uses is one expansion. -/
theorem replaceUses_insert (old new : Instr) (f : Func) :
    ((f.advance 1).expand fun i =>
      if i.id = old.id then [{ new with id := f.upcomingId }, i] else [i]).replaceUses
        old.id (.inst f.upcomingId) = (f.advance 1).expand (handed old new f.upcomingId) := by
  rw [replaceUses_inst, expand_expand]
  refine expand_congr fun i _ => ?_
  rw [handed, List.map_eq_flatMap]

/-- An instruction that takes the values of an old one is put in front of it and takes over its
uses; the old one can then be staged. -/
theorem Ordered.handOver (h : f.Ordered staged) (hold : old ∈ f.instrs)
    (hnew : ∀ o ∈ new.operands, o ∈ old.operands ∨ ∃ name, o = .func name) :
    ((f.advance 1).expand (handed old new f.upcomingId)).Ordered
      (staged ++ [(f.name, old.id)]) := by
  have hlt := h.numbered.below old hold
  have hnumbered := (h.numbered.insert old.id new).renumber
    fun k => if k = old.id then f.upcomingId else k
  rw [← replaceUses_inst, replaceUses_insert] at hnumbered
  have hinstrs : ((f.advance 1).expand (handed old new f.upcomingId)).instrs =
      f.instrs.flatMap (handed old new f.upcomingId) := by rw [instrs_expand, instrs_advance]
  have hcounter := upcomingId_expand_advance Nat.one_ne_zero (handed old new f.upcomingId) f
  refine ⟨hnumbered, ?_, ?_, ?_⟩
  · rw [hinstrs]
    refine h.earlier.flatMap (σ := fun k => if k = old.id then f.upcomingId else k) ?_
      fun i _ o _ j _ _ => exists_mem_handed j
    intro i hi x hx o ho k hk
    obtain ⟨l, hl, hlk, _⟩ := h.bare.exists_of_handed h.numbered.distinct hold hnew hi hx ho hk
    exact ⟨.inst l, hl, l, rfl, hlk⟩
  · intro x hx o ho k hk
    rw [hinstrs] at hx
    obtain ⟨i, hi, hx⟩ := List.mem_flatMap.1 hx
    obtain ⟨_, _, _, hbare⟩ := h.bare.exists_of_handed h.numbered.distinct hold hnew hi hx ho hk
    exact hbare
  · intro k hk
    have hearlier : k < f.upcomingId ∧ (k ≠ old.id → ∀ i ∈ f.instrs, .inst k ∉ i.operands) := by
      rcases List.mem_append.1 hk with hk | hk
      · rw [name_expand, name_advance] at hk
        exact ⟨(h.released k hk).1, fun _ => (h.released k hk).2⟩
      · rw [List.mem_singleton, Prod.mk.injEq] at hk
        exact ⟨hk.2 ▸ hlt, fun hne => absurd hk.2 hne⟩
    refine ⟨by omega, fun x hx ho => ?_⟩
    -- The uses of the old result have gone to one that is fresh.
    rw [hinstrs] at hx
    obtain ⟨i, hi, hx⟩ := List.mem_flatMap.1 hx
    obtain ⟨l, hl, hlk, _⟩ := h.bare.exists_of_handed h.numbered.distinct hold hnew hi hx ho rfl
    split at hlk
    · omega
    · rename_i hne
      subst hlk
      exact hearlier.2 hne i hi hl

end HandOver

/-- What is staged can be taken out. -/
theorem Ordered.clear (h : f.Ordered staged) :
    Instr.UsesEarlier (f.clear staged).instrs ∧ (f.clear staged).BareResults := by
  constructor
  · rw [Func.clear, instrs_expand]
    refine h.earlier.flatMap (σ := fun k => k) ?_ ?_
    · intro i _ x hx o ho k hk
      split at hx
      · cases hx
      · rw [List.mem_singleton] at hx
        exact ⟨o, hx ▸ ho, k, hk, rfl⟩
    · intro i hi o ho j _ hresult
      have huse : .inst j.id ∈ i.operands := h.bare i hi o ho j.id hresult ▸ ho
      rw [if_neg fun hstaged => (h.released j.id hstaged).2 i hi huse]
      exact ⟨j, List.mem_singleton_self j, rfl⟩
  · intro i hi
    rw [instrs_clear] at hi
    exact h.bare i (List.mem_of_mem_filter hi)

end Func

namespace Repair

/-- A repair in which all bodies are in order. -/
structure Ordered (s : Repair) : Prop where
  /-- Names are distinct. -/
  names : s.module.DistinctNames
  /-- Functions and copies are in order. -/
  functions : ∀ f ∈ s.module.functions, f.Ordered s.pending.instrs
  /-- Calls are staged under the names of functions that are there. -/
  staged : ∀ e ∈ s.pending.instrs, e.1 ∈ s.module.functions.map Func.name

namespace Ordered

variable {s s' : Repair}

/-- A copy takes over a body that is in order. -/
theorem copy? (h : s.Ordered) {c : CastCall} {name : String} (hs : s.copy? c = some (name, s')) :
    s'.Ordered := by
  rcases copy?_cases hs with ⟨_, rfl⟩ | ⟨g, _, hg, _, rfl⟩
  · exact h
  · obtain ⟨f, hf, _, rfl⟩ := Module.exists_of_copyFor? hg
    obtain ⟨hmem, _⟩ := Module.mem_of_func? hf
    have hfree := s.module.freeName_notMem f.name
    refine ⟨h.names.addFunc hfree, fun b hb => ?_, fun e he => ?_⟩
    · rcases List.mem_append.1 hb with hb | hb
      · exact h.functions b hb
      · rw [List.mem_singleton.1 hb]
        refine (h.functions f hmem).copy rfl rfl ?_
        intro e he (hname : e.1 = s.module.freeName f.name)
        exact hfree (hname ▸ h.staged e he)
    · rw [Module.addFunc, List.map_append]
      exact List.mem_append_left _ (h.staged e he)

/-- One function changes in its place, and one of its instructions is staged. -/
theorem setFunc (h : s.Ordered) {index : Nat} {f g : Func}
    (hf : s.module.functions[index]? = some f)
    (hname : g.name = f.name) {k : Nat} (hg : g.Ordered (s.pending.instrs ++ [(f.name, k)]))
    (stats : RepairStats) : Ordered ⟨s.module.setFunc index g, s.copies,
      s.pending.addInstr f.name k, stats⟩ := by
  have hmap : (s.module.setFunc index g).functions.map Func.name =
      s.module.functions.map Func.name := Module.map_setFunc hf hname
  have hnames : (s.module.setFunc index g).DistinctNames := by
    rw [Module.DistinctNames, hmap]
    exact h.names
  have hthere : g ∈ (s.module.setFunc index g).functions := by
    obtain ⟨hlt, _⟩ := List.getElem?_eq_some_iff.1 hf
    exact List.mem_set hlt g
  refine ⟨hnames, fun b hb => ?_, fun e he => ?_⟩
  · by_cases hsame : b.name = f.name
    · rw [List.inj_on_of_nodup_map hnames hb hthere (hsame.trans hname.symm)]
      exact hg
    · rcases List.mem_or_eq_of_mem_set hb with hb | rfl
      · have hordered := h.functions b hb
        refine ⟨hordered.numbered, hordered.earlier, hordered.bare, fun k' hk' => ?_⟩
        rcases List.mem_append.1 hk' with hk' | hk'
        · exact hordered.released k' hk'
        · rw [List.mem_singleton, Prod.mk.injEq] at hk'
          exact absurd hk'.1 hsame
      · exact absurd hname hsame
  · rw [hmap]
    rcases List.mem_append.1 he with he | he
    · exact h.staged e he
    · rw [List.mem_singleton.1 he]
      exact List.mem_map_of_mem (List.mem_of_getElem? hf)

/-- Redirecting a call hands its uses over. -/
theorem retarget (h : s.Ordered) {index : Nat} {c : CastCall} {name : String}
    (hs : s.retarget .stops index c name = .ok s') : s'.Ordered := by
  rcases retarget_cases hs with rfl | ⟨f, old, call, id, g, hf, hold, hcall, hinsert, rfl⟩
  · exact h
  · have hmem : old ∈ f.instrs := List.mem_of_find?_eq_some hold
    have hid : old.id = c.id := by simpa using List.find?_some hold
    have hordered := h.functions f (List.mem_of_getElem? hf)
    have hnew : ∀ o ∈ (Repair.redirected name c.sig old call).operands,
        o ∈ old.operands ∨ ∃ name, o = .func name := by
      intro o ho
      rw [Instr.operands_of_call? hcall]
      rcases List.mem_cons.1 ho with rfl | ho
      · exact Or.inr ⟨name, rfl⟩
      · exact Or.inl (List.mem_cons_of_mem _ ho)
    obtain ⟨rfl, rfl⟩ := hordered.numbered.insertBefore_eq hinsert
    rw [← hid, Func.replaceUses_insert]
    refine h.setFunc hf ?_ (hordered.handOver hmem hnew) _
    rw [Func.name_expand, Func.name_advance]

/-- A sweep that meets no overflow keeps everything in order. -/
theorem sweep {m : Module} (hstart : (start m).Ordered) (hs : Repair.sweep .stops m = .ok s) :
    s.Ordered :=
  sweep_induction hstart (fun _ _ _ _ hcopy h => h.copy? hcopy)
    (fun _ _ _ _ _ hstep h => h.retarget hstep)
    (fun _ h => ⟨h.names, h.functions, h.staged⟩) hs

/-- What a sweep leaves is in order once the old calls are gone. -/
theorem finish (h : s.Ordered) {f : Func} (hf : f ∈ s.finish.2.functions) :
    Instr.UsesEarlier f.instrs ∧ f.BareResults := by
  have hids : s.module.DistinctIds := fun f hf => (h.functions f hf).numbered.distinct
  have hcleared := Erasure.carryOut_module h.names hids s.pending
  have hnames' : s.cleared.DistinctNames := by
    rw [cleared, hcleared]
    exact (h.names.mapFuncs (Func.name_clear s.pending.instrs)).keep _
  have hids' : s.cleared.DistinctIds := by
    rw [cleared, hcleared]
    intro f hf
    exact hids.clear s.pending.instrs f (List.mem_of_mem_filter hf)
  obtain ⟨hinstrs, _⟩ := Erasure.foldl_addFunc s.unneeded Erasure.empty
  rw [Repair.finish, Erasure.carryOut_module hnames' hids', hinstrs] at hf
  obtain ⟨g, hg, rfl⟩ := List.mem_map.1 (List.mem_of_mem_filter hf)
  rw [cleared, hcleared] at hg
  obtain ⟨b, hb, rfl⟩ := List.mem_map.1 (List.mem_of_mem_filter hg)
  have hempty : Erasure.empty.instrs = [] := rfl
  rw [hempty, Func.clear_nil]
  exact (h.functions b hb).clear

end Ordered

end Repair

namespace Module

/-- A function with two calls through casts, of which the second takes the result of the first, and
a call through a cast of that function behind it. -/
def chainedCasts : Module :=
  let word : Ty := .int 32
  let real : Ty := .float 32
  let callee : Operand := .cast (.func "g") (.ptr (.func real [real]))
  ⟨"m", [], [
    .define "f" ⟨real, [real]⟩ [
      ⟨"entry", [⟨0, "", real, .call ⟨callee, ⟨real, [real]⟩, [.arg 0], .c⟩, none⟩]⟩,
      ⟨"exit", [⟨1, "", real, .call ⟨callee, ⟨real, [real]⟩, [.inst 0], .c⟩, none⟩,
        ⟨2, "", .void, .ret (some (.inst 1)), none⟩]⟩],
    returner "g" word, forwarder "main" word "f"]⟩

/-- Four calls through casts, of which the first one is redirected to the last identifier. -/
def chainAtEnd : Module :=
  castsIn [(4294967294, .arg 0), (1, .arg 0), (2, .inst 1), (0, .arg 0)] 3 none

/-- Three calls through casts in a function whose counter stands too low. -/
def chainBelow : Module := castsIn [(0, .arg 0), (3, .inst 0), (1, .arg 0)] 2 (some 1)

end Module

end Postlink
