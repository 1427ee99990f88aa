import Postlink.Proofs.CastRepair.Copies

/-!
# What a sweep of cast repair does

The sweep visits the functions that are there and the copies that it makes, in order. What it has
done at any point is a list of redirected calls (`Underway`); a call asks for its copy right before
it is redirected. As long as no identifier overflows, the sweep reaches every copy (`swept`).
-/

namespace Postlink

/-- Rewriting instructions changes only the body and the counter. -/
theorem Func.rewriteBy_eq (rs : List Rewrite) (f : Func) : f.rewriteBy rs =
    { f with body := (f.rewriteBy rs).body, nextId := (f.rewriteBy rs).nextId } := by
  unfold rewriteBy advance
  split <;> rfl

@[simp] theorem Func.isDeclared_rewriteBy (rs : List Rewrite) (f : Func) :
    (f.rewriteBy rs).isDeclared = f.isDeclared := by
  rw [rewriteBy, expand, isDeclared, body_advance, isDeclared]
  cases f.body <;> rfl

/-- A function that is called through a cast in a closed module is there. -/
theorem Module.Closed.isSome_castTarget? {m : Module} (h : m.Closed) {f : Func}
    (hf : f ∈ m.functions) {i : Instr} (hi : i ∈ f.instrs) {name : String}
    (hname : i.castTarget? = some name) : (m.func? name).isSome = true := by
  rw [Instr.castTarget?] at hname
  obtain ⟨c, hc, hcast⟩ := Option.bind_eq_some_iff.1 hname
  have hcallee : c.callee.func? = some name := by
    unfold Call.throughCast? at hcast
    split at hcast
    · exact hcast
    · cases hcast
  refine h f hf c.callee ?_ name hcallee
  refine List.mem_flatMap.2 ⟨i, hi, ?_⟩
  rw [Instr.operands_of_call? hc]
  exact List.mem_cons_self ..

namespace Repair

/-- A repair on its way: some calls have asked for copies, and some have been redirected. -/
structure Underway (m : Module) (clones : List Func) (plan : String → List Rewrite)
    (asked done : List (String × CastCall)) (s : Repair) : Prop where
  /-- The functions and the copies, each with its calls redirected. -/
  module_eq : s.module =
    { m with functions := (m.functions ++ clones).map fun f => f.rewriteBy (plan f.name) }
  /-- Names stay distinct. -/
  names : ((m.functions ++ clones).map Func.name).Nodup
  /-- Calls are redirected to the copies that they asked for. -/
  redirected : ∀ f ∈ m.functions ++ clones, f.Redirected (m.Goes s.copies) (plan f.name)
  /-- They are redirected in order. -/
  olds : ∀ f ∈ m.functions ++ clones, (plan f.name).map Rewrite.old =
    (done.filter fun e => e.1 = f.name).map fun e => e.2.id
  /-- They are calls of functions or copies. -/
  callers : ∀ e ∈ done, e.1 ∈ (m.functions ++ clones).map Func.name
  /-- The old calls are staged. -/
  pending : s.pending = ⟨done.map fun e => (e.1, e.2.id), []⟩
  /-- The copies are those asked for. -/
  copying : Copying m asked s.copies clones

namespace Underway

variable {m : Module} {clones : List Func} {plan : String → List Rewrite}
  {asked done : List (String × CastCall)} {s : Repair}

theorem start (hnames : m.DistinctNames) (hnum : m.Numbered) :
    Underway m [] (fun _ => []) [] [] (Repair.start m) := by
  have hself : m.functions.map (fun f => f.rewriteBy []) = m.functions := by simp
  refine ⟨?_, ?_, ?_, ?_, ?_, rfl, ⟨.nil, ?_, ?_, List.nodup_nil⟩⟩
  · rw [List.append_nil, hself]
    rfl
  · rwa [List.append_nil]
  · intro f hf
    rw [List.append_nil] at hf
    exact .nil _ (hnum f hf)
  all_goals simp

/-- Only copies have new names. -/
theorem map_name_functions (h : Underway m clones plan asked done s) :
    s.module.functions.map Func.name = (m.functions ++ clones).map Func.name := by
  rw [h.module_eq, List.map_map]
  simp only [Function.comp_def, Func.name_rewriteBy]

/-- Names stay distinct on the way. -/
theorem distinctNames (h : Underway m clones plan asked done s) : s.module.DistinctNames := by
  rw [Module.DistinctNames, h.map_name_functions]
  exact h.names

/-- The functions on the way are those of the module and the copies, rewritten as planned. -/
theorem func?_eq (h : Underway m clones plan asked done s) {f : Func}
    (hf : f ∈ m.functions ++ clones) :
    s.module.func? f.name = some (f.rewriteBy (plan f.name)) := by
  refine h.distinctNames.func?_eq_some_iff.2 ⟨?_, f.name_rewriteBy _⟩
  rw [h.module_eq]
  exact List.mem_map.2 ⟨f, hf, rfl⟩

/-- A copy is made under a new name, so the functions keep their meaning. -/
theorem defines_eq (h : Underway m clones plan asked done s) {name : String}
    (hname : (m.func? name).isSome = true) : s.module.defines name = m.defines name := by
  obtain ⟨f, hf⟩ := Option.isSome_iff_exists.1 hname
  obtain ⟨hmem, rfl⟩ := Module.mem_of_func? hf
  unfold Module.defines
  rw [hf, h.func?_eq (List.mem_append_left _ hmem)]
  simp

theorem numbered (h : Underway m clones plan asked done s) (hnum : m.Numbered) {f : Func}
    (hf : f ∈ m.functions ++ clones) : f.Numbered := by
  rcases List.mem_append.1 hf with hf | hf
  · exact hnum f hf
  · obtain ⟨_, _, _, _, hsnapshot⟩ := h.copying.exists_snapshot hf
    exact hsnapshot.numbered

/-- What a function or a copy calls through a cast, a function of the module calls. -/
theorem traced (h : Underway m clones plan asked done s) {f : Func} (hf : f ∈ m.functions ++ clones)
    {x : Instr} (hx : x ∈ f.instrs) : x.castTarget? = none ∨
      ∃ g ∈ m.functions, ∃ i ∈ g.instrs, ∃ ρ : Nat → Nat, x = i.renumber ρ := by
  rcases List.mem_append.1 hf with hf | hf
  · exact Or.inr ⟨f, hf, x, hx, fun k => k, x.renumber_self.symm⟩
  · obtain ⟨_, _, g, _, hsnapshot⟩ := h.copying.exists_snapshot hf
    rcases hsnapshot.traced hx with hnone | ⟨i, hi, ρ, rfl⟩
    · exact Or.inl hnone
    · exact Or.inr ⟨g, hsnapshot.mem, i, hi, ρ, rfl⟩

/-- Calls through casts are the same while the repair goes on. -/
theorem castCall?_eq (h : Underway m clones plan asked done s) (hclosed : m.Closed) {f : Func}
    (hf : f ∈ m.functions ++ clones) {x : Instr} (hx : x ∈ f.instrs) :
    s.module.castCall? x = m.castCall? x := by
  rcases h.traced hf hx with hnone | ⟨g, hg, i, hi, ρ, rfl⟩
  · rw [Module.castCall?_eq_none hnone, Module.castCall?_eq_none hnone]
  · rw [Module.castCall?_renumber, Module.castCall?_renumber]
    have hknown : ∀ name, i.castTarget? = some name → s.module.defines name = m.defines name :=
      fun name hname => h.defines_eq (hclosed.isSome_castTarget? hg hi hname)
    unfold Module.castCall?
    rw [Instr.castTarget?] at hknown
    cases hcall : i.call? with
    | none => rfl
    | some c =>
        cases hcast : c.throughCast? with
        | none => simp [hcast]
        | some target =>
            have hdefines := hknown target (by rw [hcall, Option.bind_some, hcast])
            simp [hcast, hdefines]

/-- A copy that can be had is made of its origin as it is by then. -/
theorem copyFor?_eq (h : Underway m clones plan asked done s) {c : CastCall} {f : Func}
    (hf : m.func? c.target = some f) : s.module.copyFor? c =
      if f.sig.arity = c.sig.arity then
        some (f.copyWith (plan f.name) (s.module.freeName f.name) c.sig)
      else none := by
  obtain ⟨hmem, hname⟩ := Module.mem_of_func? hf
  have hthere := h.func?_eq (List.mem_append_left clones hmem)
  rw [hname] at hthere
  rw [Module.copyFor?, hthere, Func.rewriteBy_eq, hname]
  rfl

/-- A copy that is there is used again. -/
theorem copy?_of_lookup {c : CastCall} {name : String} (h : s.copies.lookup c.key = some name) :
    s.copy? c = some (name, s) := by
  unfold copy?
  rw [CastCall.key] at h
  rw [h]

/-- A copy that is not there yet is made and recorded. -/
theorem copy?_of_copyFor? {c : CastCall} (h : s.copies.lookup c.key = none) {f : Func}
    (hf : s.module.copyFor? c = some f) : ∃ stats, s.copy? c = some (f.name,
      ⟨s.module.addFunc f, s.copies ++ [(c.key, f.name)], s.pending, stats⟩) := by
  unfold copy?
  rw [CastCall.key] at h
  rw [h, hf]
  exact ⟨_, rfl⟩

/-- A copy is appended under a new name, and none of its calls has been redirected yet. -/
theorem append (h : Underway m clones plan asked done s) {g : Func} (hg : g.Numbered)
    (hnew : g.name ∉ (m.functions ++ clones).map Func.name)
    {later : List ((String × Signature) × String)} {asked' : List (String × CastCall)}
    (hcopying : Copying m asked' (s.copies ++ later) (clones ++ [g])) (stats : RepairStats) :
    ∃ plan', (∀ f ∈ m.functions ++ clones, plan' f.name = plan f.name) ∧
      Underway m (clones ++ [g]) plan' asked' done
        ⟨s.module.addFunc g, s.copies ++ later, s.pending, stats⟩ := by
  have hplan : ∀ f ∈ m.functions ++ clones,
      (if f.name = g.name then [] else plan f.name) = plan f.name := by
    intro f hf
    refine if_neg fun hsame => hnew ?_
    rw [← hsame]
    exact List.mem_map_of_mem hf
  have hcases : ∀ f ∈ m.functions ++ (clones ++ [g]), f ∈ m.functions ++ clones ∨ f = g := by
    intro f hf
    rwa [← List.append_assoc, List.mem_append, List.mem_singleton] at hf
  refine ⟨fun n => if n = g.name then [] else plan n, hplan, ?_, ?_, ?_, ?_, ?_,
    h.pending, hcopying⟩
  · have hmap : (m.functions ++ clones).map (fun f => f.rewriteBy (plan f.name)) =
        (m.functions ++ clones).map fun f =>
          f.rewriteBy (if f.name = g.name then [] else plan f.name) :=
      List.map_congr_left fun f hf => by rw [hplan f hf]
    rw [← List.append_assoc, List.map_append, ← hmap, Module.addFunc, h.module_eq]
    simp
  · rw [← List.append_assoc, List.map_append, List.nodup_append]
    refine ⟨h.names, List.nodup_singleton _, ?_⟩
    intro a ha b hb hab
    rw [hab, List.mem_singleton.1 hb] at ha
    exact hnew ha
  · intro f hf
    rcases hcases f hf with hf | rfl
    · rw [hplan f hf]
      exact (h.redirected f hf).mono fun i _ name hgoes => hgoes.append later
    · rw [if_pos rfl]
      exact .nil _ hg
  · intro f hf
    rcases hcases f hf with hf | rfl
    · rw [hplan f hf]
      exact h.olds f hf
    · have hnone : (done.filter fun e => e.1 = f.name) = [] := by
        rw [List.filter_eq_nil_iff]
        intro e he hcaller
        exact hnew (of_decide_eq_true hcaller ▸ h.callers e he)
      rw [if_pos rfl, hnone]
      rfl
  · intro e he
    rw [← List.append_assoc, List.map_append]
    exact List.mem_append_left _ (h.callers e he)

/-- A call that can be redirected gets a copy. -/
theorem copy (h : Underway m clones plan done done s) {b : Func} (hb : b ∈ m.functions ++ clones)
    {c : CastCall} (hable : (m.copyFor? c).isSome = true) :
    ∃ name s' new plan', s.copy? c = some (name, s') ∧ s'.copies.lookup c.key = some name ∧
      plan' b.name = plan b.name ∧
      Underway m (clones ++ new) plan' (done ++ [(b.name, c)]) done s' := by
  cases hlookup : s.copies.lookup c.key with
  | some name =>
      refine ⟨name, s, [], plan, copy?_of_lookup hlookup, hlookup, rfl, ?_⟩
      rw [List.append_nil]
      exact ⟨h.module_eq, h.names, h.redirected, h.olds, h.callers, h.pending,
        h.copying.again hable (by rw [hlookup]; rfl)⟩
  | none =>
      obtain ⟨f, hfound⟩ : ∃ f, m.func? c.target = some f := by
        cases hf : m.func? c.target with
        | none => rw [Module.copyFor?, hf] at hable; cases hable
        | some f => exact ⟨f, rfl⟩
      obtain ⟨hf, hname⟩ := Module.mem_of_func? hfound
      have hcopy := h.copyFor?_eq hfound
      rw [if_pos ((Module.isSome_copyFor?_iff hfound).1 hable)] at hcopy
      obtain ⟨stats, hstep⟩ := copy?_of_copyFor? hlookup hcopy
      have hf' := List.mem_append_left clones hf
      have hnew : s.module.freeName f.name ∉ (m.functions ++ clones).map Func.name :=
        h.map_name_functions ▸ s.module.freeName_notMem f.name
      have hcopying := h.copying.anew (e := (b.name, c)) hable hlookup hf hname
        (h.redirected f hf') (h.olds f hf') (s.module.freeName f.name)
      have hnumbered : (f.copyWith (plan f.name) (s.module.freeName f.name) c.sig).Numbered := by
        obtain ⟨_, _, _, _, hsnapshot⟩ :=
          hcopying.exists_snapshot (List.mem_append_right _ (List.mem_singleton_self _))
        exact hsnapshot.numbered
      obtain ⟨plan', hplan, hnext⟩ := h.append hnumbered hnew hcopying stats
      refine ⟨_, _, _, plan', hstep, ?_, hplan b hb, hnext⟩
      rw [List.lookup_append, hlookup]
      simp [List.lookup_cons_self, Func.copyWith, Func.define, Func.declare]

/-- Functions keep their places when copies are appended. -/
theorem getElem?_append {b : Func} {k : Nat} (hb : (m.functions ++ clones)[k]? = some b)
    (new : List Func) : (m.functions ++ (clones ++ new))[k]? = some b := by
  rw [← List.append_assoc, List.getElem?_append_left (List.getElem?_eq_some_iff.1 hb).1, hb]

/-- Rewriting keeps the positions of functions. -/
theorem getElem?_functions (h : Underway m clones plan asked done s) (k : Nat) :
    s.module.functions[k]? =
      (m.functions ++ clones)[k]?.map fun f => f.rewriteBy (plan f.name) := by
  rw [h.module_eq, List.getElem?_map]

/-- The plan of one function changes where the function stands. -/
theorem setFunc_eq (h : Underway m clones plan asked done s) {b : Func} {k : Nat}
    (hb : (m.functions ++ clones)[k]? = some b) (rs : List Rewrite) :
    s.module.setFunc k (b.rewriteBy rs) = { m with
      functions := (m.functions ++ clones).map fun f =>
        f.rewriteBy (if f.name = b.name then rs else plan f.name) } := by
  rw [Module.setFunc, h.module_eq]
  congr 1
  apply List.ext_getElem?
  intro j
  rw [List.getElem?_set, List.getElem?_map, List.getElem?_map]
  by_cases hjk : k = j
  · subst hjk
    have hlt := (List.getElem?_eq_some_iff.1 hb).1
    rw [if_pos rfl, List.length_map, if_pos hlt, hb, Option.map_some, if_pos rfl]
  · rw [if_neg hjk]
    cases hf : (m.functions ++ clones)[j]? with
    | none => rfl
    | some f =>
        have hne : f.name ≠ b.name := by
          intro hsame
          have hj : ((m.functions ++ clones).map Func.name)[j]? = some b.name := by
            rw [List.getElem?_map, hf, Option.map_some, hsame]
          have hk : ((m.functions ++ clones).map Func.name)[k]? = some b.name := by
            rw [List.getElem?_map, hb, Option.map_some]
          have hlt := (List.getElem?_eq_some_iff.1 hk).1
          exact hjk ((List.getElem?_inj hlt h.names).1 (hk.trans hj.symm))
        simp [hne]

/-- The call that a repair inserts, seen from the call before renumbering. -/
theorem redirected_eq {x : Instr} {call : Call} (hcall : x.call? = some call) (name : String)
    (ρ : Nat → Nat) : Repair.redirected name call.sig (x.renumber ρ)
      { call with callee := call.callee.renumber ρ, args := call.args.map (Operand.renumber ρ) } =
        (x.calling name).renumber ρ := by
  cases x with
  | mk id iname ty kind loc =>
      cases kind with
      | call call' =>
          cases hcall
          rfl
      | _ => cases hcall

/-- Redirecting a call inserts the direct call and lets it take over the uses. -/
theorem retarget_cases (h : Underway m clones plan asked done s) {b : Func} {k : Nat}
    (hb : (m.functions ++ clones)[k]? = some b) {x : Instr} (hx : x ∈ b.instrs) {c : CastCall}
    (hc : m.castCall? x = some c) {name : String} {s' : Repair}
    (hstep : s.retarget .stops k c name = .ok s') :
    ∃ id g stats, (b.rewriteBy (plan b.name)).insertBefore .stops x.id
        ((x.calling name).renumber (Rewrite.redirect (plan b.name))) = .ok (id, g) ∧
      s' = ⟨s.module.setFunc k (g.replaceUses x.id (.inst id)), s.copies,
        s.pending.addInstr b.name c.id, stats⟩ := by
  obtain ⟨call, hcall, _, _, hid, hsig⟩ := Module.castCall?_eq_some_iff.1 hc
  have hold : x.renumber (Rewrite.redirect (plan b.name)) ∈ (b.rewriteBy (plan b.name)).instrs := by
    rw [Func.instrs_rewriteBy, List.mem_flatMap]
    exact ⟨x, hx, List.mem_append_right _ (List.mem_singleton_self _)⟩
  have hfound : (b.rewriteBy (plan b.name)).instr? x.id =
      some (x.renumber (Rewrite.redirect (plan b.name))) :=
    (h.redirected b (List.mem_of_getElem? hb)).numbered.instr?_eq hold
  unfold Repair.retarget at hstep
  rw [h.getElem?_functions, hb, Option.map_some] at hstep
  simp only at hstep
  rw [hid, hfound] at hstep
  simp only [Instr.call?_renumber, hcall, Option.map_some] at hstep
  rw [hsig, redirected_eq hcall, Func.name_rewriteBy] at hstep
  split at hstep
  · cases hstep
  · rename_i id g hinsert
    rw [hid]
    exact ⟨id, g, _, hinsert, (Except.ok.inj hstep).symm⟩

/-- A call for which there is a copy is redirected to it. -/
theorem retarget (h : Underway m clones plan asked done s) (hnum : m.Numbered) {b : Func} {k : Nat}
    (hb : (m.functions ++ clones)[k]? = some b) {x : Instr} (hx : x ∈ b.instrs) {c : CastCall}
    (hc : m.castCall? x = some c) (hnew : ∀ r ∈ plan b.name, r.old ≠ x.id) {name : String}
    (hname : s.copies.lookup c.key = some name) {s' : Repair}
    (hstep : s.retarget .stops k c name = .ok s') :
    ∃ plan', Underway m clones plan' asked (done ++ [(b.name, c)]) s' := by
  have hmem : b ∈ m.functions ++ clones := List.mem_of_getElem? hb
  obtain ⟨_, _, _, _, hid, _⟩ := Module.castCall?_eq_some_iff.1 hc
  obtain ⟨id, g, stats, hinsert, rfl⟩ := h.retarget_cases hb hx hc hstep
  obtain ⟨r, hrold, hnext, hreplace⟩ := (h.redirected b hmem).exists_concat (h.numbered hnum hmem)
    hx hnew ⟨c, hc, hname⟩ hinsert
  refine ⟨fun n => if n = b.name then plan b.name ++ [r] else plan n, ?_, h.names, ?_, ?_, ?_, ?_,
    h.copying⟩
  · rw [hreplace]
    exact h.setFunc_eq hb _
  · intro f hf
    by_cases hsame : f.name = b.name
    · have hfb : f = b := List.inj_on_of_nodup_map h.names hf hmem hsame
      rw [if_pos hsame, hfb]
      exact hnext
    · rw [if_neg hsame]
      exact h.redirected f hf
  · intro f hf
    rw [List.filter_append, List.map_append, ← h.olds f hf]
    by_cases hsame : f.name = b.name
    · simp [hsame, hrold, hid]
    · have hother : b.name ≠ f.name := fun heq => hsame heq.symm
      simp [hsame, hother]
  · intro e he
    rcases List.mem_append.1 he with he | he
    · exact h.callers e he
    · rw [List.mem_singleton.1 he]
      exact List.mem_map_of_mem hmem
  · simp [h.pending, Erasure.addInstr]

/-- Where no copy can be had for a call, none was made for another call with that key either. -/
theorem copy?_eq_none (h : Underway m clones plan asked done s) {x : Instr} {c : CastCall}
    (hc : m.castCall? x = some c) (hable : ¬ (m.copyFor? c).isSome = true) : s.copy? c = none := by
  obtain ⟨_, _, _, hdefines, _, _⟩ := Module.castCall?_eq_some_iff.1 hc
  have hlookup : s.copies.lookup (c.target, c.sig) = none := by
    cases hname : s.copies.lookup (c.target, c.sig) with
    | none => rfl
    | some name =>
        have hmem : c.key ∈ s.copies.map Prod.fst := by
          rw [← isSome_lookup_iff, CastCall.key, hname]
          rfl
        obtain ⟨entry, hentry, hkey⟩ := List.mem_map.1 hmem
        obtain ⟨_, _, _, _, hsnapshot⟩ := h.copying.exists_snapshot_of_mem hentry
        obtain ⟨e, he, hkey'⟩ := hsnapshot.wanted
        have hable' := h.copying.able e he
        rw [Module.isSome_copyFor?_congr (hkey'.trans hkey)] at hable'
        exact absurd hable' hable
  cases hf : m.func? c.target with
  | none => rw [Module.defines, hf] at hdefines; cases hdefines
  | some f =>
      have hcopy := h.copyFor?_eq hf
      rw [Module.isSome_copyFor?_iff hf] at hable
      rw [if_neg hable] at hcopy
      unfold copy?
      rw [hlookup, hcopy]

/-- One call through a cast: it is redirected if a copy can be had. -/
theorem repairCall (h : Underway m clones plan done done s) (hnum : m.Numbered) {b : Func} {k : Nat}
    (hb : (m.functions ++ clones)[k]? = some b) {x : Instr} (hx : x ∈ b.instrs) {c : CastCall}
    (hc : m.castCall? x = some c) (hnew : ∀ e ∈ done, e.1 = b.name → e.2.id ≠ x.id) {s' : Repair}
    (hstep : Repair.repairCall .stops k s c = .ok s') :
    ∃ new plan', Underway m (clones ++ new) plan'
      (done ++ (m.repairable? x).toList.map fun c => (b.name, c))
      (done ++ (m.repairable? x).toList.map fun c => (b.name, c)) s' := by
  have hmem : b ∈ m.functions ++ clones := List.mem_of_getElem? hb
  unfold Repair.repairCall at hstep
  cases hable : (m.copyFor? c).isSome with
  | false =>
      have hnone : m.repairable? x = none := by
        rw [Module.repairable?, hc, Option.filter_some, hable]
        rfl
      rw [h.copy?_eq_none hc (by rw [hable]; exact Bool.false_ne_true)] at hstep
      cases hstep
      refine ⟨[], plan, ?_⟩
      rw [hnone]
      simp only [Option.toList_none, List.map_nil, List.append_nil]
      exact ⟨h.module_eq, h.names, h.redirected, h.olds, h.callers, h.pending, h.copying⟩
  | true =>
      have hsome : m.repairable? x = some c := Module.repairable?_eq_some_iff.2 ⟨hc, hable⟩
      obtain ⟨name, t, new, plan', hcopy, hlookup, hplan, ht⟩ := h.copy hmem hable
      have hnew' : ∀ r ∈ plan' b.name, r.old ≠ x.id := by
        intro r hr
        rw [hplan] at hr
        have hold : r.old ∈ (plan b.name).map Rewrite.old := List.mem_map_of_mem hr
        rw [h.olds b hmem] at hold
        obtain ⟨e, he, heid⟩ := List.mem_map.1 hold
        rw [List.mem_filter, decide_eq_true_iff] at he
        rw [← heid]
        exact hnew e he.1 he.2
      rw [hcopy] at hstep
      obtain ⟨plan'', hs'⟩ := ht.retarget hnum (getElem?_append hb new) hx hc hnew' hlookup hstep
      rw [hsome]
      exact ⟨new, plan'', hs'⟩

/-- The calls of one function, from some instruction on. -/
theorem foldlM_repairCall {D : List (String × CastCall)} {b : Func} {pre is : List Instr}
    (h : Underway m clones plan (D ++ m.repairsIn b.name pre) (D ++ m.repairsIn b.name pre) s)
    (hnum : m.Numbered) {k : Nat} (hb : (m.functions ++ clones)[k]? = some b)
    (hinstrs : b.instrs = pre ++ is) (hD : ∀ e ∈ D, e.1 ≠ b.name) {s' : Repair}
    (hrun : (is.filterMap m.castCall?).foldlM (Repair.repairCall .stops k) s = .ok s') :
    ∃ new plan', Underway m (clones ++ new) plan' (D ++ m.repairsOf b) (D ++ m.repairsOf b) s' := by
  induction is generalizing pre clones plan s with
  | nil =>
      cases hrun
      refine ⟨[], plan, ?_⟩
      rw [List.append_nil] at hinstrs ⊢
      rwa [Module.repairsOf, hinstrs]
  | cons x is ih =>
      have hinstrs' : b.instrs = (pre ++ [x]) ++ is := by rw [hinstrs, List.append_cons]
      have hconcat := m.repairsIn_concat b.name pre x
      cases hc : m.castCall? x with
      | none =>
          rw [Module.repairable?, hc, Option.filter_none, Option.toList_none, List.map_nil,
            List.append_nil] at hconcat
          rw [← hconcat] at h
          rw [List.filterMap_cons, hc] at hrun
          exact ih h hb hinstrs' hrun
      | some c =>
          have hx : x ∈ b.instrs := by simp [hinstrs]
          have hmem : b ∈ m.functions ++ clones := List.mem_of_getElem? hb
          have hnew : ∀ e ∈ D ++ m.repairsIn b.name pre, e.1 = b.name → e.2.id ≠ x.id := by
            intro e he hcaller
            rcases List.mem_append.1 he with he | he
            · exact absurd hcaller (hD e he)
            · obtain ⟨_, y, hy, hrepair⟩ := Module.mem_repairsIn_iff.1 he
              have hids := (h.numbered hnum hmem).distinct
              rw [hinstrs, List.map_append, List.nodup_append] at hids
              rw [Module.id_of_repairable? hrepair]
              exact hids.2.2 _ (List.mem_map_of_mem hy) _ (by simp)
          rw [List.filterMap_cons, hc, List.foldlM_cons] at hrun
          obtain ⟨t, hstep, hrun⟩ := bind_eq_ok hrun
          obtain ⟨new, plan', ht⟩ := h.repairCall hnum hb hx hc hnew hstep
          rw [List.append_assoc, ← hconcat] at ht
          obtain ⟨new', plan'', hs'⟩ := ih ht (getElem?_append hb new) hinstrs' hrun
          refine ⟨new ++ new', plan'', ?_⟩
          rwa [← List.append_assoc]

/-- One function, none of whose calls has been redirected yet. -/
theorem sweepAt {D : List (String × CastCall)} (h : Underway m clones plan D D s)
    (hnum : m.Numbered)
    (hclosed : m.Closed) {b : Func} {k : Nat} (hb : (m.functions ++ clones)[k]? = some b)
    (hD : ∀ e ∈ D, e.1 ≠ b.name) {s' : Repair} (hstep : Repair.sweepAt .stops s k = .ok s') :
    ∃ new plan', Underway m (clones ++ new) plan' (D ++ m.repairsOf b) (D ++ m.repairsOf b) s' := by
  have hmem : b ∈ m.functions ++ clones := List.mem_of_getElem? hb
  have hplan : plan b.name = [] := by
    have holds := h.olds b hmem
    have hnone : (D.filter fun e => e.1 = b.name) = [] := by
      rw [List.filter_eq_nil_iff]
      intro e he hcaller
      exact hD e he (of_decide_eq_true hcaller)
    rw [hnone] at holds
    exact List.map_eq_nil_iff.1 holds
  have hfound : s.module.functions[k]? = some b := by
    rw [h.getElem?_functions, hb, Option.map_some, hplan, Func.rewriteBy_nil]
  have hcalls : s.module.castCalls b = b.instrs.filterMap m.castCall? :=
    List.filterMap_congr fun x hx => h.castCall?_eq hclosed hmem hx
  unfold Repair.sweepAt at hstep
  rw [hfound] at hstep
  simp only at hstep
  rw [hcalls] at hstep
  have hstart : D = D ++ m.repairsIn b.name [] := (List.append_nil D).symm
  rw [hstart] at h
  exact h.foldlM_repairCall hnum hb rfl hD hstep

end Underway

/-- The sweep after some positions: the calls of the functions and copies there are redirected. -/
def Swept (m : Module) (count : Nat) (s : Repair) : Prop :=
  ∃ clones plan, Underway m clones plan
    (((m.functions ++ clones).take count).flatMap m.repairsOf)
    (((m.functions ++ clones).take count).flatMap m.repairsOf) s

/-- One position more is swept. -/
theorem Swept.next {m : Module} (hnum : m.Numbered) (hclosed : m.Closed) {count : Nat}
    {s s' : Repair} (h : Swept m count s) (hstep : sweepAt .stops s count = .ok s') :
    Swept m (count + 1) s' := by
  obtain ⟨clones, plan, h⟩ := h
  cases hb : (m.functions ++ clones)[count]? with
  | none =>
      unfold sweepAt at hstep
      rw [h.getElem?_functions, hb] at hstep
      cases hstep
      have hlength := List.getElem?_eq_none_iff.1 hb
      refine ⟨clones, plan, ?_⟩
      rw [List.take_of_length_le (by omega)]
      rwa [List.take_of_length_le hlength] at h
  | some b =>
      have hlt := (List.getElem?_eq_some_iff.1 hb).1
      have hD : ∀ e ∈ ((m.functions ++ clones).take count).flatMap m.repairsOf, e.1 ≠ b.name := by
        intro e he
        obtain ⟨f, hf, he⟩ := List.mem_flatMap.1 he
        rw [(Module.mem_repairsIn_iff.1 he).1]
        have hnames := h.names
        rw [← List.take_append_drop count (m.functions ++ clones), List.map_append,
          List.nodup_append] at hnames
        refine hnames.2.2 _ (List.mem_map_of_mem hf) _ ?_
        rw [List.drop_eq_getElem_cons hlt, (List.getElem?_eq_some_iff.1 hb).2]
        exact List.mem_cons_self ..
      obtain ⟨new, plan', hs'⟩ := h.sweepAt hnum hclosed hb hD hstep
      have htake : (m.functions ++ (clones ++ new)).take (count + 1) =
          (m.functions ++ clones).take count ++ [b] := by
        rw [← List.append_assoc, List.take_append_of_le_length (by omega), List.take_add_one, hb]
        rfl
      refine ⟨clones ++ new, plan', ?_⟩
      rw [htake, List.flatMap_append, List.flatMap_singleton]
      exact hs'

/-- There are no more copies than calls through casts. -/
theorem Underway.length_le {m : Module} {clones : List Func} {plan : String → List Rewrite}
    {fs : List Func} {s : Repair} (hfs : fs ⊆ m.functions ++ clones)
    (h : Underway m clones plan (fs.flatMap m.repairsOf) (fs.flatMap m.repairsOf) s) :
    clones.length ≤ m.castCallCount := by
  have hsub : s.copies.map Prod.fst ⊆ (m.instrs.filterMap m.castCall?).map CastCall.key := by
    intro key hkey
    obtain ⟨entry, hentry, rfl⟩ := List.mem_map.1 hkey
    obtain ⟨_, _, _, _, hsnapshot⟩ := h.copying.exists_snapshot_of_mem hentry
    obtain ⟨e, hmem, hkey⟩ := hsnapshot.wanted
    obtain ⟨f, hf, hmem⟩ := List.mem_flatMap.1 hmem
    obtain ⟨_, x, hx, hrepair⟩ := Module.mem_repairsIn_iff.1 hmem
    have hcast := (Module.repairable?_eq_some_iff.1 hrepair).1
    rw [← hkey]
    refine List.mem_map_of_mem (List.mem_filterMap.2 ?_)
    rcases h.traced (hfs hf) hx with hnone | ⟨g, hg, i, hi, ρ, rfl⟩
    · rw [Module.castCall?_eq_none hnone] at hcast
      cases hcast
    · rw [Module.castCall?_renumber] at hcast
      exact ⟨i, List.mem_flatMap.2 ⟨g, hg, hi⟩, hcast⟩
  have hcount := (h.copying.keys.subperm hsub).length_le
  rw [List.length_map, List.length_map, h.copying.snapshots.length_eq,
    List.length_filterMap_eq_countP] at hcount
  refine Nat.le_trans hcount (List.countP_mono_left ?_)
  intro i _ hsome
  obtain ⟨c, hc⟩ := Option.isSome_iff_exists.1 hsome
  obtain ⟨call, hcall, hcast, _⟩ := Module.castCall?_eq_some_iff.1 hc
  rw [hcall, Option.bind_some, hcast]
  rfl

/-- A sweep that meets no overflow ends with all calls of all functions and copies redirected. -/
theorem swept {m : Module} (hnames : m.DistinctNames) (hnum : m.Numbered) (hclosed : m.Closed)
    {s : Repair} (hs : sweep .stops m = .ok s) : ∃ clones plan,
      Underway m clones plan ((m.functions ++ clones).flatMap m.repairsOf)
        ((m.functions ++ clones).flatMap m.repairsOf) s := by
  have hstart : Swept m 0 (start m) := ⟨[], fun _ => [], Underway.start hnames hnum⟩
  obtain ⟨clones, plan, h⟩ := foldlM_range_induction (motive := Swept m) hstart
    (fun _ _ _ _ ht hstep => ht.next hnum hclosed hstep) hs
  refine ⟨clones, plan, ?_⟩
  have hlength := h.length_le (List.take_subset _ _)
  rwa [List.take_of_length_le] at h
  rw [List.length_append]
  omega

end Repair

end Postlink
