import Postlink.Proofs.CastRepair.Sharing

/-!
# Which functions cast repair removes

Of a call that is redirected the callee goes, and every other operand of the module stays, in the
functions and in the copies made of them (`Module.surviving`). So once the old calls are gone, a
function of the module is named by what was left of the module's own instructions. A function of
which a copy was made and that nothing names then is removed, and no other one is, so that no name
is left without a function (`Repair.RemovesUnused`).
-/

namespace Postlink

/-- Where keys are distinct, leaving out the elements with some of the keys leaves out so many. -/
theorem length_filter_add_length {α κ : Type} [DecidableEq κ] {key : α → κ} {as : List α}
    (h : (as.map key).Nodup) {keys : List κ} (hkeys : keys.Nodup) (hsub : keys ⊆ as.map key) :
    (as.filter fun a => key a ∉ keys).length + keys.length = as.length := by
  have hall : keys.countP (fun k => k ∈ as.map key) = keys.length :=
    List.countP_eq_length.2 fun k hk => decide_eq_true (hsub hk)
  have hcount : as.countP (fun a => key a ∈ keys) = keys.length := by
    rw [← hall, ← countP_mem_comm h hkeys, List.countP_map]
    rfl
  have hsplit := List.length_eq_countP_add_countP (fun a => decide (key a ∈ keys)) (l := as)
  simp only [decide_eq_true_eq] at hsplit
  rw [← List.countP_eq_length_filter]
  omega

/-- Renumbering results does not change which function an operand names. -/
@[simp] theorem Operand.func?_renumber (ρ : Nat → Nat) (o : Operand) :
    (o.renumber ρ).func? = o.func? := by
  cases o <;> rfl

namespace Instr

/-- The arguments of a call instruction are those of its call. -/
theorem args_of_call? {i : Instr} {call : Call} (h : i.call? = some call) : i.args = call.args := by
  rw [args, h]
  rfl

/-- The arguments of an instruction are among its operands. -/
theorem args_subset_operands (i : Instr) : i.args ⊆ i.operands := by
  cases hcall : i.call? with
  | none => simp [args, hcall]
  | some call =>
      rw [args_of_call? hcall, operands_of_call? hcall]
      exact List.subset_cons_self _ _

/-- Renumbering results renumbers them in arguments. -/
theorem args_renumber (ρ : Nat → Nat) (i : Instr) :
    (i.renumber ρ).args = i.args.map (Operand.renumber ρ) := by
  rw [args, call?_renumber, args]
  cases i.call? <;> rfl

/-- The operands of a redirected call are the new callee and the old arguments. -/
theorem operands_directed {i : Instr} {call : Call} (h : i.call? = some call) (name : String)
    (ρ : Nat → Nat) :
    (i.directed name ρ).operands = .func name :: i.args.map (Operand.renumber ρ) := by
  rw [operands_of_call? (call?_directed h name ρ), args_of_call? h]

end Instr

/-- A body names a function if some operand of it does, possibly below casts. -/
theorem Func.mentions_iff {f : Func} {name : String} :
    f.Mentions name ↔ ∃ i ∈ f.instrs, ∃ o ∈ i.operands, o.func? = some name := by
  simp only [Mentions, operands, List.mem_flatMap]
  constructor
  · rintro ⟨o, ⟨i, hi, ho⟩, hname⟩
    exact ⟨i, hi, o, ho, hname⟩
  · rintro ⟨i, hi, o, ho, hname⟩
    exact ⟨o, ⟨i, hi, ho⟩, hname⟩

namespace Module

variable {m : Module}

/-- A call through casts of a function with a body and as many parameters as the call expects. -/
def Redirectable (m : Module) (i : Instr) (f : Func) : Prop :=
  ∃ call, i.call? = some call ∧ m.CastsTo call f ∧ f.sig.arity = call.sig.arity

/-- The operands of an instruction that a repair leaves alone: all but the callee of a call that is
redirected. -/
def surviving (m : Module) (i : Instr) : List Operand :=
  if (m.repairable? i).isSome then i.args else i.operands

/-- What is left of an instruction names a function, possibly below casts. -/
def Relies (m : Module) (i : Instr) (name : String) : Prop :=
  ∃ o ∈ m.surviving i, o.func? = some name

/-- What a repair leaves of an instruction are operands of it. -/
theorem surviving_subset (m : Module) (i : Instr) : m.surviving i ⊆ i.operands := by
  unfold surviving
  split
  · exact i.args_subset_operands
  · exact List.Subset.refl _

/-- Arguments are always left. -/
theorem args_subset_surviving (m : Module) (i : Instr) : i.args ⊆ m.surviving i := by
  unfold surviving
  split
  · exact List.Subset.refl _
  · exact i.args_subset_operands

/-- What is left of an instruction does not depend on identifiers, up to renumbering. -/
theorem surviving_renumber (m : Module) (ρ : Nat → Nat) (i : Instr) :
    m.surviving (i.renumber ρ) = (m.surviving i).map (Operand.renumber ρ) := by
  rw [surviving, repairable?_renumber, surviving]
  split
  · exact i.args_renumber ρ
  · exact Instr.operands_mapOperands _ i

/-- Renumbering does not change which functions an instruction relies on. -/
@[simp] theorem relies_renumber (ρ : Nat → Nat) (i : Instr) (name : String) :
    m.Relies (i.renumber ρ) name ↔ m.Relies i name := by
  simp [Relies, surviving_renumber]

/-- A direct call names its callee, and what the call names that it stands for. -/
theorem relies_directed_iff {i : Instr} {call : Call} (h : i.call? = some call)
    {callee name : String} (ρ : Nat → Nat) : m.Relies (i.directed callee ρ) name ↔
      name = callee ∨ ∃ o ∈ i.args, o.func? = some name := by
  have hdirect := repairable?_eq_none (m := m) (i.castTarget?_directed callee ρ)
  have hcallee : (Operand.func callee).func? = some callee := rfl
  rw [Relies, surviving, hdirect, Instr.operands_directed h]
  simp [hcallee, eq_comm]

/-- A call is redirected if a copy can be had. -/
theorem isSome_repairable?_iff {i : Instr} :
    (m.repairable? i).isSome = true ↔ ∃ f, m.Redirectable i f := by
  constructor
  · intro h
    obtain ⟨c, hc⟩ := Option.isSome_iff_exists.1 h
    obtain ⟨hcast, hable⟩ := repairable?_eq_some_iff.1 hc
    obtain ⟨call, hcall, hthrough, hdefines, _, hsig⟩ := castCall?_eq_some_iff.1 hcast
    obtain ⟨f, hf, hbody⟩ := defines_iff.1 hdefines
    obtain ⟨_, hname⟩ := mem_of_func? hf
    refine ⟨f, call, hcall, ⟨hname ▸ hf, hbody, ?_⟩, ?_⟩
    · rw [hname]
      exact Call.throughCast?_eq_some_iff.1 hthrough
    · rw [← hsig]
      exact (isSome_copyFor?_iff hf).1 hable
  · rintro ⟨f, call, hcall, hcast, harity⟩
    rw [Option.isSome_iff_ne_none, ne_eq, hcast.repairable?_eq_none_iff hcall, ne_eq, not_not]
    exact harity

/-- The keys of redirected calls are the functions that they name and the signatures they expect. -/
theorem exists_repair_iff (hnames : m.DistinctNames) {f : Func} (hf : f ∈ m.functions) :
    (∃ e ∈ m.repairs, e.2.key.1 = f.name) ↔
      ∃ b ∈ m.functions, ∃ i ∈ b.instrs, m.Redirectable i f := by
  constructor
  · rintro ⟨e, he, htarget⟩
    obtain ⟨b, hb, he⟩ := List.mem_flatMap.1 he
    obtain ⟨_, i, hi, hrepair⟩ := mem_repairsIn_iff.1 he
    have hsome : (m.repairable? i).isSome = true := by rw [hrepair]; rfl
    obtain ⟨f', call, hcall, hcast, harity⟩ := isSome_repairable?_iff.1 hsome
    have hcastCall := hcast.castCall? hcall
    rw [(repairable?_eq_some_iff.1 hrepair).1, Option.some.injEq] at hcastCall
    have hsame : f'.name = f.name := by
      rw [← htarget, hcastCall]
      rfl
    obtain rfl := List.inj_on_of_nodup_map hnames (mem_of_func? hcast.1).1 hf hsame
    exact ⟨b, hb, i, hi, call, hcall, hcast, harity⟩
  · rintro ⟨b, hb, i, hi, call, hcall, hcast, harity⟩
    obtain ⟨c, hc⟩ := Option.isSome_iff_exists.1
      (isSome_repairable?_iff.2 ⟨f, call, hcall, hcast, harity⟩)
    refine ⟨(b.name, c), List.mem_flatMap.2 ⟨b, hb, mem_repairsIn_iff.2 ⟨rfl, i, hi, hc⟩⟩, ?_⟩
    have hcastCall := hcast.castCall? hcall
    rw [(repairable?_eq_some_iff.1 hc).1, Option.some.injEq] at hcastCall
    rw [hcastCall]
    rfl

end Module

namespace Repair

/-- Removing what is no longer needed after a sweep. -/
structure RemovesUnused (m : Module) (s : Repair) : Prop where
  /-- The old calls are taken out, and nothing else. -/
  cleared : s.cleared.functions = s.module.functions.map (Func.clear s.pending.instrs)
  /-- After that no call is left that could be redirected. -/
  redirected : ∀ g ∈ s.cleared.functions, ∀ i ∈ g.instrs, ∀ f, ¬ s.cleared.Redirectable i f
  /-- Copies were made of the functions that redirected calls named. -/
  copied : ∀ f ∈ m.functions, (∃ entry ∈ s.copies, entry.1.1 = f.name) ↔
    ∃ b ∈ m.functions, ∃ i ∈ b.instrs, m.Redirectable i f
  /-- Each copy is new and stays. -/
  copies : ∀ entry ∈ s.copies, (m.func? entry.1.1).isSome = true ∧ m.func? entry.2 = none ∧
    (s.finish.2.func? entry.2).isSome = true
  /-- The functions of the module that are named are those that its instructions still name. -/
  named : ∀ f ∈ m.functions, (∃ g ∈ s.cleared.functions, g.Mentions f.name) ↔
    ∃ b ∈ m.functions, ∃ i ∈ b.instrs, m.Relies i f.name
  /-- Exactly the functions go that were copied and that nothing names. -/
  kept : ∀ g, g ∈ s.finish.2.functions ↔ g ∈ s.cleared.functions ∧ ¬ s.Abandons g.name
  /-- The others keep their order. -/
  sublist : s.finish.2.functions.Sublist s.cleared.functions
  /-- Those that go are counted. -/
  count : s.finish.2.functions.length + s.finish.1.removed = s.cleared.functions.length
  /-- Every function that is named in the end is there. -/
  closed : s.finish.2.Closed

/-- A call that could be redirected is left once the old calls are gone. -/
def LeavesCall (s : Repair) : Prop :=
  ∃ g ∈ s.cleared.functions, ∃ i ∈ g.instrs, ∃ call ∈ i.call?, ∃ f ∈ s.cleared.functions,
    s.cleared.CastsTo call f ∧ f.sig.arity = call.sig.arity

instance (s : Repair) : Decidable s.LeavesCall :=
  inferInstanceAs (Decidable (∃ g ∈ s.cleared.functions, ∃ i ∈ g.instrs, ∃ call ∈ i.call?,
    ∃ f ∈ s.cleared.functions, s.cleared.CastsTo call f ∧ f.sig.arity = call.sig.arity))

/-- Where a call is left that could be redirected, removal has gone wrong. -/
theorem LeavesCall.not_removesUnused {s : Repair} (h : s.LeavesCall) (m : Module) :
    ¬ s.RemovesUnused m := by
  obtain ⟨g, hg, i, hi, call, hcall, f, _, hcast, harity⟩ := h
  exact fun hremoves => hremoves.redirected g hg i hi f ⟨call, hcall, hcast, harity⟩

/-- What redirected calls leave to name is a copy, or a function that was named before. -/
theorem relies_of_redirected {m : Module} {copies : List ((String × Signature) × String)} {f : Func}
    {rs : List Rewrite} (h : f.Redirected (m.Goes copies) rs) {x : Instr}
    (hx : x ∈ (f.rewriteBy rs).instrs) {name : String} (hname : m.Relies x name) :
    name ∈ copies.map Prod.snd ∨ ∃ i ∈ f.instrs, m.Relies i name := by
  obtain ⟨i, hi, rfl | ⟨copy, ⟨c, hc, hlookup⟩, rfl⟩⟩ := h.mem_rewriteBy hx
  · exact Or.inr ⟨i, hi, (Module.relies_renumber _ i name).1 hname⟩
  · obtain ⟨call, hcall, _⟩ := Module.castCall?_eq_some_iff.1 hc
    rcases (Module.relies_directed_iff hcall _).1 hname with rfl | ⟨o, ho, hfunc⟩
    · exact Or.inl (List.mem_map_of_mem (Copying.mem_of_lookup hlookup))
    · exact Or.inr ⟨i, hi, o, m.args_subset_surviving i ho, hfunc⟩

section Swept

variable {m : Module} {clones : List Func} {plan : String → List Rewrite} {s : Repair}
  (h : Underway m clones plan ((m.functions ++ clones).flatMap m.repairsOf)
    ((m.functions ++ clones).flatMap m.repairsOf) s)

include h

/-- After a sweep the old calls of every function and every copy are gone. -/
theorem Underway.functions_cleared : s.cleared.functions = (m.functions ++ clones).map
    (settled plan ((m.functions ++ clones).flatMap m.repairsOf)) := by
  rw [h.cleared_eq]

/-- A function or a copy names what is left of instructions of the module, or copies. -/
theorem Underway.relies_of_mem {b : Func} (hb : b ∈ m.functions ++ clones) {x : Instr}
    (hx : x ∈ b.instrs) {name : String} (hname : m.Relies x name) :
    name ∈ s.copies.map Prod.snd ∨ ∃ f ∈ m.functions, ∃ i ∈ f.instrs, m.Relies i name := by
  rcases List.mem_append.1 hb with hb | hb
  · exact Or.inr ⟨b, hb, x, hx, hname⟩
  · obtain ⟨_, _, f, rs, hsnapshot⟩ := h.copying.exists_snapshot hb
    rw [hsnapshot.instrs_eq, ← Func.instrs_rewriteBy] at hx
    refine (relies_of_redirected hsnapshot.redirected hx hname).imp_right ?_
    rintro ⟨i, hi, hname⟩
    exact ⟨f, hsnapshot.mem, i, hi, hname⟩

/-- No call is left that could be redirected, so an instruction relies on all that it names. -/
theorem Underway.relies_of_mem_settled (hnum : m.Numbered) {b : Func}
    (hb : b ∈ m.functions ++ clones) {x : Instr}
    (hx : x ∈ (settled plan ((m.functions ++ clones).flatMap m.repairsOf) b).instrs) {o : Operand}
    (ho : o ∈ x.operands) {name : String} (hname : o.func? = some name) : m.Relies x name := by
  have hnone : m.repairable? x = none := by
    rcases h.mem_settled hnum hb hx with ⟨hdirect, _⟩ | ⟨i, _, rfl, hrepair⟩
    · exact Module.repairable?_eq_none hdirect
    · rwa [Module.repairable?_renumber]
  refine ⟨o, ?_, hname⟩
  rw [Module.surviving, hnone]
  exact ho

/-- Without the old calls, functions and copies name copies and what is left of the module names. -/
theorem Underway.exists_relies (hnum : m.Numbered) {g : Func} (hg : g ∈ s.cleared.functions)
    {name : String} (hname : g.Mentions name) :
    name ∈ s.copies.map Prod.snd ∨ ∃ f ∈ m.functions, ∃ i ∈ f.instrs, m.Relies i name := by
  rw [h.functions_cleared] at hg
  obtain ⟨b, hb, rfl⟩ := List.mem_map.1 hg
  obtain ⟨x, hx, o, ho, hfunc⟩ := Func.mentions_iff.1 hname
  have hrelies := h.relies_of_mem_settled hnum hb hx ho hfunc
  rw [settled, Func.instrs_clear] at hx
  rcases relies_of_redirected (h.redirected b hb) (List.mem_of_mem_filter hx) hrelies with
    hcopy | ⟨i, hi, hrelies⟩
  · exact Or.inl hcopy
  · exact h.relies_of_mem hb hi hrelies

/-- What is left of an instruction of the module is in the function without the old calls. -/
theorem Underway.mentions_settled (hnum : m.Numbered) {b : Func} (hb : b ∈ m.functions) {i : Instr}
    (hi : i ∈ b.instrs) {name : String} (hname : m.Relies i name) :
    (settled plan ((m.functions ++ clones).flatMap m.repairsOf) b).Mentions name := by
  have hmem : b ∈ m.functions ++ clones := List.mem_append_left _ hb
  obtain ⟨o, ho, hfunc⟩ := hname
  rw [Module.surviving] at ho
  rw [Func.mentions_iff]
  cases hrepair : m.repairable? i with
  | none =>
      rw [hrepair] at ho
      refine ⟨_, h.renumber_mem_settled hnum hmem hi hrepair,
        o.renumber (Rewrite.redirect (plan b.name)), ?_, ?_⟩
      · rw [Instr.operands_mapOperands]
        exact List.mem_map_of_mem ho
      · rwa [Operand.func?_renumber]
  | some c =>
      rw [hrepair] at ho
      obtain ⟨copy, hcopy, _⟩ := h.exists_adjacent hmem hi hrepair
      obtain ⟨call, hcall, _⟩ :=
        Module.castCall?_eq_some_iff.1 (Module.repairable?_eq_some_iff.1 hrepair).1
      refine ⟨_, h.directed_mem_settled hnum hmem hi hrepair hcopy,
        o.renumber (Rewrite.redirect (plan b.name)), ?_, ?_⟩
      · rw [Instr.operands_directed hcall]
        exact List.mem_cons_of_mem _ (List.mem_map_of_mem ho)
      · rwa [Operand.func?_renumber]

/-- Copies have names that no function of the module has. -/
theorem Underway.copy_ne_name {f : Func} (hf : f ∈ m.functions) :
    f.name ∉ s.copies.map Prod.snd := by
  have hnames := h.names
  rw [List.map_append] at hnames
  rw [h.copying.map_snd]
  exact List.disjoint_of_nodup_append hnames (List.mem_map_of_mem hf)

/-- Without the old calls, every function that is named is there. -/
theorem Underway.isSome_func?_cleared (hnum : m.Numbered) (hclosed : m.Closed) {g : Func}
    (hg : g ∈ s.cleared.functions) {name : String} (hname : g.Mentions name) :
    ∃ b ∈ s.cleared.functions, b.name = name := by
  have hthere : name ∈ (m.functions ++ clones).map Func.name := by
    rw [List.map_append, List.mem_append]
    rcases h.exists_relies hnum hg hname with hcopy | ⟨f, hf, i, hi, o, ho, hfunc⟩
    · rw [← h.copying.map_snd]
      exact Or.inr hcopy
    · rw [← Module.isSome_func?_iff]
      refine Or.inl (hclosed f hf o ?_ name hfunc)
      exact List.mem_flatMap.2 ⟨i, hi, m.surviving_subset i ho⟩
  obtain ⟨b, hb, rfl⟩ := List.mem_map.1 hthere
  rw [h.functions_cleared]
  exact ⟨_, List.mem_map_of_mem hb, Underway.name_settled b⟩

/-- The result has the functions that are not given up. -/
theorem Underway.mem_finish_iff (g : Func) :
    g ∈ s.finish.2.functions ↔ g ∈ s.cleared.functions ∧ ¬ s.Abandons g.name := by
  rw [h.functions_finish, ← h.functions_cleared, List.mem_filter, decide_eq_true_iff, abandons_iff]

/-- As many functions go as are no longer needed. -/
theorem Underway.length_finish :
    s.finish.2.functions.length + s.finish.1.removed = s.cleared.functions.length := by
  have hnames : (s.cleared.functions.map Func.name).Nodup := by
    rw [h.functions_cleared, List.map_map]
    simpa only [Function.comp_def, name_settled] using h.names
  rw [h.functions_finish, ← h.functions_cleared]
  refine length_filter_add_length hnames ((nodup_eraseDups _).filter _) ?_
  intro name hname
  obtain ⟨f, hf, rfl⟩ := h.mem_unneeded hname
  rw [h.functions_cleared, List.map_map]
  exact List.mem_map.2 ⟨f, List.mem_append_left _ hf, name_settled f⟩

/-- Without the old calls, no call is left that could be redirected. -/
theorem Underway.not_redirectable (hnames : m.DistinctNames) (hnum : m.Numbered)
    (hclosed : m.Closed)
    {g : Func} (hg : g ∈ s.cleared.functions) {i : Instr} (hi : i ∈ g.instrs) (f : Func) :
    ¬ s.cleared.Redirectable i f := by
  rintro ⟨call, hcall, hcast, harity⟩
  have hsub : s.cleared.functions ⊆ (m.functions ++ clones).map
      (settled plan ((m.functions ++ clones).flatMap m.repairsOf)) := by
    rw [h.functions_cleared]
    exact List.Subset.refl _
  obtain ⟨origin, hsig, hcast', hnone⟩ :=
    h.castsTo_of_subset hnum hclosed hnames hsub hg hi hcall hcast
  rw [← hsig] at harity
  exact (hcast'.repairable?_eq_none_iff hcall).1 hnone harity

/-- Copies are made of the functions that redirected calls name. -/
theorem Underway.exists_copy_iff (hnames : m.DistinctNames) {f : Func} (hf : f ∈ m.functions) :
    (∃ entry ∈ s.copies, entry.1.1 = f.name) ↔
      ∃ b ∈ m.functions, ∃ i ∈ b.instrs, m.Redirectable i f := by
  rw [← Module.exists_repair_iff hnames hf]
  constructor
  · rintro ⟨entry, hentry, hname⟩
    obtain ⟨e, he, hkey⟩ := h.exists_entry_iff.1 ⟨entry, hentry, rfl⟩
    exact ⟨e, he, by rw [hkey, hname]⟩
  · rintro ⟨e, he, hname⟩
    obtain ⟨entry, hentry, hkey⟩ := h.exists_entry_iff.2 ⟨e, he, rfl⟩
    exact ⟨entry, hentry, by rw [hkey, hname]⟩

/-- A copy of a function of the module is new, and stays. -/
theorem Underway.copy_stays (hnames : m.DistinctNames) {entry : (String × Signature) × String}
    (hentry : entry ∈ s.copies) : (m.func? entry.1.1).isSome = true ∧ m.func? entry.2 = none ∧
      (s.finish.2.func? entry.2).isSome = true := by
  obtain ⟨g, hg, f, rs, hsnapshot⟩ := h.copying.exists_snapshot_of_mem hentry
  have hname : g.name = entry.2 := by rw [hsnapshot.copy]; rfl
  refine ⟨?_, ?_, ?_⟩
  · rw [← hsnapshot.name, hnames.func?_eq hsnapshot.mem]
    rfl
  · refine Module.func?_eq_none_iff.2 fun b hb hsame => h.copy_ne_name hb ?_
    rw [hsame]
    exact List.mem_map_of_mem hentry
  · have hout := h.distinctNames_finish.func?_eq (h.copy_mem_functions_finish hg)
    rw [name_settled, hname] at hout
    rw [hout]
    rfl

/-- A function of the module is named in the end if an instruction of the module still names it. -/
theorem Underway.exists_mentions_iff (hnum : m.Numbered) {f : Func} (hf : f ∈ m.functions) :
    (∃ g ∈ s.cleared.functions, g.Mentions f.name) ↔
      ∃ b ∈ m.functions, ∃ i ∈ b.instrs, m.Relies i f.name := by
  constructor
  · rintro ⟨g, hg, hname⟩
    exact (h.exists_relies hnum hg hname).resolve_left (h.copy_ne_name hf)
  · rintro ⟨b, hb, i, hi, hname⟩
    refine ⟨_, ?_, h.mentions_settled hnum hb hi hname⟩
    rw [h.functions_cleared]
    exact List.mem_map_of_mem (List.mem_append_left _ hb)

/-- A function that is named is not removed. -/
theorem Underway.closed_finish (hnum : m.Numbered) (hclosed : m.Closed) : s.finish.2.Closed := by
  intro g hg o ho name hname
  have hcleared := ((h.mem_finish_iff g).1 hg).1
  obtain ⟨b, hb, rfl⟩ := h.isSome_func?_cleared hnum hclosed hcleared ⟨o, ho, hname⟩
  have hneeded : ¬ s.Abandons b.name := fun hgone => hgone.unused g hcleared o ho hname
  rw [Module.isSome_func?_iff]
  exact List.mem_map_of_mem ((h.mem_finish_iff b).2 ⟨hb, hneeded⟩)

/-- A sweep that is over removes what is no longer needed, and nothing that is. -/
theorem Underway.removesUnused (hnames : m.DistinctNames) (hnum : m.Numbered) (hclosed : m.Closed) :
    s.RemovesUnused m where
  cleared := by
    rw [h.functions_cleared, h.module_eq, h.pending, List.map_map]
    rfl
  redirected := fun _ hg _ hi => h.not_redirectable hnames hnum hclosed hg hi
  copied := fun _ hf => h.exists_copy_iff hnames hf
  copies := fun _ hentry => h.copy_stays hnames hentry
  named := fun _ hf => h.exists_mentions_iff hnum hf
  kept := h.mem_finish_iff
  sublist := by
    rw [h.functions_finish, h.functions_cleared]
    exact List.filter_sublist
  count := h.length_finish
  closed := h.closed_finish hnum hclosed

end Swept

end Repair

namespace Module

/-- Two functions that call one another through casts, and a third one whose address is an argument
of the call that is redirected from it. -/
def entwined : Module :=
  let word : Ty := .int 32
  ⟨"m", [], [
    .define "main" ⟨word, [word]⟩ [⟨"entry",
      [⟨0, "", word, .call ⟨.cast (.func "f") (.ptr (.func word [word])), ⟨word, [word]⟩,
        [.arg 0], .c⟩,
          none⟩,
        ⟨1, "", word, .call ⟨.cast (.func "h") (.ptr (.func word [word])), ⟨word, [word]⟩,
          [.cast (.cast (.func "h") (.ptr word)) word], .c⟩, none⟩,
        ⟨2, "", .void, .ret (some (.inst 1)), none⟩]⟩],
    forwarder "f" (.float 32) "g", forwarder "g" (.float 32) "f", returner "h" (.float 32)]⟩

end Module

end Postlink
