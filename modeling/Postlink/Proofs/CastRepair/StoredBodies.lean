import Postlink.Proofs.CastRepair.Sharing
import Postlink.Proofs.Importing.Definitions
import Postlink.Proofs.Reworking

/-!
# Copies of functions that are not loaded

A function whose body is still stored counts as defined, but it has no blocks to copy: its copy is
empty, and the calls go there. Redirecting calls changes only instructions, so what is recorded of
each copy can be compared with its origin at the end (`Repair.Outlined`). A call through a cast is
found when its function has its turn, and the function that it names is copied if the number of
parameters agrees (`Repair.Outlined.sweepAt`). Bodies are therefore lost exactly if some loaded body
asks for a copy of a function that is stored (`Module.AsksForStored`).
-/

namespace Postlink

namespace Func

/-- The labels of the loaded blocks. -/
def labels (f : Func) : List String := f.blocks.map Block.label

/-- What redirecting calls leaves alone in a function. -/
structure Outline where
  /-- The name. -/
  name : String
  /-- The signature. -/
  sig : Signature
  /-- Whether there is no body. -/
  declared : Bool
  /-- The labels of the loaded blocks. -/
  labels : List String
  /-- The labels of the blocks once they are decoded. -/
  decoded : List String
  deriving DecidableEq, Repr

/-- The outline of a function. -/
def outline (f : Func) : Outline := ⟨f.name, f.sig, f.isDeclared, f.labels, f.opened.labels⟩

/-- Blocks may change as long as their labels stay. -/
theorem outline_mapBlocks {change : Blocks → Blocks}
    (h : ∀ bs, (change bs).map Block.label = bs.map Block.label) (f : Func) (nextId : Option Nat) :
    outline { f with body := f.body.mapBlocks change, nextId := nextId } = f.outline := by
  rcases f with ⟨name, sig, conv, linkage, exported, attributes, intrinsic, params, body, next⟩
  cases body with
  | declared => rfl
  | loaded bs =>
      simp only [outline, opened, load, labels, blocks, Body.mapBlocks, Body.blocks, h, isDeclared,
        Body.isDeclared, Except.toOption, Option.getD_some]
  | stored s =>
      simp only [outline, opened, load, labels, blocks, Body.mapBlocks, Body.blocks, isDeclared,
        Body.isDeclared]
      cases Blocks.read? s.slice <;> rfl

end Func

namespace Blocks

theorem map_label_insertBefore (k : Nat) (x : Instr) (bs : Blocks) :
    (bs.insertBefore k x).map Block.label = bs.map Block.label := by
  induction bs with
  | nil => rfl
  | cons b bs ih =>
      rw [insertBefore]
      split
      · rfl
      · rw [List.map_cons, ih, List.map_cons]

theorem map_label_erase (k : Nat) (bs : Blocks) :
    (bs.erase k).map Block.label = bs.map Block.label := by
  induction bs with
  | nil => rfl
  | cons b bs ih =>
      rw [erase]
      split
      · rfl
      · rw [List.map_cons, ih, List.map_cons]

theorem map_label_mapInstrs (change : Instr → Instr) (bs : Blocks) :
    (bs.mapInstrs change).map Block.label = bs.map Block.label := by
  rw [mapInstrs, List.map_map]
  rfl

end Blocks

namespace Func

theorem outline_insertBefore {mode : Overflow} {k id : Nat} {x : Instr} {f g : Func}
    (h : f.insertBefore mode k x = .ok (id, g)) : g.outline = f.outline := by
  obtain ⟨old, next, _, _, rfl⟩ := insertBefore_cases h
  exact outline_mapBlocks (Blocks.map_label_insertBefore k _) f _

theorem outline_mapInstrs (change : Instr → Instr) (f : Func) :
    (f.mapInstrs change).outline = f.outline :=
  outline_mapBlocks (Blocks.map_label_mapInstrs change) f f.nextId

theorem outline_eraseInstr (k : Nat) (f : Func) : (f.eraseInstr k).outline = f.outline :=
  outline_mapBlocks (Blocks.map_label_erase k) f f.nextId

theorem labels_eq_nil_iff {f : Func} : f.labels = [] ↔ f.blocks = [] := List.map_eq_nil_iff

/-- A stored body shows no labels. -/
theorem labels_eq_nil_of_isStored {f : Func} (h : f.isStored = true) : f.labels = [] :=
  labels_eq_nil_iff.2 (blocks_of_isStored h)

end Func

namespace Module

/-- A loaded body calls a function through a cast and expects a signature. -/
def Asks (m : Module) (key : String × Signature) : Prop :=
  ∃ b ∈ m.functions, ∃ i ∈ b.instrs, i.castKey? = some key

/-- A function with a body has as many parameters as the signature. -/
def Copyable (m : Module) (key : String × Signature) : Prop :=
  ∃ f ∈ m.functions, f.name = key.1 ∧ f.isDeclared = false ∧ f.sig.arity = key.2.arity

/-- A loaded body calls through a cast, with as many parameters, a function whose body is stored and
has blocks. -/
def AsksForStored (m : Module) : Prop :=
  ∃ b ∈ m.functions, ∃ i ∈ b.instrs, ∃ key ∈ i.castKey?, ∃ f ∈ m.functions,
    f.name = key.1 ∧ f.sig.arity = key.2.arity ∧ f.isStored = true ∧ f.opened.blocks ≠ []

instance (m : Module) : Decidable m.AsksForStored :=
  inferInstanceAs (Decidable (∃ b ∈ m.functions, ∃ i ∈ b.instrs, ∃ key ∈ i.castKey?,
    ∃ f ∈ m.functions,
      f.name = key.1 ∧ f.sig.arity = key.2.arity ∧ f.isStored = true ∧ f.opened.blocks ≠ []))

/-- A call through a cast of a function with a body is one to repair. -/
theorem exists_castCall? {m : Module} {i : Instr} {key : String × Signature}
    (hkey : i.castKey? = some key) (hdef : m.defines key.1 = true) :
    ∃ c, m.castCall? i = some c ∧ c.key = key := by
  obtain ⟨call, hcall, hcast⟩ := Option.bind_eq_some_iff.1 hkey
  obtain ⟨target, htarget, rfl⟩ := Option.map_eq_some_iff.1 hcast
  exact ⟨⟨i.id, target, call.sig⟩, castCall?_eq_some_iff.2 ⟨call, hcall, htarget, hdef, rfl, rfl⟩,
    rfl⟩

end Module

namespace Repair

/-- The state of a repair, compared with the module that it started from. -/
structure Outlined (m : Module) (s : Repair) : Prop where
  /-- Names are distinct. -/
  names : s.module.DistinctNames
  /-- Functions keep their outlines, and copies come behind them. -/
  kept : m.functions.map Func.outline <+: s.module.functions.map Func.outline
  /-- Copies are loaded. -/
  origin : ∀ f ∈ s.module.functions,
    f.opened.labels = f.labels ∨ f.outline ∈ m.functions.map Func.outline
  /-- No call asks for anything new. -/
  traced : ∀ f ∈ s.module.functions, ∀ i ∈ f.instrs, ∀ key, i.castKey? = some key → m.Asks key
  /-- Copies were asked for, and they have the blocks that their origins have loaded. -/
  copies : ∀ entry ∈ s.copies, m.Asks entry.1 ∧
    ∃ f ∈ s.module.functions, ∃ copy ∈ s.module.functions,
    f.name = entry.1.1 ∧ copy.name = entry.2 ∧ f.sig.arity = entry.1.2.arity ∧
    copy.labels = f.labels

/-- One state comes after another one, with only the function at a position reworked. -/
structure Follows (index : Nat) (s s' : Repair) : Prop where
  /-- Copies stay. -/
  keys : s.copies.map Prod.fst ⊆ s'.copies.map Prod.fst
  /-- The other functions are as they were. -/
  others : ∀ k, k ≠ index → k < s.module.functions.length →
    s'.module.functions[k]? = s.module.functions[k]?

theorem Follows.refl (index : Nat) (s : Repair) : Follows index s s :=
  ⟨List.Subset.refl _, fun _ _ _ => rfl⟩

theorem Follows.trans {index : Nat} {s s' s'' : Repair} (h : Follows index s s')
    (h' : Follows index s' s'') : Follows index s s'' := by
  refine ⟨List.Subset.trans h.keys h'.keys, fun k hk hlt => ?_⟩
  have hsame := h.others k hk hlt
  have hlt' : k < s'.module.functions.length := by
    rw [List.getElem?_eq_getElem hlt] at hsame
    exact (List.getElem?_eq_some_iff.1 hsame).1
  rw [h'.others k hk hlt', hsame]

namespace Outlined

variable {m : Module} {s s' : Repair}

theorem start (hnames : m.DistinctNames) : (start m).Outlined m :=
  ⟨hnames, List.prefix_refl _, fun _ hf => Or.inr (List.mem_map_of_mem hf),
    fun f hf i hi _ hkey => ⟨f, hf, i, hi, hkey⟩, List.forall_mem_nil _⟩

/-- A function is found with the outline that it had. -/
theorem exists_outline (h : s.Outlined m) {f : Func} (hf : f ∈ m.functions) :
    ∃ g, s.module.func? f.name = some g ∧ g.outline = f.outline := by
  obtain ⟨g, hg, houtline⟩ := List.mem_map.1 (h.kept.subset (List.mem_map_of_mem hf))
  exact ⟨g, h.names.func?_eq_some_iff.2 ⟨hg, congrArg Func.Outline.name houtline⟩, houtline⟩

/-- A function that can be copied still can. -/
theorem exists_func? (h : s.Outlined m) {key : String × Signature} (hcopyable : m.Copyable key) :
    ∃ g, s.module.func? key.1 = some g ∧ g.isDeclared = false ∧ g.sig.arity = key.2.arity := by
  obtain ⟨f, hf, hname, hbody, harity⟩ := hcopyable
  obtain ⟨g, hg, houtline⟩ := h.exists_outline hf
  refine ⟨g, hname ▸ hg, ?_, ?_⟩
  · exact (congrArg Func.Outline.declared houtline).trans hbody
  · rw [← harity]
    exact congrArg Signature.arity (congrArg Func.Outline.sig houtline)

/-- A copy is there, or it is made of what is loaded. -/
theorem copy? (h : s.Outlined m) {c : CastCall} (hasks : m.Asks c.key) {name : String}
    (hs : s.copy? c = some (name, s')) :
    s'.Outlined m ∧ s.copies.map Prod.fst ⊆ s'.copies.map Prod.fst ∧
      c.key ∈ s'.copies.map Prod.fst ∧ s.module.functions <+: s'.module.functions := by
  rcases copy?_cases hs with ⟨hlookup, rfl⟩ | ⟨g, _, hg, _, rfl⟩
  · refine ⟨h, List.Subset.refl _, ?_, List.prefix_refl _⟩
    rw [← isSome_lookup_iff, CastCall.key, hlookup]
    rfl
  · obtain ⟨f, hf, harity, rfl⟩ := Module.exists_of_copyFor? hg
    obtain ⟨hmem, hname⟩ := Module.mem_of_func? hf
    refine ⟨⟨?_, ?_, fun b hb => ?_, fun b hb i hi key hkey => ?_, fun entry hentry => ?_⟩, ?_, ?_,
      List.prefix_append ..⟩
    · exact h.names.addFunc (Module.freeName_notMem f.name s.module)
    · rw [Module.addFunc, List.map_append]
      exact h.kept.trans (List.prefix_append ..)
    · rcases List.mem_append.1 hb with hb | hb
      · exact h.origin b hb
      · rw [List.mem_singleton.1 hb]
        exact Or.inl rfl
    · rcases List.mem_append.1 hb with hb | hb
      · exact h.traced b hb i hi key hkey
      · rw [List.mem_singleton.1 hb] at hi
        exact h.traced f hmem i hi key hkey
    · rcases List.mem_append.1 hentry with hentry | hentry
      · obtain ⟨hasked, b, hb, copy, hcopy, hrest⟩ := h.copies entry hentry
        exact ⟨hasked, b, List.mem_append_left _ hb, copy, List.mem_append_left _ hcopy, hrest⟩
      · rw [List.mem_singleton.1 hentry]
        exact ⟨hasks, f, List.mem_append_left _ hmem, _,
          List.mem_append_right _ (List.mem_singleton_self _), hname, rfl, harity, rfl⟩
    · rw [List.map_append]
      exact List.subset_append_left ..
    · rw [List.map_append]
      exact List.mem_append_right _ (List.mem_singleton_self _)

/-- A function in the place of one with the same outline. -/
theorem setFunc (h : s.Outlined m) {index : Nat} {f g : Func}
    (hf : s.module.functions[index]? = some f) (houtline : g.outline = f.outline)
    (htraced : ∀ i ∈ g.instrs, ∀ key, i.castKey? = some key → m.Asks key) (pending : Erasure)
    (stats : RepairStats) : Outlined m ⟨s.module.setFunc index g, s.copies, pending, stats⟩ := by
  have hmap : (s.module.setFunc index g).functions.map Func.outline =
      s.module.functions.map Func.outline := Module.map_setFunc hf houtline
  have hsame : ∀ b ∈ s.module.functions,
      ∃ b' ∈ (s.module.setFunc index g).functions, b'.outline = b.outline := fun b hb =>
    List.mem_map.1 (hmap ▸ List.mem_map_of_mem hb)
  have hname : g.name = f.name := congrArg Func.Outline.name houtline
  refine ⟨?_, ?_, fun b hb => ?_, fun b hb => ?_, fun entry hentry => ?_⟩
  · rw [Module.DistinctNames, Module.map_setFunc hf hname]
    exact h.names
  · rw [hmap]
    exact h.kept
  · have hb' : b.outline ∈ s.module.functions.map Func.outline := hmap ▸ List.mem_map_of_mem hb
    obtain ⟨b₀, hb₀, heq⟩ := List.mem_map.1 hb'
    have hlabels : b₀.labels = b.labels := congrArg Func.Outline.labels heq
    have hdecoded : b₀.opened.labels = b.opened.labels := congrArg Func.Outline.decoded heq
    rw [← heq, ← hlabels, ← hdecoded]
    exact h.origin b₀ hb₀
  · rcases List.mem_or_eq_of_mem_set hb with hb | rfl
    · exact h.traced b hb
    · exact htraced
  · obtain ⟨hasked, b, hb, copy, hcopy, hname, hcopyName, harity, hlabels⟩ := h.copies entry hentry
    obtain ⟨b', hb', heq⟩ := hsame b hb
    obtain ⟨copy', hcopy', heq'⟩ := hsame copy hcopy
    refine ⟨hasked, b', hb', copy', hcopy', ?_, ?_, ?_, ?_⟩
    · exact (congrArg Func.Outline.name heq).trans hname
    · exact (congrArg Func.Outline.name heq').trans hcopyName
    · rw [← harity]
      exact congrArg Signature.arity (congrArg Func.Outline.sig heq)
    · exact (congrArg Func.Outline.labels heq').trans
        (hlabels.trans (congrArg Func.Outline.labels heq).symm)

/-- Redirecting a call succeeds and changes one function in its place. -/
theorem retarget (h : s.Outlined m) (index : Nat) (c : CastCall) (name : String) :
    ∃ s', s.retarget .wraps index c name = .ok s' ∧ s'.Outlined m ∧ Follows index s s' := by
  obtain ⟨s', hs'⟩ := exists_retarget_wraps s index c name
  refine ⟨s', hs', ?_⟩
  rcases retarget_cases hs' with rfl | ⟨f, old, call, id, g, hf, _, _, hinsert, rfl⟩
  · exact ⟨h, .refl index s'⟩
  · refine ⟨h.setFunc hf ?_ (fun i hi key hkey => ?_) _ _,
      List.Subset.refl _, fun k hk _ => List.getElem?_set_ne (Ne.symm hk)⟩
    · exact (Func.outline_mapInstrs _ g).trans (Func.outline_insertBefore hinsert)
    · obtain ⟨j, hj, hjkey⟩ := exists_castKey?_of_redirected hinsert hi hkey
      exact h.traced f (List.mem_of_getElem? hf) j hj key hjkey

/-- A call through a cast of a function that can be copied gets its copy. -/
theorem repairCall (h : s.Outlined m) {c : CastCall} (hasks : m.Asks c.key) (index : Nat) :
    ∃ s', s.repairCall .wraps index c = .ok s' ∧ s'.Outlined m ∧ Follows index s s' ∧
      (m.Copyable c.key → c.key ∈ s'.copies.map Prod.fst) := by
  unfold Repair.repairCall
  cases hcopy : s.copy? c with
  | none =>
      refine ⟨_, rfl, ⟨h.names, h.kept, h.origin, h.traced, h.copies⟩, ⟨List.Subset.refl _,
        fun _ _ _ => rfl⟩, fun hcopyable => ?_⟩
      obtain ⟨g, hg, _, harity⟩ := h.exists_func? hcopyable
      obtain ⟨b, hb⟩ := Option.isSome_iff_exists.1 ((Module.isSome_copyFor?_iff hg).2 harity)
      unfold Repair.copy? at hcopy
      rw [hb] at hcopy
      split at hcopy <;> cases hcopy
  | some made =>
      obtain ⟨name, t⟩ := made
      obtain ⟨ht, hkeys, hthere, hfuncs⟩ := h.copy? hasks hcopy
      obtain ⟨s', hs', hnext, hfollows⟩ := ht.retarget index c name
      refine ⟨s', hs', hnext, ⟨List.Subset.trans hkeys hfollows.keys, fun k hk hlt => ?_⟩,
        fun _ => hfollows.keys hthere⟩
      obtain ⟨made, hmade⟩ := hfuncs
      have hlt' : k < t.module.functions.length := by
        rw [← hmade, List.length_append]
        omega
      rw [hfollows.others k hk hlt', ← hmade, List.getElem?_append_left hlt]

/-- The calls of one function are repaired one by one, and every copy they ask for is there then. -/
theorem foldlM_repairCall (h : s.Outlined m) (index : Nat) {cs : List CastCall}
    (hasks : ∀ c ∈ cs, m.Asks c.key) :
    ∃ s', cs.foldlM (Repair.repairCall .wraps index) s = .ok s' ∧ s'.Outlined m ∧
      Follows index s s' ∧ ∀ c ∈ cs, m.Copyable c.key → c.key ∈ s'.copies.map Prod.fst := by
  induction cs generalizing s with
  | nil => exact ⟨s, rfl, h, .refl index s, List.forall_mem_nil _⟩
  | cons c cs ih =>
      rw [List.forall_mem_cons] at hasks
      obtain ⟨t, hstep, ht, hfollows, hserved⟩ := h.repairCall hasks.1 index
      obtain ⟨s', hrun, hs', hfollows', hserved'⟩ := ih ht hasks.2
      refine ⟨s', ?_, hs', hfollows.trans hfollows', ?_⟩
      · rw [List.foldlM_cons, hstep]
        exact hrun
      · rw [List.forall_mem_cons]
        exact ⟨fun hcopyable => hfollows'.keys (hserved hcopyable), hserved'⟩

/-- When a function has its turn, all its calls through casts of functions that can be copied get
their copies. -/
theorem sweepAt (h : s.Outlined m) (index : Nat) :
    ∃ s', s.sweepAt .wraps index = .ok s' ∧ s'.Outlined m ∧ Follows index s s' ∧
      ∀ f, s.module.functions[index]? = some f → ∀ i ∈ f.instrs, ∀ key, i.castKey? = some key →
        m.Copyable key → key ∈ s'.copies.map Prod.fst := by
  unfold Repair.sweepAt
  cases hf : s.module.functions[index]? with
  | none => exact ⟨s, rfl, h, .refl index s, fun f hf => by cases hf⟩
  | some f =>
      have hasks : ∀ c ∈ s.module.castCalls f, m.Asks c.key := by
        intro c hc
        obtain ⟨i, hi, hcast⟩ := List.mem_filterMap.1 hc
        exact h.traced f (List.mem_of_getElem? hf) i hi c.key (Module.castKey?_of_castCall? hcast)
      obtain ⟨s', hs', hnext, hfollows, hserved⟩ := h.foldlM_repairCall index hasks
      refine ⟨s', hs', hnext, hfollows, fun f' hf' i hi key hkey hcopyable => ?_⟩
      cases hf'
      obtain ⟨g, hg, hbody, _⟩ := h.exists_func? hcopyable
      obtain ⟨c, hcast, rfl⟩ :=
        Module.exists_castCall? hkey (Module.defines_iff.2 ⟨g, hg, hbody⟩)
      exact hserved c (List.mem_filterMap.2 ⟨i, hi, hcast⟩) hcopyable

end Outlined

/-- A repair after the functions up to a position have had their turns. -/
structure Served (m : Module) (count : Nat) (s : Repair) : Prop where
  /-- Outlines stay. -/
  outlined : s.Outlined m
  /-- The other functions are as they were. -/
  untouched : ∀ k, count ≤ k → k < m.functions.length → s.module.functions[k]? = m.functions[k]?
  /-- Calls through casts of functions that can be copied have got their copies. -/
  served : ∀ k < count, ∀ f, m.functions[k]? = some f → ∀ i ∈ f.instrs, ∀ key,
    i.castKey? = some key → m.Copyable key → key ∈ s.copies.map Prod.fst

/-- One turn of the sweep serves one more position. -/
theorem Served.sweepAt {m : Module} {count : Nat} {s : Repair} (h : Served m count s) :
    ∃ s', s.sweepAt .wraps count = .ok s' ∧ Served m (count + 1) s' := by
  obtain ⟨s', hs', hnext, hfollows, hturn⟩ := h.outlined.sweepAt count
  have hlength : m.functions.length ≤ s.module.functions.length := by
    simpa using h.outlined.kept.length_le
  refine ⟨s', hs', hnext, fun k hk hlt => ?_, fun k hk f hf i hi key hkey hcopyable => ?_⟩
  · rw [hfollows.others k (Nat.ne_of_gt hk) (Nat.lt_of_lt_of_le hlt hlength),
      h.untouched k (Nat.le_of_succ_le hk) hlt]
  · rcases Nat.lt_succ_iff_lt_or_eq.1 hk with hk | rfl
    · exact hfollows.keys (h.served k hk f hf i hi key hkey hcopyable)
    · have hlt := (List.getElem?_eq_some_iff.1 hf).1
      exact hturn f ((h.untouched k (Nat.le_refl _) hlt).trans hf) i hi key hkey hcopyable

/-- A sweep succeeds, and all calls through casts of functions that can be copied get their
copies. -/
theorem exists_sweep_served {m : Module} (hnames : m.DistinctNames) :
    ∃ s, sweep .wraps m = .ok s ∧ s.Outlined m ∧
      ∀ key, m.Asks key → m.Copyable key → key ∈ s.copies.map Prod.fst := by
  have hstart : Served m 0 (start m) :=
    ⟨.start hnames, fun _ _ _ => rfl, fun k hk => absurd hk (Nat.not_lt_zero k)⟩
  obtain ⟨s, hs, hserved⟩ := exists_foldlM_range hstart (fun _ _ h => h.sweepAt)
    (m.functions.length + m.castCallCount)
  refine ⟨s, hs, hserved.outlined, ?_⟩
  rintro key ⟨f, hf, i, hi, hkey⟩ hcopyable
  obtain ⟨k, hk, rfl⟩ := List.getElem_of_mem hf
  exact hserved.served k (Nat.lt_add_right _ hk) _ (List.getElem?_eq_getElem hk) i hi key
    hkey hcopyable

/-- Every copy has the blocks of its origin, decoded or not, and no function with blocks is removed
for the sake of a copy without any. -/
structure KeepsBodies (m : Module) (s : Repair) : Prop where
  /-- The labels of a copy are those of its origin once that is decoded. -/
  whole : ∀ entry ∈ s.copies, ∃ f copy, s.module.func? entry.1.1 = some f ∧
    s.module.func? entry.2 = some copy ∧ copy.labels = f.opened.labels
  /-- What is removed has copies with blocks, if it has blocks. -/
  kept : ∀ f ∈ m.functions, f.opened.blocks ≠ [] → s.finish.2.func? f.name = none →
    ∀ entry ∈ s.copies, entry.1.1 = f.name →
      ∃ copy, s.module.func? entry.2 = some copy ∧ copy.blocks ≠ []

namespace Outlined

variable {m : Module} {s : Repair}

/-- A copy has the blocks that its origin has loaded. -/
theorem exists_copy (h : s.Outlined m) {entry : (String × Signature) × String}
    (hentry : entry ∈ s.copies) : ∃ f copy, s.module.func? entry.1.1 = some f ∧
      s.module.func? entry.2 = some copy ∧ f.sig.arity = entry.1.2.arity ∧
      copy.labels = f.labels := by
  obtain ⟨_, f, hf, copy, hcopy, hname, hcopyName, harity, hlabels⟩ := h.copies entry hentry
  exact ⟨f, copy, h.names.func?_eq_some_iff.2 ⟨hf, hname⟩,
    h.names.func?_eq_some_iff.2 ⟨hcopy, hcopyName⟩, harity, hlabels⟩

/-- A function without the blocks that it has once it is decoded is one that was stored. -/
theorem exists_stored (h : s.Outlined m) {f : Func} (hf : f ∈ s.module.functions)
    (hlabels : f.labels ≠ f.opened.labels) :
    ∃ g ∈ m.functions, g.outline = f.outline ∧ g.isStored = true ∧ g.opened.blocks ≠ [] := by
  rcases h.origin f hf with hsame | horigin
  · exact absurd hsame.symm hlabels
  · obtain ⟨g, hg, houtline⟩ := List.mem_map.1 horigin
    have hloaded : g.labels = f.labels := congrArg Func.Outline.labels houtline
    have hdecoded : g.opened.labels = f.opened.labels := congrArg Func.Outline.decoded houtline
    rw [← hloaded, ← hdecoded] at hlabels
    have hstored : g.isStored = true := by
      by_contra hnot
      rw [Func.opened_eq_self (Bool.of_not_eq_true hnot)] at hlabels
      exact hlabels rfl
    refine ⟨g, hg, houtline, hstored, fun hnone => hlabels ?_⟩
    rw [Func.labels_eq_nil_of_isStored hstored, Func.labels_eq_nil_iff.2 hnone]

/-- If copies have the blocks of their origins, nothing is removed for the sake of an empty one. -/
theorem keepsBodies (h : s.Outlined m) (hwhole : ∀ entry ∈ s.copies, ∃ f copy,
    s.module.func? entry.1.1 = some f ∧ s.module.func? entry.2 = some copy ∧
      copy.labels = f.opened.labels) : s.KeepsBodies m := by
  refine ⟨hwhole, fun f hf hblocks _ entry hentry hname => ?_⟩
  obtain ⟨g, copy, hg, hcopy, hlabels⟩ := hwhole entry hentry
  refine ⟨copy, hcopy, fun hnone => hblocks ?_⟩
  obtain ⟨g', hg', houtline⟩ := h.exists_outline hf
  rw [← hname, hg, Option.some.injEq] at hg'
  subst hg'
  have hdecoded : g.opened.labels = f.opened.labels := congrArg Func.Outline.decoded houtline
  rw [← Func.labels_eq_nil_iff, ← hdecoded, ← hlabels]
  exact Func.labels_eq_nil_iff.2 hnone

/-- Bodies are kept exactly if no loaded body asks for a copy of a function that is stored. -/
theorem keepsBodies_iff (h : s.Outlined m)
    (hserved : ∀ key, m.Asks key → m.Copyable key → key ∈ s.copies.map Prod.fst) :
    s.KeepsBodies m ↔ ¬ m.AsksForStored := by
  constructor
  · rintro hkeeps ⟨b, hb, i, hi, key, hkey, f, hf, hname, harity, hstored, hblocks⟩
    have hmade : key ∈ s.copies.map Prod.fst := hserved key ⟨b, hb, i, hi, hkey⟩
      ⟨f, hf, hname, Func.isDeclared_of_isStored hstored, harity⟩
    obtain ⟨entry, hentry, rfl⟩ := List.mem_map.1 hmade
    obtain ⟨g, copy, hg, hcopy, hlabels⟩ := hkeeps.whole entry hentry
    obtain ⟨g', copy', hg', hcopy', _, hlabels'⟩ := h.exists_copy hentry
    obtain ⟨f', hf', houtline⟩ := h.exists_outline hf
    rw [hg, Option.some.injEq] at hg'
    rw [hcopy, Option.some.injEq] at hcopy'
    rw [hname, hg, Option.some.injEq] at hf'
    subst hg' hcopy' hf'
    have hloaded : g.labels = f.labels := congrArg Func.Outline.labels houtline
    have hdecoded : g.opened.labels = f.opened.labels := congrArg Func.Outline.decoded houtline
    refine hblocks (Func.labels_eq_nil_iff.1 ?_)
    rw [← hdecoded, ← hlabels, hlabels', hloaded, Func.labels_eq_nil_of_isStored hstored]
  · intro hnone
    refine h.keepsBodies fun entry hentry => ?_
    obtain ⟨f, copy, hf, hcopy, harity, hlabels⟩ := h.exists_copy hentry
    refine ⟨f, copy, hf, hcopy, hlabels.trans ?_⟩
    by_contra hne
    obtain ⟨hmem, hname⟩ := Module.mem_of_func? hf
    obtain ⟨g, hg, houtline, hstored, hblocks⟩ := h.exists_stored hmem hne
    have hgname : g.name = entry.1.1 := (congrArg Func.Outline.name houtline).trans hname
    have hgsig : g.sig = f.sig := congrArg Func.Outline.sig houtline
    obtain ⟨b, hb, i, hi, hkey⟩ := (h.copies entry hentry).1
    exact hnone ⟨b, hb, i, hi, entry.1, hkey, g, hg, hgname, hgsig ▸ harity, hstored, hblocks⟩

end Outlined

end Repair

namespace Erasure

/-- What a removal leaves keeps its outline. -/
theorem sublist_outline_carryOut (e : Erasure) (m : Module) :
    ((e.carryOut m).module.functions.map Func.outline).Sublist (m.functions.map Func.outline) := by
  have hinstrs : ∀ (targets : List (String × Nat)) (s : Module × Nat),
      (targets.foldl eraseInstr s).1.functions.map Func.outline =
        s.1.functions.map Func.outline := by
    intro targets
    induction targets with
    | nil => exact fun s => rfl
    | cons target targets ih =>
        intro s
        rw [List.foldl_cons, ih]
        unfold eraseInstr
        split
        · rfl
        · exact map_modifyFirst (Func.outline_eraseInstr target.2) _
  have hfuncs : ∀ (names : List String) (s : Module × Nat),
      (names.foldl eraseFunc s).1.functions.Sublist s.1.functions := by
    intro names
    induction names with
    | nil => exact fun s => List.Sublist.refl _
    | cons name names ih =>
        intro s
        refine (ih _).trans ?_
        unfold eraseFunc
        split
        · exact List.Sublist.refl _
        · exact List.eraseP_sublist
  rw [← hinstrs e.instrs (m, 0)]
  exact (hfuncs e.functions _).map _

end Erasure

namespace Module

/-- Where sums wrap around, cast repair succeeds, and where they stop it does the same or stops
short of it. Functions keep their outlines, apart from those that are removed. Each copy has the
blocks of its origin exactly if no loaded body asks, through a cast and with as many parameters, for
a function whose body is stored and has blocks. -/
theorem keepsBodies_repairCasts_iff {m : Module} (hnames : m.DistinctNames) :
    ∃ s, Repair.sweep .wraps m = .ok s ∧ m.repairCasts .wraps = .ok s.finish ∧
      CutShort .overflow (m.repairCasts .stops) (.ok s.finish) ∧
      m.functions.map Func.outline <+: s.module.functions.map Func.outline ∧
      (s.finish.2.functions.map Func.outline).Sublist (s.module.functions.map Func.outline) ∧
      (s.KeepsBodies m ↔ ¬ m.AsksForStored) := by
  obtain ⟨s, hs, houtlined, hserved⟩ := Repair.exists_sweep_served hnames
  have hrepair : m.repairCasts .wraps = .ok s.finish := Repair.repairCasts_eq_finish hs
  refine ⟨s, hs, hrepair, hrepair ▸ m.repairCasts_cutShort, houtlined.kept, ?_,
    houtlined.keepsBodies_iff hserved⟩
  exact (Erasure.sublist_outline_carryOut _ _).trans (Erasure.sublist_outline_carryOut _ _)

/-- A function that is copied, and one that is stored and called through a cast with fewer
parameters. -/
def storedBeside : Module :=
  let word : Ty := .int 32
  ⟨"m", [], [(returner "f" (.float 32)).packed, returner "g" (.float 32), forwarder "main" word "g",
    .define "other" ⟨word, []⟩ [⟨"entry",
      [⟨0, "", word, .call ⟨.cast (.func "f") (.ptr (.func word [])), ⟨word, []⟩, [], .c⟩, none⟩,
        ⟨1, "", .void, .ret (some (.inst 0)), none⟩]⟩]]⟩

/-- The copy has the block of its origin, and the stored function stays as it is. -/
theorem keepsBodies_repairCasts_storedBeside :
    storedBeside.DistinctNames ∧ ¬ storedBeside.AsksForStored ∧
    ∃ s, Repair.sweep .wraps storedBeside = .ok s ∧ storedBeside.repairCasts .wraps = .ok s.finish ∧
      s.finish.2.functions.map (fun f => (f.name, f.labels, f.isStored)) =
        [("f", [], true), ("main", ["entry"], false), ("other", ["entry"], false),
          ("g.1", ["entry"], false)] ∧ s.KeepsBodies storedBeside := by
  have hnames : storedBeside.DistinctNames := by decide +kernel
  have hnone : ¬ storedBeside.AsksForStored := by decide +kernel
  have hrun : (Repair.sweep .wraps storedBeside).toOption.any (fun s =>
      s.finish.2.functions.map (fun f => (f.name, f.labels, f.isStored)) =
        [("f", [], true), ("main", ["entry"], false), ("other", ["entry"], false),
          ("g.1", ["entry"], false)]) = true := by decide +kernel
  obtain ⟨s, hs, hrepair, _, _, _, hkeeps⟩ := keepsBodies_repairCasts_iff hnames
  refine ⟨hnames, hnone, s, hs, hrepair, ?_, hkeeps.2 hnone⟩
  rw [hs] at hrun
  simpa [Except.toOption] using hrun

/-- A call through a cast of a function that is stored. -/
def storedBelow : Module :=
  ⟨"m", [], [(returner "f" (.float 32)).packed, forwarder "main" (.int 32) "f"]⟩

/-- The function has a block, its copy has none, and the function is removed. -/
theorem not_keepsBodies_repairCasts_storedBelow :
    storedBelow.DistinctNames ∧ (∀ f ∈ storedBelow.functions, f.load.isOk = true) ∧
    (storedBelow.func? "f").map (fun f => f.opened.labels) = some ["entry"] ∧
    ∃ s, (∀ mode, Repair.sweep mode storedBelow = .ok s ∧
        storedBelow.repairCasts mode = .ok s.finish) ∧
      s.copies.map (fun entry => (entry.1.1, entry.2)) = [("f", "f.1")] ∧
      s.finish.2.functions.map (fun f => (f.name, f.labels)) =
        [("main", ["entry"]), ("f.1", [])] := by
  have hrun : (Repair.sweep .stops storedBelow).toOption.any (fun s =>
      s.copies.map (fun entry => (entry.1.1, entry.2)) = [("f", "f.1")] ∧
      s.finish.2.functions.map (fun f => (f.name, f.labels)) =
        [("main", ["entry"]), ("f.1", [])]) = true := by decide +kernel
  have hrange : storedBelow.RepairsInRange := by decide +kernel
  obtain ⟨s, hs⟩ := hrange.exists_sweep
  rw [hs .stops] at hrun
  exact ⟨by decide +kernel, by decide +kernel, by decide +kernel, s,
    fun mode => ⟨hs mode, Repair.repairCasts_eq_finish (hs mode)⟩, of_decide_eq_true hrun⟩

end Module

end Postlink
