import Postlink.Proofs.CastRepair.Completeness
import Postlink.Proofs.CastRepair.Steps
import Postlink.Proofs.Pipeline.Orderly
import Postlink.Proofs.Reworking
import Mathlib.Data.Set.Card

/-!
# Calls that share a copy

While a sweep goes on, an old call stays in place behind the call that it was redirected to
(`Repair.Redirects`), so the pairs of old and new calls can be read off at its end. The new calls
are direct calls of copies that fit, and two of them go to the same copy exactly if the old calls
named the same function with the same signature (`Repair.SharesCopies`). Copies are counted as they
are made, so there are as many as there are such pairs of a function and a signature.
-/

namespace Postlink

/-- Where keys are distinct, the element in front of a key is determined by the key. -/
theorem eq_of_adjacent {α κ : Type} {key : α → κ} {as : List α} (h : (as.map key).Nodup)
    {a a' b b' : α} (hb : [a, b] <:+: as) (hb' : [a', b'] <:+: as) (hkey : key b = key b') :
    a = a' ∧ b = b' := by
  obtain ⟨before, after, rfl⟩ := hb
  obtain ⟨before', after', hsame⟩ := hb'
  have hat : (before ++ [a, b] ++ after)[before.length + 1]? = some b := by simp
  have hat' : (before ++ [a, b] ++ after)[before'.length + 1]? = some b' := by
    rw [← hsame]
    simp
  have hindex : before.length + 1 = before'.length + 1 := by
    have hlt := (List.getElem?_eq_some_iff.1 hat).1
    refine (List.getElem?_inj (by rwa [List.length_map]) h).1 ?_
    rw [List.getElem?_map, List.getElem?_map, hat, hat', Option.map_some, Option.map_some, hkey]
  have hfront : (before ++ [a, b] ++ after)[before.length]? = some a := by simp
  have hfront' : (before ++ [a, b] ++ after)[before'.length]? = some a' := by
    rw [← hsame]
    simp
  rw [Nat.add_right_cancel hindex] at hat hfront
  rw [hfront, Option.some.injEq] at hfront'
  rw [hat, Option.some.injEq] at hat'
  exact ⟨hfront', hat'⟩

namespace Instr

/-- The function and the signature that a call through a cast asks for. -/
def castKey? (i : Instr) : Option (String × Signature) :=
  i.call?.bind fun c => c.throughCast?.map fun target => (target, c.sig)

/-- What a call asks for does not depend on identifiers. -/
@[simp] theorem castKey?_renumber (ρ : Nat → Nat) (i : Instr) :
    (i.renumber ρ).castKey? = i.castKey? := by
  rw [castKey?, call?_renumber, castKey?]
  cases i.call? with
  | none => rfl
  | some c => cases hc : c.callee <;> simp [Call.throughCast?, hc, Operand.renumber]

/-- A redirected call names its new callee and keeps everything else. -/
theorem call?_directed {i : Instr} {call : Call} (h : i.call? = some call) (name : String)
    (ρ : Nat → Nat) : (i.directed name ρ).call? =
      some { call with callee := .func name, args := call.args.map (Operand.renumber ρ) } := by
  cases i with
  | mk id iname ty kind loc =>
      cases kind with
      | call call' =>
          cases h
          rfl
      | _ => cases h

/-- A redirected call is a direct one. -/
theorem called?_directed {i : Instr} {m : Module} {c : CastCall} (h : m.castCall? i = some c)
    (name : String) (ρ : Nat → Nat) : (i.directed name ρ).called? = some name := by
  obtain ⟨call, hcall, _⟩ := Module.castCall?_eq_some_iff.1 h
  rw [called?, call?_directed hcall]
  rfl

end Instr

/-- A call to repair asks for its key. -/
theorem Module.castKey?_of_castCall? {m : Module} {i : Instr} {c : CastCall}
    (h : m.castCall? i = some c) : i.castKey? = some c.key := by
  obtain ⟨call, hcall, hcast, _, _, hsig⟩ := castCall?_eq_some_iff.1 h
  rw [Instr.castKey?, hcall, Option.bind_some, hcast, Option.map_some, ← hsig]
  rfl

/-- A new call names its copy, and the instructions around it are renumbered at most, so none of
them asks for anything new. -/
theorem Repair.exists_castKey?_of_redirected {mode : Overflow} {f g : Func} {c : CastCall}
    {name : String} {old : Instr} {call : Call} {id : Nat}
    (hinsert : f.insertBefore mode c.id (redirected name c.sig old call) = .ok (id, g)) {i : Instr}
    (hi : i ∈ (g.replaceUses c.id (.inst id)).instrs) {key : String × Signature}
    (hkey : i.castKey? = some key) : ∃ j ∈ f.instrs, j.castKey? = some key := by
  rw [Func.replaceUses, Operand.replace_eq_renumber, Func.instrs_mapInstrs] at hi
  obtain ⟨j, hj, rfl⟩ := List.mem_map.1 hi
  have hjkey : j.castKey? = some key := (j.castKey?_renumber _).symm.trans hkey
  rw [Func.instrs_insertBefore hinsert] at hj
  rcases Instr.mem_insertBefore hj with rfl | hj
  · cases hjkey
  · exact ⟨j, hj, hjkey⟩

/-- A function is a copy of another one under the signature that a call expects. -/
structure Func.Fits (f : Func) (sig : Signature) (copy : Func) : Prop where
  /-- It has that signature. -/
  sig : copy.sig = sig
  /-- It receives its arguments in the same way. -/
  conv : copy.conv = f.conv
  /-- It is as visible. -/
  linkage : copy.linkage = f.linkage
  /-- It has the same attributes. -/
  attributes : copy.attributes = f.attributes
  /-- Its parameters have the same names. -/
  params : copy.params = f.params

namespace Repair

/-- A call that a sweep has redirected: the old call is staged, and the new one stands right in
front of it. -/
structure Redirects (s : Repair) (caller : String) (old new : Instr) : Prop where
  /-- The old call is to go. -/
  staged : (caller, old.id) ∈ s.pending.instrs
  /-- Both are still there. -/
  adjacent : ∃ g, s.module.func? caller = some g ∧ [new, old] <:+: g.instrs

/-- What the redirected calls of a module have become. -/
structure SharesCopies (m : Module) (s : Repair) : Prop where
  /-- A call through a cast of a function with a body and as many parameters is redirected. -/
  complete : ∀ b ∈ m.functions, ∀ i ∈ b.instrs, ∀ call, i.call? = some call → ∀ f,
    m.CastsTo call f → f.sig.arity = call.sig.arity → (b.name, i.id) ∈ s.pending.instrs
  /-- No call is staged twice. -/
  nodup : s.pending.instrs.Nodup
  /-- Every call that is staged has been redirected. -/
  redirects : ∀ e ∈ s.pending.instrs, ∃ old new, old.id = e.2 ∧ s.Redirects e.1 old new
  /-- All of them are counted. -/
  count : s.finish.1.redirected = s.pending.instrs.length
  /-- The new call is a direct call of a copy that fits, which the module did not have. -/
  direct : ∀ caller old new, s.Redirects caller old new → ∃ call target f copy,
    new.call? = some call ∧ call.callee = .func copy.name ∧
    old.castKey? = some (target, call.sig) ∧ m.func? target = some f ∧ f.isDeclared = false ∧
    m.func? copy.name = none ∧ s.finish.2.func? copy.name = some copy ∧ f.Fits call.sig copy
  /-- It is in the result wherever its caller is. -/
  stays : ∀ caller old new, s.Redirects caller old new → ∀ g, s.finish.2.func? caller = some g →
    new ∈ g.instrs
  /-- Calls go to the same copy exactly if they named the same function with the same signature. -/
  shared : ∀ caller old new caller' old' new', s.Redirects caller old new →
    s.Redirects caller' old' new' → (new.called? = new'.called? ↔ old.castKey? = old'.castKey?)
  /-- There are as many copies as functions and signatures that calls named. -/
  created : s.finish.1.created =
    Set.ncard {key | ∃ caller old new, s.Redirects caller old new ∧ old.castKey? = some key}

/-- A call that an old one was redirected to is not in the result. -/
def LosesCall (s : Repair) : Prop :=
  ∃ e ∈ s.pending.instrs, ∃ b ∈ s.module.func? e.1, ∃ old ∈ b.instrs, ∃ new ∈ b.instrs,
    old.id = e.2 ∧ [new, old] <:+: b.instrs ∧ ∃ g ∈ s.finish.2.func? e.1, new ∉ g.instrs

instance (s : Repair) : Decidable s.LosesCall :=
  inferInstanceAs (Decidable (∃ e ∈ s.pending.instrs, ∃ b ∈ s.module.func? e.1, ∃ old ∈ b.instrs,
    ∃ new ∈ b.instrs, old.id = e.2 ∧ [new, old] <:+: b.instrs ∧
      ∃ g ∈ s.finish.2.func? e.1, new ∉ g.instrs))

/-- Where a redirected call is lost, copies are not shared as they should be. -/
theorem LosesCall.not_sharesCopies {s : Repair} (h : s.LosesCall) (m : Module) :
    ¬ s.SharesCopies m := by
  obtain ⟨e, he, b, hb, old, _, new, _, hid, hadjacent, g, hg, hnew⟩ := h
  have hredirects : s.Redirects e.1 old new := ⟨by rwa [hid], b, hb, hadjacent⟩
  exact fun hshares => hnew (hshares.stays e.1 old new hredirects g hg)

/-- Copies and redirected calls are counted as they are made. -/
structure Counted (s : Repair) : Prop where
  /-- Each copy is recorded. -/
  created : s.stats.created = s.copies.length
  /-- Each redirected call is staged. -/
  redirected : s.stats.redirected = s.pending.instrs.length

namespace Counted

variable {mode : Overflow} {s s' : Repair}

/-- Making a copy, or finding one, keeps the counts right. -/
theorem copy? (h : s.Counted) {c : CastCall} {name : String} (hs : s.copy? c = some (name, s')) :
    s'.Counted := by
  rcases copy?_cases hs with ⟨_, rfl⟩ | ⟨g, _, _, _, rfl⟩
  · exact h
  · exact ⟨by simp [h.created], h.redirected⟩

/-- Redirecting a call keeps the counts right. -/
theorem retarget (h : s.Counted) {index : Nat} {c : CastCall} {name : String}
    (hs : s.retarget mode index c name = .ok s') : s'.Counted := by
  rcases retarget_cases hs with rfl | ⟨f, old, call, id, g, _, _, _, _, rfl⟩
  · exact h
  · exact ⟨h.created, by simp [h.redirected, Erasure.addInstr]⟩

/-- So it is at the end of a sweep. -/
theorem sweep {m : Module} (hs : Repair.sweep mode m = .ok s) : s.Counted :=
  sweep_induction ⟨rfl, rfl⟩ (fun _ _ _ _ hcopy h => h.copy? hcopy)
    (fun _ _ _ _ _ hstep h => h.retarget hstep) (fun _ h => ⟨h.created, h.redirected⟩) hs

end Counted

/-- Redirecting and clearing changes only the body and the counter. -/
theorem settled_eq (plan : String → List Rewrite) (done : List (String × CastCall)) (f : Func) :
    settled plan done f = { f with
      body := (settled plan done f).body, nextId := (settled plan done f).nextId } := by
  have hrewritten := f.rewriteBy_eq (plan f.name)
  unfold settled Func.clear Func.expand
  rw [hrewritten]

namespace Copying

variable {m : Module} {asked : List (String × CastCall)}
  {copies : List ((String × Signature) × String)} {clones : List Func}

/-- Copies are recorded under their names. -/
theorem map_snd (h : Copying m asked copies clones) :
    copies.map Prod.snd = clones.map Func.name := by
  rw [← List.forall₂_eq_eq_eq, List.forall₂_map_left_iff, List.forall₂_map_right_iff]
  refine h.snapshots.imp ?_
  rintro entry g ⟨f, rs, hsnapshot⟩
  rw [hsnapshot.copy]
  rfl

/-- What is found under a key is recorded with it. -/
theorem mem_of_lookup {key : String × Signature} {name : String}
    (h : copies.lookup key = some name) : (key, name) ∈ copies := by
  obtain ⟨before, after, rfl, _⟩ := List.lookup_eq_some_iff.1 h
  simp

end Copying

section Swept

variable {m : Module} {clones : List Func} {plan : String → List Rewrite} {s : Repair}
  (h : Underway m clones plan ((m.functions ++ clones).flatMap m.repairsOf)
    ((m.functions ++ clones).flatMap m.repairsOf) s)

include h

/-- A call for which a copy can be had has been redirected. -/
theorem Underway.exists_rewrite {b : Func} (hb : b ∈ m.functions ++ clones) {x : Instr}
    (hx : x ∈ b.instrs) {c : CastCall} (hc : m.repairable? x = some c) :
    ∃ r ∈ plan b.name, r.old = x.id := by
  rw [← List.mem_map, h.olds b hb, List.mem_map]
  refine ⟨(b.name, c), List.mem_filter.2 ⟨List.mem_flatMap.2 ⟨b, hb, ?_⟩, by simp⟩,
    Module.id_of_repairable? hc⟩
  exact Module.mem_repairsIn_iff.2 ⟨rfl, x, hx, hc⟩

/-- Behind the direct call of its copy stands each call for which a copy can be had. -/
theorem Underway.exists_adjacent {b : Func} (hb : b ∈ m.functions ++ clones) {x : Instr}
    (hx : x ∈ b.instrs) {c : CastCall} (hc : m.repairable? x = some c) :
    ∃ name, s.copies.lookup c.key = some name ∧
      [x.directed name (Rewrite.redirect (plan b.name)),
        x.renumber (Rewrite.redirect (plan b.name))] <:+: (b.rewriteBy (plan b.name)).instrs := by
  obtain ⟨name, ⟨c', hc', hname⟩, hinserted⟩ :=
    (h.redirected b hb).direct x hx (h.exists_rewrite hb hx hc)
  rw [(Module.repairable?_eq_some_iff.1 hc).1, Option.some.injEq] at hc'
  refine ⟨name, hc' ▸ hname, ?_⟩
  obtain ⟨before, after, hsplit⟩ := List.append_of_mem hx
  refine ⟨before.flatMap (Rewrite.image (plan b.name)), after.flatMap (Rewrite.image (plan b.name)),
    ?_⟩
  rw [Func.instrs_rewriteBy, hsplit, List.flatMap_append, List.flatMap_cons,
    Rewrite.image, hinserted]
  simp

/-- The redirected calls are those for which a copy can be had. -/
theorem Underway.exists_of_redirects {caller : String} {old new : Instr}
    (hredirects : s.Redirects caller old new) : ∃ b ∈ m.functions ++ clones, b.name = caller ∧
      ∃ x ∈ b.instrs, ∃ c name, m.repairable? x = some c ∧ s.copies.lookup c.key = some name ∧
        old = x.renumber (Rewrite.redirect (plan b.name)) ∧
        new = x.directed name (Rewrite.redirect (plan b.name)) := by
  obtain ⟨hstaged, g, hg, hadjacent⟩ := hredirects
  rw [h.pending] at hstaged
  obtain ⟨e, he, hsame⟩ := List.mem_map.1 hstaged
  obtain ⟨b, hb, he⟩ := List.mem_flatMap.1 he
  obtain ⟨hcaller, x, hx, hrepair⟩ := Module.mem_repairsIn_iff.1 he
  rw [Prod.mk.injEq, hcaller] at hsame
  obtain ⟨rfl, hid⟩ := hsame
  rw [h.func?_eq hb, Option.some.injEq] at hg
  subst hg
  obtain ⟨name, hname, hpair⟩ := h.exists_adjacent hb hx hrepair
  have hsame : old.id = x.id := hid.symm.trans (Module.id_of_repairable? hrepair)
  obtain ⟨rfl, rfl⟩ :=
    eq_of_adjacent (h.redirected b hb).numbered.distinct hadjacent hpair hsame
  exact ⟨b, hb, rfl, x, hx, e.2, name, hrepair, hname, rfl, rfl⟩

/-- Every call that can be redirected has been. -/
theorem Underway.redirects {b : Func} (hb : b ∈ m.functions ++ clones) {x : Instr}
    (hx : x ∈ b.instrs) {c : CastCall} (hc : m.repairable? x = some c) :
    ∃ name, s.Redirects b.name (x.renumber (Rewrite.redirect (plan b.name)))
      (x.directed name (Rewrite.redirect (plan b.name))) := by
  obtain ⟨name, _, hpair⟩ := h.exists_adjacent hb hx hc
  refine ⟨name, ?_, _, h.func?_eq hb, hpair⟩
  rw [h.pending]
  refine List.mem_map.2 ⟨(b.name, c), List.mem_flatMap.2 ⟨b, hb, ?_⟩, ?_⟩
  · exact Module.mem_repairsIn_iff.2 ⟨rfl, x, hx, hc⟩
  · rw [Module.id_of_repairable? hc]
    rfl

/-- A recorded copy is in the result and fits what it was made of. -/
theorem Underway.exists_copy (hnames : m.DistinctNames) {key : String × Signature} {name : String}
    (hname : s.copies.lookup key = some name) : ∃ f copy, m.func? key.1 = some f ∧
      copy.name = name ∧ m.func? name = none ∧ s.finish.2.func? name = some copy ∧
      f.Fits key.2 copy := by
  obtain ⟨g, hg, f, rs, hsnapshot⟩ :=
    h.copying.exists_snapshot_of_mem (Copying.mem_of_lookup hname)
  have hgname : g.name = name := by
    rw [hsnapshot.copy]
    rfl
  have hsettled := settled_eq plan ((m.functions ++ clones).flatMap m.repairsOf) g
  refine ⟨f, settled plan ((m.functions ++ clones).flatMap m.repairsOf) g,
    hnames.func?_eq_some_iff.2 ⟨hsnapshot.mem, hsnapshot.name⟩,
    (Underway.name_settled g).trans hgname, ?_, ?_, ?_⟩
  · have hdistinct := h.names
    rw [List.map_append] at hdistinct
    refine Module.func?_eq_none_iff.2 fun f' hf' hsame => ?_
    exact List.disjoint_of_nodup_append hdistinct (List.mem_map_of_mem hf')
      (by rw [hsame, ← hgname]; exact List.mem_map_of_mem hg)
  · exact h.distinctNames_finish.func?_eq_some_iff.2
      ⟨h.copy_mem_functions_finish hg, (Underway.name_settled g).trans hgname⟩
  · rw [hsettled, hsnapshot.copy]
    exact ⟨rfl, rfl, rfl, rfl, rfl⟩

/-- Different keys have different copies. -/
theorem Underway.lookup_inj {key key' : String × Signature} {name : String}
    (hname : s.copies.lookup key = some name) (hname' : s.copies.lookup key' = some name) :
    key = key' := by
  have hdistinct : (s.copies.map Prod.snd).Nodup := by
    have hnames := h.names
    rw [List.map_append] at hnames
    rw [h.copying.map_snd]
    exact hnames.of_append_right
  have hsame := List.inj_on_of_nodup_map hdistinct (Copying.mem_of_lookup hname)
    (Copying.mem_of_lookup hname') rfl
  exact congrArg Prod.fst hsame

/-- A new call has a fresh identifier, so it is not staged itself. -/
theorem Underway.directed_mem_settled (hnum : m.Numbered) {b : Func}
    (hb : b ∈ m.functions ++ clones)
    {x : Instr} (hx : x ∈ b.instrs) {c : CastCall} (hc : m.repairable? x = some c) {name : String}
    (hname : s.copies.lookup c.key = some name) :
    x.directed name (Rewrite.redirect (plan b.name)) ∈
      (settled plan ((m.functions ++ clones).flatMap m.repairsOf) b).instrs := by
  obtain ⟨name', hname', hpair⟩ := h.exists_adjacent hb hx hc
  rw [hname, Option.some.injEq] at hname'
  subst hname'
  obtain ⟨r, hr, hold⟩ := h.exists_rewrite hb hx hc
  have hplanned := (h.redirected b hb).planned
  rw [settled, Func.instrs_clear, List.mem_filter, Func.name_rewriteBy, decide_eq_true_iff]
  refine ⟨hpair.subset (List.mem_cons_self ..), fun hstaged => ?_⟩
  obtain ⟨e, he, hsame⟩ := List.mem_map.1 hstaged
  obtain ⟨b', hb', he⟩ := List.mem_flatMap.1 he
  obtain ⟨hcaller, y, hy, hrepair⟩ := Module.mem_repairsIn_iff.1 he
  rw [Prod.mk.injEq, hcaller, Module.id_of_repairable? hrepair] at hsame
  obtain rfl := List.inj_on_of_nodup_map h.names hb' hb hsame.1
  have hid : y.id = r.result := by
    rw [hsame.2, ← Rewrite.redirect_of_mem hplanned.nodup hr, hold]
    rfl
  have hlt := (h.numbered hnum hb).below y hy
  have hge := hplanned.upcomingId_le_result (h.numbered hnum hb) hr
  omega

/-- The keys of the redirected calls are those under which copies are recorded. -/
theorem Underway.exists_redirects_iff {key : String × Signature} :
    (∃ caller old new, s.Redirects caller old new ∧ old.castKey? = some key) ↔
      key ∈ s.copies.map Prod.fst := by
  constructor
  · rintro ⟨caller, old, new, hredirects, hkey⟩
    obtain ⟨b, _, _, x, _, c, name, hrepair, hname, rfl, _⟩ := h.exists_of_redirects hredirects
    rw [Instr.castKey?_renumber,
      Module.castKey?_of_castCall? (Module.repairable?_eq_some_iff.1 hrepair).1,
      Option.some.injEq] at hkey
    rw [← isSome_lookup_iff, ← hkey, hname]
    rfl
  · intro hkey
    obtain ⟨entry, hentry, rfl⟩ := List.mem_map.1 hkey
    obtain ⟨_, _, _, _, hsnapshot⟩ := h.copying.exists_snapshot_of_mem hentry
    obtain ⟨e, he, hekey⟩ := hsnapshot.wanted
    obtain ⟨b, hb, he⟩ := List.mem_flatMap.1 he
    obtain ⟨_, x, hx, hrepair⟩ := Module.mem_repairsIn_iff.1 he
    obtain ⟨name, hredirects⟩ := h.redirects hb hx hrepair
    refine ⟨_, _, _, hredirects, ?_⟩
    rw [Instr.castKey?_renumber,
      Module.castKey?_of_castCall? (Module.repairable?_eq_some_iff.1 hrepair).1, hekey]

/-- Names and identifiers tell the old calls apart. -/
theorem Underway.nodup_pending (hnum : m.Numbered) : s.pending.instrs.Nodup := by
  rw [h.pending, List.map_flatMap, List.nodup_flatMap]
  constructor
  · intro f hf
    have hids := (h.numbered hnum hf).distinct
    rw [List.Nodup, List.pairwise_map] at hids
    rw [Module.repairsOf, Module.repairsIn, List.map_map, List.Nodup, List.pairwise_map,
      List.pairwise_filterMap]
    refine hids.imp fun hne c hc c' hc' hsame => hne ?_
    rw [← Module.id_of_repairable? hc, ← Module.id_of_repairable? hc']
    exact congrArg Prod.snd hsame
  · have hnames := h.names
    rw [List.Nodup, List.pairwise_map] at hnames
    refine hnames.imp fun {f g} hne e he he' => hne ?_
    have hcaller : ∀ b : Func, e ∈ (m.repairsOf b).map (fun e => (e.1, e.2.id)) → e.1 = b.name := by
      intro b hb
      obtain ⟨repair, hrepair, rfl⟩ := List.mem_map.1 hb
      exact (Module.mem_repairsIn_iff.1 hrepair).1
    rw [← hcaller f he, ← hcaller g he']

/-- The redirected calls, old and new: where they go, and whether they share a copy. -/
theorem Underway.sharesCopies {mode : Overflow} (hs : sweep mode m = .ok s)
    (hnames : m.DistinctNames) (hnum : m.Numbered) : s.SharesCopies m := by
  have hcounted := Counted.sweep hs
  refine ⟨?_, h.nodup_pending hnum, ?_, hcounted.redirected, ?_, ?_, ?_, ?_⟩
  · intro b hb i hi call hcall f hcast harity
    rw [h.pending, h.mem_staged_iff hnum (List.mem_append_left _ hb) hi, Option.isSome_iff_ne_none,
      ne_eq, hcast.repairable?_eq_none_iff hcall, ne_eq, not_not]
    exact harity
  · intro staged hstaged
    rw [h.pending] at hstaged
    obtain ⟨e, he, rfl⟩ := List.mem_map.1 hstaged
    obtain ⟨b, hb, he⟩ := List.mem_flatMap.1 he
    obtain ⟨hcaller, x, hx, hrepair⟩ := Module.mem_repairsIn_iff.1 he
    obtain ⟨name, hredirects⟩ := h.redirects hb hx hrepair
    rw [← hcaller] at hredirects
    refine ⟨_, _, ?_, hredirects⟩
    exact (Module.id_of_repairable? hrepair).symm
  · intro caller old new hredirects
    obtain ⟨b, _, _, x, _, c, name, hrepair, hname, rfl, rfl⟩ := h.exists_of_redirects hredirects
    obtain ⟨hcast, _⟩ := Module.repairable?_eq_some_iff.1 hrepair
    obtain ⟨call, hcall, _, hdefines, _, hsig⟩ := Module.castCall?_eq_some_iff.1 hcast
    obtain ⟨f, copy, hf, rfl, hnew, hout, hfits⟩ := h.exists_copy hnames hname
    refine ⟨_, c.target, f, copy, Instr.call?_directed hcall _ _, rfl, ?_, hf, ?_, hnew, hout, ?_⟩
    · rw [Instr.castKey?_renumber, Module.castKey?_of_castCall? hcast, CastCall.key, hsig]
    · rw [Module.defines, show m.func? c.target = some f from hf] at hdefines
      simpa using hdefines
    · rw [← hsig]
      exact hfits
  · intro caller old new hredirects g hg
    obtain ⟨b, hb, rfl, x, hx, c, name, hrepair, hname, rfl, rfl⟩ :=
      h.exists_of_redirects hredirects
    obtain ⟨hgmem, hgname⟩ := Module.mem_of_func? hg
    rw [h.functions_finish] at hgmem
    obtain ⟨b', hb', rfl⟩ := List.mem_map.1 (List.mem_of_mem_filter hgmem)
    rw [Underway.name_settled] at hgname
    obtain rfl := List.inj_on_of_nodup_map h.names hb' hb hgname
    exact h.directed_mem_settled hnum hb hx hrepair hname
  · intro caller old new caller' old' new' hredirects hredirects'
    obtain ⟨_, _, _, x, _, c, name, hrepair, hname, rfl, rfl⟩ := h.exists_of_redirects hredirects
    obtain ⟨_, _, _, x', _, c', name', hrepair', hname', rfl, rfl⟩ :=
      h.exists_of_redirects hredirects'
    have hcast := (Module.repairable?_eq_some_iff.1 hrepair).1
    have hcast' := (Module.repairable?_eq_some_iff.1 hrepair').1
    rw [Instr.castKey?_renumber, Instr.castKey?_renumber, Module.castKey?_of_castCall? hcast,
      Module.castKey?_of_castCall? hcast', Instr.called?_directed hcast,
      Instr.called?_directed hcast', Option.some.injEq, Option.some.injEq]
    constructor
    · rintro rfl
      exact h.lookup_inj hname hname'
    · intro hkey
      rw [hkey, hname', Option.some.injEq] at hname
      exact hname.symm
  · have hkeys : {key | ∃ caller old new, s.Redirects caller old new ∧ old.castKey? = some key} =
        ((s.copies.map Prod.fst).toFinset : Set (String × Signature)) := by
      ext key
      rw [Set.mem_ofPred_eq, h.exists_redirects_iff, Finset.mem_coe, List.mem_toFinset]
    rw [hkeys, Set.ncard_coe_finset, List.toFinset_card_of_nodup h.copying.keys, List.length_map]
    exact hcounted.created

end Swept

end Repair

namespace Module

end Module

end Postlink
